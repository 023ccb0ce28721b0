import DirectiveTemplates.Binding.Compile
import DirectiveTemplates.Proofs.Directive.Registry

/-!
Steps of a compilation that find nothing wrong. Diagnostics are only ever added, so a compilation
without any went through every step without any, and what a clean step ensures holds at the end.
-/
namespace DirectiveTemplates

namespace CompileM

variable {α β : Type}

theorem run_bind (x : CompileM α) (f : α → CompileM β) (p : Progress) :
    (x >>= f).run p = match x.run p with
      | (.ok a, q) => (f a).run q
      | (.error e, q) => (.error e, q) := by
  show (x.run >>= ExceptT.bindCont f) p = _
  simp only [bind, StateT.bind]
  generalize x.run p = result
  obtain ⟨outcome, q⟩ := result
  cases outcome <;> rfl

theorem run_get (p : Progress) : (get : CompileM Progress).run p = (.ok p, p) := rfl

theorem run_set (p q : Progress) : (set q : CompileM Unit).run p = (.ok (), q) := rfl

/-- A step keeps the registry sound and the diagnostics so far; when it adds none and does not fail,
its result is as it should be. -/
def Ensures (classes : ClassTable) (x : CompileM α) (post : α → Prop) : Prop :=
  ∀ p outcome q, x.run p = (outcome, q) → p.registry.Sound classes →
    q.registry.Sound classes ∧ p.diagnostics <+: q.diagnostics ∧
      (q.diagnostics = p.diagnostics → ∀ a, outcome = .ok a → post a)

namespace Ensures

variable {classes : ClassTable} {x : CompileM α} {post : α → Prop}

theorem mono {post' : α → Prop} (h : Ensures classes x post) (imp : ∀ a, post a → post' a) :
    Ensures classes x post' := by
  intro p outcome q run sound
  obtain ⟨sound', grown, ensured⟩ := h p outcome q run sound
  exact ⟨sound', grown, fun clean a eq => imp a (ensured clean a eq)⟩

theorem pure {a : α} (h : post a) : Ensures classes (pure a) post := by
  intro p outcome q run sound
  cases run
  refine ⟨sound, List.prefix_rfl, ?_⟩
  intro _ a' eq
  cases eq
  exact h

/-- What the second step ensures may rest on what the first one did. -/
theorem bind {f : α → CompileM β} {post' : β → Prop} (h : Ensures classes x post)
    (h' : ∀ a, Ensures classes (f a) fun b => post a → post' b) :
    Ensures classes (x >>= f) post' := by
  intro p outcome q run sound
  rw [run_bind] at run
  cases first : x.run p with
  | mk result r =>
    obtain ⟨sound', grown, ensured⟩ := h p result r first sound
    rw [first] at run
    cases result with
    | error e =>
      cases run
      exact ⟨sound', grown, fun _ a eq => by cases eq⟩
    | ok a =>
      obtain ⟨sound'', grown', ensured'⟩ := h' a r outcome q run sound'
      refine ⟨sound'', grown.trans grown', ?_⟩
      intro clean b eq
      have same : r.diagnostics = p.diagnostics := by
        have back : r.diagnostics <+: p.diagnostics := clean ▸ grown'
        exact back.eq_of_length_le grown.length_le
      exact ensured' (clean.trans same.symm) b eq (ensured same a rfl)

theorem get : Ensures classes MonadState.get fun p : Progress => p.registry.Sound classes := by
  intro p outcome q run sound
  cases run
  refine ⟨sound, List.prefix_rfl, ?_⟩
  intro _ a eq
  cases eq
  exact sound

/-- A change of progress that reports nothing and leaves the registry alone. -/
theorem modify {f : Progress → Progress} (registry : ∀ p, (f p).registry = p.registry)
    (diagnostics : ∀ p, (f p).diagnostics = p.diagnostics) :
    Ensures classes (modify f : CompileM Unit) fun _ => True := by
  intro p outcome q run sound
  cases run
  refine ⟨?_, ?_, fun _ _ _ => trivial⟩
  · show (f p).registry.Sound classes
    rw [registry]
    exact sound
  · exact ⟨[], by rw [List.append_nil, diagnostics]⟩

theorem report (ds : List Diagnostic) : Ensures classes (report ds) fun _ => ds = [] := by
  intro p outcome q run sound
  cases run
  refine ⟨sound, List.prefix_append _ _, ?_⟩
  intro clean _ _
  have same : p.diagnostics ++ ds = p.diagnostics := clean
  exact List.append_right_eq_self.mp same

theorem problem (span : Span) (p : TemplateProblem) :
    Ensures classes (problem span p) fun _ => False :=
  (report _).mono fun _ => by simp

theorem retracting (names : List String) (h : Ensures classes x post) :
    Ensures classes (retracting names x) post := by
  have kept (names : List String) (p : Progress) :
      (names.foldl Progress.retract p).registry = p.registry ∧
        (names.foldl Progress.retract p).diagnostics = p.diagnostics := by
    induction names generalizing p with
    | nil => exact ⟨rfl, rfl⟩
    | cons name names ih => exact ih (p.retract name)
  intro p outcome q run sound
  cases inner : x.run p with
  | mk result r =>
    obtain ⟨sound', grown, ensured⟩ := h p result r inner sound
    have eq : (CompileM.retracting names x).run p = (result, names.foldl Progress.retract r) := by
      simp only [CompileM.retracting, ExceptT.run_mk]
      rw [inner]
    rw [eq] at run
    cases run
    rw [(kept names r).1, (kept names r).2]
    exact ⟨sound', grown, ensured⟩

end Ensures

end CompileM

end DirectiveTemplates
