import DirectiveTemplates.Proofs.Binding.Walk

/-!
Lexical scoping. An expression sees the variables of the directive tag it stands at, then those of
the directives around it from the inside out, and then the object of the template.
-/
namespace DirectiveTemplates.Compiler

open CompileM

variable (c : Compiler)

def body (source className : String) : CompileM (List TemplateNode) := do
  let forest := Markup.parse source
  modify fun p => { p with scope := p.scope.declare thisName (.simple className) }
  report forest.problems
  retracting [thisName] (c.nodes forest.nodes)

theorem template_eq (source className : String) :
    c.template source className =
      c.usePackage c.config.defaultPrefix c.config.defaultPackage ⟨0, 0⟩ >>= fun _ =>
        c.body source className := rfl

theorem compile_eq (source className : String) :
    c.compile source className = ⟨((c.template source className).run .start).1,
      ((c.template source className).run .start).2⟩ := rfl

def entered (source className : String) : Progress :=
  let p := ((c.usePackage c.config.defaultPrefix c.config.defaultPackage ⟨0, 0⟩).run .start).2
  let named : Progress := { p with scope := p.scope.declare thisName (.simple className) }
  named.report (Markup.parse source).problems

theorem run_body (source className : String) (p : Progress) :
    (c.body source className).run p =
      (retracting [thisName] (c.nodes (Markup.parse source).nodes)).run
        (Progress.report { p with scope := p.scope.declare thisName (.simple className) }
          (Markup.parse source).problems) := rfl

/-- A compilation ends before the walk when the default package cannot be used. -/
theorem compile_eq_walk (source className : String) :
    (∃ e, (c.compile source className).result = .error e ∧
      (c.compile source className).progress.calls = []) ∨
    (c.compile source className).result =
        ((c.nodes (Markup.parse source).nodes).run (c.entered source className)).1 ∧
      (c.compile source className).progress.calls =
        ((c.nodes (Markup.parse source).nodes).run (c.entered source className)).2.calls := by
  obtain ⟨-, calls⟩ :=
    run_usePackage c c.config.defaultPrefix c.config.defaultPackage ⟨0, 0⟩ .start
  rw [compile_eq, template_eq, run_bind]
  unfold entered
  cases used : (c.usePackage c.config.defaultPrefix c.config.defaultPackage ⟨0, 0⟩).run .start with
  | mk outcome p =>
    rw [used] at calls
    cases outcome with
    | error e => exact .inl ⟨e, rfl, calls⟩
    | ok _ =>
      simp only [run_body, run_retracting, foldl_retract, and_self, or_true]

theorem scope_entered (source className : String) :
    (c.entered source className).scope = Scope.empty.declare thisName (.simple className) := by
  obtain ⟨scope, -⟩ := run_usePackage c c.config.defaultPrefix c.config.defaultPackage ⟨0, 0⟩ .start
  show Scope.declare _ _ _ = _
  rw [scope]
  rfl

theorem calls_entered (source className : String) : (c.entered source className).calls = [] :=
  (run_usePackage c c.config.defaultPrefix c.config.defaultPackage ⟨0, 0⟩ .start).2

theorem type?_entered (source className name : String) :
    (c.entered source className).scope.type? name = typeIn className [] name := by
  rw [scope_entered, Scope.type?_declare]
  rfl

theorem walked_template (source className : String) :
    c.Walked className [] (Markup.parse source).nodes (c.entered source className)
      ((c.nodes (Markup.parse source).nodes).run (c.entered source className)) :=
  c.nodes_walked className [] (Markup.parse source).nodes (c.entered source className)

/-- The plans of a template are those of its calls, each under the variables around it. -/
theorem plannedAll_compile {source className : String} {nodes : List TemplateNode}
    (ok : (c.compile source className).result = .ok nodes) :
    c.PlannedAll (c.compile source className).progress.calls
      (Scope.empty.declare thisName (.simple className)) nodes := by
  obtain ⟨new, calls, -, planned⟩ := (c.walked_template source className).calls
  rw [calls_entered, List.nil_append] at calls
  rcases c.compile_eq_walk source className with ⟨e, failed, -⟩ | ⟨result, calls'⟩
  · rw [failed] at ok
    cases ok
  · rw [calls', calls, ← c.scope_entered source className]
    exact planned nodes (result ▸ ok)

/-- Scoping is lexical. Every text that is compiled is an attribute of a directive tag that the
walk comes to, and the scope gives each name the type of its innermost declaration there. A walk
leaves the scope it started with, also when it fails. -/
theorem compile_scoping (source className : String) :
    (∀ call ∈ (c.compile source className).progress.calls, ∃ d around,
      c.Reaches (c.entered source className) [] (Markup.parse source).nodes (d :: around) ∧
        d.Compiles call ∧
        ∀ name, call.scope.type? name = typeIn className (d :: around) name) ∧
    ∀ ns p, ((c.nodes ns).run p).2.scope = p.scope := by
  constructor
  · intro call mem
    obtain ⟨new, calls, sited, -⟩ := (c.walked_template source className).calls
    rw [calls_entered, List.nil_append] at calls
    rcases c.compile_eq_walk source className with ⟨e, -, none⟩ | ⟨-, calls'⟩
    · rw [none] at mem
      exact absurd mem List.not_mem_nil
    · rw [calls', calls] at mem
      exact sited (c.type?_entered source className) call mem
  · intro ns p
    exact (c.nodes_walked thisName [] ns p).scope

end DirectiveTemplates.Compiler
