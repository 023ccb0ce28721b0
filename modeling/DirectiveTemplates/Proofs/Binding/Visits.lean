import DirectiveTemplates.Proofs.Binding.Forests
import DirectiveTemplates.Proofs.Binding.Scoping
import DirectiveTemplates.Proofs.Markup.Places
import Mathlib.Data.List.Forall2

/-!
The nodes that the walk over a forest comes to, one after another, and what the compilation has come
to by then. A walk goes through a forest in document order. It leaves out what is inside a directive
that is not defined or takes no content, and it ends with the first failure.
-/
namespace DirectiveTemplates

inductive Meaning where
  | literal
  /-- It has a namespace, and no directive has its name. -/
  | undefined
  | directive (s : Signature)

namespace Meaning

def of (resolve : String → String → Option Signature) (tag : Markup.StartTag) : Meaning :=
  match Markup.splitNamespace tag.name with
  | none => literal
  | some (space, name) =>
    match resolve space name with
    | none => undefined
    | some s => directive s

def takesContent : Meaning → Bool
  | literal => true
  | undefined => false
  | directive s => s.contentSetter.isSome

def signature? : Meaning → Option Signature
  | directive s => some s
  | _ => none

end Meaning

structure Arrival where
  node : Markup.Node
  progress : Progress

namespace Arrival

def signature? (a : Arrival) : Option Signature :=
  match a.node with
  | .element tag _ _ _ => (Meaning.of a.progress.registry.resolve tag).signature?
  | _ => none

end Arrival

structure DirectiveUse.Of (u : DirectiveUse) (s : Signature) : Prop where
  className : u.className = s.owner
  name : u.name = s.name
  contentSetter : u.contentSetter = s.contentSetter

namespace Compiler

open CompileM

variable (c : Compiler)

/-- Content is a problem where a directive neither takes nor ignores it. -/
def contentProblems (s : Signature) (span : Span) (children : List Markup.Node) : List Diagnostic :=
  if s.contentSetter.isNone && !s.ignoresContent && !children.isEmpty then
    [⟨span, (TemplateProblem.unexpectedContent s.owner).message⟩]
  else []

def own : Markup.Node → Progress → Progress
  | .text _, p | .comment _, p => p
  | .instruction i, p => ((c.instruction i).run p).2
  | .element tag span _ children, p =>
    match Meaning.of p.registry.resolve tag with
    | .literal => p
    | .undefined => p.report [⟨tag.nameSpan, (TemplateProblem.undefinedDirective tag.name).message⟩]
    | .directive s => ((c.directiveParts tag s).run p).2.report (contentProblems s span children)

mutual

def arrivalsIn : Markup.Node → Progress → List Arrival
  | .element tag span stop children, p =>
    ⟨.element tag span stop children, p⟩ ::
      if (Meaning.of p.registry.resolve tag).takesContent then
        arrivalsAll children (c.own (.element tag span stop children) p)
      else []
  | .text t, p => [⟨.text t, p⟩]
  | .comment t, p => [⟨.comment t, p⟩]
  | .instruction i, p => [⟨.instruction i, p⟩]

def arrivalsAll : List Markup.Node → Progress → List Arrival
  | [], _ => []
  | n :: ns, p =>
    arrivalsIn n p ++
      match (c.node n).run p with
      | (.ok _, q) => arrivalsAll ns q
      | (.error _, _) => []

end

def inside (tag : Markup.StartTag) (children : List Markup.Node) (p q : Progress) :
    Except ReadFailure (List TemplateNode) × Progress :=
  if (Meaning.of p.registry.resolve tag).takesContent then (c.nodes children).run q else (.ok [], q)

variable {c}

structure Wraps (a : Arrival) (wrap : List TemplateNode → List TemplateNode) : Prop where
  uses : ∀ ts uses, List.Forall₂ DirectiveUse.Of (TemplateNode.usesAll ts) uses →
    List.Forall₂ DirectiveUse.Of (TemplateNode.usesAll (wrap ts)) (a.signature?.toList ++ uses)

variable (c)

theorem of_directiveParts {tag : Markup.StartTag} {s : Signature} {p q : Progress}
    {u : DirectiveUse} (run : (c.directiveParts tag s).run p = (.ok u, q)) : u.Of s := by
  obtain ⟨vs, ds, bound, -⟩ := run_bindVariables_nil tag (s.withRole (· = .binder)) p
  obtain ⟨es, ds', calls, compiled, -⟩ := c.run_bindExpressions tag (s.withRole (· ≠ .binder))
    { p.report ds with scope := p.scope.declareAll vs }
  rw [directiveParts, run_bind, bound] at run
  simp only at run
  rw [run_bind, compiled] at run
  cases run
  exact ⟨rfl, rfl, rfl⟩

/-- An element is bound from its content, after what the walk does at the element itself. -/
theorem run_element (tag : Markup.StartTag) (span : Span) (stop : Option Span)
    (children : List Markup.Node) (p : Progress) :
    ∃ (wrap : List TemplateNode → List TemplateNode) (names : List String),
      Wraps ⟨.element tag span stop children, p⟩ wrap ∧
      (c.node (.element tag span stop children)).run p =
        ((c.inside tag children p (c.own (.element tag span stop children) p)).1.map wrap,
          names.foldl Progress.retract
            (c.inside tag children p (c.own (.element tag span stop children) p)).2) := by
  rw [Compiler.node]
  cases named : Markup.splitNamespace tag.name with
  | none =>
    have meaning : Meaning.of p.registry.resolve tag = .literal := by simp only [Meaning.of, named]
    simp only [inside, own, meaning, Meaning.takesContent, if_true, run_map]
    refine ⟨_, [], ⟨?_⟩, rfl⟩
    intro ts uses all
    simpa [TemplateNode.usesAll, TemplateNode.uses, Arrival.signature?, meaning,
      Meaning.signature?] using all
  | some parts =>
    obtain ⟨space, name⟩ := parts
    simp only
    rw [run_bind, run_get]
    simp only
    cases found : p.registry.resolve space name with
    | none =>
      have meaning : Meaning.of p.registry.resolve tag = .undefined := by
        simp only [Meaning.of, named, found]
      simp only [inside, own, meaning, Meaning.takesContent]
      refine ⟨id, [], ⟨?_⟩, rfl⟩
      intro ts uses all
      simpa [Arrival.signature?, meaning, Meaning.signature?] using all
    | some s =>
      have meaning : Meaning.of p.registry.resolve tag = .directive s := by
        simp only [Meaning.of, named, found]
      obtain ⟨u, q, parts⟩ := c.exists_parts ⟨tag, s⟩ p
      have use := c.of_directiveParts parts.run
      refine ⟨fun ts => [.directive u ts], (u.binders.map (·.name)).reverse, ⟨?_⟩, ?_⟩
      · intro ts uses all
        simpa [TemplateNode.usesAll, TemplateNode.uses, Arrival.signature?, meaning,
          Meaning.signature?, use] using all
      · have run : (c.directiveParts tag s).run p = (.ok u, q) := parts.run
        simp only [inside, own, meaning, Meaning.takesContent]
        rw [run_bind, run]
        simp only
        rw [run_retracting]
        by_cases takes : s.contentSetter.isSome
        · have given : s.contentSetter.isNone = false := by simpa using takes
          simp only [takes, contentProblems, given, if_true, run_map, Bool.false_and,
            Bool.false_eq_true, if_false, Progress.report_nil]
        · have none : s.contentSetter.isNone = true := by simpa using takes
          simp only [takes, contentProblems, none, Bool.false_eq_true, if_false, Bool.true_and]
          split
          · rfl
          · rw [Progress.report_nil]
            rfl

section Tracking

variable {γ : Type} {R : List γ → Progress → Prop} {f : Arrival → List γ}

structure Tracks (R : List γ → Progress → Prop) (f : Arrival → List γ) : Prop where
  scope : ∀ facts p s, R facts p → R facts { p with scope := s }
  own : ∀ facts n p, R facts p → R (facts ++ f ⟨n, p⟩) (c.own n p)

def Along (R : List γ → Progress → Prop) (f : Arrival → List γ) : List γ → List Arrival → Prop
  | _, [] => True
  | facts, a :: rest => R facts a.progress ∧ Along R f (facts ++ f a) rest

theorem Along.append {facts : List γ} {xs ys : List Arrival} (h : Along R f facts xs)
    (h' : Along R f (facts ++ xs.flatMap f) ys) : Along R f facts (xs ++ ys) := by
  induction xs generalizing facts with
  | nil => simpa using h'
  | cons x xs ih =>
    refine ⟨h.1, ih h.2 ?_⟩
    rwa [List.append_assoc, ← List.flatMap_cons]

theorem Along.at {facts : List γ} {before after : List Arrival} {a : Arrival}
    (h : Along R f facts (before ++ a :: after)) : R (facts ++ before.flatMap f) a.progress := by
  induction before generalizing facts with
  | nil => simpa using h.1
  | cons x xs ih =>
    have later := ih h.2
    rwa [List.append_assoc, ← List.flatMap_cons] at later

variable {c}

mutual

theorem Tracks.node (h : c.Tracks R f) : (n : Markup.Node) → (p : Progress) → (facts : List γ) →
    R facts p → R (facts ++ (c.arrivalsIn n p).flatMap f) ((c.node n).run p).2 ∧
      Along R f facts (c.arrivalsIn n p)
  | .text t, p, facts, known => by
    rw [arrivalsIn, List.flatMap_singleton]
    exact ⟨h.own facts (.text t) p known, known, trivial⟩
  | .comment t, p, facts, known => by
    rw [arrivalsIn, List.flatMap_singleton]
    exact ⟨h.own facts (.comment t) p known, known, trivial⟩
  | .instruction i, p, facts, known => by
    rw [Compiler.node, run_map, arrivalsIn, List.flatMap_singleton]
    exact ⟨h.own facts (.instruction i) p known, known, trivial⟩
  | .element tag span stop children, p, facts, known => by
    have own := h.own facts (.element tag span stop children) p known
    obtain ⟨wrap, names, -, run⟩ := c.run_element tag span stop children p
    rw [run, arrivalsIn, List.flatMap_cons, foldl_retract, ← List.append_assoc]
    unfold inside
    split
    · obtain ⟨after, along⟩ := Tracks.nodes h children _ _ own
      exact ⟨h.scope _ _ _ after, known, along⟩
    · rw [List.flatMap_nil, List.append_nil]
      exact ⟨h.scope _ _ _ own, known, trivial⟩

theorem Tracks.nodes (h : c.Tracks R f) : (ns : List Markup.Node) → (p : Progress) →
    (facts : List γ) → R facts p →
      R (facts ++ (c.arrivalsAll ns p).flatMap f) ((c.nodes ns).run p).2 ∧
        Along R f facts (c.arrivalsAll ns p)
  | [], p, facts, known => by
    rw [arrivalsAll, List.flatMap_nil, List.append_nil]
    exact ⟨known, trivial⟩
  | n :: ns, p, facts, known => by
    obtain ⟨here, along⟩ := Tracks.node h n p facts known
    rw [Compiler.nodes, run_bind, arrivalsAll]
    cases run : (c.node n).run p with
    | mk outcome q =>
      rw [run] at here
      cases outcome with
      | error e =>
        simp only [List.append_nil]
        exact ⟨here, along⟩
      | ok ts =>
        obtain ⟨after, along'⟩ := Tracks.nodes h ns q _ here
        simp only [run_map, List.flatMap_append, ← List.append_assoc]
        exact ⟨after, along.append along'⟩

end

end Tracking

mutual

theorem arrivalsIn_sublist : (n : Markup.Node) → (p : Progress) →
    ((c.arrivalsIn n p).map (·.node)).Sublist n.preorder
  | .text _, _ | .comment _, _ | .instruction _, _ => List.Sublist.refl _
  | .element tag span stop children, p => by
    rw [arrivalsIn, Markup.Node.preorder]
    apply List.Sublist.cons_cons
    split
    · exact arrivalsAll_sublist children _
    · exact List.nil_sublist _

/-- The walk takes the nodes in document order, each at most once. -/
theorem arrivalsAll_sublist : (ns : List Markup.Node) → (p : Progress) →
    ((c.arrivalsAll ns p).map (·.node)).Sublist (Markup.preorderAll ns)
  | [], _ => List.Sublist.refl _
  | n :: ns, p => by
    rw [arrivalsAll, Markup.preorderAll, List.map_append]
    apply (arrivalsIn_sublist n p).append
    split
    · exact arrivalsAll_sublist ns _
    · exact List.nil_sublist _

end

mutual

/-- The uses that the nodes of a walk are bound to are those of the directives it came to. -/
theorem uses_arrivalsIn : (n : Markup.Node) → (p : Progress) → ∀ ts q,
    (c.node n).run p = (.ok ts, q) →
      List.Forall₂ DirectiveUse.Of (TemplateNode.usesAll ts)
        ((c.arrivalsIn n p).filterMap Arrival.signature?)
  | .text _, _, ts, q, run => by
    cases run
    exact .nil
  | .comment _, _, ts, q, run => by
    cases run
    exact .nil
  | .instruction i, p, ts, q, run => by
    rw [Compiler.node, run_map] at run
    obtain ⟨_, -, rfl⟩ := exists_of_map_ok (congrArg Prod.fst run)
    exact .nil
  | .element tag span stop children, p, ts, q, run => by
    obtain ⟨wrap, names, wraps, eq⟩ := c.run_element tag span stop children p
    rw [eq] at run
    obtain ⟨ts', outcome, rfl⟩ := exists_of_map_ok (congrArg Prod.fst run)
    have first (a : Arrival) (rest : List Arrival) : (a :: rest).filterMap Arrival.signature? =
        a.signature?.toList ++ rest.filterMap Arrival.signature? := by
      rw [List.filterMap_cons]
      cases a.signature? <;> rfl
    rw [arrivalsIn, first]
    apply wraps.uses
    unfold inside at outcome
    split
    · rename_i takes
      rw [if_pos takes] at outcome
      exact uses_arrivalsAll children _ ts' _ (Prod.ext outcome rfl)
    · rename_i refuses
      rw [if_neg refuses] at outcome
      cases outcome
      exact .nil

theorem uses_arrivalsAll : (ns : List Markup.Node) → (p : Progress) → ∀ ts q,
    (c.nodes ns).run p = (.ok ts, q) →
      List.Forall₂ DirectiveUse.Of (TemplateNode.usesAll ts)
        ((c.arrivalsAll ns p).filterMap Arrival.signature?)
  | [], _, ts, q, run => by
    cases run
    exact .nil
  | n :: ns, p, ts, q, run => by
    rw [Compiler.nodes, run_bind] at run
    rw [arrivalsAll]
    cases first : (c.node n).run p with
    | mk outcome r =>
      rw [first] at run
      cases outcome with
      | error e => cases run
      | ok here =>
        simp only [run_map] at run
        obtain ⟨rest, outcome, rfl⟩ := exists_of_map_ok (congrArg Prod.fst run)
        rw [TemplateNode.usesAll_append, List.filterMap_append]
        apply List.rel_append (uses_arrivalsIn n p here r first)
        exact uses_arrivalsAll ns r rest _ (Prod.ext outcome rfl)

end

def defaultUse : Registry.Use :=
  Registry.empty.usePackage c.config c.classes c.resources c.config.defaultPrefix
    c.config.defaultPackage ⟨0, 0⟩

def arrivals (source className : String) : List Arrival :=
  match c.defaultUse.failure with
  | some _ => []
  | none => c.arrivalsAll (Markup.parse source).nodes (c.entered source className)

theorem arrivals_of_default (used : c.defaultUse.failure = none) (source className : String) :
    c.arrivals source className =
      c.arrivalsAll (Markup.parse source).nodes (c.entered source className) := by
  rw [arrivals, used]

theorem arrivals_sublist (source className : String) :
    ((c.arrivals source className).map (·.node)).Sublist
      (Markup.preorderAll (Markup.parse source).nodes) := by
  unfold arrivals
  split
  · exact List.nil_sublist _
  · exact c.arrivalsAll_sublist _ _

theorem run_default :
    (c.usePackage c.config.defaultPrefix c.config.defaultPackage ⟨0, 0⟩).run .start =
      (c.defaultUse.failure.elim (.ok ()) .error,
        { Progress.start with
          registry := c.defaultUse.registry
          diagnostics := c.defaultUse.diagnostics
          requested := [c.config.descriptorResource c.config.defaultPackage] }) :=
  run_usePackage_eq c _ _ _ .start

/-- A walk starts with what the default package and the markup have left. -/
theorem entered_eq (source className : String) :
    c.entered source className =
      { registry := c.defaultUse.registry
        imports := .none
        scope := Scope.empty.declare thisName (.simple className)
        diagnostics := c.defaultUse.diagnostics ++ (Markup.parse source).problems
        calls := []
        requested := [c.config.descriptorResource c.config.defaultPackage] } := by
  rw [entered, run_default]
  rfl

theorem compile_of_default (used : c.defaultUse.failure = none) (source className : String) :
    ∃ scope,
      let walked := (c.nodes (Markup.parse source).nodes).run (c.entered source className)
      c.compile source className = ⟨walked.1, { walked.2 with scope }⟩ := by
  rw [compile_eq, template_eq, run_bind, entered, run_default, used]
  simp only [Option.elim, run_body, run_retracting, foldl_retract]
  exact ⟨_, rfl⟩

theorem default_of_ok {source className : String} {nodes : List TemplateNode}
    (ok : (c.compile source className).result = .ok nodes) : c.defaultUse.failure = none := by
  cases failed : c.defaultUse.failure with
  | none => rfl
  | some failure =>
    rw [compile_eq, template_eq, run_bind, run_default, failed] at ok
    cases ok

end Compiler

end DirectiveTemplates
