import DirectiveTemplates.Proofs.Binding.Parts

/-!
The walk over a markup forest. However it ends, the declarations in force are those from before.
Every use of the expression compiler belongs to a directive tag that the walk comes to, and sees
the variables of that tag and of the directives around it.
-/
namespace DirectiveTemplates

/-- The type of the innermost variable with a name. The directives are listed from the inside, and
around all of them stands the object of the template. -/
def typeIn (className : String) : List Applied → String → Option ValueType
  | [], name => if name = Compiler.thisName then some (.simple className) else none
  | d :: ds, name => (d.declarations.lookup name).or (typeIn className ds name)

namespace Compiler

open CompileM

variable (c : Compiler)

/-- The walk over a forest inside the directives `around` comes to a directive: the first of
`chain`, with the others around it. What a tag means may depend on the instructions before it. -/
inductive Reaches : Progress → List Applied → List Markup.Node → List Applied → Prop
  | later {p q around n ns ts chain} (run : (c.node n).run p = (.ok ts, q))
      (rest : Reaches q around ns chain) : Reaches p around (n :: ns) chain
  | element {p around tag span stop children ns chain}
      (plain : Markup.splitNamespace tag.name = none)
      (inside : Reaches p around children chain) :
      Reaches p around (.element tag span stop children :: ns) chain
  | here {p : Progress} {around tag span stop children ns space name s}
      (named : Markup.splitNamespace tag.name = some (space, name))
      (found : p.registry.resolve space name = some s) :
      Reaches p around (.element tag span stop children :: ns) (⟨tag, s⟩ :: around)
  | content {p q : Progress} {u around tag span stop children ns space name s chain}
      (named : Markup.splitNamespace tag.name = some (space, name))
      (found : p.registry.resolve space name = some s)
      (takes : s.contentSetter.isSome)
      (run : (c.directiveParts tag s).run p = (.ok u, q))
      (inside : Reaches q (⟨tag, s⟩ :: around) children chain) :
      Reaches p around (.element tag span stop children :: ns) chain

/-- A call compiles an attribute of a directive that a walk comes to, and the scope gives every
name its innermost declaration around that attribute. -/
def Sited (className : String) (p : Progress) (around : List Applied) (ns : List Markup.Node)
    (call : CompileCall) : Prop :=
  ∃ d chain, c.Reaches p around ns (d :: chain) ∧ d.Compiles call ∧
    ∀ name, call.scope.type? name = typeIn className (d :: chain) name

mutual

/-- Every plan in a bound node was made by one of the calls, under the scope of its place. -/
def PlannedAt (calls : List CompileCall) : Scope → TemplateNode → Prop
  | _, .text _ => True
  | s, .element _ _ children => PlannedAll calls s children
  | s, .directive u content =>
    c.PlannedIn calls (s.declareAll u.binders) u.computations u.actions ∧
      PlannedAll calls (s.declareAll u.binders) content

def PlannedAll (calls : List CompileCall) : Scope → List TemplateNode → Prop
  | _, [] => True
  | s, n :: ns => PlannedAt calls s n ∧ PlannedAll calls s ns

end

variable {c}

theorem PlannedIn.mono {calls calls' : List CompileCall} {s : Scope}
    {computations : List ComputationBinding} {actions : List ActionBinding}
    (h : c.PlannedIn calls s computations actions) (sub : calls ⊆ calls') :
    c.PlannedIn calls' s computations actions := by
  constructor
  · intro b mem
    obtain ⟨call, among, planned⟩ := h.computations b mem
    exact ⟨call, sub among, planned⟩
  · intro b mem
    obtain ⟨call, among, planned⟩ := h.actions b mem
    exact ⟨call, sub among, planned⟩

mutual

theorem PlannedAt.mono {calls calls' : List CompileCall} (sub : calls ⊆ calls') :
    {s : Scope} → {n : TemplateNode} → c.PlannedAt calls s n → c.PlannedAt calls' s n
  | _, .text _, _ => trivial
  | _, .element _ _ _, h => PlannedAll.mono sub h
  | _, .directive _ _, ⟨planned, inside⟩ => ⟨planned.mono sub, PlannedAll.mono sub inside⟩

theorem PlannedAll.mono {calls calls' : List CompileCall} (sub : calls ⊆ calls') :
    {s : Scope} → {ns : List TemplateNode} → c.PlannedAll calls s ns → c.PlannedAll calls' s ns
  | _, [], _ => trivial
  | _, _ :: _, ⟨first, rest⟩ => ⟨PlannedAt.mono sub first, PlannedAll.mono sub rest⟩

end

theorem PlannedAll.append {calls : List CompileCall} {s : Scope} {ns ns' : List TemplateNode}
    (h : c.PlannedAll calls s ns) (h' : c.PlannedAll calls s ns') :
    c.PlannedAll calls s (ns ++ ns') := by
  induction ns with
  | nil => exact h'
  | cons n ns ih => exact ⟨h.1, ih h.2⟩

theorem Sited.later {className : String} {p q : Progress} {around : List Applied} {n : Markup.Node}
    {ns : List Markup.Node} {ts : List TemplateNode} {call : CompileCall}
    (run : (c.node n).run p = (.ok ts, q)) (h : c.Sited className q around ns call) :
    c.Sited className p around (n :: ns) call := by
  obtain ⟨d, chain, reached, compiles, types⟩ := h
  exact ⟨d, chain, .later run reached, compiles, types⟩

variable (c)

structure Walked (className : String) (around : List Applied) (ns : List Markup.Node)
    (p : Progress) (result : Except ReadFailure (List TemplateNode) × Progress) : Prop where
  scope : result.2.scope = p.scope
  calls : ∃ new, result.2.calls = p.calls ++ new ∧
    ((∀ name, p.scope.type? name = typeIn className around name) →
      ∀ call ∈ new, c.Sited className p around ns call) ∧
    ∀ ts, result.1 = .ok ts → c.PlannedAll new p.scope ts

variable {c}

/-- A step without calls that leaves the scope alone. -/
theorem Walked.quiet {className : String} {around : List Applied} {ns : List Markup.Node}
    {p : Progress} {result : Except ReadFailure (List TemplateNode) × Progress}
    (scope : result.2.scope = p.scope) (calls : result.2.calls = p.calls)
    (none : ∀ ts, result.1 = .ok ts → c.PlannedAll [] p.scope ts) :
    c.Walked className around ns p result :=
  ⟨scope, [], by rw [calls, List.append_nil], fun _ _ mem => absurd mem List.not_mem_nil, none⟩

variable (c)

/-- What using a package makes of a compilation, and the failure it ends with. -/
theorem run_usePackage_eq (space package : String) (anchor : Span) (p : Progress) :
    (c.usePackage space package anchor).run p =
      let use := p.registry.usePackage c.config c.classes c.resources space package anchor
      (use.failure.elim (.ok ()) .error,
        { p with
          registry := use.registry
          diagnostics := p.diagnostics ++ use.diagnostics
          requested := p.requested ++ [c.config.descriptorResource package] }) := by
  simp only [usePackage, run_bind, run_get, run_set]
  cases (p.registry.usePackage c.config c.classes c.resources space package anchor).failure with
  | none => rfl
  | some failure => rfl

theorem run_usePackage (space package : String) (anchor : Span) (p : Progress) :
    ((c.usePackage space package anchor).run p).2.scope = p.scope ∧
      ((c.usePackage space package anchor).run p).2.calls = p.calls := by
  rw [run_usePackage_eq]
  exact ⟨rfl, rfl⟩

theorem run_instruction (i : Markup.Instruction) (p : Progress) :
    ((c.instruction i).run p).2.scope = p.scope ∧ ((c.instruction i).run p).2.calls = p.calls := by
  unfold instruction
  split
  · unfold importName
    simp only
    split
    · exact ⟨rfl, rfl⟩
    · simp only [run_bind, run_get]
      split
      · exact ⟨rfl, rfl⟩
      · exact ⟨rfl, rfl⟩
  · split
    · split
      · exact run_usePackage c _ _ _ p
      · exact ⟨rfl, rfl⟩
    · exact ⟨rfl, rfl⟩

section Cases

variable {c} {className : String} {around : List Applied} {tag : Markup.StartTag} {span : Span}
  {stop : Option Span} {children rest : List Markup.Node} {p q : Progress}
  {result : Except ReadFailure (List TemplateNode) × Progress}

theorem Walked.element (attributes : OrderedMap String)
    (plain : Markup.splitNamespace tag.name = none)
    (inside : c.Walked className around children p result) :
    c.Walked className around (.element tag span stop children :: rest) p
      (result.1.map fun ts => [.element tag.name attributes ts], result.2) := by
  obtain ⟨new, calls, sited, planned⟩ := inside.calls
  refine ⟨inside.scope, new, calls, ?_, ?_⟩
  · intro inForce call mem
    obtain ⟨d, chain, reached, compiles, types⟩ := sited inForce call mem
    exact ⟨d, chain, .element plain reached, compiles, types⟩
  · intro ts ok
    obtain ⟨children', outcome, rfl⟩ := exists_of_map_ok ok
    exact ⟨planned children' outcome, trivial⟩

/-- Content is compiled under the variables of its directive, and they are taken back. -/
theorem Walked.directive {space name : String} {s : Signature} {u : DirectiveUse}
    (named : Markup.splitNamespace tag.name = some (space, name))
    (found : p.registry.resolve space name = some s) (parts : c.Parts ⟨tag, s⟩ p q u)
    {content : List Markup.Node}
    (taken : s.contentSetter.isSome ∧ content = children ∨ content = [])
    (inside : c.Walked className (⟨tag, s⟩ :: around) content q result) :
    c.Walked className around (.element tag span stop children :: rest) p
      (result.1.map fun ts => [.directive u ts],
        (u.binders.map (·.name)).reverse.foldl Progress.retract result.2) := by
  obtain ⟨made, callsMade, sited, planned⟩ := parts.calls
  obtain ⟨new, callsNew, sitedNew, plannedNew⟩ := inside.calls
  refine ⟨?_, made ++ new, ?_, ?_, ?_⟩
  · rw [foldl_retract]
    show List.foldl _ result.2.scope _ = _
    rw [inside.scope, parts.scope, Scope.foldl_retract_declareAll]
  · rw [foldl_retract]
    show result.2.calls = _
    rw [callsNew, callsMade, List.append_assoc]
  · intro inForce call mem
    have inForce' (name : String) :
        q.scope.type? name = typeIn className (⟨tag, s⟩ :: around) name := by
      rw [parts.types, inForce]
      rfl
    rcases List.mem_append.mp mem with mem | mem
    · obtain ⟨scope, compiles⟩ := sited call mem
      refine ⟨⟨tag, s⟩, around, .here named found, compiles, ?_⟩
      rw [scope]
      exact inForce'
    · obtain ⟨d, chain, reached, compiles, types⟩ := sitedNew inForce' call mem
      rcases taken with ⟨takes, rfl⟩ | rfl
      · exact ⟨d, chain, .content named found takes parts.run reached, compiles, types⟩
      · cases reached
  · intro ts ok
    obtain ⟨content', outcome, rfl⟩ := exists_of_map_ok ok
    rw [parts.scope] at planned plannedNew
    have own := planned.mono (List.subset_append_left made new)
    have inner := (plannedNew content' outcome).mono (List.subset_append_right made new)
    exact ⟨⟨own, inner⟩, trivial⟩

/-- A node that is passed, and then the nodes behind it. -/
theorem Walked.cons {n : Markup.Node} {ns : List Markup.Node} {ts : List TemplateNode}
    (run : (c.node n).run p = (.ok ts, q))
    (first : c.Walked className around (n :: ns) p (.ok ts, q))
    (later : c.Walked className around ns q result) :
    c.Walked className around (n :: ns) p (result.1.map (ts ++ ·), result.2) := by
  obtain ⟨here, callsHere, sitedHere, plannedHere⟩ := first.calls
  obtain ⟨new, callsNew, sitedNew, plannedNew⟩ := later.calls
  have same : q.scope = p.scope := first.scope
  refine ⟨later.scope.trans same, here ++ new, ?_, ?_, ?_⟩
  · rw [callsNew, ← List.append_assoc, ← callsHere]
  · intro inForce call mem
    rcases List.mem_append.mp mem with mem | mem
    · exact sitedHere inForce call mem
    · exact (sitedNew (by rw [same]; exact inForce) call mem).later run
  · intro ts' ok
    obtain ⟨rest', outcome, rfl⟩ := exists_of_map_ok ok
    rw [same] at plannedNew
    have here' := (plannedHere ts rfl).mono (List.subset_append_left here new)
    exact here'.append ((plannedNew rest' outcome).mono (List.subset_append_right here new))

end Cases

mutual

theorem node_walked (className : String) (around : List Applied) (rest : List Markup.Node) :
    (n : Markup.Node) → (p : Progress) →
      c.Walked className around (n :: rest) p ((c.node n).run p)
  | .text t, p => by
    refine Walked.quiet (p := p) rfl rfl ?_
    intro ts eq
    cases eq
    exact ⟨trivial, trivial⟩
  | .comment _, p => by
    refine Walked.quiet (p := p) rfl rfl ?_
    intro ts eq
    cases eq
    trivial
  | .instruction i, p => by
    obtain ⟨scope, calls⟩ := run_instruction c i p
    rw [Compiler.node, run_map]
    refine Walked.quiet scope calls ?_
    intro ts ok
    obtain ⟨_, -, rfl⟩ := exists_of_map_ok ok
    trivial
  | .element tag span stop children, p => by
    rw [Compiler.node]
    cases named : Markup.splitNamespace tag.name with
    | none =>
      simp only
      rw [run_map]
      exact (nodes_walked className around children p).element _ named
    | some parts =>
      obtain ⟨space, name⟩ := parts
      simp only
      rw [run_bind, run_get]
      simp only
      cases found : p.registry.resolve space name with
      | none =>
        refine Walked.quiet (p := p) rfl rfl ?_
        intro ts eq
        cases eq
        trivial
      | some s =>
        obtain ⟨u, q, parts⟩ := c.exists_parts ⟨tag, s⟩ p
        simp only
        rw [run_bind, parts.run]
        simp only
        rw [run_retracting]
        by_cases takes : s.contentSetter.isSome
        · simp only [takes, if_true]
          rw [run_map]
          exact Walked.directive named found parts (.inl ⟨takes, rfl⟩)
            (nodes_walked className (⟨tag, s⟩ :: around) children q)
        · have left (ds : List Diagnostic) : c.Walked className (⟨tag, s⟩ :: around) [] q
              (.ok [], q.report ds) := by
            refine Walked.quiet (p := q) rfl rfl ?_
            intro ts eq
            cases eq
            trivial
          simp only [takes, Bool.false_eq_true, if_false]
          split
          · exact Walked.directive named found parts (.inr rfl) (left _)
          · rw [← Progress.report_nil q]
            exact Walked.directive named found parts (.inr rfl) (left [])

theorem nodes_walked (className : String) (around : List Applied) :
    (ns : List Markup.Node) → (p : Progress) →
      c.Walked className around ns p ((c.nodes ns).run p)
  | [], p => by
    refine Walked.quiet (p := p) rfl rfl ?_
    intro ts eq
    cases eq
    trivial
  | n :: ns, p => by
    have first := node_walked className around ns n p
    rw [Compiler.nodes, run_bind]
    cases run : (c.node n).run p with
    | mk outcome q =>
      rw [run] at first
      cases outcome with
      | error e => exact first
      | ok ts =>
        simp only
        rw [run_map]
        exact Walked.cons run first (nodes_walked className around ns q)

end

end Compiler

end DirectiveTemplates
