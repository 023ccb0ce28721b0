import DirectiveTemplates.Proofs.Binding.Clean
import Mathlib.Data.List.Induction

/-!
What the parts of a directive do to a compilation. Binding its variables and compiling its
expressions never fails, reports at most diagnostics, and leaves a scope that is known exactly.
-/
namespace DirectiveTemplates

namespace CompileM

theorem run_map {α β : Type} (x : CompileM α) (f : α → β) (p : Progress) :
    (x >>= fun a => pure (f a)).run p = ((x.run p).1.map f, (x.run p).2) := by
  rw [run_bind]
  cases x.run p with
  | mk outcome q =>
    cases outcome with
    | ok a => rfl
    | error e => rfl

theorem exists_of_map_ok {ε α β : Type} {f : α → β} {x : Except ε α} {b : β}
    (h : x.map f = .ok b) : ∃ a, x = .ok a ∧ f a = b := by
  cases x with
  | error e => cases h
  | ok a =>
    cases h
    exact ⟨a, rfl, rfl⟩

end CompileM

namespace Scope

def declareAll (s : Scope) (vs : List VariableBinding) : Scope :=
  vs.foldl (fun s v => s.declare v.name v.type) s

theorem declareAll_append (s : Scope) (vs : List VariableBinding) (v : VariableBinding) :
    s.declareAll (vs ++ [v]) = (s.declareAll vs).declare v.name v.type := by
  simp [declareAll]

/-- Variables that are taken back in the opposite order leave the scope as it was. -/
theorem foldl_retract_declareAll (s : Scope) (vs : List VariableBinding) :
    (vs.map (·.name)).reverse.foldl retract (s.declareAll vs) = s := by
  induction vs using List.reverseRecOn with
  | nil => rfl
  | append_singleton vs v ih =>
    rw [declareAll_append, List.map_append, List.reverse_append]
    simp only [List.map_cons, List.map_nil, List.reverse_singleton, List.singleton_append,
      List.foldl_cons, retract_declare]
    exact ih

theorem type?_declareAll (s : Scope) (vs : List VariableBinding) (name : String) :
    (s.declareAll vs).type? name =
      ((vs.reverse.find? (·.name == name)).map (·.type)).or (s.type? name) := by
  induction vs using List.reverseRecOn with
  | nil => rfl
  | append_singleton vs v ih =>
    rw [declareAll_append, type?_declare, ih, List.reverse_append]
    by_cases eq : name = v.name
    · simp [eq]
    · have other : (v.name == name) = false := by simpa using fun h => eq h.symm
      simp [eq, other]

end Scope

def variableAttributes (tag : Markup.StartTag) (specs : List AttributeSpec) :
    List (String × ValueType) :=
  specs.filterMap fun spec => (tag.attribute? spec.name).map fun a =>
    (String.ofList (Text.trim a.value.toList), spec.type)

def CompilesAttribute (tag : Markup.StartTag) (specs : List AttributeSpec) (call : CompileCall) :
    Prop :=
  ∃ spec ∈ specs, ∃ a, tag.attribute? spec.name = some a ∧ call.text = a.value ∧
    call.offset = a.valueOffset ∧
    call.expected = if spec.role = .action then none else some spec.type

theorem CompilesAttribute.cons {tag : Markup.StartTag} {specs : List AttributeSpec}
    {call : CompileCall} (h : CompilesAttribute tag specs call) (spec : AttributeSpec) :
    CompilesAttribute tag (spec :: specs) call := by
  obtain ⟨spec', mem, given⟩ := h
  exact ⟨spec', List.mem_cons_of_mem _ mem, given⟩

structure Applied where
  tag : Markup.StartTag
  signature : Signature

namespace Applied

def declarations (d : Applied) : List (String × ValueType) :=
  variableAttributes d.tag (d.signature.withRole (· = .binder))

def Compiles (d : Applied) (call : CompileCall) : Prop :=
  CompilesAttribute d.tag (d.signature.withRole (· ≠ .binder)) call

end Applied

namespace Progress

theorem report_nil (p : Progress) : p.report [] = p := by
  simp [report]

theorem report_report (p : Progress) (ds ds' : List Diagnostic) :
    (p.report ds).report ds' = p.report (ds ++ ds') := by
  simp [report]

end Progress

namespace Compiler

open CompileM

def planAt (c : Compiler) (call : CompileCall) : TypedPlan :=
  (c.expressions call.text call.expected call.scope (call.imports.find c.classes.finder)).plan

variable (c : Compiler)

theorem run_findAttribute (tag : Markup.StartTag) (spec : AttributeSpec) (p : Progress) :
    ∃ ds, (findAttribute tag spec).run p = (.ok (tag.attribute? spec.name), p.report ds) := by
  unfold findAttribute
  cases tag.attribute? spec.name with
  | some a =>
    refine ⟨[], ?_⟩
    rw [Progress.report_nil]
    rfl
  | none =>
    cases spec.required with
    | true => exact ⟨_, rfl⟩
    | false =>
      refine ⟨[], ?_⟩
      rw [Progress.report_nil]
      rfl

/-- The variables of a directive are those of its tag, of equal names the first. -/
theorem run_bindVariables (tag : Markup.StartTag) (specs : List AttributeSpec)
    (bound : List VariableBinding) (p : Progress) :
    ∃ new ds, (bindVariables tag specs bound).run p =
        (.ok (bound ++ new), { p.report ds with scope := p.scope.declareAll new }) ∧
      ∀ name, (new.reverse.find? (·.name == name)).map (·.type) =
        if bound.any (·.name == name) then none
        else (variableAttributes tag specs).lookup name := by
  induction specs generalizing bound p with
  | nil =>
    refine ⟨[], [], ?_, ?_⟩
    · rw [Progress.report_nil, List.append_nil]
      rfl
    · intro name
      simp [variableAttributes]
  | cons spec specs ih =>
    obtain ⟨ds, found⟩ := run_findAttribute tag spec p
    rw [bindVariables, run_bind, found]
    cases given : tag.attribute? spec.name with
    | none =>
      obtain ⟨new, ds', run, types⟩ := ih bound (p.report ds)
      refine ⟨new, ds ++ ds', ?_, ?_⟩
      · simp only [run, Progress.report_report]
        rfl
      · intro name
        rw [types name]
        simp [variableAttributes, given]
    | some a =>
      let name := String.ofList (Text.trim a.value.toList)
      have first : variableAttributes tag (spec :: specs) =
          (name, spec.type) :: variableAttributes tag specs := by
        simp [variableAttributes, given, name]
      by_cases repeated : bound.any (·.name == name) = true
      · let problem : Diagnostic :=
          ⟨a.valueOrNameSpan, (TemplateProblem.repeatedVariable name).message⟩
        obtain ⟨new, ds', run, types⟩ := ih bound ((p.report ds).report [problem])
        refine ⟨new, ds ++ [problem] ++ ds', ?_, ?_⟩
        · simp only [name] at repeated
          simp only [repeated, if_true]
          rw [run_bind]
          simp only [← Progress.report_report]
          exact run
        · intro other
          rw [types other, first]
          by_cases eq : other = name
          · rw [eq]
            simp only [repeated, if_true]
          · have apart : (other == name) = false := by simpa using eq
            rw [List.lookup_cons, apart]
      · have fresh : bound.any (·.name == name) = false := by simpa using repeated
        let v : VariableBinding := ⟨spec.setter, spec.type, name⟩
        let declared : Progress :=
          { p.report ds with scope := p.scope.declare name spec.type }
        obtain ⟨new, ds', run, types⟩ := ih (bound ++ [v]) declared
        refine ⟨v :: new, ds ++ ds', ?_, ?_⟩
        · simp only [name] at fresh
          simp only [fresh, Bool.false_eq_true, if_false]
          rw [run_bind]
          simp only [← Progress.report_report]
          rw [List.append_cons bound v new]
          exact run
        · intro other
          rw [List.reverse_cons, List.find?_append, Option.map_or, types other, first]
          by_cases eq : other = name
          · subst eq
            simp [fresh, v]
          · have apart : (other == name) = false := by simpa using eq
            have apart' : (name == other) = false := by simpa using fun h => eq h.symm
            simp [List.lookup_cons, apart, apart', v]

/-- The variables of a use, and what they make of a scope. -/
theorem run_bindVariables_nil (tag : Markup.StartTag) (specs : List AttributeSpec) (p : Progress) :
    ∃ vs ds, (bindVariables tag specs []).run p =
        (.ok vs, { p.report ds with scope := p.scope.declareAll vs }) ∧
      ∀ name, (p.scope.declareAll vs).type? name =
        ((variableAttributes tag specs).lookup name).or (p.scope.type? name) := by
  obtain ⟨vs, ds, run, types⟩ := run_bindVariables tag specs [] p
  refine ⟨vs, ds, run, ?_⟩
  intro name
  rw [Scope.type?_declareAll, types name]
  rfl

theorem run_compileValue (a : Markup.Attribute) (expected : Option ValueType) (p : Progress) :
    ∃ ds, (c.compileValue a expected).run p =
      let call : CompileCall := ⟨a.value, expected, p.scope, p.imports, a.valueOffset⟩
      (.ok (c.planAt call), { p.report ds with calls := p.calls ++ [call] }) :=
  ⟨_, rfl⟩

structure PlannedIn (calls : List CompileCall) (s : Scope) (computations : List ComputationBinding)
    (actions : List ActionBinding) : Prop where
  computations : ∀ b ∈ computations, ∃ call ∈ calls, call.scope = s ∧ b.plan = c.planAt call
  actions : ∀ b ∈ actions, ∃ call ∈ calls, call.scope = s ∧ b.plan = (c.planAt call).plan

theorem PlannedIn.cons {c : Compiler} {calls : List CompileCall} {s : Scope}
    {computations : List ComputationBinding} {actions : List ActionBinding}
    (h : c.PlannedIn calls s computations actions) (call : CompileCall) :
    c.PlannedIn (call :: calls) s computations actions := by
  constructor
  · intro b mem
    obtain ⟨call', among, planned⟩ := h.computations b mem
    exact ⟨call', List.mem_cons_of_mem _ among, planned⟩
  · intro b mem
    obtain ⟨call', among, planned⟩ := h.actions b mem
    exact ⟨call', List.mem_cons_of_mem _ among, planned⟩

theorem run_bindExpressions (tag : Markup.StartTag) (specs : List AttributeSpec) (p : Progress) :
    ∃ es ds calls, (c.bindExpressions tag specs).run p =
        (.ok es, { p.report ds with calls := p.calls ++ calls }) ∧
      (∀ call ∈ calls, call.scope = p.scope ∧ CompilesAttribute tag specs call) ∧
      c.PlannedIn calls p.scope es.computations es.actions := by
  induction specs generalizing p with
  | nil =>
    refine ⟨⟨[], []⟩, [], [], ?_, ?_, ?_, ?_⟩
    · rw [Progress.report_nil, List.append_nil]
      rfl
    · simp
    · simp
    · simp
  | cons spec specs ih =>
    obtain ⟨ds, found⟩ := run_findAttribute tag spec p
    rw [bindExpressions, run_bind, found]
    cases given : tag.attribute? spec.name with
    | none =>
      obtain ⟨es, ds', calls, run, made, planned⟩ := ih (p.report ds)
      refine ⟨es, ds ++ ds', calls, ?_, ?_, planned⟩
      · simp only [run, Progress.report_report]
        rfl
      · intro call mem
        obtain ⟨scope, compiles⟩ := made call mem
        exact ⟨scope, compiles.cons spec⟩
    | some a =>
      let expected := if spec.role = .action then none else some spec.type
      let call : CompileCall := ⟨a.value, expected, p.scope, p.imports, a.valueOffset⟩
      obtain ⟨ds', value⟩ := c.run_compileValue a expected (p.report ds)
      let compiled : Progress := { (p.report ds).report ds' with calls := p.calls ++ [call] }
      have value' : (c.compileValue a expected).run (p.report ds) =
          (.ok (c.planAt call), compiled) := value
      obtain ⟨es, ds'', calls, run, made, planned⟩ := ih compiled
      have last : { compiled.report ds'' with calls := compiled.calls ++ calls } =
          { p.report (ds ++ ds' ++ ds'') with calls := p.calls ++ call :: calls } := by
        simp [compiled, Progress.report]
      rw [last] at run
      have here : CompilesAttribute tag (spec :: specs) call :=
        ⟨spec, List.mem_cons_self, a, given, rfl, rfl, rfl⟩
      have made' : ∀ call' ∈ call :: calls,
          call'.scope = p.scope ∧ CompilesAttribute tag (spec :: specs) call' := by
        intro call' mem
        rcases List.mem_cons.mp mem with rfl | mem
        · exact ⟨rfl, here⟩
        · obtain ⟨scope, compiles⟩ := made call' mem
          exact ⟨scope, compiles.cons spec⟩
      have planned' := planned.cons call
      by_cases action : spec.role = .action
      · let b : ActionBinding := ⟨spec.setter, (c.planAt call).plan⟩
        refine ⟨⟨es.computations, b :: es.actions⟩, ds ++ ds' ++ ds'', call :: calls, ?_, made',
          planned'.computations, ?_⟩
        · simp only
          rw [run_bind, value']
          simp only
          rw [run_bind, run]
          simp only [action, if_true]
          rfl
        · intro b' mem
          rcases List.mem_cons.mp mem with rfl | mem
          · exact ⟨call, List.mem_cons_self, rfl, rfl⟩
          · exact planned'.actions b' mem
      · let b : ComputationBinding := ⟨spec.setter, c.planAt call⟩
        refine ⟨⟨b :: es.computations, es.actions⟩, ds ++ ds' ++ ds'', call :: calls, ?_, made',
          ?_, planned'.actions⟩
        · simp only
          rw [run_bind, value']
          simp only
          rw [run_bind, run]
          simp only [action, if_false]
          rfl
        · intro b' mem
          rcases List.mem_cons.mp mem with rfl | mem
          · exact ⟨call, List.mem_cons_self, rfl, rfl⟩
          · exact planned'.computations b' mem

/-- What binding the attributes of a directive does: its variables are declared, and its
expressions are compiled under all of them. -/
structure Parts (d : Applied) (p q : Progress) (u : DirectiveUse) : Prop where
  run : (c.directiveParts d.tag d.signature).run p = (.ok u, q)
  content : u.contentSetter = d.signature.contentSetter
  scope : q.scope = p.scope.declareAll u.binders
  requested : q.requested = p.requested
  types : ∀ name, q.scope.type? name = (d.declarations.lookup name).or (p.scope.type? name)
  calls : ∃ new, q.calls = p.calls ++ new ∧
    (∀ call ∈ new, call.scope = q.scope ∧ d.Compiles call) ∧
    c.PlannedIn new q.scope u.computations u.actions

theorem exists_parts (d : Applied) (p : Progress) : ∃ u q, c.Parts d p q u := by
  let s := d.signature
  obtain ⟨vs, ds, bound, types⟩ := run_bindVariables_nil d.tag (s.withRole (· = .binder)) p
  let declared : Progress := { p.report ds with scope := p.scope.declareAll vs }
  obtain ⟨es, ds', calls, compiled, made, planned⟩ :=
    c.run_bindExpressions d.tag (s.withRole (· ≠ .binder)) declared
  let u : DirectiveUse :=
    ⟨s.owner, s.name, vs, es.computations, es.actions, s.contentSetter⟩
  let q : Progress := { declared.report ds' with calls := declared.calls ++ calls }
  refine ⟨u, q, ?_, rfl, rfl, rfl, types, calls, rfl, made, planned⟩
  rw [directiveParts, run_bind, bound]
  simp only
  rw [run_bind, compiled]
  rfl

theorem run_retracting {α : Type} (names : List String) (x : CompileM α) (p : Progress) :
    (retracting names x).run p = ((x.run p).1, names.foldl Progress.retract (x.run p).2) := rfl

theorem foldl_retract (names : List String) (p : Progress) :
    names.foldl Progress.retract p = { p with scope := names.foldl Scope.retract p.scope } := by
  induction names generalizing p with
  | nil => rfl
  | cons name names ih => exact ih (p.retract name)

end Compiler

end DirectiveTemplates
