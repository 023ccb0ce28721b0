import DirectiveTemplates.Proofs.Binding.Visits

/-!
What a compilation finds, node by node. Every diagnostic is a problem of a node that the walk comes
to or was returned for an attribute of it, and they stand in the order of the walk.
-/
namespace DirectiveTemplates

inductive Finding where
  | problem (d : Diagnostic)
  | compiled (call : CompileCall)

def Finding.call? : Finding → Option CompileCall
  | problem _ => none
  | compiled call => some call

def missing (tag : Markup.StartTag) (spec : AttributeSpec) : List Diagnostic :=
  if spec.required && (tag.attribute? spec.name).isNone then
    [⟨tag.span, (TemplateProblem.missingAttribute spec.name).message⟩]
  else []

def variableProblems (tag : Markup.StartTag) : List AttributeSpec → List String → List Diagnostic
  | [], _ => []
  | spec :: specs, names =>
    missing tag spec ++
      match tag.attribute? spec.name with
      | none => variableProblems tag specs names
      | some a =>
        let name := String.ofList (Text.trim a.value.toList)
        if name ∈ names then
          ⟨a.valueOrNameSpan, (TemplateProblem.repeatedVariable name).message⟩ ::
            variableProblems tag specs names
        else variableProblems tag specs (names ++ [name])

/-- The call that compiles an attribute. Nothing is expected of an action. -/
def callFor (spec : AttributeSpec) (scope : Scope) (imports : Imports) (a : Markup.Attribute) :
    CompileCall :=
  ⟨a.value, if spec.role = .action then none else some spec.type, scope, imports, a.valueOffset⟩

def expressionFinding (tag : Markup.StartTag) (scope : Scope) (imports : Imports)
    (spec : AttributeSpec) : List Finding :=
  (missing tag spec).map .problem ++
    (tag.attribute? spec.name).toList.map fun a => .compiled (callFor spec scope imports a)

def expressionFindings (tag : Markup.StartTag) (scope : Scope) (imports : Imports)
    (specs : List AttributeSpec) : List Finding :=
  specs.flatMap (expressionFinding tag scope imports)

namespace Compiler

open CompileM

variable (c : Compiler)

def compiledAt (call : CompileCall) : CompiledExpression :=
  c.expressions call.text call.expected call.scope (call.imports.find c.classes.finder)

/-- What is reported of a finding. Diagnostics of a call are moved to where its text stands. -/
def reported : Finding → List Diagnostic
  | .problem d => [d]
  | .compiled call => (c.compiledAt call).diagnostics.map (·.shift call.offset)

def instructionProblems (i : Markup.Instruction) (p : Progress) : List Diagnostic :=
  if i.target = "import" then
    let name := QualifiedName.normalize i.content
    if (QualifiedName.starPackage? name).isNone &&
        (p.imports.find c.classes.finder name).isNone then
      [⟨i.contentSpan, (TemplateProblem.unknownImport name).message⟩]
    else []
  else if i.target = "use" then
    match splitUse? i.content with
    | some (space, package) =>
      (p.registry.usePackage c.config c.classes c.resources space package i.contentSpan).diagnostics
    | none => [⟨i.contentSpan, TemplateProblem.illegalUse.message⟩]
  else []

/-- What is found at a directive: problems with its variables, then its expressions under the scope
with these variables, then problems with its content. -/
def directiveFindings (tag : Markup.StartTag) (s : Signature) (span : Span)
    (children : List Markup.Node) (p : Progress) : List Finding :=
  (variableProblems tag (s.withRole (· = .binder)) []).map .problem ++
    (expressionFindings tag ((c.directiveParts tag s).run p).2.scope p.imports
      (s.withRole (· ≠ .binder)) ++
    (contentProblems s span children).map .problem)

def findings (a : Arrival) : List Finding :=
  match a.node with
  | .text _ | .comment _ => []
  | .instruction i => (c.instructionProblems i a.progress).map .problem
  | .element tag span _ children =>
    match Meaning.of a.progress.registry.resolve tag with
    | .literal => []
    | .undefined =>
      [.problem ⟨tag.nameSpan, (TemplateProblem.undefinedDirective tag.name).message⟩]
    | .directive s => c.directiveFindings tag s span children a.progress

def adding (p : Progress) (fs : List Finding) : Progress :=
  { p with
    diagnostics := p.diagnostics ++ fs.flatMap c.reported
    calls := p.calls ++ fs.filterMap Finding.call? }

theorem adding_nil (p : Progress) : c.adding p [] = p := by
  simp [adding]

theorem adding_append (p : Progress) (fs gs : List Finding) :
    c.adding p (fs ++ gs) = c.adding (c.adding p fs) gs := by
  simp [adding]

theorem adding_problems (p : Progress) (ds : List Diagnostic) :
    c.adding p (ds.map .problem) = p.report ds := by
  have reported : (ds.map Finding.problem).flatMap c.reported = ds := by
    induction ds with
    | nil => rfl
    | cons d ds ih => rw [List.map_cons, List.flatMap_cons, ih]; rfl
  have calls : (ds.map Finding.problem).filterMap Finding.call? = [] := by
    simp [List.filterMap_map, Function.comp_def, Finding.call?]
  rw [adding, reported, calls, List.append_nil]
  rfl

theorem run_findAttribute_eq (tag : Markup.StartTag) (spec : AttributeSpec) (p : Progress) :
    (findAttribute tag spec).run p =
      (.ok (tag.attribute? spec.name), p.report (missing tag spec)) := by
  unfold findAttribute missing
  cases tag.attribute? spec.name with
  | some a => simp [Progress.report_nil]; rfl
  | none =>
    cases spec.required with
    | true => rfl
    | false => simp [Progress.report_nil]; rfl

theorem missing_of_given {tag : Markup.StartTag} {spec : AttributeSpec} {a : Markup.Attribute}
    (given : tag.attribute? spec.name = some a) : missing tag spec = [] := by
  simp [missing, given]

theorem run_bindVariables_eq (tag : Markup.StartTag) (specs : List AttributeSpec)
    (bound : List VariableBinding) (p : Progress) :
    ∃ vs scope, (bindVariables tag specs bound).run p =
      (.ok vs, { p.report (variableProblems tag specs (bound.map (·.name))) with scope }) := by
  induction specs generalizing bound p with
  | nil =>
    refine ⟨bound, p.scope, ?_⟩
    rw [variableProblems, Progress.report_nil]
    rfl
  | cons spec specs ih =>
    rw [bindVariables, run_bind, run_findAttribute_eq, variableProblems]
    cases given : tag.attribute? spec.name with
    | none =>
      simp only [← Progress.report_report]
      exact ih bound (p.report (missing tag spec))
    | some a =>
      have known : (bound.any (·.name == String.ofList (Text.trim a.value.toList)) = true) ↔
          String.ofList (Text.trim a.value.toList) ∈ bound.map (·.name) := by
        simp
      rw [missing_of_given given, List.nil_append, Progress.report_nil]
      simp only [known]
      by_cases repeated : String.ofList (Text.trim a.value.toList) ∈ bound.map (·.name)
      · obtain ⟨vs, scope, run⟩ := ih bound (p.report [_])
        rw [Progress.report_report] at run
        rw [if_pos repeated, if_pos repeated, run_bind]
        exact ⟨vs, scope, run⟩
      · obtain ⟨vs, scope, run⟩ := ih (bound ++ [⟨spec.setter, spec.type, _⟩])
          { p with scope := p.scope.declare (String.ofList (Text.trim a.value.toList)) spec.type }
        rw [List.map_append] at run
        rw [if_neg repeated, if_neg repeated, run_bind]
        exact ⟨vs, scope, run⟩

theorem run_compileValue_eq (spec : AttributeSpec) (a : Markup.Attribute) (p : Progress) :
    ∃ plan, (c.compileValue a (if spec.role = .action then none else some spec.type)).run p =
      (.ok plan, c.adding p [.compiled (callFor spec p.scope p.imports a)]) := by
  refine ⟨c.planAt (callFor spec p.scope p.imports a), ?_⟩
  rw [adding, List.flatMap_singleton]
  rfl

theorem adding_expressionFinding (tag : Markup.StartTag) (scope : Scope) (imports : Imports)
    (spec : AttributeSpec) (p : Progress) :
    c.adding p (expressionFinding tag scope imports spec) =
      c.adding (p.report (missing tag spec))
        ((tag.attribute? spec.name).toList.map fun a =>
          .compiled (callFor spec scope imports a)) := by
  rw [expressionFinding, adding_append, adding_problems]

theorem run_bindExpressions_eq (tag : Markup.StartTag) (specs : List AttributeSpec) (p : Progress) :
    ∃ es, (c.bindExpressions tag specs).run p =
      (.ok es, c.adding p (expressionFindings tag p.scope p.imports specs)) := by
  induction specs generalizing p with
  | nil =>
    refine ⟨⟨[], []⟩, ?_⟩
    rw [expressionFindings, List.flatMap_nil, adding_nil]
    rfl
  | cons spec specs ih =>
    have first : expressionFindings tag p.scope p.imports (spec :: specs) =
        expressionFinding tag p.scope p.imports spec ++
          expressionFindings tag p.scope p.imports specs := List.flatMap_cons
    rw [bindExpressions, run_bind, run_findAttribute_eq, first, adding_append,
      adding_expressionFinding]
    cases given : tag.attribute? spec.name with
    | none =>
      obtain ⟨es, run⟩ := ih (p.report (missing tag spec))
      refine ⟨es, ?_⟩
      simp only [Option.toList_none, List.map_nil, adding_nil]
      exact run
    | some a =>
      let q := p.report (missing tag spec)
      obtain ⟨plan, value⟩ := c.run_compileValue_eq spec a q
      obtain ⟨es, run⟩ := ih (c.adding q [.compiled (callFor spec q.scope q.imports a)])
      simp only
      rw [run_bind, value]
      simp only
      rw [run_bind, run]
      simp only
      by_cases action : spec.role = .action
      · rw [if_pos action]
        exact ⟨_, rfl⟩
      · rw [if_neg action]
        exact ⟨_, rfl⟩

theorem run_directiveParts_eq (tag : Markup.StartTag) (s : Signature) (p : Progress) :
    ∃ scope, ((c.directiveParts tag s).run p).2 =
      c.adding { p.report (variableProblems tag (s.withRole (· = .binder)) []) with scope }
        (expressionFindings tag scope p.imports (s.withRole (· ≠ .binder))) := by
  obtain ⟨vs, scope, bound⟩ := run_bindVariables_eq tag (s.withRole (· = .binder)) [] p
  obtain ⟨es, compiled⟩ := c.run_bindExpressions_eq tag (s.withRole (· ≠ .binder))
    { p.report (variableProblems tag (s.withRole (· = .binder)) []) with scope }
  refine ⟨scope, ?_⟩
  rw [directiveParts, run_bind, bound]
  simp only [List.map_nil]
  rw [run_bind, compiled]
  rfl

theorem diagnostics_instruction (i : Markup.Instruction) (p : Progress) :
    ((c.instruction i).run p).2.diagnostics = p.diagnostics ++ c.instructionProblems i p := by
  unfold instruction instructionProblems
  split
  · unfold importName
    simp only
    cases QualifiedName.starPackage? (QualifiedName.normalize i.content) with
    | some package => exact (List.append_nil _).symm
    | none =>
      simp only [run_bind, run_get]
      cases p.imports.find c.classes.finder (QualifiedName.normalize i.content) with
      | some full => exact (List.append_nil _).symm
      | none => rfl
  · split
    · cases splitUse? i.content with
      | none => rfl
      | some parts =>
        obtain ⟨space, package⟩ := parts
        simp only [run_usePackage_eq]
    · exact (List.append_nil _).symm

/-- What the walk does at an element, apart from the scope. -/
theorem own_element (tag : Markup.StartTag) (span : Span) (stop : Option Span)
    (children : List Markup.Node) (p : Progress) :
    ∃ scope, c.own (.element tag span stop children) p =
      { c.adding p (c.findings ⟨.element tag span stop children, p⟩) with scope } := by
  unfold own findings
  simp only
  cases Meaning.of p.registry.resolve tag with
  | literal => exact ⟨p.scope, by rw [adding_nil]⟩
  | undefined => exact ⟨p.scope, by simp [adding, reported, Finding.call?, Progress.report]⟩
  | directive s =>
    obtain ⟨scope, parts⟩ := c.run_directiveParts_eq tag s p
    refine ⟨scope, ?_⟩
    have same : ((c.directiveParts tag s).run p).2.scope = scope := by rw [parts]; rfl
    simp only [directiveFindings, same, adding_append, adding_problems]
    rw [parts]
    rfl

theorem own_finds (n : Markup.Node) (p : Progress) :
    (c.own n p).diagnostics = p.diagnostics ++ (c.findings ⟨n, p⟩).flatMap c.reported ∧
      (c.own n p).calls = p.calls ++ (c.findings ⟨n, p⟩).filterMap Finding.call? := by
  cases n with
  | text t => exact ⟨(List.append_nil _).symm, (List.append_nil _).symm⟩
  | comment t => exact ⟨(List.append_nil _).symm, (List.append_nil _).symm⟩
  | instruction i =>
    have added := c.adding_problems p (c.instructionProblems i p)
    have diagnostics := congrArg Progress.diagnostics added
    have calls := congrArg Progress.calls added
    exact ⟨(c.diagnostics_instruction i p).trans diagnostics.symm,
      (c.run_instruction i p).2.trans calls.symm⟩
  | element tag span stop children =>
    obtain ⟨scope, eq⟩ := c.own_element tag span stop children p
    rw [eq]
    exact ⟨rfl, rfl⟩

structure Accounts (first : List Diagnostic) (found : List Finding) (p : Progress) : Prop where
  diagnostics : p.diagnostics = first ++ found.flatMap c.reported
  calls : p.calls = found.filterMap Finding.call?

theorem tracks_accounts (first : List Diagnostic) : c.Tracks (c.Accounts first) c.findings := by
  constructor
  · intro found p s known
    exact ⟨known.diagnostics, known.calls⟩
  · intro found n p known
    obtain ⟨diagnostics, calls⟩ := c.own_finds n p
    constructor
    · rw [diagnostics, known.diagnostics, List.flatMap_append, List.append_assoc]
    · rw [calls, known.calls, List.filterMap_append]

end Compiler

end DirectiveTemplates
