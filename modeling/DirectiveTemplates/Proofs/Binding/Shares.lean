import DirectiveTemplates.Proofs.Binding.Findings

/-!
What each declared attribute of a directive comes to. It is left out, reported or bound, in exactly
one of these ways, and the use of the directive is made of what its attributes add to it, in the
order of their declaration.
-/
namespace DirectiveTemplates

structure Share where
  diagnostics : List Diagnostic
  binders : List VariableBinding
  computations : List ComputationBinding
  actions : List ActionBinding
  calls : List CompileCall

namespace Share

def nothing : Share := ⟨[], [], [], [], []⟩

def problem (span : Span) (p : TemplateProblem) : Share :=
  { nothing with diagnostics := [⟨span, p.message⟩] }

end Share

def variableName (a : Markup.Attribute) : String := String.ofList (Text.trim a.value.toList)

namespace Progress

def sharing (p : Progress) (shares : List Share) : Progress :=
  { p with
    scope := p.scope.declareAll (shares.flatMap (·.binders))
    diagnostics := p.diagnostics ++ shares.flatMap (·.diagnostics)
    calls := p.calls ++ shares.flatMap (·.calls) }

theorem sharing_nil (p : Progress) : p.sharing [] = p := by
  simp [sharing, Scope.declareAll]

theorem sharing_diagnostics (p : Progress) (ds : List Diagnostic) :
    p.sharing [{ Share.nothing with diagnostics := ds }] = p.report ds := by
  simp [sharing, Share.nothing, Scope.declareAll, report]

theorem sharing_append (p : Progress) (shares shares' : List Share) :
    p.sharing (shares ++ shares') = (p.sharing shares).sharing shares' := by
  simp [sharing, Scope.declareAll]

end Progress

namespace Compiler

open CompileM

variable (c : Compiler) (tag : Markup.StartTag) (scope : Scope) (imports : Imports)

/-- The share of a declared attribute under a scope, when `used` are the variables that the
directive has bound already. -/
inductive ShareOf (used : List String) (spec : AttributeSpec) : Share → Prop
  | absent : tag.attribute? spec.name = none → spec.required = false → ShareOf used spec .nothing
  | missing : tag.attribute? spec.name = none → spec.required = true →
    ShareOf used spec (.problem tag.span (.missingAttribute spec.name))
  | repeated {a : Markup.Attribute} : tag.attribute? spec.name = some a → spec.role = .binder →
    variableName a ∈ used →
      ShareOf used spec (.problem a.valueOrNameSpan (.repeatedVariable (variableName a)))
  | binder {a : Markup.Attribute} : tag.attribute? spec.name = some a → spec.role = .binder →
    variableName a ∉ used →
      ShareOf used spec
        { Share.nothing with binders := [⟨spec.setter, spec.type, variableName a⟩] }
  /-- The type of the attribute is expected of a computation. -/
  | computation {a : Markup.Attribute} {call : CompileCall} :
    tag.attribute? spec.name = some a → spec.role = .computation →
    call = ⟨a.value, some spec.type, scope, imports, a.valueOffset⟩ →
      ShareOf used spec
        { Share.nothing with
          diagnostics := (c.compiledAt call).diagnostics.map (·.shift a.valueOffset)
          computations := [⟨spec.setter, (c.compiledAt call).plan⟩]
          calls := [call] }
  /-- Nothing is expected of an action. -/
  | action {a : Markup.Attribute} {call : CompileCall} :
    tag.attribute? spec.name = some a → spec.role = .action →
    call = ⟨a.value, none, scope, imports, a.valueOffset⟩ →
      ShareOf used spec
        { Share.nothing with
          diagnostics := (c.compiledAt call).diagnostics.map (·.shift a.valueOffset)
          actions := [⟨spec.setter, (c.compiledAt call).plan.plan⟩]
          calls := [call] }

/-- The shares of declared attributes, each in view of the variables bound before it. -/
inductive SharesOf : List String → List AttributeSpec → List Share → Prop
  | nil {used : List String} : SharesOf used [] []
  | cons {used : List String} {spec : AttributeSpec} {specs : List AttributeSpec} {share : Share}
    {shares : List Share} : c.ShareOf tag scope imports used spec share →
      SharesOf (used ++ share.binders.map (·.name)) specs shares →
      SharesOf used (spec :: specs) (share :: shares)

variable {tag scope imports}

def shareFor (tag : Markup.StartTag) (scope : Scope) (imports : Imports) (used : List String)
    (spec : AttributeSpec) : Share :=
  match tag.attribute? spec.name with
  | none => if spec.required then .problem tag.span (.missingAttribute spec.name) else .nothing
  | some a =>
    let call := callFor spec scope imports a
    let diagnostics := (c.compiledAt call).diagnostics.map (·.shift a.valueOffset)
    match spec.role with
    | .binder =>
      if variableName a ∈ used then
        .problem a.valueOrNameSpan (.repeatedVariable (variableName a))
      else { Share.nothing with binders := [⟨spec.setter, spec.type, variableName a⟩] }
    | .computation =>
      ⟨diagnostics, [], [⟨spec.setter, (c.compiledAt call).plan⟩], [], [call]⟩
    | .action => ⟨diagnostics, [], [], [⟨spec.setter, (c.compiledAt call).plan.plan⟩], [call]⟩

theorem shareOf_shareFor (used : List String) (spec : AttributeSpec) :
    c.ShareOf tag scope imports used spec (c.shareFor tag scope imports used spec) := by
  unfold shareFor
  cases given : tag.attribute? spec.name with
  | none =>
    cases required : spec.required with
    | false => exact .absent given required
    | true => exact .missing given required
  | some a =>
    cases role : spec.role with
    | binder =>
      simp only
      split
      · rename_i repeated
        exact .repeated given role repeated
      · rename_i fresh
        exact .binder given role fresh
    | computation => exact .computation given role (by simp [callFor, role])
    | action => exact .action given role (by simp [callFor, role])

theorem ShareOf.eq_shareFor {used : List String} {spec : AttributeSpec} {share : Share}
    (h : c.ShareOf tag scope imports used spec share) :
    share = c.shareFor tag scope imports used spec := by
  cases h with
  | absent given optional => simp [shareFor, given, optional]
  | missing given required => simp [shareFor, given, required]
  | repeated given role repeated => simp [shareFor, given, role, repeated]
  | binder given role fresh => simp [shareFor, given, role, fresh]
  | computation given role called => simp [shareFor, given, role, called, callFor, Share.nothing]
  | action given role called => simp [shareFor, given, role, called, callFor, Share.nothing]

theorem existsUnique_shareOf (used : List String) (spec : AttributeSpec) :
    ∃! share, c.ShareOf tag scope imports used spec share :=
  ⟨_, c.shareOf_shareFor used spec, fun _ h => h.eq_shareFor⟩

def sharesFor (tag : Markup.StartTag) (scope : Scope) (imports : Imports) :
    List String → List AttributeSpec → List Share
  | _, [] => []
  | used, spec :: specs =>
    let share := c.shareFor tag scope imports used spec
    share :: sharesFor tag scope imports (used ++ share.binders.map (·.name)) specs

theorem sharesOf_sharesFor (used : List String) (specs : List AttributeSpec) :
    c.SharesOf tag scope imports used specs (c.sharesFor tag scope imports used specs) := by
  induction specs generalizing used with
  | nil => exact .nil
  | cons spec specs ih => exact .cons (c.shareOf_shareFor used spec) (ih _)

theorem SharesOf.append {c : Compiler} {used : List String} {specs specs' : List AttributeSpec}
    {shares shares' : List Share} (h : c.SharesOf tag scope imports used specs shares)
    (h' : c.SharesOf tag scope imports (used ++ (shares.flatMap (·.binders)).map (·.name)) specs'
      shares') :
    c.SharesOf tag scope imports used (specs ++ specs') (shares ++ shares') := by
  induction h with
  | nil => simpa using h'
  | cons first _ ih =>
    refine .cons first (ih ?_)
    simpa [List.append_assoc] using h'

/-- Without its attribute, a declaration adds at most a diagnostic. -/
theorem shareFor_none {used : List String} {spec : AttributeSpec}
    (given : tag.attribute? spec.name = none) :
    c.shareFor tag scope imports used spec =
      { Share.nothing with diagnostics := missing tag spec } := by
  cases required : spec.required <;>
    simp [shareFor, given, required, missing, Share.nothing, Share.problem]

/-- Binding a variable adds its share. What is in force does not matter to it. -/
theorem run_bindVariables_cons (tag : Markup.StartTag) (scope : Scope) (imports : Imports)
    {spec : AttributeSpec} (role : spec.role = .binder) (specs : List AttributeSpec)
    (bound : List VariableBinding) (p : Progress) :
    let share := c.shareFor tag scope imports (bound.map (·.name)) spec
    (bindVariables tag (spec :: specs) bound).run p =
      (bindVariables tag specs (bound ++ share.binders)).run (p.sharing [share]) := by
  intro share
  rw [bindVariables, run_bind, run_findAttribute_eq]
  cases given : tag.attribute? spec.name with
  | none =>
    have absent : share = { Share.nothing with diagnostics := missing tag spec } :=
      c.shareFor_none given
    rw [absent, Progress.sharing_diagnostics, Share.nothing, List.append_nil]
  | some a =>
    have known : (bound.any (·.name == variableName a) = true) ↔
        variableName a ∈ bound.map (·.name) := by simp
    rw [missing_of_given given, Progress.report_nil]
    simp only
    rw [show String.ofList (Text.trim a.value.toList) = variableName a from rfl]
    by_cases repeated : variableName a ∈ bound.map (·.name)
    · have reported : share =
          .problem a.valueOrNameSpan (.repeatedVariable (variableName a)) := by
        simp only [share, shareFor, given, role, repeated, if_true]
      rw [if_pos (known.mpr repeated), run_bind, reported, Share.problem,
        Progress.sharing_diagnostics, Share.nothing, List.append_nil]
      rfl
    · have declared : share =
          { Share.nothing with binders := [⟨spec.setter, spec.type, variableName a⟩] } := by
        simp only [share, shareFor, given, role, repeated, if_false]
      rw [if_neg (mt known.mp repeated), run_bind, declared, Share.nothing]
      simp [Progress.sharing, Scope.declareAll]
      rfl

theorem run_bindVariables_sharing (tag : Markup.StartTag) (scope : Scope) (imports : Imports)
    (specs : List AttributeSpec)
    (roles : ∀ spec ∈ specs, spec.role = .binder) (bound : List VariableBinding) (p : Progress) :
    let shares := c.sharesFor tag scope imports (bound.map (·.name)) specs
    (bindVariables tag specs bound).run p =
      (.ok (bound ++ shares.flatMap (·.binders)), p.sharing shares) := by
  induction specs generalizing bound p with
  | nil =>
    simp only [sharesFor, Progress.sharing_nil, List.flatMap_nil, List.append_nil]
    rfl
  | cons spec specs ih =>
    obtain ⟨role, roles⟩ := List.forall_mem_cons.mp roles
    intro shares
    rw [run_bindVariables_cons c tag scope imports role, ih roles]
    simp only [shares, sharesFor, List.flatMap_cons, List.map_append, List.append_assoc]
    rw [← Progress.sharing_append, List.singleton_append]

/-- Variables neither bind expressions nor compile them. -/
theorem sharesFor_binders {specs : List AttributeSpec} (roles : ∀ spec ∈ specs, spec.role = .binder)
    (used : List String) :
    let shares := c.sharesFor tag scope imports used specs
    shares.flatMap (·.computations) = [] ∧ shares.flatMap (·.actions) = [] := by
  induction specs generalizing used with
  | nil => exact ⟨rfl, rfl⟩
  | cons spec specs ih =>
    obtain ⟨role, roles⟩ := List.forall_mem_cons.mp roles
    simp only [sharesFor, List.flatMap_cons, ih roles, List.append_nil]
    unfold shareFor
    split
    · split <;> exact ⟨rfl, rfl⟩
    · simp only [role]
      split <;> exact ⟨rfl, rfl⟩

def expressionsOf (shares : List Share) : Expressions :=
  ⟨shares.flatMap (·.computations), shares.flatMap (·.actions)⟩

/-- Binding an expression adds its share, under what is in force. -/
theorem run_bindExpressions_cons (tag : Markup.StartTag) {spec : AttributeSpec}
    (role : spec.role ≠ .binder) (specs : List AttributeSpec) (used : List String) (p : Progress) :
    let share := c.shareFor tag p.scope p.imports used spec
    share.binders = [] ∧
      (c.bindExpressions tag (spec :: specs)).run p =
        (((c.bindExpressions tag specs).run (p.sharing [share])).1.map fun es =>
            ⟨share.computations ++ es.computations, share.actions ++ es.actions⟩,
          ((c.bindExpressions tag specs).run (p.sharing [share])).2) := by
  intro share
  rw [bindExpressions, run_bind, run_findAttribute_eq]
  cases given : tag.attribute? spec.name with
  | none =>
    have absent : share = { Share.nothing with diagnostics := missing tag spec } :=
      c.shareFor_none given
    rw [absent, Progress.sharing_diagnostics]
    refine ⟨rfl, ?_⟩
    simp only [Share.nothing, List.nil_append]
    cases (c.bindExpressions tag specs).run (p.report (missing tag spec)) with
    | mk outcome q => cases outcome <;> rfl
  | some a =>
    let call := callFor spec p.scope p.imports a
    have value : (c.compileValue a call.expected).run p =
        (.ok (c.compiledAt call).plan, p.sharing [share]) := by
      cases which : spec.role with
      | binder => exact absurd which role
      | computation | action =>
        simp [share, shareFor, given, which, Progress.sharing, Scope.declareAll]
        rfl
    rw [missing_of_given given, Progress.report_nil]
    simp only
    rw [run_bind, show (c.compileValue a
      (if spec.role = .action then none else some spec.type)).run p = _ from value]
    simp only
    cases which : spec.role with
    | binder => exact absurd which role
    | computation =>
      have shared : share.binders = [] ∧ share.actions = [] ∧
          share.computations = [⟨spec.setter, (c.compiledAt call).plan⟩] := by
        simp [share, shareFor, given, which, call]
      simp only [shared, reduceCtorEq, if_false, run_map]
      exact ⟨trivial, rfl⟩
    | action =>
      have shared : share.binders = [] ∧ share.computations = [] ∧
          share.actions = [⟨spec.setter, (c.compiledAt call).plan.plan⟩] := by
        simp [share, shareFor, given, which, call]
      simp only [shared, if_true, run_map]
      exact ⟨trivial, rfl⟩

theorem run_bindExpressions_sharing (tag : Markup.StartTag) (specs : List AttributeSpec)
    (roles : ∀ spec ∈ specs, spec.role ≠ .binder) (used : List String) (p : Progress) :
    let shares := c.sharesFor tag p.scope p.imports used specs
    shares.flatMap (·.binders) = [] ∧
      (c.bindExpressions tag specs).run p = (.ok (expressionsOf shares), p.sharing shares) := by
  induction specs generalizing used p with
  | nil =>
    simp only [sharesFor, Progress.sharing_nil]
    exact ⟨rfl, rfl⟩
  | cons spec specs ih =>
    obtain ⟨role, roles⟩ := List.forall_mem_cons.mp roles
    obtain ⟨unbound, run⟩ := c.run_bindExpressions_cons tag role specs used p
    let share := c.shareFor tag p.scope p.imports used spec
    have scope : (p.sharing [share]).scope = p.scope := by
      simp [Progress.sharing, share, unbound, Scope.declareAll]
    obtain ⟨unbound', run'⟩ := ih roles used (p.sharing [share])
    rw [scope] at unbound' run'
    have shares : c.sharesFor tag p.scope p.imports used (spec :: specs) =
        share :: c.sharesFor tag p.scope p.imports used specs := by
      simp [sharesFor, share, unbound]
    intro all
    have cons : all = share :: c.sharesFor tag p.scope p.imports used specs := shares
    rw [cons, List.flatMap_cons, show share.binders = [] from unbound, List.nil_append]
    refine ⟨unbound', ?_⟩
    have step : (c.bindExpressions tag specs).run (p.sharing [share]) =
        (.ok (expressionsOf (c.sharesFor tag p.scope p.imports used specs)),
          (p.sharing [share]).sharing (c.sharesFor tag p.scope p.imports used specs)) := run'
    rw [run, step, ← Progress.sharing_append]
    rfl

def bindingOrder (s : Signature) : List AttributeSpec :=
  s.attributes.values.filter (·.role = .binder) ++ s.attributes.values.filter (·.role ≠ .binder)

structure MadeOf (tag : Markup.StartTag) (s : Signature) (p : Progress) (u : DirectiveUse)
    (shares : List Share) : Prop where
  of : u.Of s
  /-- Expressions see all variables of the use, and no others are added to the scope. -/
  each : c.SharesOf tag (p.scope.declareAll u.binders) p.imports [] (bindingOrder s) shares
  binders : u.binders = shares.flatMap (·.binders)
  computations : u.computations = shares.flatMap (·.computations)
  actions : u.actions = shares.flatMap (·.actions)

theorem exists_madeOf (tag : Markup.StartTag) (s : Signature) (p : Progress) :
    ∃ u shares, c.MadeOf tag s p u shares ∧
      (c.directiveParts tag s).run p = (.ok u, p.sharing shares) := by
  let binderSpecs := s.withRole (· = .binder)
  let expressionSpecs := s.withRole (· ≠ .binder)
  have roles : ∀ spec ∈ binderSpecs, spec.role = .binder := by
    intro spec mem
    simpa using (List.mem_filter.mp mem).2
  have roles' : ∀ spec ∈ expressionSpecs, spec.role ≠ .binder := by
    intro spec mem
    simpa using (List.mem_filter.mp mem).2
  -- The shares of the variables are the same under every scope, so also under the one they make.
  have bound := fun scope =>
    c.run_bindVariables_sharing tag scope p.imports binderSpecs roles [] p
  let vs := (c.sharesFor tag p.scope p.imports [] binderSpecs).flatMap (·.binders)
  let scope := p.scope.declareAll vs
  let shares := c.sharesFor tag scope p.imports [] binderSpecs
  have same : shares.flatMap (·.binders) = vs := by
    have both := (bound scope).symm.trans (bound p.scope)
    simpa [shares, vs] using congrArg Prod.fst both
  have declared : (p.sharing shares).scope = scope := by
    simp only [Progress.sharing, same, scope]
  let shares' := c.sharesFor tag scope p.imports (vs.map (·.name)) expressionSpecs
  obtain ⟨unbound, compiled⟩ := c.run_bindExpressions_sharing tag expressionSpecs roles'
    (vs.map (·.name)) (p.sharing shares)
  rw [declared] at unbound compiled
  have binders : (shares ++ shares').flatMap (·.binders) = vs := by
    rw [List.flatMap_append, same, show shares'.flatMap (·.binders) = [] from unbound,
      List.append_nil]
  obtain ⟨computations, actions⟩ : shares.flatMap (·.computations) = [] ∧
      shares.flatMap (·.actions) = [] := c.sharesFor_binders roles []
  refine ⟨⟨s.owner, s.name, vs, shares'.flatMap (·.computations), shares'.flatMap (·.actions),
    s.contentSetter⟩, shares ++ shares', ⟨⟨rfl, rfl, rfl⟩, ?_, binders.symm, ?_, ?_⟩, ?_⟩
  · apply SharesOf.append (c.sharesOf_sharesFor [] binderSpecs)
    rw [same]
    exact c.sharesOf_sharesFor _ expressionSpecs
  · rw [List.flatMap_append, computations, List.nil_append]
  · rw [List.flatMap_append, actions, List.nil_append]
  · have ran : (bindVariables tag binderSpecs []).run p = (.ok vs, p.sharing shares) := by
      rw [← same]
      exact bound scope
    have ran' : (c.bindExpressions tag expressionSpecs).run (p.sharing shares) =
        (.ok (expressionsOf shares'), p.sharing (shares ++ shares')) := by
      rw [Progress.sharing_append]
      exact compiled
    rw [directiveParts, run_bind, ran]
    simp only
    rw [run_bind, ran']
    rfl

end Compiler

end DirectiveTemplates
