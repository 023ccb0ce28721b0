import DirectiveTemplates.Binding.Path
import DirectiveTemplates.Proofs.Binding.Resolution
import DirectiveTemplates.Proofs.Binding.Shares

/-!
The declared attributes of every directive in a compilation. Each directive tag that the walk comes
to is bound from the shares of its declared attributes, and nothing else that the tag has changes
the binding or what is reported.
-/
namespace DirectiveTemplates

namespace Compiler

open CompileM

variable (c : Compiler) {tag : Markup.StartTag}

/-! The uses in a bound tree are those that the walk made, one for each directive it came to. -/

def useAt (a : Arrival) : Option DirectiveUse :=
  match a.node with
  | .element tag _ _ _ =>
    match Meaning.of a.progress.registry.resolve tag with
    | .directive s => ((c.directiveParts tag s).run a.progress).1.toOption
    | _ => none
  | _ => none

theorem usesAll_element {span : Span} {stop : Option Span} {children : List Markup.Node}
    {p q : Progress} {ts : List TemplateNode}
    (run : (c.node (.element tag span stop children)).run p = (.ok ts, q)) :
    ∃ content, (c.inside tag children p (c.own (.element tag span stop children) p)).1 =
        .ok content ∧
      TemplateNode.usesAll ts = (c.useAt ⟨.element tag span stop children, p⟩).toList ++
        TemplateNode.usesAll content := by
  unfold useAt
  rw [Compiler.node] at run
  cases named : Markup.splitNamespace tag.name with
  | none =>
    have meaning : Meaning.of p.registry.resolve tag = .literal := by simp only [Meaning.of, named]
    simp only [inside, own, meaning, Meaning.takesContent, if_true]
    rw [named] at run
    simp only [run_map] at run
    obtain ⟨content, outcome, rfl⟩ := exists_of_map_ok (congrArg Prod.fst run)
    exact ⟨content, outcome, by simp [TemplateNode.usesAll, TemplateNode.uses]⟩
  | some parts =>
    obtain ⟨space, name⟩ := parts
    simp only [named] at run
    rw [run_bind, run_get] at run
    simp only at run
    cases found : p.registry.resolve space name with
    | none =>
      have meaning : Meaning.of p.registry.resolve tag = .undefined := by
        simp only [Meaning.of, named, found]
      simp only [inside, own, meaning, Meaning.takesContent]
      simp only [found] at run
      cases run
      exact ⟨[], rfl, rfl⟩
    | some s =>
      have meaning : Meaning.of p.registry.resolve tag = .directive s := by
        simp only [Meaning.of, named, found]
      obtain ⟨u, shares, -, bound⟩ := c.exists_madeOf tag s p
      simp only [found] at run
      rw [run_bind, bound] at run
      simp only at run
      rw [run_retracting] at run
      simp only [inside, own, meaning, Meaning.takesContent, bound]
      by_cases takes : s.contentSetter.isSome
      · have given : s.contentSetter.isNone = false := by simpa using takes
        simp only [takes, contentProblems, given, if_true, run_map, Bool.false_and,
          Bool.false_eq_true, if_false, Progress.report_nil] at run ⊢
        obtain ⟨content, outcome, rfl⟩ := exists_of_map_ok (congrArg Prod.fst run)
        exact ⟨content, outcome, by simp [TemplateNode.usesAll, TemplateNode.uses, Except.toOption]⟩
      · simp only [takes, Bool.false_eq_true, if_false] at run ⊢
        refine ⟨[], rfl, ?_⟩
        split at run
        all_goals
          cases run
          simp [TemplateNode.usesAll, TemplateNode.uses, Except.toOption]

mutual

theorem usesAll_arrivalsIn : (n : Markup.Node) → (p : Progress) → ∀ ts q,
    (c.node n).run p = (.ok ts, q) →
      TemplateNode.usesAll ts = (c.arrivalsIn n p).filterMap c.useAt
  | .text _, _, ts, q, run => by
    cases run
    rfl
  | .comment _, _, ts, q, run => by
    cases run
    rfl
  | .instruction i, p, ts, q, run => by
    rw [Compiler.node, run_map] at run
    obtain ⟨_, -, rfl⟩ := exists_of_map_ok (congrArg Prod.fst run)
    rfl
  | .element tag span stop children, p, ts, q, run => by
    obtain ⟨content, outcome, uses⟩ := c.usesAll_element run
    have first (a : Arrival) (rest : List Arrival) : (a :: rest).filterMap c.useAt =
        (c.useAt a).toList ++ rest.filterMap c.useAt := by
      rw [List.filterMap_cons]
      cases c.useAt a <;> rfl
    rw [arrivalsIn, first, uses]
    congr 1
    unfold inside at outcome
    split
    · rename_i takes
      rw [if_pos takes] at outcome
      exact usesAll_arrivalsAll children _ content _ (Prod.ext outcome rfl)
    · rename_i refuses
      rw [if_neg refuses] at outcome
      cases outcome
      rfl

theorem usesAll_arrivalsAll : (ns : List Markup.Node) → (p : Progress) → ∀ ts q,
    (c.nodes ns).run p = (.ok ts, q) →
      TemplateNode.usesAll ts = (c.arrivalsAll ns p).filterMap c.useAt
  | [], _, ts, q, run => by
    cases run
    rfl
  | n :: ns, p, ts, q, run => by
    rw [Compiler.nodes, run_bind] at run
    rw [arrivalsAll]
    cases first : (c.node n).run p with
    | mk outcome r =>
      rw [first] at run
      cases outcome with
      | error e => cases run
      | ok here =>
        simp only [run_map] at run
        obtain ⟨rest, outcome, rfl⟩ := exists_of_map_ok (congrArg Prod.fst run)
        rw [TemplateNode.usesAll_append, List.filterMap_append, usesAll_arrivalsIn n p here r first,
          usesAll_arrivalsAll ns r rest _ (Prod.ext outcome rfl)]

end

/-! What is found at a directive is what its shares say, and then what its content says. -/

theorem findings_directive {s : Signature} {p : Progress} {u : DirectiveUse} {shares : List Share}
    (meaning : Meaning.of p.registry.resolve tag = .directive s)
    (bound : (c.directiveParts tag s).run p = (.ok u, p.sharing shares)) (span : Span)
    (stop : Option Span) (children : List Markup.Node) :
    let found := c.findings ⟨.element tag span stop children, p⟩
    found.flatMap c.reported =
        shares.flatMap (·.diagnostics) ++ contentProblems s span children ∧
      found.filterMap Finding.call? = shares.flatMap (·.calls) := by
  intro found
  obtain ⟨diagnostics, calls⟩ := c.own_finds (.element tag span stop children) p
  have own : c.own (.element tag span stop children) p =
      (p.sharing shares).report (contentProblems s span children) := by
    simp only [Compiler.own, meaning, bound]
  rw [own] at diagnostics calls
  constructor
  · have told : p.diagnostics ++ found.flatMap c.reported = p.diagnostics ++
        (shares.flatMap (·.diagnostics) ++ contentProblems s span children) := by
      rw [← List.append_assoc]
      exact diagnostics.symm
    exact List.append_cancel_left told
  · exact List.append_cancel_left calls.symm

/-! Only the declared attributes of a tag matter, each by the first attribute with its name. -/

section Alike

variable {s : Signature} {tag' : Markup.StartTag}

theorem findAttribute_congr {spec : AttributeSpec} (span : tag.span = tag'.span)
    (same : tag.attribute? spec.name = tag'.attribute? spec.name) :
    findAttribute tag spec = findAttribute tag' spec := by
  rw [findAttribute, findAttribute, span, same]

theorem bindVariables_congr {specs : List AttributeSpec} (span : tag.span = tag'.span)
    (same : ∀ spec ∈ specs, tag.attribute? spec.name = tag'.attribute? spec.name)
    (bound : List VariableBinding) :
    bindVariables tag specs bound = bindVariables tag' specs bound := by
  induction specs generalizing bound with
  | nil => rfl
  | cons spec specs ih =>
    obtain ⟨first, others⟩ := List.forall_mem_cons.mp same
    simp only [bindVariables, findAttribute_congr span first, ih others]

theorem bindExpressions_congr {specs : List AttributeSpec} (span : tag.span = tag'.span)
    (same : ∀ spec ∈ specs, tag.attribute? spec.name = tag'.attribute? spec.name) :
    c.bindExpressions tag specs = c.bindExpressions tag' specs := by
  induction specs with
  | nil => rfl
  | cons spec specs ih =>
    obtain ⟨first, others⟩ := List.forall_mem_cons.mp same
    simp only [bindExpressions, findAttribute_congr span first, ih others]

end Alike

end Compiler

def Signature.Declares (s : Signature) (a : Markup.Attribute) : Bool :=
  s.attributes.values.any (·.name == a.name)

/-- Two tags of one directive have the same declared attributes: in the same order, or in any order
when their names are distinct. What else they have does not matter. -/
structure Signature.Alike (s : Signature) (tag tag' : Markup.StartTag) : Prop where
  name : tag.name = tag'.name
  span : tag.span = tag'.span
  attributes : tag.attributes.filter s.Declares = tag'.attributes.filter s.Declares ∨
    (tag.attributes.filter s.Declares).Perm (tag'.attributes.filter s.Declares) ∧
      ((tag.attributes.filter s.Declares).map (·.name)).Nodup

theorem Markup.find?_of_perm {as bs : List Markup.Attribute} (perm : as.Perm bs)
    (distinct : (as.map (·.name)).Nodup) (name : String) :
    as.find? (·.name == name) = bs.find? (·.name == name) := by
  induction perm with
  | nil => rfl
  | cons a _ ih =>
    rw [List.find?_cons, List.find?_cons, ih (List.nodup_cons.mp distinct).2]
  | swap a b as =>
    have apart : b.name ≠ a.name := by
      simp only [List.map_cons, List.nodup_cons, List.mem_cons, not_or] at distinct
      exact distinct.1.1
    by_cases here : a.name = name
    · simp [here, here ▸ apart]
    · simp [List.find?_cons, here]
  | trans first _ ih ih' =>
    rw [ih distinct, ih' ((first.map _).nodup_iff.mp distinct)]

theorem Signature.find?_declared (s : Signature) (as : List Markup.Attribute)
    {spec : AttributeSpec} (declared : spec ∈ s.attributes.values) :
    (as.filter s.Declares).find? (·.name == spec.name) = as.find? (·.name == spec.name) := by
  rw [List.find?_filter]
  congr 1
  funext a
  by_cases here : a.name = spec.name
  · have known : s.Declares a = true := by
      rw [Declares, List.any_eq_true]
      exact ⟨spec, declared, by simp [here]⟩
    simp [known, here]
  · simp [here]

theorem Signature.Alike.attribute? {s : Signature} {tag tag' : Markup.StartTag}
    (alike : s.Alike tag tag') {spec : AttributeSpec} (declared : spec ∈ s.attributes.values) :
    tag.attribute? spec.name = tag'.attribute? spec.name := by
  rw [Markup.StartTag.attribute?, Markup.StartTag.attribute?, ← s.find?_declared _ declared,
    ← s.find?_declared tag'.attributes declared]
  rcases alike.attributes with same | ⟨perm, distinct⟩
  · rw [same]
  · exact Markup.find?_of_perm perm distinct spec.name

namespace Compiler

open CompileM

variable (c : Compiler)

theorem directiveParts_congr {s : Signature} {tag tag' : Markup.StartTag}
    (alike : s.Alike tag tag') : c.directiveParts tag s = c.directiveParts tag' s := by
  have declared (p : AttributeRole → Bool) : ∀ spec ∈ s.withRole p,
      tag.attribute? spec.name = tag'.attribute? spec.name :=
    fun spec mem => alike.attribute? (List.mem_filter.mp mem).1
  simp only [directiveParts, bindVariables_congr alike.span (declared _),
    bindExpressions_congr c alike.span (declared _)]

theorem run_alike {s : Signature} {tag tag' : Markup.StartTag} (alike : s.Alike tag tag')
    {space name : String} (named : Markup.splitNamespace tag.name = some (space, name))
    {p : Progress} (found : p.registry.resolve space name = some s) (span : Span)
    (stop : Option Span) (children : List Markup.Node) :
    (c.node (.element tag span stop children)).run p =
      (c.node (.element tag' span stop children)).run p := by
  have named' := named
  rw [alike.name] at named'
  rw [Compiler.node, Compiler.node, named, named']
  simp only
  rw [run_bind, run_bind, run_get]
  simp only [found]
  rw [c.directiveParts_congr alike]

/-- A directive tag that the walk comes to is bound from the shares of its declared attributes.
Nothing comes between them, in the diagnostics and in the calls. -/
structure BoundFrom (source className : String) (before after : List Arrival) (a : Arrival)
    (tag : Markup.StartTag) (s : Signature) (u : DirectiveUse) (shares : List Share) : Prop where
  arrived : c.arrivals source className = before ++ a :: after
  made : c.MadeOf tag s a.progress u shares
  node : ∀ ts q, (c.node a.node).run a.progress = (.ok ts, q) →
    ∃ content, ts = [.directive u content]
  /-- The use stands in the bound tree behind those of the directives before it. -/
  uses : ∀ nodes, (c.compile source className).result = .ok nodes →
    TemplateNode.usesAll nodes = before.filterMap c.useAt ++ u :: after.filterMap c.useAt
  diagnostics : ∃ span stop children, a.node = .element tag span stop children ∧
    (c.compile source className).progress.diagnostics =
      a.progress.diagnostics ++
        (shares.flatMap (·.diagnostics) ++ contentProblems s span children) ++
          after.flatMap fun b => (c.findings b).flatMap c.reported
  calls : (c.compile source className).progress.calls =
    a.progress.calls ++ shares.flatMap (·.calls) ++
      after.flatMap fun b => (c.findings b).filterMap Finding.call?

structure BindsDeclared (source className : String) : Prop where
  /-- Each declared attribute falls in exactly one case. -/
  share : ∀ tag scope imports used spec, ∃! share, c.ShareOf tag scope imports used spec share
  bound : ∀ before a tag space name s, c.ComesTo source className before a tag space name →
    a.progress.registry.resolve space name = some s →
      ∃ after u shares, c.BoundFrom source className before after a tag s u shares
  /-- Undeclared attributes change nothing, nor does the order of attributes with distinct names. -/
  alike : ∀ s tag tag' space name p, s.Alike tag tag' →
    Markup.splitNamespace tag.name = some (space, name) →
    p.registry.resolve space name = some s →
      ∀ span stop children, (c.node (.element tag span stop children)).run p =
        (c.node (.element tag' span stop children)).run p

theorem used_of_arrivals {source className : String} {before after : List Arrival} {a : Arrival}
    (arrived : c.arrivals source className = before ++ a :: after) :
    c.defaultUse.failure = none := by
  unfold arrivals at arrived
  cases failed : c.defaultUse.failure with
  | none => rfl
  | some failure =>
    rw [failed] at arrived
    simp at arrived

/-- What a compilation found is what it had found at one arrival, what it found there and what it
found later. -/
theorem found_at {source className : String} {before after : List Arrival} {a : Arrival}
    (arrived : c.arrivals source className = before ++ a :: after) :
    (c.compile source className).progress.diagnostics = a.progress.diagnostics ++
        (c.findings a).flatMap c.reported ++
          after.flatMap (fun b => (c.findings b).flatMap c.reported) ∧
      (c.compile source className).progress.calls = a.progress.calls ++
        (c.findings a).filterMap Finding.call? ++
          after.flatMap fun b => (c.findings b).filterMap Finding.call? := by
  have used := c.used_of_arrivals arrived
  let start := c.entered source className
  have known : c.Accounts start.diagnostics [] start :=
    ⟨(List.append_nil _).symm, c.calls_entered source className⟩
  obtain ⟨ended, along⟩ :=
    (c.tracks_accounts start.diagnostics).nodes (Markup.parse source).nodes start [] known
  rw [← c.arrivals_of_default used, arrived] at ended along
  have here := along.at
  obtain ⟨scope, compiled⟩ := c.compile_of_default used source className
  rw [compiled]
  simp only
  rw [ended.diagnostics, ended.calls, here.diagnostics, here.calls]
  simp [List.flatMap_assoc, List.filterMap_flatMap]

/-- Every declared attribute of a directive is left out, reported or bound, once and in the order of
the declarations. -/
theorem compile_binds_declared (source className : String) :
    c.BindsDeclared source className := by
  refine ⟨fun _ _ _ used spec => c.existsUnique_shareOf used spec, ?_, ?_⟩
  · intro before a tag space name s comes found
    obtain ⟨after, arrived⟩ := comes.arrived
    obtain ⟨span, stop, children, node⟩ := comes.element
    obtain ⟨diagnostics, calls⟩ := c.found_at arrived
    have used := c.used_of_arrivals arrived
    obtain ⟨n, p⟩ := a
    cases node
    have meaning : Meaning.of p.registry.resolve tag = .directive s := by
      simp only [Meaning.of, comes.named, found]
    obtain ⟨u, shares, made, run⟩ := c.exists_madeOf tag s p
    obtain ⟨said, called⟩ := c.findings_directive meaning run span stop children
    rw [said] at diagnostics
    rw [called] at calls
    have here : c.useAt ⟨.element tag span stop children, p⟩ = some u := by
      simp only [useAt, meaning, run]
      rfl
    refine ⟨after, u, shares, arrived, made, ?_, ?_, ?_, calls⟩
    · intro ts q bound
      obtain ⟨u', content, rfl, -⟩ := run_defined comes.named found bound
      obtain ⟨content', -, uses⟩ := c.usesAll_element bound
      rw [here] at uses
      have same : u' = u := by
        simp only [TemplateNode.usesAll, TemplateNode.uses, Option.toList_some,
          List.cons_append] at uses
        exact (List.cons.inj uses).1
      exact ⟨content, by rw [same]⟩
    · intro nodes ok
      obtain ⟨scope, compiled⟩ := c.compile_of_default used source className
      rw [compiled] at ok
      rw [c.usesAll_arrivalsAll _ _ nodes _ (Prod.ext ok rfl), ← c.arrivals_of_default used,
        arrived, List.filterMap_append, List.filterMap_cons, here]
    · exact ⟨span, stop, children, rfl, diagnostics⟩
  · intro s tag tag' space name p alike named found span stop children
    exact c.run_alike alike named found span stop children

/-- A directive with attributes of all kinds, and paths for its expressions. -/
def pairCompiler : Compiler where
  config := { defaultPrefix := "p", defaultPackage := "pairs" }
  classes := ClassTable.empty.addDirective
    { name := "pair"
      owner := "pairs.Pair"
      attributes := Signature.attributesOf
        [⟨"value", .computation, true, "set_value", .simple "Object"⟩,
          ⟨"first", .binder, true, "set_first", .primitive .int⟩,
          ⟨"go", .action, true, "set_go", .unknown⟩,
          ⟨"second", .binder, true, "set_second", .primitive .char⟩,
          ⟨"hint", .computation, false, "set_hint", .unknown⟩,
          ⟨"third", .binder, true, "set_third", .unknown⟩]
      contentSetter := none
      ignoresContent := false }
  resources := fun _ => .stream (Text.encodeUtf8 "Pair\n") none
  expressions := Path.compile

/-- One variable is repeated, one is missing, and one attribute is not declared. -/
def pairSource : String := "<p:pair second=' i ' other='' value='i' go='k' first='i'/>"

theorem compile_binds_declared_of_pairSource :
    pairCompiler.BindsDeclared pairSource "Page" ∧
      (pairCompiler.compile pairSource "Page").progress.diagnostics.map (·.display) =
        ["[16, 19) Variable i is already used by the same directive",
          "[0, 58) Missing required attribute: third", "[44, 45) Variable k was not found"] ∧
      (pairCompiler.compile pairSource "Page").result.toOption.map
        (fun nodes => (TemplateNode.usesAll nodes).map fun u =>
          (u.binders.map (·.setter), u.computations.map (·.setter), u.actions.map (·.setter))) =
        some [(["set_first"], ["set_value"], ["set_go"])] := by
  refine ⟨pairCompiler.compile_binds_declared pairSource "Page", ?_⟩
  decide +kernel

end Compiler

end DirectiveTemplates
