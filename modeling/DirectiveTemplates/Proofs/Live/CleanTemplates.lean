import DirectiveTemplates.Proofs.Binding.Supplied
import DirectiveTemplates.Proofs.Live.History

/-!
Templates that compiled without any diagnostic, at run time. What the standard classes require of
their tags is what their components ask for, so rendering such a template never fails.
-/
namespace DirectiveTemplates

structure ClassTable.KeepsStandard (t : ClassTable) : Prop where
  forEach : t.describe forEachClass = some (some forEachSignature)
  conditional : t.describe conditionalClass = some (some conditionalSignature)
  text : t.describe textClass = some (some textSignature)

def ClassTable.standardClasses : List String := [forEachClass, conditionalClass, textClass]

theorem DirectiveUse.exists_plan {u : DirectiveUse} {setter : String}
    (bound : u.computations.any (·.setter == setter) = true) :
    ∃ plan, u.plan? setter = some plan := by
  cases found : u.computations.reverse.find? (·.setter == setter) with
  | none =>
    obtain ⟨b, mem, eq⟩ := List.any_eq_true.mp bound
    have other := List.find?_eq_none.mp found b (List.mem_reverse.mpr mem)
    exact absurd eq other
  | some b => exact ⟨b.plan.plan, by simp [plan?, found]⟩

namespace Live

def Evaluable (u : DirectiveUse) : Prop :=
  ∀ content : Bindings → Except RenderError (List Char),
    (∀ outer, ∃ written, content outer = .ok written) →
    ∀ outer, ∃ written, Evaluation.directive u content outer = .ok written

namespace Evaluation

variable {u : DirectiveUse} {content : Bindings → Except RenderError (List Char)}

theorem exists_passes (inner : ∀ outer, ∃ written, content outer = .ok written) (outer : Bindings)
    (i : Nat) (items : List Json.Value) :
    ∃ written, passes u content outer i items = .ok written := by
  induction items generalizing i with
  | nil => exact ⟨[], rfl⟩
  | cons item items ih =>
    obtain ⟨first, eq⟩ := inner (bindOwn (iteration i item) u.binders outer)
    obtain ⟨rest, eq'⟩ := ih (i + 1)
    exact ⟨first ++ rest, by rw [passes, eq, eq']; rfl⟩

mutual

theorem exists_node : (n : TemplateNode) → (∀ u ∈ n.uses, Evaluable u) → (outer : Bindings) →
    ∃ written, node n outer = .ok written
  | .text value, _, outer => ⟨value.toList, rfl⟩
  | .element tag attributes children, all, outer => by
    obtain ⟨inner, eq⟩ := exists_nodes children all outer
    exact ⟨writeElement tag attributes inner, by rw [node, eq]; rfl⟩
  | .directive u content, all, outer => by
    simp only [TemplateNode.uses, List.mem_cons, forall_eq_or_imp] at all
    exact all.1 (nodes content) (exists_nodes content all.2) outer

theorem exists_nodes : (ns : List TemplateNode) → (∀ u ∈ TemplateNode.usesAll ns, Evaluable u) →
    (outer : Bindings) → ∃ written, nodes ns outer = .ok written
  | [], _, outer => ⟨[], rfl⟩
  | n :: ns, all, outer => by
    simp only [TemplateNode.usesAll, List.mem_append] at all
    obtain ⟨first, eq⟩ := exists_node n (fun u mem => all u (Or.inl mem)) outer
    obtain ⟨rest, eq'⟩ := exists_nodes ns (fun u mem => all u (Or.inr mem)) outer
    exact ⟨first ++ rest, by rw [nodes, eq, eq']; rfl⟩

end

end Evaluation

section standard

variable {u : DirectiveUse}

theorem evaluable_repetition (supplied : Supplied ClassTable.forEachSignature u) : Evaluable u := by
  have kind : standardKinds u.className = some .forEach := by
    rw [supplied.owner]
    rfl
  have element := supplied.binders ⟨"var", .binder, true, "set_element_variable", .parameter "T"⟩
    (List.mem_cons_self) rfl rfl
  obtain ⟨plan, bound⟩ := DirectiveUse.exists_plan (supplied.computations
    ⟨"in", .computation, true, "set_collection", .ofClass "Iterable" [.parameter "T"]⟩
    (List.mem_cons_of_mem _ List.mem_cons_self) rfl rfl)
  have body : u.contentSetter = some "set_body" := supplied.content
  intro content inner outer
  obtain ⟨written, eq⟩ :=
    Evaluation.exists_passes (u := u) inner outer 0 (itemsOf (Evaluation.own u outer plan))
  refine ⟨written, ?_⟩
  simp only [Evaluation.directive, kind, Evaluation.repetition, bound, element, body,
    Bool.true_eq_false, Option.isNone_some, Bool.false_eq_true, if_false]
  exact eq

theorem evaluable_conditional (supplied : Supplied ClassTable.conditionalSignature u) :
    Evaluable u := by
  have kind : standardKinds u.className = some .conditional := by
    rw [supplied.owner]
    rfl
  obtain ⟨plan, bound⟩ := DirectiveUse.exists_plan (supplied.computations
    ⟨"condition", .computation, true, "set_condition", .primitive .boolean⟩
    List.mem_cons_self rfl rfl)
  have body : u.contentSetter = some "set_body" := supplied.content
  intro content inner outer
  simp only [Evaluation.directive, kind, Evaluation.conditional, bound, body, Option.isNone_some,
    Bool.false_eq_true, if_false]
  split
  · exact inner _
  · exact ⟨[], rfl⟩

theorem evaluable_output (supplied : Supplied ClassTable.textSignature u) : Evaluable u := by
  have kind : standardKinds u.className = some .text := by
    rw [supplied.owner]
    rfl
  obtain ⟨plan, bound⟩ := DirectiveUse.exists_plan (supplied.computations
    ⟨"value", .computation, true, "set_value", .simple "Object"⟩ List.mem_cons_self rfl rfl)
  intro content inner outer
  simp only [Evaluation.directive, kind, Evaluation.output, bound]
  exact ⟨_, rfl⟩

theorem evaluable_of_suppliedBy {classes : ClassTable} (table : classes.KeepsStandard)
    (supplied : SuppliedBy classes u) (standard : u.className ∈ ClassTable.standardClasses) :
    Evaluable u := by
  obtain ⟨s, signature, supplied⟩ := supplied
  simp only [ClassTable.standardClasses, List.mem_cons, List.not_mem_nil, or_false] at standard
  rcases standard with eq | eq | eq
  · rw [eq, Registry.signatureOf_of_describe table.forEach rfl] at signature
    cases signature
    exact evaluable_repetition supplied
  · rw [eq, Registry.signatureOf_of_describe table.conditional rfl] at signature
    cases signature
    exact evaluable_conditional supplied
  · rw [eq, Registry.signatureOf_of_describe table.text rfl] at signature
    cases signature
    exact evaluable_output supplied

end standard

/-- When a template compiled without any diagnostic to directives of the standard classes, no
render of it fails, whatever models and renders came before. -/
theorem render_ok_of_clean {c : Compiler} (table : c.classes.KeepsStandard)
    {source className : String} {nodes : List TemplateNode}
    (compiled : (c.compile source className).result = .ok nodes)
    (clean : (c.compile source className).progress.diagnostics = [])
    (standard : ∀ u ∈ TemplateNode.usesAll nodes, u.className ∈ ClassTable.standardClasses)
    (model : Json.Value) (commands : List Command) :
    ((Instance.create .standard nodes model).run commands).render.1 = .ok () := by
  have supplied := Compiler.suppliedBy_of_clean compiled clean
  have evaluable : ∀ u ∈ TemplateNode.usesAll nodes, Evaluable u := by
    intro u mem
    exact evaluable_of_suppliedBy table (supplied u mem) (standard u mem)
  have answers := Instance.render_after nodes model commands
  obtain ⟨written, eq⟩ := Evaluation.exists_nodes nodes evaluable _
  rw [answers.result, eq]
  rfl

/-- The standard classes alone, with paths as expressions. -/
def standardCompiler : Compiler :=
  ⟨{}, .standard, Resources.withStandard "META-INF/flavour/directive-packages" fun _ => .absent,
    Path.compile⟩

/-- The items of a model, as text, when there are any. -/
def listSource : String :=
  "<std:if condition='this'>" ++
    "<std:foreach var='x' in='this'><std:text value='x'/></std:foreach></std:if>"

theorem render_ok_of_list_source :
    ∃ nodes, (standardCompiler.compile listSource "Page").result = .ok nodes ∧
      ((Instance.create .standard nodes (.array [.bool true, .string "<"])).run
        [.render, .setModel .null]).render.1 = .ok () := by
  obtain ⟨clean, checked⟩ : (standardCompiler.compile listSource "Page").progress.diagnostics = [] ∧
      (standardCompiler.compile listSource "Page").result.toOption.any
        (fun nodes => (TemplateNode.usesAll nodes).all
          (·.className ∈ ClassTable.standardClasses)) = true := by
    decide +kernel
  cases compiled : (standardCompiler.compile listSource "Page").result with
  | error failure =>
    rw [compiled] at checked
    cases checked
  | ok nodes =>
    refine ⟨nodes, rfl, ?_⟩
    refine render_ok_of_clean ⟨rfl, rfl, rfl⟩ compiled clean ?_ _ [.render, .setModel .null]
    intro u mem
    rw [compiled] at checked
    simpa using List.all_eq_true.mp checked u mem

end Live

end DirectiveTemplates
