import DirectiveTemplates.CommandLine.Run
import DirectiveTemplates.Proofs.Binding.Forests
import DirectiveTemplates.Proofs.Json.Decoding

/-!
Bound forests read back from their JSON form, node by node and down to the types of bindings.
-/
namespace DirectiveTemplates

open Json Json.Decoder

theorem Primitive.decodes (reread : Bool) (kind : Primitive) :
    Decodes (decoder reread) (.string kind.name) kind := by
  intro depth _
  cases kind <;> rfl

namespace ValueType

theorem listToJson_eq (types : List ValueType) : listToJson types = types.map toJson := by
  induction types with
  | nil => rfl
  | cons t types ih => rw [listToJson, ih, List.map_cons]

mutual

theorem toJson_integral : (t : ValueType) → t.toJson.Integral
  | .ofClass _ (a :: rest) =>
    ⟨⟨trivial, ⟨a.toJson_integral, listToJson_integral rest⟩, trivial⟩, trivial⟩
  | .array element => ⟨element.toJson_integral, trivial⟩
  | .ofClass _ [] => ⟨⟨trivial, trivial⟩, trivial⟩
  | .primitive _ | .parameter _ => ⟨trivial, trivial⟩
  | .null | .unknown => trivial

theorem listToJson_integral : (types : List ValueType) → Value.IntegralAll (listToJson types)
  | [] => trivial
  | t :: types => ⟨t.toJson_integral, listToJson_integral types⟩

end

/-- The record of a class with its arguments, which are left out when there are none. -/
def classMembers (name : String) (arguments : List ValueType) : List (String × Value) :=
  match arguments with
  | [] => [("name", .string name)]
  | _ :: _ => [("name", .string name), ("arguments", .array (arguments.map toJson))]

theorem toJson_ofClass (name : String) (arguments : List ValueType) :
    (ofClass name arguments).toJson =
      .object [("class", .object (classMembers name arguments))] := by
  cases arguments with
  | nil => rfl
  | cons t rest => rw [toJson, listToJson_eq]; rfl

theorem decodes_class {self : Decoder ValueType} (name : String) {arguments : List ValueType}
    (inner : ∀ t ∈ arguments, Decodes self t.toJson t) :
    Decodes (fun depth d => do
      let fs ← Decoder.fields ["name", "arguments"] depth d
      let name ← fs.get "name" Decoder.string
      let arguments ← fs.getD "arguments" (Decoder.list self) []
      return .ofClass name arguments) (.object (classMembers name arguments))
      (ofClass name arguments) := by
  cases arguments with
  | nil =>
    apply decodes_record (by simp [classMembers]) (by simp [classMembers])
    intro depth shallow
    have named := Fields.get_ofMembers "name" (decodes_string name) rfl shallow
    have absent : (Fields.ofMembers depth (classMembers name [])).getD "arguments"
        (Decoder.list self) [] = some [] := Fields.getD_ofMembers_absent rfl []
    simp [named, absent]
  | cons t rest =>
    apply decodes_record (by simp [classMembers]) (by simp [classMembers])
    intro depth shallow
    have named := Fields.get_ofMembers "name" (decodes_string name) rfl shallow
    have arguments := Fields.getD_ofMembers "arguments" (decodes_list inner) rfl shallow []
    simp [named, arguments]

theorem nesting_lt_classMembers (name : String) {t : ValueType} {arguments : List ValueType}
    (mem : t ∈ arguments) :
    t.toJson.nesting < Value.nestingMembers (classMembers name arguments) := by
  have le := Value.nesting_le_nestingAll (List.mem_map_of_mem (f := toJson) mem)
  cases arguments with
  | nil => cases mem
  | cons t' rest =>
    simp only [classMembers, Value.nestingMembers, Value.nesting]
    omega

theorem variant_ofValue (depth : Nat) (name : String) (v : Value) :
    Decoder.variant (depth + 1) (.ofValue (.object [(name, v)])) =
      some ⟨name, depth, some (.ofValue v)⟩ := rfl

theorem decodes (reread : Bool) (t : ValueType) : Decodes (decoder reread) t.toJson t := by
  refine decodes_recursive (fun _ => True) ?_ trivial
  intro self t _ inner
  cases t with
  | primitive kind =>
    apply decodes_object
    intro depth _
    have read := Primitive.decodes reread kind depth (Nat.zero_le _)
    simp [variant_ofValue, Variant.read, read]
  | ofClass name arguments =>
    rw [toJson_ofClass] at inner ⊢
    simp only [Value.nesting, Value.nestingMembers] at inner
    have within : ∀ t ∈ arguments, Decodes self t.toJson t := by
      intro t mem
      have less := nesting_lt_classMembers name mem
      exact inner t trivial (by omega)
    apply decodes_object
    intro depth shallow
    simp only [Value.nestingMembers] at shallow
    have read := decodes_class name within depth (by omega)
    simpa [variant_ofValue, Variant.read] using read
  | array element =>
    have within := inner element trivial (by simp [toJson, Value.nesting, Value.nestingMembers])
    apply decodes_object
    intro depth shallow
    simp only [Value.nestingMembers] at shallow
    have read := within depth (by omega)
    simp [variant_ofValue, Variant.read, read]
  | parameter name =>
    apply decodes_object
    intro depth _
    rfl
  | null => exact fun _ _ => rfl
  | unknown => exact fun _ _ => rfl

end ValueType

theorem TypedPlan.decodes (reread : Bool) {p : TypedPlan} (keyed : p.plan.Keyed) :
    Decodes (decoder reread) p.toJson p := by
  apply decodes_record (by simp) (by simp)
  intro depth shallow
  have plan := Fields.get_ofMembers "plan" (decodes_value p.plan keyed) rfl shallow
  have type := Fields.get_ofMembers "valueType" (p.type.decodes reread) rfl shallow
  simp [plan, type]

theorem VariableBinding.decodes (b : VariableBinding) : Decodes decoder b.toJson b := by
  apply decodes_record (by simp) (by simp)
  intro depth shallow
  have setter := Fields.get_ofMembers "setterName" (decodes_string b.setter) rfl shallow
  have type := Fields.get_ofMembers "valueType" (b.type.decodes true) rfl shallow
  have name := Fields.get_ofMembers "name" (decodes_string b.name) rfl shallow
  simp [setter, type, name]

theorem ComputationBinding.decodes {b : ComputationBinding} (keyed : b.plan.plan.Keyed) :
    Decodes decoder b.toJson b := by
  apply decodes_record (by simp) (by simp)
  intro depth shallow
  have setter := Fields.get_ofMembers "setterName" (decodes_string b.setter) rfl shallow
  have plan := Fields.get_ofMembers "plan" (TypedPlan.decodes true keyed) rfl shallow
  simp [setter, plan]

theorem ActionBinding.decodes {b : ActionBinding} (keyed : b.plan.Keyed) :
    Decodes decoder b.toJson b := by
  apply decodes_record (by simp) (by simp)
  intro depth shallow
  have setter := Fields.get_ofMembers "setterName" (decodes_string b.setter) rfl shallow
  have plan := Fields.get_ofMembers "plan" (decodes_value b.plan keyed) rfl shallow
  simp [setter, plan]

def DirectiveUse.plans (u : DirectiveUse) : List Value :=
  u.computations.map (·.plan.plan) ++ u.actions.map (·.plan)

namespace TemplateNode

theorem listToJson_eq (nodes : List TemplateNode) : listToJson nodes = nodes.map toJson := by
  induction nodes with
  | nil => rfl
  | cons n nodes ih => rw [listToJson, ih, List.map_cons]

theorem decodes_tagged {inner : Bool} {self : Decoder TemplateNode} (item : Decoder TemplateNode)
    {tag : String}
    {ms : List (String × Value)} {n : TemplateNode}
    (selects : decoderOfTag inner self (.string tag) = some item)
    (untagged : "type" ∉ ms.map Prod.fst) (decodes : Decodes item (.object ms) n) :
    Decodes (nodeDecoder inner self) (.object (("type", .string tag) :: ms)) n := by
  intro depth shallow
  have other : ∀ m ∈ Document.ofMembers ms, m.1 ≠ some "type" := by
    rw [Document.ofMembers_eq]
    intro m mem
    obtain ⟨m', mem', rfl⟩ := List.mem_map.mp mem
    intro same
    exact untagged (List.mem_map.mpr ⟨m', mem', Option.some.inj same⟩)
  have rest : (Document.ofMembers ms).filter (·.1 == some "type") = [] := by
    simpa [List.filter_eq_nil_iff] using other
  have others : (Document.ofMembers ms).filter (·.1 != some "type") = Document.ofMembers ms := by
    simpa [List.filter_eq_self] using other
  have read := decodes depth (by simpa [Value.nesting, Value.nestingMembers] using shallow)
  rw [Document.ofValue] at read
  simp only [nodeDecoder, Document.ofValue, Document.ofMembers, List.filter_cons, rest, others]
  simpa [selects] using read

theorem decodes_nodes {self : Decoder TemplateNode} {nodes : List TemplateNode}
    (inner : ∀ n ∈ nodes, Decodes self n.toJson n) :
    Decodes (Decoder.list self) (.array (listToJson nodes)) nodes := by
  rw [listToJson_eq]
  exact decodes_list inner

theorem decodes_text (value : String) :
    Decodes textDecoder (.object [("value", .string value)]) (.text value) := by
  apply decodes_record (by simp) (by simp)
  intro depth shallow
  have value := Fields.get_ofMembers "value" (decodes_string value) rfl shallow
  simp [value]

theorem decodes_element {self : Decoder TemplateNode} (tag : String)
    (attributes : OrderedMap String) {children : List TemplateNode}
    (inner : ∀ n ∈ children, Decodes self n.toJson n) :
    Decodes (elementDecoder self)
      (.object [("tagName", .string tag),
        ("attributes", .object (attributes.entries.map fun a => (a.1, .string a.2))),
        ("childNodes", .array (listToJson children))])
      (.element tag attributes children) := by
  apply decodes_record (by simp) (by simp)
  intro depth shallow
  have values : ∀ e ∈ attributes.entries, Decodes Decoder.string (.string e.2) e.2 :=
    fun e _ => decodes_string e.2
  have tag := Fields.get_ofMembers "tagName" (decodes_string tag) rfl shallow
  have attributes := Fields.get_ofMembers "attributes" (decodes_map values) rfl shallow
  have children := Fields.get_ofMembers "childNodes" (decodes_nodes inner) rfl shallow
  simp [tag, attributes, children]

/-- The record of a use and its content. The content setter is left out when there is none. -/
def directiveMembers (u : DirectiveUse) (content : List TemplateNode) : List (String × Value) :=
  [("directiveClassName", .string u.className), ("directiveName", .string u.name),
    ("variableBindings", .array (u.binders.map VariableBinding.toJson)),
    ("computationBindings", .array (u.computations.map ComputationBinding.toJson)),
    ("actionBindings", .array (u.actions.map ActionBinding.toJson)),
    ("contentNodes", .array (listToJson content))] ++
    u.contentSetter.toList.map fun setter => ("contentSetterName", .string setter)

theorem decodes_directive {self : Decoder TemplateNode} {u : DirectiveUse}
    {content : List TemplateNode} (keyed : ∀ plan ∈ u.plans, plan.Keyed)
    (inner : ∀ n ∈ content, Decodes self n.toJson n) :
    Decodes (directiveDecoder self) (.object (directiveMembers u content))
      (.directive u content) := by
  have computation : ∀ b ∈ u.computations, Decodes ComputationBinding.decoder b.toJson b := by
    intro b mem
    exact ComputationBinding.decodes (keyed _ (List.mem_append_left _ (List.mem_map_of_mem mem)))
  have action : ∀ b ∈ u.actions, Decodes ActionBinding.decoder b.toJson b := by
    intro b mem
    exact ActionBinding.decodes (keyed _ (List.mem_append_right _ (List.mem_map_of_mem mem)))
  apply decodes_record
  · cases h : u.contentSetter <;> simp [directiveMembers, h]
  · cases h : u.contentSetter <;> simp [directiveMembers, h]
  intro depth shallow
  have className := Fields.get_ofMembers "directiveClassName"
    (decodes_string u.className) rfl shallow
  have name := Fields.get_ofMembers "directiveName" (decodes_string u.name) rfl shallow
  have binders := Fields.get_ofMembers "variableBindings"
    (decodes_list fun b _ => VariableBinding.decodes b) rfl shallow
  have computations := Fields.get_ofMembers "computationBindings"
    (decodes_list computation) rfl shallow
  have actions := Fields.get_ofMembers "actionBindings" (decodes_list action) rfl shallow
  have nodes := Fields.get_ofMembers "contentNodes" (decodes_nodes inner) rfl shallow
  have setter : (Fields.ofMembers depth (directiveMembers u content)).get? "contentSetterName"
      Decoder.string = some u.contentSetter := by
    apply Fields.get?_ofMembers_string
    cases h : u.contentSetter <;> simp [directiveMembers, h, List.lookup_cons]
  simp [className, name, binders, computations, actions, nodes, setter]

theorem toJson_directive (u : DirectiveUse) (content : List TemplateNode) :
    (directive u content).toJson =
      .object (("type", .string "directive") :: directiveMembers u content) := rfl

theorem nesting_lt_of_mem {nodes : List TemplateNode} {n : TemplateNode} (mem : n ∈ nodes) :
    n.toJson.nesting < (Value.array (listToJson nodes)).nesting := by
  have le := Value.nesting_le_nestingAll (List.mem_map_of_mem (f := toJson) mem)
  rw [Value.nesting, listToJson_eq]
  omega

def PlansIn (P : Value → Prop) (n : TemplateNode) : Prop :=
  ∀ u ∈ n.uses, ∀ plan ∈ u.plans, P plan

theorem decodes_node (numbered : Bool) {self : Decoder TemplateNode} {n : TemplateNode}
    (keyed : n.PlansIn Value.Keyed)
    (inner : ∀ n' : TemplateNode, n'.PlansIn Value.Keyed → n'.toJson.nesting < n.toJson.nesting →
      Decodes self n'.toJson n') :
    Decodes (nodeDecoder numbered self) n.toJson n := by
  cases n with
  | text value =>
    exact decodes_tagged textDecoder rfl (by simp) (decodes_text value)
  | element tag attributes children =>
    have within : ∀ n ∈ children, Decodes self n.toJson n := by
      intro n mem
      have less := nesting_lt_of_mem mem
      apply inner n fun u used => keyed u (mem_usesAll mem used)
      simp only [toJson, Value.nesting, Value.nestingMembers] at less ⊢
      omega
    exact decodes_tagged (elementDecoder self) rfl (by simp)
      (decodes_element tag attributes within)
  | directive u content =>
    have within : ∀ n ∈ content, Decodes self n.toJson n := by
      intro n mem
      have less := nesting_lt_of_mem mem
      apply inner n fun u' used => keyed u' (List.mem_cons_of_mem _ (mem_usesAll mem used))
      have part : (Value.array (listToJson content)).nesting ≤
          Value.nestingMembers (directiveMembers u content) :=
        Value.nesting_le_of_lookup "contentNodes" rfl
      rw [toJson_directive, Value.nesting, Value.nestingMembers]
      omega
    have untagged : "type" ∉ (directiveMembers u content).map Prod.fst := by
      cases h : u.contentSetter <;> simp [directiveMembers, h]
    exact decodes_tagged (directiveDecoder self) rfl untagged
      (decodes_directive (keyed u (List.mem_cons_self ..)) within)

theorem decodes {n : TemplateNode} (keyed : n.PlansIn Value.Keyed) :
    Decodes decoder n.toJson n := by
  apply decodes_strictly
  apply decodes_node false keyed
  intro n' keyed' _
  exact decodes_recursive (PlansIn Value.Keyed) (fun _ _ => decodes_node true) keyed'

/-! Numbers stand in plans only. -/

theorem integral_bindings (u : DirectiveUse) (plans : ∀ plan ∈ u.plans, plan.Integral) :
    Value.IntegralAll (u.binders.map VariableBinding.toJson) ∧
      Value.IntegralAll (u.computations.map ComputationBinding.toJson) ∧
      Value.IntegralAll (u.actions.map ActionBinding.toJson) := by
  refine ⟨Value.integralAll_iff.mpr ?_, Value.integralAll_iff.mpr ?_, Value.integralAll_iff.mpr ?_⟩
  · intro v mem
    obtain ⟨b, _, rfl⟩ := List.mem_map.mp mem
    simp [VariableBinding.toJson, Value.Integral, Value.IntegralMembers, b.type.toJson_integral]
  · intro v mem
    obtain ⟨b, bound, rfl⟩ := List.mem_map.mp mem
    have plan := plans _ (List.mem_append_left _ (List.mem_map_of_mem bound))
    simp [ComputationBinding.toJson, TypedPlan.toJson, Value.Integral, Value.IntegralMembers, plan,
      b.plan.type.toJson_integral]
  · intro v mem
    obtain ⟨b, bound, rfl⟩ := List.mem_map.mp mem
    have plan := plans _ (List.mem_append_right _ (List.mem_map_of_mem bound))
    simp [ActionBinding.toJson, Value.Integral, Value.IntegralMembers, plan]

theorem listToJson_integral {nodes : List TemplateNode}
    (each : ∀ n ∈ nodes, n.toJson.Integral) : Value.IntegralAll (listToJson nodes) := by
  rw [listToJson_eq, Value.integralAll_iff]
  intro v mem
  obtain ⟨n, isNode, rfl⟩ := List.mem_map.mp mem
  exact each n isNode

theorem toJson_integral (n : TemplateNode) (plans : n.PlansIn Value.Integral) :
    n.toJson.Integral := by
  induction n using TemplateNode.induction with
  | text value => simp [toJson, Value.Integral, Value.IntegralMembers]
  | element tag attributes children ih =>
    have attributes : Value.IntegralMembers
        (attributes.entries.map fun a => (a.1, Value.string a.2)) := by
      rw [Value.integralMembers_iff]
      intro m mem
      obtain ⟨_, _, rfl⟩ := List.mem_map.mp mem
      exact trivial
    have children := listToJson_integral fun n mem =>
      ih n mem fun u used => plans u (mem_usesAll mem used)
    simp [toJson, Value.Integral, Value.IntegralMembers, attributes, children]
  | directive u content ih =>
    obtain ⟨binders, computations, actions⟩ :=
      integral_bindings u (plans u (List.mem_cons_self ..))
    have content := listToJson_integral fun n mem =>
      ih n mem fun u' used => plans u' (List.mem_cons_of_mem _ (mem_usesAll mem used))
    rw [toJson_directive, Value.Integral, Value.integralMembers_iff]
    cases h : u.contentSetter <;>
      simp [directiveMembers, h, Value.Integral, binders, computations, actions, content]

/-- A forest reads back from every layout of its JSON form, with white space behind it, when its
plans are values of whole numbers and it nests no deeper than documents may. -/
theorem forestOfText?_written (l : Layout) {nodes : List TemplateNode}
    (plans : ∀ u ∈ usesAll nodes, ∀ plan ∈ u.plans, plan.Integral ∧ plan.Keyed)
    (shallow : (forestToJson nodes).nesting ≤ depthLimit) (ws : List Char)
    (blank : ∀ c ∈ ws, isSpace c = true) :
    forestOfText? (String.ofList ((forestToJson nodes).written l 0 ++ ws)) = some nodes := by
  have integral : (forestToJson nodes).Integral := by
    apply listToJson_integral
    intro n mem
    exact n.toJson_integral fun u used plan isPlan =>
      (plans u (mem_usesAll mem used) plan isPlan).1
  have each : ∀ n ∈ nodes, Decodes decoder n.toJson n := by
    intro n mem
    exact decodes fun u used plan isPlan => (plans u (mem_usesAll mem used) plan isPlan).2
  rw [forestOfText?, Decoder.run, Document.parse?_written l integral blank]
  exact decodes_nodes each depthLimit shallow

/-- Forests survive being written: they read back from their compact text, from their pretty text
and from what the command prints of them. That no object of a plan has a key twice is what makes it
the value of some document. -/
theorem forestOfText?_forestToJson (nodes : List TemplateNode)
    (plans : ∀ u ∈ usesAll nodes, ∀ plan ∈ u.plans, plan.Integral ∧ plan.Keyed)
    (shallow : (forestToJson nodes).nesting ≤ 127) :
    forestOfText? (forestToJson nodes).compactText = some nodes ∧
      forestOfText? (forestToJson nodes).prettyText = some nodes ∧
      ∀ (files : Files.FileReader) (a : CommandLine.Arguments), a.form = .tree →
        ∃ text, CommandLine.emit files a nodes = .ok text ∧ forestOfText? text = some nodes := by
  have compact := forestOfText?_written .tight plans shallow [] (by simp)
  have pretty := forestOfText?_written .lines plans shallow [] (by simp)
  have printed := forestOfText?_written .lines plans shallow ['\n'] (by simp [isSpace])
  rw [List.append_nil, ← Value.compact_eq] at compact
  rw [List.append_nil, ← Value.pretty_eq] at pretty
  rw [← Value.pretty_eq] at printed
  refine ⟨compact, pretty, ?_⟩
  intro files a form
  refine ⟨(forestToJson nodes).prettyText ++ "\n", by simp [CommandLine.emit, form]; rfl, ?_⟩
  rw [String.ofList_append] at printed
  exact printed

/-- An element around a directive whose plans hold the least and the greatest integer. -/
def extremes : List TemplateNode :=
  [.element "p" ⟨[("id", "\"a\""), ("class", "")], by simp⟩
    [.directive
      ⟨"std.If", "if", [⟨"item", .ofClass "List" [.array (.primitive .int), .null], "x"⟩],
        [⟨"condition", .object [("type", .number (.integer (-2 ^ 63))), ("of", .array [])],
          .unknown⟩],
        [⟨"run", .number (.integer (2 ^ 64 - 1))⟩], some "content"⟩
      [.text "one\ntwo", .directive ⟨"std.Text", "text", [], [], [], none⟩ []]]]

theorem forestOfText?_extremes :
    (∀ u ∈ usesAll extremes, ∀ plan ∈ u.plans, plan.Integral ∧ plan.Keyed) ∧
      (forestToJson extremes).nesting ≤ 127 ∧
      forestOfText? (forestToJson extremes).compactText = some extremes ∧
      forestOfText? (forestToJson extremes).prettyText = some extremes := by
  have plans : ∀ u ∈ usesAll extremes, ∀ plan ∈ u.plans, plan.Integral ∧ plan.Keyed := by
    intro u used plan isPlan
    have all : (usesAll extremes).flatMap DirectiveUse.plans =
        [.object [("type", .number (.integer (-2 ^ 63))), ("of", .array [])],
          .number (.integer (2 ^ 64 - 1))] := rfl
    have mem := List.mem_flatMap.mpr ⟨u, used, isPlan⟩
    simp only [all, List.mem_cons, List.not_mem_nil, or_false] at mem
    rcases mem with rfl | rfl
    · simp [Value.Integral, Value.IntegralMembers, Value.IntegralAll, Value.Keyed,
        Value.KeyedMembers, Value.KeyedAll, IsWord]
    · simp [Value.Integral, Value.Keyed, IsWord]
  have shallow : (forestToJson extremes).nesting ≤ 127 := by decide
  have read := forestOfText?_forestToJson extremes plans shallow
  exact ⟨plans, shallow, read.1, read.2.1⟩

end TemplateNode

end DirectiveTemplates
