import DirectiveTemplates.Binding.ValueType

/-!
The bound tree that a template is compiled to: literal markup, and directives whose attributes
are bound to variables and plans. It can be written as JSON and read back.
-/
namespace DirectiveTemplates

open Json

structure VariableBinding where
  setter : String
  type : ValueType
  name : String
  deriving Repr, Inhabited

structure ComputationBinding where
  setter : String
  plan : TypedPlan
  deriving Repr, Inhabited

structure ActionBinding where
  setter : String
  plan : Value
  deriving Repr, Inhabited

structure DirectiveUse where
  className : String
  name : String
  binders : List VariableBinding
  computations : List ComputationBinding
  actions : List ActionBinding
  /-- Present when the directive takes its content. -/
  contentSetter : Option String
  deriving Repr, Inhabited

namespace DirectiveUse

def variableOf? (u : DirectiveUse) (setter : String) : Option VariableBinding :=
  u.binders.find? (·.setter == setter)

def computationOf? (u : DirectiveUse) (setter : String) : Option ComputationBinding :=
  u.computations.find? (·.setter == setter)

end DirectiveUse

inductive TemplateNode where
  | element (tag : String) (attributes : OrderedMap String) (children : List TemplateNode)
  | text (value : String)
  | directive (use : DirectiveUse) (content : List TemplateNode)
  deriving Repr

instance : Inhabited TemplateNode := ⟨.text ""⟩

namespace VariableBinding

def toJson (b : VariableBinding) : Value :=
  .object [("setterName", .string b.setter), ("valueType", b.type.toJson), ("name", .string b.name)]

def decoder : Decoder VariableBinding := fun depth d => do
  let fs ← Decoder.fields ["setterName", "valueType", "name"] depth d
  return ⟨← fs.get "setterName" Decoder.string, ← fs.get "valueType" (ValueType.decoder true),
    ← fs.get "name" Decoder.string⟩

end VariableBinding

namespace ComputationBinding

def toJson (b : ComputationBinding) : Value :=
  .object [("setterName", .string b.setter), ("plan", b.plan.toJson)]

def decoder : Decoder ComputationBinding := fun depth d => do
  let fs ← Decoder.fields ["setterName", "plan"] depth d
  return ⟨← fs.get "setterName" Decoder.string, ← fs.get "plan" (TypedPlan.decoder true)⟩

end ComputationBinding

namespace ActionBinding

def toJson (b : ActionBinding) : Value :=
  .object [("setterName", .string b.setter), ("plan", b.plan)]

def decoder : Decoder ActionBinding := fun depth d => do
  let fs ← Decoder.fields ["setterName", "plan"] depth d
  return ⟨← fs.get "setterName" Decoder.string, ← fs.get "plan" Decoder.value⟩

end ActionBinding

namespace TemplateNode

mutual

def toJson : TemplateNode → Value
  | .element tag attributes children =>
    .object [("type", .string "element"), ("tagName", .string tag),
      ("attributes", .object (attributes.entries.map fun a => (a.1, .string a.2))),
      ("childNodes", .array (listToJson children))]
  | .text value => .object [("type", .string "text"), ("value", .string value)]
  | .directive u content =>
    .object ([("type", .string "directive"), ("directiveClassName", .string u.className),
      ("directiveName", .string u.name),
      ("variableBindings", .array (u.binders.map VariableBinding.toJson)),
      ("computationBindings", .array (u.computations.map ComputationBinding.toJson)),
      ("actionBindings", .array (u.actions.map ActionBinding.toJson)),
      ("contentNodes", .array (listToJson content))] ++
      u.contentSetter.toList.map fun setter => ("contentSetterName", .string setter))

def listToJson : List TemplateNode → List Value
  | [] => []
  | n :: ns => n.toJson :: listToJson ns

end

def forestToJson (nodes : List TemplateNode) : Value := .array (listToJson nodes)

def elementDecoder (self : Decoder TemplateNode) : Decoder TemplateNode := fun depth d => do
  let fs ← Decoder.fields ["tagName", "attributes", "childNodes"] depth d
  return .element (← fs.get "tagName" Decoder.string)
    (← fs.get "attributes" (Decoder.map Decoder.string)) (← fs.get "childNodes" (Decoder.list self))

def textDecoder : Decoder TemplateNode := fun depth d => do
  let fs ← Decoder.fields ["value"] depth d
  return .text (← fs.get "value" Decoder.string)

def directiveDecoder (self : Decoder TemplateNode) : Decoder TemplateNode := fun depth d => do
  let fs ← Decoder.fields
    ["directiveClassName", "directiveName", "variableBindings", "computationBindings",
      "actionBindings", "contentNodes", "contentSetterName"] depth d
  let u : DirectiveUse :=
    ⟨← fs.get "directiveClassName" Decoder.string, ← fs.get "directiveName" Decoder.string,
      ← fs.get "variableBindings" (Decoder.list VariableBinding.decoder),
      ← fs.get "computationBindings" (Decoder.list ComputationBinding.decoder),
      ← fs.get "actionBindings" (Decoder.list ActionBinding.decoder),
      ← fs.get? "contentSetterName" Decoder.string⟩
  return .directive u (← fs.get "contentNodes" (Decoder.list self))

/-- The decoder that a node's tag selects. Nodes inside others may number their tags. -/
def decoderOfTag (inner : Bool) (self : Decoder TemplateNode) (tag : Document) :
    Option (Decoder TemplateNode) :=
  let decoders := [("element", elementDecoder self), ("text", textDecoder),
    ("directive", directiveDecoder self)]
  match tag with
  | .string (some name) => decoders.lookup name
  | .number (some (.integer n)) =>
    if inner ∧ 0 ≤ n then (decoders[n.toNat]?).map Prod.snd else none
  | _ => none

/-- A node is a record with its tag among the members, or first in the array. -/
def nodeDecoder (inner : Bool) (self : Decoder TemplateNode) : Decoder TemplateNode
  | depth, .object ms =>
    match ms.filter (·.1 == some "type") with
    | [(_, tag)] => do
      let item ← decoderOfTag inner self tag
      item depth (.object (ms.filter (·.1 != some "type")))
    | _ => none
  | depth, .array (tag :: rest) => do
    let item ← decoderOfTag inner self tag
    item depth (.array rest)
  | _, _ => none

/-- A node is read as a whole before it is looked into, so nothing of it is passed over. -/
def decoder : Decoder TemplateNode :=
  Decoder.strictly (nodeDecoder false (Decoder.recursive (nodeDecoder true)))

def forestOfText? (text : String) : Option (List TemplateNode) := (Decoder.list decoder).run text

end TemplateNode

end DirectiveTemplates
