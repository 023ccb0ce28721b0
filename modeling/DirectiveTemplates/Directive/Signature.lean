import DirectiveTemplates.Binding.ValueType

/-!
What a directive takes: its attributes, how each of them is bound, and where its content goes.
-/
namespace DirectiveTemplates

open Json

inductive AttributeRole where
  /-- It names a variable that the directive sets. -/
  | binder
  /-- It is an expression, evaluated at every render. -/
  | computation
  /-- It is an expression, carried out on demand. -/
  | action
  deriving DecidableEq, Repr, Inhabited

namespace AttributeRole

def name : AttributeRole → String
  | binder => "variable"
  | computation => "computation"
  | action => "action"

def decoder : Decoder AttributeRole := fun depth d => do
  let v ← Decoder.variant depth d
  let role ← [binder, computation, action].find? (·.name == v.name)
  v.unit false role

end AttributeRole

structure AttributeSpec where
  name : String
  role : AttributeRole
  required : Bool
  setter : String
  type : ValueType
  deriving Repr, Inhabited

namespace AttributeSpec

def toJson (a : AttributeSpec) : Value :=
  .object [("name", .string a.name), ("kind", .string a.role.name), ("required", .bool a.required),
    ("setterName", .string a.setter), ("valueType", a.type.toJson)]

def decoder : Decoder AttributeSpec := fun depth d => do
  let fs ← Decoder.fields ["name", "kind", "required", "setterName", "valueType"] depth d
  return ⟨← fs.get "name" Decoder.string, ← fs.get "kind" AttributeRole.decoder,
    ← fs.getD "required" Decoder.bool true, ← fs.get "setterName" Decoder.string,
    ← fs.getD "valueType" (ValueType.decoder false) .unknown⟩

end AttributeSpec

structure Signature where
  name : String
  owner : String
  attributes : OrderedMap AttributeSpec
  contentSetter : Option String
  ignoresContent : Bool
  deriving Repr, Inhabited

namespace Signature

def withRole (s : Signature) (p : AttributeRole → Bool) : List AttributeSpec :=
  s.attributes.values.filter (p ·.role)

def toJson (s : Signature) : Value :=
  let setter := s.contentSetter.toList.map fun name => ("contentSetterName", Value.string name)
  .object ([("name", .string s.name), ("owningClassName", .string s.owner),
    ("attributes", .array (s.attributes.values.map AttributeSpec.toJson))] ++ setter ++
    [("ignoreContent", .bool s.ignoresContent)])

/-- Attributes by their names; of two with one name the first place and the last value count. -/
def attributesOf (as : List AttributeSpec) : OrderedMap AttributeSpec :=
  .ofList (as.map fun a => (a.name, a))

def decoder : Decoder Signature := fun depth d => do
  let fs ← Decoder.fields
    ["name", "owningClassName", "attributes", "contentSetterName", "ignoreContent"] depth d
  let attributes ← fs.getD "attributes" (Decoder.list AttributeSpec.decoder) []
  return ⟨← fs.get "name" Decoder.string, ← fs.getD "owningClassName" Decoder.string "",
    attributesOf attributes, ← fs.get? "contentSetterName" Decoder.string,
    ← fs.getD "ignoreContent" Decoder.bool false⟩

end Signature

end DirectiveTemplates
