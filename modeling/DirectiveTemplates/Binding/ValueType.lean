import DirectiveTemplates.Json.Decoder

/-!
The types of template variables and expressions. The compiler hands them on and never looks
inside; only the display form and the JSON form are its own.
-/
namespace DirectiveTemplates

open Json

inductive Primitive where
  | boolean
  | char
  | byte
  | short
  | int
  | long
  | float
  | double
  deriving DecidableEq, Repr

namespace Primitive

def name : Primitive → String
  | boolean => "boolean"
  | char => "char"
  | byte => "byte"
  | short => "short"
  | int => "int"
  | long => "long"
  | float => "float"
  | double => "double"

def all : List Primitive := [boolean, char, byte, short, int, long, float, double]

def decoder (reread : Bool) : Decoder Primitive := fun depth d => do
  let v ← Decoder.variant depth d
  let p ← all.find? (·.name == v.name)
  v.unit reread p

end Primitive

inductive ValueType where
  | primitive (kind : Primitive)
  | ofClass (name : String) (arguments : List ValueType)
  | array (element : ValueType)
  | parameter (name : String)
  | null
  | unknown
  deriving Repr, Inhabited

namespace ValueType

def simple (name : String) : ValueType := .ofClass name []

mutual

def display : ValueType → String
  | .primitive kind => kind.name
  | .ofClass name [] => name
  | .ofClass name (a :: rest) => name ++ "<" ++ a.display ++ displayRest rest
  | .array element => element.display ++ "[]"
  | .parameter name => name
  | .null => "null"
  | .unknown => "?"

/-- The arguments behind the first, and the closing bracket. -/
def displayRest : List ValueType → String
  | [] => ">"
  | a :: rest => ", " ++ a.display ++ displayRest rest

end

mutual

def toJson : ValueType → Value
  | .primitive kind => .object [("primitive", .string kind.name)]
  | .ofClass name [] => .object [("class", .object [("name", .string name)])]
  | .ofClass name (a :: rest) =>
    .object [("class", .object
      [("name", .string name), ("arguments", .array (a.toJson :: listToJson rest))])]
  | .array element => .object [("array", element.toJson)]
  | .parameter name => .object [("variable", .string name)]
  | .null => .string "null"
  | .unknown => .string "unknown"

def listToJson : List ValueType → List Value
  | [] => []
  | a :: rest => a.toJson :: listToJson rest

end

def decoder (reread : Bool) : Decoder ValueType := .recursive fun self depth d => do
  let v ← Decoder.variant depth d
  match v.name with
  | "primitive" => (v.read (Primitive.decoder reread)).map .primitive
  | "class" => v.read fun depth d => do
    let fs ← Decoder.fields ["name", "arguments"] depth d
    let name ← fs.get "name" Decoder.string
    let arguments ← fs.getD "arguments" (Decoder.list self) []
    return .ofClass name arguments
  | "array" => (v.read self).map .array
  | "variable" => (v.read Decoder.string).map .parameter
  | "null" => v.unit reread .null
  | "unknown" => v.unit reread .unknown
  | _ => none

end ValueType

/-- A plan with the type of what it computes. What a plan means is up to the expression language
that made it. -/
structure TypedPlan where
  plan : Value
  type : ValueType
  deriving Repr, Inhabited

namespace TypedPlan

/-- Stands for an expression that could not be compiled. -/
def invalid : TypedPlan := ⟨.null, .unknown⟩

def toJson (p : TypedPlan) : Value := .object [("plan", p.plan), ("valueType", p.type.toJson)]

def decoder (reread : Bool) : Decoder TypedPlan := fun depth d => do
  let fs ← Decoder.fields ["plan", "valueType"] depth d
  return ⟨← fs.get "plan" Decoder.value, ← fs.get "valueType" (ValueType.decoder reread)⟩

end TypedPlan

end DirectiveTemplates
