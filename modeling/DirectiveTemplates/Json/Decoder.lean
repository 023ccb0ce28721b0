import DirectiveTemplates.Json.Document

/-!
Reading typed values out of documents. A decoder is told how deep the document may still nest.
A record is written as an object, where fields it does not know are passed over, or as an array
of its fields in order; a variant is written as its name, or as an object of one member.
-/
namespace DirectiveTemplates.Json

/-- A way to read a value out of a document that nests at most so deep. -/
abbrev Decoder (α : Type) := Nat → Document → Option α

namespace Decoder

def depthLimit : Nat := 127

def string : Decoder String
  | _, .string s => s
  | _, _ => none

def bool : Decoder Bool
  | _, .bool b => some b
  | _, _ => none

/-- A value that may be absent, written as null. -/
def nullable (item : Decoder α) : Decoder (Option α)
  | _, .null => some none
  | depth, d => (item depth d).map some

def list (item : Decoder α) : Decoder (List α)
  | depth + 1, .array xs => xs.mapM (item depth)
  | _, _ => none

/-- The members of an object, with the keys that are text. -/
def members (ms : List (Option String × Document)) : Option (List (String × Document)) :=
  ms.mapM fun m => m.1.map fun key => (key, m.2)

/-- An object as a map; of equal keys the first place and the last value count. -/
def map (item : Decoder α) : Decoder (OrderedMap α)
  | depth + 1, .object ms => do
    let es ← (← members ms).mapM fun m => (item depth m.2).map fun x => (m.1, x)
    return OrderedMap.ofList es
  | _, _ => none

def value : Decoder Value
  | _, .null => some .null
  | _, .bool b => some (.bool b)
  | _, .number n => n.map .number
  | _, .string s => s.map .string
  | depth + 1, .array xs => (xs.mapM (value depth)).map .array
  | depth + 1, .object ms => do
    let es ← (← members ms).mapM fun m => (value depth m.2).map fun x => (m.1, x)
    return .object (Entries.collect es)
  | 0, .array _ => none
  | 0, .object _ => none

def repeated (step : Decoder α → Decoder α) : Nat → Decoder α
  | 0 => fun _ _ => none
  | n + 1 => step (repeated step n)

/-- A decoder that uses itself for parts of what it reads. Every part is nested less deep, so the
depth bounds the recursion. -/
def recursive (step : Decoder α → Decoder α) : Decoder α :=
  fun depth d => repeated step (depth + 1) depth d

structure Fields where
  depth : Nat
  entries : List (String × Document)

/-- The fields of a record with these names. A repeated field is refused, and so are more array
items than fields. -/
def fields (names : List String) : Decoder Fields
  | depth + 1, .array xs => if xs.length ≤ names.length then some ⟨depth, names.zip xs⟩ else none
  | depth + 1, .object ms => do
    let known := (← members ms).filter fun m => names.contains m.1
    if (known.map Prod.fst).Nodup then some ⟨depth, known⟩ else none
  | _, _ => none

namespace Fields

/-- A field that has to be there. -/
def get (fs : Fields) (name : String) (item : Decoder α) : Option α :=
  (fs.entries.lookup name).bind (item fs.depth)

/-- A field that has a value when it is absent. -/
def getD (fs : Fields) (name : String) (item : Decoder α) (absent : α) : Option α :=
  match fs.entries.lookup name with
  | some d => item fs.depth d
  | none => some absent

/-- A field that may be absent or null. -/
def get? (fs : Fields) (name : String) (item : Decoder α) : Option (Option α) :=
  fs.getD name (nullable item) none

end Fields

/-- The name of a variant, what it carries and how deep that may nest. -/
structure Variant where
  name : String
  depth : Nat
  payload : Option Document

def variant : Decoder Variant
  | depth, .string (some name) => some ⟨name, depth, none⟩
  | depth + 1, .object [(some name, d)] => some ⟨name, depth, some d⟩
  | _, _ => none

namespace Variant

def read (v : Variant) (item : Decoder α) : Option α := v.payload.bind (item v.depth)

/-- A variant without payload; its payload may be written as null, and in a document that was
read before as an empty object too. -/
def unit (v : Variant) (reread : Bool) (x : α) : Option α :=
  match v.payload with
  | none | some .null => some x
  | some (.object []) => if reread then some x else none
  | some _ => none

end Variant

/-- Every literal of the document stands for something and it nests at most so deep. -/
def isStrict : Nat → Document → Bool
  | _, .null => true
  | _, .bool _ => true
  | _, .number n => n.isSome
  | _, .string s => s.isSome
  | depth + 1, .array xs => xs.all (isStrict depth)
  | depth + 1, .object ms => ms.all fun m => m.1.isSome && isStrict depth m.2
  | 0, .array _ => false
  | 0, .object _ => false

/-- Reads all of the document first, and refuses what nothing of it may be passed over for. -/
def strictly (item : Decoder α) : Decoder α :=
  fun depth d => if isStrict depth d then item depth d else none

def run (item : Decoder α) (text : String) : Option α :=
  (Document.parse? text).bind (item depthLimit)

end Decoder

end DirectiveTemplates.Json
