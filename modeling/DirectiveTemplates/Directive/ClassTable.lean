import DirectiveTemplates.Binding.Expression
import DirectiveTemplates.Directive.Config
import DirectiveTemplates.Directive.Signature

/-!
The classes a compilation knows. A class that implements a directive has its signature.
-/
namespace DirectiveTemplates

open Json

/-- Tells what is known of a class: nothing, or the signature it may have. -/
abbrev ClassSource := String → Option (Option Signature)

structure ClassTable where
  classes : OrderedMap (Option Signature)
  deriving Repr, Inhabited

namespace ClassTable

def empty : ClassTable := ⟨.empty⟩

def size (t : ClassTable) : Nat := t.classes.size

def isEmpty (t : ClassTable) : Bool := t.classes.isEmpty

def describe (t : ClassTable) (name : String) : Option (Option Signature) := t.classes.get? name

instance : Coe ClassTable ClassSource := ⟨describe⟩

def finder (t : ClassTable) : ClassFinder := fun name => (t.describe name).map fun _ => name

/-- Makes a class known that need not be a directive; what is known of it already stays. -/
def addClass (t : ClassTable) (name : String) : ClassTable :=
  if (t.describe name).isSome then t else ⟨t.classes.insert name none⟩

/-- Makes the class of a directive known; its signature replaces an earlier one. -/
def addDirective (t : ClassTable) (s : Signature) : ClassTable :=
  ⟨t.classes.insert s.owner (some s)⟩

/-- The entries of `other` replace those for the same classes. -/
def merge (t other : ClassTable) : ClassTable := ⟨t.classes.insertAll other.classes.entries⟩

/-- Every signature names the class it is an entry for. -/
def withOwners (t : ClassTable) : ClassTable :=
  ⟨t.classes.mapWithKey fun name entry => entry.map fun s => { s with owner := name }⟩

def entryToJson (entry : Option Signature) : Value :=
  .object (entry.toList.map fun s => ("directive", s.toJson))

def toJson (t : ClassTable) : Value :=
  .object [("classes", .object (t.classes.entries.map fun e => (e.1, entryToJson e.2)))]

def entryDecoder : Decoder (Option Signature) := fun depth d => do
  let fs ← Decoder.fields ["directive"] depth d
  fs.get? "directive" Signature.decoder

def decoder : Decoder ClassTable := fun depth d => do
  let fs ← Decoder.fields ["classes"] depth d
  return withOwners ⟨← fs.getD "classes" (Decoder.map entryDecoder) .empty⟩

def ofText? (text : String) : Option ClassTable := decoder.run text

def forEachClass : String := standardPackage ++ ".ForEachComponent"

def conditionalClass : String := standardPackage ++ ".IfComponent"

def textClass : String := standardPackage ++ ".TextComponent"

def forEachSignature : Signature where
  name := "foreach"
  owner := forEachClass
  attributes := Signature.attributesOf
    [⟨"var", .binder, true, "set_element_variable", .parameter "T"⟩,
      ⟨"in", .computation, true, "set_collection", .ofClass "Iterable" [.parameter "T"]⟩,
      ⟨"index", .binder, false, "set_index_variable", .primitive .int⟩]
  contentSetter := some "set_body"
  ignoresContent := false

def conditionalSignature : Signature where
  name := "if"
  owner := conditionalClass
  attributes := Signature.attributesOf
    [⟨"condition", .computation, true, "set_condition", .primitive .boolean⟩]
  contentSetter := some "set_body"
  ignoresContent := false

def textSignature : Signature where
  name := "text"
  owner := textClass
  attributes := Signature.attributesOf
    [⟨"value", .computation, true, "set_value", .simple "Object"⟩]
  contentSetter := none
  ignoresContent := false

def standard : ClassTable :=
  ((empty.addDirective forEachSignature).addDirective conditionalSignature).addDirective
    textSignature

end ClassTable

end DirectiveTemplates
