import DirectiveTemplates.Directive.Config
import DirectiveTemplates.Text.Utf8

/-!
Where package descriptors come from. Opening a resource and reading it can fail separately.
-/
namespace DirectiveTemplates

inductive Opened where
  | absent
  /-- It exists and cannot be opened. -/
  | refused (message : String)
  /-- Its bytes, up to the failure that ends the reading, if one does. -/
  | stream (bytes : List UInt8) (failure : Option String)
  deriving DecidableEq, Repr

abbrev Resources := String → Opened

namespace Resources

def standardDescriptor : String :=
  "# Standard directives, registered under the \"std\" prefix\n" ++
    "ForEachComponent\nIfComponent\nTextComponent\n"

/-- Serves the standard descriptor below a root, and leaves every other name to `inner`. -/
def withStandard (root : String) (inner : Resources) : Resources := fun name =>
  if name = Config.trimRoot root ++ "/" ++ standardPackage then
    .stream (Text.encodeUtf8 standardDescriptor) none
  else inner name

end Resources

def splitBytes (sep : UInt8) : List UInt8 → List (List UInt8)
  | [] => [[]]
  | b :: bs =>
    if b = sep then [] :: splitBytes sep bs
    else match splitBytes sep bs with
      | [] => [[b]]
      | part :: parts => (b :: part) :: parts

/-- The lines of a descriptor. What is behind the last line feed is a line only when the reading
came to the end. -/
def descriptorLines (bytes : List UInt8) (failure : Option String) : List (List UInt8) :=
  let parts := splitBytes 10 bytes
  if failure.isSome then parts.dropLast else parts

/-- A line without the white space around it; blank lines and comments are left out. -/
def entryOfLine (line : List UInt8) : Option String :=
  match Text.trim (Text.decodeUtf8 line).toList with
  | [] => none
  | '#' :: _ => none
  | entry => some (String.ofList entry)

def descriptorEntries (bytes : List UInt8) (failure : Option String) : List String :=
  (descriptorLines bytes failure).filterMap entryOfLine

end DirectiveTemplates
