import DirectiveTemplates.Json.Decoder
import DirectiveTemplates.Text.Chars

/-!
How templates are compiled: the package that every template may use, the place of the package
descriptors, and what happens when one of them cannot be read.
-/
namespace DirectiveTemplates

open Json

/-- What a failure to read a package descriptor means. -/
inductive ReadPolicy where
  /-- It ends the compilation. -/
  | fatal
  /-- It is a diagnostic, and the entries read so far count. -/
  | report
  deriving DecidableEq, Repr

namespace ReadPolicy

def name : ReadPolicy → String
  | fatal => "fatal"
  | report => "report"

def decoder : Decoder ReadPolicy := fun depth d => do
  let v ← Decoder.variant depth d
  let policy ← [fatal, report].find? (·.name == v.name)
  v.unit false policy

end ReadPolicy

def standardPackage : String := "flavour.directives"

structure Config where
  defaultPrefix : String := "std"
  defaultPackage : String := standardPackage
  descriptorRoot : String := "META-INF/flavour/directive-packages"
  readPolicy : ReadPolicy := .fatal
  deriving DecidableEq, Repr

namespace Config

def trimRoot (root : String) : String :=
  String.ofList (root.toList.reverse.dropWhile (· == '/')).reverse

def descriptorResource (c : Config) (package : String) : String :=
  trimRoot c.descriptorRoot ++ "/" ++ package

def toJson (c : Config) : Value :=
  .object [("defaultPrefix", .string c.defaultPrefix), ("defaultPackage", .string c.defaultPackage),
    ("descriptorRoot", .string c.descriptorRoot), ("resourceErrors", .string c.readPolicy.name)]

/-- Absent fields have their default values. -/
def decoder : Decoder Config := fun depth d => do
  let standard : Config := {}
  let fs ← Decoder.fields
    ["defaultPrefix", "defaultPackage", "descriptorRoot", "resourceErrors"] depth d
  return ⟨← fs.getD "defaultPrefix" Decoder.string standard.defaultPrefix,
    ← fs.getD "defaultPackage" Decoder.string standard.defaultPackage,
    ← fs.getD "descriptorRoot" Decoder.string standard.descriptorRoot,
    ← fs.getD "resourceErrors" ReadPolicy.decoder standard.readPolicy⟩

end Config

end DirectiveTemplates
