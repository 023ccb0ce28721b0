import DirectiveTemplates.CommandLine.Arguments
import DirectiveTemplates.Directive.Config
import DirectiveTemplates.Files.Path

/-!
The settings of a project, and how they and the arguments make a plan: arguments count more than
the project, and the class tables of both apply.
-/
namespace DirectiveTemplates.CommandLine

open Json

structure Project where
  className : Option String := none
  tables : List String := []
  resources : Option String := none
  config : Config := {}
  deriving DecidableEq, Repr

namespace Project

/-- Absent fields set nothing. -/
def decoder : Decoder Project := fun depth d => do
  let fs ← Decoder.fields ["className", "metadata", "resources", "parser"] depth d
  return ⟨← fs.get? "className" Decoder.string,
    ← fs.getD "metadata" (Decoder.list Decoder.string) [],
    ← fs.get? "resources" Decoder.string,
    ← fs.getD "parser" Config.decoder {}⟩

def within (base : String) (p : Project) : Project :=
  { p with
    tables := p.tables.map (Files.join base)
    resources := p.resources.map (Files.join base) }

end Project

structure Plan where
  template : String
  className : String
  tables : List String
  resources : Option String
  config : Config
  deriving DecidableEq, Repr

namespace Plan

def defaultClass : String := "Object"

def of (a : Arguments) (p : Project) : Plan where
  template := a.template
  className := (a.className.or p.className).getD defaultClass
  tables := p.tables ++ a.tables
  resources := a.resources.or p.resources
  config := p.config

end Plan

end DirectiveTemplates.CommandLine
