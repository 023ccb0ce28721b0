import DirectiveTemplates.Text.QualifiedName

/-!
The classes and packages a template has imported, and what a class name means under them.
-/
namespace DirectiveTemplates

abbrev ClassFinder := String → Option String

structure Imports where
  /-- Imported classes under their last part, the latest first. -/
  classes : List (String × String)
  /-- Imported packages in the order of their first import. -/
  packages : List String
  deriving DecidableEq, Repr, Inhabited

namespace Imports

def none : Imports := ⟨[], []⟩

def importClass (i : Imports) (name : String) : Imports :=
  { i with classes := (QualifiedName.lastPart name, name) :: i.classes }

/-- Imports the classes of a package; a star part at the end of its name is left out. -/
def importPackage (i : Imports) (name : String) : Imports :=
  let package := (QualifiedName.starPackage? name).getD name
  if i.packages.contains package then i else { i with packages := i.packages ++ [package] }

/-- A name with a dot is a full name. Any other name is looked for among the imported classes,
then in the imported packages in order, and then as it stands. -/
def find (i : Imports) (known : ClassFinder) (name : String) : Option String :=
  if QualifiedName.hasDot name then known name
  else
    match i.classes.lookup name with
    | some full => some full
    | Option.none =>
      match i.packages.findSome? fun package => known (package ++ "." ++ name) with
      | some full => some full
      | Option.none => known name

end Imports

end DirectiveTemplates
