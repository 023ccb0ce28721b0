import DirectiveTemplates.Files.Path

/-!
Places below, above and beside a working directory, each with one location however a path spells
it.
-/
namespace DirectiveTemplates.Files

/-- The parts of the way from the working directory to a place. Steps up come first, as `..`; a way
from the root of all files starts with `/`. -/
abbrev Location := List String

namespace Location

def maxPartSize : Nat := 255

def maxPathSize : Nat := 4095

def root : Location := ["/"]

def start (path : String) : Location :=
  if path.startsWith "/" then root else []

/-- Whether the directory is there by itself: the working directory, those above it, and the
root. -/
def isGiven (l : Location) : Bool := l.all (· == "..") || l == root

/-- The directory above. Nothing is above the root. -/
def above (l : Location) : Location :=
  if l = root then root
  else if l.all (· == "..") then l ++ [".."]
  else l.dropLast

/-- The location one part further. No part and a dot stay, two dots lead up. -/
def enter (l : Location) (part : String) : Location :=
  if part = "" ∨ part = "." then l
  else if part = ".." then l.above
  else l ++ [part]

def ofPath (path : String) : Location := (parts path).foldl enter (start path)

end Location

end DirectiveTemplates.Files
