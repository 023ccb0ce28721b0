import DirectiveTemplates.Binding.ValueType

/-!
The variables that are declared at a place of a template. An inner declaration of a name hides
the outer ones until it is taken back.
-/
namespace DirectiveTemplates

/-- The declarations in force, innermost first. -/
structure Scope where
  declarations : List (String × ValueType)
  deriving Repr, Inhabited

namespace Scope

def empty : Scope := ⟨[]⟩

def isEmpty (s : Scope) : Bool := s.declarations.isEmpty

def declare (s : Scope) (name : String) (type : ValueType) : Scope :=
  ⟨(name, type) :: s.declarations⟩

def type? (s : Scope) (name : String) : Option ValueType := s.declarations.lookup name

def depth (s : Scope) (name : String) : Nat := s.declarations.countP (·.1 == name)

/-- Takes back the innermost declaration of a name. -/
def retract (s : Scope) (name : String) : Scope := ⟨s.declarations.eraseP (·.1 == name)⟩

theorem retract_declare (s : Scope) (name : String) (type : ValueType) :
    (s.declare name type).retract name = s := by
  simp [declare, retract]

theorem type?_declare (s : Scope) (name other : String) (type : ValueType) :
    (s.declare name type).type? other = if other = name then some type else s.type? other := by
  by_cases h : other = name
  · simp [declare, type?, h]
  · have h' : (other == name) = false := by simpa using h
    simp [declare, type?, List.lookup_cons, h, h']

end Scope

end DirectiveTemplates
