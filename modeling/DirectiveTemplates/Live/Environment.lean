import DirectiveTemplates.Binding.Expression

/-!
The variables of a running template. Their values are kept in cells, so that an environment that
was handed out before sees a value that is set later.
-/
namespace DirectiveTemplates.Live

open Json

abbrev CellId := Nat

/-- The values of the variables, in the order of their creation. -/
structure Cells where
  values : Array Value
  deriving Repr

namespace Cells

def empty : Cells := ⟨#[]⟩

def create (c : Cells) (v : Value) : CellId × Cells := (c.values.size, ⟨c.values.push v⟩)

def get (c : Cells) (i : CellId) : Value := (c.values[i]?).getD .null

def set (c : Cells) (i : CellId) (v : Value) : Cells := ⟨c.values.modify i fun _ => v⟩

end Cells

/-- Names and their cells, innermost first. -/
structure Environment where
  bindings : List (String × CellId)
  deriving DecidableEq, Repr

namespace Environment

def empty : Environment := ⟨[]⟩

/-- Binds a name; an inner binding hides the outer ones. -/
def bind (e : Environment) (name : String) (cell : CellId) : Environment :=
  ⟨(name, cell) :: e.bindings⟩

def cell? (e : Environment) (name : String) : Option CellId := e.bindings.lookup name

def lookup (e : Environment) (cells : Cells) (name : String) : Option Value :=
  (e.cell? name).map cells.get

end Environment

/-- The items of a value that is used as a collection: those of an array, the values of an object,
none for null, and any other value itself. -/
def itemsOf : Value → List Value
  | .array items => items
  | .null => []
  | .object ms => ms.map Prod.snd
  | v => [v]

def holds : Value → Bool
  | .null => false
  | .bool b => b
  | .number n => !n.isZero
  | .string s => !s.isEmpty
  | .array items => !items.isEmpty
  | .object _ => true

def shownText : Value → String
  | .string s => s
  | .null => ""
  | v => v.compactText

end DirectiveTemplates.Live
