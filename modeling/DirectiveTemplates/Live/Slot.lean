import DirectiveTemplates.Markup.Tag
import DirectiveTemplates.OrderedMap

/-!
The output of a rendering: a tree of slots that is changed in place and written as markup. A slot
has at most one parent, and it stands among the children of exactly that parent.
-/
namespace DirectiveTemplates.Live

inductive SlotContent where
  /-- Groups its children and writes nothing itself. -/
  | container
  | element (tag : String) (attributes : OrderedMap String)
  | markup (value : String)
  /-- Computed text, escaped when it is written. -/
  | text (value : String)
  deriving DecidableEq, Repr

/-- Slots are known by the order of their creation. -/
abbrev SlotId := Nat

structure Slot where
  content : SlotContent
  parent : Option SlotId
  children : List SlotId
  deriving DecidableEq, Repr

structure SlotTree where
  slots : Array Slot
  deriving DecidableEq, Repr

namespace SlotTree

def empty : SlotTree := ⟨#[]⟩

def contains (t : SlotTree) (i : SlotId) : Bool := i < t.slots.size

def slot? (t : SlotTree) (i : SlotId) : Option Slot := t.slots[i]?

def parent? (t : SlotTree) (i : SlotId) : Option SlotId := (t.slot? i).bind Slot.parent

def children (t : SlotTree) (i : SlotId) : List SlotId := ((t.slot? i).map Slot.children).getD []

def create (t : SlotTree) (content : SlotContent) : SlotId × SlotTree :=
  (t.slots.size, ⟨t.slots.push ⟨content, none, []⟩⟩)

def update (t : SlotTree) (i : SlotId) (f : Slot → Slot) : SlotTree := ⟨t.slots.modify i f⟩

def delete (t : SlotTree) (child : SlotId) : SlotTree :=
  match t.parent? child with
  | none => t
  | some p =>
    (t.update child fun s => { s with parent := none }).update p fun s =>
      { s with children := s.children.filter (· != child) }

/-- Makes a slot the last child of another, taking it out of its parent before. A slot is never
put into itself. -/
def append (t : SlotTree) (p child : SlotId) : SlotTree :=
  if p = child ∨ !t.contains p ∨ !t.contains child then t
  else
    ((t.delete child).update child fun s => { s with parent := some p }).update p fun s =>
      { s with children := s.children ++ [child] }

/-- Replaces the value of a text slot; other slots stay as they are. -/
def setText (t : SlotTree) (i : SlotId) (value : String) : SlotTree :=
  t.update i fun s =>
    match s.content with
    | .text _ => { s with content := .text value }
    | _ => s

end SlotTree

/-- Text that stands for itself in markup. -/
def escapeText (c : Char) : List Char :=
  match c with
  | '&' => ['&', 'a', 'm', 'p', ';']
  | '<' => ['&', 'l', 't', ';']
  | '>' => ['&', 'g', 't', ';']
  | c => [c]

/-- Text that stands for itself between double quotes. -/
def escapeQuoted (c : Char) : List Char :=
  if c = '"' then ['&', 'q', 'u', 'o', 't', ';'] else [c]

def writeAttribute (name value : String) : List Char :=
  ' ' :: name.toList ++ '=' :: '"' :: value.toList.flatMap escapeQuoted ++ ['"']

def writeStartTag (tag : String) (attributes : OrderedMap String) : List Char :=
  '<' :: tag.toList ++ attributes.entries.flatMap (fun a => writeAttribute a.1 a.2) ++ ['>']

def writeEndTag (tag : String) : List Char := '<' :: '/' :: tag.toList ++ ['>']

/-- An element around what its children write. A void element has neither children nor end. -/
def writeElement (tag : String) (attributes : OrderedMap String) (inner : List Char) : List Char :=
  if Markup.isVoid tag then writeStartTag tag attributes
  else writeStartTag tag attributes ++ inner ++ writeEndTag tag

namespace SlotTree

/-- What a slot writes, when its descendants go at most `depth` levels down. -/
def htmlWithin (t : SlotTree) : Nat → SlotId → Option (List Char)
  | 0, _ => none
  | depth + 1, i =>
    match t.slot? i with
    | none => some []
    | some s =>
      let inner := (s.children.mapM (t.htmlWithin depth)).map List.flatten
      match s.content with
      | .container => inner
      | .element tag attributes =>
        if Markup.isVoid tag then some (writeStartTag tag attributes)
        else inner.map (writeElement tag attributes)
      | .markup value => some value.toList
      | .text value => some (value.toList.flatMap escapeText)

/-- The markup of a slot and its descendants. Without cycles no way down is longer than the number
of slots. -/
def html (t : SlotTree) (i : SlotId) : String :=
  String.ofList ((t.htmlWithin (t.slots.size + 1) i).getD [])

end SlotTree

end DirectiveTemplates.Live
