import DirectiveTemplates.Proofs.Live.Shape

/-!
What a slot writes, piece by piece: the tags of elements, literal markup and computed text. The
pieces do not say what the computed texts are, so they are the same for all of them.
-/
namespace DirectiveTemplates.Live

inductive Piece where
  /-- A tag of an element, or a whole raw text element. -/
  | tag (markup : List Char)
  | literal (value : List Char)
  | computed (slot : SlotId)

namespace Piece

def write (texts : SlotId → String) : Piece → List Char
  | tag markup => markup
  | literal value => value
  | computed i => (texts i).toList.flatMap escapeText

def writeAll (texts : SlotId → String) (ps : List Piece) : List Char := ps.flatMap (write texts)

def isFixed : Piece → Bool
  | computed _ => false
  | _ => true

/-- The pieces of an element. Raw text is one piece with its tags, for the end tag is looked for
from the start tag on. -/
def element (name : String) (attributes : OrderedMap String) (inner : List Piece) : List Piece :=
  if Markup.isVoid name then [tag (writeStartTag name attributes)]
  else if Markup.isRawText name && inner.all isFixed then
    [tag (writeElement name attributes (writeAll (fun _ => "") inner))]
  else tag (writeStartTag name attributes) :: inner ++ [tag (writeEndTag name)]

theorem writeAll_append (texts : SlotId → String) (ps rest : List Piece) :
    writeAll texts (ps ++ rest) = writeAll texts ps ++ writeAll texts rest :=
  List.flatMap_append

theorem writeAll_of_isFixed {ps : List Piece} (fixed : ps.all isFixed = true)
    (texts texts' : SlotId → String) : writeAll texts ps = writeAll texts' ps := by
  have each (p : Piece) (mem : p ∈ ps) : p.write texts = p.write texts' := by
    cases p with
    | tag markup | literal value => rfl
    | computed i => exact absurd (List.all_eq_true.mp fixed _ mem) (by simp [isFixed])
  rw [writeAll, List.flatMap_def, List.map_congr_left each, writeAll, List.flatMap_def]

theorem writeAll_element (texts : SlotId → String) (name : String)
    (attributes : OrderedMap String) (inner : List Piece) :
    writeAll texts (element name attributes inner) =
      writeElement name attributes (writeAll texts inner) := by
  unfold element
  split
  · rename_i void
    simp [writeAll, write, writeElement, void]
  · rename_i content
    split
    · rename_i raw
      have fixed : inner.all isFixed = true := (Bool.and_eq_true_iff.mp raw).2
      rw [writeAll_of_isFixed fixed texts fun _ => ""]
      simp [writeAll, write]
    · simp [writeAll, write, writeElement, content]

end Piece

namespace SlotTree

def assign (t : SlotTree) (texts : SlotId → String) : SlotTree :=
  ⟨t.slots.mapIdx fun i s =>
    match s.content with
    | .text _ => { s with content := .text (texts i) }
    | _ => s⟩

def piecesWithin (t : SlotTree) : Nat → SlotId → Option (List Piece)
  | 0, _ => none
  | depth + 1, i =>
    match t.slot? i with
    | none => some []
    | some s =>
      let inner := (s.children.mapM (t.piecesWithin depth)).map List.flatten
      match s.content with
      | .container => inner
      | .element tag attributes =>
        if Markup.isVoid tag then some (Piece.element tag attributes [])
        else inner.map (Piece.element tag attributes)
      | .markup value => some [.literal value.toList]
      | .text _ => some [.computed i]

def pieces (t : SlotTree) (i : SlotId) : List Piece :=
  (t.piecesWithin (t.slots.size + 1) i).getD []

variable (t : SlotTree) (texts : SlotId → String)

theorem slot?_assign (i : SlotId) : (t.assign texts).slot? i = (t.slot? i).map fun s =>
    match s.content with
    | .text _ => { s with content := .text (texts i) }
    | _ => s := by
  simp [assign, slot?]

theorem flatten_mapM_cons {α : Type} (f : SlotId → Option (List α)) (i : SlotId)
    (is : List SlotId) : ((i :: is).mapM f).map List.flatten =
      (f i).bind fun first => ((is.mapM f).map List.flatten).map (first ++ ·) := by
  rw [List.mapM_cons]
  cases f i with
  | none => rfl
  | some first => cases is.mapM f <;> rfl

theorem htmlWithin_assign (depth : Nat) (i : SlotId) :
    (t.assign texts).htmlWithin depth i =
      (t.piecesWithin depth i).map (Piece.writeAll texts) := by
  induction depth generalizing i with
  | zero => rfl
  | succ depth ih =>
    have inner (is : List SlotId) :
        (is.mapM ((t.assign texts).htmlWithin depth)).map List.flatten =
          ((is.mapM (t.piecesWithin depth)).map List.flatten).map (Piece.writeAll texts) := by
      induction is with
      | nil => rfl
      | cons j is rest =>
        rw [flatten_mapM_cons, flatten_mapM_cons, ih, rest]
        cases t.piecesWithin depth j with
        | none => rfl
        | some first =>
          cases (is.mapM (t.piecesWithin depth)).map List.flatten with
          | none => rfl
          | some later => simp [Piece.writeAll_append]
    rw [htmlWithin, piecesWithin, slot?_assign]
    cases t.slot? i with
    | none => rfl
    | some s =>
      obtain ⟨content, parent, children⟩ := s
      cases content with
      | container => exact inner children
      | element tag attributes =>
        simp only [Option.map_some, inner]
        split
        · rename_i void
          simp [Piece.writeAll_element, writeElement, void]
        · simp [Option.map_map, Function.comp_def, Piece.writeAll_element]
      | markup value => simp [Piece.writeAll, Piece.write]
      | text value => simp [Piece.writeAll, Piece.write]

/-- What a slot writes is what its pieces write for the assigned texts. -/
theorem html_assign (i : SlotId) :
    (t.assign texts).html i = String.ofList (Piece.writeAll texts (t.pieces i)) := by
  have size : (t.assign texts).slots.size = t.slots.size := by simp [assign]
  rw [html, htmlWithin_assign, size, pieces]
  cases t.piecesWithin (t.slots.size + 1) i <;> rfl

end SlotTree

namespace Shape

mutual

def pieces : Shape → List Piece
  | node i content children =>
    match content with
    | .container => piecesAll children
    | .element tag attributes => Piece.element tag attributes (piecesAll children)
    | .markup value => [.literal value.toList]
    | .text _ => [.computed i]

def piecesAll : List Shape → List Piece
  | [] => []
  | s :: ss => s.pieces ++ piecesAll ss

end

variable {t : SlotTree} {parent : Option SlotId} {s : Shape}

mutual

theorem piecesWithin_of_stands : (s : Shape) → {parent : Option SlotId} → s.Stands t parent →
    (depth : Nat) → s.ids.length ≤ depth → t.piecesWithin depth s.slot = some s.pieces
  | node i content children, parent, h, 0, le => by simp [ids] at le
  | node i content children, parent, h, depth + 1, le => by
    have le' : (idsAll children).length ≤ depth := by
      simp only [ids, List.length_cons] at le
      omega
    have inner := mapM_piecesWithin_of_standAll children h.2 depth le'
    simp only [slot, SlotTree.piecesWithin, h.1, inner]
    cases content with
    | container => simp [pieces]
    | element tag attributes =>
      by_cases hv : Markup.isVoid tag <;> simp [pieces, Piece.element, hv]
    | markup value => simp [pieces]
    | text value => simp [pieces]

theorem mapM_piecesWithin_of_standAll : (ss : List Shape) → {p : SlotId} → StandAll t p ss →
    (depth : Nat) → (idsAll ss).length ≤ depth →
    ((ss.map slot).mapM (t.piecesWithin depth)).map List.flatten = some (piecesAll ss)
  | [], _, _, _, _ => by simp [piecesAll]
  | s :: ss, p, h, depth, le => by
    simp only [idsAll, List.length_append] at le
    have first := piecesWithin_of_stands s h.1 depth (by omega)
    have rest := mapM_piecesWithin_of_standAll ss h.2 depth (by omega)
    rw [List.map_cons, SlotTree.flatten_mapM_cons, first, rest]
    rfl

end

theorem pieces_of_stands (h : s.Stands t parent) (nodup : s.ids.Nodup) :
    t.pieces s.slot = s.pieces := by
  have le := length_ids_le h nodup
  have eq := piecesWithin_of_stands s h (t.slots.size + 1) (Nat.le_succ_of_le le)
  simp [SlotTree.pieces, eq]

end Shape

end DirectiveTemplates.Live
