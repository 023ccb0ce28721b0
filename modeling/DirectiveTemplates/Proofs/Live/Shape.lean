import DirectiveTemplates.Proofs.Live.Slots

/-!
Shapes: the slots from one slot down, as a plain tree. A shape that stands in the slots and names
no slot twice is written as its own plain markup, so what a rendering writes can be read off the
shape, and a change elsewhere in the slots leaves it alone.
-/
namespace DirectiveTemplates.Live

inductive Shape where
  | node (slot : SlotId) (content : SlotContent) (children : List Shape)

namespace Shape

def slot : Shape → SlotId
  | node i _ _ => i

mutual

def ids : Shape → List SlotId
  | node i _ children => i :: idsAll children

def idsAll : List Shape → List SlotId
  | [] => []
  | s :: ss => s.ids ++ idsAll ss

end

mutual

def html : Shape → List Char
  | node _ content children =>
    match content with
    | .container => htmlAll children
    | .element tag attributes => writeElement tag attributes (htmlAll children)
    | .markup value => value.toList
    | .text value => value.toList.flatMap escapeText

def htmlAll : List Shape → List Char
  | [] => []
  | s :: ss => s.html ++ htmlAll ss

end

mutual

/-- A shape stands in the slots when each slot of it is there, with these children in order. -/
def Stands (t : SlotTree) (parent : Option SlotId) : Shape → Prop
  | node i content children =>
    t.slot? i = some ⟨content, parent, children.map slot⟩ ∧ StandAll t i children

def StandAll (t : SlotTree) (p : SlotId) : List Shape → Prop
  | [] => True
  | s :: ss => s.Stands t (some p) ∧ StandAll t p ss

end

variable {t t' : SlotTree} {p : SlotId} {parent : Option SlotId} {s : Shape} {ss : List Shape}

theorem slot_mem_ids (s : Shape) : s.slot ∈ s.ids := by
  cases s with
  | node i content children => simp [slot, ids]

theorem ids_subset_idsAll {s : Shape} {ss : List Shape} (h : s ∈ ss) : s.ids ⊆ idsAll ss := by
  induction ss with
  | nil => simp at h
  | cons s' ss ih =>
    intro j hj
    simp only [idsAll, List.mem_append]
    rcases List.mem_cons.mp h with rfl | h
    · exact Or.inl hj
    · exact Or.inr (ih h hj)

theorem idsAll_append (ss rest : List Shape) : idsAll (ss ++ rest) = idsAll ss ++ idsAll rest := by
  induction ss with
  | nil => rfl
  | cons s ss ih => simp [idsAll, ih]

theorem Stands.slot?_slot (h : s.Stands t parent) :
    ∃ content children, t.slot? s.slot = some ⟨content, parent, children⟩ := by
  cases s with
  | node i content children => exact ⟨content, _, h.1⟩

theorem Stands.parent? (h : s.Stands t parent) : t.parent? s.slot = parent := by
  obtain ⟨content, children, eq⟩ := h.slot?_slot
  simp [SlotTree.parent?, eq]

mutual

theorem lt_size_of_stands : (s : Shape) → {parent : Option SlotId} → s.Stands t parent →
    ∀ j ∈ s.ids, j < t.size
  | node i content children, parent, h, j, hj => by
    simp only [ids, List.mem_cons] at hj
    rcases hj with rfl | hj
    · exact SlotTree.lt_size_of_slot? h.1
    · exact lt_size_of_standAll children h.2 j hj

theorem lt_size_of_standAll : (ss : List Shape) → {p : SlotId} → StandAll t p ss →
    ∀ j ∈ idsAll ss, j < t.size
  | [], _, _, j, hj => by simp [idsAll] at hj
  | s :: ss, p, h, j, hj => by
    simp only [idsAll, List.mem_append] at hj
    rcases hj with hj | hj
    · exact lt_size_of_stands s h.1 j hj
    · exact lt_size_of_standAll ss h.2 j hj

end

mutual

theorem Stands.congr : (s : Shape) → {parent : Option SlotId} → s.Stands t parent →
    (∀ j ∈ s.ids, t'.slot? j = t.slot? j) → s.Stands t' parent
  | node i content children, parent, h, same => by
    constructor
    · rw [same i (by simp [ids])]
      exact h.1
    · exact StandAll.congr children h.2 fun j hj => same j (by simp [ids, hj])

theorem StandAll.congr : (ss : List Shape) → {p : SlotId} → StandAll t p ss →
    (∀ j ∈ idsAll ss, t'.slot? j = t.slot? j) → StandAll t' p ss
  | [], _, _, _ => trivial
  | s :: ss, p, h, same =>
    ⟨Stands.congr s h.1 fun j hj => same j (by simp [idsAll, hj]),
      StandAll.congr ss h.2 fun j hj => same j (by simp [idsAll, hj])⟩

end

/-- Only the slot at the top of a shape knows its parent. -/
theorem Stands.move {parent' : Option SlotId} (h : s.Stands t parent) (nodup : s.ids.Nodup)
    (top : t'.slot? s.slot = (t.slot? s.slot).map fun r => { r with parent := parent' })
    (same : ∀ j ∈ s.ids, j ≠ s.slot → t'.slot? j = t.slot? j) : s.Stands t' parent' := by
  cases s with
  | node i content children =>
    simp only [ids, List.nodup_cons] at nodup
    constructor
    · simp only [slot] at top
      rw [top, h.1]
      rfl
    · refine StandAll.congr children h.2 fun j hj => same j (by simp [ids, hj]) ?_
      intro (e : j = i)
      subst e
      exact nodup.1 hj

theorem Stands.append (h : s.Stands t none) (nodup : s.ids.Nodup) (outside : p ∉ s.ids)
    (there : t.contains p = true) : s.Stands (t.append p s.slot) (some p) := by
  have ne : p ≠ s.slot := fun e => outside (e ▸ s.slot_mem_ids)
  obtain ⟨content, children, eq⟩ := h.slot?_slot
  have look := SlotTree.slot?_append ne there (SlotTree.contains_of_slot? eq) h.parent?
  apply h.move nodup
  · simp [look]
  · intro j hj hne
    have hp : j ≠ p := fun e => outside (e ▸ hj)
    simp [look, hne, hp]

/-! What a standing shape writes. -/

mutual

theorem htmlWithin_of_stands : (s : Shape) → {parent : Option SlotId} → s.Stands t parent →
    (depth : Nat) → s.ids.length ≤ depth → t.htmlWithin depth s.slot = some s.html
  | node i content children, parent, h, 0, le => by simp [ids] at le
  | node i content children, parent, h, depth + 1, le => by
    have le' : (idsAll children).length ≤ depth := by
      simp only [ids, List.length_cons] at le
      omega
    have inner := mapM_htmlWithin_of_standAll children h.2 depth le'
    simp only [slot, SlotTree.htmlWithin, h.1, inner]
    cases content with
    | container => simp [html]
    | element tag attributes => by_cases hv : Markup.isVoid tag <;> simp [html, writeElement, hv]
    | markup value => simp [html]
    | text value => simp [html]

theorem mapM_htmlWithin_of_standAll : (ss : List Shape) → {p : SlotId} → StandAll t p ss →
    (depth : Nat) → (idsAll ss).length ≤ depth →
    ((ss.map slot).mapM (t.htmlWithin depth)).map List.flatten = some (htmlAll ss)
  | [], _, _, _, _ => by simp [htmlAll]
  | s :: ss, p, h, depth, le => by
    simp only [idsAll, List.length_append] at le
    have first := htmlWithin_of_stands s h.1 depth (by omega)
    have rest := mapM_htmlWithin_of_standAll ss h.2 depth (by omega)
    obtain ⟨parts, eq, flat⟩ := Option.map_eq_some_iff.mp rest
    simp [List.mapM_cons, first, eq, htmlAll, flat]

end

theorem length_ids_le (h : s.Stands t parent) (nodup : s.ids.Nodup) : s.ids.length ≤ t.size := by
  have sub : s.ids ⊆ List.range t.size := by
    intro j hj
    exact List.mem_range.mpr (lt_size_of_stands s h j hj)
  simpa using nodup.length_le_of_subset sub

theorem html_of_stands (h : s.Stands t parent) (nodup : s.ids.Nodup) :
    t.html s.slot = String.ofList s.html := by
  have le := length_ids_le h nodup
  have eq := htmlWithin_of_stands s h (t.slots.size + 1) (Nat.le_succ_of_le le)
  simp [SlotTree.html, eq]

end Shape

end DirectiveTemplates.Live
