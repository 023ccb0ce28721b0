import DirectiveTemplates.Live.Slot

/-!
What the operations on slots do to each slot. Only the content, the parent and the children of a
slot can be seen, so an operation is known by the slot it leaves under every number.
-/
namespace DirectiveTemplates.Live.SlotTree

variable (t : SlotTree)

def size : Nat := t.slots.size

theorem slot?_update (i : SlotId) (f : Slot → Slot) (j : SlotId) :
    (t.update i f).slot? j = if j = i then (t.slot? j).map f else t.slot? j := by
  simp only [update, slot?, Array.getElem?_modify]
  by_cases h : i = j
  · simp [h]
  · simp [h, Ne.symm h]

@[simp] theorem size_update (i : SlotId) (f : Slot → Slot) : (t.update i f).size = t.size := by
  simp [size, update]

@[simp] theorem size_create (content : SlotContent) : (t.create content).2.size = t.size + 1 := by
  simp [size, create]

theorem slot?_create (content : SlotContent) (j : SlotId) :
    (t.create content).2.slot? j = if j = t.size then some ⟨content, none, []⟩ else t.slot? j := by
  simp only [create, slot?, size, Array.getElem?_push]
  rfl

theorem slot?_eq_none {t : SlotTree} {j : SlotId} (h : t.size ≤ j) : t.slot? j = none := by
  simpa [slot?, size] using h

theorem lt_size_of_slot? {t : SlotTree} {j : SlotId} {s : Slot} (h : t.slot? j = some s) :
    j < t.size := by
  rcases Nat.lt_or_ge j t.size with lt | le
  · exact lt
  · rw [slot?_eq_none le] at h
    contradiction

theorem contains_of_slot? {t : SlotTree} {j : SlotId} {s : Slot} (h : t.slot? j = some s) :
    t.contains j = true := by
  have lt := lt_size_of_slot? h
  simpa [contains, size] using lt

@[simp] theorem size_delete (child : SlotId) : (t.delete child).size = t.size := by
  unfold delete
  split
  · rfl
  · simp

theorem delete_of_parent_none {t : SlotTree} {child : SlotId} (h : t.parent? child = none) :
    t.delete child = t := by
  unfold delete
  rw [h]

/-- Taking a slot out of its parent changes these two slots only. -/
theorem slot?_delete {t : SlotTree} {p child : SlotId} (h : t.parent? child = some p)
    (ne : p ≠ child) (j : SlotId) :
    (t.delete child).slot? j =
      if j = child then (t.slot? j).map fun s => { s with parent := none }
      else if j = p then
        (t.slot? j).map fun s => { s with children := s.children.filter (· != child) }
      else t.slot? j := by
  unfold delete
  rw [h]
  simp only [slot?_update]
  by_cases hc : j = child
  · have hp : ¬ j = p := fun e => ne (e.symm.trans hc)
    simp [hc, Ne.symm ne]
  · simp [hc]

@[simp] theorem size_append (p child : SlotId) : (t.append p child).size = t.size := by
  unfold append
  split <;> simp

/-- Appending a slot without a parent changes it and its new parent only. -/
theorem slot?_append {t : SlotTree} {p child : SlotId} (ne : p ≠ child)
    (hp : t.contains p = true) (hc : t.contains child = true) (h : t.parent? child = none)
    (j : SlotId) :
    (t.append p child).slot? j =
      if j = child then (t.slot? j).map fun s => { s with parent := some p }
      else if j = p then (t.slot? j).map fun s => { s with children := s.children ++ [child] }
      else t.slot? j := by
  unfold append
  rw [if_neg (by simp [ne, hp, hc]), delete_of_parent_none h]
  simp only [slot?_update]
  by_cases hj : j = child
  · have hp : ¬ j = p := fun e => ne (e.symm.trans hj)
    simp [hj, Ne.symm ne]
  · simp [hj]

@[simp] theorem size_setText (i : SlotId) (value : String) : (t.setText i value).size = t.size :=
  t.size_update i _

theorem slot?_setText_of_ne {i j : SlotId} (ne : j ≠ i) (value : String) :
    (t.setText i value).slot? j = t.slot? j := by
  simp [setText, slot?_update, ne]

theorem slot?_setText {t : SlotTree} {i : SlotId} {old : String} {p : Option SlotId}
    {cs : List SlotId} (h : t.slot? i = some ⟨.text old, p, cs⟩) (value : String) :
    (t.setText i value).slot? i = some ⟨.text value, p, cs⟩ := by
  simp [setText, slot?_update, h]

end DirectiveTemplates.Live.SlotTree
