import DirectiveTemplates.Proofs.Live.Links
import Mathlib.Data.List.Induction
import Mathlib.Logic.Relation

/-!
When the slots are a forest. An append closes a loop exactly when the slot that it moves stands
above the place where it goes; no other operation can. In a forest every slot is written.
-/
namespace DirectiveTemplates.Live

/-- What a slot writes around the text of its children. -/
def Slot.write (s : Slot) (inner : List Char) : List Char :=
  match s.content with
  | .container => inner
  | .element tag attributes => writeElement tag attributes inner
  | .markup value => value.toList
  | .text value => value.toList.flatMap escapeText

namespace SlotTree

def IsParent (t : SlotTree) (p c : SlotId) : Prop := t.parent? c = some p

def Above (t : SlotTree) : SlotId → SlotId → Prop := Relation.TransGen t.IsParent

def IsForest (t : SlotTree) : Prop := ∀ i, ¬ t.Above i i

variable {t t' : SlotTree}

theorem Linked.contains_of_above (linked : t.Linked) {a b : SlotId} (above : t.Above a b) :
    t.contains a = true ∧ t.contains b = true := by
  obtain ⟨child, parent, _⟩ := Relation.TransGen.head'_iff.mp above
  obtain ⟨_, _, last⟩ := Relation.TransGen.tail'_iff.mp above
  have mem := (linked.mem_children a child).mpr parent
  constructor
  · cases found : t.slot? a with
    | none => simp [children, found] at mem
    | some s => exact contains_of_slot? found
  · cases found : t.slot? b with
    | none => simp [IsParent, parent?, found] at last
    | some s => exact contains_of_slot? found

theorem isForest_empty : empty.IsForest := by
  intro i loop
  obtain ⟨p, _, parent⟩ := Relation.TransGen.tail'_iff.mp loop
  simp [IsParent, parent?, slot?, empty] at parent

/-- Slots that lose parents and get none stay a forest. -/
theorem IsForest.of_parents (h : t.IsForest)
    (lost : ∀ i p, t'.parent? i = some p → t.parent? i = some p) : t'.IsForest := by
  intro i loop
  exact h i (Relation.TransGen.mono (fun p c => lost c p) i i loop)

theorem IsForest.delete (h : t.IsForest) (linked : t.Linked) (c : SlotId) :
    (t.delete c).IsForest := by
  apply h.of_parents
  intro i p parent
  rw [linked.parent?_delete] at parent
  split at parent
  · cases parent
  · exact parent

section Append

variable {p c : SlotId}

/-- A way up after an append is one from before, or it passes the slot that was moved. -/
theorem above_of_append (linked : t.Linked) (ne : p ≠ c) (hp : t.contains p = true)
    (hc : t.contains c = true) {a b : SlotId} (above : (t.append p c).Above a b) :
    t.Above a b ∨
      Relation.ReflTransGen t.IsParent a p ∧ Relation.ReflTransGen t.IsParent c b := by
  have parent_cases {a b : SlotId} (parent : (t.append p c).IsParent a b) :
      b = c ∧ a = p ∨ t.IsParent a b := by
    rw [IsParent, linked.parent?_append ne hp hc] at parent
    split at parent
    · rename_i eq
      exact Or.inl ⟨eq, (Option.some.inj parent).symm⟩
    · exact Or.inr parent
  induction above with
  | single parent =>
    obtain ⟨rfl, rfl⟩ | old := parent_cases parent
    · exact Or.inr ⟨.refl, .refl⟩
    · exact Or.inl (.single old)
  | tail above parent ih =>
    obtain ⟨rfl, rfl⟩ | old := parent_cases parent
    · rcases ih with before | through
      · exact Or.inr ⟨before.to_reflTransGen, .refl⟩
      · exact Or.inr ⟨through.1, .refl⟩
    · rcases ih with before | through
      · exact Or.inl (before.tail old)
      · exact Or.inr ⟨through.1, through.2.tail old⟩

/-- A way down from the slot that is moved is not touched by the move. -/
theorem IsForest.above_append (h : t.IsForest) (linked : t.Linked) (ne : p ≠ c)
    (hp : t.contains p = true) (hc : t.contains c = true) {b : SlotId} (above : t.Above c b) :
    (t.append p c).Above c b := by
  have kept {a b : SlotId} (below : t.Above c b) (parent : t.IsParent a b) :
      (t.append p c).IsParent a b := by
    have other : b ≠ c := fun eq => h c (eq ▸ below)
    rw [IsParent, linked.parent?_append ne hp hc, if_neg other]
    exact parent
  induction above with
  | single parent => exact .single (kept (.single parent) parent)
  | tail above parent ih => exact ih.tail (kept (above.tail parent) parent)

/-- An append keeps the forest exactly when the slot that it moves is not above the new place. -/
theorem IsForest.append_iff (h : t.IsForest) (linked : t.Linked) :
    (t.append p c).IsForest ↔ ¬ t.Above c p := by
  by_cases refused : p = c ∨ (!t.contains p) = true ∨ (!t.contains c) = true
  · rw [append, if_pos refused]
    refine iff_of_true h ?_
    intro above
    obtain ⟨hc, hp⟩ := linked.contains_of_above above
    rcases refused with rfl | missing | missing
    · exact h p above
    · simp [hp] at missing
    · simp [hc] at missing
  · obtain ⟨ne, hp, hc⟩ : p ≠ c ∧ t.contains p = true ∧ t.contains c = true := by
      simpa using refused
    constructor
    · intro forest above
      have parent : (t.append p c).IsParent p c := by
        rw [IsParent, linked.parent?_append ne hp hc, if_pos rfl]
      exact forest c ((h.above_append linked ne hp hc above).tail parent)
    · intro apart i loop
      obtain before | ⟨up, down⟩ := above_of_append linked ne hp hc loop
      · exact h i before
      · have reached := down.trans up
        rcases Relation.reflTransGen_iff_eq_or_transGen.mp reached with eq | above
        · exact ne eq
        · exact apart above

end Append

/-! How far down a forest goes. The slots above a slot are all different, so each level down leaves
one slot less for the levels below it. -/

theorem htmlWithin_of_children {i : SlotId} {s : Slot} (found : t.slot? i = some s) {depth : Nat}
    {texts : List (List Char)} (written : s.children.mapM (t.htmlWithin depth) = some texts) :
    t.htmlWithin (depth + 1) i = some (s.write texts.flatten) := by
  obtain ⟨content, parent, children⟩ := s
  simp only [htmlWithin, found, written, Slot.write]
  cases content with
  | container => rfl
  | element tag attributes => by_cases void : Markup.isVoid tag <;> simp [writeElement, void]
  | markup value => rfl
  | text value => rfl

/-- What the children of a slot write, when each of them writes something at every great depth. -/
theorem exists_mapM_html {bound : Nat} {is : List SlotId}
    (each : ∀ i ∈ is, ∃ text, ∀ depth, bound < depth → t.htmlWithin depth i = some text) :
    ∃ texts, ∀ depth, bound < depth → is.mapM (t.htmlWithin depth) = some texts := by
  induction is with
  | nil => exact ⟨[], fun _ _ => rfl⟩
  | cons i is ih =>
    obtain ⟨first, others⟩ := List.forall_mem_cons.mp each
    obtain ⟨text, written⟩ := first
    obtain ⟨texts, rest⟩ := ih others
    refine ⟨text :: texts, ?_⟩
    intro depth deep
    simp [List.mapM_cons, written depth deep, rest depth deep]

theorem IsForest.exists_html_below (h : t.IsForest) (linked : t.Linked) (bound : Nat) :
    ∀ (i : SlotId) (trail : List SlotId), (i :: trail).Nodup → (∀ a ∈ i :: trail, a < t.size) →
      (∀ a ∈ trail, t.Above a i) → t.size ≤ bound + trail.length →
      ∃ text, ∀ depth, bound < depth → t.htmlWithin depth i = some text := by
  induction bound with
  | zero =>
    intro i trail nodup there _ enough
    have sub : i :: trail ⊆ List.range t.size := fun a mem => List.mem_range.mpr (there a mem)
    have short := nodup.length_le_of_subset sub
    simp only [List.length_cons, List.length_range] at short
    omega
  | succ bound ih =>
    intro i trail nodup there above enough
    have inner : ∀ c ∈ t.children i,
        ∃ text, ∀ depth, bound < depth → t.htmlWithin depth c = some text := by
      intro c mem
      have parent : t.IsParent i c := (linked.mem_children i c).mp mem
      have aboveChild : ∀ a ∈ i :: trail, t.Above a c := by
        intro a among
        rcases List.mem_cons.mp among with rfl | among
        · exact .single parent
        · exact (above a among).tail parent
      have new : c ∉ i :: trail := fun among => h c (aboveChild c among)
      have found : c < t.size := by
        simpa [contains, size] using (linked.contains_of_above (.single parent)).2
      apply ih c (i :: trail) (List.nodup_cons.mpr ⟨new, nodup⟩) _ aboveChild
      · rw [List.length_cons]
        omega
      · intro a among
        rcases List.mem_cons.mp among with rfl | among
        · exact found
        · exact there a among
    obtain ⟨texts, written⟩ := exists_mapM_html inner
    have here : i < t.slots.size := there i (List.mem_cons_self ..)
    have found : t.slot? i = some t.slots[i] := Array.getElem?_eq_getElem here
    have children : t.children i = t.slots[i].children := by rw [SlotTree.children, found]; rfl
    rw [children] at written
    refine ⟨t.slots[i].write texts.flatten, ?_⟩
    intro depth deep
    obtain ⟨depth, rfl⟩ : ∃ n, depth = n + 1 := ⟨depth - 1, by omega⟩
    exact htmlWithin_of_children found (written depth (by omega))

/-- In a forest every slot is written, at every depth beyond the number of slots. -/
theorem IsForest.exists_html (h : t.IsForest) (linked : t.Linked) (i : SlotId) :
    ∃ text, ∀ depth, t.size < depth → t.htmlWithin depth i = some text := by
  rcases Nat.lt_or_ge i t.size with there | beyond
  · apply h.exists_html_below linked t.size i [] (by simp) (by simpa using there) (by simp)
    simp
  · refine ⟨[], ?_⟩
    intro depth deep
    obtain ⟨depth, rfl⟩ : ∃ n, depth = n + 1 := ⟨depth - 1, by omega⟩
    rw [htmlWithin, slot?_eq_none beyond]

/-! Runs. -/

theorem linked_after (operations : List Operation) : (after operations).Linked :=
  Linked.empty.foldl operations

theorem after_concat (run : List Operation) (o : Operation) :
    after (run ++ [o]) = (after run).perform o := by
  rw [after, List.foldl_append]
  rfl

/-- The slots stay a forest in a run of operations exactly as long as no slot is put under one that
it stands above. In a forest every slot is written, and more depth does not change what it
writes. -/
theorem isForest_iff_appends_apart (operations : List Operation) :
    ((∀ run, run <+: operations → (after run).IsForest) ↔
      ∀ run p c, run ++ [.append p c] <+: operations → ¬ (after run).Above c p) ∧
    ((after operations).IsForest → ∀ i, ∃ text, ∀ depth,
      (after operations).size < depth → (after operations).htmlWithin depth i = some text) := by
  refine ⟨⟨?_, ?_⟩, fun forest i => forest.exists_html (linked_after operations) i⟩
  · intro forests run p c among
    have before := forests run ((List.prefix_append ..).trans among)
    have behind := forests _ among
    rw [after_concat] at behind
    exact (before.append_iff (linked_after run)).mp behind
  · intro apart run among
    induction run using List.reverseRecOn with
    | nil => exact isForest_empty
    | append_singleton run o ih =>
      have forest := ih ((List.prefix_append ..).trans among)
      have linked := linked_after run
      rw [after_concat]
      cases o with
      | create content =>
        exact forest.of_parents fun i p => by rw [perform, parent?_create]; exact id
      | append p c => exact (forest.append_iff linked).mpr (apart run p c among)
      | delete c => exact forest.delete linked c
      | setText i value =>
        exact forest.of_parents fun j p => by rw [perform, parent?_setText]; exact id

/-- Two containers, each of them put into the other. -/
def crossed : List Operation :=
  [.create .container, .create .container, .append 0 1, .append 1 0]

/-- The run of `crossed` makes a slot its own ancestor, and writing that slot never ends. -/
theorem above_self_of_crossed :
    (after crossed).Above 0 0 ∧ ∀ depth, (after crossed).htmlWithin depth 0 = none := by
  constructor
  · exact .tail (.single (show parent? _ 1 = some 0 from rfl)) rfl
  · have both (depth : Nat) : (after crossed).htmlWithin depth 0 = none ∧
        (after crossed).htmlWithin depth 1 = none := by
      induction depth with
      | zero => exact ⟨rfl, rfl⟩
      | succ depth ih =>
        have first : (after crossed).slot? 0 = some ⟨.container, some 1, [1]⟩ := rfl
        have second : (after crossed).slot? 1 = some ⟨.container, some 0, [0]⟩ := rfl
        simp [htmlWithin, first, second, ih]
    exact fun depth => (both depth).1

end SlotTree

end DirectiveTemplates.Live
