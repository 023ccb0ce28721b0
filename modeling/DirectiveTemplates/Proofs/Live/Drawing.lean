import DirectiveTemplates.Proofs.Live.Destroying

/-!
Shapes drawn again. A render changes the slots of a shape and makes new ones; the shape that stands
afterwards has the same top, and its slots are old ones of the same shape or new.
-/
namespace DirectiveTemplates.Live

variable {x y z : Scene} {m k p : Nat} {parent : Option SlotId} {content : SlotContent}
  {before : List SlotId} {l l' : Shape} {ls ls' : List Shape}

/-- The slots of what was drawn again: each was there before or is new. -/
def Redrawn (k : Nat) (old new : List SlotId) : Prop :=
  new.Nodup ∧ ∀ j ∈ new, j ∈ old ∨ k ≤ j

namespace Redrawn

variable {a a' b b' : List SlotId}

theorem refl (k : Nat) (nodup : a.Nodup) : Redrawn k a a := ⟨nodup, fun _ => Or.inl⟩

theorem append (h : Redrawn k a a') (h' : Redrawn m b b') (le : k ≤ m) (nodup : (a ++ b).Nodup)
    (old : ∀ j ∈ b, j < k) (made : ∀ j ∈ a', j < m) : Redrawn k (a ++ b) (a' ++ b') := by
  have parts := List.nodup_append.mp nodup
  constructor
  · refine List.nodup_append.mpr ⟨h.1, h'.1, ?_⟩
    rintro j ha _ hb rfl
    rcases h'.2 j hb with hb | new
    · rcases h.2 j ha with ha | new
      · exact parts.2.2 j ha j hb rfl
      · exact Nat.not_le_of_lt (old j hb) new
    · exact Nat.not_le_of_lt (made j ha) new
  · intro j hj
    rcases List.mem_append.mp hj with hj | hj
    · exact (h.2 j hj).imp_left (List.mem_append_left b)
    · exact (h'.2 j hj).imp (List.mem_append_right a) (Nat.le_trans le)

end Redrawn

structure Row (x : Scene) (p : Nat) (content : SlotContent) (parent : Option SlotId)
    (before : List SlotId) (ls : List Shape) : Prop where
  there : x.slots.slot? p = some ⟨content, parent, before ++ ls.map Shape.slot⟩
  stand : Shape.StandAll x.slots p ls
  nodup : (Shape.idsAll ls).Nodup
  apart : ∀ j ∈ Shape.idsAll ls, j ≠ p ∧ j ∉ before

structure Drawn (m : Nat) (parent : Option SlotId) (x y : Scene) (l l' : Shape) : Prop where
  stands : l'.Stands y.slots parent
  slot : l'.slot = l.slot
  ids : Redrawn x.slots.size l.ids l'.ids
  step : Step (· ∈ l.ids) m x y

structure DrawnRow (m p : Nat) (content : SlotContent) (parent : Option SlotId)
    (before : List SlotId) (x y : Scene) (ls ls' : List Shape) : Prop where
  there : y.slots.slot? p = some ⟨content, parent, before ++ ls'.map Shape.slot⟩
  stand : Shape.StandAll y.slots p ls'
  ids : Redrawn x.slots.size (Shape.idsAll ls) (Shape.idsAll ls')
  step : Step (fun j => j = p ∨ j ∈ Shape.idsAll ls) m x y

namespace Drawn

theorem refl (m : Nat) (stands : l.Stands x.slots parent) (nodup : l.ids.Nodup) :
    Drawn m parent x x l l :=
  ⟨stands, rfl, Redrawn.refl _ nodup, Step.refl _ _ x⟩

theorem mono (h : Drawn k parent x y l l') (le : m ≤ k) : Drawn m parent x y l l' :=
  ⟨h.stands, h.slot, h.ids, h.step.mono le fun _ _ => id⟩

/-- What is drawn after a step that touches no slot was drawn since before it. -/
theorem since (h : Drawn m parent y z l l') (step : Step (fun _ => False) m x y) :
    Drawn m parent x z l l' where
  stands := h.stands
  slot := h.slot
  ids := ⟨h.ids.1, fun j hj => (h.ids.2 j hj).imp_right (Nat.le_trans step.slots_le)⟩
  step := (step.mono (Nat.le_refl m) fun _ _ => False.elim).trans h.step fun _ _ => id

theorem still (step : Step (fun _ => False) m x y) (stands : l.Stands x.slots parent)
    (nodup : l.ids.Nodup) : Drawn m parent x y l l :=
  (refl m (step.stands stands fun _ _ => id) nodup).since step

end Drawn

namespace Row

theorem lt_size (h : Row x p content parent before ls) : p < x.slots.size :=
  SlotTree.lt_size_of_slot? h.there

theorem of_stands (h : (Shape.node p content ls).Stands x.slots parent)
    (nodup : (Shape.node p content ls).ids.Nodup) : Row x p content parent [] ls := by
  simp only [Shape.ids, List.nodup_cons] at nodup
  refine ⟨h.1, h.2, nodup.2, ?_⟩
  intro j hj
  refine ⟨?_, by simp⟩
  rintro rfl
  exact nodup.1 hj

theorem step (h : Row x p content parent before ls) (step : Step (fun _ => False) m x y) :
    Row y p content parent before ls where
  there := (step.slot p h.lt_size id).trans h.there
  stand := step.standAll h.stand fun _ _ => id
  nodup := h.nodup
  apart := h.apart

theorem head (h : Row x p content parent before (l :: ls)) :
    l.Stands x.slots (some p) ∧ l.ids.Nodup ∧ p ∉ l.ids := by
  refine ⟨h.stand.1, ?_, ?_⟩
  · exact h.nodup.sublist (List.sublist_append_left _ _)
  · intro mem
    exact (h.apart p (List.mem_append_left _ mem)).1 rfl

theorem filter_before (h : Row x p content parent before ls) :
    (before ++ ls.map Shape.slot).filter (· ∉ ls.map Shape.slot) = before := by
  have front : before.filter (· ∉ ls.map Shape.slot) = before := by
    refine List.filter_eq_self.mpr fun j hj => ?_
    simp only [List.mem_map, not_exists, not_and, decide_eq_true_eq]
    rintro l hl rfl
    exact (h.apart _ (Shape.ids_subset_idsAll hl l.slot_mem_ids)).2 hj
  have back : (ls.map Shape.slot).filter (· ∉ ls.map Shape.slot) = [] := by
    refine List.filter_eq_nil_iff.mpr fun j hj => ?_
    simp [hj]
  rw [List.filter_append, front, back, List.append_nil]

/-- When the first shape of a row was drawn again, the others still stand behind it. -/
theorem tail (h : Row x p content parent before (l :: ls)) (drawn : Drawn m (some p) x y l l') :
    Row y p content parent (before ++ [l'.slot]) ls := by
  have nodup : (l.ids ++ Shape.idsAll ls).Nodup := h.nodup
  have parts := List.nodup_append.mp nodup
  refine ⟨?_, ?_, parts.2.1, ?_⟩
  · rw [drawn.step.slot p h.lt_size h.head.2.2, h.there, drawn.slot]
    simp
  · apply drawn.step.standAll h.stand.2
    intro j hj first
    exact parts.2.2 j first j hj rfl
  · intro j hj
    obtain ⟨ne, out⟩ := h.apart j (List.mem_append_right _ hj)
    refine ⟨ne, ?_⟩
    simp only [List.mem_append, List.mem_singleton, not_or]
    refine ⟨out, ?_⟩
    rintro rfl
    exact parts.2.2 _ (drawn.slot ▸ l.slot_mem_ids) _ hj rfl

theorem push (h : Row x p content parent before []) (new : NewShape m x y l) :
    Row (y.append p l.slot) p content parent (before ++ [l.slot]) [] := by
  obtain ⟨-, children, -, -⟩ := new.append h.lt_size
  exact ⟨by simpa using children _ h.there, trivial, List.nodup_nil, by simp [Shape.idsAll]⟩

end Row

namespace DrawnRow

theorem refl (m : Nat) (h : Row x p content parent before ls) :
    DrawnRow m p content parent before x x ls ls :=
  ⟨h.there, h.stand, Redrawn.refl _ h.nodup, Step.refl _ _ x⟩

/-- Shapes are drawn behind the first one, which took the place of the shapes `olds`. -/
theorem cons (olds : List Shape) (row : Row x p content parent before (olds ++ ls))
    (stands : l'.Stands y.slots (some p))
    (ids : Redrawn x.slots.size (Shape.idsAll olds) l'.ids)
    (first : Step (fun j => j = p ∨ j ∈ Shape.idsAll olds) m x y)
    (rest : DrawnRow m p content parent (before ++ [l'.slot]) y z ls ls') :
    DrawnRow m p content parent before x z (olds ++ ls) (l' :: ls') := by
  have nodup := row.nodup
  have apart := row.apart
  have here := Shape.lt_size_of_standAll (olds ++ ls) row.stand
  simp only [Shape.idsAll_append] at nodup apart here
  have distinct := (List.nodup_append.mp nodup).2.2
  have made : ∀ j ∈ l'.ids, j < y.slots.size := Shape.lt_size_of_stands l' stands
  refine ⟨by simpa using rest.there, ⟨?_, rest.stand⟩, ?_, ?_⟩
  · apply rest.step.stands stands
    rintro j hj (rfl | later)
    · rcases ids.2 j hj with hj | new
      · exact (apart j (List.mem_append_left _ hj)).1 rfl
      · exact Nat.not_le_of_lt row.lt_size new
    · rcases ids.2 j hj with hj | new
      · exact distinct j hj j later rfl
      · exact Nat.not_le_of_lt (here j (List.mem_append_right _ later)) new
  · rw [Shape.idsAll_append]
    exact ids.append rest.ids first.slots_le nodup
      (fun j hj => here j (List.mem_append_right _ hj)) made
  · simp only [Shape.idsAll_append]
    exact first.append rest.step (Nat.le_refl m)

theorem cons_drawn (row : Row x p content parent before (l :: ls))
    (first : Drawn m (some p) x y l l')
    (rest : DrawnRow m p content parent (before ++ [l'.slot]) y z ls ls') :
    DrawnRow m p content parent before x z (l :: ls) (l' :: ls') := by
  have ids : Shape.idsAll [l] = l.ids := by simp [Shape.idsAll]
  have step : Step (fun j => j = p ∨ j ∈ Shape.idsAll [l]) m x y := by
    refine first.step.mono (Nat.le_refl m) fun j _ hj => Or.inr ?_
    rwa [ids]
  exact cons [l] row first.stands (ids ▸ first.ids) step rest

theorem cons_new (row : Row x p content parent before []) (new : NewShape m x y l')
    (rest : DrawnRow m p content parent (before ++ [l'.slot]) (y.append p l'.slot) z [] ls') :
    DrawnRow m p content parent before x z [] (l' :: ls') := by
  obtain ⟨stands, -, step, -⟩ := new.append row.lt_size
  refine cons [] row stands ?_ (step.mono (Nat.le_refl m) fun j _ => Or.inl) rest
  exact ⟨new.nodup, fun j hj => Or.inr (new.fresh j hj)⟩

theorem drawn (row : Row x p content parent [] ls)
    (h : DrawnRow m p content parent [] x y ls ls') :
    Drawn m parent x y (.node p content ls) (.node p content ls') where
  stands := ⟨h.there, h.stand⟩
  slot := rfl
  ids := by
    simp only [Shape.ids]
    constructor
    · refine List.nodup_cons.mpr ⟨fun mem => ?_, h.ids.1⟩
      rcases h.ids.2 p mem with old | new
      · exact (row.apart p old).1 rfl
      · exact Nat.not_le_of_lt row.lt_size new
    · intro j hj
      rcases List.mem_cons.mp hj with rfl | hj
      · exact Or.inl (List.mem_cons_self)
      · exact (h.ids.2 j hj).imp_left (List.mem_cons_of_mem p)
  step := by
    apply h.step.mono (Nat.le_refl m)
    rintro j - (rfl | hj)
    · simp [Shape.ids]
    · simp [Shape.ids, hj]

end DrawnRow

theorem NewShape.drawn (h : NewShape k x y l) (d : Drawn m none y z l l') (le : m ≤ k) :
    NewShape m x z l' where
  stands := d.stands
  nodup := d.ids.1
  fresh := by
    intro j hj
    rcases d.ids.2 j hj with old | new
    · exact h.fresh j old
    · exact Nat.le_trans h.step.slots_le new
  step := by
    apply (h.step.mono le fun _ _ => id).trans d.step
    intro j lt mem
    exact Nat.not_le_of_lt lt (h.fresh j mem)

end DirectiveTemplates.Live
