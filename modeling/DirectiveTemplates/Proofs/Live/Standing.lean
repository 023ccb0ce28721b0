import DirectiveTemplates.Proofs.Live.Bodies
import DirectiveTemplates.Proofs.Live.Links

/-!
Components of one body side by side in a slot. What one of them does leaves the others alone, so
the slot always lists the slots of its components in order.
-/
namespace DirectiveTemplates.Live

namespace SlotTree

/-- A slot with these children is itself when it gets them once more. -/
theorem map_children_eq {t : SlotTree} {i : SlotId} {ids : List SlotId} (h : t.children i = ids) :
    ((t.slot? i).map fun s => { s with children := ids }) = t.slot? i := by
  cases found : t.slot? i with
  | none => rfl
  | some s =>
    rw [SlotTree.children, found] at h
    cases h
    rfl

/-- Of the slots in `fixed` none has changed, and of `slot` only the children: they are `ids`
now. -/
structure Relisted (fixed : SlotId → Prop) (t₀ t : SlotTree) (slot : SlotId)
    (ids : List SlotId) : Prop where
  here : slot < t₀.size
  bound : ∀ i, fixed i → i < t₀.size
  free : ¬ fixed slot
  size_le : t₀.size ≤ t.size
  same : ∀ i, fixed i → t.slot? i = t₀.slot? i
  row : t.slot? slot = (t₀.slot? slot).map fun s => { s with children := ids }

namespace Relisted

variable {fixed : SlotId → Prop} {t₀ t t' : SlotTree} {slot : SlotId} {ids : List SlotId}

theorem children (h : Relisted fixed t₀ t slot ids) : t.children slot = ids := by
  have found : slot < t₀.slots.size := h.here
  rw [SlotTree.children, h.row]
  simp [slot?, found]

theorem parent? (h : Relisted fixed t₀ t slot ids) : t.parent? slot = t₀.parent? slot := by
  rw [SlotTree.parent?, h.row, SlotTree.parent?]
  cases t₀.slot? slot <;> rfl

theorem contains (h : Relisted fixed t₀ t slot ids) : t.contains slot = true :=
  decide_eq_true (Nat.lt_of_lt_of_le h.here h.size_le)

/-- Nothing is relisted when only slots out of reach change. -/
theorem keeps {touched : SlotId → Prop} (h : Relisted fixed t₀ t slot ids)
    (keeps : t.Keeps touched t') (apart : ∀ i, touched i → i ≠ slot ∧ ¬ fixed i) :
    Relisted fixed t₀ t' slot ids := by
  refine ⟨h.here, h.bound, h.free, Nat.le_trans h.size_le keeps.size_le, ?_, ?_⟩
  · intro i mem
    have lt : i < t.size := Nat.lt_of_lt_of_le (h.bound i mem) h.size_le
    rw [keeps.slot i lt fun touched => (apart i touched).2 mem]
    exact h.same i mem
  · have lt : slot < t.size := Nat.lt_of_lt_of_le h.here h.size_le
    rw [keeps.slot slot lt fun touched => (apart slot touched).1 rfl]
    exact h.row

theorem delete (h : Relisted fixed t₀ t slot ids) {c : SlotId} (parent : t.parent? c = some slot)
    (apart : c ≠ slot ∧ ¬ fixed c) :
    Relisted fixed t₀ (t.delete c) slot (ids.filter (· != c)) := by
  have look := slot?_delete parent (Ne.symm apart.1)
  refine ⟨h.here, h.bound, h.free, ?_, ?_, ?_⟩
  · rw [size_delete]
    exact h.size_le
  · intro i mem
    have other : i ≠ c := fun eq => apart.2 (eq ▸ mem)
    have outside : i ≠ slot := fun eq => h.free (eq ▸ mem)
    rw [look, if_neg other, if_neg outside]
    exact h.same i mem
  · rw [look, if_neg (Ne.symm apart.1), if_pos rfl, h.row, Option.map_map]
    rfl

theorem append (h : Relisted fixed t₀ t slot ids) {c : SlotId} (lt : c < t.size)
    (parent : t.parent? c = none) (apart : c ≠ slot ∧ ¬ fixed c) :
    Relisted fixed t₀ (t.append slot c) slot (ids ++ [c]) := by
  have look := slot?_append (Ne.symm apart.1) h.contains (decide_eq_true lt) parent
  refine ⟨h.here, h.bound, h.free, ?_, ?_, ?_⟩
  · rw [size_append]
    exact h.size_le
  · intro i mem
    have other : i ≠ c := fun eq => apart.2 (eq ▸ mem)
    have outside : i ≠ slot := fun eq => h.free (eq ▸ mem)
    rw [look, if_neg other, if_neg outside]
    exact h.same i mem
  · rw [look, if_neg (Ne.symm apart.1), if_pos rfl, h.row, Option.map_map]
    rfl

end Relisted

end SlotTree

namespace Body

variable {δ κ : Type} {B : Body δ κ} {fixed : SlotId → Prop} {t₀ t t' : SlotTree} {slot : SlotId}
  {w : World δ} {p : Option SlotId} {c : κ} {cs front back : List κ}

/-- A component that finds its slots as it left them, none of them fixed nor the slot around it. -/
structure Sound (B : Body δ κ) (fixed : SlotId → Prop) (t : SlotTree) (slot : SlotId)
    (p : Option SlotId) (c : κ) : Prop where
  fit : B.Fit t c
  parent : t.parent? (B.kind.slot c) = p
  inside : ∀ i ∈ B.own c, i ≠ slot ∧ ¬ fixed i

/-- Components that stand in one slot and share none of their own. -/
structure Members (B : Body δ κ) (fixed : SlotId → Prop) (t : SlotTree) (slot : SlotId)
    (cs : List κ) : Prop where
  each : ∀ c ∈ cs, B.Sound fixed t slot (some slot) c
  apart : cs.Pairwise fun c c' => (B.own c).Disjoint (B.own c')

/-- A component, in the slot `p` or in none, and others that stand in `slot`. -/
structure Beside (B : Body δ κ) (fixed : SlotId → Prop) (t : SlotTree) (slot : SlotId)
    (p : Option SlotId) (c : κ) (others : List κ) : Prop where
  sound : B.Sound fixed t slot p c
  apart : ∀ d ∈ others, (B.own c).Disjoint (B.own d)
  members : B.Members fixed t slot others

theorem Sound.slot_inside (h : B.Sound fixed t slot p c) :
    B.kind.slot c ≠ slot ∧ ¬ fixed (B.kind.slot c) :=
  h.inside _ (B.slot_mem_own h.fit)

theorem Members.nil : B.Members fixed t slot [] :=
  ⟨fun _ mem => absurd mem List.not_mem_nil, .nil⟩

theorem Members.perm (h : B.Members fixed t slot cs) {cs' : List κ} (perm : cs.Perm cs') :
    B.Members fixed t slot cs' := by
  refine ⟨fun c mem => h.each c (perm.mem_iff.mpr mem), ?_⟩
  apply (perm.pairwise_iff _).mp h.apart
  intro c c' apart i mem mem'
  exact apart mem' mem

theorem members_cons :
    B.Members fixed t slot (c :: cs) ↔ B.Beside fixed t slot (some slot) c cs := by
  constructor
  · rintro ⟨each, apart⟩
    obtain ⟨first, others⟩ := List.forall_mem_cons.mp each
    obtain ⟨apart, rest⟩ := List.pairwise_cons.mp apart
    exact ⟨first, apart, others, rest⟩
  · rintro ⟨first, apart, others, rest⟩
    exact ⟨List.forall_mem_cons.mpr ⟨first, others⟩, List.pairwise_cons.mpr ⟨apart, rest⟩⟩

theorem members_middle :
    B.Members fixed t slot (front ++ c :: back) ↔
      B.Beside fixed t slot (some slot) c (front ++ back) := by
  rw [← members_cons]
  exact ⟨fun h => h.perm List.perm_middle, fun h => h.perm List.perm_middle.symm⟩

theorem Members.congr (h : B.Members fixed t slot cs)
    (same : ∀ c ∈ cs, ∀ i ∈ B.own c, t'.slot? i = t.slot? i) : B.Members fixed t' slot cs := by
  refine ⟨?_, h.apart⟩
  intro c mem
  have sound := h.each c mem
  refine ⟨?_, ?_, sound.inside⟩
  · exact B.fit_congr sound.fit fun i own => SlotTree.seen_of_slot? (same c mem i own)
  · rw [SlotTree.parent?, same c mem _ (B.slot_mem_own sound.fit)]
    exact sound.parent

theorem Members.keeps {touched : SlotId → Prop} (h : B.Members fixed t slot cs)
    (keeps : t.Keeps touched t') (apart : ∀ c ∈ cs, ∀ i ∈ B.own c, ¬ touched i) :
    B.Members fixed t' slot cs :=
  h.congr fun c mem i own =>
    keeps.slot i (B.lt_size (h.each c mem).fit i own) (apart c mem i own)

/-- A rendered component stands where it stood, and has taken no slot of another. -/
theorem Beside.render (h : B.Beside fixed w.slots slot p c cs) (here : slot < w.slots.size)
    (bound : ∀ i, fixed i → i < w.slots.size) :
    B.Beside fixed ((B.kind.render c).run w).2.slots slot p ((B.kind.render c).run w).1.2 cs := by
  obtain ⟨⟨fit, parent, inside⟩, apart, members⟩ := h
  have keeps := B.render_keeps fit
  -- A slot that the render added lies beyond all that were there.
  refine ⟨⟨B.render_fit fit, ?_, ?_⟩, ?_, ?_⟩
  · rw [B.render_slot fit, B.render_parent fit]
    exact parent
  · intro i mem
    rcases B.render_own fit i mem with old | new
    · exact inside i old
    · exact ⟨fun eq => Nat.not_lt.mpr new (eq ▸ here),
        fun mem => Nat.not_lt.mpr new (bound i mem)⟩
  · intro d mem i own own'
    rcases B.render_own fit i own with old | new
    · exact apart d mem old own'
    · exact Nat.not_lt.mpr new (B.lt_size (members.each d mem).fit i own')
  · exact members.keeps keeps fun d mem i own touched => apart d mem touched own

/-- Appending a component that stands nowhere makes it one of those in the slot. -/
theorem Beside.append (h : B.Beside fixed t slot none c cs) (here : t.contains slot = true) :
    B.Beside fixed (t.append slot (B.kind.slot c)) slot (some slot) c cs := by
  obtain ⟨sound, apart, members⟩ := h
  have mem := B.slot_mem_own sound.fit
  have ne : slot ≠ B.kind.slot c := fun eq => sound.slot_inside.1 eq.symm
  have lt := B.lt_size sound.fit _ mem
  have look := SlotTree.slot?_append ne here (decide_eq_true lt) sound.parent
  refine ⟨⟨?_, ?_, sound.inside⟩, apart, ?_⟩
  · apply B.fit_congr sound.fit
    intro i own
    rw [SlotTree.seen, SlotTree.seen, look, if_neg (sound.inside i own).1]
    split
    · rw [Option.map_map]
      rfl
    · rfl
  · have found : B.kind.slot c < t.slots.size := lt
    rw [SlotTree.parent?, look, if_pos rfl]
    simp [SlotTree.slot?, found]
  · apply members.congr
    intro d mem' i own
    have other : i ≠ B.kind.slot c := fun eq => apart d mem' mem (eq ▸ own)
    rw [look, if_neg other, if_neg ((members.each d mem').inside i own).1]

/-- Components that stand in a slot, listed there in order; nothing that is fixed has changed. -/
structure Standing (B : Body δ κ) (fixed : SlotId → Prop) (t₀ t : SlotTree) (slot : SlotId)
    (cs : List κ) : Prop where
  listed : SlotTree.Relisted fixed t₀ t slot (cs.map B.kind.slot)
  members : B.Members fixed t slot cs

namespace Standing

theorem here (h : B.Standing fixed t₀ t slot cs) : slot < t.size :=
  Nat.lt_of_lt_of_le h.listed.here h.listed.size_le

theorem bound (h : B.Standing fixed t₀ t slot cs) (i : SlotId) (mem : fixed i) : i < t.size :=
  Nat.lt_of_lt_of_le (h.listed.bound i mem) h.listed.size_le

theorem render (h : B.Standing fixed t₀ w.slots slot (front ++ c :: back)) :
    B.Standing fixed t₀ ((B.kind.render c).run w).2.slots slot
      (front ++ ((B.kind.render c).run w).1.2 :: back) := by
  have beside := members_middle.mp h.members
  refine ⟨?_, members_middle.mpr (beside.render h.here h.bound)⟩
  have listed := h.listed.keeps (B.render_keeps beside.sound.fit) beside.sound.inside
  simp only [List.map_append, List.map_cons, B.render_slot beside.sound.fit] at listed ⊢
  exact listed

theorem create (h : B.Standing fixed t₀ w.slots slot cs) :
    B.Standing fixed t₀ (B.create.run w).2.slots slot cs ∧
      B.Beside fixed (B.create.run w).2.slots slot none (B.create.run w).1 cs := by
  have keeps := B.create_keeps w
  have members := h.members.keeps keeps fun _ _ _ _ touched => touched
  refine ⟨⟨h.listed.keeps keeps fun _ touched => touched.elim, members⟩, ?_, ?_, members⟩
  · refine ⟨B.create_fit w, B.create_parent w, ?_⟩
    intro i mem
    have new := B.create_own w i mem
    exact ⟨fun eq => Nat.not_lt.mpr new (eq ▸ h.here),
      fun mem => Nat.not_lt.mpr new (h.bound i mem)⟩
  · intro d mem i own own'
    exact Nat.not_lt.mpr (B.create_own w i own) (B.lt_size (h.members.each d mem).fit i own')

/-- Rendering a component that stands in no slot leaves the others standing. -/
theorem render_new (h : B.Standing fixed t₀ w.slots slot cs)
    (beside : B.Beside fixed w.slots slot none c cs) :
    B.Standing fixed t₀ ((B.kind.render c).run w).2.slots slot cs ∧
      B.Beside fixed ((B.kind.render c).run w).2.slots slot none ((B.kind.render c).run w).1.2
        cs := by
  have later := beside.render h.here h.bound
  exact ⟨⟨h.listed.keeps (B.render_keeps beside.sound.fit) beside.sound.inside, later.members⟩,
    later⟩

theorem append (h : B.Standing fixed t₀ t slot cs) (beside : B.Beside fixed t slot none c cs) :
    B.Standing fixed t₀ (t.append slot (B.kind.slot c)) slot (cs ++ [c]) := by
  have lt := B.lt_size beside.sound.fit _ (B.slot_mem_own beside.sound.fit)
  constructor
  · rw [List.map_append]
    exact h.listed.append lt beside.sound.parent beside.sound.slot_inside
  · rw [members_middle, List.append_nil]
    exact beside.append h.listed.contains

/-- A component that is destroyed leaves the slot, and the others stay. -/
theorem destroy (h : B.Standing fixed t₀ w.slots slot (front ++ c :: back)) :
    B.Standing fixed t₀ ((B.kind.destroy c).run w).2.slots slot (front ++ back) := by
  obtain ⟨sound, apart, members⟩ := members_middle.mp h.members
  have mem := B.slot_mem_own sound.fit
  have away : ∀ p ∈ B.own c, w.slots.parent? (B.kind.slot c) ≠ some p := by
    intro p own
    rw [sound.parent]
    intro eq
    exact (sound.inside p own).1 (Option.some.inj eq).symm
  have keeps := B.destroy_keeps sound.fit away
  have others : ∀ d ∈ front ++ back, B.kind.slot d ≠ B.kind.slot c := by
    intro d mem' eq
    exact apart d mem' mem (eq ▸ B.slot_mem_own (members.each d mem').fit)
  -- No other component stands in the slot that leaves, so the list loses one entry.
  have left : ((front ++ c :: back).map B.kind.slot).filter (· != B.kind.slot c) =
      (front ++ back).map B.kind.slot := by
    have kept : ((front ++ back).map B.kind.slot).filter (· != B.kind.slot c) =
        (front ++ back).map B.kind.slot := by
      rw [List.filter_eq_self]
      intro i listed
      obtain ⟨d, mem', rfl⟩ := List.mem_map.mp listed
      exact bne_iff_ne.mpr (others d mem')
    rw [← kept]
    simp
  constructor
  · rw [← left]
    exact (h.listed.delete sound.parent sound.slot_inside).keeps keeps sound.inside
  · have look := SlotTree.slot?_delete sound.parent (Ne.symm sound.slot_inside.1)
    have deleted : B.Members fixed (w.slots.delete (B.kind.slot c)) slot (front ++ back) := by
      apply members.congr
      intro d mem' i own
      have other : i ≠ B.kind.slot c := fun eq => apart d mem' mem (eq ▸ own)
      rw [look, if_neg other, if_neg ((members.each d mem').inside i own).1]
    exact deleted.keeps keeps fun d mem' i own touched => apart d mem' touched own

theorem destroyAll (h : B.Standing fixed t₀ w.slots slot (front ++ back)) :
    B.Standing fixed t₀ ((B.kind.destroyAll back).run w).2.slots slot front := by
  induction back generalizing w with
  | nil =>
    rw [List.append_nil] at h
    exact h
  | cons c back ih => exact ih h.destroy

/-- The slot around the components leaves its parent, which is none of their slots. -/
theorem leave (h : B.Standing fixed t₀ t slot cs)
    (outside : ∀ p, t₀.parent? slot = some p → p ≠ slot ∧ ∀ c ∈ cs, p ∉ B.own c) :
    B.Standing fixed (t₀.delete slot) (t.delete slot) slot cs := by
  cases parent : t₀.parent? slot with
  | none =>
    rw [SlotTree.delete_of_parent_none parent,
      SlotTree.delete_of_parent_none (h.listed.parent?.trans parent)]
    exact h
  | some p =>
    obtain ⟨ne, apart⟩ := outside p parent
    have look₀ := SlotTree.slot?_delete parent ne
    have look := SlotTree.slot?_delete (h.listed.parent?.trans parent) ne
    constructor
    · refine ⟨?_, ?_, h.listed.free, ?_, ?_, ?_⟩
      · rw [SlotTree.size_delete]
        exact h.listed.here
      · rw [SlotTree.size_delete]
        exact h.listed.bound
      · rw [SlotTree.size_delete, SlotTree.size_delete]
        exact h.listed.size_le
      · intro i mem
        rw [look, look₀, h.listed.same i mem]
      · rw [look, look₀, if_pos rfl, if_pos rfl, h.listed.row, Option.map_map, Option.map_map]
        rfl
    · apply h.members.congr
      intro c mem' i own
      have around := ((h.members.each c mem').inside i own).1
      have other : i ≠ p := fun eq => apart c mem' (eq ▸ own)
      rw [look, if_neg around, if_neg other]

/-- What stands still stands when other slots count as fixed, as long as none of them is a slot of
the components. -/
theorem rebase (h : B.Standing fixed t₀ t slot cs) {fixed' : SlotId → Prop}
    (bound : ∀ i, fixed' i → i < t.size) (free : ¬ fixed' slot)
    (apart : ∀ c ∈ cs, ∀ i ∈ B.own c, ¬ fixed' i) : B.Standing fixed' t t slot cs := by
  refine ⟨⟨h.here, bound, free, Nat.le_refl _, fun _ _ => rfl, ?_⟩, ?_, h.members.apart⟩
  · exact (SlotTree.map_children_eq h.listed.children).symm
  · intro c mem
    have sound := h.members.each c mem
    exact ⟨sound.fit, sound.parent, fun i own => ⟨(sound.inside i own).1, apart c mem i own⟩⟩

end Standing

end Body

end DirectiveTemplates.Live
