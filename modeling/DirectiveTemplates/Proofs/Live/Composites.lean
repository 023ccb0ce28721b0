import DirectiveTemplates.Proofs.Live.Links
import DirectiveTemplates.Proofs.Live.Nesting

/-!
Composites over whole runs. Until a tree of them is destroyed each render passes over its leaves up
to the first that fails; destroying it reaches every node and takes its slot out of its parent,
though the slots around it have left theirs before.
-/
namespace DirectiveTemplates.Live

variable {δ κ : Type}

namespace SlotTree

variable {outer : SlotId → Prop} {t t' : SlotTree} {i j p : SlotId}

/-- A slot that stands in an outer slot or in none, and not in itself. No other outer slot lists
it. -/
structure Hung (outer : SlotId → Prop) (t : SlotTree) (i : SlotId) : Prop where
  parent : ∀ p, t.parent? i = some p → outer p ∧ p ≠ i
  listed : ∀ p, outer p → i ∈ t.children p → t.parent? i = some p

/-- A slot that stands in no slot, and that no outer slot lists. -/
structure Detached (outer : SlotId → Prop) (t : SlotTree) (i : SlotId) : Prop where
  parent : t.parent? i = none
  unlisted : ∀ p, outer p → i ∉ t.children p

theorem parent?_delete_self (ne : t.parent? i ≠ some i) : (t.delete i).parent? i = none := by
  cases parent : t.parent? i with
  | none =>
    rw [delete_of_parent_none parent]
    exact parent
  | some p =>
    have other : p ≠ i := fun eq => ne (eq ▸ parent)
    rw [parent?, slot?_delete parent other, if_pos rfl]
    cases t.slot? i <;> rfl

namespace Hung

theorem detached (h : Hung outer t i) (parent : t.parent? i = none) : Detached outer t i := by
  refine ⟨parent, fun p out mem => ?_⟩
  have found := h.listed p out mem
  rw [parent] at found
  cases found

theorem congr (h : Hung outer t i) (parent : t'.parent? i = t.parent? i)
    (children : ∀ p, outer p → t'.children p = t.children p) : Hung outer t' i := by
  constructor
  · rw [parent]
    exact h.parent
  · intro p out mem
    rw [children p out] at mem
    rw [parent]
    exact h.listed p out mem

theorem slot?_delete (h : Hung outer t j) (other : i ≠ j) (inner : ¬ outer i) :
    (t.delete j).slot? i = t.slot? i := by
  cases parent : t.parent? j with
  | none => rw [delete_of_parent_none parent]
  | some p =>
    obtain ⟨out, ne⟩ := h.parent p parent
    have around : i ≠ p := fun eq => inner (eq ▸ out)
    rw [SlotTree.slot?_delete parent ne, if_neg other, if_neg around]

theorem parent?_delete (h : Hung outer t j) (i : SlotId) :
    (t.delete j).parent? i = if i = j then none else t.parent? i := by
  split
  · rename_i eq
    rw [eq]
    exact parent?_delete_self fun self => (h.parent j self).2 rfl
  · rename_i other
    cases parent : t.parent? j with
    | none => rw [delete_of_parent_none parent]
    | some p =>
      obtain ⟨-, ne⟩ := h.parent p parent
      rw [parent?, SlotTree.slot?_delete parent ne, if_neg other, parent?]
      split
      · cases t.slot? i <;> rfl
      · rfl

theorem children_delete (h : Hung outer t j) (out : outer p) :
    (t.delete j).children p = (t.children p).filter (· != j) := by
  have stays : t.parent? j ≠ some p → (t.children p).filter (· != j) = t.children p := by
    intro apart
    rw [List.filter_eq_self]
    intro i mem
    have other : i ≠ j := fun eq => apart (h.listed p out (eq ▸ mem))
    exact bne_iff_ne.mpr other
  cases parent : t.parent? j with
  | none =>
    rw [stays (by rw [parent]; simp), delete_of_parent_none parent]
  | some q =>
    obtain ⟨-, ne⟩ := h.parent q parent
    rw [children, SlotTree.slot?_delete parent ne, children]
    by_cases isParent : p = q
    · have other : p ≠ j := isParent ▸ ne
      rw [if_neg other, if_pos isParent]
      cases t.slot? p <;> rfl
    · have same := stays (by rw [parent]; simpa using Ne.symm isParent)
      rw [children] at same
      rw [same, if_neg isParent]
      split
      · cases t.slot? p <;> rfl
      · rfl

theorem delete (h : Hung outer t i) (h' : Hung outer t j) : Hung outer (t.delete j) i := by
  constructor
  · intro p parent
    rw [h'.parent?_delete] at parent
    split at parent
    · cases parent
    · exact h.parent p parent
  · intro p out mem
    rw [h'.children_delete out] at mem
    obtain ⟨mem, ne⟩ := List.mem_filter.mp mem
    rw [h'.parent?_delete, if_neg (bne_iff_ne.mp ne)]
    exact h.listed p out mem

end Hung

end SlotTree

namespace Body

variable {B : Body δ κ} {outer : SlotId → Prop} {t t' : SlotTree} {bare : List SlotId}
  {c : κ} {cs cs' front : List κ} {w : World δ} {i : SlotId}

/-- A component that is destroyed stands in no slot any more. -/
def Detaching (B : Body δ κ) : Prop :=
  ∀ {w : World δ} {c : κ}, B.Fit w.slots c →
    (∀ p ∈ B.own c, w.slots.parent? (B.kind.slot c) ≠ some p) →
    ((B.kind.destroy c).run w).2.slots.parent? (B.kind.slot c) = none

/-- Components that share no slot with each other, and bare slots beside them, among outer slots
which belong to no component. -/
structure Arranged (B : Body δ κ) (outer : SlotId → Prop) (t : SlotTree) (bare : List SlotId)
    (cs : List κ) : Prop where
  bound : ∀ p, outer p → p < t.size
  here : ∀ i ∈ bare, i < t.size
  hung : ∀ i ∈ bare, t.Hung outer i
  free : ∀ i ∈ bare, ∀ c ∈ cs, i ∉ B.own c
  fit : ∀ c ∈ cs, B.Fit t c
  inner : ∀ c ∈ cs, ∀ i ∈ B.own c, ¬ outer i
  stand : ∀ c ∈ cs, t.Hung outer (B.kind.slot c)
  apart : cs.Pairwise fun c c' => (B.own c).Disjoint (B.own c')

namespace Arranged

theorem perm (h : B.Arranged outer t bare cs) (perm : cs.Perm cs') :
    B.Arranged outer t bare cs' where
  bound := h.bound
  here := h.here
  hung := h.hung
  free i mem c mem' := h.free i mem c (perm.mem_iff.mpr mem')
  fit c mem := h.fit c (perm.mem_iff.mpr mem)
  inner c mem := h.inner c (perm.mem_iff.mpr mem)
  stand c mem := h.stand c (perm.mem_iff.mpr mem)
  apart := by
    apply (perm.pairwise_iff _).mp h.apart
    intro c c' apart i mem mem'
    exact apart mem' mem

/-- The others stay arranged when a component counts no more but for its slot. -/
theorem leave (h : B.Arranged outer t bare (c :: cs)) :
    B.Arranged outer t (B.kind.slot c :: bare) cs := by
  have fit := h.fit c List.mem_cons_self
  have mem := B.slot_mem_own fit
  obtain ⟨apart, others⟩ := List.pairwise_cons.mp h.apart
  have later {d : κ} (mem : d ∈ cs) : d ∈ c :: cs := List.mem_cons_of_mem c mem
  refine ⟨h.bound, ?_, ?_, ?_, fun d mem => h.fit d (later mem), fun d mem => h.inner d (later mem),
    fun d mem => h.stand d (later mem), others⟩
  · exact List.forall_mem_cons.mpr ⟨B.lt_size fit _ mem, h.here⟩
  · exact List.forall_mem_cons.mpr ⟨h.stand c List.mem_cons_self, h.hung⟩
  · refine List.forall_mem_cons.mpr ⟨fun d mem' own => apart d mem' mem own, ?_⟩
    exact fun i mem d mem' => h.free i mem d (later mem')

/-- Nothing is rearranged when only slots change that are neither outer nor of a component, and
the bare slots stand where they stood. -/
theorem keeps {touched : SlotId → Prop} (h : B.Arranged outer t bare cs)
    (keeps : t.Keeps touched t') (outside : ∀ p, outer p → ¬ touched p)
    (apart : ∀ c ∈ cs, ∀ i ∈ B.own c, ¬ touched i)
    (parents : ∀ i ∈ bare, t'.parent? i = t.parent? i) : B.Arranged outer t' bare cs := by
  have children : ∀ p, outer p → t'.children p = t.children p := by
    intro p out
    rw [SlotTree.children, keeps.slot p (h.bound p out) (outside p out), SlotTree.children]
  have own : ∀ c ∈ cs, ∀ i ∈ B.own c, t'.slot? i = t.slot? i :=
    fun c mem i own => keeps.slot i (B.lt_size (h.fit c mem) i own) (apart c mem i own)
  refine ⟨fun p out => Nat.lt_of_lt_of_le (h.bound p out) keeps.size_le,
    fun i mem => Nat.lt_of_lt_of_le (h.here i mem) keeps.size_le,
    fun i mem => (h.hung i mem).congr (parents i mem) children, h.free, ?_, h.inner, ?_, h.apart⟩
  · intro c mem
    exact B.fit_congr (h.fit c mem) fun i mem' => SlotTree.seen_of_slot? (own c mem i mem')
  · intro c mem
    have same := own c mem _ (B.slot_mem_own (h.fit c mem))
    exact (h.stand c mem).congr (by rw [SlotTree.parent?, same, SlotTree.parent?]) children

theorem delete (h : B.Arranged outer t bare cs) (mem : i ∈ bare) :
    B.Arranged outer (t.delete i) bare cs := by
  have hung := h.hung i mem
  have own : ∀ c ∈ cs, ∀ j ∈ B.own c, (t.delete i).slot? j = t.slot? j := by
    intro c mem' j own
    have other : j ≠ i := fun eq => h.free i mem c mem' (eq ▸ own)
    exact hung.slot?_delete other (h.inner c mem' j own)
  refine ⟨?_, ?_, fun j mem' => (h.hung j mem').delete hung, h.free, ?_, h.inner,
    fun c mem' => (h.stand c mem').delete hung, h.apart⟩
  · rw [SlotTree.size_delete]
    exact h.bound
  · rw [SlotTree.size_delete]
    exact h.here
  · intro c mem'
    exact B.fit_congr (h.fit c mem') fun j mem => SlotTree.seen_of_slot? (own c mem' j mem)

/-- A component that is destroyed leaves a bare slot, which stands nowhere. -/
theorem destroy (detaching : B.Detaching) (h : B.Arranged outer w.slots bare (c :: cs)) :
    let r := (B.kind.destroy c).run w
    B.Arranged outer r.2.slots (B.kind.slot c :: bare) cs ∧
      r.2.slots.parent? (B.kind.slot c) = none ∧
      ∀ i ∈ bare, r.2.slots.parent? i = (w.slots.delete (B.kind.slot c)).parent? i := by
  intro r
  have first : c ∈ c :: cs := List.mem_cons_self
  have fit := h.fit c first
  have hung := h.stand c first
  have inner := h.inner c first
  have away : ∀ p ∈ B.own c, w.slots.parent? (B.kind.slot c) ≠ some p :=
    fun p own parent => inner p own (hung.parent p parent).1
  have keeps : (w.slots.delete (B.kind.slot c)).Keeps (· ∈ B.own c) r.2.slots :=
    B.destroy_keeps fit away
  have detached : r.2.slots.parent? (B.kind.slot c) = none := detaching fit away
  have parents : ∀ i ∈ bare,
      r.2.slots.parent? i = (w.slots.delete (B.kind.slot c)).parent? i := by
    intro i mem
    have lt : i < (w.slots.delete (B.kind.slot c)).size := by
      rw [SlotTree.size_delete]
      exact h.here i mem
    rw [SlotTree.parent?, keeps.slot i lt (h.free i mem c first), SlotTree.parent?]
  refine ⟨?_, detached, parents⟩
  have left := h.leave.delete List.mem_cons_self
  apply left.keeps keeps
  · exact fun p out own => inner p own out
  · intro d mem i own own'
    exact (List.pairwise_cons.mp h.apart).1 d mem own' own
  · refine List.forall_mem_cons.mpr ⟨?_, parents⟩
    rw [detached, hung.parent?_delete, if_pos rfl]

theorem render (h : B.Arranged outer w.slots bare (c :: cs)) :
    let r := (B.kind.render c).run w
    B.Arranged outer r.2.slots bare (r.1.2 :: cs) := by
  intro r
  have first : c ∈ c :: cs := List.mem_cons_self
  have fit := h.fit c first
  have keeps : w.slots.Keeps (· ∈ B.own c) r.2.slots := B.render_keeps fit
  have slot : B.kind.slot r.1.2 = B.kind.slot c := B.render_slot fit
  have own : ∀ i ∈ B.own r.1.2, i ∈ B.own c ∨ w.slots.size ≤ i := B.render_own fit
  have apart := (List.pairwise_cons.mp h.apart).1
  have rest : B.Arranged outer r.2.slots (B.kind.slot c :: bare) cs := by
    apply h.leave.keeps keeps
    · exact fun p out own => h.inner c first p own out
    · exact fun d mem i own own' => apart d mem own' own
    · refine List.forall_mem_cons.mpr ⟨B.render_parent fit, fun i mem => ?_⟩
      rw [SlotTree.parent?, keeps.slot i (h.here i mem) (h.free i mem c first), SlotTree.parent?]
  obtain ⟨hung, others⟩ := List.forall_mem_cons.mp rest.hung
  -- A slot that the render added lies beyond all that were there.
  refine ⟨rest.bound, fun i mem => rest.here i (List.mem_cons_of_mem _ mem), others, ?_, ?_, ?_,
    ?_, ?_⟩
  · intro i mem
    refine List.forall_mem_cons.mpr ⟨fun mem' => ?_, rest.free i (List.mem_cons_of_mem _ mem)⟩
    rcases own i mem' with old | new
    · exact h.free i mem c first old
    · exact Nat.not_lt.mpr new (h.here i mem)
  · exact List.forall_mem_cons.mpr ⟨B.render_fit fit, rest.fit⟩
  · refine List.forall_mem_cons.mpr ⟨fun i mem out => ?_, rest.inner⟩
    rcases own i mem with old | new
    · exact h.inner c first i old out
    · exact Nat.not_lt.mpr new (h.bound i out)
  · exact List.forall_mem_cons.mpr ⟨slot ▸ hung, rest.stand⟩
  · refine List.pairwise_cons.mpr ⟨fun d mem i own' own'' => ?_, rest.apart⟩
    rcases own i own' with old | new
    · exact apart d mem old own''
    · exact Nat.not_lt.mpr new (B.lt_size (h.fit d (List.mem_cons_of_mem _ mem)) i own'')

theorem visit (h : B.Arranged outer w.slots bare (front ++ cs)) :
    let visited := (B.kind.visit cs).run w
    let cs' := visited.1.map Prod.snd ++ cs.drop visited.1.length
    B.Arranged outer visited.2.slots bare (front ++ cs') ∧
      cs'.map B.kind.slot = cs.map B.kind.slot := by
  induction cs generalizing w front with
  | nil => exact ⟨h, rfl⟩
  | cons c cs ih =>
    have rendered := (h.perm List.perm_middle).render
    have slot : B.kind.slot ((B.kind.render c).run w).1.2 = B.kind.slot c :=
      B.render_slot (h.fit c (by simp))
    rw [Kind.run_visit_cons]
    dsimp only
    split
    · have next := rendered.perm List.perm_middle.symm
      rw [List.append_cons front] at next
      obtain ⟨later, slots⟩ := ih next
      rw [← List.append_cons] at later
      exact ⟨later, List.cons_eq_cons.mpr ⟨slot, slots⟩⟩
    · exact ⟨rendered.perm List.perm_middle.symm, congrArg (· :: cs.map B.kind.slot) slot⟩

/-- When nodes are destroyed one after another, every slot of theirs is detached at the end, and
those that were detached stay so. -/
theorem close (detaching : B.Detaching) (nodes : List (Base ⊕ κ))
    (h : B.Arranged outer w.slots bare (nodes.filterMap Sum.getRight?))
    (groups : ∀ b ∈ nodes.filterMap Sum.getLeft?, b.slot ∈ bare) :
    let t := ((nodes.mapM B.kind.close).run w).2.slots
    (∀ b ∈ nodes.filterMap Sum.getLeft?, t.Detached outer b.slot) ∧
      (∀ c ∈ nodes.filterMap Sum.getRight?, t.Detached outer (B.kind.slot c)) ∧
      ∀ i ∈ bare, w.slots.parent? i = none → t.Detached outer i := by
  induction nodes generalizing w bare with
  | nil =>
    refine ⟨fun b mem => absurd mem List.not_mem_nil, fun c mem => absurd mem List.not_mem_nil, ?_⟩
    exact fun i mem parent => (h.hung i mem).detached parent
  | cons node nodes ih =>
    rw [List.mapM_cons]
    cases node with
    | inl b =>
      obtain ⟨here, groups⟩ := List.forall_mem_cons.mp groups
      have hung := h.hung _ here
      obtain ⟨others, leaves, loose⟩ :=
        ih (w := { w with slots := w.slots.delete b.slot }) (h.delete here) groups
      refine ⟨List.forall_mem_cons.mpr ⟨loose _ here ?_, others⟩, leaves, ?_⟩
      · rw [hung.parent?_delete, if_pos rfl]
      · intro i mem parent
        apply loose i mem
        rw [hung.parent?_delete, parent]
        split <;> rfl
    | inr c =>
      obtain ⟨arranged, detached, parents⟩ := h.destroy detaching
      have hung := h.stand c List.mem_cons_self
      obtain ⟨others, leaves, loose⟩ :=
        ih arranged fun b mem => List.mem_cons_of_mem _ (groups b mem)
      refine ⟨others, List.forall_mem_cons.mpr ⟨loose _ List.mem_cons_self detached, leaves⟩, ?_⟩
      intro i mem parent
      apply loose i (List.mem_cons_of_mem _ mem)
      rw [parents i mem, hung.parent?_delete, parent]
      split <;> rfl

end Arranged

end Body

namespace Nested

variable {B : Body δ κ} {outer : SlotId → Prop} {t : SlotTree} {n n₀ : Nested κ} {w : World δ}

def Around (B : Body δ κ) (t : SlotTree) (n : Nested κ) (p : SlotId) : Prop :=
  p < t.size ∧ ∀ c ∈ n.leaves, p ∉ B.own c

/-- A tree with which nothing has happened yet. Its leaves share no slot with each other, and no
group is in a slot of theirs, nor does any node stand in one. -/
structure Placed (B : Body δ κ) (t : SlotTree) (n : Nested κ) : Prop where
  living : n.Living
  fit : ∀ c ∈ n.leaves, B.Fit t c
  apart : n.leaves.Pairwise fun c c' => (B.own c).Disjoint (B.own c')
  groups : ∀ b ∈ n.bases, n.Around B t b.slot
  group_parent : ∀ b ∈ n.bases, ∀ p ∈ t.parent? b.slot, n.Around B t p
  leaf_parent : ∀ c ∈ n.leaves, ∀ p ∈ t.parent? (B.kind.slot c), n.Around B t p

/-- What a tree is until it is destroyed: its nodes are in the slots in which they were. -/
structure Alive (B : Body δ κ) (outer : SlotId → Prop) (n n₀ : Nested κ) (t : SlotTree) : Prop where
  living : n.Living
  arranged : B.Arranged outer t (n.bases.map Base.slot) n.leaves
  groups : n.bases.map Base.slot = n₀.bases.map Base.slot
  leaves : n.leaves.map B.kind.slot = n₀.leaves.map B.kind.slot

/-- What a tree is once it was destroyed: no slot of its nodes stands anywhere. -/
structure Gone (B : Body δ κ) (outer : SlotId → Prop) (n n₀ : Nested κ) (t : SlotTree) : Prop where
  bases : n.bases = n₀.bases.map fun b => ⟨b.slot, .destroyed⟩
  groups : ∀ b ∈ n₀.bases, t.Detached outer b.slot
  leaves : ∀ c ∈ n₀.leaves, t.Detached outer (B.kind.slot c)

theorem Placed.alive (h : n.Placed B t) (linked : t.Linked) :
    n.Alive B (n.Around B t) n t := by
  have hung (i : SlotId) (parent : ∀ p, t.parent? i = some p → n.Around B t p) :
      t.Hung (n.Around B t) i :=
    ⟨fun p found => ⟨parent p found, fun eq => linked.irreflexive i (eq ▸ found)⟩,
      fun p _ mem => (linked.mem_children p i).mp mem⟩
  refine ⟨h.living, ?_, rfl, rfl⟩
  refine ⟨fun p out => out.1, ?_, ?_, ?_, h.fit, fun c mem i own out => out.2 c mem own,
    fun c mem => hung _ (h.leaf_parent c mem), h.apart⟩
  · exact List.forall_mem_map.mpr fun b mem => (h.groups b mem).1
  · exact List.forall_mem_map.mpr fun b mem => hung _ (h.group_parent b mem)
  · exact List.forall_mem_map.mpr fun b mem => (h.groups b mem).2

theorem Alive.render (h : n.Alive B outer n₀ w.slots) :
    let r := (render B.kind n).run w
    r.1.2.Alive B outer n₀ r.2.slots := by
  intro r
  obtain ⟨world, pass⟩ := passed_render B.kind n h.living w
  have row : B.Arranged outer w.slots (n.bases.map Base.slot) ([] ++ n.leaves) := h.arranged
  obtain ⟨arranged, slots⟩ := row.visit
  have groups : r.1.2.bases.map Base.slot = n.bases.map Base.slot := slots_render B.kind h.living w
  have leaves : r.1.2.leaves = _ := pass.leaves_eq
  have world : r.2 = _ := world
  refine ⟨living_render h.living w, ?_, groups.trans h.groups, ?_⟩
  · rw [groups, leaves, world]
    exact arranged
  · rw [leaves, slots]
    exact h.leaves

theorem Alive.destroy (detaching : B.Detaching) (h : n.Alive B outer n₀ w.slots) :
    let r := (destroy B.kind n).run w
    r.1.Gone B outer n₀ r.2.slots := by
  intro r
  have world : r.2 = _ := (run_destroy h.living w).2
  obtain ⟨groups, leaves, -⟩ := h.arranged.close detaching n.nodes
    (List.forall_mem_map.mp fun i mem => mem)
  have bases : r.1.bases = _ := bases_destroy h.living w
  have reach : ∀ i ∈ n₀.bases.map Base.slot, r.2.slots.Detached outer i := by
    rw [← h.groups, world]
    exact List.forall_mem_map.mpr groups
  have below : ∀ i ∈ n₀.leaves.map B.kind.slot, r.2.slots.Detached outer i := by
    rw [← h.leaves, world]
    exact List.forall_mem_map.mpr leaves
  refine ⟨?_, List.forall_mem_map.mp reach, List.forall_mem_map.mp below⟩
  have slots := congrArg (List.map fun i => (⟨i, .destroyed⟩ : Base)) h.groups
  rw [List.map_map, List.map_map] at slots
  exact bases.trans slots

theorem ended_of_destroyed {kind : Kind δ κ} {bases : List Base} (root : bases ≠ [])
    (gone : n.bases = bases.map fun b => ⟨b.slot, .destroyed⟩) : (component kind).Ended n := by
  cases n with
  | leaf c => exact absurd (List.map_eq_nil_iff.mp gone.symm) root
  | group base children =>
    cases bases with
    | nil => exact absurd rfl root
    | cons b bases =>
      have gone : base.isDestroyed = true := by
        rw [(List.cons.inj gone).1]
        rfl
      exact ⟨render_of_destroyed gone, destroy_of_destroyed gone⟩

/-! The labels over a run. -/

section Labels

variable {kind : Kind δ κ} {n : Nested (Nat × κ)} {w : World (δ × Notes)}

theorem ended_notes {γ : Type} {big : Kind (δ × Notes) γ} {c : γ} (h : big.Ended c)
    (events : List (Event δ)) (w : World (δ × Notes)) :
    ((big.performAll (events.map Event.beside) c).run w).2.data.2 = w.data.2 := by
  induction events generalizing w with
  | nil => rfl
  | cons e events ih =>
    cases e with
    | change f => exact ih { w with data := Prod.map f id w.data }
    | render =>
      rw [List.map_cons, Kind.performAll, Event.beside, Kind.perform, h.1]
      exact ih w
    | destroy =>
      rw [List.map_cons, Kind.performAll, Event.beside, Kind.perform, h.2]
      exact ih w

theorem notes_living (living : n.Living) (events : List (Event δ))
    (lives : Event.destroy ∉ events) :
    (((component kind.numbered).performAll (events.map Event.beside) n).run w).2.data.2 =
      w.data.2 := by
  induction events generalizing w n with
  | nil => rfl
  | cons e events ih =>
    have later : Event.destroy ∉ events := fun mem => lives (List.mem_cons_of_mem e mem)
    cases e with
    | change f => exact ih (w := { w with data := Prod.map f id w.data }) living later
    | render => exact (ih (living_render living w) later).trans (labels_render kind living w).2
    | destroy => exact absurd List.mem_cons_self lives

/-- A tree that is destroyed in a run destroys each of its leaves in order, and never again. -/
theorem notes_destroyed (root : n.bases ≠ []) (living : n.Living) (events : List (Event δ))
    (dies : Event.destroy ∈ events) :
    (((component kind.numbered).performAll (events.map Event.beside) n).run w).2.data.2 =
      { w.data.2 with destroyed := w.data.2.destroyed ++ n.leaves.map Prod.fst } := by
  induction events generalizing w n with
  | nil => cases dies
  | cons e events ih =>
    cases e with
    | change f =>
      have later : Event.destroy ∈ events := by simpa using dies
      exact ih (w := { w with data := Prod.map f id w.data }) root living later
    | render =>
      have later : Event.destroy ∈ events := by simpa using dies
      obtain ⟨labels, notes⟩ := labels_render kind living w
      have kept : ((render kind.numbered n).run w).1.2.bases ≠ [] := by
        intro none
        have groups := slots_render kind.numbered living w
        rw [none] at groups
        exact root (List.map_eq_nil_iff.mp groups.symm)
      have rest := ih (w := ((render kind.numbered n).run w).2) kept (living_render living w) later
      rw [labels, notes] at rest
      exact rest
    | destroy =>
      have ended : (component kind.numbered).Ended ((destroy kind.numbered n).run w).1 :=
        ended_of_destroyed root (bases_destroy living w)
      exact (ended_notes ended events _).trans (notes_destroy living w)

end Labels

/-- Over every run a tree of groups passes over its leaves in order, and destroys everything once.
Its leaves can be labelled without any other effect. Before the tree is destroyed a render visits
the leaves up to and including the first that fails and tells that error; a group that was reached
counts as rendered when no leaf below it failed, and the other groups stay as they were. Destroying
the tree destroys all groups and each leaf once, in order, and takes the slot of every node out of
its parent; afterwards nothing more happens. -/
theorem passes_until_destroyed (B : Body δ κ) (detaching : B.Detaching) (start : World δ)
    (linked : start.slots.Linked) (base : Base) (children : List (Nested (Nat × κ)))
    (placed : ((group base children).map Prod.snd).Placed B start.slots) (events : List (Event δ)) :
    let labelled := group base children
    let tree := labelled.map Prod.snd
    let run := ((component B.kind).performAll events tree).run start
    let n := run.1
    let w := run.2
    let noted := ((component B.kind.numbered).performAll (events.map Event.beside) labelled).run
      ⟨start.slots, (start.data, .none)⟩
    (noted.1.map Prod.snd, noted.2.plain) = (n, w) ∧
    (Event.destroy ∉ events →
      let visited := (B.kind.visit n.leaves).run w
      let results := visited.1.map Prod.fst
      let r := (n.render B.kind).run w
      r.1.1 = ForEach.firstFailure results ∧ r.2 = visited.2 ∧
        r.1.2.leaves = visited.1.map Prod.snd ++ n.leaves.drop visited.1.length ∧
        r.1.2.spans 0 = (n.spans 0).map (Span.after results) ∧
        noted.2.data.2.destroyed = []) ∧
    (Event.destroy ∈ events →
      n.bases = tree.bases.map (fun b => ⟨b.slot, .destroyed⟩) ∧
        noted.2.data.2.destroyed = labelled.leaves.map Prod.fst ∧
        (∀ b ∈ tree.bases, w.slots.Detached (tree.Around B start.slots) b.slot) ∧
        (∀ c ∈ tree.leaves, w.slots.Detached (tree.Around B start.slots) (B.kind.slot c)) ∧
        (component B.kind).Ended n) := by
  intro labelled tree run n w noted
  let outer := tree.Around B start.slots
  have alive : tree.Alive B outer tree start.slots := placed.alive linked
  have root : labelled.bases ≠ [] := List.cons_ne_nil _ _
  have treeRoot : tree.bases ≠ [] := List.cons_ne_nil _ _
  have living : labelled.Living := by
    intro b mem
    rw [← bases_map Prod.snd] at mem
    exact placed.living b mem
  have follows : (noted.1.map Prod.snd, noted.2.plain) = (n, w) :=
    (Follows.performAll follows_render follows_destroy events labelled
      ⟨start.slots, (start.data, Notes.none)⟩).symm
  refine ⟨follows, ?_, ?_⟩
  · intro lives visited results r
    have alive : n.Alive B outer tree w.slots :=
      Kind.performAll_living (P := fun n => Alive B outer n tree) Alive.render alive events lives
    obtain ⟨world, pass⟩ := passed_render B.kind n alive.living w
    refine ⟨pass.result_eq, world, pass.leaves_eq, pass.spans_eq 0, ?_⟩
    exact congrArg Notes.destroyed (notes_living living events lives)
  · intro dies
    have gone : n.Gone B outer tree w.slots :=
      Kind.performAll_destroyed (P := fun n => Alive B outer n tree)
        (Q := fun n => Gone B outer n tree) Alive.render (Alive.destroy detaching)
        (fun gone => ended_of_destroyed treeRoot (Gone.bases gone)) alive events dies
    refine ⟨gone.bases, ?_, gone.groups, gone.leaves, ended_of_destroyed treeRoot gone.bases⟩
    exact congrArg Notes.destroyed (notes_destroyed root living events dies)

/-- A group with a probe, beside two more probes of which the first fails. -/
def halted : List (Nested (Nat × Probe)) :=
  [group ⟨2, .fresh⟩ [leaf (0, ⟨0, ⟨3, .fresh⟩, true⟩)], leaf (1, ⟨1, ⟨4, .fresh⟩, true⟩),
    leaf (2, ⟨2, ⟨5, .fresh⟩, true⟩)]

/-- The slots of these, in a group in the slot 1, and the items that they show. -/
def bench : World Bench where
  slots := SlotTree.after [.create .container, .create .container, .append 0 1,
    .create .container, .create (.markup "[0]"), .append 2 3, .append 1 2,
    .create (.markup "[1]"), .append 1 4, .create (.markup "[2]"), .append 1 5]
  data := { leaves := ["a", "!b", "c"] }

theorem detaching_probes : Probe.body.Detaching := by
  intro w p fit away
  show ((Probe.destroy p).run w).2.slots.parent? p.base.slot = none
  rw [Probe.run_destroy fit.1]
  exact SlotTree.parent?_delete_self (away _ (List.mem_singleton.mpr rfl))

theorem passes_until_destroyed_halted :
    let tree := (group ⟨1, .fresh⟩ halted).map Prod.snd
    let r := (tree.render Probe.kind).run bench
    let gone := ((component Probe.kind).performAll [.render, .destroy] tree).run bench
    Probe.body.Detaching ∧ bench.slots.Linked ∧ tree.Placed Probe.body bench.slots ∧
      (Event.destroy : Event Bench) ∉ [] ∧
      r.1.1 = .error (.unknownDirective "!b") ∧
      r.1.2.bases = [⟨1, .fresh⟩, ⟨2, .rendered⟩] ∧
      gone.1.bases = [⟨1, .destroyed⟩, ⟨2, .destroyed⟩] ∧
      gone.2.slots.parent? 3 = none ∧ 3 ∉ gone.2.slots.children 2 := by
  intro tree r gone
  have linked : bench.slots.Linked := SlotTree.Linked.empty.foldl _
  have placed : tree.Placed Probe.body bench.slots := by
    constructor
    · show ∀ b ∈ tree.bases, b.isDestroyed = false
      decide
    · show ∀ c ∈ tree.leaves, c.base.isDestroyed = false ∧ c.base.slot < bench.slots.size
      decide
    · have slots : (tree.leaves.map fun c => c.base.slot).Nodup := by decide
      refine (List.pairwise_map.mp slots).imp ?_
      intro c c' ne i mem mem'
      exact ne ((List.mem_singleton.mp mem).symm.trans (List.mem_singleton.mp mem'))
    · simp only [Around]
      decide
    · simp only [Around]
      decide
    · simp only [Around]
      decide
  have lives : (Event.destroy : Event Bench) ∉ [] := List.not_mem_nil
  have passes := (passes_until_destroyed Probe.body detaching_probes bench linked ⟨1, .fresh⟩ halted
    placed []).2.1 lives
  have dies : Event.destroy ∈ [Event.render, (Event.destroy : Event Bench)] := by simp
  have left := (passes_until_destroyed Probe.body detaching_probes bench linked ⟨1, .fresh⟩ halted
    placed [.render, .destroy]).2.2 dies
  obtain ⟨result, -, -, spans, -⟩ := passes
  obtain ⟨bases, -, -, slots, -⟩ := left
  have detached := slots ⟨0, ⟨3, .fresh⟩, true⟩ (by decide)
  refine ⟨detaching_probes, linked, placed, lives, ?_, ?_, ?_, detached.parent, ?_⟩
  · exact result.trans (by decide +kernel)
  · have groups : r.1.2.bases = ((tree.spans 0).map _).map Span.base :=
      (map_base_spans _ 0).symm.trans (congrArg (List.map Span.base) spans)
    exact groups.trans (by decide +kernel)
  · exact bases.trans (by decide)
  · apply detached.unlisted
    simp only [Around]
    decide

end Nested

end DirectiveTemplates.Live
