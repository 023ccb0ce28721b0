import DirectiveTemplates.Proofs.Live.Reconciliation

/-!
Repetitions over whole runs. Until it is destroyed a repetition has a child for each item, listed in
its slot in order; afterwards it has none, and nothing can be done with it any more. No child is
lost on the way.
-/
namespace DirectiveTemplates.Live

variable {δ τ κ : Type}

def ForEachBindings.supplied (collection : δ → List τ) (setElement : τ → δ → δ)
    (setIndex : Option (Nat → δ → δ)) (create : Act δ κ) : ForEachBindings δ τ κ :=
  ⟨some collection, some setElement, setIndex, some create⟩

def ForEachBindings.numbered (b : ForEachBindings δ τ κ) :
    ForEachBindings (δ × Notes) τ (Nat × κ) where
  collection := b.collection.map fun f d => f d.1
  setElement := b.setElement.map fun set item => Prod.map (set item) id
  setIndex := b.setIndex.map fun set i => Prod.map (set i) id
  body := b.body.map Act.numbered

theorem ForEachBindings.numbered_supplied (collection : δ → List τ) (setElement : τ → δ → δ)
    (setIndex : Option (Nat → δ → δ)) (create : Act δ κ) :
    numbered (supplied collection setElement setIndex create) =
      supplied (fun d => collection d.1) (fun item => Prod.map (setElement item) id)
        (setIndex.map fun set i => Prod.map (set i) id) create.numbered := rfl

namespace ForEach

def component (kind : Kind δ κ) (b : ForEachBindings δ τ κ) : Kind δ (ForEach τ κ) :=
  ⟨fun c => c.base.slot, render kind b, destroy kind⟩

def fresh (slot : SlotId) : ForEach τ κ := ⟨⟨slot, .fresh⟩, [], []⟩

def plain (c : ForEach τ (Nat × κ)) : ForEach τ κ :=
  ⟨c.base, c.computed, c.children.map Prod.snd⟩

variable {kind : Kind δ κ} {collection : δ → List τ} {setElement : τ → δ → δ}
  {setIndex : Option (Nat → δ → δ)} {create : Act δ κ} {b : ForEachBindings δ τ κ}
  {c : ForEach τ κ}

theorem render_eq (alive : c.base.isDestroyed = false) :
    render kind (.supplied collection setElement setIndex create) c = (do
      let items ← Act.read collection
      let (result, children) ← reconcile kind create (setVariables setElement setIndex)
        c.base.slot 0 items c.children
      return (result, ⟨c.base.rendered, items, children⟩)) := by
  unfold render
  rw [alive]
  rfl

theorem render_eq_passes (alive : c.base.isDestroyed = false) (w : World δ) :
    (render kind (.supplied collection setElement setIndex create) c).run w =
      let items := collection w.data
      let done := (passes kind create (setVariables setElement setIndex) c.base.slot 0 items
        c.children).run w
      ((firstFailure (done.1.map Prod.fst), ⟨c.base.rendered, items, done.1.map Prod.snd⟩),
        done.2) := by
  rw [render_eq alive]
  simp only [reconcile_eq_passes, Act.run_bind, Act.run_read, Act.run_pure]

theorem destroy_eq (alive : c.base.isDestroyed = false) :
    destroy kind c = (do
      let base ← c.base.destroy
      let _ ← kind.destroyAll c.children
      return { c with base := base, children := [] }) := by
  unfold destroy
  rw [alive]
  rfl

theorem render_of_destroyed (gone : c.base.isDestroyed = true) :
    render kind b c = pure (.error .destroyed, c) := by
  unfold render
  rw [gone]
  rfl

theorem destroy_of_destroyed (gone : c.base.isDestroyed = true) : destroy kind c = pure c := by
  unfold destroy
  rw [gone]
  rfl

theorem ended_of_destroyed (gone : c.base.isDestroyed = true) : (component kind b).Ended c :=
  ⟨render_of_destroyed gone, destroy_of_destroyed gone⟩

/-! The slots. -/

section Slots

variable {B : Body δ κ} {start : SlotTree} {slot : SlotId} {w : World δ}

/-- Whatever slots are fixed, a render leaves them alone and the children in their slot. -/
theorem standing_render {fixed : SlotId → Prop} (alive : c.base.isDestroyed = false)
    (h : B.Standing fixed start w.slots c.base.slot c.children) :
    let r := (render B.kind (.supplied collection setElement setIndex B.create) c).run w
    r.1.2.base.slot = c.base.slot ∧ r.1.2.base.isDestroyed = false ∧
      B.Standing fixed start r.2.slots c.base.slot r.1.2.children := by
  have row : B.Standing fixed start w.slots c.base.slot ([] ++ c.children) := h
  rw [render_eq alive]
  exact ⟨rfl, rfl, standing_reconcile c.base.slot (slots_setVariables setElement setIndex) 0
    (collection w.data) row⟩

theorem standing_destroy {fixed : SlotId → Prop} (alive : c.base.isDestroyed = false)
    (h : B.Standing fixed start w.slots c.base.slot c.children)
    (outside : ∀ p, start.parent? c.base.slot = some p →
      p ≠ c.base.slot ∧ ∀ d ∈ c.children, p ∉ B.own d) :
    let r := (destroy B.kind c).run w
    r.1 = { c with base := { c.base with stage := .destroyed }, children := [] } ∧
      B.Standing fixed (start.delete c.base.slot) r.2.slots c.base.slot [] := by
  have row : B.Standing fixed (start.delete c.base.slot) (w.slots.delete c.base.slot)
      c.base.slot ([] ++ c.children) := h.leave outside
  rw [destroy_eq alive]
  exact ⟨rfl, row.destroyAll (w := ⟨w.slots.delete c.base.slot, w.data⟩)⟩

/-- A repetition before it is destroyed. Of the slots that were there at the start none has changed
but its own. -/
structure Alive (B : Body δ κ) (start : SlotTree) (slot : SlotId) (t : SlotTree)
    (c : ForEach τ κ) : Prop where
  slot_eq : c.base.slot = slot
  alive : c.base.isDestroyed = false
  standing : B.Standing (fun i => i < start.size ∧ i ≠ slot) start t slot c.children

/-- A repetition after it was destroyed. Its slot has left its parent and is empty. -/
structure Gone (start : SlotTree) (slot : SlotId) (t : SlotTree) (c : ForEach τ κ) : Prop where
  gone : c.base.isDestroyed = true
  children : c.children = []
  slots : ∀ i < start.size, t.slot? i = (start.delete slot).slot? i

theorem Alive.fresh (here : start.contains slot = true) (empty : start.children slot = []) :
    Alive B start slot start (fresh slot : ForEach τ κ) := by
  have lt : slot < start.size := of_decide_eq_true here
  have row : (start.slot? slot).map _ = start.slot? slot := SlotTree.map_children_eq empty
  exact ⟨rfl, rfl, ⟨lt, fun _ h => h.1, fun h => h.2 rfl, Nat.le_refl _, fun _ _ => rfl, row.symm⟩,
    .nil⟩

theorem Alive.render (h : Alive B start slot w.slots c) :
    let r := (render B.kind (.supplied collection setElement setIndex B.create) c).run w
    Alive B start slot r.2.slots r.1.2 := by
  obtain ⟨rfl, alive, standing⟩ := h
  obtain ⟨slot, alive, standing⟩ := standing_render alive standing
  exact ⟨slot, alive, standing⟩

theorem Alive.destroy (h : Alive B start slot w.slots c) (linked : start.Linked)
    (empty : start.children slot = []) :
    Gone start slot ((destroy B.kind c).run w).2.slots ((destroy B.kind c).run w).1 := by
  obtain ⟨rfl, alive, standing⟩ := h
  have outside : ∀ p, start.parent? c.base.slot = some p →
      p ≠ c.base.slot ∧ ∀ d ∈ c.children, p ∉ B.own d := by
    intro p parent
    have mem := (linked.mem_children p _).mpr parent
    have ne : p ≠ c.base.slot := fun eq => linked.irreflexive _ (eq ▸ parent)
    have lt : p < start.size := by
      rcases Nat.lt_or_ge p start.size with lt | le
      · exact lt
      · rw [SlotTree.children, SlotTree.slot?_eq_none le] at mem
        cases mem
    exact ⟨ne, fun d mem own => ((standing.members.each d mem).inside p own).2 ⟨lt, ne⟩⟩
  obtain ⟨gone, left⟩ := standing_destroy alive standing outside
  refine ⟨congrArg (·.base.isDestroyed) gone, congrArg ForEach.children gone, ?_⟩
  intro i lt
  -- The own slot was empty at the start, so leaving its parent is all that has happened to it.
  by_cases own : i = c.base.slot
  · have none : (start.delete c.base.slot).children c.base.slot = [] := by
      rw [linked.children_delete, empty, List.filter_nil]
    rw [own, ← SlotTree.map_children_eq none]
    exact left.listed.row
  · exact left.listed.same i ⟨lt, own⟩

theorem Alive.performAll (h : Alive B start slot w.slots c) (events : List (Event δ))
    (lives : Event.destroy ∉ events) :
    let r := ((component B.kind (.supplied collection setElement setIndex B.create)).performAll
      events c).run w
    Alive B start slot r.2.slots r.1 :=
  Kind.performAll_living (P := fun c t => Alive B start slot t c) Alive.render h events lives

/-- A repetition is gone after the first event that destroys it, whatever happens later. -/
theorem Alive.gone (h : Alive B start slot w.slots c) (linked : start.Linked)
    (empty : start.children slot = []) (events : List (Event δ)) (dies : Event.destroy ∈ events) :
    let r := ((component B.kind (.supplied collection setElement setIndex B.create)).performAll
      events c).run w
    Gone start slot r.2.slots r.1 :=
  Kind.performAll_destroyed (P := fun c t => Alive B start slot t c)
    (Q := fun c t => Gone start slot t c) Alive.render (fun alive => alive.destroy linked empty)
    (fun gone => ended_of_destroyed gone.gone) h events dies

end Slots

/-! Repetitions as the components of a body. -/

section Nested

variable (B : Body δ κ)

def makeFresh : Act δ (ForEach τ κ) := do
  let slot ← Act.newSlot .container
  return fresh slot

def own (c : ForEach τ κ) : List SlotId := c.base.slot :: c.children.flatMap B.own

/-- A repetition that is not destroyed, with all children in its slot. -/
structure Fit (t : SlotTree) (c : ForEach τ κ) : Prop where
  alive : c.base.isDestroyed = false
  standing : B.Standing (fun _ => False) t t c.base.slot c.children

variable {B} {t t' : SlotTree} {w : World δ} {c : ForEach τ κ}

theorem mem_own {i : SlotId} : i ∈ own B c ↔ i = c.base.slot ∨ ∃ d ∈ c.children, i ∈ B.own d := by
  simp [own]

theorem Fit.lt_size (h : Fit B t c) (i : SlotId) (mem : i ∈ own B c) : i < t.size := by
  rcases mem_own.mp mem with rfl | ⟨d, mem, own⟩
  · exact h.standing.here
  · exact B.lt_size (h.standing.members.each d mem).fit i own

theorem Fit.congr (h : Fit B t c)
    (same : ∀ i ∈ own B c, t'.seen c.base.slot i = t.seen c.base.slot i) : Fit B t' c := by
  have around := same c.base.slot (mem_own.mpr (Or.inl rfl))
  have inner : ∀ d ∈ c.children, ∀ i ∈ B.own d, t'.slot? i = t.slot? i := by
    intro d mem i own
    have other := ((h.standing.members.each d mem).inside i own).1
    have seen := same i (mem_own.mpr (Or.inr ⟨d, mem, own⟩))
    simpa [SlotTree.seen, other] using seen
  have children : t'.children c.base.slot = t.children c.base.slot := by
    have eq := congrArg (fun s : Option Slot => (s.map Slot.children).getD []) around
    simpa [SlotTree.seen, SlotTree.children, Function.comp_def] using eq
  have listed := h.standing.listed
  refine ⟨h.alive, ⟨SlotTree.lt_size_of_seen listed.here around, fun _ => False.elim, id,
    Nat.le_refl _, fun _ _ => rfl, ?_⟩, h.standing.members.congr inner⟩
  exact (SlotTree.map_children_eq (children.trans listed.children)).symm

/-- What a repetition does not own counts as fixed. -/
theorem Fit.fixed (h : Fit B t c) :
    B.Standing (fun i => i < t.size ∧ i ∉ own B c) t t c.base.slot c.children := by
  apply h.standing.rebase
  · exact fun i fixed => fixed.1
  · exact fun fixed => fixed.2 (mem_own.mpr (Or.inl rfl))
  · exact fun d mem i own fixed => fixed.2 (mem_own.mpr (Or.inr ⟨d, mem, own⟩))

theorem Fit.made (t : SlotTree) :
    Fit B (t.create .container).2 (fresh t.size : ForEach τ κ) := by
  have lt : t.size < (t.create .container).2.size := by
    rw [SlotTree.size_create]
    exact Nat.lt_succ_self _
  have children : (t.create .container).2.children t.size = [] := by
    rw [SlotTree.children, SlotTree.slot?_create, if_pos rfl]
    rfl
  exact ⟨rfl, ⟨lt, fun _ => False.elim, id, Nat.le_refl _, fun _ _ => rfl,
    (SlotTree.map_children_eq children).symm⟩, .nil⟩

variable (collection : δ → List τ) (setElement : τ → δ → δ) (setIndex : Option (Nat → δ → δ))

theorem Fit.render (h : Fit B w.slots c) :
    let r := (render B.kind (.supplied collection setElement setIndex B.create) c).run w
    r.1.2.base.slot = c.base.slot ∧ r.1.2.base.isDestroyed = false ∧
      B.Standing (fun i => i < w.slots.size ∧ i ∉ own B c) w.slots r.2.slots c.base.slot
        r.1.2.children :=
  standing_render h.alive h.fixed

variable (B)

/-- Repetitions of one body, each made in a slot of its own, keep to their slots as well. -/
def body : Body δ (ForEach τ κ) where
  kind := component B.kind (.supplied collection setElement setIndex B.create)
  create := makeFresh
  own := own B
  Fit := Fit B
  slot_mem_own _ := mem_own.mpr (Or.inl rfl)
  lt_size := Fit.lt_size
  fit_congr := Fit.congr
  create_keeps w := w.slots.keeps_create .container
  create_own w i mem := by
    rcases mem_own.mp mem with rfl | ⟨d, mem, _⟩
    · exact Nat.le_refl _
    · cases mem
  create_parent w := by
    show (w.slots.create .container).2.parent? w.slots.size = none
    rw [SlotTree.parent?, SlotTree.slot?_create, if_pos rfl]
    rfl
  create_fit w := Fit.made w.slots
  render_slot h := (h.render collection setElement setIndex).1
  render_keeps h :=
    have listed := (h.render collection setElement setIndex).2.2.listed
    ⟨listed.size_le, fun i lt out => listed.same i ⟨lt, out⟩⟩
  render_own {w c} h i mem := by
    obtain ⟨slot, -, standing⟩ := h.render collection setElement setIndex
    rcases mem_own.mp mem with rfl | ⟨d, mem, own⟩
    · exact Or.inl (mem_own.mpr (Or.inl slot))
    · have free := ((standing.members.each d mem).inside i own).2
      by_cases old : i ∈ ForEach.own B c
      · exact Or.inl old
      · exact Or.inr (Nat.le_of_not_lt fun lt => free ⟨lt, old⟩)
  render_parent h := (h.render collection setElement setIndex).2.2.listed.parent?
  render_fit h := by
    obtain ⟨slot, alive, standing⟩ := h.render collection setElement setIndex
    exact ⟨alive, slot ▸ standing.rebase (fun _ => False.elim) id fun _ _ _ _ => id⟩
  destroy_keeps {w c} h away := by
    have outside : ∀ p, w.slots.parent? c.base.slot = some p →
        p ≠ c.base.slot ∧ ∀ d ∈ c.children, p ∉ B.own d := by
      intro p parent
      have out : p ∉ own B c := fun mem => away p mem parent
      exact ⟨fun eq => out (mem_own.mpr (Or.inl eq)),
        fun d mem own => out (mem_own.mpr (Or.inr ⟨d, mem, own⟩))⟩
    have listed := (standing_destroy h.alive h.fixed outside).2.listed
    refine ⟨listed.size_le, fun i lt out => listed.same i ⟨?_, out⟩⟩
    rw [SlotTree.size_delete] at lt
    exact lt

end Nested

/-! The numbers of the children. -/

section Numbers

variable {w : World (δ × Notes)} {c : ForEach τ (Nat × κ)}

theorem follows_setVariables (i : Nat) (item : τ) :
    Follows (setVariables (fun item => Prod.map (setElement item) (id : Notes → Notes))
      (setIndex.map fun set i => Prod.map (set i) id) i item) id
      (setVariables setElement setIndex i item) := by
  cases setIndex <;> exact fun _ => rfl

theorem notes_setVariables (setElement : τ → δ → δ) (setIndex : Option (Nat → δ → δ)) (i : Nat)
    (item : τ) (w : World (δ × Notes)) :
    ((setVariables (fun item => Prod.map (setElement item) id)
      (setIndex.map fun set i => Prod.map (set i) id) i item).run w).2.data.2 = w.data.2 := by
  cases setIndex <;> rfl

theorem follows_render (c : ForEach τ (Nat × κ)) :
    Follows (render kind.numbered (ForEachBindings.numbered
        (.supplied collection setElement setIndex create)) c) (Prod.map id plain)
      (render kind (.supplied collection setElement setIndex create) (plain c)) := by
  cases alive : c.base.isDestroyed with
  | true =>
    have gone : (plain c).base.isDestroyed = true := alive
    rw [render_of_destroyed alive, render_of_destroyed gone]
    exact .pure _ (Except.error RenderError.destroyed, c)
  | false =>
    have alive' : (plain c).base.isDestroyed = false := alive
    rw [ForEachBindings.numbered_supplied, render_eq alive, render_eq alive']
    apply (Follows.read collection).bind
    intro items
    apply (follows_reconcile kind create c.base.slot follows_setVariables 0 items c.children).bind
    rintro ⟨result, children⟩
    exact .pure (Prod.map id plain) (result, ⟨c.base.rendered, items, children⟩)

theorem follows_destroy (c : ForEach τ (Nat × κ)) :
    Follows (destroy kind.numbered c) plain (destroy kind (plain c)) := by
  cases alive : c.base.isDestroyed with
  | true =>
    have gone : (plain c).base.isDestroyed = true := alive
    rw [destroy_of_destroyed alive, destroy_of_destroyed gone]
    exact .pure plain c
  | false =>
    have alive' : (plain c).base.isDestroyed = false := alive
    rw [destroy_eq alive, destroy_eq alive']
    apply (Follows.destroyBase c.base).bind
    intro base
    apply (Follows.destroyAll kind c.children).bind
    intro _
    exact .pure plain { c with base := base, children := [] }

theorem follows_performAll (events : List (Event δ)) (c : ForEach τ (Nat × κ)) :
    Follows ((component kind.numbered (ForEachBindings.numbered
        (.supplied collection setElement setIndex create))).performAll
          (events.map Event.beside) c) plain
      ((component kind (.supplied collection setElement setIndex create)).performAll events
        (plain c)) :=
  Follows.performAll follows_render follows_destroy events c

/-- Keeping some children, making new ones and destroying the others loses none. -/
theorem account_reconcile {n : Notes} {owned : List Nat} (h : n.Account owned) (kept new : Nat) :
    Notes.Account ⟨n.created + new, n.destroyed ++ owned.drop kept⟩
      (owned.take kept ++ List.range' n.created new) := by
  have range : List.range (n.created + new) =
      List.range n.created ++ List.range' n.created new := by
    have parts := List.range'_append_1 (s := 0) (m := n.created) (n := new)
    rw [Nat.zero_add] at parts
    rw [List.range_eq_range', List.range_eq_range', parts]
  have moved : ((owned.take kept ++ List.range' n.created new) ++
      (n.destroyed ++ owned.drop kept)).Perm
      ((owned ++ n.destroyed) ++ List.range' n.created new) := by
    rw [List.perm_iff_count]
    intro number
    have parts : (owned.take kept).count number + (owned.drop kept).count number =
        owned.count number := by
      rw [← List.count_append, List.take_append_drop]
    simp only [List.count_append]
    omega
  rw [Notes.Account, range]
  exact moved.trans (h.append_right _)

theorem account_render (h : w.data.2.Account (c.children.map Prod.fst)) :
    let r := (render kind.numbered (ForEachBindings.numbered
      (.supplied collection setElement setIndex create)) c).run w
    r.2.data.2.Account (r.1.2.children.map Prod.fst) := by
  intro r
  cases alive : c.base.isDestroyed with
  | true =>
    have same : r = ((.error .destroyed, c), w) := by
      simp only [r, render_of_destroyed alive, Act.run_pure]
    rw [same]
    exact h
  | false =>
    obtain ⟨numbers, notes⟩ := numbers_reconcile kind create c.base.slot
      (notes_setVariables setElement setIndex) 0 (collection w.data.1) c.children w
    have account := account_reconcile h (collection w.data.1).length
      ((collection w.data.1).length - c.children.length)
    rw [← numbers, ← notes] at account
    simp only [r, ForEachBindings.numbered_supplied, render_eq alive]
    exact account

/-- Destroying a repetition destroys its children, each of them once and in order. -/
theorem notes_destroy (alive : c.base.isDestroyed = false) (w : World (δ × Notes)) :
    ((destroy kind.numbered c).run w).2.data.2 =
      { w.data.2 with destroyed := w.data.2.destroyed ++ c.children.map Prod.fst } := by
  rw [destroy_eq alive]
  exact kind.notes_destroyAll (c.base.destroy.run w).2 c.children

theorem account_destroy (h : w.data.2.Account (c.children.map Prod.fst)) :
    let r := (destroy kind.numbered c).run w
    r.2.data.2.Account (r.1.children.map Prod.fst) := by
  intro r
  cases alive : c.base.isDestroyed with
  | true =>
    have same : r = (c, w) := by simp only [r, destroy_of_destroyed alive, Act.run_pure]
    rw [same]
    exact h
  | false =>
    have none : r.1.children = [] := by
      simp only [r, destroy_eq alive]
      rfl
    rw [none, notes_destroy alive]
    have all : (w.data.2.destroyed ++ c.children.map Prod.fst).Perm
        (List.range w.data.2.created) := List.perm_append_comm.trans h
    exact all

/-- At every time each child that was ever made is a child or was destroyed, once. -/
theorem account_performAll (h : w.data.2.Account (c.children.map Prod.fst))
    (events : List (Event δ)) :
    let r := ((component kind.numbered (ForEachBindings.numbered
      (.supplied collection setElement setIndex create))).performAll
        (events.map Event.beside) c).run w
    r.2.data.2.Account (r.1.children.map Prod.fst) := by
  induction events generalizing w c with
  | nil => exact h
  | cons e events ih =>
    cases e with
    | change f => exact ih (w := ⟨w.slots, Prod.map f id w.data⟩) h
    | render => exact ih (account_render h)
    | destroy => exact ih (account_destroy h)

end Numbers

/-- Over every run a repetition reconciles its children by position. Its children can be numbered
without any other effect, and then each of them is one of its children or was destroyed, once.
Before it is destroyed a render goes over the items in order, for those with a child first and for
the others with a new one each, destroys the children that are left over and tells the first
error; then the slot lists a child for each item. Destroying it destroys all its children and takes
its slot out of its parent, and afterwards nothing more happens. -/
theorem reconciles (B : Body δ κ) (collection : δ → List τ) (setElement : τ → δ → δ)
    (setIndex : Option (Nat → δ → δ)) (start : World δ) {slot : SlotId}
    (linked : start.slots.Linked) (here : start.slots.contains slot = true)
    (empty : start.slots.children slot = []) (events : List (Event δ)) :
    let b := ForEachBindings.supplied collection setElement setIndex B.create
    let run := ((component B.kind b).performAll events (fresh slot)).run start
    let c := run.1
    let w := run.2
    let noted := ((component B.kind.numbered b.numbered).performAll (events.map Event.beside)
      (fresh slot)).run ⟨start.slots, (start.data, .none)⟩
    (plain noted.1, noted.2.plain) = (c, w) ∧
    noted.2.data.2.Account (noted.1.children.map Prod.fst) ∧
    (Event.destroy ∉ events →
      let items := collection w.data
      let done := (passes B.kind B.create (setVariables setElement setIndex) slot 0 items
        c.children).run w
      (c.render B.kind b).run w =
          ((firstFailure (done.1.map Prod.fst),
            ⟨⟨slot, .rendered⟩, items, done.1.map Prod.snd⟩), done.2) ∧
        done.1.length = items.length ∧
        done.2.slots.children slot = done.1.map (fun r => B.kind.slot r.2) ∧
        ((noted.1.destroy B.kind.numbered).run noted.2).2.data.2.destroyed =
          noted.2.data.2.destroyed ++ noted.1.children.map Prod.fst) ∧
    (Event.destroy ∈ events →
      c.children = [] ∧
        (∀ i < start.slots.size, w.slots.slot? i = (start.slots.delete slot).slot? i) ∧
        (component B.kind b).Ended c) := by
  intro b run c w noted
  have alive : Alive B start.slots slot start.slots (fresh slot : ForEach τ κ) :=
    .fresh here empty
  have follows : (plain noted.1, noted.2.plain) = (c, w) :=
    (follows_performAll events (fresh slot) ⟨start.slots, (start.data, .none)⟩).symm
  refine ⟨follows, account_performAll Notes.account_none events, ?_, ?_⟩
  · intro lives items done
    have alive : Alive B start.slots slot w.slots c := alive.performAll events lives
    have base : c.base.rendered = ⟨slot, .rendered⟩ := by rw [Base.rendered, alive.slot_eq]
    have rendered : (c.render B.kind b).run w = ((firstFailure (done.1.map Prod.fst),
        ⟨⟨slot, .rendered⟩, items, done.1.map Prod.snd⟩), done.2) := by
      rw [← base]
      simp only [done, ← alive.slot_eq]
      exact render_eq_passes alive.alive w
    have after : Alive B start.slots slot ((c.render B.kind b).run w).2.slots
        ((c.render B.kind b).run w).1.2 := alive.render
    have length := length_reconcile B.kind B.create (setVariables setElement setIndex) slot 0 items
      c.children w
    have notedAlive : noted.1.base.isDestroyed = false := by
      have same : noted.1.base = c.base := congrArg (·.1.base) follows
      rw [same]
      exact alive.alive
    refine ⟨rendered, ?_, ?_, congrArg Notes.destroyed (notes_destroy notedAlive noted.2)⟩
    · rw [reconcile_eq_passes, Act.run_bind, Act.run_pure, List.length_map] at length
      exact length
    · rw [rendered] at after
      have listed := after.standing.listed.children
      rw [List.map_map] at listed
      exact listed
  · intro dies
    have gone : Gone start.slots slot w.slots c := alive.gone linked empty events dies
    exact ⟨gone.children, gone.slots, ended_of_destroyed gone.gone⟩

/-- Repetitions of probes, one for each item and each position. -/
def probes : Body Bench (ForEach String Probe) :=
  body Probe.body (·.items) (fun item b => { b with item := item })
    (some fun i b => { b with index := i })

/-- An item of the outer repetition gives the inner one two items, the second of which fails. -/
def halves (item : String) (b : Bench) : Bench := { b with items := [item, "!" ++ item] }

/-- A slot inside another one, and nothing to show yet. -/
def bench : World Bench :=
  ⟨SlotTree.after [.create .container, .create .container, .append 0 1], {}⟩

def shrinking : List (Event Bench) :=
  [.change fun b => { b with leaves := ["a", "b", "c"] }, .render,
    .change fun b => { b with leaves := ["d"] }]

theorem reconciles_shrinking :
    let outer := component probes.kind (.supplied Bench.leaves halves none probes.create)
    let run := (outer.performAll shrinking (fresh 1)).run bench
    let last := (outer.performAll (shrinking ++ [.destroy]) (fresh 1)).run bench
    bench.slots.Linked ∧ bench.slots.contains 1 = true ∧ bench.slots.children 1 = [] ∧
      Event.destroy ∉ shrinking ∧
      run.2.slots.children 1 = [2, 5, 8] ∧
      ((outer.render run.1).run run.2).1.1 = .error (.unknownDirective "!d") ∧
      ((outer.render run.1).run run.2).2.slots.children 1 = [2] ∧
      last.1.children = [] ∧ last.2.slots.parent? 1 = none := by
  have linked : bench.slots.Linked := SlotTree.Linked.empty.foldl _
  have here : bench.slots.contains 1 = true := by decide
  have empty : bench.slots.children 1 = [] := by decide
  have lives : Event.destroy ∉ shrinking := by simp [shrinking]
  have kept := (reconciles probes Bench.leaves halves none bench linked here empty
    shrinking).2.2.1 lives
  have dies : Event.destroy ∈ shrinking ++ [Event.destroy] := by simp
  have left := (reconciles probes Bench.leaves halves none bench linked here empty
    (shrinking ++ [.destroy])).2.2.2 dies
  dsimp only [component] at kept left ⊢
  obtain ⟨rendered, -, listed, -⟩ := kept
  obtain ⟨alone, slots, -⟩ := left
  refine ⟨linked, here, empty, lives, ?_, ?_, ?_, alone, ?_⟩
  · decide +kernel
  · rw [rendered]
    decide +kernel
  · rw [rendered, listed]
    decide +kernel
  · rw [SlotTree.parent?, slots 1 (by decide)]
    decide

end ForEach

end DirectiveTemplates.Live
