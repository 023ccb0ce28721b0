import DirectiveTemplates.Live.Conditional
import DirectiveTemplates.Live.ForEach
import DirectiveTemplates.Live.TextOutput
import DirectiveTemplates.Proofs.Live.Bodies
import DirectiveTemplates.Proofs.Live.Links

/-!
Actions that leave some slots alone. Slots are kept when nothing about them changes, so neither
they nor their children may be moved; what keeps to other slots keeps those, however often it is
rendered and whatever comes of it.
-/
namespace DirectiveTemplates.Live

variable {δ τ κ α β : Type}

namespace SlotTree

/-- Slots that are as they were in an earlier tree, in which they all were there. -/
structure Kept (kept : List SlotId) (t₀ t : SlotTree) : Prop where
  linked : t.Linked
  bound : ∀ i ∈ kept, i < t₀.size
  size_le : t₀.size ≤ t.size
  same : ∀ i ∈ kept, t.slot? i = t₀.slot? i

def Inner (kept : List SlotId) (t : SlotTree) (i : SlotId) : Prop :=
  i ∉ kept ∧ ∀ p ∈ kept, i ∉ t.children p

namespace Kept

variable {kept : List SlotId} {t₀ t : SlotTree} {i p : SlotId}

theorem refl (linked : t.Linked) (bound : ∀ i ∈ kept, i < t.size) : Kept kept t t :=
  ⟨linked, bound, Nat.le_refl _, fun _ _ => rfl⟩

theorem children (h : Kept kept t₀ t) (mem : p ∈ kept) : t.children p = t₀.children p := by
  rw [SlotTree.children, h.same p mem, SlotTree.children]

theorem inner_of_size_le (h : Kept kept t₀ t) (le : t.size ≤ i) : Inner kept t₀ i := by
  constructor
  · intro mem
    exact Nat.not_lt.mpr (Nat.le_trans h.size_le le) (h.bound i mem)
  · intro p mem listed
    rw [← h.children mem, h.linked.mem_children, parent?, slot?_eq_none le] at listed
    cases listed

theorem filter_children (h : Kept kept t₀ t) (inner : Inner kept t₀ i) (mem : p ∈ kept)
    {s : Slot} (found : t.slot? p = some s) : s.children.filter (· != i) = s.children := by
  have apart : i ∉ s.children := by
    have listed := inner.2 p mem
    rw [← h.children mem, SlotTree.children, found] at listed
    exact listed
  rw [List.filter_eq_self]
  intro j listed
  have other : j ≠ i := fun eq => apart (eq ▸ listed)
  exact bne_iff_ne.mpr other

theorem delete (h : Kept kept t₀ t) (inner : Inner kept t₀ i) : Kept kept t₀ (t.delete i) := by
  refine ⟨h.linked.delete i, h.bound, ?_, ?_⟩
  · rw [size_delete]
    exact h.size_le
  · intro p mem
    have other : p ≠ i := fun eq => inner.1 (eq ▸ mem)
    rw [h.linked.slot?_delete_eq, ← h.same p mem]
    cases found : t.slot? p with
    | none => rfl
    | some s =>
      rw [Option.map_some, if_neg other, h.filter_children inner mem found]

theorem append (h : Kept kept t₀ t) (free : p ∉ kept) (inner : Inner kept t₀ i) :
    Kept kept t₀ (t.append p i) := by
  refine ⟨h.linked.append p i, h.bound, ?_, ?_⟩
  · rw [size_append]
    exact h.size_le
  · intro q mem
    rw [← h.same q mem]
    by_cases refused : p = i ∨ (!t.contains p) = true ∨ (!t.contains i) = true
    · rw [SlotTree.append, if_pos refused]
    · obtain ⟨ne, hp, hi⟩ : p ≠ i ∧ t.contains p = true ∧ t.contains i = true := by
        simpa using refused
      have otherChild : q ≠ i := fun eq => inner.1 (eq ▸ mem)
      have otherParent : q ≠ p := fun eq => free (eq ▸ mem)
      rw [h.linked.slot?_append_eq ne hp hi]
      cases found : t.slot? q with
      | none => rfl
      | some s =>
        rw [Option.map_some, if_neg otherChild, if_neg otherParent,
          h.filter_children inner mem found, List.append_nil]

theorem setText (h : Kept kept t₀ t) (free : i ∉ kept) (value : String) :
    Kept kept t₀ (t.setText i value) := by
  refine ⟨h.linked.perform (.setText i value), h.bound, ?_, ?_⟩
  · rw [size_setText]
    exact h.size_le
  · intro p mem
    have other : p ≠ i := fun eq => free (eq ▸ mem)
    rw [slot?_setText_of_ne t other]
    exact h.same p mem

end Kept

end SlotTree

/-- An action that leaves the kept slots as they are and comes to a value like this. -/
def Confined (kept : List SlotId) (t₀ : SlotTree) (x : Act δ α) (post : α → Prop) : Prop :=
  ∀ w : World δ, SlotTree.Kept kept t₀ w.slots →
    SlotTree.Kept kept t₀ (x.run w).2.slots ∧ post (x.run w).1

namespace Confined

open SlotTree (Inner)

variable {kept : List SlotId} {t₀ : SlotTree} {x : Act δ α} {f : α → Act δ β}
  {post post' : α → Prop} {i p : SlotId}

theorem pure {a : α} (h : post a) : Confined kept t₀ (pure a : Act δ α) post := fun _ k => ⟨k, h⟩

theorem bind {post' : β → Prop} (first : Confined kept t₀ x post)
    (next : ∀ a, post a → Confined kept t₀ (f a) post') :
    Confined kept t₀ (x >>= f) post' := by
  intro w k
  obtain ⟨k, h⟩ := first w k
  exact next _ h _ k

theorem imp (h : Confined kept t₀ x post) (weaker : ∀ a, post a → post' a) :
    Confined kept t₀ x post' := fun w k => (h w k).imp id (weaker _)

theorem read (f : δ → α) : Confined kept t₀ (Act.read f) fun _ => True := fun _ k => ⟨k, trivial⟩

theorem change (f : δ → δ) : Confined kept t₀ (Act.change f) fun _ => True :=
  fun _ k => ⟨k, trivial⟩

theorem append (free : p ∉ kept) (inner : Inner kept t₀ i) :
    Confined (δ := δ) kept t₀ (Act.append p i) fun _ => True :=
  fun _ k => ⟨k.append free inner, trivial⟩

theorem delete (inner : Inner kept t₀ i) :
    Confined (δ := δ) kept t₀ (Act.delete i) fun _ => True := fun _ k => ⟨k.delete inner, trivial⟩

theorem setText (free : i ∉ kept) (value : String) :
    Confined (δ := δ) kept t₀ (Act.changeSlots (·.setText i value)) fun _ => True :=
  fun _ k => ⟨k.setText free value, trivial⟩

theorem ite {c : Prop} [Decidable c] {y : Act δ α} (yes : c → Confined kept t₀ x post)
    (no : ¬ c → Confined kept t₀ y post) : Confined kept t₀ (if c then x else y) post := by
  split
  · exact yes ‹_›
  · exact no ‹_›

end Confined

/-- An action that takes a slot out of its parent and then leaves the kept slots as they are. -/
def Leaves (kept : List SlotId) (t₀ : SlotTree) (slot : SlotId) (x : Act δ α) : Prop :=
  ∃ rest : Act δ α, x = (do Act.delete slot; rest) ∧ Confined kept t₀ rest fun _ => True

theorem Leaves.confined {kept : List SlotId} {t₀ : SlotTree} {i : SlotId} {x : Act δ α}
    (h : Leaves kept t₀ i x) (inner : t₀.Inner kept i) : Confined kept t₀ x fun _ => True := by
  obtain ⟨rest, rfl, confined⟩ := h
  exact (Confined.delete inner).bind fun _ _ => confined

theorem Leaves.map {kept : List SlotId} {t₀ : SlotTree} {i : SlotId} {x : Act δ α}
    (h : Leaves kept t₀ i x) (f : α → β) : Leaves kept t₀ i (do let a ← x; return f a) := by
  obtain ⟨rest, rfl, confined⟩ := h
  exact ⟨do let a ← rest; return f a, rfl, confined.bind fun _ _ => .pure trivial⟩

/-- Components that keep to inner slots in all that is done with them. -/
structure Kind.Confined (kept : List SlotId) (t₀ : SlotTree) (kind : Kind δ κ) (P : κ → Prop) :
    Prop where
  slot : ∀ c, P c → t₀.Inner kept (kind.slot c)
  render : ∀ c, P c → Live.Confined kept t₀ (kind.render c) fun r => P r.2
  destroy : ∀ c, P c → Live.Confined kept t₀ (kind.destroy c) fun _ => True

section Components

variable {kept : List SlotId} {t₀ : SlotTree} {kind : Kind δ κ} {P : κ → Prop} {create : Act δ κ}

namespace Group

variable {g : Group κ}

theorem confined_render {pass : Act δ (RenderResult × List κ)} {post : List κ → Prop}
    (before : post g.children) (h : Confined kept t₀ pass fun r => post r.2) :
    Confined kept t₀ (render g pass) fun r => r.2.base.slot = g.base.slot ∧
      (g.base.isDestroyed = false → r.2.base.isDestroyed = false) ∧ post r.2.children := by
  unfold render
  split
  · exact .pure ⟨rfl, id, before⟩
  · apply h.bind
    rintro ⟨result, children⟩ after
    cases result with
    | error e => exact .pure ⟨rfl, id, after⟩
    | ok _ => exact .pure ⟨rfl, fun _ => rfl, after⟩

theorem leaves_destroy {pass : Act δ (List κ)} (alive : g.base.isDestroyed = false)
    (h : Confined kept t₀ pass fun _ => True) : Leaves kept t₀ g.base.slot (destroy g pass) :=
  ⟨do
    let children ← pass
    return ⟨{ g.base with stage := .destroyed }, children⟩,
    destroy_of_alive alive pass, h.bind fun _ _ => .pure trivial⟩

end Group

namespace ForEach

variable {prepare : Nat → τ → Act δ Unit} {slot : SlotId} {b : ForEachBindings δ τ κ}
  {c : ForEach τ κ}

theorem confined_destroyAll (confined : kind.Confined kept t₀ P) (cs : List κ)
    (h : ∀ c ∈ cs, P c) : Confined kept t₀ (kind.destroyAll cs) fun _ => True := by
  induction cs with
  | nil => exact .pure trivial
  | cons c cs ih =>
    obtain ⟨first, others⟩ := List.forall_mem_cons.mp h
    exact (confined.destroy c first).bind fun _ _ => (ih others).bind fun _ _ => .pure trivial

theorem confined_reconcile (confined : kind.Confined kept t₀ P)
    (created : Confined kept t₀ create P)
    (prepared : ∀ i item, Confined kept t₀ (prepare i item) fun _ => True) (free : slot ∉ kept)
    (start : Nat) (items : List τ) (cs : List κ) (h : ∀ c ∈ cs, P c) :
    Confined kept t₀ (reconcile kind create prepare slot start items cs)
      fun r => ∀ c ∈ r.2, P c := by
  induction items generalizing start cs with
  | nil =>
    apply (confined_destroyAll confined cs h).bind
    intro _ _
    exact .pure fun c mem => absurd mem List.not_mem_nil
  | cons item items ih =>
    cases cs with
    | cons c cs =>
      obtain ⟨first, others⟩ := List.forall_mem_cons.mp h
      apply (prepared start item).bind
      intro _ _
      apply (confined.render c first).bind
      intro r here
      apply (ih (start + 1) cs others).bind
      intro later rest
      exact .pure (List.forall_mem_cons.mpr ⟨here, rest⟩)
    | nil =>
      apply (prepared start item).bind
      intro _ _
      apply created.bind
      intro c made
      apply (confined.render c made).bind
      intro r here
      apply (Confined.append free (confined.slot _ here)).bind
      intro _ _
      apply (ih (start + 1) [] fun c mem => absurd mem List.not_mem_nil).bind
      intro later rest
      exact .pure (List.forall_mem_cons.mpr ⟨here, rest⟩)

theorem confined_render (confined : kind.Confined kept t₀ P)
    (created : ∀ create ∈ b.body, Confined kept t₀ create P) (free : c.base.slot ∉ kept)
    (h : ∀ c' ∈ c.children, P c') :
    Confined kept t₀ (render kind b c) fun r => r.2.base.slot = c.base.slot ∧
      (c.base.isDestroyed = false → r.2.base.isDestroyed = false) ∧ ∀ c' ∈ r.2.children, P c' := by
  have unchanged (e : RenderError) : Confined kept t₀
      (pure (.error e, c) : Act δ (RenderResult × ForEach τ κ)) fun r =>
        r.2.base.slot = c.base.slot ∧
        (c.base.isDestroyed = false → r.2.base.isDestroyed = false) ∧ ∀ c' ∈ r.2.children, P c' :=
    .pure ⟨rfl, id, h⟩
  unfold render
  split
  · exact unchanged _
  · split
    · exact unchanged _
    · exact unchanged _
    · exact unchanged _
    · rename_i collection setElement create _ _ body
      have prepared (i : Nat) (item : τ) :
          Confined kept t₀ (setVariables setElement b.setIndex i item) fun _ => True := by
        apply (Confined.change (setElement item)).bind
        intro _ _
        cases b.setIndex with
        | some set => exact .change (set i)
        | none => exact .pure trivial
      apply (Confined.read collection).bind
      intro items _
      apply (confined_reconcile confined (created create body) prepared free 0 items c.children
        h).bind
      intro r children
      exact .pure ⟨rfl, fun _ => rfl, children⟩

theorem leaves_destroy (confined : kind.Confined kept t₀ P) (alive : c.base.isDestroyed = false)
    (h : ∀ c' ∈ c.children, P c') : Leaves kept t₀ c.base.slot (destroy kind c) := by
  refine ⟨do
    let _ ← kind.destroyAll c.children
    return { c with base := { c.base with stage := .destroyed }, children := [] }, ?_, ?_⟩
  · unfold destroy
    rw [alive]
    rfl
  · exact (confined_destroyAll confined c.children h).bind fun _ _ => .pure trivial

end ForEach

namespace Conditional

variable {b : ConditionalBindings δ κ} {c : Conditional κ}

theorem confined_render (confined : kind.Confined kept t₀ P)
    (created : ∀ create ∈ b.body, Confined kept t₀ create P) (free : c.base.slot ∉ kept)
    (h : ∀ child ∈ c.child, P child) :
    Confined kept t₀ (render kind b c) fun r => r.2.base.slot = c.base.slot ∧
      (c.base.isDestroyed = false → r.2.base.isDestroyed = false) ∧
      ∀ child ∈ r.2.child, P child := by
  have unchanged (e : RenderError) : Confined kept t₀
      (pure (.error e, c) : Act δ (RenderResult × Conditional κ)) fun r =>
        r.2.base.slot = c.base.slot ∧
        (c.base.isDestroyed = false → r.2.base.isDestroyed = false) ∧
        ∀ child ∈ r.2.child, P child :=
    .pure ⟨rfl, id, h⟩
  have none : ∀ child ∈ (none : Option κ), P child := nofun
  unfold render
  split
  · exact unchanged _
  · split
    · exact unchanged _
    · exact unchanged _
    · rename_i condition create _ body
      apply (Confined.read condition).bind
      intro holds _
      apply Confined.ite
      · intro _
        unfold appear
        split
        · rename_i child shown
          apply (confined.render child (h child shown)).bind
          intro r here
          split
          · exact .pure ⟨rfl, fun _ => rfl, fun child' same => Option.some.inj same ▸ here⟩
          · exact .pure ⟨rfl, id, fun child' same => Option.some.inj same ▸ here⟩
        · apply (created create body).bind
          intro child made
          apply (confined.render child made).bind
          intro r here
          split
          · apply (Confined.append free (confined.slot _ here)).bind
            intro _ _
            exact .pure ⟨rfl, fun _ => rfl, fun child' same => Option.some.inj same ▸ here⟩
          · exact unchanged _
      · intro _
        unfold vanish
        split
        · rename_i child shown
          apply (confined.destroy child (h child shown)).bind
          intro _ _
          exact .pure ⟨rfl, fun _ => rfl, none⟩
        · exact .pure ⟨rfl, fun _ => rfl, none⟩

theorem leaves_destroy (confined : kind.Confined kept t₀ P) (alive : c.base.isDestroyed = false)
    (h : ∀ child ∈ c.child, P child) : Leaves kept t₀ c.base.slot (destroy kind c) := by
  have emptied (base : Base) : Confined (δ := δ) kept t₀
      (pure (⟨base, none⟩ : Conditional κ)) fun _ => True := .pure trivial
  cases shown : c.child with
  | none =>
    refine ⟨pure ⟨{ c.base with stage := .destroyed }, none⟩, ?_, emptied _⟩
    unfold destroy
    rw [alive, shown]
    rfl
  | some child =>
    refine ⟨do
      let _ ← kind.destroy child
      return ⟨{ c.base with stage := .destroyed }, none⟩, ?_, ?_⟩
    · unfold destroy
      rw [alive, shown]
      rfl
    · exact (confined.destroy child (h child shown)).bind fun _ _ => emptied _

end Conditional

namespace TextOutput

variable {value : Option (δ → String)} {c : TextOutput}

theorem confined_render (free : c.text ∉ kept) :
    Confined kept t₀ (render value c) fun r => r.2.base.slot = c.base.slot ∧
      (c.base.isDestroyed = false → r.2.base.isDestroyed = false) ∧ r.2.text = c.text := by
  unfold render
  split
  · exact .pure ⟨rfl, id, rfl⟩
  · split
    · exact .pure ⟨rfl, id, rfl⟩
    · rename_i value
      apply (Confined.read value).bind
      intro text _
      apply (Confined.setText free text).bind
      intro _ _
      exact .pure ⟨rfl, fun _ => rfl, rfl⟩

theorem leaves_destroy (alive : c.base.isDestroyed = false) :
    Leaves kept t₀ c.base.slot (destroy c : Act δ TextOutput) := by
  refine ⟨pure { c with base := { c.base with stage := .destroyed } }, ?_, .pure trivial⟩
  unfold destroy
  rw [alive]
  rfl

end TextOutput

end Components

end DirectiveTemplates.Live
