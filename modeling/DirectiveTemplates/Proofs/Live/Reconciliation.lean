import DirectiveTemplates.Live.ForEach
import DirectiveTemplates.Proofs.Live.Numbering
import DirectiveTemplates.Proofs.Live.Standing

/-!
Bringing children into line with items. The walk over the items comes to three passes, one for the
children that are kept, one for the new ones and one for those that are left over; it keeps the
children in their slot in order, and loses none of them.
-/
namespace DirectiveTemplates.Live.ForEach

variable {δ τ κ : Type} (kind : Kind δ κ) (create : Act δ κ) (prepare : Nat → τ → Act δ Unit)
  (slot : SlotId)

def firstFailure (results : List RenderResult) : RenderResult :=
  (results.find? fun r => !r.isOk).getD (.ok ())

theorem firstFailure_cons (r : RenderResult) (rs : List RenderResult) :
    firstFailure (r :: rs) = firstError r (firstFailure rs) := by
  cases r with
  | ok _ => rfl
  | error e => rfl

/-- Renders the children that have an item, each after its variables were set. -/
def renderKept (start : Nat) (kept : List (τ × κ)) : Act δ (List (RenderResult × κ)) :=
  (kept.zipIdx start).mapM fun ((item, c), i) => do
    prepare i item
    kind.render c

/-- Makes a child for each item that has none, renders it once and appends its slot. -/
def renderNew (start : Nat) (items : List τ) : Act δ (List (RenderResult × κ)) :=
  (items.zipIdx start).mapM fun (item, i) => do
    prepare i item
    let c ← create
    let (result, c) ← kind.render c
    Act.append slot (kind.slot c)
    return (result, c)

/-- Three passes: over the children that are kept, over the items without a child, and over the
children without an item. -/
def passes (start : Nat) (items : List τ) (children : List κ) :
    Act δ (List (RenderResult × κ)) := do
  let kept ← renderKept kind prepare start (items.zip children)
  let added ← renderNew kind create prepare slot (start + children.length)
    (items.drop children.length)
  let _ ← (children.drop items.length).mapM kind.destroy
  return kept ++ added

theorem mapM_destroy (cs : List κ) : cs.mapM kind.destroy = kind.destroyAll cs := by
  induction cs with
  | nil => rfl
  | cons c cs ih =>
    rw [List.mapM_cons, ih]
    rfl

/-- All children are rendered whether or not one of them fails, and the first error is told. -/
theorem reconcile_eq_passes (start : Nat) (items : List τ) (children : List κ) :
    reconcile kind create prepare slot start items children = (do
      let outcomes ← passes kind create prepare slot start items children
      return (firstFailure (outcomes.map Prod.fst), outcomes.map Prod.snd)) := by
  induction items generalizing start children with
  | nil =>
    funext w
    simp only [reconcile, passes, renderKept, renderNew, List.zip_nil_left, List.drop_nil,
      List.length_nil, List.drop_zero, mapM_destroy, List.zipIdx_nil, List.mapM_nil, pure_bind,
      bind_assoc, List.append_nil, List.map_nil]
    rfl
  | cons item items ih =>
    cases children with
    | nil =>
      simp only [reconcile, ih]
      simp [passes, renderKept, renderNew, firstFailure_cons]
    | cons c cs =>
      -- The first new child stands where the items of the kept children end.
      have next : start + (cs.length + 1) = start + 1 + cs.length := by omega
      simp only [reconcile, ih]
      simp [passes, renderKept, renderNew, firstFailure_cons, next]

theorem length_reconcile (start : Nat) (items : List τ) (children : List κ) (w : World δ) :
    ((reconcile kind create prepare slot start items children).run w).1.2.length =
      items.length := by
  induction items generalizing start children w with
  | nil => rfl
  | cons item items ih =>
    cases children with
    | nil => exact congrArg Nat.succ (ih ..)
    | cons c cs => exact congrArg Nat.succ (ih ..)

/-! The slots. -/

section Slots

variable {B : Body δ κ} {fixed : SlotId → Prop} {t₀ : SlotTree} {w : World δ} {front cs : List κ}

theorem slots_setVariables (setElement : τ → δ → δ) (setIndex : Option (Nat → δ → δ)) (i : Nat)
    (item : τ) (w : World δ) :
    ((setVariables setElement setIndex i item).run w).2.slots = w.slots := by
  cases setIndex <;> rfl

/-- The children stand in their slot after each pass; those in front of them are not touched. -/
theorem standing_reconcile {prepare : Nat → τ → Act δ Unit}
    (quiet : ∀ i item (w : World δ), ((prepare i item).run w).2.slots = w.slots) (start : Nat)
    (items : List τ) (h : B.Standing fixed t₀ w.slots slot (front ++ cs)) :
    B.Standing fixed t₀ ((reconcile B.kind B.create prepare slot start items cs).run w).2.slots
      slot (front ++ ((reconcile B.kind B.create prepare slot start items cs).run w).1.2) := by
  induction items generalizing start w front cs with
  | nil =>
    simp only [reconcile, Act.run_bind, Act.run_pure, List.append_nil]
    exact h.destroyAll
  | cons item items ih =>
    rw [← quiet start item w] at h
    cases cs with
    | cons c cs =>
      have rendered := h.render
      rw [List.append_cons] at rendered
      have rest := ih (start + 1) rendered
      rw [← List.append_cons] at rest
      exact rest
    | nil =>
      rw [List.append_nil] at h
      obtain ⟨made, beside⟩ := h.create
      obtain ⟨rendered, beside⟩ := made.render_new beside
      let new := B.create.run ((prepare start item).run w).2
      let r := (B.kind.render new.1).run new.2
      have appended : B.Standing fixed t₀
          ((Act.append slot (B.kind.slot r.1.2)).run r.2).2.slots slot
          (front ++ [r.1.2] ++ []) := by
        rw [List.append_nil]
        exact rendered.append beside
      have rest := ih (start + 1) appended
      rw [← List.append_cons] at rest
      exact rest

end Slots

/-! The numbers. -/

section Numbers

variable {prepare : Nat → τ → Act (δ × Notes) Unit}

/-- The children with an item keep their numbers, new ones have the next numbers, and the numbers
of those that are left over are noted in order. -/
theorem numbers_reconcile
    (quiet : ∀ i item (w : World (δ × Notes)), ((prepare i item).run w).2.data.2 = w.data.2)
    (start : Nat) (items : List τ) (cs : List (Nat × κ)) (w : World (δ × Notes)) :
    ((reconcile kind.numbered create.numbered prepare slot start items cs).run w).1.2.map Prod.fst =
        (cs.map Prod.fst).take items.length ++
          List.range' w.data.2.created (items.length - cs.length) ∧
      ((reconcile kind.numbered create.numbered prepare slot start items cs).run w).2.data.2 =
        ⟨w.data.2.created + (items.length - cs.length),
          w.data.2.destroyed ++ (cs.map Prod.fst).drop items.length⟩ := by
  induction items generalizing start cs w with
  | nil =>
    simp only [reconcile, Act.run_bind, Act.run_pure, kind.notes_destroyAll]
    simp
  | cons item items ih =>
    cases cs with
    | cons c cs =>
      let r := (kind.numbered.render c).run ((prepare start item).run w).2
      have notes : r.2.data.2 = w.data.2 := quiet start item w
      obtain ⟨numbers, rest⟩ := ih (start + 1) cs r.2
      rw [notes] at numbers rest
      simp only [reconcile, Act.run_bind, Act.run_pure, List.map_cons, List.length_cons,
        List.take_succ_cons, List.drop_succ_cons, Nat.add_sub_add_right]
      exact ⟨congrArg (c.1 :: ·) numbers, rest⟩
    | nil =>
      let new := create.numbered.run ((prepare start item).run w).2
      let r := (kind.numbered.render new.1).run new.2
      let last := (Act.append slot (kind.numbered.slot r.1.2)).run r.2
      have number : r.1.2.1 = w.data.2.created := congrArg Notes.created (quiet start item w)
      have notes : last.2.data.2 = w.data.2.create := congrArg Notes.create (quiet start item w)
      obtain ⟨numbers, rest⟩ := ih (start + 1) [] last.2
      rw [notes] at numbers rest
      simp only [reconcile, Act.run_bind, Act.run_pure, List.map_cons, List.map_nil,
        List.take_nil, List.drop_nil, List.nil_append, List.append_nil, List.length_cons,
        List.length_nil, Nat.sub_zero, List.range'_succ] at numbers rest ⊢
      refine ⟨List.cons_eq_cons.mpr ⟨number, numbers⟩, rest.trans ?_⟩
      rw [Notes.create, Nat.add_right_comm]
      rfl

variable {prepare' : Nat → τ → Act δ Unit}

/-- Numbered children are rendered, made and destroyed as plain ones. -/
theorem follows_reconcile (sets : ∀ i item, Follows (prepare i item) id (prepare' i item))
    (start : Nat) (items : List τ) (cs : List (Nat × κ)) :
    Follows (reconcile kind.numbered create.numbered prepare slot start items cs)
      (Prod.map id (List.map Prod.snd))
      (reconcile kind create prepare' slot start items (cs.map Prod.snd)) := by
  induction items generalizing start cs with
  | nil => exact (Follows.destroyAll kind cs).bind fun _ => .pure _ (Except.ok (), [])
  | cons item items ih =>
    cases cs with
    | cons c cs =>
      apply (sets start item).bind
      intro _
      apply (Follows.render kind c).bind
      rintro ⟨first, c⟩
      apply (ih (start + 1) cs).bind
      rintro ⟨later, cs⟩
      exact .pure _ (firstError first later, c :: cs)
    | nil =>
      apply (sets start item).bind
      intro _
      apply (Follows.numbered create).bind
      intro c
      apply (Follows.render kind c).bind
      rintro ⟨first, c⟩
      apply (Follows.append slot (kind.slot c.2)).bind
      intro _
      apply (ih (start + 1) []).bind
      rintro ⟨later, cs⟩
      exact .pure _ (firstError first later, c :: cs)

end Numbers

end DirectiveTemplates.Live.ForEach
