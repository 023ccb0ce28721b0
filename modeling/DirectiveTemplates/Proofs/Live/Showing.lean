import DirectiveTemplates.Live.Conditional
import DirectiveTemplates.Proofs.Live.Repetition

/-!
Conditionals over whole runs. Until it is destroyed a conditional shows its body exactly while the
condition holds, and a render that fails leaves what is shown as it was. A child that fails its
first render is dropped as it is: nobody destroys it any more.
-/
namespace DirectiveTemplates.Live

variable {δ κ : Type}

def ConditionalBindings.supplied (condition : δ → Bool) (create : Act δ κ) :
    ConditionalBindings δ κ :=
  ⟨some condition, some create⟩

def ConditionalBindings.numbered (b : ConditionalBindings δ κ) :
    ConditionalBindings (δ × Notes) (Nat × κ) where
  condition := b.condition.map fun f d => f d.1
  body := b.body.map Act.numbered

theorem ConditionalBindings.numbered_supplied (condition : δ → Bool) (create : Act δ κ) :
    numbered (supplied condition create) = supplied (fun d => condition d.1) create.numbered := rfl

namespace Notes

variable {n : Notes} {owned owned' : List Nat} {number : Nat}

theorem Account.perm (h : n.Account owned) (same : owned'.Perm owned) : n.Account owned' :=
  (same.append_right n.destroyed).trans h

theorem Account.create (h : n.Account owned) : n.create.Account (n.created :: owned) := by
  have last := h.cons n.created
  rw [Account, Notes.create, List.range_succ]
  exact last.trans (List.perm_append_singleton _ _).symm

theorem Account.destroy (h : n.Account (number :: owned)) : (n.destroy number).Account owned := by
  have moved : (owned ++ (n.destroyed ++ [number])).Perm (number :: (owned ++ n.destroyed)) := by
    rw [← List.append_assoc]
    exact List.perm_append_singleton _ _
  exact moved.trans h

end Notes

namespace Conditional

def component (kind : Kind δ κ) (b : ConditionalBindings δ κ) : Kind δ (Conditional κ) :=
  ⟨fun c => c.base.slot, render kind b, destroy kind⟩

def fresh (slot : SlotId) : Conditional κ := ⟨⟨slot, .fresh⟩, none⟩

def plain (c : Conditional (Nat × κ)) : Conditional κ := ⟨c.base, c.child.map Prod.snd⟩

variable {kind : Kind δ κ} {condition : δ → Bool} {create : Act δ κ}
  {b : ConditionalBindings δ κ} {c : Conditional κ} {w : World δ}

theorem render_of_destroyed (gone : c.base.isDestroyed = true) :
    render kind b c = pure (.error .destroyed, c) := by
  unfold render
  rw [gone]
  rfl

theorem destroy_of_destroyed (gone : c.base.isDestroyed = true) : destroy kind c = pure c := by
  unfold destroy
  rw [gone]
  rfl

theorem ended_of_destroyed (gone : c.base.isDestroyed = true) : (component kind b).Ended c :=
  ⟨render_of_destroyed gone, destroy_of_destroyed gone⟩

theorem render_eq (alive : c.base.isDestroyed = false) :
    render kind (.supplied condition create) c = (do
      if ← Act.read condition then c.appear kind create else c.vanish kind) := by
  unfold render
  rw [alive]
  rfl

theorem destroy_eq (alive : c.base.isDestroyed = false) :
    destroy kind c = (do
      let base ← c.base.destroy
      let _ ← kind.destroyAll c.child.toList
      return ⟨base, none⟩) := by
  unfold destroy
  rw [alive]
  cases c.child <;> rfl

/-- What a render can come to: the child stays, a new one appears or fails, the child vanishes, or
there is nothing to show and nothing shown. -/
theorem render_cases {motive : (RenderResult × Conditional κ) × World δ → Prop}
    (alive : c.base.isDestroyed = false)
    (stays : condition w.data = true → ∀ child, c.child = some child →
      let r := (kind.render child).run w
      motive ((r.1.1, ⟨c.base.after r.1.1, some r.1.2⟩), r.2))
    (appears : condition w.data = true → c.child = none →
      let new := create.run w
      let r := (kind.render new.1).run new.2
      r.1.1 = .ok () → motive ((.ok (), ⟨c.base.rendered, some r.1.2⟩),
        { r.2 with slots := r.2.slots.append c.base.slot (kind.slot r.1.2) }))
    (fails : condition w.data = true → c.child = none →
      let new := create.run w
      let r := (kind.render new.1).run new.2
      ∀ e, r.1.1 = .error e → motive ((.error e, c), r.2))
    (vanishes : condition w.data = false → ∀ child, c.child = some child →
      motive ((.ok (), ⟨c.base.rendered, none⟩), ((kind.destroy child).run w).2))
    (idles : condition w.data = false → c.child = none →
      motive ((.ok (), ⟨c.base.rendered, none⟩), w)) :
    motive ((render kind (.supplied condition create) c).run w) := by
  rw [render_eq alive, Act.run_bind, Act.run_read]
  cases holds : condition w.data with
  | true =>
    simp only [if_true]
    unfold appear
    cases shown : c.child with
    | some child =>
      have kept := stays holds child shown
      dsimp only at kept
      simp only [Act.run_bind]
      generalize (kind.render child).run w = r at kept ⊢
      obtain ⟨⟨result, child'⟩, w'⟩ := r
      cases result with
      | ok _ => exact kept
      | error e => exact kept
    | none =>
      have new := appears holds shown
      have failed := fails holds shown
      dsimp only at new failed
      simp only [Act.run_bind]
      generalize (kind.render (create.run w).1).run (create.run w).2 = r at new failed ⊢
      obtain ⟨⟨result, child⟩, w'⟩ := r
      cases result with
      | ok _ => exact new rfl
      | error e => exact failed e rfl
  | false =>
    simp only [Bool.false_eq_true, if_false]
    unfold vanish
    cases shown : c.child with
    | some child => exact vanishes holds child shown
    | none => exact idles holds shown

/-- What a render that succeeds shows, what stays when it fails, and that a child is rendered once
to be shown again. -/
theorem render_spec (kind : Kind δ κ) (condition : δ → Bool) (create : Act δ κ)
    (alive : c.base.isDestroyed = false) (w : World δ) :
    let r := (render kind (.supplied condition create) c).run w
    (r.1.1 = .ok () → r.1.2.isShown = condition w.data) ∧
      (∀ e, r.1.1 = .error e → r.1.2.isShown = c.isShown) ∧
      ∀ child child', c.child = some child → r.1.2.child = some child' →
        (kind.render child).run w = ((r.1.1, child'), r.2) := by
  intro r
  apply render_cases (w := w) (motive := fun r =>
    (r.1.1 = .ok () → r.1.2.isShown = condition w.data) ∧
      (∀ e, r.1.1 = .error e → r.1.2.isShown = c.isShown) ∧
      ∀ child child', c.child = some child → r.1.2.child = some child' →
        (kind.render child).run w = ((r.1.1, child'), r.2)) alive
  case stays =>
    intro holds child shown r
    refine ⟨fun _ => holds.symm, fun _ _ => by rw [isShown, isShown, shown]; rfl, ?_⟩
    intro child₁ child' shown₁ kept
    rw [shown] at shown₁
    cases shown₁
    cases kept
    rfl
  case appears =>
    intro holds none new r _
    refine ⟨fun _ => holds.symm, fun _ => nofun, ?_⟩
    intro child child' shown _
    rw [none] at shown
    cases shown
  case fails =>
    intro holds none new r e _
    refine ⟨nofun, fun _ _ => rfl, ?_⟩
    intro child child' shown _
    rw [none] at shown
    cases shown
  case vanishes =>
    intro ends child shown
    refine ⟨fun _ => ends.symm, fun _ => nofun, ?_⟩
    intro child₁ child' _ kept
    cases kept
  case idles =>
    intro ends none
    refine ⟨fun _ => ends.symm, fun _ => nofun, ?_⟩
    intro child₁ child' _ kept
    cases kept

/-! The slots. -/

section Slots

variable {B : Body δ κ} {start : SlotTree} {slot : SlotId}

/-- The repetition with the same child, if there is one. It stands in the same slots. -/
def repeated (c : Conditional κ) : ForEach Unit κ := ⟨c.base, [], c.child.toList⟩

theorem destroy_repeated (c : Conditional κ) (w : World δ) :
    (c.repeated.destroy kind).run w =
      (((destroy kind c).run w).1.repeated, ((destroy kind c).run w).2) := by
  cases alive : c.base.isDestroyed with
  | true =>
    have gone : c.repeated.base.isDestroyed = true := alive
    rw [ForEach.destroy_of_destroyed gone, destroy_of_destroyed alive]
    rfl
  | false =>
    have alive' : c.repeated.base.isDestroyed = false := alive
    rw [ForEach.destroy_eq alive', destroy_eq alive]
    rfl

/-- Whatever slots are fixed, a render leaves them alone and what is shown in its slot. -/
theorem standing_render {fixed : SlotId → Prop} (alive : c.base.isDestroyed = false)
    (h : B.Standing fixed start w.slots c.base.slot c.child.toList) :
    let r := (render B.kind (.supplied condition B.create) c).run w
    r.1.2.base.slot = c.base.slot ∧ r.1.2.base.isDestroyed = false ∧
      B.Standing fixed start r.2.slots c.base.slot r.1.2.child.toList := by
  have row : c.child = none → B.Standing fixed start w.slots c.base.slot [] := by
    intro hidden
    rw [hidden] at h
    exact h
  intro r
  apply render_cases (motive := fun r => r.1.2.base.slot = c.base.slot ∧
    r.1.2.base.isDestroyed = false ∧
      B.Standing fixed start r.2.slots c.base.slot r.1.2.child.toList) alive
  case stays =>
    intro _ child shown
    have row : B.Standing fixed start w.slots c.base.slot ([] ++ child :: []) := by
      rw [shown] at h
      exact h
    exact ⟨Base.slot_after _, Base.isDestroyed_after alive _, row.render⟩
  case appears =>
    intro _ hidden new r _
    obtain ⟨made, beside⟩ := (row hidden).create
    obtain ⟨rendered, beside⟩ := made.render_new beside
    exact ⟨rfl, rfl, rendered.append beside⟩
  case fails =>
    intro _ hidden new r e _
    obtain ⟨made, beside⟩ := (row hidden).create
    obtain ⟨rendered, -⟩ := made.render_new beside
    refine ⟨rfl, alive, ?_⟩
    rw [hidden]
    exact rendered
  case vanishes =>
    intro _ child shown
    have row : B.Standing fixed start w.slots c.base.slot ([] ++ child :: []) := by
      rw [shown] at h
      exact h
    exact ⟨rfl, rfl, row.destroy⟩
  case idles =>
    intro _ hidden
    exact ⟨rfl, rfl, row hidden⟩

theorem alive_render (h : ForEach.Alive B start slot w.slots c.repeated) :
    let r := (render B.kind (.supplied condition B.create) c).run w
    ForEach.Alive B start slot r.2.slots r.1.2.repeated := by
  obtain ⟨rfl, alive, standing⟩ := h
  obtain ⟨slot, alive, standing⟩ := standing_render alive standing
  exact ⟨slot, alive, standing⟩

theorem children_of_error (h : ForEach.Alive B start slot w.slots c.repeated) {e : RenderError}
    (failed : ((render B.kind (.supplied condition B.create) c).run w).1.1 = .error e) :
    ((render B.kind (.supplied condition B.create) c).run w).2.slots.children slot =
      w.slots.children slot := by
  obtain ⟨-, shown, rendered⟩ := render_spec B.kind condition B.create h.alive w
  have after : ForEach.Alive B start slot
      ((render B.kind (.supplied condition B.create) c).run w).2.slots _ := alive_render h
  have same := shown e failed
  rw [after.standing.listed.children, h.standing.listed.children]
  show List.map B.kind.slot (Option.toList _) = c.child.toList.map B.kind.slot
  generalize (render B.kind (.supplied condition B.create) c).run w = r at rendered same ⊢
  rw [isShown, isShown] at same
  cases before : c.child with
  | none =>
    rw [before, Option.isSome_none, Option.isSome_eq_false_iff, Option.isNone_iff_eq_none] at same
    rw [same]
  | some child =>
    rw [before, Option.isSome_some, Option.isSome_iff_exists] at same
    obtain ⟨child', kept⟩ := same
    have fit : B.Fit w.slots child :=
      (h.standing.members.each child (by simp [repeated, before])).fit
    have slot := B.render_slot fit
    rw [rendered child child' before kept] at slot
    rw [kept]
    exact congrArg (fun i => [i]) slot

theorem gone_destroy (h : ForEach.Alive B start slot w.slots c.repeated) (linked : start.Linked)
    (empty : start.children slot = []) :
    ForEach.Gone start slot ((destroy B.kind c).run w).2.slots
      ((destroy B.kind c).run w).1.repeated := by
  have gone := h.destroy linked empty
  rw [destroy_repeated] at gone
  exact gone

theorem alive_performAll (h : ForEach.Alive B start slot w.slots c.repeated)
    (events : List (Event δ)) (lives : Event.destroy ∉ events) :
    let r := ((component B.kind (.supplied condition B.create)).performAll events c).run w
    ForEach.Alive B start slot r.2.slots r.1.repeated :=
  Kind.performAll_living (P := fun (c : Conditional κ) t => ForEach.Alive B start slot t c.repeated)
    alive_render h events lives

theorem gone_performAll (h : ForEach.Alive B start slot w.slots c.repeated) (linked : start.Linked)
    (empty : start.children slot = []) (events : List (Event δ)) (dies : Event.destroy ∈ events) :
    let r := ((component B.kind (.supplied condition B.create)).performAll events c).run w
    ForEach.Gone start slot r.2.slots r.1.repeated :=
  Kind.performAll_destroyed
    (P := fun (c : Conditional κ) t => ForEach.Alive B start slot t c.repeated)
    (Q := fun (c : Conditional κ) t => ForEach.Gone start slot t c.repeated) alive_render
    (fun alive => gone_destroy alive linked empty) (fun gone => ended_of_destroyed gone.gone) h
    events dies

end Slots

/-! The number of the child. -/

section Numbers

variable {w : World (δ × Notes)} {c : Conditional (Nat × κ)}

theorem follows_render (c : Conditional (Nat × κ)) :
    Follows (render kind.numbered (ConditionalBindings.numbered (.supplied condition create)) c)
      (Prod.map id plain) (render kind (.supplied condition create) (plain c)) := by
  cases alive : c.base.isDestroyed with
  | true =>
    have gone : (plain c).base.isDestroyed = true := alive
    rw [render_of_destroyed alive, render_of_destroyed gone]
    exact .pure _ (Except.error RenderError.destroyed, c)
  | false =>
    have alive' : (plain c).base.isDestroyed = false := alive
    rw [ConditionalBindings.numbered_supplied, render_eq alive, render_eq alive']
    apply (Follows.read condition).bind
    intro holds
    obtain ⟨base, child⟩ := c
    have told (result : RenderResult) (c : Conditional (Nat × κ)) :
        Follows (pure (result, c) : Act (δ × Notes) _) (Prod.map id plain)
          (pure (result, plain c)) := .pure _ _
    cases holds with
    | true =>
      cases child with
      | some child =>
        apply (Follows.render kind child).bind
        rintro ⟨result, child⟩
        cases result with
        | ok _ => exact told (.ok ()) ⟨base.rendered, some child⟩
        | error e => exact told (.error e) ⟨base, some child⟩
      | none =>
        apply (Follows.numbered create).bind
        intro child
        apply (Follows.render kind child).bind
        rintro ⟨result, child⟩
        cases result with
        | ok _ =>
          apply (Follows.append base.slot (kind.slot child.2)).bind
          intro _
          exact told (.ok ()) ⟨base.rendered, some child⟩
        | error e => exact told (.error e) ⟨base, none⟩
    | false =>
      cases child with
      | some child =>
        apply (Follows.destroy kind child).bind
        intro _
        exact told (.ok ()) ⟨base.rendered, none⟩
      | none => exact told (.ok ()) ⟨base.rendered, none⟩

theorem follows_destroy (c : Conditional (Nat × κ)) :
    Follows (destroy kind.numbered c) plain (destroy kind (plain c)) := by
  cases alive : c.base.isDestroyed with
  | true =>
    have gone : (plain c).base.isDestroyed = true := alive
    rw [destroy_of_destroyed alive, destroy_of_destroyed gone]
    exact .pure plain c
  | false =>
    have alive' : (plain c).base.isDestroyed = false := alive
    have child : (plain c).child.toList = c.child.toList.map Prod.snd := by
      rw [plain]
      cases c.child <;> rfl
    rw [destroy_eq alive, destroy_eq alive', child]
    apply (Follows.destroyBase c.base).bind
    intro base
    apply (Follows.destroyAll kind c.child.toList).bind
    intro _
    exact .pure plain ⟨base, none⟩

theorem follows_performAll (events : List (Event δ)) (c : Conditional (Nat × κ)) :
    Follows ((component kind.numbered (ConditionalBindings.numbered
        (.supplied condition create))).performAll (events.map Event.beside) c) plain
      ((component kind (.supplied condition create)).performAll events (plain c)) :=
  Follows.performAll follows_render follows_destroy events c

/-- The child that a render with this result makes and does not keep, as it fails at once. -/
def dropped (c : Conditional (Nat × κ)) (n : Notes) (result : RenderResult) : List Nat :=
  if !c.base.isDestroyed && !c.isShown && !result.isOk then [n.created] else []

def droppedAll (kind : Kind δ κ) (b : ConditionalBindings δ κ) :
    List (Event δ) → Conditional (Nat × κ) → World (δ × Notes) → List Nat
  | [], _, _ => []
  | .change f :: events, c, w => droppedAll kind b events c ⟨w.slots, Prod.map f id w.data⟩
  | .render :: events, c, w =>
    let r := (render kind.numbered b.numbered c).run w
    dropped c w.data.2 r.1.1 ++ droppedAll kind b events r.1.2 r.2
  | .destroy :: events, c, w =>
    let r := (destroy kind.numbered c).run w
    droppedAll kind b events r.1 r.2

theorem dropped_of_ok (n : Notes) : dropped c n (.ok ()) = [] := by
  simp [dropped, Except.isOk, Except.toBool]

theorem dropped_of_shown {child : Nat × κ} (shown : c.child = some child) (n : Notes)
    (result : RenderResult) : dropped c n result = [] := by
  simp [dropped, isShown, shown]

theorem dropped_of_error (alive : c.base.isDestroyed = false) (hidden : c.child = none)
    (n : Notes) (e : RenderError) : dropped c n (.error e) = [n.created] := by
  simp [dropped, isShown, alive, hidden, Except.isOk, Except.toBool]

/-- A render drops the child that it made or none, and loses no other. -/
theorem account_render (kind : Kind δ κ) (condition : δ → Bool) (create : Act δ κ)
    {gone : List Nat} (h : w.data.2.Account (c.child.toList.map Prod.fst ++ gone)) :
    let r := (render kind.numbered (ConditionalBindings.numbered
      (.supplied condition create)) c).run w
    r.2.data.2.Account
      (r.1.2.child.toList.map Prod.fst ++ (gone ++ dropped c w.data.2 r.1.1)) := by
  intro r
  cases alive : c.base.isDestroyed with
  | true =>
    have same : r = ((.error .destroyed, c), w) := by
      simp only [r, render_of_destroyed alive, Act.run_pure]
    rw [same, dropped, alive]
    simpa using h
  | false =>
    have hidden : c.child = none → w.data.2.Account gone := by
      intro none
      rw [none] at h
      exact h
    apply render_cases (w := w) (motive := fun r => r.2.data.2.Account
      (r.1.2.child.toList.map Prod.fst ++ (gone ++ dropped c w.data.2 r.1.1))) alive
    case stays =>
      intro _ child shown r
      rw [dropped_of_shown shown, List.append_nil]
      rw [shown] at h
      exact h
    case appears =>
      intro _ none new r _
      rw [dropped_of_ok, List.append_nil]
      exact (hidden none).create
    case fails =>
      intro _ none new r e _
      rw [dropped_of_error alive none, none]
      exact (hidden none).create.perm (List.perm_append_singleton _ _)
    case vanishes =>
      intro _ child shown
      rw [dropped_of_ok, List.append_nil]
      rw [shown] at h
      exact h.destroy
    case idles =>
      intro _ none
      rw [dropped_of_ok, List.append_nil]
      exact hidden none

theorem account_destroy {gone : List Nat}
    (h : w.data.2.Account (c.child.toList.map Prod.fst ++ gone)) :
    let r := (destroy kind.numbered c).run w
    r.2.data.2.Account (r.1.child.toList.map Prod.fst ++ gone) := by
  intro r
  cases alive : c.base.isDestroyed with
  | true =>
    have same : r = (c, w) := by simp only [r, destroy_of_destroyed alive, Act.run_pure]
    rw [same]
    exact h
  | false =>
    simp only [r, destroy_eq alive]
    cases shown : c.child with
    | none =>
      rw [shown] at h
      exact h
    | some child =>
      rw [shown] at h
      exact h.destroy

/-- At every time each child that was ever made is the one that is shown, was destroyed, or was
dropped, and only one of these, once. -/
theorem account_performAll {gone : List Nat}
    (h : w.data.2.Account (c.child.toList.map Prod.fst ++ gone)) (events : List (Event δ)) :
    let b := ConditionalBindings.supplied condition create
    let r := ((component kind.numbered b.numbered).performAll (events.map Event.beside) c).run w
    r.2.data.2.Account
      (r.1.child.toList.map Prod.fst ++ (gone ++ droppedAll kind b events c w)) := by
  intro b r
  induction events generalizing w c gone with
  | nil =>
    rw [droppedAll, List.append_nil]
    exact h
  | cons e events ih =>
    cases e with
    | change f => exact ih (w := ⟨w.slots, Prod.map f id w.data⟩) h
    | render =>
      have later := ih (account_render kind condition create h)
      rw [List.append_assoc] at later
      exact later
    | destroy => exact ih (account_destroy h)

end Numbers

/-- Over every run each component that the body makes is the child that is shown, or was destroyed
once, or was dropped when its first render failed. So none is lost exactly as long as no new child
fails. The numbers that tell the components apart have no other effect. -/
theorem account_iff_none_dropped (kind : Kind δ κ) (condition : δ → Bool) (create : Act δ κ)
    (start : World δ) (slot : SlotId) (events : List (Event δ)) :
    let b := ConditionalBindings.supplied condition create
    let run := ((component kind b).performAll events (fresh slot)).run start
    let begun : World (δ × Notes) := ⟨start.slots, (start.data, .none)⟩
    let noted := ((component kind.numbered b.numbered).performAll (events.map Event.beside)
      (fresh slot)).run begun
    let shown := noted.1.child.toList.map Prod.fst
    let dropped := droppedAll kind b events (fresh slot) begun
    (plain noted.1, noted.2.plain) = run ∧
    noted.2.data.2.Account (shown ++ dropped) ∧
    (noted.2.data.2.Account shown ↔ dropped = []) := by
  intro b run begun noted shown dropped
  have none : begun.data.2.Account ([] ++ []) := Notes.account_none
  have all : noted.2.data.2.Account (shown ++ dropped) :=
    account_performAll (w := begun) (c := fresh slot) none events
  refine ⟨(follows_performAll events (fresh slot) begun).symm, all, ?_, ?_⟩
  · intro kept
    have same := (all.trans kept.symm).length_eq
    simp only [List.length_append] at same
    exact List.eq_nil_of_length_eq_zero (by omega)
  · intro none
    rw [none, List.append_nil] at all
    exact all

/-- A new child that fails is neither shown nor destroyed, not even with the conditional. -/
theorem not_account_of_failing_child :
    let b := ConditionalBindings.supplied Bench.flag Probe.next
    let noted := ((component Probe.kind.numbered b.numbered).performAll [.render, .destroy]
      (fresh 1)).run ⟨ForEach.bench.slots, ({ item := "!", flag := true }, .none)⟩
    ¬ noted.2.data.2.Account (noted.1.child.toList.map Prod.fst) := by
  unfold Notes.Account
  decide +kernel

/-- Over every run a conditional shows its body exactly while the condition holds. Before it is
destroyed, a render that succeeds leaves the child in the slot if the condition holds and nothing
otherwise, and one that fails leaves what is shown and listed as it was. A child that is shown
before and after a render is the same one, rendered once. Destroying the conditional takes the
child and the slot away, and afterwards nothing more happens, whatever the bindings are. -/
theorem shows_while_holding (B : Body δ κ) (condition : δ → Bool) (start : World δ) {slot : SlotId}
    (linked : start.slots.Linked) (here : start.slots.contains slot = true)
    (empty : start.slots.children slot = []) (events : List (Event δ)) :
    let b := ConditionalBindings.supplied condition B.create
    let run := ((component B.kind b).performAll events (fresh slot)).run start
    let c := run.1
    let w := run.2
    let noted := ((component B.kind.numbered b.numbered).performAll (events.map Event.beside)
      (fresh slot)).run ⟨start.slots, (start.data, .none)⟩
    (plain noted.1, noted.2.plain) = (c, w) ∧
    (Event.destroy ∉ events →
      let r := (c.render B.kind b).run w
      let later := (noted.1.render B.kind.numbered b.numbered).run noted.2
      (plain later.1.2, later.2.plain) = (r.1.2, r.2) ∧
      (r.1.1 = .ok () → r.1.2.isShown = condition w.data ∧
        r.2.slots.children slot = r.1.2.child.toList.map B.kind.slot) ∧
      (∀ e, r.1.1 = .error e → r.1.2.isShown = c.isShown ∧
        r.2.slots.children slot = w.slots.children slot) ∧
      ∀ child child', noted.1.child = some child → later.1.2.child = some child' →
        child'.1 = child.1 ∧ (B.kind.render child.2).run w = ((r.1.1, child'.2), r.2)) ∧
    (Event.destroy ∈ events →
      c.isShown = false ∧ w.slots.parent? slot = none ∧
        (∀ i < start.slots.size, w.slots.slot? i = (start.slots.delete slot).slot? i) ∧
        ∀ b', (component B.kind b').Ended c) := by
  intro b run c w noted
  have alive : ForEach.Alive B start.slots slot start.slots (fresh slot : Conditional κ).repeated :=
    .fresh here empty
  have follows : (plain noted.1, noted.2.plain) = (c, w) :=
    (follows_performAll events (fresh slot) ⟨start.slots, (start.data, .none)⟩).symm
  have plainState : plain noted.1 = c := congrArg Prod.fst follows
  have plainWorld : noted.2.plain = w := congrArg Prod.snd follows
  refine ⟨follows, ?_, ?_⟩
  · intro lives r later
    have before : ForEach.Alive B start.slots slot w.slots c.repeated :=
      alive_performAll alive events lives
    have after : ForEach.Alive B start.slots slot r.2.slots r.1.2.repeated := alive_render before
    obtain ⟨succeeds, fails, stays⟩ := render_spec B.kind condition B.create before.alive w
    have told : r = (Prod.map id plain later.1, later.2.plain) := by
      simp only [r, ← plainState, ← plainWorld]
      exact follows_render noted.1 noted.2
    refine ⟨?_, ?_, ?_, ?_⟩
    · rw [told]
      rfl
    · intro ok
      exact ⟨succeeds ok, after.standing.listed.children⟩
    · intro e failed
      exact ⟨fails e failed, children_of_error before failed⟩
    · intro child child' shown kept
      have noted_alive : noted.1.base.isDestroyed = false := by
        rw [show noted.1.base = c.base from congrArg Conditional.base plainState]
        exact before.alive
      have once := (render_spec B.kind.numbered (fun d => condition d.1) B.create.numbered
        noted_alive noted.2).2.2 child child' shown kept
      have follows := Follows.render B.kind child noted.2
      refine ⟨(congrArg (fun r => r.1.2.1) once).symm, ?_⟩
      rw [← plainWorld, follows, once, told]
      rfl
  · intro dies
    have gone : ForEach.Gone start.slots slot w.slots c.repeated :=
      gone_performAll alive linked empty events dies
    refine ⟨?_, ?_, gone.slots, fun b' => ended_of_destroyed gone.gone⟩
    · have none : c.child = none := Option.toList_eq_nil_iff.mp gone.children
      rw [isShown, none]
      rfl
    · rw [SlotTree.parent?, gone.slots slot (of_decide_eq_true here)]
      exact (linked.parent?_delete slot slot).trans (if_pos rfl)

/-- Shows one item, and then a second one that fails. -/
def failing : List (Event Bench) :=
  [.change fun b => { b with flag := true, items := ["a"] }, .render,
    .change fun b => { b with items := ["b", "!c"] }]

theorem shows_while_holding_failing :
    let shown := component ForEach.probes.kind (.supplied Bench.flag ForEach.probes.create)
    let run := (shown.performAll failing (fresh 1)).run ForEach.bench
    let r := (shown.render run.1).run run.2
    let last := (shown.performAll (failing ++ [.destroy]) (fresh 1)).run ForEach.bench
    ForEach.bench.slots.Linked ∧ ForEach.bench.slots.contains 1 = true ∧
      ForEach.bench.slots.children 1 = [] ∧ Event.destroy ∉ failing ∧
      run.1.isShown = true ∧ r.1.1 = .error (.unknownDirective "!c") ∧ r.1.2.isShown = true ∧
      r.2.slots.children 1 = [2] ∧ last.1.isShown = false ∧ last.2.slots.parent? 1 = none := by
  have linked : ForEach.bench.slots.Linked := SlotTree.Linked.empty.foldl _
  have here : ForEach.bench.slots.contains 1 = true := by decide
  have empty : ForEach.bench.slots.children 1 = [] := by decide
  have lives : Event.destroy ∉ failing := by simp [failing]
  have fails := ((shows_while_holding ForEach.probes Bench.flag ForEach.bench linked here empty
    failing).2.1 lives).2.2.1 (.unknownDirective "!c")
  have dies : Event.destroy ∈ failing ++ [Event.destroy] := by simp
  have left := (shows_while_holding ForEach.probes Bench.flag ForEach.bench linked here empty
    (failing ++ [.destroy])).2.2 dies
  dsimp only [component] at fails left ⊢
  refine ⟨linked, here, empty, lives, ?_, ?_, ?_, ?_, left.1, left.2.1⟩
  · decide +kernel
  · decide +kernel
  · rw [(fails (by decide +kernel)).1]
    decide +kernel
  · rw [(fails (by decide +kernel)).2]
    decide +kernel

end Conditional

end DirectiveTemplates.Live
