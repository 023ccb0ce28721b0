import DirectiveTemplates.Live.Probe
import DirectiveTemplates.Proofs.Live.Steps

/-!
What a directive shows: components that a body makes one after another. A component has slots of
its own, the one it stands in among them, and keeps to them whatever its renders come to.
-/
namespace DirectiveTemplates.Live

namespace Act

variable {δ : Type}

@[simp] theorem run_change (f : δ → δ) (w : World δ) :
    (change f).run w = ((), { w with data := f w.data }) := rfl

@[simp] theorem run_newSlot (content : SlotContent) (w : World δ) :
    (newSlot content).run w = (w.slots.size, { w with slots := (w.slots.create content).2 }) := rfl

@[simp] theorem run_append (p child : SlotId) (w : World δ) :
    (append p child).run w = ((), { w with slots := w.slots.append p child }) := rfl

@[simp] theorem run_delete (child : SlotId) (w : World δ) :
    (delete child).run w = ((), { w with slots := w.slots.delete child }) := rfl

end Act

namespace SlotTree

/-- There may be new slots, and of the old ones only those in `touched` may have changed. -/
structure Keeps (touched : SlotId → Prop) (t t' : SlotTree) : Prop where
  size_le : t.size ≤ t'.size
  slot : ∀ i < t.size, ¬ touched i → t'.slot? i = t.slot? i

/-- A slot as the component in the slot `root` sees it: where its own slot stands is up to
others. -/
def seen (t : SlotTree) (root i : SlotId) : Option Slot :=
  (t.slot? i).map fun s => if i = root then { s with parent := none } else s

theorem Keeps.refl (touched : SlotId → Prop) (t : SlotTree) : t.Keeps touched t :=
  ⟨Nat.le_refl _, fun _ _ _ => rfl⟩

theorem keeps_create (t : SlotTree) (content : SlotContent) :
    t.Keeps (fun _ => False) (t.create content).2 := by
  constructor
  · rw [size_create]
    exact Nat.le_succ _
  · intro i lt _
    rw [slot?_create, if_neg (Nat.ne_of_lt lt)]

theorem lt_size_of_seen {t t' : SlotTree} {root i : SlotId} (lt : i < t.size)
    (same : t'.seen root i = t.seen root i) : i < t'.size := by
  rcases Nat.lt_or_ge i t'.size with lt' | le
  · exact lt'
  · have found : (t.slot? i).isSome := by simpa [slot?, size] using lt
    have lost : t'.seen root i = none := by rw [seen, slot?_eq_none le, Option.map_none]
    rw [lost, seen, eq_comm, Option.map_eq_none_iff] at same
    rw [same] at found
    contradiction

theorem seen_of_slot? {t t' : SlotTree} {root i : SlotId} (same : t'.slot? i = t.slot? i) :
    t'.seen root i = t.seen root i := by
  rw [seen, same, seen]

end SlotTree

namespace Base

/-- A base after a render that came to this result. -/
def after (b : Base) : RenderResult → Base
  | .ok () => b.rendered
  | .error _ => b

variable {b : Base}

@[simp] theorem slot_after (r : RenderResult) : (b.after r).slot = b.slot := by
  cases r <;> rfl

theorem isDestroyed_after (alive : b.isDestroyed = false) (r : RenderResult) :
    (b.after r).isDestroyed = false := by
  cases r with
  | ok _ => rfl
  | error e => exact alive

end Base

/-! A group that is destroyed lets nothing be done with its components. -/

namespace Group

variable {δ κ : Type} {g : Group κ}

theorem run_render (alive : g.base.isDestroyed = false) (pass : Act δ (RenderResult × List κ))
    (w : World δ) : (g.render pass).run w =
      let r := pass.run w
      ((r.1.1, ⟨g.base.after r.1.1, r.1.2⟩), r.2) := by
  rw [render, alive]
  simp only [Bool.false_eq_true, if_false, Act.run_bind]
  generalize pass.run w = r
  obtain ⟨⟨result, children⟩, w'⟩ := r
  cases result with
  | error e => rfl
  | ok _ => rfl

theorem render_of_destroyed (gone : g.base.isDestroyed = true)
    (pass : Act δ (RenderResult × List κ)) : g.render pass = pure (.error .destroyed, g) := by
  rw [render, gone]
  rfl

theorem destroy_of_alive (alive : g.base.isDestroyed = false) (pass : Act δ (List κ)) :
    g.destroy pass = (do
      Act.delete g.base.slot
      let children ← pass
      return ⟨{ g.base with stage := .destroyed }, children⟩) := by
  rw [destroy, alive]
  rfl

theorem destroy_of_destroyed (gone : g.base.isDestroyed = true) (pass : Act δ (List κ)) :
    g.destroy pass = pure g := by
  rw [destroy, gone]
  rfl

end Group

/-- Makes components of one kind. Each of them stands in a new slot, owns new slots only and never
touches a slot that it does not own; when it is destroyed, its slot leaves the slot it stands in.
Nothing is said of what renders come to, nor of the data. -/
structure Body (δ κ : Type) where
  kind : Kind δ κ
  create : Act δ κ
  own : κ → List SlotId
  /-- A component finds its slots as it left them. -/
  Fit : SlotTree → κ → Prop
  slot_mem_own : ∀ {t : SlotTree} {c : κ}, Fit t c → kind.slot c ∈ own c
  lt_size : ∀ {t : SlotTree} {c : κ}, Fit t c → ∀ i ∈ own c, i < t.size
  fit_congr : ∀ {t t' : SlotTree} {c : κ}, Fit t c →
    (∀ i ∈ own c, t'.seen (kind.slot c) i = t.seen (kind.slot c) i) → Fit t' c
  create_keeps : ∀ w : World δ, w.slots.Keeps (fun _ => False) (create.run w).2.slots
  create_own : ∀ w : World δ, ∀ i ∈ own (create.run w).1, w.slots.size ≤ i
  create_parent : ∀ w : World δ,
    (create.run w).2.slots.parent? (kind.slot (create.run w).1) = none
  create_fit : ∀ w : World δ, Fit (create.run w).2.slots (create.run w).1
  render_slot : ∀ {w : World δ} {c : κ}, Fit w.slots c →
    kind.slot ((kind.render c).run w).1.2 = kind.slot c
  render_keeps : ∀ {w : World δ} {c : κ}, Fit w.slots c →
    w.slots.Keeps (· ∈ own c) ((kind.render c).run w).2.slots
  render_own : ∀ {w : World δ} {c : κ}, Fit w.slots c →
    ∀ i ∈ own ((kind.render c).run w).1.2, i ∈ own c ∨ w.slots.size ≤ i
  render_parent : ∀ {w : World δ} {c : κ}, Fit w.slots c →
    ((kind.render c).run w).2.slots.parent? (kind.slot c) = w.slots.parent? (kind.slot c)
  render_fit : ∀ {w : World δ} {c : κ}, Fit w.slots c →
    Fit ((kind.render c).run w).2.slots ((kind.render c).run w).1.2
  destroy_keeps : ∀ {w : World δ} {c : κ}, Fit w.slots c →
    (∀ p ∈ own c, w.slots.parent? (kind.slot c) ≠ some p) →
    (w.slots.delete (kind.slot c)).Keeps (· ∈ own c) ((kind.destroy c).run w).2.slots

inductive Event (δ : Type) where
  | change (f : δ → δ)
  | render
  | destroy

namespace Kind

variable {δ κ : Type} (kind : Kind δ κ)

def perform (c : κ) : Event δ → Act δ κ
  | .change f => do
    Act.change f
    return c
  | .render => do
    let (_, c) ← kind.render c
    return c
  | .destroy => kind.destroy c

def performAll : List (Event δ) → κ → Act δ κ
  | [], c => return c
  | e :: events, c => do
    let c ← kind.perform c e
    performAll events c

def Ended (c : κ) : Prop :=
  kind.render c = pure (.error .destroyed, c) ∧ kind.destroy c = pure c

theorem Ended.performAll {kind : Kind δ κ} {c : κ} (h : kind.Ended c) (events : List (Event δ))
    (w : World δ) :
    ((kind.performAll events c).run w).1 = c ∧
      ((kind.performAll events c).run w).2.slots = w.slots := by
  induction events generalizing w with
  | nil => exact ⟨rfl, rfl⟩
  | cons e events ih =>
    cases e with
    | change f => exact ih { w with data := f w.data }
    | render =>
      rw [Kind.performAll, perform, h.1]
      exact ih w
    | destroy =>
      rw [Kind.performAll, perform, h.2]
      exact ih w

variable {kind : Kind δ κ} {P Q : κ → SlotTree → Prop} {w : World δ} {c : κ}

/-- What renders keep holds until the component is destroyed. -/
theorem performAll_living
    (render : ∀ {w : World δ} {c : κ}, P c w.slots →
      P ((kind.render c).run w).1.2 ((kind.render c).run w).2.slots)
    (h : P c w.slots) (events : List (Event δ)) (lives : Event.destroy ∉ events) :
    P ((kind.performAll events c).run w).1 ((kind.performAll events c).run w).2.slots := by
  induction events generalizing w c with
  | nil => exact h
  | cons e events ih =>
    have later : Event.destroy ∉ events := fun mem => lives (List.mem_cons_of_mem e mem)
    cases e with
    | change f => exact ih (w := { w with data := f w.data }) h later
    | render => exact ih (render h) later
    | destroy => exact absurd List.mem_cons_self lives

/-- What destroying a component brings about holds ever after. -/
theorem performAll_destroyed
    (render : ∀ {w : World δ} {c : κ}, P c w.slots →
      P ((kind.render c).run w).1.2 ((kind.render c).run w).2.slots)
    (destroy : ∀ {w : World δ} {c : κ}, P c w.slots →
      Q ((kind.destroy c).run w).1 ((kind.destroy c).run w).2.slots)
    (ended : ∀ {c : κ} {t : SlotTree}, Q c t → kind.Ended c)
    (h : P c w.slots) (events : List (Event δ)) (dies : Event.destroy ∈ events) :
    Q ((kind.performAll events c).run w).1 ((kind.performAll events c).run w).2.slots := by
  induction events generalizing w c with
  | nil => cases dies
  | cons e events ih =>
    cases e with
    | change f =>
      have later : Event.destroy ∈ events := by simpa using dies
      exact ih (w := { w with data := f w.data }) h later
    | render =>
      have later : Event.destroy ∈ events := by simpa using dies
      exact ih (render h) later
    | destroy =>
      have gone := destroy h
      obtain ⟨same, slots⟩ := (ended gone).performAll events ((kind.destroy c).run w).2
      rw [performAll, perform, Act.run_bind, same, slots]
      exact gone

end Kind

namespace Probe

variable {p : Probe} {w : World Bench}

/-- A probe that is alive leaves the slots alone when it is rendered. -/
theorem run_render (alive : p.base.isDestroyed = false) :
    ((render p).run w).1.2 = { p with base := p.base.rendered } ∧
      ((render p).run w).2.slots = w.slots := by
  unfold render
  rw [alive]
  simp only [Bool.false_eq_true, if_false, Act.run_bind, Act.run_read, Bench.note, Act.run_change]
  by_cases fails : (p.shown w.data).1.startsWith "!" = true
  · simp only [fails, if_true]
    exact ⟨rfl, rfl⟩
  · simp only [fails]
    exact ⟨rfl, rfl⟩

theorem run_destroy (alive : p.base.isDestroyed = false) :
    ((destroy p).run w).2.slots = w.slots.delete p.base.slot := by
  unfold destroy
  rw [alive]
  rfl

def body : Body Bench Probe where
  kind := kind
  create := next
  own p := [p.base.slot]
  Fit t p := p.base.isDestroyed = false ∧ p.base.slot < t.size
  slot_mem_own _ := List.mem_singleton.mpr rfl
  lt_size h i mem := by
    rw [List.mem_singleton.mp mem]
    exact h.2
  fit_congr h same := ⟨h.1, SlotTree.lt_size_of_seen h.2 (same _ (List.mem_singleton.mpr rfl))⟩
  create_keeps w := w.slots.keeps_create _
  create_own w i mem := Nat.le_of_eq (List.mem_singleton.mp mem).symm
  create_parent w := by
    show (w.slots.create _).2.parent? w.slots.size = none
    rw [SlotTree.parent?, SlotTree.slot?_create, if_pos rfl]
    rfl
  create_fit w := by
    refine ⟨rfl, ?_⟩
    show w.slots.size < (w.slots.create _).2.size
    rw [SlotTree.size_create]
    exact Nat.lt_succ_self _
  render_slot h := congrArg (·.base.slot) (run_render h.1).1
  render_keeps {w c} h := by
    have same : ((kind.render c).run w).2.slots = w.slots := (run_render h.1).2
    rw [same]
    exact SlotTree.Keeps.refl _ w.slots
  render_own h i mem := by
    rw [kind, (run_render h.1).1] at mem
    exact Or.inl mem
  render_parent h := by
    rw [kind, (run_render h.1).2]
  render_fit h := by
    rw [kind, (run_render h.1).1, (run_render h.1).2]
    exact ⟨rfl, h.2⟩
  destroy_keeps {w c} h _ := by
    have same : ((kind.destroy c).run w).2.slots = w.slots.delete c.base.slot := run_destroy h.1
    rw [same]
    exact SlotTree.Keeps.refl _ _

end Probe

end DirectiveTemplates.Live
