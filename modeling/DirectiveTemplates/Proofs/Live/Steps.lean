import DirectiveTemplates.Proofs.Live.Variables
import DirectiveTemplates.Proofs.Live.Shape

/-!
What an action leaves alone. The components of a template share one world, so each of them is
known by the slots it touches; it never changes the cells that were there before it was made.
Some cells are idle: no directive ever sets them, and they are null.
-/
namespace DirectiveTemplates.Live

namespace Act

variable {δ α β : Type}

@[simp] theorem run_bind (x : Act δ α) (f : α → Act δ β) (w : World δ) :
    (x >>= f).run w = (f (x.run w).1).run (x.run w).2 := rfl

@[simp] theorem run_pure (a : α) (w : World δ) : (pure a : Act δ α).run w = (a, w) := rfl

@[simp] theorem run_read (f : δ → α) (w : World δ) : (Act.read f).run w = (f w.data, w) := rfl

@[simp] theorem run_changeSlots (f : SlotTree → SlotTree) (w : World δ) :
    (changeSlots f : Act δ Unit).run w = ((), { w with slots := f w.slots }) := rfl

end Act

structure Scene where
  world : World Session
  idle : Nat → Prop
  null : ∀ c, idle c → world.data.cells.get c = .null

namespace Scene

abbrev slots (x : Scene) : SlotTree := x.world.slots

abbrev cells (x : Scene) : Cells := x.world.data.cells

def withSlots (x : Scene) (t : SlotTree) : Scene := ⟨{ x.world with slots := t }, x.idle, x.null⟩

def create (x : Scene) (content : SlotContent) : Scene := x.withSlots (x.slots.create content).2

def append (x : Scene) (p child : Nat) : Scene := x.withSlots (x.slots.append p child)

def delete (x : Scene) (child : Nat) : Scene := x.withSlots (x.slots.delete child)

def withCell (x : Scene) (c : Nat) (v : Json.Value) (busy : ¬ x.idle c) : Scene :=
  ⟨{ x.world with data := Interpreter.setCell c v x.world.data }, x.idle, by
    intro d hd
    have ne : d ≠ c := fun e => busy (e ▸ hd)
    exact (Cells.get_set_of_ne ne x.cells v).trans (x.null d hd)⟩

variable (x : Scene)

@[simp] theorem slots_create (content : SlotContent) :
    (x.create content).slots = (x.slots.create content).2 := rfl

@[simp] theorem slots_append (p child : Nat) :
    (x.append p child).slots = x.slots.append p child := rfl

@[simp] theorem slots_delete (child : Nat) : (x.delete child).slots = x.slots.delete child := rfl

@[simp] theorem cells_delete (child : Nat) : (x.delete child).cells = x.cells := rfl

@[simp] theorem run_newSlot (content : SlotContent) :
    (Act.newSlot content).run x.world = (x.slots.size, (x.create content).world) := rfl

@[simp] theorem run_append (p child : Nat) :
    (Act.append p child).run x.world = ((), (x.append p child).world) := rfl

theorem slot?_create_self (content : SlotContent) :
    (x.create content).slots.slot? x.slots.size = some ⟨content, none, []⟩ := by
  simp [SlotTree.slot?_create]

end Scene

/-- What happens between two scenes when only the slots in `touched` may change, and the cells
below `m` keep their values. There may be new slots and cells. -/
structure Step (touched : Nat → Prop) (m : Nat) (x y : Scene) : Prop where
  slots_le : x.slots.size ≤ y.slots.size
  cells_le : x.cells.size ≤ y.cells.size
  slot : ∀ j < x.slots.size, ¬ touched j → y.slots.slot? j = x.slots.slot? j
  cell : ∀ c < m, y.cells.get c = x.cells.get c
  idle : ∀ c < x.cells.size, (y.idle c ↔ x.idle c)

namespace Step

variable {touched touched' : Nat → Prop} {m n : Nat} {x y z : Scene}

theorem refl (touched : Nat → Prop) (m : Nat) (x : Scene) : Step touched m x x :=
  ⟨Nat.le_refl _, Nat.le_refl _, fun _ _ _ => rfl, fun _ _ => rfl, fun _ _ => Iff.rfl⟩

theorem mono (h : Step touched n x y) (le : m ≤ n)
    (sub : ∀ j < x.slots.size, touched j → touched' j) : Step touched' m x y :=
  ⟨h.slots_le, h.cells_le, fun j lt out => h.slot j lt fun hj => out (sub j lt hj),
    fun c lt => h.cell c (Nat.lt_of_lt_of_le lt le), h.idle⟩

theorem trans (h : Step touched m x y) (h' : Step touched' m y z)
    (sub : ∀ j < x.slots.size, touched' j → touched j) : Step touched m x z where
  slots_le := Nat.le_trans h.slots_le h'.slots_le
  cells_le := Nat.le_trans h.cells_le h'.cells_le
  slot := by
    intro j lt out
    have later := h'.slot j (Nat.lt_of_lt_of_le lt h.slots_le) fun hj => out (sub j lt hj)
    exact later.trans (h.slot j lt out)
  cell := fun c lt => (h'.cell c lt).trans (h.cell c lt)
  idle := fun c lt => (h'.idle c (Nat.lt_of_lt_of_le lt h.cells_le)).trans (h.idle c lt)

theorem withSlots (m : Nat) (x : Scene) {t : SlotTree} (le : x.slots.size ≤ t.size)
    (same : ∀ j < x.slots.size, ¬ touched j → t.slot? j = x.slots.slot? j) :
    Step touched m x (x.withSlots t) :=
  ⟨le, Nat.le_refl _, same, fun _ _ => rfl, fun _ _ => Iff.rfl⟩

theorem withCell (touched : Nat → Prop) (x : Scene) {c : Nat} (v : Json.Value)
    (busy : ¬ x.idle c) (le : m ≤ c) : Step touched m x (x.withCell c v busy) where
  slots_le := Nat.le_refl _
  cells_le := by simp [Scene.withCell, Scene.cells, Interpreter.setCell]
  slot := fun _ _ _ => rfl
  cell := fun d lt => Cells.get_set_of_ne (Nat.ne_of_lt (Nat.lt_of_lt_of_le lt le)) x.cells v
  idle := fun _ _ => Iff.rfl

theorem stands (h : Step touched m x y) {parent : Option SlotId} {s : Shape}
    (stands : s.Stands x.slots parent) (apart : ∀ j ∈ s.ids, ¬ touched j) :
    s.Stands y.slots parent :=
  stands.congr s fun j hj => h.slot j (Shape.lt_size_of_stands s stands j hj) (apart j hj)

theorem standAll (h : Step touched m x y) {p : SlotId} {ss : List Shape}
    (stand : Shape.StandAll x.slots p ss) (apart : ∀ j ∈ Shape.idsAll ss, ¬ touched j) :
    Shape.StandAll y.slots p ss :=
  stand.congr ss fun j hj => h.slot j (Shape.lt_size_of_standAll ss stand j hj) (apart j hj)

theorem values (h : Step touched m x y) {env : Environment} (below : env.Below m) :
    env.values y.cells = env.values x.cells :=
  Environment.values_congr below h.cell

end Step

end DirectiveTemplates.Live
