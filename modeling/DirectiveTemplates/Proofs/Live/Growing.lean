import DirectiveTemplates.Proofs.Live.Placements
import Mathlib.Order.Monotone.Basic

/-!
Actions and the number of cells. No action gives a cell back, so an instance that is placed stays
so, and what is made for a forest inside placed instances is placed as well.
-/
namespace DirectiveTemplates.Live

open Json

abbrev World.cellCount (w : World Session) : Nat := w.data.cells.size

/-- An action gives no cell back, and from a number of cells with `pre` it comes to one with
`post`. -/
def Grows {α : Type} (x : Act Session α) (pre : Nat → Prop) (post : Nat → α → Prop) : Prop :=
  ∀ w : World Session, pre w.cellCount →
    w.cellCount ≤ (x.run w).2.cellCount ∧ post (x.run w).2.cellCount (x.run w).1

namespace Grows

variable {α β : Type} {x : Act Session α} {pre pre' : Nat → Prop} {post post' : Nat → α → Prop}

theorem pure {a : α} (h : ∀ n, pre n → post n a) : Grows (pure a) pre post :=
  fun _ hw => ⟨Nat.le_refl _, h _ hw⟩

theorem mono (h : Grows x pre post) (before : ∀ n, pre' n → pre n)
    (after : ∀ n a, post n a → post' n a) : Grows x pre' post' := by
  intro w hw
  obtain ⟨le, done⟩ := h w (before _ hw)
  exact ⟨le, after _ _ done⟩

theorem weaken (h : Grows x pre post) (before : ∀ n, pre' n → pre n) : Grows x pre' post :=
  h.mono before fun _ _ h => h

theorem bind {f : α → Act Session β} {last : Nat → β → Prop} (first : Grows x pre post)
    (next : ∀ a, Grows (f a) (post · a) last) : Grows (x >>= f) pre last := by
  intro w hw
  obtain ⟨le, done⟩ := first w hw
  obtain ⟨le', done'⟩ := next _ _ done
  exact ⟨Nat.le_trans le le', done'⟩

/-- What holds of all greater numbers of cells as well is kept beside. -/
theorem beside {kept : Nat → Prop} (mono : Monotone kept) (h : Grows x pre post) :
    Grows x (fun n => pre n ∧ kept n) fun n a => post n a ∧ kept n := by
  intro w hw
  obtain ⟨le, done⟩ := h w hw.1
  exact ⟨le, done, mono le hw.2⟩

/-- What an action starts from is still there afterwards when it holds of all greater numbers. -/
theorem keeping {kept : Nat → Prop} (mono : Monotone kept)
    (h : Grows x (fun n => pre n ∧ kept n) post) :
    Grows x (fun n => pre n ∧ kept n) fun n a => post n a ∧ kept n :=
  (h.beside mono).weaken fun _ h => ⟨h, h.2⟩

/-- An action that makes no cells. -/
theorem quiet (same : ∀ w, (x.run w).2.cellCount = w.cellCount) : Grows x pre fun n _ => pre n := by
  intro w hw
  rw [same w]
  exact ⟨Nat.le_refl _, hw⟩

theorem newSlot (content : SlotContent) : Grows (Act.newSlot content) pre fun n _ => pre n :=
  quiet fun _ => rfl

theorem append (p child : SlotId) : Grows (Act.append p child) pre fun n _ => pre n :=
  quiet fun _ => rfl

theorem read (f : Session → α) : Grows (Act.read f) pre fun n _ => pre n := quiet fun _ => rfl

theorem note (line : String) : Grows (Interpreter.note line) pre fun n _ => pre n :=
  quiet fun _ => rfl

theorem setCell (cell : CellId) (v : Value) :
    Grows (Act.change (Interpreter.setCell cell v)) pre fun n _ => pre n :=
  quiet fun w => Cells.size_set w.data.cells cell v

theorem destroyBase (b : Base) : Grows (b.destroy : Act Session Base) pre fun n _ => pre n :=
  quiet fun _ => rfl

end Grows

variable (nodes : List TemplateNode)

/-- A chain of instances that are placed, with at most `n` cells so far. -/
def Within (n : Nat) (chain : List Placement) : Prop := ∃ m ≤ n, Placed nodes chain m

def AllWithin (n : Nat) (chains : List (List Placement)) : Prop :=
  ∀ chain ∈ chains, Within nodes n chain

theorem within_mono (chain : List Placement) : Monotone (Within nodes · chain) :=
  fun _ _ le ⟨m, below, placed⟩ => ⟨m, below.trans le, placed⟩

theorem allWithin_mono (chains : List (List Placement)) : Monotone (AllWithin nodes · chains) :=
  fun _ _ le all chain mem => within_mono nodes chain le (all chain mem)

variable {nodes} {around : List Placement}

@[simp] theorem allWithin_nil (n : Nat) : AllWithin nodes n [] := fun _ mem => by cases mem

theorem allWithin_append {n : Nat} {chains chains' : List (List Placement)} :
    AllWithin nodes n (chains ++ chains') ↔ AllWithin nodes n chains ∧ AllWithin nodes n chains' :=
  List.forall_mem_append

namespace Interpreter

variable (i : Interpreter)

theorem enter_grows {u : DirectiveUse} {content : List TemplateNode}
    (among : (u, content) ∈ TemplateNode.directivesAll (forestIn nodes around)) :
    Grows (Frame.enter u.binders ⟨environmentIn around, []⟩) (Within nodes · around)
      fun n f => Within nodes n (⟨u, content, f⟩ :: around) := by
  rintro w ⟨m, le, placed⟩
  obtain ⟨cells, run, size, -⟩ := Frame.enter_eq u.binders ⟨environmentIn around, []⟩ w
  refine ⟨?_, _, Nat.le_refl _, .inside placed among le rfl⟩
  rw [StateT.run, run]
  show w.data.cells.size ≤ cells.size
  rw [size]
  exact Nat.le_add_right _ _

/-- A new directive instance is placed, and shows nothing yet. -/
theorem buildDirective_grows {u : DirectiveUse} {content : List TemplateNode}
    (among : (u, content) ∈ TemplateNode.directivesAll (forestIn nodes around)) :
    Grows (i.buildDirective u (environmentIn around)) (Within nodes · around)
      fun n s => AllWithin nodes n (placements around (.directive u content) s) := by
  unfold buildDirective
  apply (Grows.newSlot .container).bind
  intro slot
  cases i.kinds u.className with
  | none =>
    apply Grows.pure
    intro n _
    exact allWithin_nil n
  | some kind =>
    apply (enter_grows among).bind
    intro f
    have alone (s : NodeState) (frame : s.frame? = some f) (none : s.fragments = []) (n : Nat)
        (placed : Within nodes n (⟨u, content, f⟩ :: around)) :
        AllWithin nodes n (placements around (.directive u content) s) := by
      intro chain mem
      simp only [placements, frame, none, List.flatMap_nil, List.mem_singleton] at mem
      rw [mem]
      exact placed
    cases kind with
    | forEach => exact Grows.pure (alone _ rfl rfl)
    | conditional => exact Grows.pure (alone _ rfl rfl)
    | text =>
      have created : Grows (TextOutput.create slot)
          (fun n => Within nodes n (⟨u, content, f⟩ :: around))
          fun n _ => Within nodes n (⟨u, content, f⟩ :: around) := Grows.quiet fun _ => rfl
      exact created.bind fun c => Grows.pure (alone _ rfl rfl)
    | trigger => exact Grows.pure (alone _ rfl rfl)
    | definition => exact Grows.pure (alone _ rfl rfl)

mutual

/-- A node is made with all its instances placed inside those around it. -/
theorem build_grows (parent : SlotId) : (n : TemplateNode) →
    n.directives ⊆ TemplateNode.directivesAll (forestIn nodes around) →
    Grows (i.build parent (environmentIn around) n) (Within nodes · around)
      fun k s => AllWithin nodes k (placements around n s)
  | .text value, _ => by
    apply (Grows.newSlot (.markup value)).bind
    intro slot
    apply (Grows.append parent slot).bind
    intro _
    apply Grows.pure
    intro k _
    simp only [placements]
    exact allWithin_nil k
  | .element tag attributes children, sub => by
    apply (Grows.newSlot (.element tag attributes)).bind
    intro slot
    apply (buildAll_grows slot children sub).bind
    intro states
    apply (Grows.append parent slot).bind
    intro _
    apply Grows.pure
    intro k all
    simp only [placements]
    exact all
  | .directive u content, sub => by
    apply (i.buildDirective_grows (sub List.mem_cons_self)).bind
    intro state
    apply (Grows.append parent state.slot).bind
    intro _
    exact Grows.pure fun _ all => all

theorem buildAll_grows (parent : SlotId) : (ns : List TemplateNode) →
    TemplateNode.directivesAll ns ⊆ TemplateNode.directivesAll (forestIn nodes around) →
    Grows (i.buildAll parent (environmentIn around) ns) (Within nodes · around)
      fun k ss => AllWithin nodes k (placementsAll around ns ss)
  | [], _ => by
    apply Grows.pure
    intro k _
    simp only [placementsAll]
    exact allWithin_nil k
  | n :: ns, sub => by
    obtain ⟨here, later⟩ := List.append_subset.mp sub
    have first : Grows (i.build parent (environmentIn around) n) (Within nodes · around)
        fun k s => Within nodes k around ∧ AllWithin nodes k (placements around n s) := by
      have kept := (build_grows parent n here).beside (within_mono nodes around)
      exact kept.mono (fun _ h => ⟨h, h⟩) fun _ _ h => ⟨h.2, h.1⟩
    apply first.bind
    intro s
    apply ((buildAll_grows parent ns later).beside
      (allWithin_mono nodes (placements around n s))).bind
    intro ss
    apply Grows.pure
    rintro k ⟨rest, all⟩
    simp only [placementsAll]
    exact allWithin_append.mpr ⟨all, rest⟩

end

/-- The content of an instance is made inside it. -/
theorem fragment_grows (nodes : List TemplateNode) (around : List Placement) :
    Grows (i.fragment (forestIn nodes around) (environmentIn around)) (Within nodes · around)
      fun k s => AllWithin nodes k (placementsAll around (forestIn nodes around) s.members) := by
  apply (Grows.newSlot .container).bind
  intro slot
  apply (i.buildAll_grows slot _ (List.Subset.refl _)).bind
  intro states
  exact Grows.pure fun _ all => all

end Interpreter

end DirectiveTemplates.Live
