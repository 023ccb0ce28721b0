import DirectiveTemplates.Live.Component

/-!
Components that note what is done with them. They fail on demand: when the item they show starts
with an exclamation mark.
-/
namespace DirectiveTemplates.Live

structure Bench where
  items : List String := []
  flag : Bool := false
  item : String := ""
  index : Nat := 99
  /-- The items of the probes that have one of their own. -/
  leaves : List String := []
  log : List String := []
  created : Nat := 0
  deriving DecidableEq, Repr

structure Probe where
  number : Nat
  base : Base
  /-- It shows an item of its own, not the common one. -/
  isLeaf : Bool
  deriving DecidableEq, Repr

namespace Bench

def note (line : String) : Act Bench Unit := Act.change fun b => { b with log := b.log ++ [line] }

end Bench

namespace Probe

def shown (p : Probe) (b : Bench) : String × Nat :=
  if p.isLeaf then ((b.leaves[p.number]?).getD "", 0) else (b.item, b.index)

def create (number : Nat) (isLeaf : Bool) : Act Bench Probe := do
  let slot ← Act.newSlot (.markup s!"[{number}]")
  return ⟨number, ⟨slot, .fresh⟩, isLeaf⟩

def render (p : Probe) : Act Bench (RenderResult × Probe) := do
  if p.base.isDestroyed then
    Bench.note s!"refuse {p.number}"
    return (.error .destroyed, p)
  let (item, index) ← Act.read p.shown
  Bench.note s!"render {p.number} {item}@{index}"
  let p := { p with base := p.base.rendered }
  if item.startsWith "!" then return (.error (.unknownDirective item), p)
  return (.ok (), p)

def destroy (p : Probe) : Act Bench Probe := do
  if p.base.isDestroyed then return p
  Bench.note s!"destroy {p.number}"
  return { p with base := ← p.base.destroy }

def kind : Kind Bench Probe := ⟨fun p => p.base.slot, render, destroy⟩

def next : Act Bench Probe := do
  let number ← Act.read (·.created)
  Act.change fun b => { b with created := number + 1 }
  Bench.note s!"create {number}"
  create number false

end Probe

inductive Layout where
  | leaf (item : String)
  | group (children : List Layout)

namespace Layout

mutual

/-- Makes an arrangement. Its probes are numbered in order, each with its own item. -/
def build : Layout → Act Bench (Nested Probe)
  | leaf item => do
    let number ← Act.read (·.leaves.length)
    Act.change fun b => { b with leaves := b.leaves ++ [item] }
    return .leaf (← Probe.create number true)
  | group children => do
    let slot ← Act.newSlot .container
    return .group ⟨slot, .fresh⟩ (← buildAll slot children)

def buildAll (slot : SlotId) : List Layout → Act Bench (List (Nested Probe))
  | [] => return []
  | l :: ls => do
    let c ← build l
    Act.append slot (c.slot Probe.kind)
    let cs ← buildAll slot ls
    return c :: cs

end

end Layout

end DirectiveTemplates.Live
