import DirectiveTemplates.Live.Component

/-!
Repeats a body for the items of a collection. Children are kept by position: each render reuses
those it can, creates the missing ones and destroys those that are left over.
-/
namespace DirectiveTemplates.Live

structure ForEach (τ κ : Type) where
  base : Base
  /-- The collection that the last render saw. -/
  computed : List τ
  children : List κ

structure ForEachBindings (δ τ κ : Type) where
  collection : Option (δ → List τ) := none
  setElement : Option (τ → δ → δ) := none
  setIndex : Option (Nat → δ → δ) := none
  body : Option (Act δ κ) := none

namespace ForEach

def firstError : RenderResult → RenderResult → RenderResult
  | .error e, _ => .error e
  | .ok (), later => later

def setVariables (setElement : τ → δ → δ) (setIndex : Option (Nat → δ → δ)) (i : Nat) (item : τ) :
    Act δ Unit := do
  Act.change (setElement item)
  match setIndex with
  | some set => Act.change (set i)
  | none => pure ()

/-- Brings the children into line with the items from position `i` on: renders a child for each
item, creating those that are missing, and then destroys the children without an item. A child
that fails does not stop the others; the first error is the result. -/
def reconcile (kind : Kind δ κ) (create : Act δ κ) (prepare : Nat → τ → Act δ Unit)
    (slot : SlotId) : Nat → List τ → List κ → Act δ (RenderResult × List κ)
  | _, [], surplus => do
    let _ ← kind.destroyAll surplus
    return (.ok (), [])
  | i, item :: items, c :: cs => do
    prepare i item
    let (first, c) ← kind.render c
    let (later, cs) ← reconcile kind create prepare slot (i + 1) items cs
    return (firstError first later, c :: cs)
  | i, item :: items, [] => do
    prepare i item
    let c ← create
    let (first, c) ← kind.render c
    Act.append slot (kind.slot c)
    let (later, cs) ← reconcile kind create prepare slot (i + 1) items []
    return (firstError first later, c :: cs)

def render (kind : Kind δ κ) (b : ForEachBindings δ τ κ) (c : ForEach τ κ) :
    Act δ (RenderResult × ForEach τ κ) := do
  if c.base.isDestroyed then return (.error .destroyed, c)
  match b.collection, b.setElement, b.body with
  | none, _, _ => return (.error (.missingBinding "collection"), c)
  | some _, none, _ => return (.error (.missingBinding "element_variable"), c)
  | some _, some _, none => return (.error (.missingBinding "body"), c)
  | some collection, some setElement, some create =>
    let items ← Act.read collection
    let prepare := setVariables setElement b.setIndex
    let (result, children) ← reconcile kind create prepare c.base.slot 0 items c.children
    return (result, ⟨c.base.rendered, items, children⟩)

def destroy (kind : Kind δ κ) (c : ForEach τ κ) : Act δ (ForEach τ κ) := do
  if c.base.isDestroyed then return c
  let base ← c.base.destroy
  let _ ← kind.destroyAll c.children
  return { c with base := base, children := [] }

end ForEach

end DirectiveTemplates.Live
