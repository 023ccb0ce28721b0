import DirectiveTemplates.Live.Component

/-!
Shows a body while a condition holds. A child that fails its first render is not kept.
-/
namespace DirectiveTemplates.Live

structure Conditional (κ : Type) where
  base : Base
  child : Option κ

structure ConditionalBindings (δ κ : Type) where
  condition : Option (δ → Bool) := none
  body : Option (Act δ κ) := none

namespace Conditional

def isShown (c : Conditional κ) : Bool := c.child.isSome

/-- Renders the child that is shown, or a new one, which is shown only when that succeeds. -/
def appear (kind : Kind δ κ) (create : Act δ κ) (c : Conditional κ) :
    Act δ (RenderResult × Conditional κ) := do
  match c.child with
  | some child =>
    match ← kind.render child with
    | (.ok (), child) => return (.ok (), ⟨c.base.rendered, some child⟩)
    | (.error e, child) => return (.error e, ⟨c.base, some child⟩)
  | none =>
    let child ← create
    match ← kind.render child with
    | (.ok (), child) =>
      Act.append c.base.slot (kind.slot child)
      return (.ok (), ⟨c.base.rendered, some child⟩)
    | (.error e, _) => return (.error e, c)

def vanish (kind : Kind δ κ) (c : Conditional κ) : Act δ (RenderResult × Conditional κ) := do
  match c.child with
  | some child =>
    let _ ← kind.destroy child
    return (.ok (), ⟨c.base.rendered, none⟩)
  | none => return (.ok (), ⟨c.base.rendered, none⟩)

def render (kind : Kind δ κ) (b : ConditionalBindings δ κ) (c : Conditional κ) :
    Act δ (RenderResult × Conditional κ) := do
  if c.base.isDestroyed then return (.error .destroyed, c)
  match b.condition, b.body with
  | none, _ => return (.error (.missingBinding "condition"), c)
  | some _, none => return (.error (.missingBinding "body"), c)
  | some condition, some create =>
    if ← Act.read condition then c.appear kind create else c.vanish kind

def destroy (kind : Kind δ κ) (c : Conditional κ) : Act δ (Conditional κ) := do
  if c.base.isDestroyed then return c
  let base ← c.base.destroy
  match c.child with
  | some child =>
    let _ ← kind.destroy child
    return ⟨base, none⟩
  | none => return ⟨base, none⟩

end Conditional

end DirectiveTemplates.Live
