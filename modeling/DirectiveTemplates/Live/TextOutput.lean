import DirectiveTemplates.Live.Component

/-!
Writes a value as text. The text slot is there from the start and empty until the first render.
-/
namespace DirectiveTemplates.Live

structure TextOutput where
  base : Base
  text : SlotId
  deriving DecidableEq, Repr

namespace TextOutput

def create (slot : SlotId) : Act δ TextOutput := do
  let text ← Act.newSlot (.text "")
  Act.append slot text
  return ⟨⟨slot, .fresh⟩, text⟩

def render (value : Option (δ → String)) (c : TextOutput) : Act δ (RenderResult × TextOutput) := do
  if c.base.isDestroyed then return (.error .destroyed, c)
  match value with
  | none => return (.error (.missingBinding "value"), c)
  | some value =>
    let text ← Act.read value
    Act.changeSlots (·.setText c.text text)
    return (.ok (), { c with base := c.base.rendered })

def destroy (c : TextOutput) : Act δ TextOutput := do
  if c.base.isDestroyed then return c
  return { c with base := ← c.base.destroy }

end TextOutput

end DirectiveTemplates.Live
