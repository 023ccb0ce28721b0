import DirectiveTemplates.Live.Slot

/-!
Components keep a slot up to date. A component starts fresh, may be rendered any number of times,
and is destroyed for good: its slot leaves its parent and rendering it is an error from then on.
-/
namespace DirectiveTemplates.Live

inductive RenderError where
  | destroyed
  | missingBinding (name : String)
  | unknownDirective (className : String)
  deriving DecidableEq, Repr

def RenderError.message : RenderError → String
  | destroyed => "component was already destroyed"
  | missingBinding name => s!"binding {name} was not supplied"
  | unknownDirective className =>
    s!"no runtime implementation registered for directive {className}"

abbrev RenderResult := Except RenderError Unit

/-- What components act on: the slots, and the data that their bindings read and write. -/
structure World (δ : Type) where
  slots : SlotTree
  data : δ

abbrev Act (δ α : Type) := StateM (World δ) α

namespace Act

def newSlot (content : SlotContent) : Act δ SlotId := fun w =>
  let (i, slots) := w.slots.create content
  (i, { w with slots := slots })

def changeSlots (f : SlotTree → SlotTree) : Act δ Unit := fun w =>
  ((), { w with slots := f w.slots })

def append (p child : SlotId) : Act δ Unit := changeSlots (·.append p child)

def delete (child : SlotId) : Act δ Unit := changeSlots (·.delete child)

def read (f : δ → α) : Act δ α := fun w => (f w.data, w)

def change (f : δ → δ) : Act δ Unit := fun w => ((), { w with data := f w.data })

end Act

inductive Stage where
  | fresh
  | rendered
  | destroyed
  deriving DecidableEq, Repr

/-- The slot of a component and how far its life has come. -/
structure Base where
  slot : SlotId
  stage : Stage
  deriving DecidableEq, Repr

namespace Base

def isDestroyed (b : Base) : Bool := b.stage == .destroyed

def rendered (b : Base) : Base := { b with stage := .rendered }

/-- Ends the life of a component: its slot leaves its parent. -/
def destroy (b : Base) : Act δ Base := do
  Act.delete b.slot
  return { b with stage := .destroyed }

end Base

structure Kind (δ κ : Type) where
  slot : κ → SlotId
  render : κ → Act δ (RenderResult × κ)
  destroy : κ → Act δ κ

namespace Kind

def destroyAll (kind : Kind δ κ) : List κ → Act δ (List κ)
  | [] => return []
  | c :: cs => do
    let c ← kind.destroy c
    let cs ← kind.destroyAll cs
    return c :: cs

/-- Renders components in order, each in its kind, up to and including the first that fails. -/
def renderEach : List (Kind δ κ) → List κ → Act δ (RenderResult × List κ)
  | kind :: kinds, c :: cs => do
    match ← kind.render c with
    | (.error e, c) => return (.error e, c :: cs)
    | (.ok (), c) =>
      let (result, cs) ← renderEach kinds cs
      return (result, c :: cs)
  | _, cs => return (.ok (), cs)

def destroyEach : List (Kind δ κ) → List κ → Act δ (List κ)
  | kind :: kinds, c :: cs => do
    let c ← kind.destroy c
    let cs ← destroyEach kinds cs
    return c :: cs
  | _, cs => return cs

end Kind

/-- Components in the slot of their group. A group renders them in order up to the first error,
and it counts as rendered only when there is none. -/
structure Group (κ : Type) where
  base : Base
  children : List κ

namespace Group

def render (g : Group κ) (pass : Act δ (RenderResult × List κ)) :
    Act δ (RenderResult × Group κ) := do
  if g.base.isDestroyed then return (.error .destroyed, g)
  match ← pass with
  | (.ok (), children) => return (.ok (), ⟨g.base.rendered, children⟩)
  | (.error e, children) => return (.error e, ⟨g.base, children⟩)

def destroy (g : Group κ) (pass : Act δ (List κ)) : Act δ (Group κ) := do
  if g.base.isDestroyed then return g
  let base ← g.base.destroy
  return ⟨base, ← pass⟩

end Group

/-- Groups within groups, with components of one kind as leaves. -/
inductive Nested (κ : Type) where
  | leaf (component : κ)
  | group (base : Base) (children : List (Nested κ))

namespace Nested

def slot (kind : Kind δ κ) : Nested κ → SlotId
  | leaf c => kind.slot c
  | group base _ => base.slot

def ofGroup (g : Group (Nested κ)) : Nested κ := group g.base g.children

mutual

def render (kind : Kind δ κ) : Nested κ → Act δ (RenderResult × Nested κ)
  | leaf c => do
    let (result, c) ← kind.render c
    return (result, leaf c)
  | group base children => do
    let (result, g) ← Group.render ⟨base, children⟩ (renderAll kind children)
    return (result, ofGroup g)

/-- Renders components in order, up to and including the first that fails. -/
def renderAll (kind : Kind δ κ) : List (Nested κ) → Act δ (RenderResult × List (Nested κ))
  | [] => return (.ok (), [])
  | c :: cs => do
    match ← render kind c with
    | (.error e, c) => return (.error e, c :: cs)
    | (.ok (), c) =>
      let (result, cs) ← renderAll kind cs
      return (result, c :: cs)

end

mutual

def destroy (kind : Kind δ κ) : Nested κ → Act δ (Nested κ)
  | leaf c => do
    let c ← kind.destroy c
    return leaf c
  | group base children => do
    let g ← Group.destroy ⟨base, children⟩ (destroyAll kind children)
    return ofGroup g

def destroyAll (kind : Kind δ κ) : List (Nested κ) → Act δ (List (Nested κ))
  | [] => return []
  | c :: cs => do
    let c ← destroy kind c
    let cs ← destroyAll kind cs
    return c :: cs

end

end Nested

end DirectiveTemplates.Live
