import DirectiveTemplates.Binding.Tree
import DirectiveTemplates.Directive.ClassTable
import DirectiveTemplates.Live.Conditional
import DirectiveTemplates.Live.Environment
import DirectiveTemplates.Live.ForEach
import DirectiveTemplates.Live.TextOutput

/-!
Bound trees at work. Building a forest makes its slots and its components; the components of the
content of a directive are made when the directive asks for them. The state of a component stands
beside the node it was made for, so that rendering follows the tree.
-/
namespace DirectiveTemplates.Live

open Json

structure Session where
  cells : Cells
  log : List String

inductive DirectiveKind where
  | forEach
  | conditional
  | text
  /-- Carries out an action at every render. -/
  | trigger
  /-- Sets a variable to a value and shows its content; the value may have to be there. -/
  | definition (valueRequired : Bool)
  deriving DecidableEq, Repr

structure Interpreter where
  evaluate : Evaluator
  kinds : String → Option DirectiveKind

def standardKinds : String → Option DirectiveKind := fun className =>
  if className = ClassTable.forEachClass then some .forEach
  else if className = ClassTable.conditionalClass then some .conditional
  else if className = ClassTable.textClass then some .text
  else none

/-- What the variables of a directive are bound to: the environment of its expressions and its
content, and the cells of its own variables by setter, the latest first. -/
structure Frame where
  environment : Environment
  own : List (String × CellId)
  deriving DecidableEq, Repr

namespace Frame

/-- Binds the variables of a directive to new cells, one inside the other. -/
def enter : List VariableBinding → Frame → Act Session Frame
  | [], f => return f
  | v :: vs, f => do
    let (cell, cells) ← Act.read fun s => s.cells.create .null
    Act.change fun s => { s with cells := cells }
    enter vs ⟨f.environment.bind v.name cell, (v.setter, cell) :: f.own⟩

def own? (f : Frame) (setter : String) : Option CellId := f.own.lookup setter

end Frame

inductive NodeState where
  /-- Text has a slot and no component. -/
  | text (slot : SlotId)
  | group (base : Base) (children : List NodeState)
  /-- A directive whose class is not implemented. -/
  | unresolved (base : Base)
  | forEach (frame : Frame) (state : ForEach Value NodeState)
  | conditional (frame : Frame) (state : Conditional NodeState)
  | output (frame : Frame) (state : TextOutput)
  | trigger (frame : Frame) (base : Base)
  | definition (frame : Frame) (base : Base) (child : Option NodeState)

namespace NodeState

def ofGroup (g : Group NodeState) : NodeState := .group g.base g.children

def slot : NodeState → SlotId
  | .text slot => slot
  | .group base _ => base.slot
  | .unresolved base => base.slot
  | .forEach _ state => state.base.slot
  | .conditional _ state => state.base.slot
  | .output _ state => state.base.slot
  | .trigger _ base => base.slot
  | .definition _ base _ => base.slot

end NodeState

end DirectiveTemplates.Live

namespace DirectiveTemplates

def DirectiveUse.plan? (u : DirectiveUse) (setter : String) : Option Json.Value :=
  (u.computations.reverse.find? (·.setter == setter)).map (·.plan.plan)

def DirectiveUse.action? (u : DirectiveUse) (setter : String) : Option Json.Value :=
  (u.actions.reverse.find? (·.setter == setter)).map (·.plan)

mutual

/-- Whether a node makes a component: a directive does, and an element with one inside. -/
def TemplateNode.isLive : TemplateNode → Bool
  | .text _ => false
  | .element _ _ children => TemplateNode.anyLive children
  | .directive _ _ => true

def TemplateNode.anyLive : List TemplateNode → Bool
  | [] => false
  | n :: ns => n.isLive || TemplateNode.anyLive ns

end

end DirectiveTemplates

namespace DirectiveTemplates.Live

open Json

namespace Interpreter

def value (i : Interpreter) (env : Environment) (plan : Value) (s : Session) : Value :=
  i.evaluate plan (env.lookup s.cells)

def computation? (i : Interpreter) (u : DirectiveUse) (f : Frame) (setter : String) :
    Option (Session → Value) :=
  (u.plan? setter).map (i.value f.environment)

def buildDirective (i : Interpreter) (u : DirectiveUse) (env : Environment) :
    Act Session NodeState := do
  let slot ← Act.newSlot .container
  match i.kinds u.className with
  | none => return .unresolved ⟨slot, .fresh⟩
  | some kind =>
    let frame ← Frame.enter u.binders ⟨env, []⟩
    match kind with
    | .forEach => return .forEach frame ⟨⟨slot, .fresh⟩, [], []⟩
    | .conditional => return .conditional frame ⟨⟨slot, .fresh⟩, none⟩
    | .text => return .output frame (← TextOutput.create slot)
    | .trigger => return .trigger frame ⟨slot, .fresh⟩
    | .definition _ => return .definition frame ⟨slot, .fresh⟩ none

mutual

/-- Makes the slots and the component of a node, and puts them into the slot `parent`. -/
def build (i : Interpreter) (parent : SlotId) (env : Environment) :
    TemplateNode → Act Session NodeState
  | .text value => do
    let slot ← Act.newSlot (.markup value)
    Act.append parent slot
    return .text slot
  | .element tag attributes children => do
    let slot ← Act.newSlot (.element tag attributes)
    let states ← i.buildAll slot env children
    Act.append parent slot
    return .group ⟨slot, .fresh⟩ states
  | .directive u _ => do
    let state ← i.buildDirective u env
    Act.append parent state.slot
    return state

def buildAll (i : Interpreter) (parent : SlotId) (env : Environment) :
    List TemplateNode → Act Session (List NodeState)
  | [] => return []
  | n :: ns => do
    let state ← i.build parent env n
    let states ← i.buildAll parent env ns
    return state :: states

end

def fragment (i : Interpreter) (nodes : List TemplateNode) (env : Environment) :
    Act Session NodeState := do
  let slot ← Act.newSlot .container
  return .group ⟨slot, .fresh⟩ (← i.buildAll slot env nodes)

def content? (i : Interpreter) (u : DirectiveUse) (content : List TemplateNode) (f : Frame) :
    Option (Act Session NodeState) :=
  u.contentSetter.map fun _ => i.fragment content f.environment

def setCell (cell : CellId) (v : Value) (s : Session) : Session :=
  { s with cells := s.cells.set cell v }

def forEachBindings (i : Interpreter) (u : DirectiveUse) (content : List TemplateNode)
    (f : Frame) : ForEachBindings Session Value NodeState where
  collection := (i.computation? u f "set_collection").map fun value s => itemsOf (value s)
  setElement := (f.own? "set_element_variable").map setCell
  setIndex := (f.own? "set_index_variable").map fun cell n => setCell cell (.ofNat n)
  body := i.content? u content f

def conditionalBindings (i : Interpreter) (u : DirectiveUse) (content : List TemplateNode)
    (f : Frame) : ConditionalBindings Session NodeState where
  condition := (i.computation? u f "set_condition").map fun value s => holds (value s)
  body := i.content? u content f

def note (line : String) : Act Session Unit := Act.change fun s => { s with log := s.log ++ [line] }

/-- Evaluates a plan for its own sake and notes what came of it. -/
def execute (i : Interpreter) (env : Environment) (plan : Value) : Act Session Unit := do
  let v ← Act.read (i.value env plan)
  note s!"execute {plan.compactText} = {v.compactText}"

def renderTrigger (i : Interpreter) (u : DirectiveUse) (f : Frame) (base : Base) :
    Act Session RenderResult := do
  if base.isDestroyed then return .error .destroyed
  match u.action? "set_handler" with
  | none => return .error (.missingBinding "handler")
  | some plan =>
    i.execute f.environment plan
    return .ok ()

/-- The value of a definition; one that need not be there is null. -/
def definedValue (i : Interpreter) (u : DirectiveUse) (f : Frame) (required : Bool) (s : Session) :
    Option Value :=
  match i.computation? u f "set_value" with
  | some value => some (value s)
  | none => if required then none else some .null

/-- Notes a definition, sets its variable and renders its content, made at the first time. -/
def define (i : Interpreter) (kind : Kind Session NodeState) (u : DirectiveUse)
    (content : List TemplateNode) (f : Frame) (base : Base) (child : Option NodeState) (v : Value) :
    Act Session (RenderResult × Option NodeState) := do
  note s!"let {u.className} {v.compactText}"
  match f.own? "set_variable" with
  | some cell => Act.change (setCell cell v)
  | none => pure ()
  let child ← match child, i.content? u content f with
    | some c, _ => pure (some c)
    | none, none => pure none
    | none, some create => do
      let c ← create
      Act.append base.slot (kind.slot c)
      pure (some c)
  match child with
  | none => return (.ok (), none)
  | some c =>
    let (result, c) ← kind.render c
    return (result, some c)

def renderDefinition (i : Interpreter) (kind : Kind Session NodeState) (u : DirectiveUse)
    (content : List TemplateNode) (required : Bool) (f : Frame) (base : Base)
    (child : Option NodeState) : Act Session (RenderResult × Option NodeState) := do
  if base.isDestroyed then return (.error .destroyed, child)
  match ← Act.read (i.definedValue u f required) with
  | none => return (.error (.missingBinding "value"), child)
  | some v => i.define kind u content f base child v

/-- Renders the component of a directive, when `kind` is the kind of its content. -/
def renderDirective (i : Interpreter) (kind : Kind Session NodeState) (u : DirectiveUse)
    (content : List TemplateNode) (state : NodeState) : Act Session (RenderResult × NodeState) := do
  match state with
  | .unresolved base =>
    if base.isDestroyed then return (.error .destroyed, state)
    return (.error (.unknownDirective u.className), state)
  | .forEach f c =>
    let (result, c) ← c.render kind (i.forEachBindings u content f)
    return (result, .forEach f c)
  | .conditional f c =>
    let (result, c) ← c.render kind (i.conditionalBindings u content f)
    return (result, .conditional f c)
  | .output f c =>
    let value := (i.computation? u f "set_value").map fun value s => shownText (value s)
    let (result, c) ← c.render value
    return (result, .output f c)
  | .trigger f base => return (← i.renderTrigger u f base, state)
  | .definition f base child =>
    let required := i.kinds u.className == some (.definition true)
    let (result, child) ← i.renderDefinition kind u content required f base child
    return (result, .definition f base child)
  | .text _ | .group _ _ => return (.ok (), state)

/-- Destroys the component of a directive, when `kind` is the kind of its content. -/
def destroyDirective (kind : Kind Session NodeState) (state : NodeState) :
    Act Session NodeState := do
  match state with
  | .unresolved base =>
    if base.isDestroyed then return state else return .unresolved (← base.destroy)
  | .forEach f c => return .forEach f (← c.destroy kind)
  | .conditional f c => return .conditional f (← c.destroy kind)
  | .output f c => return .output f (← c.destroy)
  | .trigger f base => if base.isDestroyed then return state else return .trigger f (← base.destroy)
  | .definition f base child =>
    if base.isDestroyed then return state
    let base ← base.destroy
    match child with
    | none => return .definition f base none
    | some c => return .definition f base (some (← kind.destroy c))
  | .text _ | .group _ _ => return state

def inertKind : Kind Session NodeState :=
  ⟨NodeState.slot, fun state => return (.ok (), state), pure⟩

def groupKind (kinds : List (Kind Session NodeState)) : Kind Session NodeState where
  slot := NodeState.slot
  render
    | .group base children => do
      let (result, g) ← Group.render ⟨base, children⟩ (Kind.renderEach kinds children)
      return (result, .ofGroup g)
    | state => return (.ok (), state)
  destroy
    | .group base children => do
      let g ← Group.destroy ⟨base, children⟩ (Kind.destroyEach kinds children)
      return .ofGroup g
    | state => return state

def directiveKind (i : Interpreter) (u : DirectiveUse) (content : List TemplateNode)
    (inner : Kind Session NodeState) : Kind Session NodeState :=
  ⟨NodeState.slot, i.renderDirective inner u content, destroyDirective inner⟩

mutual

def kindOf (i : Interpreter) : TemplateNode → Kind Session NodeState
  | .text _ => inertKind
  | .element _ _ children =>
    if TemplateNode.anyLive children then groupKind (i.kindsOf children) else inertKind
  | .directive u content => i.directiveKind u content (groupKind (i.kindsOf content))

def kindsOf (i : Interpreter) : List TemplateNode → List (Kind Session NodeState)
  | [] => []
  | n :: ns => i.kindOf n :: i.kindsOf ns

end

def fragmentKind (i : Interpreter) (nodes : List TemplateNode) : Kind Session NodeState :=
  groupKind (i.kindsOf nodes)

end Interpreter

structure Instance where
  interpreter : Interpreter
  nodes : List TemplateNode
  root : NodeState
  this : CellId
  world : World Session

namespace Instance

def thisName : String := "this"

/-- Makes the components of a forest. Nothing is rendered yet. -/
def create (i : Interpreter) (nodes : List TemplateNode) (model : Value) : Instance :=
  let (this, cells) := Cells.empty.create model
  let world : World Session := ⟨.empty, ⟨cells, []⟩⟩
  let (root, world) := (i.fragment nodes (Environment.empty.bind thisName this)).run world
  ⟨i, nodes, root, this, world⟩

def render (t : Instance) : RenderResult × Instance :=
  let ((result, root), world) := ((t.interpreter.fragmentKind t.nodes).render t.root).run t.world
  (result, { t with root := root, world := world })

/-- Replaces the model; the next render sees it. -/
def setModel (t : Instance) (model : Value) : Instance :=
  { t with world := { t.world with data := Interpreter.setCell t.this model t.world.data } }

def model (t : Instance) : Value := t.world.data.cells.get t.this

def html (t : Instance) : String := t.world.slots.html t.root.slot

def slotCount (t : Instance) : Nat := (t.world.slots.children t.root.slot).length

def log (t : Instance) : List String := t.world.data.log

def destroy (t : Instance) : Instance :=
  let (root, world) := ((t.interpreter.fragmentKind t.nodes).destroy t.root).run t.world
  { t with root := root, world := world }

end Instance

end DirectiveTemplates.Live
