import DirectiveTemplates.Proofs.Live.Variables

/-!
The direct evaluation of bound trees: what a forest is written as for the values of its variables,
by recursion on the tree and without slots, cells or components.
-/
namespace DirectiveTemplates.Live

open Json

def Interpreter.standard : Interpreter := ⟨Path.evaluate, standardKinds⟩

namespace Evaluation

/-- What a directive gives to its setters before it has set anything. -/
def unset : String → Value := fun _ => .null

/-- What a repetition gives to its setters for an item. -/
def iteration (i : Nat) (item : Value) : String → Value := fun setter =>
  if setter = "set_element_variable" then item
  else if setter = "set_index_variable" then .ofNat i
  else .null

/-- The value of a plan that a directive evaluates with its own variables unset. -/
def own (u : DirectiveUse) (outer : Bindings) (plan : Value) : Value :=
  Path.evaluate plan fun name => (bindOwn unset u.binders outer).lookup name

def passes (u : DirectiveUse) (content : Bindings → Except RenderError (List Char))
    (outer : Bindings) : Nat → List Value → Except RenderError (List Char)
  | _, [] => .ok []
  | i, item :: items => do
    let first ← content (bindOwn (iteration i item) u.binders outer)
    let rest ← passes u content outer (i + 1) items
    return first ++ rest

/-- A repetition writes its content for every item in order. -/
def repetition (u : DirectiveUse) (content : Bindings → Except RenderError (List Char))
    (outer : Bindings) : Except RenderError (List Char) :=
  match u.plan? "set_collection" with
  | none => .error (.missingBinding "collection")
  | some plan =>
    if u.binders.any (·.setter == "set_element_variable") = false then
      .error (.missingBinding "element_variable")
    else if u.contentSetter.isNone then .error (.missingBinding "body")
    else passes u content outer 0 (itemsOf (own u outer plan))

/-- A condition writes its content exactly when it holds. -/
def conditional (u : DirectiveUse) (content : Bindings → Except RenderError (List Char))
    (outer : Bindings) : Except RenderError (List Char) :=
  match u.plan? "set_condition" with
  | none => .error (.missingBinding "condition")
  | some plan =>
    if u.contentSetter.isNone then .error (.missingBinding "body")
    else if holds (own u outer plan) then content (bindOwn unset u.binders outer)
    else .ok []

/-- A value is written as escaped text. -/
def output (u : DirectiveUse) (outer : Bindings) : Except RenderError (List Char) :=
  match u.plan? "set_value" with
  | none => .error (.missingBinding "value")
  | some plan => .ok ((shownText (own u outer plan)).toList.flatMap escapeText)

/-- A directive by the kind of its class; one without a kind cannot be rendered. -/
def directive (u : DirectiveUse) (content : Bindings → Except RenderError (List Char))
    (outer : Bindings) : Except RenderError (List Char) :=
  match standardKinds u.className with
  | some .forEach => repetition u content outer
  | some .conditional => conditional u content outer
  | some .text => output u outer
  | _ => .error (.unknownDirective u.className)

mutual

/-- What a node is written as, or the first error in document order. -/
def node : TemplateNode → Bindings → Except RenderError (List Char)
  | .text value, _ => .ok value.toList
  | .element tag attributes children, outer => do
    return writeElement tag attributes (← nodes children outer)
  | .directive u content, outer => directive u (nodes content) outer

def nodes : List TemplateNode → Bindings → Except RenderError (List Char)
  | [], _ => .ok []
  | n :: ns, outer => do
    let first ← node n outer
    let rest ← nodes ns outer
    return first ++ rest

end

end Evaluation

end DirectiveTemplates.Live
