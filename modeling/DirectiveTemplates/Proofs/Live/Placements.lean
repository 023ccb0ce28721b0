import DirectiveTemplates.Proofs.Binding.Forests
import DirectiveTemplates.Proofs.Live.History

/-!
Where the directives of a running template stand. An instance of a directive is known by its use,
its content and the frame its variables are bound in, and by the instances around it.
-/
namespace DirectiveTemplates

mutual

def TemplateNode.directives : TemplateNode → List (DirectiveUse × List TemplateNode)
  | .text _ => []
  | .element _ _ children => TemplateNode.directivesAll children
  | .directive u content => [(u, content)]

def TemplateNode.directivesAll : List TemplateNode → List (DirectiveUse × List TemplateNode)
  | [] => []
  | n :: ns => n.directives ++ TemplateNode.directivesAll ns

end

namespace Live

structure Placement where
  use : DirectiveUse
  content : List TemplateNode
  frame : Frame

def forestIn (nodes : List TemplateNode) : List Placement → List TemplateNode
  | [] => nodes
  | p :: _ => p.content

def environmentIn : List Placement → Environment
  | [] => Instance.environment
  | p :: _ => p.frame.environment

/-- Instances inside each other, as they come about at some time: each stands in the content of the
next, and when its variables are bound there are at least `m` cells. -/
inductive Placed (nodes : List TemplateNode) : List Placement → Nat → Prop
  | root : Placed nodes [] 1
  | inside {around m u content f} {w w' : World Session} (outer : Placed nodes around m)
      (among : (u, content) ∈ TemplateNode.directivesAll (forestIn nodes around))
      (later : m ≤ w.data.cells.size)
      (entered : Frame.enter u.binders ⟨environmentIn around, []⟩ w = (f, w')) :
      Placed nodes (⟨u, content, f⟩ :: around) w'.data.cells.size

namespace NodeState

def frame? : NodeState → Option Frame
  | .forEach f _ => some f
  | .conditional f _ => some f
  | .output f _ => some f
  | .trigger f _ => some f
  | .definition f _ _ => some f
  | .unresolved _ | .text _ | .group _ _ => none

def fragments : NodeState → List NodeState
  | .forEach _ state => state.children
  | .conditional _ state => state.child.toList
  | .definition _ _ child => child.toList
  | .output _ _ | .trigger _ _ | .unresolved _ | .text _ | .group _ _ => []

def members : NodeState → List NodeState
  | .group _ states => states
  | _ => []

end NodeState

mutual

def placements (around : List Placement) : TemplateNode → NodeState → List (List Placement)
  | .text _, _ => []
  | .element _ _ children, s => placementsAll around children s.members
  | .directive u content, s =>
    match s.frame? with
    | none => []
    | some f =>
      let here := ⟨u, content, f⟩ :: around
      here :: s.fragments.flatMap fun fragment => placementsAll here content fragment.members

def placementsAll (around : List Placement) :
    List TemplateNode → List NodeState → List (List Placement)
  | n :: ns, s :: ss => placements around n s ++ placementsAll around ns ss
  | _, _ => []

end

namespace Instance

def placements (t : Instance) : List (List Placement) := placementsAll [] t.nodes t.root.members

inductive Arises (i : Interpreter) (nodes : List TemplateNode) : Instance → Prop
  | created (model : Json.Value) : Arises i nodes (create i nodes model)
  | modelSet {t} (h : Arises i nodes t) (model : Json.Value) : Arises i nodes (t.setModel model)
  | rendered {t} (h : Arises i nodes t) : Arises i nodes t.render.2
  | destroyed {t} (h : Arises i nodes t) : Arises i nodes t.destroy

end Instance

end Live

end DirectiveTemplates
