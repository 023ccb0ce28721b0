import DirectiveTemplates.Proofs.Binding.Forests
import DirectiveTemplates.Proofs.Live.Evaluation
import DirectiveTemplates.Proofs.Live.Steps

/-!
Components as they are made for their nodes. The state of a component that is not destroyed fits
the node it was made for and the shape of its slots, and its variables have cells of their own.
Building establishes this, and no step of other components undoes it.
-/
namespace DirectiveTemplates

namespace DirectiveUse

/-- A repetition over one of its own variables. Nothing is repeated then, as the variable is null
before the first item. -/
def readsOwn (u : DirectiveUse) : Bool :=
  match (u.plan? "set_collection").map Path.namesOf with
  | some (head :: _) => u.binders.any (·.name == head)
  | _ => false

def setters (u : DirectiveUse) : List String :=
  if Live.standardKinds u.className = some .forEach ∧ u.readsOwn = false then
    ["set_element_variable", "set_index_variable"]
  else []

end DirectiveUse

namespace Live

open Json

/-- The frame of a directive with its cells from `c` on, made no earlier than the cell `m`. A cell
is idle when no setter that the directive uses leads to it. -/
structure Opened (x : Scene) (u : DirectiveUse) (m : Nat) (env : Environment) (c : Nat)
    (f : Frame) : Prop where
  frame : f = Frame.opened c u.binders env
  above : m ≤ c
  there : c + u.binders.length ≤ x.cells.size
  idle : ∀ d, c ≤ d → d < c + u.binders.length → (x.idle d ↔ ∀ s ∈ u.setters, f.own? s ≠ some d)

/-- A group that is not destroyed, in a slot with this content. -/
inductive Grouped (content : SlotContent) (inner : List NodeState → List Shape → Prop) :
    NodeState → Shape → Prop
  | group {base : Base} {states : List NodeState} {shapes : List Shape}
      (alive : base.isDestroyed = false) (children : inner states shapes) :
      Grouped content inner (.group base states) (.node base.slot content shapes)

/-- The content of a directive, made in an environment. -/
abbrev ContentMade := Nat → Environment → NodeState → Shape → Prop

/-- The component of a directive that is not destroyed, when `inner` says what its content is. -/
inductive DirectiveMade (x : Scene) (u : DirectiveUse) (inner : ContentMade) (m : Nat)
    (env : Environment) : NodeState → Shape → Prop
  | forEach {f : Frame} {state : ForEach Value NodeState} {c : Nat} {shapes : List Shape}
      (kind : standardKinds u.className = some .forEach) (alive : state.base.isDestroyed = false)
      (opened : Opened x u m env c f)
      (children : List.Forall₂ (inner (c + u.binders.length) f.environment) state.children shapes) :
      DirectiveMade x u inner m env (.forEach f state) (.node state.base.slot .container shapes)
  | conditional {f : Frame} {state : Conditional NodeState} {c : Nat} {shapes : List Shape}
      (kind : standardKinds u.className = some .conditional)
      (alive : state.base.isDestroyed = false) (opened : Opened x u m env c f)
      (children : List.Forall₂ (inner (c + u.binders.length) f.environment) state.child.toList
        shapes) :
      DirectiveMade x u inner m env (.conditional f state) (.node state.base.slot .container shapes)
  | output {f : Frame} {state : TextOutput} {c : Nat} {value : String}
      (kind : standardKinds u.className = some .text) (alive : state.base.isDestroyed = false)
      (opened : Opened x u m env c f) :
      DirectiveMade x u inner m env (.output f state)
        (.node state.base.slot .container [.node state.text (.text value) []])
  | unresolved {base : Base} (kind : standardKinds u.className = none)
      (alive : base.isDestroyed = false) :
      DirectiveMade x u inner m env (.unresolved base) (.node base.slot .container [])

mutual

def Made (x : Scene) : TemplateNode → ContentMade
  | .text value => fun _ _ s l => ∃ slot, s = .text slot ∧ l = .node slot (.markup value) []
  | .element tag attributes children => fun m env =>
    Grouped (.element tag attributes) (MadeAll x children m env)
  | .directive u content => DirectiveMade x u fun m env =>
    Grouped .container (MadeAll x content m env)

def MadeAll (x : Scene) : List TemplateNode → Nat → Environment → List NodeState → List Shape → Prop
  | [] => fun _ _ ss ls => ss = [] ∧ ls = []
  | n :: ns => fun m env ss ls => ∃ s ss' l ls', ss = s :: ss' ∧ ls = l :: ls' ∧
    Made x n m env s l ∧ MadeAll x ns m env ss' ls'

end

def FragmentMade (x : Scene) (nodes : List TemplateNode) : ContentMade := fun m env =>
  Grouped .container (MadeAll x nodes m env)

variable {x y : Scene} {m k : Nat} {env : Environment} {touched : Nat → Prop}

theorem Grouped.slot_eq {content : SlotContent} {inner : List NodeState → List Shape → Prop}
    {s : NodeState} {l : Shape} (h : Grouped content inner s l) : s.slot = l.slot := by
  cases h with
  | group alive children => rfl

theorem Grouped.imp {content : SlotContent} {inner inner' : List NodeState → List Shape → Prop}
    {s : NodeState} {l : Shape} (h : Grouped content inner s l)
    (imp : ∀ ss ls, inner ss ls → inner' ss ls) : Grouped content inner' s l := by
  cases h with
  | group alive children => exact .group alive (imp _ _ children)

theorem Made.slot_eq {n : TemplateNode} {s : NodeState} {l : Shape} (h : Made x n m env s l) :
    s.slot = l.slot := by
  cases n with
  | text value =>
    obtain ⟨slot, rfl, rfl⟩ := h
    rfl
  | element tag attributes children => exact Grouped.slot_eq h
  | directive u content => cases h <;> rfl

/-! Components stay made while others take a step. -/

theorem Opened.step {u : DirectiveUse} {c : Nat} {f : Frame} (h : Opened x u m env c f)
    (step : Step touched k x y) : Opened y u m env c f where
  frame := h.frame
  above := h.above
  there := Nat.le_trans h.there step.cells_le
  idle := fun d le lt => (step.idle d (Nat.lt_of_lt_of_le lt h.there)).trans (h.idle d le lt)

theorem DirectiveMade.step {u : DirectiveUse} {inner inner' : ContentMade} {s : NodeState}
    {l : Shape} (h : DirectiveMade x u inner m env s l) (step : Step touched k x y)
    (imp : ∀ m env s l, inner m env s l → inner' m env s l) :
    DirectiveMade y u inner' m env s l := by
  cases h with
  | forEach kind alive opened children =>
    exact .forEach kind alive (opened.step step) (children.imp fun _ _ => imp _ _ _ _)
  | conditional kind alive opened children =>
    exact .conditional kind alive (opened.step step) (children.imp fun _ _ => imp _ _ _ _)
  | output kind alive opened => exact .output kind alive (opened.step step)
  | unresolved kind alive => exact .unresolved kind alive

theorem madeAll_imp {ns : List TemplateNode} {ss : List NodeState} {ls : List Shape}
    (imp : ∀ n ∈ ns, ∀ s l, Made x n m env s l → Made y n m env s l)
    (h : MadeAll x ns m env ss ls) : MadeAll y ns m env ss ls := by
  induction ns generalizing ss ls with
  | nil => exact h
  | cons n ns ih =>
    obtain ⟨s, ss', l, ls', rfl, rfl, first, rest⟩ := h
    refine ⟨s, ss', l, ls', rfl, rfl, imp n (by simp) s l first, ih ?_ rest⟩
    intro n' mem
    exact imp n' (List.mem_cons_of_mem n mem)

theorem Made.step {n : TemplateNode} {s : NodeState} {l : Shape} (h : Made x n m env s l)
    (step : Step touched k x y) : Made y n m env s l := by
  induction n using TemplateNode.induction generalizing m env s l with
  | text value => exact h
  | element tag attributes children ih =>
    exact Grouped.imp h fun ss ls => madeAll_imp fun n mem s l made => ih n mem made
  | directive u content ih =>
    apply DirectiveMade.step h step
    intro m env s l grouped
    exact grouped.imp fun ss ls => madeAll_imp fun n mem s l made => ih n mem made

theorem madeAll_step {ns : List TemplateNode} {ss : List NodeState} {ls : List Shape}
    (h : MadeAll x ns m env ss ls) (step : Step touched k x y) : MadeAll y ns m env ss ls :=
  madeAll_imp (fun _ _ _ _ made => made.step step) h

theorem FragmentMade.step {nodes : List TemplateNode} {s : NodeState} {l : Shape}
    (h : FragmentMade x nodes m env s l) (step : Step touched k x y) :
    FragmentMade y nodes m env s l :=
  h.imp fun _ _ made => madeAll_step made step

/-! What has no component inside is written as it was made. -/

theorem evaluation_nodes_of_not_live {ns : List TemplateNode} {ss : List NodeState}
    {ls : List Shape} (outer : Bindings)
    (each : ∀ n ∈ ns, n.isLive = false → ∀ s l, Made x n m env s l →
      Evaluation.node n outer = .ok l.html)
    (dead : TemplateNode.anyLive ns = false) (h : MadeAll x ns m env ss ls) :
    Evaluation.nodes ns outer = .ok (Shape.htmlAll ls) := by
  induction ns generalizing ss ls with
  | nil =>
    obtain ⟨rfl, rfl⟩ := h
    rfl
  | cons n ns ih =>
    obtain ⟨s, ss', l, ls', rfl, rfl, first, rest⟩ := h
    simp only [TemplateNode.anyLive, Bool.or_eq_false_iff] at dead
    have here := each n (by simp) dead.1 s l first
    have later := ih (fun n' mem => each n' (List.mem_cons_of_mem n mem)) dead.2 rest
    rw [Evaluation.nodes, here, later]
    rfl

theorem evaluation_node_of_not_live {n : TemplateNode} {s : NodeState} {l : Shape}
    (outer : Bindings) (dead : n.isLive = false) (h : Made x n m env s l) :
    Evaluation.node n outer = .ok l.html := by
  induction n using TemplateNode.induction generalizing s l with
  | text value =>
    obtain ⟨slot, rfl, rfl⟩ := h
    rfl
  | element tag attributes children ih =>
    obtain ⟨alive, made⟩ := h
    have inner := evaluation_nodes_of_not_live outer
      (fun n mem dead s l made => ih n mem dead made) dead made
    rw [Evaluation.node, inner]
    rfl
  | directive u content ih => simp [TemplateNode.isLive] at dead

end Live
end DirectiveTemplates
