import DirectiveTemplates.Proofs.Live.Drawing
import DirectiveTemplates.Proofs.Live.Reading

/-!
Rendering components. Whatever was rendered before, a component that fits its node is written as
the direct evaluation of the node, or answers with the error of the evaluation, and fits it again.
-/
namespace DirectiveTemplates.Live

open Json

/-- A render answers with the error of an evaluation, or the markup is what was evaluated. -/
def Answers (e : Except RenderError (List Char)) (r : RenderResult) (html : List Char) : Prop :=
  match e with
  | .ok written => r = .ok () ∧ html = written
  | .error error => r = .error error

namespace Answers

variable {e e' : Except RenderError (List Char)} {r r' : RenderResult} {html html' : List Char}

theorem eq_error {error : RenderError} (h : Answers e (.error error) html) : e = .error error := by
  cases e with
  | ok written => simp [Answers] at h
  | error error' =>
    simp only [Answers, Except.error.injEq] at h
    rw [h]

theorem eq_ok (h : Answers e (.ok ()) html) : e = .ok html := by
  cases e with
  | ok written =>
    simp only [Answers, true_and] at h
    rw [h]
  | error error => simp [Answers] at h

theorem result (h : Answers e r html) : r = e.map fun _ => () := by
  cases r with
  | error error => rw [h.eq_error]; rfl
  | ok => rw [h.eq_ok]; rfl

theorem append (h : Answers e r html) (h' : Answers e' r' html') :
    Answers (do
      let first ← e
      let rest ← e'
      return first ++ rest) (ForEach.firstError r r') (html ++ html') := by
  cases r with
  | error error => rw [h.eq_error]; rfl
  | ok =>
    rw [h.eq_ok]
    cases r' with
    | error error => rw [h'.eq_error]; rfl
    | ok =>
      rw [h'.eq_ok]
      exact ⟨rfl, rfl⟩

theorem element (h : Answers e r html) (tag : String) (attributes : OrderedMap String) :
    Answers (do return writeElement tag attributes (← e)) r
      (writeElement tag attributes html) := by
  cases r with
  | error error => rw [h.eq_error]; rfl
  | ok =>
    rw [h.eq_ok]
    exact ⟨rfl, rfl⟩

end Answers

def Renders (n : TemplateNode) (x : Scene) (parent : Option SlotId) (m : Nat) (env : Environment)
    (l : Shape) (action : Act Session (RenderResult × NodeState)) : Prop :=
  ∃ r s' l' y, action.run x.world = ((r, s'), y.world) ∧ Made y n m env s' l' ∧
    Drawn m parent x y l l' ∧ Answers (Evaluation.node n (env.values x.cells)) r l'.html

def RendersNode (n : TemplateNode) : Prop :=
  ∀ (x : Scene) (parent : Option SlotId) (m : Nat) (env : Environment) (s : NodeState) (l : Shape),
    env.Below m → Made x n m env s l → l.Stands x.slots parent → l.ids.Nodup →
    Renders n x parent m env l ((Interpreter.standard.kindOf n).render s)

def RendersFragment (nodes : List TemplateNode) : Prop :=
  ∀ (x : Scene) (parent : Option SlotId) (m : Nat) (env : Environment) (s : NodeState) (l : Shape),
    env.Below m → FragmentMade x nodes m env s l → l.Stands x.slots parent → l.ids.Nodup →
    ∃ r s' l' y, ((Interpreter.standard.fragmentKind nodes).render s).run x.world =
        ((r, s'), y.world) ∧
      FragmentMade y nodes m env s' l' ∧ Drawn m parent x y l l' ∧
      Answers (Evaluation.nodes nodes (env.values x.cells)) r l'.html

variable {x : Scene} {m p : Nat} {env : Environment} {parent : Option SlotId}
  {content : SlotContent} {before : List SlotId} {ls : List Shape}

/-- Nodes are rendered in order up to the first that fails; those behind it are left as they are. -/
theorem renderEach_spec {ns : List TemplateNode} (each : ∀ n ∈ ns, RendersNode n)
    (below : env.Below m) {ss : List NodeState} (made : MadeAll x ns m env ss ls)
    (row : Row x p content parent before ls) :
    ∃ r ss' ls' y, (Kind.renderEach (Interpreter.standard.kindsOf ns) ss).run x.world =
        ((r, ss'), y.world) ∧
      MadeAll y ns m env ss' ls' ∧ DrawnRow m p content parent before x y ls ls' ∧
      Answers (Evaluation.nodes ns (env.values x.cells)) r (Shape.htmlAll ls') := by
  induction ns generalizing x before ss ls with
  | nil =>
    obtain ⟨rfl, rfl⟩ := made
    exact ⟨.ok (), [], [], x, rfl, ⟨rfl, rfl⟩, DrawnRow.refl m row, rfl, rfl⟩
  | cons n ns ih =>
    obtain ⟨s, ss, l, ls, rfl, rfl, first, rest⟩ := made
    obtain ⟨stands, nodup, -⟩ := row.head
    obtain ⟨r, s', l', y, run, made, drawn, answers⟩ :=
      each n (by simp) x (some p) m env s l below first stands nodup
    have rest := madeAll_step rest drawn.step
    have tail := row.tail drawn
    cases r with
    | error e =>
      refine ⟨.error e, s' :: ss, l' :: ls, y, ?_, ⟨_, _, _, _, rfl, rfl, made, rest⟩,
        DrawnRow.cons_drawn row drawn (DrawnRow.refl m tail), ?_⟩
      · simp only [Interpreter.kindsOf, Kind.renderEach, Act.run_bind, run, Act.run_pure]
      · rw [Evaluation.nodes, answers.eq_error]
        rfl
    | ok =>
      obtain ⟨r, ss', ls', z, run', made', drawn', answers'⟩ :=
        ih (fun n' mem => each n' (List.mem_cons_of_mem n mem)) rest tail
      rw [drawn.step.values below] at answers'
      refine ⟨r, s' :: ss', l' :: ls', z, ?_,
        ⟨_, _, _, _, rfl, rfl, made.step drawn'.step, made'⟩,
        DrawnRow.cons_drawn row drawn drawn', ?_⟩
      · simp only [Interpreter.kindsOf, Kind.renderEach, Act.run_bind, run, run', Act.run_pure]
      · rw [Evaluation.nodes]
        exact answers.append answers'

theorem group_render_spec {ns : List TemplateNode} (each : ∀ n ∈ ns, RendersNode n)
    (below : env.Below m) {s : NodeState} {l : Shape}
    (made : Grouped content (MadeAll x ns m env) s l) (stands : l.Stands x.slots parent)
    (nodup : l.ids.Nodup) :
    ∃ r s' ls' y, ((Interpreter.groupKind (Interpreter.standard.kindsOf ns)).render s).run
        x.world = ((r, s'), y.world) ∧
      Grouped content (MadeAll y ns m env) s' (.node l.slot content ls') ∧
      Drawn m parent x y l (.node l.slot content ls') ∧
      Answers (Evaluation.nodes ns (env.values x.cells)) r (Shape.htmlAll ls') := by
  obtain ⟨alive, children⟩ := made
  rename_i base ss ls
  have row := Row.of_stands stands nodup
  obtain ⟨r, ss', ls', y, run, made', drawn, answers⟩ :=
    renderEach_spec each below children row
  cases r with
  | error e =>
    refine ⟨.error e, .group base ss', ls', y, ?_, .group alive made', drawn.drawn row, answers⟩
    simp only [Interpreter.groupKind, Group.render, alive, Bool.false_eq_true, if_false,
      Act.run_bind, run, Act.run_pure, NodeState.ofGroup]
  | ok =>
    refine ⟨.ok (), .group base.rendered ss', ls', y, ?_, .group rfl made', drawn.drawn row,
      answers⟩
    simp only [Interpreter.groupKind, Group.render, alive, Bool.false_eq_true, if_false,
      Act.run_bind, run, Act.run_pure, NodeState.ofGroup]

theorem fragment_render_spec {nodes : List TemplateNode} (each : ∀ n ∈ nodes, RendersNode n) :
    RendersFragment nodes := by
  intro x parent m env s l below made stands nodup
  obtain ⟨r, s', ls', y, run, made', drawn, answers⟩ :=
    group_render_spec each below made stands nodup
  exact ⟨r, s', _, y, run, made', drawn, answers⟩

/-- The children of a repetition are brought into line with the items. -/
theorem reconcile_spec {u : DirectiveUse} {content : List TemplateNode}
    (renders : RendersFragment content) (below : env.Below m) {f : Frame} {c d : Nat}
    (opened : Opened x u m env c f) (element : f.own? "set_element_variable" = some d)
    {items : List Value}
    (setters : items ≠ [] → u.setters = ["set_element_variable", "set_index_variable"])
    {cs : List NodeState}
    (children : List.Forall₂ (FragmentMade x content (c + u.binders.length) f.environment) cs ls)
    (row : Row x p .container parent before ls) (i : Nat) :
    ∃ r cs' ls' y, (ForEach.reconcile (Interpreter.standard.fragmentKind content)
        (Interpreter.standard.fragment content f.environment)
        (ForEach.setVariables (Interpreter.setCell d)
          ((f.own? "set_index_variable").map fun cell n => Interpreter.setCell cell (.ofNat n)))
        p i items cs).run x.world = ((r, cs'), y.world) ∧
      List.Forall₂ (FragmentMade y content (c + u.binders.length) f.environment) cs' ls' ∧
      DrawnRow m p .container parent before x y ls ls' ∧
      Answers (Evaluation.passes u (Evaluation.nodes content) (env.values x.cells) i items) r
        (Shape.htmlAll ls') := by
  have le : m ≤ c + u.binders.length := Nat.le_trans opened.above (Nat.le_add_right _ _)
  induction items generalizing x before ls cs i with
  | nil =>
    obtain ⟨y, run, step, detached⟩ := destroyAll_spec (fun n _ => destroy_spec n) children
      row.stand row.nodup fun mem => (row.apart p mem).1 rfl
    refine ⟨.ok (), [], [], y, ?_, .nil, ?_, rfl, rfl⟩
    · simp only [ForEach.reconcile, Act.run_bind, run, Act.run_pure]
    · refine ⟨?_, trivial, ⟨List.nodup_nil, by simp [Shape.idsAll]⟩, ?_⟩
      · rw [detached _ row.there, row.filter_before]
        simp
      · exact step.mono (Nat.le_trans le opened.there) fun _ _ => id
  | cons item items ih =>
    obtain ⟨y, prepared, step, values⟩ :=
      setVariables_spec opened below (setters (by simp)) element i item
    have setters' := fun _ : items ≠ [] => setters (List.cons_ne_nil item items)
    have opened' := opened.step step
    cases children with
    | nil =>
      obtain ⟨s, l, z, created, new, made⟩ := fragment_spec content y f.environment opened'.there
      obtain ⟨r, s', l', w, run, made, drawn, answers⟩ :=
        renders z none _ f.environment s l (opened.below below) made new.stands new.nodup
      have new' := (new.drawn (drawn.mono le) (Nat.le_trans le opened'.there)).since step
      obtain ⟨-, -, first, last⟩ := new'.append row.lt_size
      obtain ⟨r', cs', ls', v, run', children', drawn', answers'⟩ :=
        ih (opened.step first) setters' .nil (row.push new') (i + 1)
      rw [new.step.values ((opened.below below).mono opened'.there), values] at answers
      rw [first.values below] at answers'
      refine ⟨ForEach.firstError r r', s' :: cs', l' :: ls', v, ?_,
        .cons ((made.step last).step drawn'.step) children', DrawnRow.cons_new row new' drawn',
        answers.append answers'⟩
      have slot : (Interpreter.standard.fragmentKind content).slot s' = l'.slot := made.slot_eq
      simp only [ForEach.reconcile, Act.run_bind, prepared, created, run, slot,
        Scene.run_append, run', Act.run_pure]
    | @cons s l ss ls first rest =>
      have row' := row.step step
      obtain ⟨stands, nodup, -⟩ := row'.head
      obtain ⟨r, s', l', z, run, made, drawn, answers⟩ :=
        renders y (some p) _ f.environment s l (opened.below below) (first.step step) stands nodup
      have drawn := drawn.mono le
      obtain ⟨r', cs', ls', v, run', children', drawn', answers'⟩ :=
        ih (opened'.step drawn.step) setters'
          (rest.imp fun _ _ made => (made.step step).step drawn.step) (row'.tail drawn) (i + 1)
      rw [values] at answers
      rw [drawn.step.values below, step.values below] at answers'
      refine ⟨ForEach.firstError r r', s' :: cs', l' :: ls', v, ?_,
        .cons (made.step drawn'.step) children', ?_, answers.append answers'⟩
      · simp only [ForEach.reconcile, Act.run_bind, prepared, run, run', Act.run_pure]
      · exact DrawnRow.cons_drawn row (drawn.since step) drawn'

theorem Renders.failed {n : TemplateNode} {s : NodeState} {l : Shape} (error : RenderError)
    {action : Act Session (RenderResult × NodeState)} (made : Made x n m env s l)
    (stands : l.Stands x.slots parent) (nodup : l.ids.Nodup)
    (eval : Evaluation.node n (env.values x.cells) = .error error)
    (run : action.run x.world = ((.error error, s), x.world)) :
    Renders n x parent m env l action := by
  refine ⟨.error error, s, l, x, run, made, Drawn.refl m stands nodup, ?_⟩
  rw [eval]
  rfl

section directive

variable {u : DirectiveUse} {content : List TemplateNode} {f : Frame} {c : Nat}

theorem repetition_render_spec (renders : RendersFragment content) (below : env.Below m)
    (kind : standardKinds u.className = some .forEach) {state : ForEach Value NodeState}
    (alive : state.base.isDestroyed = false) (opened : Opened x u m env c f)
    (children : List.Forall₂ (FragmentMade x content (c + u.binders.length) f.environment)
      state.children ls)
    (stands : (Shape.node state.base.slot .container ls).Stands x.slots parent)
    (nodup : (Shape.node state.base.slot .container ls).ids.Nodup) :
    Renders (.directive u content) x parent m env (.node state.base.slot .container ls)
      (Interpreter.standard.renderDirective (Interpreter.standard.fragmentKind content) u content
        (.forEach f state)) := by
  have made : Made x (.directive u content) m env (.forEach f state)
      (.node state.base.slot .container ls) := .forEach kind alive opened children
  have eval : Evaluation.node (.directive u content) (env.values x.cells) =
      Evaluation.repetition u (Evaluation.nodes content) (env.values x.cells) := by
    simp only [Evaluation.node, Evaluation.directive, kind]
  cases bound : u.plan? "set_collection" with
  | none =>
    apply Renders.failed (.missingBinding "collection") made stands nodup
    · simp only [eval, Evaluation.repetition, bound]
    · simp only [Interpreter.renderDirective, ForEach.render, alive, Interpreter.forEachBindings,
        Interpreter.computation?, bound]
      rfl
  | some plan =>
    cases element : f.own? "set_element_variable" with
    | none =>
      have unbound : u.binders.any (·.setter == "set_element_variable") = false :=
        opened.own?_eq_none.mp element
      apply Renders.failed (.missingBinding "element_variable") made stands nodup
      · simp only [eval, Evaluation.repetition, bound, unbound, if_true]
      · simp only [Interpreter.renderDirective, ForEach.render, alive, Interpreter.forEachBindings,
          Interpreter.computation?, bound, element]
        rfl
    | some d =>
      have there : u.binders.any (·.setter == "set_element_variable") ≠ false :=
        fun unbound => by simp [opened.own?_eq_none.mpr unbound] at element
      cases setter : u.contentSetter with
      | none =>
        apply Renders.failed (.missingBinding "body") made stands nodup
        · simp only [eval, Evaluation.repetition, bound, if_neg there, setter]
          rfl
        · simp only [Interpreter.renderDirective, ForEach.render, alive,
            Interpreter.forEachBindings, Interpreter.computation?, bound, element,
            Interpreter.content?, setter]
          rfl
      | some name =>
        let items := itemsOf (Evaluation.own u (env.values x.cells) plan)
        have setters : items ≠ [] →
            u.setters = ["set_element_variable", "set_index_variable"] := by
          intro some
          cases reads : u.readsOwn with
          | true => exact absurd (itemsOf_own_of_readsOwn bound reads _) some
          | false => exact DirectiveUse.setters_eq kind reads
        have row := Row.of_stands stands nodup
        obtain ⟨r, cs', ls', y, run, children', drawn, answers⟩ :=
          reconcile_spec renders below opened element setters children row 0
        have made' : Made y (.directive u content) m env
            (.forEach f ⟨state.base.rendered, items, cs'⟩)
            (.node state.base.slot .container ls') :=
          .forEach kind rfl (opened.step drawn.step) children'
        refine ⟨r, _, _, y, ?_, made', drawn.drawn row, ?_⟩
        · have value := opened.collection bound
          simp only [Interpreter.renderDirective, ForEach.render, alive,
            Interpreter.forEachBindings, Interpreter.computation?, bound, element,
            Interpreter.content?, setter, Option.map_some, Bool.false_eq_true, if_false,
            Act.run_bind, Act.run_read, value, items, run, Act.run_pure]
        · simp only [eval, Evaluation.repetition, bound, if_neg there, setter]
          exact answers

/-- A condition that holds shows its content; content that fails at first is not shown. -/
theorem appear_spec (renders : RendersFragment content) (below : env.Below m)
    (kind : standardKinds u.className = some .conditional) {state : Conditional NodeState}
    (alive : state.base.isDestroyed = false) (opened : Opened x u m env c f)
    (children : List.Forall₂ (FragmentMade x content (c + u.binders.length) f.environment)
      state.child.toList ls)
    (row : Row x state.base.slot .container parent [] ls)
    (stands : (Shape.node state.base.slot .container ls).Stands x.slots parent)
    (nodup : (Shape.node state.base.slot .container ls).ids.Nodup) :
    ∃ r state' l' y, (state.appear (Interpreter.standard.fragmentKind content)
        (Interpreter.standard.fragment content f.environment)).run x.world =
        ((r, state'), y.world) ∧
      Made y (.directive u content) m env (.conditional f state') l' ∧
      Drawn m parent x y (.node state.base.slot .container ls) l' ∧
      Answers (Evaluation.nodes content (f.environment.values x.cells)) r l'.html := by
  have le : m ≤ c + u.binders.length := Nat.le_trans opened.above (Nat.le_add_right _ _)
  obtain ⟨base, child⟩ := state
  cases child with
  | some s =>
    cases children with
    | @cons _ l _ ls first rest =>
      cases rest
      obtain ⟨child, distinct, -⟩ := row.head
      obtain ⟨r, s', l', y, run, made, drawn, answers⟩ :=
        renders x (some base.slot) _ f.environment s l (opened.below below) first child distinct
      have drawn := drawn.mono le
      have drawnRow := DrawnRow.cons_drawn row drawn (DrawnRow.refl m (row.tail drawn))
      have opened := opened.step drawn.step
      have html : (Shape.node base.slot .container [l']).html = l'.html := by
        simp [Shape.html, Shape.htmlAll]
      rw [← html] at answers
      cases r with
      | error e =>
        refine ⟨.error e, ⟨base, some s'⟩, _, y, ?_,
          .conditional kind alive opened (.cons made .nil), drawnRow.drawn row, answers⟩
        simp only [Conditional.appear, Act.run_bind, run, Act.run_pure]
      | ok =>
        refine ⟨.ok (), ⟨base.rendered, some s'⟩, _, y, ?_,
          .conditional kind rfl opened (.cons made .nil), drawnRow.drawn row, answers⟩
        simp only [Conditional.appear, Act.run_bind, run, Act.run_pure]
  | none =>
    cases children
    obtain ⟨s, l, z, created, new, made⟩ := fragment_spec content x f.environment opened.there
    obtain ⟨r, s', l', w, run, made, drawn, answers⟩ :=
      renders z none _ f.environment s l (opened.below below) made new.stands new.nodup
    have new' := new.drawn (drawn.mono le) (Nat.le_trans le opened.there)
    rw [new.step.values ((opened.below below).mono opened.there)] at answers
    cases r with
    | error e =>
      rw [answers.eq_error]
      refine ⟨.error e, ⟨base, none⟩, _, w, ?_,
        .conditional kind alive (opened.step new'.step) .nil,
        Drawn.still new'.step stands nodup, rfl⟩
      simp only [Conditional.appear, Act.run_bind, created, run, Act.run_pure]
    | ok =>
      obtain ⟨-, -, step, last⟩ := new'.append row.lt_size
      have drawnRow := DrawnRow.cons_new row new' (DrawnRow.refl m (row.push new'))
      have html : (Shape.node base.slot .container [l']).html = l'.html := by
        simp [Shape.html, Shape.htmlAll]
      rw [← html] at answers
      refine ⟨.ok (), ⟨base.rendered, some s'⟩, _, _, ?_,
        .conditional kind rfl (opened.step step) (.cons (made.step last) .nil),
        drawnRow.drawn row, answers⟩
      have slot : (Interpreter.standard.fragmentKind content).slot s' = l'.slot := made.slot_eq
      simp only [Conditional.appear, Act.run_bind, created, run, slot, Scene.run_append,
        Act.run_pure]

/-- A condition that does not hold destroys the content that it showed. -/
theorem vanish_spec (kind : standardKinds u.className = some .conditional)
    {state : Conditional NodeState} (opened : Opened x u m env c f)
    (children : List.Forall₂ (FragmentMade x content (c + u.binders.length) f.environment)
      state.child.toList ls)
    (row : Row x state.base.slot .container parent [] ls) :
    ∃ state' l' y, (state.vanish (Interpreter.standard.fragmentKind content)).run x.world =
        ((.ok (), state'), y.world) ∧
      Made y (.directive u content) m env (.conditional f state') l' ∧
      Drawn m parent x y (.node state.base.slot .container ls) l' ∧ l'.html = [] := by
  have le : m ≤ x.cells.size :=
    Nat.le_trans (Nat.le_trans opened.above (Nat.le_add_right _ _)) opened.there
  obtain ⟨base, child⟩ := state
  cases child with
  | some s =>
    cases children with
    | @cons _ l _ ls first rest =>
      cases rest
      obtain ⟨child, distinct, outside⟩ := row.head
      obtain ⟨y, run, step, detached⟩ :=
        group_destroy_spec (fun n _ => destroy_spec n) first child distinct outside
      have drawnRow : DrawnRow m base.slot .container parent [] x y [l] [] := by
        refine ⟨?_, trivial, ⟨List.nodup_nil, by simp [Shape.idsAll]⟩, ?_⟩
        · rw [detached _ row.there]
          simp
        · simpa [Shape.idsAll] using step.mono le fun _ _ => id
      refine ⟨⟨base.rendered, none⟩, _, y, ?_, .conditional kind rfl (opened.step step) .nil,
        drawnRow.drawn row, rfl⟩
      simp only [Interpreter.fragmentKind, Conditional.vanish, Act.run_bind, run, Act.run_pure]
  | none =>
    cases children
    exact ⟨⟨base.rendered, none⟩, _, x, rfl, .conditional kind rfl opened .nil,
      (DrawnRow.refl m row).drawn row, rfl⟩

theorem condition_render_spec (renders : RendersFragment content) (below : env.Below m)
    (kind : standardKinds u.className = some .conditional) {state : Conditional NodeState}
    (alive : state.base.isDestroyed = false) (opened : Opened x u m env c f)
    (children : List.Forall₂ (FragmentMade x content (c + u.binders.length) f.environment)
      state.child.toList ls)
    (stands : (Shape.node state.base.slot .container ls).Stands x.slots parent)
    (nodup : (Shape.node state.base.slot .container ls).ids.Nodup) :
    Renders (.directive u content) x parent m env (.node state.base.slot .container ls)
      (Interpreter.standard.renderDirective (Interpreter.standard.fragmentKind content) u content
        (.conditional f state)) := by
  have made : Made x (.directive u content) m env (.conditional f state)
      (.node state.base.slot .container ls) := .conditional kind alive opened children
  have eval : Evaluation.node (.directive u content) (env.values x.cells) =
      Evaluation.conditional u (Evaluation.nodes content) (env.values x.cells) := by
    simp only [Evaluation.node, Evaluation.directive, kind]
  have setters : u.setters = [] := DirectiveUse.setters_eq_nil (Or.inl (by simp [kind]))
  cases bound : u.plan? "set_condition" with
  | none =>
    apply Renders.failed (.missingBinding "condition") made stands nodup
    · simp only [eval, Evaluation.conditional, bound]
    · simp only [Interpreter.renderDirective, Conditional.render, alive,
        Interpreter.conditionalBindings, Interpreter.computation?, bound]
      rfl
  | some plan =>
    cases setter : u.contentSetter with
    | none =>
      apply Renders.failed (.missingBinding "body") made stands nodup
      · simp only [eval, Evaluation.conditional, bound, setter]
        rfl
      · simp only [Interpreter.renderDirective, Conditional.render, alive,
          Interpreter.conditionalBindings, Interpreter.computation?, bound,
          Interpreter.content?, setter]
        rfl
    | some name =>
      have value := opened.value_unset setters plan
      have row := Row.of_stands stands nodup
      cases holding : holds (Evaluation.own u (env.values x.cells) plan) with
      | true =>
        obtain ⟨r, state', l', y, run, made', drawn, answers⟩ :=
          appear_spec renders below kind alive opened children row stands nodup
        rw [opened.values_unset setters] at answers
        refine ⟨r, _, l', y, ?_, made', drawn, ?_⟩
        · simp only [Interpreter.renderDirective, Conditional.render, alive,
            Interpreter.conditionalBindings, Interpreter.computation?, bound,
            Interpreter.content?, setter, Option.map_some, Bool.false_eq_true, if_false, if_true,
            Act.run_bind, Act.run_read, value, holding, run, Act.run_pure]
        · simp only [eval, Evaluation.conditional, bound, setter, holding]
          exact answers
      | false =>
        obtain ⟨state', l', y, run, made', drawn, html⟩ := vanish_spec kind opened children row
        refine ⟨.ok (), _, l', y, ?_, made', drawn, ?_⟩
        · simp only [Interpreter.renderDirective, Conditional.render, alive,
            Interpreter.conditionalBindings, Interpreter.computation?, bound,
            Interpreter.content?, setter, Option.map_some, Bool.false_eq_true, if_false,
            Act.run_bind, Act.run_read, value, holding, run, Act.run_pure]
        · simp only [eval, Evaluation.conditional, bound, setter, holding]
          exact ⟨rfl, html⟩

theorem output_render_spec (kind : standardKinds u.className = some .text) {state : TextOutput}
    (alive : state.base.isDestroyed = false) (opened : Opened x u m env c f) {old : String}
    (stands : (Shape.node state.base.slot .container
      [.node state.text (.text old) []]).Stands x.slots parent)
    (nodup : (Shape.node state.base.slot .container [.node state.text (.text old) []]).ids.Nodup) :
    Renders (.directive u content) x parent m env
      (.node state.base.slot .container [.node state.text (.text old) []])
      (Interpreter.standard.renderDirective (Interpreter.standard.fragmentKind content) u content
        (.output f state)) := by
  have made : Made x (.directive u content) m env (.output f state)
      (.node state.base.slot .container [.node state.text (.text old) []]) :=
    .output kind alive opened
  have eval : Evaluation.node (.directive u content) (env.values x.cells) =
      Evaluation.output u (env.values x.cells) := by
    simp only [Evaluation.node, Evaluation.directive, kind]
  have setters : u.setters = [] := DirectiveUse.setters_eq_nil (Or.inl (by simp [kind]))
  cases bound : u.plan? "set_value" with
  | none =>
    apply Renders.failed (.missingBinding "value") made stands nodup
    · simp only [eval, Evaluation.output, bound]
    · simp only [Interpreter.renderDirective, TextOutput.render, alive, Interpreter.computation?,
        bound]
      rfl
  | some plan =>
    let text := shownText (Evaluation.own u (env.values x.cells) plan)
    let y := x.withSlots (x.slots.setText state.text text)
    have row := Row.of_stands stands nodup
    obtain ⟨first, distinct, outside⟩ := row.head
    have drawn : Drawn m (some state.base.slot) x y (.node state.text (.text old) [])
        (.node state.text (.text text) []) := by
      refine ⟨⟨SlotTree.slot?_setText first.1 text, trivial⟩, rfl, Redrawn.refl _ distinct, ?_⟩
      apply Step.withSlots m x (by simp)
      intro j _ out
      refine x.slots.slot?_setText_of_ne ?_ text
      rintro rfl
      exact out (by simp [Shape.ids])
    have drawnRow := DrawnRow.cons_drawn row drawn (DrawnRow.refl m (row.tail drawn))
    have made' : Made y (.directive u content) m env (.output f ⟨state.base.rendered, state.text⟩)
        (.node state.base.slot .container [.node state.text (.text text) []]) :=
      .output kind rfl (opened.step drawn.step)
    refine ⟨.ok (), _, _, y, ?_, made', drawnRow.drawn row, ?_⟩
    · have value := opened.value_unset setters plan
      simp only [Interpreter.renderDirective, TextOutput.render, alive, Interpreter.computation?,
        bound, Option.map_some, Bool.false_eq_true, if_false, Act.run_bind, Act.run_read, value,
        Act.run_changeSlots, Act.run_pure]
      rfl
    · simp only [eval, Evaluation.output, bound]
      exact ⟨rfl, by simp [Shape.html, Shape.htmlAll, text]⟩

theorem directive_render_spec (renders : RendersFragment content) :
    RendersNode (.directive u content) := by
  intro x parent m env s l below made stands nodup
  rw [Interpreter.kindOf, Interpreter.directiveKind]
  cases made with
  | forEach kind alive opened children =>
    exact repetition_render_spec renders below kind alive opened children stands nodup
  | conditional kind alive opened children =>
    exact condition_render_spec renders below kind alive opened children stands nodup
  | output kind alive opened => exact output_render_spec kind alive opened stands nodup
  | @unresolved base kind alive =>
    refine Renders.failed (.unknownDirective u.className) (.unresolved kind alive) stands nodup
      ?_ ?_
    · simp only [Evaluation.node, Evaluation.directive, kind]
    · simp only [Interpreter.renderDirective, alive]
      rfl

end directive

/-- What has no component inside is left as it was made. -/
theorem inert_render_spec {n : TemplateNode} (dead : n.isLive = false)
    (kind : Interpreter.standard.kindOf n = Interpreter.inertKind) : RendersNode n := by
  intro x parent m env s l below made stands nodup
  refine ⟨.ok (), s, l, x, ?_, made, Drawn.refl m stands nodup, ?_⟩
  · rw [kind]
    rfl
  · rw [evaluation_node_of_not_live _ dead made]
    exact ⟨rfl, rfl⟩

theorem render_spec (n : TemplateNode) : RendersNode n := by
  induction n using TemplateNode.induction with
  | text value => exact inert_render_spec rfl rfl
  | element tag attributes children ih =>
    cases live : TemplateNode.anyLive children with
    | false =>
      refine inert_render_spec live ?_
      simp only [Interpreter.kindOf, live, Bool.false_eq_true, if_false]
    | true =>
      intro x parent m env s l below made stands nodup
      obtain ⟨r, s', ls', y, run, made', drawn, answers⟩ :=
        group_render_spec ih below made stands nodup
      refine ⟨r, s', _, y, ?_, made', drawn, ?_⟩
      · simp only [Interpreter.kindOf, live, if_true]
        exact run
      · rw [Evaluation.node]
        exact answers.element tag attributes
  | directive u content ih => exact directive_render_spec (fragment_render_spec ih)

end DirectiveTemplates.Live
