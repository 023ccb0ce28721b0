import DirectiveTemplates.Proofs.Live.Made

/-!
Building components. A forest is built into new slots and new cells: nothing that was there before
changes, apart from the slot whose children the new slots become.
-/
namespace DirectiveTemplates.Live

variable {x y z : Scene} {m : Nat} {env : Environment}

/-- A shape without a parent that is new since a scene, while the cells below `k` are kept. -/
structure NewShape (k : Nat) (x y : Scene) (l : Shape) : Prop where
  stands : l.Stands y.slots none
  nodup : l.ids.Nodup
  fresh : ∀ j ∈ l.ids, x.slots.size ≤ j
  step : Step (fun _ => False) k x y

/-- Nodes built one after another into the slot `p`. -/
structure Built (x y : Scene) (p : Nat) (ns : List TemplateNode) (m : Nat) (env : Environment)
    (ss : List NodeState) (ls : List Shape) : Prop where
  made : MadeAll y ns m env ss ls
  stand : Shape.StandAll y.slots p ls
  nodup : (Shape.idsAll ls).Nodup
  fresh : ∀ j ∈ Shape.idsAll ls, x.slots.size ≤ j
  children : ∀ r, x.slots.slot? p = some r →
    y.slots.slot? p = some { r with children := r.children ++ ls.map Shape.slot }
  step : Step (· = p) x.cells.size x y

/-- Binding the variables of a directive opens a frame with cells of its own. -/
theorem exists_opened (x : Scene) (u : DirectiveUse) (env : Environment) (le : m ≤ x.cells.size) :
    ∃ f y, (Frame.enter u.binders ⟨env, []⟩).run x.world = (f, y.world) ∧
      Opened y u m env x.cells.size f ∧ Step (fun _ => False) x.cells.size x y ∧
      y.slots = x.slots := by
  obtain ⟨cells, run, size, same⟩ := Frame.enter_eq u.binders ⟨env, []⟩ x.world
  let f := Frame.opened x.cells.size u.binders env
  let idle : Nat → Prop := fun d =>
    if d < x.cells.size then x.idle d else ∀ s ∈ u.setters, f.own? s ≠ some d
  let y : Scene := ⟨⟨x.slots, ⟨cells, x.world.data.log⟩⟩, idle, by
    intro d hd
    rw [same d]
    by_cases lt : d < x.cells.size
    · simp only [idle, if_pos lt] at hd
      exact x.null d hd
    · exact Cells.get_of_size_le (Nat.le_of_not_lt lt)⟩
  refine ⟨f, y, run, ⟨rfl, le, Nat.le_of_eq size.symm, ?_⟩, ?_, rfl⟩
  · intro d ge _
    simp only [y, idle, if_neg (Nat.not_lt.mpr ge)]
  · refine ⟨Nat.le_refl _, ?_, fun _ _ _ => rfl, fun c _ => same c, ?_⟩
    · show x.cells.size ≤ cells.size
      rw [size]
      exact Nat.le_add_right _ _
    · intro c lt
      simp only [y, idle, if_pos lt]

namespace NewShape

variable {k : Nat} {l : Shape} {p : Nat}

theorem not_mem_ids (h : NewShape k x y l) (lt : p < x.slots.size) : p ∉ l.ids :=
  fun mem => Nat.not_le_of_lt lt (h.fresh p mem)

theorem leaf (k : Nat) (x : Scene) (content : SlotContent) :
    NewShape k x (x.create content) (.node x.slots.size content []) where
  stands := by
    exact ⟨x.slot?_create_self content, trivial⟩
  nodup := by simp [Shape.ids, Shape.idsAll]
  fresh := by simp [Shape.ids, Shape.idsAll]
  step := by
    apply Step.withSlots _ x (by simp)
    intro j lt _
    rw [SlotTree.slot?_create, if_neg (Nat.ne_of_lt lt)]

theorem group {content : SlotContent} {ns : List TemplateNode} {ss : List NodeState}
    {ls : List Shape}
    (h : Built (x.create content) y x.slots.size ns m env ss ls) :
    NewShape x.cells.size x y (.node x.slots.size content ls) where
  stands := by
    exact ⟨h.children _ (x.slot?_create_self content), h.stand⟩
  nodup := by
    simp only [Shape.ids, List.nodup_cons]
    refine ⟨fun mem => ?_, h.nodup⟩
    have le := h.fresh x.slots.size mem
    rw [Scene.slots_create, SlotTree.size_create] at le
    omega
  fresh := by
    intro j hj
    simp only [Shape.ids, List.mem_cons] at hj
    rcases hj with rfl | hj
    · exact Nat.le_refl _
    · have le := h.fresh j hj
      rw [Scene.slots_create, SlotTree.size_create] at le
      exact Nat.le_of_succ_le le
  step := by
    exact (leaf _ x content).step.trans h.step fun j lt eq => Nat.ne_of_lt lt eq

theorem later (h : NewShape k x y l) (step : Step (fun _ => False) m y z) (le : k ≤ m) :
    NewShape k x z l where
  stands := step.stands h.stands fun _ _ => id
  nodup := h.nodup
  fresh := h.fresh
  step := h.step.trans (step.mono le fun _ _ => id) fun _ _ => id

theorem since (h : NewShape k y z l) (step : Step (fun _ => False) k x y) : NewShape k x z l where
  stands := h.stands
  nodup := h.nodup
  fresh := fun j hj => Nat.le_trans step.slots_le (h.fresh j hj)
  step := step.trans h.step fun _ _ => id

theorem append (h : NewShape k x y l) (lt : p < x.slots.size) :
    l.Stands (y.slots.append p l.slot) (some p) ∧
      (∀ r, x.slots.slot? p = some r → (y.slots.append p l.slot).slot? p =
        some { r with children := r.children ++ [l.slot] }) ∧
      Step (· = p) k x (y.append p l.slot) ∧
      Step (fun j => j = p ∨ j = l.slot) k y (y.append p l.slot) := by
  have outside := h.not_mem_ids lt
  have ne : p ≠ l.slot := fun e => outside (e ▸ l.slot_mem_ids)
  have same : y.slots.slot? p = x.slots.slot? p := h.step.slot p lt id
  have there : y.slots.contains p = true := by
    simpa [SlotTree.contains, SlotTree.size] using Nat.lt_of_lt_of_le lt h.step.slots_le
  obtain ⟨content, children, eq⟩ := h.stands.slot?_slot
  have look := SlotTree.slot?_append ne there (SlotTree.contains_of_slot? eq) h.stands.parent?
  have last : Step (fun j => j = p ∨ j = l.slot) k y (y.append p l.slot) := by
    apply Step.withSlots _ y (by simp)
    intro j _ out
    rw [look, if_neg fun e => out (Or.inr e), if_neg fun e => out (Or.inl e)]
  refine ⟨h.stands.append h.nodup outside there, ?_, ?_, last⟩
  · intro r hr
    simp [look, ne, same, hr]
  · have first : Step (· = p) k x y := h.step.mono (Nat.le_refl _) (by simp)
    apply first.trans last
    rintro j ltj (rfl | rfl)
    · rfl
    · exact absurd (h.fresh _ l.slot_mem_ids) (Nat.not_le_of_lt ltj)

theorem built (h : NewShape x.cells.size x y l) (lt : p < x.slots.size) {n : TemplateNode}
    {s : NodeState} (made : Made y n m env s l) :
    Built x (y.append p l.slot) p [n] m env [s] [l] := by
  obtain ⟨stands, children, step, later⟩ := h.append lt
  exact {
    made := ⟨s, [], l, [], rfl, rfl, made.step later, rfl, rfl⟩
    stand := ⟨stands, trivial⟩
    nodup := by simpa [Shape.idsAll] using h.nodup
    fresh := by simpa [Shape.idsAll] using h.fresh
    children := children
    step := step }

end NewShape

namespace Built

variable {p : Nat} {n : TemplateNode} {ns : List TemplateNode} {s : NodeState}
  {ss : List NodeState} {l : Shape} {ls : List Shape}

theorem nil (x : Scene) (p m : Nat) (env : Environment) : Built x x p [] m env [] [] where
  made := ⟨rfl, rfl⟩
  stand := trivial
  nodup := by simp [Shape.idsAll]
  fresh := by simp [Shape.idsAll]
  children := by simp
  step := Step.refl _ _ x

theorem cons (first : Built x y p [n] m env [s] [l]) (rest : Built y z p ns m env ss ls)
    (lt : p < x.slots.size) : Built x z p (n :: ns) m env (s :: ss) (l :: ls) := by
  obtain ⟨s', ss', l', ls', eqs, eql, made, -⟩ := first.made
  obtain ⟨rfl, -⟩ := List.cons.inj eqs
  obtain ⟨rfl, -⟩ := List.cons.inj eql
  have ids : Shape.idsAll [l] = l.ids := by simp [Shape.idsAll]
  have old : ∀ j ∈ l.ids, j < y.slots.size :=
    Shape.lt_size_of_stands l first.stand.1
  have apart : ∀ j ∈ l.ids, ¬ j = p := by
    rintro j hj rfl
    exact Nat.not_le_of_lt lt (first.fresh j (ids ▸ hj))
  exact {
    made := ⟨s, ss, l, ls, rfl, rfl, made.step rest.step, rest.made⟩
    stand := ⟨rest.step.stands first.stand.1 apart, rest.stand⟩
    nodup := by
      simp only [Shape.idsAll]
      refine List.nodup_append.mpr ⟨ids ▸ first.nodup, rest.nodup, ?_⟩
      rintro j hj j' hj' rfl
      exact Nat.not_le_of_lt (old j hj) (rest.fresh j hj')
    fresh := by
      intro j hj
      simp only [Shape.idsAll, List.mem_append] at hj
      rcases hj with hj | hj
      · exact first.fresh j (ids ▸ hj)
      · exact Nat.le_trans first.step.slots_le (rest.fresh j hj)
    children := by
      intro r hr
      rw [rest.children _ (first.children r hr)]
      simp
    step := first.step.trans (rest.step.mono first.step.cells_le fun _ _ hj => hj)
      fun _ _ hj => hj }

end Built

def BuildsNode (n : TemplateNode) : Prop :=
  ∀ (x : Scene) (p m : Nat) (env : Environment), p < x.slots.size → m ≤ x.cells.size →
    ∃ s l y, (Interpreter.standard.build p env n).run x.world = (s, y.world) ∧
      Built x y p [n] m env [s] [l]

theorem buildAll_spec {ns : List TemplateNode} (each : ∀ n ∈ ns, BuildsNode n) (x : Scene)
    (p m : Nat) (env : Environment) (lt : p < x.slots.size) (le : m ≤ x.cells.size) :
    ∃ ss ls y, (Interpreter.standard.buildAll p env ns).run x.world = (ss, y.world) ∧
      Built x y p ns m env ss ls := by
  induction ns generalizing x with
  | nil => exact ⟨[], [], x, rfl, Built.nil x p m env⟩
  | cons n ns ih =>
    obtain ⟨s, l, y, run, first⟩ := each n (by simp) x p m env lt le
    obtain ⟨ss, ls, z, run', rest⟩ := ih (fun n' mem => each n' (List.mem_cons_of_mem n mem)) y
      (Nat.lt_of_lt_of_le lt first.step.slots_le) (Nat.le_trans le first.step.cells_le)
    refine ⟨s :: ss, l :: ls, z, ?_, first.cons rest lt⟩
    simp only [Interpreter.buildAll, Act.run_bind, run, run', Act.run_pure]

theorem standardKinds_cases (className : String) :
    standardKinds className = none ∨ standardKinds className = some .forEach ∨
      standardKinds className = some .conditional ∨ standardKinds className = some .text := by
  unfold standardKinds
  split
  · simp
  · split
    · simp
    · split <;> simp

/-- A text output has its text slot from the start. -/
theorem textOutput_create_spec {k i : Nat} (h : NewShape k x y (.node i .container [])) :
    ∃ z, (TextOutput.create i).run y.world = (⟨⟨i, .fresh⟩, y.slots.size⟩, z.world) ∧
      NewShape k x z (.node i .container [.node y.slots.size (.text "") []]) ∧
      Step (· = i) k y z := by
  have there : y.slots.slot? i = some ⟨.container, none, []⟩ := h.stands.1
  have lt : i < y.slots.size := SlotTree.lt_size_of_slot? there
  obtain ⟨stands, children, step, -⟩ := (NewShape.leaf k y (.text "")).append lt
  have all : Step (fun _ => False) k x _ := h.step.trans step fun j lt' e => by
    have le := h.fresh i (by simp [Shape.ids])
    omega
  refine ⟨_, rfl, ?_, step⟩
  exact {
    stands := ⟨children _ there, stands, trivial⟩
    nodup := by
      simp only [Shape.ids, Shape.idsAll, List.append_nil, List.nodup_cons, List.mem_singleton]
      exact ⟨Nat.ne_of_lt lt, by simp⟩
    fresh := by
      intro j hj
      simp only [Shape.ids, Shape.idsAll, List.append_nil, List.mem_cons, List.not_mem_nil,
        or_false] at hj
      rcases hj with rfl | rfl
      · exact h.fresh j (by simp [Shape.ids])
      · exact h.step.slots_le
    step := all }

/-- A directive is made in a new slot, which is not yet in its place. -/
theorem buildDirective_spec (u : DirectiveUse) (content : List TemplateNode) (x : Scene)
    (env : Environment) (le : m ≤ x.cells.size) :
    ∃ s l y, (Interpreter.standard.buildDirective u env).run x.world = (s, y.world) ∧
      NewShape x.cells.size x y l ∧ Made y (.directive u content) m env s l := by
  have new := NewShape.leaf x.cells.size x .container
  have enter := exists_opened (x.create .container) u env le
  let base : Base := ⟨x.slots.size, .fresh⟩
  simp only [Interpreter.buildDirective, Act.run_bind, Scene.run_newSlot]
  rcases standardKinds_cases u.className with kind | kind | kind | kind
  · have made : Made (x.create .container) (.directive u content) m env (.unresolved base)
        (.node x.slots.size .container []) := .unresolved kind rfl
    refine ⟨_, _, _, ?_, new, made⟩
    simp only [Interpreter.standard, kind]
    rfl
  · obtain ⟨f, y, run, opened, step, -⟩ := enter
    have made : Made y (.directive u content) m env (.forEach f ⟨base, [], []⟩)
        (.node x.slots.size .container []) := .forEach kind rfl opened .nil
    refine ⟨_, _, y, ?_, new.later step (Nat.le_refl _), made⟩
    simp only [Interpreter.standard, kind, Act.run_bind, run, Act.run_pure, base]
  · obtain ⟨f, y, run, opened, step, -⟩ := enter
    have made : Made y (.directive u content) m env (.conditional f ⟨base, none⟩)
        (.node x.slots.size .container []) := .conditional kind rfl opened .nil
    refine ⟨_, _, y, ?_, new.later step (Nat.le_refl _), made⟩
    simp only [Interpreter.standard, kind, Act.run_bind, run, Act.run_pure, base]
  · obtain ⟨f, y, run, opened, step, -⟩ := enter
    obtain ⟨z, run', new', step'⟩ := textOutput_create_spec (new.later step (Nat.le_refl _))
    have made : Made z (.directive u content) m env (.output f ⟨base, y.slots.size⟩)
        (.node x.slots.size .container [.node y.slots.size (.text "") []]) :=
      .output kind rfl (opened.step step')
    refine ⟨_, _, z, ?_, new', made⟩
    simp only [Interpreter.standard, kind, Act.run_bind, run, run', Act.run_pure, base]

theorem build_spec (n : TemplateNode) : BuildsNode n := by
  induction n using TemplateNode.induction with
  | text value =>
    intro x p m env lt le
    have made : Made (x.create (.markup value)) (.text value) m env
        (.text x.slots.size) (.node x.slots.size (.markup value) []) := ⟨_, rfl, rfl⟩
    exact ⟨_, _, _, rfl, (NewShape.leaf _ x (.markup value)).built lt made⟩
  | element tag attributes children ih =>
    intro x p m env lt le
    obtain ⟨ss, ls, y, run, built⟩ := buildAll_spec ih (x.create (.element tag attributes))
      x.slots.size m env (by simp) le
    have made : Made y (.element tag attributes children) m env
        (.group ⟨x.slots.size, .fresh⟩ ss) (.node x.slots.size (.element tag attributes) ls) :=
      .group rfl built.made
    refine ⟨_, _, _, ?_, (NewShape.group built).built lt made⟩
    simp only [Interpreter.build, Act.run_bind, Scene.run_newSlot, run, Scene.run_append,
      Act.run_pure]
    rfl
  | directive u content ih =>
    intro x p m env lt le
    obtain ⟨s, l, y, run, new, made⟩ := buildDirective_spec u content x env le
    refine ⟨s, l, _, ?_, new.built lt made⟩
    simp only [Interpreter.build, Act.run_bind, run, Scene.run_append, Act.run_pure, made.slot_eq]

theorem fragment_spec (nodes : List TemplateNode) (x : Scene) (env : Environment)
    (le : m ≤ x.cells.size) :
    ∃ s l y, (Interpreter.standard.fragment nodes env).run x.world = (s, y.world) ∧
      NewShape x.cells.size x y l ∧ FragmentMade y nodes m env s l := by
  obtain ⟨ss, ls, y, run, built⟩ := buildAll_spec (fun n _ => build_spec n)
    (x.create .container) x.slots.size m env (by simp) le
  have made : FragmentMade y nodes m env (.group ⟨x.slots.size, .fresh⟩ ss)
      (.node x.slots.size .container ls) := .group rfl built.made
  refine ⟨_, _, y, ?_, NewShape.group built, made⟩
  simp only [Interpreter.fragment, Act.run_bind, Scene.run_newSlot, run, Act.run_pure]

end DirectiveTemplates.Live
