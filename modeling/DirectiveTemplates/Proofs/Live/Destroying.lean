import DirectiveTemplates.Proofs.Live.Building

/-!
Destroying components that have a place. Only their own slots and the slot they stand in change,
and content that is destroyed leaves the children of that slot.
-/
namespace DirectiveTemplates.Live

variable {x y z : Scene} {m : Nat} {env : Environment}

namespace Step

theorem delete (x : Scene) {l : Shape} {p : Nat} (h : l.Stands x.slots (some p))
    (outside : p ∉ l.ids) (m : Nat) :
    Step (fun j => j = p ∨ j = l.slot) m x (x.delete l.slot) ∧
      ∀ r, x.slots.slot? p = some r → (x.delete l.slot).slots.slot? p =
        some { r with children := r.children.filter (· != l.slot) } := by
  have ne : p ≠ l.slot := fun e => outside (e ▸ l.slot_mem_ids)
  have look := SlotTree.slot?_delete h.parent? ne
  constructor
  · apply Step.withSlots m x (by simp)
    intro j _ out
    rw [look, if_neg fun e => out (Or.inr e), if_neg fun e => out (Or.inl e)]
  · intro r hr
    simp [look, ne, hr]

variable {i p : Nat} {content : SlotContent} {ls : List Shape}

theorem standAll_delete (h : (Shape.node i content ls).Stands x.slots (some p))
    (nodup : (Shape.node i content ls).ids.Nodup) (outside : p ∉ (Shape.node i content ls).ids) :
    Shape.StandAll (x.delete i).slots i ls := by
  simp only [Shape.ids, List.nodup_cons] at nodup
  apply (Step.delete x h outside 0).1.standAll h.2
  rintro j hj (rfl | rfl)
  · exact outside (by simp [Shape.ids, hj])
  · exact nodup.1 hj

/-- Taking a slot out of its parent and then changing what stands in it touches the parent and
the shape of the slot. -/
theorem delete_trans (h : (Shape.node i content ls).Stands x.slots (some p))
    (outside : p ∉ (Shape.node i content ls).ids)
    (later : Step (fun j => j = i ∨ j ∈ Shape.idsAll ls) x.cells.size (x.delete i) y) :
    Step (fun j => j = p ∨ j ∈ (Shape.node i content ls).ids) x.cells.size x y := by
  have first : Step (fun j => j = p ∨ j ∈ (Shape.node i content ls).ids) x.cells.size x
      (x.delete i) := by
    apply (Step.delete x h outside x.cells.size).1.mono (Nat.le_refl _)
    rintro j - (rfl | rfl)
    · exact Or.inl rfl
    · exact Or.inr (Shape.slot_mem_ids _)
  apply first.trans later
  rintro j - (rfl | hj)
  · exact Or.inr (by simp [Shape.ids])
  · exact Or.inr (by simp [Shape.ids, hj])

theorem append {m n : Nat} {a b : List SlotId} (h : Step (fun j => j = p ∨ j ∈ a) m x y)
    (h' : Step (fun j => j = p ∨ j ∈ b) n y z) (le : m ≤ n) :
    Step (fun j => j = p ∨ j ∈ a ++ b) m x z := by
  have first : Step (fun j => j = p ∨ j ∈ a ++ b) m x y := by
    apply h.mono (Nat.le_refl m)
    rintro j - (rfl | hj)
    · exact Or.inl rfl
    · exact Or.inr (List.mem_append_left b hj)
  apply first.trans (h'.mono le fun _ _ => id)
  rintro j - (rfl | hj)
  · exact Or.inl rfl
  · exact Or.inr (List.mem_append_right a hj)

theorem standAll_beside {a : List SlotId}
    (h : Step (fun j => j = p ∨ j ∈ a) m x y) (stand : Shape.StandAll x.slots p ls)
    (nodup : (a ++ Shape.idsAll ls).Nodup) (outside : p ∉ Shape.idsAll ls) :
    Shape.StandAll y.slots p ls := by
  apply h.standAll stand
  rintro j hj (rfl | ha)
  · exact outside hj
  · exact (List.nodup_append.mp nodup).2.2 j ha j hj rfl

end Step

theorem destroy_run {base : Base} (x : Scene) :
    base.destroy.run x.world =
      ({ base with stage := .destroyed }, (x.delete base.slot).world) := rfl

def DestroysNode (n : TemplateNode) : Prop :=
  ∀ (x : Scene) (p m : Nat) (env : Environment) (s : NodeState) (l : Shape),
    Made x n m env s l → l.Stands x.slots (some p) → l.ids.Nodup → p ∉ l.ids →
    ∃ y : Scene, (((Interpreter.standard.kindOf n).destroy s).run x.world).2 = y.world ∧
      Step (fun j => j = p ∨ j ∈ l.ids) x.cells.size x y

theorem destroyEach_spec {ns : List TemplateNode} (each : ∀ n ∈ ns, DestroysNode n) {p : Nat}
    {ss : List NodeState} {ls : List Shape} (made : MadeAll x ns m env ss ls)
    (stand : Shape.StandAll x.slots p ls) (nodup : (Shape.idsAll ls).Nodup)
    (outside : p ∉ Shape.idsAll ls) :
    ∃ y : Scene, ((Kind.destroyEach (Interpreter.standard.kindsOf ns) ss).run x.world).2 =
        y.world ∧
      Step (fun j => j = p ∨ j ∈ Shape.idsAll ls) x.cells.size x y := by
  induction ns generalizing x ss ls with
  | nil =>
    obtain ⟨rfl, rfl⟩ := made
    exact ⟨x, rfl, Step.refl _ _ x⟩
  | cons n ns ih =>
    obtain ⟨s, ss, l, ls, rfl, rfl, first, rest⟩ := made
    simp only [Shape.idsAll, List.mem_append, not_or] at nodup outside
    have parts := List.nodup_append.mp nodup
    obtain ⟨y, run, step⟩ :=
      each n (by simp) x p m env s l first stand.1 parts.1 outside.1
    obtain ⟨z, run', step'⟩ := ih (fun n' mem => each n' (List.mem_cons_of_mem n mem))
      (madeAll_step rest step) (step.standAll_beside stand.2 nodup outside.2) parts.2.1 outside.2
    refine ⟨z, ?_, step.append step' step.cells_le⟩
    simp only [Interpreter.kindsOf, Kind.destroyEach, Act.run_bind, run, run', Act.run_pure]

/-- A group is taken out of its parent before its children are destroyed. -/
theorem group_destroy_spec {ns : List TemplateNode} (each : ∀ n ∈ ns, DestroysNode n) {p : Nat}
    {content : SlotContent} {s : NodeState} {l : Shape}
    (made : Grouped content (MadeAll x ns m env) s l) (stands : l.Stands x.slots (some p))
    (nodup : l.ids.Nodup) (outside : p ∉ l.ids) :
    ∃ y : Scene, (((Interpreter.groupKind (Interpreter.standard.kindsOf ns)).destroy s).run
        x.world).2 = y.world ∧
      Step (fun j => j = p ∨ j ∈ l.ids) x.cells.size x y ∧
      ∀ r, x.slots.slot? p = some r → y.slots.slot? p =
        some { r with children := r.children.filter (· != l.slot) } := by
  obtain ⟨alive, children⟩ := made
  rename_i base ss ls
  have detached := (Step.delete x stands outside x.cells.size).2
  have stand := Step.standAll_delete stands nodup outside
  have step : Step _ x.cells.size x (x.delete base.slot) :=
    (Step.delete x stands outside x.cells.size).1
  simp only [Shape.ids, List.nodup_cons] at nodup
  obtain ⟨y, run, step'⟩ :=
    destroyEach_spec each (madeAll_step children step) stand nodup.2 nodup.1
  refine ⟨y, ?_, ?_, ?_⟩
  · simp only [Interpreter.groupKind, Group.destroy, alive, Bool.false_eq_true, if_false,
      Act.run_bind, destroy_run, run, Act.run_pure]
  · exact Step.delete_trans stands outside step'
  · intro r hr
    have lt : p < (x.delete base.slot).slots.size := by
      simpa using SlotTree.lt_size_of_slot? hr
    rw [step'.slot p lt (by simpa [Shape.ids] using outside)]
    exact detached r hr

theorem destroyAll_spec {nodes : List TemplateNode} (each : ∀ n ∈ nodes, DestroysNode n) {p : Nat}
    {ss : List NodeState} {ls : List Shape}
    (made : List.Forall₂ (FragmentMade x nodes m env) ss ls)
    (stand : Shape.StandAll x.slots p ls) (nodup : (Shape.idsAll ls).Nodup)
    (outside : p ∉ Shape.idsAll ls) :
    ∃ y : Scene, (((Interpreter.standard.fragmentKind nodes).destroyAll ss).run x.world).2 =
        y.world ∧
      Step (fun j => j = p ∨ j ∈ Shape.idsAll ls) x.cells.size x y ∧
      ∀ r, x.slots.slot? p = some r → y.slots.slot? p =
        some { r with children := r.children.filter (· ∉ ls.map Shape.slot) } := by
  induction ss generalizing x ls with
  | nil =>
    cases made
    exact ⟨x, rfl, Step.refl _ _ x, fun r hr => by simpa using hr⟩
  | cons s ss ih =>
    cases made with
    | @cons s l ss ls first rest =>
      simp only [Shape.idsAll, List.mem_append, not_or] at nodup outside
      have parts := List.nodup_append.mp nodup
      obtain ⟨y, run, step, detached⟩ :=
        group_destroy_spec each first stand.1 parts.1 outside.1
      obtain ⟨z, run', step', detached'⟩ := ih (rest.imp fun _ _ made => made.step step)
        (step.standAll_beside stand.2 nodup outside.2) parts.2.1 outside.2
      refine ⟨z, ?_, step.append step' step.cells_le, ?_⟩
      · simp only [Interpreter.fragmentKind] at run'
        simp only [Interpreter.fragmentKind, Kind.destroyAll, Act.run_bind, run, run',
          Act.run_pure]
      · intro r hr
        rw [detached' _ (detached r hr), List.filter_filter]
        congr 3
        funext j
        by_cases e : j = l.slot <;> simp [e]

/-- A directive is taken out of its parent before its content is destroyed. -/
theorem directive_destroy_spec {u : DirectiveUse} {content : List TemplateNode}
    (each : ∀ n ∈ content, DestroysNode n) {p : Nat} {s : NodeState} {l : Shape}
    (made : Made x (.directive u content) m env s l) (stands : l.Stands x.slots (some p))
    (nodup : l.ids.Nodup) (outside : p ∉ l.ids) :
    ∃ y : Scene, (((Interpreter.standard.kindOf (.directive u content)).destroy s).run
        x.world).2 = y.world ∧
      Step (fun j => j = p ∨ j ∈ l.ids) x.cells.size x y := by
  cases made with
  | @forEach f state c shapes kind alive opened children =>
    have stand := Step.standAll_delete stands nodup outside
    have step : Step _ x.cells.size x (x.delete state.base.slot) :=
      (Step.delete x stands outside x.cells.size).1
    simp only [Shape.ids, List.nodup_cons] at nodup
    obtain ⟨y, run, step', -⟩ := destroyAll_spec each
      (children.imp fun _ _ made => FragmentMade.step made step) stand nodup.2 nodup.1
    refine ⟨y, ?_, Step.delete_trans stands outside step'⟩
    simp only [Interpreter.fragmentKind] at run
    simp only [Interpreter.kindOf, Interpreter.directiveKind, Interpreter.destroyDirective,
      ForEach.destroy, alive, Bool.false_eq_true, if_false, Act.run_bind, destroy_run, run,
      Act.run_pure]
  | @conditional f state c shapes kind alive opened children =>
    have stand := Step.standAll_delete stands nodup outside
    have step : Step _ x.cells.size x (x.delete state.base.slot) :=
      (Step.delete x stands outside x.cells.size).1
    simp only [Shape.ids, List.nodup_cons] at nodup
    obtain ⟨base, child⟩ := state
    cases child with
    | none =>
      have still : Step (fun j => j = base.slot ∨ j ∈ Shape.idsAll shapes) x.cells.size
        (x.delete base.slot) (x.delete base.slot) := Step.refl _ _ _
      refine ⟨_, ?_, Step.delete_trans stands outside still⟩
      simp only [Interpreter.kindOf, Interpreter.directiveKind, Interpreter.destroyDirective,
        Conditional.destroy, alive, Bool.false_eq_true, if_false, Act.run_bind, destroy_run,
        Act.run_pure]
    | some child =>
      cases children with
      | @cons _ l _ ls first rest =>
        cases rest
        simp only [Shape.idsAll, List.append_nil] at nodup
        obtain ⟨y, run, step', -⟩ := group_destroy_spec each (FragmentMade.step first step)
          stand.1 nodup.2 nodup.1
        have later : Step (fun j => j = base.slot ∨ j ∈ Shape.idsAll [l]) x.cells.size
            (x.delete base.slot) y := by
          simpa [Shape.idsAll] using step'
        refine ⟨y, ?_, Step.delete_trans stands outside later⟩
        simp only [Interpreter.kindOf, Interpreter.directiveKind, Interpreter.destroyDirective,
          Conditional.destroy, alive, Bool.false_eq_true, if_false, Act.run_bind, destroy_run, run,
          Act.run_pure]
  | @output f state c value kind alive opened =>
    refine ⟨_, ?_, Step.delete_trans stands outside (Step.refl _ _ _)⟩
    simp only [Interpreter.kindOf, Interpreter.directiveKind, Interpreter.destroyDirective,
      TextOutput.destroy, alive, Bool.false_eq_true, if_false, Act.run_bind, destroy_run,
      Act.run_pure]
  | @unresolved base kind alive =>
    refine ⟨_, ?_, Step.delete_trans stands outside (Step.refl _ _ _)⟩
    simp only [Interpreter.kindOf, Interpreter.directiveKind, Interpreter.destroyDirective,
      alive, Bool.false_eq_true, if_false, Act.run_bind, destroy_run, Act.run_pure]

theorem destroy_spec (n : TemplateNode) : DestroysNode n := by
  have inert : ∀ (x : Scene) (s : NodeState) (p : Nat) (l : Shape),
      ∃ y : Scene, ((Interpreter.inertKind.destroy s).run x.world).2 = y.world ∧
        Step (fun j => j = p ∨ j ∈ l.ids) x.cells.size x y :=
    fun x s p l => ⟨x, rfl, Step.refl _ _ x⟩
  induction n using TemplateNode.induction with
  | text value => exact fun x p m env s l made stands nodup outside => inert x s p l
  | element tag attributes children ih =>
    intro x p m env s l made stands nodup outside
    rw [Interpreter.kindOf]
    split
    · obtain ⟨y, run, step, -⟩ := group_destroy_spec ih made stands nodup outside
      exact ⟨y, run, step⟩
    · exact inert x s p l
  | directive u content ih =>
    exact fun x p m env s l made stands nodup outside =>
      directive_destroy_spec ih made stands nodup outside

end DirectiveTemplates.Live
