import DirectiveTemplates.Proofs.Live.Made

/-!
What the expressions of a directive read. The cells of a directive are its own or idle, so its
variables have what the directive gave them, or null.
-/
namespace DirectiveTemplates

namespace Path

/-- A plan reads the variable at the head of its path and no other. -/
theorem evaluate_congr {plan : Json.Value} {lookup lookup' : String → Option Json.Value}
    (same : ∀ head members, namesOf plan = head :: members → lookup head = lookup' head) :
    evaluate plan lookup = evaluate plan lookup' := by
  unfold evaluate
  cases names : namesOf plan with
  | nil => rfl
  | cons head members =>
    have eq := same head members names
    simp only [eq]

theorem evaluate_of_null {plan : Json.Value} {lookup : String → Option Json.Value} {head : String}
    {members : List String} (names : namesOf plan = head :: members)
    (null : lookup head = some .null) : evaluate plan lookup = .null := by
  have members_null (names : List String) :
      names.foldl (fun v name => (v.member? name).getD .null) Json.Value.null = .null := by
    induction names with
    | nil => rfl
    | cons name names ih => exact ih
  simp only [evaluate, names, null, Option.getD_some]
  exact members_null members

end Path

namespace DirectiveUse

variable {u : DirectiveUse}

theorem setters_eq (kind : Live.standardKinds u.className = some .forEach)
    (reads : u.readsOwn = false) :
    u.setters = ["set_element_variable", "set_index_variable"] := by
  simp [setters, kind, reads]

theorem setters_eq_nil (h : Live.standardKinds u.className ≠ some .forEach ∨ u.readsOwn = true) :
    u.setters = [] := by
  rcases h with kind | reads
  · simp [setters, kind]
  · simp [setters, reads]

end DirectiveUse

namespace Live

open Json

variable {x y : Scene} {m c : Nat} {env : Environment} {u : DirectiveUse} {f : Frame}

namespace Opened

theorem below (h : Opened x u m env c f) (below : env.Below m) :
    f.environment.Below (c + u.binders.length) := by
  rw [h.frame]
  refine Frame.below_extend (f := ⟨env, []⟩) ?_ (Nat.le_refl _)
  exact below.mono (Nat.le_trans h.above (Nat.le_add_right _ _))

theorem own?_eq_none (h : Opened x u m env c f) {s : String} :
    f.own? s = none ↔ u.binders.any (·.setter == s) = false := by
  rw [h.frame, Frame.opened]
  constructor
  · intro none
    by_contra bound
    obtain ⟨d, eq, -⟩ := Frame.own?_extend_of_any (c := c) (f := ⟨env, []⟩) (by simpa using bound)
    rw [none] at eq
    exact absurd eq (by simp)
  · intro unbound
    rw [Frame.own?_extend_of_not_any unbound]
    rfl

theorem busy (h : Opened x u m env c f) {s : String} {d : Nat} (own : f.own? s = some d)
    (used : s ∈ u.setters) : m ≤ d ∧ ¬ x.idle d := by
  have bounds := Frame.own?_opened_bounds (h.frame ▸ own)
  refine ⟨Nat.le_trans h.above bounds.1, ?_⟩
  intro idle
  exact (h.idle d bounds.1 bounds.2).mp idle s used own

theorem lt_size (h : Opened x u m env c f) {s : String} {d : Nat} (own : f.own? s = some d) :
    d < x.cells.size := by
  have bounds := Frame.own?_opened_bounds (h.frame ▸ own)
  exact Nat.lt_of_lt_of_le bounds.2 h.there

theorem values (h : Opened x u m env c f) {given : String → Value}
    (set : ∀ s ∈ u.setters, ∀ d : Nat, f.own? s = some d → x.cells.get d = given s)
    (unset : ∀ s ∉ u.setters, given s = .null) :
    f.environment.values x.cells = bindOwn given u.binders (env.values x.cells) := by
  have frame : f = Frame.extend u.binders c ⟨env, []⟩ := h.frame
  have own : ∀ s, f.own? s = (Frame.extend u.binders c ⟨env, []⟩).own? s := by
    intro s
    rw [frame]
  rw [frame]
  apply Frame.values_extend (f := ⟨env, []⟩) (by simp [Frame.OwnBelow])
  · intro s d le eq
    by_cases used : s ∈ u.setters
    · exact set s used d ((own s).trans eq)
    · rw [unset s used]
      have bounds := Frame.own?_opened_bounds eq
      refine x.null d ((h.idle d bounds.1 bounds.2).mpr ?_)
      intro s' used' eq'
      have same : s' = s := Frame.own?_opened_inj ((own s').symm.trans eq') eq
      exact used (same ▸ used')
  · intro d le lt free
    refine x.null d ((h.idle d le lt).mpr ?_)
    intro s _ eq
    exact free s ((own s).symm.trans eq)

theorem values_unset (h : Opened x u m env c f) (none : u.setters = []) :
    f.environment.values x.cells =
      bindOwn Evaluation.unset u.binders (env.values x.cells) := by
  refine h.values ?_ fun _ _ => rfl
  intro s used
  rw [none] at used
  exact absurd used (List.not_mem_nil)

theorem lookup_outer (h : Opened x u m env c f) {name : String}
    (outer : u.binders.any (·.name == name) = false) :
    (f.environment.values x.cells).lookup name = (env.values x.cells).lookup name := by
  let given : String → Value := fun s =>
    if s ∈ u.setters then ((f.own? s).map x.cells.get).getD .null else .null
  have eq : f.environment.values x.cells = bindOwn given u.binders (env.values x.cells) := by
    apply h.values
    · intro s used d own
      simp only [given, if_pos used, own, Option.map_some, Option.getD_some]
    · intro s unused
      simp only [given, if_neg unused]
  rw [eq, lookup_bindOwn_of_not_any outer]

theorem value_unset (h : Opened x u m env c f) (none : u.setters = []) (plan : Value) :
    Interpreter.standard.value f.environment plan x.world.data =
      Evaluation.own u (env.values x.cells) plan := by
  simp only [Interpreter.value, Interpreter.standard, Environment.lookup_eq_values, Evaluation.own]
  rw [h.values_unset none]

/-- The collection of a repetition is what it was before the first item, for a path that starts
with an own variable is null then and stays so. -/
theorem collection (h : Opened x u m env c f) {plan : Value}
    (bound : u.plan? "set_collection" = some plan) :
    Interpreter.standard.value f.environment plan x.world.data =
      Evaluation.own u (env.values x.cells) plan := by
  cases reads : u.readsOwn with
  | true => exact h.value_unset (DirectiveUse.setters_eq_nil (Or.inr reads)) plan
  | false =>
    simp only [Interpreter.value, Interpreter.standard, Environment.lookup_eq_values,
      Evaluation.own]
    apply Path.evaluate_congr
    intro head members names
    have outer : u.binders.any (·.name == head) = false := by
      simpa [DirectiveUse.readsOwn, bound, names] using reads
    rw [h.lookup_outer outer, lookup_bindOwn_of_not_any outer]

end Opened

theorem itemsOf_own_of_readsOwn {plan : Value} (bound : u.plan? "set_collection" = some plan)
    (reads : u.readsOwn = true) (outer : Bindings) :
    itemsOf (Evaluation.own u outer plan) = [] := by
  cases names : Path.namesOf plan with
  | nil => simp [DirectiveUse.readsOwn, bound, names] at reads
  | cons head members =>
    have own : u.binders.any (·.name == head) = true := by
      simpa [DirectiveUse.readsOwn, bound, names] using reads
    have null : Evaluation.own u outer plan = .null :=
      Path.evaluate_of_null names (lookup_bindOwn_null own outer)
    rw [null]
    rfl

/-- What a repetition reads when its variables are set for an item. -/
theorem Opened.values_iteration (h : Opened x u m env c f)
    (setters : u.setters = ["set_element_variable", "set_index_variable"]) {i : Nat} {item : Value}
    (element : ∀ d : Nat, f.own? "set_element_variable" = some d → x.cells.get d = item)
    (index : ∀ d : Nat, f.own? "set_index_variable" = some d → x.cells.get d = .ofNat i) :
    f.environment.values x.cells =
      bindOwn (Evaluation.iteration i item) u.binders (env.values x.cells) := by
  apply h.values
  · intro s used d own
    simp only [setters, List.mem_cons, List.not_mem_nil, or_false] at used
    rcases used with rfl | rfl
    · exact element d own
    · exact index d own
  · intro s unused
    simp only [setters, List.mem_cons, List.not_mem_nil, or_false, not_or] at unused
    simp only [Evaluation.iteration, if_neg unused.1, if_neg unused.2]

theorem setVariables_spec (opened : Opened x u m env c f) (below : env.Below m)
    (setters : u.setters = ["set_element_variable", "set_index_variable"]) {d : Nat}
    (element : f.own? "set_element_variable" = some d) (i : Nat) (item : Value) :
    ∃ y, (ForEach.setVariables (Interpreter.setCell d)
        ((f.own? "set_index_variable").map fun cell n => Interpreter.setCell cell (.ofNat n))
        i item).run x.world = ((), y.world) ∧
      Step (fun _ => False) m x y ∧
      f.environment.values y.cells =
        bindOwn (Evaluation.iteration i item) u.binders (env.values x.cells) := by
  obtain ⟨le, busy⟩ := opened.busy element (by simp [setters])
  let y := x.withCell d item busy
  have step : Step (fun _ => False) m x y := Step.withCell _ x item busy le
  have got : y.cells.get d = item := Cells.get_set_self (opened.lt_size element) item
  cases index : f.own? "set_index_variable" with
  | none =>
    refine ⟨y, rfl, step, ?_⟩
    rw [← step.values below]
    apply (opened.step step).values_iteration setters
    · intro d' own
      rw [← Option.some.inj (element.symm.trans own), got]
    · intro d' own
      exact absurd (index.symm.trans own) (by simp)
  | some e =>
    obtain ⟨le', busy'⟩ := (opened.step step).busy index (by simp [setters])
    let z := y.withCell e (.ofNat i) busy'
    have step' : Step (fun _ => False) m x z :=
      step.trans (Step.withCell _ y (.ofNat i) busy' le') fun _ _ => id
    have ne : d ≠ e := by
      rintro rfl
      have same := Frame.own?_opened_inj (opened.frame ▸ element) (opened.frame ▸ index)
      exact absurd same (by decide)
    refine ⟨z, rfl, step', ?_⟩
    rw [← step'.values below]
    apply (opened.step step').values_iteration setters
    · intro d' own
      rw [← Option.some.inj (element.symm.trans own)]
      exact (Cells.get_set_of_ne ne y.cells (.ofNat i)).trans got
    · intro d' own
      rw [← Option.some.inj (index.symm.trans own)]
      exact Cells.get_set_self ((opened.step step).lt_size index) (.ofNat i)

end Live

end DirectiveTemplates
