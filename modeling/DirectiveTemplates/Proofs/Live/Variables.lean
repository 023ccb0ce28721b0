import DirectiveTemplates.Binding.Path
import DirectiveTemplates.Live.Instance
import Mathlib.Data.List.Nodup

/-!
The variables of a running template as a plain list of names and values. The cells of a directive
are new, one for each of its variables, so the list that its expressions read is the list outside
with its own variables in front.
-/
namespace DirectiveTemplates.Live

open Json

namespace Cells

def size (c : Cells) : Nat := c.values.size

theorem get_of_size_le {c : Cells} {i : Nat} (h : c.size ≤ i) : c.get i = .null := by
  have absent : c.values[i]? = none := Array.getElem?_eq_none h
  simp [get, absent]

theorem get_create (c : Cells) (v : Value) (i : Nat) :
    (c.create v).2.get i = if i = c.size then v else c.get i := by
  by_cases h : i = c.size
  · simp [create, get, size, h]
  · have h' : i ≠ c.values.size := h
    simp [create, get, Array.getElem?_push, h, h']

@[simp] theorem size_create (c : Cells) (v : Value) : (c.create v).2.size = c.size + 1 := by
  simp [create, size]

@[simp] theorem size_set (c : Cells) (i : Nat) (v : Value) : (c.set i v).size = c.size := by
  simp [set, size]

theorem get_set_self {c : Cells} {i : Nat} (h : i < c.size) (v : Value) :
    (c.set i v).get i = v := by
  have there : c.values[i]? = some c.values[i] := Array.getElem?_eq_getElem h
  simp [set, get, Array.getElem?_modify, there]

theorem get_set_of_ne {i j : Nat} (ne : j ≠ i) (c : Cells) (v : Value) :
    (c.set i v).get j = c.get j := by
  simp [set, get, Array.getElem?_modify, Ne.symm ne]

end Cells

abbrev Bindings := List (String × Value)

namespace Environment

def values (e : Environment) (cells : Cells) : Bindings :=
  e.bindings.map fun b => (b.1, cells.get b.2)

def Below (e : Environment) (m : Nat) : Prop := ∀ x (c : Nat), (x, c) ∈ e.bindings → c < m

theorem lookup_eq_values (e : Environment) (cells : Cells) :
    e.lookup cells = fun name => (e.values cells).lookup name := by
  funext name
  simp only [lookup, cell?, values]
  induction e.bindings with
  | nil => rfl
  | cons b bs ih =>
    obtain ⟨x, cell⟩ := b
    simp only [List.lookup_cons, List.map_cons]
    cases hx : name == x with
    | true => rfl
    | false => exact ih

theorem values_bind (e : Environment) (name : String) (cell : CellId) (cells : Cells) :
    (e.bind name cell).values cells = (name, cells.get cell) :: e.values cells := rfl

theorem values_congr {e : Environment} {m : Nat} (below : e.Below m) {cells cells' : Cells}
    (same : ∀ c < m, cells'.get c = cells.get c) : e.values cells' = e.values cells := by
  unfold values
  apply List.map_congr_left
  intro b hb
  rw [same b.2 (below b.1 b.2 hb)]

theorem Below.mono {e : Environment} {m n : Nat} (h : e.Below m) (le : m ≤ n) : e.Below n :=
  fun x c hb => Nat.lt_of_lt_of_le (h x c hb) le

end Environment

/-- The variables of a directive put in front of the others, the last one innermost. A directive
gives values to setters; of several variables under one setter only the last is ever set. -/
def bindOwn (given : String → Value) : List VariableBinding → Bindings → Bindings
  | [], outer => outer
  | v :: vs, outer =>
    let value := if vs.any (·.setter == v.setter) then .null else given v.setter
    bindOwn given vs ((v.name, value) :: outer)

theorem lookup_bindOwn_of_not_any {vs : List VariableBinding} {name : String}
    (h : vs.any (·.name == name) = false) (given : String → Value) (outer : Bindings) :
    (bindOwn given vs outer).lookup name = outer.lookup name := by
  induction vs generalizing outer with
  | nil => rfl
  | cons v vs ih =>
    simp only [List.any_cons, Bool.or_eq_false_iff] at h
    have hv : (name == v.name) = false := by
      rw [Bool.beq_comm]
      exact h.1
    rw [bindOwn, ih h.2, List.lookup_cons, hv]

theorem lookup_bindOwn_null {vs : List VariableBinding} {name : String}
    (h : vs.any (·.name == name) = true) (outer : Bindings) :
    (bindOwn (fun _ => .null) vs outer).lookup name = some .null := by
  induction vs generalizing outer with
  | nil => simp at h
  | cons v vs ih =>
    by_cases later : vs.any (·.name == name) = true
    · rw [bindOwn]
      exact ih later _
    · have hvs : vs.any (·.name == name) = false := by simpa using later
      have hv : (name == v.name) = true := by
        simp only [List.any_cons, hvs, Bool.or_false] at h
        rwa [Bool.beq_comm]
      rw [bindOwn, lookup_bindOwn_of_not_any hvs, List.lookup_cons, hv]
      simp

namespace Frame

def extend : List VariableBinding → Nat → Frame → Frame
  | [], _, f => f
  | v :: vs, c, f => extend vs (c + 1) ⟨f.environment.bind v.name c, (v.setter, c) :: f.own⟩

def opened (c : Nat) (vs : List VariableBinding) (env : Environment) : Frame :=
  extend vs c ⟨env, []⟩

/-- Binding variables makes null cells, so no cell seems to change. -/
theorem enter_eq (vs : List VariableBinding) (f : Frame) (w : World Session) :
    ∃ cells : Cells, Frame.enter vs f w =
        (extend vs w.data.cells.size f, ⟨w.slots, ⟨cells, w.data.log⟩⟩) ∧
      cells.size = w.data.cells.size + vs.length ∧ ∀ c, cells.get c = w.data.cells.get c := by
  induction vs generalizing f w with
  | nil => exact ⟨w.data.cells, rfl, rfl, fun _ => rfl⟩
  | cons v vs ih =>
    let next : World Session := ⟨w.slots, ⟨(w.data.cells.create .null).2, w.data.log⟩⟩
    obtain ⟨cells, eq, size, same⟩ :=
      ih ⟨f.environment.bind v.name w.data.cells.size, (v.setter, w.data.cells.size) :: f.own⟩ next
    refine ⟨cells, ?_, ?_, ?_⟩
    · rw [Cells.size_create] at eq
      exact eq
    · simp only [next, Cells.size_create] at size
      simp only [List.length_cons]
      omega
    · intro c
      rw [same c, Cells.get_create]
      split
      · rename_i hc
        exact (Cells.get_of_size_le (Nat.le_of_eq hc.symm)).symm
      · rfl

variable {vs : List VariableBinding} {c : Nat} {f : Frame} {setter : String}

def OwnBelow (f : Frame) (m : Nat) : Prop := ∀ s (d : Nat), (s, d) ∈ f.own → d < m

theorem mem_own_of_own? {d : Nat} (h : f.own? setter = some d) : (setter, d) ∈ f.own := by
  obtain ⟨before, after, eq, -⟩ := List.lookup_eq_some_iff.mp h
  simp [eq]

theorem OwnBelow.bind (below : f.OwnBelow c) (v : VariableBinding) :
    OwnBelow ⟨f.environment.bind v.name c, (v.setter, c) :: f.own⟩ (c + 1) := by
  intro s d hd
  rcases List.mem_cons.mp hd with eq | hd
  · obtain ⟨-, rfl⟩ := Prod.mk.inj eq
    exact Nat.lt_succ_self d
  · exact Nat.lt_succ_of_lt (below s d hd)

theorem own?_extend_of_not_any (h : vs.any (·.setter == setter) = false) :
    (extend vs c f).own? setter = f.own? setter := by
  induction vs generalizing c f with
  | nil => rfl
  | cons v vs ih =>
    simp only [List.any_cons, Bool.or_eq_false_iff] at h
    have hv : (setter == v.setter) = false := by
      rw [Bool.beq_comm]
      exact h.1
    rw [extend, ih h.2]
    simp [own?, List.lookup_cons, hv]

theorem own?_extend_of_any (h : vs.any (·.setter == setter) = true) :
    ∃ d : Nat, (extend vs c f).own? setter = some d ∧ c ≤ d ∧ d < c + vs.length := by
  induction vs generalizing c f with
  | nil => simp at h
  | cons v vs ih =>
    by_cases later : vs.any (·.setter == setter) = true
    · obtain ⟨d, eq, le, lt⟩ :=
        ih (c := c + 1) (f := ⟨f.environment.bind v.name c, (v.setter, c) :: f.own⟩) later
      refine ⟨d, eq, by omega, ?_⟩
      simp only [List.length_cons]
      omega
    · have hvs : vs.any (·.setter == setter) = false := by simpa using later
      have hv : (setter == v.setter) = true := by
        simp only [List.any_cons, hvs, Bool.or_false] at h
        rwa [Bool.beq_comm]
      refine ⟨c, ?_, Nat.le_refl c, by simp⟩
      rw [extend, own?_extend_of_not_any hvs]
      simp [own?, List.lookup_cons, hv]

theorem own_extend_nodup (nodup : (f.own.map Prod.snd).Nodup) (below : f.OwnBelow c) :
    ((extend vs c f).own.map Prod.snd).Nodup := by
  induction vs generalizing c f with
  | nil => exact nodup
  | cons v vs ih =>
    refine ih ?_ (below.bind v)
    simp only [List.map_cons, List.nodup_cons, List.mem_map, not_exists, not_and]
    refine ⟨?_, nodup⟩
    rintro ⟨s, d⟩ hd (rfl : d = c)
    exact Nat.lt_irrefl d (below s d hd)

theorem own?_opened_inj {env : Environment} {s s' : String} {d : Nat}
    (h : (Frame.opened c vs env).own? s = some d) (h' : (Frame.opened c vs env).own? s' = some d) :
    s = s' := by
  have nodup : ((Frame.opened c vs env).own.map Prod.snd).Nodup :=
    own_extend_nodup (by simp) (by simp [OwnBelow])
  have mem := mem_own_of_own? h
  have mem' := mem_own_of_own? h'
  exact congrArg Prod.fst (List.inj_on_of_nodup_map nodup mem mem' rfl)

theorem own?_opened_bounds {env : Environment} {s : String} {d : Nat}
    (h : (Frame.opened c vs env).own? s = some d) : c ≤ d ∧ d < c + vs.length := by
  by_cases any : vs.any (·.setter == s) = true
  · obtain ⟨d', eq, bounds⟩ := own?_extend_of_any (c := c) (f := ⟨env, []⟩) any
    rw [Frame.opened, eq] at h
    exact Option.some.inj h ▸ bounds
  · have none : vs.any (·.setter == s) = false := by simpa using any
    rw [Frame.opened, own?_extend_of_not_any none] at h
    simp [own?] at h

/-- What the expressions of a directive read, when each cell of its own that a setter leads to has
the value given to that setter and every other is null. -/
theorem values_extend {cells : Cells} {given : String → Value}
    (below : f.OwnBelow c)
    (set : ∀ (s : String) (d : Nat), c ≤ d → (extend vs c f).own? s = some d →
      cells.get d = given s)
    (unset : ∀ d : Nat, c ≤ d → d < c + vs.length → (∀ s, (extend vs c f).own? s ≠ some d) →
      cells.get d = .null) :
    (extend vs c f).environment.values cells =
      bindOwn given vs (f.environment.values cells) := by
  induction vs generalizing c f with
  | nil => rfl
  | cons v vs ih =>
    let f' : Frame := ⟨f.environment.bind v.name c, (v.setter, c) :: f.own⟩
    have first : cells.get c =
        if vs.any (·.setter == v.setter) then .null else given v.setter := by
      by_cases later : vs.any (·.setter == v.setter) = true
      · rw [if_pos later]
        apply unset c (Nat.le_refl c) (by simp)
        intro s eq
        by_cases any : vs.any (·.setter == s) = true
        · obtain ⟨d, eq', le, -⟩ := own?_extend_of_any (c := c + 1) (f := f') any
          rw [extend, eq'] at eq
          have same := Option.some.inj eq
          omega
        · have none : vs.any (·.setter == s) = false := by simpa using any
          rw [extend, own?_extend_of_not_any none] at eq
          have hs : (s == v.setter) = false := by
            cases hs : s == v.setter with
            | false => rfl
            | true => exact absurd (beq_iff_eq.mp hs ▸ later) any
          simp only [own?, List.lookup_cons, hs] at eq
          exact Nat.lt_irrefl c (below s c (mem_own_of_own? eq))
      · rw [if_neg later]
        have none : vs.any (·.setter == v.setter) = false := by simpa using later
        apply set v.setter c (Nat.le_refl c)
        rw [extend, own?_extend_of_not_any none]
        simp [own?]
    have rest := ih (c := c + 1) (f := f') (below.bind v)
      (fun s d le => set s d (by omega))
      (fun d le lt => unset d (by omega) (by simp only [List.length_cons]; omega))
    rw [extend, rest, bindOwn, Environment.values_bind, first]

theorem below_extend {m : Nat} (h : f.environment.Below m) (le : c + vs.length ≤ m) :
    (extend vs c f).environment.Below m := by
  induction vs generalizing c f with
  | nil => exact h
  | cons v vs ih =>
    simp only [List.length_cons] at le
    refine ih ?_ (by omega)
    intro x d hd
    rcases List.mem_cons.mp hd with eq | hd
    · obtain ⟨-, rfl⟩ := Prod.mk.inj eq
      omega
    · exact h x d hd

end Frame

end DirectiveTemplates.Live
