import DirectiveTemplates.Proofs.Live.Numbering
import DirectiveTemplates.Proofs.Live.Reconciliation

/-!
Groups within groups as lists. Rendering a tree renders its leaves from left to right until one
fails, and destroying it destroys its nodes, each before the nodes below it.
-/
namespace DirectiveTemplates.Live

variable {δ κ κ' : Type}

namespace Kind

def visit (kind : Kind δ κ) : List κ → Act δ (List (RenderResult × κ))
  | [] => return []
  | c :: cs => do
    let outcome ← kind.render c
    match outcome.1 with
    | .error _ => return [outcome]
    | .ok () =>
      let outcomes ← visit kind cs
      return outcome :: outcomes

/-- Destroys a node of a tree, and no other. -/
def close (kind : Kind δ κ) : Base ⊕ κ → Act δ (Base ⊕ κ)
  | .inl b => do
    let b ← b.destroy
    return .inl b
  | .inr c => do
    let c ← kind.destroy c
    return .inr c

end Kind

structure Span where
  base : Base
  before : Nat
  below : Nat
  deriving DecidableEq, Repr

namespace Span

def reached (results : List RenderResult) (s : Span) : Bool :=
  (results.take s.before).all (·.isOk)

/-- No leaf below the group failed. -/
def intact (results : List RenderResult) (s : Span) : Bool :=
  ((results.drop s.before).take s.below).all (·.isOk)

def after (results : List RenderResult) (s : Span) : Span :=
  if s.reached results && s.intact results then { s with base := s.base.rendered } else s

end Span

namespace Nested

mutual

def nodes : Nested κ → List (Base ⊕ κ)
  | leaf c => [.inr c]
  | group base children => .inl base :: nodesAll children

def nodesAll : List (Nested κ) → List (Base ⊕ κ)
  | [] => []
  | n :: ns => n.nodes ++ nodesAll ns

end

def bases (n : Nested κ) : List Base := n.nodes.filterMap Sum.getLeft?

def leaves (n : Nested κ) : List κ := n.nodes.filterMap Sum.getRight?

def leavesAll (ns : List (Nested κ)) : List κ := (nodesAll ns).filterMap Sum.getRight?

mutual

def spans (before : Nat) : Nested κ → List Span
  | leaf _ => []
  | group base children => ⟨base, before, (leavesAll children).length⟩ :: spansAll before children

def spansAll (before : Nat) : List (Nested κ) → List Span
  | [] => []
  | n :: ns => n.spans before ++ spansAll (before + n.leaves.length) ns

end

mutual

def map (f : κ → κ') : Nested κ → Nested κ'
  | leaf c => leaf (f c)
  | group base children => group base (mapAll f children)

def mapAll (f : κ → κ') : List (Nested κ) → List (Nested κ')
  | [] => []
  | n :: ns => n.map f :: mapAll f ns

end

def component (kind : Kind δ κ) : Kind δ (Nested κ) := ⟨slot kind, render kind, destroy kind⟩

/-- What holds of a tree when it holds of the trees inside holds of all trees. -/
theorem induction {P : Nested κ → Prop} (leaf : ∀ c, P (.leaf c))
    (group : ∀ base children, (∀ n ∈ children, P n) → P (.group base children)) : ∀ n, P n := by
  intro n
  refine Nested.rec (motive_1 := P) (motive_2 := fun ns => ∀ n ∈ ns, P n) ?_ ?_ ?_ ?_ n
  · intro c
    exact leaf c
  · intro base children ih
    exact group base children ih
  · simp
  · intro n ns hn hns n' mem
    rcases List.mem_cons.mp mem with rfl | mem
    · exact hn
    · exact hns n' mem

variable {n n' : Nested κ} {ns : List (Nested κ)} {base : Base} {children : List (Nested κ)}
  {kind : Kind δ κ} {w : World δ} {before : Nat}

@[simp] theorem leaves_leaf (c : κ) : (leaf c).leaves = [c] := rfl

@[simp] theorem leaves_group : (group base children).leaves = leavesAll children := rfl

@[simp] theorem leavesAll_cons : leavesAll (n :: ns) = n.leaves ++ leavesAll ns :=
  List.filterMap_append

@[simp] theorem bases_group :
    (group base children).bases = base :: (nodesAll children).filterMap Sum.getLeft? := rfl

theorem nodesAll_mapAll_of (f : κ → κ')
    (each : ∀ n ∈ ns, (n.map f).nodes = n.nodes.map (Sum.map id f)) :
    nodesAll (mapAll f ns) = (nodesAll ns).map (Sum.map id f) := by
  induction ns with
  | nil => rfl
  | cons n ns ih =>
    obtain ⟨first, others⟩ := List.forall_mem_cons.mp each
    rw [mapAll, nodesAll, nodesAll, List.map_append, first, ih others]

theorem nodes_map (f : κ → κ') (n : Nested κ) : (n.map f).nodes = n.nodes.map (Sum.map id f) := by
  induction n using induction with
  | leaf c => rfl
  | group base children ih => exact congrArg (Sum.inl base :: ·) (nodesAll_mapAll_of f ih)

theorem bases_map (f : κ → κ') (n : Nested κ) : (n.map f).bases = n.bases := by
  rw [bases, nodes_map, List.filterMap_map, bases]
  congr 1
  funext node
  cases node <;> rfl

/-! The groups and where they are among the leaves. -/

theorem map_base_spansAll_of {ns : List (Nested κ)}
    (each : ∀ n ∈ ns, ∀ before, (n.spans before).map Span.base = n.bases) (before : Nat) :
    (spansAll before ns).map Span.base = (nodesAll ns).filterMap Sum.getLeft? := by
  induction ns generalizing before with
  | nil => rfl
  | cons n ns ih =>
    obtain ⟨first, others⟩ := List.forall_mem_cons.mp each
    rw [spansAll, nodesAll, List.map_append, List.filterMap_append, first, ih others]
    rfl

theorem map_base_spans (n : Nested κ) (before : Nat) :
    (n.spans before).map Span.base = n.bases := by
  induction n using induction generalizing before with
  | leaf c => rfl
  | group base children ih => exact congrArg (base :: ·) (map_base_spansAll_of ih before)

theorem spansAll_bounds_of {ns : List (Nested κ)}
    (each : ∀ n ∈ ns, ∀ before, ∀ s ∈ n.spans before,
      before ≤ s.before ∧ s.before + s.below ≤ before + n.leaves.length) :
    ∀ s ∈ spansAll before ns,
      before ≤ s.before ∧ s.before + s.below ≤ before + (leavesAll ns).length := by
  induction ns generalizing before with
  | nil => exact fun s mem => absurd mem List.not_mem_nil
  | cons n ns ih =>
    obtain ⟨first, others⟩ := List.forall_mem_cons.mp each
    intro s mem
    rw [leavesAll_cons, List.length_append]
    rcases List.mem_append.mp mem with mem | mem
    · have bounds := first before s mem
      omega
    · have bounds := ih others s mem
      omega

theorem spans_bounds (n : Nested κ) (before : Nat) :
    ∀ s ∈ n.spans before,
      before ≤ s.before ∧ s.before + s.below ≤ before + n.leaves.length := by
  induction n using induction generalizing before with
  | leaf c => exact fun s mem => absurd mem List.not_mem_nil
  | group base children ih =>
    intro s mem
    rcases List.mem_cons.mp mem with rfl | mem
    · exact ⟨Nat.le_refl _, Nat.le_refl _⟩
    · exact spansAll_bounds_of ih s mem

theorem spansAll_bounds (ns : List (Nested κ)) (before : Nat) :
    ∀ s ∈ spansAll before ns,
      before ≤ s.before ∧ s.before + s.below ≤ before + (leavesAll ns).length :=
  spansAll_bounds_of fun n _ => n.spans_bounds

end Nested

/-! Results of a pass. -/

section Results

variable {rs more : List RenderResult} {s : Span}

theorem isOk_iff {r : RenderResult} : r.isOk = true ↔ r = .ok () := by
  cases r <;> simp [Except.isOk, Except.toBool]

namespace ForEach

theorem firstFailure_append (rs more : List RenderResult) :
    firstFailure (rs ++ more) = firstError (firstFailure rs) (firstFailure more) := by
  induction rs with
  | nil => rfl
  | cons r rs ih =>
    rw [List.cons_append, firstFailure_cons, firstFailure_cons, ih]
    cases r <;> rfl

theorem isOk_firstFailure (rs : List RenderResult) :
    (firstFailure rs).isOk = rs.all (·.isOk) := by
  induction rs with
  | nil => rfl
  | cons r rs ih =>
    rw [firstFailure_cons, List.all_cons, ← ih]
    cases r <;> rfl

end ForEach

namespace Span

/-- What the leaves behind a group come to is nothing to the group. -/
theorem after_append (le : s.before + s.below ≤ rs.length) (more : List RenderResult) :
    s.after (rs ++ more) = s.after rs := by
  have start : s.before ≤ rs.length := Nat.le_of_add_right_le le
  have rest : s.below ≤ (rs.drop s.before).length := by
    rw [List.length_drop]
    omega
  rw [after, after, reached, reached, intact, intact, List.take_append_of_le_length start,
    List.drop_append_of_le_length start, List.take_append_of_le_length rest]

theorem after_of_failed (le : rs.length ≤ s.before) (failed : rs.all (·.isOk) = false) :
    s.after rs = s := by
  rw [after, reached, List.take_of_length_le le, failed]
  rfl

/-- A group that was reached counts as rendered when no leaf below it failed. -/
theorem after_reached (base : Base) (before : Nat) {below : Nat} (le : rs.length ≤ below) :
    (⟨base, before, below⟩ : Span).after (List.replicate before (.ok ()) ++ rs) =
      ⟨base.after (ForEach.firstFailure rs), before, below⟩ := by
  let oks : List RenderResult := List.replicate before (.ok ())
  have length : before = oks.length := List.length_replicate.symm
  have reached : oks.all (·.isOk) = true := by
    simp [oks, isOk_iff]
  have firsts : (oks ++ rs).take before = oks := List.take_left' length.symm
  have lasts : (oks ++ rs).drop before = rs := List.drop_left' length.symm
  rw [after, Span.reached, intact, firsts, reached, lasts, List.take_of_length_le le,
    ← ForEach.isOk_firstFailure]
  cases ForEach.firstFailure rs <;> rfl

end Span

end Results

namespace Kind

variable {kind : Kind δ κ}

theorem run_visit_cons (c : κ) (cs : List κ) (w : World δ) :
    (kind.visit (c :: cs)).run w =
      let r := (kind.render c).run w
      let rest := (kind.visit cs).run r.2
      if r.1.1.isOk then (r.1 :: rest.1, rest.2) else ([r.1], r.2) := by
  rw [visit, Act.run_bind]
  dsimp only
  cases ((kind.render c).run w).1.1 with
  | error e => rfl
  | ok _ => rfl

theorem run_visit_append (cs ds : List κ) (w : World δ) :
    (kind.visit (cs ++ ds)).run w =
      let first := (kind.visit cs).run w
      let rest := (kind.visit ds).run first.2
      if (first.1.map Prod.fst).all (·.isOk) then (first.1 ++ rest.1, rest.2) else first := by
  induction cs generalizing w with
  | nil => rfl
  | cons c cs ih =>
    rw [List.cons_append, run_visit_cons, run_visit_cons]
    dsimp only
    rw [ih]
    cases ok : ((kind.render c).run w).1.1.isOk with
    | false => simp [ok]
    | true =>
      simp only [if_true, List.map_cons, List.all_cons, ok, Bool.true_and]
      split <;> rfl

theorem length_visit_le (cs : List κ) (w : World δ) :
    ((kind.visit cs).run w).1.length ≤ cs.length := by
  induction cs generalizing w with
  | nil => exact Nat.le_refl 0
  | cons c cs ih =>
    rw [run_visit_cons]
    dsimp only
    split
    · exact Nat.succ_le_succ (ih _)
    · exact Nat.le_add_left 1 _

theorem length_visit {cs : List κ} {w : World δ}
    (all : (((kind.visit cs).run w).1.map Prod.fst).all (·.isOk) = true) :
    ((kind.visit cs).run w).1.length = cs.length := by
  induction cs generalizing w with
  | nil => rfl
  | cons c cs ih =>
    rw [run_visit_cons] at all ⊢
    dsimp only at all ⊢
    split at all
    · rename_i ok
      rw [if_pos ok]
      rw [List.map_cons, List.all_cons, Bool.and_eq_true] at all
      exact congrArg Nat.succ (ih all.2)
    · rename_i failed
      simp [failed] at all

theorem bases_close (kind : Kind δ κ) (nodes : List (Base ⊕ κ)) (w : World δ) :
    ((nodes.mapM kind.close).run w).1.filterMap Sum.getLeft? =
      (nodes.filterMap Sum.getLeft?).map fun b => ⟨b.slot, .destroyed⟩ := by
  induction nodes generalizing w with
  | nil => rfl
  | cons node nodes ih =>
    rw [List.mapM_cons]
    cases node with
    | inl b => exact congrArg (⟨b.slot, .destroyed⟩ :: ·) (ih _)
    | inr c => exact ih _

theorem notes_close (kind : Kind δ κ) (nodes : List (Base ⊕ Nat × κ)) (w : World (δ × Notes)) :
    ((nodes.mapM kind.numbered.close).run w).2.data.2 = { w.data.2 with
      destroyed := w.data.2.destroyed ++ (nodes.filterMap Sum.getRight?).map Prod.fst } := by
  induction nodes generalizing w with
  | nil =>
    rw [List.filterMap_nil, List.map_nil, List.append_nil]
    rfl
  | cons node nodes ih =>
    rw [List.mapM_cons]
    cases node with
    | inl b => exact ih _
    | inr c =>
      have later := ih ((kind.numbered.destroy c).run w).2
      have listed : (Sum.inr c :: nodes).filterMap Sum.getRight? =
          c :: nodes.filterMap Sum.getRight? := rfl
      rw [listed, List.map_cons, List.append_cons]
      exact later

end Kind

namespace Nested

variable {n : Nested κ} {ns : List (Nested κ)} {base : Base} {children : List (Nested κ)}
  {kind : Kind δ κ} {w : World δ} {before : Nat}

/-- What a pass with these outcomes makes of a tree or of several ones, known by their leaves and
their groups. -/
structure Passed (outcomes : List (RenderResult × κ)) (result : RenderResult)
    (leaves leaves' : List κ) (spans spans' : Nat → List Span) : Prop where
  result_eq : result = ForEach.firstFailure (outcomes.map Prod.fst)
  leaves_eq : leaves' = outcomes.map Prod.snd ++ leaves.drop outcomes.length
  spans_eq : ∀ before, spans' before =
    (spans before).map (·.after (List.replicate before (.ok ()) ++ outcomes.map Prod.fst))

namespace Passed

variable {outcomes outcomes' : List (RenderResult × κ)} {result result' : RenderResult}
  {leaves leaves' more more' : List κ} {spans spans' rest rest' : Nat → List Span}

theorem length_eq (h : Passed outcomes result leaves leaves' spans spans')
    (le : outcomes.length ≤ leaves.length) : leaves'.length = leaves.length := by
  rw [h.leaves_eq, List.length_append, List.length_map, List.length_drop]
  omega

theorem append_of_failed (h : Passed outcomes result leaves leaves' spans spans')
    (failed : (outcomes.map Prod.fst).all (·.isOk) = false) (le : outcomes.length ≤ leaves.length)
    (behind : ∀ before, ∀ s ∈ rest before, before ≤ s.before) (more : List κ) :
    Passed outcomes result (leaves ++ more) (leaves' ++ more)
      (fun before => spans before ++ rest (before + leaves.length))
      (fun before => spans' before ++ rest (before + leaves'.length)) := by
  refine ⟨h.result_eq, ?_, ?_⟩
  · rw [h.leaves_eq, List.append_assoc, ← List.drop_append_of_le_length le]
  · intro before
    rw [h.length_eq le, List.map_append, h.spans_eq]
    have same : (rest (before + leaves.length)).map
        (·.after (List.replicate before (.ok ()) ++ outcomes.map Prod.fst)) =
          rest (before + leaves.length) := by
      refine (List.map_congr_left ?_).trans (List.map_id _)
      intro s mem
      apply Span.after_of_failed
      · have later := behind _ s mem
        simp only [List.length_append, List.length_replicate, List.length_map]
        omega
      · rw [List.all_append, failed, Bool.and_false]
    rw [same]

/-- When all leaves came to a result and none failed, the pass goes on. -/
theorem append (h : Passed outcomes result leaves leaves' spans spans')
    (h' : Passed outcomes' result' more more' rest rest')
    (all : (outcomes.map Prod.fst).all (·.isOk) = true) (length : outcomes.length = leaves.length)
    (within : ∀ before, ∀ s ∈ spans before, s.before + s.below ≤ before + leaves.length) :
    Passed (outcomes ++ outcomes') result' (leaves ++ more) (leaves' ++ more')
      (fun before => spans before ++ rest (before + leaves.length))
      (fun before => spans' before ++ rest' (before + leaves'.length)) := by
  have oks : outcomes.map Prod.fst = List.replicate leaves.length (.ok ()) := by
    rw [List.eq_replicate_iff, List.length_map]
    exact ⟨length, fun r mem => isOk_iff.mp (List.all_eq_true.mp all r mem)⟩
  refine ⟨?_, ?_, ?_⟩
  · have none := isOk_iff.mp ((ForEach.isOk_firstFailure _).trans all)
    rw [h'.result_eq, List.map_append, ForEach.firstFailure_append, none]
    rfl
  · rw [h.leaves_eq, h'.leaves_eq, length, List.drop_length, List.append_nil, List.length_append,
      length, List.drop_append, List.map_append, List.append_assoc]
    simp
  · intro before
    have first : (spans before).map (·.after (List.replicate before (.ok ()) ++
          (outcomes ++ outcomes').map Prod.fst)) = spans' before := by
      rw [h.spans_eq]
      apply List.map_congr_left
      intro s mem
      rw [List.map_append, ← List.append_assoc]
      apply Span.after_append
      simp only [List.length_append, List.length_replicate, List.length_map, length]
      exact within before s mem
    have results : List.replicate before (.ok ()) ++ (outcomes ++ outcomes').map Prod.fst =
        List.replicate (before + leaves.length) (.ok ()) ++ outcomes'.map Prod.fst := by
      rw [List.map_append, oks, ← List.append_assoc, List.replicate_append_replicate]
    rw [List.map_append, first, results, ← h'.spans_eq, h.length_eq (Nat.le_of_eq length)]

end Passed

def Living (n : Nested κ) : Prop := ∀ b ∈ n.bases, b.isDestroyed = false

theorem render_of_destroyed (gone : base.isDestroyed = true) :
    render kind (group base children) = pure (.error .destroyed, group base children) := by
  rw [render, Group.render_of_destroyed gone]
  rfl

theorem destroy_of_destroyed (gone : base.isDestroyed = true) :
    destroy kind (group base children) = pure (group base children) := by
  rw [destroy, Group.destroy_of_destroyed gone]
  rfl

theorem run_render_group (alive : base.isDestroyed = false) :
    (render kind (group base children)).run w =
      let r := (renderAll kind children).run w
      ((r.1.1, group (base.after r.1.1) r.1.2), r.2) := by
  rw [render, Act.run_bind, Group.run_render alive]
  rfl

theorem run_renderAll_cons :
    (renderAll kind (n :: ns)).run w =
      let r := (render kind n).run w
      let rest := (renderAll kind ns).run r.2
      if r.1.1.isOk then ((rest.1.1, r.1.2 :: rest.1.2), rest.2)
      else ((r.1.1, r.1.2 :: ns), r.2) := by
  rw [renderAll, Act.run_bind]
  generalize (render kind n).run w = r
  obtain ⟨⟨result, n'⟩, w'⟩ := r
  cases result with
  | error e => rfl
  | ok _ => rfl

theorem passed_renderAll
    (each : ∀ n ∈ ns, ∀ w : World δ,
      let visited := (kind.visit n.leaves).run w
      let r := (render kind n).run w
      r.2 = visited.2 ∧ Passed visited.1 r.1.1 n.leaves r.1.2.leaves (n.spans ·) (r.1.2.spans ·))
    (w : World δ) :
    let visited := (kind.visit (leavesAll ns)).run w
    let r := (renderAll kind ns).run w
    r.2 = visited.2 ∧
      Passed visited.1 r.1.1 (leavesAll ns) (leavesAll r.1.2) (spansAll · ns)
        (spansAll · r.1.2) := by
  induction ns generalizing w with
  | nil => exact ⟨rfl, rfl, rfl, fun _ => rfl⟩
  | cons n ns ih =>
    obtain ⟨first, others⟩ := List.forall_mem_cons.mp each
    obtain ⟨world, here⟩ := first w
    rw [leavesAll_cons, kind.run_visit_append, run_renderAll_cons]
    dsimp only
    cases all : (((kind.visit n.leaves).run w).1.map Prod.fst).all (·.isOk) with
    | false =>
      have failed : ((render kind n).run w).1.1.isOk = false := by
        rw [here.result_eq, ForEach.isOk_firstFailure, all]
      have behind : ∀ before, ∀ s ∈ spansAll before ns, before ≤ s.before :=
        fun before s mem => (spansAll_bounds ns before s mem).1
      simp only [failed, Bool.false_eq_true, if_false, leavesAll_cons]
      exact ⟨world, here.append_of_failed all (kind.length_visit_le _ w) behind (leavesAll ns)⟩
    | true =>
      have ok : ((render kind n).run w).1.1.isOk = true := by
        rw [here.result_eq, ForEach.isOk_firstFailure, all]
      obtain ⟨laterWorld, later⟩ := ih others ((kind.visit n.leaves).run w).2
      simp only [ok, if_true, leavesAll_cons, world]
      have within : ∀ before, ∀ s ∈ n.spans before,
          s.before + s.below ≤ before + n.leaves.length :=
        fun before s mem => (n.spans_bounds before s mem).2
      exact ⟨laterWorld, here.append later all (Kind.length_visit all) within⟩

theorem living_group :
    (group base children).Living ↔ base.isDestroyed = false ∧ ∀ n ∈ children, n.Living := by
  rw [Living, bases_group, List.forall_mem_cons]
  refine and_congr_right fun _ => ?_
  induction children with
  | nil => simp [nodesAll]
  | cons n ns ih =>
    rw [nodesAll, List.filterMap_append, List.forall_mem_append, ih, List.forall_mem_cons]
    rfl

variable (kind) in
/-- Rendering a tree passes over its leaves up to and including the first that fails. -/
theorem passed_render (n : Nested κ) (living : n.Living) (w : World δ) :
    let visited := (kind.visit n.leaves).run w
    let r := (render kind n).run w
    r.2 = visited.2 ∧
      Passed visited.1 r.1.1 n.leaves r.1.2.leaves (n.spans ·) (r.1.2.spans ·) := by
  induction n using induction generalizing w with
  | leaf c =>
    rw [leaves_leaf, kind.run_visit_cons, render, Act.run_bind]
    generalize (kind.render c).run w = r
    obtain ⟨⟨result, c'⟩, w'⟩ := r
    cases result with
    | error e => exact ⟨rfl, rfl, rfl, fun _ => rfl⟩
    | ok _ => exact ⟨rfl, rfl, rfl, fun _ => rfl⟩
  | group base children ih =>
    obtain ⟨alive, below⟩ := living_group.mp living
    obtain ⟨world, pass⟩ := passed_renderAll (fun n mem w => ih n mem (below n mem) w) w
    have le := kind.length_visit_le (leavesAll children) w
    rw [leaves_group, run_render_group alive]
    refine ⟨world, pass.result_eq, pass.leaves_eq, ?_⟩
    -- A pass that comes to the group goes on below it, so it fails here only if it fails there.
    intro before
    rw [spans, spans, List.map_cons, ← pass.spans_eq, Span.after_reached base before
      (by rw [List.length_map]; exact le), pass.length_eq le, pass.result_eq]

theorem living_render (living : n.Living) (w : World δ) :
    ((render kind n).run w).1.2.Living := by
  obtain ⟨-, pass⟩ := passed_render kind n living w
  intro b mem
  rw [← map_base_spans _ 0, pass.spans_eq, List.map_map] at mem
  obtain ⟨s, listed, rfl⟩ := List.mem_map.mp mem
  have alive : s.base.isDestroyed = false := by
    apply living
    rw [← map_base_spans n 0]
    exact List.mem_map.mpr ⟨s, listed, rfl⟩
  rw [Function.comp_apply, Span.after]
  split
  · rfl
  · exact alive

variable (kind) in
theorem slots_render (living : n.Living) (w : World δ) :
    ((render kind n).run w).1.2.bases.map Base.slot = n.bases.map Base.slot := by
  obtain ⟨-, pass⟩ := passed_render kind n living w
  rw [← map_base_spans _ 0, pass.spans_eq, ← map_base_spans n 0, List.map_map, List.map_map,
    List.map_map]
  refine List.map_congr_left fun s _ => ?_
  rw [Function.comp_apply, Function.comp_apply, Span.after]
  split <;> rfl

theorem destroy_group (alive : base.isDestroyed = false) :
    destroy kind (group base children) = (do
      let base ← base.destroy
      let children ← destroyAll kind children
      return group base children) := by
  rw [destroy, Group.destroy_of_alive alive]
  rfl

theorem nodesAll_destroyAll_of
    (each : ∀ n ∈ ns, nodes <$> destroy kind n = n.nodes.mapM kind.close) :
    nodesAll <$> destroyAll kind ns = (nodesAll ns).mapM kind.close := by
  induction ns with
  | nil => rfl
  | cons n ns ih =>
    obtain ⟨first, others⟩ := List.forall_mem_cons.mp each
    rw [nodesAll, List.mapM_append, ← first, ← ih others]
    rfl

theorem nodes_destroy (n : Nested κ) (living : n.Living) :
    nodes <$> destroy kind n = n.nodes.mapM kind.close := by
  induction n using induction with
  | leaf c => rfl
  | group base children ih =>
    obtain ⟨alive, below⟩ := living_group.mp living
    have all := nodesAll_destroyAll_of fun n mem => ih n mem (below n mem)
    rw [nodes, List.mapM_cons, ← all, destroy_group alive]
    rfl

theorem run_destroy (living : n.Living) (w : World δ) :
    let closed := (n.nodes.mapM kind.close).run w
    ((destroy kind n).run w).1.nodes = closed.1 ∧ ((destroy kind n).run w).2 = closed.2 := by
  rw [← nodes_destroy n living]
  exact ⟨rfl, rfl⟩

theorem bases_destroy (living : n.Living) (w : World δ) :
    ((destroy kind n).run w).1.bases = n.bases.map fun b => ⟨b.slot, .destroyed⟩ := by
  rw [bases, bases, (run_destroy living w).1, kind.bases_close]

/-! The labels of the leaves. -/

section Labels

variable {w : World (δ × Notes)} {n : Nested (Nat × κ)} {ns : List (Nested (Nat × κ))}

variable (kind) in
theorem labels_visit (cs : List (Nat × κ)) (w : World (δ × Notes)) :
    let visited := (kind.numbered.visit cs).run w
    (visited.1.map Prod.snd ++ cs.drop visited.1.length).map Prod.fst = cs.map Prod.fst ∧
      visited.2.data.2 = w.data.2 := by
  induction cs generalizing w with
  | nil => exact ⟨rfl, rfl⟩
  | cons c cs ih =>
    rw [Kind.run_visit_cons]
    dsimp only
    split
    · obtain ⟨labels, notes⟩ := ih ((kind.numbered.render c).run w).2
      exact ⟨congrArg (c.1 :: ·) labels, notes⟩
    · exact ⟨rfl, rfl⟩

variable (kind) in
theorem labels_render (living : n.Living) (w : World (δ × Notes)) :
    let r := (render kind.numbered n).run w
    r.1.2.leaves.map Prod.fst = n.leaves.map Prod.fst ∧ r.2.data.2 = w.data.2 := by
  obtain ⟨world, pass⟩ := passed_render kind.numbered n living w
  obtain ⟨labels, notes⟩ := labels_visit kind n.leaves w
  exact ⟨(congrArg (List.map Prod.fst) pass.leaves_eq).trans labels,
    (congrArg (·.data.2) world).trans notes⟩

/-- Destroying a tree destroys its leaves once each, from left to right. -/
theorem notes_destroy (living : n.Living) (w : World (δ × Notes)) :
    ((destroy kind.numbered n).run w).2.data.2 =
      { w.data.2 with destroyed := w.data.2.destroyed ++ n.leaves.map Prod.fst } := by
  rw [(run_destroy living w).2, leaves, kind.notes_close]

theorem follows_renderAll (each : ∀ n ∈ ns, Follows (render kind.numbered n)
      (Prod.map id (map Prod.snd)) (render kind (n.map Prod.snd))) :
    Follows (renderAll kind.numbered ns) (Prod.map id (mapAll Prod.snd))
      (renderAll kind (mapAll Prod.snd ns)) := by
  induction ns with
  | nil => exact .pure _ (Except.ok (), [])
  | cons n ns ih =>
    obtain ⟨first, others⟩ := List.forall_mem_cons.mp each
    apply first.bind
    rintro ⟨result, n⟩
    cases result with
    | error e => exact .pure (Prod.map id (mapAll Prod.snd)) (Except.error e, n :: ns)
    | ok _ =>
      apply (ih others).bind
      rintro ⟨result, ns⟩
      exact .pure (Prod.map id (mapAll Prod.snd)) (result, n :: ns)

theorem follows_render (n : Nested (Nat × κ)) :
    Follows (render kind.numbered n) (Prod.map id (map Prod.snd))
      (render kind (n.map Prod.snd)) := by
  induction n using induction with
  | leaf c =>
    apply (Follows.render kind c).bind
    rintro ⟨result, c⟩
    exact .pure (Prod.map id (map Prod.snd)) (result, leaf c)
  | group base children ih =>
    cases alive : base.isDestroyed with
    | true =>
      rw [render_of_destroyed alive, map, render_of_destroyed alive]
      exact .pure (Prod.map id (map Prod.snd)) (Except.error RenderError.destroyed, _)
    | false =>
      intro w
      have all := follows_renderAll ih w
      rw [map, run_render_group alive, run_render_group alive, all]
      rfl

theorem follows_destroyAll (each : ∀ n ∈ ns, Follows (destroy kind.numbered n) (map Prod.snd)
      (destroy kind (n.map Prod.snd))) :
    Follows (destroyAll kind.numbered ns) (mapAll Prod.snd)
      (destroyAll kind (mapAll Prod.snd ns)) := by
  induction ns with
  | nil => exact .pure _ []
  | cons n ns ih =>
    obtain ⟨first, others⟩ := List.forall_mem_cons.mp each
    apply first.bind
    intro n
    apply (ih others).bind
    intro ns
    exact .pure (mapAll Prod.snd) (n :: ns)

theorem follows_destroy (n : Nested (Nat × κ)) :
    Follows (destroy kind.numbered n) (map Prod.snd) (destroy kind (n.map Prod.snd)) := by
  induction n using induction with
  | leaf c => exact (Follows.destroy kind c).bind fun c => .pure (map Prod.snd) (leaf c)
  | group base children ih =>
    cases alive : base.isDestroyed with
    | true =>
      rw [destroy_of_destroyed alive, map, destroy_of_destroyed alive]
      exact .pure (map Prod.snd) _
    | false =>
      rw [map, destroy_group alive, destroy_group alive]
      apply (Follows.destroyBase base).bind
      intro base
      apply (follows_destroyAll ih).bind
      intro children
      exact .pure (map Prod.snd) (group base children)

end Labels

end Nested

end DirectiveTemplates.Live
