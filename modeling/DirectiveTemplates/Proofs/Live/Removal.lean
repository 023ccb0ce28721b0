import DirectiveTemplates.Proofs.Live.Cascade

/-!
What a destroyed template leaves behind. Whatever was rendered before and whatever is asked of it
later, the markup of the nodes without a directive is all that is left.
-/
namespace DirectiveTemplates.Live

open Json
open SlotTree (Kept)

namespace Shape

variable {t : SlotTree}

theorem map_slot_subset (ls : List Shape) : ls.map slot ⊆ idsAll ls := by
  intro i mem
  obtain ⟨l, among, rfl⟩ := List.mem_map.mp mem
  exact ids_subset_idsAll among l.slot_mem_ids

mutual

/-- A shape is closed: the slots in it have no other children. -/
theorem children_subset : (l : Shape) → {parent : Option SlotId} → l.Stands t parent →
    ∀ p ∈ l.ids, t.children p ⊆ l.ids
  | node i content ls, parent, h, p, mem => by
    rcases List.mem_cons.mp mem with rfl | mem
    · rw [SlotTree.children, h.1]
      exact List.subset_cons_of_subset _ (map_slot_subset ls)
    · exact List.subset_cons_of_subset _ (childrenAll_subset ls h.2 p mem)

theorem childrenAll_subset : (ls : List Shape) → {q : SlotId} → StandAll t q ls →
    ∀ p ∈ idsAll ls, t.children p ⊆ idsAll ls
  | [], _, _, p, mem => absurd mem List.not_mem_nil
  | l :: ls, q, h, p, mem => by
    rcases List.mem_append.mp mem with mem | mem
    · exact List.subset_append_of_subset_left _ (children_subset l h.1 p mem)
    · exact List.subset_append_of_subset_right _ (childrenAll_subset ls h.2 p mem)

end

end Shape

/-! Slots that lose children. -/

namespace SlotTree

variable {kept gone gone' : List SlotId} {t t' t'' : SlotTree} {i c : SlotId}

/-- The kept slots lost the children that are gone, and nothing else about them changed. -/
structure Pruned (kept gone : List SlotId) (t t' : SlotTree) : Prop where
  linked : t'.Linked
  size_le : t.size ≤ t'.size
  row : ∀ p ∈ kept, t'.slot? p = (t.slot? p).map fun s =>
    { s with children := s.children.filter (· ∉ gone) }

theorem Inner.of_subset (h : t.Inner kept i)
    (sub : ∀ p ∈ kept, t'.children p ⊆ t.children p) : t'.Inner kept i :=
  ⟨h.1, fun p mem listed => h.2 p mem (sub p mem listed)⟩

namespace Pruned

theorem refl (linked : t.Linked) : Pruned kept [] t t := by
  refine ⟨linked, Nat.le_refl _, fun p _ => ?_⟩
  cases t.slot? p with
  | none => rfl
  | some s => simp

theorem children_subset (h : Pruned kept gone t t') (p : SlotId) (mem : p ∈ kept) :
    t'.children p ⊆ t.children p := by
  rw [children, h.row p mem, children]
  cases t.slot? p with
  | none => exact List.Subset.refl _
  | some s => exact List.filter_subset_self _

theorem trans (first : Pruned kept gone t t') (later : Pruned kept gone' t' t'') :
    Pruned kept (gone ++ gone') t t'' := by
  refine ⟨later.linked, Nat.le_trans first.size_le later.size_le, fun p mem => ?_⟩
  rw [later.row p mem, first.row p mem, Option.map_map]
  congr 1
  funext s
  have both : (s.children.filter (· ∉ gone)).filter (· ∉ gone') =
      s.children.filter (· ∉ gone ++ gone') := by
    rw [List.filter_filter]
    exact List.filter_congr fun i _ => by simp [Bool.and_comm]
  exact congrArg (fun cs => { s with children := cs }) both

/-- A slot leaves its parent, and then the kept slots stay as they are. -/
theorem delete (linked : t.Linked) (free : c ∉ kept) (h : Kept kept (t.delete c) t') :
    Pruned kept [c] t t' := by
  refine ⟨h.linked, ?_, fun p mem => ?_⟩
  · rw [← size_delete t c]
    exact h.size_le
  · have other : p ≠ c := fun eq => free (eq ▸ mem)
    rw [h.same p mem, linked.slot?_delete_eq]
    congr 1
    funext s
    rw [if_neg other]
    have alone : s.children.filter (· != c) = s.children.filter (· ∉ [c]) :=
      List.filter_congr fun i _ => by simp [bne, beq_eq_decide]
    exact congrArg (fun cs => { s with children := cs }) alone

end Pruned

end SlotTree

variable {kept : List SlotId} {t t' : SlotTree} {i : Interpreter} {n : TemplateNode}
  {ns nodes : List TemplateNode} {s : NodeState} {ss : List NodeState}

/-- The component of a node, if it has one, can still be destroyed: it stands in no kept slot, and
those below its own are not in one either. -/
def Loose (kept : List SlotId) (t : SlotTree) (n : TemplateNode) (s : NodeState) : Prop :=
  n.isLive = true → Alive n s ∧ s.slot ∉ kept ∧ SlotsBelow (t.Inner kept) n s

theorem Loose.of_subset (h : Loose kept t n s)
    (sub : ∀ p ∈ kept, t'.children p ⊆ t.children p) : Loose kept t' n s := by
  intro live
  obtain ⟨alive, free, within⟩ := h live
  exact ⟨alive, free, within.imp fun j inner => inner.of_subset sub⟩

theorem confined_renderLoose (h : List.Forall₂ (Loose kept t) ns ss) :
    Confined kept t (Kind.renderEach (i.kindsOf ns) ss) fun r =>
      r.2.map NodeState.slot = ss.map NodeState.slot ∧ List.Forall₂ (Loose kept t) ns r.2 := by
  refine confined_renderEach (fun n _ s loose => ?_) h
  cases live : n.isLive with
  | true =>
    obtain ⟨alive, free, within⟩ := loose live
    apply (node_works i n kept t s live free within).render.imp
    rintro r ⟨slot, within', stays⟩
    exact ⟨slot, fun _ => ⟨stays alive, slot ▸ free, within'⟩⟩
  | false =>
    rw [kindOf_of_not_live live]
    exact .pure ⟨rfl, loose⟩

/-- When components are destroyed one after another, each takes its slot out of its parent. -/
theorem pruned_destroyEach (w : World Session) (linked : w.slots.Linked)
    (bound : ∀ p ∈ kept, p < w.slots.size) (h : List.Forall₂ (Loose kept w.slots) ns ss) :
    w.slots.Pruned kept (liveSlots ns (ss.map NodeState.slot))
      ((Kind.destroyEach (i.kindsOf ns) ss).run w).2.slots := by
  induction ns generalizing ss w with
  | nil =>
    cases h
    exact .refl linked
  | cons n ns ih =>
    cases h with
    | @cons _ s _ ss first rest =>
      rw [Interpreter.kindsOf, Kind.destroyEach, Act.run_bind]
      cases live : n.isLive with
      | false =>
        have gone : liveSlots (n :: ns) ((s :: ss).map NodeState.slot) =
            liveSlots ns (ss.map NodeState.slot) := by simp [liveSlots, live]
        rw [kindOf_of_not_live live, gone]
        exact ih w linked bound rest
      | true =>
        have gone : liveSlots (n :: ns) ((s :: ss).map NodeState.slot) =
            [s.slot] ++ liveSlots ns (ss.map NodeState.slot) := by simp [liveSlots, live]
        obtain ⟨alive, free, within⟩ := first live
        let w₁ : World Session := { w with slots := w.slots.delete s.slot }
        have fewer : ∀ p ∈ kept, w₁.slots.children p ⊆ w.slots.children p := by
          intro p _
          rw [linked.children_delete]
          exact List.filter_subset_self _
        have bound₁ : ∀ p ∈ kept, p < w₁.slots.size := by
          rw [SlotTree.size_delete]
          exact bound
        -- What comes after the slot left its parent is confined to slots inside this tree.
        have works := node_works i n kept w₁.slots s live free
          (within.imp fun j inner => inner.of_subset fewer)
        obtain ⟨after, eq, confined⟩ := works.leaves alive
        have k := (confined w₁ (.refl (linked.delete s.slot) bound₁)).1
        have here := SlotTree.Pruned.delete linked free k
        have run : ((i.kindOf n).destroy s).run w = after.run w₁ := by
          rw [eq]
          rfl
        rw [run, gone]
        apply here.trans
        apply ih _ here.linked fun p mem => Nat.lt_of_lt_of_le (bound p mem) here.size_le
        exact rest.imp fun n s loose => loose.of_subset here.children_subset

theorem not_mem_of_mem_liveSlots (h : List.Forall₂ (Loose kept t) ns ss) :
    ∀ j ∈ liveSlots ns (ss.map NodeState.slot), j ∉ kept := by
  intro j mem
  obtain ⟨⟨n, _⟩, among, rfl⟩ := List.mem_map.mp mem
  obtain ⟨among, live⟩ := List.mem_filter.mp among
  rw [List.zip_map_right] at among
  obtain ⟨⟨_, s⟩, together, eq⟩ := List.mem_map.mp among
  obtain ⟨rfl, rfl⟩ := Prod.mk.inj eq
  exact ((List.forall₂_iff_zip.mp h).2 together live).2.1

theorem filter_liveSlots {slots : List SlotId} (length : slots.length ≤ ns.length)
    (apart : ∀ j ∈ stillSlots ns slots, j ∉ liveSlots ns slots) :
    slots.filter (· ∉ liveSlots ns slots) = stillSlots ns slots := by
  have all : (ns.zip slots).map Prod.snd = slots := List.map_snd_zip length
  have each : ∀ x ∈ ns.zip slots, decide (x.2 ∉ liveSlots ns slots) = !x.1.isLive := by
    intro x mem
    cases live : x.1.isLive with
    | true =>
      have listed : x.2 ∈ liveSlots ns slots :=
        List.mem_map_of_mem (List.mem_filter.mpr ⟨mem, live⟩)
      simpa using listed
    | false =>
      have listed : x.2 ∈ stillSlots ns slots :=
        List.mem_map_of_mem (List.mem_filter.mpr ⟨mem, by rw [live]; rfl⟩)
      simpa using apart x.2 listed
  calc slots.filter (· ∉ liveSlots ns slots)
      = ((ns.zip slots).map Prod.snd).filter (· ∉ liveSlots ns slots) := by rw [all]
    _ = ((ns.zip slots).filter fun x => decide (x.2 ∉ liveSlots ns slots)).map Prod.snd := by
        rw [List.filter_map]
        rfl
    _ = stillSlots ns slots := by
        rw [List.filter_congr each]
        rfl

namespace Instance

inductive Call where
  | command (command : Command)
  | destroy

def call (t : Instance) : Call → Instance
  | .command command => t.after command
  | .destroy => t.destroy

def callAll (t : Instance) : List Call → Instance
  | [] => t
  | c :: cs => (t.call c).callAll cs

/-- A template that is not destroyed. The nodes without a component stand in these shapes, and the
components of the others are loose beside them. -/
structure Rooted (i : Interpreter) (nodes : List TemplateNode) (ls : List Shape) (base : Base)
    (states : List NodeState) (t : Instance) : Prop where
  interpreter : t.interpreter = i
  forest : t.nodes = nodes
  root : t.root = .group base states
  alive : base.isDestroyed = false
  linked : t.world.slots.Linked
  row : t.world.slots.slot? base.slot = some ⟨.container, none, states.map NodeState.slot⟩
  stand : Shape.StandAll t.world.slots base.slot ls
  nodup : (base.slot :: Shape.idsAll ls).Nodup
  html : Shape.htmlAll ls = TemplateNode.markupAll (nodes.filter fun n => !n.isLive)
  still : stillSlots nodes (states.map NodeState.slot) = ls.map Shape.slot
  loose : List.Forall₂ (Loose (base.slot :: Shape.idsAll ls) t.world.slots) nodes states

variable {ls : List Shape} {base : Base} {states : List NodeState} {t : Instance}

theorem rooted_create (i : Interpreter) (nodes : List TemplateNode) (model : Value) :
    ∃ ls base states, Rooted i nodes ls base states (create i nodes model) := by
  let cells := (Cells.empty.create model).2
  let w : World Session := ⟨(SlotTree.empty.create .container).2, ⟨cells, []⟩⟩
  let env := Environment.empty.bind thisName 0
  have made := Grown.create .empty .container
  obtain ⟨ls, planted⟩ := planted_buildAll (fun n _ => plants i n) w env made.lt
  let r := (i.buildAll 0 env nodes).run w
  have planted : Planted w.slots r.2.slots 0 nodes r.1 ls := planted
  obtain ⟨grown, row⟩ := Grown.planted planted
  have row : r.2.slots.slot? 0 = some ⟨.container, none, r.1.map NodeState.slot⟩ := row
  have above : ∀ j, w.slots.size ≤ j → 0 < j := fun j le => Nat.lt_of_lt_of_le made.lt le
  have top : 0 ∉ Shape.idsAll ls := fun mem => Nat.lt_irrefl 0 (above 0 (planted.fresh 0 mem))
  refine ⟨ls, ⟨0, .fresh⟩, r.1, rfl, rfl, rfl, rfl, grown.linked .empty, row, planted.stand,
    List.nodup_cons.mpr ⟨top, planted.nodup⟩, planted.html, planted.still, ?_⟩
  -- The slots below a component are in no shape, and the shapes and the top slot list no such slot.
  refine planted.made.imp fun n s ready live => ?_
  obtain ⟨alive, ⟨new, out⟩, within⟩ := ready live
  refine ⟨alive, List.not_mem_cons_of_ne_of_not_mem (Nat.ne_of_gt (above _ new)) out, within.imp ?_⟩
  rintro j ⟨new, -, out, below⟩
  have free := List.not_mem_cons_of_ne_of_not_mem (Nat.ne_of_gt (above j new)) out
  refine ⟨free, fun p mem listed => ?_⟩
  rcases List.mem_cons.mp mem with rfl | mem
  · have children : r.2.slots.children 0 = r.1.map NodeState.slot := by
      show ((r.2.slots.slot? 0).map Slot.children).getD [] = _
      rw [row]
      rfl
    exact below (children ▸ listed)
  · exact out (Shape.childrenAll_subset ls planted.stand p mem listed)

namespace Rooted

theorem setModel (h : Rooted i nodes ls base states t) (model : Value) :
    Rooted i nodes ls base states (t.setModel model) :=
  ⟨h.interpreter, h.forest, h.root, h.alive, h.linked, h.row, h.stand, h.nodup, h.html, h.still,
    h.loose⟩

theorem bound (h : Rooted i nodes ls base states t) :
    ∀ p ∈ base.slot :: Shape.idsAll ls, p < t.world.slots.size :=
  List.forall_mem_cons.mpr
    ⟨SlotTree.lt_size_of_slot? h.row, Shape.lt_size_of_standAll ls h.stand⟩

/-- Whatever a render comes to, the shapes are left alone. -/
theorem render (h : Rooted i nodes ls base states t) :
    ∃ base' states', Rooted i nodes ls base' states' t.render.2 := by
  let kept := base.slot :: Shape.idsAll ls
  let pass := Kind.renderEach (i.kindsOf nodes) states
  let Fits (children : List NodeState) : Prop :=
    children.map NodeState.slot = states.map NodeState.slot ∧
      List.Forall₂ (Loose kept t.world.slots) nodes children
  have before : Fits states := ⟨rfl, h.loose⟩
  obtain ⟨k, slot, alive, slots, loose⟩ := Group.confined_render (g := ⟨base, states⟩) before
    (confined_renderLoose h.loose) t.world (.refl h.linked h.bound)
  let r := (Group.render ⟨base, states⟩ pass).run t.world
  have eq : t.render = (r.1.1, { t with root := .ofGroup r.1.2, world := r.2 }) := by
    rw [Instance.render, h.interpreter, h.forest, h.root]
    rfl
  rw [eq]
  refine ⟨r.1.2.base, r.1.2.children, h.interpreter, h.forest, rfl, alive h.alive, k.linked, ?_, ?_,
    ?_, h.html, ?_, ?_⟩
  · rw [slot, slots, ← h.row]
    exact k.same base.slot List.mem_cons_self
  · rw [slot]
    exact h.stand.congr ls fun j mem => k.same j (List.mem_cons_of_mem _ mem)
  · rw [slot]
    exact h.nodup
  · rw [slots]
    exact h.still
  · rw [slot]
    refine loose.imp fun n s loose => loose.of_subset fun p mem => ?_
    rw [k.children mem]
    exact List.Subset.refl _

theorem run (h : Rooted i nodes ls base states t) (commands : List Command) :
    ∃ base' states', Rooted i nodes ls base' states' (t.run commands) := by
  induction commands generalizing t base states with
  | nil => exact ⟨base, states, h⟩
  | cons command commands ih =>
    cases command with
    | setModel model => exact ih (h.setModel model)
    | render =>
      obtain ⟨_, _, h⟩ := h.render
      exact ih h

end Rooted

/-- A destroyed template, with this shape in its slots. -/
structure Ended (l : Shape) (t : Instance) : Prop where
  root : ∃ base states, t.root = .group base states ∧ base.isDestroyed = true ∧ base.slot = l.slot
  stands : l.Stands t.world.slots none
  nodup : l.ids.Nodup

theorem Rooted.run_destroy (h : Rooted i nodes ls base states t) :
    let r := (Kind.destroyEach (i.kindsOf nodes) states).run t.world
    t.destroy = ⟨i, nodes, .group { base with stage := .destroyed } r.1, t.this, r.2⟩ := by
  intro r
  let pass := Kind.destroyEach (i.kindsOf nodes) states
  have alone : t.world.slots.delete base.slot = t.world.slots :=
    SlotTree.delete_of_parent_none (by rw [SlotTree.parent?, h.row]; rfl)
  have group : (Group.destroy ⟨base, states⟩ pass).run t.world =
      (⟨{ base with stage := .destroyed }, r.1⟩, r.2) := by
    rw [Group.destroy_of_alive h.alive, Act.run_bind, Act.run_delete, alone]
    rfl
  have run : ((i.fragmentKind nodes).destroy (.group base states)).run t.world =
      (.group { base with stage := .destroyed } r.1, r.2) :=
    congrArg (Prod.map NodeState.ofGroup id) group
  rw [Instance.destroy, h.interpreter, h.forest, h.root, run]

/-- The components leave, and the shapes stay. -/
theorem Rooted.destroy (h : Rooted i nodes ls base states t) :
    Ended (.node base.slot .container ls) t.destroy := by
  let slots := states.map NodeState.slot
  have pruned := pruned_destroyEach (i := i) t.world h.linked h.bound h.loose
  have stays : ∀ j ∈ Shape.idsAll ls, j ∉ liveSlots nodes slots :=
    fun j mem gone => not_mem_of_mem_liveSlots h.loose j gone (List.mem_cons_of_mem _ mem)
  have length : slots.length ≤ nodes.length := by
    rw [List.length_map]
    exact Nat.le_of_eq h.loose.length_eq.symm
  have apart : ∀ j ∈ stillSlots nodes slots, j ∉ liveSlots nodes slots := by
    rw [h.still]
    exact fun j mem => stays j (Shape.map_slot_subset ls mem)
  rw [h.run_destroy]
  refine ⟨⟨_, _, rfl, rfl, rfl⟩, ⟨?_, ?_⟩, h.nodup⟩
  · rw [pruned.row base.slot List.mem_cons_self, h.row, ← h.still, ← filter_liveSlots length apart]
    rfl
  · refine h.stand.congr ls fun j mem => ?_
    rw [pruned.row j (List.mem_cons_of_mem _ mem)]
    cases found : t.world.slots.slot? j with
    | none => rfl
    | some s =>
      have kept : s.children.filter (· ∉ liveSlots nodes slots) = s.children := by
        rw [List.filter_eq_self]
        intro c listed
        have listed : c ∈ t.world.slots.children j := by
          rw [SlotTree.children, found]
          exact listed
        simpa using stays c (Shape.childrenAll_subset ls h.stand j mem listed)
      exact congrArg (fun cs => some { s with children := cs }) kept

namespace Ended

variable {l : Shape}

theorem html (h : Ended l t) : t.html = String.ofList l.html := by
  obtain ⟨base, states, root, -, slot⟩ := h.root
  have top : t.root.slot = l.slot := by
    rw [root]
    exact slot
  rw [Instance.html, top]
  exact Shape.html_of_stands h.stands h.nodup

theorem render_eq (h : Ended l t) : t.render = (.error .destroyed, t) := by
  obtain ⟨base, states, root, gone, -⟩ := h.root
  have run : ((t.interpreter.fragmentKind t.nodes).render (.group base states)).run t.world =
      ((.error .destroyed, .group base states), t.world) := by
    show (Group.render ⟨base, states⟩ _ >>= _).run t.world = _
    rw [Group.render_of_destroyed gone]
    rfl
  rw [Instance.render, root, run, ← root]

theorem destroy_eq (h : Ended l t) : t.destroy = t := by
  obtain ⟨base, states, root, gone, -⟩ := h.root
  have run : ((t.interpreter.fragmentKind t.nodes).destroy (.group base states)).run t.world =
      (.group base states, t.world) := by
    show (Group.destroy ⟨base, states⟩ _ >>= _).run t.world = _
    rw [Group.destroy_of_destroyed gone]
    rfl
  rw [Instance.destroy, root, run, ← root]

theorem call (h : Ended l t) (c : Call) : Ended l (t.call c) := by
  cases c with
  | destroy =>
    rw [Instance.call, h.destroy_eq]
    exact h
  | command command =>
    cases command with
    | setModel model => exact ⟨h.root, h.stands, h.nodup⟩
    | render =>
      rw [Instance.call, Instance.after, h.render_eq]
      exact h

theorem callAll (h : Ended l t) (calls : List Call) : Ended l (t.callAll calls) := by
  induction calls generalizing t with
  | nil => exact h
  | cons c cs ih => exact ih (h.call c)

end Ended

/-- Whatever a template showed, once it is destroyed its markup is that of the nodes in which no
directive is used, in their order. No call changes that, and every render is refused. -/
theorem html_after_destroy (i : Interpreter) (nodes : List TemplateNode) (model : Value)
    (commands : List Command) (calls : List Call) :
    let t := ((create i nodes model).run commands).destroy.callAll calls
    t.html = String.ofList (TemplateNode.markupAll (nodes.filter fun n => n.uses.isEmpty)) ∧
      t.render = (.error .destroyed, t) := by
  intro t
  obtain ⟨ls, _, _, created⟩ := rooted_create i nodes model
  obtain ⟨base, states, rooted⟩ := created.run commands
  have ended : Ended (.node base.slot .container ls) t := rooted.destroy.callAll calls
  have static : (fun n : TemplateNode => !n.isLive) = fun n => n.uses.isEmpty := by
    funext n
    rw [TemplateNode.isLive_eq, Bool.not_not]
  refine ⟨?_, ended.render_eq⟩
  rw [ended.html, Shape.html, rooted.html, static]

example :
    let i : Interpreter := ⟨fun _ _ => .string "x", standardKinds⟩
    let output : TemplateNode :=
      .directive ⟨ClassTable.textClass, "text", [], [⟨"set_value", .invalid⟩], [], none⟩ []
    let t := (create i [output, .text "a", .element "p" .empty [output]] .null).run [.render]
    t.html = "xa<p>x</p>" ∧ t.destroy.html = "a" := by decide +kernel

end Instance

end DirectiveTemplates.Live
