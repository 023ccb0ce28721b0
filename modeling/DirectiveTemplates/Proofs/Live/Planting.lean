import DirectiveTemplates.Proofs.Live.Bodies
import DirectiveTemplates.Proofs.Live.Links
import DirectiveTemplates.Proofs.Live.Placements
import DirectiveTemplates.Proofs.Live.Shape

/-!
Forests as they are put into a slot, whatever the directives and the evaluation are. Nodes without
a directive stand there as plain markup, and nothing else knows their slots; the others have new
slots in which their components work.
-/
namespace DirectiveTemplates

namespace TemplateNode

mutual

/-- What a node is written as where nothing comes of its directives. -/
def markup : TemplateNode → List Char
  | .text value => value.toList
  | .element tag attributes children => Live.writeElement tag attributes (markupAll children)
  | .directive _ _ => []

def markupAll : List TemplateNode → List Char
  | [] => []
  | n :: ns => n.markup ++ markupAll ns

end

theorem markupAll_append (ns rest : List TemplateNode) :
    markupAll (ns ++ rest) = markupAll ns ++ markupAll rest := by
  induction ns with
  | nil => rfl
  | cons n ns ih => rw [List.cons_append, markupAll, markupAll, ih, List.append_assoc]

theorem anyLive_eq_of {ns : List TemplateNode} (each : ∀ n ∈ ns, n.isLive = !n.uses.isEmpty) :
    anyLive ns = !(usesAll ns).isEmpty := by
  induction ns with
  | nil => rfl
  | cons n ns ih =>
    obtain ⟨first, others⟩ := List.forall_mem_cons.mp each
    rw [anyLive, usesAll, first, ih others]
    cases n.uses <;> rfl

/-- A node has a component when a directive is used in it, at whatever depth. -/
theorem isLive_eq (n : TemplateNode) : n.isLive = !n.uses.isEmpty := by
  induction n using induction with
  | text value => rfl
  | element tag attributes children ih => exact anyLive_eq_of ih
  | directive u content ih => rfl

theorem anyLive_eq_false {ns : List TemplateNode} :
    anyLive ns = false ↔ ∀ n ∈ ns, n.isLive = false := by
  induction ns with
  | nil => simp [anyLive]
  | cons n ns ih => rw [anyLive, Bool.or_eq_false_iff, ih, List.forall_mem_cons]

end TemplateNode

namespace Live

namespace Shape

theorem htmlAll_append (ls rest : List Shape) :
    htmlAll (ls ++ rest) = htmlAll ls ++ htmlAll rest := by
  induction ls with
  | nil => rfl
  | cons l ls ih => rw [List.cons_append, htmlAll, htmlAll, ih, List.append_assoc]

theorem standAll_append {t : SlotTree} {p : SlotId} {ls rest : List Shape} :
    StandAll t p (ls ++ rest) ↔ StandAll t p ls ∧ StandAll t p rest := by
  induction ls with
  | nil => simp [StandAll]
  | cons l ls ih => rw [List.cons_append, StandAll, StandAll, ih, and_assoc]

end Shape

def NodeState.texts : NodeState → List SlotId
  | .output _ c => [c.text]
  | _ => []

mutual

/-- The slots below a node's own are like this, as far as components know them. -/
def SlotsBelow (Z : SlotId → Prop) : TemplateNode → NodeState → Prop
  | .text _, _ => True
  | .element _ _ children, s => SlotsBelowAll Z children s.members
  | .directive _ content, s => (∀ i ∈ s.texts, Z i) ∧
      ∀ fragment ∈ s.fragments, Z fragment.slot ∧ SlotsBelowAll Z content fragment.members

def SlotsBelowAll (Z : SlotId → Prop) : List TemplateNode → List NodeState → Prop
  | [], ss => ss = []
  | n :: ns, ss => ∃ s ss', ss = s :: ss' ∧
      (n.isLive = true → Z s.slot ∧ SlotsBelow Z n s) ∧ SlotsBelowAll Z ns ss'

end

namespace NodeState

def IsAliveGroup : NodeState → Prop
  | .group base _ => base.isDestroyed = false
  | _ => False

def IsAliveDirective : NodeState → Prop
  | .unresolved base => base.isDestroyed = false
  | .forEach _ c => c.base.isDestroyed = false
  | .conditional _ c => c.base.isDestroyed = false
  | .output _ c => c.base.isDestroyed = false
  | .trigger _ base => base.isDestroyed = false
  | .definition _ base _ => base.isDestroyed = false
  | .text _ | .group _ _ => False

end NodeState

/-- The component of a node is one that such nodes have, and it is not destroyed. -/
def Alive : TemplateNode → NodeState → Prop
  | .text _, _ => False
  | .element _ _ _, s => s.IsAliveGroup
  | .directive _ _, s => s.IsAliveDirective

def SlotsFrom (Z : SlotId → Prop) (n : TemplateNode) (s : NodeState) : Prop :=
  n.isLive = true → Z s.slot ∧ SlotsBelow Z n s

theorem slotsBelowAll_iff {Z : SlotId → Prop} {ns : List TemplateNode} {ss : List NodeState} :
    SlotsBelowAll Z ns ss ↔ List.Forall₂ (SlotsFrom Z) ns ss := by
  induction ns generalizing ss with
  | nil =>
    rw [SlotsBelowAll, List.forall₂_nil_left_iff]
  | cons n ns ih =>
    rw [SlotsBelowAll, List.forall₂_cons_left_iff]
    constructor
    · rintro ⟨s, ss', rfl, first, rest⟩
      exact ⟨s, ss', first, ih.mp rest, rfl⟩
    · rintro ⟨s, ss', first, rest, rfl⟩
      exact ⟨s, ss', rfl, first, ih.mpr rest⟩

theorem SlotsBelowAll.imp_of {Z Z' : SlotId → Prop} {ns : List TemplateNode} {ss : List NodeState}
    (imp : ∀ i, Z i → Z' i)
    (each : ∀ n ∈ ns, ∀ s, SlotsBelow Z n s → SlotsBelow Z' n s) (h : SlotsBelowAll Z ns ss) :
    SlotsBelowAll Z' ns ss := by
  induction ns generalizing ss with
  | nil => exact h
  | cons n ns ih =>
    obtain ⟨s, ss', rfl, first, rest⟩ := h
    obtain ⟨here, others⟩ := List.forall_mem_cons.mp each
    refine ⟨s, ss', rfl, fun live => ?_, ih others rest⟩
    exact ⟨imp _ (first live).1, here s (first live).2⟩

theorem SlotsBelow.imp {Z Z' : SlotId → Prop} (imp : ∀ i, Z i → Z' i) {n : TemplateNode}
    {s : NodeState} (h : SlotsBelow Z n s) : SlotsBelow Z' n s := by
  induction n using TemplateNode.induction generalizing s with
  | text value => trivial
  | element tag attributes children ih =>
    exact SlotsBelowAll.imp_of imp (fun n mem s h => ih n mem h) h
  | directive u content ih =>
    refine ⟨fun i mem => imp i (h.1 i mem), fun fragment mem => ?_⟩
    obtain ⟨slot, within⟩ := h.2 fragment mem
    exact ⟨imp _ slot, SlotsBelowAll.imp_of imp (fun n mem s h => ih n mem h) within⟩

theorem SlotsBelowAll.imp {Z Z' : SlotId → Prop} (imp : ∀ i, Z i → Z' i) {ns : List TemplateNode}
    {ss : List NodeState} (h : SlotsBelowAll Z ns ss) : SlotsBelowAll Z' ns ss :=
  h.imp_of imp fun _ _ _ => SlotsBelow.imp imp

def liveSlots (ns : List TemplateNode) (slots : List SlotId) : List SlotId :=
  ((ns.zip slots).filter fun x => x.1.isLive).map Prod.snd

def stillSlots (ns : List TemplateNode) (slots : List SlotId) : List SlotId :=
  ((ns.zip slots).filter fun x => !x.1.isLive).map Prod.snd

/-- Nodes that were put into the slot `p`, those without a component in these shapes. -/
structure Planted (t t' : SlotTree) (p : SlotId) (ns : List TemplateNode) (ss : List NodeState)
    (ls : List Shape) : Prop where
  size_le : t.size ≤ t'.size
  same : ∀ i < t.size, i ≠ p → t'.slot? i = t.slot? i
  row : t'.slot? p = (t.slot? p).map fun s =>
    { s with children := s.children ++ ss.map NodeState.slot }
  linked : t.Linked → t'.Linked
  slots : ∀ s ∈ ss, t.size ≤ s.slot ∧ s.slot < t'.size
  stand : Shape.StandAll t' p ls
  fresh : ∀ i ∈ Shape.idsAll ls, t.size ≤ i
  nodup : (Shape.idsAll ls).Nodup
  html : Shape.htmlAll ls = TemplateNode.markupAll (ns.filter fun n => !n.isLive)
  still : stillSlots ns (ss.map NodeState.slot) = ls.map Shape.slot
  made : List.Forall₂ (fun n s => n.isLive = true → Alive n s ∧
    (t.size ≤ s.slot ∧ s.slot ∉ Shape.idsAll ls) ∧
    SlotsBelow (fun i => t.size ≤ i ∧ i < t'.size ∧ i ∉ Shape.idsAll ls ∧ i ∉ ss.map NodeState.slot)
      n s) ns ss

namespace Planted

variable {t t' t'' : SlotTree} {p : SlotId} {n : TemplateNode} {ns : List TemplateNode}
  {s : NodeState} {ss : List NodeState} {ls ls' : List Shape}

theorem nil (t : SlotTree) (p : SlotId) : Planted t t p [] [] [] where
  size_le := Nat.le_refl _
  same _ _ _ := rfl
  row := by simp
  linked := id
  slots _ mem := absurd mem List.not_mem_nil
  stand := trivial
  fresh _ mem := absurd mem List.not_mem_nil
  nodup := .nil
  html := rfl
  still := rfl
  made := .nil

theorem lt_size (h : Planted t t' p ns ss ls) : ∀ i ∈ Shape.idsAll ls, i < t'.size :=
  Shape.lt_size_of_standAll ls h.stand

theorem cons {s₀ : NodeState} (first : Planted t t' p [n] [s₀] ls)
    (rest : Planted t' t'' p ns ss ls') (lt : p < t.size) :
    Planted t t'' p (n :: ns) (s₀ :: ss) (ls ++ ls') := by
  have le := first.size_le
  have le' := rest.size_le
  obtain ⟨low, high⟩ := first.slots s₀ List.mem_cons_self
  -- What the first node takes is below the old end of the tree, what the others take is not.
  have early : ∀ i, t'.size ≤ i → i ∉ Shape.idsAll ls :=
    fun i new mem => Nat.not_lt.mpr new (first.lt_size i mem)
  have late : ∀ i < t'.size, i ∉ Shape.idsAll ls' :=
    fun i old mem => Nat.not_lt.mpr (rest.fresh i mem) old
  have lateSlots : ∀ i < t'.size, i ∉ ss.map NodeState.slot := by
    intro i old mem
    obtain ⟨s, among, rfl⟩ := List.mem_map.mp mem
    exact Nat.not_lt.mpr (rest.slots s among).1 old
  refine ⟨Nat.le_trans le le', ?_, ?_, fun linked => rest.linked (first.linked linked), ?_, ?_, ?_,
    ?_, ?_, ?_, ?_⟩
  · intro i lt' ne
    rw [rest.same i (Nat.lt_of_lt_of_le lt' le) ne, first.same i lt' ne]
  · rw [rest.row, first.row, Option.map_map]
    congr 1
    funext s
    simp
  · refine List.forall_mem_cons.mpr ⟨⟨low, Nat.lt_of_lt_of_le high le'⟩, fun s mem => ?_⟩
    exact ⟨Nat.le_trans le (rest.slots s mem).1, (rest.slots s mem).2⟩
  · refine Shape.standAll_append.mpr ⟨first.stand.congr ls fun i mem => ?_, rest.stand⟩
    have ne : i ≠ p := Nat.ne_of_gt (Nat.lt_of_lt_of_le lt (first.fresh i mem))
    exact rest.same i (first.lt_size i mem) ne
  · rw [Shape.idsAll_append]
    exact List.forall_mem_append.mpr
      ⟨first.fresh, fun i mem => Nat.le_trans le (rest.fresh i mem)⟩
  · rw [Shape.idsAll_append]
    refine List.nodup_append.mpr ⟨first.nodup, rest.nodup, ?_⟩
    rintro i mem _ mem' rfl
    exact late i (first.lt_size i mem) mem'
  · rw [Shape.htmlAll_append, first.html, rest.html, ← TemplateNode.markupAll_append,
      ← List.filter_append]
    rfl
  · rw [List.map_append, ← first.still, ← rest.still, stillSlots, stillSlots, stillSlots,
      ← List.map_append, ← List.filter_append]
    rfl
  · rw [Shape.idsAll_append]
    refine .cons (fun live => ?_) (rest.made.imp fun n s made live => ?_)
    · cases first.made with
      | cons made _ =>
        obtain ⟨alive, ⟨new, out⟩, within⟩ := made live
        refine ⟨alive, ⟨new, List.not_mem_append out (late _ high)⟩, within.imp ?_⟩
        rintro i ⟨new, old, out, top⟩
        exact ⟨new, Nat.lt_of_lt_of_le old le', List.not_mem_append out (late i old),
          List.not_mem_append top (lateSlots i old)⟩
    · obtain ⟨alive, ⟨new, out⟩, within⟩ := made live
      refine ⟨alive, ⟨Nat.le_trans le new, List.not_mem_append (early _ new) out⟩, within.imp ?_⟩
      rintro i ⟨new, old, out, top⟩
      have other : i ≠ s₀.slot := Nat.ne_of_gt (Nat.lt_of_lt_of_le high new)
      exact ⟨Nat.le_trans le new, old, List.not_mem_append (early i new) out,
        List.not_mem_cons_of_ne_of_not_mem other top⟩

end Planted

/-- A new slot was made, and others that are all below it. -/
structure Grown (t t' : SlotTree) : Prop where
  lt : t.size < t'.size
  same : ∀ i < t.size, t'.slot? i = t.slot? i
  linked : t.Linked → t'.Linked
  parent : t'.parent? t.size = none

namespace Grown

variable {t t' : SlotTree} {p : SlotId} {n : TemplateNode} {s : NodeState} {l : Shape}

theorem create (t : SlotTree) (content : SlotContent) : Grown t (t.create content).2 where
  lt := by
    rw [SlotTree.size_create]
    exact Nat.lt_succ_self _
  same i lt := by rw [SlotTree.slot?_create, if_neg (Nat.ne_of_lt lt)]
  linked h := h.perform (.create content)
  parent := by
    rw [SlotTree.parent?, SlotTree.slot?_create, if_pos rfl]
    rfl

theorem below (h : Grown t t') (content : SlotContent) :
    Grown t ((t'.create content).2.append t.size t'.size) := by
  have second := create t' content
  have ne : t.size ≠ t'.size := Nat.ne_of_lt h.lt
  have look := SlotTree.slot?_append ne (decide_eq_true (Nat.lt_trans h.lt second.lt))
    (decide_eq_true second.lt) second.parent
  refine ⟨?_, ?_, fun linked => (second.linked (h.linked linked)).append _ _, ?_⟩
  · rw [SlotTree.size_append]
    exact Nat.lt_trans h.lt second.lt
  · intro i lt
    have lt' : i < t'.size := Nat.lt_trans lt h.lt
    rw [look, if_neg (Nat.ne_of_lt lt'), if_neg (Nat.ne_of_lt lt), second.same i lt', h.same i lt]
  · rw [SlotTree.parent?, look, if_neg ne, if_pos rfl, second.same t.size h.lt]
    have parent := h.parent
    rw [SlotTree.parent?] at parent
    cases found : t'.slot? t.size with
    | none => rfl
    | some s =>
      rw [found] at parent
      exact parent

theorem planted {content : SlotContent} {ns : List TemplateNode} {ss : List NodeState}
    {ls : List Shape} (h : Planted (t.create content).2 t' t.size ns ss ls) :
    Grown t t' ∧ t'.slot? t.size = some ⟨content, none, ss.map NodeState.slot⟩ := by
  have made := create t content
  have row : t'.slot? t.size = some ⟨content, none, ss.map NodeState.slot⟩ := by
    rw [h.row, SlotTree.slot?_create, if_pos rfl]
    rfl
  have linked (before : t.Linked) : t'.Linked := h.linked (made.linked before)
  refine ⟨⟨Nat.lt_of_lt_of_le made.lt h.size_le, ?_, linked, ?_⟩, row⟩
  · intro i lt
    rw [h.same i (Nat.lt_trans lt made.lt) (Nat.ne_of_lt lt), made.same i lt]
  · rw [SlotTree.parent?, row]
    rfl

theorem slot?_append (h : Grown t t') (lt : p < t.size) (i : SlotId) :
    (t'.append p t.size).slot? i =
      if i = t.size then (t'.slot? i).map fun s => { s with parent := some p }
      else if i = p then
        (t'.slot? i).map fun s => { s with children := s.children ++ [t.size] }
      else t'.slot? i :=
  SlotTree.slot?_append (Nat.ne_of_lt lt) (decide_eq_true (Nat.lt_trans lt h.lt))
    (decide_eq_true h.lt) h.parent i

theorem plant (h : Grown t t') (lt : p < t.size) (slot : s.slot = t.size) {ls : List Shape}
    (stand : Shape.StandAll (t'.append p t.size) p ls) (fresh : ∀ i ∈ Shape.idsAll ls, t.size ≤ i)
    (nodup : (Shape.idsAll ls).Nodup)
    (html : Shape.htmlAll ls = TemplateNode.markupAll ([n].filter fun n => !n.isLive))
    (still : stillSlots [n] [s.slot] = ls.map Shape.slot)
    (made : n.isLive = true → Alive n s ∧ ls = [] ∧
      SlotsBelow (fun i => t.size < i ∧ i < t'.size) n s) :
    Planted t (t'.append p t.size) p [n] [s] ls where
  size_le := by
    rw [SlotTree.size_append]
    exact Nat.le_of_lt h.lt
  same i lt' ne := by
    rw [h.slot?_append lt, if_neg (Nat.ne_of_lt lt'), if_neg ne]
    exact h.same i lt'
  row := by
    rw [h.slot?_append lt, if_neg (Nat.ne_of_lt lt), if_pos rfl, h.same p lt, List.map_singleton,
      slot]
  linked linked := (h.linked linked).append p t.size
  slots := by
    rw [List.forall_mem_singleton, SlotTree.size_append, slot]
    exact ⟨Nat.le_refl _, h.lt⟩
  stand := stand
  fresh := fresh
  nodup := nodup
  html := html
  still := still
  made := by
    refine .cons (fun live => ?_) .nil
    obtain ⟨alive, rfl, within⟩ := made live
    refine ⟨alive, ⟨Nat.le_of_eq slot.symm, List.not_mem_nil⟩, within.imp ?_⟩
    rintro i ⟨above, below⟩
    rw [SlotTree.size_append, List.map_singleton, List.mem_singleton, slot]
    exact ⟨Nat.le_of_lt above, below, List.not_mem_nil, Nat.ne_of_gt above⟩

theorem plant_still (h : Grown t t') (lt : p < t.size) (slot : s.slot = t.size)
    (dead : n.isLive = false) (stands : l.Stands t' none) (top : l.slot = t.size)
    (nodup : l.ids.Nodup) (fresh : ∀ i ∈ l.ids, t.size ≤ i) (html : l.html = n.markup) :
    Planted t (t'.append p t.size) p [n] [s] [l] := by
  have outside : p ∉ l.ids := fun mem => Nat.not_lt.mpr (fresh p mem) lt
  have there : t'.contains p = true := decide_eq_true (Nat.lt_trans lt h.lt)
  have ids : Shape.idsAll [l] = l.ids := List.append_nil _
  apply h.plant lt slot
  · rw [← top]
    exact ⟨stands.append nodup outside there, trivial⟩
  · rw [ids]
    exact fresh
  · rw [ids]
    exact nodup
  · simp [Shape.htmlAll, TemplateNode.markupAll, dead, html]
  · simp [stillSlots, dead, slot, top]
  · intro live
    rw [dead] at live
    cases live

theorem plant_live (h : Grown t t') (lt : p < t.size) (slot : s.slot = t.size)
    (live : n.isLive = true) (alive : Alive n s)
    (within : SlotsBelow (fun i => t.size < i ∧ i < t'.size) n s) :
    Planted t (t'.append p t.size) p [n] [s] [] := by
  apply h.plant lt slot
  · trivial
  · exact fun i mem => absurd mem List.not_mem_nil
  · exact .nil
  · simp [Shape.htmlAll, TemplateNode.markupAll, live]
  · simp [stillSlots, live]
  · exact fun _ => ⟨alive, rfl, within⟩

end Grown

/-- Building a node plants it, whatever the slot around it is. -/
def Plants (i : Interpreter) (n : TemplateNode) : Prop :=
  ∀ (w : World Session) (p : SlotId) (env : Environment), p < w.slots.size →
    let r := (i.build p env n).run w
    ∃ ls, Planted w.slots r.2.slots p [n] [r.1] ls

theorem planted_buildAll {i : Interpreter} {ns : List TemplateNode} (each : ∀ n ∈ ns, Plants i n)
    (w : World Session) {p : SlotId} (env : Environment) (lt : p < w.slots.size) :
    let r := (i.buildAll p env ns).run w
    ∃ ls, Planted w.slots r.2.slots p ns r.1 ls := by
  induction ns generalizing w with
  | nil => exact ⟨[], .nil _ _⟩
  | cons n ns ih =>
    obtain ⟨here, others⟩ := List.forall_mem_cons.mp each
    obtain ⟨ls, first⟩ := here w p env lt
    have still := Nat.lt_of_lt_of_le lt first.size_le
    obtain ⟨ls', rest⟩ := ih others ((i.build p env n).run w).2 still
    exact ⟨ls ++ ls', first.cons rest lt⟩

/-- The nodes in an element without a component make up its shape. -/
theorem stillSlots_eq {ns : List TemplateNode} {slots : List SlotId}
    (dead : TemplateNode.anyLive ns = false) (length : slots.length ≤ ns.length) :
    stillSlots ns slots = slots := by
  have each := TemplateNode.anyLive_eq_false.mp dead
  have all : (ns.zip slots).filter (fun x => !x.1.isLive) = ns.zip slots := by
    rw [List.filter_eq_self]
    intro x mem
    rw [each x.1 (List.of_mem_zip mem).1]
    rfl
  rw [stillSlots, all, List.map_snd_zip length]

theorem filter_eq_of_dead {ns : List TemplateNode} (dead : TemplateNode.anyLive ns = false) :
    ns.filter (fun n => !n.isLive) = ns := by
  rw [List.filter_eq_self]
  intro n mem
  rw [TemplateNode.anyLive_eq_false.mp dead n mem]
  rfl

theorem Planted.map_slot {t t' : SlotTree} {p : SlotId} {ns : List TemplateNode}
    {ss : List NodeState} {ls : List Shape} (h : Planted t t' p ns ss ls)
    (dead : TemplateNode.anyLive ns = false) :
    ss.map NodeState.slot = ls.map Shape.slot ∧ Shape.htmlAll ls = TemplateNode.markupAll ns := by
  have length : (ss.map NodeState.slot).length ≤ ns.length := by
    rw [List.length_map]
    exact Nat.le_of_eq h.made.length_eq.symm
  rw [← h.still, stillSlots_eq dead length, h.html, filter_eq_of_dead dead]
  exact ⟨rfl, rfl⟩

theorem Planted.slotsBelowAll {t t' : SlotTree} {p : SlotId} {ns : List TemplateNode}
    {ss : List NodeState} {ls : List Shape} (h : Planted t t' p ns ss ls) :
    SlotsBelowAll (fun i => t.size ≤ i ∧ i < t'.size) ns ss := by
  rw [slotsBelowAll_iff, List.forall₂_iff_zip]
  obtain ⟨length, made⟩ := List.forall₂_iff_zip.mp h.made
  refine ⟨length, fun {n s} mem live => ?_⟩
  obtain ⟨-, -, within⟩ := made mem live
  exact ⟨h.slots s (List.of_mem_zip mem).2, within.imp fun i new => ⟨new.1, new.2.1⟩⟩

theorem grown_buildDirective (i : Interpreter) (u : DirectiveUse) (content : List TemplateNode)
    (env : Environment) (w : World Session) :
    let r := (i.buildDirective u env).run w
    Grown w.slots r.2.slots ∧ r.1.slot = w.slots.size ∧ Alive (.directive u content) r.1 ∧
      SlotsBelow (fun j => w.slots.size < j ∧ j < r.2.slots.size) (.directive u content) r.1 := by
  intro r
  have made := Grown.create w.slots .container
  -- A component without slots of its own beside the first one, and nothing to show yet.
  have bare {s : NodeState} (texts : s.texts = []) (fragments : s.fragments = [])
      (Z : SlotId → Prop) : SlotsBelow Z (.directive u content) s := by
    rw [SlotsBelow, texts, fragments]
    exact ⟨fun j mem => absurd mem List.not_mem_nil, fun f mem => absurd mem List.not_mem_nil⟩
  let w₁ : World Session := { w with slots := (w.slots.create .container).2 }
  obtain ⟨cells, enter, -⟩ := Frame.enter_eq u.binders ⟨env, []⟩ w₁
  have enter : (Frame.enter u.binders ⟨env, []⟩).run w₁ = _ := enter
  have run : r = (i.buildDirective u env).run w := rfl
  simp only [Interpreter.buildDirective, Act.run_bind, Act.run_newSlot] at run
  cases kind : i.kinds u.className with
  | none =>
    rw [kind] at run
    rw [run]
    exact ⟨made, rfl, rfl, bare rfl rfl _⟩
  | some kind' =>
    rw [kind] at run
    simp only [Act.run_bind] at run
    rw [enter] at run
    cases kind' with
    | forEach =>
      rw [run]
      exact ⟨made, rfl, rfl, bare rfl rfl _⟩
    | conditional =>
      rw [run]
      exact ⟨made, rfl, rfl, bare rfl rfl _⟩
    | text =>
      rw [run]
      let p := w.slots.size
      let text := w₁.slots.size
      have placed : text < ((w₁.slots.create (.text "")).2.append p text).size := by
        rw [SlotTree.size_append]
        exact (Grown.create w₁.slots (.text "")).lt
      refine ⟨made.below (.text ""), rfl, rfl, ?_, fun f mem => absurd mem List.not_mem_nil⟩
      exact List.forall_mem_singleton.mpr ⟨made.lt, placed⟩
    | trigger =>
      rw [run]
      exact ⟨made, rfl, rfl, bare rfl rfl _⟩
    | definition required =>
      rw [run]
      exact ⟨made, rfl, rfl, bare rfl rfl _⟩

theorem plants (i : Interpreter) (n : TemplateNode) : Plants i n := by
  induction n using TemplateNode.induction with
  | text value =>
    intro w p env lt
    have made := Grown.create w.slots (.markup value)
    have stands : (Shape.node w.slots.size (.markup value) []).Stands
        (w.slots.create (.markup value)).2 none := by
      refine ⟨?_, trivial⟩
      rw [SlotTree.slot?_create, if_pos rfl]
      rfl
    refine ⟨_, made.plant_still lt rfl rfl stands rfl ?_ ?_ rfl⟩
    · simp [Shape.ids, Shape.idsAll]
    · simp [Shape.ids, Shape.idsAll]
  | element tag attributes children ih =>
    intro w p env lt
    let content := SlotContent.element tag attributes
    obtain ⟨ls, inside⟩ := planted_buildAll ih { w with slots := (w.slots.create content).2 } env
      (Grown.create w.slots content).lt
    obtain ⟨grown, row⟩ := Grown.planted inside
    have above : ∀ j ∈ Shape.idsAll ls, w.slots.size < j :=
      fun j mem => Nat.lt_of_lt_of_le (Grown.create w.slots content).lt (inside.fresh j mem)
    -- Without a component inside, the element is a shape; with one, the group knows its slots.
    cases live : TemplateNode.anyLive children with
    | false =>
      obtain ⟨slots, html⟩ := inside.map_slot live
      have stands : (Shape.node w.slots.size content ls).Stands _ none :=
        ⟨slots ▸ row, inside.stand⟩
      refine ⟨_, grown.plant_still lt rfl live stands rfl ?_ ?_ ?_⟩
      · exact List.nodup_cons.mpr ⟨fun mem => Nat.lt_irrefl _ (above _ mem), inside.nodup⟩
      · exact List.forall_mem_cons.mpr ⟨Nat.le_refl _, fun j mem => Nat.le_of_lt (above j mem)⟩
      · rw [Shape.html, html]
        rfl
    | true =>
      refine ⟨_, grown.plant_live lt rfl live rfl ?_⟩
      apply inside.slotsBelowAll.imp
      rintro j ⟨new, old⟩
      exact ⟨Nat.lt_of_lt_of_le (Grown.create w.slots content).lt new, old⟩
  | directive u content ih =>
    intro w p env lt
    obtain ⟨grown, slot, alive, within⟩ := grown_buildDirective i u content env w
    have planted := grown.plant_live lt slot (n := .directive u content) rfl alive within
    refine ⟨[], ?_⟩
    rw [← slot] at planted
    exact planted

end Live

end DirectiveTemplates
