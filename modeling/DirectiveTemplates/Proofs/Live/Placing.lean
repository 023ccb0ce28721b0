import DirectiveTemplates.Proofs.Live.Growing

/-!
Rendering and destroying keep the instances of a running template placed. What a component shows
afterwards it showed before, or it was made in the meantime from the content of its directive.
-/
namespace DirectiveTemplates.Live

open Json

variable {nodes : List TemplateNode} {around : List Placement}

/-- Rendering and destroying a component of this kind keep what holds of its state. -/
structure Keeps (P : Nat → NodeState → Prop) (kind : Kind Session NodeState) : Prop where
  render : ∀ s, Grows (kind.render s) (P · s) fun n r => P n r.2
  destroy : ∀ s, Grows (kind.destroy s) (P · s) P

section Reconciling

variable {P : Nat → NodeState → Prop} {kind : Kind Session NodeState} {ready : Nat → Prop}
  {create : Act Session NodeState}

theorem forall_mono (mono : ∀ s, Monotone (P · s)) (ss : List NodeState) :
    Monotone fun n => ∀ s ∈ ss, P n s :=
  fun _ _ le all s mem => mono s le (all s mem)

theorem destroyAll_grows (mono : ∀ s, Monotone (P · s)) (keeps : Keeps P kind)
    (ss : List NodeState) :
    Grows (kind.destroyAll ss) (fun n => ∀ s ∈ ss, P n s) fun n ss' => ∀ s ∈ ss', P n s := by
  induction ss with
  | nil =>
    apply Grows.pure
    intro n _ s mem
    cases mem
  | cons s ss ih =>
    have first := (keeps.destroy s).beside (forall_mono mono ss)
    refine (first.mono (fun _ => List.forall_mem_cons.mp) fun _ _ h => h.symm).bind fun s' => ?_
    refine (ih.beside (mono s')).bind fun ss' => ?_
    exact Grows.pure fun n h => List.forall_mem_cons.mpr h.symm

/-- Whatever the items, the children afterwards are those from before and new ones. -/
theorem reconcile_grows (mono : ∀ s, Monotone (P · s)) (lasting : Monotone ready)
    (keeps : Keeps P kind) (made : Grows create ready P) (prepare : Nat → Value → Act Session Unit)
    (prepared : ∀ k item pre, Grows (prepare k item) pre fun n _ => pre n) (slot : SlotId)
    (k : Nat) (items : List Value) (ss : List NodeState) :
    Grows (ForEach.reconcile kind create prepare slot k items ss)
      (fun n => (∀ s ∈ ss, P n s) ∧ ready n) fun n r => ∀ s ∈ r.2, P n s := by
  induction items generalizing k ss with
  | nil =>
    unfold ForEach.reconcile
    refine ((destroyAll_grows mono keeps ss).weaken fun _ h => h.1).bind fun _ => ?_
    apply Grows.pure
    intro n _ s mem
    cases mem
  | cons item items ih =>
    have next (r : RenderResult × NodeState) (ss : List NodeState) :
        Grows (do
          let r' ← ForEach.reconcile kind create prepare slot (k + 1) items ss
          return (ForEach.firstError r.1 r'.1, r.2 :: r'.2))
        (fun n => ((∀ s ∈ ss, P n s) ∧ ready n) ∧ P n r.2) fun n r => ∀ s ∈ r.2, P n s := by
      refine ((ih (k + 1) ss).beside (mono r.2)).bind fun r' => ?_
      exact Grows.pure fun n h => List.forall_mem_cons.mpr h.symm
    cases ss with
    | nil =>
      unfold ForEach.reconcile
      refine (prepared k item _).bind fun _ => ?_
      refine ((made.beside lasting).weaken fun _ h => ⟨h.2, h.2⟩).bind fun s => ?_
      refine ((keeps.render s).beside lasting).bind fun r => ?_
      refine (Grows.append slot _).bind fun _ => ?_
      exact (next r []).weaken fun _ h => ⟨⟨by simp, h.2⟩, h.1⟩
    | cons s ss =>
      unfold ForEach.reconcile
      refine (prepared k item _).bind fun _ => ?_
      have others : Monotone fun n => (∀ s ∈ ss, P n s) ∧ ready n :=
        fun _ _ le h => ⟨forall_mono mono ss le h.1, lasting le h.2⟩
      have first := (keeps.render s).beside others
      refine (first.weaken fun n h => ?_).bind fun r => ?_
      · have both := List.forall_mem_cons.mp h.1
        exact ⟨both.1, both.2, h.2⟩
      · exact (next r ss).weaken fun _ h => ⟨h.2, h.1⟩

theorem appear_grows (keeps : Keeps P kind) (made : Grows create ready P)
    (c : Conditional NodeState) :
    Grows (c.appear kind create) (fun n => (∀ s ∈ c.child.toList, P n s) ∧ ready n)
      fun n r => ∀ s ∈ r.2.child.toList, P n s := by
  unfold Conditional.appear
  cases shown : c.child with
  | some child =>
    have first := (keeps.render child).weaken
      fun n (h : (∀ s ∈ [child], P n s) ∧ ready n) => h.1 child (by simp)
    refine first.bind ?_
    rintro ⟨result, child'⟩
    cases result with
    | ok _ => exact Grows.pure fun n h s mem => by simpa [List.mem_singleton.mp mem] using h
    | error e => exact Grows.pure fun n h s mem => by simpa [List.mem_singleton.mp mem] using h
  | none =>
    refine (made.weaken fun n h => h.2).bind fun child => ?_
    refine (keeps.render child).bind ?_
    rintro ⟨result, child'⟩
    cases result with
    | ok _ =>
      refine (Grows.append _ _).bind fun _ => ?_
      exact Grows.pure fun n h s mem => by simpa [List.mem_singleton.mp mem] using h
    | error e => exact Grows.pure fun n h s mem => by simp [shown] at mem

theorem dropChild_grows {α : Type} {Q : Nat → α → Prop} (keeps : Keeps P kind) (child : NodeState)
    {rest : NodeState → Act Session α} (next : ∀ s, Grows (rest s) (P · s) Q) :
    Grows (kind.destroy child >>= rest) (fun n => ∀ s ∈ (some child).toList, P n s) Q :=
  ((keeps.destroy child).weaken fun _ h => h child (by simp)).bind next

theorem vanish_grows (keeps : Keeps P kind) (c : Conditional NodeState) :
    Grows (c.vanish kind) (fun n => ∀ s ∈ c.child.toList, P n s)
      fun n r => ∀ s ∈ r.2.child.toList, P n s := by
  unfold Conditional.vanish
  cases c.child with
  | some child =>
    exact dropChild_grows keeps child fun _ => Grows.pure fun n _ s mem => by cases mem
  | none => exact Grows.pure fun n _ s mem => by cases mem

/-- The child of a condition is the one from before, or new. -/
theorem conditional_render_grows (keeps : Keeps P kind) (b : ConditionalBindings Session NodeState)
    (made : ∀ create, b.body = some create → Grows create ready P) (c : Conditional NodeState) :
    Grows (c.render kind b) (fun n => (∀ s ∈ c.child.toList, P n s) ∧ ready n)
      fun n r => ∀ s ∈ r.2.child.toList, P n s := by
  unfold Conditional.render
  split
  · exact Grows.pure fun _ h => h.1
  · split
    · exact Grows.pure fun _ h => h.1
    · exact Grows.pure fun _ h => h.1
    · rename_i condition create _ body
      refine (Grows.read condition).bind fun shown => ?_
      cases shown with
      | true => exact appear_grows keeps (made create body) c
      | false => exact (vanish_grows keeps c).weaken fun _ h => h.1

theorem forEach_render_grows (mono : ∀ s, Monotone (P · s)) (lasting : Monotone ready)
    (keeps : Keeps P kind) (i : Interpreter) (u : DirectiveUse) (content : List TemplateNode)
    (f : Frame) (made : ∀ create, i.content? u content f = some create → Grows create ready P)
    (c : ForEach Value NodeState) :
    Grows (c.render kind (i.forEachBindings u content f))
      (fun n => (∀ s ∈ c.children, P n s) ∧ ready n) fun n r => ∀ s ∈ r.2.children, P n s := by
  unfold ForEach.render
  split
  · exact Grows.pure fun _ h => h.1
  · split
    · exact Grows.pure fun _ h => h.1
    · exact Grows.pure fun _ h => h.1
    · exact Grows.pure fun _ h => h.1
    · rename_i collection setElement create _ element body
      have prepared : ∀ k item pre, Grows (ForEach.setVariables setElement
          (i.forEachBindings u content f).setIndex k item) pre fun n _ => pre n := by
        intro k item pre
        obtain ⟨cell, -, rfl⟩ := Option.map_eq_some_iff.mp element
        refine (Grows.setCell cell item).bind fun _ => ?_
        simp only [Interpreter.forEachBindings]
        cases f.own? "set_index_variable" with
        | none => exact Grows.pure fun _ h => h
        | some index => exact Grows.setCell index _
      refine (Grows.read collection).bind fun items => ?_
      refine (reconcile_grows mono lasting keeps (made create body) _ prepared _ 0 items
        c.children).bind fun r => ?_
      exact Grows.pure fun _ h => h

/-- The fragment of a definition is the one from before, or new. -/
theorem renderDefinition_grows (keeps : Keeps P kind) (i : Interpreter) (u : DirectiveUse)
    (content : List TemplateNode) (f : Frame)
    (made : ∀ create, i.content? u content f = some create → Grows create ready P)
    (required : Bool) (base : Base) (child : Option NodeState) :
    Grows (i.renderDefinition kind u content required f base child)
      (fun n => (∀ s ∈ child.toList, P n s) ∧ ready n) fun n r => ∀ s ∈ r.2.toList, P n s := by
  unfold Interpreter.renderDefinition
  split
  · exact Grows.pure fun _ h => h.1
  · refine (Grows.read _).bind fun value => ?_
    cases value with
    | none => exact Grows.pure fun _ h => h.1
    | some v =>
      unfold Interpreter.define
      have shown (c : NodeState) : Grows (do
          let r ← kind.render c
          return (r.1, some r.2)) (P · c)
          fun n (r : RenderResult × Option NodeState) => ∀ s ∈ r.2.toList, P n s := by
        refine (keeps.render c).bind fun r => ?_
        exact Grows.pure fun n h s mem => by simpa [List.mem_singleton.mp mem] using h
      refine (Grows.note _).bind fun _ => ?_
      -- The variable is set before the content is shown; that changes no number of cells.
      cases child with
      | some c =>
        have tail := (shown c).weaken
          fun n (h : (∀ s ∈ [c], P n s) ∧ ready n) => h.1 c (by simp)
        cases f.own? "set_variable" with
        | none => exact tail
        | some cell => exact (Grows.setCell cell v).bind fun _ => tail
      | none =>
        cases body : i.content? u content f with
        | none =>
          cases f.own? "set_variable" with
          | none => exact Grows.pure fun _ h => h.1
          | some cell => exact (Grows.setCell cell v).bind fun _ => Grows.pure fun _ h => h.1
        | some create =>
          have tail := ((made create body).weaken
            fun n (h : (∀ s ∈ [], P n s) ∧ ready n) => h.2).bind
            fun c => (Grows.append base.slot (kind.slot c)).bind fun _ => shown c
          cases f.own? "set_variable" with
          | none => exact tail
          | some cell => exact (Grows.setCell cell v).bind fun _ => tail

theorem forEach_destroy_grows (mono : ∀ s, Monotone (P · s)) (keeps : Keeps P kind)
    (c : ForEach Value NodeState) :
    Grows (c.destroy kind) (fun n => ∀ s ∈ c.children, P n s)
      fun n c' => ∀ s ∈ c'.children, P n s := by
  unfold ForEach.destroy
  split
  · exact Grows.pure fun _ h => h
  · refine (Grows.destroyBase c.base).bind fun base => ?_
    refine (destroyAll_grows mono keeps c.children).bind fun _ => ?_
    exact Grows.pure fun n _ s mem => by cases mem

theorem conditional_destroy_grows (keeps : Keeps P kind) (c : Conditional NodeState) :
    Grows (c.destroy kind) (fun n => ∀ s ∈ c.child.toList, P n s)
      fun n c' => ∀ s ∈ c'.child.toList, P n s := by
  unfold Conditional.destroy
  split
  · exact Grows.pure fun _ h => h
  · refine (Grows.destroyBase c.base).bind fun base => ?_
    cases c.child with
    | some child =>
      exact dropChild_grows keeps child fun _ => Grows.pure fun n _ s mem => by cases mem
    | none => exact Grows.pure fun n _ s mem => by cases mem

end Reconciling

section Directives

variable {kind : Kind Session NodeState} {u : DirectiveUse} {content : List TemplateNode}

def Settled (nodes : List TemplateNode) (around : List Placement) (content : List TemplateNode)
    (n : Nat) (fragment : NodeState) : Prop :=
  AllWithin nodes n (placementsAll around content fragment.members)

theorem settled_mono (s : NodeState) : Monotone (Settled nodes around content · s) :=
  allWithin_mono nodes _

theorem allWithin_directive {n : Nat} {s : NodeState} {f : Frame} (frame : s.frame? = some f) :
    AllWithin nodes n (placements around (.directive u content) s) ↔
      (∀ fragment ∈ s.fragments,
        Settled nodes (⟨u, content, f⟩ :: around) content n fragment) ∧
      Within nodes n (⟨u, content, f⟩ :: around) := by
  simp only [placements, frame, AllWithin, Settled, List.mem_cons, List.mem_flatMap]
  constructor
  · intro all
    refine ⟨fun fragment among chain mem => all chain (.inr ⟨fragment, among, mem⟩), ?_⟩
    exact all _ (.inl rfl)
  · rintro ⟨inner, here⟩ chain (rfl | ⟨fragment, among, mem⟩)
    · exact here
    · exact inner fragment among chain mem

/-- An action that settles the fragments of an instance keeps it placed. -/
theorem directive_grows {α : Type} {x : Act Session α} {f : Frame} (s : NodeState)
    (next : α → NodeState) (before : s.frame? = some f) (after : ∀ a, (next a).frame? = some f)
    (h : Grows x (fun n => (∀ fragment ∈ s.fragments,
        Settled nodes (⟨u, content, f⟩ :: around) content n fragment) ∧
          Within nodes n (⟨u, content, f⟩ :: around))
      fun n a => ∀ fragment ∈ (next a).fragments,
        Settled nodes (⟨u, content, f⟩ :: around) content n fragment) :
    Grows x (fun n => AllWithin nodes n (placements around (.directive u content) s))
      fun n a => AllWithin nodes n (placements around (.directive u content) (next a)) :=
  (h.keeping (within_mono nodes _)).mono (fun _ => (allWithin_directive before).mp)
    fun _ a => (allWithin_directive (after a)).mpr

theorem content?_grows (nodes : List TemplateNode) (around : List Placement) (i : Interpreter)
    (f : Frame) (create : Act Session NodeState) (body : i.content? u content f = some create) :
    Grows create (Within nodes · (⟨u, content, f⟩ :: around))
      (Settled nodes (⟨u, content, f⟩ :: around) content) := by
  obtain ⟨_, -, rfl⟩ := Option.map_eq_some_iff.mp body
  exact i.fragment_grows nodes (⟨u, content, f⟩ :: around)

theorem renderDirective_grows (i : Interpreter)
    (keeps : ∀ f, Keeps (Settled nodes (⟨u, content, f⟩ :: around) content) kind)
    (s : NodeState) :
    Grows (i.renderDirective kind u content s)
      (fun n => AllWithin nodes n (placements around (.directive u content) s))
      fun n r => AllWithin nodes n (placements around (.directive u content) r.2) := by
  cases s with
  | text slot => exact Grows.pure fun _ h => h
  | group base states => exact Grows.pure fun _ h => h
  | unresolved base =>
    unfold Interpreter.renderDirective
    simp only
    split
    · exact Grows.pure fun _ h => h
    · exact Grows.pure fun _ h => h
  | forEach f c =>
    have rendered := forEach_render_grows settled_mono (within_mono nodes _) (keeps f) i u content f
      (content?_grows nodes around i f) c
    refine (directive_grows (.forEach f c) (fun r => .forEach f r.2) rfl (fun _ => rfl)
      rendered).bind fun r => ?_
    exact Grows.pure fun _ h => h
  | conditional f c =>
    have rendered := conditional_render_grows (keeps f) (i.conditionalBindings u content f)
      (content?_grows nodes around i f) c
    refine (directive_grows (.conditional f c) (fun r => .conditional f r.2) rfl (fun _ => rfl)
      rendered).bind fun r => ?_
    exact Grows.pure fun _ h => h
  | output f c =>
    have written : Grows (c.render ((i.computation? u f "set_value").map
        fun value s => shownText (value s)))
        (fun n => AllWithin nodes n (placements around (.directive u content) (.output f c)))
        fun n _ => AllWithin nodes n (placements around (.directive u content) (.output f c)) := by
      apply Grows.quiet
      intro w
      unfold TextOutput.render
      split
      · rfl
      · split
        · rfl
        · rfl
    refine written.bind fun r => ?_
    exact Grows.pure fun n h => h
  | trigger f base =>
    have done : Grows (i.renderTrigger u f base)
        (fun n => AllWithin nodes n (placements around (.directive u content) (.trigger f base)))
        fun n _ => AllWithin nodes n (placements around (.directive u content)
          (.trigger f base)) := by
      apply Grows.quiet
      intro w
      unfold Interpreter.renderTrigger
      split
      · rfl
      · split
        · rfl
        · rfl
    refine done.bind fun r => ?_
    exact Grows.pure fun n h => h
  | definition f base child =>
    have rendered := renderDefinition_grows (keeps f) i u content f
      (content?_grows nodes around i f)
      (i.kinds u.className == some (.definition true)) base child
    refine (directive_grows (.definition f base child) (fun r => .definition f base r.2) rfl
      (fun _ => rfl) rendered).bind fun r => ?_
    exact Grows.pure fun _ h => h

theorem destroyDirective_grows
    (keeps : ∀ f, Keeps (Settled nodes (⟨u, content, f⟩ :: around) content) kind)
    (s : NodeState) :
    Grows (Interpreter.destroyDirective kind s)
      (fun n => AllWithin nodes n (placements around (.directive u content) s))
      fun n s' => AllWithin nodes n (placements around (.directive u content) s') := by
  cases s with
  | text slot => exact Grows.pure fun _ h => h
  | group base states => exact Grows.pure fun _ h => h
  | unresolved base =>
    unfold Interpreter.destroyDirective
    simp only
    split
    · exact Grows.pure fun _ h => h
    · exact (Grows.destroyBase base).bind fun _ => Grows.pure fun _ h => h
  | forEach f c =>
    have destroyed := forEach_destroy_grows settled_mono (keeps f) c
    refine (directive_grows (.forEach f c) (.forEach f) rfl (fun _ => rfl)
      (destroyed.weaken fun _ h => h.1)).bind fun c' => ?_
    exact Grows.pure fun _ h => h
  | conditional f c =>
    have destroyed := conditional_destroy_grows (keeps f) c
    refine (directive_grows (.conditional f c) (.conditional f) rfl (fun _ => rfl)
      (destroyed.weaken fun _ h => h.1)).bind fun c' => ?_
    exact Grows.pure fun _ h => h
  | output f c =>
    have gone : Grows (c.destroy : Act Session TextOutput)
        (fun n => AllWithin nodes n (placements around (.directive u content) (.output f c)))
        fun n _ => AllWithin nodes n (placements around (.directive u content) (.output f c)) := by
      apply Grows.quiet
      intro w
      unfold TextOutput.destroy
      split
      · rfl
      · rfl
    refine gone.bind fun c' => ?_
    exact Grows.pure fun n h => h
  | trigger f base =>
    unfold Interpreter.destroyDirective
    simp only
    split
    · exact Grows.pure fun _ h => h
    · exact (Grows.destroyBase base).bind fun _ => Grows.pure fun _ h => h
  | definition f base child =>
    unfold Interpreter.destroyDirective
    simp only
    split
    · exact Grows.pure fun _ h => h
    · refine (Grows.destroyBase base).bind fun base' => ?_
      cases child with
      | none => exact Grows.pure fun _ h => h
      | some c =>
        refine (directive_grows (.definition f base (some c))
          (fun c' => .definition f base' (some c')) rfl (fun _ => rfl) ?_).bind fun c' => ?_
        · refine ((keeps f).destroy c).mono (fun n h => ?_) fun n c' settled fragment mem => ?_
          · exact h.1 c List.mem_cons_self
          · rw [List.mem_singleton.mp mem]
            exact settled
        · exact Grows.pure fun _ h => h

end Directives

/-! What holds of a kind holds of groups of it. -/

section Groups

variable {i : Interpreter} {ns : List TemplateNode}

theorem renderEach_grows (each : ∀ n ∈ ns, ∀ around,
      Keeps (fun k s => AllWithin nodes k (placements around n s)) (i.kindOf n))
    (around : List Placement) (ss : List NodeState) :
    Grows (Kind.renderEach (i.kindsOf ns) ss)
      (fun k => AllWithin nodes k (placementsAll around ns ss))
      fun k r => AllWithin nodes k (placementsAll around ns r.2) := by
  induction ns generalizing ss with
  | nil => exact Grows.pure fun _ h => h
  | cons n ns ih =>
    cases ss with
    | nil => exact Grows.pure fun _ h => h
    | cons s ss =>
      have first := ((each n List.mem_cons_self around).render s).beside
        (allWithin_mono nodes (placementsAll around ns ss))
      refine (first.weaken fun k h => ?_).bind ?_
      · simp only [placementsAll] at h
        exact allWithin_append.mp h
      · rintro ⟨result, s'⟩
        have joined (ss' : List NodeState) (k : Nat)
            (rest : AllWithin nodes k (placementsAll around ns ss'))
            (here : AllWithin nodes k (placements around n s')) :
            AllWithin nodes k (placementsAll around (n :: ns) (s' :: ss')) := by
          simp only [placementsAll]
          exact allWithin_append.mpr ⟨here, rest⟩
        cases result with
        | error e => exact Grows.pure fun k h => joined ss k h.2 h.1
        | ok _ =>
          have later := (ih (fun n mem => each n (List.mem_cons_of_mem _ mem)) ss).beside
            (allWithin_mono nodes (placements around n s'))
          refine (later.weaken fun _ h => h.symm).bind fun r => ?_
          exact Grows.pure fun k h => joined r.2 k h.1 h.2

theorem destroyEach_grows (each : ∀ n ∈ ns, ∀ around,
      Keeps (fun k s => AllWithin nodes k (placements around n s)) (i.kindOf n))
    (around : List Placement) (ss : List NodeState) :
    Grows (Kind.destroyEach (i.kindsOf ns) ss)
      (fun k => AllWithin nodes k (placementsAll around ns ss))
      fun k ss' => AllWithin nodes k (placementsAll around ns ss') := by
  induction ns generalizing ss with
  | nil => exact Grows.pure fun _ h => h
  | cons n ns ih =>
    cases ss with
    | nil => exact Grows.pure fun _ h => h
    | cons s ss =>
      have first := ((each n List.mem_cons_self around).destroy s).beside
        (allWithin_mono nodes (placementsAll around ns ss))
      refine (first.weaken fun k h => ?_).bind fun s' => ?_
      · simp only [placementsAll] at h
        exact allWithin_append.mp h
      · have later := (ih (fun n mem => each n (List.mem_cons_of_mem _ mem)) ss).beside
          (allWithin_mono nodes (placements around n s'))
        refine (later.weaken fun _ h => h.symm).bind fun ss' => ?_
        apply Grows.pure
        intro k h
        simp only [placementsAll]
        exact allWithin_append.mpr h.symm

theorem group_keeps (each : ∀ n ∈ ns, ∀ around,
      Keeps (fun k s => AllWithin nodes k (placements around n s)) (i.kindOf n))
    (around : List Placement) :
    Keeps (Settled nodes around ns) (Interpreter.groupKind (i.kindsOf ns)) := by
  constructor
  · intro s
    cases s with
    | group base states =>
      have pass := renderEach_grows each around states
      unfold Interpreter.groupKind Group.render
      simp only
      split
      · exact Grows.pure fun _ h => h
      · refine Grows.bind (pass.bind ?_) fun r => Grows.pure fun _ h => h
        rintro ⟨result, states'⟩
        cases result with
        | ok _ => exact Grows.pure fun _ h => h
        | error e => exact Grows.pure fun _ h => h
    | _ => exact Grows.pure fun _ h => h
  · intro s
    cases s with
    | group base states =>
      have pass := destroyEach_grows each around states
      unfold Interpreter.groupKind Group.destroy
      simp only
      split
      · exact Grows.pure fun _ h => h
      · refine Grows.bind ((Grows.destroyBase base).bind fun base' => ?_) fun g =>
          Grows.pure fun _ h => h
        exact pass.bind fun states' => Grows.pure fun _ h => h
    | _ => exact Grows.pure fun _ h => h

end Groups

theorem kindOf_keeps (i : Interpreter) (n : TemplateNode) (around : List Placement) :
    Keeps (fun k s => AllWithin nodes k (placements around n s)) (i.kindOf n) := by
  induction n using TemplateNode.induction generalizing around with
  | text value => exact ⟨fun s => Grows.pure fun _ h => h, fun s => Grows.pure fun _ h => h⟩
  | element tag attributes children ih =>
    have inside := group_keeps (fun n mem around => ih n mem around) around
    rw [Interpreter.kindOf]
    simp only [placements]
    split
    · exact inside
    · exact ⟨fun s => Grows.pure fun _ h => h, fun s => Grows.pure fun _ h => h⟩
  | directive u content ih =>
    have inside (f : Frame) := group_keeps (fun n mem around => ih n mem around)
      (⟨u, content, f⟩ :: around)
    rw [Interpreter.kindOf]
    exact ⟨renderDirective_grows i inside, destroyDirective_grows inside⟩

namespace Instance

theorem fragmentKind_keeps (i : Interpreter) (ns : List TemplateNode) (around : List Placement) :
    Keeps (Settled nodes around ns) (i.fragmentKind ns) :=
  group_keeps (fun n _ => kindOf_keeps i n) around

structure Standing (i : Interpreter) (nodes : List TemplateNode) (t : Instance) : Prop where
  interpreter : t.interpreter = i
  forest : t.nodes = nodes
  this : t.this = 0
  settled : Settled nodes [] nodes t.world.cellCount t.root

theorem standing_of_arises {i : Interpreter} {nodes : List TemplateNode} {t : Instance}
    (h : Arises i nodes t) : Standing i nodes t := by
  induction h with
  | created model =>
    let start : World Session := ⟨.empty, ⟨(Cells.empty.create model).2, []⟩⟩
    obtain ⟨-, settled⟩ := i.fragment_grows nodes [] start ⟨1, Nat.le_refl 1, .root⟩
    exact ⟨rfl, rfl, rfl, settled⟩
  | @modelSet t h model ih =>
    refine ⟨ih.interpreter, ih.forest, ih.this, ?_⟩
    have size : (t.setModel model).world.cellCount = t.world.cellCount :=
      Cells.size_set t.world.data.cells t.this model
    rw [size]
    exact ih.settled
  | @rendered t h ih =>
    refine ⟨ih.interpreter, ih.forest, ih.this, ?_⟩
    obtain ⟨-, settled⟩ := (fragmentKind_keeps i nodes []).render t.root t.world ih.settled
    rw [← ih.interpreter, ← ih.forest] at settled
    rw [← ih.forest]
    exact settled
  | @destroyed t h ih =>
    refine ⟨ih.interpreter, ih.forest, ih.this, ?_⟩
    obtain ⟨-, settled⟩ := (fragmentKind_keeps i nodes []).destroy t.root t.world ih.settled
    rw [← ih.interpreter, ← ih.forest] at settled
    rw [← ih.forest]
    exact settled

theorem Arises.placed {i : Interpreter} {nodes : List TemplateNode} {t : Instance}
    (h : Arises i nodes t) :
    t.this = 0 ∧ ∀ chain ∈ t.placements, ∃ m, Placed nodes chain m := by
  have standing := standing_of_arises h
  refine ⟨standing.this, ?_⟩
  intro chain mem
  rw [placements, standing.forest] at mem
  obtain ⟨m, -, placed⟩ := standing.settled chain mem
  exact ⟨m, placed⟩

end Instance

end DirectiveTemplates.Live
