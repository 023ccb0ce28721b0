import DirectiveTemplates.Proofs.Live.Confinement
import DirectiveTemplates.Proofs.Live.Planting

/-!
What the components of a forest touch. Whatever state earlier renders left it in, a component keeps
to its own slots when it is rendered; when it is destroyed it leaves the slot that it stands in
before all else.
-/
namespace DirectiveTemplates.Live

open SlotTree (Inner)

variable {kept : List SlotId} {t₀ : SlotTree} {i : Interpreter} {n : TemplateNode}
  {ns content : List TemplateNode} {ss : List NodeState} {s : NodeState}

theorem confined_fragment (i : Interpreter) (content : List TemplateNode) (env : Environment) :
    Confined kept t₀ (i.fragment content env) fun f =>
      t₀.Inner kept f.slot ∧ SlotsBelowAll (t₀.Inner kept) content f.members := by
  intro w k
  let w₁ : World Session := { w with slots := (w.slots.create .container).2 }
  have lt : w.slots.size < w₁.slots.size := (Grown.create w.slots .container).lt
  obtain ⟨ls, planted⟩ := planted_buildAll (fun n _ => plants i n) w₁ env lt
  obtain ⟨grown, -⟩ := Grown.planted planted
  refine ⟨⟨grown.linked k.linked, k.bound, ?_, ?_⟩, k.inner_of_size_le (Nat.le_refl _), ?_⟩
  · exact Nat.le_trans k.size_le (Nat.le_of_lt grown.lt)
  · intro j mem
    have old : j < w.slots.size := Nat.lt_of_lt_of_le (k.bound j mem) k.size_le
    exact (grown.same j old).trans (k.same j mem)
  · apply planted.slotsBelowAll.imp
    intro j new
    exact k.inner_of_size_le (Nat.le_trans (Nat.le_of_lt lt) new.1)

theorem kindOf_of_not_live (dead : n.isLive = false) :
    i.kindOf n = Interpreter.inertKind := by
  cases n with
  | text value => rfl
  | element tag attributes children =>
    have dead : TemplateNode.anyLive children = false := dead
    rw [Interpreter.kindOf, dead]
    rfl
  | directive u content => cases dead

theorem confined_renderEach {P : TemplateNode → NodeState → Prop}
    (each : ∀ n ∈ ns, ∀ s, P n s → Confined kept t₀ ((i.kindOf n).render s) fun r =>
      r.2.slot = s.slot ∧ P n r.2) (h : List.Forall₂ P ns ss) :
    Confined kept t₀ (Kind.renderEach (i.kindsOf ns) ss) fun r =>
      r.2.map NodeState.slot = ss.map NodeState.slot ∧ List.Forall₂ P ns r.2 := by
  induction h with
  | nil => exact .pure ⟨rfl, .nil⟩
  | @cons n s ns ss first rest ih =>
    obtain ⟨here, others⟩ := List.forall_mem_cons.mp each
    rw [Interpreter.kindsOf, Kind.renderEach]
    apply (here s first).bind
    rintro ⟨result, s'⟩ ⟨slot, first'⟩
    cases result with
    | error e => exact .pure ⟨List.cons_eq_cons.mpr ⟨slot, rfl⟩, .cons first' rest⟩
    | ok _ =>
      apply (ih others).bind
      rintro ⟨later, ss'⟩ ⟨slots, rest'⟩
      exact .pure ⟨List.cons_eq_cons.mpr ⟨slot, slots⟩, .cons first' rest'⟩

theorem confined_destroyEach {P : TemplateNode → NodeState → Prop}
    (each : ∀ n ∈ ns, ∀ s, P n s → Confined kept t₀ ((i.kindOf n).destroy s) fun _ => True)
    (h : List.Forall₂ P ns ss) :
    Confined kept t₀ (Kind.destroyEach (i.kindsOf ns) ss) fun _ => True := by
  induction h with
  | nil => exact .pure trivial
  | @cons n s ns ss first rest ih =>
    obtain ⟨here, others⟩ := List.forall_mem_cons.mp each
    rw [Interpreter.kindsOf, Kind.destroyEach]
    exact (here s first).bind fun _ _ => (ih others).bind fun _ _ => .pure trivial

/-- A component keeps to the slots below its own when it is rendered, and it stays alive. When it
is destroyed it leaves its place first, if it was alive; otherwise nothing is done. -/
structure Works (kept : List SlotId) (t₀ : SlotTree) (kind : Kind Session NodeState)
    (within alive : NodeState → Prop) (s : NodeState) : Prop where
  render : Confined kept t₀ (kind.render s) fun r =>
    r.2.slot = s.slot ∧ within r.2 ∧ (alive s → alive r.2)
  leaves : alive s → Leaves kept t₀ s.slot (kind.destroy s)
  rests : ¬ alive s → kind.destroy s = pure s

theorem Works.destroy {kind : Kind Session NodeState} {within alive : NodeState → Prop}
    (h : Works kept t₀ kind within alive s) (inner : t₀.Inner kept s.slot) :
    Confined kept t₀ (kind.destroy s) fun _ => True := by
  by_cases lives : alive s
  · exact (h.leaves lives).confined inner
  · rw [h.rests lives]
    exact .pure trivial

/-- The component of a node works as it should wherever its slots are free. -/
def NodeWorks (i : Interpreter) (n : TemplateNode) : Prop :=
  ∀ (kept : List SlotId) (t₀ : SlotTree) (s : NodeState), n.isLive = true → s.slot ∉ kept →
    SlotsBelow (t₀.Inner kept) n s →
      Works kept t₀ (i.kindOf n) (SlotsBelow (t₀.Inner kept) n) (Alive n) s

theorem NodeWorks.confined_render (h : NodeWorks i n) (ready : SlotsFrom (t₀.Inner kept) n s) :
    Confined kept t₀ ((i.kindOf n).render s) fun r =>
      r.2.slot = s.slot ∧ SlotsFrom (t₀.Inner kept) n r.2 := by
  cases live : n.isLive with
  | true =>
    obtain ⟨inner, within⟩ := ready live
    apply (h kept t₀ s live inner.1 within).render.imp
    rintro r ⟨slot, within, -⟩
    exact ⟨slot, fun _ => ⟨slot ▸ inner, within⟩⟩
  | false =>
    rw [kindOf_of_not_live live]
    exact .pure ⟨rfl, ready⟩

theorem NodeWorks.confined_destroy (h : NodeWorks i n) (ready : SlotsFrom (t₀.Inner kept) n s) :
    Confined kept t₀ ((i.kindOf n).destroy s) fun _ => True := by
  cases live : n.isLive with
  | true =>
    obtain ⟨inner, within⟩ := ready live
    exact (h kept t₀ s live inner.1 within).destroy inner
  | false =>
    rw [kindOf_of_not_live live]
    exact .pure trivial

/-- A group works when the nodes in it do. -/
theorem works_group (each : ∀ n ∈ ns, NodeWorks i n)
    (h : SlotsBelowAll (t₀.Inner kept) ns s.members) :
    Works kept t₀ (Interpreter.groupKind (i.kindsOf ns))
      (fun s => SlotsBelowAll (t₀.Inner kept) ns s.members) NodeState.IsAliveGroup s := by
  cases s with
  | group base children =>
    have inside := slotsBelowAll_iff.mp h
    refine ⟨?_, ?_, ?_⟩
    · have pass := (confined_renderEach (fun n mem s => (each n mem).confined_render) inside).imp
        fun r after => slotsBelowAll_iff.mpr after.2
      exact (Group.confined_render h pass).bind fun r after => .pure ⟨after.1, after.2.2, after.2.1⟩
    · intro (alive : base.isDestroyed = false)
      have pass := confined_destroyEach (fun n mem s => (each n mem).confined_destroy) inside
      exact (Group.leaves_destroy (g := ⟨base, children⟩) alive pass).map NodeState.ofGroup
    · intro gone
      have gone : base.isDestroyed = true := eq_true_of_ne_false gone
      have rests : Group.destroy ⟨base, children⟩ (Kind.destroyEach (i.kindsOf ns) children) =
          pure ⟨base, children⟩ := Group.destroy_of_destroyed gone _
      exact congrArg (· >>= fun g => pure (NodeState.ofGroup g)) rests
  | _ => exact ⟨.pure ⟨rfl, h, id⟩, False.elim, fun _ => rfl⟩

/-! The directives. -/

section Directives

variable {u : DirectiveUse} {inner : Kind Session NodeState} {P : NodeState → Prop} {f : Frame}

/-- What a directive knows of its content: it can make it and has made some. -/
structure Contents (kept : List SlotId) (t₀ : SlotTree) (i : Interpreter)
    (inner : Kind Session NodeState) (content : List TemplateNode) (P : NodeState → Prop) :
    Prop where
  confined : inner.Confined kept t₀ P
  created : ∀ env, Confined kept t₀ (i.fragment content env) P

theorem Contents.content? (h : Contents kept t₀ i inner content P) (u : DirectiveUse) (f : Frame) :
    ∀ create ∈ i.content? u content f, Confined kept t₀ create P := by
  intro create mem
  obtain ⟨_, -, rfl⟩ := Option.map_eq_some_iff.mp mem
  exact h.created _

theorem confined_note (line : String) :
    Confined kept t₀ (Interpreter.note line) fun _ => True := .change _

theorem confined_renderTrigger (base : Base) :
    Confined kept t₀ (i.renderTrigger u f base) fun _ => True := by
  unfold Interpreter.renderTrigger
  split
  · exact .pure trivial
  · split
    · exact .pure trivial
    · rename_i plan _
      have executed : Confined kept t₀ (i.execute f.environment plan) fun _ => True :=
        (Confined.read _).bind fun v _ => confined_note _
      exact executed.bind fun _ _ => .pure trivial

theorem confined_renderChild (h : inner.Confined kept t₀ P) (child : Option NodeState) :
    (∀ c ∈ child, P c) → Confined kept t₀ (match child with
      | none => pure (.ok (), none)
      | some c => do
        let (result, c) ← inner.render c
        return (result, some c) : Act Session (RenderResult × Option NodeState))
      fun r => ∀ c ∈ r.2, P c := by
  intro known
  cases child with
  | none => exact .pure nofun
  | some c =>
    apply (h.render c (known c rfl)).bind
    intro r after
    exact .pure fun c same => Option.some.inj same ▸ after

/-- A definition puts its content into its slot when it is rendered first. -/
theorem confined_renderDefinition (h : Contents kept t₀ i inner content P) {base : Base}
    (free : base.slot ∉ kept) {child : Option NodeState} (known : ∀ c ∈ child, P c)
    (required : Bool) :
    Confined kept t₀ (i.renderDefinition inner u content required f base child)
      fun r => ∀ c ∈ r.2, P c := by
  unfold Interpreter.renderDefinition
  split
  · exact .pure known
  · apply (Confined.read (i.definedValue u f required)).bind
    intro value _
    cases value with
    | none => exact .pure known
    | some v =>
      apply (confined_note _).bind
      intro _ _
      cases f.own? "set_variable"
      case' some cell =>
        apply (Confined.change (Interpreter.setCell cell v)).bind
        intro _ _
      -- The content is looked for in the same way, whether or not a variable was set.
      all_goals
        dsimp only
        split
        · exact confined_renderChild h.confined _ known
        · exact confined_renderChild h.confined none nofun
        · rename_i create found
          apply (h.content? u f create found).bind
          intro c made
          apply (Confined.append free (h.confined.slot c made)).bind
          intro _ _
          exact confined_renderChild h.confined _ fun c' same => Option.some.inj same ▸ made

theorem leaves_base {base : Base} (alive : base.isDestroyed = false) (s : Base → NodeState) :
    Leaves kept t₀ base.slot (do
      if base.isDestroyed then return s base else return s (← base.destroy) :
        Act Session NodeState) := by
  refine ⟨pure (s { base with stage := .destroyed }), ?_, .pure trivial⟩
  rw [alive]
  rfl

theorem rests_directive (gone : ¬ s.IsAliveDirective) :
    Interpreter.destroyDirective inner s = pure s := by
  have destroyed {base : Base} (gone : ¬ base.isDestroyed = false) : base.isDestroyed = true :=
    eq_true_of_ne_false gone
  cases s with
  | text slot => rfl
  | group base children => rfl
  | unresolved base => exact if_pos (destroyed gone)
  | forEach f c =>
    have rests : c.destroy inner = pure c := if_pos (destroyed gone)
    exact congrArg (· >>= fun c => pure (NodeState.forEach f c)) rests
  | conditional f c =>
    have rests : c.destroy inner = pure c := if_pos (destroyed gone)
    exact congrArg (· >>= fun c => pure (NodeState.conditional f c)) rests
  | output f c =>
    have rests : (c.destroy : Act Session TextOutput) = pure c := if_pos (destroyed gone)
    exact congrArg (· >>= fun c => pure (NodeState.output f c)) rests
  | trigger f base => exact if_pos (destroyed gone)
  | definition f base child => exact if_pos (destroyed gone)

/-- A directive of any kind leaves its place before its content is destroyed. -/
theorem leaves_directive (h : inner.Confined kept t₀ P) (alive : s.IsAliveDirective)
    (fragments : ∀ f ∈ s.fragments, P f) :
    Leaves kept t₀ s.slot (Interpreter.destroyDirective inner s) := by
  cases s with
  | text slot => exact alive.elim
  | group base children => exact alive.elim
  | unresolved base => exact leaves_base alive .unresolved
  | forEach f c => exact (ForEach.leaves_destroy h alive fragments).map _
  | conditional f c =>
    have known : ∀ child ∈ c.child, P child := fun child mem =>
      fragments child (Option.mem_toList.mpr mem)
    exact (Conditional.leaves_destroy h alive known).map _
  | output f c => exact (TextOutput.leaves_destroy alive).map _
  | trigger f base => exact leaves_base alive (.trigger f)
  | definition f base child =>
    have alive : base.isDestroyed = false := alive
    have lives : ¬ base.isDestroyed = true := by rw [alive]; exact Bool.false_ne_true
    cases child with
    | none =>
      exact ⟨pure (.definition f { base with stage := .destroyed } none), if_neg lives,
        .pure trivial⟩
    | some c =>
      have known : P c := fragments c (Option.mem_toList.mpr rfl)
      refine ⟨do
        let c ← inner.destroy c
        return .definition f { base with stage := .destroyed } (some c), if_neg lives, ?_⟩
      exact (h.destroy c known).bind fun _ _ => .pure trivial

theorem confined_renderDirective (h : Contents kept t₀ i inner content P) (free : s.slot ∉ kept)
    (texts : ∀ j ∈ s.texts, t₀.Inner kept j) (fragments : ∀ f ∈ s.fragments, P f) :
    Confined kept t₀ (i.renderDirective inner u content s) fun r => r.2.slot = s.slot ∧
      ((∀ j ∈ r.2.texts, t₀.Inner kept j) ∧ ∀ f ∈ r.2.fragments, P f) ∧
      (s.IsAliveDirective → r.2.IsAliveDirective) := by
  cases s with
  | text slot => exact .pure ⟨rfl, ⟨texts, fragments⟩, id⟩
  | group base children => exact .pure ⟨rfl, ⟨texts, fragments⟩, id⟩
  | unresolved base =>
    exact .ite (fun _ => .pure ⟨rfl, ⟨texts, fragments⟩, id⟩)
      fun _ => .pure ⟨rfl, ⟨texts, fragments⟩, id⟩
  | forEach f c =>
    apply (ForEach.confined_render h.confined (h.content? u f) free fragments).bind
    rintro r ⟨slot, alive, fragments⟩
    exact .pure ⟨slot, ⟨texts, fragments⟩, alive⟩
  | conditional f c =>
    have known : ∀ child ∈ c.child, P child := fun child mem =>
      fragments child (Option.mem_toList.mpr mem)
    apply (Conditional.confined_render h.confined (h.content? u f) free known).bind
    rintro r ⟨slot, alive, known⟩
    exact .pure ⟨slot, ⟨texts, fun f mem => known f (Option.mem_toList.mp mem)⟩, alive⟩
  | output f c =>
    have text : t₀.Inner kept c.text := texts _ List.mem_cons_self
    apply (TextOutput.confined_render text.1).bind
    rintro ⟨result, c'⟩ ⟨slot, alive, same⟩
    refine .pure ⟨slot, ⟨List.forall_mem_singleton.mpr ?_, fragments⟩, alive⟩
    exact same ▸ text
  | trigger f base =>
    apply (confined_renderTrigger base).bind
    intro result _
    exact .pure ⟨rfl, ⟨texts, fragments⟩, id⟩
  | definition f base child =>
    have known : ∀ c ∈ child, P c := fun c mem => fragments c (Option.mem_toList.mpr mem)
    apply (confined_renderDefinition h free known _).bind
    intro r known
    exact .pure ⟨rfl, ⟨texts, fun f mem => known f (Option.mem_toList.mp mem)⟩, id⟩

/-- Directives of all kinds work when their content does. -/
theorem works_directive (h : Contents kept t₀ i inner content P) (free : s.slot ∉ kept)
    (within : (∀ j ∈ s.texts, t₀.Inner kept j) ∧ ∀ f ∈ s.fragments, P f) :
    Works kept t₀ (i.directiveKind u content inner)
      (fun s => (∀ j ∈ s.texts, t₀.Inner kept j) ∧ ∀ f ∈ s.fragments, P f)
      NodeState.IsAliveDirective s where
  render := confined_renderDirective h free within.1 within.2
  leaves alive := leaves_directive h.confined alive within.2
  rests := rests_directive

end Directives

theorem node_works (i : Interpreter) (n : TemplateNode) : NodeWorks i n := by
  induction n using TemplateNode.induction with
  | text value => exact fun _ _ _ live => nomatch live
  | element tag attributes children ih =>
    intro kept t₀ s live free within
    have live : TemplateNode.anyLive children = true := live
    rw [Interpreter.kindOf, if_pos live]
    exact works_group ih within
  | directive u content ih =>
    intro kept t₀ s live free within
    have confined : (Interpreter.groupKind (i.kindsOf content)).Confined kept t₀ fun f =>
        t₀.Inner kept f.slot ∧ SlotsBelowAll (t₀.Inner kept) content f.members := by
      refine ⟨fun f known => known.1, fun f known => ?_, fun f known => ?_⟩
      · apply (works_group ih known.2).render.imp
        rintro r ⟨slot, within, -⟩
        exact ⟨slot ▸ known.1, within⟩
      · exact (works_group ih known.2).destroy known.1
    exact works_directive ⟨confined, confined_fragment i content⟩ free within

end DirectiveTemplates.Live
