import DirectiveTemplates.Proofs.Binding.Clean
import DirectiveTemplates.Proofs.Binding.Forests

/-!
What the directives of a clean compilation are bound to. A directive that misses an attribute which
its class requires is reported, so without any diagnostic every directive has all of them.
-/
namespace DirectiveTemplates

structure Supplied (s : Signature) (u : DirectiveUse) : Prop where
  owner : u.className = s.owner
  content : u.contentSetter = s.contentSetter
  binders : ∀ spec ∈ s.attributes.values, spec.role = .binder → spec.required = true →
    u.binders.any (·.setter == spec.setter) = true
  computations : ∀ spec ∈ s.attributes.values, spec.role = .computation → spec.required = true →
    u.computations.any (·.setter == spec.setter) = true
  actions : ∀ spec ∈ s.attributes.values, spec.role = .action → spec.required = true →
    u.actions.any (·.setter == spec.setter) = true

def SuppliedBy (classes : ClassTable) (u : DirectiveUse) : Prop :=
  ∃ s, Registry.signatureOf classes u.className = .ok s ∧ Supplied s u

namespace Compiler

open CompileM

variable {c : Compiler}

theorem findAttribute_spec (tag : Markup.StartTag) (spec : AttributeSpec) :
    Ensures c.classes (findAttribute tag spec) fun a => spec.required = true → a.isSome = true := by
  unfold findAttribute
  cases tag.attribute? spec.name with
  | some a => exact Ensures.pure fun _ => rfl
  | none =>
    cases required : spec.required with
    | true =>
      apply Ensures.bind (Ensures.problem _ _)
      intro _
      exact Ensures.pure fun impossible => impossible.elim
    | false => exact Ensures.pure fun impossible => absurd impossible Bool.false_ne_true

theorem bindVariables_spec (tag : Markup.StartTag) (specs : List AttributeSpec)
    (bound : List VariableBinding) :
    Ensures c.classes (bindVariables tag specs bound) fun vs =>
      (∀ b ∈ bound, b ∈ vs) ∧ ∀ spec ∈ specs, spec.required = true →
        vs.any (·.setter == spec.setter) = true := by
  induction specs generalizing bound with
  | nil =>
    refine Ensures.pure ⟨fun _ => id, ?_⟩
    intro spec mem
    exact absurd mem List.not_mem_nil
  | cons spec specs ih =>
    apply Ensures.bind (findAttribute_spec tag spec)
    intro a
    cases a with
    | none =>
      apply (ih bound).mono
      rintro vs ⟨kept, rest⟩ found
      refine ⟨kept, ?_⟩
      intro spec' mem required
      rcases List.mem_cons.mp mem with rfl | mem
      · exact absurd (found required) (by simp)
      · exact rest spec' mem required
    | some a =>
      simp only
      split
      · apply Ensures.bind (Ensures.problem _ _)
        intro _
        exact (ih bound).mono fun _ _ impossible => impossible.elim
      · refine Ensures.bind (Ensures.modify (fun _ => rfl) fun _ => rfl) fun _ => ?_
        apply (ih _).mono
        rintro vs ⟨kept, rest⟩ - -
        refine ⟨fun b mem => kept b (List.mem_append_left _ mem), ?_⟩
        intro spec' mem required
        rcases List.mem_cons.mp mem with rfl | mem
        · have last := kept _ (List.mem_append_right _ (List.mem_singleton_self _))
          refine List.any_eq_true.mpr ⟨_, last, ?_⟩
          simp
        · exact rest spec' mem required

theorem compileValue_spec (a : Markup.Attribute) (expected : Option ValueType) :
    Ensures c.classes (c.compileValue a expected) fun _ => True := by
  intro p outcome q run sound
  cases run
  exact ⟨sound, List.prefix_append _ _, fun _ _ _ => trivial⟩

theorem bindExpressions_spec (tag : Markup.StartTag) (specs : List AttributeSpec) :
    Ensures c.classes (c.bindExpressions tag specs) fun es => ∀ spec ∈ specs,
      spec.required = true →
        (spec.role ≠ .action → es.computations.any (·.setter == spec.setter) = true) ∧
        (spec.role = .action → es.actions.any (·.setter == spec.setter) = true) := by
  induction specs with
  | nil =>
    apply Ensures.pure
    intro spec mem
    exact absurd mem List.not_mem_nil
  | cons spec specs ih =>
    apply Ensures.bind (findAttribute_spec tag spec)
    intro a
    cases a with
    | none =>
      apply ih.mono
      intro es rest found spec' mem required
      rcases List.mem_cons.mp mem with rfl | mem
      · exact absurd (found required) (by simp)
      · exact rest spec' mem required
    | some a =>
      apply Ensures.bind (compileValue_spec a _)
      intro plan
      apply Ensures.bind ih
      intro es
      split
      · rename_i action
        apply Ensures.pure
        intro rest _ _ spec' mem required
        rcases List.mem_cons.mp mem with rfl | mem
        · exact ⟨fun other => absurd action other, fun _ => by simp⟩
        · obtain ⟨computation, action'⟩ := rest spec' mem required
          exact ⟨computation, fun h => by simp [action' h]⟩
      · rename_i other
        apply Ensures.pure
        intro rest _ _ spec' mem required
        rcases List.mem_cons.mp mem with rfl | mem
        · exact ⟨fun _ => by simp, fun action => absurd action other⟩
        · obtain ⟨computation, action'⟩ := rest spec' mem required
          exact ⟨fun h => by simp [computation h], action'⟩

theorem directiveParts_spec (tag : Markup.StartTag) (s : Signature) :
    Ensures c.classes (c.directiveParts tag s) (Supplied s) := by
  apply Ensures.bind (bindVariables_spec tag _ [])
  intro binders
  apply Ensures.bind (bindExpressions_spec tag _)
  intro expressions
  apply Ensures.pure
  rintro expressed ⟨-, bound⟩
  refine ⟨rfl, rfl, ?_, ?_, ?_⟩
  · intro spec mem role required
    exact bound spec (by simp [Signature.withRole, mem, role]) required
  · intro spec mem role required
    exact (expressed spec (by simp [Signature.withRole, mem, role]) required).1 (by simp [role])
  · intro spec mem role required
    exact (expressed spec (by simp [Signature.withRole, mem, role]) required).2 role

theorem usePackage_spec (space package : String) (anchor : Span) :
    Ensures c.classes (c.usePackage space package anchor) fun _ => True := by
  intro p outcome q run sound
  let use := p.registry.usePackage c.config c.classes c.resources space package anchor
  have sound' : use.registry.Sound c.classes :=
    sound.usePackage c.config c.resources space package anchor
  let next : Progress :=
    { p with
      registry := use.registry
      diagnostics := p.diagnostics ++ use.diagnostics
      requested := p.requested ++ [c.config.descriptorResource package] }
  have eq : (c.usePackage space package anchor).run p =
      (use.failure.elim (Except.ok ()) Except.error, next) := by
    simp only [usePackage, run_bind, run_get, run_set]
    cases use.failure with
    | none => rfl
    | some failed => rfl
  rw [eq] at run
  obtain ⟨-, rfl⟩ := Prod.mk.inj run
  exact ⟨sound', List.prefix_append _ _, fun _ _ _ => trivial⟩

theorem instruction_spec (i : Markup.Instruction) :
    Ensures c.classes (c.instruction i) fun _ => True := by
  unfold instruction
  split
  · simp only [importName]
    split
    · exact Ensures.modify (fun _ => rfl) fun _ => rfl
    · apply Ensures.bind Ensures.get
      intro p
      split
      · exact Ensures.mono (Ensures.modify (fun _ => rfl) fun _ => rfl) fun _ _ _ => trivial
      · exact (Ensures.problem _ _).mono fun _ _ _ => trivial
  · split
    · split
      · exact usePackage_spec _ _ _
      · exact (Ensures.problem _ _).mono fun _ _ => trivial
    · exact Ensures.pure trivial

mutual

theorem node_spec : (n : Markup.Node) →
    Ensures c.classes (c.node n) fun ts => ∀ u ∈ TemplateNode.usesAll ts, SuppliedBy c.classes u
  | .text t => by
    apply Ensures.pure
    simp [TemplateNode.usesAll, TemplateNode.uses]
  | .comment _ => by
    apply Ensures.pure
    simp [TemplateNode.usesAll]
  | .instruction i => by
    apply Ensures.bind (instruction_spec i)
    intro _
    apply Ensures.pure
    simp [TemplateNode.usesAll]
  | .element tag span stop children => by
    have inner := nodes_spec children
    rw [Compiler.node]
    split
    · apply Ensures.bind inner
      intro ts
      apply Ensures.pure
      simp [TemplateNode.usesAll, TemplateNode.uses]
    · apply Ensures.bind Ensures.get
      intro p
      split
      · apply Ensures.bind (Ensures.problem _ _)
        intro _
        exact Ensures.pure fun impossible => impossible.elim
      · rename_i s found
        apply Ensures.bind (directiveParts_spec tag s)
        intro use
        have supplies (ts : List TemplateNode)
            (all : ∀ u ∈ TemplateNode.usesAll ts, SuppliedBy c.classes u)
            (supplied : Supplied s use)
            (sound : p.registry.Sound c.classes) :
            ∀ u ∈ TemplateNode.usesAll [.directive use ts], SuppliedBy c.classes u := by
          intro u mem
          simp only [TemplateNode.usesAll, TemplateNode.uses, List.append_nil,
            List.mem_cons] at mem
          rcases mem with rfl | mem
          · refine ⟨s, ?_, supplied⟩
            rw [supplied.owner]
            exact sound.resolve found
          · exact all u mem
        apply Ensures.retracting _
        split
        · apply Ensures.bind inner
          intro ts
          exact Ensures.pure fun all => supplies ts all
        · have none := supplies [] (by simp [TemplateNode.usesAll])
          split
          · apply Ensures.bind (Ensures.problem _ _)
            intro _
            exact Ensures.pure fun _ => none
          · exact Ensures.pure none

theorem nodes_spec : (ns : List Markup.Node) →
    Ensures c.classes (c.nodes ns) fun ts => ∀ u ∈ TemplateNode.usesAll ts, SuppliedBy c.classes u
  | [] => by
    apply Ensures.pure
    simp [TemplateNode.usesAll]
  | n :: ns => by
    rw [Compiler.nodes]
    apply Ensures.bind (node_spec n)
    intro first
    apply Ensures.bind (nodes_spec ns)
    intro rest
    apply Ensures.pure
    intro later here u mem
    rw [TemplateNode.usesAll_append] at mem
    rcases List.mem_append.mp mem with mem | mem
    · exact here u mem
    · exact later u mem

end

theorem template_spec (source className : String) :
    Ensures c.classes (c.template source className) fun ts =>
      ∀ u ∈ TemplateNode.usesAll ts, SuppliedBy c.classes u := by
  apply Ensures.bind (usePackage_spec _ _ _)
  intro _
  refine Ensures.bind (Ensures.modify (fun _ => rfl) fun _ => rfl) fun _ => ?_
  apply Ensures.bind (Ensures.report _)
  intro _
  exact (Ensures.retracting _ (nodes_spec _)).mono fun ts all _ _ _ => all

/-- Every directive of a clean compilation has everything its class requires. -/
theorem suppliedBy_of_clean {source className : String} {nodes : List TemplateNode}
    (ok : (c.compile source className).result = .ok nodes)
    (clean : (c.compile source className).progress.diagnostics = []) :
    ∀ u ∈ TemplateNode.usesAll nodes, SuppliedBy c.classes u := by
  obtain ⟨-, -, ensured⟩ := template_spec source className Progress.start _ _ rfl
    (Registry.sound_empty c.classes)
  exact ensured clean nodes ok

end Compiler

end DirectiveTemplates
