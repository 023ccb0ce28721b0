import DirectiveTemplates.Proofs.Binding.Scoping

/-!
One compilation under both policies for descriptors that cannot be read. The two go through the
same steps until the first failed read, where one notes a problem and the other ends.
-/
namespace DirectiveTemplates

def readFailure? (resources : Resources) (resource : String) : Option ReadFailure :=
  match resources resource with
  | .stream _ (some cause) => some ⟨resource, cause⟩
  | _ => none

def usedPackage? (i : Markup.Instruction) : Option String :=
  if i.target = "use" then (Compiler.splitUse? i.content).map Prod.snd else none

theorem eq_of_readFailure? {resources : Resources} {resource : String} {failure : ReadFailure}
    (h : readFailure? resources resource = some failure) :
    failure.resource = resource ∧
      ∃ bytes, resources resource = .stream bytes (some failure.cause) := by
  unfold readFailure? at h
  split at h
  · rename_i bytes cause opened
    cases h
    exact ⟨rfl, bytes, opened⟩
  · cases h

mutual

def usedPackages : Markup.Node → List String
  | .text _ => []
  | .comment _ => []
  | .instruction i => (usedPackage? i).toList
  | .element _ _ _ children => usedPackagesAll children

def usedPackagesAll : List Markup.Node → List String
  | [] => []
  | n :: ns => usedPackages n ++ usedPackagesAll ns

end

def Compiler.under (c : Compiler) (policy : ReadPolicy) : Compiler :=
  { c with config := { c.config with readPolicy := policy } }

namespace Registry

variable (r : Registry) (config : Config) (classes : ClassTable) (resources : Resources)
  (space package : String) (anchor : Span)

/-- Using a package fails exactly when its descriptor cannot be read and the policy is strict. -/
theorem failure_usePackage :
    (r.usePackage config classes resources space package anchor).failure =
      match config.readPolicy with
      | .report => none
      | .fatal => readFailure? resources (config.descriptorResource package) := by
  simp only [usePackage, readFailure?]
  cases resources (config.descriptorResource package) with
  | absent => cases config.readPolicy <;> rfl
  | refused message => cases config.readPolicy <;> rfl
  | stream bytes failure => cases failure <;> cases config.readPolicy <;> rfl

/-- The policy has no part in using a package that can be read. -/
theorem usePackage_of_readable (policy : ReadPolicy)
    (readable : readFailure? resources (config.descriptorResource package) = none) :
    r.usePackage { config with readPolicy := policy } classes resources space package anchor =
      r.usePackage config classes resources space package anchor := by
  have same : ({ config with readPolicy := policy } : Config).descriptorResource package =
    config.descriptorResource package := rfl
  unfold readFailure? at readable
  simp only [usePackage, same]
  cases opened : resources (config.descriptorResource package) with
  | absent => rfl
  | refused message => rfl
  | stream bytes failure =>
    cases failure with
    | none => rfl
    | some cause =>
      rw [opened] at readable
      cases readable

end Registry

namespace CompileM

variable {α β : Type}

/-- The first step never fails, and asks for some of the descriptors `may`, in their order. When
all of them can be read, the second step does the same; otherwise it ends with the first failure. -/
def Lockstep (resources : Resources) (may : List String) (lenient strict : CompileM α) : Prop :=
  ∀ p, ∃ a q asked, lenient.run p = (.ok a, q) ∧ q.requested = p.requested ++ asked ∧
    asked.Sublist may ∧
    match asked.findSome? (readFailure? resources) with
    | none => strict.run p = (.ok a, q)
    | some failure => (strict.run p).1 = .error failure

namespace Lockstep

variable {resources : Resources} {may may' : List String} {x y : CompileM α}

/-- A step that asks for nothing and does not fail. -/
theorem same (h : ∀ p, ∃ a q, x.run p = (.ok a, q) ∧ q.requested = p.requested) :
    Lockstep resources may x x := by
  intro p
  obtain ⟨a, q, run, requested⟩ := h p
  exact ⟨a, q, [], run, by rw [requested, List.append_nil], List.nil_sublist _, run⟩

theorem pure (a : α) : Lockstep resources may (pure a) (pure a) :=
  same fun p => ⟨a, p, rfl, rfl⟩

theorem report (ds : List Diagnostic) : Lockstep resources may (report ds) (report ds) :=
  same fun p => ⟨(), p.report ds, rfl, rfl⟩

theorem bind {f g : α → CompileM β} (first : Lockstep resources may x y)
    (next : ∀ a, Lockstep resources may' (f a) (g a)) :
    Lockstep resources (may ++ may') (x >>= f) (y >>= g) := by
  intro p
  obtain ⟨a, q, asked, run, requested, among, agree⟩ := first p
  obtain ⟨b, r, asked', run', requested', among', agree'⟩ := next a q
  refine ⟨b, r, asked ++ asked', ?_, ?_, among.append among', ?_⟩
  · rw [run_bind, run]
    exact run'
  · rw [requested', requested, List.append_assoc]
  · rw [List.findSome?_append, run_bind]
    cases failed : asked.findSome? (readFailure? resources) with
    | none =>
      rw [failed] at agree
      rw [agree]
      exact agree'
    | some failure =>
      rw [failed] at agree
      cases stopped : y.run p with
      | mk outcome s =>
        rw [stopped] at agree
        cases agree
        rfl

/-- Two steps of which only the first asks for anything. -/
theorem map {f g : α → CompileM β} (first : Lockstep resources may x y)
    (next : ∀ a, Lockstep resources [] (f a) (g a)) :
    Lockstep resources may (x >>= f) (y >>= g) := by
  have both := first.bind next
  rw [List.append_nil] at both
  exact both

/-- Two steps of which only the second asks for anything. -/
theorem after {f g : α → CompileM β} (first : Lockstep resources [] x y)
    (next : ∀ a, Lockstep resources may (f a) (g a)) :
    Lockstep resources may (x >>= f) (y >>= g) :=
  first.bind next

theorem get : Lockstep resources may MonadState.get MonadState.get :=
  same fun p => ⟨p, p, rfl, rfl⟩

theorem modify {f : Progress → Progress} (requested : ∀ p, (f p).requested = p.requested) :
    Lockstep resources may (modify f : CompileM Unit) (modify f) :=
  same fun p => ⟨(), f p, rfl, requested p⟩

theorem retracting (names : List String) (h : Lockstep resources may x y) :
    Lockstep resources may (retracting names x) (retracting names y) := by
  intro p
  obtain ⟨a, q, asked, run, requested, among, agree⟩ := h p
  refine ⟨a, names.foldl Progress.retract q, asked, ?_, ?_, among, ?_⟩
  · rw [Compiler.run_retracting, run]
  · rw [Compiler.foldl_retract]
    exact requested
  · cases failed : asked.findSome? (readFailure? resources) with
    | none =>
      rw [failed] at agree
      simp only
      rw [Compiler.run_retracting, agree]
    | some failure =>
      rw [failed] at agree
      exact agree

end Lockstep

end CompileM

namespace Compiler

open CompileM

variable (c : Compiler)

theorem bindExpressions_under (policy : ReadPolicy) (tag : Markup.StartTag)
    (specs : List AttributeSpec) :
    (c.under policy).bindExpressions tag specs = c.bindExpressions tag specs := by
  induction specs with
  | nil => rfl
  | cons spec specs ih =>
    rw [bindExpressions, bindExpressions, ih]
    rfl

theorem directiveParts_under (policy : ReadPolicy) (tag : Markup.StartTag) (s : Signature) :
    (c.under policy).directiveParts tag s = c.directiveParts tag s := by
  unfold directiveParts
  rw [bindExpressions_under]

theorem directiveParts_lockstep (tag : Markup.StartTag) (s : Signature) :
    Lockstep c.resources [] ((c.under .report).directiveParts tag s)
      ((c.under .fatal).directiveParts tag s) := by
  rw [directiveParts_under, directiveParts_under]
  apply Lockstep.same
  intro p
  obtain ⟨u, q, parts⟩ := c.exists_parts ⟨tag, s⟩ p
  exact ⟨u, q, parts.run, parts.requested⟩

theorem importName_lockstep (i : Markup.Instruction) :
    Lockstep c.resources [] ((c.under .report).importName i) ((c.under .fatal).importName i) := by
  have same (policy : ReadPolicy) : (c.under policy).importName i = c.importName i := by
    simp only [importName, under]
  rw [same, same]
  unfold importName
  simp only
  split
  · exact Lockstep.modify fun _ => rfl
  · apply Lockstep.after Lockstep.get
    intro p
    split
    · exact Lockstep.modify fun _ => rfl
    · exact Lockstep.report _

theorem run_usePackage_lenient (space package : String) (anchor : Span) (p : Progress) :
    ∃ q, ((c.under .report).usePackage space package anchor).run p = (.ok (), q) ∧
      q.requested = p.requested ++ [c.config.descriptorResource package] := by
  have run := run_usePackage_eq (c.under .report) space package anchor p
  simp only [Registry.failure_usePackage] at run
  exact ⟨_, run, rfl⟩

theorem usePackage_lockstep (space package : String) (anchor : Span) :
    Lockstep c.resources [c.config.descriptorResource package]
      ((c.under .report).usePackage space package anchor)
      ((c.under .fatal).usePackage space package anchor) := by
  intro p
  have lenient := run_usePackage_eq (c.under .report) space package anchor p
  have strict := run_usePackage_eq (c.under .fatal) space package anchor p
  simp only [Registry.failure_usePackage] at lenient strict
  refine ⟨(), _, [c.config.descriptorResource package], lenient, rfl, List.Sublist.refl _, ?_⟩
  rw [List.findSome?_singleton]
  cases failed : readFailure? c.resources (c.config.descriptorResource package) with
  | none =>
    have equal (policy : ReadPolicy) : p.registry.usePackage (c.under policy).config
        (c.under policy).classes (c.under policy).resources space package anchor =
        p.registry.usePackage c.config c.classes c.resources space package anchor :=
      p.registry.usePackage_of_readable c.config c.classes c.resources space package anchor policy
        failed
    rw [strict, equal, equal]
    show ((readFailure? c.resources (c.config.descriptorResource package)).elim _ _, _) = _
    rw [failed]
    rfl
  | some failure =>
    simp only
    rw [strict]
    show (readFailure? c.resources (c.config.descriptorResource package)).elim _ _ = _
    rw [failed]
    rfl

theorem instruction_lockstep (i : Markup.Instruction) :
    Lockstep c.resources ((usedPackage? i).toList.map c.config.descriptorResource)
      ((c.under .report).instruction i) ((c.under .fatal).instruction i) := by
  unfold instruction usedPackage?
  by_cases imports : i.target = "import"
  · have other : ¬ i.target = "use" := by
      rw [imports]
      decide
    simp only [if_pos imports, if_neg other]
    exact c.importName_lockstep i
  · by_cases uses : i.target = "use"
    · simp only [if_neg imports, if_pos uses]
      cases splitUse? i.content with
      | none => exact Lockstep.report _
      | some parts => exact c.usePackage_lockstep _ _ _
    · simp only [if_neg imports, if_neg uses]
      exact Lockstep.pure _

mutual

theorem node_lockstep : (n : Markup.Node) →
    Lockstep c.resources ((usedPackages n).map c.config.descriptorResource)
      ((c.under .report).node n) ((c.under .fatal).node n)
  | .text t => Lockstep.pure _
  | .comment _ => Lockstep.pure _
  | .instruction i => by
    rw [node, node]
    exact (c.instruction_lockstep i).map fun _ => Lockstep.pure _
  | .element tag span stop children => by
    have inner := nodes_lockstep children
    rw [node, node]
    split
    · exact inner.map fun _ => Lockstep.pure _
    · apply Lockstep.after Lockstep.get
      intro p
      split
      · exact (Lockstep.report _).after fun _ => Lockstep.pure _
      · rename_i s found
        apply (c.directiveParts_lockstep tag s).after
        intro u
        apply Lockstep.retracting
        split
        · exact inner.map fun _ => Lockstep.pure _
        · split
          · exact (Lockstep.report _).after fun _ => Lockstep.pure _
          · exact Lockstep.pure _

theorem nodes_lockstep : (ns : List Markup.Node) →
    Lockstep c.resources ((usedPackagesAll ns).map c.config.descriptorResource)
      ((c.under .report).nodes ns) ((c.under .fatal).nodes ns)
  | [] => Lockstep.pure _
  | n :: ns => by
    rw [nodes, nodes, usedPackagesAll, List.map_append]
    apply (node_lockstep n).bind
    intro first
    exact (nodes_lockstep ns).map fun _ => Lockstep.pure _

end

theorem body_lockstep (source className : String) :
    Lockstep c.resources
      ((usedPackagesAll (Markup.parse source).nodes).map c.config.descriptorResource)
      ((c.under .report).body source className) ((c.under .fatal).body source className) := by
  refine Lockstep.after (Lockstep.modify fun _ => rfl) fun _ => ?_
  refine Lockstep.after (Lockstep.report _) fun _ => ?_
  exact Lockstep.retracting [thisName] (c.nodes_lockstep _)

theorem template_lockstep (source className : String) :
    Lockstep c.resources
      ((c.config.defaultPackage :: usedPackagesAll (Markup.parse source).nodes).map
        c.config.descriptorResource)
      ((c.under .report).template source className)
      ((c.under .fatal).template source className) :=
  (c.usePackage_lockstep c.config.defaultPrefix c.config.defaultPackage ⟨0, 0⟩).bind
    fun _ => c.body_lockstep source className

/-- The descriptors that a lenient compilation asks for: first the one of the default package. -/
theorem requested_template (source className : String) {nodes : List TemplateNode} {q : Progress}
    (run : ((c.under .report).template source className).run .start = (.ok nodes, q)) :
    ∃ used, used.Sublist (usedPackagesAll (Markup.parse source).nodes) ∧
      q.requested = (c.config.defaultPackage :: used).map c.config.descriptorResource := by
  obtain ⟨p, first, asked⟩ := c.run_usePackage_lenient (c.under .report).config.defaultPrefix
    (c.under .report).config.defaultPackage ⟨0, 0⟩ .start
  obtain ⟨nodes', q', rest, run', requested, among, -⟩ := c.body_lockstep source className p
  have whole : ((c.under .report).template source className).run .start = (.ok nodes', q') := by
    rw [template_eq, run_bind, first]
    exact run'
  rw [whole] at run
  cases run
  obtain ⟨used, sub, rfl⟩ := List.sublist_map_iff.mp among
  refine ⟨used, sub, ?_⟩
  rw [requested, asked]
  rfl

/-- Both policies give the same compilation as long as every descriptor that is opened can be
read. Under the lenient one every compilation comes to its end; under the strict one it ends with
the first descriptor that cannot be read, the default package before those of the document in
their order. A descriptor that cannot be opened ends neither. -/
theorem compile_lockstep (c : Compiler) (source className : String) :
    let lenient := (c.under .report).compile source className
    let strict := (c.under .fatal).compile source className
    (∃ nodes, lenient.result = .ok nodes) ∧
      (match lenient.progress.requested.findSome? (readFailure? c.resources) with
      | none => strict = lenient
      | some failure => strict.result = .error failure) ∧
      (∃ used, used.Sublist (usedPackagesAll (Markup.parse source).nodes) ∧
        lenient.progress.requested =
          (c.config.defaultPackage :: used).map c.config.descriptorResource) ∧
      ∀ failure, strict.result = .error failure →
        ∃ bytes, c.resources failure.resource = .stream bytes (some failure.cause) := by
  intro lenient strict
  obtain ⟨nodes, q, asked, run, requested, -, agree⟩ := c.template_lockstep source className .start
  have ended : lenient = ⟨.ok nodes, q⟩ := by
    show compile _ _ _ = _
    rw [compile_eq, run]
  have outcome : strict = _ := compile_eq (c.under .fatal) source className
  have all : q.requested = asked := requested
  rw [outcome, ended]
  refine ⟨⟨nodes, rfl⟩, ?_, c.requested_template source className run, ?_⟩
  · simp only
    rw [all]
    cases failed : asked.findSome? (readFailure? c.resources) with
    | none =>
      rw [failed] at agree
      simp only [agree]
    | some failure =>
      rw [failed] at agree
      exact agree
  · intro failure stopped
    cases failed : asked.findSome? (readFailure? c.resources) with
    | none =>
      rw [failed] at agree
      rw [agree] at stopped
      cases stopped
    | some failure' =>
      rw [failed] at agree
      simp only at agree stopped
      rw [agree] at stopped
      cases stopped
      obtain ⟨resource, -, cause⟩ := List.exists_of_findSome?_eq_some failed
      obtain ⟨rfl, unreadable⟩ := eq_of_readFailure? cause
      exact unreadable

end Compiler

end DirectiveTemplates
