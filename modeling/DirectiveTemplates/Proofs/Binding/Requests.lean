import DirectiveTemplates.Proofs.Binding.Lockstep
import DirectiveTemplates.Proofs.Files.Descent
import DirectiveTemplates.Proofs.Text.QualifiedName

/-!
The descriptors that a template makes a compilation ask for. The packages it uses have normalized
names, so below a root that leads down their descriptors stay below the directory of the resources;
and nothing else of the resources has a part in the compilation.
-/
namespace DirectiveTemplates

def Compiler.reading (c : Compiler) (resources : Resources) : Compiler :=
  { c with resources := resources }

namespace CompileM

variable {α β : Type}

/-- The first step asks for some of the descriptors `may`, in their order. With resources that are
the same under the names it asks for, the second step does what the first one does. -/
def Asks (resources other : Resources) (may : List String) (x y : CompileM α) : Prop :=
  ∀ p, ∃ asked, (x.run p).2.requested = p.requested ++ asked ∧ asked.Sublist may ∧
    ((∀ name ∈ asked, other name = resources name) → y.run p = x.run p)

namespace Asks

variable {resources other : Resources} {may may' : List String} {x y : CompileM α}

theorem nothing (h : ∀ p, (x.run p).2.requested = p.requested) :
    Asks resources other may x x := by
  intro p
  exact ⟨[], by rw [h, List.append_nil], List.nil_sublist _, fun _ => rfl⟩

theorem pure (a : α) : Asks resources other may (pure a) (pure a) :=
  nothing fun _ => rfl

theorem report (ds : List Diagnostic) : Asks resources other may (report ds) (report ds) :=
  nothing fun _ => rfl

theorem get : Asks resources other may MonadState.get MonadState.get :=
  nothing fun _ => rfl

theorem modify {f : Progress → Progress} (requested : ∀ p, (f p).requested = p.requested) :
    Asks resources other may (modify f : CompileM Unit) (modify f) :=
  nothing fun p => requested p

theorem bind {f g : α → CompileM β} (first : Asks resources other may x y)
    (next : ∀ a, Asks resources other may' (f a) (g a)) :
    Asks resources other (may ++ may') (x >>= f) (y >>= g) := by
  intro p
  obtain ⟨asked, requested, among, same⟩ := first p
  rw [run_bind, run_bind]
  cases run : x.run p with
  | mk outcome q =>
    rw [run] at requested same
    cases outcome with
    | error e =>
      refine ⟨asked, requested, among.trans (List.sublist_append_left _ _), ?_⟩
      intro agree
      rw [same agree]
    | ok a =>
      obtain ⟨asked', requested', among', same'⟩ := next a q
      refine ⟨asked ++ asked', ?_, among.append among', ?_⟩
      · rw [requested', requested, List.append_assoc]
      · intro agree
        rw [same fun name mem => agree name (List.mem_append_left _ mem)]
        exact same' fun name mem => agree name (List.mem_append_right _ mem)

/-- Two steps of which only the first asks for anything. -/
theorem map {f g : α → CompileM β} (first : Asks resources other may x y)
    (next : ∀ a, Asks resources other [] (f a) (g a)) :
    Asks resources other may (x >>= f) (y >>= g) := by
  have both := first.bind next
  rw [List.append_nil] at both
  exact both

/-- Two steps of which only the second asks for anything. -/
theorem after {f g : α → CompileM β} (first : Asks resources other [] x y)
    (next : ∀ a, Asks resources other may (f a) (g a)) :
    Asks resources other may (x >>= f) (y >>= g) :=
  first.bind next

theorem retracting (names : List String) (h : Asks resources other may x y) :
    Asks resources other may (retracting names x) (retracting names y) := by
  intro p
  obtain ⟨asked, requested, among, same⟩ := h p
  refine ⟨asked, ?_, among, ?_⟩
  · rw [Compiler.run_retracting, Compiler.foldl_retract]
    exact requested
  · intro agree
    rw [Compiler.run_retracting, Compiler.run_retracting, same agree]

end Asks

end CompileM

/-- Using a package reads its descriptor and no other resource. -/
theorem Registry.usePackage_of_same_descriptor {config : Config} {resources other : Resources}
    {package : String}
    (same : other (config.descriptorResource package) =
      resources (config.descriptorResource package))
    (classes : ClassSource) (space : String) (anchor : Span) (r : Registry) :
    r.usePackage config classes other space package anchor =
      r.usePackage config classes resources space package anchor := by
  simp only [usePackage, same]

namespace Compiler

open CompileM

variable (c : Compiler) (other : Resources)

theorem bindExpressions_reading (tag : Markup.StartTag) (specs : List AttributeSpec) :
    (c.reading other).bindExpressions tag specs = c.bindExpressions tag specs := by
  induction specs with
  | nil => rfl
  | cons spec specs ih =>
    rw [bindExpressions, bindExpressions, ih]
    rfl

theorem directiveParts_asks (tag : Markup.StartTag) (s : Signature) :
    Asks c.resources other [] (c.directiveParts tag s)
      ((c.reading other).directiveParts tag s) := by
  have same : (c.reading other).directiveParts tag s = c.directiveParts tag s := by
    unfold directiveParts
    rw [bindExpressions_reading]
  rw [same]
  apply Asks.nothing
  intro p
  obtain ⟨u, q, parts⟩ := c.exists_parts ⟨tag, s⟩ p
  have run : (c.directiveParts tag s).run p = (.ok u, q) := parts.run
  rw [run]
  exact parts.requested

theorem importName_asks (i : Markup.Instruction) :
    Asks c.resources other [] (c.importName i) ((c.reading other).importName i) := by
  have same : (c.reading other).importName i = c.importName i := by
    simp only [importName, reading]
  rw [same]
  unfold importName
  simp only
  split
  · exact Asks.modify fun _ => rfl
  · apply Asks.after Asks.get
    intro p
    split
    · exact Asks.modify fun _ => rfl
    · exact Asks.report _

theorem usePackage_asks (space package : String) (anchor : Span) :
    Asks c.resources other [c.config.descriptorResource package]
      (c.usePackage space package anchor) ((c.reading other).usePackage space package anchor) := by
  intro p
  rw [run_usePackage_eq, run_usePackage_eq]
  refine ⟨[c.config.descriptorResource package], rfl, List.Sublist.refl _, ?_⟩
  intro agree
  have same := Registry.usePackage_of_same_descriptor (agree _ (List.mem_singleton_self _))
    c.classes space anchor p.registry
  simp only [reading, same]

theorem instruction_asks (i : Markup.Instruction) :
    Asks c.resources other ((usedPackage? i).toList.map c.config.descriptorResource)
      (c.instruction i) ((c.reading other).instruction i) := by
  unfold instruction usedPackage?
  by_cases imports : i.target = "import"
  · have others : ¬ i.target = "use" := by
      rw [imports]
      decide
    simp only [if_pos imports, if_neg others]
    exact c.importName_asks other i
  · by_cases uses : i.target = "use"
    · simp only [if_neg imports, if_pos uses]
      cases splitUse? i.content with
      | none => exact Asks.report _
      | some parts => exact c.usePackage_asks other _ _ _
    · simp only [if_neg imports, if_neg uses]
      exact Asks.pure _

mutual

theorem node_asks : (n : Markup.Node) →
    Asks c.resources other ((usedPackages n).map c.config.descriptorResource)
      (c.node n) ((c.reading other).node n)
  | .text t => Asks.pure _
  | .comment _ => Asks.pure _
  | .instruction i => by
    rw [node, node]
    exact (c.instruction_asks other i).map fun _ => Asks.pure _
  | .element tag span stop children => by
    have inner := nodes_asks children
    rw [node, node]
    split
    · exact inner.map fun _ => Asks.pure _
    · apply Asks.after Asks.get
      intro p
      split
      · exact (Asks.report _).after fun _ => Asks.pure _
      · rename_i s found
        apply (c.directiveParts_asks other tag s).after
        intro u
        apply Asks.retracting
        split
        · exact inner.map fun _ => Asks.pure _
        · split
          · exact (Asks.report _).after fun _ => Asks.pure _
          · exact Asks.pure _

theorem nodes_asks : (ns : List Markup.Node) →
    Asks c.resources other ((usedPackagesAll ns).map c.config.descriptorResource)
      (c.nodes ns) ((c.reading other).nodes ns)
  | [] => Asks.pure _
  | n :: ns => by
    rw [nodes, nodes, usedPackagesAll, List.map_append]
    apply (node_asks n).bind
    intro first
    exact (nodes_asks ns).map fun _ => Asks.pure _

end

theorem body_asks (source className : String) :
    Asks c.resources other
      ((usedPackagesAll (Markup.parse source).nodes).map c.config.descriptorResource)
      (c.body source className) ((c.reading other).body source className) := by
  refine Asks.after (Asks.modify fun _ => rfl) fun _ => ?_
  refine Asks.after (Asks.report _) fun _ => ?_
  exact Asks.retracting [thisName] (c.nodes_asks other _)

theorem template_asks (source className : String) :
    Asks c.resources other
      ((c.config.defaultPackage :: usedPackagesAll (Markup.parse source).nodes).map
        c.config.descriptorResource)
      (c.template source className) ((c.reading other).template source className) :=
  (c.usePackage_asks other c.config.defaultPrefix c.config.defaultPackage ⟨0, 0⟩).bind
    fun _ => c.body_asks other source className

/-- A compilation asks for the descriptor of the default package first, and then for those of
packages that instructions use. -/
theorem requested_compile (source className : String) :
    ∃ packages, packages.Sublist (usedPackagesAll (Markup.parse source).nodes) ∧
      (c.compile source className).progress.requested =
        (c.config.defaultPackage :: packages).map c.config.descriptorResource := by
  have first := congrArg (fun r => r.2.requested)
    (c.run_usePackage_eq c.config.defaultPrefix c.config.defaultPackage ⟨0, 0⟩ .start)
  rw [compile_eq, template_eq, run_bind]
  cases used : (c.usePackage c.config.defaultPrefix c.config.defaultPackage ⟨0, 0⟩).run .start with
  | mk outcome p =>
    rw [used] at first
    cases outcome with
    | error e => exact ⟨[], List.nil_sublist _, first⟩
    | ok _ =>
      obtain ⟨asked, requested, among, -⟩ := c.body_asks c.resources source className p
      obtain ⟨packages, sub, rfl⟩ := List.sublist_map_iff.mp among
      exact ⟨packages, sub, requested.trans (congrArg (· ++ _) first)⟩

/-- A compilation depends on the resources under the names it asks for, and under no others. -/
theorem compile_reading (source className : String)
    (agree : ∀ name ∈ (c.compile source className).progress.requested,
      other name = c.resources name) :
    (c.reading other).compile source className = c.compile source className := by
  obtain ⟨asked, requested, -, same⟩ := c.template_asks other source className .start
  rw [compile_eq, compile_eq, same]
  intro name mem
  apply agree name
  rw [compile_eq]
  show name ∈ ((c.template source className).run .start).2.requested
  rw [requested]
  exact List.mem_append_right _ mem

theorem spaced_of_usedPackage? {i : Markup.Instruction} {package : String}
    (used : usedPackage? i = some package) :
    package ≠ "" ∧ QualifiedName.Spaced package.toList := by
  unfold usedPackage? at used
  split at used
  · obtain ⟨⟨space, package⟩, parsed, rfl⟩ := Option.map_eq_some_iff.mp used
    unfold splitUse? at parsed
    cases split : Text.splitFirst ':' i.content.toList with
    | none =>
      rw [split] at parsed
      cases parsed
    | some parts =>
      obtain ⟨before, after⟩ := parts
      simp only [split, Option.bind_eq_bind, Option.bind_some] at parsed
      split at parsed
      · cases parsed
      · rename_i given
        cases parsed
        refine ⟨?_, QualifiedName.spaced_normalize _⟩
        intro empty
        exact given (Or.inr (String.isEmpty_iff.mpr empty))
  · cases used

mutual

theorem spaced_of_mem_usedPackages {package : String} : (n : Markup.Node) →
    package ∈ usedPackages n → package ≠ "" ∧ QualifiedName.Spaced package.toList
  | .instruction _, mem => spaced_of_usedPackage? (Option.mem_toList.mp mem)
  | .element _ _ _ children, mem => spaced_of_mem_usedPackagesAll children mem

theorem spaced_of_mem_usedPackagesAll {package : String} : (ns : List Markup.Node) →
    package ∈ usedPackagesAll ns → package ≠ "" ∧ QualifiedName.Spaced package.toList
  | n :: ns, mem => by
    rcases List.mem_append.mp mem with mem | mem
    · exact spaced_of_mem_usedPackages n mem
    · exact spaced_of_mem_usedPackagesAll ns mem

end

/-- What a template makes a compilation ask for, besides the descriptor of the default package, is
below the root of the descriptors: each name is that root, a slash and the name of a package that an
instruction uses, without two dots together and without dots or white space at its ends. From every
directory the path of such a name leads down, and so does the walk along it through any files. The
compilation depends on no resource but those it asks for. -/
theorem requests_stay_below (source className : String)
    (rooted : Files.Descends (Config.trimRoot c.config.descriptorRoot)) :
    let requested := (c.compile source className).progress.requested
    (∃ packages, packages.Sublist (usedPackagesAll (Markup.parse source).nodes) ∧
      requested = (c.config.defaultPackage :: packages).map c.config.descriptorResource ∧
      ∀ package ∈ packages,
        let name := c.config.descriptorResource package
        package ≠ "" ∧ QualifiedName.Spaced package.toList ∧
        name = Config.trimRoot c.config.descriptorRoot ++ "/" ++ package ∧
        Files.Descends name ∧
        ∀ directory,
          Files.Location.ofPath directory <+: Files.Location.ofPath (Files.join directory name) ∧
          ∀ (tree : Files.FileTree) place, tree.find (Files.join directory name) = .ok place →
            Files.Location.ofPath directory <+: place.location) ∧
    ∀ other, (∀ name ∈ requested, other name = c.resources name) →
      (c.reading other).compile source className = c.compile source className := by
  intro requested
  obtain ⟨packages, sub, asked⟩ := c.requested_compile source className
  refine ⟨⟨packages, sub, asked, ?_⟩, fun other => c.compile_reading other source className⟩
  intro package mem name
  obtain ⟨ne, spaced⟩ := spaced_of_mem_usedPackagesAll _ (sub.subset mem)
  have descends : Files.Descends name := rooted.slash (Files.not_mem_parts spaced.apart)
  refine ⟨ne, spaced, rfl, descends, ?_⟩
  intro directory
  refine ⟨descends.below directory, ?_⟩
  intro tree place found
  rw [Files.FileTree.location_of_find found]
  exact descends.below directory

/-- The standard package below a root of descriptors, for templates that do not use expressions. -/
def underRoot (root : String) : Compiler :=
  ⟨{ descriptorRoot := root }, .standard, Resources.withStandard root fun _ => .absent,
    fun _ _ _ _ => ⟨.invalid, []⟩⟩

/-- Dots, white space and slashes in the names of two packages. -/
def steppingSource : String :=
  "<?use a: /x . . / .. y ?><p><?use b:\n..app.\u00a0.widgets.?></p>"

theorem requests_stay_below_of_steppingSource :
    Files.Descends (Config.trimRoot (underRoot "packages//").config.descriptorRoot) ∧
      ((underRoot "packages//").compile steppingSource "Page").progress.requested =
        ["packages/flavour.directives", "packages//x./.y", "packages/app.widgets"] ∧
      Files.Descends "packages//x./.y" ∧ Files.Descends "packages/app.widgets" := by
  have relative : (Config.trimRoot (underRoot "packages//").config.descriptorRoot).startsWith "/" =
      false := by
    rw [String.startsWith_string_eq_false_iff]
    decide +kernel
  have rooted : Files.Descends (Config.trimRoot (underRoot "packages//").config.descriptorRoot) :=
    ⟨by decide +kernel, relative, by decide +kernel⟩
  have asked : ((underRoot "packages//").compile steppingSource "Page").progress.requested =
      ["packages/flavour.directives", "packages//x./.y", "packages/app.widgets"] := by
    decide +kernel
  obtain ⟨⟨packages, -, requested, all⟩, -⟩ :=
    requests_stay_below (underRoot "packages//") steppingSource "Page" rooted
  have descriptors : packages.map (underRoot "packages//").config.descriptorResource =
      ["packages//x./.y", "packages/app.widgets"] :=
    (List.cons_eq_cons.mp (requested.symm.trans asked)).2
  have below {name : String} (mem : name ∈ ["packages//x./.y", "packages/app.widgets"]) :
      Files.Descends name := by
    rw [← descriptors] at mem
    obtain ⟨package, used, rfl⟩ := List.mem_map.mp mem
    exact (all package used).2.2.2.1
  exact ⟨rooted, asked, below (by simp), below (by simp)⟩

end Compiler

end DirectiveTemplates
