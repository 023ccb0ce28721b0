import DirectiveTemplates.Proofs.Binding.Findings
import DirectiveTemplates.Proofs.Directive.Registry
import DirectiveTemplates.Proofs.Text.Trimming
import Mathlib.Data.List.TakeWhile

/-!
What directive tags mean. A tag means the directive that was registered last under its prefix and
its name, by the default package or by an instruction that the walk came to before the tag.
-/
namespace DirectiveTemplates

/-! Prefixes. -/

theorem Text.not_mem_of_splitFirst {sep : Char} {cs before after : List Char}
    (h : Text.splitFirst sep cs = some (before, after)) : sep ∉ before := by
  unfold splitFirst at h
  split at h
  · cases h
  · cases h
    intro mem
    have outside := List.mem_takeWhile_imp mem
    simp at outside

theorem Markup.not_mem_of_splitNamespace {tag space name : String}
    (h : Markup.splitNamespace tag = some (space, name)) : ':' ∉ space.toList := by
  unfold splitNamespace at h
  split at h
  · cases h
  · cases h
  · rename_i before after _ eq
    cases h
    rw [String.toList_ofList]
    exact Text.not_mem_of_splitFirst eq

theorem Compiler.not_mem_of_splitUse? {content space package : String}
    (h : Compiler.splitUse? content = some (space, package)) : ':' ∉ space.toList := by
  unfold splitUse? at h
  cases split : Text.splitFirst ':' content.toList with
  | none =>
    rw [split] at h
    cases h
  | some parts =>
    obtain ⟨before, after⟩ := parts
    simp only [split, Option.bind_eq_bind, Option.bind_some] at h
    split at h
    · cases h
    · cases h
      rw [String.toList_ofList]
      exact fun mem => Text.not_mem_of_splitFirst split (Text.trim_subset before mem)

namespace Registry

structure Holds (classes : ClassTable) (rs : List Registration) (r : Registry) : Prop where
  sound : r.Sound classes
  resolve : ∀ space, ':' ∉ space.toList → ∀ name, r.resolve space name = latest rs space name

/-- The directives that a package lists, in order; other classes are passed over. -/
def signatures (config : Config) (classes : ClassTable) (resources : Resources) (package : String) :
    List Signature :=
  match resources (config.descriptorResource package) with
  | .absent | .refused _ => []
  | .stream bytes failure =>
    (descriptorEntries bytes failure).filterMap fun entry =>
      (signatureOf classes (package ++ "." ++ entry)).toOption

namespace Holds

variable {classes : ClassTable} {rs : List Registration} {r : Registry} {space : String}

theorem empty (classes : ClassTable) : Holds classes [] Registry.empty :=
  ⟨sound_empty classes, fun _ _ _ => rfl⟩

theorem register (h : Holds classes rs r) (free : ':' ∉ space.toList) {s : Signature}
    (known : signatureOf classes s.owner = .ok s) :
    Holds classes (rs ++ [⟨space, s⟩]) (r.register space s) := by
  refine ⟨h.sound.register known space, ?_⟩
  intro space' free' name
  rw [latest_append, ← h.resolve space' free' name]
  simp only [Registry.resolve, Registry.register, OrderedMap.get?_insert, tag_inj free' free]

theorem enter (h : Holds classes rs r) (free : ':' ∉ space.toList) (name : String) :
    Holds classes (rs ++ (signatureOf classes name).toOption.toList.map (⟨space, ·⟩))
      (Registry.enter classes space r name).1 := by
  obtain ⟨found, sound⟩ := h.sound.describe name
  have kept : (r.describe classes name).2.directives = r.directives := directives_describe ..
  unfold Registry.enter
  generalize r.describe classes name = described at found sound kept
  obtain ⟨outcome, r'⟩ := described
  have holds : Holds classes rs r' := by
    refine ⟨sound, ?_⟩
    intro space' free' name'
    rw [← h.resolve space' free' name', Registry.resolve, Registry.resolve, ← kept]
  rw [← found]
  cases outcome with
  | error p =>
    rw [← List.append_nil rs] at holds
    exact holds
  | ok s =>
    have same : signatureOf classes name = .ok s := found.symm
    apply holds.register free
    rw [owner_of_signatureOf same]
    exact same

theorem enterAll (h : Holds classes rs r) (free : ':' ∉ space.toList) (names : List String) :
    Holds classes
      (rs ++ (names.filterMap fun name => (signatureOf classes name).toOption).map (⟨space, ·⟩))
      (Registry.enterAll classes space names r).1 := by
  induction names generalizing rs r with
  | nil => simpa [Registry.enterAll] using h
  | cons name names ih =>
    have all := ih (h.enter free name)
    rw [List.append_assoc, ← List.map_append] at all
    have first : (signatureOf classes name).toOption.toList ++
        names.filterMap (fun name => (signatureOf classes name).toOption) =
        (name :: names).filterMap fun name => (signatureOf classes name).toOption := by
      rw [List.filterMap_cons]
      cases (signatureOf classes name).toOption <;> rfl
    rw [first] at all
    exact all

theorem usePackage (h : Holds classes rs r) (free : ':' ∉ space.toList) (config : Config)
    (resources : Resources) (package : String) (anchor : Span) :
    Holds classes (rs ++ (signatures config classes resources package).map (⟨space, ·⟩))
      (r.usePackage config classes resources space package anchor).registry := by
  unfold signatures Registry.usePackage
  simp only
  cases resources (config.descriptorResource package) with
  | absent => simpa using h
  | refused message => simpa using h
  | stream bytes failure =>
    have all := h.enterAll free
      ((descriptorEntries bytes failure).map fun entry => package ++ "." ++ entry)
    rw [List.filterMap_map] at all
    cases failure with
    | none => exact all
    | some cause => exact all

end Holds

end Registry

namespace Compiler

open CompileM Markup

variable (c : Compiler)

def registrations (space package : String) : List Registration :=
  (Registry.signatures c.config c.classes c.resources package).map (⟨space, ·⟩)

def registeredBy : Node → List Registration
  | .instruction i =>
    if i.target = "use" then
      match splitUse? i.content with
      | some (space, package) => c.registrations space package
      | none => []
    else []
  | _ => []

mutual

def visitedIn (known : List Registration) : Node → List Node
  | .element tag span stop children =>
    .element tag span stop children ::
      if (Meaning.of (latest known) tag).takesContent then visitedAll known children else []
  | .text t => [.text t]
  | .comment t => [.comment t]
  | .instruction i => [.instruction i]

def visitedAll (known : List Registration) : List Node → List Node
  | [] => []
  | n :: ns =>
    visitedIn known n ++ visitedAll (known ++ (visitedIn known n).flatMap c.registeredBy) ns

end

variable {c}

theorem holds_instruction {rs : List Registration} {p : Progress}
    (h : p.registry.Holds c.classes rs) (i : Instruction) :
    ((c.instruction i).run p).2.registry.Holds c.classes
      (rs ++ c.registeredBy (.instruction i)) := by
  simp only [registeredBy]
  by_cases isImport : i.target = "import"
  · have imported : ((c.importName i).run p).2.registry = p.registry := by
      unfold importName
      simp only
      split
      · rfl
      · simp only [run_bind, run_get]
        split <;> rfl
    have other : i.target ≠ "use" := by
      rw [isImport]
      decide
    rw [instruction, if_pos isImport, if_neg other, List.append_nil, imported]
    exact h
  · rw [instruction, if_neg isImport]
    split
    · cases used : splitUse? i.content with
      | none =>
        rw [List.append_nil]
        exact h
      | some parts =>
        obtain ⟨space, package⟩ := parts
        simp only [run_usePackage_eq]
        exact h.usePackage (not_mem_of_splitUse? used) c.config c.resources package i.contentSpan
    · rw [List.append_nil]
      exact h

theorem meaning_of_holds {rs : List Registration} {r : Registry} (h : r.Holds c.classes rs)
    (tag : StartTag) : Meaning.of r.resolve tag = Meaning.of (latest rs) tag := by
  unfold Meaning.of
  cases named : splitNamespace tag.name with
  | none => rfl
  | some parts =>
    obtain ⟨space, name⟩ := parts
    simp only [h.resolve space (not_mem_of_splitNamespace named) name]

theorem registry_own (tag : StartTag) (span : Span) (stop : Option Span) (children : List Node)
    (p : Progress) : (c.own (.element tag span stop children) p).registry = p.registry := by
  obtain ⟨scope, eq⟩ := c.own_element tag span stop children p
  rw [eq]
  rfl

theorem tracks_registry : c.Tracks (fun rs p => p.registry.Holds c.classes rs)
    (fun a => c.registeredBy a.node) := by
  constructor
  · intro rs p s h
    exact h
  · intro rs n p h
    cases n with
    | text t | comment t =>
      simp only [registeredBy, List.append_nil]
      exact h
    | instruction i => exact holds_instruction h i
    | element tag span stop children =>
      simp only [registeredBy, List.append_nil, registry_own]
      exact h

mutual

/-- The walk visits a node up to its first failure, if there is one. -/
theorem arrivalsIn_visited {rs : List Registration} : (n : Node) → (p : Progress) →
    p.registry.Holds c.classes rs →
      ((c.arrivalsIn n p).map (·.node)) <+: c.visitedIn rs n ∧
        ∀ ts q, (c.node n).run p = (.ok ts, q) →
          (c.arrivalsIn n p).map (·.node) = c.visitedIn rs n
  | .text _, p, _ | .comment _, p, _ | .instruction _, p, _ => by
    rw [arrivalsIn, visitedIn]
    exact ⟨List.prefix_rfl, fun _ _ _ => rfl⟩
  | .element tag span stop children, p, h => by
    obtain ⟨wrap, names, -, run⟩ := c.run_element tag span stop children p
    rw [arrivalsIn, visitedIn, List.map_cons, ← meaning_of_holds h tag, run]
    unfold inside
    split
    · have own : (c.own (.element tag span stop children) p).registry.Holds c.classes rs := by
        rw [registry_own]
        exact h
      obtain ⟨front, all⟩ := arrivalsAll_visited children _ own
      refine ⟨(List.prefix_cons_inj _).mpr front, ?_⟩
      intro ts q ok
      obtain ⟨ts', outcome, -⟩ := exists_of_map_ok (congrArg Prod.fst ok)
      rw [all ts' _ (Prod.ext outcome rfl)]
    · exact ⟨List.prefix_rfl, fun _ _ _ => rfl⟩

theorem arrivalsAll_visited {rs : List Registration} : (ns : List Node) → (p : Progress) →
    p.registry.Holds c.classes rs →
      ((c.arrivalsAll ns p).map (·.node)) <+: c.visitedAll rs ns ∧
        ∀ ts q, (c.nodes ns).run p = (.ok ts, q) →
          (c.arrivalsAll ns p).map (·.node) = c.visitedAll rs ns
  | [], p, _ => ⟨List.prefix_rfl, fun _ _ _ => rfl⟩
  | n :: ns, p, h => by
    obtain ⟨front, all⟩ := arrivalsIn_visited n p h
    obtain ⟨known, -⟩ := tracks_registry.node n p rs h
    rw [arrivalsAll, visitedAll, List.map_append, Compiler.nodes, run_bind]
    cases run : (c.node n).run p with
    | mk outcome q =>
      rw [run] at known
      cases outcome with
      | error e =>
        rw [List.map_nil, List.append_nil]
        exact ⟨front.trans (List.prefix_append _ _), fun ts q ok => by cases ok⟩
      | ok ts =>
        have here := all ts q run
        have registered : (c.arrivalsIn n p).flatMap (fun a => c.registeredBy a.node) =
            (c.visitedIn rs n).flatMap c.registeredBy := by
          rw [← here, List.flatMap_map]
        rw [registered] at known
        obtain ⟨front', all'⟩ := arrivalsAll_visited ns q known
        simp only [here, run_map]
        refine ⟨(List.prefix_append_right_inj _).mpr front', ?_⟩
        intro ts' q' ok
        obtain ⟨rest, outcome, -⟩ := exists_of_map_ok (congrArg Prod.fst ok)
        rw [all' rest _ (Prod.ext outcome rfl)]

end

variable (c)

def defaultRegistrations : List Registration :=
  c.registrations c.config.defaultPrefix c.config.defaultPackage

def registeredBefore (before : List Arrival) : List Registration :=
  c.defaultRegistrations ++ before.flatMap fun a => c.registeredBy a.node

structure ComesTo (source className : String) (before : List Arrival) (a : Arrival)
    (tag : StartTag) (space name : String) : Prop where
  arrived : ∃ after, c.arrivals source className = before ++ a :: after
  element : ∃ span stop children, a.node = .element tag span stop children
  named : splitNamespace tag.name = some (space, name)

structure Resolves (source className : String) : Prop where
  /-- The walk visits nodes in document order, up to its first failure. It leaves out what is inside
  a directive that is not defined or takes no content. -/
  visits : (c.arrivals source className).map (·.node) <+:
    c.visitedAll c.defaultRegistrations (parse source).nodes
  /-- A tag means the directive that the default package or an instruction before it registered
  last under its prefix. -/
  meaning : ∀ before a tag space name, c.ComesTo source className before a tag space name →
    a.progress.registry.resolve space name = latest (c.registeredBefore before) space name
  /-- Without a directive, an element is one problem and leaves nothing else. -/
  undefined : ∀ before a tag space name, c.ComesTo source className before a tag space name →
    latest (c.registeredBefore before) space name = none →
      (c.node a.node).run a.progress = (.ok [], a.progress.report
        [⟨tag.nameSpan, (TemplateProblem.undefinedDirective tag.name).message⟩])
  defined : ∀ before a tag space name s, c.ComesTo source className before a tag space name →
    latest (c.registeredBefore before) space name = some s →
      ∀ ts q, (c.node a.node).run a.progress = (.ok ts, q) →
        ∃ u content, ts = [.directive u content] ∧ u.Of s
  /-- A compilation that ends well visits everything, and its uses are those it came to. -/
  complete : ∀ nodes, (c.compile source className).result = .ok nodes →
    (c.arrivals source className).map (·.node) =
        c.visitedAll c.defaultRegistrations (parse source).nodes ∧
      List.Forall₂ DirectiveUse.Of (TemplateNode.usesAll nodes)
        ((c.arrivals source className).filterMap Arrival.signature?)

section Elements

variable {c} {tag : StartTag} {p : Progress} {space name : String}

theorem run_undefined (named : splitNamespace tag.name = some (space, name))
    (missing : p.registry.resolve space name = none) (span : Span) (stop : Option Span)
    (children : List Node) :
    (c.node (.element tag span stop children)).run p = (.ok [], p.report
      [⟨tag.nameSpan, (TemplateProblem.undefinedDirective tag.name).message⟩]) := by
  rw [Compiler.node, named]
  simp only
  rw [run_bind, run_get]
  simp only [missing]
  rfl

theorem run_defined (named : splitNamespace tag.name = some (space, name)) {s : Signature}
    (found : p.registry.resolve space name = some s) {span : Span} {stop : Option Span}
    {children : List Node} {ts : List TemplateNode} {q : Progress}
    (run : (c.node (.element tag span stop children)).run p = (.ok ts, q)) :
    ∃ u content, ts = [.directive u content] ∧ u.Of s := by
  obtain ⟨u, r, parts⟩ := c.exists_parts ⟨tag, s⟩ p
  have use := c.of_directiveParts parts.run
  have bound : (c.directiveParts tag s).run p = (.ok u, r) := parts.run
  rw [Compiler.node, named] at run
  simp only at run
  rw [run_bind, run_get] at run
  simp only [found] at run
  rw [run_bind, bound] at run
  simp only at run
  rw [run_retracting] at run
  split at run
  · rw [run_map] at run
    obtain ⟨content, -, rfl⟩ := exists_of_map_ok (congrArg Prod.fst run)
    exact ⟨u, content, rfl, use⟩
  · split at run
    all_goals
      cases run
      exact ⟨u, [], rfl, use⟩

end Elements

/-- Directives are resolved in document order, when the default prefix can be that of a tag. -/
theorem compile_resolves (free : ':' ∉ c.config.defaultPrefix.toList) (source className : String) :
    c.Resolves source className := by
  have start : (c.entered source className).registry.Holds c.classes c.defaultRegistrations := by
    rw [entered_eq]
    exact (Registry.Holds.empty c.classes).usePackage free c.config c.resources _ _
  have along : Along (fun rs p => p.registry.Holds c.classes rs) (fun a => c.registeredBy a.node)
      c.defaultRegistrations (c.arrivals source className) := by
    unfold arrivals
    split
    · exact trivial
    · exact (tracks_registry.nodes (parse source).nodes _ _ start).2
  have meaning : ∀ before a tag space name, c.ComesTo source className before a tag space name →
      a.progress.registry.resolve space name = latest (c.registeredBefore before) space name := by
    intro before a tag space name comes
    obtain ⟨after, arrived⟩ := comes.arrived
    rw [arrived] at along
    exact along.at.resolve space (not_mem_of_splitNamespace comes.named) name
  refine ⟨?_, meaning, ?_, ?_, ?_⟩
  · unfold arrivals
    split
    · exact List.nil_prefix
    · exact (arrivalsAll_visited _ _ start).1
  · intro before a tag space name comes none
    obtain ⟨span, stop, children, node⟩ := comes.element
    rw [node]
    exact run_undefined comes.named ((meaning _ _ _ _ _ comes).trans none) span stop children
  · intro before a tag space name s comes some ts q run
    obtain ⟨span, stop, children, node⟩ := comes.element
    rw [node] at run
    exact run_defined comes.named ((meaning _ _ _ _ _ comes).trans some) run
  · intro nodes ok
    have used := c.default_of_ok ok
    obtain ⟨scope, compiled⟩ := c.compile_of_default used source className
    rw [compiled] at ok
    have run : (c.nodes (parse source).nodes).run (c.entered source className) = (.ok nodes, _) :=
      Prod.ext ok rfl
    rw [c.arrivals_of_default used]
    exact ⟨(arrivalsAll_visited _ _ start).2 _ _ run, c.uses_arrivalsAll _ _ _ _ run⟩

/-- The standard package under a prefix of its own, for templates that do not use expressions. -/
def underPrefix (space : String) : Compiler :=
  ⟨{ defaultPrefix := space }, .standard,
    Resources.withStandard "META-INF/flavour/directive-packages" fun _ => .absent,
    fun _ _ _ _ => ⟨.invalid, []⟩⟩

/-- A tag before and a tag behind the instruction that gives both a meaning, in an element. -/
def lateUse : String :=
  "<x:if condition=''/><p><?use x: flavour.directives?></p><x:if condition=''/>"

theorem compile_resolves_late_use :
    ':' ∉ (underPrefix "s").config.defaultPrefix.toList ∧
      (underPrefix "s").Resolves lateUse "Page" ∧
      ((underPrefix "s").compile lateUse "Page").progress.diagnostics.map (·.span) = [⟨1, 5⟩] ∧
      ((underPrefix "s").compile lateUse "Page").result.toOption.map
        (fun nodes => (TemplateNode.usesAll nodes).map (·.name)) = some ["if"] := by
  have free : ':' ∉ (underPrefix "s").config.defaultPrefix.toList := by decide
  refine ⟨free, compile_resolves (underPrefix "s") free lateUse "Page", ?_⟩
  decide +kernel

end Compiler

end DirectiveTemplates
