import DirectiveTemplates.Proofs.Binding.Findings
import DirectiveTemplates.Proofs.Binding.Paths

/-!
The diagnostics of a compilation: where each of them comes from, in which order they stand and what
they point at.
-/
namespace DirectiveTemplates

theorem Registry.span_of_mem_usePackage {config : Config} {classes : ClassTable}
    {resources : Resources} {space package : String} {anchor : Span} {r : Registry} {d : Diagnostic}
    (mem : d ∈ (r.usePackage config classes resources space package anchor).diagnostics) :
    d.span = anchor := by
  unfold usePackage at mem
  simp only at mem
  split at mem
  · rw [List.mem_singleton.mp mem]
  · rw [List.mem_singleton.mp mem]
  · split at mem
    all_goals
      obtain ⟨_, -, rfl⟩ := List.mem_map.mp mem
      rfl

namespace Compiler

open CompileM Markup

variable (c : Compiler)

/-- What a compilation finds in its template, in the order of the walk. -/
def found (source className : String) : List Finding :=
  (c.arrivals source className).flatMap c.findings

theorem diagnostics_entered (source className : String) :
    (c.entered source className).diagnostics =
      c.defaultUse.diagnostics ++ (parse source).problems := by
  rw [entered_eq]

variable {c}

/-! What findings point at. -/

section spans

variable {source : String} {tag : StartTag} {span : Span} {stop : Option Span}
  {children : List Node}

theorem missing_anchored (fits : TagFits source.toList tag) (spec : AttributeSpec) :
    Anchored source.toList (missing tag spec) := by
  intro d mem
  unfold missing at mem
  split at mem
  · rw [List.mem_singleton.mp mem]
    exact fits.within.aligned
  · cases mem

theorem mem_of_attribute? {name : String} {a : Attribute} (given : tag.attribute? name = some a) :
    a ∈ tag.attributes :=
  List.mem_of_find?_eq_some given

theorem variableProblems_anchored (fits : TagFits source.toList tag) (specs : List AttributeSpec)
    (names : List String) : Anchored source.toList (variableProblems tag specs names) := by
  induction specs generalizing names with
  | nil =>
    intro d mem
    cases mem
  | cons spec specs ih =>
    rw [variableProblems]
    apply (missing_anchored fits spec).append
    cases given : tag.attribute? spec.name with
    | none => exact ih names
    | some a =>
      have written := fits.attributes.of_mem (mem_of_attribute? given)
      simp only
      split
      · intro d mem
        rcases List.mem_cons.mp mem with rfl | mem
        · exact written.valueOrNameSpan
        · exact ih names d mem
      · exact ih _

theorem contentProblems_anchored (s : Signature) (aligned : span.Aligned source.toList) :
    Anchored source.toList (contentProblems s span children) := by
  intro d mem
  unfold contentProblems at mem
  split at mem
  · rw [List.mem_singleton.mp mem]
    exact aligned
  · cases mem

theorem span_of_mem_instructionProblems {i : Instruction} {p : Progress} {d : Diagnostic}
    (mem : d ∈ c.instructionProblems i p) : d.span = i.contentSpan := by
  unfold instructionProblems at mem
  split at mem
  · simp only at mem
    split at mem
    · rw [List.mem_singleton.mp mem]
    · cases mem
  · split at mem
    · split at mem
      · exact Registry.span_of_mem_usePackage mem
      · rw [List.mem_singleton.mp mem]
    · cases mem

/-- A text is the value of an attribute that stands in a start tag of a template. -/
def IsValue (source text : String) (offset : Nat) : Prop :=
  ∃ tag span stop children, .element tag span stop children ∈ preorderAll (parse source).nodes ∧
    ∃ a ∈ tag.attributes, text = a.value ∧ offset = a.valueOffset

/-- A problem is anchored in the template, and what is compiled stands there. -/
def Placed (source : String) : Finding → Prop
  | .problem d => d.span.Aligned source.toList
  | .compiled call => IsValue source call.text call.offset

theorem Placed.problems {ds : List Diagnostic} (anchored : Anchored source.toList ds) :
    ∀ f ∈ ds.map Finding.problem, Placed source f := by
  intro f mem
  obtain ⟨d, mem', rfl⟩ := List.mem_map.mp mem
  exact anchored d mem'

theorem expressionFindings_placed
    (here : .element tag span stop children ∈ preorderAll (parse source).nodes) (scope : Scope)
    (imports : Imports) (specs : List AttributeSpec) :
    ∀ f ∈ expressionFindings tag scope imports specs, Placed source f := by
  obtain ⟨_, fits, -⟩ := parse_fits here
  intro f mem
  obtain ⟨spec, -, mem⟩ := List.mem_flatMap.mp mem
  rcases List.mem_append.mp mem with mem | mem
  · exact Placed.problems (missing_anchored fits spec) f mem
  · obtain ⟨a, given, rfl⟩ := List.mem_map.mp mem
    have among := mem_of_attribute? (Option.mem_toList.mp given)
    exact ⟨tag, span, stop, children, here, a, among, rfl, rfl⟩

/-- Everything that is found at a node of the template has its place there. -/
theorem findings_placed {a : Arrival} (here : a.node ∈ preorderAll (parse source).nodes) :
    ∀ f ∈ c.findings a, Placed source f := by
  obtain ⟨n, p⟩ := a
  intro f mem
  unfold findings at mem
  cases n with
  | text t => cases mem
  | comment t => cases mem
  | instruction i =>
    obtain ⟨_, (fits : InstructionFits source.toList i)⟩ := parse_fits here
    refine Placed.problems ?_ f mem
    intro d problem
    rw [span_of_mem_instructionProblems problem]
    exact fits.content.aligned
  | element tag span stop children =>
    obtain ⟨_, fits, -⟩ := parse_fits here
    simp only at mem
    split at mem
    · cases mem
    · rw [List.mem_singleton.mp mem]
      exact fits.name.aligned
    · simp only [directiveFindings, List.mem_append] at mem
      rcases mem with variable' | expression | content
      · exact Placed.problems (variableProblems_anchored fits _ _) f variable'
      · exact expressionFindings_placed here _ _ _ f expression
      · exact Placed.problems (contentProblems_anchored _ (element_aligned here)) f content

theorem IsValue.shift {text : String} {offset : Nat} {s : Span} (value : IsValue source text offset)
    (inside : s.Aligned text.toList) :
    (s.shift offset).Aligned source.toList ∧ (s.shift offset).slice source = s.slice text := by
  obtain ⟨tag, span, stop, children, here, a, among, rfl, rfl⟩ := value
  obtain ⟨piece, covers⟩ := inside.exists_covers
  obtain ⟨_, tagFits, -⟩ := parse_fits here
  have fits := tagFits.attributes.of_mem among
  have moved := fits.shift covers
  exact ⟨moved.aligned, by rw [moved.slice, covers.slice]⟩

end spans

variable (c)

structure Reports (source className : String) : Prop where
  /-- Those of the default package stand first, then those of the markup, then those of the walk. -/
  ordered : (c.compile source className).progress.diagnostics =
    c.defaultUse.diagnostics ++ (parse source).problems ++
      (c.found source className).flatMap c.reported
  default : ∀ d ∈ c.defaultUse.diagnostics, d.span = ⟨0, 0⟩
  /-- The walk goes through the template in document order. -/
  walk : ((c.arrivals source className).map (·.node)).Sublist (preorderAll (parse source).nodes)
  /-- Every call is found once. -/
  calls : (c.found source className).filterMap Finding.call? =
    (c.compile source className).progress.calls
  /-- A call compiles the value of an attribute, and what a span covers there the moved span covers
  in the template. -/
  values : ∀ call ∈ (c.compile source className).progress.calls,
    IsValue source call.text call.offset ∧
      ∀ s : Span, s.Aligned call.text.toList →
        (s.shift call.offset).slice source = s.slice call.text
  /-- With paths as expressions all diagnostics point into the template. -/
  paths : c.expressions = Path.compile →
    ∀ d ∈ (c.compile source className).progress.diagnostics,
      d.span.Aligned source.toList ∧ d.span.stop ≤ source.utf8ByteSize

variable {c}

theorem found_placed (source className : String) :
    ∀ f ∈ c.found source className, Placed source f := by
  intro f mem
  obtain ⟨a, arrived, mem⟩ := List.mem_flatMap.mp mem
  have here := (c.arrivals_sublist source className).subset
    (List.mem_map_of_mem (f := (·.node)) arrived)
  exact findings_placed here f mem

theorem reported_aligned {source : String} (paths : c.expressions = Path.compile) {f : Finding}
    (placed : Placed source f) : Anchored source.toList (c.reported f) := by
  cases f with
  | problem d =>
    intro d' mem
    rw [List.mem_singleton.mp mem]
    exact placed
  | compiled call =>
    intro d mem
    obtain ⟨d', mem', rfl⟩ := List.mem_map.mp mem
    unfold compiledAt at mem'
    rw [paths] at mem'
    exact (IsValue.shift placed (Path.diagnostics_aligned _ _ _ _ d' mem')).1

/-- Diagnostics are complete, in order, and point into the template. -/
theorem compile_reports {source className : String} {nodes : List TemplateNode}
    (ok : (c.compile source className).result = .ok nodes) : c.Reports source className := by
  have used := c.default_of_ok ok
  have start : c.Accounts (c.entered source className).diagnostics []
      (c.entered source className) :=
    ⟨by simp, c.calls_entered source className⟩
  have walked := ((c.tracks_accounts _).nodes (parse source).nodes _ _ start).1
  obtain ⟨scope, compiled⟩ := c.compile_of_default used source className
  have ends := (c.tracks_accounts _).scope _ _ scope walked
  rw [List.nil_append, ← c.arrivals_of_default used] at ends
  have ordered : (c.compile source className).progress.diagnostics =
      c.defaultUse.diagnostics ++ (parse source).problems ++
        (c.found source className).flatMap c.reported := by
    rw [compiled, ends.diagnostics, diagnostics_entered]
    rfl
  have default : ∀ d ∈ c.defaultUse.diagnostics, d.span = ⟨0, 0⟩ :=
    fun d mem => Registry.span_of_mem_usePackage mem
  have accounted : (c.found source className).filterMap Finding.call? =
      (c.compile source className).progress.calls := by
    rw [compiled]
    exact ends.calls.symm
  refine ⟨ordered, default, c.arrivals_sublist source className, accounted, ?_, ?_⟩
  · intro call mem
    rw [← accounted] at mem
    obtain ⟨f, isFound, isCall⟩ := List.mem_filterMap.mp mem
    have placed := found_placed source className f isFound
    cases f with
    | problem d => cases isCall
    | compiled call' =>
      cases isCall
      exact ⟨placed, fun s inside => (IsValue.shift placed inside).2⟩
  · intro paths d mem
    have aligned : d.span.Aligned source.toList := by
      rw [ordered, List.append_assoc] at mem
      rcases List.mem_append.mp mem with package | mem
      · rw [default d package]
        have start : Text.Boundary source.toList 0 := ⟨[], source.toList, rfl, rfl⟩
        exact ⟨Nat.le_refl 0, start, start⟩
      · rcases List.mem_append.mp mem with markup | walk
        · exact (parse_aligned source).1 d markup
        · obtain ⟨f, isFound, isReported⟩ := List.mem_flatMap.mp walk
          exact reported_aligned paths (found_placed source className f isFound) d isReported
    refine ⟨aligned, ?_⟩
    rw [Text.utf8ByteSize_eq]
    exact aligned.le_length

/-- Paths as expressions, the standard classes, and the standard package among other resources. -/
def withPaths (others : Resources) : Compiler :=
  ⟨{}, .standard, Resources.withStandard "META-INF/flavour/directive-packages" others, Path.compile⟩

/-- An element that is not closed, a path that ends with a dot and a tag without a directive. -/
def brokenSource : String := "é<p><std:if condition=' ü.'></std:if><std:é/>"

theorem compile_reports_of_broken_source :
    ∃ nodes, ((withPaths fun _ => .absent).compile brokenSource "Page").result = .ok nodes ∧
      ((withPaths fun _ => .absent).compile brokenSource "Page").progress.diagnostics.map (·.span) =
        [⟨2, 5⟩, ⟨25, 28⟩, ⟨40, 46⟩] ∧
      (withPaths fun _ => .absent).Reports brokenSource "Page" := by
  obtain ⟨spans, ends⟩ :
      ((withPaths fun _ => .absent).compile brokenSource "Page").progress.diagnostics.map (·.span) =
        [⟨2, 5⟩, ⟨25, 28⟩, ⟨40, 46⟩] ∧
      ((withPaths fun _ => .absent).compile brokenSource "Page").result.toOption.isSome = true := by
    decide +kernel
  cases ok : ((withPaths fun _ => .absent).compile brokenSource "Page").result with
  | error failure =>
    rw [ok] at ends
    cases ends
  | ok nodes => exact ⟨nodes, rfl, spans, compile_reports ok⟩

end Compiler

end DirectiveTemplates
