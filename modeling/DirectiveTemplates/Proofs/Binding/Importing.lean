import DirectiveTemplates.Binding.Path
import DirectiveTemplates.Proofs.Binding.Findings
import Mathlib.Data.List.Induction

/-!
What class names mean under imports. A name with a dot is left to the classes that are known. Any
other name means the class that was imported last under it, then a class of an imported package, the
package that was imported first before the others, and then what it means by itself. In a template
every class that is found this way is known, and it has the last part of the name.
-/
namespace DirectiveTemplates

namespace QualifiedName

theorem lastPart_of_not_hasDot {name : String} (simple : hasDot name = false) :
    lastPart name = name := by
  have all : ∀ c ∈ name.toList.reverse, (c != '.') = true := by
    intro c mem
    rw [bne_iff_ne]
    rintro rfl
    simp [hasDot, List.mem_reverse.mp mem] at simple
  rw [lastPart, List.takeWhile_eq_self_iff.mpr all, List.reverse_reverse, String.ofList_toList]

/-- The last part of a class in a package is its simple name. -/
theorem lastPart_append (package : String) {name : String} (simple : hasDot name = false) :
    lastPart (package ++ "." ++ name) = name := by
  have all : ∀ c ∈ name.toList.reverse, (c != '.') = true := by
    intro c mem
    rw [bne_iff_ne]
    rintro rfl
    simp [hasDot, List.mem_reverse.mp mem] at simple
  have behind : (package ++ "." ++ name).toList.reverse =
      name.toList.reverse ++ '.' :: package.toList.reverse := by simp
  rw [lastPart, behind, List.takeWhile_append_of_pos all]
  simp

end QualifiedName

open QualifiedName

inductive Import where
  | ofClass (full : String)
  | ofPackage (name : String)
  deriving DecidableEq, Repr

namespace Import

def class? (name : String) : Import → Option String
  | ofClass full => if lastPart full = name then some full else none
  | ofPackage _ => none

/-- The package that is imported; one star part at the end of its name is left out. -/
def package? : Import → Option String
  | ofClass _ => none
  | ofPackage name => some ((starPackage? name).getD name)

@[simp] theorem class?_ofPackage (name package : String) : (ofPackage package).class? name = none :=
  rfl

theorem class?_ofClass_self (full : String) : (ofClass full).class? (lastPart full) = some full :=
  if_pos rfl

theorem class?_ofClass_of_ne {name full : String} (other : lastPart full ≠ name) :
    (ofClass full).class? name = none :=
  if_neg other

@[simp] theorem package?_ofClass (full : String) : (ofClass full).package? = none := rfl

@[simp] theorem package?_ofPackage (name : String) :
    (ofPackage name).package? = some ((starPackage? name).getD name) := rfl

end Import

namespace Imports

def perform (i : Imports) : Import → Imports
  | .ofClass full => i.importClass full
  | .ofPackage name => i.importPackage name

def after (history : List Import) : Imports := history.foldl perform none

/-- The class that was imported last under a simple name. -/
def latestClass (history : List Import) (name : String) : Option String :=
  history.reverse.findSome? (Import.class? name)

/-- The packages that were imported, each where it was imported first. -/
def distinctPackages (history : List Import) : List String :=
  (history.filterMap Import.package?).eraseDups

/-- What a name means after a sequence of imports, when it is known which full names are classes. -/
def meaning (history : List Import) (known : ClassFinder) (name : String) : Option String :=
  if hasDot name then known name
  else
    (latestClass history name).or
      (((distinctPackages history).findSome? fun package => known (package ++ "." ++ name)).or
        (known name))

theorem after_concat (history : List Import) (x : Import) :
    after (history ++ [x]) = (after history).perform x := by
  simp [after]

theorem classes_importPackage (i : Imports) (name : String) :
    (i.importPackage name).classes = i.classes := by
  unfold importPackage
  simp only
  split <;> rfl

theorem packages_importPackage (i : Imports) (name : String) :
    let package := (starPackage? name).getD name
    (i.importPackage name).packages =
      if package ∈ i.packages then i.packages else i.packages ++ [package] := by
  simp only [importPackage, List.contains_iff_mem]
  split <;> rfl

theorem lookup_classes (history : List Import) (name : String) :
    (after history).classes.lookup name = latestClass history name := by
  induction history using List.reverseRecOn with
  | nil => rfl
  | append_singleton history x ih =>
    rw [after_concat, latestClass, List.reverse_append, List.reverse_singleton,
      List.singleton_append, List.findSome?_cons]
    cases x with
    | ofClass full =>
      by_cases same : lastPart full = name
      · subst same
        rw [Import.class?_ofClass_self]
        simp [perform, importClass]
      · have other : (name == lastPart full) = false := by simpa using fun eq => same eq.symm
        rw [Import.class?_ofClass_of_ne same]
        simp only [perform, importClass, List.lookup_cons, other, ih]
        rfl
    | ofPackage package =>
      rw [perform, classes_importPackage, ih, Import.class?_ofPackage]
      rfl

theorem eraseDups_concat (ps : List String) (p : String) :
    (ps ++ [p]).eraseDups = if p ∈ ps then ps.eraseDups else ps.eraseDups ++ [p] := by
  rw [List.eraseDups_append]
  split
  · rename_i mem
    simp [List.removeAll, mem]
  · rename_i absent
    have kept : [p].removeAll ps = [p] := by simp [List.removeAll, absent]
    rw [kept]
    rfl

theorem packages_after (history : List Import) :
    (after history).packages = distinctPackages history := by
  induction history using List.reverseRecOn with
  | nil => rfl
  | append_singleton history x ih =>
    rw [after_concat, distinctPackages, List.filterMap_append]
    cases x with
    | ofClass full =>
      rw [List.filterMap_cons_none (Import.package?_ofClass full), List.filterMap_nil,
        List.append_nil]
      exact ih
    | ofPackage name =>
      rw [List.filterMap_cons_some (Import.package?_ofPackage name), List.filterMap_nil,
        eraseDups_concat, perform, packages_importPackage, ih]
      simp only [distinctPackages, List.mem_eraseDups]

/-- Names are found by the precedence of imports. -/
theorem find_after (history : List Import) (known : ClassFinder) (name : String) :
    (after history).find known name = meaning history known name := by
  rw [find, meaning, lookup_classes, packages_after]
  split
  · rfl
  · cases latestClass history name with
    | some full => rfl
    | none =>
      simp only [Option.none_or]
      cases (distinctPackages history).findSome? fun package => known (package ++ "." ++ name) with
      | some full => rfl
      | none => rfl

theorem mem_of_latestClass {history : List Import} {name full : String}
    (found : latestClass history name = some full) :
    .ofClass full ∈ history ∧ lastPart full = name := by
  obtain ⟨x, mem, gives⟩ := List.exists_of_findSome?_eq_some found
  cases x with
  | ofPackage package => cases gives
  | ofClass full' =>
    by_cases same : lastPart full' = name
    · subst same
      rw [Import.class?_ofClass_self] at gives
      cases gives
      exact ⟨List.mem_reverse.mp mem, rfl⟩
    · rw [Import.class?_ofClass_of_ne same] at gives
      cases gives

/-- A finder of full names gives back the name it was asked for. With such a finder, a class that is
found has the last part of the name, and it is known if all classes that were imported are. -/
theorem find_sound {known : ClassFinder}
    (full : ∀ name found, known name = some found → found = name) {history : List Import}
    (imported : ∀ f, .ofClass f ∈ history → (known f).isSome) {name found : String}
    (h : (after history).find known name = some found) :
    (known found).isSome ∧ lastPart found = lastPart name := by
  have direct {asked : String} (answer : known asked = some found) :
      (known found).isSome ∧ found = asked := by
    have same := full asked found answer
    exact ⟨by rw [same, answer]; rfl, same⟩
  rw [find_after, meaning] at h
  split at h
  · obtain ⟨some, rfl⟩ := direct h
    exact ⟨some, rfl⟩
  · rename_i dotted
    have simple : hasDot name = false := by simpa using dotted
    rw [lastPart_of_not_hasDot simple]
    rcases Option.or_eq_some_iff.mp h with latest | ⟨-, later⟩
    · obtain ⟨mem, last⟩ := mem_of_latestClass latest
      exact ⟨imported found mem, last⟩
    · rcases Option.or_eq_some_iff.mp later with packaged | ⟨-, itself⟩
      · obtain ⟨package, -, answer⟩ := List.exists_of_findSome?_eq_some packaged
        obtain ⟨some, rfl⟩ := direct answer
        exact ⟨some, lastPart_append package simple⟩
      · obtain ⟨some, rfl⟩ := direct itself
        exact ⟨some, lastPart_of_not_hasDot simple⟩

end Imports

namespace ClassTable

theorem finder_eq_some {t : ClassTable} {name full : String} (h : t.finder name = some full) :
    full = name := by
  obtain ⟨_, -, same⟩ := Option.map_eq_some_iff.mp h
  exact same.symm

theorem isSome_finder (t : ClassTable) (name : String) :
    (t.finder name).isSome = (t.describe name).isSome := by
  rw [finder, Option.isSome_map]

end ClassTable

namespace Compiler

open CompileM

variable (c : Compiler)

def importedBy (a : Arrival) : List Import :=
  match a.node with
  | .instruction i =>
    if i.target = "import" then
      let name := QualifiedName.normalize i.content
      match starPackage? name with
      | some package => [.ofPackage package]
      | none => ((a.progress.imports.find c.classes.finder name).map .ofClass).toList
    else []
  | _ => []

/-- The imports so far are of known classes, and every call was made under some of them. -/
structure ImportsKnown (history : List Import) (p : Progress) : Prop where
  imports : p.imports = .after history
  classes : ∀ full, .ofClass full ∈ history → (c.classes.finder full).isSome
  calls : ∀ call ∈ p.calls, ∃ before, before <+: history ∧ call.imports = .after before

theorem imports_instruction (i : Markup.Instruction) (p : Progress) :
    ((c.instruction i).run p).2.imports =
      (c.importedBy ⟨.instruction i, p⟩).foldl Imports.perform p.imports := by
  unfold instruction importedBy
  simp only
  split
  · unfold importName
    simp only
    cases starPackage? (QualifiedName.normalize i.content) with
    | some package => rfl
    | none =>
      simp only [run_bind, run_get]
      cases p.imports.find c.classes.finder (QualifiedName.normalize i.content) with
      | some full => rfl
      | none => rfl
  · split
    · cases splitUse? i.content with
      | none => rfl
      | some parts =>
        obtain ⟨space, package⟩ := parts
        simp only [run_usePackage_eq]
        rfl
    · rfl

theorem imports_element (tag : Markup.StartTag) (scope : Scope) (imports : Imports)
    (specs : List AttributeSpec) :
    ∀ call ∈ (expressionFindings tag scope imports specs).filterMap Finding.call?,
      call.imports = imports := by
  intro call mem
  obtain ⟨finding, found, made⟩ := List.mem_filterMap.mp mem
  obtain ⟨spec, -, here⟩ := List.mem_flatMap.mp found
  rcases List.mem_append.mp here with problem | compiled
  · obtain ⟨d, -, rfl⟩ := List.mem_map.mp problem
    cases made
  · obtain ⟨a, -, rfl⟩ := List.mem_map.mp compiled
    cases made
    rfl

/-- The calls that are made at a node are made under the imports before it. -/
theorem imports_findings (a : Arrival) :
    ∀ call ∈ (c.findings a).filterMap Finding.call?, call.imports = a.progress.imports := by
  have problems (ds : List Diagnostic) : (ds.map Finding.problem).filterMap Finding.call? = [] := by
    simp [List.filterMap_map, Function.comp_def, Finding.call?]
  intro call mem
  unfold findings at mem
  split at mem
  · cases mem
  · cases mem
  · rw [problems] at mem
    cases mem
  · split at mem
    · cases mem
    · cases mem
    · rw [directiveFindings, List.filterMap_append, List.filterMap_append, problems, problems,
        List.nil_append, List.append_nil] at mem
      exact imports_element _ _ _ _ call mem

theorem tracks_imports : c.Tracks c.ImportsKnown c.importedBy := by
  constructor
  · intro history p s known
    exact ⟨known.imports, known.classes, known.calls⟩
  · intro history n p known
    have imports : (c.own n p).imports = .after (history ++ c.importedBy ⟨n, p⟩) := by
      have added : Imports.after (history ++ c.importedBy ⟨n, p⟩) =
          (c.importedBy ⟨n, p⟩).foldl Imports.perform p.imports := by
        rw [known.imports, Imports.after, List.foldl_append]
        rfl
      rw [added]
      cases n with
      | text t | comment t => rfl
      | instruction i => exact c.imports_instruction i p
      | element tag span stop children =>
        obtain ⟨scope, eq⟩ := c.own_element tag span stop children p
        rw [eq]
        rfl
    have classes : ∀ full, .ofClass full ∈ c.importedBy ⟨n, p⟩ →
        (c.classes.finder full).isSome := by
      intro full mem
      unfold importedBy at mem
      split at mem
      · split at mem
        · simp only at mem
          split at mem
          · simp at mem
          · obtain ⟨found, eq⟩ := Option.map_eq_some_iff.mp (Option.mem_toList.mp mem)
            cases eq.2
            rw [known.imports] at eq
            exact (Imports.find_sound (fun _ _ => ClassTable.finder_eq_some) known.classes eq.1).1
        · cases mem
      · cases mem
    refine ⟨imports, ?_, ?_⟩
    · intro full mem
      rcases List.mem_append.mp mem with old | new
      · exact known.classes full old
      · exact classes full new
    · intro call mem
      rw [(c.own_finds n p).2] at mem
      rcases List.mem_append.mp mem with old | new
      · obtain ⟨before, shorter, eq⟩ := known.calls call old
        exact ⟨before, shorter.trans (List.prefix_append _ _), eq⟩
      · refine ⟨history, List.prefix_append _ _, ?_⟩
        rw [c.imports_findings ⟨n, p⟩ call new]
        exact known.imports

/-- The imports at every use of the expression compiler are of known classes. -/
theorem imports_of_call {source className : String} {call : CompileCall}
    (mem : call ∈ (c.compile source className).progress.calls) :
    ∃ history, call.imports = .after history ∧
      ∀ full, .ofClass full ∈ history → (c.classes.finder full).isSome := by
  rcases c.compile_eq_walk source className with ⟨e, -, none⟩ | ⟨-, calls⟩
  · rw [none] at mem
    cases mem
  · have start : c.ImportsKnown [] (c.entered source className) := by
      rw [entered_eq]
      exact ⟨rfl, by simp, by simp⟩
    obtain ⟨ended, -⟩ := c.tracks_imports.nodes (Markup.parse source).nodes _ _ start
    rw [calls] at mem
    obtain ⟨before, shorter, eq⟩ := ended.calls call mem
    exact ⟨before, eq, fun full imported => ended.classes full (shorter.subset imported)⟩

/-- Class names are found by the precedence of imports, whatever was imported before. Wherever a
template compiles an expression, the imports are such a sequence, and a class that is found under a
name is a class of the table with the last part of that name. -/
theorem class_names_resolve :
    (∀ history known name,
      (Imports.after history).find known name = Imports.meaning history known name) ∧
    ∀ (c : Compiler) (source className : String),
      ∀ call ∈ (c.compile source className).progress.calls,
        (∃ history, call.imports = .after history) ∧
        ∀ name full, call.imports.find c.classes.finder name = some full →
          (c.classes.describe full).isSome ∧ lastPart full = lastPart name := by
  refine ⟨Imports.find_after, ?_⟩
  intro c source className call mem
  obtain ⟨history, eq, classes⟩ := c.imports_of_call mem
  refine ⟨⟨history, eq⟩, ?_⟩
  intro name full found
  rw [eq] at found
  rw [← ClassTable.isSome_finder]
  exact Imports.find_sound (fun _ _ => ClassTable.finder_eq_some) classes found

/-- A package and two classes are imported, one of them through the package. -/
def importSource : String :=
  "<?import app.*?><?import lib . Map?><?import Item?><std:text value='this'/>"

def importCompiler : Compiler where
  config := {}
  classes := ((ClassTable.standard.addClass "app.Map").addClass "app.Item").addClass "lib.Map"
  resources := Resources.withStandard "META-INF/flavour/directive-packages" fun _ => .absent
  expressions := Path.compile

theorem class_names_resolve_of_importSource :
    let find := fun call : CompileCall => call.imports.find importCompiler.classes.finder
    ∃ call ∈ (importCompiler.compile importSource "Page").progress.calls,
      (find call "Map" = some "lib.Map" ∧ (importCompiler.classes.describe "lib.Map").isSome ∧
        lastPart "lib.Map" = lastPart "Map") ∧
      find call "Item" = some "app.Item" ∧ (importCompiler.classes.describe "app.Item").isSome ∧
        lastPart "app.Item" = lastPart "Item" := by
  intro find
  have first : ((importCompiler.compile importSource "Page").progress.calls.head?.map
      fun call => (find call "Map", find call "Item")) =
        some (some "lib.Map", some "app.Item") := by
    decide +kernel
  obtain ⟨call, head, found⟩ := Option.map_eq_some_iff.mp first
  have mem := List.mem_of_head? head
  obtain ⟨map, item⟩ := Prod.mk.injEq .. ▸ found
  have resolves := (class_names_resolve.2 importCompiler importSource "Page" call mem).2
  exact ⟨call, mem, ⟨map, resolves "Map" "lib.Map" map⟩, item, resolves "Item" "app.Item" item⟩

end Compiler

end DirectiveTemplates
