import DirectiveTemplates.Proofs.Directive.Uncached

/-!
What the descriptor of a package registers. Each line that counts names a class, and the class
either gives a directive under the prefix or is reported. What the registry holds afterwards is
known from the lines alone: of the directives with one tag the last one stays.
-/
namespace DirectiveTemplates

/-- The lines of a descriptor that count. A line feed ends each of them; what stands behind the
last line feed is a line when the reading came to the end. -/
def CountedLines (bytes : List UInt8) (failure : Option String) (lines : List (List UInt8)) :
    Prop :=
  ∃ ended last, bytes = ended.flatMap (· ++ [10]) ++ last ∧ (∀ line ∈ ended, 10 ∉ line) ∧
    10 ∉ last ∧ lines = if failure.isSome then ended else ended ++ [last]

def lineText (line : List UInt8) : List Char := Text.trim (Text.decodeUtf8 line).toList

/-- Blank lines and comments name no class. -/
def NamesClass (line : List UInt8) : Prop :=
  lineText line ≠ [] ∧ (lineText line).head? ≠ some '#'

instance : DecidablePred NamesClass := fun line =>
  inferInstanceAs (Decidable (lineText line ≠ [] ∧ (lineText line).head? ≠ some '#'))

def classesNamed (package : String) (lines : List (List UInt8)) : List String :=
  (lines.filter (NamesClass ·)).map fun line => package ++ "." ++ String.ofList (lineText line)

theorem splitBytes_eq (sep : UInt8) (bytes : List UInt8) :
    ∃ ended last, splitBytes sep bytes = ended ++ [last] ∧
      bytes = ended.flatMap (· ++ [sep]) ++ last ∧ (∀ line ∈ ended, sep ∉ line) ∧ sep ∉ last := by
  induction bytes with
  | nil => exact ⟨[], [], rfl, rfl, by simp, by simp⟩
  | cons b bytes ih =>
    obtain ⟨ended, last, split, spelled, clean, lastClean⟩ := ih
    rw [splitBytes]
    by_cases same : b = sep
    · refine ⟨[] :: ended, last, by rw [if_pos same, split]; rfl, ?_, ?_, lastClean⟩
      · simpa [same] using spelled
      · exact List.forall_mem_cons.mpr ⟨List.not_mem_nil, clean⟩
    · rw [if_neg same, split]
      have other : sep ≠ b := fun eq => same eq.symm
      cases ended with
      | nil =>
        refine ⟨[], b :: last, rfl, by simpa using spelled, by simp, ?_⟩
        simp [other, lastClean]
      | cons line ended =>
        obtain ⟨lineClean, clean⟩ := List.forall_mem_cons.mp clean
        refine ⟨(b :: line) :: ended, last, rfl, by simpa using spelled, ?_, lastClean⟩
        exact List.forall_mem_cons.mpr ⟨by simp [other, lineClean], clean⟩

theorem countedLines_descriptorLines (bytes : List UInt8) (failure : Option String) :
    CountedLines bytes failure (descriptorLines bytes failure) := by
  obtain ⟨ended, last, split, spelled, clean, lastClean⟩ := splitBytes_eq 10 bytes
  refine ⟨ended, last, spelled, clean, lastClean, ?_⟩
  simp only [descriptorLines, split, List.dropLast_concat]

theorem entryOfLine_eq (line : List UInt8) :
    entryOfLine line = if NamesClass line then some (String.ofList (lineText line)) else none := by
  have text : Text.trim (Text.decodeUtf8 line).toList = lineText line := rfl
  simp only [entryOfLine, text]
  cases said : lineText line with
  | nil => simp [NamesClass, said]
  | cons c cs =>
    by_cases comment : c = '#'
    · simp [NamesClass, said, comment]
    · simp [NamesClass, said, comment]

theorem map_descriptorEntries (package : String) (bytes : List UInt8) (failure : Option String) :
    (descriptorEntries bytes failure).map (fun entry => package ++ "." ++ entry) =
      classesNamed package (descriptorLines bytes failure) := by
  rw [descriptorEntries, classesNamed]
  induction descriptorLines bytes failure with
  | nil => rfl
  | cons line lines ih =>
    rw [List.filterMap_cons, entryOfLine_eq]
    by_cases named : NamesClass line
    · simpa [named] using ih
    · simpa [named] using ih

def problemOf : Except PackageProblem Signature → Option PackageProblem
  | .ok _ => none
  | .error p => some p

namespace Registry

variable {classes : ClassSource} {r : Registry}

/-- What a registry and a source tell of a class: a class that was found once is remembered. -/
def told (r : Registry) (classes : ClassSource) (name : String) :
    Except PackageProblem Signature :=
  match r.described.get? name with
  | some s => .ok s
  | none => signatureOf classes name

theorem told_describe (r : Registry) (classes : ClassSource) (name : String) :
    (r.describe classes name).1 = r.told classes name ∧
      (r.describe classes name).2.told classes = r.told classes := by
  unfold describe told
  cases known : r.described.get? name with
  | some s => exact ⟨rfl, rfl⟩
  | none =>
    cases found : signatureOf classes name with
    | error p => exact ⟨rfl, rfl⟩
    | ok s =>
      refine ⟨rfl, funext fun name' => ?_⟩
      simp only [OrderedMap.get?_insert]
      by_cases same : name' = name
      · simp [same, known, found]
      · simp [same]

/-- The directives that classes give, in order, with the tags they get under a prefix. -/
def entriesOf (told : String → Except PackageProblem Signature) (space : String)
    (names : List String) : List (String × Signature) :=
  (names.filterMap fun name => (told name).toOption).map fun s => (tag space s.name, s)

/-- One class is registered or reported, and the other classes are told of as before. -/
theorem enter_eq (r : Registry) (classes : ClassSource) (space name : String) :
    (enter classes space r name).1.told classes = r.told classes ∧
      (enter classes space r name).1.directives =
        r.directives.insertAll (entriesOf (r.told classes) space [name]) ∧
      (enter classes space r name).2 = (problemOf (r.told classes name)).toList := by
  obtain ⟨outcome, same⟩ := r.told_describe classes name
  have directives := r.directives_describe classes name
  unfold enter entriesOf
  simp only [List.filterMap_cons, List.filterMap_nil]
  rw [← outcome]
  generalize r.describe classes name = described at same directives
  obtain ⟨p | s, r'⟩ := described
  · exact ⟨same, directives, rfl⟩
  · refine ⟨same, ?_, rfl⟩
    simp only [register, Except.toOption, OrderedMap.insertAll, List.map_cons, List.map_nil,
      List.foldl_cons, List.foldl_nil]
    rw [directives]

theorem enterAll_eq (r : Registry) (classes : ClassSource) (space : String)
    (names : List String) :
    (enterAll classes space names r).1.directives =
        r.directives.insertAll (entriesOf (r.told classes) space names) ∧
      (enterAll classes space names r).2 =
        names.filterMap fun name => problemOf (r.told classes name) := by
  induction names generalizing r with
  | nil => exact ⟨rfl, rfl⟩
  | cons name names ih =>
    obtain ⟨told, first, problems⟩ := r.enter_eq classes space name
    obtain ⟨others, more⟩ := ih (enter classes space r name).1
    have entries : entriesOf (r.told classes) space (name :: names) =
        entriesOf (r.told classes) space [name] ++ entriesOf (r.told classes) space names := by
      rw [entriesOf, entriesOf, entriesOf, ← List.map_append, ← List.filterMap_append]
      rfl
    simp only [enterAll]
    constructor
    · rw [others, first, told, entries]
      simp only [OrderedMap.insertAll, List.foldl_append]
    · rw [more, told, problems, List.filterMap_cons]
      cases problemOf (r.told classes name) <;> rfl

/-! What a registry remembers of a class is a signature of this class. -/

def Owned (r : Registry) : Prop := ∀ name s, r.described.get? name = some s → s.owner = name

theorem owner_of_told (h : r.Owned) {name : String} {s : Signature}
    (told : r.told classes name = .ok s) : s.owner = name := by
  unfold Registry.told at told
  split at told
  · rename_i s' known
    cases told
    exact h name s known
  · exact owner_of_signatureOf told

theorem Owned.describe (h : r.Owned) (classes : ClassSource) (name : String) :
    (r.describe classes name).2.Owned := by
  unfold Registry.describe
  split
  · exact h
  · split
    · rename_i s found
      intro name' s' known
      simp only [OrderedMap.get?_insert] at known
      split at known
      · rename_i same
        cases known
        rw [same]
        exact owner_of_signatureOf found
      · exact h name' s' known
    · exact h

theorem Owned.enter (h : r.Owned) (classes : ClassSource) (space name : String) :
    (Registry.enter classes space r name).1.Owned := by
  have owned := h.describe classes name
  unfold Registry.enter
  generalize r.describe classes name = described at owned
  obtain ⟨p | s, r'⟩ := described <;> exact owned

theorem Owned.enterAll (h : r.Owned) (classes : ClassSource) (space : String)
    (names : List String) : (Registry.enterAll classes space names r).1.Owned := by
  induction names generalizing r with
  | nil => exact h
  | cons name names ih => exact ih (h.enter classes space name)

theorem Owned.perform (h : r.Owned) (config : Config) (classes : ClassSource) (q : Request) :
    (r.perform config classes q).1.Owned := by
  cases q with
  | register space s => exact h
  | use space package anchor resources =>
    simp only [Registry.perform, Registry.usePackage]
    cases resources (config.descriptorResource package) with
    | absent => exact h
    | refused message => exact h
    | stream bytes failure => cases failure <;> exact h.enterAll classes space _

/-- The registries that requests make, whatever the classes and the settings are at each. -/
inductive Reached : Registry → Prop where
  | empty : Reached .empty
  | perform {r : Registry} (config : Config) (classes : ClassSource) (q : Request) :
    Reached r → Reached (r.perform config classes q).1

theorem Reached.owned (reached : r.Reached) : r.Owned := by
  induction reached with
  | empty =>
    intro name s known
    cases known
  | perform config classes q _ ih => exact ih.perform config classes q

/-! Of the entries with one tag the last one stays. -/

theorem tag_right_inj (space name name' : String) :
    tag space name = tag space name' ↔ name = name' := by
  simp [tag, String.ext_iff]

theorem get?_insertAll (m : OrderedMap Signature) (es : List (String × Signature))
    (key : String) : (m.insertAll es).get? key = (es.reverse.lookup key).or (m.get? key) := by
  rw [(m.writtenBy_entries.insertAll es).get?, m.writtenBy_entries.get?, List.reverse_append]
  exact List.lookup_append ..

variable {told : String → Except PackageProblem Signature} {space key : String}
  {names : List String}

theorem mem_entriesOf {e : String × Signature} (mem : e ∈ entriesOf told space names) :
    ∃ name ∈ names, ∃ s, told name = .ok s ∧ e = (tag space s.name, s) := by
  obtain ⟨s, given, rfl⟩ := List.mem_map.mp mem
  obtain ⟨name, named, gives⟩ := List.mem_filterMap.mp given
  refine ⟨name, named, s, ?_, rfl⟩
  cases outcome : told name with
  | error p =>
    rw [outcome] at gives
    cases gives
  | ok s' =>
    rw [outcome] at gives
    cases gives
    rfl

theorem lookup_entriesOf_none
    (absent : ∀ name ∈ names, ∀ s, told name = .ok s → key ≠ tag space s.name) :
    (entriesOf told space names).reverse.lookup key = none := by
  rw [List.lookup_eq_none_iff]
  intro e mem
  obtain ⟨name, named, s, gives, rfl⟩ := mem_entriesOf (List.mem_reverse.mp mem)
  simpa using absent name named s gives

theorem lookup_entriesOf_last {early late : List String} {name : String} {s : Signature}
    (gives : told name = .ok s)
    (after : ∀ other ∈ late, ∀ t, told other = .ok t → t.name ≠ s.name) :
    (entriesOf told space (early ++ name :: late)).reverse.lookup (tag space s.name) = some s := by
  have entries : entriesOf told space (early ++ name :: late) =
      entriesOf told space early ++ (tag space s.name, s) :: entriesOf told space late := by
    simp [entriesOf, gives, Except.toOption]
  have absent : (entriesOf told space late).reverse.lookup (tag space s.name) = none := by
    apply lookup_entriesOf_none
    intro other mem t told
    rw [ne_eq, tag_right_inj]
    exact fun same => after other mem t told same.symm
  rw [entries, List.reverse_append, List.reverse_cons, List.append_assoc, List.lookup_append,
    absent]
  simp

structure Entered (classes : ClassSource) (space : String) (names : List String)
    (before after : Registry) : Prop where
  /-- A class gives a directive that it owns. -/
  owner : ∀ name s, before.told classes name = .ok s → s.owner = name
  entries : after.directives =
    before.directives.insertAll (entriesOf (before.told classes) space names)
  /-- The last directive of a name is the one that its tag is resolved to. -/
  last : ∀ early name late s, names = early ++ name :: late →
    before.told classes name = .ok s →
    (∀ other ∈ late, ∀ t, before.told classes other = .ok t → t.name ≠ s.name) →
    after.resolve space s.name = some s
  /-- A name that none of the directives has is resolved as before. -/
  kept : ∀ name', (∀ name ∈ names, ∀ s, before.told classes name = .ok s → s.name ≠ name') →
    after.resolve space name' = before.resolve space name'
  /-- So is a tag that none of them has, whatever its prefix is. -/
  others : ∀ space' name',
    (∀ name ∈ names, ∀ s, before.told classes name = .ok s → tag space' name' ≠ tag space s.name) →
    after.resolve space' name' = before.resolve space' name'
  /-- Without colons in them, two prefixes have no tag in common. -/
  apart : ':' ∉ space.toList → ∀ space', ':' ∉ space'.toList → space' ≠ space →
    ∀ name', after.resolve space' name' = before.resolve space' name'

theorem entered_enterAll (owned : r.Owned) (classes : ClassSource) (space : String)
    (names : List String) : Entered classes space names r (enterAll classes space names r).1 := by
  have entries := (r.enterAll_eq classes space names).1
  have others : ∀ space' name', (∀ name ∈ names, ∀ s, r.told classes name = .ok s →
      tag space' name' ≠ tag space s.name) →
      (enterAll classes space names r).1.resolve space' name' = r.resolve space' name' := by
    intro space' name' absent
    rw [resolve, entries, get?_insertAll, lookup_entriesOf_none absent]
    rfl
  refine ⟨fun name s => owner_of_told owned, entries, ?_, ?_, others, ?_⟩
  · intro early name late s split gives after
    rw [resolve, entries, get?_insertAll, split, lookup_entriesOf_last gives after]
    rfl
  · intro name' absent
    apply others
    intro name mem s gives
    rw [ne_eq, tag_right_inj]
    exact fun same => absent name mem s gives same.symm
  · intro free space' free' other name'
    apply others
    intro name mem s gives same
    exact other ((tag_inj free' free).mp same).1

/-- The use of a package registers the classes that the lines of its descriptor name, as far as
the descriptor could be read, and reports the others in their order. A failure of the reading
comes last; what it means is left to the policy, and the directives do not depend on it. -/
theorem usePackage_of_stream (reached : r.Reached) (classes : ClassSource)
    (space package : String) (anchor : Span) {config : Config} {resources : Resources}
    {bytes : List UInt8} {failure : Option String}
    (opened : resources (config.descriptorResource package) = .stream bytes failure) :
    let u := r.usePackage config classes resources space package anchor
    ∃ lines, CountedLines bytes failure lines ∧
      let names := classesNamed package lines
      let problems := names.filterMap fun name => problemOf (r.told classes name)
      let report := fun ps : List PackageProblem =>
        ps.map fun p => (⟨anchor, p.message⟩ : Diagnostic)
      Entered classes space names r u.registry ∧
      (u.diagnostics, u.failure) =
        (match failure, config.readPolicy with
        | none, _ => (report problems, none)
        | some cause, .fatal => (report problems, some ⟨config.descriptorResource package, cause⟩)
        | some cause, .report => (report (problems ++ [.unreadable package cause]), none)) ∧
      ∀ policy, (r.usePackage { config with readPolicy := policy } classes resources space package
        anchor).registry = u.registry := by
  intro u
  refine ⟨descriptorLines bytes failure, countedLines_descriptorLines bytes failure, ?_⟩
  intro names problems report
  have used : ∀ policy, (r.usePackage { config with readPolicy := policy } classes resources space
      package anchor).registry = (enterAll classes space names r).1 := by
    intro policy
    have opened' : resources
        ({ config with readPolicy := policy }.descriptorResource package) = .stream bytes failure :=
      opened
    simp only [usePackage, opened', map_descriptorEntries]
    cases failure <;> rfl
  have registry : u.registry = (enterAll classes space names r).1 := used config.readPolicy
  have reported : (enterAll classes space names r).2 = problems :=
    (r.enterAll_eq classes space names).2
  refine ⟨?_, ?_, fun policy => (used policy).trans registry.symm⟩
  · rw [registry]
    exact entered_enterAll reached.owned classes space names
  · simp only [u, usePackage, opened, map_descriptorEntries]
    rw [show enterAll classes space (classesNamed package (descriptorLines bytes failure)) r =
      ((enterAll classes space names r).1, problems) from Prod.ext rfl reported]
    cases failure with
    | none => rfl
    | some cause =>
      cases policy : config.readPolicy with
      | fatal => simp [onFailure, report]
      | report => simp [onFailure, report]

/-- Two directives of one name, and a class that is no directive. -/
def fixtureTable : ClassTable :=
  ((ClassTable.empty.addDirective
    { ClassTable.textSignature with name := "out", owner := "p.First" }).addDirective
    { ClassTable.textSignature with name := "out", owner := "p.Second" }).addClass "p.Plain"

/-- A comment, a blank line, two classes that give no directive and two that give one each. The
reading fails in the middle of the last line. -/
def brokenBytes : List UInt8 :=
  Text.encodeUtf8 "# classes\r\n\n First \nMissing\nPlain\nSecond\nFir"

def brokenResources : Resources := fun _ => .stream brokenBytes (some "broken pipe")

theorem usePackage_of_brokenResources :
    let r := (empty.perform {} fixtureTable (.register "a" ClassTable.textSignature)).1
    let u := r.usePackage { readPolicy := .report } fixtureTable brokenResources "a" "p" ⟨2, 7⟩
    r.Reached ∧
    (∃ lines, CountedLines brokenBytes (some "broken pipe") lines ∧
      Entered fixtureTable "a" (classesNamed "p" lines) r u.registry) ∧
    u.diagnostics.map (·.display) =
      ["[2, 7) Class p.Missing declared by directive package was not found",
        "[2, 7) Class p.Plain is not a directive",
        "[2, 7) Error reading directive package p: broken pipe"] ∧
    (u.registry.resolve "a" "out").map (·.owner) = some "p.Second" ∧
    (u.registry.resolve "a" "text").map (·.owner) = some ClassTable.textClass := by
  intro r u
  have reached : r.Reached := .perform {} fixtureTable _ .empty
  have opened : brokenResources (({ readPolicy := .report } : Config).descriptorResource "p") =
      .stream brokenBytes (some "broken pipe") := rfl
  obtain ⟨lines, counted, entered, -⟩ :=
    usePackage_of_stream reached fixtureTable "a" "p" ⟨2, 7⟩ opened
  exact ⟨reached, ⟨lines, counted, entered⟩, by decide +kernel, by decide +kernel,
    by decide +kernel⟩

/-- The name of a directive may have a colon in it. Its tag under a prefix is then a tag under a
longer prefix too. -/
theorem resolve_other_prefix_changed :
    let named := { ClassTable.textSignature with name := "b:c", owner := "p.X" }
    let u := empty.usePackage {} (ClassTable.empty.addDirective named)
      (fun _ => .stream (Text.encodeUtf8 "X\n") none) "a" "p" ⟨0, 0⟩
    u.diagnostics = [] ∧ u.failure = none ∧ "a:b" ≠ "a" ∧
      (empty.resolve "a:b" "c").map (·.owner) = none ∧
      (u.registry.resolve "a:b" "c").map (·.owner) = some "p.X" := by
  decide +kernel

end Registry

end DirectiveTemplates
