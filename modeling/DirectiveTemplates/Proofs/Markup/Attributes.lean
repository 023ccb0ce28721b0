import DirectiveTemplates.Proofs.Markup.Documents
import DirectiveTemplates.Proofs.Markup.Reading
import DirectiveTemplates.Proofs.Markup.Scanning

/-!
Reading back attributes. An attribute ends where its value is closed, or where white
space or the end of the tag follows its name; white space alone never hides an equals sign, as the
next name cannot start with one.
-/
namespace DirectiveTemplates.Markup

open Text

/-! Some characters that end names, and letters that do not. -/

theorem isNameEnd_of_isMarkupSpace {c : Char} (h : isMarkupSpace c = true) :
    isNameEnd c = true := by
  simp [isNameEnd, h]

theorem isMarkupSpace_of_not_isNameEnd {c : Char} (h : isNameEnd c = false) :
    isMarkupSpace c = false := by
  cases space : isMarkupSpace c with
  | false => rfl
  | true =>
    rw [isNameEnd_of_isMarkupSpace space] at h
    exact h

theorem ne_of_isNameEnd {c d : Char} (h : isNameEnd c = false) (ended : isNameEnd d = true) :
    c ≠ d := by
  rintro rfl
  rw [ended] at h
  exact absurd h (by decide)

def WrittenTag.remainder (attributes : List WrittenAttribute) (space : List Char) (slash : Bool)
    (after : List Char) : List Char :=
  attributes.flatMap WrittenAttribute.write ++ space ++ tagEnd slash ++ after

theorem exists_tagEnd (slash : Bool) : ∃ d ds, tagEnd slash = d :: ds ∧ isNameEnd d = true ∧
    isMarkupSpace d = false ∧ d ≠ '=' := by
  cases slash with
  | true => exact ⟨'/', ['>'], rfl, by decide, by decide, by decide⟩
  | false => exact ⟨'>', [], rfl, by decide, by decide, by decide⟩

/-- Behind an attribute a name ends, and the first character that is not white space is no equals
sign. -/
theorem remainder_spec {attributes : List WrittenAttribute} {space : List Char}
    (valid : ∀ a ∈ attributes, a.WellFormed) (spaces : IsSpace space) (slash : Bool)
    (after : List Char) :
    startsWithAny isNameEnd (WrittenTag.remainder attributes space slash after) = true ∧
      ∃ gap d more, WrittenTag.remainder attributes space slash after = gap ++ d :: more ∧
        IsSpace gap ∧ isMarkupSpace d = false ∧ d ≠ '=' := by
  cases attributes with
  | nil =>
    obtain ⟨d, ds, eq, ended, visible, other⟩ := exists_tagEnd slash
    have rest : WrittenTag.remainder [] space slash after = space ++ d :: (ds ++ after) := by
      simp [WrittenTag.remainder, eq]
    refine ⟨?_, space, d, ds ++ after, rest, spaces, visible, other⟩
    rw [rest]
    cases space with
    | nil => exact ended
    | cons c cs => exact isNameEnd_of_isMarkupSpace (spaces c List.mem_cons_self)
  | cons a as =>
    have first := valid a List.mem_cons_self
    cases name : a.name with
    | nil => exact absurd name first.named
    | cons d ds =>
      have inside := first.name d (by simp [name])
      have rest : WrittenTag.remainder (a :: as) space slash after =
          a.space ++ d :: (ds ++ ((a.value.map WrittenValue.write).getD [] ++
            WrittenTag.remainder as space slash after)) := by
        simp [WrittenTag.remainder, WrittenAttribute.write, name]
      refine ⟨?_, a.space, d, _, rest, first.space, isMarkupSpace_of_not_isNameEnd inside,
        ne_of_isNameEnd inside (by decide)⟩
      rw [rest]
      cases gap : a.space with
      | nil => exact absurd gap first.spaced
      | cons c cs => exact isNameEnd_of_isMarkupSpace (first.space c (by simp [gap]))

theorem startsOutside_of_cons {d : Char} {more : List Char} (visible : isMarkupSpace d = false) :
    startsOutside isMarkupSpace (d :: more) = true := by
  simp [startsOutside, visible]

theorem readQuoted_eq {v : WrittenValue} (valid : v.WellFormed) {c : Cursor} {after : List Char}
    (rest : c.rest = [v.quote] ++ (v.text ++ ([v.quote] ++ after))) :
    readQuoted v.quote c =
      ⟨v.text, ⟨c.offset + byteLength [v.quote], c.offset + byteLength [v.quote] +
        byteLength v.text⟩, [], c.after ([v.quote] ++ v.text ++ [v.quote]) after⟩ := by
  let inside := c.after [v.quote] (v.text ++ ([v.quote] ++ after))
  have opening : c.skip 1 = inside := Cursor.skip_eq [v.quote] rest
  have found : breakAt (startsWithAny (· == v.quote)) inside.rest =
      (v.text, [v.quote] ++ after) := by
    refine breakAt_class ?_ (by simp [startsWithAny])
    intro d mem
    have other : d ≠ v.quote := fun eq => valid.text (eq ▸ mem)
    simpa using other
  let stop := inside.after v.text ([v.quote] ++ after)
  have closing : stop.skip 1 = c.after ([v.quote] ++ v.text ++ [v.quote]) after := by
    have skip : stop.skip 1 = stop.after [v.quote] after :=
      Cursor.skip_eq [v.quote] rfl
    rw [skip, Cursor.after_after, Cursor.after_after, List.append_assoc]
  simp only [readQuoted, opening, Cursor.textUntil_eq found, Cursor.goUntil_eq found]
  rw [closing]
  rfl

theorem isMarkupSpace_of_isQuote {c : Char} (h : isQuote c = true) : isMarkupSpace c = false := by
  simp only [isQuote, Bool.or_eq_true, decide_eq_true_eq] at h
  rcases h with rfl | rfl
  · rfl
  · rfl

theorem readValue_eq {v : WrittenValue} (valid : v.WellFormed) {c : Cursor} {after : List Char}
    (rest : c.rest = v.write ++ after) :
    (∃ more, c.skipSpace.rest = '=' :: more) ∧
      readValue (c.skipSpace.skip 1).skipSpace =
        ⟨v.text, ⟨c.offset + byteLength v.opening, c.offset + byteLength v.opening +
          byteLength v.text⟩, [], c.after v.write after⟩ := by
  let inside := [v.quote] ++ (v.text ++ ([v.quote] ++ after))
  have rest : c.rest = v.before ++ (['='] ++ (v.behind ++ inside)) := by
    rw [rest]
    simp [WrittenValue.write, WrittenValue.opening, inside]
  have sign : c.skipSpace = c.after v.before (['='] ++ (v.behind ++ inside)) :=
    Cursor.skipSpace_eq v.before rest valid.before (startsOutside_of_cons (by decide))
  have skip : c.skipSpace.skip 1 = c.skipSpace.after ['='] (v.behind ++ inside) := by
    apply Cursor.skip_eq ['=']
    rw [sign]
    rfl
  have opened : (c.skipSpace.skip 1).skipSpace =
      c.after (v.before ++ (['='] ++ v.behind)) inside := by
    rw [skip, sign, Cursor.after_after, Cursor.skipSpace_eq v.behind rfl valid.behind
      (startsOutside_of_cons (isMarkupSpace_of_isQuote valid.quote)), Cursor.after_after,
      List.append_assoc]
    rfl
  constructor
  · rw [sign]
    exact ⟨_, rfl⟩
  · have read : readValue (c.skipSpace.skip 1).skipSpace =
        readQuoted v.quote (c.skipSpace.skip 1).skipSpace := by
      rw [opened]
      simp only [readValue, Cursor.rest_after, inside, List.cons_append, valid.quote, if_true]
    rw [read, opened, readQuoted_eq valid rfl, Cursor.after_after]
    have opening : v.opening = v.before ++ (['='] ++ v.behind) ++ [v.quote] := by
      simp [WrittenValue.opening]
    have write : v.write =
        v.before ++ (['='] ++ v.behind) ++ ([v.quote] ++ v.text ++ [v.quote]) := by
      rw [WrittenValue.write, opening]
      simp only [List.append_assoc]
    rw [opening, write, Cursor.offset_after, byteLength_append _ [v.quote]]
    simp only [Nat.add_assoc]

theorem readAttribute_eq {a : WrittenAttribute} (valid : a.WellFormed) {c : Cursor}
    {after : List Char}
    (rest : c.rest = a.name ++ ((a.value.map WrittenValue.write).getD [] ++ after))
    (ended : startsWithAny isNameEnd after = true) {gap more : List Char} {d : Char}
    (split : after = gap ++ d :: more) (space : IsSpace gap) (visible : isMarkupSpace d = false)
    (other : d ≠ '=') {o : Nat} (offset : c.offset = o + byteLength a.space) :
    readAttribute c = ⟨a.meaning o, [],
      c.after (a.name ++ (a.value.map WrittenValue.write).getD []) after⟩ := by
  cases value : a.value with
  | none =>
    rw [value] at rest
    have rest : c.rest = a.name ++ after := by simpa using rest
    obtain ⟨name, skipName⟩ := Cursor.name_eq rest valid.name ended
    have sign : c.skipName.skipSpace.rest = d :: more := by
      rw [skipName, Cursor.skipSpace_eq gap split space (startsOutside_of_cons visible)]
      rfl
    rw [readAttribute_without_value, name, skipName]
    · simp [WrittenAttribute.meaning, value, Cursor.spanFrom, offset]
    · intro rest' eq
      rw [sign] at eq
      exact other (List.cons.inj eq).1
  | some v =>
    have quoted := valid.value v value
    have rest : c.rest = a.name ++ (v.write ++ after) := by simpa [value] using rest
    have nameEnds : startsWithAny isNameEnd (v.write ++ after) = true := by
      cases before : v.before with
      | nil =>
        simp [WrittenValue.write, WrittenValue.opening, before, startsWithAny, isNameEnd]
      | cons e es =>
        simp [WrittenValue.write, WrittenValue.opening, before, startsWithAny,
          isNameEnd_of_isMarkupSpace (quoted.before e (by simp [before]))]
    obtain ⟨name, skipName⟩ := Cursor.name_eq rest valid.name nameEnds
    obtain ⟨⟨more', sign⟩, read⟩ := readValue_eq quoted (c.rest_after a.name (v.write ++ after))
    rw [← skipName] at sign read
    rw [readAttribute_with_value sign, read, name, skipName]
    simp [WrittenAttribute.meaning, value, Cursor.spanFrom, offset, WrittenValue.write,
      Cursor.after_after, Nat.add_assoc]

theorem readAttributes_cons {c : Cursor} {d : Char} {ds : List Char}
    (rest : c.skipSpace.rest = d :: ds) (inside : isNameEnd d = false) (tag : Cursor)
    (name : String) (steps : Nat) :
    let read := readAttribute c.skipSpace
    let after := readAttributes tag name steps read.next
    readAttributes tag name (steps + 1) c =
      ⟨read.found :: after.attributes, after.selfClosing, read.problems ++ after.problems,
        after.next⟩ := by
  have noEnd := ne_of_isNameEnd (d := '>') inside rfl
  have noSlash := ne_of_isNameEnd (d := '/') inside rfl
  have noOpening := ne_of_isNameEnd (d := '<') inside rfl
  simp only [readAttributes, rest]
  split
  · simp_all
  · simp_all
  · simp_all
  · simp_all
  · simp_all

/-- A character that can neither start a name nor end the tag is passed over. -/
theorem readAttributes_unexpected {c : Cursor} {d : Char} {ds : List Char}
    (rest : c.skipSpace.rest = d :: ds) (bad : isNameEnd d = true) (noEnd : d ≠ '>')
    (noOpening : d ≠ '<') (noSlash : d = '/' → ds.head? ≠ some '>') (tag : Cursor)
    (name : String) (steps : Nat) :
    let after := readAttributes tag name steps (c.skipSpace.skip 1)
    readAttributes tag name (steps + 1) c =
      ⟨after.attributes, after.selfClosing,
        Problem.diagnostic (.unexpectedCharacter d) (c.skipSpace.spanFrom (c.skipSpace.skip 1)) ::
          after.problems, after.next⟩ := by
  simp only [readAttributes, rest]
  split <;> simp_all

theorem readAttributes_of_blank {c : Cursor} (rest : c.skipSpace.rest = []) (tag : Cursor)
    (name : String) (steps : Nat) : readAttributes tag name (steps + 1) c =
      ⟨[], true, [Problem.diagnostic (.endInTag name) (tag.spanFrom c.skipSpace)],
        c.skipSpace⟩ := by
  simp only [readAttributes, rest]

theorem readAttributes_end {space : List Char} {slash : Bool} (spaces : IsSpace space) {c : Cursor}
    {after : List Char} (rest : c.rest = space ++ (tagEnd slash ++ after)) (tag : Cursor)
    (name : String) (steps : Nat) :
    readAttributes tag name (steps + 1) c =
      ⟨[], slash, [], c.after (space ++ tagEnd slash) after⟩ := by
  obtain ⟨d, ds, eq, -, visible, -⟩ := exists_tagEnd slash
  have here : c.skipSpace = c.after space (tagEnd slash ++ after) := by
    apply Cursor.skipSpace_eq space rest spaces
    rw [eq]
    exact startsOutside_of_cons visible
  have skip : c.skipSpace.skip (tagEnd slash).length = c.after (space ++ tagEnd slash) after := by
    rw [here, Cursor.skip_eq (tagEnd slash) rfl, Cursor.after_after]
  cases slash with
  | true =>
    have sign : c.skipSpace.rest = '/' :: '>' :: after := by
      rw [here]
      rfl
    have skip : c.skipSpace.skip 2 = _ := skip
    simp only [readAttributes, sign, skip]
  | false =>
    have sign : c.skipSpace.rest = '>' :: after := by
      rw [here]
      rfl
    have skip : c.skipSpace.skip 1 = _ := skip
    simp only [readAttributes, sign, skip]

theorem readAttributes_eq {attributes : List WrittenAttribute} {space : List Char} {slash : Bool}
    (valid : ∀ a ∈ attributes, a.WellFormed) (spaces : IsSpace space) {c : Cursor}
    {after : List Char} (rest : c.rest = WrittenTag.remainder attributes space slash after)
    (tag : Cursor) (name : String) {steps : Nat} (enough : attributes.length ≤ steps) :
    readAttributes tag name (steps + 1) c = ⟨attributesFrom c.offset attributes, slash, [],
      c.after (attributes.flatMap WrittenAttribute.write ++ space ++ tagEnd slash) after⟩ := by
  induction attributes generalizing c steps with
  | nil =>
    have rest : c.rest = space ++ (tagEnd slash ++ after) := by
      simpa [WrittenTag.remainder] using rest
    exact readAttributes_end spaces rest tag name steps
  | cons a as ih =>
    obtain ⟨steps, rfl⟩ := Nat.exists_eq_add_one_of_ne_zero (Nat.ne_zero_of_lt enough)
    have first := valid a List.mem_cons_self
    have others : ∀ b ∈ as, b.WellFormed := fun b mem => valid b (List.mem_cons_of_mem a mem)
    obtain ⟨ended, gap, e, more, split, blank, visible, other⟩ :=
      remainder_spec others spaces slash after
    let written := (a.value.map WrittenValue.write).getD []
    let inside := a.name ++ (written ++ WrittenTag.remainder as space slash after)
    have rest : c.rest = a.space ++ inside := by
      rw [rest]
      simp [WrittenTag.remainder, WrittenAttribute.write, inside, written]
    cases name : a.name with
    | nil => exact absurd name first.named
    | cons d ds =>
      have nameStart := first.name d (by simp [name])
      have starts : inside =
          d :: (ds ++ (written ++ WrittenTag.remainder as space slash after)) := by
        simp [inside, name]
      have here : c.skipSpace = c.after a.space inside := by
        apply Cursor.skipSpace_eq a.space rest first.space
        rw [starts]
        exact startsOutside_of_cons (isMarkupSpace_of_not_isNameEnd nameStart)
      have read := readAttribute_eq first (c := c.after a.space inside) rfl ended split blank
        visible other rfl
      have sign : c.skipSpace.rest =
          d :: (ds ++ (written ++ WrittenTag.remainder as space slash after)) := by
        rw [here]
        exact starts
      rw [readAttributes_cons sign nameStart, here, read, Cursor.after_after]
      have recurse := ih others (c := c.after (a.space ++ (a.name ++ written))
        (WrittenTag.remainder as space slash after)) rfl (Nat.le_of_succ_le_succ enough)
      simp only [written] at recurse
      rw [recurse, Cursor.after_after]
      simp [attributesFrom, WrittenAttribute.write]

end DirectiveTemplates.Markup
