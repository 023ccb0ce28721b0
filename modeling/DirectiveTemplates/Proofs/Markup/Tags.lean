import DirectiveTemplates.Proofs.Markup.Attributes

/-!
Reading back start tags, end tags and raw text. The end tag of an element may have the name of its
element in another case; letters are letters in both.
-/
namespace DirectiveTemplates.Markup

open Text

theorem isNameEnd_of_isNameStart {c : Char} (h : isNameStart c = true) : isNameEnd c = false := by
  cases ended : isNameEnd c with
  | false => rfl
  | true =>
    simp only [isNameEnd, isMarkupSpace, isQuote, Bool.or_eq_true, decide_eq_true_eq] at ended
    rcases ended with
      ((((((((((rfl | rfl) | rfl) | rfl) | rfl) | rfl) | rfl) | rfl) | rfl) | (rfl | rfl)) | rfl)
    all_goals exact absurd h (by decide)

/-- Lower case only changes letters, to letters. -/
theorem toLower_eq_or (c : Char) :
    c.toLower = c ∨ isNameStart c = true ∧ isNameStart c.toLower = true := by
  by_cases upper : c.val ≥ 'A'.val ∧ c.val ≤ 'Z'.val
  · right
    have low : 65 ≤ c.toNat := UInt32.le_iff_toNat_le.mp upper.1
    have high : c.toNat ≤ 90 := UInt32.le_iff_toNat_le.mp upper.2
    have letters : ∀ n ∈ List.range' 65 26,
        isNameStart (Char.ofNat n) = true ∧ isNameStart (Char.ofNat n).toLower = true := by decide
    have letter := letters c.toNat (List.mem_range'_1.mpr ⟨low, by omega⟩)
    rwa [Char.ofNat_toNat] at letter
  · left
    exact dif_neg upper

theorem isNameEnd_toLower (c : Char) : isNameEnd c.toLower = isNameEnd c := by
  rcases toLower_eq_or c with eq | ⟨letter, lower⟩
  · rw [eq]
  · rw [isNameEnd_of_isNameStart letter, isNameEnd_of_isNameStart lower]

theorem isNameStart_toLower (c : Char) : isNameStart c.toLower = isNameStart c := by
  rcases toLower_eq_or c with eq | ⟨letter, lower⟩
  · rw [eq]
  · rw [letter, lower]

theorem name_of_lowerAscii_eq {name other : List Char}
    (inside : ∀ c ∈ name, isNameEnd c = false) (eq : lowerAscii other = lowerAscii name) :
    ∀ c ∈ other, isNameEnd c = false := by
  intro c mem
  have lower : c.toLower ∈ lowerAscii name := by
    rw [← eq]
    exact List.mem_map_of_mem mem
  obtain ⟨d, mem', same⟩ := List.mem_map.mp lower
  rw [← isNameEnd_toLower, ← same, isNameEnd_toLower]
  exact inside d mem'

theorem letter_of_lowerAscii_eq {name other : List Char}
    (letter : ∃ c cs, name = c :: cs ∧ isNameStart c = true)
    (eq : lowerAscii other = lowerAscii name) :
    ∃ c cs, other = c :: cs ∧ isNameStart c = true := by
  obtain ⟨d, ds, rfl, start⟩ := letter
  cases other with
  | nil => exact absurd eq.symm (List.cons_ne_nil _ _)
  | cons c cs =>
    have first : c.toLower = d.toLower := (List.cons.inj eq).1
    refine ⟨c, cs, rfl, ?_⟩
    rw [← isNameStart_toLower, first, isNameStart_toLower]
    exact start

section readers

variable {start : Cursor} {after : List Char}

theorem readEndTag_eq {name : List Char} {e : WrittenEnd}
    (inside : ∀ c ∈ name, isNameEnd c = false) (valid : e.WellFormed name)
    (rest : start.rest = e.write ++ after) :
    readEndTag start = ⟨.close (String.ofList e.name)
      ⟨start.offset, start.offset + byteLength e.write⟩, [], start.after e.write after⟩ := by
  have rest : start.rest = ['<', '/'] ++ (e.name ++ (e.space ++ '>' :: after)) := by
    rw [rest]
    simp [WrittenEnd.write]
  have opening : start.skip 2 = start.after ['<', '/'] _ := Cursor.skip_eq ['<', '/'] rest
  have ended : startsWithAny isNameEnd (e.space ++ '>' :: after) = true := by
    cases space : e.space with
    | nil => rfl
    | cons c cs => exact isNameEnd_of_isMarkupSpace (valid.space c (by simp [space]))
  obtain ⟨named, behind⟩ := Cursor.name_eq (c := start.skip 2) (by rw [opening]; rfl)
    (name_of_lowerAscii_eq inside valid.name) ended
  have found : breakAt (startsWithAny (· == '>')) (start.skip 2).skipName.rest =
      (e.space, '>' :: after) := by
    rw [behind]
    refine breakAt_class ?_ rfl
    intro c mem
    have other : c ≠ '>' := by
      rintro rfl
      exact absurd (valid.space '>' mem) (by decide)
    simpa using other
  let stop := (start.skip 2).skipName.after e.space ('>' :: after)
  have skip : stop.skip 1 = stop.after ['>'] after := Cursor.skip_eq ['>'] rfl
  have next : ((start.skip 2).skipName.goUntil (startsWithAny (· == '>'))).skip 1 =
      start.after e.write after := by
    rw [Cursor.goUntil_eq found, skip, Cursor.after_after, behind, Cursor.after_after, opening,
      Cursor.after_after]
    simp [WrittenEnd.write]
  simp only [readEndTag, named, next]
  rfl

/-! Raw text. -/

theorem startsEndTag_iff (name cs : List Char) :
    startsEndTag name cs = true ↔ '<' :: '/' :: lowerAscii name <+: lowerAscii cs := by
  have take (n : Nat) : lowerAscii (cs.take n) = (lowerAscii cs).take n := by
    simp [lowerAscii]
  rw [startsEndTag, beq_iff_eq, take, List.prefix_iff_eq_take]
  exact eq_comm

theorem eq_of_toLower_eq {c d : Char} (other : isNameStart d = false) (eq : c.toLower = d) :
    c = d := by
  rcases toLower_eq_or c with same | ⟨-, letter⟩
  · exact same.symm.trans eq
  · rw [eq, other] at letter
    exact absurd letter Bool.false_ne_true

theorem constructAt_of_startsEndTag {name cs : List Char}
    (letter : ∃ c rest, name = c :: rest ∧ isNameStart c = true)
    (starts : startsEndTag name cs = true) : constructAt cs = .closeTag := by
  obtain ⟨c, rest, rfl, first⟩ := letter
  obtain ⟨more, eq⟩ := (startsEndTag_iff _ _).mp starts
  match cs, eq with
  | a :: b :: d :: ds, eq =>
    simp only [lowerAscii, List.map_cons, List.cons_append, List.cons.injEq] at eq
    obtain ⟨bracket, slash, same, -⟩ := eq
    have bracket := eq_of_toLower_eq (by decide) bracket.symm
    have slash := eq_of_toLower_eq (by decide) slash.symm
    have start' : isNameStart d = true := by
      rw [← isNameStart_toLower, ← same, isNameStart_toLower]
      exact first
    rw [bracket, slash]
    simp [constructAt, start']
  | [], eq => simp [lowerAscii] at eq
  | [a], eq => simp [lowerAscii] at eq
  | [a, b], eq => simp [lowerAscii] at eq

theorem readRaw_eq {name content : List Char} {e : WrittenEnd}
    (inside : ∀ c ∈ name, isNameEnd c = false)
    (free : ¬ '<' :: '/' :: lowerAscii name <:+: lowerAscii content) (valid : e.WellFormed name)
    (rest : start.rest = content ++ (e.write ++ after)) :
    readRaw name start =
      (Written.rawNode start.offset content, start.after content (e.write ++ after)) := by
  have lower : lowerAscii (e.write ++ after) =
      '<' :: '/' :: lowerAscii name ++ lowerAscii (e.space ++ '>' :: after) := by
    rw [← valid.name]
    simp [WrittenEnd.write, lowerAscii]
  have inner : '<' ∉ '/' :: lowerAscii name := by
    intro mem
    rcases List.mem_cons.mp mem with eq | mem
    · exact absurd eq (by decide)
    · obtain ⟨c, mem, eq⟩ := List.mem_map.mp mem
      have ended := isNameEnd_toLower c
      rw [eq, inside c mem] at ended
      exact absurd ended (by decide)
  have found : breakAt (startsEndTag name) start.rest = (content, e.write ++ after) := by
    rw [rest]
    refine breakAt_append_of_forall ?_ (Or.inr ?_)
    · intro rest suffix ne
      rw [← Bool.not_eq_true, startsEndTag_iff]
      intro starts
      apply free
      have split : lowerAscii (rest ++ (e.write ++ after)) =
          lowerAscii rest ++ lowerAscii (e.write ++ after) := List.map_append
      rw [split] at starts
      have whole := prefix_of_prefix_append starts (by simpa [lowerAscii] using ne)
        (Or.inr ⟨_, lower⟩) inner
      exact whole.isInfix.trans (suffix.map Char.toLower).isInfix
    · rw [startsEndTag_iff, lower]
      exact List.prefix_append _ _
  unfold readRaw
  simp only [Cursor.textUntil_eq found, Cursor.goUntil_eq found]
  cases content with
  | nil => rfl
  | cons c cs => rfl

/-! Start tags. -/

theorem length_le_length_flatMap {attributes : List WrittenAttribute}
    (valid : ∀ a ∈ attributes, a.WellFormed) :
    attributes.length ≤ (attributes.flatMap WrittenAttribute.write).length := by
  induction attributes with
  | nil => exact Nat.le_refl 0
  | cons a as ih =>
    have spaced := List.length_pos_iff.mpr (valid a List.mem_cons_self).spaced
    have others := ih fun b mem => valid b (List.mem_cons_of_mem a mem)
    simp only [List.flatMap_cons, List.length_cons, List.length_append, WrittenAttribute.write]
    omega

theorem readStartTag_eq {t : WrittenTag} {slash : Bool} (valid : t.WellFormed)
    (rest : start.rest = t.write slash ++ after) :
    let tag := t.meaning start.offset slash
    let next := start.after (t.write slash) after
    readStartTag start =
      if !tag.isClosed && isRawText (String.ofList t.name) then
        ⟨.start tag (readRaw t.name next).1, [], (readRaw t.name next).2⟩
      else ⟨.start tag none, [], next⟩ := by
  have rest : start.rest = ['<'] ++
      (t.name ++ WrittenTag.remainder t.attributes t.space slash after) := by
    rw [rest]
    simp [WrittenTag.write, WrittenTag.remainder]
  have opening : start.skip 1 = start.after ['<'] _ := Cursor.skip_eq ['<'] rest
  obtain ⟨ended, -⟩ := remainder_spec valid.attributes valid.space slash after
  obtain ⟨named, behind⟩ := Cursor.name_eq (c := start.skip 1) (by rw [opening]; rfl) valid.name
    ended
  have behind : (start.skip 1).skipName = start.after (['<'] ++ t.name)
      (WrittenTag.remainder t.attributes t.space slash after) := by
    rw [behind, opening, Cursor.after_after]
  have enough : t.attributes.length ≤ (start.skip 1).skipName.rest.length := by
    have le := length_le_length_flatMap valid.attributes
    rw [behind, Cursor.rest_after, WrittenTag.remainder]
    simp only [List.length_append]
    omega
  have remains : (start.skip 1).skipName.rest =
      WrittenTag.remainder t.attributes t.space slash after := by
    rw [behind]
    rfl
  have body := readAttributes_eq valid.attributes valid.space remains start
    (String.ofList t.name) enough
  have next : (start.skip 1).skipName.after (t.attributes.flatMap WrittenAttribute.write ++
      t.space ++ tagEnd slash) after = start.after (t.write slash) after := by
    rw [behind, Cursor.after_after]
    simp [WrittenTag.write]
  rw [next] at body
  have tag : (⟨String.ofList t.name, attributesFrom (start.skip 1).skipName.offset t.attributes,
      slash, start.spanFrom (start.after (t.write slash) after),
      (start.skip 1).spanFrom (start.skip 1).skipName⟩ : StartTag) =
      t.meaning start.offset slash := by
    rw [behind, opening]
    simp [WrittenTag.meaning, Cursor.spanFrom, Nat.add_assoc]
  unfold readStartTag
  simp only [named, body, tag]

end readers

end DirectiveTemplates.Markup
