import DirectiveTemplates.Proofs.Markup.Documents
import DirectiveTemplates.Proofs.Markup.Scanning
import DirectiveTemplates.Proofs.Markup.Tokens

/-!
Reading back text, comments and instructions. Each of them ends where its closing pattern, or the
next construct, is first seen; what a writer may put inside never makes one with what follows.
-/
namespace DirectiveTemplates.Markup

open Text

/-- Where text can end. -/
def Parted (after : List Char) : Prop := after = [] ∨ startsConstruct after = true

/-- A construct is opened by a pattern that plain text does not have. -/
theorem exists_opening {cs : List Char} (h : startsConstruct cs = true) :
    ∃ behind, '<' :: behind <+: cs ∧ '<' ∉ behind ∧
      ∀ plain, IsPlain plain → ¬ '<' :: behind <:+: plain := by
  have opens := opens_constructAt cs
  rw [startsConstruct] at h
  have noOpening {c : Char} (start : isNameStart c = true) : '<' ≠ c := by
    rintro rfl
    exact absurd start (by decide)
  cases construct : constructAt cs with
  | comment =>
    obtain ⟨more, rfl⟩ := construct ▸ opens
    exact ⟨['!'], ⟨_, rfl⟩, by decide, fun _ plain => plain.declaration⟩
  | cdata =>
    obtain ⟨more, rfl⟩ := construct ▸ opens
    exact ⟨['!'], ⟨_, rfl⟩, by decide, fun _ plain => plain.declaration⟩
  | declaration =>
    obtain ⟨starts, -⟩ := construct ▸ opens
    exact ⟨['!'], starts, by decide, fun _ plain => plain.declaration⟩
  | instruction =>
    obtain ⟨more, rfl⟩ := construct ▸ opens
    exact ⟨['?'], ⟨_, rfl⟩, by decide, fun _ plain => plain.instruction⟩
  | closeTag =>
    obtain ⟨c, more, rfl, start⟩ := construct ▸ opens
    refine ⟨['/', c], ⟨more, rfl⟩, ?_, fun _ plain => plain.closeTag c start⟩
    simp [noOpening start]
  | openTag =>
    obtain ⟨c, more, rfl, start⟩ := construct ▸ opens
    refine ⟨[c], ⟨more, rfl⟩, ?_, fun _ plain => plain.openTag c start⟩
    simp [noOpening start]
  | text =>
    rw [construct] at h
    exact absurd h (by decide)

theorem opening_of_parted {after : List Char} (h : Parted after) :
    after = [] ∨ ∃ more, after = '<' :: more := by
  rcases h with rfl | starts
  · exact Or.inl rfl
  · obtain ⟨behind, ⟨more, rfl⟩, -⟩ := exists_opening starts
    exact Or.inr ⟨_, rfl⟩

/-- No construct starts in plain text, not even with what follows the text. -/
theorem startsConstruct_plain {value after rest : List Char} (plain : IsPlain value)
    (parted : Parted after) (suffix : rest <:+ value) (ne : rest ≠ []) :
    startsConstruct (rest ++ after) = false := by
  rw [← Bool.not_eq_true]
  intro starts
  obtain ⟨behind, opens, inner, free⟩ := exists_opening starts
  have whole := prefix_of_prefix_append opens ne (opening_of_parted parted) inner
  exact free value plain (whole.isInfix.trans suffix.isInfix)

/-! The white space around the content of an instruction. -/

theorem takeWhile_isBlank {before content behind : List Char} (blank : IsBlank before)
    (trimmed : trim content = content) (none : content = [] → behind = []) :
    (before ++ content ++ behind).takeWhile isBlank = before := by
  rw [List.append_assoc, List.takeWhile_append_of_pos blank]
  cases content with
  | nil => simp [none rfl]
  | cons c cs =>
    have visible : isBlank c = false :=
      not_isBlank_of_head?_trim (by rw [trimmed, List.head?_cons])
    simp [visible]

/-- White space around the content makes no closing pattern. -/
theorem InstructionWellFormed.not_closed {target before content behind : List Char}
    (valid : InstructionWellFormed target before content behind) :
    ¬ ['?', '>'] <:+: before ++ content ++ behind := by
  intro within
  apply valid.closing
  have within := infix_of_infix_append within fun c last mem => by
    cases last
    exact absurd (valid.blankBehind _ mem) (by decide)
  exact infix_of_append_infix within fun c head mem => by
    cases head
    exact absurd (valid.blankBefore _ mem) (by decide)

section readers

variable {start : Cursor} {after : List Char}

theorem readToken_text {value : List Char} (ne : value ≠ []) (plain : IsPlain value)
    (parted : Parted after) (rest : start.rest = value ++ after) :
    readToken start = ⟨.text ⟨String.ofList value,
      ⟨start.offset, start.offset + byteLength value⟩⟩, [], start.after value after⟩ := by
  have here := startsConstruct_plain plain parted List.suffix_rfl ne
  have construct : constructAt start.rest = .text := by
    rw [rest]
    simpa [startsConstruct] using here
  cases value with
  | nil => exact absurd rfl ne
  | cons c cs =>
    have first : start.skip 1 = start.after [c] (cs ++ after) := Cursor.skip_eq [c] rest
    have found : breakAt startsConstruct (start.skip 1).rest = (cs, after) := by
      rw [first]
      refine breakAt_append_of_forall ?_ parted
      intro rest suffix ne
      exact startsConstruct_plain plain parted (suffix.trans (List.suffix_cons c cs)) ne
    have taken : start.rest.take 1 = [c] := by
      rw [rest]
      rfl
    have next : (start.skip 1).after cs after = start.after (c :: cs) after := by
      rw [first, Cursor.after_after]
      rfl
    simp only [readToken, construct, readText, Cursor.goUntil_eq found, Cursor.textUntil_eq found,
      taken, next]
    rfl

theorem readToken_comment {value : List Char} (free : ¬ ['-', '-', '>'] <:+: value)
    (rest : start.rest = (Written.comment value).write ++ after) :
    readToken start = ⟨.comment ⟨String.ofList value,
      ⟨start.offset, start.offset + byteLength (Written.comment value).write⟩⟩, [],
      start.after (Written.comment value).write after⟩ := by
  have rest : start.rest = commentOpening ++ (value ++ ['-', '-', '>'] ++ after) := by
    rw [rest]
    simp [Written.write, commentOpening]
  have construct : constructAt start.rest = .comment := by
    rw [rest]
    rfl
  have opening : start.skip 4 = start.after commentOpening _ := Cursor.skip_eq commentOpening rest
  have content : (start.skip 4).rest = value ++ (['-', '-', '>'] ++ after) := by
    rw [opening, Cursor.rest_after, List.append_assoc]
  have read : readDelimited ['-', '-', '>'] (start.skip 4) =
      (value, (start.skip 4).after (value ++ ['-', '-', '>']) after, false) :=
    readDelimited_eq ['-', '-'] '>' content (by decide) free
  have next : (start.skip 4).after (value ++ ['-', '-', '>']) after =
      start.after (Written.comment value).write after := by
    rw [opening, Cursor.after_after]
    simp [Written.write, commentOpening]
  simp only [readToken, construct, readComment, read, next]
  rfl

theorem readToken_instruction {target before content behind : List Char}
    (valid : InstructionWellFormed target before content behind)
    (rest : start.rest = (Written.instruction target before content behind).write ++ after) :
    let inside := start.offset + byteLength ['<', '?'] + byteLength target + byteLength before
    readToken start = ⟨.instruction ⟨String.ofList target, String.ofList content,
      ⟨start.offset, start.offset +
        byteLength (Written.instruction target before content behind).write⟩,
      ⟨inside, inside + byteLength content⟩⟩, [],
      start.after (Written.instruction target before content behind).write after⟩ := by
  let raw := before ++ content ++ behind
  have rest : start.rest = ['<', '?'] ++ (target ++ (raw ++ ['?', '>'] ++ after)) := by
    rw [rest]
    simp [Written.write, raw]
  have construct : constructAt start.rest = .instruction := by
    rw [rest]
    rfl
  have opening : start.skip 2 = start.after ['<', '?'] _ := Cursor.skip_eq ['<', '?'] rest
  have found : breakAt (startsOutside isTargetChar) (start.skip 2).rest =
      (target, raw ++ ['?', '>'] ++ after) := by
    rw [opening, startsOutside_eq]
    apply breakAt_class
    · intro c mem
      simp [isTargetChar, valid.named c mem]
    · cases split : before with
      | nil =>
        have none := valid.separated split
        simp [raw, split, none, valid.behind none, startsWithAny, isTargetChar]
      | cons c cs => simp [raw, split, startsWithAny, isTargetChar, valid.space c cs split]
  let inside := start.after (['<', '?'] ++ target) (raw ++ ['?', '>'] ++ after)
  have named : (start.skip 2).goUntil (startsOutside isTargetChar) = inside := by
    rw [Cursor.goUntil_eq found, opening, Cursor.after_after]
  have next : inside.after (raw ++ ['?', '>']) after =
      start.after (Written.instruction target before content behind).write after := by
    rw [Cursor.after_after]
    simp [Written.write, raw]
  have read : readDelimited ['?', '>'] inside =
      (raw, start.after (Written.instruction target before content behind).write after, false) := by
    rw [← next]
    exact readDelimited_eq ['?'] '>' (List.append_assoc raw ['?', '>'] after) (by decide)
      valid.not_closed
  have around := takeWhile_isBlank valid.blankBefore valid.trimmed valid.behind
  have trimmed : trim (before ++ content ++ behind) = content := by
    rw [trim_append_blanks valid.blankBehind, trim_blanks_append valid.blankBefore, valid.trimmed]
  simp only [readToken, construct, readInstruction, Cursor.textUntil_eq found, named, read, raw,
    around, trimmed]
  simp [Cursor.spanFrom, problemIf, inside, Nat.add_assoc]

end readers

end DirectiveTemplates.Markup
