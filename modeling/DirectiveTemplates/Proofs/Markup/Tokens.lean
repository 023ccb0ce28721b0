import DirectiveTemplates.Proofs.Markup.Reading
import DirectiveTemplates.Proofs.Markup.Tags
import DirectiveTemplates.Proofs.Text.Trimming

/-!
What every token takes of the text. A token takes at least one character, its span goes from where
it was read to where the next token is read, and its parts are the text that their spans cover.
-/
namespace DirectiveTemplates.Markup

open Text

/-- How the text goes on where a construct stands. -/
def Opens : Construct → List Char → Prop
  | .comment, cs => ∃ rest, cs = commentOpening ++ rest
  | .cdata, cs => ∃ rest, cs = cdataOpening ++ rest
  | .declaration, cs =>
    ['<', '!'] <+: cs ∧ ¬ commentOpening <+: cs ∧ ¬ cdataOpening <+: cs
  | .instruction, cs => ∃ rest, cs = ['<', '?'] ++ rest
  | .closeTag, cs => ∃ c rest, cs = '<' :: '/' :: c :: rest ∧ isNameStart c = true
  | .openTag, cs => ∃ c rest, cs = '<' :: c :: rest ∧ isNameStart c = true
  | .text, _ => True

theorem opens_constructAt (cs : List Char) : Opens (constructAt cs) cs := by
  unfold constructAt
  split
  · exact ⟨_, rfl⟩
  · exact ⟨_, rfl⟩
  · rename_i rest notComment notCdata
    refine ⟨⟨rest, rfl⟩, ?_, ?_⟩
    · rintro ⟨tail, eq⟩
      simp only [commentOpening, List.cons_append, List.nil_append, List.cons.injEq,
        true_and] at eq
      exact notComment tail eq.symm
    · rintro ⟨tail, eq⟩
      simp only [cdataOpening, List.cons_append, List.nil_append, List.cons.injEq,
        true_and] at eq
      exact notCdata tail eq.symm
  · exact ⟨_, rfl⟩
  · split
    · exact ⟨_, _, rfl, by assumption⟩
    · exact trivial
  · split
    · exact ⟨_, _, rfl, by assumption⟩
    · exact trivial
  · exact trivial

/-- An element that starts raw text: it has content, and its content is text. -/
def StartTag.startsRaw (tag : StartTag) : Bool := !tag.isClosed && isRawText tag.name

/-- A token and the text behind it, with the spans it leaves. Where raw text could start, either a
start tag has it, or nothing is there before an end tag. -/
def TokenFits (source : List Char) (start next : Cursor) : Token → Prop
  | .text t =>
    t.span = start.spanFrom next ∧ TextFits source false t ∧ constructAt start.rest ≠ .closeTag
  | .comment t => t.span = start.spanFrom next ∧ CommentFits source t
  | .instruction i => i.span = start.spanFrom next ∧ InstructionFits source i
  | .declaration s => s = start.spanFrom next ∧ IsDeclaration source s
  | .start tag raw =>
    tag.span.start = start.offset ∧ TagFits source tag ∧
      match raw with
      | none => tag.span.stop = next.offset ∧
          (tag.startsRaw = true → next.rest = [] ∨ constructAt next.rest = .closeTag)
      | some t => t.span = ⟨tag.span.stop, next.offset⟩ ∧ t.span.Within source ∧
          TextFits source true t ∧ tag.startsRaw = true
  | .close _ s => s = start.spanFrom next

def LexemeFits (source : List Char) (start : Cursor) (l : Lexeme) : Prop :=
  (∃ piece, piece ≠ [] ∧ start.Reads piece l.next) ∧ TokenFits source start l.next l.token

def Cursor.tagBody (start : Cursor) : TagReading :=
  readAttributes start (String.ofList (start.skip 1).name)
    ((start.skip 1).skipName.rest.length + 1) (start.skip 1).skipName

def Cursor.startTag (start : Cursor) : StartTag :=
  ⟨String.ofList (start.skip 1).name, start.tagBody.attributes, start.tagBody.selfClosing,
    start.spanFrom start.tagBody.next, (start.skip 1).spanFrom (start.skip 1).skipName⟩

section readers

variable {source : List Char} {start : Cursor}

theorem readStartTag_of_startsRaw (raw : start.startTag.startsRaw = true) :
    readStartTag start =
      ⟨.start start.startTag (readRaw (start.skip 1).name start.tagBody.next).1,
        start.tagBody.problems, (readRaw (start.skip 1).name start.tagBody.next).2⟩ :=
  if_pos raw

theorem readStartTag_of_not_startsRaw (plain : start.startTag.startsRaw = false) :
    readStartTag start =
      ⟨.start start.startTag none, start.tagBody.problems, start.tagBody.next⟩ :=
  if_neg (Bool.not_eq_true _ ▸ plain)

theorem name_of_letter {c : Char} {rest : List Char} (eq : start.rest = '<' :: c :: rest)
    (letter : isNameStart c = true) :
    (start.skip 1).name = c :: (breakAt (startsWithAny isNameEnd) rest).1 := by
  have named : (start.skip 1).rest = c :: rest := by simp [Cursor.skip, Cursor.after, eq]
  simp [Cursor.name, Cursor.textUntil, named, breakAt, startsWithAny,
    isNameEnd_of_isNameStart letter]

theorem reads_tagBody (stands : start.At source) :
    ∃ piece, start.Reads piece start.tagBody.next := by
  have name : (start.skip 1).Reads _ (start.skip 1).skipName := (start.skip 1).reads_goUntil _
  have before := (start.reads_skip 1).trans name
  obtain ⟨piece, attributes, -⟩ := readAttributes_spec start (String.ofList (start.skip 1).name)
    ((start.skip 1).skipName.rest.length + 1) (stands.next before)
  exact ⟨_, before.trans attributes⟩

theorem textFits_raw {s : Span} {value : List Char} (covers : s.Covers source value) :
    TextFits source true ⟨String.ofList value, s⟩ :=
  ⟨value, covers, by simp⟩

theorem textFits_plain {s : Span} {value : List Char} (covers : s.Covers source value)
    (plain : ¬ cdataOpening <+: value) : TextFits source false ⟨String.ofList value, s⟩ := by
  have other : cdataOpening.isPrefixOf value = false := by
    rwa [← Bool.not_eq_true, List.isPrefixOf_iff_prefix]
  exact ⟨value, covers, by simp [other]⟩

theorem readText_spec (stands : start.At source) (more : start.rest ≠ [])
    (text : constructAt start.rest = .text) : LexemeFits source start (readText start) := by
  have reads := (start.reads_skip 1).trans ((start.skip 1).reads_goUntil startsConstruct)
  have one : start.rest.take 1 ≠ [] := by simpa using more
  refine ⟨⟨_, by simp [one], reads⟩, rfl, textFits_plain (stands.covers reads) ?_, by simp [text]⟩
  intro opens
  obtain ⟨rest, eq⟩ := opens.trans ⟨_, reads.1.symm⟩
  rw [← eq] at text
  exact Construct.noConfusion text

theorem readDelimited_delimited {opening : List Char} {inside : Cursor} (close : List Char)
    (some : close ≠ []) (stands : start.At source) (opens : start.Reads opening inside) :
    (∃ piece, start.Reads (opening ++ piece) (readDelimited close inside).2.1) ∧
      Delimited source opening close ⟨String.ofList (readDelimited close inside).1,
        start.spanFrom (readDelimited close inside).2.1⟩ := by
  obtain ⟨found, reads, closing⟩ := readDelimited_spec close (stands.next opens)
  have all := opens.trans reads
  refine ⟨⟨_, all⟩, found, ?_, ?_, closing⟩
  · rw [String.toList_ofList, List.append_assoc]
    exact stands.covers all
  · rw [String.toList_ofList]
    exact not_infix_textUntil some inside

theorem readComment_spec (stands : start.At source) (opens : Opens .comment start.rest) :
    LexemeFits source start (readComment start) := by
  obtain ⟨rest, eq⟩ := opens
  have opening : start.Reads commentOpening (start.skip 4) := Cursor.reads_skip_of_rest eq
  obtain ⟨⟨piece, reads⟩, delimited⟩ :=
    readDelimited_delimited ['-', '-', '>'] (by simp) stands opening
  exact ⟨⟨_, by simp [commentOpening], reads⟩, rfl, delimited⟩

theorem readCdata_spec (stands : start.At source) (opens : Opens .cdata start.rest) :
    LexemeFits source start (readCdata start) := by
  obtain ⟨rest, eq⟩ := opens
  have opening : start.Reads cdataOpening (start.skip 9) := Cursor.reads_skip_of_rest eq
  obtain ⟨⟨piece, reads⟩, delimited⟩ :=
    readDelimited_delimited [']', ']', '>'] (by simp) stands opening
  refine ⟨⟨_, by simp [cdataOpening], reads⟩, rfl, ⟨_, stands.covers reads, ?_⟩, ?_⟩
  · have opened : cdataOpening.isPrefixOf (cdataOpening ++ piece) = true :=
      List.isPrefixOf_iff_prefix.mpr (List.prefix_append cdataOpening piece)
    rw [opened]
    exact delimited
  · rw [eq]
    exact Construct.noConfusion

theorem readDeclaration_spec (stands : start.At source) (opens : Opens .declaration start.rest) :
    LexemeFits source start (readDeclaration start) := by
  obtain ⟨⟨rest, eq⟩, notComment, notCdata⟩ := opens
  obtain ⟨found, reads, closing⟩ := readDelimited_spec ['>'] stands
  have body : ['<', '!'] <+: (readDelimited ['>'] start).1 := by
    simp [readDelimited, Cursor.textUntil, ← eq, breakAt]
  have apart {opening : List Char} (out : ¬ opening <+: start.rest) :
      ¬ opening <+: (readDelimited ['>'] start).1 ++ found := by
    intro inside
    apply out
    rw [reads.1]
    exact inside.trans (List.prefix_append _ _)
  refine ⟨⟨_, ?_, reads⟩, rfl, _, found, stands.covers reads, body, ?_, closing,
    apart notComment, apart notCdata⟩
  · intro none
    rw [(List.append_eq_nil_iff.mp none).1] at body
    exact absurd body (by simp)
  · intro mem
    obtain ⟨before, after, eq⟩ := List.append_of_mem mem
    exact not_infix_textUntil (List.cons_ne_nil '>' []) start ⟨before, after, by simp [← eq]; rfl⟩

theorem readInstruction_spec (stands : start.At source) (opens : Opens .instruction start.rest) :
    LexemeFits source start (readInstruction start) := by
  obtain ⟨rest, eq⟩ := opens
  let behind := (start.skip 2).goUntil (startsOutside isTargetChar)
  let raw := (readDelimited ['?', '>'] behind).1
  have opening : start.Reads ['<', '?'] (start.skip 2) := Cursor.reads_skip_of_rest eq
  have before := opening.trans ((start.skip 2).reads_goUntil (startsOutside isTargetChar))
  obtain ⟨found, reads, -⟩ := readDelimited_spec ['?', '>'] (stands.next before)
  have all := before.trans reads
  obtain ⟨after, -, split⟩ := exists_trim_append raw
  have inside : (behind.spanFrom (readDelimited ['?', '>'] behind).2.1).Covers source
      (raw.takeWhile isBlank ++ (trim raw ++ (after ++ found))) := by
    have covers := (stands.next before).covers reads
    rw [← List.append_assoc (trim raw), ← List.append_assoc, ← split]
    exact covers
  refine ⟨⟨_, by simp, all⟩, rfl, ?_, ?_, ?_⟩
  · show Span.Covers _ source (String.ofList (trim raw)).toList
    rw [String.toList_ofList]
    exact inside.sub
  · exact Nat.le_trans before.le (Nat.le_add_right _ _)
  · show behind.offset + byteLength (raw.takeWhile isBlank) + byteLength (trim raw) ≤
      (readDelimited ['?', '>'] behind).2.1.offset
    have stop : _ = behind.offset + byteLength (raw ++ found) := reads.2
    rw [stop, split]
    simp only [byteLength_append]
    rw [← split]
    omega

/-- Raw text is not empty and goes up to an end tag, or to the end of the text. -/
theorem readRaw_spec (name : List Char) (stands : start.At source) :
    ((readRaw name start).2.rest = [] ∨ startsEndTag name (readRaw name start).2.rest = true) ∧
      match (readRaw name start).1 with
      | none => start.Reads [] (readRaw name start).2
      | some t => ∃ piece, start.Reads piece (readRaw name start).2 ∧
          t.span = start.spanFrom (readRaw name start).2 ∧ t.span.Within source ∧
          TextFits source true t := by
  have reads := start.reads_goUntil (startsEndTag name)
  have stops := start.stop_of_goUntil (startsEndTag name)
  unfold readRaw
  cases value : start.textUntil (startsEndTag name) with
  | nil =>
    rw [value] at reads
    exact ⟨stops, reads⟩
  | cons c cs =>
    rw [value] at reads
    have covers := stands.covers reads
    exact ⟨stops, _, reads, rfl, ⟨_, by simp, covers⟩, textFits_raw covers⟩

theorem readStartTag_spec (stands : start.At source) (opens : Opens .openTag start.rest) :
    LexemeFits source start (readStartTag start) := by
  obtain ⟨c, rest, eq, letter⟩ := opens
  have opening : start.Reads ['<'] (start.skip 1) := Cursor.reads_skip_of_rest eq
  have name : (start.skip 1).Reads (start.skip 1).name (start.skip 1).skipName :=
    (start.skip 1).reads_goUntil _
  have before := opening.trans name
  obtain ⟨piece, attributes, fit⟩ := readAttributes_spec start
    (String.ofList (start.skip 1).name) ((start.skip 1).skipName.rest.length + 1)
    (stands.next before)
  have body : start.Reads _ start.tagBody.next := before.trans attributes
  have within : start.startTag.span.Within source := ⟨_, by simp, stands.covers body⟩
  have tagFits : TagFits source start.startTag := by
    refine ⟨within, ?_, opening.le, fit⟩
    show Span.Covers _ source (String.ofList (start.skip 1).name).toList
    rw [String.toList_ofList]
    exact (stands.next opening).covers name
  cases raw : start.startTag.startsRaw with
  | true =>
    rw [readStartTag_of_startsRaw raw]
    obtain ⟨awaits, found⟩ := readRaw_spec (start.skip 1).name (stands.next body)
    cases value : (readRaw (start.skip 1).name start.tagBody.next).1 with
    | none =>
      rw [value] at found
      refine ⟨⟨_, by simp, body.trans found⟩, rfl, tagFits, found.2.symm, fun _ => ?_⟩
      exact awaits.imp_right (constructAt_of_startsEndTag ⟨c, _, name_of_letter eq letter, letter⟩)
    | some t =>
      rw [value] at found
      obtain ⟨piece, reads, span, some, fits⟩ := found
      exact ⟨⟨_, by simp, body.trans reads⟩, rfl, tagFits, span, some, fits, raw⟩
  | false =>
    rw [readStartTag_of_not_startsRaw raw]
    refine ⟨⟨_, by simp, body⟩, rfl, tagFits, rfl, ?_⟩
    intro starts
    exact absurd (raw.symm.trans starts) Bool.false_ne_true

theorem readEndTag_spec (opens : Opens .closeTag start.rest) :
    LexemeFits source start (readEndTag start) := by
  obtain ⟨c, rest, eq, -⟩ := opens
  have opening : start.Reads ['<', '/'] (start.skip 2) := Cursor.reads_skip_of_rest eq
  have name : (start.skip 2).Reads _ (start.skip 2).skipName := (start.skip 2).reads_goUntil _
  have inside := (start.skip 2).skipName.reads_goUntil (startsWithAny (· == '>'))
  have closing := ((start.skip 2).skipName.goUntil (startsWithAny (· == '>'))).reads_skip 1
  exact ⟨⟨_, by simp, ((opening.trans name).trans inside).trans closing⟩, rfl⟩

theorem readToken_spec (stands : start.At source) (more : start.rest ≠ []) :
    LexemeFits source start (readToken start) := by
  have opens := opens_constructAt start.rest
  unfold readToken
  cases construct : constructAt start.rest with
  | comment => exact readComment_spec stands (construct ▸ opens)
  | cdata => exact readCdata_spec stands (construct ▸ opens)
  | declaration => exact readDeclaration_spec stands (construct ▸ opens)
  | instruction => exact readInstruction_spec stands (construct ▸ opens)
  | closeTag => exact readEndTag_spec (construct ▸ opens)
  | openTag => exact readStartTag_spec stands (construct ▸ opens)
  | text => exact readText_spec stands more construct

end readers

end DirectiveTemplates.Markup
