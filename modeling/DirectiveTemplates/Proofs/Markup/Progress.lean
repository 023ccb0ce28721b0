import DirectiveTemplates.Proofs.Markup.Passing
import DirectiveTemplates.Proofs.Markup.Tokens

/-!
Reading by positions meets no fault. Constructs are told apart by what stands at a cursor, each is
read where the cursors read it, and every round of a loop takes a piece of the text that is left or
leaves the loop.
-/
namespace DirectiveTemplates.Markup.Positions

open Text

section Reading

variable {source : List Char} {c d : Cursor} {piece : List Char}

/-! ### Constructs -/

/-- What the tests for a construct come to. -/
theorem constructAt_eq (cs : List Char) :
    constructAt cs =
      if commentOpening.isPrefixOf cs then .comment
      else if cdataOpening.isPrefixOf cs then .cdata
      else if ['<', '!'].isPrefixOf cs then .declaration
      else if ['<', '?'].isPrefixOf cs then .instruction
      else if ['<', '/'].isPrefixOf cs && (cs.drop 2).head?.any isNameStart then .closeTag
      else if ['<'].isPrefixOf cs && (cs.drop 1).head?.any isNameStart then .openTag
      else .text := by
  have slash : isNameStart '/' = false := by decide
  unfold constructAt
  split
  · rfl
  · rfl
  · rename_i tail notComment notCdata
    have comment : ¬ ['-', '-'] <+: tail := by
      rintro ⟨rest, eq⟩
      exact notComment rest eq.symm
    have cdata : ¬ ['[', 'C', 'D', 'A', 'T', 'A', '['] <+: tail := by
      rintro ⟨rest, eq⟩
      exact notCdata rest eq.symm
    simp [commentOpening, cdataOpening, comment, cdata]
  · rfl
  · simp [commentOpening, cdataOpening, slash]
  · rename_i c tail _ _ notDeclaration notInstruction notClosing
    have closing : ¬ ('/' = c ∧ tail.head?.any isNameStart = true) := by
      rintro ⟨rfl, letter⟩
      cases tail with
      | nil => exact absurd letter (by simp)
      | cons d ds => exact notClosing d ds rfl rfl
    simp [commentOpening, cdataOpening, Ne.symm notDeclaration, Ne.symm notInstruction, closing]
  · rename_i _ _ _ _ _ notTag
    cases cs with
    | nil => rfl
    | cons c rest =>
      by_cases mark : c = '<'
      · subst mark
        cases rest with
        | nil => rfl
        | cons d ds => exact absurd rfl (notTag d ds)
      · simp [commentOpening, cdataOpening, Ne.symm mark]

theorem startsConstruct_eq (cs : List Char) :
    startsConstruct cs =
      (['<', '!'].isPrefixOf cs || ['<', '?'].isPrefixOf cs ||
        (['<', '/'].isPrefixOf cs && (cs.drop 2).head?.any isNameStart) ||
        (['<'].isPrefixOf cs && (cs.drop 1).head?.any isNameStart)) := by
  have longer (opening : List Char) (h : ['<', '!'] <+: opening)
      (other : ['<', '!'].isPrefixOf cs = false) : opening.isPrefixOf cs = false := by
    rw [← Bool.not_eq_true, List.isPrefixOf_iff_prefix] at other ⊢
    exact fun inside => other (h.trans inside)
  rw [startsConstruct, constructAt_eq]
  cases declaration : ['<', '!'].isPrefixOf cs with
  | true =>
    cases commentOpening.isPrefixOf cs <;> cases cdataOpening.isPrefixOf cs <;> rfl
  | false =>
    rw [longer commentOpening ⟨['-', '-'], rfl⟩ declaration,
      longer cdataOpening ⟨['[', 'C', 'D', 'A', 'T', 'A', '['], rfl⟩ declaration]
    cases ['<', '?'].isPrefixOf cs <;>
      cases ['<', '/'].isPrefixOf cs && (cs.drop 2).head?.any isNameStart <;>
      cases ['<'].isPrefixOf cs && (cs.drop 1).head?.any isNameStart <;> rfl

theorem isPrefixOf_mark (cs : List Char) :
    ['<'].isPrefixOf cs = decide (cs.headD '\x00' = '<') := by
  cases cs with
  | nil => rfl
  | cons c cs =>
    by_cases mark : c = '<'
    · simp [mark]
    · have other : ('<' == c) = false := beq_eq_false_iff_ne.mpr (Ne.symm mark)
      rw [List.headD_cons, decide_eq_false mark, List.isPrefixOf, other, Bool.false_and]

theorem isPrefixOf_of_other {cs : List Char} (other : cs.headD '\x00' ≠ '<') (pattern : List Char) :
    ('<' :: pattern).isPrefixOf cs = false := by
  rw [← Bool.not_eq_true, List.isPrefixOf_iff_prefix]
  rintro ⟨rest, rfl⟩
  exact other rfl

/-- A letter behind a pattern is one in the text behind it. -/
theorem letter_behind (stands : c.At source) (pattern : List Char) :
    (pattern.isPrefixOf c.rest && isLetterAt source (c.offset + byteLength pattern)) =
      (pattern.isPrefixOf c.rest && (c.rest.drop pattern.length).head?.any isNameStart) := by
  cases starts : pattern.isPrefixOf c.rest with
  | false => rfl
  | true =>
    obtain ⟨rest, eq⟩ := List.isPrefixOf_iff_prefix.mp starts
    have reads := Cursor.reads_skip_of_rest eq.symm
    rw [← reads.2, isLetterAt_at (stands.next reads)]
    rfl

theorem letter_behind_closing (stands : c.At source) :
    (['<', '/'].isPrefixOf c.rest && isLetterAt source (c.offset + 2)) =
      (['<', '/'].isPrefixOf c.rest && (c.rest.drop 2).head?.any isNameStart) :=
  letter_behind stands ['<', '/']

theorem letter_behind_mark (stands : c.At source) :
    (['<'].isPrefixOf c.rest && isLetterAt source (c.offset + 1)) =
      (['<'].isPrefixOf c.rest && (c.rest.drop 1).head?.any isNameStart) :=
  letter_behind stands ['<']

theorem isConstructAt_at (stands : c.At source) :
    isConstructAt source c.offset = some (startsConstruct c.rest) := by
  have closing := letter_behind_closing stands
  have opening := letter_behind_mark stands
  rw [isPrefixOf_mark] at opening
  simp only [isConstructAt, peek_at stands, startsWith_at stands, Option.bind_eq_bind,
    Option.bind_some, Option.pure_def, closing]
  rw [startsConstruct_eq, isPrefixOf_mark]
  by_cases mark : c.rest.headD '\x00' = '<'
  · simp only [mark, decide_true, Bool.true_and] at opening ⊢
    rw [opening]
  · rw [decide_eq_false mark, isPrefixOf_of_other mark, isPrefixOf_of_other mark,
      isPrefixOf_of_other mark]
    rfl

/-! ### Tokens -/

def scanned (l : Lexeme) : Scan Token := ⟨l.token, l.problems, l.next.offset⟩

theorem scanText_at (stands : c.At source) :
    scanText source c.offset = some (scanned (readText c)) := by
  have opening := c.reads_skip 1
  have text := (c.skip 1).reads_goUntil startsConstruct
  have passed : passWhile source
      (beforeEnd source fun pos => do return !(← isConstructAt source pos)) (c.skip 1).offset =
        some ((c.skip 1).goUntil startsConstruct).offset := by
    apply passWhile_at _ (stands.next opening)
    apply tests_beforeEnd
    intro d stands _
    rw [isConstructAt_at stands]
    rfl
  refine step (advance_at stands) (step passed ?_)
  exact step (between_at stands (opening.trans text)) rfl

/-- A search finds nothing and reading goes to the end, or it finds where reading ends. -/
theorem find_at (close : List Char) (ne : close ≠ []) (stands : c.At source) :
    (find source close c.offset = some none ∧
      ∃ next, readDelimited close c = (c.rest, next, true) ∧ next.offset = byteLength source) ∨
    ∃ text stop next, find source close c.offset = some (some (byteLength text)) ∧
      c.Reads text stop ∧ readDelimited close c = (text, next, false) ∧
      next.offset = c.offset + byteLength text + byteLength close := by
  have reads := c.reads_goUntil close.isPrefixOf
  have found : find source close c.offset =
      some ((splitAt? close c.rest).map (byteLength ·.1)) := by
    rw [find, unread_at stands]
    rfl
  rw [splitAt?_eq ne] at found
  rcases c.stop_of_goUntil close.isPrefixOf with none | closes
  · have rest : (breakAt close.isPrefixOf c.rest).2 = [] := none
    have text : c.textUntil close.isPrefixOf = c.rest := by
      have whole := reads.1
      rw [none, List.append_nil] at whole
      exact whole.symm
    rw [rest] at found
    refine Or.inl ⟨found, (c.goUntil close.isPrefixOf).skip close.length, ?_, ?_⟩
    · rw [readDelimited, text, none]
      rfl
    · apply (stands.next (reads.trans (Cursor.reads_skip _ close.length))).offset_of_rest
      rw [Cursor.skip, Cursor.rest_after, none, List.drop_nil]
  · obtain ⟨after, eq⟩ := List.isPrefixOf_iff_prefix.mp closes
    have closing := Cursor.reads_skip_of_rest eq.symm
    have more : (c.goUntil close.isPrefixOf).rest.isEmpty = false := by
      rw [List.isEmpty_eq_false_iff, ← eq]
      exact List.append_ne_nil_of_left_ne_nil ne _
    have rest : (breakAt close.isPrefixOf c.rest).2.isEmpty = false := more
    rw [rest] at found
    refine Or.inr ⟨_, _, (c.goUntil close.isPrefixOf).skip close.length, found, reads, ?_, ?_⟩
    · rw [readDelimited, more]
      rfl
    · rw [closing.2, reads.2]
      rfl

theorem scanDelimited_at (close : List Char) (ne : close ≠ []) (stands : c.At source) :
    scanDelimited source close c.offset =
      some ((readDelimited close c).1, (readDelimited close c).2.1.offset,
        (readDelimited close c).2.2) := by
  rcases find_at close ne stands with
    ⟨found, next, read, stop⟩ | ⟨text, stop, next, found, reads, read, eq⟩
  · rw [read, stop]
    exact step found (step (unread_at stands) rfl)
  · have value := between_at stands reads
    rw [reads.2] at value
    rw [read, eq]
    exact step found (step value rfl)

theorem scanComment_at (stands : c.At source) (opens : commentOpening <+: c.rest) :
    scanComment source c.offset = some (scanned (readComment c)) := by
  obtain ⟨rest, eq⟩ := opens
  have opening : c.Reads commentOpening (c.skip 4) := Cursor.reads_skip_of_rest eq.symm
  have inside := scanDelimited_at ['-', '-', '>'] (by simp) (stands.next opening)
  rw [opening.2] at inside
  exact step inside rfl

theorem scanCdata_at (stands : c.At source) (opens : cdataOpening <+: c.rest) :
    scanCdata source c.offset = some (scanned (readCdata c)) := by
  obtain ⟨rest, eq⟩ := opens
  have opening : c.Reads cdataOpening (c.skip 9) := Cursor.reads_skip_of_rest eq.symm
  have inside := scanDelimited_at [']', ']', '>'] (by simp) (stands.next opening)
  rw [opening.2] at inside
  exact step inside rfl

theorem scanDeclaration_at (stands : c.At source) :
    scanDeclaration source c.offset = some (scanned (readDeclaration c)) := by
  rcases find_at ['>'] (by simp) stands with
    ⟨found, next, read, stop⟩ | ⟨text, stop, next, found, -, read, eq⟩
  · rw [readDeclaration, read]
    refine step found ?_
    show _ = some (Scan.mk (Token.declaration ⟨c.offset, next.offset⟩) [] next.offset)
    rw [stop]
    rfl
  · have next_eq : next.offset = c.offset + byteLength text + 1 := eq
    rw [readDeclaration, read]
    refine step found ?_
    show _ = some (Scan.mk (Token.declaration ⟨c.offset, next.offset⟩) [] next.offset)
    rw [next_eq]
    rfl

theorem scanInstruction_at (stands : c.At source) (opens : ['<', '?'] <+: c.rest) :
    scanInstruction source c.offset = some (scanned (readInstruction c)) := by
  obtain ⟨rest, eq⟩ := opens
  have opening : c.Reads ['<', '?'] (c.skip 2) := Cursor.reads_skip_of_rest eq.symm
  have target := (c.skip 2).reads_goUntil (startsOutside isTargetChar)
  have inside := stands.next opening
  have behind := inside.next target
  have passed : passChars source isTargetChar (c.skip 2).offset =
      some ((c.skip 2).goUntil (startsOutside isTargetChar)).offset :=
    passChars_at (fun _ _ => rfl) inside
  have start : c.offset + 2 = (c.skip 2).offset := opening.2.symm
  have leading (raw : List Char) : minus (byteLength raw) (byteLength (trimStart raw)) =
      some (byteLength (raw.takeWhile isBlank)) := by
    have whole : byteLength raw =
        byteLength (raw.takeWhile isBlank) + byteLength (trimStart raw) := by
      rw [← byteLength_append, trimStart, List.takeWhile_append_dropWhile]
    rw [whole, minus_add]
  rw [scanInstruction, start]
  refine step passed (step (between_at inside target) ?_)
  exact step (scanDelimited_at _ (by simp) behind) (step (leading _) rfl)

theorem scanEndTag_at (stands : c.At source) (opens : ['<', '/'] <+: c.rest) :
    scanEndTag source c.offset = some (scanned (readEndTag c)) := by
  obtain ⟨rest, eq⟩ := opens
  have opening : c.Reads ['<', '/'] (c.skip 2) := Cursor.reads_skip_of_rest eq.symm
  have inside := stands.next opening
  have name := (c.skip 2).reads_skipName
  have behind := inside.next name
  have stop := (c.skip 2).skipName.reads_goUntil (startsWithAny (· == '>'))
  have passed : passChars source (· != '>') (c.skip 2).skipName.offset =
      some ((c.skip 2).skipName.goUntil (startsWithAny (· == '>'))).offset :=
    passChars_at (fun _ _ => (Bool.not_not _).symm) behind
  have start : c.offset + 2 = (c.skip 2).offset := opening.2.symm
  rw [scanEndTag, start]
  refine step (skipName_at inside) (step (between_at inside name) (step passed ?_))
  exact step (advance_or_end (behind.next stop)) rfl

/-! ### Start tags -/

theorem utf8Size_of_isQuote {quote : Char} (h : isQuote quote = true) : quote.utf8Size = 1 := by
  simp only [isQuote, Bool.or_eq_true, decide_eq_true_eq] at h
  rcases h with rfl | rfl <;> rfl

theorem scanQuoted_at {quote : Char} {rest : List Char} (stands : c.At source)
    (eq : c.rest = quote :: rest) (quoted : isQuote quote = true) :
    scanValue source c.offset =
      some ⟨(readQuoted quote c).span, (readQuoted quote c).problems,
        (readQuoted quote c).next.offset⟩ := by
  have opening : c.Reads [quote] (c.skip 1) := Cursor.reads_skip_of_rest eq
  have inside := stands.next opening
  have text := (c.skip 1).reads_goUntil (startsWithAny (· == quote))
  have behind := inside.next text
  have passed : passChars source (· != quote) (c.skip 1).offset =
      some ((c.skip 1).goUntil (startsWithAny (· == quote))).offset :=
    passChars_at (fun _ _ => (Bool.not_not _).symm) inside
  have mark : minus (c.skip 1).offset 1 = some c.offset := by
    rw [opening.2, byteLength_cons, utf8Size_of_isQuote quoted]
    exact minus_add _ _
  rw [scanValue]
  refine step (peek_at stands) ?_
  rw [eq, List.headD_cons, if_pos quoted]
  refine step (advance_at stands) (step passed ?_)
  rw [atEnd_at behind, readQuoted]
  cases ended : ((c.skip 1).goUntil (startsWithAny (· == quote))).rest.isEmpty with
  | true =>
    refine step mark ?_
    rw [Cursor.offset_skip_of_nil (List.isEmpty_iff.mp ended)]
    rfl
  | false => exact step (advance_at behind) rfl

theorem endsBareValue_cons (x : Char) (xs : List Char) :
    endsBareValue (x :: xs) =
      (isMarkupSpace x || x = '>' || ['/', '>'].isPrefixOf (x :: xs)) := by
  by_cases slash : x = '/'
  · subst slash
    cases xs with
    | nil => rfl
    | cons y ys =>
      by_cases mark : y = '>'
      · subst mark
        rfl
      · simp [endsBareValue, List.isPrefixOf, mark, Ne.symm mark]
  · simp [endsBareValue, List.isPrefixOf, slash, Ne.symm slash]

theorem tests_bare :
    Tests source
      (beforeEnd source fun pos => do
        let c ← peek source pos
        return !isMarkupSpace c && c != '>' && !(← startsWith source ['/', '>'] pos))
      endsBareValue := by
  apply tests_beforeEnd
  intro c stands more
  obtain ⟨x, xs, rest⟩ := List.exists_cons_of_ne_nil more
  refine step (peek_at stands) (step (startsWith_at stands _) ?_)
  rw [rest, endsBareValue_cons, List.headD_cons, Bool.not_or, Bool.not_or]
  rfl

theorem scanBare_at (stands : c.At source) (bare : isQuote (c.rest.headD '\x00') = false) :
    scanValue source c.offset =
      some ⟨(readBare c).span, (readBare c).problems, (readBare c).next.offset⟩ := by
  rw [scanValue]
  refine step (peek_at stands) ?_
  rw [bare]
  exact step (passWhile_at tests_bare stands) rfl

theorem scanValue_at (stands : c.At source) :
    scanValue source c.offset =
      some ⟨(readValue c).span, (readValue c).problems, (readValue c).next.offset⟩ := by
  unfold readValue
  split
  · rename_i x xs eq
    split
    · rename_i quoted
      exact scanQuoted_at stands eq quoted
    · rename_i bare
      exact scanBare_at stands (by rw [eq]; exact Bool.not_eq_true _ ▸ bare)
  · rename_i none
    exact scanBare_at stands (by rw [none]; rfl)

theorem isEmpty_nameSpan (c : Cursor) :
    Span.isEmpty ⟨c.offset, c.skipName.offset⟩ = decide (c.name = []) := by
  rw [Span.isEmpty, c.reads_skipName.2, Bool.eq_iff_iff, beq_iff_eq, decide_eq_true_iff]
  constructor
  · intro same
    have size : c.offset = c.offset + byteLength c.name := same
    apply Classical.byContradiction
    intro ne
    have pos := byteLength_pos ne
    omega
  · intro none
    rw [none]
    rfl

theorem scanAttribute_at (stands : c.At source) :
    scanAttribute source c.offset =
      some (if c.name = [] then none
        else some ⟨(readAttribute c).found, (readAttribute c).problems,
          (readAttribute c).next.offset⟩) := by
  have named := stands.next c.reads_skipName
  have sign := named.next c.skipName.reads_skipSpace
  rw [scanAttribute]
  refine step (skipName_at stands) ?_
  simp only [isEmpty_nameSpan]
  by_cases none : c.name = []
  · simp [none]
  · rw [if_neg none, decide_eq_false none]
    refine step (between_at stands c.reads_skipName) (step (skipSpace_at named) (step (peek_at sign) ?_))
    by_cases signed : ∃ rest, c.skipName.skipSpace.rest = '=' :: rest
    · obtain ⟨rest, eq⟩ := signed
      have behind := sign.next (c.skipName.skipSpace.reads_skip 1)
      have start := behind.next (c.skipName.skipSpace.skip 1).reads_skipSpace
      obtain ⟨_, -, covers, -, -⟩ := readValue_spec start
      rw [readAttribute_with_value eq, eq, List.headD_cons, if_pos rfl]
      refine step (advance_at sign) (step (skipSpace_at behind) (step (scanValue_at start) ?_))
      exact step (between_eq_some.mpr covers) rfl
    · have other : c.skipName.skipSpace.rest.headD '\x00' ≠ '=' := by
        intro eq
        cases rest : c.skipName.skipSpace.rest with
        | nil =>
          rw [rest] at eq
          exact absurd eq (by decide)
        | cons x xs =>
          rw [rest] at eq
          exact signed ⟨xs, by rw [rest, ← eq, List.headD_cons]⟩
      rw [readAttribute_without_value fun rest eq => signed ⟨rest, eq⟩, if_neg other]
      rfl

def tagScanned (so : TagSoFar) (t : TagReading) : Scan (List Attribute × Bool) :=
  ⟨(so.1 ++ t.attributes, t.selfClosing), so.2 ++ t.problems, t.next.offset⟩

theorem name_eq_nil_iff {x : Char} {xs : List Char} (rest : c.rest = x :: xs) :
    c.name = [] ↔ isNameEnd x = true := by
  cases ended : isNameEnd x with
  | true => simp [Cursor.name, Cursor.textUntil, rest, breakAt, startsWithAny, ended]
  | false => simp [name_ne_nil rest ended]

section TagRound

variable (start : Cursor) (name : String) (found : List Attribute) (problems : List Diagnostic)
  {x : Char} {xs : List Char}

theorem tagRound_end (stands : c.At source) (rest : c.skipSpace.rest = []) :
    tagRound source start.offset name c.offset (found, problems) =
      some (.leave ⟨(found, true),
        problems ++ [Problem.diagnostic (.endInTag name) (start.spanFrom c.skipSpace)],
        c.skipSpace.offset⟩) := by
  have here := stands.next c.reads_skipSpace
  refine step (skipSpace_at stands) (step (peek_at here) ?_)
  rw [if_pos (by rw [atEnd_at here, rest]; rfl)]
  rfl

theorem tagRound_stop (stands : c.At source) (rest : c.skipSpace.rest = '>' :: xs) :
    tagRound source start.offset name c.offset (found, problems) =
      some (.leave ⟨(found, false), problems, (c.skipSpace.skip 1).offset⟩) := by
  have here := stands.next c.reads_skipSpace
  refine step (skipSpace_at stands) (step (peek_at here) ?_)
  rw [if_neg (not_atEnd here rest), rest, List.headD_cons,
    if_pos rfl]
  exact step (advance_at here) rfl

theorem tagRound_selfClosing (stands : c.At source) (rest : c.skipSpace.rest = '/' :: '>' :: xs) :
    tagRound source start.offset name c.offset (found, problems) =
      some (.leave ⟨(found, true), problems, (c.skipSpace.skip 2).offset⟩) := by
  have here := stands.next c.reads_skipSpace
  have closing : c.skipSpace.Reads ['/', '>'] (c.skipSpace.skip 2) :=
    Cursor.reads_skip_of_rest rest
  refine step (skipSpace_at stands) (step (peek_at here) ?_)
  rw [if_neg (not_atEnd here rest), rest, List.headD_cons,
    if_neg (by decide)]
  refine step (startsWith_at here _) ?_
  rw [rest, closing.2]
  rfl

theorem tagRound_open (stands : c.At source) (rest : c.skipSpace.rest = '<' :: xs) :
    tagRound source start.offset name c.offset (found, problems) =
      some (.leave ⟨(found, false),
        problems ++ [Problem.diagnostic (.unterminatedTag name) (start.spanFrom c.skipSpace)],
        c.skipSpace.offset⟩) := by
  have here := stands.next c.reads_skipSpace
  refine step (skipSpace_at stands) (step (peek_at here) ?_)
  rw [if_neg (not_atEnd here rest), rest, List.headD_cons,
    if_neg (by decide)]
  refine step (startsWith_at here _) ?_
  rw [rest]
  rfl

theorem tagRound_inside (stands : c.At source) (rest : c.skipSpace.rest = x :: xs)
    (stop : x ≠ '>') (closing : ¬ ['/', '>'] <+: x :: xs) (mark : x ≠ '<') :
    tagRound source start.offset name c.offset (found, problems) =
      some (if isNameEnd x then
        let next := c.skipSpace.skip 1
        .again next.offset (found, problems ++
          [Problem.diagnostic (.unexpectedCharacter x) (c.skipSpace.spanFrom next)])
      else
        let read := readAttribute c.skipSpace
        .again read.next.offset (found ++ [read.found], problems ++ read.problems)) := by
  have here := stands.next c.reads_skipSpace
  have reading := scanAttribute_at here
  refine step (skipSpace_at stands) (step (peek_at here) ?_)
  rw [if_neg (not_atEnd here rest), rest, List.headD_cons,
    if_neg stop]
  refine step (startsWith_at here _) ?_
  rw [rest, if_neg (by rwa [List.isPrefixOf_iff_prefix]), if_neg mark]
  cases ended : isNameEnd x with
  | true =>
    rw [if_pos ((name_eq_nil_iff rest).mpr ended)] at reading
    exact step reading (step (advance_at here) rfl)
  | false =>
    rw [if_neg (name_ne_nil rest ended)] at reading
    exact step reading rfl

end TagRound

theorem tagRounds_at (start : Cursor) (name : String) {steps count : Nat} (so : TagSoFar)
    (stands : c.At source) (enough : c.rest.length < steps) (enough' : c.rest.length < count) :
    rounds source (tagRound source start.offset name) count c.offset so =
      some (tagScanned so (readAttributes start name steps c)) := by
  induction steps generalizing c count so with
  | zero => exact absurd enough (Nat.not_lt_zero _)
  | succ steps ih =>
    obtain ⟨count, rfl⟩ : ∃ n, count = n + 1 := ⟨count - 1, by omega⟩
    obtain ⟨found, problems⟩ := so
    have space := c.reads_skipSpace
    have here := stands.next space
    simp only [readAttributes]
    split
    · rename_i none
      rw [rounds_leave count (tagRound_end start name found problems stands none)]
      simp [tagScanned]
    · rename_i stop
      rw [rounds_leave count (tagRound_stop start name found problems stands stop)]
      simp [tagScanned]
    · rename_i closing
      rw [rounds_leave count (tagRound_selfClosing start name found problems stands closing)]
      simp [tagScanned]
    · rename_i mark
      rw [rounds_leave count (tagRound_open start name found problems stands mark)]
      simp [tagScanned]
    · rename_i x xs stop closing mark rest
      have other : ¬ ['/', '>'] <+: x :: xs := by
        rintro ⟨more, eq⟩
        obtain ⟨slash, tail⟩ := List.cons.inj eq
        exact closing more slash.symm tail.symm
      have inside := tagRound_inside start name found problems stands rest stop other mark
      have later {d : Cursor} {piece : List Char} {so' : TagSoFar}
          (goes : tagRound source start.offset name c.offset (found, problems) =
            some (.again d.offset so'))
          (reads : c.skipSpace.Reads piece d) (some : piece ≠ []) :
          rounds source (tagRound source start.offset name) (count + 1) c.offset
            (found, problems) = .some (tagScanned so' (readAttributes start name steps d)) := by
        have all := space.trans reads
        have some' := List.append_ne_nil_of_right_ne_nil
          (c.textUntil (startsOutside isMarkupSpace)) some
        have shorter := all.length_lt some'
        rw [rounds_again count stands goes all some']
        exact ih so' (here.next reads) (by omega) (by omega)
      cases ended : isNameEnd x with
      | true =>
        rw [if_pos ended] at inside
        rw [later inside (c.skipSpace.reads_skip 1) (by simp [rest])]
        simp [tagScanned]
      | false =>
        rw [if_neg (by simp [ended])] at inside
        obtain ⟨piece, reads, span, fits⟩ := readAttribute_spec here (name_ne_nil rest ended)
        have some : piece ≠ [] := by
          rintro rfl
          have lt := fits.within.lt
          rw [span] at lt
          exact Nat.lt_irrefl _ (Nat.lt_of_lt_of_eq lt reads.2)
        rw [later inside reads some]
        simp [tagScanned]

theorem scanRaw_at (name : List Char) (stands : c.At source) :
    scanRaw source name c.offset = some ((readRaw name c).1, (readRaw name c).2.offset) := by
  have reads := c.reads_goUntil (startsEndTag name)
  have stop : ((splitAt? ('<' :: '/' :: lowerAscii name) (lowerAscii c.rest)).map
      (c.offset + byteLength ·.1)).getD (byteLength source) =
        (c.goUntil (startsEndTag name)).offset := by
    rw [splitAt?_eq (List.cons_ne_nil _ _), breakAt_lowerAscii]
    cases rest : (breakAt (startsEndTag name) c.rest).2 with
    | nil => exact ((stands.next reads).offset_of_rest rest).symm
    | cons x xs => exact congrArg (c.offset + ·) (byteLength_lowerAscii _)
  refine step (unread_at stands) ?_
  simp only [stop]
  rw [readRaw]
  cases value : c.textUntil (startsEndTag name) with
  | nil =>
    rw [value] at reads
    rw [if_neg (by rw [reads.2]; exact Nat.lt_irrefl _)]
    rfl
  | cons x xs =>
    rw [value] at reads
    rw [if_pos (reads.lt (List.cons_ne_nil _ _))]
    exact step (between_at stands reads) rfl

theorem scanStartTag_at (stands : c.At source) :
    scanStartTag source c.offset = some (scanned (readStartTag c)) := by
  have named := stands.next (c.reads_skip 1)
  have behind := named.next (c.skip 1).reads_skipName
  obtain ⟨piece, reads⟩ := reads_tagBody stands
  have body : loop source (tagRound source c.offset (String.ofList (c.skip 1).name))
      (c.skip 1).skipName.offset ([], []) = some (tagScanned ([], []) c.tagBody) :=
    tagRounds_at c _ ([], []) behind (Nat.lt_succ_self _) (Nat.lt_succ_of_le behind.length_le)
  refine step (advance_at stands) (step (skipName_at named) ?_)
  refine step (between_at named (c.skip 1).reads_skipName) (step body ?_)
  cases raw : c.startTag.startsRaw with
  | true =>
    rw [readStartTag_of_startsRaw raw]
    exact (if_pos raw).trans (step (scanRaw_at _ (stands.next reads)) rfl)
  | false =>
    rw [readStartTag_of_not_startsRaw raw]
    exact if_neg (Bool.not_eq_true _ ▸ raw)

theorem scanToken_at (stands : c.At source) :
    scanToken source c.offset = some (scanned (readToken c)) := by
  have closing := letter_behind_closing stands
  have opening := letter_behind_mark stands
  rw [isPrefixOf_mark] at opening
  have prefix_of {pattern : List Char} (starts : pattern.isPrefixOf c.rest = true) :
      pattern <+: c.rest := List.isPrefixOf_iff_prefix.mp starts
  rw [readToken, constructAt_eq]
  refine step (startsWith_at stands _) ?_
  split
  · rename_i comment
    exact scanComment_at stands (prefix_of comment)
  refine step (startsWith_at stands _) ?_
  split
  · rename_i cdata
    exact scanCdata_at stands (prefix_of cdata)
  refine step (startsWith_at stands _) ?_
  split
  · exact scanDeclaration_at stands
  refine step (startsWith_at stands _) ?_
  split
  · rename_i instruction
    exact scanInstruction_at stands (prefix_of instruction)
  refine step (startsWith_at stands _) ?_
  rw [closing]
  by_cases close : (['<', '/'].isPrefixOf c.rest && (c.rest.drop 2).head?.any isNameStart) = true
  · rw [if_pos close, if_pos close]
    exact scanEndTag_at stands (prefix_of (Bool.and_eq_true_iff.mp close).1)
  rw [if_neg close, if_neg close]
  refine step (peek_at stands) ?_
  rw [opening, ← isPrefixOf_mark]
  split
  · exact scanStartTag_at stands
  · exact scanText_at stands

theorem tokenRound_end (stands : c.At source) (b : Builder) (none : c.rest = []) :
    tokenRound source c.offset b = some (.leave (b.finish (byteLength source))) := by
  rw [tokenRound, if_pos (by rw [atEnd_at stands, none]; rfl)]
  rfl

theorem tokenRound_at (stands : c.At source) (b : Builder) (more : c.rest ≠ []) :
    tokenRound source c.offset b =
      some (.again (readToken c).next.offset (b.step (readToken c))) := by
  obtain ⟨⟨piece, -, reads⟩, -⟩ := readToken_spec stands more
  rw [tokenRound, if_neg (by rw [atEnd_at stands]; simpa using more)]
  exact step (scanToken_at stands) (step (unread_at (stands.next reads)) rfl)

theorem tokenRounds_at (stands : c.At source) (b : Builder) {steps count : Nat}
    (enough : c.rest.length ≤ steps) (enough' : c.rest.length < count) :
    rounds source (tokenRound source) count c.offset b =
      some (((lexemesFrom steps c).foldl Builder.step b).finish (byteLength source)) := by
  induction steps generalizing c b count with
  | zero =>
    obtain ⟨count, rfl⟩ : ∃ n, count = n + 1 := ⟨count - 1, by omega⟩
    exact rounds_leave count
      (tokenRound_end stands b (List.length_eq_zero_iff.mp (Nat.le_zero.mp enough)))
  | succ steps ih =>
    obtain ⟨count, rfl⟩ : ∃ n, count = n + 1 := ⟨count - 1, by omega⟩
    rw [lexemesFrom]
    by_cases none : c.rest = []
    · rw [none]
      exact rounds_leave count (tokenRound_end stands b none)
    · obtain ⟨⟨piece, some, reads⟩, -⟩ := readToken_spec stands none
      have more : c.rest.isEmpty = false := by simpa using none
      have shorter := reads.length_lt some
      rw [rounds_again count stands (tokenRound_at stands b none) reads some, more]
      exact ih (stands.next reads) _ (by omega) (by omega)

end Reading

theorem scan_eq_parse (source : String) : scan source = some (parse source) := by
  have start : Cursor.At source.toList ⟨0, source.toList⟩ := ⟨[], rfl, rfl⟩
  have read : loop source.toList (tokenRound source.toList) 0 Builder.empty =
      some (((lexemes source).foldl Builder.step Builder.empty).finish source.utf8ByteSize) := by
    rw [utf8ByteSize_eq]
    exact tokenRounds_at start Builder.empty (Nat.le_refl _) (Nat.lt_succ_of_le start.length_le)
  exact step read rfl

/-- Markup is read by positions without a fault, and what is read is its forest. The source is cut
at a position only where a text is left in it, and between two positions only around a piece of it;
and where text is left, a token takes some of it. -/
theorem scan_meets_no_fault (source : String) :
    scan source = some (parse source) ∧
    (∀ pos rest, unread source.toList pos = some rest ↔ Cursor.At source.toList ⟨pos, rest⟩) ∧
    (∀ start stop piece, between source.toList start stop = some piece ↔
      Span.Covers ⟨start, stop⟩ source.toList piece) ∧
    ∀ c : Cursor, c.At source.toList → c.rest ≠ [] →
      ∃ piece, piece ≠ [] ∧ c.Reads piece (readToken c).next := by
  refine ⟨scan_eq_parse source, fun _ _ => unread_eq_some, fun _ _ _ => between_eq_some, ?_⟩
  intro c stands more
  exact (readToken_spec stands more).1

end DirectiveTemplates.Markup.Positions
