import DirectiveTemplates.Proofs.Markup.RoundTrip

/-!
Markup with more text behind it. A scan looks no further than the place where it stops, so a token
that has its end in the text is read as it is, whatever comes behind.
-/
namespace DirectiveTemplates.Markup

open Text

/-- A text that is empty or ends with `>`. -/
def Closed (cs : List Char) : Prop := ∀ c, cs.getLast? = some c → c = '>'

theorem Closed.suffix {cs rest : List Char} (h : Closed cs) (suffix : rest <:+ cs) :
    Closed rest := by
  obtain ⟨before, rfl⟩ := suffix
  intro c last
  apply h
  rw [List.getLast?_append, last]
  rfl

/-! Scans. -/

/-- How a scan comes to the place where it stops does not depend on what is behind that place. -/
def Local (stop : List Char → Bool) : Prop :=
  ∀ before here more, here ≠ [] → stop here = true →
    stop (before ++ here ++ more) = stop (before ++ here)

theorem local_startsWithAny (class? : Char → Bool) : Local (startsWithAny class?) := by
  intro before here more ne _
  cases before with
  | nil =>
    cases here with
    | nil => exact absurd rfl ne
    | cons c cs => rfl
  | cons c cs => rfl

theorem local_startsOutside (class? : Char → Bool) : Local (startsOutside class?) := by
  rw [startsOutside_eq]
  exact local_startsWithAny _

theorem prefix_append_iff_of_length_le {pattern cs : List Char} (le : pattern.length ≤ cs.length)
    (more : List Char) : pattern <+: cs ++ more ↔ pattern <+: cs :=
  ⟨fun h => List.prefix_of_prefix_length_le h (List.prefix_append cs more) le,
    fun h => h.trans (List.prefix_append cs more)⟩

theorem local_isPrefixOf (pattern : List Char) : Local pattern.isPrefixOf := by
  intro before here more _ stops
  have le := (List.isPrefixOf_iff_prefix.mp stops).length_le
  rw [Bool.eq_iff_iff, List.isPrefixOf_iff_prefix, List.isPrefixOf_iff_prefix]
  apply prefix_append_iff_of_length_le
  rw [List.length_append]
  omega

theorem local_startsEndTag (name : List Char) : Local (startsEndTag name) := by
  intro before here more _ stops
  have le := ((startsEndTag_iff _ _).mp stops).length_le
  have split : lowerAscii (before ++ here ++ more) =
      lowerAscii (before ++ here) ++ lowerAscii more := List.map_append
  rw [Bool.eq_iff_iff, startsEndTag_iff, startsEndTag_iff, split]
  apply prefix_append_iff_of_length_le
  simp only [lowerAscii, List.length_map, List.length_append] at le ⊢
  omega

theorem local_endsBareValue : Local endsBareValue := by
  intro before here more ne stops
  match before, here with
  | _, [] => exact absurd rfl ne
  | [], [c] =>
    have noSlash : c ≠ '/' := by
      rintro rfl
      cases stops
    simp [endsBareValue, noSlash]
  | [], c :: d :: cs => by_cases slash : c = '/' <;> by_cases bracket : d = '>' <;>
      simp [endsBareValue, slash, bracket]
  | [a], c :: cs => by_cases slash : a = '/' <;> by_cases bracket : c = '>' <;>
      simp [endsBareValue, slash, bracket]
  | a :: b :: before, c :: cs => by_cases slash : a = '/' <;> by_cases bracket : b = '>' <;>
      simp [endsBareValue, slash, bracket]

/-- Two or three characters tell whether a construct starts. -/
theorem startsConstruct_cons (a b : Char) (cs : List Char) : startsConstruct (a :: b :: cs) =
    (a == '<' && (b == '!' || b == '?' || isNameStart b ||
      b == '/' && cs.head?.any isNameStart)) := by
  have slash : isNameStart '/' = false := by decide
  by_cases other : a ≠ '<'
  · simp [startsConstruct, constructAt, other]
  obtain rfl : a = '<' := Decidable.not_not.mp other
  by_cases bang : b = '!'
  · subst bang
    exact startsConstruct_declaration cs
  by_cases query : b = '?'
  · subst query
    rfl
  by_cases closing : b = '/'
  · subst closing
    cases cs with
    | nil => rfl
    | cons c cs =>
      cases letter : isNameStart c <;> simp [startsConstruct, constructAt, letter, slash]
  · cases letter : isNameStart b <;>
      simp [startsConstruct, constructAt, letter, bang, query, closing]

theorem local_startsConstruct : Local startsConstruct := by
  intro before here more ne stops
  match before, here with
  | _, [] => exact absurd rfl ne
  | _, [c] => simp [startsConstruct, constructAt] at stops
  | [], a :: b :: cs =>
    have slash : isNameStart '/' = false := by decide
    simp only [List.nil_append, List.cons_append, startsConstruct_cons] at stops ⊢
    cases cs with
    | nil => by_cases closing : b = '/' <;> simp_all
    | cons c cs => rfl
  | [a], b :: c :: cs => simp [startsConstruct_cons]
  | [a, b], c :: cs => simp [startsConstruct_cons]
  | a :: b :: c :: before, cs => simp [startsConstruct_cons]

/-- How the text goes on behind the two characters that start a declaration. -/
theorem constructAt_bang (cs : List Char) :
    constructAt ('<' :: '!' :: cs) =
      if commentOpening <+: '<' :: '!' :: cs then .comment
      else if cdataOpening <+: '<' :: '!' :: cs then .cdata
      else .declaration := by
  have opens := opens_constructAt ('<' :: '!' :: cs)
  have one : constructAt ('<' :: '!' :: cs) = .comment ∨
      constructAt ('<' :: '!' :: cs) = .cdata ∨
      constructAt ('<' :: '!' :: cs) = .declaration := by
    unfold constructAt
    split <;> grind
  rcases one with comment | cdata | declaration
  · obtain ⟨rest, eq⟩ := comment ▸ opens
    rw [comment, if_pos ⟨rest, eq.symm⟩]
  · obtain ⟨rest, eq⟩ := cdata ▸ opens
    have other : ¬ commentOpening <+: '<' :: '!' :: cs := by
      rw [eq]
      simp [commentOpening, cdataOpening]
    rw [cdata, if_neg other, if_pos ⟨rest, eq.symm⟩]
  · obtain ⟨-, noComment, noCdata⟩ := declaration ▸ opens
    rw [declaration, if_neg noComment, if_neg noCdata]

/-- A pattern that has no `>` does not go over the end of a text that has one. -/
theorem prefix_of_prefix_append_of_mem {pattern cs more : List Char} (h : pattern <+: cs ++ more)
    (mem : '>' ∈ cs) (other : '>' ∉ pattern) : pattern <+: cs := by
  rcases List.prefix_or_prefix_of_prefix h (List.prefix_append cs more) with inside | longer
  · exact inside
  · exact absurd (longer.subset mem) other

/-- The construct at the start of a text, where it is closed when it is a declaration, does not
depend on what comes behind. -/
theorem constructAt_append (cs more : List Char) (other : constructAt cs ≠ .text)
    (closed : constructAt cs = .declaration → '>' ∈ cs) :
    constructAt (cs ++ more) = constructAt cs := by
  have opens := opens_constructAt cs
  cases construct : constructAt cs with
  | text => exact absurd construct other
  | comment =>
    obtain ⟨rest, rfl⟩ := construct ▸ opens
    rfl
  | cdata =>
    obtain ⟨rest, rfl⟩ := construct ▸ opens
    rfl
  | instruction =>
    obtain ⟨rest, rfl⟩ := construct ▸ opens
    rfl
  | closeTag =>
    obtain ⟨c, rest, rfl, letter⟩ := construct ▸ opens
    simp [constructAt, letter]
  | openTag =>
    obtain ⟨c, rest, rfl, letter⟩ := construct ▸ opens
    exact constructAt_openTag _ letter
  | declaration =>
    have mem := closed construct
    obtain ⟨⟨rest, rfl⟩, noComment, noCdata⟩ := construct ▸ opens
    have none {pattern : List Char} (other : '>' ∉ pattern)
        (none : ¬ pattern <+: ['<', '!'] ++ rest) : ¬ pattern <+: ['<', '!'] ++ rest ++ more :=
      fun h => none (prefix_of_prefix_append_of_mem h mem other)
    refine (constructAt_bang (rest ++ more)).trans ?_
    exact (if_neg (none (by decide) noComment)).trans (if_neg (none (by decide) noCdata))

theorem breakAt_extend {stop : List Char → Bool} (near : Local stop) {cs : List Char}
    (more : List Char) (stops : (breakAt stop cs).2 ≠ []) :
    breakAt stop (cs ++ more) = ((breakAt stop cs).1, (breakAt stop cs).2 ++ more) := by
  have here := (stop_of_breakAt stop cs).resolve_left stops
  have split : cs ++ more = (breakAt stop cs).1 ++ ((breakAt stop cs).2 ++ more) := by
    rw [← List.append_assoc, breakAt_append]
  rw [split]
  apply breakAt_append_of_forall
  · intro rest suffix ne
    rw [← List.append_assoc, near rest _ more stops here]
    exact not_stop_of_breakAt stop cs rest suffix ne
  · have same := near [] _ more stops here
    rw [List.nil_append] at same
    exact Or.inr (same.trans here)

/-- A scan that stops at `>` stops in every text that ends with it. -/
theorem breakAt_ne_nil {stop : List Char → Bool} (atEnd : stop ['>'] = true) {cs : List Char}
    (closed : Closed cs) (ne : cs ≠ []) : (breakAt stop cs).2 ≠ [] := by
  induction cs with
  | nil => exact absurd rfl ne
  | cons c cs ih =>
    unfold breakAt
    split
    · exact List.cons_ne_nil c cs
    · rename_i goesOn
      apply ih (closed.suffix (List.suffix_cons c cs))
      rintro rfl
      have last : c = '>' := closed c rfl
      rw [last] at goesOn
      exact goesOn atEnd

/-! Readers. -/

def Cursor.extend (c : Cursor) (more : List Char) : Cursor := { c with rest := c.rest ++ more }

def Lexeme.extend (l : Lexeme) (more : List Char) : Lexeme := { l with next := l.next.extend more }

def ValueReading.extend (v : ValueReading) (more : List Char) : ValueReading :=
  { v with next := v.next.extend more }

def AttributeReading.extend (a : AttributeReading) (more : List Char) : AttributeReading :=
  { a with next := a.next.extend more }

def TagReading.extend (t : TagReading) (more : List Char) : TagReading :=
  { t with next := t.next.extend more }

namespace Cursor

variable {c d : Cursor} {stop : List Char → Bool} (more : List Char)

@[simp] theorem rest_extend (c : Cursor) : (c.extend more).rest = c.rest ++ more := rfl

@[simp] theorem offset_extend (c : Cursor) : (c.extend more).offset = c.offset := rfl

@[simp] theorem spanFrom_extend (c d : Cursor) :
    (c.extend more).spanFrom (d.extend more) = c.spanFrom d := rfl

theorem isEmpty_rest_extend (ne : c.rest ≠ []) :
    (c.extend more).rest.isEmpty = c.rest.isEmpty := by
  rw [List.isEmpty_eq_false_iff.mpr ne, List.isEmpty_eq_false_iff]
  exact List.append_ne_nil_of_left_ne_nil ne more

theorem Reads.closed {piece : List Char} (h : c.Reads piece d) (closed : Closed c.rest) :
    Closed d.rest :=
  closed.suffix ⟨piece, h.1.symm⟩

theorem Reads.rest_ne_nil {piece : List Char} (h : c.Reads piece d) (ne : d.rest ≠ []) :
    c.rest ≠ [] := by
  rw [h.1]
  exact List.append_ne_nil_of_right_ne_nil piece ne

theorem rest_ne_nil_of_goUntil (ne : (c.goUntil stop).rest ≠ []) : c.rest ≠ [] :=
  (c.reads_goUntil stop).rest_ne_nil ne

theorem rest_ne_nil_of_skip {n : Nat} (ne : (c.skip n).rest ≠ []) : c.rest ≠ [] :=
  (c.reads_skip n).rest_ne_nil ne

theorem skip_extend {n : Nat} (le : n ≤ c.rest.length) :
    (c.extend more).skip n = (c.skip n).extend more := by
  simp [skip, extend, after, List.take_append_of_le_length le, List.drop_append_of_le_length le]

theorem skip_one_extend (ne : c.rest ≠ []) : (c.extend more).skip 1 = (c.skip 1).extend more :=
  skip_extend more (List.length_pos_iff.mpr ne)

theorem textUntil_extend (near : Local stop) (stops : (c.goUntil stop).rest ≠ []) :
    (c.extend more).textUntil stop = c.textUntil stop := by
  rw [textUntil, rest_extend, breakAt_extend near more stops]
  rfl

theorem goUntil_extend (near : Local stop) (stops : (c.goUntil stop).rest ≠ []) :
    (c.extend more).goUntil stop = (c.goUntil stop).extend more := by
  rw [goUntil, rest_extend, breakAt_extend near more stops]
  rfl

theorem skipSpace_extend (stops : c.skipSpace.rest ≠ []) :
    (c.extend more).skipSpace = c.skipSpace.extend more :=
  goUntil_extend more (local_startsOutside _) stops

theorem skipName_extend (stops : c.skipName.rest ≠ []) :
    (c.extend more).skipName = c.skipName.extend more :=
  goUntil_extend more (local_startsWithAny _) stops

theorem name_extend (stops : c.skipName.rest ≠ []) : (c.extend more).name = c.name :=
  textUntil_extend more (local_startsWithAny _) stops

end Cursor

section readers

variable {start : Cursor} (more : List Char)

theorem readDelimited_extend {close : List Char} (found : (readDelimited close start).2.2 = false) :
    readDelimited close (start.extend more) =
      ((readDelimited close start).1, (readDelimited close start).2.1.extend more,
        (readDelimited close start).2.2) := by
  have near := local_isPrefixOf close
  have stops : (start.goUntil close.isPrefixOf).rest ≠ [] := by
    simpa [readDelimited] using found
  have whole : close.length ≤ (start.goUntil close.isPrefixOf).rest.length := by
    have here := (start.stop_of_goUntil close.isPrefixOf).resolve_left stops
    exact (List.isPrefixOf_iff_prefix.mp here).length_le
  simp only [readDelimited, Cursor.textUntil_extend more near stops,
    Cursor.goUntil_extend more near stops, Cursor.skip_extend more whole,
    Cursor.isEmpty_rest_extend more stops]

theorem readText_extend (goesOn : (readText start).next.rest ≠ []) :
    readText (start.extend more) = (readText start).extend more := by
  have ne : start.rest ≠ [] := Cursor.rest_ne_nil_of_skip (Cursor.rest_ne_nil_of_goUntil goesOn)
  have one : 1 ≤ start.rest.length := List.length_pos_iff.mpr ne
  simp only [readText, Cursor.skip_one_extend more ne,
    Cursor.goUntil_extend more local_startsConstruct goesOn,
    Cursor.textUntil_extend more local_startsConstruct goesOn, Cursor.spanFrom_extend,
    Cursor.rest_extend, List.take_append_of_le_length one]
  rfl

theorem readComment_extend (opens : Opens .comment start.rest)
    (found : (readDelimited ['-', '-', '>'] (start.skip 4)).2.2 = false) :
    readComment (start.extend more) = (readComment start).extend more := by
  obtain ⟨rest, eq⟩ := opens
  have opening : 4 ≤ start.rest.length := by simp [eq, commentOpening]
  simp only [readComment, Cursor.skip_extend more opening, readDelimited_extend more found,
    Cursor.spanFrom_extend]
  rfl

theorem readCdata_extend (opens : Opens .cdata start.rest)
    (found : (readDelimited [']', ']', '>'] (start.skip 9)).2.2 = false) :
    readCdata (start.extend more) = (readCdata start).extend more := by
  obtain ⟨rest, eq⟩ := opens
  have opening : 9 ≤ start.rest.length := by simp [eq, cdataOpening]
  simp only [readCdata, Cursor.skip_extend more opening, readDelimited_extend more found,
    Cursor.spanFrom_extend]
  rfl

theorem readDeclaration_extend (found : (readDelimited ['>'] start).2.2 = false) :
    readDeclaration (start.extend more) = (readDeclaration start).extend more := by
  simp only [readDeclaration, readDelimited_extend more found, Cursor.spanFrom_extend]
  rfl

theorem readInstruction_extend (opens : Opens .instruction start.rest)
    (found : (readDelimited ['?', '>']
      ((start.skip 2).goUntil (startsOutside isTargetChar))).2.2 = false) :
    readInstruction (start.extend more) = (readInstruction start).extend more := by
  obtain ⟨rest, eq⟩ := opens
  have opening : 2 ≤ start.rest.length := by simp [eq]
  have stops : ((start.skip 2).goUntil (startsOutside isTargetChar)).rest ≠ [] := by
    have closes : (((start.skip 2).goUntil (startsOutside isTargetChar)).goUntil
        (List.isPrefixOf ['?', '>'])).rest ≠ [] := by simpa [readDelimited] using found
    exact Cursor.rest_ne_nil_of_goUntil closes
  have near := local_startsOutside isTargetChar
  simp only [readInstruction, Cursor.skip_extend more opening,
    Cursor.textUntil_extend more near stops, Cursor.goUntil_extend more near stops,
    readDelimited_extend more found, Cursor.offset_extend, Cursor.spanFrom_extend]
  rfl

theorem readEndTag_extend (opens : Opens .closeTag start.rest)
    (stops : ((start.skip 2).skipName.goUntil (startsWithAny (· == '>'))).rest ≠ []) :
    readEndTag (start.extend more) = (readEndTag start).extend more := by
  obtain ⟨c, rest, eq, -⟩ := opens
  have opening : 2 ≤ start.rest.length := by simp [eq]
  have named := Cursor.rest_ne_nil_of_goUntil stops
  simp only [readEndTag, Cursor.skip_extend more opening, Cursor.name_extend more named,
    Cursor.skipName_extend more named, Cursor.goUntil_extend more (local_startsWithAny _) stops,
    Cursor.skip_one_extend more stops, Cursor.spanFrom_extend]
  rfl

theorem readQuoted_extend (quote : Char) (goesOn : (readQuoted quote start).next.rest ≠ []) :
    readQuoted quote (start.extend more) = (readQuoted quote start).extend more := by
  have stops : ((start.skip 1).goUntil (startsWithAny (· == quote))).rest ≠ [] :=
    Cursor.rest_ne_nil_of_skip goesOn
  have ne : start.rest ≠ [] := Cursor.rest_ne_nil_of_skip (Cursor.rest_ne_nil_of_goUntil stops)
  have near := local_startsWithAny (· == quote)
  simp only [readQuoted, Cursor.skip_one_extend more ne, Cursor.textUntil_extend more near stops,
    Cursor.goUntil_extend more near stops, Cursor.skip_one_extend more stops,
    Cursor.spanFrom_extend, Cursor.isEmpty_rest_extend more stops]
  rfl

theorem readBare_extend (goesOn : (readBare start).next.rest ≠ []) :
    readBare (start.extend more) = (readBare start).extend more := by
  simp only [readBare, Cursor.textUntil_extend more local_endsBareValue goesOn,
    Cursor.goUntil_extend more local_endsBareValue goesOn, Cursor.spanFrom_extend]
  rfl

theorem rest_readValue_of_nil (rest : start.rest = []) : (readValue start).next.rest = [] := by
  simp [readValue, rest, readBare, Cursor.goUntil, Cursor.after, breakAt]

theorem readValue_extend (goesOn : (readValue start).next.rest ≠ []) :
    readValue (start.extend more) = (readValue start).extend more := by
  cases rest : start.rest with
  | nil => exact absurd (rest_readValue_of_nil rest) goesOn
  | cons c cs =>
    unfold readValue at goesOn ⊢
    simp only [rest, Cursor.rest_extend, List.cons_append] at goesOn ⊢
    split
    · rename_i quote
      rw [if_pos quote] at goesOn
      exact readQuoted_extend more c goesOn
    · rename_i bare
      rw [if_neg bare] at goesOn
      exact readBare_extend more goesOn

/-- White space behind a name is looked over for an equals sign. -/
theorem readAttribute_extend (goesOn : (readAttribute start).next.skipSpace.rest ≠ []) :
    readAttribute (start.extend more) = (readAttribute start).extend more := by
  cases rest : start.skipName.skipSpace.rest with
  | nil =>
    rw [readAttribute_without_value (by simp [rest])] at goesOn
    exact absurd rest goesOn
  | cons c cs =>
    have spaced : start.skipName.skipSpace.rest ≠ [] := by simp [rest]
    have named := Cursor.rest_ne_nil_of_goUntil spaced
    have skipName := Cursor.skipName_extend more named
    have sign : (start.extend more).skipName.skipSpace = start.skipName.skipSpace.extend more := by
      rw [skipName, Cursor.skipSpace_extend more spaced]
    have rest' : (start.extend more).skipName.skipSpace.rest = c :: (cs ++ more) := by
      rw [sign, Cursor.rest_extend, rest, List.cons_append]
    by_cases equals : c = '='
    · subst equals
      rw [readAttribute_with_value rest] at goesOn
      have value := Cursor.rest_ne_nil_of_goUntil goesOn
      have opened : (start.skipName.skipSpace.skip 1).skipSpace.rest ≠ [] :=
        fun none => value (rest_readValue_of_nil none)
      rw [readAttribute_with_value rest, readAttribute_with_value rest', sign,
        Cursor.skip_one_extend more spaced, Cursor.skipSpace_extend more opened,
        readValue_extend more value, Cursor.name_extend more named, skipName]
      rfl
    · have other {ds after : List Char} : c :: ds ≠ '=' :: after :=
        fun eq => equals (List.cons.inj eq).1
      rw [readAttribute_without_value fun _ eq => other (rest.symm.trans eq),
        readAttribute_without_value fun _ eq => other (rest'.symm.trans eq),
        Cursor.name_extend more named, skipName]
      rfl

theorem readAttribute_takes {source : List Char} (stands : start.At source)
    (named : start.name ≠ []) :
    ∃ piece, piece ≠ [] ∧ start.Reads piece (readAttribute start).next := by
  obtain ⟨piece, reads, span, fits⟩ := readAttribute_spec stands named
  have lt := fits.within.lt
  refine ⟨piece, ?_, reads⟩
  rintro rfl
  rw [span, Cursor.spanFrom, reads.2] at lt
  simp at lt

/-- No problem is left open where the text ends, when the reading comes to that place. -/
def EndsInside (source : List Char) (problems : List Diagnostic) (next : Cursor) : Prop :=
  next.rest = [] → ∀ d ∈ problems, d.span.stop ≠ byteLength source

/-- A start tag that has its end in the text is not left where the text ends. -/
theorem rest_skipSpace_ne_nil {source : List Char} {tag : Cursor} {name : String} {steps : Nat}
    (stands : start.At source) (pos : 0 < steps)
    (inside : EndsInside source (readAttributes tag name steps start).problems
      (readAttributes tag name steps start).next) : start.skipSpace.rest ≠ [] := by
  intro rest
  obtain ⟨steps, rfl⟩ := Nat.exists_eq_add_one_of_ne_zero (Nat.ne_zero_of_lt pos)
  rw [readAttributes_of_blank rest] at inside
  have space : start.Reads _ start.skipSpace := start.reads_goUntil _
  exact inside rest _ (List.mem_singleton_self _) ((stands.next space).offset_of_rest rest)

theorem readAttributes_extend {source : List Char} {tag : Cursor} {name : String}
    {steps steps' : Nat} (stands : start.At source) (enough : start.rest.length < steps)
    (enough' : (start.rest ++ more).length < steps')
    (inside : EndsInside source (readAttributes tag name steps start).problems
      (readAttributes tag name steps start).next) :
    readAttributes (tag.extend more) name steps' (start.extend more) =
      (readAttributes tag name steps start).extend more := by
  induction steps generalizing start steps' with
  | zero => omega
  | succ steps ih =>
    obtain ⟨steps', rfl⟩ := Nat.exists_eq_add_one_of_ne_zero (Nat.ne_zero_of_lt enough')
    have here := rest_skipSpace_ne_nil stands (Nat.succ_pos steps) inside
    have space : start.Reads _ start.skipSpace := start.reads_goUntil _
    have skipSpace := Cursor.skipSpace_extend more here
    have longer := congrArg List.length space.1
    rw [List.length_append] at longer enough'
    obtain ⟨c, cs, rest⟩ := List.exists_cons_of_ne_nil here
    have rest' : (start.skipSpace.extend more).rest = c :: (cs ++ more) := by
      rw [Cursor.rest_extend, rest, List.cons_append]
    have behind : (start.extend more).skipSpace.rest = c :: (cs ++ more) := skipSpace ▸ rest'
    rw [rest, List.length_cons] at longer
    by_cases bracket : c = '>'
    · subst bracket
      simp only [readAttributes, rest, rest', skipSpace, Cursor.skip_one_extend more here]
      rfl
    by_cases opening : c = '<'
    · subst opening
      simp only [readAttributes, rest, rest', skipSpace]
      rfl
    by_cases slash : c = '/' ∧ cs.head? = some '>'
    · obtain ⟨rfl, closing⟩ := slash
      obtain ⟨ds, rfl⟩ : ∃ ds, cs = '>' :: ds := List.head?_eq_some_iff.mp closing
      have two : 2 ≤ start.skipSpace.rest.length := by simp [rest]
      rw [List.cons_append] at rest'
      simp only [readAttributes, rest, rest', skipSpace, Cursor.skip_extend more two]
      rfl
    cases ended : isNameEnd c with
    | true =>
      have next : (start.skipSpace.skip 1).rest = cs := by simp [Cursor.skip, Cursor.after, rest]
      have reads := space.trans (start.skipSpace.reads_skip 1)
      rw [readAttributes_unexpected rest ended bracket opening (by simpa using slash)] at inside
      have later : EndsInside source _ _ :=
        fun none d mem => inside none d (List.mem_cons_of_mem _ mem)
      have goesOn : cs ≠ [] := by
        rw [← next]
        exact Cursor.rest_ne_nil_of_goUntil
          (rest_skipSpace_ne_nil (stands.next reads) (by omega) later)
      have slash' : c = '/' → (cs ++ more).head? ≠ some '>' := by
        obtain ⟨d, ds, rfl⟩ := List.exists_cons_of_ne_nil goesOn
        simpa using slash
      have after := ih (stands.next reads) (by rw [next]; omega)
        (show _ < steps' by rw [next, List.length_append]; omega) later
      rw [readAttributes_unexpected rest ended bracket opening (by simpa using slash),
        readAttributes_unexpected behind ended bracket opening slash', skipSpace,
        Cursor.skip_one_extend more here]
      simp only [after]
      rfl
    | false =>
      obtain ⟨piece, taken, reads⟩ :=
        readAttribute_takes (stands.next space) (name_ne_nil rest ended)
      have shorter := congrArg List.length reads.1
      have pos := List.length_pos_iff.mpr taken
      rw [List.length_append, rest, List.length_cons] at shorter
      rw [readAttributes_cons rest ended] at inside
      have later : EndsInside source _ _ :=
        fun none d mem => inside none d (List.mem_append_right _ mem)
      have both := stands.next (space.trans reads)
      have found := readAttribute_extend more (rest_skipSpace_ne_nil both (by omega) later)
      have after := ih both (by omega) (show _ < steps' by rw [List.length_append]; omega) later
      rw [readAttributes_cons rest ended, readAttributes_cons behind ended, skipSpace, found]
      simp only [AttributeReading.extend, after]
      rfl

theorem readRaw_extend {name : List Char} (goesOn : (readRaw name start).2.rest ≠ []) :
    readRaw name (start.extend more) =
      ((readRaw name start).1, (readRaw name start).2.extend more) := by
  have near := local_startsEndTag name
  have stops : (start.goUntil (startsEndTag name)).rest ≠ [] := by
    unfold readRaw at goesOn
    split at goesOn
    · exact goesOn
    · exact goesOn
  simp only [readRaw, Cursor.textUntil_extend more near stops,
    Cursor.goUntil_extend more near stops, Cursor.spanFrom_extend]
  split
  · rfl
  · rfl

theorem tagBody_extend {source : List Char} (stands : start.At source)
    (opens : Opens .openTag start.rest)
    (inside : EndsInside source start.tagBody.problems start.tagBody.next) :
    (start.extend more).tagBody = start.tagBody.extend more ∧
      (start.extend more).startTag = start.startTag := by
  obtain ⟨c, rest, eq, -⟩ := opens
  have ne : start.rest ≠ [] := by simp [eq]
  have before : start.Reads _ (start.skip 1).skipName :=
    (start.reads_skip 1).trans ((start.skip 1).reads_goUntil _)
  have named := Cursor.rest_ne_nil_of_goUntil
    (rest_skipSpace_ne_nil (stands.next before) (Nat.succ_pos _) inside)
  have name := Cursor.name_extend more named
  have skipName := Cursor.skipName_extend more named
  have body : (start.extend more).tagBody = start.tagBody.extend more := by
    unfold Cursor.tagBody at inside ⊢
    rw [Cursor.skip_one_extend more ne, name, skipName]
    exact readAttributes_extend more (stands.next before) (Nat.lt_succ_self _)
      (Nat.lt_succ_self _) inside
  refine ⟨body, ?_⟩
  simp only [Cursor.startTag, body, Cursor.skip_one_extend more ne, name, skipName,
    Cursor.spanFrom_extend]
  rfl

theorem readStartTag_extend {source : List Char} (stands : start.At source)
    (opens : Opens .openTag start.rest)
    (goesOn : start.startTag.startsRaw = true → (readStartTag start).next.rest ≠ [])
    (inside : EndsInside source (readStartTag start).problems (readStartTag start).next) :
    readStartTag (start.extend more) = (readStartTag start).extend more := by
  cases raw : start.startTag.startsRaw with
  | true =>
    have goesOn := goesOn raw
    rw [readStartTag_of_startsRaw raw] at goesOn
    have behind : start.tagBody.next.rest ≠ [] := by
      unfold readRaw at goesOn
      split at goesOn
      · exact Cursor.rest_ne_nil_of_goUntil goesOn
      · exact Cursor.rest_ne_nil_of_goUntil goesOn
    obtain ⟨body, tag⟩ := tagBody_extend more stands opens fun none => absurd none behind
    have name : ((start.extend more).skip 1).name = (start.skip 1).name := by
      rw [← String.toList_ofList (l := ((start.extend more).skip 1).name)]
      exact (congrArg (·.name.toList) tag).trans String.toList_ofList
    rw [readStartTag_of_startsRaw raw, readStartTag_of_startsRaw (tag ▸ raw), tag, body, name]
    simp only [TagReading.extend, readRaw_extend more goesOn]
    rfl
  | false =>
    rw [readStartTag_of_not_startsRaw raw] at inside
    obtain ⟨body, tag⟩ := tagBody_extend more stands opens inside
    rw [readStartTag_of_not_startsRaw raw, readStartTag_of_not_startsRaw (tag ▸ raw), tag, body]
    rfl

theorem rest_readDelimited {close : List Char} (missing : (readDelimited close start).2.2 = true) :
    (readDelimited close start).2.1.rest = [] := by
  have stop : (start.goUntil close.isPrefixOf).rest = [] := List.isEmpty_iff.mp missing
  show (start.goUntil close.isPrefixOf).rest.drop close.length = []
  rw [stop, List.drop_nil]

/-- A closing pattern is there when the text does not end in what it closes. -/
theorem not_missing {source close : List Char} {inside : Cursor} {problem : Problem}
    (stands : (readDelimited close inside).2.1.At source)
    (ended : EndsInside source (problemIf (readDelimited close inside).2.2 problem
      (start.spanFrom (readDelimited close inside).2.1)) (readDelimited close inside).2.1) :
    (readDelimited close inside).2.2 = false := by
  cases missing : (readDelimited close inside).2.2 with
  | false => rfl
  | true =>
    have rest := rest_readDelimited missing
    rw [missing] at ended
    exact absurd (stands.offset_of_rest rest) (ended rest _ (List.mem_singleton_self _))

theorem mem_of_found {c : Char} {inside : Cursor}
    (found : (readDelimited [c] inside).2.2 = false) : c ∈ inside.rest := by
  have stops : (inside.goUntil (List.isPrefixOf [c])).rest ≠ [] := by
    simpa [readDelimited] using found
  have here := (inside.stop_of_goUntil _).resolve_left stops
  have mem := (List.isPrefixOf_iff_prefix.mp here).subset (List.mem_singleton_self c)
  rw [(inside.reads_goUntil (List.isPrefixOf [c])).1]
  exact List.mem_append_right _ mem

end readers

/-- A token that has its end in the text it ends with. A declaration and an end tag that are not
closed are no problem, and raw text goes on like text. -/
def Token.Ended (cs : List Char) : Token → Prop
  | .declaration _ | .close _ _ => Closed cs
  | .start tag _ => tag.startsRaw = false
  | .text _ | .comment _ | .instruction _ => True

/-- A token that has its end in the text is read as it is when more stands behind the text. -/
theorem readToken_extend {source : List Char} {c : Cursor} (stands : c.At source) (ne : c.rest ≠ [])
    (more : List Char) (goesOn : constructAt c.rest = .text → (readToken c).next.rest ≠ [])
    (ended : (readToken c).next.rest = [] → (readToken c).token.Ended c.rest)
    (inside : EndsInside source (readToken c).problems (readToken c).next) :
    readToken (c.extend more) = (readToken c).extend more := by
  have opens := opens_constructAt c.rest
  obtain ⟨⟨piece, -, reads⟩, -⟩ := readToken_spec stands ne
  have next := stands.next reads
  cases construct : constructAt c.rest with
  | comment =>
    have read : readToken c = readComment c := by rw [readToken, construct]
    have same := constructAt_append c.rest more (by simp [construct]) (by simp [construct])
    rw [read] at inside next ⊢
    rw [readToken, Cursor.rest_extend, same, construct]
    exact readComment_extend more (construct ▸ opens) (not_missing next inside)
  | cdata =>
    have read : readToken c = readCdata c := by rw [readToken, construct]
    have same := constructAt_append c.rest more (by simp [construct]) (by simp [construct])
    rw [read] at inside next ⊢
    rw [readToken, Cursor.rest_extend, same, construct]
    exact readCdata_extend more (construct ▸ opens) (not_missing next inside)
  | instruction =>
    have read : readToken c = readInstruction c := by rw [readToken, construct]
    have same := constructAt_append c.rest more (by simp [construct]) (by simp [construct])
    rw [read] at inside next ⊢
    rw [readToken, Cursor.rest_extend, same, construct]
    exact readInstruction_extend more (construct ▸ opens) (not_missing next inside)
  | declaration =>
    have read : readToken c = readDeclaration c := by rw [readToken, construct]
    rw [read] at ended ⊢
    have found : (readDelimited ['>'] c).2.2 = false := by
      cases missing : (readDelimited ['>'] c).2.2 with
      | false => rfl
      | true =>
        have closed : Closed c.rest := ended (rest_readDelimited missing)
        exact absurd (List.isEmpty_iff.mp missing) (breakAt_ne_nil rfl closed ne)
    have same := constructAt_append c.rest more (by simp [construct])
      fun _ => mem_of_found found
    rw [readToken, Cursor.rest_extend, same, construct]
    exact readDeclaration_extend more found
  | closeTag =>
    have read : readToken c = readEndTag c := by rw [readToken, construct]
    have same := constructAt_append c.rest more (by simp [construct]) (by simp [construct])
    rw [read] at ended ⊢
    rw [readToken, Cursor.rest_extend, same, construct]
    refine readEndTag_extend more (construct ▸ opens) fun missing => ?_
    have closed : Closed c.rest := ended (congrArg (List.drop 1) missing)
    obtain ⟨d, rest, eq, -⟩ := construct ▸ opens
    have letter : (c.skip 2).rest ≠ [] := by simp [Cursor.skip, Cursor.after, eq]
    have inside := (c.reads_skip 2).closed closed
    have behind : (c.skip 2).skipName.rest ≠ [] := breakAt_ne_nil rfl inside letter
    exact breakAt_ne_nil rfl (((c.skip 2).reads_goUntil _).closed inside) behind missing
  | openTag =>
    have read : readToken c = readStartTag c := by rw [readToken, construct]
    have same := constructAt_append c.rest more (by simp [construct]) (by simp [construct])
    rw [read] at ended inside ⊢
    rw [readToken, Cursor.rest_extend, same, construct]
    refine readStartTag_extend more stands (construct ▸ opens) ?_ inside
    intro raw none
    have plain := ended none
    rw [readStartTag_of_startsRaw raw] at plain
    exact absurd (raw.symm.trans plain) Bool.noConfusion
  | text =>
    have read : readToken c = readText c := by rw [readToken, construct]
    have goesOn := goesOn construct
    rw [read] at goesOn reads ⊢
    have same : constructAt (c.rest ++ more) = .text := by
      have here := ((c.skip 1).stop_of_goUntil startsConstruct).resolve_left goesOn
      have near := local_startsConstruct piece _ more goesOn here
      rw [← reads.1, startsConstruct, startsConstruct, construct] at near
      simpa using near
    rw [readToken, Cursor.rest_extend, same]
    exact readText_extend more goesOn

end DirectiveTemplates.Markup
