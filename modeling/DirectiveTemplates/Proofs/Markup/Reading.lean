import DirectiveTemplates.Markup.Token
import DirectiveTemplates.Proofs.Source.Spans

/-!
What a step of reading takes. A position stands in a text; a step takes a piece of what is left
there, so the span of the step covers that piece.
-/
namespace DirectiveTemplates.Markup

open Text

namespace Cursor

def At (source : List Char) (c : Cursor) : Prop :=
  ∃ before, source = before ++ c.rest ∧ c.offset = byteLength before

def Reads (c : Cursor) (piece : List Char) (next : Cursor) : Prop :=
  c.rest = piece ++ next.rest ∧ next.offset = c.offset + byteLength piece

variable {source : List Char} {c d e : Cursor} {piece piece' : List Char}

theorem Reads.refl (c : Cursor) : c.Reads [] c := ⟨rfl, rfl⟩

theorem Reads.trans (h : c.Reads piece d) (h' : d.Reads piece' e) :
    c.Reads (piece ++ piece') e := by
  constructor
  · rw [h.1, h'.1, List.append_assoc]
  · rw [h'.2, h.2, byteLength_append, Nat.add_assoc]

theorem Reads.le (h : c.Reads piece d) : c.offset ≤ d.offset := by
  rw [h.2]
  exact Nat.le_add_right _ _

theorem Reads.lt (h : c.Reads piece d) (ne : piece ≠ []) : c.offset < d.offset := by
  rw [h.2]
  exact Nat.lt_add_of_pos_right (byteLength_pos ne)

theorem At.next (h : c.At source) (reads : c.Reads piece d) : d.At source := by
  obtain ⟨before, eq, offset⟩ := h
  refine ⟨before ++ piece, ?_, ?_⟩
  · rw [eq, reads.1, List.append_assoc]
  · rw [reads.2, offset, byteLength_append]

theorem At.covers (h : c.At source) (reads : c.Reads piece d) :
    (c.spanFrom d).Covers source piece := by
  obtain ⟨before, eq, offset⟩ := h
  refine ⟨before, d.rest, ?_, ?_⟩
  · rw [eq, reads.1, List.append_assoc]
  · rw [spanFrom, reads.2, offset]

theorem At.offset_of_rest (h : c.At source) (rest : c.rest = []) :
    c.offset = byteLength source := by
  obtain ⟨before, eq, offset⟩ := h
  rw [offset, eq, rest, List.append_nil]

theorem At.eq_of_rest (h : c.At source) (rest : c.rest = []) : c = ⟨byteLength source, []⟩ := by
  rw [← h.offset_of_rest rest, ← rest]

theorem reads_skip (c : Cursor) (n : Nat) : c.Reads (c.rest.take n) (c.skip n) :=
  ⟨(List.take_append_drop n c.rest).symm, rfl⟩

theorem reads_goUntil (c : Cursor) (stop : List Char → Bool) :
    c.Reads (c.textUntil stop) (c.goUntil stop) :=
  ⟨(breakAt_append stop c.rest).symm, rfl⟩

theorem stop_of_goUntil (c : Cursor) (stop : List Char → Bool) :
    (c.goUntil stop).rest = [] ∨ stop (c.goUntil stop).rest = true :=
  stop_of_breakAt stop c.rest

theorem reads_skip_of_rest {rest : List Char} (h : c.rest = piece ++ rest) :
    c.Reads piece (c.skip piece.length) := by
  have reads := c.reads_skip piece.length
  rwa [h, List.take_left] at reads

end Cursor

/-! What the parts of markup cover. -/

/-- What stands at the end of a construct: its closing pattern, or nothing where the text ends. -/
def Closing (source close : List Char) (s : Span) (found : List Char) : Prop :=
  found = close ∨ found = [] ∧ s.stop = byteLength source

def commentOpening : List Char := ['<', '!', '-', '-']

def cdataOpening : List Char := ['<', '!', '[', 'C', 'D', 'A', 'T', 'A', '[']

/-- What a span covers between two patterns. The text goes to the first closing pattern, or to the
end of the source when there is none. -/
def Delimited (source opening close : List Char) (t : TextNode) : Prop :=
  ∃ found, t.span.Covers source (opening ++ t.value.toList ++ found) ∧
    ¬ close <:+: t.value.toList ∧ Closing source close t.span found

/-- Text is what its span covers, but for a CDATA section, which loses its delimiters. There is none
in raw text. -/
def TextFits (source : List Char) (raw : Bool) (t : TextNode) : Prop :=
  ∃ slice, t.span.Covers source slice ∧
    if cdataOpening.isPrefixOf slice && !raw then Delimited source cdataOpening [']', ']', '>'] t
    else t.value.toList = slice

def CommentFits (source : List Char) (t : TextNode) : Prop :=
  Delimited source commentOpening ['-', '-', '>'] t

structure InstructionFits (source : List Char) (i : Instruction) : Prop where
  content : i.contentSpan.Covers source i.content.toList
  start_le : i.span.start ≤ i.contentSpan.start
  le_stop : i.contentSpan.stop ≤ i.span.stop

/-- A declaration goes to the first `>`, or to the end of the text; comments and CDATA sections,
which start like declarations, are none. -/
def IsDeclaration (source : List Char) (s : Span) : Prop :=
  ∃ body found, s.Covers source (body ++ found) ∧ ['<', '!'] <+: body ∧ '>' ∉ body ∧
    Closing source ['>'] s found ∧
    ¬ commentOpening <+: body ++ found ∧ ¬ cdataOpening <+: body ++ found

structure AttributeFits (source : List Char) (a : Attribute) : Prop where
  within : a.span.Within source
  name : a.nameSpan.Covers source a.name.toList
  start_eq : a.nameSpan.start = a.span.start
  name_le : a.nameSpan.stop ≤ a.span.stop
  value : ∀ s, a.valueSpan = some s →
    s.Covers source a.value.toList ∧ a.nameSpan.stop ≤ s.start ∧ s.stop ≤ a.span.stop
  no_value : a.valueSpan = none → a.value = ""

def AttributesFit (source : List Char) : Nat → List Attribute → Nat → Prop
  | lo, [], hi => lo ≤ hi
  | lo, a :: as, hi =>
    lo ≤ a.span.start ∧ AttributeFits source a ∧ AttributesFit source a.span.stop as hi

structure TagFits (source : List Char) (tag : StartTag) : Prop where
  within : tag.span.Within source
  name : tag.nameSpan.Covers source tag.name.toList
  start_le : tag.span.start ≤ tag.nameSpan.start
  attributes : AttributesFit source tag.nameSpan.stop tag.attributes tag.span.stop

theorem AttributesFit.mono {source : List Char} {lo lo' hi : Nat} {as : List Attribute}
    (h : AttributesFit source lo' as hi) (le : lo ≤ lo') : AttributesFit source lo as hi := by
  cases as with
  | nil => exact Nat.le_trans le h
  | cons a as => exact ⟨Nat.le_trans le h.1, h.2⟩

section readers

variable {source : List Char} {start : Cursor}

/-- Reading passes over no place where it has to stop. -/
theorem not_stop_of_breakAt (stop : List Char → Bool) (cs : List Char) :
    ∀ rest, rest <:+ (breakAt stop cs).1 → rest ≠ [] →
      stop (rest ++ (breakAt stop cs).2) = false := by
  induction cs with
  | nil =>
    intro rest suffix ne
    exact absurd (List.suffix_nil.mp suffix) ne
  | cons c cs ih =>
    by_cases here : stop (c :: cs) = true
    · simp only [breakAt, here, if_true]
      intro rest suffix ne
      exact absurd (List.suffix_nil.mp suffix) ne
    · simp only [breakAt, here, Bool.false_eq_true, if_false]
      intro rest suffix ne
      rcases List.suffix_cons_iff.mp suffix with rfl | later
      · rw [List.cons_append, breakAt_append]
        simpa using here
      · exact ih rest later ne

theorem not_infix_textUntil {close : List Char} (some : close ≠ []) (start : Cursor) :
    ¬ close <:+: start.textUntil close.isPrefixOf := by
  rintro ⟨before, after, eq⟩
  have suffix : close ++ after <:+ start.textUntil close.isPrefixOf :=
    ⟨before, by rw [← List.append_assoc, eq]⟩
  have goesOn := not_stop_of_breakAt close.isPrefixOf start.rest _ suffix (by simp [some])
  rw [← Bool.not_eq_true, List.isPrefixOf_iff_prefix, List.append_assoc] at goesOn
  exact goesOn (List.prefix_append close _)

theorem readDelimited_spec (close : List Char) (stands : start.At source) :
    ∃ found, start.Reads ((readDelimited close start).1 ++ found) (readDelimited close start).2.1 ∧
      (found = close ∨ found = [] ∧
        (readDelimited close start).2.1.offset = byteLength source) := by
  have first := start.reads_goUntil close.isPrefixOf
  rcases start.stop_of_goUntil close.isPrefixOf with rest | closed
  · have last := (start.goUntil close.isPrefixOf).reads_skip close.length
    rw [rest, List.take_nil] at last
    have both := first.trans last
    refine ⟨[], both, Or.inr ⟨rfl, (stands.next both).offset_of_rest ?_⟩⟩
    show (start.goUntil close.isPrefixOf).rest.drop close.length = []
    rw [rest, List.drop_nil]
  · obtain ⟨rest, eq⟩ := List.isPrefixOf_iff_prefix.mp closed
    exact ⟨close, first.trans (Cursor.reads_skip_of_rest eq.symm), Or.inl rfl⟩

theorem readQuoted_spec (quote : Char) (stands : start.At source) :
    ∃ piece, start.Reads piece (readQuoted quote start).next ∧
      (readQuoted quote start).span.Covers source (readQuoted quote start).text ∧
      start.offset ≤ (readQuoted quote start).span.start ∧
      (readQuoted quote start).span.stop ≤ (readQuoted quote start).next.offset := by
  have opening := start.reads_skip 1
  have text := (start.skip 1).reads_goUntil (startsWithAny (· == quote))
  have closing := ((start.skip 1).goUntil (startsWithAny (· == quote))).reads_skip 1
  refine ⟨_, (opening.trans text).trans closing, ?_, opening.le, closing.le⟩
  exact (stands.next opening).covers text

theorem readBare_spec (stands : start.At source) :
    ∃ piece, start.Reads piece (readBare start).next ∧
      (readBare start).span.Covers source (readBare start).text ∧
      start.offset ≤ (readBare start).span.start ∧
      (readBare start).span.stop ≤ (readBare start).next.offset := by
  have text := start.reads_goUntil endsBareValue
  exact ⟨_, text, stands.covers text, Nat.le_refl _, Nat.le_refl _⟩

theorem readValue_spec (stands : start.At source) :
    ∃ piece, start.Reads piece (readValue start).next ∧
      (readValue start).span.Covers source (readValue start).text ∧
      start.offset ≤ (readValue start).span.start ∧
      (readValue start).span.stop ≤ (readValue start).next.offset := by
  unfold readValue
  split
  · split
    · exact readQuoted_spec _ stands
    · exact readBare_spec stands
  · exact readBare_spec stands

theorem name_ne_nil {c : Char} {cs : List Char} (rest : start.rest = c :: cs)
    (inside : isNameEnd c = false) : start.name ≠ [] := by
  simp [Cursor.name, Cursor.textUntil, rest, breakAt, startsWithAny, inside]

theorem readAttribute_with_value {rest : List Char}
    (sign : start.skipName.skipSpace.rest = '=' :: rest) :
    let value := readValue (start.skipName.skipSpace.skip 1).skipSpace
    readAttribute start =
      ⟨⟨String.ofList start.name, String.ofList value.text, start.spanFrom value.next,
        start.spanFrom start.skipName, some value.span⟩, value.problems, value.next⟩ := by
  simp only [readAttribute, sign]

theorem readAttribute_without_value
    (sign : ∀ rest, start.skipName.skipSpace.rest ≠ '=' :: rest) :
    readAttribute start =
      ⟨⟨String.ofList start.name, "", start.spanFrom start.skipName,
        start.spanFrom start.skipName, none⟩, [], start.skipName⟩ := by
  cases rest : start.skipName.skipSpace.rest with
  | nil => simp only [readAttribute, rest]
  | cons c cs =>
    have other : c ≠ '=' := fun eq => sign cs (eq ▸ rest)
    simp [readAttribute, rest, other]

theorem readAttribute_spec (stands : start.At source) (named : start.name ≠ []) :
    ∃ piece, start.Reads piece (readAttribute start).next ∧
      (readAttribute start).found.span = start.spanFrom (readAttribute start).next ∧
      AttributeFits source (readAttribute start).found := by
  have name : start.Reads start.name start.skipName := start.reads_goUntil _
  have space : start.skipName.Reads _ start.skipName.skipSpace := start.skipName.reads_goUntil _
  by_cases signed : ∃ rest, start.skipName.skipSpace.rest = '=' :: rest
  · obtain ⟨rest, eq⟩ := signed
    rw [readAttribute_with_value eq]
    have sign := start.skipName.skipSpace.reads_skip 1
    have gap : (start.skipName.skipSpace.skip 1).Reads _
        (start.skipName.skipSpace.skip 1).skipSpace :=
      (start.skipName.skipSpace.skip 1).reads_goUntil _
    have before := ((name.trans space).trans sign).trans gap
    obtain ⟨piece, value, covers, le, le'⟩ := readValue_spec (stands.next before)
    have all := before.trans value
    refine ⟨_, all, rfl, ⟨_, ?_, stands.covers all⟩, ?_, rfl, ?_, ?_, by simp⟩
    · simp [named]
    · rw [String.toList_ofList]
      exact stands.covers name
    · exact Nat.le_trans (Nat.le_trans space.le (Nat.le_trans sign.le gap.le)) value.le
    · intro s eq
      cases eq
      rw [String.toList_ofList]
      refine ⟨covers, ?_, le'⟩
      exact Nat.le_trans (Nat.le_trans space.le (Nat.le_trans sign.le gap.le)) le
  · rw [readAttribute_without_value fun rest eq => signed ⟨rest, eq⟩]
    refine ⟨_, name, rfl, ⟨_, named, stands.covers name⟩, ?_, rfl, Nat.le_refl _, by simp, by simp⟩
    rw [String.toList_ofList]
    exact stands.covers name

/-- A start tag takes its attributes in order; what lies between them is white space or was
reported. -/
theorem readAttributes_spec (tag : Cursor) (name : String) (steps : Nat) {c : Cursor}
    (stands : c.At source) :
    ∃ piece, c.Reads piece (readAttributes tag name steps c).next ∧
      AttributesFit source c.offset (readAttributes tag name steps c).attributes
        (readAttributes tag name steps c).next.offset := by
  induction steps generalizing c with
  | zero => exact ⟨[], Cursor.Reads.refl c, Nat.le_refl _⟩
  | succ steps ih =>
    have space : c.Reads _ c.skipSpace := c.reads_goUntil _
    have here := stands.next space
    simp only [readAttributes]
    split
    · exact ⟨_, space, space.le⟩
    · have all := space.trans (c.skipSpace.reads_skip 1)
      exact ⟨_, all, all.le⟩
    · have all := space.trans (c.skipSpace.reads_skip 2)
      exact ⟨_, all, all.le⟩
    · exact ⟨_, space, space.le⟩
    · rename_i bad cs _ _ _ rest
      cases ended : isNameEnd bad with
      | true =>
        have first := space.trans (c.skipSpace.reads_skip 1)
        obtain ⟨piece, reads, fit⟩ := ih (stands.next first)
        exact ⟨_, first.trans reads, fit.mono first.le⟩
      | false =>
        obtain ⟨first, reads, span, found⟩ :=
          readAttribute_spec here (name_ne_nil rest ended)
        obtain ⟨piece, reads', fit⟩ := ih (here.next reads)
        refine ⟨_, (space.trans reads).trans reads', ?_, found, ?_⟩
        · rw [span]
          exact space.le
        · rw [span]
          exact fit

end readers

end DirectiveTemplates.Markup
