import DirectiveTemplates.Proofs.Markup.Problems
import Mathlib.Data.List.Nodup

/-!
How elements end. An element without content ends with its start tag. Every other one ends with an
end tag of its name, where the end tag of an element around it starts, or at the end of the text; in
the last case it is reported, after all other problems. An end tag is reported when no element of
its name is open.
-/
namespace DirectiveTemplates.Markup

open Text

inductive Ending where
  | closed
  | tagged
  /-- The end tag of an element around it closes the element as well. -/
  | implied
  /-- The text ends in the element. -/
  | unclosed
  deriving DecidableEq, Repr

namespace Element

/-- An end tag with the name of the element, in any case of its letters, closes it. -/
structure TaggedBy (source : List Char) (x : Element) (s : Span) : Prop where
  content : x.tag.isClosed = false
  endSpan : x.endSpan = some s
  tag : ∃ name, IsEndTag source name s ∧ sameName name x.tag.name = true
  stop : x.span.stop = s.stop

def unclosed (x : Element) : Diagnostic :=
  Problem.diagnostic (.unclosedElement x.tag.name) x.tag.span

/-- How an element ends that has `around` around it. -/
def EndsBy (source : String) (problems : List Diagnostic) (x : Element) (around : List Element) :
    Ending → Prop
  | .closed => x.tag.isClosed = true ∧ x.children = [] ∧ x.endSpan = none
  | .tagged => ∃ s, x.TaggedBy source.toList s
  | .implied =>
    x.tag.isClosed = false ∧ x.endSpan = none ∧
      ∃ outer ∈ around, ∃ s, outer.TaggedBy source.toList s ∧ x.span.stop = s.start
  | .unclosed =>
    x.tag.isClosed = false ∧ x.endSpan = none ∧ x.span.stop = source.utf8ByteSize ∧
      problems.count x.unclosed = 1

def OpenAt (x : Element) (offset : Nat) : Prop :=
  x.tag.isClosed = false ∧ x.tag.span.stop ≤ offset ∧ offset ≤ innerStop x.span x.endSpan

variable {source : String} {problems : List Diagnostic} {x : Element} {around : List Element}

theorem EndsBy.unique {e e' : Ending} (h : x.EndsBy source problems around e)
    (h' : x.EndsBy source problems around e') : e = e' := by
  have open' {p : Prop} (content : x.tag.isClosed = false) (closed : x.tag.isClosed = true) :
      p := by
    rw [content] at closed
    cases closed
  have untagged {p : Prop} {s : Span} (none : x.endSpan = none) (some : x.endSpan = some s) :
      p := by
    rw [none] at some
    cases some
  -- The end tag of an element around it starts before the text ends.
  have inside {p : Prop} {outer : Element} {s : Span} (tagged : outer.TaggedBy source.toList s)
      (stop : x.span.stop = s.start) (last : x.span.stop = source.utf8ByteSize) : p := by
    obtain ⟨name, tag, -⟩ := tagged.tag
    have lt := tag.lt
    rw [utf8ByteSize_eq] at last
    omega
  cases e with
  | closed =>
    cases e' with
    | closed => rfl
    | tagged =>
      obtain ⟨s, tagged⟩ := h'
      exact open' tagged.content h.1
    | implied => exact open' h'.1 h.1
    | unclosed => exact open' h'.1 h.1
  | tagged =>
    obtain ⟨s, tagged⟩ := h
    cases e' with
    | closed => exact open' tagged.content h'.1
    | tagged => rfl
    | implied => exact untagged h'.2.1 tagged.endSpan
    | unclosed => exact untagged h'.2.1 tagged.endSpan
  | implied =>
    obtain ⟨content, none, outer, -, s, tagged, stop⟩ := h
    cases e' with
    | closed => exact open' content h'.1
    | tagged =>
      obtain ⟨s, tagged⟩ := h'
      exact untagged none tagged.endSpan
    | implied => rfl
    | unclosed => exact inside tagged stop h'.2.2.1
  | unclosed =>
    obtain ⟨content, none, last, -⟩ := h
    cases e' with
    | closed => exact open' content h'.1
    | tagged =>
      obtain ⟨s, tagged⟩ := h'
      exact untagged none tagged.endSpan
    | implied =>
      obtain ⟨-, -, outer, -, s, tagged, stop⟩ := h'
      exact inside tagged stop last
    | unclosed => rfl

/-- The element ends before the text does. -/
def Settled (source : String) (x : Element) (around : List Element) : Prop :=
  ∃ e ≠ .unclosed, ∀ problems, x.EndsBy source problems around e

theorem Settled.mono {outer : List Element} (h : x.Settled source around)
    (sub : around ⊆ outer) : x.Settled source outer := by
  obtain ⟨e, before, ends⟩ := h
  refine ⟨e, before, fun problems => ?_⟩
  have ends := ends problems
  cases e with
  | closed => exact ends
  | tagged => exact ends
  | implied =>
    obtain ⟨content, none, y, mem, here⟩ := ends
    exact ⟨content, none, y, sub mem, here⟩
  | unclosed => exact absurd rfl before

end Element

/-! What tokens keep. -/

namespace Builder

/-- The account of a builder that has read up to a position. -/
structure Account (source : String) (b : Builder) (c : Cursor) : Prop where
  settled : ∀ x around, (x, around) ∈ b.elements → x.Settled source around
  past : ∀ x around, (x, around) ∈ b.elements →
    x.tag.isClosed = true ∨ innerStop x.span x.endSpan < c.offset
  opened : ∀ tag ∈ b.tags, tag.isClosed = false ∧ tag.span.stop ≤ c.offset

/-- The start tag that was just read lies before the next token. -/
theorem bounds_of_start {source : List Char} {c : Cursor} (stands : c.At source)
    (more : c.rest ≠ []) {tag : StartTag} {raw : Option TextNode}
    (start : (readToken c).token = .start tag raw) :
    tag.span.start = c.offset ∧ tag.span.start < tag.span.stop ∧
      tag.span.stop ≤ (readToken c).next.offset := by
  obtain ⟨-, fits⟩ := readToken_spec stands more
  rw [start] at fits
  obtain ⟨begins, tagFits, ends⟩ := fits
  refine ⟨begins, tagFits.within.lt, ?_⟩
  cases raw with
  | none => exact Nat.le_of_eq ends.1
  | some t =>
    obtain ⟨span, within, -⟩ := ends
    have lt := within.lt
    rw [span] at lt
    exact Nat.le_of_lt lt

theorem Account.step {source : String} {b : Builder} {c : Cursor} (h : b.Account source c)
    (stands : c.At source.toList) (more : c.rest ≠ []) :
    (b.step (readToken c)).Account source (readToken c).next := by
  obtain ⟨⟨piece, ne, reads⟩, -⟩ := readToken_spec stands more
  have lt := reads.lt ne
  constructor
  · intro x around mem
    rcases cases_elements_step mem with ⟨inner, old, sub⟩ | new
    · exact (h.settled x inner old).mono sub
    · generalize token : (readToken c).token = t at new
      cases new with
      | closed closed => exact ⟨.closed, Ending.noConfusion, fun _ => ⟨closed, rfl, rfl⟩⟩
      | @ended name s es outer e _ split same =>
        have content := (h.opened e.tag (mem_tags_of_stack split)).1
        obtain ⟨-, -, tag⟩ := readToken_close stands token
        exact ⟨.tagged, Ending.noConfusion, fun _ => ⟨s, content, rfl, ⟨name, tag, same⟩, rfl⟩⟩
      | @within name s es outer e _ _ split same line mem' =>
        obtain ⟨-, -, tag⟩ := readToken_close stands token
        have content := (h.opened e.tag (mem_tags_of_stack split)).1
        obtain ⟨inner, e', outer', rfl, rfl⟩ := mem_spine line
        rw [List.append_assoc, List.cons_append] at split
        have content' := (h.opened e'.tag (mem_tags_of_stack split)).1
        exact ⟨.implied, Ending.noConfusion, fun _ => ⟨content', rfl, _, mem', s,
          ⟨content, rfl, ⟨name, tag, same⟩, rfl⟩, rfl⟩⟩
  · intro x around mem
    rcases cases_elements_step mem with ⟨inner, old, sub⟩ | new
    · exact (h.past x inner old).imp_right fun before => Nat.lt_trans before lt
    · generalize token : (readToken c).token = t at new
      cases new with
      | closed closed => exact Or.inl closed
      | @ended name s es outer e _ split same =>
        right
        rw [span_of_close stands more token]
        exact lt
      | @within name s es outer e _ _ split same line mem' =>
        obtain ⟨inner, e', outer', -, rfl⟩ := mem_spine line
        right
        rw [span_of_close stands more token]
        exact lt
  · intro tag mem
    rcases cases_tags_step mem with old | ⟨raw, start, content⟩
    · obtain ⟨content, before⟩ := h.opened tag old
      exact ⟨content, Nat.le_trans before (Nat.le_of_lt lt)⟩
    · exact ⟨content, (bounds_of_start stands more start).2.2⟩

theorem Account.empty (source : String) : Builder.empty.Account source ⟨0, source.toList⟩ := by
  constructor <;> simp [Builder.empty, elements, elementsAll, tags]

/-- What became of a builder since an offset: what it had finished, and what was open, is there;
other elements started later. -/
structure Since (offset : Nat) (b₀ b : Builder) : Prop where
  found : ∀ x around, (x, around) ∈ b.elements →
    (∃ inner, (x, inner) ∈ b₀.elements) ∨ x.tag ∈ b₀.tags ∨ offset < x.tag.span.stop
  tags : ∀ tag ∈ b.tags, tag ∈ b₀.tags ∨ offset < tag.span.stop
  kept : ∀ tag ∈ b₀.tags, tag ∈ b.tags ∨
    ∃ x around, (x, around) ∈ b.elements ∧ x.tag = tag ∧ offset ≤ innerStop x.span x.endSpan

theorem Since.refl (offset : Nat) (b : Builder) : Since offset b b :=
  ⟨fun _ around mem => Or.inl ⟨around, mem⟩, fun _ mem => Or.inl mem, fun _ mem => Or.inl mem⟩

theorem Since.step {source : List Char} {offset : Nat} {b₀ b : Builder} {c : Cursor}
    (h : Since offset b₀ b) (later : offset ≤ c.offset) (stands : c.At source)
    (more : c.rest ≠ []) : Since offset b₀ (b.step (readToken c)) := by
  have starts {tag : StartTag} {raw : Option TextNode}
      (start : (readToken c).token = .start tag raw) : offset < tag.span.stop := by
    obtain ⟨begins, lt, -⟩ := bounds_of_start stands more start
    omega
  constructor
  · intro x around mem
    rcases cases_elements_step mem with ⟨inner, old, -⟩ | new
    · exact h.found x inner old
    · generalize token : (readToken c).token = t at new
      cases new with
      | closed closed => exact Or.inr (Or.inr (starts token))
      | @ended name s es outer e _ split same =>
        exact Or.inr (h.tags e.tag (mem_tags_of_stack split))
      | @within name s es outer e _ _ split same line mem' =>
        obtain ⟨inner, e', outer', rfl, rfl⟩ := mem_spine line
        rw [List.append_assoc, List.cons_append] at split
        exact Or.inr (h.tags e'.tag (mem_tags_of_stack split))
  · intro tag mem
    rcases cases_tags_step mem with old | ⟨raw, start, -⟩
    · exact h.tags tag old
    · exact Or.inr (starts start)
  · intro tag mem
    rcases h.kept tag mem with opened | ⟨x, around, old, rest⟩
    · rcases kept_step opened with still | ⟨name, s, x, around, close, new, eq, stop⟩
      · exact Or.inl still
      · refine Or.inr ⟨x, around, new, eq, ?_⟩
        rw [stop, span_of_close stands more close]
        exact later
    · obtain ⟨outer, still⟩ := exists_mem_elements_step old
      exact Or.inr ⟨x, outer, still, rest⟩

def ofText (source : String) : Builder := (lexemes source).foldl step empty

end Builder

/-! The forest of a text. -/

section text

variable {source : String}

theorem parse_eq (source : String) : parse source =
    let b := Builder.ofText source
    ⟨b.roots ++ collapse source.utf8ByteSize b.stack [], b.problems ++
      b.stack.map fun e => Problem.diagnostic (.unclosedElement e.tag.name) e.tag.span⟩ := by
  have finished := Builder.finish_eq (Builder.ofText source) source.utf8ByteSize
  show Forest.mk _ _ = _
  rw [← Builder.ofText, finished]

def line (source : String) : List Element :=
  spine source.utf8ByteSize (Builder.ofText source).stack []

theorem tags_line (source : String) :
    (line source).map Element.tag = (Builder.ofText source).tags :=
  map_tag_spine _ _ _

theorem unclosed_line (source : String) : (line source).map Element.unclosed =
    (Builder.ofText source).stack.map fun e =>
      Problem.diagnostic (.unclosedElement e.tag.name) e.tag.span := by
  let problem (tag : StartTag) := Problem.diagnostic (.unclosedElement tag.name) tag.span
  have same := congrArg (List.map problem) (tags_line source)
  rwa [Builder.tags, List.map_map, List.map_map] at same

theorem problems_parse (source : String) :
    (parse source).problems =
      (Builder.ofText source).problems ++ (line source).map Element.unclosed := by
  rw [parse_eq, unclosed_line]

theorem cases_elements_parse {x : Element} {around : List Element}
    (mem : (x, around) ∈ elementsAll [] (parse source).nodes) :
    (∃ inner, (x, inner) ∈ (Builder.ofText source).elements ∧ inner ⊆ around) ∨
      x ∈ line source := by
  rw [parse_eq, elementsAll_append] at mem
  rcases List.mem_append.mp mem with root | left
  · exact Or.inl ⟨around, Builder.mem_elements_iff.mpr (Or.inl root), List.Subset.refl around⟩
  · rcases cases_elementsAll_collapse left with ⟨_, none, -⟩ | ⟨e, opened, inner, child, sub⟩ | last
    · cases none
    · exact Or.inl ⟨inner, Builder.mem_elements_iff.mpr (Or.inr ⟨e, opened, child⟩), sub⟩
    · exact Or.inr last

theorem exists_mem_elements_parse {x : Element}
    (made : (∃ inner, (x, inner) ∈ (Builder.ofText source).elements) ∨ x ∈ line source) :
    ∃ around, (x, around) ∈ elementsAll [] (parse source).nodes := by
  rw [parse_eq]
  simp only [elementsAll_append, List.mem_append]
  rcases made with ⟨inner, mem⟩ | last
  · rcases Builder.mem_elements_iff.mp mem with root | ⟨e, opened, child⟩
    · exact ⟨inner, Or.inl root⟩
    · obtain ⟨around, mem⟩ := exists_mem_collapse opened child
      exact ⟨around, Or.inr mem⟩
  · obtain ⟨around, mem⟩ := exists_spine_mem_collapse last
    exact ⟨around, Or.inr mem⟩

theorem account_ofText (source : String) :
    (Builder.ofText source).Account source ⟨source.utf8ByteSize, []⟩ :=
  ((lexes_lexemes source).preserves ⟨[], rfl, rfl⟩ (Builder.Account.empty source)
    fun _ _ stands more kept => kept.step stands more).1

/-- Elements that the text ends in start one after another. -/
theorem nodup_unclosed (source : String) : ((line source).map Element.unclosed).Nodup := by
  have stands : Cursor.At source.toList ⟨0, source.toList⟩ := ⟨[], rfl, rfl⟩
  have placed := ((Builder.Fits.empty source.toList).lexemes stands (Nat.le_refl _)).placed
  rw [unclosed_line, List.nodup_iff_pairwise_ne, List.pairwise_map]
  refine placed.nested.imp_of_mem ?_
  intro inner outer mem mem' le eq
  have span : inner.tag.span = outer.tag.span := congrArg Diagnostic.span eq
  have lt := (placed.elements outer mem').tag.within.lt
  rw [span] at le
  omega

theorem count_unclosed {x : Element} (last : x ∈ line source) :
    (parse source).problems.count x.unclosed = 1 := by
  obtain ⟨more, problems, noted⟩ := (lexes_lexemes source).problems
    ⟨[], rfl, rfl⟩ Builder.empty
  have before : x.unclosed ∉ (Builder.ofText source).problems := by
    intro mem
    have mem : x.unclosed ∈ [] ++ more := problems ▸ mem
    exact (noted _ mem).closed x.tag.name rfl
  rw [problems_parse, List.count_append, List.count_eq_zero_of_not_mem before, Nat.zero_add]
  exact List.nodup_iff_count_eq_one.mp (nodup_unclosed source) _ (List.mem_map_of_mem last)

theorem endsBy_of_line {x : Element} (last : x ∈ line source) (around : List Element) :
    x.EndsBy source (parse source).problems around .unclosed := by
  have count := count_unclosed last
  obtain ⟨inner, e, outer, split, rfl⟩ := mem_spine last
  have opened := (account_ofText source).opened e.tag (Builder.mem_tags_of_stack split)
  exact ⟨opened.1, rfl, rfl, count⟩

end text

structure Accounts (source : String) (forest : Forest) : Prop where
  /-- Every element ends in exactly one way. -/
  ends : ∀ x around, (x, around) ∈ elementsAll [] forest.nodes →
    ∃ e, x.EndsBy source forest.problems around e ∧
      ∀ e', x.EndsBy source forest.problems around e' → e' = e
  /-- The last problems are those with the elements that are not closed: they stand in each other,
  and are reported innermost first. -/
  unclosed : ∃ others last, forest.problems = others ++ last.map Element.unclosed ∧
    (∀ d ∈ others, ∀ name, d.message ≠ (Problem.unclosedElement name).message) ∧
    (∀ x outer, last = x :: outer → (x, outer) ∈ elementsAll [] forest.nodes) ∧
    ∀ x around, (x, around) ∈ elementsAll [] forest.nodes →
      (x ∈ last ↔ x.EndsBy source forest.problems around .unclosed)
  /-- An end tag is reported when no element of its name is open where it stands. -/
  stray : ∀ l ∈ lexemes source, ∀ name s, l.token = .close name s →
    (Problem.diagnostic (.unexpectedEndTag name) s ∈ forest.problems ∨
        Problem.diagnostic (.voidEndTag name) s ∈ forest.problems ↔
      ∀ x around, (x, around) ∈ elementsAll [] forest.nodes → x.OpenAt s.start →
        sameName name x.tag.name = false)

/-! End tags that close nothing. -/

section stray

variable {source : String} {before after : List Lexeme} {c : Cursor}

/-- The builder at a token and the one at the end of the text. -/
theorem since_ofText (stands : c.At source.toList)
    (lexes : Lexes c after ⟨source.utf8ByteSize, []⟩) (split : lexemes source = before ++ after) :
    Builder.Since c.offset (before.foldl Builder.step Builder.empty) (Builder.ofText source) := by
  let b := before.foldl Builder.step Builder.empty
  have whole : Builder.ofText source = after.foldl Builder.step b := by
    rw [Builder.ofText, split, List.foldl_append]
  rw [whole]
  have kept := lexes.preserves (I := fun b' d => c.offset ≤ d.offset ∧ b.Since c.offset b') stands
    ⟨Nat.le_refl _, .refl c.offset b⟩ fun b' d stands more ⟨later, since⟩ => by
      obtain ⟨⟨piece, -, reads⟩, -⟩ := readToken_spec stands more
      exact ⟨Nat.le_trans later reads.le, since.step later stands more⟩
  exact kept.1.2

/-- What is open where a token stands is open in the builder at that token. -/
theorem mem_tags_iff_openAt
    (account : (before.foldl Builder.step Builder.empty).Account source c)
    (since : Builder.Since c.offset (before.foldl Builder.step Builder.empty)
      (Builder.ofText source)) (inside : c.offset ≤ source.utf8ByteSize) {tag : StartTag} :
    tag ∈ (before.foldl Builder.step Builder.empty).tags ↔
      ∃ x around, (x, around) ∈ elementsAll [] (parse source).nodes ∧ x.OpenAt c.offset ∧
        x.tag = tag := by
  constructor
  · intro mem
    obtain ⟨content, le⟩ := account.opened tag mem
    rcases since.kept tag mem with still | ⟨x, inner, done, rfl, later⟩
    · rw [← tags_line] at still
      obtain ⟨x, last, rfl⟩ := List.mem_map.mp still
      obtain ⟨around, mem⟩ := exists_mem_elements_parse (Or.inr last)
      obtain ⟨-, none, stop, -⟩ := endsBy_of_line last []
      refine ⟨x, around, mem, ⟨content, le, ?_⟩, rfl⟩
      rw [none, innerStop, stop]
      exact inside
    · obtain ⟨around, mem⟩ := exists_mem_elements_parse (Or.inl ⟨inner, done⟩)
      exact ⟨x, around, mem, ⟨content, le, later⟩, rfl⟩
  · rintro ⟨x, around, mem, ⟨content, le, later⟩, rfl⟩
    have cases : (∃ inner, (x, inner) ∈ (before.foldl Builder.step Builder.empty).elements) ∨
        x.tag ∈ (before.foldl Builder.step Builder.empty).tags ∨
          c.offset < x.tag.span.stop := by
      rcases cases_elements_parse mem with ⟨inner, done, -⟩ | last
      · exact since.found x inner done
      · right
        apply since.tags
        rw [← tags_line]
        exact List.mem_map_of_mem last
    rcases cases with ⟨inner, done⟩ | opened | started
    · rcases account.past x inner done with closed | ended
      · rw [content] at closed
        cases closed
      · omega
    · exact opened
    · omega

/-- An end tag is reported where it is read and nowhere else. -/
theorem mem_problems_iff (first : Lexes ⟨0, source.toList⟩ before c) (more : c.rest ≠ [])
    (rest : Lexes (readToken c).next after ⟨source.utf8ByteSize, []⟩)
    (split : lexemes source = before ++ readToken c :: after) {name : String} {s : Span}
    (close : (readToken c).token = .close name s) {p : Problem}
    (stray : p.opening ∈ Problem.endTagOpenings) :
    p.diagnostic s ∈ (parse source).problems ↔
      p.diagnostic s ∈ (before.foldl Builder.step Builder.empty).reports (.close name s) := by
  let b := before.foldl Builder.step Builder.empty
  have start : Cursor.At source.toList ⟨0, source.toList⟩ := ⟨[], rfl, rfl⟩
  have stands : c.At source.toList :=
    (first.preserves (I := fun _ _ => True) (b := b) start trivial fun _ _ _ _ _ => trivial).2
  obtain ⟨⟨piece, -, reads⟩, -⟩ := readToken_spec stands more
  obtain ⟨-, read, tag⟩ := readToken_close stands close
  have lt := tag.lt.1
  have span := span_of_close stands more close
  have begins : s.start = c.offset := congrArg Span.start span
  have ends : s.stop = (readToken c).next.offset := congrArg Span.stop span
  obtain ⟨earlier, eq, ahead⟩ := first.problems start Builder.empty
  obtain ⟨later, eq', behind⟩ := rest.problems (stands.next reads) (b.step (readToken c))
  have quiet : (readToken c).problems = [] := by
    rw [read]
    rfl
  have whole : (Builder.ofText source).problems =
      earlier ++ b.reports (.close name s) ++ later := by
    rw [Builder.ofText, split, List.foldl_append, List.foldl_cons, eq', Builder.problems_step_eq,
      close, quiet, List.append_nil, eq]
    rfl
  rw [problems_parse, whole]
  constructor
  · intro mem
    rcases List.mem_append.mp mem with mem | last
    · rcases List.mem_append.mp mem with mem | mem
      · rcases List.mem_append.mp mem with mem | here
        · have bounds := (ahead _ mem).bounds stray
          omega
        · exact here
      · have bounds := (behind _ mem).bounds stray
        omega
    · obtain ⟨x, -, same⟩ := List.mem_map.mp last
      have noted : Noted s.start s.stop (p.diagnostic s) :=
        ⟨p, s, rfl, Or.inr ⟨stray, Nat.le_refl _, Nat.le_refl _⟩⟩
      exact absurd (congrArg Diagnostic.message same.symm) (noted.closed x.tag.name)
  · intro here
    exact List.mem_append_left _ (List.mem_append_left _ (List.mem_append_right _ here))

theorem reported_iff {l : Lexeme} (mem : l ∈ lexemes source) {name : String} {s : Span}
    (close : l.token = .close name s) :
    Problem.diagnostic (.unexpectedEndTag name) s ∈ (parse source).problems ∨
        Problem.diagnostic (.voidEndTag name) s ∈ (parse source).problems ↔
      ∀ x around, (x, around) ∈ elementsAll [] (parse source).nodes → x.OpenAt s.start →
        sameName name x.tag.name = false := by
  obtain ⟨before, after, split⟩ := List.append_of_mem mem
  obtain ⟨c, first, more, rfl, rest⟩ := (split ▸ lexes_lexemes source).split
  let b := before.foldl Builder.step Builder.empty
  have start : Cursor.At source.toList ⟨0, source.toList⟩ := ⟨[], rfl, rfl⟩
  obtain ⟨account, stands⟩ := first.preserves start (Builder.Account.empty source)
    fun _ _ stands more kept => kept.step stands more
  have begins : s.start = c.offset := congrArg Span.start (span_of_close stands more close)
  have inside : c.offset ≤ source.utf8ByteSize := (Lexes.cons more rest).le stands
  have opens {tag : StartTag} : tag ∈ b.tags ↔
      ∃ x around, (x, around) ∈ elementsAll [] (parse source).nodes ∧ x.OpenAt c.offset ∧
        x.tag = tag :=
    mem_tags_iff_openAt account (since_ofText stands (.cons more rest) split) inside
  have unexpected := mem_problems_iff first more rest split close (p := .unexpectedEndTag name)
    (List.mem_cons_of_mem _ List.mem_cons_self)
  have void := mem_problems_iff first more rest split close (p := .voidEndTag name)
    List.mem_cons_self
  rw [unexpected, void, Builder.mem_reports_iff, Builder.mem_reports_iff, begins]
  constructor
  · intro stray x around mem opened
    have none : ∀ tag ∈ b.tags, sameName name tag.name = false :=
      stray.elim (fun h => h.1) (fun h => h.1)
    exact none x.tag (opens.mpr ⟨x, around, mem, opened, rfl⟩)
  · intro none
    have free : ∀ tag ∈ b.tags, sameName name tag.name = false := by
      intro tag here
      obtain ⟨x, around, mem, opened, rfl⟩ := opens.mp here
      exact none x around mem opened
    unfold Builder.strayEndTag
    split
    · exact Or.inr ⟨free, rfl⟩
    · exact Or.inl ⟨free, rfl⟩

end stray

/-- The elements of every text, and the problems with their ends, are accounted for. -/
theorem parse_accounts (source : String) : Accounts source (parse source) := by
  have ended {x : Element} {around : List Element}
      (mem : (x, around) ∈ elementsAll [] (parse source).nodes) :
      x.Settled source around ∨ x ∈ line source :=
    (cases_elements_parse mem).imp_left fun ⟨inner, done, sub⟩ =>
      ((account_ofText source).settled x inner done).mono sub
  refine ⟨?_, ?_, fun l mem name s close => reported_iff mem close⟩
  · intro x around mem
    rcases ended mem with ⟨e, -, ends⟩ | last
    · exact ⟨e, ends _, fun e' other => other.unique (ends _)⟩
    · have ends := endsBy_of_line last around
      exact ⟨.unclosed, ends, fun e' other => other.unique ends⟩
  · obtain ⟨more, eq, noted⟩ := (lexes_lexemes source).problems ⟨[], rfl, rfl⟩ Builder.empty
    refine ⟨_, line source, problems_parse source, ?_, ?_, ?_⟩
    · intro d mem
      exact (noted d (by rw [← List.nil_append more]; exact eq ▸ mem)).closed
    · intro x outer eq
      rw [parse_eq, elementsAll_append]
      exact List.mem_append_right _ (spine_mem_collapse eq)
    · intro x around mem
      refine ⟨fun last => endsBy_of_line last around, fun ends => ?_⟩
      rcases ended mem with ⟨e, before, ends'⟩ | last
      · exact absurd ((ends' _).unique ends) before
      · exact last

end DirectiveTemplates.Markup
