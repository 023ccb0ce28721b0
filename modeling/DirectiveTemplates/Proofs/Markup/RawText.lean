import DirectiveTemplates.Proofs.Markup.Endings

/-!
The content of raw text elements. It is text up to the first place where an end tag of the element
could start. When the name of the end tag there goes on, it closes nothing: the element stays open,
and what follows is no longer read as text.
-/
namespace DirectiveTemplates.Markup

open Text

/-- The content of an element is text alone: all the text behind its start tag, as it stands. -/
def OnlyText (source : List Char) (tag : StartTag) (children : List Node) : Prop :=
  children = [] ∨ ∃ t, children = [.text t] ∧ t.span.start = tag.span.stop ∧
    t.span.Covers source t.value.toList

/-- The raw text of an element goes from its start tag to the first place where an end tag of its
name starts, or to the end of the text. -/
def IsRawText (source : List Char) (tag : StartTag) (raw : Option TextNode) : Prop :=
  ∃ before body after, source = before ++ body ++ after ∧ tag.span.stop = byteLength before ∧
    FreeOfEnd tag.name.toList body ∧
    (after = [] ∨ startsEndTag tag.name.toList after = true) ∧
    raw = Written.rawNode tag.span.stop body

/-- The end tag where the raw text of an element ends has a longer name, and was reported. -/
structure EndTagGoesOn (source : List Char) (problems : List Diagnostic) (tag : StartTag)
    (s : Span) : Prop where
  name : ∃ name more, IsEndTag source name s ∧ more ≠ [] ∧
    lowerAscii name.toList = lowerAscii tag.name.toList ++ more ∧
    Problem.diagnostic (.unexpectedEndTag name) s ∈ problems
  free : ∃ body, Span.Covers ⟨tag.span.stop, s.start⟩ source body ∧ FreeOfEnd tag.name.toList body

/-- Such an end tag stands before an offset. -/
def Loosened (source : List Char) (problems : List Diagnostic) (tag : StartTag) (offset : Nat) :
    Prop :=
  ∃ s, EndTagGoesOn source problems tag s ∧ s.stop ≤ offset

/-- A raw text element has its raw text, and other children only behind such an end tag. -/
def HasRawText (source : List Char) (problems : List Diagnostic) (tag : StartTag)
    (children : List Node) : Prop :=
  ∃ raw rest, children = raw.toList.map .text ++ rest ∧ IsRawText source tag raw ∧
    ∀ n ∈ rest, Loosened source problems tag n.span.start

section raw

variable {source : List Char} {problems : List Diagnostic} {tag : StartTag} {children : List Node}

theorem Loosened.mono {offset offset' : Nat} (h : Loosened source problems tag offset)
    {more : List Diagnostic} (sub : problems ⊆ more) (le : offset ≤ offset') :
    Loosened source more tag offset' := by
  obtain ⟨s, ⟨⟨name, rest, endTag, ne, longer, mem⟩, free⟩, le'⟩ := h
  exact ⟨s, ⟨⟨name, rest, endTag, ne, longer, sub mem⟩, free⟩, Nat.le_trans le' le⟩

theorem HasRawText.mono (h : HasRawText source problems tag children) {more : List Diagnostic}
    (sub : problems ⊆ more) : HasRawText source more tag children := by
  obtain ⟨raw, rest, eq, text, behind⟩ := h
  exact ⟨raw, rest, eq, text, fun n mem => (behind n mem).mono sub (Nat.le_refl _)⟩

theorem HasRawText.append (h : HasRawText source problems tag children) {ns : List Node}
    (behind : ∀ n ∈ ns, Loosened source problems tag n.span.start) :
    HasRawText source problems tag (children ++ ns) := by
  obtain ⟨raw, rest, rfl, text, later⟩ := h
  refine ⟨raw, rest ++ ns, List.append_assoc _ _ _, text, fun n mem => ?_⟩
  exact (List.mem_append.mp mem).elim (later n) (behind n)

/-- Text alone is the content of a raw text element unless something stands behind an end tag that
goes on. -/
theorem HasRawText.onlyText_iff (h : HasRawText source problems tag children) :
    OnlyText source tag children ↔
      ¬ ∃ n ∈ children, Loosened source problems tag n.span.start := by
  constructor
  · rintro (rfl | ⟨t, rfl, starts, -⟩) ⟨n, mem, s, goesOn, le⟩
    · cases mem
    · obtain ⟨body, covers, -⟩ := goesOn.free
      obtain ⟨name, more, endTag, -⟩ := goesOn.name
      have behind : tag.span.stop ≤ s.start := covers.le.1
      have lt := endTag.lt.1
      rw [List.mem_singleton.mp mem] at le
      have le : s.stop ≤ t.span.start := le
      omega
  · intro none
    obtain ⟨raw, rest, rfl, ⟨before, body, after, eq, stop, -, -, rfl⟩, behind⟩ := h
    have alone : rest = [] := by
      cases rest with
      | nil => rfl
      | cons n ns =>
        exact absurd ⟨n, by simp, behind n List.mem_cons_self⟩ none
    rw [alone, List.append_nil]
    unfold Written.rawNode
    split
    · exact Or.inl rfl
    · refine Or.inr ⟨_, rfl, rfl, before, after, ?_, ?_⟩
      · rw [String.toList_ofList]
        exact eq
      · rw [String.toList_ofList, stop]

end raw

/-! Reading. -/

def AwaitsEnd (source : List Char) (tag : StartTag) (c : Cursor) : Prop :=
  Awaits tag.name c ∧
    ∃ body, Span.Covers ⟨tag.span.stop, c.offset⟩ source body ∧ FreeOfEnd tag.name.toList body

theorem readRaw_eq_rawNode (name : List Char) (c : Cursor) :
    readRaw name c = (Written.rawNode c.offset (c.textUntil (startsEndTag name)),
      c.goUntil (startsEndTag name)) := by
  unfold readRaw Written.rawNode
  cases text : c.textUntil (startsEndTag name) with
  | nil => rfl
  | cons d ds =>
    simp only [List.cons_ne_nil, if_false]
    rw [← text]
    rfl

theorem readToken_startsRaw {source : List Char} {c : Cursor} (stands : c.At source)
    {tag : StartTag} {raw : Option TextNode} (start : (readToken c).token = .start tag raw)
    (isRaw : tag.startsRaw = true) :
    IsRawText source tag raw ∧ AwaitsEnd source tag (readToken c).next := by
  have read : readToken c = readStartTag c := by
    unfold readToken at start ⊢
    cases construct : constructAt c.rest with
    | openTag => rfl
    | comment => simp [construct, readComment] at start
    | cdata => simp [construct, readCdata] at start
    | declaration => simp [construct, readDeclaration] at start
    | instruction => simp [construct, readInstruction] at start
    | closeTag => simp [construct, readEndTag] at start
    | text => simp [construct, readText] at start
  rw [read] at start ⊢
  cases startsRaw : c.startTag.startsRaw with
  | false =>
    rw [readStartTag_of_not_startsRaw startsRaw] at start
    cases start
    rw [startsRaw] at isRaw
    cases isRaw
  | true =>
    rw [readStartTag_of_startsRaw startsRaw] at start ⊢
    rw [readRaw_eq_rawNode] at start ⊢
    cases start
    obtain ⟨piece, reads⟩ := reads_tagBody stands
    have inside := stands.next reads
    have text := c.tagBody.next.reads_goUntil (startsEndTag (c.skip 1).name)
    have name : c.startTag.name.toList = (c.skip 1).name := String.toList_ofList
    have free := freeOfEnd_textUntil (c.skip 1).name c.tagBody.next
    have stops := c.tagBody.next.stop_of_goUntil (startsEndTag (c.skip 1).name)
    rw [← name] at free stops
    refine ⟨?_, ?_, ?_⟩
    · obtain ⟨before, eq, offset⟩ := inside
      refine ⟨before, _, _, ?_, offset, free, stops, ?_⟩
      · rw [eq, text.1, name, List.append_assoc]
      · rw [name]
        rfl
    · rw [name] at stops
      unfold Awaits
      rw [name]
      exact stops
    · exact ⟨_, inside.covers text, name ▸ free⟩

/-- A name that is longer than the name of a raw text element is not the name of a void element. -/
theorem isVoid_of_longer {name other : String} (isRaw : isRawText name = true) {more : List Char}
    (longer : lowerAscii other.toList = lowerAscii name.toList ++ more) :
    isVoid other = false := by
  have apart : ∀ r ∈ rawTextNames, ∀ v ∈ voidNames,
      ¬ lowerAscii r.toList <+: lowerAscii v.toList := by decide +kernel
  rw [← Bool.not_eq_true]
  intro void
  obtain ⟨r, mem, same⟩ := List.any_eq_true.mp isRaw
  obtain ⟨v, mem', same'⟩ := List.any_eq_true.mp void
  rw [sameName, beq_iff_eq] at same same'
  apply apart r mem v mem'
  rw [← same, ← same', longer]
  exact List.prefix_append _ _

theorem prefix_breakAt {class? : Char → Bool} {piece after : List Char}
    (inside : ∀ c ∈ piece, class? c = false) :
    piece <+: (breakAt (startsWithAny class?) (piece ++ after)).1 := by
  induction piece with
  | nil => exact List.nil_prefix
  | cons c cs ih =>
    have here := inside c List.mem_cons_self
    simp only [List.cons_append, breakAt, startsWithAny, here, Bool.false_eq_true, if_false]
    exact List.cons_prefix_cons.mpr ⟨rfl, ih fun d mem => inside d (List.mem_cons_of_mem c mem)⟩

/-- An end tag that starts like the one of an element has its name, or a name that goes on. -/
theorem exists_longer {name : List Char} {c : Cursor} (inside : ∀ d ∈ name, isNameEnd d = false)
    (starts : startsEndTag name c.rest = true) :
    ∃ more, lowerAscii (c.skip 2).name = lowerAscii name ++ more := by
  obtain ⟨tail, whole⟩ := (startsEndTag_iff _ _).mp starts
  match rest : c.rest with
  | [] => simp [rest, lowerAscii] at whole
  | [a] => simp [rest, lowerAscii] at whole
  | a :: b :: ds =>
    have lower : lowerAscii ds = lowerAscii name ++ tail := by
      rw [rest] at whole
      simp only [lowerAscii, List.map_cons, List.cons_append, List.cons.injEq] at whole
      exact whole.2.2.symm
    obtain ⟨piece, after, rfl, same, -⟩ := List.map_eq_append_iff.mp lower
    have behind : (c.skip 2).rest = piece ++ after := by
      simp [Cursor.skip, Cursor.after, rest]
    have first : piece <+: (breakAt (startsWithAny isNameEnd) (piece ++ after)).1 :=
      prefix_breakAt (name_of_lowerAscii_eq inside same)
    obtain ⟨more, eq⟩ := first
    refine ⟨lowerAscii more, ?_⟩
    rw [Cursor.name, Cursor.textUntil, behind, ← eq, ← same]
    exact List.map_append

/-! What a builder makes of it. -/

theorem start_of_mem_collapse {stop : Nat} {es : List OpenElement} {n : Node}
    (mem : n ∈ collapse stop es []) : ∃ e ∈ es, n.span.start = e.tag.span.start := by
  have general : ∀ (es : List OpenElement) (ns : List Node), n ∈ collapse stop es ns →
      n ∈ ns ∨ ∃ e ∈ es, n.span.start = e.tag.span.start := by
    intro es
    induction es with
    | nil => exact fun ns mem => Or.inl mem
    | cons e es ih =>
      intro ns mem
      rcases ih _ mem with here | ⟨e', mem', eq⟩
      · rw [List.mem_singleton.mp here]
        exact Or.inr ⟨e, List.mem_cons_self, rfl⟩
      · exact Or.inr ⟨e', List.mem_cons_of_mem e mem', eq⟩
  exact (general es [] mem).resolve_left List.not_mem_nil

namespace Builder

/-- Raw text elements, finished and open, have their raw text; elements stand in one that is open
only behind an end tag that goes on. -/
structure Raw (source : List Char) (b : Builder) : Prop where
  finished : ∀ x around, (x, around) ∈ b.elements → x.tag.startsRaw = true →
    HasRawText source b.problems x.tag x.children
  opened : ∀ e ∈ b.stack, e.tag.startsRaw = true → HasRawText source b.problems e.tag e.children
  nested : b.tags.Pairwise fun inner outer => outer.startsRaw = true →
    Loosened source b.problems outer inner.span.start

/-- The innermost open element is no raw text element, or an end tag that goes on stands before, or
its end tag has to come next. -/
def RawAt (source : List Char) (b : Builder) (c : Cursor) : Prop :=
  ∀ tag, b.tags.head? = some tag → tag.startsRaw = true →
    Loosened source b.problems tag c.offset ∨ AwaitsEnd source tag c

/-- End tags that go on stand before an offset, for every raw text element that is open. -/
def Loose (source : List Char) (b : Builder) (offset : Nat) : Prop :=
  ∀ tag ∈ b.tags, tag.startsRaw = true → Loosened source b.problems tag offset

variable {source : List Char} {b : Builder}

namespace Raw

theorem mono (h : b.Raw source) {problems : List Diagnostic} (sub : b.problems ⊆ problems) :
    Raw source { b with problems } :=
  ⟨fun x around mem isRaw => (h.finished x around mem isRaw).mono sub,
    fun e mem isRaw => (h.opened e mem isRaw).mono sub,
    h.nested.imp fun loose isRaw => (loose isRaw).mono sub (Nat.le_refl _)⟩

theorem add (h : b.Raw source) {n : Node}
    (inside : ∀ x around, (x, around) ∈ n.elements [] → x.tag.startsRaw = true →
      HasRawText source b.problems x.tag x.children)
    (behind : ∀ tag, b.tags.head? = some tag → tag.startsRaw = true →
      Loosened source b.problems tag n.span.start) : (b.add n).Raw source := by
  constructor
  · intro x around mem isRaw
    rw [problems_add]
    exact (mem_elements_add.mp mem).elim (h.finished x around · isRaw) (inside x around · isRaw)
  · intro e mem isRaw
    rw [problems_add]
    obtain ⟨stack, roots, problems⟩ := b
    cases stack with
    | nil => cases mem
    | cons top outer =>
      rcases List.mem_cons.mp mem with rfl | mem
      · refine (h.opened top List.mem_cons_self isRaw).append fun n' only => ?_
        rw [List.mem_singleton.mp only]
        exact behind top.tag rfl isRaw
      · exact h.opened e (List.mem_cons_of_mem _ mem) isRaw
  · rw [tags_add, problems_add]
    exact h.nested

theorem inside (h : b.Raw source) {es outer : List OpenElement} {e : OpenElement}
    (split : b.stack = es ++ e :: outer) (isRaw : e.tag.startsRaw = true) :
    ∀ e' ∈ es, Loosened source b.problems e.tag e'.tag.span.start := by
  have nested := h.nested
  rw [tags_of_stack split, List.pairwise_append] at nested
  exact fun e' mem => nested.2.2 e'.tag (List.mem_map_of_mem mem) e.tag List.mem_cons_self isRaw

theorem around (h : b.Raw source) {es outer : List OpenElement} {e : OpenElement}
    (split : b.stack = es ++ e :: outer) : ∀ tag ∈ outer.map OpenElement.tag,
      tag.startsRaw = true → Loosened source b.problems tag e.tag.span.start := by
  have nested := h.nested
  rw [tags_of_stack split, List.pairwise_append, List.pairwise_cons] at nested
  exact nested.2.1.1

/-- Open elements that end have their raw text, with the elements inside that end with them. -/
theorem collapse (h : b.Raw source) {es outer : List OpenElement} {e : OpenElement}
    (split : b.stack = es ++ e :: outer) (stop : Nat) (isRaw : e.tag.startsRaw = true) :
    HasRawText source b.problems e.tag (e.children ++ Markup.collapse stop es []) := by
  refine (h.opened e (by simp [split]) isRaw).append fun n mem => ?_
  obtain ⟨e', mem', eq⟩ := start_of_mem_collapse mem
  rw [eq]
  exact h.inside split isRaw e' mem'

theorem spine (h : b.Raw source) {es outer : List OpenElement} (split : b.stack = es ++ outer)
    {stop : Nat} {x : Element} (line : x ∈ Markup.spine stop es [])
    (isRaw : x.tag.startsRaw = true) : HasRawText source b.problems x.tag x.children := by
  obtain ⟨inner, e, outer', rfl, rfl⟩ := mem_spine line
  rw [List.append_assoc, List.cons_append] at split
  exact h.collapse split stop isRaw

theorem close (h : b.Raw source) {es outer : List OpenElement} {e : OpenElement}
    (split : b.stack = es ++ e :: outer) (s : Span) :
    Raw source (Builder.add { b with stack := outer } (e.ended s es).node) := by
  have nested := h.nested
  rw [tags_of_stack split, List.pairwise_append, List.pairwise_cons] at nested
  have rest : Raw source { b with stack := outer } := by
    refine ⟨?_, fun e' mem => h.opened e' (by simp [split, mem]), nested.2.1.2⟩
    intro x around mem
    rcases mem_elements_iff.mp mem with root | ⟨e', opened, child⟩
    · exact h.finished x around (mem_elements_iff.mpr (Or.inl root))
    · exact h.finished x around (mem_elements_iff.mpr (Or.inr ⟨e', by simp [split, opened], child⟩))
  apply rest.add
  · intro x around mem isRaw
    rcases cases_elements_ended mem with rfl | ⟨line, -⟩ | ⟨e', opened, inner, child, -⟩
    · exact h.collapse split s.start isRaw
    · exact h.spine split line isRaw
    · refine h.finished x inner (mem_elements_iff.mpr (Or.inr ⟨e', ?_, child⟩)) isRaw
      rw [split, List.append_cons]
      exact List.mem_append_left _ opened
  · intro tag head isRaw
    exact h.around split tag (List.mem_of_mem_head? head) isRaw

theorem push (h : b.Raw source) {tag : StartTag} {raw : Option TextNode}
    (text : tag.startsRaw = true → IsRawText source tag raw)
    (behind : ∀ outer ∈ b.tags, outer.startsRaw = true →
      Loosened source b.problems outer tag.span.start) :
    Raw source { b with stack := ⟨tag, raw.toList.map .text⟩ :: b.stack } := by
  refine ⟨?_, ?_, List.pairwise_cons.mpr ⟨behind, h.nested⟩⟩
  · intro x around mem
    rcases mem_elements_iff.mp mem with root | ⟨e, opened, child⟩
    · exact h.finished x around (mem_elements_iff.mpr (Or.inl root))
    · rcases List.mem_cons.mp opened with rfl | opened
      · rw [elementsAll_raw] at child
        cases child
      · exact h.finished x around (mem_elements_iff.mpr (Or.inr ⟨e, opened, child⟩))
  · intro e mem isRaw
    rcases List.mem_cons.mp mem with rfl | mem
    · exact ⟨raw, [], (List.append_nil _).symm, text isRaw, fun n none => by cases none⟩
    · exact h.opened e mem isRaw

end Raw

structure RawSoFar (source : List Char) (b : Builder) (c : Cursor) : Prop where
  raw : b.Raw source
  rawAt : b.RawAt source c
  spelled : ∀ tag ∈ b.tags, IsTag tag.name (tag.attributes.map Attribute.name)
  begun : ∀ tag ∈ b.tags, tag.span.start ≤ c.offset

namespace RawSoFar

variable {c : Cursor}

/-- Where raw text does not end, end tags that go on stand before: the one of the innermost element
by `rawAt`, the others before the innermost element. -/
theorem loose (h : b.RawSoFar source c)
    (other : ∀ tag, b.tags.head? = some tag → ¬ AwaitsEnd source tag c) :
    b.Loose source c.offset := by
  obtain ⟨raw, rawAt, -, begun⟩ := h
  have nested := raw.nested
  unfold RawAt at rawAt
  unfold Loose
  cases tags : b.tags with
  | nil => simp
  | cons inner outer =>
    rw [tags] at rawAt other nested begun
    intro tag mem isRaw
    rcases List.mem_cons.mp mem with rfl | mem
    · exact (rawAt tag rfl isRaw).resolve_right (other tag rfl)
    · have loose := (List.pairwise_cons.mp nested).1 tag mem isRaw
      exact loose.mono (List.Subset.refl _) (begun inner List.mem_cons_self)

/-- Where the end tag of an element starts, no other token is read. -/
theorem close_of_awaitsEnd (h : b.RawSoFar source c) (more : c.rest ≠ []) {tag : StartTag}
    (mem : tag ∈ b.tags) (awaits : AwaitsEnd source tag c) :
    ∃ name s, (readToken c).token = .close name s := by
  have starts := awaits.1.resolve_left more
  rw [readToken_of_startsEndTag (h.spelled tag mem).letter starts]
  exact ⟨_, _, rfl⟩

/-- An end tag that starts like the one of an element, but closes nothing, goes on. -/
theorem endTagGoesOn (h : b.RawSoFar source c) (stands : c.At source) (more : c.rest ≠ [])
    {tag : StartTag} (mem : tag ∈ b.tags) (isRaw : tag.startsRaw = true)
    (awaits : AwaitsEnd source tag c) {name : String} {s : Span}
    (close : (readToken c).token = .close name s)
    (stray : ∀ tag ∈ b.tags, sameName name tag.name = false) {problems : List Diagnostic}
    (reported : (strayEndTag name).diagnostic s ∈ problems) :
    EndTagGoesOn source problems tag s := by
  obtain ⟨starts, body, covers, free⟩ := awaits
  obtain ⟨-, read, endTag⟩ := readToken_close stands close
  have span := span_of_close stands more close
  obtain ⟨rest, longer⟩ := exists_longer (h.spelled tag mem).name (starts.resolve_left more)
  have named : (c.skip 2).name = name.toList := by
    rw [read] at close
    simp only [readEndTag, Token.close.injEq] at close
    rw [← close.1, String.toList_ofList]
  rw [named] at longer
  have goesOn : rest ≠ [] := by
    rintro rfl
    have differs := stray tag mem
    rw [sameName, longer, List.append_nil, beq_self_eq_true] at differs
    cases differs
  have void : isVoid name = false := by
    rw [StartTag.startsRaw, Bool.and_eq_true] at isRaw
    exact isVoid_of_longer isRaw.2 longer
  rw [strayEndTag, void, if_neg Bool.false_ne_true] at reported
  refine ⟨⟨name, rest, endTag, goesOn, longer, reported⟩, body, ?_, free⟩
  rw [span]
  exact covers

/-- What a token keeps that leaves the open elements open. -/
theorem keep (h : b.RawSoFar source c) {b' : Builder} {d : Cursor} (raw : b'.Raw source)
    (tags : b'.tags = b.tags) (sub : b.problems ⊆ b'.problems) (le : c.offset ≤ d.offset)
    (loose : b.Loose source c.offset) : b'.RawSoFar source d := by
  refine ⟨raw, ?_, by rw [tags]; exact h.spelled, ?_⟩
  · intro tag head isRaw
    rw [tags] at head
    exact Or.inl ((loose tag (List.mem_of_mem_head? head) isRaw).mono sub le)
  · intro tag mem
    rw [tags] at mem
    exact Nat.le_trans (h.begun tag mem) le

theorem add (h : b.RawSoFar source c) {n : Node} {d : Cursor} (problems : List Diagnostic)
    (start : n.span.start = c.offset) (le : c.offset ≤ d.offset)
    (inside : ∀ x around, (x, around) ∈ n.elements [] → x.tag.startsRaw = false)
    (loose : b.Loose source c.offset) : ((b.report problems).add n).RawSoFar source d := by
  have sub : b.problems ⊆ (b.report problems).problems := List.subset_append_left _ _
  refine h.keep ?_ (tags_add _ n) (by rw [problems_add]; exact sub) le loose
  refine (h.raw.mono sub).add ?_ ?_
  · intro x around mem isRaw
    rw [inside x around mem] at isRaw
    cases isRaw
  · intro tag head isRaw
    rw [start]
    exact (loose tag (List.mem_of_mem_head? head) isRaw).mono sub (Nat.le_refl _)

theorem push (h : b.RawSoFar source c) (stands : c.At source) (more : c.rest ≠ [])
    {tag : StartTag} {raw : Option TextNode} (problems : List Diagnostic)
    (start : (readToken c).token = .start tag raw) (loose : b.Loose source c.offset) :
    RawSoFar source { b.report problems with stack := ⟨tag, raw.toList.map .text⟩ :: b.stack }
      (readToken c).next := by
  have sub : b.problems ⊆ (b.report problems).problems := List.subset_append_left _ _
  obtain ⟨begins, lt, stop⟩ := bounds_of_start stands more start
  constructor
  · refine (h.raw.mono sub).push (fun isRaw => (readToken_startsRaw stands start isRaw).1) ?_
    intro outer mem isRaw
    rw [begins]
    exact (loose outer mem isRaw).mono sub (Nat.le_refl _)
  · intro tag' head isRaw
    cases head
    exact Or.inr (readToken_startsRaw stands start isRaw).2
  · refine List.forall_mem_cons.mpr ⟨?_, h.spelled⟩
    rcases read : readToken c with ⟨token, problems', next⟩
    rw [read] at start
    cases start
    exact (startLegible_of_readToken read).spelled
  · refine List.forall_mem_cons.mpr ⟨show tag.span.start ≤ _ by omega, fun outer mem => ?_⟩
    have le := h.begun outer mem
    omega

theorem close (h : b.RawSoFar source c) (stands : c.At source) (more : c.rest ≠ []) {name : String}
    {s : Span} (problems : List Diagnostic) (token : (readToken c).token = .close name s) :
    ((b.report problems).close name s).RawSoFar source (readToken c).next := by
  obtain ⟨⟨piece, -, reads⟩, -⟩ := readToken_spec stands more
  have le := reads.le
  have span := span_of_close stands more token
  have stop : s.stop = (readToken c).next.offset := congrArg Span.stop span
  have sub : b.problems ⊆ (b.report problems).problems := List.subset_append_left _ _
  have raw := h.raw.mono sub
  rcases close_cases (b.report problems) name s with ⟨es, e, outer, split, -, eq⟩ | ⟨none, eq⟩
  · have split : b.stack = es ++ e :: outer := split
    have older : ∀ tag ∈ outer.map OpenElement.tag, tag ∈ b.tags := by
      intro tag mem
      rw [tags_of_stack split]
      exact List.mem_append_right _ (List.mem_cons_of_mem _ mem)
    rw [eq]
    refine ⟨raw.close split s, ?_, ?_, ?_⟩
    · intro tag head isRaw
      rw [tags_add] at head
      have loose := raw.around split tag (List.mem_of_mem_head? head) isRaw
      have begun := h.begun e.tag (mem_tags_of_stack split)
      rw [problems_add]
      exact Or.inl (loose.mono (List.Subset.refl _) (Nat.le_trans begun le))
    · rw [tags_add]
      exact fun tag mem => h.spelled tag (older tag mem)
    · rw [tags_add]
      exact fun tag mem => Nat.le_trans (h.begun tag (older tag mem)) le
  · have stray : ∀ tag ∈ b.tags, sameName name tag.name = false := by
      simpa [tags, Builder.report] using none
    rw [eq]
    refine ⟨raw.mono (List.subset_append_left _ _), ?_, h.spelled,
      fun tag mem => Nat.le_trans (h.begun tag mem) le⟩
    intro tag head isRaw
    left
    -- An end tag that closes nothing: where raw text ends, it is the one that goes on.
    rcases h.rawAt tag head isRaw with loose | awaits
    · exact loose.mono (List.Subset.trans sub (List.subset_append_left _ _)) le
    · refine ⟨s, ?_, Nat.le_of_eq stop⟩
      exact h.endTagGoesOn stands more (List.mem_of_mem_head? head) isRaw awaits token stray
        (List.mem_append_right _ (List.mem_singleton_self _))

theorem step (h : b.RawSoFar source c) (stands : c.At source) (more : c.rest ≠ []) :
    (b.step (readToken c)).RawSoFar source (readToken c).next := by
  obtain ⟨⟨piece, -, reads⟩, fits⟩ := readToken_spec stands more
  have le := reads.le
  -- Where raw text ends, the token is an end tag, whatever its name.
  have loose (other : ∀ name s, (readToken c).token ≠ .close name s) : b.Loose source c.offset := by
    refine h.loose fun tag head awaits => ?_
    obtain ⟨name, s, close⟩ := h.close_of_awaitsEnd more (List.mem_of_mem_head? head) awaits
    exact other name s close
  unfold Builder.step
  cases token : (readToken c).token with
  | text t | comment t | instruction t =>
    rw [token] at fits loose
    exact h.add _ (congrArg Span.start fits.1) le (fun x around mem => by cases mem)
      (loose fun _ _ => Token.noConfusion)
  | declaration s =>
    rw [token] at loose
    have sub : b.problems ⊆ (b.report (readToken c).problems).problems :=
      List.subset_append_left _ _
    exact h.keep (h.raw.mono sub) rfl sub le (loose fun _ _ => Token.noConfusion)
  | close name s => exact h.close stands more _ token
  | start tag raw =>
    have start := token
    rw [token] at fits loose
    have loose := loose fun _ _ => Token.noConfusion
    simp only
    split
    · rename_i closed
      refine h.add _ fits.1 le ?_ loose
      intro x around mem
      cases List.mem_singleton.mp mem
      simp [StartTag.startsRaw, closed]
    · exact h.push stands more _ start loose

theorem empty (source : List Char) : Builder.empty.RawSoFar source ⟨0, source⟩ := by
  refine ⟨⟨?_, ?_, ?_⟩, ?_, ?_, ?_⟩ <;>
    simp [Builder.empty, elements, elementsAll, tags, RawAt]

end RawSoFar

end Builder

section text

variable {source : String} {x : Element} {around : List Element}

theorem raw_ofText (source : String) : (Builder.ofText source).Raw source.toList :=
  ((lexes_lexemes source).preserves ⟨[], rfl, rfl⟩ (Builder.RawSoFar.empty source.toList)
    fun _ _ stands more kept => kept.step stands more).1.raw

theorem hasRawText_of_mem (mem : (x, around) ∈ elementsAll [] (parse source).nodes)
    (isRaw : x.tag.startsRaw = true) :
    HasRawText source.toList (parse source).problems x.tag x.children := by
  have raw := raw_ofText source
  have sub : (Builder.ofText source).problems ⊆ (parse source).problems := by
    rw [problems_parse]
    exact List.subset_append_left _ _
  rcases cases_elements_parse mem with ⟨inner, done, -⟩ | last
  · exact (raw.finished x inner done isRaw).mono sub
  · exact (raw.spine (List.append_nil _).symm last isRaw).mono sub

theorem children_of_isClosed (mem : (x, around) ∈ elementsAll [] (parse source).nodes)
    (closed : x.tag.isClosed = true) : x.children = [] := by
  have content {p : Prop} (opened : x.tag.isClosed = false) : p := by
    rw [closed] at opened
    cases opened
  rcases cases_elements_parse mem with ⟨inner, done, -⟩ | last
  · obtain ⟨e, before, ends⟩ := (account_ofText source).settled x inner done
    have ends := ends []
    cases e with
    | closed => exact ends.2.1
    | tagged =>
      obtain ⟨s, tagged⟩ := ends
      exact content tagged.content
    | implied => exact content ends.1
    | unclosed => exact absurd rfl before
  · exact content (endsBy_of_line last []).1

/-- A raw text element without content is empty. Every other one has its raw text, and it has text
alone unless something stands in it behind an end tag that goes on. -/
theorem onlyText_iff_not_loosened (mem : (x, around) ∈ elementsAll [] (parse source).nodes)
    (isRaw : isRawText x.tag.name = true) :
    (x.tag.isClosed = true ∧ x.children = [] ∨
        HasRawText source.toList (parse source).problems x.tag x.children) ∧
      (OnlyText source.toList x.tag x.children ↔
        ¬ ∃ n ∈ x.children, Loosened source.toList (parse source).problems x.tag n.span.start) := by
  cases closed : x.tag.isClosed with
  | true =>
    have none := children_of_isClosed mem closed
    refine ⟨Or.inl ⟨rfl, none⟩, ?_⟩
    rw [none]
    exact ⟨fun _ ⟨n, mem, _⟩ => List.not_mem_nil mem, fun _ => Or.inl rfl⟩
  | false =>
    have text := hasRawText_of_mem mem (by simp [StartTag.startsRaw, closed, isRaw])
    exact ⟨Or.inr text, text.onlyText_iff⟩

end text

/-- Nothing is reported, so the `<` inside a script is text. -/
theorem onlyText_of_script :
    let source := "<script>a<b</script>"
    let script : Element := ⟨⟨"script", [], false, ⟨0, 8⟩, ⟨1, 7⟩⟩, ⟨0, 20⟩, some ⟨11, 20⟩,
      [.text ⟨"a<b", ⟨8, 11⟩⟩]⟩
    elementsAll [] (parse source).nodes = [(script, [])] ∧ isRawText script.tag.name = true ∧
      OnlyText source.toList script.tag script.children := by
  intro source script
  have parsed : parse "<script>a<b</script>" = ⟨[script.node], []⟩ := by rfl
  have whole : elementsAll [] (parse source).nodes = [(script, [])] := by
    rw [parsed]
    rfl
  have isRaw : isRawText script.tag.name = true := by decide
  have mem : (script, []) ∈ elementsAll [] (parse source).nodes := by
    rw [whole]
    exact List.mem_singleton_self _
  refine ⟨whole, isRaw, (onlyText_iff_not_loosened mem isRaw).2.mpr ?_⟩
  rintro ⟨n, -, s, goesOn, -⟩
  obtain ⟨name, more, -, -, -, reported⟩ := goesOn.name
  rw [parsed] at reported
  cases reported

/-- The end tag `</scripty>` ends the raw text of a script, but not the script. -/
theorem not_onlyText_of_longer_end_tag :
    let source := "<script>a</scripty><b>c</b></script>"
    ∃ x around, (x, around) ∈ elementsAll [] (parse source).nodes ∧
      isRawText x.tag.name = true ∧ ¬ OnlyText source.toList x.tag x.children := by
  intro source
  let bold : Node := .element ⟨"b", [], false, ⟨19, 22⟩, ⟨20, 21⟩⟩ ⟨19, 27⟩ (some ⟨23, 27⟩)
    [.text ⟨"c", ⟨22, 23⟩⟩]
  let script : Element := ⟨⟨"script", [], false, ⟨0, 8⟩, ⟨1, 7⟩⟩, ⟨0, 36⟩, some ⟨27, 36⟩,
    [.text ⟨"a", ⟨8, 9⟩⟩, bold]⟩
  have parsed : (parse "<script>a</scripty><b>c</b></script>").nodes = [script.node] := by rfl
  refine ⟨script, [], ?_, by decide, ?_⟩
  · rw [parsed]
    exact List.mem_cons_self
  · rintro (none | ⟨t, single, -⟩)
    · cases none
    · cases single

end DirectiveTemplates.Markup
