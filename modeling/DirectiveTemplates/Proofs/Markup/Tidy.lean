import DirectiveTemplates.Proofs.Markup.Legible
import DirectiveTemplates.Proofs.Markup.RoundTrip

/-!
Static markup has nothing but texts and tags. When it is read without a problem its forest is tidy:
every text is plain, no two texts are next to each other, and elements without content have none.
-/
namespace DirectiveTemplates.Markup

open Text

def Token.startTag? : Token → Option StartTag
  | .start tag _ => some tag
  | _ => none

/-- Markup in which only texts and tags are met, and no element with a namespace. -/
structure IsStatic (source : String) : Prop where
  constructs : ∀ c ∈ positions source, constructAt c.rest ∈ [.text, .openTag, .closeTag]
  unprefixed : ∀ c ∈ positions source, ∀ tag ∈ (readToken c).token.startTag?,
    splitNamespace tag.name = none

/-! Tidy forests. -/

def Node.isText : Node → Bool
  | .text _ => true
  | _ => false

def startsText (ns : List Node) : Bool := ns.head?.any Node.isText

def endsText (ns : List Node) : Bool := ns.getLast?.any Node.isText

theorem endsText_concat (ns : List Node) (n : Node) : endsText (ns ++ [n]) = n.isText := by
  simp [endsText]

mutual

def Node.Tidy : Node → Prop
  | .text t => t.value ≠ "" ∧ IsPlain t.value.toList
  | .comment _ => False
  | .instruction _ => False
  | .element tag _ _ children =>
    splitNamespace tag.name = none ∧ (tag.isClosed = true → children = []) ∧
      (∀ t, .text t ∈ children → t.value ≠ "") ∧ (isRawText tag.name = false → TidyAll children)

def TidyAll : List Node → Prop
  | [] => True
  | n :: ns => n.Tidy ∧ (n.isText = true → startsText ns = false) ∧ TidyAll ns

end

theorem TidyAll.concat {ns : List Node} {n : Node} (h : TidyAll ns) (tidy : n.Tidy)
    (apart : n.isText = true → endsText ns = false) : TidyAll (ns ++ [n]) := by
  induction ns with
  | nil => exact ⟨tidy, fun _ => rfl, trivial⟩
  | cons m ns ih =>
    obtain ⟨first, next, rest⟩ := h
    cases ns with
    | nil =>
      refine ⟨first, fun isText => ?_, tidy, fun _ => rfl, trivial⟩
      cases last : n.isText with
      | false => simpa [startsText] using last
      | true =>
        have other : m.isText = false := by simpa [endsText] using apart last
        rw [isText] at other
        cases other
    | cons m' ns =>
      exact ⟨first, next, ih rest (by simpa [endsText] using apart)⟩

/-! What the readers find. -/

/-- A text goes from a place where no construct starts to the next construct. -/
theorem tidy_readText {c : Cursor} (more : c.rest ≠ []) (text : constructAt c.rest = .text) :
    ∃ t, readText c = ⟨.text t, [], (readText c).next⟩ ∧ (Node.text t).Tidy ∧
      Parted (readText c).next.rest := by
  have plain := isPlain_breakAt c.rest
  rw [breakAt_of_text text] at plain
  refine ⟨_, rfl, ⟨?_, by rwa [String.toList_ofList]⟩, Cursor.stop_of_goUntil _ _⟩
  obtain ⟨d, ds, rest⟩ := List.exists_cons_of_ne_nil more
  simp [rest]

/-- Only raw text elements have text that is read with their start tag, and it is not empty. -/
theorem readStartTag_raw {c next : Cursor} {tag : StartTag} {raw : Option TextNode}
    {problems : List Diagnostic} (read : readStartTag c = ⟨.start tag raw, problems, next⟩) :
    ∀ t ∈ raw, isRawText tag.name = true ∧ t.value ≠ "" := by
  have free : ∀ name (start : Cursor), ∀ t ∈ (readRaw name start).1, t.value ≠ "" := by
    intro name start t mem
    unfold readRaw at mem
    split at mem
    · cases mem
    · rename_i value some
      cases mem
      simpa using some
  unfold readStartTag at read
  simp only at read
  split at read
  · rename_i isRaw
    simp only [Lexeme.mk.injEq, Token.start.injEq] at read
    obtain ⟨⟨rfl, rfl⟩, -, -⟩ := read
    intro t mem
    exact ⟨(Bool.and_eq_true_iff.mp isRaw).2, free _ _ t mem⟩
  · simp only [Lexeme.mk.injEq, Token.start.injEq] at read
    obtain ⟨⟨-, rfl⟩, -, -⟩ := read
    simp

/-! What a builder makes of them. -/

structure OpenElement.Tidy (e : OpenElement) : Prop where
  unprefixed : splitNamespace e.tag.name = none
  content : e.tag.isClosed = false
  texts : ∀ t, .text t ∈ e.children → t.value ≠ ""
  children : isRawText e.tag.name = false → TidyAll e.children

theorem OpenElement.Tidy.concat {e : OpenElement} {n : Node} (h : e.Tidy) (tidy : n.Tidy)
    (apart : n.isText = true → endsText e.children = false) :
    OpenElement.Tidy { e with children := e.children ++ [n] } := by
  refine ⟨h.unprefixed, h.content, ?_, fun plain => (h.children plain).concat tidy apart⟩
  intro t mem
  rcases List.mem_append.mp mem with mem | mem
  · exact h.texts t mem
  · cases List.mem_singleton.mp mem
    exact tidy.1

namespace Builder

def siblings (b : Builder) : List Node :=
  match b.stack with
  | [] => b.roots
  | e :: _ => e.children

theorem siblings_add (b : Builder) (n : Node) : (b.add n).siblings = b.siblings ++ [n] := by
  obtain ⟨stack, roots, problems⟩ := b
  cases stack <;> rfl

structure Tidy (b : Builder) : Prop where
  roots : TidyAll b.roots
  elements : ∀ e ∈ b.stack, e.Tidy

/-- After a text comes something else. -/
def Apart (b : Builder) (c : Cursor) : Prop := endsText b.siblings = true → Parted c.rest

theorem apart_add {b : Builder} {n : Node} {c : Cursor} (parted : n.isText = true → Parted c.rest) :
    (b.add n).Apart c := by
  rw [Apart, siblings_add, endsText_concat]
  exact parted

namespace Tidy

variable {b : Builder} {n : Node}

theorem add (h : b.Tidy) (tidy : n.Tidy) (apart : n.isText = true → endsText b.siblings = false) :
    (b.add n).Tidy := by
  obtain ⟨stack, roots, problems⟩ := b
  cases stack with
  | nil => exact ⟨h.roots.concat tidy apart, h.elements⟩
  | cons e outer =>
    obtain ⟨first, rest⟩ := List.forall_mem_cons.mp h.elements
    exact ⟨h.roots, List.forall_mem_cons.mpr ⟨first.concat tidy apart, rest⟩⟩

theorem endInnermost (h : b.Tidy) (stop : Nat) (endSpan : Option Span) :
    (b.endInnermost stop endSpan).Tidy := by
  obtain ⟨stack, roots, problems⟩ := b
  cases stack with
  | nil => exact h
  | cons e outer =>
    obtain ⟨first, rest⟩ := List.forall_mem_cons.mp h.elements
    have below : Tidy ⟨outer, roots, problems⟩ := ⟨h.roots, rest⟩
    apply below.add (n := .element e.tag ⟨e.tag.span.start, stop⟩ endSpan e.children)
    · refine ⟨first.unprefixed, ?_, first.texts, first.children⟩
      rw [first.content]
      intro closed
      cases closed
    · intro isText
      cases isText

theorem endInner (h : b.Tidy) (stop n : Nat) : (b.endInner stop n).Tidy := by
  induction n generalizing b with
  | zero => exact h
  | succ n ih => exact ih (h.endInnermost stop none)

theorem close (h : b.Tidy) (name : String) (s : Span) (clean : (b.close name s).problems = [])
    (c : Cursor) : (b.close name s).Tidy ∧ (b.close name s).Apart c := by
  unfold Builder.close at clean ⊢
  split
  · rename_i inner found
    refine ⟨(h.endInner _ _).endInnermost _ _, ?_⟩
    -- The element that the end tag closes is the last thing in what is open around it.
    have open' := stack_endInner_ne_nil found s.start
    unfold Builder.endInnermost
    split
    · rename_i none
      exact absurd none open'
    · apply apart_add
      intro isText
      cases isText
  · rename_i stray
    rw [stray] at clean
    simp [Builder.report] at clean

theorem push (h : b.Tidy) {tag : StartTag} {raw : Option TextNode} {next : Cursor}
    (start : StartLegible tag raw next) (unprefixed : splitNamespace tag.name = none)
    (texts : ∀ t ∈ raw, isRawText tag.name = true ∧ t.value ≠ "") (content : tag.isClosed = false) :
    Tidy { b with stack := ⟨tag, raw.toList.map .text⟩ :: b.stack } ∧
      Apart { b with stack := ⟨tag, raw.toList.map .text⟩ :: b.stack } next := by
  cases raw with
  | none =>
    have first : OpenElement.Tidy ⟨tag, []⟩ :=
      ⟨unprefixed, content, fun t mem => absurd mem List.not_mem_nil, fun _ => trivial⟩
    refine ⟨⟨h.roots, List.forall_mem_cons.mpr ⟨first, h.elements⟩⟩, ?_⟩
    intro ends
    cases ends
  | some t =>
    obtain ⟨isRaw, ne⟩ := texts t rfl
    have first : OpenElement.Tidy ⟨tag, [.text t]⟩ := by
      refine ⟨unprefixed, content, ?_, ?_⟩
      · intro t' mem
        cases List.mem_singleton.mp mem
        exact ne
      · rw [isRaw]
        intro plain
        cases plain
    refine ⟨⟨h.roots, List.forall_mem_cons.mpr ⟨first, h.elements⟩⟩, fun _ => ?_⟩
    rcases start.awaits content isRaw with ended | starts
    · exact Or.inl ended
    · right
      rw [startsConstruct, constructAt_of_startsEndTag start.spelled.letter starts]
      rfl

/-- What a token of static markup adds is tidy, unless a problem is reported. -/
theorem step (h : b.Tidy) {c : Cursor} (apart : b.Apart c) (more : c.rest ≠ [])
    (met : constructAt c.rest ∈ [.text, .openTag, .closeTag])
    (unprefixed : ∀ tag ∈ (readToken c).token.startTag?, splitNamespace tag.name = none)
    (clean : (b.step (readToken c)).problems = []) :
    (b.step (readToken c)).Tidy ∧ (b.step (readToken c)).Apart (readToken c).next := by
  have reported (ds : List Diagnostic) : (b.report ds).Tidy := ⟨h.roots, h.elements⟩
  cases construct : constructAt c.rest with
  | comment | cdata | declaration | instruction => simp [construct] at met
  | text =>
    have read : readToken c = readText c := by rw [readToken, construct]
    obtain ⟨t, text, tidy, parted⟩ := tidy_readText more construct
    -- Behind a text comes a construct or nothing, so this is no text behind a text.
    have ended : endsText b.siblings = false := by
      rw [← Bool.not_eq_true]
      intro ends
      rcases apart ends with none | starts
      · exact more none
      · simp [startsConstruct, construct] at starts
    rw [read, text]
    exact ⟨(reported []).add tidy fun _ => ended, apart_add fun _ => parted⟩
  | closeTag =>
    have read : readToken c = readEndTag c := by rw [readToken, construct]
    rw [read] at clean ⊢
    exact (reported _).close _ _ clean _
  | openTag =>
    have read : readToken c = readStartTag c := by rw [readToken, construct]
    obtain ⟨tag, raw, problems, next, start, legible⟩ :=
      readStartTag_legible (construct ▸ opens_constructAt c.rest)
    have texts := readStartTag_raw start
    rw [read, start] at unprefixed ⊢
    have unprefixed : splitNamespace tag.name = none := unprefixed tag rfl
    simp only [Builder.step]
    split
    · refine ⟨(reported problems).add ?_ ?_, apart_add ?_⟩
      · exact ⟨unprefixed, fun _ => rfl, fun t mem => absurd mem List.not_mem_nil, fun _ => trivial⟩
      · intro isText
        cases isText
      · intro isText
        cases isText
    · rename_i content
      exact (reported problems).push legible unprefixed texts (by simpa using content)

end Tidy

end Builder

theorem tidy_parse {source : String} (static : IsStatic source)
    (clean : (parse source).problems = []) : TidyAll (parse source).nodes := by
  obtain ⟨none, nodes⟩ := nodes_of_clean clean
  rw [nodes]
  have start : Builder.empty.Tidy := ⟨trivial, fun e mem => absurd mem List.not_mem_nil⟩
  have apart : Builder.empty.Apart ⟨0, source.toList⟩ := fun ends => by cases ends
  obtain ⟨d, tidy, -⟩ := Builder.foldl_of_clean (I := fun b c => b.Tidy ∧ b.Apart c) _
    ⟨start, apart⟩
    (fun b d mem kept => kept.1.step kept.2 (rest_ne_nil_of_mem mem) (static.constructs d mem)
      (static.unprefixed d mem)) none
  exact tidy.roots

end DirectiveTemplates.Markup
