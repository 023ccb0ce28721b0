import DirectiveTemplates.Markup.Forest
import DirectiveTemplates.Proofs.Markup.Tiling

/-!
The forest of a text. Tokens are attached to open elements in the order in which they were read, so
the spans of the forest, in document order, are the spans of the tokens.
-/
namespace DirectiveTemplates.Markup

open Text

namespace Builder

def stackPieces : List OpenElement → List Span
  | [] => []
  | e :: outer => stackPieces outer ++ e.tag.span :: piecesAll e.children

def pieces (b : Builder) : List Span := piecesAll b.roots ++ stackPieces b.stack

theorem pieces_add (b : Builder) (n : Node) : (b.add n).pieces = b.pieces ++ n.pieces := by
  unfold add
  split
  · rename_i empty
    simp [pieces, empty, piecesAll_append, piecesAll, stackPieces]
  · rename_i e outer eq
    simp [pieces, eq, piecesAll_append, piecesAll, stackPieces]

theorem pieces_endInnermost {b : Builder} {stop : Nat} {endSpan : Option Span}
    (open' : endSpan = none ∨ b.stack ≠ []) :
    (b.endInnermost stop endSpan).pieces = b.pieces ++ endSpan.toList := by
  unfold endInnermost
  split
  · rename_i empty
    rcases open' with none | some
    · simp [none]
    · exact absurd empty some
  · rename_i e outer eq
    rw [pieces_add]
    simp [pieces, eq, stackPieces, Node.pieces]

theorem pieces_endInner (stop n : Nat) (b : Builder) : (b.endInner stop n).pieces = b.pieces := by
  induction n generalizing b with
  | zero => rfl
  | succ n ih =>
    rw [endInner, ih, pieces_endInnermost (Or.inl rfl)]
    simp

theorem length_stack_add (b : Builder) (n : Node) : (b.add n).stack.length = b.stack.length := by
  unfold add
  split
  · rfl
  · rename_i e outer eq
    simp [eq]

theorem length_stack_endInnermost (b : Builder) (stop : Nat) (endSpan : Option Span) :
    (b.endInnermost stop endSpan).stack.length = b.stack.length - 1 := by
  unfold endInnermost
  split
  · rename_i empty
    simp [empty]
  · rename_i e outer eq
    rw [length_stack_add]
    simp [eq]

theorem length_stack_endInner (stop n : Nat) (b : Builder) :
    (b.endInner stop n).stack.length = b.stack.length - n := by
  induction n generalizing b with
  | zero => rfl
  | succ n ih =>
    rw [endInner, ih, length_stack_endInnermost]
    omega

theorem stack_endInner_ne_nil {b : Builder} {p : OpenElement → Bool} {inner : Nat}
    (found : b.stack.findIdx? p = some inner) (stop : Nat) :
    (b.endInner stop inner).stack ≠ [] := by
  obtain ⟨lt, -⟩ := List.findIdx?_eq_some_iff_getElem.mp found
  have length := length_stack_endInner stop inner b
  intro none
  rw [none, List.length_nil] at length
  omega

theorem problems_add (b : Builder) (n : Node) : (b.add n).problems = b.problems := by
  unfold add
  split <;> rfl

theorem problems_endInnermost (b : Builder) (stop : Nat) (endSpan : Option Span) :
    (b.endInnermost stop endSpan).problems = b.problems := by
  unfold endInnermost
  split
  · rfl
  · rw [problems_add]

theorem problems_endInner (stop n : Nat) (b : Builder) :
    (b.endInner stop n).problems = b.problems := by
  induction n generalizing b with
  | zero => rfl
  | succ n ih => rw [endInner, ih, problems_endInnermost]

/-- Where raw text starts in the innermost open element. -/
def rawStart (b : Builder) : Option Nat := b.stack.head?.bind (·.tag.rawStart)

/-- An open element with everything so far in its place. Where its raw text could start now, there
is none. -/
structure OpenFits (source : List Char) (c : Cursor) (e : OpenElement) : Prop where
  tag : TagFits source e.tag
  le : e.tag.span.stop ≤ c.offset
  raw : e.tag.rawStart = some c.offset → c.rest = [] ∨ constructAt c.rest = .closeTag
  children : NodesFit source e.tag.rawStart e.tag.span.stop c.offset e.children

structure Placed (source : List Char) (c : Cursor) (b : Builder) : Prop where
  roots : NodesFit source none 0 c.offset b.roots
  elements : ∀ e ∈ b.stack, OpenFits source c e
  nested : b.stack.Pairwise fun inner outer => outer.tag.span.stop ≤ inner.tag.span.start

namespace Placed

variable {source : List Char} {c d : Cursor} {b : Builder}

theorem mono (h : Placed source c b) (later : c = d ∨ c.offset < d.offset) :
    Placed source d b := by
  rcases later with rfl | lt
  · exact h
  · have le := Nat.le_of_lt lt
    refine ⟨h.roots.mono le, ?_, h.nested⟩
    intro e mem
    have fits := h.elements e mem
    refine ⟨fits.tag, Nat.le_trans fits.le le, ?_, fits.children.mono le⟩
    intro starts
    have before := fits.le
    have here := (StartTag.rawStart_eq_some.mp starts).2
    omega

theorem add (h : Placed source c b) {n : Node} (fits : NodeFits source b.rawStart n)
    (le : n.span.stop ≤ c.offset) (behind : ∀ e ∈ b.stack, e.tag.span.stop ≤ n.span.start) :
    Placed source c (b.add n) := by
  obtain ⟨stack, roots, problems⟩ := b
  cases stack with
  | nil => exact ⟨h.roots.append fits (Nat.zero_le _) le, h.elements, h.nested⟩
  | cons e outer =>
    refine ⟨h.roots, ?_, ?_⟩
    · intro e' mem
      rcases List.mem_cons.mp mem with rfl | mem
      · have first := h.elements e List.mem_cons_self
        exact ⟨first.tag, first.le, first.raw,
          first.children.append fits (behind e List.mem_cons_self) le⟩
      · exact h.elements e' (List.mem_cons_of_mem e mem)
    · have nested := h.nested
      simp only [List.pairwise_cons] at nested
      exact List.pairwise_cons.mpr nested

theorem endInnermost (h : Placed source c b) {endSpan : Option Span}
    (inner : ∀ start, innerStop ⟨start, d.offset⟩ endSpan = c.offset)
    (ends : ∀ s, endSpan = some s → s.start < s.stop ∧ s.stop = d.offset)
    (later : c = d ∨ c.offset < d.offset) : Placed source d (b.endInnermost d.offset endSpan) := by
  obtain ⟨stack, roots, problems⟩ := b
  cases stack with
  | nil => exact h.mono later
  | cons e outer =>
    have first := h.elements e List.mem_cons_self
    have nested := h.nested
    simp only [List.pairwise_cons] at nested
    have rest : Placed source c ⟨outer, roots, problems⟩ :=
      ⟨h.roots, fun e' mem => h.elements e' (List.mem_cons_of_mem e mem), nested.2⟩
    let closed : Node := .element e.tag ⟨e.tag.span.start, d.offset⟩ endSpan e.children
    refine (rest.mono later).add (n := closed) ?_ (Nat.le_refl d.offset) nested.1
    refine ⟨first.tag, rfl, ?_, ends, ?_⟩
    · rw [inner]
      exact first.le
    · rw [inner]
      exact first.children

theorem endInner (h : Placed source c b) (n : Nat) :
    Placed source c (b.endInner c.offset n) := by
  induction n generalizing b with
  | zero => exact h
  | succ n ih => exact ih (h.endInnermost (fun _ => rfl) (by simp) (Or.inl rfl))

theorem push (h : Placed source c b) {tag : StartTag} {children : List Node}
    (fits : TagFits source tag) (start : tag.span.start = c.offset)
    (le : tag.span.stop ≤ d.offset)
    (raw : tag.rawStart = some d.offset → d.rest = [] ∨ constructAt d.rest = .closeTag)
    (inside : NodesFit source tag.rawStart tag.span.stop d.offset children) :
    Placed source d { b with stack := ⟨tag, children⟩ :: b.stack } := by
  have later : c.offset < d.offset := by
    have lt := fits.within.lt
    omega
  refine ⟨h.roots.mono (Nat.le_of_lt later), ?_, ?_⟩
  · intro e mem
    rcases List.mem_cons.mp mem with rfl | mem
    · exact ⟨fits, le, raw, inside⟩
    · exact (h.mono (Or.inr later)).elements e mem
  · refine List.pairwise_cons.mpr ⟨?_, h.nested⟩
    intro outer mem
    rw [start]
    exact (h.elements outer mem).le

/-- What is read where raw text could start is no text, but an end tag. -/
theorem rawStart_ne (h : Placed source c b) (more : c.rest ≠ [])
    (other : constructAt c.rest ≠ .closeTag) : b.rawStart ≠ some c.offset := by
  obtain ⟨stack, roots, problems⟩ := b
  cases stack with
  | nil => simp [rawStart]
  | cons e outer =>
    intro starts
    exact ((h.elements e List.mem_cons_self).raw starts).elim more other

end Placed

/-- What leaves no node: a declaration, or an end tag that was reported as it closes nothing. -/
def Skipped (source : List Char) (problems : List Diagnostic) (s : Span) : Prop :=
  IsDeclaration source s ∨ ∃ name,
    Problem.diagnostic (.unexpectedEndTag name) s ∈ problems ∨
      Problem.diagnostic (.voidEndTag name) s ∈ problems

theorem Skipped.mono {source : List Char} {problems : List Diagnostic} {s : Span}
    (h : Skipped source problems s) (more : List Diagnostic) :
    Skipped source (problems ++ more) s := by
  rcases h with declaration | ⟨name, unexpected | void⟩
  · exact Or.inl declaration
  · exact Or.inr ⟨name, Or.inl (List.mem_append_left more unexpected)⟩
  · exact Or.inr ⟨name, Or.inr (List.mem_append_left more void)⟩

structure Fits (source : List Char) (c : Cursor) (b : Builder) : Prop where
  tiled : Tiled source (Skipped source b.problems) 0 b.pieces c.offset
  placed : Placed source c b

namespace Fits

variable {source : List Char} {b : Builder} {start next : Cursor}

theorem report (h : Fits source start b) (ds : List Diagnostic) : Fits source start (b.report ds) :=
  ⟨h.tiled.mono fun _ skipped => skipped.mono ds, ⟨h.placed.roots, h.placed.elements,
    h.placed.nested⟩⟩

theorem add (h : Fits source start b) {n : Node} (fits : NodeFits source b.rawStart n)
    (pieces : n.pieces = [n.span]) (span : n.span = start.spanFrom next)
    (within : (start.spanFrom next).Within source) : Fits source next (b.add n) := by
  constructor
  · rw [pieces_add, problems_add, pieces, span]
    exact h.tiled.piece (s := start.spanFrom next) within
  · apply (h.placed.mono (Or.inr within.lt)).add fits
    · exact Nat.le_of_eq (congrArg Span.stop span)
    · intro e mem
      rw [span]
      exact (h.placed.elements e mem).le

theorem addText (h : Fits source start b) {t : TextNode} (more : start.rest ≠ [])
    (other : constructAt start.rest ≠ .closeTag) (span : t.span = start.spanFrom next)
    (fits : TextFits source false t) (within : (start.spanFrom next).Within source) :
    Fits source next (b.add (.text t)) := by
  refine h.add (n := .text t) ?_ rfl span within
  have plain : (b.rawStart == some t.span.start) = false := by
    rw [span]
    exact beq_eq_false_iff_ne.mpr (h.placed.rawStart_ne more other)
  show TextFits source (b.rawStart == some t.span.start) t
  rw [plain]
  exact fits

theorem close (h : Fits source start b) (name : String)
    (within : (start.spanFrom next).Within source) :
    Fits source next (b.close name (start.spanFrom next)) := by
  unfold Builder.close
  split
  · rename_i inner found
    have open' := stack_endInner_ne_nil found (start.spanFrom next).start
    constructor
    · rw [pieces_endInnermost (Or.inr open'), problems_endInnermost, pieces_endInner,
        problems_endInner]
      exact h.tiled.piece (s := start.spanFrom next) within
    · refine (h.placed.endInner inner).endInnermost (fun _ => rfl) ?_ (Or.inr within.lt)
      intro s eq
      cases eq
      exact ⟨within.lt, rfl⟩
  · have stray : Skipped source (b.report [(strayEndTag name).diagnostic
        (start.spanFrom next)]).problems (start.spanFrom next) := by
      right
      refine ⟨name, ?_⟩
      unfold strayEndTag
      split
      · exact Or.inr (by simp [Builder.report])
      · exact Or.inl (by simp [Builder.report])
    refine ⟨?_, (h.report _).placed.mono (Or.inr within.lt)⟩
    exact (h.report _).tiled.skip (s := start.spanFrom next) within stray

theorem push (h : Fits source start b) {tag : StartTag} {raw : Option TextNode}
    (fits : TokenFits source start next (.start tag raw)) :
    Fits source next { b with stack := ⟨tag, raw.toList.map .text⟩ :: b.stack } := by
  obtain ⟨begins, tagFits, ends⟩ := fits
  have before : Tiled source (Skipped source b.problems) 0 b.pieces tag.span.start := by
    rw [begins]
    exact h.tiled
  cases raw with
  | none =>
    obtain ⟨ends, awaits⟩ := ends
    constructor
    · show Tiled _ _ _ (piecesAll b.roots ++ (stackPieces b.stack ++ [tag.span])) _
      rw [← List.append_assoc, ← ends]
      exact before.piece tagFits.within
    · refine h.placed.push tagFits begins (Nat.le_of_eq ends) ?_ trivial
      exact fun starts => awaits (StartTag.rawStart_eq_some.mp starts).1
  | some t =>
    obtain ⟨span, within, textFits, isRaw⟩ := ends
    have tagged := before.piece tagFits.within
    have stop : t.span.stop = next.offset := by rw [span]
    have first : t.span.start = tag.span.stop := by rw [span]
    have later : tag.span.stop < next.offset := by
      rw [← stop, ← first]
      exact within.lt
    constructor
    · show Tiled _ _ _ (piecesAll b.roots ++ (stackPieces b.stack ++ [tag.span, t.span])) _
      rw [← List.append_assoc, ← stop, List.append_cons]
      refine Tiled.piece ?_ within
      rw [first]
      exact tagged
    · refine h.placed.push tagFits begins (Nat.le_of_lt later) ?_ ⟨⟨?_, ?_, ?_⟩, trivial⟩
      · intro starts
        exact absurd (StartTag.rawStart_eq_some.mp starts).2 (Nat.ne_of_lt later)
      · show TextFits source (tag.rawStart == some t.span.start) t
        rw [first, StartTag.rawStart_eq_some.mpr ⟨isRaw, rfl⟩, beq_self_eq_true]
        exact textFits
      · exact Nat.le_of_eq first.symm
      · exact Nat.le_of_eq stop

theorem step (h : Fits source start b) (stands : start.At source) {l : Lexeme}
    (fits : LexemeFits source start l) : Fits source l.next (b.step l) := by
  obtain ⟨token, problems, next⟩ := l
  obtain ⟨⟨piece, ne, reads⟩, token_fits⟩ := fits
  have within : (start.spanFrom next).Within source := ⟨piece, ne, stands.covers reads⟩
  have h := h.report problems
  cases token with
  | text t =>
    obtain ⟨span, fits, other⟩ := token_fits
    refine h.addText ?_ other span fits within
    intro none
    exact ne (List.append_eq_nil_iff.mp (reads.1.symm.trans none)).1
  | comment t => exact h.add (n := .comment t) token_fits.2 rfl token_fits.1 within
  | instruction i => exact h.add (n := .instruction i) token_fits.2 rfl token_fits.1 within
  | declaration s =>
    refine ⟨?_, h.placed.mono (Or.inr within.lt)⟩
    exact h.tiled.skip (s := start.spanFrom next) within (Or.inl (token_fits.1 ▸ token_fits.2))
  | close name s =>
    have eq : s = start.spanFrom next := token_fits
    rw [eq]
    exact h.close name within
  | start tag raw =>
    simp only [Builder.step]
    split
    · rename_i closed
      obtain ⟨begins, tagFits, ends⟩ := token_fits
      have plain : tag.startsRaw = false := by simp [StartTag.startsRaw, closed]
      cases raw with
      | some t => exact absurd (plain.symm.trans ends.2.2.2) Bool.false_ne_true
      | none =>
        have span : tag.span = start.spanFrom next := by
          have eta : tag.span = ⟨tag.span.start, tag.span.stop⟩ := rfl
          rw [eta, begins, ends.1]
          rfl
        refine h.add (n := .element tag tag.span Option.none []) ?_ rfl span within
        exact ⟨tagFits, rfl, Nat.le_refl _, by simp, trivial⟩
    · exact h.push token_fits

theorem lexemes (h : Fits source start b) (stands : start.At source) {count : Nat}
    (enough : start.rest.length ≤ count) :
    Fits source ⟨byteLength source, []⟩ ((lexemesFrom count start).foldl Builder.step b) := by
  induction count generalizing start b with
  | zero =>
    have rest : start.rest = [] := List.eq_nil_of_length_eq_zero (Nat.le_zero.mp enough)
    rw [← stands.eq_of_rest rest]
    exact h
  | succ count ih =>
    unfold lexemesFrom
    cases rest : start.rest with
    | nil =>
      rw [← stands.eq_of_rest rest]
      exact h
    | cons c cs =>
      have fits := readToken_spec stands (by simp [rest])
      obtain ⟨piece, ne, reads⟩ := fits.1
      apply ih (h.step stands fits) (stands.next reads)
      have taken := congrArg List.length reads.1
      have some : 0 < piece.length := List.length_pos_iff.mpr ne
      rw [List.length_append] at taken
      omega

theorem finish (h : Fits source start b) :
    Tiled source (Skipped source (b.finish start.offset).problems) 0
        (piecesAll (b.finish start.offset).roots) start.offset ∧
      NodesFit source none 0 start.offset (b.finish start.offset).roots := by
  have reported := h.report (b.stack.map fun e =>
    Problem.diagnostic (.unclosedElement e.tag.name) e.tag.span)
  have closed : (b.finish start.offset).stack = [] := by
    apply List.eq_nil_of_length_eq_zero
    unfold Builder.finish
    rw [length_stack_endInner]
    exact Nat.sub_self _
  constructor
  · have tiled := reported.tiled
    rw [← pieces_endInner start.offset b.stack.length,
      ← problems_endInner start.offset b.stack.length] at tiled
    have pieces : (b.finish start.offset).pieces = piecesAll (b.finish start.offset).roots := by
      simp [Builder.pieces, closed, stackPieces]
    rw [← pieces]
    exact tiled
  · exact (reported.placed.endInner b.stack.length).roots

theorem empty (source : List Char) : Fits source ⟨0, source⟩ Builder.empty :=
  ⟨.nil 0, trivial, by simp [Builder.empty], List.Pairwise.nil⟩

end Fits

end Builder

/-- A forest that tiles a text. The spans of its nodes are not empty, lie on boundaries between
characters and follow each other in document order; every byte outside them was skipped, and the
nodes are in their places. -/
structure Tiles (source : String) (forest : Forest) : Prop where
  within : ∀ s ∈ piecesAll forest.nodes, s.Within source.toList
  ordered : (piecesAll forest.nodes).Pairwise fun first later => first.stop ≤ later.start
  covered : ∀ i < source.utf8ByteSize,
    (∃ s ∈ piecesAll forest.nodes, s.start ≤ i ∧ i < s.stop) ∨
      ∃ s, Builder.Skipped source.toList forest.problems s ∧
        (∀ p ∈ piecesAll forest.nodes, p.stop ≤ s.start ∨ s.stop ≤ p.start) ∧
        s.start ≤ i ∧ i < s.stop
  nodes : NodesFit source.toList none 0 source.utf8ByteSize forest.nodes

/-- The forest of a text tiles the text, whatever is wrong with it. -/
theorem parse_tiles (source : String) : Tiles source (parse source) := by
  let start : Cursor := ⟨0, source.toList⟩
  have stands : start.At source.toList := ⟨[], rfl, rfl⟩
  have read := (Builder.Fits.empty source.toList).lexemes stands (Nat.le_refl _)
  have size := utf8ByteSize_eq source
  rw [← size] at read
  obtain ⟨tiled, nodes⟩ := read.finish
  refine ⟨fun s mem => (tiled.within s mem).1, tiled.ordered, ?_, nodes⟩
  intro i lt
  rcases tiled.covered i (Nat.zero_le i) lt with found | ⟨s, skip, -, apart, here⟩
  · exact Or.inl found
  · exact Or.inr ⟨s, skip, apart, here⟩

end DirectiveTemplates.Markup
