import DirectiveTemplates.Proofs.Markup.Tokens

/-!
Spans that tile a text: one after another, with nothing between them but what was skipped.
-/
namespace DirectiveTemplates.Markup

open Text

/-- Spans in order from one offset to another; what is not in a span was skipped. -/
inductive Tiled (source : List Char) (skipped : Span → Prop) : Nat → List Span → Nat → Prop
  | nil (lo : Nat) : Tiled source skipped lo [] lo
  | piece {lo : Nat} {ss : List Span} {s : Span} (before : Tiled source skipped lo ss s.start)
      (within : s.Within source) : Tiled source skipped lo (ss ++ [s]) s.stop
  | skip {lo : Nat} {ss : List Span} {s : Span} (before : Tiled source skipped lo ss s.start)
      (within : s.Within source) (skip : skipped s) : Tiled source skipped lo ss s.stop

namespace Tiled

variable {source : List Char} {skipped skipped' : Span → Prop} {lo hi : Nat} {ss : List Span}

theorem mono (h : Tiled source skipped lo ss hi) (imp : ∀ s, skipped s → skipped' s) :
    Tiled source skipped' lo ss hi := by
  induction h with
  | nil => exact .nil _
  | piece before within ih => exact .piece ih within
  | skip before within skip ih => exact .skip ih within (imp _ skip)

theorem within (h : Tiled source skipped lo ss hi) : ∀ s ∈ ss, s.Within source ∧ s.stop ≤ hi := by
  induction h with
  | nil =>
    intro s mem
    exact absurd mem List.not_mem_nil
  | @piece ss s before within ih =>
    intro s' mem
    rcases List.mem_append.mp mem with mem | mem
    · exact ⟨(ih s' mem).1, Nat.le_trans (ih s' mem).2 (Nat.le_of_lt within.lt)⟩
    · rw [List.mem_singleton.mp mem]
      exact ⟨within, Nat.le_refl _⟩
  | skip before within skip ih =>
    intro s' mem
    exact ⟨(ih s' mem).1, Nat.le_trans (ih s' mem).2 (Nat.le_of_lt within.lt)⟩

theorem ordered (h : Tiled source skipped lo ss hi) :
    ss.Pairwise fun first later => first.stop ≤ later.start := by
  induction h with
  | nil => exact List.Pairwise.nil
  | piece before within ih =>
    refine List.pairwise_append.mpr ⟨ih, List.pairwise_singleton _ _, ?_⟩
    intro s mem s' mem'
    rw [List.mem_singleton.mp mem']
    exact (before.within s mem).2
  | skip before within skip ih => exact ih

/-- What is not in a span was skipped, apart from all spans. -/
theorem covered (h : Tiled source skipped lo ss hi) (i : Nat) (ge : lo ≤ i) (lt : i < hi) :
    (∃ s ∈ ss, s.start ≤ i ∧ i < s.stop) ∨
      ∃ s, skipped s ∧ s.stop ≤ hi ∧ (∀ p ∈ ss, p.stop ≤ s.start ∨ s.stop ≤ p.start) ∧
        s.start ≤ i ∧ i < s.stop := by
  induction h with
  | nil => omega
  | @piece ss s before within ih =>
    by_cases inside : s.start ≤ i
    · exact Or.inl ⟨s, by simp, inside, lt⟩
    · rcases ih (by omega) with ⟨s', mem, here⟩ | ⟨s', skip, le, apart, here⟩
      · exact Or.inl ⟨s', List.mem_append_left _ mem, here⟩
      · refine Or.inr ⟨s', skip, Nat.le_trans le (Nat.le_of_lt within.lt), ?_, here⟩
        intro p mem
        rcases List.mem_append.mp mem with mem | mem
        · exact apart p mem
        · rw [List.mem_singleton.mp mem]
          exact Or.inr le
  | @skip ss s before within skip ih =>
    by_cases inside : s.start ≤ i
    · refine Or.inr ⟨s, skip, Nat.le_refl _, ?_, inside, lt⟩
      intro p mem
      exact Or.inl (before.within p mem).2
    · rcases ih (by omega) with found | ⟨s', skip', le, apart, here⟩
      · exact Or.inl found
      · exact Or.inr ⟨s', skip', Nat.le_trans le (Nat.le_of_lt within.lt), apart, here⟩

end Tiled

/-! What the nodes of a forest leave in the text. -/

mutual

/-- The spans of a node in document order: a start tag, what is inside, an end tag; or all of it. -/
def Node.pieces : Node → List Span
  | .element tag _ stop children => tag.span :: (piecesAll children ++ stop.toList)
  | .text t => [t.span]
  | .comment t => [t.span]
  | .instruction i => [i.span]

def piecesAll : List Node → List Span
  | [] => []
  | n :: ns => n.pieces ++ piecesAll ns

end

theorem piecesAll_append (ns rest : List Node) :
    piecesAll (ns ++ rest) = piecesAll ns ++ piecesAll rest := by
  induction ns with
  | nil => rfl
  | cons n ns ih => simp [piecesAll, ih]

/-- Where raw text starts, when an element starts it: behind the start tag. -/
def StartTag.rawStart (tag : StartTag) : Option Nat :=
  if tag.startsRaw then some tag.span.stop else none

theorem StartTag.rawStart_eq_some {tag : StartTag} {offset : Nat} :
    tag.rawStart = some offset ↔ tag.startsRaw = true ∧ tag.span.stop = offset := by
  simp [rawStart]

def innerStop (span : Span) : Option Span → Nat
  | some stop => stop.start
  | none => span.stop

mutual

/-- A node with everything in its place, when raw text starts at an offset: the parts of its tag are
what their spans cover, and its children lie behind its start tag and before its end tag. -/
def NodeFits (source : List Char) (rawStart : Option Nat) : Node → Prop
  | .text t => TextFits source (rawStart == some t.span.start) t
  | .comment t => CommentFits source t
  | .instruction i => InstructionFits source i
  | .element tag span stop children =>
    TagFits source tag ∧ span.start = tag.span.start ∧ tag.span.stop ≤ innerStop span stop ∧
      (∀ s, stop = some s → s.start < s.stop ∧ s.stop = span.stop) ∧
      NodesFit source tag.rawStart tag.span.stop (innerStop span stop) children

def NodesFit (source : List Char) (rawStart : Option Nat) (lo hi : Nat) : List Node → Prop
  | [] => True
  | n :: ns =>
    (NodeFits source rawStart n ∧ lo ≤ n.span.start ∧ n.span.stop ≤ hi) ∧
      NodesFit source rawStart lo hi ns

end

variable {source : List Char} {rawStart : Option Nat} {lo hi hi' : Nat} {ns : List Node}

theorem nodesFit_iff : NodesFit source rawStart lo hi ns ↔
    ∀ n ∈ ns, NodeFits source rawStart n ∧ lo ≤ n.span.start ∧ n.span.stop ≤ hi := by
  induction ns with
  | nil => simp [NodesFit]
  | cons n ns ih => simp [NodesFit, ih]

theorem NodesFit.mono (h : NodesFit source rawStart lo hi ns) (le : hi ≤ hi') :
    NodesFit source rawStart lo hi' ns := by
  rw [nodesFit_iff] at h ⊢
  intro n mem
  obtain ⟨fits, ge, le'⟩ := h n mem
  exact ⟨fits, ge, Nat.le_trans le' le⟩

theorem NodesFit.append (h : NodesFit source rawStart lo hi ns) {n : Node}
    (fits : NodeFits source rawStart n) (ge : lo ≤ n.span.start) (le : n.span.stop ≤ hi) :
    NodesFit source rawStart lo hi (ns ++ [n]) := by
  rw [nodesFit_iff] at h ⊢
  intro n' mem
  rcases List.mem_append.mp mem with mem | mem
  · exact h n' mem
  · rw [List.mem_singleton.mp mem]
    exact ⟨fits, ge, le⟩

end DirectiveTemplates.Markup
