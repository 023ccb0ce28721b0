import DirectiveTemplates.Markup.Token
import DirectiveTemplates.Proofs.Source.Spans

/-!
Reading what is known. When the text goes on with a piece in which a scan does not stop, and the
scan stops behind it, the piece is what the scan takes.
-/
namespace DirectiveTemplates.Markup

open Text

theorem breakAt_append_of_forall {stop : List Char → Bool} {piece after : List Char}
    (inside : ∀ rest, rest <:+ piece → rest ≠ [] → stop (rest ++ after) = false)
    (behind : after = [] ∨ stop after = true) : breakAt stop (piece ++ after) = (piece, after) := by
  induction piece with
  | nil =>
    rcases behind with rfl | stops
    · rfl
    · cases after with
      | nil => rfl
      | cons c cs =>
        rw [List.nil_append, breakAt, if_pos stops]
  | cons c cs ih =>
    have here := inside (c :: cs) List.suffix_rfl (List.cons_ne_nil c cs)
    have rest := ih fun rest suffix ne => inside rest (suffix.trans (List.suffix_cons c cs)) ne
    rw [List.cons_append] at here ⊢
    rw [breakAt, here, rest]
    rfl

theorem breakAt_class {class? : Char → Bool} {piece after : List Char}
    (inside : ∀ c ∈ piece, class? c = false) (behind : startsWithAny class? after = true) :
    breakAt (startsWithAny class?) (piece ++ after) = (piece, after) := by
  refine breakAt_append_of_forall ?_ (Or.inr behind)
  intro rest suffix ne
  cases rest with
  | nil => exact absurd rfl ne
  | cons c cs => exact inside c (suffix.subset List.mem_cons_self)

theorem startsOutside_eq (class? : Char → Bool) :
    startsOutside class? = startsWithAny fun c => !class? c := by
  funext cs
  cases cs <;> rfl

/-- A pattern that starts in a text and goes over its end, where a new construct begins, would have
the character `<` behind its first one. -/
theorem prefix_of_prefix_append {pattern rest after : List Char} (h : pattern <+: rest ++ after)
    (ne : rest ≠ []) (boundary : after = [] ∨ ∃ more, after = '<' :: more)
    (inner : '<' ∉ pattern.tail) : pattern <+: rest := by
  rcases List.prefix_or_prefix_of_prefix h (List.prefix_append rest after) with inside | longer
  · exact inside
  · obtain ⟨q, rfl⟩ := longer
    have last : q <+: after := (List.prefix_append_right_inj rest).mp h
    cases q with
    | nil => simp
    | cons c cs =>
      exfalso
      rcases boundary with rfl | ⟨more, rfl⟩
      · exact absurd (List.prefix_nil.mp last) (List.cons_ne_nil c cs)
      · rw [List.cons_prefix_cons] at last
        apply inner
        cases rest with
        | nil => exact absurd rfl ne
        | cons d ds => simp [last.1]

theorem infix_of_append_infix {pattern piece other : List Char} (h : pattern <:+: other ++ piece)
    (first : ∀ c, pattern.head? = some c → c ∉ other) : pattern <:+: piece := by
  induction other with
  | nil => exact h
  | cons d ds ih =>
    rcases List.infix_cons_iff.mp h with starts | later
    · cases pattern with
      | nil => exact List.nil_infix
      | cons c cs =>
        have eq := (List.cons_prefix_cons.mp starts).1
        exact absurd (List.mem_cons.mpr (Or.inl eq)) (first c rfl)
    · exact ih later fun c head mem => first c head (List.mem_cons_of_mem d mem)

theorem infix_of_infix_append {pattern piece other : List Char} (h : pattern <:+: piece ++ other)
    (last : ∀ c, pattern.getLast? = some c → c ∉ other) : pattern <:+: piece := by
  rw [← List.reverse_infix, List.reverse_append] at h
  rw [← List.reverse_infix]
  apply infix_of_append_infix h
  intro c head mem
  rw [List.head?_reverse] at head
  exact last c head (List.mem_reverse.mp mem)

namespace Cursor

variable {c : Cursor} {piece rest : List Char}

theorem after_after (c : Cursor) (cs rest ds rest' : List Char) :
    (c.after cs rest).after ds rest' = c.after (cs ++ ds) rest' := by
  simp [after, Nat.add_assoc]

@[simp] theorem rest_after (c : Cursor) (cs rest : List Char) : (c.after cs rest).rest = rest := rfl

@[simp] theorem offset_after (c : Cursor) (cs rest : List Char) :
    (c.after cs rest).offset = c.offset + byteLength cs := rfl

theorem skip_eq (piece : List Char) (h : c.rest = piece ++ rest) :
    c.skip piece.length = c.after piece rest := by
  rw [skip, h, List.take_left, List.drop_left]

theorem textUntil_eq {stop : List Char → Bool} (h : breakAt stop c.rest = (piece, rest)) :
    c.textUntil stop = piece := by
  rw [textUntil, h]

theorem goUntil_eq {stop : List Char → Bool} (h : breakAt stop c.rest = (piece, rest)) :
    c.goUntil stop = c.after piece rest := by
  rw [goUntil, h]

theorem skipSpace_eq (piece : List Char) (h : c.rest = piece ++ rest)
    (space : ∀ d ∈ piece, isMarkupSpace d = true)
    (behind : startsOutside isMarkupSpace rest = true) : c.skipSpace = c.after piece rest := by
  apply goUntil_eq
  rw [h, startsOutside_eq]
  apply breakAt_class
  · intro d mem
    simp [space d mem]
  · rw [← startsOutside_eq]
    exact behind

theorem name_eq (h : c.rest = piece ++ rest) (inside : ∀ d ∈ piece, isNameEnd d = false)
    (behind : startsWithAny isNameEnd rest = true) :
    c.name = piece ∧ c.skipName = c.after piece rest := by
  have found : breakAt (startsWithAny isNameEnd) c.rest = (piece, rest) := by
    rw [h]
    exact breakAt_class inside behind
  exact ⟨textUntil_eq found, goUntil_eq found⟩

end Cursor

/-- A closing pattern starts in a text and goes over its end only if it is there as a whole: what is
left of it would start the pattern again and have its last character too early. -/
theorem prefix_of_closing {init rest after : List Char} {last : Char} (fresh : last ∉ init)
    (h : init ++ [last] <+: rest ++ (init ++ [last] ++ after)) (ne : rest ≠ []) :
    init ++ [last] <+: rest := by
  rcases List.prefix_or_prefix_of_prefix h (List.prefix_append rest _) with inside | longer
  · exact inside
  · obtain ⟨q, eq⟩ := longer
    cases q with
    | nil =>
      rw [List.append_nil] at eq
      exact eq ▸ List.prefix_rfl
    | cons c cs =>
      exfalso
      rw [← eq, List.prefix_append_right_inj, eq, List.append_assoc] at h
      have ends : last ∈ c :: cs := by
        apply List.mem_of_getLast?
        have whole := congrArg List.getLast? eq
        simpa using whole
      have length := congrArg List.length eq
      have pos := List.length_pos_iff.mpr ne
      simp only [List.length_append, List.length_cons, List.length_nil] at length
      have early : c :: cs <+: init := by
        apply List.prefix_of_prefix_length_le h (List.prefix_append init _)
        rw [List.length_cons]
        omega
      exact fresh (early.subset ends)

/-- A delimited text, when its closing pattern is nowhere inside. -/
theorem readDelimited_eq (init : List Char) (last : Char) {text after : List Char} {c : Cursor}
    (h : c.rest = text ++ (init ++ [last] ++ after)) (fresh : last ∉ init)
    (free : ¬ init ++ [last] <:+: text) :
    readDelimited (init ++ [last]) c =
      (text, c.after (text ++ (init ++ [last])) after, false) := by
  have found : breakAt (init ++ [last]).isPrefixOf c.rest = (text, init ++ [last] ++ after) := by
    rw [h]
    apply breakAt_append_of_forall
    · intro rest suffix ne
      rw [← Bool.not_eq_true, List.isPrefixOf_iff_prefix]
      intro starts
      exact free ((prefix_of_closing fresh starts ne).isInfix.trans suffix.isInfix)
    · right
      exact List.isPrefixOf_iff_prefix.mpr (List.prefix_append _ after)
  have skip : (c.after text (init ++ [last] ++ after)).skip (init ++ [last]).length =
      c.after (text ++ (init ++ [last])) after := by
    rw [Cursor.skip_eq (init ++ [last]) (c.rest_after text _), Cursor.after_after]
  unfold readDelimited
  simp only [Cursor.textUntil_eq found, Cursor.goUntil_eq found, skip]
  simp

end DirectiveTemplates.Markup
