import DirectiveTemplates.Proofs.Markup.Ancestors

/-!
Problems and where they come from. What a message starts with tells the problems that readers find
from those with end tags and those with elements that are not closed; a piece of text only adds
problems of that piece.
-/
namespace DirectiveTemplates.Markup

open Text

namespace Problem

/-- What readers find, apart from what is wrong with end tags and with elements at the end. -/
def ofReader : Problem → Bool
  | voidEndTag _ => false
  | unexpectedEndTag _ => false
  | unclosedElement _ => false
  | _ => true

/-- The message up to what it names. -/
def opening : Problem → String
  | unterminatedComment => "Unterminated comment"
  | unterminatedCdata => "Unterminated CDATA section"
  | unterminatedInstruction => "Unterminated processing instruction"
  | unterminatedValue => "Unterminated attribute value"
  | endInTag _ => "Unexpected end of input in tag \""
  | unterminatedTag _ => "Unterminated start tag \""
  | unexpectedCharacter _ => "Unexpected character \""
  | voidEndTag _ => "Void elements do not have end tags \""
  | unexpectedEndTag _ => "Unexpected closing tag \""
  | unclosedElement _ => "Unclosed element \""

theorem exists_message_eq (p : Problem) : ∃ rest, p.message = p.opening ++ rest := by
  cases p with
  | unterminatedComment | unterminatedCdata | unterminatedInstruction | unterminatedValue =>
    delta message opening
    exact ⟨"", String.append_empty.symm⟩
  | endInTag name | unterminatedTag name | unexpectedCharacter name | voidEndTag name
  | unclosedElement name =>
    delta message opening
    exact ⟨_, String.append_assoc⟩
  | unexpectedEndTag name =>
    delta message opening
    dsimp only
    rw [String.append_assoc, String.append_assoc]
    exact ⟨_, rfl⟩

def readerOpenings : List String :=
  ["Unterminated comment", "Unterminated CDATA section", "Unterminated processing instruction",
    "Unterminated attribute value", "Unexpected end of input in tag \"",
    "Unterminated start tag \"", "Unexpected character \""]

def endTagOpenings : List String :=
  ["Void elements do not have end tags \"", "Unexpected closing tag \""]

theorem opening_mem {p : Problem} (found : p.ofReader = true) : p.opening ∈ readerOpenings := by
  cases p <;> simp [readerOpenings, opening] <;> cases found

/-- Messages that start differently are different. -/
theorem message_ne {p q : Problem} {ps qs : List String} (first : p.opening ∈ ps)
    (second : q.opening ∈ qs)
    (apart : ∀ a ∈ ps, ∀ b ∈ qs, ¬ a.toList <+: b.toList ∧ ¬ b.toList <+: a.toList) :
    p.message ≠ q.message := by
  intro eq
  obtain ⟨rest, eq'⟩ := p.exists_message_eq
  obtain ⟨rest', eq''⟩ := q.exists_message_eq
  rw [eq', eq''] at eq
  have whole := congrArg String.toList eq
  rw [String.toList_append, String.toList_append] at whole
  obtain ⟨noLeft, noRight⟩ := apart _ first _ second
  have left : p.opening.toList <+: p.opening.toList ++ rest.toList := List.prefix_append _ _
  rw [whole] at left
  rcases List.prefix_or_prefix_of_prefix left (List.prefix_append _ _) with inside | inside
  · exact noLeft inside
  · exact noRight inside

end Problem

def FromReader (ds : List Diagnostic) : Prop :=
  ∀ d ∈ ds, ∃ p : Problem, ∃ s, p.ofReader = true ∧ d = p.diagnostic s

theorem FromReader.append {ds ds' : List Diagnostic} (h : FromReader ds) (h' : FromReader ds') :
    FromReader (ds ++ ds') := by
  intro d mem
  rcases List.mem_append.mp mem with mem | mem
  · exact h d mem
  · exact h' d mem

theorem fromReader_problemIf (missing : Bool) {p : Problem} (found : p.ofReader = true) (s : Span) :
    FromReader (problemIf missing p s) := by
  intro d mem
  unfold problemIf at mem
  split at mem
  · exact ⟨p, s, found, List.mem_singleton.mp mem⟩
  · cases mem

theorem fromReader_nil : FromReader [] := fun d mem => by cases mem

section readers

variable (start : Cursor)

theorem fromReader_readValue : FromReader (readValue start).problems := by
  unfold readValue
  split
  · split
    · exact fromReader_problemIf _ rfl _
    · exact fromReader_nil
  · exact fromReader_nil

theorem fromReader_readAttribute : FromReader (readAttribute start).problems := by
  unfold readAttribute
  simp only
  split
  · exact fromReader_readValue _
  · exact fromReader_nil

theorem fromReader_readAttributes (name : String) (steps : Nat) (c : Cursor) :
    FromReader (readAttributes start name steps c).problems := by
  induction steps generalizing c with
  | zero => exact fromReader_nil
  | succ steps ih =>
    have single {p : Problem} (found : p.ofReader = true) (s : Span) :
        FromReader [p.diagnostic s] := fromReader_problemIf true found s
    simp only [readAttributes]
    split
    · exact single rfl _
    · exact fromReader_nil
    · exact fromReader_nil
    · exact single rfl _
    · split
      · exact (single rfl _).append (ih _)
      · exact (fromReader_readAttribute _).append (ih _)

theorem fromReader_readToken : FromReader (readToken start).problems := by
  unfold readToken
  cases constructAt start.rest with
  | comment | cdata | instruction => exact fromReader_problemIf _ rfl _
  | declaration | closeTag | text => exact fromReader_nil
  | openTag =>
    unfold readStartTag
    simp only
    split <;> exact fromReader_readAttributes _ _ _ _

end readers

/-- A problem of the text between two offsets: found by a reader, or with an end tag there. -/
def Noted (lo hi : Nat) (d : Diagnostic) : Prop :=
  ∃ p s, d = Problem.diagnostic p s ∧
    (p.ofReader = true ∨ p.opening ∈ Problem.endTagOpenings ∧ lo ≤ s.start ∧ s.stop ≤ hi)

theorem Noted.mono {lo lo' hi hi' : Nat} {d : Diagnostic} (h : Noted lo hi d) (le : lo' ≤ lo)
    (le' : hi ≤ hi') : Noted lo' hi' d := by
  obtain ⟨p, s, eq, found | ⟨stray, ge, ge'⟩⟩ := h
  · exact ⟨p, s, eq, Or.inl found⟩
  · exact ⟨p, s, eq, Or.inr ⟨stray, Nat.le_trans le ge, Nat.le_trans ge' le'⟩⟩

theorem strayEndTag_opening (name : String) :
    (Builder.strayEndTag name).opening ∈ Problem.endTagOpenings := by
  unfold Builder.strayEndTag
  split
  · exact List.mem_cons_self
  · exact List.mem_cons_of_mem _ List.mem_cons_self

/-- No such problem is about an element that is not closed. -/
theorem Noted.closed {lo hi : Nat} {d : Diagnostic} (h : Noted lo hi d) (name : String) :
    d.message ≠ (Problem.unclosedElement name).message := by
  obtain ⟨p, s, rfl, found | ⟨stray, -⟩⟩ := h
  · exact Problem.message_ne (Problem.opening_mem found)
      (List.mem_singleton_self "Unclosed element \"") (by decide +kernel)
  · exact Problem.message_ne stray (List.mem_singleton_self "Unclosed element \"")
      (by decide +kernel)

theorem Noted.bounds {lo hi : Nat} {p : Problem} {s : Span} (h : Noted lo hi (p.diagnostic s))
    (stray : p.opening ∈ Problem.endTagOpenings) : lo ≤ s.start ∧ s.stop ≤ hi := by
  obtain ⟨q, s', eq, found | ⟨-, bounds⟩⟩ := h
  · have same : p.message = q.message := congrArg Diagnostic.message eq
    exact absurd same (Problem.message_ne stray (Problem.opening_mem found) (by decide +kernel))
  · have same : s = s' := congrArg Diagnostic.span eq
    rw [same]
    exact bounds

theorem Lexes.le {source : List Char} {c d : Cursor} {ls : List Lexeme} (h : Lexes c ls d)
    (stands : c.At source) : c.offset ≤ d.offset := by
  induction h with
  | nil => exact Nat.le_refl _
  | cons more _ ih =>
    obtain ⟨⟨piece, -, reads⟩, -⟩ := readToken_spec stands more
    exact Nat.le_trans reads.le (ih (stands.next reads))

theorem span_of_close {source : List Char} {c : Cursor} (stands : c.At source) (more : c.rest ≠ [])
    {name : String} {s : Span} (close : (readToken c).token = .close name s) :
    s = c.spanFrom (readToken c).next := by
  obtain ⟨-, fits⟩ := readToken_spec stands more
  rw [close] at fits
  exact fits

/-- Reading a piece of text only adds problems of that piece. -/
theorem Lexes.problems {source : List Char} {c d : Cursor} {ls : List Lexeme} (h : Lexes c ls d)
    (stands : c.At source) (b : Builder) :
    ∃ more, (ls.foldl Builder.step b).problems = b.problems ++ more ∧
      ∀ x ∈ more, Noted c.offset d.offset x := by
  induction h generalizing b with
  | nil => exact ⟨[], (List.append_nil _).symm, by simp⟩
  | @cons c d ls more lexes ih =>
    obtain ⟨⟨piece, -, reads⟩, -⟩ := readToken_spec stands more
    obtain ⟨later, eq, noted⟩ := ih (stands.next reads) (b.step (readToken c))
    refine ⟨(readToken c).problems ++ b.reports (readToken c).token ++ later, ?_, ?_⟩
    · rw [List.foldl_cons, eq, Builder.problems_step_eq]
      simp only [List.append_assoc]
    · intro x mem
      rcases List.mem_append.mp mem with here | mem
      · rcases List.mem_append.mp here with read | reported
        · obtain ⟨p, s, found, rfl⟩ := fromReader_readToken c x read
          exact ⟨p, s, rfl, Or.inl found⟩
        · unfold Builder.reports at reported
          split at reported
          · rename_i name s close
            have span := span_of_close stands more close
            split at reported
            · refine ⟨_, _, List.mem_singleton.mp reported,
                Or.inr ⟨strayEndTag_opening name, ?_, ?_⟩⟩
              · rw [span]
                exact Nat.le_refl _
              · rw [span]
                exact lexes.le (stands.next reads)
            · cases reported
          · cases reported
      · exact (noted x mem).mono reads.le (Nat.le_refl _)

end DirectiveTemplates.Markup
