import DirectiveTemplates.Source.Diagnostic

/-!
A reading position in a text. Every reading step splits the text that is left, so what was read
and what remains put together are always the text before the step.
-/
namespace DirectiveTemplates.Markup

/-- The text before the first position at which `stop` holds, and the text from there. -/
def breakAt (stop : List Char → Bool) : List Char → List Char × List Char
  | [] => ([], [])
  | c :: cs =>
    if stop (c :: cs) then ([], c :: cs)
    else ((c :: (breakAt stop cs).1), (breakAt stop cs).2)

theorem breakAt_append (stop : List Char → Bool) (cs : List Char) :
    (breakAt stop cs).1 ++ (breakAt stop cs).2 = cs := by
  induction cs with
  | nil => rfl
  | cons c cs ih =>
    by_cases h : stop (c :: cs) = true
    · simp [breakAt, h]
    · simp [breakAt, h, ih]

/-- Reading stops at the end of the text or where `stop` holds. -/
theorem stop_of_breakAt (stop : List Char → Bool) (cs : List Char) :
    (breakAt stop cs).2 = [] ∨ stop (breakAt stop cs).2 = true := by
  induction cs with
  | nil => exact Or.inl rfl
  | cons c cs ih =>
    by_cases h : stop (c :: cs) = true
    · simp [breakAt, h]
    · simpa [breakAt, h] using ih

/-- The number of bytes before a position, and the text from it on. -/
structure Cursor where
  offset : Nat
  rest : List Char
  deriving DecidableEq, Repr

namespace Cursor

/-- The position after `cs`, when the text there goes on with `rest`. -/
def after (c : Cursor) (cs rest : List Char) : Cursor := ⟨c.offset + Text.byteLength cs, rest⟩

def skip (c : Cursor) (n : Nat) : Cursor := c.after (c.rest.take n) (c.rest.drop n)

def textUntil (stop : List Char → Bool) (c : Cursor) : List Char := (breakAt stop c.rest).1

/-- The position where `stop` holds, or the end of the text. -/
def goUntil (stop : List Char → Bool) (c : Cursor) : Cursor :=
  c.after (breakAt stop c.rest).1 (breakAt stop c.rest).2

def spanFrom (start c : Cursor) : Span := ⟨start.offset, c.offset⟩

end Cursor

/-- The text goes on with a character of the class, or ends. -/
def startsWithAny (class? : Char → Bool) : List Char → Bool
  | [] => true
  | c :: _ => class? c

/-- The text goes on without a character of the class. -/
def startsOutside (class? : Char → Bool) : List Char → Bool
  | [] => true
  | c :: _ => !class? c

end DirectiveTemplates.Markup
