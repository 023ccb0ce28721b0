import DirectiveTemplates.Proofs.Markup.Positions
import DirectiveTemplates.Proofs.Markup.Scanning
import DirectiveTemplates.Proofs.Markup.Tags

/-!
The steps of reading by positions. Each position is that of a cursor in the source, so the source is
cut there between two characters; a test is about the text from the cursor on; and a loop that passes
characters goes to where the cursor goes.
-/
namespace DirectiveTemplates.Markup

open Text

/-! ### Searching -/

theorem breakAt_of_stop {stop : List Char → Bool} {cs : List Char} (stops : stop cs = true) :
    breakAt stop cs = ([], cs) := by
  cases cs with
  | nil => rfl
  | cons c cs => rw [breakAt, if_pos stops]

/-- A pattern is found where a text breaks at it. -/
theorem splitAt?_eq {pattern : List Char} (ne : pattern ≠ []) (cs : List Char) :
    splitAt? pattern cs =
      if (breakAt pattern.isPrefixOf cs).2.isEmpty then none
      else some ((breakAt pattern.isPrefixOf cs).1,
        (breakAt pattern.isPrefixOf cs).2.drop pattern.length) := by
  induction cs with
  | nil =>
    have some : pattern.isEmpty = false := by simpa using ne
    rw [splitAt?, some]
    rfl
  | cons c cs ih =>
    rw [splitAt?]
    by_cases starts : pattern.isPrefixOf (c :: cs) = true
    · rw [if_pos starts, breakAt_of_stop starts]
      rfl
    · rw [if_neg starts, ih, breakAt, if_neg starts]
      cases (breakAt pattern.isPrefixOf cs).2 with
      | nil => rfl
      | cons d ds => rfl

theorem breakAt_map (f : Char → Char) (stop : List Char → Bool) (cs : List Char) :
    breakAt stop (cs.map f) =
      ((breakAt (fun ds => stop (ds.map f)) cs).1.map f,
        (breakAt (fun ds => stop (ds.map f)) cs).2.map f) := by
  induction cs with
  | nil => rfl
  | cons c cs ih =>
    rw [List.map_cons, breakAt, breakAt, ← List.map_cons, ih]
    split <;> rfl

theorem utf8Size_of_isNameStart {c : Char} (letter : isNameStart c = true) : c.utf8Size = 1 := by
  have small : c ≤ 'z' := by
    simp only [isNameStart, Bool.or_eq_true, Bool.and_eq_true, decide_eq_true_eq] at letter
    rcases letter with ⟨-, low⟩ | ⟨-, up⟩
    · exact low
    · exact Char.le_trans up (by decide)
  exact Char.utf8Size_eq_one_iff.mpr (UInt32.le_trans small (by decide))

theorem utf8Size_toLower (c : Char) : c.toLower.utf8Size = c.utf8Size := by
  rcases toLower_eq_or c with same | ⟨letter, lower⟩
  · rw [same]
  · rw [utf8Size_of_isNameStart letter, utf8Size_of_isNameStart lower]

theorem byteLength_lowerAscii (cs : List Char) : byteLength (lowerAscii cs) = byteLength cs := by
  induction cs with
  | nil => rfl
  | cons c cs ih =>
    rw [byteLength_cons, ← ih, ← utf8Size_toLower c]
    rfl

/-- An end tag is where its opening is in the text in lower case. -/
theorem startsEndTag_eq (name : List Char) :
    startsEndTag name = fun cs => ('<' :: '/' :: lowerAscii name).isPrefixOf (lowerAscii cs) := by
  funext cs
  rw [Bool.eq_iff_iff, List.isPrefixOf_iff_prefix, List.prefix_iff_eq_take, startsEndTag, beq_iff_eq]
  simp only [lowerAscii, List.map_take]
  exact eq_comm

theorem breakAt_lowerAscii (name cs : List Char) :
    breakAt ('<' :: '/' :: lowerAscii name).isPrefixOf (lowerAscii cs) =
      (lowerAscii (breakAt (startsEndTag name) cs).1,
        lowerAscii (breakAt (startsEndTag name) cs).2) := by
  rw [startsEndTag_eq]
  exact breakAt_map _ _ _

namespace Cursor

variable {source : List Char} {c d : Cursor} {piece : List Char}

theorem At.length_le (h : c.At source) : c.rest.length ≤ byteLength source := by
  obtain ⟨before, eq, -⟩ := h
  rw [eq, byteLength_append]
  exact Nat.le_trans (length_le_byteLength _) (Nat.le_add_left _ _)

theorem Reads.length_lt (h : c.Reads piece d) (some : piece ≠ []) :
    d.rest.length < c.rest.length := by
  rw [h.1, List.length_append]
  exact Nat.lt_add_of_pos_left (List.length_pos_iff.mpr some)

theorem reads_skipSpace (c : Cursor) :
    c.Reads (c.textUntil (startsOutside isMarkupSpace)) c.skipSpace :=
  c.reads_goUntil _

theorem reads_skipName (c : Cursor) : c.Reads c.name c.skipName := c.reads_goUntil _

theorem offset_skip_of_nil (rest : c.rest = []) : (c.skip 1).offset = c.offset := by
  rw [(c.reads_skip 1).2, rest]
  rfl

theorem goUntil_of_stop {stop : List Char → Bool} (stops : c.rest = [] ∨ stop c.rest = true) :
    c.goUntil stop = c := by
  have here : breakAt stop c.rest = ([], c.rest) := by
    rcases stops with none | stops
    · rw [none]
      rfl
    · exact breakAt_of_stop stops
  rw [goUntil, here]
  rfl

theorem goUntil_of_go {stop : List Char → Bool} {x : Char} {xs : List Char} (rest : c.rest = x :: xs)
    (goes : stop c.rest = false) : c.goUntil stop = (c.skip 1).goUntil stop := by
  have first : c.skip 1 = c.after [x] xs := by
    rw [skip, rest]
    rfl
  rw [rest] at goes
  rw [first, goUntil, goUntil, rest, breakAt, goes]
  exact (after_after c [x] xs _ _).symm

end Cursor

namespace Positions

section Reading

variable {source : List Char} {c d : Cursor} {piece : List Char}

theorem unread_eq_some {pos : Nat} {rest : List Char} :
    unread source pos = some rest ↔ Cursor.At source ⟨pos, rest⟩ :=
  dropBytes_eq_some

theorem between_eq_some {start stop : Nat} :
    between source start stop = some piece ↔ Span.Covers ⟨start, stop⟩ source piece :=
  Span.sliceBytes_eq_some

theorem unread_at (stands : c.At source) : unread source c.offset = some c.rest :=
  unread_eq_some.mpr stands

theorem between_at (stands : c.At source) (reads : c.Reads piece d) :
    between source c.offset d.offset = some piece :=
  between_eq_some.mpr (stands.covers reads)

theorem atEnd_at (stands : c.At source) : atEnd source c.offset = c.rest.isEmpty := by
  obtain ⟨before, eq, offset⟩ := stands
  rw [atEnd, eq, offset, byteLength_append]
  cases c.rest with
  | nil => simp
  | cons x xs =>
    have pos := x.utf8Size_pos
    rw [byteLength_cons]
    simp
    omega

theorem not_atEnd (stands : c.At source) {x : Char} {xs : List Char} (rest : c.rest = x :: xs) :
    ¬ atEnd source c.offset = true := by
  rw [atEnd_at stands, rest]
  exact Bool.false_ne_true

theorem peek_at (stands : c.At source) : peek source c.offset = some (c.rest.headD '\x00') := by
  rw [peek, unread_at stands]
  rfl

theorem advance_at (stands : c.At source) : advance source c.offset = some (c.skip 1).offset := by
  rw [advance, unread_at stands]
  show _ = some (c.offset + byteLength (c.rest.take 1))
  cases c.rest <;> rfl

/-- The position behind the next character, which the end is also. -/
theorem advance_or_end (stands : c.At source) :
    (if atEnd source c.offset then some c.offset else advance source c.offset) =
      some (c.skip 1).offset := by
  rw [atEnd_at stands]
  cases rest : c.rest with
  | nil => exact congrArg some (Cursor.offset_skip_of_nil rest).symm
  | cons x xs => exact advance_at stands

theorem startsWith_at (stands : c.At source) (pattern : List Char) :
    startsWith source pattern c.offset = some (pattern.isPrefixOf c.rest) := by
  rw [startsWith, unread_at stands]
  rfl

theorem isLetterAt_at (stands : c.At source) :
    isLetterAt source c.offset = c.rest.head?.any isNameStart := by
  have rest := unread_at stands
  rw [unread] at rest
  rw [isLetterAt, rest]
  cases c.rest <;> rfl

/-- A step that has a value goes on with it. -/
theorem step {α β : Type} {x : Option α} {f : α → Option β} {a : α} {b : β} (value : x = some a)
    (next : f a = some b) : x >>= f = some b :=
  Option.bind_eq_some_iff.mpr ⟨a, value, next⟩

theorem minus_add (m n : Nat) : minus (m + n) n = some m := by
  rw [minus, if_pos (Nat.le_add_left _ _), Nat.add_sub_cancel]

/-! ### Loops -/

theorem rounds_again {σ β : Type} {round : Nat → σ → Option (Round σ β)} {s s' : σ} (count : Nat)
    (stands : c.At source) (goes : round c.offset s = some (.again d.offset s'))
    (reads : c.Reads piece d) (some : piece ≠ []) :
    rounds source round (count + 1) c.offset s = rounds source round count d.offset s' := by
  have more : piece.isEmpty = false := by simpa using some
  rw [rounds, goes]
  simp only [Option.bind_eq_bind, Option.bind_some, between_at stands reads, more]
  rfl

theorem rounds_leave {σ β : Type} {round : Nat → σ → Option (Round σ β)} {s : σ} {b : β} {pos : Nat}
    (count : Nat) (leaves : round pos s = some (.leave b)) :
    rounds source round (count + 1) pos s = some b := by
  rw [rounds, leaves]
  rfl

/-- A test that holds where a scan goes on. -/
def Tests (source : List Char) (test : Nat → Option Bool) (stop : List Char → Bool) : Prop :=
  ∀ c : Cursor, c.At source → test c.offset = some (!(c.rest.isEmpty || stop c.rest))

theorem passRound_at {test : Nat → Option Bool} {stop : List Char → Bool}
    (tests : Tests source test stop) (stands : c.At source) :
    passRound source test c.offset () =
      some (if c.rest.isEmpty || stop c.rest then .leave c.offset
        else .again (c.skip 1).offset ()) := by
  refine step (tests c stands) ?_
  cases c.rest.isEmpty || stop c.rest with
  | true => rfl
  | false => exact step (advance_at stands) rfl

theorem passWhile_at {test : Nat → Option Bool} {stop : List Char → Bool}
    (tests : Tests source test stop) (stands : c.At source) :
    passWhile source test c.offset = some (c.goUntil stop).offset := by
  suffices enough : ∀ count, c.rest.length < count →
      rounds source (passRound source test) count c.offset () = some (c.goUntil stop).offset from
    enough _ (Nat.lt_succ_of_le stands.length_le)
  intro count short
  induction count generalizing c with
  | zero => exact absurd short (Nat.not_lt_zero _)
  | succ count ih =>
    have passed := passRound_at tests stands
    cases stops : c.rest.isEmpty || stop c.rest with
    | true =>
      rw [stops, if_pos rfl] at passed
      rw [rounds_leave count passed, Cursor.goUntil_of_stop (by simpa using stops)]
    | false =>
      rw [stops, if_neg Bool.false_ne_true] at passed
      obtain ⟨more, goes⟩ := Bool.or_eq_false_iff.mp stops
      obtain ⟨x, xs, rest⟩ := List.exists_cons_of_ne_nil (List.isEmpty_eq_false_iff.mp more)
      have reads := c.reads_skip 1
      have some : c.rest.take 1 ≠ [] := by simp [rest]
      have shorter := reads.length_lt some
      rw [rounds_again count stands passed reads some, Cursor.goUntil_of_go rest goes]
      exact ih (stands.next reads) (by omega)

theorem tests_beforeEnd {test : Nat → Option Bool} {stop : List Char → Bool}
    (inside : ∀ c : Cursor, c.At source → c.rest ≠ [] → test c.offset = some (!stop c.rest)) :
    Tests source (beforeEnd source test) stop := by
  intro c stands
  rw [beforeEnd, atEnd_at stands]
  cases rest : c.rest with
  | nil => rfl
  | cons x xs =>
    rw [← rest]
    have more : c.rest ≠ [] := by simp [rest]
    rw [inside c stands more]
    simp [more]

theorem passChars_at {keep : Char → Bool} {stop : List Char → Bool}
    (char : ∀ x xs, stop (x :: xs) = !keep x) (stands : c.At source) :
    passChars source keep c.offset = some (c.goUntil stop).offset := by
  refine passWhile_at (tests_beforeEnd ?_) stands
  intro c stands more
  obtain ⟨x, xs, rest⟩ := List.exists_cons_of_ne_nil more
  rw [peek_at stands, rest, char, Bool.not_not]
  rfl

theorem skipSpace_at (stands : c.At source) : skipSpace source c.offset = some c.skipSpace.offset := by
  apply passWhile_at _ stands
  intro d stands
  simp only [peek_at stands]
  cases d.rest with
  | nil => rfl
  | cons x xs =>
    show some (isMarkupSpace x) = some (!(false || !isMarkupSpace x))
    rw [Bool.false_or, Bool.not_not]

theorem skipName_at (stands : c.At source) : skipName source c.offset = some c.skipName.offset :=
  passChars_at (fun _ _ => (Bool.not_not _).symm) stands

end Reading

end Positions

end DirectiveTemplates.Markup
