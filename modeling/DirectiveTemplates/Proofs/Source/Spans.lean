import DirectiveTemplates.Source.Diagnostic

/-!
Spans and the text they cover. Offsets count bytes, so a span covers a piece of a text when the
bytes of what stands before the piece lead to its start.
-/
namespace DirectiveTemplates

namespace Text

@[simp] theorem byteLength_nil : byteLength [] = 0 := rfl

@[simp] theorem byteLength_cons (c : Char) (cs : List Char) :
    byteLength (c :: cs) = c.utf8Size + byteLength cs := rfl

@[simp] theorem byteLength_append (cs ds : List Char) :
    byteLength (cs ++ ds) = byteLength cs + byteLength ds := by
  induction cs with
  | nil => simp
  | cons c cs ih => simp [ih, Nat.add_assoc]

theorem byteLength_pos {cs : List Char} (h : cs ≠ []) : 0 < byteLength cs := by
  cases cs with
  | nil => exact absurd rfl h
  | cons c cs =>
    have first := c.utf8Size_pos
    rw [byteLength_cons]
    omega

theorem utf8ByteSize_eq (s : String) : s.utf8ByteSize = byteLength s.toList := by
  have ofList (cs : List Char) : (String.ofList cs).utf8ByteSize = byteLength cs := by
    induction cs with
    | nil => rfl
    | cons c cs ih =>
      rw [String.ofList_cons, String.utf8ByteSize_append, String.utf8ByteSize_singleton, ih,
        byteLength_cons]
  rw [← ofList, String.ofList_toList]

theorem dropBytes_cons (n : Nat) (c : Char) (cs : List Char) :
    dropBytes (c.utf8Size + n) (c :: cs) = dropBytes n cs := by
  have pos := c.utf8Size_pos
  obtain ⟨m, eq⟩ : ∃ m, c.utf8Size + n = m + 1 := ⟨c.utf8Size + n - 1, by omega⟩
  have rest : m + 1 - c.utf8Size = n := by omega
  rw [eq, dropBytes, if_pos (by omega), rest]

theorem takeBytes_cons (n : Nat) (c : Char) (cs : List Char) :
    takeBytes (c.utf8Size + n) (c :: cs) = (takeBytes n cs).map (c :: ·) := by
  have pos := c.utf8Size_pos
  obtain ⟨m, eq⟩ : ∃ m, c.utf8Size + n = m + 1 := ⟨c.utf8Size + n - 1, by omega⟩
  have rest : m + 1 - c.utf8Size = n := by omega
  rw [eq, takeBytes, if_pos (by omega), rest]

theorem dropBytes_append (cs ds : List Char) : dropBytes (byteLength cs) (cs ++ ds) = some ds := by
  induction cs with
  | nil => cases ds <;> rfl
  | cons c cs ih => rw [byteLength_cons, List.cons_append, dropBytes_cons, ih]

theorem takeBytes_append (cs ds : List Char) : takeBytes (byteLength cs) (cs ++ ds) = some cs := by
  induction cs with
  | nil => cases ds <;> rfl
  | cons c cs ih =>
    rw [byteLength_cons, List.cons_append, takeBytes_cons, ih]
    rfl

/-- A text is cut behind its first `n` bytes exactly when a character ends there. -/
theorem dropBytes_eq_some {n : Nat} {cs rest : List Char} :
    dropBytes n cs = some rest ↔ ∃ before, cs = before ++ rest ∧ n = byteLength before := by
  constructor
  · intro cut
    induction cs generalizing n with
    | nil =>
      cases n with
      | zero => exact ⟨[], Option.some.inj cut, rfl⟩
      | succ n => exact (nomatch cut)
    | cons c cs ih =>
      cases n with
      | zero => exact ⟨[], Option.some.inj cut, rfl⟩
      | succ n =>
        rw [dropBytes] at cut
        split at cut
        · obtain ⟨before, rfl, size⟩ := ih cut
          refine ⟨c :: before, rfl, ?_⟩
          rw [byteLength_cons]
          omega
        · exact (nomatch cut)
  · rintro ⟨before, rfl, rfl⟩
    exact dropBytes_append before rest

theorem takeBytes_eq_some {n : Nat} {cs piece : List Char} :
    takeBytes n cs = some piece ↔ ∃ after, cs = piece ++ after ∧ n = byteLength piece := by
  constructor
  · intro cut
    induction cs generalizing n piece with
    | nil =>
      cases n with
      | zero =>
        cases cut
        exact ⟨[], rfl, rfl⟩
      | succ n => exact (nomatch cut)
    | cons c cs ih =>
      cases n with
      | zero =>
        cases cut
        exact ⟨c :: cs, rfl, rfl⟩
      | succ n =>
        rw [takeBytes] at cut
        split at cut
        · obtain ⟨piece, taken, rfl⟩ := Option.map_eq_some_iff.mp cut
          obtain ⟨after, rfl, size⟩ := ih taken
          refine ⟨after, rfl, ?_⟩
          rw [byteLength_cons]
          omega
        · exact (nomatch cut)
  · rintro ⟨after, rfl, rfl⟩
    exact takeBytes_append piece after

theorem length_le_byteLength (cs : List Char) : cs.length ≤ byteLength cs := by
  induction cs with
  | nil => exact Nat.le_refl _
  | cons c cs ih =>
    have pos := c.utf8Size_pos
    rw [List.length_cons, byteLength_cons]
    omega

theorem sliceBytes_append (before piece after : List Char) :
    sliceBytes (byteLength before) (byteLength before + byteLength piece)
      (before ++ piece ++ after) = some piece := by
  rw [sliceBytes, if_pos (Nat.le_add_right _ _), List.append_assoc, dropBytes_append,
    Option.bind_some, Nat.add_sub_cancel_left, takeBytes_append]

/-- A text is divided in one way after a number of bytes. -/
theorem append_inj_of_byteLength_eq {cs ds cs' ds' : List Char} (eq : cs ++ ds = cs' ++ ds')
    (size : byteLength cs = byteLength cs') : cs = cs' ∧ ds = ds' := by
  have first := takeBytes_append cs ds
  rw [eq, size, takeBytes_append] at first
  cases first
  exact ⟨rfl, List.append_cancel_left eq⟩

/-- Of two texts that start one text, the one that is not longer in bytes starts the other. -/
theorem prefix_of_byteLength_le {source cs ds : List Char} (hc : cs <+: source)
    (hd : ds <+: source) (le : byteLength cs ≤ byteLength ds) : cs <+: ds := by
  rcases List.prefix_or_prefix_of_prefix hc hd with shorter | ⟨more, rfl⟩
  · exact shorter
  · cases more with
    | nil => exact ⟨[], by rw [List.append_nil, List.append_nil]⟩
    | cons c more =>
      have pos := c.utf8Size_pos
      rw [byteLength_append, byteLength_cons] at le
      omega

/-- A place in front of a character of a text, or at its end. -/
def Boundary (source : List Char) (offset : Nat) : Prop :=
  ∃ before after, source = before ++ after ∧ offset = byteLength before

end Text

namespace Span

open Text

/-- A span covers a piece of a text, from where the piece starts to where it ends. -/
def Covers (s : Span) (source piece : List Char) : Prop :=
  ∃ before after, source = before ++ piece ++ after ∧
    s = ⟨byteLength before, byteLength before + byteLength piece⟩

theorem sliceBytes_eq_some {start stop : Nat} {source piece : List Char} :
    sliceBytes start stop source = some piece ↔ Covers ⟨start, stop⟩ source piece := by
  constructor
  · intro cut
    rw [sliceBytes] at cut
    split at cut
    · obtain ⟨rest, dropped, taken⟩ := Option.bind_eq_some_iff.mp cut
      obtain ⟨before, rfl, rfl⟩ := dropBytes_eq_some.mp dropped
      obtain ⟨after, rfl, size⟩ := takeBytes_eq_some.mp taken
      have end_eq : stop = byteLength before + byteLength piece := by omega
      exact ⟨before, after, (List.append_assoc _ _ _).symm, congrArg _ end_eq⟩
    · exact (nomatch cut)
  · rintro ⟨before, after, rfl, span⟩
    cases span
    exact sliceBytes_append before piece after

namespace Covers

variable {s : Span} {source piece : List Char}

theorem slice {source : String} (h : s.Covers source.toList piece) :
    s.slice source = String.ofList piece := by
  obtain ⟨before, after, eq, rfl⟩ := h
  rw [Span.slice, eq, sliceBytes_append]
  rfl

theorem le (h : s.Covers source piece) : s.start ≤ s.stop ∧ s.stop ≤ byteLength source := by
  obtain ⟨before, after, rfl, rfl⟩ := h
  simp

theorem lt (h : s.Covers source piece) (ne : piece ≠ []) : s.start < s.stop := by
  obtain ⟨before, after, rfl, rfl⟩ := h
  exact Nat.lt_add_of_pos_right (byteLength_pos ne)

theorem sub {before after : List Char} (h : s.Covers source (before ++ (piece ++ after))) :
    Covers ⟨s.start + byteLength before, s.start + byteLength before + byteLength piece⟩ source
      piece := by
  obtain ⟨first, last, rfl, rfl⟩ := h
  refine ⟨first ++ before, after ++ last, ?_, ?_⟩
  · simp only [List.append_assoc]
  · simp only [byteLength_append]

end Covers

/-- A span of at least one character, from one boundary between characters to another. -/
def Within (s : Span) (source : List Char) : Prop := ∃ piece, piece ≠ [] ∧ s.Covers source piece

/-- A span from one boundary between characters to another one or the same. -/
structure Aligned (s : Span) (source : List Char) : Prop where
  le : s.start ≤ s.stop
  start : Boundary source s.start
  stop : Boundary source s.stop

theorem Covers.aligned {s : Span} {source piece : List Char} (h : s.Covers source piece) :
    s.Aligned source := by
  obtain ⟨before, after, rfl, rfl⟩ := h
  refine ⟨Nat.le_add_right _ _, ⟨before, piece ++ after, ?_, rfl⟩,
    ⟨before ++ piece, after, rfl, ?_⟩⟩
  · rw [List.append_assoc]
  · rw [byteLength_append]

theorem Aligned.exists_covers {s : Span} {source : List Char} (h : s.Aligned source) :
    ∃ piece, s.Covers source piece := by
  obtain ⟨start, stop⟩ := s
  obtain ⟨before, after, rfl, rfl⟩ := h.start
  obtain ⟨before', after', eq, rfl⟩ := h.stop
  have le : byteLength before ≤ byteLength before' := h.le
  have shorter : before <+: before' :=
    prefix_of_byteLength_le (List.prefix_append before after)
      (eq ▸ List.prefix_append before' after') le
  obtain ⟨piece, rfl⟩ := shorter
  refine ⟨piece, before, after', eq, ?_⟩
  rw [byteLength_append]

theorem Aligned.le_length {s : Span} {source : List Char} (h : s.Aligned source) :
    s.stop ≤ byteLength source := by
  obtain ⟨before, after, rfl, eq⟩ := h.stop
  rw [eq, byteLength_append]
  exact Nat.le_add_right _ _

theorem Within.aligned {s : Span} {source : List Char} (h : s.Within source) :
    s.Aligned source := by
  obtain ⟨piece, -, covers⟩ := h
  exact covers.aligned

theorem Within.lt {s : Span} {source : List Char} (h : s.Within source) : s.start < s.stop := by
  obtain ⟨piece, ne, covers⟩ := h
  exact covers.lt ne

end Span

end DirectiveTemplates
