import DirectiveTemplates.Proofs.Source.Locations
import DirectiveTemplates.Proofs.Text.Splitting

/-!
Described messages. A line of a text is what stands between two line ends; the line an offset is on,
the line that a description shows and the columns under which its carets stand are the same in
bytes, in characters and in the division of the text at its line feeds.
-/
namespace DirectiveTemplates.SourceText

open Text

/-- What ends a line: a line feed, the carriage return in front of it included, or the text. -/
def Ends (line ending below : List Char) : Prop :=
  ending = ['\n'] ∧ line.getLast? ≠ some '\r' ∨ ending = ['\r', '\n'] ∨ ending = [] ∧ below = []

/-- A line of a text with what is above it, what ends it and what is below. -/
structure IsLine (source above line ending below : List Char) : Prop where
  eq : source = above ++ (line ++ (ending ++ below))
  starts : above = [] ∨ above.getLast? = some '\n'
  inside : '\n' ∉ line
  ends : Ends line ending below

/-- An offset of a line: in front of its characters or of those that end it, and for the last line
any offset behind. -/
def Holds (above line ending : List Char) (n : Nat) : Prop :=
  byteLength above ≤ n ∧ (n < byteLength (above ++ (line ++ ending)) ∨ ending = [])

/-! ### Lines and places -/

section Lines

variable {source above line ending below : List Char}

theorem line_behind (cs : List Char) : (Location.behind cs).line = cs.count '\n' := by
  rw [Location.behind, Location.line_foldl_next, Nat.zero_add]

/-- A line starts in its first column, below as many lines as line feeds are above it. -/
theorem behind_above (starts : above = [] ∨ above.getLast? = some '\n') :
    Location.behind above = ⟨above.count '\n', 0⟩ := by
  rcases starts with rfl | last
  · rfl
  · obtain ⟨init, rfl⟩ := List.getLast?_eq_some_iff.mp last
    rw [Location.behind_append, List.count_append, List.count_singleton_self, ← line_behind]
    rfl

/-- In a line, columns count the characters from its start. -/
theorem behind_within {part : List Char} (starts : above = [] ∨ above.getLast? = some '\n')
    (inside : '\n' ∉ part) :
    Location.behind (above ++ part) = ⟨above.count '\n', part.length⟩ := by
  rw [Location.behind_append, behind_above starts, Location.foldl_next_of_not_mem inside,
    Nat.zero_add]

theorem count_append_of_not_mem {part : List Char} (inside : '\n' ∉ part) (cs : List Char) :
    (cs ++ part).count '\n' = cs.count '\n' := by
  rw [List.count_append, List.count_eq_zero_of_not_mem inside, Nat.add_zero]

section Offsets

variable {s : SourceText} {before after : List Char} {n : Nat}

/-- Behind a part of the text are at least as many lines as line feeds in it. -/
theorem count_le_line (eq : s.content.toList = before ++ after) (le : byteLength before ≤ n) :
    before.count '\n' ≤ (s.locate n).line := by
  have later := (s.locate_mono le).line_le
  rwa [s.locate_of_boundary eq, line_behind] at later

theorem line_le_count (eq : s.content.toList = before ++ after) (le : n ≤ byteLength before) :
    (s.locate n).line ≤ before.count '\n' := by
  have later := (s.locate_mono le).line_le
  rwa [s.locate_of_boundary eq, line_behind] at later

theorem line_le (s : SourceText) (n : Nat) : (s.locate n).line ≤ s.content.toList.count '\n' := by
  have later := (Location.atMost_behind (startingWithin_starts n s.content.toList)).line_le
  rwa [← locate_eq, line_behind] at later

end Offsets

namespace IsLine

variable {s : SourceText} (h : IsLine s.content.toList above line ending below)
include h

/-- What ends a line is empty at the end of the text, and a line feed with what belongs to it
otherwise. -/
theorem ending_cases :
    ending = [] ∧ below = [] ∨ ∃ rest, ending = rest ++ ['\n'] ∧ '\n' ∉ line ++ rest := by
  rcases h.ends with ⟨rfl, -⟩ | rfl | last
  · exact Or.inr ⟨[], rfl, by simpa using h.inside⟩
  · exact Or.inr ⟨['\r'], rfl, by simpa using h.inside⟩
  · exact Or.inl last

/-- Offsets above a line are not behind the line feed that the text above it ends with. -/
theorem line_lt {n : Nat} (lt : n < byteLength above) : (s.locate n).line < above.count '\n' := by
  rcases h.starts with rfl | last
  · exact absurd lt (Nat.not_lt_zero _)
  · obtain ⟨init, rfl⟩ := List.getLast?_eq_some_iff.mp last
    rw [byteLength_append] at lt
    rw [List.count_append, List.count_singleton_self]
    exact Nat.lt_succ_of_le
      (line_le_count (h.eq.trans (List.append_assoc _ _ _)) (Nat.le_of_lt_succ lt))

/-- Offsets below a line are behind the line feed that ends it. -/
theorem lt_line {n : Nat} (ended : ending ≠ [])
    (le : byteLength (above ++ (line ++ ending)) ≤ n) : above.count '\n' < (s.locate n).line := by
  rcases h.ending_cases with ⟨none, -⟩ | ⟨rest, rfl, inside⟩
  · exact absurd none ended
  · have whole : above ++ (line ++ (rest ++ ['\n'])) = above ++ (line ++ rest) ++ ['\n'] := by
      simp only [List.append_assoc]
    have split : s.content.toList = above ++ (line ++ (rest ++ ['\n'])) ++ below := by
      rw [h.eq]
      simp only [List.append_assoc]
    have lines := count_le_line split le
    rw [whole, List.count_append, count_append_of_not_mem inside] at lines
    exact lines

theorem line_of_holds {n : Nat} (holds : Holds above line ending n) :
    (s.locate n).line = above.count '\n' := by
  obtain ⟨le, within⟩ := holds
  refine Nat.le_antisymm ?_ (count_le_line h.eq le)
  rcases h.ending_cases with ⟨rfl, rfl⟩ | ⟨rest, rfl, inside⟩
  · -- the last line: no line feed is left
    have lines := s.line_le n
    rwa [h.eq, List.append_nil, List.append_nil, count_append_of_not_mem h.inside] at lines
  · have split : s.content.toList = above ++ (line ++ rest) ++ ('\n' :: below) := by
      rw [h.eq]
      simp only [List.append_assoc, List.cons_append, List.nil_append]
    have short : n ≤ byteLength (above ++ (line ++ rest)) := by
      rcases within with short | none
      · rw [← List.append_assoc line, ← List.append_assoc above, byteLength_append] at short
        exact Nat.le_of_lt_succ short
      · exact absurd none (List.append_ne_nil_of_right_ne_nil _ (List.cons_ne_nil _ _))
    have lines := line_le_count split short
    rwa [count_append_of_not_mem inside] at lines

/-- The offsets of a line are those with its number. -/
theorem line_locate_iff (n : Nat) :
    (s.locate n).line = above.count '\n' ↔ Holds above line ending n := by
  refine ⟨fun same => ⟨?_, ?_⟩, h.line_of_holds⟩
  · exact Nat.le_of_not_lt fun lt => Nat.ne_of_lt (h.line_lt lt) same
  · by_cases ended : ending = []
    · exact Or.inr ended
    · exact Or.inl (Nat.lt_of_not_le fun le => Nat.ne_of_gt (h.lt_line ended le) same)

/-- A place in a line, by the characters in front of it. -/
theorem locate_within {before after : List Char} (eq : line = before ++ after) :
    s.locate (byteLength (above ++ before)) = ⟨above.count '\n', before.length⟩ := by
  have split : s.content.toList = above ++ before ++ (after ++ (ending ++ below)) := by
    rw [h.eq, eq]
    simp only [List.append_assoc]
  have inside : '\n' ∉ before := fun mem => h.inside (eq ▸ List.mem_append_left _ mem)
  rw [s.locate_of_boundary split, behind_within h.starts inside]

end IsLine

/-- A text up to a line feed is a line and what ends it. -/
theorem exists_ends {first : List Char} (absent : '\n' ∉ first) (below : List Char) :
    ∃ line ending, first ++ ['\n'] = line ++ ending ∧ '\n' ∉ line ∧ Ends line ending below := by
  by_cases returned : first.getLast? = some '\r'
  · obtain ⟨line, rfl⟩ := List.getLast?_eq_some_iff.mp returned
    refine ⟨line, ['\r', '\n'], List.append_assoc _ _ _, ?_, Or.inr (Or.inl rfl)⟩
    exact fun mem => absent (List.mem_append_left _ mem)
  · exact ⟨first, ['\n'], rfl, absent, Or.inl ⟨rfl, returned⟩⟩

theorem exists_isLine (source : List Char) (n : Nat) :
    ∃ above line ending below, IsLine source above line ending below ∧
      Holds above line ending n := by
  suffices from_line : ∀ rest above : List Char, (above = [] ∨ above.getLast? = some '\n') →
      byteLength above ≤ n → ∃ above' line ending below,
        IsLine (above ++ rest) above' line ending below ∧ Holds above' line ending n from
    from_line source [] (Or.inl rfl) (Nat.zero_le n)
  intro rest
  -- line by line, from the first one
  induction hl : rest.length using Nat.strongRecOn generalizing rest with
  | _ length ih =>
    intro above starts le
    by_cases feed : '\n' ∈ rest
    · obtain ⟨first, below, rfl, absent⟩ := List.eq_append_cons_of_mem feed
      have split : above ++ (first ++ '\n' :: below) = above ++ (first ++ ['\n']) ++ below := by simp
      rw [split]
      by_cases short : n < byteLength (above ++ (first ++ ['\n']))
      · obtain ⟨line, ending, eq, inside, ends⟩ := exists_ends absent below
        rw [eq] at short ⊢
        have parts : above ++ (line ++ ending) ++ below = above ++ (line ++ (ending ++ below)) := by
          simp only [List.append_assoc]
        exact ⟨above, line, ending, below, ⟨parts, starts, inside, ends⟩, le, Or.inl short⟩
      · have fewer : below.length < length := by
          rw [← hl, List.length_append, List.length_cons]
          omega
        exact ih below.length fewer below rfl (above ++ (first ++ ['\n'])) (Or.inr (by simp))
          (Nat.le_of_not_lt short)
    · exact ⟨above, rest, [], [], ⟨by simp, starts, feed, Or.inr (Or.inr ⟨rfl, rfl⟩)⟩, le,
        Or.inr rfl⟩

/-! ### The line that is shown -/

theorem dropReturn_of_ne (ne : line.getLast? ≠ some '\r') : dropReturn line = line := if_neg ne

theorem dropReturn_append (line : List Char) : dropReturn (line ++ ['\r']) = line := by
  rw [dropReturn, if_pos (List.getLast?_concat ..), List.dropLast_concat]

/-- A part that is not the last one is a line without the carriage return at its end. -/
theorem linesOf_ended {first rest : List (List Char)} {part : List Char} (more : rest ≠ [])
    (parts : splitAll '\n' source = first ++ part :: rest) :
    (linesOf source)[first.length]? = some (dropReturn part) := by
  have init : (splitAll '\n' source).dropLast = first ++ part :: rest.dropLast := by
    rw [parts, List.dropLast_append_of_ne_nil (List.cons_ne_nil _ _),
      List.dropLast_cons_of_ne_nil more]
  have ended : ((splitAll '\n' source).dropLast.map dropReturn)[first.length]? =
      some (dropReturn part) := by
    rw [init, List.map_append, List.getElem?_append_right (Nat.le_of_eq (List.length_map _)),
      List.length_map, Nat.sub_self]
    rfl
  rw [linesOf]
  split
  · exact ended
  · exact ended
  · rw [List.getElem?_append_left (List.getElem?_eq_some_iff.mp ended).1]
    exact ended

/-- The last part is a line as it stands; as such it is not counted when it is empty. -/
theorem linesOf_last {first : List (List Char)} {part : List Char}
    (parts : splitAll '\n' source = first ++ [part]) :
    ((linesOf source)[first.length]?).getD [] = part := by
  rw [linesOf, parts]
  simp only [List.dropLast_concat, List.getLast?_concat]
  cases part with
  | nil => rw [List.getElem?_eq_none (Nat.le_of_eq (List.length_map _)), Option.getD_none]
  | cons c cs =>
    rw [List.getElem?_append_right (Nat.le_of_eq (List.length_map _)), List.length_map, Nat.sub_self]
    rfl

/-- The lines above a line are the parts of what is above it. -/
theorem exists_parts (starts : above = [] ∨ above.getLast? = some '\n') (rest : List Char) :
    ∃ first, first.length = above.count '\n' ∧
      splitAll '\n' (above ++ rest) = first ++ splitAll '\n' rest := by
  rcases starts with rfl | last
  · exact ⟨[], rfl, rfl⟩
  · obtain ⟨init, rfl⟩ := List.getLast?_eq_some_iff.mp last
    refine ⟨splitAll '\n' init, ?_, ?_⟩
    · rw [length_splitAll, List.count_append, List.count_singleton_self]
    · rw [← splitAll_append, List.append_assoc]
      rfl

/-- The line with the number of a line is that line, without what ends it. -/
theorem IsLine.line_eq {s : SourceText} (h : IsLine s.content.toList above line ending below) :
    s.line (above.count '\n') = line := by
  obtain ⟨first, count, parts⟩ := exists_parts h.starts (line ++ (ending ++ below))
  rw [← h.eq] at parts
  rw [SourceText.line, ← count]
  have divided {part : List Char} (inside : '\n' ∉ part)
      (eq : line ++ (ending ++ below) = part ++ '\n' :: below) :
      (linesOf s.content.toList)[first.length]? = some (dropReturn part) := by
    rw [eq, splitAll_append, splitAll_of_not_mem inside, List.singleton_append] at parts
    exact linesOf_ended (splitAll_ne_nil _ _) parts
  rcases h.ends with ⟨rfl, ne⟩ | rfl | ⟨rfl, rfl⟩
  · rw [divided h.inside rfl, Option.getD_some, dropReturn_of_ne ne]
  · have inside : '\n' ∉ line ++ ['\r'] := by
      rw [List.mem_append]
      exact not_or.mpr ⟨h.inside, by decide⟩
    rw [divided inside (by simp), Option.getD_some, dropReturn_append]
  · rw [List.append_nil, List.append_nil, splitAll_of_not_mem h.inside] at parts
    exact linesOf_last parts

end Lines

/-! ### The description -/

/-- A message with its place, the line the place is on and carets below the line, from under the
character at the place on. -/
def shown (name message : String) (place : Location) (line : List Char) (carets : Nat) : String :=
  let heading := s!"{name}:{place.line + 1}:{place.column + 1}: error: {message}"
  let marker := List.replicate place.column ' ' ++ List.replicate carets '^'
  heading ++ "\n" ++ "    " ++ String.ofList line ++ "\n    " ++ String.ofList marker

variable (s : SourceText) (d : Diagnostic)

theorem describe_eq :
    s.describe d =
      let start := s.locate d.span.start
      let line := s.line start.line
      shown s.name d.message start line
        (caretCount line start (s.locate (max d.span.stop d.span.start))) := by
  simp only [describe, shown, String.ofList_append, String.append_assoc, toString]

variable {above line ending below : List Char}

theorem IsLine.describe_inside (h : IsLine s.content.toList above line ending below)
    (aligned : d.span.Aligned s.content.toList) (start : byteLength above ≤ d.span.start)
    (stop : d.span.stop ≤ byteLength (above ++ line)) :
    ∃ before piece after, line = before ++ (piece ++ after) ∧
      d.span = ⟨byteLength (above ++ before), byteLength (above ++ before ++ piece)⟩ ∧
      d.span.slice s.content = String.ofList piece ∧
      s.describe d = shown s.name d.message ⟨above.count '\n', before.length⟩ line
        (max 1 piece.length) := by
  obtain ⟨piece, covers⟩ := aligned.exists_covers
  have slice := covers.slice
  obtain ⟨first, last, eq, span⟩ := covers
  rw [span] at start stop
  have whole : s.content.toList = (above ++ line) ++ (ending ++ below) := by
    rw [h.eq, List.append_assoc]
  -- the range starts behind what is above the line, and ends in front of what ends the line
  obtain ⟨before, rfl⟩ : above <+: first :=
    prefix_of_byteLength_le ⟨line ++ (ending ++ below), h.eq.symm⟩
      ⟨piece ++ last, by rw [eq, List.append_assoc]⟩ start
  obtain ⟨after, inside⟩ : above ++ before ++ piece <+: above ++ line :=
    prefix_of_byteLength_le ⟨last, eq.symm⟩ ⟨ending ++ below, whole.symm⟩
      (by rwa [byteLength_append])
  have parts : line = before ++ (piece ++ after) := by
    rw [List.append_assoc, List.append_assoc, List.append_cancel_left_eq] at inside
    exact inside.symm
  rw [← byteLength_append] at span
  refine ⟨before, piece, after, parts, span, slice, ?_⟩
  have first : s.locate d.span.start = ⟨above.count '\n', before.length⟩ := by
    rw [span]
    exact h.locate_within parts
  have behind : s.locate (max d.span.stop d.span.start) =
      ⟨above.count '\n', before.length + piece.length⟩ := by
    rw [span, Nat.max_eq_left (byteLength_append _ piece ▸ Nat.le_add_right _ _),
      List.append_assoc, ← List.length_append]
    exact h.locate_within (parts.trans (List.append_assoc _ _ _).symm)
  rw [describe_eq, first, behind]
  simp only [caretCount, h.line_eq, if_pos, Nat.add_sub_cancel_left]

theorem IsLine.describe_across (h : IsLine s.content.toList above line ending below)
    (start : Holds above line ending d.span.start)
    (stop : ¬ Holds above line ending (max d.span.stop d.span.start)) :
    s.describe d = shown s.name d.message (s.locate d.span.start) line
      (max 1 (line.length - (s.locate d.span.start).column)) := by
  have first := (h.line_locate_iff _).mpr start
  have other : (s.locate (max d.span.stop d.span.start)).line ≠ above.count '\n' :=
    mt (h.line_locate_iff _).mp stop
  rw [describe_eq]
  simp only [caretCount, h.line_eq, first, if_neg other]

/-- Described messages underline the text they are about. Whatever the offsets of a message, no
column is subtracted from a smaller one; places follow the offsets and tell the boundaries between
characters apart. The range of a message starts on a line of the text. If the range is a piece of
that line, the line is shown over a margin as wide as the characters before the piece and carets as
many as its characters, so that the piece is what stands above the carets; an empty piece has one
caret. If the range goes beyond its line, the carets go to the end of the line. -/
theorem describe_underlines (s : SourceText) (d : Diagnostic) :
    let source := s.content.toList
    let start := s.locate d.span.start
    let stop := s.locate (max d.span.stop d.span.start)
    (stop.line = start.line → start.column ≤ stop.column) ∧
    (∀ m n, m ≤ n → (s.locate m).AtMost (s.locate n)) ∧
    (∀ m n, Boundary source m → Boundary source n → s.locate m = s.locate n → m = n) ∧
    (∃ above line ending below,
      IsLine source above line ending below ∧ Holds above line ending d.span.start) ∧
    ∀ above line ending below, IsLine source above line ending below →
      (d.span.Aligned source → byteLength above ≤ d.span.start →
        d.span.stop ≤ byteLength (above ++ line) →
        ∃ before piece after, line = before ++ (piece ++ after) ∧
          d.span = ⟨byteLength (above ++ before), byteLength (above ++ before ++ piece)⟩ ∧
          d.span.slice s.content = String.ofList piece ∧
          s.describe d = shown s.name d.message ⟨above.count '\n', before.length⟩ line
            (max 1 piece.length) ∧
          (piece ≠ [] → (line.drop before.length).take (max 1 piece.length) = piece)) ∧
      (Holds above line ending d.span.start →
        ¬ Holds above line ending (max d.span.stop d.span.start) →
        start.line = above.count '\n' ∧
        s.describe d = shown s.name d.message start line
          (max 1 (line.length - start.column))) := by
  intro source start stop
  refine ⟨?_, fun _ _ => s.locate_mono, fun _ _ => s.locate_inj, exists_isLine source _, ?_⟩
  · intro same
    rcases s.locate_mono (Nat.le_max_right d.span.stop d.span.start) with less | ⟨-, le⟩
    · exact absurd same.symm (Nat.ne_of_lt less)
    · exact le
  · intro above line ending below isLine
    refine ⟨?_, ?_⟩
    · intro aligned le ge
      obtain ⟨before, piece, after, parts, span, slice, described⟩ :=
        isLine.describe_inside s d aligned le ge
      refine ⟨before, piece, after, parts, span, slice, described, ?_⟩
      intro ne
      rw [parts, List.drop_left, Nat.max_eq_right (List.length_pos_iff.mpr ne), List.take_left]
    · intro holds beyond
      exact ⟨(isLine.line_locate_iff _).mpr holds, isLine.describe_across s d holds beyond⟩

/-- A text with carriage returns and characters of several bytes. -/
def wideText : SourceText := ⟨"<p>\r\n é→<x:y/>\r\n</p>", "page.html"⟩

theorem describe_underlines_wideText :
    wideText.describe ⟨⟨12, 15⟩, "Undefined directive x:y"⟩ =
        "page.html:2:5: error: Undefined directive x:y\n     é→<x:y/>\n        ^^^" ∧
      wideText.describe ⟨⟨8, 20⟩, "Cut short"⟩ =
        "page.html:2:3: error: Cut short\n     é→<x:y/>\n      ^^^^^^^" := by
  have isLine : IsLine wideText.content.toList "<p>\r\n".toList " é→<x:y/>".toList "\r\n".toList
      "</p>".toList :=
    ⟨by decide +kernel, Or.inr (by decide), by decide, Or.inr (Or.inl rfl)⟩
  refine ⟨?_, ?_⟩
  · have aligned : Span.Aligned ⟨12, 15⟩ wideText.content.toList :=
      ⟨by decide, ⟨"<p>\r\n é→<".toList, "x:y/>\r\n</p>".toList, by decide +kernel, by decide +kernel⟩,
        ⟨"<p>\r\n é→<x:y".toList, "/>\r\n</p>".toList, by decide +kernel, by decide +kernel⟩⟩
    obtain ⟨-, -, -, -, lines⟩ :=
      describe_underlines wideText ⟨⟨12, 15⟩, "Undefined directive x:y"⟩
    obtain ⟨before, piece, after, parts, span, -, described, -⟩ :=
      (lines _ _ _ _ isLine).1 aligned (by decide +kernel) (by decide +kernel)
    obtain ⟨start, stop⟩ := Span.mk.inj span
    rw [byteLength_append, ← start] at stop
    rw [byteLength_append] at start
    have size : byteLength "<p>\r\n".toList = 5 := by decide +kernel
    have divided : " é→<".toList ++ ("x:y".toList ++ "/>".toList) = before ++ (piece ++ after) :=
      parts
    obtain ⟨rfl, rest⟩ := append_inj_of_byteLength_eq divided (by
      have known : byteLength " é→<".toList = 7 := by decide +kernel
      omega)
    obtain ⟨rfl, -⟩ := append_inj_of_byteLength_eq rest (by
      have known : byteLength "x:y".toList = 3 := by decide +kernel
      omega)
    rw [described]
    decide +kernel
  · obtain ⟨-, -, -, -, lines⟩ := describe_underlines wideText ⟨⟨8, 20⟩, "Cut short"⟩
    obtain ⟨-, described⟩ :=
      (lines _ _ _ _ isLine).2 ⟨by decide +kernel, Or.inl (by decide +kernel)⟩ (by
        rintro ⟨-, short | none⟩
        · exact absurd short (by decide +kernel)
        · exact absurd none (by decide +kernel))
    rw [described]
    decide +kernel

end DirectiveTemplates.SourceText
