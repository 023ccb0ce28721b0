import DirectiveTemplates.Proofs.Text.Parts

/-!
What normalizing leaves of a name. Every dot separates two parts, and white space around a part is
cut off, so dots in the result stand apart and not at its ends.
-/
namespace DirectiveTemplates.QualifiedName

/-- A part of a name: not empty, without dots, and without white space at its ends. -/
structure IsPart (part : List Char) : Prop where
  ne : part ≠ []
  dotless : '.' ∉ part
  first : ∀ c ∈ part.head?, Text.isBlank c = false
  last : ∀ c ∈ part.getLast?, Text.isBlank c = false

theorem isPart_of_mem_filledParts {cs part : List Char} (mem : part ∈ filledParts cs) :
    IsPart part := by
  obtain ⟨trimmed, ne⟩ := List.mem_filter.mp mem
  obtain ⟨written, within, rfl⟩ := List.mem_map.mp trimmed
  refine ⟨by simpa using ne, ?_, ?_, ?_⟩
  · exact fun dotted => dot_not_mem_of_mem_splitOn within (Text.trim_subset written dotted)
  · intro c first
    exact Text.not_isBlank_of_head?_trim first
  · intro c last
    exact Text.not_isBlank_of_getLast?_trim last

/-- Dots stand apart, and the ends are neither dots nor white space. -/
structure Spaced (name : List Char) : Prop where
  apart : ¬ ['.', '.'] <:+: name
  first : ∀ c ∈ name.head?, c ≠ '.' ∧ Text.isBlank c = false
  last : ∀ c ∈ name.getLast?, c ≠ '.' ∧ Text.isBlank c = false

theorem IsPart.spaced {part : List Char} (h : IsPart part) : Spaced part := by
  have other {c : Char} (mem : c ∈ part) : c ≠ '.' := fun eq => h.dotless (eq ▸ mem)
  refine ⟨?_, ?_, ?_⟩
  · intro within
    exact h.dotless (within.subset (by simp))
  · intro c first
    exact ⟨other (List.mem_of_head? first), h.first c first⟩
  · intro c last
    exact ⟨other (List.mem_of_getLast? last), h.last c last⟩

/-- A dot between two parts has no other dot beside it. -/
theorem not_infix_between {part rest : List Char} (dotless : '.' ∉ part)
    (apart : ¬ ['.', '.'] <:+: rest) (first : ∀ c ∈ rest.head?, c ≠ '.') :
    ¬ ['.', '.'] <:+: part ++ '.' :: rest := by
  induction part with
  | nil =>
    rw [List.nil_append, List.infix_cons_iff]
    rintro (⟨behind, eq⟩ | within)
    · obtain ⟨-, rfl⟩ := List.cons_eq_cons.mp eq
      exact first '.' rfl rfl
    · exact apart within
  | cons c part ih =>
    obtain ⟨other, dotless⟩ := not_or.mp (fun either => dotless (List.mem_cons.mpr either))
    rw [List.cons_append, List.infix_cons_iff]
    rintro (⟨behind, eq⟩ | within)
    · exact other (List.cons_eq_cons.mp eq).1
    · exact ih dotless within

theorem IsPart.spaced_join {part rest : List Char} (h : IsPart part) (more : rest ≠ [])
    (spaced : Spaced rest) : Spaced (part ++ '.' :: rest) := by
  refine ⟨?_, ?_, ?_⟩
  · exact not_infix_between h.dotless spaced.apart fun c first => (spaced.first c first).1
  · intro c first
    obtain ⟨d, part, rfl⟩ := List.exists_cons_of_ne_nil h.ne
    exact h.spaced.first c first
  · intro c last
    obtain ⟨d, rest, rfl⟩ := List.exists_cons_of_ne_nil more
    apply spaced.last c
    simpa using last

theorem joinDots_ne_nil {parts : List (List Char)} (all : ∀ part ∈ parts, IsPart part)
    (some : parts ≠ []) : joinDots parts ≠ [] := by
  cases parts with
  | nil => exact absurd rfl some
  | cons part rest =>
    have ne := (all part List.mem_cons_self).ne
    cases rest <;> simp [joinDots, ne]

theorem spaced_joinDots {parts : List (List Char)} (all : ∀ part ∈ parts, IsPart part) :
    Spaced (joinDots parts) := by
  induction parts with
  | nil => exact ⟨by simp [joinDots], by simp [joinDots], by simp [joinDots]⟩
  | cons part rest ih =>
    have first := all part List.mem_cons_self
    have others : ∀ part ∈ rest, IsPart part := fun p mem => all p (List.mem_cons_of_mem _ mem)
    cases rest with
    | nil => exact first.spaced
    | cons next rest => exact first.spaced_join (joinDots_ne_nil others (by simp)) (ih others)

/-- No arrangement of dots and white space leaves two dots together or one at an end. -/
theorem spaced_normalize (name : String) : Spaced (normalize name).toList := by
  rw [normalize_eq, String.toList_ofList]
  exact spaced_joinDots fun part => isPart_of_mem_filledParts

end DirectiveTemplates.QualifiedName
