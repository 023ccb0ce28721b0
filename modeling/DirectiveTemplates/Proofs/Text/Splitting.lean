import DirectiveTemplates.Text.Chars

/-!
The parts between separators.
-/
namespace DirectiveTemplates.Text

variable {sep : Char}

theorem splitAll_ne_nil (sep : Char) (cs : List Char) : splitAll sep cs ≠ [] := by
  cases cs with
  | nil => exact List.cons_ne_nil _ _
  | cons c cs =>
    rw [splitAll]
    split
    · exact List.cons_ne_nil _ _
    · split <;> exact List.cons_ne_nil _ _

theorem splitAll_cons_self (sep : Char) (cs : List Char) :
    splitAll sep (sep :: cs) = [] :: splitAll sep cs := by
  rw [splitAll, if_pos rfl]

theorem exists_splitAll_cons {c : Char} (other : c ≠ sep) (cs : List Char) :
    ∃ part parts, splitAll sep cs = part :: parts ∧
      splitAll sep (c :: cs) = (c :: part) :: parts := by
  obtain ⟨part, parts, eq⟩ := List.exists_cons_of_ne_nil (splitAll_ne_nil sep cs)
  refine ⟨part, parts, eq, ?_⟩
  rw [splitAll, if_neg other, eq]

/-- A separator divides the parts before it from those behind it. -/
theorem splitAll_append (sep : Char) (cs ds : List Char) :
    splitAll sep (cs ++ sep :: ds) = splitAll sep cs ++ splitAll sep ds := by
  induction cs with
  | nil => exact splitAll_cons_self sep ds
  | cons c cs ih =>
    by_cases same : c = sep
    · subst same
      rw [List.cons_append, splitAll_cons_self, splitAll_cons_self, ih, List.cons_append]
    · obtain ⟨part, parts, eq, cons⟩ := exists_splitAll_cons same cs
      obtain ⟨part', parts', eq', cons'⟩ := exists_splitAll_cons same (cs ++ sep :: ds)
      rw [ih, eq, List.cons_append, List.cons_eq_cons] at eq'
      obtain ⟨rfl, rfl⟩ := eq'
      rw [List.cons_append, cons', cons, List.cons_append]

theorem prefix_of_splitAll {cs part : List Char} {parts : List (List Char)}
    (eq : splitAll sep cs = part :: parts) : part <+: cs := by
  induction cs generalizing part parts with
  | nil =>
    cases eq
    exact List.nil_prefix
  | cons c cs ih =>
    by_cases same : c = sep
    · rw [same, splitAll_cons_self] at eq
      cases eq
      exact List.nil_prefix
    · obtain ⟨first, others, eq', cons⟩ := exists_splitAll_cons same cs
      rw [cons] at eq
      cases eq
      exact List.prefix_cons_iff.mpr (Or.inr ⟨first, rfl, ih eq'⟩)

theorem infix_of_mem_splitAll {cs part : List Char} (mem : part ∈ splitAll sep cs) :
    part <:+: cs := by
  induction cs with
  | nil =>
    cases List.mem_singleton.mp mem
    exact List.infix_rfl
  | cons c cs ih =>
    have behind (later : part ∈ splitAll sep cs) : part <:+: c :: cs :=
      (ih later).trans (List.suffix_cons _ _).isInfix
    by_cases same : c = sep
    · rw [same, splitAll_cons_self] at mem
      rcases List.mem_cons.mp mem with rfl | mem
      · exact List.nil_infix
      · exact behind mem
    · obtain ⟨first, others, eq, cons⟩ := exists_splitAll_cons same cs
      rw [cons] at mem
      rcases List.mem_cons.mp mem with rfl | mem
      · exact (prefix_of_splitAll cons).isInfix
      · exact behind (eq ▸ List.mem_cons_of_mem first mem)

theorem splitAll_of_not_mem {cs : List Char} (absent : sep ∉ cs) : splitAll sep cs = [cs] := by
  induction cs with
  | nil => rfl
  | cons c cs ih =>
    obtain ⟨other, later⟩ := not_or.mp (fun either => absent (List.mem_cons.mpr either))
    obtain ⟨part, parts, eq, cons⟩ := exists_splitAll_cons (Ne.symm other) cs
    rw [ih later] at eq
    cases eq
    exact cons

theorem length_splitAll (sep : Char) (cs : List Char) :
    (splitAll sep cs).length = cs.count sep + 1 := by
  induction cs with
  | nil => rfl
  | cons c cs ih =>
    by_cases same : c = sep
    · subst same
      rw [splitAll_cons_self, List.length_cons, ih, List.count_cons_self]
    · obtain ⟨part, parts, eq, cons⟩ := exists_splitAll_cons same cs
      rw [eq] at ih
      rw [cons, List.count_cons_of_ne same]
      exact ih

end DirectiveTemplates.Text
