import DirectiveTemplates.Proofs.Text.Trimming
import DirectiveTemplates.Text.QualifiedName

/-!
The parts of a name. Cutting at the dots together with the white space around them leaves the same
parts as cutting at the bare dots and trimming every part afterwards.
-/
namespace DirectiveTemplates.QualifiedName

open Text

def trimmedParts (cs : List Char) : List (List Char) := (cs.splitOn '.').map trim

def filledParts (cs : List Char) : List (List Char) := (trimmedParts cs).filter (!·.isEmpty)

/-- A text is one part, or a part with a dot and a shorter text behind it. -/
theorem dots_induction {P : List Char → Prop} (single : ∀ part, '.' ∉ part → P part)
    (dotted : ∀ part rest, '.' ∉ part → P rest → P (part ++ '.' :: rest)) (cs : List Char) :
    P cs := by
  induction size : cs.length using Nat.strongRecOn generalizing cs with
  | ind n ih =>
    by_cases mem : '.' ∈ cs
    · obtain ⟨part, rest, rfl, dotless⟩ := List.eq_append_cons_of_mem mem
      have shorter : rest.length < n := by
        rw [← size, List.length_append, List.length_cons]
        omega
      exact dotted part rest dotless (ih rest.length shorter rest rfl)
    · exact single cs mem

theorem dot_not_mem_of_mem_splitOn {cs part : List Char} (mem : part ∈ cs.splitOn '.') :
    '.' ∉ part := by
  induction cs using dots_induction with
  | single whole dotless =>
    rw [List.splitOn_eq_singleton dotless] at mem
    rwa [List.mem_singleton.mp mem]
  | dotted first rest dotless ih =>
    rw [List.splitOn_append_cons_self_of_not_mem dotless] at mem
    rcases List.mem_cons.mp mem with rfl | later
    · exact dotless
    · exact ih later

theorem trimmedParts_of_not_mem {cs : List Char} (dotless : '.' ∉ cs) :
    trimmedParts cs = [trim cs] := by
  rw [trimmedParts, List.splitOn_eq_singleton dotless, List.map_singleton]

theorem trimmedParts_append (cs ds : List Char) :
    trimmedParts (cs ++ '.' :: ds) = trimmedParts cs ++ trimmedParts ds := by
  rw [trimmedParts, List.splitOn_append_cons_self, List.map_append]
  rfl

theorem filledParts_of_not_mem {cs : List Char} (dotless : '.' ∉ cs) :
    filledParts cs = [trim cs].filter (!·.isEmpty) := by
  rw [filledParts, trimmedParts_of_not_mem dotless]

theorem filledParts_append (cs ds : List Char) :
    filledParts (cs ++ '.' :: ds) = filledParts cs ++ filledParts ds := by
  rw [filledParts, trimmedParts_append, List.filter_append]
  rfl

section blanks

variable {blanks : List Char} (all : ∀ c ∈ blanks, isBlank c = true)

include all

theorem dot_not_mem_of_blank : '.' ∉ blanks := by
  intro mem
  exact absurd (all '.' mem) (by decide)

theorem trimmedParts_blanks_append (cs : List Char) :
    trimmedParts (blanks ++ cs) = trimmedParts cs := by
  have alone (part : List Char) (dotless : '.' ∉ part) :
      trimmedParts (blanks ++ part) = trimmedParts part := by
    have both : '.' ∉ blanks ++ part := by simp [dot_not_mem_of_blank all, dotless]
    rw [trimmedParts_of_not_mem both, trimmedParts_of_not_mem dotless, trim_blanks_append all]
  induction cs using dots_induction with
  | single part dotless => exact alone part dotless
  | dotted part rest dotless ih =>
    rw [← List.append_assoc, trimmedParts_append, trimmedParts_append, alone part dotless]

theorem trimmedParts_append_blanks (cs : List Char) :
    trimmedParts (cs ++ blanks) = trimmedParts cs := by
  induction cs using dots_induction with
  | single part dotless =>
    have both : '.' ∉ part ++ blanks := by simp [dot_not_mem_of_blank all, dotless]
    rw [trimmedParts_of_not_mem both, trimmedParts_of_not_mem dotless, trim_append_blanks all]
  | dotted part rest dotless ih =>
    rw [List.append_assoc, List.cons_append, trimmedParts_append, trimmedParts_append, ih]

end blanks

theorem trimmedParts_trim (cs : List Char) : trimmedParts (trim cs) = trimmedParts cs := by
  have before : ∀ c ∈ cs.takeWhile isBlank, isBlank c = true :=
    fun c mem => List.mem_takeWhile_imp mem
  obtain ⟨behind, blank, eq⟩ := exists_trim_append cs
  conv => rhs; rw [eq]
  rw [trimmedParts_blanks_append before, trimmedParts_append_blanks blank]

/-! Separators that take the white space around their dot. -/

theorem exists_of_afterDot? {cs rest : List Char} (h : afterDot? cs = some rest) :
    ∃ before after, (∀ c ∈ before, isBlank c = true) ∧ (∀ c ∈ after, isBlank c = true) ∧
      cs = before ++ '.' :: (after ++ rest) := by
  unfold afterDot? at h
  split at h
  · rename_i behind eq
    cases h
    refine ⟨cs.takeWhile isBlank, behind.takeWhile isBlank, ?_, ?_, ?_⟩
    · exact fun c mem => List.mem_takeWhile_imp mem
    · exact fun c mem => List.mem_takeWhile_imp mem
    · rw [List.takeWhile_append_dropWhile, ← eq, List.takeWhile_append_dropWhile]
  · cases h

/-- A dot at the start of a text is a separator. -/
theorem ne_dot_of_afterDot? {c : Char} {cs : List Char} (h : afterDot? (c :: cs) = none) :
    c ≠ '.' := by
  rintro rfl
  have visible : isBlank '.' = false := rfl
  simp [afterDot?, visible] at h

/-- A character goes in front of the first part. -/
def consFirst (c : Char) : List (List Char) → List (List Char)
  | [] => [[c]]
  | part :: parts => (c :: part) :: parts

theorem partsWithin_cons (steps : Nat) (c : Char) (cs : List Char) :
    partsWithin (steps + 1) (c :: cs) = match afterDot? (c :: cs) with
      | some rest => [] :: partsWithin steps rest
      | none => consFirst c (partsWithin steps cs) := by
  -- making the equation lemmas of the definition opens the class of blank characters, this does not
  exact rfl

/-- Two ways to cut a text that agree up to white space. In the first part it only stands at the
end, so the two stay alike when a character goes in front of the text. -/
inductive CutAlike : List (List Char) → List (List Char) → Prop
  | intro (part : List Char) {behind : List Char} {ps qs : List (List Char)}
      (blank : ∀ c ∈ behind, isBlank c = true) (others : ps.map trim = qs.map trim) :
      CutAlike (part :: ps) ((part ++ behind) :: qs)

theorem CutAlike.consFirst {ps qs : List (List Char)} (h : CutAlike ps qs) (c : Char) :
    CutAlike (consFirst c ps) (qs.modifyHead (List.cons c)) := by
  obtain ⟨part, blank, others⟩ := h
  exact CutAlike.intro (c :: part) blank others

theorem CutAlike.map_trim {ps qs : List (List Char)} (h : CutAlike ps qs) :
    ps.map trim = qs.map trim := by
  obtain ⟨part, blank, others⟩ := h
  rw [List.map_cons, List.map_cons, trim_append_blanks blank, others]

theorem cutAlike_partsWithin {steps : Nat} {cs : List Char} (enough : cs.length < steps) :
    CutAlike (partsWithin steps cs) (cs.splitOn '.') := by
  induction steps generalizing cs with
  | zero => omega
  | succ steps ih =>
    cases cs with
    | nil => exact CutAlike.intro [] (List.forall_mem_nil _) rfl
    | cons c cs =>
      rw [List.length_cons] at enough
      cases separated : afterDot? (c :: cs) with
      | some rest =>
        obtain ⟨before, after, blank, blank', eq⟩ := exists_of_afterDot? separated
        have size := congrArg List.length eq
        simp only [List.length_append, List.length_cons] at size
        have others : (partsWithin steps rest).map trim = ((after ++ rest).splitOn '.').map trim :=
          calc (partsWithin steps rest).map trim
            _ = trimmedParts rest := (ih (by omega)).map_trim
            _ = trimmedParts (after ++ rest) := (trimmedParts_blanks_append blank' rest).symm
        rw [partsWithin_cons, separated, eq,
          List.splitOn_append_cons_self_of_not_mem (dot_not_mem_of_blank blank)]
        exact CutAlike.intro [] blank others
      | none =>
        have visible := ne_dot_of_afterDot? separated
        rw [partsWithin_cons, separated, List.splitOn_cons_eq_if_modifyHead,
          if_neg (by simpa using visible)]
        exact (ih (by omega)).consFirst c

theorem map_trim_parts (cs : List Char) : (parts cs).map trim = trimmedParts cs :=
  (cutAlike_partsWithin (Nat.lt_succ_self _)).map_trim

theorem joinDots_eq_intercalate (ps : List (List Char)) : joinDots ps = ['.'].intercalate ps := by
  induction ps with
  | nil => rfl
  | cons part rest ih =>
    cases rest with
    | nil => simp [joinDots]
    | cons next rest => simp [joinDots, ih]

theorem normalize_eq (name : String) :
    normalize name = String.ofList (joinDots (filledParts name.toList)) := by
  rw [normalize, map_trim_parts, trimmedParts_trim]
  rfl

example : normalize "\u00a0.a . \t.b c. " = "a.b c" := by decide

end DirectiveTemplates.QualifiedName
