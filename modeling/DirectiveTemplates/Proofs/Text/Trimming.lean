import DirectiveTemplates.Text.Chars
import Mathlib.Data.List.TakeWhile

/-!
Trimming. A text is its trimmed form with white space at its two ends, and white space that is put
there is taken off again.
-/
namespace DirectiveTemplates.Text

theorem trimStart_eq_append (cs : List Char) :
    trimStart cs = trim cs ++ ((trimStart cs).reverse.takeWhile isBlank).reverse := by
  rw [trim, trimEnd, ← List.reverse_append, List.takeWhile_append_dropWhile, List.reverse_reverse]

theorem exists_trim_append (cs : List Char) :
    ∃ behind, (∀ c ∈ behind, isBlank c = true) ∧
      cs = cs.takeWhile isBlank ++ (trim cs ++ behind) := by
  refine ⟨((trimStart cs).reverse.takeWhile isBlank).reverse, ?_, ?_⟩
  · exact fun c mem => List.mem_takeWhile_imp (List.mem_reverse.mp mem)
  · rw [← trimStart_eq_append]
    exact List.takeWhile_append_dropWhile.symm

theorem trim_subset (cs : List Char) : trim cs ⊆ cs := by
  intro c mem
  obtain ⟨behind, -, eq⟩ := exists_trim_append cs
  rw [eq]
  exact List.mem_append_right _ (List.mem_append_left _ mem)

theorem not_head_dropWhile (p : Char → Bool) (cs : List Char) :
    ∀ d ∈ (cs.dropWhile p).head?, p d = false := by
  intro d mem
  have head := List.head?_dropWhile_not p cs
  rw [Option.mem_def.mp mem] at head
  exact head

theorem not_isBlank_of_head?_trim {c : Char} {cs : List Char} (h : (trim cs).head? = some c) :
    isBlank c = false := by
  have first : (trimStart cs).head? = some c := by
    rw [trimStart_eq_append, List.head?_append, h, Option.some_or]
  exact not_head_dropWhile isBlank cs c first

theorem not_isBlank_of_getLast?_trim {c : Char} {cs : List Char}
    (h : (trim cs).getLast? = some c) : isBlank c = false := by
  rw [trim, trimEnd, List.getLast?_reverse] at h
  exact not_head_dropWhile isBlank _ c h

section blanks

variable {blanks : List Char} (all : ∀ c ∈ blanks, isBlank c = true) (cs : List Char)

include all

theorem trim_blanks_append : trim (blanks ++ cs) = trim cs := by
  rw [trim, trimStart, List.dropWhile_append_of_pos all]
  rfl

theorem trimEnd_append_blanks : trimEnd (cs ++ blanks) = trimEnd cs := by
  have backwards : ∀ c ∈ blanks.reverse, isBlank c = true :=
    fun c mem => all c (List.mem_reverse.mp mem)
  rw [trimEnd, List.reverse_append, List.dropWhile_append_of_pos backwards]
  rfl

theorem trim_append_blanks : trim (cs ++ blanks) = trim cs := by
  have nothing : blanks.dropWhile isBlank = [] := List.dropWhile_eq_nil_iff.mpr all
  rw [trim, trim, trimStart, trimStart, List.dropWhile_append, nothing]
  split
  · rename_i start
    rw [List.isEmpty_iff.mp start]
  · exact trimEnd_append_blanks all _

end blanks

end DirectiveTemplates.Text
