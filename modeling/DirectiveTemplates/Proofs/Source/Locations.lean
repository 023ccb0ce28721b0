import DirectiveTemplates.Proofs.Source.Spans

/-!
Places in a text. A place is reached by going through the characters that start before an offset,
and every character leads to a later place, on its line or on the next one.
-/
namespace DirectiveTemplates

open Text

namespace Location

def Before (l m : Location) : Prop := l.line < m.line ∨ l.line = m.line ∧ l.column < m.column

def AtMost (l m : Location) : Prop := l.line < m.line ∨ l.line = m.line ∧ l.column ≤ m.column

variable {l m n : Location}

theorem AtMost.refl (l : Location) : l.AtMost l := Or.inr ⟨rfl, Nat.le_refl _⟩

theorem Before.atMost (h : l.Before m) : l.AtMost m := by
  rcases h with above | ⟨same, left⟩
  · exact Or.inl above
  · exact Or.inr ⟨same, Nat.le_of_lt left⟩

theorem AtMost.line_le (h : l.AtMost m) : l.line ≤ m.line := by
  rcases h with above | ⟨same, -⟩
  · exact Nat.le_of_lt above
  · exact Nat.le_of_eq same

theorem Before.ne (h : l.Before m) : l ≠ m := by
  rintro rfl
  rcases h with above | ⟨-, left⟩
  · exact Nat.lt_irrefl _ above
  · exact Nat.lt_irrefl _ left

theorem Before.trans_atMost (h : l.Before m) (h' : m.AtMost n) : l.Before n := by
  unfold Before AtMost at *
  omega

theorem before_next (l : Location) (c : Char) : l.Before (l.next c) := by
  unfold next
  split
  · exact Or.inl (Nat.lt_succ_self _)
  · exact Or.inr ⟨rfl, Nat.lt_succ_self _⟩

theorem atMost_foldl_next (l : Location) (cs : List Char) : l.AtMost (cs.foldl next l) := by
  induction cs generalizing l with
  | nil => exact AtMost.refl l
  | cons c cs ih => exact ((before_next l c).trans_atMost (ih _)).atMost

theorem before_foldl_next (l : Location) {cs : List Char} (some : cs ≠ []) :
    l.Before (cs.foldl next l) := by
  cases cs with
  | nil => exact absurd rfl some
  | cons c cs => exact (before_next l c).trans_atMost (atMost_foldl_next _ cs)

def behind (cs : List Char) : Location := cs.foldl next ⟨0, 0⟩

theorem behind_append (cs ds : List Char) : behind (cs ++ ds) = ds.foldl next (behind cs) :=
  List.foldl_append

theorem atMost_behind {cs ds : List Char} (h : cs <+: ds) : (behind cs).AtMost (behind ds) := by
  obtain ⟨more, rfl⟩ := h
  rw [behind_append]
  exact atMost_foldl_next _ more

/-- Texts that go on from one another end at different places. -/
theorem behind_inj {cs ds : List Char} (h : cs <+: ds) (same : behind cs = behind ds) :
    cs = ds := by
  obtain ⟨more, rfl⟩ := h
  cases more with
  | nil => exact (List.append_nil cs).symm
  | cons c more =>
    rw [behind_append] at same
    exact absurd same (before_foldl_next _ (List.cons_ne_nil c more)).ne

theorem foldl_next_of_not_mem {cs : List Char} (inside : '\n' ∉ cs) (l : Location) :
    cs.foldl next l = ⟨l.line, l.column + cs.length⟩ := by
  induction cs generalizing l with
  | nil => rfl
  | cons c cs ih =>
    obtain ⟨other, later⟩ := not_or.mp (fun either => inside (List.mem_cons.mpr either))
    have here : l.next c = ⟨l.line, l.column + 1⟩ := if_neg (Ne.symm other)
    rw [List.foldl_cons, here, ih later, List.length_cons, Nat.add_assoc, Nat.add_comm 1]

/-- Lines are counted by the line feeds in front of them. -/
theorem line_foldl_next (cs : List Char) (l : Location) :
    (cs.foldl next l).line = l.line + cs.count '\n' := by
  induction cs generalizing l with
  | nil => rfl
  | cons c cs ih =>
    rw [List.foldl_cons, ih, next]
    split
    · rename_i feed
      rw [feed, List.count_cons_self]
      simp only
      omega
    · rename_i other
      rw [List.count_cons_of_ne other]

end Location

namespace Text

def startingWithin : Nat → List Char → List Char
  | 0, _ => []
  | _ + 1, [] => []
  | n + 1, c :: cs => c :: startingWithin (n + 1 - c.utf8Size) cs

theorem startingWithin_mono (cs : List Char) {m n : Nat} (le : m ≤ n) :
    startingWithin m cs <+: startingWithin n cs := by
  induction cs generalizing m n with
  | nil => cases m <;> cases n <;> exact List.nil_prefix
  | cons c cs ih =>
    cases m with
    | zero => exact List.nil_prefix
    | succ m =>
      cases n with
      | zero => omega
      | succ n =>
        rw [startingWithin, startingWithin, List.prefix_cons_inj]
        exact ih (by omega)

theorem startingWithin_append (cs ds : List Char) :
    startingWithin (byteLength cs) (cs ++ ds) = cs := by
  induction cs with
  | nil => cases ds <;> rfl
  | cons c cs ih =>
    have pos := c.utf8Size_pos
    obtain ⟨n, eq⟩ : ∃ n, byteLength (c :: cs) = n + 1 := ⟨byteLength (c :: cs) - 1, by
      rw [byteLength_cons]
      omega⟩
    have rest : n + 1 - c.utf8Size = byteLength cs := by
      rw [← eq, byteLength_cons]
      omega
    rw [eq, List.cons_append, startingWithin, rest, ih]

theorem startingWithin_starts (n : Nat) (cs : List Char) : startingWithin n cs <+: cs := by
  induction cs generalizing n with
  | nil => cases n <;> exact List.nil_prefix
  | cons c cs ih =>
    cases n with
    | zero => exact List.nil_prefix
    | succ n =>
      rw [startingWithin, List.prefix_cons_inj]
      exact ih _

end Text

theorem Location.advance_eq (l : Location) (n : Nat) (cs : List Char) :
    l.advance n cs = (startingWithin n cs).foldl next l := by
  induction cs generalizing l n with
  | nil => cases n <;> rfl
  | cons c cs ih =>
    cases n with
    | zero => rfl
    | succ n => exact ih _ _

namespace SourceText

variable (s : SourceText)

theorem locate_eq (n : Nat) : s.locate n = .behind (startingWithin n s.content.toList) :=
  Location.advance_eq _ _ _

theorem locate_of_boundary {before after : List Char} (eq : s.content.toList = before ++ after) :
    s.locate (byteLength before) = .behind before := by
  rw [locate_eq, eq, startingWithin_append]

/-- Later offsets stand at the same place or behind it. -/
theorem locate_mono {m n : Nat} (le : m ≤ n) : (s.locate m).AtMost (s.locate n) := by
  rw [locate_eq, locate_eq]
  exact Location.atMost_behind (startingWithin_mono _ le)

/-- Different places between characters have different lines or columns. -/
theorem locate_inj {m n : Nat} (hm : Boundary s.content.toList m)
    (hn : Boundary s.content.toList n) (same : s.locate m = s.locate n) : m = n := by
  obtain ⟨before, after, eq, rfl⟩ := hm
  obtain ⟨before', after', eq', rfl⟩ := hn
  rw [s.locate_of_boundary eq, s.locate_of_boundary eq'] at same
  have prefixes : before <+: before' ∨ before' <+: before :=
    List.prefix_or_prefix_of_prefix ⟨after, eq.symm⟩ ⟨after', eq'.symm⟩
  rcases prefixes with shorter | longer
  · rw [Location.behind_inj shorter same]
  · rw [Location.behind_inj longer same.symm]

end SourceText

end DirectiveTemplates
