import DirectiveTemplates.Json.Document
import Mathlib.Algebra.Group.Int.Defs

/-!
Literals that read back: every string, and every integer of 64 bits, whatever stands behind them.
-/
namespace DirectiveTemplates.Json

/-! Strings. Every character is escaped into something that is read as this character. -/

theorem hexValue_hexDigit {n : Nat} (lt : n < 16) : hexValue (hexDigit n) = some n := by
  have all : ∀ n < 16, hexValue (hexDigit n) = some n := by decide
  exact all n lt

theorem charOf?_toNat (c : Char) : charOf? c.toNat = some c := by
  have valid : c.toNat.isValidChar := c.valid
  rw [charOf?, if_pos valid, Char.ofNat_toNat]

theorem readChar_control {c : Char} (control : c.toNat < 0x20) (rest : List Char) :
    readChar ('\\' :: 'u' :: '0' :: '0' :: hexDigit (c.toNat / 16) :: hexDigit (c.toNat % 16) ::
      rest) = some (some c, rest) := by
  have high := hexValue_hexDigit (n := c.toNat / 16) (by omega)
  have low := hexValue_hexDigit (n := c.toNat % 16) (by omega)
  have zero : hexValue '0' = some 0 := by decide
  have unit : c.toNat / 16 * 16 + c.toNat % 16 = c.toNat := by omega
  have single : isHighSurrogate c.toNat = false := by
    simp only [isHighSurrogate, Bool.and_eq_false_iff, decide_eq_false_iff_not]
    omega
  simp [readChar, readUnit, zero, high, low, unit, pairUnits, single, charOf?_toNat]

theorem readChar_escape (c : Char) (rest : List Char) :
    readChar (escape c ++ rest) = some (some c, rest) := by
  unfold escape
  split
  · rename_i eq
    rw [eq]
    rfl
  split
  · rename_i eq
    rw [eq]
    rfl
  split
  · rename_i eq
    rw [eq]
    rfl
  split
  · rename_i eq
    rw [eq]
    rfl
  split
  · rename_i eq
    rw [eq]
    rfl
  split
  · rename_i eq
    rw [eq]
    rfl
  split
  · rename_i eq
    rw [eq]
    rfl
  split
  · rename_i control
    exact readChar_control control rest
  · rename_i quote backslash _ _ _ _ _ visible
    simp [readChar, quote, backslash, visible]

theorem exists_escape (c : Char) : ∃ d ds, escape c = d :: ds ∧ d ≠ '"' := by
  unfold escape
  repeat' split
  all_goals first
    | exact ⟨_, _, rfl, by decide⟩
    | exact ⟨_, _, rfl, by assumption⟩

theorem readCharsWithin_escape (c : Char) (steps : Nat) (rest : List Char) :
    readCharsWithin (steps + 1) (escape c ++ rest) =
      (readCharsWithin steps rest).map fun (more, rest) => (more.map (c :: ·), rest) := by
  obtain ⟨d, ds, eq, other⟩ := exists_escape c
  have read := readChar_escape c rest
  rw [eq, List.cons_append] at read ⊢
  rw [readCharsWithin, read]
  · simp only [Option.bind_eq_bind, Option.bind_some]
    cases readCharsWithin steps rest <;> rfl
  · intro rest' same
    exact other (List.cons.inj same).1

theorem readCharsWithin_flatMap (cs : List Char) {steps : Nat} (enough : cs.length < steps)
    (rest : List Char) :
    readCharsWithin steps (cs.flatMap escape ++ '"' :: rest) = some (some cs, rest) := by
  induction cs generalizing steps with
  | nil =>
    obtain ⟨steps, rfl⟩ : ∃ n, steps = n + 1 := ⟨steps - 1, by simp at enough; omega⟩
    rfl
  | cons c cs ih =>
    simp only [List.length_cons] at enough
    obtain ⟨steps, rfl⟩ : ∃ n, steps = n + 1 := ⟨steps - 1, by omega⟩
    rw [List.flatMap_cons, List.append_assoc, readCharsWithin_escape, ih (by omega)]
    rfl

theorem length_le_flatMap_escape (cs : List Char) : cs.length ≤ (cs.flatMap escape).length := by
  induction cs with
  | nil => simp
  | cons c cs ih =>
    obtain ⟨d, ds, eq, -⟩ := exists_escape c
    rw [List.flatMap_cons, eq]
    simp only [List.length_cons, List.cons_append, List.length_append]
    omega

theorem readString_flatMap (s : String) (rest : List Char) :
    readString (s.toList.flatMap escape ++ '"' :: rest) = some (some s, rest) := by
  have long := length_le_flatMap_escape s.toList
  rw [readString, readCharsWithin_flatMap _ (by simp only [List.length_append]; omega)]
  simp

/-! Integers. -/

/-- A character that would belong to a number in front of it. -/
def continuesNumber (c : Char) : Bool := isDigit c || c = '.' || c = 'e' || c = 'E'

/-- A text that is not read as the rest of a number in front of it. -/
def NumberEnds (rest : List Char) : Prop := ∀ c ∈ rest.head?, continuesNumber c = false

theorem isDigit_of_mem_toDigits {n : Nat} {c : Char} (mem : c ∈ Nat.toDigits 10 n) :
    isDigit c = true := by
  have digit := Nat.isDigit_of_mem_toDigits (by decide) (by decide) mem
  simpa [isDigit, Char.isDigit, Char.le_def] using digit

theorem natOfDigits_toDigits (n : Nat) : natOfDigits (Nat.toDigits 10 n) = n := by
  have value : natOfDigits (Nat.toDigits 10 n) = Nat.ofDigitChars 10 (Nat.toDigits 10 n) 0 := by
    rw [natOfDigits, Nat.ofDigitChars_eq_foldl]
    simp only [Nat.mul_comm, digitValue]
  rw [value, Nat.ofDigitChars_toDigits (by decide) (by decide)]

theorem head_toDigits (n : Nat) :
    ∃ d ds, Nat.toDigits 10 n = d :: ds ∧ (d = '0' → ds = []) ∧ isDigit d = true := by
  cases eq : Nat.toDigits 10 n with
  | nil => exact absurd eq Nat.toDigits_ne_nil
  | cons d ds =>
    have digit : isDigit d = true := isDigit_of_mem_toDigits (by rw [eq]; exact List.mem_cons_self)
    refine ⟨d, ds, rfl, ?_, digit⟩
    induction n using Nat.strongRecOn generalizing d ds with
    | ind n ih =>
      rcases Nat.lt_or_ge n 10 with small | large
      · rw [Nat.toDigits_of_lt_base small] at eq
        intro _
        exact (List.cons.inj eq).2.symm
      · rw [Nat.toDigits_of_base_le (by decide) large] at eq
        intro zero
        cases before : Nat.toDigits 10 (n / 10) with
        | nil => exact absurd before Nat.toDigits_ne_nil
        | cons d' ds' =>
          rw [before, List.cons_append, List.cons.injEq] at eq
          obtain ⟨rfl, rest⟩ := eq
          -- a shorter number with a leading zero is zero, and this one has more digits
          have none := ih (n / 10) (by omega) d' ds' before digit zero
          have value := natOfDigits_toDigits (n / 10)
          rw [before, none, zero] at value
          have : n / 10 = 0 := by simpa [natOfDigits, digitValue] using value.symm
          omega

theorem takeWhile_dropWhile_digits (ds : List Char) (digits : ∀ d ∈ ds, isDigit d = true)
    {rest : List Char} (ends : NumberEnds rest) :
    (ds ++ rest).takeWhile isDigit = ds ∧ (ds ++ rest).dropWhile isDigit = rest := by
  induction ds with
  | nil =>
    cases rest with
    | nil => exact ⟨rfl, rfl⟩
    | cons c cs =>
      have other : isDigit c = false := by
        have := ends c (by simp)
        simp only [continuesNumber, Bool.or_eq_false_iff] at this
        exact this.1.1.1
      simp [other]
  | cons d ds ih =>
    obtain ⟨first, others⟩ := List.forall_mem_cons.mp digits
    simpa [first] using ih others

theorem readWhole_toDigits (n : Nat) {rest : List Char} (ends : NumberEnds rest) :
    readWhole (Nat.toDigits 10 n ++ rest) = some (Nat.toDigits 10 n, rest) := by
  obtain ⟨d, ds, eq, leading, -⟩ := head_toDigits n
  by_cases zero : d = '0'
  · rw [eq, leading zero, zero]
    rfl
  · have digits := takeWhile_dropWhile_digits (Nat.toDigits 10 n)
      (fun _ => isDigit_of_mem_toDigits) ends
    rw [eq, List.cons_append] at digits
    have several : readWhole (d :: (ds ++ rest)) = readDigits (d :: (ds ++ rest)) := by
      simp [readWhole, zero]
    rw [eq, List.cons_append, several, readDigits, digits.1, digits.2]

theorem readFraction_of_ends {rest : List Char} (ends : NumberEnds rest) :
    readFraction rest = some (none, rest) := by
  unfold readFraction
  split
  · exact absurd (ends '.' (by simp)) (by decide)
  · rfl

theorem readExponent_of_ends {rest : List Char} (ends : NumberEnds rest) :
    readExponent rest = some (none, rest) := by
  cases rest with
  | nil => rfl
  | cons c cs =>
    have other := ends c (by simp)
    simp only [continuesNumber, Bool.or_eq_false_iff, decide_eq_false_iff_not] at other
    simp [readExponent, other]

def IsWord (n : Int) : Prop := -(2 ^ 63) ≤ n ∧ n < 2 ^ 64

theorem readNumberText_write (n : Int) {rest : List Char} (ends : NumberEnds rest) :
    readNumberText ((Number.integer n).write ++ rest) =
      some (⟨decide (n < 0), Nat.toDigits 10 n.natAbs, none, none⟩, rest) := by
  have unsigned : readWhole (Nat.toDigits 10 n.natAbs ++ rest) = _ :=
    readWhole_toDigits n.natAbs ends
  have fraction := readFraction_of_ends ends
  have exponent := readExponent_of_ends ends
  by_cases negative : n < 0
  · simp [Number.write, negative, readNumberText, unsigned, fraction, exponent]
  · obtain ⟨d, ds, eq, -, digit⟩ := head_toDigits n.natAbs
    have sign : d ≠ '-' := by
      rintro rfl
      exact absurd digit (by decide)
    rw [eq] at unsigned
    rw [List.cons_append] at unsigned
    simp [Number.write, negative, eq, readNumberText, sign, unsigned, fraction, exponent]

theorem number_toDigits {n : Int} (word : IsWord n) :
    NumberText.number ⟨decide (n < 0), Nat.toDigits 10 n.natAbs, none, none⟩ =
      some (.integer n) := by
  obtain ⟨least, greatest⟩ := word
  have low : twoPow 63 = 2 ^ 63 := rfl
  have high : significandLimit = 2 ^ 64 - 1 := rfl
  have integer : NumberText.integer ⟨decide (n < 0), Nat.toDigits 10 n.natAbs, none, none⟩ =
      some n := by
    simp only [NumberText.integer, natOfDigits_toDigits, Option.isSome_none, Bool.false_eq_true,
      or_self, if_false, low, high]
    by_cases negative : n < 0
    · rw [if_pos (by simpa using negative), if_pos (by omega)]
      congr 1
      omega
    · rw [if_neg (by simpa using negative), if_pos (by omega)]
      congr 1
      omega
  rw [NumberText.number, integer]

end DirectiveTemplates.Json
