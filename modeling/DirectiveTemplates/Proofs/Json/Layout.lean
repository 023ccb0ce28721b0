import DirectiveTemplates.Proofs.Json.Literals

/-!
Written values. The compact and the pretty form of a value differ in nothing but white space, and
both read back as the document of the value.
-/
namespace DirectiveTemplates.Json

/-- The white space in a written value. -/
structure Layout where
  gap : Nat → List Char
  pad : List Char
  gap_isSpace : ∀ level, ∀ c ∈ gap level, isSpace c = true
  pad_isSpace : ∀ c ∈ pad, isSpace c = true

namespace Layout

def tight : Layout := ⟨fun _ => [], [], by simp, by simp⟩

def lines : Layout where
  gap := Value.newLine
  pad := [' ']
  gap_isSpace := by
    intro level c mem
    rcases List.mem_cons.mp mem with rfl | mem
    · rfl
    · rw [List.eq_of_mem_replicate mem]
      rfl
  pad_isSpace := by simp [isSpace]

end Layout

namespace Value

mutual

def written (l : Layout) (level : Nat) : Value → List Char
  | .array (x :: xs) =>
    '[' :: l.gap (level + 1) ++ x.written l (level + 1) ++ writtenItems l level xs
  | .object ((k, x) :: ms) =>
    '{' :: l.gap (level + 1) ++ writeString k ++ ':' :: l.pad ++ x.written l (level + 1) ++
      writtenMembers l level ms
  | .array [] => ['[', ']']
  | .object [] => ['{', '}']
  | .null => ['n', 'u', 'l', 'l']
  | .bool true => ['t', 'r', 'u', 'e']
  | .bool false => ['f', 'a', 'l', 's', 'e']
  | .number n => n.write
  | .string s => writeString s

/-- The items behind the first one, and the closing bracket. -/
def writtenItems (l : Layout) (level : Nat) : List Value → List Char
  | [] => l.gap level ++ [']']
  | x :: xs => ',' :: l.gap (level + 1) ++ x.written l (level + 1) ++ writtenItems l level xs

/-- The members behind the first one, and the closing brace. -/
def writtenMembers (l : Layout) (level : Nat) : List (String × Value) → List Char
  | [] => l.gap level ++ ['}']
  | (k, x) :: ms =>
    ',' :: l.gap (level + 1) ++ writeString k ++ ':' :: l.pad ++ x.written l (level + 1) ++
      writtenMembers l level ms

end

mutual

theorem compact_eq (level : Nat) : (v : Value) → v.compact = v.written .tight level
  | .array (x :: xs) => by
    rw [compact, written, compact_eq (level + 1) x, compactItems_eq level xs]
    rfl
  | .object ((k, x) :: ms) => by
    rw [compact, written, compact_eq (level + 1) x, compactMembers_eq level ms]
    simp [Layout.tight]
  | .array [] | .object [] | .null | .bool true | .bool false | .number _ | .string _ => by
    simp only [compact, written]

theorem compactItems_eq (level : Nat) :
    (xs : List Value) → compactItems xs = writtenItems .tight level xs
  | [] => rfl
  | x :: xs => by
    rw [compactItems, writtenItems, compact_eq (level + 1) x, compactItems_eq level xs]
    rfl

theorem compactMembers_eq (level : Nat) :
    (ms : List (String × Value)) → compactMembers ms = writtenMembers .tight level ms
  | [] => rfl
  | (k, x) :: ms => by
    rw [compactMembers, writtenMembers, compact_eq (level + 1) x, compactMembers_eq level ms]
    simp [Layout.tight]

end

mutual

theorem pretty_eq (level : Nat) : (v : Value) → v.pretty level = v.written .lines level
  | .array (x :: xs) => by
    rw [pretty, written, pretty_eq (level + 1) x, prettyItems_eq level xs]
    rfl
  | .object ((k, x) :: ms) => by
    rw [pretty, written, pretty_eq (level + 1) x, prettyMembers_eq level ms]
    simp [Layout.lines]
  | .array [] | .object [] | .null | .bool true | .bool false | .number _ | .string _ => by
    simp only [pretty, written]

theorem prettyItems_eq (level : Nat) :
    (xs : List Value) → prettyItems level xs = writtenItems .lines level xs
  | [] => rfl
  | x :: xs => by
    rw [prettyItems, writtenItems, pretty_eq (level + 1) x, prettyItems_eq level xs]
    rfl

theorem prettyMembers_eq (level : Nat) :
    (ms : List (String × Value)) → prettyMembers level ms = writtenMembers .lines level ms
  | [] => rfl
  | (k, x) :: ms => by
    rw [prettyMembers, writtenMembers, pretty_eq (level + 1) x, prettyMembers_eq level ms]
    simp [Layout.lines]

end

mutual

/-- Every number of a value is an integer of 64 bits. -/
def Integral : Value → Prop
  | .number (.integer n) => IsWord n
  | .number (.real _) => False
  | .array xs => IntegralAll xs
  | .object ms => IntegralMembers ms
  | .null | .bool _ | .string _ => True

def IntegralAll : List Value → Prop
  | [] => True
  | x :: xs => x.Integral ∧ IntegralAll xs

def IntegralMembers : List (String × Value) → Prop
  | [] => True
  | m :: ms => m.2.Integral ∧ IntegralMembers ms

end

theorem integralAll_iff {xs : List Value} : IntegralAll xs ↔ ∀ x ∈ xs, x.Integral := by
  induction xs with
  | nil => simp [IntegralAll]
  | cons x xs ih => rw [IntegralAll, ih, List.forall_mem_cons]

theorem integralMembers_iff {ms : List (String × Value)} :
    IntegralMembers ms ↔ ∀ m ∈ ms, m.2.Integral := by
  induction ms with
  | nil => simp [IntegralMembers]
  | cons m ms ih => rw [IntegralMembers, ih, List.forall_mem_cons]

end Value

namespace Document

mutual

def ofValue : Value → Document
  | .null => .null
  | .bool b => .bool b
  | .number n => .number (some n)
  | .string s => .string (some s)
  | .array xs => .array (ofValues xs)
  | .object ms => .object (ofMembers ms)

def ofValues : List Value → List Document
  | [] => []
  | x :: xs => ofValue x :: ofValues xs

def ofMembers : List (String × Value) → List (Option String × Document)
  | [] => []
  | m :: ms => (some m.1, ofValue m.2) :: ofMembers ms

end

end Document

/-! Reading. A value is read whole where what stands behind it does not go on with a number. -/

theorem skipSpace_append {ws : List Char} (blank : ∀ c ∈ ws, isSpace c = true) (cs : List Char) :
    skipSpace (ws ++ cs) = skipSpace cs := by
  induction ws with
  | nil => rfl
  | cons w ws ih =>
    obtain ⟨first, others⟩ := List.forall_mem_cons.mp blank
    rw [List.cons_append, skipSpace, List.dropWhile_cons, if_pos first]
    exact ih others

theorem skipSpace_cons {c : Char} (other : isSpace c = false) (cs : List Char) :
    skipSpace (c :: cs) = c :: cs := by
  rw [skipSpace, List.dropWhile_cons, if_neg (by simp [other])]

theorem numberEnds_cons {c : Char} (other : continuesNumber c = false) (cs : List Char) :
    NumberEnds (c :: cs) := by
  intro d mem
  cases mem
  exact other

theorem numberEnds_append {ws : List Char} (blank : ∀ c ∈ ws, isSpace c = true) {cs : List Char}
    (ends : NumberEnds cs) : NumberEnds (ws ++ cs) := by
  cases ws with
  | nil => exact ends
  | cons w ws =>
    apply numberEnds_cons
    have space := blank w List.mem_cons_self
    simp only [isSpace, Bool.or_eq_true, decide_eq_true_eq] at space
    rcases space with ((rfl | rfl) | rfl) | rfl <;> rfl

/-- Behind an item of an array comes no number. -/
theorem numberEnds_items (l : Layout) (level : Nat) (xs : List Value) (rest : List Char) :
    NumberEnds (Value.writtenItems l level xs ++ rest) := by
  cases xs with
  | nil =>
    rw [Value.writtenItems, List.append_assoc]
    exact numberEnds_append (l.gap_isSpace level) (numberEnds_cons (by decide) _)
  | cons x xs =>
    simp only [Value.writtenItems, List.cons_append]
    exact numberEnds_cons (by decide) _

theorem numberEnds_members (l : Layout) (level : Nat) (ms : List (String × Value))
    (rest : List Char) : NumberEnds (Value.writtenMembers l level ms ++ rest) := by
  cases ms with
  | nil =>
    rw [Value.writtenMembers, List.append_assoc]
    exact numberEnds_append (l.gap_isSpace level) (numberEnds_cons (by decide) _)
  | cons m ms =>
    obtain ⟨k, x⟩ := m
    simp only [Value.writtenMembers, List.cons_append]
    exact numberEnds_cons (by decide) _

theorem exists_write_integer (n : Int) :
    ∃ c cs, (Number.integer n).write = c :: cs ∧ (c = '-' ∨ isDigit c = true) := by
  by_cases negative : n < 0
  · exact ⟨'-', Nat.toDigits 10 n.natAbs, by simp [Number.write, negative], Or.inl rfl⟩
  · obtain ⟨d, ds, eq, -, digit⟩ := head_toDigits n.natAbs
    exact ⟨d, ds, by simp [Number.write, negative, eq], Or.inr digit⟩

namespace Document

theorem readWithin_number {c : Char} (first : c = '-' ∨ isDigit c = true) (steps : Nat)
    (cs : List Char) : readWithin (steps + 1) (c :: cs) =
      (readNumberText (c :: cs)).map fun (t, rest) => (.number t.number, rest) := by
  have apart (d : Char) (other : d ≠ '-' ∧ isDigit d = false) : c ≠ d := by
    rintro rfl
    rcases first with sign | digit
    · exact other.1 sign
    · rw [other.2] at digit
      cases digit
  have visible : isSpace c = false := by
    simp [isSpace, apart ' ' (by decide), apart '\n' (by decide), apart '\r' (by decide),
      apart '\t' (by decide)]
  rw [readWithin, skipSpace_cons visible]
  simp [apart 'n' (by decide), apart 't' (by decide), apart 'f' (by decide),
    apart '"' (by decide), apart '[' (by decide), apart '{' (by decide)]

theorem readWithin_items {c : Char} {cs rest : List Char} (more : skipSpace rest = c :: cs)
    (other : c ≠ ']') (steps : Nat) : readWithin (steps + 1) ('[' :: rest) =
      (readItems steps (c :: cs)).map fun (xs, rest) => (.array xs, rest) := by
  simp [readWithin, skipSpace_cons (show isSpace '[' = false from rfl), more, other]

theorem readWithin_members {c : Char} {cs rest : List Char} (more : skipSpace rest = c :: cs)
    (other : c ≠ '}') (steps : Nat) : readWithin (steps + 1) ('{' :: rest) =
      (readMembers steps (c :: cs)).map fun (ms, rest) => (.object ms, rest) := by
  simp [readWithin, skipSpace_cons (show isSpace '{' = false from rfl), more, other]

theorem readWithin_append {ws : List Char} (blank : ∀ c ∈ ws, isSpace c = true) (steps : Nat)
    (cs : List Char) : readWithin steps (ws ++ cs) = readWithin steps cs := by
  cases steps with
  | zero => rfl
  | succ steps => rw [readWithin, readWithin, skipSpace_append blank]

theorem readItems_append {ws : List Char} (blank : ∀ c ∈ ws, isSpace c = true) (steps : Nat)
    (cs : List Char) : readItems steps (ws ++ cs) = readItems steps cs := by
  cases steps with
  | zero => rfl
  | succ steps => rw [readItems, readItems, readWithin_append blank]

theorem readMembers_append {ws : List Char} (blank : ∀ c ∈ ws, isSpace c = true) (steps : Nat)
    (cs : List Char) : readMembers steps (ws ++ cs) = readMembers steps cs := by
  cases steps with
  | zero => rfl
  | succ steps => rw [readMembers, readMembers, skipSpace_append blank]

/-- A member whose value is read, by what stands behind it. -/
theorem readMembers_key {steps : Nat} {cs rest : List Char} {x : Document} (k : String)
    (value : readWithin steps cs = some (x, rest)) :
    readMembers (steps + 1) (writeString k ++ ':' :: cs) = match skipSpace rest with
      | '}' :: rest => some ([(some k, x)], rest)
      | ',' :: rest =>
        (readMembers steps rest).map fun (ms, rest) => ((some k, x) :: ms, rest)
      | _ => none := by
  have quote : skipSpace (writeString k ++ ':' :: cs) =
      '"' :: (k.toList.flatMap escape ++ '"' :: ':' :: cs) := by
    simp [writeString, skipSpace, isSpace]
  have colon : skipSpace (':' :: cs) = ':' :: cs := skipSpace_cons rfl cs
  have read := readMembers.eq_2 (writeString k ++ ':' :: cs) steps
  simp only [quote, readString_flatMap, colon, value, Option.bind_eq_bind, Option.bind_some] at read
  exact read

/-- A written value starts with a visible character that is no closing bracket. -/
theorem exists_written (l : Layout) (level : Nat) (v : Value) (integral : v.Integral) :
    ∃ c cs, v.written l level = c :: cs ∧ isSpace c = false ∧ c ≠ ']' := by
  cases v with
  | null => exact ⟨_, _, rfl, by decide⟩
  | bool b => cases b <;> exact ⟨_, _, rfl, by decide⟩
  | string s => exact ⟨_, _, rfl, by decide⟩
  | array xs => cases xs <;> exact ⟨_, _, rfl, by decide⟩
  | object ms => cases ms <;> exact ⟨_, _, rfl, by decide⟩
  | number n =>
    cases n with
    | real x => exact integral.elim
    | integer n =>
      obtain ⟨c, cs, eq, first⟩ := exists_write_integer n
      refine ⟨c, cs, eq, ?_⟩
      rcases first with rfl | digit
      · decide
      · constructor
        · cases space : isSpace c with
          | false => rfl
          | true =>
            simp only [isSpace, Bool.or_eq_true, decide_eq_true_eq] at space
            rcases space with ((rfl | rfl) | rfl) | rfl <;> cases digit
        · rintro rfl
          cases digit

mutual

theorem readWithin_written (l : Layout) (level steps : Nat) {rest : List Char}
    (ends : NumberEnds rest) : (v : Value) → v.Integral →
      (v.written l level).length ≤ steps + 1 →
      readWithin (steps + 1) (v.written l level ++ rest) = some (ofValue v, rest)
  | .null, _, _ => by simp [Value.written, readWithin, skipSpace, isSpace, ofValue]
  | .bool true, _, _ => by simp [Value.written, readWithin, skipSpace, isSpace, ofValue]
  | .bool false, _, _ => by simp [Value.written, readWithin, skipSpace, isSpace, ofValue]
  | .string s, _, _ => by
    simp [Value.written, writeString, readWithin, skipSpace, isSpace, readString_flatMap, ofValue]
  | .number (.integer n), word, _ => by
    obtain ⟨c, cs, eq, first⟩ := exists_write_integer n
    have read := readNumberText_write n ends
    rw [Value.written]
    rw [eq, List.cons_append] at read ⊢
    rw [readWithin_number first, read, Option.map_some]
    simp only [number_toDigits word, ofValue]
  | .array [], _, _ => by
    simp [Value.written, readWithin, skipSpace, isSpace, ofValue, ofValues]
  | .object [], _, _ => by
    simp [Value.written, readWithin, skipSpace, isSpace, ofValue, ofMembers]
  | .array (x :: xs), ⟨first, others⟩, enough => by
    obtain ⟨c, cs, eq, visible, other⟩ := exists_written l (level + 1) x first
    have more : skipSpace (l.gap (level + 1) ++ (x.written l (level + 1) ++
        (Value.writtenItems l level xs ++ rest))) =
        c :: (cs ++ (Value.writtenItems l level xs ++ rest)) := by
      rw [skipSpace_append (l.gap_isSpace _), eq, List.cons_append, skipSpace_cons visible]
    have items := readItems_written l level steps rest x xs first others
      (by
        simp only [Value.written, List.cons_append, List.length_cons, List.length_append] at enough
        simp only [List.length_append]
        omega)
    rw [eq] at items
    simp only [Value.written, List.cons_append, List.append_assoc] at items ⊢
    rw [readWithin_items more other, items]
    rfl
  | .object ((k, x) :: ms), ⟨first, others⟩, enough => by
    have more : skipSpace (l.gap (level + 1) ++ (writeString k ++ ':' :: l.pad ++
        x.written l (level + 1) ++ (Value.writtenMembers l level ms ++ rest))) =
        writeString k ++ ':' :: l.pad ++ x.written l (level + 1) ++
          (Value.writtenMembers l level ms ++ rest) := by
      rw [skipSpace_append (l.gap_isSpace _)]
      exact skipSpace_cons rfl _
    have members := readMembers_written l level steps rest k x ms first others
      (by
        simp only [Value.written, List.cons_append, List.length_cons, List.length_append] at enough
        simp only [List.length_append, List.length_cons]
        omega)
    simp only [Value.written, writeString, List.cons_append, List.append_assoc] at more members ⊢
    rw [readWithin_members more (by decide), members]
    rfl
termination_by v => sizeOf v
decreasing_by all_goals simp <;> omega

theorem readItems_written (l : Layout) (level steps : Nat) (rest : List Char) :
    (x : Value) → (xs : List Value) → x.Integral → Value.IntegralAll xs →
      (x.written l (level + 1) ++ Value.writtenItems l level xs).length ≤ steps →
      readItems steps (x.written l (level + 1) ++ (Value.writtenItems l level xs ++ rest)) =
        some (ofValue x :: ofValues xs, rest)
  | x, [], first, _, enough => by
    obtain ⟨c, cs, eq, -⟩ := exists_written l (level + 1) x first
    have ends := numberEnds_items l level [] rest
    simp only [eq, Value.writtenItems, List.length_append, List.length_cons] at enough
    obtain ⟨steps, rfl⟩ : ∃ n, steps = n + 2 := ⟨steps - 2, by omega⟩
    have head := readWithin_written l (level + 1) steps ends x first
      (by rw [eq, List.length_cons]; omega)
    have closes : skipSpace (Value.writtenItems l level [] ++ rest) = ']' :: rest := by
      rw [Value.writtenItems, List.append_assoc, skipSpace_append (l.gap_isSpace _)]
      rfl
    rw [readItems, head]
    simp [closes, ofValues]
  | x, y :: ys, first, ⟨second, others⟩, enough => by
    obtain ⟨c, cs, eq, -⟩ := exists_written l (level + 1) x first
    have ends := numberEnds_items l level (y :: ys) rest
    simp only [eq, Value.writtenItems, List.length_append, List.length_cons] at enough
    obtain ⟨steps, rfl⟩ : ∃ n, steps = n + 2 := ⟨steps - 2, by omega⟩
    have head := readWithin_written l (level + 1) steps ends x first
      (by rw [eq, List.length_cons]; omega)
    have tail := readItems_written l level (steps + 1) rest y ys second others
      (by rw [List.length_append]; omega)
    have goesOn : skipSpace (Value.writtenItems l level (y :: ys) ++ rest) =
        ',' :: (l.gap (level + 1) ++ (y.written l (level + 1) ++
          (Value.writtenItems l level ys ++ rest))) := by
      simp only [Value.writtenItems, List.cons_append, List.append_assoc]
      exact skipSpace_cons rfl _
    rw [readItems, head]
    simp [goesOn, readItems_append (l.gap_isSpace _), tail, ofValues]
termination_by x xs => 1 + sizeOf x + sizeOf xs
decreasing_by all_goals simp <;> omega

theorem readMembers_written (l : Layout) (level steps : Nat) (rest : List Char) :
    (k : String) → (x : Value) → (ms : List (String × Value)) → x.Integral →
      Value.IntegralMembers ms →
      (writeString k ++ ':' :: l.pad ++ x.written l (level + 1) ++
        Value.writtenMembers l level ms).length ≤ steps →
      readMembers steps (writeString k ++ ':' :: l.pad ++ x.written l (level + 1) ++
          (Value.writtenMembers l level ms ++ rest)) =
        some ((some k, ofValue x) :: ofMembers ms, rest)
  | k, x, [], first, _, enough => by
    obtain ⟨c, cs, eq, -⟩ := exists_written l (level + 1) x first
    have ends := numberEnds_members l level [] rest
    simp only [eq, writeString, Value.writtenMembers, List.length_append, List.length_cons,
      List.cons_append] at enough
    obtain ⟨steps, rfl⟩ : ∃ n, steps = n + 2 := ⟨steps - 2, by omega⟩
    have value := readWithin_written l (level + 1) steps ends x first
      (by rw [eq, List.length_cons]; omega)
    rw [← readWithin_append l.pad_isSpace] at value
    have closes : skipSpace (Value.writtenMembers l level [] ++ rest) = '}' :: rest := by
      rw [Value.writtenMembers, List.append_assoc, skipSpace_append (l.gap_isSpace _)]
      rfl
    have read := readMembers_key k value
    simp only [closes] at read
    simpa [ofMembers] using read
  | k, x, (k', y) :: ms, first, ⟨second, others⟩, enough => by
    obtain ⟨c, cs, eq, -⟩ := exists_written l (level + 1) x first
    have ends := numberEnds_members l level ((k', y) :: ms) rest
    simp only [eq, writeString, Value.writtenMembers, List.length_append, List.length_cons,
      List.cons_append] at enough
    obtain ⟨steps, rfl⟩ : ∃ n, steps = n + 2 := ⟨steps - 2, by omega⟩
    have value := readWithin_written l (level + 1) steps ends x first
      (by rw [eq, List.length_cons]; omega)
    rw [← readWithin_append l.pad_isSpace] at value
    have tail := readMembers_written l level (steps + 1) rest k' y ms second others
      (by
        simp only [writeString, List.length_append, List.length_cons, List.cons_append]
        omega)
    have goesOn : skipSpace (Value.writtenMembers l level ((k', y) :: ms) ++ rest) =
        ',' :: (l.gap (level + 1) ++ (writeString k' ++ ':' :: l.pad ++ y.written l (level + 1) ++
          (Value.writtenMembers l level ms ++ rest))) := by
      simp only [Value.writtenMembers, List.cons_append, List.append_assoc]
      exact skipSpace_cons rfl _
    have read := readMembers_key k value
    simp only [goesOn, readMembers_append (l.gap_isSpace _), tail] at read
    simpa [ofMembers] using read
termination_by _ x ms => 1 + sizeOf x + sizeOf ms
decreasing_by all_goals simp <;> omega

end

/-- A value reads back from every layout, with white space behind it. -/
theorem parse?_written (l : Layout) {v : Value} (integral : v.Integral) {ws : List Char}
    (blank : ∀ c ∈ ws, isSpace c = true) :
    parse? (String.ofList (v.written l 0 ++ ws)) = some (ofValue v) := by
  have ends : NumberEnds ws := by
    have empty : NumberEnds [] := fun c mem => by cases mem
    simpa using numberEnds_append blank empty
  have spaces : skipSpace ws = [] := by
    have skip := skipSpace_append blank []
    rwa [List.append_nil] at skip
  have read := readWithin_written l 0 (v.written l 0 ++ ws).length ends v integral
    (by rw [List.length_append]; omega)
  simp only [parse?, String.toList_ofList, read, spaces]
  rfl

end Document

end DirectiveTemplates.Json
