import DirectiveTemplates.Json.Decoder
import DirectiveTemplates.Proofs.Json.Layout

/-!
Decoders that read back what was written. A value of some form is decoded wherever the document may
still nest as deep as the value does.
-/
namespace DirectiveTemplates

namespace Entries

theorem put_of_not_mem {key : String} {es : List (String × α)} (new : key ∉ es.map Prod.fst)
    (value : α) : put key value es = es ++ [(key, value)] := by
  induction es with
  | nil => rfl
  | cons e es ih =>
    simp only [List.map_cons, List.mem_cons, not_or] at new
    rw [put, if_neg (Ne.symm new.1), ih new.2]
    rfl

theorem putAll_of_nodup {es new : List (String × α)} (nodup : ((es ++ new).map Prod.fst).Nodup) :
    putAll es new = es ++ new := by
  induction new generalizing es with
  | nil => simp [putAll]
  | cons e new ih =>
    have fresh : e.1 ∉ es.map Prod.fst := by
      intro mem
      rw [List.map_append, List.nodup_append] at nodup
      exact nodup.2.2 _ mem _ (by simp) rfl
    have step : putAll es (e :: new) = putAll (put e.1 e.2 es) new := rfl
    rw [List.append_cons] at nodup
    rw [step, put_of_not_mem fresh, ih nodup, ← List.append_cons]

theorem collect_of_nodup {es : List (String × α)} (nodup : (es.map Prod.fst).Nodup) :
    collect es = es :=
  putAll_of_nodup (by simpa using nodup)

end Entries

theorem OrderedMap.entries_insertAll (m : OrderedMap α) (es : List (String × α)) :
    (m.insertAll es).entries = Entries.putAll m.entries es := by
  induction es generalizing m with
  | nil => rfl
  | cons e es ih => exact ih (m.insert e.1 e.2)

theorem OrderedMap.ofList_entries (m : OrderedMap α) : ofList m.entries = m := by
  have same : (ofList m.entries).entries = m.entries := by
    rw [ofList, entries_insertAll]
    exact Entries.collect_of_nodup m.nodup
  obtain ⟨es, nodup⟩ := m
  cases h : ofList es with
  | mk es' nodup' =>
    rw [h] at same
    cases same
    rfl

namespace Json

namespace Value

mutual

/-- The number of arrays and objects around the innermost value. -/
def nesting : Value → Nat
  | .array xs => 1 + nestingAll xs
  | .object ms => 1 + nestingMembers ms
  | .null | .bool _ | .number _ | .string _ => 0

def nestingAll : List Value → Nat
  | [] => 0
  | x :: xs => max x.nesting (nestingAll xs)

def nestingMembers : List (String × Value) → Nat
  | [] => 0
  | m :: ms => max m.2.nesting (nestingMembers ms)

end

mutual

/-- No object has a key twice. -/
def Keyed : Value → Prop
  | .array xs => KeyedAll xs
  | .object ms => (ms.map Prod.fst).Nodup ∧ KeyedMembers ms
  | .null | .bool _ | .number _ | .string _ => True

def KeyedAll : List Value → Prop
  | [] => True
  | x :: xs => x.Keyed ∧ KeyedAll xs

def KeyedMembers : List (String × Value) → Prop
  | [] => True
  | m :: ms => m.2.Keyed ∧ KeyedMembers ms

end

theorem nesting_le_nestingAll {x : Value} {xs : List Value} (mem : x ∈ xs) :
    x.nesting ≤ nestingAll xs := by
  induction xs with
  | nil => cases mem
  | cons y ys ih =>
    rw [nestingAll]
    rcases List.mem_cons.mp mem with rfl | mem
    · exact Nat.le_max_left _ _
    · exact Nat.le_trans (ih mem) (Nat.le_max_right _ _)

theorem nesting_le_of_lookup (name : String) {v : Value} {ms : List (String × Value)}
    (found : ms.lookup name = some v) : v.nesting ≤ nestingMembers ms := by
  induction ms with
  | nil => cases found
  | cons m ms ih =>
    obtain ⟨key, x⟩ := m
    rw [nestingMembers]
    rw [List.lookup_cons] at found
    split at found
    · cases found
      exact Nat.le_max_left _ _
    · exact Nat.le_trans (ih found) (Nat.le_max_right _ _)

end Value

namespace Document

theorem ofMembers_eq (ms : List (String × Value)) :
    ofMembers ms = ms.map fun m => (some m.1, ofValue m.2) := by
  induction ms with
  | nil => rfl
  | cons m ms ih => rw [ofMembers, ih, List.map_cons]

end Document

namespace Decoder

open Value

/-- A decoder reads this out of a value, however the value is nested in others. -/
def Decodes (item : Decoder α) (v : Value) (a : α) : Prop :=
  ∀ depth, v.nesting ≤ depth → item depth (.ofValue v) = some a

theorem decodes_string (s : String) : Decodes string (.string s) s := fun _ _ => rfl

theorem decodes_array {item : Decoder α} {xs : List Value} {a : α}
    (reads : ∀ depth, nestingAll xs ≤ depth → item (depth + 1) (.ofValue (.array xs)) = some a) :
    Decodes item (.array xs) a := by
  intro depth shallow
  rw [nesting] at shallow
  obtain ⟨depth, rfl⟩ : ∃ n, depth = n + 1 := ⟨depth - 1, by omega⟩
  exact reads depth (by omega)

theorem decodes_object {item : Decoder α} {ms : List (String × Value)} {a : α}
    (reads : ∀ depth, nestingMembers ms ≤ depth →
      item (depth + 1) (.ofValue (.object ms)) = some a) :
    Decodes item (.object ms) a := by
  intro depth shallow
  rw [nesting] at shallow
  obtain ⟨depth, rfl⟩ : ∃ n, depth = n + 1 := ⟨depth - 1, by omega⟩
  exact reads depth (by omega)

theorem members_ofMembers (ms : List (String × Value)) :
    members (Document.ofMembers ms) = some (ms.map fun m => (m.1, .ofValue m.2)) := by
  induction ms with
  | nil => rfl
  | cons m ms ih =>
    unfold members at ih
    simp [members, Document.ofMembers, ih]

theorem mapM_decodes {item : Decoder α} {toJson : α → Value} {depth : Nat} {xs : List α}
    (each : ∀ x ∈ xs, Decodes item (toJson x) x)
    (shallow : nestingAll (xs.map toJson) ≤ depth) :
    (Document.ofValues (xs.map toJson)).mapM (item depth) = some xs := by
  induction xs with
  | nil => rfl
  | cons x xs ih =>
    obtain ⟨first, others⟩ := List.forall_mem_cons.mp each
    rw [List.map_cons, nestingAll] at shallow
    have head := first depth (by omega)
    have tail := ih others (by omega)
    simp [Document.ofValues, head, tail]

theorem decodes_list {item : Decoder α} {toJson : α → Value} {xs : List α}
    (each : ∀ x ∈ xs, Decodes item (toJson x) x) :
    Decodes (list item) (.array (xs.map toJson)) xs := by
  apply decodes_array
  intro depth shallow
  exact mapM_decodes each shallow

theorem decodes_map {item : Decoder α} {toJson : α → Value} {m : OrderedMap α}
    (each : ∀ e ∈ m.entries, Decodes item (toJson e.2) e.2) :
    Decodes (map item) (.object (m.entries.map fun e => (e.1, toJson e.2))) m := by
  apply decodes_object
  intro depth shallow
  have entries (es : List (String × α)) (each : ∀ e ∈ es, Decodes item (toJson e.2) e.2)
      (shallow : nestingMembers (es.map fun e => (e.1, toJson e.2)) ≤ depth) :
      (es.map fun e => (e.1, Document.ofValue (toJson e.2))).mapM
        (fun m => (item depth m.2).map fun x => (m.1, x)) = some es := by
    induction es with
    | nil => rfl
    | cons e es ih =>
      obtain ⟨first, others⟩ := List.forall_mem_cons.mp each
      simp only [List.map_cons, nestingMembers] at shallow
      have head := first depth (by omega)
      have tail := ih others (by omega)
      simp [head, tail]
  have all := entries m.entries each shallow
  simp only [Document.ofValue, map, members_ofMembers, List.map_map, Function.comp_def,
    Option.bind_eq_bind, Option.bind_some, all]
  exact congrArg some m.ofList_entries

mutual

theorem decodes_value : (v : Value) → v.Keyed → Decodes value v v
  | .null, _ => fun _ _ => by simp [value, Document.ofValue]
  | .bool b, _ => fun _ _ => by simp [value, Document.ofValue]
  | .number n, _ => fun _ _ => by simp [value, Document.ofValue]
  | .string s, _ => fun _ _ => by simp [value, Document.ofValue]
  | .array xs, keyed => by
    apply decodes_array
    intro depth shallow
    rw [Document.ofValue, value, mapM_value depth xs keyed shallow]
    rfl
  | .object ms, ⟨nodup, keyed⟩ => by
    apply decodes_object
    intro depth shallow
    have all := mapM_members depth ms keyed shallow
    rw [Document.ofValue, value, members_ofMembers]
    simp only [Option.bind_eq_bind, Option.bind_some, all, Entries.collect_of_nodup nodup]
    rfl

theorem mapM_value (depth : Nat) : (xs : List Value) → KeyedAll xs → nestingAll xs ≤ depth →
    (Document.ofValues xs).mapM (value depth) = some xs
  | [], _, _ => rfl
  | x :: xs, ⟨first, others⟩, shallow => by
    rw [nestingAll] at shallow
    have head := decodes_value x first depth (by omega)
    have tail := mapM_value depth xs others (by omega)
    simp [Document.ofValues, head, tail]

theorem mapM_members (depth : Nat) : (ms : List (String × Value)) → KeyedMembers ms →
    nestingMembers ms ≤ depth →
    (ms.map fun m => (m.1, Document.ofValue m.2)).mapM
      (fun m => (value depth m.2).map fun x => (m.1, x)) = some ms
  | [], _, _ => rfl
  | m :: ms, ⟨first, others⟩, shallow => by
    rw [nestingMembers] at shallow
    have head := decodes_value m.2 first depth (by omega)
    have tail := mapM_members depth ms others (by omega)
    simp [head, tail]

end

mutual

/-- Nothing of the document of a value stands for nothing. -/
theorem isStrict_ofValue (depth : Nat) : (v : Value) → v.nesting ≤ depth →
    isStrict depth (.ofValue v) = true
  | .null, _ => by simp [Document.ofValue, isStrict]
  | .bool _, _ => by simp [Document.ofValue, isStrict]
  | .number _, _ => by simp [Document.ofValue, isStrict]
  | .string _, _ => by simp [Document.ofValue, isStrict]
  | .array xs, shallow => by
    rw [nesting] at shallow
    obtain ⟨depth, rfl⟩ : ∃ n, depth = n + 1 := ⟨depth - 1, by omega⟩
    exact all_isStrict depth xs (by omega)
  | .object ms, shallow => by
    rw [nesting] at shallow
    obtain ⟨depth, rfl⟩ : ∃ n, depth = n + 1 := ⟨depth - 1, by omega⟩
    exact all_isStrict_members depth ms (by omega)

theorem all_isStrict (depth : Nat) : (xs : List Value) → nestingAll xs ≤ depth →
    (Document.ofValues xs).all (isStrict depth) = true
  | [], _ => rfl
  | x :: xs, shallow => by
    rw [nestingAll] at shallow
    have head := isStrict_ofValue depth x (by omega)
    have tail := all_isStrict depth xs (by omega)
    simp [Document.ofValues, head, tail]

theorem all_isStrict_members (depth : Nat) : (ms : List (String × Value)) →
    nestingMembers ms ≤ depth →
    (Document.ofMembers ms).all (fun m => m.1.isSome && isStrict depth m.2) = true
  | [], _ => rfl
  | m :: ms, shallow => by
    rw [nestingMembers] at shallow
    have head := isStrict_ofValue depth m.2 (by omega)
    have tail := all_isStrict_members depth ms (by omega)
    simp [Document.ofMembers, head, tail]

end

theorem decodes_strictly {item : Decoder α} {v : Value} {a : α} (h : Decodes item v a) :
    Decodes (strictly item) v a := by
  intro depth shallow
  rw [strictly, if_pos (isStrict_ofValue depth v shallow)]
  exact h depth shallow

/-- A decoder that uses itself only for values that are nested less deep. -/
theorem decodes_recursive {step : Decoder α → Decoder α} {toJson : α → Value} (fits : α → Prop)
    (unroll : ∀ (self : Decoder α) (a : α), fits a →
      (∀ b, fits b → (toJson b).nesting < (toJson a).nesting → Decodes self (toJson b) b) →
      Decodes (step self) (toJson a) a) {a : α} (h : fits a) :
    Decodes (recursive step) (toJson a) a := by
  have bounded (n : Nat) : ∀ a, fits a → (toJson a).nesting < n →
      Decodes (repeated step n) (toJson a) a := by
    induction n with
    | zero => exact fun a _ lt => absurd lt (Nat.not_lt_zero _)
    | succ n ih =>
      intro a ha lt
      apply unroll _ a ha
      intro b hb less
      exact ih b hb (by omega)
  intro depth shallow
  exact bounded (depth + 1) a h (by omega) depth shallow

/-! Records. -/

/-- The fields of a record that was written as an object. -/
def Fields.ofMembers (depth : Nat) (ms : List (String × Value)) : Fields :=
  ⟨depth, ms.map fun m => (m.1, .ofValue m.2)⟩

theorem fields_ofMembers {names : List String} {ms : List (String × Value)}
    (known : ∀ m ∈ ms, m.1 ∈ names) (nodup : (ms.map Prod.fst).Nodup) (depth : Nat) :
    fields names (depth + 1) (.ofValue (.object ms)) = some (.ofMembers depth ms) := by
  have all : (ms.map fun m => (m.1, Document.ofValue m.2)).filter (fun m => names.contains m.1) =
      ms.map fun m => (m.1, .ofValue m.2) := by
    rw [List.filter_eq_self]
    intro m mem
    obtain ⟨m', mem', rfl⟩ := List.mem_map.mp mem
    simpa using known m' mem'
  have keys : (ms.map fun m => (m.1, Document.ofValue m.2)).map Prod.fst = ms.map Prod.fst := by
    simp [Function.comp_def]
  simp only [Document.ofValue, fields, members_ofMembers, Option.bind_eq_bind, Option.bind_some,
    all, keys, if_pos nodup]
  rfl

theorem lookup_ofMembers (depth : Nat) (ms : List (String × Value)) (name : String) :
    (Fields.ofMembers depth ms).entries.lookup name = (ms.lookup name).map .ofValue := by
  induction ms with
  | nil => rfl
  | cons m ms ih =>
    obtain ⟨key, v⟩ := m
    simp only [Fields.ofMembers, List.map_cons, List.lookup_cons] at ih ⊢
    split
    · rfl
    · exact ih

theorem decodes_record {names : List String} {ms : List (String × Value)} {read : Fields → Option α}
    {a : α} (known : ∀ m ∈ ms, m.1 ∈ names) (nodup : (ms.map Prod.fst).Nodup)
    (reads : ∀ depth, nestingMembers ms ≤ depth → read (.ofMembers depth ms) = some a) :
    Decodes (fun depth d => fields names depth d >>= read) (.object ms) a := by
  apply decodes_object
  intro depth shallow
  simp only [fields_ofMembers known nodup, Option.bind_eq_bind, Option.bind_some]
  exact reads depth shallow

namespace Fields

variable {item : Decoder α} {ms : List (String × Value)} {v : Value} {a : α} {depth : Nat}

theorem get_ofMembers (name : String) (decodes : Decodes item v a) (found : ms.lookup name = some v)
    (shallow : nestingMembers ms ≤ depth) : (ofMembers depth ms).get name item = some a := by
  rw [get, lookup_ofMembers, found]
  exact decodes depth (Nat.le_trans (nesting_le_of_lookup name found) shallow)

theorem getD_ofMembers (name : String) (decodes : Decodes item v a)
    (found : ms.lookup name = some v) (shallow : nestingMembers ms ≤ depth) (absent : α) :
    (ofMembers depth ms).getD name item absent = some a := by
  rw [getD, lookup_ofMembers, found]
  exact decodes depth (Nat.le_trans (nesting_le_of_lookup name found) shallow)

theorem getD_ofMembers_absent {name : String} (missing : ms.lookup name = none) (absent : α) :
    (ofMembers depth ms).getD name item absent = some absent := by
  rw [getD, lookup_ofMembers, missing]
  rfl

/-- A text that is left out when there is none. -/
theorem get?_ofMembers_string {name : String} {text : Option String}
    (found : ms.lookup name = text.map .string) :
    (ofMembers depth ms).get? name string = some text := by
  rw [get?, getD, lookup_ofMembers, found]
  cases text <;> rfl

end Fields

end Decoder

end Json

end DirectiveTemplates
