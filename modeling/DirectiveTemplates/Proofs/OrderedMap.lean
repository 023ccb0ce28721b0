import DirectiveTemplates.Proofs.Json.Decoding

/-!
Maps by the writes that made them. Of the writes to a key the last one counts, and the keys stand
in the order of their first writes.
-/
namespace DirectiveTemplates

theorem Entries.mem_of_mem_put {key : String} {value : α} {es : List (String × α)}
    {e : String × α} (mem : e ∈ put key value es) : e = (key, value) ∨ e ∈ es := by
  induction es with
  | nil => exact Or.inl (List.mem_singleton.mp mem)
  | cons e' es ih =>
    rw [put] at mem
    split at mem
    · rcases List.mem_cons.mp mem with eq | mem
      · exact Or.inl eq
      · exact Or.inr (List.mem_cons_of_mem _ mem)
    · rcases List.mem_cons.mp mem with rfl | mem
      · exact Or.inr (List.mem_cons_self ..)
      · exact (ih mem).imp_right (List.mem_cons_of_mem _)

namespace OrderedMap

theorem ext_entries {m m' : OrderedMap α} (same : m.entries = m'.entries) : m = m' := by
  cases m
  cases m'
  cases same
  rfl

/-- What holds of the entries of a map and of the new ones holds of all entries afterwards. -/
theorem forall_mem_insertAll {P : String × α → Prop} {m : OrderedMap α} {es : List (String × α)}
    (old : ∀ e ∈ m.entries, P e) (new : ∀ e ∈ es, P e) : ∀ e ∈ (m.insertAll es).entries, P e := by
  induction es generalizing m with
  | nil => exact old
  | cons e es ih =>
    obtain ⟨first, others⟩ := List.forall_mem_cons.mp new
    apply ih (m := m.insert e.1 e.2) _ others
    intro e' mem
    rcases Entries.mem_of_mem_put mem with rfl | mem
    · exact first
    · exact old e' mem

variable {m : OrderedMap α} {writes : List (String × α)}

/-- A map is what these writes left, the oldest first. -/
structure WrittenBy (m : OrderedMap α) (writes : List (String × α)) : Prop where
  get? : ∀ key, m.get? key = writes.reverse.lookup key
  keys : m.keys = (writes.map Prod.fst).eraseDups

theorem writtenBy_empty : WrittenBy (empty : OrderedMap α) [] := ⟨fun _ => rfl, rfl⟩

theorem WrittenBy.mem_keys (h : m.WrittenBy writes) (key : String) :
    key ∈ m.keys ↔ key ∈ writes.map Prod.fst := by
  rw [h.keys, List.mem_eraseDups]

theorem WrittenBy.isSome_get? (h : m.WrittenBy writes) (key : String) :
    (m.get? key).isSome = true ↔ key ∈ writes.map Prod.fst := by
  rw [h.get?, List.lookup_isSome_iff, List.mem_map]
  constructor
  · rintro ⟨w, mem, same⟩
    exact ⟨w, List.mem_reverse.mp mem, (beq_iff_eq.mp same).symm⟩
  · rintro ⟨w, mem, rfl⟩
    exact ⟨w, List.mem_reverse.mpr mem, beq_self_eq_true _⟩

theorem WrittenBy.insert (h : m.WrittenBy writes) (key : String) (value : α) :
    (m.insert key value).WrittenBy (writes ++ [(key, value)]) := by
  constructor
  · intro name
    rw [get?_insert, List.reverse_concat, List.lookup_cons, h.get?]
    by_cases same : name = key
    · simp [same]
    · have other : (name == key) = false := by simpa using same
      simp [same, other]
  · rw [keys_insert, List.map_append, List.eraseDups_append]
    by_cases known : key ∈ writes.map Prod.fst
    · rw [if_pos ((h.mem_keys key).mpr known), h.keys]
      simp [List.removeAll, known]
    · rw [if_neg (fun mem => known ((h.mem_keys key).mp mem)), h.keys]
      simp [List.removeAll, known, List.eraseDups_cons]

theorem WrittenBy.insertAll (h : m.WrittenBy writes) (es : List (String × α)) :
    (m.insertAll es).WrittenBy (writes ++ es) := by
  induction es generalizing m writes with
  | nil => simpa [OrderedMap.insertAll] using h
  | cons e es ih =>
    have all := ih (h.insert e.1 e.2)
    rw [List.append_assoc] at all
    exact all

theorem writtenBy_entries (m : OrderedMap α) : m.WrittenBy m.entries := by
  have all : (ofList m.entries).WrittenBy m.entries := writtenBy_empty.insertAll m.entries
  rw [ofList_entries] at all
  exact all

end OrderedMap

end DirectiveTemplates
