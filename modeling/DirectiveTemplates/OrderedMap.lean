/-!
Maps that remember the order in which their keys came in. Writing an entry under a known key
keeps the place of the key and replaces the value.
-/
namespace DirectiveTemplates

namespace Entries

/-- Writes an entry: in the place of its key, or at the end. -/
def put (key : String) (value : α) : List (String × α) → List (String × α)
  | [] => [(key, value)]
  | e :: es => if e.1 = key then (key, value) :: es else e :: put key value es

def putAll (es new : List (String × α)) : List (String × α) :=
  new.foldl (fun es e => put e.1 e.2 es) es

/-- The entries left when of equal keys the first place and the last value count. -/
def collect (es : List (String × α)) : List (String × α) := putAll [] es

theorem keys_put (key : String) (value : α) (es : List (String × α)) :
    (put key value es).map Prod.fst =
      if key ∈ es.map Prod.fst then es.map Prod.fst else es.map Prod.fst ++ [key] := by
  induction es with
  | nil => rfl
  | cons e es ih =>
    by_cases h : e.1 = key
    · simp [put, h]
    · have h' : key ≠ e.1 := fun he => h he.symm
      simp only [put, h, if_false, List.map_cons, ih, List.mem_cons, h', false_or]
      split <;> rfl

theorem nodup_keys_put {key : String} {value : α} {es : List (String × α)}
    (h : (es.map Prod.fst).Nodup) : ((put key value es).map Prod.fst).Nodup := by
  rw [keys_put]
  split
  · exact h
  · rename_i hk
    exact List.nodup_append.2 ⟨h, by simp, by
      intro a ha b hb
      have : b = key := by simpa using hb
      subst this
      exact fun hab => hk (hab ▸ ha)⟩

theorem lookup_put (key name : String) (value : α) (es : List (String × α)) :
    (put key value es).lookup name = if name = key then some value else es.lookup name := by
  have beq_false {a b : String} (h : ¬a = b) : (a == b) = false := by simpa using h
  induction es with
  | nil =>
    by_cases h : name = key
    · simp [put, h]
    · simp [put, h, List.lookup_cons, beq_false h]
  | cons e es ih =>
    obtain ⟨k, v⟩ := e
    by_cases h : k = key
    · by_cases hn : name = key
      · simp [put, h, hn]
      · simp [put, h, hn, List.lookup_cons, beq_false hn]
    · by_cases hn : name = k
      · simp [put, h, hn]
      · simp [put, h, List.lookup_cons, ih, beq_false hn]

end Entries

/-- Entries with pairwise different keys, in the order in which the keys came in. -/
structure OrderedMap (α : Type) where
  entries : List (String × α)
  nodup : (entries.map Prod.fst).Nodup := by simp
  deriving DecidableEq, Repr

namespace OrderedMap

def empty : OrderedMap α := ⟨[], by simp⟩

instance : Inhabited (OrderedMap α) := ⟨empty⟩

def get? (m : OrderedMap α) (key : String) : Option α := m.entries.lookup key

def keys (m : OrderedMap α) : List String := m.entries.map Prod.fst

def values (m : OrderedMap α) : List α := m.entries.map Prod.snd

def size (m : OrderedMap α) : Nat := m.entries.length

def isEmpty (m : OrderedMap α) : Bool := m.entries.isEmpty

def insert (m : OrderedMap α) (key : String) (value : α) : OrderedMap α :=
  ⟨Entries.put key value m.entries, Entries.nodup_keys_put m.nodup⟩

def insertAll (m : OrderedMap α) (es : List (String × α)) : OrderedMap α :=
  es.foldl (fun m e => m.insert e.1 e.2) m

/-- Of equal keys the first place and the last value count. -/
def ofList (es : List (String × α)) : OrderedMap α := empty.insertAll es

def mapWithKey (f : String → α → β) (m : OrderedMap α) : OrderedMap β :=
  ⟨m.entries.map fun e => (e.1, f e.1 e.2), by simpa [Function.comp_def] using m.nodup⟩

theorem get?_insert (m : OrderedMap α) (key name : String) (value : α) :
    (m.insert key value).get? name = if name = key then some value else m.get? name :=
  Entries.lookup_put key name value m.entries

theorem keys_insert (m : OrderedMap α) (key : String) (value : α) :
    (m.insert key value).keys = if key ∈ m.keys then m.keys else m.keys ++ [key] :=
  Entries.keys_put key value m.entries

end OrderedMap

end DirectiveTemplates
