import DirectiveTemplates.Proofs.Live.Slots

/-!
The links between slots. A slot and its parent know each other after every run of operations, so an
operation is known by the links that it makes and breaks.
-/
namespace DirectiveTemplates.Live.SlotTree

inductive Operation where
  | create (content : SlotContent)
  | append (p child : SlotId)
  | delete (child : SlotId)
  | setText (i : SlotId) (value : String)
  deriving DecidableEq, Repr

def perform (t : SlotTree) : Operation → SlotTree
  | .create content => (t.create content).2
  | .append p child => t.append p child
  | .delete child => t.delete child
  | .setText i value => t.setText i value

def after (operations : List Operation) : SlotTree := operations.foldl perform empty

def content? (t : SlotTree) (i : SlotId) : Option SlotContent := (t.slot? i).map Slot.content

/-- A slot stands once among the children of its parent, and nowhere else. -/
structure Linked (t : SlotTree) : Prop where
  mem_children : ∀ p c, c ∈ t.children p ↔ t.parent? c = some p
  nodup : ∀ p, (t.children p).Nodup
  irreflexive : ∀ i, t.parent? i ≠ some i

/-! What the links are after an operation. -/

section Observations

variable (t : SlotTree)

theorem children_create (content : SlotContent) (i : SlotId) :
    (t.create content).2.children i = t.children i := by
  rw [children, slot?_create]
  split
  · rename_i new
    rw [children, slot?_eq_none (Nat.le_of_eq new.symm)]
    rfl
  · rfl

theorem parent?_create (content : SlotContent) (i : SlotId) :
    (t.create content).2.parent? i = t.parent? i := by
  rw [parent?, slot?_create]
  split
  · rename_i new
    rw [parent?, slot?_eq_none (Nat.le_of_eq new.symm)]
    rfl
  · rfl

theorem children_setText (i : SlotId) (value : String) (j : SlotId) :
    (t.setText i value).children j = t.children j := by
  rw [children, children, setText, slot?_update]
  split
  · cases t.slot? j with
    | none => rfl
    | some s =>
      obtain ⟨content, parent, children⟩ := s
      cases content <;> rfl
  · rfl

theorem parent?_setText (i : SlotId) (value : String) (j : SlotId) :
    (t.setText i value).parent? j = t.parent? j := by
  rw [parent?, parent?, setText, slot?_update]
  split
  · cases t.slot? j with
    | none => rfl
    | some s =>
      obtain ⟨content, parent, children⟩ := s
      cases content <;> rfl
  · rfl

variable {t}

theorem content?_setText_self {i : SlotId} {old : String} (h : t.content? i = some (.text old))
    (value : String) : (t.setText i value).content? i = some (.text value) := by
  obtain ⟨s, found, content⟩ := Option.map_eq_some_iff.mp h
  obtain ⟨_, parent, children⟩ := s
  cases content
  rw [content?, slot?_setText found]
  rfl

theorem content?_setText_of_not {i j : SlotId}
    (h : j ≠ i ∨ ∀ old, t.content? j ≠ some (.text old)) (value : String) :
    (t.setText i value).content? j = t.content? j := by
  rcases h with ne | other
  · rw [content?, slot?_setText_of_ne t ne, content?]
  · rw [content?, setText, slot?_update]
    split
    · unfold content? at other ⊢
      cases found : t.slot? j with
      | none => rfl
      | some s =>
        obtain ⟨content, parent, children⟩ := s
        cases content with
        | text old => exact absurd (by rw [found]; rfl) (other old)
        | container => rfl
        | element tag attributes => rfl
        | markup value => rfl
    · rfl

end Observations

namespace Linked

variable {t : SlotTree}

theorem empty : Linked empty := by
  constructor
  · intro p c
    simp [children, parent?, slot?, SlotTree.empty]
  · intro p
    simp [children, slot?, SlotTree.empty]
  · intro i
    simp [parent?, slot?, SlotTree.empty]

/-- A slot that is not the parent has no link to lose. -/
theorem filter_children_eq (h : t.Linked) {i c : SlotId} {s : Slot} (found : t.slot? i = some s)
    (apart : t.parent? c ≠ some i) : s.children.filter (· != c) = s.children := by
  rw [List.filter_eq_self]
  intro j mem
  have other : j ≠ c := by
    rintro rfl
    apply apart
    rw [← h.mem_children, children, found]
    exact mem
  simpa using other

/-- Taking a slot out of its parent breaks the link between the two. -/
theorem slot?_delete_eq (h : t.Linked) (c i : SlotId) :
    (t.delete c).slot? i = (t.slot? i).map fun s =>
      ⟨s.content, if i = c then none else s.parent, s.children.filter (· != c)⟩ := by
  cases found : t.slot? i with
  | none =>
    cases parent : t.parent? c with
    | none =>
      rw [delete_of_parent_none parent, found]
      rfl
    | some p =>
      rw [slot?_delete parent (fun eq => h.irreflexive c (eq ▸ parent)), found]
      simp
  | some s =>
    cases parent : t.parent? c with
    | none =>
      have same := h.filter_children_eq found (c := c) (by rw [parent]; simp)
      rw [delete_of_parent_none parent, found, Option.map_some, same]
      split
      · rename_i eq
        have none : s.parent = none := by
          rw [← parent, ← eq, parent?, found]
          rfl
        rw [← none]
      · rfl
    | some p =>
      have ne : p ≠ c := fun eq => h.irreflexive c (eq ▸ parent)
      rw [slot?_delete parent ne, found, Option.map_some]
      by_cases isParent : i = p
      · have other : i ≠ c := isParent ▸ ne
        rw [if_neg other, if_pos isParent]
        simp only [Option.map_some, if_neg other]
      · have same := h.filter_children_eq found (c := c)
          (by rw [parent]; simpa using Ne.symm isParent)
        rw [if_neg isParent, Option.map_some, same]
        split <;> rfl

theorem parent?_delete (h : t.Linked) (c i : SlotId) :
    (t.delete c).parent? i = if i = c then none else t.parent? i := by
  rw [parent?, h.slot?_delete_eq, parent?]
  cases t.slot? i <;> simp

theorem children_delete (h : t.Linked) (c i : SlotId) :
    (t.delete c).children i = (t.children i).filter (· != c) := by
  rw [children, h.slot?_delete_eq, children]
  cases t.slot? i <;> rfl

theorem content?_delete (h : t.Linked) (c i : SlotId) :
    (t.delete c).content? i = t.content? i := by
  rw [content?, h.slot?_delete_eq, content?]
  cases t.slot? i <;> rfl

theorem delete (h : t.Linked) (c : SlotId) : (t.delete c).Linked := by
  constructor
  · intro p i
    rw [h.children_delete, h.parent?_delete, List.mem_filter, h.mem_children]
    by_cases eq : i = c
    · simp [eq]
    · simp [eq]
  · intro p
    rw [h.children_delete]
    exact (h.nodup p).filter _
  · intro i
    rw [h.parent?_delete]
    split
    · simp
    · exact h.irreflexive i

/-- Putting a slot under another breaks its old link and makes a new one at the end. -/
theorem slot?_append_eq (h : t.Linked) {p c : SlotId} (ne : p ≠ c) (hp : t.contains p = true)
    (hc : t.contains c = true) (i : SlotId) :
    (t.append p c).slot? i = (t.slot? i).map fun s =>
      ⟨s.content, if i = c then some p else s.parent,
        s.children.filter (· != c) ++ if i = p then [c] else []⟩ := by
  unfold append
  rw [if_neg (by simp [ne, hp, hc]), slot?_update, slot?_update, h.slot?_delete_eq]
  by_cases isChild : i = c
  · have other : i ≠ p := fun eq => ne (eq.symm.trans isChild)
    simp [isChild, Ne.symm ne, Function.comp_def]
  · by_cases isParent : i = p
    · simp [isParent, ne, Function.comp_def]
    · simp [isChild, isParent]

theorem parent?_append (h : t.Linked) {p c : SlotId} (ne : p ≠ c) (hp : t.contains p = true)
    (hc : t.contains c = true) (i : SlotId) :
    (t.append p c).parent? i = if i = c then some p else t.parent? i := by
  have found : c < t.slots.size := by simpa [contains] using hc
  rw [parent?, h.slot?_append_eq ne hp hc, parent?]
  by_cases isChild : i = c
  · simp [isChild, slot?, found]
  · cases t.slot? i <;> simp [isChild]

theorem children_append (h : t.Linked) {p c : SlotId} (ne : p ≠ c) (hp : t.contains p = true)
    (hc : t.contains c = true) (i : SlotId) :
    (t.append p c).children i =
      (t.children i).filter (· != c) ++ if i = p then [c] else [] := by
  have found : p < t.slots.size := by simpa [contains] using hp
  rw [children, h.slot?_append_eq ne hp hc, children]
  by_cases isParent : i = p
  · simp [isParent, slot?, found]
  · cases t.slot? i <;> simp [isParent]

theorem content?_append (h : t.Linked) {p c : SlotId} (ne : p ≠ c) (hp : t.contains p = true)
    (hc : t.contains c = true) (i : SlotId) : (t.append p c).content? i = t.content? i := by
  rw [content?, h.slot?_append_eq ne hp hc, content?]
  cases t.slot? i <;> rfl

theorem append (h : t.Linked) (p c : SlotId) : (t.append p c).Linked := by
  by_cases refused : p = c ∨ (!t.contains p) = true ∨ (!t.contains c) = true
  · rw [SlotTree.append, if_pos refused]
    exact h
  · obtain ⟨ne, hp, hc⟩ : p ≠ c ∧ t.contains p = true ∧ t.contains c = true := by
      simpa using refused
    constructor
    · intro q i
      rw [h.children_append ne hp hc, h.parent?_append ne hp hc, List.mem_append, List.mem_filter,
        h.mem_children]
      by_cases isChild : i = c
      · by_cases isParent : q = p
        · simp [isChild, isParent]
        · simp [isChild, isParent, Ne.symm isParent]
      · by_cases isParent : q = p
        · simp [isChild, isParent]
        · simp [isChild, isParent]
    · intro q
      have rest : ((t.children q).filter (· != c)).Nodup := (h.nodup q).filter _
      rw [h.children_append ne hp hc]
      split
      · refine List.nodup_append.mpr ⟨rest, by simp, ?_⟩
        intro i kept j last
        rw [List.mem_singleton.mp last]
        simpa using (List.mem_filter.mp kept).2
      · rw [List.append_nil]
        exact rest
    · intro i
      rw [h.parent?_append ne hp hc]
      split
      · rename_i eq
        rw [eq]
        simpa using ne
      · exact h.irreflexive i

theorem perform (h : t.Linked) (o : Operation) : (t.perform o).Linked := by
  cases o with
  | create content =>
    constructor
    · intro p c
      rw [SlotTree.perform, children_create, parent?_create]
      exact h.mem_children p c
    · intro p
      rw [SlotTree.perform, children_create]
      exact h.nodup p
    · intro i
      rw [SlotTree.perform, parent?_create]
      exact h.irreflexive i
  | append p c => exact h.append p c
  | delete c => exact h.delete c
  | setText i value =>
    constructor
    · intro p c
      rw [SlotTree.perform, children_setText, parent?_setText]
      exact h.mem_children p c
    · intro p
      rw [SlotTree.perform, children_setText]
      exact h.nodup p
    · intro j
      rw [SlotTree.perform, parent?_setText]
      exact h.irreflexive j

theorem foldl (h : t.Linked) (operations : List Operation) :
    (operations.foldl SlotTree.perform t).Linked := by
  induction operations generalizing t with
  | nil => exact h
  | cons o operations ih => exact ih (h.perform o)

theorem count_children (h : t.Linked) (p c : SlotId) :
    (t.children p).count c = if t.parent? c = some p then 1 else 0 := by
  split
  · rename_i parent
    have mem := (h.mem_children p c).mpr parent
    rw [(h.nodup p).count, if_pos mem]
  · rename_i apart
    exact List.count_eq_zero_of_not_mem fun mem => apart ((h.mem_children p c).mp mem)

end Linked

/-- One slot was made the last child of another. The other children keep their order. -/
structure Appended (t t' : SlotTree) (p c : SlotId) : Prop where
  children : t'.children p = (t.children p).filter (· != c) ++ [c]
  others : ∀ q, q ≠ p → t'.children q = (t.children q).filter (· != c)
  parents : ∀ i, t'.parent? i = if i = c then some p else t.parent? i
  contents : ∀ i, t'.content? i = t.content? i

/-- One slot was taken out of its parent, if it had one. -/
structure Deleted (t t' : SlotTree) (c : SlotId) : Prop where
  children : ∀ p, t.parent? c = some p → t'.children p = (t.children p).erase c
  others : ∀ q, t.parent? c ≠ some q → t'.children q = t.children q
  parents : ∀ i, t'.parent? i = if i = c then none else t.parent? i
  contents : ∀ i, t'.content? i = t.content? i

/-- One slot was given another text, if it holds text. -/
structure Rewritten (t t' : SlotTree) (i : SlotId) (value : String) : Prop where
  text : ∀ old, t.content? i = some (.text old) → t'.content? i = some (.text value)
  others : ∀ j, j ≠ i ∨ (∀ old, t.content? j ≠ some (.text old)) → t'.content? j = t.content? j
  children : ∀ j, t'.children j = t.children j
  parents : ∀ j, t'.parent? j = t.parent? j

theorem Linked.appended {t : SlotTree} (h : t.Linked) {p c : SlotId} (ne : p ≠ c)
    (hp : t.contains p = true) (hc : t.contains c = true) : Appended t (t.append p c) p c := by
  refine ⟨?_, ?_, h.parent?_append ne hp hc, h.content?_append ne hp hc⟩
  · rw [h.children_append ne hp hc, if_pos rfl]
  · intro q other
    rw [h.children_append ne hp hc, if_neg other, List.append_nil]

theorem Linked.deleted {t : SlotTree} (h : t.Linked) (c : SlotId) : Deleted t (t.delete c) c := by
  refine ⟨?_, ?_, h.parent?_delete c, h.content?_delete c⟩
  · intro p _
    rw [h.children_delete, (h.nodup p).erase_eq_filter]
  · intro q apart
    rw [h.children_delete, List.filter_eq_self]
    intro i mem
    have other : i ≠ c := fun eq => apart ((h.mem_children q c).mp (eq ▸ mem))
    simpa using other

/-- After every run of operations a slot stands once among the children of its parent and nowhere
else, and each further operation changes the links it is about and no other ones. -/
theorem links_after (operations : List Operation) :
    let t := after operations
    (∀ p c, (t.children p).count c = if t.parent? c = some p then 1 else 0) ∧
      (∀ i, t.append i i = t) ∧
      (∀ p c, p ≠ c → t.contains p = true → t.contains c = true →
        Appended t (t.append p c) p c) ∧
      (∀ c, Deleted t (t.delete c) c) ∧
      ∀ i value, Rewritten t (t.setText i value) i value := by
  intro t
  have linked : t.Linked := Linked.empty.foldl operations
  refine ⟨linked.count_children, ?_, ?_, linked.deleted, ?_⟩
  · intro i
    rw [append, if_pos (Or.inl rfl)]
  · intro p c ne hp hc
    exact linked.appended ne hp hc
  · intro i value
    exact ⟨fun _ text => content?_setText_self text value,
      fun _ other => content?_setText_of_not other value, t.children_setText i value,
      t.parent?_setText i value⟩

end DirectiveTemplates.Live.SlotTree
