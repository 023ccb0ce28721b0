import DirectiveTemplates.Files.FileTree
import DirectiveTemplates.Proofs.Text.Splitting

/-!
Paths that lead down. Joined to a directory, a name without a step up leads to a place below that
directory, wherever the directory is.
-/
namespace DirectiveTemplates

namespace Files

/-- A relative path without a step up. -/
structure Descends (path : String) : Prop where
  ne : path ≠ ""
  relative : path.startsWith "/" = false
  down : ".." ∉ parts path

theorem startsWith_slash_append {base : String} (ne : base ≠ "") (rest : String) :
    (base ++ rest).startsWith "/" = base.startsWith "/" := by
  have chars : base.toList ≠ [] := fun eq => ne (String.toList_eq_nil_iff.mp eq)
  obtain ⟨c, cs, eq⟩ := List.exists_cons_of_ne_nil chars
  rw [Bool.eq_iff_iff, String.startsWith_string_iff, String.startsWith_string_iff,
    String.toList_append, eq]
  show ['/'] <+: _ ↔ ['/'] <+: _
  simp

theorem exists_of_endsWith_slash {base : String} (ended : base.endsWith "/" = true) :
    ∃ front, base = front ++ "/" := by
  have behind : "/".toList <:+ base.toSlice.copy.toList :=
    String.Slice.endsWith_string_iff.mp ended
  rw [String.copy_toSlice] at behind
  obtain ⟨cs, eq⟩ := behind
  refine ⟨String.ofList cs, String.toList_inj.mp ?_⟩
  rw [String.toList_append, String.toList_ofList, eq]

theorem parts_slash (base name : String) :
    parts (base ++ "/" ++ name) = parts base ++ parts name := by
  have chars : (base ++ "/" ++ name).toList = base.toList ++ '/' :: name.toList := by simp
  rw [parts, chars, Text.splitAll_append, List.map_append]
  rfl

theorem Descends.slash {base name : String} (h : Descends base) (down : ".." ∉ parts name) :
    Descends (base ++ "/" ++ name) := by
  refine ⟨?_, ?_, ?_⟩
  · intro eq
    have empty := congrArg String.toList eq
    simp at empty
  · rw [String.append_assoc, startsWith_slash_append h.ne]
    exact h.relative
  · rw [parts_slash, List.mem_append]
    exact fun either => either.elim h.down down

theorem not_mem_parts {name : String} (apart : ¬ ['.', '.'] <:+: name.toList) :
    ".." ∉ parts name := by
  intro mem
  obtain ⟨part, split, eq⟩ := List.mem_map.mp mem
  have dots : part = ['.', '.'] := by
    rw [← String.toList_ofList (l := part), eq]
    rfl
  exact apart (dots ▸ Text.infix_of_mem_splitAll split)

namespace Location

/-- A step that does not lead up stays or goes one part further. -/
theorem prefix_enter (l : Location) {part : String} (down : part ≠ "..") : l <+: l.enter part := by
  rw [enter, if_neg down]
  split
  · exact List.prefix_rfl
  · exact List.prefix_append l [part]

theorem prefix_foldl_enter (l : Location) {ps : List String} (down : ".." ∉ ps) :
    l <+: ps.foldl enter l := by
  induction ps generalizing l with
  | nil => exact List.prefix_rfl
  | cons part ps ih =>
    obtain ⟨here, later⟩ := not_or.mp (fun either => down (List.mem_cons.mpr either))
    exact (prefix_enter l (Ne.symm here)).trans (ih _ later)

theorem enter_empty (l : Location) : l.enter "" = l := if_pos (Or.inl rfl)

theorem start_append {base : String} (ne : base ≠ "") (rest : String) :
    start (base ++ rest) = start base := by
  rw [start, start, startsWith_slash_append ne]

theorem ofPath_slash_end (front : String) :
    ofPath (front ++ "/") = (parts front).foldl enter (start (front ++ "/")) := by
  have whole := parts_slash front ""
  rw [String.append_empty] at whole
  rw [ofPath, whole, List.foldl_append]
  exact enter_empty _

/-- The way behind a slash goes on from the place before it. -/
theorem ofPath_slash (front name : String) :
    ofPath (front ++ "/" ++ name) = (parts name).foldl enter (ofPath (front ++ "/")) := by
  have some : front ++ "/" ≠ "" := by simp
  rw [ofPath, parts_slash, List.foldl_append, start_append some, ofPath_slash_end]

end Location

/-- A relative name is put behind the directory it is joined to. -/
theorem join_of_relative (base : String) {name : String} (relative : name.startsWith "/" = false) :
    join base name =
      if base = "" then name
      else if base.endsWith "/" then base ++ name
      else base ++ "/" ++ name := by
  simp [join, relative, String.isEmpty_iff]

/-- The walk along a joined name goes on from the directory. -/
theorem ofPath_join (base : String) {name : String} (relative : name.startsWith "/" = false) :
    Location.ofPath (join base name) =
      (parts name).foldl Location.enter (Location.ofPath base) := by
  rw [join_of_relative base relative]
  split
  · rename_i empty
    have none : Location.start name = [] := by simp [Location.start, relative]
    have nowhere : Location.ofPath base = [] := by
      rw [empty]
      decide
    rw [nowhere, Location.ofPath, none]
  · rename_i ne
    split
    · rename_i ended
      obtain ⟨front, rfl⟩ := exists_of_endsWith_slash ended
      exact Location.ofPath_slash front name
    · rw [Location.ofPath_slash, Location.ofPath_slash_end, Location.start_append ne]
      rfl

/-- A name that descends leads to a place below the directory it is joined to. -/
theorem Descends.below {name : String} (h : Descends name) (base : String) :
    Location.ofPath base <+: Location.ofPath (join base name) := by
  rw [ofPath_join base h.relative]
  exact Location.prefix_foldl_enter _ h.down

namespace FileTree

theorem location_of_enter {t : FileTree} {p q : Place} {part : String}
    (h : t.enter p part = .ok q) : q.location = p.location.enter part := by
  unfold enter at h
  split at h
  · cases h
  · split at h
    · cases h
    · simp only at h
      split at h
      · cases h
        rfl
      · cases h

theorem location_of_foldlM {t : FileTree} {ps : List String} {p q : Place}
    (h : ps.foldlM t.enter p = .ok q) : q.location = ps.foldl Location.enter p.location := by
  induction ps generalizing p with
  | nil =>
    cases h
    rfl
  | cons part ps ih =>
    rw [List.foldlM_cons] at h
    cases entered : t.enter p part with
    | error e =>
      rw [entered] at h
      cases h
    | ok r =>
      rw [entered] at h
      rw [List.foldl_cons, ← location_of_enter entered]
      exact ih h

theorem location_of_find {t : FileTree} {path : String} {p : Place} (h : t.find path = .ok p) :
    p.location = Location.ofPath path := by
  unfold find at h
  split at h
  · cases h
  · split at h
    · cases h
    · split at h
      · cases h
      · exact location_of_foldlM h

end FileTree

end Files

end DirectiveTemplates
