import DirectiveTemplates.Binding.Path
import DirectiveTemplates.Proofs.Binding.Parts
import DirectiveTemplates.Proofs.Source.Spans

/-!
What a path compiles to. Its plan lists the names of the path, and the first of them is a variable.
What is wrong with a path is a token of it.
-/
namespace DirectiveTemplates

namespace Path

open Json

theorem namesOf_planOf (names : List Token) :
    namesOf (planOf names) = names.map fun t => String.ofList t.text := by
  have member : (planOf names).member? "path" =
      some (.array (names.map fun t => .string (String.ofList t.text))) := by
    simp [planOf, Value.member?]
  rw [namesOf, member]
  simp only
  rw [List.filterMap_map]
  exact congrFun List.filterMap_eq_map names

theorem exists_names {dot first : Token} {rest names : List Token}
    (h : namesFrom dot (first :: rest) = .ok names) : ∃ others, names = first :: others := by
  unfold namesFrom at h
  split at h
  · obtain ⟨others, -, rfl⟩ := CompileM.exists_of_map_ok h
    exact ⟨others, rfl⟩
  · cases h

/-- A path that compiles starts with a variable of the scope, and has its type when it is one name
long. -/
theorem compile_spec (text : String) (expected : Option ValueType) (scope : Scope)
    (find : ClassFinder) :
    (compile text expected scope find).plan = .invalid ∨
      ∃ head rest type, namesOf (compile text expected scope find).plan.plan = head :: rest ∧
        scope.type? head = some type ∧
        (rest = [] → (compile text expected scope find).plan.type = type) := by
  unfold compile
  simp only
  cases tokens text.toList with
  | nil => exact .inl rfl
  | cons first rest =>
    simp only
    cases path : namesFrom first (first :: rest) with
    | error t => exact .inl rfl
    | ok names =>
      obtain ⟨others, rfl⟩ := exists_names path
      cases known : scope.type? (String.ofList first.text) with
      | none => exact .inl rfl
      | some type =>
        right
        simp only
        refine ⟨_, _, type, namesOf_planOf (first :: others), known, ?_⟩
        intro alone
        rw [List.map_eq_nil_iff.mp alone]
        rfl

theorem nextToken_prefix (c : Char) (cs : List Char) : (nextToken (c :: cs)).2 <+: c :: cs := by
  unfold nextToken
  simp only
  split
  · exact (List.prefix_cons_inj c).mpr (List.takeWhile_prefix _)
  · split
    · exact ⟨cs, rfl⟩
    · exact (List.prefix_cons_inj c).mpr (List.takeWhile_prefix _)

theorem tokensWithin_aligned (count : Nat) (before cs : List Char) :
    ∀ t ∈ tokensWithin count (Text.byteLength before) cs, t.span.Aligned (before ++ cs) := by
  induction count generalizing before cs with
  | zero =>
    intro t mem
    cases mem
  | succ count ih =>
    unfold tokensWithin
    simp only
    cases start : cs.dropWhile Text.isBlank with
    | nil =>
      intro t mem
      cases mem
    | cons c rest =>
      obtain ⟨behind, split⟩ := nextToken_prefix c rest
      let blank := cs.takeWhile Text.isBlank
      let token := (nextToken (c :: rest)).2
      have dropped : (c :: rest).drop token.length = behind := by
        rw [← split, List.drop_left]
      have whole : before ++ cs = before ++ blank ++ token ++ behind := by
        rw [List.append_assoc, split, ← start, List.append_assoc, List.takeWhile_append_dropWhile]
      have offset : Text.byteLength before + Text.byteLength blank =
          Text.byteLength (before ++ blank) := by rw [Text.byteLength_append]
      intro t mem
      rcases List.mem_cons.mp mem with rfl | later
      · have covers : Span.Covers ⟨Text.byteLength before + Text.byteLength blank,
            Text.byteLength before + Text.byteLength blank + Text.byteLength token⟩
            (before ++ cs) token := by
          refine ⟨before ++ blank, behind, whole, ?_⟩
          rw [← offset]
        exact covers.aligned
      · have rest' := ih (before ++ blank ++ token) behind
        rw [whole]
        apply rest' t
        rw [Text.byteLength_append, ← offset, ← dropped]
        exact later

theorem tokens_aligned (cs : List Char) : ∀ t ∈ tokens cs, t.span.Aligned cs :=
  tokensWithin_aligned cs.length [] cs

mutual

theorem mem_of_namesFrom_error {dot t : Token} : (ts : List Token) →
    namesFrom dot ts = .error t → t = dot ∨ t ∈ ts
  | [], h => by
    cases h
    exact .inl rfl
  | t' :: ts, h => by
    unfold namesFrom at h
    split at h
    · cases rest : restFrom ts with
      | error e =>
        rw [rest] at h
        cases h
        exact .inr (List.mem_cons_of_mem _ (mem_of_restFrom_error ts rest))
      | ok names =>
        rw [rest] at h
        cases h
    · cases h
      exact .inr List.mem_cons_self

theorem mem_of_restFrom_error {t : Token} : (ts : List Token) → restFrom ts = .error t → t ∈ ts
  | [], h => by cases h
  | t' :: ts, h => by
    unfold restFrom at h
    split at h
    · rcases mem_of_namesFrom_error ts h with rfl | later
      · exact List.mem_cons_self
      · exact List.mem_cons_of_mem _ later
    · cases h
      exact List.mem_cons_self

end

/-- The messages about a path point at a token of it, or at all of it when it has none. -/
theorem diagnostics_aligned (text : String) (expected : Option ValueType) (scope : Scope)
    (find : ClassFinder) :
    ∀ d ∈ (compile text expected scope find).diagnostics, d.span.Aligned text.toList := by
  have aligned := tokens_aligned text.toList
  unfold compile
  simp only
  cases ts : tokens text.toList with
  | nil =>
    intro d mem
    rw [List.mem_singleton.mp mem]
    have covers : Span.Covers ⟨0, Text.byteLength text.toList⟩ text.toList text.toList :=
      ⟨[], [], by simp, by simp⟩
    exact covers.aligned
  | cons first rest =>
    rw [ts] at aligned
    simp only
    cases path : namesFrom first (first :: rest) with
    | error t =>
      intro d mem
      rw [List.mem_singleton.mp mem]
      rcases mem_of_namesFrom_error _ path with rfl | among
      · exact aligned t List.mem_cons_self
      · exact aligned t among
    | ok names =>
      cases scope.type? (String.ofList first.text) with
      | none =>
        intro d mem
        rw [List.mem_singleton.mp mem]
        exact aligned first List.mem_cons_self
      | some type =>
        intro d mem
        cases mem

end Path

end DirectiveTemplates
