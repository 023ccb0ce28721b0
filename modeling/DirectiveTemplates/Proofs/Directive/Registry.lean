import DirectiveTemplates.Directive.Registry
import Mathlib.Data.List.TakeWhile

/-!
What a registry can hold. Every signature in it is the one that the class table has for its class,
whatever packages were used and under whatever prefixes; its keys tell prefixes and names apart.
-/
namespace DirectiveTemplates

structure Registration where
  space : String
  signature : Signature

def latest (rs : List Registration) (space name : String) : Option Signature :=
  (rs.reverse.find? fun r => r.space == space && r.signature.name == name).map (·.signature)

theorem latest_append (rs : List Registration) (r : Registration) (space name : String) :
    latest (rs ++ [r]) space name =
      if space = r.space ∧ name = r.signature.name then some r.signature
      else latest rs space name := by
  by_cases same : space = r.space ∧ name = r.signature.name
  · simp [latest, same]
  · have other : (r.space == space && r.signature.name == name) = false := by
      rw [Bool.eq_false_iff]
      intro both
      simp only [Bool.and_eq_true, beq_iff_eq] at both
      exact same ⟨both.1.symm, both.2.symm⟩
    simp [latest, same, other]

namespace Registry

/-- Before the first colon of a key stands its prefix. -/
theorem splitFirst_tag {space : String} (free : ':' ∉ space.toList) (name : String) :
    Text.splitFirst ':' (tag space name).toList = some (space.toList, name.toList) := by
  have chars : (tag space name).toList = space.toList ++ ':' :: name.toList := by
    simp [tag]
  have inside : ∀ c ∈ space.toList, (c != ':') = true := by
    intro c mem
    simpa using fun eq : c = ':' => free (eq ▸ mem)
  rw [Text.splitFirst, chars, List.dropWhile_append_of_pos inside,
    List.takeWhile_append_of_pos inside]
  simp

theorem tag_inj {space space' name name' : String} (free : ':' ∉ space.toList)
    (free' : ':' ∉ space'.toList) :
    tag space name = tag space' name' ↔ space = space' ∧ name = name' := by
  constructor
  · intro same
    have split := splitFirst_tag free name
    rw [same, splitFirst_tag free' name'] at split
    simp only [Option.some.injEq, Prod.mk.injEq, String.toList_inj] at split
    exact ⟨split.1.symm, split.2.symm⟩
  · rintro ⟨rfl, rfl⟩
    rfl

/-- What was remembered of a class is what its source has. -/
def Remembers (classes : ClassSource) (r : Registry) : Prop :=
  ∀ name s, r.described.get? name = some s → signatureOf classes name = .ok s

theorem directives_describe (r : Registry) (classes : ClassSource) (name : String) :
    (r.describe classes name).2.directives = r.directives := by
  unfold describe
  split
  · rfl
  · split <;> rfl

theorem remembers_empty (classes : ClassSource) : Remembers classes empty := by
  intro name s h
  cases h

/-- A description is the one of the source, whether it was remembered or not. -/
theorem Remembers.describe {classes : ClassSource} {r : Registry} (h : Remembers classes r)
    (name : String) : (r.describe classes name).1 = signatureOf classes name ∧
      Remembers classes (r.describe classes name).2 := by
  unfold Registry.describe
  cases known : r.described.get? name with
  | some s => exact ⟨(h name s known).symm, h⟩
  | none =>
    cases found : signatureOf classes name with
    | error p => exact ⟨rfl, h⟩
    | ok s =>
      refine ⟨rfl, ?_⟩
      intro name' s' found'
      simp only [OrderedMap.get?_insert] at found'
      split at found'
      · rename_i eq
        cases found'
        rw [eq]
        exact found
      · exact h name' s' found'

/-- A signature that is looked up names its class. -/
theorem owner_of_signatureOf {classes : ClassSource} {name : String} {s : Signature}
    (h : signatureOf classes name = .ok s) : s.owner = name := by
  unfold signatureOf at h
  split at h
  · cases h
  · cases h
  · cases h
    rfl

structure Sound (classes : ClassTable) (r : Registry) : Prop where
  directives : ∀ tag s, r.directives.get? tag = some s → signatureOf classes s.owner = .ok s
  described : ∀ name s, r.described.get? name = some s → signatureOf classes name = .ok s

variable {classes : ClassTable} {r : Registry} {s : Signature}

/-- The signature of a class is its entry in the table, when the entry names the class. -/
theorem signatureOf_of_describe {name : String} (h : classes.describe name = some (some s))
    (owner : s.owner = name) : signatureOf classes name = .ok s := by
  unfold signatureOf
  rw [h]
  cases owner
  rfl

theorem sound_empty (classes : ClassTable) : Sound classes empty := by
  constructor
  · intro tag s h
    cases h
  · intro name s h
    cases h

namespace Sound

theorem register (h : Sound classes r) (hs : signatureOf classes s.owner = .ok s)
    (space : String) : Sound classes (r.register space s) := by
  refine ⟨?_, h.described⟩
  intro tag' s' found
  simp only [Registry.register, OrderedMap.get?_insert] at found
  split at found
  · cases found
    exact hs
  · exact h.directives tag' s' found

/-- A description is the one of the table, and looking it up keeps the registry sound. -/
theorem describe (h : Sound classes r) (name : String) :
    (r.describe classes name).1 = signatureOf classes name ∧
      Sound classes (r.describe classes name).2 := by
  have remembers : Remembers classes r := h.described
  obtain ⟨found, remembers⟩ := remembers.describe name
  refine ⟨found, ?_, remembers⟩
  rw [directives_describe]
  exact h.directives

theorem enter (h : Sound classes r) (space name : String) :
    Sound classes (Registry.enter classes space r name).1 := by
  obtain ⟨eq, sound⟩ := h.describe name
  unfold Registry.enter
  generalize r.describe classes name = described at eq sound
  obtain ⟨outcome, r'⟩ := described
  cases outcome with
  | error p => exact sound
  | ok s =>
    have same : signatureOf classes name = .ok s := eq.symm
    refine sound.register ?_ space
    rw [owner_of_signatureOf same]
    exact same

theorem enterAll (h : Sound classes r) (space : String) (names : List String) :
    Sound classes (Registry.enterAll classes space names r).1 := by
  induction names generalizing r with
  | nil => exact h
  | cons name names ih => exact ih (h.enter space name)

theorem usePackage (h : Sound classes r) (config : Config) (resources : Resources)
    (space package : String) (anchor : Span) :
    Sound classes (r.usePackage config classes resources space package anchor).registry := by
  simp only [Registry.usePackage]
  cases resources (config.descriptorResource package) with
  | absent => exact h
  | refused message => exact h
  | stream bytes failure =>
    have all := h.enterAll space
      ((descriptorEntries bytes failure).map fun entry => package ++ "." ++ entry)
    cases failure with
    | none => exact all
    | some cause => exact all

theorem resolve (h : Sound classes r) {space name : String}
    (found : r.resolve space name = some s) :
    signatureOf classes s.owner = .ok s :=
  h.directives _ s found

end Sound

end Registry

end DirectiveTemplates
