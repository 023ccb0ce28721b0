import DirectiveTemplates.Proofs.Directive.Registry
import DirectiveTemplates.Proofs.OrderedMap
import Mathlib.Data.Finset.Card

/-!
Registries that remember classes beside registries that look every class up anew. Both give the
same answers to all requests, and both hold what was registered last under each prefix and name.
-/
namespace DirectiveTemplates

def Registration.pair (m : Registration) : String × String := (m.space, m.signature.name)

def Registration.entry (m : Registration) : String × Signature :=
  (Registry.tag m.space m.signature.name, m.signature)

/-- What a registry is asked to do. The resources may differ from use to use. -/
inductive Request where
  | use (space package : String) (anchor : Span) (resources : Resources)
  | register (space : String) (signature : Signature)

def Request.space : Request → String
  | use space _ _ _ | register space _ => space

structure Answer where
  diagnostics : List Diagnostic
  failure : Option ReadFailure
  deriving DecidableEq, Repr

namespace Registry

def perform (config : Config) (classes : ClassSource) (r : Registry) :
    Request → Registry × Answer
  | .use space package anchor resources =>
    let used := r.usePackage config classes resources space package anchor
    (used.registry, ⟨used.diagnostics, used.failure⟩)
  | .register space s => (r.register space s, ⟨[], none⟩)

def performAll (config : Config) (classes : ClassSource) :
    List Request → Registry → Registry × List Answer
  | [], r => (r, [])
  | q :: qs, r =>
    let (r, answer) := r.perform config classes q
    let (r, answers) := performAll config classes qs r
    (r, answer :: answers)

end Registry

/-- A registry without a memory of classes. It keeps the registrations that it made, the oldest
first. -/
structure Uncached where
  directives : OrderedMap Signature
  made : List Registration

namespace Uncached

open Registry

def empty : Uncached := ⟨.empty, []⟩

def resolve (u : Uncached) (space name : String) : Option Signature :=
  u.directives.get? (tag space name)

def size (u : Uncached) : Nat := u.directives.size

def register (u : Uncached) (space : String) (s : Signature) : Uncached :=
  ⟨u.directives.insert (tag space s.name) s, u.made ++ [⟨space, s⟩]⟩

def enter (classes : ClassSource) (space : String) (u : Uncached) (name : String) :
    Uncached × List PackageProblem :=
  match signatureOf classes name with
  | .ok s => (u.register space s, [])
  | .error p => (u, [p])

def enterAll (classes : ClassSource) (space : String) :
    List String → Uncached → Uncached × List PackageProblem
  | [], u => (u, [])
  | name :: names, u =>
    let (u, problems) := enter classes space u name
    let (u, more) := enterAll classes space names u
    (u, problems ++ more)

/-- Registers a package line by line, and describes the class of every line afresh. -/
def usePackage (config : Config) (classes : ClassSource) (resources : Resources)
    (space package : String) (anchor : Span) (u : Uncached) : Uncached × Answer :=
  let report (ps : List PackageProblem) : List Diagnostic := ps.map fun p => ⟨anchor, p.message⟩
  let resource := config.descriptorResource package
  match resources resource with
  | .absent => (u, ⟨report [.notFound package], none⟩)
  | .refused message => (u, ⟨report [.refused package message], none⟩)
  | .stream bytes failure =>
    let names := (descriptorEntries bytes failure).map fun entry => package ++ "." ++ entry
    let (u, problems) := enterAll classes space names u
    match failure with
    | none => (u, ⟨report problems, none⟩)
    | some cause =>
      let (more, fatal) := onFailure config.readPolicy package resource cause
      (u, ⟨report (problems ++ more), fatal⟩)

def perform (config : Config) (classes : ClassSource) (u : Uncached) :
    Request → Uncached × Answer
  | .use space package anchor resources =>
    u.usePackage config classes resources space package anchor
  | .register space s => (u.register space s, ⟨[], none⟩)

def performAll (config : Config) (classes : ClassSource) :
    List Request → Uncached → Uncached × List Answer
  | [], u => (u, [])
  | q :: qs, u =>
    let (u, answer) := u.perform config classes q
    let (u, answers) := performAll config classes qs u
    (u, answer :: answers)

end Uncached

namespace Registry

variable {classes : ClassSource} {r : Registry} {u : Uncached}

/-- A registry that remembers what its source has stands for one without a memory. -/
structure Refines (classes : ClassSource) (r : Registry) (u : Uncached) : Prop where
  directives : r.directives = u.directives
  remembers : r.Remembers classes

namespace Refines

theorem empty (classes : ClassSource) : Refines classes Registry.empty Uncached.empty :=
  ⟨rfl, remembers_empty classes⟩

theorem register (h : Refines classes r u) (space : String) (s : Signature) :
    Refines classes (r.register space s) (u.register space s) := by
  refine ⟨?_, h.remembers⟩
  simp only [Registry.register, Uncached.register, h.directives]

theorem enter (h : Refines classes r u) (space name : String) :
    Refines classes (Registry.enter classes space r name).1 (u.enter classes space name).1 ∧
      (Registry.enter classes space r name).2 = (u.enter classes space name).2 := by
  obtain ⟨found, remembers⟩ := h.remembers.describe name
  have kept := directives_describe r classes name
  unfold Registry.enter Uncached.enter
  rw [← found]
  generalize r.describe classes name = described at remembers kept
  obtain ⟨outcome, r'⟩ := described
  have refines : Refines classes r' u := ⟨kept.trans h.directives, remembers⟩
  cases outcome with
  | ok s => exact ⟨refines.register space s, rfl⟩
  | error p => exact ⟨refines, rfl⟩

theorem enterAll (h : Refines classes r u) (space : String) (names : List String) :
    Refines classes (Registry.enterAll classes space names r).1
        (u.enterAll classes space names).1 ∧
      (Registry.enterAll classes space names r).2 = (u.enterAll classes space names).2 := by
  induction names generalizing r u with
  | nil => exact ⟨h, rfl⟩
  | cons name names ih =>
    obtain ⟨first, problems⟩ := h.enter space name
    obtain ⟨all, more⟩ := ih first
    refine ⟨all, ?_⟩
    simp only [Registry.enterAll, Uncached.enterAll, problems, more]

theorem usePackage (h : Refines classes r u) (config : Config) (resources : Resources)
    (space package : String) (anchor : Span) :
    let used := r.usePackage config classes resources space package anchor
    let used' := u.usePackage config classes resources space package anchor
    Refines classes used.registry used'.1 ∧ ⟨used.diagnostics, used.failure⟩ = used'.2 := by
  simp only [Registry.usePackage, Uncached.usePackage]
  cases resources (config.descriptorResource package) with
  | absent => exact ⟨h, rfl⟩
  | refused message => exact ⟨h, rfl⟩
  | stream bytes failure =>
    obtain ⟨all, problems⟩ := h.enterAll space
      ((descriptorEntries bytes failure).map fun entry => package ++ "." ++ entry)
    cases failure with
    | none => exact ⟨all, by simp only [problems]⟩
    | some cause => exact ⟨all, by simp only [problems]⟩

theorem perform (h : Refines classes r u) (config : Config) (q : Request) :
    Refines classes (r.perform config classes q).1 (u.perform config classes q).1 ∧
      (r.perform config classes q).2 = (u.perform config classes q).2 := by
  cases q with
  | use space package anchor resources => exact h.usePackage config resources space package anchor
  | register space s => exact ⟨h.register space s, rfl⟩

/-- After any requests the two still stand for each other, and their answers were the same. -/
theorem performAll (h : Refines classes r u) (config : Config) (qs : List Request) :
    Refines classes (r.performAll config classes qs).1 (u.performAll config classes qs).1 ∧
      (r.performAll config classes qs).2 = (u.performAll config classes qs).2 := by
  induction qs generalizing r u with
  | nil => exact ⟨h, rfl⟩
  | cons q qs ih =>
    obtain ⟨first, answer⟩ := h.perform config q
    obtain ⟨all, answers⟩ := ih first
    refine ⟨all, ?_⟩
    simp only [Registry.performAll, Uncached.performAll, answer, answers]

theorem resolve (h : Refines classes r u) (space name : String) :
    r.resolve space name = u.resolve space name := by
  rw [Registry.resolve, h.directives, Uncached.resolve]

theorem size (h : Refines classes r u) : r.size = u.size := by
  rw [Registry.size, h.directives, Uncached.size]

end Refines

end Registry

namespace Uncached

open Registry

variable {u : Uncached}

/-- The directives are what the registrations wrote, all of them under prefixes without a colon. -/
structure Recorded (u : Uncached) : Prop where
  written : u.directives.WrittenBy (u.made.map Registration.entry)
  free : ∀ m ∈ u.made, ':' ∉ m.space.toList

namespace Recorded

theorem empty : Recorded Uncached.empty :=
  ⟨OrderedMap.writtenBy_empty, fun _ mem => absurd mem List.not_mem_nil⟩

theorem register (h : u.Recorded) {space : String} (free : ':' ∉ space.toList) (s : Signature) :
    (u.register space s).Recorded := by
  constructor
  · have written := h.written.insert (tag space s.name) s
    simpa [Uncached.register, Registration.entry] using written
  · intro m mem
    rcases List.mem_append.mp mem with mem | mem
    · exact h.free m mem
    · rw [List.mem_singleton.mp mem]
      exact free

theorem enter (h : u.Recorded) (classes : ClassSource) {space : String}
    (free : ':' ∉ space.toList) (name : String) :
    (u.enter classes space name).1.Recorded := by
  unfold Uncached.enter
  split
  · exact h.register free _
  · exact h

theorem enterAll (h : u.Recorded) (classes : ClassSource) {space : String}
    (free : ':' ∉ space.toList) (names : List String) :
    (u.enterAll classes space names).1.Recorded := by
  induction names generalizing u with
  | nil => exact h
  | cons name names ih => exact ih (h.enter classes free name)

theorem perform (h : u.Recorded) (config : Config) (classes : ClassSource) (q : Request)
    (free : ':' ∉ q.space.toList) :
    (u.perform config classes q).1.Recorded := by
  cases q with
  | register space s => exact h.register free s
  | use space package anchor resources =>
    simp only [Uncached.perform, Uncached.usePackage]
    cases resources (config.descriptorResource package) with
    | absent => exact h
    | refused message => exact h
    | stream bytes failure =>
      have all := h.enterAll classes free
        ((descriptorEntries bytes failure).map fun entry => package ++ "." ++ entry)
      cases failure with
      | none => exact all
      | some cause => exact all

theorem performAll (h : u.Recorded) (config : Config) (classes : ClassSource)
    {qs : List Request} (free : ∀ q ∈ qs, ':' ∉ q.space.toList) :
    (u.performAll config classes qs).1.Recorded := by
  induction qs generalizing u with
  | nil => exact h
  | cons q qs ih =>
    obtain ⟨first, others⟩ := List.forall_mem_cons.mp free
    exact ih (h.perform config classes q first) others

/-- Under a tag stands what was registered last under its prefix and name. -/
theorem lookup_entries {ms : List Registration} (free : ∀ m ∈ ms, ':' ∉ m.space.toList)
    {space : String} (free' : ':' ∉ space.toList) (name : String) :
    (ms.map Registration.entry).lookup (tag space name) =
      (ms.find? fun m => m.space == space && m.signature.name == name).map (·.signature) := by
  induction ms with
  | nil => rfl
  | cons m ms ih =>
    obtain ⟨first, others⟩ := List.forall_mem_cons.mp free
    have same : tag space name = tag m.space m.signature.name ↔
        m.space = space ∧ m.signature.name = name := by
      rw [tag_inj free' first, eq_comm, eq_comm (a := name)]
    rw [List.map_cons, Registration.entry, List.lookup_cons, List.find?_cons, ih others]
    by_cases here : m.space = space ∧ m.signature.name = name
    · simp [same.mpr here, here]
    · have elsewhere : (tag space name == tag m.space m.signature.name) = false := by
        simpa using fun eq => here (same.mp eq)
      have other : (m.space == space && m.signature.name == name) = false := by
        simpa using here
      rw [elsewhere, other]

theorem resolve (h : u.Recorded) {space : String} (free : ':' ∉ space.toList) (name : String) :
    u.resolve space name = latest u.made space name := by
  rw [Uncached.resolve, h.written.get?, latest, ← List.map_reverse]
  exact lookup_entries (fun m mem => h.free m (List.mem_reverse.mp mem)) free name

/-- Only prefixes without a colon have a latest registration. -/
theorem free_of_latest (h : u.Recorded) {space name : String}
    (registered : (latest u.made space name).isSome) : ':' ∉ space.toList := by
  rw [latest, Option.isSome_map, List.find?_isSome] at registered
  obtain ⟨m, mem, same⟩ := registered
  simp only [Bool.and_eq_true, beq_iff_eq] at same
  rw [← same.1]
  exact h.free m (List.mem_reverse.mp mem)

/-- The directives are as many as the pairs of a prefix and a name that were registered. -/
theorem size (h : u.Recorded) : u.size = (u.made.map Registration.pair).toFinset.card := by
  have keys : u.directives.keys.toFinset =
      (u.made.map Registration.pair).toFinset.image fun p => tag p.1 p.2 := by
    ext key
    rw [List.mem_toFinset, h.written.mem_keys]
    simp [Registration.entry, Registration.pair]
  have distinct : Set.InjOn (fun p : String × String => tag p.1 p.2)
      (u.made.map Registration.pair).toFinset := by
    rintro ⟨space, name⟩ mem ⟨space', name'⟩ mem' same
    simp only [List.coe_toFinset, List.mem_map, Set.mem_ofPred_eq] at mem mem'
    obtain ⟨m, mem, eq⟩ := mem
    obtain ⟨m', mem', eq'⟩ := mem'
    cases eq
    cases eq'
    obtain ⟨spaces, names⟩ := (tag_inj (h.free m mem) (h.free m' mem')).mp same
    exact Prod.ext spaces names
  calc u.size = u.directives.keys.length := (List.length_map ..).symm
    _ = u.directives.keys.toFinset.card := (List.toFinset_card_of_nodup u.directives.nodup).symm
    _ = (u.made.map Registration.pair).toFinset.card := by
      rw [keys, Finset.card_image_of_injOn distinct]

end Recorded

end Uncached

namespace Registry

/-- A registry answers every run of requests as one that has no memory of classes, and gives for
every prefix and name what was registered last under them. -/
theorem performAll_eq_uncached (config : Config) (classes : ClassSource) (qs : List Request)
    (free : ∀ q ∈ qs, ':' ∉ q.space.toList) :
    let r := (empty.performAll config classes qs).1
    let u := (Uncached.empty.performAll config classes qs).1
    (empty.performAll config classes qs).2 = (Uncached.empty.performAll config classes qs).2 ∧
    (∀ space name, r.resolve space name = u.resolve space name) ∧
    r.size = u.size ∧
    (∀ space name, ':' ∉ space.toList ∨ (latest u.made space name).isSome →
      r.resolve space name = latest u.made space name) ∧
    r.size = (u.made.map Registration.pair).toFinset.card := by
  intro r u
  obtain ⟨refines, answers⟩ := (Refines.empty classes).performAll config qs
  have recorded := Uncached.Recorded.empty.performAll config classes free
  refine ⟨answers, refines.resolve, refines.size, ?_, refines.size.trans recorded.size⟩
  intro space name known
  rw [refines.resolve]
  apply recorded.resolve
  rcases known with free | registered
  · exact free
  · exact recorded.free_of_latest registered

/-- A conditional of its own, registered without a package. -/
def ownConditional : Signature := { ClassTable.conditionalSignature with owner := "app.If" }

/-- Uses of one package under two prefixes, one of them cut off by a failure after a line that names
no class, and a directive registered in the place of one of the package. -/
def mixedRequests : List Request :=
  [.use "std" standardPackage ⟨0, 0⟩ fun _ =>
      .stream (Text.encodeUtf8 "IfComponent\nTextComponent") none,
    .register "std" ownConditional,
    .use "f" standardPackage ⟨3, 9⟩ fun _ =>
      .stream (Text.encodeUtf8 "IfComponent\nNone\nText") (some "broken pipe")]

theorem performAll_mixedRequests :
    (∀ q ∈ mixedRequests, ':' ∉ q.space.toList) ∧
    let r := (empty.performAll {} ClassTable.standard mixedRequests).1
    (r.resolve "std" "if").map (·.owner) = some "app.If" ∧
      (r.resolve "f" "if").map (·.owner) = some ClassTable.conditionalClass ∧
      r.size = 3 := by
  have free : ∀ q ∈ mixedRequests, ':' ∉ q.space.toList := by
    simp [mixedRequests, Request.space]
  have refined := performAll_eq_uncached {} ClassTable.standard mixedRequests free
  obtain ⟨-, -, -, resolve, size⟩ := refined
  refine ⟨free, ?_, ?_, ?_⟩
  · rw [resolve "std" "if" (.inl (by decide))]
    decide +kernel
  · rw [resolve "f" "if" (.inl (by decide))]
    decide +kernel
  · rw [size]
    decide +kernel

end Registry

end DirectiveTemplates
