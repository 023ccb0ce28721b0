import DirectiveTemplates.Proofs.Text.Parts
import Mathlib.Logic.Relation

/-!
Spellings of one name. Normalizing keeps the parts of a name that say something and forgets the
rest: white space at the ends and next to dots, and parts that are empty. Two names are normalized
to the same one if and only if they differ in these.
-/
namespace DirectiveTemplates.QualifiedName

open Text

/-- The ends of a text and the places next to a dot. -/
def AtEdge (before after : List Char) : Prop :=
  before = [] ∨ after = [] ∨ ['.'] <:+ before ∨ ['.'] <+: after

/-- One character more that changes nothing: white space at an end or next to a dot, or one more dot
there, with an empty part beside it. -/
inductive Loosens : List Char → List Char → Prop
  | whiteSpace (before after : List Char) {c : Char} (edge : AtEdge before after)
      (blank : isBlank c = true) : Loosens (before ++ after) (before ++ c :: after)
  | emptyPart (before after : List Char) (edge : AtEdge before after) :
      Loosens (before ++ after) (before ++ '.' :: after)

/-- Texts that differ only in white space at the ends or next to dots and in empty parts. -/
abbrev Respells : List Char → List Char → Prop := Relation.EqvGen Loosens

def Respelled (name other : String) : Prop := Respells name.toList other.toList

/-! A spelling has no influence on the parts that say something. -/

theorem trimmedParts_whiteSpace {before after : List Char} {c : Char}
    (edge : AtEdge before after) (blank : isBlank c = true) :
    trimmedParts (before ++ c :: after) = trimmedParts (before ++ after) := by
  have alone : ∀ d ∈ [c], isBlank d = true := by simpa using blank
  have first (cs : List Char) : trimmedParts (c :: cs) = trimmedParts cs :=
    trimmedParts_blanks_append alone cs
  have last (cs : List Char) : trimmedParts (cs ++ [c]) = trimmedParts cs :=
    trimmedParts_append_blanks alone cs
  rcases edge with rfl | rfl | ⟨before, rfl⟩ | ⟨after, rfl⟩
  · exact first after
  · rw [last, List.append_nil]
  · simp only [List.append_assoc, List.singleton_append, trimmedParts_append, first]
  · rw [← List.singleton_append, ← List.append_assoc, List.singleton_append, trimmedParts_append,
      trimmedParts_append, last]

theorem filledParts_emptyPart {before after : List Char} (edge : AtEdge before after) :
    filledParts (before ++ '.' :: after) = filledParts (before ++ after) := by
  have nothing : filledParts [] = [] := rfl
  have first (cs : List Char) : filledParts ('.' :: cs) = filledParts cs := filledParts_append [] cs
  rcases edge with rfl | rfl | ⟨before, rfl⟩ | ⟨after, rfl⟩
  · exact first after
  · rw [filledParts_append, nothing, List.append_nil, List.append_nil]
  · simp only [List.append_assoc, List.singleton_append, filledParts_append, first]
  · simp only [List.singleton_append, filledParts_append, first]

theorem filledParts_of_loosens {cs ds : List Char} (h : Loosens cs ds) :
    filledParts cs = filledParts ds := by
  cases h with
  | whiteSpace before after edge blank =>
    rw [filledParts, filledParts, trimmedParts_whiteSpace edge blank]
  | emptyPart before after edge => exact (filledParts_emptyPart edge).symm

theorem filledParts_of_respells {cs ds : List Char} (h : Respells cs ds) :
    filledParts cs = filledParts ds := by
  induction h with
  | rel cs ds step => exact filledParts_of_loosens step
  | refl cs => rfl
  | symm cs ds _ ih => exact ih.symm
  | trans cs ds es _ _ first second => exact first.trans second

/-! Every name is a spelling of its normal form. -/

theorem AtEdge.within {before front back after : List Char} (edge : AtEdge front back)
    (opens : before = [] ∨ ['.'] <:+ before) (closes : after = [] ∨ ['.'] <+: after) :
    AtEdge (before ++ front) (back ++ after) := by
  rcases edge with rfl | rfl | suffix | starts
  · rw [List.append_nil]
    exact opens.imp id fun dot => Or.inr (Or.inl dot)
  · rw [List.nil_append]
    exact Or.inr (closes.imp id Or.inr)
  · exact Or.inr (Or.inr (Or.inl (suffix.trans (List.suffix_append before front))))
  · exact Or.inr (Or.inr (Or.inr (starts.trans (List.prefix_append back after))))

/-- What stands between dots or ends may be spelled anew by itself. -/
theorem Respells.within {cs ds : List Char} (h : Respells cs ds) (before after : List Char)
    (opens : before = [] ∨ ['.'] <:+ before) (closes : after = [] ∨ ['.'] <+: after) :
    Respells (before ++ cs ++ after) (before ++ ds ++ after) := by
  induction h with
  | rel cs ds step =>
    apply Relation.EqvGen.rel
    cases step with
    | whiteSpace front back edge blank =>
      simpa using Loosens.whiteSpace _ _ (edge.within opens closes) blank
    | emptyPart front back edge => simpa using Loosens.emptyPart _ _ (edge.within opens closes)
  | refl cs => exact .refl _
  | symm cs ds _ ih => exact .symm _ _ ih
  | trans cs ds es _ _ first second => exact .trans _ _ _ first second

section blanks

variable {blanks : List Char} (all : ∀ c ∈ blanks, isBlank c = true)

include all

theorem respells_blanks_append (cs : List Char) : Respells (blanks ++ cs) cs := by
  induction blanks with
  | nil => exact .refl _
  | cons c blanks ih =>
    obtain ⟨here, later⟩ := List.forall_mem_cons.mp all
    have step : Loosens (blanks ++ cs) (c :: (blanks ++ cs)) :=
      Loosens.whiteSpace [] (blanks ++ cs) (Or.inl rfl) here
    exact .trans _ _ _ (.symm _ _ (.rel _ _ step)) (ih later)

theorem respells_append_blanks (cs : List Char) : Respells (cs ++ blanks) cs := by
  induction blanks generalizing cs with
  | nil =>
    rw [List.append_nil]
    exact .refl _
  | cons c blanks ih =>
    obtain ⟨here, later⟩ := List.forall_mem_cons.mp all
    have step := Loosens.whiteSpace cs [] (Or.inr (Or.inl rfl)) here
    rw [List.append_nil] at step
    rw [← List.singleton_append, ← List.append_assoc]
    exact .trans _ _ _ (ih later (cs ++ [c])) (.symm _ _ (.rel _ _ step))

end blanks

theorem respells_trim (cs : List Char) : Respells cs (trim cs) := by
  have before : ∀ c ∈ cs.takeWhile isBlank, isBlank c = true :=
    fun c mem => List.mem_takeWhile_imp mem
  obtain ⟨behind, blank, eq⟩ := exists_trim_append cs
  have outer := respells_blanks_append before (trim cs ++ behind)
  rw [← eq] at outer
  exact .trans _ _ _ outer (respells_append_blanks blank (trim cs))

/-- A part joins the parts behind it, unless it is empty. -/
theorem respells_joinDots_cons (part : List Char) (ps : List (List Char)) :
    Respells (part ++ '.' :: joinDots ps) (joinDots ([part].filter (!·.isEmpty) ++ ps)) := by
  cases part with
  | nil =>
    have step : Loosens (joinDots ps) ('.' :: joinDots ps) :=
      Loosens.emptyPart [] (joinDots ps) (Or.inl rfl)
    exact .symm _ _ (.rel _ _ step)
  | cons c part =>
    cases ps with
    | nil =>
      have step := Loosens.emptyPart (c :: part) [] (Or.inr (Or.inl rfl))
      rw [List.append_nil] at step
      exact .symm _ _ (.rel _ _ step)
    | cons next ps => exact .refl _

theorem respells_joinDots (cs : List Char) : Respells cs (joinDots (filledParts cs)) := by
  induction cs using dots_induction with
  | single part dotless =>
    have alone : joinDots ([trim part].filter (!·.isEmpty)) = trim part := by
      cases trim part <;> rfl
    rw [filledParts_of_not_mem dotless, alone]
    exact respells_trim part
  | dotted part rest dotless ih =>
    have front : Respells (part ++ '.' :: rest) (trim part ++ '.' :: rest) := by
      simpa using (respells_trim part).within [] ('.' :: rest) (Or.inl rfl) (Or.inr ⟨rest, rfl⟩)
    have dot : ['.'] <:+ trim part ++ ['.'] := List.suffix_append (trim part) ['.']
    have back : Respells (trim part ++ '.' :: rest)
        (trim part ++ '.' :: joinDots (filledParts rest)) := by
      simpa using ih.within (trim part ++ ['.']) [] (Or.inr dot) (Or.inl rfl)
    rw [filledParts_append, filledParts_of_not_mem dotless]
    exact .trans _ _ _ front (.trans _ _ _ back (respells_joinDots_cons _ _))

theorem respelled_normalize (name : String) : Respelled name (normalize name) := by
  rw [Respelled, normalize_eq, String.toList_ofList]
  exact respells_joinDots name.toList

theorem normalize_of_respelled {name other : String} (h : Respelled name other) :
    normalize name = normalize other := by
  rw [normalize_eq, normalize_eq, filledParts_of_respells h]

theorem respelled_iff (name other : String) :
    Respelled name other ↔ normalize name = normalize other := by
  constructor
  · exact normalize_of_respelled
  · intro same
    have front := respelled_normalize name
    have back := respelled_normalize other
    rw [same] at front
    exact .trans _ _ _ front (.symm _ _ back)

/-- Normalizing keeps the parts between dots that say something, trimmed and with single dots
between them. It leaves its own results as they are, and it tells two names apart unless they are
spellings of one. -/
theorem normalize_plain_splitting (name other : String) :
    normalize name = String.ofList (['.'].intercalate
      (((name.toList.splitOn '.').map trim).filter (!·.isEmpty))) ∧
    normalize (normalize name) = normalize name ∧
    (Respelled name other ↔ normalize name = normalize other) := by
  refine ⟨?_, ?_, ?_⟩
  · rw [normalize_eq, joinDots_eq_intercalate]
    rfl
  · exact (normalize_of_respelled (respelled_normalize name)).symm
  · exact respelled_iff name other

end DirectiveTemplates.QualifiedName
