import DirectiveTemplates.Proofs.Binding.Supplied
import DirectiveTemplates.Proofs.Markup.Legible

/-!
Elements of a clean compilation. The markup was read without a problem, so the elements that stay
in the bound tree can be written again as they were read.
-/
namespace DirectiveTemplates

open Markup

def HoldsRaw (tag : String) (children : List TemplateNode) : Prop :=
  ∃ raw : Option String, children = raw.toList.map .text ∧
    ∀ value ∈ raw, FreeOfEnd tag.toList value.toList

namespace TemplateNode

mutual

def Legible : TemplateNode → Prop
  | .text _ => True
  | .element tag attributes children =>
    IsTag tag attributes.keys ∧ (isRawText tag = true → HoldsRaw tag children) ∧
      LegibleAll children
  | .directive _ content => LegibleAll content

def LegibleAll : List TemplateNode → Prop
  | [] => True
  | n :: ns => n.Legible ∧ LegibleAll ns

end

theorem LegibleAll.append {ns rest : List TemplateNode} (h : LegibleAll ns)
    (h' : LegibleAll rest) : LegibleAll (ns ++ rest) := by
  induction ns with
  | nil => exact h'
  | cons n ns ih => exact ⟨h.1, ih h.2⟩

end TemplateNode

theorem OrderedMap.keys_insertAll_subset (m : OrderedMap α) (es : List (String × α)) :
    ∀ key ∈ (m.insertAll es).keys, key ∈ m.keys ∨ key ∈ es.map Prod.fst := by
  induction es generalizing m with
  | nil => exact fun key mem => Or.inl mem
  | cons e es ih =>
    intro key mem
    rcases ih (m.insert e.1 e.2) key mem with before | later
    · rw [keys_insert] at before
      split at before
      · exact Or.inl before
      · rcases List.mem_append.mp before with old | new
        · exact Or.inl old
        · exact Or.inr (by simp [List.mem_singleton.mp new])
    · exact Or.inr (List.mem_cons_of_mem _ later)

theorem OrderedMap.keys_ofList_subset (es : List (String × α)) :
    ∀ key ∈ (ofList es).keys, key ∈ es.map Prod.fst := by
  intro key mem
  rcases keys_insertAll_subset empty es key mem with none | found
  · exact absurd none List.not_mem_nil
  · exact found

namespace Compiler

open CompileM

variable {c : Compiler}

theorem holdsRaw_bound {name : String} {raw : Option TextNode}
    (free : ∀ t ∈ raw, FreeOfEnd name.toList t.value.toList) :
    HoldsRaw name (raw.toList.map fun t => .text t.value) := by
  refine ⟨raw.map TextNode.value, ?_, ?_⟩
  · cases raw <;> rfl
  · intro value mem
    obtain ⟨t, found, rfl⟩ := Option.map_eq_some_iff.mp mem
    exact free t found

theorem nodes_raw (raw : Option TextNode) :
    Ensures c.classes (c.nodes (raw.toList.map .text)) fun ts =>
      ts = raw.toList.map fun t => .text t.value := by
  cases raw with
  | none => exact Ensures.pure rfl
  | some t =>
    have first : Ensures c.classes (c.node (.text t)) (· = [.text t.value]) := Ensures.pure rfl
    have rest : Ensures c.classes (c.nodes []) (· = []) := Ensures.pure rfl
    apply first.bind
    intro _
    apply rest.bind
    intro _
    apply Ensures.pure
    rintro rfl rfl
    rfl

theorem isTag_bound {tag : StartTag} (h : IsTag tag.name (tag.attributes.map Attribute.name)) :
    IsTag tag.name (OrderedMap.ofList (tag.attributes.map fun a => (a.name, a.value))).keys := by
  refine ⟨h.letter, h.name, ?_⟩
  intro name mem
  apply h.attributes
  simpa [Function.comp_def] using OrderedMap.keys_ofList_subset _ name mem

mutual

theorem node_legible : (n : Node) → n.Legible →
    Ensures c.classes (c.node n) TemplateNode.LegibleAll
  | .text t, _ => Ensures.pure ⟨trivial, trivial⟩
  | .comment _, _ => Ensures.pure trivial
  | .instruction i, _ => by
    apply Ensures.bind (instruction_spec i)
    intro _
    exact Ensures.pure fun _ => trivial
  | .element tag span stop children, h => by
    obtain ⟨spelled, raw, legible⟩ := h
    have inner := nodes_legible children legible
    rw [Compiler.node]
    split
    · have bound := isTag_bound spelled
      cases isRaw : isRawText tag.name with
      | true =>
        obtain ⟨text, rfl, free⟩ := raw isRaw
        apply Ensures.bind (nodes_raw text)
        intro ts
        apply Ensures.pure
        rintro rfl
        refine ⟨⟨bound, fun _ => holdsRaw_bound free, ?_⟩, trivial⟩
        cases text with
        | none => trivial
        | some t => exact ⟨trivial, trivial⟩
      | false =>
        apply Ensures.bind inner
        intro ts
        apply Ensures.pure
        intro all
        exact ⟨⟨bound, by simp [isRaw], all⟩, trivial⟩
    · apply Ensures.bind Ensures.get
      intro p
      split
      · apply Ensures.bind (Ensures.problem _ _)
        intro _
        exact Ensures.pure fun impossible => impossible.elim
      · rename_i s found
        apply Ensures.bind (directiveParts_spec tag s)
        intro use
        apply Ensures.retracting _
        split
        · apply Ensures.bind inner
          intro ts
          exact Ensures.pure fun all _ _ => ⟨all, trivial⟩
        · have none : TemplateNode.LegibleAll [.directive use []] := ⟨trivial, trivial⟩
          split
          · apply Ensures.bind (Ensures.problem _ _)
            intro _
            exact Ensures.pure fun _ _ _ => none
          · exact Ensures.pure fun _ _ => none

theorem nodes_legible : (ns : List Node) → LegibleAll ns →
    Ensures c.classes (c.nodes ns) TemplateNode.LegibleAll
  | [], _ => Ensures.pure trivial
  | n :: ns, h => by
    rw [Compiler.nodes]
    apply Ensures.bind (node_legible n h.1)
    intro first
    apply Ensures.bind (nodes_legible ns h.2)
    intro rest
    exact Ensures.pure fun later here => here.append later

end

theorem template_legible (source className : String) :
    Ensures c.classes (c.template source className) TemplateNode.LegibleAll := by
  apply Ensures.bind (usePackage_spec _ _ _)
  intro _
  refine Ensures.bind (Ensures.modify (fun _ => rfl) fun _ => rfl) fun _ => ?_
  apply Ensures.bind (Ensures.report _)
  intro _
  by_cases read : (parse source).problems = []
  · exact (Ensures.retracting _ (nodes_legible _ (legible_parse read))).mono fun _ all _ _ _ => all
  · exact (Ensures.retracting _ (nodes_spec _)).mono fun _ _ none _ _ => absurd none read

theorem legible_of_clean {source className : String} {nodes : List TemplateNode}
    (ok : (c.compile source className).result = .ok nodes)
    (clean : (c.compile source className).progress.diagnostics = []) :
    TemplateNode.LegibleAll nodes := by
  obtain ⟨-, -, ensured⟩ := template_legible source className Progress.start _ _ rfl
    (Registry.sound_empty c.classes)
  exact ensured clean nodes ok

end Compiler

end DirectiveTemplates
