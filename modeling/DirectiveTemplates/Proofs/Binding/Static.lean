import DirectiveTemplates.Proofs.Binding.Legible
import DirectiveTemplates.Proofs.Binding.Visits
import DirectiveTemplates.Proofs.Markup.Outline
import DirectiveTemplates.Proofs.Markup.Tidy

/-!
Static templates have no directives. Static markup that was read without a problem is compiled to
one, and nothing but the default package is looked at on the way.
-/
namespace DirectiveTemplates

open Markup

namespace TemplateNode

def isText : TemplateNode → Bool
  | .text _ => true
  | _ => false

def startsText (ns : List TemplateNode) : Bool := ns.head?.any isText

mutual

def Static : TemplateNode → Prop
  | .text value => value ≠ "" ∧ IsPlain value.toList
  | .element tag attributes children =>
    IsTag tag attributes.keys ∧ splitNamespace tag = none ∧ (isVoid tag = true → children = []) ∧
      (isRawText tag = true → HoldsRaw tag children ∧ .text "" ∉ children) ∧
      (isRawText tag = false → StaticAll children)
  | .directive _ _ => False

/-- Static nodes side by side. Two texts next to each other would be written as one. -/
def StaticAll : List TemplateNode → Prop
  | [] => True
  | n :: ns => n.Static ∧ (n.isText = true → startsText ns = false) ∧ StaticAll ns

end

end TemplateNode

namespace Compiler

open CompileM

variable (c : Compiler) {tag : StartTag} {span : Span} {stop : Option Span} {children : List Node}

theorem run_literal (unprefixed : splitNamespace tag.name = none) (span : Span)
    (stop : Option Span) {ts : List TemplateNode} {p : Progress}
    (inner : (c.nodes children).run p = (.ok ts, p)) :
    (c.node (.element tag span stop children)).run p =
      (.ok [.element tag.name (.ofList tag.entries) ts], p) := by
  rw [Compiler.node]
  simp only [unprefixed, run_map, inner]
  rfl

theorem run_cons {n : Node} {ns : List Node} {ts ts' : List TemplateNode} {p : Progress}
    (first : (c.node n).run p = (.ok ts, p)) (rest : (c.nodes ns).run p = (.ok ts', p)) :
    (c.nodes (n :: ns)).run p = (.ok (ts ++ ts'), p) := by
  rw [Compiler.nodes, run_bind, first]
  simp only [run_map, rest]
  rfl

theorem run_raw (raw : Option TextNode) (p : Progress) :
    (c.nodes (raw.toList.map .text)).run p =
      (.ok (raw.toList.map fun t => .text t.value), p) := by
  cases raw <;> rfl

/-- The content of an element of a tidy forest, which may be raw text. -/
theorem exists_static_children (tidy : Node.Tidy (.element tag span stop children))
    (legible : Node.Legible (.element tag span stop children))
    (each : isRawText tag.name = false → ∃ ts, (∀ p, (c.nodes children).run p = (.ok ts, p)) ∧
      TemplateNode.StaticAll ts) :
    ∃ ts, (∀ p, (c.nodes children).run p = (.ok ts, p)) ∧
      TemplateNode.Static (.element tag.name (.ofList tag.entries) ts) := by
  obtain ⟨unprefixed, closed, texts, -⟩ := tidy
  obtain ⟨spelled, raw, -⟩ := legible
  have nothing {ts : List TemplateNode} (run : ∀ p, (c.nodes children).run p = (.ok ts, p))
      (void : isVoid tag.name = true) : ts = [] := by
    have none : children = [] := closed (by simp [StartTag.isClosed, void])
    have run := run .start
    rw [none] at run
    exact (Except.ok.inj (Prod.mk.inj run).1).symm
  cases isRaw : isRawText tag.name with
  | true =>
    obtain ⟨text, rfl, free⟩ := raw isRaw
    refine ⟨_, c.run_raw text, isTag_bound spelled, unprefixed, nothing (c.run_raw text), ?_, ?_⟩
    · refine fun _ => ⟨holdsRaw_bound free, fun mem => ?_⟩
      obtain ⟨t, among, empty⟩ := List.mem_map.mp mem
      exact texts t (List.mem_map_of_mem among) (TemplateNode.text.inj empty)
    · rw [isRaw]
      intro plain
      cases plain
  | false =>
    obtain ⟨ts, run, static⟩ := each isRaw
    refine ⟨ts, run, isTag_bound spelled, unprefixed, nothing run, ?_, fun _ => static⟩
    rw [isRaw]
    intro raw
    cases raw

mutual

theorem exists_static_node : (n : Node) → n.Tidy → n.Legible →
    ∃ t, (∀ p, (c.node n).run p = (.ok [t], p)) ∧ t.Static ∧ t.isText = n.isText
  | .text t, tidy, _ => ⟨.text t.value, fun _ => rfl, tidy, rfl⟩
  | .comment _, tidy, _ => tidy.elim
  | .instruction _, tidy, _ => tidy.elim
  | .element tag span stop children, tidy, legible => by
    obtain ⟨ts, run, static⟩ := c.exists_static_children tidy legible fun plain => by
      obtain ⟨ts, run, static, -⟩ :=
        exists_static_nodes children (tidy.2.2.2 plain) legible.2.2
      exact ⟨ts, run, static⟩
    exact ⟨_, fun p => c.run_literal tidy.1 span stop (run p), static, rfl⟩

/-- A tidy forest is bound to static nodes, whatever is in force, and changes nothing. -/
theorem exists_static_nodes : (ns : List Node) → TidyAll ns → LegibleAll ns →
    ∃ ts, (∀ p, (c.nodes ns).run p = (.ok ts, p)) ∧ TemplateNode.StaticAll ts ∧
      TemplateNode.startsText ts = startsText ns
  | [], _, _ => ⟨[], fun _ => rfl, trivial, rfl⟩
  | n :: ns, tidy, legible => by
    obtain ⟨first, apart, rest⟩ := tidy
    obtain ⟨t, run, static, isText⟩ := exists_static_node n first legible.1
    obtain ⟨ts, run', static', starts⟩ := exists_static_nodes ns rest legible.2
    refine ⟨t :: ts, fun p => c.run_cons (run p) (run' p), ⟨static, ?_, static'⟩, isText⟩
    rw [isText, starts]
    exact apart

end

/-- What static markup is compiled to, by a compiler that can use its default package. -/
theorem compile_static (used : c.defaultUse.failure = none) {source : String} (className : String)
    (static : IsStatic source) (clean : (parse source).problems = []) :
    ∃ ts, (c.compile source className).result = .ok ts ∧ TemplateNode.StaticAll ts := by
  obtain ⟨ts, run, all, -⟩ :=
    c.exists_static_nodes (parse source).nodes (tidy_parse static clean) (legible_parse clean)
  obtain ⟨scope, compiled⟩ := c.compile_of_default used source className
  refine ⟨ts, ?_, all⟩
  rw [compiled, run]

end Compiler

end DirectiveTemplates
