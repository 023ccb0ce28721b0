import DirectiveTemplates.Proofs.Binding.Legible
import DirectiveTemplates.Proofs.Live.CleanTemplates
import DirectiveTemplates.Proofs.Live.Pieces
import DirectiveTemplates.Proofs.Markup.Inserting

/-!
What computed text can do to the elements of the output. Escaped text opens nothing by itself, and
literal markup is written as it is: where it leaves nothing open in front of a computed text, the
tags that are read back do not depend on the computed texts, and with them the elements.
-/
namespace DirectiveTemplates.Live

open Markup

/-- Where literal markup with an opening bracket stands in front of a computed text, nothing is left
open. `run` is what is written since the computed text before, and `bracket` says whether there is
such a literal in it. -/
def SeparatedFrom (run : List Char) (bracket : Bool) : List Piece → Prop
  | [] => True
  | .tag markup :: ps => SeparatedFrom (run ++ markup) bracket ps
  | .literal value :: ps => SeparatedFrom (run ++ value) (bracket || value.contains '<') ps
  | .computed _ :: ps => (bracket = true → Shut run) ∧ SeparatedFrom [] false ps

def Separated (ps : List Piece) : Prop := SeparatedFrom [] false ps

/-! Escaped text. -/

theorem not_mem_escapeText (text : List Char) : '<' ∉ text.flatMap escapeText := by
  intro mem
  obtain ⟨c, -, mem⟩ := List.mem_flatMap.mp mem
  unfold escapeText at mem
  split at mem
  · simp at mem
  · simp at mem
  · simp at mem
  · rename_i noAmpersand noBracket noClosing
    exact noBracket (List.mem_singleton.mp mem).symm

theorem not_mem_escapeQuoted (text : List Char) : '"' ∉ text.flatMap escapeQuoted := by
  intro mem
  obtain ⟨c, -, mem⟩ := List.mem_flatMap.mp mem
  unfold escapeQuoted at mem
  split at mem
  · simp at mem
  · rename_i noQuote
    exact noQuote (List.mem_singleton.mp mem).symm

/-! Elements. -/

def writtenTag (tag : String) (attributes : OrderedMap String) : WrittenTag :=
  ⟨tag.toList, attributes.entries.map fun a =>
    ⟨[' '], a.1.toList, some ⟨[], [], '"', a.2.toList.flatMap escapeQuoted⟩⟩, []⟩

theorem write_writtenTag (tag : String) (attributes : OrderedMap String) :
    (writtenTag tag attributes).write false = writeStartTag tag attributes := by
  simp [writtenTag, WrittenTag.write, writeStartTag, tagEnd, List.flatMap_map, writeAttribute,
    WrittenAttribute.write, WrittenValue.write, WrittenValue.opening]

theorem wellFormed_writtenTag {tag : String} {attributes : OrderedMap String}
    (spelled : IsTag tag attributes.keys) : (writtenTag tag attributes).WellFormed := by
  refine ⟨spelled.letter, spelled.name, ?_, by simp [writtenTag, IsSpace]⟩
  intro a mem
  obtain ⟨⟨name, value⟩, entry, rfl⟩ := List.mem_map.mp mem
  obtain ⟨named, inside⟩ := spelled.attributes name (List.mem_map_of_mem entry)
  refine ⟨by simp, by simp [IsSpace, Text.isMarkupSpace], by simpa using named, inside, ?_⟩
  rintro v ⟨⟩
  exact ⟨by simp [IsSpace], by simp [IsSpace], rfl, not_mem_escapeQuoted _⟩

def writtenEnd (tag : String) : WrittenEnd := ⟨tag.toList, []⟩

theorem write_writtenEnd (tag : String) : (writtenEnd tag).write = writeEndTag tag := by
  simp [writtenEnd, WrittenEnd.write, writeEndTag]

/-! Tags that stand for themselves. -/

def Piece.Standalone : Piece → Prop
  | .tag markup => Markup.Standalone markup
  | .literal _ | .computed _ => True

/-- Where literal markup leaves nothing open, the tags that pieces write do not depend on the
texts. -/
theorem marks_writeAll {ps : List Piece} {run : List Char} {bracket : Bool}
    (standalone : ∀ p ∈ ps, p.Standalone) (separated : SeparatedFrom run bracket ps)
    (start : bracket = false → Standalone run) (texts texts' : SlotId → String) :
    marks (run ++ Piece.writeAll texts ps) = marks (run ++ Piece.writeAll texts' ps) := by
  induction ps generalizing run bracket with
  | nil => rfl
  | cons p ps ih =>
    obtain ⟨first, rest⟩ := List.forall_mem_cons.mp standalone
    have cons (texts : SlotId → String) :
        Piece.writeAll texts (p :: ps) = p.write texts ++ Piece.writeAll texts ps := rfl
    rw [cons, cons]
    cases p with
    | tag markup =>
      have next (none : bracket = false) : Standalone (run ++ markup) := (start none).append first
      simpa [Piece.write] using ih rest separated next
    | literal value =>
      have next (none : (bracket || value.contains '<') = false) : Standalone (run ++ value) := by
        obtain ⟨before, free⟩ := Bool.or_eq_false_iff.mp none
        exact (start before).append (.of_not_mem (by simpa using free))
      simpa [Piece.write] using ih rest separated next
    | computed i =>
      obtain ⟨shut, later⟩ := separated
      have closed : Standalone run := by
        cases bracket with
        | false => exact start rfl
        | true => exact (shut rfl).standalone
      have same := ih rest later fun _ => .nil
      have drop (texts : SlotId → String) (more : List Char) :
          marks (run ++ ((Piece.computed i).write texts ++ more)) = marks run ++ marks more := by
        rw [closed, Piece.write, marks_append_of_not_mem (not_mem_escapeText _)]
      rw [drop, drop]
      exact congrArg (marks run ++ ·) same

theorem standalone_element {tag : String} {attributes : OrderedMap String} {inner : List Piece}
    (spelled : IsTag tag attributes.keys)
    (raw : isRawText tag = true → inner.all Piece.isFixed = true ∧
      FreeOfEnd tag.toList (Piece.writeAll (fun _ => "") inner))
    (standalone : ∀ p ∈ inner, p.Standalone) :
    ∀ p ∈ Piece.element tag attributes inner, p.Standalone := by
  have start := wellFormed_writtenTag spelled
  have stop : (writtenEnd tag).WellFormed tag.toList := ⟨rfl, by simp [writtenEnd, IsSpace]⟩
  have name : String.ofList (writtenTag tag attributes).name = tag := String.ofList_toList
  unfold Piece.element
  split
  · rename_i void
    have first := Standalone.startTag start false (Or.inr (Or.inl (by rw [name, void])))
    rw [write_writtenTag] at first
    simpa [Piece.Standalone] using first
  · rename_i content
    cases isRaw : isRawText tag with
    | true =>
      obtain ⟨fixed, free⟩ := raw isRaw
      have whole := Standalone.raw start (by rw [name, isRaw]) free stop
      rw [write_writtenTag, write_writtenEnd] at whole
      simpa [fixed, Piece.Standalone, writeElement, content] using whole
    | false =>
      have first := Standalone.startTag start false (Or.inr (Or.inr (by rw [name, isRaw])))
      have last := Standalone.endTag spelled.letter spelled.name stop
      rw [write_writtenTag] at first
      rw [write_writtenEnd] at last
      intro p mem
      simp only [Bool.false_and, Bool.false_eq_true, if_false, List.cons_append, List.mem_cons,
        List.mem_append, List.not_mem_nil, or_false] at mem
      rcases mem with rfl | inside | rfl
      · exact first
      · exact standalone p inside
      · exact last

variable {x : Scene} {m : Nat} {env : Environment}

/-- Raw text of a template is literal. -/
theorem isFixed_raw {tag : String} {children : List TemplateNode} {ss : List NodeState}
    {ls : List Shape} (holds : HoldsRaw tag children) (h : MadeAll x children m env ss ls) :
    (Shape.piecesAll ls).all Piece.isFixed = true ∧
      FreeOfEnd tag.toList (Piece.writeAll (fun _ => "") (Shape.piecesAll ls)) := by
  obtain ⟨raw, rfl, free⟩ := holds
  cases raw with
  | none =>
    obtain ⟨-, rfl⟩ := h
    exact ⟨rfl, by simp [FreeOfEnd, Shape.piecesAll, Piece.writeAll, Text.lowerAscii]⟩
  | some value =>
    obtain ⟨_, _, _, _, -, rfl, ⟨slot, -, rfl⟩, -, rfl⟩ := h
    refine ⟨rfl, ?_⟩
    have alone : Piece.writeAll (fun _ => "") [.literal value.toList] = value.toList :=
      List.append_nil _
    show FreeOfEnd tag.toList (Piece.writeAll (fun _ => "") [.literal value.toList])
    rw [alone]
    exact free value rfl

theorem standalone_piecesAll {ns : List TemplateNode} {ss : List NodeState} {ls : List Shape}
    (each : ∀ n ∈ ns, n.Legible → ∀ s l, Made x n m env s l → ∀ p ∈ l.pieces, p.Standalone)
    (legible : TemplateNode.LegibleAll ns) (h : MadeAll x ns m env ss ls) :
    ∀ p ∈ Shape.piecesAll ls, p.Standalone := by
  induction ns generalizing ss ls with
  | nil =>
    obtain ⟨-, rfl⟩ := h
    simp [Shape.piecesAll]
  | cons n ns ih =>
    obtain ⟨s, ss', l, ls', -, rfl, first, rest⟩ := h
    have here := each n List.mem_cons_self legible.1 s l first
    have later := ih (fun n' mem => each n' (List.mem_cons_of_mem n mem)) legible.2 rest
    exact List.forall_mem_append.mpr ⟨here, later⟩

theorem standalone_group {nodes : List TemplateNode} {s : NodeState} {l : Shape}
    (each : ∀ n ∈ nodes, n.Legible → ∀ s l, Made x n m env s l → ∀ p ∈ l.pieces, p.Standalone)
    (legible : TemplateNode.LegibleAll nodes) (h : FragmentMade x nodes m env s l) :
    ∀ p ∈ l.pieces, p.Standalone := by
  obtain ⟨-, made⟩ := h
  exact standalone_piecesAll each legible made

/-- The tags that are made for a node that can be written again leave nothing open behind them. -/
theorem standalone_pieces {n : TemplateNode} {s : NodeState} {l : Shape} (legible : n.Legible)
    (h : Made x n m env s l) : ∀ p ∈ l.pieces, p.Standalone := by
  induction n using TemplateNode.induction generalizing m env s l with
  | text value =>
    obtain ⟨slot, -, rfl⟩ := h
    simp [Shape.pieces, Piece.Standalone]
  | element tag attributes children ih =>
    obtain ⟨-, made⟩ := h
    obtain ⟨spelled, raw, inside⟩ := legible
    exact standalone_element spelled (fun isRaw => isFixed_raw (raw isRaw) made)
      (standalone_piecesAll (fun n mem legible s l => ih n mem legible) inside made)
  | directive u content ih =>
    have group {m : Nat} {env : Environment} {ss : List NodeState} {ls : List Shape}
        (h : List.Forall₂ (FragmentMade x content m env) ss ls) :
        ∀ p ∈ Shape.piecesAll ls, p.Standalone := by
      induction h with
      | nil => simp [Shape.piecesAll]
      | cons first _ later =>
        have here := standalone_group (fun n mem legible s l => ih n mem legible) legible first
        exact List.forall_mem_append.mpr ⟨here, later⟩
    cases h with
    | forEach kind alive opened children => exact group children
    | conditional kind alive opened children => exact group children
    | output kind alive opened => simp [Shape.pieces, Shape.piecesAll, Piece.Standalone]
    | unresolved kind alive => simp [Shape.pieces, Shape.piecesAll]

def elementsRead (t : SlotTree) (i : SlotId) (texts : SlotId → String) : List Outline :=
  outlineAll (parse ((t.assign texts).html i)).nodes

/-- The slots of a template that compiled without any diagnostic, after any models and renders:
where literal markup leaves nothing open in front of a computed text, the elements that are read
back from the output, with their attributes and their nesting, do not depend on the computed
texts. -/
theorem elementsRead_eq {c : Compiler} {source className : String} {nodes : List TemplateNode}
    (compiled : (c.compile source className).result = .ok nodes)
    (clean : (c.compile source className).progress.diagnostics = []) (model : Json.Value)
    (commands : List Command) :
    let t := (Instance.create .standard nodes model).run commands
    Separated (t.world.slots.pieces t.root.slot) →
      ∀ texts texts', elementsRead t.world.slots t.root.slot texts =
        elementsRead t.world.slots t.root.slot texts' := by
  intro t separated texts texts'
  obtain ⟨x, l, created⟩ := Instance.running_create nodes model
  obtain ⟨y, l', running⟩ := created.run commands
  have pieces : t.world.slots.pieces t.root.slot = l'.pieces := by
    rw [running.world, running.made.slot_eq]
    exact Shape.pieces_of_stands running.stands running.nodup
  have standalone : ∀ p ∈ l'.pieces, p.Standalone :=
    standalone_group (fun _ _ legible _ _ => standalone_pieces legible)
      (Compiler.legible_of_clean compiled clean) running.made
  have read (texts : SlotId → String) : elementsRead t.world.slots t.root.slot texts =
      Sketch.ofMarks (marks (Piece.writeAll texts l'.pieces)) := by
    rw [elementsRead, SlotTree.html_assign, pieces, outline_parse, marks]
  rw [pieces] at separated
  rw [read, read]
  exact congrArg Sketch.ofMarks (marks_writeAll standalone separated (fun _ => .nil) texts texts')

instance (run : List Char) (bracket : Bool) : (ps : List Piece) →
    Decidable (SeparatedFrom run bracket ps)
  | [] => isTrue trivial
  | .tag markup :: ps => instDecidableSeparatedFrom (run ++ markup) bracket ps
  | .literal value :: ps =>
    instDecidableSeparatedFrom (run ++ value) (bracket || value.contains '<') ps
  | .computed _ :: ps =>
    have := instDecidableSeparatedFrom [] false ps
    inferInstanceAs (Decidable ((bracket = true → Shut run) ∧ SeparatedFrom [] false ps))

instance (ps : List Piece) : Decidable (Separated ps) :=
  inferInstanceAs (Decidable (SeparatedFrom [] false ps))

/-- A letter around a computed name. Its literal markup has an element that is never ended, and a
bracket in a text. -/
theorem elementsRead_eq_of_letter :
    let source := "<p class='a\"'><![CDATA[<i class=b>]]>1 < 2, <std:text value='this'/>!<br></p>"
    ∃ nodes, (standardCompiler.compile source "Page").result = .ok nodes ∧
      let t := (Instance.create .standard nodes (.string "</p>")).run [.render]
      t.html = "<p class=\"a&quot;\"><i class=b>1 < 2, &lt;/p&gt;!<br></p>" ∧
        ∀ texts texts', elementsRead t.world.slots t.root.slot texts =
          elementsRead t.world.slots t.root.slot texts' := by
  intro source
  obtain ⟨clean, checked⟩ : (standardCompiler.compile source "Page").progress.diagnostics = [] ∧
      (standardCompiler.compile source "Page").result.toOption.any (fun nodes =>
        let t := (Instance.create .standard nodes (.string "</p>")).run [.render]
        t.html == "<p class=\"a&quot;\"><i class=b>1 < 2, &lt;/p&gt;!<br></p>" &&
          decide (Separated (t.world.slots.pieces t.root.slot))) = true := by
    decide +kernel
  cases compiled : (standardCompiler.compile source "Page").result with
  | error failure =>
    rw [compiled] at checked
    cases checked
  | ok nodes =>
    rw [compiled] at checked
    simp only [Except.toOption, Option.any_some, Bool.and_eq_true] at checked
    refine ⟨nodes, rfl, by simpa using checked.1, ?_⟩
    exact elementsRead_eq compiled clean (.string "</p>") [.render] (of_decide_eq_true checked.2)

/-- A template that compiles without any diagnostic to directives of the standard classes, where one
computed text gives other elements than another. -/
def OpensElements (source first second : String) : Prop :=
  ∃ nodes, (standardCompiler.compile source "Page").result = .ok nodes ∧
    (standardCompiler.compile source "Page").progress.diagnostics = [] ∧
    (∀ u ∈ TemplateNode.usesAll nodes, u.className ∈ ClassTable.standardClasses) ∧
    let t := (Instance.create .standard nodes .null).run [.render]
    elementsRead t.world.slots t.root.slot (fun _ => first) ≠
      elementsRead t.world.slots t.root.slot (fun _ => second)

theorem opensElements_of_compiled {source first second : String}
    (checked : (standardCompiler.compile source "Page").progress.diagnostics = [] ∧
      (standardCompiler.compile source "Page").result.toOption.any (fun nodes =>
        let t := (Instance.create .standard nodes .null).run [.render]
        (TemplateNode.usesAll nodes).all (·.className ∈ ClassTable.standardClasses) &&
          !(elementsRead t.world.slots t.root.slot (fun _ => first)).isEmpty &&
          (elementsRead t.world.slots t.root.slot (fun _ => second)).isEmpty) = true) :
    OpensElements source first second := by
  obtain ⟨clean, checked⟩ := checked
  cases compiled : (standardCompiler.compile source "Page").result with
  | error failure =>
    rw [compiled] at checked
    cases checked
  | ok nodes =>
    rw [compiled] at checked
    simp only [Except.toOption, Option.any_some, Bool.and_eq_true] at checked
    obtain ⟨⟨uses, some⟩, none⟩ := checked
    refine ⟨nodes, compiled, clean, ?_, ?_⟩
    · intro u mem
      simpa using List.all_eq_true.mp uses u mem
    · show elementsRead _ _ _ ≠ elementsRead _ _ _
      intro same
      rw [same, none] at some
      exact absurd some (by decide)

/-- Literal markup goes on in the text behind it. Behind a bracket the text is the name of an
element or no name, and it can make a comment of the markup that follows. -/
theorem opensElements_of_open_literals :
    OpensElements "<<std:text value='this'/>" "b" " " ∧
      OpensElements "<![CDATA[<!-]]><std:text value='this'/><i/><br>-->" "x" "-" := by
  constructor
  · apply opensElements_of_compiled
    decide +kernel
  · apply opensElements_of_compiled
    decide +kernel

end DirectiveTemplates.Live
