import DirectiveTemplates.Proofs.Binding.Static
import DirectiveTemplates.Proofs.Live.CleanTemplates
import DirectiveTemplates.Proofs.Live.ComputedText
import DirectiveTemplates.Proofs.Live.Removal
import DirectiveTemplates.Proofs.OrderedMap

/-!
Static templates are written and read back. Whatever the source left open or said twice, the markup
that is written is a document of its own, which is compiled to the same template with its quotes
escaped and is written again as it is.
-/
namespace DirectiveTemplates

open Markup Live

namespace TemplateNode

/-! Static nodes have no components. -/

theorem not_live_of_raw {tag : String} {children : List TemplateNode}
    (holds : HoldsRaw tag children) : anyLive children = false := by
  obtain ⟨raw, rfl, -⟩ := holds
  cases raw <;> rfl

mutual

theorem Static.not_live : (n : TemplateNode) → n.Static → n.isLive = false
  | .text _, _ => rfl
  | .element tag _ children, static => by
    obtain ⟨-, -, -, raw, plain⟩ := static
    cases isRaw : isRawText tag with
    | true => exact not_live_of_raw (raw isRaw).1
    | false => exact StaticAll.not_live children (plain isRaw)

theorem StaticAll.not_live : (ns : List TemplateNode) → StaticAll ns → anyLive ns = false
  | [], _ => rfl
  | n :: ns, static => by
    rw [anyLive, Static.not_live n static.1, StaticAll.not_live ns static.2.2]
    rfl

end

/-! Static nodes as documents. -/

mutual

def written : TemplateNode → Written
  | .text value => .text value.toList
  | .element tag attributes children =>
    if isVoid tag then .closed (writtenTag tag attributes) false
    else if isRawText tag then
      .raw (writtenTag tag attributes) (markupAll children) (writtenEnd tag)
    else .element (writtenTag tag attributes) (writtenAll children) (writtenEnd tag)
  | .directive _ _ => .text []

def writtenAll : List TemplateNode → List Written
  | [] => []
  | n :: ns => n.written :: writtenAll ns

end

mutual

theorem write_written : (n : TemplateNode) → n.written.write = n.markup
  | .text _ => rfl
  | .directive _ _ => rfl
  | .element tag attributes children => by
    rw [written, markup, writeElement]
    split
    · rw [Written.write, write_writtenTag]
    · split
      · rw [Written.write, write_writtenTag, write_writtenEnd]
      · rw [Written.write, write_writtenTag, write_writtenEnd, writeAll_written children]

theorem writeAll_written : (ns : List TemplateNode) →
    Written.writeAll (writtenAll ns) = markupAll ns
  | [] => rfl
  | n :: ns => by rw [writtenAll, Written.writeAll, write_written n, writeAll_written ns, markupAll]

end

theorem isText_written {n : TemplateNode} (static : n.Static) : n.written.isText = n.isText := by
  cases n with
  | text value => rfl
  | directive u content => exact static.elim
  | element tag attributes children =>
    rw [written]
    split
    · rfl
    · split <;> rfl

theorem startsText_written {ns : List TemplateNode} (static : StaticAll ns) :
    Written.startsText (writtenAll ns) = startsText ns := by
  cases ns with
  | nil => rfl
  | cons n ns => exact isText_written static.1

/-- The content of a static raw text element is one text or nothing. -/
theorem exists_raw {tag : String} {children : List TemplateNode}
    (holds : HoldsRaw tag children) (texts : .text "" ∉ children) :
    (children = [] ∨ ∃ value, value ≠ "" ∧ children = [.text value]) ∧
      FreeOfEnd tag.toList (markupAll children) := by
  obtain ⟨raw, rfl, free⟩ := holds
  cases raw with
  | none => exact ⟨.inl rfl, by simp [FreeOfEnd, markupAll, Text.lowerAscii]⟩
  | some value =>
    refine ⟨.inr ⟨value, ?_, rfl⟩, ?_⟩
    · rintro rfl
      exact texts List.mem_cons_self
    · have alone : markupAll [.text value] = value.toList := List.append_nil _
      exact alone.symm ▸ free value rfl

mutual

theorem wellFormed_written : (n : TemplateNode) → n.Static → n.written.WellFormed
  | .text value, static => by
    rw [written, Written.WellFormed]
    exact ⟨by simpa using static.1, static.2⟩
  | .directive _ _, static => static.elim
  | .element tag attributes children, static => by
    obtain ⟨spelled, -, -, raw, plain⟩ := static
    have start := wellFormed_writtenTag spelled
    have stop : (writtenEnd tag).WellFormed tag.toList := ⟨rfl, by simp [writtenEnd, IsSpace]⟩
    have name : String.ofList (writtenTag tag attributes).name = tag := String.ofList_toList
    rw [written]
    split
    · rename_i void
      rw [Written.WellFormed, name]
      exact ⟨start, .inr void⟩
    · rename_i void
      split
      · rename_i isRaw
        obtain ⟨-, free⟩ := exists_raw (raw isRaw).1 (raw isRaw).2
        rw [Written.WellFormed, name]
        exact ⟨start, isRaw, free, stop⟩
      · rename_i isRaw
        have isRaw : isRawText tag = false := by simpa using isRaw
        rw [Written.WellFormed, name]
        exact ⟨start, by simpa using void, isRaw, allWellFormed_written children (plain isRaw),
          stop⟩

theorem allWellFormed_written : (ns : List TemplateNode) → StaticAll ns →
    Written.AllWellFormed (writtenAll ns)
  | [], _ => trivial
  | n :: ns, static => by
    obtain ⟨first, apart, rest⟩ := static
    rw [writtenAll, Written.AllWellFormed, isText_written first, startsText_written rest]
    exact ⟨wellFormed_written n first, apart, allWellFormed_written ns rest⟩

end

/-! The template that is read back. -/

def quotedValue (value : String) : String := String.ofList (value.toList.flatMap escapeQuoted)

mutual

/-- A template whose attribute values have no double quotes. -/
def quoted : TemplateNode → TemplateNode
  | .text value => .text value
  | .element tag attributes children =>
    .element tag (attributes.mapWithKey fun _ => quotedValue) (quotedAll children)
  | .directive u content => .directive u (quotedAll content)

def quotedAll : List TemplateNode → List TemplateNode
  | [] => []
  | n :: ns => n.quoted :: quotedAll ns

end

mutual

theorem isLive_quoted : (n : TemplateNode) → n.quoted.isLive = n.isLive
  | .text _ => rfl
  | .element _ _ children => anyLive_quoted children
  | .directive _ _ => rfl

theorem anyLive_quoted : (ns : List TemplateNode) → anyLive (quotedAll ns) = anyLive ns
  | [] => rfl
  | n :: ns => by rw [quotedAll, anyLive, anyLive, isLive_quoted n, anyLive_quoted ns]

end

theorem flatMap_escapeQuoted {cs : List Char} (free : '"' ∉ cs) : cs.flatMap escapeQuoted = cs := by
  induction cs with
  | nil => rfl
  | cons c cs ih =>
    rw [List.mem_cons, not_or] at free
    rw [List.flatMap_cons, ih free.2, escapeQuoted, if_neg (Ne.symm free.1)]
    rfl

theorem writeAttribute_quoted (name value : String) :
    writeAttribute name (quotedValue value) = writeAttribute name value := by
  rw [writeAttribute, quotedValue, String.toList_ofList,
    flatMap_escapeQuoted (not_mem_escapeQuoted _), writeAttribute]

theorem writeElement_quoted (tag : String) (attributes : OrderedMap String) (inner : List Char) :
    writeElement tag (attributes.mapWithKey fun _ => quotedValue) inner =
      writeElement tag attributes inner := by
  have start : writeStartTag tag (attributes.mapWithKey fun _ => quotedValue) =
      writeStartTag tag attributes := by
    simp [writeStartTag, OrderedMap.mapWithKey, List.flatMap_map, writeAttribute_quoted]
  rw [writeElement, writeElement, start]

mutual

theorem markup_quoted : (n : TemplateNode) → n.quoted.markup = n.markup
  | .text _ => rfl
  | .element tag attributes children => by
    rw [quoted, markup, markup, writeElement_quoted, markupAll_quoted children]
  | .directive _ _ => rfl

theorem markupAll_quoted : (ns : List TemplateNode) → markupAll (quotedAll ns) = markupAll ns
  | [] => rfl
  | n :: ns => by rw [quotedAll, markupAll, markupAll, markup_quoted n, markupAll_quoted ns]

end

end TemplateNode

namespace Compiler

variable (c : Compiler)

theorem entries_writtenTag (tag : String) (attributes : OrderedMap String) (o : Nat) :
    OrderedMap.ofList ((writtenTag tag attributes).meaning o false).entries =
      attributes.mapWithKey fun _ => TemplateNode.quotedValue := by
  have entries : ((writtenTag tag attributes).meaning o false).entries =
      (attributes.mapWithKey fun _ => TemplateNode.quotedValue).entries := by
    refine (entries_attributesFrom _ _).trans ?_
    simp [writtenTag, WrittenAttribute.entry, OrderedMap.mapWithKey, TemplateNode.quotedValue]
  rw [entries, OrderedMap.ofList_entries]

theorem run_writtenTag {tag : String} (attributes : OrderedMap String)
    (unprefixed : splitNamespace tag = none) (o : Nat) (span : Span) (stop : Option Span)
    {children : List Node} {ts : List TemplateNode} {p : Progress}
    (inner : (c.nodes children).run p = (.ok ts, p)) :
    (c.node (.element ((writtenTag tag attributes).meaning o false) span stop children)).run p =
      (.ok [.element tag (attributes.mapWithKey fun _ => TemplateNode.quotedValue) ts], p) := by
  have name : ((writtenTag tag attributes).meaning o false).name = tag := String.ofList_toList
  have run := c.run_literal (name.symm ▸ unprefixed) span stop inner
  rw [entries_writtenTag, name] at run
  exact run

/-- The content of a raw text element is read back as it is. -/
theorem run_writtenRaw {tag : String} {children : List TemplateNode} (holds : HoldsRaw tag children)
    (texts : .text "" ∉ children) (o : Nat) (p : Progress) :
    (c.nodes ((Written.rawNode o (TemplateNode.markupAll children)).toList.map .text)).run p =
      (.ok (TemplateNode.quotedAll children), p) := by
  rcases (TemplateNode.exists_raw holds texts).1 with rfl | ⟨value, ne, rfl⟩
  · rfl
  · have content : TemplateNode.markupAll [.text value] = value.toList := List.append_nil _
    have some : value.toList ≠ [] := by simpa using ne
    rw [content, Written.rawNode, if_neg some, run_raw]
    simp [TemplateNode.quotedAll, TemplateNode.quoted]

mutual

theorem run_written : (n : TemplateNode) → n.Static → (o : Nat) → (p : Progress) →
    (c.node (n.written.meaning o)).run p = (.ok [n.quoted], p)
  | .text value, _, o, p => by
    rw [TemplateNode.written, Written.meaning, String.ofList_toList]
    rfl
  | .directive _ _, static, _, _ => static.elim
  | .element tag attributes children, static, o, p => by
    obtain ⟨-, unprefixed, void, raw, plain⟩ := static
    rw [TemplateNode.written, TemplateNode.quoted]
    split
    · rename_i isVoid
      rw [void isVoid]
      exact c.run_writtenTag attributes unprefixed o _ _ rfl
    · split
      · rename_i isRaw
        obtain ⟨holds, texts⟩ := raw isRaw
        exact c.run_writtenTag attributes unprefixed o _ _ (c.run_writtenRaw holds texts _ p)
      · rename_i isRaw
        have static := plain (by simpa using isRaw)
        exact c.run_writtenTag attributes unprefixed o _ _ (run_writtenAll children static _ p)

/-- What static nodes are written as is bound to them again, with their quotes escaped. -/
theorem run_writtenAll : (ns : List TemplateNode) → TemplateNode.StaticAll ns → (o : Nat) →
    (p : Progress) → (c.nodes (Written.meaningAll o (TemplateNode.writtenAll ns))).run p =
      (.ok (TemplateNode.quotedAll ns), p)
  | [], _, _, _ => rfl
  | n :: ns, static, o, p => by
    rw [TemplateNode.writtenAll, Written.meaningAll]
    exact c.run_cons (run_written n static.1 o p) (run_writtenAll ns static.2.2 _ p)

end

/-- The markup of a static template is compiled without a problem to the same template, up to
the quotes in its attribute values. -/
theorem compile_markup (used : c.defaultUse.failure = none) (className : String)
    {nodes : List TemplateNode} (static : TemplateNode.StaticAll nodes) :
    let html := String.ofList (TemplateNode.markupAll nodes)
    (parse html).problems = [] ∧
      (c.compile html className).result = .ok (TemplateNode.quotedAll nodes) := by
  intro html
  have read : parse html = ⟨Written.meaningAll 0 (TemplateNode.writtenAll nodes), []⟩ := by
    have back := parse_write _ (TemplateNode.allWellFormed_written nodes static)
    rw [TemplateNode.writeAll_written] at back
    exact back
  obtain ⟨scope, compiled⟩ := c.compile_of_default used html className
  rw [compiled, read, c.run_writtenAll nodes static]
  exact ⟨rfl, rfl⟩

end Compiler

namespace Live

variable {i : Interpreter} {nodes : List TemplateNode}

theorem renderEach_of_dead {ns : List TemplateNode} (dead : TemplateNode.anyLive ns = false)
    (ss : List NodeState) : Kind.renderEach (i.kindsOf ns) ss = pure (.ok (), ss) := by
  induction ns generalizing ss with
  | nil => cases ss <;> rfl
  | cons n ns ih =>
    obtain ⟨first, rest⟩ := List.forall_mem_cons.mp (TemplateNode.anyLive_eq_false.mp dead)
    cases ss with
    | nil => rfl
    | cons s ss =>
      rw [Interpreter.kindsOf, kindOf_of_not_live first, Kind.renderEach,
        ih (TemplateNode.anyLive_eq_false.mpr rest)]
      rfl

namespace Instance

theorem Rooted.render_of_dead {ls : List Shape} {base : Base} {states : List NodeState}
    {t : Instance} (h : Rooted i nodes ls base states t)
    (dead : TemplateNode.anyLive nodes = false) :
    t.render = (.ok (), { t with root := .group base.rendered states }) := by
  rw [Instance.render, h.interpreter, h.forest, h.root]
  let pass := Kind.renderEach (i.kindsOf nodes) states
  have group : (Group.render ⟨base, states⟩ pass).run t.world =
      ((.ok (), ⟨base.rendered, states⟩), t.world) := by
    rw [show pass = pure (.ok (), states) from renderEach_of_dead dead states, Group.render,
      h.alive]
    rfl
  have run : ((i.fragmentKind nodes).render (.group base states)).run t.world =
      ((.ok (), .group base.rendered states), t.world) :=
    congrArg (Prod.map (Prod.map id NodeState.ofGroup) id) group
  rw [run]

/-- Without components the first render changes nothing but the stage of the template. -/
theorem render_of_dead (i : Interpreter) (model : Json.Value)
    (dead : TemplateNode.anyLive nodes = false) :
    let r := (create i nodes model).render
    r.1 = .ok () ∧ r.2.html = String.ofList (TemplateNode.markupAll nodes) := by
  obtain ⟨ls, base, states, rooted⟩ := rooted_create i nodes model
  have length : (states.map NodeState.slot).length ≤ nodes.length := by
    rw [List.length_map]
    exact Nat.le_of_eq rooted.loose.length_eq.symm
  have slots : states.map NodeState.slot = ls.map Shape.slot := by
    rw [← rooted.still, stillSlots_eq dead length]
  let t := create i nodes model
  have stands : (Shape.node base.slot .container ls).Stands t.world.slots none :=
    ⟨slots ▸ rooted.row, rooted.stand⟩
  have html := Shape.html_of_stands stands rooted.nodup
  rw [Shape.html, rooted.html, filter_eq_of_dead dead] at html
  rw [rooted.render_of_dead dead]
  exact ⟨rfl, html⟩

end Instance

/-- Rendering a template succeeds and writes this markup, for every interpreter and every model. -/
def RendersAs (nodes : List TemplateNode) (html : String) : Prop :=
  ∀ (i : Interpreter) (model : Json.Value),
    let r := (Instance.create i nodes model).render
    r.1 = .ok () ∧ r.2.html = html

/-- Static markup is rendered to the plain markup of its template. That is a normal form: it is read
without a problem, compiled to the template that it was rendered from with the quotes in attribute
values escaped, and rendered to itself. -/
theorem render_fixpoint (c : Compiler) (used : c.defaultUse.failure = none)
    (source className : String) (clean : (parse source).problems = []) (static : IsStatic source) :
    ∃ nodes, (c.compile source className).result = .ok nodes ∧
      let html := String.ofList (TemplateNode.markupAll nodes)
      RendersAs nodes html ∧ (parse html).problems = [] ∧
        (c.compile html className).result = .ok (TemplateNode.quotedAll nodes) ∧
        RendersAs (TemplateNode.quotedAll nodes) html := by
  obtain ⟨nodes, compiled, all⟩ := c.compile_static used className static clean
  have dead := TemplateNode.StaticAll.not_live nodes all
  have dead' := (TemplateNode.anyLive_quoted nodes).trans dead
  obtain ⟨read, again⟩ := c.compile_markup used className all
  refine ⟨nodes, compiled, fun i model => Instance.render_of_dead i model dead, read, again, ?_⟩
  intro i model
  rw [← TemplateNode.markupAll_quoted]
  exact Instance.render_of_dead i model dead'

/-- Markup that says things twice, leaves an element open and has no use for some slashes. -/
def looseSource : String :=
  "<<p a=1 b='\"' a=2>c<i></p><br/><b/><style></p></style>"

def looseHtml : String :=
  "<<p a=\"2\" b=\"&quot;\">c<i></i></p><br><b></b><style></p></style>"

theorem render_fixpoint_of_looseSource :
    standardCompiler.defaultUse.failure = none ∧ (parse looseSource).problems = [] ∧
      IsStatic looseSource ∧ ∃ nodes,
        (standardCompiler.compile looseSource "Page").result = .ok nodes ∧
        RendersAs nodes looseHtml ∧
        (standardCompiler.compile looseHtml "Page").result = .ok (TemplateNode.quotedAll nodes) ∧
        RendersAs (TemplateNode.quotedAll nodes) looseHtml := by
  have used : standardCompiler.defaultUse.failure = none := by decide +kernel
  have clean : (parse looseSource).problems = [] := by decide +kernel
  have static : IsStatic looseSource := ⟨by decide +kernel, by decide +kernel⟩
  refine ⟨used, clean, static, ?_⟩
  obtain ⟨nodes, compiled, shown, -, again, shown'⟩ :=
    render_fixpoint standardCompiler used looseSource "Page" clean static
  have written : (standardCompiler.compile looseSource "Page").result.toOption.map
      (fun nodes => (Instance.create .standard nodes .null).render.2.html) = some looseHtml := by
    decide +kernel
  rw [compiled] at written
  have same := (shown .standard .null).2.symm.trans (Option.some.inj written)
  rw [same] at shown again shown'
  exact ⟨nodes, compiled, shown, again, shown'⟩

end Live

end DirectiveTemplates
