import DirectiveTemplates.Proofs.Markup.Legible
import DirectiveTemplates.Proofs.Markup.RoundTrip

/-!
Elements and what is around them. When an end tag closes an element, the open elements inside end
with it, each one as the last child of the next; at the end of the text all open elements do.
-/
namespace DirectiveTemplates.Markup

open Text

/-! End tags. -/

/-- An end tag: a name, and everything behind it up to the next `>` or to the end of the text. -/
structure IsEndTag (source : List Char) (name : String) (s : Span) : Prop where
  letter : ∃ c cs, name.toList = c :: cs ∧ isNameStart c = true
  inside : ∀ c ∈ name.toList, isNameEnd c = false
  covers : ∃ behind found, s.Covers source ('<' :: '/' :: (name.toList ++ (behind ++ found))) ∧
    startsWithAny isNameEnd (behind ++ found) = true ∧ '>' ∉ behind ∧
    Closing source ['>'] s found

theorem IsEndTag.lt {source : List Char} {name : String} {s : Span} (h : IsEndTag source name s) :
    s.start < s.stop ∧ s.stop ≤ byteLength source := by
  obtain ⟨behind, found, covers, -⟩ := h.covers
  exact ⟨covers.lt (List.cons_ne_nil _ _), covers.le.2⟩

theorem startsWithAny_take {class? : Char → Bool} {piece rest : List Char}
    (starts : startsWithAny class? (piece ++ rest) = true) :
    startsWithAny class? (piece ++ rest.take 1) = true := by
  cases piece with
  | cons c cs => exact starts
  | nil =>
    cases rest with
    | nil => rfl
    | cons c cs => exact starts

theorem isEndTag_readEndTag {source : List Char} {start : Cursor} (stands : start.At source)
    (opens : Opens .closeTag start.rest) :
    IsEndTag source (String.ofList (start.skip 2).name)
      (start.spanFrom (readEndTag start).next) := by
  obtain ⟨c, rest, eq, letter⟩ := opens
  let behind := (start.skip 2).skipName
  let stop := behind.goUntil (startsWithAny (· == '>'))
  have opening : start.Reads ['<', '/'] (start.skip 2) := Cursor.reads_skip_of_rest eq
  have named : (start.skip 2).Reads (start.skip 2).name behind := (start.skip 2).reads_goUntil _
  have inside := behind.reads_goUntil (startsWithAny (· == '>'))
  have all := ((opening.trans named).trans inside).trans (stop.reads_skip 1)
  have whole : (start.skip 2).rest = c :: rest := by simp [Cursor.skip, Cursor.after, eq]
  have name : (start.skip 2).name = c :: (breakAt (startsWithAny isNameEnd) rest).1 := by
    simp [Cursor.name, Cursor.textUntil, whole, breakAt, startsWithAny,
      isNameEnd_of_isNameStart letter]
  have ended : startsWithAny isNameEnd behind.rest = true := by
    rcases (start.skip 2).stop_of_goUntil (startsWithAny isNameEnd) with none | starts
    · show startsWithAny isNameEnd ((start.skip 2).goUntil (startsWithAny isNameEnd)).rest = true
      rw [none]
      rfl
    · exact starts
  refine ⟨⟨c, _, by rw [String.toList_ofList, name], letter⟩, ?_, ?_⟩
  · rw [String.toList_ofList]
    exact not_mem_of_textUntil isNameEnd _
  · rw [String.toList_ofList]
    refine ⟨behind.textUntil (startsWithAny (· == '>')), stop.rest.take 1, ?_, ?_, ?_, ?_⟩
    · have covers := stands.covers all
      simp only [List.append_assoc] at covers
      exact covers
    · rw [inside.1] at ended
      exact startsWithAny_take ended
    · intro mem
      exact absurd (not_mem_of_textUntil (· == '>') behind _ mem) (by decide)
    · rcases behind.stop_of_goUntil (startsWithAny (· == '>')) with none | starts
      · refine Or.inr ⟨by rw [none]; rfl, (stands.next all).offset_of_rest ?_⟩
        show stop.rest.drop 1 = []
        rw [none]
        rfl
      · cases rest' : stop.rest with
        | nil =>
          refine Or.inr ⟨rfl, (stands.next all).offset_of_rest ?_⟩
          show stop.rest.drop 1 = []
          rw [rest']
          rfl
        | cons d ds =>
          have bracket : startsWithAny (· == '>') stop.rest = true := starts
          rw [rest'] at bracket
          have bracket : d = '>' := by simpa [startsWithAny] using bracket
          exact Or.inl (by rw [bracket]; rfl)

theorem readToken_close {source : List Char} {c : Cursor} (stands : c.At source) {name : String}
    {s : Span} (close : (readToken c).token = .close name s) :
    Opens .closeTag c.rest ∧ readToken c = readEndTag c ∧ IsEndTag source name s := by
  have opens := opens_constructAt c.rest
  unfold readToken at close ⊢
  cases construct : constructAt c.rest with
  | closeTag =>
    rw [construct] at close opens
    have tag := isEndTag_readEndTag stands opens
    simp only [readEndTag, Token.close.injEq] at close
    obtain ⟨rfl, rfl⟩ := close
    exact ⟨opens, rfl, tag⟩
  | openTag =>
    rw [construct] at close opens
    obtain ⟨tag, raw, problems, next, eq, -⟩ := readStartTag_legible opens
    simp [eq] at close
  | comment => simp [construct, readComment] at close
  | cdata => simp [construct, readCdata] at close
  | declaration => simp [construct, readDeclaration] at close
  | instruction => simp [construct, readInstruction] at close
  | text => simp [construct, readText] at close

/-! Elements. -/

structure Element where
  tag : StartTag
  span : Span
  endSpan : Option Span
  children : List Node

namespace Element

def node (x : Element) : Node := .element x.tag x.span x.endSpan x.children

end Element

mutual

/-- The elements of a node in document order, each with the elements around it, innermost first. -/
def Node.elements (around : List Element) : Node → List (Element × List Element)
  | .element tag span stop children =>
    (⟨tag, span, stop, children⟩, around) ::
      elementsAll (⟨tag, span, stop, children⟩ :: around) children
  | .text _ => []
  | .comment _ => []
  | .instruction _ => []

def elementsAll (around : List Element) : List Node → List (Element × List Element)
  | [] => []
  | n :: ns => n.elements around ++ elementsAll around ns

end

theorem elementsAll_append (around : List Element) (ns rest : List Node) :
    elementsAll around (ns ++ rest) = elementsAll around ns ++ elementsAll around rest := by
  induction ns with
  | nil => rfl
  | cons n ns ih => simp [elementsAll, ih]

theorem elementsAll_singleton (around : List Element) (n : Node) :
    elementsAll around [n] = n.elements around :=
  List.append_nil _

theorem elementsAll_raw (around : List Element) (raw : Option TextNode) :
    elementsAll around (raw.toList.map .text) = [] := by
  cases raw <;> rfl

mutual

theorem elements_around (inner outer : List Element) : (n : Node) →
    n.elements (inner ++ outer) = (n.elements inner).map fun p => (p.1, p.2 ++ outer)
  | .element tag span stop children => by
    have below := elementsAll_around (⟨tag, span, stop, children⟩ :: inner) outer children
    rw [List.cons_append] at below
    simp [Node.elements, below]
  | .text _ => rfl
  | .comment _ => rfl
  | .instruction _ => rfl

theorem elementsAll_around (inner outer : List Element) : (ns : List Node) →
    elementsAll (inner ++ outer) ns = (elementsAll inner ns).map fun p => (p.1, p.2 ++ outer)
  | [] => rfl
  | n :: ns => by
    rw [elementsAll, elements_around inner outer n, elementsAll_around inner outer ns, elementsAll,
      List.map_append]

end

/-- What is around the elements of a forest that stands in other elements. -/
theorem mem_elementsAll_iff {outer : List Element} {ns : List Node} {x : Element}
    {around : List Element} : (x, around) ∈ elementsAll outer ns ↔
      ∃ inner, (x, inner) ∈ elementsAll [] ns ∧ around = inner ++ outer := by
  rw [← List.nil_append outer, elementsAll_around]
  simp only [List.mem_map, Prod.mk.injEq, Prod.exists, List.nil_append]
  constructor
  · rintro ⟨x, inner, mem, rfl, rfl⟩
    exact ⟨inner, mem, rfl⟩
  · rintro ⟨inner, mem, rfl⟩
    exact ⟨x, inner, mem, rfl, rfl⟩

/-- The elements of an element: itself, with nothing around it, and those inside. -/
theorem mem_elements_node {x y : Element} {around : List Element} :
    (y, around) ∈ x.node.elements [] ↔
      y = x ∧ around = [] ∨
        ∃ inner, (y, inner) ∈ elementsAll [] x.children ∧ around = inner ++ [x] := by
  rw [Element.node, Node.elements, List.mem_cons, mem_elementsAll_iff, Prod.mk.injEq]

/-! Open elements that end one after another, each one as the last child of the next. -/

/-- The node that is left of open elements, innermost first, that end at `stop`; the innermost one
has `ns` as its last children. Without open elements `ns` is left. -/
def collapse (stop : Nat) : List OpenElement → List Node → List Node
  | [], ns => ns
  | e :: es, ns =>
    collapse stop es [.element e.tag ⟨e.tag.span.start, stop⟩ none (e.children ++ ns)]

def spine (stop : Nat) : List OpenElement → List Node → List Element
  | [], _ => []
  | e :: es, ns =>
    let x : Element := ⟨e.tag, ⟨e.tag.span.start, stop⟩, none, e.children ++ ns⟩
    x :: spine stop es [x.node]

theorem map_tag_spine (stop : Nat) (es : List OpenElement) (ns : List Node) :
    (spine stop es ns).map Element.tag = es.map OpenElement.tag := by
  induction es generalizing ns with
  | nil => rfl
  | cons e es ih =>
    rw [spine, List.map_cons, ih]
    rfl

theorem mem_spine {stop : Nat} {es : List OpenElement} {ns : List Node} {x : Element}
    (mem : x ∈ spine stop es ns) :
    ∃ inner e outer, es = inner ++ e :: outer ∧
      x = ⟨e.tag, ⟨e.tag.span.start, stop⟩, none, e.children ++ collapse stop inner ns⟩ := by
  induction es generalizing ns with
  | nil => cases mem
  | cons e es ih =>
    rcases List.mem_cons.mp mem with rfl | later
    · exact ⟨[], e, es, rfl, rfl⟩
    · obtain ⟨inner, e', outer, rfl, rfl⟩ := ih later
      exact ⟨e :: inner, e', outer, rfl, rfl⟩

/-- An element of what stands inside has the open elements around it. -/
theorem mem_elementsAll_collapse {stop : Nat} {es : List OpenElement} {ns : List Node} {x : Element}
    {around : List Element} (mem : (x, around) ∈ elementsAll [] ns) :
    (x, around ++ spine stop es ns) ∈ elementsAll [] (collapse stop es ns) := by
  induction es generalizing ns around with
  | nil =>
    rw [spine, List.append_nil]
    exact mem
  | cons e es ih =>
    let y : Element := ⟨e.tag, ⟨e.tag.span.start, stop⟩, none, e.children ++ ns⟩
    have inside : (x, around) ∈ elementsAll [] y.children := by
      rw [elementsAll_append]
      exact List.mem_append_right _ mem
    have here : (x, around ++ [y]) ∈ elementsAll [] [y.node] := by
      rw [elementsAll_singleton]
      exact mem_elements_node.mpr (Or.inr ⟨around, inside, rfl⟩)
    have all := ih here
    rw [List.append_assoc] at all
    exact all

/-- The innermost of the open elements has the others around it. -/
theorem spine_mem_collapse {stop : Nat} {es : List OpenElement} {ns : List Node} {x : Element}
    {around : List Element} (eq : spine stop es ns = x :: around) :
    (x, around) ∈ elementsAll [] (collapse stop es ns) := by
  cases es with
  | nil => cases eq
  | cons e es =>
    obtain ⟨rfl, rfl⟩ := List.cons.inj eq
    let x : Element := ⟨e.tag, ⟨e.tag.span.start, stop⟩, none, e.children ++ ns⟩
    have inside : (x, []) ∈ elementsAll [] [x.node] := by
      rw [elementsAll_singleton]
      exact mem_elements_node.mpr (Or.inl ⟨rfl, rfl⟩)
    exact mem_elementsAll_collapse inside

/-- The elements that are left: those inside, those among the other children, and the open elements
themselves. What was around an element before still is. -/
theorem cases_elementsAll_collapse {stop : Nat} {es : List OpenElement} {ns : List Node}
    {x : Element} {around : List Element}
    (mem : (x, around) ∈ elementsAll [] (collapse stop es ns)) :
    (∃ inner, (x, inner) ∈ elementsAll [] ns ∧ inner ⊆ around) ∨
      (∃ e ∈ es, ∃ inner, (x, inner) ∈ elementsAll [] e.children ∧ inner ⊆ around) ∨
      x ∈ spine stop es ns := by
  induction es generalizing ns with
  | nil => exact Or.inl ⟨around, mem, List.Subset.refl around⟩
  | cons e es ih =>
    rcases ih mem with ⟨inner, here, subset⟩ | ⟨e', mem', rest⟩ | outer
    · rw [elementsAll_singleton] at here
      rcases mem_elements_node (x := ⟨e.tag, ⟨e.tag.span.start, stop⟩, none, e.children ++ ns⟩).mp
        here with ⟨rfl, -⟩ | ⟨inside, child, rfl⟩
      · exact Or.inr (Or.inr List.mem_cons_self)
      · have subset' : inside ⊆ around :=
          List.Subset.trans (List.subset_append_left _ _) subset
        rw [elementsAll_append] at child
        rcases List.mem_append.mp child with child | child
        · exact Or.inr (Or.inl ⟨e, List.mem_cons_self, inside, child, subset'⟩)
        · exact Or.inl ⟨inside, child, subset'⟩
    · exact Or.inr (Or.inl ⟨e', List.mem_cons_of_mem e mem', rest⟩)
    · exact Or.inr (Or.inr (List.mem_cons_of_mem _ outer))

theorem exists_mem_collapse {stop : Nat} {es : List OpenElement} {ns : List Node} {e : OpenElement}
    (opened : e ∈ es) {x : Element} {inner : List Element}
    (mem : (x, inner) ∈ elementsAll [] e.children) :
    ∃ around, (x, around) ∈ elementsAll [] (collapse stop es ns) := by
  induction es generalizing ns with
  | nil => cases opened
  | cons e' es ih =>
    rcases List.mem_cons.mp opened with rfl | later
    · let y : Element := ⟨e.tag, ⟨e.tag.span.start, stop⟩, none, e.children ++ ns⟩
      have inside : (x, inner) ∈ elementsAll [] y.children := by
        rw [elementsAll_append]
        exact List.mem_append_left _ mem
      have here : (x, inner ++ [y]) ∈ elementsAll [] [y.node] := by
        rw [elementsAll_singleton]
        exact mem_elements_node.mpr (Or.inr ⟨inner, inside, rfl⟩)
      have all : (x, _) ∈ elementsAll [] (collapse stop es [y.node]) :=
        mem_elementsAll_collapse here
      exact ⟨_, all⟩
    · exact ih later

theorem exists_spine_mem_collapse {stop : Nat} {es : List OpenElement} {ns : List Node}
    {x : Element} (mem : x ∈ spine stop es ns) :
    ∃ around, (x, around) ∈ elementsAll [] (collapse stop es ns) := by
  induction es generalizing ns with
  | nil => cases mem
  | cons e es ih =>
    rcases List.mem_cons.mp mem with rfl | later
    · exact ⟨_, spine_mem_collapse rfl⟩
    · exact ih later

def OpenElement.ended (e : OpenElement) (s : Span) (inside : List OpenElement) : Element :=
  ⟨e.tag, ⟨e.tag.span.start, s.stop⟩, some s, e.children ++ collapse s.start inside []⟩

theorem cases_elements_ended {e : OpenElement} {s : Span} {es : List OpenElement} {x : Element}
    {around : List Element} (mem : (x, around) ∈ (e.ended s es).node.elements []) :
    x = e.ended s es ∨ (x ∈ spine s.start es [] ∧ e.ended s es ∈ around) ∨
      ∃ e' ∈ es ++ [e], ∃ inner, (x, inner) ∈ elementsAll [] e'.children ∧ inner ⊆ around := by
  rcases mem_elements_node.mp mem with ⟨rfl, -⟩ | ⟨inner, child, rfl⟩
  · exact Or.inl rfl
  · have grows : inner ⊆ inner ++ [e.ended s es] := List.subset_append_left _ _
    rcases List.mem_append.mp (elementsAll_append [] _ _ ▸ child) with own | left
    · exact Or.inr (Or.inr ⟨e, by simp, inner, own, grows⟩)
    · rcases cases_elementsAll_collapse left with
        ⟨_, none, -⟩ | ⟨e', opened, inner', mem', sub⟩ | line
      · cases none
      · exact Or.inr (Or.inr ⟨e', List.mem_append_left _ opened, inner', mem',
          List.Subset.trans sub grows⟩)
      · exact Or.inr (Or.inl ⟨line, by simp⟩)

theorem exists_mem_elements_ended {e : OpenElement} {s : Span} {es : List OpenElement} {x : Element}
    (made : x = e.ended s es ∨ x ∈ spine s.start es [] ∨
      ∃ e' ∈ es ++ [e], ∃ inner, (x, inner) ∈ elementsAll [] e'.children) :
    ∃ around, (x, around) ∈ (e.ended s es).node.elements [] := by
  have below {inner : List Element}
      (child : (x, inner) ∈ elementsAll [] e.children ∨
        (x, inner) ∈ elementsAll [] (collapse s.start es [])) :
      ∃ around, (x, around) ∈ (e.ended s es).node.elements [] := by
    refine ⟨inner ++ [e.ended s es], mem_elements_node.mpr (Or.inr ⟨inner, ?_, rfl⟩)⟩
    rw [OpenElement.ended, elementsAll_append]
    exact List.mem_append.mpr child
  rcases made with rfl | line | ⟨e', opened, inner, mem⟩
  · exact ⟨[], mem_elements_node.mpr (Or.inl ⟨rfl, rfl⟩)⟩
  · obtain ⟨around, mem⟩ := exists_spine_mem_collapse line
    exact below (Or.inr mem)
  · rcases List.mem_append.mp opened with inside | own
    · obtain ⟨around, mem⟩ := exists_mem_collapse inside mem
      exact below (Or.inr mem)
    · rw [List.mem_singleton.mp own] at mem
      exact below (Or.inl mem)

namespace Builder

/-- The open elements of a builder end, and their node is added to what is around them. -/
theorem foldl_endInner (b : Builder) (stop : Nat) (es outer : List OpenElement) (ns : List Node) :
    (ns.foldl add { b with stack := es ++ outer }).endInner stop es.length =
      (collapse stop es ns).foldl add { b with stack := outer } := by
  induction es generalizing ns with
  | nil => rfl
  | cons e es ih =>
    rw [List.cons_append, foldl_add_open, List.length_cons, endInner]
    exact ih [.element e.tag ⟨e.tag.span.start, stop⟩ none (e.children ++ ns)]

/-- What an end tag does: it ends an open element of its name with all elements inside, or is
reported when no open element has its name. -/
theorem close_cases (b : Builder) (name : String) (s : Span) :
    (∃ es e outer, b.stack = es ++ e :: outer ∧ sameName name e.tag.name = true ∧
      b.close name s = add { b with stack := outer } (e.ended s es).node) ∨
      (∀ e ∈ b.stack, sameName name e.tag.name = false) ∧
        b.close name s = b.report [(strayEndTag name).diagnostic s] := by
  unfold close
  split
  · rename_i inner found
    left
    obtain ⟨lt, same, -⟩ := List.findIdx?_eq_some_iff_getElem.mp found
    let es := b.stack.take inner
    let outer := b.stack.drop (inner + 1)
    have split : b.stack = es ++ b.stack[inner] :: outer := by
      rw [List.getElem_cons_drop, List.take_append_drop]
    have length : es.length = inner := List.length_take_of_le (Nat.le_of_lt lt)
    refine ⟨es, b.stack[inner], outer, split, same, ?_⟩
    have ended := foldl_endInner b s.start es (b.stack[inner] :: outer) []
    rw [← split, length, foldl_add_open] at ended
    rw [List.foldl_nil] at ended
    rw [ended]
    rfl
  · rename_i none
    exact Or.inr ⟨by simpa using none, rfl⟩

/-- At the end of the text the open elements end, and each one is reported. -/
theorem finish_eq (b : Builder) (stop : Nat) :
    b.finish stop =
      ⟨[], b.roots ++ collapse stop b.stack [], b.problems ++
        b.stack.map fun e => Problem.diagnostic (.unclosedElement e.tag.name) e.tag.span⟩ := by
  have ended := foldl_endInner (b.report (b.stack.map fun e =>
    Problem.diagnostic (.unclosedElement e.tag.name) e.tag.span)) stop b.stack [] []
  rw [List.append_nil] at ended
  exact ended.trans (foldl_add_roots _ _ _)

def elements (b : Builder) : List (Element × List Element) :=
  elementsAll [] b.roots ++ b.stack.flatMap fun e => elementsAll [] e.children

theorem mem_elements_iff {b : Builder} {p : Element × List Element} :
    p ∈ b.elements ↔ p ∈ elementsAll [] b.roots ∨ ∃ e ∈ b.stack, p ∈ elementsAll [] e.children := by
  simp [elements, List.mem_flatMap]

theorem mem_elements_add {b : Builder} {n : Node} {p : Element × List Element} :
    p ∈ (b.add n).elements ↔ p ∈ b.elements ∨ p ∈ n.elements [] := by
  obtain ⟨stack, roots, problems⟩ := b
  cases stack with
  | nil => simp [elements, add, elementsAll_append, elementsAll_singleton]
  | cons e outer =>
    simp only [elements, add, List.flatMap_cons, elementsAll_append, elementsAll_singleton,
      List.mem_append]
    grind

/-! What one token does. -/

def tags (b : Builder) : List StartTag := b.stack.map OpenElement.tag

theorem tags_add (b : Builder) (n : Node) : (b.add n).tags = b.tags := by
  obtain ⟨stack, roots, problems⟩ := b
  cases stack <;> rfl

theorem tags_of_stack {b : Builder} {es outer : List OpenElement} {e : OpenElement}
    (split : b.stack = es ++ e :: outer) :
    b.tags = es.map OpenElement.tag ++ e.tag :: outer.map OpenElement.tag := by
  rw [tags, split, List.map_append, List.map_cons]

theorem mem_tags_of_stack {b : Builder} {es outer : List OpenElement} {e : OpenElement}
    (split : b.stack = es ++ e :: outer) : e.tag ∈ b.tags := by
  rw [tags_of_stack split]
  exact List.mem_append_right _ List.mem_cons_self

/-- The elements that a token finishes, with what is around them: one without content, the one that
an end tag closes, and those inside it. -/
inductive Finishes (b : Builder) : Token → Element → List Element → Prop
  | closed {tag : StartTag} {raw : Option TextNode} {around : List Element}
    (closed : tag.isClosed = true) : Finishes b (.start tag raw) ⟨tag, tag.span, none, []⟩ around
  | ended {name : String} {s : Span} {es outer : List OpenElement} {e : OpenElement}
    {around : List Element} (split : b.stack = es ++ e :: outer)
    (same : sameName name e.tag.name = true) : Finishes b (.close name s) (e.ended s es) around
  | within {name : String} {s : Span} {es outer : List OpenElement} {e : OpenElement} {x : Element}
    {around : List Element} (split : b.stack = es ++ e :: outer)
    (same : sameName name e.tag.name = true) (line : x ∈ spine s.start es [])
    (mem : e.ended s es ∈ around) : Finishes b (.close name s) x around

theorem step_end_tag (b : Builder) (name : String) (s : Span) (problems : List Diagnostic)
    (next : Cursor) :
    b.step ⟨.close name s, problems, next⟩ = (b.report problems).close name s :=
  rfl

section step

variable {b : Builder} {l : Lexeme} {x : Element} {around : List Element}

theorem cases_elements_step (mem : (x, around) ∈ (b.step l).elements) :
    (∃ inner, (x, inner) ∈ b.elements ∧ inner ⊆ around) ∨ b.Finishes l.token x around := by
  obtain ⟨token, problems, next⟩ := l
  have old (mem : (x, around) ∈ b.elements) : ∃ inner, (x, inner) ∈ b.elements ∧ inner ⊆ around :=
    ⟨around, mem, List.Subset.refl around⟩
  cases token with
  | text t | comment t | instruction t =>
    rcases mem_elements_add.mp mem with mem | new
    · exact Or.inl (old mem)
    · cases new
  | declaration s => exact Or.inl (old mem)
  | start tag raw =>
    simp only [step] at mem
    split at mem
    · rename_i closed
      rcases mem_elements_add.mp mem with mem | new
      · exact Or.inl (old mem)
      · cases List.mem_singleton.mp new
        exact Or.inr (.closed closed)
    · rcases mem_elements_iff.mp mem with root | ⟨e, opened, child⟩
      · exact Or.inl (old (mem_elements_iff.mpr (Or.inl root)))
      · rcases List.mem_cons.mp opened with rfl | opened
        · rw [elementsAll_raw] at child
          cases child
        · exact Or.inl (old (mem_elements_iff.mpr (Or.inr ⟨e, opened, child⟩)))
  | close name s =>
    rcases close_cases (b.report problems) name s with ⟨es, e, outer, split, same, eq⟩ | ⟨-, eq⟩
    · rw [step_end_tag, eq] at mem
      have split : b.stack = es ++ e :: outer := split
      rcases mem_elements_add.mp mem with mem | new
      · rcases mem_elements_iff.mp mem with root | ⟨e', opened, child⟩
        · exact Or.inl (old (mem_elements_iff.mpr (Or.inl root)))
        · refine Or.inl (old (mem_elements_iff.mpr (Or.inr ⟨e', ?_, child⟩)))
          rw [split]
          exact List.mem_append_right _ (List.mem_cons_of_mem e opened)
      · rcases cases_elements_ended new with rfl | ⟨line, mem⟩ | ⟨e', opened, inner, child, sub⟩
        · exact Or.inr (.ended split same)
        · exact Or.inr (.within split same line mem)
        · refine Or.inl ⟨inner, mem_elements_iff.mpr (Or.inr ⟨e', ?_, child⟩), sub⟩
          rw [split, List.append_cons]
          exact List.mem_append_left _ opened
    · rw [step_end_tag, eq] at mem
      exact Or.inl (old mem)

theorem exists_mem_elements_step (mem : (x, around) ∈ b.elements) :
    ∃ outer, (x, outer) ∈ (b.step l).elements := by
  obtain ⟨token, problems, next⟩ := l
  cases token with
  | text t | comment t | instruction t => exact ⟨around, mem_elements_add.mpr (Or.inl mem)⟩
  | declaration s => exact ⟨around, mem⟩
  | start tag raw =>
    simp only [step]
    split
    · exact ⟨around, mem_elements_add.mpr (Or.inl mem)⟩
    · refine ⟨around, mem_elements_iff.mpr ((mem_elements_iff.mp mem).imp_right ?_)⟩
      rintro ⟨e, opened, child⟩
      exact ⟨e, List.mem_cons_of_mem _ opened, child⟩
  | close name s =>
    rcases close_cases (b.report problems) name s with ⟨es, e, outer, split, same, eq⟩ | ⟨-, eq⟩
    · rw [step_end_tag, eq]
      have split : b.stack = es ++ [e] ++ outer := by rw [← List.append_cons]; exact split
      rcases mem_elements_iff.mp mem with root | ⟨e', opened, child⟩
      · exact ⟨around, mem_elements_add.mpr (Or.inl (mem_elements_iff.mpr (Or.inl root)))⟩
      · rw [split] at opened
        rcases List.mem_append.mp opened with inside | outside
        · obtain ⟨outer', mem'⟩ := exists_mem_elements_ended (s := s)
            (Or.inr (Or.inr ⟨e', inside, around, child⟩))
          exact ⟨outer', mem_elements_add.mpr (Or.inr mem')⟩
        · exact ⟨around, mem_elements_add.mpr (Or.inl (mem_elements_iff.mpr
            (Or.inr ⟨e', outside, child⟩)))⟩
    · rw [step_end_tag, eq]
      exact ⟨around, mem⟩

/-- An element is open when it was before, or when its start tag was just read. -/
theorem cases_tags_step {tag : StartTag} (mem : tag ∈ (b.step l).tags) :
    tag ∈ b.tags ∨ ∃ raw, l.token = .start tag raw ∧ tag.isClosed = false := by
  obtain ⟨token, problems, next⟩ := l
  cases token with
  | text t | comment t | instruction t =>
    rw [step, tags_add] at mem
    exact Or.inl mem
  | declaration s => exact Or.inl mem
  | start tag' raw =>
    simp only [step] at mem
    split at mem
    · rw [tags_add] at mem
      exact Or.inl mem
    · rename_i content
      rcases List.mem_cons.mp mem with rfl | mem
      · exact Or.inr ⟨raw, rfl, by simpa using content⟩
      · exact Or.inl mem
  | close name s =>
    left
    rcases close_cases (b.report problems) name s with ⟨es, e, outer, split, same, eq⟩ | ⟨-, eq⟩
    · rw [step_end_tag, eq, tags_add] at mem
      have split : b.stack = es ++ e :: outer := split
      rw [tags_of_stack split]
      exact List.mem_append_right _ (List.mem_cons_of_mem _ mem)
    · rw [step_end_tag, eq] at mem
      exact mem

/-- An open element stays open until an end tag finishes it. -/
theorem kept_step {tag : StartTag} (mem : tag ∈ b.tags) : tag ∈ (b.step l).tags ∨
    ∃ name s x around, l.token = .close name s ∧ (x, around) ∈ (b.step l).elements ∧
      x.tag = tag ∧ innerStop x.span x.endSpan = s.start := by
  obtain ⟨token, problems, next⟩ := l
  cases token with
  | text t | comment t | instruction t => exact Or.inl (by rw [step, tags_add]; exact mem)
  | declaration s => exact Or.inl mem
  | start tag' raw =>
    simp only [step]
    split
    · exact Or.inl (by rw [tags_add]; exact mem)
    · exact Or.inl (List.mem_cons_of_mem _ mem)
  | close name s =>
    rcases close_cases (b.report problems) name s with ⟨es, e, outer, split, same, eq⟩ | ⟨-, eq⟩
    · have split : b.stack = es ++ e :: outer := split
      rw [tags_of_stack split] at mem
      have made {x : Element} (new : x = e.ended s es ∨ x ∈ spine s.start es []) :
          ∃ around, (x, around) ∈ (b.step ⟨.close name s, problems, next⟩).elements := by
        obtain ⟨around, mem⟩ := exists_mem_elements_ended (new.imp_right Or.inl)
        rw [step_end_tag, eq]
        exact ⟨around, mem_elements_add.mpr (Or.inr mem)⟩
      rcases List.mem_append.mp mem with inside | outside
      · rw [← map_tag_spine s.start es []] at inside
        obtain ⟨x, line, rfl⟩ := List.mem_map.mp inside
        obtain ⟨around, new⟩ := made (Or.inr line)
        obtain ⟨inner, e', _, _, rfl⟩ := mem_spine line
        exact Or.inr ⟨name, s, _, around, rfl, new, rfl, rfl⟩
      · rcases List.mem_cons.mp outside with rfl | outside
        · obtain ⟨around, new⟩ := made (Or.inl rfl)
          exact Or.inr ⟨name, s, _, around, rfl, new, rfl, rfl⟩
        · left
          rw [step_end_tag, eq, tags_add]
          exact outside
    · rw [step_end_tag, eq]
      exact Or.inl mem

def reports (b : Builder) : Token → List Diagnostic
  | .close name s =>
    if ∀ tag ∈ b.tags, sameName name tag.name = false then [(strayEndTag name).diagnostic s] else []
  | _ => []

theorem mem_reports_iff {b : Builder} {name : String} {s : Span} {d : Diagnostic} :
    d ∈ b.reports (.close name s) ↔
      (∀ tag ∈ b.tags, sameName name tag.name = false) ∧ d = (strayEndTag name).diagnostic s := by
  rw [reports]
  split
  · rename_i none
    rw [List.mem_singleton]
    exact ⟨fun eq => ⟨none, eq⟩, fun both => both.2⟩
  · rename_i some
    exact ⟨fun mem => absurd mem List.not_mem_nil, fun both => absurd both.1 some⟩

theorem problems_step_eq (b : Builder) (l : Lexeme) :
    (b.step l).problems = b.problems ++ l.problems ++ b.reports l.token := by
  obtain ⟨token, problems, next⟩ := l
  cases token with
  | text t | comment t | instruction t => simp [step, reports, problems_add, report]
  | declaration s => simp [step, reports, report]
  | start tag raw =>
    simp only [step, reports, List.append_nil]
    split
    · rw [problems_add]
      rfl
    · rfl
  | close name s =>
    rcases close_cases (b.report problems) name s with ⟨es, e, outer, split, same, eq⟩ | ⟨none, eq⟩
    · have split : b.stack = es ++ e :: outer := split
      have opened : ¬ ∀ tag ∈ b.tags, sameName name tag.name = false := by
        intro none
        have other := none e.tag (mem_tags_of_stack split)
        rw [same] at other
        cases other
      rw [step_end_tag, eq, problems_add, reports, if_neg opened, List.append_nil]
      rfl
    · have stray : ∀ tag ∈ b.tags, sameName name tag.name = false := by
        simpa [tags, report] using none
      rw [step_end_tag, eq, reports, if_pos stray]
      rfl

end step

end Builder

end DirectiveTemplates.Markup
