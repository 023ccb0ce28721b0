import DirectiveTemplates.Markup.Forest

/-!
The outline of a forest: its elements with their names, attributes and nesting, without the texts.
It is made from the tags of a text alone, whatever stands between them.
-/
namespace DirectiveTemplates.Markup

inductive Outline where
  | element (name : String) (attributes : List (String × String)) (inner : List Outline)

def StartTag.entries (t : StartTag) : List (String × String) :=
  t.attributes.map fun a => (a.name, a.value)

mutual

def Node.outline : Node → List Outline
  | .element tag _ _ children => [.element tag.name tag.entries (outlineAll children)]
  | .text _ => []
  | .comment _ => []
  | .instruction _ => []

def outlineAll : List Node → List Outline
  | [] => []
  | n :: ns => n.outline ++ outlineAll ns

end

theorem outlineAll_append (ns rest : List Node) :
    outlineAll (ns ++ rest) = outlineAll ns ++ outlineAll rest := by
  induction ns with
  | nil => rfl
  | cons n ns ih => simp [outlineAll, ih]

inductive Mark where
  | opening (name : String) (attributes : List (String × String)) (closed : Bool)
  | closing (name : String)

def Token.mark? : Token → Option Mark
  | .start tag _ => some (.opening tag.name tag.entries tag.isClosed)
  | .close name _ => some (.closing name)
  | _ => none

def marksOf (ls : List Lexeme) : List Mark := ls.filterMap (·.token.mark?)

theorem marksOf_cons (l : Lexeme) (ls : List Lexeme) :
    marksOf (l :: ls) = l.token.mark?.toList ++ marksOf ls := by
  rw [marksOf, List.filterMap_cons]
  cases l.token.mark? <;> rfl

structure OpenOutline where
  name : String
  attributes : List (String × String)
  inner : List Outline

structure Sketch where
  stack : List OpenOutline
  roots : List Outline

namespace Sketch

def empty : Sketch := ⟨[], []⟩

def add (k : Sketch) (os : List Outline) : Sketch :=
  match k.stack with
  | [] => { k with roots := k.roots ++ os }
  | e :: outer => { k with stack := { e with inner := e.inner ++ os } :: outer }

def endInnermost (k : Sketch) : Sketch :=
  match k.stack with
  | [] => k
  | e :: outer => { k with stack := outer }.add [.element e.name e.attributes e.inner]

def endInner : Nat → Sketch → Sketch
  | 0, k => k
  | n + 1, k => endInner n k.endInnermost

def step (k : Sketch) : Mark → Sketch
  | .opening name attributes closed =>
    if closed then k.add [.element name attributes []]
    else { k with stack := ⟨name, attributes, []⟩ :: k.stack }
  | .closing name =>
    match k.stack.findIdx? (Text.sameName name ·.name) with
    | some inner => (k.endInner inner).endInnermost
    | none => k

def ofMarks (ms : List Mark) : List Outline :=
  let k := ms.foldl step empty
  (k.endInner k.stack.length).roots

end Sketch

def OpenElement.outline (e : OpenElement) : OpenOutline :=
  ⟨e.tag.name, e.tag.entries, outlineAll e.children⟩

namespace Builder

def sketch (b : Builder) : Sketch := ⟨b.stack.map OpenElement.outline, outlineAll b.roots⟩

theorem sketch_add (b : Builder) (n : Node) : (b.add n).sketch = b.sketch.add n.outline := by
  have alone : outlineAll [n] = n.outline := List.append_nil _
  obtain ⟨stack, roots, problems⟩ := b
  cases stack with
  | nil => simp [add, sketch, Sketch.add, outlineAll_append, alone]
  | cons e outer => simp [add, sketch, Sketch.add, OpenElement.outline, outlineAll_append, alone]

theorem sketch_add_of_outline_nil (b : Builder) {n : Node} (none : n.outline = []) :
    (b.add n).sketch = b.sketch := by
  rw [sketch_add, none]
  obtain ⟨stack, roots, problems⟩ := b
  cases stack with
  | nil => simp [sketch, Sketch.add]
  | cons e outer => simp [sketch, Sketch.add]

theorem sketch_endInnermost (b : Builder) (stop : Nat) (endSpan : Option Span) :
    (b.endInnermost stop endSpan).sketch = b.sketch.endInnermost := by
  obtain ⟨stack, roots, problems⟩ := b
  cases stack with
  | nil => rfl
  | cons e outer =>
    rw [endInnermost, sketch_add]
    rfl

theorem sketch_endInner (stop n : Nat) (b : Builder) :
    (b.endInner stop n).sketch = b.sketch.endInner n := by
  induction n generalizing b with
  | zero => rfl
  | succ n ih => rw [endInner, ih, sketch_endInnermost, Sketch.endInner]

theorem sketch_close (b : Builder) (name : String) (s : Span) :
    (b.close name s).sketch = b.sketch.step (.closing name) := by
  have found : b.sketch.stack.findIdx? (Text.sameName name ·.name) =
      b.stack.findIdx? (Text.sameName name ·.tag.name) := List.findIdx?_map
  rw [Sketch.step, found, close]
  cases b.stack.findIdx? (Text.sameName name ·.tag.name) with
  | none => rfl
  | some inner =>
    simp only
    rw [sketch_endInnermost, sketch_endInner]

/-- A token changes the outlines by what it says about elements. -/
theorem sketch_step (b : Builder) (l : Lexeme) :
    (b.step l).sketch = (l.token.mark?.toList).foldl Sketch.step b.sketch := by
  obtain ⟨token, problems, next⟩ := l
  have reported : (b.report problems).sketch = b.sketch := rfl
  cases token with
  | text t => exact sketch_add_of_outline_nil _ rfl
  | comment t => exact sketch_add_of_outline_nil _ rfl
  | instruction i => exact sketch_add_of_outline_nil _ rfl
  | declaration s => rfl
  | close name s => exact sketch_close _ name s
  | start tag raw =>
    simp only [step, Token.mark?, Option.toList_some, List.foldl_cons, List.foldl_nil, Sketch.step]
    split
    · rw [sketch_add]
      rfl
    · have inside : outlineAll (raw.toList.map .text) = [] := by cases raw <;> rfl
      simp [sketch, report, OpenElement.outline, inside]

theorem sketch_foldl (b : Builder) (ls : List Lexeme) :
    (ls.foldl step b).sketch = (marksOf ls).foldl Sketch.step b.sketch := by
  induction ls generalizing b with
  | nil => rfl
  | cons l ls ih =>
    rw [List.foldl_cons, ih, sketch_step, marksOf_cons, List.foldl_append]

end Builder

/-- The outline of a text is made from its tags. -/
theorem outline_parse (source : String) :
    outlineAll (parse source).nodes = Sketch.ofMarks (marksOf (lexemes source)) := by
  let b := (lexemes source).foldl Builder.step Builder.empty
  have read : b.sketch = (marksOf (lexemes source)).foldl Sketch.step Sketch.empty :=
    Builder.sketch_foldl _ _
  have height : b.sketch.stack.length = b.stack.length := List.length_map _
  have ended : (b.finish source.utf8ByteSize).sketch = b.sketch.endInner b.stack.length := by
    rw [Builder.finish, Builder.sketch_endInner]
    rfl
  show (b.finish source.utf8ByteSize).sketch.roots = _
  rw [ended, Sketch.ofMarks, ← read, ← height]

end DirectiveTemplates.Markup
