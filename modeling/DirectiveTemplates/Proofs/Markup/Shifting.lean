import DirectiveTemplates.Proofs.Markup.RoundTrip

/-!
Markup that stands further back in a text. Readers look at what is left of the text and count
offsets from where they are, so all that they leave is moved by as much as they are.
-/
namespace DirectiveTemplates.Markup

open Text

def TextNode.shift (t : TextNode) (k : Nat) : TextNode := { t with span := t.span.shift k }

def Instruction.shift (i : Instruction) (k : Nat) : Instruction :=
  { i with span := i.span.shift k, contentSpan := i.contentSpan.shift k }

def Attribute.shift (a : Attribute) (k : Nat) : Attribute :=
  { a with
    span := a.span.shift k
    nameSpan := a.nameSpan.shift k
    valueSpan := a.valueSpan.map (·.shift k) }

def StartTag.shift (t : StartTag) (k : Nat) : StartTag :=
  { t with
    attributes := t.attributes.map (·.shift k)
    span := t.span.shift k
    nameSpan := t.nameSpan.shift k }

mutual

def Node.shift (k : Nat) : Node → Node
  | .element tag span stop children =>
    .element (tag.shift k) (span.shift k) (stop.map (·.shift k)) (shiftAll k children)
  | .text t => .text (t.shift k)
  | .comment t => .comment (t.shift k)
  | .instruction i => .instruction (i.shift k)

def shiftAll (k : Nat) : List Node → List Node
  | [] => []
  | n :: ns => n.shift k :: shiftAll k ns

end

theorem shiftAll_append (k : Nat) (ns rest : List Node) :
    shiftAll k (ns ++ rest) = shiftAll k ns ++ shiftAll k rest := by
  induction ns with
  | nil => rfl
  | cons n ns ih => simp [shiftAll, ih]

def Cursor.shift (c : Cursor) (k : Nat) : Cursor := { c with offset := c.offset + k }

def Token.shift (k : Nat) : Token → Token
  | .text t => .text (t.shift k)
  | .comment t => .comment (t.shift k)
  | .instruction i => .instruction (i.shift k)
  | .declaration s => .declaration (s.shift k)
  | .start tag raw => .start (tag.shift k) (raw.map (·.shift k))
  | .close name s => .close name (s.shift k)

def Lexeme.shift (l : Lexeme) (k : Nat) : Lexeme :=
  ⟨l.token.shift k, l.problems.map (·.shift k), l.next.shift k⟩

def ValueReading.shift (v : ValueReading) (k : Nat) : ValueReading :=
  ⟨v.text, v.span.shift k, v.problems.map (·.shift k), v.next.shift k⟩

def AttributeReading.shift (a : AttributeReading) (k : Nat) : AttributeReading :=
  ⟨a.found.shift k, a.problems.map (·.shift k), a.next.shift k⟩

def TagReading.shift (t : TagReading) (k : Nat) : TagReading :=
  ⟨t.attributes.map (·.shift k), t.selfClosing, t.problems.map (·.shift k), t.next.shift k⟩

/-! Readers. -/

namespace Cursor

variable (c d : Cursor) (k : Nat)

@[simp] theorem rest_shift : (c.shift k).rest = c.rest := rfl

@[simp] theorem offset_shift : (c.shift k).offset = c.offset + k := rfl

@[simp] theorem after_shift (cs rest : List Char) :
    (c.shift k).after cs rest = (c.after cs rest).shift k := by
  simp [after, shift, Nat.add_right_comm]

@[simp] theorem skip_shift (n : Nat) : (c.shift k).skip n = (c.skip n).shift k :=
  c.after_shift k _ _

@[simp] theorem textUntil_shift (stop : List Char → Bool) :
    (c.shift k).textUntil stop = c.textUntil stop := rfl

@[simp] theorem goUntil_shift (stop : List Char → Bool) :
    (c.shift k).goUntil stop = (c.goUntil stop).shift k :=
  c.after_shift k _ _

@[simp] theorem skipSpace_shift : (c.shift k).skipSpace = c.skipSpace.shift k :=
  c.goUntil_shift k _

@[simp] theorem name_shift : (c.shift k).name = c.name := rfl

@[simp] theorem skipName_shift : (c.shift k).skipName = c.skipName.shift k := c.goUntil_shift k _

@[simp] theorem spanFrom_shift : (c.shift k).spanFrom (d.shift k) = (c.spanFrom d).shift k := rfl

end Cursor

section readers

variable (c : Cursor) (k : Nat)

theorem problemIf_shift (missing : Bool) (problem : Problem) (s : Span) :
    problemIf missing problem (s.shift k) = (problemIf missing problem s).map (·.shift k) := by
  cases missing <;> rfl

theorem readDelimited_shift (close : List Char) :
    readDelimited close (c.shift k) =
      ((readDelimited close c).1, (readDelimited close c).2.1.shift k,
        (readDelimited close c).2.2) := by
  simp [readDelimited]

theorem readText_shift : readText (c.shift k) = (readText c).shift k := by
  simp [readText, Lexeme.shift, Token.shift, TextNode.shift]

theorem readComment_shift : readComment (c.shift k) = (readComment c).shift k := by
  simp [readComment, readDelimited_shift, problemIf_shift, Lexeme.shift, Token.shift,
    TextNode.shift]

theorem readCdata_shift : readCdata (c.shift k) = (readCdata c).shift k := by
  simp [readCdata, readDelimited_shift, problemIf_shift, Lexeme.shift, Token.shift,
    TextNode.shift]

theorem readDeclaration_shift : readDeclaration (c.shift k) = (readDeclaration c).shift k := by
  simp [readDeclaration, readDelimited_shift, Lexeme.shift, Token.shift]

theorem readInstruction_shift : readInstruction (c.shift k) = (readInstruction c).shift k := by
  simp only [readInstruction, Cursor.skip_shift, Cursor.textUntil_shift, Cursor.goUntil_shift,
    readDelimited_shift, Cursor.spanFrom_shift, problemIf_shift, Cursor.offset_shift,
    Lexeme.shift, Token.shift, Instruction.shift]
  simp [Span.shift, Nat.add_right_comm]

theorem readEndTag_shift : readEndTag (c.shift k) = (readEndTag c).shift k := by
  simp [readEndTag, Lexeme.shift, Token.shift]

theorem readQuoted_shift (quote : Char) :
    readQuoted quote (c.shift k) = (readQuoted quote c).shift k := by
  simp [readQuoted, ValueReading.shift, problemIf_shift]

theorem readBare_shift : readBare (c.shift k) = (readBare c).shift k := by
  simp [readBare, ValueReading.shift]

theorem readValue_shift : readValue (c.shift k) = (readValue c).shift k := by
  simp only [readValue, Cursor.rest_shift]
  split
  · split
    · exact readQuoted_shift c k _
    · exact readBare_shift c k
  · exact readBare_shift c k

theorem readAttribute_shift : readAttribute (c.shift k) = (readAttribute c).shift k := by
  by_cases signed : ∃ rest, c.skipName.skipSpace.rest = '=' :: rest
  · obtain ⟨rest, sign⟩ := signed
    have sign' : (c.shift k).skipName.skipSpace.rest = '=' :: rest := by simpa using sign
    rw [readAttribute_with_value sign, readAttribute_with_value sign']
    simp [readValue_shift, AttributeReading.shift, Attribute.shift, ValueReading.shift]
  · have other : ∀ rest, c.skipName.skipSpace.rest ≠ '=' :: rest :=
      fun rest eq => signed ⟨rest, eq⟩
    have other' : ∀ rest, (c.shift k).skipName.skipSpace.rest ≠ '=' :: rest := by
      simpa using other
    rw [readAttribute_without_value other, readAttribute_without_value other']
    simp [AttributeReading.shift, Attribute.shift]

theorem readAttributes_shift (start : Cursor) (name : String) (steps : Nat) :
    readAttributes (start.shift k) name steps (c.shift k) =
      (readAttributes start name steps c).shift k := by
  induction steps generalizing c with
  | zero => rfl
  | succ steps ih =>
    simp only [readAttributes, Cursor.skipSpace_shift, Cursor.rest_shift]
    split
    · rfl
    · simp [TagReading.shift]
    · simp [TagReading.shift]
    · rfl
    · split
      · rw [Cursor.skip_shift, ih]
        rfl
      · rw [readAttribute_shift]
        simp only [AttributeReading.shift, ih]
        simp [TagReading.shift]

theorem readRaw_shift (name : List Char) :
    readRaw name (c.shift k) =
      ((readRaw name c).1.map (·.shift k), (readRaw name c).2.shift k) := by
  simp only [readRaw, Cursor.textUntil_shift, Cursor.goUntil_shift]
  split
  · rfl
  · rfl

theorem tagBody_shift : (c.shift k).tagBody = c.tagBody.shift k := by
  simp only [Cursor.tagBody, Cursor.skip_shift, Cursor.name_shift, Cursor.skipName_shift,
    Cursor.rest_shift, readAttributes_shift]

theorem startTag_shift : (c.shift k).startTag = c.startTag.shift k := by
  simp only [Cursor.startTag, tagBody_shift, TagReading.shift, Cursor.skip_shift,
    Cursor.name_shift, Cursor.skipName_shift, Cursor.spanFrom_shift, StartTag.shift]

theorem readStartTag_shift : readStartTag (c.shift k) = (readStartTag c).shift k := by
  have tag := startTag_shift c k
  have body := tagBody_shift c k
  have same : (c.shift k).startTag.startsRaw = c.startTag.startsRaw := by
    rw [tag]
    rfl
  cases raw : c.startTag.startsRaw with
  | true =>
    rw [readStartTag_of_startsRaw raw, readStartTag_of_startsRaw (same.trans raw), tag, body]
    simp only [TagReading.shift, Cursor.skip_shift, Cursor.name_shift, readRaw_shift]
    rfl
  | false =>
    rw [readStartTag_of_not_startsRaw raw, readStartTag_of_not_startsRaw (same.trans raw), tag,
      body]
    rfl

theorem readToken_shift : readToken (c.shift k) = (readToken c).shift k := by
  simp only [readToken, Cursor.rest_shift]
  cases constructAt c.rest with
  | comment => exact readComment_shift c k
  | cdata => exact readCdata_shift c k
  | declaration => exact readDeclaration_shift c k
  | instruction => exact readInstruction_shift c k
  | closeTag => exact readEndTag_shift c k
  | openTag => exact readStartTag_shift c k
  | text => exact readText_shift c k

theorem lexemesFrom_shift (count : Nat) :
    lexemesFrom count (c.shift k) = (lexemesFrom count c).map (·.shift k) := by
  induction count generalizing c with
  | zero => rfl
  | succ count ih =>
    simp only [lexemesFrom, Cursor.rest_shift, readToken_shift]
    split
    · rfl
    · rw [List.map_cons, ← ih]
      rfl

end readers

/-! What a builder makes of them. -/

def OpenElement.shift (e : OpenElement) (k : Nat) : OpenElement :=
  ⟨e.tag.shift k, shiftAll k e.children⟩

namespace Builder

def shift (b : Builder) (k : Nat) : Builder :=
  ⟨b.stack.map (·.shift k), shiftAll k b.roots, b.problems.map (·.shift k)⟩

def behind (b : Builder) (ns : List Node) : Builder := { b with roots := ns ++ b.roots }

section shift

variable (b : Builder) (k : Nat)

theorem add_shift (n : Node) : (b.shift k).add (n.shift k) = (b.add n).shift k := by
  obtain ⟨stack, roots, problems⟩ := b
  cases stack with
  | nil => simp [shift, add, shiftAll_append, shiftAll]
  | cons e outer => simp [shift, add, OpenElement.shift, shiftAll_append, shiftAll]

theorem report_shift (ds : List Diagnostic) :
    (b.shift k).report (ds.map (·.shift k)) = (b.report ds).shift k := by
  simp [shift, report]

theorem endInnermost_shift (stop : Nat) (endSpan : Option Span) :
    (b.shift k).endInnermost (stop + k) (endSpan.map (·.shift k)) =
      (b.endInnermost stop endSpan).shift k := by
  obtain ⟨stack, roots, problems⟩ := b
  cases stack with
  | nil => rfl
  | cons e outer =>
    exact add_shift ⟨outer, roots, problems⟩ k
      (.element e.tag ⟨e.tag.span.start, stop⟩ endSpan e.children)

theorem endInner_shift (stop n : Nat) :
    (b.shift k).endInner (stop + k) n = (b.endInner stop n).shift k := by
  induction n generalizing b with
  | zero => rfl
  | succ n ih =>
    have first := b.endInnermost_shift k stop none
    rw [Option.map_none] at first
    rw [endInner, first, ih, endInner]

theorem close_shift (name : String) (s : Span) :
    (b.shift k).close name (s.shift k) = (b.close name s).shift k := by
  have found : (b.shift k).stack.findIdx? (sameName name ·.tag.name) =
      b.stack.findIdx? (sameName name ·.tag.name) := List.findIdx?_map
  unfold close
  rw [found]
  cases b.stack.findIdx? (sameName name ·.tag.name) with
  | none => exact b.report_shift k [(strayEndTag name).diagnostic s]
  | some inner =>
    simp only [Span.shift]
    rw [endInner_shift]
    exact endInnermost_shift (b.endInner s.start inner) k s.stop (some s)

theorem step_shift (l : Lexeme) : (b.shift k).step (l.shift k) = (b.step l).shift k := by
  obtain ⟨token, problems, next⟩ := l
  have reported := b.report_shift k problems
  cases token with
  | text t =>
    simp only [step, Lexeme.shift, Token.shift, reported]
    exact add_shift _ k (.text t)
  | comment t =>
    simp only [step, Lexeme.shift, Token.shift, reported]
    exact add_shift _ k (.comment t)
  | instruction i =>
    simp only [step, Lexeme.shift, Token.shift, reported]
    exact add_shift _ k (.instruction i)
  | declaration s => exact reported
  | close name s =>
    simp only [step, Lexeme.shift, Token.shift, reported]
    exact close_shift _ k name s
  | start tag raw =>
    have closed : (tag.shift k).isClosed = tag.isClosed := rfl
    simp only [step, Lexeme.shift, Token.shift, reported, closed]
    split
    · exact add_shift _ k (.element tag tag.span none [])
    · cases raw <;> rfl

theorem foldl_shift (ls : List Lexeme) :
    (ls.map (·.shift k)).foldl step (b.shift k) = (ls.foldl step b).shift k := by
  induction ls generalizing b with
  | nil => rfl
  | cons l ls ih => rw [List.map_cons, List.foldl_cons, List.foldl_cons, step_shift, ih]

theorem finish_shift (stop : Nat) : (b.shift k).finish (stop + k) = (b.finish stop).shift k := by
  let unclosed := b.stack.map fun e => Problem.diagnostic (.unclosedElement e.tag.name) e.tag.span
  have height : (b.shift k).stack.length = b.stack.length := List.length_map _
  have moved : ((b.shift k).stack.map fun e =>
      Problem.diagnostic (.unclosedElement e.tag.name) e.tag.span) =
      unclosed.map (·.shift k) := by
    simp only [unclosed, shift, List.map_map]
    rfl
  unfold finish
  simp only [moved, height]
  rw [report_shift, endInner_shift]

end shift

section behind

variable (b : Builder) (ns : List Node)

theorem add_behind (n : Node) : (b.behind ns).add n = (b.add n).behind ns := by
  obtain ⟨stack, roots, problems⟩ := b
  cases stack with
  | nil => simp [behind, add]
  | cons e outer => rfl

theorem endInnermost_behind (stop : Nat) (endSpan : Option Span) :
    (b.behind ns).endInnermost stop endSpan = (b.endInnermost stop endSpan).behind ns := by
  obtain ⟨stack, roots, problems⟩ := b
  cases stack with
  | nil => rfl
  | cons e outer => exact add_behind ⟨outer, roots, problems⟩ ns _

theorem endInner_behind (stop n : Nat) :
    (b.behind ns).endInner stop n = (b.endInner stop n).behind ns := by
  induction n generalizing b with
  | zero => rfl
  | succ n ih => rw [endInner, endInnermost_behind, ih, endInner]

theorem close_behind (name : String) (s : Span) :
    (b.behind ns).close name s = (b.close name s).behind ns := by
  have stack : (b.behind ns).stack = b.stack := rfl
  unfold close
  rw [stack]
  cases b.stack.findIdx? (sameName name ·.tag.name) with
  | none => rfl
  | some inner =>
    simp only
    rw [endInner_behind, endInnermost_behind]

theorem step_behind (l : Lexeme) : (b.behind ns).step l = (b.step l).behind ns := by
  obtain ⟨token, problems, next⟩ := l
  have reported : (b.behind ns).report problems = (b.report problems).behind ns := rfl
  cases token with
  | text t => exact add_behind (b.report problems) ns (.text t)
  | comment t => exact add_behind (b.report problems) ns (.comment t)
  | instruction i => exact add_behind (b.report problems) ns (.instruction i)
  | declaration s => rfl
  | close name s => exact close_behind (b.report problems) ns name s
  | start tag raw =>
    simp only [step, reported]
    split
    · exact add_behind _ ns _
    · rfl

theorem foldl_behind (ls : List Lexeme) :
    ls.foldl step (b.behind ns) = (ls.foldl step b).behind ns := by
  induction ls generalizing b with
  | nil => rfl
  | cons l ls ih => rw [List.foldl_cons, step_behind, ih, List.foldl_cons]

theorem finish_behind (stop : Nat) : (b.behind ns).finish stop = (b.finish stop).behind ns :=
  endInner_behind (b.report _) ns stop b.stack.length

end behind

end Builder

end DirectiveTemplates.Markup
