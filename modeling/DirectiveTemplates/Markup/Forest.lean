import DirectiveTemplates.Markup.Token

/-!
The forest that tokens make. Open elements stand on a stack, innermost first; an end tag closes
the innermost open element of its name and with it everything inside.
-/
namespace DirectiveTemplates.Markup

structure OpenElement where
  tag : StartTag
  children : List Node
  deriving Repr

structure Builder where
  /-- The open elements, innermost first. -/
  stack : List OpenElement
  roots : List Node
  problems : List Diagnostic
  deriving Repr

namespace Builder

def empty : Builder := ⟨[], [], []⟩

/-- Adds a finished node to the innermost open element, or to the roots. -/
def add (b : Builder) (node : Node) : Builder :=
  match b.stack with
  | [] => { b with roots := b.roots ++ [node] }
  | e :: outer => { b with stack := { e with children := e.children ++ [node] } :: outer }

def report (b : Builder) (ds : List Diagnostic) : Builder :=
  { b with problems := b.problems ++ ds }

def endInnermost (stop : Nat) (endSpan : Option Span) (b : Builder) : Builder :=
  match b.stack with
  | [] => b
  | e :: outer =>
    { b with stack := outer }.add (.element e.tag ⟨e.tag.span.start, stop⟩ endSpan e.children)

/-- Ends the `n` innermost open elements at `stop`, without an end tag of their own. -/
def endInner (stop : Nat) : Nat → Builder → Builder
  | 0, b => b
  | n + 1, b => endInner stop n (b.endInnermost stop none)

def strayEndTag (name : String) : Problem :=
  if isVoid name then .voidEndTag name else .unexpectedEndTag name

/-- An end tag closes the innermost open element of its name, in any case of its letters. -/
def close (b : Builder) (name : String) (span : Span) : Builder :=
  match b.stack.findIdx? (Text.sameName name ·.tag.name) with
  | some inner => (b.endInner span.start inner).endInnermost span.stop (some span)
  | none => b.report [(strayEndTag name).diagnostic span]

def step (b : Builder) (lexeme : Lexeme) : Builder :=
  let b := b.report lexeme.problems
  match lexeme.token with
  | .text t => b.add (.text t)
  | .comment t => b.add (.comment t)
  | .instruction i => b.add (.instruction i)
  | .declaration _ => b
  | .start tag raw =>
    if tag.isClosed then b.add (.element tag tag.span none [])
    else { b with stack := ⟨tag, raw.toList.map .text⟩ :: b.stack }
  | .close name span => b.close name span

/-- At the end of the text every open element ends, innermost first, and is reported. -/
def finish (b : Builder) (stop : Nat) : Builder :=
  let unclosed := b.stack.map fun e => Problem.diagnostic (.unclosedElement e.tag.name) e.tag.span
  (b.report unclosed).endInner stop b.stack.length

end Builder

structure Forest where
  nodes : List Node
  problems : List Diagnostic
  deriving Repr

/-- Reads markup. Every text has a forest. -/
def parse (source : String) : Forest :=
  let b := ((lexemes source).foldl Builder.step Builder.empty).finish source.utf8ByteSize
  ⟨b.roots, b.problems⟩

end DirectiveTemplates.Markup
