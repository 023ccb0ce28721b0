import DirectiveTemplates.Source.Diagnostic
import DirectiveTemplates.Markup.Tag

/-!
The markup forest. Every node keeps the spans that messages and embedded expressions need.
-/
namespace DirectiveTemplates.Markup

structure Attribute where
  name : String
  value : String
  span : Span
  nameSpan : Span
  /-- The span of the value without its quotes; absent when no value is written. -/
  valueSpan : Option Span
  deriving DecidableEq, Repr

namespace Attribute

/-- The offset at which the value starts, or would start. -/
def valueOffset (a : Attribute) : Nat := (a.valueSpan.map Span.start).getD a.nameSpan.stop

def valueOrNameSpan (a : Attribute) : Span := a.valueSpan.getD a.nameSpan

end Attribute

structure StartTag where
  name : String
  attributes : List Attribute
  selfClosing : Bool
  span : Span
  nameSpan : Span
  deriving DecidableEq, Repr

namespace StartTag

/-- The attribute that a name means: the first one written with it. -/
def attribute? (t : StartTag) (name : String) : Option Attribute :=
  t.attributes.find? (·.name == name)

def isClosed (t : StartTag) : Bool := t.selfClosing || isVoid t.name

end StartTag

structure TextNode where
  value : String
  span : Span
  deriving DecidableEq, Repr

structure Instruction where
  target : String
  content : String
  span : Span
  /-- The span of the content, without the white space around it. -/
  contentSpan : Span
  deriving DecidableEq, Repr

inductive Node where
  | element (tag : StartTag) (span : Span) (endSpan : Option Span) (children : List Node)
  | text (text : TextNode)
  | comment (text : TextNode)
  | instruction (instruction : Instruction)
  deriving Repr

namespace Node

def span : Node → Span
  | .element _ s _ _ => s
  | .text t => t.span
  | .comment t => t.span
  | .instruction i => i.span

end Node

end DirectiveTemplates.Markup
