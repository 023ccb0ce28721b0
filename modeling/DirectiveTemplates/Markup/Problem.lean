import DirectiveTemplates.Source.Diagnostic

/-!
What can be wrong with markup. Reading never fails: every problem is reported and the text is
read on.
-/
namespace DirectiveTemplates.Markup

inductive Problem where
  | unterminatedComment
  | unterminatedCdata
  | unterminatedInstruction
  | unterminatedValue
  | endInTag (name : String)
  | unterminatedTag (name : String)
  | unexpectedCharacter (c : Char)
  | voidEndTag (name : String)
  | unexpectedEndTag (name : String)
  | unclosedElement (name : String)
  deriving DecidableEq, Repr

namespace Problem

def message : Problem → String
  | unterminatedComment => "Unterminated comment"
  | unterminatedCdata => "Unterminated CDATA section"
  | unterminatedInstruction => "Unterminated processing instruction"
  | unterminatedValue => "Unterminated attribute value"
  | endInTag name => s!"Unexpected end of input in tag \"{name}\""
  | unterminatedTag name => s!"Unterminated start tag \"{name}\""
  | unexpectedCharacter c => s!"Unexpected character \"{c}\""
  | voidEndTag name => s!"Void elements do not have end tags \"{name}\""
  | unexpectedEndTag name =>
    s!"Unexpected closing tag \"{name}\". It may happen when the tag has already been closed " ++
      "by another tag."
  | unclosedElement name => s!"Unclosed element \"{name}\""

def diagnostic (p : Problem) (span : Span) : Diagnostic := ⟨span, p.message⟩

end Problem

end DirectiveTemplates.Markup
