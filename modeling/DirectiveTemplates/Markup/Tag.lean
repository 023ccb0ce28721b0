import DirectiveTemplates.Text.Chars

/-!
What the name of a tag says about its element: whether it is void, whether its content is raw
text, and whether it carries a namespace.
-/
namespace DirectiveTemplates.Markup

def voidNames : List String :=
  ["area", "base", "br", "col", "embed", "hr", "img", "input", "link", "meta", "param", "source",
    "track", "wbr"]

def rawTextNames : List String := ["script", "style"]

/-- Void elements have neither content nor an end tag. -/
def isVoid (name : String) : Bool := voidNames.any (Text.sameName name)

/-- The content of a raw text element is text up to its end tag. -/
def isRawText (name : String) : Bool := rawTextNames.any (Text.sameName name)

/-- The namespace and the local name, cut at the first colon; a leading colon cuts nothing. -/
def splitNamespace (name : String) : Option (String × String) :=
  match Text.splitFirst ':' name.toList with
  | none | some ([], _) => none
  | some (space, rest) => some (String.ofList space, String.ofList rest)

end DirectiveTemplates.Markup
