import DirectiveTemplates.Text.Chars

/-!
Path names. A name without a leading slash counts from the directory it is joined to.
-/
namespace DirectiveTemplates.Files

def parts (path : String) : List String := (Text.splitAll '/' path.toList).map String.ofList

def join (base name : String) : String :=
  if name.startsWith "/" || base.isEmpty then name
  else if base.endsWith "/" then base ++ name
  else base ++ "/" ++ name

/-- Cuts the slashes, and the dots between them, off a reversed path. The slash of the root and a
leading dot stay. -/
def cutTail : List Char → List Char
  | ['/'] => ['/']
  | '/' :: rest => cutTail rest
  | '.' :: '/' :: rest => if rest.isEmpty then ['/'] else cutTail rest
  | path => path

/-- The directory that a path is in, as far as the path names it. -/
def parent (path : String) : String :=
  String.ofList (cutTail (path.toList.reverse.dropWhile (· != '/'))).reverse

end DirectiveTemplates.Files
