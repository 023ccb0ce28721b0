import DirectiveTemplates.Text.Chars

/-!
Names of classes and packages, parts with dots between them. As they are written white space may
stand around the dots, and parts may be empty.
-/
namespace DirectiveTemplates.QualifiedName

/-- The text behind a dot with white space around it, when one stands at the start. -/
def afterDot? (cs : List Char) : Option (List Char) :=
  match cs.dropWhile Text.isBlank with
  | '.' :: rest => some (rest.dropWhile Text.isBlank)
  | _ => none

/-- The parts between dots, each dot taken with the white space around it. -/
def partsWithin : Nat → List Char → List (List Char)
  | 0, cs => [cs]
  | _ + 1, [] => [[]]
  | steps + 1, c :: cs =>
    match afterDot? (c :: cs) with
    | some rest => [] :: partsWithin steps rest
    | none =>
      match partsWithin steps cs with
      | [] => [[c]]
      | part :: parts => (c :: part) :: parts

def parts (cs : List Char) : List (List Char) := partsWithin (cs.length + 1) cs

def joinDots : List (List Char) → List Char
  | [] => []
  | [part] => part
  | part :: rest => part ++ '.' :: joinDots rest

/-- The name without white space around its dots and without empty parts. -/
def normalize (name : String) : String :=
  let written := (parts (Text.trim name.toList)).map Text.trim
  String.ofList (joinDots (written.filter (!·.isEmpty)))

/-- The text behind the last dot, or all of a name without dots. -/
def lastPart (name : String) : String :=
  String.ofList (name.toList.reverse.takeWhile (· != '.')).reverse

def hasDot (name : String) : Bool := name.toList.contains '.'

/-- The package of a name that ends in a star part. -/
def starPackage? (name : String) : Option String :=
  match name.toList.reverse with
  | '*' :: '.' :: rest => some (String.ofList rest.reverse)
  | _ => none

end DirectiveTemplates.QualifiedName
