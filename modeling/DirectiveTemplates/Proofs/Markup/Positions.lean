import DirectiveTemplates.Markup.Forest
import DirectiveTemplates.Proofs.Markup.Reading

/-!
Markup read by positions. A position is a number of bytes, and reading at it cuts the source there;
a cut that is not between two characters of the source is a fault, and so are a difference below
zero, a round of a loop that goes on without passing a character, and a loop with more rounds than
the source has positions. What is read has a value only without a fault.
-/
namespace DirectiveTemplates.Markup.Positions

open Text

/-- One round of a loop: it goes on from a position, or leaves the loop. -/
inductive Round (σ β : Type) where
  | again (next : Nat) (s : σ)
  | leave (b : β)

structure Scan (α : Type) where
  found : α
  problems : List Diagnostic
  next : Nat

def minus (m n : Nat) : Option Nat := if n ≤ m then some (m - n) else none

section Source

variable (source : List Char)

def unread (pos : Nat) : Option (List Char) := dropBytes pos source

def between (start stop : Nat) : Option (List Char) := sliceBytes start stop source

def atEnd (pos : Nat) : Bool := byteLength source ≤ pos

/-- The next character. At the end it is the one with number zero, which a source can have too. -/
def peek (pos : Nat) : Option Char := do
  return (← unread source pos).headD '\x00'

def advance (pos : Nat) : Option Nat := do
  match ← unread source pos with
  | [] => return pos
  | c :: _ => return pos + c.utf8Size

def startsWith (pattern : List Char) (pos : Nat) : Option Bool := do
  return pattern.isPrefixOf (← unread source pos)

def isLetterAt (pos : Nat) : Bool :=
  match dropBytes pos source with
  | some (c :: _) => isNameStart c
  | _ => false

def find (pattern : List Char) (pos : Nat) : Option (Option Nat) := do
  return (splitAt? pattern (← unread source pos)).map (byteLength ·.1)

variable {σ β : Type}

/-- The rounds of a loop. Whatever a round that goes on does, it passes at least one character. -/
def rounds (round : Nat → σ → Option (Round σ β)) : Nat → Nat → σ → Option β
  | 0, _, _ => none
  | count + 1, pos, s => do
    match ← round pos s with
    | .leave b => return b
    | .again next s' =>
      let passed ← between source pos next
      if passed.isEmpty then none else rounds round count next s'

def loop (round : Nat → σ → Option (Round σ β)) (pos : Nat) (s : σ) : Option β :=
  rounds source round (byteLength source + 1) pos s

def passRound (test : Nat → Option Bool) (pos : Nat) (_ : Unit) : Option (Round Unit Nat) := do
  if ← test pos then return .again (← advance source pos) ()
  else return .leave pos

def passWhile (test : Nat → Option Bool) (pos : Nat) : Option Nat :=
  loop source (passRound source test) pos ()

def beforeEnd (test : Nat → Option Bool) (pos : Nat) : Option Bool :=
  if atEnd source pos then some false else test pos

def skipSpace : Nat → Option Nat :=
  passWhile source fun pos => do return isMarkupSpace (← peek source pos)

def passChars (keep : Char → Bool) : Nat → Option Nat :=
  passWhile source <| beforeEnd source fun pos => do return keep (← peek source pos)

def skipName : Nat → Option Nat := passChars source fun c => !isNameEnd c

def isConstructAt (pos : Nat) : Option Bool := do
  let mark ← peek source pos
  let declaration ← startsWith source ['<', '!'] pos
  let instruction ← startsWith source ['<', '?'] pos
  let closing ← startsWith source ['<', '/'] pos
  return mark = '<' && (declaration || instruction || (closing && isLetterAt source (pos + 2)) ||
    isLetterAt source (pos + 1))

def scanText (start : Nat) : Option (Scan Token) := do
  let next ← passWhile source
    (beforeEnd source fun pos => do return !(← isConstructAt source pos)) (← advance source start)
  let value ← between source start next
  return ⟨.text ⟨String.ofList value, ⟨start, next⟩⟩, [], next⟩

def scanDelimited (close : List Char) (inside : Nat) : Option (List Char × Nat × Bool) := do
  match ← find source close inside with
  | some distance =>
    let value ← between source inside (inside + distance)
    return (value, inside + distance + byteLength close, false)
  | none => return (← unread source inside, byteLength source, true)

def scanComment (start : Nat) : Option (Scan Token) := do
  let (value, next, missing) ←
    scanDelimited source ['-', '-', '>'] (start + byteLength commentOpening)
  let span := ⟨start, next⟩
  return ⟨.comment ⟨String.ofList value, span⟩, problemIf missing .unterminatedComment span, next⟩

def scanCdata (start : Nat) : Option (Scan Token) := do
  let (value, next, missing) ←
    scanDelimited source [']', ']', '>'] (start + byteLength cdataOpening)
  let span := ⟨start, next⟩
  return ⟨.text ⟨String.ofList value, span⟩, problemIf missing .unterminatedCdata span, next⟩

def scanDeclaration (start : Nat) : Option (Scan Token) := do
  let next := match ← find source ['>'] start with
    | some distance => start + distance + 1
    | none => byteLength source
  return ⟨.declaration ⟨start, next⟩, [], next⟩

def scanInstruction (start : Nat) : Option (Scan Token) := do
  let inside := start + 2
  let behind ← passChars source isTargetChar inside
  let target ← between source inside behind
  let (raw, next, missing) ← scanDelimited source ['?', '>'] behind
  let leading ← minus (byteLength raw) (byteLength (trimStart raw))
  let content := trim raw
  let contentSpan := ⟨behind + leading, behind + leading + byteLength content⟩
  let span := ⟨start, next⟩
  return ⟨.instruction ⟨String.ofList target, String.ofList content, span, contentSpan⟩,
    problemIf missing .unterminatedInstruction span, next⟩

def scanValue (start : Nat) : Option (Scan Span) := do
  let quote ← peek source start
  if isQuote quote then
    let inside ← advance source start
    let stop ← passChars source (· != quote) inside
    if atEnd source stop then
      let opening ← minus inside 1
      return ⟨⟨inside, stop⟩, [Problem.diagnostic .unterminatedValue ⟨opening, stop⟩], stop⟩
    else return ⟨⟨inside, stop⟩, [], ← advance source stop⟩
  else
    let stop ← passWhile source
      (beforeEnd source fun pos => do
        let c ← peek source pos
        return !isMarkupSpace c && c != '>' && !(← startsWith source ['/', '>'] pos)) start
    return ⟨⟨start, stop⟩, [], stop⟩

def scanAttribute (start : Nat) : Option (Option (Scan Attribute)) := do
  let named ← skipName source start
  let nameSpan : Span := ⟨start, named⟩
  if nameSpan.isEmpty then return none
  else
    let name ← between source start named
    let sign ← skipSpace source named
    if (← peek source sign) = '=' then
      let value ← scanValue source (← skipSpace source (← advance source sign))
      let text ← between source value.found.start value.found.stop
      return some ⟨⟨String.ofList name, String.ofList text, ⟨start, value.next⟩, nameSpan,
        some value.found⟩, value.problems, value.next⟩
    else return some ⟨⟨String.ofList name, "", nameSpan, nameSpan, none⟩, [], named⟩

abbrev TagSoFar := List Attribute × List Diagnostic

def tagRound (start : Nat) (name : String) (pos : Nat) :
    TagSoFar → Option (Round TagSoFar (Scan (List Attribute × Bool)))
  | (found, problems) => do
    let here ← skipSpace source pos
    let c ← peek source here
    if atEnd source here then
      let problem := Problem.diagnostic (.endInTag name) ⟨start, here⟩
      return .leave ⟨(found, true), problems ++ [problem], here⟩
    else if c = '>' then return .leave ⟨(found, false), problems, ← advance source here⟩
    else if ← startsWith source ['/', '>'] here then
      return .leave ⟨(found, true), problems, here + 2⟩
    else if c = '<' then
      let problem := Problem.diagnostic (.unterminatedTag name) ⟨start, here⟩
      return .leave ⟨(found, false), problems ++ [problem], here⟩
    else
      match ← scanAttribute source here with
      | some read => return .again read.next (found ++ [read.found], problems ++ read.problems)
      | none =>
        let next ← advance source here
        let problem := Problem.diagnostic (.unexpectedCharacter c) ⟨here, next⟩
        return .again next (found, problems ++ [problem])

def scanRaw (name : List Char) (start : Nat) : Option (Option TextNode × Nat) := do
  let rest ← unread source start
  let found := splitAt? ('<' :: '/' :: lowerAscii name) (lowerAscii rest)
  let stop := (found.map (start + byteLength ·.1)).getD (byteLength source)
  if start < stop then
    let value ← between source start stop
    return (some ⟨String.ofList value, ⟨start, stop⟩⟩, stop)
  else return (none, stop)

def scanStartTag (start : Nat) : Option (Scan Token) := do
  let named ← advance source start
  let behind ← skipName source named
  let name ← between source named behind
  let body ← loop source (tagRound source start (String.ofList name)) behind ([], [])
  let tag : StartTag :=
    ⟨String.ofList name, body.found.1, body.found.2, ⟨start, body.next⟩, ⟨named, behind⟩⟩
  if !tag.isClosed && isRawText tag.name then
    let (raw, next) ← scanRaw source name body.next
    return ⟨.start tag raw, body.problems, next⟩
  else return ⟨.start tag none, body.problems, body.next⟩

def scanEndTag (start : Nat) : Option (Scan Token) := do
  let named := start + 2
  let behind ← skipName source named
  let name ← between source named behind
  let stop ← passChars source (· != '>') behind
  let next ← (if atEnd source stop then some stop else advance source stop)
  return ⟨.close (String.ofList name) ⟨start, next⟩, [], next⟩

def scanToken (pos : Nat) : Option (Scan Token) := do
  if ← startsWith source commentOpening pos then scanComment source pos
  else if ← startsWith source cdataOpening pos then scanCdata source pos
  else if ← startsWith source ['<', '!'] pos then scanDeclaration source pos
  else if ← startsWith source ['<', '?'] pos then scanInstruction source pos
  else if (← startsWith source ['<', '/'] pos) && isLetterAt source (pos + 2) then
    scanEndTag source pos
  else if (← peek source pos) = '<' && isLetterAt source (pos + 1) then scanStartTag source pos
  else scanText source pos

def tokenRound (pos : Nat) (b : Builder) : Option (Round Builder Builder) := do
  if atEnd source pos then return .leave (b.finish (byteLength source))
  else
    let read ← scanToken source pos
    let rest ← unread source read.next
    return .again read.next (b.step ⟨read.found, read.problems, ⟨read.next, rest⟩⟩)

end Source

def scan (source : String) : Option Forest := do
  let b ← loop source.toList (tokenRound source.toList) 0 Builder.empty
  return ⟨b.roots, b.problems⟩

end DirectiveTemplates.Markup.Positions
