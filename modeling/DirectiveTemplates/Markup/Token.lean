import DirectiveTemplates.Markup.Cursor
import DirectiveTemplates.Markup.Node
import DirectiveTemplates.Markup.Problem

/-!
Markup read as tokens. One look at the text decides which construct stands there; reading it
always takes at least one character, so the number of characters bounds the number of tokens.
-/
namespace DirectiveTemplates.Markup

inductive Token where
  /-- Text or the content of a CDATA section. -/
  | text (text : TextNode)
  | comment (text : TextNode)
  | instruction (instruction : Instruction)
  /-- A declaration, which leaves no node. -/
  | declaration (span : Span)
  /-- A start tag, with the text behind it when it starts a raw text element. -/
  | start (tag : StartTag) (raw : Option TextNode)
  | close (name : String) (span : Span)
  deriving DecidableEq, Repr

structure Lexeme where
  token : Token
  problems : List Diagnostic
  next : Cursor
  deriving DecidableEq, Repr

inductive Construct where
  | comment
  | cdata
  | declaration
  | instruction
  | closeTag
  | openTag
  | text
  deriving DecidableEq, Repr

/-- The construct at the start of a text. A tag needs a letter behind its opening. -/
def constructAt : List Char → Construct
  | '<' :: '!' :: '-' :: '-' :: _ => .comment
  | '<' :: '!' :: '[' :: 'C' :: 'D' :: 'A' :: 'T' :: 'A' :: '[' :: _ => .cdata
  | '<' :: '!' :: _ => .declaration
  | '<' :: '?' :: _ => .instruction
  | '<' :: '/' :: c :: _ => if Text.isNameStart c then .closeTag else .text
  | '<' :: c :: _ => if Text.isNameStart c then .openTag else .text
  | _ => .text

def startsConstruct (cs : List Char) : Bool := constructAt cs != .text

/-- Text goes on, after its first character, to the next construct. -/
def readText (start : Cursor) : Lexeme :=
  let next := (start.skip 1).goUntil startsConstruct
  let value := start.rest.take 1 ++ (start.skip 1).textUntil startsConstruct
  ⟨.text ⟨String.ofList value, start.spanFrom next⟩, [], next⟩

/-- The text from `inside` to the pattern `close`, the position behind that pattern, and whether
the pattern was missing. -/
def readDelimited (close : List Char) (inside : Cursor) : List Char × Cursor × Bool :=
  let stop := inside.goUntil close.isPrefixOf
  (inside.textUntil close.isPrefixOf, stop.skip close.length, stop.rest.isEmpty)

def problemIf (missing : Bool) (problem : Problem) (span : Span) : List Diagnostic :=
  if missing then [problem.diagnostic span] else []

def readComment (start : Cursor) : Lexeme :=
  let (value, next, missing) := readDelimited ['-', '-', '>'] (start.skip 4)
  let span := start.spanFrom next
  ⟨.comment ⟨String.ofList value, span⟩, problemIf missing .unterminatedComment span, next⟩

def readCdata (start : Cursor) : Lexeme :=
  let (value, next, missing) := readDelimited [']', ']', '>'] (start.skip 9)
  let span := start.spanFrom next
  ⟨.text ⟨String.ofList value, span⟩, problemIf missing .unterminatedCdata span, next⟩

/-- A declaration goes to the next `>`; one without it is no problem. -/
def readDeclaration (start : Cursor) : Lexeme :=
  let (_, next, _) := readDelimited ['>'] start
  ⟨.declaration (start.spanFrom next), [], next⟩

/-- The characters of a target: everything but markup white space and the characters that can
close the instruction. -/
def isTargetChar (c : Char) : Bool := !(Text.isMarkupSpace c || c = '?' || c = '>')

def readInstruction (start : Cursor) : Lexeme :=
  let inside := start.skip 2
  let target := inside.textUntil (startsOutside isTargetChar)
  let behind := inside.goUntil (startsOutside isTargetChar)
  let (raw, next, missing) := readDelimited ['?', '>'] behind
  let content := Text.trim raw
  let contentStart := behind.offset + Text.byteLength (raw.takeWhile Text.isBlank)
  let contentSpan := ⟨contentStart, contentStart + Text.byteLength content⟩
  let span := start.spanFrom next
  ⟨.instruction ⟨String.ofList target, String.ofList content, span, contentSpan⟩,
    problemIf missing .unterminatedInstruction span, next⟩

def Cursor.skipSpace (c : Cursor) : Cursor := c.goUntil (startsOutside Text.isMarkupSpace)

def Cursor.name (c : Cursor) : List Char := c.textUntil (startsWithAny Text.isNameEnd)

def Cursor.skipName (c : Cursor) : Cursor := c.goUntil (startsWithAny Text.isNameEnd)

/-- An unquoted value ends at white space, at the end of its tag, or at the end of the text. -/
def endsBareValue : List Char → Bool
  | [] => true
  | '/' :: '>' :: _ => true
  | c :: _ => Text.isMarkupSpace c || c = '>'

/-- An attribute value: its text, its span, what was wrong with it and the position after it. -/
structure ValueReading where
  text : List Char
  span : Span
  problems : List Diagnostic
  next : Cursor

def readQuoted (quote : Char) (start : Cursor) : ValueReading :=
  let inside := start.skip 1
  let stop := inside.goUntil (startsWithAny (· == quote))
  ⟨inside.textUntil (startsWithAny (· == quote)), inside.spanFrom stop,
    problemIf stop.rest.isEmpty .unterminatedValue (start.spanFrom stop), stop.skip 1⟩

def readBare (start : Cursor) : ValueReading :=
  let stop := start.goUntil endsBareValue
  ⟨start.textUntil endsBareValue, start.spanFrom stop, [], stop⟩

def readValue (start : Cursor) : ValueReading :=
  match start.rest with
  | c :: _ => if Text.isQuote c then readQuoted c start else readBare start
  | [] => readBare start

structure AttributeReading where
  found : Attribute
  problems : List Diagnostic
  next : Cursor

/-- An attribute has a value when an equals sign follows its name, with white space around it. -/
def readAttribute (start : Cursor) : AttributeReading :=
  let name := String.ofList start.name
  let named := start.skipName
  let nameSpan := start.spanFrom named
  let sign := named.skipSpace
  match sign.rest with
  | '=' :: _ =>
    let value := readValue (sign.skip 1).skipSpace
    ⟨⟨name, String.ofList value.text, start.spanFrom value.next, nameSpan, some value.span⟩,
      value.problems, value.next⟩
  | _ => ⟨⟨name, "", nameSpan, nameSpan, none⟩, [], named⟩

structure TagReading where
  attributes : List Attribute
  selfClosing : Bool
  problems : List Diagnostic
  next : Cursor

/-- Reads attributes up to the end of the tag, in at most `steps` steps. A character that can
neither start a name nor end the tag is reported and passed over. -/
def readAttributes (start : Cursor) (name : String) : Nat → Cursor → TagReading
  | 0, c => ⟨[], false, [], c⟩
  | steps + 1, c =>
    let here := c.skipSpace
    match here.rest with
    | [] => ⟨[], true, [Problem.diagnostic (.endInTag name) (start.spanFrom here)], here⟩
    | '>' :: _ => ⟨[], false, [], here.skip 1⟩
    | '/' :: '>' :: _ => ⟨[], true, [], here.skip 2⟩
    | '<' :: _ =>
      ⟨[], false, [Problem.diagnostic (.unterminatedTag name) (start.spanFrom here)], here⟩
    | bad :: _ =>
      if Text.isNameEnd bad then
        let after := readAttributes start name steps (here.skip 1)
        let problem := Problem.diagnostic (.unexpectedCharacter bad) (here.spanFrom (here.skip 1))
        { after with problems := problem :: after.problems }
      else
        let read := readAttribute here
        let after := readAttributes start name steps read.next
        { after with
          attributes := read.found :: after.attributes
          problems := read.problems ++ after.problems }

/-- The text goes on with an end tag of `name`, as far as its name is concerned. -/
def startsEndTag (name : List Char) (cs : List Char) : Bool :=
  let opening := '<' :: '/' :: Text.lowerAscii name
  Text.lowerAscii (cs.take opening.length) == opening

/-- The text of a raw text element goes to its end tag; empty text is no node. -/
def readRaw (name : List Char) (start : Cursor) : Option TextNode × Cursor :=
  let stop := start.goUntil (startsEndTag name)
  match start.textUntil (startsEndTag name) with
  | [] => (none, stop)
  | value => (some ⟨String.ofList value, start.spanFrom stop⟩, stop)

def readStartTag (start : Cursor) : Lexeme :=
  let named := start.skip 1
  let name := String.ofList named.name
  let body := readAttributes start name (named.skipName.rest.length + 1) named.skipName
  let tag : StartTag :=
    ⟨name, body.attributes, body.selfClosing, start.spanFrom body.next,
      named.spanFrom named.skipName⟩
  if !tag.isClosed && isRawText name then
    let (raw, next) := readRaw named.name body.next
    ⟨.start tag raw, body.problems, next⟩
  else ⟨.start tag none, body.problems, body.next⟩

/-- An end tag goes to the next `>` or to the end of the text. -/
def readEndTag (start : Cursor) : Lexeme :=
  let named := start.skip 2
  let next := (named.skipName.goUntil (startsWithAny (· == '>'))).skip 1
  ⟨.close (String.ofList named.name) (start.spanFrom next), [], next⟩

def readToken (start : Cursor) : Lexeme :=
  match constructAt start.rest with
  | .comment => readComment start
  | .cdata => readCdata start
  | .declaration => readDeclaration start
  | .instruction => readInstruction start
  | .closeTag => readEndTag start
  | .openTag => readStartTag start
  | .text => readText start

/-- The tokens from a position on, at most `count` of them. -/
def lexemesFrom : Nat → Cursor → List Lexeme
  | 0, _ => []
  | count + 1, c =>
    if c.rest.isEmpty then []
    else
      let lexeme := readToken c
      lexeme :: lexemesFrom count lexeme.next

def lexemes (source : String) : List Lexeme :=
  let cs := source.toList
  lexemesFrom cs.length ⟨0, cs⟩

end DirectiveTemplates.Markup
