import DirectiveTemplates.Text.Chars

/-!
Spans of a source text, messages anchored to them, and the description of a message with the
line of source it points at. A span counts bytes; a description counts lines and characters.
-/
namespace DirectiveTemplates

/-- The half-open range of bytes from `start` to `stop`. -/
structure Span where
  start : Nat
  stop : Nat
  deriving DecidableEq, Repr, Inhabited

namespace Span

def length (s : Span) : Nat := s.stop - s.start

def isEmpty (s : Span) : Bool := s.start == s.stop

def shift (s : Span) (offset : Nat) : Span := ⟨s.start + offset, s.stop + offset⟩

/-- The text a span covers; nothing when it is out of range or cuts a character. -/
def slice (s : Span) (source : String) : String :=
  String.ofList ((Text.sliceBytes s.start s.stop source.toList).getD [])

end Span

structure Diagnostic where
  span : Span
  message : String
  deriving DecidableEq, Repr, Inhabited

namespace Diagnostic

def shift (d : Diagnostic) (offset : Nat) : Diagnostic := { d with span := d.span.shift offset }

def display (d : Diagnostic) : String :=
  s!"[{d.span.start}, {d.span.stop}) {d.message}"

end Diagnostic

/-- A place in a text: lines and the characters before it on its line, both from zero. -/
structure Location where
  line : Nat
  column : Nat
  deriving DecidableEq, Repr, Inhabited

namespace Location

def next (l : Location) (c : Char) : Location :=
  if c = '\n' then ⟨l.line + 1, 0⟩ else ⟨l.line, l.column + 1⟩

/-- The place reached from `l` after the characters that start within the next `n` bytes. -/
def advance (l : Location) : Nat → List Char → Location
  | 0, _ => l
  | _ + 1, [] => l
  | n + 1, c :: cs => (l.next c).advance (n + 1 - c.utf8Size) cs

end Location

/-- A text with the name under which messages about it are shown. -/
structure SourceText where
  content : String
  name : String
  deriving DecidableEq, Repr

namespace SourceText

/-- The place of a byte offset; offsets past the end mean the end. -/
def locate (s : SourceText) (offset : Nat) : Location :=
  Location.advance ⟨0, 0⟩ offset s.content.toList

/-- The text before a line end, without the carriage return that may belong to it. -/
def dropReturn (line : List Char) : List Char :=
  if line.getLast? = some '\r' then line.dropLast else line

/-- The lines of a text: a line feed ends a line, and the end of the text ends the last one. -/
def linesOf (cs : List Char) : List (List Char) :=
  let parts := Text.splitAll '\n' cs
  let ended := parts.dropLast.map dropReturn
  match parts.getLast? with
  | none | some [] => ended
  | some rest => ended ++ [rest]

def line (s : SourceText) (n : Nat) : List Char := ((linesOf s.content.toList)[n]?).getD []

/-- The number of carets under a message that goes from `start` to `stop`: to its end, or to the
end of its first line, and at least one. -/
def caretCount (text : List Char) (start stop : Location) : Nat :=
  max 1 (if stop.line = start.line then stop.column - start.column else text.length - start.column)

/-- The message with its place, the line it starts on and carets under the text it is about. -/
def describe (s : SourceText) (d : Diagnostic) : String :=
  let start := s.locate d.span.start
  let stop := s.locate (max d.span.stop d.span.start)
  let text := s.line start.line
  let margin := String.ofList (List.replicate start.column ' ')
  let carets := String.ofList (List.replicate (caretCount text start stop) '^')
  s!"{s.name}:{start.line + 1}:{start.column + 1}: error: {d.message}\n" ++
    s!"    {String.ofList text}\n    {margin}{carets}"

end SourceText

end DirectiveTemplates
