import DirectiveTemplates.Json.Value

/-!
JSON text as it is written. A document keeps every member of an object, and it admits literals
that are well formed but stand for nothing: strings with half of a surrogate pair and numbers
beyond the greatest floating point number. What is passed over in decoding may hold such literals
and may nest to any depth.
-/
namespace DirectiveTemplates.Json

inductive Document where
  | null
  | bool (b : Bool)
  | number (n : Option Number)
  | string (s : Option String)
  | array (items : List Document)
  | object (members : List (Option String × Document))
  deriving Repr, Inhabited

/-- A reader of the start of a text, with the text it leaves. -/
abbrev Reader (α : Type) := List Char → Option (α × List Char)

def isSpace (c : Char) : Bool := c = ' ' || c = '\n' || c = '\r' || c = '\t'

def skipSpace (cs : List Char) : List Char := cs.dropWhile isSpace

def isDigit (c : Char) : Bool := '0' ≤ c && c ≤ '9'

def digitValue (c : Char) : Nat := c.toNat - '0'.toNat

def hexValue (c : Char) : Option Nat :=
  if isDigit c then some (digitValue c)
  else if 'a' ≤ c ∧ c ≤ 'f' then some (c.toNat - 'a'.toNat + 10)
  else if 'A' ≤ c ∧ c ≤ 'F' then some (c.toNat - 'A'.toNat + 10)
  else none

def readUnit : Reader Nat
  | a :: b :: c :: d :: rest => do
    let n := (← hexValue a) * 4096 + (← hexValue b) * 256 + (← hexValue c) * 16 + (← hexValue d)
    return (n, rest)
  | _ => none

def escapedChar (c : Char) : Option Char :=
  match c with
  | '"' => some '"'
  | '\\' => some '\\'
  | '/' => some '/'
  | 'b' => some '\x08'
  | 'f' => some '\x0c'
  | 'n' => some '\n'
  | 'r' => some '\r'
  | 't' => some '\t'
  | _ => none

def isHighSurrogate (n : Nat) : Bool := 0xD800 ≤ n && n ≤ 0xDBFF

def isLowSurrogate (n : Nat) : Bool := 0xDC00 ≤ n && n ≤ 0xDFFF

def charOf? (n : Nat) : Option Char := if n.isValidChar then some (Char.ofNat n) else none

/-- The character of a unit, with the unit behind it when both make a surrogate pair; none for
half of a pair. -/
def pairUnits (unit : Nat) (rest : List Char) : Option Char × List Char :=
  if isHighSurrogate unit then
    match rest with
    | '\\' :: 'u' :: behind =>
      match readUnit behind with
      | some (low, behind) =>
        if isLowSurrogate low then
          (charOf? (0x10000 + (unit - 0xD800) * 0x400 + (low - 0xDC00)), behind)
        else (none, rest)
      | none => (none, rest)
    | _ => (none, rest)
  else (charOf? unit, rest)

def readChar : Reader (Option Char)
  | '\\' :: 'u' :: rest => (readUnit rest).map fun (unit, rest) => pairUnits unit rest
  | '\\' :: c :: rest => (escapedChar c).map fun e => (some e, rest)
  | c :: rest => if c.toNat < 0x20 ∨ c = '"' ∨ c = '\\' then none else some (some c, rest)
  | [] => none

/-- The characters up to the closing quote, in at most `steps` characters. -/
def readCharsWithin : Nat → Reader (Option (List Char))
  | 0, _ => none
  | _ + 1, '"' :: rest => some (some [], rest)
  | steps + 1, cs => do
    let (c, rest) ← readChar cs
    let (more, rest) ← readCharsWithin steps rest
    return (c.bind fun c => more.map (c :: ·), rest)

def readString (cs : List Char) : Option (Option String × List Char) :=
  (readCharsWithin (cs.length + 1) cs).map fun (s, rest) => (s.map String.ofList, rest)

/-- A number as it is written: its digits before and behind the point, and its exponent. -/
structure NumberText where
  negative : Bool
  whole : List Char
  fraction : Option (List Char)
  exponent : Option Int
  deriving DecidableEq, Repr

def readDigits : Reader (List Char) := fun cs =>
  match cs.takeWhile isDigit with
  | [] => none
  | ds => some (ds, cs.dropWhile isDigit)

/-- Digits without a leading zero, unless zero is all. -/
def readWhole : Reader (List Char)
  | '0' :: rest => some (['0'], rest)
  | cs => readDigits cs

def readFraction : Reader (Option (List Char))
  | '.' :: rest => (readDigits rest).map fun (ds, rest) => (some ds, rest)
  | cs => some (none, cs)

def natOfDigits (ds : List Char) : Nat := ds.foldl (fun n d => n * 10 + digitValue d) 0

def readExponent (cs : List Char) : Option (Option Int × List Char) :=
  let signed (negative : Bool) (cs : List Char) : Option (Option Int × List Char) :=
    (readDigits cs).map fun (ds, rest) =>
      let n : Int := natOfDigits ds
      (some (if negative then -n else n), rest)
  match cs with
  | c :: rest =>
    if c = 'e' ∨ c = 'E' then
      match rest with
      | '+' :: rest => signed false rest
      | '-' :: rest => signed true rest
      | rest => signed false rest
    else some (none, cs)
  | [] => some (none, cs)

def readNumberText (cs : List Char) : Option (NumberText × List Char) := do
  let (negative, cs) := match cs with
    | '-' :: rest => (true, rest)
    | cs => (false, cs)
  let (whole, cs) ← readWhole cs
  let (fraction, cs) ← readFraction cs
  let (exponent, cs) ← readExponent cs
  return (⟨negative, whole, fraction, exponent⟩, cs)

/-- The greatest significand that is read exactly. -/
def significandLimit : Nat := twoPow 64 - 1

/-- Appends digits to a significand while it stays in its limit. The rest is the number of digits
that were left out. -/
def extendSignificand : Nat → List Char → Nat × Nat
  | n, [] => (n, 0)
  | n, d :: ds =>
    if n * 10 + digitValue d ≤ significandLimit then extendSignificand (n * 10 + digitValue d) ds
    else (n, ds.length + 1)

/-- Scales by a power of ten, in steps of at most `10 ^ 308`, each of them rounded. -/
def scaleByTen : Nat → Binary64 → Int → Option Binary64
  | 0, x, _ => some x
  | steps + 1, x, e =>
    if e.natAbs ≤ 308 then do
      let power ← Binary64.ofNat (tenPow e.natAbs)
      if 0 ≤ e then x.mul power else x.div power
    else if x.isZero then some x
    else if 0 ≤ e then none
    else do
      let power ← Binary64.ofNat (tenPow 308)
      scaleByTen steps (← x.div power) (e + 308)

namespace NumberText

/-- The number as a floating point number; none when it is too large. Digits that do not fit into
the significand are left out. -/
def real (t : NumberText) : Option Binary64 := do
  let (whole, dropped) := extendSignificand 0 t.whole
  let fraction := t.fraction.getD []
  let (significand, ignored) := extendSignificand whole fraction
  let places : Int := (dropped : Int) - ((fraction.length : Int) - ignored)
  let e := places + t.exponent.getD 0
  let x ← scaleByTen (e.natAbs / 308 + 1) (← Binary64.ofNat significand) e
  return if t.negative then x.negate else x

/-- The integer that is written, when it is one of 64 bits. -/
def integer (t : NumberText) : Option Int :=
  let n := natOfDigits t.whole
  if t.fraction.isSome ∨ t.exponent.isSome then none
  else if t.negative then if 0 < n ∧ n ≤ twoPow 63 then some (-(n : Int)) else none
  else if n ≤ significandLimit then some n else none

def number (t : NumberText) : Option Number :=
  match t.integer with
  | some n => some (.integer n)
  | none => t.real.map .real

end NumberText

namespace Document

mutual

/-- A value at the start of a text, nested at most `depth` deep. -/
def readWithin : Nat → Reader Document
  | 0, _ => none
  | depth + 1, cs =>
    match skipSpace cs with
    | 'n' :: 'u' :: 'l' :: 'l' :: rest => some (.null, rest)
    | 't' :: 'r' :: 'u' :: 'e' :: rest => some (.bool true, rest)
    | 'f' :: 'a' :: 'l' :: 's' :: 'e' :: rest => some (.bool false, rest)
    | '"' :: rest => (readString rest).map fun (s, rest) => (.string s, rest)
    | '[' :: rest =>
      match skipSpace rest with
      | ']' :: rest => some (.array [], rest)
      | rest => (readItems depth rest).map fun (xs, rest) => (.array xs, rest)
    | '{' :: rest =>
      match skipSpace rest with
      | '}' :: rest => some (.object [], rest)
      | rest => (readMembers depth rest).map fun (ms, rest) => (.object ms, rest)
    | cs => (readNumberText cs).map fun (t, rest) => (.number t.number, rest)

def readItems : Nat → Reader (List Document)
  | 0, _ => none
  | depth + 1, cs => do
    let (x, rest) ← readWithin depth cs
    match skipSpace rest with
    | ']' :: rest => some ([x], rest)
    | ',' :: rest => (readItems depth rest).map fun (xs, rest) => (x :: xs, rest)
    | _ => none

def readMembers : Nat → Reader (List (Option String × Document))
  | 0, _ => none
  | depth + 1, cs => do
    let '"' :: rest := skipSpace cs | none
    let (key, rest) ← readString rest
    let ':' :: rest := skipSpace rest | none
    let (x, rest) ← readWithin depth rest
    match skipSpace rest with
    | '}' :: rest => some ([(key, x)], rest)
    | ',' :: rest => (readMembers depth rest).map fun (ms, rest) => ((key, x) :: ms, rest)
    | _ => none

end

/-- Reads a text that is one value with white space around it. -/
def parse? (text : String) : Option Document :=
  let cs := text.toList
  match readWithin (cs.length + 1) cs with
  | some (d, rest) => if (skipSpace rest).isEmpty then some d else none
  | none => none

end Document

end DirectiveTemplates.Json
