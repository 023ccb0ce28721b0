import DirectiveTemplates.OrderedMap
import DirectiveTemplates.Json.Shortest

/-!
JSON values and their written form. Integers of 64 bits are kept as they are, every other number
is a binary floating point number.
-/
namespace DirectiveTemplates.Json

inductive Number where
  | integer (n : Int)
  | real (x : Binary64)
  deriving DecidableEq, Repr

namespace Number

def isZero : Number → Bool
  | integer n => n == 0
  | real x => x.isZero

/-- Numbers are positional from five places behind the point to sixteen before it. -/
def format : DecimalFormat := ⟨-5, 15⟩

def write : Number → List Char
  | integer n => if n < 0 then '-' :: Nat.toDigits 10 n.natAbs else Nat.toDigits 10 n.natAbs
  | real x =>
    let text := if x.isZero then ['0', '.', '0'] else format.write x.shortest
    if x.negative then '-' :: text else text

end Number

inductive Value where
  | null
  | bool (b : Bool)
  | number (n : Number)
  | string (s : String)
  | array (items : List Value)
  | object (members : List (String × Value))
  deriving Repr, Inhabited

namespace Value

def ofNat (n : Nat) : Value := .number (.integer n)

def member? : Value → String → Option Value
  | .object ms, name => ms.lookup name
  | _, _ => none

end Value

def hexDigit (n : Nat) : Char := if n < 10 then Char.ofNat (48 + n) else Char.ofNat (87 + n)

/-- Quotes, backslashes and control characters are escaped. -/
def escape (c : Char) : List Char :=
  if c = '"' then ['\\', '"']
  else if c = '\\' then ['\\', '\\']
  else if c = '\n' then ['\\', 'n']
  else if c = '\r' then ['\\', 'r']
  else if c = '\t' then ['\\', 't']
  else if c = '\x08' then ['\\', 'b']
  else if c = '\x0c' then ['\\', 'f']
  else if c.toNat < 0x20 then
    ['\\', 'u', '0', '0', hexDigit (c.toNat / 16), hexDigit (c.toNat % 16)]
  else [c]

def writeString (s : String) : List Char := '"' :: s.toList.flatMap escape ++ ['"']

namespace Value

mutual

def compact : Value → List Char
  | .null => ['n', 'u', 'l', 'l']
  | .bool true => ['t', 'r', 'u', 'e']
  | .bool false => ['f', 'a', 'l', 's', 'e']
  | .number n => n.write
  | .string s => writeString s
  | .array [] => ['[', ']']
  | .array (x :: xs) => '[' :: x.compact ++ compactItems xs
  | .object [] => ['{', '}']
  | .object ((k, x) :: ms) => '{' :: writeString k ++ ':' :: x.compact ++ compactMembers ms

def compactItems : List Value → List Char
  | [] => [']']
  | x :: xs => ',' :: x.compact ++ compactItems xs

def compactMembers : List (String × Value) → List Char
  | [] => ['}']
  | (k, x) :: ms => ',' :: writeString k ++ ':' :: x.compact ++ compactMembers ms

end

def newLine (level : Nat) : List Char := '\n' :: List.replicate (2 * level) ' '

mutual

/-- The form with every item on a line of its own. -/
def pretty (level : Nat) : Value → List Char
  | .array (x :: xs) =>
    '[' :: newLine (level + 1) ++ x.pretty (level + 1) ++ prettyItems level xs
  | .object ((k, x) :: ms) =>
    '{' :: newLine (level + 1) ++ writeString k ++ ':' :: ' ' :: x.pretty (level + 1) ++
      prettyMembers level ms
  | .array [] => ['[', ']']
  | .object [] => ['{', '}']
  | .null => ['n', 'u', 'l', 'l']
  | .bool true => ['t', 'r', 'u', 'e']
  | .bool false => ['f', 'a', 'l', 's', 'e']
  | .number n => n.write
  | .string s => writeString s

def prettyItems (level : Nat) : List Value → List Char
  | [] => newLine level ++ [']']
  | x :: xs => ',' :: newLine (level + 1) ++ x.pretty (level + 1) ++ prettyItems level xs

def prettyMembers (level : Nat) : List (String × Value) → List Char
  | [] => newLine level ++ ['}']
  | (k, x) :: ms =>
    ',' :: newLine (level + 1) ++ writeString k ++ ':' :: ' ' :: x.pretty (level + 1) ++
      prettyMembers level ms

end

def compactText (v : Value) : String := String.ofList v.compact

def prettyText (v : Value) : String := String.ofList (v.pretty 0)

end Value

end DirectiveTemplates.Json
