import DirectiveTemplates.Json.Binary64

/-!
The shortest decimal text of a binary floating point number. Every real number within half a
step of it reads back as that number; the ends of this interval do so when the mantissa is even.
The shortest decimal is the point in the interval of the coarsest decimal grid that has one, and
of two such points the nearer.
-/
namespace DirectiveTemplates.Json

/-- The decimal `digits · 10 ^ exponent`. -/
structure Decimal where
  digits : Nat
  exponent : Int
  deriving DecidableEq, Repr

namespace Binary64

/-- The number and the ends of its interval in quarters of its step. The step below a power of
two is half the step above it. -/
def quarters (x : Binary64) : Nat × Nat × Nat :=
  let m := 4 * x.mantissa
  let below := if x.mantissa = twoPow 52 ∧ x.exponent ≠ leastExponent then 1 else 2
  (m - below, m, m + 2)

/-- `n` quarter steps as a fraction of `10 ^ k`. -/
def inGrid (x : Binary64) (k : Int) (n : Nat) : Nat × Nat :=
  let (num, den) := divPow2 n 1 (2 - x.exponent)
  if 0 ≤ k then (num, den * tenPow k.toNat) else (num * tenPow (-k).toNat, den)

/-- The point of the grid of multiples of `10 ^ k` that stands for the number, if the interval
holds one. -/
def gridPoint? (x : Binary64) (k : Int) : Option Decimal :=
  let (low, middle, high) := x.quarters
  let (lowNum, den) := x.inGrid k low
  let (num, _) := x.inGrid k middle
  let (highNum, _) := x.inGrid k high
  let inside (d : Nat) : Bool :=
    if x.mantissa % 2 = 0 then lowNum ≤ d * den && d * den ≤ highNum
    else lowNum < d * den && d * den < highNum
  let down := num / den
  match inside down && down != 0, inside (down + 1) with
  | true, true => some ⟨roundDiv num den, k⟩
  | true, false => some ⟨down, k⟩
  | false, true => some ⟨down + 1, k⟩
  | false, false => none

def coarsest : Int := 309

/-- The shortest decimal that reads back as the number. -/
def shortest (x : Binary64) : Decimal :=
  ((List.range 634).findSome? fun (i : Nat) => x.gridPoint? (coarsest - i)).getD ⟨0, 0⟩

end Binary64

/-- How decimals are written: positionally between two exponents of their first digit, and
otherwise with an exponent. -/
structure DecimalFormat where
  leastPositional : Int
  greatestPositional : Int

namespace DecimalFormat

def zeros (n : Nat) : List Char := List.replicate n '0'

/-- Positional digits always have a fraction; an exponent always has a sign. -/
def write (f : DecimalFormat) (d : Decimal) : List Char :=
  let digits := Nat.toDigits 10 d.digits
  let first : Int := d.exponent + digits.length - 1
  if f.leastPositional ≤ first ∧ first ≤ f.greatestPositional then
    if 0 ≤ d.exponent then digits ++ zeros d.exponent.toNat ++ ['.', '0']
    else if 0 ≤ first then digits.take (first + 1).toNat ++ '.' :: digits.drop (first + 1).toNat
    else '0' :: '.' :: zeros (-first - 1).toNat ++ digits
  else
    let fraction := if digits.length = 1 then [] else '.' :: digits.drop 1
    let sign := if 0 ≤ first then '+' else '-'
    digits.take 1 ++ fraction ++ 'e' :: sign :: Nat.toDigits 10 first.natAbs

end DecimalFormat

end DirectiveTemplates.Json
