/-!
Finite binary floating point numbers of 64 bits, as exact numbers `± mantissa · 2 ^ exponent`.
Products and quotients are the exact ones rounded to the nearest such number, ties to the even
mantissa.
-/
namespace DirectiveTemplates.Json

/-- Rounds a quotient to the nearest natural number, a tie to the even one. -/
def roundDiv (num den : Nat) : Nat :=
  let q := num / den
  let r := num % den
  if 2 * r > den ∨ (2 * r = den ∧ q % 2 = 1) then q + 1 else q

def twoPow (n : Nat) : Nat := Nat.pow 2 n

def tenPow (n : Nat) : Nat := Nat.pow 10 n

/-- The fraction `num / den` divided by `2 ^ e`. -/
def divPow2 (num den : Nat) (e : Int) : Nat × Nat :=
  if 0 ≤ e then (num, den * twoPow e.toNat) else (num * twoPow (-e).toNat, den)

/-- A mantissa below `2 ^ 53`, and at least `2 ^ 52` unless the exponent is the least one. -/
structure Binary64 where
  negative : Bool
  mantissa : Nat
  exponent : Int
  deriving DecidableEq, Repr

namespace Binary64

def leastExponent : Int := -1074

def greatestExponent : Int := 971

def zero : Binary64 := ⟨false, 0, leastExponent⟩

def isZero (x : Binary64) : Bool := x.mantissa == 0

def negate (x : Binary64) : Binary64 := { x with negative := !x.negative }

/-- The number nearest to `num / den`; none when that is beyond the greatest one. -/
def ofRatio (num den : Nat) : Option Binary64 :=
  if num = 0 then some zero
  else
    let low := max ((num.log2 : Int) - den.log2 - 53) leastExponent
    let (n, d) := divPow2 num den low
    let e := if n / d < twoPow 53 then low else low + 1
    let (n, d) := divPow2 num den e
    let m := roundDiv n d
    let (m, e) := if m = twoPow 53 then (twoPow 52, e + 1) else (m, e)
    if e ≤ greatestExponent then some ⟨false, m, e⟩ else none

def ofNat (n : Nat) : Option Binary64 := ofRatio n 1

def mul (x y : Binary64) : Option Binary64 :=
  let (n, d) := divPow2 (x.mantissa * y.mantissa) 1 (-(x.exponent + y.exponent))
  ofRatio n d

def div (x y : Binary64) : Option Binary64 :=
  let (n, d) := divPow2 x.mantissa y.mantissa (y.exponent - x.exponent)
  ofRatio n d

end Binary64

end DirectiveTemplates.Json
