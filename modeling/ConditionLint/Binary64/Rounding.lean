/-!
# Binary64 values as exact fractions

A finite binary64 value is `mantissa * 2 ^ exponent`. `decode` opens a value into these parts and
`ofRatio` goes back: it gives the value nearest to a fraction, and of two equally near ones the one
with the even mantissa. All steps are exact arithmetic on natural numbers, so an integer of any size
and a decimal of any length are rounded once.
-/

namespace ConditionLint.Binary64

/-- What the bits of a binary64 value stand for. -/
inductive Parts where
  | nan
  | infinite (negative : Bool)
  | finite (negative : Bool) (mantissa : Nat) (exponent : Int)
  deriving DecidableEq, Repr

/-- Open a value: a zero exponent field means no hidden bit, an exponent field of ones no number. -/
def decode (x : Float) : Parts :=
  let bits := x.toBits.toNat
  let fraction : Nat := bits % Nat.pow 2 52
  let field : Nat := bits / Nat.pow 2 52 % Nat.pow 2 11
  let negative := bits / Nat.pow 2 63 == 1
  if field = 2047 then
    if fraction = 0 then .infinite negative else .nan
  else if field = 0 then .finite negative fraction (-1074)
  else .finite negative (fraction + Nat.pow 2 52) ((field : Int) - 1075)

/-- The quotient rounded to the nearest natural number, a half to the even one. -/
def roundDiv (num den : Nat) : Nat :=
  let q := num / den
  let r := num % den
  if 2 * r < den then q
  else if den < 2 * r then q + 1
  else if q % 2 = 0 then q else q + 1

/-- The fraction `num / den` divided by `2 ^ exponent`, again as a fraction. -/
def scale (num den : Nat) (exponent : Int) : Nat × Nat :=
  match exponent with
  | .ofNat e => (num, den * Nat.pow 2 e)
  | .negSucc e => (num * Nat.pow 2 (e + 1), den)

/-- The exponent at which the mantissa of `num / den` has 53 bits, or the least exponent. -/
def exponentOf (num den : Nat) : Int :=
  let guess : Int := (num.log2 : Int) - (den.log2 : Int) - 53
  let (n, d) := scale num den guess
  let exponent := if n / d < Nat.pow 2 53 then guess else guess + 1
  max exponent (-1074)

/-- The bits of the positive value `mantissa * 2 ^ exponent`; a mantissa of `2 ^ 53` carries over. -/
def encode (mantissa : Nat) (exponent : Int) : Nat :=
  if mantissa < Nat.pow 2 52 then mantissa
  else
    let bits := (exponent + 1075).toNat * Nat.pow 2 52 + (mantissa - Nat.pow 2 52)
    min bits (2047 * Nat.pow 2 52)

/-- The bits of the value nearest to `num / den`, infinity when it is beyond the largest value. -/
def roundBits (num den : Nat) : Nat :=
  if num = 0 then 0
  else
    let exponent := exponentOf num den
    let (n, d) := scale num den exponent
    encode (roundDiv n d) exponent

/-- The value nearest to `± num / den`. -/
def ofRatio (negative : Bool) (num den : Nat) : Float :=
  let bits := roundBits num den
  Float.ofBits (UInt64.ofNat (if negative then bits + Nat.pow 2 63 else bits))

/-- The value nearest to an integer. -/
def ofInt (i : Int) : Float :=
  if i < 0 then ofRatio true i.natAbs 1 else ofRatio false i.natAbs 1

/-- The value nearest to `± digits * 10 ^ exponent`. A decimal far outside the range is decided
before its power of ten is computed. -/
def ofDecimal (negative : Bool) (digits : Nat) (exponent : Int) : Float :=
  let magnitude : Int := exponent + ((Nat.toDigits 10 digits).length : Int)
  if digits = 0 || magnitude < -330 then ofRatio negative 0 1
  else if 310 < magnitude then ofRatio negative (Nat.pow 2 1024) 1
  else
    match exponent with
    | .ofNat e => ofRatio negative (digits * Nat.pow 10 e) 1
    | .negSucc e => ofRatio negative digits (Nat.pow 10 (e + 1))

end ConditionLint.Binary64
