import ConditionLint.Binary64.Rounding

/-!
# The fewest decimal digits that read back

Every real number in an interval around a binary64 value rounds to that value; the ends belong to
the interval exactly when the mantissa is even. `shortest` looks for a decimal with one digit, then
with two, and so on, and takes the first that lies in the interval; of two it takes the nearer, and
the larger of two equally near ones. Seventeen digits always suffice.
-/

namespace ConditionLint.Binary64

/-- A positive decimal `digits * 10 ^ exponent`. -/
structure Decimal where
  digits : Nat
  exponent : Int
  deriving DecidableEq, Repr

/-- The real numbers that round to one value, and the value itself, over one denominator. -/
structure Neighbourhood where
  low : Nat
  value : Nat
  high : Nat
  den : Nat
  closed : Bool

/-- The interval around `mantissa * 2 ^ exponent`. Below a power of two the values lie twice as dense. -/
def neighbourhood (mantissa : Nat) (exponent : Int) : Neighbourhood :=
  let below := if mantissa = Nat.pow 2 52 && -1074 < exponent then 1 else 2
  let closed := mantissa % 2 == 0
  match exponent - 2 with
  | .ofNat e =>
    ⟨(4 * mantissa - below) * Nat.pow 2 e, 4 * mantissa * Nat.pow 2 e, (4 * mantissa + 2) * Nat.pow 2 e,
      1, closed⟩
  | .negSucc e => ⟨4 * mantissa - below, 4 * mantissa, 4 * mantissa + 2, Nat.pow 2 (e + 1), closed⟩

/-- Whether `num / den` lies in the interval. -/
def Neighbourhood.contains (n : Neighbourhood) (num den : Nat) : Bool :=
  if n.closed then n.low * den ≤ num * n.den && num * n.den ≤ n.high * den
  else n.low * den < num * n.den && num * n.den < n.high * den

/-- The `p` with `10 ^ p ≤ num / den < 10 ^ (p + 1)`. -/
def decimalMagnitude (num den : Nat) : Int :=
  if den ≤ num then ((Nat.toDigits 10 (num / den)).length : Int) - 1
  else
    let length := (Nat.toDigits 10 (den / num)).length
    if den ≤ num * Nat.pow 10 (length - 1) then 1 - (length : Int) else -(length : Int)

/-- The unit `10 ^ e` as a fraction. -/
def powerOfTen : Int → Nat × Nat
  | .ofNat e => (Nat.pow 10 e, 1)
  | .negSucc e => (1, Nat.pow 10 (e + 1))

/-- The decimal with `count` digits nearest to the value among those in the interval, if any. -/
def Neighbourhood.decimal? (n : Neighbourhood) (magnitude : Int) (count : Nat) : Option Decimal :=
  let exponent := magnitude - (count : Int) + 1
  let (unitNum, unitDen) := powerOfTen exponent
  let below := n.value * unitDen / (n.den * unitNum)
  let above := below + 1
  let belowFits := n.contains (below * unitNum) unitDen
  let aboveFits := n.contains (above * unitNum) unitDen
  -- Twice the distance to the lower neighbour against the whole step between the two.
  let fromBelow := 2 * (n.value * unitDen - below * unitNum * n.den)
  let step := unitNum * n.den
  if belowFits && (!aboveFits || fromBelow < step) then some ⟨below, exponent⟩
  else if aboveFits then some ⟨above, exponent⟩
  else none

/-- Drop trailing zeros, at most `fuel` of them. -/
def Decimal.trim (fuel : Nat) (d : Decimal) : Decimal :=
  match fuel with
  | 0 => d
  | fuel + 1 =>
    if d.digits % 10 = 0 && d.digits ≠ 0 then Decimal.trim fuel ⟨d.digits / 10, d.exponent + 1⟩ else d

/-- The decimal with the fewest digits that rounds to `mantissa * 2 ^ exponent`, for a positive mantissa. -/
def shortest (mantissa : Nat) (exponent : Int) : Decimal :=
  let n := neighbourhood mantissa exponent
  let magnitude := decimalMagnitude n.value n.den
  let found := (List.range 17).findSome? fun count => n.decimal? magnitude (count + 1)
  (found.getD ⟨0, 0⟩).trim 20

end ConditionLint.Binary64
