import ConditionLint.Binary64.Shortest

/-!
# The text of a binary64 value

Values are written positionally with the fewest digits that read back: no exponent, no fraction for a
whole number, and a sign also for a negative zero. The text of a literal differs for whole numbers
only: all their digits, and one decimal. `parse?` reads a decimal with an optional fraction and
exponent, or the words for infinity and not-a-number in any case.
-/

namespace ConditionLint.Binary64

/-- Write a decimal positionally. -/
def Decimal.positional (d : Decimal) : String :=
  let digits := (Nat.toDigits 10 d.digits)
  match d.exponent with
  | .ofNat e => String.ofList (digits ++ List.replicate e '0')
  | .negSucc e =>
    let places := e + 1
    if places < digits.length then
      let whole := digits.length - places
      String.ofList (digits.take whole ++ ['.'] ++ digits.drop whole)
    else String.ofList (['0', '.'] ++ List.replicate (places - digits.length) '0' ++ digits)

/-- The sign in front of a number. -/
def signText (negative : Bool) : String :=
  if negative then "-" else ""

/-- The text of a value. -/
def text (x : Float) : String :=
  match decode x with
  | .nan => "NaN"
  | .infinite negative => signText negative ++ "inf"
  | .finite negative mantissa exponent =>
    signText negative ++ (if mantissa = 0 then "0" else (shortest mantissa exponent).positional)

/-- The natural number `mantissa * 2 ^ exponent`, if it is one. -/
def whole? (mantissa : Nat) (exponent : Int) : Option Nat :=
  match exponent with
  | .ofNat e => some (mantissa * Nat.pow 2 e)
  | .negSucc e => if mantissa % Nat.pow 2 (e + 1) = 0 then some (mantissa / Nat.pow 2 (e + 1)) else none

/-- The spelling of a value as a literal: a whole number has all its digits and ends in `.0`. -/
def literalText (x : Float) : String :=
  match decode x with
  | .finite negative mantissa exponent =>
    match whole? mantissa exponent with
    | some n => signText negative ++ Nat.repr n ++ ".0"
    | none => text x
  | _ => text x

/-- The number that a list of decimal digits spells. -/
def digitsValue (digits : List Char) : Nat :=
  digits.foldl (fun n c => 10 * n + (c.toNat - '0'.toNat)) 0

/-- Read an optional sign, and say whether it was a minus. -/
def takeSign : List Char → Bool × List Char
  | '-' :: rest => (true, rest)
  | '+' :: rest => (false, rest)
  | cs => (false, cs)

/-- Read the exponent that may end a decimal. -/
def exponent? : List Char → Option Int
  | [] => some 0
  | c :: rest =>
    if c = 'e' || c = 'E' then
      let (negative, digits) := takeSign rest
      if digits.isEmpty || !digits.all Char.isDigit then none
      else some (if negative then -(digitsValue digits : Int) else digitsValue digits)
    else none

/-- Read a decimal without a sign: digits with at most one point among them, and an exponent. -/
def decimal? (negative : Bool) (cs : List Char) : Option Float :=
  let whole := cs.takeWhile Char.isDigit
  let rest := cs.dropWhile Char.isDigit
  let (fraction, rest) := match rest with
    | '.' :: rest => (rest.takeWhile Char.isDigit, rest.dropWhile Char.isDigit)
    | _ => ([], rest)
  if whole.isEmpty && fraction.isEmpty then none
  else
    (exponent? rest).map fun e =>
      ofDecimal negative (digitsValue (whole ++ fraction)) (e - (fraction.length : Int))

/-- Read the text of a value. -/
def parse? (s : String) : Option Float :=
  let (negative, cs) := takeSign s.toList
  let word := String.ofList (cs.map Char.toLower)
  if word = "inf" || word = "infinity" then
    some (ofRatio negative (Nat.pow 2 1024) 1)
  else if word = "nan" then some (Float.ofBits 0x7ff8000000000000)
  else decimal? negative cs

end ConditionLint.Binary64
