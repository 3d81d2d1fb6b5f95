/-!
# Bitwise operations on integers in two's complement

A negative integer has infinitely many leading ones: `-(n + 1)` is the complement of `n`. So each
operation on integers reduces to one on natural numbers, with `m - (m &&& n)` for the bits of `m`
that are not in `n`.
-/

namespace ConditionLint.TwosComplement

/-- The bits that both integers have. -/
def and : Int → Int → Int
  | .ofNat m, .ofNat n => .ofNat (m &&& n)
  | .ofNat m, .negSucc n => .ofNat (m - (m &&& n))
  | .negSucc m, .ofNat n => .ofNat (n - (n &&& m))
  | .negSucc m, .negSucc n => .negSucc (m ||| n)

/-- The bits that at least one of the integers has. -/
def or : Int → Int → Int
  | .ofNat m, .ofNat n => .ofNat (m ||| n)
  | .ofNat m, .negSucc n => .negSucc (n - (n &&& m))
  | .negSucc m, .ofNat n => .negSucc (m - (m &&& n))
  | .negSucc m, .negSucc n => .negSucc (m &&& n)

/-- Lower-case hexadecimal digits, without a sign: a negative integer shows its 64-bit pattern. -/
def hexadecimal : Int → String
  | .ofNat n => String.ofList (Nat.toDigits 16 n)
  | .negSucc n => String.ofList (Nat.toDigits 16 (Nat.pow 2 64 - (n + 1)))

end ConditionLint.TwosComplement
