import ConditionLint.CType

/-!
# Platforms

A platform fixes the widths of the integer types. The range of a type is known when its width is below
64 bits and its sign is known; ranges are used only when the platform was chosen on purpose.
-/

namespace ConditionLint

/-- How a platform was chosen. -/
inductive PlatformKind where
  | native
  | unspecified
  | unix32
  | unix64
  | win32A
  | win32W
  | win64
  | file
  deriving DecidableEq, Repr

/-- The widths of the integer types in bits. -/
structure Platform where
  kind : PlatformKind
  charBits : Nat
  shortBits : Nat
  intBits : Nat
  longBits : Nat
  longLongBits : Nat
  deriving DecidableEq, Repr

namespace Platform

/-- The platform that the analysis runs on. -/
def native : Platform := ⟨.native, 8, 16, 32, 64, 64⟩

/-- No particular platform, with the widths of the native one. -/
def unspecified : Platform := ⟨.unspecified, 8, 16, 32, 64, 64⟩

/-- A Unix platform with 64-bit `long`. -/
def unix64 : Platform := ⟨.unix64, 8, 16, 32, 64, 64⟩

/-- A platform with 32-bit `long`. -/
def withShortLong (kind : PlatformKind) : Platform := ⟨kind, 8, 16, 32, 32, 64⟩

/-- Whether the target was chosen on purpose, so that its ranges mean something. -/
def givesRanges (p : Platform) : Bool :=
  match p.kind with
  | .native => false
  | .unspecified => false
  | _ => true

/-- The platform of a preset name. -/
def ofName? : String → Option Platform
  | "native" => some native
  | "unspecified" => some unspecified
  | "unix32" => some (withShortLong .unix32)
  | "unix64" => some unix64
  | "win32A" => some (withShortLong .win32A)
  | "win32W" => some (withShortLong .win32W)
  | "win64" => some (withShortLong .win64)
  | _ => none

end Platform

namespace CType

/-- The width of an integer type on a platform. -/
def width? (t : CType) (p : Platform) : Option Nat :=
  if t.isPointer then none
  else
    match t.base with
    | .bool => some 1
    | .char => some p.charBits
    | .short => some p.shortBits
    | .int => some p.intBits
    | .long => some p.longBits
    | .longLong => some p.longLongBits
    | _ => none

/-- The least and the greatest value of an integer type on a platform. -/
def range? (t : CType) (p : Platform) : Option (Int × Int) :=
  (t.width? p).bind fun bits =>
    if bits = 0 || 64 ≤ bits then none
    else if t.base = .bool || t.sign = .unsigned then some (0, Int.pow 2 bits - 1)
    else if t.sign = .signed then some (-(Int.pow 2 (bits - 1)), (Int.pow 2 bits - 1) / 2)
    else none

/-- All numbers that occur when the range of a type of the given width is computed, its bounds included. -/
def rangeNumbers (bits : Nat) (low high : Int) : List Int :=
  [Int.pow 2 bits, Int.pow 2 bits - 1, (Int.pow 2 bits - 1) / 2, Int.pow 2 (bits - 1), -(Int.pow 2 (bits - 1)),
    low, high]

end CType

end ConditionLint
