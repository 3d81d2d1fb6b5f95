/-!
# Types of C expressions

A type is a base type with a sign and a number of pointer levels. Widths are not fixed here: they
belong to the platform. Integer promotion turns every integer type narrower than `int` into `int`;
the usual arithmetic conversions then take the operand type of higher rank.
-/

namespace ConditionLint

/-- What a type is made of, apart from sign and pointers. -/
inductive BaseType where
  | void
  | bool
  | char
  | short
  | int
  | long
  | longLong
  | float
  | double
  | longDouble
  | record
  | container
  | iterator
  | unknown
  deriving DecidableEq, Repr

/-- The sign of a type, if it has one. -/
inductive Sign where
  | signed
  | unsigned
  | unknown
  deriving DecidableEq, Repr

/-- The type of an expression. -/
structure CType where
  base : BaseType
  sign : Sign := .unknown
  /-- Levels of indirection, 0 for a plain value. -/
  pointer : Nat := 0
  isConst : Bool := false
  deriving DecidableEq, Repr

namespace CType

/-- The truth values. -/
def bool : CType := ⟨.bool, .unknown, 0, false⟩

/-- The signed characters. -/
def char : CType := ⟨.char, .signed, 0, false⟩

/-- The signed integers of the platform's natural width. -/
def int : CType := ⟨.int, .signed, 0, false⟩

/-- The unsigned integers of the platform's natural width. -/
def uint : CType := ⟨.int, .unsigned, 0, false⟩

/-- The floating numbers of double precision. -/
def double : CType := ⟨.double, .unknown, 0, false⟩

/-- A type about which nothing is known. -/
def unknown : CType := ⟨.unknown, .unknown, 0, false⟩

/-- The pointers to a type. -/
def pointerTo (t : CType) : CType := { t with pointer := t.pointer + 1 }

/-- The same type, constant. -/
def constant (t : CType) : CType := { t with isConst := true }

/-- Whether this is a pointer type. -/
def isPointer (t : CType) : Bool := 0 < t.pointer

/-- What a pointer points to. -/
def pointee? (t : CType) : Option CType :=
  if t.isPointer then some { t with pointer := t.pointer - 1 } else none

/-- Whether this is an integer type; truth values and characters are. -/
def isIntegral (t : CType) : Bool :=
  t.pointer == 0 &&
    match t.base with
    | .bool => true
    | .char => true
    | .short => true
    | .int => true
    | .long => true
    | .longLong => true
    | _ => false

/-- Whether this is a floating type. -/
def isFloat (t : CType) : Bool :=
  t.pointer == 0 &&
    match t.base with
    | .float => true
    | .double => true
    | .longDouble => true
    | _ => false

/-- Whether this is the type of truth values. -/
def isBool (t : CType) : Bool := t.pointer == 0 && t.base == .bool

/-- Whether the sign is unsigned; the sign of a pointer is that of what it points to. -/
def isUnsigned (t : CType) : Bool := t.sign == .unsigned

/-- Whether this is a signed integer type. -/
def isSignedInteger (t : CType) : Bool := t.isIntegral && t.sign == .signed

/-- Whether this is a plain value of a class type. -/
def isRecordValue (t : CType) : Bool := t.base == .record && t.pointer == 0

/-- Whether two types agree up to constness. -/
def agreesWith (t u : CType) : Bool :=
  t.base == u.base && t.sign == u.sign && t.pointer == u.pointer

/-- The conversion rank of a base type. -/
def rank (t : CType) : Nat :=
  match t.base with
  | .bool => 0
  | .char => 1
  | .short => 2
  | .int => 3
  | .long => 4
  | .longLong => 5
  | .float => 6
  | .double => 7
  | .longDouble => 8
  | _ => 0

/-- Integer promotion. -/
def promoted (t : CType) : CType :=
  if t.isIntegral && t.rank < 3 then int else t

/-- Whether arithmetic conversions apply to the type. -/
def isArithmetic (t : CType) : Bool := t.isIntegral || t.isFloat

/-- The type of an arithmetic or bitwise operation. Pointer arithmetic keeps the pointer type. -/
def common (lhs rhs : CType) : CType :=
  if lhs.isPointer then lhs
  else if rhs.isPointer then rhs
  else if !lhs.isArithmetic || !rhs.isArithmetic then unknown
  else
    let l := lhs.promoted
    let r := rhs.promoted
    let result := if r.rank ≤ l.rank then l else r
    let unsigned := result.isIntegral && l.rank == r.rank && (l.isUnsigned || r.isUnsigned)
    { result with sign := if unsigned then .unsigned else result.sign, isConst := false }

/-- The name of a base type. -/
def baseText : BaseType → String
  | .void => "void"
  | .bool => "bool"
  | .char => "char"
  | .short => "short"
  | .int => "int"
  | .long => "long"
  | .longLong => "long long"
  | .float => "float"
  | .double => "double"
  | .longDouble => "long double"
  | .record => "record"
  | .container => "container"
  | .iterator => "iterator"
  | .unknown => "unknown"

/-- The sign as it is written: `signed` is said of characters only, and nothing of truth values. -/
def signText (t : CType) : String :=
  match t.base, t.sign with
  | .bool, _ => ""
  | _, .unsigned => "unsigned "
  | .char, .signed => "signed "
  | _, _ => ""

/-- The text of a type. -/
def text (t : CType) : String :=
  (if t.isConst then "const " else "") ++ t.signText ++ baseText t.base
    ++ String.join (List.replicate t.pointer " *")

end CType

end ConditionLint
