import ConditionLint.Binary64.Text

/-!
# Strict JSON

A reader for JSON texts as the standard defines them: no comments, no trailing commas or text, no byte
order mark, no leading zeros, no raw control characters in strings and no half of a surrogate pair.
Containers nest at most 127 deep, and a number beyond the range of binary64 is refused. Numbers keep
their value only where they are written as plain integers.
-/

namespace ConditionLint

/-- A JSON value. -/
inductive Json where
  | null
  | bool (value : Bool)
  /-- A non-negative integer without fraction or exponent. -/
  | natural (value : Nat)
  /-- Any other number. -/
  | number
  | string (value : String)
  | array (items : List Json)
  | object (fields : List (String × Json))

namespace Json

/-- The four characters that may stand between tokens. -/
def isBlank (c : Char) : Bool := c = ' ' || c = '\t' || c = '\n' || c = '\r'

/-- Drop leading blanks. -/
def skipBlanks (cs : List Char) : List Char := cs.dropWhile isBlank

/-- The value of a hexadecimal digit. -/
def hexDigit? (c : Char) : Option Nat :=
  if c.isDigit then some (c.toNat - '0'.toNat)
  else if 'a' ≤ c && c ≤ 'f' then some (c.toNat - 'a'.toNat + 10)
  else if 'A' ≤ c && c ≤ 'F' then some (c.toNat - 'A'.toNat + 10)
  else none

/-- The value of four hexadecimal digits. -/
def hex4? (a b c d : Char) : Option Nat :=
  (hexDigit? a).bind fun a => (hexDigit? b).bind fun b => (hexDigit? c).bind fun c =>
    (hexDigit? d).map fun d => ((a * 16 + b) * 16 + c) * 16 + d

/-- The character of a one-letter escape. -/
def escape? : Char → Option Char
  | '"' => some '"'
  | '\\' => some '\\'
  | '/' => some '/'
  | 'b' => some '\x08'
  | 'f' => some '\x0c'
  | 'n' => some '\n'
  | 'r' => some '\r'
  | 't' => some '\t'
  | _ => none

/-- The rest of a string after its opening quote: its characters, and what follows the closing one.
A code unit of the upper surrogates must be followed by one of the lower surrogates. -/
def stringRest? : List Char → Option (List Char × List Char)
  | [] => none
  | '"' :: rest => some ([], rest)
  | '\\' :: 'u' :: a :: b :: c :: d :: rest =>
    (hex4? a b c d).bind fun unit =>
      if 0xDC00 ≤ unit && unit < 0xE000 then none
      else if 0xD800 ≤ unit && unit < 0xDC00 then
        match rest with
        | '\\' :: 'u' :: a' :: b' :: c' :: d' :: rest' =>
          (hex4? a' b' c' d').bind fun low =>
            if 0xDC00 ≤ low && low < 0xE000 then
              (stringRest? rest').map fun (cs, after) =>
                (Char.ofNat (0x10000 + (unit - 0xD800) * 0x400 + (low - 0xDC00)) :: cs, after)
            else none
        | _ => none
      else (stringRest? rest).map fun (cs, after) => (Char.ofNat unit :: cs, after)
  | '\\' :: c :: rest =>
    (escape? c).bind fun e => (stringRest? rest).map fun (cs, after) => (e :: cs, after)
  | c :: rest =>
    if c.toNat < 0x20 || c = '\\' then none
    else (stringRest? rest).map fun (cs, after) => (c :: cs, after)

/-- The greatest integer with 64 bits. -/
def maxNatural : Nat := Nat.pow 2 64 - 1

/-- The longest beginning of the digits that fits 64 bits, and how many digits it leaves out. -/
def significand (digits : List Char) (value : Nat) : Nat × Nat :=
  match digits with
  | [] => (value, 0)
  | c :: rest =>
    let next := 10 * value + (c.toNat - '0'.toNat)
    if next ≤ maxNatural then significand rest next else (value, rest.length + 1)

/-- Whether a decimal is within the range of binary64. Its leading digits that fit 64 bits are rounded
and multiplied by a rounded power of ten; that product has to be finite. -/
def inRange (whole fraction : List Char) (exponent : Int) : Bool :=
  let (head, dropped) := significand whole 0
  let (digits, left) := significand fraction head
  let shift : Int := (dropped : Int) + left - fraction.length
  let power := exponent + shift
  if digits = 0 || power < 0 then true
  else if 308 < power then false
  else (Binary64.ofInt digits * Binary64.ofDecimal false 1 power).isFinite

/-- Read the exponent that may follow a number. -/
def exponentRest? (cs : List Char) : Option (Option Int × List Char) :=
  match cs with
  | [] => some (none, [])
  | c :: rest =>
    if c = 'e' || c = 'E' then
      let (negative, rest) := Binary64.takeSign rest
      let digits := rest.takeWhile Char.isDigit
      if digits.isEmpty then none
      else
        let value : Int := Binary64.digitsValue digits
        some (some (if negative then -value else value), rest.dropWhile Char.isDigit)
    else some (none, cs)

/-- Read the fraction that may follow the digits of a number. -/
def fractionRest? (cs : List Char) : Option (Option (List Char) × List Char) :=
  match cs with
  | '.' :: rest =>
    let digits := rest.takeWhile Char.isDigit
    if digits.isEmpty then none else some (some digits, rest.dropWhile Char.isDigit)
  | _ => some (none, cs)

/-- Read a number without its sign. -/
def numberRest? (negative : Bool) (cs : List Char) : Option (Json × List Char) :=
  let whole := cs.takeWhile Char.isDigit
  if whole.isEmpty || (1 < whole.length && whole.head? = some '0') then none
  else
    (fractionRest? (cs.dropWhile Char.isDigit)).bind fun (fraction, rest) =>
      (exponentRest? rest).bind fun (exponent, rest) =>
        if !inRange whole (fraction.getD []) (exponent.getD 0) then none
        else
          let value := Binary64.digitsValue whole
          if negative || fraction.isSome || exponent.isSome || maxNatural < value then
            some (number, rest)
          else some (natural value, rest)

/-- Read a word that stands for a value. -/
def wordRest? (cs : List Char) : Option (Json × List Char) :=
  match cs with
  | 'n' :: 'u' :: 'l' :: 'l' :: rest => some (null, rest)
  | 't' :: 'r' :: 'u' :: 'e' :: rest => some (bool true, rest)
  | 'f' :: 'a' :: 'l' :: 's' :: 'e' :: rest => some (bool false, rest)
  | _ => none

/-- Read the items of an array after one of them. The fuel bounds the number of items. -/
def itemsRest? (item : List Char → Option (Json × List Char)) (fuel : Nat) (cs : List Char) :
    Option (List Json × List Char) :=
  match fuel with
  | 0 => none
  | fuel + 1 =>
    (item cs).bind fun (value, rest) =>
      match skipBlanks rest with
      | ',' :: rest => (itemsRest? item fuel rest).map fun (values, after) => (value :: values, after)
      | ']' :: rest => some ([value], rest)
      | _ => none

/-- Read the fields of an object after one of them. The fuel bounds the number of fields. -/
def fieldsRest? (item : List Char → Option (Json × List Char)) (fuel : Nat) (cs : List Char) :
    Option (List (String × Json) × List Char) :=
  match fuel with
  | 0 => none
  | fuel + 1 =>
    match skipBlanks cs with
    | '"' :: rest =>
      (stringRest? rest).bind fun (key, rest) =>
        match skipBlanks rest with
        | ':' :: rest =>
          (item rest).bind fun (value, rest) =>
            match skipBlanks rest with
            | ',' :: rest =>
              (fieldsRest? item fuel rest).map fun (fields, after) =>
                ((String.ofList key, value) :: fields, after)
            | '}' :: rest => some ([(String.ofList key, value)], rest)
            | _ => none
        | _ => none
    | _ => none

/-- Read a value in which containers nest at most `depth` deep. -/
def valueRest? (depth : Nat) (cs : List Char) : Option (Json × List Char) :=
  match skipBlanks cs with
  | [] => none
  | '"' :: rest => (stringRest? rest).map fun (value, after) => (string (String.ofList value), after)
  | '-' :: rest => numberRest? true rest
  | '[' :: rest =>
    match depth with
    | 0 => none
    | depth + 1 =>
      match skipBlanks rest with
      | ']' :: rest => some (array [], rest)
      | rest =>
        (itemsRest? (valueRest? depth) rest.length rest).map fun (items, after) => (array items, after)
  | '{' :: rest =>
    match depth with
    | 0 => none
    | depth + 1 =>
      match skipBlanks rest with
      | '}' :: rest => some (object [], rest)
      | rest =>
        (fieldsRest? (valueRest? depth) rest.length rest).map fun (fields, after) =>
          (object fields, after)
  | c :: rest => if c.isDigit then numberRest? false (c :: rest) else wordRest? (c :: rest)

/-- Read a whole text. -/
def parse? (text : String) : Option Json :=
  (valueRest? 127 text.toList).bind fun (value, rest) =>
    if (skipBlanks rest).isEmpty then some value else none

/-- The last field of an object with the given name. -/
def field? (fields : List (String × Json)) (name : String) : Option Json :=
  (fields.reverse.find? fun field => field.1 == name).map Prod.snd

end Json

end ConditionLint
