import ConditionLint.Json
import ConditionLint.Platform

/-!
# Platform files

A platform file is a JSON object with one width for each integer type. A width is a positive integer
below 256. The widths are looked at in a fixed order and the first fault is reported; other fields are
ignored, and of two fields with one name the last counts.
-/

namespace ConditionLint

/-- What may be wrong with a JSON text as a platform description. -/
inductive PlatformFault where
  | notAnObject
  | missingField (name : String)
  | badWidth (name : String) (bits : Nat)
  deriving DecidableEq, Repr

/-- Why there is no platform. -/
inductive PlatformError where
  | unknownName (name : String)
  | unreadableFile (path : String)
  | notJson
  | malformed (fault : PlatformFault)
  deriving DecidableEq, Repr

/-- What is wrong, in words. -/
def PlatformFault.text : PlatformFault → String
  | .notAnObject => "expected a JSON object"
  | .missingField name => "missing field " ++ name
  | .badWidth name bits => name ++ " = " ++ Nat.repr bits ++ " is not a valid bit size"

/-- The error as a message. -/
def PlatformError.message : PlatformError → String
  | .unknownName name => "Unknown platform '" ++ name ++ "'"
  | .unreadableFile path => "Cannot read platform file " ++ path
  | .notJson => "Malformed platform description: not a JSON text"
  | .malformed fault => "Malformed platform description: " ++ fault.text

namespace Platform

/-- The width in a field of a platform description. -/
def width (fields : List (String × Json)) (name : String) : Except PlatformError Nat :=
  match Json.field? fields name with
  | some (.natural bits) =>
    if 0 < bits && bits < 256 then .ok bits else .error (.malformed (.badWidth name bits))
  | _ => .error (.malformed (.missingField name))

/-- The platform that a text describes. -/
def ofJson (text : String) : Except PlatformError Platform :=
  match Json.parse? text with
  | none => .error .notJson
  | some (.object fields) => do
    let charBits ← width fields "char_bit"
    let shortBits ← width fields "short_bit"
    let intBits ← width fields "int_bit"
    let longBits ← width fields "long_bit"
    let longLongBits ← width fields "long_long_bit"
    return ⟨.file, charBits, shortBits, intBits, longBits, longLongBits⟩
  | some _ => .error (.malformed .notAnObject)

/-- The platform of a preset name. -/
def ofName (name : String) : Except PlatformError Platform :=
  match ofName? name with
  | some p => .ok p
  | none => .error (.unknownName name)

/-- The platform that a file describes, where `files` gives the text of each readable file. -/
def ofFile (files : String → Option String) (path : String) : Except PlatformError Platform :=
  match files path with
  | some text => ofJson text
  | none => .error (.unreadableFile path)

end Platform

end ConditionLint
