import ConditionLint.Options
import ConditionLint.Platform.File

/-!
# Options from arguments

Four flags are recognised, wherever they stand. Three of them take the argument after them as a value,
also when that argument is itself a flag, which is then read as well. A value that makes no sense
leaves the option as it was, except that an unusable platform becomes the unspecified one. Flags and
values are removed from the arguments, the last one first, and the last argument that is left moves
into each gap.
-/

namespace ConditionLint

/-- The recognised flags. -/
inductive Flag where
  | inconclusive
  | platform
  | enable
  | suppress
  deriving DecidableEq, Repr

namespace Flag

/-- The flag that an argument spells. -/
def ofArgument? : String → Option Flag
  | "--inconclusive" => some inconclusive
  | "--platform" => some platform
  | "--enable" => some enable
  | "--suppress_warnings" => some suppress
  | _ => none

/-- Whether the argument after the flag is its value. -/
def takesValue : Flag → Bool
  | inconclusive => false
  | _ => true

end Flag

namespace Options

/-- The platform that a value names: a preset, or a file if it ends in `.json`. -/
def platformOf (files : String → Option String) (value : String) : Except PlatformError Platform :=
  if value.endsWith ".json" then Platform.ofFile files value else Platform.ofName value

/-- The severities that one item of a list enables. -/
def severitiesOfItem? : String → Option (List Severity)
  | "style" => some [.style]
  | "warning" => some [.warning]
  | "all" => some [.style, .warning]
  | _ => none

/-- The severities that a comma-separated list enables. -/
def severitiesOf? (value : String) : Option (List Severity) :=
  ((value.splitOn ",").mapM severitiesOfItem?).map List.flatten

/-- The cause that a letter stands for. -/
def causeOf? : Char → Option Cause
  | 'b' => some .bitwise
  | 'c' => some .comparison
  | 'l' => some .logic
  | 'o' => some .overflow
  | 't' => some .typeRange
  | 'k' => some .knownCondition
  | _ => none

/-- The causes that a word of letters stands for; an empty word stands for none. -/
def causesOf? (value : String) : Option (List Cause) :=
  match value.toList with
  | [] => none
  | letters => letters.mapM causeOf?

/-- The options after a flag with the argument that follows it. -/
def apply (files : String → Option String) (o : Options) (flag : Flag) (value : Option String) : Options :=
  match flag, value with
  | .inconclusive, _ => { o with inconclusive := true }
  | .platform, some v =>
    match platformOf files v with
    | .ok p => { o with platform := p }
    | .error _ => { o with platform := .unspecified }
  | .enable, some v =>
    match severitiesOf? v with
    | some enabled =>
      { o with style := enabled.contains .style, warning := enabled.contains .warning }
    | none => o
  | .suppress, some v =>
    match causesOf? v with
    | some causes => { o with suppressed := some causes }
    | none => o
  | _, none => o

/-- Read the flags among the arguments, the first one first. -/
def readFlags (files : String → Option String) (o : Options) : List String → Options
  | [] => o
  | arg :: rest =>
    match Flag.ofArgument? arg with
    | some flag => readFlags files (o.apply files flag rest.head?) rest
    | none => readFlags files o rest

/-- Mark each argument that is a flag, or that is the value of the flag before it. -/
def markConsumed (isValue : Bool) : List String → List (String × Bool)
  | [] => []
  | arg :: rest =>
    match Flag.ofArgument? arg with
    | some flag => (arg, true) :: markConsumed flag.takesValue rest
    | none => (arg, isValue) :: markConsumed false rest

/-- Move the last element into the first place. -/
def lastToFront {α : Type} (xs : List α) : List α :=
  match xs.getLast? with
  | some x => x :: xs.dropLast
  | none => []

/-- The arguments that are left. Each gap is filled by the last argument that is left at that time. -/
def remaining : List (String × Bool) → List String
  | [] => []
  | (arg, false) :: rest => arg :: remaining rest
  | (_, true) :: rest => lastToFront (remaining rest)

/-- The options that the arguments ask for, and the arguments that are left. -/
def ofArguments (files : String → Option String) (args : List String) : Options × List String :=
  (readFlags files {} args, remaining (markConsumed false args))

end Options

end ConditionLint
