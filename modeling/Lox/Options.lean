import Lox.Decimal.Read
import Lox.Diagnostic.Report
import Lox.Text.Quoted

/-!
# Options

The settings of a session. They have defaults, can be set by environment variables, and can be
overridden one by one. Both limits are positive, which the type records.
-/

namespace Lox

/-- The settings of a session. -/
structure Options where
  maxCallDepth : Nat
  collectAll : Bool
  catchFaults : Bool
  color : ColorMode
  maxErrors : Nat
  depth_pos : 0 < maxCallDepth
  errors_pos : 0 < maxErrors

/-- Why settings are refused. -/
inductive OptionError
  | depthTooSmall (name : String) (value : Int)
  | errorsTooSmall (value : Int)
  | depthNotInteger (name text : String)
  | notFlag (name text : String)
  | unknownColor (word : String)
deriving DecidableEq

/-- The complaint about a setting. -/
def OptionError.message : OptionError → String
  | depthTooSmall name value => s!"{name} must be at least 1, got {value}"
  | errorsTooSmall value => s!"max_errors must be at least 1, got {value}"
  | depthNotInteger name text => s!"{name} must be an integer, got {Text.quoted text}"
  | notFlag name text =>
      s!"{name} must be one of 1/true/yes/on or 0/false/no/off, got {Text.quoted text}"
  | unknownColor word => s!"{Text.quoted word} is not a valid ColorMode"

section Parsing

/-- The most digits of an integer setting. -/
def maxIntegerDigits : Nat := 4300

/-- An integer with an optional sign. -/
def readInteger? (text : String) : Option Int := do
  let (negative, digits) := Decimal.splitSign (← Text.numeral? text)
  if digits ≠ [] ∧ digits.all Char.isDigit ∧ digits.length ≤ maxIntegerDigits then
    let n := Int.ofNat (Decimal.digitsValue digits)
    return if negative then -n else n
  else
    none

/-- A truth value as a setting gives it, in words or digits. -/
def readFlag? (text : String) : Option Bool :=
  let word := String.ofList ((Text.trimChars text.toList).map Char.toLower)
  if ["1", "true", "yes", "on"].contains word then some true
  else if ["0", "false", "no", "off", ""].contains word then some false
  else none

end Parsing

/-- Settings to replace; the others are left as they are. -/
structure Overrides where
  maxCallDepth : Option Int
  collectAll : Option Bool
  catchFaults : Option Bool
  color : Option ColorMode
  maxErrors : Option Int
deriving DecidableEq

/-- Nothing to replace. -/
def Overrides.none : Overrides :=
  ⟨.none, .none, .none, .none, .none⟩

namespace Options

/-- The settings of a session that says nothing else. -/
def default : Options where
  maxCallDepth := 512
  collectAll := true
  catchFaults := false
  color := .auto
  maxErrors := 20
  depth_pos := by decide
  errors_pos := by decide

/-- Settings with these limits, if they are positive; the call depth is checked first. -/
def withLimits (options : Options) (depth errors : Int) : Except OptionError Options :=
  if hd : 0 < depth then
    if he : 0 < errors then
      .ok
        { options with
          maxCallDepth := depth.toNat
          maxErrors := errors.toNat
          depth_pos := by omega
          errors_pos := by omega }
    else
      .error (.errorsTooSmall errors)
  else
    .error (.depthTooSmall "max_call_depth" depth)

/-- Replace settings. -/
def override (options : Options) (changes : Overrides) : Except OptionError Options :=
  { options with
    collectAll := changes.collectAll.getD options.collectAll
    catchFaults := changes.catchFaults.getD options.catchFaults
    color := changes.color.getD options.color }.withLimits
      (changes.maxCallDepth.getD options.maxCallDepth)
      (changes.maxErrors.getD options.maxErrors)

end Options

/-- The environment variables that matter. -/
structure Environment where
  maxCallDepth : Option String
  catchFaults : Option String
  noColor : Bool
deriving DecidableEq

namespace Environment

/-- The variable with the greatest call depth. -/
def depthVariable : String := "PLOX_MAX_CALL_DEPTH"

/-- The variable that lets programs catch faults. -/
def catchVariable : String := "PLOX_CATCH_RUNTIME_ERRORS"

/-- The variable that switches colour off. -/
def noColorVariable : String := "NO_COLOR"

/-- The environment in which a variable has the value that `read` gives. -/
def ofVariables (read : String → Option String) : Environment where
  maxCallDepth := read depthVariable
  catchFaults := read catchVariable
  noColor := (read noColorVariable).isSome

/-- The call depth that the environment sets. -/
def depth (env : Environment) : Except OptionError (Option Int) :=
  match env.maxCallDepth with
  | none => .ok none
  | some text =>
      match readInteger? text with
      | none => .error (.depthNotInteger depthVariable text)
      | some n =>
          if 0 < n then .ok (some n) else .error (.depthTooSmall depthVariable n)

/-- Whether the environment lets programs catch faults. -/
def flag (env : Environment) : Except OptionError (Option Bool) :=
  match env.catchFaults with
  | none => .ok none
  | some text =>
      match readFlag? text with
      | none => .error (.notFlag catchVariable text)
      | some b => .ok (some b)

/-- The defaults overlaid with the environment. -/
def options (env : Environment) : Except OptionError Options := do
  let depth ← env.depth
  let flag ← env.flag
  Options.default.override
    { Overrides.none with
      maxCallDepth := depth
      catchFaults := flag
      color := if env.noColor then some .never else none }

end Environment

end Lox
