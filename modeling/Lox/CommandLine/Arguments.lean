import Lox.Options

/-!
# Command-line arguments

The arguments are one optional script and flags, in any order. A flag may be shortened as long as it
stays unambiguous, and its value is the next argument or follows an equals sign. After `--` every
argument is a script.
-/

namespace Lox.CommandLine

/-- The flags. -/
inductive Flag
  | help | maxDepth | catchErrors | firstErrorOnly | color | maxErrors | verbose | logFile
deriving DecidableEq

namespace Flag

/-- The flags with their spellings, in the order in which they are listed. -/
def spellings : List (String × Flag) :=
  [("-h", help), ("--help", help), ("--max-depth", maxDepth),
    ("--catch-runtime-errors", catchErrors), ("--first-error-only", firstErrorOnly),
    ("--color", color), ("--max-errors", maxErrors), ("--verbose", verbose), ("-v", verbose),
    ("--log-file", logFile)]

/-- The name of a flag in complaints: all its spellings. -/
def name (flag : Flag) : String :=
  "/".intercalate ((spellings.filter (·.2 == flag)).map (·.1))

/-- Does the flag take a value? -/
def takesValue : Flag → Bool
  | maxDepth | color | maxErrors | logFile => true
  | help | catchErrors | firstErrorOnly | verbose => false

end Flag

/-- Why arguments are refused. -/
inductive UsageError
  | ambiguous (argument : String) (candidates : List String)
  | missingValue (flag : Flag)
  | ignoredValue (flag : Flag) (value : String)
  | invalidInteger (flag : Flag) (value : String)
  | invalidChoice (flag : Flag) (value : String) (choices : List String)
  | unrecognized (arguments : List String)
  | refused (error : OptionError)
deriving DecidableEq

/-- The complaint about arguments. -/
def UsageError.message : UsageError → String
  | ambiguous argument candidates =>
      let list := ", ".intercalate candidates
      s!"ambiguous option: {argument} could match {list}"
  | missingValue flag => s!"argument {flag.name}: expected one argument"
  | ignoredValue flag value =>
      s!"argument {flag.name}: ignored explicit argument {Text.quoted value}"
  | invalidInteger flag value =>
      s!"argument {flag.name}: invalid int value: {Text.quoted value}"
  | invalidChoice flag value choices =>
      let list := ", ".intercalate (choices.map Text.quoted)
      s!"argument {flag.name}: invalid choice: {Text.quoted value} (choose from {list})"
  | unrecognized arguments =>
      let list := " ".intercalate arguments
      s!"unrecognized arguments: {list}"
  | refused error => error.message

/-- What the arguments ask for. -/
structure Arguments where
  script : Option String
  help : Bool
  overrides : Overrides
deriving DecidableEq

section Classification

/-- The argument that ends the flags. -/
def endMark : String := "--"

/-- What an argument is by itself: an operand, the mark that ends the flags, a flag with its
spelling and the value attached to it, or something that looks like a flag but is none. -/
inductive Shape
  | operand
  | endOfFlags
  | flag (spelling : String) (flag : Flag) (attached : Option String)
  | unknown
deriving DecidableEq

/-- Split an argument at its first equals sign. -/
def splitValue (cs : List Char) : List Char × Option (List Char) :=
  match cs.dropWhile (· != '=') with
  | _ :: value => (cs.takeWhile (· != '='), some value)
  | [] => (cs, none)

/-- The characters without one line feed at their end. -/
def withoutLineEnd (cs : List Char) : List Char :=
  if cs.getLast? = some '\n' then cs.dropLast else cs

/-- Is the text a negative number, such as `-1` or `-.5`? A line feed may end it. -/
def isNegativeNumber (cs : List Char) : Bool :=
  let isDigit := fun (c : Char) => (Text.digitValue? c).isSome
  match withoutLineEnd cs with
  | '-' :: digits =>
      let fraction := digits.dropWhile isDigit
      (!digits.isEmpty && fraction.isEmpty) ||
        (match fraction with
          | '.' :: rest => !rest.isEmpty && rest.all isDigit
          | _ => false)
  | _ => false

/-- The flags that an argument may be short for, with the values attached to them. -/
def candidates (cs : List Char) : List (String × Flag × Option String) :=
  match cs with
  | '-' :: '-' :: _ =>
      let (start, value) := splitValue cs
      Flag.spellings.filterMap fun (spelling, flag) =>
        if start.isPrefixOf spelling.toList then
          some (spelling, flag, value.map String.ofList)
        else
          none
  | '-' :: c :: rest =>
      Flag.spellings.filterMap fun (spelling, flag) =>
        if spelling = String.ofList ['-', c] then
          some (spelling, flag, some (String.ofList rest))
        else if cs.isPrefixOf spelling.toList then
          some (spelling, flag, none)
        else
          none
  | _ => []

/-- The flag that an argument spells out, perhaps with a value after an equals sign. -/
def exactFlag? (cs : List Char) : Option Shape :=
  match Flag.spellings.lookup (String.ofList cs) with
  | some flag => some (.flag (String.ofList cs) flag none)
  | none =>
      match splitValue cs with
      | (start, some value) =>
          (Flag.spellings.lookup (String.ofList start)).map fun flag =>
            .flag (String.ofList start) flag (some (String.ofList value))
      | _ => none

/-- What an argument is, if no mark has ended the flags before it. -/
def classify (argument : String) : Except UsageError Shape :=
  let cs := argument.toList
  match cs with
  | '-' :: _ :: _ =>
      if argument = endMark then
        .ok .endOfFlags
      else
        match exactFlag? cs with
        | some shape => .ok shape
        | none =>
            match candidates cs with
            | [(spelling, flag, value)] => .ok (.flag spelling flag value)
            | [] =>
                if isNegativeNumber cs || cs.contains ' ' then .ok .operand else .ok .unknown
            | several => .error (.ambiguous argument (several.map (·.1)))
  | _ => .ok .operand

/-- What each argument is; after the mark that ends the flags all are operands. -/
def classifyAll : List String → Except UsageError (List (String × Shape))
  | [] => .ok []
  | argument :: rest => do
      match ← classify argument with
      | .endOfFlags => return (argument, .endOfFlags) :: rest.map fun later => (later, .operand)
      | shape => return (argument, shape) :: (← classifyAll rest)

end Classification

section Interpretation

/-- What has been read so far; `scriptRead` tells whether the script has been met. -/
structure Progress where
  arguments : Arguments
  scriptRead : Bool
  unrecognized : List String
deriving DecidableEq

/-- Nothing has been read. -/
def Progress.start : Progress :=
  ⟨⟨none, false, Overrides.none⟩, false, []⟩

/-- Replace settings of the arguments. -/
def Progress.overriding (p : Progress) (change : Overrides → Overrides) : Progress :=
  { p with arguments := { p.arguments with overrides := change p.arguments.overrides } }

/-- The integer value of a flag. -/
def integerValue (flag : Flag) (value : String) : Except UsageError Int :=
  match readInteger? value with
  | some n => .ok n
  | none => .error (.invalidInteger flag value)

/-- Take account of a flag with its value; a flag without a value has an empty one. -/
def Progress.take (p : Progress) (flag : Flag) (value : String) : Except UsageError Progress :=
  match flag with
  | .help => .ok { p with arguments := { p.arguments with help := true } }
  | .verbose | .logFile => .ok p
  | .catchErrors => .ok (p.overriding fun o => { o with catchFaults := some true })
  | .firstErrorOnly => .ok (p.overriding fun o => { o with collectAll := some false })
  | .maxDepth => do
      let n ← integerValue flag value
      return p.overriding fun o => { o with maxCallDepth := some n }
  | .maxErrors => do
      let n ← integerValue flag value
      return p.overriding fun o => { o with maxErrors := some n }
  | .color =>
      match ColorMode.ofWord? value with
      | some mode => .ok (p.overriding fun o => { o with color := some mode })
      | none => .error (.invalidChoice flag value (ColorMode.all.map (·.word)))

/-- Take back what earlier uses of a flag have set. -/
def Progress.withdraw (p : Progress) (flag : Flag) : Progress :=
  p.overriding fun o =>
    match flag with
    | .maxDepth => { o with maxCallDepth := none }
    | .maxErrors => { o with maxErrors := none }
    | .color => { o with color := none }
    | .catchErrors => { o with catchFaults := none }
    | .firstErrorOnly => { o with collectAll := none }
    | .help | .verbose | .logFile => o

/-- Take account of an operand: the first one is the script. -/
def Progress.takeOperand (p : Progress) (argument : String) : Progress :=
  if p.scriptRead then
    { p with unrecognized := p.unrecognized ++ [argument] }
  else
    { p with arguments := { p.arguments with script := some argument }, scriptRead := true }

/-- Flags of one letter may share a dash: read the letters after `flag`, which takes no value. -/
def takeLetters (flag : Flag) : List Char → Progress → Except UsageError Progress
  | [], p => p.take flag ""
  | c :: rest, p =>
      match Flag.spellings.lookup (String.ofList ['-', c]) with
      | some next => do takeLetters next rest (← p.take flag "")
      | none => .error (.ignoredValue flag (String.ofList (c :: rest)))

/-- Take account of a flag with a value attached to it. The mark that ends the flags is no value;
a flag that takes one then counts as not used. -/
def takeAttached
    (spelling : String)
    (flag : Flag)
    (value : String)
    (p : Progress) :
    Except UsageError Progress :=
  if flag.takesValue then
    if value = endMark then .ok (p.withdraw flag) else p.take flag value
  else if spelling.startsWith "--" || value = "" then
    .error (.ignoredValue flag value)
  else
    takeLetters flag value.toList p

/-- Read classified arguments in order. The mark that ends the flags belongs to the script if it
stands beside it. -/
def interpret : List (String × Shape) → Progress → Except UsageError Progress
  | [], p => .ok p
  | (argument, .operand) :: (mark, .endOfFlags) :: rest, p =>
      if p.scriptRead then
        interpret rest { p with unrecognized := p.unrecognized ++ [argument, mark] }
      else
        interpret rest (p.takeOperand argument)
  | (argument, .operand) :: rest, p => interpret rest (p.takeOperand argument)
  | (argument, .unknown) :: rest, p =>
      interpret rest { p with unrecognized := p.unrecognized ++ [argument] }
  | (mark, .endOfFlags) :: rest, p =>
      if p.scriptRead then
        interpret rest { p with unrecognized := p.unrecognized ++ [mark] }
      else
        interpret rest p
  | (_, .flag spelling flag (some value)) :: rest, p => do
      interpret rest (← takeAttached spelling flag value p)
  | (_, .flag _ flag none) :: rest, p =>
      if flag.takesValue then
        match rest with
        | (value, .operand) :: rest => do interpret rest (← p.take flag value)
        | _ => .error (.missingValue flag)
      else do
        interpret rest (← p.take flag "")

/-- What the arguments ask for. -/
def Arguments.read (argv : List String) : Except UsageError Arguments := do
  let p ← interpret (← classifyAll argv) Progress.start
  if p.unrecognized.isEmpty then
    return p.arguments
  else
    throw (.unrecognized p.unrecognized)

end Interpretation

end Lox.CommandLine
