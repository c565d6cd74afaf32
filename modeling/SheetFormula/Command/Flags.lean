import SheetFormula.Command.Config
import SheetFormula.Text.Distance

/-!
# Flags

A command line is flags and arguments in any order.  A flag is written `--name value` or
`--name=value`; a switch needs no value, and `--` ends the flags.
-/

namespace SheetFormula

/-- The commands. -/
inductive Command
  | parse
  | expression
  | references
deriving DecidableEq

namespace Command

/-- All commands. -/
def all : List Command := [parse, expression, references]

/-- What a command is called. -/
def name : Command → String
  | parse => "parse"
  | expression => "expression"
  | references => "references"

/-- The command with the given name. -/
def ofName? (name : Text) : Option Command := all.find? fun c => name = c.name

/-- The names that are suggested for a word that is none: those of the commands, and the one that
command shells ask for how to complete a line. -/
def suggested : List String := all.map name ++ ["completion"]

/-- Whether a word may be meant for a name: up to case, the name starts with it or is at most two
edits away. -/
def resembles (word : Text) (name : String) : Bool :=
  let typed := (Text.ofChars (word.chars.map lowerChar)).bytes
  let name := (Text.ofString name).bytes
  typed.isPrefixOf name || editDistance typed name ≤ 2

end Command

/-- The flags. -/
inductive Flag
  | numberKind
  | twoDigitYear
  | defaultYear
  | valueSeparator
  | decimalSeparator
  | logLevel
  | parser
  | stdin
deriving DecidableEq

namespace Flag

/-- All flags. -/
def all : List Flag :=
  [numberKind, twoDigitYear, defaultYear, valueSeparator, decimalSeparator, logLevel, parser, stdin]

/-- What a flag is called. -/
def name : Flag → String
  | numberKind => "number-kind"
  | twoDigitYear => "two-digit-year"
  | defaultYear => "default-year"
  | valueSeparator => "value-separator"
  | decimalSeparator => "decimal-separator"
  | logLevel => "log-level"
  | parser => "parser"
  | stdin => "stdin"

/-- Whether a command has a flag.  Without a command there are the flags that all commands share. -/
def isOf (command? : Option Command) : Flag → Bool
  | parser | stdin => command? = some .parse
  | _ => true

/-- The flag of a command with the given name. -/
def ofName? (command? : Option Command) (name : Text) : Option Flag :=
  all.find? fun f => f.isOf command? && name == .ofString f.name

/-- Whether a flag needs no value. -/
def isSwitch : Flag → Bool
  | stdin => true
  | _ => false

end Flag

/-- What the flags of a command line say. -/
structure Options where
  numberKind : Text
  twoDigitYear : Int
  defaultYear : Int
  valueSeparator : Text
  decimalSeparator : Text
  logLevel : Text
  parser : Text := "value-or-expression"
  stdin : Bool := false

/-- The options of a command line without flags. -/
def Options.ofConfig (c : Config) : Options where
  numberKind := c.numberKind.name
  twoDigitYear := c.twoDigitYear
  defaultYear := c.defaultYear
  valueSeparator := .ofChars [c.valueSeparator]
  decimalSeparator := .ofChars [c.decimalSeparator]
  logLevel := c.logLevel

/-- Why a command line is refused. -/
inductive UsageError
  | unknownCommand (name : Text)
  | badSyntax (arg : Text)
  | unknownFlag (name : Text)
  | unknownShorthand (arg : Text)
  | missingValue (arg : Text)
  | badInteger (flag : Flag) (value : Text) (fault : IntegerFault)
  | badBoolean (flag : Flag) (value : Text)
  | wantsOne (actual : Nat)
  | wantsAtMostOne (actual : Nat)

namespace UsageError

/-- How the refusal of a flag's value is told. -/
def invalidValue (flag : Flag) (value reason : Text) : Text :=
  .join ["invalid argument ", value.quoted, " for \"--" ++ flag.name ++ "\" flag: ", reason]

/-- The names that a word may be meant for, if there are any. -/
def suggestion (word : Text) : Text :=
  match Command.suggested.filter (Command.resembles word) with
  | [] => .empty
  | names =>
    .join ("\n\nDid you mean this?\n" :: names.map fun name => .ofString ("\t" ++ name ++ "\n"))

/-- How a refusal is told. -/
def message : UsageError → Text
  | unknownCommand name =>
    .join ["unknown command ", name.quoted, " for \"formula\"", suggestion name]
  | badSyntax arg => .join ["bad flag syntax: ", arg]
  | unknownFlag name => .join ["unknown flag: --", name]
  | unknownShorthand arg =>
    let letters := arg.bytes.drop 1
    .join ["unknown shorthand flag: ", quotedChar (Char.ofNat ((letters.headD 0).toNat)), " in -",
      ⟨letters⟩]
  | missingValue arg => .join ["flag needs an argument: ", arg]
  | badInteger flag value fault => invalidValue flag value (fault.message "ParseInt" value)
  | badBoolean flag value =>
    invalidValue flag value (IntegerFault.malformed.message "ParseBool" value)
  | wantsOne actual => .join ["accepts 1 arg(s), received ", .ofNat actual]
  | wantsAtMostOne actual => .join ["accepts at most 1 arg(s), received ", .ofNat actual]

end UsageError

/-- The boolean that a word stands for. -/
def booleanOf? (word : Text) : Option Bool :=
  if (["1", "t", "T", "TRUE", "true", "True"] : List Text).contains word then some true
  else if (["0", "f", "F", "FALSE", "false", "False"] : List Text).contains word then some false
  else none

namespace Options

/-- Sets an integer option. -/
def readInteger (flag : Flag) (value : Text) : Except UsageError Int :=
  match readMarkedInteger 64 value.chars with
  | .ok n => .ok n
  | .error fault => .error (.badInteger flag value fault)

/-- Sets the option of a flag. -/
def set (o : Options) (flag : Flag) (value : Text) : Except UsageError Options :=
  match flag with
  | .numberKind => .ok { o with numberKind := value }
  | .twoDigitYear => do
    let n ← readInteger flag value
    return { o with twoDigitYear := n }
  | .defaultYear => do
    let n ← readInteger flag value
    return { o with defaultYear := n }
  | .valueSeparator => .ok { o with valueSeparator := value }
  | .decimalSeparator => .ok { o with decimalSeparator := value }
  | .logLevel => .ok { o with logLevel := value }
  | .parser => .ok { o with parser := value }
  | .stdin =>
    match booleanOf? value with
    | some b => .ok { o with stdin := b }
    | none => .error (.badBoolean flag value)

end Options

/-! ### Reading a command line -/

/-- The byte of a dash. -/
def dash : UInt8 := 45

/-- The byte of an equals sign. -/
def equalsSign : UInt8 := 61

/-- Whether an argument starts with a dash. -/
def startsWithDash (arg : Text) : Bool := arg.bytes.head? == some dash

/-- Whether an argument that names a flag takes the next argument as its value.  Only the flags that
all commands share are known at this point, and a flag that is not known is taken to have a value.
-/
def takesNext (arg : Text) : Bool :=
  match arg.bytes with
  | d :: e :: name =>
    if d = dash ∧ e = dash then
      !name.contains equalsSign && ((Flag.ofName? none ⟨name⟩).map (!·.isSwitch)).getD true
    else d = dash && name.isEmpty && e != equalsSign
  | _ => false

/-- The first argument that is neither a flag nor the value of one. -/
def firstWord? : List Text → Option Text
  | [] => none
  | arg :: rest =>
    if arg = "--" then none
    else if takesNext arg then
      match rest with
      | _ :: next :: rest => firstWord? (next :: rest)
      | _ => none
    else if !arg.isEmpty && !startsWithDash arg then some arg
    else firstWord? rest

/-- The arguments without the first that is `word` and neither a flag nor the value of one. -/
def withoutFirst (word : Text) : List Text → List Text
  | [] => []
  | arg :: rest =>
    if arg = "--" then arg :: rest
    else if takesNext arg then
      match rest with
      | value :: rest => arg :: value :: withoutFirst word rest
      | [] => [arg]
    else if !startsWithDash arg && arg == word then rest
    else arg :: withoutFirst word rest

/-- The name of a flag and the value written behind an equals sign. -/
def splitFlag (body : List UInt8) : Text × Option Text :=
  match body.dropWhile (· != equalsSign) with
  | [] => (⟨body⟩, none)
  | _ :: value => (⟨body.takeWhile (· != equalsSign)⟩, some ⟨value⟩)

/-- Whether an argument is a flag of the test tools, which is passed over. -/
def isTestFlag (arg : Text) : Bool := (Text.ofString "-test.").bytes.isPrefixOf arg.bytes

/-- Reads the flags and arguments of a command, or of a line without one; `args` holds the arguments
so far, last first. -/
def readFlags (command? : Option Command) (o : Options) (args : List Text) :
    List Text → Except UsageError (Options × List Text)
  | [] => .ok (o, args.reverse)
  | arg :: rest =>
    match arg.bytes with
    | d :: e :: body =>
      if d ≠ dash then readFlags command? o (arg :: args) rest
      else if e ≠ dash then
        if isTestFlag arg then readFlags command? o args rest else .error (.unknownShorthand arg)
      else if body.isEmpty then .ok (o, args.reverse ++ rest)
      else if body.head? = some dash ∨ body.head? = some equalsSign then .error (.badSyntax arg)
      else
        let (name, value?) := splitFlag body
        match Flag.ofName? command? name, value?, rest with
        | none, _, _ => .error (.unknownFlag name)
        | some flag, some value, rest => do
          let o ← o.set flag value
          readFlags command? o args rest
        | some flag, none, rest =>
          if flag.isSwitch then do
            let o ← o.set flag "true"
            readFlags command? o args rest
          else
            match rest with
            | value :: rest => do
              let o ← o.set flag value
              readFlags command? o args rest
            | [] => .error (.missingValue arg)
    | _ => readFlags command? o (arg :: args) rest

end SheetFormula
