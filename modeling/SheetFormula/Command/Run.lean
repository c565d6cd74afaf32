import SheetFormula.Command.Flags
import SheetFormula.Command.LogLevel
import SheetFormula.Formula.Table

/-!
# Commands

`parse` shows the tree of a formula, or with `--stdin` which lines of the input share a formula;
`expression` shows the expression of a formula, and `references` what it refers to.  `runCommand`
is a whole command line, from its arguments and input to what it prints and how it fails.
-/

namespace SheetFormula

/-- What a command printed, and the message it failed with. -/
structure Report where
  output : Text := .empty
  failure? : Option Text := none

/-- Why a command fails before it does anything. -/
inductive SetupError
  | numberKind (name : Text)
  | separator (flag : Flag) (value : Text)
  | logLevel (text : Text) (fault : LogLevel.Fault)
  | clash (error : Config.SeparatorClash)

/-- How a failure is told. -/
def SetupError.message : SetupError → Text
  | numberKind name =>
    .join ["unknown number kind ", name.quoted,
      ", expected " ++ NumberKind.decimal.name ++ " or " ++ NumberKind.double.name]
  | separator flag value =>
    .join ["--" ++ flag.name ++ " must be a single character but got ", value.quoted]
  | logLevel text fault => .join ["invalid log level ", text.quoted, ": ", fault.message]
  | clash error => error.message

namespace Options

/-- The separator that a flag gives. -/
def separator (flag : Flag) (value : Text) : Except SetupError Char :=
  match singleChar? value with
  | some c => .ok c
  | none => .error (.separator flag value)

/-- The configuration that the options ask for. -/
def config (o : Options) : Except SetupError Config := do
  let kind ←
    match NumberKind.ofName? o.numberKind with
    | some kind => pure kind
    | none => throw (.numberKind o.numberKind)
  let value ← separator .valueSeparator o.valueSeparator
  let decimal ← separator .decimalSeparator o.decimalSeparator
  let _ ← (LogLevel.parse o.logLevel).mapError (.logLevel o.logLevel)
  return ⟨kind, o.twoDigitYear, o.defaultYear, value, decimal, o.logLevel⟩

/-- The grammar and the settings that the options ask for. -/
def setup (o : Options) (today : Date) : Except SetupError (Grammar × Settings) := do
  let c ← o.config
  let locale ← c.locale.mapError .clash
  return (.ofLocale locale, c.settings today)

end Options

/-- The failure of a formula with an error. -/
def Formula.failure? (f : Formula) : Option Text :=
  f.error?.map fun e => .join [e.code.text, " ", e.message]

/-! ### Parsing -/

/-- The largest number of bytes of a line of the input, which no line reaches. -/
def lineLimit : Nat := 65536

/-- The lines of an input, without the carriage return before a line feed.  Nothing behind the last
line feed is no line. -/
def linesOf (input : Text) : List Text :=
  let parts := input.bytes.splitOn 10
  let parts := if parts.getLast? = some [] then parts.dropLast else parts
  parts.map Text.mk

/-- A line without a carriage return at its end. -/
def dropReturn (line : Text) : Text :=
  if line.bytes.getLast? = some 13 then ⟨line.bytes.dropLast⟩ else line

/-- How a line of the input is reported. -/
def lineReport (cell : Cell) (id : FormulaId) (f : Formula) : Text :=
  let error : List Text :=
    match f.error? with
    | some e => ["\t", e.code.text, " ", e.message]
    | none => []
  .join ([cell.text, "\t", .ofNat id.toNat, "\t", f.fullText] ++ error ++ [.ofString "\n"])

/-- Puts lines into the cells of the first column, from row `row` on; `printed` holds what was
printed, last first. -/
def parseLines (g : Grammar) (p : Parser) (t : Table) (row : Nat) (printed : List Text) :
    List Text → Report
  | [] =>
    ⟨.join (printed.reverse ++ [.ofNat t.size, .ofString " distinct formulas\n"]), none⟩
  | line :: rest =>
    if lineLimit ≤ line.size then
      ⟨.join printed.reverse, some "failed to read formulas: bufio.Scanner: token too long"⟩
    else
      match Column.ofInt 1 false, Row.ofInt row false with
      | .ok column, .ok row' =>
        let f := Formula.parse g p (dropReturn line)
        let (id, t) := t.intern f ⟨column, row'⟩
        parseLines g p t (row + 1) (lineReport ⟨column, row'⟩ id f :: printed) rest
      | .error e, _ => ⟨.join printed.reverse, some e.message⟩
      | _, .error e => ⟨.join printed.reverse, some e.message⟩

/-- Shows the document of a formula. -/
def showDocument (f : Formula) : Report :=
  match f.encode with
  | .ok document => ⟨document.indented ++ .ofString "\n", f.failure?⟩
  | .error e => ⟨.empty, some (.join ["<json>: ", e.message])⟩

/-- The failure of a name that is no parser's. -/
def unknownParser (name : Text) : Text :=
  .join ["unknown parser ", name.quoted, ", expected one of ",
    .intercalate ", " (Parser.all.map fun p => p.name)]

/-- The `parse` command. -/
def runParse (g : Grammar) (o : Options) (args : List Text) (input : Text) : Report :=
  match Parser.ofName? o.parser with
  | none => ⟨.empty, some (unknownParser o.parser)⟩
  | some p =>
    if o.stdin then parseLines g p .empty 1 [] (linesOf input)
    else
      match args with
      | [text] => showDocument (.parse g p text)
      | _ => ⟨.empty, some "expected formula text or --stdin"⟩

/-! ### Expressions and references -/

/-- The `expression` command. -/
def runExpression (g : Grammar) (s : Settings) (text : Text) : Report :=
  let f := Formula.parse g .valueOrExpression text
  match f.failure? with
  | some failure => ⟨.empty, some failure⟩
  | none =>
    match f.toExpression s with
    | .error e => ⟨.empty, some e.message⟩
    | .ok f =>
      match f.failure?, f.expression? with
      | some failure, _ => ⟨.empty, some failure⟩
      | none, none => {}
      | none, some e => ⟨e.text ++ .ofString "\n", none⟩

/-- The `references` command. -/
def runReferences (g : Grammar) (text : Text) : Report :=
  let f := Formula.parse g .valueOrExpression text
  match f.failure?, f.token? with
  | some failure, _ => ⟨.empty, some failure⟩
  | none, none => {}
  | none, some token =>
    ⟨.join (token.references.map fun r => .join [r.sort, "\t", r.text, "\n"]), none⟩

/-! ### Command lines -/

/-- Checks the number of arguments. -/
def checkArguments (command : Command) (args : List Text) : Except UsageError Unit :=
  match command with
  | .parse => if 1 < args.length then .error (.wantsAtMostOne args.length) else .ok ()
  | _ => if args.length ≠ 1 then .error (.wantsOne args.length) else .ok ()

/-- The command, options and arguments of a command line; nothing when it has no command. -/
def readCommandLine (config : Config) (args : List Text) :
    Except UsageError (Option (Command × Options × List Text)) :=
  match firstWord? args with
  | none => do
    let _ ← readFlags none (.ofConfig config) [] args
    return none
  | some word =>
    match Command.ofName? word with
    | none => .error (.unknownCommand word)
    | some command => do
      let (o, args) ← readFlags (some command) (.ofConfig config) [] (withoutFirst word args)
      checkArguments command args
      return some (command, o, args)

/-- Whether a command line reads the input. -/
def readsInput (config : Config) (args : List Text) : Bool :=
  match readCommandLine config args with
  | .ok (some (_, o, _)) => o.stdin
  | _ => false

/-- Runs a command line. -/
def runCommand (config : Config) (today : Date) (args : List Text) (input : Text) : Report :=
  match readCommandLine config args with
  | .error e => ⟨.empty, some e.message⟩
  | .ok none => {}
  | .ok (some (command, o, args)) =>
    match o.setup today with
    | .error e => ⟨.empty, some e.message⟩
    | .ok (g, s) =>
      match command with
      | .parse => runParse g o args input
      | .expression => runExpression g s (args.headD .empty)
      | .references => runReferences g (args.headD .empty)

end SheetFormula
