import SheetFormula.Expression.Basic
import SheetFormula.Grammar.Parser
import SheetFormula.Node.Build

/-!
# Building expressions from nodes

`Node.toExpression` goes through a tree once.  Entering a node opens a list for the expressions of
its children, and leaving it closes the list and adds what the node makes of it to the list of the
node around it.  The first error stops all building, but the lists still close.

`Settings` decide what numbers become and which year and month a date has that does not say.
-/

namespace SheetFormula

/-- How numbers are represented in expressions. -/
inductive NumberKind
  | decimal
  | double
deriving DecidableEq

namespace NumberKind

/-- What a number kind is called. -/
def name : NumberKind → String
  | decimal => "big-decimal"
  | double => "float64"

/-- The number kinds, in the order of their numbers. -/
def all : List NumberKind := [decimal, double]

/-- The number kind with the given name. -/
def ofName? (name : Text) : Option NumberKind := all.find? fun k => name = k.name

/-- What the number kind with a number is called. -/
def nameOfPosition (n : Nat) : String :=
  match all[n]? with
  | some k => k.name
  | none => "unknown"

/-- The number of a number kind. -/
def position (k : NumberKind) : Nat := all.idxOf k

end NumberKind

/-- What building expressions depends on. -/
structure Settings where
  numberKind : NumberKind := .decimal
  /-- Years of one or two digits below this one belong to 2000, the others to 1900. -/
  twoDigitYear : Int := 20
  /-- The year of dates without one; 0 is the current year. -/
  defaultYear : Int := 0
  /-- The month of dates without one; 0 is the current month. -/
  defaultMonth : Int := 0
  today : Date
  /-- The number of digits that decimals are rounded to, if they are. -/
  precision? : Option Nat := some 34

namespace Settings

/-- The year of dates without one. -/
def fallbackYear (s : Settings) : Int := if s.defaultYear ≠ 0 then s.defaultYear else s.today.year

/-- The month of dates without one. -/
def fallbackMonth (s : Settings) : Int :=
  if s.defaultMonth ≠ 0 then s.defaultMonth else s.today.month

/-- The full year of a year of one or two digits. -/
def expandYear (s : Settings) (year : Int) : Int :=
  if year < s.twoDigitYear then 2000 + year else 1900 + year

/-- The year of a date. -/
def yearOf (s : Settings) (parts : DateParts) : Int :=
  if parts.yearDigits = 0 then s.fallbackYear
  else if parts.yearDigits ≤ 2 then s.expandYear parts.year
  else parts.year

/-- The date that was written, with the missing parts filled in. -/
def dateOf (s : Settings) (parts : DateParts) : Date where
  year := s.yearOf parts
  month := if parts.month = 0 then s.fallbackMonth else parts.month
  day := if parts.day = 0 then 1 else parts.day

end Settings

/-- Why no expression is built. -/
inductive BuildError
  | absentNode
  | conditionAlone (kind : Kind) (text : Text)
  | count (kind : Kind) (text : Text) (expected actual : Nat)
  | unbalanced (levels : Nat)
  | resultCount (kind : Kind) (actual : Nat)
  /-- The tree is in order, but a value in it does not exist. -/
  | value (error : CellError)
deriving DecidableEq

/-- How an error is told. -/
def BuildError.message : BuildError → Text
  | absentNode => "nil node"
  | conditionAlone kind text =>
    .join [kind.name ++ " ", text.quoted, " must be combined with a left operand"]
  | count kind text expected actual =>
    .join [kind.name ++ " ", text.quoted, ": expected ", .ofNat expected, " expressions but got ",
      .ofNat actual]
  | unbalanced levels => .join ["unbalanced expression stack ", .ofNat levels]
  | resultCount kind actual =>
    .join [kind.name, ": expected 0 or 1 expressions but got ", .ofNat actual]
  | value error => error.shown

/-- The code of an error of the application; that of a value has none. -/
def BuildError.applicationCode? : BuildError → Option ApplicationCode
  | absentNode | conditionAlone _ _ => some .invalidArgument
  | count _ _ _ _ | unbalanced _ | resultCount _ _ => some .internal
  | value _ => none

namespace Settings

/-- The error of a number that cannot be represented. -/
def numberError (text : Text) (reason : Text) : BuildError :=
  .value ⟨.num, .join ["Invalid number ", text.quoted, ": ", reason]⟩

/-- The value of a number, written as `text`. -/
def numberValue (s : Settings) (text : Text) (d : Decimal) : Except BuildError Value :=
  match s.numberKind with
  | .double =>
    match Double.ofDecimal? d with
    | some x => .ok (.double x)
    | none =>
      .error (numberError text (IntegerFault.outOfRange.message "ParseFloat" d.scientific))
  | .decimal =>
    match s.precision? with
    | none => .ok (.decimal d)
    | some precision =>
      match d.round precision with
      | .ok d => .ok (.decimal d)
      | .error fault => .error (numberError text fault.message)

/-- The value of a date, written as `text`. -/
def dateValue (s : Settings) (text : Text) (parts : DateParts) : Except BuildError Date :=
  let date := s.dateOf parts
  if date.isReal then .ok date
  else .error (.value (.of .value (.join ["Invalid date ", text.quoted, ": ", date.text])))

/-- The value of a date and time. -/
def dateTimeValue (s : Settings) (n : Node) : Except BuildError Value := do
  let date ←
    match n.dateHalf? with
    | some (.parent (.date parts) children) =>
      s.dateValue (Node.parent (.date parts) children).text parts
    | _ => pure ⟨s.fallbackYear, s.fallbackMonth, 1⟩
  let time :=
    match n.timeHalf? with
    | some (.parent (.time time) _) => time
    | _ => .midnight
  return .dateTime date time

/-- What a leaf makes. -/
def buildLeaf : Content → List Expression
  | .error code => [.value (.error (.of code .empty))]
  | .label name => [.reference (.label name)]
  | .template name => [.reference (.template name)]
  | .boolean b => [.value (.boolean b)]
  | _ => []

/-- The number of arguments that a lambda function declares. -/
def declaredCount (lambda : Node) : Nat :=
  match lambda.operands with
  | _ :: declared :: _ => declared.operands.length
  | _ => 0

/-- What a node makes of the expressions of its children. -/
def buildNode (s : Settings) (n : Node) (results : List Expression) :
    Except BuildError (List Expression) :=
  match n with
  | .leaf content _ => .ok (buildLeaf content)
  | .parent form _ =>
    match form with
    | .binary op =>
      match results with
      | [left, right] => .ok [.binary (.listed op) left right]
      | _ => .error (.count n.kind n.text 2 results.length)
    | .unary wrapper =>
      match results with
      | [operand] => .ok [if wrapper = .negative then .negative operand else operand]
      | _ => .error (.count n.kind n.text 1 results.length)
    | .conditionRight _ => .error (.conditionAlone n.kind n.text)
    | .cell ref => .ok [.reference (.cell ref)]
    | .cellRange ref => .ok [.reference (.range ref)]
    | .number d => do
      let value ← s.numberValue n.text d
      return [.value value]
    | .date parts => do
      let date ← s.dateValue n.text parts
      return [.value (.date date)]
    | .time time => .ok [.value (.time time)]
    | .dateTime => do
      let value ← s.dateTimeValue n
      return [.value value]
    | .text value => .ok [.value (.text value)]
    | .functionParameters => .ok results
    | .namedFunction name => .ok [.call (.function name) results]
    | .lambda name =>
      let declared := declaredCount n
      if results.length < declared then .error (.count n.kind n.text declared results.length)
      else .ok [.call (.call (.function name) (results.take declared)) (results.drop declared)]

end Settings

/-- The lists of expressions that are open, innermost first, and the first error. -/
structure Construction where
  levels : List (List Expression)
  error? : Option BuildError

namespace Construction

/-- Opens a list, unless there is an error. -/
def enter (c : Construction) (_ : Node) : Bool × Construction :=
  if c.error?.isSome then (false, c) else (true, { c with levels := [] :: c.levels })

/-- Closes a list and adds what the node makes of it to the list around it. -/
def leave (s : Settings) (c : Construction) (n : Node) : Construction :=
  match c.levels with
  | [] => c
  | results :: outer =>
    if c.error?.isSome then { c with levels := outer }
    else
      match s.buildNode n results with
      | .error e => ⟨outer, some e⟩
      | .ok built =>
        match outer with
        | around :: more => ⟨(around ++ built) :: more, none⟩
        | [] => ⟨[], none⟩

/-- The visitor that builds expressions. -/
def visitor (s : Settings) : Visitor Construction := ⟨enter, leave s⟩

end Construction

namespace Node

/-- The expression of a tree, if it holds anything that evaluates. -/
def toExpression (s : Settings) (n : Node) : Except BuildError (Option Expression) :=
  let c := n.walk (Construction.visitor s) ⟨[[]], none⟩
  match c.error?, c.levels with
  | some e, _ => .error e
  | none, [[]] => .ok none
  | none, [[e]] => .ok (some e)
  | none, [results] => .error (.resultCount n.kind results.length)
  | none, levels => .error (.unbalanced levels.length)

/-- What is logged about the building of an expression. -/
def expressionLog (n : Node) : Except BuildError (Option Expression) → List LogEntry
  | .ok none => []
  | .ok (some e) =>
    [[("level", .ofString "debug"), ("text", n.text.scrub), ("expression", e.text.scrub),
      ("message", .ofString "expression built")]]
  | .error (.unbalanced _) => []
  | .error (.resultCount _ _) => []
  | .error e =>
    [[("level", .ofString "debug"), ("text", n.text.scrub), ("error", e.message.scrub),
      ("message", .ofString "expression failed")]]

end Node

end SheetFormula
