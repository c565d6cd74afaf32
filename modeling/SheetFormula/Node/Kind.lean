import SheetFormula.Text.Basic

/-!
# The kinds of nodes

Every node of a parsed formula has a `Kind`.  Leaves are digits, components of dates and times,
symbols, whitespace, parts of references and literals; parents are operators, wrappers, references,
values and function calls.  Symbols and whitespace are *noise*: they belong to the text of a formula
but are no operands.

* `Component`, `Symbol`, `Comparison`, `Operator`, `Wrapper`: the families of kinds;
* `Kind`, its `name` and `position`, and the readers `Kind.ofName?` and `Kind.ofPosition?`.
-/

namespace SheetFormula

/-- The components of dates and times. -/
inductive Component
  | dayNumber
  | monthNumber
  | monthName
  | monthNameAbbreviation
  | monthNameInitial
  | dayName
  | dayNameAbbreviation
  | year
  | hour
  | minute
  | seconds
  /-- The fraction of a second, in nanoseconds. -/
  | fraction
  /-- Morning or afternoon, as the hours to add: 0 or 12. -/
  | meridiem
deriving DecidableEq

namespace Component

/-- All components, in the order of their kinds. -/
def all : List Component :=
  [dayNumber, monthNumber, monthName, monthNameAbbreviation, monthNameInitial, dayName,
    dayNameAbbreviation, year, hour, minute, seconds, fraction, meridiem]

/-- What a component is called. -/
def name : Component → String
  | dayNumber => "day-number"
  | monthNumber => "month-number"
  | monthName => "month-name"
  | monthNameAbbreviation => "month-name-abbreviation"
  | monthNameInitial => "month-name-initial"
  | dayName => "day-name"
  | dayNameAbbreviation => "day-name-abbreviation"
  | year => "year"
  | hour => "hour"
  | minute => "minute"
  | seconds => "seconds"
  | fraction => "millisecond"
  | meridiem => "am-pm"

end Component

/-- Punctuation and operator symbols. -/
inductive Symbol
  | plus
  | minus
  | multiply
  | divide
  | power
  | percent
  | equals
  | notEquals
  | greaterThan
  | greaterThanEquals
  | lessThan
  | lessThanEquals
  | parenthesisOpen
  | parenthesisClose
  | valueSeparator
  | between
  | decimalSeparator
  | exponent
  | doubleQuote
  | apostrophe
  | dateSeparator
  | timeSeparator
  | comma
deriving DecidableEq

namespace Symbol

/-- All symbols, in the order of their kinds. -/
def all : List Symbol :=
  [plus, minus, multiply, divide, power, percent, equals, notEquals, greaterThan,
    greaterThanEquals, lessThan, lessThanEquals, parenthesisOpen, parenthesisClose, valueSeparator,
    between, decimalSeparator, exponent, doubleQuote, apostrophe, dateSeparator, timeSeparator,
    comma]

/-- What a symbol is called. -/
def name : Symbol → String
  | plus => "plus-symbol"
  | minus => "minus-symbol"
  | multiply => "multiply-symbol"
  | divide => "divide-symbol"
  | power => "power-symbol"
  | percent => "percent-symbol"
  | equals => "equals-symbol"
  | notEquals => "not-equals-symbol"
  | greaterThan => "greater-than-symbol"
  | greaterThanEquals => "greater-than-equals-symbol"
  | lessThan => "less-than-symbol"
  | lessThanEquals => "less-than-equals-symbol"
  | parenthesisOpen => "parenthesis-open-symbol"
  | parenthesisClose => "parenthesis-close-symbol"
  | valueSeparator => "value-separator-symbol"
  | between => "between-symbol"
  | decimalSeparator => "decimal-separator-symbol"
  | exponent => "exponent-symbol"
  | doubleQuote => "double-quote-symbol"
  | apostrophe => "apostrophe-symbol"
  | dateSeparator => "date-separator-symbol"
  | timeSeparator => "time-separator-symbol"
  | comma => "comma-symbol"

end Symbol

/-- The comparisons. -/
inductive Comparison
  | equals
  | notEquals
  | greaterThan
  | greaterThanEquals
  | lessThan
  | lessThanEquals
deriving DecidableEq

namespace Comparison

/-- All comparisons, in the order of their kinds. -/
def all : List Comparison :=
  [equals, notEquals, greaterThan, greaterThanEquals, lessThan, lessThanEquals]

/-- What a comparison is called. -/
def name : Comparison → String
  | equals => "equals"
  | notEquals => "not-equals"
  | greaterThan => "greater-than"
  | greaterThanEquals => "greater-than-equals"
  | lessThan => "less-than"
  | lessThanEquals => "less-than-equals"

/-- The symbol of a comparison. -/
def symbol : Comparison → Symbol
  | equals => .equals
  | notEquals => .notEquals
  | greaterThan => .greaterThan
  | greaterThanEquals => .greaterThanEquals
  | lessThan => .lessThan
  | lessThanEquals => .lessThanEquals

/-- How a comparison is written. -/
def sign : Comparison → String
  | equals => "="
  | notEquals => "<>"
  | greaterThan => ">"
  | greaterThanEquals => ">="
  | lessThan => "<"
  | lessThanEquals => "<="

end Comparison

/-- The operators with two operands. -/
inductive Operator
  | addition
  | subtraction
  | multiplication
  | division
  | power
  | comparison (c : Comparison)
deriving DecidableEq

namespace Operator

/-- All operators, in the order of their kinds. -/
def all : List Operator :=
  [addition, subtraction, multiplication, division, power] ++ Comparison.all.map comparison

/-- What an operator is called. -/
def name : Operator → String
  | addition => "addition"
  | subtraction => "subtraction"
  | multiplication => "multiplication"
  | division => "division"
  | power => "power"
  | comparison c => c.name

/-- The symbol that joins the operands of an operator. -/
def symbol : Operator → Symbol
  | addition => .plus
  | subtraction => .minus
  | multiplication => .multiply
  | division => .divide
  | power => .power
  | comparison c => c.symbol

/-- How an operator is written. -/
def sign : Operator → String
  | addition => "+"
  | subtraction => "-"
  | multiplication => "*"
  | division => "/"
  | power => "^"
  | comparison c => c.sign

/-- The operator with the given symbol. -/
def ofSymbol? (s : Symbol) : Option Operator := all.find? (·.symbol = s)

end Operator

/-- The parents with one operand. -/
inductive Wrapper
  | negative
  | group
  | expression
deriving DecidableEq

namespace Wrapper

/-- All wrappers, in the order of their kinds. -/
def all : List Wrapper := [negative, group, expression]

/-- What a wrapper is called. -/
def name : Wrapper → String
  | negative => "negative"
  | group => "group"
  | expression => "expression"

end Wrapper

/-- The kind of a node. -/
inductive Kind
  /-- The kind of no node, which every unknown name stands for. -/
  | invalid
  | digits
  | component (c : Component)
  | symbol (s : Symbol)
  | whitespace
  | column
  | row
  | labelName
  | templateValueName
  | functionName
  | textLiteral
  | error
  | boolean
  | binary (op : Operator)
  | conditionRight (c : Comparison)
  | unary (w : Wrapper)
  | cell
  | cellRange
  | number
  | date
  | time
  | dateTime
  | text
  | namedFunction
  | lambda
  | functionParameters
deriving DecidableEq

namespace Kind

/-- All kinds, in the order of their numbers. -/
def all : List Kind :=
  [invalid, digits] ++ Component.all.map component ++ Symbol.all.map symbol ++
    [whitespace, column, row, labelName, templateValueName, functionName, textLiteral, error,
      boolean] ++
    Operator.all.map binary ++ Comparison.all.map conditionRight ++ Wrapper.all.map unary ++
    [cell, cellRange, number, date, time, dateTime, text, namedFunction, lambda,
      functionParameters]

/-- What a kind is called. -/
def name : Kind → String
  | invalid => "invalid"
  | digits => "digits"
  | component c => c.name
  | symbol s => s.name
  | whitespace => "whitespace"
  | column => "column"
  | row => "row"
  | labelName => "label-name"
  | templateValueName => "template-value-name"
  | functionName => "function-name"
  | textLiteral => "text-literal"
  | error => "error"
  | boolean => "boolean"
  | binary op => op.name
  | conditionRight c => "condition-right-" ++ c.name
  | unary w => w.name
  | cell => "cell"
  | cellRange => "cell-range"
  | number => "number"
  | date => "date"
  | time => "time"
  | dateTime => "date-time"
  | text => "text"
  | namedFunction => "named-function"
  | lambda => "lambda-function"
  | functionParameters => "function-parameters"

/-- The position of a kind among all kinds. -/
def position (k : Kind) : Nat := all.idxOf k

/-- The kind at a position. -/
def ofPosition? (n : Nat) : Option Kind := all[n]?

/-- What the kind at a position is called, if there is one. -/
def nameOfPosition (n : Nat) : String :=
  match ofPosition? n with
  | some k => k.name
  | none => "Kind(" ++ String.ofList (Nat.toDigits 10 n) ++ ")"

/-- The kind of nodes with the given name. -/
def ofName? (name : String) : Option Kind := all.tail.find? (·.name = name)

/-- Every kind of nodes is read back from its name. -/
theorem ofName?_name (k : Kind) (h : k ≠ invalid) : ofName? k.name = some k := by
  cases k with
  | component c => cases c <;> rfl
  | symbol s => cases s <;> rfl
  | binary op => cases op with
    | comparison c => cases c <;> rfl
    | _ => rfl
  | conditionRight c => cases c <;> rfl
  | unary w => cases w <;> rfl
  | invalid => exact absurd rfl h
  | _ => rfl

/-- Whether the kind is punctuation or an operator symbol. -/
def isSymbol : Kind → Bool
  | symbol _ => true
  | _ => false

/-- Whether nodes of the kind are left out of the operands of a parent. -/
def isNoise : Kind → Bool
  | symbol _ => true
  | whitespace => true
  | _ => false

/-- Whether the kind is one with two operands. -/
def isBinary : Kind → Bool
  | binary _ => true
  | _ => false

/-- Whether the kind is a comparison without its left operand. -/
def isConditionRight : Kind → Bool
  | conditionRight _ => true
  | _ => false

/-- Whether the kind is a wrapper of one operand. -/
def isUnary : Kind → Bool
  | unary _ => true
  | _ => false

/-- Whether the kind is one of leaves. -/
def isLeaf : Kind → Bool
  | digits | component _ | symbol _ | whitespace | column | row | labelName | templateValueName
  | functionName | textLiteral | error | boolean => true
  | _ => false

end Kind

end SheetFormula
