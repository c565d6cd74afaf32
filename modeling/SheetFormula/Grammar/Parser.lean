import SheetFormula.Grammar.Expressions

/-!
# Parsers

The rules that a text can be parsed with have names.  `Grammar.parse` wants a rule to read the whole
text and `Grammar.parsePrefix` only its beginning; both give one node.
-/

namespace SheetFormula

/-- The rules that a text can be parsed with. -/
inductive Parser
  | apostropheText
  | boolean
  | cell
  | cellRange
  | column
  | conditionRight
  | date
  | dateTime
  | error
  | expression
  | functionName
  | label
  | lambda
  | namedFunction
  | number
  | row
  | templateValueName
  | text
  | time
  | valueOrExpression
deriving DecidableEq

namespace Parser

/-- All parsers, in the order of their names. -/
def all : List Parser :=
  [apostropheText, boolean, cell, cellRange, column, conditionRight, date, dateTime, error,
    expression, functionName, label, lambda, namedFunction, number, row, templateValueName, text,
    time, valueOrExpression]

/-- What a parser is called. -/
def name : Parser → String
  | apostropheText => "apostrophe-text"
  | boolean => "boolean"
  | cell => "cell"
  | cellRange => "cell-range"
  | column => "column"
  | conditionRight => "condition-right"
  | date => "date"
  | dateTime => "date-time"
  | error => "error"
  | expression => "expression"
  | functionName => "function-name"
  | label => "label"
  | lambda => "lambda-function"
  | namedFunction => "named-function"
  | number => "number"
  | row => "row"
  | templateValueName => "template-value-name"
  | text => "text"
  | time => "time"
  | valueOrExpression => "value-or-expression"

/-- The parser with the given name. -/
def ofName? (name : Text) : Option Parser := all.find? fun p => name = p.name

/-- The rule of a parser.  A number parsed by itself may have a sign. -/
def rule (g : Grammar) : Parser → Rule
  | apostropheText => Rule.apostropheText
  | boolean => Rule.boolean
  | cell => Rule.cell
  | cellRange => Rule.cellRange
  | column => Rule.column
  | conditionRight => Rule.conditionRight g
  | date => Rule.date g
  | dateTime => Rule.dateTime g
  | error => Rule.errorLiteral
  | expression => Rule.expression g
  | functionName => Rule.functionName
  | label => Rule.label
  | lambda => Rule.lambda g
  | namedFunction => Rule.namedFunction g
  | number => Rule.number g true
  | row => Rule.row
  | templateValueName => Rule.templateValueName
  | text => Rule.quotedText
  | time => Rule.time g
  | valueOrExpression => Rule.valueOrExpression g

end Parser

namespace Grammar

/-- Parses a text, all of it when `whole`, and tells how far the rule got. -/
def run (g : Grammar) (p : Parser) (text : Text) (whole : Bool) : Except Failure Node × Nat :=
  let runes := text.runes
  if maxFormulaLength < runes.length then
    (.error (.parse ⟨maxFormulaLength, .tooLong runes.length⟩), 0)
  else
    match p.rule g ⟨0, runes⟩ with
    | (.failed failure, c) => (.error failure, c.pos)
    | (.absent, c) => (.error (.parse (.unexpectedAt c)), c.pos)
    | (.found nodes, c) =>
      if whole && !c.atEnd then (.error (.parse (.unexpectedAt c)), c.pos)
      else
        match nodes with
        | [n] => (.ok n, c.pos)
        | _ => (.error (.nodeCount p.name nodes.length), c.pos)

/-- Parses a whole text. -/
def parse (g : Grammar) (p : Parser) (text : Text) : Except Failure Node := (g.run p text true).1

/-- Parses the beginning of a text, and tells how many runes that took. -/
def parsePrefix (g : Grammar) (p : Parser) (text : Text) : Except Failure Node × Nat :=
  g.run p text false

end Grammar

/-- One line of a log: the fields in order, by name. -/
abbrev LogEntry := List (String × Text)

/-- What is logged about a parse that failed; a text that is too long is left out. -/
def Failure.logEntry (failure : Failure) (p : Parser) (text : Text) : LogEntry :=
  let subject : LogEntry :=
    match failure with
    | .parse ⟨_, .tooLong _⟩ => []
    | _ => [("text", text.scrub)]
  [("level", .ofString "debug"), ("parser", .ofString p.name)] ++ subject ++
    [("error", failure.message.scrub), ("message", .ofString "parse failed")]

end SheetFormula
