import SheetFormula.Grammar.Dates
import SheetFormula.Grammar.Names
import SheetFormula.Node.Reduce

/-!
# Operands and expressions

An expression is operands joined by operators, and an operand may hold expressions again, in
parentheses or as the arguments of a function.  The rules of one level take the rule for the
operands of the next level as an argument; `operandIn` ties the knot for a bounded nesting.  Every
level of nesting consumes a rune, so the runes that are left bound the nesting.
-/

namespace SheetFormula.Rule

/-- The operators, two-character ones first. -/
def operator : Rule :=
  alternatives [
    symbol .lessThanEquals ['<', '='],
    symbol .greaterThanEquals ['>', '='],
    symbol .notEquals ['<', '>'],
    symbol .lessThan ['<'],
    symbol .greaterThan ['>'],
    symbol .equals ['='],
    symbol .plus ['+'],
    symbol .minus ['-'],
    symbol .multiply ['*'],
    symbol .divide ['/'],
    symbol .power ['^']]

/-- Operands joined by operators, as a flat run. -/
def concatenation (operand : Rule) : Rule :=
  sequence [operand,
    repeated (sequence [optionalWhitespace, operator, optionalWhitespace, required operand])]

/-- Operands joined by operators, as one tree. -/
def expressionOf (operand : Rule) : Rule := transform (concatenation operand) Node.reduce

/-- The arguments of a function between their separators. -/
def arguments (g : Grammar) (operand : Rule) : Rule :=
  sequence [expressionOf operand,
    repeated (sequence [optionalWhitespace, symbol .valueSeparator [g.locale.valueSeparator],
      optionalWhitespace, required (expressionOf operand)])]

/-- The arguments of a function in parentheses. -/
def parametersOf (g : Grammar) (operand : Rule) : Rule :=
  transform
    (sequence [symbol .parenthesisOpen ['('], optionalWhitespace, optional (arguments g operand),
      optionalWhitespace, required (symbol .parenthesisClose [')'])])
    Node.functionParameters

/-- The call of a function. -/
def namedFunctionOf (g : Grammar) (operand : Rule) : Rule :=
  transform (sequence [functionName, parametersOf g operand]) Node.namedFunction

/-- A lambda function together with the values it is called with. -/
def lambdaOf (g : Grammar) (operand : Rule) : Rule :=
  transform (sequence [lambdaName, parametersOf g operand, parametersOf g operand]) Node.lambda

/-- A minus sign before an operand. -/
def negativeOf (operand : Rule) : Rule :=
  transform (sequence [symbol .minus ['-'], optionalWhitespace, required operand])
    (Node.unary (.unary .negative))

/-- An expression in parentheses. -/
def groupOf (operand : Rule) : Rule :=
  transform
    (sequence [symbol .parenthesisOpen ['('], optionalWhitespace, required (expressionOf operand),
      optionalWhitespace, required (symbol .parenthesisClose [')'])])
    (Node.unary (.unary .group))

/-- An operand, given the rule for the operands inside it. -/
def operandOf (g : Grammar) (operand : Rule) : Rule :=
  alternatives [
    negativeOf operand,
    groupOf operand,
    quotedText,
    errorLiteral,
    number g false,
    lambdaOf g operand,
    namedFunctionOf g operand,
    boolean,
    cellRange,
    cell,
    label]

/-- An operand with less than `fuel` levels of operands inside it. -/
def operandIn (g : Grammar) : (fuel : Nat) → Rule
  | 0, c => (.failed .endless, c)
  | fuel + 1, c => operandOf g (fun inner => operandIn g fuel inner) c

/-- An operand. -/
def operand (g : Grammar) : Rule := fun c => operandIn g (c.rest.length + 1) c

/-- Operands joined by operators. -/
def expression (g : Grammar) : Rule := expressionOf (operand g)

/-- The call of a function. -/
def namedFunction (g : Grammar) : Rule := namedFunctionOf g (operand g)

/-- A lambda function together with the values it is called with. -/
def lambda (g : Grammar) : Rule := lambdaOf g (operand g)

/-- A comparison of the given sort without its left operand. -/
def conditionOf (g : Grammar) (comparison : Comparison) : Rule :=
  transform
    (sequence [symbol comparison.symbol comparison.sign.toList, optionalWhitespace,
      required (expression g)])
    (Node.conditionRight (.conditionRight comparison))

/-- A comparison without its left operand, two-character signs first. -/
def conditionRight (g : Grammar) : Rule :=
  alternatives [
    conditionOf g .lessThanEquals,
    conditionOf g .greaterThanEquals,
    conditionOf g .notEquals,
    conditionOf g .lessThan,
    conditionOf g .greaterThan,
    conditionOf g .equals]

/-- An expression behind an equals sign. -/
def formula (g : Grammar) : Rule :=
  transform
    (sequence [symbol .equals ['='], optionalWhitespace, required (expression g),
      optionalWhitespace])
    (Node.unary (.unary .expression))

/-- What can be typed into a cell: a formula, or else a date and time, a date, a time, a number,
text after an apostrophe or any other text. -/
def valueOrExpression (g : Grammar) : Rule :=
  alternatives [
    formula g,
    complete (dateTime g),
    complete (date g),
    complete (time g),
    complete (number g true),
    complete apostropheText,
    wholeText]

end SheetFormula.Rule
