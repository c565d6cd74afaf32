import SheetFormula.Node.Components
import SheetFormula.Node.Number

/-!
# Building parents

Each kind of parent has a constructor that checks its children and works out what they stand for.
The text of a parent needs no check: it is that of the children.  `Builder` names the constructors,
and `Builder.build` applies one to children some of which may be absent.
-/

namespace SheetFormula

namespace Node

/-- Refuses an empty list of children. -/
def requireChildren (kind : Kind) (children : List Node) : Except Defect Unit :=
  if children.isEmpty then .error (.noChildren kind) else .ok ()

/-- Checks one child that is no whitespace, at position `index` among those, and counts the symbols
found so far. -/
def checkSymbol (kind : Kind) (symbol : Symbol) (place : Nat) (state : Nat × Nat) (child : Node) :
    Except Defect (Nat × Nat) :=
  let (index, symbols) := state
  match child with
  | .leaf (.symbol s) text =>
    if s = symbol ∧ index = place then .ok (index + 1, symbols + 1)
    else .error (.unexpectedSymbol kind (.symbol s) text)
  | _ => .ok (index + 1, symbols)

/-- Checks that `symbol` stands once, as child number `place` whitespace aside, and that there is no
other symbol. -/
def checkOperator (kind : Kind) (symbol : Symbol) (place : Nat) (children : List Node) :
    Except Defect Unit := do
  let (_, symbols) ←
    (children.filter (!·.isWhitespace)).foldlM (checkSymbol kind symbol place) (0, 0)
  if symbols ≠ 1 then throw (.missing kind (.symbol symbol))

/-- Two operands joined by the symbol of an operator. -/
def binary (kind : Kind) (children : List Node) : Except Defect Node :=
  match kind with
  | .binary op => do
    requireChildren kind children
    let count := (operandsOf children).length
    if count ≠ 2 then throw (.operandCount kind 2 count)
    checkOperator kind op.symbol 1 children
    return .parent (.binary op) children
  | _ => .error (.notBinary kind)

/-- One operand and whatever noise surrounds it. -/
def unary (kind : Kind) (children : List Node) : Except Defect Node :=
  match kind with
  | .unary wrapper => do
    requireChildren kind children
    let count := (operandsOf children).length
    if count ≠ 1 then throw (.operandCount kind 1 count)
    return .parent (.unary wrapper) children
  | _ => .error (.notUnary kind)

/-- The symbol of a comparison followed by its right operand. -/
def conditionRight (kind : Kind) (children : List Node) : Except Defect Node :=
  match kind with
  | .conditionRight comparison => do
    requireChildren kind children
    let count := (operandsOf children).length
    if count ≠ 1 then throw (.operandCount kind 1 count)
    checkOperator kind comparison.symbol 0 children
    return .parent (.conditionRight comparison) children
  | _ => .error (.notConditionRight kind)

/-- A column followed by a row. -/
def cell (children : List Node) : Except Defect Node := do
  requireChildren .cell children
  match operandsOf children with
  | [.leaf (.column column) _, .leaf (.row row) _] => return .parent (.cell ⟨column, row⟩) children
  | operands => throw (.cellParts (operands.map kind))

/-- Two cells with the between symbol among the children. -/
def cellRange (children : List Node) : Except Defect Node := do
  requireChildren .cellRange children
  match operandsOf children with
  | [.parent (.cell first) _, .parent (.cell last) _] =>
    if children.any (·.kind = .symbol .between) then
      return .parent (.cellRange ⟨first, last⟩) children
    else throw (.missing .cellRange (.symbol .between))
  | [first, last] => throw (.rangeParts [first.kind, last.kind])
  | operands => throw (.rangeCount operands.length)

/-- The leaves of a number. -/
def number (children : List Node) : Except Defect Node := do
  requireChildren .number children
  match numberValue children with
  | .ok value => return .parent (.number value) children
  | .error fault => throw (.number fault)

/-- The components of a date. -/
def date (children : List Node) : Except Defect Node := do
  requireChildren .date children
  match dateParts children with
  | .ok parts => return .parent (.date parts) children
  | .error fault => throw (.date fault)

/-- The components of a time. -/
def time (children : List Node) : Except Defect Node := do
  requireChildren .time children
  match timeOfDay children with
  | .ok value => return .parent (.time value) children
  | .error fault => throw (.time fault)

/-- Notes a half of a date and time: whether a date and whether a time have been seen. -/
def noteHalf (seen : Bool × Bool) (half : Node) : Except Defect (Bool × Bool) :=
  match half with
  | .parent (.date _) _ =>
    if seen.1 then .error (.duplicate .dateTime .date) else .ok (true, seen.2)
  | .parent (.time _) _ =>
    if seen.2 then .error (.duplicate .dateTime .time) else .ok (seen.1, true)
  | _ => .error (.unexpected .dateTime half.kind)

/-- A date, a time or both, in any order. -/
def dateTime (children : List Node) : Except Defect Node := do
  requireChildren .dateTime children
  match ← (operandsOf children).foldlM noteHalf (false, false) with
  | (false, false) => throw .halvesMissing
  | _ => return .parent .dateTime children

/-- Notes the literal of a text. -/
def noteLiteral (seen : Option Text) (child : Node) : Except Defect (Option Text) :=
  match child with
  | .leaf (.symbol .doubleQuote) _ | .leaf (.symbol .apostrophe) _ => .ok seen
  | .leaf (.literal value) _ =>
    if seen.isSome then .error (.duplicate .text .textLiteral) else .ok (some value)
  | _ => .error (.unexpected .text child.kind)

/-- Quotes and at most one literal, whose value is that of the text. -/
def quotation (children : List Node) : Except Defect Node := do
  requireChildren .text children
  let literal ← children.foldlM noteLiteral none
  return .parent (.text (literal.getD .empty)) children

/-- Arguments in parentheses. -/
def functionParameters (children : List Node) : Except Defect Node := do
  requireChildren .functionParameters children
  match children.head?.map kind, children.getLast?.map kind with
  | some (.symbol .parenthesisOpen), some (.symbol .parenthesisClose) =>
    return .parent .functionParameters children
  | _, _ => throw (.parentheses (children.map kind))

/-- A function name followed by its parameters. -/
def namedFunction (children : List Node) : Except Defect Node := do
  requireChildren .namedFunction children
  match operandsOf children with
  | [.leaf (.functionName name) _, .parent .functionParameters _] =>
    return .parent (.namedFunction name) children
  | operands => throw (.functionParts (operands.map kind))

/-- A function name followed by the parameters it declares and those it is called with. -/
def lambda (children : List Node) : Except Defect Node := do
  requireChildren .lambda children
  match operandsOf children with
  | [.leaf (.functionName name) _, .parent .functionParameters _, .parent .functionParameters _] =>
    return .parent (.lambda name) children
  | operands => throw (.lambdaParts (operands.map kind))

/-- The date half of a date and time. -/
def dateHalf? (n : Node) : Option Node := n.operands.find? (·.kind = .date)

/-- The time half of a date and time. -/
def timeHalf? (n : Node) : Option Node := n.operands.find? (·.kind = .time)

end Node

/-- The constructors of parents. -/
inductive Builder
  | binary (kind : Kind)
  | unary (kind : Kind)
  | conditionRight (kind : Kind)
  | cell
  | cellRange
  | number
  | date
  | time
  | dateTime
  | text
  | functionParameters
  | namedFunction
  | lambda

namespace Builder

/-- The kind of the parents a constructor builds, if it accepts the kind it is asked for. -/
def kind : Builder → Except Defect Kind
  | binary k => if k.isBinary then .ok k else .error (.notBinary k)
  | unary k => if k.isUnary then .ok k else .error (.notUnary k)
  | conditionRight k => if k.isConditionRight then .ok k else .error (.notConditionRight k)
  | cell => .ok .cell
  | cellRange => .ok .cellRange
  | number => .ok .number
  | date => .ok .date
  | time => .ok .time
  | dateTime => .ok .dateTime
  | text => .ok .text
  | functionParameters => .ok .functionParameters
  | namedFunction => .ok .namedFunction
  | lambda => .ok .lambda

/-- Builds a parent from children that are all there. -/
def buildFull : Builder → List Node → Except Defect Node
  | binary k => Node.binary k
  | unary k => Node.unary k
  | conditionRight k => Node.conditionRight k
  | cell => Node.cell
  | cellRange => Node.cellRange
  | number => Node.number
  | date => Node.date
  | time => Node.time
  | dateTime => Node.dateTime
  | text => Node.quotation
  | functionParameters => Node.functionParameters
  | namedFunction => Node.namedFunction
  | lambda => Node.lambda

/-- Builds a parent, unless a child is absent. -/
def build (b : Builder) (children : List (Option Node)) : Except Defect Node := do
  let kind ← b.kind
  match children.findIdx? Option.isNone with
  | some index => throw (.absentChild kind index)
  | none => b.buildFull (children.filterMap id)

/-- The constructor of the parents of a kind. -/
def ofKind? : Kind → Option Builder
  | .binary op => some (.binary (.binary op))
  | .unary w => some (.unary (.unary w))
  | .conditionRight c => some (.conditionRight (.conditionRight c))
  | .cell => some cell
  | .cellRange => some cellRange
  | .number => some number
  | .date => some date
  | .time => some time
  | .dateTime => some dateTime
  | .text => some text
  | .functionParameters => some functionParameters
  | .namedFunction => some namedFunction
  | .lambda => some lambda
  | _ => none

end Builder

namespace Node

/-- The comparison of a left operand with the right operand of a condition. -/
def combineLeft (condition : Node) (left : Option Node) : Except Defect Node :=
  let kind : Kind :=
    match condition with
    | .parent (.conditionRight comparison) _ => .binary (.comparison comparison)
    | _ => .invalid
  (Builder.binary kind).build (left :: condition.children.map some)

end Node

end SheetFormula
