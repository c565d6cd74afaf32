import SheetFormula.Calendar
import SheetFormula.ErrorCode
import SheetFormula.Node.Kind
import SheetFormula.Number.Double
import SheetFormula.Reference.Cell

/-!
# Expressions

An expression is what a formula evaluates: values, references, operators, negation and calls.  The
symbols, whitespace and parentheses of the formula are gone.  An expression may also be put together
by hand, and then a part of it may be missing.

* `Value`, `Op`, `Expression`;
* `Expression.text`: an expression written as a formula, with every operator in parentheses;
* `Expression.same`: same shape and same values, where `0.50` is the same as `0.5`.
-/

namespace SheetFormula

/-- A literal value. -/
inductive Value
  | nothing
  | decimal (value : Decimal)
  | double (value : Double)
  | text (value : Text)
  | boolean (value : Bool)
  | integer (value : Int)
  | date (value : Date)
  | time (value : TimeOfDay)
  | dateTime (date : Date) (time : TimeOfDay)
  | error (value : CellError)

namespace Value

/-- A text between double quotes, with the quotes in it doubled. -/
def quoteText (t : Text) : Text :=
  ⟨34 :: (t.bytes.flatMap fun b => if b = 34 then [34, 34] else [b]) ++ [34]⟩

/-- A value as written in a formula. -/
def written : Value → Text
  | nothing => .empty
  | decimal d => d.plain
  | double x => x.plain
  | text t => quoteText t
  | boolean true => "TRUE"
  | boolean false => "FALSE"
  | integer n => .ofInt n
  | date d => d.text
  | time t => t.text
  | dateTime d t => .join [d.text, "T", t.text]
  | error e => e.shown

/-- Whether two values are the same.  Numbers of one representation are compared by value. -/
def same : Value → Value → Bool
  | nothing, nothing => true
  | decimal a, decimal b => a.sameValue b
  | double a, double b => a.sameValue b
  | text a, text b => a == b
  | boolean a, boolean b => a == b
  | integer a, integer b => a == b
  | date a, date b => a == b
  | time a, time b => a == b
  | dateTime a s, dateTime b t => a == b && s == t
  | error a, error b => a == b
  | _, _ => false

end Value

/-- The operator of an expression: one of the list, or a number that is not on it. -/
inductive Op
  | listed (operator : Operator)
  | unlisted (number : Int)
deriving DecidableEq

namespace Op

/-- The operator with a number. -/
def ofNumber (number : Int) : Op :=
  match number with
  | .ofNat n =>
    match Operator.all[n]? with
    | some operator => listed operator
    | none => unlisted number
  | .negSucc _ => unlisted number

/-- How an operator is written. -/
def sign : Op → Text
  | listed operator => operator.sign
  | unlisted number => .join ["Op(", .ofInt number, ")"]

end Op

/-- What a formula evaluates. -/
inductive Expression
  /-- Nothing, where an expression could stand. -/
  | missing
  | value (value : Value)
  | reference (reference : Reference)
  | binary (op : Op) (left right : Expression)
  | negative (operand : Expression)
  | function (name : Text)
  | call (callee : Expression) (args : List Expression)

namespace Expression

/-! ### Text -/

/-- Whether nothing stands where an expression could. -/
def isMissing : Expression → Bool
  | missing => true
  | _ => false

mutual

/-- Whether an expression can be written: a negation needs its operand, and a call its arguments. -/
def isWritable : Expression → Bool
  | missing => false
  | negative operand => isWritable operand
  | call _ args => allWritable args
  | _ => true

/-- Whether all expressions can be written. -/
def allWritable : List Expression → Bool
  | [] => true
  | arg :: rest => isWritable arg && allWritable rest

end

/-- How a missing operand or function is shown. -/
def missingMark : Text := "%!s(<nil>)"

/-- How an operand or function that cannot be written is shown. -/
def unwritableMark : Text := .ofString ("%!s(PANIC=String method: " ++ absenceMessage ++ ")")

/-- An operand or function in front of `tail`, where `written` is what writing it gives. -/
def shownOnto (e : Expression) (tail written : List UInt8) : List UInt8 :=
  if e.isMissing || e.isWritable then written else unwritableMark.bytes ++ tail

mutual

/-- Writes an expression in front of `tail`. -/
def bytesOnto (tail : List UInt8) : Expression → List UInt8
  | missing => missingMark.bytes ++ tail
  | value v => v.written.bytes ++ tail
  | reference r => r.text.bytes ++ tail
  | binary op left right =>
    let rest := op.sign.bytes ++ right.shownOnto (41 :: tail) (bytesOnto (41 :: tail) right)
    40 :: left.shownOnto rest (bytesOnto rest left)
  | negative operand => 45 :: bytesOnto tail operand
  | function name => name.bytes ++ tail
  | call callee args =>
    let rest := 40 :: argumentsOnto (41 :: tail) args
    callee.shownOnto rest (bytesOnto rest callee)

/-- Writes arguments in front of `tail`, with commas between them. -/
def argumentsOnto (tail : List UInt8) : List Expression → List UInt8
  | [] => tail
  | [arg] => bytesOnto tail arg
  | arg :: rest => bytesOnto (44 :: argumentsOnto tail rest) arg

end

/-- An expression as written in a formula. -/
def text (e : Expression) : Text := ⟨e.bytesOnto []⟩

/-! ### Sameness -/

mutual

/-- Whether two expressions have the same shape and the same values. -/
def same : Expression → Expression → Bool
  | missing, missing => true
  | value a, value b => a.same b
  | reference a, reference b => a == b
  | binary op l r, binary op' l' r' => op == op' && same l l' && same r r'
  | negative a, negative b => same a b
  | function a, function b => a == b
  | call f args, call g args' => same f g && sameAll args args'
  | _, _ => false

/-- Whether two lists of expressions are the same one by one. -/
def sameAll : List Expression → List Expression → Bool
  | [], [] => true
  | a :: as, b :: bs => same a b && sameAll as bs
  | _, _ => false

end

end Expression

end SheetFormula
