import SheetFormula.Grammar.Cursor
import SheetFormula.Node.Defect

/-!
# Failures of parsing

A text that does not follow the grammar, or that follows it and describes no value, gives a
`ParseError` at a position.  A `Failure` is that or something that no text should bring about: nodes
that do not fit together, or a search without end.
-/

namespace SheetFormula

/-- The largest number of runes of a formula. -/
def maxFormulaLength : Nat := 8192

/-- What is wrong with a text. -/
inductive ParseCause
  | endOfText
  | invalidCharacter (c : Char)
  | tooLong (length : Nat)
  | reference (error : ReferenceError)
  | number (text : Text) (fault : NumberFault)
deriving DecidableEq

/-- What is wrong with a text, and the position where that showed. -/
structure ParseError where
  pos : Nat
  cause : ParseCause
deriving DecidableEq

namespace ParseError

/-- How an error is told.  Positions are counted from 1 there. -/
def message (e : ParseError) : Text :=
  match e.cause with
  | .endOfText => .join ["End of text at (", .ofNat (e.pos + 1), ")"]
  | .invalidCharacter c =>
    .join ["Invalid character ", quotedChar c, " at (", .ofNat (e.pos + 1), ")"]
  | .tooLong length => .join ["Text too long ", .ofNat length, " > ", .ofNat maxFormulaLength]
  | .reference error => error.message
  | .number text fault => .join ["Invalid number ", text.quoted, ": ", fault.message]

/-- The code that a cell shows for an error. -/
def code (e : ParseError) : ErrorCode :=
  match e.cause with
  | .reference _ => .ref
  | .number _ _ => .num
  | _ => .other

/-- Whether a column or row out of bounds is behind an error. -/
def isOutOfBounds (e : ParseError) : Bool :=
  match e.cause with
  | .reference (.outOfBounds _ _) => true
  | _ => false

/-- The error that what is at the cursor does not belong there. -/
def unexpectedAt (c : Cursor) : ParseError :=
  if c.atEnd then ⟨c.pos, .endOfText⟩ else ⟨c.pos, .invalidCharacter c.current⟩

end ParseError

/-- Why parsing failed. -/
inductive Failure
  | parse (error : ParseError)
  | defect (defect : Defect)
  /-- A parser that should give one node gave another number of them. -/
  | nodeCount (parser : String) (count : Nat)
  /-- A search that does not end. -/
  | endless
deriving DecidableEq

/-- How a failure is told. -/
def Failure.message : Failure → Text
  | parse e => e.message
  | defect d => d.message
  | nodeCount parser count => .join [parser, ": expected 1 node but got ", .ofNat count]
  | endless => "the search does not end"

/-- The code of a failure that is an error of the application. -/
def Failure.code? : Failure → Option ApplicationCode
  | defect d => some d.code
  | nodeCount _ _ => some .internal
  | parse _ | endless => none

end SheetFormula
