import SheetFormula.Text.Fold

/-!
# Error values of a cell and of the application

The errors a cell can show are numbered; ten of the numbers have a text such as `#REF!`.
`CellError` is such a code together with what went wrong.  Errors of the application, which no cell
shows, have an `ApplicationCode`.
-/

namespace SheetFormula

/-- The number of an error value. -/
structure ErrorCode where
  number : UInt8
deriving DecidableEq, Inhabited

namespace ErrorCode

/-- No cells in common between ranges. -/
def null : ErrorCode := ⟨1⟩
/-- Division by zero. -/
def div0 : ErrorCode := ⟨2⟩
/-- A value of the wrong type, or that does not exist. -/
def value : ErrorCode := ⟨3⟩
/-- A reference outside of the worksheet. -/
def ref : ErrorCode := ⟨4⟩
/-- An unknown name. -/
def name : ErrorCode := ⟨5⟩
/-- A number that cannot be represented. -/
def num : ErrorCode := ⟨6⟩
/-- A value that is not available. -/
def na : ErrorCode := ⟨7⟩
/-- Any other error, such as a formula that cannot be read. -/
def other : ErrorCode := ⟨8⟩
/-- An array result without room. -/
def spill : ErrorCode := ⟨9⟩
/-- A failure of the calculation itself. -/
def calculation : ErrorCode := ⟨10⟩

/-- The codes that have a text, in order of their numbers. -/
def listed : List (ErrorCode × String) :=
  [(null, "#NULL!"), (div0, "#DIV/0!"), (value, "#VALUE!"), (ref, "#REF!"), (name, "#NAME?"),
    (num, "#NUM!"), (na, "#N/A"), (other, "#ERROR!"), (spill, "#SPILL!"), (calculation, "#CALC!")]

/-- The text of a listed code. -/
def text? (code : ErrorCode) : Option String := listed.lookup code

/-- The text of a code, which names its number when it is not listed. -/
def text (code : ErrorCode) : String :=
  code.text?.getD ("ErrorCode(" ++ String.ofList (Nat.toDigits 10 code.number.toNat) ++ ")")

/-- The text of a listed code, and nothing for any other. -/
def defaultMessage (code : ErrorCode) : Text := code.text?.getD ""

/-- The listed code with the given text, up to case. -/
def ofText? (text : Text) : Option ErrorCode :=
  (listed.find? fun (_, word) => text.likeAscii word).map Prod.fst

end ErrorCode

/-- An error value as a cell shows it. -/
structure CellError where
  code : ErrorCode
  message : Text
deriving DecidableEq

namespace CellError

/-- The error with the given message, or with the text of the code when the message is empty. -/
def of (code : ErrorCode) (message : Text) : CellError :=
  ⟨code, if message.isEmpty then code.defaultMessage else message⟩

/-- What is shown for an error: its message, or the text of the code when that is empty. -/
def shown (error : CellError) : Text :=
  if error.message.isEmpty then error.code.defaultMessage else error.message

end CellError

/-- The number of an error of the application. -/
structure ApplicationCode where
  number : Nat
deriving DecidableEq

namespace ApplicationCode

/-- Something makes no sense, such as the children of a node. -/
def invalidArgument : ApplicationCode := ⟨3⟩
/-- Something that the application itself takes for granted does not hold. -/
def internal : ApplicationCode := ⟨13⟩

end ApplicationCode

/-- What is told when something absent is asked what it is. -/
def absenceMessage : String := "runtime error: invalid memory address or nil pointer dereference"

end SheetFormula
