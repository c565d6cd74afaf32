import SheetFormula.Expression.Build
import SheetFormula.Node.Document

/-!
# Formulas

A formula is the text typed into a cell together with what was made of it: the parsed token, the
expression built from the token, or the error that stopped either.  A formula is stored as a JSON
document of its token, or of its text when it has none, and of its error; the expression is built
again when it is needed.
-/

namespace SheetFormula

/-- A text with what was made of it. -/
structure Formula where
  text : Text := .empty
  token? : Option Node := none
  expression? : Option Expression := none
  error? : Option CellError := none

/-- The error that a cell shows for a failure of parsing. -/
def Failure.cellError (failure : Failure) : CellError :=
  match failure with
  | .parse e => .of e.code e.message
  | _ => .of .other failure.message

namespace Formula

/-- A formula that has not been parsed. -/
def ofText (text : Text) : Formula := { text := text }

/-- Parses a text.  A failure becomes the error of the formula, and nothing is made of no text. -/
def parse (g : Grammar) (p : Parser) (text : Text) : Formula :=
  if text.isEmpty then ofText text
  else
    match g.parse p text with
    | .ok token => { text := text, token? := some token }
    | .error failure => { text := text, error? := some failure.cellError }

/-- The text of a formula, or that of its token when it has none of its own. -/
def fullText (f : Formula) : Text :=
  match f.token? with
  | some token => if f.text.isEmpty then token.text else f.text
  | none => f.text

/-- The formula with another token, of which nothing has been made yet. -/
def setToken (f : Formula) (token? : Option Node) : Formula := { text := f.text, token? := token? }

/-- A defect that stopped the building of a formula's expression. -/
structure ExpressionError where
  text : Text
  cause : BuildError

/-- How a defect is told. -/
def ExpressionError.message (e : ExpressionError) : Text :=
  .join ["failed to build expression for ", e.text.quoted, ": ", e.cause.message]

/-- Builds the expression of the token.  A value that does not exist becomes the error of the
formula; any other error is a defect. -/
def toExpression (s : Settings) (f : Formula) : Except ExpressionError Formula :=
  match f.token? with
  | none => .ok f
  | some token =>
    match token.toExpression s with
    | .ok e? => .ok { f with expression? := e?, error? := none }
    | .error (.value e) => .ok { f with expression? := none, error? := some e }
    | .error e => .error ⟨f.fullText, e⟩

/-! ### Documents -/

/-- The document of an error.  The message is left out when it is the usual one. -/
def encodeError (e : CellError) : Json :=
  let code : Text × Json := ("code", .string e.code.text)
  if e.message.isEmpty || e.message == e.code.defaultMessage then .object [code]
  else .object [code, ("message", .string e.message)]

/-- The document of a formula. -/
def encode (f : Formula) : Except Node.EncodeError Json := do
  let content : List (Text × Json) ←
    match f.token? with
    | some token => do
      let document ← token.encodeValid
      pure [("token", document)]
    | none =>
      if !f.text.isValid then throw (.invalidText "formula" f.text)
      else if f.text.isEmpty then pure []
      else pure [("text", .string f.text)]
  let errors : List (Text × Json) :=
    match f.error? with
    | some e => [("error", encodeError e)]
    | none => []
  return .object (content ++ errors)

/-- The text of a formula's document. -/
def marshal (f : Formula) : Except Node.EncodeError Text := f.encode.map Json.compact

/-- The fields of an error's document. -/
structure ErrorFields where
  code : Text := .empty
  message : Text := .empty

/-- The fields of a formula's document. -/
structure Fields where
  text : Text := .empty
  token? : Option Json := none
  error? : Option ErrorFields := none

/-- Reads a member of the document of an error. -/
def readErrorMember (f : ErrorFields) (member : Text × Json) : Option ErrorFields :=
  let (name, value) := member
  if name.likeAscii "code" then (Node.setText f.code value).map fun t => { f with code := t }
  else if name.likeAscii "message" then
    (Node.setText f.message value).map fun t => { f with message := t }
  else some f

/-- Reads a member of the document of a formula. -/
def readMember (f : Fields) (member : Text × Json) : Option Fields :=
  let (name, value) := member
  if name.likeAscii "text" then (Node.setText f.text value).map fun t => { f with text := t }
  else if name.likeAscii "token" then some { f with token? := some value }
  else if name.likeAscii "error" then
    match value with
    | .null => some { f with error? := none }
    | .object members => do
      let e ← members.foldlM readErrorMember (f.error?.getD {})
      some { f with error? := some e }
    | _ => none
  else some f

/-- The fields of a document. -/
def fields? : Json → Option Fields
  | .object members => members.foldlM readMember {}
  | .null => some {}
  | _ => none

/-- Why the document of a formula is not read. -/
inductive DecodeError
  /-- The document is no JSON, or a field has the wrong type. -/
  | wrongType
  | node (error : Node.DecodeError)
  | unknownCode (code : Text)

/-- How an error is told. -/
def DecodeError.message : DecodeError → Text
  | wrongType => "failed to decode formula: <json>"
  | node error => error.message
  | unknownCode code => .join ["unknown error code ", code.quoted]

/-- Reads the token of a document. -/
def decodeToken : Option Json → Except DecodeError (Option Node)
  | none => .ok none
  | some .null => .ok none
  | some document =>
    match Node.decode document with
    | .ok token => .ok (some token)
    | .error e => .error (.node e)

/-- Reads the error of a document. -/
def decodeCellError : Option ErrorFields → Except DecodeError (Option CellError)
  | none => .ok none
  | some fields =>
    match ErrorCode.ofText? fields.code with
    | some code => .ok (some (.of code fields.message))
    | none => .error (.unknownCode fields.code)

/-- Reads a document. -/
def decode (j : Json) : Except DecodeError Formula :=
  match fields? j with
  | none => .error .wrongType
  | some fields => do
    let token? ← decodeToken fields.token?
    let error? ← decodeCellError fields.error?
    return { text := fields.text, token? := token?, error? := error? }

/-- Reads the text of a document. -/
def unmarshal (text : Text) : Except DecodeError Formula :=
  match Json.parse? text with
  | some j => decode j
  | none => .error .wrongType

end Formula

end SheetFormula
