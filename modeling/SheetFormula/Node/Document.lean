import SheetFormula.Json.Reader
import SheetFormula.Node.Build

/-!
# Documents of nodes

A node is stored as a JSON document with the name of its kind, its text and either its children or,
for a leaf, what it stands for:

    {"type": "addition", "value": {"value": [...], "text": "1+2"}}

`Node.encode` writes a document and `Node.decode` reads one, building every parent anew with its
constructor, so that a document which breaks a rule of the nodes is refused.  `Node.marshal` and
`Node.unmarshal` do the same from and to text.
-/

namespace SheetFormula

namespace Node

/-! ### Writing -/

/-- What the document of a leaf holds beside its text. -/
def scalar (content : Content) (text : Text) : Json :=
  match content with
  | .digits | .symbol _ | .whitespace => .string text
  | .component _ value => .ofInt value
  | .column column => .string column.text
  | .row row => .string row.text
  | .label name | .template name | .functionName name => .string name
  | .literal value => .string value
  | .error code => .string code.text
  | .boolean value => .bool value

/-- The document of a node of the given kind, value and text. -/
def document (kind : Kind) (value : Json) (text : Text) : Json :=
  .object [("type", .string kind.name),
    ("value", .object [("value", value), ("text", .string text)])]

mutual

/-- The document of a node. -/
def encode : Node → Json
  | leaf content text => document content.kind (scalar content text) text
  | parent form children => document form.kind (.array (encodeAll children)) (textOfAll children)

/-- The documents of nodes. -/
def encodeAll : List Node → List Json
  | [] => []
  | n :: rest => encode n :: encodeAll rest

end

/-- Why a document is not written. -/
inductive EncodeError
  /-- There is no node. -/
  | absent
  /-- The text of the owner is no valid UTF-8. -/
  | invalidText (owner : String) (text : Text)
deriving DecidableEq

/-- How the refusal is told. -/
def EncodeError.message : EncodeError → Text
  | absent => "nil node"
  | invalidText owner text => .join [owner ++ " text ", text.quoted, " is not valid UTF-8"]

/-- The code of the refusal. -/
def EncodeError.code : EncodeError → ApplicationCode
  | absent | invalidText _ _ => .invalidArgument

/-- The document of a node whose text is valid UTF-8. -/
def encodeValid (n : Node) : Except EncodeError Json :=
  if n.text.isValid then .ok n.encode else .error (.invalidText n.kind.name n.text)

/-- The text of a node's document. -/
def marshal : Option Node → Except EncodeError Text
  | some n => n.encodeValid.map Json.compact
  | none => .error .absent

/-! ### Reading -/

/-- The fields of a document. -/
structure Fields where
  type : Text := .empty
  value? : Option Json := none
  text : Text := .empty

/-- Why a leaf is not read. -/
inductive LeafFault
  /-- The value is missing or of the wrong type. -/
  | wrongType
  | reference (error : ReferenceError)
  | mismatch (axis : Axis) (value : Text)
  | unknownError (value : Text)
deriving DecidableEq

/-- How the fault of a leaf is told. -/
def LeafFault.message : LeafFault → Text
  | wrongType => "<json>"
  | reference error => error.message
  | mismatch axis value => .join [axis.name ++ " ", value.quoted, " does not match text"]
  | unknownError value => .join ["unknown error ", value.quoted]

/-- Why a document is not read. -/
inductive DecodeError
  /-- The document is no JSON, or a field has the wrong type. -/
  | wrongType
  | unknownType (type : Text)
  | leaf (kind : Kind) (text : Text) (fault : LeafFault)
  /-- The children are missing or of the wrong type. -/
  | children (kind : Kind)
  | defect (defect : Defect)
  | textMismatch (kind : Kind) (text actual : Text)
deriving DecidableEq

namespace DecodeError

/-- How an error is told. -/
def message : DecodeError → Text
  | wrongType => "failed to decode node: <json>"
  | unknownType type => .join ["unknown node type ", type.quoted]
  | leaf kind text fault =>
    .join ["failed to decode " ++ kind.name ++ " ", text.quoted, ": ", fault.message]
  | children kind => .join ["failed to decode " ++ kind.name ++ " children: <json>"]
  | defect d => d.message
  | textMismatch kind text actual =>
    .join [kind.name ++ " text ", text.quoted, " does not match children ", actual.quoted]

/-- The code of an error of the application. -/
def code? : DecodeError → Option ApplicationCode
  | defect d => some d.code
  | _ => none

end DecodeError

/-- Sets a text field; `null` leaves it as it is. -/
def setText (old : Text) : Json → Option Text
  | .string new => some new
  | .null => some old
  | _ => none

/-- Reads a member of the inner object of a document. -/
def readInner (f : Fields) (member : Text × Json) : Option Fields :=
  let (name, value) := member
  if name.likeAscii "value" then some { f with value? := some value }
  else if name.likeAscii "text" then (setText f.text value).map fun t => { f with text := t }
  else some f

/-- Reads a member of the outer object of a document. -/
def readOuter (f : Fields) (member : Text × Json) : Option Fields :=
  let (name, value) := member
  if name.likeAscii "type" then (setText f.type value).map fun t => { f with type := t }
  else if name.likeAscii "value" then
    match value with
    | .object members => members.foldlM readInner f
    | .null => some f
    | _ => none
  else some f

/-- The fields of a document.  Names are compared without regard to case, unknown ones are passed
over and of repeated ones the last counts. -/
def fields? : Json → Option Fields
  | .object members => members.foldlM readOuter {}
  | .null => some {}
  | _ => none

/-- Reads a text value. -/
def textValue? : Option Json → Option Text
  | some (.string text) => some text
  | some .null => some .empty
  | _ => none

/-- Reads an integer value. -/
def intValue? : Option Json → Option Int
  | some (.number digits) =>
    match readInteger 64 digits with
    | .ok n => some n
    | .error _ => none
  | some .null => some 0
  | _ => none

/-- Reads a boolean value. -/
def boolValue? : Option Json → Option Bool
  | some (.bool value) => some value
  | some .null => some false
  | _ => none

/-- Reads a column that must be the one of the text. -/
def decodeColumn (value text : Text) : Except LeafFault Content := do
  let column ← (Column.parse value).mapError .reference
  let written ← (Column.parse text).mapError .reference
  if written = column then return .column column else throw (.mismatch .column value)

/-- Reads a row that must be the one of the text. -/
def decodeRow (value text : Text) : Except LeafFault Content := do
  let row ← (Row.parse value).mapError .reference
  let written ← (Row.parse text).mapError .reference
  if written = row then return .row row else throw (.mismatch .row value)

/-- Reads what a leaf with a text value stands for. -/
def decodeText (kind : Kind) (value text : Text) : Except LeafFault Content :=
  match kind with
  | .digits => .ok .digits
  | .column => decodeColumn value text
  | .row => decodeRow value text
  | .labelName => .ok (.label value)
  | .templateValueName => .ok (.template value)
  | .functionName => .ok (.functionName value)
  | .textLiteral => .ok (.literal value)
  | .error =>
    match ErrorCode.ofText? value with
    | some code => .ok (.error code)
    | none => .error (.unknownError value)
  | _ => .error .wrongType

/-- Reads what a leaf stands for. -/
def decodeContent (kind : Kind) (value? : Option Json) (text : Text) : Except LeafFault Content :=
  match kind with
  | .symbol s => .ok (.symbol s)
  | .whitespace => .ok .whitespace
  | .component c =>
    match intValue? value? with
    | some n => .ok (.component c n)
    | none => .error .wrongType
  | .boolean =>
    match boolValue? value? with
    | some b => .ok (.boolean b)
    | none => .error .wrongType
  | kind =>
    match textValue? value? with
    | some value => decodeText kind value text
    | none => .error .wrongType

/-- The fields of the documents of a parent's children. -/
def childFields? : Option Json → Option (List Fields)
  | some (.array items) => items.mapM fields?
  | some .null => some []
  | _ => none

/-- Builds a parent of the given kind from its children, which must spell the given text. -/
def rebuild (kind : Kind) (text : Text) (children : List Node) : Except DecodeError Node := do
  let n ←
    match Builder.ofKind? kind with
    | some b => (b.buildFull children).mapError .defect
    | none => .error (.defect (.notParent kind))
  if n.text = text then return n else throw (.textMismatch kind text n.text)

/-- Reads the fields of a document with less than `fuel` levels of parents. -/
def decodeFields : (fuel : Nat) → Fields → Except DecodeError Node
  | 0, _ => .error .wrongType
  | fuel + 1, f =>
    match f.type.toString?.bind Kind.ofName? with
    | none => .error (.unknownType f.type)
    | some kind =>
      if kind.isLeaf then
        match decodeContent kind f.value? f.text with
        | .ok content => .ok (.leaf content f.text)
        | .error fault => .error (.leaf kind f.text fault)
      else
        match childFields? f.value? with
        | none => .error (.children kind)
        | some documents => do
          let children ← documents.mapM fun d => decodeFields fuel d
          rebuild kind f.text children

/-- Reads a document.  Every level of parents takes a level of the document, which bounds them. -/
def decode (j : Json) : Except DecodeError Node :=
  match fields? j with
  | some f => decodeFields (j.depth + 1) f
  | none => .error .wrongType

/-- Reads the text of a document. -/
def unmarshal (text : Text) : Except DecodeError Node :=
  match Json.parse? text with
  | some j => decode j
  | none => .error .wrongType

end Node

end SheetFormula
