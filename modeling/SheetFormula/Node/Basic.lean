import SheetFormula.Calendar
import SheetFormula.ErrorCode
import SheetFormula.Node.Kind
import SheetFormula.Number.Decimal
import SheetFormula.Reference.Cell

/-!
# Nodes

A parsed formula is a tree.  A leaf holds the text it was written with and what that text stands
for; a parent holds its children and what they stand for together.  The text of a parent is nothing
but the texts of its children in order, so a tree always spells the formula it was parsed from.

* `Content`: what a leaf stands for; `Form`: what a parent is;
* `Node`, `Node.kind`, `Node.text`, `Node.children`, `Node.operands`;
* `Node.beq`: same kinds, texts and contents throughout;
* `Node.walk`: the depth-first traversal that all other passes are instances of.
-/

namespace SheetFormula

/-- What a leaf stands for.  Digits, symbols and whitespace stand for their own text. -/
inductive Content
  | digits
  | component (component : Component) (value : Int)
  | symbol (symbol : Symbol)
  | whitespace
  | column (column : Column)
  | row (row : Row)
  | label (name : Text)
  | template (name : Text)
  | functionName (name : Text)
  | literal (value : Text)
  | error (code : ErrorCode)
  | boolean (value : Bool)
deriving DecidableEq

/-- The kind of a leaf. -/
def Content.kind : Content → Kind
  | digits => .digits
  | component c _ => .component c
  | symbol s => .symbol s
  | whitespace => .whitespace
  | column _ => .column
  | row _ => .row
  | label _ => .labelName
  | template _ => .templateValueName
  | functionName _ => .functionName
  | literal _ => .textLiteral
  | error _ => .error
  | boolean _ => .boolean

/-- The components of a date as they were written. -/
structure DateParts where
  /-- 0 when there is none. -/
  day : Int
  /-- 0 when there is none. -/
  month : Int
  /-- As written, 0 when there is none. -/
  year : Int
  /-- The number of bytes that the year was written with. -/
  yearDigits : Nat
  /-- Counted from Sunday, and -1 when there is none. -/
  weekday : Int
deriving DecidableEq

/-- What a parent is, with what its children stand for together. -/
inductive Form
  | binary (operator : Operator)
  | conditionRight (comparison : Comparison)
  | unary (wrapper : Wrapper)
  | cell (reference : Cell)
  | cellRange (reference : CellRange)
  | number (value : Decimal)
  | date (parts : DateParts)
  | time (value : TimeOfDay)
  | dateTime
  | text (value : Text)
  | functionParameters
  | namedFunction (name : Text)
  | lambda (name : Text)
deriving DecidableEq

/-- The kind of a parent. -/
def Form.kind : Form → Kind
  | binary op => .binary op
  | conditionRight c => .conditionRight c
  | unary w => .unary w
  | cell _ => .cell
  | cellRange _ => .cellRange
  | number _ => .number
  | date _ => .date
  | time _ => .time
  | dateTime => .dateTime
  | text _ => .text
  | functionParameters => .functionParameters
  | namedFunction _ => .namedFunction
  | lambda _ => .lambda

/-- A node of a parsed formula. -/
inductive Node
  | leaf (content : Content) (text : Text)
  | parent (form : Form) (children : List Node)

namespace Node

/-- The kind of a node. -/
def kind : Node → Kind
  | leaf content _ => content.kind
  | parent form _ => form.kind

/-- The children of a node; a leaf has none. -/
def children : Node → List Node
  | leaf _ _ => []
  | parent _ children => children

/-- Whether the node is a leaf. -/
def isLeaf : Node → Bool
  | leaf _ _ => true
  | parent _ _ => false

/-- Whether the node is noise. -/
def isNoise (n : Node) : Bool := n.kind.isNoise

/-- Whether the node is whitespace. -/
def isWhitespace (n : Node) : Bool := n.kind = .whitespace

/-! ### Text -/

mutual

/-- Writes the text of a node in front of `tail`. -/
def bytesOnto (tail : List UInt8) : Node → List UInt8
  | leaf _ text => text.bytes ++ tail
  | parent _ children => bytesOfAllOnto tail children

/-- Writes the texts of nodes in front of `tail`. -/
def bytesOfAllOnto (tail : List UInt8) : List Node → List UInt8
  | [] => tail
  | n :: rest => bytesOnto (bytesOfAllOnto tail rest) n

end

/-- The text that a node was written with. -/
def text (n : Node) : Text := ⟨n.bytesOnto []⟩

/-- The texts of nodes, one after another. -/
def textOfAll (ns : List Node) : Text := ⟨bytesOfAllOnto [] ns⟩

mutual

/-- What a node is written in front of stays as it is. -/
theorem bytesOnto_eq (tail : List UInt8) (n : Node) : n.bytesOnto tail = n.text.bytes ++ tail := by
  match n with
  | leaf _ t => simp [text, bytesOnto]
  | parent _ children =>
    simp only [text, bytesOnto]
    exact bytesOfAllOnto_eq tail children

/-- What nodes are written in front of stays as it is. -/
theorem bytesOfAllOnto_eq (tail : List UInt8) (ns : List Node) :
    bytesOfAllOnto tail ns = (textOfAll ns).bytes ++ tail := by
  match ns with
  | [] => simp [textOfAll, bytesOfAllOnto]
  | n :: rest =>
    simp only [textOfAll, bytesOfAllOnto]
    rw [bytesOnto_eq (bytesOfAllOnto tail rest) n, bytesOnto_eq (bytesOfAllOnto [] rest) n,
      bytesOfAllOnto_eq tail rest]
    simp [textOfAll]

end

@[simp] theorem text_leaf (content : Content) (t : Text) : (leaf content t).text = t := by
  simp [text, bytesOnto]

/-- A parent spells what its children spell. -/
@[simp] theorem text_parent (form : Form) (children : List Node) :
    (parent form children).text = textOfAll children := rfl

@[simp] theorem textOfAll_nil : textOfAll [] = .empty := rfl

@[simp] theorem textOfAll_cons (n : Node) (ns : List Node) :
    textOfAll (n :: ns) = n.text ++ textOfAll ns := by
  simp only [textOfAll, bytesOfAllOnto, bytesOnto_eq (bytesOfAllOnto [] ns) n]
  rfl

@[simp] theorem textOfAll_append (ns ms : List Node) :
    textOfAll (ns ++ ms) = textOfAll ns ++ textOfAll ms := by
  induction ns with
  | nil => rfl
  | cons n ns ih => simp [ih, Text.append_assoc]

/-! ### Operands -/

/-- The nodes that are not noise. -/
def operandsOf (ns : List Node) : List Node := ns.filter (!·.isNoise)

/-- The children of a node that are not noise. -/
def operands (n : Node) : List Node := operandsOf n.children

@[simp] theorem operandsOf_append (ns ms : List Node) :
    operandsOf (ns ++ ms) = operandsOf ns ++ operandsOf ms := List.filter_append ..

/-- The number of a component leaf, and 0 for any other node. -/
def componentValue : Node → Int
  | leaf (.component _ value) _ => value
  | _ => 0

/-! ### Equality -/

mutual

/-- Whether two nodes have the same kinds, texts and contents throughout. -/
def beq : Node → Node → Bool
  | leaf c s, leaf d t => c == d && s == t
  | parent f ns, parent g ms => f.kind == g.kind && beqAll ns ms
  | _, _ => false

/-- Whether two lists of nodes are equal node by node. -/
def beqAll : List Node → List Node → Bool
  | [], [] => true
  | n :: ns, m :: ms => beq n m && beqAll ns ms
  | _, _ => false

end

instance : BEq Node := ⟨beq⟩

/-! ### Traversal -/

end Node

/-- What to do on the way through a tree.  When `enter` answers `false` the node's children are
passed over and the node is not left. -/
structure Visitor (σ : Type) where
  enter : σ → Node → Bool × σ
  leave : σ → Node → σ

namespace Node

variable {σ : Type}

mutual

/-- Goes through a tree depth first. -/
def walk (v : Visitor σ) (s : σ) : Node → σ
  | leaf content text =>
    let (goOn, s) := v.enter s (leaf content text)
    if goOn then v.leave s (leaf content text) else s
  | parent form children =>
    let (goOn, s) := v.enter s (parent form children)
    if goOn then v.leave (walkAll v s children) (parent form children) else s

/-- Goes through trees one after another. -/
def walkAll (v : Visitor σ) (s : σ) : List Node → σ
  | [] => s
  | n :: rest => walkAll v (walk v s n) rest

end

/-- Goes through a tree depth first, without anything to do when leaving a node. -/
def inspect (visit : σ → Node → Bool × σ) (s : σ) (n : Node) : σ :=
  n.walk ⟨visit, fun s _ => s⟩ s

/-- Puts what a node refers to in front of the references found so far.  The parts of cells and
ranges are no references of their own. -/
def noteReference (found : List Reference) : Node → Bool × List Reference
  | parent (.cell ref) _ => (false, .cell ref :: found)
  | parent (.cellRange ref) _ => (false, .range ref :: found)
  | leaf (.label name) _ => (true, .label name :: found)
  | leaf (.template name) _ => (true, .template name :: found)
  | _ => (true, found)

/-- The cells, ranges, labels and template values that a tree refers to, in order. -/
def references (n : Node) : List Reference := (n.inspect noteReference []).reverse

end Node

end SheetFormula
