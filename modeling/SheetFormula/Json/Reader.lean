import SheetFormula.Json.Basic
import SheetFormula.Text.Integer

/-!
# Reading JSON

A text is first cut into tokens, one character at a time, and then built up into a value, one token
at a time, with a stack of the arrays and objects that are still open.  Both passes are folds, so
the depth of a document costs no recursion.  An escape for half of a surrogate pair that stands
alone is read as the replacement character.
-/

namespace SheetFormula.Json

/-- The tokens of JSON. -/
inductive Token
  | openArray
  | closeArray
  | openObject
  | closeObject
  | comma
  | colon
  | value (value : Json)
  /-- A string may be a value or the name of a member. -/
  | string (text : Text)

/-- What is being read: nothing, a word or number, or a string.  Characters are kept last first. -/
inductive Mode
  | between
  | word (chars : List Char)
  /-- Half of a surrogate pair may be waiting for the other half. -/
  | string (chars : List Char) (high? : Option Nat)
  | escape (chars : List Char) (high? : Option Nat)
  | unicode (chars : List Char) (high? : Option Nat) (digits : List Char)

/-- The tokens read, last first, and what is being read. -/
structure Scan where
  tokens : List Token
  mode : Mode

/-- Whether a character is one of JSON's blanks. -/
def isSpace (c : Char) : Bool := c == ' ' || c == '\t' || c == '\n' || c == '\r'

/-- Whether digits follow the rule for the digits before the point: no zero in front of others. -/
def isWholePart (cs : List Char) : Bool :=
  match cs with
  | [] => false
  | ['0'] => true
  | '0' :: _ => false
  | cs => cs.all isDigit

/-- Whether characters are an exponent, or nothing. -/
def isExponentPart (cs : List Char) : Bool :=
  match cs with
  | [] => true
  | mark :: rest =>
    let digits :=
      match rest with
      | '+' :: ds => ds
      | '-' :: ds => ds
      | ds => ds
    (mark == 'e' || mark == 'E') && !digits.isEmpty && digits.all isDigit

/-- Whether characters are a fraction and an exponent, either of which may be missing. -/
def isFractionPart (cs : List Char) : Bool :=
  match cs with
  | '.' :: rest => !(rest.takeWhile isDigit).isEmpty && isExponentPart (rest.dropWhile isDigit)
  | cs => isExponentPart cs

/-- Whether characters are a JSON number. -/
def isNumber (cs : List Char) : Bool :=
  let unsigned :=
    match cs with
    | '-' :: rest => rest
    | rest => rest
  isWholePart (unsigned.takeWhile isDigit) && isFractionPart (unsigned.dropWhile isDigit)

/-- The value of a word or number. -/
def word? (cs : List Char) : Option Json :=
  if cs = "null".toList then some .null
  else if cs = "true".toList then some (.bool true)
  else if cs = "false".toList then some (.bool false)
  else if isNumber cs then some (.number cs)
  else none

/-- The character that a one-letter escape stands for. -/
def simpleEscape? : Char → Option Char
  | '"' => some '"'
  | '\\' => some '\\'
  | '/' => some '/'
  | 'b' => some '\x08'
  | 'f' => some '\x0C'
  | 'n' => some '\n'
  | 'r' => some '\r'
  | 't' => some '\t'
  | _ => none

/-- The value of a hexadecimal digit. -/
def hexValue? (c : Char) : Option Nat :=
  if '0' ≤ c ∧ c ≤ '9' then some (c.toNat - '0'.toNat)
  else if 'a' ≤ c ∧ c ≤ 'f' then some (c.toNat - 'a'.toNat + 10)
  else if 'A' ≤ c ∧ c ≤ 'F' then some (c.toNat - 'A'.toNat + 10)
  else none

/-- The characters read with a waiting half of a pair given up. -/
def settle (chars : List Char) (high? : Option Nat) : List Char :=
  match high? with
  | some _ => Rune.replacement :: chars
  | none => chars

/-- Goes on after a four-digit escape. -/
def afterUnicode (chars : List Char) (high? : Option Nat) (unit : Nat) : Mode :=
  if 0xD800 ≤ unit ∧ unit < 0xDC00 then .string (settle chars high?) (some unit)
  else if 0xDC00 ≤ unit ∧ unit < 0xE000 then
    match high? with
    | some high =>
      .string (Char.ofNat (0x10000 + (high - 0xD800) * 0x400 + (unit - 0xDC00)) :: chars) none
    | none => .string (Rune.replacement :: chars) none
  else .string (Char.ofNat unit :: settle chars high?) none

/-- Reads a character between tokens. -/
def scanBetween (tokens : List Token) (c : Char) : Option Scan :=
  if isSpace c then some ⟨tokens, .between⟩
  else match c with
    | '[' => some ⟨.openArray :: tokens, .between⟩
    | ']' => some ⟨.closeArray :: tokens, .between⟩
    | '{' => some ⟨.openObject :: tokens, .between⟩
    | '}' => some ⟨.closeObject :: tokens, .between⟩
    | ',' => some ⟨.comma :: tokens, .between⟩
    | ':' => some ⟨.colon :: tokens, .between⟩
    | '"' => some ⟨tokens, .string [] none⟩
    | c => some ⟨tokens, .word [c]⟩

/-- Whether a character ends a word. -/
def endsWord (c : Char) : Bool :=
  isSpace c || c == '[' || c == ']' || c == '{' || c == '}' || c == ',' || c == ':' || c == '"'

/-- Reads one character. -/
def scanChar (s : Scan) (c : Char) : Option Scan :=
  match s.mode with
  | .between => scanBetween s.tokens c
  | .word chars =>
    if endsWord c then do
      let value ← word? chars.reverse
      scanBetween (.value value :: s.tokens) c
    else some { s with mode := .word (c :: chars) }
  | .string chars high? =>
    if c = '"' then some ⟨.string (.ofChars (settle chars high?).reverse) :: s.tokens, .between⟩
    else if c = '\\' then some { s with mode := .escape chars high? }
    else if c.toNat < 0x20 then none
    else some { s with mode := .string (c :: settle chars high?) none }
  | .escape chars high? =>
    if c = 'u' then some { s with mode := .unicode chars high? [] }
    else (simpleEscape? c).map fun e => { s with mode := .string (e :: settle chars high?) none }
  | .unicode chars high? digits =>
    if digits.length < 3 then
      (hexValue? c).map fun _ => { s with mode := .unicode chars high? (c :: digits) }
    else do
      let values ← (c :: digits).reverse.mapM hexValue?
      some { s with mode := afterUnicode chars high? (values.foldl (fun n d => n * 16 + d) 0) }

/-- The tokens of a text. -/
def tokens? (text : Text) : Option (List Token) := do
  let s ← text.chars.foldlM scanChar ⟨[], .between⟩
  match s.mode with
  | .between => some s.tokens.reverse
  | .word chars => do
    let value ← word? chars.reverse
    some (.value value :: s.tokens).reverse
  | _ => none

/-! ### Building values -/

/-- An array or object that is still open, its contents last first. -/
inductive Frame
  | array (items : List Json)
  | object (members : List (Text × Json)) (name : Text)

/-- What may come next. -/
inductive Expectation
  | value
  | valueOrClose
  | name (members : List (Text × Json))
  | nameOrClose
  | colon (members : List (Text × Json)) (name : Text)
  | commaOrClose
  | nothing

/-- A document that has been read in part. -/
structure Build where
  stack : List Frame
  depth : Nat
  expects : Expectation
  result? : Option Json

/-- The deepest nesting that is read. -/
def maxDepth : Nat := 10000

/-- Puts a value where it belongs. -/
def put (b : Build) (value : Json) : Build :=
  match b.stack with
  | [] => { b with expects := .nothing, result? := some value }
  | .array items :: stack =>
    { b with stack := .array (value :: items) :: stack, expects := .commaOrClose }
  | .object members name :: stack =>
    { b with stack := .object ((name, value) :: members) name :: stack, expects := .commaOrClose }

/-- Puts a value where a value may come. -/
def putExpected (b : Build) (value : Json) : Option Build :=
  match b.expects with
  | .value | .valueOrClose => some (put b value)
  | _ => none

/-- Opens an array or object. -/
def enter (b : Build) (frame : Frame) (expects : Expectation) : Option Build :=
  match b.expects with
  | .value | .valueOrClose =>
    if b.depth < maxDepth then
      some { b with stack := frame :: b.stack, depth := b.depth + 1, expects := expects }
    else none
  | _ => none

/-- Closes an array or object. -/
def close (b : Build) (stack : List Frame) (value : Json) : Build :=
  put { b with stack := stack, depth := b.depth - 1 } value

/-- Reads one token. -/
def buildToken (b : Build) (t : Token) : Option Build :=
  match t with
  | .value value => putExpected b value
  | .string text =>
    match b.expects, b.stack with
    | .name members, _ => some { b with expects := .colon members text }
    | .nameOrClose, _ => some { b with expects := .colon [] text }
    | _, _ => putExpected b (.string text)
  | .openArray => enter b (.array []) .valueOrClose
  | .openObject => enter b (.object [] .empty) .nameOrClose
  | .closeArray =>
    match b.expects, b.stack with
    | .valueOrClose, .array _ :: stack => some (close b stack (.array []))
    | .commaOrClose, .array items :: stack => some (close b stack (.array items.reverse))
    | _, _ => none
  | .closeObject =>
    match b.expects, b.stack with
    | .nameOrClose, .object _ _ :: stack => some (close b stack (.object []))
    | .commaOrClose, .object members _ :: stack => some (close b stack (.object members.reverse))
    | _, _ => none
  | .comma =>
    match b.expects, b.stack with
    | .commaOrClose, .array _ :: _ => some { b with expects := .value }
    | .commaOrClose, .object members _ :: _ => some { b with expects := .name members }
    | _, _ => none
  | .colon =>
    match b.expects, b.stack with
    | .colon members name, .object _ _ :: stack =>
      some { b with stack := .object members name :: stack, expects := .value }
    | _, _ => none

/-- The value that a text spells. -/
def parse? (text : Text) : Option Json := do
  let tokens ← tokens? text
  let b ← tokens.foldlM buildToken ⟨[], 0, .value, none⟩
  match b.expects with
  | .nothing => b.result?
  | _ => none

end SheetFormula.Json
