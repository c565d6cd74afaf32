import SheetFormula.Grammar.Locale
import SheetFormula.Grammar.Rule

/-!
# References, names and literals

The rules for the tokens that do not depend on the locale: columns, rows and cells, labels, names of
template values and functions, error texts, booleans and quoted text.  A name is told apart from a
cell by what follows it: `A1` is a cell, `A1B` a label and `LOG10(` a function.
-/

namespace SheetFormula.Rule

/-- A leaf with the text between two cursors, with the cursor behind it. -/
def leafBetween (content : Content) (c next : Cursor) : Outcome × Cursor :=
  (.found [.leaf content (c.textTo next)], next)

/-- The cursor behind a `$`, if there is one. -/
def skipAbsolute (c : Cursor) : Cursor := if c.current == '$' then c.next else c

/-- Letters after an optional `$`.  The cursor is left behind the letters. -/
def readColumn : Rule := fun c =>
  let letters := skipAbsolute c
  let next := letters.skip isLetter
  if next.pos = letters.pos then (.absent, next)
  else match Column.parse (c.textTo next) with
    | .ok column => leafBetween (.column column) c next
    | .error e => (.failed (.parse ⟨c.pos, .reference e⟩), next)

/-- Digits after an optional `$`.  The cursor is left behind the digits. -/
def readRow : Rule := fun c =>
  let digits := skipAbsolute c
  let next := digits.skip isDigit
  if next.pos = digits.pos then (.absent, next)
  else match Row.parse (c.textTo next) with
    | .ok row => leafBetween (.row row) c next
    | .error e => (.failed (.parse ⟨c.pos, .reference e⟩), next)

/-- Whether a row starts at a cursor. -/
def rowFollows (c : Cursor) : Bool :=
  isDigit c.current || (c.current == '$' && isDigit (c.peek 1))

/-- A column and a row that nothing else of a name follows.  Too many letters are an error only when
a row follows them, and too large a row only when no label goes on behind it. -/
def readCell : Rule := fun c =>
  match readColumn c with
  | (.found column, afterColumn) =>
    match readRow afterColumn with
    | (.found row, next) =>
      if isLabelPart next.current || next.current == '(' then (.absent, next)
      else built (Node.cell (column ++ row)) next
    | (.failed e, next) =>
      if isLabelPart next.current then (.absent, next) else (.failed e, next)
    | answer => answer
  | (.failed e, next) => if rowFollows next then (.failed e, next) else (.absent, next)
  | answer => answer

/-- A column. -/
def column : Rule := restoring readColumn

/-- A row. -/
def row : Rule := restoring readRow

/-- A cell. -/
def cell : Rule := restoring readCell

/-- Two cells with a colon between them. -/
def cellRange : Rule :=
  transform (sequence [cell, symbol .between [':'], cell]) Node.cellRange

/-! ### Names -/

/-- The largest number of bytes of a label. -/
def maxLabelLength : Nat := 255

/-- Whether a text is a boolean. -/
def isBoolean (text : Text) : Bool :=
  match booleanWords.matchWhole (.start text) with
  | some (w, _) => w.length == text.size
  | none => false

/-- Whether a text is a cell. -/
def isCell (text : Text) : Bool :=
  match Cell.parse text with
  | .ok _ => true
  | .error _ => false

/-- A label: a name that is no function, boolean or cell. -/
def label : Rule := fun c =>
  if !isLabelStart c.current then (.absent, c)
  else
    let next := c.skip isLabelPart
    let text := c.textTo next
    if maxLabelLength < text.size || next.current == '(' || isBoolean text || isCell text then
      (.absent, c)
    else
      leafBetween (.label text) c next

/-- The name of a template value, in which dashes may stand too. -/
def templateValueName : Rule := fun c =>
  if !isLabelStart c.current then (.absent, c)
  else
    let next := c.skip fun ch => isLabelPart ch || ch == '-'
    leafBetween (.template (c.textTo next)) c next

/-- A name with its letters in upper case. -/
def upperCase (text : Text) : Text := .ofChars (text.chars.map asciiUpper)

/-- The name of a function, right before an opening parenthesis. -/
def functionName : Rule := fun c =>
  if !isLetter c.current then (.absent, c)
  else
    let next := c.skip isLabelPart
    if next.current != '(' then (.absent, c)
    else leafBetween (.functionName (upperCase (c.textTo next))) c next

/-- The name of the function whose parameters are followed by the values it is called with. -/
def lambdaName : Rule := fun c =>
  match functionName c with
  | (.found [.leaf (.functionName name) text], next) =>
    if name = "LAMBDA" then (.found [.leaf (.functionName name) text], next) else (.absent, c)
  | answer => answer

/-! ### Literals -/

/-- The text of an error. -/
def errorLiteral : Rule := fun c =>
  if c.current != '#' then (.absent, c)
  else match errorWords.matchAt c with
    | some (w, next) => leafBetween (.error w.meaning) c next
    | none => (.absent, c)

/-- A boolean, unless it is the beginning of a longer name. -/
def boolean : Rule := fun c =>
  match booleanWords.matchWhole c with
  | some (w, next) =>
    if isLabelPart next.current || next.current == '(' then (.absent, c)
    else leafBetween (.boolean w.meaning) c next
  | none => (.absent, c)

/-- Reads quoted text up to the closing quote; two quotes stand for one.  `value` holds what was
read, last first, and the answer is the value and the number of runes read, or only that number when
there is no closing quote. -/
def readQuoted (value : List Rune) (count : Nat) : List Rune → Except Nat (List Rune × Nat)
  | [] => .error count
  | r :: rest =>
    if r.value = '"' then
      match rest with
      | s :: rest =>
        if s.value = '"' then readQuoted (s :: value) (count + 2) rest
        else .ok (value.reverse, count)
      | [] => .ok (value.reverse, count)
    else readQuoted (r :: value) (count + 1) rest

/-- A double quote. -/
def quoteLeaf : Node := .leaf (.symbol .doubleQuote) "\""

/-- Text between double quotes. -/
def quotedText : Rule := fun c =>
  if c.current != '"' then (.absent, c)
  else
    let inside := c.next
    match readQuoted [] 0 inside.rest with
    | .ok (value, count) =>
      let close := inside.advance count
      let literal : Node := .leaf (.literal (.ofRunes value)) (inside.textTo close)
      built (Node.quotation [quoteLeaf, literal, quoteLeaf]) close.next
    | .error count =>
      let stop := inside.advance count
      (.failed (.parse (.unexpectedAt stop)), stop)

/-- All that is left, as a literal. -/
def remainingLiteral : Rule := fun c =>
  let text := Text.ofRunes c.rest
  (.found [.leaf (.literal text) text], c.advance c.rest.length)

/-- Text after an apostrophe. -/
def apostropheText : Rule :=
  transform (sequence [symbol .apostrophe ['\''], remainingLiteral]) Node.quotation

/-- All that is left, as text, if there is any. -/
def wholeText : Rule := fun c =>
  if c.atEnd then (.absent, c) else transform remainingLiteral Node.quotation c

end SheetFormula.Rule
