import SheetFormula.Text.Integer

/-!
# Cursors

A cursor stands at a position of the text being parsed; what lies behind it is the list of runes
still to be read.  Past the last rune a cursor shows the character NUL, and a rule for a symbol that
is NUL may move it further: the position then exceeds the length of the text.
-/

namespace SheetFormula

/-- The character shown past the end of a text. -/
def nul : Char := '\x00'

/-- A position in a text and the runes from there on. -/
structure Cursor where
  pos : Nat
  rest : List Rune
deriving DecidableEq

namespace Cursor

/-- The cursor at the start of a text. -/
def start (text : Text) : Cursor := ⟨0, text.runes⟩

/-- Whether nothing is left to be read. -/
def atEnd (c : Cursor) : Bool := c.rest.isEmpty

/-- The character `offset` runes further on. -/
def peek (c : Cursor) (offset : Nat) : Char :=
  match c.rest[offset]? with
  | some r => r.value
  | none => nul

/-- The character at the cursor. -/
def current (c : Cursor) : Char :=
  match c.rest with
  | r :: _ => r.value
  | [] => nul

/-- The cursor `count` positions further on. -/
def advance (c : Cursor) (count : Nat) : Cursor := ⟨c.pos + count, c.rest.drop count⟩

/-- The cursor behind the current rune, if there is one. -/
def next (c : Cursor) : Cursor := if c.atEnd then c else c.advance 1

/-- The runes at the cursor that satisfy `p`, up to the first that does not. -/
def run (c : Cursor) (p : Char → Bool) : List Rune := c.rest.takeWhile fun r => p r.value

/-- The cursor behind the runes that satisfy `p`. -/
def skip (c : Cursor) (p : Char → Bool) : Cursor := c.advance (c.run p).length

/-- The text between a cursor and a later one. -/
def textTo (c stop : Cursor) : Text := .ofRunes (c.rest.take (stop.pos - c.pos))

/-- Whether `word` stands at the cursor, NUL standing for what lies past the end. -/
def shows (word : List Char) (rest : List Rune) : Bool :=
  match word, rest with
  | [], _ => true
  | ch :: more, [] => ch == nul && shows more []
  | ch :: more, r :: rest => r.value == ch && shows more rest

end Cursor

/-! ### Classes of characters -/

/-- Whether a character is an ASCII letter. -/
def isLetter (c : Char) : Bool := ('a' ≤ c && c ≤ 'z') || ('A' ≤ c && c ≤ 'Z')

/-- Whether a character may stand between the tokens of a formula. -/
def isBlank (c : Char) : Bool := c == ' ' || c == '\t' || c == '\n' || c == '\r'

/-- Whether a character may stand in a label after its first character. -/
def isLabelPart (c : Char) : Bool := isLetter c || isDigit c || c == '_' || c == '.'

/-- Whether a label may start with a character. -/
def isLabelStart (c : Char) : Bool := isLetter c || c == '_'

end SheetFormula
