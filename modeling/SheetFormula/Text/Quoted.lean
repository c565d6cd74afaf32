import SheetFormula.Text.Basic
import SheetFormula.Text.Printable

/-!
# Quoted text in messages

Messages show texts between double quotes and single characters between single quotes.  Printable
characters stand for themselves; the quote in use, the backslash and everything else is escaped, a
stray byte by its two hexadecimal digits.
-/

namespace SheetFormula

/-- The lower-case hexadecimal digits of `n`, with zeros in front up to `width` digits. -/
def hexDigits (width n : Nat) : List Char :=
  let digits := Nat.toDigits 16 n
  List.replicate (width - digits.length) '0' ++ digits

/-- The letter that escapes a control character. -/
def controlLetter? (c : Char) : Option Char :=
  match c.toNat with
  | 7 => some 'a'
  | 8 => some 'b'
  | 9 => some 't'
  | 10 => some 'n'
  | 11 => some 'v'
  | 12 => some 'f'
  | 13 => some 'r'
  | _ => none

/-- A character as written between quotes of the given kind. -/
def escapedChar (quote c : Char) : List Char :=
  if c = quote ∨ c = '\\' then ['\\', c]
  else if isPrintable c then [c]
  else match controlLetter? c with
    | some letter => ['\\', letter]
    | none =>
      let n := c.toNat
      if n < 0x20 ∨ n = 0x7F then '\\' :: 'x' :: hexDigits 2 n
      else if n < 0x10000 then '\\' :: 'u' :: hexDigits 4 n
      else '\\' :: 'U' :: hexDigits 8 n

/-- A rune as written between double quotes. -/
def Rune.escaped : Rune → List Char
  | .scalar c => escapedChar '"' c
  | .stray b => '\\' :: 'x' :: hexDigits 2 b.toNat

/-- The text between double quotes. -/
def Text.quoted (t : Text) : Text :=
  .ofChars ('"' :: t.runes.flatMap Rune.escaped ++ ['"'])

/-- The character between single quotes. -/
def quotedChar (c : Char) : Text :=
  .ofChars ('\'' :: escapedChar '\'' c ++ ['\''])

end SheetFormula
