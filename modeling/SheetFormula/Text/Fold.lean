import SheetFormula.Text.Basic
import SheetFormula.Text.Casing

/-!
# Texts without regard to case

Two words are the same up to case when their foldings are the same texts.  `Text.fold` is full case
folding, which may lengthen a text; stray bytes stay as they are.  `Text.likeAscii` compares with
an ASCII word character by character instead.
-/

namespace SheetFormula

/-- The folding of one rune. -/
def Rune.fold : Rune → List UInt8
  | .scalar c => (foldChar c).flatMap String.utf8EncodeChar
  | .stray b => [b]

/-- The folding of a list of runes. -/
def foldRunes (rs : List Rune) : Text := ⟨rs.flatMap Rune.fold⟩

/-- The full case folding of a text. -/
def Text.fold (t : Text) : Text := foldRunes t.runes

/-- The lower-case ASCII letter that a character is a case variant of, if there is one; otherwise
the character itself.  Beside the ASCII letters these are the long s and the Kelvin sign. -/
def asciiVariant (c : Char) : Char :=
  if c = '\u017F' then 's' else if c = '\u212A' then 'k' else asciiLower c

/-- Whether a text is an ASCII word up to case, character by character. -/
def Text.likeAscii (t : Text) (word : String) : Bool :=
  t.chars.map asciiVariant == word.toList.map asciiVariant

end SheetFormula
