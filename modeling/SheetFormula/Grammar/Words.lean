import SheetFormula.Grammar.Cursor
import SheetFormula.Text.Fold

/-!
# Lists of words

Month names, booleans and the like are recognised without regard to case.  A `WordList` holds words
with what they stand for; of the words that stand at a cursor the longest is taken.  A word of `n`
characters is compared with the next `n` runes, both folded.
-/

namespace SheetFormula

/-- A word, folded, with its length in runes and what it stands for. -/
structure Word (α : Type) where
  folded : Text
  length : Nat
  meaning : α

/-- A word with what it stands for. -/
def Word.of {α : Type} (text : Text) (meaning : α) : Word α := ⟨text.fold, text.runeCount, meaning⟩

/-- Words to be recognised. -/
abbrev WordList (α : Type) := List (Word α)

namespace WordList

variable {α : Type}

/-- The word list of texts and meanings. -/
def of (entries : List (Text × α)) : WordList α :=
  entries.map fun (text, meaning) => .of text meaning

/-- Whether a word stands at the front of some runes. -/
def standsAt (w : Word α) (rest : List Rune) : Bool :=
  let runes := rest.take w.length
  runes.length == w.length && w.length != 0 && foldRunes runes == w.folded

/-- The longest word at the front of some runes, the first of several. -/
def longestAt (words : WordList α) (rest : List Rune) : Option (Word α) :=
  words.foldl (fun best w =>
    if (best.map Word.length).getD 0 < w.length && standsAt w rest then some w else best) none

/-- The longest word at a cursor, and the cursor behind it. -/
def matchAt (words : WordList α) (c : Cursor) : Option (Word α × Cursor) :=
  (words.longestAt c.rest).map fun w => (w, c.advance w.length)

/-- The longest word at a cursor, unless it runs into further letters. -/
def matchWhole (words : WordList α) (c : Cursor) : Option (Word α × Cursor) :=
  (words.matchAt c).filter fun (_, next) => !isLetter next.current

end WordList

end SheetFormula
