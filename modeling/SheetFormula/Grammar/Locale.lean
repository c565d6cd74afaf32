import SheetFormula.Calendar
import SheetFormula.ErrorCode
import SheetFormula.Grammar.Words

/-!
# Locales

The separators, signs and names that a grammar recognises are those of a locale.  `Locale` has the
American English ones as defaults, and `Lexicon.ofLocale` prepares its words.
-/

namespace SheetFormula

/-- The signs and names of a locale.  A sign is a `Char`, that is, a Unicode scalar value.  A rune
that is none, a surrogate or one beyond U+10FFFF, has no counterpart here: no text shows one. -/
structure Locale where
  valueSeparator : Char := ','
  decimalSeparator : Char := '.'
  exponentSymbol : Text := "E"
  percentSymbol : Char := '%'
  negativeSign : Char := '-'
  positiveSign : Char := '+'
  dateSeparators : List Char := ['/', '-']
  timeSeparator : Char := ':'
  monthNames : List Text := SheetFormula.monthNames.map Text.ofString
  monthAbbreviations : List Text :=
    ["Jan", "Feb", "Mar", "Apr", "May", "Jun", "Jul", "Aug", "Sep", "Oct", "Nov", "Dec"]
  /-- Sunday first. -/
  dayNames : List Text :=
    ["Sunday", "Monday", "Tuesday", "Wednesday", "Thursday", "Friday", "Saturday"]
  /-- Sunday first. -/
  dayAbbreviations : List Text := ["Sun", "Mon", "Tue", "Wed", "Thu", "Fri", "Sat"]
  /-- The words for morning and afternoon. -/
  meridiems : List Text := ["AM", "PM"]

/-- Words numbered from `first` on. -/
def numberedFrom (first : Int) (words : List Text) : List (Text × Int) :=
  words.zipIdx.map fun (word, i) => (word, first + i)

/-- The folded first letter of a name, if it has one. -/
def initial? (name : Text) : Option Text :=
  match name.runes with
  | .scalar c :: _ => if c = Rune.replacement then none else some (foldRunes [.scalar c])
  | _ => none

/-- The first letters that only one of the names starts with, with the number of that name from 1
on. -/
def uniqueInitials (names : List Text) : List (Text × Int) :=
  let initials := (numberedFrom 1 names).filterMap fun (name, i) => (initial? name).map (·, i)
  initials.filter fun (letter, _) => (initials.map Prod.fst).count letter == 1

/-- The words of a locale, ready to be recognised. -/
structure Lexicon where
  months : WordList Int
  monthAbbreviations : WordList Int
  monthInitials : WordList Int
  days : WordList Int
  dayAbbreviations : WordList Int
  meridiems : WordList Int
  exponent : WordList Unit

/-- The words of a locale.  Months count from 1, days from 0, and a meridiem is the hours it adds.
-/
def Lexicon.ofLocale (l : Locale) : Lexicon where
  months := .of (numberedFrom 1 l.monthNames)
  monthAbbreviations := .of (numberedFrom 1 l.monthAbbreviations)
  monthInitials := .of (uniqueInitials l.monthNames)
  days := .of (numberedFrom 0 l.dayNames)
  dayAbbreviations := .of (numberedFrom 0 l.dayAbbreviations)
  meridiems := .of ((numberedFrom 0 l.meridiems).map fun (word, i) => (word, 12 * i))
  exponent := .of [(l.exponentSymbol, ())]

/-- The two booleans. -/
def booleanWords : WordList Bool := .of [("FALSE", false), ("TRUE", true)]

/-- The texts of the listed error codes. -/
def errorWords : WordList ErrorCode := .of (ErrorCode.listed.map fun (code, text) => (text, code))

end SheetFormula
