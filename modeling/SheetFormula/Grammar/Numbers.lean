import SheetFormula.Grammar.Locale
import SheetFormula.Grammar.Rule

/-!
# Numbers

A number is digits with an optional fraction, exponent and percent signs; a signed number may start
with a sign.  A number that is written correctly but has no value is an error, not absent.  The
module also has the rules for the numbers in dates and times, which have a fixed number of digits.
-/

namespace SheetFormula

/-- The rules of a locale. -/
structure Grammar where
  locale : Locale
  lexicon : Lexicon

/-- The grammar of a locale. -/
def Grammar.ofLocale (l : Locale) : Grammar := ⟨l, .ofLocale l⟩

namespace Rule

/-- A symbol leaf written as one character. -/
def signLeaf (s : Symbol) (c : Char) : Node := .leaf (.symbol s) (.ofChars [c])

/-- A sign that is one of two characters, if it stands at the cursor. -/
def sign (minus plus : Char) (c : Cursor) : List Node × Cursor :=
  if c.current == minus then ([signLeaf .minus minus], c.next)
  else if c.current == plus then ([signLeaf .plus plus], c.next)
  else ([], c)

/-- The digits at the cursor, if there are any. -/
def digits (c : Cursor) : List Node × Cursor :=
  let next := c.skip isDigit
  if next.pos = c.pos then ([], c) else ([.leaf .digits (c.textTo next)], next)

/-- The separator and the digits behind it, if the separator stands at the cursor. -/
def fraction (separator : Char) (c : Cursor) : Option (List Node × List Node × Cursor) :=
  if c.current == separator then
    let point : Node := .leaf (.symbol .decimalSeparator) (.ofRunes (c.rest.take 1))
    let (places, next) := digits c.next
    some ([point], places, next)
  else
    none

/-- The exponent at the cursor.  A mark without digits behind it is no exponent. -/
def exponent (marks : WordList Unit) (c : Cursor) : List Node × Cursor :=
  match marks.matchAt c with
  | none => ([], c)
  | some (_, afterMark) =>
    let mark : Node := .leaf (.symbol .exponent) (c.textTo afterMark)
    let (minusPlus, afterSign) := sign '-' '+' afterMark
    match digits afterSign with
    | ([], _) => ([], c)
    | (places, next) => (mark :: minusPlus ++ places, next)

/-- The percent signs at the cursor. -/
def percents (percent : Char) (c : Cursor) : List Node × Cursor :=
  let next := c.skip (· == percent)
  (List.replicate (next.pos - c.pos) (signLeaf .percent percent), next)

/-- The leaves of the whole part and the fraction of a number, if it has digits. -/
def mantissa (separator : Char) (c : Cursor) : Option (List Node × Cursor) :=
  let (whole, afterWhole) := digits c
  match fraction separator afterWhole with
  | some (point, places, next) =>
    if whole.isEmpty && places.isEmpty then none else some (whole ++ point ++ places, next)
  | none => if whole.isEmpty then none else some (whole, afterWhole)

/-- A number, which may have a sign when it is `signed`.  When the percent sign is NUL, the end of
the text shows percent signs without end. -/
def number (g : Grammar) (signed : Bool) : Rule := fun c =>
  let (signs, afterSign) :=
    if signed then sign g.locale.negativeSign g.locale.positiveSign c else ([], c)
  match mantissa g.locale.decimalSeparator afterSign with
  | none => (.absent, c)
  | some (places, afterPlaces) =>
    let (power, afterPower) := exponent g.lexicon.exponent afterPlaces
    let (hundredths, next) := percents g.locale.percentSymbol afterPower
    if next.atEnd && g.locale.percentSymbol == nul then (.failed .endless, next)
    else
      let children := signs ++ places ++ power ++ hundredths
      match numberValue children with
      | .ok _ => built (Node.number children) next
      | .error fault => (.failed (.parse ⟨c.pos, .number (c.textTo next) fault⟩), next)

/-! ### The numbers of dates and times -/

/-- The cursor behind at most `most` digits. -/
def skipDigits (most : Nat) (c : Cursor) : Cursor :=
  c.advance ((c.rest.take most).takeWhile fun r => isDigit r.value).length

/-- A component of `fewest` to `most` digits that no digit follows, between `low` and `high`. -/
def digitsComponent (component : Component) (fewest most low high : Nat) : Rule := fun c =>
  let next := skipDigits most c
  if next.pos - c.pos < fewest || isDigit next.current then (.absent, c)
  else
    let text := c.textTo next
    match readInteger 64 text.chars with
    | .ok value =>
      if value < low ∨ high < value then (.absent, c)
      else (.found [.leaf (.component component value) text], next)
    | .error _ => (.absent, c)

/-- The number of digits of a nanosecond. -/
def fractionDigits : Nat := 9

/-- The fraction of a second, which no further digit follows. -/
def secondFraction : Rule := fun c =>
  let next := skipDigits fractionDigits c
  if next.pos = c.pos || isDigit next.current then (.absent, c)
  else
    let text := c.textTo next
    match readInteger 64 (text.chars ++ List.replicate (fractionDigits - text.size) '0') with
    | .ok value => (.found [.leaf (.component .fraction value) text], next)
    | .error _ => (.absent, c)

/-- A component that is written as a word. -/
def nameComponent (component : Component) (words : WordList Int) : Rule := fun c =>
  match words.matchWhole c with
  | some (w, next) => (.found [.leaf (.component component w.meaning) (c.textTo next)], next)
  | none => (.absent, c)

end Rule

end SheetFormula
