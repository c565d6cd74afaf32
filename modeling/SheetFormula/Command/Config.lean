import SheetFormula.Expression.Build

/-!
# Configuration

The settings that all commands share.  They come from environment variables, of which those that
make no sense are passed over, and can be changed by flags.
-/

namespace SheetFormula

/-- The settings of all commands. -/
structure Config where
  numberKind : NumberKind := .decimal
  twoDigitYear : Int := 20
  defaultYear : Int := 0
  valueSeparator : Char := ','
  decimalSeparator : Char := '.'
  logLevel : Text := "warn"

/-- The only character of a text, unless that is the replacement character. -/
def singleChar? (text : Text) : Option Char :=
  match text.runes with
  | [.scalar c] => if c = Rune.replacement then none else some c
  | _ => none

namespace Config

/-- The value of an environment variable as an integer. -/
def integer? (value : Text) : Option Int :=
  match readInteger 64 value.chars with
  | .ok n => some n
  | .error _ => none

/-- The configuration of an environment. -/
def ofEnvironment (find? : String → Option Text) : Config where
  numberKind := ((find? "FORMULA_NUMBER_KIND").bind NumberKind.ofName?).getD .decimal
  twoDigitYear := ((find? "FORMULA_TWO_DIGIT_YEAR").bind integer?).getD 20
  defaultYear := ((find? "FORMULA_DEFAULT_YEAR").bind integer?).getD 0
  valueSeparator := ((find? "FORMULA_VALUE_SEPARATOR").bind singleChar?).getD ','
  decimalSeparator := ((find? "FORMULA_DECIMAL_SEPARATOR").bind singleChar?).getD '.'
  logLevel := ((find? "FORMULA_LOG_LEVEL").filter (!·.isEmpty)).getD "warn"

/-- Both separators are the same character. -/
structure SeparatorClash where
  separator : Char

/-- How the clash is told. -/
def SeparatorClash.message (e : SeparatorClash) : Text :=
  .join ["value separator and decimal separator are both ", quotedChar e.separator]

/-- The American English locale with the configured separators. -/
def locale (c : Config) : Except SeparatorClash Locale :=
  if c.valueSeparator = c.decimalSeparator then .error ⟨c.valueSeparator⟩
  else .ok { valueSeparator := c.valueSeparator, decimalSeparator := c.decimalSeparator }

/-- The configured settings for expressions. -/
def settings (c : Config) (today : Date) : Settings where
  numberKind := c.numberKind
  twoDigitYear := c.twoDigitYear
  defaultYear := c.defaultYear
  today := today

end Config

end SheetFormula
