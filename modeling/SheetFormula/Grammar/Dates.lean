import SheetFormula.Grammar.Numbers

/-!
# Dates and times

The layouts in which dates and times are written.  A date or time that is laid out correctly but
does not make sense is absent, so that its text can be read as something else.
-/

namespace SheetFormula.Rule

/-- One of the date separators of the locale. -/
def dateSeparator (g : Grammar) : Rule :=
  alternatives (g.locale.dateSeparators.map fun c => symbol .dateSeparator [c])

/-- Blanks or a date separator. -/
def spaceOrSeparator (g : Grammar) : Rule := alternatives [whitespace, dateSeparator g]

/-- The number of a day. -/
def day : Rule := digitsComponent .dayNumber 1 2 1 31

/-- The number of a month. -/
def month : Rule := digitsComponent .monthNumber 1 2 1 12

/-- A year of four digits. -/
def fullYear : Rule := digitsComponent .year 4 4 0 9999

/-- A year of four digits, or of one or two. -/
def year : Rule := alternatives [fullYear, digitsComponent .year 1 2 0 99]

/-- A month written as a word. -/
def monthWord (g : Grammar) : Rule :=
  alternatives [
    nameComponent .monthName g.lexicon.months,
    nameComponent .monthNameAbbreviation g.lexicon.monthAbbreviations,
    nameComponent .monthNameInitial g.lexicon.monthInitials]

/-- The name of a day. -/
def dayWord (g : Grammar) : Rule :=
  alternatives [
    nameComponent .dayName g.lexicon.days,
    nameComponent .dayNameAbbreviation g.lexicon.dayAbbreviations]

/-- The layouts of a date after the name of the day. -/
def dateLayouts (g : Grammar) : Rule :=
  alternatives [
    sequence [fullYear, dateSeparator g, month, dateSeparator g, day],
    sequence [day, dateSeparator g, month, dateSeparator g, year],
    sequence [day, dateSeparator g, month],
    sequence [day, spaceOrSeparator g, monthWord g, spaceOrSeparator g, year],
    sequence [day, spaceOrSeparator g, monthWord g],
    sequence [monthWord g, spaceOrSeparator g, year]]

/-- Whether leaves are the components of a date. -/
def isDate (children : List Node) : Bool :=
  match dateParts children with
  | .ok _ => true
  | .error _ => false

/-- A date. -/
def date (g : Grammar) : Rule :=
  validated
    (sequence [
      optional (sequence [dayWord g, optional (symbol .comma [',']), whitespace]),
      dateLayouts g])
    isDate Node.date

/-- Whether leaves are the components of a time. -/
def isTime (children : List Node) : Bool :=
  match timeOfDay children with
  | .ok _ => true
  | .error _ => false

/-- The word for morning or afternoon. -/
def meridiem (g : Grammar) : Rule := nameComponent .meridiem g.lexicon.meridiems

/-- The time separator of the locale. -/
def timeSeparator (g : Grammar) : Rule := symbol .timeSeparator [g.locale.timeSeparator]

/-- The fraction of a second behind its separator. -/
def fractionPart (g : Grammar) : Rule :=
  optional (sequence [symbol .decimalSeparator [g.locale.decimalSeparator], secondFraction])

/-- The seconds behind their separator. -/
def secondsPart (g : Grammar) : Rule :=
  optional (sequence [timeSeparator g, digitsComponent .seconds 2 2 0 59, fractionPart g])

/-- A time. -/
def time (g : Grammar) : Rule :=
  validated
    (alternatives [
      sequence [
        digitsComponent .hour 1 2 0 23, timeSeparator g, digitsComponent .minute 2 2 0 59,
        secondsPart g, optional (sequence [optionalWhitespace, meridiem g])],
      sequence [digitsComponent .hour 1 2 0 12, optionalWhitespace, meridiem g]])
    isTime Node.time

/-- A date, blanks and a time. -/
def dateTime (g : Grammar) : Rule :=
  transform (sequence [date g, whitespace, time g]) Node.dateTime

end SheetFormula.Rule
