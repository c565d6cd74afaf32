import SheetFormula.Text.Basic

/-!
# Dates and times of day

Dates are those of the proleptic Gregorian calendar.  `Date.isReal` tells the days that the calendar
has; the `text` functions write dates as `2000-02-29` and times as `13:45:00`, with nine digits of a
second's fraction when there is one.
-/

namespace SheetFormula

/-- The decimal digits of an integer, with zeros after the sign up to `width` characters. -/
def Text.ofIntPadded (width : Nat) : Int → Text
  | .ofNat n => ofNatPadded width n
  | .negSucc n => ofString "-" ++ ofNatPadded (width - 1) (n + 1)

/-- The English names of the months. -/
def monthNames : List String :=
  ["January", "February", "March", "April", "May", "June", "July", "August", "September",
    "October", "November", "December"]

/-- The most days that month number `month` can have, and 0 for no month. -/
def mostDays (month : Int) : Int :=
  if month = 2 then 29
  else if month = 4 ∨ month = 6 ∨ month = 9 ∨ month = 11 then 30
  else if 1 ≤ month ∧ month ≤ 12 then 31
  else 0

/-- Whether the calendar gives February of this year 29 days. -/
def isLeapYear (year : Int) : Bool := year % 4 == 0 && (year % 100 != 0 || year % 400 == 0)

/-- A day, month and year, whether or not the calendar has that day. -/
structure Date where
  year : Int
  month : Int
  day : Int
deriving DecidableEq

namespace Date

/-- The number of days of the date's month in the date's year. -/
def monthLength (date : Date) : Int :=
  if date.month = 2 ∧ !isLeapYear date.year then 28 else mostDays date.month

/-- Whether the calendar has the day. -/
def isReal (date : Date) : Bool :=
  1 ≤ date.month && date.month ≤ 12 && 1 ≤ date.day && date.day ≤ date.monthLength

/-- The text form of a date. -/
def text (date : Date) : Text :=
  .join [.ofIntPadded 4 date.year, "-", .ofIntPadded 2 date.month, "-", .ofIntPadded 2 date.day]

end Date

/-- A time of day to the nanosecond. -/
structure TimeOfDay where
  hour : Int
  minute : Int
  second : Int
  nanosecond : Int
deriving DecidableEq

namespace TimeOfDay

/-- The first moment of a day. -/
def midnight : TimeOfDay := ⟨0, 0, 0, 0⟩

/-- The text form of a time of day. -/
def text (time : TimeOfDay) : Text :=
  let seconds : Text := .join [.ofIntPadded 2 time.hour, ":", .ofIntPadded 2 time.minute, ":",
    .ofIntPadded 2 time.second]
  if time.nanosecond = 0 then seconds else .join [seconds, ".", .ofIntPadded 9 time.nanosecond]

end TimeOfDay

end SheetFormula
