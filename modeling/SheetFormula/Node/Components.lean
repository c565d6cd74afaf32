import SheetFormula.Node.Defect

/-!
# The components of dates and times

`dateParts` and `timeOfDay` read the component leaves of a date and of a time in any order, checking
that each fits and that none is given twice.  Which day a date means is only known once the missing
parts are filled in.
-/

namespace SheetFormula

namespace DateParts

/-- The parts of a date of which nothing has been read. -/
def none : DateParts := ⟨0, 0, 0, 0, -1⟩

/-- Reads one component of a date, written as `text`. -/
def readComponent (parts : DateParts) (component : Component) (value : Int) (text : Text) :
    Except ComponentFault DateParts :=
  match component with
  | .dayNumber =>
    if parts.day ≠ 0 then .error (.duplicate component)
    else if value < 1 ∨ 31 < value then .error (.outOfRange "day" value)
    else .ok { parts with day := value }
  | .monthNumber | .monthName | .monthNameAbbreviation | .monthNameInitial =>
    if parts.month ≠ 0 then .error (.duplicate component)
    else if value < 1 ∨ 12 < value then .error (.outOfRange "month" value)
    else .ok { parts with month := value }
  | .year =>
    if parts.yearDigits ≠ 0 then .error (.duplicate component)
    else if value < 0 ∨ 9999 < value then .error (.outOfRange "year" value)
    else .ok { parts with year := value, yearDigits := text.size }
  | .dayName | .dayNameAbbreviation =>
    if parts.weekday ≠ -1 then .error (.duplicate component)
    else .ok { parts with weekday := value }
  | _ => .error (.unexpected (.component component))

/-- Reads one child of a date. -/
def read (parts : DateParts) (child : Node) : Except ComponentFault DateParts :=
  match child with
  | .leaf (.symbol .dateSeparator) _ | .leaf (.symbol .comma) _ | .leaf .whitespace _ => .ok parts
  | .leaf (.component component value) text => parts.readComponent component value text
  | _ => .error (.unexpected child.kind)

end DateParts

/-- The parts that the children of a date give.  A day that its month never has is refused; whether
the year has a 29th of February is left open. -/
def dateParts (children : List Node) : Except ComponentFault DateParts := do
  let parts ← children.foldlM DateParts.read DateParts.none
  if parts.month ≠ 0 ∧ mostDays parts.month < parts.day then
    throw (.dayOfMonth parts.day parts.month)
  return parts

/-- What has been read of a time. -/
structure TimeReading where
  time : TimeOfDay := .midnight
  meridiem? : Option Int := none
  seen : List Component := []

namespace TimeReading

/-- Checks that a component lies between 0 and `most`. -/
def within (what : String) (value most : Int) (r : TimeReading) :
    Except ComponentFault TimeReading :=
  if value < 0 ∨ most < value then .error (.outOfRange what value) else .ok r

/-- Reads one component of a time. -/
def readComponent (r : TimeReading) (component : Component) (value : Int) :
    Except ComponentFault TimeReading :=
  if r.seen.contains component then .error (.duplicate component)
  else
    let r := { r with seen := component :: r.seen }
    match component with
    | .hour => within "hour" value 23 { r with time.hour := value }
    | .minute => within "minute" value 59 { r with time.minute := value }
    | .seconds => within "seconds" value 59 { r with time.second := value }
    | .fraction => within "fraction" value 999999999 { r with time.nanosecond := value }
    | .meridiem =>
      if value ≠ 0 ∧ value ≠ 12 then .error (.outOfRange "am/pm" value)
      else .ok { r with meridiem? := some value }
    | _ => .error (.unexpected (.component component))

/-- Reads one child of a time. -/
def read (r : TimeReading) (child : Node) : Except ComponentFault TimeReading :=
  match child with
  | .leaf (.symbol .timeSeparator) _ | .leaf (.symbol .decimalSeparator) _
  | .leaf .whitespace _ => .ok r
  | .leaf (.component component value) _ => r.readComponent component value
  | _ => .error (.unexpected child.kind)

/-- The time that was read.  With a meridiem, hour 12 comes first. -/
def value (r : TimeReading) : Except ComponentFault TimeOfDay :=
  if !r.seen.contains .hour then .error .missingHour
  else match r.meridiem? with
    | none => .ok r.time
    | some add =>
      if 12 < r.time.hour then .error (.hourWithMeridiem r.time.hour)
      else
        let hour := if r.time.hour = 12 then 0 else r.time.hour
        .ok { r.time with hour := hour + add }

end TimeReading

/-- The time of day that the children of a time give. -/
def timeOfDay (children : List Node) : Except ComponentFault TimeOfDay := do
  let reading ← children.foldlM TimeReading.read {}
  reading.value

end SheetFormula
