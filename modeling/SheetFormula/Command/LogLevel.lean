import SheetFormula.Text.Integer

/-!
# Log levels

The level of a log is a signed byte.  Some levels have a name, and the level without a name is the
one of entries that have none; any level can be written as a number.
-/

namespace SheetFormula

/-- The level of a log. -/
structure LogLevel where
  number : Int
deriving DecidableEq

namespace LogLevel

/-- The levels that have a name. -/
def named : List (Text × LogLevel) :=
  [("trace", ⟨-1⟩), ("debug", ⟨0⟩), ("info", ⟨1⟩), ("warn", ⟨2⟩), ("error", ⟨3⟩), ("fatal", ⟨4⟩),
    ("panic", ⟨5⟩), ("", ⟨6⟩), ("disabled", ⟨7⟩)]

/-- Why a text is no level. -/
inductive Fault
  | unknown (text : Text)
  | outOfBounds (number : Int)
deriving DecidableEq

/-- How a fault is told. -/
def Fault.message : Fault → Text
  | unknown text => .join ["Unknown Level String: '", text, "', defaulting to NoLevel"]
  | outOfBounds number =>
    .join ["Out-Of-Bounds Level: '", .ofInt number, "', defaulting to NoLevel"]

/-- The level that a text names or numbers. -/
def parse (text : Text) : Except Fault LogLevel :=
  match named.lookup text with
  | some level => .ok level
  | none =>
    match readInteger 64 text.chars with
    | .ok n => if n < -128 ∨ 127 < n then .error (.outOfBounds n) else .ok ⟨n⟩
    | .error _ => .error (.unknown text)

end LogLevel

end SheetFormula
