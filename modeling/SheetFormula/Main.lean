import Std.Time.Zoned
import SheetFormula.Command.Run

/-!
# The program

Reads the environment, the arguments, the clock and, if a command asks for it, the standard input;
prints what the command reports and fails when it does.
-/

namespace SheetFormula

/-- The bytes of a string. -/
def textOfArgument (s : String) : Text := ⟨s.toUTF8.toList⟩

/-- The bytes of a text. -/
def bytesOfText (t : Text) : ByteArray := ⟨t.bytes.toArray⟩

/-- The environment variables that configure the commands. -/
def environmentNames : List String :=
  ["FORMULA_NUMBER_KIND", "FORMULA_TWO_DIGIT_YEAR", "FORMULA_DEFAULT_YEAR",
    "FORMULA_VALUE_SEPARATOR", "FORMULA_DECIMAL_SEPARATOR", "FORMULA_LOG_LEVEL"]

/-- The variables of the environment that are set. -/
def readEnvironment : IO (List (String × Text)) :=
  environmentNames.filterMapM fun name => do
    let value? ← IO.getEnv name
    return value?.map fun value => (name, textOfArgument value)

/-- The current day. -/
def today : IO Date := do
  let day ← Std.Time.PlainDate.now
  return ⟨day.year, day.month.val, day.day.val⟩

/-- Everything on the standard input, if `wanted`. -/
def readInput (wanted : Bool) : IO Text := do
  if wanted then
    let bytes ← (← IO.getStdin).readBinToEnd
    return ⟨bytes.toList⟩
  else return .empty

end SheetFormula

open SheetFormula in
/-- Runs the command line. -/
def main (args : List String) : IO UInt32 := do
  let environment ← readEnvironment
  let config := Config.ofEnvironment (List.lookup · environment)
  let args := args.map textOfArgument
  let input ← readInput (readsInput config args)
  let report := runCommand config (← today) args input
  (← IO.getStdout).write (bytesOfText report.output)
  match report.failure? with
  | none => return 0
  | some message =>
    (← IO.getStderr).write (bytesOfText (.join ["Error: ", message, "\n"]))
    return 1
