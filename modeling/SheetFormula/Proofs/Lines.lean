import SheetFormula.Grammar.Cursor
import SheetFormula.Proofs.Numerals

/-!
# Reading along an axis

Columns and rows are read alike.  A mark is split off, the characters behind it must all belong to a
numeral, and their sum is the number of a line or out of bounds.  `Axis.parseLine` is that reader;
`Column.parse_eq` and `Row.parse_eq` say what its parts are for the one and for the other.
-/

namespace SheetFormula

/-! ### Letters -/

theorem letterValue_ne_zero_iff {c : Char} : letterValue c ≠ 0 ↔ isLetter c = true := by
  simp only [isLetter, Bool.or_eq_true, Bool.and_eq_true, decide_eq_true_eq]
  unfold letterValue
  split_ifs with hupper hlower
  · exact iff_of_true (Nat.succ_ne_zero _) (.inr hupper)
  · exact iff_of_true (Nat.succ_ne_zero _) (.inl hlower)
  · exact iff_of_false (not_not.2 rfl) (not_or.2 ⟨hlower, hupper⟩)

theorem toNat_lt_of_isLetter {c : Char} (h : isLetter c = true) : c.toNat < 123 := by
  simp only [isLetter, Bool.or_eq_true, Bool.and_eq_true, decide_eq_true_eq, Char.le_def,
    UInt32.le_iff_toNat_le] at h
  have hz : 'z'.val.toNat = 122 := rfl
  have hZ : 'Z'.val.toNat = 90 := rfl
  show c.val.toNat < 123
  omega

/-! ### Lines -/

theorem absoluteMark_append_splitAbsolute (cs : List Char) :
    absoluteMark (splitAbsolute cs).1 ++ (splitAbsolute cs).2 = cs := by
  unfold splitAbsolute
  split <;> rfl

namespace Axis

variable {Line : Type} {axis : Axis} {isPart : Char → Bool} {add : Nat → Char → Nat}
  {ofNumber? : Nat → Bool → Option Line} {text : Text} {mark : Bool} {cs : List Char} {line : Line}
  {e : ReferenceError}

/-- Reads a line along an axis: `isPart` tells the characters of a numeral, `add` adds one of them
to a number, and `ofNumber?` gives the line of a number. -/
def parseLine (axis : Axis) (isPart : Char → Bool) (add : Nat → Char → Nat)
    (ofNumber? : Nat → Bool → Option Line) (text : Text) : Except ReferenceError Line :=
  let (mark, cs) := splitAbsolute text.chars
  if cs.any (!isPart ·) then .error (.malformed axis text)
  else match ofNumber? (cs.foldl add 0) mark with
    | some line => .ok line
    | none => .error (.outOfBounds axis text)

/-- A numeral is read as the line with its number, if there is one. -/
theorem parseLine_of_parts (hsplit : splitAbsolute text.chars = (mark, cs))
    (hparts : ∀ c ∈ cs, isPart c = true) :
    axis.parseLine isPart add ofNumber? text =
      match ofNumber? (cs.foldl add 0) mark with
      | some line => .ok line
      | none => .error (.outOfBounds axis text) := by
  have hall : cs.any (!isPart ·) = false := by simpa using hparts
  simp only [parseLine, hsplit, hall, Bool.false_eq_true, if_false]

theorem parseLine_of_not_parts (hsplit : splitAbsolute text.chars = (mark, cs))
    (h : ¬ ∀ c ∈ cs, isPart c = true) :
    axis.parseLine isPart add ofNumber? text = .error (.malformed axis text) := by
  have hany : cs.any (!isPart ·) = true := by simpa using h
  simp only [parseLine, hsplit, hany, if_true]

theorem parseLine_eq_ok_iff (hsplit : splitAbsolute text.chars = (mark, cs)) :
    axis.parseLine isPart add ofNumber? text = .ok line ↔
      (∀ c ∈ cs, isPart c = true) ∧ ofNumber? (cs.foldl add 0) mark = some line := by
  by_cases hparts : ∀ c ∈ cs, isPart c = true
  · rw [parseLine_of_parts hsplit hparts, and_iff_right hparts]
    cases ofNumber? (cs.foldl add 0) mark <;> simp
  · rw [parseLine_of_not_parts hsplit hparts]
    exact iff_of_false nofun fun h => hparts h.1

/-- A numeral that is not read is out of bounds. -/
theorem parseLine_error_of_parts (hsplit : splitAbsolute text.chars = (mark, cs))
    (hparts : ∀ c ∈ cs, isPart c = true)
    (h : axis.parseLine isPart add ofNumber? text = .error e) : e = .outOfBounds axis text := by
  rw [parseLine_of_parts hsplit hparts] at h
  split at h
  · cases h
  · exact (Except.error.inj h).symm

/-- A reader goes by the characters of numerals and by what they add there. -/
theorem parseLine_congr {isPart' : Char → Bool} {add' : Nat → Char → Nat}
    (hpart : ∀ c, isPart c = isPart' c) (hadd : ∀ n c, isPart c = true → add n c = add' n c) :
    axis.parseLine isPart add ofNumber? = axis.parseLine isPart' add' ofNumber? := by
  obtain rfl : isPart = isPart' := funext hpart
  funext text
  simp only [parseLine]
  split_ifs with hany
  · rfl
  · have hparts : ∀ c ∈ (splitAbsolute text.chars).2, isPart c = true := by simpa using hany
    rw [List.foldl_ext add add' 0 fun n c hc => hadd n c (hparts c hc)]

end Axis

theorem Column.parse_eq :
    Column.parse = Axis.column.parseLine isLetter Column.addLetter Column.ofNumber? := by
  funext text
  have hpart (c : Char) : decide (letterValue c = 0) = !isLetter c := by
    rw [Bool.eq_iff_iff, decide_eq_true_eq, Bool.not_eq_true', ← Bool.not_eq_true,
      ← letterValue_ne_zero_iff, not_not]
  simp only [Column.parse, Axis.parseLine, hpart]
  cases Column.ofNumber? _ _ <;> rfl

theorem Row.parse_eq :
    Row.parse = Axis.row.parseLine isDigit Row.addDigit Row.ofNumber? := by
  funext text
  simp only [Row.parse, Axis.parseLine]
  cases Row.ofNumber? _ _ <;> rfl

end SheetFormula
