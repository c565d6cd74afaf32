import Mathlib.Data.Nat.Digits.Defs
import SheetFormula.Proofs.CellTexts
import SheetFormula.Proofs.Lines

/-!
# Which texts are columns and rows

A column is written with letters and a row with digits, behind an optional `$`.  `Numbering` says
what a numeral of either sort stands for, without any bound.  The readers go from left to right and
stop adding up once the last line is passed, but look at every character.  So the sum stays small
however long the text is, and it still tells whether the number lies on the worksheet:
`Axis.columns_and_rows_read` says which texts are read, as what, and which error the others give.
-/

namespace SheetFormula

/-! ### Sums that stop -/

/-- How the lines along an axis are numbered in writing. -/
structure Numbering where
  /-- The characters of numerals, each with what it stands for at the end of one. -/
  digits : List (Char × Nat)
  base : Nat
  /-- The largest of the digits. -/
  largest : Nat
  /-- The number of the last line. -/
  last : Nat

namespace Numbering

variable {n : Numbering} {a : Nat} {cs : List Char}

/-- Whether a character belongs to numerals. -/
def isPart (n : Numbering) (c : Char) : Bool := (n.digits.lookup c).isSome

/-- What a character stands for at the end of a numeral. -/
def digit (n : Numbering) (c : Char) : Nat := (n.digits.lookup c).getD 0

/-- The number that a numeral stands for. -/
def value (n : Numbering) (cs : List Char) : Nat := Nat.ofDigits n.base (cs.map n.digit).reverse

/-- Whether a numeral stands for the number of a line. -/
def OnSheet (n : Numbering) (cs : List Char) : Prop := 1 ≤ n.value cs ∧ n.value cs ≤ n.last

theorem mem_digits_of_lookup {c : Char} {d : Nat} (h : n.digits.lookup c = some d) :
    (c, d) ∈ n.digits := by
  obtain ⟨front, back, hdigits, -⟩ := List.lookup_eq_some_iff.1 h
  simp [hdigits]

/-- Other descriptions of the same digits agree with the table. -/
theorem isPart_and_digit_eq {isPart : Char → Bool} {digit : Char → Nat}
    (hsound : ∀ p ∈ n.digits, isPart p.1 = true ∧ digit p.1 = p.2)
    (hcomplete : ∀ c, isPart c = true → (c, digit c) ∈ n.digits) (c : Char) :
    n.isPart c = isPart c ∧ (isPart c = true → n.digit c = digit c) := by
  unfold Numbering.isPart Numbering.digit
  cases h : n.digits.lookup c with
  | none =>
    have hnot : isPart c ≠ true := fun hpart => by
      simpa using List.lookup_eq_none_iff.1 h _ (hcomplete c hpart)
    exact ⟨(Bool.eq_false_iff.2 hnot).symm, fun hpart => absurd hpart hnot⟩
  | some d =>
    obtain ⟨hpart, hdigit⟩ := hsound _ (mem_digits_of_lookup h)
    exact ⟨hpart.symm, fun _ => hdigit.symm⟩

/-- Adds a digit to a number, unless that has passed the last line. -/
def add (n : Numbering) (number : Nat) (c : Char) : Nat :=
  if number ≤ n.last then number * n.base + n.digit c else number

theorem foldl_add_of_lt (ha : n.last < a) : cs.foldl n.add a = a := by
  induction cs with
  | nil => rfl
  | cons c cs ih => rw [List.foldl_cons, add, if_neg (Nat.not_le.2 ha), ih]

/-- The sum never passes the last line by more than one digit. -/
theorem foldl_add_le (hdigit : ∀ c, n.digit c ≤ n.largest)
    (ha : a ≤ n.base * n.last + n.largest) :
    cs.foldl n.add a ≤ n.base * n.last + n.largest := by
  induction cs generalizing a with
  | nil => exact ha
  | cons c cs ih =>
    refine ih ?_
    rw [add]
    split_ifs with hlast
    · rw [Nat.mul_comm a]
      exact Nat.add_le_add (Nat.mul_le_mul_left _ hlast) (hdigit c)
    · exact ha

/-- The sum without a bound, in front of which `a` has been read. -/
theorem value_eq_foldl :
    a * n.base ^ cs.length + n.value cs = cs.foldl (fun a c => a * n.base + n.digit c) a := by
  induction cs generalizing a with
  | nil => simp [value]
  | cons c cs ih =>
    rw [List.foldl_cons, ← ih, value, List.map_cons, List.reverse_cons, Nat.ofDigits_append,
      Nat.ofDigits_singleton, List.length_reverse, List.length_map, List.length_cons, Nat.pow_succ,
      value]
    ring

theorem value_eq_foldl_zero (n : Numbering) (cs : List Char) :
    n.value cs = cs.foldl (fun a c => a * n.base + n.digit c) 0 := by
  rw [← value_eq_foldl, Nat.zero_mul, Nat.zero_add]

theorem le_foldl (hbase : 1 ≤ n.base) : a ≤ cs.foldl (fun a c => a * n.base + n.digit c) a := by
  rw [← value_eq_foldl]
  exact Nat.le_add_right_of_le (Nat.le_mul_of_pos_right a (Nat.pow_pos hbase))

/-- The sum that stops is the number itself, or both have passed the last line. -/
theorem foldl_add (hbase : 1 ≤ n.base) :
    cs.foldl n.add a = cs.foldl (fun a c => a * n.base + n.digit c) a ∨
      n.last < cs.foldl n.add a ∧ n.last < cs.foldl (fun a c => a * n.base + n.digit c) a := by
  induction cs generalizing a with
  | nil => exact .inl rfl
  | cons c cs ih =>
    by_cases ha : a ≤ n.last
    · have hadd : n.add a c = a * n.base + n.digit c := if_pos ha
      simpa only [List.foldl_cons, hadd] using ih
    · have ha := Nat.not_le.1 ha
      rw [foldl_add_of_lt ha]
      exact .inr ⟨ha, Nat.lt_of_lt_of_le ha (le_foldl hbase)⟩

/-- What the sum that stops tells of the number: whether it is that of a line, and then which. -/
theorem sum_cases (cs : List Char) (hbase : 1 ≤ n.base) :
    cs.foldl n.add 0 = n.value cs ∨ n.last < cs.foldl n.add 0 ∧ n.last < n.value cs := by
  rw [value_eq_foldl_zero]
  exact foldl_add hbase

end Numbering

/-- How columns and rows are numbered: columns in letters of either case from 1 to 26, without a
zero, and rows in decimal. -/
def Axis.numbering : Axis → Numbering
  | column =>
    { digits :=
        ['A', 'B', 'C', 'D', 'E', 'F', 'G', 'H', 'I', 'J', 'K', 'L', 'M', 'N', 'O', 'P', 'Q', 'R',
          'S', 'T', 'U', 'V', 'W', 'X', 'Y', 'Z'].zipIdx 1 ++
        ['a', 'b', 'c', 'd', 'e', 'f', 'g', 'h', 'i', 'j', 'k', 'l', 'm', 'n', 'o', 'p', 'q', 'r',
          's', 't', 'u', 'v', 'w', 'x', 'y', 'z'].zipIdx 1
      base := 26
      largest := 26
      last := 16384 }
  | row =>
    { digits := ['0', '1', '2', '3', '4', '5', '6', '7', '8', '9'].zipIdx
      base := 10
      largest := 9
      last := 1048576 }

namespace Axis

variable {axis : Axis} {text : Text} {mark : Bool} {cs : List Char} {ch : Char}

theorem digit_le : axis.numbering.digit ch ≤ axis.numbering.largest := by
  have hall : ∀ axis : Axis, ∀ p ∈ axis.numbering.digits, p.2 ≤ axis.numbering.largest := by
    rintro (_ | _) <;> decide
  rw [Numbering.digit]
  cases h : axis.numbering.digits.lookup ch with
  | none => exact Nat.zero_le _
  | some d => exact hall axis _ (Numbering.mem_digits_of_lookup h)

theorem one_le_base : 1 ≤ axis.numbering.base := by
  cases axis <;> decide

theorem isPart_mark : axis.numbering.isPart '$' = false := by
  cases axis <;> rfl

theorem isPart_replacement : axis.numbering.isPart Rune.replacement = false := by
  cases axis <;> rfl

/-- The readers of columns know the same letters. -/
theorem column_isPart_and_digit (ch : Char) : column.numbering.isPart ch = isLetter ch ∧
    (isLetter ch = true → column.numbering.digit ch = letterValue ch) := by
  refine Numbering.isPart_and_digit_eq (by decide +kernel) (fun ch h => ?_) ch
  have hall : ∀ k < 123, isLetter (Char.ofNat k) = true →
      (Char.ofNat k, letterValue (Char.ofNat k)) ∈ column.numbering.digits := by
    decide +kernel
  rw [← Char.ofNat_toNat ch] at h ⊢
  exact hall _ (toNat_lt_of_isLetter (Char.ofNat_toNat ch ▸ h)) h

/-- The readers of rows know the same digits. -/
theorem row_isPart_and_digit (ch : Char) : row.numbering.isPart ch = isDigit ch ∧
    (isDigit ch = true → row.numbering.digit ch = digitValue ch) := by
  refine Numbering.isPart_and_digit_eq (by decide) (fun ch h => ?_) ch
  have hall : ∀ c ∈ digitChars, (c, digitValue c) ∈ row.numbering.digits := by decide
  exact hall ch (mem_digitChars h)

/-- The text is the numeral `cs` of a column or a row, behind a `$` when it is marked. -/
structure Writes (axis : Axis) (text : Text) (mark : Bool) (cs : List Char) : Prop where
  text_eq : text = .ofChars ((if mark then ['$'] else []) ++ cs)
  parts : ∀ c ∈ cs, axis.numbering.isPart c = true

/-- A mark and a numeral are split where the one ends. -/
theorem Writes.split (h : axis.Writes text mark cs) : splitAbsolute text.chars = (mark, cs) := by
  rw [h.text_eq, Text.chars_ofChars]
  refine splitAbsolute_mark mark fun hmark => ?_
  have hpart := h.parts _ hmark
  rw [isPart_mark] at hpart
  cases hpart

/-- A text is written as a line when all that is behind its mark belongs to a numeral. -/
theorem writes_of_parts
    (h : ∀ c ∈ (splitAbsolute text.chars).2, axis.numbering.isPart c = true) :
    axis.Writes text (splitAbsolute text.chars).1 (splitAbsolute text.chars).2 := by
  have hchars := absoluteMark_append_splitAbsolute text.chars
  have hvalid : text.isValid = true := by
    refine List.all_eq_true.2 fun r hr => ?_
    have hmem : r.value ∈ text.chars := List.mem_map_of_mem hr
    rw [← hchars, List.mem_append] at hmem
    rcases hmem with hmark | hpart
    · have hdollar : r.value = '$' := by
        unfold absoluteMark at hmark
        split_ifs at hmark
        · exact List.mem_singleton.1 hmark
        · cases hmark
      rw [Rune.eq_scalar_of_value hdollar (by decide)]
      rfl
    · exact Rune.isScalar_of_class (h _ hpart) isPart_replacement
  exact ⟨(Text.eq_ofChars_of_isValid hvalid).2.trans (congrArg Text.ofChars hchars.symm), h⟩

/-! ### Reading -/

/-- How texts are read as the lines along an axis. -/
structure IsReadBy (axis : Axis) {Line : Type} (number : Line → Nat) (absolute : Line → Bool)
    (add : Nat → Char → Nat) (parse : Text → Except ReferenceError Line) : Prop where
  /-- Numerals of numbers on the worksheet are accepted, and nothing else is. -/
  accepts_iff {text : Text} : (∃ line, parse text = .ok line) ↔
    ∃ mark cs, axis.Writes text mark cs ∧ cs ≠ [] ∧ axis.numbering.OnSheet cs
  /-- What is read is the number that was written, absolute behind a `$`. -/
  ok_iff {text : Text} {line : Line} : parse text = .ok line ↔
    ∃ mark cs, axis.Writes text mark cs ∧ cs ≠ [] ∧ axis.numbering.value cs = number line ∧
      absolute line = mark
  outOfBounds_iff {text : Text} : (∃ a t, parse text = .error (.outOfBounds a t)) ↔
    ∃ mark cs, axis.Writes text mark cs ∧ (cs = [] ∨ ¬ axis.numbering.OnSheet cs)
  /-- The error of any text that is refused. -/
  error {text : Text} {e : ReferenceError} : parse text = .error e →
    e = .outOfBounds axis text ∨ e = .malformed axis text
  /-- After any number of rounds the sum is at most one digit past the last line. -/
  sum_le (text : Text) (rounds : Nat) :
    (((splitAbsolute text.chars).2.takeWhile axis.numbering.isPart).take rounds).foldl add 0 ≤
      axis.numbering.base * axis.numbering.last + axis.numbering.largest

section Reading

variable {Line : Type} {ofNumber? : Nat → Bool → Option Line} {number : Line → Nat}
  {absolute : Line → Bool} {line : Line}

/-- Reads a line along an axis, where `ofNumber?` gives the line of a number. -/
def readLine (axis : Axis) (ofNumber? : Nat → Bool → Option Line) :
    Text → Except ReferenceError Line :=
  axis.parseLine axis.numbering.isPart axis.numbering.add ofNumber?

/-- The lines of an axis are those with numbers on the worksheet. -/
structure AreLines (axis : Axis) (number : Line → Nat) (absolute : Line → Bool)
    (ofNumber? : Nat → Bool → Option Line) : Prop where
  some_iff {n : Nat} {mark : Bool} {line : Line} :
    ofNumber? n mark = some line ↔ number line = n ∧ absolute line = mark
  isSome_iff {n : Nat} {mark : Bool} :
    (∃ line, ofNumber? n mark = some line) ↔ 1 ≤ n ∧ n ≤ axis.numbering.last

/-- Where a line is made of every number on the worksheet, with either mark, these are the lines. -/
theorem AreLines.of_make {make : (n : Nat) → Bool → 1 ≤ n ∧ n ≤ axis.numbering.last → Line}
    (hofNumber : ∀ n mark, ofNumber? n mark =
      if h : 1 ≤ n ∧ n ≤ axis.numbering.last then some (make n mark h) else none)
    (hnumber : ∀ n mark h, number (make n mark h) = n)
    (habsolute : ∀ n mark h, absolute (make n mark h) = mark)
    (hmake : ∀ line, ∃ h, make (number line) (absolute line) h = line) :
    axis.AreLines number absolute ofNumber? where
  some_iff {n mark line} := by
    rw [hofNumber]
    constructor
    · intro h
      split_ifs at h with hn
      rw [← Option.some.inj h]
      exact ⟨hnumber n mark hn, habsolute n mark hn⟩
    · rintro ⟨rfl, rfl⟩
      obtain ⟨hn, hline⟩ := hmake line
      rw [dif_pos hn, hline]
  isSome_iff {n mark} := by
    rw [hofNumber]
    split_ifs with hn
    · exact iff_of_true ⟨_, rfl⟩ hn
    · exact iff_of_false (by simp) hn

theorem readLine_of_writes_eq (h : axis.Writes text mark cs) :
    axis.readLine ofNumber? text =
      match ofNumber? (cs.foldl axis.numbering.add 0) mark with
      | some line => .ok line
      | none => .error (.outOfBounds axis text) :=
  parseLine_of_parts h.split h.parts

theorem readLine_of_not_writes (h : ¬ ∃ mark cs, axis.Writes text mark cs) :
    axis.readLine ofNumber? text = .error (.malformed axis text) :=
  parseLine_of_not_parts Prod.mk.eta.symm fun hparts => h ⟨_, _, writes_of_parts hparts⟩

variable (hlines : axis.AreLines number absolute ofNumber?)

include hlines

theorem AreLines.onSheet (line : Line) :
    1 ≤ number line ∧ number line ≤ axis.numbering.last :=
  hlines.isSome_iff.1 ⟨line, hlines.some_iff.2 ⟨rfl, rfl⟩⟩

/-- The sum that stops finds the line of a numeral. -/
theorem AreLines.ofNumber?_sum :
    ofNumber? (cs.foldl axis.numbering.add 0) mark = some line ↔
      axis.numbering.value cs = number line ∧ absolute line = mark := by
  have hbounds := hlines.onSheet line
  rw [hlines.some_iff]
  refine and_congr_left fun _ => ?_
  rcases axis.numbering.sum_cases cs one_le_base with hsum | ⟨hsum, hvalue⟩
  · rw [hsum, eq_comm]
  · -- Neither number is that of a line.
    omega

theorem readLine_eq_ok_iff : axis.readLine ofNumber? text = .ok line ↔
    ∃ mark cs, axis.Writes text mark cs ∧ axis.numbering.value cs = number line ∧
      absolute line = mark := by
  constructor
  · intro h
    by_cases hwrites : ∃ mark cs, axis.Writes text mark cs
    · obtain ⟨mark, cs, hwrites⟩ := hwrites
      rw [readLine_of_writes_eq hwrites] at h
      split at h
      · cases h
        exact ⟨mark, cs, hwrites, hlines.ofNumber?_sum.1 ‹_›⟩
      · cases h
    · rw [readLine_of_not_writes hwrites] at h
      cases h
  · rintro ⟨mark, cs, hwrites, hline⟩
    rw [readLine_of_writes_eq hwrites, hlines.ofNumber?_sum.2 hline]

/-- A numeral is accepted when its number is on the worksheet, and otherwise out of bounds. -/
theorem readLine_of_writes (h : axis.Writes text mark cs) :
    (axis.numbering.OnSheet cs ∧ ∃ line, axis.readLine ofNumber? text = .ok line) ∨
      ¬ axis.numbering.OnSheet cs ∧
        axis.readLine ofNumber? text = .error (.outOfBounds axis text) := by
  rw [readLine_of_writes_eq h]
  cases hline : ofNumber? (cs.foldl axis.numbering.add 0) mark with
  | some line =>
    have hvalue := (hlines.ofNumber?_sum.1 hline).1
    refine .inl ⟨?_, line, rfl⟩
    rw [Numbering.OnSheet, hvalue]
    exact hlines.onSheet line
  | none =>
    refine .inr ⟨fun hon => ?_, rfl⟩
    obtain ⟨line, hfound⟩ := hlines.isSome_iff.2 hon
    have hsum := hlines.ofNumber?_sum.2
      ⟨(hlines.some_iff.1 hfound).1.symm, (hlines.some_iff.1 hfound).2⟩
    rw [hline] at hsum
    cases hsum

end Reading

/-- A numeral of no character has no value on the worksheet. -/
theorem ne_nil_of_onSheet (h : axis.numbering.OnSheet cs) : cs ≠ [] := by
  rintro rfl
  exact Nat.not_succ_le_zero _ h.1

theorem isReadBy_readLine {Line : Type} {ofNumber? : Nat → Bool → Option Line}
    {number : Line → Nat} {absolute : Line → Bool}
    {add : Nat → Char → Nat} (hlines : axis.AreLines number absolute ofNumber?)
    (hadd : ∀ n c, axis.numbering.isPart c = true → axis.numbering.add n c = add n c) :
    axis.IsReadBy number absolute add (axis.readLine ofNumber?) where
  accepts_iff {text} := by
    -- A text that is written as a line is read, or refused as out of bounds; any other is refused
    -- outright.
    constructor
    · rintro ⟨line, hline⟩
      obtain ⟨mark, cs, hwrites, hvalue, -⟩ := (readLine_eq_ok_iff hlines).1 hline
      have hon : axis.numbering.OnSheet cs := by
        rw [Numbering.OnSheet, hvalue]
        exact hlines.onSheet line
      exact ⟨mark, cs, hwrites, ne_nil_of_onSheet hon, hon⟩
    · rintro ⟨mark, cs, hwrites, -, hon⟩
      exact ((readLine_of_writes hlines hwrites).resolve_right fun h => h.1 hon).2
  ok_iff {text line} := by
    rw [readLine_eq_ok_iff hlines]
    refine exists_congr fun mark => exists_congr fun cs => and_congr_right fun _ => ?_
    refine (and_iff_right_of_imp fun h => ?_).symm
    have hon : axis.numbering.OnSheet cs := by
      rw [Numbering.OnSheet, h.1]
      exact hlines.onSheet line
    exact ne_nil_of_onSheet hon
  outOfBounds_iff {text} := by
    constructor
    · rintro ⟨a, t, herror⟩
      by_cases hwrites : ∃ mark cs, axis.Writes text mark cs
      · obtain ⟨mark, cs, hwrites⟩ := hwrites
        rcases readLine_of_writes hlines hwrites with ⟨-, line, hok⟩ | ⟨hoff, -⟩
        · rw [hok] at herror
          cases herror
        · exact ⟨mark, cs, hwrites, .inr hoff⟩
      · rw [readLine_of_not_writes hwrites] at herror
        cases herror
    · rintro ⟨mark, cs, hwrites, hoff⟩
      have hoff : ¬ axis.numbering.OnSheet cs :=
        hoff.elim (fun hnil hon => ne_nil_of_onSheet hon hnil) id
      exact ⟨axis, text, ((readLine_of_writes hlines hwrites).resolve_left fun h => hoff h.1).2⟩
  error {text e} herror := by
    by_cases hwrites : ∃ mark cs, axis.Writes text mark cs
    · obtain ⟨mark, cs, hwrites⟩ := hwrites
      rcases readLine_of_writes hlines hwrites with ⟨-, line, hok⟩ | ⟨-, hout⟩
      · rw [hok] at herror
        cases herror
      · exact .inl (Except.error.inj (herror.symm.trans hout))
    · exact .inr (Except.error.inj (herror.symm.trans (readLine_of_not_writes hwrites)))
  sum_le text rounds := by
    rw [← List.foldl_ext axis.numbering.add add 0 fun n c hc =>
      hadd n c (List.mem_takeWhile_imp (List.mem_of_mem_take hc))]
    exact Numbering.foldl_add_le (fun _ => digit_le) (Nat.zero_le _)

/-! ### Columns and rows -/

theorem column_areLines : column.AreLines Column.number Column.absolute Column.ofNumber? :=
  .of_make (fun _ _ => rfl) (fun _ _ _ => rfl) (fun _ _ _ => rfl)
    fun line => ⟨⟨line.one_le, line.le_max⟩, rfl⟩

theorem row_areLines : row.AreLines Row.number Row.absolute Row.ofNumber? :=
  .of_make (fun _ _ => rfl) (fun _ _ _ => rfl) (fun _ _ _ => rfl)
    fun line => ⟨⟨line.one_le, line.le_max⟩, rfl⟩

theorem column_add (n : Nat) (c : Char) (h : column.numbering.isPart c = true) :
    column.numbering.add n c = Column.addLetter n c := by
  obtain ⟨hpart, hdigit⟩ := column_isPart_and_digit c
  rw [Numbering.add, hdigit (hpart ▸ h)]
  rfl

theorem row_add (n : Nat) (c : Char) (h : row.numbering.isPart c = true) :
    row.numbering.add n c = Row.addDigit n c := by
  obtain ⟨hpart, hdigit⟩ := row_isPart_and_digit c
  rw [Numbering.add, hdigit (hpart ▸ h)]
  rfl

theorem column_parse_eq : Column.parse = column.readLine Column.ofNumber? := by
  rw [Column.parse_eq, readLine]
  exact (parseLine_congr (fun c => (column_isPart_and_digit c).1) column_add).symm

theorem row_parse_eq : Row.parse = row.readLine Row.ofNumber? := by
  rw [Row.parse_eq, readLine]
  exact (parseLine_congr (fun c => (row_isPart_and_digit c).1) row_add).symm

/-- Which texts are read as columns and as rows, what they are read as, which error any other text
gives, and how far the sums go. -/
theorem columns_and_rows_read :
    column.IsReadBy Column.number Column.absolute Column.addLetter Column.parse ∧
      row.IsReadBy Row.number Row.absolute Row.addDigit Row.parse := by
  constructor
  · rw [column_parse_eq]
    exact isReadBy_readLine column_areLines column_add
  · rw [row_parse_eq]
    exact isReadBy_readLine row_areLines row_add

/-- The last column in small letters, one past it, and a stray byte behind too many letters. -/
example : (Column.parse "$xfd").toOption.map Column.number = some 16384 ∧
    Column.parse "XFE" = .error (.outOfBounds .column "XFE") ∧
    Column.parse ⟨[65, 65, 65, 65, 255]⟩ = .error (.malformed .column ⟨[65, 65, 65, 65, 255]⟩) := by
  decide +kernel

end Axis

end SheetFormula
