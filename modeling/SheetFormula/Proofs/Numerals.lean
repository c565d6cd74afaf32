import Mathlib.Algebra.Group.Int.Defs
import Mathlib.Algebra.Group.Nat.Defs
import Mathlib.Tactic.Common
import SheetFormula.Json.Basic
import SheetFormula.Proofs.Build
import SheetFormula.Proofs.Runes
import SheetFormula.Reference.Line

/-!
# Written numbers are read back

Decimal digits and column letters are written and read back.  The readers stop adding up once a
bound is passed; up to the bound they compute the value of the numeral.
-/

namespace SheetFormula

/-! ### Decimal digits -/

theorem isDigit_iff {c : Char} : isDigit c = true ↔ c.isDigit = true := by
  simp only [isDigit, Char.isDigit, Bool.and_eq_true, decide_eq_true_eq]
  rfl

theorem isDigit_of_mem_toDigits {c : Char} {n : Nat} (h : c ∈ Nat.toDigits 10 n) :
    isDigit c = true :=
  isDigit_iff.2 (Nat.isDigit_of_mem_toDigits (by decide) (by decide) h)

/-- The digits. -/
def digitChars : List Char := ['0', '1', '2', '3', '4', '5', '6', '7', '8', '9']

theorem mem_digitChars {ch : Char} (h : isDigit ch = true) : ch ∈ digitChars := by
  obtain ⟨hlow, hhigh⟩ : 48 ≤ ch.toNat ∧ ch.toNat ≤ 57 := by
    simpa [isDigit, Char.le_def, UInt32.le_iff_toNat_le] using h
  have hcases : ∀ n < 58, 48 ≤ n → Char.ofNat n ∈ digitChars := by decide
  rw [← Char.ofNat_toNat ch]
  exact hcases ch.toNat (by omega) hlow

@[simp] theorem digitsValue_toDigits (n : Nat) : digitsValue (Nat.toDigits 10 n) = n := by
  have hdigits : digitsValue (Nat.toDigits 10 n) = Nat.ofDigitChars 10 (Nat.toDigits 10 n) 0 := by
    rw [digitsValue, Nat.ofDigitChars_eq_foldl]
    simp only [digitValue, Nat.mul_comm]
  rw [hdigits, Nat.ofDigitChars_ten_toDigits]

theorem le_foldl_digits (n : Nat) (cs : List Char) :
    n ≤ cs.foldl (fun n c => n * 10 + digitValue c) n := by
  induction cs generalizing n with
  | nil => exact Nat.le_refl n
  | cons c cs ih =>
    have := ih (n * 10 + digitValue c)
    simp only [List.foldl_cons]
    omega

/-- Digits are read as their value, up to the limit. -/
theorem readDigits_eq_ok {limit n : Nat} {cs : List Char} (hcs : ∀ c ∈ cs, isDigit c = true)
    (hlimit : cs.foldl (fun n c => n * 10 + digitValue c) n ≤ limit) :
    readDigits limit n cs = .ok (cs.foldl (fun n c => n * 10 + digitValue c) n) := by
  induction cs generalizing n with
  | nil => rfl
  | cons c cs ih =>
    obtain ⟨hc, hcs⟩ := List.forall_mem_cons.1 hcs
    simp only [List.foldl_cons] at hlimit ⊢
    have hnext : n * 10 + digitValue c ≤ limit := Nat.le_trans (le_foldl_digits _ cs) hlimit
    rw [readDigits, if_pos hc, if_pos hnext, ih hcs hlimit]

/-- Digits are read as an unsigned word. -/
theorem readNatural_digits {width : Nat} {cs : List Char} (hne : cs ≠ [])
    (hcs : ∀ c ∈ cs, isDigit c = true) (h : digitsValue cs < 2 ^ width) :
    readNatural width cs = .ok (digitsValue cs) := by
  rw [readNatural, if_neg (by simpa using hne)]
  exact readDigits_eq_ok hcs (Nat.le_sub_one_of_lt h)

theorem readNatural_toDigits {width n : Nat} (h : n < 2 ^ width) :
    readNatural width (Nat.toDigits 10 n) = .ok n := by
  rw [readNatural_digits Nat.toDigits_ne_nil (fun c hc => isDigit_of_mem_toDigits hc)
    (by rwa [digitsValue_toDigits]), digitsValue_toDigits]

/-- Digits are read as a word that is not negative. -/
theorem readInteger_digits {width : Nat} {cs : List Char} (hne : cs ≠ [])
    (hcs : ∀ c ∈ cs, isDigit c = true) (h : digitsValue cs < 2 ^ (width - 1)) :
    readInteger width cs = .ok (digitsValue cs : Int) := by
  have hpositive : readInteger width cs = readInteger.positive width cs := by
    unfold readInteger
    split
    · cases hcs '-' (List.mem_cons_self ..)
    · cases hcs '+' (List.mem_cons_self ..)
    · rfl
  have hwidth : digitsValue cs < 2 ^ width :=
    Nat.lt_of_lt_of_le h (Nat.pow_le_pow_right (by decide) (Nat.sub_le width 1))
  rw [hpositive, readInteger.positive, readNatural_digits hne hcs hwidth]
  show (if digitsValue cs < 2 ^ (width - 1) then _ else _) = _
  rw [if_pos h]
  rfl

/-- A word that is not negative is read back from its digits. -/
theorem readInteger_toDigits {width n : Nat} (h : n < 2 ^ (width - 1)) :
    readInteger width (Nat.toDigits 10 n) = .ok (n : Int) := by
  rw [readInteger_digits Nat.toDigits_ne_nil (fun c hc => isDigit_of_mem_toDigits hc)
    (by rwa [digitsValue_toDigits]), digitsValue_toDigits]

/-- A negative word is read back from its digits behind a minus sign. -/
theorem readInteger_minus_toDigits {width n : Nat} (hwidth : 0 < width) (h : n ≤ 2 ^ (width - 1)) :
    readInteger width ('-' :: Nat.toDigits 10 n) = .ok (-(n : Int)) := by
  have hn : n < 2 ^ width :=
    Nat.lt_of_le_of_lt h (Nat.pow_lt_pow_right (by decide) (Nat.sub_lt hwidth Nat.one_pos))
  show (readNatural width (Nat.toDigits 10 n) >>= _) = _
  rw [readNatural_toDigits hn]
  show (if n ≤ 2 ^ (width - 1) then _ else _) = _
  rw [if_pos h]
  rfl

/-- A number within the bounds of a word is read back from the digits that it is written with. -/
theorem readInteger_ofInt {v : Int} (h : -2 ^ 63 ≤ v ∧ v < 2 ^ 63) :
    ∃ cs, Json.ofInt v = .number cs ∧ readInteger 64 cs = .ok v := by
  cases v with
  | ofNat n =>
    refine ⟨Nat.toDigits 10 n, rfl, readInteger_toDigits ?_⟩
    have := h.2
    simp only [Int.ofNat_eq_natCast] at this
    show n < 2 ^ 63
    omega
  | negSucc n =>
    refine ⟨'-' :: Nat.toDigits 10 (n + 1), rfl, ?_⟩
    have := h.1
    exact readInteger_minus_toDigits (by decide) (by show n + 1 ≤ 2 ^ 63; omega)

/-- What is read is a word of the given width. -/
theorem bounds_of_readInteger {cs : List Char} {v : Int} (h : readInteger 64 cs = .ok v) :
    -2 ^ 63 ≤ v ∧ v < 2 ^ 63 := by
  have hpositive {cs : List Char} {v : Int} (h : readInteger.positive 64 cs = .ok v) :
      -2 ^ 63 ≤ v ∧ v < 2 ^ 63 := by
    obtain ⟨n, -, h⟩ := bind_eq_ok_iff.1 h
    split_ifs at h with hn
    have hn' : n < 2 ^ 63 := hn
    cases h
    omega
  unfold readInteger at h
  split at h
  · obtain ⟨n, -, h⟩ := bind_eq_ok_iff.1 h
    split_ifs at h with hn
    have hn' : n ≤ 2 ^ 63 := hn
    cases h
    omega
  · exact hpositive h
  · exact hpositive h

/-! ### Columns and rows -/

theorem splitAbsolute_mark (absolute : Bool) {cs : List Char} (h : '$' ∉ cs) :
    splitAbsolute (absoluteMark absolute ++ cs) = (absolute, cs) := by
  cases absolute with
  | true => rfl
  | false =>
    cases cs with
    | nil => rfl
    | cons c cs =>
      have hc : c ≠ '$' := by
        rintro rfl
        simp at h
      show splitAbsolute (c :: cs) = _
      unfold splitAbsolute
      split
      · rename_i hcs
        exact absurd (List.cons.inj hcs).1 hc
      · rfl

theorem foldl_addDigit {n : Nat} {cs : List Char}
    (h : cs.foldl (fun n c => n * 10 + digitValue c) n ≤ maxRow) :
    cs.foldl Row.addDigit n = cs.foldl (fun n c => n * 10 + digitValue c) n := by
  induction cs generalizing n with
  | nil => rfl
  | cons c cs ih =>
    simp only [List.foldl_cons] at h ⊢
    have hn : n ≤ maxRow := by
      have := le_foldl_digits (n * 10 + digitValue c) cs
      omega
    rw [Row.addDigit, if_pos hn, ih h]

/-- A row is read back from its text form. -/
theorem Row.parse_text (row : Row) : Row.parse row.text = .ok row := by
  have hvalue : (Nat.toDigits 10 row.number).foldl Row.addDigit 0 = row.number := by
    have hdigits : (Nat.toDigits 10 row.number).foldl (fun n c => n * 10 + digitValue c) 0 =
        row.number := digitsValue_toDigits row.number
    rw [foldl_addDigit (by rw [hdigits]; exact row.le_max), hdigits]
  have hmark : '$' ∉ Nat.toDigits 10 row.number := fun h => by cases isDigit_of_mem_toDigits h
  have hdigits : ((Nat.toDigits 10 row.number).any fun c => !isDigit c) = false := by
    simpa using fun c hc => isDigit_of_mem_toDigits hc
  simp only [Row.parse, Row.text, Text.chars_ofChars, splitAbsolute_mark row.absolute hmark,
    hdigits,
    hvalue, Row.ofNumber?]
  simp [row.one_le, row.le_max]

/-! ### Column letters -/

theorem letterValue_capitalLetter {n : Nat} (h : n < 26) :
    letterValue (capitalLetter n) = n + 1 := by
  have : ∀ m < 26, letterValue (capitalLetter m) = m + 1 := by decide
  exact this n h

/-- Reading the letters of a column number brings the number back. -/
theorem foldl_columnLettersOnto {fuel number : Nat} (hfuel : number ≤ fuel)
    (hnumber : number ≤ maxColumn) (tail : List Char) :
    (columnLettersOnto fuel number tail).foldl Column.addLetter 0 =
      tail.foldl Column.addLetter number := by
  induction fuel generalizing number tail with
  | zero => rw [columnLettersOnto, Nat.le_zero.1 hfuel]
  | succ fuel ih =>
    rw [columnLettersOnto]
    split_ifs with hzero
    · rw [hzero]
    · have hrest : (number - 1) / 26 ≤ maxColumn := by omega
      rw [ih (by omega) hrest, List.foldl_cons, Column.addLetter, if_pos hrest,
        letterValue_capitalLetter (Nat.mod_lt _ (by decide))]
      congr 1
      omega

theorem mem_columnLettersOnto {fuel number : Nat} {tail : List Char} {c : Char}
    (h : c ∈ columnLettersOnto fuel number tail) : c ∈ tail ∨ ∃ n < 26, c = capitalLetter n := by
  induction fuel generalizing number tail with
  | zero => exact .inl h
  | succ fuel ih =>
    rw [columnLettersOnto] at h
    split_ifs at h
    · exact .inl h
    · rcases ih h with hmem | hletter
      · rcases List.mem_cons.1 hmem with rfl | hmem
        · exact .inr ⟨_, Nat.mod_lt _ (by decide), rfl⟩
        · exact .inl hmem
      · exact .inr hletter

theorem mem_columnLetters {number : Nat} {c : Char} (h : c ∈ columnLetters number) :
    ∃ n < 26, c = capitalLetter n :=
  (mem_columnLettersOnto h).resolve_left (List.not_mem_nil)

theorem foldl_columnLetters (column : Column) :
    (columnLetters column.number).foldl Column.addLetter 0 = column.number :=
  foldl_columnLettersOnto (Nat.le_refl _) column.le_max []

theorem columnLetters_ne_nil (column : Column) : columnLetters column.number ≠ [] := by
  intro hnil
  have hnumber := foldl_columnLetters column
  rw [hnil] at hnumber
  exact absurd hnumber (Nat.ne_of_lt column.one_le)

/-- The largest number that is written with at most so many letters. -/
def lastOfLetters : Nat → Nat
  | 0 => 0
  | letters + 1 => lastOfLetters letters * 26 + 26

theorem length_columnLettersOnto_le {k fuel number : Nat} {tail : List Char}
    (h : number ≤ lastOfLetters k) :
    (columnLettersOnto fuel number tail).length ≤ k + tail.length := by
  induction k generalizing fuel number tail with
  | zero =>
    obtain rfl : number = 0 := Nat.le_zero.1 h
    cases fuel <;> simp [columnLettersOnto]
  | succ k ih =>
    cases fuel with
    | zero => simp [columnLettersOnto]
    | succ fuel =>
      rw [columnLettersOnto]
      split_ifs with hzero
      · exact Nat.le_add_left ..
      · rw [lastOfLetters] at h
        have hnumber : (number - 1) / 26 ≤ lastOfLetters k := by omega
        refine Nat.le_trans (ih hnumber) ?_
        rw [List.length_cons]
        omega

theorem length_columnLetters_le (column : Column) : (columnLetters column.number).length ≤ 3 :=
  length_columnLettersOnto_le (Nat.le_trans column.le_max (by decide : maxColumn ≤ lastOfLetters 3))

/-- A column is read back from its text form. -/
theorem Column.parse_text (column : Column) : Column.parse column.text = .ok column := by
  have hvalue := foldl_columnLetters column
  have hmark : '$' ∉ columnLetters column.number := by
    intro h
    obtain ⟨n, hn, heq⟩ := mem_columnLetters h
    have hne : ∀ m < 26, '$' ≠ capitalLetter m := by decide
    exact hne n hn heq
  have hletters : ((columnLetters column.number).any fun c => letterValue c = 0) = false := by
    rw [List.any_eq_false]
    intro c hc
    obtain ⟨n, hn, rfl⟩ := mem_columnLetters hc
    simp [letterValue_capitalLetter hn]
  simp only [Column.parse, Column.text, Text.chars_ofChars,
    splitAbsolute_mark column.absolute hmark, hletters, hvalue, Column.ofNumber?]
  simp [column.one_le, column.le_max]

end SheetFormula
