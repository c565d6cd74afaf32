import Mathlib.Data.List.Induction
import SheetFormula.Proofs.LineTexts
import SheetFormula.Proofs.WrittenTokens

/-!
# The text form of references

Column numbers and strings of capital letters are the same: `columnLetters` writes a number in
bijective base 26, and there is no other numeral for it (`columnLetters_value`).  A row has no other
numeral without a zero in front (`toDigits_value`).  So a reference is read back from its text form,
and a text that is read as a reference is its text form but for small letters and for zeros in front
of rows, which `Text.tidied` mends: `Reference.text_forms`.
-/

namespace SheetFormula

/-! ### Tidied texts -/

/-- Leaves out the zeros in front of a number, where `inside` says whether a digit of a number has
been passed already. -/
def withoutLeadingZeros : (inside : Bool) → List Char → List Char
  | _, [] => []
  | inside, c :: cs =>
    if c = '0' ∧ inside = false then withoutLeadingZeros false cs
    else c :: withoutLeadingZeros (isDigit c) cs

/-- The text with capital letters and without zeros in front of its numbers. -/
def Text.tidied (text : Text) : Text :=
  .ofChars ((withoutLeadingZeros false text.chars).map asciiUpper)

section LeadingZeros

variable {cs rest : List Char} {c : Char} {inside : Bool}

theorem withoutLeadingZeros_append_mark (hc : isDigit c = false) :
    withoutLeadingZeros inside (cs ++ c :: rest) =
      withoutLeadingZeros inside cs ++ c :: withoutLeadingZeros false rest := by
  induction cs generalizing inside with
  | nil =>
    have hzero : c ≠ '0' := by
      rintro rfl
      cases hc
    simp [withoutLeadingZeros, hzero, hc]
  | cons d cs ih =>
    simp only [List.cons_append, withoutLeadingZeros, ih]
    split_ifs <;> rfl

/-- What has no digits in it is kept. -/
theorem withoutLeadingZeros_append (h : ∀ c ∈ cs, isDigit c = false) :
    withoutLeadingZeros false (cs ++ rest) = cs ++ withoutLeadingZeros false rest := by
  induction cs with
  | nil => rfl
  | cons c cs ih =>
    obtain ⟨hc, hcs⟩ := List.forall_mem_cons.1 h
    have hmark : withoutLeadingZeros false ([] ++ c :: (cs ++ rest)) =
        [] ++ c :: withoutLeadingZeros false (cs ++ rest) := withoutLeadingZeros_append_mark hc
    rw [ih hcs] at hmark
    exact hmark

/-- Inside a number no digit is left out. -/
theorem withoutLeadingZeros_inside (h : ∀ c ∈ cs, isDigit c = true) :
    withoutLeadingZeros true cs = cs := by
  induction cs with
  | nil => rfl
  | cons c cs ih =>
    obtain ⟨hc, hcs⟩ := List.forall_mem_cons.1 h
    simp [withoutLeadingZeros, hc, ih hcs]

end LeadingZeros

/-! ### Numerals of rows -/

/-- Of digits alone only the zeros in front are left out. -/
theorem withoutLeadingZeros_digits {cs : List Char} (h : ∀ c ∈ cs, isDigit c = true) :
    withoutLeadingZeros false cs = cs.dropWhile (· == '0') := by
  induction cs with
  | nil => rfl
  | cons c cs ih =>
    obtain ⟨hc, hcs⟩ := List.forall_mem_cons.1 h
    by_cases hzero : c = '0'
    · subst hzero
      exact ih hcs
    · rw [withoutLeadingZeros, if_neg fun h => hzero h.1, hc, withoutLeadingZeros_inside hcs,
        List.dropWhile_cons_of_neg (by simpa using hzero)]

theorem value_row {cs : List Char} (h : ∀ c ∈ cs, isDigit c = true) :
    Axis.row.numbering.value cs = digitsValue cs := by
  rw [Numbering.value_eq_foldl_zero, digitsValue]
  exact List.foldl_ext _ _ 0 fun n c hc => by
    rw [(Axis.row_isPart_and_digit c).2 (h c hc)]
    rfl

/-- The numeral of a row is any numeral of it, less the zeros in front. -/
theorem toDigits_value {cs : List Char} (h : ∀ c ∈ cs, isDigit c = true)
    (hvalue : 1 ≤ Axis.row.numbering.value cs) :
    Nat.toDigits 10 (Axis.row.numbering.value cs) = withoutLeadingZeros false cs := by
  rw [value_row h] at hvalue ⊢
  rw [toDigits_digitsValue h (Nat.ne_of_gt hvalue), withoutLeadingZeros_digits h]

/-! ### Numerals of columns -/

theorem columnLettersOnto_eq {number fuel : Nat} (hfuel : number ≤ fuel) (tail : List Char) :
    columnLettersOnto fuel number tail = columnLetters number ++ tail := by
  induction number using Nat.strong_induction_on generalizing fuel tail with
  | _ number ih =>
    cases number with
    | zero => cases fuel <;> rfl
    | succ k =>
      obtain ⟨fuel, rfl⟩ : ∃ m, fuel = m + 1 := ⟨fuel - 1, by omega⟩
      have hless : k / 26 < k + 1 := by omega
      have hletters : columnLetters (k + 1) =
          columnLettersOnto k (k / 26) [capitalLetter (k % 26)] := rfl
      rw [hletters, ih _ hless (by omega), columnLettersOnto, if_neg (Nat.succ_ne_zero k),
        Nat.add_sub_cancel, ih _ hless (by omega), List.append_assoc, List.singleton_append]

/-- The last letter goes round the alphabet, and the letters in front of it count the rounds. -/
theorem columnLetters_succ (k : Nat) :
    columnLetters (k + 1) = columnLetters (k / 26) ++ [capitalLetter (k % 26)] :=
  columnLettersOnto_eq (Nat.div_le_self k 26) [capitalLetter (k % 26)]

theorem value_append_letter (cs : List Char) {c : Char} (hc : isLetter c = true) :
    Axis.column.numbering.value (cs ++ [c]) =
      Axis.column.numbering.value cs * 26 + letterValue c := by
  rw [← (Axis.column_isPart_and_digit c).2 hc]
  simp only [Numbering.value, List.map_append, List.map_singleton, List.reverse_append,
    List.reverse_singleton, List.singleton_append, Nat.ofDigits_cons]
  exact (Nat.add_comm _ _).trans (congrArg (· + _) (Nat.mul_comm _ _))

/-- Letters stand for the number that they are written for. -/
theorem value_columnLetters (n : Nat) : Axis.column.numbering.value (columnLetters n) = n := by
  induction n using Nat.strong_induction_on with
  | _ n ih =>
    cases n with
    | zero => rfl
    | succ k =>
      have hletter := letterValue_capitalLetter (Nat.mod_lt k (by decide : 0 < 26))
      rw [columnLetters_succ,
        value_append_letter _ (letterValue_ne_zero_iff.1 (hletter ▸ Nat.succ_ne_zero _)),
        ih _ (by omega), hletter]
      omega

theorem letterValue_cases {c : Char} (h : isLetter c = true) :
    1 ≤ letterValue c ∧ letterValue c ≤ 26 ∧ capitalLetter (letterValue c - 1) = asciiUpper c := by
  have hall : ∀ n < 123, isLetter (Char.ofNat n) = true →
      1 ≤ letterValue (Char.ofNat n) ∧ letterValue (Char.ofNat n) ≤ 26 ∧
        capitalLetter (letterValue (Char.ofNat n) - 1) = asciiUpper (Char.ofNat n) := by
    decide
  have hbound := toNat_lt_of_isLetter h
  rw [← Char.ofNat_toNat c] at h ⊢
  exact hall _ hbound h

/-- There is no other numeral in capital letters for the number that letters stand for. -/
theorem columnLetters_value {cs : List Char} (h : ∀ c ∈ cs, isLetter c = true) :
    columnLetters (Axis.column.numbering.value cs) = cs.map asciiUpper := by
  induction cs using List.reverseRecOn with
  | nil => rfl
  | append_singleton cs c ih =>
    simp only [List.forall_mem_append, List.forall_mem_singleton] at h
    obtain ⟨hlow, hhigh, hletter⟩ := letterValue_cases h.2
    obtain ⟨d, hd⟩ : ∃ d, letterValue c = d + 1 := ⟨letterValue c - 1, by omega⟩
    have hrounds : (Axis.column.numbering.value cs * 26 + d) / 26 =
        Axis.column.numbering.value cs := by
      omega
    have hlast : (Axis.column.numbering.value cs * 26 + d) % 26 = d := by omega
    rw [hd, Nat.add_sub_cancel] at hletter
    rw [value_append_letter _ h.2, hd, ← Nat.add_assoc, columnLetters_succ, hrounds, hlast, ih h.1,
      hletter, List.map_append, List.map_singleton]

theorem isLetter_of_capital {c : Char} (h : 'A' ≤ c ∧ c ≤ 'Z') : isLetter c = true := by
  simp [isLetter, h]

/-! ### Cells -/

namespace Cell

variable {cell : Cell} {text : Text} {w : List Rune}

/-- A cell is written as its text form. -/
theorem isWrittenAs_text (cell : Cell) : cell.IsWrittenAs cell.text.runes := by
  obtain ⟨a, letters, b, digits, htext, -, hcolumn, hrow⟩ := Rule.isCellText_written cell
  have hwritten : cell.IsWrittenAs (a ++ letters ++ (b ++ digits)) :=
    ⟨a, letters, b, digits, htext, rfl, hcolumn ▸ cell.column.parse_text,
      hrow ▸ cell.row.parse_text⟩
  have hspelled : cell.text = .ofRunes (a ++ letters ++ (b ++ digits)) := by
    rw [Text.ofRunes_append, hcolumn, hrow]
    rfl
  rw [hspelled, hwritten.settled]
  exact hwritten

/-- The numerals of the column and the row of a cell, each behind its mark. -/
theorem exists_numerals (h : cell.IsWrittenAs w) : ∃ letters digits,
    w.map Rune.value = absoluteMark cell.column.absolute ++ letters ++
      (absoluteMark cell.row.absolute ++ digits) ∧
    (∀ c ∈ letters, isLetter c = true) ∧ (∀ c ∈ digits, isDigit c = true) ∧
    Axis.column.numbering.value letters = cell.column.number ∧
      Axis.row.numbering.value digits = cell.row.number := by
  have hsettled := h.settled
  obtain ⟨a, letters, b, digits, htext, rfl, hcolumn, hrow⟩ := h
  rw [Axis.column_parse_eq, Axis.readLine_eq_ok_iff Axis.column_areLines] at hcolumn
  rw [Axis.row_parse_eq, Axis.readLine_eq_ok_iff Axis.row_areLines] at hrow
  obtain ⟨mark, cs, hcs, hnumber, rfl⟩ := hcolumn
  obtain ⟨mark', ds, hds, hnumber', rfl⟩ := hrow
  have hletters : ∀ c ∈ cs, isLetter c = true := fun c hc =>
    (Axis.column_isPart_and_digit c).1.symm.trans (hcs.parts c hc)
  have hdigits : ∀ c ∈ ds, isDigit c = true := fun c hc =>
    (Axis.row_isPart_and_digit c).1.symm.trans (hds.parts c hc)
  refine ⟨cs, ds, ?_, hletters, hdigits, hnumber, hnumber'⟩
  rw [← hsettled, Text.ofRunes_append, hcs.text_eq, hds.text_eq, ← Text.ofChars_append]
  exact Text.chars_ofChars _

/-- A cell that is written as `w` has the text form that is `w` tidied. -/
theorem text_eq_of_isWrittenAs (h : cell.IsWrittenAs w) :
    cell.text = .ofChars ((withoutLeadingZeros false (w.map Rune.value)).map asciiUpper) := by
  obtain ⟨letters, digits, hw, hletters, hdigits, hcolumn, hrow⟩ := exists_numerals h
  have hmark (absolute : Bool) : ∀ c ∈ absoluteMark absolute, c = '$' := by
    cases absolute <;> simp [absoluteMark]
  -- No digit stands in front of the row, so the zeros that go are those of its numeral.
  have hfront : ∀ c ∈ absoluteMark cell.column.absolute ++ letters ++
      absoluteMark cell.row.absolute, isDigit c = false := by
    simp only [List.forall_mem_append]
    refine ⟨⟨fun c hc => ?_, fun c hc => ?_⟩, fun c hc => ?_⟩
    · rw [hmark _ c hc]
      rfl
    · rw [Bool.eq_false_iff]
      intro hdigit
      have hletter := hletters c hc
      rw [Rule.isLetter_eq_false hdigit] at hletter
      cases hletter
    · rw [hmark _ c hc]
      rfl
  have hupper (absolute : Bool) :
      (absoluteMark absolute).map asciiUpper = absoluteMark absolute := by
    cases absolute <;> rfl
  have hrowDigits : (withoutLeadingZeros false digits).map asciiUpper =
      Nat.toDigits 10 cell.row.number := by
    rw [← toDigits_value hdigits (by rw [hrow]; exact cell.row.one_le), hrow]
    have hsame : ∀ c ∈ digitChars, asciiUpper c = c := by decide
    exact (List.map_congr_left fun c hc =>
      hsame c (mem_digitChars (isDigit_of_mem_toDigits hc))).trans (List.map_id' _)
  rw [hw, ← List.append_assoc, withoutLeadingZeros_append hfront]
  simp only [List.map_append, hupper, ← columnLetters_value hletters, hrowDigits, hcolumn]
  rw [List.append_assoc, Text.ofChars_append]
  rfl

theorem parse_text (cell : Cell) : parse cell.text = .ok cell :=
  parse_eq_ok_iff.2 cell.isWrittenAs_text

/-- A text that is read as a cell is its text form, tidied. -/
theorem text_eq_of_parse (h : parse text = .ok cell) : cell.text = text.tidied :=
  text_eq_of_isWrittenAs (parse_eq_ok_iff.1 h)

end Cell

/-! ### Ranges -/

namespace CellRange

variable {range : CellRange} {text : Text}

theorem text_eq_append (range : CellRange) :
    range.text = range.first.text ++ .ofRunes [.scalar ':'] ++ range.last.text := by
  rw [Text.append_assoc]
  exact congrArg (fun t => range.first.text ++ (.ofRunes [.scalar ':'] ++ t))
    (Text.append_empty range.last.text)

theorem runes_text (range : CellRange) :
    range.text.runes = range.first.text.runes ++ .scalar ':' :: range.last.text.runes := by
  rw [text_eq_append, Text.runes_append_scalar (by decide)]

theorem parse_text (range : CellRange) : parse range.text = .ok range :=
  parse_eq_ok_iff.2
    ⟨_, _, runes_text range, range.first.isWrittenAs_text, range.last.isWrittenAs_text⟩

/-- A text that is read as a range is its text form, tidied. -/
theorem text_eq_of_parse (h : parse text = .ok range) : range.text = text.tidied := by
  obtain ⟨v, w, hruns, hfirst, hlast⟩ := parse_eq_ok_iff.1 h
  have hchars : text.chars = v.map Rune.value ++ ':' :: w.map Rune.value := by
    rw [Text.chars, hruns, List.map_append]
    rfl
  rw [Text.tidied, hchars, withoutLeadingZeros_append_mark (by rfl), List.map_append, List.map_cons,
    text_eq_append, Cell.text_eq_of_isWrittenAs hfirst, Cell.text_eq_of_isWrittenAs hlast,
    Text.append_assoc, Text.ofChars_append]
  rfl

end CellRange

/-! ### Text forms and references -/

/-- Column numbers and strings of capital letters are written as one another; cells and ranges are
read back from their text forms; and a text that is read as a cell or a range is its text form once
its letters are capitals and its rows have no zeros in front. -/
theorem Reference.text_forms :
    (∀ n, 1 ≤ n → columnLetters n ≠ [] ∧ (∀ c ∈ columnLetters n, 'A' ≤ c ∧ c ≤ 'Z') ∧
      Axis.column.numbering.value (columnLetters n) = n) ∧
    (∀ cs, cs ≠ [] → (∀ c ∈ cs, 'A' ≤ c ∧ c ≤ 'Z') →
      1 ≤ Axis.column.numbering.value cs ∧ columnLetters (Axis.column.numbering.value cs) = cs) ∧
    (∀ cell : Cell, Cell.parse cell.text = .ok cell) ∧
    (∀ range : CellRange, CellRange.parse range.text = .ok range) ∧
    (∀ text cell, Cell.parse text = .ok cell → cell.text = text.tidied) ∧
    ∀ text range, CellRange.parse text = .ok range → range.text = text.tidied := by
  refine ⟨fun n hn => ⟨?_, fun c hc => ?_, value_columnLetters n⟩, fun cs hne hcs => ?_,
    Cell.parse_text, CellRange.parse_text, fun _ _ => Cell.text_eq_of_parse,
    fun _ _ => CellRange.text_eq_of_parse⟩
  · intro hnil
    have hvalue := value_columnLetters n
    rw [hnil] at hvalue
    exact absurd hvalue (Nat.ne_of_lt hn)
  · obtain ⟨k, hk, rfl⟩ := mem_columnLetters hc
    have hcapital : ∀ k < 26, 'A' ≤ capitalLetter k ∧ capitalLetter k ≤ 'Z' := by decide
    exact hcapital k hk
  -- Letters that are capitals already are those that the number is written with.
  · have hsame : columnLetters (Axis.column.numbering.value cs) = cs := by
      rw [columnLetters_value fun c hc => isLetter_of_capital (hcs c hc)]
      exact (List.map_congr_left fun c hc => Rule.asciiUpper_of_capital (hcs c hc)).trans
        (List.map_id' _)
    refine ⟨Nat.pos_of_ne_zero fun hzero => hne ?_, hsame⟩
    rw [← hsame, hzero]
    rfl

/-- The first column of three letters, and references with marks, small letters and zeros. -/
theorem Reference.text_forms_mended :
    Axis.column.numbering.value (columnLetters 703) = 703 ∧
      columnLetters (Axis.column.numbering.value ['X', 'F', 'D']) = ['X', 'F', 'D'] ∧
      (∃ cell, Cell.parse "$xfd01048576" = .ok cell ∧ cell.text = "$XFD1048576") ∧
      ∃ range, CellRange.parse "$b$0200:aA3" = .ok range ∧ range.text = "$B$200:AA3" := by
  obtain ⟨hletters, hnumbers, -, -, hcell, hrange⟩ := Reference.text_forms
  have hcorner : Cell.parse "$xfd01048576" = .ok
      ⟨⟨maxColumn, true, by decide, by decide⟩, ⟨maxRow, false, by decide, by decide⟩⟩ := by
    decide +kernel
  have hblock : CellRange.parse "$b$0200:aA3" = .ok
      ⟨⟨⟨2, true, by decide, by decide⟩, ⟨200, true, by decide, by decide⟩⟩,
        ⟨⟨27, false, by decide, by decide⟩, ⟨3, false, by decide, by decide⟩⟩⟩ := by
    decide +kernel
  refine ⟨(hletters 703 (by decide)).2.2, (hnumbers _ (by decide) (by decide)).2,
    ⟨_, hcorner, ?_⟩, _, hblock, ?_⟩
  · rw [hcell _ _ hcorner]
    decide +kernel
  · rw [hrange _ _ hblock]
    decide +kernel

end SheetFormula
