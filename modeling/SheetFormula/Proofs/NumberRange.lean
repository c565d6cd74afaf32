import SheetFormula.Proofs.NumberValues

/-!
# Which numbers have a value

A number has a value when its exponent and the exponent of its leading digit are within the limits
of decimals.  The digits of the written exponent are counted before they are read.  Without zeros in
front, an exponent of too many digits lies so far beyond the limits that neither the places behind
the point nor the percent signs of a text bring it back (`Numeral.isShort_of_inRange`).  With zeros
in front it need not, so a number within the limits is refused when its exponent is padded, and only
then: `Grammar.parse_number_accepts_iff`.
-/

namespace SheetFormula

namespace Numeral

/-- How many digits a number has without the zeros in front; zero has one. -/
def significant (x : Numeral) : Nat := max 1 (x.digits.dropWhile (· == '0')).length

/-- The exponent of a number and that of its leading digit are within the limits. -/
structure InRange (x : Numeral) : Prop where
  exponent : -100000 ≤ x.exponent ∧ x.exponent ≤ 100000
  leading : -100000 ≤ x.exponent + x.significant - 1 ∧ x.exponent + x.significant - 1 ≤ 100000

/-- The exponent is written with zeros in front and with more digits than are read. -/
def IsPadded (x : Numeral) : Prop :=
  ∃ power ∈ x.power?, NumberReading.maxExponentDigits < power.digits.length ∧
    power.digits.head? = some '0'

variable {x : Numeral}

theorem digitCount_digits (x : Numeral) :
    Decimal.digitCount (digitsValue x.digits) = x.significant := by
  have hdigits : ∀ c ∈ x.digits, isDigit c = true := x.all_digits
  by_cases hzero : digitsValue x.digits = 0
  · rw [significant, dropWhile_eq_nil_of_digitsValue hdigits hzero, hzero]
    rfl
  · have hpos := Decimal.digitCount_pos (c := digitsValue x.digits)
    rw [Decimal.digitCount, toDigits_digitsValue hdigits hzero] at hpos ⊢
    exact (Nat.max_eq_right hpos).symm

/-- The limits of a number are those of the decimal for it. -/
theorem inRange_iff : x.InRange ↔ Decimal.inRange (digitsValue x.digits) x.exponent = true := by
  rw [Decimal.inRange, Bool.and_eq_true, Decimal.exponentAllowed_iff, Decimal.exponentAllowed_iff,
    digitCount_digits]
  exact ⟨fun h => ⟨h.exponent, h.leading⟩, fun h => ⟨h.1, h.2⟩⟩

/-- An exponent of more digits than are read, without zeros in front, is out of all proportion. -/
theorem pow_le_of_not_padded {power : NumeralPower}
    (hlong : NumberReading.maxExponentDigits < power.digits.length)
    (hhead : power.digits.head? ≠ some '0') : 10 ^ 9 ≤ digitsValue power.digits := by
  obtain ⟨c, cs, hdigits⟩ := List.exists_cons_of_ne_nil power.digits_ne
  rw [hdigits, List.head?_cons, ne_eq, Option.some.injEq] at hhead
  have hkept : power.digits.dropWhile (· == '0') = power.digits := by
    rw [hdigits, List.dropWhile_cons_of_neg (by simpa using hhead)]
  have hvalue : digitsValue power.digits ≠ 0 := by
    intro hzero
    rw [dropWhile_eq_nil_of_digitsValue power.all_digits hzero] at hkept
    exact power.digits_ne hkept.symm
  have hcount : Decimal.digitCount (digitsValue power.digits) = power.digits.length := by
    rw [Decimal.digitCount, toDigits_digitsValue power.all_digits hvalue, hkept]
  by_contra hless
  have hle := (Decimal.digitCount_le_iff (k := 9) (by decide)).2 (Nat.not_le.1 hless)
  rw [hcount] at hle
  exact absurd hlong (Nat.not_lt.2 hle)

/-- Within the limits, only zeros in front make an exponent too long. -/
theorem isShort_of_inRange (hlength : x.runes.length ≤ maxFormulaLength) (hrange : x.InRange)
    (hpadded : ¬ x.IsPadded) : x.IsShort := by
  intro power hpower
  by_contra hlong
  have hlarge := pow_le_of_not_padded (Nat.not_le.1 hlong) fun hhead =>
    hpadded ⟨power, hpower, Nat.not_le.1 hlong, hhead⟩
  have hplaces : x.places.length + x.percents ≤ 8192 :=
    Nat.le_trans x.places_add_percents_le hlength
  obtain ⟨hlow, hhigh⟩ := hrange.exponent
  rw [Numeral.exponent, Numeral.power, hpower, Option.map_some, Option.getD_some,
    NumeralPower.value] at hlow hhigh
  -- The places and the percent signs make up for a few thousand at most.
  rcases hsign : power.sign with _ | _ | _ <;>
    simp only [hsign, NumeralSign.factor] at hlow hhigh <;> omega

/-- A numeral has a value when its exponent is short and it is within the limits. -/
theorem exists_numberValue_iff (hlength : x.runes.length ≤ maxFormulaLength) :
    (∃ d, numberValue x.leaves = .ok d) ↔ x.IsShort ∧ x.InRange := by
  constructor
  · rintro ⟨d, hd⟩
    have hshort := isShort_of_numberValue hd
    obtain ⟨hlow, hhigh⟩ := exponent_bounds hshort hlength
    rw [numberValue_leaves hshort hlow hhigh] at hd
    split_ifs at hd with hrange
    exact ⟨hshort, inRange_iff.2 hrange⟩
  · rintro ⟨hshort, hrange⟩
    obtain ⟨hlow, hhigh⟩ := exponent_bounds hshort hlength
    rw [numberValue_leaves hshort hlow hhigh, if_pos (inRange_iff.1 hrange)]
    exact ⟨_, rfl⟩

end Numeral

namespace Grammar

open Rule

variable {text : Text} {x : Numeral}

/-- A numeral is accepted when its leaves have a value. -/
theorem parse_number_ok_iff (hx : text.runes = x.runes)
    (hlength : text.runeCount ≤ maxFormulaLength) :
    (∃ n, american.parse .number text = .ok n) ↔ ∃ d, numberValue x.leaves = .ok d := by
  constructor
  · rintro ⟨n, hn⟩
    obtain ⟨y, d, hy, hvalue, -⟩ := exists_numeral_of_parse hn
    have hleaves : x.leaves = y.leaves := by
      have hnumber := isNumber_numeral x
      rw [← hx, hy] at hnumber
      exact hnumber.unique (isNumber_numeral y)
    exact ⟨d, hleaves ▸ hvalue⟩
  · rintro ⟨d, hd⟩
    -- The whole text is a number, so it is the longest one at its start.
    have hlongest : IsLongestNumber (Cursor.start text).rest x.runes x.leaves := by
      rw [← hx]
      exact (hx ▸ isNumber_numeral x).isLongestNumber
    obtain ⟨next, hpasses, hscan⟩ := hlongest.scanned
    have hend : next.rest = [] := by
      have hrest := hpasses.rest
      rw [← hx] at hrest
      exact List.self_eq_append_right.1 hrest
    have hfound : number american true (.start text) =
        (.found [.parent (.number d) x.leaves], next) := by
      rw [number_american]
      simp only [hscan, hd]
    exact ⟨_, parse_eq_ok_of_found hlength hfound hend⟩

/-- A text that is spelled as a number is accepted exactly when its exponent and that of its leading
digit are within the limits, unless the exponent is padded with zeros to more digits than are read.
-/
theorem parse_number_accepts_iff (hx : text.runes = x.runes)
    (hlength : text.runeCount ≤ maxFormulaLength) :
    (∃ n, american.parse .number text = .ok n) ↔ x.InRange ∧ ¬ x.IsPadded := by
  have hruns : x.runes.length ≤ maxFormulaLength := by
    rw [← hx]
    exact hlength
  rw [parse_number_ok_iff hx hlength, Numeral.exists_numberValue_iff hruns]
  constructor
  · rintro ⟨hshort, hrange⟩
    refine ⟨hrange, ?_⟩
    rintro ⟨power, hpower, hlong, -⟩
    exact absurd (hshort power hpower) (Nat.not_le.2 hlong)
  · rintro ⟨hrange, hpadded⟩
    exact ⟨Numeral.isShort_of_inRange hruns hrange hpadded, hrange⟩

/-- Percent signs bring an exponent back that is beyond the limits. -/
theorem parse_number_accepts_iff_percents :
    (∃ n, american.parse .number "-0.05e+100005%%" = .ok n) ∧
      ¬ ∃ n, american.parse .number "-0.05e+100005%" = .ok n := by
  let numeral (percents : Nat) : Numeral :=
    ⟨.minus, ['0'], some ['0', '5'],
      some ⟨.scalar 'e', .plus, ['1', '0', '0', '0', '0', '5'], by decide, by decide, by decide⟩,
      percents, by decide, by decide⟩
  constructor
  · refine (parse_number_accepts_iff (x := numeral 2) (by decide +kernel) (by decide +kernel)).2
      ⟨⟨by decide +kernel, by decide +kernel⟩, ?_⟩
    rintro ⟨power, hmem, hlong, -⟩
    obtain rfl := Option.mem_some_iff.1 hmem
    exact absurd hlong (by decide)
  · intro hok
    have hrange := ((parse_number_accepts_iff (x := numeral 1) (by decide +kernel)
      (by decide +kernel)).1 hok).1
    exact absurd hrange.exponent (by decide +kernel)

/-- The same exponent is read with eight zeros in front of it and refused with nine. -/
theorem parse_number_padded : ∃ x : Numeral, Text.runes "1E0000000005" = x.runes ∧
    Text.runeCount "1E0000000005" ≤ maxFormulaLength ∧ x.InRange ∧
      (¬ ∃ n, american.parse .number "1E0000000005" = .ok n) ∧
        ∃ n, american.parse .number "1E000000005" = .ok n := by
  refine ⟨⟨.none, ['1'], none,
    some ⟨.scalar 'E', .none, ['0', '0', '0', '0', '0', '0', '0', '0', '0', '5'], by decide,
      by decide, by decide⟩, 0, by decide, by decide⟩, by decide +kernel, by decide +kernel,
    ⟨by decide +kernel, by decide +kernel⟩, ?_, ?_⟩
  · rintro ⟨n, hn⟩
    have hrefused : (american.parse .number "1E0000000005").toOption.isNone = true := by
      decide +kernel
    rw [hn] at hrefused
    cases hrefused
  · exact (exists_ok_of_any (p := fun _ => true) (by decide +kernel)).imp fun _ h => h.1

end Grammar

end SheetFormula
