import Mathlib.Algebra.Field.Rat
import Mathlib.Algebra.Order.Ring.Rat
import Mathlib.Tactic.FieldSimp
import Mathlib.Tactic.Ring
import SheetFormula.Proofs.PlainText
import SheetFormula.Proofs.WrittenTokens

/-!
# The value of a number is the one that is written

The scanner of numbers cuts a text into leaves, and `numberValue` puts their digits together again,
telling the places behind the point and the digits of the exponent from the others by where they
stand.  A `Numeral` says in full how a number is written, and what it means is a rational number
that refers neither to leaves nor to decimals.  `Grammar.parse_number_value`: that is the value of
the tree, with the exponent that the places, the written exponent and the percent signs ask for.
-/

namespace SheetFormula

/-- The number that a decimal stands for. -/
def Decimal.toRat (d : Decimal) : ℚ :=
  (if d.negative then -1 else 1) * d.coefficient * 10 ^ d.exponent

/-! ### How numbers are written -/

/-- The sign in front of digits, if there is one. -/
inductive NumeralSign
  | none
  | plus
  | minus
deriving DecidableEq

namespace NumeralSign

/-- How a sign is written. -/
def runes : NumeralSign → List Rune
  | none => []
  | plus => [.scalar '+']
  | minus => [.scalar '-']

/-- The leaf of a sign. -/
def leaves : NumeralSign → List Node
  | none => []
  | plus => [Rule.signLeaf .plus '+']
  | minus => [Rule.signLeaf .minus '-']

/-- What a sign multiplies a number by. -/
def factor : NumeralSign → Int
  | minus => -1
  | _ => 1

end NumeralSign

/-- An exponent as it is written: its mark, a sign and digits. -/
structure NumeralPower where
  mark : Rune
  sign : NumeralSign
  digits : List Char
  mark_folded : foldRunes [mark] = "e"
  digits_ne : digits ≠ []
  all_digits : ∀ c ∈ digits, isDigit c = true

namespace NumeralPower

/-- How an exponent is written. -/
def runes (x : NumeralPower) : List Rune := x.mark :: x.sign.runes ++ x.digits.map .scalar

/-- The leaves of an exponent. -/
def leaves (x : NumeralPower) : List Node :=
  .leaf (.symbol .exponent) (.ofRunes [x.mark]) :: x.sign.leaves ++
    [.leaf .digits (.ofChars x.digits)]

/-- The exponent that is written. -/
def value (x : NumeralPower) : Int := x.sign.factor * digitsValue x.digits

end NumeralPower

/-- A number as it is written: a sign, digits, a point with digits behind it, an exponent and
percent signs. -/
structure Numeral where
  sign : NumeralSign
  whole : List Char
  /-- The digits behind the point, if there is a point. -/
  fraction? : Option (List Char)
  power? : Option NumeralPower
  percents : Nat
  digits_ne : whole ++ fraction?.getD [] ≠ []
  all_digits : ∀ c ∈ whole ++ fraction?.getD [], isDigit c = true

namespace Numeral

/-- The digits behind the point. -/
def places (x : Numeral) : List Char := x.fraction?.getD []

/-- How the point and the digits behind it are written. -/
def fractionRunes (x : Numeral) : List Rune :=
  match x.fraction? with
  | none => []
  | some places => .scalar '.' :: places.map .scalar

/-- The leaves of the point and the digits behind it. -/
def fractionLeaves (x : Numeral) : List Node :=
  match x.fraction? with
  | none => []
  | some places =>
    .leaf (.symbol .decimalSeparator) (.ofRunes [.scalar '.']) ::
      Rule.digitLeaves (places.map .scalar)

/-- How a number is written. -/
def runes (x : Numeral) : List Rune :=
  x.sign.runes ++ (x.whole.map .scalar ++ x.fractionRunes) ++
    (x.power?.map NumeralPower.runes).getD [] ++ List.replicate x.percents (.scalar '%')

/-- The leaves of a number. -/
def leaves (x : Numeral) : List Node :=
  x.sign.leaves ++ (Rule.digitLeaves (x.whole.map .scalar) ++ x.fractionLeaves) ++
    (x.power?.map NumeralPower.leaves).getD [] ++
      List.replicate x.percents (Rule.signLeaf .percent '%')

/-- The exponent that is written, zero if there is none. -/
def power (x : Numeral) : Int := (x.power?.map NumeralPower.value).getD 0

/-- The exponent of all digits of a number, were they written without a point. -/
def exponent (x : Numeral) : Int := x.power - x.places.length - 2 * x.percents

/-- The number that is written. -/
def value (x : Numeral) : ℚ :=
  x.sign.factor * (digitsValue x.whole + digitsValue x.places / 10 ^ x.places.length) *
    10 ^ x.power * 100 ^ (-(x.percents : Int))

/-- All digits of a number, without the point. -/
def digits (x : Numeral) : List Char := x.whole ++ x.places

/-- The exponent is written with no more digits than are read. -/
def IsShort (x : Numeral) : Prop :=
  ∀ power ∈ x.power?, power.digits.length ≤ NumberReading.maxExponentDigits

end Numeral

/-! ### Numerals and their leaves -/

namespace Rule

variable {v w : List Rune} {nodes children : List Node}

theorem isSign_iff : IsSign v nodes ↔ ∃ s : NumeralSign, v = s.runes ∧ nodes = s.leaves := by
  constructor
  · rintro (_ | _ | _)
    · exact ⟨.none, rfl, rfl⟩
    · exact ⟨.minus, rfl, rfl⟩
    · exact ⟨.plus, rfl, rfl⟩
  · rintro ⟨_ | _ | _, rfl, rfl⟩
    · exact .none
    · exact .plus
    · exact .minus

/-- Digits are characters. -/
theorem exists_digits (hv : ∀ r ∈ v, isDigit r.value = true) :
    ∃ ds : List Char, v = ds.map .scalar ∧ ∀ c ∈ ds, isDigit c = true := by
  refine ⟨v.map Rune.value, ?_, List.forall_mem_map.2 hv⟩
  exact Text.eq_map_scalar fun r hr => Rune.isScalar_of_class (hv r hr) (by decide)

theorem digitLeaves_map {ds : List Char} (hne : ds ≠ []) :
    digitLeaves (ds.map .scalar) = [.leaf .digits (.ofChars ds)] := by
  rw [digitLeaves, if_neg (by simpa using hne), Text.ofRunes_map_scalar]

theorem isDigit_of_mem_map {ds : List Char} (hds : ∀ c ∈ ds, isDigit c = true) :
    ∀ r ∈ ds.map Rune.scalar, isDigit r.value = true := List.forall_mem_map.2 hds

theorem isMantissa_numeral (x : Numeral) :
    IsMantissa (x.whole.map .scalar ++ x.fractionRunes)
      (digitLeaves (x.whole.map .scalar) ++ x.fractionLeaves) := by
  have hne := x.digits_ne
  obtain ⟨hwhole, hplaces⟩ := List.forall_mem_append.1 x.all_digits
  unfold Numeral.fractionRunes Numeral.fractionLeaves
  cases hfraction : x.fraction? with
  | none =>
    rw [hfraction] at hne
    simp only [List.append_nil]
    exact .whole (by simpa using hne) (isDigit_of_mem_map hwhole)
  | some places =>
    rw [hfraction] at hne hplaces
    have hmantissa := IsMantissa.fraction (u := x.whole.map .scalar) (v := places.map .scalar)
      (by simpa [imp_iff_not_or] using hne) (isDigit_of_mem_map hwhole) (isDigit_of_mem_map hplaces)
    rwa [List.append_assoc, List.singleton_append] at hmantissa

theorem isExponent_numeral (x : Numeral) :
    IsExponent ((x.power?.map NumeralPower.runes).getD [])
      ((x.power?.map NumeralPower.leaves).getD []) := by
  cases x.power? with
  | none => exact .none
  | some power =>
    have hleaves := IsExponent.power power.mark_folded (isSign_iff.2 ⟨power.sign, rfl, rfl⟩)
      (by simpa using power.digits_ne) (isDigit_of_mem_map power.all_digits)
    rwa [digitLeaves_map power.digits_ne] at hleaves

/-- The leaves of a numeral are those of a number. -/
theorem isNumber_numeral (x : Numeral) : IsNumber x.runes x.leaves := by
  have hnumber := IsNumber.mk x.percents (isSign_iff.2 ⟨x.sign, rfl, rfl⟩) (isMantissa_numeral x)
    (isExponent_numeral x)
  rwa [← List.append_assoc x.sign.runes, ← List.append_assoc (x.sign.runes ++ _)] at hnumber

theorem leaves_ne_nil (x : Numeral) : x.leaves ≠ [] := by
  obtain ⟨child, children, hfirst, -⟩ := (isMantissa_numeral x).first
  rw [Numeral.leaves, hfirst]
  simp

/-- What is spelled as a number is a numeral. -/
theorem exists_numeral (h : IsNumber w children) : ∃ x : Numeral, w = x.runes := by
  obtain @⟨s, u, v, signs, places, power, k, hs, hu, hv⟩ := h
  obtain ⟨sign, rfl, -⟩ := isSign_iff.1 hs
  obtain ⟨power?, hpower⟩ : ∃ power? : Option NumeralPower,
      v = (power?.map NumeralPower.runes).getD [] := by
    cases hv with
    | none => exact ⟨none, rfl⟩
    | power hm hsign hne hdigits =>
      obtain ⟨powerSign, rfl, -⟩ := isSign_iff.1 hsign
      obtain ⟨ds, rfl, hds⟩ := exists_digits hdigits
      exact ⟨some ⟨_, powerSign, ds, hm, by simpa using hne, hds⟩, rfl⟩
  subst hpower
  -- The digits of a fraction may lack on one side of the point, not on both.
  cases hu with
  | whole hne hdigits =>
    obtain ⟨whole, rfl, hwhole⟩ := exists_digits hdigits
    refine ⟨⟨sign, whole, none, power?, k, by simpa using hne, by simpa using hwhole⟩, ?_⟩
    simp [Numeral.runes, Numeral.fractionRunes]
  | fraction hne hu hv =>
    obtain ⟨whole, rfl, hwhole⟩ := exists_digits hu
    obtain ⟨places, rfl, hplaces⟩ := exists_digits hv
    refine ⟨⟨sign, whole, some places, power?, k, ?_, List.forall_mem_append.2 ⟨hwhole, hplaces⟩⟩,
      ?_⟩
    · simpa [imp_iff_not_or] using hne
    · simp [Numeral.runes, Numeral.fractionRunes]

end Rule

/-! ### Reading the leaves -/

namespace NumberReading

variable {r : NumberReading}

theorem read_sign (s : NumeralSign) :
    s.leaves.foldlM read {} = .ok { negative := decide (s = .minus) } := by
  cases s <;> rfl

/-- The sign behind the mark of the exponent is that of the exponent. -/
theorem read_exponentSign (s : NumeralSign) (hexponent : r.inExponent = true)
    (hnone : r.exponent? = none) (hpositive : r.exponentNegative = false) :
    s.leaves.foldlM read r = .ok { r with exponentNegative := decide (s = .minus) } := by
  obtain ⟨_, _, _, _, _, _, _, _, _⟩ := r
  obtain rfl := hexponent
  obtain rfl := hnone
  obtain rfl := hpositive
  cases s <;> rfl

/-- Digits in front of the exponent are added to those read, and counted behind the point. -/
theorem read_digitLeaves {ds : List Char} (hds : ∀ c ∈ ds, isDigit c = true)
    (hexponent : r.inExponent = false) :
    (Rule.digitLeaves (ds.map .scalar)).foldlM read r = .ok
      { r with
        digits := r.digits ++ .ofChars ds
        digitsSeen := r.digitsSeen || !ds.isEmpty
        fraction := if r.inFraction then r.fraction + ds.length else r.fraction } := by
  by_cases hnil : ds = []
  · subst hnil
    have hdigits : r.digits ++ .ofChars [] = r.digits := Text.append_empty _
    simp [Rule.digitLeaves, hdigits, pure, Except.pure]
  · have hfull : (!ds.isEmpty) = true := by simpa using hnil
    have hsize := Text.size_ofChars hds
    rw [Rule.digitLeaves_map hnil, List.foldlM_cons]
    show (readDigits r (.ofChars ds) >>= _) = _
    rw [readDigits, hexponent, hfull, Bool.or_true, hsize]
    split_ifs <;> simp_all [bind, Except.bind, pure, Except.pure]

theorem read_percents (k : Nat) :
    (List.replicate k (Rule.signLeaf .percent '%')).foldlM read r =
      .ok { r with percents := r.percents + k } := by
  induction k generalizing r with
  | zero => rfl
  | succ k ih =>
    rw [List.replicate_succ, List.foldlM_cons]
    show List.foldlM read { r with percents := r.percents + 1 } _ = _
    rw [ih, Nat.add_right_comm, Nat.add_assoc]

/-- What has been read of a number at the mark of its exponent. -/
structure IsBeforePower (r : NumberReading) : Prop where
  inExponent : r.inExponent = false
  exponentNegative : r.exponentNegative = false
  exponent? : r.exponent? = none

/-- The mark and the sign of an exponent are read, and then its digits. -/
theorem read_power_eq (x : NumeralPower) (h : r.IsBeforePower) :
    x.leaves.foldlM read r =
      readDigits { r with inExponent := true, exponentNegative := decide (x.sign = .minus) }
        (.ofChars x.digits) := by
  have hmark : read r (.leaf (.symbol .exponent) (.ofRunes [x.mark])) =
      .ok { r with inExponent := true } := by
    simp only [read, h.inExponent, Bool.false_eq_true, if_false]
  rw [NumeralPower.leaves, List.cons_append, List.foldlM_cons, hmark]
  show List.foldlM read { r with inExponent := true } (x.sign.leaves ++ _) = _
  rw [List.foldlM_append, read_exponentSign (r := { r with inExponent := true }) x.sign rfl
    h.exponent? h.exponentNegative]
  show List.foldlM read _ [_] = _
  rw [List.foldlM_cons]
  exact bind_pure _

/-- A short exponent is read as the number that its digits spell. -/
theorem read_power (x : NumeralPower) (h : r.IsBeforePower)
    (hshort : x.digits.length ≤ maxExponentDigits) :
    x.leaves.foldlM read r = .ok
      { r with
        digitsSeen := true
        inExponent := true
        exponentNegative := decide (x.sign = .minus)
        exponent? := some (digitsValue x.digits) } := by
  have hread : readInteger 64 x.digits = .ok (digitsValue x.digits : Int) := by
    refine readInteger_digits x.digits_ne x.all_digits ?_
    calc digitsValue x.digits
        < 10 ^ x.digits.length := digitsValue_lt x.all_digits
      _ ≤ 10 ^ 9 := Nat.pow_le_pow_right (by decide) hshort
      _ < 2 ^ 63 := by decide
  rw [read_power_eq x h, readDigits]
  simp only [h.exponent?, Option.isSome_none, Text.size_ofChars x.all_digits,
    Nat.not_lt.2 hshort, decide_false, Bool.or_false, Bool.false_eq_true, if_true, if_false,
    Text.chars_ofChars, hread]

/-- An exponent of too many digits is refused. -/
theorem read_power_long (x : NumeralPower) (h : r.IsBeforePower)
    (hlong : maxExponentDigits < x.digits.length) :
    x.leaves.foldlM read r = .error (.invalidExponent (.ofChars x.digits)) := by
  rw [read_power_eq x h, readDigits]
  simp only [Text.size_ofChars x.all_digits, hlong, decide_true, Bool.or_true, if_true]

end NumberReading

namespace Numeral

open NumberReading

/-- What has been read of a numeral in front of its exponent. -/
def mantissaReading (x : Numeral) : NumberReading where
  negative := decide (x.sign = .minus)
  digits := .ofChars x.digits
  digitsSeen := true
  inFraction := x.fraction?.isSome
  fraction := x.places.length

theorem mantissaReading_isBeforePower (x : Numeral) : x.mantissaReading.IsBeforePower :=
  ⟨rfl, rfl, rfl⟩

theorem all_whole (x : Numeral) : ∀ c ∈ x.whole, isDigit c = true :=
  (List.forall_mem_append.1 x.all_digits).1

theorem all_places (x : Numeral) : ∀ c ∈ x.places, isDigit c = true :=
  (List.forall_mem_append.1 x.all_digits).2

theorem read_mantissa (x : Numeral) :
    (x.sign.leaves ++ (Rule.digitLeaves (x.whole.map .scalar) ++ x.fractionLeaves)).foldlM read {} =
      .ok x.mantissaReading := by
  have hseen : (!x.whole.isEmpty || !x.places.isEmpty) = true := by
    simpa [imp_iff_not_or, places] using x.digits_ne
  have hplaces := x.all_places
  -- The digits in front of the point, and what is to be read behind them.
  have hwhole : (x.sign.leaves ++
      (Rule.digitLeaves (x.whole.map .scalar) ++ x.fractionLeaves)).foldlM read {} =
        x.fractionLeaves.foldlM read
          { negative := decide (x.sign = .minus)
            digits := .ofChars x.whole
            digitsSeen := !x.whole.isEmpty } := by
    rw [List.foldlM_append, read_sign]
    show List.foldlM read _ _ = _
    rw [List.foldlM_append, read_digitLeaves x.all_whole rfl]
    rfl
  rw [hwhole, mantissaReading, digits, Text.ofChars_append]
  unfold fractionLeaves
  unfold places at *
  cases hfraction : x.fraction? with
  | none =>
    rw [hfraction, Option.getD_none, List.isEmpty_nil, Bool.not_true, Bool.or_false] at hseen
    rw [hseen]
    exact congrArg (fun t => Except.ok (NumberReading.mk _ t _ _ _ _ _ _ _))
      (Text.append_empty _).symm
  | some places =>
    rw [hfraction, Option.getD_some] at hseen hplaces
    rw [List.foldlM_cons]
    show List.foldlM read { (_ : NumberReading) with inFraction := true } _ = _
    rw [read_digitLeaves hplaces rfl, hseen]
    simp

/-- What has been read of a numeral with a short exponent. -/
def reading (x : Numeral) : NumberReading :=
  { x.mantissaReading with
    inExponent := x.power?.isSome
    exponentNegative := x.power?.any fun power => decide (power.sign = .minus)
    exponent? := x.power?.map fun power => (digitsValue power.digits : Int)
    percents := x.percents }

theorem read_leaves (x : Numeral) :
    x.leaves.foldlM read {} =
      ((x.power?.map NumeralPower.leaves).getD []).foldlM read x.mantissaReading >>= fun r =>
        .ok { r with percents := r.percents + x.percents } := by
  rw [leaves, List.foldlM_append, List.foldlM_append, read_mantissa]
  show (List.foldlM read _ _ >>= _) = _
  congr 1
  funext r
  exact read_percents x.percents

theorem read_leaves_of_isShort {x : Numeral} (h : x.IsShort) :
    x.leaves.foldlM read {} = .ok x.reading := by
  rw [read_leaves, reading]
  cases hpower : x.power? with
  | none =>
    show Except.ok _ = _
    simp [mantissaReading]
  | some power =>
    rw [Option.map_some, Option.getD_some,
      read_power power x.mantissaReading_isBeforePower (h power hpower)]
    show Except.ok _ = _
    simp [mantissaReading]

theorem isShort_of_numberValue {x : Numeral} {d : Decimal} (h : numberValue x.leaves = .ok d) :
    x.IsShort := by
  intro power hpower
  by_contra hlong
  rw [numberValue, read_leaves, hpower, Option.map_some, Option.getD_some,
    read_power_long power x.mantissaReading_isBeforePower (Nat.not_le.1 hlong)] at h
  cases h

theorem totalExponent_reading (x : Numeral) : x.reading.totalExponent = x.exponent := by
  cases hpower : x.power? with
  | none => simp [totalExponent, reading, mantissaReading, exponent, power, hpower]
  | some power =>
    rcases hsign : power.sign with _ | _ | _ <;>
      simp [totalExponent, reading, mantissaReading, exponent, Numeral.power, hpower,
        NumeralPower.value, NumeralSign.factor, hsign]

/-- The value of the leaves of a numeral, if there is a decimal for it. -/
theorem numberValue_leaves {x : Numeral} (hshort : x.IsShort) (hlow : -2 ^ 31 ≤ x.exponent)
    (hhigh : x.exponent < 2 ^ 31) :
    numberValue x.leaves =
      if Decimal.inRange (digitsValue x.digits) x.exponent then
        .ok ⟨decide (x.sign = .minus) && digitsValue x.digits != 0, digitsValue x.digits,
          x.exponent⟩
      else .error (.decimal .exponentOutOfRange) := by
  have hexponent : (x.reading.inExponent && x.reading.exponent?.isNone) = false := by
    simp only [reading]
    cases x.power? <;> rfl
  rw [numberValue, read_leaves_of_isShort hshort]
  exact value_eq (r := x.reading) rfl x.digits_ne x.all_digits hexponent x.totalExponent_reading
    hlow hhigh

theorem places_add_percents_le (x : Numeral) : x.places.length + x.percents ≤ x.runes.length := by
  simp only [runes, fractionRunes, places, List.length_append, List.length_replicate]
  cases x.fraction? with
  | none => simp only [Option.getD_none, List.length_nil]; omega
  | some places => simp only [Option.getD_some, List.length_cons, List.length_map]; omega

/-- In a text that is not too long no exponent leaves the range of a word. -/
theorem exponent_bounds {x : Numeral} (hshort : x.IsShort)
    (hlength : x.runes.length ≤ maxFormulaLength) :
    -2 ^ 31 ≤ x.exponent ∧ x.exponent < 2 ^ 31 := by
  have hplaces := Nat.le_trans x.places_add_percents_le hlength
  have hpower : -10 ^ 9 < x.power ∧ x.power < 10 ^ 9 := by
    unfold power
    cases hpower : x.power? with
    | none => simp
    | some power =>
      have hdigits : digitsValue power.digits < 10 ^ 9 :=
        Nat.lt_of_lt_of_le (digitsValue_lt power.all_digits)
          (Nat.pow_le_pow_right (by decide) (hshort power hpower))
      simp only [Option.map_some, Option.getD_some, NumeralPower.value]
      rcases power.sign with _ | _ | _ <;> simp only [NumeralSign.factor] <;> omega
  simp only [maxFormulaLength] at hplaces
  unfold exponent
  omega

/-! ### The number that is written -/

/-- The digits of a numeral and their exponent make up the number that is written. -/
theorem toRat_eq_value (x : Numeral) :
    Decimal.toRat ⟨decide (x.sign = .minus) && digitsValue x.digits != 0, digitsValue x.digits,
      x.exponent⟩ = x.value := by
  have hten : (10 : ℚ) ≠ 0 := by norm_num
  have hdigits : (digitsValue x.digits : ℚ) =
      digitsValue x.whole * 10 ^ x.places.length + digitsValue x.places := by
    rw [digits, digitsValue_append_eq]
    push_cast
    rfl
  have hexponent : (10 : ℚ) ^ x.exponent =
      10 ^ x.power / 10 ^ x.places.length * 100 ^ (-(x.percents : Int)) := by
    have hhundred : (100 : ℚ) = 10 ^ (2 : Int) := by norm_num
    rw [exponent, zpow_sub₀ hten, zpow_sub₀ hten, zpow_natCast, hhundred, ← zpow_mul, mul_neg,
      zpow_neg, div_eq_mul_inv (_ / _)]
  have hsign : (if (decide (x.sign = .minus) && digitsValue x.digits != 0) = true then (-1 : ℚ)
      else 1) * digitsValue x.digits = x.sign.factor * digitsValue x.digits := by
    by_cases hzero : digitsValue x.digits = 0
    · simp [hzero]
    · rcases x.sign with _ | _ | _ <;> simp [NumeralSign.factor, hzero]
  rw [Decimal.toRat, hsign, hexponent, hdigits, value]
  field_simp

theorem value_eq_zero_iff (x : Numeral) : x.value = 0 ↔ digitsValue x.digits = 0 := by
  rw [← toRat_eq_value, Decimal.toRat, mul_eq_zero, mul_eq_zero, Nat.cast_eq_zero]
  constructor
  · rintro ((hsign | hzero) | hpower)
    · split_ifs at hsign <;> norm_num at hsign
    · exact hzero
    · exact absurd hpower (zpow_ne_zero _ (by norm_num))
  · exact fun hzero => .inl (.inr hzero)

end Numeral

namespace Grammar

variable {text : Text} {n : Node}

open Rule

/-- What is accepted as a number is a numeral, and its value is that of the leaves. -/
theorem exists_numeral_of_parse (h : american.parse .number text = .ok n) :
    ∃ (x : Numeral) (d : Decimal), text.runes = x.runes ∧ numberValue x.leaves = .ok d ∧
      n = .parent (.number d) x.leaves := by
  obtain ⟨c, hfound, hend⟩ := found_of_parse h
  have hnumber : number .american true (.start text) = (.found [n], c) := hfound
  rw [number_american] at hnumber
  cases hscan : scanNumber (.start text) with
  | none =>
    rw [hscan] at hnumber
    cases hnumber
  | some found =>
    obtain ⟨children, next⟩ := found
    obtain ⟨w, hw, hspelled⟩ := isNumber_of_scanNumber hscan
    obtain ⟨x, rfl⟩ := exists_numeral hspelled
    obtain rfl := hspelled.unique (isNumber_numeral x)
    cases hvalue : numberValue x.leaves with
    | error fault =>
      simp only [hscan, hvalue] at hnumber
      cases hnumber
    | ok d =>
      simp only [hscan, hvalue] at hnumber
      cases hnumber
      exact ⟨x, d, hw.rest_of_end hend, hvalue, rfl⟩

/-- A text that is accepted as a number is written as one, and the number of the tree is exactly the
one that is written, with the exponent that the written exponent, the places behind the point and
the percent signs make.  It is negative only behind a minus sign, and then unless it is zero.  Put
together from its leaves, the number is the same. -/
theorem parse_number_value (h : american.parse .number text = .ok n) :
    (∃ x : Numeral, text.runes = x.runes) ∧
      ∀ x : Numeral, text.runes = x.runes →
        ∃ d : Decimal, n = .parent (.number d) x.leaves ∧ d.toRat = x.value ∧
          d.exponent = x.exponent ∧ (d.negative = true ↔ x.sign = .minus ∧ x.value ≠ 0) ∧
          Builder.number.build (x.leaves.map some) = .ok n := by
  obtain ⟨y, d, hy, hvalue, rfl⟩ := exists_numeral_of_parse h
  refine ⟨⟨y, hy⟩, fun x hx => ⟨d, ?_⟩⟩
  -- The runes of a numeral determine its leaves, so any numeral of the text will do.
  have hleaves : x.leaves = y.leaves := by
    have hx' := isNumber_numeral x
    rw [← hx, hy] at hx'
    exact hx'.unique (isNumber_numeral y)
  rw [← hleaves] at hvalue ⊢
  have hlength := runeCount_of_parse h
  rw [Text.runeCount, hx] at hlength
  have hshort := Numeral.isShort_of_numberValue hvalue
  obtain ⟨hlow, hhigh⟩ := Numeral.exponent_bounds hshort hlength
  have hbuilt : Node.number x.leaves = .ok (.parent (.number d) x.leaves) :=
    Node.number_eq_ok_iff.2 ⟨leaves_ne_nil x, d, hvalue, rfl⟩
  rw [Numeral.numberValue_leaves hshort hlow hhigh] at hvalue
  split_ifs at hvalue
  obtain rfl := (Except.ok.inj hvalue).symm
  refine ⟨rfl, x.toRat_eq_value, rfl, ?_, ?_⟩
  · rw [ne_eq, x.value_eq_zero_iff]
    simp
  · rw [Builder.build_map_some]
    exact hbuilt

/-- Percent signs behind an exponent lower it, and the places behind the point do. -/
theorem parse_number_value_percent : ∃ n d children,
    american.parse .number "-12.50e+3%%" = .ok n ∧ n = .parent (.number d) children ∧
      d.toRat = -5 / 4 ∧ d.exponent = -3 ∧ d.negative = true := by
  obtain ⟨n, hn⟩ : ∃ n, american.parse .number "-12.50e+3%%" = .ok n :=
    (exists_ok_of_any (p := fun _ => true) (by decide +kernel)).imp fun _ h => h.1
  obtain ⟨d, hd, hvalue, hexponent, hnegative, -⟩ := (parse_number_value hn).2
    ⟨.minus, ['1', '2'], some ['5', '0'],
      some ⟨.scalar 'e', .plus, ['3'], by decide, by decide, by decide⟩, 2, by decide, by decide⟩
    (by decide +kernel)
  have hquotient : d.toRat = -5 / 4 := by
    have hdigits : digitsValue ['1', '2'] = 12 ∧ digitsValue ['5', '0'] = 50 ∧
        digitsValue ['3'] = 3 := by decide
    obtain ⟨hwhole, hplaces, hpower⟩ := hdigits
    rw [hvalue]
    norm_num [Numeral.value, Numeral.power, Numeral.places, NumeralPower.value,
      NumeralSign.factor, hwhole, hplaces, hpower]
  refine ⟨n, d, _, hn, hd, hquotient, hexponent, hnegative.2 ⟨rfl, ?_⟩⟩
  rw [← hvalue, hquotient]
  norm_num

end Grammar

end SheetFormula
