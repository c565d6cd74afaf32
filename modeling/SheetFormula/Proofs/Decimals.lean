import Mathlib.Data.List.Induction
import SheetFormula.Number.Decimal
import SheetFormula.Proofs.Numerals

/-!
# Decimals written in full

`Decimal.plain` writes all digits of a decimal and no exponent, so what is read back has the same
value in another representation, `Decimal.spread`.  Rounding leaves at most as many digits as the
precision says, and rounding the digits that were written in full brings back the value that was
rounded before.
-/

namespace SheetFormula

/-! ### Digits -/

theorem digitValue_lt {c : Char} (h : isDigit c = true) : digitValue c < 10 := by
  obtain ⟨-, hhigh⟩ : 48 ≤ c.toNat ∧ c.toNat ≤ 57 := by
    simpa [isDigit, Char.le_def, UInt32.le_iff_toNat_le] using h
  show c.toNat - 48 < 10
  omega

theorem digitsValue_append (cs ds : List Char) :
    digitsValue (cs ++ ds) = ds.foldl (fun n c => n * 10 + digitValue c) (digitsValue cs) :=
  List.foldl_append ..

/-- Zeros behind a number multiply it. -/
theorem digitsValue_append_zeros (cs : List Char) (k : Nat) :
    digitsValue (cs ++ List.replicate k '0') = digitsValue cs * 10 ^ k := by
  induction k with
  | zero => simp
  | succ k ih =>
    rw [List.replicate_succ', ← List.append_assoc, digitsValue_append, ih]
    show digitsValue cs * 10 ^ k * 10 + 0 = _
    rw [Nat.pow_succ, Nat.mul_assoc, Nat.add_zero]

/-- Digits behind a number move it to the left. -/
theorem digitsValue_append_eq (cs ds : List Char) :
    digitsValue (cs ++ ds) = digitsValue cs * 10 ^ ds.length + digitsValue ds := by
  induction ds using List.reverseRecOn with
  | nil => simp [digitsValue]
  | append_singleton ds c ih =>
    rw [← List.append_assoc, digitsValue_append, ih, digitsValue_append ds, List.length_append]
    show (digitsValue cs * 10 ^ ds.length + digitsValue ds) * 10 + digitValue c =
      digitsValue cs * 10 ^ (ds.length + 1) + (digitsValue ds * 10 + digitValue c)
    rw [Nat.pow_succ, Nat.add_mul, Nat.mul_assoc, Nat.add_assoc]

/-- Zeros in front of a number do not change it. -/
theorem digitsValue_zeros_append (cs : List Char) (k : Nat) :
    digitsValue (List.replicate k '0' ++ cs) = digitsValue cs := by
  have hzeros : digitsValue (List.replicate k '0') = 0 := by
    simpa [digitsValue] using digitsValue_append_zeros [] k
  rw [digitsValue_append, hzeros]
  rfl

theorem digitsValue_lt {cs : List Char} (h : ∀ c ∈ cs, isDigit c = true) :
    digitsValue cs < 10 ^ cs.length := by
  induction cs using List.reverseRecOn with
  | nil => simp [digitsValue]
  | append_singleton cs c ih =>
    simp only [List.forall_mem_append, List.forall_mem_singleton] at h
    have hcs := ih h.1
    have hc := digitValue_lt h.2
    rw [digitsValue_append, List.length_append, List.length_singleton, Nat.pow_succ]
    show digitsValue cs * 10 + digitValue c < _
    omega

theorem digitValue_ne_zero {c : Char} (h : isDigit c = true) (hzero : c ≠ '0') :
    digitValue c ≠ 0 := by
  have hall : ∀ c ∈ digitChars, c ≠ '0' → digitValue c ≠ 0 := by decide
  exact hall c (mem_digitChars h) hzero

theorem toDigits_digitValue {c : Char} (h : isDigit c = true) :
    Nat.toDigits 10 (digitValue c) = [c] := by
  have hall : ∀ c ∈ digitChars, Nat.toDigits 10 (digitValue c) = [c] := by decide
  exact hall c (mem_digitChars h)

/-- Digits behind the numeral of a number are the numeral of the number they make with it. -/
theorem toDigits_foldl {n : Nat} {cs : List Char} (hn : n ≠ 0) (h : ∀ c ∈ cs, isDigit c = true) :
    Nat.toDigits 10 (cs.foldl (fun n c => n * 10 + digitValue c) n) = Nat.toDigits 10 n ++ cs := by
  induction cs generalizing n with
  | nil => simp
  | cons c cs ih =>
    obtain ⟨hc, hcs⟩ := List.forall_mem_cons.1 h
    have hnext : Nat.toDigits 10 (n * 10 + digitValue c) = Nat.toDigits 10 n ++ [c] := by
      rw [← toDigits_digitValue hc, Nat.toDigits_append_toDigits (by decide)
        (Nat.pos_of_ne_zero hn) (digitValue_lt hc), Nat.mul_comm]
    rw [List.foldl_cons, ih (by omega) hcs, hnext, List.append_assoc, List.singleton_append]

/-- The usual numeral of a number is any numeral of it, less the zeros in front. -/
theorem toDigits_digitsValue {cs : List Char} (h : ∀ c ∈ cs, isDigit c = true)
    (hvalue : digitsValue cs ≠ 0) :
    Nat.toDigits 10 (digitsValue cs) = cs.dropWhile (· == '0') := by
  induction cs with
  | nil => exact absurd rfl hvalue
  | cons c cs ih =>
    obtain ⟨hc, hcs⟩ := List.forall_mem_cons.1 h
    by_cases hzero : c = '0'
    · subst hzero
      exact ih hcs hvalue
    · rw [digitsValue, List.foldl_cons, Nat.zero_mul, Nat.zero_add,
        toDigits_foldl (digitValue_ne_zero hc hzero) hcs, toDigits_digitValue hc,
        List.dropWhile_cons_of_neg (by simpa using hzero), List.singleton_append]

/-- Nothing but zeros makes zero. -/
theorem dropWhile_eq_nil_of_digitsValue {cs : List Char} (h : ∀ c ∈ cs, isDigit c = true)
    (hvalue : digitsValue cs = 0) : cs.dropWhile (· == '0') = [] := by
  induction cs with
  | nil => rfl
  | cons c cs ih =>
    obtain ⟨hc, hcs⟩ := List.forall_mem_cons.1 h
    by_cases hzero : c = '0'
    · subst hzero
      exact ih hcs hvalue
    · have hfirst := digitValue_ne_zero hc hzero
      rw [digitsValue, List.foldl_cons, Nat.zero_mul, Nat.zero_add] at hvalue
      have hle := le_foldl_digits (digitValue c) cs
      omega

namespace Decimal

variable {d d' : Decimal} {c p z k : Nat}

theorem digitCount_pos : 0 < digitCount c := Nat.length_toDigits_pos

theorem digitCount_le_iff (hk : 0 < k) : digitCount c ≤ k ↔ c < 10 ^ k :=
  Nat.length_toDigits_le_iff (by decide) hk

theorem digitCount_digitsValue {cs : List Char} (hne : cs ≠ [])
    (h : ∀ c ∈ cs, isDigit c = true) : digitCount (digitsValue cs) ≤ cs.length :=
  (digitCount_le_iff (List.length_pos_iff.2 hne)).2 (digitsValue_lt h)

/-- Every zero behind a number other than zero is one more digit. -/
theorem digitCount_mul_pow (hc : c ≠ 0) (z : Nat) : digitCount (c * 10 ^ z) = digitCount c + z := by
  induction z with
  | zero => simp
  | succ z ih =>
    have hpos : 0 < c * 10 ^ z := Nat.mul_pos (Nat.pos_of_ne_zero hc) (Nat.pow_pos (by decide))
    have hdigits := Nat.toDigits_append_toDigits (b := 10) (by decide) hpos (by decide : 0 < 10)
    have heq : c * 10 ^ (z + 1) = 10 * (c * 10 ^ z) + 0 := by
      rw [Nat.pow_succ, Nat.add_zero, Nat.mul_comm 10, Nat.mul_assoc]
    rw [heq, digitCount, ← hdigits, List.length_append]
    show digitCount (c * 10 ^ z) + 1 = _
    rw [ih, Nat.add_assoc]

theorem exponentAllowed_iff {e : Int} :
    exponentAllowed e = true ↔ -exponentLimit ≤ e ∧ e ≤ exponentLimit := by
  simp [exponentAllowed]

/-! ### Values -/

/-- Two decimals whose exponents make up for the zeros of their coefficients have the same value. -/
theorem sameValue_of_shift {negative : Bool} {i j : Nat} {e f : Int} (h : i + e = j + f) :
    (⟨negative, c * 10 ^ i, e⟩ : Decimal).sameValue ⟨negative, c * 10 ^ j, f⟩ = true := by
  have hshift : c * 10 ^ i * 10 ^ (e - min e f).toNat = c * 10 ^ j * 10 ^ (f - min e f).toNat := by
    rw [Nat.mul_assoc, Nat.mul_assoc, ← Nat.pow_add, ← Nat.pow_add]
    congr 2
    omega
  have hscaled : scaledTo (min e f) ⟨negative, c * 10 ^ i, e⟩ =
      scaledTo (min e f) ⟨negative, c * 10 ^ j, f⟩ := by
    simp only [scaledTo]
    exact congrArg (fun n : Nat => if negative then -(n : Int) else n) hshift
  exact beq_iff_eq.2 hscaled

/-- A decimal with a whole number for its coefficient and no exponent, or with a fraction. -/
def spread (d : Decimal) : Decimal :=
  match d.exponent with
  | .ofNat zeros => ⟨d.negative, d.coefficient * 10 ^ zeros, 0⟩
  | .negSucc _ => d

theorem sameValue_refl (d : Decimal) : d.sameValue d = true := beq_self_eq_true _

/-! ### Rounding -/

theorem round_of_le (h : p = 0 ∨ digitCount d.coefficient ≤ p) : round p d = .ok d := by
  unfold round
  rw [if_pos (h.imp_right Nat.sub_eq_zero_of_le)]

/-- What is kept of the digits is too small for a digit more than the precision says. -/
theorem kept_lt (p c : Nat) : c / 10 ^ (digitCount c - p) < 10 ^ p := by
  have hc : c < 10 ^ digitCount c := (digitCount_le_iff digitCount_pos).1 (Nat.le_refl _)
  rw [Nat.div_lt_iff_lt_mul (Nat.pow_pos (by decide)), ← Nat.pow_add]
  exact Nat.lt_of_lt_of_le hc (Nat.pow_le_pow_right (by decide) (by omega))

/-- Rounding keeps the sign and leaves no more digits than the precision says. -/
theorem round_eq_ok (h : round p d = .ok d') :
    d'.negative = d.negative ∧ (p = 0 ∨ digitCount d'.coefficient ≤ p) := by
  unfold round at h
  by_cases hshort : p = 0 ∨ digitCount d.coefficient - p = 0
  · rw [if_pos hshort] at h
    cases h
    exact ⟨rfl, hshort.imp_right Nat.le_of_sub_eq_zero⟩
  rw [if_neg hshort] at h
  have hp : p ≠ 0 := fun hzero => hshort (.inl hzero)
  have hkept := kept_lt p d.coefficient
  simp only [Nat.pow_eq] at h
  -- Rounding up may carry into a digit more, and then the last digit is dropped.
  generalize hsurplus : digitCount d.coefficient - p = surplus at h hkept
  generalize hrounded : (if 10 ^ surplus ≤ 2 * (d.coefficient % 10 ^ surplus) then
    d.coefficient / 10 ^ surplus + 1 else d.coefficient / 10 ^ surplus) = rounded at h
  have hle : rounded ≤ 10 ^ p := by
    split_ifs at hrounded
    · exact hrounded ▸ hkept
    · exact hrounded ▸ Nat.le_of_lt hkept
  split_ifs at h with hfull hallowed hallowed
  · cases h
    refine ⟨rfl, .inr ((digitCount_le_iff (Nat.pos_of_ne_zero hp)).2 ?_)⟩
    show rounded / 10 < 10 ^ p
    rw [hfull]
    exact Nat.div_lt_self (Nat.pow_pos (by decide)) (by decide)
  · cases h
    refine ⟨rfl, .inr ((digitCount_le_iff (Nat.pos_of_ne_zero hp)).2 ?_)⟩
    exact Nat.lt_of_le_of_ne hle hfull

/-- Digits that were rounded before and then written in full are rounded to the same value. -/
theorem round_spread (h : p = 0 ∨ digitCount d.coefficient ≤ p)
    (hcount : (digitCount d.spread.coefficient : Int) ≤ exponentLimit) :
    ∃ d', round p d.spread = .ok d' ∧ d'.sameValue d = true := by
  obtain ⟨negative, c, exponent⟩ := d
  cases exponent with
  | negSucc places => exact ⟨_, round_of_le h, sameValue_refl _⟩
  | ofNat z =>
    show ∃ d', round p ⟨negative, c * 10 ^ z, 0⟩ = .ok d' ∧ d'.sameValue ⟨negative, c, z⟩ = true
    have hsame {i : Nat} {e : Int} (hi : i + e = z) :
        (⟨negative, c * 10 ^ i, e⟩ : Decimal).sameValue ⟨negative, c, z⟩ = true := by
      have hzero : (⟨negative, c, z⟩ : Decimal) = ⟨negative, c * 10 ^ 0, z⟩ := by
        rw [Nat.pow_zero, Nat.mul_one]
      rw [hzero]
      exact sameValue_of_shift (by simpa using hi)
    by_cases hshort : p = 0 ∨ digitCount (c * 10 ^ z) ≤ p
    · exact ⟨_, round_of_le hshort, hsame (by simp)⟩
    obtain ⟨hp, hlong⟩ := not_or.1 hshort
    have hc : c ≠ 0 := by
      rintro rfl
      exact hshort (h.imp_right fun h => by simpa using h)
    have hdigits := digitCount_mul_pow hc z
    have hcp : digitCount c ≤ p := h.resolve_left hp
    -- The surplus digits are all zeros, so nothing is lost.
    obtain ⟨t, ht, hsurplus⟩ : ∃ t ≤ z, digitCount (c * 10 ^ z) - p = t := ⟨_, by omega, rfl⟩
    have hsplit : c * 10 ^ z = c * 10 ^ (z - t) * 10 ^ t := by
      rw [Nat.mul_assoc, ← Nat.pow_add, Nat.sub_add_cancel ht]
    have hpos : 0 < 10 ^ t := Nat.pow_pos (by decide)
    have hkept : c * 10 ^ z / 10 ^ t = c * 10 ^ (z - t) := by
      rw [hsplit, Nat.mul_div_cancel _ hpos]
    have hlost : c * 10 ^ z % 10 ^ t = 0 := by
      rw [hsplit, Nat.mul_mod_left]
    have hcount' : digitCount (c * 10 ^ (z - t)) = p := by
      rw [digitCount_mul_pow hc]
      omega
    have hnotfull : c * 10 ^ (z - t) ≠ 10 ^ p :=
      Nat.ne_of_lt ((digitCount_le_iff (Nat.pos_of_ne_zero hp)).1 (Nat.le_of_eq hcount'))
    refine ⟨⟨negative, c * 10 ^ (z - t), t⟩, ?_, hsame (by omega)⟩
    have hdown : ¬ 10 ^ t ≤ 2 * 0 := Nat.not_le.2 hpos
    have hlimit : (digitCount (c * 10 ^ z) : Int) ≤ exponentLimit := hcount
    unfold round
    rw [if_neg fun hor => hor.elim hp fun hzero => hlong (Nat.le_of_sub_eq_zero hzero)]
    simp only [Nat.pow_eq, hsurplus, hkept, hlost, if_neg hdown, if_neg hnotfull, Int.zero_add]
    rw [if_pos]
    rw [exponentAllowed_iff]
    simp only [adjustedExponent, hcount', exponentLimit] at hlimit ⊢
    omega

/-! ### Writing and reading -/

/-- A decimal that is not negative is written with digits only, or with digits around a point. -/
theorem plain_cases (h : d.negative = false) :
    (∃ u, u ≠ [] ∧ (∀ c ∈ u, isDigit c = true) ∧ d.plain = .ofChars u ∧
      d.spread = ⟨false, digitsValue u, 0⟩) ∨
    ∃ u v, u ≠ [] ∧ v ≠ [] ∧ (∀ c ∈ u, isDigit c = true) ∧ (∀ c ∈ v, isDigit c = true) ∧
      d.plain = .ofChars (u ++ '.' :: v) ∧ d.spread = ⟨false, digitsValue (u ++ v), -v.length⟩ := by
  obtain ⟨negative, c, exponent⟩ := d
  obtain rfl : negative = false := h
  cases exponent with
  | ofNat z =>
    -- Zeros take the place of the exponent.
    refine .inl ⟨Nat.toDigits 10 c ++ List.replicate z '0', ?_, ?_, rfl, ?_⟩
    · exact List.append_ne_nil_of_left_ne_nil Nat.toDigits_ne_nil _
    · rw [List.forall_mem_append]
      exact ⟨fun ch hch => isDigit_of_mem_toDigits hch,
        fun ch hch => List.eq_of_mem_replicate hch ▸ rfl⟩
    · rw [digitsValue_append_zeros, digitsValue_toDigits]
      rfl
  | negSucc places =>
    right
    -- Zeros in front make sure that a digit stands in front of the point.
    let digits :=
      List.replicate (places + 1 + 1 - (Nat.toDigits 10 c).length) '0' ++ Nat.toDigits 10 c
    have hdigits : ∀ ch ∈ digits, isDigit ch = true := by
      rw [List.forall_mem_append]
      exact ⟨fun ch hch => List.eq_of_mem_replicate hch ▸ rfl,
        fun ch hch => isDigit_of_mem_toDigits hch⟩
    have hlength : places + 1 < digits.length := by
      rw [List.length_append, List.length_replicate]
      omega
    have hplaces : (digits.drop (digits.length - (places + 1))).length = places + 1 := by
      rw [List.length_drop]
      omega
    refine ⟨digits.take (digits.length - (places + 1)), digits.drop (digits.length - (places + 1)),
      ?_, ?_, fun ch hch => hdigits ch (List.mem_of_mem_take hch),
      fun ch hch => hdigits ch (List.mem_of_mem_drop hch), rfl, ?_⟩
    · rw [← List.length_pos_iff, List.length_take]
      omega
    · rw [← List.length_pos_iff, hplaces]
      exact Nat.succ_pos _
    · rw [List.take_append_drop, hplaces, digitsValue_zeros_append, digitsValue_toDigits]
      rfl

/-! ### Reading -/

/-- An integer in decimal digits, with a minus sign in front when it is negative. -/
theorem ofInt_eq (e : Int) : ∃ es : List Char, Text.ofInt e = .ofChars es ∧
    (∀ ch ∈ es, ch = '-' ∨ isDigit ch = true) ∧
      (-2 ^ 31 ≤ e → e < 2 ^ 31 → readInteger 32 es = .ok e) := by
  cases e with
  | ofNat k =>
    refine ⟨Nat.toDigits 10 k, rfl, fun ch hch => .inr (isDigit_of_mem_toDigits hch), ?_⟩
    intro _ hhigh
    exact readInteger_toDigits (by rw [Int.ofNat_eq_natCast] at hhigh; omega)
  | negSucc k =>
    refine ⟨'-' :: Nat.toDigits 10 (k + 1), ?_, ?_, fun hlow _ => ?_⟩
    · show Text.ofString "-" ++ Text.ofNat (k + 1) = _
      simp [Text.ofString, Text.ofNat, Text.ofChars]
      rfl
    · exact List.forall_mem_cons.2 ⟨.inl rfl, fun ch hch => .inr (isDigit_of_mem_toDigits hch)⟩
    · exact readInteger_minus_toDigits (by decide) (by omega)

/-- Neither digits nor a minus sign have a case. -/
theorem lowerChar_eq {ch : Char} (h : ch = '-' ∨ isDigit ch = true) : lowerChar ch = ch := by
  have hnumber : ch.toNat ≤ 57 := by
    rcases h with rfl | hdigit
    · decide
    · have hbounds : 48 ≤ ch.toNat ∧ ch.toNat ≤ 57 := by
        simpa [isDigit, Char.le_def, UInt32.le_iff_toNat_le] using hdigit
      exact hbounds.2
  have hascii : ch.toNat < 0x80 := by omega
  have hletter : ¬ ('A' ≤ ch ∧ ch ≤ 'Z') := by
    rw [Char.le_def, UInt32.le_iff_toNat_le]
    intro hcapital
    have hlow : 65 ≤ ch.toNat := hcapital.1
    omega
  rw [lowerChar, if_pos hascii, asciiLower, if_neg hletter]

/-- What starts with a digit has no sign and is no undefined number. -/
theorem parse_of_digit {c : Char} (hc : isDigit c = true) (cs : List Char) :
    parse (.ofChars (c :: cs)) = parseUnsigned false ((c :: cs).map lowerChar) := by
  have hdigit := mem_digitChars hc
  simp only [digitChars, List.mem_cons, List.not_mem_nil, or_false] at hdigit
  rw [parse, Text.chars_ofChars]
  rcases hdigit with rfl | rfl | rfl | rfl | rfl | rfl | rfl | rfl | rfl | rfl <;> rfl

/-- Digits with an exponent behind them are read as the digits say. -/
theorem parse_digits {ds : List Char} (hne : ds ≠ []) (hds : ∀ c ∈ ds, isDigit c = true) {e : Int}
    (hlow : -2 ^ 31 ≤ e) (hhigh : e < 2 ^ 31) :
    parse (.join [.ofChars ds, "E", .ofInt e]) = withExponents false (digitsValue ds) [e] := by
  obtain ⟨es, hes, hsigns, hread⟩ := ofInt_eq e
  have htext : Text.join [.ofChars ds, "E", .ofInt e] = .ofChars (ds ++ 'E' :: es) := by
    rw [hes]
    simp [Text.join, Text.ofChars, Text.ofString]
  -- The reader works on lower case, and looks for the mark first, then for a point.
  have hlower : (ds ++ 'E' :: es).map lowerChar = ds ++ 'e' :: es := by
    rw [List.map_append, List.map_cons,
      List.map_congr_left fun ch hch => lowerChar_eq (.inr (hds ch hch)),
      List.map_congr_left fun ch hch => lowerChar_eq (hsigns ch hch), List.map_id', List.map_id']
    rfl
  have hnot {stop : Char} (hstop : isDigit stop = false) : ∀ ch ∈ ds, (ch != stop) = true := by
    intro ch hch
    rw [bne_iff_ne]
    rintro rfl
    rw [hds ch hch] at hstop
    cases hstop
  have hunsigned : parse (.ofChars (ds ++ 'E' :: es)) = parseUnsigned false (ds ++ 'e' :: es) := by
    obtain ⟨c, cs, rfl⟩ := List.exists_cons_of_ne_nil hne
    rw [← hlower]
    exact parse_of_digit (hds c (List.mem_cons_self ..)) _
  have hmark : (ds ++ 'e' :: es).dropWhile (· != 'e') = 'e' :: es := by
    rw [List.dropWhile_append_of_pos (hnot rfl)]
    rfl
  have hdigits : (ds ++ 'e' :: es).takeWhile (· != 'e') = ds := by
    rw [List.takeWhile_append_of_pos (hnot rfl)]
    simp
  have hpoint : ds.dropWhile (· != '.') = [] := by
    rw [← List.append_nil ds, List.dropWhile_append_of_pos (hnot rfl)]
    rfl
  have hall : (ds.isEmpty || ds.any fun c => !isDigit c) = false := by
    simpa [hne] using hds
  rw [htext, hunsigned, parseUnsigned]
  simp only [hmark, hread hlow hhigh, hdigits, pure_bind, hpoint, hall, Bool.false_eq_true,
    if_false]

/-- Whether the exponent and that of the leading digit lie within the limits. -/
def inRange (coefficient : Nat) (exponent : Int) : Bool :=
  exponentAllowed exponent && exponentAllowed (exponent + digitCount coefficient - 1)

theorem withExponents_singleton (negative : Bool) (coefficient : Nat) (e : Int) :
    withExponents negative coefficient [e] =
      if inRange coefficient e then .ok ⟨negative, coefficient, e⟩
      else .error .exponentOutOfRange := by
  simp only [withExponents, adjustedExponent, inRange, List.foldl_cons, List.foldl_nil,
    Int.zero_add, List.all_cons, List.all_nil, Bool.and_true]
  rfl

/-- Digits with places behind the point are within the limits, if there are not too many of either.
-/
theorem inRange_digitsValue {ds : List Char} (hne : ds ≠ []) (hds : ∀ c ∈ ds, isDigit c = true)
    {k : Nat} (hk : (k : Int) ≤ exponentLimit) (hlength : (ds.length : Int) ≤ exponentLimit) :
    inRange (digitsValue ds) (-k) = true := by
  have hcount := digitCount_digitsValue hne hds
  have hpos : 0 < digitCount (digitsValue ds) := digitCount_pos
  rw [inRange, Bool.and_eq_true, exponentAllowed_iff, exponentAllowed_iff]
  simp only [exponentLimit] at hk hlength ⊢
  omega

end Decimal

end SheetFormula
