import SheetFormula.Proofs.FailingTokens
import SheetFormula.Proofs.StandingNames

/-!
# Texts that are spelled as numbers

A number is read from left to right: a sign, digits with a point in or around them, an exponent and
percent signs, each as far as it goes.  What is read in this way is the longest beginning of the
text that is spelled as a number, `Rule.scanNumber_eq_some_iff`.  Whether it has a value is asked
only afterwards, and a number without one is an error whatever stands behind it,
`Rule.number_american`.
-/

namespace SheetFormula

open Cursor (Clear)

namespace Rule

variable {c next : Cursor} {nodes places power children : List Node} {u v w y rest : List Rune}
  {r : Rune} {p k : Nat}

/-- What starts with characters of a class, cut behind them. -/
theorem exists_cut (q : Char → Bool) (y : List Rune) :
    ∃ d rest, y = d ++ rest ∧ (∀ r ∈ d, q r.value = true) ∧ Clear q rest :=
  ⟨_, _, List.takeWhile_append_dropWhile.symm, fun _ hr => (List.mem_takeWhile_imp hr :),
    Cursor.clear_dropWhile⟩

/-! ### The parts of a number, as far as they go -/

theorem IsMantissa.concat_digit (h : IsMantissa u places) (hr : isDigit r.value = true) :
    ∃ more, IsMantissa (u ++ [r]) more := by
  have hall {v : List Rune} (hv : ∀ s ∈ v, isDigit s.value = true) :
      ∀ s ∈ v ++ [r], isDigit s.value = true :=
    List.forall_mem_append.2 ⟨hv, List.forall_mem_singleton.2 hr⟩
  cases h with
  | whole hne hdigits => exact ⟨_, .whole (by simp) (hall hdigits)⟩
  | fraction hne hu hv =>
    rw [List.append_assoc, List.cons_append]
    exact ⟨_, .fraction (.inr (by simp)) hu (hall hv)⟩

/-- The digits of a number are read to their end, or on when more of them follow. -/
theorem mantissa_reaches (hu : IsMantissa u places) :
    mantissa '.' ⟨p, u ++ y⟩ = some (places, ⟨p + u.length, y⟩) ∨
      ∃ more next, mantissa '.' ⟨p, u ++ y⟩ = some (more, next) ∧ p + u.length < next.pos ∧
        ∃ r ∈ y.head?, isDecimal r.value = true := by
  induction y generalizing u places with
  | nil => exact .inl (mantissa_append hu Cursor.clear_nil)
  | cons r y ih =>
    -- The first rune behind them continues the digits, starts their fraction, or ends them.
    have hgoes {more : List Node} (hmore : IsMantissa (u ++ [r]) more)
        (hr : isDecimal r.value = true) :
        ∃ more next, mantissa '.' ⟨p, u ++ r :: y⟩ = some (more, next) ∧ p + u.length < next.pos ∧
          ∃ r' ∈ (r :: y).head?, isDecimal r'.value = true := by
      have hlength : p + u.length < p + (u ++ [r]).length := by simp
      rw [List.append_cons]
      rcases ih hmore with hread | ⟨more', next, hread, hpos, -⟩
      · exact ⟨_, _, hread, hlength, r, rfl, hr⟩
      · exact ⟨_, _, hread, Nat.lt_trans hlength hpos, r, rfl, hr⟩
    by_cases hdecimal : isDecimal r.value = true
    · by_cases hdigit : isDigit r.value = true
      · obtain ⟨more, hmore⟩ := hu.concat_digit hdigit
        exact .inr (hgoes hmore hdecimal)
      · have hpoint : r.value = '.' := by simpa [isDecimal, hdigit] using hdecimal
        obtain rfl := Rune.eq_scalar_of_value hpoint (by decide)
        cases hu with
        | whole hne hdigits =>
          exact .inr (hgoes (.fraction (.inl hne) hdigits (List.forall_mem_nil _)) hdecimal)
        | fraction hne hu hv =>
          exact .inl (mantissa_fraction_append hne hu hv (Cursor.clear_cons.2 (by decide)))
    · exact .inl (mantissa_append hu (Cursor.clear_cons.2 (Bool.eq_false_iff.2 hdecimal)))

/-- An exponent is read to its end, or on when something other than a percent sign follows. -/
theorem exponent_reaches (hv : IsExponent v power) :
    exponent Grammar.american.lexicon.exponent ⟨p, v ++ y⟩ = (power, ⟨p + v.length, y⟩) ∨
      p + v.length < (exponent Grammar.american.lexicon.exponent ⟨p, v ++ y⟩).2.pos ∧
        ∃ r ∈ y.head?, r.value ≠ '%' := by
  cases hv with
  | none =>
    obtain ⟨w, hw, hexponent⟩ := exponent_eq ⟨p, y⟩
    rcases hread : exponent Grammar.american.lexicon.exponent ⟨p, y⟩ with ⟨more, next⟩
    rw [hread] at hw hexponent
    rw [List.nil_append, hread]
    cases hexponent with
    | none => exact .inl (congrArg (Prod.mk []) (hw.eq_of_pos hw.pos).2)
    | @power m u v signs hm =>
      have hy : y = m :: (u ++ v ++ next.rest) := by simpa using hw.rest
      refine .inr ⟨?_, m, by simp [hy], fun heq => ?_⟩
      · have hpos : next.pos = p + (m :: u ++ v).length := hw.pos
        simp [hpos]
      · exact value_exponent_mark hm (by rw [heq]; decide)
  | @power m u v signs hm hu hne hv =>
    obtain ⟨d, rest, rfl, hdigits, hclear⟩ := exists_cut isDigit y
    have hread := exponent_power_append (p := p) hm hu (List.append_ne_nil_of_left_ne_nil hne d)
      (List.forall_mem_append.2 ⟨hv, hdigits⟩) hclear
    rw [← List.append_assoc, List.append_assoc] at hread
    rw [hread]
    -- Digits that follow are read along with the exponent, and they are no percent signs.
    cases d with
    | nil => exact .inl (by simp)
    | cons r d =>
      refine .inr ⟨by simp, r, rfl, fun heq => ?_⟩
      have hr : isDigit r.value = true := hdigits r (List.mem_cons_self ..)
      rw [heq] at hr
      cases hr

/-- Percent signs are read to their end, or on when more of them follow. -/
theorem percents_reaches :
    percents '%' ⟨p, List.replicate k (.scalar '%') ++ y⟩ =
        (List.replicate k (signLeaf .percent '%'), ⟨p + k, y⟩) ∨
      p + k < (percents '%' ⟨p, List.replicate k (.scalar '%') ++ y⟩).2.pos := by
  obtain ⟨d, rest, rfl, hsigns, hclear⟩ := exists_cut (· == '%') y
  obtain ⟨j, rfl⟩ : ∃ j, d = List.replicate j (.scalar '%') :=
    ⟨d.length, List.eq_replicate_of_mem fun r hr =>
      Rune.eq_scalar_of_value (beq_iff_eq.1 (hsigns r hr)) (by decide)⟩
  have hread := percents_append (p := p) (k := k + j) hclear
  rw [List.replicate_add, List.append_assoc] at hread
  rw [hread]
  cases j with
  | zero => exact .inl rfl
  | succ j => exact .inr (by simp)

/-! ### Whole numbers -/

/-- Runes spelled as a number with an optional sign, and the leaves they are read as. -/
inductive IsNumber : List Rune → List Node → Prop
  | mk {s u v : List Rune} {signs places power : List Node} (k : Nat) :
      IsSign s signs → IsMantissa u places → IsExponent v power →
        IsNumber (s ++ (u ++ (v ++ List.replicate k (.scalar '%'))))
          (signs ++ places ++ power ++ List.replicate k (signLeaf .percent '%'))

/-- The leaves of the number at a cursor and the cursor behind it, whatever value it has. -/
def scanNumber (c : Cursor) : Option (List Node × Cursor) :=
  let signs := sign '-' '+' c
  (mantissa '.' signs.2).map fun places =>
    let power := exponent Grammar.american.lexicon.exponent places.2
    let hundredths := percents '%' power.2
    (signs.1 ++ places.1 ++ power.1 ++ hundredths.1, hundredths.2)

theorem scanNumber_eq {signs : List Node} {afterSign afterPlaces : Cursor}
    (hsign : sign '-' '+' c = (signs, afterSign))
    (hplaces : mantissa '.' afterSign = some (places, afterPlaces)) :
    scanNumber c =
      some (signs ++ places ++ (exponent Grammar.american.lexicon.exponent afterPlaces).1 ++
        (percents '%' (exponent Grammar.american.lexicon.exponent afterPlaces).2).1,
        (percents '%' (exponent Grammar.american.lexicon.exponent afterPlaces).2).2) := by
  rw [scanNumber, hsign, hplaces]
  rfl

/-- What is scanned is spelled as a number. -/
theorem isNumber_of_scanNumber (h : scanNumber c = some (children, next)) :
    ∃ w, c.Passes w next ∧ IsNumber w children := by
  obtain ⟨s, hs, hsign⟩ := sign_eq c
  cases hplaces : mantissa '.' (sign '-' '+' c).2 with
  | none =>
    rw [scanNumber, hplaces] at h
    cases h
  | some found =>
    obtain ⟨places, afterPlaces⟩ := found
    rw [scanNumber_eq (Prod.eta _).symm hplaces] at h
    cases h
    obtain ⟨u, hu, hmantissa⟩ := mantissa_eq hplaces
    obtain ⟨v, hv, hexponent⟩ := exponent_eq afterPlaces
    obtain ⟨k, hk, hpercents⟩ :=
      percents_eq (exponent Grammar.american.lexicon.exponent afterPlaces).2
    rw [hpercents]
    exact ⟨_, hs.trans (hu.trans (hv.trans hk)), .mk k hsign hmantissa hexponent⟩

theorem IsMantissa.clear_sign (hu : IsMantissa u places) (rest : List Rune) :
    Clear (fun ch => ch == '-' || ch == '+') (u ++ rest) := by
  obtain ⟨r, v, rfl, hr⟩ := hu.starts
  rw [List.cons_append, Cursor.clear_cons, Bool.or_eq_false_iff, beq_eq_false_iff_ne,
    beq_eq_false_iff_ne]
  constructor <;> rintro heq <;> rw [heq] at hr <;> cases hr

theorem pos_le_exponent (c : Cursor) :
    c.pos ≤ (exponent Grammar.american.lexicon.exponent c).2.pos := by
  obtain ⟨v, hv, -⟩ := exponent_eq c
  rw [hv.pos]
  exact Nat.le_add_right ..

theorem pos_le_percents (c : Cursor) : c.pos ≤ (percents '%' c).2.pos := by
  obtain ⟨k, hk, -⟩ := percents_eq c
  rw [hk.pos]
  exact Nat.le_add_right ..

/-- A number starts with a sign, a digit or a point, and with no apostrophe. -/
theorem IsNumber.exists_first (h : IsNumber w children) :
    ∃ r v, w = r :: v ∧ r.value ≠ '\'' := by
  obtain @⟨s, u, v, signs, places, power, k, hs, hu, -⟩ := h
  cases hs with
  | none =>
    obtain ⟨r, more, rfl, hr⟩ := hu.starts
    refine ⟨r, _, rfl, fun heq => ?_⟩
    rw [heq] at hr
    cases hr
  | minus => exact ⟨.scalar '-', _, rfl, by decide⟩
  | plus => exact ⟨.scalar '+', _, rfl, by decide⟩

/-- What is spelled as a number is scanned to its end, or on. -/
theorem scanNumber_reaches (h : IsNumber w children) :
    scanNumber ⟨p, w ++ y⟩ = some (children, ⟨p + w.length, y⟩) ∨
      ∃ more next, scanNumber ⟨p, w ++ y⟩ = some (more, next) ∧ p + w.length < next.pos := by
  obtain @⟨s, u, v, signs, places, power, k, hs, hu, hv⟩ := h
  have hsign := sign_append (p := p) hs
    (hu.clear_sign (v ++ (List.replicate k (Rune.scalar '%') ++ y)))
  simp only [List.append_assoc, List.length_append, List.length_replicate]
  rcases mantissa_reaches (p := p + s.length)
    (y := v ++ (List.replicate k (Rune.scalar '%') ++ y)) hu
    with hplaces | ⟨more, afterPlaces, hplaces, hbeyond, r, hr, hdecimal⟩
  · rw [scanNumber_eq hsign hplaces]
    rcases exponent_reaches (p := p + s.length + u.length)
      (y := List.replicate k (Rune.scalar '%') ++ y) hv with hpower | ⟨hbeyond, r, hr, hne⟩
    · rw [hpower]
      rcases percents_reaches (p := p + s.length + u.length + v.length) (k := k) (y := y)
        with hpercents | hbeyond
      · left
        rw [hpercents]
        simp only [Nat.add_assoc, List.append_assoc]
      · refine .inr ⟨_, _, rfl, ?_⟩
        rwa [← Nat.add_assoc, ← Nat.add_assoc, ← Nat.add_assoc]
    · -- No percent sign stands behind the exponent that went on.
      obtain rfl : k = 0 := by
        cases k with
        | zero => rfl
        | succ k =>
          obtain rfl : Rune.scalar '%' = r := by simpa [List.replicate_succ] using hr
          exact absurd rfl hne
      have hle := pos_le_percents (exponent Grammar.american.lexicon.exponent
        ⟨p + s.length + u.length, v ++ (List.replicate 0 (Rune.scalar '%') ++ y)⟩).2
      exact .inr ⟨_, _, rfl, by omega⟩
  · -- Neither an exponent nor a percent sign stands behind the digits that went on.
    rw [scanNumber_eq hsign hplaces]
    obtain ⟨rfl, rfl⟩ : v = [] ∧ k = 0 := by
      cases hv with
      | none =>
        cases k with
        | zero => exact ⟨rfl, rfl⟩
        | succ k =>
          obtain rfl : Rune.scalar '%' = r := by simpa [List.replicate_succ] using hr
          cases hdecimal
      | @power m _ _ _ hm =>
        obtain rfl : m = r := by simpa using hr
        rw [isDecimal_eq_false (value_exponent_mark hm)] at hdecimal
        cases hdecimal
    have hexponent := pos_le_exponent afterPlaces
    have hpercents := pos_le_percents (exponent Grammar.american.lexicon.exponent afterPlaces).2
    exact .inr ⟨_, _, rfl, by simp only [List.length_nil]; omega⟩

/-- A text is spelled as one number only. -/
theorem IsNumber.unique {more : List Node} (h : IsNumber w children) (h' : IsNumber w more) :
    children = more := by
  have hexact {nodes : List Node} (h : IsNumber w nodes) :
      scanNumber ⟨0, w⟩ = some (nodes, ⟨0 + w.length, []⟩) := by
    have hreaches := scanNumber_reaches (p := 0) (y := []) h
    rw [List.append_nil] at hreaches
    refine hreaches.resolve_right ?_
    rintro ⟨_, next, hscan, hbeyond⟩
    -- There is nothing left to go on with.
    obtain ⟨v, hv, -⟩ := isNumber_of_scanNumber hscan
    have hlength := congrArg List.length hv.rest
    have hpos := hv.pos
    rw [List.length_append] at hlength
    simp only at hlength hpos
    omega
  have heq := (hexact h).symm.trans (hexact h')
  cases heq
  rfl

/-- The longest beginning of some runes that is spelled as a number, and its leaves. -/
structure IsLongestNumber (runes w : List Rune) (children : List Node) : Prop where
  isNumber : IsNumber w children
  start : w <+: runes
  longest : ∀ v nodes, IsNumber v nodes → v <+: runes → v.length ≤ w.length

theorem IsNumber.isLongestNumber (h : IsNumber w children) : IsLongestNumber w w children :=
  ⟨h, List.prefix_rfl, fun _ _ _ hv => hv.length_le⟩

/-- What is scanned is the longest beginning that is spelled as a number. -/
theorem scanNumber_eq_some_iff :
    scanNumber c = some (children, next) ↔
      ∃ w, c.Passes w next ∧ IsLongestNumber c.rest w children := by
  obtain ⟨pos, runes⟩ := c
  constructor
  · intro h
    obtain ⟨w, hw, hnumber⟩ := isNumber_of_scanNumber h
    refine ⟨w, hw, hnumber, ⟨next.rest, hw.rest.symm⟩, ?_⟩
    -- A longer number would be reached by the scan, which goes on from any number.
    rintro v nodes hv ⟨y, rfl⟩
    have hpos := hw.pos
    simp only at hpos
    rcases scanNumber_reaches (p := pos) (y := y) hv with hscan | ⟨_, _, hscan, hbeyond⟩
    · cases hscan.symm.trans h
      simp only at hpos
      omega
    · cases hscan.symm.trans h
      omega
  · rintro ⟨w, hw, hlongest⟩
    have hruns : runes = w ++ next.rest := hw.rest
    subst hruns
    rcases scanNumber_reaches (p := pos) (y := next.rest) hlongest.isNumber with
      hscan | ⟨_, last, hscan, hbeyond⟩
    · rw [hscan]
      have hpos : next.pos = pos + w.length := hw.pos
      rw [← hpos]
    · obtain ⟨v, hv, hnumber⟩ := isNumber_of_scanNumber hscan
      have hle := hlongest.longest v _ hnumber ⟨last.rest, hv.rest.symm⟩
      have hpos := hv.pos
      simp only at hpos
      omega

/-- The longest number is scanned, and the cursor stands behind it. -/
theorem IsLongestNumber.scanned (h : IsLongestNumber c.rest w children) :
    ∃ next, c.Passes w next ∧ scanNumber c = some (children, next) := by
  obtain ⟨rest, hrest⟩ := h.start
  have hw : c.Passes w ⟨c.pos + w.length, rest⟩ := ⟨hrest.symm, rfl⟩
  exact ⟨_, hw, scanNumber_eq_some_iff.2 ⟨w, hw, h⟩⟩

/-- A signed number is what is scanned, an error when that has no value. -/
theorem number_american (c : Cursor) :
    number .american true c =
      match scanNumber c with
      | none => (.absent, c)
      | some (children, next) =>
        match numberValue children with
        | .ok value => (.found [.parent (.number value) children], next)
        | .error fault => (.failed (.parse ⟨c.pos, .number (c.textTo next) fault⟩), next) := by
  have hminus : Grammar.american.locale.negativeSign = '-' := rfl
  have hplus : Grammar.american.locale.positiveSign = '+' := rfl
  have hpoint : Grammar.american.locale.decimalSeparator = '.' := rfl
  have hpercent : Grammar.american.locale.percentSymbol = '%' := rfl
  have hnul : ('%' == nul) = false := by decide
  simp only [number, if_true, hminus, hplus, hpoint, hpercent, hnul, Bool.and_false,
    Bool.false_eq_true, if_false]
  -- The percent sign is not NUL, which leaves the search for digits and then their value.
  cases hplaces : mantissa '.' (sign '-' '+' c).2 with
  | none =>
    rw [scanNumber, hplaces]
    rfl
  | some found =>
    obtain ⟨places, afterPlaces⟩ := found
    rw [scanNumber_eq (Prod.eta _).symm hplaces]
    cases hvalue : numberValue ((sign '-' '+' c).1 ++ places ++
        (exponent Grammar.american.lexicon.exponent afterPlaces).1 ++
        (percents '%' (exponent Grammar.american.lexicon.exponent afterPlaces).2).1) with
    | ok value =>
      have hne : places ≠ [] := places_ne_nil hplaces
      have hnumber := Node.number_eq_ok_iff.2 ⟨by simp [hne], value, hvalue, rfl⟩
      simp only [hvalue, hnumber]
      rfl
    | error fault => simp only [hvalue]

end Rule

end SheetFormula
