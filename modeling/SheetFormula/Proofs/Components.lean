import SheetFormula.Proofs.StandingNames

/-!
# The components of dates and times

Dates and times are made of numbers and words, with marks between them.  A word that is not written
with marks is read in front of a mark whatever comes behind it, and so is a number in front of
anything but a digit.
-/

namespace SheetFormula

open Cursor (Clear)

/-- The next rune, if there is one, is a mark. -/
def Marked (rest : List Rune) : Prop := ∀ r ∈ rest.head?, r.value ∈ markChars

theorem marked_cons {r : Rune} {rest : List Rune} : Marked (r :: rest) ↔ r.value ∈ markChars := by
  simp [Marked]

/-- Runes that are digits. -/
def IsDigitText (w : List Rune) : Prop := ∀ r ∈ w, isDigit r.value = true

namespace WordList

variable {α : Type} {words : WordList α} {u : Word α} {w rest rest' : List Rune}

/-- Whether a word stands somewhere does not depend on what is behind a mark. -/
theorem Unmarked.standsAt_append (hwords : words.Unmarked) (hu : u ∈ words) (hrest : Marked rest) :
    standsAt u (w ++ rest) = standsAt u w := by
  by_cases hle : u.length ≤ w.length
  · exact standsAt_append_of_le hle
  · have hlong : standsAt u (w ++ rest) = false :=
      Bool.eq_false_iff.2 fun hstands => hle (hwords.length_le hu hrest hstands)
    have hshort : standsAt u w = false :=
      Bool.eq_false_iff.2 fun hstands => hle (standsAt_iff.1 hstands).1
    rw [hlong, hshort]

theorem longestAt_congr (h : ∀ u ∈ words, standsAt u rest = standsAt u rest') :
    words.longestAt rest = words.longestAt rest' := by
  unfold longestAt
  generalize (none : Option (Word α)) = best
  induction words generalizing best with
  | nil => rfl
  | cons u words ih =>
    obtain ⟨hu, hwords⟩ := List.forall_mem_cons.1 h
    rw [List.foldl_cons, List.foldl_cons, hu]
    exact ih hwords _

/-- The longest word in front of a mark is found among the runes up to the mark. -/
theorem Unmarked.longestAt_append (hwords : words.Unmarked) (hrest : Marked rest) :
    words.longestAt (w ++ rest) = words.longestAt w :=
  longestAt_congr fun _ hu => hwords.standsAt_append hu hrest

end WordList

theorem isLetter_eq_false_of_mem_markChars {ch : Char} (h : ch ∈ markChars) :
    isLetter ch = false := by
  have hmarks : ∀ ch ∈ markChars, isLetter ch = false := by decide
  exact hmarks ch h

/-- The runes `w` are a word of the list. -/
def WordList.Spells {α : Type} (words : WordList α) (w : List Rune) : Prop :=
  ∃ u ∈ words, u.length = w.length ∧ foldRunes w = u.folded

namespace Rule

variable {c next : Cursor} {nodes : List Node} {w rest : List Rune} {words : WordList Int}
  {component : Component}

/-- The rule reads `w` as the component `n`, in front of any runes with the property `F`. -/
structure Part (r : Rule) (F : List Rune → Prop) (n : Node) (w : List Rune) : Prop where
  finds : r.Finds F [n] w
  leaf : ∃ component value, n = .leaf (.component component value) (.ofRunes w)

/-- What of the word list is read in front of a mark depends on the runes up to the mark only. -/
theorem matchWhole_append_iff (hwords : words.Unmarked) (hrest : Marked rest) {p : Nat}
    {u : Word Int} :
    words.matchWhole ⟨p, w ++ rest⟩ = some (u, next) ↔
      words.longestAt w = some u ∧ Clear isLetter (w.drop u.length) ∧
        next = ⟨p + u.length, w.drop u.length ++ rest⟩ := by
  rw [WordList.matchWhole_eq_some_iff, WordList.matchAt]
  simp only [hwords.longestAt_append hrest, Option.map_eq_some_iff, Prod.mk.injEq]
  constructor
  -- The word ends within `w`, so that the rune behind it is one of `w` or a mark.
  · rintro ⟨⟨u, hu, rfl, rfl⟩, hletter⟩
    obtain ⟨-, hstands, -⟩ := WordList.longestAt_spec hu
    have hle := (WordList.standsAt_iff.1 hstands).1
    have hnext : Cursor.advance ⟨p, w ++ rest⟩ u.length =
        ⟨p + u.length, w.drop u.length ++ rest⟩ := by
      rw [Cursor.advance, List.drop_append_of_le_length hle]
    rw [hnext] at hletter ⊢
    refine ⟨hu, ?_, rfl⟩
    have hclear := Cursor.clear_of_current hletter
    rcases hdrop : w.drop u.length with _ | ⟨r, tail⟩
    · exact Cursor.clear_nil
    · rw [hdrop] at hclear
      exact Cursor.clear_cons.2 (Cursor.clear_cons.1 hclear)
  · rintro ⟨hu, hclear, rfl⟩
    obtain ⟨-, hstands, -⟩ := WordList.longestAt_spec hu
    have hle := (WordList.standsAt_iff.1 hstands).1
    refine ⟨⟨u, hu, rfl, ?_⟩, ?_⟩
    · rw [Cursor.advance, List.drop_append_of_le_length hle]
    · refine Cursor.current_eq_false (by decide) (clear_append hclear fun _ r hr => ?_)
      exact isLetter_eq_false_of_mem_markChars (hrest r hr)

/-- A word in front of a mark is found again in front of any mark. -/
theorem nameComponent_finds (hwords : words.Unmarked) (hrest : Marked next.rest)
    (h : nameComponent component words c = (.found nodes, next)) :
    ∃ n w, nodes = [n] ∧ c.Passes w next ∧ words.Spells w ∧
      Part (nameComponent component words) Marked n w := by
  obtain ⟨u, hmatch, rfl⟩ := nameComponent_found_iff.1 h
  obtain ⟨hmatchAt, -⟩ := WordList.matchWhole_eq_some_iff.1 hmatch
  have hpasses := passes_matchAt hmatchAt
  obtain ⟨hlongest, -⟩ := WordList.matchAt_eq_some hmatchAt
  obtain ⟨hmem, hstands, -⟩ := WordList.longestAt_spec hlongest
  obtain ⟨hle, -, hfold⟩ := WordList.standsAt_iff.1 hstands
  have hlength : u.length = (c.rest.take u.length).length := by
    rw [List.length_take_of_le hle]
  -- Only what the word consists of matters, not that it was cut off a longer text.
  generalize c.rest.take u.length = w at hpasses hlength hfold
  refine ⟨_, w, rfl, hpasses, ⟨u, hmem, hlength, hfold⟩, fun p rest hrest' => ?_,
    by rw [hpasses.textTo]; exact ⟨component, u.meaning, rfl⟩⟩
  obtain ⟨pos, text⟩ := c
  obtain rfl : text = w ++ next.rest := hpasses.rest
  obtain ⟨hu, hclear, -⟩ := (matchWhole_append_iff hwords hrest).1 hmatch
  refine nameComponent_found_iff.2 ⟨u, (matchWhole_append_iff hwords hrest').2 ⟨hu, hclear, ?_⟩, ?_⟩
  · rw [hlength]
    simp
  · rw [hpasses.textTo, Cursor.textTo_append]

/-- No word starts with a mark. -/
theorem nameComponent_absent_of_marked (hwords : words.Unmarked) (hrest : Marked rest) {p : Nat} :
    nameComponent component words ⟨p, rest⟩ = (.absent, ⟨p, rest⟩) := by
  rw [nameComponent, WordList.matchWhole, hwords.matchAt_eq_none hrest]
  rfl

/-! ### Digits -/

theorem skipDigits_append {most p : Nat} (hw : IsDigitText w) (hle : w.length ≤ most)
    (hrest : Clear isDigit rest) : skipDigits most ⟨p, w ++ rest⟩ = ⟨p + w.length, rest⟩ := by
  rw [skipDigits, List.take_append, List.take_of_length_le hle,
    Cursor.takeWhile_append_clear hw (hrest.take _)]
  simp [Cursor.advance]

/-- The digits of a number, as many as it may have, in front of something else. -/
structure IsNumberText (fewest most : Nat) (w : List Rune) : Prop where
  digits : IsDigitText w
  fewest : fewest ≤ w.length
  most : w.length ≤ most

theorem IsNumberText.isScalar {fewest most : Nat} (h : IsNumberText fewest most w) :
    ∀ r ∈ w, r.isScalar = true :=
  fun r hr => Rune.isScalar_of_class (h.digits r hr) (by decide)

theorem passes_skipDigits_eq (c : Cursor) {most : Nat} (hnext : next = skipDigits most c)
    (hdigit : isDigit next.current = false) :
    ∃ w, c.Passes w next ∧ IsDigitText w ∧ w.length ≤ most ∧ Clear isDigit next.rest := by
  subst hnext
  refine ⟨_, passes_skipDigits most c, fun r hr => (List.mem_takeWhile_imp hr :), ?_,
    Cursor.clear_of_current hdigit⟩
  exact Nat.le_trans (List.takeWhile_prefix _).length_le (List.length_take_le ..)

/-- A rule that finds digits, at least `fewest` of them, up to the first other character or to
`most` of them, as a component whose value `V` tells from their text. -/
def FindsDigits (r : Rule) (component : Component) (fewest most : Nat) (V : Text → Int → Prop) :
    Prop :=
  ∀ ⦃c next : Cursor⦄ ⦃nodes : List Node⦄, r c = (.found nodes, next) ↔
    next = skipDigits most c ∧ fewest ≤ next.pos - c.pos ∧ isDigit next.current = false ∧
      ∃ value, V (c.textTo next) value ∧
        nodes = [.leaf (.component component value) (c.textTo next)]

theorem findsDigits_digitsComponent (component : Component) (fewest most low high : Nat) :
    FindsDigits (digitsComponent component fewest most low high) component fewest most
      fun text value => readInteger 64 text.chars = .ok value ∧ low ≤ value ∧ value ≤ high := by
  intro c next nodes
  simp only [digitsComponent_found_iff, and_assoc]

theorem findsDigits_secondFraction :
    FindsDigits secondFraction .fraction 1 fractionDigits fun text value =>
      readInteger 64 (text.chars ++ List.replicate (fractionDigits - text.size) '0') =
        .ok value := by
  intro c next nodes
  rw [secondFraction_found_iff]
  refine and_congr_right fun hnext => and_congr_left' ?_
  have hpos := (passes_skipDigits fractionDigits c).pos
  rw [← hnext] at hpos
  omega

section FindsDigits

variable {r : Rule} {fewest most : Nat} {V : Text → Int → Prop} {value : Int}

theorem FindsDigits.found (hr : FindsDigits r component fewest most V)
    (h : r c = (.found nodes, next)) :
    ∃ w value, c.Passes w next ∧ IsNumberText fewest most w ∧ Clear isDigit next.rest ∧
      V (.ofRunes w) value ∧ nodes = [.leaf (.component component value) (.ofRunes w)] := by
  obtain ⟨hnext, hfew, hdigit, value, hvalue, rfl⟩ := hr.1 h
  obtain ⟨w, hw, hdigits, hmost, hclear⟩ := passes_skipDigits_eq c hnext hdigit
  rw [hw.textTo] at hvalue ⊢
  rw [hw.pos, Nat.add_sub_cancel_left] at hfew
  exact ⟨w, value, hw, ⟨hdigits, hfew, hmost⟩, hclear, hvalue, rfl⟩

/-- Digits are found in front of anything but a digit. -/
theorem FindsDigits.finds (hr : FindsDigits r component fewest most V)
    (hw : IsNumberText fewest most w) (hvalue : V (.ofRunes w) value) :
    r.Finds (Clear isDigit) [.leaf (.component component value) (.ofRunes w)] w := by
  intro p rest hrest
  refine hr.2 ⟨(skipDigits_append hw.digits hw.most hrest).symm, ?_,
    Cursor.current_eq_false (by decide) hrest, value, ?_, ?_⟩
  · rw [Nat.add_sub_cancel_left]
    exact hw.fewest
  · rwa [Cursor.textTo_append]
  · rw [Cursor.textTo_append]

/-- What was found is found again. -/
theorem FindsDigits.part (hr : FindsDigits r component fewest most V)
    (h : r c = (.found nodes, next)) :
    ∃ n w, nodes = [n] ∧ c.Passes w next ∧ IsNumberText fewest most w ∧ Clear isDigit next.rest ∧
      Part r (Clear isDigit) n w := by
  obtain ⟨w, value, hw, hnumber, hclear, hvalue, rfl⟩ := hr.found h
  exact ⟨_, w, rfl, hw, hnumber, hclear, hr.finds hnumber hvalue, component, value, rfl⟩

end FindsDigits

/-- Digits are found again in front of anything but a digit. -/
theorem digitsComponent_finds {fewest most low high : Nat}
    (h : digitsComponent component fewest most low high c = (.found nodes, next)) :
    ∃ n w, nodes = [n] ∧ c.Passes w next ∧ IsNumberText fewest most w ∧ Clear isDigit next.rest ∧
      Part (digitsComponent component fewest most low high) (Clear isDigit) n w :=
  (findsDigits_digitsComponent ..).part h

/-- The digits of the fraction of a second are found again in front of anything but a digit. -/
theorem secondFraction_finds (h : secondFraction c = (.found nodes, next)) :
    ∃ n w, nodes = [n] ∧ c.Passes w next ∧ IsNumberText 1 fractionDigits w ∧
      Clear isDigit next.rest ∧ Part secondFraction (Clear isDigit) n w :=
  findsDigits_secondFraction.part h

/-- Digits are read up to their end or not at all. -/
theorem digitsComponent_cases {fewest most low high p : Nat} (hw : IsDigitText w)
    (hle : w.length ≤ most) (hrest : Clear isDigit rest) :
    digitsComponent component fewest most low high ⟨p, w ++ rest⟩ =
        (.absent, ⟨p, w ++ rest⟩) ∨
      ∃ nodes, digitsComponent component fewest most low high ⟨p, w ++ rest⟩ =
        (.found nodes, ⟨p + w.length, rest⟩) := by
  simp only [digitsComponent, skipDigits_append hw hle hrest]
  split_ifs
  · exact .inl rfl
  · split
    · split_ifs
      · exact .inl rfl
      · exact .inr ⟨_, rfl⟩
    · exact .inl rfl

/-- A number that is not followed as it should be is absent, with all that it belongs to. -/
theorem sequence_digitsComponent_absent {fewest most low high p : Nat} {r : Rule}
    {rules : List Rule} (hw : IsDigitText w) (hle : w.length ≤ most) (hrest : Clear isDigit rest)
    (hr : r ⟨p + w.length, rest⟩ = (.absent, ⟨p + w.length, rest⟩)) :
    sequence (digitsComponent component fewest most low high :: r :: rules) ⟨p, w ++ rest⟩ =
      (.absent, ⟨p, w ++ rest⟩) := by
  rcases digitsComponent_cases hw hle hrest with h | ⟨nodes, h⟩
  · exact sequence_absent h
  · simp [sequence, sequenceFrom, h, hr]

end Rule

end SheetFormula
