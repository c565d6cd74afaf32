import SheetFormula.Proofs.Times

/-!
# Rules inside a longer text

A rule is *local* in front of some runes when these runes, and what was read before, make no
difference to it: inside a longer text it does what it does at the end of one.  Components of dates
and times are local in front of what cannot go on with them, and combinators keep that.  Whitespace
is not local in front of blanks; there it matters whether something was left behind it before
(`Rule.whitespace_inside`).
-/

namespace SheetFormula

open Cursor (Clear)

/-- The cursor in a longer text, with `k` runes more in front of it and the runes `tail` behind. -/
def Cursor.inside (k : Nat) (tail : List Rune) (c : Cursor) : Cursor := ⟨k + c.pos, c.rest ++ tail⟩

namespace Cursor

variable {k n : Nat} {tail w : List Rune} {c next : Cursor} {q : Char → Bool}

@[simp] theorem pos_inside : (c.inside k tail).pos = k + c.pos := rfl

@[simp] theorem rest_inside : (c.inside k tail).rest = c.rest ++ tail := rfl

theorem advance_inside (h : n ≤ c.rest.length) :
    (c.inside k tail).advance n = (c.advance n).inside k tail := by
  simp only [inside, advance, List.drop_append_of_le_length h, Nat.add_assoc]

theorem Passes.inside (h : c.Passes w next) : (c.inside k tail).Passes w (next.inside k tail) where
  rest := by rw [rest_inside, rest_inside, h.rest, List.append_assoc]
  pos := by rw [pos_inside, pos_inside, h.pos, Nat.add_assoc]

theorem textTo_inside (h : c.Passes w next) :
    (c.inside k tail).textTo (next.inside k tail) = c.textTo next := by
  rw [h.inside.textTo, h.textTo]

theorem current_inside (h : c.rest ≠ []) : (c.inside k tail).current = c.current := by
  obtain ⟨r, v, hrest⟩ := List.exists_cons_of_ne_nil h
  simp [current, hrest]

/-- A class that neither NUL nor the next rune is in does not tell whether the text goes on. -/
theorem class_current_inside (hnul : q nul = false) (htail : Clear q tail) :
    q (c.inside k tail).current = q c.current := by
  cases hrest : c.rest with
  | nil =>
    have hcurrent : c.current = nul := by simp [current, hrest]
    rw [hcurrent, hnul, inside, hrest]
    exact current_eq_false hnul htail
  | cons r v => rw [current_inside (by simp [hrest])]

theorem takeWhile_append_of_clear (htail : Clear q tail) :
    (w ++ tail).takeWhile (fun r => q r.value) = w.takeWhile fun r => q r.value := by
  have hnil : tail.takeWhile (fun r => q r.value) = [] := by
    cases tail with
    | nil => rfl
    | cons r tail => simp [clear_cons.1 htail]
  rw [List.takeWhile_append, hnil, List.append_nil]
  split_ifs with hall
  · exact (List.takeWhile_prefix _).eq_of_length hall |>.symm
  · rfl

end Cursor

namespace Rule

/-- In front of runes with the property `F` the rule does what it does at the end of a text. -/
def Local (F : List Rune → Prop) (r : Rule) : Prop :=
  ∀ ⦃k : Nat⦄ ⦃tail : List Rune⦄, F tail → ∀ c : Cursor,
    r (c.inside k tail) = ((r c).1, (r c).2.inside k tail)

variable {F G : List Rune → Prop} {r : Rule} {rules : List Rule} {k : Nat} {tail : List Rune}
  {c next : Cursor} {nodes : List Node}

theorem Local.mono (h : Local F r) (hG : ∀ rest, G rest → F rest) : Local G r :=
  fun _ _ htail => h (hG _ htail)

theorem Local.found (h : Local F r) (htail : F tail) (hr : r c = (.found nodes, next)) :
    r (c.inside k tail) = (.found nodes, next.inside k tail) := by
  rw [h htail, hr]

theorem Local.absent (h : Local F r) (htail : F tail) (hr : r c = (.absent, next)) :
    r (c.inside k tail) = (.absent, next.inside k tail) := by
  rw [h htail, hr]

/-! ### Combinators -/

theorem Local.sequenceFrom (h : rules.Forall (Local F)) (start : Cursor) (htail : F tail) :
    Rule.sequenceFrom (start.inside k tail) rules (c.inside k tail) =
      ((Rule.sequenceFrom start rules c).1,
        (Rule.sequenceFrom start rules c).2.inside k tail) := by
  induction rules generalizing c with
  | nil => rfl
  | cons r rules ih =>
    obtain ⟨hr, hrules⟩ := (List.forall_cons ..).1 h
    simp only [Rule.sequenceFrom, hr htail c]
    rcases r c with ⟨_ | nodes | _, mid⟩
    · rfl
    · simp only [ih hrules]
      rcases Rule.sequenceFrom start rules mid with ⟨_ | more | _, next⟩ <;> rfl
    · rfl

theorem Local.sequence (h : rules.Forall (Local F)) : Local F (sequence rules) :=
  fun _ _ htail c => Local.sequenceFrom h c htail

theorem Local.alternatives (h : rules.Forall (Local F)) : Local F (alternatives rules) := by
  intro k tail htail c
  induction rules generalizing c with
  | nil => rfl
  | cons r rules ih =>
    obtain ⟨hr, hrules⟩ := (List.forall_cons ..).1 h
    simp only [Rule.alternatives, hr htail c]
    rcases r c with ⟨_ | nodes | _, mid⟩
    · exact ih hrules mid
    · rfl
    · rfl

theorem Local.optional (h : Local F r) : Local F (optional r) := by
  intro k tail htail c
  simp only [Rule.optional, h htail c]
  rcases r c with ⟨_ | nodes | _, mid⟩ <;> rfl

theorem Local.optionalSequence (h : rules.Forall (Local F)) :
    Local F (Rule.optional (Rule.sequence rules)) := (Local.sequence h).optional

theorem Local.validated (h : Local F r) {acceptable : List Node → Bool}
    {build : List Node → Except Defect Node} : Local F (validated r acceptable build) := by
  intro k tail htail c
  simp only [Rule.validated, h htail c]
  rcases r c with ⟨_ | nodes | _, mid⟩
  · rfl
  · simp only [built]
    split_ifs
    · split <;> rfl
    · rfl
  · rfl

/-! ### Symbols and words -/

theorem local_symbol (s : Symbol) {ch : Char} (hnul : ch ≠ nul) :
    Local (Clear (· == ch)) (symbol s [ch]) := by
  intro k tail htail c
  cases hrest : c.rest with
  | nil =>
    have hend : symbol s [ch] c = (.absent, c) := by simp [symbol, hrest, Cursor.shows, hnul]
    rw [hend]
    refine symbol_absent_iff.2 ⟨?_, rfl⟩
    rw [Cursor.rest_inside, hrest]
    cases tail with
    | nil => simp [Cursor.shows, hnul]
    | cons r tail => simpa [Cursor.shows] using Cursor.clear_cons.1 htail
  | cons r v =>
    have hle : 1 ≤ c.rest.length := by simp [hrest]
    have hshows : Cursor.shows [ch] (c.inside k tail).rest = Cursor.shows [ch] c.rest := by
      simp [Cursor.shows, hrest]
    have hpasses : c.Passes [r] (c.advance 1) := Cursor.passes_advance (w := [r]) hrest
    simp only [symbol, hshows, List.length_singleton, Cursor.advance_inside hle,
      Cursor.textTo_inside hpasses]
    split_ifs <;> rfl

theorem local_nameComponent {words : WordList Int} (hwords : words.Unmarked)
    (component : Component) : Local Marked (nameComponent component words) := by
  intro k tail htail c
  have hmatch : words.matchAt (c.inside k tail) =
      (words.matchAt c).map fun (u, next) => (u, next.inside k tail) := by
    simp only [WordList.matchAt, Cursor.rest_inside, hwords.longestAt_append htail, Option.map_map]
    cases hu : words.longestAt c.rest with
    | none => rfl
    | some u =>
      have hle := (WordList.standsAt_iff.1 (WordList.longestAt_spec hu).2.1).1
      simp [Cursor.advance_inside hle]
  have hletter (next : Cursor) :
      isLetter (next.inside k tail).current = isLetter next.current :=
    Cursor.class_current_inside (by decide) fun r hr =>
      isLetter_eq_false_of_mem_markChars (htail r hr)
  -- A word ends in front of the tail or at its first rune, and that is a mark and no letter.
  simp only [nameComponent, WordList.matchWhole, hmatch]
  cases hu : words.matchAt c with
  | none => rfl
  | some found =>
    obtain ⟨u, next⟩ := found
    simp only [Option.map_some, Option.filter_some, hletter]
    split_ifs
    · simp only [Cursor.textTo_inside (passes_matchAt hu)]
    · rfl

/-! ### Digits -/

theorem skipDigits_inside {most : Nat} (htail : Clear isDigit tail) :
    skipDigits most (c.inside k tail) = (skipDigits most c).inside k tail := by
  rw [skipDigits, Cursor.rest_inside, List.take_append,
    Cursor.takeWhile_append_of_clear (htail.take _)]
  refine Cursor.advance_inside (Nat.le_trans (List.takeWhile_prefix _).length_le ?_)
  exact List.length_take_le' ..

/-- The digits read inside a longer text are the digits read, and so is what stands behind them. -/
theorem digits_inside (htail : Clear isDigit tail) (most : Nat) (c : Cursor) :
    (c.inside k tail).textTo ((skipDigits most c).inside k tail) = c.textTo (skipDigits most c) ∧
      isDigit ((skipDigits most c).inside k tail).current = isDigit (skipDigits most c).current :=
  ⟨Cursor.textTo_inside (passes_skipDigits most c),
    Cursor.class_current_inside (by decide) htail⟩

theorem local_digitsComponent (component : Component) (fewest most low high : Nat) :
    Local (Clear isDigit) (digitsComponent component fewest most low high) := by
  intro k tail htail c
  obtain ⟨htext, hdigit⟩ := digits_inside (k := k) htail most c
  simp only [digitsComponent, skipDigits_inside htail, htext, hdigit, Cursor.pos_inside,
    Nat.add_sub_add_left]
  split_ifs
  · rfl
  · split
    · split_ifs <;> rfl
    · rfl

theorem local_secondFraction : Local (Clear isDigit) secondFraction := by
  intro k tail htail c
  obtain ⟨htext, hdigit⟩ := digits_inside (k := k) htail fractionDigits c
  simp only [secondFraction, skipDigits_inside htail, htext, hdigit, Cursor.pos_inside,
    Nat.add_left_cancel_iff]
  split_ifs
  · rfl
  · split <;> rfl

/-! ### Whitespace -/

/-- Blanks end where they end at the end of a text, if nothing blank follows or something is left of
that text. -/
theorem whitespace_eq_inside (h : Clear isBlank tail ∨ (c.skip isBlank).rest ≠ []) :
    whitespace (c.inside k tail) = ((whitespace c).1, (whitespace c).2.inside k tail) := by
  have hrun : (c.inside k tail).run isBlank = c.run isBlank := by
    rcases h with htail | hne
    · exact Cursor.takeWhile_append_of_clear htail
    · have hclear : Clear isBlank ((c.skip isBlank).rest ++ tail) := by
        obtain ⟨r, v, hrest⟩ := List.exists_cons_of_ne_nil hne
        have hr : Clear isBlank (c.skip isBlank).rest := clear_skip
        rw [hrest] at hr ⊢
        exact Cursor.clear_cons.2 (Cursor.clear_cons.1 hr)
      rw [Cursor.run, Cursor.rest_inside, (c.passes_skip isBlank).rest, List.append_assoc]
      exact Cursor.takeWhile_append_clear (fun r hr => (List.mem_takeWhile_imp hr :)) hclear
  have hpasses := c.passes_skip isBlank
  have hskip : (c.inside k tail).skip isBlank = (c.skip isBlank).inside k tail := by
    rw [Cursor.skip, hrun]
    refine Cursor.advance_inside ?_
    rw [hpasses.rest, List.length_append]
    exact Nat.le_add_right ..
  simp only [whitespace, hskip, Cursor.textTo_inside hpasses, Cursor.pos_inside,
    Nat.add_left_cancel_iff]
  split_ifs <;> rfl

theorem local_whitespace : Local (Clear isBlank) whitespace :=
  fun _ _ htail _ => whitespace_eq_inside (.inl htail)

/-- Blanks with something left behind them are found inside a longer text. -/
theorem whitespace_inside (h : whitespace c = (.found nodes, next)) (hne : next.rest ≠ []) :
    whitespace (c.inside k tail) = (.found nodes, next.inside k tail) := by
  obtain ⟨rfl, -, -⟩ := whitespace_found_iff.1 h
  rw [whitespace_eq_inside (.inr hne), h]

end Rule

end SheetFormula
