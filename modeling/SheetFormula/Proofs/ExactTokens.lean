import Mathlib.Data.List.TakeWhile
import SheetFormula.Proofs.Reading
import SheetFormula.Proofs.Tokens

/-!
# Tokens spell the text they were read from

The hand-written scanners are exact: those for references, names, literals and quoted text, for
numbers, and for the components of dates and times.  The signs of a number are written from the
locale and not copied from the text, so a sign must stand for itself, `Locale.HasPlainSigns`.

Most of these rules also need text; a rule that does may follow a separator that is NUL.
-/

namespace SheetFormula

namespace Rule

variable {c next mid : Cursor} {nodes : List Node}

/-! ### Symbols and whitespace -/

theorem spells_leaf {w : List Rune} (content : Content) (h : c.Passes w next) :
    c.Spells [.leaf content (c.textTo next)] next :=
  ⟨[w], by simpa using h, by simp [h.textTo]⟩

theorem exists_append_of_shows {word : List Char} (hnul : nul ∉ word) {rest : List Rune}
    (h : Cursor.shows word rest = true) :
    ∃ w v, rest = w ++ v ∧ w.map Rune.value = word := by
  induction word generalizing rest with
  | nil => exact ⟨[], rest, rfl, rfl⟩
  | cons ch word ih =>
    obtain ⟨hch, hword⟩ : nul ≠ ch ∧ nul ∉ word := by simpa using hnul
    cases rest with
    | nil => simp [Cursor.shows, hch.symm] at h
    | cons r rest =>
      obtain ⟨hr, hmore⟩ : r.value = ch ∧ Cursor.shows word rest = true := by
        simpa [Cursor.shows] using h
      obtain ⟨w, v, rfl, hw⟩ := ih hword hmore
      exact ⟨r :: w, v, rfl, by simp [hr, hw]⟩

theorem exact_symbol (s : Symbol) {word : List Char} (hnul : nul ∉ word) :
    Exact (symbol s word) where
  restores h := (symbol_absent_iff.1 h).2
  found := by
    intro c next nodes h
    obtain ⟨hshows, rfl, rfl⟩ := symbol_found_iff.1 h
    obtain ⟨w, v, hrest, hw⟩ := exists_append_of_shows hnul hshows
    have hlen : word.length = w.length := by rw [← hw, List.length_map]
    rw [hlen]
    exact spells_leaf _ (Cursor.passes_advance hrest)

theorem loose_symbol (s : Symbol) (word : List Char) : Loose (symbol s word) where
  restores h := (symbol_absent_iff.1 h).2
  found := by
    intro c next nodes h
    obtain ⟨-, rfl, rfl⟩ := symbol_found_iff.1 h
    by_cases hlen : word.length ≤ c.rest.length
    · left
      have hpasses : c.Passes (c.rest.take word.length) (c.advance word.length) :=
        ⟨(List.take_append_drop ..).symm, by simp [Cursor.advance, hlen]⟩
      exact spells_leaf _ hpasses
    · right
      exact List.drop_eq_nil_of_le (by omega)

theorem needsText_symbol (s : Symbol) {ch : Char} {word : List Char} (hnul : nul ∉ ch :: word) :
    NeedsText (symbol s (ch :: word)) := by
  intro c next nodes h hend
  obtain ⟨w, v, hrest, hw⟩ := exists_append_of_shows hnul (symbol_found_iff.1 h).1
  rw [hend] at hrest
  rw [(List.append_eq_nil_iff.1 hrest.symm).1] at hw
  cases hw

theorem exact_whitespace : Exact whitespace where
  restores h := (whitespace_absent_iff.1 h).2
  found := by
    intro c next nodes h
    obtain ⟨rfl, -, rfl⟩ := whitespace_found_iff.1 h
    exact spells_leaf _ (c.passes_skip isBlank)

theorem exact_optionalWhitespace : Exact optionalWhitespace :=
  compositional_spells.optional exact_whitespace

/-! ### References and names -/

theorem passes_skipAbsolute (c : Cursor) : ∃ w, c.Passes w (skipAbsolute c) := by
  unfold skipAbsolute
  split_ifs with h
  · obtain ⟨r, v, hrest, -⟩ := Cursor.exists_rest_of_current (beq_iff_eq.1 h) (by decide)
    exact ⟨[r], Cursor.passes_next hrest⟩
  · exact ⟨[], .refl c⟩

theorem spells_readLine {α : Type} {isPart : Char → Bool} {parse : Text → Except ReferenceError α}
    {content : α → Content} (h : readLine isPart parse content c = (.found nodes, next)) :
    c.Spells nodes next := by
  obtain ⟨rfl, -, line, -, rfl⟩ := readLine_found_iff.1 h
  obtain ⟨v, hv⟩ := passes_skipAbsolute c
  exact spells_leaf _ (hv.trans ((skipAbsolute c).passes_skip isPart))

theorem spells_readColumn (h : readColumn c = (.found nodes, next)) : c.Spells nodes next :=
  spells_readLine (readColumn_eq_readLine ▸ h)

theorem spells_readRow (h : readRow c = (.found nodes, next)) : c.Spells nodes next :=
  spells_readLine (readRow_eq_readLine ▸ h)

theorem exact_label : Exact label where
  restores := label_absent
  found := by
    intro c next nodes h
    obtain ⟨-, rfl, -, -, -, -, rfl⟩ := label_found_iff.1 h
    exact spells_leaf _ (c.passes_skip _)

theorem exact_templateValueName : Exact templateValueName where
  restores := templateValueName_absent
  found := by
    intro c next nodes h
    obtain ⟨-, rfl, rfl⟩ := templateValueName_found_iff.1 h
    exact spells_leaf _ (c.passes_skip _)

theorem exact_functionName : Exact functionName where
  restores := functionName_absent
  found := by
    intro c next nodes h
    obtain ⟨-, rfl, -, rfl⟩ := functionName_found_iff.1 h
    exact spells_leaf _ (c.passes_skip _)

/-! ### Literals -/

theorem passes_matchAt {α : Type} {words : WordList α} {w : Word α}
    (h : words.matchAt c = some (w, next)) : c.Passes (c.rest.take w.length) next := by
  obtain ⟨hlongest, rfl⟩ := WordList.matchAt_eq_some h
  obtain ⟨-, hstands, -⟩ := WordList.longestAt_spec hlongest
  obtain ⟨hlen, -, -⟩ := WordList.standsAt_iff.1 hstands
  exact ⟨(List.take_append_drop ..).symm, by simp [Cursor.advance, hlen]⟩

theorem exact_errorLiteral : Exact errorLiteral where
  restores := errorLiteral_absent
  found := by
    intro c next nodes h
    obtain ⟨-, w, hw, rfl⟩ := errorLiteral_found_iff.1 h
    exact spells_leaf _ (passes_matchAt hw)

theorem exact_boolean : Exact boolean where
  restores := boolean_absent
  found := by
    intro c next nodes h
    obtain ⟨-, -, w, hw, rfl⟩ := boolean_found_iff.1 h
    exact spells_leaf _ (passes_matchAt (WordList.matchWhole_eq_some_iff.1 hw).1)

/-- Quoted text is read up to a quote that no other quote follows. -/
theorem readQuoted_ok {value : List Rune} {count : Nat} {rest v : List Rune} {k : Nat}
    (h : readQuoted value count rest = .ok (v, k)) :
    ∃ w close tail, rest = w ++ close :: tail ∧ close.value = '"' ∧ k = count + w.length ∧
      ∀ tail', (∀ r ∈ tail'.head?, r.value ≠ '"') →
        readQuoted value count (w ++ close :: tail') = .ok (v, k) := by
  -- The closing quote ends the text whatever stands behind it.
  have hclose {value : List Rune} {count : Nat} {r : Rune} (hr : r.value = '"')
      {tail' : List Rune} (htail' : ∀ r ∈ tail'.head?, r.value ≠ '"') :
      readQuoted value count (r :: tail') = .ok (value.reverse, count) := by
    cases tail' with
    | nil => simp [readQuoted, hr]
    | cons s tail' => simp [readQuoted, hr, htail' s rfl]
  fun_induction readQuoted value count rest with
  | case1 => cases h
  | case2 value count r hr s rest hs ih =>
    obtain ⟨w, close, tail, rfl, hend, rfl, hread⟩ := ih h
    refine ⟨r :: s :: w, close, tail, rfl, hend, by simp; omega, fun tail' htail' => ?_⟩
    rw [List.cons_append, List.cons_append, readQuoted, if_pos hr]
    simp only [hs, if_true]
    exact hread tail' htail'
  | case3 value count r hr s rest hs =>
    cases h
    exact ⟨[], r, s :: rest, rfl, hr, rfl, fun tail' htail' => hclose hr htail'⟩
  | case4 value count r hr =>
    cases h
    exact ⟨[], r, [], rfl, hr, rfl, fun tail' htail' => hclose hr htail'⟩
  | case5 value count r rest hr ih =>
    obtain ⟨w, close, tail, rfl, hend, rfl, hread⟩ := ih h
    refine ⟨r :: w, close, tail, rfl, hend, by simp; omega, fun tail' htail' => ?_⟩
    rw [List.cons_append, readQuoted.eq_def]
    simp only [hr, if_false]
    exact hread tail' htail'

theorem text_quote {r : Rune} (h : r.value = '"') : quoteLeaf.text = .ofRunes [r] := by
  rw [Rune.eq_scalar_of_value h (by decide)]
  decide

theorem exact_quotedText : Exact quotedText where
  restores := quotedText_absent
  found := by
    intro c next nodes h
    obtain ⟨hquote, value, count, n, hread, rfl, rfl, hn⟩ := quotedText_found_iff.1 h
    obtain ⟨r, v, hrest, hr⟩ := Cursor.exists_rest_of_current hquote (by decide)
    have hopen := Cursor.passes_next hrest
    obtain ⟨w, close, tail, hinside, hclose, hcount, -⟩ := readQuoted_ok hread
    rw [Nat.zero_add] at hcount
    subst hcount
    have hbody : c.next.Passes w (c.next.advance w.length) := Cursor.passes_advance hinside
    have hend := Cursor.passes_next (c := c.next.advance w.length) (r := close) (v := tail)
      (by simp [Cursor.advance, hinside])
    refine Cursor.Spells.parent (b := .text) ?_ hn
    refine ⟨[[r], w, [close]], by simpa using hopen.trans (hbody.trans hend), ?_⟩
    simp [quoteLeaf, hbody.textTo, ← text_quote hr, ← text_quote hclose]

theorem exact_remainingLiteral : Exact remainingLiteral where
  restores := nofun
  found := by
    intro c next nodes h
    obtain ⟨rfl, rfl⟩ := remainingLiteral_found_iff.1 h
    exact ⟨[c.rest], by simpa using Cursor.passes_advance (List.append_nil _).symm, by simp⟩

/-! ### Numbers -/

/-- A character that stands for itself: no stray byte and no end of a text is taken for it. -/
def IsPlain (ch : Char) : Prop := ch ≠ nul ∧ ch ≠ Rune.replacement

theorem leaves_signLeaf (s : Symbol) (ch : Char) :
    (signLeaf s ch).leaves = [(.symbol s, .ofRunes [.scalar ch])] := by
  simp [signLeaf, Text.ofChars, Text.ofRunes, Rune.bytes]

theorem spells_signLeaf (s : Symbol) {ch : Char} (h : c.Passes [.scalar ch] next) :
    c.Spells [signLeaf s ch] next :=
  ⟨[[.scalar ch]], h, by simp [leaves_signLeaf]⟩

theorem spells_sign {minus plus : Char} (hminus : IsPlain minus) (hplus : IsPlain plus)
    (h : sign minus plus c = (nodes, next)) : c.Spells nodes next := by
  unfold sign at h
  split_ifs at h with hm hp
  · cases h
    obtain ⟨r, v, hrest, hr⟩ := Cursor.exists_rest_of_current (beq_iff_eq.1 hm) hminus.1
    have hpasses := Cursor.passes_next hrest
    rw [Rune.eq_scalar_of_value hr hminus.2] at hpasses
    exact spells_signLeaf .minus hpasses
  · cases h
    obtain ⟨r, v, hrest, hr⟩ := Cursor.exists_rest_of_current (beq_iff_eq.1 hp) hplus.1
    have hpasses := Cursor.passes_next hrest
    rw [Rune.eq_scalar_of_value hr hplus.2] at hpasses
    exact spells_signLeaf .plus hpasses
  · cases h
    exact compositional_spells.nil c

theorem spells_digits (h : digits c = (nodes, next)) : c.Spells nodes next := by
  simp only [digits] at h
  split_ifs at h
  · cases h
    exact compositional_spells.nil c
  · cases h
    exact spells_leaf _ (c.passes_skip isDigit)

theorem spells_fraction {separator : Char} {point places : List Node}
    (h : fraction separator c = some (point, places, next)) : c.Spells (point ++ places) next := by
  simp only [fraction] at h
  split_ifs at h with hsep
  cases h
  have hpoint : c.Spells [.leaf (.symbol .decimalSeparator) (.ofRunes (c.rest.take 1))] c.next := by
    cases hrest : c.rest with
    | nil =>
      -- The separator is NUL: it is found, but there is nothing to spell.
      have hnext : c.next = c := by simp [Cursor.next, Cursor.atEnd, hrest]
      rw [hnext]
      exact ⟨[[]], .refl c, by simp⟩
    | cons r v => exact ⟨[[r]], Cursor.passes_next hrest, by simp⟩
  exact compositional_spells.append hpoint (spells_digits rfl)

theorem spells_mantissa {separator : Char} (h : mantissa separator c = some (nodes, next)) :
    c.Spells nodes next := by
  simp only [mantissa] at h
  have hwhole : c.Spells (digits c).1 (digits c).2 := spells_digits rfl
  split at h
  · rename_i point places last hfraction
    split_ifs at h
    cases h
    rw [List.append_assoc]
    exact compositional_spells.append hwhole (spells_fraction hfraction)
  · split_ifs at h
    cases h
    exact hwhole

theorem spells_exponent {marks : WordList Unit} (h : exponent marks c = (nodes, next)) :
    c.Spells nodes next := by
  simp only [exponent] at h
  split at h
  · cases h
    exact compositional_spells.nil c
  · rename_i w afterMark hmark
    have hsign : afterMark.Spells (sign '-' '+' afterMark).1 (sign '-' '+' afterMark).2 :=
      spells_sign ⟨by decide, by decide⟩ ⟨by decide, by decide⟩ rfl
    split at h
    · cases h
      exact compositional_spells.nil c
    · rename_i places last hplaces
      cases h
      exact compositional_spells.append (compositional_spells.append
        (spells_leaf _ (passes_matchAt hmark)) hsign) (spells_digits hplaces)

theorem spells_percents {percent : Char} (hpercent : IsPlain percent)
    (h : percents percent c = (nodes, next)) : c.Spells nodes next := by
  simp only [percents] at h
  cases h
  have hpasses := c.passes_skip (· == percent)
  have hrun : c.run (· == percent) =
      List.replicate (c.run (· == percent)).length (.scalar percent) := by
    refine List.eq_replicate_of_mem fun r hr => ?_
    have hvalue := List.mem_takeWhile_imp hr
    exact Rune.eq_scalar_of_value (beq_iff_eq.1 hvalue) hpercent.2
  have hlen : (c.skip (· == percent)).pos - c.pos = (c.run (· == percent)).length := by
    rw [hpasses.pos]
    omega
  rw [hlen]
  have hruns : ((c.run (· == percent)).map fun r => [r]).flatten = c.run (· == percent) := by
    rw [← List.flatMap_def, List.flatMap_singleton']
  refine ⟨(c.run (· == percent)).map fun r => [r], by rw [hruns]; exact hpasses, ?_⟩
  rw [hrun, List.length_replicate]
  -- As many leaves as runes, by induction on their number.
  generalize (c.run (· == percent)).length = k
  induction k with
  | zero => rfl
  | succ k ih =>
    rw [List.replicate_succ, List.replicate_succ, Node.leavesOfAll_cons, leaves_signLeaf,
      List.map_append, ih]
    rfl

end Rule

/-- The signs that the numbers of a locale are written with stand for themselves. -/
structure Locale.HasPlainSigns (l : Locale) : Prop where
  negative : Rule.IsPlain l.negativeSign
  positive : Rule.IsPlain l.positiveSign
  percent : Rule.IsPlain l.percentSymbol

theorem Locale.hasPlainSigns_default : HasPlainSigns {} :=
  ⟨⟨by decide, by decide⟩, ⟨by decide, by decide⟩, ⟨by decide, by decide⟩⟩

namespace Rule

variable {g : Grammar} {c next : Cursor} {nodes : List Node}

theorem exact_number (hl : g.locale.HasPlainSigns) (signed : Bool) : Exact (number g signed) where
  restores := number_absent
  found := by
    intro c next nodes h
    obtain ⟨signs, afterSign, places, afterPlaces, power, afterPower, hundredths, n, hsigns,
      hplaces, hpower, hhundredths, -, hn, rfl⟩ := number_found_iff.1 h
    have hsigns : c.Spells signs afterSign := by
      split_ifs at hsigns
      · exact spells_sign hl.negative hl.positive hsigns
      · cases hsigns
        exact compositional_spells.nil c
    have hall := compositional_spells.append (compositional_spells.append
      (compositional_spells.append hsigns (spells_mantissa hplaces)) (spells_exponent hpower))
      (spells_percents hl.percent hhundredths)
    exact hall.parent (b := .number) hn

/-! ### Components of dates and times -/

theorem passes_skipDigits (most : Nat) (c : Cursor) :
    c.Passes ((c.rest.take most).takeWhile fun r => isDigit r.value) (skipDigits most c) := by
  obtain ⟨v, hv⟩ := (List.takeWhile_prefix (fun r : Rune => isDigit r.value)).trans
    (List.take_prefix most c.rest)
  exact Cursor.passes_advance hv.symm

theorem exact_digitsComponent (component : Component) (fewest most low high : Nat) :
    Exact (digitsComponent component fewest most low high) where
  restores := digitsComponent_absent
  found := by
    intro c next nodes h
    obtain ⟨rfl, -, -, value, -, -, -, rfl⟩ := digitsComponent_found_iff.1 h
    exact spells_leaf _ (passes_skipDigits most c)

theorem exact_secondFraction : Exact secondFraction where
  restores := secondFraction_absent
  found := by
    intro c next nodes h
    obtain ⟨rfl, -, -, value, -, rfl⟩ := secondFraction_found_iff.1 h
    exact spells_leaf _ (passes_skipDigits _ c)

theorem exact_nameComponent (component : Component) (words : WordList Int) :
    Exact (nameComponent component words) where
  restores := nameComponent_absent
  found := by
    intro c next nodes h
    obtain ⟨w, hw, rfl⟩ := nameComponent_found_iff.1 h
    exact spells_leaf _ (passes_matchAt (WordList.matchWhole_eq_some_iff.1 hw).1)

/-! ### Tokens need text -/

/-- A rule that moves the cursor over runes it passes needs text. -/
theorem rest_ne_nil_of_passes {w : List Rune} (h : c.Passes w next) (hpos : next.pos ≠ c.pos) :
    c.rest ≠ [] := by
  intro hend
  have hrest := h.rest
  rw [hend] at hrest
  have hw : w = [] := (List.append_eq_nil_iff.1 hrest.symm).1
  have hpos' := h.pos
  rw [hw] at hpos'
  exact hpos hpos'

theorem rest_ne_nil_of_matchAt {α : Type} {words : WordList α} {w : Word α}
    (h : words.matchAt c = some (w, next)) : c.rest ≠ [] := by
  intro hend
  obtain ⟨hlongest, -⟩ := WordList.matchAt_eq_some h
  obtain ⟨-, hstands, -⟩ := WordList.longestAt_spec hlongest
  obtain ⟨hlen, hpos, -⟩ := WordList.standsAt_iff.1 hstands
  rw [hend, List.length_nil] at hlen
  omega

/-- The character past the end of a text satisfies none of the classes of characters. -/
theorem rest_ne_nil_of_class {p : Char → Bool} (h : p c.current = true) (hnul : p nul = false) :
    c.rest ≠ [] := by
  intro hend
  rw [Cursor.current, hend] at h
  exact absurd (h.symm.trans hnul) (by decide)

theorem needsText_cell : NeedsText cell := by
  intro c next nodes h
  obtain ⟨column, mid, row, n, hcolumn, -⟩ := readCell_found_iff.1 (restoring_found_iff.1 h)
  obtain ⟨rfl, hpos, -⟩ := readColumn_found_iff.1 hcolumn
  have hletters := rest_ne_nil_of_passes ((skipAbsolute c).passes_skip isLetter) hpos
  obtain ⟨w, hw⟩ := passes_skipAbsolute c
  rw [hw.rest]
  exact List.append_ne_nil_of_right_ne_nil w hletters

theorem needsText_cellRange : NeedsText cellRange :=
  (NeedTextInTurn.cons needsText_cell).sequence.transform

theorem needsText_label : NeedsText label := fun _ _ _ h =>
  rest_ne_nil_of_class (label_found_iff.1 h).1 (by decide)

theorem needsText_functionName : NeedsText functionName := fun _ _ _ h =>
  rest_ne_nil_of_class (functionName_found_iff.1 h).1 (by decide)

theorem needsText_lambdaName : NeedsText lambdaName := fun _ _ _ h =>
  needsText_functionName (lambdaName_found_iff.1 h).1

theorem needsText_errorLiteral : NeedsText errorLiteral := fun _ _ _ h =>
  Cursor.rest_ne_nil_of_current (errorLiteral_found_iff.1 h).1 (by decide)

theorem needsText_boolean : NeedsText boolean := by
  intro c next nodes h
  obtain ⟨-, -, w, hw, -⟩ := boolean_found_iff.1 h
  exact rest_ne_nil_of_matchAt (WordList.matchWhole_eq_some_iff.1 hw).1

theorem needsText_quotedText : NeedsText quotedText := fun _ _ _ h =>
  Cursor.rest_ne_nil_of_current (quotedText_found_iff.1 h).1 (by decide)

theorem digits_of_end (h : c.rest = []) : digits c = ([], c) := by
  simp [digits, Cursor.skip, Cursor.run, h, Cursor.advance]

theorem mantissa_of_end {separator : Char} (h : c.rest = []) : mantissa separator c = none := by
  have hnext : c.next = c := by simp [Cursor.next, Cursor.atEnd, h]
  by_cases hsep : c.current = separator <;>
    simp [mantissa, digits_of_end h, fraction, hnext, hsep]

theorem needsText_number : NeedsText (number g false) := by
  intro c next nodes h hend
  obtain ⟨signs, afterSign, places, afterPlaces, _, _, _, _, hsigns, hplaces, -⟩ :=
    number_found_iff.1 h
  cases hsigns
  rw [mantissa_of_end hend] at hplaces
  cases hplaces

theorem needsText_digitsComponent (component : Component) {fewest : Nat} (hfewest : 0 < fewest)
    (most low high : Nat) : NeedsText (digitsComponent component fewest most low high) := by
  intro c next nodes h
  obtain ⟨rfl, hcount, -⟩ := digitsComponent_found_iff.1 h
  exact rest_ne_nil_of_passes (passes_skipDigits most c) (by omega)

theorem needsText_secondFraction : NeedsText secondFraction := by
  intro c next nodes h
  obtain ⟨rfl, hpos, -⟩ := secondFraction_found_iff.1 h
  exact rest_ne_nil_of_passes (passes_skipDigits _ c) hpos

theorem needsText_nameComponent (component : Component) (words : WordList Int) :
    NeedsText (nameComponent component words) := by
  intro c next nodes h
  obtain ⟨w, hw, -⟩ := nameComponent_found_iff.1 h
  exact rest_ne_nil_of_matchAt (WordList.matchWhole_eq_some_iff.1 hw).1

end Rule

end SheetFormula
