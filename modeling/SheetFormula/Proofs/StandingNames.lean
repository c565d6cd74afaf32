import SheetFormula.Proofs.Standing

/-!
# References and names in front of a stop

The tokens that start with a letter, an underscore or a `$` are told apart by what is written behind
their first characters.  As long as no name goes on behind them, what they are does not depend on
what follows: a reference, a boolean or a label is found again in front of any stop, and the rules
that were tried before it are absent again.
-/

namespace SheetFormula

open Cursor (Clear)

namespace Rule

variable {c next mid : Cursor} {nodes : List Node} {w rest : List Rune} {p : Nat} {r : Rune}

/-- Whether a name goes on with a character, or a function is called there. -/
def isNamePart (ch : Char) : Bool := isLabelPart ch || ch == '('

theorem Stops.clear_namePart (h : Stops rest) : Clear isNamePart rest := h.clear (by decide)

/-! ### References -/

/-- An optional `$`. -/
def IsAbsolute (a : List Rune) : Prop := a = [] ∨ a = [.scalar '$']

theorem skipAbsolute_append {a : List Rune} (ha : IsAbsolute a) (hrest : Clear (· == '$') rest) :
    skipAbsolute ⟨p, a ++ rest⟩ = ⟨p + a.length, rest⟩ := by
  rcases ha with rfl | rfl
  · have hnot : (Cursor.current ⟨p, rest⟩ == '$') = false :=
      Cursor.current_eq_false (q := (· == '$')) (by decide) hrest
    simp [skipAbsolute, hnot]
  · simp [skipAbsolute, Rune.value, Cursor.next, Cursor.atEnd, Cursor.advance]

theorem skipAbsolute_eq (c : Cursor) : ∃ a, IsAbsolute a ∧ c.Passes a (skipAbsolute c) := by
  unfold skipAbsolute
  split_ifs with h
  · obtain ⟨r, rest, hrest, hr⟩ := Cursor.exists_rest_of_current (beq_iff_eq.1 h) (by decide)
    obtain rfl := Rune.eq_scalar_of_value hr (by decide)
    exact ⟨[.scalar '$'], .inr rfl, Cursor.passes_next hrest⟩
  · exact ⟨[], .inl rfl, .refl c⟩

/-- What is passed over with `skip`, and what is not. -/
theorem skip_eq (c : Cursor) (q : Char → Bool) :
    ∃ v, c.Passes v (c.skip q) ∧ (∀ r ∈ v, q r.value = true) ∧ Clear q (c.skip q).rest := by
  refine ⟨c.run q, c.passes_skip q, fun r hr => (List.mem_takeWhile_imp hr :), ?_⟩
  have hrest : (c.skip q).rest = c.rest.dropWhile fun r => q r.value := by
    have hpasses := (c.passes_skip q).rest
    have hsplit : c.rest = c.run q ++ c.rest.dropWhile fun r => q r.value :=
      List.takeWhile_append_dropWhile.symm
    exact List.append_cancel_left (hpasses.symm.trans hsplit)
  rw [hrest]
  exact Cursor.clear_dropWhile

/-- Something is skipped where a character of the class stands. -/
theorem skip_eq_cons {q : Char → Bool} (hstart : q c.current = true) (hnul : q nul = false) :
    ∃ r v, c.Passes (r :: v) (c.skip q) ∧ c.current = r.value ∧
      (∀ s ∈ r :: v, q s.value = true) ∧ Clear q (c.skip q).rest := by
  obtain ⟨w, hw, hclass, hclear⟩ := skip_eq c q
  cases w with
  | nil =>
    obtain ⟨pos, rest⟩ := c
    have hrest : rest = (Cursor.skip ⟨pos, rest⟩ q).rest := hw.rest
    rw [← hrest] at hclear
    rw [Cursor.current_eq_false hnul hclear] at hstart
    cases hstart
  | cons r v =>
    refine ⟨r, v, hw, ?_, hclass, hclear⟩
    rw [Cursor.current, hw.rest]
    rfl

/-- The cursors and the text of a column or row, of which only the class of its runes matters. -/
theorem skipAbsolute_skip_append {q : Char → Bool} {a v : List Rune} (ha : IsAbsolute a)
    (hne : v ≠ []) (hv : ∀ r ∈ v, q r.value = true) (hq : q '$' = false) (hrest : Clear q rest) :
    skipAbsolute ⟨p, a ++ (v ++ rest)⟩ = ⟨p + a.length, v ++ rest⟩ ∧
      Cursor.skip ⟨p + a.length, v ++ rest⟩ q = ⟨p + (a ++ v).length, rest⟩ ∧
      p + (a ++ v).length ≠ p + a.length ∧
      Cursor.textTo ⟨p, a ++ (v ++ rest)⟩ ⟨p + (a ++ v).length, rest⟩ = .ofRunes (a ++ v) := by
  have hlen : v.length ≠ 0 := by simpa using hne
  have hclear : Clear (· == '$') (v ++ rest) := by
    obtain ⟨r, v, rfl⟩ := List.exists_cons_of_ne_nil hne
    have hr := hv r (List.mem_cons_self ..)
    rw [List.cons_append, Cursor.clear_cons, beq_eq_false_iff_ne]
    intro heq
    rw [heq, hq] at hr
    cases hr
  refine ⟨skipAbsolute_append ha hclear, ?_, by simpa using hne, ?_⟩
  · rw [Cursor.skip_append hv hrest, List.length_append, Nat.add_assoc]
  · rw [← List.append_assoc]
    exact Cursor.textTo_append

theorem readLine_append {α : Type} {isPart : Char → Bool} {parse : Text → Except ReferenceError α}
    {content : α → Content} {a v : List Rune} (hdollar : isPart '$' = false) (ha : IsAbsolute a)
    (hne : v ≠ []) (hv : ∀ r ∈ v, isPart r.value = true) (hrest : Clear isPart rest) :
    readLine isPart parse content ⟨p, a ++ (v ++ rest)⟩ =
      match parse (.ofRunes (a ++ v)) with
      | .ok line => (.found [.leaf (content line) (.ofRunes (a ++ v))],
          ⟨p + (a ++ v).length, rest⟩)
      | .error e => (.failed (.parse ⟨p, .reference e⟩), ⟨p + (a ++ v).length, rest⟩) := by
  obtain ⟨hskip, hparts, hpos, htext⟩ :=
    skipAbsolute_skip_append (p := p) ha hne hv hdollar hrest
  cases hline : parse (.ofRunes (a ++ v)) <;>
    simp only [readLine, hskip, hparts, htext, leafBetween, if_neg hpos, hline]

theorem readColumn_append {a v : List Rune} (ha : IsAbsolute a) (hne : v ≠ [])
    (hv : ∀ r ∈ v, isLetter r.value = true) (hrest : Clear isLetter rest) :
    readColumn ⟨p, a ++ (v ++ rest)⟩ =
      match Column.parse (.ofRunes (a ++ v)) with
      | .ok column => (.found [.leaf (.column column) (.ofRunes (a ++ v))],
          ⟨p + (a ++ v).length, rest⟩)
      | .error e => (.failed (.parse ⟨p, .reference e⟩), ⟨p + (a ++ v).length, rest⟩) := by
  rw [readColumn_eq_readLine, readLine_append rfl ha hne hv hrest]
  cases Column.parse (.ofRunes (a ++ v)) <;> rfl

theorem readRow_append {a v : List Rune} (ha : IsAbsolute a) (hne : v ≠ [])
    (hv : ∀ r ∈ v, isDigit r.value = true) (hrest : Clear isDigit rest) :
    readRow ⟨p, a ++ (v ++ rest)⟩ =
      match Row.parse (.ofRunes (a ++ v)) with
      | .ok row => (.found [.leaf (.row row) (.ofRunes (a ++ v))], ⟨p + (a ++ v).length, rest⟩)
      | .error e => (.failed (.parse ⟨p, .reference e⟩), ⟨p + (a ++ v).length, rest⟩) := by
  rw [readRow_eq_readLine, readLine_append rfl ha hne hv hrest]
  cases Row.parse (.ofRunes (a ++ v)) <;> rfl

/-- The text of a cell: letters and digits, each behind an optional `$`. -/
structure IsCellText (a letters b digits : List Rune) : Prop where
  columnSign : IsAbsolute a
  rowSign : IsAbsolute b
  letters_ne : letters ≠ []
  letters : ∀ r ∈ letters, isLetter r.value = true
  digits_ne : digits ≠ []
  digits : ∀ r ∈ digits, isDigit r.value = true

theorem cell_found_iff :
    cell c = (.found nodes, next) ↔ readCell c = (.found nodes, next) := restoring_found_iff

theorem readLine_eq {α : Type} {isPart : Char → Bool} {parse : Text → Except ReferenceError α}
    {content : α → Content} (h : readLine isPart parse content c = (.found nodes, next)) :
    ∃ a v line, IsAbsolute a ∧ v ≠ [] ∧ (∀ r ∈ v, isPart r.value = true) ∧
      c.Passes (a ++ v) next ∧ parse (.ofRunes (a ++ v)) = .ok line ∧
      nodes = [.leaf (content line) (.ofRunes (a ++ v))] := by
  obtain ⟨rfl, hpos, line, hline, rfl⟩ := readLine_found_iff.1 h
  obtain ⟨a, ha, hpasses⟩ := skipAbsolute_eq c
  obtain ⟨v, hv, hparts, -⟩ := skip_eq (skipAbsolute c) isPart
  have hall := hpasses.trans hv
  rw [hall.textTo] at hline ⊢
  refine ⟨a, v, line, ha, ?_, hparts, hall, hline, rfl⟩
  rintro rfl
  exact hpos hv.pos

theorem readColumn_eq (h : readColumn c = (.found nodes, next)) :
    ∃ a v column, IsAbsolute a ∧ v ≠ [] ∧ (∀ r ∈ v, isLetter r.value = true) ∧
      c.Passes (a ++ v) next ∧ Column.parse (.ofRunes (a ++ v)) = .ok column ∧
      nodes = [.leaf (.column column) (.ofRunes (a ++ v))] :=
  readLine_eq (readColumn_eq_readLine ▸ h)

theorem readRow_eq (h : readRow c = (.found nodes, next)) :
    ∃ a v row, IsAbsolute a ∧ v ≠ [] ∧ (∀ r ∈ v, isDigit r.value = true) ∧
      c.Passes (a ++ v) next ∧ Row.parse (.ofRunes (a ++ v)) = .ok row ∧
      nodes = [.leaf (.row row) (.ofRunes (a ++ v))] :=
  readLine_eq (readRow_eq_readLine ▸ h)

theorem isLetter_eq_false {ch : Char} (h : isDigit ch = true) : isLetter ch = false := by
  rw [Bool.eq_false_iff]
  simp only [isDigit, isLetter, Bool.and_eq_true, Bool.or_eq_true, decide_eq_true_eq,
    Char.le_def, UInt32.le_iff_toNat_le, ne_eq] at h ⊢
  have h0 : '9'.val.toNat = 57 := rfl
  have h1 : 'a'.val.toNat = 97 := rfl
  have h2 : 'A'.val.toNat = 65 := rfl
  omega

theorem clear_letter_of_row {b d : List Rune} (hb : IsAbsolute b) (hne : d ≠ [])
    (hd : ∀ r ∈ d, isDigit r.value = true) : Clear isLetter (b ++ d ++ rest) := by
  rcases hb with rfl | rfl
  · obtain ⟨r, d, rfl⟩ := List.exists_cons_of_ne_nil hne
    have hr := hd r (List.mem_cons_self ..)
    exact Cursor.clear_cons.2 (isLetter_eq_false hr)
  · exact Cursor.clear_cons.2 (by decide)

/-- A column and a row are found wherever no name goes on behind them. -/
theorem cell_append {a letters b digits : List Rune} {column : Column} {row : Row} {n : Node}
    (h : IsCellText a letters b digits)
    (hcolumn : Column.parse (.ofRunes (a ++ letters)) = .ok column)
    (hrow : Row.parse (.ofRunes (b ++ digits)) = .ok row)
    (hn : Node.cell [.leaf (.column column) (.ofRunes (a ++ letters)),
      .leaf (.row row) (.ofRunes (b ++ digits))] = .ok n) :
    cell.Finds (Clear isNamePart) [n] (a ++ letters ++ (b ++ digits)) := by
  intro p rest hrest
  have hcurrent :
      isNamePart (Cursor.current ⟨p + (a ++ letters ++ (b ++ digits)).length, rest⟩) = false :=
    Cursor.current_eq_false (by decide) hrest
  rw [isNamePart, Bool.or_eq_false_iff, beq_eq_false_iff_ne] at hcurrent
  have hdigit : Clear isDigit rest := hrest.mono fun ch hch => by
    simp [isNamePart, isLabelPart, hch]
  rw [cell_found_iff, readCell_found_iff]
  -- The column ends where the row begins, and the row where no digit goes on.
  refine ⟨[.leaf (.column column) (.ofRunes (a ++ letters))],
    ⟨p + (a ++ letters).length, b ++ digits ++ rest⟩,
    [.leaf (.row row) (.ofRunes (b ++ digits))], n, ?_, ?_, hcurrent.1, hcurrent.2, hn, rfl⟩
  · rw [List.append_assoc, List.append_assoc a letters,
      readColumn_append h.columnSign h.letters_ne h.letters]
    · simp only [hcolumn]
    · exact clear_letter_of_row h.rowSign h.digits_ne h.digits
  · rw [List.append_assoc b digits, readRow_append h.rowSign h.digits_ne h.digits hdigit]
    simp only [hrow, List.length_append, Nat.add_assoc]

/-- A cell is found again wherever no name goes on behind it. -/
theorem cell_finds (h : cell c = (.found nodes, next)) :
    ∃ a letters b digits, IsCellText a letters b digits ∧
      c.Passes (a ++ letters ++ (b ++ digits)) next ∧ Clear isNamePart next.rest ∧
      (∀ n ∈ nodes, n.IsSolid) ∧
      cell.Finds (Clear isNamePart) nodes (a ++ letters ++ (b ++ digits)) := by
  obtain ⟨column, mid, row, n, hcolumn, hrow, hpart, hparen, hn, rfl⟩ :=
    readCell_found_iff.1 (cell_found_iff.1 h)
  obtain ⟨a, v, col, ha, hvne, hv, hapasses, hcol, rfl⟩ := readColumn_eq hcolumn
  obtain ⟨b, d, line, hb, hdne, hd, hbpasses, hline, rfl⟩ := readRow_eq hrow
  have htext : IsCellText a v b d := ⟨ha, hb, hvne, hv, hdne, hd⟩
  refine ⟨a, v, b, d, htext, hapasses.trans hbpasses, ?_, ?_, cell_append htext hcol hline hn⟩
  · refine Cursor.clear_of_current (p := next.pos) ?_
    simp [isNamePart, hpart, hparen]
  · obtain ⟨_, _, _, _, -, rfl⟩ := Node.cell_eq_ok_iff.1 hn
    simp

/-- Whether a reference starts with a character. -/
def isReferenceStart (ch : Char) : Bool := isLetter ch || ch == '$'

/-- Whether a character may stand in a reference. -/
def isReferencePart (ch : Char) : Bool := isReferenceStart ch || isDigit ch || ch == ':'

/-- What references are written like. -/
def IsReferenceText (w : List Rune) : Prop :=
  ∃ r v, w = r :: v ∧ isReferenceStart r.value = true ∧ ∀ s ∈ w, isReferencePart s.value = true

theorem IsCellText.isReferenceText {a letters b digits : List Rune}
    (h : IsCellText a letters b digits) : IsReferenceText (a ++ letters ++ (b ++ digits)) := by
  have hsign {b : List Rune} (hb : IsAbsolute b) : ∀ s ∈ b, isReferencePart s.value = true := by
    rcases hb with rfl | rfl <;> simp [isReferencePart, isReferenceStart, Rune.value]
  have hall : ∀ s ∈ a ++ letters ++ (b ++ digits), isReferencePart s.value = true := by
    simp only [List.forall_mem_append]
    exact ⟨⟨hsign h.columnSign,
      fun s hs => by simp [isReferencePart, isReferenceStart, h.letters s hs]⟩,
      hsign h.rowSign, fun s hs => by simp [isReferencePart, h.digits s hs]⟩
  obtain ⟨r, v, hletters⟩ := List.exists_cons_of_ne_nil h.letters_ne
  rcases h.columnSign with rfl | rfl
  · refine ⟨r, v ++ (b ++ digits), by simp [hletters], ?_, hall⟩
    have hr := h.letters r (by simp [hletters])
    simp [isReferenceStart, hr]
  · exact ⟨.scalar '$', letters ++ (b ++ digits), by simp, rfl, hall⟩

/-- A cell is absent where no letter and no `$` stands. -/
theorem cell_absent (h : isReferenceStart r.value = false) :
    cell ⟨p, r :: rest⟩ = (.absent, ⟨p, r :: rest⟩) := by
  rw [isReferenceStart, Bool.or_eq_false_iff] at h
  have hskip : skipAbsolute ⟨p, r :: rest⟩ = ⟨p, r :: rest⟩ := by simp [skipAbsolute, h.2]
  have hletters : Cursor.skip ⟨p, r :: rest⟩ isLetter = ⟨p, r :: rest⟩ := by
    simp [Cursor.skip, Cursor.run, h.1, Cursor.advance]
  simp [cell, restoring, readCell, readColumn, hskip, hletters]

/-- Two cells with a colon between them are found wherever no name goes on behind them. -/
theorem cellRange_append {v w : List Rune} {first last n : Node}
    (hfirst : cell.Finds (Clear isNamePart) [first] v)
    (hlast : cell.Finds (Clear isNamePart) [last] w)
    (hn : Node.cellRange [first, .leaf (.symbol .between) (.ofRunes [.scalar ':']), last] = .ok n) :
    cellRange.Finds (Clear isNamePart) [n] (v ++ .scalar ':' :: w) := by
  have hcolon := symbol_finds .between [':'] (fun _ => True)
  refine (Finds.cons hfirst (Finds.cons hcolon hlast.single fun _ _ => trivial)
    fun rest _ => ?_).sequence.transform hn
  exact Cursor.clear_cons.2 (by decide)

theorem cellRange_finds (h : cellRange c = (.found nodes, next)) :
    ∃ w, IsReferenceText w ∧ c.Passes w next ∧ Clear isNamePart next.rest ∧
      (∀ n ∈ nodes, n.IsSolid) ∧ cellRange.Finds (Clear isNamePart) nodes w := by
  obtain ⟨children, n, hchildren, hn, rfl⟩ := transform_found_iff.1 h
  obtain ⟨first, afterFirst, colon, afterColon, last, hfirst, hcolon, hlast, rfl⟩ :=
    sequenceFrom_triple_found_iff.1 hchildren
  obtain ⟨a, v, b, d, hcell, hpasses, -, hsolid, hfinds⟩ := cell_finds hfirst
  obtain ⟨a', v', b', d', hcell', hpasses', hclear, hsolid', hfinds'⟩ := cell_finds hlast
  obtain ⟨hcolonPasses, rfl⟩ := symbol_eq (by simp [IsPlain, nul, Rune.replacement]) hcolon
  have hall := hpasses.trans (hcolonPasses.trans hpasses')
  obtain ⟨r, more, hw, hr, hparts⟩ := hcell.isReferenceText
  obtain ⟨-, -, -, -, hparts'⟩ := hcell'.isReferenceText
  -- The range is a name with a colon in it, made of the parts of both cells.
  refine ⟨_, ⟨r, _, by rw [hw]; rfl, hr, ?_⟩, hall, hclear, ?_, ?_⟩
  · intro s hs
    rcases List.mem_append.1 hs with hs | hs
    · exact hparts s hs
    · rcases List.mem_append.1 hs with hs | hs
      · rw [List.mem_singleton.1 hs]
        decide
      · exact hparts' s hs
  · obtain ⟨_, _, _, _, -, -, rfl⟩ := Node.cellRange_eq_ok_iff.1 hn
    intro m hm
    rw [List.mem_singleton.1 hm, Node.isSolid_parent]
    simpa [or_imp, forall_and] using ⟨hsolid, hsolid'⟩
  · obtain ⟨_, _, _, first, -, -, -, -, -, rfl⟩ := readCell_found_iff.1 (cell_found_iff.1 hfirst)
    obtain ⟨_, _, _, last, -, -, -, -, -, rfl⟩ := readCell_found_iff.1 (cell_found_iff.1 hlast)
    exact cellRange_append hfinds hfinds' hn

/-! ### Booleans -/

/-- A boolean is found again wherever no name goes on behind it. -/
theorem boolean_finds (hsettled : Text.Settled c.rest) (h : boolean c = (.found nodes, next)) :
    ∃ r v, c.Passes (r :: v) next ∧ (∀ s ∈ r :: v, s.isScalar = true ∧ s.value ∉ markChars) ∧
      Clear isNamePart next.rest ∧ boolean.Finds (Clear isNamePart) nodes (r :: v) := by
  obtain ⟨hpart, hparen, word, hmatch, rfl⟩ := boolean_found_iff.1 h
  obtain ⟨hmatch, -⟩ := WordList.matchWhole_eq_some_iff.1 hmatch
  obtain ⟨w, hw, hne, hfold, hmem, hagain⟩ := matchAt_append prefixFree_booleanWords hmatch
  obtain ⟨r, v, rfl⟩ := List.exists_cons_of_ne_nil hne
  have hascii : ∀ u ∈ booleanWords, ∀ b ∈ u.folded.bytes, b < 0x80 := by decide +kernel
  refine ⟨r, v, hw, fun s hs => ⟨isScalar_of_foldRunes hsettled hw hfold (hascii word hmem) s hs,
    unmarked_booleanWords.value_not_mem hmem hfold s hs⟩, ?_, ?_⟩
  · refine Cursor.clear_of_current (p := next.pos) ?_
    simp [isNamePart, hpart, hparen]
  intro p rest hrest
  have hcurrent : isNamePart (Cursor.current ⟨p + (r :: v).length, rest⟩) = false :=
    Cursor.current_eq_false (by decide) hrest
  have hletter : isLetter (Cursor.current ⟨p + (r :: v).length, rest⟩) = false :=
    Cursor.current_eq_false (by decide) (hrest.mono fun ch hch => by
      simp [isNamePart, isLabelPart, hch])
  rw [isNamePart, Bool.or_eq_false_iff, beq_eq_false_iff_ne] at hcurrent
  rw [boolean_found_iff, hw.textTo, Cursor.textTo_append]
  exact ⟨hcurrent.1, hcurrent.2, word,
    WordList.matchWhole_eq_some_iff.2 ⟨hagain p rest, hletter⟩, rfl⟩

/-- Where a boolean was absent, it is absent in front of any stop, as long as no name went on behind
what was written. -/
theorem boolean_misses {pos : Nat} {behind : List Rune}
    (h : boolean ⟨pos, w ++ behind⟩ = (.absent, ⟨pos, w ++ behind⟩))
    (hbehind : Clear isNamePart behind) : boolean.Misses Stops w := by
  intro p rest hrest
  cases hmatch : booleanWords.matchWhole ⟨p, w ++ rest⟩ with
  | none => simp [boolean, hmatch]
  | some found =>
    obtain ⟨word, next⟩ := found
    obtain ⟨hmatchAt, hletter⟩ := WordList.matchWhole_eq_some_iff.1 hmatch
    obtain ⟨hlongest, rfl⟩ := WordList.matchAt_eq_some hmatchAt
    obtain ⟨hmem, hstands, -⟩ := WordList.longestAt_spec hlongest
    have hle : word.length ≤ w.length :=
      unmarked_booleanWords.length_le hmem hrest.mem_markChars hstands
    have hstands' : WordList.standsAt word (w ++ behind) = true := by
      rw [WordList.standsAt_append_of_le hle] at hstands ⊢
      exact hstands
    have hlongest' := prefixFree_booleanWords.longestAt_eq_some hmem hstands'
    -- What stands behind the word decides in both places, and it is the same unless it is behind
    -- `w`.
    by_cases hpart :
        isNamePart (Cursor.current ⟨p + word.length, w.drop word.length ++ rest⟩) = true
    · have hname : (isLabelPart (Cursor.current ⟨p + word.length, w.drop word.length ++ rest⟩) ||
          Cursor.current ⟨p + word.length, w.drop word.length ++ rest⟩ == '(') = true := hpart
      simp [boolean, hmatch, Cursor.advance, List.drop_append_of_le_length hle, hname]
    · have hpart' : isNamePart (Cursor.current ⟨pos + word.length, w.drop word.length ++ behind⟩) =
          false := by
        cases hdrop : w.drop word.length with
        | nil => exact Cursor.current_eq_false (by decide) hbehind
        | cons r more =>
          rw [hdrop] at hpart
          exact Bool.eq_false_iff.2 hpart
      have hcursor : Cursor.advance ⟨pos, w ++ behind⟩ word.length =
          ⟨pos + word.length, w.drop word.length ++ behind⟩ := by
        simp [Cursor.advance, List.drop_append_of_le_length hle]
      have hletter' : isLetter (Cursor.current
          ⟨pos + word.length, w.drop word.length ++ behind⟩) = false := by
        rw [Bool.eq_false_iff]
        intro hletter'
        simp [isNamePart, isLabelPart, hletter'] at hpart'
      rw [isNamePart, Bool.or_eq_false_iff, beq_eq_false_iff_ne] at hpart'
      have hfound : boolean ⟨pos, w ++ behind⟩ = (.found [.leaf (.boolean word.meaning)
          (Cursor.textTo ⟨pos, w ++ behind⟩ _)], _) :=
        boolean_found_iff.2 ⟨hpart'.1, hpart'.2, word, WordList.matchWhole_eq_some_iff.2
          ⟨by rw [WordList.matchAt, hlongest', ← hcursor]; rfl, hletter'⟩, rfl⟩
      rw [h] at hfound
      cases hfound

/-! ### Labels -/

theorem isLabelPart_of_start {ch : Char} (h : isLabelStart ch = true) : isLabelPart ch = true := by
  rw [isLabelStart, Bool.or_eq_true] at h
  rcases h with h | h <;> simp [isLabelPart, h]

/-- A label is found again wherever no name goes on behind it. -/
theorem label_finds (h : label c = (.found nodes, next)) :
    ∃ r v, c.Passes (r :: v) next ∧ isLabelStart r.value = true ∧
      (∀ s ∈ r :: v, isLabelPart s.value = true) ∧ Clear isNamePart next.rest ∧
      (∃ name text, nodes = [.leaf (.label name) text]) ∧
      label.Finds (Clear isNamePart) nodes (r :: v) := by
  obtain ⟨hstart, rfl, hsize, hparen, hboolean, hcell, rfl⟩ := label_found_iff.1 h
  obtain ⟨r, v, hw, hcurrent, hparts, hclear⟩ :=
    skip_eq_cons (q := isLabelPart) (isLabelPart_of_start hstart) (by decide)
  rw [hw.textTo] at hsize hboolean hcell ⊢
  rw [hcurrent] at hstart
  refine ⟨r, v, hw, hstart, hparts, ?_, ⟨_, _, rfl⟩, ?_⟩
  · refine Cursor.clear_of_current (p := (c.skip isLabelPart).pos) ?_
    have hpart : isLabelPart (c.skip isLabelPart).current = false :=
      Cursor.current_eq_false (by decide) hclear
    simp [isNamePart, hpart, hparen]
  · intro p rest hrest
    have hpart : Clear isLabelPart rest := hrest.mono fun ch hch => by simp [isNamePart, hch]
    have hnot : isNamePart (Cursor.current ⟨p + (r :: v).length, rest⟩) = false :=
      Cursor.current_eq_false (by decide) hrest
    rw [isNamePart, Bool.or_eq_false_iff, beq_eq_false_iff_ne] at hnot
    rw [label_found_iff, Cursor.skip_append hparts hpart, Cursor.textTo_append]
    exact ⟨hstart, rfl, hsize, hnot.2, hboolean, hcell, rfl⟩

theorem clear_append {q : Char → Bool} (hw : Clear q w) (hrest : w = [] → Clear q rest) :
    Clear q (w ++ rest) := by
  cases w with
  | nil => exact hrest rfl
  | cons r w => exact hw

theorem readRow_absent (hdigit : Clear isDigit rest) (hdollar : Clear (· == '$') rest) :
    readRow ⟨p, rest⟩ = (.absent, ⟨p, rest⟩) := by
  have hskip : skipAbsolute ⟨p, rest⟩ = ⟨p, rest⟩ :=
    skipAbsolute_append (a := []) (.inl rfl) hdollar
  have hdigits : Cursor.skip ⟨p, rest⟩ isDigit = ⟨p, rest⟩ :=
    Cursor.skip_append (w := []) (by simp) hdigit
  simp [readRow, hskip, hdigits]

theorem rowFollows_eq_false (hdigit : Clear isDigit rest) (hdollar : Clear (· == '$') rest) :
    rowFollows ⟨p, rest⟩ = false := by
  have h1 : isDigit (Cursor.current ⟨p, rest⟩) = false :=
    Cursor.current_eq_false (by decide) hdigit
  have h2 : (Cursor.current ⟨p, rest⟩ == '$') = false :=
    Cursor.current_eq_false (q := (· == '$')) (by decide) hdollar
  simp [rowFollows, h1, h2]

/-- A column that no row follows is no cell. -/
theorem cell_absent_of_column (hne : w ≠ []) (hw : ∀ s ∈ w, isLetter s.value = true)
    (hletter : Clear isLetter rest) (hdigit : Clear isDigit rest)
    (hdollar : Clear (· == '$') rest) : cell ⟨p, w ++ rest⟩ = (.absent, ⟨p, w ++ rest⟩) := by
  have hcolumn := readColumn_append (p := p) (.inl rfl) hne hw hletter
  rw [List.nil_append, List.nil_append] at hcolumn
  rw [cell, restoring, readCell, hcolumn]
  cases Column.parse (.ofRunes w) with
  | ok column => simp [readRow_absent hdigit hdollar]
  | error e => simp [rowFollows_eq_false hdigit hdollar]

/-- Letters and digits are no cell if a name goes on behind them or the column is out of bounds. -/
theorem cell_absent_iff {letters digits : List Rune} (hletters : letters ≠ [])
    (hl : ∀ s ∈ letters, isLetter s.value = true) (hdigits : digits ≠ [])
    (hd : ∀ s ∈ digits, isDigit s.value = true) (hrest : Clear isDigit rest)
    (hparen : Clear (· == '(') rest) :
    (∃ next, cell ⟨p, letters ++ (digits ++ rest)⟩ = (.absent, next)) ↔
      (∃ column, Column.parse (.ofRunes letters) = .ok column) ∧
        isLabelPart (Cursor.current ⟨p, rest⟩) = true := by
  have hletter : Clear isLetter (digits ++ rest) := by
    simpa using @clear_letter_of_row rest [] digits (.inl rfl) hdigits hd
  have hcolumn := readColumn_append (p := p) (.inl rfl) hletters hl hletter
  have hrow := readRow_append (p := p + letters.length) (.inl rfl) hdigits hd hrest
  rw [List.nil_append, List.nil_append] at hcolumn hrow
  have hname : (Cursor.current ⟨p, rest⟩ == '(') = false :=
    Cursor.current_eq_false (q := (· == '(')) (by decide) hparen
  simp only [cell, restoring, readCell, hcolumn]
  cases hc : Column.parse (.ofRunes letters) with
  | error e =>
    -- A row follows, so a bad column is a failure.
    have hfollows : rowFollows ⟨p + letters.length, digits ++ rest⟩ = true := by
      obtain ⟨s, digits, rfl⟩ := List.exists_cons_of_ne_nil hdigits
      simp [rowFollows, hd s (List.mem_cons_self ..)]
    simp [hfollows]
  | ok column =>
    have hcurrent (q : Nat) : Cursor.current ⟨q, rest⟩ = Cursor.current ⟨p, rest⟩ := rfl
    simp only [hrow]
    cases hpart : isLabelPart (Cursor.current ⟨p, rest⟩) with
    -- In front of the rest of a name there is no cell, whether the row is good or bad.
    | true => cases Row.parse (.ofRunes digits) <;> simp [hcurrent, hpart]
    | false =>
      cases Row.parse (.ofRunes digits) with
      | error e => simp [hcurrent, hpart]
      | ok row =>
        simp only [hcurrent, hpart, hname, Bool.or_self, Bool.false_eq_true, if_false, and_false,
          iff_false, not_exists]
        intro next h
        split at h
        · exact built_ne_absent ‹_›
        · exact built_ne_absent h

/-- What starts with a character of a class starts with a run of that class. -/
theorem exists_run {q : Char → Bool} {v : List Rune} (hr : q r.value = true) :
    ∃ u tail, r :: v = u ++ tail ∧ u ≠ [] ∧ (∀ s ∈ u, q s.value = true) ∧ Clear q tail :=
  ⟨(r :: v).takeWhile fun s => q s.value, (r :: v).dropWhile fun s => q s.value,
    List.takeWhile_append_dropWhile.symm, by simp [hr], fun s hs => (List.mem_takeWhile_imp hs :),
    Cursor.clear_dropWhile⟩

/-- Where letters and digits were no cell, they are none in front of any stop: what is left of the
name behind them decides, and if nothing is left, then it was the end of the name. -/
theorem cell_absent_of_row {pos : Nat} {letters digits more behind : List Rune}
    (hletters : letters ≠ []) (hl : ∀ s ∈ letters, isLetter s.value = true) (hdigits : digits ≠ [])
    (hd : ∀ s ∈ digits, isDigit s.value = true) (hmore : Clear isDigit more)
    (hparts : ∀ s ∈ more, isLabelPart s.value = true) (hbehind : Clear isNamePart behind)
    (h : cell ⟨pos, letters ++ (digits ++ (more ++ behind))⟩ = (.absent, next)) :
    cell ⟨p, letters ++ (digits ++ (more ++ rest))⟩ =
      (.absent, ⟨p, letters ++ (digits ++ (more ++ rest))⟩) := by
  -- If the name ended behind the digits, there would be a cell; so a rune of it follows.
  cases more with
  | nil =>
    have hpart := ((cell_absent_iff hletters hl hdigits hd
      (hbehind.mono fun ch hch => by simp [isNamePart, isLabelPart, hch])
      (hbehind.mono fun ch hch => by simp [isNamePart, hch])).1 ⟨_, h⟩).2
    rw [Cursor.current_eq_false (q := isLabelPart) (by decide)
      (hbehind.mono fun ch hch => by simp [isNamePart, hch])] at hpart
    cases hpart
  | cons t more =>
    have ht : isLabelPart t.value = true := hparts t (List.mem_cons_self ..)
    have hparen {rest : List Rune} : Clear (· == '(') (t :: more ++ rest) :=
      Cursor.clear_cons.2 (beq_eq_false_iff_ne.2 fun heq => absurd (heq ▸ ht) (by decide))
    have hdigit {rest : List Rune} : Clear isDigit (t :: more ++ rest) :=
      Cursor.clear_cons.2 (Cursor.clear_cons.1 hmore)
    have hcolumn := ((cell_absent_iff hletters hl hdigits hd hdigit hparen).1 ⟨_, h⟩).1
    have habsent : ∃ next, cell ⟨p, letters ++ (digits ++ (t :: more ++ rest))⟩ =
        (.absent, next) :=
      (cell_absent_iff hletters hl hdigits hd hdigit hparen).2 ⟨hcolumn, ht⟩
    obtain ⟨next, hnext⟩ := habsent
    rw [hnext, restoring_absent hnext]

/-- Where a cell was absent in front of a label, it is absent in front of any stop. -/
theorem cell_misses {pos : Nat} {behind v : List Rune}
    (hv : ∀ s ∈ r :: v, isLabelPart s.value = true) (hbehind : Clear isNamePart behind)
    (h : cell ⟨pos, r :: v ++ behind⟩ = (.absent, ⟨pos, r :: v ++ behind⟩)) :
    cell.Misses Stops (r :: v) := by
  intro p rest hrest
  have hdollar {s : Rune} (hs : isLabelPart s.value = true) : s.value ≠ '$' := fun heq =>
    absurd (heq ▸ hs) (by decide)
  by_cases hletter : isLetter r.value = true
  · -- A column may stand here: its letters are `letters`, and `tail` is what of the name is left.
    obtain ⟨letters, tail, hsplit, hletters, hl, hclear⟩ := exists_run (v := v) hletter
    rw [hsplit] at hv h ⊢
    rw [List.append_assoc] at h ⊢
    have htail := (List.forall_mem_append.1 hv).2
    cases tail with
    | nil =>
      exact cell_absent_of_column hletters hl (hrest.clear (by decide)) (hrest.clear (by decide))
        (hrest.clear (by decide))
    | cons s tail =>
      by_cases hdigit : isDigit s.value = true
      · -- A row may follow.
        obtain ⟨digits, more, hsplit, hdigits, hd, hmore⟩ := exists_run (v := tail) hdigit
        rw [hsplit] at htail
        rw [hsplit, List.append_assoc] at h ⊢
        exact cell_absent_of_row hletters hl hdigits hd hmore (List.forall_mem_append.1 htail).2
          hbehind h
      · have hnot : Clear (· == '$') (s :: tail ++ rest) := Cursor.clear_cons.2
          (beq_eq_false_iff_ne.2 (hdollar (htail s (List.mem_cons_self ..))))
        exact cell_absent_of_column hletters hl hclear
          (Cursor.clear_cons.2 (Bool.eq_false_iff.2 hdigit)) hnot
  · refine cell_absent ?_
    rw [isReferenceStart, Bool.or_eq_false_iff, beq_eq_false_iff_ne]
    exact ⟨Bool.eq_false_iff.2 hletter, hdollar (hv r (List.mem_cons_self ..))⟩

/-! ### Names of functions -/

/-- Where no parenthesis is written, no function is called. -/
theorem functionName_misses (hw : ∀ s ∈ w, s.value ≠ '(') : functionName.Misses Stops w := by
  intro p rest hrest
  cases hfound : functionName ⟨p, w ++ rest⟩ with
  | mk outcome next =>
    cases outcome with
    | absent => rw [functionName_absent hfound]
    | failed failure =>
      simp only [functionName, leafBetween] at hfound
      split_ifs at hfound <;> cases hfound
    | found nodes =>
      exfalso
      obtain ⟨-, hskip, hparen, -⟩ := functionName_found_iff.1 hfound
      obtain ⟨r, tail, htail, hr⟩ := Cursor.exists_rest_of_current hparen (by decide)
      have hpasses := Cursor.passes_skip ⟨p, w ++ rest⟩ isLabelPart
      rw [← hskip] at hpasses
      -- The parenthesis is not written in `w`, so only label parts are written there.
      have hsplit : w ++ rest = Cursor.run ⟨p, w ++ rest⟩ isLabelPart ++ r :: tail := by
        rw [← htail]
        exact hpasses.rest
      have hrun : ∀ s ∈ Cursor.run ⟨p, w ++ rest⟩ isLabelPart, isLabelPart s.value = true :=
        fun s hs => (List.mem_takeWhile_imp hs :)
      generalize Cursor.run ⟨p, w ++ rest⟩ isLabelPart = name at hsplit hrun
      rcases List.append_eq_append_iff.1 hsplit with ⟨more, rfl, hmore⟩ | ⟨more, rfl, hmore⟩
      · cases more with
        | nil =>
          rw [List.nil_append] at hmore
          exact hrest.current_ne (p := p) (by decide : '(' ∉ nul :: stopChars)
            (by rw [hmore]; exact hr)
        | cons s more =>
          have hs : isLabelPart s.value = true := hrun s (by simp)
          have hclear : Clear isLabelPart rest := hrest.clear (by decide)
          rw [hmore, List.cons_append, Cursor.clear_cons, hs] at hclear
          cases hclear
      · cases more with
        | nil =>
          rw [List.nil_append] at hmore
          exact hrest.current_ne (p := p) (by decide : '(' ∉ nul :: stopChars)
            (by rw [← hmore]; exact hr)
        | cons s more =>
          obtain ⟨rfl, -⟩ := List.cons.inj hmore
          exact hw r (by simp) hr

/-- What the name of a function is written like. -/
theorem functionName_eq (h : functionName c = (.found nodes, next)) :
    ∃ r v, c.Passes (r :: v) next ∧ isLetter r.value = true ∧
      (∀ s ∈ r :: v, isLabelPart s.value = true) ∧
      nodes = [.leaf (.functionName (upperCase (.ofRunes (r :: v)))) (.ofRunes (r :: v))] := by
  obtain ⟨hstart, rfl, -, rfl⟩ := functionName_found_iff.1 h
  obtain ⟨r, v, hw, hcurrent, hparts, -⟩ :=
    skip_eq_cons (q := isLabelPart) (c := c) (by simp [isLabelPart, hstart]) (by decide)
  rw [hw.textTo]
  rw [hcurrent] at hstart
  exact ⟨r, v, hw, hstart, hparts, rfl⟩

/-- The name of a function is found again in front of an opening parenthesis. -/
theorem functionName_finds {v : List Rune} (hstart : isLetter r.value = true)
    (hparts : ∀ s ∈ r :: v, isLabelPart s.value = true) :
    functionName.Finds (fun rest => ∃ more, rest = .scalar '(' :: more)
      [.leaf (.functionName (upperCase (.ofRunes (r :: v)))) (.ofRunes (r :: v))] (r :: v) := by
  rintro p _ ⟨more, rfl⟩
  have hskip := Cursor.skip_append (p := p) hparts
    (Cursor.clear_cons.2 (by decide) : Clear isLabelPart (.scalar '(' :: more))
  rw [functionName_found_iff, hskip, Cursor.textTo_append]
  exact ⟨hstart, rfl, rfl, rfl⟩

end Rule

end SheetFormula
