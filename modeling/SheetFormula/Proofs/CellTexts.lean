import SheetFormula.Proofs.Keys
import SheetFormula.Proofs.Lines

/-!
# What cells and ranges are written as

A cell is read in two ways.  The grammar goes through the runes from left to right and looks at what
follows them; `Cell.parse` cuts a text in front of its first digit, or in front of the `$` there.
Both accept the same texts, `Grammar.parse_cell_iff`: the column and the row that
`Cell.IsWrittenAs` describes, and for a range two such cells with one colon between them.
-/

namespace SheetFormula

open Cursor (Clear)
open Rule (IsAbsolute IsCellText isNamePart)
open Text (Settled)

variable {text : Text} {a letters b digits v w : List Rune} {absolute : Bool}

/-! ### Columns and rows -/

/-- The runes of a text that starts with an optional mark. -/
theorem exists_of_chars_marked {cs : List Char} (hw : Settled w)
    (h : (Text.ofRunes w).chars = absoluteMark absolute ++ cs) :
    ∃ a v, IsAbsolute a ∧ w = a ++ v ∧ v.map Rune.value = cs := by
  have hvalues : w.map Rune.value = absoluteMark absolute ++ cs := by
    rw [← h, Text.chars, hw]
  obtain ⟨a, v, rfl, ha, hv⟩ := List.map_eq_append_iff.1 hvalues
  refine ⟨a, v, ?_, rfl, hv⟩
  cases absolute with
  | false => exact .inl (List.map_eq_nil_iff.1 ha)
  | true =>
    obtain ⟨r, rfl, hr⟩ := List.map_eq_singleton_iff.1 ha
    exact .inr (congrArg (fun r => [r]) (Rune.eq_scalar_of_value hr (by decide)))

/-- A line is written with the characters of a numeral behind an optional `$`, and there is no line
of number 0. -/
theorem Axis.written_of_parseLine {axis : Axis} {Line : Type} {isPart : Char → Bool}
    {add : Nat → Char → Nat} {ofNumber? : Nat → Bool → Option Line} {line : Line} (hw : Settled w)
    (hzero : ∀ mark, ofNumber? 0 mark = none)
    (h : axis.parseLine isPart add ofNumber? (.ofRunes w) = .ok line) :
    ∃ a parts, IsAbsolute a ∧ w = a ++ parts ∧ parts ≠ [] ∧
      ∀ r ∈ parts, isPart r.value = true := by
  have hchars := (absoluteMark_append_splitAbsolute (Text.ofRunes w).chars).symm
  obtain ⟨a, parts, ha, rfl, hvalues⟩ := exists_of_chars_marked hw hchars
  obtain ⟨hparts, hline⟩ := (parseLine_eq_ok_iff (Prod.mk.eta).symm).1 h
  rw [← hvalues] at hparts hline
  refine ⟨a, parts, ha, rfl, ?_, List.forall_mem_map.1 hparts⟩
  rintro rfl
  have hnone := hzero (splitAbsolute (Text.ofRunes (a ++ [])).chars).1
  exact absurd (hnone.symm.trans hline) nofun

/-! ### Cells -/

/-- What a cell is written as: its column and its row, each with an optional `$`. -/
def Cell.IsWrittenAs (cell : Cell) (w : List Rune) : Prop :=
  ∃ a letters b digits, IsCellText a letters b digits ∧ w = a ++ letters ++ (b ++ digits) ∧
    Column.parse (.ofRunes (a ++ letters)) = .ok cell.column ∧
    Row.parse (.ofRunes (b ++ digits)) = .ok cell.row

/-- No other characters than `$`, letters and digits stand in a cell. -/
theorem Rule.IsCellText.value_ne {ch : Char} (h : IsCellText a letters b digits) (hmark : '$' ≠ ch)
    (hletter : isLetter ch = false) (hdigit : isDigit ch = false) :
    ∀ r ∈ a ++ letters ++ (b ++ digits), r.value ≠ ch := by
  have hsign {b : List Rune} (hb : IsAbsolute b) : ∀ r ∈ b, r.value ≠ ch := by
    rcases hb with rfl | rfl
    · simp
    · simpa [Rune.value] using hmark
  simp only [List.forall_mem_append]
  refine ⟨⟨hsign h.columnSign, fun r hr heq => ?_⟩, hsign h.rowSign, fun r hr heq => ?_⟩
  · rw [← heq, h.letters r hr] at hletter
    cases hletter
  · rw [← heq, h.digits r hr] at hdigit
    cases hdigit

theorem Cell.IsWrittenAs.settled {cell : Cell} (h : cell.IsWrittenAs w) : Settled w := by
  obtain ⟨a, letters, b, digits, htext, rfl, -⟩ := h
  have hne : ∀ r ∈ a ++ letters ++ (b ++ digits), r.value ≠ Rune.replacement :=
    htext.value_ne (by decide) (by decide) (by decide)
  exact (Text.sealed_of_isScalar fun r hr =>
    Rune.isScalar_of_class (q := (· != Rune.replacement)) (bne_iff_ne.2 (hne r hr)) rfl).settled

theorem Cell.IsWrittenAs.ne_colon {cell : Cell} (h : cell.IsWrittenAs w) :
    ∀ r ∈ w, r.value ≠ ':' := by
  obtain ⟨a, letters, b, digits, htext, rfl, -⟩ := h
  exact htext.value_ne (by decide) rfl rfl

namespace Cell

variable {cell : Cell}

/-- A cell is cut between its column and its row. -/
theorem cut_eq (h : IsCellText a letters b digits) :
    cut (a ++ letters ++ (b ++ digits)) = (a ++ letters, b ++ digits) := by
  obtain ⟨r, more, rfl⟩ := List.exists_cons_of_ne_nil h.digits_ne
  have hr : isDigit r.value = true := h.digits r (List.mem_cons_self ..)
  have hcolumn : ∀ s ∈ a ++ letters, (!isDigit s.value) = true := by
    simp only [List.forall_mem_append]
    refine ⟨?_, fun s hs => ?_⟩
    · rcases h.columnSign with rfl | rfl <;> simp [Rune.value, isDigit]
    · rw [Bool.not_eq_true', Bool.eq_false_iff]
      intro hdigit
      have hletter := h.letters s hs
      rw [Rule.isLetter_eq_false hdigit] at hletter
      cases hletter
  have hfront : ∀ s ∈ a ++ letters ++ b, (!isDigit s.value) = true := by
    refine List.forall_mem_append.2 ⟨hcolumn, ?_⟩
    rcases h.rowSign with rfl | rfl <;> simp [Rune.value, isDigit]
  have hbefore : (a ++ letters ++ (b ++ r :: more)).takeWhile (fun s => !isDigit s.value) =
      a ++ letters ++ b := by
    rw [← List.append_assoc, List.takeWhile_append_of_pos hfront, List.takeWhile_cons_of_neg
      (by simp [hr]), List.append_nil]
  have hafter : (a ++ letters ++ (b ++ r :: more)).dropWhile (fun s => !isDigit s.value) =
      r :: more := by
    rw [← List.append_assoc, List.dropWhile_append_of_pos hfront,
      List.dropWhile_cons_of_neg (by simp [hr])]
  simp only [cut, hbefore, hafter]
  rcases h.rowSign with rfl | rfl
  · -- The last rune in front of the digits is a letter.
    have hlast : (a ++ letters ++ []).getLast? ≠ some (.scalar '$') := by
      rw [List.append_nil, List.getLast?_append_of_ne_nil _ h.letters_ne]
      intro hlast
      cases h.letters _ (List.mem_of_getLast? hlast)
    split
    · exact absurd ‹_› hlast
    · simp
  · simp

theorem append_cut (runes : List Rune) : (cut runes).1 ++ (cut runes).2 = runes := by
  simp only [cut]
  split
  · rename_i hafter hlast
    obtain ⟨front, hfront⟩ := List.getLast?_eq_some_iff.1 hlast
    have hsplit := List.takeWhile_append_dropWhile (p := fun r => !isDigit r.value) (l := runes)
    rw [hfront] at hsplit ⊢
    simpa using hsplit
  · exact List.takeWhile_append_dropWhile

/-- What is cut off starts with a digit or a `$`. -/
theorem cut_snd {runes : List Rune} (h : (cut runes).2 ≠ []) :
    ∃ (c : Char) (tail : List Rune), c.toNat < 0x80 ∧ (cut runes).2 = .scalar c :: tail := by
  simp only [cut] at h ⊢
  split at h
  · exact ⟨'$', _, by decide, rfl⟩
  · obtain ⟨r, tail, hafter⟩ := List.exists_cons_of_ne_nil h
    have hr : isDigit r.value = true := by
      have hclear : Clear (!isDigit ·) (runes.dropWhile fun r => !isDigit r.value) :=
        Cursor.clear_dropWhile
      rw [show runes.dropWhile (fun r => !isDigit r.value) = r :: tail from hafter,
        Cursor.clear_cons] at hclear
      simpa using hclear
    cases r with
    | stray b => cases hr
    | scalar c =>
      refine ⟨c, tail, ?_, hafter⟩
      simp only [Rune.value, isDigit, Bool.and_eq_true, decide_eq_true_eq, Char.le_def,
        UInt32.le_iff_toNat_le] at hr
      exact Nat.lt_of_le_of_lt hr.2 (by decide)

/-- A cell is the column and the row that it is cut into. -/
theorem parse_eq_ok_iff_cut :
    parse text = .ok cell ↔
      (cut text.runes).1 ≠ [] ∧ (cut text.runes).2 ≠ [] ∧
        Column.parse (.ofRunes (cut text.runes).1) = .ok cell.column ∧
        Row.parse (.ofRunes (cut text.runes).2) = .ok cell.row := by
  rw [parse]
  rcases cut text.runes with ⟨_ | ⟨r, column⟩, _ | ⟨s, row⟩⟩
  · simp
  · simp
  · simp
  · obtain ⟨column', row'⟩ := cell
    constructor
    · intro h
      obtain ⟨_, hcolumn, h⟩ := bind_eq_ok_iff.1 h
      obtain ⟨_, hrow, h⟩ := bind_eq_ok_iff.1 h
      obtain ⟨rfl, rfl⟩ := Cell.mk.inj (Except.ok.inj h)
      exact ⟨by simp, by simp, hcolumn, hrow⟩
    · rintro ⟨-, -, hcolumn, hrow⟩
      exact bind_eq_ok_iff.2 ⟨_, hcolumn, bind_eq_ok_iff.2 ⟨_, hrow, rfl⟩⟩

/-- `Cell.parse` reads a cell where the whole text is written as one. -/
theorem parse_eq_ok_iff : parse text = .ok cell ↔ cell.IsWrittenAs text.runes := by
  rw [parse_eq_ok_iff_cut]
  constructor
  · rintro ⟨-, hne, hcolumn, hrow⟩
    obtain ⟨c, tail, hc, htail⟩ := cut_snd hne
    have hsplit := append_cut text.runes
    have hsettled : Settled ((cut text.runes).1 ++ (cut text.runes).2) := by
      rw [hsplit]
      exact Text.settled_runes text
    have hfront : Settled (cut text.runes).1 := by
      rw [htail] at hsettled
      exact hsettled.of_append_ascii hc
    -- Each half is a line as far as the cut, and both halves stay settled there.
    obtain ⟨a, letters, ha, hleft, hletters, hall⟩ :=
      Axis.written_of_parseLine hfront (fun _ => rfl) (Column.parse_eq ▸ hcolumn)
    obtain ⟨b, digits, hb, hright, hdigits, hall'⟩ :=
      Axis.written_of_parseLine hsettled.of_append (fun _ => rfl) (Row.parse_eq ▸ hrow)
    rw [hleft] at hcolumn
    rw [hright] at hrow
    rw [← hsplit, hleft, hright]
    exact ⟨a, letters, b, digits, ⟨ha, hb, hletters, hall, hdigits, hall'⟩, rfl, hcolumn, hrow⟩
  · rintro ⟨a, letters, b, digits, htext, hruns, hcolumn, hrow⟩
    rw [hruns, cut_eq htext]
    exact ⟨List.append_ne_nil_of_right_ne_nil a htext.letters_ne,
      List.append_ne_nil_of_right_ne_nil b htext.digits_ne, hcolumn, hrow⟩

end Cell

/-! ### Ranges -/

/-- What a range is written as: two cells with a colon between them. -/
def CellRange.IsWrittenAs (range : CellRange) (u : List Rune) : Prop :=
  ∃ v w, u = v ++ .scalar ':' :: w ∧ range.first.IsWrittenAs v ∧ range.last.IsWrittenAs w

/-- `CellRange.parse` reads a range where the whole text is written as one. -/
theorem CellRange.parse_eq_ok_iff {range : CellRange} :
    parse text = .ok range ↔ range.IsWrittenAs text.runes := by
  obtain ⟨first, last⟩ := range
  have hcell {u : List Rune} (hu : Settled u) {cell : Cell} :
      Cell.parse (.ofRunes u) = .ok cell ↔ cell.IsWrittenAs u := by
    rw [Cell.parse_eq_ok_iff, hu]
  constructor
  · intro h
    simp only [parse] at h
    split at h
    · cases h
    rename_i r w hafter
    split_ifs at h
    obtain ⟨_, hfirst, h⟩ := bind_eq_ok_iff.1 h
    obtain ⟨_, hlast, h⟩ := bind_eq_ok_iff.1 h
    obtain ⟨rfl, rfl⟩ := CellRange.mk.inj (Except.ok.inj h)
    -- The first rune that is left over is the colon.
    obtain rfl : r = .scalar ':' := by
      have hclear : Clear (fun ch => !(ch == ':'))
          (text.runes.dropWhile fun r => !(r.value == ':')) :=
        Cursor.clear_dropWhile
      rw [hafter, Cursor.clear_cons] at hclear
      exact Rune.eq_scalar_of_value (by simpa using hclear) (by decide)
    have hsplit := List.takeWhile_append_dropWhile (p := fun r => !(r.value == ':'))
      (l := text.runes)
    rw [hafter] at hsplit
    have hsettled := Text.settled_runes text
    rw [← hsplit] at hsettled
    exact ⟨_, w, hsplit.symm, (hcell (hsettled.of_append_ascii (by decide))).1 hfirst,
      (hcell hsettled.of_append.tail).1 hlast⟩
  · rintro ⟨v, w, hruns, hfirst, hlast⟩
    -- Neither cell holds a colon, so the text is cut at the only one there is.
    have hbefore : ∀ r ∈ v, (!(r.value == ':')) = true := by simpa using hfirst.ne_colon
    have hnone : (w.any fun r => r.value == ':') = false := by simpa using hlast.ne_colon
    have htake : text.runes.takeWhile (fun r => !(r.value == ':')) = v := by
      rw [hruns, List.takeWhile_append_of_pos hbefore,
        List.takeWhile_cons_of_neg (by simp [Rune.value]), List.append_nil]
    have hdrop : text.runes.dropWhile (fun r => !(r.value == ':')) = .scalar ':' :: w := by
      rw [hruns, List.dropWhile_append_of_pos hbefore,
        List.dropWhile_cons_of_neg (by simp [Rune.value])]
    simp only [parse, htake, hdrop, hnone, Bool.false_eq_true, if_false]
    exact bind_eq_ok_iff.2 ⟨_, (hcell hfirst.settled).2 hfirst,
      bind_eq_ok_iff.2 ⟨_, (hcell hlast.settled).2 hlast, rfl⟩⟩

/-! ### The rules of the grammar -/

namespace Rule

variable {c next : Cursor} {nodes : List Node}

/-- The grammar finds a cell only where one is written. -/
theorem cell_written (h : Rule.cell c = (.found nodes, next)) :
    ∃ cell children w, nodes = [.parent (.cell cell) children] ∧ c.Passes w next ∧
      cell.IsWrittenAs w := by
  obtain ⟨_, _, _, n, hfoundColumn, hfoundRow, -, -, hn, rfl⟩ :=
    readCell_found_iff.1 (cell_found_iff.1 h)
  obtain ⟨a, letters, column, ha, hne, hletters, hpasses, hcolumn, rfl⟩ :=
    readColumn_eq hfoundColumn
  obtain ⟨b, digits, row, hb, hne', hdigits, hpasses', hrow, rfl⟩ := readRow_eq hfoundRow
  obtain ⟨_, _, _, _, hoperands, rfl⟩ := Node.cell_eq_ok_iff.1 hn
  cases hoperands
  exact ⟨⟨column, row⟩, _, _, rfl, hpasses.trans hpasses', a, letters, b, digits,
    ⟨ha, hb, hne, hletters, hne', hdigits⟩, rfl, hcolumn, hrow⟩

/-- The grammar finds a cell wherever one is written and no name goes on behind it. -/
theorem cell_finds_of_written {cell : Cell} (h : cell.IsWrittenAs w) :
    ∃ children, Rule.cell.Finds (Clear isNamePart) [.parent (.cell cell) children] w := by
  obtain ⟨a, letters, b, digits, htext, rfl, hcolumn, hrow⟩ := h
  exact ⟨_, cell_append htext hcolumn hrow
    (Node.cell_eq_ok_iff.2 ⟨cell.column, _, cell.row, _, rfl, rfl⟩)⟩

/-- The grammar finds a range only where one is written. -/
theorem cellRange_written (h : Rule.cellRange c = (.found nodes, next)) :
    ∃ range children w, nodes = [.parent (.cellRange range) children] ∧ c.Passes w next ∧
      range.IsWrittenAs w := by
  obtain ⟨_, n, hchildren, hn, rfl⟩ := transform_found_iff.1 h
  obtain ⟨_, _, _, _, _, hfirst, hcolon, hlast, rfl⟩ :=
    sequenceFrom_triple_found_iff.1 hchildren
  obtain ⟨first, ns, v, rfl, hpasses, hv⟩ := cell_written hfirst
  obtain ⟨last, ms, w, rfl, hpasses', hw⟩ := cell_written hlast
  obtain ⟨hcolonPasses, rfl⟩ := symbol_eq (by simp [IsPlain, nul, Rune.replacement]) hcolon
  obtain ⟨_, _, _, _, hoperands, -, rfl⟩ := Node.cellRange_eq_ok_iff.1 hn
  cases hoperands
  exact ⟨⟨first, last⟩, _, _, rfl, hpasses.trans (hcolonPasses.trans hpasses'), v, w, rfl, hv, hw⟩

/-- The grammar finds a range wherever one is written and no name goes on behind it. -/
theorem cellRange_finds_of_written {range : CellRange} (h : range.IsWrittenAs w) :
    ∃ children, Rule.cellRange.Finds (Clear isNamePart)
      [.parent (.cellRange range) children] w := by
  obtain ⟨u, v, rfl, hfirst, hlast⟩ := h
  obtain ⟨ns, hfirst⟩ := cell_finds_of_written hfirst
  obtain ⟨ms, hlast⟩ := cell_finds_of_written hlast
  refine ⟨_, cellRange_append hfirst hlast
    (Node.cellRange_eq_ok_iff.2 ⟨range.first, ns, range.last, ms, rfl, ?_, rfl⟩)⟩
  exact ⟨.leaf (.symbol .between) _, List.mem_cons_of_mem _ (List.mem_cons_self ..), rfl⟩

end Rule

/-! ### Whole texts -/

namespace Grammar

variable {g : Grammar} {p : Parser} {n : Node}

/-- What a rule finds in the whole of a text is what the text is parsed to. -/
theorem parse_eq_ok_of_finds {q : Char → Bool} (hlength : text.runeCount ≤ maxFormulaLength)
    (h : (p.rule g).Finds (Clear q) [n] text.runes) : g.parse p text = .ok n := by
  have hfound := @h 0 [] Cursor.clear_nil
  rw [List.append_nil] at hfound
  exact parse_eq_ok_of_found hlength hfound rfl

/-- The parser of cells accepts nothing but cells. -/
theorem exists_cell_of_parse (h : g.parse .cell text = .ok n) :
    ∃ cell children, n = .parent (.cell cell) children ∧ cell.IsWrittenAs text.runes := by
  obtain ⟨c, hfound, hend⟩ := found_of_parse h
  obtain ⟨cell, children, w, hn, hw, hwritten⟩ := Rule.cell_written hfound
  have hruns : text.runes = w := hw.rest_of_end hend
  exact ⟨cell, children, List.singleton_inj.1 hn, hruns ▸ hwritten⟩

/-- The parser of ranges accepts nothing but ranges. -/
theorem exists_cellRange_of_parse (h : g.parse .cellRange text = .ok n) :
    ∃ range children, n = .parent (.cellRange range) children ∧
      range.IsWrittenAs text.runes := by
  obtain ⟨c, hfound, hend⟩ := found_of_parse h
  obtain ⟨range, children, w, hn, hw, hwritten⟩ := Rule.cellRange_written hfound
  have hruns : text.runes = w := hw.rest_of_end hend
  exact ⟨range, children, List.singleton_inj.1 hn, hruns ▸ hwritten⟩

/-- The grammar reads a text as a cell or a range exactly when `Cell.parse` or `CellRange.parse`
does, and both read the same reference. -/
theorem parse_cell_iff (g : Grammar) (text : Text) (hlength : text.runeCount ≤ maxFormulaLength) :
    (∀ cell, (∃ children, g.parse .cell text = .ok (.parent (.cell cell) children)) ↔
      Cell.parse text = .ok cell) ∧
    ∀ range, (∃ children, g.parse .cellRange text = .ok (.parent (.cellRange range) children)) ↔
      CellRange.parse text = .ok range := by
  -- Both readers accept what is written as a cell, or as a range of cells.
  refine ⟨fun cell => ?_, fun range => ?_⟩
  · rw [Cell.parse_eq_ok_iff]
    constructor
    · rintro ⟨children, h⟩
      obtain ⟨_, _, heq, hwritten⟩ := exists_cell_of_parse h
      cases heq
      exact hwritten
    · intro hwritten
      obtain ⟨children, hfinds⟩ := Rule.cell_finds_of_written hwritten
      exact ⟨children, parse_eq_ok_of_finds hlength hfinds⟩
  · rw [CellRange.parse_eq_ok_iff]
    constructor
    · rintro ⟨children, h⟩
      obtain ⟨_, _, heq, hwritten⟩ := exists_cellRange_of_parse h
      cases heq
      exact hwritten
    · intro hwritten
      obtain ⟨children, hfinds⟩ := Rule.cellRange_finds_of_written hwritten
      exact ⟨children, parse_eq_ok_of_finds hlength hfinds⟩

/-- The marks of absolute columns and rows, small letters and zeros in front are read alike. -/
theorem parse_cell_iff_marked :
    Text.runeCount "$b$02:C3" ≤ maxFormulaLength ∧
      ∃ children, american.parse .cellRange "$b$02:C3" =
        .ok (.parent (.cellRange
          ⟨⟨⟨2, true, by decide, by decide⟩, ⟨2, true, by decide, by decide⟩⟩,
            ⟨⟨3, false, by decide, by decide⟩, ⟨3, false, by decide, by decide⟩⟩⟩) children) := by
  have hlength : Text.runeCount "$b$02:C3" ≤ maxFormulaLength := by decide
  exact ⟨hlength, ((parse_cell_iff american "$b$02:C3" hlength).2 _).2 (by decide)⟩

end Grammar

end SheetFormula
