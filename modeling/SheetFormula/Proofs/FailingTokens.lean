import SheetFormula.Proofs.Failing
import SheetFormula.Proofs.Lines
import SheetFormula.Proofs.Messages
import SheetFormula.Proofs.Standing

/-!
# How tokens fail

Most scanners never fail.  Those that do blame the text: a column or a row that is out of bounds,
quoted text without its closing quote, and a number without a value.  The constructors of cells,
texts and numbers accept the leaves that the scanners give them.
-/

namespace SheetFormula

/-- No sign or separator of the locale is NUL. -/
structure Locale.HasSigns (l : Locale) : Prop where
  value : l.valueSeparator ≠ nul
  decimal : l.decimalSeparator ≠ nul
  percent : l.percentSymbol ≠ nul
  negative : l.negativeSign ≠ nul
  positive : l.positiveSign ≠ nul
  time : l.timeSeparator ≠ nul
  date : ∀ c ∈ l.dateSeparators, c ≠ nul

theorem Locale.hasSigns_default : Locale.HasSigns {} :=
  ⟨by decide, by decide, by decide, by decide, by decide, by decide, by decide⟩

namespace Rule

variable {k : Nat} {r : Rule} {c next : Cursor} {nodes : List Node} {failure : Failure}

/-! ### Shapes -/

/-- One leaf with the symbol `s`. -/
def OneSymbol (s : Symbol) (nodes : List Node) : Prop := ∃ t, nodes = [.leaf (.symbol s) t]

/-- Whitespace leaves, of which there may be none. -/
def Blanks (nodes : List Node) : Prop := ∃ ts : List Text, nodes = ts.map (.leaf .whitespace)

/-- One node that is no noise. -/
def OneOperand (nodes : List Node) : Prop := ∃ n, nodes = [n] ∧ n.isNoise = false

/-- One node that holds a cell. -/
def OneCell (nodes : List Node) : Prop := ∃ ref children, nodes = [.parent (.cell ref) children]

/-- One leaf with the name of a function. -/
def OneFunctionName (nodes : List Node) : Prop := ∃ name t, nodes = [.leaf (.functionName name) t]

theorem OneCell.oneOperand (h : OneCell nodes) : OneOperand nodes := by
  obtain ⟨ref, children, rfl⟩ := h
  exact ⟨_, rfl, rfl⟩

theorem OneFunctionName.oneOperand (h : OneFunctionName nodes) : OneOperand nodes := by
  obtain ⟨name, t, rfl⟩ := h
  exact ⟨_, rfl, rfl⟩

theorem oneOperand_parent (form : Form) (children : List Node) :
    OneOperand [.parent form children] := ⟨_, rfl, Node.isNoise_parent form children⟩

/-- A scanner that never fails. -/
theorem Exact.gives {S : List Node → Prop} (h : Exact r)
    (hfound : ∀ {c next nodes}, r c = (.found nodes, next) → S nodes)
    (hfailed : NeverFails r) : Gives k r S where
  moves := h.moves
  found _ hr := hfound hr
  failed _ hr := absurd hr (@hfailed _ _ _)

/-! ### Symbols, whitespace and names -/

theorem neverFails_symbol (s : Symbol) (word : List Char) : NeverFails (symbol s word) := by
  grind [NeverFails, Rule.symbol]

theorem gives_symbol (s : Symbol) {word : List Char} (hnul : nul ∉ word) :
    Gives k (symbol s word) (OneSymbol s) :=
  (exact_symbol s hnul).gives (fun h => ⟨_, (symbol_found_iff.1 h).2.2⟩)
    (neverFails_symbol s word)

theorem neverFails_whitespace : NeverFails whitespace := by
  grind [NeverFails, whitespace]

theorem gives_whitespace : Gives k whitespace fun nodes => Blanks nodes ∧ nodes ≠ [] :=
  exact_whitespace.gives (fun h => ⟨⟨[_], (whitespace_found_iff.1 h).2.2⟩, by
    rw [(whitespace_found_iff.1 h).2.2]
    exact List.cons_ne_nil _ _⟩) neverFails_whitespace

theorem gives_optionalWhitespace : Gives k optionalWhitespace Blanks :=
  gives_whitespace.optional.imp fun nodes h => by
    rcases h with rfl | h
    · exact ⟨[], rfl⟩
    · exact h.1

theorem neverFails_functionName : NeverFails functionName := by
  grind [NeverFails, functionName, leafBetween]

theorem gives_functionName : Gives k functionName OneFunctionName :=
  exact_functionName.gives (fun h => ⟨_, _, (functionName_found_iff.1 h).2.2.2⟩)
    neverFails_functionName

theorem neverFails_lambdaName : NeverFails lambdaName := by
  intro c next failure h
  rw [lambdaName] at h
  split at h
  · split_ifs at h <;> cases h
  · exact neverFails_functionName h

theorem exact_lambdaName : Exact lambdaName where
  restores := lambdaName_absent
  found h := exact_functionName.found (lambdaName_found_iff.1 h).1

theorem gives_lambdaName : Gives k lambdaName OneFunctionName :=
  exact_lambdaName.gives (fun h => ⟨_, (lambdaName_found_iff.1 h).2⟩) neverFails_lambdaName

theorem gives_label : Gives k label OneOperand :=
  exact_label.gives (fun h => by
    obtain ⟨-, -, -, -, -, -, rfl⟩ := label_found_iff.1 h
    exact ⟨_, rfl, rfl⟩) (by grind [NeverFails, label, leafBetween])

theorem gives_templateValueName : Gives k templateValueName OneOperand :=
  exact_templateValueName.gives (fun h => by
    obtain ⟨-, -, rfl⟩ := templateValueName_found_iff.1 h
    exact ⟨_, rfl, rfl⟩) (by grind [NeverFails, templateValueName, leafBetween])

/-! ### Literals -/

theorem gives_errorLiteral : Gives k errorLiteral OneOperand :=
  exact_errorLiteral.gives (fun h => by
    obtain ⟨-, _, -, rfl⟩ := errorLiteral_found_iff.1 h
    exact ⟨_, rfl, rfl⟩) (by grind [NeverFails, errorLiteral, leafBetween])

theorem gives_boolean : Gives k boolean OneOperand :=
  exact_boolean.gives (fun h => by
    obtain ⟨-, -, _, -, rfl⟩ := boolean_found_iff.1 h
    exact ⟨_, rfl, rfl⟩) (by grind [NeverFails, boolean, leafBetween])

theorem readQuoted_error {value : List Rune} {count stop : Nat} {rest : List Rune}
    (h : readQuoted value count rest = .error stop) : stop = count + rest.length := by
  fun_induction readQuoted value count rest with
  | case1 value count => cases h; rfl
  | case2 value count r hr s rest hs ih =>
    rw [ih h]
    simp only [List.length_cons]
    omega
  | case3 => cases h
  | case4 => cases h
  | case5 value count r rest hr ih =>
    rw [ih h]
    simp only [List.length_cons]
    omega

theorem quotation_between (value text : Text) :
    Node.quotation [quoteLeaf, .leaf (.literal value) text, quoteLeaf] =
      .ok (.parent (.text value) [quoteLeaf, .leaf (.literal value) text, quoteLeaf]) := rfl

/-- Quoted text without a closing quote ends at the end of the text. -/
theorem gives_quotedText : Gives k quotedText OneOperand where
  moves := exact_quotedText.moves
  found _ h := by
    obtain ⟨-, value, count, n, -, -, rfl, hn⟩ := quotedText_found_iff.1 h
    rw [quotation_between] at hn
    cases hn
    exact oneOperand_parent ..
  failed := by
    intro c next failure _ h
    rw [quotedText] at h
    split_ifs at h with hquote
    · cases h
    have hcurrent : c.current = '"' := by simpa using hquote
    obtain ⟨r, v, hrest, -⟩ := Cursor.exists_rest_of_current hcurrent (by decide)
    have hopen := Cursor.passes_next hrest
    cases hread : readQuoted [] 0 c.next.rest with
    | ok answer =>
      simp only [hread, quotation_between] at h
      cases h
    | error count =>
      simp only [hread] at h
      cases h
      -- The search for the closing quote has gone through all that was left.
      rw [readQuoted_error hread, Nat.zero_add]
      have hbody := Cursor.passes_advance (c := c.next) (List.append_nil _).symm
      exact Cursor.Blames.behind (hopen.trans hbody) (.here .unexpected)

theorem neverFails_remainingLiteral : NeverFails remainingLiteral := by
  grind [NeverFails, remainingLiteral]

theorem gives_remainingLiteral :
    Gives k remainingLiteral fun nodes => ∃ value t, nodes = [.leaf (.literal value) t] :=
  exact_remainingLiteral.gives (fun h => ⟨_, _, (remainingLiteral_found_iff.1 h).2⟩)
    neverFails_remainingLiteral

theorem gives_apostropheText : Gives k apostropheText OneOperand := by
  refine ((GiveInTurn.cons (gives_symbol .apostrophe (by decide)) <|
    .cons gives_remainingLiteral giveInTurn_nil).sequence).transform ?_
  rintro _ ⟨_, _, ⟨mark, rfl⟩, ⟨_, _, ⟨value, t, rfl⟩, rfl, rfl⟩, rfl⟩
  exact ⟨_, rfl, oneOperand_parent ..⟩

theorem gives_wholeText : Gives k wholeText OneOperand := by
  have htext : Gives k (transform remainingLiteral Node.quotation) OneOperand := by
    refine gives_remainingLiteral.transform ?_
    rintro _ ⟨value, t, rfl⟩
    exact ⟨_, rfl, oneOperand_parent ..⟩
  refine ⟨⟨wholeText_absent, fun h => htext.moves.found (wholeText_found_iff.1 h).2⟩,
    fun hlt h => htext.found hlt (wholeText_found_iff.1 h).2, fun hlt h => ?_⟩
  rw [wholeText] at h
  split_ifs at h
  · cases h
  · exact htext.failed hlt h

/-! ### References -/

/-- A mark and the characters of a class behind it, or those characters alone. -/
theorem chars_marked {p : Char → Bool} (hp : p Rune.replacement = false) (hmark : p '$' = false)
    (hnext : next = (skipAbsolute c).skip p) :
    ∃ absolute cs, (c.textTo next).chars = absoluteMark absolute ++ cs ∧
      (∀ ch ∈ cs, p ch = true) ∧ '$' ∉ cs := by
  have hrun := (skipAbsolute c).passes_skip p
  have hclass : ∀ r ∈ (skipAbsolute c).run p, p r.value = true :=
    fun r hr => (List.mem_takeWhile_imp hr :)
  have hscalar : ∀ r ∈ (skipAbsolute c).run p, r.isScalar = true := fun r hr =>
    Rune.isScalar_of_class (hclass r hr) hp
  have hchars := Text.eq_map_scalar hscalar
  have hcs : ∀ ch ∈ ((skipAbsolute c).run p).map Rune.value, p ch = true := by
    simpa using hclass
  have hdollar : '$' ∉ ((skipAbsolute c).run p).map Rune.value := by
    intro hmem
    rw [hcs _ hmem] at hmark
    cases hmark
  rw [hnext]
  -- With a mark in front the text is that rune and the run; without one it is the run.
  unfold skipAbsolute at hrun hchars hcs hdollar ⊢
  split_ifs at hrun hchars hcs hdollar ⊢ with hcurrent
  · obtain ⟨r, v, hrest, hr⟩ := Cursor.exists_rest_of_current (beq_iff_eq.1 hcurrent) (by decide)
    have hpasses := (Cursor.passes_next hrest).trans hrun
    rw [Rune.eq_scalar_of_value hr (by decide), hchars, ← List.map_singleton, ← List.map_append]
      at hpasses
    refine ⟨true, _, ?_, hcs, hdollar⟩
    rw [hpasses.textTo, Text.ofRunes_map_scalar, Text.chars_ofChars]
    rfl
  · rw [hchars] at hrun
    refine ⟨false, _, ?_, hcs, hdollar⟩
    rw [hrun.textTo, Text.ofRunes_map_scalar, Text.chars_ofChars]
    rfl

/-- The characters behind a mark are a numeral, so what fails to be read along an axis is out of
bounds. -/
theorem readLine_blames {Line : Type} {axis : Axis} {isPart : Char → Bool}
    {add : Nat → Char → Nat} {ofNumber? : Nat → Bool → Option Line} {content : Line → Content}
    (hclass : isPart Rune.replacement = false) (hdollar : isPart '$' = false)
    (h : readLine isPart (axis.parseLine isPart add ofNumber?) content c =
      (.failed failure, next)) : c.Blames failure := by
  obtain ⟨e, he, rfl⟩ := readLine_failed h
  obtain ⟨absolute, cs, hchars, hparts, hmark⟩ := chars_marked (c := c) hclass hdollar rfl
  have hsplit : splitAbsolute (c.textTo ((skipAbsolute c).skip isPart)).chars = (absolute, cs) := by
    rw [hchars, splitAbsolute_mark absolute hmark]
  rw [Axis.parseLine_error_of_parts hsplit hparts he]
  exact .here (.outOfBounds ..)

theorem readColumn_failed (h : readColumn c = (.failed failure, next)) : c.Blames failure := by
  rw [readColumn_eq_readLine, Column.parse_eq] at h
  exact readLine_blames (by decide) (by decide) h

theorem readRow_failed (h : readRow c = (.failed failure, next)) : c.Blames failure := by
  rw [readRow_eq_readLine, Row.parse_eq] at h
  exact readLine_blames (by decide) (by decide) h

theorem restoring_failed_iff :
    restoring r c = (.failed failure, next) ↔ r c = (.failed failure, next) := by
  rw [restoring]
  rcases r c with ⟨_ | _ | _, mid⟩ <;> simp

/-- A rule that reads a line finds one leaf, which is an operand. -/
theorem gives_restoring_readLine {Line : Type} {isPart : Char → Bool}
    {parse : Text → Except ReferenceError Line} {content : Line → Content}
    (hcontent : ∀ line t, (Node.leaf (content line) t).isNoise = false)
    (hblames : ∀ {c next failure},
      readLine isPart parse content c = (.failed failure, next) → c.Blames failure) :
    Gives k (restoring (readLine isPart parse content)) OneOperand where
  moves := ⟨restoring_absent, fun h => by
    obtain ⟨ws, hws, -⟩ := spells_readLine (restoring_found_iff.1 h)
    exact ⟨_, hws⟩⟩
  found _ h := by
    obtain ⟨-, -, _, -, rfl⟩ := readLine_found_iff.1 (restoring_found_iff.1 h)
    exact ⟨_, rfl, hcontent _ _⟩
  failed _ h := hblames (restoring_failed_iff.1 h)

theorem gives_column : Gives k column OneOperand := by
  rw [column, readColumn_eq_readLine]
  exact gives_restoring_readLine (fun _ _ => rfl) (readColumn_eq_readLine ▸ readColumn_failed)

theorem gives_row : Gives k row OneOperand := by
  rw [row, readRow_eq_readLine]
  exact gives_restoring_readLine (fun _ _ => rfl) (readRow_eq_readLine ▸ readRow_failed)

/-- A column and a row are accepted as a cell. -/
theorem readCell_failed (h : readCell c = (.failed failure, next)) : c.Blames failure := by
  rw [readCell] at h
  rcases hcolumn : readColumn c with ⟨_ | column | e, mid⟩
  · rw [hcolumn] at h
    cases h
  · obtain ⟨ws, hws, -⟩ := spells_readColumn hcolumn
    rw [hcolumn] at h
    rcases hrow : readRow mid with ⟨_ | row | e, last⟩
    · simp only [hrow] at h
      cases h
    -- The leaves of a column and a row make a cell, so `Node.cell` refuses nothing here.
    · simp only [hrow] at h
      split_ifs at h
      · cases h
      · obtain ⟨-, -, _, -, rfl⟩ := readColumn_found_iff.1 hcolumn
        obtain ⟨-, -, _, -, rfl⟩ := readRow_found_iff.1 hrow
        cases h
    · simp only [hrow] at h
      split_ifs at h
      · cases h
      · cases h
        exact (readRow_failed hrow).behind hws
  · simp only [hcolumn] at h
    split_ifs at h
    · cases h
      exact readColumn_failed hcolumn
    · cases h

theorem readCell_found (h : readCell c = (.found nodes, next)) :
    c.Moves nodes next ∧ OneCell nodes := by
  obtain ⟨column, mid, row, n, hcolumn, hrow, -, -, hn, rfl⟩ := readCell_found_iff.1 h
  obtain ⟨vs, hvs, -⟩ := spells_readColumn hcolumn
  obtain ⟨ws, hws, -⟩ := spells_readRow hrow
  obtain ⟨_, _, _, _, -, rfl⟩ := Node.cell_eq_ok_iff.1 hn
  exact ⟨⟨_, hvs.trans hws⟩, _, _, rfl⟩

theorem gives_cell : Gives k cell OneCell where
  moves := ⟨restoring_absent, fun h => (readCell_found (restoring_found_iff.1 h)).1⟩
  found _ h := (readCell_found (restoring_found_iff.1 h)).2
  failed _ h := readCell_failed (restoring_failed_iff.1 h)

/-- Two cells around a between symbol are accepted as a range. -/
theorem gives_cellRange : Gives k cellRange OneOperand := by
  refine ((GiveInTurn.cons gives_cell <| .cons (gives_symbol .between (by decide)) <|
    .cons gives_cell giveInTurn_nil).sequence).transform ?_
  rintro _ ⟨_, _, ⟨first, ns, rfl⟩, ⟨_, _, ⟨t, rfl⟩, ⟨_, _, ⟨last, ms, rfl⟩, rfl, rfl⟩, rfl⟩, rfl⟩
  exact ⟨_, rfl, oneOperand_parent ..⟩

/-! ### Numbers, dates and times -/

/-- The next cursor stands behind one rune, or behind none at the end of the text. -/
theorem moves_next (c : Cursor) : ∃ w, c.Passes w c.next := by
  cases hrest : c.rest with
  | nil =>
    have hstays : c.next = c := by simp [Cursor.next, Cursor.atEnd, hrest]
    rw [hstays]
    exact ⟨[], .refl c⟩
  | cons r v => exact ⟨[r], Cursor.passes_next hrest⟩

theorem moves_sign {minus plus : Char} (h : sign minus plus c = (nodes, next)) :
    ∃ w, c.Passes w next := by
  unfold sign at h
  split_ifs at h
  · cases h
    exact moves_next c
  · cases h
    exact moves_next c
  · cases h
    exact ⟨[], .refl c⟩

theorem moves_number (g : Grammar) (signed : Bool) : Keeps Cursor.Moves (number g signed) where
  restores := number_absent
  found := by
    intro c next nodes h
    obtain ⟨signs, afterSign, places, afterPlaces, power, afterPower, hundredths, n, hsigns,
      hplaces, hpower, hhundredths, -, -, -⟩ := number_found_iff.1 h
    obtain ⟨s, hs⟩ : ∃ w, c.Passes w afterSign := by
      split_ifs at hsigns
      · exact moves_sign hsigns
      · cases hsigns
        exact ⟨[], .refl c⟩
    obtain ⟨us, hu, -⟩ := spells_mantissa hplaces
    obtain ⟨vs, hv, -⟩ := spells_exponent hpower
    obtain ⟨-, rfl⟩ := Prod.mk.inj hhundredths
    exact ⟨_, ((hs.trans hu).trans hv).trans (afterPower.passes_skip _)⟩

theorem places_ne_nil {separator : Char} (h : mantissa separator c = some (nodes, next)) :
    nodes ≠ [] := by
  simp only [mantissa] at h
  split at h
  · split_ifs at h with hempty
    cases h
    intro hnil
    simp_all
  · split_ifs at h with hempty
    cases h
    simpa using hempty

/-- A number fails when its digits have no value; the leaves of any other number are accepted. -/
theorem gives_number {g : Grammar} (hpercent : g.locale.percentSymbol ≠ nul) (signed : Bool) :
    Gives k (number g signed) OneOperand where
  moves := moves_number g signed
  found _ h := by
    obtain ⟨_, _, _, _, _, _, _, n, -, -, -, -, -, hn, rfl⟩ := number_found_iff.1 h
    obtain ⟨-, _, -, rfl⟩ := Node.number_eq_ok_iff.1 hn
    exact oneOperand_parent ..
  failed := by
    intro c next failure _ h
    simp only [number] at h
    generalize hsigns : (if signed = true then _ else _ : List Node × Cursor) = signs at h
    split at h
    · cases h
    · rename_i places afterPlaces hplaces
      split_ifs at h with hend
      · exact absurd (beq_iff_eq.1 (Bool.and_eq_true_iff.1 hend).2) hpercent
      -- The leaves are those of a numeral, so the only fault there can be is that of its value.
      · split at h
        · rename_i value hvalue
          rw [Node.number_eq_ok_iff.2 ⟨?_, value, hvalue, rfl⟩] at h
          · cases h
          · have hne := places_ne_nil hplaces
            simp [hne]
        · rename_i fault hfault
          cases h
          have hchildren := isNumeral_children g.lexicon.exponent g.locale.percentSymbol
            (isNumeral_signs hsigns) hplaces
          exact .here (.number _ _ (isValid_message_of_numberValue hchildren hfault))

theorem neverFails_digitsComponent (component : Component) (fewest most low high : Nat) :
    NeverFails (digitsComponent component fewest most low high) := by
  intro c next failure
  simp only [digitsComponent]
  split_ifs
  · simp
  · split <;> [split_ifs; skip] <;> simp

theorem gives_digitsComponent {component : Component} {fewest most low high : Nat} :
    Gives k (digitsComponent component fewest most low high) (· ≠ []) :=
  (exact_digitsComponent component fewest most low high).gives (fun h => by
    obtain ⟨-, -, -, _, -, -, -, rfl⟩ := digitsComponent_found_iff.1 h
    exact List.cons_ne_nil _ _) (neverFails_digitsComponent _ _ _ _ _)

theorem neverFails_secondFraction : NeverFails secondFraction := by
  intro c next failure
  simp only [secondFraction]
  split_ifs
  · simp
  · split <;> simp

theorem gives_secondFraction : Gives k secondFraction (· ≠ []) :=
  exact_secondFraction.gives (fun h => by
    obtain ⟨-, -, -, _, -, rfl⟩ := secondFraction_found_iff.1 h
    exact List.cons_ne_nil _ _) neverFails_secondFraction

theorem neverFails_nameComponent (component : Component) (words : WordList Int) :
    NeverFails (nameComponent component words) := by
  intro c next failure
  simp only [nameComponent]
  split <;> simp

theorem gives_nameComponent {component : Component} {words : WordList Int} :
    Gives k (nameComponent component words) (· ≠ []) :=
  (exact_nameComponent component words).gives (fun h => by
    obtain ⟨_, -, rfl⟩ := nameComponent_found_iff.1 h
    exact List.cons_ne_nil _ _) (neverFails_nameComponent _ _)

end Rule

end SheetFormula
