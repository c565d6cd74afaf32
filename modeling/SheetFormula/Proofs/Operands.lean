import SheetFormula.Proofs.StandingNames

/-!
# Operands of one token

An operand is a token of its own or is made of operands inside it.  What is read as one token is
read so wherever it stands in front of a stop, whatever operands look like otherwise: `IsToken`.
-/

namespace SheetFormula

open Cursor (Clear)

/-- `n` is an operand of one token, written as `w`. -/
structure IsToken (n : Node) (w : List Rune) : Prop where
  finds : ∀ inner : Rule, (Rule.operandOf .american inner).Finds Stops [n] w
  sealed : Text.Sealed w
  spells : n.text = .ofRunes w
  solid : n.IsSolid
  operand : n.isNoise = false
  starts : ∃ r v, w = r :: v ∧ r.value ∉ stopChars

namespace Rule

variable {inner : Rule} {c next : Cursor} {nodes : List Node} {w : List Rune} {r : Rune}
  {v : List Rune} {F : List Rune → Prop}

/-! ### What is absent by its first character -/

theorem transform_symbol_absent {s : Symbol} {ch : Char} {rules : List Rule}
    {build : List Node → Except Defect Node} (h : r.value ≠ ch) :
    (transform (sequence (symbol s [ch] :: rules)) build).Misses F (r :: v) := by
  intro p rest _
  rw [transform_absent_iff]
  exact sequence_absent (symbol_absent h)

theorem negativeOf_misses (h : r.value ≠ '-') : (negativeOf inner).Misses F (r :: v) :=
  transform_symbol_absent h

theorem groupOf_misses (h : r.value ≠ '(') : (groupOf inner).Misses F (r :: v) :=
  transform_symbol_absent h

theorem quotedText_misses (h : r.value ≠ '"') : quotedText.Misses F (r :: v) := by
  intro p rest _
  simp [quotedText, h]

theorem errorLiteral_misses (h : r.value ≠ '#') : errorLiteral.Misses F (r :: v) := by
  intro p rest _
  simp [errorLiteral, h]

theorem number_misses (h : isDecimal r.value = false) :
    (number .american false).Misses F (r :: v) := by
  intro p rest _
  rw [isDecimal, Bool.or_eq_false_iff] at h
  rw [List.cons_append]
  have hdigits : digits ⟨p, r :: (v ++ rest)⟩ = ([], ⟨p, r :: (v ++ rest)⟩) :=
    digits_append (v := []) (by simp) (Cursor.clear_cons.2 h.1)
  have hmantissa : mantissa (Grammar.american).locale.decimalSeparator ⟨p, r :: (v ++ rest)⟩ =
      none := by
    have hpoint : (r.value == (Grammar.american).locale.decimalSeparator) = false := h.2
    simp [mantissa, hdigits, fraction, hpoint]
  simp [number, hmantissa]

theorem lambdaName_misses (h : functionName.Misses F w) : lambdaName.Misses F w := by
  intro p rest hrest
  simp [lambdaName, h hrest]

theorem lambdaOf_misses (h : functionName.Misses F w) :
    (lambdaOf .american inner).Misses F w := by
  intro p rest hrest
  rw [lambdaOf, transform_absent_iff]
  exact sequence_absent (lambdaName_misses h hrest)

theorem namedFunctionOf_misses (h : functionName.Misses F w) :
    (namedFunctionOf .american inner).Misses F w := by
  intro p rest hrest
  rw [namedFunctionOf, transform_absent_iff]
  exact sequence_absent (h hrest)

/-- The rules that tell names apart, where no parenthesis is written. -/
def nameRules : List Rule := [boolean, cellRange, cell, label]

/-- What starts with none of the marks of the other operands is told apart as a name. -/
theorem operandOf_finds_name (hr : r.value ∉ ['-', '(', '"', '#'])
    (hnumber : isDecimal r.value = false)
    (hw : ∀ s ∈ r :: v, s.value ≠ '(') (h : (alternatives nameRules).Finds Stops nodes (r :: v)) :
    (operandOf .american inner).Finds Stops nodes (r :: v) := by
  simp only [List.mem_cons, List.not_mem_nil, or_false, not_or] at hr
  have hfunction := functionName_misses hw
  exact (negativeOf_misses hr.1).alternatives <| (groupOf_misses hr.2.1).alternatives <|
    (quotedText_misses hr.2.2.1).alternatives <| (errorLiteral_misses hr.2.2.2).alternatives <|
    (number_misses hnumber).alternatives <| (lambdaOf_misses hfunction).alternatives <|
    (namedFunctionOf_misses hfunction).alternatives h

/-! ### Tokens -/

theorem spells_american : Invariant .american Cursor.Spells :=
  invariant_spells Locale.hasPlainSigns_default

theorem text_of_spells {n : Node} (h : c.Spells [n] next) (hw : c.Passes w next) :
    n.text = .ofRunes w := by
  obtain ⟨w', hw', htext⟩ := h.text
  rw [hw.unique hw']
  simpa using htext

/-- What one of the rules for a single token reads is a token. -/
def ReadsToken (c : Cursor) (nodes : List Node) (next : Cursor) : Prop :=
  ∃ n w, nodes = [n] ∧ c.Passes w next ∧ IsToken n w

theorem readsToken_quotedText (hsettled : Text.Settled c.rest)
    (h : quotedText c = (.found nodes, next)) : ReadsToken c nodes next := by
  obtain ⟨v, hw, hfinds⟩ := quotedText_finds h
  obtain ⟨-, value, count, n, -, -, rfl, hn⟩ := quotedText_found_iff.1 h
  refine ⟨n, _, rfl, hw, ⟨fun inner => ?_, ?_, text_of_spells (exact_quotedText.found h) hw, ?_, ?_,
    .scalar '"', _, rfl, by decide⟩⟩
  · exact (negativeOf_misses (by decide)).alternatives <|
      (groupOf_misses (by decide)).alternatives hfinds.alternatives
  · rw [hw.rest] at hsettled
    have hread : Text.Settled ((.scalar '"' :: v) ++ .scalar '"' :: next.rest) := by
      simpa using hsettled
    exact hread.sealed_of_ascii (by decide)
  · obtain ⟨-, _, -, rfl⟩ := Node.quotation_eq_ok_iff.1 hn
    simp [quoteLeaf]
  · obtain ⟨-, _, -, rfl⟩ := Node.quotation_eq_ok_iff.1 hn
    exact Node.isNoise_parent ..

theorem readsToken_errorLiteral (hsettled : Text.Settled c.rest)
    (h : errorLiteral c = (.found nodes, next)) : ReadsToken c nodes next := by
  obtain ⟨v, hw, hscalar, hfinds⟩ := errorLiteral_finds hsettled h
  have hspells := exact_errorLiteral.found h
  obtain ⟨-, word, -, rfl⟩ := errorLiteral_found_iff.1 h
  refine ⟨_, _, rfl, hw, ⟨fun inner => ?_, ?_, text_of_spells hspells hw, by simp, rfl,
    .scalar '#', _, rfl, by decide⟩⟩
  · exact (negativeOf_misses (by decide)).alternatives <|
      (groupOf_misses (by decide)).alternatives <|
      (quotedText_misses (by decide)).alternatives (hfinds Stops).alternatives
  · exact Text.sealed_of_isScalar (List.forall_mem_cons.2 ⟨rfl, hscalar⟩)

theorem readsToken_number (hsettled : Text.Settled c.rest)
    (h : number .american false c = (.found nodes, next)) : ReadsToken c nodes next := by
  obtain ⟨r, v, hw, hr, hscalar, hsolid, hfinds⟩ := number_finds hsettled h
  have hspells := spells_american.number.found h
  obtain ⟨_, _, _, _, _, _, _, n, -, -, -, -, -, hn, rfl⟩ := number_found_iff.1 h
  have hne {ch : Char} (hch : isDecimal ch = false) : r.value ≠ ch := by
    rintro rfl
    rw [hr] at hch
    cases hch
  refine ⟨n, _, rfl, hw, ⟨fun inner => ?_, Text.sealed_of_isScalar hscalar,
    text_of_spells hspells hw, by simpa using hsolid, ?_, r, v, rfl, fun hstop => ?_⟩⟩
  · exact (negativeOf_misses (hne rfl)).alternatives <| (groupOf_misses (hne rfl)).alternatives <|
      (quotedText_misses (hne rfl)).alternatives <|
      (errorLiteral_misses (hne rfl)).alternatives hfinds.alternatives
  · obtain ⟨-, _, -, rfl⟩ := Node.number_eq_ok_iff.1 hn
    exact Node.isNoise_parent ..
  · have hclass : ∀ ch ∈ stopChars, isDecimal ch = false := by decide
    rw [hclass _ hstop] at hr
    cases hr

/-! ### Names as tokens -/

theorem cellRange_misses_of_cell (h : cell.Finds Stops nodes w) : cellRange.Misses Stops w := by
  intro p rest hrest
  have hcolon : symbol .between [':'] ⟨p + w.length, rest⟩ = (.absent, ⟨p + w.length, rest⟩) := by
    rw [symbol_absent_iff]
    refine ⟨?_, rfl⟩
    cases rest with
    | nil => rfl
    | cons r rest =>
      have hr : r.value ≠ ':' := by
        rintro heq
        exact absurd (heq ▸ stops_cons.1 hrest) (by decide)
      simp [Cursor.shows, hr]
  rw [cellRange, transform_absent_iff]
  simp [sequence, sequenceFrom, h hrest, hcolon]

theorem cellRange_misses_of_cell_misses (h : cell.Misses F w) : cellRange.Misses F w := by
  intro p rest hrest
  rw [cellRange, transform_absent_iff]
  exact sequence_absent (h hrest)

/-- A name token: what it starts with, that no parenthesis is in it and that it is found. -/
theorem isToken_name {n : Node} (hr : r.value ∉ ['-', '(', '"', '#'])
    (hnumber : isDecimal r.value = false) (hstart : r.value ∉ stopChars)
    (hw : ∀ s ∈ r :: v, s.isScalar = true ∧ s.value ≠ '(')
    (hfinds : (alternatives nameRules).Finds Stops [n] (r :: v))
    (hspells : n.text = .ofRunes (r :: v))
    (hsolid : n.IsSolid) (hnoise : n.isNoise = false) : IsToken n (r :: v) :=
  ⟨fun _ => operandOf_finds_name hr hnumber (fun s hs => (hw s hs).2) hfinds,
    Text.sealed_of_isScalar fun s hs => (hw s hs).1, hspells, hsolid, hnoise, r, v, rfl, hstart⟩

theorem not_mem_of_class {q : Char → Bool} {ch : Char} (h : q ch = true) {chars : List Char}
    (hchars : ∀ ch ∈ chars, q ch = false) : ch ∉ chars := by
  intro hmem
  rw [hchars ch hmem] at h
  cases h

theorem isDecimal_eq_false_of_class {q : Char → Bool} {ch : Char} (h : q ch = true)
    (hchars : ∀ ch ∈ '.' :: digitChars, q ch = false) : isDecimal ch = false := by
  rw [isDecimal, Bool.or_eq_false_iff, Bool.eq_false_iff, beq_eq_false_iff_ne]
  have hnot := not_mem_of_class h hchars
  rw [List.mem_cons, not_or] at hnot
  exact ⟨fun hdigit => hnot.2 (mem_digitChars hdigit), hnot.1⟩

theorem readsToken_boolean (hsettled : Text.Settled c.rest)
    (h : boolean c = (.found nodes, next)) : ReadsToken c nodes next := by
  obtain ⟨r, v, hw, hmarks, -, hfinds⟩ := boolean_finds hsettled h
  have hspells := exact_boolean.found h
  obtain ⟨-, -, word, -, rfl⟩ := boolean_found_iff.1 h
  have hr := (hmarks r (List.mem_cons_self ..)).2
  have hsub {chars : List Char} (hchars : ∀ ch ∈ chars, ch ∈ markChars) : r.value ∉ chars :=
    fun hmem => hr (hchars _ hmem)
  refine ⟨_, _, rfl, hw, isToken_name (hsub (by decide)) (isDecimal_eq_false hr) (hsub (by decide))
    (fun s hs => ⟨(hmarks s hs).1, fun heq => (hmarks s hs).2 (by rw [heq]; decide)⟩) ?_
    (text_of_spells hspells hw) (by simp) rfl⟩
  exact (hfinds.mono fun _ => Stops.clear_namePart).alternatives

theorem isToken_reference {n : Node} (hw : IsReferenceText w)
    (hfinds : (alternatives nameRules).Finds Stops [n] w) (hspells : n.text = .ofRunes w)
    (hsolid : n.IsSolid) (hnoise : n.isNoise = false) : IsToken n w := by
  obtain ⟨r, v, rfl, hr, hparts⟩ := hw
  refine isToken_name (not_mem_of_class hr (by decide)) (isDecimal_eq_false_of_class hr (by decide))
    (not_mem_of_class hr (by decide)) (fun s hs => ⟨?_, ?_⟩) hfinds hspells hsolid hnoise
  · exact Rune.isScalar_of_class (hparts s hs) (by decide)
  · rintro heq
    exact absurd (heq ▸ hparts s hs) (by decide)

theorem readsToken_cellRange (hboolean : boolean c = (.absent, c))
    (h : cellRange c = (.found nodes, next)) : ReadsToken c nodes next := by
  obtain ⟨w, hreference, hw, hclear, hsolid, hfinds⟩ := cellRange_finds h
  have hspells := spells_american.cellRange.found h
  obtain ⟨children, n, -, hn, rfl⟩ := transform_found_iff.1 h
  obtain ⟨pos, rest⟩ := c
  obtain rfl : rest = w ++ next.rest := hw.rest
  refine ⟨n, w, rfl, hw, isToken_reference hreference ?_ (text_of_spells hspells hw)
    (by simpa using hsolid) ?_⟩
  · exact (boolean_misses hboolean hclear).alternatives
      (hfinds.mono fun _ => Stops.clear_namePart).alternatives
  · obtain ⟨_, _, _, _, -, -, rfl⟩ := Node.cellRange_eq_ok_iff.1 hn
    exact Node.isNoise_parent ..

theorem readsToken_cell (hboolean : boolean c = (.absent, c))
    (h : cell c = (.found nodes, next)) : ReadsToken c nodes next := by
  obtain ⟨a, letters, b, digits, hcell, hw, hclear, hsolid, hfinds⟩ := cell_finds h
  have hspells := spells_american.cell.found h
  obtain ⟨_, _, _, n, -, -, -, -, hn, rfl⟩ := readCell_found_iff.1 (cell_found_iff.1 h)
  have hreference := hcell.isReferenceText
  generalize a ++ letters ++ (b ++ digits) = w at hw hfinds hreference
  obtain ⟨pos, rest⟩ := c
  obtain rfl : rest = w ++ next.rest := hw.rest
  have hstops := hfinds.mono fun _ => Stops.clear_namePart
  refine ⟨n, w, rfl, hw, isToken_reference hreference ?_ (text_of_spells hspells hw)
    (by simpa using hsolid) ?_⟩
  · exact (boolean_misses hboolean hclear).alternatives <|
      (cellRange_misses_of_cell hstops).alternatives hstops.alternatives
  · obtain ⟨_, _, _, _, -, rfl⟩ := Node.cell_eq_ok_iff.1 hn
    exact Node.isNoise_parent ..

theorem readsToken_label (hboolean : boolean c = (.absent, c)) (hcell : cell c = (.absent, c))
    (h : label c = (.found nodes, next)) : ReadsToken c nodes next := by
  obtain ⟨r, v, hw, hstart, hparts, hclear, ⟨name, text, rfl⟩, hfinds⟩ := label_finds h
  have hspells := exact_label.found h
  obtain ⟨pos, rest⟩ := c
  obtain rfl : rest = r :: v ++ next.rest := hw.rest
  have hcell' := cell_misses hparts hclear hcell
  refine ⟨_, _, rfl, hw, isToken_name (not_mem_of_class hstart (by decide)) ?_
    (not_mem_of_class hstart (by decide)) (fun s hs => ⟨?_, ?_⟩) ?_ (text_of_spells hspells hw)
    (by simp) rfl⟩
  · exact isDecimal_eq_false_of_class hstart (by decide)
  · exact Rune.isScalar_of_class (hparts s hs) (by decide)
  · rintro heq
    exact absurd (heq ▸ hparts s hs) (by decide)
  · exact (boolean_misses hboolean hclear).alternatives <|
      (cellRange_misses_of_cell_misses hcell').alternatives <| hcell'.alternatives <|
      (hfinds.mono fun _ => Stops.clear_namePart).alternatives

/-! ### All operands -/

/-- One of the rules for names finds something, and those tried before it do not. -/
def FindsName (c : Cursor) (nodes : List Node) (next : Cursor) : Prop :=
  boolean c = (.found nodes, next) ∨ boolean c = (.absent, c) ∧
    (cellRange c = (.found nodes, next) ∨ cell c = (.found nodes, next) ∨
      cell c = (.absent, c) ∧ label c = (.found nodes, next))

/-- One of the rules for a single token finds something. -/
def FindsToken (c : Cursor) (nodes : List Node) (next : Cursor) : Prop :=
  quotedText c = (.found nodes, next) ∨ errorLiteral c = (.found nodes, next) ∨
    number .american false c = (.found nodes, next) ∨ FindsName c nodes next

theorem findsName_of_found (h : alternatives nameRules c = (.found nodes, next)) :
    FindsName c nodes next := by
  rcases alternatives_cons_found_iff.1 h with hfirst | ⟨mid, hboolean, h1⟩
  · exact .inl hfirst
  obtain rfl := boolean_absent hboolean
  refine .inr ⟨hboolean, ?_⟩
  rcases alternatives_cons_found_iff.1 h1 with hfirst | ⟨mid, hrange, h2⟩
  · exact .inl hfirst
  obtain rfl := transform_sequence_absent hrange
  rcases alternatives_cons_found_iff.1 h2 with hfirst | ⟨mid, hcell, h3⟩
  · exact .inr (.inl hfirst)
  obtain rfl := restoring_absent hcell
  rcases alternatives_cons_found_iff.1 h3 with hfirst | ⟨mid, -, h4⟩
  · exact .inr (.inr ⟨hcell, hfirst⟩)
  · cases h4

theorem FindsName.readsToken (hsettled : Text.Settled c.rest) (h : FindsName c nodes next) :
    ReadsToken c nodes next := by
  rcases h with hfound | ⟨hboolean, hrange | hcell | ⟨habsent, hlabel⟩⟩
  · exact readsToken_boolean hsettled hfound
  · exact readsToken_cellRange hboolean hrange
  · exact readsToken_cell hboolean hcell
  · exact readsToken_label hboolean habsent hlabel

theorem FindsToken.readsToken (hsettled : Text.Settled c.rest) (h : FindsToken c nodes next) :
    ReadsToken c nodes next := by
  rcases h with hquoted | herror | hnumber | hname
  · exact readsToken_quotedText hsettled hquoted
  · exact readsToken_errorLiteral hsettled herror
  · exact readsToken_number hsettled hnumber
  · exact hname.readsToken hsettled

/-- An operand is made of operands inside it, or it is a single token. -/
theorem operandOf_cases (h : operandOf .american inner c = (.found nodes, next)) :
    negativeOf inner c = (.found nodes, next) ∨ groupOf inner c = (.found nodes, next) ∨
      lambdaOf .american inner c = (.found nodes, next) ∨
      namedFunctionOf .american inner c = (.found nodes, next) ∨ FindsToken c nodes next := by
  -- The alternatives are tried in their order, and one that is absent leaves the cursor where it
  -- was.
  rcases alternatives_cons_found_iff.1 h with hfirst | ⟨mid, hnegative, h1⟩
  · exact .inl hfirst
  obtain rfl := transform_sequence_absent hnegative
  rcases alternatives_cons_found_iff.1 h1 with hfirst | ⟨mid, hgroup, h2⟩
  · exact .inr (.inl hfirst)
  obtain rfl := transform_sequence_absent hgroup
  rcases alternatives_cons_found_iff.1 h2 with hfirst | ⟨mid, hquoted, h3⟩
  · exact .inr (.inr (.inr (.inr (.inl hfirst))))
  obtain rfl := quotedText_absent hquoted
  rcases alternatives_cons_found_iff.1 h3 with hfirst | ⟨mid, herror, h4⟩
  · exact .inr (.inr (.inr (.inr (.inr (.inl hfirst)))))
  obtain rfl := errorLiteral_absent herror
  rcases alternatives_cons_found_iff.1 h4 with hfirst | ⟨mid, hnumber, h5⟩
  · exact .inr (.inr (.inr (.inr (.inr (.inr (.inl hfirst))))))
  obtain rfl := number_absent hnumber
  rcases alternatives_cons_found_iff.1 h5 with hfirst | ⟨mid, hlambda, h6⟩
  · exact .inr (.inr (.inl hfirst))
  obtain rfl := transform_sequence_absent hlambda
  rcases alternatives_cons_found_iff.1 h6 with hfirst | ⟨mid, hfunction, h7⟩
  · exact .inr (.inr (.inr (.inl hfirst)))
  obtain rfl := transform_sequence_absent hfunction
  exact .inr (.inr (.inr (.inr (.inr (.inr (.inr (findsName_of_found h7)))))))

/-- The rule finds nothing anywhere. -/
def NeverFinds (r : Rule) : Prop := ∀ ⦃c : Cursor⦄ ⦃nodes : List Node⦄ ⦃next : Cursor⦄,
  r c ≠ (.found nodes, next)

theorem NeverFinds.required {r : Rule} (h : NeverFinds r) : NeverFinds (required r) :=
  fun _ _ _ hfound => h (required_found_iff.1 hfound)

/-- A part that is never found keeps the whole from being found. -/
theorem NeverFinds.transform {r : Rule} {rules : List Rule} {build : List Node → Except Defect Node}
    (h : NeverFinds r) (hmem : r ∈ rules) : NeverFinds (transform (sequence rules) build) := by
  suffices hturn : ∀ {start : Cursor}, NeverFinds (sequenceFrom start rules) by
    intro c nodes next hfound
    obtain ⟨children, -, hrun, -, -⟩ := transform_found_iff.1 hfound
    exact hturn hrun
  intro start
  induction rules with
  | nil => cases hmem
  | cons r' rules ih =>
    intro c nodes next hfound
    obtain ⟨first, mid, more, hfirst, hmore, -⟩ := sequenceFrom_cons_found_iff.1 hfound
    rcases List.mem_cons.1 hmem with rfl | hmem
    · exact h hfirst
    · exact ih hmem hmore

/-- A token is found whatever the rule for the operands inside an operand is, also where there are
none, and so by one of the rules for a single token. -/
theorem findsToken_of_isToken {n : Node} (h : IsToken n w) :
    FindsToken ⟨0, w⟩ [n] ⟨w.length, []⟩ := by
  have hfound := h.finds (operandIn .american 0) (p := 0) stops_nil
  rw [List.append_nil, Nat.zero_add] at hfound
  have hinner : NeverFinds (operandIn .american 0) := fun c nodes next hfound => by cases hfound
  have hexpression : NeverFinds (expressionOf (operandIn .american 0)) :=
    hinner.transform (List.mem_cons_self ..)
  -- Arguments may be missing, but without operands inside they are an error.
  have harguments : NeverFinds (optional (arguments .american (operandIn .american 0))) := by
    intro c nodes next hfound
    rcases optional_found_iff.1 hfound with hsome | ⟨hnone, -⟩
    · cases hsome
    · cases hnone
  have hparameters : NeverFinds (parametersOf .american (operandIn .american 0)) :=
    harguments.transform (by simp)
  rcases operandOf_cases hfound with hnegative | hgroup | hlambda | hcall | htoken
  · exact (hinner.required.transform (by simp) hnegative).elim
  · exact (hexpression.required.transform (by simp) hgroup).elim
  · exact (hparameters.transform (by simp) hlambda).elim
  · exact (hparameters.transform (by simp) hcall).elim
  · exact htoken

end Rule

end SheetFormula
