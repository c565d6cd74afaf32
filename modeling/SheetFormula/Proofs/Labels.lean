import SheetFormula.Proofs.Failing
import SheetFormula.Proofs.Keys
import SheetFormula.Proofs.Rereading

/-!
# Labels as operands

A label is the last operand that is tried, behind all other tokens.  Of these only a boolean and a
cell can stand where a label stands, and a cell does not have to be there to get in the way: letters
that are no column of the worksheet are an error as soon as a digit follows them, even where the
name goes on and no cell is meant.
-/

namespace SheetFormula

open Cursor (Clear)

/-- The letters that a name begins with, if a digit follows them: a cell would have them for its
column. -/
def Text.columnPart? (t : Text) : Option Text :=
  if (t.runes.dropWhile fun r => isLetter r.value).head?.any fun r => isDigit r.value then
    some (.ofRunes (t.runes.takeWhile fun r => isLetter r.value))
  else
    none

/-- Letters followed only by digits, as in a cell. -/
def Text.IsCellShaped (t : Text) : Prop :=
  ∃ letters digits : List Rune, t.runes = letters ++ digits ∧
    letters ≠ [] ∧ (∀ r ∈ letters, isLetter r.value = true) ∧
    digits ≠ [] ∧ ∀ r ∈ digits, isDigit r.value = true

theorem Text.not_isCellShaped {t : Text} (h : .scalar '_' ∈ t.runes) : ¬ t.IsCellShaped := by
  rintro ⟨letters, digits, ht, -, hletters, -, hdigits⟩
  rw [ht, List.mem_append] at h
  rcases h with h | h
  · exact absurd (hletters _ h) (by decide)
  · exact absurd (hdigits _ h) (by decide)

theorem Text.columnPart?_eq {t : Text} {letters tail : List Rune} (ht : t.runes = letters ++ tail)
    (hletters : ∀ r ∈ letters, isLetter r.value = true) (htail : Clear isLetter tail) :
    t.columnPart? =
      if tail.head?.any fun r => isDigit r.value then some (.ofRunes letters) else none := by
  have hdrop : (letters ++ tail).dropWhile (fun r => isLetter r.value) = tail := by
    rw [List.dropWhile_append_of_pos hletters]
    cases tail with
    | nil => rfl
    | cons r tail => rw [List.dropWhile_cons_of_neg (by rw [Cursor.clear_cons.1 htail]; decide)]
  have htake : (letters ++ tail).takeWhile (fun r => isLetter r.value) = letters := by
    rw [List.takeWhile_append_of_pos hletters]
    cases tail with
    | nil => simp
    | cons r tail =>
      rw [List.takeWhile_cons_of_neg (by rw [Cursor.clear_cons.1 htail]; decide), List.append_nil]
  rw [columnPart?, ht, hdrop, htake]

namespace Rule

variable {c next : Cursor} {r : Rune} {v w : List Rune} {rules : List Rule} {failure : Failure}

/-! ### What is tried in front of a label -/

theorem alternatives_of_absent {rule : Rule} (h : rule c = (.absent, c)) :
    alternatives (rule :: rules) c = alternatives rules c := by
  simp [alternatives, h]

/-- Where a name is written, the operand is one of the tokens that are names. -/
theorem operandOf_name {inner : Rule} (hstart : isLabelStart r.value = true)
    (hparts : ∀ s ∈ r :: v, isLabelPart s.value = true) :
    operandOf .american inner ⟨0, r :: v⟩ = alternatives nameRules ⟨0, r :: v⟩ := by
  have hmisses {rule : Rule} (h : rule.Misses Stops (r :: v)) :
      rule ⟨0, r :: v⟩ = (.absent, ⟨0, r :: v⟩) := by
    simpa using h (p := 0) stops_nil
  have hmark {ch : Char} (hch : isLabelStart ch = false) : r.value ≠ ch := by
    rintro rfl
    rw [hstart] at hch
    cases hch
  have hfunction : functionName.Misses Stops (r :: v) := functionName_misses fun s hs heq =>
    absurd (heq ▸ hparts s hs) (by decide)
  rw [operandOf, alternatives_of_absent (hmisses (negativeOf_misses (hmark rfl))),
    alternatives_of_absent (hmisses (groupOf_misses (hmark rfl))),
    alternatives_of_absent (hmisses (quotedText_misses (hmark rfl))),
    alternatives_of_absent (hmisses (errorLiteral_misses (hmark rfl))),
    alternatives_of_absent (hmisses (number_misses
      (isDecimal_eq_false_of_class hstart (by decide)))),
    alternatives_of_absent (hmisses (lambdaOf_misses hfunction)),
    alternatives_of_absent (hmisses (namedFunctionOf_misses hfunction))]
  rfl

/-- Every part of a name takes one byte. -/
theorem size_ofRunes (hw : ∀ s ∈ w, isLabelPart s.value = true) :
    (Text.ofRunes w).size = w.length := by
  have hone (ch : Char) (h : isLabelPart ch = true) : ch.utf8Size = 1 := by
    rw [Char.utf8Size_eq_one_iff, UInt32.le_iff_toNat_le]
    simp only [isLabelPart, isLetter, isDigit, Bool.or_eq_true, Bool.and_eq_true,
      decide_eq_true_eq, beq_iff_eq, Char.le_def, UInt32.le_iff_toNat_le] at h
    rcases h with (((h | h) | h) | rfl) | rfl
    · exact Nat.le_trans h.2 (by decide)
    · exact Nat.le_trans h.2 (by decide)
    · exact Nat.le_trans h.2 (by decide)
    · decide
    · decide
  have hbytes : ∀ s ∈ w, s.bytes.length = 1 := by
    intro s hs
    cases s with
    | scalar ch =>
      have hch : isLabelPart ch = true := hw (.scalar ch) hs
      rw [Rune.bytes, String.length_utf8EncodeChar, hone ch hch]
    | stray b => rfl
  rw [Text.size, Text.ofRunes, List.length_flatMap, List.map_congr_left hbytes]
  simp

/-- A name that is no boolean does not begin with one either. -/
theorem boolean_absent_of_name (hw : ∀ s ∈ w, isLabelPart s.value = true)
    (h : isBoolean (.ofRunes w) = false) (hread : (Text.ofRunes w).runes = w) :
    boolean ⟨0, w⟩ = (.absent, ⟨0, w⟩) := by
  cases hmatch : booleanWords.matchWhole ⟨0, w⟩ with
  | none => simp [boolean, hmatch]
  | some found =>
    obtain ⟨word, next⟩ := found
    obtain ⟨hmatchAt, -⟩ := WordList.matchWhole_eq_some_iff.1 hmatch
    obtain ⟨hlongest, rfl⟩ := WordList.matchAt_eq_some hmatchAt
    obtain ⟨hle, -, -⟩ := WordList.standsAt_iff.1 (WordList.longestAt_spec hlongest).2.1
    -- Something of the name is left behind the word, for the name is no boolean.
    have hlt : word.length < w.length := by
      refine Nat.lt_of_le_of_ne hle fun heq => ?_
      rw [isBoolean, Cursor.start, hread, hmatch, size_ofRunes hw] at h
      simp [heq] at h
    have hnext : isLabelPart (Cursor.current ⟨0 + word.length, w.drop word.length⟩) = true := by
      rw [List.drop_eq_getElem_cons hlt]
      exact hw _ (List.getElem_mem hlt)
    have hnext' : isLabelPart (Cursor.current (Cursor.advance ⟨0, w⟩ word.length)) = true := hnext
    simp [boolean, hmatch, hnext']

/-! ### Cells in the place of a label -/

/-- Letters that are no column are an error where a digit follows them. -/
theorem cell_failed_of_column {letters tail : List Rune} {p : Nat} {e : ReferenceError}
    (hne : letters ≠ []) (hletters : ∀ s ∈ letters, isLetter s.value = true)
    (hdigit : isDigit r.value = true) (he : Column.parse (.ofRunes letters) = .error e) :
    cell ⟨p, letters ++ r :: tail⟩ =
      (.failed (.parse ⟨p, .reference e⟩), ⟨p + letters.length, r :: tail⟩) := by
  have hcolumn := readColumn_append (p := p) (.inl rfl) hne hletters
    (Cursor.clear_cons.2 (isLetter_eq_false hdigit) : Clear isLetter (r :: tail))
  rw [List.nil_append, List.nil_append, he] at hcolumn
  have hfollows : rowFollows ⟨p + letters.length, r :: tail⟩ = true := by
    simp [rowFollows, hdigit]
  simp [cell, restoring, readCell, hcolumn, hfollows]

/-- What a cell is where a label is written: its column is out of bounds, or there is no cell. -/
theorem cell_of_name {t : Text} (ht : t.runes = r :: v) (hstart : isLabelStart r.value = true)
    (hparts : ∀ s ∈ r :: v, isLabelPart s.value = true) (hshape : ¬ t.IsCellShaped) :
    match t.columnPart?.map Column.parse with
    | some (.error e) => ∃ stop, cell ⟨0, r :: v⟩ = (.failed (.parse ⟨0, .reference e⟩), stop)
    | _ => cell ⟨0, r :: v⟩ = (.absent, ⟨0, r :: v⟩) := by
  have hnot {s : Rune} (hs : isLabelPart s.value = true) {ch : Char}
      (hch : isLabelPart ch = false) : (s.value == ch) = false := by
    rw [beq_eq_false_iff_ne]
    rintro rfl
    rw [hs] at hch
    cases hch
  by_cases hletter : isLetter r.value = true
  · obtain ⟨letters, tail, hsplit, hne, hletters, htail⟩ := exists_run (v := v) hletter
    rw [Text.columnPart?_eq (ht.trans hsplit) hletters htail]
    rw [hsplit] at ht hparts ⊢
    have hparts := (List.forall_mem_append.1 hparts).2
    cases tail with
    | nil =>
      exact cell_absent_of_column hne hletters Cursor.clear_nil Cursor.clear_nil Cursor.clear_nil
    | cons s tail =>
      rw [List.head?_cons, Option.any_some]
      cases hdigit : isDigit s.value with
      | false =>
        exact cell_absent_of_column hne hletters htail (Cursor.clear_cons.2 hdigit)
          (Cursor.clear_cons.2 (hnot (hparts s (List.mem_cons_self ..)) rfl))
      | true =>
        simp only [if_true, Option.map_some]
        cases hcolumn : Column.parse (.ofRunes letters) with
        | error e => exact ⟨_, cell_failed_of_column hne hletters hdigit hcolumn⟩
        | ok column =>
          -- Behind the digits the name goes on, or it would have the shape of a cell.
          obtain ⟨digits, more, hmore, hdne, hdigits, hclear⟩ := exists_run (v := tail) hdigit
          rw [hmore] at ht hparts ⊢
          have hparts := (List.forall_mem_append.1 hparts).2
          cases more with
          | nil =>
            rw [List.append_nil] at ht
            exact (hshape ⟨letters, digits, ht, hne, hletters, hdne, hdigits⟩).elim
          | cons u more =>
            have hu := hparts u (List.mem_cons_self ..)
            obtain ⟨next, hnext⟩ := (cell_absent_iff (p := 0) hne hletters hdne hdigits hclear
              (Cursor.clear_cons.2 (hnot hu rfl))).2 ⟨⟨column, hcolumn⟩, hu⟩
            simp only [hnext, restoring_absent hnext]
  · have hdigit : isDigit r.value = false := by
      rw [isLabelStart, Bool.or_eq_true, beq_iff_eq] at hstart
      rcases hstart with hstart | hstart
      · exact absurd hstart hletter
      · rw [hstart]
        rfl
    have hletter := Bool.eq_false_iff.2 hletter
    rw [@Text.columnPart?_eq t [] _ ht (by simp) (Cursor.clear_cons.2 hletter)]
    rw [List.head?_cons, Option.any_some, hdigit]
    refine cell_absent ?_
    rw [isReferenceStart, hletter, Bool.false_or]
    exact hnot (hparts r (List.mem_cons_self ..)) rfl

/-- An error of the first cell is one of the operand. -/
theorem alternatives_nameRules_failed (hboolean : boolean c = (.absent, c))
    (h : cell c = (.failed failure, next)) :
    alternatives nameRules c = (.failed failure, next) := by
  have hrange : cellRange c = (.failed failure, next) :=
    transform_failed_iff.2 (.inl (sequenceFrom_cons_failed_iff.2 (.inl h)))
  rw [nameRules, alternatives_of_absent hboolean]
  exact alternatives_cons_failed_iff.2 (.inl hrange)

end Rule

namespace Grammar

variable {t : Text} {n : Node} {r : Rune} {v : List Rune} {failure : Failure}

/-- A text that is one token is an expression of its own. -/
theorem parse_expression_of_isToken (hlength : t.runes.length ≤ maxFormulaLength)
    (h : IsToken n t.runes) : american.parse .expression t = .ok n := by
  have hfinds := Rule.expression_finds (Derives.token h).alone (p := 0)
    (endsIn_of_blanks allBlank_nil)
  rw [List.append_nil] at hfinds
  exact parse_eq_ok_of_found hlength hfinds rfl

/-- An error of the first operand is one of the expression. -/
theorem parse_expression_of_failed (hlength : t.runes.length ≤ maxFormulaLength) (stop : Cursor)
    (h : ∀ inner : Rule, Rule.operandOf .american inner (.start t) = (.failed failure, stop)) :
    american.parse .expression t = .error failure := by
  have hoperand : Rule.operand .american (.start t) = (.failed failure, stop) := h _
  exact parse_eq_error_of_failed hlength <|
    Rule.transform_failed_iff.2 (.inl (Rule.sequenceFrom_cons_failed_iff.2 (.inl hoperand)))

theorem label_of_parse (h : american.parse .label t = .ok n) :
    ∃ r v, t.runes = r :: v ∧ isLabelStart r.value = true ∧
      (∀ s ∈ r :: v, isLabelPart s.value = true) ∧ Rule.isBoolean t = false ∧
      n = .leaf (.label t) t ∧
      Rule.label ⟨0, t.runes⟩ = (.found [n], ⟨0 + t.runes.length, []⟩) := by
  obtain ⟨c, hlabel, hend⟩ := found_of_parse h
  change Rule.label (.start t) = _ at hlabel
  obtain ⟨r, v, hw, hstart, hparts, -⟩ := Rule.label_finds hlabel
  have ht : t.runes = r :: v := hw.rest_of_end hend
  have hc : c = ⟨0 + t.runes.length, []⟩ := by
    rw [ht, ← hend]
    exact congrArg (Cursor.mk · c.rest) hw.pos
  obtain ⟨-, hskip, -, -, hboolean, -, hn⟩ := Rule.label_found_iff.1 hlabel
  rw [hw.textTo, ← ht, Text.ofRunes_runes] at hboolean hn
  exact ⟨r, v, ht, hstart, hparts, hboolean, (List.cons.inj hn).1, hc ▸ hlabel⟩

/-- A label is an operand, unless it begins with letters that are no column of the worksheet and a
digit: then that is an error, although the name goes on and is no cell. -/
theorem parse_expression_of_label (t : Text) (n : Node) (h : american.parse .label t = .ok n)
    (hshape : ¬ t.IsCellShaped) :
    n = .leaf (.label t) t ∧
      american.parse .expression t =
        match t.columnPart?.map Column.parse with
        | some (.error e) => .error (.parse ⟨0, .reference e⟩)
        | _ => .ok n := by
  obtain ⟨hlength, -⟩ := length_of_parse h
  obtain ⟨r, v, ht, hstart, hparts, hboolean, hn, hlabel⟩ := label_of_parse h
  refine ⟨hn, ?_⟩
  have hread : .ofRunes (r :: v) = t := by rw [← ht, Text.ofRunes_runes]
  have hboolean : Rule.boolean ⟨0, t.runes⟩ = (.absent, ⟨0, t.runes⟩) := by
    rw [ht]
    exact Rule.boolean_absent_of_name hparts (hread ▸ hboolean) (hread ▸ ht)
  have hcell := Rule.cell_of_name ht hstart hparts hshape
  rw [← ht] at hcell
  have htoken (habsent : Rule.cell ⟨0, t.runes⟩ = (.absent, ⟨0, t.runes⟩)) :
      american.parse .expression t = .ok n := by
    obtain ⟨m, w, hm, hw, htoken⟩ := Rule.readsToken_label hboolean habsent hlabel
    obtain ⟨rfl, -⟩ := List.cons.inj hm
    obtain rfl : t.runes = w := hw.rest_of_end rfl
    exact parse_expression_of_isToken hlength htoken
  -- Letters that are no column because they are too many end the search for other readings.
  cases hcolumn : t.columnPart?.map Column.parse with
  | none =>
    rw [hcolumn] at hcell
    exact htoken hcell
  | some result =>
    rw [hcolumn] at hcell
    cases result with
    | ok column => exact htoken hcell
    | error e =>
      obtain ⟨stop, hcell⟩ := hcell
      refine parse_expression_of_failed hlength stop fun inner => ?_
      rw [Cursor.start, ht, Rule.operandOf_name hstart hparts, ← ht]
      exact Rule.alternatives_nameRules_failed hboolean hcell

/-- Behind letters that are a column, and digits, a name may go on. -/
theorem parse_expression_of_label_column :
    ∃ n, american.parse .label "Net2024_a.b" = .ok n ∧ ¬ Text.IsCellShaped "Net2024_a.b" ∧
      n = .leaf (.label "Net2024_a.b") "Net2024_a.b" ∧
      american.parse .expression "Net2024_a.b" = .ok n := by
  have hlabel : (american.parse .label "Net2024_a.b").toOption.any (fun _ => true) = true := by
    decide +kernel
  obtain ⟨n, hn, -⟩ := exists_ok_of_any hlabel
  have hcolumn : (Text.columnPart? "Net2024_a.b").map Column.parse =
      some (.ok ⟨9614, false, by decide, by decide⟩) := by decide +kernel
  have hshape : ¬ Text.IsCellShaped "Net2024_a.b" := Text.not_isCellShaped (by decide)
  obtain ⟨hleaf, hparse⟩ := parse_expression_of_label _ n hn hshape
  rw [hcolumn] at hparse
  exact ⟨n, hn, hshape, hleaf, hparse⟩

/-- Behind letters beyond the last column it may not: the label is no expression. -/
theorem label_beyond_columns :
    ∃ n, american.parse .label "Total1_a" = .ok n ∧ ¬ Text.IsCellShaped "Total1_a" ∧
      ∀ m, american.parse .expression "Total1_a" ≠ .ok m := by
  have hlabel : (american.parse .label "Total1_a").toOption.any (fun _ => true) = true := by
    decide +kernel
  have hexpression : (american.parse .expression "Total1_a").toOption.isNone = true := by
    decide +kernel
  obtain ⟨n, hn, -⟩ := exists_ok_of_any hlabel
  refine ⟨n, hn, Text.not_isCellShaped (by decide), fun m hm => ?_⟩
  rw [hm] at hexpression
  cases hexpression

end Grammar

end SheetFormula
