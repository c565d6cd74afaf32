import SheetFormula.Proofs.CaselessRules
import SheetFormula.Proofs.CellTexts
import SheetFormula.Proofs.Growth

/-!
# Tokens in either case

Every rule for a token of an expression ignores letter case, each for a reason of its own: columns
go by the values of letters, errors, booleans and the mark of an exponent by folding, and the names
of functions by their capitals.  Labels and quoted text keep their case and are told apart from
other tokens without regard to it.
-/

namespace SheetFormula

/-! ### References -/

theorem splitAbsolute_lower (cs : List Char) :
    splitAbsolute (cs.map asciiLower) =
      ((splitAbsolute cs).1, (splitAbsolute cs).2.map asciiLower) := by
  cases cs with
  | nil => rfl
  | cons ch cs =>
    by_cases hmark : ch = '$'
    · subst hmark
      rfl
    · have hlower : asciiLower ch ≠ '$' := (asciiLower_eq_iff (by decide)).not.2 hmark
      have hplain {ch' : Char} {cs' : List Char} (h : ch' ≠ '$') :
          splitAbsolute (ch' :: cs') = (false, ch' :: cs') := by
        unfold splitAbsolute
        split
        · rename_i heq
          exact absurd (List.cons.inj heq).1 h
        · rfl
      rw [List.map_cons, hplain hlower, hplain hmark, List.map_cons]

/-- A line is the same in either case when the characters of its numerals are, by themselves and by
what they add. -/
theorem Axis.parseLine_lower {axis : Axis} {Line : Type} {isPart : Char → Bool}
    {add : Nat → Char → Nat} {ofNumber? : Nat → Bool → Option Line}
    (hpart : ∀ ch, isPart (asciiLower ch) = isPart ch)
    (hadd : ∀ n ch, isPart ch = true → add n (asciiLower ch) = add n ch) (t : Text) :
    SucceedAlike id (axis.parseLine isPart add ofNumber? t)
      (axis.parseLine isPart add ofNumber? t.lower) := by
  have hsplit := splitAbsolute_lower t.chars
  rw [← Text.chars_lower] at hsplit
  by_cases hparts : ∀ ch ∈ (splitAbsolute t.chars).2, isPart ch = true
  · have hparts' : ∀ ch ∈ (splitAbsolute t.chars).2.map asciiLower, isPart ch = true :=
      List.forall_mem_map.2 fun ch hch => (hpart ch).trans (hparts ch hch)
    rw [parseLine_of_parts Prod.mk.eta.symm hparts, parseLine_of_parts hsplit hparts',
      List.foldl_map, List.foldl_ext _ add 0 fun n ch hch => hadd n ch (hparts ch hch)]
    split
    · exact .ok _
    · exact .error trivial
  · have hparts' : ¬ ∀ ch ∈ (splitAbsolute t.chars).2.map asciiLower, isPart ch = true :=
      fun h => hparts fun ch hch => (hpart ch).symm.trans (List.forall_mem_map.1 h ch hch)
    rw [parseLine_of_not_parts Prod.mk.eta.symm hparts, parseLine_of_not_parts hsplit hparts']
    exact .error trivial

/-- Letters of either case spell the same column. -/
theorem Column.parse_lower (t : Text) : SucceedAlike id (parse t) (parse t.lower) := by
  rw [parse_eq]
  exact Axis.parseLine_lower isLetter_asciiLower (fun n ch _ => by simp [addLetter]) t

/-- There are no letters in a row. -/
theorem Row.parse_lower (t : Text) : SucceedAlike id (parse t) (parse t.lower) := by
  rw [parse_eq]
  refine Axis.parseLine_lower isDigit_asciiLower (fun n ch hch => ?_) t
  rw [asciiLower_of_not_isLetter (Rule.isLetter_eq_false hch)]

namespace Cell

theorem cut_lower (runes : List Rune) :
    cut (runes.map Rune.lower) = ((cut runes).1.map Rune.lower, (cut runes).2.map Rune.lower) := by
  have hdigit : (fun r => !isDigit r.value) ∘ Rune.lower = fun r => !isDigit r.value :=
    funext fun r => by simp
  have hmark (r : Rune) : r.lower = .scalar '$' ↔ r = .scalar '$' :=
    Rune.lower_eq_scalar_iff (by decide)
  -- The mark goes to the row just if it stands right in front of the first digit.
  simp only [cut, List.takeWhile_map, List.dropWhile_map, hdigit, List.getLast?_map]
  cases runes.dropWhile fun r => !isDigit r.value with
  | nil => rfl
  | cons d after =>
    cases (runes.takeWhile fun r => !isDigit r.value).getLast? with
    | none => rfl
    | some r =>
      by_cases hr : r = .scalar '$'
      · subst hr
        have hlower := (hmark (.scalar '$')).2 rfl
        simp [hlower, List.map_dropLast]
      · have hlower := (hmark r).not.2 hr
        simp only [List.map_cons, Option.map_some]
        split
        · rename_i heq
          exact absurd (Option.some.inj heq) hlower
        · split
          · rename_i heq
            exact absurd (Option.some.inj heq) hr
          · rfl

/-- A cell is the same in either case. -/
theorem parse_lower {t : Text} {cell : Cell} : parse t.lower = .ok cell ↔ parse t = .ok cell := by
  have hclean : ∀ r ∈ (cut t.runes).1 ++ (cut t.runes).2, r.IsClean := by
    rw [append_cut]
    exact fun r => Text.isClean_of_mem_runes
  obtain ⟨hfront, hback⟩ := List.forall_mem_append.1 hclean
  rw [parse_eq_ok_iff_cut, parse_eq_ok_iff_cut, Text.runes_lower, cut_lower,
    ← Text.lower_ofRunes hfront, ← Text.lower_ofRunes hback,
    (Column.parse_lower _).eq_ok_iff, (Row.parse_lower _).eq_ok_iff, Ne, Ne, List.map_eq_nil_iff,
    List.map_eq_nil_iff]

end Cell

namespace Rule

variable {c next : Cursor}

theorem skipAbsolute_lower (c : Cursor) : skipAbsolute c.lower = (skipAbsolute c).lower := by
  rw [skipAbsolute, skipAbsolute, Cursor.current_lower, asciiLower_beq (by decide)]
  split_ifs
  · exact Cursor.lower_next.symm
  · rfl

theorem isClean_skipAbsolute (hc : c.IsClean) : (skipAbsolute c).IsClean := by
  rw [skipAbsolute]
  split_ifs
  · exact hc.next
  · exact hc

/-- What is read of a column or a row in lower case, if it has the same value as in its own case. -/
theorem readLine_ignoresCase {α : Type} {isPart : Char → Bool}
    {parse : Text → Except ReferenceError α} {content : α → Content}
    (hpart : ∀ ch, isPart (asciiLower ch) = isPart ch)
    (hparse : ∀ t : Text, SucceedAlike id (parse t) (parse t.lower))
    (hcontent : ∀ line, (content line).lower = content line) :
    IgnoresCase (readLine isPart parse content) := by
  intro c hc
  have hnext := (isClean_skipAbsolute hc).skip (p := isPart)
  have hparse := hparse (c.textTo ((skipAbsolute c).skip isPart))
  rw [← Cursor.textTo_lower hc] at hparse
  simp only [readLine, skipAbsolute_lower, Cursor.skip_lower hpart, Cursor.pos_lower]
  split_ifs
  · exact .absent hnext
  -- The letters or digits are read in either case, and all that matters of this is `hparse`.
  · generalize parse (c.textTo ((skipAbsolute c).skip isPart)) = x at hparse ⊢
    generalize parse (c.lower.textTo ((skipAbsolute c).skip isPart).lower) = y at hparse ⊢
    cases hparse with
    | ok line =>
      have hleaf := lowers_leafBetween (content line) hc hnext
      rwa [hcontent] at hleaf
    | error _ => exact .failed hnext

theorem readColumn_ignoresCase : IgnoresCase readColumn := by
  rw [readColumn_eq_readLine]
  exact readLine_ignoresCase isLetter_asciiLower Column.parse_lower fun _ => rfl

theorem readRow_ignoresCase : IgnoresCase readRow := by
  rw [readRow_eq_readLine]
  exact readLine_ignoresCase isDigit_asciiLower Row.parse_lower fun _ => rfl

theorem rowFollows_lower (c : Cursor) : rowFollows c.lower = rowFollows c := by
  have hmark := asciiLower_beq (show isLetter '$' = false by decide)
  simp only [rowFollows, Cursor.current_lower, Cursor.peek_lower, isDigit_asciiLower, hmark]

theorem readCell_ignoresCase : IgnoresCase readCell := by
  have hopen := asciiLower_beq (show isLetter '(' = false by decide)
  intro c hc
  rw [readCell, readCell]
  refine (readColumn_ignoresCase hc).by_answer (fun _ => .absent) ?_ ?_
  · -- A column out of bounds is a failure only where a row follows it.
    intro _ _ mid hmid
    simp only [rowFollows_lower]
    split_ifs
    · exact .failed hmid
    · exact .absent hmid
  · intro column mid hmid
    dsimp only
    refine (readRow_ignoresCase hmid).by_answer (fun _ => .absent) ?_ ?_
    · intro _ _ next hnext
      simp only [Cursor.current_lower, isLabelPart_asciiLower]
      split_ifs
      · exact .absent hnext
      · exact .failed hnext
    · intro row next hnext
      simp only [Cursor.current_lower, isLabelPart_asciiLower, hopen]
      split_ifs
      · exact .absent hnext
      · rw [← List.map_append]
        exact lowers_built (Node.cell_lower _) hnext

theorem cell_ignoresCase : IgnoresCase cell := readCell_ignoresCase.restoring

theorem cellRange_ignoresCase : IgnoresCase cellRange := by
  refine IgnoresCase.transform (IgnoresCase.sequence ?_) Node.cellRange_lower
  exact ⟨cell_ignoresCase, symbol_ignoresCase _ (by decide), cell_ignoresCase⟩

/-! ### Names -/

theorem isBoolean_lower (t : Text) : isBoolean t.lower = isBoolean t := by
  rw [isBoolean, isBoolean, ← Cursor.lower_start, WordList.matchWhole_lower, Text.size_lower]
  cases booleanWords.matchWhole (.start t) <;> rfl

theorem isCell_lower (t : Text) : isCell t.lower = isCell t := by
  have hparse (cell : Cell) := @Cell.parse_lower t cell
  rw [isCell, isCell]
  cases h : Cell.parse t with
  | ok cell => rw [(hparse cell).2 h]
  | error e =>
    cases h' : Cell.parse t.lower with
    | ok cell =>
      rw [(hparse cell).1 h'] at h
      cases h
    | error e' => rfl

theorem label_ignoresCase : IgnoresCase label := by
  intro c hc
  simp only [label, Cursor.current_lower, isLabelStart_asciiLower,
    Cursor.skip_lower isLabelPart_asciiLower, Cursor.textTo_lower hc, Text.size_lower,
    isBoolean_lower, isCell_lower, asciiLower_beq (show isLetter '(' = false by decide)]
  split_ifs
  · exact .absent hc
  · exact .absent hc
  · exact lowers_leafBetween (.label _) hc hc.skip

theorem upperCase_lower (t : Text) : upperCase t.lower = upperCase t := by
  rw [upperCase, upperCase, Text.chars_lower, List.map_map]
  exact congrArg _ (congrArg (List.map · t.chars) (funext asciiUpper_asciiLower))

theorem functionName_ignoresCase : IgnoresCase functionName := by
  intro c hc
  have hopen := asciiLower_beq (show isLetter '(' = false by decide)
  simp only [functionName, Cursor.current_lower, isLetter_asciiLower, bne,
    Cursor.skip_lower isLabelPart_asciiLower, Cursor.textTo_lower hc, upperCase_lower, hopen]
  split_ifs
  · exact .absent hc
  · exact .absent hc
  · exact lowers_leafBetween (.functionName _) hc hc.skip

theorem lambdaName_ignoresCase : IgnoresCase lambdaName := by
  intro c hc
  have hname := functionName_ignoresCase hc
  rw [lambdaName, lambdaName]
  -- A name that is found is one leaf, so that the rule looks at its capitals.
  rcases hfound : functionName c with ⟨_ | nodes | failure, next⟩
  all_goals
    rw [hfound] at hname
    generalize functionName c.lower = y at hname ⊢
    cases hname with | _ hnext
  · exact .absent hnext
  · obtain ⟨-, -, -, rfl⟩ := functionName_found_iff.1 hfound
    simp only [List.map_cons, List.map_nil, Node.lower_leaf, Content.lower]
    split_ifs
    · exact .found hnext
    · exact .absent hc
  · exact .failed hnext

/-! ### Literals -/

theorem isClean_of_matchAt {α : Type} {words : WordList α} {w : Word α} (hc : c.IsClean)
    (h : words.matchAt c = some (w, next)) : next.IsClean := by
  obtain ⟨w', -, heq⟩ := Option.map_eq_some_iff.1 h
  cases heq
  exact hc.advance _

theorem errorLiteral_ignoresCase : IgnoresCase errorLiteral := by
  intro c hc
  have hmark := asciiLower_beq (show isLetter '#' = false by decide)
  simp only [errorLiteral, Cursor.current_lower, bne, hmark, WordList.matchAt_lower]
  split_ifs
  · exact .absent hc
  · cases h : errorWords.matchAt c with
    | none => exact .absent hc
    | some found => exact lowers_leafBetween (.error _) hc (isClean_of_matchAt hc h)

theorem boolean_ignoresCase : IgnoresCase boolean := by
  intro c hc
  have hopen := asciiLower_beq (show isLetter '(' = false by decide)
  rw [boolean, boolean, WordList.matchWhole_lower]
  cases h : booleanWords.matchWhole c with
  | none => exact .absent hc
  | some found =>
    have hnext := isClean_of_matchAt hc (WordList.matchWhole_eq_some_iff.1 h).1
    simp only [Option.map_some, Cursor.current_lower, isLabelPart_asciiLower, hopen]
    split_ifs
    · exact .absent hc
    · exact lowers_leafBetween (.boolean _) hc hnext

theorem readQuoted_lower (value : List Rune) (count : Nat) (rest : List Rune) :
    readQuoted (value.map Rune.lower) count (rest.map Rune.lower) =
      (readQuoted value count rest).map fun read => (read.1.map Rune.lower, read.2) := by
  have hquote (r : Rune) : r.lower.value = '"' ↔ r.value = '"' := by
    rw [Rune.value_lower, asciiLower_eq_iff (by decide)]
  -- The cases are those of the reader: the end, a pair of quotes, one quote with more or nothing
  -- behind it, and any other rune.
  fun_induction readQuoted value count rest with
  | case1 => rfl
  | case2 value count r hr s rest hs ih =>
    rw [List.map_cons, List.map_cons, readQuoted, if_pos ((hquote r).2 hr),
      if_pos ((hquote s).2 hs)]
    exact ih
  | case3 value count r hr s rest hs =>
    rw [List.map_cons, List.map_cons, readQuoted, if_pos ((hquote r).2 hr),
      if_neg ((hquote s).not.2 hs), ← List.map_reverse]
    rfl
  | case4 value count r hr =>
    rw [List.map_cons, List.map_nil, readQuoted, if_pos ((hquote r).2 hr), ← List.map_reverse]
    rfl
  | case5 value count r rest hr ih =>
    rw [List.map_cons, readQuoted.eq_def]
    dsimp only
    rw [if_neg ((hquote r).not.2 hr)]
    exact ih

theorem quotation_lower (value t : Text) :
    SucceedAlike Node.lower (Node.quotation [quoteLeaf, .leaf (.literal value) t, quoteLeaf])
      (Node.quotation [quoteLeaf, .leaf (.literal value.lower) t.lower, quoteLeaf]) := by
  have hnode (value t : Text) : Node.quotation [quoteLeaf, .leaf (.literal value) t, quoteLeaf] =
      .ok (.parent (.text value) [quoteLeaf, .leaf (.literal value) t, quoteLeaf]) := rfl
  have hquote : quoteLeaf.lower = quoteLeaf := by
    rw [quoteLeaf, Node.lower_leaf]
    rfl
  have hlower : (Node.parent (.text value) [quoteLeaf, .leaf (.literal value) t, quoteLeaf]).lower =
      .parent (.text value.lower) [quoteLeaf, .leaf (.literal value.lower) t.lower, quoteLeaf] := by
    simp [hquote, Form.lower, Content.lower]
  rw [hnode, hnode, ← hlower]
  exact .ok _

theorem quotedText_ignoresCase : IgnoresCase quotedText := by
  intro c hc
  have hquote := asciiLower_beq (show isLetter '"' = false by decide)
  have hread := readQuoted_lower [] 0 c.next.rest
  simp only [quotedText, Cursor.current_lower, bne, hquote, ← Cursor.lower_next, Cursor.rest_lower]
  split_ifs
  · exact .absent hc
  · rw [List.map_nil] at hread
    rw [hread]
    cases h : readQuoted [] 0 c.next.rest with
    | error count =>
      simp only [Except.map, ← Cursor.lower_advance]
      exact .failed (hc.next.advance count)
    | ok read =>
      obtain ⟨value, count⟩ := read
      have hvalue : ∀ r ∈ value, r.IsClean := fun r hr =>
        hc.next r ((mem_of_readQuoted h r hr).resolve_left List.not_mem_nil)
      simp only [Except.map, ← Cursor.lower_advance, ← Cursor.lower_next,
        Cursor.textTo_lower hc.next, ← Text.lower_ofRunes hvalue]
      exact lowers_built (quotation_lower _ _) (hc.next.advance count).next

/-! ### Numbers -/

/-- A leaf of digits is the same in lower case. -/
def HasPlainDigits (n : Node) : Prop := ∀ t, n = .leaf .digits t → t.lower = t

theorem readSign_lower (reading : NumberReading) (minus : Bool) (t : Text) :
    SucceedAlike id (reading.readSign minus t) (reading.readSign minus t.lower) := by
  rw [NumberReading.readSign, NumberReading.readSign]
  split_ifs
  · exact .ok _
  · exact .ok _
  · exact .error trivial

theorem read_lower {n : Node} (hn : HasPlainDigits n) (reading : NumberReading) :
    SucceedAlike id (reading.read n) (reading.read n.lower) := by
  cases n with
  | parent form children =>
    rw [Node.lower_parent]
    exact .error trivial
  | leaf content t =>
    rw [Node.lower_leaf]
    cases content with
    | digits =>
      rw [hn t rfl]
      exact .same (fun _ => trivial) _
    | symbol s =>
      -- Only the digits have a text that counts, and it has no letters.
      cases s with
      | plus => exact readSign_lower reading false t
      | minus => exact readSign_lower reading true t
      | decimalSeparator | exponent =>
        simp only [Content.lower, NumberReading.read]
        split_ifs
        · exact .error trivial
        · exact .ok _
      | percent => exact .ok _
      | _ => exact .error trivial
    | _ => exact .error trivial

theorem numberValue_lower {ns : List Node} (h : ∀ n ∈ ns, HasPlainDigits n) :
    SucceedAlike id (numberValue ns) (numberValue (ns.map Node.lower)) := by
  rw [numberValue, numberValue]
  refine (Parallel.foldlM (fun reading n hn => read_lower (h n hn) reading) {}).bind ?_
  exact fun reading => .same (fun _ => trivial) _

theorem number_lower {ns : List Node} (h : ∀ n ∈ ns, HasPlainDigits n) :
    SucceedAlike Node.lower (Node.number ns) (Node.number (ns.map Node.lower)) := by
  have hvalue (d : Decimal) := (numberValue_lower h).eq_ok_iff (a := d)
  refine succeedAlike_of_ok (fun n hn => ?_) fun m hm => ?_
  · obtain ⟨hne, d, hd, rfl⟩ := Node.number_eq_ok_iff.1 hn
    rw [Node.lower_parent]
    exact Node.number_eq_ok_iff.2 ⟨List.map_eq_nil_iff.not.2 hne, d, (hvalue d).2 hd, rfl⟩
  · obtain ⟨hne, d, hd, -⟩ := Node.number_eq_ok_iff.1 hm
    exact ⟨_, Node.number_eq_ok_iff.2
      ⟨List.map_eq_nil_iff.not.1 hne, d, (hvalue d).1 hd, rfl⟩⟩

/-- What the second reader reads of a number is what the first reads, in lower case. -/
inductive LowersPart : List Node × Cursor → List Node × Cursor → Prop
  | mk {nodes nodes' : List Node} {next : Cursor} : nodes' = nodes.map Node.lower → next.IsClean →
      (∀ n ∈ nodes, HasPlainDigits n) → LowersPart (nodes, next) (nodes', next.lower)

theorem LowersPart.empty (hc : c.IsClean) : LowersPart ([], c) ([], c.lower) :=
  .mk rfl hc (List.forall_mem_nil _)

theorem hasPlainDigits_symbol (s : Symbol) (t : Text) : HasPlainDigits (.leaf (.symbol s) t) :=
  nofun

theorem LowersPart.symbol {s : Symbol} {t : Text} (h : t.lower = t) (hnext : next.IsClean) :
    LowersPart ([.leaf (.symbol s) t], next) ([.leaf (.symbol s) t], next.lower) := by
  refine .mk ?_ hnext (List.forall_mem_singleton.2 (hasPlainDigits_symbol s t))
  rw [List.map_singleton, Node.lower_leaf, h]
  rfl

theorem lower_ofChars_singleton {ch : Char} (hch : isLetter ch = false) :
    (Text.ofChars [ch]).lower = .ofChars [ch] :=
  @Text.lower_eq_self [.scalar ch] (List.forall_mem_singleton.2 trivial)
    (List.forall_mem_singleton.2 hch)

theorem sign_lower {minus plus : Char} (hminus : isLetter minus = false)
    (hplus : isLetter plus = false) (hc : c.IsClean) :
    LowersPart (sign minus plus c) (sign minus plus c.lower) := by
  rw [sign, sign, Cursor.current_lower, asciiLower_beq hminus, asciiLower_beq hplus,
    ← Cursor.lower_next]
  split_ifs
  · exact .symbol (lower_ofChars_singleton hminus) hc.next
  · exact .symbol (lower_ofChars_singleton hplus) hc.next
  · exact .empty hc

theorem digits_lower (hc : c.IsClean) : LowersPart (digits c) (digits c.lower) := by
  have htext : (c.textTo (c.skip isDigit)).lower = c.textTo (c.skip isDigit) := by
    rw [(Cursor.passes_skip c isDigit).textTo]
    refine Text.lower_eq_self (fun r hr => hc r ((List.takeWhile_sublist _).mem hr)) fun r hr => ?_
    exact isLetter_eq_false (List.mem_takeWhile_imp hr :)
  simp only [digits, Cursor.skip_lower isDigit_asciiLower, Cursor.pos_lower,
    Cursor.textTo_lower hc]
  split_ifs
  · exact .empty hc
  · refine .mk (by simp [Content.lower]) hc.skip (List.forall_mem_singleton.2 fun t ht => ?_)
    cases ht
    exact htext

/-- The separator and the digits behind it. -/
theorem fraction_lower {separator : Char} (hseparator : isLetter separator = false)
    (hc : c.IsClean) :
    (fraction separator c = none ∧ fraction separator c.lower = none) ∨
      ∃ point places places' next next',
        fraction separator c = some ([point], places, next) ∧
        fraction separator c.lower = some ([point.lower], places', next') ∧
        HasPlainDigits point ∧ LowersPart (places, next) (places', next') := by
  simp only [fraction, Cursor.current_lower, asciiLower_beq hseparator, Cursor.rest_lower,
    ← List.map_take, ← Cursor.lower_next,
    ← Text.lower_ofRunes fun r hr => hc r (List.mem_of_mem_take hr)]
  split_ifs
  · refine .inr ⟨_, _, _, _, _, rfl, ?_, hasPlainDigits_symbol _ _, digits_lower hc.next⟩
    rw [Node.lower_leaf]
    rfl
  · exact .inl ⟨rfl, rfl⟩

theorem mantissa_lower {separator : Char} (hseparator : isLetter separator = false)
    (hc : c.IsClean) :
    Option.Rel LowersPart (mantissa separator c) (mantissa separator c.lower) := by
  have hwhole := digits_lower hc
  rw [mantissa, mantissa]
  generalize digits c = x at hwhole ⊢
  generalize digits c.lower = y at hwhole ⊢
  obtain ⟨rfl, hclean, hnumerals⟩ := hwhole
  dsimp only
  -- The fraction is read in both cases or in neither; it is left open whether digits stand there.
  rcases fraction_lower hseparator hclean with
    ⟨hnone, hnone'⟩ | ⟨point, places, _, _, _, hsome, hsome', hpoint, ⟨rfl, hnext, hplaces⟩⟩
  · rw [hnone, hnone']
    dsimp only
    rw [List.isEmpty_map]
    split_ifs
    · exact .none
    · exact .some (.mk rfl hclean hnumerals)
  · rw [hsome, hsome']
    dsimp only
    rw [List.isEmpty_map, List.isEmpty_map]
    split_ifs
    · exact .none
    · refine .some (.mk (by simp) hnext ?_)
      simp only [List.forall_mem_append, List.forall_mem_singleton]
      exact ⟨⟨hnumerals, hpoint⟩, hplaces⟩

theorem exponent_lower (marks : WordList Unit) (hc : c.IsClean) :
    LowersPart (exponent marks c) (exponent marks c.lower) := by
  rw [exponent, exponent, WordList.matchAt_lower]
  cases hmark : marks.matchAt c with
  | none => exact .empty hc
  | some found =>
    obtain ⟨w, afterMark⟩ := found
    have hafter := isClean_of_matchAt hc hmark
    have hsign := sign_lower (show isLetter '-' = false by decide)
      (show isLetter '+' = false by decide) hafter
    simp only [Option.map_some, Cursor.textTo_lower hc]
    generalize sign '-' '+' afterMark = x at hsign ⊢
    generalize sign '-' '+' afterMark.lower = y at hsign ⊢
    obtain @⟨signs, _, afterSign, rfl, hafterSign, hsigns⟩ := hsign
    have hdigits := digits_lower hafterSign
    dsimp only
    generalize digits afterSign = x at hdigits ⊢
    generalize digits afterSign.lower = y at hdigits ⊢
    obtain @⟨places, _, next, rfl, hnext, hplaces⟩ := hdigits
    -- Without digits behind it the mark is none, and the cursor goes back in front of it.
    cases places with
    | nil => exact .empty hc
    | cons first more =>
      refine .mk (by simp [Content.lower]) hnext ?_
      simp only [List.cons_append, List.forall_mem_cons, List.forall_mem_append]
      exact ⟨hasPlainDigits_symbol _ _, hsigns, List.forall_mem_cons.1 hplaces⟩

theorem percents_lower {percent : Char} (hpercent : isLetter percent = false) (hc : c.IsClean) :
    LowersPart (percents percent c) (percents percent c.lower) := by
  have hskip := Cursor.skip_lower (c := c) (p := (· == percent)) (asciiLower_beq hpercent)
  simp only [percents, hskip, Cursor.pos_lower]
  refine .mk ?_ hc.skip fun n hn => ?_
  · rw [List.map_replicate, signLeaf, Node.lower_leaf, lower_ofChars_singleton hpercent]
    rfl
  · rw [List.eq_of_mem_replicate hn]
    exact hasPlainDigits_symbol _ _

/-- A number without a sign in front. -/
theorem number_ignoresCase {g : Grammar} (hseparator : isLetter g.locale.decimalSeparator = false)
    (hpercent : isLetter g.locale.percentSymbol = false) : IgnoresCase (number g false) := by
  intro c hc
  have hmantissa := mantissa_lower hseparator hc
  simp only [number, Bool.false_eq_true, if_false]
  generalize mantissa g.locale.decimalSeparator c = x at hmantissa ⊢
  generalize mantissa g.locale.decimalSeparator c.lower = y at hmantissa ⊢
  -- The three parts are read one after the other, each in both cases and from cursors that
  -- correspond.
  cases hmantissa with
  | none => exact .absent hc
  | some hplaces =>
    obtain @⟨places, _, afterPlaces, rfl, hafterPlaces, hplaces⟩ := hplaces
    have hpower := exponent_lower g.lexicon.exponent hafterPlaces
    dsimp only
    generalize exponent g.lexicon.exponent afterPlaces = x at hpower ⊢
    generalize exponent g.lexicon.exponent afterPlaces.lower = y at hpower ⊢
    obtain @⟨power, _, afterPower, rfl, hafterPower, hpower⟩ := hpower
    have hhundredths := percents_lower hpercent hafterPower
    dsimp only
    generalize percents g.locale.percentSymbol afterPower = x at hhundredths ⊢
    generalize percents g.locale.percentSymbol afterPower.lower = y at hhundredths ⊢
    obtain @⟨hundredths, _, next, rfl, hnext, hhundredths⟩ := hhundredths
    have hchildren : ∀ n ∈ places ++ power ++ hundredths, HasPlainDigits n := by
      simp only [List.forall_mem_append]
      exact ⟨⟨hplaces, hpower⟩, hhundredths⟩
    have hvalue := numberValue_lower hchildren
    have hnumber := number_lower hchildren
    simp only [List.nil_append, ← List.map_append, Cursor.atEnd_lower]
    split_ifs
    · exact .failed hnext
    · generalize numberValue (places ++ power ++ hundredths) = x at hvalue ⊢
      generalize numberValue ((places ++ power ++ hundredths).map Node.lower) = y at hvalue ⊢
      cases hvalue with
      | ok d => exact lowers_built hnumber hnext
      | error _ => exact .failed hnext

end Rule

end SheetFormula
