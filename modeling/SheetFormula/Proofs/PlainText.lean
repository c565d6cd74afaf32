import SheetFormula.Proofs.Labels
import SheetFormula.Proofs.SpelledNumbers
import SheetFormula.Proofs.Wiring

/-!
# What is typed into a cell

What is typed into a cell and is no formula is a date and time, a date, a time, a number or text
behind an apostrophe, whichever is the first to account for all of it, and otherwise it is plain
text.  There is one exception, `Grammar.parse_valueOrExpression`: when the text begins with a number
that has no value, that is an error even where the text goes on behind the number.
-/

namespace SheetFormula

namespace Rule

variable {g : Grammar} {c next : Cursor}

/-! ### Rules for values that never fail -/

theorem neverFails_dateSeparator : NeverFails (dateSeparator g) := by
  refine neverFails_alternatives (List.forall_iff_forall_mem.2 fun r hr => ?_)
  obtain ⟨ch, -, rfl⟩ := List.mem_map.1 hr
  exact neverFails_symbol _ _

theorem neverFails_spaceOrSeparator : NeverFails (spaceOrSeparator g) :=
  neverFails_alternatives ⟨neverFails_whitespace, neverFails_dateSeparator⟩

theorem neverFails_year : NeverFails year :=
  neverFails_alternatives
    ⟨neverFails_digitsComponent _ _ _ _ _, neverFails_digitsComponent _ _ _ _ _⟩

theorem neverFails_monthWord : NeverFails (monthWord g) :=
  neverFails_alternatives
    ⟨neverFails_nameComponent _ _, neverFails_nameComponent _ _, neverFails_nameComponent _ _⟩

theorem neverFails_dayWord : NeverFails (dayWord g) :=
  neverFails_alternatives ⟨neverFails_nameComponent _ _, neverFails_nameComponent _ _⟩

theorem neverFails_dateLayouts : NeverFails (dateLayouts g) := by
  have hday : NeverFails day := neverFails_digitsComponent _ _ _ _ _
  have hmonth : NeverFails month := neverFails_digitsComponent _ _ _ _ _
  have hfullYear : NeverFails fullYear := neverFails_digitsComponent _ _ _ _ _
  refine neverFails_alternatives ⟨?_, ?_, ?_, ?_, ?_, ?_⟩
  · exact neverFails_sequence
      ⟨hfullYear, neverFails_dateSeparator, hmonth, neverFails_dateSeparator, hday⟩
  · exact neverFails_sequence
      ⟨hday, neverFails_dateSeparator, hmonth, neverFails_dateSeparator, neverFails_year⟩
  · exact neverFails_sequence ⟨hday, neverFails_dateSeparator, hmonth⟩
  · exact neverFails_sequence ⟨hday, neverFails_spaceOrSeparator, neverFails_monthWord,
      neverFails_spaceOrSeparator, neverFails_year⟩
  · exact neverFails_sequence ⟨hday, neverFails_spaceOrSeparator, neverFails_monthWord⟩
  · exact neverFails_sequence ⟨neverFails_monthWord, neverFails_spaceOrSeparator, neverFails_year⟩

/-- A date that makes no sense is absent. -/
theorem neverFails_date (hl : g.locale.HasSigns) : NeverFails (date g) := by
  have hcomma : NeverFails (optional (symbol .comma [','])) := (neverFails_symbol _ _).optional
  have hweekday : NeverFails (sequence [dayWord g, optional (symbol .comma [',']), whitespace]) :=
    neverFails_sequence ⟨neverFails_dayWord, hcomma, neverFails_whitespace⟩
  exact NeverFails.validated (neverFails_sequence ⟨hweekday.optional, neverFails_dateLayouts⟩)
    fun _ => gives_date hl

theorem neverFails_fractionPart : NeverFails (fractionPart g) :=
  NeverFails.optional (neverFails_sequence ⟨neverFails_symbol _ _, neverFails_secondFraction⟩)

theorem neverFails_secondsPart : NeverFails (secondsPart g) :=
  NeverFails.optional (neverFails_sequence
    ⟨neverFails_symbol _ _, neverFails_digitsComponent _ _ _ _ _, neverFails_fractionPart⟩)

/-- A time that makes no sense is absent. -/
theorem neverFails_time (hl : g.locale.HasSigns) : NeverFails (time g) := by
  have hmeridiem : NeverFails (meridiem g) := neverFails_nameComponent _ _
  have hblanks : NeverFails optionalWhitespace := neverFails_whitespace.optional
  have hbehind : NeverFails (sequence [optionalWhitespace, meridiem g]) :=
    neverFails_sequence ⟨hblanks, hmeridiem⟩
  refine NeverFails.validated (neverFails_alternatives ⟨?_, ?_⟩) fun _ => gives_time hl
  · exact neverFails_sequence ⟨neverFails_digitsComponent _ _ _ _ _, neverFails_symbol _ _,
      neverFails_digitsComponent _ _ _ _ _, neverFails_secondsPart, hbehind.optional⟩
  · exact neverFails_sequence ⟨neverFails_digitsComponent _ _ _ _ _, hblanks, hmeridiem⟩

theorem neverFails_dateTime (hl : g.locale.HasSigns) : NeverFails (dateTime g) :=
  NeverFails.transform
    (neverFails_sequence ⟨neverFails_date hl, neverFails_whitespace, neverFails_time hl⟩)
    fun _ => gives_dateTime hl

theorem neverFails_apostropheText : NeverFails apostropheText :=
  NeverFails.transform (neverFails_sequence ⟨neverFails_symbol _ _, neverFails_remainingLiteral⟩)
    fun _ => gives_apostropheText

/-! ### Formulas and plain text -/

theorem formula_absent (h : c.rest.head? ≠ some (.scalar '=')) :
    formula g c = (.absent, c) := by
  refine transform_absent_iff.2 (sequence_absent (symbol_absent_iff.2 ⟨?_, rfl⟩))
  obtain ⟨pos, rest⟩ := c
  cases rest with
  | nil => rfl
  | cons r rest =>
    have hr : r.value ≠ '=' := fun heq => by
      rw [Rune.eq_scalar_of_value heq (by decide)] at h
      exact h rfl
    simp [Cursor.shows, hr]

theorem wholeText_eq (h : c.rest ≠ []) :
    wholeText c =
      (.found [.parent (.text (.ofRunes c.rest))
        [.leaf (.literal (.ofRunes c.rest)) (.ofRunes c.rest)]], c.advance c.rest.length) := by
  have hend : c.atEnd = false := by simpa [Cursor.atEnd] using h
  simp only [wholeText, hend, Bool.false_eq_true, if_false]
  rfl

end Rule

/-! ### Values -/

/-- The parsers of values that are no plain text, in the order in which they are tried. -/
def Parser.values : List Parser := [.dateTime, .date, .time, .number, .apostropheText]

/-- Plain text, as a tree. -/
def Node.plainText (text : Text) : Node := .parent (.text text) [.leaf (.literal text) text]

/-- The longest beginning of some runes that is spelled as a number is `w`, and it has no value. -/
def Rule.IsRefused (runes w : List Rune) (fault : NumberFault) : Prop :=
  ∃ children, IsLongestNumber runes w children ∧ numberValue children = .error fault

namespace Grammar

variable {g : Grammar} {p : Parser} {text : Text} {n : Node}

open Rule

/-- What a parser makes of a whole text, if it accepts it. -/
def accepted? (g : Grammar) (text : Text) (p : Parser) : Option Node := (g.parse p text).toOption

/-- What the first of the parsers of values that accepts a whole text makes of it. -/
def firstValue? (g : Grammar) (text : Text) : Option Node :=
  Parser.values.findSome? (g.accepted? text)

theorem accepted?_eq_some_iff : g.accepted? text p = some n ↔ g.parse p text = .ok n := by
  unfold accepted?
  cases g.parse p text <;> simp [Except.toOption]

theorem accepted?_eq_none (h : ∀ nodes c, p.rule g (.start text) ≠ (.found nodes, c)) :
    g.accepted? text p = none := by
  rw [Option.eq_none_iff_forall_ne_some]
  intro n hn
  obtain ⟨c, hfound, -⟩ := found_of_parse (accepted?_eq_some_iff.1 hn)
  exact h _ _ hfound

/-- A parser that accepts a text finds all of it. -/
theorem complete_of_accepted (h : g.accepted? text p = some n) :
    ∃ c, complete (p.rule g) (.start text) = (.found [n], c) ∧ c.rest = [] := by
  obtain ⟨c, hfound, hend⟩ := found_of_parse (accepted?_eq_some_iff.1 h)
  exact ⟨c, complete_found_iff.2 ⟨hfound, by simp [Cursor.atEnd, hend]⟩, hend⟩

/-- A parser that does not accept a text does not find all of it, and may only fail instead. -/
theorem complete_of_not_accepted (hl : g.locale.HasSigns)
    (hlength : text.runeCount ≤ maxFormulaLength)
    (hnever : ∀ failure c, p.rule g (.start text) ≠ (.failed failure, c))
    (h : g.accepted? text p = none) :
    complete (p.rule g) (.start text) = (.absent, .start text) := by
  have hgives := gives_rule (k := text.runes.length + 1) hl p
  rcases hrule : p.rule g (.start text) with ⟨_ | nodes | failure, next⟩
  · rw [complete, hrule, hgives.moves.restores hrule]
  · rw [complete, hrule]
    by_cases hend : next.atEnd = true
    · obtain ⟨n, rfl, -⟩ := hgives.found (Nat.lt_succ_self _) hrule
      have hrest : next.rest = [] := by simpa [Cursor.atEnd] using hend
      have hparse := parse_eq_ok_of_found hlength hrule hrest
      rw [← accepted?_eq_some_iff, h] at hparse
      cases hparse
    · simp only [hend, Bool.false_eq_true, if_false]
  · exact absurd hrule (hnever failure next)

/-- Parsers that do not fail are tried in turn until one accepts the whole text. -/
theorem alternatives_complete (hl : g.locale.HasSigns)
    (hlength : text.runeCount ≤ maxFormulaLength) (ps : List Parser) (rules : List Rule)
    (hnever : ∀ p ∈ ps, ∀ failure c, p.rule g (.start text) ≠ (.failed failure, c)) :
    (∀ n, ps.findSome? (g.accepted? text) = some n →
      ∃ c, alternatives (ps.map (fun p => complete (p.rule g)) ++ rules) (.start text) =
        (.found [n], c) ∧ c.rest = []) ∧
      (ps.findSome? (g.accepted? text) = none →
        alternatives (ps.map (fun p => complete (p.rule g)) ++ rules) (.start text) =
          alternatives rules (.start text)) := by
  induction ps with
  | nil => exact ⟨nofun, fun _ => rfl⟩
  | cons p ps ih =>
    obtain ⟨hp, hps⟩ := List.forall_mem_cons.1 hnever
    obtain ⟨hsome, hnone⟩ := ih hps
    rw [List.findSome?_cons, List.map_cons, List.cons_append]
    -- The first parser that accepts the whole text decides; one that does not is absent.
    cases haccepted : g.accepted? text p with
    | some n =>
      obtain ⟨c, hfound, hend⟩ := complete_of_accepted haccepted
      refine ⟨fun m hm => ?_, nofun⟩
      cases hm
      exact ⟨c, alternatives_cons_found_iff.2 (.inl hfound), hend⟩
    | none =>
      rw [alternatives_of_absent (complete_of_not_accepted hl hlength hp haccepted)]
      exact ⟨hsome, hnone⟩

/-! ### Numbers without a value -/

/-- Where a number without a value is written, the rule for numbers fails. -/
theorem number_failed_of_isRefused {w : List Rune} {fault : NumberFault}
    (h : IsRefused text.runes w fault) :
    ∃ c, number .american true (.start text) =
      (.failed (.parse ⟨0, .number (.ofRunes w) fault⟩), c) := by
  obtain ⟨children, hlongest, hfault⟩ := h
  obtain ⟨next, hw, hscan⟩ := hlongest.scanned (c := .start text)
  refine ⟨next, ?_⟩
  rw [number_american, hscan]
  simp only [hfault, hw.textTo]
  rfl

/-- The rule for numbers fails only where a number without a value is written. -/
theorem exists_isRefused_of_failed {failure : Failure} {c : Cursor}
    (h : number .american true (.start text) = (.failed failure, c)) :
    ∃ w fault, IsRefused text.runes w fault := by
  rw [number_american] at h
  cases hscan : scanNumber (.start text) with
  | none =>
    rw [hscan] at h
    cases h
  | some found =>
    obtain ⟨children, next⟩ := found
    obtain ⟨w, -, hlongest⟩ := scanNumber_eq_some_iff.1 hscan
    cases hvalue : numberValue children with
    | ok value =>
      simp only [hscan, hvalue] at h
      cases h
    | error fault => exact ⟨w, fault, children, hlongest, hvalue⟩

/-- Text behind an apostrophe does not begin with a number. -/
theorem apostropheText_absent_of_isNumber {w : List Rune} {children : List Node}
    (h : IsNumber w children) (hstart : w <+: text.runes) :
    apostropheText (.start text) = (.absent, .start text) := by
  obtain ⟨r, v, rfl, hr⟩ := h.exists_first
  obtain ⟨rest, hrest⟩ := hstart
  rw [Cursor.start, ← hrest]
  exact transform_absent_iff.2 (sequence_absent (symbol_absent hr))

/-- The parsers of values other than numbers never fail. -/
theorem neverFails_of_mem_values (hl : g.locale.HasSigns) (hp : p ∈ Parser.values)
    (hnumber : p ≠ .number) : NeverFails (p.rule g) := by
  simp only [Parser.values, List.mem_cons, List.not_mem_nil, or_false] at hp
  rcases hp with rfl | rfl | rfl | rfl | rfl
  · exact neverFails_dateTime hl
  · exact neverFails_date hl
  · exact neverFails_time hl
  · exact absurd rfl hnumber
  · exact neverFails_apostropheText

theorem rule_valueOrExpression (hequals : text.runes.head? ≠ some (.scalar '=')) :
    Parser.valueOrExpression.rule g (.start text) =
      alternatives (Parser.values.map (fun p => complete (p.rule g)) ++ [wholeText])
        (.start text) :=
  alternatives_of_absent (formula_absent hequals)

/-- A number without a value hides whatever stands behind it. -/
theorem parse_of_isRefused {w : List Rune} {fault : NumberFault}
    (hlength : text.runeCount ≤ maxFormulaLength)
    (hequals : text.runes.head? ≠ some (.scalar '='))
    (hrefused : IsRefused text.runes w fault) :
    (∀ n, american.firstValue? text = some n → american.parse .valueOrExpression text = .ok n) ∧
      (american.firstValue? text = none → american.parse .valueOrExpression text =
        .error (.parse ⟨0, .number (.ofRunes w) fault⟩)) := by
  have hl : american.locale.HasSigns := Locale.hasSigns_default
  obtain ⟨c, hfailed⟩ := number_failed_of_isRefused hrefused
  obtain ⟨children, hlongest, -⟩ := hrefused
  have habsent := apostropheText_absent_of_isNumber hlongest.isNumber hlongest.start
  -- Neither the parser of numbers nor the one behind it accepts the text.
  have hnumber : american.accepted? text .number = none :=
    accepted?_eq_none fun nodes c hfound => by cases hfailed.symm.trans hfound
  have hapostrophe : american.accepted? text .apostropheText = none :=
    accepted?_eq_none fun nodes c hfound => by cases habsent.symm.trans hfound
  have hfirst : american.firstValue? text =
      [Parser.dateTime, .date, .time].findSome? (american.accepted? text) := by
    rw [firstValue?, show Parser.values = [.dateTime, .date, .time] ++ [.number, .apostropheText]
      from rfl, List.findSome?_append]
    simp only [List.findSome?_cons, List.findSome?_nil, hnumber, hapostrophe, Option.or_none]
  have hnever : ∀ p ∈ [Parser.dateTime, .date, .time], ∀ failure c,
      p.rule american (.start text) ≠ (.failed failure, c) := fun p hp _ _ hfailed =>
    neverFails_of_mem_values hl (List.mem_append_left [.number, .apostropheText] hp)
      (by rintro rfl; simp at hp) hfailed
  obtain ⟨hsome, hnone⟩ := alternatives_complete hl hlength [.dateTime, .date, .time]
    [complete (number american true), complete apostropheText, wholeText] hnever
  rw [hfirst]
  refine ⟨fun n hn => ?_, fun hn => ?_⟩
  · obtain ⟨stop, hfound, hend⟩ := hsome n hn
    exact parse_eq_ok_of_found hlength ((rule_valueOrExpression hequals).trans hfound) hend
  · refine parse_eq_error_of_failed (c := c) hlength
      ((rule_valueOrExpression hequals).trans ((hnone hn).trans ?_))
    exact alternatives_cons_failed_iff.2 (.inl (complete_failed_iff.2 hfailed))

/-- Where no number without a value is written, the text is a value or plain text. -/
theorem parse_of_not_isRefused (hne : text.runes ≠ [])
    (hlength : text.runeCount ≤ maxFormulaLength)
    (hequals : text.runes.head? ≠ some (.scalar '='))
    (hrefused : ∀ w fault, ¬ IsRefused text.runes w fault) :
    (∀ n, american.firstValue? text = some n → american.parse .valueOrExpression text = .ok n) ∧
      (american.firstValue? text = none →
        american.parse .valueOrExpression text = .ok (.plainText text)) := by
  have hl : american.locale.HasSigns := Locale.hasSigns_default
  -- Of all values only a number can fail, and it does so where its digits have no value.
  have hnever : ∀ p ∈ Parser.values, ∀ failure c,
      p.rule american (.start text) ≠ (.failed failure, c) := by
    intro p hp failure c hfailed
    by_cases hnumber : p = .number
    · subst hnumber
      obtain ⟨w, fault, h⟩ := exists_isRefused_of_failed hfailed
      exact hrefused w fault h
    · exact neverFails_of_mem_values hl hp hnumber hfailed
  obtain ⟨hsome, hnone⟩ := alternatives_complete hl hlength Parser.values [wholeText] hnever
  refine ⟨fun n hn => ?_, fun hn => ?_⟩
  · obtain ⟨stop, hfound, hend⟩ := hsome n hn
    exact parse_eq_ok_of_found hlength ((rule_valueOrExpression hequals).trans hfound) hend
  · have hwhole := wholeText_eq (c := .start text) hne
    rw [show (Cursor.start text).rest = text.runes from rfl, Text.ofRunes_runes] at hwhole
    refine parse_eq_ok_of_found hlength ((rule_valueOrExpression hequals).trans
      ((hnone hn).trans (alternatives_cons_found_iff.2 (.inl hwhole)))) ?_
    exact List.drop_length

/-- What is typed and does not start with an equals sign is what the first of the parsers of values
makes of the whole text.  If none of them accepts it, it is plain text, unless it begins with a
number that has no value, which is an error. -/
theorem parse_valueOrExpression (text : Text) (hne : text.runes ≠ [])
    (hlength : text.runeCount ≤ maxFormulaLength)
    (hequals : text.runes.head? ≠ some (.scalar '=')) :
    (∀ n, american.firstValue? text = some n →
      american.parse .valueOrExpression text = .ok n) ∧
      (american.firstValue? text = none →
        (∀ w fault, IsRefused text.runes w fault →
          american.parse .valueOrExpression text =
            .error (.parse ⟨0, .number (.ofRunes w) fault⟩)) ∧
          ((∀ w fault, ¬ IsRefused text.runes w fault) →
            american.parse .valueOrExpression text = .ok (.plainText text))) := by
  refine ⟨fun n hn => ?_, fun hn => ⟨fun w fault hrefused => ?_, fun hrefused => ?_⟩⟩
  · by_cases hrefused : ∃ w fault, IsRefused text.runes w fault
    · obtain ⟨w, fault, hrefused⟩ := hrefused
      exact (parse_of_isRefused hlength hequals hrefused).1 n hn
    · simp only [not_exists] at hrefused
      exact (parse_of_not_isRefused hne hlength hequals hrefused).1 n hn
  · exact (parse_of_isRefused hlength hequals hrefused).2 hn
  · exact (parse_of_not_isRefused hne hlength hequals hrefused).2 hn

/-- A number that has a value does not keep text from being plain text. -/
theorem parse_valueOrExpression_apples :
    Text.runes "12 apples" ≠ [] ∧ Text.runeCount "12 apples" ≤ maxFormulaLength ∧
      (Text.runes "12 apples").head? ≠ some (.scalar '=') ∧
      american.parse .valueOrExpression "12 apples" = .ok (.plainText "12 apples") := by
  have hne : Text.runes "12 apples" ≠ [] := by decide
  have hlength : Text.runeCount "12 apples" ≤ maxFormulaLength := by decide
  have hequals : (Text.runes "12 apples").head? ≠ some (.scalar '=') := by decide
  have hfirst : (american.firstValue? "12 apples").isNone = true := by decide +kernel
  have hscan : (scanNumber (.start "12 apples")).any
      (fun found => (numberValue found.1).toOption.isSome) = true := by decide +kernel
  refine ⟨hne, hlength, hequals, ?_⟩
  obtain ⟨-, hothers⟩ := parse_valueOrExpression "12 apples" hne hlength hequals
  refine (hothers (Option.isNone_iff_eq_none.1 hfirst)).2 ?_
  rintro w fault ⟨children, hlongest, hfault⟩
  obtain ⟨next, -, hnumber⟩ := hlongest.scanned (c := .start "12 apples")
  rw [hnumber, Option.any_some, hfault] at hscan
  cases hscan

/-- Text is turned down because it begins with a number that is too large, although as a whole it is
no number. -/
theorem parse_valueOrExpression_large :
    Text.runes "1E999999 apples" ≠ [] ∧ Text.runeCount "1E999999 apples" ≤ maxFormulaLength ∧
      (Text.runes "1E999999 apples").head? ≠ some (.scalar '=') ∧
      american.firstValue? "1E999999 apples" = none ∧
      (∀ children, ¬ IsNumber (Text.runes "1E999999 apples") children) ∧
      ∀ n, american.parse .valueOrExpression "1E999999 apples" ≠ .ok n := by
  have hfirst : (american.firstValue? "1E999999 apples").isNone = true := by decide +kernel
  have hparse : (american.parse .valueOrExpression "1E999999 apples").toOption.isNone = true := by
    decide +kernel
  have hscan : (scanNumber (.start "1E999999 apples")).any
      (fun found => found.2.pos = 8) = true := by decide +kernel
  refine ⟨by decide, by decide, by decide, Option.isNone_iff_eq_none.1 hfirst, fun _ hnumber => ?_,
    fun n hn => ?_⟩
  · -- The scan would have gone on to the end of the text.
    obtain ⟨next, hw, hall⟩ := hnumber.isLongestNumber.scanned (c := .start "1E999999 apples")
    have hpos : next.pos = 0 + (Text.runes "1E999999 apples").length := hw.pos
    rw [hall, Option.any_some, hpos] at hscan
    revert hscan
    decide
  · rw [hn] at hparse
    cases hparse

end Grammar

end SheetFormula
