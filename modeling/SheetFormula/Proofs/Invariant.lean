import SheetFormula.Proofs.ExactTokens
import SheetFormula.Proofs.Folding

/-!
# Invariants of a grammar

An invariant of a grammar is a property of the nodes between two cursors that the scanners keep,
that can be put together from neighbours, and that the constructors of parents and the folding of
operators respect.  Every parser of the grammar then keeps it, `Rule.Invariant.rule`: dates,
expressions and formulas are made of tokens by combinators that keep invariants.

A separator of the locale may be NUL, and is then found behind the end of the text as well.  An
invariant need not survive that: a separator always stands in front of something that needs text.
-/

namespace SheetFormula

/-- The components of dates and times that are written as words, with the words. -/
def Lexicon.components (l : Lexicon) : List (Component × WordList Int) :=
  [(.monthName, l.months), (.monthNameAbbreviation, l.monthAbbreviations),
    (.monthNameInitial, l.monthInitials), (.dayName, l.days),
    (.dayNameAbbreviation, l.dayAbbreviations), (.meridiem, l.meridiems)]

namespace Rule

/-- The rules for the separators of a locale. -/
inductive IsSeparator (g : Grammar) : Rule → Prop
  | date : IsSeparator g (dateSeparator g)
  | spaceOrDate : IsSeparator g (spaceOrSeparator g)
  | time : IsSeparator g (timeSeparator g)
  | decimal : IsSeparator g (symbol .decimalSeparator [g.locale.decimalSeparator])
  | value : IsSeparator g (symbol .valueSeparator [g.locale.valueSeparator])

/-- A property of what is found between two cursors that everything the rules of a grammar are made
of keeps. -/
structure Invariant (g : Grammar) (P : Cursor → List Node → Cursor → Prop) : Prop where
  compositional : Compositional P
  parent : ∀ {c next : Cursor} {b : Builder} {children : List Node} {n : Node},
    P c children next → b.buildFull children = .ok n → P c [n] next
  reduced : ∀ {c next : Cursor} {nodes : List Node} {n : Node},
    P c nodes next → Node.reduce nodes = .ok n → P c [n] next
  symbol : ∀ {s : Symbol} {word : List Char}, nul ∉ word → Keeps P (symbol s word)
  separator : ∀ {separator : Rule} {rules : List Rule}, IsSeparator g separator →
    KeepInTurn P rules → NeedTextInTurn rules → KeepInTurn P (separator :: rules)
  whitespace : Keeps P whitespace
  readColumn : ∀ {c next : Cursor} {nodes : List Node},
    readColumn c = (.found nodes, next) → P c nodes next
  readRow : ∀ {c next : Cursor} {nodes : List Node},
    readRow c = (.found nodes, next) → P c nodes next
  label : Keeps P label
  templateValueName : Keeps P templateValueName
  functionName : Keeps P functionName
  errorLiteral : Keeps P errorLiteral
  boolean : Keeps P boolean
  quotedText : Keeps P quotedText
  remainingLiteral : Keeps P remainingLiteral
  number : ∀ {signed : Bool}, Keeps P (number g signed)
  digitsComponent : ∀ {component : Component} {fewest most low high : Nat},
    Keeps P (digitsComponent component fewest most low high)
  secondFraction : Keeps P secondFraction
  nameComponent : ∀ {component : Component} {words : WordList Int},
    (component, words) ∈ g.lexicon.components → Keeps P (nameComponent component words)

namespace Invariant

variable {g : Grammar} {P : Cursor → List Node → Cursor → Prop} {r separator inner : Rule}
  {rules : List Rule}

/-! ### Tokens -/

theorem optionalWhitespace (hP : Invariant g P) : Keeps P optionalWhitespace :=
  hP.compositional.optional hP.whitespace

theorem lambdaName (hP : Invariant g P) : Keeps P lambdaName where
  restores := lambdaName_absent
  found h := hP.functionName.found (lambdaName_found_iff.1 h).1

theorem column (hP : Invariant g P) : Keeps P column where
  restores := restoring_absent
  found h := hP.readColumn (restoring_found_iff.1 h)

theorem row (hP : Invariant g P) : Keeps P row where
  restores := restoring_absent
  found h := hP.readRow (restoring_found_iff.1 h)

theorem cell (hP : Invariant g P) : Keeps P cell where
  restores := restoring_absent
  found := by
    intro c next nodes h
    obtain ⟨column, mid, row, n, hcolumn, hrow, -, -, hn, rfl⟩ :=
      readCell_found_iff.1 (restoring_found_iff.1 h)
    have hparts := hP.compositional.append (hP.readColumn hcolumn) (hP.readRow hrow)
    exact hP.parent (b := .cell) hparts hn

theorem cellRange (hP : Invariant g P) : Keeps P cellRange := by
  refine Keeps.transform (hP.compositional.sequence ?_) (hP.parent (b := .cellRange))
  exact ⟨hP.cell, hP.symbol (by decide), hP.cell⟩

theorem apostropheText (hP : Invariant g P) : Keeps P apostropheText := by
  refine Keeps.transform (hP.compositional.sequence ?_) (hP.parent (b := .text))
  exact ⟨hP.symbol (by decide), hP.remainingLiteral⟩

theorem wholeText (hP : Invariant g P) : Keeps P wholeText where
  restores := wholeText_absent
  found h := (Keeps.transform hP.remainingLiteral (hP.parent (b := .text))).found
    (wholeText_found_iff.1 h).2

/-! ### Dates and times -/

theorem single (hP : Invariant g P) (hr : Keeps P r) : KeepInTurn P [r] :=
  hP.compositional.keepInTurn_cons hr hP.compositional.keepInTurn_nil

/-- A separator and what follows it, where only the latter is sure to be in the text. -/
theorem separated (hP : Invariant g P) (hseparator : IsSeparator g separator) (hr : Keeps P r)
    (hneeds : NeedsText r) (hrules : KeepInTurn P rules) :
    KeepInTurn P (separator :: r :: rules) :=
  hP.separator hseparator (hP.compositional.keepInTurn_cons hr hrules) (.cons hneeds)

theorem needsText_day : NeedsText day := needsText_digitsComponent _ (by decide) ..

theorem needsText_month : NeedsText month := needsText_digitsComponent _ (by decide) ..

theorem years (hP : Invariant g P) :
    [fullYear, Rule.digitsComponent .year 1 2 0 99].Forall (Keeps P) :=
  ⟨hP.digitsComponent, hP.digitsComponent⟩

theorem year (hP : Invariant g P) : Keeps P year := Keeps.alternatives hP.years

theorem needsText_year (hP : Invariant g P) : NeedsText Rule.year :=
  NeedsText.alternatives hP.years
    ⟨needsText_digitsComponent _ (by decide) .., needsText_digitsComponent _ (by decide) ..⟩

theorem monthWords (hP : Invariant g P) :
    [Rule.nameComponent .monthName g.lexicon.months,
      Rule.nameComponent .monthNameAbbreviation g.lexicon.monthAbbreviations,
      Rule.nameComponent .monthNameInitial g.lexicon.monthInitials].Forall (Keeps P) := by
  refine ⟨hP.nameComponent ?_, hP.nameComponent ?_, hP.nameComponent ?_⟩ <;>
    simp [Lexicon.components]

theorem monthWord (hP : Invariant g P) : Keeps P (monthWord g) := Keeps.alternatives hP.monthWords

theorem needsText_monthWord (hP : Invariant g P) : NeedsText (Rule.monthWord g) :=
  NeedsText.alternatives hP.monthWords
    ⟨needsText_nameComponent .., needsText_nameComponent .., needsText_nameComponent ..⟩

theorem dayWord (hP : Invariant g P) : Keeps P (dayWord g) := by
  refine Keeps.alternatives ⟨hP.nameComponent ?_, hP.nameComponent ?_⟩ <;>
    simp [Lexicon.components]

theorem dateLayouts (hP : Invariant g P) : Keeps P (dateLayouts g) := by
  have hcons {r : Rule} {rules : List Rule} (hr : Keeps P r) (hrules : KeepInTurn P rules) :=
    (hP.compositional.keepInTurn_cons hr hrules).sequence
  have hnil := hP.compositional.keepInTurn_nil
  -- What follows the first component of each layout.
  have hday := hP.separated .date hP.digitsComponent needsText_day hnil
  have hyear := hP.separated .date hP.year hP.needsText_year hnil
  have hyear' := hP.separated .spaceOrDate hP.year hP.needsText_year hnil
  have hmonth {rules : List Rule} (h : KeepInTurn P rules) :=
    hP.separated .date hP.digitsComponent needsText_month h
  have hword {rules : List Rule} (h : KeepInTurn P rules) :=
    hP.separated .spaceOrDate hP.monthWord hP.needsText_monthWord h
  refine Keeps.alternatives ?_
  exact ⟨hcons hP.digitsComponent (hmonth hday), hcons hP.digitsComponent (hmonth hyear),
    hcons hP.digitsComponent (hmonth hnil), hcons hP.digitsComponent (hword hyear'),
    hcons hP.digitsComponent (hword hnil), hcons hP.monthWord hyear'⟩

theorem date (hP : Invariant g P) : Keeps P (date g) := by
  refine Keeps.validated (hP.compositional.sequence ?_) (hP.parent (b := .date))
  refine ⟨hP.compositional.optional (hP.compositional.sequence ?_), hP.dateLayouts⟩
  exact ⟨hP.dayWord, hP.compositional.optional (hP.symbol (by decide)), hP.whitespace⟩

theorem fractionPart (hP : Invariant g P) : Keeps P (fractionPart g) :=
  hP.compositional.optional (hP.separated .decimal hP.secondFraction needsText_secondFraction
    hP.compositional.keepInTurn_nil).sequence

theorem secondsPart (hP : Invariant g P) : Keeps P (secondsPart g) :=
  hP.compositional.optional (hP.separated .time hP.digitsComponent
    (needsText_digitsComponent _ (by decide) ..) (hP.single hP.fractionPart)).sequence

theorem meridiem (hP : Invariant g P) : Keeps P (meridiem g) :=
  hP.nameComponent (by simp [Lexicon.components])

theorem time (hP : Invariant g P) : Keeps P (time g) := by
  have hcons {r : Rule} {rules : List Rule} (hr : Keeps P r) (hrules : KeepInTurn P rules) :=
    hP.compositional.keepInTurn_cons hr hrules
  have hmeridiem := hcons hP.optionalWhitespace (hP.single hP.meridiem)
  have hneeds : NeedsText (Rule.digitsComponent .minute 2 2 0 59) :=
    needsText_digitsComponent _ (by decide) ..
  have hminute := hP.separated .time hP.digitsComponent hneeds
    (hcons hP.secondsPart (hP.single (hP.compositional.optional hmeridiem.sequence)))
  refine Keeps.validated (Keeps.alternatives ?_) (hP.parent (b := .time))
  exact ⟨(hcons hP.digitsComponent hminute).sequence, (hcons hP.digitsComponent hmeridiem).sequence⟩

theorem dateTime (hP : Invariant g P) : Keeps P (dateTime g) := by
  refine Keeps.transform (hP.compositional.sequence ?_) (hP.parent (b := .dateTime))
  exact ⟨hP.date, hP.whitespace, hP.time⟩

/-! ### Expressions

`inner` is the rule for the operands inside an operand. -/

theorem operator (hP : Invariant g P) : Keeps P operator := by
  refine Keeps.alternatives ?_
  exact ⟨hP.symbol (by decide), hP.symbol (by decide), hP.symbol (by decide),
    hP.symbol (by decide), hP.symbol (by decide), hP.symbol (by decide), hP.symbol (by decide),
    hP.symbol (by decide), hP.symbol (by decide), hP.symbol (by decide), hP.symbol (by decide)⟩

theorem expressionOf (hP : Invariant g P) (h : Keeps P inner) : Keeps P (expressionOf inner) := by
  refine Keeps.transform (hP.compositional.sequence ?_) hP.reduced
  refine ⟨h, hP.compositional.repeated (hP.compositional.sequence ?_)⟩
  exact ⟨hP.optionalWhitespace, hP.operator, hP.optionalWhitespace, h.required⟩

theorem needsText_expressionOf (h : NeedsText inner) : NeedsText (Rule.expressionOf inner) :=
  (NeedTextInTurn.cons h).sequence.transform

theorem arguments (hP : Invariant g P) (h : Keeps P inner) (hneeds : NeedsText inner) :
    Keeps P (arguments g inner) := by
  have hcons {r : Rule} {rules : List Rule} (hr : Keeps P r) (hrules : KeepInTurn P rules) :=
    hP.compositional.keepInTurn_cons hr hrules
  have hexpression := (hP.expressionOf h).required
  have hvalue := hP.separator .value (hcons hP.optionalWhitespace (hP.single hexpression))
    (.cons_exact exact_optionalWhitespace (.cons (needsText_expressionOf hneeds).required))
  have hmore := hcons hP.optionalWhitespace hvalue
  exact (hcons (hP.expressionOf h) (hP.single (hP.compositional.repeated hmore.sequence))).sequence

theorem parametersOf (hP : Invariant g P) (h : Keeps P inner) (hneeds : NeedsText inner) :
    Keeps P (parametersOf g inner) := by
  refine Keeps.transform (hP.compositional.sequence ?_) (hP.parent (b := .functionParameters))
  exact ⟨hP.symbol (by decide), hP.optionalWhitespace,
    hP.compositional.optional (hP.arguments h hneeds), hP.optionalWhitespace,
    (hP.symbol (by decide)).required⟩

theorem namedFunctionOf (hP : Invariant g P) (h : Keeps P inner) (hneeds : NeedsText inner) :
    Keeps P (namedFunctionOf g inner) := by
  refine Keeps.transform (hP.compositional.sequence ?_) (hP.parent (b := .namedFunction))
  exact ⟨hP.functionName, hP.parametersOf h hneeds⟩

theorem lambdaOf (hP : Invariant g P) (h : Keeps P inner) (hneeds : NeedsText inner) :
    Keeps P (lambdaOf g inner) := by
  refine Keeps.transform (hP.compositional.sequence ?_) (hP.parent (b := .lambda))
  exact ⟨hP.lambdaName, hP.parametersOf h hneeds, hP.parametersOf h hneeds⟩

theorem negativeOf (hP : Invariant g P) (h : Keeps P inner) : Keeps P (negativeOf inner) := by
  refine Keeps.transform (hP.compositional.sequence ?_) (hP.parent (b := .unary (.unary .negative)))
  exact ⟨hP.symbol (by decide), hP.optionalWhitespace, h.required⟩

theorem groupOf (hP : Invariant g P) (h : Keeps P inner) : Keeps P (groupOf inner) := by
  refine Keeps.transform (hP.compositional.sequence ?_) (hP.parent (b := .unary (.unary .group)))
  exact ⟨hP.symbol (by decide), hP.optionalWhitespace, (hP.expressionOf h).required,
    hP.optionalWhitespace, (hP.symbol (by decide)).required⟩

/-- One level of operands keeps the invariant and needs text if the operands inside do. -/
theorem operandOf (hP : Invariant g P) (h : Keeps P inner) (hneeds : NeedsText inner) :
    Keeps P (operandOf g inner) ∧ NeedsText (Rule.operandOf g inner) := by
  have hkeeps : [Rule.negativeOf inner, Rule.groupOf inner, Rule.quotedText, Rule.errorLiteral,
      Rule.number g false, Rule.lambdaOf g inner, Rule.namedFunctionOf g inner, Rule.boolean,
      Rule.cellRange, Rule.cell, Rule.label].Forall (Keeps P) :=
    ⟨hP.negativeOf h, hP.groupOf h, hP.quotedText, hP.errorLiteral, hP.number,
      hP.lambdaOf h hneeds, hP.namedFunctionOf h hneeds, hP.boolean, hP.cellRange, hP.cell,
      hP.label⟩
  refine ⟨Keeps.alternatives hkeeps, NeedsText.alternatives hkeeps ?_⟩
  exact ⟨(NeedTextInTurn.cons (needsText_symbol _ (by decide))).sequence.transform,
    (NeedTextInTurn.cons (needsText_symbol _ (by decide))).sequence.transform,
    needsText_quotedText, needsText_errorLiteral, needsText_number,
    (NeedTextInTurn.cons needsText_lambdaName).sequence.transform,
    (NeedTextInTurn.cons needsText_functionName).sequence.transform,
    needsText_boolean, needsText_cellRange, needsText_cell, needsText_label⟩

end Invariant

theorem operandIn_succ (g : Grammar) (fuel : Nat) :
    operandIn g (fuel + 1) = operandOf g (operandIn g fuel) := by
  funext c
  rw [operandIn]

namespace Invariant

variable {g : Grammar} {P : Cursor → List Node → Cursor → Prop}

theorem operandIn (hP : Invariant g P) (fuel : Nat) :
    Keeps P (operandIn g fuel) ∧ NeedsText (Rule.operandIn g fuel) := by
  induction fuel with
  | zero => exact ⟨⟨nofun, nofun⟩, nofun⟩
  | succ fuel ih =>
    rw [operandIn_succ]
    exact hP.operandOf ih.1 ih.2

theorem operand (hP : Invariant g P) : Keeps P (operand g) where
  restores h := (hP.operandIn _).1.restores h
  found h := (hP.operandIn _).1.found h

theorem needsText_operand (hP : Invariant g P) : NeedsText (Rule.operand g) :=
  fun _ _ _ h => (hP.operandIn _).2 h

theorem expression (hP : Invariant g P) : Keeps P (expression g) := hP.expressionOf hP.operand

/-! ### Formulas and parsers -/

theorem conditionOf (hP : Invariant g P) (comparison : Comparison) :
    Keeps P (conditionOf g comparison) := by
  refine Keeps.transform (hP.compositional.sequence ?_)
    (hP.parent (b := .conditionRight (.conditionRight comparison)))
  exact ⟨hP.symbol (by cases comparison <;> decide), hP.optionalWhitespace, hP.expression.required⟩

theorem conditionRight (hP : Invariant g P) : Keeps P (conditionRight g) := by
  refine Keeps.alternatives ?_
  exact ⟨hP.conditionOf _, hP.conditionOf _, hP.conditionOf _, hP.conditionOf _, hP.conditionOf _,
    hP.conditionOf _⟩

theorem formula (hP : Invariant g P) : Keeps P (formula g) := by
  refine Keeps.transform (hP.compositional.sequence ?_)
    (hP.parent (b := .unary (.unary .expression)))
  exact ⟨hP.symbol (by decide), hP.optionalWhitespace, hP.expression.required,
    hP.optionalWhitespace⟩

theorem entries (hP : Invariant g P) : List.Forall (Keeps P) [
    Rule.formula g, Rule.complete (Rule.dateTime g), Rule.complete (Rule.date g),
    Rule.complete (Rule.time g), Rule.complete (Rule.number g true),
    Rule.complete Rule.apostropheText, Rule.wholeText] :=
  ⟨hP.formula, hP.dateTime.complete, hP.date.complete, hP.time.complete, hP.number.complete,
    hP.apostropheText.complete, hP.wholeText⟩

theorem valueOrExpression (hP : Invariant g P) : Keeps P (valueOrExpression g) :=
  Keeps.alternatives hP.entries

/-- Every parser keeps the invariants of its grammar. -/
theorem rule (hP : Invariant g P) (p : Parser) : Keeps P (p.rule g) := by
  cases p with
  | apostropheText => exact hP.apostropheText
  | boolean => exact hP.boolean
  | cell => exact hP.cell
  | cellRange => exact hP.cellRange
  | column => exact hP.column
  | conditionRight => exact hP.conditionRight
  | date => exact hP.date
  | dateTime => exact hP.dateTime
  | error => exact hP.errorLiteral
  | expression => exact hP.expression
  | functionName => exact hP.functionName
  | label => exact hP.label
  | lambda => exact hP.lambdaOf hP.operand hP.needsText_operand
  | namedFunction => exact hP.namedFunctionOf hP.operand hP.needsText_operand
  | number =>
    have hnumber : Keeps P (Rule.number g true) := hP.number
    exact hnumber
  | row => exact hP.row
  | templateValueName => exact hP.templateValueName
  | text => exact hP.quotedText
  | time => exact hP.time
  | valueOrExpression => exact hP.valueOrExpression

end Invariant

end Rule

namespace Grammar

variable {g : Grammar} {p : Parser} {text : Text} {n : Node} {k : Nat} {whole : Bool}

/-- What a run that gives a node did. -/
theorem run_eq_ok (h : g.run p text whole = (.ok n, k)) :
    ∃ c : Cursor, p.rule g (.start text) = (.found [n], c) ∧ c.pos = k ∧
      (whole = true → c.rest = []) := by
  simp only [run] at h
  split_ifs at h
  · cases h
  split at h
  · cases h
  · cases h
  · rename_i nodes c hfound
    split_ifs at h with hleft
    · cases h
    split at h
    · cases h
      refine ⟨c, hfound, rfl, fun hwhole => ?_⟩
      simpa [hwhole, Cursor.atEnd] using hleft
    · cases h

/-- A node that a run gives has the invariants of the grammar. -/
theorem run_keeps {P : Cursor → List Node → Cursor → Prop} (hP : Rule.Invariant g P)
    (h : g.run p text whole = (.ok n, k)) :
    ∃ c : Cursor, P (.start text) [n] c ∧ c.pos = k ∧ (whole = true → c.rest = []) := by
  obtain ⟨c, hfound, hpos, hend⟩ := run_eq_ok h
  exact ⟨c, (hP.rule p).found hfound, hpos, hend⟩

end Grammar

end SheetFormula
