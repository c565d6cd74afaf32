import SheetFormula.Proofs.FailingTokens
import SheetFormula.Proofs.Reduction

/-!
# Every parser fails by blaming the text

The constructors of dates, times, operators, groups and functions accept what the rules of the
grammar hand to them: a date and a time are checked before they are built, operands and operators
alternate, and parentheses come in pairs.  So no text brings about a defect, whatever the signs and
names of the locale, and every failure says what is wrong at which place of the text.
-/

namespace SheetFormula

namespace Rule

variable {g : Grammar} {k : Nat} {r operand : Rule} {rules : List Rule} {nodes : List Node}

/-! ### Dates and times -/

theorem giveInTurn_of_forall (h : rules.Forall fun r => ∃ S, Gives k r S) :
    GiveInTurn k rules fun _ => True := by
  induction rules with
  | nil =>
    have hnil := giveInTurn_nil (k := k)
    exact ⟨hnil.moves, fun _ _ => trivial, hnil.failed⟩
  | cons r rules ih =>
    obtain ⟨⟨S, hr⟩, hrules⟩ := (List.forall_cons ..).1 h
    have hcons := GiveInTurn.cons hr (ih hrules)
    exact ⟨hcons.moves, fun _ _ => trivial, hcons.failed⟩

/-- A sequence finds something if its first rule does. -/
theorem gives_sequence_ne_nil (hr : Gives k r (· ≠ []))
    (h : rules.Forall fun r => ∃ S, Gives k r S) :
    Gives k (sequence (r :: rules)) (· ≠ []) :=
  (GiveInTurn.cons hr (giveInTurn_of_forall h)).sequence.imp fun _ hnodes => by
    obtain ⟨first, more, hfirst, -, rfl⟩ := hnodes
    exact List.append_ne_nil_of_left_ne_nil hfirst more

theorem gives_dateSeparator (hl : g.locale.HasSigns) : Gives k (dateSeparator g) (· ≠ []) := by
  refine Gives.alternatives (List.forall_iff_forall_mem.2 fun r hr => ?_)
  obtain ⟨ch, hch, rfl⟩ := List.mem_map.1 hr
  refine (gives_symbol .dateSeparator ?_).imp fun nodes hnodes => ?_
  · simpa using (hl.date ch hch).symm
  · obtain ⟨t, rfl⟩ := hnodes
    exact List.cons_ne_nil _ _

theorem gives_spaceOrSeparator (hl : g.locale.HasSigns) :
    Gives k (spaceOrSeparator g) (· ≠ []) :=
  Gives.alternatives ⟨gives_whitespace.imp fun _ h => h.2, gives_dateSeparator hl⟩

theorem gives_year : Gives k year (· ≠ []) :=
  Gives.alternatives ⟨gives_digitsComponent, gives_digitsComponent⟩

theorem gives_monthWord : Gives k (monthWord g) (· ≠ []) :=
  Gives.alternatives ⟨gives_nameComponent, gives_nameComponent, gives_nameComponent⟩

theorem gives_dayWord : Gives k (dayWord g) (· ≠ []) :=
  Gives.alternatives ⟨gives_nameComponent, gives_nameComponent⟩

theorem gives_dateLayouts (hl : g.locale.HasSigns) : Gives k (dateLayouts g) (· ≠ []) := by
  have hday : ∃ S, Gives k day S := ⟨_, gives_digitsComponent⟩
  have hmonth : ∃ S, Gives k month S := ⟨_, gives_digitsComponent⟩
  have hyear : ∃ S, Gives k year S := ⟨_, gives_year⟩
  have hword : ∃ S, Gives k (monthWord g) S := ⟨_, gives_monthWord⟩
  have hseparator : ∃ S, Gives k (dateSeparator g) S := ⟨_, gives_dateSeparator hl⟩
  have hspace : ∃ S, Gives k (spaceOrSeparator g) S := ⟨_, gives_spaceOrSeparator hl⟩
  have hdigits {rules : List Rule} {component : Component} {fewest most low high : Nat}
      (h : rules.Forall fun r => ∃ S, Gives k r S) :
      Gives k (sequence (digitsComponent component fewest most low high :: rules)) (· ≠ []) :=
    gives_sequence_ne_nil gives_digitsComponent h
  exact Gives.alternatives ⟨hdigits ⟨hseparator, hmonth, hseparator, hday⟩,
    hdigits ⟨hseparator, hmonth, hseparator, hyear⟩, hdigits ⟨hseparator, hmonth⟩,
    hdigits ⟨hspace, hword, hspace, hyear⟩, hdigits ⟨hspace, hword⟩,
    gives_sequence_ne_nil gives_monthWord ⟨hspace, hyear⟩⟩

/-- One node that holds a date. -/
def OneDate (nodes : List Node) : Prop := ∃ parts children, nodes = [.parent (.date parts) children]

/-- One node that holds a time. -/
def OneTime (nodes : List Node) : Prop := ∃ value children, nodes = [.parent (.time value) children]

/-- A date is built of components that have been checked. -/
theorem gives_date (hl : g.locale.HasSigns) : Gives k (date g) OneDate := by
  have hprefix : Gives k (sequence [dayWord g, optional (symbol .comma [',']), whitespace])
      (· ≠ []) := by
    refine gives_sequence_ne_nil gives_dayWord ?_
    exact ⟨⟨_, (gives_symbol .comma (by decide)).optional⟩, _, gives_whitespace⟩
  refine ((GiveInTurn.cons hprefix.optional <|
    .cons (gives_dateLayouts hl) giveInTurn_nil).sequence).validated ?_
  rintro _ ⟨first, _, -, ⟨layout, _, hlayout, rfl, rfl⟩, rfl⟩ hdate
  unfold isDate at hdate
  split at hdate
  · rename_i parts hparts
    refine ⟨_, Node.date_eq_ok_iff.2 ⟨?_, parts, hparts, rfl⟩, parts, _, rfl⟩
    simp [hlayout]
  · cases hdate

theorem gives_timeSeparator (hl : g.locale.HasSigns) :
    Gives k (timeSeparator g) (OneSymbol .timeSeparator) :=
  gives_symbol .timeSeparator (by simpa using hl.time.symm)

theorem gives_secondsPart (hl : g.locale.HasSigns) : ∃ S, Gives k (secondsPart g) S := by
  have hfraction : ∃ S, Gives k (fractionPart g) S :=
    ⟨_, (GiveInTurn.cons (gives_symbol .decimalSeparator (by simpa using hl.decimal.symm)) <|
      .cons gives_secondFraction giveInTurn_nil).sequence.optional⟩
  obtain ⟨S, hS⟩ := hfraction
  exact ⟨_, (GiveInTurn.cons (gives_timeSeparator hl) <|
    .cons gives_digitsComponent <| .cons hS giveInTurn_nil).sequence.optional⟩

/-- A time is built of components that have been checked. -/
theorem gives_time (hl : g.locale.HasSigns) : Gives k (time g) OneTime := by
  have hmeridiem : Gives k (meridiem g) (· ≠ []) := gives_nameComponent
  have hbehind : ∃ S, Gives k (optional (sequence [optionalWhitespace, meridiem g])) S :=
    ⟨_, (GiveInTurn.cons gives_optionalWhitespace <|
      .cons hmeridiem giveInTurn_nil).sequence.optional⟩
  have hlayouts : Gives k (alternatives [
      sequence [
        digitsComponent .hour 1 2 0 23, timeSeparator g, digitsComponent .minute 2 2 0 59,
        secondsPart g, optional (sequence [optionalWhitespace, meridiem g])],
      sequence [digitsComponent .hour 1 2 0 12, optionalWhitespace, meridiem g]]) (· ≠ []) := by
    refine Gives.alternatives ⟨gives_sequence_ne_nil gives_digitsComponent ?_,
      gives_sequence_ne_nil gives_digitsComponent ?_⟩
    · exact ⟨⟨_, gives_timeSeparator hl⟩, ⟨_, gives_digitsComponent⟩, gives_secondsPart hl, hbehind⟩
    · exact ⟨⟨_, gives_optionalWhitespace⟩, _, hmeridiem⟩
  refine hlayouts.validated fun children hchildren htime => ?_
  unfold isTime at htime
  split at htime
  · rename_i value hvalue
    exact ⟨_, Node.time_eq_ok_iff.2 ⟨hchildren, value, hvalue, rfl⟩, value, _, rfl⟩
  · cases htime

theorem operandsOf_blanks (ts : List Text) :
    Node.operandsOf (ts.map (.leaf .whitespace)) = [] := by
  simp [Node.operandsOf, Node.isNoise_whitespace]

/-- A date and a time are accepted as a date and time. -/
theorem gives_dateTime (hl : g.locale.HasSigns) : Gives k (dateTime g) OneOperand := by
  refine ((GiveInTurn.cons (gives_date hl) <| .cons gives_whitespace <|
    .cons (gives_time hl) giveInTurn_nil).sequence).transform ?_
  rintro _ ⟨_, _, ⟨parts, ns, rfl⟩,
    ⟨_, _, ⟨⟨ts, rfl⟩, -⟩, ⟨_, _, ⟨value, ms, rfl⟩, rfl, rfl⟩, rfl⟩, rfl⟩
  refine ⟨_, Node.dateTime_eq_ok_iff.2 ⟨by simp, ⟨(true, true), ?_, by decide⟩, rfl⟩,
    oneOperand_parent ..⟩
  rw [Node.operandsOf_append, Node.operandsOf_append, operandsOf_blanks]
  rfl

/-! ### Expressions -/

/-- One leaf with the symbol of an operator other than that of ranges. -/
def OneOperator (nodes : List Node) : Prop :=
  ∃ s t, nodes = [.leaf (.symbol s) t] ∧ s.IsOperator ∧ s ≠ .between

theorem gives_operator : Gives k operator OneOperator := by
  have hsymbol (s : Symbol) (word : List Char) (hnul : nul ∉ word)
      (hs : s.IsOperator) (hbetween : s ≠ .between) :
      Gives k (symbol s word) OneOperator :=
    (gives_symbol s hnul).imp fun _ ⟨t, h⟩ => ⟨s, t, h, hs, hbetween⟩
  refine Gives.alternatives ?_
  refine ⟨?_, ?_, ?_, ?_, ?_, ?_, ?_, ?_, ?_, ?_, ?_⟩
  all_goals exact hsymbol _ _ (by decide) (by decide) (by decide)

/-- An operator with blanks around it and an operand behind it. -/
def OneLink (nodes : List Node) : Prop :=
  ∃ (j : Joint) (right : Node), nodes = j.nodes ++ [right] ∧ j.symbol.IsOperator ∧
    j.symbol ≠ .between ∧ right.IsOperand

theorem gives_link (hoperand : Gives k operand OneOperand) :
    Gives k (sequence [optionalWhitespace, operator, optionalWhitespace, required operand])
      OneLink := by
  refine ((GiveInTurn.cons gives_optionalWhitespace <| .cons gives_operator <|
    .cons gives_optionalWhitespace <| .cons hoperand.required giveInTurn_nil).sequence).imp ?_
  rintro _ ⟨_, _, ⟨before, rfl⟩, ⟨_, _, ⟨s, t, rfl, hs, hbetween⟩,
    ⟨_, _, ⟨after, rfl⟩, ⟨_, _, ⟨right, rfl, hright⟩, rfl, rfl⟩, rfl⟩, rfl⟩, rfl⟩
  exact ⟨⟨before, s, t, after⟩, right, by simp [Joint.nodes], hs, hbetween,
    Node.isOperand_iff.2 hright⟩

theorem exists_links {groups : List (List Node)} (h : ∀ group ∈ groups, OneLink group) :
    ∃ links : Links Node, groups.flatten = (links.flatMap fun l => l.1.nodes ++ [l.2]) ∧
      (∀ head : Node, head.IsOperand → IsRun head links) ∧
      ∀ l ∈ links, l.1.symbol ≠ .between := by
  induction groups with
  | nil => exact ⟨[], rfl, fun _ hhead => ⟨hhead, by simp, by simp⟩, by simp⟩
  | cons group groups ih =>
    obtain ⟨⟨j, right, rfl, hs, hbetween, hright⟩, hgroups⟩ := List.forall_mem_cons.1 h
    obtain ⟨links, hlinks, hrun, hbetweens⟩ := ih hgroups
    refine ⟨(j, right) :: links, by simp [hlinks], fun head hhead => ?_, ?_⟩
    · exact isRun_cons_iff.2 ⟨hhead, hs, hrun right hright⟩
    · exact List.forall_mem_cons.2 ⟨hbetween, hbetweens⟩

theorem rangesJoinCells_of_ne {links : Links Node} (h : ∀ l ∈ links, l.1.symbol ≠ .between)
    (head : Node) : RangesJoinCells head links := by
  induction links generalizing head with
  | nil => trivial
  | cons link links ih =>
    obtain ⟨hlink, hlinks⟩ := List.forall_mem_cons.1 h
    exact ⟨fun hbetween => absurd hbetween hlink, ih hlinks link.2⟩

/-- Operands joined by operators are an operand and any number of links. -/
theorem gives_concatenation (hoperand : Gives k operand OneOperand) :
    Gives k (concatenation operand)
      (Followed OneOperand (Followed (Groups OneLink) (· = []))) :=
  (GiveInTurn.cons hoperand <| .cons (gives_link hoperand).repeated giveInTurn_nil).sequence

/-- Operands joined by operators are folded into one node. -/
theorem gives_expressionOf (hoperand : Gives k operand OneOperand) :
    Gives k (expressionOf operand) OneOperand := by
  refine (gives_concatenation hoperand).transform ?_
  rintro _ ⟨_, _, ⟨head, rfl, hhead⟩, ⟨_, _, ⟨groups, hgroups, rfl⟩, rfl, rfl⟩, rfl⟩
  obtain ⟨links, hlinks, hruns, hbetweens⟩ := exists_links hgroups
  have hrun := hruns head (Node.isOperand_iff.2 hhead)
  obtain ⟨n, hn, htree⟩ := Node.exists_node_of_run hrun (rangesJoinCells_of_ne hbetweens head)
  refine ⟨n, ?_, n, rfl, (Node.isOperand_node?_ofRun hrun.head htree).isNoise⟩
  rw [List.append_nil, hlinks]
  exact hn

/-- A symbol consumes its text. -/
theorem consumes_symbol (s : Symbol) {ch : Char} {word : List Char} (hnul : nul ∉ ch :: word) :
    Consumes (symbol s (ch :: word)) := by
  intro c next nodes h
  obtain ⟨-, rfl, -⟩ := symbol_found_iff.1 h
  obtain ⟨r, rest, hrest⟩ := List.exists_cons_of_ne_nil (needsText_symbol s hnul h)
  simp only [Cursor.advance, hrest, List.length_cons, List.drop_succ_cons, List.length_drop]
  omega

/-- One node that holds the parameters of a function. -/
def OneParameters (nodes : List Node) : Prop :=
  ∃ children, nodes = [.parent .functionParameters children]

/-- A further argument behind its separator. -/
theorem gives_furtherArgument (hl : g.locale.HasSigns) (hoperand : Gives k operand OneOperand) :
    ∃ S, Gives k (sequence [optionalWhitespace, symbol .valueSeparator [g.locale.valueSeparator],
      optionalWhitespace, required (expressionOf operand)]) S :=
  ⟨_, (GiveInTurn.cons gives_optionalWhitespace <|
    .cons (gives_symbol .valueSeparator (by simpa using hl.value.symm)) <|
    .cons gives_optionalWhitespace <|
    .cons (gives_expressionOf hoperand).required giveInTurn_nil).sequence⟩

theorem gives_arguments (hl : g.locale.HasSigns) (hoperand : Gives k operand OneOperand) :
    ∃ S, Gives k (arguments g operand) S := by
  obtain ⟨S, hfurther⟩ := gives_furtherArgument hl hoperand
  exact ⟨_, (GiveInTurn.cons (gives_expressionOf hoperand) <|
    .cons hfurther.repeated giveInTurn_nil).sequence⟩

/-- What stands in parentheses is accepted as parameters. -/
theorem gives_parametersOf (hl : g.locale.HasSigns) (hoperand : Gives k operand OneOperand) :
    Gives (k + 1) (parametersOf g operand) OneParameters := by
  obtain ⟨S, harguments⟩ := gives_arguments hl hoperand
  refine ((GiveInTurn.cons_consumes (gives_symbol .parenthesisOpen (by decide))
    (consumes_symbol _ (by decide)) <| .cons gives_optionalWhitespace <|
    .cons harguments.optional <| .cons gives_optionalWhitespace <|
    .cons (gives_symbol .parenthesisClose (by decide)).required
      giveInTurn_nil).sequence).transform ?_
  rintro _ ⟨_, _, ⟨t, rfl⟩, ⟨blanks, _, -, ⟨ns, _, -, ⟨blanks', _, -, ⟨_, _, ⟨u, rfl⟩, rfl, rfl⟩,
    rfl⟩, rfl⟩, rfl⟩, rfl⟩
  refine ⟨_, Node.functionParameters_eq_ok_iff.2 ⟨rfl, ?_, rfl⟩, _, rfl⟩
  simp [List.getLast?_cons, List.getLast?_append, Node.kind, Content.kind]

/-- A name and parameters are accepted as a call. -/
theorem gives_namedFunctionOf (hl : g.locale.HasSigns) (hoperand : Gives k operand OneOperand) :
    Gives (k + 1) (namedFunctionOf g operand) OneOperand := by
  refine ((GiveInTurn.cons gives_functionName <|
    .cons (gives_parametersOf hl hoperand) giveInTurn_nil).sequence).transform ?_
  rintro _ ⟨_, _, ⟨name, t, rfl⟩, ⟨_, _, ⟨children, rfl⟩, rfl, rfl⟩, rfl⟩
  exact ⟨_, Node.namedFunction_eq_ok_iff.2 ⟨name, t, children, rfl, rfl⟩, oneOperand_parent ..⟩

theorem gives_lambdaOf (hl : g.locale.HasSigns) (hoperand : Gives k operand OneOperand) :
    Gives (k + 1) (lambdaOf g operand) OneOperand := by
  have hparameters := gives_parametersOf hl hoperand
  refine ((GiveInTurn.cons gives_lambdaName <| .cons hparameters <|
    .cons hparameters giveInTurn_nil).sequence).transform ?_
  rintro _ ⟨_, _, ⟨name, t, rfl⟩, ⟨_, _, ⟨ns, rfl⟩, ⟨_, _, ⟨ms, rfl⟩, rfl, rfl⟩, rfl⟩, rfl⟩
  exact ⟨_, Node.lambda_eq_ok_iff.2 ⟨name, t, ns, ms, rfl, rfl⟩, oneOperand_parent ..⟩

/-- One operand among noise is accepted by a wrapper. -/
theorem unary_ok {wrapper : Wrapper} {n : Node} (h : Node.operandsOf nodes = [n]) :
    ∃ m, Node.unary (.unary wrapper) nodes = .ok m ∧ OneOperand [m] :=
  ⟨_, Node.unary_eq_ok_iff.2 ⟨by rw [h]; rfl, rfl⟩, oneOperand_parent ..⟩

theorem operandsOf_symbol_blanks {s : Symbol} {t : Text} {ts : List Text} {n : Node}
    (hn : n.isNoise = false) {more : List Node} (hmore : Node.operandsOf more = []) :
    Node.operandsOf (.leaf (.symbol s) t :: (ts.map (.leaf .whitespace) ++ n :: more)) = [n] := by
  show Node.operandsOf (ts.map (.leaf .whitespace) ++ ([n] ++ more)) = [n]
  rw [Node.operandsOf_append, Node.operandsOf_append, operandsOf_blanks, hmore]
  simp [Node.operandsOf, hn]

theorem gives_negativeOf (hoperand : Gives k operand OneOperand) :
    Gives (k + 1) (negativeOf operand) OneOperand := by
  refine ((GiveInTurn.cons_consumes (gives_symbol .minus (by decide))
    (consumes_symbol _ (by decide)) <| .cons gives_optionalWhitespace <|
    .cons hoperand.required giveInTurn_nil).sequence).transform ?_
  rintro _ ⟨_, _, ⟨t, rfl⟩, ⟨_, _, ⟨ts, rfl⟩, ⟨_, _, ⟨n, rfl, hn⟩, rfl, rfl⟩, rfl⟩, rfl⟩
  exact unary_ok (operandsOf_symbol_blanks hn rfl)

theorem gives_groupOf (hoperand : Gives k operand OneOperand) :
    Gives (k + 1) (groupOf operand) OneOperand := by
  refine ((GiveInTurn.cons_consumes (gives_symbol .parenthesisOpen (by decide))
    (consumes_symbol _ (by decide)) <| .cons gives_optionalWhitespace <|
    .cons (gives_expressionOf hoperand).required <| .cons gives_optionalWhitespace <|
    .cons (gives_symbol .parenthesisClose (by decide)).required
      giveInTurn_nil).sequence).transform ?_
  rintro _ ⟨_, _, ⟨t, rfl⟩, ⟨_, _, ⟨ts, rfl⟩, ⟨_, _, ⟨n, rfl, hn⟩,
    ⟨_, _, ⟨ts', rfl⟩, ⟨_, _, ⟨u, rfl⟩, rfl, rfl⟩, rfl⟩, rfl⟩, rfl⟩, rfl⟩
  refine unary_ok (operandsOf_symbol_blanks hn ?_)
  show Node.operandsOf (ts'.map (.leaf .whitespace) ++ [_]) = []
  rw [Node.operandsOf_append, operandsOf_blanks]
  rfl

theorem gives_operandOf (hl : g.locale.HasSigns) (hoperand : Gives k operand OneOperand) :
    Gives (k + 1) (operandOf g operand) OneOperand := by
  refine Gives.alternatives ?_
  exact ⟨gives_negativeOf hoperand, gives_groupOf hoperand, gives_quotedText, gives_errorLiteral,
    gives_number hl.percent false, gives_lambdaOf hl hoperand, gives_namedFunctionOf hl hoperand,
    gives_boolean, gives_cellRange, gives_cell.imp fun _ h => h.oneOperand, gives_label⟩

/-- Every level of nesting consumes a rune, so there are fewer levels than runes. -/
theorem gives_operandIn (hl : g.locale.HasSigns) (fuel : Nat) :
    Gives fuel (operandIn g fuel) OneOperand := by
  induction fuel with
  | zero => exact ⟨⟨nofun, nofun⟩, fun hlt => absurd hlt (Nat.not_lt_zero _),
      fun hlt => absurd hlt (Nat.not_lt_zero _)⟩
  | succ fuel ih =>
    rw [operandIn_succ]
    exact gives_operandOf hl ih

theorem gives_operand (hl : g.locale.HasSigns) : Gives k (Rule.operand g) OneOperand where
  moves := ⟨(gives_operandIn hl _).moves.restores, (gives_operandIn hl _).moves.found⟩
  found {c _ _} _ h := (gives_operandIn hl _).found (Nat.lt_succ_self c.rest.length) h
  failed {c _ _} _ h := (gives_operandIn hl _).failed (Nat.lt_succ_self c.rest.length) h

/-! ### Parsers -/

theorem gives_expression (hl : g.locale.HasSigns) : Gives k (expression g) OneOperand :=
  gives_expressionOf (gives_operand hl)

/-- The symbol in front of blanks and an operand is found in its place. -/
theorem checkOperator_first {kind : Kind} {s : Symbol} {t : Text} {ts : List Text} {n : Node}
    (hn : n.isNoise = false) :
    Node.checkOperator kind s 0 (.leaf (.symbol s) t :: (ts.map (.leaf .whitespace) ++ [n])) =
      .ok () := by
  have hspace : (ts.map (Node.leaf .whitespace)).filter (!·.isWhitespace) = [] := by
    simp [Node.isWhitespace, Node.kind, Content.kind]
  have hsymbol : (Node.leaf (.symbol s) t).isWhitespace = false := rfl
  have hfilter : (Node.leaf (.symbol s) t :: (ts.map (.leaf .whitespace) ++ [n])).filter
      (!·.isWhitespace) = [.leaf (.symbol s) t, n] := by
    rw [List.filter_cons, List.filter_append, hspace]
    simp [Node.isWhitespace_eq_false hn, hsymbol]
  have hfirst : Node.checkSymbol kind s 0 (0, 0) (.leaf (.symbol s) t) = .ok (1, 1) := by
    simp [Node.checkSymbol]
  rw [Node.checkOperator, hfilter, List.foldlM_cons, hfirst]
  show (Node.checkSymbol kind s 0 (1, 1) n >>= _) >>= _ = _
  rw [Node.checkSymbol_operand hn]
  rfl

/-- A comparison sign and an operand are accepted as a condition. -/
theorem gives_conditionOf (hl : g.locale.HasSigns) (comparison : Comparison) :
    Gives k (conditionOf g comparison) OneOperand := by
  have hnul : nul ∉ comparison.sign.toList := by cases comparison <;> decide
  refine ((GiveInTurn.cons (gives_symbol comparison.symbol hnul) <|
    .cons gives_optionalWhitespace <|
    .cons (gives_expression hl).required giveInTurn_nil).sequence).transform ?_
  rintro _ ⟨_, _, ⟨t, rfl⟩, ⟨_, _, ⟨ts, rfl⟩, ⟨_, _, ⟨n, rfl, hn⟩, rfl, rfl⟩, rfl⟩, rfl⟩
  refine ⟨_, Node.conditionRight_eq_ok_iff.2 ⟨?_, ?_, rfl⟩, oneOperand_parent ..⟩
  · have hoperands : Node.operandsOf (.leaf (.symbol comparison.symbol) t ::
        (ts.map (.leaf .whitespace) ++ [n])) = [n] := operandsOf_symbol_blanks hn rfl
    exact congrArg List.length hoperands
  · exact checkOperator_first hn

theorem gives_conditionRight (hl : g.locale.HasSigns) : Gives k (conditionRight g) OneOperand := by
  refine Gives.alternatives ?_
  exact ⟨gives_conditionOf hl _, gives_conditionOf hl _, gives_conditionOf hl _,
    gives_conditionOf hl _, gives_conditionOf hl _, gives_conditionOf hl _⟩

theorem gives_formula (hl : g.locale.HasSigns) : Gives k (formula g) OneOperand := by
  refine ((GiveInTurn.cons (gives_symbol .equals (by decide)) <|
    .cons gives_optionalWhitespace <| .cons (gives_expression hl).required <|
    .cons gives_optionalWhitespace giveInTurn_nil).sequence).transform ?_
  rintro _ ⟨_, _, ⟨t, rfl⟩, ⟨_, _, ⟨ts, rfl⟩, ⟨_, _, ⟨n, rfl, hn⟩, ⟨_, _, ⟨ts', rfl⟩, rfl, rfl⟩,
    rfl⟩, rfl⟩, rfl⟩
  refine unary_ok (operandsOf_symbol_blanks hn ?_)
  show Node.operandsOf (ts'.map (.leaf .whitespace) ++ []) = []
  rw [List.append_nil, operandsOf_blanks]

theorem OneDate.oneOperand (h : OneDate nodes) : OneOperand nodes := by
  obtain ⟨parts, children, rfl⟩ := h
  exact oneOperand_parent ..

theorem OneTime.oneOperand (h : OneTime nodes) : OneOperand nodes := by
  obtain ⟨value, children, rfl⟩ := h
  exact oneOperand_parent ..

theorem gives_valueOrExpression (hl : g.locale.HasSigns) :
    Gives k (valueOrExpression g) OneOperand := by
  refine Gives.alternatives ?_
  exact ⟨gives_formula hl, (gives_dateTime hl).complete,
    ((gives_date hl).imp fun _ h => h.oneOperand).complete,
    ((gives_time hl).imp fun _ h => h.oneOperand).complete, (gives_number hl.percent true).complete,
    gives_apostropheText.complete, gives_wholeText⟩

/-- Every parser finds one node, or is absent, or fails by blaming the text. -/
theorem gives_rule (hl : g.locale.HasSigns) (p : Parser) : Gives k (p.rule g) OneOperand := by
  have hoperand : Gives k (Rule.operand g) OneOperand := gives_operand hl
  cases p with
  | apostropheText => exact gives_apostropheText
  | boolean => exact gives_boolean
  | cell => exact gives_cell.imp fun _ h => h.oneOperand
  | cellRange => exact gives_cellRange
  | column => exact gives_column
  | conditionRight => exact gives_conditionRight hl
  | date => exact (gives_date hl).imp fun _ h => h.oneOperand
  | dateTime => exact gives_dateTime hl
  | error => exact gives_errorLiteral
  | expression => exact gives_expression hl
  | functionName => exact gives_functionName.imp fun _ h => h.oneOperand
  | label => exact gives_label
  | lambda => exact (gives_lambdaOf hl hoperand).mono (Nat.le_succ k)
  | namedFunction => exact (gives_namedFunctionOf hl hoperand).mono (Nat.le_succ k)
  | number => exact gives_number hl.percent true
  | row => exact gives_row
  | templateValueName => exact gives_templateValueName
  | text => exact gives_quotedText
  | time => exact (gives_time hl).imp fun _ h => h.oneOperand
  | valueOrExpression => exact gives_valueOrExpression hl

end Rule

/-! ### Errors of a parse -/

/-- What the error of a parse says about the text.  A column or a row out of bounds has the code of
bad references, a number without a value that of bad numbers, and any other error, with nothing
behind it, the general code.  Of the latter an error says that the text is too long, that it has
come to its end, or which rune of it does not belong where it is. -/
structure ParseError.IsAbout (e : ParseError) (text : Text) : Prop where
  pos_le : e.pos ≤ text.runeCount
  code_cases : e.code = .ref ∨ e.code = .num ∨ e.code = .other
  code_ref_iff : e.code = .ref ↔ ∃ axis t, e.cause = .reference (.outOfBounds axis t)
  code_num_iff : e.code = .num ↔ ∃ t fault, e.cause = .number t fault
  code_other_iff : e.code = .other ↔
    e.cause = .endOfText ∨ (∃ c, e.cause = .invalidCharacter c) ∨ ∃ n, e.cause = .tooLong n
  tooLong_iff : (∃ n, e.cause = .tooLong n) ↔ maxFormulaLength < text.runeCount
  message_end : e.code = .other → text.runeCount ≤ maxFormulaLength → e.pos = text.runeCount →
    e.message = .join ["End of text at (", .ofNat (e.pos + 1), ")"]
  message_rune : e.code = .other → text.runeCount ≤ maxFormulaLength → e.pos ≠ text.runeCount →
    ∃ r, text.runes[e.pos]? = some r ∧
      e.message = .join ["Invalid character ", quotedChar r.value, " at (", .ofNat (e.pos + 1), ")"]

namespace ParseError

variable {text : Text} {c : Cursor} {e : ParseError}

theorem code_values_ne : ErrorCode.other ≠ .ref ∧ ErrorCode.other ≠ .num ∧ ErrorCode.ref ≠ .num ∧
    ErrorCode.ref ≠ .other ∧ ErrorCode.num ≠ .ref ∧ ErrorCode.num ≠ .other := by
  decide

theorem isAbout_unexpectedAt {w : List Rune} (hlength : text.runeCount ≤ maxFormulaLength)
    (hw : (Cursor.start text).Passes w c) : (unexpectedAt c).IsAbout text := by
  have hrest : text.runes = w ++ c.rest := hw.rest
  have hpos : c.pos = w.length := hw.pos.trans (Nat.zero_add _)
  have hcount : text.runeCount = w.length + c.rest.length := by
    rw [Text.runeCount, hrest, List.length_append]
  unfold unexpectedAt
  -- At the end there is no rune to tell of; anywhere else it is the one at the position.
  cases hend : c.rest with
  | nil =>
    rw [hend, List.length_nil, Nat.add_zero, ← hpos] at hcount
    simp only [Cursor.atEnd, hend, List.isEmpty_nil, if_true]
    exact {
      pos_le := Nat.le_of_eq hcount.symm
      code_cases := .inr (.inr rfl)
      code_ref_iff := by simp [code, code_values_ne]
      code_num_iff := by simp [code, code_values_ne]
      code_other_iff := by simp [code]
      tooLong_iff := by simpa using hlength
      message_end := fun _ _ _ => rfl
      message_rune := fun _ _ hne => absurd hcount.symm hne }
  | cons r rest =>
    have hlt : c.pos < text.runeCount := by
      rw [hcount, hend, hpos, List.length_cons]
      omega
    have hrune : text.runes[c.pos]? = some r := by
      rw [hrest, hend, hpos, List.getElem?_append_right (Nat.le_refl _), Nat.sub_self]
      rfl
    simp only [Cursor.atEnd, Cursor.current, hend, List.isEmpty_cons, Bool.false_eq_true, if_false]
    exact {
      pos_le := Nat.le_of_lt hlt
      code_cases := .inr (.inr rfl)
      code_ref_iff := by simp [code, code_values_ne]
      code_num_iff := by simp [code, code_values_ne]
      code_other_iff := by simp [code]
      tooLong_iff := by simpa using hlength
      message_end := fun _ _ heq => absurd heq (Nat.ne_of_lt hlt)
      message_rune := fun _ _ _ => ⟨r, hrune, rfl⟩ }

theorem StandsAt.isAbout {w : List Rune} (hlength : text.runeCount ≤ maxFormulaLength)
    (hw : (Cursor.start text).Passes w c) (h : StandsAt c e) : e.IsAbout text := by
  have hle : c.pos ≤ text.runeCount := by
    have hrest : text.runes = w ++ c.rest := hw.rest
    rw [Text.runeCount, hrest, List.length_append, hw.pos]
    exact Nat.le_trans (Nat.le_of_eq (Nat.zero_add _)) (Nat.le_add_right ..)
  -- The other two errors are told with the text they are about, not with a rune.
  cases h with
  | unexpected => exact isAbout_unexpectedAt hlength hw
  | outOfBounds axis t =>
    exact {
      pos_le := hle
      code_cases := .inl rfl
      code_ref_iff := by simp [code]
      code_num_iff := by simp [code, code_values_ne]
      code_other_iff := by simp [code, code_values_ne]
      tooLong_iff := by simpa using hlength
      message_end := fun hother => absurd hother (by simp [code, code_values_ne])
      message_rune := fun hother => absurd hother (by simp [code, code_values_ne]) }
  | number t fault _ =>
    exact {
      pos_le := hle
      code_cases := .inr (.inl rfl)
      code_ref_iff := by simp [code, code_values_ne]
      code_num_iff := by simp [code]
      code_other_iff := by simp [code, code_values_ne]
      tooLong_iff := by simpa using hlength
      message_end := fun hother => absurd hother (by simp [code, code_values_ne])
      message_rune := fun hother => absurd hother (by simp [code, code_values_ne]) }

theorem isAbout_tooLong (hlong : maxFormulaLength < text.runeCount) (n : Nat) :
    (⟨maxFormulaLength, .tooLong n⟩ : ParseError).IsAbout text where
  pos_le := Nat.le_of_lt hlong
  code_cases := .inr (.inr rfl)
  code_ref_iff := by simp [code, code_values_ne]
  code_num_iff := by simp [code, code_values_ne]
  code_other_iff := by simp [code]
  tooLong_iff := by simpa using hlong
  message_end _ hlength := absurd hlong (Nat.not_lt.2 hlength)
  message_rune _ hlength := absurd hlong (Nat.not_lt.2 hlength)

end ParseError

namespace Grammar

/-- A parse fails because the text is too long, or because of what is wrong at a place in it. -/
theorem stands_of_run {g : Grammar} (hl : g.locale.HasSigns) {p : Parser} {text : Text}
    {whole : Bool} {failure : Failure} (h : (g.run p text whole).1 = .error failure) :
    maxFormulaLength < text.runeCount ∧
        failure = .parse ⟨maxFormulaLength, .tooLong text.runeCount⟩ ∨
      text.runeCount ≤ maxFormulaLength ∧ (Cursor.start text).Blames failure := by
  have hgives := Rule.gives_rule (k := text.runes.length + 1) hl p
  have hstart : (Cursor.start text).rest.length < text.runes.length + 1 := Nat.lt_succ_self _
  simp only [run] at h
  split_ifs at h with hlong
  · cases h
    exact .inl ⟨hlong, rfl⟩
  refine .inr ⟨Nat.le_of_not_lt hlong, ?_⟩
  -- The rule fails, is absent at the start, or leaves something behind when all was to be read.
  split at h
  next f c hfailed =>
    cases h
    exact hgives.failed hstart hfailed
  next c habsent =>
    cases h
    rw [hgives.moves.restores habsent]
    exact .here .unexpected
  next nodes c hfound =>
    obtain ⟨w, hw⟩ := hgives.moves.found hfound
    obtain ⟨n, rfl, -⟩ := hgives.found hstart hfound
    split_ifs at h
    · cases h
      exact (Cursor.Blames.here .unexpected).behind hw

theorem failure_of_run {g : Grammar} (hl : g.locale.HasSigns) {p : Parser} {text : Text}
    {whole : Bool} {failure : Failure} (h : (g.run p text whole).1 = .error failure) :
    ∃ e, failure = .parse e ∧ e.IsAbout text := by
  rcases stands_of_run hl h with ⟨hlong, rfl⟩ | ⟨hlength, w, stop, e, hw, he, rfl⟩
  · exact ⟨_, rfl, ParseError.isAbout_tooLong hlong _⟩
  · exact ⟨e, rfl, he.isAbout hlength hw⟩

/-- An error about a text is none of the application. -/
theorem code?_of_run {g : Grammar} (hl : g.locale.HasSigns) {p : Parser} {text : Text}
    {whole : Bool} {failure : Failure} (h : (g.run p text whole).1 = .error failure) :
    failure.code? = none := by
  obtain ⟨e, rfl, -⟩ := failure_of_run hl h
  rfl

/-- No text brings about a defect of a grammar whose signs are not NUL: whatever the parser, the
failure of a parse, or of a parse of the beginning of a text, is an error about the text. -/
theorem failure_isAbout (l : Locale) (hl : l.HasSigns) (p : Parser) (text : Text)
    (failure : Failure)
    (h : (ofLocale l).parse p text = .error failure ∨
      ((ofLocale l).parsePrefix p text).1 = .error failure) :
    ∃ e, failure = .parse e ∧ e.IsAbout text := by
  rcases h with h | h
  · exact failure_of_run (g := ofLocale l) hl h
  · exact failure_of_run (g := ofLocale l) hl h

/-- An operand is missing at the end of the text. -/
theorem failure_isAbout_unfinished : ∃ failure,
    (ofLocale {}).parse .valueOrExpression "=1+" = .error failure ∧
      ∃ e, failure = .parse e ∧ e.IsAbout "=1+" := by
  cases h : (ofLocale {}).parse .valueOrExpression "=1+" with
  | ok n =>
    have hfails : ((ofLocale {}).parse .valueOrExpression "=1+").isOk = false := by decide +kernel
    rw [h] at hfails
    cases hfails
  | error failure =>
    exact ⟨failure, rfl, failure_isAbout {} Locale.hasSigns_default _ _ _ (.inl h)⟩

end Grammar

end SheetFormula
