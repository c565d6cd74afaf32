import SheetFormula.Proofs.CaselessTokens
import SheetFormula.Proofs.Keys
import SheetFormula.Proofs.Outcomes
import SheetFormula.Proofs.Sameness

/-!
# Letter case in expressions

The rules for expressions ignore letter case, since the rules for their tokens do and the
constructors look at kinds only.  So a text in lower case is read as the tree in lower case,
`Grammar.parse_lower_iff`, and texts that differ in the case of letters are read as trees of one
shape.  What a tree makes depends on the case of letters only where there are labels or texts.

* `Shape`, `Node.kinds`: what of a tree does not depend on the case of letters;
* `agreeingResult`: the same results, errors compared by the code that a cell shows;
* `Grammar.expression_inEitherCase`.
-/

namespace SheetFormula

/-! ### The rules for expressions -/

/-- The signs of a locale that stand in expressions are no letters. -/
structure Locale.HasCaselessSigns (l : Locale) : Prop where
  value : isLetter l.valueSeparator = false
  decimal : isLetter l.decimalSeparator = false
  percent : isLetter l.percentSymbol = false

theorem Locale.hasCaselessSigns_default : ({} : Locale).HasCaselessSigns :=
  ⟨by decide, by decide, by decide⟩

namespace Rule

variable {g : Grammar} {operand : Rule}

theorem operator_ignoresCase : IgnoresCase operator := by
  refine IgnoresCase.alternatives (List.forall_iff_forall_mem.2 fun r hr => ?_)
  simp only [List.mem_cons, List.not_mem_nil, or_false] at hr
  rcases hr with rfl | rfl | rfl | rfl | rfl | rfl | rfl | rfl | rfl | rfl | rfl <;>
    exact symbol_ignoresCase _ (by decide)

theorem expressionOf_ignoresCase (h : IgnoresCase operand) :
    IgnoresCase (expressionOf operand) := by
  have hlink : IgnoresCase
      (sequence [optionalWhitespace, operator, optionalWhitespace, required operand]) :=
    IgnoresCase.sequence ⟨optionalWhitespace_ignoresCase, operator_ignoresCase,
      optionalWhitespace_ignoresCase, h.required⟩
  exact IgnoresCase.transform (IgnoresCase.sequence ⟨h, hlink.repeated⟩) Node.reduce_lower

theorem arguments_ignoresCase (hg : g.locale.HasCaselessSigns) (h : IgnoresCase operand) :
    IgnoresCase (arguments g operand) := by
  have hexpression := expressionOf_ignoresCase h
  have hlink : IgnoresCase (sequence [optionalWhitespace,
      symbol .valueSeparator [g.locale.valueSeparator], optionalWhitespace,
      required (expressionOf operand)]) :=
    IgnoresCase.sequence ⟨optionalWhitespace_ignoresCase,
      symbol_ignoresCase _ (List.forall_mem_singleton.2 hg.value), optionalWhitespace_ignoresCase,
      hexpression.required⟩
  exact IgnoresCase.sequence ⟨hexpression, hlink.repeated⟩

theorem parametersOf_ignoresCase (hg : g.locale.HasCaselessSigns) (h : IgnoresCase operand) :
    IgnoresCase (parametersOf g operand) := by
  refine IgnoresCase.transform (IgnoresCase.sequence ?_) Node.functionParameters_lower
  exact ⟨symbol_ignoresCase _ (by decide), optionalWhitespace_ignoresCase,
    (arguments_ignoresCase hg h).optional, optionalWhitespace_ignoresCase,
    (symbol_ignoresCase _ (by decide)).required⟩

theorem namedFunctionOf_ignoresCase (hg : g.locale.HasCaselessSigns) (h : IgnoresCase operand) :
    IgnoresCase (namedFunctionOf g operand) :=
  IgnoresCase.transform
    (IgnoresCase.sequence ⟨functionName_ignoresCase, parametersOf_ignoresCase hg h⟩)
    Node.namedFunction_lower

theorem lambdaOf_ignoresCase (hg : g.locale.HasCaselessSigns) (h : IgnoresCase operand) :
    IgnoresCase (lambdaOf g operand) :=
  IgnoresCase.transform
    (IgnoresCase.sequence ⟨lambdaName_ignoresCase, parametersOf_ignoresCase hg h,
      parametersOf_ignoresCase hg h⟩)
    Node.lambda_lower

theorem negativeOf_ignoresCase (h : IgnoresCase operand) : IgnoresCase (negativeOf operand) :=
  IgnoresCase.transform
    (IgnoresCase.sequence ⟨symbol_ignoresCase _ (by decide), optionalWhitespace_ignoresCase,
      h.required⟩)
    (Node.unary_lower .negative)

theorem groupOf_ignoresCase (h : IgnoresCase operand) : IgnoresCase (groupOf operand) :=
  IgnoresCase.transform
    (IgnoresCase.sequence ⟨symbol_ignoresCase _ (by decide), optionalWhitespace_ignoresCase,
      (expressionOf_ignoresCase h).required, optionalWhitespace_ignoresCase,
      (symbol_ignoresCase _ (by decide)).required⟩)
    (Node.unary_lower .group)

theorem operandOf_ignoresCase (hg : g.locale.HasCaselessSigns) (h : IgnoresCase operand) :
    IgnoresCase (operandOf g operand) :=
  IgnoresCase.alternatives ⟨negativeOf_ignoresCase h, groupOf_ignoresCase h,
    quotedText_ignoresCase, errorLiteral_ignoresCase, number_ignoresCase hg.decimal hg.percent,
    lambdaOf_ignoresCase hg h, namedFunctionOf_ignoresCase hg h, boolean_ignoresCase,
    cellRange_ignoresCase, cell_ignoresCase, label_ignoresCase⟩

theorem operandIn_ignoresCase (hg : g.locale.HasCaselessSigns) (fuel : Nat) :
    IgnoresCase (operandIn g fuel) := by
  induction fuel with
  | zero => exact fun c hc => .failed hc
  | succ fuel ih =>
    rw [operandIn_succ]
    exact operandOf_ignoresCase hg ih

/-- In lower case there are as many runes, and so as many levels of nesting. -/
theorem operand_ignoresCase (hg : g.locale.HasCaselessSigns) : IgnoresCase (Rule.operand g) := by
  intro c hc
  have hlength : c.lower.rest.length = c.rest.length := List.length_map ..
  rw [Rule.operand, Rule.operand, hlength]
  exact operandIn_ignoresCase hg _ hc

theorem expression_ignoresCase (hg : g.locale.HasCaselessSigns) : IgnoresCase (expression g) :=
  expressionOf_ignoresCase (operand_ignoresCase hg)

end Rule

/-! ### Kinds -/

/-- The kinds of a tree, one inside another. -/
inductive Shape
  | of (kind : Kind) (parts : List Shape)

namespace Node

mutual

/-- The kinds of a tree and where they stand in it. -/
def shape : Node → Shape
  | leaf content _ => .of content.kind []
  | parent form children => .of form.kind (shapes children)

/-- The shapes of trees. -/
def shapes : List Node → List Shape
  | [] => []
  | n :: rest => n.shape :: shapes rest

end

mutual

/-- The kinds of all nodes of a tree. -/
def kinds : Node → List Kind
  | leaf content _ => [content.kind]
  | parent form children => form.kind :: kindsOfAll children

/-- The kinds of all nodes of trees. -/
def kindsOfAll : List Node → List Kind
  | [] => []
  | n :: rest => n.kinds ++ kindsOfAll rest

end

mutual

theorem shape_lower (n : Node) : n.lower.shape = n.shape := by
  match n with
  | leaf content text => rw [lower, shape, shape, Content.kind_lower]
  | parent form children => rw [lower, shape, shape, Form.kind_lower, shapes_lowerAll children]

theorem shapes_lowerAll (ns : List Node) : shapes (lowerAll ns) = shapes ns := by
  match ns with
  | [] => rfl
  | n :: rest => rw [lowerAll, shapes, shapes, shape_lower n, shapes_lowerAll rest]

end

mutual

theorem kinds_lower (n : Node) : n.lower.kinds = n.kinds := by
  match n with
  | leaf content text => rw [lower, kinds, kinds, Content.kind_lower]
  | parent form children =>
    rw [lower, kinds, kinds, Form.kind_lower, kindsOfAll_lowerAll children]

theorem kindsOfAll_lowerAll (ns : List Node) : kindsOfAll (lowerAll ns) = kindsOfAll ns := by
  match ns with
  | [] => rfl
  | n :: rest => rw [lowerAll, kindsOfAll, kindsOfAll, kinds_lower n, kindsOfAll_lowerAll rest]

end

/-! ### Halves of a date and time -/

theorem operands_lower (n : Node) : n.lower.operands = n.operands.map lower := by
  cases n with
  | leaf content text => rw [lower_leaf]; rfl
  | parent form children =>
    rw [lower_parent]
    exact operandsOf_lower children

theorem find?_kind_lower (kind : Kind) (ns : List Node) :
    (ns.map lower).find? (·.kind = kind) = (ns.find? (·.kind = kind)).map lower := by
  have hkind : (fun m : Node => decide (m.kind = kind)) ∘ lower =
      fun m => decide (m.kind = kind) :=
    funext fun m => by simp only [Function.comp_apply, kind_lower]
  rw [List.find?_map, hkind]

theorem dateHalf?_cases (n : Node) : n.dateHalf? = none ∨
    ∃ parts children, n.dateHalf? = some (.parent (.date parts) children) := by
  cases hdate : n.dateHalf? with
  | none => exact .inl rfl
  | some half =>
    rw [dateHalf?] at hdate
    obtain ⟨parts, children, rfl⟩ := exists_date_of_kind (by simpa using List.find?_some hdate)
    exact .inr ⟨parts, children, rfl⟩

theorem timeHalf?_cases (n : Node) : n.timeHalf? = none ∨
    ∃ time children, n.timeHalf? = some (.parent (.time time) children) := by
  cases htime : n.timeHalf? with
  | none => exact .inl rfl
  | some half =>
    rw [timeHalf?] at htime
    have hkind : half.kind = .time := by simpa using List.find?_some htime
    cases half with
    | leaf content text => cases content <;> cases hkind
    | parent form children => cases form <;> first | exact .inr ⟨_, _, rfl⟩ | cases hkind

theorem dateHalf?_lower (n : Node) : n.lower.dateHalf? = n.dateHalf?.map lower := by
  rw [dateHalf?, dateHalf?, operands_lower, find?_kind_lower]

theorem timeHalf?_lower (n : Node) : n.lower.timeHalf? = n.timeHalf?.map lower := by
  rw [timeHalf?, timeHalf?, operands_lower, find?_kind_lower]

end Node

/-! ### Expressions -/

/-- The code that a cell shows for an error. -/
def BuildError.code? : BuildError → Option ErrorCode
  | value error => some error.code
  | _ => none

/-- Whether the building of two expressions came to the same: to the same expressions, to none or
to errors that are shown alike, whatever texts they quote. -/
def agreeingResult :
    Except BuildError (Option Expression) → Except BuildError (Option Expression) → Bool
  | .ok (some e), .ok (some e') => e.same e'
  | .ok none, .ok none => true
  | .error error, .error error' => error.code? == error'.code?
  | _, _ => false

/-- Both build the same, or both fail with errors that are shown alike. -/
abbrev MakesAlike {α : Type} : Except BuildError α → Except BuildError α → Prop :=
  Parallel (fun e e' => e.code? = e'.code?) id

namespace Settings

variable (s : Settings)

theorem numberValue_makesAlike (t u : Text) (d : Decimal) :
    MakesAlike (s.numberValue t d) (s.numberValue u d) := by
  unfold numberValue
  split
  · split
    · exact .ok _
    · exact .error rfl
  · split
    · exact .ok _
    · split
      · exact .ok _
      · exact .error rfl

theorem dateValue_makesAlike (t u : Text) (parts : DateParts) :
    MakesAlike (s.dateValue t parts) (s.dateValue u parts) := by
  unfold dateValue
  dsimp only
  split_ifs
  · exact .ok _
  · exact .error rfl

theorem dateTimeValue_makesAlike (n : Node) :
    MakesAlike (s.dateTimeValue n) (s.dateTimeValue n.lower) := by
  rcases n.dateHalf?_cases with hdate | ⟨parts, children, hdate⟩ <;>
    rcases n.timeHalf?_cases with htime | ⟨time, children', htime⟩ <;>
    simp only [dateTimeValue, Node.dateHalf?_lower, Node.timeHalf?_lower, hdate, htime,
      Option.map_none, Option.map_some, Node.lower_parent, Form.lower]
  · exact .ok _
  · exact .ok _
  · exact (s.dateValue_makesAlike _ _ parts).bind fun date => .ok _
  · exact (s.dateValue_makesAlike _ _ parts).bind fun date => .ok _

theorem declaredCount_lower (n : Node) : declaredCount n.lower = declaredCount n := by
  rw [declaredCount, declaredCount, Node.operands_lower]
  rcases n.operands with _ | ⟨name, _ | ⟨declared, args⟩⟩
  · rfl
  · rfl
  · simp only [List.map_cons, Node.operands_lower, List.length_map]

theorem buildNode_makesAlike {n : Node} (hlabel : n.kind ≠ .labelName) (htext : n.kind ≠ .text)
    (results : List Expression) :
    MakesAlike (s.buildNode n results) (s.buildNode n.lower results) := by
  cases n with
  | leaf content t =>
    rw [Node.lower_leaf]
    cases content with
    | label name => exact absurd rfl hlabel
    | _ => exact .ok _
  | parent form children =>
    have hcount := declaredCount_lower (.parent form children)
    have hdateTime := s.dateTimeValue_makesAlike (.parent form children)
    rw [Node.lower_parent] at hcount hdateTime ⊢
    -- Where the expression depends on the number of results, the same one is refused in both cases.
    cases form with
    | binary op =>
      match results with
      | [left, right] => exact .ok _
      | [] | [_] | _ :: _ :: _ :: _ => exact .error rfl
    | unary wrapper =>
      match results with
      | [operand] => exact .ok _
      | [] | _ :: _ :: _ => exact .error rfl
    | conditionRight => exact .error rfl
    | number d => exact (s.numberValue_makesAlike _ _ d).bind fun value => .ok _
    | date parts => exact (s.dateValue_makesAlike _ _ parts).bind fun date => .ok _
    | dateTime => exact hdateTime.bind fun value => .ok _
    | text => exact absurd rfl htext
    | lambda name =>
      simp only [buildNode, Form.lower] at hcount ⊢
      simp only [hcount]
      split_ifs
      · exact .error rfl
      · exact .ok _
    | cell | cellRange | time | functionParameters | namedFunction => exact .ok _

end Settings

namespace Node

variable {s : Settings}

mutual

/-- What a tree without labels and texts makes, it makes in lower case. -/
theorem expressions_makesAlike (s : Settings) (n : Node) (hlabel : .labelName ∉ n.kinds)
    (htext : .text ∉ n.kinds) : MakesAlike (n.expressions s) (n.lower.expressions s) := by
  match n with
  | leaf content t =>
    rw [kinds, List.mem_singleton] at hlabel htext
    have hmade := s.buildNode_makesAlike (n := leaf content t) (Ne.symm hlabel) (Ne.symm htext) []
    rw [lower_leaf] at hmade ⊢
    exact hmade
  | parent form children =>
    rw [kinds, List.mem_cons, not_or] at hlabel htext
    have hmade := s.buildNode_makesAlike (n := parent form children) (Ne.symm hlabel.1)
      (Ne.symm htext.1)
    rw [lower] at hmade ⊢
    rw [expressions, expressions]
    exact (expressionsOfAll_makesAlike s children hlabel.2 htext.2).bind hmade

/-- What trees without labels and texts make, they make in lower case. -/
theorem expressionsOfAll_makesAlike (s : Settings) (ns : List Node)
    (hlabel : .labelName ∉ kindsOfAll ns) (htext : .text ∉ kindsOfAll ns) :
    MakesAlike (expressionsOfAll s ns) (expressionsOfAll s (lowerAll ns)) := by
  match ns with
  | [] => exact .ok _
  | n :: rest =>
    rw [kindsOfAll, List.mem_append, not_or] at hlabel htext
    rw [lowerAll, expressionsOfAll, expressionsOfAll]
    refine (expressions_makesAlike s n hlabel.1 htext.1).bind fun first => ?_
    exact (expressionsOfAll_makesAlike s rest hlabel.2 htext.2).bind fun more => .ok _

end

theorem toExpression_makesAlike (s : Settings) {n : Node} (hlabel : .labelName ∉ n.kinds)
    (htext : .text ∉ n.kinds) : MakesAlike (n.toExpression s) (n.lower.toExpression s) := by
  rw [toExpression_eq, toExpression_eq]
  refine (expressions_makesAlike s n hlabel htext).bind fun results => ?_
  match results with
  | [] => exact .ok _
  | [e] => exact .ok _
  | _ :: _ :: _ => exact .error rfl

/-- Trees without labels and texts that are the same in lower case make the same. -/
theorem agreeingResult_of_lower {n m : Node} (h : m.lower = n.lower) (hlabel : .labelName ∉ n.kinds)
    (htext : .text ∉ n.kinds) :
    agreeingResult (n.toExpression s) (m.toExpression s) = true := by
  have hkinds : m.kinds = n.kinds := by rw [← kinds_lower m, h, kinds_lower]
  have hn := toExpression_makesAlike s hlabel htext
  have hm := toExpression_makesAlike s (hkinds ▸ hlabel) (hkinds ▸ htext)
  rw [h] at hm
  -- Both come to what their tree in lower case comes to.
  cases hx : n.toExpression s with
  | ok made =>
    have hy : m.toExpression s = .ok made := hm.eq_ok_iff.1 (hn.eq_ok_iff.2 hx)
    rw [hy]
    cases made with
    | none => rfl
    | some e => exact same_of_toExpression hx
  | error error =>
    cases hy : m.toExpression s with
    | ok made =>
      rw [hn.eq_ok_iff.1 (hm.eq_ok_iff.2 hy)] at hx
      cases hx
    | error error' =>
      rw [hx] at hn
      rw [hy] at hm
      generalize n.lower.toExpression s = z at hn hm
      cases hn with
      | error hcode =>
        cases hm with
        | error hcode' => exact beq_iff_eq.2 (hcode.trans hcode'.symm)

end Node

namespace Grammar

variable {t u : Text} {n m : Node}

/-- A text in lower case is read as the tree in lower case. -/
theorem parse_lower_iff : american.parse .expression t.lower = .ok m ↔
    ∃ n, american.parse .expression t = .ok n ∧ n.lower = m := by
  have hlength : t.lower.runes.length = t.runes.length := by rw [Text.runes_lower, List.length_map]
  have hexpression : (Rule.expression american).IgnoresCase :=
    Rule.expression_ignoresCase Locale.hasCaselessSigns_default
  have hclean := Cursor.isClean_start t
  constructor
  · intro h
    obtain ⟨hshort, -⟩ := length_of_parse h
    obtain ⟨stop, hfound, hend⟩ := found_of_parse h
    have hfound : Rule.expression american (.start t.lower) = (.found [m], stop) := hfound
    rw [← Cursor.lower_start, hexpression.found_lower_iff hclean] at hfound
    obtain ⟨nodes, next, hread, hnodes, rfl⟩ := hfound
    obtain ⟨n, rfl, rfl⟩ := List.map_eq_singleton_iff.1 hnodes.symm
    exact ⟨n, parse_eq_ok_of_found (hlength ▸ hshort) hread (List.map_eq_nil_iff.1 hend), rfl⟩
  · rintro ⟨n, h, rfl⟩
    obtain ⟨hshort, -⟩ := length_of_parse h
    obtain ⟨stop, hfound, hend⟩ := found_of_parse h
    have hlower : Rule.expression american (.start t.lower) = (.found [n.lower], stop.lower) := by
      rw [← Cursor.lower_start, hexpression.found_lower_iff hclean]
      exact ⟨[n], stop, hfound, rfl, rfl⟩
    exact parse_eq_ok_of_found (hlength.symm ▸ hshort) hlower (List.map_eq_nil_iff.2 hend)

/-- Formulas ignore letter case outside of labels and quoted text. -/
theorem expression_inEitherCase (t u : Text) (n : Node)
    (h : american.parse .expression t = .ok n) (hcase : t.lower = u.lower) :
    ∃ m, american.parse .expression u = .ok m ∧ m.shape = n.shape ∧
      (.labelName ∉ n.kinds → .text ∉ n.kinds → ∀ settings : Settings,
        agreeingResult (n.toExpression settings) (m.toExpression settings) = true) := by
  have hlower := parse_lower_iff.2 ⟨n, h, rfl⟩
  rw [hcase] at hlower
  obtain ⟨m, hm, hsame⟩ := parse_lower_iff.1 hlower
  refine ⟨m, hm, ?_, fun hlabel htext settings => Node.agreeingResult_of_lower hsame hlabel htext⟩
  rw [← Node.shape_lower m, hsame, Node.shape_lower]

/-- A call with a range, a number, a boolean and an error, in two cases. -/
theorem expression_inEitherCase_call : ∃ n m,
    american.parse .expression "sum($a1:B2, 1e3)*True/#ref!" = .ok n ∧
    american.parse .expression "Sum($A1:b2, 1E3)*tRUE/#Ref!" = .ok m ∧ m.shape = n.shape ∧
    ∀ settings : Settings,
      agreeingResult (n.toExpression settings) (m.toExpression settings) = true := by
  have hcheck : (american.parse .expression "sum($a1:B2, 1e3)*True/#ref!").toOption.any (fun n =>
      decide (.labelName ∉ n.kinds) && decide (.text ∉ n.kinds)) = true := by decide +kernel
  obtain ⟨n, hn, hcheck⟩ := exists_ok_of_any hcheck
  obtain ⟨hlabel, htext⟩ := Bool.and_eq_true_iff.1 hcheck
  have hcase : Text.lower "sum($a1:B2, 1e3)*True/#ref!" =
      Text.lower "Sum($A1:b2, 1E3)*tRUE/#Ref!" := by decide +kernel
  obtain ⟨m, hm, hshape, hresults⟩ := expression_inEitherCase _ _ n hn hcase
  exact ⟨n, m, hn, hm, hshape,
    hresults (of_decide_eq_true hlabel) (of_decide_eq_true htext)⟩

end Grammar

end SheetFormula
