import SheetFormula.Proofs.Evaluation
import SheetFormula.Proofs.Growth
import SheetFormula.Proofs.Wiring

/-!
# What the rules find

Whatever the signs and names of the locale are, an operand is a *term*, and so is an expression.
`Node.IsTerm` says what terms are by the operands below each parent: an atom, which is one token, an
operator between two terms, a term in a wrapper, or the call of a function with terms as arguments.
What can be typed into a cell is an *entry*: a term, or a date, a time or both.

A rule `Keeps` such properties of what it finds: either it finds `One` node with the property, or
`Each` node that it finds has it.  Blanks and symbols are found between the operands, so most rules
tell something of each operand only.
-/

namespace SheetFormula

namespace Node

/-! ### Terms and entries -/

/-- A leaf inside a token: no whitespace, and nothing that makes an expression. -/
def IsPart (n : Node) : Prop :=
  ∃ content text, n = .leaf content text ∧ content ≠ .whitespace ∧
    Settings.buildLeaf content = []

/-- One token that stands for an expression. -/
inductive IsAtom : Node → Prop
  | error (code : ErrorCode) (t : Text) : IsAtom (.leaf (.error code) t)
  | boolean (value : Bool) (t : Text) : IsAtom (.leaf (.boolean value) t)
  | label (name t : Text) : IsAtom (.leaf (.label name) t)
  | number {value : Decimal} {parts : List Node} : (∀ part ∈ parts, part.IsPart) →
      IsAtom (.parent (.number value) parts)
  | text {value : Text} {parts : List Node} : (∀ part ∈ parts, part.IsPart) →
      IsAtom (.parent (.text value) parts)
  | cell {reference : Cell} {parts : List Node} : (∀ part ∈ parts, part.IsPart) →
      IsAtom (.parent (.cell reference) parts)
  | cellRange {reference : CellRange} {first last : Cell} {ns ms : List Node} {t : Text} :
      (∀ part ∈ ns, part.IsPart) → (∀ part ∈ ms, part.IsPart) →
      IsAtom (.parent (.cellRange reference)
        [.parent (.cell first) ns, .leaf (.symbol .between) t, .parent (.cell last) ms])

/-- The name of a function, which is kept in capitals. -/
def nameOf (written : Text) : Node := .leaf (.functionName (Rule.upperCase written)) written

/-- Trees that stand for an expression each. -/
inductive IsTerm : Node → Prop
  | atom {n : Node} : IsAtom n → IsTerm n
  | unary {wrapper : Wrapper} {children : List Node} {n : Node} : operandsOf children = [n] →
      IsTerm n → IsTerm (.parent (.unary wrapper) children)
  | binary {op : Operator} {children : List Node} {left right : Node} :
      operandsOf children = [left, right] → IsTerm left → IsTerm right →
      IsTerm (.parent (.binary op) children)
  | call {written : Text} {children args : List Node} :
      operandsOf children = [nameOf written, .parent .functionParameters args] →
      (∀ arg ∈ operandsOf args, IsTerm arg) →
      IsTerm (.parent (.namedFunction (Rule.upperCase written)) children)
  | lambda {written : Text} {children declared values : List Node} :
      operandsOf children = [nameOf written, .parent .functionParameters declared,
        .parent .functionParameters values] →
      (∀ arg ∈ operandsOf declared, IsTerm arg) → (∀ arg ∈ operandsOf values, IsTerm arg) →
      IsTerm (.parent (.lambda (Rule.upperCase written)) children)

/-- A date or a time. -/
inductive IsMoment : Node → Prop
  | date {parts : DateParts} {children : List Node} :
      (∀ part ∈ operandsOf children, part.IsPart) → IsMoment (.parent (.date parts) children)
  | time {value : TimeOfDay} {children : List Node} :
      (∀ part ∈ operandsOf children, part.IsPart) → IsMoment (.parent (.time value) children)

/-- What can be typed into a cell. -/
inductive IsEntry : Node → Prop
  | term {n : Node} : IsTerm n → IsEntry n
  | moment {n : Node} : IsMoment n → IsEntry n
  | dateTime {children : List Node} : (∀ half ∈ operandsOf children, half.IsMoment) →
      IsEntry (.parent .dateTime children)

/-- The node has the property if it is an operand. -/
def IfOperand (P : Node → Prop) (n : Node) : Prop := n.isNoise = false → P n

variable {P : Node → Prop} {children : List Node} {n : Node}

theorem forall_operandsOf (h : ∀ child ∈ children, child.IfOperand P) :
    ∀ child ∈ operandsOf children, P child := by
  intro child hchild
  obtain ⟨hmem, hnoise⟩ := List.mem_filter.1 hchild
  exact h child hmem (by simpa using hnoise)

theorem IsAtom.isNoise (h : n.IsAtom) : n.isNoise = false := by
  cases h <;> rfl

theorem IsTerm.isNoise (h : n.IsTerm) : n.isNoise = false := by
  cases h with
  | atom h => exact h.isNoise
  | _ => rfl

/-! ### What the constructors make of terms -/

theorem isTerm_unary {wrapper : Wrapper} (hchildren : ∀ child ∈ children, child.IfOperand IsTerm)
    (hn : unary (.unary wrapper) children = .ok n) : n.IsTerm := by
  obtain ⟨hcount, rfl⟩ := unary_eq_ok_iff.1 hn
  obtain ⟨m, hm⟩ := List.length_eq_one_iff.1 hcount
  have hall := forall_operandsOf hchildren
  rw [hm] at hall
  exact .unary hm (List.forall_mem_singleton.1 hall)

/-- What stands in the run of an expression: its operands are terms, and none of its symbols joins
the cells of a range. -/
def InRun (n : Node) : Prop := n.IfOperand IsTerm ∧ n.kind ≠ .symbol .between

theorem IsTerm.inRun (h : n.IsTerm) : n.InRun := by
  refine ⟨fun _ => h, fun hkind => ?_⟩
  have hnoise := h.isNoise
  rw [Node.isNoise, hkind] at hnoise
  cases hnoise

/-- A run of terms is folded into a term. -/
theorem isTerm_of_reduce {head : Node} {more : List Node} (hhead : head.IsTerm)
    (hmore : ∀ m ∈ more, m.InRun) (h : reduce (head :: more) = .ok n) : n.IsTerm := by
  rcases isRun_of_reduceIn h with ⟨hsingle, -⟩ | ⟨head', links, hrun, hnodes⟩
  · obtain ⟨rfl, -⟩ := List.cons.inj hsingle
    exact hhead
  obtain ⟨rfl, rfl⟩ := List.cons.inj hnodes
  rw [hnodes] at h
  have hlink : ∀ l ∈ links, l.2.IsTerm ∧ l.1.symbol ≠ .between := by
    intro l hl
    have hnode {m : Node} (hm : m ∈ l.1.nodes ++ [l.2]) : m.InRun :=
      hmore m (List.mem_flatMap.2 ⟨l, hl, hm⟩)
    refine ⟨(hnode (by simp)).1 (hrun.operands l hl).isNoise, fun hbetween => ?_⟩
    have hsymbol := (hnode (m := .leaf (.symbol l.1.symbol) l.1.text) (by simp [Joint.nodes])).2
    exact hsymbol (by rw [hbetween]; rfl)
  refine node?_ofRun_keeps hhead (fun l hl => (hlink l hl).1) ?_ ((reduce_run_eq_ok_iff hrun).1 h)
  intro l hl left right m hleft hright hjoin
  rw [Joint.join?_operator (hlink l hl).2] at hjoin
  obtain ⟨op, -, rfl⟩ := Option.map_eq_some_iff.1 hjoin
  refine .binary ?_ hleft hright
  rw [operandsOf_joint]
  simp [operandsOf, hleft.isNoise, hright.isNoise]

end Node

namespace Rule

open Node (IsPart IsAtom IsTerm IsMoment IsEntry IfOperand InRun)

variable {P Q : Node → Prop} {r operand : Rule} {rules : List Rule} {g : Grammar}

/-! ### Kept properties of nodes -/

/-- One node with the property. -/
def One (P : Node → Prop) (_ : Cursor) (nodes : List Node) (_ : Cursor) : Prop :=
  ∃ n, nodes = [n] ∧ P n

/-- Nodes that all have the property. -/
def Each (P : Node → Prop) (_ : Cursor) (nodes : List Node) (_ : Cursor) : Prop :=
  ∀ n ∈ nodes, P n

theorem compositional_each : Compositional (Each P) where
  nil _ := List.forall_mem_nil _
  append h h' := List.forall_mem_append.2 ⟨h, h'⟩
  stall _ _ := List.forall_mem_nil _

theorem Keeps.one_imp (h : Keeps (One P) r) (himp : ∀ n, P n → Q n) : Keeps (One Q) r :=
  h.imp fun ⟨n, hnodes, hn⟩ => ⟨n, hnodes, himp n hn⟩

theorem Keeps.each (h : Keeps (One P) r) (himp : ∀ n, P n → Q n) : Keeps (Each Q) r :=
  h.imp fun ⟨n, hnodes, hn⟩ => by
    rw [hnodes]
    exact List.forall_mem_singleton.2 (himp n hn)

/-- Of blanks and symbols there is nothing to tell. -/
theorem each_symbol (s : Symbol) (word : List Char) : Keeps (Each (IfOperand P)) (symbol s word) :=
  ⟨(loose_symbol s word).restores, fun h => by
    obtain ⟨-, -, rfl⟩ := symbol_found_iff.1 h
    exact List.forall_mem_singleton.2 nofun⟩

theorem each_whitespace : Keeps (Each (IfOperand P)) whitespace :=
  ⟨exact_whitespace.restores, fun h => by
    obtain ⟨-, -, rfl⟩ := whitespace_found_iff.1 h
    exact List.forall_mem_singleton.2 nofun⟩

theorem each_optionalWhitespace : Keeps (Each (IfOperand P)) optionalWhitespace :=
  compositional_each.optional each_whitespace

theorem each_operand (h : Keeps (One P) r) : Keeps (Each (IfOperand P)) r :=
  h.each fun _ hn _ => hn

/-! ### Atoms -/

theorem isPart_leaf {content : Content} {t : Text} (hspace : content ≠ .whitespace)
    (hbuild : Settings.buildLeaf content = []) : (Node.leaf content t).IsPart :=
  ⟨content, t, rfl, hspace, hbuild⟩

theorem isPart_of_isNumeral {n : Node} (h : IsNumeral n) : n.IsPart := by
  obtain ⟨content, t, rfl, ⟨rfl, -⟩ | ⟨s, rfl⟩⟩ := h
  · exact isPart_leaf nofun rfl
  · exact isPart_leaf nofun rfl

theorem atom_number {signed : Bool} : Keeps (One IsAtom) (number g signed) :=
  ⟨number_absent, fun h => by
    obtain ⟨d, children, rfl, -, hchildren⟩ := number_eq h
    exact ⟨_, rfl, .number fun part hpart => isPart_of_isNumeral (hchildren part hpart)⟩⟩

theorem atom_errorLiteral : Keeps (One IsAtom) errorLiteral :=
  ⟨errorLiteral_absent, fun h => by
    obtain ⟨-, w, -, rfl⟩ := errorLiteral_found_iff.1 h
    exact ⟨_, rfl, .error ..⟩⟩

theorem atom_boolean : Keeps (One IsAtom) boolean :=
  ⟨boolean_absent, fun h => by
    obtain ⟨-, -, w, -, rfl⟩ := boolean_found_iff.1 h
    exact ⟨_, rfl, .boolean ..⟩⟩

theorem atom_label : Keeps (One IsAtom) label :=
  ⟨label_absent, fun h => by
    obtain ⟨-, -, -, -, -, -, rfl⟩ := label_found_iff.1 h
    exact ⟨_, rfl, .label ..⟩⟩

theorem atom_of_quotation {children : List Node} {n : Node} (hchildren : ∀ m ∈ children, m.IsPart)
    (hn : Node.quotation children = .ok n) : n.IsAtom := by
  obtain ⟨-, literal, -, rfl⟩ := Node.quotation_eq_ok_iff.1 hn
  exact .text hchildren

theorem atom_quotedText : Keeps (One IsAtom) quotedText :=
  ⟨quotedText_absent, fun h => by
    obtain ⟨-, value, count, n, -, -, rfl, hn⟩ := quotedText_found_iff.1 h
    refine ⟨n, rfl, atom_of_quotation (List.forall_iff_forall_mem.1 ?_) hn⟩
    exact ⟨isPart_leaf nofun rfl, isPart_leaf nofun rfl, isPart_leaf nofun rfl⟩⟩

theorem each_remainingLiteral : Keeps (Each IsPart) remainingLiteral :=
  ⟨exact_remainingLiteral.restores, fun h => by
    obtain ⟨-, rfl⟩ := remainingLiteral_found_iff.1 h
    exact List.forall_mem_singleton.2 (isPart_leaf nofun rfl)⟩

theorem atom_apostropheText : Keeps (One IsAtom) apostropheText := by
  have hmark : Keeps (Each IsPart) (symbol .apostrophe ['\'']) :=
    ⟨(loose_symbol ..).restores, fun h => by
      obtain ⟨-, -, rfl⟩ := symbol_found_iff.1 h
      exact List.forall_mem_singleton.2 (isPart_leaf nofun rfl)⟩
  refine Keeps.transform (compositional_each.sequence ?_)
    fun hchildren hn => ⟨_, rfl, atom_of_quotation hchildren hn⟩
  exact ⟨hmark, each_remainingLiteral⟩

theorem atom_wholeText : Keeps (One IsAtom) wholeText where
  restores := wholeText_absent
  found h := by
    have htext : Keeps (One IsAtom) (transform remainingLiteral Node.quotation) :=
      each_remainingLiteral.transform fun hchildren hn => ⟨_, rfl, atom_of_quotation hchildren hn⟩
    exact htext.found (wholeText_found_iff.1 h).2

/-- A cell with its column and its row. -/
def IsCell (n : Node) : Prop :=
  ∃ reference parts, n = .parent (.cell reference) parts ∧ ∀ part ∈ parts, part.IsPart

theorem isCell_cell : Keeps (One IsCell) cell :=
  ⟨restoring_absent, fun h => by
    obtain ⟨column, mid, row, n, hcolumn, hrow, -, -, hn, rfl⟩ :=
      readCell_found_iff.1 (restoring_found_iff.1 h)
    obtain ⟨-, -, _, -, rfl⟩ := readColumn_found_iff.1 hcolumn
    obtain ⟨-, -, _, -, rfl⟩ := readRow_found_iff.1 hrow
    obtain ⟨_, _, _, _, -, rfl⟩ := Node.cell_eq_ok_iff.1 hn
    refine ⟨_, rfl, _, _, rfl, List.forall_iff_forall_mem.1 ?_⟩
    exact ⟨isPart_leaf nofun rfl, isPart_leaf nofun rfl⟩⟩

theorem atom_cell : Keeps (One IsAtom) cell :=
  isCell_cell.one_imp fun _ ⟨_, _, hn, hparts⟩ => hn ▸ .cell hparts

theorem atom_cellRange : Keeps (One IsAtom) cellRange where
  restores := transform_sequence_absent
  found h := by
    obtain ⟨children, n, hchildren, hn, rfl⟩ := transform_found_iff.1 h
    obtain ⟨_, _, _, _, _, hfirst, hcolon, hlast, rfl⟩ :=
      sequenceFrom_triple_found_iff.1 hchildren
    obtain ⟨_, rfl, first, ns, rfl, hfirstParts⟩ := isCell_cell.found hfirst
    obtain ⟨-, -, rfl⟩ := symbol_found_iff.1 hcolon
    obtain ⟨_, rfl, last, ms, rfl, hlastParts⟩ := isCell_cell.found hlast
    obtain ⟨_, _, _, _, -, -, rfl⟩ := Node.cellRange_eq_ok_iff.1 hn
    exact ⟨_, rfl, .cellRange hfirstParts hlastParts⟩

/-! ### Terms -/

theorem Keeps.term (h : Keeps (One IsAtom) r) : Keeps (One IsTerm) r := h.one_imp fun _ => .atom

theorem inRun_operator : Keeps (Each InRun) operator where
  restores := (gives_operator (k := 0)).moves.restores
  found {c _ _} h := by
    obtain ⟨s, t, rfl, -, hs⟩ := gives_operator.found (Nat.lt_succ_self c.rest.length) h
    refine List.forall_mem_singleton.2 ⟨nofun, fun hkind => hs ?_⟩
    exact Kind.symbol.inj hkind

theorem inRun_optionalWhitespace : Keeps (Each InRun) optionalWhitespace := by
  refine compositional_each.optional ⟨exact_whitespace.restores, fun h => ?_⟩
  obtain ⟨-, -, rfl⟩ := whitespace_found_iff.1 h
  exact List.forall_mem_singleton.2 ⟨nofun, nofun⟩

/-- Terms joined by operators are folded into a term. -/
theorem term_expressionOf (h : Keeps (One IsTerm) operand) :
    Keeps (One IsTerm) (expressionOf operand) where
  restores := transform_sequence_absent
  found hfound := by
    obtain ⟨children, n, hchildren, hn, rfl⟩ := transform_found_iff.1 hfound
    obtain ⟨_, _, _, hhead, hlinks, rfl⟩ := sequenceFrom_pair_found_iff.1 hchildren
    obtain ⟨head, rfl, hterm⟩ := h.found hhead
    have hround : Keeps (Each InRun)
        (sequence [optionalWhitespace, operator, optionalWhitespace, required operand]) :=
      compositional_each.sequence ⟨inRun_optionalWhitespace, inRun_operator,
        inRun_optionalWhitespace, (h.each fun _ => IsTerm.inRun).required⟩
    have hrun := (compositional_each.repeated hround).found hlinks
    exact ⟨n, rfl, Node.isTerm_of_reduce hterm (by simpa [Each] using hrun) hn⟩

/-- Parameters in their parentheses. -/
def IsParameters (n : Node) : Prop :=
  ∃ args, n = .parent .functionParameters args ∧ ∀ arg ∈ Node.operandsOf args, arg.IsTerm

theorem parameters_parametersOf (h : Keeps (One IsTerm) operand) :
    Keeps (One IsParameters) (parametersOf g operand) := by
  have harg : Keeps (Each (IfOperand IsTerm)) (expressionOf operand) :=
    each_operand (term_expressionOf h)
  have hround : Keeps (Each (IfOperand IsTerm)) (sequence [optionalWhitespace,
      symbol .valueSeparator [g.locale.valueSeparator], optionalWhitespace,
      required (expressionOf operand)]) :=
    compositional_each.sequence
      ⟨each_optionalWhitespace, each_symbol .., each_optionalWhitespace, harg.required⟩
  have hargs : Keeps (Each (IfOperand IsTerm)) (arguments g operand) :=
    compositional_each.sequence ⟨harg, compositional_each.repeated hround⟩
  have hall : Keeps (Each (IfOperand IsTerm)) (sequence [symbol .parenthesisOpen ['('],
      optionalWhitespace, optional (arguments g operand), optionalWhitespace,
      required (symbol .parenthesisClose [')'])]) :=
    compositional_each.sequence ⟨each_symbol .., each_optionalWhitespace,
      compositional_each.optional hargs, each_optionalWhitespace, (each_symbol ..).required⟩
  refine hall.transform fun hchildren hn => ⟨_, rfl, ?_⟩
  obtain ⟨-, -, rfl⟩ := Node.functionParameters_eq_ok_iff.1 hn
  exact ⟨_, rfl, Node.forall_operandsOf hchildren⟩

theorem name_functionName : Keeps (One fun n => ∃ t, n = Node.nameOf t) functionName :=
  ⟨functionName_absent, fun h => ⟨_, (functionName_found_iff.1 h).2.2.2, _, rfl⟩⟩

theorem name_lambdaName : Keeps (One fun n => ∃ t, n = Node.nameOf t) lambdaName :=
  ⟨lambdaName_absent, fun h => name_functionName.found (lambdaName_found_iff.1 h).1⟩

/-- The name or the parameters of a function. -/
def OfFunction (n : Node) : Prop := (∃ t, n = Node.nameOf t) ∨ IsParameters n

theorem OfFunction.name {name t : Text} (h : OfFunction (.leaf (.functionName name) t)) :
    name = upperCase t := by
  rcases h with ⟨u, hu⟩ | ⟨args, hargs, -⟩
  · cases hu
    rfl
  · cases hargs

theorem OfFunction.args {args : List Node}
    (h : OfFunction (.parent .functionParameters args)) :
    ∀ arg ∈ Node.operandsOf args, arg.IsTerm := by
  rcases h with ⟨u, hu⟩ | ⟨args', hargs, hterms⟩
  · cases hu
  · cases hargs
    exact hterms

theorem term_namedFunctionOf (h : Keeps (One IsTerm) operand) :
    Keeps (One IsTerm) (namedFunctionOf g operand) := by
  refine Keeps.transform (P := Each (IfOperand OfFunction)) (compositional_each.sequence ?_)
    fun hchildren hn => ⟨_, rfl, ?_⟩
  · exact ⟨name_functionName.each fun _ hn _ => .inl hn,
      (parameters_parametersOf h).each fun _ hn _ => .inr hn⟩
  · obtain ⟨name, t, args, hoperands, rfl⟩ := Node.namedFunction_eq_ok_iff.1 hn
    have hall := Node.forall_operandsOf hchildren
    rw [hoperands] at hall
    obtain ⟨hname, hargs⟩ := List.forall_iff_forall_mem.2 hall
    obtain rfl := hname.name
    exact .call hoperands hargs.args

theorem term_lambdaOf (h : Keeps (One IsTerm) operand) :
    Keeps (One IsTerm) (lambdaOf g operand) := by
  have hparameters : Keeps (Each (IfOperand OfFunction)) (parametersOf g operand) :=
    (parameters_parametersOf h).each fun _ hn _ => .inr hn
  refine Keeps.transform (P := Each (IfOperand OfFunction)) (compositional_each.sequence ?_)
    fun hchildren hn => ⟨_, rfl, ?_⟩
  · exact ⟨name_lambdaName.each fun _ hn _ => .inl hn, hparameters, hparameters⟩
  · obtain ⟨name, t, declared, values, hoperands, rfl⟩ := Node.lambda_eq_ok_iff.1 hn
    have hall := Node.forall_operandsOf hchildren
    rw [hoperands] at hall
    obtain ⟨hname, hdeclared, hvalues⟩ := List.forall_iff_forall_mem.2 hall
    obtain rfl := hname.name
    exact .lambda hoperands hdeclared.args hvalues.args

theorem term_negativeOf (h : Keeps (One IsTerm) operand) :
    Keeps (One IsTerm) (negativeOf operand) := by
  refine Keeps.transform (compositional_each.sequence ?_)
    fun hchildren hn => ⟨_, rfl, Node.isTerm_unary hchildren hn⟩
  exact ⟨each_symbol .., each_optionalWhitespace, (each_operand h).required⟩

theorem term_groupOf (h : Keeps (One IsTerm) operand) : Keeps (One IsTerm) (groupOf operand) := by
  refine Keeps.transform (compositional_each.sequence ?_)
    fun hchildren hn => ⟨_, rfl, Node.isTerm_unary hchildren hn⟩
  exact ⟨each_symbol .., each_optionalWhitespace, (each_operand (term_expressionOf h)).required,
    each_optionalWhitespace, (each_symbol ..).required⟩

/-- An operand is a term if the operands inside it are. -/
theorem term_operandOf (h : Keeps (One IsTerm) operand) :
    Keeps (One IsTerm) (operandOf g operand) := by
  refine Keeps.alternatives ?_
  exact ⟨term_negativeOf h, term_groupOf h, atom_quotedText.term, atom_errorLiteral.term,
    atom_number.term, term_lambdaOf h, term_namedFunctionOf h, atom_boolean.term,
    atom_cellRange.term, atom_cell.term, atom_label.term⟩

theorem term_operandIn (fuel : Nat) : Keeps (One IsTerm) (operandIn g fuel) := by
  induction fuel with
  | zero => exact ⟨nofun, nofun⟩
  | succ fuel ih =>
    rw [operandIn_succ]
    exact term_operandOf ih

theorem term_operand : Keeps (One IsTerm) (Rule.operand g) :=
  ⟨(term_operandIn _).restores, (term_operandIn _).found⟩

theorem term_expression : Keeps (One IsTerm) (expression g) := term_expressionOf term_operand

theorem term_formula : Keeps (One IsTerm) (formula g) := by
  refine Keeps.transform (compositional_each.sequence ?_)
    fun hchildren hn => ⟨_, rfl, Node.isTerm_unary hchildren hn⟩
  exact ⟨each_symbol .., each_optionalWhitespace, (each_operand term_expression).required,
    each_optionalWhitespace⟩

/-! ### Entries -/

theorem each_digitsComponent {component : Component} {fewest most low high : Nat} :
    Keeps (Each (IfOperand IsPart)) (digitsComponent component fewest most low high) :=
  ⟨digitsComponent_absent, fun h => by
    obtain ⟨-, -, -, _, -, -, -, rfl⟩ := digitsComponent_found_iff.1 h
    exact List.forall_mem_singleton.2 fun _ => isPart_leaf nofun rfl⟩

theorem each_secondFraction : Keeps (Each (IfOperand IsPart)) secondFraction :=
  ⟨secondFraction_absent, fun h => by
    obtain ⟨-, -, -, _, -, rfl⟩ := secondFraction_found_iff.1 h
    exact List.forall_mem_singleton.2 fun _ => isPart_leaf nofun rfl⟩

theorem each_nameComponent {component : Component} {words : WordList Int} :
    Keeps (Each (IfOperand IsPart)) (nameComponent component words) :=
  ⟨nameComponent_absent, fun h => by
    obtain ⟨_, -, rfl⟩ := nameComponent_found_iff.1 h
    exact List.forall_mem_singleton.2 fun _ => isPart_leaf nofun rfl⟩

theorem each_dateSeparator : Keeps (Each (IfOperand P)) (dateSeparator g) := by
  refine Keeps.alternatives (List.forall_iff_forall_mem.2 fun r hr => ?_)
  obtain ⟨ch, -, rfl⟩ := List.mem_map.1 hr
  exact each_symbol ..

theorem each_spaceOrSeparator : Keeps (Each (IfOperand P)) (spaceOrSeparator g) :=
  Keeps.alternatives ⟨each_whitespace, each_dateSeparator⟩

theorem each_dateLayouts : Keeps (Each (IfOperand IsPart)) (dateLayouts g) := by
  have hyear : Keeps (Each (IfOperand IsPart)) year :=
    Keeps.alternatives ⟨each_digitsComponent, each_digitsComponent⟩
  have hword : Keeps (Each (IfOperand IsPart)) (monthWord g) :=
    Keeps.alternatives ⟨each_nameComponent, each_nameComponent, each_nameComponent⟩
  have hfull : Keeps (Each (IfOperand IsPart)) fullYear := each_digitsComponent
  have hmonth : Keeps (Each (IfOperand IsPart)) month := each_digitsComponent
  have hday : Keeps (Each (IfOperand IsPart)) day := each_digitsComponent
  have hspace : Keeps (Each (IfOperand IsPart)) (spaceOrSeparator g) := each_spaceOrSeparator
  have hseparator : Keeps (Each (IfOperand IsPart)) (dateSeparator g) := each_dateSeparator
  have hlayout {rules : List Rule} (h : rules.Forall (Keeps (Each (IfOperand IsPart)))) :=
    compositional_each.sequence h
  exact Keeps.alternatives ⟨hlayout ⟨hfull, hseparator, hmonth, hseparator, hday⟩,
    hlayout ⟨hday, hseparator, hmonth, hseparator, hyear⟩, hlayout ⟨hday, hseparator, hmonth⟩,
    hlayout ⟨hday, hspace, hword, hspace, hyear⟩, hlayout ⟨hday, hspace, hword⟩,
    hlayout ⟨hword, hspace, hyear⟩⟩

theorem moment_date : Keeps (One IsMoment) (date g) := by
  have hprefix : Keeps (Each (IfOperand IsPart))
      (sequence [dayWord g, optional (symbol .comma [',']), whitespace]) := by
    have hword : Keeps (Each (IfOperand IsPart)) (dayWord g) :=
      Keeps.alternatives ⟨each_nameComponent, each_nameComponent⟩
    exact compositional_each.sequence
      ⟨hword, compositional_each.optional (each_symbol ..), each_whitespace⟩
  refine Keeps.validated (P := Each (IfOperand IsPart)) (compositional_each.sequence ?_)
    fun hchildren hn => ⟨_, rfl, ?_⟩
  · exact ⟨compositional_each.optional hprefix, each_dateLayouts⟩
  · obtain ⟨-, _, -, rfl⟩ := Node.date_eq_ok_iff.1 hn
    exact .date (Node.forall_operandsOf hchildren)

theorem moment_time : Keeps (One IsMoment) (time g) := by
  have hmeridiem : Keeps (Each (IfOperand IsPart)) (meridiem g) := each_nameComponent
  have hfraction : Keeps (Each (IfOperand IsPart)) (fractionPart g) :=
    compositional_each.optional (compositional_each.sequence ⟨each_symbol .., each_secondFraction⟩)
  have hseconds : Keeps (Each (IfOperand IsPart)) (secondsPart g) :=
    compositional_each.optional
      (compositional_each.sequence ⟨each_symbol .., each_digitsComponent, hfraction⟩)
  have hbehind : Keeps (Each (IfOperand IsPart))
      (optional (sequence [optionalWhitespace, meridiem g])) :=
    compositional_each.optional (compositional_each.sequence ⟨each_optionalWhitespace, hmeridiem⟩)
  refine Keeps.validated (P := Each (IfOperand IsPart)) (Keeps.alternatives ?_)
    fun hchildren hn => ⟨_, rfl, ?_⟩
  · refine ⟨compositional_each.sequence ?_, compositional_each.sequence ?_⟩
    · exact ⟨each_digitsComponent, each_symbol .., each_digitsComponent, hseconds, hbehind⟩
    · exact ⟨each_digitsComponent, each_optionalWhitespace, hmeridiem⟩
  · obtain ⟨-, _, -, rfl⟩ := Node.time_eq_ok_iff.1 hn
    exact .time (Node.forall_operandsOf hchildren)

theorem entry_dateTime : Keeps (One IsEntry) (dateTime g) := by
  refine Keeps.transform (P := Each (IfOperand IsMoment)) (compositional_each.sequence ?_)
    fun hchildren hn => ⟨_, rfl, ?_⟩
  · exact ⟨each_operand moment_date, each_whitespace, each_operand moment_time⟩
  · obtain ⟨-, -, rfl⟩ := Node.dateTime_eq_ok_iff.1 hn
    exact .dateTime (Node.forall_operandsOf hchildren)

/-- Whatever is typed into a cell and read is an entry. -/
theorem entry_valueOrExpression : Keeps (One IsEntry) (valueOrExpression g) := by
  refine Keeps.alternatives ?_
  exact ⟨term_formula.one_imp fun _ => .term, entry_dateTime.complete,
    (moment_date.one_imp fun _ => .moment).complete,
    (moment_time.one_imp fun _ => .moment).complete,
    (atom_number.term.one_imp fun _ => .term).complete,
    (atom_apostropheText.term.one_imp fun _ => .term).complete,
    atom_wholeText.term.one_imp fun _ => .term⟩

end Rule

end SheetFormula
