import SheetFormula.Proofs.Evaluation
import SheetFormula.Proofs.Storage
import SheetFormula.Proofs.Terms

/-!
# The references of a tree and of its expression

What a tree refers to is listed without building its expression.  `Expression.references` lists what
an expression refers to, and `Grammar.references_toExpression` says that both lists are the same for
everything that is typed into a cell: nothing is lost, doubled or moved when the expression is
built.

* `Node.references_parent`: the list of a tree by recursion on it;
* `Expression.references`: the list of an expression;
* `Node.Agrees`: the expressions that a node makes have the references of the node.
-/

namespace SheetFormula

/-! ### The references of a tree -/

/-- What a leaf refers to. -/
def Content.references : Content → List Reference
  | label name => [.label name]
  | template name => [.template name]
  | _ => []

/-- What a parent refers to as a whole. -/
def Form.reference? : Form → Option Reference
  | cell reference => some (.cell reference)
  | cellRange reference => some (.range reference)
  | _ => none

namespace Node

variable {n : Node} {ns children : List Node} {content : Content} {form : Form} {t : Text}

/-- The visitor that lists references, last first. -/
def listing : Visitor (List Reference) := ⟨noteReference, fun found _ => found⟩

mutual

/-- What was found before stays behind what is found in a tree. -/
theorem walk_listing (found : List Reference) (n : Node) :
    n.walk listing found = n.walk listing [] ++ found := by
  match n with
  | leaf content t => cases content <;> rfl
  | parent form children =>
    -- A cell or range is noted without its parts; of any other parent the children are listed.
    cases form with
    | cell | cellRange => rfl
    | _ => exact walkAll_listing found children

/-- What was found before stays behind what is found in trees. -/
theorem walkAll_listing (found : List Reference) (ns : List Node) :
    walkAll listing found ns = walkAll listing [] ns ++ found := by
  match ns with
  | [] => rfl
  | n :: rest =>
    rw [walkAll, walkAll, walkAll_listing (n.walk listing found), walk_listing found n,
      walkAll_listing (n.walk listing []), List.append_assoc]

end

theorem reverse_walkAll_listing : (walkAll listing [] ns).reverse = ns.flatMap references := by
  induction ns with
  | nil => rfl
  | cons n ns ih =>
    rw [walkAll, walkAll_listing, List.reverse_append, ih]
    rfl

@[simp] theorem references_leaf : (leaf content t).references = content.references := by
  cases content <;> rfl

/-- A parent refers to one thing, or to what its children refer to in turn. -/
theorem references_parent : (parent form children).references =
    match form.reference? with
    | some reference => [reference]
    | none => children.flatMap references := by
  cases form with
  | cell | cellRange => rfl
  | _ => exact reverse_walkAll_listing

theorem references_of_isNoise (h : n.isNoise = true) : n.references = [] := by
  match n with
  | leaf content t =>
    cases content with
    | symbol | whitespace => rfl
    | _ => cases h
  | parent form children => cases form <;> cases h

/-- Symbols and whitespace refer to nothing. -/
theorem references_operandsOf : (operandsOf ns).flatMap references = ns.flatMap references := by
  induction ns with
  | nil => rfl
  | cons n ns ih =>
    cases hn : n.isNoise with
    | true =>
      rw [List.flatMap_cons, references_of_isNoise hn, ← ih]
      simp [operandsOf, hn]
    | false => simp [operandsOf, hn, ← ih]

end Node

/-! ### The references of an expression -/

namespace Expression

mutual

/-- What an expression refers to, from left to right.  What is called comes before the arguments. -/
def references : Expression → List Reference
  | reference r => [r]
  | binary _ left right => references left ++ references right
  | negative operand => references operand
  | call callee args => references callee ++ referencesOfAll args
  | _ => []

/-- What expressions refer to, one after another. -/
def referencesOfAll : List Expression → List Reference
  | [] => []
  | e :: rest => references e ++ referencesOfAll rest

end

variable {es : List Expression}

theorem referencesOfAll_eq : referencesOfAll es = es.flatMap references := by
  induction es with
  | nil => rfl
  | cons e es ih => rw [referencesOfAll, ih, List.flatMap_cons]

end Expression

/-! ### Parents that keep the references of their children -/

/-- Whether a parent makes its expression of those of its children. -/
def Form.gathers : Form → Bool
  | binary _ | unary _ | functionParameters | namedFunction _ | lambda _ => true
  | _ => false

/-- Whether a parent makes a value without regard to the expressions of its children. -/
def Form.isValue : Form → Bool
  | number _ | date _ | time _ | dateTime | text _ => true
  | _ => false

namespace Node

variable {n : Node} {ns children : List Node} {form : Form} {s : Settings}
  {es inner : List Expression}

/-- No parent that gathers the expressions of its children drops, doubles or moves a reference. -/
theorem references_buildNode (hform : form.gathers = true)
    (h : s.buildNode (parent form children) inner = .ok es) :
    es.flatMap Expression.references = inner.flatMap Expression.references := by
  cases form with
  | binary op =>
    match inner with
    | [left, right] =>
      cases h
      simp [Expression.references]
    | [] | [_] | _ :: _ :: _ :: _ => cases h
  | unary wrapper =>
    match inner with
    | [operand] =>
      cases h
      cases wrapper <;> simp [Expression.references]
    | [] | _ :: _ :: _ => cases h
  | functionParameters =>
    cases h
    rfl
  | namedFunction name =>
    cases h
    simp [Expression.references, Expression.referencesOfAll_eq]
  | lambda name =>
    simp only [Settings.buildNode] at h
    split_ifs at h
    cases h
    -- The arguments are cut in two and stay in their order.
    simp only [Expression.references, Expression.referencesOfAll_eq, List.flatMap_singleton,
      List.nil_append]
    rw [← List.flatMap_append, List.take_append_drop]
  | _ => cases hform

theorem exists_value_of_buildNode (hform : form.isValue = true)
    (h : s.buildNode (parent form children) inner = .ok es) : ∃ v, es = [.value v] := by
  cases form with
  | number d =>
    obtain ⟨v, -, hes⟩ := bind_eq_ok_iff.1 h
    exact ⟨v, (Except.ok.inj hes).symm⟩
  | date parts =>
    obtain ⟨date, -, hes⟩ := bind_eq_ok_iff.1 h
    exact ⟨_, (Except.ok.inj hes).symm⟩
  | time value => exact ⟨_, (Except.ok.inj h).symm⟩
  | dateTime =>
    obtain ⟨v, -, hes⟩ := bind_eq_ok_iff.1 h
    exact ⟨v, (Except.ok.inj hes).symm⟩
  | text value => exact ⟨_, (Except.ok.inj h).symm⟩
  | _ => cases hform

/-! ### Agreement -/

/-- The expressions that a node makes refer to what the node refers to. -/
def Agrees (s : Settings) (n : Node) : Prop :=
  ∀ ⦃es : List Expression⦄, n.expressions s = .ok es →
    es.flatMap Expression.references = n.references

theorem references_expressionsOfAll (h : ∀ n ∈ ns, n.Agrees s)
    (hes : expressionsOfAll s ns = .ok es) :
    es.flatMap Expression.references = ns.flatMap references := by
  induction ns generalizing es with
  | nil =>
    cases hes
    rfl
  | cons n ns ih =>
    obtain ⟨hn, hns⟩ := List.forall_mem_cons.1 h
    obtain ⟨first, more, hfirst, hmore, rfl⟩ := expressionsOfAll_cons_eq_ok_iff.1 hes
    rw [List.flatMap_append, List.flatMap_cons, hn hfirst, ih hns hmore]

theorem agrees_leaf {content : Content} {t : Text} : (leaf content t).Agrees s := by
  intro es hes
  obtain rfl : Settings.buildLeaf content = es := Except.ok.inj hes
  cases content <;> rfl

theorem Agrees.gathering (hform : form.gathers = true)
    (h : ∀ child ∈ operandsOf children, child.Agrees s) : (parent form children).Agrees s := by
  intro es hes
  obtain ⟨inner, hinner, hbuild⟩ := expressions_parent_eq_ok_iff.1 hes
  have hnone : form.reference? = none := by
    cases form <;> first | rfl | cases hform
  rw [references_parent, hnone, references_buildNode hform hbuild, ← references_operandsOf]
  exact references_expressionsOfAll h (expressionsOfAll_operandsOf.trans hinner)

theorem Agrees.value (hform : form.isValue = true) (h : (parent form children).references = []) :
    (parent form children).Agrees s := by
  intro es hes
  obtain ⟨inner, -, hbuild⟩ := expressions_parent_eq_ok_iff.1 hes
  obtain ⟨v, rfl⟩ := exists_value_of_buildNode hform hbuild
  rw [h]
  rfl

/-! ### What is typed into a cell -/

theorem IsPart.references_eq (h : n.IsPart) : n.references = [] := by
  obtain ⟨content, t, rfl, -, hbuild⟩ := h
  rw [references_leaf]
  cases content <;> first | rfl | cases hbuild

theorem references_of_parts (hform : form.isValue = true)
    (h : ∀ part ∈ operandsOf children, part.references = []) :
    (parent form children).references = [] := by
  have hnone : form.reference? = none := by
    cases form <;> first | rfl | cases hform
  rw [references_parent, hnone, ← references_operandsOf]
  exact List.flatMap_eq_nil_iff.2 h

theorem IsAtom.agrees (h : n.IsAtom) : n.Agrees s := by
  have hparts {parts : List Node} (h : ∀ part ∈ parts, part.IsPart) :
      ∀ part ∈ operandsOf parts, part.references = [] :=
    fun part hpart => (h part (List.mem_of_mem_filter hpart)).references_eq
  cases h with
  | error | boolean | label => exact agrees_leaf
  | number h => exact .value rfl (references_of_parts rfl (hparts h))
  | text h => exact .value rfl (references_of_parts rfl (hparts h))
  | cell | cellRange =>
    intro es hes
    obtain ⟨inner, -, hbuild⟩ := expressions_parent_eq_ok_iff.1 hes
    cases hbuild
    rfl

theorem IsTerm.agrees (h : n.IsTerm) : n.Agrees s := by
  induction h with
  | atom h => exact h.agrees
  | unary hoperands _ ih =>
    refine .gathering rfl ?_
    rw [hoperands]
    exact List.forall_mem_singleton.2 ih
  | binary hoperands _ _ ihleft ihright =>
    refine .gathering rfl ?_
    rw [hoperands]
    exact List.forall_mem_cons.2 ⟨ihleft, List.forall_mem_singleton.2 ihright⟩
  | call hoperands _ ih =>
    refine .gathering rfl ?_
    rw [hoperands]
    exact List.forall_mem_cons.2 ⟨agrees_leaf, List.forall_mem_singleton.2 (.gathering rfl ih)⟩
  | lambda hoperands _ _ ihdeclared ihvalues =>
    refine .gathering rfl ?_
    rw [hoperands]
    exact List.forall_mem_cons.2 ⟨agrees_leaf, List.forall_mem_cons.2
      ⟨.gathering rfl ihdeclared, List.forall_mem_singleton.2 (.gathering rfl ihvalues)⟩⟩

theorem IsMoment.references_eq (h : n.IsMoment) : n.references = [] := by
  cases h with
  | date h => exact references_of_parts rfl fun part hpart => (h part hpart).references_eq
  | time h => exact references_of_parts rfl fun part hpart => (h part hpart).references_eq

theorem IsEntry.agrees (h : n.IsEntry) : n.Agrees s := by
  cases h with
  | term h => exact h.agrees
  | moment h =>
    have hnone := h.references_eq
    cases h <;> exact .value rfl hnone
  | dateTime h =>
    exact .value rfl (references_of_parts rfl fun half hhalf => (h half hhalf).references_eq)

end Node

namespace Grammar

/-- An expression refers to what the tree it was built from refers to, in the same order and as many
times. -/
theorem references_toExpression (g : Grammar) (p : Parser) (text : Text) (n : Node) (s : Settings)
    (e : Expression) (hp : p = .expression ∨ p = .valueOrExpression)
    (h : g.parse p text = .ok n) (he : n.toExpression s = .ok (some e)) :
    e.references = n.references := by
  obtain ⟨c, hfound, -⟩ := found_of_parse h
  have hentry : n.IsEntry := by
    rcases hp with rfl | rfl
    · obtain ⟨_, hnodes, hterm⟩ := Rule.term_expression.found hfound
      obtain ⟨rfl, -⟩ := List.cons.inj hnodes
      exact .term hterm
    · obtain ⟨_, hnodes, hentry⟩ := Rule.entry_valueOrExpression.found hfound
      obtain ⟨rfl, -⟩ := List.cons.inj hnodes
      exact hentry
  have hagrees := hentry.agrees (Node.toExpression_eq_ok_iff.1 he)
  rwa [List.flatMap_singleton] at hagrees

/-- The values of a lambda function stand behind its body, and a range counts once. -/
theorem references_toExpression_lambda : ∃ n e,
    american.parse .valueOrExpression "=lambda(x, x + (A1))(-B2:$C$3, rate) > A1" = .ok n ∧
    n.toExpression { today := ⟨2024, 2, 29⟩ } = .ok (some e) ∧
    e.references = n.references ∧ n.references.length = 6 := by
  have hcheck : (american.parse .valueOrExpression
      "=lambda(x, x + (A1))(-B2:$C$3, rate) > A1").toOption.any (fun n =>
        decide (n.references.length = 6) &&
          (n.toExpression { today := ⟨2024, 2, 29⟩ }).toOption.any Option.isSome) = true := by
    decide +kernel
  obtain ⟨n, hn, hcheck⟩ := exists_ok_of_any hcheck
  obtain ⟨hlength, hcheck⟩ := Bool.and_eq_true_iff.1 hcheck
  obtain ⟨_, hbuilt, hsome⟩ := exists_ok_of_any hcheck
  obtain ⟨e, rfl⟩ := Option.isSome_iff_exists.1 hsome
  exact ⟨n, e, hn, hbuilt, references_toExpression american .valueOrExpression _ n _ e (.inr rfl)
    hn hbuilt, of_decide_eq_true hlength⟩

end Grammar

end SheetFormula
