import Mathlib.Logic.Basic
import Mathlib.Tactic.SplitIfs
import SheetFormula.Node.Build

/-!
# What the constructors of parents accept and build

One lemma for each constructor tells which children it accepts and which parent comes out.  In all
cases the children are kept as they are, and the kind of the parent leads back to the constructor
(`Builder.eq_parent_of_buildFull`), so a parent can be built again from its kind and its children.
-/

namespace SheetFormula

theorem bind_eq_ok_iff {ε α β : Type} {x : Except ε α} {f : α → Except ε β} {b : β} :
    (x >>= f) = .ok b ↔ ∃ a, x = .ok a ∧ f a = .ok b := by
  cases x with
  | error e => simp [bind, Except.bind]
  | ok a => simp [bind, Except.bind]

theorem bind_eq_error_iff {ε α β : Type} {x : Except ε α} {f : α → Except ε β} {e : ε} :
    (x >>= f) = .error e ↔ x = .error e ∨ ∃ a, x = .ok a ∧ f a = .error e := by
  cases x with
  | error e => simp [bind, Except.bind]
  | ok a => simp [bind, Except.bind]

theorem mapError_eq_ok_iff {ε ε' α : Type} {x : Except ε α} {f : ε → ε'} {a : α} :
    x.mapError f = .ok a ↔ x = .ok a := by
  cases x with
  | error e => simp [Except.mapError]
  | ok a => simp [Except.mapError]

/-- A result that passes a check is a result. -/
theorem exists_ok_of_any {ε α : Type} {x : Except ε α} {p : α → Bool}
    (h : x.toOption.any p = true) : ∃ a, x = .ok a ∧ p a = true := by
  cases x with
  | error e => cases h
  | ok a => exact ⟨a, rfl, h⟩

namespace Node

variable {children : List Node} {n : Node}

theorem requireChildren_eq_ok_iff {kind : Kind} {u : Unit} :
    requireChildren kind children = .ok u ↔ children ≠ [] := by
  cases children <;> simp [requireChildren]

theorem ne_nil_of_operandsOf_ne_nil (h : operandsOf children ≠ []) : children ≠ [] := by
  rintro rfl
  exact h rfl

@[simp] theorem throw_bind_ne_ok {α β : Type} {d : Defect} {f : α → Except Defect β} {b : β} :
    ((throw d : Except Defect α) >>= f) ≠ .ok b := nofun

theorem return_eq_ok_iff {built : Node} :
    (return built : Except Defect Node) = .ok n ↔ n = built := by
  simp [pure, Except.pure, eq_comm]

/-- Behind the check that there are children stands the rest. -/
theorem requireChildren_bind_eq_ok_iff {kind : Kind} {rest : Except Defect Node} :
    (do requireChildren kind children; rest) = .ok n ↔ children ≠ [] ∧ rest = .ok n := by
  simp [bind_eq_ok_iff, requireChildren_eq_ok_iff]

/-- Where all that is accepted has operands, the check that there are children is met. -/
theorem operands_eq_ok_iff {kind : Kind} {rest : Except Defect Node} {Accepted : Prop}
    (hoperands : Accepted → operandsOf children ≠ []) (h : rest = .ok n ↔ Accepted) :
    (do requireChildren kind children; rest) = .ok n ↔ Accepted := by
  rw [requireChildren_bind_eq_ok_iff, h]
  exact and_iff_right_of_imp fun haccepted => ne_nil_of_operandsOf_ne_nil (hoperands haccepted)

/-- Behind the checks that there are children, and as many operands as expected, stands the rest. -/
theorem operandCount_eq_ok_iff {kind : Kind} {expected : Nat} {rest : Except Defect Node} :
    (do
      requireChildren kind children
      let count := (operandsOf children).length
      if count ≠ expected + 1 then throw (Defect.operandCount kind (expected + 1) count)
      rest) = .ok n ↔
      (operandsOf children).length = expected + 1 ∧ rest = .ok n := by
  refine operands_eq_ok_iff ?_ ?_
  · rintro ⟨hcount, -⟩ hnil
    simp [hnil] at hcount
  · by_cases hcount : (operandsOf children).length = expected + 1 <;> simp [hcount]

theorem checked_eq_ok_iff {check : Except Defect Unit} {built : Node} :
    (do check; return built) = .ok n ↔ check = .ok () ∧ n = built := by
  cases check with
  | error d => simp [bind, Except.bind]
  | ok _ => simp [bind, Except.bind, pure, Except.pure, eq_comm]

/-! ### Operators and wrappers -/

theorem binary_eq_ok_iff {op : Operator} :
    binary (.binary op) children = .ok n ↔
      (operandsOf children).length = 2 ∧
        checkOperator (.binary op) op.symbol 1 children = .ok () ∧
        n = .parent (.binary op) children :=
  operandCount_eq_ok_iff.trans (and_congr_right fun _ => checked_eq_ok_iff)

theorem conditionRight_eq_ok_iff {comparison : Comparison} :
    conditionRight (.conditionRight comparison) children = .ok n ↔
      (operandsOf children).length = 1 ∧
        checkOperator (.conditionRight comparison) comparison.symbol 0 children = .ok () ∧
        n = .parent (.conditionRight comparison) children :=
  operandCount_eq_ok_iff.trans (and_congr_right fun _ => checked_eq_ok_iff)

theorem unary_eq_ok_iff {wrapper : Wrapper} :
    unary (.unary wrapper) children = .ok n ↔
      (operandsOf children).length = 1 ∧ n = .parent (.unary wrapper) children := by
  refine operandCount_eq_ok_iff.trans (and_congr_right fun _ => ?_)
  simp [pure, Except.pure, eq_comm]

/-! ### References -/

theorem cell_eq_ok_iff :
    cell children = .ok n ↔
      ∃ column s row t, operandsOf children = [.leaf (.column column) s, .leaf (.row row) t] ∧
        n = .parent (.cell ⟨column, row⟩) children := by
  refine operands_eq_ok_iff ?_ ?_
  · rintro ⟨_, _, _, _, hops, -⟩
    simp [hops]
  · generalize operandsOf children = operands
    split <;> simp_all [return_eq_ok_iff, and_assoc]

theorem cellRange_eq_ok_iff :
    cellRange children = .ok n ↔
      ∃ first ns last ms,
        operandsOf children = [.parent (.cell first) ns, .parent (.cell last) ms] ∧
        (∃ child ∈ children, child.kind = .symbol .between) ∧
        n = .parent (.cellRange ⟨first, last⟩) children := by
  refine operands_eq_ok_iff ?_ ?_
  · rintro ⟨_, _, _, _, hops, -⟩
    simp [hops]
  · generalize operandsOf children = operands
    split
    · split_ifs <;> simp_all [return_eq_ok_iff, and_assoc]
    · rename_i hcells
      refine iff_of_false nofun ?_
      rintro ⟨_, _, _, _, hops, -⟩
      exact hcells _ _ _ _ (List.cons.inj hops).1 (List.cons.inj (List.cons.inj hops).2).1
    · simp_all

/-! ### Numbers, dates, times and texts -/

theorem number_eq_ok_iff :
    number children = .ok n ↔
      children ≠ [] ∧ ∃ value, numberValue children = .ok value ∧
        n = .parent (.number value) children := by
  rw [number, requireChildren_bind_eq_ok_iff]
  cases numberValue children <;> simp [return_eq_ok_iff]

theorem date_eq_ok_iff :
    date children = .ok n ↔
      children ≠ [] ∧ ∃ parts, dateParts children = .ok parts ∧
        n = .parent (.date parts) children := by
  rw [date, requireChildren_bind_eq_ok_iff]
  cases dateParts children <;> simp [return_eq_ok_iff]

theorem time_eq_ok_iff :
    time children = .ok n ↔
      children ≠ [] ∧ ∃ value, timeOfDay children = .ok value ∧
        n = .parent (.time value) children := by
  rw [time, requireChildren_bind_eq_ok_iff]
  cases timeOfDay children <;> simp [return_eq_ok_iff]

theorem dateTime_eq_ok_iff :
    dateTime children = .ok n ↔
      children ≠ [] ∧
        (∃ seen, (operandsOf children).foldlM noteHalf (false, false) = .ok seen ∧
          seen ≠ (false, false)) ∧
        n = .parent .dateTime children := by
  rw [dateTime, requireChildren_bind_eq_ok_iff, bind_eq_ok_iff, ← exists_and_right]
  refine and_congr_right fun _ => exists_congr fun seen => ?_
  split <;> simp_all [return_eq_ok_iff]

theorem quotation_eq_ok_iff :
    quotation children = .ok n ↔
      children ≠ [] ∧ ∃ literal, children.foldlM noteLiteral none = .ok literal ∧
        n = .parent (.text (literal.getD .empty)) children := by
  rw [quotation, requireChildren_bind_eq_ok_iff]
  simp only [bind_eq_ok_iff, return_eq_ok_iff]

/-! ### Functions -/

theorem functionParameters_eq_ok_iff :
    functionParameters children = .ok n ↔
      children.head?.map kind = some (.symbol .parenthesisOpen) ∧
        children.getLast?.map kind = some (.symbol .parenthesisClose) ∧
        n = .parent .functionParameters children := by
  rw [functionParameters, requireChildren_bind_eq_ok_iff]
  constructor
  · rintro ⟨-, h⟩
    split at h
    · exact ⟨‹_›, ‹_›, return_eq_ok_iff.1 h⟩
    · cases h
  · rintro ⟨hopen, hclose, rfl⟩
    refine ⟨?_, ?_⟩
    · rintro rfl
      cases hopen
    · simp only [hopen, hclose]
      rfl

theorem namedFunction_eq_ok_iff :
    namedFunction children = .ok n ↔
      ∃ name s ns,
        operandsOf children = [.leaf (.functionName name) s, .parent .functionParameters ns] ∧
        n = .parent (.namedFunction name) children := by
  refine operands_eq_ok_iff ?_ ?_
  · rintro ⟨_, _, _, hops, -⟩
    simp [hops]
  · generalize operandsOf children = operands
    split <;> simp_all [return_eq_ok_iff, and_assoc]

theorem lambda_eq_ok_iff :
    lambda children = .ok n ↔
      ∃ name s ns ms,
        operandsOf children = [.leaf (.functionName name) s, .parent .functionParameters ns,
          .parent .functionParameters ms] ∧
        n = .parent (.lambda name) children := by
  refine operands_eq_ok_iff ?_ ?_
  · rintro ⟨_, _, _, _, hops, -⟩
    simp [hops]
  · generalize operandsOf children = operands
    split <;> simp_all [return_eq_ok_iff, and_assoc]

end Node

/-- Whatever a constructor builds has the children it was given, and its kind leads back to the
constructor. -/
theorem Builder.eq_parent_of_buildFull {b : Builder} {children : List Node} {n : Node}
    (h : b.buildFull children = .ok n) :
    ∃ form, n = .parent form children ∧ ofKind? form.kind = some b := by
  -- The first three constructors ask for a kind, and refuse the kinds that are none of theirs.
  cases b with
  | binary k =>
    cases k <;> try cases h
    obtain ⟨-, -, rfl⟩ := Node.binary_eq_ok_iff.1 h
    exact ⟨_, rfl, rfl⟩
  | unary k =>
    cases k <;> try cases h
    obtain ⟨-, rfl⟩ := Node.unary_eq_ok_iff.1 h
    exact ⟨_, rfl, rfl⟩
  | conditionRight k =>
    cases k <;> try cases h
    obtain ⟨-, -, rfl⟩ := Node.conditionRight_eq_ok_iff.1 h
    exact ⟨_, rfl, rfl⟩
  | cell =>
    obtain ⟨_, _, _, _, -, rfl⟩ := Node.cell_eq_ok_iff.1 h
    exact ⟨_, rfl, rfl⟩
  | cellRange =>
    obtain ⟨_, _, _, _, -, -, rfl⟩ := Node.cellRange_eq_ok_iff.1 h
    exact ⟨_, rfl, rfl⟩
  | number =>
    obtain ⟨-, _, -, rfl⟩ := Node.number_eq_ok_iff.1 h
    exact ⟨_, rfl, rfl⟩
  | date =>
    obtain ⟨-, _, -, rfl⟩ := Node.date_eq_ok_iff.1 h
    exact ⟨_, rfl, rfl⟩
  | time =>
    obtain ⟨-, _, -, rfl⟩ := Node.time_eq_ok_iff.1 h
    exact ⟨_, rfl, rfl⟩
  | dateTime =>
    obtain ⟨-, -, rfl⟩ := Node.dateTime_eq_ok_iff.1 h
    exact ⟨_, rfl, rfl⟩
  | text =>
    obtain ⟨-, _, -, rfl⟩ := Node.quotation_eq_ok_iff.1 h
    exact ⟨_, rfl, rfl⟩
  | functionParameters =>
    obtain ⟨-, -, rfl⟩ := Node.functionParameters_eq_ok_iff.1 h
    exact ⟨_, rfl, rfl⟩
  | namedFunction =>
    obtain ⟨_, _, _, -, rfl⟩ := Node.namedFunction_eq_ok_iff.1 h
    exact ⟨_, rfl, rfl⟩
  | lambda =>
    obtain ⟨_, _, _, _, -, rfl⟩ := Node.lambda_eq_ok_iff.1 h
    exact ⟨_, rfl, rfl⟩

/-- Children that are all there are put together. -/
theorem Builder.build_map_some (b : Builder) (children : List Node) :
    b.build (children.map some) = b.kind.bind fun _ => b.buildFull children := by
  have hnone : (children.map some).findIdx? Option.isNone = none := by
    simp [List.findIdx?_eq_none_iff]
  simp only [build, hnone, List.filterMap_map]
  simp
  rfl

end SheetFormula
