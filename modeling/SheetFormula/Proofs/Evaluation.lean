import SheetFormula.Expression.Build
import SheetFormula.Proofs.Build

/-!
# Expressions by recursion on the tree

`Node.toExpression` goes through a tree with a stack of open lists.  What a node adds to the list
around it depends on the node alone: `Node.expressions` says what, by recursion on the tree, and
`Node.toExpression_eq` that the way through the tree comes to the same.
-/

namespace SheetFormula

namespace Node

mutual

/-- The expressions that a node makes. -/
def expressions (s : Settings) : Node → Except BuildError (List Expression)
  | leaf content text => s.buildNode (leaf content text) []
  | parent form children => do
    let results ← expressionsOfAll s children
    s.buildNode (parent form children) results

/-- The expressions that nodes make, one after another. -/
def expressionsOfAll (s : Settings) : List Node → Except BuildError (List Expression)
  | [] => .ok []
  | n :: rest => do
    let first ← expressions s n
    let more ← expressionsOfAll s rest
    return first ++ more

end

variable {s : Settings} {n : Node} {ns ms : List Node} {e : Expression}

/-! ### The way through the tree -/

/-- After an error nothing happens any more. -/
theorem walkAll_of_error {levels : List (List Expression)} {error : BuildError} :
    walkAll (Construction.visitor s) ⟨levels, some error⟩ ns = ⟨levels, some error⟩ := by
  have hwalk (n : Node) :
      n.walk (Construction.visitor s) ⟨levels, some error⟩ = ⟨levels, some error⟩ := by
    cases n <;> rfl
  induction ns with
  | nil => rfl
  | cons n ns ih => rw [walkAll, hwalk, ih]

mutual

/-- A node adds its expressions to the innermost list, or it leaves an error and all lists as they
were. -/
theorem walk_visitor (s : Settings) (around : List Expression) (outer : List (List Expression))
    (n : Node) :
    n.walk (Construction.visitor s) ⟨around :: outer, none⟩ =
      match n.expressions s with
      | .ok built => ⟨(around ++ built) :: outer, none⟩
      | .error error => ⟨around :: outer, some error⟩ := by
  match n with
  | leaf content text => rfl
  | parent form children =>
    obtain ⟨built, hchildren⟩ := walkAll_visitor s [] (around :: outer) children
    show Construction.leave s
        (walkAll (Construction.visitor s) ⟨[] :: around :: outer, none⟩ children)
        (parent form children) = _
    rw [hchildren, expressions]
    cases expressionsOfAll s children with
    | error error => rfl
    | ok results =>
      simp only [Construction.leave, Option.isSome_none, Bool.false_eq_true, if_false,
        List.nil_append]
      show _ = match s.buildNode (parent form children) results with
        | .ok built => (⟨(around ++ built) :: outer, none⟩ : Construction)
        | .error error => ⟨around :: outer, some error⟩
      -- The list that was opened for the children is closed again, with what they gave in it.
      cases s.buildNode (parent form children) results <;> rfl

/-- Nodes add their expressions to the innermost list, up to the first error. -/
theorem walkAll_visitor (s : Settings) (around : List Expression)
    (outer : List (List Expression)) (ns : List Node) :
    ∃ built, walkAll (Construction.visitor s) ⟨around :: outer, none⟩ ns =
      match expressionsOfAll s ns with
      | .ok results => ⟨(around ++ results) :: outer, none⟩
      | .error error => ⟨(around ++ built) :: outer, some error⟩ := by
  match ns with
  | [] => exact ⟨[], by simp [walkAll, expressionsOfAll]⟩
  | n :: rest =>
    rw [walkAll, walk_visitor s around outer n, expressionsOfAll]
    cases n.expressions s with
    | error error => exact ⟨[], by rw [walkAll_of_error, List.append_nil]; rfl⟩
    | ok first =>
      obtain ⟨built, hrest⟩ := walkAll_visitor s (around ++ first) outer rest
      refine ⟨first ++ built, ?_⟩
      simp only [hrest]
      show _ = match expressionsOfAll s rest >>= fun more => Except.ok (first ++ more) with
        | .ok results => (⟨(around ++ results) :: outer, none⟩ : Construction)
        | .error error => ⟨(around ++ (first ++ built)) :: outer, some error⟩
      cases expressionsOfAll s rest <;> simp [bind, Except.bind]

end

/-- The expression of a tree is the one that its root makes, if it makes one. -/
theorem toExpression_eq : n.toExpression s = (do
    match ← n.expressions s with
    | [] => return none
    | [e] => return some e
    | results => throw (.resultCount n.kind results.length)) := by
  unfold toExpression
  rw [walk_visitor]
  cases n.expressions s with
  | error error => rfl
  | ok built =>
    match built with
    | [] => rfl
    | [e] => rfl
    | e :: e' :: more => rfl

theorem toExpression_eq_ok_iff : n.toExpression s = .ok (some e) ↔ n.expressions s = .ok [e] := by
  rw [toExpression_eq]
  cases n.expressions s with
  | error error => simp [bind, Except.bind]
  | ok built =>
    match built with
    | [] => simp [bind, Except.bind, pure, Except.pure]
    | [e] => simp [bind, Except.bind, pure, Except.pure]
    | e :: e' :: more => simp [bind, Except.bind, throw, throwThe, MonadExceptOf.throw]

/-! ### What nodes make -/

theorem expressionsOfAll_cons_eq_ok_iff {results : List Expression} :
    expressionsOfAll s (n :: ns) = .ok results ↔ ∃ first more,
      n.expressions s = .ok first ∧ expressionsOfAll s ns = .ok more ∧ results = first ++ more := by
  simp only [expressionsOfAll, bind_eq_ok_iff]
  constructor
  · rintro ⟨first, hfirst, more, hmore, h⟩
    cases h
    exact ⟨first, more, hfirst, hmore, rfl⟩
  · rintro ⟨first, more, hfirst, hmore, rfl⟩
    exact ⟨first, hfirst, more, hmore, rfl⟩

/-- Symbols, blanks and names of functions make nothing. -/
theorem expressionsOfAll_cons_leaf {content : Content} {t : Text}
    (h : Settings.buildLeaf content = []) :
    expressionsOfAll s (.leaf content t :: ns) = expressionsOfAll s ns := by
  have hleaf : (leaf content t).expressions s = .ok [] := congrArg Except.ok h
  rw [expressionsOfAll, hleaf]
  show (expressionsOfAll s ns >>= fun more => Except.ok ([] ++ more)) = _
  cases expressionsOfAll s ns <;> rfl

/-- Noise makes nothing. -/
theorem expressionsOfAll_operandsOf :
    expressionsOfAll s (operandsOf ns) = expressionsOfAll s ns := by
  induction ns with
  | nil => rfl
  | cons n ns ih =>
    have hcons :
        operandsOf (n :: ns) = if n.isNoise then operandsOf ns else n :: operandsOf ns := by
      cases hn : n.isNoise <;> simp [operandsOf, hn]
    rw [hcons]
    split_ifs with hn
    · match n with
      | leaf .whitespace _ | leaf (.symbol _) _ => rw [ih, expressionsOfAll_cons_leaf rfl]
      | parent form _ => cases form <;> cases hn
    · rw [expressionsOfAll, expressionsOfAll, ih]

theorem expressionsOfAll_singleton : expressionsOfAll s [n] = n.expressions s := by
  show (n.expressions s >>= fun first => Except.ok (first ++ [])) = _
  simp only [List.append_nil]
  cases n.expressions s <;> rfl

theorem expressions_parent_eq_ok_iff {form : Form} {results : List Expression} :
    (parent form ns).expressions s = .ok results ↔ ∃ inner, expressionsOfAll s ns = .ok inner ∧
      s.buildNode (parent form ns) inner = .ok results := by
  rw [expressions, bind_eq_ok_iff]

section Parents

variable {results : List Expression}

theorem expressions_unary_eq_ok_iff {wrapper : Wrapper} :
    (parent (.unary wrapper) ns).expressions s = .ok results ↔ ∃ e,
      expressionsOfAll s ns = .ok [e] ∧
        results = [if wrapper = .negative then .negative e else e] := by
  rw [expressions_parent_eq_ok_iff]
  constructor
  · rintro ⟨inner, hinner, h⟩
    match inner with
    | [e] => exact ⟨e, hinner, (Except.ok.inj h).symm⟩
    | [] | _ :: _ :: _ => cases h
  · rintro ⟨e, hinner, rfl⟩
    exact ⟨[e], hinner, rfl⟩

theorem expressions_binary_eq_ok_iff {op : Operator} :
    (parent (.binary op) ns).expressions s = .ok results ↔ ∃ l r,
      expressionsOfAll s ns = .ok [l, r] ∧ results = [.binary (.listed op) l r] := by
  rw [expressions_parent_eq_ok_iff]
  constructor
  · rintro ⟨inner, hinner, h⟩
    match inner with
    | [l, r] => exact ⟨l, r, hinner, (Except.ok.inj h).symm⟩
    | [] | [_] | _ :: _ :: _ :: _ => cases h
  · rintro ⟨l, r, hinner, rfl⟩
    exact ⟨[l, r], hinner, rfl⟩

theorem expressions_namedFunction_eq_ok_iff {name : Text} :
    (parent (.namedFunction name) ns).expressions s = .ok results ↔ ∃ args,
      expressionsOfAll s ns = .ok args ∧ results = [.call (.function name) args] := by
  rw [expressions_parent_eq_ok_iff]
  exact exists_congr fun args => and_congr_right fun _ =>
    ⟨fun h => (Except.ok.inj h).symm, fun h => h ▸ rfl⟩

theorem expressions_functionParameters :
    (parent .functionParameters ns).expressions s = expressionsOfAll s ns := by
  rw [expressions]
  cases expressionsOfAll s ns <;> rfl

/-- A lambda is called with what is left behind the parameters it declares. -/
theorem expressions_lambda_eq_ok_iff {name : Text} :
    (parent (.lambda name) ns).expressions s = .ok results ↔ ∃ args,
      expressionsOfAll s ns = .ok args ∧
        Settings.declaredCount (parent (.lambda name) ns) ≤ args.length ∧
        results = [.call (.call (.function name)
            (args.take (Settings.declaredCount (parent (.lambda name) ns))))
          (args.drop (Settings.declaredCount (parent (.lambda name) ns)))] := by
  rw [expressions_parent_eq_ok_iff]
  refine exists_congr fun args => and_congr_right fun _ => ?_
  simp only [Settings.buildNode]
  split_ifs with hfew
  · simp [Nat.not_le.2 hfew]
  · simp [Nat.not_lt.1 hfew, eq_comm]

end Parents

end Node

end SheetFormula
