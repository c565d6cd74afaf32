import SheetFormula.Proofs.Outcomes

/-!
# The stack of open lists

`Node.toExpression` keeps the lists of expressions that are open on a stack.  Entering a node opens
a list and leaving it closes one, but after an error nodes are entered no more, while those that are
open are still left.  So that the stack comes out even has to be shown for walks that begin and end
anywhere in a tree, with an error before, within or behind them: a walk changes the innermost list
and no other, `Node.walk_changes_innermost`.

* `Node.postorder`, the nodes of a tree in the order in which they are left, and
  `Node.FirstRefused`, the error of the first of them that nothing can be made of;
* `Node.toExpression_is_recursion`: the walk comes to the same as recursion on the tree.
-/

namespace SheetFormula

namespace Node

mutual

/-- The nodes of a tree in the order in which they are left: each behind those below it. -/
def postorder : Node → List Node
  | leaf content text => [leaf content text]
  | parent form children => postorderOfAll children ++ [parent form children]

/-- The nodes of trees in the order in which they are left. -/
def postorderOfAll : List Node → List Node
  | [] => []
  | n :: rest => postorder n ++ postorderOfAll rest

end

/-- The first of `ns` that fails has children that do not, and making something of what these make
ends with `error`. -/
def FirstRefused (s : Settings) (ns : List Node) (error : BuildError) : Prop :=
  ∃ before m after results, ns = before ++ m :: after ∧
    (∀ k ∈ before, ∃ built, k.expressions s = .ok built) ∧
    expressionsOfAll s m.children = .ok results ∧ s.buildNode m results = .error error

variable {s : Settings} {n : Node} {ns ms : List Node} {error : BuildError}

/-! ### The first error -/

/-- A node makes something of what its children make, one after another. -/
theorem expressions_eq :
    n.expressions s = expressionsOfAll s n.children >>= fun results => s.buildNode n results := by
  cases n with
  | leaf content text => rfl
  | parent form ns => rw [expressions, Node.children]

theorem expressionsOfAll_eq_flatten :
    expressionsOfAll s ns = List.flatten <$> ns.mapM (expressions s) := by
  induction ns with
  | nil => rfl
  | cons n ns ih =>
    rw [expressionsOfAll, ih, List.mapM_cons]
    simp only [map_bind, bind_map_left, map_pure, List.flatten_cons]

mutual

/-- Where a node makes expressions, so do all nodes below it. -/
theorem expressions_ok_of_mem_postorder (n : Node) {built : List Expression}
    (h : n.expressions s = .ok built) : ∀ k ∈ n.postorder, ∃ made, k.expressions s = .ok made := by
  match n with
  | leaf content text => exact List.forall_mem_singleton.2 ⟨built, h⟩
  | parent form ns =>
    obtain ⟨results, hresults, -⟩ := expressions_parent_eq_ok_iff.1 h
    exact List.forall_mem_append.2
      ⟨expressions_ok_of_mem_postorderOfAll ns hresults, List.forall_mem_singleton.2 ⟨built, h⟩⟩

theorem expressions_ok_of_mem_postorderOfAll (ns : List Node) {results : List Expression}
    (h : expressionsOfAll s ns = .ok results) :
    ∀ k ∈ postorderOfAll ns, ∃ made, k.expressions s = .ok made := by
  match ns with
  | [] => exact List.forall_mem_nil _
  | n :: rest =>
    obtain ⟨first, more, hfirst, hmore, -⟩ := expressionsOfAll_cons_eq_ok_iff.1 h
    exact List.forall_mem_append.2
      ⟨expressions_ok_of_mem_postorder n hfirst, expressions_ok_of_mem_postorderOfAll rest hmore⟩

end

theorem FirstRefused.append_right (h : FirstRefused s ns error) (ms : List Node) :
    FirstRefused s (ns ++ ms) error := by
  obtain ⟨before, m, after, results, rfl, hbefore, hresults, herror⟩ := h
  exact ⟨before, m, after ++ ms, results, by simp, hbefore, hresults, herror⟩

theorem FirstRefused.append_left (h : FirstRefused s ns error)
    (hms : ∀ k ∈ ms, ∃ built, k.expressions s = .ok built) : FirstRefused s (ms ++ ns) error := by
  obtain ⟨before, m, after, results, rfl, hbefore, hresults, herror⟩ := h
  exact ⟨ms ++ before, m, after, results, by simp, List.forall_mem_append.2 ⟨hms, hbefore⟩,
    hresults, herror⟩

mutual

/-- The error of a tree is that of the first node, in the order in which they are left. -/
theorem firstRefused_postorder (n : Node) {error : BuildError}
    (h : n.expressions s = .error error) : FirstRefused s n.postorder error := by
  match n with
  | leaf content text => cases h
  | parent form ns =>
    rw [postorder]
    rw [expressions] at h
    cases hchildren : expressionsOfAll s ns with
    | error e =>
      rw [hchildren] at h
      cases h
      exact (firstRefused_postorderOfAll ns hchildren).append_right _
    | ok results =>
      rw [hchildren] at h
      exact ⟨_, _, [], results, rfl, expressions_ok_of_mem_postorderOfAll ns hchildren,
        hchildren, h⟩

theorem firstRefused_postorderOfAll (ns : List Node) {error : BuildError}
    (h : expressionsOfAll s ns = .error error) : FirstRefused s (postorderOfAll ns) error := by
  match ns with
  | [] => cases h
  | n :: rest =>
    rw [postorderOfAll]
    rw [expressionsOfAll] at h
    cases hfirst : n.expressions s with
    | error e =>
      rw [hfirst] at h
      cases h
      exact (firstRefused_postorder n hfirst).append_right _
    | ok first =>
      rw [hfirst] at h
      cases hrest : expressionsOfAll s rest with
      | error e =>
        rw [hrest] at h
        cases h
        exact (firstRefused_postorderOfAll rest hrest).append_left
          (expressions_ok_of_mem_postorder n hfirst)
      | ok more =>
        rw [hrest] at h
        cases h

end

theorem FirstRefused.exists_find (h : FirstRefused s ns error) :
    ∃ m, ns.find? (fun k => !(k.expressions s).isOk) = some m ∧ m.expressions s = .error error := by
  obtain ⟨before, m, after, results, rfl, hbefore, hresults, herror⟩ := h
  have hm : m.expressions s = .error error := by
    rw [expressions_eq, hresults]
    exact herror
  refine ⟨m, List.find?_eq_some_iff_append.2 ⟨by rw [hm]; rfl, before, after, rfl, fun k hk => ?_⟩,
    hm⟩
  obtain ⟨built, hbuilt⟩ := hbefore k hk
  rw [hbuilt]
  rfl

/-- Only one node is the first that fails. -/
theorem FirstRefused.unique {error' : BuildError} (h : FirstRefused s ns error)
    (h' : FirstRefused s ns error') : error = error' := by
  obtain ⟨m, hfind, hm⟩ := h.exists_find
  obtain ⟨m', hfind', hm'⟩ := h'.exists_find
  obtain rfl : m = m' := Option.some.inj (hfind.symm.trans hfind')
  exact Except.error.inj (hm.symm.trans hm')

theorem expressions_eq_error_iff :
    n.expressions s = .error error ↔ FirstRefused s n.postorder error := by
  refine ⟨firstRefused_postorder n, fun h => ?_⟩
  cases hn : n.expressions s with
  | error e => rw [(firstRefused_postorder n hn).unique h]
  | ok built =>
    obtain ⟨before, m, after, results, hsplit, -, hresults, herror⟩ := h
    obtain ⟨made, hmade⟩ := expressions_ok_of_mem_postorder n hn m (by simp [hsplit])
    rw [expressions_eq, hresults] at hmade
    cases herror.symm.trans hmade

/-! ### The stack -/

/-- A walk changes the innermost list and no other, whether or not there is an error before or
within it. -/
theorem walk_changes_innermost (s : Settings) {c : Construction} (hc : c.levels ≠ []) (n : Node) :
    ∃ innermost error?, n.walk (Construction.visitor s) c =
      ⟨innermost :: c.levels.tail, error?⟩ := by
  obtain ⟨levels, error?⟩ := c
  obtain ⟨around, outer, rfl⟩ := List.exists_cons_of_ne_nil hc
  cases error? with
  | none =>
    rw [walk_visitor]
    cases n.expressions s with
    | error e => exact ⟨around, some e, rfl⟩
    | ok built => exact ⟨around ++ built, none, rfl⟩
  | some e => exact ⟨around, some e, by cases n <;> rfl⟩

theorem walkAll_changes_innermost (s : Settings) {c : Construction} (hc : c.levels ≠ [])
    (ns : List Node) : ∃ innermost error?, walkAll (Construction.visitor s) c ns =
      ⟨innermost :: c.levels.tail, error?⟩ := by
  induction ns generalizing c with
  | nil =>
    obtain ⟨levels, error?⟩ := c
    obtain ⟨around, outer, rfl⟩ := List.exists_cons_of_ne_nil hc
    exact ⟨around, error?, rfl⟩
  | cons n rest ih =>
    obtain ⟨first, error?, hwalk⟩ := walk_changes_innermost s hc n
    rw [walkAll, hwalk]
    exact ih (List.cons_ne_nil _ _)

mutual

/-- What is done on leaving a node counts only where a list is open around that of the node, for
where there is none no node is left. -/
theorem walk_leaving {leave : Construction → Node → Construction}
    (hleave : ∀ c m, 2 ≤ c.levels.length → leave c m = Construction.leave s c m)
    {c : Construction} (hc : c.levels ≠ []) (n : Node) :
    n.walk ⟨Construction.enter, leave⟩ c = n.walk (Construction.visitor s) c := by
  obtain ⟨levels, error?⟩ := c
  obtain ⟨around, outer, rfl⟩ := List.exists_cons_of_ne_nil hc
  match n, error? with
  | n, some e => cases n <;> rfl
  | leaf content text, none => exact hleave ⟨[] :: around :: outer, none⟩ _ (by simp)
  | parent form ns, none =>
    obtain ⟨innermost, error?, hwalk⟩ := walkAll_changes_innermost s
      (c := ⟨[] :: around :: outer, none⟩) (List.cons_ne_nil _ _) ns
    show leave (walkAll _ ⟨[] :: around :: outer, none⟩ ns) _ = Construction.leave s
      (walkAll (Construction.visitor s) ⟨[] :: around :: outer, none⟩ ns) _
    rw [walkAll_leaving hleave (List.cons_ne_nil _ _) ns, hwalk]
    exact hleave _ _ (by simp)

theorem walkAll_leaving {leave : Construction → Node → Construction}
    (hleave : ∀ c m, 2 ≤ c.levels.length → leave c m = Construction.leave s c m)
    {c : Construction} (hc : c.levels ≠ []) (ns : List Node) :
    walkAll ⟨Construction.enter, leave⟩ c ns = walkAll (Construction.visitor s) c ns := by
  match ns with
  | [] => rfl
  | n :: rest =>
    obtain ⟨innermost, error?, hwalk⟩ := walk_changes_innermost s hc n
    rw [walkAll, walkAll, walk_leaving hleave hc n, hwalk]
    exact walkAll_leaving hleave (List.cons_ne_nil _ _) rest

end

/-! ### Errors of the stack -/

/-- Making something of what the children of a node make says nothing of the stack. -/
theorem buildNode_ne_unbalanced {results : List Expression} {levels : Nat} :
    s.buildNode n results ≠ .error (.unbalanced levels) := by
  intro h
  -- Only values and counts are refused here; the list of open levels is looked at after the walk.
  match n with
  | leaf content text => cases h
  | parent form ns =>
    cases form with
    | binary op =>
      match results with
      | [_, _] | [] | [_] | _ :: _ :: _ :: _ => cases h
    | unary wrapper =>
      match results with
      | [_] | [] | _ :: _ :: _ => cases h
    | number d =>
      rcases bind_eq_error_iff.1 h with hvalue | ⟨value, -, h⟩
      · obtain ⟨_, hof, -⟩ := Settings.numberValue_error hvalue
        cases hof
      · cases h
    | date parts =>
      rcases bind_eq_error_iff.1 h with hvalue | ⟨value, -, h⟩
      · rcases dateValue_cases s (parent (.date parts) ns).text parts with
          ⟨d, hd⟩ | ⟨error, herror, -⟩
        · cases hd.symm.trans hvalue
        · cases herror.symm.trans hvalue
      · cases h
    | dateTime =>
      rcases bind_eq_error_iff.1 h with hvalue | ⟨value, -, h⟩
      · rcases dateTimeValue_cases s (parent .dateTime ns) with ⟨v, hv⟩ | ⟨_, -, error, herror, -⟩
        · cases hv.symm.trans hvalue
        · cases herror.symm.trans hvalue
      · cases h
    | lambda name =>
      simp only [Settings.buildNode] at h
      split_ifs at h
      cases h
    | _ => cases h

theorem toExpression_ne_unbalanced {levels : Nat} :
    n.toExpression s ≠ .error (.unbalanced levels) := by
  intro h
  rw [toExpression_eq] at h
  rcases bind_eq_error_iff.1 h with hn | ⟨built, -, h⟩
  · obtain ⟨_, _, _, _, -, -, -, herror⟩ := firstRefused_postorder n hn
    exact buildNode_ne_unbalanced herror
  · split at h <;> cases h

/-- Building an expression with a stack of open lists is recursion on the tree.  A node makes
something of what its children make, left to right and one after another, and the expression of a
tree is the one that its root makes; where there is none, the error is that of the first node in the
order in which the nodes are left.  Behind the walk just one list is open, which holds what the root
made or, after an error, nothing; so the error of an uneven stack does not come about.  Within the
walk no node is left while fewer than two lists are open. -/
theorem toExpression_is_recursion (s : Settings) (n : Node) :
    (∀ m : Node, m.expressions s = do
      let lists ← m.children.mapM (expressions s)
      s.buildNode m lists.flatten) ∧
    (n.toExpression s = do
      match ← n.expressions s with
      | [] => return none
      | [e] => return some e
      | results => throw (.resultCount n.kind results.length)) ∧
    (∀ error, n.expressions s = .error error ↔ FirstRefused s n.postorder error) ∧
    (n.walk (Construction.visitor s) ⟨[[]], none⟩ =
      match n.expressions s with
      | .ok built => ⟨[built], none⟩
      | .error error => ⟨[[]], some error⟩) ∧
    (∀ levels, n.toExpression s ≠ .error (.unbalanced levels)) ∧
    ∀ leave : Construction → Node → Construction,
      (∀ c m, 2 ≤ c.levels.length → leave c m = Construction.leave s c m) →
      n.walk ⟨Construction.enter, leave⟩ ⟨[[]], none⟩ =
        n.walk (Construction.visitor s) ⟨[[]], none⟩ := by
  -- Each part is a lemma on the walk; the first only has to leave the accumulated list.
  refine ⟨fun m => ?_, toExpression_eq, fun _ => expressions_eq_error_iff, ?_,
    fun _ => toExpression_ne_unbalanced, fun _ hleave => walk_leaving hleave (by simp) n⟩
  · rw [expressions_eq, expressionsOfAll_eq_flatten]
    exact bind_map_left ..
  · exact walk_visitor s [] [] n

/-- Among the parameters of a function stand two comparisons without their left operands.  The error
is that of the first, which is left in the middle of the walk while three lists are open. -/
theorem toExpression_is_recursion_comparisons :
    let s : Settings := { today := ⟨2024, 3, 15⟩ }
    let comparison (c : Comparison) (sign : Text) : Node :=
      .parent (.conditionRight c) [.leaf (.symbol c.symbol) sign, .leaf (.label "x") "x"]
    let n : Node := .parent .functionParameters [.leaf (.symbol .parenthesisOpen) "(",
      comparison .lessThan "<", .leaf (.symbol .valueSeparator) ",", comparison .greaterThan ">",
      .leaf (.symbol .parenthesisClose) ")"]
    let error : BuildError := .conditionAlone (.conditionRight .lessThan) "<x"
    n.toExpression s = .error error ∧ FirstRefused s n.postorder error ∧
      n.walk (Construction.visitor s) ⟨[[]], none⟩ = ⟨[[]], some error⟩ := by
  intro s comparison n error
  obtain ⟨-, hvalue, herror, hwalk, -, -⟩ := toExpression_is_recursion s n
  have hn : n.expressions s = .error error := rfl
  rw [hn] at hvalue hwalk
  exact ⟨hvalue, (herror error).1 hn, hwalk⟩

end Node

end SheetFormula
