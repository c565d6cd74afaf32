import SheetFormula.Proofs.Keys
import SheetFormula.Proofs.Printing
import SheetFormula.Proofs.Whitespace
import SheetFormula.Proofs.Wiring

/-!
# Conditions and the comparisons they stand for

A condition is a comparison that waits for its left operand.  The comparison with a left operand is
built in two ways: from the parsed condition, or by parsing the left operand and the condition as
one text.  Both give the same tree, `Grammar.combineLeft_parsed`, as long as the right operand is no
comparison: the sign of the condition is then the rightmost of the loosest operators of the whole.
-/

namespace SheetFormula

variable {s u v w : List Rune} {head left right n : Node} {joined : List Joined}
  {comparison : Comparison}

/-- A node that compares two others. -/
def Node.IsComparison (n : Node) : Prop := ∃ comparison, n.kind = .binary (.comparison comparison)

/-! ### How loosely comparisons bind -/

/-- The looseness of comparisons, which are the loosest operators. -/
def comparisonLooseness : Nat := 5

theorem Joined.IsBy.looseness_le {j : Joined} (h : j.IsBy operatorSigns) :
    j.link.1.looseness ≤ comparisonLooseness := by
  have hsigns : ∀ s ∈ operatorSigns, s.1.looseness ≤ comparisonLooseness := by decide
  exact hsigns _ h.sign

theorem Joined.IsBy.exists_comparison {j : Joined} (h : j.IsBy operatorSigns)
    (hlooseness : j.link.1.looseness = comparisonLooseness) :
    ∃ comparison, Operator.ofSymbol? j.symbol = some (.comparison comparison) := by
  have hsigns : ∀ s ∈ operatorSigns, s.1.looseness = comparisonLooseness →
      ∃ comparison ∈ Comparison.all, Operator.ofSymbol? s.1 = some (.comparison comparison) := by
    decide
  obtain ⟨comparison, -, hsymbol⟩ := hsigns _ h.sign hlooseness
  exact ⟨comparison, hsymbol⟩

/-- A run with a comparison in it is a comparison, since none of its operators is looser. -/
theorem looseness_lt_of_not_isComparison (hby : ∀ j ∈ joined, j.IsBy operatorSigns)
    (hn : (OperatorTree.ofRun head (joined.map Joined.link)).node? = some n)
    (h : ¬ n.IsComparison) : ∀ l ∈ joined.map Joined.link, l.1.looseness < comparisonLooseness := by
  cases hsplit : Links.splitLoosest (joined.map Joined.link) with
  | none =>
    rw [Links.splitLoosest_eq_none_iff.1 hsplit]
    exact List.forall_mem_nil _
  | some parts =>
    obtain ⟨front, root, back⟩ := parts
    obtain ⟨hlinks, hfront, hback⟩ := Links.splitLoosest_eq_some hsplit
    have hroot : root ∈ joined.map Joined.link := by simp [hlinks]
    -- Were the root a comparison, the node of the run would be one.
    obtain ⟨j, hj, rfl⟩ := List.mem_map.1 hroot
    have hlt : j.link.1.looseness < comparisonLooseness := by
      refine Nat.lt_of_le_of_ne (hby j hj).looseness_le fun hlooseness => h ?_
      obtain ⟨comparison, hsymbol⟩ := (hby j hj).exists_comparison hlooseness
      rw [hlinks, OperatorTree.ofRun_append _ hfront hback] at hn
      obtain ⟨left, -, hn⟩ := Option.bind_eq_some_iff.1 hn
      obtain ⟨right, -, hn⟩ := Option.bind_eq_some_iff.1 hn
      rw [Joint.join?_operator (hby j hj).symbol_ne_between] at hn
      obtain ⟨op, hop, rfl⟩ := Option.map_eq_some_iff.1 hn
      obtain rfl : Operator.comparison comparison = op := Option.some.inj (hsymbol.symm.trans hop)
      exact ⟨comparison, rfl⟩
    rw [hlinks]
    simp only [List.forall_mem_append, List.forall_mem_cons]
    exact ⟨fun l hl => Nat.lt_of_le_of_lt (hfront l hl) hlt, hlt,
      fun l hl => Nat.lt_trans (hback l hl) hlt⟩

/-! ### Two expressions joined by a comparison -/

/-- The leaves of a condition and its right operand. -/
def conditionNodes (comparison : Comparison) (s : List Rune) (right : Node) : List Node :=
  symbolLeaf comparison.symbol comparison.sign.toList :: (spaces s ++ [right])

/-- How a condition is written. -/
def conditionRunes (comparison : Comparison) (s w : List Rune) : List Rune :=
  comparison.sign.toList.map .scalar ++ (s ++ w)

/-- The joint of a comparison with blanks behind it. -/
def comparisonJoint (comparison : Comparison) (s : List Rune) : Joint :=
  ⟨[], comparison.symbol, .ofRunes (comparison.sign.toList.map .scalar), blankTexts s⟩

theorem nodes_comparisonJoint :
    (comparisonJoint comparison s).nodes ++ [right] = conditionNodes comparison s right := by
  simp [Joint.nodes, comparisonJoint, conditionNodes, map_blankTexts, symbolLeaf]

theorem looseness_comparisonJoint :
    (comparisonJoint comparison s).looseness = comparisonLooseness := by
  cases comparison <;> rfl

theorem join?_comparisonJoint :
    (comparisonJoint comparison s).join? left right =
      some (.parent (.binary (.comparison comparison))
        (left :: conditionNodes comparison s right)) := by
  obtain ⟨-, hsymbol, hbetween⟩ := (Operator.comparison comparison).mem_operatorSigns
  rw [Joint.join?_operator hbetween, nodes_comparisonJoint]
  exact congrArg (Option.map _) hsymbol

/-- A comparison with an operand behind it, as a joined node. -/
def comparedWith (comparison : Comparison) (s : List Rune) (right : Node) (w : List Rune) :
    Joined :=
  ⟨[], comparison.symbol, comparison.sign.toList, s, right, w⟩

theorem isBy_comparedWith (hs : AllBlank s) :
    (comparedWith comparison s right w).IsBy operatorSigns :=
  ⟨allBlank_nil, (Operator.comparison comparison).mem_operatorSigns.1, hs⟩

theorem link_comparedWith :
    (comparedWith comparison s right w).link = (comparisonJoint comparison s, right) := by
  rw [comparedWith, Joined.link, comparisonJoint, blankTexts, if_pos rfl]

/-- Behind an expression, a comparison with an expression that is no comparison makes the two its
operands. -/
theorem Derives.compare (comparison : Comparison) (hs : AllBlank s)
    (hleft : Derives .expression left u)
    (hright : Derives .expression right w) (hloose : ¬ right.IsComparison) :
    Derives .expression
      (.parent (.binary (.comparison comparison)) (left :: conditionNodes comparison s right))
      (u ++ conditionRunes comparison s w) := by
  obtain ⟨head, v, front, hhead, hfrontBy, hfront, hleftTree, rfl⟩ := hleft.exists_run
  obtain ⟨head', v', back, hhead', hbackBy, hback, hrightTree, rfl⟩ := hright.exists_run
  have hby : ∀ j ∈ front ++ comparedWith comparison s head' v' :: back, j.IsBy operatorSigns :=
    List.forall_mem_append.2 ⟨hfrontBy, List.forall_mem_cons.2 ⟨isBy_comparedWith hs, hbackBy⟩⟩
  have hall : ∀ j ∈ front ++ comparedWith comparison s head' v' :: back,
      Derives .operand j.node j.written :=
    List.forall_mem_append.2 ⟨hfront, List.forall_mem_cons.2 ⟨hhead', hback⟩⟩
  -- The comparison is the root of the run: none is looser, and those behind it bind tighter.
  have hloosest : ∀ l ∈ front.map Joined.link,
      l.1.looseness ≤ (comparisonJoint comparison s).looseness := by
    rw [looseness_comparisonJoint]
    exact List.forall_mem_map.2 fun j hj => (hfrontBy j hj).looseness_le
  have hrightmost : ∀ l ∈ back.map Joined.link,
      l.1.looseness < (comparisonJoint comparison s).looseness := by
    rw [looseness_comparisonJoint]
    exact looseness_lt_of_not_isComparison hbackBy hrightTree hloose
  refine cast ?_ (Derives.of_run hhead hby hall (n := .parent (.binary (.comparison comparison))
    (left :: conditionNodes comparison s right)) ?_)
  · simp [conditionRunes, Joined.runes, comparedWith]
  · rw [List.map_append, List.map_cons, link_comparedWith,
      OperatorTree.ofRun_append (comparisonJoint comparison s, head') hloosest hrightmost,
      OperatorTree.node?, hleftTree, hrightTree]
    exact join?_comparisonJoint

/-! ### Parsed conditions -/

/-- Combining a condition puts the left operand in front of what the condition holds. -/
theorem Node.combineLeft_eq_ok (hleft : left.isNoise = false) (hright : right.isNoise = false) :
    (Node.parent (.conditionRight comparison) (conditionNodes comparison s right)).combineLeft
      (some left) =
      .ok (.parent (.binary (.comparison comparison))
        (left :: conditionNodes comparison s right)) := by
  show Builder.build (.binary (.binary (.comparison comparison)))
    ((left :: conditionNodes comparison s right).map some) = _
  rw [Builder.build_map_some]
  show Node.binary (.binary (.comparison comparison)) (left :: conditionNodes comparison s right) =
    _
  rw [← nodes_comparisonJoint]
  refine Node.binary_eq_ok_iff.2 ⟨?_, checkOperator_joint (j := comparisonJoint comparison s) hleft
    hright, rfl⟩
  rw [operandsOf_joint, length_operandsOf_pair]
  exact ⟨hleft, hright⟩

namespace Rule

variable {c next : Cursor} {nodes : List Node}

/-- A condition is a sign, blanks and an expression. -/
def FindsCondition (c : Cursor) (nodes : List Node) (next : Cursor) : Prop :=
  Text.Settled c.rest → ∃ comparison s w right, AllBlank s ∧ Derives .expression right w ∧
    nodes = [.parent (.conditionRight comparison) (conditionNodes comparison s right)] ∧
    c.Passes (conditionRunes comparison s w) next

theorem conditionOf_keeps (comparison : Comparison) :
    Keeps FindsCondition (conditionOf .american comparison) where
  restores := transform_sequence_absent
  found := by
    intro c next nodes h hsettled
    obtain ⟨_, n, hrun, hn, rfl⟩ := transform_found_iff.1 h
    obtain ⟨_, c₁, _, c₂, _, hsign, hblanks, hinner, rfl⟩ :=
      sequenceFrom_triple_found_iff.1 hrun
    have hplain : ∀ ch ∈ comparison.sign.toList, ch ≠ nul ∧ ch ≠ Rune.replacement := by
      cases comparison <;> decide
    obtain ⟨hp₁, rfl⟩ := symbol_eq hplain hsign
    obtain ⟨s, hs, rfl, hp₂, -⟩ := optionalWhitespace_eq hblanks
    obtain ⟨right, w, rfl, hp₃, hright⟩ := expression_sound
      (settled_of_passes hsettled (hp₁.trans hp₂)) (required_found_iff.1 hinner)
    obtain ⟨-, -, rfl⟩ := Node.conditionRight_eq_ok_iff.1 hn
    exact ⟨comparison, s, w, right, hs, hright, rfl, hp₁.trans (hp₂.trans hp₃)⟩

theorem conditionRight_keeps : Keeps FindsCondition (conditionRight .american) :=
  Keeps.alternatives ⟨conditionOf_keeps _, conditionOf_keeps _, conditionOf_keeps _,
    conditionOf_keeps _, conditionOf_keeps _, conditionOf_keeps _⟩

theorem conditionOf_finds (hs : AllBlank s) (hright : Derives .expression right w) :
    (conditionOf .american comparison).Finds (EndsIn closingChars)
      [.parent (.conditionRight comparison) (conditionNodes comparison s right)]
      (conditionRunes comparison s w) := by
  have hcondition : conditionNodes comparison s right =
      .leaf (.symbol comparison.symbol) (.ofRunes (comparison.sign.toList.map .scalar)) ::
        ((blankTexts s).map (.leaf .whitespace) ++ [right]) := by
    rw [map_blankTexts, conditionNodes, symbolLeaf]
  have hbehind := (optionalWhitespace_finds hs).cons (expression_finds hright).required.single
    fun rest _ => (hright.starts (by simp)).clear_blank
  have hall := (symbolLeaf_finds comparison.symbol comparison.sign.toList fun _ => True).cons
    hbehind fun _ _ => trivial
  refine hall.sequence.transform (Node.conditionRight_eq_ok_iff.2 ⟨?_, ?_, rfl⟩)
  · exact congrArg List.length ((operandsOf_between ..).trans (operandsOf_cons hright.isNoise))
  · show Node.checkOperator _ _ _ (conditionNodes comparison s right) = .ok ()
    rw [hcondition]
    exact checkOperator_first hright.isNoise

/-- A sign is told apart from those that are not shorter by what an operand starts with. -/
theorem conditionOf_misses {other : Comparison} (h : StartsOperand w) (hne : other ≠ comparison)
    (hlength : comparison.sign.toList.length ≤ other.sign.toList.length) (F : List Rune → Prop) :
    (conditionOf .american other).Misses F (conditionRunes comparison [] w) := by
  obtain ⟨r, v, rfl, hr⟩ := h
  have hmarks : r.value ≠ '=' ∧ r.value ≠ '>' := by
    constructor <;> rintro heq <;> rw [heq] at hr <;> exact absurd hr (by decide)
  have hscalar (ch : Char) : (Rune.scalar ch).value = ch := rfl
  refine fun _ rest _ => transform_absent_iff.2 (sequence_absent (symbol_absent_iff.2 ⟨?_, rfl⟩))
  cases comparison <;> cases other <;>
    first
    | exact absurd rfl hne
    | exact absurd hlength (by decide)
    | simp [conditionRunes, Comparison.sign, Cursor.shows, hmarks, hscalar]

/-- The comparisons in the order in which their signs are looked for. -/
def comparisonOrder : List Comparison :=
  [.lessThanEquals, .greaterThanEquals, .notEquals, .lessThan, .greaterThan, .equals]

theorem conditionRight_eq (g : Grammar) :
    conditionRight g = alternatives (comparisonOrder.map (conditionOf g)) := rfl

/-- A condition without blanks is found again: the signs that are looked for first are not shorter
than its own. -/
theorem conditionRight_finds (comparison : Comparison) (hright : Derives .expression right w) :
    (conditionRight .american).Finds (EndsIn closingChars)
      [.parent (.conditionRight comparison) (conditionNodes comparison [] right)]
      (conditionRunes comparison [] w) := by
  have horder : comparisonOrder = comparisonOrder.takeWhile (· ≠ comparison) ++
      comparison :: (comparisonOrder.dropWhile (· ≠ comparison)).tail := by
    cases comparison <;> rfl
  have hlonger : ∀ other ∈ comparisonOrder.takeWhile (· ≠ comparison), other ≠ comparison ∧
      comparison.sign.toList.length ≤ other.sign.toList.length := by
    cases comparison <;> decide
  rw [conditionRight_eq, horder, List.map_append, List.map_cons]
  refine (conditionOf_finds allBlank_nil hright).behind (List.forall_iff_forall_mem.2 ?_)
  refine List.forall_mem_map.2 fun other hother => ?_
  obtain ⟨hne, hlength⟩ := hlonger other hother
  exact conditionOf_misses (hright.starts (by simp)) hne hlength _

end Rule

namespace Grammar

/-- The left operand and the condition, each parsed alone, combine to what is parsed from the two
texts one after the other. -/
theorem combineLeft_parsed (l r : Text) (left condition : Node)
    (hlength : l.runeCount + r.runeCount ≤ maxFormulaLength)
    (hl : american.parse .expression l = .ok left)
    (hr : american.parse .conditionRight r = .ok condition)
    (hright : ∀ right ∈ condition.operands, ¬ right.IsComparison) :
    ∃ n, condition.combineLeft (some left) = .ok n ∧
      american.parse .expression (l ++ r) = .ok n := by
  obtain ⟨c, hfound, hend⟩ := found_of_parse hl
  obtain ⟨_, u, hnodes, hu, hleft⟩ := Rule.expression_sound (Text.settled_runes l) hfound
  obtain ⟨rfl, -⟩ := List.cons.inj hnodes
  obtain ⟨c', hfound', hend'⟩ := found_of_parse hr
  obtain ⟨comparison, s, w, right, hs, hderives, hnodes, hw⟩ :=
    Rule.conditionRight_keeps.found hfound' (Text.settled_runes r)
  obtain ⟨rfl, -⟩ := List.cons.inj hnodes
  have hloose : ¬ right.IsComparison := hright right <| by
    rw [show (Node.parent (.conditionRight comparison) _).operands = [right] from ?_]
    · exact List.mem_singleton_self right
    · show Node.operandsOf (symbolLeaf _ _ :: (spaces s ++ [right])) = _
      rw [operandsOf_between, operandsOf_cons hderives.isNoise]
      rfl
  have hall := hleft.compare comparison hs hderives hloose
  have htext : (Node.parent (.binary (.comparison comparison))
      (left :: conditionNodes comparison s right)).text = l ++ r := by
    rw [Node.text_parent, Node.textOfAll_cons, (length_of_parse hl).2, ← (length_of_parse hr).2]
    rfl
  have hrunes : (l ++ r).runes = u ++ conditionRunes comparison s w := by
    rw [← htext]
    exact hall.written.runes
  have hlrunes : l.runes = u := hu.rest_of_end hend
  have hrrunes : r.runes = conditionRunes comparison s w := hw.rest_of_end hend'
  -- The texts one after the other are what the tree is written as, so it is read from them.
  have hread := Rule.expression_finds hall (p := 0) (endsIn_of_blanks allBlank_nil)
  rw [List.append_nil, ← hrunes] at hread
  refine ⟨_, Node.combineLeft_eq_ok hleft.isNoise hderives.isNoise,
    parse_eq_ok_of_found ?_ hread rfl⟩
  rwa [hrunes, List.length_append, ← hlrunes, ← hrrunes]

/-- A condition whose right operand is a sum, behind another comparison. -/
theorem combineLeft_parsed_sum : ∃ left condition n,
    american.parse .expression "2 * A1 > 3" = .ok left ∧
    american.parse .conditionRight "<= B1 + 10%" = .ok condition ∧
    condition.combineLeft (some left) = .ok n ∧
    american.parse .expression ("2 * A1 > 3" ++ "<= B1 + 10%") = .ok n := by
  obtain ⟨left, hleft, -⟩ := exists_ok_of_any
    (x := american.parse .expression "2 * A1 > 3") (p := fun _ => true) (by decide +kernel)
  obtain ⟨condition, hcondition, hright⟩ := exists_ok_of_any
    (x := american.parse .conditionRight "<= B1 + 10%")
    (p := fun n => n.operands.all fun m => decide (m.kind = .binary .addition)) (by decide +kernel)
  obtain ⟨n, hn⟩ := combineLeft_parsed _ _ left condition (by decide +kernel) hleft hcondition <| by
    rintro right hmem ⟨comparison, hkind⟩
    have haddition := of_decide_eq_true (List.all_eq_true.1 hright right hmem)
    rw [haddition] at hkind
    cases hkind
  exact ⟨left, condition, n, hleft, hcondition, hn⟩

end Grammar

end SheetFormula
