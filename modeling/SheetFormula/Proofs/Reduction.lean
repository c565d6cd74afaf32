import SheetFormula.Proofs.Folding
import SheetFormula.Proofs.Precedence

/-!
# Reduction is operator precedence

`Node.reduce` folds the leftmost of the tightest operators, round after round.  On a run of operands
joined by operators it gives the node of the tree of that run, `OperatorTree.ofRun`, provided that
every between symbol joins two cells of its own; all other lists but single nodes it refuses.
-/

namespace SheetFormula

/-! ### What reduces -/

/-- An operand is neither a symbol nor whitespace. -/
def Node.IsOperand (n : Node) : Prop :=
  (∀ s t, n ≠ .leaf (.symbol s) t) ∧ ∀ t, n ≠ .leaf .whitespace t

/-- A leaf with the symbol of an operator. -/
def Node.IsOperator (n : Node) : Prop := ∃ s t, n = .leaf (.symbol s) t ∧ s.IsOperator

/-- A node that refers to a cell. -/
def Node.IsCell (n : Node) : Prop := ∃ reference children, n = .parent (.cell reference) children

/-- Operands joined by operators. -/
structure IsRun (head : Node) (links : Links Node) : Prop where
  head : head.IsOperand
  operands : ∀ l ∈ links, l.2.IsOperand
  operators : ∀ l ∈ links, l.1.symbol.IsOperator

/-- Every between symbol of a run joins two cells, neither of which touches another one. -/
def RangesJoinCells (left : Node) : Links Node → Prop
  | [] => True
  | (j, right) :: rest =>
    (j.symbol = .between →
      left.IsCell ∧ right.IsCell ∧ ∀ next ∈ rest.head?, next.1.symbol ≠ .between) ∧
    RangesJoinCells right rest

/-- The lists that reduce to a tree: a single node that is no operator, and the runs whose ranges
join cells. -/
def IsReducible (nodes : List Node) : Prop :=
  (∃ n, nodes = [n] ∧ ¬ n.IsOperator) ∨
    ∃ head links, IsRun head links ∧ RangesJoinCells head links ∧ nodes = runOf head links

theorem isRun_cons_iff {head right : Node} {j : Joint} {links : Links Node} :
    IsRun head ((j, right) :: links) ↔
      head.IsOperand ∧ j.symbol.IsOperator ∧ IsRun right links := by
  refine ⟨fun h => ?_, fun ⟨hhead, hj, hrun⟩ => ⟨hhead, ?_, ?_⟩⟩
  · obtain ⟨hright, hoperands⟩ := List.forall_mem_cons.1 h.operands
    obtain ⟨hj, hoperators⟩ := List.forall_mem_cons.1 h.operators
    exact ⟨h.head, hj, hright, hoperands, hoperators⟩
  · exact List.forall_mem_cons.2 ⟨hrun.head, hrun.operands⟩
  · exact List.forall_mem_cons.2 ⟨hj, hrun.operators⟩

/-- A run is a run on either side of each of its operators. -/
theorem isRun_append_iff {head : Node} {front back : Links Node} {root : Joint × Node} :
    IsRun head (front ++ root :: back) ↔
      IsRun head front ∧ root.1.symbol.IsOperator ∧ IsRun root.2 back := by
  induction front generalizing head with
  | nil =>
    rw [List.nil_append, isRun_cons_iff]
    exact and_congr_left fun _ => ⟨fun h => ⟨h, by simp, by simp⟩, IsRun.head⟩
  | cons link front ih => rw [List.cons_append, isRun_cons_iff, isRun_cons_iff, ih]; tauto

namespace Node

variable {head left right n : Node} {links : Links Node} {nodes : List Node} {j : Joint} {p : Nat}

/-! ### Operands -/

theorem isNoise_whitespace (t : Text) : (leaf .whitespace t).isNoise = true := rfl

theorem isNoise_symbol (s : Symbol) (t : Text) : (leaf (.symbol s) t).isNoise = true := rfl

theorem isWhitespace_eq_false (h : n.isNoise = false) : n.isWhitespace = false := by
  simp only [isWhitespace, decide_eq_false_iff_not]
  intro hkind
  rw [isNoise, hkind] at h
  cases h

theorem isOperand_iff : n.IsOperand ↔ n.isNoise = false := by
  constructor
  · rintro ⟨hsymbol, hspace⟩
    cases n with
    | parent form children => cases form <;> rfl
    | leaf content text =>
      cases content <;> first | rfl | exact absurd rfl (hsymbol _ _) | exact absurd rfl (hspace _)
  · intro h
    refine ⟨fun s t hn => ?_, fun t hn => ?_⟩
    · rw [hn, isNoise_symbol] at h
      cases h
    · rw [hn, isNoise_whitespace] at h
      cases h

theorem IsOperand.isNoise (h : n.IsOperand) : n.isNoise = false := isOperand_iff.1 h

/-! ### The priority numbers -/

/-- The priority number of a symbol is the number of its line in the table of operators, and 0 when
it stands in none. -/
theorem priority_symbol (s : Symbol) (t : Text) :
    (leaf (.symbol s) t).priority = if s.IsOperator then s.looseness else 0 := by
  cases s <;> rfl

theorem priority_joint (h : j.symbol.IsOperator) :
    (leaf (.symbol j.symbol) j.text).priority = j.looseness := by
  rw [priority_symbol, if_pos h]
  rfl

/-- A node has a priority number when it is an operator. -/
theorem priority_eq_zero_iff : n.priority = 0 ↔ ¬ n.IsOperator := by
  cases n with
  | parent form children => exact iff_of_true rfl fun ⟨_, _, hn, _⟩ => by cases hn
  | leaf content text =>
    cases content with
    | symbol s =>
      rw [priority_symbol]
      constructor
      · rintro h ⟨_, _, hn, hs⟩
        cases hn
        rw [if_pos hs] at h
        cases h
      · intro h
        rw [if_neg fun hs => h ⟨s, text, rfl, hs⟩]
    | _ => exact iff_of_true rfl fun ⟨_, _, hn, _⟩ => by cases hn

theorem IsOperand.not_isOperator (h : n.IsOperand) : ¬ n.IsOperator :=
  fun ⟨s, t, hn, _⟩ => h.1 s t hn

theorem IsOperand.priority_eq_zero (h : n.IsOperand) : n.priority = 0 :=
  priority_eq_zero_iff.2 h.not_isOperator

/-! ### Folding one operator -/

/-- The operands around a joint are all operands there are. -/
theorem operandsOf_joint :
    operandsOf (left :: (j.nodes ++ [right])) = operandsOf [left, right] := by
  have hspace (ts : List Text) : operandsOf (ts.map (leaf .whitespace)) = [] := by
    simp [operandsOf, isNoise_whitespace]
  have hnodes : operandsOf j.nodes = [] := by
    rw [Joint.nodes, operandsOf_append, hspace, List.nil_append]
    simp [operandsOf, isNoise_whitespace, isNoise_symbol]
  have hcons (ns : List Node) : left :: ns = [left] ++ ns := rfl
  rw [hcons (j.nodes ++ [right]), hcons [right], operandsOf_append, operandsOf_append,
    operandsOf_append, hnodes]
  rfl

theorem length_operandsOf_pair :
    (operandsOf [left, right]).length = 2 ↔ left.isNoise = false ∧ right.isNoise = false := by
  cases hleft : left.isNoise <;> cases hright : right.isNoise <;>
    simp [operandsOf, hleft, hright]

theorem checkSymbol_operand {kind : Kind} {s : Symbol} {place index symbols : Nat}
    (h : n.isNoise = false) :
    checkSymbol kind s place (index, symbols) n = .ok (index + 1, symbols) := by
  cases n with
  | parent form children => rfl
  | leaf content text => cases content <;> first | rfl | cases h

theorem checkOperator_joint {kind : Kind} (hleft : left.isNoise = false)
    (hright : right.isNoise = false) :
    checkOperator kind j.symbol 1 (left :: (j.nodes ++ [right])) = .ok () := by
  have hspace (ts : List Text) : (ts.map (leaf .whitespace)).filter (!·.isWhitespace) = [] := by
    simp [isWhitespace, Node.kind, Content.kind]
  have hsymbol : (leaf (.symbol j.symbol) j.text).isWhitespace = false := rfl
  have hfilter : (left :: (j.nodes ++ [right])).filter (!·.isWhitespace) =
      [left, leaf (.symbol j.symbol) j.text, right] := by
    rw [Joint.nodes, List.filter_cons, List.filter_append, List.filter_append, List.filter_cons,
      hspace, hspace]
    simp [isWhitespace_eq_false hleft, isWhitespace_eq_false hright, hsymbol]
  have hjoint : checkSymbol kind j.symbol 1 (1, 0) (leaf (.symbol j.symbol) j.text) =
      .ok (2, 1) := by
    simp [checkSymbol]
  rw [checkOperator, hfilter, List.foldlM_cons, checkSymbol_operand hleft]
  show (checkSymbol kind j.symbol 1 (1, 0) _ >>= _) >>= _ = _
  rw [hjoint]
  show (checkSymbol kind j.symbol 1 (2, 1) right >>= _) >>= _ = _
  rw [checkSymbol_operand hright]
  rfl

theorem Operator.symbol_of_ofSymbol? {s : Symbol} {op : Operator}
    (h : Operator.ofSymbol? s = some op) :
    op.symbol = s := by
  simpa using List.find?_some h

/-- An operator folds with two operands exactly when the tree has a node for it. -/
theorem fold_joint_eq_ok_iff (hleft : left.isNoise = false) (hright : right.isNoise = false) :
    fold (.symbol j.symbol) (left :: (j.nodes ++ [right])) = .ok n ↔
      j.join? left right = some n := by
  have hoperands : operandsOf (left :: (j.nodes ++ [right])) = [left, right] := by
    rw [operandsOf_joint]
    simp [operandsOf, hleft, hright]
  -- A range is built by a constructor of its own, which looks at the cells and not at the operator.
  by_cases hs : j.symbol = .between
  · rw [Joint.join?_between_eq_some_iff hs, hs]
    show cellRange _ = .ok n ↔ _
    rw [cellRange_eq_ok_iff, hoperands]
    have hbetween : ∃ child ∈ left :: (j.nodes ++ [right]), child.kind = .symbol .between :=
      ⟨.leaf (.symbol j.symbol) j.text, by simp [Joint.nodes], by rw [hs]; rfl⟩
    constructor
    · rintro ⟨first, ns, last, ms, hcells, -, rfl⟩
      cases hcells
      exact ⟨first, ns, last, ms, rfl, rfl, rfl⟩
    · rintro ⟨first, ns, last, ms, rfl, rfl, rfl⟩
      exact ⟨first, ns, last, ms, rfl, hbetween, rfl⟩
  · rw [Joint.join?_operator hs]
    cases hop : Operator.ofSymbol? j.symbol with
    | none => simp [fold, hop]
    | some op =>
      have hfold : fold (.symbol j.symbol) (left :: (j.nodes ++ [right])) =
          binary (.binary op) (left :: (j.nodes ++ [right])) := by
        simp [fold, hop]
      rw [hfold, binary_eq_ok_iff, hoperands, Operator.symbol_of_ofSymbol? hop,
        checkOperator_joint hleft hright]
      simp [eq_comm]

/-! ### One round on a run -/

theorem foldFirst_append {before front rest : List Node} (h : ∀ m ∈ front, m.priority ≠ p) :
    foldFirst p before (front ++ rest) = foldFirst p (front.reverse ++ before) rest := by
  induction front generalizing before with
  | nil => rfl
  | cons m front ih =>
    simp only [List.forall_mem_cons] at h
    rw [List.cons_append, foldFirst, if_neg h.1, ih h.2]
    simp

theorem foldAround_joint {before after : List Node} (hleft : left.isNoise = false)
    (hright : right.isNoise = false) :
    foldAround ((j.before.map (leaf .whitespace)).reverse ++ left :: before)
        (leaf (.symbol j.symbol) j.text) (j.after.map (leaf .whitespace) ++ right :: after) = (do
      let folded ← fold (.symbol j.symbol) (left :: (j.nodes ++ [right]))
      return before.reverse ++ folded :: after) := by
  have hspace (ts : List Text) : ∀ m ∈ ts.map (leaf .whitespace), m.isWhitespace = true := by
    simp [isWhitespace, Node.kind, Content.kind]
  have hbefore : ∀ m ∈ (j.before.map (leaf .whitespace)).reverse, m.isWhitespace = true :=
    fun m hm => hspace j.before m (List.mem_reverse.1 hm)
  have hleft' := isWhitespace_eq_false hleft
  have hright' := isWhitespace_eq_false hright
  unfold foldAround
  rw [List.dropWhile_append_of_pos hbefore, List.takeWhile_append_of_pos hbefore,
    List.dropWhile_append_of_pos (hspace _), List.takeWhile_append_of_pos (hspace _)]
  simp [hleft', hright', Joint.nodes, Node.kind, Content.kind]

theorem priority_whitespace (ts : List Text) (hp : p ≠ 0) :
    ∀ m ∈ ts.map (leaf .whitespace), m.priority ≠ p := by
  simp [priority, hp.symm]

/-- A round on a run joins the first operator of the priority. -/
theorem foldFirst_run_eq_ok_iff (hrun : IsRun head links) (hp : p ≠ 0) (before : List Node) :
    foldFirst p before (runOf head links) = .ok nodes ↔
      ∃ run, OperatorTree.joinFirst? p head links = some run ∧
        nodes = before.reverse ++ runOf run.1 run.2 := by
  have hhead : head.priority ≠ p := by
    rw [hrun.head.priority_eq_zero]
    exact hp.symm
  induction links generalizing head before with
  | nil => simp [runOf, foldFirst, hhead, OperatorTree.joinFirst?, eq_comm]
  | cons link rest ih =>
    obtain ⟨j, right⟩ := link
    obtain ⟨hleft, hoperator, hrest⟩ := isRun_cons_iff.1 hrun
    have hpriority := priority_joint hoperator
    have hnodes : runOf head ((j, right) :: rest) =
        (head :: j.before.map (leaf .whitespace)) ++ leaf (.symbol j.symbol) j.text ::
          (j.after.map (leaf .whitespace) ++ runOf right rest) := by
      simp [runOf, Joint.nodes]
    have hfront : ∀ m ∈ head :: j.before.map (leaf .whitespace), m.priority ≠ p :=
      List.forall_mem_cons.2 ⟨hhead, priority_whitespace _ hp⟩
    have hbefore : (head :: j.before.map (leaf .whitespace)).reverse ++ before =
        (j.before.map (leaf .whitespace)).reverse ++ head :: before := by
      simp
    rw [hnodes, foldFirst_append hfront, foldFirst, hbefore]
    by_cases hj : j.looseness = p
    · -- The round ends here: the operator is folded, and the rest of the run stays.
      rw [if_pos (hpriority.trans hj), runOf, foldAround_joint hleft.isNoise hrest.head.isNoise,
        bind_eq_ok_iff]
      simp only [fold_joint_eq_ok_iff hleft.isNoise hrest.head.isNoise, OperatorTree.joinFirst?,
        if_pos hj]
      constructor
      · rintro ⟨folded, hfolded, hresult⟩
        cases hresult
        exact ⟨(folded, rest), by simp [hfolded], rfl⟩
      · rintro ⟨run, hjoin, rfl⟩
        obtain ⟨folded, hfolded, rfl⟩ := Option.map_eq_some_iff.1 hjoin
        exact ⟨folded, hfolded, rfl⟩
    · -- The round passes the operator, which is then in front of what the round still makes.
      have hright : right.priority ≠ p := by
        rw [hrest.head.priority_eq_zero]
        exact hp.symm
      rw [if_neg (hpriority.trans_ne hj), foldFirst_append (priority_whitespace _ hp)]
      refine (ih hrest _ hright).trans ?_
      simp only [OperatorTree.joinFirst?, if_neg hj]
      constructor
      · rintro ⟨run, hjoin, rfl⟩
        exact ⟨(head, (j, run.1) :: run.2), by simp [hjoin], by simp [runOf, Joint.nodes]⟩
      · rintro ⟨run, hjoin, rfl⟩
        obtain ⟨run', hrun', rfl⟩ := Option.map_eq_some_iff.1 hjoin
        exact ⟨run', hrun', by simp [runOf, Joint.nodes]⟩

theorem isOperand_join? (h : j.join? left right = some n) : n.IsOperand := by
  by_cases hs : j.symbol = .between
  · obtain ⟨first, ns, last, ms, -, -, rfl⟩ := (Joint.join?_between_eq_some_iff hs).1 h
    exact isOperand_iff.2 rfl
  · rw [Joint.join?_operator hs] at h
    obtain ⟨op, -, rfl⟩ := Option.map_eq_some_iff.1 h
    exact isOperand_iff.2 rfl

/-- What is joined in a round is a shorter run. -/
theorem isRun_joinFirst? {run : Node × Links Node} (hrun : IsRun head links)
    (h : OperatorTree.joinFirst? p head links = some run) :
    IsRun run.1 run.2 ∧ ((∃ l ∈ links, l.1.looseness = p) → run.2.length < links.length) := by
  induction links generalizing head run with
  | nil =>
    cases h
    exact ⟨hrun, by simp⟩
  | cons link rest ih =>
    obtain ⟨j, right⟩ := link
    obtain ⟨hleft, hoperator, hrest⟩ := isRun_cons_iff.1 hrun
    simp only [OperatorTree.joinFirst?] at h
    split_ifs at h with hlooseness
    · obtain ⟨folded, hfolded, rfl⟩ := Option.map_eq_some_iff.1 h
      exact ⟨⟨isOperand_join? hfolded, hrest.operands, hrest.operators⟩, by simp⟩
    · obtain ⟨run', hrun', rfl⟩ := Option.map_eq_some_iff.1 h
      obtain ⟨hisRun, hshorter⟩ := ih hrest hrun'
      refine ⟨isRun_cons_iff.2 ⟨hleft, hoperator, hisRun⟩, fun hmem => ?_⟩
      have hmore : ∃ l ∈ rest, l.1.looseness = p := by simpa [hlooseness] using hmem
      simpa using hshorter hmore

/-! ### The priority of a round -/

/-- The lowest priority is 0 when there is no operator, and else the least one of an operator. -/
theorem lowestPriority_spec (nodes : List Node) :
    (lowestPriority nodes = 0 ∧ ∀ m ∈ nodes, m.priority = 0) ∨
      lowestPriority nodes ≠ 0 ∧ (∃ m ∈ nodes, m.priority = lowestPriority nodes) ∧
        ∀ m ∈ nodes, m.priority ≠ 0 → lowestPriority nodes ≤ m.priority := by
  -- The same of the list read so far, from its last node on.
  have hreverse (m : Node) : m ∈ nodes ↔ m ∈ nodes.reverse := List.mem_reverse.symm
  simp only [lowestPriority, ← List.foldr_reverse, hreverse]
  generalize nodes.reverse = ns
  induction ns with
  | nil => simp
  | cons m ns ih =>
    simp only [List.foldr_cons]
    split_ifs with hm
    · right
      refine ⟨hm.1, ⟨m, List.mem_cons_self .., rfl⟩, fun m' hm' hne => ?_⟩
      rcases List.mem_cons.1 hm' with rfl | hm'
      · exact Nat.le_refl _
      · rcases ih with ⟨-, hzero⟩ | ⟨hlowest, -, hleast⟩
        · exact absurd (hzero m' hm') hne
        · have hlt := hm.2.resolve_left hlowest
          exact Nat.le_trans (Nat.le_of_lt hlt) (hleast m' hm' hne)
    · rcases ih with ⟨hlowest, hzero⟩ | ⟨hlowest, ⟨m', hm', heq⟩, hleast⟩
      · left
        refine ⟨hlowest, List.forall_mem_cons.2 ⟨?_, hzero⟩⟩
        by_contra hne
        exact hm ⟨hne, .inl hlowest⟩
      · right
        refine ⟨hlowest, ⟨m', List.mem_cons_of_mem m hm', heq⟩, ?_⟩
        refine List.forall_mem_cons.2 ⟨fun hne => ?_, hleast⟩
        exact Nat.le_of_not_lt fun hlt => hm ⟨hne, .inr hlt⟩

theorem mem_runOf {m : Node} (h : m ∈ runOf head links) :
    m = head ∨ (∃ l ∈ links, m = l.2 ∨ m = leaf (.symbol l.1.symbol) l.1.text) ∨
      ∃ t, m = leaf .whitespace t := by
  rcases List.mem_cons.1 h with rfl | h
  · exact .inl rfl
  obtain ⟨l, hl, hm⟩ := List.mem_flatMap.1 h
  simp only [Joint.nodes, List.mem_append, List.mem_cons, List.mem_map, List.not_mem_nil,
    or_false] at hm
  rcases hm with (⟨t, -, rfl⟩ | rfl | ⟨t, -, rfl⟩) | rfl
  · exact .inr (.inr ⟨t, rfl⟩)
  · exact .inr (.inl ⟨l, hl, .inr rfl⟩)
  · exact .inr (.inr ⟨t, rfl⟩)
  · exact .inr (.inl ⟨l, hl, .inl rfl⟩)

theorem symbol_mem_runOf {l : Joint × Node} (h : l ∈ links) :
    leaf (.symbol l.1.symbol) l.1.text ∈ runOf head links := by
  refine List.mem_cons_of_mem _ (List.mem_flatMap.2 ⟨l, h, ?_⟩)
  simp [Joint.nodes]

/-- The operators of a run are those of its links. -/
theorem exists_link_of_priority (hrun : IsRun head links) {m : Node} (h : m ∈ runOf head links)
    (hm : m.priority ≠ 0) : ∃ l ∈ links, l.1.looseness = m.priority := by
  rcases mem_runOf h with rfl | ⟨l, hl, rfl | rfl⟩ | ⟨t, rfl⟩
  · exact absurd hrun.head.priority_eq_zero hm
  · exact absurd (hrun.operands l hl).priority_eq_zero hm
  · exact ⟨l, hl, (priority_joint (hrun.operators l hl)).symm⟩
  · exact absurd rfl hm

/-! ### All rounds on a run -/

theorem reduceIn_of_lowest_zero {fuel : Nat} (h : lowestPriority nodes = 0) :
    reduceIn (fuel + 1) nodes = .ok n ↔ nodes = [n] := by
  unfold reduceIn
  split
  · split
    · simp
    · rename_i hne
      exact iff_of_false (by simp) (hne n)
  · exact absurd h ‹_›

theorem reduceIn_of_lowest_ne_zero {fuel : Nat} (h : lowestPriority nodes ≠ 0) :
    reduceIn (fuel + 1) nodes = foldFirst (lowestPriority nodes) [] nodes >>= reduceIn fuel := by
  unfold reduceIn
  split
  · exact absurd ‹_› h
  · rfl

/-- A run reduces to the node of its tree. -/
theorem reduceIn_run_eq_ok_iff {fuel : Nat} (hrun : IsRun head links)
    (hfuel : links.length < fuel) :
    reduceIn fuel (runOf head links) = .ok n ↔ (OperatorTree.ofRun head links).node? = some n := by
  induction fuel generalizing head links with
  | zero => exact absurd hfuel (Nat.not_lt_zero _)
  | succ fuel ih =>
    rcases lowestPriority_spec (runOf head links) with ⟨hlowest, hzero⟩ | ⟨hlowest, hfirst, hleast⟩
    · -- No operator is left.
      have hlinks : links = [] := List.eq_nil_iff_forall_not_mem.2 fun l hl =>
        priority_eq_zero_iff.1 (hzero _ (symbol_mem_runOf hl)) ⟨_, _, rfl, hrun.operators l hl⟩
      subst hlinks
      rw [reduceIn_of_lowest_zero hlowest]
      simp [runOf, OperatorTree.node?]
    · obtain ⟨m, hm, hpriority⟩ := hfirst
      obtain ⟨l, hl, hlooseness⟩ := exists_link_of_priority hrun hm (hpriority ▸ hlowest)
      have hp : ∀ l ∈ links, lowestPriority (runOf head links) ≤ l.1.looseness := by
        intro l hl
        have hpriority := priority_joint (hrun.operators l hl)
        rw [← hpriority]
        exact hleast _ (symbol_mem_runOf hl) (hpriority.trans_ne (Nat.succ_ne_zero _))
      rw [reduceIn_of_lowest_ne_zero hlowest, bind_eq_ok_iff, OperatorTree.node?_ofRun_eq_bind hp,
        Option.bind_eq_some_iff]
      constructor
      · rintro ⟨nodes, hnodes, hreduce⟩
        obtain ⟨run, hjoin, rfl⟩ := (foldFirst_run_eq_ok_iff hrun hlowest []).1 hnodes
        obtain ⟨hisRun, hshorter⟩ := isRun_joinFirst? hrun hjoin
        have hlength := hshorter ⟨l, hl, hlooseness.trans hpriority⟩
        exact ⟨run, hjoin, (ih hisRun (by omega)).1 hreduce⟩
      · rintro ⟨run, hjoin, hnode⟩
        obtain ⟨hisRun, hshorter⟩ := isRun_joinFirst? hrun hjoin
        have hlength := hshorter ⟨l, hl, hlooseness.trans hpriority⟩
        exact ⟨_, (foldFirst_run_eq_ok_iff hrun hlowest []).2 ⟨run, hjoin, rfl⟩,
          (ih hisRun (by omega)).2 hnode⟩

theorem length_links_lt (head : Node) (links : Links Node) :
    links.length < (runOf head links).length + 1 := by
  induction links generalizing head with
  | nil => simp
  | cons link rest ih =>
    have := ih head
    simp only [runOf, List.flatMap_cons, List.length_cons, List.length_append] at this ⊢
    omega

theorem reduce_run_eq_ok_iff (hrun : IsRun head links) :
    reduce (runOf head links) = .ok n ↔ (OperatorTree.ofRun head links).node? = some n :=
  reduceIn_run_eq_ok_iff hrun (length_links_lt head links)

/-! ### Only runs reduce -/

theorem runOf_cons : runOf head ((j, right) :: links) = head :: (j.nodes ++ runOf right links) := by
  simp [runOf]

theorem isNoise_of_mem_joint {m : Node} (h : m ∈ j.nodes) : m.isNoise = true := by
  simp only [Joint.nodes, List.mem_append, List.mem_cons, List.mem_map] at h
  rcases h with ⟨t, -, rfl⟩ | rfl | ⟨t, -, rfl⟩ <;> rfl

/-- Where an operand stands in a run: in front, or behind one of the operators. -/
theorem runOf_eq_append {m : Node} {before after : List Node} (hm : m.isNoise = false)
    (h : runOf head links = before ++ m :: after) :
    (before = [] ∧ runOf head links = m :: after ∧ m = head) ∨
      ∃ front j back, links = front ++ (j, m) :: back ∧
        before = runOf head front ++ j.nodes ∧ runOf m back = m :: after := by
  induction links generalizing head before with
  | nil =>
    rcases before with _ | ⟨b, before⟩
    · exact .inl ⟨rfl, h, (List.cons.inj h).1.symm⟩
    · simp [runOf] at h
  | cons link rest ih =>
    obtain ⟨j, right⟩ := link
    rcases before with _ | ⟨b, before⟩
    · exact .inl ⟨rfl, h, (List.cons.inj h).1.symm⟩
    right
    rw [runOf_cons, List.cons_append] at h
    obtain ⟨rfl, htail⟩ := List.cons.inj h
    have hbehind : ∃ more, before = j.nodes ++ more ∧ runOf right rest = more ++ m :: after := by
      rcases List.append_eq_append_iff.1 htail with ⟨more, hbefore, hrest⟩ | ⟨more, hnodes, hrest⟩
      · exact ⟨more, hbefore, hrest⟩
      · rcases more with _ | ⟨x, more⟩
        · exact ⟨[], by simpa using hnodes.symm, by simpa using hrest.symm⟩
        · -- The operand would be a part of the joint.
          obtain ⟨rfl, -⟩ := List.cons.inj hrest
          have hnoise := isNoise_of_mem_joint (j := j) (m := m) (by simp [hnodes])
          rw [hm] at hnoise
          cases hnoise
    obtain ⟨more, rfl, hrest⟩ := hbehind
    rcases ih hrest with ⟨rfl, hhead, rfl⟩ | ⟨front, j', back, rfl, rfl, hback⟩
    · exact ⟨[], j, rest, rfl, by simp [runOf], hhead⟩
    · exact ⟨(j, right) :: front, j', back, rfl, by simp [runOf_cons], hback⟩

theorem exists_whitespace_texts {ws : List Node} (h : ∀ w ∈ ws, w.isWhitespace = true) :
    ∃ ts : List Text, ws = ts.map (leaf .whitespace) := by
  induction ws with
  | nil => exact ⟨[], rfl⟩
  | cons w ws ih =>
    obtain ⟨hw, hws⟩ := List.forall_mem_cons.1 h
    obtain ⟨ts, rfl⟩ := ih hws
    cases w with
    | parent form children => cases form <;> cases hw
    | leaf content text => cases content <;> first | exact ⟨text :: ts, rfl⟩ | cases hw

theorem length_operandsOf_fold {kind : Kind} {span : List Node} (h : fold kind span = .ok n) :
    (operandsOf span).length = 2 ∧ n.isNoise = false := by
  unfold fold at h
  split at h
  · obtain ⟨first, ns, last, ms, hoperands, -, rfl⟩ := cellRange_eq_ok_iff.1 h
    exact ⟨by rw [hoperands]; rfl, rfl⟩
  · split at h
    · obtain ⟨hlength, -, rfl⟩ := binary_eq_ok_iff.1 h
      exact ⟨hlength, rfl⟩
    · cases h
  · cases h

/-- A round that succeeds folds a joint with the operands around it into an operand. -/
theorem foldFirst_eq_ok_joint {before : List Node} {result : List Node} (hp : p ≠ 0)
    (hmem : ∃ m ∈ nodes, m.priority = p) (h : foldFirst p before nodes = .ok result) :
    ∃ (outer : List Node) (left : Node) (j : Joint) (right : Node) (rest : List Node)
        (folded : Node),
      before.reverse ++ nodes = outer ++ left :: (j.nodes ++ right :: rest) ∧
      result = outer ++ folded :: rest ∧
      j.symbol.IsOperator ∧ left.IsOperand ∧ right.IsOperand ∧ folded.IsOperand := by
  induction nodes generalizing before with
  | nil => simp at hmem
  | cons m nodes ih =>
    rw [foldFirst] at h
    split_ifs at h with hm
    · obtain ⟨outerBefore, left, spaceBefore, spaceAfter, right, outerAfter, rfl, rfl, hbefore, -,
        hafter, -, folded, hfolded, rfl⟩ := foldAround_eq_ok h
      obtain ⟨s, t, rfl, hs⟩ := not_not.1 (priority_eq_zero_iff.not.1 (hm ▸ hp : m.priority ≠ 0))
      obtain ⟨before', hbefore'⟩ := exists_whitespace_texts
        (fun w hw => hbefore w (List.mem_reverse.1 hw) : ∀ w ∈ spaceBefore.reverse, _)
      obtain ⟨after', rfl⟩ := exists_whitespace_texts hafter
      have hspan : left :: spaceBefore.reverse ++ leaf (.symbol s) t ::
          (after'.map (leaf .whitespace) ++ [right]) =
          left :: ((Joint.mk before' s t after').nodes ++ [right]) := by
        simp [Joint.nodes, hbefore']
      -- Whatever is folded has two operands in it, and these are the ends of the span.
      obtain ⟨hlength, hnoise⟩ := length_operandsOf_fold hfolded
      rw [hspan, operandsOf_joint] at hlength
      obtain ⟨hleft, hright⟩ := length_operandsOf_pair.1 hlength
      exact ⟨outerBefore.reverse, left, ⟨before', s, t, after'⟩, right, outerAfter, folded,
        by simp [Joint.nodes, hbefore'], rfl, hs,
        isOperand_iff.2 hleft, isOperand_iff.2 hright, isOperand_iff.2 hnoise⟩
    · have hmore : ∃ m ∈ nodes, m.priority = p := by simpa [hm] using hmem
      simpa using ih hmore h

/-- What reduces is a single node or a run. -/
theorem isRun_of_reduceIn {fuel : Nat} (h : reduceIn fuel nodes = .ok n) :
    (nodes = [n] ∧ ¬ n.IsOperator) ∨ ∃ head links, IsRun head links ∧ nodes = runOf head links := by
  induction fuel generalizing nodes with
  | zero => cases h
  | succ fuel ih =>
    rcases lowestPriority_spec nodes with ⟨hlowest, hzero⟩ | ⟨hlowest, hfirst, -⟩
    · have hnodes := (reduceIn_of_lowest_zero hlowest).1 h
      exact .inl ⟨hnodes, priority_eq_zero_iff.1 (hzero n (by simp [hnodes]))⟩
    right
    rw [reduceIn_of_lowest_ne_zero hlowest] at h
    obtain ⟨result, hround, hresult⟩ := bind_eq_ok_iff.1 h
    obtain ⟨outer, left, j, right, rest, folded, hnodes, rfl, hj, hleft, hright, hfolded⟩ :=
      foldFirst_eq_ok_joint hlowest hfirst hround
    rw [List.reverse_nil, List.nil_append] at hnodes
    subst hnodes
    rcases ih hresult with ⟨hsingle, -⟩ | ⟨head, links, hrun, hlinks⟩
    · -- Nothing stood around what was folded.
      obtain ⟨rfl, rfl⟩ : outer = [] ∧ rest = [] := by
        rcases outer with _ | ⟨x, outer⟩
        · exact ⟨rfl, (List.cons.inj hsingle).2⟩
        · simp at hsingle
      exact ⟨left, [(j, right)], ⟨hleft, by simp [hright], by simp [hj]⟩, by simp [runOf]⟩
    · -- The folded operand is taken apart where it stands in the shorter run.
      rcases runOf_eq_append hfolded.isNoise hlinks.symm with
        ⟨rfl, hhead, rfl⟩ | ⟨front, j', back, rfl, rfl, hback⟩
      · have hrest : rest = links.flatMap fun l => l.1.nodes ++ [l.2] :=
          (List.cons.inj hhead).2.symm
        have hrun' : IsRun left ((j, right) :: links) :=
          isRun_cons_iff.2 ⟨hleft, hj, hright, hrun.operands, hrun.operators⟩
        exact ⟨left, _, hrun', by simp [runOf, hrest]⟩
      · have hrest : rest = back.flatMap fun l => l.1.nodes ++ [l.2] := (List.cons.inj hback).2.symm
        obtain ⟨hfront, hj', hrunBack⟩ := isRun_append_iff.1 hrun
        have hrun' : IsRun head (front ++ (j', left) :: (j, right) :: back) :=
          isRun_append_iff.2 ⟨hfront, hj', isRun_cons_iff.2
            ⟨hleft, hj, hright, hrunBack.operands, hrunBack.operators⟩⟩
        exact ⟨head, _, hrun', by simp [runOf, hrest]⟩

/-! ### Ranges -/

/-- No operator is as tight as that of ranges. -/
theorem eq_between_of_looseness {s : Symbol} (h : s.looseness ≤ Symbol.looseness .between) :
    s = .between := by
  revert h
  cases s <;> decide

theorem isSome_ofSymbol? {s : Symbol} (h : s.IsOperator) (hs : s ≠ .between) :
    (Operator.ofSymbol? s).isSome = true := by
  revert h hs
  cases s <;> decide

theorem rangesJoinCells_append {front back : Links Node} {root : Joint × Node}
    (hroot : root.1.symbol ≠ .between) :
    RangesJoinCells head (front ++ root :: back) ↔
      RangesJoinCells head front ∧ RangesJoinCells root.2 back := by
  induction front generalizing head with
  | nil => simp [RangesJoinCells, hroot]
  | cons link front ih =>
    obtain ⟨j, right⟩ := link
    have hnext : (∀ next ∈ (front ++ root :: back).head?, next.1.symbol ≠ .between) ↔
        ∀ next ∈ front.head?, next.1.symbol ≠ .between := by
      cases front with
      | nil => simp [hroot]
      | cons next front => simp
    simp only [List.cons_append, RangesJoinCells, hnext, ih]
    tauto

/-- The node of an operator is no cell. -/
theorem not_isCell_join? (h : j.join? left right = some n) : ¬ n.IsCell := by
  by_cases hs : j.symbol = .between
  · obtain ⟨first, ns, last, ms, -, -, rfl⟩ := (Joint.join?_between_eq_some_iff hs).1 h
    rintro ⟨_, _, hn⟩
    cases hn
  · rw [Joint.join?_operator hs] at h
    obtain ⟨op, -, rfl⟩ := Option.map_eq_some_iff.1 h
    rintro ⟨_, _, hn⟩
    cases hn

theorem join?_isSome_between (hs : j.symbol = .between) :
    (j.join? left right).isSome = true ↔ left.IsCell ∧ right.IsCell := by
  rw [Option.isSome_iff_exists]
  simp only [Joint.join?_between_eq_some_iff hs]
  constructor
  · rintro ⟨n, first, ns, last, ms, hleft, hright, -⟩
    exact ⟨⟨first, ns, hleft⟩, ⟨last, ms, hright⟩⟩
  · rintro ⟨⟨first, ns, hleft⟩, ⟨last, ms, hright⟩⟩
    exact ⟨_, first, ns, last, ms, hleft, hright, rfl⟩

/-- The node of a run with operators joins two nodes. -/
theorem exists_join?_of_node?_ofRun (hlinks : links ≠ [])
    (h : (OperatorTree.ofRun head links).node? = some n) :
    ∃ joint left right, Joint.join? joint left right = some n := by
  cases hsplit : links.splitLoosest with
  | none => exact absurd (Links.splitLoosest_eq_none_iff.1 hsplit) hlinks
  | some parts =>
    obtain ⟨front, root, back⟩ := parts
    obtain ⟨rfl, hfront, hback⟩ := Links.splitLoosest_eq_some hsplit
    rw [OperatorTree.ofRun_append root hfront hback] at h
    obtain ⟨left, -, h⟩ := Option.bind_eq_some_iff.1 h
    obtain ⟨right, -, h⟩ := Option.bind_eq_some_iff.1 h
    exact ⟨root.1, left, right, h⟩

/-- The node of a run with operators is no cell. -/
theorem not_isCell_node?_ofRun (hlinks : links ≠ [])
    (h : (OperatorTree.ofRun head links).node? = some n) : ¬ n.IsCell := by
  obtain ⟨_, _, _, hjoin⟩ := exists_join?_of_node?_ofRun hlinks h
  exact not_isCell_join? hjoin

theorem isOperand_node?_ofRun (hhead : head.IsOperand)
    (h : (OperatorTree.ofRun head links).node? = some n) : n.IsOperand := by
  rcases eq_or_ne links [] with rfl | hlinks
  · rw [OperatorTree.ofRun_nil] at h
    exact Option.some.inj h ▸ hhead
  · obtain ⟨_, _, _, hjoin⟩ := exists_join?_of_node?_ofRun hlinks h
    exact isOperand_join? hjoin

/-- What the operands of a run have in common and its operators keep, the node of the run has. -/
theorem node?_ofRun_keeps {P : Node → Prop} (hhead : P head) (hlinks : ∀ l ∈ links, P l.2)
    (hjoin : ∀ l ∈ links, ∀ left right n, P left → P right → l.1.join? left right = some n → P n)
    (h : (OperatorTree.ofRun head links).node? = some n) : P n := by
  induction head, links using Links.splitInduction generalizing n with
  | nil head =>
    rw [OperatorTree.ofRun_nil] at h
    exact Option.some.inj h ▸ hhead
  | append head front root back hfront hback ihfront ihback =>
    simp only [List.forall_mem_append, List.forall_mem_cons] at hlinks hjoin
    rw [OperatorTree.ofRun_append root hfront hback] at h
    obtain ⟨left, hleft, h⟩ := Option.bind_eq_some_iff.1 h
    obtain ⟨right, hright, h⟩ := Option.bind_eq_some_iff.1 h
    exact hjoin.2.1 left right n (ihfront hhead hlinks.1 hjoin.1 hleft)
      (ihback hlinks.2.1 hlinks.2.2 hjoin.2.2 hright) h

/-- Neighbouring between symbols do not join cells of their own. -/
theorem not_rangesJoinCells (h : ∀ l ∈ links, l.1.symbol = .between) (hlinks : 2 ≤ links.length) :
    ¬ RangesJoinCells head links := by
  match links, hlinks with
  | (j, right) :: next :: rest, _ =>
    intro hranges
    have hj : j.symbol = .between := h (j, right) (by simp)
    exact (hranges.1 hj).2.2 next rfl (h next (by simp))

/-- The tree of a run has a node exactly when its ranges join cells. -/
theorem isSome_node?_iff (hrun : IsRun head links) :
    (OperatorTree.ofRun head links).node?.isSome = true ↔ RangesJoinCells head links := by
  induction head, links using Links.splitInduction with
  | nil head => simp [OperatorTree.node?, RangesJoinCells]
  | append head front root back hfront hback ihfront ihback =>
    obtain ⟨hrunFront, hroot, hrunBack⟩ := isRun_append_iff.1 hrun
    have hleft := ihfront hrunFront
    have hright := ihback hrunBack
    rw [OperatorTree.ofRun_append root hfront hback, OperatorTree.node?]
    by_cases hs : root.1.symbol = .between
    · -- The loosest operator is as tight as can be: there are only between symbols.
      simp only [Joint.looseness, hs] at hfront hback
      have hbetween : ∀ l ∈ front, l.1.symbol = .between := fun l hl =>
        eq_between_of_looseness (hfront l hl)
      obtain rfl : back = [] := List.eq_nil_iff_forall_not_mem.2 fun l hl => by
        have hlt := hback l hl
        rw [eq_between_of_looseness hlt.le] at hlt
        exact Nat.lt_irrefl _ hlt
      rcases front with _ | ⟨first, front⟩
      · simp [OperatorTree.node?, join?_isSome_between hs, RangesJoinCells, hs]
      · have hnot : ¬ RangesJoinCells head (first :: front ++ [root]) := by
          refine not_rangesJoinCells (fun l hl => ?_) (by simp)
          rcases List.mem_append.1 hl with hl | hl
          · exact hbetween l hl
          · rw [List.mem_singleton.1 hl, hs]
        refine iff_of_false (fun hsome => ?_) hnot
        obtain ⟨n, hn⟩ := Option.isSome_iff_exists.1 hsome
        obtain ⟨left, hl, hn⟩ := Option.bind_eq_some_iff.1 hn
        obtain ⟨right, -, hn⟩ := Option.bind_eq_some_iff.1 hn
        have hcells := (join?_isSome_between hs).1 (Option.isSome_iff_exists.2 ⟨n, hn⟩)
        exact not_isCell_node?_ofRun (by simp) hl hcells.1
    · rw [rangesJoinCells_append hs, ← hleft, ← hright]
      obtain ⟨op, hop⟩ := Option.isSome_iff_exists.1 (isSome_ofSymbol? hroot hs)
      cases (OperatorTree.ofRun head front).node? <;>
        cases (OperatorTree.ofRun root.2 back).node? <;>
        simp [Joint.join?_operator hs, hop]

/-! ### Reduction -/

theorem reduce_single (h : ¬ n.IsOperator) : reduce [n] = .ok n := by
  have hlowest : lowestPriority [n] = 0 := by simp [lowestPriority, priority_eq_zero_iff.2 h]
  exact (reduceIn_of_lowest_zero hlowest).2 rfl

theorem exists_node_of_run (hrun : IsRun head links) (hranges : RangesJoinCells head links) :
    ∃ n, reduce (runOf head links) = .ok n ∧ (OperatorTree.ofRun head links).node? = some n := by
  obtain ⟨n, hn⟩ := Option.isSome_iff_exists.1 ((isSome_node?_iff hrun).2 hranges)
  exact ⟨n, (reduce_run_eq_ok_iff hrun).2 hn, hn⟩

theorem isReducible_of_reduce (h : reduce nodes = .ok n) : IsReducible nodes := by
  rcases isRun_of_reduceIn h with ⟨rfl, hsingle⟩ | ⟨head, links, hrun, rfl⟩
  · exact .inl ⟨n, rfl, hsingle⟩
  · have hn := (reduce_run_eq_ok_iff hrun).1 h
    exact .inr ⟨head, links, hrun, (isSome_node?_iff hrun).1 (by simp [hn]), rfl⟩

/-- Reduction is operator precedence.  It succeeds on the reducible lists and on no other; a single
node it leaves alone; and a run it folds into the node of its tree, which has the operands,
operators and whitespace of the run in their order.  At the root of that tree stands the rightmost
of the loosest operators, so that operators of one looseness associate to the left. -/
theorem reduce_is_precedence (nodes : List Node) :
    (IsReducible nodes → ∃ n, reduce nodes = .ok n) ∧
    (¬ IsReducible nodes → ∃ d, reduce nodes = .error d ∧ d.code = .invalidArgument) ∧
    (∀ n, nodes = [n] → ¬ n.IsOperator → reduce nodes = .ok n) ∧
    (∀ head links, IsRun head links → RangesJoinCells head links → nodes = runOf head links →
      ∃ n, reduce nodes = .ok n ∧ (OperatorTree.ofRun head links).node? = some n ∧
        (OperatorTree.ofRun head links).inOrder = nodes) ∧
    (∀ head front root back, (∀ l ∈ front, l.1.looseness ≤ root.1.looseness) →
      (∀ l ∈ back, l.1.looseness < root.1.looseness) →
      OperatorTree.ofRun head (front ++ root :: back) =
        .operator (OperatorTree.ofRun head front) root.1 (OperatorTree.ofRun root.2 back)) ∧
    (∀ head links last, (∀ l ∈ links, l.1.looseness ≤ last.1.looseness) →
      OperatorTree.ofRun head (links ++ [last]) =
        .operator (OperatorTree.ofRun head links) last.1 (.operand last.2)) := by
  -- What reduces is shown first, then what is refused, and then the shape of the tree.
  refine ⟨?_, fun hnot => ?_, ?_, ?_, fun head front root back hfront hback => ?_,
    fun head links last hlinks => ?_⟩
  · rintro (⟨n, rfl, hsingle⟩ | ⟨head, links, hrun, hranges, rfl⟩)
    · exact ⟨n, reduce_single hsingle⟩
    · obtain ⟨n, hn, -⟩ := exists_node_of_run hrun hranges
      exact ⟨n, hn⟩
  · cases h : reduce nodes with
    | ok n => exact absurd (isReducible_of_reduce h) hnot
    | error d => exact ⟨d, rfl, rfl⟩
  · rintro n rfl hsingle
    exact reduce_single hsingle
  · rintro head links hrun hranges rfl
    obtain ⟨n, hn, hnode⟩ := exists_node_of_run hrun hranges
    exact ⟨n, hn, hnode, OperatorTree.inOrder_ofRun⟩
  · exact OperatorTree.ofRun_append root hfront hback
  · rw [OperatorTree.ofRun_append last hlinks (by simp), OperatorTree.ofRun_nil]

/-- In `a- b*c^d-e` the second difference stands at the root and the power innermost. -/
theorem reduce_is_precedence_mixed :
    reduce [leaf (.label "a") "a", leaf (.symbol .minus) "-", leaf .whitespace " ",
        leaf (.label "b") "b", leaf (.symbol .multiply) "*", leaf (.label "c") "c",
        leaf (.symbol .power) "^", leaf (.label "d") "d", leaf (.symbol .minus) "-",
        leaf (.label "e") "e"] =
      .ok (parent (.binary .subtraction)
        [parent (.binary .subtraction)
          [leaf (.label "a") "a", leaf (.symbol .minus) "-", leaf .whitespace " ",
            parent (.binary .multiplication)
              [leaf (.label "b") "b", leaf (.symbol .multiply) "*",
                parent (.binary .power)
                  [leaf (.label "c") "c", leaf (.symbol .power) "^", leaf (.label "d") "d"]]],
          leaf (.symbol .minus) "-", leaf (.label "e") "e"]) := by
  have hlabel (t : Text) : (leaf (.label t) t).IsOperand := isOperand_iff.2 rfl
  obtain ⟨-, -, -, hruns, hroot, -⟩ := reduce_is_precedence
    (runOf (leaf (.label "a") "a")
      [(⟨[], .minus, "-", [" "]⟩, leaf (.label "b") "b"),
        (⟨[], .multiply, "*", []⟩, leaf (.label "c") "c"),
        (⟨[], .power, "^", []⟩, leaf (.label "d") "d"),
        (⟨[], .minus, "-", []⟩, leaf (.label "e") "e")])
  obtain ⟨n, hn, hnode, -⟩ := hruns _ _
    ⟨hlabel _, by simp [hlabel], by simp only [List.forall_mem_cons]; decide⟩
    (by simp [RangesJoinCells]) rfl
  -- the root of the whole, then of what stands in front of it, then of the product
  have hlast := hroot (leaf (.label "a") "a")
    [(⟨[], .minus, "-", [" "]⟩, leaf (.label "b") "b"),
      (⟨[], .multiply, "*", []⟩, leaf (.label "c") "c"),
      (⟨[], .power, "^", []⟩, leaf (.label "d") "d")]
    (⟨[], .minus, "-", []⟩, leaf (.label "e") "e") [] (by simp; decide) (by simp)
  have hfirst := hroot (leaf (.label "a") "a") [] (⟨[], .minus, "-", [" "]⟩, leaf (.label "b") "b")
    [(⟨[], .multiply, "*", []⟩, leaf (.label "c") "c"),
      (⟨[], .power, "^", []⟩, leaf (.label "d") "d")] (by simp) (by simp; decide)
  have htimes := hroot (leaf (.label "b") "b") [] (⟨[], .multiply, "*", []⟩, leaf (.label "c") "c")
    [(⟨[], .power, "^", []⟩, leaf (.label "d") "d")] (by simp) (by simp; decide)
  have hpow := hroot (leaf (.label "c") "c") [] (⟨[], .power, "^", []⟩, leaf (.label "d") "d") []
    (by simp) (by simp)
  simp only [List.nil_append, List.cons_append, OperatorTree.ofRun_nil] at hlast hfirst htimes hpow
  rw [hlast, hfirst, htimes, hpow] at hnode
  cases hnode
  exact hn

end Node

end SheetFormula
