import SheetFormula.Proofs.Operands
import SheetFormula.Proofs.Reduction

/-!
# What expressions are made of

`Derives` says which trees the American grammar has for operands, expressions and parameters, and
how each of them is written.  It mentions no cursor and no order in which rules are tried.  Whatever
the rules find is derived, `Rule.expressionOf_sound` and its companions: a rule for operands is
*sound* when it finds derived operands only, and then so is the rule for the operands around them.
-/

namespace SheetFormula

open Cursor (Clear)

/-! ### Blanks and separators -/

/-- Runes that are all blanks. -/
def AllBlank (s : List Rune) : Prop := ∀ r ∈ s, isBlank r.value = true

/-- There are four blanks. -/
theorem of_isBlank {P : Char → Prop} (hP : ∀ ch ∈ [' ', '\t', '\n', '\r'], P ch) {ch : Char}
    (h : isBlank ch = true) : P ch :=
  hP ch (by simpa [isBlank, or_assoc] using h)

/-- The leaf of some blanks, if there are any. -/
def spaces (s : List Rune) : List Node := if s = [] then [] else [.leaf .whitespace (.ofRunes s)]

/-- The leaf of a symbol that is written as `sign`. -/
def symbolLeaf (s : Symbol) (sign : List Char) : Node :=
  .leaf (.symbol s) (.ofRunes (sign.map .scalar))

theorem operandsOf_spaces (s : List Rune) : Node.operandsOf (spaces s) = [] := by
  unfold spaces
  split_ifs <;> rfl

theorem operandsOf_symbolLeaf {s : Symbol} {sign : List Char} {ns : List Node} :
    Node.operandsOf (symbolLeaf s sign :: ns) = Node.operandsOf ns := rfl

theorem operandsOf_cons {n : Node} {ns : List Node} (h : n.isNoise = false) :
    Node.operandsOf (n :: ns) = n :: Node.operandsOf ns := by
  simp [Node.operandsOf, h]

/-- A node behind a symbol, with blanks around the symbol. -/
structure Joined where
  before : List Rune
  symbol : Symbol
  sign : List Char
  after : List Rune
  node : Node
  written : List Rune

namespace Joined

/-- The nodes in order. -/
def nodes (j : Joined) : List Node :=
  spaces j.before ++ symbolLeaf j.symbol j.sign :: (spaces j.after ++ [j.node])

/-- How all of it is written. -/
def runes (j : Joined) : List Rune :=
  j.before ++ (j.sign.map .scalar ++ (j.after ++ j.written))

/-- The symbol is one of those listed, and the blanks are blanks. -/
structure IsBy (signs : List (Symbol × List Char)) (j : Joined) : Prop where
  before : AllBlank j.before
  sign : (j.symbol, j.sign) ∈ signs
  after : AllBlank j.after

end Joined

/-- The operators with their signs, longer signs first. -/
def operatorSigns : List (Symbol × List Char) :=
  [(.lessThanEquals, ['<', '=']), (.greaterThanEquals, ['>', '=']), (.notEquals, ['<', '>']),
    (.lessThan, ['<']), (.greaterThan, ['>']), (.equals, ['=']), (.plus, ['+']), (.minus, ['-']),
    (.multiply, ['*']), (.divide, ['/']), (.power, ['^'])]

/-- The separator of arguments with its sign. -/
def argumentSigns : List (Symbol × List Char) := [(.valueSeparator, [','])]

/-! ### What stands between symbols and blanks -/

section Operands

variable {n : Node} {joined : List Joined} {t t' : List Rune}

theorem operandsOf_between {symbol : Symbol} {sign : List Char} {ns : List Node} :
    Node.operandsOf (symbolLeaf symbol sign :: (spaces t ++ ns)) = Node.operandsOf ns := by
  rw [operandsOf_symbolLeaf, Node.operandsOf_append, operandsOf_spaces, List.nil_append]

theorem operandsOf_negative (hn : n.isNoise = false) :
    Node.operandsOf (symbolLeaf .minus ['-'] :: (spaces t ++ [n])) = [n] := by
  rw [operandsOf_between, operandsOf_cons hn]
  rfl

theorem operandsOf_group (hn : n.isNoise = false) :
    Node.operandsOf (symbolLeaf .parenthesisOpen ['('] ::
      (spaces t ++ n :: (spaces t' ++ [symbolLeaf .parenthesisClose [')']]))) = [n] := by
  rw [operandsOf_between, operandsOf_cons hn, Node.operandsOf_append, operandsOf_spaces]
  rfl

theorem operandsOf_joined (h : ∀ j ∈ joined, j.node.isNoise = false) :
    Node.operandsOf (joined.flatMap Joined.nodes) = joined.map Joined.node := by
  induction joined with
  | nil => rfl
  | cons j joined ih =>
    obtain ⟨hj, hjoined⟩ := List.forall_mem_cons.1 h
    have hnodes : Node.operandsOf j.nodes = [j.node] := by
      rw [Joined.nodes, Node.operandsOf_append, operandsOf_spaces, operandsOf_between,
        operandsOf_cons hj]
      rfl
    rw [List.flatMap_cons, Node.operandsOf_append, hnodes, ih hjoined]
    rfl

theorem operandsOf_arguments (t t' : List Rune) (hn : n.isNoise = false)
    (h : ∀ j ∈ joined, j.node.isNoise = false) :
    Node.operandsOf (symbolLeaf .parenthesisOpen ['('] ::
      (spaces t ++ (n :: joined.flatMap Joined.nodes ++
        (spaces t' ++ [symbolLeaf .parenthesisClose [')']])))) = n :: joined.map Joined.node := by
  rw [operandsOf_between, Node.operandsOf_append, operandsOf_cons hn, operandsOf_joined h,
    Node.operandsOf_append, operandsOf_spaces]
  exact List.append_nil _

end Operands

/-! ### Derivations -/

/-- The sorts of trees inside an expression. -/
inductive Category
  | operand
  | expression
  | parameters

/-- The name of a function as it is written. -/
def nameLeaf (w : List Rune) : Node :=
  .leaf (.functionName (Rule.upperCase (.ofRunes w))) (.ofRunes w)

/-- Whether some runes are the name of a function. -/
structure IsFunctionName (w : List Rune) : Prop where
  starts : ∃ r v, w = r :: v ∧ isLetter r.value = true
  parts : ∀ r ∈ w, isLabelPart r.value = true

theorem IsFunctionName.length_pos {w : List Rune} (h : IsFunctionName w) : 0 < w.length := by
  obtain ⟨r, v, rfl, -⟩ := h.starts
  exact Nat.succ_pos _

/-- `n` is a tree of the category, written as `w`. -/
inductive Derives : Category → Node → List Rune → Prop
  | token {n : Node} {w : List Rune} : IsToken n w → Derives .operand n w
  | negative {s w : List Rune} {n : Node} : AllBlank s → Derives .operand n w →
      Derives .operand
        (.parent (.unary .negative) (symbolLeaf .minus ['-'] :: (spaces s ++ [n])))
        (.scalar '-' :: (s ++ w))
  | group {s t w : List Rune} {n : Node} : AllBlank s → AllBlank t → Derives .expression n w →
      Derives .operand
        (.parent (.unary .group) (symbolLeaf .parenthesisOpen ['('] ::
          (spaces s ++ n :: (spaces t ++ [symbolLeaf .parenthesisClose [')']]))))
        (.scalar '(' :: (s ++ (w ++ (t ++ [.scalar ')']))))
  | call {f w : List Rune} {n : Node} : IsFunctionName f → Derives .parameters n w →
      Derives .operand
        (.parent (.namedFunction (Rule.upperCase (.ofRunes f))) [nameLeaf f, n]) (f ++ w)
  | lambda {f v w : List Rune} {m n : Node} : IsFunctionName f →
      Rule.upperCase (.ofRunes f) = "LAMBDA" → Derives .parameters m v → Derives .parameters n w →
      Derives .operand (.parent (.lambda "LAMBDA") [nameLeaf f, m, n]) (f ++ (v ++ w))
  | expression {w : List Rune} {head n : Node} {joined : List Joined} : Derives .operand head w →
      (∀ j ∈ joined, j.IsBy operatorSigns) → (∀ j ∈ joined, Derives .operand j.node j.written) →
      Node.reduce (head :: joined.flatMap Joined.nodes) = .ok n →
      Derives .expression n (w ++ joined.flatMap Joined.runes)
  | noArguments {s : List Rune} : AllBlank s →
      Derives .parameters
        (.parent .functionParameters (symbolLeaf .parenthesisOpen ['('] ::
          (spaces s ++ [symbolLeaf .parenthesisClose [')']])))
        (.scalar '(' :: (s ++ [.scalar ')']))
  | arguments {s t w : List Rune} {first : Node} {joined : List Joined} : AllBlank s → AllBlank t →
      Derives .expression first w → (∀ j ∈ joined, j.IsBy argumentSigns) →
      (∀ j ∈ joined, Derives .expression j.node j.written) →
      Derives .parameters
        (.parent .functionParameters (symbolLeaf .parenthesisOpen ['('] ::
          (spaces s ++ (first :: joined.flatMap Joined.nodes ++
            (spaces t ++ [symbolLeaf .parenthesisClose [')']])))))
        (.scalar '(' :: (s ++ (w ++ (joined.flatMap Joined.runes ++ (t ++ [.scalar ')'])))))

/-- Runes that an operand may start with. -/
def StartsOperand (w : List Rune) : Prop :=
  ∃ r v, w = r :: v ∧ (r.value ∉ stopChars ∨ r.value = '-')

/-- Operands and expressions start like operands. -/
theorem Derives.starts {k : Category} {n : Node} {w : List Rune} (h : Derives k n w)
    (hk : k ≠ .parameters) : StartsOperand w := by
  induction h with
  | token h =>
    obtain ⟨r, v, rfl, hr⟩ := h.starts
    exact ⟨r, v, rfl, .inl hr⟩
  | negative => exact ⟨_, _, rfl, .inr rfl⟩
  | group => exact ⟨_, _, rfl, .inl (by decide)⟩
  | call hf _ | lambda hf _ _ _ =>
    obtain ⟨r, v, rfl, hr⟩ := hf.starts
    exact ⟨r, _, rfl, .inl (Rule.not_mem_of_class hr (by decide))⟩
  | expression _ _ _ _ ih _ =>
    obtain ⟨r, v, rfl, hr⟩ := ih nofun
    exact ⟨r, _, rfl, hr⟩
  | noArguments => exact absurd rfl hk
  | arguments => exact absurd rfl hk

/-! ### Expressions as runs -/

/-- The texts of the blanks of a joint. -/
def blankTexts (s : List Rune) : List Text := if s = [] then [] else [.ofRunes s]

theorem map_blankTexts (s : List Rune) : (blankTexts s).map (.leaf .whitespace) = spaces s := by
  unfold blankTexts spaces
  split_ifs <;> rfl

/-- A joined node as the part of a run. -/
def Joined.link (j : Joined) : Joint × Node :=
  (⟨blankTexts j.before, j.symbol, .ofRunes (j.sign.map .scalar), blankTexts j.after⟩, j.node)

theorem Joined.nodes_link (j : Joined) : j.link.1.nodes ++ [j.link.2] = j.nodes := by
  simp [Joined.link, Joint.nodes, Joined.nodes, map_blankTexts, symbolLeaf]

theorem runOf_link {head : Node} {joined : List Joined} :
    runOf head (joined.map Joined.link) = head :: joined.flatMap Joined.nodes := by
  rw [runOf, List.flatMap_map]
  simp only [Joined.nodes_link]

theorem Joined.IsBy.isOperator {j : Joined} (h : j.IsBy operatorSigns) : j.symbol.IsOperator := by
  have hsigns : ∀ s ∈ operatorSigns, s.1.IsOperator := by decide
  exact hsigns _ h.sign

theorem isRun_link {head : Node} {joined : List Joined} (hhead : head.isNoise = false)
    (hby : ∀ j ∈ joined, j.IsBy operatorSigns) (hnodes : ∀ j ∈ joined, j.node.isNoise = false) :
    IsRun head (joined.map Joined.link) :=
  ⟨Node.isOperand_iff.2 hhead,
    List.forall_mem_map.2 fun j hj => Node.isOperand_iff.2 (hnodes j hj),
    List.forall_mem_map.2 fun j hj => (hby j hj).isOperator⟩

/-- Joined operands reduce to the tree of their run. -/
theorem reduce_joined_eq_ok_iff {head n : Node} {joined : List Joined}
    (hhead : head.isNoise = false) (hby : ∀ j ∈ joined, j.IsBy operatorSigns)
    (hnodes : ∀ j ∈ joined, j.node.isNoise = false) :
    Node.reduce (head :: joined.flatMap Joined.nodes) = .ok n ↔
      (OperatorTree.ofRun head (joined.map Joined.link)).node? = some n := by
  rw [← runOf_link, Node.reduce_run_eq_ok_iff (isRun_link hhead hby hnodes)]

/-- Whatever is derived counts as an operand of what it stands in. -/
theorem Derives.isNoise {k : Category} {n : Node} {w : List Rune} (h : Derives k n w) :
    n.isNoise = false := by
  induction h with
  | token h => exact h.operand
  | expression _ hby _ hn ih ihall =>
    have hhead := Node.isOperand_iff.2 ih
    exact (Node.isOperand_node?_ofRun hhead ((reduce_joined_eq_ok_iff ih hby ihall).1 hn)).isNoise
  | _ => rfl

/-- The tree of a run of operands is an expression. -/
theorem Derives.of_run {head n : Node} {w : List Rune} {joined : List Joined}
    (hhead : Derives .operand head w) (hby : ∀ j ∈ joined, j.IsBy operatorSigns)
    (hall : ∀ j ∈ joined, Derives .operand j.node j.written)
    (hn : (OperatorTree.ofRun head (joined.map Joined.link)).node? = some n) :
    Derives .expression n (w ++ joined.flatMap Joined.runes) :=
  .expression hhead hby hall <|
    (reduce_joined_eq_ok_iff hhead.isNoise hby fun j hj => (hall j hj).isNoise).2 hn

/-- An expression is the tree of a run of operands. -/
theorem Derives.exists_run {n : Node} {w : List Rune} (h : Derives .expression n w) :
    ∃ (head : Node) (v : List Rune) (joined : List Joined), Derives .operand head v ∧
      (∀ j ∈ joined, j.IsBy operatorSigns) ∧
      (∀ j ∈ joined, Derives .operand j.node j.written) ∧
      (OperatorTree.ofRun head (joined.map Joined.link)).node? = some n ∧
      w = v ++ joined.flatMap Joined.runes := by
  cases h with
  | @expression v head _ joined hhead hby hall hn =>
    have htree :=
      (reduce_joined_eq_ok_iff hhead.isNoise hby fun j hj => (hall j hj).isNoise).1 hn
    exact ⟨head, v, joined, hhead, hby, hall, htree, rfl⟩

/-- An operand is an expression of its own. -/
theorem Derives.alone {n : Node} {w : List Rune} (h : Derives .operand n w) :
    Derives .expression n w := by
  have halone : Derives .expression n (w ++ ([] : List Joined).flatMap Joined.runes) :=
    .expression h (List.forall_mem_nil _) (List.forall_mem_nil _)
      (Node.reduce_single (Node.isOperand_iff.2 h.isNoise).not_isOperator)
  rwa [List.flatMap_nil, List.append_nil] at halone

/-! ### What is found is derived -/

namespace Rule

variable {inner sep : Rule} {c next : Cursor} {nodes : List Node} {k : Category}
  {signs : List (Symbol × List Char)} {w : List Rune}

/-- A rule that finds one derived tree of a category, and the runes it is written as. -/
def Sound (k : Category) (r : Rule) : Prop :=
  ∀ ⦃c next : Cursor⦄ ⦃nodes : List Node⦄, Text.Settled c.rest → r c = (.found nodes, next) →
    ∃ n w, nodes = [n] ∧ c.Passes w next ∧ Derives k n w

/-- A rule that finds one of the listed symbols. -/
def FindsSign (signs : List (Symbol × List Char)) (r : Rule) : Prop :=
  ∀ ⦃c next : Cursor⦄ ⦃nodes : List Node⦄, r c = (.found nodes, next) →
    ∃ s word, (s, word) ∈ signs ∧ nodes = [symbolLeaf s word] ∧ c.Passes (word.map .scalar) next

theorem settled_of_passes {w : List Rune} (h : Text.Settled c.rest) (hw : c.Passes w next) :
    Text.Settled next.rest := by
  rw [hw.rest] at h
  exact h.of_append

theorem clear_skip {q : Char → Bool} : Clear q (c.skip q).rest := by
  have hrest := (c.passes_skip q).rest
  have hdrop : (c.skip q).rest = c.rest.dropWhile fun r => q r.value :=
    List.append_cancel_left (hrest.symm.trans List.takeWhile_append_dropWhile.symm)
  rw [hdrop]
  exact Cursor.clear_dropWhile

theorem optionalWhitespace_eq (h : optionalWhitespace c = (.found nodes, next)) :
    ∃ s, AllBlank s ∧ nodes = spaces s ∧ c.Passes s next ∧ Clear isBlank next.rest := by
  rcases optional_found_iff.1 h with hfound | ⟨habsent, rfl⟩
  · obtain ⟨rfl, hpos, rfl⟩ := whitespace_found_iff.1 hfound
    have hpasses := c.passes_skip isBlank
    have hne : c.run isBlank ≠ [] := fun hnil => hpos (by rw [hpasses.pos, hnil]; rfl)
    have hblank : AllBlank (c.run isBlank) := fun r hr => (List.mem_takeWhile_imp hr :)
    exact ⟨c.run isBlank, hblank, by rw [hpasses.textTo, spaces, if_neg hne], hpasses,
      clear_skip⟩
  · obtain ⟨hpos, rfl⟩ := whitespace_absent_iff.1 habsent
    obtain ⟨-, hstays⟩ := (next.passes_skip isBlank).eq_of_pos hpos
    exact ⟨[], nofun, rfl, .refl next, hstays ▸ clear_skip⟩

theorem findsSign_symbol {s : Symbol} {word : List Char} (hmem : (s, word) ∈ signs)
    (hplain : ∀ ch ∈ word, IsPlain ch) : FindsSign signs (symbol s word) := by
  intro c next nodes h
  obtain ⟨hw, rfl⟩ := symbol_eq hplain h
  exact ⟨s, word, hmem, rfl, hw⟩

theorem operator_eq_alternatives :
    operator = alternatives (operatorSigns.map fun s => symbol s.1 s.2) := rfl

theorem findsSign_operator : FindsSign operatorSigns operator := by
  have hplain : ∀ s ∈ operatorSigns, ∀ ch ∈ s.2, ch ≠ nul ∧ ch ≠ Rune.replacement := by decide
  have hkeeps : (operatorSigns.map fun s => symbol s.1 s.2).Forall (Keeps fun _ _ _ => True) := by
    refine List.forall_iff_forall_mem.2 (List.forall_mem_map.2 fun s _ => ?_)
    exact ⟨fun h => (symbol_absent_iff.1 h).2, fun _ => trivial⟩
  intro c next nodes h
  rw [operator_eq_alternatives] at h
  obtain ⟨r, hr, hfound⟩ := exists_mem_of_alternatives hkeeps h nofun
  obtain ⟨s, hs, rfl⟩ := List.mem_map.1 hr
  exact findsSign_symbol hs (hplain s hs) hfound

/-- Symbols with nodes behind them, one after another. -/
def joinedBy (sep inner : Rule) : Rule :=
  repeated (sequence [optionalWhitespace, sep, optionalWhitespace, required inner])

theorem joinedBy_sound (hsep : FindsSign signs sep) (hinner : Sound k inner)
    (hsettled : Text.Settled c.rest) (h : joinedBy sep inner c = (.found nodes, next)) :
    ∃ joined : List Joined, nodes = joined.flatMap Joined.nodes ∧
      c.Passes (joined.flatMap Joined.runes) next ∧ (∀ j ∈ joined, j.IsBy signs) ∧
      ∀ j ∈ joined, Derives k j.node j.written := by
  -- One symbol with what stands around it.
  have hround {c mid : Cursor} {first : List Node} (hc : Text.Settled c.rest)
      (hfirst : sequence [optionalWhitespace, sep, optionalWhitespace, required inner] c =
        (.found first, mid)) :
      ∃ j : Joined, first = j.nodes ∧ c.Passes j.runes mid ∧ j.IsBy signs ∧
        Derives k j.node j.written := by
    obtain ⟨_, c₁, _, hbefore, h₁, rfl⟩ := sequenceFrom_cons_found_iff.1 hfirst
    obtain ⟨_, c₂, _, hsign, h₂, rfl⟩ := sequenceFrom_cons_found_iff.1 h₁
    obtain ⟨_, c₃, _, hafter, h₃, rfl⟩ := sequenceFrom_cons_found_iff.1 h₂
    obtain ⟨_, c₄, _, hnode, h₄, rfl⟩ := sequenceFrom_cons_found_iff.1 h₃
    obtain ⟨rfl, rfl⟩ := sequenceFrom_nil_found_iff.1 h₄
    obtain ⟨before, hblank, rfl, hp₁, -⟩ := optionalWhitespace_eq hbefore
    obtain ⟨s, word, hmem, rfl, hp₂⟩ := hsep hsign
    obtain ⟨after, hblank', rfl, hp₃, -⟩ := optionalWhitespace_eq hafter
    have hto := hp₁.trans (hp₂.trans hp₃)
    obtain ⟨n, w, rfl, hp₄, hn⟩ :=
      hinner (settled_of_passes hc hto) (required_found_iff.1 hnode)
    exact ⟨⟨before, s, word, after, n, w⟩, by simp [Joined.nodes],
      hp₁.trans (hp₂.trans (hp₃.trans hp₄)), ⟨hblank, hmem, hblank'⟩, hn⟩
  unfold joinedBy repeated at h
  generalize c.rest.length + 1 = fuel at h
  induction fuel generalizing c nodes with
  | zero => cases h
  | succ fuel ih =>
    rcases repeatedIn_succ_found_iff.1 h with
      ⟨first, mid, more, hfirst, -, hmore, rfl⟩ | ⟨first, hfirst, hpos, rfl⟩ | ⟨habsent, rfl⟩
    · obtain ⟨j, rfl, hpasses, hj, hn⟩ := hround hsettled hfirst
      obtain ⟨joined, rfl, hpasses', hjoined, hderives⟩ :=
        ih (settled_of_passes hsettled hpasses) hmore
      exact ⟨j :: joined, rfl, hpasses.trans hpasses', List.forall_mem_cons.2 ⟨hj, hjoined⟩,
        List.forall_mem_cons.2 ⟨hn, hderives⟩⟩
    · obtain ⟨j, -, hpasses, -, -⟩ := hround hsettled hfirst
      obtain ⟨-, rfl⟩ := hpasses.eq_of_pos hpos
      exact ⟨[], rfl, .refl next, nofun, nofun⟩
    · obtain rfl := sequenceFrom_absent habsent
      exact ⟨[], rfl, .refl next, nofun, nofun⟩

theorem expressionOf_sound (h : Sound .operand inner) : Sound .expression (expressionOf inner) := by
  intro c next nodes hsettled hfound
  obtain ⟨_, n, hrun, hn, rfl⟩ := transform_found_iff.1 hfound
  obtain ⟨_, mid, _, hhead, hjoined, rfl⟩ := sequenceFrom_pair_found_iff.1 hrun
  obtain ⟨head, w, rfl, hw, hderives⟩ := h hsettled hhead
  obtain ⟨joined, rfl, hpasses, hby, hall⟩ :=
    joinedBy_sound findsSign_operator h (settled_of_passes hsettled hw) hjoined
  exact ⟨n, _, rfl, hw.trans hpasses, .expression hderives hby hall hn⟩

theorem findsSign_separator : FindsSign argumentSigns
    (symbol .valueSeparator [(Grammar.american).locale.valueSeparator]) :=
  findsSign_symbol (List.mem_singleton.2 rfl) fun ch hch => by
    rw [List.mem_singleton.1 hch]
    exact ⟨by decide, by decide⟩

theorem symbol_eq_leaf {s : Symbol} {ch : Char} (hplain : IsPlain ch)
    (h : symbol s [ch] c = (.found nodes, next)) :
    nodes = [symbolLeaf s [ch]] ∧ c.Passes [.scalar ch] next := by
  obtain ⟨hw, rfl⟩ := symbol_eq (by simpa using hplain) h
  exact ⟨rfl, hw⟩

theorem parametersOf_sound (h : Sound .operand inner) :
    Sound .parameters (parametersOf .american inner) := by
  intro c next nodes hsettled hfound
  obtain ⟨_, n, hrun, hn, rfl⟩ := transform_found_iff.1 hfound
  obtain ⟨_, c₁, _, hopen, h₁, rfl⟩ := sequenceFrom_cons_found_iff.1 hrun
  obtain ⟨_, c₂, _, hbefore, h₂, rfl⟩ := sequenceFrom_cons_found_iff.1 h₁
  obtain ⟨_, c₃, _, harguments, h₃, rfl⟩ := sequenceFrom_cons_found_iff.1 h₂
  obtain ⟨_, c₄, _, hafter, h₄, rfl⟩ := sequenceFrom_cons_found_iff.1 h₃
  obtain ⟨_, c₅, _, hclose, h₅, rfl⟩ := sequenceFrom_cons_found_iff.1 h₄
  obtain ⟨rfl, rfl⟩ := sequenceFrom_nil_found_iff.1 h₅
  obtain ⟨rfl, hp₁⟩ := symbol_eq_leaf ⟨by decide, by decide⟩ hopen
  obtain ⟨s, hs, rfl, hp₂, hclear⟩ := optionalWhitespace_eq hbefore
  obtain ⟨t, ht, rfl, hp₄, -⟩ := optionalWhitespace_eq hafter
  obtain ⟨rfl, hp₅⟩ := symbol_eq_leaf ⟨by decide, by decide⟩ (required_found_iff.1 hclose)
  obtain ⟨-, -, rfl⟩ := Node.functionParameters_eq_ok_iff.1 hn
  rcases optional_found_iff.1 harguments with hsome | ⟨hnone, rfl⟩
  · obtain ⟨_, d₁, _, hfirst, hjoined, rfl⟩ := sequenceFrom_pair_found_iff.1 hsome
    have hsettled₂ := settled_of_passes hsettled (hp₁.trans hp₂)
    obtain ⟨first, w, rfl, hw, hderives⟩ := expressionOf_sound h hsettled₂ hfirst
    obtain ⟨joined, rfl, hpasses, hby, hall⟩ := joinedBy_sound findsSign_separator
      (expressionOf_sound h) (settled_of_passes hsettled₂ hw) hjoined
    have hderived := Derives.arguments hs ht hderives hby hall
    refine ⟨_, _, ?_, hp₁.trans (hp₂.trans (hw.trans (hpasses.trans (hp₄.trans hp₅)))), hderived⟩
    simp
  · obtain rfl := sequenceFrom_absent hnone
    -- All blanks are read before the arguments, so there are none left behind them.
    obtain rfl : t = [] := by
      cases t with
      | nil => rfl
      | cons r t =>
        rw [hp₄.rest, List.cons_append, Cursor.clear_cons, ht r (List.mem_cons_self ..)] at hclear
        cases hclear
    exact ⟨_, _, rfl, hp₁.trans (hp₂.trans (hp₄.trans hp₅)), .noArguments hs⟩

theorem negativeOf_sound (h : Sound .operand inner) : Sound .operand (negativeOf inner) := by
  intro c next nodes hsettled hfound
  obtain ⟨_, n, hrun, hn, rfl⟩ := transform_found_iff.1 hfound
  obtain ⟨_, c₁, _, c₂, _, hminus, hblanks, hinner, rfl⟩ :=
    sequenceFrom_triple_found_iff.1 hrun
  obtain ⟨rfl, hp₁⟩ := symbol_eq_leaf ⟨by decide, by decide⟩ hminus
  obtain ⟨s, hs, rfl, hp₂, -⟩ := optionalWhitespace_eq hblanks
  obtain ⟨n, w, rfl, hp₃, hderives⟩ :=
    h (settled_of_passes hsettled (hp₁.trans hp₂)) (required_found_iff.1 hinner)
  obtain ⟨-, rfl⟩ := Node.unary_eq_ok_iff.1 hn
  exact ⟨_, _, rfl, hp₁.trans (hp₂.trans hp₃), .negative hs hderives⟩

/-- Behind a symbol stands what is required, between blanks. -/
theorem padded_sound {sign : Symbol} {ch : Char} {start : Cursor} {rules : List Rule}
    (hplain : IsPlain ch) (h : Sound k inner) (hsettled : Text.Settled c.rest)
    (hfound : sequenceFrom start (symbol sign [ch] :: optionalWhitespace :: required inner ::
      optionalWhitespace :: rules) c = (.found nodes, next)) :
    ∃ s w t n mid more, AllBlank s ∧ AllBlank t ∧ Derives k n w ∧
      c.Passes (.scalar ch :: (s ++ (w ++ t))) mid ∧
      sequenceFrom start rules mid = (.found more, next) ∧
      nodes = symbolLeaf sign [ch] :: (spaces s ++ n :: (spaces t ++ more)) := by
  obtain ⟨_, c₁, _, hsign, h₁, rfl⟩ := sequenceFrom_cons_found_iff.1 hfound
  obtain ⟨_, c₂, _, hbefore, h₂, rfl⟩ := sequenceFrom_cons_found_iff.1 h₁
  obtain ⟨_, c₃, _, hinner, h₃, rfl⟩ := sequenceFrom_cons_found_iff.1 h₂
  obtain ⟨_, c₄, more, hafter, hmore, rfl⟩ := sequenceFrom_cons_found_iff.1 h₃
  obtain ⟨rfl, hp₁⟩ := symbol_eq_leaf hplain hsign
  obtain ⟨s, hs, rfl, hp₂, -⟩ := optionalWhitespace_eq hbefore
  obtain ⟨t, ht, rfl, hp₄, -⟩ := optionalWhitespace_eq hafter
  obtain ⟨n, w, rfl, hp₃, hderives⟩ :=
    h (settled_of_passes hsettled (hp₁.trans hp₂)) (required_found_iff.1 hinner)
  exact ⟨s, w, t, n, c₄, more, hs, ht, hderives, hp₁.trans (hp₂.trans (hp₃.trans hp₄)), hmore, rfl⟩

theorem groupOf_sound (h : Sound .operand inner) : Sound .operand (groupOf inner) := by
  intro c next nodes hsettled hfound
  obtain ⟨_, n, hrun, hn, rfl⟩ := transform_found_iff.1 hfound
  obtain ⟨s, w, t, n, mid, _, hs, ht, hderives, hpasses, hclose, rfl⟩ :=
    padded_sound ⟨by decide, by decide⟩ (expressionOf_sound h) hsettled hrun
  obtain ⟨rfl, hend⟩ := symbol_eq_leaf ⟨by decide, by decide⟩
    (required_found_iff.1 (sequenceFrom_single_found_iff.1 hclose))
  obtain ⟨-, rfl⟩ := Node.unary_eq_ok_iff.1 hn
  exact ⟨_, _, rfl, by simpa using hpasses.trans hend, .group hs ht hderives⟩

theorem functionName_eq_leaf (h : functionName c = (.found nodes, next)) :
    ∃ f, IsFunctionName f ∧ nodes = [nameLeaf f] ∧ c.Passes f next := by
  obtain ⟨r, v, hw, hr, hparts, rfl⟩ := functionName_eq h
  exact ⟨r :: v, ⟨⟨r, v, rfl, hr⟩, hparts⟩, rfl, hw⟩

theorem lambdaName_eq_leaf (h : lambdaName c = (.found nodes, next)) :
    ∃ f, IsFunctionName f ∧ upperCase (.ofRunes f) = "LAMBDA" ∧ nodes = [nameLeaf f] ∧
      c.Passes f next := by
  rw [lambdaName] at h
  split at h
  · rename_i name text mid hname
    split_ifs at h with hlambda
    swap
    · cases h
    obtain ⟨rfl, rfl⟩ := by simpa using h
    obtain ⟨f, hf, hleaf, hw⟩ := functionName_eq_leaf hname
    obtain ⟨rfl, rfl⟩ := by simpa [nameLeaf] using hleaf
    exact ⟨f, hf, hlambda, rfl, hw⟩
  · rename_i hother
    obtain ⟨f, -, rfl, -⟩ := functionName_eq_leaf h
    exact absurd h (hother _ _ _)

theorem parameters_eq {n : Node} (h : Derives .parameters n w) :
    ∃ ns, n = .parent .functionParameters ns := by
  cases h with
  | noArguments => exact ⟨_, rfl⟩
  | arguments => exact ⟨_, rfl⟩

/-- A call is a name and what is derived as its parameters. -/
theorem namedFunctionOf_eq (h : Sound .operand inner) (hsettled : Text.Settled c.rest)
    (hfound : namedFunctionOf .american inner c = (.found nodes, next)) :
    ∃ f n w, IsFunctionName f ∧ Derives .parameters n w ∧
      nodes = [.parent (.namedFunction (upperCase (.ofRunes f))) [nameLeaf f, n]] ∧
      c.Passes (f ++ w) next := by
  obtain ⟨_, n, hrun, hn, rfl⟩ := transform_found_iff.1 hfound
  obtain ⟨_, c₁, _, hname, hparameters, rfl⟩ := sequenceFrom_pair_found_iff.1 hrun
  obtain ⟨f, hf, rfl, hp₁⟩ := functionName_eq_leaf hname
  obtain ⟨n, w, rfl, hp₂, hderives⟩ :=
    parametersOf_sound h (settled_of_passes hsettled hp₁) hparameters
  obtain ⟨ns, rfl⟩ := parameters_eq hderives
  obtain ⟨name, s, ns', hoperands, rfl⟩ := Node.namedFunction_eq_ok_iff.1 hn
  have hall : Node.operandsOf [nameLeaf f, .parent .functionParameters ns] =
      [nameLeaf f, .parent .functionParameters ns] := rfl
  obtain ⟨⟨rfl, -⟩, -⟩ : (upperCase (.ofRunes f) = name ∧ .ofRunes f = s) ∧ ns = ns' := by
    simpa [nameLeaf] using hall.symm.trans hoperands
  exact ⟨f, _, w, hf, hderives, rfl, hp₁.trans hp₂⟩

theorem namedFunctionOf_sound (h : Sound .operand inner) :
    Sound .operand (namedFunctionOf .american inner) := by
  intro c next nodes hsettled hfound
  obtain ⟨f, n, w, hf, hn, rfl, hp⟩ := namedFunctionOf_eq h hsettled hfound
  exact ⟨_, _, rfl, hp, .call hf hn⟩

/-- A lambda function is a name and what is derived as the parameters it declares and those it is
called with. -/
theorem lambdaOf_eq (h : Sound .operand inner) (hsettled : Text.Settled c.rest)
    (hfound : lambdaOf .american inner c = (.found nodes, next)) :
    ∃ f m v n w, IsFunctionName f ∧ upperCase (.ofRunes f) = "LAMBDA" ∧ Derives .parameters m v ∧
      Derives .parameters n w ∧ nodes = [.parent (.lambda "LAMBDA") [nameLeaf f, m, n]] ∧
      c.Passes (f ++ (v ++ w)) next := by
  obtain ⟨_, n, hrun, hn, rfl⟩ := transform_found_iff.1 hfound
  obtain ⟨_, c₁, _, c₂, _, hname, hparameters, hvalues, rfl⟩ :=
    sequenceFrom_triple_found_iff.1 hrun
  obtain ⟨f, hf, hlambda, rfl, hp₁⟩ := lambdaName_eq_leaf hname
  obtain ⟨m, v, rfl, hp₂, hm⟩ := parametersOf_sound h (settled_of_passes hsettled hp₁) hparameters
  obtain ⟨n, w, rfl, hp₃, hn'⟩ :=
    parametersOf_sound h (settled_of_passes hsettled (hp₁.trans hp₂)) hvalues
  obtain ⟨ms, rfl⟩ := parameters_eq hm
  obtain ⟨ns, rfl⟩ := parameters_eq hn'
  obtain ⟨name, s, ms', ns', hoperands, rfl⟩ := Node.lambda_eq_ok_iff.1 hn
  have hall : Node.operandsOf [nameLeaf f, .parent .functionParameters ms,
      .parent .functionParameters ns] =
      [nameLeaf f, .parent .functionParameters ms, .parent .functionParameters ns] := rfl
  obtain ⟨⟨rfl, -⟩, -⟩ : ("LAMBDA" = name ∧ .ofRunes f = s) ∧ ms = ms' ∧ ns = ns' := by
    simpa [nameLeaf, hlambda] using hall.symm.trans hoperands
  exact ⟨f, _, v, _, w, hf, hlambda, hm, hn', rfl, hp₁.trans (hp₂.trans hp₃)⟩

theorem lambdaOf_sound (h : Sound .operand inner) : Sound .operand (lambdaOf .american inner) := by
  intro c next nodes hsettled hfound
  obtain ⟨f, m, v, n, w, hf, hlambda, hm, hn, rfl, hp⟩ := lambdaOf_eq h hsettled hfound
  exact ⟨_, _, rfl, hp, .lambda hf hlambda hm hn⟩

/-- A rule for operands is sound if the rule for the operands inside is. -/
theorem operandOf_sound (h : Sound .operand inner) :
    Sound .operand (operandOf .american inner) := by
  intro c next nodes hsettled hfound
  rcases operandOf_cases hfound with hnegative | hgroup | hlambda | hcall | hone
  · exact negativeOf_sound h hsettled hnegative
  · exact groupOf_sound h hsettled hgroup
  · exact lambdaOf_sound h hsettled hlambda
  · exact namedFunctionOf_sound h hsettled hcall
  · obtain ⟨n, w, rfl, hw, htoken⟩ := hone.readsToken hsettled
    exact ⟨n, w, rfl, hw, .token htoken⟩

theorem operandIn_sound (fuel : Nat) : Sound .operand (operandIn .american fuel) := by
  induction fuel with
  | zero => nofun
  | succ fuel ih =>
    rw [operandIn_succ]
    exact operandOf_sound ih

theorem operand_sound : Sound .operand (operand .american) :=
  fun c _ _ hsettled hfound => operandIn_sound (c.rest.length + 1) hsettled hfound

theorem expression_sound : Sound .expression (expression .american) :=
  expressionOf_sound operand_sound

end Rule

end SheetFormula
