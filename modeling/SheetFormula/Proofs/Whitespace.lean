import SheetFormula.Formula.Table
import SheetFormula.Proofs.Rereading

/-!
# Trees without whitespace

`Node.bare` deletes the whitespace leaves of a tree.  The text of what is left is the key that a
table knows a formula by (`Formula.key_eq`).  For trees inside an expression the deletion does not
change how the rest is read: what is derived is still derived without its blanks,
`Derives.bare`, and so the key of a formula is read as the tree without its whitespace.
-/

namespace SheetFormula

namespace Node

mutual

/-- A tree without the whitespace leaves below it. -/
def bare : Node → Node
  | leaf content text => leaf content text
  | parent form children => parent form (bareAll children)

/-- Trees without whitespace leaves. -/
def bareAll : List Node → List Node
  | [] => []
  | n :: rest => if n.isWhitespace then bareAll rest else bare n :: bareAll rest

end

variable {n m : Node} {ns ms : List Node}

@[simp] theorem bare_leaf (content : Content) (text : Text) :
    (leaf content text).bare = leaf content text := by rw [bare]

@[simp] theorem bare_parent (form : Form) (children : List Node) :
    (parent form children).bare = parent form (bareAll children) := by rw [bare]

@[simp] theorem bareAll_nil : bareAll [] = [] := by rw [bareAll]

theorem bareAll_cons_whitespace (h : n.isWhitespace = true) : bareAll (n :: ns) = bareAll ns := by
  rw [bareAll, if_pos h]

theorem bareAll_cons (h : n.isWhitespace = false) : bareAll (n :: ns) = n.bare :: bareAll ns := by
  rw [bareAll, if_neg (by simp [h])]

@[simp] theorem bareAll_append : bareAll (ns ++ ms) = bareAll ns ++ bareAll ms := by
  induction ns with
  | nil => simp
  | cons n ns ih =>
    cases h : n.isWhitespace with
    | true => rw [List.cons_append, bareAll_cons_whitespace h, bareAll_cons_whitespace h, ih]
    | false => rw [List.cons_append, bareAll_cons h, bareAll_cons h, ih, List.cons_append]

theorem isWhitespace_leaf {content : Content} {text : Text} :
    (leaf content text).isWhitespace = decide (content = .whitespace) := by
  cases content <;> rfl

theorem isWhitespace_parent (form : Form) (children : List Node) :
    (parent form children).isWhitespace = false := by
  cases form <;> rfl

@[simp] theorem isNoise_bare : n.bare.isNoise = n.isNoise := by
  cases n with
  | leaf content text => rw [bare_leaf]
  | parent form children => rw [bare_parent, isNoise_parent, isNoise_parent]

mutual

/-- The leaves that are left are those that are no whitespace. -/
theorem leaves_bare (n : Node) (h : n.isWhitespace = false) :
    n.bare.leaves = n.leaves.filter fun l => l.1 ≠ .whitespace := by
  match n with
  | leaf content text =>
    rw [isWhitespace_leaf, decide_eq_false_iff_not] at h
    simp [h]
  | parent form children =>
    rw [bare_parent, leaves_parent, leaves_parent]
    exact leavesOfAll_bareAll children

/-- The leaves that are left are those that are no whitespace. -/
theorem leavesOfAll_bareAll (ns : List Node) :
    leavesOfAll (bareAll ns) = (leavesOfAll ns).filter fun l => l.1 ≠ .whitespace := by
  match ns with
  | [] => simp
  | n :: rest =>
    cases h : n.isWhitespace with
    | false =>
      rw [bareAll_cons h, leavesOfAll_cons, leavesOfAll_cons, List.filter_append, leaves_bare n h,
        leavesOfAll_bareAll rest]
    | true =>
      rw [bareAll_cons_whitespace h, leavesOfAll_cons, List.filter_append, leavesOfAll_bareAll rest]
      cases n with
      | leaf content text =>
        rw [isWhitespace_leaf, decide_eq_true_iff] at h
        simp [h]
      | parent form children =>
        rw [isWhitespace_parent] at h
        cases h

end

mutual

/-- A tree without whitespace leaves stays as it is. -/
theorem bare_of_isSolid (n : Node) (h : n.IsSolid) : n.bare = n := by
  match n with
  | leaf content text => rw [bare_leaf]
  | parent form children =>
    rw [bare_parent, bareAll_of_isSolid children (isSolid_parent.1 h)]

/-- Trees without whitespace leaves stay as they are. -/
theorem bareAll_of_isSolid (ns : List Node) (h : ∀ n ∈ ns, n.IsSolid) : bareAll ns = ns := by
  match ns with
  | [] => rw [bareAll_nil]
  | n :: rest =>
    obtain ⟨hn, hrest⟩ := List.forall_mem_cons.1 h
    have hsolid : n.isWhitespace = false := by
      cases n with
      | leaf content text =>
        rw [isWhitespace_leaf, decide_eq_false_iff_not]
        exact isSolid_leaf.1 hn
      | parent form children => exact isWhitespace_parent form children
    rw [bareAll_cons hsolid, bare_of_isSolid n hn, bareAll_of_isSolid rest hrest]

end

/-! ### Keys -/

/-- What is noted of leaves for a key, last first. -/
def keyParts (ls : List (Content × Text)) : List Text :=
  (ls.filter fun l => l.1 ≠ .whitespace).map Prod.snd

mutual

theorem walk_noteKeyPart (n : Node) (parts : List Text) :
    n.walk ⟨noteKeyPart, fun s _ => s⟩ parts = (keyParts n.leaves).reverse ++ parts := by
  match n with
  | leaf content text =>
    rw [walk, leaves_leaf]
    by_cases h : content = .whitespace <;> simp [noteKeyPart, keyParts, h]
  | parent form children =>
    rw [walk, leaves_parent]
    exact walkAll_noteKeyPart children parts

theorem walkAll_noteKeyPart (ns : List Node) (parts : List Text) :
    walkAll ⟨noteKeyPart, fun s _ => s⟩ parts ns =
      (keyParts (leavesOfAll ns)).reverse ++ parts := by
  match ns with
  | [] => simp [walkAll, keyParts]
  | n :: rest =>
    rw [walkAll, walk_noteKeyPart n parts, walkAll_noteKeyPart rest, leavesOfAll_cons, keyParts,
      keyParts, keyParts, List.filter_append, List.map_append, List.reverse_append,
      List.append_assoc]

end

end Node

/-- The key of a formula is the text of its token without whitespace. -/
theorem Formula.key_eq {f : Formula} {n : Node} (h : f.token? = some n)
    (hn : n.isWhitespace = false) : f.key = n.bare.text := by
  rw [Formula.key, h, Node.text_eq_join_leaves, Node.leaves_bare n hn]
  simp only [Node.inspect, Node.walk_noteKeyPart, List.append_nil, List.reverse_reverse]
  rfl

/-! ### Runs without whitespace -/

/-- A joint without the whitespace around its symbol. -/
def Joint.bare (j : Joint) : Joint := { j with before := [], after := [] }

/-- An operator and its operand without whitespace. -/
def bareLink (l : Joint × Node) : Joint × Node := (l.1.bare, l.2.bare)

namespace Node

variable {head left right n : Node} {links : Links Node} {j : Joint}

theorem bareAll_whitespace (ts : List Text) : bareAll (ts.map (leaf .whitespace)) = [] := by
  induction ts with
  | nil => rw [List.map_nil, bareAll_nil]
  | cons t ts ih => rw [List.map_cons, bareAll_cons_whitespace rfl, ih]

theorem bareAll_symbol {s : Symbol} {t : Text} {ns : List Node} :
    bareAll (leaf (.symbol s) t :: ns) = leaf (.symbol s) t :: bareAll ns := by
  rw [bareAll_cons rfl, bare_leaf]

theorem bareAll_joint : bareAll j.nodes = j.bare.nodes := by
  simp [Joint.nodes, Joint.bare, bareAll_whitespace, bareAll_symbol]

theorem bareAll_operand {ns : List Node} (h : n.isNoise = false) :
    bareAll (n :: ns) = n.bare :: bareAll ns := bareAll_cons (isWhitespace_eq_false h)

theorem bareAll_join (hleft : left.isNoise = false) (hright : right.isNoise = false) :
    bareAll (left :: (j.nodes ++ [right])) = left.bare :: (j.bare.nodes ++ [right.bare]) := by
  rw [bareAll_operand hleft, bareAll_append, bareAll_joint, bareAll_operand hright, bareAll_nil]

theorem IsOperand.bare (h : n.IsOperand) : n.bare.IsOperand :=
  isOperand_iff.2 (isNoise_bare.trans h.isNoise)

theorem isRun_bare (hrun : IsRun head links) : IsRun head.bare (links.map bareLink) :=
  ⟨hrun.head.bare, List.forall_mem_map.2 fun l hl => (hrun.operands l hl).bare,
    List.forall_mem_map.2 fun l hl => hrun.operators l hl⟩

theorem join?_bare (hleft : left.isNoise = false) (hright : right.isNoise = false)
    (h : j.join? left right = some n) : j.bare.join? left.bare right.bare = some n.bare := by
  have hchildren := bareAll_join (j := j) hleft hright
  by_cases hs : j.symbol = .between
  · obtain ⟨first, ns, last, ms, rfl, rfl, rfl⟩ := (Joint.join?_between_eq_some_iff hs).1 h
    refine (Joint.join?_between_eq_some_iff (j := j.bare) hs).2 ⟨first, _, last, _, bare_parent ..,
      bare_parent .., ?_⟩
    rw [bare_parent, hchildren]
  · rw [Joint.join?_operator hs] at h
    obtain ⟨op, hop, rfl⟩ := Option.map_eq_some_iff.1 h
    rw [Joint.join?_operator (j := j.bare) hs, bare_parent, hchildren]
    exact Option.map_eq_some_iff.2 ⟨op, hop, rfl⟩

/-- The tree of a run without whitespace is the tree of the run, without whitespace. -/
theorem node?_bare (hrun : IsRun head links) {n : Node}
    (h : (OperatorTree.ofRun head links).node? = some n) :
    (OperatorTree.ofRun head.bare (links.map bareLink)).node? = some n.bare := by
  induction head, links using Links.splitInduction generalizing n with
  | nil head =>
    rw [OperatorTree.ofRun_nil] at h
    rw [List.map_nil, OperatorTree.ofRun_nil, ← Option.some.inj h]
    rfl
  | append head front root back hfront hback ihfront ihback =>
    obtain ⟨hrunFront, -, hrunBack⟩ := isRun_append_iff.1 hrun
    rw [OperatorTree.ofRun_append root hfront hback] at h
    obtain ⟨left, hleft, h⟩ := Option.bind_eq_some_iff.1 h
    obtain ⟨right, hright, h⟩ := Option.bind_eq_some_iff.1 h
    have hfront' : ∀ l ∈ front.map bareLink, l.1.looseness ≤ (bareLink root).1.looseness :=
      List.forall_mem_map.2 hfront
    have hback' : ∀ l ∈ back.map bareLink, l.1.looseness < (bareLink root).1.looseness :=
      List.forall_mem_map.2 hback
    rw [List.map_append, List.map_cons, OperatorTree.ofRun_append (bareLink root) hfront' hback']
    refine Option.bind_eq_some_iff.2 ⟨_, ihfront hrunFront hleft,
      Option.bind_eq_some_iff.2 ⟨_, ihback hrunBack hright, ?_⟩⟩
    exact join?_bare (isOperand_node?_ofRun hrunFront.head hleft).isNoise
      (isOperand_node?_ofRun hrunBack.head hright).isNoise h

/-- Whitespace does not matter for how operators bind. -/
theorem reduce_bare (hrun : IsRun head links) (h : reduce (runOf head links) = .ok n) :
    reduce (runOf head.bare (links.map bareLink)) = .ok n.bare :=
  (reduce_run_eq_ok_iff (isRun_bare hrun)).2 (node?_bare hrun ((reduce_run_eq_ok_iff hrun).1 h))

end Node

/-! ### How trees are written -/

/-- The trees are written as `w`, also in front of other text. -/
structure WrittenAll (ns : List Node) (w : List Rune) : Prop where
  text : Node.textOfAll ns = .ofRunes w
  sealed : Text.Sealed w

section Written

variable {ns ms : List Node} {v w : List Rune} {n : Node}

theorem writtenAll_nil : WrittenAll [] [] := ⟨rfl, Text.sealed_nil⟩

theorem WrittenAll.append (hns : WrittenAll ns v) (hms : WrittenAll ms w) :
    WrittenAll (ns ++ ms) (v ++ w) where
  text := by rw [Node.textOfAll_append, hns.text, hms.text, Text.ofRunes_append]
  sealed := hns.sealed.append hms.sealed

theorem writtenAll_symbolLeaf (s : Symbol) (sign : List Char) :
    WrittenAll [symbolLeaf s sign] (sign.map .scalar) where
  text := by simp [symbolLeaf]
  sealed := Text.sealed_of_isScalar (List.forall_mem_map.2 fun _ _ => rfl)

/-- The runes of a tree, when it is written as them. -/
theorem WrittenAll.runes (h : WrittenAll [n] w) : n.text.runes = w := by
  have htext : n.text = .ofRunes w := by simpa using h.text
  rw [htext]
  exact h.sealed.settled

theorem WrittenAll.parent (form : Form) (h : WrittenAll ns w) : WrittenAll [.parent form ns] w where
  text := by simpa using h.text
  sealed := h.sealed

end Written

theorem writtenAll_nameLeaf {f : List Rune} (h : IsFunctionName f) : WrittenAll [nameLeaf f] f where
  text := by simp [nameLeaf]
  sealed := Text.sealed_of_isScalar fun r hr => Rune.isScalar_of_class (h.parts r hr) (by decide)

theorem writtenAll_spaces {s : List Rune} (h : AllBlank s) : WrittenAll (spaces s) s := by
  refine ⟨?_, Text.sealed_of_isScalar fun r hr => Rune.isScalar_of_class (h r hr) (by decide)⟩
  unfold spaces
  split_ifs with hs
  · rw [hs]
    rfl
  · simp

theorem writtenAll_joined {signs : List (Symbol × List Char)} {joined : List Joined}
    (hby : ∀ j ∈ joined, j.IsBy signs) (h : ∀ j ∈ joined, WrittenAll [j.node] j.written) :
    WrittenAll (joined.flatMap Joined.nodes) (joined.flatMap Joined.runes) := by
  induction joined with
  | nil => exact writtenAll_nil
  | cons j joined ih =>
    obtain ⟨hjby, hby⟩ := List.forall_mem_cons.1 hby
    obtain ⟨hj, hjoined⟩ := List.forall_mem_cons.1 h
    have hround := (writtenAll_spaces hjby.before).append ((writtenAll_symbolLeaf j.symbol
      j.sign).append ((writtenAll_spaces hjby.after).append hj))
    exact hround.append (ih hby hjoined)

/-- Folding keeps what is written. -/
theorem WrittenAll.of_reduce {ns : List Node} {n : Node} {w : List Rune} (h : WrittenAll ns w)
    (hn : Node.reduce ns = .ok n) : WrittenAll [n] w := by
  refine ⟨?_, h.sealed⟩
  rw [← h.text, Node.textOfAll_eq_join_leaves, Node.textOfAll_eq_join_leaves]
  simp [Node.leaves_of_reduce hn]

/-- A derived tree is written as the runes it is derived with. -/
theorem Derives.written {k : Category} {n : Node} {w : List Rune} (h : Derives k n w) :
    WrittenAll [n] w := by
  induction h with
  | token h => exact ⟨by simpa using h.spells, h.sealed⟩
  | negative hs _ ih =>
    exact ((writtenAll_symbolLeaf .minus ['-']).append
      ((writtenAll_spaces hs).append ih)).parent _
  | group hs ht _ ih =>
    exact ((writtenAll_symbolLeaf .parenthesisOpen ['(']).append ((writtenAll_spaces hs).append
      (ih.append ((writtenAll_spaces ht).append
        (writtenAll_symbolLeaf .parenthesisClose [')']))))).parent _
  | call hf _ ih => exact ((writtenAll_nameLeaf hf).append ih).parent _
  | lambda hf _ _ _ ihm ihn => exact ((writtenAll_nameLeaf hf).append (ihm.append ihn)).parent _
  | expression _ hby _ hn ih ihall => exact (ih.append (writtenAll_joined hby ihall)).of_reduce hn
  | noArguments hs =>
    exact ((writtenAll_symbolLeaf .parenthesisOpen ['(']).append ((writtenAll_spaces hs).append
      (writtenAll_symbolLeaf .parenthesisClose [')']))).parent _
  | arguments hs ht _ hby _ ih ihall =>
    have hbehind := (writtenAll_joined hby ihall).append ((writtenAll_spaces ht).append
      (writtenAll_symbolLeaf .parenthesisClose [')']))
    have hall := (writtenAll_symbolLeaf .parenthesisOpen ['(']).append
      ((writtenAll_spaces hs).append (ih.append hbehind))
    simpa using hall.parent .functionParameters

/-! ### Derived trees without whitespace -/

/-- The tree is derived without its whitespace, and then it is written as its own text, which is
not longer than `w`. -/
structure BareDerives (k : Category) (n : Node) (w : List Rune) : Prop where
  derives : Derives k n.bare n.bare.text.runes
  written : WrittenAll [n.bare] n.bare.text.runes
  length : n.bare.text.runes.length ≤ w.length

theorem BareDerives.mk' {k : Category} {n : Node} {v w : List Rune} (hn : Derives k n.bare v)
    (hle : v.length ≤ w.length) : BareDerives k n w := by
  have hwritten := hn.written
  obtain rfl := hwritten.runes
  exact ⟨hn, hwritten, hle⟩

/-- A joined node without whitespace. -/
def Joined.bare (j : Joined) : Joined where
  before := []
  symbol := j.symbol
  sign := j.sign
  after := []
  node := j.node.bare
  written := j.node.bare.text.runes

@[simp] theorem spaces_nil : spaces [] = [] := rfl

theorem bareAll_spaces {s : List Rune} : Node.bareAll (spaces s) = [] := by
  rw [← map_blankTexts, Node.bareAll_whitespace]

theorem bareAll_symbolLeaf {s : Symbol} {sign : List Char} {ns : List Node} :
    Node.bareAll (symbolLeaf s sign :: ns) = symbolLeaf s sign :: Node.bareAll ns :=
  Node.bareAll_symbol

theorem bareAll_nameLeaf {f : List Rune} {ns : List Node} :
    Node.bareAll (nameLeaf f :: ns) = nameLeaf f :: Node.bareAll ns := by
  rw [nameLeaf, Node.bareAll_cons rfl, Node.bare_leaf]

theorem bareAll_joined {joined : List Joined} (h : ∀ j ∈ joined, j.node.isNoise = false) :
    Node.bareAll (joined.flatMap Joined.nodes) = (joined.map Joined.bare).flatMap Joined.nodes := by
  induction joined with
  | nil => simp
  | cons j joined ih =>
    obtain ⟨hj, hjoined⟩ := List.forall_mem_cons.1 h
    rw [List.flatMap_cons, Node.bareAll_append, ih hjoined, List.map_cons, List.flatMap_cons]
    simp [Joined.nodes, Joined.bare, bareAll_spaces, bareAll_symbolLeaf, Node.bareAll_operand hj]

theorem length_bare_joined {k : Category} {joined : List Joined}
    (h : ∀ j ∈ joined, BareDerives k j.node j.written) :
    ((joined.map Joined.bare).flatMap Joined.runes).length ≤
      (joined.flatMap Joined.runes).length := by
  induction joined with
  | nil => simp
  | cons j joined ih =>
    obtain ⟨hj, hjoined⟩ := List.forall_mem_cons.1 h
    have hle := hj.length
    have hmore := ih hjoined
    simp only [List.map_cons, List.flatMap_cons, List.length_append, Joined.runes, Joined.bare,
      List.length_nil] at hmore ⊢
    omega

namespace BareDerives

variable {m n : Node} {f s t v w : List Rune} {joined : List Joined}

theorem token (h : IsToken n w) : BareDerives .operand n w := by
  have hbare := Node.bare_of_isSolid n h.solid
  exact .mk' (by rw [hbare]; exact .token h) (Nat.le_refl _)

theorem negative (hn : BareDerives .operand n w) (hnoise : n.isNoise = false) :
    BareDerives .operand
      (.parent (.unary .negative) (symbolLeaf .minus ['-'] :: (spaces s ++ [n])))
      (.scalar '-' :: (s ++ w)) := by
  have hderives := Derives.negative allBlank_nil hn.derives
  have hle := hn.length
  refine .mk'
    (by simpa [bareAll_symbolLeaf, bareAll_spaces, Node.bareAll_operand hnoise] using hderives) ?_
  simp
  omega

theorem group (hn : BareDerives .expression n w) (hnoise : n.isNoise = false) :
    BareDerives .operand
      (.parent (.unary .group) (symbolLeaf .parenthesisOpen ['('] ::
        (spaces s ++ n :: (spaces t ++ [symbolLeaf .parenthesisClose [')']]))))
      (.scalar '(' :: (s ++ (w ++ (t ++ [.scalar ')'])))) := by
  have hderives := Derives.group allBlank_nil allBlank_nil hn.derives
  have hle := hn.length
  refine .mk'
    (by simpa [bareAll_symbolLeaf, bareAll_spaces, Node.bareAll_operand hnoise] using hderives) ?_
  simp
  omega

theorem call (hf : IsFunctionName f) (hn : BareDerives .parameters n w)
    (hnoise : n.isNoise = false) :
    BareDerives .operand
      (.parent (.namedFunction (Rule.upperCase (.ofRunes f))) [nameLeaf f, n]) (f ++ w) := by
  have hbare : Node.bareAll [nameLeaf f, n] = [nameLeaf f, n.bare] := by
    rw [bareAll_nameLeaf, Node.bareAll_operand hnoise, Node.bareAll_nil]
  have hle := hn.length
  refine .mk' (by rw [Node.bare_parent, hbare]; exact .call hf hn.derives) ?_
  simp only [List.length_append]
  omega

theorem lambda (hf : IsFunctionName f) (hlambda : Rule.upperCase (.ofRunes f) = "LAMBDA")
    (hm : BareDerives .parameters m v) (hn : BareDerives .parameters n w)
    (hmnoise : m.isNoise = false) (hnnoise : n.isNoise = false) :
    BareDerives .operand (.parent (.lambda "LAMBDA") [nameLeaf f, m, n]) (f ++ (v ++ w)) := by
  have hbare : Node.bareAll [nameLeaf f, m, n] = [nameLeaf f, m.bare, n.bare] := by
    rw [bareAll_nameLeaf, Node.bareAll_operand hmnoise, Node.bareAll_operand hnnoise,
      Node.bareAll_nil]
  have hmle := hm.length
  have hnle := hn.length
  refine .mk' (by rw [Node.bare_parent, hbare]; exact .lambda hf hlambda hm.derives hn.derives) ?_
  simp only [List.length_append]
  omega

theorem noArguments : BareDerives .parameters
    (.parent .functionParameters (symbolLeaf .parenthesisOpen ['('] ::
      (spaces s ++ [symbolLeaf .parenthesisClose [')']])))
    (.scalar '(' :: (s ++ [.scalar ')'])) := by
  have hderives := Derives.noArguments allBlank_nil
  refine .mk' (by simpa [bareAll_symbolLeaf, bareAll_spaces] using hderives) ?_
  simp

theorem isBy_bare {signs : List (Symbol × List Char)} (h : ∀ j ∈ joined, j.IsBy signs) :
    ∀ j ∈ joined.map Joined.bare, j.IsBy signs :=
  List.forall_mem_map.2 fun j hj => ⟨allBlank_nil, (h j hj).sign, allBlank_nil⟩

theorem arguments {first : Node} (hfirst : BareDerives .expression first w)
    (hnoise : first.isNoise = false) (hby : ∀ j ∈ joined, j.IsBy argumentSigns)
    (hjoined : ∀ j ∈ joined, BareDerives .expression j.node j.written)
    (hnoises : ∀ j ∈ joined, j.node.isNoise = false) :
    BareDerives .parameters
      (.parent .functionParameters (symbolLeaf .parenthesisOpen ['('] ::
        (spaces s ++ (first :: joined.flatMap Joined.nodes ++
          (spaces t ++ [symbolLeaf .parenthesisClose [')']])))))
      (.scalar '(' :: (s ++ (w ++ (joined.flatMap Joined.runes ++ (t ++ [.scalar ')']))))) := by
  have hderives := Derives.arguments allBlank_nil allBlank_nil hfirst.derives (isBy_bare hby)
    (List.forall_mem_map.2 fun j hj => (hjoined j hj).derives)
  have hle := hfirst.length
  have hmore := length_bare_joined hjoined
  have hbare : Node.bareAll (symbolLeaf .parenthesisOpen ['('] ::
      (spaces s ++ (first :: joined.flatMap Joined.nodes ++
        (spaces t ++ [symbolLeaf .parenthesisClose [')']])))) =
      symbolLeaf .parenthesisOpen ['('] :: (first.bare ::
        ((joined.map Joined.bare).flatMap Joined.nodes ++
          [symbolLeaf .parenthesisClose [')']])) := by
    rw [bareAll_symbolLeaf, Node.bareAll_append, bareAll_spaces, List.cons_append,
      Node.bareAll_operand hnoise, Node.bareAll_append, bareAll_joined hnoises, Node.bareAll_append,
      bareAll_spaces, bareAll_symbolLeaf, Node.bareAll_nil]
    rfl
  refine .mk' (by rw [Node.bare_parent, hbare]; simpa using hderives) ?_
  simp only [List.length_cons, List.length_append] at hmore ⊢
  omega

theorem expression {head : Node} (hhead : BareDerives .operand head w)
    (hnoise : head.isNoise = false) (hby : ∀ j ∈ joined, j.IsBy operatorSigns)
    (hjoined : ∀ j ∈ joined, BareDerives .operand j.node j.written)
    (hnoises : ∀ j ∈ joined, j.node.isNoise = false)
    (hn : Node.reduce (head :: joined.flatMap Joined.nodes) = .ok n) :
    BareDerives .expression n (w ++ joined.flatMap Joined.runes) := by
  have hrun := isRun_link hnoise hby hnoises
  rw [← runOf_link] at hn
  have hlinks : (joined.map Joined.link).map bareLink =
      (joined.map Joined.bare).map Joined.link := by
    rw [List.map_map, List.map_map]
    rfl
  have hbare := Node.reduce_bare hrun hn
  rw [hlinks, runOf_link] at hbare
  have hderives := Derives.expression hhead.derives (isBy_bare hby)
    (List.forall_mem_map.2 fun j hj => (hjoined j hj).derives) hbare
  have hle := hhead.length
  have hmore := length_bare_joined hjoined
  exact .mk' hderives (by simp only [List.length_append]; omega)

end BareDerives

/-- What is derived is derived without its whitespace. -/
theorem Derives.bare {k : Category} {n : Node} {w : List Rune} (h : Derives k n w) :
    BareDerives k n w := by
  induction h with
  | token h => exact .token h
  | negative hs hn ih => exact ih.negative hn.isNoise
  | group hs ht hn ih => exact ih.group hn.isNoise
  | call hf hn ih => exact ih.call hf hn.isNoise
  | lambda hf hlambda hm hn ihm ihn => exact .lambda hf hlambda ihm ihn hm.isNoise hn.isNoise
  | expression hhead hby hall hn ih ihall =>
    exact ih.expression hhead.isNoise hby ihall (fun j hj => (hall j hj).isNoise) hn
  | noArguments hs => exact .noArguments
  | arguments hs ht hfirst hby hall ih ihall =>
    exact ih.arguments hfirst.isNoise hby ihall fun j hj => (hall j hj).isNoise

/-! ### Formulas -/

/-- The text of a formula without its whitespace is read as the formula without its whitespace. -/
theorem Rule.formula_bare {c next : Cursor} {n : Node} (hsettled : Text.Settled c.rest)
    (h : Rule.formula .american c = (.found [n], next)) :
    (Rule.formula .american).Finds (· = []) [n.bare] n.bare.text.runes ∧
      n.bare.text.runes.length ≤ c.rest.length - next.rest.length := by
  obtain ⟨s, w, t, m, hs, ht, hm, hn, hpasses⟩ := Rule.formula_eq hsettled h
  obtain rfl : n = _ := (List.cons.inj hn).1
  have hbare := hm.bare
  have hwritten : WrittenAll
      [.parent (.unary .expression) (symbolLeaf .equals ['='] :: [m.bare])]
      (.scalar '=' :: m.bare.text.runes) :=
    ((writtenAll_symbolLeaf .equals ['=']).append hbare.written).parent (.unary .expression)
  have hfinds := Rule.formula_finds allBlank_nil allBlank_nil hbare.derives
  have hnode : (Node.parent (.unary .expression)
      (symbolLeaf .equals ['='] :: (spaces s ++ m :: spaces t))).bare =
      .parent (.unary .expression) (symbolLeaf .equals ['='] :: [m.bare]) := by
    rw [Node.bare_parent, bareAll_symbolLeaf, Node.bareAll_append, bareAll_spaces,
      Node.bareAll_operand hm.isNoise, bareAll_spaces]
    rfl
  -- The text only gets shorter: what is left out is whitespace.
  have hle := hbare.length
  have hlength := congrArg List.length hpasses.rest
  rw [hnode, hwritten.runes]
  refine ⟨by simpa using hfinds, ?_⟩
  simp only [List.length_cons, List.length_append] at hlength ⊢
  omega

end SheetFormula
