import SheetFormula.Proofs.Printing
import SheetFormula.Proofs.Terms

/-!
# Expressions inside expressions

What stands inside an expression as an expression of its own, `Kind.standsAlone`, is read alone as
it was read in its place.  A tree inside a derived one is derived as an expression, and is written
with no more runes: `Derives.partsStand`.  For the operators inside a run this holds since what
stands on either side of the root of its tree is a run again; and the cells of a range are tokens
like cells alone, since no boolean is a column.
-/

namespace SheetFormula

/-- The kinds of nodes that are expressions of their own.  The others are parts of a token or of a
call, or noise. -/
def Kind.standsAlone : Kind → Bool
  | binary _ | unary .negative | unary .group | text | number | namedFunction | lambda | cellRange
  | cell | error | boolean | labelName => true
  | _ => false

namespace Node

/-- Every node of a tree that is an expression of its own is derived as one, written with at most
`k` runes. -/
def PartsStand (k : Nat) (n : Node) : Prop :=
  ∀ m, m.Within n → m.kind.standsAlone = true → ∃ v, Derives .expression m v ∧ v.length ≤ k

variable {k k' : Nat} {n : Node}

theorem PartsStand.mono (h : n.PartsStand k) (hk : k ≤ k') : n.PartsStand k' := fun m hm halone =>
  let ⟨v, hv, hle⟩ := h m hm halone
  ⟨v, hv, Nat.le_trans hle hk⟩

/-- A tree and the trees right below it. -/
theorem partsStand_of_children (hchildren : ∀ child ∈ n.children, child.PartsStand k)
    (hself : n.kind.standsAlone = true → ∃ v, Derives .expression n v ∧ v.length ≤ k) :
    n.PartsStand k := by
  intro m hm halone
  cases hm with
  | self => exact hself halone
  | under hchild hm => exact hchildren _ hchild m hm halone

theorem partsStand_leaf {content : Content} {t : Text} (h : content.kind.standsAlone = false) :
    (leaf content t).PartsStand k := by
  refine partsStand_of_children (List.forall_mem_nil _) fun halone => ?_
  cases h.symm.trans halone

theorem partsStand_of_isNoise (h : n.isNoise = true) : n.PartsStand k := by
  cases n with
  | leaf content t =>
    refine partsStand_leaf ?_
    cases content <;> first | rfl | cases h
  | parent form children =>
    rw [isNoise_parent] at h
    cases h

theorem IsPart.partsStand (h : n.IsPart) : n.PartsStand k := by
  obtain ⟨content, t, rfl, -, hbuild⟩ := h
  refine partsStand_leaf ?_
  cases content <;> first | rfl | cases hbuild

end Node

open Node (PartsStand partsStand_of_children partsStand_leaf partsStand_of_isNoise)

/-- An operand stands alone as an expression. -/
theorem Derives.partsStand_of_children {n : Node} {w : List Rune} (h : Derives .operand n w)
    (hchildren : ∀ child ∈ n.children, child.PartsStand w.length) : n.PartsStand w.length :=
  Node.partsStand_of_children hchildren fun _ => ⟨w, h.alone, Nat.le_refl _⟩

/-! ### The cells of a range -/

/-- Every letter multiplies what stands in front of it by 26. -/
theorem Column.mul_pow_le_foldl_addLetter {k : Nat} {cs : List Char}
    (h : cs.foldl addLetter k ≤ maxColumn) : k * 26 ^ cs.length ≤ cs.foldl addLetter k := by
  induction cs generalizing k with
  | nil => simp
  | cons c cs ih =>
    rw [List.foldl_cons] at h ⊢
    have hmore := ih h
    by_cases hk : k ≤ maxColumn
    · rw [addLetter, if_pos hk] at hmore ⊢
      calc k * 26 ^ (cs.length + 1) = k * 26 * 26 ^ cs.length := by
            rw [Nat.pow_succ, Nat.mul_comm (26 ^ cs.length), Nat.mul_assoc]
        _ ≤ (k * 26 + letterValue c) * 26 ^ cs.length :=
            Nat.mul_le_mul_right _ (Nat.le_add_right ..)
        _ ≤ _ := hmore
    · -- A number that is too large stays as it is.
      rw [addLetter, if_neg hk] at hmore h
      exact absurd (Nat.le_trans (Nat.le_mul_of_pos_right k (Nat.pow_pos (by decide)))
        (Nat.le_trans hmore h)) hk

/-- A column has at most three letters. -/
theorem Column.length_le_of_parse {t : Text} {absolute : Bool} {cs : List Char} {column : Column}
    (hchars : t.chars = absoluteMark absolute ++ cs) (hletters : ∀ ch ∈ cs, isLetter ch = true)
    (h : Column.parse t = .ok column) : cs.length ≤ 3 := by
  have hmark : '$' ∉ cs := fun hmem => by cases hletters _ hmem
  have hbound : cs.foldl addLetter 0 ≤ maxColumn := by
    have hsplit : splitAbsolute t.chars = (absolute, cs) := by
      rw [hchars, splitAbsolute_mark absolute hmark]
    rw [Column.parse_eq] at h
    obtain ⟨-, hline⟩ := (Axis.parseLine_eq_ok_iff hsplit).1 h
    rw [ofNumber?] at hline
    split_ifs at hline with hbounds
    exact hbounds.2
  cases cs with
  | nil => exact Nat.zero_le _
  | cons c cs =>
    have hpos := Nat.pos_of_ne_zero (letterValue_ne_zero_iff.2 (hletters c (List.mem_cons_self ..)))
    have hfirst : addLetter 0 c = letterValue c := by
      rw [addLetter, if_pos (Nat.zero_le _), Nat.zero_mul, Nat.zero_add]
    rw [List.foldl_cons, hfirst] at hbound
    -- A fourth letter makes at least 26 ^ 3 of the first one, which is past the last column.
    by_contra hlong
    rw [List.length_cons, Nat.not_le, Nat.lt_succ_iff] at hlong
    have hpow : 26 ^ 3 ≤ 26 ^ cs.length := Nat.pow_le_pow_right (by decide) hlong
    have hmul := Nat.le_mul_of_pos_left (26 ^ cs.length) hpos
    have hmax : maxColumn < 26 ^ 3 := by decide
    have hfold := Column.mul_pow_le_foldl_addLetter hbound
    omega

namespace Rule

variable {c next : Cursor} {nodes : List Node} {n : Node} {w : List Rune}

/-- Where a cell stands, no boolean does: the booleans are too long for columns. -/
theorem boolean_absent_of_cell (h : cell c = (.found nodes, next)) : boolean c = (.absent, c) := by
  obtain ⟨column, mid, row, n, hcolumn, hrow, -, -, -, -⟩ :=
    readCell_found_iff.1 (cell_found_iff.1 h)
  obtain ⟨a, v, col, ha, hvne, hv, hapasses, hcol, -⟩ := readColumn_eq hcolumn
  obtain ⟨b, d, -, hb, hdne, hd, hbpasses, -, -⟩ := readRow_eq hrow
  obtain ⟨absolute, rfl⟩ : ∃ absolute, a = (absoluteMark absolute).map .scalar := by
    rcases ha with rfl | rfl
    · exact ⟨false, rfl⟩
    · exact ⟨true, rfl⟩
  obtain ⟨cs, rfl⟩ : ∃ cs : List Char, v = cs.map .scalar :=
    ⟨_, Text.eq_map_scalar fun r hr => Rune.isScalar_of_class (hv r hr) (by decide)⟩
  have hchars : (Text.ofRunes ((absoluteMark absolute).map .scalar ++ cs.map .scalar)).chars =
      absoluteMark absolute ++ cs := by
    rw [← List.map_append, Text.ofRunes_map_scalar, Text.chars_ofChars]
  have hlength := Column.length_le_of_parse hchars (List.forall_mem_map.1 hv) hcol
  have htext : IsCellText ((absoluteMark absolute).map .scalar) (cs.map .scalar) b d :=
    ⟨ha, hb, hvne, hv, hdne, hd⟩
  obtain ⟨pos, rest⟩ := c
  obtain rfl : rest = _ := (hapasses.trans hbpasses).rest
  exact boolean_absent_of_cellText htext (by simpa using hlength)

/-- A cell is a token, also inside a range. -/
theorem partsStand_cell (h : cell c = (.found nodes, next)) :
    ∃ n w, nodes = [n] ∧ c.Passes w next ∧ n.PartsStand w.length := by
  obtain ⟨n, w, rfl, hw, hn⟩ := readsToken_cell (boolean_absent_of_cell h) h
  refine ⟨n, w, rfl, hw, ?_⟩
  obtain ⟨_, heq, reference, parts, rfl, hparts⟩ := isCell_cell.found h
  obtain rfl := (List.cons.inj heq).1
  exact (Derives.token hn).partsStand_of_children fun part hpart => (hparts part hpart).partsStand

theorem partsStand_cellRange (h : cellRange c = (.found [n], next)) (hw : c.Passes w next)
    (hn : IsToken n w) : n.PartsStand w.length := by
  obtain ⟨children, m, hchildren, hm, heq⟩ := transform_found_iff.1 h
  obtain rfl := (List.cons.inj heq).1
  obtain ⟨_, _, _, _, _, hfirst, hcolon, hlast, rfl⟩ :=
    sequenceFrom_triple_found_iff.1 hchildren
  obtain ⟨first, u, rfl, hu, hfirstStands⟩ := partsStand_cell hfirst
  obtain ⟨rfl, hp⟩ := symbol_eq_leaf ⟨by decide, by decide⟩ hcolon
  obtain ⟨last, v, rfl, hv, hlastStands⟩ := partsStand_cell hlast
  obtain rfl := hw.unique (hu.trans (hp.trans hv))
  obtain ⟨_, _, _, _, -, -, rfl⟩ := Node.cellRange_eq_ok_iff.1 hm
  refine (Derives.token hn).partsStand_of_children (List.forall_iff_forall_mem.1 ?_)
  refine ⟨hfirstStands.mono ?_, partsStand_leaf rfl, hlastStands.mono ?_⟩
  all_goals
    simp only [List.length_append, List.length_cons]
    omega

end Rule

/-! ### Everything inside an expression -/

/-- Nothing but a token and the cells of a range is an expression inside a token. -/
theorem IsToken.partsStand {n : Node} {w : List Rune} (h : IsToken n w) :
    n.PartsStand w.length := by
  have hself := (Derives.token h).partsStand_of_children
  have hall : Cursor.Passes ⟨0, w⟩ w ⟨w.length, []⟩ :=
    ⟨(List.append_nil w).symm, (Nat.zero_add _).symm⟩
  -- A token is a single leaf, a number or quoted text with parts that are none, or refers to cells.
  rcases Rule.findsToken_of_isToken h with
    hquoted | herror | hnumber | hboolean | ⟨-, hrange | hcell | ⟨-, hlabel⟩⟩
  · obtain ⟨_, heq, hatom⟩ := Rule.atom_quotedText.found hquoted
    obtain rfl := (List.cons.inj heq).1
    obtain ⟨value, children, rfl, -⟩ := Rule.quoteText_of_isToken h hquoted
    cases hatom with
    | text hparts =>
      exact hself fun part hpart => (hparts part hpart).partsStand
  · obtain ⟨-, word, -, hnodes⟩ := Rule.errorLiteral_found_iff.1 herror
    obtain rfl := (List.cons.inj hnodes).1
    exact hself (List.forall_mem_nil _)
  · obtain ⟨d, children, hnodes, -, hparts⟩ := Rule.number_eq hnumber
    obtain rfl := (List.cons.inj hnodes).1
    exact hself fun part hpart => (Rule.isPart_of_isNumeral (hparts part hpart)).partsStand
  · obtain ⟨-, -, word, -, hnodes⟩ := Rule.boolean_found_iff.1 hboolean
    obtain rfl := (List.cons.inj hnodes).1
    exact hself (List.forall_mem_nil _)
  · exact Rule.partsStand_cellRange hrange hall h
  · obtain ⟨_, v, heq, hv, hstands⟩ := Rule.partsStand_cell hcell
    obtain rfl := (List.cons.inj heq).1
    rwa [hall.unique hv]
  · obtain ⟨-, -, -, -, -, -, hnodes⟩ := Rule.label_found_iff.1 hlabel
    obtain rfl := (List.cons.inj hnodes).1
    exact hself (List.forall_mem_nil _)

section Runs

variable {k : Nat} {n head : Node} {w : List Rune} {joined : List Joined}

theorem partsStand_spaces {s : List Rune} : ∀ m ∈ spaces s, m.PartsStand k := by
  unfold spaces
  split_ifs
  · exact List.forall_mem_nil _
  · exact List.forall_mem_singleton.2 (partsStand_leaf rfl)

theorem partsStand_symbolLeaf {s : Symbol} {sign : List Char} : (symbolLeaf s sign).PartsStand k :=
  partsStand_leaf rfl

theorem partsStand_joined (h : ∀ j ∈ joined, j.node.PartsStand k) :
    ∀ m ∈ joined.flatMap Joined.nodes, m.PartsStand k := by
  intro m hm
  obtain ⟨j, hj, hm⟩ := List.mem_flatMap.1 hm
  have hnodes : ∀ m ∈ j.nodes, m.PartsStand k := by
    simp only [Joined.nodes, List.forall_mem_append, List.forall_mem_cons, List.not_mem_nil,
      false_implies, implies_true, and_true]
    exact ⟨partsStand_spaces, partsStand_symbolLeaf, partsStand_spaces, h j hj⟩
  exact hnodes m hm

/-- Every operator of the tree of a run is the root of the tree of a run inside it. -/
theorem partsStand_ofRun (hhead : Derives .operand head w)
    (hby : ∀ j ∈ joined, j.IsBy operatorSigns)
    (hjoined : ∀ j ∈ joined, Derives .operand j.node j.written)
    (hheadStands : head.PartsStand k) (hstand : ∀ j ∈ joined, j.node.PartsStand k)
    (hk : (w ++ joined.flatMap Joined.runes).length ≤ k)
    (h : (OperatorTree.ofRun head (joined.map Joined.link)).node? = some n) : n.PartsStand k := by
  generalize hlinks : joined.map Joined.link = links at h
  -- Along the recursion of the tree: what stands in front of the root is a shorter run, and what
  -- stands behind it.
  induction head, links using Links.splitInduction generalizing joined w n with
  | nil head =>
    rw [OperatorTree.ofRun_nil] at h
    exact Option.some.inj h ▸ hheadStands
  | append head front root back hfront hback ihfront ihback =>
    have hself := Derives.of_run hhead hby hjoined (hlinks ▸ h)
    obtain ⟨before, j, rfl, rfl, hmore⟩ := List.map_eq_append_iff.1 hlinks
    obtain ⟨j, after, rfl, rfl, rfl⟩ := List.map_eq_cons_iff.1 hmore
    simp only [List.forall_mem_append, List.forall_mem_cons] at hby hjoined hstand
    rw [OperatorTree.ofRun_append _ hfront hback] at h
    obtain ⟨left, hleft, h⟩ := Option.bind_eq_some_iff.1 h
    obtain ⟨right, hright, h⟩ := Option.bind_eq_some_iff.1 h
    simp only [List.flatMap_append, List.flatMap_cons, List.length_append, Joined.runes] at hk
    have hleftStands := ihfront hhead hby.1 hjoined.1 hheadStands hstand.1
      (by rw [List.length_append]; omega) rfl hleft
    have hrightStands := ihback hjoined.2.1 hby.2.2 hjoined.2.2 hstand.2.1 hstand.2.2
      (by rw [List.length_append]; omega) rfl hright
    rw [Joint.join?_operator (hby.2.1.symbol_ne_between)] at h
    obtain ⟨op, -, rfl⟩ := Option.map_eq_some_iff.1 h
    refine partsStand_of_children ?_ fun _ => ⟨_, hself, ?_⟩
    · simp only [Node.children, List.forall_mem_cons, List.forall_mem_append, List.not_mem_nil,
        false_implies, implies_true, and_true]
      exact ⟨hleftStands, fun m hm => partsStand_of_isNoise (Node.isNoise_of_mem_joint hm),
        hrightStands⟩
    · simp only [List.flatMap_append, List.flatMap_cons, List.length_append, Joined.runes]
      omega

end Runs

/-- Every expression inside a derived tree is derived. -/
theorem Derives.partsStand {c : Category} {n : Node} {w : List Rune} (h : Derives c n w) :
    n.PartsStand w.length := by
  -- Every part is written within the text of the whole, which bounds what it is read from.
  induction h with
  | token h => exact h.partsStand
  | @negative s w n hs hn ih =>
    refine (Derives.negative hs hn).partsStand_of_children ?_
    simp only [Node.children, List.forall_mem_cons, List.forall_mem_append, List.not_mem_nil,
      false_implies, implies_true, and_true]
    refine ⟨partsStand_symbolLeaf, partsStand_spaces, ih.mono ?_⟩
    simp only [List.length_cons, List.length_append]
    omega
  | @group s t w n hs ht hn ih =>
    refine (Derives.group hs ht hn).partsStand_of_children ?_
    simp only [Node.children, List.forall_mem_cons, List.forall_mem_append, List.not_mem_nil,
      false_implies, implies_true, and_true]
    refine ⟨partsStand_symbolLeaf, partsStand_spaces, ih.mono ?_, partsStand_spaces,
      partsStand_symbolLeaf⟩
    simp only [List.length_cons, List.length_append]
    omega
  | @call f w n hf hn ih =>
    refine (Derives.call hf hn).partsStand_of_children (List.forall_iff_forall_mem.1 ?_)
    refine ⟨partsStand_leaf rfl, ih.mono ?_⟩
    rw [List.length_append]
    omega
  | @lambda f v w m n hf hlambda hm hn ihm ihn =>
    refine (Derives.lambda hf hlambda hm hn).partsStand_of_children
      (List.forall_iff_forall_mem.1 ?_)
    refine ⟨partsStand_leaf rfl, ihm.mono ?_, ihn.mono ?_⟩
    all_goals
      simp only [List.length_append]
      omega
  | @expression w head n joined hhead hby hjoined hn ih ihall =>
    refine partsStand_ofRun hhead hby hjoined (ih.mono ?_) (fun j hj => (ihall j hj).mono ?_)
      (Nat.le_refl _)
      ((reduce_joined_eq_ok_iff hhead.isNoise hby fun j hj => (hjoined j hj).isNoise).1 hn)
    · rw [List.length_append]
      omega
    · have hle := Rule.length_written_le hj
      rw [List.length_append]
      omega
  | @noArguments s hs =>
    refine Node.partsStand_of_children ?_ fun halone => absurd halone Bool.false_ne_true
    simp only [Node.children, List.forall_mem_cons, List.forall_mem_append, List.not_mem_nil,
      false_implies, implies_true, and_true]
    exact ⟨partsStand_symbolLeaf, partsStand_spaces, partsStand_symbolLeaf⟩
  | @arguments s t w first joined hs ht hfirst hby hjoined ih ihall =>
    refine Node.partsStand_of_children ?_ fun halone => absurd halone Bool.false_ne_true
    simp only [Node.children, List.forall_mem_cons, List.forall_mem_append, List.not_mem_nil,
      false_implies, implies_true, and_true]
    refine ⟨partsStand_symbolLeaf, partsStand_spaces, ⟨ih.mono ?_, partsStand_joined fun j hj =>
      (ihall j hj).mono ?_⟩, partsStand_spaces, partsStand_symbolLeaf⟩
    · simp only [List.length_cons, List.length_append]
      omega
    · have hle := Rule.length_written_le hj
      simp only [List.length_cons, List.length_append]
      omega

namespace Grammar

/-- An expression inside an expression is read alone as it was read in its place. -/
theorem parse_text_within (text : Text) (n m : Node) (h : american.parse .expression text = .ok n)
    (hm : m.Within n) (halone : m.kind.standsAlone = true) :
    american.parse .expression m.text = .ok m := by
  obtain ⟨hlength, -⟩ := length_of_parse h
  obtain ⟨c, hfound, -⟩ := found_of_parse h
  obtain ⟨_, w, hnodes, hw, hn⟩ := Rule.expression_sound (Text.settled_runes text) hfound
  obtain ⟨rfl, -⟩ := List.cons.inj hnodes
  obtain ⟨v, hv, hle⟩ := hn.partsStand m hm halone
  have hread := Rule.expression_finds hv (p := 0) (endsIn_of_blanks allBlank_nil)
  have hrest : text.runes = w ++ c.rest := hw.rest
  have hrunes := hv.written.runes
  refine parse_eq_ok_of_found ?_ (by rw [List.append_nil, ← hrunes] at hread; exact hread) rfl
  rw [hrest, List.length_append] at hlength
  rw [hrunes]
  omega

/-- The sum inside the parentheses of a product inside a difference. -/
theorem parse_text_within_sum : ∃ n m,
    american.parse .expression "x - (1e2 + $a$1:b2) * 3" = .ok n ∧ m.Within n ∧
    m.kind = .binary .addition ∧ m.text = ("1e2 + $a$1:b2" : Text) ∧
    american.parse .expression "1e2 + $a$1:b2" = .ok m := by
  have hcheck : (american.parse .expression "x - (1e2 + $a$1:b2) * 3").toOption.any (fun n =>
      n.children[4]?.any fun product => product.children[0]?.any fun group =>
        group.children[1]?.any fun m =>
          decide (m.kind = .binary .addition) && decide (m.text = ("1e2 + $a$1:b2" : Text))) =
            true := by
    decide +kernel
  obtain ⟨n, hn, hcheck⟩ := exists_ok_of_any hcheck
  obtain ⟨product, hproduct, hcheck⟩ := (Option.any_eq_true ..).1 hcheck
  obtain ⟨group, hgroup, hcheck⟩ := (Option.any_eq_true ..).1 hcheck
  obtain ⟨m, hsum, hcheck⟩ := (Option.any_eq_true ..).1 hcheck
  obtain ⟨hkind, htext⟩ := Bool.and_eq_true_iff.1 hcheck
  have hkind := of_decide_eq_true hkind
  have htext := of_decide_eq_true htext
  have hm : m.Within n := .child (List.mem_of_getElem? hproduct) <|
    .child (List.mem_of_getElem? hgroup) <| .child (List.mem_of_getElem? hsum) .self
  have hread := parse_text_within _ n m hn hm (by rw [hkind]; rfl)
  rw [htext] at hread
  exact ⟨n, m, hn, hm, hkind, htext, hread⟩

end Grammar

end SheetFormula
