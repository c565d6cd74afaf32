import Mathlib.Tactic.Common
import SheetFormula.Node.Reduce

/-!
# Operator precedence

A run of operands and operators stands for a tree: its root is the rightmost of the loosest
operators, and below it stand the trees of the parts before and after that operator.  `assemble`
builds that tree over any carrier, given what an operator makes of two operands.

The other way to build it is bottom up: join the leftmost of the tightest operators with its two
neighbours, `joinFirst`, and go on with the shorter run.  Both ways give the same,
`assemble_joinFirst`.

* `operatorTable`: the operators by how loosely they bind, with `Symbol.looseness` and
  `Symbol.made?` read off it;
* `Joint`: an operator symbol with the whitespace around it;
* `Links`: the operators of a run, each with the operand behind it;
* `OperatorTree`: the tree of a run, its operands and operators in order, and its node.
-/

namespace SheetFormula

/-! ### The operators -/

/-- The operators of a run, by how loosely they bind: the tightest stands in the first line, and the
loosest stand in the last.  Beside each is the kind of the node that it makes of its operands. -/
def operatorTable : List (List (Symbol × Kind)) :=
  [[(.between, .cellRange)],
    [(.power, .binary .power)],
    [(.multiply, .binary .multiplication), (.divide, .binary .division)],
    [(.plus, .binary .addition), (.minus, .binary .subtraction)],
    [(.equals, .binary (.comparison .equals)), (.notEquals, .binary (.comparison .notEquals)),
      (.greaterThan, .binary (.comparison .greaterThan)),
      (.greaterThanEquals, .binary (.comparison .greaterThanEquals)),
      (.lessThan, .binary (.comparison .lessThan)),
      (.lessThanEquals, .binary (.comparison .lessThanEquals))]]

namespace Symbol

/-- The kind of the nodes that an operator makes. -/
def made? (s : Symbol) : Option Kind := operatorTable.flatten.lookup s

/-- Whether a symbol is an operator. -/
def IsOperator (s : Symbol) : Prop := s.made?.isSome = true

instance (s : Symbol) : Decidable s.IsOperator := inferInstanceAs (Decidable (_ = true))

/-- How loosely an operator binds: the number of its line in the table. -/
def looseness (s : Symbol) : Nat := operatorTable.findIdx (fun line => (line.lookup s).isSome) + 1

end Symbol

/-- An operator symbol and the whitespace around it. -/
structure Joint where
  /-- The whitespace in front of the symbol. -/
  before : List Text
  symbol : Symbol
  text : Text
  /-- The whitespace behind the symbol. -/
  after : List Text

/-- The leaves of a joint. -/
def Joint.nodes (j : Joint) : List Node :=
  j.before.map (.leaf .whitespace) ++
    .leaf (.symbol j.symbol) j.text :: j.after.map (.leaf .whitespace)

/-- How loosely the operator of a joint binds. -/
def Joint.looseness (j : Joint) : Nat := j.symbol.looseness

/-- The operators of a run, each with the operand behind it. -/
abbrev Links (α : Type) := List (Joint × α)

/-! ### Top down -/

namespace Links

variable {α β : Type} {links front back : Links α} {root : Joint × α}

/-- The rightmost of the loosest operators, with what is in front of it and what is behind. -/
def splitLoosest : Links α → Option (Links α × (Joint × α) × Links α)
  | [] => none
  | link :: rest =>
    match splitLoosest rest with
    | none => some ([], link, [])
    | some (front, root, back) =>
      if root.1.looseness < link.1.looseness then some ([], link, rest)
      else some (link :: front, root, back)

@[simp] theorem splitLoosest_eq_none_iff : splitLoosest links = none ↔ links = [] := by
  cases links with
  | nil => simp [splitLoosest]
  | cons link rest =>
    simp only [splitLoosest]
    split
    · simp
    · split_ifs <;> simp

/-- What comes out of `splitLoosest`: the parts, and how loosely they bind. -/
theorem splitLoosest_eq_some (h : splitLoosest links = some (front, root, back)) :
    links = front ++ root :: back ∧ (∀ l ∈ front, l.1.looseness ≤ root.1.looseness) ∧
      ∀ l ∈ back, l.1.looseness < root.1.looseness := by
  induction links generalizing front root back with
  | nil => cases h
  | cons link rest ih =>
    simp only [splitLoosest] at h
    split at h
    · rename_i hrest
      cases h
      rw [splitLoosest_eq_none_iff.1 hrest]
      simp
    · rename_i front' root' back' hrest
      obtain ⟨hparts, hfront, hback⟩ := ih hrest
      split_ifs at h with hlink
      · cases h
        refine ⟨rfl, by simp, fun l hl => ?_⟩
        rw [hparts, List.mem_append, List.mem_cons] at hl
        rcases hl with hl | rfl | hl
        · exact Nat.lt_of_le_of_lt (hfront l hl) hlink
        · exact hlink
        · exact Nat.lt_trans (hback l hl) hlink
      · cases h
        refine ⟨by rw [hparts]; rfl, ?_, hback⟩
        simp only [List.forall_mem_cons]
        exact ⟨Nat.le_of_not_lt hlink, hfront⟩

/-- The parts are determined by how loosely they bind. -/
theorem splitLoosest_append (hfront : ∀ l ∈ front, l.1.looseness ≤ root.1.looseness)
    (hback : ∀ l ∈ back, l.1.looseness < root.1.looseness) :
    splitLoosest (front ++ root :: back) = some (front, root, back) := by
  induction front with
  | nil =>
    simp only [List.nil_append, splitLoosest]
    split
    · rename_i hnone
      rw [splitLoosest_eq_none_iff.1 hnone]
    · rename_i front' root' back' hsome
      obtain ⟨hparts, -, -⟩ := splitLoosest_eq_some hsome
      rw [if_pos (hback root' (by simp [hparts]))]
  | cons link front ih =>
    simp only [List.forall_mem_cons] at hfront
    simp only [List.cons_append, splitLoosest, ih hfront.2]
    rw [if_neg (Nat.not_lt.2 hfront.1)]

end Links

/-- The value of a run: the rightmost of the loosest operators joins the values of the parts before
and after it. -/
def assemble {α : Type} (join : α → Joint → α → α) (head : α) (links : Links α) : α :=
  match h : links.splitLoosest with
  | none => head
  | some (front, root, back) =>
    have : front.length < links.length ∧ back.length < links.length := by
      rw [(Links.splitLoosest_eq_some h).1]
      simp
      omega
    join (assemble join head front) root.1 (assemble join root.2 back)
termination_by links.length
decreasing_by
  · exact this.1
  · exact this.2

section Assemble

variable {α β : Type} {join : α → Joint → α → α} {head : α} {links front back : Links α}
  {root : Joint × α}

@[simp] theorem assemble_nil : assemble join head [] = head := by
  rw [assemble]
  split
  · rfl
  · rename_i h
    cases h

theorem assemble_append (root : Joint × α) (hfront : ∀ l ∈ front, l.1.looseness ≤ root.1.looseness)
    (hback : ∀ l ∈ back, l.1.looseness < root.1.looseness) :
    assemble join head (front ++ root :: back) =
      join (assemble join head front) root.1 (assemble join root.2 back) := by
  have hsplit := Links.splitLoosest_append hfront hback
  rw [assemble]
  split
  · rename_i hnone
    rw [hsplit] at hnone
    cases hnone
  · rename_i hsome
    rw [hsplit] at hsome
    cases hsome
    rfl

/-- Induction along the recursion of `assemble`: a run without operators, and a run whose rightmost
loosest operator stands between two shorter runs. -/
theorem Links.splitInduction {motive : α → Links α → Prop} (nil : ∀ head, motive head [])
    (append : ∀ head front root back, (∀ l ∈ front, l.1.looseness ≤ root.1.looseness) →
      (∀ l ∈ back, l.1.looseness < root.1.looseness) → motive head front → motive root.2 back →
      motive head (front ++ root :: back)) (head : α) (links : Links α) : motive head links := by
  generalize hlength : links.length = length
  induction length using Nat.strongRecOn generalizing head links with
  | _ length ih =>
    cases hsplit : links.splitLoosest with
    | none =>
      rw [splitLoosest_eq_none_iff.1 hsplit]
      exact nil head
    | some parts =>
      obtain ⟨front, root, back⟩ := parts
      obtain ⟨rfl, hfront, hback⟩ := splitLoosest_eq_some hsplit
      simp only [List.length_append, List.length_cons] at hlength
      exact append head front root back hfront hback (ih front.length (by omega) head front rfl)
        (ih back.length (by omega) root.2 back rfl)

/-- A map that respects what operators do respects what runs stand for. -/
theorem map_assemble (join' : β → Joint → β → β) (f : α → β)
    (hf : ∀ a j b, f (join a j b) = join' (f a) j (f b)) (head : α) (links : Links α) :
    f (assemble join head links) = assemble join' (f head) (links.map (Prod.map id f)) := by
  induction head, links using Links.splitInduction with
  | nil head => simp
  | append head front root back hfront hback ihfront ihback =>
    rw [assemble_append root hfront hback, hf, ihfront, ihback, List.map_append, List.map_cons,
      assemble_append (Prod.map id f root)]
    · rfl
    · exact List.forall_mem_map.2 hfront
    · exact List.forall_mem_map.2 hback

/-! ### Bottom up -/

/-- Joins the first operator of looseness `p` with the operands around it. -/
def joinFirst (join : α → Joint → α → α) (p : Nat) (head : α) : Links α → α × Links α
  | [] => (head, [])
  | (j, x) :: rest =>
    if j.looseness = p then (join head j x, rest)
    else (head, (j, (joinFirst join p x rest).1) :: (joinFirst join p x rest).2)

/-- Joining keeps joints and drops one. -/
theorem exists_mem_of_mem_joinFirst {p : Nat} {l : Joint × α}
    (h : l ∈ (joinFirst join p head links).2) : ∃ l' ∈ links, l'.1 = l.1 := by
  induction links generalizing head with
  | nil => cases h
  | cons link rest ih =>
    obtain ⟨j, x⟩ := link
    simp only [joinFirst] at h
    split_ifs at h
    · exact ⟨l, List.mem_cons_of_mem _ h, rfl⟩
    · rcases List.mem_cons.1 h with rfl | h
      · exact ⟨(j, x), List.mem_cons_self .., rfl⟩
      · obtain ⟨l', hl', heq⟩ := ih h
        exact ⟨l', List.mem_cons_of_mem _ hl', heq⟩

/-- An operator found in the front part is joined there. -/
theorem joinFirst_append_of_mem {p : Nat} (h : ∃ l ∈ front, l.1.looseness = p) :
    joinFirst join p head (front ++ back) =
      ((joinFirst join p head front).1, (joinFirst join p head front).2 ++ back) := by
  induction front generalizing head with
  | nil => simp at h
  | cons link front ih =>
    obtain ⟨j, x⟩ := link
    simp only [List.cons_append, joinFirst]
    split_ifs with hj
    · rfl
    · have hmore : ∃ l ∈ front, l.1.looseness = p := by simpa [hj] using h
      simp [ih hmore]

/-- An operator that is not in the front part is joined behind it. -/
theorem joinFirst_append_cons {p : Nat} (h : ∀ l ∈ front, l.1.looseness ≠ p)
    (hroot : root.1.looseness ≠ p) :
    joinFirst join p head (front ++ root :: back) =
      (head, front ++ (root.1, (joinFirst join p root.2 back).1) ::
        (joinFirst join p root.2 back).2) := by
  induction front generalizing head with
  | nil => simp [joinFirst, hroot]
  | cons link front ih =>
    simp only [List.forall_mem_cons] at h
    simp [joinFirst, h.1, ih h.2]

/-- Joining the leftmost of the tightest operators first does not change what a run stands for. -/
theorem assemble_joinFirst {p : Nat} (hp : ∀ l ∈ links, p ≤ l.1.looseness) :
    assemble join (joinFirst join p head links).1 (joinFirst join p head links).2 =
      assemble join head links := by
  induction head, links using Links.splitInduction with
  | nil head => rfl
  | append head front root back hfront hback ihfront ihback =>
    simp only [List.mem_append, List.mem_cons] at hp
    have hpfront : ∀ l ∈ front, p ≤ l.1.looseness := fun l hl => hp l (.inl hl)
    have hpback : ∀ l ∈ back, p ≤ l.1.looseness := fun l hl => hp l (.inr (.inr hl))
    rw [assemble_append root hfront hback]
    by_cases hmem : ∃ l ∈ front, l.1.looseness = p
    · -- The operator is joined in front of the root, which stays the root.
      rw [joinFirst_append_of_mem hmem, assemble_append root _ hback, ihfront hpfront]
      intro l hl
      obtain ⟨l', hl', heq⟩ := exists_mem_of_mem_joinFirst hl
      rw [← heq]
      exact hfront l' hl'
    · simp only [not_exists, not_and] at hmem
      by_cases hroot : root.1.looseness = p
      · -- No operator is tighter or looser than the root, and it is the leftmost: it is alone.
        have hnofront : front = [] := List.eq_nil_iff_forall_not_mem.2 fun l hl =>
          hmem l hl (Nat.le_antisymm (hroot ▸ hfront l hl) (hpfront l hl))
        have hnoback : back = [] := List.eq_nil_iff_forall_not_mem.2 fun l hl =>
          absurd (hback l hl) (Nat.not_lt.2 (hroot ▸ hpback l hl))
        subst hnofront hnoback
        simp [joinFirst, hroot]
      · -- The operator is joined behind the root.
        rw [joinFirst_append_cons hmem hroot,
          assemble_append (root.1, (joinFirst join p root.2 back).1) hfront, ihback hpback]
        intro l hl
        obtain ⟨l', hl', heq⟩ := exists_mem_of_mem_joinFirst hl
        rw [← heq]
        exact hback l' hl'

end Assemble

/-! ### The tree of a run of nodes -/

/-- The nodes of a run, in order. -/
def runOf (head : Node) (links : Links Node) : List Node :=
  head :: links.flatMap fun l => l.1.nodes ++ [l.2]

/-- The node of an operator: the two operands with the joint between them are its children. -/
def Joint.join? (j : Joint) (left right : Node) : Option Node :=
  let children := left :: (j.nodes ++ [right])
  match j.symbol.made? with
  | some (.binary op) => some (.parent (.binary op) children)
  | some .cellRange =>
    match left, right with
    | .parent (.cell first) _, .parent (.cell last) _ =>
      some (.parent (.cellRange ⟨first, last⟩) children)
    | _, _ => none
  | _ => none

namespace Joint

variable {j : Joint} {left right n : Node}

theorem join?_between_eq_some_iff (h : j.symbol = .between) :
    j.join? left right = some n ↔
      ∃ first ns last ms, left = .parent (.cell first) ns ∧ right = .parent (.cell last) ms ∧
        n = .parent (.cellRange ⟨first, last⟩) (left :: (j.nodes ++ [right])) := by
  have hmade : j.symbol.made? = some .cellRange := by rw [h]; rfl
  simp only [join?, hmade]
  split
  · simp [eq_comm]
  · rename_i hcells
    simp only [reduceCtorEq, false_iff]
    rintro ⟨first, ns, last, ms, rfl, rfl, -⟩
    exact hcells first ns last ms rfl rfl

theorem join?_operator (h : j.symbol ≠ .between) :
    j.join? left right =
      (Operator.ofSymbol? j.symbol).map fun op =>
        .parent (.binary op) (left :: (j.nodes ++ [right])) := by
  have hmade : j.symbol.made? = (Operator.ofSymbol? j.symbol).map .binary := by
    cases hs : j.symbol <;> first | rfl | exact absurd hs h
  unfold join?
  rw [hmade]
  cases Operator.ofSymbol? j.symbol with
  | none => rfl
  | some op => rfl

end Joint

/-- Operands with the operators that join them. -/
inductive OperatorTree
  | operand (n : Node)
  | operator (left : OperatorTree) (joint : Joint) (right : OperatorTree)

namespace OperatorTree

/-- The tree of a run: at its root the rightmost of the loosest operators. -/
def ofRun (head : Node) (links : Links Node) : OperatorTree :=
  assemble operator (operand head) (links.map (Prod.map id operand))

/-- The operands, operators and whitespace of a tree from left to right. -/
def inOrder : OperatorTree → List Node
  | operand n => [n]
  | operator left joint right => left.inOrder ++ joint.nodes ++ right.inOrder

/-- The node that a tree is, if every operator fits its operands. -/
def node? : OperatorTree → Option Node
  | operand n => some n
  | operator left joint right => do joint.join? (← left.node?) (← right.node?)

end OperatorTree

/-- The node of an operator whose operands may be missing. -/
def joinPresent (left : Option Node) (j : Joint) (right : Option Node) : Option Node := do
  j.join? (← left) (← right)

namespace OperatorTree

variable {head : Node} {links : Links Node}

@[simp] theorem ofRun_nil : ofRun head [] = operand head := assemble_nil

/-- The rightmost of the loosest operators of a run is the root of its tree. -/
theorem ofRun_append {front back : Links Node} (root : Joint × Node)
    (hfront : ∀ l ∈ front, l.1.looseness ≤ root.1.looseness)
    (hback : ∀ l ∈ back, l.1.looseness < root.1.looseness) :
    ofRun head (front ++ root :: back) =
      operator (ofRun head front) root.1 (ofRun root.2 back) := by
  rw [ofRun, List.map_append, List.map_cons, assemble_append (Prod.map id operand root)]
  · rfl
  · exact List.forall_mem_map.2 hfront
  · exact List.forall_mem_map.2 hback

theorem assemble_append_lists (head : List Node) (links : Links (List Node)) :
    assemble (fun a j b => a ++ j.nodes ++ b) head links =
      head ++ links.flatMap fun l => l.1.nodes ++ l.2 := by
  induction head, links using Links.splitInduction with
  | nil head => simp
  | append head front root back hfront hback ihfront ihback =>
    rw [assemble_append root hfront hback, ihfront, ihback]
    simp

/-- The tree of a run has the operands, operators and whitespace of the run in their order. -/
theorem inOrder_ofRun : (ofRun head links).inOrder = runOf head links := by
  rw [ofRun, map_assemble (fun a j b => a ++ j.nodes ++ b) inOrder fun _ _ _ => rfl,
    assemble_append_lists]
  simp [inOrder, runOf, List.flatMap_map]

/-- The node of the tree of a run can be computed without the tree. -/
theorem node?_ofRun :
    (ofRun head links).node? = assemble joinPresent (some head) (links.map (Prod.map id some)) := by
  rw [ofRun, map_assemble joinPresent node? fun _ _ _ => rfl, List.map_map]
  rfl

/-- A missing operand leaves nothing of a run. -/
theorem assemble_joinPresent_none {head : Option Node} {links : Links (Option Node)}
    (h : head = none ∨ ∃ l ∈ links, l.2 = none) : assemble joinPresent head links = none := by
  induction head, links using Links.splitInduction with
  | nil head => simpa using h
  | append head front root back hfront hback ihfront ihback =>
    rw [assemble_append root hfront hback]
    have hparts : (head = none ∨ ∃ l ∈ front, l.2 = none) ∨
        (root.2 = none ∨ ∃ l ∈ back, l.2 = none) := by
      simpa [or_assoc, or_and_right, exists_or] using h
    rcases hparts with hleft | hright
    · simp [joinPresent, ihfront hleft]
    · simp [joinPresent, ihback hright]

/-- Joins the first operator of looseness `p` with the operands around it, if it fits them. -/
def joinFirst? (p : Nat) (head : Node) : Links Node → Option (Node × Links Node)
  | [] => some (head, [])
  | (j, right) :: rest =>
    if j.looseness = p then (j.join? head right).map (·, rest)
    else (joinFirst? p right rest).map fun run => (head, (j, run.1) :: run.2)

/-- `joinFirst?` is `joinFirst` where that leaves no operand missing. -/
theorem joinFirst_present (p : Nat) (head : Node) (links : Links Node) :
    match joinFirst? p head links with
    | some (head', links') =>
      joinFirst joinPresent p (some head) (links.map (Prod.map id some)) =
        (some head', links'.map (Prod.map id some))
    | none =>
      (joinFirst joinPresent p (some head) (links.map (Prod.map id some))).1 = none ∨
        ∃ l ∈ (joinFirst joinPresent p (some head) (links.map (Prod.map id some))).2,
          l.2 = none := by
  induction links generalizing head with
  | nil => rfl
  | cons link rest ih =>
    obtain ⟨j, right⟩ := link
    -- Where the operator is found the run is joined or lacks its head; else nothing changes up to
    -- there.
    by_cases hj : j.looseness = p
    · cases hjoin : j.join? head right with
      | none => simp [joinFirst?, joinFirst, hj, joinPresent, hjoin]
      | some n => simp [joinFirst?, joinFirst, hj, joinPresent, hjoin]
    · specialize ih right
      cases hrest : joinFirst? p right rest with
      | none =>
        rw [hrest] at ih
        simpa [joinFirst?, joinFirst, hj, hrest] using ih
      | some run =>
        rw [hrest] at ih
        simp [joinFirst?, joinFirst, hj, hrest, ih]

/-- Joining the leftmost of the tightest operators first does not change the node of a run. -/
theorem node?_ofRun_eq_bind {p : Nat} (hp : ∀ l ∈ links, p ≤ l.1.looseness) :
    (ofRun head links).node? =
      (joinFirst? p head links).bind fun run => (ofRun run.1 run.2).node? := by
  have hp' : ∀ l ∈ links.map (Prod.map id (some : Node → Option Node)), p ≤ l.1.looseness :=
    List.forall_mem_map.2 hp
  have hpresent := joinFirst_present p head links
  rw [node?_ofRun, ← assemble_joinFirst hp']
  cases hjoin : joinFirst? p head links with
  | none =>
    rw [hjoin] at hpresent
    exact assemble_joinPresent_none hpresent
  | some run =>
    rw [hjoin] at hpresent
    rw [hpresent]
    exact node?_ofRun.symm

end OperatorTree

end SheetFormula
