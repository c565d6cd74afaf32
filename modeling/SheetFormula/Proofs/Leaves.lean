import SheetFormula.Node.Basic

/-!
# The leaves of a tree

A tree spells the texts of its leaves from left to right.
-/

namespace SheetFormula.Node

/-- `m` is `n` or stands somewhere below it. -/
inductive Within (m : Node) : Node → Prop
  | self : Within m m
  | under {form : Form} {children : List Node} {child : Node} :
      child ∈ children → Within m child → Within m (.parent form children)

theorem Within.child {m n child : Node} (h : child ∈ n.children) (hm : m.Within child) :
    m.Within n := by
  cases n with
  | leaf content text => cases h
  | parent form children => exact .under h hm

mutual

/-- The leaves of a tree from left to right. -/
def leaves : Node → List (Content × Text)
  | leaf content text => [(content, text)]
  | parent _ children => leavesOfAll children

/-- The leaves of trees from left to right. -/
def leavesOfAll : List Node → List (Content × Text)
  | [] => []
  | n :: rest => leaves n ++ leavesOfAll rest

end

@[simp] theorem leaves_leaf (content : Content) (text : Text) :
    (leaf content text).leaves = [(content, text)] := by rw [leaves]

@[simp] theorem leaves_parent (form : Form) (children : List Node) :
    (parent form children).leaves = leavesOfAll children := by rw [leaves]

@[simp] theorem leavesOfAll_nil : leavesOfAll [] = [] := by rw [leavesOfAll]

@[simp] theorem leavesOfAll_cons (n : Node) (ns : List Node) :
    leavesOfAll (n :: ns) = n.leaves ++ leavesOfAll ns := by rw [leavesOfAll]

@[simp] theorem leavesOfAll_append (ns ms : List Node) :
    leavesOfAll (ns ++ ms) = leavesOfAll ns ++ leavesOfAll ms := by
  induction ns with
  | nil => simp
  | cons n ns ih => simp [ih]

theorem isNoise_parent (form : Form) (children : List Node) :
    (parent form children).isNoise = false := by
  cases form <;> rfl

/-- No leaf of the tree is whitespace. -/
def IsSolid (n : Node) : Prop := ∀ l ∈ n.leaves, l.1 ≠ .whitespace

@[simp] theorem isSolid_leaf {content : Content} {text : Text} :
    (leaf content text).IsSolid ↔ content ≠ .whitespace := by
  simp [IsSolid]

theorem mem_leavesOfAll {l : Content × Text} {ns : List Node} :
    l ∈ leavesOfAll ns ↔ ∃ n ∈ ns, l ∈ n.leaves := by
  induction ns with
  | nil => simp
  | cons n ns ih => simp [ih]

@[simp] theorem isSolid_parent {form : Form} {children : List Node} :
    (parent form children).IsSolid ↔ ∀ child ∈ children, child.IsSolid := by
  simp only [IsSolid, leaves_parent, mem_leavesOfAll]
  exact ⟨fun h child hchild l hl => h l ⟨child, hchild, hl⟩,
    fun h l ⟨child, hchild, hl⟩ => h child hchild l hl⟩

/-- Nodes spell the concatenation of their texts. -/
theorem textOfAll_eq_join (ns : List Node) : textOfAll ns = .join (ns.map text) := by
  induction ns with
  | nil => rfl
  | cons n ns ih =>
    rw [textOfAll_cons, ih]
    rfl

theorem join_append (ss ts : List Text) : Text.join (ss ++ ts) = Text.join ss ++ Text.join ts := by
  simp only [Text.join, List.flatMap_append]
  rfl

mutual

/-- A tree spells the texts of its leaves. -/
theorem text_eq_join_leaves (n : Node) : n.text = .join (n.leaves.map Prod.snd) := by
  match n with
  | leaf content text => simp [Text.join]
  | parent form children =>
    rw [text_parent, leaves_parent]
    exact textOfAll_eq_join_leaves children

/-- Trees spell the texts of their leaves. -/
theorem textOfAll_eq_join_leaves (ns : List Node) :
    textOfAll ns = .join ((leavesOfAll ns).map Prod.snd) := by
  match ns with
  | [] => simp [Text.join, Text.empty]
  | n :: rest =>
    rw [textOfAll_cons, leavesOfAll_cons, List.map_append, join_append, text_eq_join_leaves n,
      textOfAll_eq_join_leaves rest]

end

end SheetFormula.Node
