import Mathlib.Tactic.Common
import Mathlib.Tactic.SplitIfs
import Std.Data.HashMap.Lemmas
import Std.Data.HashSet.Lemmas

/-!
# Maps of sets

A table keeps, for each entry, the set of its cells and the set of its labels, and for each label
the set of its users.  A member is added to the set of its index, which is made when it is missing,
and dropped from it, and a set that becomes empty is dropped with its last member.

* `InSet`: membership in the set of an index;
* `NoEmptySet`: the maps that have a set only where it has a member;
* `addMember`, `dropMember`: the two changes, with what they do to both.
-/

namespace SheetFormula

section SetMap

variable {α β : Type} [BEq α] [Hashable α] [LawfulBEq α] [BEq β] [Hashable β] [LawfulBEq β]
  {m : Std.HashMap α (Std.HashSet β)} {a x : α} {b y : β}

/-- `b` is in the set that the map has for `a`. -/
def InSet (m : Std.HashMap α (Std.HashSet β)) (a : α) (b : β) : Prop := b ∈ m.getD a ∅

/-- No set in the map is empty. -/
def NoEmptySet (m : Std.HashMap α (Std.HashSet β)) : Prop :=
  ∀ ⦃a : α⦄ ⦃s : Std.HashSet β⦄, m[a]? = some s → s.isEmpty = false

/-- The map with `b` in the set for `a`. -/
def addMember (m : Std.HashMap α (Std.HashSet β)) (a : α) (b : β) : Std.HashMap α (Std.HashSet β) :=
  m.insert a ((m.getD a ∅).insert b)

/-- The map without `b` in the set for `a`, and without that set when nothing is left in it. -/
def dropMember (m : Std.HashMap α (Std.HashSet β)) (a : α) (b : β) :
    Std.HashMap α (Std.HashSet β) :=
  match m[a]? with
  | some s => if (s.erase b).isEmpty then m.erase a else m.insert a (s.erase b)
  | none => m

theorem inSet_addMember : InSet (addMember m a b) x y ↔ (x = a ∧ y = b) ∨ InSet m x y := by
  rw [InSet, addMember, Std.HashMap.getD_insert, InSet]
  by_cases hx : a = x
  · subst hx
    simp [eq_comm (a := b)]
  · simp [hx, Ne.symm hx]

omit [LawfulBEq β] in
theorem inSet_erase : InSet (m.erase a) x y ↔ x ≠ a ∧ InSet m x y := by
  rw [InSet, Std.HashMap.getD_erase, InSet]
  by_cases hx : a = x
  · simp [hx]
  · simp [hx, Ne.symm hx]

theorem inSet_dropMember : InSet (dropMember m a b) x y ↔ InSet m x y ∧ ¬ (x = a ∧ y = b) := by
  unfold dropMember
  split
  next s hs =>
    have hget : m.getD a ∅ = s := by rw [Std.HashMap.getD_eq_getD_getElem?, hs, Option.getD_some]
    split
    next hempty =>
      -- the whole set goes, but there was nothing else in it
      have honly : ∀ z, z ∈ s → z = b := by
        intro z hz
        by_contra hne
        exact Std.HashSet.isEmpty_iff_forall_not_mem.1 hempty z
          (Std.HashSet.mem_erase.2 ⟨by simpa using Ne.symm hne, hz⟩)
      rw [inSet_erase, and_comm (a := x ≠ a)]
      refine and_congr_right fun hy => not_congr ⟨fun hx => ⟨hx, ?_⟩, And.left⟩
      subst hx
      exact honly y (hget ▸ hy)
    next =>
      rw [InSet, Std.HashMap.getD_insert, InSet]
      by_cases hx : a = x
      · subst hx
        simp [hget, eq_comm (a := b), and_comm]
      · simp [hx, Ne.symm hx]
  next hs =>
    refine (and_iff_left_of_imp ?_).symm
    rintro hy ⟨rfl, -⟩
    rw [InSet, Std.HashMap.getD_eq_getD_getElem?, hs, Option.getD_none] at hy
    exact Std.HashSet.not_mem_empty hy

omit [LawfulBEq β] in
theorem getElem?_dropMember_of_ne (hx : x ≠ a) : (dropMember m a b)[x]? = m[x]? := by
  have hbeq : ¬ (a == x) = true := by simpa using Ne.symm hx
  unfold dropMember
  split
  · split_ifs
    · rw [Std.HashMap.getElem?_erase, if_neg hbeq]
    · rw [Std.HashMap.getElem?_insert, if_neg hbeq]
  · rfl

omit [LawfulBEq β] in
theorem getElem?_dropMember_self {s : Std.HashSet β} (hs : m[a]? = some s)
    (hrest : ¬ (s.erase b).isEmpty = true) : (dropMember m a b)[a]? = some (s.erase b) := by
  simp only [dropMember, hs, if_neg hrest, Std.HashMap.getElem?_insert_self]

theorem NoEmptySet.addMember (h : NoEmptySet m) (a : α) (b : β) : NoEmptySet (addMember m a b) := by
  intro x s hs
  rw [SheetFormula.addMember, Std.HashMap.getElem?_insert] at hs
  split_ifs at hs
  · cases hs
    exact Std.HashSet.isEmpty_eq_false_iff_exists_mem.2 ⟨b, by simp⟩
  · exact h hs

omit [LawfulBEq β] in
theorem NoEmptySet.erase (h : NoEmptySet m) (a : α) : NoEmptySet (m.erase a) := by
  intro x s hs
  rw [Std.HashMap.getElem?_erase] at hs
  split_ifs at hs
  exact h hs

omit [LawfulBEq β] in
theorem NoEmptySet.dropMember (h : NoEmptySet m) (a : α) (b : β) :
    NoEmptySet (dropMember m a b) := by
  unfold SheetFormula.dropMember
  split
  · split_ifs with hempty
    · exact h.erase a
    · intro x s hs
      rw [Std.HashMap.getElem?_insert] at hs
      split_ifs at hs
      · cases hs
        exact Bool.eq_false_iff.2 hempty
      · exact h hs
  · exact h

/-- Where no set is empty, a set is there as soon as something is in it. -/
theorem NoEmptySet.isSome_iff (h : NoEmptySet m) : m[a]?.isSome = true ↔ ∃ b, InSet m a b := by
  simp only [InSet, Std.HashMap.getD_eq_getD_getElem?]
  cases hs : m[a]? with
  | none => simp
  | some s => simpa using Std.HashSet.isEmpty_eq_false_iff_exists_mem.1 (h hs)

end SetMap

end SheetFormula
