import Mathlib.Data.List.TakeWhile
import SheetFormula.Node.Reduce
import SheetFormula.Proofs.Build
import SheetFormula.Proofs.Leaves

/-!
# What a round of folding does

Every round of `Node.reduce` replaces some neighbouring nodes by one parent with these children.
What is kept by such a step is kept by the whole reduction, `Node.reduce_keeps`.
-/

namespace SheetFormula.Node

variable {nodes before after span : List Node} {operator n : Node}

/-- What folds is built by a constructor of parents from the nodes around the operator. -/
theorem fold_eq_ok {kind : Kind} (h : fold kind span = .ok n) :
    ∃ b : Builder, b.buildFull span = .ok n := by
  unfold fold at h
  split at h
  · exact ⟨.cellRange, h⟩
  · split at h
    · rename_i op _
      exact ⟨.binary (.binary op), h⟩
    · cases h
  · cases h

/-- Folding around an operator replaces the nodes from its left to its right operand. -/
theorem foldAround_eq_ok (h : foldAround before operator after = .ok nodes) :
    ∃ outerBefore left spaceBefore spaceAfter right outerAfter,
      before = spaceBefore ++ left :: outerBefore ∧ after = spaceAfter ++ right :: outerAfter ∧
      (∀ s ∈ spaceBefore, s.isWhitespace = true) ∧ left.isWhitespace = false ∧
      (∀ s ∈ spaceAfter, s.isWhitespace = true) ∧ right.isWhitespace = false ∧
      ∃ folded, fold operator.kind
          (left :: spaceBefore.reverse ++ operator :: (spaceAfter ++ [right])) = .ok folded ∧
        nodes = outerBefore.reverse ++ folded :: outerAfter := by
  unfold foldAround at h
  split at h
  · rename_i left outerBefore right outerAfter hleft hright
    obtain ⟨folded, hfolded, hnodes⟩ := bind_eq_ok_iff.1 h
    cases hnodes
    -- The whitespace on either side is what `dropWhile` has dropped to get at the operand.
    refine ⟨outerBefore, left, before.takeWhile isWhitespace, after.takeWhile isWhitespace, right,
      outerAfter, ?_, ?_, ?_, ?_, ?_, ?_, folded, hfolded, rfl⟩
    · rw [← hleft, List.takeWhile_append_dropWhile]
    · rw [← hright, List.takeWhile_append_dropWhile]
    · exact fun s hs => List.mem_takeWhile_imp hs
    · have hne : before.dropWhile isWhitespace ≠ [] := by simp [hleft]
      simpa [hleft] using List.head_dropWhile_not isWhitespace hne
    · exact fun s hs => List.mem_takeWhile_imp hs
    · have hne : after.dropWhile isWhitespace ≠ [] := by simp [hright]
      simpa [hright] using List.head_dropWhile_not isWhitespace hne
  · cases h

/-- A round replaces neighbouring nodes by one parent, or finds nothing to do. -/
theorem foldFirst_eq_ok {p : Nat} {result : List Node} (h : foldFirst p before nodes = .ok result) :
    result = before.reverse ++ nodes ∨
      ∃ (outer span rest : List Node) (n : Node) (b : Builder),
        before.reverse ++ nodes = outer ++ span ++ rest ∧ b.buildFull span = .ok n ∧
        result = outer ++ n :: rest := by
  induction nodes generalizing before with
  | nil =>
    cases h
    exact .inl (List.append_nil _).symm
  | cons m nodes ih =>
    unfold foldFirst at h
    split_ifs at h
    · obtain ⟨outerBefore, left, spaceBefore, spaceAfter, right, outerAfter, rfl, rfl, -, -, -, -,
        folded, hfolded, rfl⟩ := foldAround_eq_ok h
      obtain ⟨b, hb⟩ := fold_eq_ok hfolded
      exact .inr ⟨outerBefore.reverse, _, outerAfter, folded, b, by simp, hb, rfl⟩
    · simpa using ih h

/-- A property of runs of nodes that survives the replacement of neighbours by their parent holds of
the tree that a run reduces to. -/
theorem reduce_keeps {P : List Node → Prop}
    (step : ∀ {outer span rest : List Node} {n : Node} {b : Builder},
      b.buildFull span = .ok n → P (outer ++ span ++ rest) → P (outer ++ n :: rest))
    (hnodes : P nodes) (h : reduce nodes = .ok n) : P [n] := by
  unfold reduce at h
  generalize nodes.length + 1 = fuel at h
  induction fuel generalizing nodes with
  | zero => cases h
  | succ fuel ih =>
    unfold reduceIn at h
    split at h
    · split at h
      · cases h
        exact hnodes
      · cases h
    · obtain ⟨result, hround, hresult⟩ := bind_eq_ok_iff.1 h
      refine ih ?_ hresult
      rcases foldFirst_eq_ok hround with rfl | ⟨outer, span, rest, m, b, hspan, hm, rfl⟩
      · exact hnodes
      · refine step hm ?_
        rw [← hspan]
        exact hnodes

/-- The tree that a run reduces to has the leaves of the run. -/
theorem leaves_of_reduce (h : reduce nodes = .ok n) : n.leaves = leavesOfAll nodes := by
  have hkeeps := reduce_keeps (P := fun ns => leavesOfAll ns = leavesOfAll nodes) ?_ rfl h
  · simpa using hkeeps
  · intro outer span rest m b hm hleaves
    obtain ⟨form, rfl, -⟩ := Builder.eq_parent_of_buildFull hm
    rw [← hleaves]
    simp

end SheetFormula.Node
