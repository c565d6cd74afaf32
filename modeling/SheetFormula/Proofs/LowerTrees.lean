import SheetFormula.Proofs.LetterCase
import SheetFormula.Proofs.Reduction

/-!
# Trees in lower case

A tree in lower case has the texts of its leaves in lower case, and with them the labels and
literals that leaves stand for; everything else in a tree does not depend on the case of letters.
The constructors of parents look at kinds only, and so they accept children in lower case just if
they accept the children, and build the parent in lower case: `Node.cell_lower` and its companions
up to `Node.reduce_lower`.

* `Parallel`: two computations of which both fail or both succeed, with values that correspond;
* `Content.lower`, `Form.lower`, `Node.lower`.
-/

namespace SheetFormula

/-! ### Parallel computations -/

/-- Both computations fail, with errors that are related, or both succeed and the value of the
second is that of the first under `f`. -/
inductive Parallel {ε α β : Type} (R : ε → ε → Prop) (f : α → β) :
    Except ε α → Except ε β → Prop
  | ok (a : α) : Parallel R f (.ok a) (.ok (f a))
  | error {e e' : ε} : R e e' → Parallel R f (.error e) (.error e')

namespace Parallel

variable {ε α β γ δ : Type} {R : ε → ε → Prop} {f : α → β} {g : γ → δ} {x : Except ε α}
  {y : Except ε β}

theorem same (hR : ∀ e, R e e) (x : Except ε α) : Parallel R id x x := by
  cases x with
  | ok a => exact .ok a
  | error e => exact .error (hR e)

/-- One step after another. -/
theorem bind {k : α → Except ε γ} {l : β → Except ε δ} (h : Parallel R f x y)
    (hk : ∀ a, Parallel R g (k a) (l (f a))) : Parallel R g (x >>= k) (y >>= l) := by
  cases h with
  | ok a => exact hk a
  | error he => exact .error he

/-- A run over a list, step by step. -/
theorem foldlM {step : α → γ → Except ε α} {step' : α → δ → Except ε α} {items : List γ}
    (h : ∀ a, ∀ item ∈ items, Parallel R id (step a item) (step' a (g item))) (a : α) :
    Parallel R id (items.foldlM step a) ((items.map g).foldlM step' a) := by
  induction items generalizing a with
  | nil => exact .ok a
  | cons item items ih =>
    rw [List.map_cons, List.foldlM_cons, List.foldlM_cons]
    exact (h a item List.mem_cons_self).bind fun b =>
      ih (fun a item hitem => h a item (List.mem_cons_of_mem _ hitem)) b

theorem eq_ok_iff {y : Except ε α} (h : Parallel R id x y) {a : α} : y = .ok a ↔ x = .ok a := by
  cases h with
  | ok b => rfl
  | error _ => exact ⟨nofun, nofun⟩

end Parallel

/-- Both computations fail, or both succeed and the value of the second is that of the first under
`f`. -/
abbrev SucceedAlike {ε α β : Type} (f : α → β) : Except ε α → Except ε β → Prop :=
  Parallel (fun _ _ => True) f

theorem succeedAlike_of_ok {ε α β : Type} {f : α → β} {x : Except ε α} {y : Except ε β}
    (hto : ∀ a, x = .ok a → y = .ok (f a)) (hof : ∀ b, y = .ok b → ∃ a, x = .ok a) :
    SucceedAlike f x y := by
  cases x with
  | ok a =>
    rw [hto a rfl]
    exact .ok a
  | error d =>
    cases y with
    | ok b =>
      obtain ⟨a, ha⟩ := hof b rfl
      cases ha
    | error d' => exact .error trivial

/-! ### Leaves and trees -/

/-- What a leaf in lower case stands for. -/
def Content.lower : Content → Content
  | label name => label name.lower
  | literal value => literal value.lower
  | content => content

/-- What a parent in lower case is. -/
def Form.lower : Form → Form
  | text value => text value.lower
  | form => form

@[simp] theorem Content.kind_lower (content : Content) : content.lower.kind = content.kind := by
  cases content <;> rfl

@[simp] theorem Form.kind_lower (form : Form) : form.lower.kind = form.kind := by
  cases form <;> rfl

namespace Node

mutual

/-- A tree in lower case. -/
def lower : Node → Node
  | leaf content text => leaf content.lower text.lower
  | parent form children => parent form.lower (lowerAll children)

/-- Trees in lower case. -/
def lowerAll : List Node → List Node
  | [] => []
  | n :: rest => n.lower :: lowerAll rest

end

theorem lowerAll_eq_map (ns : List Node) : lowerAll ns = ns.map lower := by
  induction ns with
  | nil => rfl
  | cons n ns ih => rw [lowerAll, ih, List.map_cons]

variable {n : Node} {ns : List Node}

@[simp] theorem lower_leaf (content : Content) (text : Text) :
    (leaf content text).lower = leaf content.lower text.lower := by rw [lower]

@[simp] theorem lower_parent (form : Form) (children : List Node) :
    (parent form children).lower = parent form.lower (children.map lower) := by
  rw [lower, lowerAll_eq_map]

@[simp] theorem kind_lower (n : Node) : n.lower.kind = n.kind := by
  cases n <;> simp [kind]

@[simp] theorem isNoise_lower (n : Node) : n.lower.isNoise = n.isNoise := by simp [isNoise]

@[simp] theorem isWhitespace_lower (n : Node) : n.lower.isWhitespace = n.isWhitespace := by
  simp [isWhitespace]

@[simp] theorem priority_lower (n : Node) : n.lower.priority = n.priority := by
  cases n with
  | leaf content text => cases content <;> rfl
  | parent form children => rw [lower_parent]; rfl

@[simp] theorem operandsOf_lower (ns : List Node) :
    operandsOf (ns.map lower) = (operandsOf ns).map lower := by
  simp [operandsOf, List.filter_map, Function.comp_def]

/-- What a leaf stands for in lower case it stood for before, unless that is a text. -/
theorem exists_leaf_of_lower {content : Content} {t : Text}
    (hcontent : content.kind ∉ [.labelName, .textLiteral])
    (h : n.lower = leaf content t) : ∃ s, n = leaf content s := by
  cases n with
  | leaf d s =>
    rw [lower_leaf] at h
    obtain ⟨rfl, -⟩ := leaf.inj h
    cases d <;> first | exact ⟨s, rfl⟩ | simp [Content.lower, Content.kind] at hcontent
  | parent form children =>
    rw [lower_parent] at h
    cases h

/-- What a parent is in lower case it was before, unless that is a text. -/
theorem exists_parent_of_lower {form : Form} {ms : List Node} (hform : form.kind ≠ .text)
    (h : n.lower = parent form ms) : ∃ ns, n = parent form ns := by
  cases n with
  | leaf d s =>
    rw [lower_leaf] at h
    cases h
  | parent f ns =>
    rw [lower_parent] at h
    obtain ⟨rfl, -⟩ := parent.inj h
    cases f <;> first | exact ⟨ns, rfl⟩ | exact absurd rfl hform

/-! ### Constructors -/

theorem checkSymbol_lower (kind : Kind) (s : Symbol) (place : Nat) (state : Nat × Nat) (n : Node) :
    SucceedAlike id (checkSymbol kind s place state n)
      (checkSymbol kind s place state n.lower) := by
  obtain ⟨index, symbols⟩ := state
  cases n with
  | leaf content text =>
    cases content with
    | symbol s' =>
      simp only [checkSymbol, lower_leaf, Content.lower]
      split_ifs
      · exact .ok _
      · exact .error trivial
    | _ => exact .ok _
  | parent form children =>
    rw [lower_parent]
    exact .ok _

theorem checkOperator_lower {kind : Kind} {s : Symbol} {place : Nat} :
    checkOperator kind s place (ns.map lower) = .ok () ↔
      checkOperator kind s place ns = .ok () := by
  refine Parallel.eq_ok_iff (R := fun _ _ => True) ?_
  have hfilter : (ns.map lower).filter (!·.isWhitespace) =
      (ns.filter (!·.isWhitespace)).map lower := by
    simp [List.filter_map, Function.comp_def]
  rw [checkOperator, checkOperator, hfilter]
  refine (Parallel.foldlM (fun state n _ => checkSymbol_lower kind s place state n) (0, 0)).bind ?_
  rintro ⟨index, symbols⟩
  simp only [id]
  split_ifs
  · exact .error trivial
  · exact .ok ()

theorem binary_lower (kind : Kind) (ns : List Node) :
    SucceedAlike lower (binary kind ns) (binary kind (ns.map lower)) := by
  cases kind with
  | binary op =>
    refine succeedAlike_of_ok (fun n h => ?_) fun m h => ?_
    · obtain ⟨hcount, hcheck, rfl⟩ := binary_eq_ok_iff.1 h
      rw [lower_parent]
      exact binary_eq_ok_iff.2 ⟨by simpa using hcount, checkOperator_lower.2 hcheck, rfl⟩
    · obtain ⟨hcount, hcheck, -⟩ := binary_eq_ok_iff.1 h
      rw [operandsOf_lower, List.length_map] at hcount
      exact ⟨_, binary_eq_ok_iff.2 ⟨hcount, checkOperator_lower.1 hcheck, rfl⟩⟩
  | _ => exact .error trivial

theorem unary_lower (wrapper : Wrapper) (ns : List Node) :
    SucceedAlike lower (unary (.unary wrapper) ns) (unary (.unary wrapper) (ns.map lower)) := by
  refine succeedAlike_of_ok (fun n h => ?_) fun m h => ?_
  · obtain ⟨hcount, rfl⟩ := unary_eq_ok_iff.1 h
    rw [lower_parent]
    exact unary_eq_ok_iff.2 ⟨by simpa using hcount, rfl⟩
  · obtain ⟨hcount, -⟩ := unary_eq_ok_iff.1 h
    rw [operandsOf_lower, List.length_map] at hcount
    exact ⟨_, unary_eq_ok_iff.2 ⟨hcount, rfl⟩⟩

theorem cell_lower (ns : List Node) : SucceedAlike lower (cell ns) (cell (ns.map lower)) := by
  refine succeedAlike_of_ok (fun n h => ?_) fun m h => ?_
  · obtain ⟨column, s, row, t, hops, rfl⟩ := cell_eq_ok_iff.1 h
    rw [lower_parent]
    exact cell_eq_ok_iff.2 ⟨column, s.lower, row, t.lower, by simp [hops, Content.lower], rfl⟩
  · obtain ⟨column, s, row, t, hops, -⟩ := cell_eq_ok_iff.1 h
    simp only [operandsOf_lower, List.map_eq_cons_iff, List.map_eq_nil_iff] at hops
    obtain ⟨a, _, hops, ha, b, _, rfl, hb, rfl⟩ := hops
    obtain ⟨s, rfl⟩ := exists_leaf_of_lower (by simp [Content.kind]) ha
    obtain ⟨t, rfl⟩ := exists_leaf_of_lower (by simp [Content.kind]) hb
    exact ⟨_, cell_eq_ok_iff.2 ⟨column, s, row, t, hops, rfl⟩⟩

theorem exists_kind_lower {kind : Kind} :
    (∃ child ∈ ns.map lower, child.kind = kind) ↔ ∃ child ∈ ns, child.kind = kind := by
  simp

theorem cellRange_lower (ns : List Node) :
    SucceedAlike lower (cellRange ns) (cellRange (ns.map lower)) := by
  refine succeedAlike_of_ok (fun n h => ?_) fun m h => ?_
  · obtain ⟨first, ms, last, ks, hops, hbetween, rfl⟩ := cellRange_eq_ok_iff.1 h
    rw [lower_parent]
    exact cellRange_eq_ok_iff.2 ⟨first, ms.map lower, last, ks.map lower,
      by simp [hops, Form.lower], exists_kind_lower.2 hbetween, rfl⟩
  · obtain ⟨first, ms, last, ks, hops, hbetween, -⟩ := cellRange_eq_ok_iff.1 h
    simp only [operandsOf_lower, List.map_eq_cons_iff, List.map_eq_nil_iff] at hops
    obtain ⟨a, _, hops, ha, b, _, rfl, hb, rfl⟩ := hops
    obtain ⟨ms, rfl⟩ := exists_parent_of_lower (by simp [Form.kind]) ha
    obtain ⟨ks, rfl⟩ := exists_parent_of_lower (by simp [Form.kind]) hb
    exact ⟨_, cellRange_eq_ok_iff.2
      ⟨first, ms, last, ks, hops, exists_kind_lower.1 hbetween, rfl⟩⟩

theorem functionParameters_lower (ns : List Node) :
    SucceedAlike lower (functionParameters ns) (functionParameters (ns.map lower)) := by
  have hhead : (ns.map lower).head?.map kind = ns.head?.map kind := by
    simp [Function.comp_def]
  have hlast : (ns.map lower).getLast?.map kind = ns.getLast?.map kind := by
    simp [Function.comp_def]
  refine succeedAlike_of_ok (fun n h => ?_) fun m h => ?_
  · obtain ⟨hopen, hclose, rfl⟩ := functionParameters_eq_ok_iff.1 h
    rw [lower_parent]
    exact functionParameters_eq_ok_iff.2 ⟨hhead.trans hopen, hlast.trans hclose, rfl⟩
  · obtain ⟨hopen, hclose, -⟩ := functionParameters_eq_ok_iff.1 h
    exact ⟨_, functionParameters_eq_ok_iff.2 ⟨hhead ▸ hopen, hlast ▸ hclose, rfl⟩⟩

theorem namedFunction_lower (ns : List Node) :
    SucceedAlike lower (namedFunction ns) (namedFunction (ns.map lower)) := by
  refine succeedAlike_of_ok (fun n h => ?_) fun m h => ?_
  · obtain ⟨name, s, ms, hops, rfl⟩ := namedFunction_eq_ok_iff.1 h
    rw [lower_parent]
    exact namedFunction_eq_ok_iff.2
      ⟨name, s.lower, ms.map lower, by simp [hops, Content.lower, Form.lower], rfl⟩
  · obtain ⟨name, s, ms, hops, -⟩ := namedFunction_eq_ok_iff.1 h
    simp only [operandsOf_lower, List.map_eq_cons_iff, List.map_eq_nil_iff] at hops
    obtain ⟨a, _, hops, ha, b, _, rfl, hb, rfl⟩ := hops
    obtain ⟨s, rfl⟩ := exists_leaf_of_lower (by simp [Content.kind]) ha
    obtain ⟨ms, rfl⟩ := exists_parent_of_lower (by simp [Form.kind]) hb
    exact ⟨_, namedFunction_eq_ok_iff.2 ⟨name, s, ms, hops, rfl⟩⟩

theorem lambda_lower (ns : List Node) : SucceedAlike lower (lambda ns) (lambda (ns.map lower)) := by
  refine succeedAlike_of_ok (fun n h => ?_) fun m h => ?_
  · obtain ⟨name, s, ms, ks, hops, rfl⟩ := lambda_eq_ok_iff.1 h
    rw [lower_parent]
    exact lambda_eq_ok_iff.2 ⟨name, s.lower, ms.map lower, ks.map lower,
      by simp [hops, Content.lower, Form.lower], rfl⟩
  · obtain ⟨name, s, ms, ks, hops, -⟩ := lambda_eq_ok_iff.1 h
    simp only [operandsOf_lower, List.map_eq_cons_iff, List.map_eq_nil_iff] at hops
    obtain ⟨a, _, hops, ha, b, _, rfl, hb, c, _, rfl, hc, rfl⟩ := hops
    obtain ⟨s, rfl⟩ := exists_leaf_of_lower (by simp [Content.kind]) ha
    obtain ⟨ms, rfl⟩ := exists_parent_of_lower (by simp [Form.kind]) hb
    obtain ⟨ks, rfl⟩ := exists_parent_of_lower (by simp [Form.kind]) hc
    exact ⟨_, lambda_eq_ok_iff.2 ⟨name, s, ms, ks, hops, rfl⟩⟩

/-! ### Operators -/

theorem fold_lower (kind : Kind) (span : List Node) :
    SucceedAlike lower (fold kind span) (fold kind (span.map lower)) := by
  unfold fold
  split
  · exact cellRange_lower span
  · split
    · exact binary_lower _ span
    · exact .error trivial
  · exact .error trivial

theorem takeWhile_isWhitespace_lower (ns : List Node) :
    (ns.map lower).takeWhile isWhitespace = (ns.takeWhile isWhitespace).map lower := by
  rw [List.takeWhile_map]
  exact congrArg _ (congrArg (ns.takeWhile ·) (funext isWhitespace_lower))

theorem dropWhile_isWhitespace_lower (ns : List Node) :
    (ns.map lower).dropWhile isWhitespace = (ns.dropWhile isWhitespace).map lower := by
  rw [List.dropWhile_map]
  exact congrArg _ (congrArg (ns.dropWhile ·) (funext isWhitespace_lower))

theorem foldAround_lower (before : List Node) (operator : Node) (after : List Node) :
    SucceedAlike (List.map lower) (foldAround before operator after)
      (foldAround (before.map lower) operator.lower (after.map lower)) := by
  simp only [foldAround, dropWhile_isWhitespace_lower, takeWhile_isWhitespace_lower, kind_lower]
  cases hbefore : before.dropWhile isWhitespace with
  | nil => exact .error trivial
  | cons left outerBefore =>
    cases hafter : after.dropWhile isWhitespace with
    | nil => exact .error trivial
    | cons right outerAfter =>
      have hfold := fold_lower operator.kind (left :: (before.takeWhile isWhitespace).reverse ++
        operator :: (after.takeWhile isWhitespace ++ [right]))
      simp only [List.map_cons, List.map_append, List.map_reverse, List.map_nil] at hfold ⊢
      refine hfold.bind fun folded => ?_
      have hnodes : (outerBefore.map lower).reverse ++ folded.lower :: outerAfter.map lower =
          (outerBefore.reverse ++ folded :: outerAfter).map lower := by simp
      rw [hnodes]
      exact .ok _

theorem foldFirst_lower (p : Nat) (before ns : List Node) :
    SucceedAlike (List.map lower) (foldFirst p before ns)
      (foldFirst p (before.map lower) (ns.map lower)) := by
  induction ns generalizing before with
  | nil =>
    rw [List.map_nil, foldFirst, foldFirst, ← List.map_reverse]
    exact .ok _
  | cons n ns ih =>
    rw [List.map_cons, foldFirst, foldFirst, priority_lower]
    split_ifs
    · exact foldAround_lower before n ns
    · exact ih (n :: before)

theorem lowestPriority_lower (ns : List Node) :
    lowestPriority (ns.map lower) = lowestPriority ns := by
  simp [lowestPriority, List.foldl_map]

theorem reduceIn_lower (fuel : Nat) (ns : List Node) :
    SucceedAlike lower (reduceIn fuel ns) (reduceIn fuel (ns.map lower)) := by
  induction fuel generalizing ns with
  | zero => exact .error trivial
  | succ fuel ih =>
    have hlower := lowestPriority_lower ns
    by_cases hlowest : lowestPriority ns = 0
    · refine succeedAlike_of_ok (fun n h => ?_) fun m h => ?_
      · obtain rfl := (reduceIn_of_lowest_zero hlowest).1 h
        exact (reduceIn_of_lowest_zero (hlower.trans hlowest)).2 rfl
      · have hm := (reduceIn_of_lowest_zero (hlower.trans hlowest)).1 h
        rw [List.map_eq_singleton_iff] at hm
        obtain ⟨n, rfl, -⟩ := hm
        exact ⟨n, (reduceIn_of_lowest_zero hlowest).2 rfl⟩
    · rw [reduceIn_of_lowest_ne_zero hlowest, reduceIn_of_lowest_ne_zero
        (fun h => hlowest (hlower.symm.trans h)), hlower]
      exact (foldFirst_lower _ [] ns).bind ih

/-- Operators are folded in lower case as they are otherwise. -/
theorem reduce_lower (ns : List Node) : SucceedAlike lower (reduce ns) (reduce (ns.map lower)) := by
  rw [reduce, reduce, List.length_map]
  exact reduceIn_lower _ ns

end Node

end SheetFormula
