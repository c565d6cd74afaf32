import SheetFormula.Proofs.Keys
import SheetFormula.Proofs.Sameness
import SheetFormula.Proofs.Translation

/-!
# Whitespace in formulas

Behind an equals sign whitespace does not matter.  A formula without its whitespace is read as the
same tree without whitespace, so formulas share a key exactly when their trees differ in whitespace
only; and such formulas make the same expression, since the builder looks at operands and at the
tokens of numbers, which hold no whitespace.
-/

namespace SheetFormula

/-! ### Equal trees -/

namespace Node

mutual

/-- A tree equals itself. -/
theorem beq_self (n : Node) : n.beq n = true := by
  match n with
  | leaf content text => simp [beq]
  | parent form children => simp [beq, beqAll_self children]

/-- Trees equal themselves. -/
theorem beqAll_self (ns : List Node) : beqAll ns ns = true := by
  match ns with
  | [] => simp [beqAll]
  | n :: rest => simp [beqAll, beq_self n, beqAll_self rest]

end

mutual

/-- Equal trees are written alike. -/
theorem text_eq_of_beq {n m : Node} (h : n.beq m = true) : n.text = m.text := by
  match n, m with
  | leaf c s, leaf d t =>
    simp only [beq, Bool.and_eq_true, beq_iff_eq] at h
    rw [text_leaf, text_leaf, h.2]
  | parent f ns, parent g ms =>
    simp only [beq, Bool.and_eq_true] at h
    rw [text_parent, text_parent, textOfAll_eq_of_beqAll h.2]
  | leaf _ _, parent _ _ => simp [beq] at h
  | parent _ _, leaf _ _ => simp [beq] at h

/-- Trees that are equal one by one are written alike. -/
theorem textOfAll_eq_of_beqAll {ns ms : List Node} (h : beqAll ns ms = true) :
    textOfAll ns = textOfAll ms := by
  match ns, ms with
  | [], [] => rfl
  | n :: ns, m :: ms =>
    simp only [beqAll, Bool.and_eq_true] at h
    rw [textOfAll_cons, textOfAll_cons, text_eq_of_beq h.1, textOfAll_eq_of_beqAll h.2]
  | [], _ :: _ => simp [beqAll] at h
  | _ :: _, [] => simp [beqAll] at h

end

/-! ### Terms without whitespace -/

variable {s : Settings} {n : Node} {ns : List Node} {e : Expression}

theorem operandsOf_bareAll : operandsOf (bareAll ns) = (operandsOf ns).map bare := by
  induction ns with
  | nil => simp [operandsOf]
  | cons n ns ih =>
    by_cases hspace : n.isWhitespace = true
    · have hnoise : n.isNoise = true := by
        rw [isNoise, of_decide_eq_true hspace]
        rfl
      rw [bareAll_cons_whitespace hspace, ih]
      simp [operandsOf, hnoise]
    · rw [bareAll_cons (Bool.eq_false_iff.2 hspace)]
      cases hnoise : n.isNoise with
      | true => simpa [operandsOf, hnoise] using ih
      | false => simpa [operandsOf, hnoise] using ih

theorem IsPart.isSolid (h : n.IsPart) : n.IsSolid := by
  obtain ⟨content, t, rfl, hspace, -⟩ := h
  exact isSolid_leaf.2 hspace

/-- There is no whitespace in a token. -/
theorem IsAtom.bare_eq (h : n.IsAtom) : n.bare = n := by
  refine bare_of_isSolid n ?_
  cases h with
  | error | boolean | label => exact isSolid_leaf.2 (by simp)
  | number hparts | text hparts | cell hparts =>
    exact isSolid_parent.2 fun part hpart => (hparts part hpart).isSolid
  | cellRange hns hms =>
    refine isSolid_parent.2 (List.forall_iff_forall_mem.1 ?_)
    exact ⟨isSolid_parent.2 fun part hpart => (hns part hpart).isSolid, isSolid_leaf.2 (by simp),
      isSolid_parent.2 fun part hpart => (hms part hpart).isSolid⟩

theorem bare_nameOf (t : Text) : (nameOf t).bare = nameOf t := bare_leaf ..

section Operands

variable {children params declared values : List Node} {left right : Node} {t : Text}

theorem operandsOf_bareAll_one (h : operandsOf children = [n]) :
    operandsOf (bareAll children) = [n.bare] := by rw [operandsOf_bareAll, h]; rfl

theorem operandsOf_bareAll_two (h : operandsOf children = [left, right]) :
    operandsOf (bareAll children) = [left.bare, right.bare] := by rw [operandsOf_bareAll, h]; rfl

theorem operandsOf_bareAll_call
    (h : operandsOf children = [nameOf t, parent .functionParameters params]) :
    operandsOf (bareAll children) = [nameOf t, parent .functionParameters (bareAll params)] := by
  rw [operandsOf_bareAll, h, List.map_cons, List.map_singleton, bare_nameOf, bare_parent]

theorem operandsOf_bareAll_lambda (h : operandsOf children = [nameOf t,
      parent .functionParameters declared, parent .functionParameters values]) :
    operandsOf (bareAll children) = [nameOf t, parent .functionParameters (bareAll declared),
      parent .functionParameters (bareAll values)] := by
  rw [operandsOf_bareAll, h, List.map_cons, List.map_cons, List.map_singleton, bare_nameOf,
    bare_parent, bare_parent]

end Operands

/-- A term is a term without its whitespace. -/
theorem IsTerm.bare (h : n.IsTerm) : n.bare.IsTerm := by
  induction h with
  | atom h =>
    rw [h.bare_eq]
    exact .atom h
  | unary hoperand _ ih =>
    rw [bare_parent]
    exact .unary (operandsOf_bareAll_one hoperand) ih
  | binary hoperands _ _ ihl ihr =>
    rw [bare_parent]
    exact .binary (operandsOf_bareAll_two hoperands) ihl ihr
  | call hoperands _ ih =>
    rw [bare_parent]
    refine .call (operandsOf_bareAll_call hoperands) ?_
    rw [operandsOf_bareAll]
    exact List.forall_mem_map.2 ih
  | lambda hoperands _ _ ih ih' =>
    rw [bare_parent]
    refine .lambda (operandsOf_bareAll_lambda hoperands) ?_ ?_
    · rw [operandsOf_bareAll]
      exact List.forall_mem_map.2 ih
    · rw [operandsOf_bareAll]
      exact List.forall_mem_map.2 ih'

theorem numbersOfAll_bareAll (h : ∀ n ∈ operandsOf ns, n.bare.numbers = n.numbers) :
    numbersOfAll (bareAll ns) = numbersOfAll ns := by
  have hns : numbersOfAll (operandsOf ns) = numbersOfAll ns := numbersOfAll_operandsOf
  rw [← numbersOfAll_operandsOf, operandsOf_bareAll, ← hns]
  generalize operandsOf ns = ns at h
  induction ns with
  | nil => rfl
  | cons n ns ih =>
    obtain ⟨hn, hns⟩ := List.forall_mem_cons.1 h
    rw [List.map_cons, numbersOfAll_cons, numbersOfAll_cons, hn, ih hns]

/-- A term has its numbers also without its whitespace. -/
theorem IsTerm.numbers_bare (h : n.IsTerm) : n.bare.numbers = n.numbers := by
  have hparent {form : Form} {children : List Node} (hform : ∀ d, form ≠ .number d)
      (h : ∀ n ∈ operandsOf children, n.bare.numbers = n.numbers) :
      (parent form children).bare.numbers = (parent form children).numbers := by
    rw [bare_parent, numbers_parent hform, numbers_parent hform, numbersOfAll_bareAll h]
  have hname (t : Text) : (nameOf t).bare.numbers = (nameOf t).numbers := by rw [bare_nameOf]
  -- A number is an atom, and the numbers of any other term are those of its operands.
  induction h with
  | atom h => rw [h.bare_eq]
  | unary hoperand _ ih =>
    refine hparent (by simp) ?_
    rw [hoperand]
    exact List.forall_mem_singleton.2 ih
  | binary hoperands _ _ ihl ihr =>
    refine hparent (by simp) ?_
    rw [hoperands]
    exact List.forall_mem_cons.2 ⟨ihl, List.forall_mem_singleton.2 ihr⟩
  | call hoperands _ ih =>
    refine hparent (by simp) ?_
    rw [hoperands]
    exact List.forall_mem_cons.2 ⟨hname _, List.forall_mem_singleton.2 (hparent (by simp) ih)⟩
  | lambda hoperands _ _ ih ih' =>
    refine hparent (by simp) ?_
    rw [hoperands]
    exact List.forall_mem_cons.2 ⟨hname _, List.forall_mem_cons.2
      ⟨hparent (by simp) ih, List.forall_mem_singleton.2 (hparent (by simp) ih')⟩⟩

/-- Arguments without their whitespace. -/
theorem translates_bare_arguments {params : List Node} {args : List (Node × Expression)}
    (ih : ∀ arg ∈ operandsOf params, ∀ {e : Expression}, Translates s arg e →
      Translates s arg.bare e)
    (hparams : operandsOf params = args.map Prod.fst)
    (hargs : ∀ arg ∈ args, Translates s arg.1 arg.2) :
    ∃ args' : List (Node × Expression), operandsOf (bareAll params) = args'.map Prod.fst ∧
      (∀ arg ∈ args', Translates s arg.1 arg.2) ∧ args'.map Prod.snd = args.map Prod.snd := by
  refine ⟨args.map fun arg => (arg.1.bare, arg.2), ?_, List.forall_mem_map.2 fun arg harg => ?_, ?_⟩
  · rw [operandsOf_bareAll, hparams, List.map_map, List.map_map]
    rfl
  · exact ih arg.1 (hparams ▸ List.mem_map_of_mem harg) (hargs arg harg)
  · rw [List.map_map]
    rfl

/-- A term stands for the same expression without its whitespace. -/
theorem IsTerm.translates_bare (h : n.IsTerm) (he : Translates s n e) : Translates s n.bare e := by
  -- The operands of a bare node are those of the node made bare, so each rule applies again.
  induction h generalizing e with
  | atom h => rwa [h.bare_eq]
  | unary hoperand _ ih =>
    rw [bare_parent]
    cases he with
    | negative hoperand' he =>
      obtain rfl := (List.cons.inj (hoperand.symm.trans hoperand')).1
      exact .negative (operandsOf_bareAll_one hoperand) (ih he)
    | wrapped hwrapper hoperand' he =>
      obtain rfl := (List.cons.inj (hoperand.symm.trans hoperand')).1
      exact .wrapped hwrapper (operandsOf_bareAll_one hoperand) (ih he)
  | binary hoperands _ _ ihl ihr =>
    rw [bare_parent]
    cases he with
    | binary hoperands' hl hr =>
      obtain ⟨rfl, rfl⟩ := by simpa using hoperands.symm.trans hoperands'
      exact .binary (operandsOf_bareAll_two hoperands) (ihl hl) (ihr hr)
  | @call written children params hoperands _ ih =>
    rw [bare_parent]
    cases he with
    | call hoperands' hparams hargs =>
      obtain ⟨hname, rfl⟩ := by simpa using hoperands.symm.trans hoperands'
      obtain rfl := nameOf_inj hname
      obtain ⟨args', hparams', hargs', hsnd⟩ := translates_bare_arguments ih hparams hargs
      rw [← hsnd]
      exact .call (operandsOf_bareAll_call hoperands) hparams' hargs'
  | @lambda written children declared values hoperands _ _ ih ih' =>
    rw [bare_parent]
    cases he with
    | lambda hoperands' hdeclared hargs hvalues hargs' =>
      obtain ⟨hname, rfl, rfl⟩ := by simpa using hoperands.symm.trans hoperands'
      obtain rfl := nameOf_inj hname
      obtain ⟨_, hdeclared', hargs, hsnd⟩ := translates_bare_arguments ih hdeclared hargs
      obtain ⟨_, hvalues', hargs', hsnd'⟩ := translates_bare_arguments ih' hvalues hargs'
      rw [← hsnd, ← hsnd']
      exact .lambda (operandsOf_bareAll_lambda hoperands) hdeclared' hargs hvalues' hargs'

/-- Whitespace does not matter for what is built of a term. -/
theorem IsTerm.toExpression_bare (h : n.IsTerm) : n.bare.toExpression s = n.toExpression s := by
  have hkind : n.bare.kind = n.kind := by cases n <;> simp [kind]
  have hexpressions : n.bare.expressions s = n.expressions s := by
    cases h.builds (s := s) with
    | value hnone he hmakes =>
      cases h.bare.builds (s := s) with
      | value _ he' hmakes' => rw [hmakes, hmakes', he'.unique (h.translates_bare he)]
      | fault hfault _ =>
        rw [h.numbers_bare, hnone] at hfault
        cases hfault
    | fault hfault hmakes =>
      cases h.bare.builds (s := s) with
      | value hnone _ _ =>
        rw [h.numbers_bare, hfault] at hnone
        cases hnone
      | fault hfault' hmakes' =>
        rw [h.numbers_bare, hfault] at hfault'
        rw [hmakes, hmakes', Option.some.inj hfault']
  rw [toExpression_eq, toExpression_eq, hexpressions, hkind]

end Node

/-! ### Same expressions -/

/-- Whether the building of two expressions came to the same: to expressions with the same shape and
the same values, to none or to one error. -/
def sameResult :
    Except BuildError (Option Expression) → Except BuildError (Option Expression) → Bool
  | .ok (some e), .ok (some e') => e.same e'
  | .ok none, .ok none => true
  | .error error, .error error' => error == error'
  | _, _ => false

namespace Node

variable {s : Settings} {n : Node}

/-- Terms that differ in whitespace only make the same. -/
theorem IsTerm.sameResult_of_bare {m : Node} (hn : n.IsTerm) (hm : m.IsTerm) (h : n.bare = m.bare) :
    sameResult (n.toExpression s) (m.toExpression s) = true := by
  rw [← hm.toExpression_bare, ← h, hn.toExpression_bare]
  cases hn.builds (s := s) with
  | value _ _ hmakes =>
    have hmade := toExpression_eq_ok_iff.2 hmakes
    rw [hmade]
    exact same_of_toExpression hmade
  | fault _ hmakes =>
    rw [toExpression_eq, hmakes]
    exact beq_self_eq_true _

end Node

/-! ### Formulas -/

namespace Rule

variable {start c next : Cursor} {rules : List Rule}

theorem sequenceFrom_ne_absent (h : rules.Forall fun r => ∀ c next, r c ≠ (.absent, next)) :
    sequenceFrom start rules c ≠ (.absent, next) := by
  induction rules generalizing c with
  | nil => nofun
  | cons r rules ih =>
    obtain ⟨hr, hrules⟩ := (List.forall_cons ..).1 h
    rw [Ne, sequenceFrom_cons_absent_iff]
    rintro (⟨mid, habsent, -⟩ | ⟨first, mid, -, habsent⟩)
    · exact hr c mid habsent
    · exact ih hrules habsent

/-- Behind an equals sign there must be an expression. -/
theorem formula_ne_absent {g : Grammar} {rest : List Rune} (hrest : c.rest = .scalar '=' :: rest) :
    formula g c ≠ (.absent, next) := by
  intro h
  rcases sequenceFrom_cons_absent_iff.1 (transform_absent_iff.1 h) with
    ⟨mid, hequals, -⟩ | ⟨first, mid, -, hmore⟩
  · rw [symbol_absent_iff, hrest] at hequals
    cases hequals.1
  · refine sequenceFrom_ne_absent ?_ hmore
    exact ⟨fun _ _ => optional_ne_absent, fun _ _ => required_ne_absent,
      fun _ _ => optional_ne_absent⟩

end Rule

namespace Grammar

variable {s t : Text} {n m : Node}

/-- What starts with an equals sign is read as a formula. -/
theorem formula_of_parse (h : american.parse .valueOrExpression ("=" ++ s) = .ok n) :
    ∃ c, Rule.formula american (.start ("=" ++ s)) = (.found [n], c) := by
  obtain ⟨c, hfound, -⟩ := found_of_parse h
  rcases Rule.alternatives_cons_found_iff.1 hfound with hformula | ⟨mid, habsent, -⟩
  · exact ⟨c, hformula⟩
  · exact absurd habsent (Rule.formula_ne_absent (Text.sealed_scalar '=' s))

theorem not_isSpacedDate_of_formula {c next : Cursor}
    (h : Rule.formula american c = (.found [n], next)) : ¬ n.IsSpacedDate := by
  obtain ⟨children, m, -, hm, heq⟩ := Rule.transform_found_iff.1 h
  obtain rfl := (List.cons.inj heq).1
  obtain ⟨-, rfl⟩ := Node.unary_eq_ok_iff.1 hm
  simp [Node.IsSpacedDate, Node.kind, Form.kind]

/-- The key of a text that is read. -/
theorem key_of_parse (hne : s.isEmpty = false) (h : american.parse .valueOrExpression s = .ok n) :
    (Formula.parse american .valueOrExpression s).key = n.bare.text := by
  have htoken : (Formula.parse american .valueOrExpression s).token? = some n := by
    simp [Formula.parse, hne, h]
  exact (token_of_parse htoken).2

/-- Whitespace does not matter in formulas.  A formula is read without its whitespace as the tree
without whitespace; two formulas have one key just if their trees without whitespace are equal; and
then they make the same of decimals. -/
theorem formulas_upToWhitespace (s t : Text) (n m : Node)
    (hn : american.parse .valueOrExpression ("=" ++ s) = .ok n)
    (hm : american.parse .valueOrExpression ("=" ++ t) = .ok m) :
    american.parse .valueOrExpression n.bare.text = .ok n.bare ∧
    ((Formula.parse american .valueOrExpression ("=" ++ s)).key =
      (Formula.parse american .valueOrExpression ("=" ++ t)).key ↔ (n.bare == m.bare) = true) ∧
    ((n.bare == m.bare) = true → ∀ settings : Settings, settings.numberKind = .decimal →
      sameResult (n.toExpression settings) (m.toExpression settings) = true) := by
  obtain ⟨_, hnformula⟩ := formula_of_parse hn
  obtain ⟨_, hmformula⟩ := formula_of_parse hm
  have hnread := parse_key hn (not_isSpacedDate_of_formula hnformula)
  have hmread := parse_key hm (not_isSpacedDate_of_formula hmformula)
  -- Bare trees that are equal as trees have one text, and that is read as only one of them.
  have hbare : (n.bare == m.bare) = true ↔ n.bare = m.bare := by
    refine ⟨fun h => ?_, fun h => ?_⟩
    · rw [Node.text_eq_of_beq h, hmread] at hnread
      exact (Except.ok.inj hnread).symm
    · rw [h]
      exact Node.beq_self m.bare
  refine ⟨hnread, ?_, fun h _ _ => ?_⟩
  · rw [key_of_parse rfl hn, key_of_parse rfl hm, hbare]
    refine ⟨fun htext => ?_, congrArg Node.text⟩
    rw [htext, hmread] at hnread
    exact (Except.ok.inj hnread).symm
  · obtain ⟨_, hnodes, hnterm⟩ := Rule.term_formula.found hnformula
    obtain rfl := (List.cons.inj hnodes).1
    obtain ⟨_, hnodes, hmterm⟩ := Rule.term_formula.found hmformula
    obtain rfl := (List.cons.inj hnodes).1
    exact hnterm.sameResult_of_bare hmterm (hbare.1 h)

/-- A comparison with blanks around its operator and the same comparison with blanks elsewhere. -/
theorem formulas_upToWhitespace_comparison :
    ∃ n m, american.parse .valueOrExpression ("=" ++ "1e2 <= sum( $a1:b2 ,x )") = .ok n ∧
      american.parse .valueOrExpression ("=" ++ " 1e2<=sum($a1:b2, x)") = .ok m ∧
      american.parse .valueOrExpression n.bare.text = .ok n.bare ∧ (n.bare == m.bare) = true ∧
      sameResult (n.toExpression { today := ⟨2024, 2, 29⟩ })
        (m.toExpression { today := ⟨2024, 2, 29⟩ }) = true := by
  have hchecks :
      (american.parse .valueOrExpression ("=" ++ "1e2 <= sum( $a1:b2 ,x )")).toOption.any
          (fun _ => true) = true ∧
        (american.parse .valueOrExpression ("=" ++ " 1e2<=sum($a1:b2, x)")).toOption.any
          (fun _ => true) = true := by decide +kernel
  have hkey : (Formula.parse american .valueOrExpression ("=" ++ "1e2 <= sum( $a1:b2 ,x )")).key =
      (Formula.parse american .valueOrExpression ("=" ++ " 1e2<=sum($a1:b2, x)")).key := by
    decide +kernel
  obtain ⟨n, hn, -⟩ := exists_ok_of_any hchecks.1
  obtain ⟨m, hm, -⟩ := exists_ok_of_any hchecks.2
  obtain ⟨hread, hkeys, hresults⟩ := formulas_upToWhitespace _ _ n m hn hm
  have hbare := hkeys.1 hkey
  exact ⟨n, m, hn, hm, hread, hbare, hresults hbare { today := ⟨2024, 2, 29⟩ } rfl⟩

end Grammar

end SheetFormula
