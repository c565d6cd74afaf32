import SheetFormula.Proofs.Decimals
import SheetFormula.Proofs.Evaluation

/-!
# Expressions are the same as themselves

Sameness compares numbers by value, so that a double which is no number is not the same as anything.
No decimal is represented by such a double, and hence whatever a tree makes is the same as itself.
-/

namespace SheetFormula

/-! ### Doubles -/

namespace Double

/-- Below the largest exponent the bits denote a finite number, of either sign. -/
theorem isSpecial_ofNat {signBit magnitude : Nat} (hsign : signBit = 0 ∨ signBit = Nat.pow 2 63)
    (hmagnitude : magnitude < 2047 * Nat.pow 2 52) :
    (⟨UInt64.ofNat (signBit + magnitude)⟩ : Double).isSpecial = false := by
  have hmantissa : Nat.pow 2 52 = 4503599627370496 := rfl
  have hexponent : Nat.pow 2 11 = 2048 := rfl
  have htop : Nat.pow 2 63 = 9223372036854775808 := rfl
  simp only [isSpecial, exponentField, UInt64.toNat_ofNat', hmantissa, hexponent, htop,
    beq_eq_false_iff_ne] at hsign hmagnitude ⊢
  omega

theorem isNaN_of_ofFraction? {negative : Bool} {n d : Nat} {x : Double}
    (h : ofFraction? negative n d = some x) : x.isNaN = false := by
  suffices hspecial : x.isSpecial = false by rw [isNaN, hspecial, Bool.false_and]
  simp only [ofFraction?] at h
  generalize hbit : (if negative then Nat.pow 2 63 else 0) = signBit at h
  have hsign : signBit = 0 ∨ signBit = Nat.pow 2 63 := by
    cases negative with
    | true => exact .inr hbit.symm
    | false => exact .inl hbit.symm
  split_ifs at h with _ _ hfinite hfinite
  · cases h
    exact @isSpecial_ofNat signBit 0 hsign (by decide)
  · cases h
    exact isSpecial_ofNat hsign hfinite
  · cases h
    exact isSpecial_ofNat hsign hfinite

/-- The double nearest to a decimal is a number. -/
theorem isNaN_of_ofDecimal? {d : Decimal} {x : Double} (h : ofDecimal? d = some x) :
    x.isNaN = false := isNaN_of_ofFraction? h

theorem sameValue_self {x : Double} (h : x.isNaN = false) : x.sameValue x = true := by
  simp [sameValue, h]

end Double

/-! ### Expressions -/

theorem Settings.same_of_numberValue {s : Settings} {t : Text} {d : Decimal} {v : Value}
    (h : s.numberValue t d = .ok v) : v.same v = true := by
  unfold numberValue at h
  split at h
  · split at h
    · rename_i x hx
      cases h
      exact Double.sameValue_self (Double.isNaN_of_ofDecimal? hx)
    · cases h
  · split at h
    · cases h
      exact Decimal.sameValue_refl d
    · split at h
      · cases h
        exact Decimal.sameValue_refl _
      · cases h

namespace Expression

/-- Expressions that are the same as themselves. -/
def AreSound (es : List Expression) : Prop := ∀ e ∈ es, e.same e = true

theorem sameAll_self {es : List Expression} (h : AreSound es) : sameAll es es = true := by
  induction es with
  | nil => rfl
  | cons e es ih =>
    obtain ⟨he, hes⟩ := List.forall_mem_cons.1 h
    simp [sameAll, he, ih hes]

theorem AreSound.singleton {e : Expression} (h : e.same e = true) : AreSound [e] :=
  List.forall_mem_singleton.2 h

theorem AreSound.append {es es' : List Expression} (h : AreSound es) (h' : AreSound es') :
    AreSound (es ++ es') := List.forall_mem_append.2 ⟨h, h'⟩

theorem same_call {callee : Expression} {args : List Expression}
    (hcallee : callee.same callee = true) (hargs : AreSound args) :
    (call callee args).same (call callee args) = true := by
  simp [same, hcallee, sameAll_self hargs]

end Expression

namespace Settings

variable {s : Settings} {n : Node} {results built : List Expression}

open Expression

theorem areSound_buildLeaf (content : Content) : AreSound (buildLeaf content) := by
  cases content with
  | error | boolean => exact .singleton (by simp [same, Value.same])
  | label | template => exact .singleton (by simp [same])
  | _ => exact List.forall_mem_nil _

theorem same_of_dateTimeValue {v : Value} (h : s.dateTimeValue n = .ok v) : v.same v = true := by
  obtain ⟨date, time, rfl⟩ : ∃ date time, v = .dateTime date time := by
    simp only [dateTimeValue] at h
    split at h
    · obtain ⟨date, -, hv⟩ := bind_eq_ok_iff.1 h
      exact ⟨_, _, (Except.ok.inj hv).symm⟩
    · exact ⟨_, _, (Except.ok.inj h).symm⟩
  simp [Value.same]

/-- What a node makes of expressions that are the same as themselves is so, too. -/
theorem areSound_buildNode (h : s.buildNode n results = .ok built) (hresults : AreSound results) :
    AreSound built := by
  cases n with
  | leaf content text =>
    cases h
    exact areSound_buildLeaf content
  | parent form children =>
    -- Results are passed on or put below one node; what is new are values, which equal themselves.
    cases form with
    | binary op =>
      match results with
      | [left, right] =>
        cases h
        have hleft := hresults left (by simp)
        have hright := hresults right (by simp)
        exact .singleton (by simp [same, hleft, hright])
      | [] | [_] | _ :: _ :: _ :: _ => cases h
    | unary wrapper =>
      match results with
      | [operand] =>
        cases h
        have hoperand := hresults operand (by simp)
        refine .singleton ?_
        split_ifs
        · exact hoperand
        · exact hoperand
      | [] | _ :: _ :: _ => cases h
    | conditionRight => cases h
    | cell | cellRange =>
      cases h
      exact .singleton (by simp [same])
    | number d =>
      obtain ⟨v, hv, hbuilt⟩ := bind_eq_ok_iff.1 h
      cases hbuilt
      exact .singleton (same_of_numberValue hv)
    | date parts =>
      obtain ⟨date, -, hbuilt⟩ := bind_eq_ok_iff.1 h
      cases hbuilt
      exact .singleton (by simp [same, Value.same])
    | time | text =>
      cases h
      exact .singleton (by simp [same, Value.same])
    | dateTime =>
      obtain ⟨v, hv, hbuilt⟩ := bind_eq_ok_iff.1 h
      cases hbuilt
      exact .singleton (same_of_dateTimeValue hv)
    | functionParameters =>
      cases h
      exact hresults
    | namedFunction name =>
      cases h
      exact .singleton (same_call (by simp [same]) hresults)
    | lambda name =>
      simp only [buildNode] at h
      split_ifs at h
      cases h
      refine .singleton (same_call (same_call (by simp [same]) fun e he => ?_) fun e he => ?_)
      · exact hresults e (List.mem_of_mem_take he)
      · exact hresults e (List.mem_of_mem_drop he)

end Settings

namespace Node

open Expression

variable {s : Settings}

mutual

/-- The expressions that a node makes are the same as themselves. -/
theorem areSound_expressions (n : Node) {built : List Expression}
    (h : n.expressions s = .ok built) : AreSound built := by
  match n with
  | leaf content text =>
    rw [expressions] at h
    exact Settings.areSound_buildNode h (List.forall_mem_nil _)
  | parent form children =>
    obtain ⟨results, hresults, hbuilt⟩ := expressions_parent_eq_ok_iff.1 h
    exact Settings.areSound_buildNode hbuilt (areSound_expressionsOfAll children hresults)

/-- The expressions that nodes make are the same as themselves. -/
theorem areSound_expressionsOfAll (ns : List Node) {results : List Expression}
    (h : expressionsOfAll s ns = .ok results) : AreSound results := by
  match ns with
  | [] =>
    cases h
    exact List.forall_mem_nil _
  | n :: rest =>
    obtain ⟨first, more, hfirst, hmore, rfl⟩ := expressionsOfAll_cons_eq_ok_iff.1 h
    exact (areSound_expressions n hfirst).append (areSound_expressionsOfAll rest hmore)

end

/-- The expression of a tree is the same as itself. -/
theorem same_of_toExpression {n : Node} {e : Expression} (h : n.toExpression s = .ok (some e)) :
    e.same e = true :=
  areSound_expressions n (toExpression_eq_ok_iff.1 h) e (List.mem_singleton_self e)

end Node

end SheetFormula
