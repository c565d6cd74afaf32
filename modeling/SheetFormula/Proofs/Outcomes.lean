import SheetFormula.Formula.Basic
import SheetFormula.Proofs.Translation

/-!
# What becomes of a text

A text that is typed into a cell is parsed, and then the expression of its token is built.  No text
brings about a defect on that way.  An empty text stays empty; a text that cannot be read keeps its
error; and the token of any other text makes one expression, unless a date in it does not exist or a
number in it has no value.
-/

namespace SheetFormula

namespace Node

variable {s : Settings} {n : Node} {children : List Node} {error : CellError}

/-- The error is that of a date in the tree that does not exist, or of a number in it that has no
value. -/
inductive Unreal (s : Settings) (n : Node) (error : CellError) : Prop
  | date {parts : DateParts} {children : List Node} :
      Within (.parent (.date parts) children) n → (s.dateOf parts).isReal = false →
      s.dateValue (Node.parent (.date parts) children).text parts = .error (.value error) →
      error.code = .value → Unreal s n error
  | number {number : Text × Decimal} : number ∈ n.numbers →
      s.numberValue number.1 number.2 = .error (.value error) → error.code = .num →
      Unreal s n error

/-- A tree makes one expression, or a value in it does not exist. -/
def MakesOne (s : Settings) (n : Node) : Prop :=
  (∃ e, n.expressions s = .ok [e]) ∨
    ∃ error, n.expressions s = .error (.value error) ∧ n.Unreal s error

theorem Builds.makesOne (h : n.Builds s) : n.MakesOne s := by
  cases h with
  | value _ _ hmakes => exact .inl ⟨_, hmakes⟩
  | fault hfault hfails =>
    obtain ⟨number, hmem, hnumber⟩ := List.exists_of_findSome?_eq_some hfault
    have hvalue := Settings.fault?_eq_some_iff.1 hnumber
    obtain ⟨error, rfl, hcode⟩ := Settings.numberValue_error hvalue
    exact .inr ⟨error, hfails, .number hmem hvalue hcode⟩

/-- A date has a value exactly when it exists. -/
theorem dateValue_cases (s : Settings) (t : Text) (parts : DateParts) :
    (∃ d, s.dateValue t parts = .ok d) ∨
      ∃ error, s.dateValue t parts = .error (.value error) ∧ error.code = .value ∧
        (s.dateOf parts).isReal = false := by
  simp only [Settings.dateValue]
  cases (s.dateOf parts).isReal with
  | true => exact .inl ⟨s.dateOf parts, rfl⟩
  | false => exact .inr ⟨_, rfl, rfl, rfl⟩

theorem expressionsOfAll_components (h : ∀ part ∈ operandsOf children, part.IsPart) :
    expressionsOfAll s children = .ok [] := by
  rw [← expressionsOfAll_operandsOf, expressionsOfAll_parts h]

/-- A date or a time makes one expression, or it is a date that does not exist. -/
theorem IsMoment.makesOne (h : n.IsMoment) : n.MakesOne s := by
  cases h with
  | @date parts children hparts =>
    have hmakes : (Node.parent (.date parts) children).expressions s = (do
        let date ← s.dateValue (Node.parent (.date parts) children).text parts
        return [.value (.date date)]) := by
      rw [expressions, expressionsOfAll_components hparts]
      rfl
    rcases dateValue_cases s (Node.parent (.date parts) children).text parts with
      ⟨d, hd⟩ | ⟨error, herror, hcode, hreal⟩
    · exact .inl ⟨_, by rw [hmakes, hd]; rfl⟩
    · exact .inr ⟨error, by rw [hmakes, herror]; rfl, .date .self hreal herror hcode⟩
  | time hparts =>
    exact .inl ⟨_, by rw [expressions, expressionsOfAll_components hparts]; rfl⟩

/-- What a tree has from one of its children it has itself. -/
theorem Unreal.of_moment {half : Node} {form : Form} (hform : ∀ d, form ≠ .number d)
    (hmem : half ∈ operandsOf children) (h : half.Unreal s error) :
    (Node.parent form children).Unreal s error := by
  have hchild : half ∈ children := (List.mem_filter.1 hmem).1
  cases h with
  | date hwithin hreal hvalue hcode => exact .date (.under hchild hwithin) hreal hvalue hcode
  | number hnumber hvalue hcode =>
    refine .number ?_ hvalue hcode
    rw [numbers_parent hform, ← numbersOfAll_operandsOf]
    obtain ⟨front, back, hsplit⟩ := List.append_of_mem hmem
    rw [hsplit, numbersOfAll_append, numbersOfAll_cons]
    simp [hnumber]

theorem expressionsOfAll_makesOne {ns : List Node} (h : ∀ n ∈ ns, n.MakesOne s) :
    (∃ results, expressionsOfAll s ns = .ok results) ∨
      ∃ n ∈ ns, ∃ error, expressionsOfAll s ns = .error (.value error) ∧ n.Unreal s error := by
  induction ns with
  | nil => exact .inl ⟨[], rfl⟩
  | cons n ns ih =>
    obtain ⟨hn, hns⟩ := List.forall_mem_cons.1 h
    rcases hn with ⟨e, hmakes⟩ | ⟨error, hfails, hunreal⟩
    · rcases ih hns with ⟨results, hresults⟩ | ⟨m, hm, error, hfails, hunreal⟩
      · exact .inl ⟨_, by rw [expressionsOfAll, hmakes, hresults]; rfl⟩
      · exact .inr ⟨m, List.mem_cons_of_mem _ hm, error,
          by rw [expressionsOfAll, hmakes, hfails]; rfl, hunreal⟩
    · exact .inr ⟨n, List.mem_cons_self .., error, by rw [expressionsOfAll, hfails]; rfl, hunreal⟩

theorem exists_date_of_kind (h : n.kind = .date) :
    ∃ parts children, n = .parent (.date parts) children := by
  cases n with
  | leaf content text => cases content <;> cases h
  | parent form children => cases form <;> first | exact ⟨_, _, rfl⟩ | cases h

/-- A date and time has a value unless its date does not exist. -/
theorem dateTimeValue_cases (s : Settings) (n : Node) :
    (∃ v, s.dateTimeValue n = .ok v) ∨
      ∃ half ∈ n.operands, ∃ error, s.dateTimeValue n = .error (.value error) ∧
        half.Unreal s error := by
  cases hdate : n.dateHalf? with
  | none => exact .inl ⟨_, by simp only [Settings.dateTimeValue, hdate]; rfl⟩
  | some half =>
    have hmem := List.mem_of_find?_eq_some hdate
    have hkind : half.kind = .date := by
      rw [dateHalf?] at hdate
      simpa using List.find?_some hdate
    obtain ⟨parts, children, rfl⟩ := exists_date_of_kind hkind
    rcases dateValue_cases s (Node.parent (.date parts) children).text parts with
      ⟨d, hd⟩ | ⟨error, herror, hcode, hreal⟩
    · exact .inl ⟨_, by simp only [Settings.dateTimeValue, hdate, hd]; rfl⟩
    · exact .inr ⟨_, hmem, error, by simp only [Settings.dateTimeValue, hdate, herror]; rfl,
        .date .self hreal herror hcode⟩

/-- Whatever is typed into a cell and read makes one expression, unless a value in it does not
exist. -/
theorem IsEntry.makesOne (h : n.IsEntry) : n.MakesOne s := by
  cases h with
  | term h => exact h.builds.makesOne
  | moment h => exact h.makesOne
  | @dateTime children hhalves =>
    rcases expressionsOfAll_makesOne fun half hhalf => (hhalves half hhalf).makesOne (s := s) with
      ⟨results, hresults⟩ | ⟨half, hmem, error, hfails, hunreal⟩
    · have hmakes : (Node.parent .dateTime children).expressions s = (do
          let value ← s.dateTimeValue (Node.parent .dateTime children)
          return [.value value]) := by
        rw [expressions, ← expressionsOfAll_operandsOf, hresults]
        rfl
      rcases dateTimeValue_cases s (Node.parent .dateTime children) with
        ⟨v, hv⟩ | ⟨half, hmem, error, hfails, hunreal⟩
      · exact .inl ⟨_, by rw [hmakes, hv]; rfl⟩
      · exact .inr ⟨error, by rw [hmakes, hfails]; rfl, hunreal.of_moment (by simp) hmem⟩
    · refine .inr ⟨error, ?_, hunreal.of_moment (by simp) hmem⟩
      rw [expressions, ← expressionsOfAll_operandsOf, hfails]
      rfl

end Node

/-! ### Formulas -/

/-- What can become of a text. -/
inductive Fate
  | empty
  | unreadable
  | built
  | unreal

/-- What the formula `g` is that came of a text by way of the formula `f` that was parsed. -/
def Fate.Holds (s : Settings) (text : Text) (f g : Formula) : Fate → Prop
  | empty =>
    text.isEmpty = true ∧ g.token? = none ∧ g.expression? = none ∧ g.error? = none
  | unreadable =>
    (∃ failure, Grammar.american.parse .valueOrExpression text = .error failure) ∧ g = f ∧
      g.token? = none ∧ g.expression? = none ∧
      ∃ error, g.error? = some error ∧
        (error.code = .other ∨ error.code = .ref ∨ error.code = .num)
  | built => ∃ token e, Grammar.american.parse .valueOrExpression text = .ok token ∧
      g.token? = some token ∧ g.expression? = some e ∧ g.error? = none
  | unreal => ∃ token error, Grammar.american.parse .valueOrExpression text = .ok token ∧
      g.token? = some token ∧ g.expression? = none ∧ g.error? = some error ∧
      (error.code = .value ∨ error.code = .num) ∧ token.Unreal s error

namespace Fate

variable {s : Settings} {text : Text} {f g : Formula} {fate fate' : Fate}

/-- Whether a formula of this fate has a token, an expression and an error. -/
def marks : Fate → Bool × Bool × Bool
  | empty => (false, false, false)
  | unreadable => (false, false, true)
  | built => (true, true, false)
  | unreal => (true, false, true)

theorem Holds.marks_eq (h : fate.Holds s text f g) :
    fate.marks = (g.token?.isSome, g.expression?.isSome, g.error?.isSome) := by
  cases fate with
  | empty =>
    obtain ⟨-, htoken, he, herror⟩ := h
    rw [htoken, he, herror]
    rfl
  | unreadable =>
    obtain ⟨-, -, htoken, he, error, herror, -⟩ := h
    rw [htoken, he, herror]
    rfl
  | built =>
    obtain ⟨token, e, -, htoken, he, herror⟩ := h
    rw [htoken, he, herror]
    rfl
  | unreal =>
    obtain ⟨token, error, -, htoken, he, herror, -⟩ := h
    rw [htoken, he, herror]
    rfl

/-- The fields of a formula tell its fate. -/
theorem Holds.unique (h : fate.Holds s text f g) (h' : fate'.Holds s text f g) : fate = fate' := by
  have hsame := h.marks_eq.trans h'.marks_eq.symm
  cases fate <;> cases fate' <;> first | rfl | cases hsame

end Fate

namespace Formula

/-- An error that is about no value of the formula is one of the application, and has a code. -/
theorem exists_code_of_toExpression {s : Settings} {f : Formula} {e : ExpressionError}
    (h : f.toExpression s = .error e) : ∃ code, e.cause.applicationCode? = some code := by
  cases htoken : f.token? with
  | none => simp [toExpression, htoken] at h
  | some token =>
    cases hbuilt : token.toExpression s with
    | ok e? => simp [toExpression, htoken, hbuilt] at h
    | error cause =>
      cases cause <;> simp only [toExpression, htoken, hbuilt] at h <;> cases h <;> exact ⟨_, rfl⟩

/-- Every text has one fate.  Building the expression of a formula that was parsed never comes upon
a defect, and the formula keeps its text. -/
theorem exists_fate (text : Text) (s : Settings) :
    ∃ g, (parse .american .valueOrExpression text).toExpression s = .ok g ∧ g.fullText = text ∧
      ∃! fate : Fate, fate.Holds s text (parse .american .valueOrExpression text) g := by
  -- A fate is unique since the fields of the formula tell it, so one has to be found.
  suffices h : ∃ g, (parse .american .valueOrExpression text).toExpression s = .ok g ∧
      g.fullText = text ∧
        ∃ fate : Fate, fate.Holds s text (parse .american .valueOrExpression text) g by
    obtain ⟨g, hg, htext, fate, hfate⟩ := h
    exact ⟨g, hg, htext, fate, hfate, fun _ h' => h'.unique hfate⟩
  cases hempty : text.isEmpty with
  | true =>
    have hparse : parse .american .valueOrExpression text = ofText text := by
      rw [parse, if_pos hempty]
    rw [hparse]
    exact ⟨ofText text, rfl, rfl, .empty, hempty, rfl, rfl, rfl⟩
  | false =>
    cases hread : Grammar.american.parse .valueOrExpression text with
    -- A parse of the American grammar fails with an error about the text, never with a defect.
    | error failure =>
      have hparse : parse .american .valueOrExpression text =
          { text := text, error? := some failure.cellError } := by
        rw [parse, if_neg (by simp [hempty]), hread]
      obtain ⟨e, rfl, habout⟩ := Grammar.failure_of_run Locale.hasSigns_default hread
      rw [hparse]
      refine ⟨_, rfl, rfl, .unreadable, ⟨_, hread⟩, rfl, rfl, rfl, _, rfl, ?_⟩
      rcases habout.code_cases with hcode | hcode | hcode
      · exact .inr (.inl hcode)
      · exact .inr (.inr hcode)
      · exact .inl hcode
    | ok token =>
      have hparse : parse .american .valueOrExpression text =
          { text := text, token? := some token } := by
        rw [parse, if_neg (by simp [hempty]), hread]
      -- The token is an entry, and that makes one expression or holds a value that does not exist.
      obtain ⟨c, hfound, -⟩ := Grammar.found_of_parse hread
      obtain ⟨_, hnodes, hentry⟩ := Rule.entry_valueOrExpression.found hfound
      obtain ⟨rfl, -⟩ := List.cons.inj hnodes
      have htext : (if text.isEmpty then token.text else text) = text :=
        if_neg (by simp [hempty])
      rw [hparse]
      rcases hentry.makesOne (s := s) with ⟨e, hmakes⟩ | ⟨error, hfails, hunreal⟩
      · have hbuilt := Node.toExpression_eq_ok_iff.2 hmakes
        exact ⟨{ text := text, token? := some token, expression? := some e },
          by simp only [toExpression, hbuilt], htext, .built, token, e, hread, rfl, rfl, rfl⟩
      · have hbuilt : token.toExpression s = .error (.value error) := by
          rw [Node.toExpression_eq, hfails]
          rfl
        refine ⟨{ text := text, token? := some token, error? := some error },
          by simp only [toExpression, hbuilt], htext, .unreal, token, error, hread, rfl, rfl, rfl,
          ?_, hunreal⟩
        cases hunreal with
        | date _ _ _ hcode => exact .inl hcode
        | number _ _ hcode => exact .inr hcode

end Formula

end SheetFormula
