import SheetFormula.Proofs.Storage
import SheetFormula.Proofs.Terms

/-!
# Expressions as translations of terms

`Node.Translates` says which expression a tree stands for, by the operands below each parent: an
operator joins what its two operands stand for, and a function is called with what its arguments
stand for, one after another.  The builder makes just that of a term.  It fails only where a number
has no value, and then with the error of the first such number from the left.
-/

namespace SheetFormula

/-- The error of a number without a value, if it has none. -/
def Settings.fault? (s : Settings) (number : Text × Decimal) : Option BuildError :=
  match s.numberValue number.1 number.2 with
  | .ok _ => none
  | .error e => some e

theorem Settings.fault?_eq_none_iff {s : Settings} {number : Text × Decimal} :
    s.fault? number = none ↔ ∃ v, s.numberValue number.1 number.2 = .ok v := by
  unfold fault?
  cases s.numberValue number.1 number.2 <;> simp

theorem Settings.fault?_eq_some_iff {s : Settings} {number : Text × Decimal} {e : BuildError} :
    s.fault? number = some e ↔ s.numberValue number.1 number.2 = .error e := by
  unfold fault?
  cases s.numberValue number.1 number.2 <;> simp

/-- A number without a value is told as a bad number. -/
theorem Settings.numberValue_error {s : Settings} {t : Text} {d : Decimal} {e : BuildError}
    (h : s.numberValue t d = .error e) : ∃ error, e = .value error ∧ error.code = .num := by
  unfold numberValue numberError at h
  split at h
  · split at h
    · cases h
    · exact ⟨_, (Except.error.inj h).symm, rfl⟩
  · split at h
    · cases h
    · split at h
      · cases h
      · exact ⟨_, (Except.error.inj h).symm, rfl⟩

namespace Node

mutual

/-- The numbers in a tree from left to right, each as it is written and with what it says. -/
def numbers : Node → List (Text × Decimal)
  | leaf _ _ => []
  | parent form children =>
    match form with
    | .number d => [((parent form children).text, d)]
    | _ => numbersOfAll children

/-- The numbers in trees from left to right. -/
def numbersOfAll : List Node → List (Text × Decimal)
  | [] => []
  | n :: rest => numbers n ++ numbersOfAll rest

end

/-- The expression that a tree stands for. -/
inductive Translates (s : Settings) : Node → Expression → Prop
  | error (code : ErrorCode) (t : Text) :
      Translates s (.leaf (.error code) t) (.value (.error (.of code .empty)))
  | boolean (value : Bool) (t : Text) :
      Translates s (.leaf (.boolean value) t) (.value (.boolean value))
  | label (name t : Text) : Translates s (.leaf (.label name) t) (.reference (.label name))
  | number {d : Decimal} {parts : List Node} {v : Value} :
      s.numberValue (parent (.number d) parts).text d = .ok v →
      Translates s (.parent (.number d) parts) (.value v)
  | text (value : Text) (parts : List Node) :
      Translates s (.parent (.text value) parts) (.value (.text value))
  | cell (reference : Cell) (parts : List Node) :
      Translates s (.parent (.cell reference) parts) (.reference (.cell reference))
  | cellRange (reference : CellRange) (parts : List Node) :
      Translates s (.parent (.cellRange reference) parts) (.reference (.range reference))
  | negative {children : List Node} {n : Node} {e : Expression} : operandsOf children = [n] →
      Translates s n e → Translates s (.parent (.unary .negative) children) (.negative e)
  /-- Parentheses and the equals sign in front of a formula add nothing. -/
  | wrapped {wrapper : Wrapper} {children : List Node} {n : Node} {e : Expression} :
      wrapper ≠ .negative → operandsOf children = [n] → Translates s n e →
      Translates s (.parent (.unary wrapper) children) e
  | binary {op : Operator} {children : List Node} {left right : Node} {l r : Expression} :
      operandsOf children = [left, right] → Translates s left l → Translates s right r →
      Translates s (.parent (.binary op) children) (.binary (.listed op) l r)
  | call {name written : Text} {children params : List Node} {args : List (Node × Expression)} :
      operandsOf children = [nameOf written, .parent .functionParameters params] →
      operandsOf params = args.map Prod.fst → (∀ arg ∈ args, Translates s arg.1 arg.2) →
      Translates s (.parent (.namedFunction name) children)
        (.call (.function (Rule.upperCase written)) (args.map Prod.snd))
  /-- What a lambda declares is called first, and the result with the values. -/
  | lambda {name written : Text} {children declared values : List Node}
      {args args' : List (Node × Expression)} :
      operandsOf children = [nameOf written, .parent .functionParameters declared,
        .parent .functionParameters values] →
      operandsOf declared = args.map Prod.fst → (∀ arg ∈ args, Translates s arg.1 arg.2) →
      operandsOf values = args'.map Prod.fst → (∀ arg ∈ args', Translates s arg.1 arg.2) →
      Translates s (.parent (.lambda name) children)
        (.call (.call (.function (Rule.upperCase written)) (args.map Prod.snd))
          (args'.map Prod.snd))

variable {s : Settings} {n : Node} {ns ms children : List Node} {e : Expression}

/-! ### Numbers from left to right -/

@[simp] theorem numbers_leaf (content : Content) (t : Text) : (leaf content t).numbers = [] := by
  rw [numbers]

theorem numbers_number (d : Decimal) (parts : List Node) :
    (parent (.number d) parts).numbers = [((parent (.number d) parts).text, d)] := by
  rw [numbers]

theorem numbers_parent {form : Form} (h : ∀ d, form ≠ .number d) :
    (parent form children).numbers = numbersOfAll children := by
  rw [numbers]
  exact h

@[simp] theorem numbersOfAll_nil : numbersOfAll [] = [] := by rw [numbersOfAll]

@[simp] theorem numbersOfAll_cons : numbersOfAll (n :: ns) = n.numbers ++ numbersOfAll ns := by
  rw [numbersOfAll]

@[simp] theorem numbersOfAll_append :
    numbersOfAll (ns ++ ms) = numbersOfAll ns ++ numbersOfAll ms := by
  induction ns with
  | nil => simp
  | cons n ns ih => simp [ih]

/-- There are no numbers in noise. -/
theorem numbersOfAll_operandsOf : numbersOfAll (operandsOf ns) = numbersOfAll ns := by
  induction ns with
  | nil => rfl
  | cons n ns ih =>
    cases hn : n.isNoise with
    | false =>
      have hcons : operandsOf (n :: ns) = n :: operandsOf ns := by simp [operandsOf, hn]
      rw [hcons, numbersOfAll_cons, numbersOfAll_cons, ih]
    | true =>
      have hcons : operandsOf (n :: ns) = operandsOf ns := by simp [operandsOf, hn]
      have hnone : n.numbers = [] := by
        cases n with
        | leaf content t => exact numbers_leaf ..
        | parent form children =>
          rw [isNoise_parent] at hn
          cases hn
      rw [hcons, numbersOfAll_cons, ih, hnone, List.nil_append]

theorem numbersOfAll_parts (h : ∀ part ∈ ns, part.IsPart) : numbersOfAll ns = [] := by
  induction ns with
  | nil => rfl
  | cons n ns ih =>
    obtain ⟨⟨content, t, rfl, -, -⟩, hns⟩ := List.forall_mem_cons.1 h
    rw [numbersOfAll_cons, numbers_leaf, ih hns]
    rfl

theorem expressionsOfAll_parts (h : ∀ part ∈ ns, part.IsPart) :
    expressionsOfAll s ns = .ok [] := by
  induction ns with
  | nil => rfl
  | cons n ns ih =>
    obtain ⟨⟨content, t, rfl, -, hbuild⟩, hns⟩ := List.forall_mem_cons.1 h
    rw [expressionsOfAll_cons_leaf hbuild, ih hns]

/-- A token makes its expressions by itself. -/
theorem expressions_of_parts {form : Form} (h : ∀ part ∈ ns, part.IsPart) :
    (parent form ns).expressions s = s.buildNode (parent form ns) [] := by
  rw [expressions, expressionsOfAll_parts h]
  rfl

theorem numbers_of_parts {form : Form} (hform : ∀ d, form ≠ .number d)
    (h : ∀ part ∈ ns, part.IsPart) : (parent form ns).numbers = [] := by
  rw [numbers_parent hform, numbersOfAll_parts h]

/-! ### One translation -/

theorem map_snd_unique {args args' : List (Node × Expression)}
    (hargs : ∀ arg ∈ args, ∀ e, Translates s arg.1 e → e = arg.2)
    (hargs' : ∀ arg ∈ args', Translates s arg.1 arg.2)
    (h : args'.map Prod.fst = args.map Prod.fst) : args'.map Prod.snd = args.map Prod.snd := by
  induction args generalizing args' with
  | nil =>
    rw [List.map_eq_nil_iff.1 h]
  | cons arg args ih =>
    obtain ⟨arg', args', rfl, hfst, hmore⟩ := List.map_eq_cons_iff.1 h
    obtain ⟨harg, hargs⟩ := List.forall_mem_cons.1 hargs
    obtain ⟨harg', hargs'⟩ := List.forall_mem_cons.1 hargs'
    rw [List.map_cons, List.map_cons, ih hargs hargs' hmore, harg arg'.2 (hfst ▸ harg')]

theorem nameOf_inj {t u : Text} (h : nameOf t = nameOf u) : t = u := (leaf.inj h).2

/-- A tree stands for one expression only. -/
theorem Translates.unique (h : Translates s n e) {e' : Expression} (h' : Translates s n e') :
    e' = e := by
  -- By induction on the first derivation; the form of the node settles which rule the second ends
  -- in.
  induction h generalizing e' with
  | error | boolean | label | text | cell | cellRange =>
    cases h'
    rfl
  | number hv =>
    cases h' with
    | number hv' =>
      rw [hv] at hv'
      cases hv'
      rfl
  | negative hoperand _ ih =>
    cases h' with
    | negative hoperand' he' =>
      rw [hoperand] at hoperand'
      cases hoperand'
      rw [ih he']
    | wrapped hne => exact absurd rfl hne
  | wrapped hne hoperand _ ih =>
    cases h' with
    | negative => exact absurd rfl hne
    | wrapped _ hoperand' he' =>
      rw [hoperand] at hoperand'
      cases hoperand'
      exact ih he'
  | binary hoperands _ _ ihl ihr =>
    cases h' with
    | binary hoperands' hl' hr' =>
      rw [hoperands] at hoperands'
      cases hoperands'
      rw [ihl hl', ihr hr']
  | call hoperands hparams _ ih =>
    cases h' with
    | call hoperands' hparams' hargs' =>
      obtain ⟨hname, rfl⟩ := by simpa using hoperands.symm.trans hoperands'
      obtain rfl := nameOf_inj hname
      rw [map_snd_unique (fun arg harg _ he => ih arg harg he) hargs'
        (hparams'.symm.trans hparams)]
  | lambda hoperands hdeclared _ hvalues _ ih ih' =>
    cases h' with
    | lambda hoperands' hdeclared' hargs hvalues' hargs' =>
      obtain ⟨hname, rfl, rfl⟩ := by simpa using hoperands.symm.trans hoperands'
      obtain rfl := nameOf_inj hname
      rw [map_snd_unique (fun arg harg _ he => ih arg harg he) hargs
          (hdeclared'.symm.trans hdeclared),
        map_snd_unique (fun arg harg _ he => ih' arg harg he) hargs'
          (hvalues'.symm.trans hvalues)]

/-! ### What is built -/

/-- A node makes what it stands for, or the first number without a value stops the building. -/
inductive Builds (s : Settings) (n : Node) : Prop
  | value {e : Expression} : n.numbers.findSome? s.fault? = none → Translates s n e →
      n.expressions s = .ok [e] → Builds s n
  | fault {error : BuildError} : n.numbers.findSome? s.fault? = some error →
      n.expressions s = .error error → Builds s n

/-- Nodes make what they stand for one after another, or the first number without a value stops the
building. -/
inductive BuildInTurn (s : Settings) (ns : List Node) : Prop
  | values {args : List (Node × Expression)} : (numbersOfAll ns).findSome? s.fault? = none →
      ns = args.map Prod.fst → (∀ arg ∈ args, Translates s arg.1 arg.2) →
      expressionsOfAll s ns = .ok (args.map Prod.snd) → BuildInTurn s ns
  | fault {error : BuildError} : (numbersOfAll ns).findSome? s.fault? = some error →
      expressionsOfAll s ns = .error error → BuildInTurn s ns

theorem buildInTurn_of_forall (h : ∀ n ∈ ns, Builds s n) : BuildInTurn s ns := by
  induction ns with
  | nil =>
    have hargs : [] = ([] : List (Node × Expression)).map Prod.fst := rfl
    exact .values rfl hargs (List.forall_mem_nil _) rfl
  | cons n ns ih =>
    obtain ⟨hn, hns⟩ := List.forall_mem_cons.1 h
    -- The first fault among all numbers is the first of the first node that has one.
    cases hn with
    | fault hfault hbuild =>
      refine .fault ?_ (by rw [expressionsOfAll, hbuild]; rfl)
      rw [numbersOfAll_cons, List.findSome?_append, hfault]
      rfl
    | @value e hnone he hbuild =>
      have hnumbers : (numbersOfAll (n :: ns)).findSome? s.fault? =
          (numbersOfAll ns).findSome? s.fault? := by
        rw [numbersOfAll_cons, List.findSome?_append, hnone]
        rfl
      cases ih hns with
      | fault hfault hrest =>
        exact .fault (hnumbers.trans hfault) (by rw [expressionsOfAll, hbuild, hrest]; rfl)
      | @values args hnones hfst hargs hrest =>
        have hcons : n :: ns = ((n, e) :: args).map Prod.fst := by rw [List.map_cons, ← hfst]
        refine .values (hnumbers.trans hnones) hcons (List.forall_mem_cons.2 ⟨he, hargs⟩) ?_
        rw [expressionsOfAll, hbuild, hrest]
        rfl

/-- A parent of which only the listed nodes make expressions. -/
theorem Builds.parent {form : Form} (hform : ∀ d, form ≠ .number d)
    (hnumbers : numbersOfAll children = numbersOfAll ns)
    (hexpressions : expressionsOfAll s children = expressionsOfAll s ns) (hns : BuildInTurn s ns)
    (hbuild : ∀ args : List (Node × Expression), ns = args.map Prod.fst →
      (∀ arg ∈ args, Translates s arg.1 arg.2) →
      ∃ e, Translates s (Node.parent form children) e ∧
        s.buildNode (Node.parent form children) (args.map Prod.snd) = .ok [e]) :
    Builds s (Node.parent form children) := by
  have hparent : (Node.parent form children).expressions s =
      expressionsOfAll s ns >>= s.buildNode (Node.parent form children) := by
    rw [expressions, hexpressions]
  have hall : (Node.parent form children).numbers = numbersOfAll ns :=
    (numbers_parent hform).trans hnumbers
  cases hns with
  | fault hfault hrest => exact .fault (hall ▸ hfault) (by rw [hparent, hrest]; rfl)
  | values hnone hfst hargs hrest =>
    obtain ⟨e, he, hmakes⟩ := hbuild _ hfst hargs
    exact .value (hall ▸ hnone) he (by rw [hparent, hrest]; exact hmakes)

/-- A parent of operands that all make expressions. -/
theorem Builds.operands {form : Form} (hform : ∀ d, form ≠ .number d)
    (hoperands : operandsOf children = ns) (hns : ∀ n ∈ ns, Builds s n)
    (hbuild : ∀ args : List (Node × Expression), ns = args.map Prod.fst →
      (∀ arg ∈ args, Translates s arg.1 arg.2) →
      ∃ e, Translates s (Node.parent form children) e ∧
        s.buildNode (Node.parent form children) (args.map Prod.snd) = .ok [e]) :
    Builds s (Node.parent form children) :=
  .parent hform (hoperands ▸ numbersOfAll_operandsOf.symm)
    (hoperands ▸ expressionsOfAll_operandsOf.symm) (buildInTurn_of_forall hns) hbuild

theorem numbersOfAll_parameters {params : List Node} :
    numbersOfAll (parent .functionParameters params :: ns) =
      numbersOfAll (operandsOf params) ++ numbersOfAll ns := by
  rw [numbersOfAll_cons, numbers_parent (by simp), numbersOfAll_operandsOf]

theorem expressionsOfAll_append : expressionsOfAll s (ns ++ ms) = (do
    let first ← expressionsOfAll s ns
    let more ← expressionsOfAll s ms
    return first ++ more) := by
  induction ns with
  | nil =>
    show expressionsOfAll s ms = (expressionsOfAll s ms >>= fun more => Except.ok more)
    cases expressionsOfAll s ms <;> rfl
  | cons n ns ih =>
    rw [List.cons_append, expressionsOfAll, expressionsOfAll, ih]
    cases n.expressions s with
    | error e => rfl
    | ok first =>
      cases expressionsOfAll s ns with
      | error e => rfl
      | ok more =>
        cases expressionsOfAll s ms with
        | error e => rfl
        | ok rest => simp [bind, Except.bind, pure, Except.pure]

theorem expressionsOfAll_parameters {params : List Node} :
    expressionsOfAll s (parent .functionParameters params :: ns) =
      expressionsOfAll s (operandsOf params ++ ns) := by
  rw [expressionsOfAll_append, expressionsOfAll, expressions_functionParameters,
    expressionsOfAll_operandsOf]

theorem IsAtom.builds (h : n.IsAtom) : Builds s n := by
  -- Of the atoms only a number can be at fault, and it is the only number in itself.
  cases h with
  | error code t => exact .value rfl (.error code t) rfl
  | boolean value t => exact .value rfl (.boolean value t) rfl
  | label name t => exact .value rfl (.label name t) rfl
  | @number d parts hparts =>
    have hmakes : (Node.parent (.number d) parts).expressions s = (do
        let value ← s.numberValue (Node.parent (.number d) parts).text d
        return [.value value]) := expressions_of_parts hparts
    cases hv : s.numberValue (Node.parent (.number d) parts).text d with
    | ok v =>
      refine .value ?_ (.number hv) (by rw [hmakes, hv]; rfl)
      rw [numbers_number, List.findSome?_singleton]
      exact Settings.fault?_eq_none_iff.2 ⟨v, hv⟩
    | error error =>
      refine .fault ?_ (by rw [hmakes, hv]; rfl)
      rw [numbers_number, List.findSome?_singleton]
      exact Settings.fault?_eq_some_iff.2 hv
  | @text value parts hparts =>
    exact .value (by rw [numbers_of_parts (by simp) hparts]; rfl) (.text value parts)
      (expressions_of_parts hparts)
  | @cell reference parts hparts =>
    exact .value (by rw [numbers_of_parts (by simp) hparts]; rfl) (.cell reference parts)
      (expressions_of_parts hparts)
  | @cellRange reference first last ns ms t hns hms =>
    have hfirst : (Node.parent (.cell first) ns).expressions s = .ok [.reference (.cell first)] :=
      expressions_of_parts hns
    have hlast : (Node.parent (.cell last) ms).expressions s = .ok [.reference (.cell last)] :=
      expressions_of_parts hms
    refine .value ?_ (.cellRange reference _) ?_
    · rw [numbers_parent (by simp), numbersOfAll_cons, numbersOfAll_cons, numbersOfAll_cons,
        numbers_of_parts (by simp) hns, numbers_of_parts (by simp) hms]
      rfl
    · refine expressions_parent_eq_ok_iff.2 ⟨[.reference (.cell first), .reference (.cell last)],
        ?_, rfl⟩
      rw [expressionsOfAll, hfirst, expressionsOfAll_cons_leaf rfl, expressionsOfAll_singleton,
        hlast]
      rfl

/-- The builder makes of a term what it stands for. -/
theorem IsTerm.builds (h : n.IsTerm) : Builds s n := by
  induction h with
  | atom h => exact h.builds
  | @unary wrapper children m hoperand _ ih =>
    have hbuilds := List.forall_mem_singleton.2 ih
    refine .operands (by simp) hoperand hbuilds fun args hfst hargs => ?_
    obtain ⟨arg, rfl, rfl⟩ := List.map_eq_singleton_iff.1 hfst.symm
    have he := hargs arg (List.mem_singleton_self _)
    by_cases hwrapper : wrapper = .negative
    · subst hwrapper
      exact ⟨_, .negative hoperand he, rfl⟩
    · exact ⟨_, .wrapped hwrapper hoperand he, by simp [Settings.buildNode, hwrapper]⟩
  | @binary op children left right hoperands _ _ ihl ihr =>
    have hboth : ∀ n ∈ [left, right], Builds s n :=
      List.forall_mem_cons.2 ⟨ihl, List.forall_mem_singleton.2 ihr⟩
    refine .operands (by simp) hoperands hboth fun args hfst hargs => ?_
    obtain ⟨l, _, rfl, rfl, hrest⟩ := List.map_eq_cons_iff.1 hfst.symm
    obtain ⟨r, rfl, rfl⟩ := List.map_eq_singleton_iff.1 hrest
    exact ⟨_, .binary hoperands (hargs l (by simp)) (hargs r (by simp)), rfl⟩
  | @call written children params hoperands _ ih =>
    refine .parent (by simp) ?_ ?_ (buildInTurn_of_forall ih) fun args hfst hargs =>
      ⟨_, .call hoperands hfst hargs, rfl⟩
    · rw [← numbersOfAll_operandsOf, hoperands, numbersOfAll_cons, nameOf, numbers_leaf,
        numbersOfAll_parameters, numbersOfAll_nil, List.append_nil, List.nil_append]
    · rw [← expressionsOfAll_operandsOf, hoperands, nameOf, expressionsOfAll_cons_leaf rfl,
        expressionsOfAll_parameters, List.append_nil]
  | @lambda written children declared values hoperands _ _ ih ih' =>
    have hall : ∀ n ∈ operandsOf declared ++ operandsOf values, Builds s n :=
      List.forall_mem_append.2 ⟨ih, ih'⟩
    refine .parent (by simp) ?_ ?_ (buildInTurn_of_forall hall) fun args hfst hargs => ?_
    · rw [← numbersOfAll_operandsOf, hoperands, numbersOfAll_cons, nameOf, numbers_leaf,
        numbersOfAll_parameters, numbersOfAll_parameters, numbersOfAll_nil, List.append_nil,
        List.nil_append, numbersOfAll_append]
    · rw [← expressionsOfAll_operandsOf, hoperands, nameOf, expressionsOfAll_cons_leaf rfl,
        expressionsOfAll_parameters, expressionsOfAll_append, expressionsOfAll_parameters,
        List.append_nil, ← expressionsOfAll_append]
    · -- The flat list of arguments is cut where the declared ones end.
      obtain ⟨first, more, rfl, hfirst, hmore⟩ := List.map_eq_append_iff.1 hfst.symm
      obtain ⟨hdeclared, hvalues⟩ := List.forall_mem_append.1 hargs
      refine ⟨_, .lambda hoperands hfirst.symm hdeclared hmore.symm hvalues, ?_⟩
      have hcount : Settings.declaredCount
          (Node.parent (.lambda (Rule.upperCase written)) children) =
            (first.map Prod.snd).length := by
        rw [Settings.declaredCount, Node.operands, Node.children, hoperands, List.length_map]
        exact congrArg List.length hfirst.symm |>.trans (List.length_map ..)
      simp only [Settings.buildNode, hcount, List.map_append, List.length_append,
        List.take_left', List.drop_left', Nat.not_lt.2 (Nat.le_add_right ..), if_false]

end Node

namespace Grammar

/-- The builder translates what the parser reads.  If all numbers in the tree have values, there is
an expression, and it is the one that the tree stands for; otherwise the error is that of the first
number without a value. -/
theorem toExpression_translates (g : Grammar) (text : Text) (n : Node) (s : Settings)
    (h : g.parse .expression text = .ok n) :
    ((∀ number ∈ n.numbers, ∃ v, s.numberValue number.1 number.2 = .ok v) ∧
      ∃ e, n.toExpression s = .ok (some e) ∧ ∀ e', n.Translates s e' ↔ e' = e) ∨
    ∃ front number back error, n.numbers = front ++ number :: back ∧
      (∀ m ∈ front, ∃ v, s.numberValue m.1 m.2 = .ok v) ∧
      s.numberValue number.1 number.2 = .error (.value error) ∧ error.code = .num ∧
      n.toExpression s = .error (.value error) := by
  obtain ⟨c, hfound, -⟩ := found_of_parse h
  obtain ⟨_, hnodes, hterm⟩ := Rule.term_expression.found hfound
  obtain ⟨rfl, -⟩ := List.cons.inj hnodes
  cases hterm.builds (s := s) with
  | @value e hnone he hmakes =>
    refine .inl ⟨fun number hnumber => ?_, e, Node.toExpression_eq_ok_iff.2 hmakes, fun e' =>
      ⟨he.unique, fun heq => heq ▸ he⟩⟩
    exact Settings.fault?_eq_none_iff.1 (List.findSome?_eq_none_iff.1 hnone number hnumber)
  | @fault e hfault hmakes =>
    -- The first number at fault is the one that the error is about.
    obtain ⟨front, number, back, hnumbers, hnumber, hfront⟩ := List.findSome?_eq_some_iff.1 hfault
    have hvalue := Settings.fault?_eq_some_iff.1 hnumber
    obtain ⟨error, rfl, hcode⟩ := Settings.numberValue_error hvalue
    refine .inr ⟨front, number, back, error, hnumbers, fun m hm => ?_, hvalue, hcode, ?_⟩
    · exact Settings.fault?_eq_none_iff.1 (hfront m hm)
    · rw [Node.toExpression_eq, hmakes]
      rfl

/-- A number that is too large for a double stands for a decimal. -/
theorem toExpression_translates_large : ∃ n, american.parse .expression "-Lambda(x)(1, 1e400) ^ 2" =
    .ok n ∧
    (∃ e, n.toExpression { today := ⟨2024, 2, 29⟩ } = .ok (some e) ∧
      n.Translates { today := ⟨2024, 2, 29⟩ } e) ∧
    ∃ error, n.toExpression { today := ⟨2024, 2, 29⟩, numberKind := .double } =
      .error (.value error) ∧ error.code = .num := by
  have hcheck : (american.parse .expression "-Lambda(x)(1, 1e400) ^ 2").toOption.any (fun n =>
      (n.toExpression { today := ⟨2024, 2, 29⟩ }).isOk &&
        !(n.toExpression { today := ⟨2024, 2, 29⟩, numberKind := .double }).isOk) = true := by
    decide +kernel
  obtain ⟨n, hn, hcheck⟩ := exists_ok_of_any hcheck
  obtain ⟨hdecimal, hdouble⟩ := Bool.and_eq_true_iff.1 hcheck
  refine ⟨n, hn, ?_, ?_⟩
  · rcases toExpression_translates american _ n { today := ⟨2024, 2, 29⟩ } hn with
      ⟨-, e, he, hunique⟩ | ⟨_, _, _, _, -, -, -, -, hfails⟩
    · exact ⟨e, he, (hunique e).2 rfl⟩
    · rw [hfails] at hdecimal
      cases hdecimal
  · rcases toExpression_translates american _ n
      { today := ⟨2024, 2, 29⟩, numberKind := .double } hn with
      ⟨-, e, he, -⟩ | ⟨_, _, _, error, -, -, -, hcode, hfails⟩
    · rw [he] at hdouble
      cases hdouble
    · exact ⟨error, hfails, hcode⟩

end Grammar

end SheetFormula
