import SheetFormula.Proofs.Keys
import SheetFormula.Proofs.WrittenTokens

/-!
# Printing and parsing

An expression is written with every operator in parentheses, so it can be read back wherever an
operand stands.  `Restores` says of the runes that an expression is written with that they are such
an operand and make the same expression again.  Every constructor of expressions keeps it, and so it
holds of whatever a parsed text evaluates to: `Grammar.parse_text_same`.
-/

namespace SheetFormula

/-! ### The text of an expression -/

namespace Expression

/-- The text of arguments with commas between them. -/
def argumentsText (args : List Expression) : Text := ⟨argumentsOnto [] args⟩

theorem shownOnto_append {e : Expression} (h : ∀ tail, e.bytesOnto tail = e.bytesOnto [] ++ tail)
    (tail : List UInt8) :
    e.shownOnto tail (e.bytesOnto tail) = e.shownOnto [] (e.bytesOnto []) ++ tail := by
  unfold shownOnto
  split_ifs
  · exact h tail
  · rw [List.append_nil]

mutual

/-- What an expression is written in front of stays as it is. -/
theorem bytesOnto_append (tail : List UInt8) (e : Expression) :
    e.bytesOnto tail = e.bytesOnto [] ++ tail := by
  match e with
  | missing | value _ | reference _ | function _ => simp [bytesOnto]
  | negative operand =>
    simp only [bytesOnto]
    rw [bytesOnto_append tail operand]
    rfl
  | binary op left right =>
    have hleft := shownOnto_append fun tail => bytesOnto_append tail left
    have hright := shownOnto_append fun tail => bytesOnto_append tail right
    simp only [bytesOnto]
    rw [hleft, hright, hleft (op.sign.bytes ++ _), hright [41]]
    simp
  | call callee args =>
    have hcallee := shownOnto_append fun tail => bytesOnto_append tail callee
    simp only [bytesOnto]
    rw [hcallee, argumentsOnto_append (41 :: tail) args, hcallee (40 :: _),
      argumentsOnto_append [41] args]
    simp

theorem argumentsOnto_append (tail : List UInt8) (args : List Expression) :
    argumentsOnto tail args = argumentsOnto [] args ++ tail := by
  match args with
  | [] => rfl
  | [arg] =>
    simp only [argumentsOnto]
    exact bytesOnto_append tail arg
  | arg :: next :: rest =>
    simp only [argumentsOnto]
    rw [bytesOnto_append, argumentsOnto_append tail (next :: rest), bytesOnto_append (44 :: _) arg]
    simp

end

variable {e left right callee : Expression} {args : List Expression}

theorem shownOnto_of_isWritable (h : e.isWritable = true) (tail written : List UInt8) :
    e.shownOnto tail written = written := by
  simp [shownOnto, h]

theorem text_negative : (negative e).text = "-" ++ e.text := rfl

theorem text_binary (op : Op) (hleft : left.isWritable = true) (hright : right.isWritable = true) :
    (binary op left right).text = .join ["(", left.text, op.sign, right.text, ")"] := by
  rw [text, bytesOnto, shownOnto_of_isWritable hleft, shownOnto_of_isWritable hright,
    bytesOnto_append _ left, bytesOnto_append _ right]
  simp [Text.join, text]
  rfl

theorem text_call (h : callee.isWritable = true) :
    (call callee args).text = .join [callee.text, "(", argumentsText args, ")"] := by
  rw [text, bytesOnto, shownOnto_of_isWritable h, bytesOnto_append _ callee,
    argumentsOnto_append [41] args]
  simp [Text.join, text, argumentsText]
  rfl

theorem argumentsText_cons (arg next : Expression) (rest : List Expression) :
    argumentsText (arg :: next :: rest) = .join [arg.text, ",", argumentsText (next :: rest)] := by
  rw [argumentsText]
  simp only [argumentsOnto]
  rw [bytesOnto_append]
  simp [Text.join, text, argumentsText]
  rfl

end Expression

/-! ### What is read back -/

/-- Runes that an expression is written with, and that make it again where an operand stands. -/
structure Restores (s : Settings) (e : Expression) (w : List Rune) : Prop where
  writable : e.isWritable = true
  text : e.text = .ofRunes w
  isSealed : Text.Sealed w
  reads : w.length ≤ maxFormulaLength →
    ∃ n e', Derives .operand n w ∧ n.expressions s = .ok [e'] ∧ e'.same e = true

/-- Runes that arguments are written with, and that make them again in parentheses. -/
structure RestoresAll (s : Settings) (args : List Expression) (w : List Rune) : Prop where
  writable : Expression.allWritable args = true
  text : Expression.argumentsText args = .ofRunes w
  isSealed : Text.Sealed w
  reads : w.length ≤ maxFormulaLength →
    ∃ n args', Derives .parameters n (.scalar '(' :: (w ++ [.scalar ')'])) ∧
      n.expressions s = .ok args' ∧ n.operands.length = args'.length ∧
        Expression.sameAll args' args = true

variable {s : Settings} {e left right : Expression} {args : List Expression} {n m : Node}
  {u v w : List Rune}

/-! ### Tokens -/

theorem text_value (x : Value) : (Expression.value x).text = x.written := by
  simp [Expression.text, Expression.bytesOnto]

theorem text_reference (r : Reference) : (Expression.reference r).text = r.text := by
  simp [Expression.text, Expression.bytesOnto]

theorem text_function (name : Text) : (Expression.function name).text = name := by
  simp [Expression.text, Expression.bytesOnto]

theorem Restores.token (hwritable : e.isWritable = true) (htext : e.text = .ofRunes w)
    (h : IsToken n w) (hmakes : n.expressions s = .ok [e]) (hsame : e.same e = true) :
    Restores s e w :=
  ⟨hwritable, htext, h.sealed, fun _ => ⟨n, e, .token h, hmakes, hsame⟩⟩

/-- Decimals that are not negative and have been rounded are written with all their digits and read
back as the same number. -/
theorem exists_restores_decimal (hkind : s.numberKind = .decimal) {d : Decimal}
    (hnegative : d.negative = false)
    (hrounded : ∀ p ∈ s.precision?, p = 0 ∨ Decimal.digitCount d.coefficient ≤ p) :
    ∃ w, Restores s (.value (.decimal d)) w := by
  obtain ⟨w, htext, hscalar, hreads⟩ := Rule.isToken_decimal hnegative
  refine ⟨w, rfl, (text_value _).trans htext, Text.sealed_of_isScalar hscalar, fun hlength => ?_⟩
  have hlimit : (w.length : Int) ≤ Decimal.exponentLimit := by
    simp only [maxFormulaLength, Decimal.exponentLimit] at hlength ⊢
    omega
  obtain ⟨hcount, n, hn, hmakes⟩ := hreads hlimit
  cases hprecision : s.precision? with
  | none =>
    have hvalue : s.numberValue n.text d.spread = .ok (.decimal d.spread) := by
      simp [Settings.numberValue, hkind, hprecision]
    obtain ⟨d', hround, hsame⟩ := Decimal.round_spread (p := 0) (.inl rfl) hcount
    rw [Decimal.round_of_le (.inl rfl)] at hround
    cases hround
    exact ⟨n, _, .token hn, hmakes s _ hvalue, hsame⟩
  | some p =>
    obtain ⟨d', hround, hsame⟩ := Decimal.round_spread (hrounded p hprecision) hcount
    have hvalue : s.numberValue n.text d.spread = .ok (.decimal d') := by
      simp [Settings.numberValue, hkind, hprecision, hround]
    exact ⟨n, _, .token hn, hmakes s _ hvalue, hsame⟩

/-- What a number evaluates to is a decimal that has been rounded. -/
theorem numberValue_eq_ok (hkind : s.numberKind = .decimal) {t : Text} {d : Decimal} {x : Value}
    (hnegative : d.negative = false) (h : s.numberValue t d = .ok x) :
    ∃ d', x = .decimal d' ∧ d'.negative = false ∧
      ∀ p ∈ s.precision?, p = 0 ∨ Decimal.digitCount d'.coefficient ≤ p := by
  cases hprecision : s.precision? with
  | none =>
    simp only [Settings.numberValue, hkind, hprecision] at h
    cases h
    exact ⟨d, rfl, hnegative, nofun⟩
  | some p =>
    simp only [Settings.numberValue, hkind, hprecision] at h
    cases hround : d.round p with
    | error fault =>
      rw [hround] at h
      cases h
    | ok d' =>
      rw [hround] at h
      cases h
      obtain ⟨hsign, hdigits⟩ := Decimal.round_eq_ok hround
      exact ⟨d', rfl, hsign.trans hnegative, fun q hq => by cases hq; exact hdigits⟩

/-- Every token makes one expression, which is written as a token that makes it again. -/
theorem exists_restores_of_isToken (hkind : s.numberKind = .decimal) (h : IsToken n w)
    (hmakes : n.expressions s = .ok args) : ∃ e, args = [e] ∧ ∃ v, Restores s e v := by
  rcases Rule.findsToken_of_isToken h with
    hquoted | herror | hnumber | hboolean | ⟨-, hrange | hcell | ⟨-, hlabel⟩⟩
  · -- Quoted texts and labels are printed as they were written, and so the token itself will do.
    obtain ⟨value, children, rfl, htext⟩ := Rule.quoteText_of_isToken h hquoted
    obtain ⟨_, -, hbuilt⟩ := Node.expressions_parent_eq_ok_iff.1 hmakes
    cases hbuilt
    exact ⟨_, rfl, w, .token rfl ((text_value _).trans htext) h hmakes
      (by simp [Expression.same, Value.same])⟩
  · -- Errors and booleans are printed in capitals.
    obtain ⟨-, word, hmatch, hnodes⟩ := Rule.errorLiteral_found_iff.1 herror
    obtain ⟨rfl, -⟩ := List.cons.inj hnodes
    cases hmakes
    have hmem := (WordList.longestAt_spec (WordList.matchAt_eq_some hmatch).1).1
    have hshown : (CellError.of word.meaning .empty).shown = word.meaning.defaultMessage := by
      simp [CellError.of, CellError.shown, Text.isEmpty, Text.empty]
    refine ⟨_, rfl, _, .token rfl ?_ (Rule.isToken_error hmem) rfl
      (by simp [Expression.same, Value.same])⟩
    rw [text_value, Text.ofRunes_runes]
    exact hshown
  · -- A number is printed as it was rounded, and rounding it again changes nothing.
    obtain ⟨d, children, hnodes, hnegative⟩ := Rule.negative_of_number hnumber
    obtain ⟨rfl, -⟩ := List.cons.inj hnodes
    obtain ⟨_, -, hbuilt⟩ := Node.expressions_parent_eq_ok_iff.1 hmakes
    obtain ⟨x, hx, hbuilt⟩ := bind_eq_ok_iff.1 hbuilt
    cases hbuilt
    obtain ⟨d', rfl, hnegative', hrounded⟩ := numberValue_eq_ok hkind hnegative hx
    exact ⟨_, rfl, exists_restores_decimal hkind hnegative' hrounded⟩
  · obtain ⟨-, -, word, -, hnodes⟩ := Rule.boolean_found_iff.1 hboolean
    obtain ⟨rfl, -⟩ := List.cons.inj hnodes
    cases hmakes
    refine ⟨_, rfl, _, .token rfl ?_ (Rule.isToken_boolean word.meaning) rfl
      (by simp [Expression.same, Value.same])⟩
    rw [text_value, Text.ofRunes_runes]
  · -- References are printed in capitals and without leading zeros.
    obtain ⟨_, m, -, hm, hnodes⟩ := Rule.transform_found_iff.1 hrange
    obtain ⟨rfl, -⟩ := List.cons.inj hnodes
    obtain ⟨first, _, last, _, -, -, rfl⟩ := Node.cellRange_eq_ok_iff.1 hm
    obtain ⟨_, -, hbuilt⟩ := Node.expressions_parent_eq_ok_iff.1 hmakes
    cases hbuilt
    obtain ⟨m, v, htext, htoken, hmakes'⟩ := Rule.isToken_cellRange ⟨first, last⟩
    exact ⟨_, rfl, v, .token rfl ((text_reference _).trans htext) htoken (hmakes' s)
      (by simp [Expression.same])⟩
  · obtain ⟨_, _, _, m, -, -, -, -, hm, hnodes⟩ :=
      Rule.readCell_found_iff.1 (Rule.cell_found_iff.1 hcell)
    obtain ⟨rfl, -⟩ := List.cons.inj hnodes
    obtain ⟨column, _, row, _, -, rfl⟩ := Node.cell_eq_ok_iff.1 hm
    obtain ⟨_, -, hbuilt⟩ := Node.expressions_parent_eq_ok_iff.1 hmakes
    cases hbuilt
    obtain ⟨m, v, htext, htoken, hmakes'⟩ := Rule.isToken_cell ⟨column, row⟩
    exact ⟨_, rfl, v, .token rfl ((text_reference _).trans htext) htoken (hmakes' s)
      (by simp [Expression.same])⟩
  · obtain ⟨-, -, -, -, -, -, hnodes⟩ := Rule.label_found_iff.1 hlabel
    obtain ⟨rfl, -⟩ := List.cons.inj hnodes
    cases hmakes
    have htext := h.spells
    rw [Node.text_leaf] at htext
    exact ⟨_, rfl, w, .token rfl ((text_reference _).trans htext) h rfl (by simp [Expression.same])⟩

/-! ### Operators -/

theorem Operator.mem_operatorSigns (op : Operator) : (op.symbol, op.sign.toList) ∈ operatorSigns ∧
    Operator.ofSymbol? op.symbol = some op ∧ op.symbol ≠ .between := by
  rcases op with _ | _ | _ | _ | _ | c
  all_goals first | decide | (cases c <;> decide)

/-- Two operands with a sign between them reduce to the operator of that sign. -/
theorem Derives.binary (op : Operator) (hn : Derives .operand n u) (hm : Derives .operand m v) :
    Derives .expression (.parent (.binary op) [n, symbolLeaf op.symbol op.sign.toList, m])
      (u ++ (op.sign.toList.map .scalar ++ v)) := by
  obtain ⟨hsign, hsymbol, hbetween⟩ := op.mem_operatorSigns
  let j : Joined := ⟨[], op.symbol, op.sign.toList, [], m, v⟩
  have hj : j.IsBy operatorSigns := ⟨allBlank_nil, hsign, allBlank_nil⟩
  have htree : (OperatorTree.ofRun n ([] ++ j.link :: [])).node? =
      some (.parent (.binary op) [n, symbolLeaf op.symbol op.sign.toList, m]) := by
    rw [OperatorTree.ofRun_append j.link (by simp) (by simp), OperatorTree.ofRun_nil,
      OperatorTree.ofRun_nil]
    show j.link.1.join? n m = _
    rw [Joint.join?_operator hbetween, show j.link.1.symbol = op.symbol from rfl, hsymbol]
    rfl
  have hderived := Derives.of_run hn (List.forall_mem_singleton.2 hj)
    (List.forall_mem_singleton.2 hm) htree
  simpa [Joined.runes, j] using hderived

theorem text_sign (op : Operator) :
    (Op.listed op).sign = .ofRunes (op.sign.toList.map .scalar) := by
  rw [Text.ofRunes_map_scalar]
  rfl

/-- Every operator is written in parentheses, so it is an operand. -/
theorem Restores.binary (op : Operator) (hleft : Restores s left u) (hright : Restores s right v) :
    Restores s (.binary (.listed op) left right)
      (.scalar '(' :: (u ++ (op.sign.toList.map .scalar ++ v) ++ [.scalar ')'])) where
  writable := rfl
  text := by
    rw [Expression.text_binary _ hleft.writable hright.writable, hleft.text, hright.text, text_sign]
    exact (Text.join_map_ofRunes
      [[.scalar '('], u, op.sign.toList.map .scalar, v, [.scalar ')']]).trans (by simp)
  isSealed := by
    have hsign : Text.Sealed (op.sign.toList.map .scalar) :=
      Text.sealed_of_isScalar (List.forall_mem_map.2 fun _ _ => rfl)
    exact (Text.sealed_scalar '(').append
      ((hleft.isSealed.append (hsign.append hright.isSealed)).append (Text.sealed_scalar ')'))
  reads := by
    intro hlength
    simp only [List.length_cons, List.length_append] at hlength
    obtain ⟨n, l, hn, hnMakes, hl⟩ := hleft.reads (by omega)
    obtain ⟨m, r, hm, hmMakes, hr⟩ := hright.reads (by omega)
    have hgroup := Derives.group (s := []) (t := []) allBlank_nil allBlank_nil (hn.binary op hm)
    -- The parentheses are a group around the operator, which passes on what stands inside it.
    refine ⟨_, .binary (.listed op) l r, hgroup, ?_, ?_⟩
    · refine Node.expressions_unary_eq_ok_iff.2 ⟨.binary (.listed op) l r, ?_, rfl⟩
      rw [← Node.expressionsOfAll_operandsOf, operandsOf_group rfl, Node.expressionsOfAll_singleton]
      refine Node.expressions_binary_eq_ok_iff.2 ⟨l, r, ?_, rfl⟩
      rw [← Node.expressionsOfAll_operandsOf, operandsOf_cons hn.isNoise, operandsOf_symbolLeaf,
        operandsOf_cons hm.isNoise]
      exact Node.expressionsOfAll_cons_eq_ok_iff.2
        ⟨[l], [r], hnMakes, Node.expressionsOfAll_singleton.trans hmMakes, rfl⟩
    · simp [Expression.same, hl, hr]

theorem Restores.negative (h : Restores s e w) : Restores s (.negative e) (.scalar '-' :: w) where
  writable := h.writable
  text := by
    rw [Expression.text_negative, h.text]
    rfl
  isSealed := (Text.sealed_scalar '-').append h.isSealed
  reads := by
    intro hlength
    obtain ⟨n, e', hn, hmakes, he⟩ := h.reads (Nat.le_of_succ_le hlength)
    refine ⟨_, .negative e', Derives.negative (s := []) allBlank_nil hn, ?_, he⟩
    refine Node.expressions_unary_eq_ok_iff.2 ⟨e', ?_, rfl⟩
    rw [← Node.expressionsOfAll_operandsOf, operandsOf_negative hn.isNoise,
      Node.expressionsOfAll_singleton, hmakes]

/-! ### Calls -/

section Arguments

variable {runes : Expression → List Rune}

/-- How arguments behind the first one are written, each with a comma in front. -/
def behindCommas (runes : Expression → List Rune) (args : List Expression) : List Rune :=
  args.flatMap fun arg => .scalar ',' :: runes arg

theorem behindCommas_cons : behindCommas runes (e :: args) =
    .scalar ',' :: runes e ++ behindCommas runes args := List.flatMap_cons

theorem exists_joined_of_forall (h : ∀ e ∈ args, Restores s e (runes e))
    (hlength : (behindCommas runes args).length ≤ maxFormulaLength) :
    ∃ (joined : List Joined) (args' : List Expression), (∀ j ∈ joined, j.IsBy argumentSigns) ∧
      (∀ j ∈ joined, Derives .operand j.node j.written) ∧
      joined.flatMap Joined.runes = behindCommas runes args ∧
      Node.expressionsOfAll s (joined.map Joined.node) = .ok args' ∧
      joined.length = args'.length ∧ Expression.sameAll args' args = true := by
  induction args with
  | nil => exact ⟨[], [], List.forall_mem_nil _, List.forall_mem_nil _, rfl, rfl, rfl, rfl⟩
  | cons e args ih =>
    obtain ⟨he, hargs⟩ := List.forall_mem_cons.1 h
    rw [behindCommas_cons, List.length_append, List.length_cons] at hlength
    obtain ⟨joined, args', hby, hderives, hwritten, hmakes, hcount, hsame⟩ := ih hargs (by omega)
    obtain ⟨n, e', hn, hnMakes, he'⟩ := he.reads (by omega)
    refine ⟨⟨[], .valueSeparator, [','], [], n, runes e⟩ :: joined, e' :: args',
      List.forall_mem_cons.2 ⟨⟨allBlank_nil, List.mem_singleton.2 rfl, allBlank_nil⟩, hby⟩,
      List.forall_mem_cons.2 ⟨hn, hderives⟩, ?_, ?_, congrArg Nat.succ hcount, ?_⟩
    · rw [List.flatMap_cons, hwritten]
      rfl
    · exact Node.expressionsOfAll_cons_eq_ok_iff.2 ⟨[e'], args', hnMakes, hmakes, rfl⟩
    · simp [Expression.sameAll, he', hsame]

theorem argumentsText_of_forall (he : Restores s e (runes e))
    (h : ∀ e ∈ args, Restores s e (runes e)) :
    Expression.argumentsText (e :: args) = .ofRunes (runes e ++ behindCommas runes args) := by
  induction args generalizing e with
  | nil =>
    rw [behindCommas, List.flatMap_nil, List.append_nil]
    exact he.text
  | cons next args ih =>
    obtain ⟨hnext, hargs⟩ := List.forall_mem_cons.1 h
    rw [Expression.argumentsText_cons, ih hnext hargs, he.text, behindCommas_cons]
    exact (Text.join_map_ofRunes [runes e, [.scalar ','], _]).trans (by simp)

theorem sealed_of_forall (h : ∀ e ∈ args, Restores s e (runes e)) :
    Text.Sealed (behindCommas runes args) := by
  induction args with
  | nil => exact Text.sealed_nil
  | cons e args ih =>
    obtain ⟨he, hargs⟩ := List.forall_mem_cons.1 h
    exact ((Text.sealed_scalar ',').append he.isSealed).append (ih hargs)

theorem allWritable_of_forall (h : ∀ e ∈ args, Restores s e (runes e)) :
    Expression.allWritable args = true := by
  induction args with
  | nil => rfl
  | cons e args ih =>
    obtain ⟨he, hargs⟩ := List.forall_mem_cons.1 h
    rw [Expression.allWritable, he.writable, ih hargs]
    rfl

end Arguments

/-- Expressions that can be written and read back one by one can be so in parentheses. -/
theorem restoresAll_of_forall (h : ∀ e ∈ args, ∃ w, Restores s e w) :
    ∃ w, RestoresAll s args w := by
  choose! runes hrunes using h
  have hwritable := allWritable_of_forall hrunes
  cases args with
  | nil =>
    refine ⟨[], hwritable, rfl, Text.sealed_nil, fun _ => ?_⟩
    exact ⟨_, [], Derives.noArguments (s := []) allBlank_nil, rfl, rfl, rfl⟩
  | cons e args =>
    obtain ⟨he, hargs⟩ := List.forall_mem_cons.1 hrunes
    -- The first argument stands alone, and the others each behind a comma.
    refine ⟨_, hwritable, argumentsText_of_forall he hargs,
      he.isSealed.append (sealed_of_forall hargs), fun hlength => ?_⟩
    rw [List.length_append] at hlength
    obtain ⟨n, e', hn, hnMakes, he'⟩ := he.reads (by omega)
    obtain ⟨joined, args', hby, hderives, hwritten, hmakes, hcount, hsame⟩ :=
      exists_joined_of_forall hargs (by omega)
    have harguments := Derives.arguments (s := []) (t := []) allBlank_nil allBlank_nil hn.alone hby
      fun j hj => (hderives j hj).alone
    have hoperands := operandsOf_arguments [] [] hn.isNoise
      fun j hj => (hderives j hj).isNoise
    rw [hwritten] at harguments
    refine ⟨_, e' :: args', by rw [List.append_assoc]; exact harguments, ?_, ?_, ?_⟩
    · rw [Node.expressions_functionParameters, ← Node.expressionsOfAll_operandsOf, hoperands]
      exact Node.expressionsOfAll_cons_eq_ok_iff.2 ⟨[e'], args', hnMakes, hmakes, rfl⟩
    · refine (congrArg List.length hoperands).trans ?_
      rw [List.length_cons, List.length_map, hcount]
      rfl
    · simp [Expression.sameAll, he', hsame]

/-- The runes of a call: the callee and the arguments in parentheses. -/
def callRunes (callee args : List Rune) : List Rune :=
  callee ++ .scalar '(' :: (args ++ [.scalar ')'])

theorem text_call {callee : Expression} (hcallee : callee.isWritable = true)
    (htext : callee.text = .ofRunes v) (h : RestoresAll s args w) :
    (Expression.call callee args).text = .ofRunes (callRunes v w) := by
  rw [Expression.text_call hcallee, htext, h.text]
  exact (Text.join_map_ofRunes [v, [.scalar '('], w, [.scalar ')']]).trans (by simp [callRunes])

theorem sealed_call (hv : Text.Sealed v) (h : RestoresAll s args w) :
    Text.Sealed (callRunes v w) :=
  hv.append ((Text.sealed_scalar '(').append (h.isSealed.append (Text.sealed_scalar ')')))

theorem Restores.call (hg : Rule.IsCapitalName v) (h : RestoresAll s args w) :
    Restores s (.call (.function (.ofRunes v)) args) (callRunes v w) where
  writable := h.writable
  text := text_call rfl (text_function _) h
  isSealed := sealed_call (Text.sealed_of_isScalar hg.scalar) h
  reads := by
    intro hlength
    simp only [callRunes, List.length_append, List.length_cons] at hlength
    obtain ⟨n, args', hn, hmakes, -, hsame⟩ := h.reads (by omega)
    refine ⟨_, .call (.function (.ofRunes v)) args', Derives.call hg.name hn, ?_, ?_⟩
    · rw [hg.capital]
      refine Node.expressions_namedFunction_eq_ok_iff.2 ⟨args', ?_, rfl⟩
      rw [nameLeaf, Node.expressionsOfAll_cons_leaf rfl, Node.expressionsOfAll_singleton, hmakes]
    · simp [Expression.same, hsame]

/-- The parameters that a lambda declares are told by their number from those it is called with. -/
theorem expressions_lambda {f : List Rune} {name : Text} (hm : m.isNoise = false)
    (hn : n.isNoise = false)
    (hcount : ∀ declared, m.expressions s = .ok declared → m.operands.length = declared.length) :
    (Node.parent (.lambda name) [nameLeaf f, m, n]).expressions s = .ok args ↔
      ∃ declared called, m.expressions s = .ok declared ∧ n.expressions s = .ok called ∧
        args = [.call (.call (.function name) declared) called] := by
  have hdeclared : Settings.declaredCount (.parent (.lambda name) [nameLeaf f, m, n]) =
      m.operands.length := by
    have hoperands :
        (Node.parent (.lambda name) [nameLeaf f, m, n]).operands = [nameLeaf f, m, n] := by
      show nameLeaf f :: Node.operandsOf [m, n] = _
      rw [operandsOf_cons hm, operandsOf_cons hn]
      rfl
    rw [Settings.declaredCount, hoperands]
  rw [Node.expressions_lambda_eq_ok_iff, hdeclared, nameLeaf, Node.expressionsOfAll_cons_leaf rfl]
  simp only [Node.expressionsOfAll_cons_eq_ok_iff]
  -- Both lists of arguments arrive as one, which is cut where the declared ones end.
  constructor
  · rintro ⟨_, ⟨declared, _, hdeclares, ⟨called, _, hcalls, hnil, rfl⟩, rfl⟩, -, rfl⟩
    obtain rfl := Except.ok.inj hnil
    refine ⟨declared, called, hdeclares, hcalls, ?_⟩
    rw [hcount declared hdeclares, List.append_nil, List.take_left, List.drop_left]
  · rintro ⟨declared, called, hdeclares, hcalls, rfl⟩
    refine ⟨_, ⟨declared, _, hdeclares, ⟨called, [], hcalls, rfl, rfl⟩, rfl⟩, ?_, ?_⟩
    · rw [hcount declared hdeclares, List.length_append]
      exact Nat.le_add_right ..
    · rw [hcount declared hdeclares, List.append_nil, List.take_left, List.drop_left]

theorem Restores.lambda {args' : List Expression} (hg : Rule.IsCapitalName u)
    (hlambda : Text.ofRunes u = "LAMBDA") (h : RestoresAll s args v) (h' : RestoresAll s args' w) :
    Restores s (.call (.call (.function "LAMBDA") args) args') (callRunes (callRunes u v) w) where
  writable := h'.writable
  text := by
    have hname : (Expression.function "LAMBDA").text = .ofRunes u :=
      (text_function _).trans hlambda.symm
    exact text_call h.writable (text_call rfl hname h) h'
  isSealed := sealed_call (sealed_call (Text.sealed_of_isScalar hg.scalar) h) h'
  reads := by
    intro hlength
    simp only [callRunes, List.length_append, List.length_cons] at hlength
    obtain ⟨m, declared, hm, hmMakes, hcount, hsame⟩ := h.reads (by omega)
    obtain ⟨n, called, hn, hnMakes, -, hsame'⟩ := h'.reads (by omega)
    have hderived := Derives.lambda hg.name (hg.capital.trans hlambda) hm hn
    have hrunes : callRunes (callRunes u v) w = u ++ (.scalar '(' :: (v ++ [.scalar ')']) ++
        .scalar '(' :: (w ++ [.scalar ')'])) := List.append_assoc ..
    rw [← hrunes] at hderived
    refine ⟨_, .call (.call (.function "LAMBDA") declared) called, hderived, ?_, ?_⟩
    · refine (expressions_lambda hm.isNoise hn.isNoise fun args hargs => ?_).2
        ⟨declared, called, hmMakes, hnMakes, rfl⟩
      rw [hcount, Except.ok.inj (hmMakes.symm.trans hargs)]
    · simp [Expression.same, hsame, hsame']

/-! ### All that is derived -/

/-- An operand that makes one expression, which can be written and read back. -/
structure IsRestored (s : Settings) (n : Node) : Prop where
  operand : n.isNoise = false
  makes : ∀ {args}, n.expressions s = .ok args → ∃ e, args = [e] ∧ ∃ w, Restores s e w

/-- Parameters make an expression of every operand, and all can be written and read back. -/
structure AreRestored (s : Settings) (n : Node) : Prop where
  operand : n.isNoise = false
  makes : ∀ {args}, n.expressions s = .ok args →
    n.operands.length = args.length ∧ ∀ e ∈ args, ∃ w, Restores s e w

/-- What is said of the trees of a category. -/
def Category.Restored (s : Settings) : Category → Node → Prop
  | .operand | .expression => IsRestored s
  | .parameters => AreRestored s

theorem restores_of_expressionsOfAll {ns : List Node} (h : ∀ n ∈ ns, IsRestored s n)
    (hmakes : Node.expressionsOfAll s ns = .ok args) :
    ns.length = args.length ∧ ∀ e ∈ args, ∃ w, Restores s e w := by
  induction ns generalizing args with
  | nil =>
    cases hmakes
    exact ⟨rfl, List.forall_mem_nil _⟩
  | cons n ns ih =>
    obtain ⟨hn, hns⟩ := List.forall_mem_cons.1 h
    obtain ⟨first, more, hfirst, hmore, rfl⟩ := Node.expressionsOfAll_cons_eq_ok_iff.1 hmakes
    obtain ⟨e, rfl, he⟩ := hn.makes hfirst
    obtain ⟨hlength, hall⟩ := ih hns hmore
    exact ⟨congrArg Nat.succ hlength, List.forall_mem_cons.2 ⟨he, hall⟩⟩

/-- Operators join what can be written and read back to what can be so. -/
theorem isRestored_of_ofRun {head : Node} {links : Links Node}
    (hlinks : ∀ l ∈ links, IsRestored s l.2 ∧ l.1.symbol ≠ .between) (hhead : IsRestored s head)
    (h : (OperatorTree.ofRun head links).node? = some n) : IsRestored s n := by
  refine Node.node?_ofRun_keeps hhead (fun l hl => (hlinks l hl).1) ?_ h
  intro l hl left right n hleft hright hjoin
  rw [Joint.join?_operator (hlinks l hl).2] at hjoin
  obtain ⟨op, -, rfl⟩ := Option.map_eq_some_iff.1 hjoin
  refine ⟨rfl, fun {args} hmakes => ?_⟩
  obtain ⟨l, r, hpair, rfl⟩ := Node.expressions_binary_eq_ok_iff.1 hmakes
  rw [← Node.expressionsOfAll_operandsOf, Node.operandsOf_joint, operandsOf_cons hleft.operand,
    operandsOf_cons hright.operand] at hpair
  have hboth : ∀ n ∈ [left, right], IsRestored s n :=
    List.forall_mem_cons.2 ⟨hleft, List.forall_mem_singleton.2 hright⟩
  obtain ⟨-, hall⟩ := restores_of_expressionsOfAll hboth hpair
  obtain ⟨⟨u, hu⟩, hall⟩ := List.forall_mem_cons.1 hall
  obtain ⟨v, hv⟩ := hall r (List.mem_singleton_self r)
  exact ⟨_, rfl, _, .binary op hu hv⟩

theorem Joined.IsBy.symbol_ne_between {j : Joined} (h : j.IsBy operatorSigns) :
    j.symbol ≠ .between := by
  have hsigns : ∀ s ∈ operatorSigns, s.1 ≠ Symbol.between := by decide
  exact hsigns _ h.sign

/-- Whatever is derived makes expressions that can be written and read back. -/
theorem Derives.restored (hkind : s.numberKind = .decimal) {k : Category} (h : Derives k n w) :
    k.Restored s n := by
  induction h with
  | token h => exact ⟨h.operand, exists_restores_of_isToken hkind h⟩
  | @negative t w n _ hn ih =>
    refine ⟨rfl, fun {args} hmakes => ?_⟩
    obtain ⟨e, hinner, rfl⟩ := Node.expressions_unary_eq_ok_iff.1 hmakes
    rw [← Node.expressionsOfAll_operandsOf, operandsOf_negative hn.isNoise,
      Node.expressionsOfAll_singleton] at hinner
    obtain ⟨e', he, w, hw⟩ := ih.makes hinner
    cases he
    exact ⟨_, rfl, _, hw.negative⟩
  | @group t t' w n _ _ hn ih =>
    refine ⟨rfl, fun {args} hmakes => ?_⟩
    obtain ⟨e, hinner, rfl⟩ := Node.expressions_unary_eq_ok_iff.1 hmakes
    rw [← Node.expressionsOfAll_operandsOf, operandsOf_group hn.isNoise,
      Node.expressionsOfAll_singleton] at hinner
    -- A group makes what its operand makes: the printer puts its own parentheses.
    exact ih.makes hinner
  | @call f w n hf hn ih =>
    refine ⟨rfl, fun {args} hmakes => ?_⟩
    obtain ⟨args', hinner, rfl⟩ := Node.expressions_namedFunction_eq_ok_iff.1 hmakes
    rw [nameLeaf, Node.expressionsOfAll_cons_leaf rfl, Node.expressionsOfAll_singleton] at hinner
    obtain ⟨g, hname, hg⟩ := Rule.exists_capitalName hf
    obtain ⟨v, hv⟩ := restoresAll_of_forall (ih.makes hinner).2
    rw [hname]
    exact ⟨_, rfl, _, .call hg hv⟩
  | @lambda f v w m n hf hlambda hm hn ihm ihn =>
    refine ⟨rfl, fun {args} hmakes => ?_⟩
    obtain ⟨declared, called, hdeclared, hcalled, rfl⟩ :=
      (expressions_lambda hm.isNoise hn.isNoise fun declared hdeclared =>
        (ihm.makes hdeclared).1).1 hmakes
    obtain ⟨g, hname, hg⟩ := Rule.exists_capitalName hf
    obtain ⟨u, hu⟩ := restoresAll_of_forall (ihm.makes hdeclared).2
    obtain ⟨v, hv⟩ := restoresAll_of_forall (ihn.makes hcalled).2
    exact ⟨_, rfl, _, .lambda hg (hname.symm.trans hlambda) hu hv⟩
  | @expression w head n joined hhead hby hjoined hn ihhead ihjoined =>
    -- The parser folds the run into its tree; every operator of the tree is printed in parentheses.
    refine isRestored_of_ofRun (List.forall_mem_map.2 fun j hj => ?_) ihhead
      ((reduce_joined_eq_ok_iff hhead.isNoise hby fun j hj => (hjoined j hj).isNoise).1 hn)
    exact ⟨ihjoined j hj, (hby j hj).symbol_ne_between⟩
  | @noArguments t _ =>
    have hoperands : Node.operandsOf (symbolLeaf .parenthesisOpen ['('] ::
        (spaces t ++ [symbolLeaf .parenthesisClose [')']])) = [] := operandsOf_between
    refine ⟨rfl, fun {args} hmakes => ?_⟩
    rw [Node.expressions_functionParameters, ← Node.expressionsOfAll_operandsOf,
      hoperands] at hmakes
    cases hmakes
    exact ⟨congrArg List.length hoperands, List.forall_mem_nil _⟩
  | @arguments t t' w first joined _ _ hfirst hby hjoined ihfirst ihjoined =>
    have hoperands := operandsOf_arguments t t' hfirst.isNoise
      fun j hj => (hjoined j hj).isNoise
    refine ⟨rfl, fun {args} hmakes => ?_⟩
    rw [Node.expressions_functionParameters, ← Node.expressionsOfAll_operandsOf,
      hoperands] at hmakes
    obtain ⟨hlength, hall⟩ := restores_of_expressionsOfAll
      (List.forall_mem_cons.2 ⟨ihfirst, List.forall_mem_map.2 ihjoined⟩) hmakes
    exact ⟨(congrArg List.length hoperands).trans hlength, hall⟩

namespace Grammar

/-- Printing an expression and parsing it back gives the same expression. -/
theorem parse_text_same (s : Settings) (hkind : s.numberKind = .decimal) (text : Text) (n : Node)
    (e : Expression) (hparse : american.parse .expression text = .ok n)
    (he : n.toExpression s = .ok (some e))
    (hlength : (("=" : Text) ++ e.text).runeCount ≤ maxFormulaLength) :
    ∃ m e', american.parse .valueOrExpression ("=" ++ e.text) = .ok m ∧
      m.toExpression s = .ok (some e') ∧ e'.same e = true := by
  obtain ⟨c, hfound, -⟩ := found_of_parse hparse
  obtain ⟨_, w, hnodes, -, hn⟩ := Rule.expression_sound (Text.settled_runes text) hfound
  obtain ⟨rfl, -⟩ := List.cons.inj hnodes
  obtain ⟨e', heq, v, hv⟩ := (hn.restored hkind).makes (Node.toExpression_eq_ok_iff.1 he)
  cases heq
  have hrunes : (("=" : Text) ++ e.text).runes = .scalar '=' :: v := by
    rw [hv.text]
    have hall := ((Text.sealed_scalar '=').append hv.isSealed).settled
    rwa [Text.Settled, Text.ofRunes_append] at hall
  rw [Text.runeCount, hrunes] at hlength
  obtain ⟨m, e', hm, hmakes, hsame⟩ := hv.reads (Nat.le_of_succ_le hlength)
  -- Behind the sign stands an expression, so the whole is read as a formula.
  have hformula :=
    Rule.formula_finds (s := []) (t := []) allBlank_nil allBlank_nil hm.alone (p := 0) rfl
  rw [List.append_nil, List.nil_append, List.append_nil, ← hrunes] at hformula
  refine ⟨_, e', parse_eq_ok_of_found ?_ (Rule.alternatives_cons_found_iff.2 (.inl hformula)) rfl,
    ?_, hsame⟩
  · rw [hrunes]
    exact hlength
  · rw [Node.toExpression_eq_ok_iff, Node.expressions_unary_eq_ok_iff]
    refine ⟨e', ?_, rfl⟩
    rw [← Node.expressionsOfAll_operandsOf, operandsOf_between, operandsOf_cons hm.isNoise]
    exact Node.expressionsOfAll_singleton.trans hmakes

/-- A formula with most of what an expression is made of, and its expression with three digits. -/
theorem parse_text_same_three_digits :
    ∃ n e m e',
      american.parse .expression "-.33333 * lambda(x, \"a\"\"\")(Sum($a01:b2)) <> #n/a" = .ok n ∧
      n.toExpression { today := ⟨2024, 2, 29⟩, precision? := some 3 } = .ok (some e) ∧
      e.text = "((-0.333*LAMBDA(x,\"a\"\"\")(SUM($A1:B2)))<>#N/A)" ∧
      american.parse .valueOrExpression ("=" ++ e.text) = .ok m ∧
      m.toExpression { today := ⟨2024, 2, 29⟩, precision? := some 3 } = .ok (some e') ∧
      e'.same e = true := by
  have hcheck : (american.parse .expression
      "-.33333 * lambda(x, \"a\"\"\")(Sum($a01:b2)) <> #n/a").toOption.any (fun n =>
        (n.toExpression { today := ⟨2024, 2, 29⟩, precision? := some 3 }).toOption.any fun e? =>
          e?.any fun e =>
            decide (e.text = ("((-0.333*LAMBDA(x,\"a\"\"\")(SUM($A1:B2)))<>#N/A)" : Text))) =
      true := by
    decide +kernel
  obtain ⟨n, hn, hcheck⟩ := exists_ok_of_any hcheck
  obtain ⟨_, he, hcheck⟩ := exists_ok_of_any hcheck
  obtain ⟨e, rfl, hcheck⟩ := (Option.any_eq_true ..).1 hcheck
  have htext := of_decide_eq_true hcheck
  have hlength : (("=" : Text) ++ e.text).runeCount ≤ maxFormulaLength := by
    rw [htext]
    decide +kernel
  obtain ⟨m, e', hm, hmakes, hsame⟩ := parse_text_same _ rfl _ n e hn he hlength
  exact ⟨n, e, m, e', hn, he, htext, hm, hmakes, hsame⟩

end Grammar

end SheetFormula
