import SheetFormula.Proofs.Wiring

/-!
# Rules that are made of themselves

An operand may hold expressions, and parameters hold them too, while expressions are made of
operands; and the rounds of a list are followed by rounds.  `Rule.operand` and `Rule.repeated` bound
their own depth by the runes that are left.  That bound decides nothing: both are what they are made
of, with themselves inside, and they ask themselves only behind a rune, `Rule.CallsBehind`.

In a locale without NULs no rule of a grammar leaves its text, `Grammar.rules_stay_in_text`: absent
it leaves the cursor where it was, and otherwise it ends there or further on.

* `Rule.AgreesBelow`: two rules that answer alike on short texts, and what combinators make of them;
* `Rule.repeatedThen`, `Rule.operand_eq`: one round and one level of nesting;
* `Grammar.Stored`: the rules that a grammar holds.
-/

namespace SheetFormula

namespace Cursor

/-- The cursor at a position of a text. -/
def inText (text : Text) (p : Nat) : Cursor := ⟨p, text.runes.drop p⟩

/-- What is passed from a position of a text on leads to a position of that text. -/
theorem Passes.exists_inText {text : Text} {p : Nat} {w : List Rune} {next : Cursor}
    (hp : p ≤ text.runeCount) (h : (inText text p).Passes w next) :
    ∃ q, p ≤ q ∧ q ≤ text.runeCount ∧ next = inText text q := by
  have hrest : text.runes.drop p = w ++ next.rest := h.rest
  have hpos : next.pos = p + w.length := h.pos
  have hlength := congrArg List.length hrest
  rw [List.length_drop, List.length_append] at hlength
  rw [Text.runeCount] at hp ⊢
  refine ⟨p + w.length, by omega, by omega, ?_⟩
  obtain ⟨pos, rest⟩ := next
  have hdrop : text.runes.drop (p + w.length) = rest := by
    rw [← List.drop_drop, hrest, List.drop_left]
  rw [inText, hdrop, ← hpos]

end Cursor

namespace Rule

variable {k : Nat} {r r' inner inner' again again' : Rule} {rules rules' : List Rule}
  {build : List Node → Except Defect Node} {c : Cursor} {g : Grammar}

/-! ### Rules that answer alike on short texts -/

/-- Where fewer than `k` runes are left, `r` answers as `r'` does, which never moves a cursor
back. -/
structure AgreesBelow (k : Nat) (r r' : Rule) : Prop where
  moves : Keeps Cursor.Moves r'
  agrees : ∀ c : Cursor, c.rest.length < k → r c = r' c

/-- Where fewer than `k` runes are left, rules one after another answer as others do, which never
move a cursor back. -/
structure AgreeInTurn (k : Nat) (rules rules' : List Rule) : Prop where
  moves : KeepInTurn Cursor.Moves rules'
  agrees : ∀ start c : Cursor, c.rest.length < k →
    sequenceFrom start rules c = sequenceFrom start rules' c

theorem AgreesBelow.refl (h : Keeps Cursor.Moves r) : AgreesBelow k r r := ⟨h, fun _ _ => rfl⟩

theorem agreesBelow_symbol (s : Symbol) {word : List Char} (hnul : nul ∉ word) :
    AgreesBelow k (symbol s word) (symbol s word) :=
  .refl (gives_symbol (k := k) s hnul).moves

theorem agreesBelow_optionalWhitespace :
    AgreesBelow k optionalWhitespace optionalWhitespace :=
  .refl (gives_optionalWhitespace (k := k)).moves

theorem agreeInTurn_nil : AgreeInTurn k [] [] :=
  ⟨compositional_moves.keepInTurn_nil, fun _ _ _ => rfl⟩

/-- A rule stands before others that agree on what it leaves them. -/
theorem AgreeInTurn.cons_of_leaves {m : Nat} (hr : AgreesBelow k r r')
    (hrules : AgreeInTurn m rules rules')
    (hleaves : ∀ {c next : Cursor} {nodes : List Node}, c.rest.length < k →
      r' c = (.found nodes, next) → next.rest.length < m) :
    AgreeInTurn k (r :: rules) (r' :: rules') where
  moves := compositional_moves.keepInTurn_cons hr.moves hrules.moves
  agrees start c hlt := by
    rw [sequenceFrom, sequenceFrom, hr.agrees c hlt]
    rcases hfirst : r' c with ⟨_ | nodes | failure, mid⟩
    · rfl
    · simp only [hrules.agrees start mid (hleaves hlt hfirst)]
    · rfl

theorem AgreeInTurn.cons (hr : AgreesBelow k r r') (hrules : AgreeInTurn k rules rules') :
    AgreeInTurn k (r :: rules) (r' :: rules') :=
  AgreeInTurn.cons_of_leaves hr hrules fun hlt hfound =>
    Nat.lt_of_le_of_lt (length_rest_le (hr.moves.found hfound)) hlt

/-- Behind a rule that consumes something there is less text for the others. -/
theorem AgreeInTurn.cons_consumes (hr : AgreesBelow (k + 1) r r') (hconsumes : Consumes r')
    (hrules : AgreeInTurn k rules rules') : AgreeInTurn (k + 1) (r :: rules) (r' :: rules') :=
  AgreeInTurn.cons_of_leaves hr hrules fun hlt hfound =>
    Nat.lt_of_lt_of_le (hconsumes hfound) (Nat.le_of_lt_succ hlt)

theorem AgreeInTurn.sequence (h : AgreeInTurn k rules rules') :
    AgreesBelow k (sequence rules) (sequence rules') where
  moves := h.moves.sequence
  agrees c hlt := h.agrees c c hlt

theorem AgreesBelow.alternatives (h : List.Forall₂ (AgreesBelow k) rules rules') :
    AgreesBelow k (alternatives rules) (alternatives rules') where
  moves := by
    refine Keeps.alternatives ?_
    induction h with
    | nil => trivial
    | cons hr _ ih => exact (List.forall_cons ..).2 ⟨hr.moves, ih⟩
  agrees := by
    induction h with
    | nil => exact fun _ _ => rfl
    | @cons r r' rules rules' hr _ ih =>
      intro c hlt
      rw [Rule.alternatives, Rule.alternatives, hr.agrees c hlt]
      rcases hfirst : r' c with ⟨_ | nodes | failure, mid⟩
      · rw [hr.moves.restores hfirst]
        exact ih c hlt
      · rfl
      · rfl

theorem AgreesBelow.optional (h : AgreesBelow k r r') :
    AgreesBelow k (optional r) (optional r') where
  moves := compositional_moves.optional h.moves
  agrees c hlt := by rw [Rule.optional, Rule.optional, h.agrees c hlt]

theorem AgreesBelow.required (h : AgreesBelow k r r') :
    AgreesBelow k (required r) (required r') where
  moves := h.moves.required
  agrees c hlt := by rw [Rule.required, Rule.required, h.agrees c hlt]

theorem AgreesBelow.transform (h : AgreesBelow k r r') :
    AgreesBelow k (transform r build) (transform r' build) where
  moves := h.moves.transform fun hmoves _ => hmoves
  agrees c hlt := by rw [Rule.transform, Rule.transform, h.agrees c hlt]

/-! ### Rounds -/

/-- One round of `repeated r`, with the rule `again` for the rounds behind it. -/
def repeatedThen (r again : Rule) : Rule := fun c =>
  match r c with
  | (.found nodes, next) =>
    if next.pos = c.pos then (.found [], next)
    else
      match again next with
      | (.found more, c) => (.found (nodes ++ more), c)
      | answer => answer
  | (.absent, next) => (.found [], next)
  | answer => answer

theorem repeatedIn_succ (r : Rule) (fuel : Nat) :
    repeatedIn r (fuel + 1) = repeatedThen r (repeatedIn r fuel) := rfl

/-- A round that moves the cursor consumes a rune, and only then there are further rounds. -/
theorem repeatedThen_congr (h : AgreesBelow k r r') (hc : c.rest.length < k)
    (hagain : ∀ next : Cursor, next.rest.length < c.rest.length → again next = again' next) :
    repeatedThen r again c = repeatedThen r' again' c := by
  rw [repeatedThen, repeatedThen, h.agrees c hc]
  rcases hfirst : r' c with ⟨_ | nodes | failure, next⟩
  · rfl
  · by_cases hpos : next.pos = c.pos
    · simp only [hpos, if_true]
    · have hless : next.rest.length < c.rest.length := by
        obtain ⟨w, hw⟩ := h.moves.found hfirst
        have hmoved := hw.pos
        rw [hw.rest, List.length_append]
        omega
      simp only [hpos, if_false, hagain next hless]
  · rfl

/-- Any bound that exceeds the number of runes does. -/
theorem repeatedIn_congr (h : AgreesBelow k r r') {fuel fuel' : Nat} :
    ∀ {c : Cursor}, c.rest.length < k → c.rest.length < fuel → c.rest.length < fuel' →
      repeatedIn r fuel c = repeatedIn r' fuel' c := by
  induction fuel generalizing fuel' with
  | zero => exact fun _ hlt => absurd hlt (Nat.not_lt_zero _)
  | succ fuel ih =>
    intro c hc hfuel hfuel'
    obtain ⟨fuel', rfl⟩ := Nat.exists_eq_succ_of_ne_zero (Nat.ne_zero_of_lt hfuel')
    rw [repeatedIn_succ, Nat.succ_eq_add_one, repeatedIn_succ]
    exact repeatedThen_congr h hc fun next hless => ih (by omega) (by omega) (by omega)

theorem AgreesBelow.repeated (h : AgreesBelow k r r') :
    AgreesBelow k (repeated r) (repeated r') where
  moves := compositional_moves.repeated h.moves
  agrees _ hlt := repeatedIn_congr h hlt (Nat.lt_succ_self _) (Nat.lt_succ_self _)

/-- What `build` makes of the rule `r` asks it only at cursors with fewer runes in front of them:
any rule that answers as `r` there does as well. -/
def CallsBehind (build : Rule → Rule) (r : Rule) : Prop :=
  ∀ (inner : Rule) (c : Cursor),
    (∀ next : Cursor, next.rest.length < c.rest.length → inner next = r next) →
    build inner c = build r c

theorem callsBehind_repeatedThen (h : Keeps Cursor.Moves r) :
    CallsBehind (repeatedThen r) (repeated r) :=
  fun _ c hagain => repeatedThen_congr (.refl h) (Nat.lt_succ_self c.rest.length) hagain

/-- A rule is repeated in one round and, behind it, in all others. -/
theorem repeated_eq (h : Keeps Cursor.Moves r) : repeated r = repeatedThen r (repeated r) := by
  funext c
  rw [repeated, repeatedIn_succ]
  refine repeatedThen_congr (.refl h) (Nat.lt_succ_self _) fun next hless => ?_
  exact repeatedIn_congr (.refl h) (Nat.lt_succ_self _) hless (Nat.lt_succ_self _)

/-! ### Levels of nesting

`inner` and `inner'` are rules for the operands inside an operand. -/

theorem AgreesBelow.concatenation (h : AgreesBelow k inner inner') :
    AgreesBelow k (concatenation inner) (concatenation inner') := by
  have hround : AgreesBelow k
      (sequence [optionalWhitespace, operator, optionalWhitespace, Rule.required inner])
      (sequence [optionalWhitespace, operator, optionalWhitespace, Rule.required inner']) :=
    (AgreeInTurn.cons agreesBelow_optionalWhitespace <|
      .cons (.refl (gives_operator (k := k)).moves) <| .cons agreesBelow_optionalWhitespace <|
      .cons h.required agreeInTurn_nil).sequence
  exact (AgreeInTurn.cons h <| .cons hround.repeated agreeInTurn_nil).sequence

theorem AgreesBelow.expressionOf (h : AgreesBelow k inner inner') :
    AgreesBelow k (expressionOf inner) (expressionOf inner') := h.concatenation.transform

theorem AgreesBelow.arguments (hl : g.locale.HasSigns) (h : AgreesBelow k inner inner') :
    AgreesBelow k (arguments g inner) (arguments g inner') := by
  have hvalue : nul ∉ [g.locale.valueSeparator] := by simpa using hl.value.symm
  have hround : AgreesBelow k
      (sequence [optionalWhitespace, symbol .valueSeparator [g.locale.valueSeparator],
        optionalWhitespace, Rule.required (Rule.expressionOf inner)])
      (sequence [optionalWhitespace, symbol .valueSeparator [g.locale.valueSeparator],
        optionalWhitespace, Rule.required (Rule.expressionOf inner')]) :=
    (AgreeInTurn.cons agreesBelow_optionalWhitespace <|
      .cons (agreesBelow_symbol _ hvalue) <|
      .cons agreesBelow_optionalWhitespace <|
      .cons h.expressionOf.required agreeInTurn_nil).sequence
  exact (AgreeInTurn.cons h.expressionOf <| .cons hround.repeated agreeInTurn_nil).sequence

theorem AgreesBelow.parametersOf (hl : g.locale.HasSigns) (h : AgreesBelow k inner inner') :
    AgreesBelow (k + 1) (parametersOf g inner) (parametersOf g inner') :=
  (AgreeInTurn.cons_consumes (agreesBelow_symbol .parenthesisOpen (by decide))
    (consumes_symbol _ (by decide)) <| .cons agreesBelow_optionalWhitespace <|
    .cons (h.arguments hl).optional <| .cons agreesBelow_optionalWhitespace <|
    .cons (agreesBelow_symbol .parenthesisClose (by decide)).required
      agreeInTurn_nil).sequence.transform

theorem AgreesBelow.namedFunctionOf (hl : g.locale.HasSigns) (h : AgreesBelow k inner inner') :
    AgreesBelow (k + 1) (namedFunctionOf g inner) (namedFunctionOf g inner') :=
  (AgreeInTurn.cons (.refl (gives_functionName (k := k)).moves) <|
    .cons (h.parametersOf hl) agreeInTurn_nil).sequence.transform

theorem AgreesBelow.lambdaOf (hl : g.locale.HasSigns) (h : AgreesBelow k inner inner') :
    AgreesBelow (k + 1) (lambdaOf g inner) (lambdaOf g inner') :=
  (AgreeInTurn.cons (.refl (gives_lambdaName (k := k)).moves) <| .cons (h.parametersOf hl) <|
    .cons (h.parametersOf hl) agreeInTurn_nil).sequence.transform

theorem AgreesBelow.negativeOf (h : AgreesBelow k inner inner') :
    AgreesBelow (k + 1) (negativeOf inner) (negativeOf inner') :=
  (AgreeInTurn.cons_consumes (agreesBelow_symbol .minus (by decide))
    (consumes_symbol _ (by decide)) <| .cons agreesBelow_optionalWhitespace <|
    .cons h.required agreeInTurn_nil).sequence.transform

theorem AgreesBelow.groupOf (h : AgreesBelow k inner inner') :
    AgreesBelow (k + 1) (groupOf inner) (groupOf inner') :=
  (AgreeInTurn.cons_consumes (agreesBelow_symbol .parenthesisOpen (by decide))
    (consumes_symbol _ (by decide)) <| .cons agreesBelow_optionalWhitespace <|
    .cons h.expressionOf.required <| .cons agreesBelow_optionalWhitespace <|
    .cons (agreesBelow_symbol .parenthesisClose (by decide)).required
      agreeInTurn_nil).sequence.transform

/-- One level of operands asks the rule for the operands inside it only behind a rune. -/
theorem AgreesBelow.operandOf (hl : g.locale.HasSigns) (h : AgreesBelow k inner inner') :
    AgreesBelow (k + 1) (operandOf g inner) (operandOf g inner') := by
  refine AgreesBelow.alternatives (.cons h.negativeOf <| .cons h.groupOf <| .cons (.refl ?_) <|
    .cons (.refl ?_) <| .cons (.refl (moves_number g false)) <| .cons (h.lambdaOf hl) <|
    .cons (h.namedFunctionOf hl) <| .cons (.refl ?_) <| .cons (.refl ?_) <| .cons (.refl ?_) <|
    .cons (.refl ?_) .nil)
  · exact (gives_quotedText (k := k)).moves
  · exact (gives_errorLiteral (k := k)).moves
  · exact (gives_boolean (k := k)).moves
  · exact (gives_cellRange (k := k)).moves
  · exact (gives_cell (k := k)).moves
  · exact (gives_label (k := k)).moves

/-- Any bound that exceeds the number of runes does. -/
theorem operandIn_agreesBelow (hl : g.locale.HasSigns) {fuel fuel' : Nat} (hle : fuel ≤ fuel') :
    AgreesBelow fuel (operandIn g fuel) (operandIn g fuel') := by
  induction fuel generalizing fuel' with
  | zero => exact ⟨(gives_operandIn hl fuel').moves, fun _ hlt => absurd hlt (Nat.not_lt_zero _)⟩
  | succ fuel ih =>
    obtain ⟨fuel', rfl⟩ := Nat.exists_eq_succ_of_ne_zero (Nat.ne_zero_of_lt hle)
    rw [operandIn_succ, Nat.succ_eq_add_one, operandIn_succ]
    exact (ih (Nat.le_of_succ_le_succ hle)).operandOf hl

theorem operand_agreesBelow (hl : g.locale.HasSigns) (fuel : Nat) :
    AgreesBelow fuel (operand g) (operandIn g fuel) where
  moves := (gives_operandIn hl fuel).moves
  agrees c hlt := (operandIn_agreesBelow hl hlt).agrees c (Nat.lt_succ_self _)

theorem callsBehind_of_agreesBelow {level : Rule → Rule} (h : Keeps Cursor.Moves r)
    (hlevel : ∀ k inner, AgreesBelow k inner r → AgreesBelow (k + 1) (level inner) (level r)) :
    CallsBehind level r :=
  fun inner c hinner => (hlevel c.rest.length inner ⟨h, hinner⟩).agrees c (Nat.lt_succ_self _)

/-- An operand is one level of operands, with operands inside it. -/
theorem operand_eq (hl : g.locale.HasSigns) : operand g = operandOf g (operand g) := by
  funext c
  rw [operand, operandIn_succ]
  exact (((operand_agreesBelow hl c.rest.length).operandOf hl).agrees c (Nat.lt_succ_self _)).symm

/-! ### Rules and their texts -/

/-- At every position of a text the rule ends.  When it is absent, the cursor is where it was, and
when it finds something, the cursor is at that position of the text or at a later one. -/
def StaysInText (r : Rule) : Prop :=
  ∀ (text : Text) (p : Nat), p ≤ text.runeCount →
    (∀ next, r (.inText text p) = (.absent, next) → next = .inText text p) ∧
    (∀ nodes next, r (.inText text p) = (.found nodes, next) →
      ∃ q, p ≤ q ∧ q ≤ text.runeCount ∧ next = .inText text q) ∧
    ∀ next, r (.inText text p) ≠ (.failed .endless, next)

/-- A failure that blames the text is no endless search. -/
theorem staysInText_of_gives (h : ∀ k, ∃ S, Gives k r S) : StaysInText r := by
  intro text p hp
  obtain ⟨S, hr⟩ := h ((Cursor.inText text p).rest.length + 1)
  refine ⟨fun next habsent => hr.moves.restores habsent, fun nodes next hfound => ?_,
    fun next hendless => ?_⟩
  · obtain ⟨w, hw⟩ := hr.moves.found hfound
    exact hw.exists_inText hp
  · obtain ⟨_, _, _, -, -, hblame⟩ := hr.failed (Nat.lt_succ_self _) hendless
    cases hblame

/-- The rounds that a grammar repeats: an operator with the operand behind it, and a separator with
the argument behind it. -/
inductive IsRound (g : Grammar) : Rule → Prop
  | link : IsRound g
      (sequence [optionalWhitespace, operator, optionalWhitespace, required (operand g)])
  | argument : IsRound g
      (sequence [optionalWhitespace, symbol .valueSeparator [g.locale.valueSeparator],
        optionalWhitespace, required (expression g)])

theorem IsRound.gives (hl : g.locale.HasSigns) (h : IsRound g r) : ∃ S, Gives k r S := by
  cases h with
  | link => exact ⟨_, gives_link (gives_operand hl)⟩
  | argument => exact gives_furtherArgument hl (gives_operand hl)

end Rule

namespace Grammar

open Rule

/-- The rules that a grammar holds: those of its parsers and those that operands, and operands
joined by operators, are read with. -/
inductive Stored (g : Grammar) : Rule → Prop
  | parser (p : Parser) : Stored g (p.rule g)
  | unsignedNumber : Stored g (number g false)
  | parameters : Stored g (parametersOf g (Rule.operand g))
  | operand : Stored g (Rule.operand g)
  | operator : Stored g Rule.operator
  | concatenation : Stored g (Rule.concatenation (Rule.operand g))

theorem Stored.gives {g : Grammar} {r : Rule} {k : Nat} (hl : g.locale.HasSigns)
    (h : g.Stored r) : ∃ S, Gives k r S := by
  cases h with
  | parser p => exact ⟨_, gives_rule hl p⟩
  | unsignedNumber => exact ⟨_, gives_number hl.percent false⟩
  | parameters => exact ⟨_, (gives_parametersOf hl (gives_operand hl)).mono (Nat.le_succ k)⟩
  | operand => exact ⟨_, gives_operand hl⟩
  | operator => exact ⟨_, gives_operator⟩
  | concatenation => exact ⟨_, gives_concatenation (gives_operand hl)⟩

/-- In a locale without NULs every rule that a grammar holds ends, at every position of every text,
and a rule that is absent has not moved the cursor, which otherwise never moves back or leaves the
text.  Operands, and the rounds of a list, are made of themselves as the grammar says, however many
runes are left, and they ask themselves only behind a rune. -/
theorem rules_stay_in_text (l : Locale) (hl : l.HasSigns) :
    (∀ r, (ofLocale l).Stored r → StaysInText r) ∧
    (∀ r, IsRound (ofLocale l) r → StaysInText (repeated r) ∧
      repeated r = repeatedThen r (repeated r) ∧ CallsBehind (repeatedThen r) (repeated r)) ∧
    operand (ofLocale l) = operandOf (ofLocale l) (operand (ofLocale l)) ∧
    CallsBehind (operandOf (ofLocale l)) (operand (ofLocale l)) ∧
    CallsBehind (parametersOf (ofLocale l)) (operand (ofLocale l)) := by
  have hg : (ofLocale l).locale.HasSigns := hl
  have hmoves : Keeps Cursor.Moves (operand (ofLocale l)) := (gives_operand (k := 0) hg).moves
  refine ⟨fun r hr => staysInText_of_gives fun _ => hr.gives hg, fun r hr => ?_, operand_eq hg,
    callsBehind_of_agreesBelow hmoves fun _ _ h => h.operandOf hg,
    callsBehind_of_agreesBelow hmoves fun _ _ h => h.parametersOf hg⟩
  obtain ⟨S, hround⟩ := hr.gives (k := 0) hg
  refine ⟨staysInText_of_gives fun k => ?_, repeated_eq hround.moves,
    callsBehind_repeatedThen hround.moves⟩
  obtain ⟨S, hround⟩ := hr.gives (k := k) hg
  exact ⟨_, hround.repeated⟩

/-- Behind the minus sign stands a name that is read and then turns out not to be that of a lambda,
and a call that is read up to its parenthesis. -/
theorem rules_stay_in_text_sum :
    Locale.HasSigns {} ∧
    Rule.lambda (ofLocale {}) (.inText "-sum(1)+2" 1) = (.absent, .inText "-sum(1)+2" 1) ∧
    ∃ nodes q, Rule.namedFunction (ofLocale {}) (.inText "-sum(1)+2" 1) =
      (.found nodes, .inText "-sum(1)+2" q) ∧ 1 ≤ q ∧ q ≤ Text.runeCount "-sum(1)+2" := by
  have hl := Locale.hasSigns_default
  obtain ⟨hstored, -⟩ := rules_stay_in_text {} hl
  have hp : 1 ≤ Text.runeCount "-sum(1)+2" := by decide
  obtain ⟨habsent, -⟩ := hstored _ (.parser .lambda) "-sum(1)+2" 1 hp
  obtain ⟨-, hfound, -⟩ := hstored _ (.parser .namedFunction) "-sum(1)+2" 1 hp
  have hlambda : Rule.lambda (ofLocale {}) (.inText "-sum(1)+2" 1) =
      (.absent, (Rule.lambda (ofLocale {}) (.inText "-sum(1)+2" 1)).2) := rfl
  obtain ⟨nodes, next, hcall⟩ : ∃ nodes next,
      Rule.namedFunction (ofLocale {}) (.inText "-sum(1)+2" 1) = (.found nodes, next) :=
    ⟨_, _, rfl⟩
  obtain ⟨q, hle, hq, rfl⟩ := hfound nodes next hcall
  exact ⟨hl, by rw [hlambda, habsent _ hlambda], nodes, q, hcall, hle, hq⟩

end Grammar

end SheetFormula
