import SheetFormula.Proofs.Derivation

/-!
# What is derived is found

The other direction of `Derives`: the rules find a derived tree wherever it is written, as long as
what comes behind ends it.  For an operand that is a stop; for an expression it is a closing
parenthesis, a comma or the end of the text, with any blanks in front of it.

The rule for the operands inside an operand is known only up to some length, `Rule.Reads`, since
that is how the recursion of operands is bounded.
-/

namespace SheetFormula

open Cursor (Clear)

/-- What comes after any blanks is one of the characters, or there is nothing. -/
def EndsIn (chars : List Char) (rest : List Rune) : Prop :=
  ∃ s tail, rest = s ++ tail ∧ AllBlank s ∧ ∀ r ∈ tail.head?, r.value ∈ chars

/-- The characters behind an expression. -/
def closingChars : List Char := [')', ',']

/-- An operand with any blanks in front of it. -/
def StartsAfterBlanks (rest : List Rune) : Prop :=
  ∃ s w more, rest = s ++ (w ++ more) ∧ AllBlank s ∧ StartsOperand w

variable {chars : List Char} {rest s w : List Rune}

theorem allBlank_nil : AllBlank [] := nofun

theorem endsIn_of_blanks (h : AllBlank s) : EndsIn chars s := ⟨s, [], by simp, h, by simp⟩

theorem EndsIn.mono {chars' : List Char} (h : EndsIn chars rest) (hsub : chars ⊆ chars') :
    EndsIn chars' rest := by
  obtain ⟨s, tail, rfl, hs, htail⟩ := h
  exact ⟨s, tail, rfl, hs, fun r hr => hsub (htail r hr)⟩

theorem mem_stopChars_of_isBlank {ch : Char} (h : isBlank ch = true) : ch ∈ stopChars :=
  of_isBlank (P := (· ∈ stopChars)) (by decide) h

theorem EndsIn.stops (h : EndsIn stopChars rest) : Stops rest := by
  obtain ⟨s, tail, rfl, hs, htail⟩ := h
  cases s with
  | nil => exact htail
  | cons r s => exact stops_cons.2 (mem_stopChars_of_isBlank (hs r (List.mem_cons_self ..)))

theorem StartsOperand.clear_blank (h : StartsOperand w) : Clear isBlank (w ++ rest) := by
  obtain ⟨r, v, rfl, hr⟩ := h
  rw [List.cons_append, Cursor.clear_cons, Bool.eq_false_iff]
  rintro hblank
  rcases hr with hr | hr
  · exact hr (mem_stopChars_of_isBlank hblank)
  · rw [hr] at hblank
    cases hblank

theorem StartsOperand.ne_nil (h : StartsOperand w) : w ≠ [] := by
  obtain ⟨r, v, rfl, -⟩ := h
  exact List.cons_ne_nil r v

namespace Rule

variable {inner sep : Rule} {n : Node} {k : Nat} {c : Category}

/-! ### Blanks, signs and what they join -/

theorem optionalWhitespace_finds (h : AllBlank s) :
    optionalWhitespace.Finds (Clear isBlank) (spaces s) s := by
  intro p rest hrest
  have hskip := Cursor.skip_append (p := p) h hrest
  rw [optionalWhitespace, optional_found_iff, whitespace_found_iff, whitespace_absent_iff, hskip]
  by_cases hs : s = []
  · subst hs
    exact .inr ⟨⟨rfl, rfl⟩, rfl⟩
  · have hpos : p + s.length ≠ p := by
      have := List.length_pos_iff.2 hs
      omega
    exact .inl ⟨rfl, hpos, by rw [Cursor.textTo_append, spaces, if_neg hs]⟩

theorem symbolLeaf_finds (s : Symbol) (word : List Char) (F : List Rune → Prop) :
    (symbol s word).Finds F [symbolLeaf s word] (word.map .scalar) :=
  symbol_finds s word F

theorem current_of_startsAfterBlanks (h : StartsAfterBlanks rest) :
    ∃ r more, rest = r :: more ∧ r.value ≠ '=' ∧ r.value ≠ '>' := by
  obtain ⟨s, w, more, rfl, hs, r, v, rfl, hr⟩ := h
  cases s with
  | nil =>
    refine ⟨r, v ++ more, rfl, ?_, ?_⟩ <;> rintro heq <;> rw [heq] at hr <;> revert hr <;> decide
  | cons b s =>
    have hb := hs b (List.mem_cons_self ..)
    refine ⟨b, s ++ (r :: v ++ more), rfl, ?_, ?_⟩ <;> rintro heq <;> rw [heq] at hb <;> cases hb

/-- An operator is read in full in front of an operand, since no sign goes on like an operand. -/
theorem operator_finds {symbol' : Symbol} {word : List Char} (h : (symbol', word) ∈ operatorSigns) :
    operator.Finds StartsAfterBlanks [symbolLeaf symbol' word] (word.map .scalar) := by
  intro p rest hrest
  obtain ⟨r, more, rfl, hequals, hgreater⟩ := current_of_startsAfterBlanks hrest
  have hvalue (ch : Char) : (Rune.scalar ch).value = ch := rfl
  simp only [operatorSigns, List.mem_cons, Prod.mk.injEq, List.not_mem_nil, or_false] at h
  rcases h with ⟨rfl, rfl⟩ | ⟨rfl, rfl⟩ | ⟨rfl, rfl⟩ | ⟨rfl, rfl⟩ | ⟨rfl, rfl⟩ | ⟨rfl, rfl⟩ |
    ⟨rfl, rfl⟩ | ⟨rfl, rfl⟩ | ⟨rfl, rfl⟩ | ⟨rfl, rfl⟩ | ⟨rfl, rfl⟩ <;>
  simp [operator, alternatives, symbol, Cursor.shows, hvalue, Cursor.advance, Cursor.textTo,
    symbolLeaf, hequals, hgreater]

theorem operator_absent {p : Nat} {tail : List Rune}
    (h : ∀ r ∈ tail.head?, r.value ∈ closingChars) :
    operator ⟨p, tail⟩ = (.absent, ⟨p, tail⟩) := by
  cases tail with
  | nil => rfl
  | cons r tail =>
    have hr : r.value = ')' ∨ r.value = ',' := by simpa [closingChars] using h
    rcases hr with hr | hr <;> simp [operator, alternatives, symbol, Cursor.shows, hr]

/-- What the ends of a joined run and the signs in it have to do with each other: signs and ends are
characters that what is joined ends in front of, and ends are told apart from blanks and signs. -/
structure Joins (signs : List (Symbol × List Char)) (sep : Rule) (within ends : List Char) :
    Prop where
  finds : ∀ s ∈ signs, sep.Finds StartsAfterBlanks [symbolLeaf s.1 s.2] (s.2.map .scalar)
  first : ∀ s ∈ signs, ∃ ch word, s.2 = ch :: word ∧ ch ∈ within ∧ isBlank ch = false
  sub : ends ⊆ within
  solid : ∀ ch ∈ ends, isBlank ch = false
  absent : ∀ ⦃p : Nat⦄ ⦃tail : List Rune⦄, (∀ r ∈ tail.head?, r.value ∈ ends) →
    sep ⟨p, tail⟩ = (.absent, ⟨p, tail⟩)

section Joins

variable {signs : List (Symbol × List Char)} {within ends : List Char} {joined : List Joined}

theorem Joins.endsIn_cons (h : Joins signs sep within ends) {j : Joined} (hj : j.IsBy signs) :
    EndsIn within (j.runes ++ rest) := by
  obtain ⟨ch, word, hsign, hch, -⟩ := h.first _ hj.sign
  refine ⟨j.before, j.sign.map .scalar ++ (j.after ++ j.written) ++ rest, by simp [Joined.runes],
    hj.before, ?_⟩
  intro r hr
  have hsign' : j.sign = ch :: word := hsign
  simp only [hsign', List.map_cons, List.cons_append, List.head?_cons, Option.mem_def,
    Option.some.injEq] at hr
  rw [← hr]
  exact hch

theorem Joins.endsIn (h : Joins signs sep within ends) (hby : ∀ j ∈ joined, j.IsBy signs)
    (hrest : EndsIn ends rest) : EndsIn within (joined.flatMap Joined.runes ++ rest) := by
  cases joined with
  | nil => exact hrest.mono h.sub
  | cons j joined =>
    rw [List.flatMap_cons, List.append_assoc]
    exact h.endsIn_cons (hby j (List.mem_cons_self ..))

/-- A symbol and a node behind it are found where they are written. -/
theorem Joins.round_finds (h : Joins signs sep within ends) {j : Joined} (hj : j.IsBy signs)
    (hinner : inner.Finds (EndsIn within) [j.node] j.written) (hstarts : StartsOperand j.written) :
    (sequence [optionalWhitespace, sep, optionalWhitespace, required inner]).Finds (EndsIn within)
      j.nodes j.runes := by
  obtain ⟨ch, word, hsign, -, hsolid⟩ := h.first _ hj.sign
  have hsign' : j.sign = ch :: word := hsign
  have hnode := hinner.required.single
  have hafter := (optionalWhitespace_finds hj.after).cons hnode fun _ _ => hstarts.clear_blank
  have hsep := (h.finds _ hj.sign).cons hafter fun rest _ =>
    ⟨j.after, j.written, rest, by simp, hj.after, hstarts⟩
  have hbefore := (optionalWhitespace_finds hj.before).cons hsep fun rest _ => by
    rw [hsign', List.map_cons, List.cons_append, List.cons_append, Cursor.clear_cons]
    exact hsolid
  exact hbefore.sequence

theorem Joins.round_absent (h : Joins signs sep within ends) (hrest : EndsIn ends rest) {p : Nat} :
    sequence [optionalWhitespace, sep, optionalWhitespace, required inner] ⟨p, rest⟩ =
      (.absent, ⟨p, rest⟩) := by
  obtain ⟨s, tail, rfl, hs, htail⟩ := hrest
  have hclear : Clear isBlank tail := fun r hr => h.solid _ (htail r hr)
  simp [sequence, sequenceFrom, optionalWhitespace_finds hs hclear, h.absent htail]

/-- What is joined by symbols is found where it is written. -/
theorem Joins.finds_joined (h : Joins signs sep within ends) (inner : Rule)
    (hby : ∀ j ∈ joined, j.IsBy signs)
    (hinner : ∀ j ∈ joined, inner.Finds (EndsIn within) [j.node] j.written)
    (hstarts : ∀ j ∈ joined, StartsOperand j.written) :
    (joinedBy sep inner).Finds (EndsIn ends) (joined.flatMap Joined.nodes)
      (joined.flatMap Joined.runes) := by
  -- Every round moves the cursor, so there are as many rounds as are needed.
  suffices hfuel : ∀ fuel, (joined.flatMap Joined.runes).length < fuel →
      (repeatedIn (sequence [optionalWhitespace, sep, optionalWhitespace, required inner])
        fuel).Finds (EndsIn ends) (joined.flatMap Joined.nodes) (joined.flatMap Joined.runes) by
    intro p rest hrest
    exact hfuel _ (by rw [List.length_append]; omega) hrest
  induction joined with
  | nil =>
    intro fuel hfuel p rest hrest
    obtain ⟨fuel, rfl⟩ := Nat.exists_eq_succ_of_ne_zero (Nat.ne_of_gt hfuel)
    exact repeatedIn_succ_found_iff.2 (.inr (.inr ⟨h.round_absent hrest, rfl⟩))
  | cons j joined ih =>
    intro fuel hfuel p rest hrest
    obtain ⟨hj, hby⟩ := List.forall_mem_cons.1 hby
    obtain ⟨hnode, hinner⟩ := List.forall_mem_cons.1 hinner
    obtain ⟨hstart, hstarts⟩ := List.forall_mem_cons.1 hstarts
    rw [List.flatMap_cons, List.length_append] at hfuel
    have hlength : 0 < j.runes.length := by
      have := List.length_pos_iff.2 hstart.ne_nil
      simp [Joined.runes]
      omega
    obtain ⟨fuel, rfl⟩ := Nat.exists_eq_succ_of_ne_zero (Nat.ne_of_gt (Nat.zero_lt_of_lt hfuel))
    have hfirst := h.round_finds hj hnode hstart (p := p) (h.endsIn hby hrest)
    have hmore := ih hby hinner hstarts fuel (by omega) (p := p + j.runes.length) hrest
    rw [List.flatMap_cons, List.append_assoc]
    refine repeatedIn_succ_found_iff.2 (.inl ⟨_, _, _, hfirst, ?_, ?_, rfl⟩)
    · simp only
      omega
    · rw [hmore, List.length_append, Nat.add_assoc]
      rfl

end Joins

theorem joins_operator : Joins operatorSigns operator stopChars closingChars where
  finds s hs := operator_finds hs
  first := by
    have hsigns : ∀ s ∈ operatorSigns, s.2 ≠ [] ∧
        ∀ ch ∈ s.2.take 1, ch ∈ stopChars ∧ isBlank ch = false := by decide
    intro s hs
    obtain ⟨hne, hch⟩ := hsigns s hs
    obtain ⟨ch, word, hsign⟩ := List.exists_cons_of_ne_nil hne
    exact ⟨ch, word, hsign, hch ch (by rw [hsign]; exact List.mem_singleton_self ch)⟩
  sub := by decide
  solid := by decide
  absent _ _ htail := operator_absent htail

theorem joins_separator : Joins argumentSigns
    (symbol .valueSeparator [(Grammar.american).locale.valueSeparator]) closingChars [')'] where
  finds s hs := by
    obtain rfl := List.mem_singleton.1 hs
    exact symbolLeaf_finds ..
  first s hs := by
    obtain rfl := List.mem_singleton.1 hs
    exact ⟨',', [], rfl, by decide, by decide⟩
  sub := by decide
  solid := by decide
  absent p tail htail := by
    cases tail with
    | nil => rfl
    | cons r tail =>
      have hr : r.value = ')' := List.mem_singleton.1 (htail r rfl)
      exact symbol_absent (by rw [hr]; decide)

/-! ### Expressions and parameters -/

/-- What a rule for operands is known to do: it finds the derived operands of less than `k` runes in
front of stops, and none at a closing parenthesis. -/
structure Reads (k : Nat) (inner : Rule) : Prop where
  finds : ∀ ⦃n : Node⦄ ⦃w : List Rune⦄, Derives .operand n w → w.length < k →
    inner.Finds Stops [n] w
  misses : 0 < k → ∀ {p : Nat} {more : List Rune},
    inner ⟨p, .scalar ')' :: more⟩ = (.absent, ⟨p, .scalar ')' :: more⟩)

theorem length_written_le {joined : List Joined} {j : Joined} (h : j ∈ joined) :
    j.written.length ≤ (joined.flatMap Joined.runes).length := by
  obtain ⟨front, back, rfl⟩ := List.append_of_mem h
  simp only [List.flatMap_append, List.flatMap_cons, List.length_append, Joined.runes]
  omega

theorem expressionOf_finds (h : Reads k inner) (hn : Derives .expression n w) (hk : w.length < k) :
    (expressionOf inner).Finds (EndsIn closingChars) [n] w := by
  cases hn with
  | expression hhead hby hall hreduce =>
    rename_i v head joined
    rw [List.length_append] at hk
    have hjoined := joins_operator.finds_joined inner hby
      (fun j hj => (h.finds (hall j hj) (by
        have := length_written_le hj
        omega)).mono fun _ => EndsIn.stops)
      fun j hj => (hall j hj).starts nofun
    have hfirst := h.finds hhead (by omega)
    refine ((hfirst.cons hjoined.single fun rest hrest => ?_).sequence).transform ?_
    · exact (joins_operator.endsIn hby hrest).stops
    · simpa using hreduce

theorem endsIn_closing {t : List Rune} (ht : AllBlank t) (more : List Rune) :
    EndsIn [')'] (t ++ .scalar ')' :: more) :=
  ⟨t, _, rfl, ht, by simp [Rune.value]⟩

theorem functionParameters_ok (ns : List Node) :
    Node.functionParameters
      (symbolLeaf .parenthesisOpen ['('] :: (ns ++ [symbolLeaf .parenthesisClose [')']])) =
      .ok (.parent .functionParameters
        (symbolLeaf .parenthesisOpen ['('] :: (ns ++ [symbolLeaf .parenthesisClose [')']]))) := by
  refine Node.functionParameters_eq_ok_iff.2 ⟨rfl, ?_, rfl⟩
  rw [← List.cons_append, List.getLast?_concat]
  rfl

theorem parametersOf_finds (h : Reads k inner) (hn : Derives .parameters n w)
    (hk : w.length ≤ k) : (parametersOf .american inner).Finds (fun _ => True) [n] w := by
  cases hn with
  | @noArguments s hs =>
    have hpos : 0 < k := by
      rw [List.length_cons] at hk
      omega
    -- The arguments are absent, and so are blanks where all of them have been read already.
    have hnone : (optional (arguments .american inner)).Finds
        (fun rest => ∃ more, rest = .scalar ')' :: more) [] [] := by
      rintro p _ ⟨more, rfl⟩
      have habsent : inner ⟨p, .scalar ')' :: more⟩ = (.absent, ⟨p, .scalar ')' :: more⟩) :=
        h.misses hpos
      have hexpression : expressionOf inner ⟨p, .scalar ')' :: more⟩ =
          (.absent, ⟨p, .scalar ')' :: more⟩) := by
        rw [expressionOf, transform_absent_iff]
        exact sequence_absent habsent
      exact optional_found_iff.2 (.inr ⟨sequence_absent hexpression, rfl⟩)
    have hclose := (symbolLeaf_finds .parenthesisClose [')'] fun _ => True).required.single
    have hblanks := (optionalWhitespace_finds allBlank_nil).cons hclose fun rest _ =>
      Cursor.clear_cons.2 (by decide)
    have harguments := hnone.cons hblanks fun rest _ => ⟨rest, rfl⟩
    have hopen := (optionalWhitespace_finds hs).cons harguments fun rest _ =>
      Cursor.clear_cons.2 (by decide)
    have hopening := symbolLeaf_finds .parenthesisOpen ['('] fun _ => True
    have hall := hopening.cons hopen fun _ _ => trivial
    exact hall.sequence.transform (functionParameters_ok (spaces s))
  | @arguments s t v first joined hs ht hfirst hby hall =>
    simp only [List.length_cons, List.length_append] at hk
    have hjoined := joins_separator.finds_joined (expressionOf inner) hby
      (fun j hj => expressionOf_finds h (hall j hj) (by
        have := length_written_le hj
        omega))
      fun j hj => (hall j hj).starts nofun
    have hexpression := expressionOf_finds h hfirst (by omega)
    have harguments := (hexpression.cons hjoined.single fun rest hrest =>
      joins_separator.endsIn hby hrest).sequence.optional
    have hclose := (symbolLeaf_finds .parenthesisClose [')'] fun _ => True).required.single
    have hblanks := (optionalWhitespace_finds ht).cons hclose fun rest _ =>
      Cursor.clear_cons.2 (by decide)
    have hbehind := harguments.cons hblanks fun rest _ => by
      simpa using endsIn_closing ht rest
    have hopen := (optionalWhitespace_finds hs).cons hbehind fun rest _ => by
      simpa using (hfirst.starts nofun).clear_blank
    have hopening := symbolLeaf_finds .parenthesisOpen ['('] fun _ => True
    have hall := hopening.cons hopen fun _ _ => trivial
    have hbuild := functionParameters_ok
      (spaces s ++ (first :: joined.flatMap Joined.nodes ++ spaces t))
    have hfinds := hall.sequence.transform (by simpa using hbuild)
    simpa [parametersOf, arguments, joinedBy] using hfinds

/-! ### Operands -/

theorem negativeOf_finds (hs : AllBlank s) (hstarts : StartsOperand w)
    (hinner : inner.Finds Stops [n] w) (hn : n.isNoise = false) :
    (negativeOf inner).Finds Stops
      [.parent (.unary .negative) (symbolLeaf .minus ['-'] :: (spaces s ++ [n]))]
      (.scalar '-' :: (s ++ w)) := by
  have hafter := (optionalWhitespace_finds hs).cons hinner.required.single fun _ _ =>
    hstarts.clear_blank
  have hall := (symbolLeaf_finds .minus ['-'] fun _ => True).cons hafter fun _ _ => trivial
  exact hall.sequence.transform
    (Node.unary_eq_ok_iff.2 ⟨congrArg List.length (operandsOf_negative hn), rfl⟩)

theorem groupOf_finds {t : List Rune} (hs : AllBlank s) (ht : AllBlank t)
    (hstarts : StartsOperand w) (hinner : (expressionOf inner).Finds (EndsIn closingChars) [n] w)
    (hn : n.isNoise = false) :
    (groupOf inner).Finds Stops
      [.parent (.unary .group) (symbolLeaf .parenthesisOpen ['('] ::
        (spaces s ++ n :: (spaces t ++ [symbolLeaf .parenthesisClose [')']])))]
      (.scalar '(' :: (s ++ (w ++ (t ++ [.scalar ')'])))) := by
  have hclose := (symbolLeaf_finds .parenthesisClose [')'] Stops).required.single
  have hblanks := (optionalWhitespace_finds ht).cons hclose fun rest _ =>
    Cursor.clear_cons.2 (by decide)
  have hbehind := hinner.required.cons hblanks fun rest _ => by
    simpa using (endsIn_closing ht rest).mono (by decide)
  have hopen := (optionalWhitespace_finds hs).cons hbehind fun rest _ => by
    simpa using hstarts.clear_blank
  have hopening := symbolLeaf_finds .parenthesisOpen ['('] fun _ => True
  have hall := hopening.cons hopen fun _ _ => trivial
  exact hall.sequence.transform
    (Node.unary_eq_ok_iff.2 ⟨congrArg List.length (operandsOf_group hn), rfl⟩)

/-- The runes of parameters start with the opening parenthesis. -/
theorem parameters_runes (h : Derives .parameters n w) : ∃ v, w = .scalar '(' :: v := by
  cases h with
  | noArguments => exact ⟨_, rfl⟩
  | arguments => exact ⟨_, rfl⟩

theorem functionName_finds_leaf {f : List Rune} (h : IsFunctionName f) :
    functionName.Finds (fun rest => ∃ more, rest = .scalar '(' :: more) [nameLeaf f] f := by
  obtain ⟨r, v, rfl, hr⟩ := h.starts
  exact functionName_finds hr h.parts

theorem namedFunction_ok {f : List Rune} {ns : List Node} :
    Node.namedFunction [nameLeaf f, .parent .functionParameters ns] =
      .ok (.parent (.namedFunction (upperCase (.ofRunes f)))
        [nameLeaf f, .parent .functionParameters ns]) :=
  Node.namedFunction_eq_ok_iff.2 ⟨_, _, ns, rfl, rfl⟩

theorem lambda_ok {f : List Rune} (hf : upperCase (.ofRunes f) = "LAMBDA") {ms ns : List Node} :
    Node.lambda [nameLeaf f, .parent .functionParameters ms, .parent .functionParameters ns] =
      .ok (.parent (.lambda "LAMBDA")
        [nameLeaf f, .parent .functionParameters ms, .parent .functionParameters ns]) := by
  refine Node.lambda_eq_ok_iff.2 ⟨_, _, ms, ns, rfl, ?_⟩
  rw [hf]

variable {f v : List Rune} {m : Node}

theorem namedFunctionOf_finds (h : Reads k inner) (hf : IsFunctionName f)
    (hn : Derives .parameters n w) (hk : w.length ≤ k) :
    (namedFunctionOf .american inner).Finds Stops
      [.parent (.namedFunction (upperCase (.ofRunes f))) [nameLeaf f, n]] (f ++ w) := by
  obtain ⟨v, rfl⟩ := parameters_runes hn
  obtain ⟨ns, rfl⟩ := parameters_eq hn
  have hparameters := (parametersOf_finds h hn hk).mono (G := Stops) fun _ _ => trivial
  have hall := (functionName_finds_leaf hf).cons hparameters.single fun rest _ => ⟨_, rfl⟩
  exact hall.sequence.transform namedFunction_ok

theorem lambdaOf_finds (h : Reads k inner) (hf : IsFunctionName f)
    (hlambda : upperCase (.ofRunes f) = "LAMBDA") (hm : Derives .parameters m v)
    (hn : Derives .parameters n w) (hv : v.length ≤ k) (hw : w.length ≤ k) :
    (lambdaOf .american inner).Finds Stops
      [.parent (.lambda "LAMBDA") [nameLeaf f, m, n]] (f ++ (v ++ w)) := by
  obtain ⟨v', rfl⟩ := parameters_runes hm
  obtain ⟨ms, rfl⟩ := parameters_eq hm
  obtain ⟨ns, rfl⟩ := parameters_eq hn
  have hname :
      lambdaName.Finds (fun rest => ∃ more, rest = .scalar '(' :: more) [nameLeaf f] f := by
    rintro p rest hrest
    have hfound := functionName_finds_leaf hf hrest (p := p)
    simp only [nameLeaf, hlambda] at hfound
    simp [lambdaName, hfound, nameLeaf, hlambda]
  have hvalues := (parametersOf_finds h hn hw).mono (G := Stops) fun _ _ => trivial
  have hparameters := (parametersOf_finds h hm hv).cons hvalues.single fun _ _ => trivial
  exact ((hname.cons hparameters fun rest _ => ⟨_, rfl⟩).sequence).transform (lambda_ok hlambda)

/-- A call is no lambda function with values: it has another name, or there are no values. -/
theorem lambdaOf_misses_call (h : Reads k inner) (hf : IsFunctionName f)
    (hn : Derives .parameters n w) (hk : w.length ≤ k) :
    (lambdaOf .american inner).Misses Stops (f ++ w) := by
  intro p rest hrest
  rw [lambdaOf, transform_absent_iff]
  obtain ⟨v, rfl⟩ := parameters_runes hn
  have hname : functionName ⟨p, f ++ .scalar '(' :: v ++ rest⟩ =
      (.found [nameLeaf f], ⟨p + f.length, .scalar '(' :: v ++ rest⟩) := by
    rw [List.append_assoc]
    exact functionName_finds_leaf hf ⟨_, rfl⟩
  generalize (⟨p, f ++ .scalar '(' :: v ++ rest⟩ : Cursor) = start at hname ⊢
  -- A lambda needs values behind its parameters, and what follows here opens no parenthesis.
  by_cases hlambda : upperCase (.ofRunes f) = "LAMBDA"
  · have hparameters : parametersOf .american inner ⟨p + f.length, .scalar '(' :: v ++ rest⟩ =
        (.found [n], ⟨p + f.length + (.scalar '(' :: v : List Rune).length, rest⟩) :=
      parametersOf_finds h hn hk trivial
    have hvalues {q : Nat} : parametersOf .american inner ⟨q, rest⟩ = (.absent, ⟨q, rest⟩) := by
      rw [parametersOf, transform_absent_iff]
      refine sequence_absent (symbol_absent_iff.2 ⟨?_, rfl⟩)
      cases rest with
      | nil => rfl
      | cons r rest =>
        have hr : r.value ≠ '(' := fun heq => absurd (heq ▸ stops_cons.1 hrest) (by decide)
        simp [Cursor.shows, hr]
    have hlambdaName : lambdaName start =
        (.found [nameLeaf f], ⟨p + f.length, .scalar '(' :: v ++ rest⟩) := by
      simp only [lambdaName, hname, nameLeaf, hlambda, if_true]
    simp only [sequence, sequenceFrom, hlambdaName, hparameters, hvalues]
  · have hlambdaName : lambdaName start = (.absent, start) := by
      simp only [lambdaName, hname, nameLeaf, hlambda, if_false]
    exact sequence_absent hlambdaName

/-- No operand starts with a closing parenthesis. -/
theorem operandOf_absent_closing {p : Nat} {more : List Rune} :
    operandOf .american inner ⟨p, .scalar ')' :: more⟩ = (.absent, ⟨p, .scalar ')' :: more⟩) := by
  have hcell : cell.Misses (· = more) [.scalar ')'] := fun p rest _ => cell_absent rfl
  have hfunction : functionName.Misses (· = more) [.scalar ')'] := fun p rest _ => rfl
  have hboolean : boolean.Misses (· = more) [.scalar ')'] := by
    intro p rest _
    have hnone : booleanWords.matchAt ⟨p, .scalar ')' :: rest⟩ = none :=
      unmarked_booleanWords.matchAt_eq_none (by simp [Rune.value, markChars, stopChars])
    simp [boolean, WordList.matchWhole, hnone]
  have hlabel : label.Misses (· = more) [.scalar ')'] := fun p rest _ => rfl
  have hall : [negativeOf inner, groupOf inner, quotedText, errorLiteral, number .american false,
      lambdaOf .american inner, namedFunctionOf .american inner, boolean, cellRange, cell,
      label].Forall fun r => r.Misses (· = more) [.scalar ')'] :=
    ⟨negativeOf_misses (by decide), groupOf_misses (by decide), quotedText_misses (by decide),
      errorLiteral_misses (by decide), number_misses rfl, lambdaOf_misses hfunction,
      namedFunctionOf_misses hfunction, hboolean, cellRange_misses_of_cell_misses hcell, hcell,
      hlabel⟩
  rw [operandOf]
  exact alternatives_absent (hall.imp fun _ hmisses => hmisses rfl)

/-- What starts with a name is told apart by the rules for functions and names. -/
theorem operandOf_finds_function (hf : IsFunctionName f) {nodes : List Node}
    (h : (alternatives (lambdaOf .american inner :: namedFunctionOf .american inner ::
      nameRules)).Finds Stops nodes (f ++ w)) :
    (operandOf .american inner).Finds Stops nodes (f ++ w) := by
  obtain ⟨r, v, rfl, hr⟩ := hf.starts
  have hnot {ch : Char} (hch : isLetter ch = false) : r.value ≠ ch := by
    rintro rfl
    rw [hr] at hch
    cases hch
  exact (negativeOf_misses (hnot rfl)).alternatives <| (groupOf_misses (hnot rfl)).alternatives <|
    (quotedText_misses (hnot rfl)).alternatives <| (errorLiteral_misses (hnot rfl)).alternatives <|
    (number_misses (isDecimal_eq_false_of_class hr (by decide))).alternatives h

/-- Operands that are found up to some length make operands that are longer by one be found. -/
theorem operandOf_reads (h : Reads k inner) : Reads (k + 1) (operandOf .american inner) where
  finds n w hn hk := by
    cases hn with
    | token hn => exact hn.finds inner
    | negative hs hn =>
      simp only [List.length_cons, List.length_append] at hk
      exact (negativeOf_finds hs (hn.starts nofun) (h.finds hn (by omega)) hn.isNoise).alternatives
    | group hs ht hn =>
      simp only [List.length_cons, List.length_append] at hk
      exact (negativeOf_misses (by decide)).alternatives
        (groupOf_finds hs ht (hn.starts nofun) (expressionOf_finds h hn (by omega))
          hn.isNoise).alternatives
    | @call f w n hf hn =>
      have hlength := hf.length_pos
      rw [List.length_append] at hk
      exact operandOf_finds_function hf <| (lambdaOf_misses_call h hf hn (by omega)).alternatives
        (namedFunctionOf_finds h hf hn (by omega)).alternatives
    | @lambda f v w m n hf hlambda hm hn =>
      have hlength := hf.length_pos
      simp only [List.length_append] at hk
      exact operandOf_finds_function hf
        (lambdaOf_finds h hf hlambda hm hn (by omega) (by omega)).alternatives
  misses _ _ _ := operandOf_absent_closing

theorem operandIn_reads (fuel : Nat) : Reads fuel (operandIn .american fuel) := by
  induction fuel with
  | zero => exact ⟨fun _ _ _ hk => absurd hk (Nat.not_lt_zero _), fun hk => absurd hk (lt_irrefl 0)⟩
  | succ fuel ih =>
    rw [operandIn_succ]
    exact operandOf_reads ih

/-- Every derived operand is found. -/
theorem operand_reads (k : Nat) : Reads k (operand .american) where
  finds n w hn _ p rest hrest :=
    (operandIn_reads ((w ++ rest).length + 1)).finds hn (by rw [List.length_append]; omega) hrest
  misses _ _ more :=
    (operandIn_reads ((.scalar ')' :: more : List Rune).length + 1)).misses (Nat.succ_pos _)

/-- Every derived expression is found. -/
theorem expression_finds (h : Derives .expression n w) :
    (expression .american).Finds (EndsIn closingChars) [n] w :=
  expressionOf_finds (operand_reads (w.length + 1)) h (Nat.lt_succ_self _)

/-! ### Formulas -/

/-- A formula is an expression behind an equals sign. -/
theorem formula_eq {c next : Cursor} {nodes : List Node} (hsettled : Text.Settled c.rest)
    (h : formula .american c = (.found nodes, next)) :
    ∃ s w t n, AllBlank s ∧ AllBlank t ∧ Derives .expression n w ∧
      nodes = [.parent (.unary .expression)
        (symbolLeaf .equals ['='] :: (spaces s ++ n :: spaces t))] ∧
      c.Passes (.scalar '=' :: (s ++ (w ++ t))) next := by
  obtain ⟨_, n, hrun, hn, rfl⟩ := transform_found_iff.1 h
  obtain ⟨s, w, t, n, mid, _, hs, ht, hderives, hpasses, hend, rfl⟩ :=
    padded_sound ⟨by decide, by decide⟩ expression_sound hsettled hrun
  obtain ⟨rfl, rfl⟩ := sequenceFrom_nil_found_iff.1 hend
  obtain ⟨-, rfl⟩ := Node.unary_eq_ok_iff.1 hn
  exact ⟨s, w, t, n, hs, ht, hderives, by simp, hpasses⟩

theorem formula_finds {t : List Rune} (hs : AllBlank s) (ht : AllBlank t)
    (hn : Derives .expression n w) :
    (formula .american).Finds (· = [])
      [.parent (.unary .expression) (symbolLeaf .equals ['='] :: (spaces s ++ n :: spaces t))]
      (.scalar '=' :: (s ++ (w ++ t))) := by
  have hblanks : FindInTurn [optionalWhitespace] (· = []) (spaces t) t :=
    ((optionalWhitespace_finds ht).mono fun rest hrest => by
      rw [hrest]
      exact Cursor.clear_nil).single
  have hbehind := (expression_finds hn).required.cons hblanks fun rest hrest => by
    rw [hrest, List.append_nil]
    exact endsIn_of_blanks ht
  have hafter := (optionalWhitespace_finds hs).cons hbehind fun rest _ => by
    simpa using (hn.starts nofun).clear_blank
  have hall := (symbolLeaf_finds .equals ['='] fun _ => True).cons hafter fun _ _ => trivial
  refine hall.sequence.transform (Node.unary_eq_ok_iff.2 ⟨?_, rfl⟩)
  simp [operandsOf_symbolLeaf, operandsOf_spaces, operandsOf_cons hn.isNoise]

end Rule

end SheetFormula
