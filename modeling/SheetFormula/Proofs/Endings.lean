import SheetFormula.Proofs.Wiring

/-!
# Every parse ends, unless the percent sign is NUL

The characters of a locale are arbitrary, and some of them may be NUL, which a cursor also shows
past the end of the text.  A separator that is NUL is found there without a rune being consumed, so
a position that moves is no measure of progress; the runes that are left are one.  Two searches
could go on forever, the nesting of operands and the rounds of a list, and in both every level and
every round consumes a rune.

The third is the loop over percent signs.  At the end of the text the cursor shows NUL and does not
move, so the loop ends from a cursor exactly when the percent sign is not NUL or some other
character is still to come, `Rule.percentLoop_ends_iff`.  With any other percent sign every parse
ends, whatever the rest of the locale is, `Grammar.parsing_ends`.
-/

namespace SheetFormula

/-- The second cursor has no more runes in front of it than the first. -/
def Cursor.Shrinks (c : Cursor) (_ : List Node) (next : Cursor) : Prop :=
  next.rest.length ≤ c.rest.length

namespace Rule

/-! ### Percent signs, one by one -/

/-- One pass of the loop over percent signs: the cursor behind a percent sign. -/
def percentPass (percent : Char) (c : Cursor) : Option Cursor :=
  if c.current = percent then some c.next else none

/-- The cursor after a number of passes, if the loop goes on for so long. -/
def percentPasses (percent : Char) : Nat → Cursor → Option Cursor
  | 0, c => some c
  | count + 1, c => (percentPass percent c).bind (percentPasses percent count)

/-- The loop ends after `count` passes, at the cursor `next`. -/
def PercentLoopEnds (percent : Char) (c : Cursor) (count : Nat) (next : Cursor) : Prop :=
  percentPasses percent count c = some next ∧ percentPass percent next = none

variable {percent : Char} {c next : Cursor} {nodes : List Node}

/-- A pass in front of a rune moves the cursor over it. -/
theorem percentPass_cons {p : Nat} {r : Rune} {rest : List Rune} :
    percentPass percent ⟨p, r :: rest⟩ =
      if r.value = percent then some ⟨p + 1, rest⟩ else none := rfl

/-- At the end of the text the cursor shows NUL and stays where it is. -/
theorem percentPass_nil {p : Nat} :
    percentPass percent ⟨p, []⟩ = if nul = percent then some ⟨p, []⟩ else none := rfl

/-- With a percent sign other than NUL each pass moves the cursor over a rune. -/
theorem percentPass_moves (hpercent : percent ≠ nul) (h : percentPass percent c = some next) :
    next.pos = c.pos + 1 ∧ next.rest.length + 1 = c.rest.length := by
  obtain ⟨p, _ | ⟨r, rest⟩⟩ := c
  · rw [percentPass_nil, if_neg hpercent.symm] at h
    cases h
  · rw [percentPass_cons] at h
    split_ifs at h
    cases h
    exact ⟨rfl, rfl⟩

theorem percentPass_nul_ne_none (h : ∀ r ∈ c.rest, r.value = nul) : percentPass nul c ≠ none := by
  obtain ⟨p, _ | ⟨r, rest⟩⟩ := c
  · nofun
  · rw [percentPass_cons, if_pos (h r (List.mem_cons_self ..))]
    nofun

/-- In front of nothing but NULs the loop over percent signs that are NUL never ends. -/
theorem percentPasses_nul (h : ∀ r ∈ c.rest, r.value = nul) (count : Nat) :
    ∃ next, percentPasses nul count c = some next ∧ ∀ r ∈ next.rest, r.value = nul := by
  induction count generalizing c with
  | zero => exact ⟨c, rfl, h⟩
  | succ count ih =>
    obtain ⟨p, _ | ⟨r, rest⟩⟩ := c
    · exact ih h
    · obtain ⟨hr, hrest⟩ := List.forall_mem_cons.1 h
      obtain ⟨next, hnext, hnul⟩ := @ih ⟨p + 1, rest⟩ hrest
      refine ⟨next, ?_, hnul⟩
      rw [percentPasses, percentPass_cons, if_pos hr]
      exact hnext

/-- In front of a character other than NUL, or with a percent sign other than NUL, the loop ends,
after no more passes than there are runes.  Each pass is one of the percent signs that the rule for
numbers takes at once. -/
theorem percentLoop_ends (h : percent ≠ nul ∨ ∃ r ∈ c.rest, r.value ≠ nul) :
    ∃ count ≤ c.rest.length, PercentLoopEnds percent c count (percents percent c).2 ∧
      (percents percent c).1 = List.replicate count (signLeaf .percent percent) := by
  obtain ⟨p, rest⟩ := c
  have hpercents (p : Nat) (rest : List Rune) : percents percent ⟨p, rest⟩ =
      (List.replicate (rest.takeWhile fun r => r.value == percent).length
        (signLeaf .percent percent),
        Cursor.advance ⟨p, rest⟩ (rest.takeWhile fun r => r.value == percent).length) := by
    simp [percents, Cursor.skip, Cursor.run, Cursor.advance]
  refine ⟨(rest.takeWhile fun r => r.value == percent).length,
    (List.takeWhile_prefix _).length_le, ?_, by rw [hpercents]⟩
  rw [hpercents]
  induction rest generalizing p with
  | nil =>
    have hne : percent ≠ nul := h.resolve_right (by simp)
    exact ⟨rfl, by rw [List.takeWhile_nil]; exact if_neg hne.symm⟩
  | cons r rest ih =>
    by_cases hr : r.value = percent
    · -- The sign is not NUL itself, or the other character is behind it.
      have hmore : percent ≠ nul ∨ ∃ r ∈ rest, r.value ≠ nul := by
        rcases h with hne | ⟨s, hs, hne⟩
        · exact .inl hne
        · rcases List.mem_cons.1 hs with rfl | hs
          · exact .inl (hr ▸ hne)
          · exact .inr ⟨s, hs, hne⟩
      obtain ⟨hpasses, hend⟩ := ih (p + 1) hmore
      have hadvance : Cursor.advance ⟨p + 1, rest⟩
            (rest.takeWhile fun r => r.value == percent).length =
          Cursor.advance ⟨p, r :: rest⟩
            ((rest.takeWhile fun r => r.value == percent).length + 1) := by
        simp only [Cursor.advance, List.drop_succ_cons, Nat.add_assoc, Nat.add_comm 1]
      rw [List.takeWhile_cons_of_pos (by simpa using hr), List.length_cons, ← hadvance]
      refine ⟨?_, hend⟩
      rw [percentPasses, percentPass_cons, if_pos hr]
      exact hpasses
    · rw [List.takeWhile_cons_of_neg (by simpa using hr)]
      exact ⟨rfl, if_neg hr⟩

/-- The loop over percent signs ends unless the percent sign is NUL and nothing but NULs is left. -/
theorem percentLoop_ends_iff :
    (∃ count next, PercentLoopEnds percent c count next) ↔
      percent ≠ nul ∨ ∃ r ∈ c.rest, r.value ≠ nul := by
  constructor
  · rintro ⟨count, next, hpasses, hend⟩
    by_contra hnot
    obtain ⟨hpercent, hrest⟩ := not_or.1 hnot
    obtain rfl : percent = nul := not_not.1 hpercent
    obtain ⟨last, hlast, hnul⟩ := percentPasses_nul (c := c) (by simpa using hrest) count
    obtain rfl : last = next := Option.some.inj (hlast.symm.trans hpasses)
    exact percentPass_nul_ne_none hnul hend
  · intro h
    obtain ⟨count, -, hends, -⟩ := percentLoop_ends h
    exact ⟨count, _, hends⟩

theorem percents_atEnd_iff :
    (percents percent c).2.atEnd = true ↔ ∀ r ∈ c.rest, r.value = percent := by
  have hall : c.rest.length ≤ (c.rest.takeWhile fun r => r.value == percent).length ↔
      c.rest.takeWhile (fun r => r.value == percent) = c.rest :=
    ⟨(List.takeWhile_prefix _).eq_of_length_le, fun h => by rw [h]⟩
  simp [percents, Cursor.skip, Cursor.run, Cursor.advance, Cursor.atEnd, hall,
    List.takeWhile_eq_self_iff]

/-- The rule for numbers tells of an endless search exactly where digits stand and the loop over the
percent signs behind them and their exponent never ends. -/
theorem number_endless_iff {g : Grammar} {signed : Bool} :
    (∃ next, number g signed c = (.failed .endless, next)) ↔
      ∃ signs afterSign places afterPlaces,
        (if signed then sign g.locale.negativeSign g.locale.positiveSign c else ([], c)) =
          (signs, afterSign) ∧
        mantissa g.locale.decimalSeparator afterSign = some (places, afterPlaces) ∧
        ¬ ∃ count last, PercentLoopEnds g.locale.percentSymbol
          (exponent g.lexicon.exponent afterPlaces).2 count last := by
  simp only [number, percentLoop_ends_iff]
  rcases (if signed then sign g.locale.negativeSign g.locale.positiveSign c else ([], c))
    with ⟨signs, afterSign⟩
  rcases hplaces : mantissa g.locale.decimalSeparator afterSign with _ | ⟨places, afterPlaces⟩
  · simp [hplaces]
  have hends : ((percents g.locale.percentSymbol
        (exponent g.lexicon.exponent afterPlaces).2).2.atEnd &&
        g.locale.percentSymbol == nul) = true ↔
      ¬ (g.locale.percentSymbol ≠ nul ∨
        ∃ r ∈ (exponent g.lexicon.exponent afterPlaces).2.rest, r.value ≠ nul) := by
    rw [Bool.and_eq_true_iff, percents_atEnd_iff, beq_iff_eq]
    grind
  -- Only the percent signs can go on for ever, and that is tested before the value is worked out.
  constructor
  · rintro ⟨next, h⟩
    refine ⟨signs, afterSign, places, afterPlaces, rfl, hplaces, hends.1 ?_⟩
    by_contra hnot
    dsimp only at h
    rw [if_neg hnot] at h
    split at h
    · obtain ⟨_, -, hdefect, -⟩ := built_failed_iff.1 h
      cases hdefect
    · cases h
  · rintro ⟨_, _, places', afterPlaces', hsame, hplaces', hnot⟩
    cases hsame
    obtain ⟨rfl, rfl⟩ : places = places' ∧ afterPlaces = afterPlaces' := by
      simpa [hplaces] using hplaces'
    exact ⟨_, if_pos (hends.2 hnot)⟩

/-! ### Searches that end -/

theorem compositional_shrinks : Compositional Cursor.Shrinks where
  nil c := Nat.le_refl c.rest.length
  append h h' := Nat.le_trans h' h
  stall h _ := h

/-- On texts of fewer than `k` runes the search of the rule ends, and what it finds leaves no more
runes than there were. -/
structure Finishes (k : Nat) (r : Rule) : Prop where
  shrinks : Keeps Cursor.Shrinks r
  ends : ∀ {c next : Cursor}, c.rest.length < k → r c ≠ (.failed .endless, next)

/-- The searches of rules one after another end. -/
structure FinishInTurn (k : Nat) (rules : List Rule) : Prop where
  shrinks : KeepInTurn Cursor.Shrinks rules
  ends : ∀ {start c next : Cursor}, c.rest.length < k →
    sequenceFrom start rules c ≠ (.failed .endless, next)

/-- Rules one after another that leave fewer runes than there were. -/
def ConsumeInTurn (rules : List Rule) : Prop :=
  ∀ ⦃start c next : Cursor⦄ ⦃nodes : List Node⦄,
    sequenceFrom start rules c = (.found nodes, next) → next.rest.length < c.rest.length

variable {k l : Nat} {r : Rule} {rules : List Rule} {S : List Node → Prop}

/-- A failure that blames the text is no endless search. -/
theorem Gives.finishes (h : Gives k r S) : Finishes k r where
  shrinks := h.moves.imp length_rest_le
  ends hlt hendless := by
    obtain ⟨_, _, _, -, -, hblame⟩ := h.failed hlt hendless
    cases hblame

theorem Finishes.mono (h : Finishes k r) (hle : l ≤ k) : Finishes l r where
  shrinks := h.shrinks
  ends hlt := h.ends (Nat.lt_of_lt_of_le hlt hle)

/-! ### What combinators keep of it -/

theorem finishInTurn_nil : FinishInTurn k [] where
  shrinks := compositional_shrinks.keepInTurn_nil
  ends _ h := by cases h

/-- Rules in turn, of which the first leaves to the rest a text that they finish on. -/
theorem FinishInTurn.cons_of_leaves {m : Nat} (hr : Finishes k r) (hrules : FinishInTurn m rules)
    (hleaves : ∀ {c mid : Cursor} {first : List Node}, c.rest.length < k →
      r c = (.found first, mid) → mid.rest.length < m) :
    FinishInTurn k (r :: rules) where
  shrinks := compositional_shrinks.keepInTurn_cons hr.shrinks hrules.shrinks
  ends hlt hendless := by
    rcases sequenceFrom_cons_failed_iff.1 hendless with hfirst | ⟨first, mid, hfirst, hmore⟩
    · exact hr.ends hlt hfirst
    · exact hrules.ends (hleaves hlt hfirst) hmore

theorem FinishInTurn.cons (hr : Finishes k r) (hrules : FinishInTurn k rules) :
    FinishInTurn k (r :: rules) :=
  .cons_of_leaves hr hrules fun hlt hfirst =>
    Nat.lt_of_le_of_lt (hr.shrinks.found hfirst) hlt

/-- Behind a rule that consumes something there is less text for the others. -/
theorem FinishInTurn.cons_consumes (hr : Finishes (k + 1) r) (hconsumes : Consumes r)
    (hrules : FinishInTurn k rules) : FinishInTurn (k + 1) (r :: rules) :=
  .cons_of_leaves hr hrules fun hlt hfirst =>
    Nat.lt_of_lt_of_le (hconsumes hfirst) (Nat.lt_succ_iff.1 hlt)

theorem FinishInTurn.of_forall (h : rules.Forall (Finishes k)) : FinishInTurn k rules := by
  induction rules with
  | nil => exact finishInTurn_nil
  | cons r rules ih =>
    obtain ⟨hr, hrules⟩ := (List.forall_cons ..).1 h
    exact .cons hr (ih hrules)

theorem FinishInTurn.sequence (h : FinishInTurn k rules) : Finishes k (sequence rules) where
  shrinks := h.shrinks.sequence
  ends hlt := h.ends hlt

theorem Finishes.sequence (h : rules.Forall (Finishes k)) : Finishes k (sequence rules) :=
  (FinishInTurn.of_forall h).sequence

theorem Finishes.alternatives (h : rules.Forall (Finishes k)) :
    Finishes k (alternatives rules) where
  shrinks := Keeps.alternatives (h.imp fun _ hr => hr.shrinks)
  ends := by
    intro c next hlt hendless
    obtain ⟨r, hr, hfirst⟩ :=
      exists_mem_of_alternatives (h.imp fun _ hr => hr.shrinks) hendless nofun
    exact (List.forall_iff_forall_mem.1 h r hr).ends hlt hfirst

theorem Finishes.optional (h : Finishes k r) : Finishes k (optional r) where
  shrinks := compositional_shrinks.optional h.shrinks
  ends hlt hendless := h.ends hlt (optional_failed_iff.1 hendless)

/-- Every round consumes a rune, so there are fewer rounds than runes. -/
theorem Finishes.repeated (h : Finishes k r) (hconsumes : Consumes r) :
    Finishes k (repeated r) where
  shrinks := compositional_shrinks.repeated h.shrinks
  ends := by
    have hrounds (fuel : Nat) : ∀ {c next : Cursor}, c.rest.length < k → c.rest.length < fuel →
        repeatedIn r fuel c ≠ (.failed .endless, next) := by
      induction fuel with
      | zero => exact fun _ hfuel => absurd hfuel (Nat.not_lt_zero _)
      | succ fuel ih =>
        intro c next hlt hfuel hendless
        rcases repeatedIn_succ_failed_iff.1 hendless with hfirst | ⟨first, mid, hfirst, -, hmore⟩
        · exact h.ends hlt hfirst
        · have hless := hconsumes hfirst
          exact ih (by omega) (by omega) hmore
    intro c next hlt
    exact hrounds _ hlt (Nat.lt_succ_self _)

theorem Finishes.required (h : Finishes k r) : Finishes k (required r) where
  shrinks := h.shrinks.required
  ends hlt hendless := by
    rcases required_failed_iff.1 hendless with hr | ⟨-, hfailure⟩
    · exact h.ends hlt hr
    · cases hfailure

theorem Finishes.complete (h : Finishes k r) : Finishes k (complete r) where
  shrinks := h.shrinks.complete
  ends hlt hendless := h.ends hlt (complete_failed_iff.1 hendless)

theorem Finishes.validated {acceptable : List Node → Bool} {build : List Node → Except Defect Node}
    (h : Finishes k r) : Finishes k (validated r acceptable build) where
  shrinks := h.shrinks.validated fun hshrinks _ => hshrinks
  ends hlt hendless := by
    rcases validated_failed_iff.1 hendless with hr | ⟨_, _, -, -, -, hfailure⟩
    · exact h.ends hlt hr
    · cases hfailure

theorem Finishes.transform {build : List Node → Except Defect Node} (h : Finishes k r) :
    Finishes k (transform r build) :=
  validated_true ▸ h.validated

theorem ConsumeInTurn.cons_consumes (hr : Consumes r) (hrules : KeepInTurn Cursor.Shrinks rules) :
    ConsumeInTurn (r :: rules) := by
  intro start c next nodes h
  obtain ⟨first, mid, more, hfirst, hmore, -⟩ := sequenceFrom_cons_found_iff.1 h
  exact Nat.lt_of_le_of_lt (hrules hmore) (hr hfirst)

theorem ConsumeInTurn.cons (hr : Keeps Cursor.Shrinks r) (hrules : ConsumeInTurn rules) :
    ConsumeInTurn (r :: rules) := by
  intro start c next nodes h
  obtain ⟨first, mid, more, hfirst, hmore, -⟩ := sequenceFrom_cons_found_iff.1 h
  exact Nat.lt_of_lt_of_le (hrules hmore) (hr.found hfirst)

/-- A separator may be found past the end of the text, but then nothing that needs text is found
behind it. -/
theorem ConsumeInTurn.separator {s : Symbol} {ch : Char} (hrules : KeepInTurn Cursor.Shrinks rules)
    (hneeds : NeedTextInTurn rules) : ConsumeInTurn (symbol s [ch] :: rules) := by
  intro start c next nodes h
  obtain ⟨first, mid, more, hfirst, hmore, -⟩ := sequenceFrom_cons_found_iff.1 h
  obtain ⟨-, rfl, -⟩ := symbol_found_iff.1 hfirst
  refine Nat.lt_of_le_of_lt (hrules hmore) ?_
  obtain ⟨p, _ | ⟨r, rest⟩⟩ := c
  · exact absurd rfl (hneeds hmore)
  · exact Nat.lt_succ_self _

theorem Consumes.alternatives {P : Cursor → List Node → Cursor → Prop}
    (hP : rules.Forall (Keeps P)) (h : rules.Forall Consumes) : Consumes (alternatives rules) := by
  intro c next nodes hfound
  obtain ⟨r, hr, hfirst⟩ := exists_mem_of_alternatives hP hfound nofun
  exact List.forall_iff_forall_mem.1 h r hr hfirst

theorem ConsumeInTurn.sequence (h : ConsumeInTurn rules) : Consumes (sequence rules) :=
  fun _ _ _ hfound => h hfound

/-! ### Dates and times -/

variable {g : Grammar}

/-- A symbol is found or absent, whatever its characters are. -/
theorem finishes_symbol (s : Symbol) (word : List Char) : Finishes k (symbol s word) where
  shrinks := {
    restores := fun h => (symbol_absent_iff.1 h).2
    found := fun h => by
      obtain ⟨-, rfl, -⟩ := symbol_found_iff.1 h
      exact (List.drop_suffix _ _).length_le }
  ends _ hendless := neverFails_symbol s word hendless

theorem finishes_whitespace : Finishes k whitespace := gives_whitespace.finishes

theorem finishes_optionalWhitespace : Finishes k optionalWhitespace :=
  gives_optionalWhitespace.finishes

theorem finishes_digitsComponent {component : Component} {fewest most low high : Nat} :
    Finishes k (digitsComponent component fewest most low high) := gives_digitsComponent.finishes

theorem finishes_nameComponent {component : Component} {words : WordList Int} :
    Finishes k (nameComponent component words) := gives_nameComponent.finishes

theorem finishes_dateSeparator : Finishes k (dateSeparator g) := by
  refine Finishes.alternatives (List.forall_iff_forall_mem.2 fun r hr => ?_)
  obtain ⟨ch, -, rfl⟩ := List.mem_map.1 hr
  exact finishes_symbol _ _

theorem finishes_dateLayouts : Finishes k (dateLayouts g) := by
  have hday : Finishes k day := finishes_digitsComponent
  have hmonth : Finishes k month := finishes_digitsComponent
  have hfullYear : Finishes k fullYear := finishes_digitsComponent
  have hyear : Finishes k year := gives_year.finishes
  have hword : Finishes k (monthWord g) := gives_monthWord.finishes
  have hmark : Finishes k (dateSeparator g) := finishes_dateSeparator
  have hgap : Finishes k (spaceOrSeparator g) :=
    Finishes.alternatives ⟨finishes_whitespace, hmark⟩
  refine Finishes.alternatives ⟨?_, ?_, ?_, ?_, ?_, ?_⟩
  · exact Finishes.sequence ⟨hfullYear, hmark, hmonth, hmark, hday⟩
  · exact Finishes.sequence ⟨hday, hmark, hmonth, hmark, hyear⟩
  · exact Finishes.sequence ⟨hday, hmark, hmonth⟩
  · exact Finishes.sequence ⟨hday, hgap, hword, hgap, hyear⟩
  · exact Finishes.sequence ⟨hday, hgap, hword⟩
  · exact Finishes.sequence ⟨hword, hgap, hyear⟩

theorem finishes_date : Finishes k (date g) := by
  have hweekday : Finishes k (sequence [dayWord g, optional (symbol .comma [',']), whitespace]) :=
    Finishes.sequence ⟨gives_dayWord.finishes, (finishes_symbol _ _).optional, finishes_whitespace⟩
  refine Finishes.validated (Finishes.sequence ?_)
  exact ⟨hweekday.optional, finishes_dateLayouts⟩

theorem finishes_time : Finishes k (time g) := by
  have hmark : Finishes k (timeSeparator g) := finishes_symbol _ _
  have hfraction : Finishes k (fractionPart g) := Finishes.optional <|
    Finishes.sequence ⟨finishes_symbol _ _, gives_secondFraction.finishes⟩
  have hseconds : Finishes k (secondsPart g) := Finishes.optional <|
    Finishes.sequence ⟨hmark, finishes_digitsComponent, hfraction⟩
  have hmeridiem : Finishes k (meridiem g) := finishes_nameComponent
  have hbehind : Finishes k (sequence [optionalWhitespace, meridiem g]) :=
    Finishes.sequence ⟨finishes_optionalWhitespace, hmeridiem⟩
  refine Finishes.validated (Finishes.alternatives ⟨?_, ?_⟩)
  · exact Finishes.sequence ⟨finishes_digitsComponent, hmark, finishes_digitsComponent, hseconds,
      hbehind.optional⟩
  · exact Finishes.sequence
      ⟨finishes_digitsComponent, finishes_optionalWhitespace, hmeridiem⟩

theorem finishes_dateTime : Finishes k (dateTime g) := by
  refine Finishes.transform (Finishes.sequence ?_)
  exact ⟨finishes_date, finishes_whitespace, finishes_time⟩

/-! ### Expressions

`inner` is the rule for the operands inside an operand. -/

variable {inner : Rule}

theorem finishes_operator : Finishes k operator := gives_operator.finishes

/-- Every operator is a symbol of its own characters. -/
theorem consumes_operator : Consumes operator := by
  refine Consumes.alternatives (P := Cursor.Shrinks) ?_ ?_
  · refine ⟨?_, ?_, ?_, ?_, ?_, ?_, ?_, ?_, ?_, ?_, ?_⟩
    all_goals exact (finishes_symbol (k := 0) _ _).shrinks
  · refine ⟨?_, ?_, ?_, ?_, ?_, ?_, ?_, ?_, ?_, ?_, ?_⟩
    all_goals exact consumes_symbol _ (by decide)

/-- Every round of operator and operand consumes the operator. -/
theorem finishes_expressionOf (h : Finishes k inner) : Finishes k (expressionOf inner) := by
  have hround : FinishInTurn k [optionalWhitespace, operator, optionalWhitespace, required inner] :=
    .of_forall ⟨finishes_optionalWhitespace, finishes_operator, finishes_optionalWhitespace,
      h.required⟩
  have hbehind : FinishInTurn k [optionalWhitespace, required inner] :=
    .of_forall ⟨finishes_optionalWhitespace, h.required⟩
  have hconsumes :
      ConsumeInTurn [optionalWhitespace, operator, optionalWhitespace, required inner] :=
    .cons (finishes_optionalWhitespace (k := k)).shrinks
      (.cons_consumes consumes_operator hbehind.shrinks)
  refine Finishes.transform (Finishes.sequence ?_)
  exact ⟨h, hround.sequence.repeated hconsumes.sequence⟩

/-- Every round of separator and argument consumes something, for a separator past the end of the
text has no argument behind it. -/
theorem finishes_arguments (h : Finishes k inner) (hneeds : NeedsText inner) :
    Finishes k (arguments g inner) := by
  have hexpression := finishes_expressionOf h
  have hbehind : FinishInTurn k [optionalWhitespace, required (expressionOf inner)] :=
    .of_forall ⟨finishes_optionalWhitespace, hexpression.required⟩
  have hround := FinishInTurn.cons finishes_optionalWhitespace
    (.cons (finishes_symbol .valueSeparator [g.locale.valueSeparator]) hbehind)
  have hargument : NeedTextInTurn [optionalWhitespace, required (expressionOf inner)] :=
    .cons_exact exact_optionalWhitespace
      (.cons (NeedTextInTurn.cons hneeds).sequence.transform.required)
  have hseparated : ConsumeInTurn [symbol .valueSeparator [g.locale.valueSeparator],
      optionalWhitespace, required (expressionOf inner)] := .separator hbehind.shrinks hargument
  have hconsumes := ConsumeInTurn.cons (finishes_optionalWhitespace (k := k)).shrinks hseparated
  exact Finishes.sequence ⟨hexpression, hround.sequence.repeated hconsumes.sequence⟩

theorem finishes_parametersOf (h : Finishes k inner) (hneeds : NeedsText inner) :
    Finishes (k + 1) (parametersOf g inner) := by
  have hinside : FinishInTurn k [optionalWhitespace, optional (arguments g inner),
      optionalWhitespace, required (symbol .parenthesisClose [')'])] :=
    .of_forall ⟨finishes_optionalWhitespace, (finishes_arguments h hneeds).optional,
      finishes_optionalWhitespace, (finishes_symbol _ _).required⟩
  exact (FinishInTurn.cons_consumes (finishes_symbol _ _) (consumes_symbol _ (by decide))
    hinside).sequence.transform

theorem finishes_negativeOf (h : Finishes k inner) : Finishes (k + 1) (negativeOf inner) := by
  have hinside : FinishInTurn k [optionalWhitespace, required inner] :=
    .of_forall ⟨finishes_optionalWhitespace, h.required⟩
  exact (FinishInTurn.cons_consumes (finishes_symbol _ _) (consumes_symbol _ (by decide))
    hinside).sequence.transform

theorem finishes_groupOf (h : Finishes k inner) : Finishes (k + 1) (groupOf inner) := by
  have hinside : FinishInTurn k [optionalWhitespace, required (expressionOf inner),
      optionalWhitespace, required (symbol .parenthesisClose [')'])] :=
    .of_forall ⟨finishes_optionalWhitespace, (finishes_expressionOf h).required,
      finishes_optionalWhitespace, (finishes_symbol _ _).required⟩
  exact (FinishInTurn.cons_consumes (finishes_symbol _ _) (consumes_symbol _ (by decide))
    hinside).sequence.transform

theorem finishes_lambdaOf (h : Finishes k (parametersOf g inner)) :
    Finishes k (lambdaOf g inner) := by
  refine Finishes.transform (Finishes.sequence ?_)
  exact ⟨gives_lambdaName.finishes, h, h⟩

theorem finishes_namedFunctionOf (h : Finishes k (parametersOf g inner)) :
    Finishes k (namedFunctionOf g inner) := by
  refine Finishes.transform (Finishes.sequence ?_)
  exact ⟨gives_functionName.finishes, h⟩

/-- One level of operands ends, if the levels inside it end on shorter texts. -/
theorem finishes_operandOf (hpercent : g.locale.percentSymbol ≠ nul) (h : Finishes k inner)
    (hneeds : NeedsText inner) :
    Finishes (k + 1) (operandOf g inner) ∧ NeedsText (operandOf g inner) := by
  have hparameters := finishes_parametersOf (g := g) h hneeds
  have hlambda := finishes_lambdaOf hparameters
  have hcall := finishes_namedFunctionOf hparameters
  have hrules : [negativeOf inner, groupOf inner, quotedText, errorLiteral, number g false,
      lambdaOf g inner, namedFunctionOf g inner, boolean, cellRange, cell, label].Forall
        (Finishes (k + 1)) :=
    ⟨finishes_negativeOf h, finishes_groupOf h, gives_quotedText.finishes,
      gives_errorLiteral.finishes, (gives_number hpercent false).finishes, hlambda, hcall,
      gives_boolean.finishes, gives_cellRange.finishes, gives_cell.finishes, gives_label.finishes⟩
  refine ⟨Finishes.alternatives hrules,
    NeedsText.alternatives (hrules.imp fun _ hr => hr.shrinks) ?_⟩
  exact ⟨(NeedTextInTurn.cons (needsText_symbol _ (by decide))).sequence.transform,
    (NeedTextInTurn.cons (needsText_symbol _ (by decide))).sequence.transform,
    needsText_quotedText, needsText_errorLiteral, needsText_number,
    (NeedTextInTurn.cons needsText_lambdaName).sequence.transform,
    (NeedTextInTurn.cons needsText_functionName).sequence.transform,
    needsText_boolean, needsText_cellRange, needsText_cell, needsText_label⟩

/-- Every level of nesting consumes a rune, so there are fewer levels than runes. -/
theorem finishes_operandIn (hpercent : g.locale.percentSymbol ≠ nul) (fuel : Nat) :
    Finishes fuel (operandIn g fuel) ∧ NeedsText (operandIn g fuel) := by
  induction fuel with
  | zero => exact ⟨⟨⟨nofun, nofun⟩, fun hlt => absurd hlt (Nat.not_lt_zero _)⟩, nofun⟩
  | succ fuel ih =>
    rw [operandIn_succ]
    exact finishes_operandOf hpercent ih.1 ih.2

theorem finishes_operand (hpercent : g.locale.percentSymbol ≠ nul) :
    Finishes k (operand g) ∧ NeedsText (operand g) := by
  refine ⟨⟨⟨fun h => ?_, fun h => ?_⟩, fun {c next} _ h => ?_⟩, fun c next nodes h => ?_⟩
  · exact (finishes_operandIn hpercent _).1.shrinks.restores h
  · exact (finishes_operandIn hpercent _).1.shrinks.found h
  · exact (finishes_operandIn hpercent _).1.ends (Nat.lt_succ_self c.rest.length) h
  · exact (finishes_operandIn hpercent _).2 h

/-! ### Parsers -/

/-- With a percent sign other than NUL the search of every parser ends. -/
theorem finishes_rule (hpercent : g.locale.percentSymbol ≠ nul) (p : Parser) :
    Finishes k (p.rule g) := by
  obtain ⟨hoperand, hneeds⟩ := finishes_operand (k := k) hpercent
  have hexpression : Finishes k (expression g) := finishes_expressionOf hoperand
  have hparameters : Finishes k (parametersOf g (operand g)) :=
    (finishes_parametersOf hoperand hneeds).mono (Nat.le_succ k)
  have hcondition (comparison : Comparison) : Finishes k (conditionOf g comparison) := by
    refine Finishes.transform (Finishes.sequence ?_)
    exact ⟨finishes_symbol _ _, finishes_optionalWhitespace, hexpression.required⟩
  have hformula : Finishes k (formula g) := by
    refine Finishes.transform (Finishes.sequence ?_)
    exact ⟨finishes_symbol _ _, finishes_optionalWhitespace, hexpression.required,
      finishes_optionalWhitespace⟩
  have hnumber : Finishes k (number g true) := (gives_number hpercent true).finishes
  -- The single tokens end since what they give is known; for the others the operand below is used.
  cases p with
  | apostropheText => exact gives_apostropheText.finishes
  | boolean => exact gives_boolean.finishes
  | cell => exact gives_cell.finishes
  | cellRange => exact gives_cellRange.finishes
  | column => exact gives_column.finishes
  | conditionRight =>
    exact Finishes.alternatives ⟨hcondition _, hcondition _, hcondition _, hcondition _,
      hcondition _, hcondition _⟩
  | date => exact finishes_date
  | dateTime => exact finishes_dateTime
  | error => exact gives_errorLiteral.finishes
  | expression => exact hexpression
  | functionName => exact gives_functionName.finishes
  | label => exact gives_label.finishes
  | lambda => exact finishes_lambdaOf hparameters
  | namedFunction => exact finishes_namedFunctionOf hparameters
  | number => exact hnumber
  | row => exact gives_row.finishes
  | templateValueName => exact gives_templateValueName.finishes
  | text => exact gives_quotedText.finishes
  | time => exact finishes_time
  | valueOrExpression =>
    exact Finishes.alternatives ⟨hformula, finishes_dateTime.complete, finishes_date.complete,
      finishes_time.complete, hnumber.complete, gives_apostropheText.finishes.complete,
      gives_wholeText.finishes⟩

end Rule

namespace Grammar

open Rule

/-- With a percent sign other than NUL each pass of the loop over percent signs moves the cursor,
there are no more passes than there are runes, and the search of every parser ends at every
cursor. -/
theorem parsing_ends {l : Locale} (hpercent : l.percentSymbol ≠ nul) :
    (∀ c next : Cursor, percentPass l.percentSymbol c = some next →
      next.pos = c.pos + 1 ∧ next.rest.length + 1 = c.rest.length) ∧
    (∀ c : Cursor, ∃ count ≤ c.rest.length,
      PercentLoopEnds l.percentSymbol c count (percents l.percentSymbol c).2 ∧
        (percents l.percentSymbol c).1 =
          List.replicate count (signLeaf .percent l.percentSymbol)) ∧
    (∀ (p : Parser) (c next : Cursor), p.rule (ofLocale l) c ≠ (.failed .endless, next)) ∧
    ∀ (p : Parser) (text : Text) (whole : Bool),
      ((ofLocale l).run p text whole).1 ≠ .error .endless := by
  have hrule (p : Parser) (c next : Cursor) : p.rule (ofLocale l) c ≠ (.failed .endless, next) :=
    (finishes_rule hpercent p).ends (Nat.lt_succ_self c.rest.length)
  refine ⟨fun _ _ h => percentPass_moves hpercent h,
    fun _ => percentLoop_ends (.inl hpercent), hrule, fun p text whole h => ?_⟩
  simp only [run] at h
  split_ifs at h
  · cases h
  -- What a parse makes of an answer is no endless search, unless the answer is one.
  · rcases hp : p.rule (ofLocale l) ⟨0, text.runes⟩ with ⟨_ | nodes | failure, next⟩
    · simp [hp] at h
    · simp only [hp] at h
      split_ifs at h
      · cases h
      · split at h <;> cases h
    · simp only [hp, Except.error.injEq] at h
      exact hrule p _ _ (h ▸ hp)

/-- A locale that says nothing but its percent sign. -/
theorem parsing_ends_bare :
    '%' ≠ nul ∧ ∀ (p : Parser) (text : Text) (whole : Bool),
      ((ofLocale ⟨nul, nul, .empty, '%', nul, nul, [], nul, [], [], [], [], []⟩).run p text
        whole).1 ≠ .error .endless := by
  have hpercent : '%' ≠ nul := by decide
  exact ⟨hpercent, (parsing_ends
    (l := ⟨nul, nul, .empty, '%', nul, nul, [], nul, [], [], [], [], []⟩) hpercent).2.2.2⟩

/-- With the percent sign unset a pass behind the number `5` leaves the cursor where it is, so that
the loop never ends and neither does the search. -/
theorem parsing_endless :
    percentPass nul ⟨1, []⟩ = some ⟨1, []⟩ ∧
      (¬ ∃ count next, PercentLoopEnds nul ⟨1, []⟩ count next) ∧
      (ofLocale { percentSymbol := nul }).parse .number "5" = .error .endless := by
  refine ⟨rfl, fun hends => ?_, rfl⟩
  rcases percentLoop_ends_iff.1 hends with hne | ⟨r, hr, -⟩
  · exact hne rfl
  · cases hr

end Grammar

end SheetFormula
