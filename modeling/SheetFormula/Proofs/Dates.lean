import SheetFormula.Proofs.Keys
import SheetFormula.Proofs.Locality
import SheetFormula.Proofs.Wiring

/-!
# Dates in front of blanks

A date that ends in a digit is read in front of blanks as it is read at the end of a text
(`Rule.date_inside`).  Every layout ends in a digit but the one that ends in the name of a month
(`Rule.dateLayouts_cases`), and that is tried behind the layout with a year, which may find more in
a longer text.
-/

namespace SheetFormula

open Cursor (Clear)

namespace Rule

variable {r : Rule} {rules : List Rule} {q : Char → Bool} {k : Nat} {tail : List Rune}
  {start c mid next : Cursor} {nodes : List Node}

/-! ### The last rune of what is read -/

/-- What the rule reads up to the end of a text ends in the class `q`. -/
def EndsWith (q : Char → Bool) (r : Rule) : Prop :=
  ∀ ⦃c next : Cursor⦄ ⦃nodes : List Node⦄, r c = (.found nodes, next) → next.rest = [] →
    ∃ x ∈ c.rest.getLast?, q x.value = true

/-- What the rules read one after another up to the end of a text ends in the class `q`. -/
def EndInTurn (q : Char → Bool) (rules : List Rule) : Prop :=
  ∀ ⦃start : Cursor⦄, EndsWith q (sequenceFrom start rules)

theorem exists_getLast?_append {v w : List Rune} (h : ∃ x ∈ w.getLast?, q x.value = true) :
    ∃ x ∈ (v ++ w).getLast?, q x.value = true := by
  obtain ⟨x, hx, hq⟩ := h
  refine ⟨x, ?_, hq⟩
  rw [Option.mem_def] at hx ⊢
  rw [List.getLast?_append, hx, Option.some_or]

theorem exists_getLast?_of_forall {w : List Rune} (hne : w ≠ []) (h : ∀ r ∈ w, q r.value = true) :
    ∃ x ∈ w.getLast?, q x.value = true :=
  ⟨w.getLast hne, List.getLast?_eq_some_getLast hne, h _ (List.getLast_mem hne)⟩

theorem EndsWith.single (h : EndsWith q r) : EndInTurn q [r] :=
  fun _ _ _ _ hfound => h (sequenceFrom_single_found_iff.1 hfound)

theorem EndInTurn.cons (hr : Exact r) (h : EndInTurn q rules) : EndInTurn q (r :: rules) := by
  intro start c next nodes hfound hend
  obtain ⟨first, mid, more, hfirst, hmore, -⟩ := sequenceFrom_cons_found_iff.1 hfound
  obtain ⟨ws, hws, -⟩ := hr.found hfirst
  rw [hws.rest]
  exact exists_getLast?_append (h hmore hend)

theorem EndInTurn.sequence (h : EndInTurn q rules) : EndsWith q (sequence rules) :=
  fun _ _ _ hfound => h hfound

theorem EndsWith.alternatives (hexact : rules.Forall Exact) (h : rules.Forall (EndsWith q)) :
    EndsWith q (alternatives rules) := by
  intro c next nodes hfound hend
  obtain ⟨r, hr, hfirst⟩ := exists_mem_of_alternatives hexact hfound nofun
  exact List.forall_iff_forall_mem.1 h r hr hfirst hend

theorem endsWith_digitsComponent (component : Component) {fewest : Nat} (hfewest : 0 < fewest)
    (most low high : Nat) : EndsWith isDigit (digitsComponent component fewest most low high) := by
  intro c next nodes h hend
  obtain ⟨n, w, -, hw, hnumber, -, -⟩ := digitsComponent_finds h
  have hne : w ≠ [] := List.ne_nil_of_length_pos (Nat.lt_of_lt_of_le hfewest hnumber.fewest)
  rw [hw.rest_of_end hend]
  exact exists_getLast?_of_forall hne hnumber.digits

theorem endsWith_nameComponent (component : Component) {words : WordList Int}
    (hwords : words.Unmarked) : EndsWith (!isDigit ·) (nameComponent component words) := by
  intro c next nodes h hend
  obtain ⟨n, w, -, hw, ⟨u, hu, hlength, hfold⟩, -⟩ :=
    nameComponent_finds hwords (marked_of_eq_nil hend) h
  have hne := needsText_nameComponent component words h
  rw [hw.rest_of_end hend] at hne ⊢
  refine @exists_getLast?_of_forall (!isDigit ·) w hne fun r hr => ?_
  rw [Bool.not_eq_true', Bool.eq_false_iff]
  exact fun hdigit => hwords.value_not_mem hu hfold r hr (mem_markChars_of_isDigit hdigit)

theorem not_isDigit_last {w : List Rune} (h : ∃ x ∈ w.getLast?, isDigit x.value = true)
    (h' : ∃ x ∈ w.getLast?, (!isDigit x.value) = true) : False := by
  obtain ⟨x, hx, hdigit⟩ := h
  obtain ⟨y, hy, hnot⟩ := h'
  rw [Option.mem_def] at hx hy
  rw [hx, Option.some.injEq] at hy
  rw [← hy, hdigit] at hnot
  cases hnot

/-! ### In front of a blank -/

/-- The next rune, if there is one, is a blank. -/
def Blanked (rest : List Rune) : Prop := ∀ r ∈ rest.head?, isBlank r.value = true

theorem Blanked.marked (h : Blanked tail) : Marked tail :=
  fun r hr => mem_markChars_of_isBlank (h r hr)

theorem Blanked.clear (h : Blanked tail) (hq : ∀ ch ∈ [' ', '\t', '\n', '\r'], q ch = false) :
    Clear q tail :=
  fun r hr => of_isBlank (P := (q · = false)) hq (h r hr)

theorem Blanked.digit (h : Blanked tail) : Clear isDigit tail := h.clear (by decide)

theorem local_number {component : Component} {fewest most low high : Nat} :
    Local Blanked (digitsComponent component fewest most low high) :=
  (local_digitsComponent ..).mono fun _ h => h.digit

theorem local_year : Local Blanked year := Local.alternatives ⟨local_number, local_number⟩

theorem local_word {component : Component} {words : WordList Int} (hwords : words.Unmarked) :
    Local Blanked (nameComponent component words) :=
  (local_nameComponent hwords _).mono fun _ h => h.marked

theorem local_monthWord : Local Blanked (monthWord .american) :=
  Local.alternatives ⟨local_word date_words.1, local_word date_words.2.1,
    local_word date_words.2.2.1⟩

theorem local_dayWord : Local Blanked (dayWord .american) :=
  Local.alternatives ⟨local_word date_words.2.2.2.1, local_word date_words.2.2.2.2⟩

theorem local_mark (s : Symbol) {ch : Char} (hnul : ch ≠ nul)
    (hblank : ∀ b ∈ [' ', '\t', '\n', '\r'], (b == ch) = false) : Local Blanked (symbol s [ch]) :=
  (local_symbol s hnul).mono fun _ h => h.clear hblank

theorem local_dateSeparator : Local Blanked (dateSeparator .american) :=
  Local.alternatives ⟨local_mark _ (by decide) (by decide), local_mark _ (by decide) (by decide)⟩

theorem local_comma : Local Blanked (optional (symbol .comma [','])) :=
  (local_mark _ (by decide) (by decide)).optional

/-! ### What is found in front of a blank -/

/-- What the rules find one after another they find in front of a blank, too. -/
def FoundInside (rules : List Rule) : Prop :=
  ∀ ⦃k : Nat⦄ ⦃tail : List Rune⦄, Blanked tail →
    ∀ ⦃start start' c next : Cursor⦄ ⦃nodes : List Node⦄,
      sequenceFrom start rules c = (.found nodes, next) →
        sequenceFrom start' rules (c.inside k tail) = (.found nodes, next.inside k tail)

theorem foundInside_nil : FoundInside [] := by
  intro k tail _ start start' c next nodes h
  obtain ⟨rfl, rfl⟩ := sequenceFrom_nil_found_iff.1 h
  rfl

theorem FoundInside.cons (h : FoundInside rules) (hr : Local Blanked r) :
    FoundInside (r :: rules) := by
  intro k tail htail start start' c next nodes hfound
  obtain ⟨first, mid, more, hfirst, hmore, rfl⟩ := sequenceFrom_cons_found_iff.1 hfound
  exact sequenceFrom_cons_found_iff.2 ⟨first, _, more, hr.found htail hfirst, h htail hmore, rfl⟩

theorem exact_dateSeparator : Exact (dateSeparator .american) :=
  Keeps.alternatives ⟨exact_symbol _ (by decide), exact_symbol _ (by decide)⟩

theorem exact_spaceOrSeparator : Exact (spaceOrSeparator .american) :=
  Keeps.alternatives ⟨exact_whitespace, exact_dateSeparator⟩

theorem spaceOrSeparator_inside (htail : Blanked tail)
    (h : spaceOrSeparator .american c = (.found nodes, next)) (hne : next.rest ≠ []) :
    spaceOrSeparator .american (c.inside k tail) = (.found nodes, next.inside k tail) := by
  rcases alternatives_cons_found_iff.1 h with hspace | ⟨mid, habsent, hmore⟩
  · exact alternatives_cons_found_iff.2 (.inl (whitespace_inside hspace hne))
  · obtain ⟨hpos, rfl⟩ := whitespace_absent_iff.1 habsent
    obtain ⟨-, hskip⟩ := (mid.passes_skip isBlank).eq_of_pos hpos
    rcases alternatives_cons_found_iff.1 hmore with hseparator | ⟨_, -, hnone⟩
    · obtain ⟨ws, hws, -⟩ := exact_dateSeparator.found hseparator
      have hrest : (mid.skip isBlank).rest ≠ [] := by
        rw [hskip, hws.rest]
        exact List.append_ne_nil_of_right_ne_nil _ hne
      have hspace := @whitespace_eq_inside k tail mid (.inr hrest)
      rw [habsent] at hspace
      exact alternatives_cons_found_iff.2 (.inr ⟨_, hspace,
        alternatives_cons_found_iff.2 (.inl (local_dateSeparator.found htail hseparator))⟩)
    · cases hnone

/-- Blanks are found in front of a blank, too, if something comes behind them. -/
theorem FoundInside.separated (h : FoundInside rules) (hneeds : NeedTextInTurn rules) :
    FoundInside (spaceOrSeparator .american :: rules) := by
  intro k tail htail start start' c next nodes hfound
  obtain ⟨first, mid, more, hfirst, hmore, rfl⟩ := sequenceFrom_cons_found_iff.1 hfound
  exact sequenceFrom_cons_found_iff.2 ⟨first, _, more,
    spaceOrSeparator_inside htail hfirst (hneeds hmore), h htail hmore, rfl⟩

/-! ### Layouts -/

/-- The layouts without words. -/
def numericLayouts (g : Grammar) : List Rule :=
  [sequence [fullYear, dateSeparator g, month, dateSeparator g, day],
    sequence [day, dateSeparator g, month, dateSeparator g, year],
    sequence [day, dateSeparator g, month]]

/-- The layout with the name of a month and a year behind it. -/
def fullLayout (g : Grammar) : List Rule :=
  [day, spaceOrSeparator g, monthWord g, spaceOrSeparator g, year]

/-- The layout that ends in the name of a month. -/
def wordLayout (g : Grammar) : List Rule := [day, spaceOrSeparator g, monthWord g]

/-- The layout that starts with the name of a month. -/
def monthLayout (g : Grammar) : List Rule := [monthWord g, spaceOrSeparator g, year]

theorem alternatives_append {more : List Rule} :
    alternatives (rules ++ more) c = alternatives (alternatives rules :: more) c := by
  induction rules generalizing c with
  | nil => rfl
  | cons r rules ih =>
    simp only [List.cons_append, alternatives] at ih ⊢
    rcases r c with ⟨_ | first | _, mid⟩
    · exact ih
    · rfl
    · rfl

theorem dateLayouts_eq (g : Grammar) : dateLayouts g c =
    alternatives [alternatives (numericLayouts g), sequence (fullLayout g), sequence (wordLayout g),
      sequence (monthLayout g)] c :=
  @alternatives_append (numericLayouts g) c _

theorem local_numericLayouts : Local Blanked (alternatives (numericLayouts .american)) := by
  have hlayout {rules : List Rule} (h : rules.Forall (Local Blanked)) :
      Local Blanked (sequence rules) := Local.sequence h
  exact Local.alternatives ⟨
    hlayout ⟨local_number, local_dateSeparator, local_number, local_dateSeparator, local_number⟩,
    hlayout ⟨local_number, local_dateSeparator, local_number, local_dateSeparator, local_year⟩,
    hlayout ⟨local_number, local_dateSeparator, local_number⟩⟩

theorem foundInside_monthLayout : FoundInside (monthLayout .american) :=
  ((foundInside_nil.cons local_year).separated (.cons spells_american.needsText_year)).cons
    local_monthWord

theorem foundInside_fullLayout : FoundInside (fullLayout .american) :=
  (foundInside_monthLayout.separated (.cons spells_american.needsText_monthWord)).cons local_number

theorem foundInside_wordLayout : FoundInside (wordLayout .american) :=
  ((foundInside_nil.cons local_monthWord).separated
    (.cons spells_american.needsText_monthWord)).cons local_number

/-! ### How dates end -/

theorem endsWith_year : EndsWith isDigit year :=
  EndsWith.alternatives spells_american.years
    ⟨endsWith_digitsComponent _ (by decide) .., endsWith_digitsComponent _ (by decide) ..⟩

theorem endsWith_monthWord : EndsWith (!isDigit ·) (monthWord .american) :=
  EndsWith.alternatives spells_american.monthWords
    ⟨endsWith_nameComponent _ date_words.1, endsWith_nameComponent _ date_words.2.1,
      endsWith_nameComponent _ date_words.2.2.1⟩

theorem endsWith_dayWord : EndsWith (!isDigit ·) (dayWord .american) :=
  EndsWith.alternatives ⟨exact_nameComponent .., exact_nameComponent ..⟩
    ⟨endsWith_nameComponent _ date_words.2.2.2.1, endsWith_nameComponent _ date_words.2.2.2.2⟩

theorem exact_digits {component : Component} {fewest most low high : Nat} :
    Exact (digitsComponent component fewest most low high) := exact_digitsComponent ..

theorem exact_numericLayouts : (numericLayouts .american).Forall Exact := by
  have hlayout {rules : List Rule} (h : rules.Forall Exact) : Exact (sequence rules) :=
    compositional_spells.sequence h
  exact ⟨
    hlayout ⟨exact_digits, exact_dateSeparator, exact_digits, exact_dateSeparator, exact_digits⟩,
    hlayout ⟨exact_digits, exact_dateSeparator, exact_digits, exact_dateSeparator,
      spells_american.year⟩,
    hlayout ⟨exact_digits, exact_dateSeparator, exact_digits⟩⟩

theorem endsWith_numericLayouts : EndsWith isDigit (alternatives (numericLayouts .american)) := by
  have hlayout {last : Rule} (hlast : EndsWith isDigit last) {first second : Rule}
      (hfirst : Exact first) (hsecond : Exact second) : EndInTurn isDigit
        [first, dateSeparator .american, second, dateSeparator .american, last] :=
    (((hlast.single.cons exact_dateSeparator).cons hsecond).cons exact_dateSeparator).cons hfirst
  have hnumber {component : Component} {most low high : Nat} :
      EndsWith isDigit (digitsComponent component 1 most low high) :=
    endsWith_digitsComponent _ (by decide) ..
  exact EndsWith.alternatives exact_numericLayouts
    ⟨(hlayout hnumber exact_digits exact_digits).sequence,
      (hlayout endsWith_year exact_digits exact_digits).sequence,
      ((hnumber.single.cons exact_dateSeparator).cons exact_digits).sequence⟩

theorem endInTurn_monthLayout : EndInTurn isDigit (monthLayout .american) :=
  (endsWith_year.single.cons exact_spaceOrSeparator).cons spells_american.monthWord

theorem endInTurn_fullLayout : EndInTurn isDigit (fullLayout .american) :=
  (endInTurn_monthLayout.cons exact_spaceOrSeparator).cons (exact_digitsComponent ..)

theorem endInTurn_wordLayout : EndInTurn (!isDigit ·) (wordLayout .american) :=
  (endsWith_monthWord.single.cons exact_spaceOrSeparator).cons (exact_digitsComponent ..)

/-! ### Dates that do not start with a digit -/

theorem digitsComponent_absent_of_clear {component : Component} {fewest : Nat}
    (hfewest : 0 < fewest) {most low high : Nat} (h : Clear isDigit c.rest) :
    digitsComponent component fewest most low high c = (.absent, c) := by
  have hskip : skipDigits most c = c :=
    @skipDigits_append [] c.rest most c.pos nofun (Nat.zero_le _) h
  simp [digitsComponent, hskip, hfewest]

/-- What does not start with a digit can only have the layout that starts with the name of a month.
-/
theorem dateLayouts_of_clear (h : Clear isDigit c.rest) :
    dateLayouts .american c = sequence (monthLayout .american) c := by
  have hyear : fullYear c = (.absent, c) := digitsComponent_absent_of_clear (by decide) h
  have hday : day c = (.absent, c) := digitsComponent_absent_of_clear (by decide) h
  have hnumeric : alternatives (numericLayouts .american) c = (.absent, c) :=
    alternatives_absent ⟨sequence_absent hyear, sequence_absent hday, sequence_absent hday⟩
  have hfull : sequence (fullLayout .american) c = (.absent, c) := sequence_absent hday
  have hword : sequence (wordLayout .american) c = (.absent, c) := sequence_absent hday
  rw [dateLayouts_eq]
  simp only [alternatives, hnumeric, hfull, hword]
  rcases sequence (monthLayout .american) c with ⟨_ | nodes | _, next⟩ <;> rfl

/-- A word does not start with a digit. -/
theorem clear_digit_of_found {p : Nat} {rest : List Rune}
    (hmarked : Marked rest → r ⟨p, rest⟩ = (.absent, ⟨p, rest⟩))
    (h : r ⟨p, rest⟩ = (.found nodes, next)) : Clear isDigit rest := by
  intro x hx
  rw [Bool.eq_false_iff]
  intro hdigit
  have hmark : Marked rest := by
    intro y hy
    rw [Option.mem_def] at hx hy
    rw [hx, Option.some.injEq] at hy
    exact hy ▸ mem_markChars_of_isDigit hdigit
  rw [hmarked hmark] at h
  cases h

theorem clear_digit_of_monthLayout (h : sequence (monthLayout .american) c = (.found nodes, next)) :
    Clear isDigit c.rest := by
  obtain ⟨first, mid, more, hword, -, -⟩ := sequenceFrom_cons_found_iff.1 h
  exact clear_digit_of_found monthWord_absent hword

/-- The layout that a date was found with. -/
theorem dateLayouts_cases (h : dateLayouts .american c = (.found nodes, next)) :
    alternatives (numericLayouts .american) c = (.found nodes, next) ∨
      alternatives (numericLayouts .american) c = (.absent, c) ∧
        (sequence (fullLayout .american) c = (.found nodes, next) ∨
          sequence (wordLayout .american) c = (.found nodes, next)) ∨
      sequence (monthLayout .american) c = (.found nodes, next) := by
  have h' : alternatives [alternatives (numericLayouts .american), sequence (fullLayout .american),
      sequence (wordLayout .american), sequence (monthLayout .american)] c = (.found nodes, next) :=
    dateLayouts_eq .american ▸ h
  obtain hnumeric | ⟨mid, hnumeric, hwords⟩ := alternatives_cons_found_iff.1 h'
  · exact .inl hnumeric
  have hmid := (Keeps.alternatives exact_numericLayouts).restores hnumeric
  rw [hmid] at hnumeric hwords
  obtain hfull | ⟨mid, hfull, hlast⟩ := alternatives_cons_found_iff.1 hwords
  · exact .inr (.inl ⟨hnumeric, .inl hfull⟩)
  rw [sequenceFrom_absent hfull] at hlast
  obtain hword | ⟨mid, hword, hmonth⟩ := alternatives_cons_found_iff.1 hlast
  · exact .inr (.inl ⟨hnumeric, .inr hword⟩)
  rw [sequenceFrom_absent hword] at hmonth
  obtain hmonth | ⟨_, -, hnone⟩ := alternatives_cons_found_iff.1 hmonth
  · exact .inr (.inr hmonth)
  · cases hnone

/-- What does not start with a digit ends in one. -/
theorem last_of_clear (h : dateLayouts .american c = (.found nodes, next)) (hend : next.rest = [])
    (hclear : Clear isDigit c.rest) : ∃ x ∈ c.rest.getLast?, isDigit x.value = true := by
  rw [dateLayouts_of_clear hclear] at h
  exact endInTurn_monthLayout h hend

theorem rest_ne_nil_of_dateLayouts (h : dateLayouts .american c = (.found nodes, next))
    (hend : next.rest = []) : c.rest ≠ [] := by
  intro hnil
  obtain ⟨x, hx, -⟩ := last_of_clear h hend (by simp [hnil, Clear])
  rw [hnil] at hx
  cases hx

/-! ### Dates in front of a blank -/

/-- A date that ends in a digit has the same layout in front of a blank. -/
theorem dateLayouts_inside (htail : Blanked tail)
    (h : dateLayouts .american c = (.found nodes, next)) (hend : next.rest = [])
    (hdigit : ∃ x ∈ c.rest.getLast?, isDigit x.value = true) :
    dateLayouts .american (c.inside k tail) = (.found nodes, next.inside k tail) := by
  rcases dateLayouts_cases h with hnumeric | ⟨hnumeric, hfull | hword⟩ | hmonth
  · rw [dateLayouts_eq]
    exact alternatives_cons_found_iff.2 (.inl (local_numericLayouts.found htail hnumeric))
  · rw [dateLayouts_eq]
    exact alternatives_cons_found_iff.2 (.inr ⟨_, local_numericLayouts.absent htail hnumeric,
      alternatives_cons_found_iff.2 (.inl (foundInside_fullLayout htail hfull))⟩)
  · exact (not_isDigit_last hdigit (endInTurn_wordLayout hword hend)).elim
  · have hclear : Clear isDigit (c.inside k tail).rest :=
      clear_append (clear_digit_of_monthLayout hmonth) fun _ => htail.digit
    rw [dateLayouts_of_clear hclear]
    exact foundInside_monthLayout htail hmonth

/-- The name of a day in front of a date. -/
def weekday (g : Grammar) : Rule :=
  optional (sequence [dayWord g, optional (symbol .comma [',']), whitespace])

theorem exact_weekday : Exact (weekday .american) :=
  compositional_spells.optional <| compositional_spells.sequence ⟨spells_american.dayWord,
    compositional_spells.optional (exact_symbol _ (by decide)), exact_whitespace⟩

theorem endsWith_comma : EndsWith (!isDigit ·) (symbol .comma [',']) := by
  intro c next nodes h hend
  obtain ⟨-, hpasses⟩ := symbol_eq_leaf ⟨by decide, by decide⟩ h
  rw [hpasses.rest_of_end hend]
  exact ⟨.scalar ',', rfl, rfl⟩

/-- Behind the name of a day something other than a comma is left. -/
theorem rest_ne_nil_of_dayWord {days comma : List Node} {afterDay afterComma : Cursor}
    (hday : dayWord .american c = (.found days, afterDay))
    (hcomma : optional (symbol .comma [',']) afterDay = (.found comma, afterComma))
    (h : dateLayouts .american c = (.found nodes, next)) (hend : next.rest = []) :
    afterComma.rest ≠ [] := by
  intro hnil
  have hclear : Clear isDigit c.rest := clear_digit_of_found dayWord_absent hday
  refine not_isDigit_last (last_of_clear h hend hclear) ?_
  rcases optional_found_iff.1 hcomma with hsymbol | ⟨habsent, -⟩
  · obtain ⟨ws, hws, -⟩ := spells_american.dayWord.found hday
    rw [hws.rest]
    exact @exists_getLast?_append (!isDigit ·) _ _ (endsWith_comma hsymbol hnil)
  · obtain rfl := (exact_symbol _ (by decide)).restores habsent
    exact endsWith_dayWord hday hnil

/-- The name of a day, or its absence, in front of a date that goes on with a blank. -/
theorem weekday_inside (htail : Blanked tail) {first : List Node}
    (hweekday : weekday .american c = (.found first, mid))
    (h : dateLayouts .american mid = (.found nodes, next)) (hend : next.rest = []) :
    weekday .american (c.inside k tail) = (.found first, mid.inside k tail) := by
  rcases optional_found_iff.1 hweekday with hfound | ⟨habsent, rfl⟩
  · obtain ⟨days, afterDay, comma, afterComma, blanks, hday, hcomma, hspace, rfl⟩ :=
      sequenceFrom_triple_found_iff.1 hfound
    have hinside := @whitespace_inside k tail _ _ _ hspace (rest_ne_nil_of_dateLayouts h hend)
    exact optional_found_iff.2 <| .inl <| sequenceFrom_triple_found_iff.2 ⟨days, _, comma, _,
      blanks, local_dayWord.found htail hday, local_comma.found htail hcomma, hinside, rfl⟩
  · obtain rfl := sequenceFrom_absent habsent
    refine optional_found_iff.2 (.inr ⟨?_, rfl⟩)
    -- A name that is not read is absent itself, or the blank behind it and its comma is missing.
    rcases sequenceFrom_cons_absent_iff.1 habsent with ⟨_, hday, -⟩ | ⟨days, afterDay, hday, h₁⟩
    · exact sequence_absent (local_dayWord.absent htail hday)
    rcases sequenceFrom_cons_absent_iff.1 h₁ with ⟨_, hcomma, -⟩ | ⟨comma, afterComma, hcomma, h₂⟩
    · exact absurd hcomma optional_ne_absent
    rcases sequenceFrom_cons_absent_iff.1 h₂ with ⟨_, hspace, -⟩ | ⟨_, _, -, hnil⟩
    · obtain ⟨hpos, rfl⟩ := whitespace_absent_iff.1 hspace
      obtain ⟨-, hskip⟩ := (Cursor.passes_skip _ isBlank).eq_of_pos hpos
      have hrest := rest_ne_nil_of_dayWord hday hcomma h hend
      have hspace' := @whitespace_eq_inside k tail _ (.inr (by rwa [hskip]))
      rw [hspace] at hspace'
      exact sequenceFrom_cons_absent_iff.2 (.inr ⟨days, _, local_dayWord.found htail hday,
        sequenceFrom_cons_absent_iff.2 (.inr ⟨comma, _, local_comma.found htail hcomma,
          sequenceFrom_cons_absent_iff.2 (.inl ⟨_, hspace', rfl⟩)⟩)⟩)
    · cases hnil

/-- The parts of a date, and the last rune of it. -/
theorem date_found_cases (h : date .american c = (.found nodes, next)) (hend : next.rest = []) :
    ∃ first mid more n, weekday .american c = (.found first, mid) ∧
      dateLayouts .american mid = (.found more, next) ∧ isDate (first ++ more) = true ∧
      Node.date (first ++ more) = .ok n ∧ nodes = [n] ∧
      c.rest.getLast? = mid.rest.getLast? := by
  obtain ⟨children, n, hchildren, hok, hn, rfl⟩ := validated_found_iff.1 h
  obtain ⟨first, mid, more, hweekday, hlayouts, rfl⟩ := sequenceFrom_pair_found_iff.1 hchildren
  obtain ⟨ws, hws, -⟩ := exact_weekday.found hweekday
  refine ⟨first, mid, more, n, hweekday, hlayouts, hok, hn, rfl, ?_⟩
  rw [hws.rest, List.getLast?_append_of_ne_nil _ (rest_ne_nil_of_dateLayouts hlayouts hend)]

theorem exists_last_of_date (h : date .american c = (.found nodes, next)) (hend : next.rest = []) :
    ∃ x, c.rest.getLast? = some x := by
  obtain ⟨first, mid, more, n, -, hlayouts, -, -, -, hlast⟩ := date_found_cases h hend
  exact ⟨_, hlast.trans (List.getLast?_eq_some_getLast (rest_ne_nil_of_dateLayouts hlayouts hend))⟩

/-- A date that ends in a digit is read in front of a blank as it is read at the end of a text. -/
theorem date_inside (htail : Blanked tail) (h : date .american c = (.found nodes, next))
    (hend : next.rest = []) (hdigit : ∃ x ∈ c.rest.getLast?, isDigit x.value = true) :
    date .american (c.inside k tail) = (.found nodes, next.inside k tail) := by
  obtain ⟨first, mid, more, n, hweekday, hlayouts, hok, hn, rfl, hlast⟩ := date_found_cases h hend
  rw [hlast] at hdigit
  exact validated_found_iff.2 ⟨_, n, sequenceFrom_pair_found_iff.2 ⟨first, _, more,
    weekday_inside htail hweekday hlayouts hend, dateLayouts_inside htail hlayouts hend hdigit,
    rfl⟩, hok, hn, rfl⟩

end Rule

end SheetFormula
