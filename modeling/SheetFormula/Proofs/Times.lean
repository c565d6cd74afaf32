import SheetFormula.Proofs.Components
import SheetFormula.Proofs.Whitespace

/-!
# Times without their whitespace

A time has whitespace only in front of its meridiem.  Without it the time is read just the same
(`Rule.time_bare`), since the digits, colons and points end at a letter as they do at a blank; and
it is not taken for a formula or a date (`Rule.valueOrExpression_finds_time`).
-/

namespace SheetFormula

open Cursor (Clear)

/-- Whether a character may go on with a time in front of its meridiem. -/
def isClockPart (ch : Char) : Bool := Rule.isDecimal ch || ch == ':'

/-! ### The time of day -/

namespace TimeReading

variable {n : Node}

theorem read_bare (r : TimeReading) (n : Node) : r.read n.bare = r.read n := by
  cases n with
  | leaf content text => rw [Node.bare_leaf]
  | parent form children =>
    rw [Node.bare_parent]
    rfl

theorem read_whitespace (r : TimeReading) (h : n.isWhitespace = true) : r.read n = .ok r := by
  cases n with
  | leaf content text =>
    rw [Node.isWhitespace_leaf, decide_eq_true_iff] at h
    rw [h]
    rfl
  | parent form children =>
    rw [Node.isWhitespace_parent] at h
    cases h

end TimeReading

/-- Whitespace does not change what time it is. -/
theorem timeOfDay_bareAll (ns : List Node) : timeOfDay (Node.bareAll ns) = timeOfDay ns := by
  have hread (r : TimeReading) :
      (Node.bareAll ns).foldlM TimeReading.read r = ns.foldlM TimeReading.read r := by
    induction ns generalizing r with
    | nil => rw [Node.bareAll_nil]
    | cons n ns ih =>
      cases hn : n.isWhitespace with
      | true =>
        rw [Node.bareAll_cons_whitespace hn, List.foldlM_cons, r.read_whitespace hn]
        exact ih r
      | false =>
        rw [Node.bareAll_cons hn, List.foldlM_cons, List.foldlM_cons, r.read_bare]
        exact bind_congr ih
  rw [timeOfDay, hread, timeOfDay]

theorem Node.time_bareAll {children : List Node} {n : Node} (h : Node.time children = .ok n) :
    Node.time (bareAll children) = .ok n.bare := by
  obtain ⟨-, value, hvalue, rfl⟩ := Node.time_eq_ok_iff.1 h
  rw [← timeOfDay_bareAll] at hvalue
  refine Node.time_eq_ok_iff.2 ⟨fun hnil => ?_, value, hvalue, Node.bare_parent ..⟩
  -- Without an hour there is no time.
  rw [hnil] at hvalue
  cases hvalue

namespace Rule

variable {c mid next : Cursor} {ns ms nodes : List Node} {n : Node} {u v w rest : List Rune}
  {p : Nat}

/-! ### Characters that are read without whitespace -/

/-- The nodes between two cursors where the characters `w` stand, none of them whitespace. -/
structure Reading (c next : Cursor) (nodes : List Node) (w : List Rune) : Prop where
  passes : c.Passes w next
  scalar : ∀ r ∈ w, r.isScalar = true
  solid : ∀ n ∈ nodes, n.IsSolid

theorem Reading.nil (c : Cursor) : Reading c c [] [] :=
  ⟨.refl c, List.forall_mem_nil _, List.forall_mem_nil _⟩

theorem Reading.append (hu : Reading c mid ns u) (hv : Reading mid next ms v) :
    Reading c next (ns ++ ms) (u ++ v) where
  passes := hu.passes.trans hv.passes
  scalar := List.forall_mem_append.2 ⟨hu.scalar, hv.scalar⟩
  solid := List.forall_mem_append.2 ⟨hu.solid, hv.solid⟩

theorem Part.reading {r : Rule} {F : List Rune → Prop} (h : Part r F n w) (hw : c.Passes w next)
    (hscalar : ∀ r ∈ w, r.isScalar = true) : Reading c next [n] w where
  passes := hw
  scalar := hscalar
  solid := by
    obtain ⟨component, value, rfl⟩ := h.leaf
    simp

theorem symbol_reading {s : Symbol} {ch : Char} (hplain : IsPlain ch)
    (h : symbol s [ch] c = (.found nodes, next)) : Reading c next nodes [.scalar ch] ∧
      ∀ F, (symbol s [ch]).Finds F nodes [.scalar ch] := by
  obtain ⟨hpasses, rfl⟩ := symbol_eq (by simpa using hplain) h
  exact ⟨⟨hpasses, by simp [Rune.isScalar], by simp⟩, symbol_finds s [ch]⟩

theorem symbol_absent_of_clear {s : Symbol} {ch : Char} {q : Char → Bool} (hnul : ch ≠ nul)
    (hch : q ch = true) (hrest : Clear q rest) :
    symbol s [ch] ⟨p, rest⟩ = (.absent, ⟨p, rest⟩) := by
  cases rest with
  | nil =>
    rw [symbol_absent_iff]
    simp [Cursor.shows, hnul]
  | cons r rest =>
    refine symbol_absent fun heq => ?_
    rw [Cursor.clear_cons, heq, hch] at hrest
    cases hrest

theorem digitsComponent_reading {component : Component} {fewest most low high : Nat}
    (h : digitsComponent component fewest most low high c = (.found nodes, next)) :
    ∃ w, Reading c next nodes w ∧ IsNumberText fewest most w ∧
      (digitsComponent component fewest most low high).Finds (Clear isDigit) nodes w := by
  obtain ⟨n, w, rfl, hw, hnumber, -, hpart⟩ := digitsComponent_finds h
  exact ⟨w, hpart.reading hw hnumber.isScalar, hnumber, hpart.finds⟩

/-! ### In front of the meridiem -/

theorem clear_digit_of_clear_clock (h : Clear isClockPart rest) : Clear isDigit rest :=
  h.mono fun ch hch => by simp [isClockPart, isDecimal, hch]

/-- What the optional rules behind a separator read is read again where no digit, colon or point
comes next. -/
theorem optional_reading {s : Symbol} {ch : Char} {rules : List Rule} (hplain : IsPlain ch)
    (hch : isClockPart ch = true) (hdigit : isDigit ch = false)
    (hrules : ∀ {start c : Cursor} {nodes : List Node},
      sequenceFrom start rules c = (.found nodes, next) →
        ∃ w, Reading c next nodes w ∧ FindInTurn rules (Clear isClockPart) nodes w)
    (h : optional (sequence (symbol s [ch] :: rules)) c = (.found nodes, next)) :
    ∃ w, Reading c next nodes w ∧
      (∀ rest, Clear isClockPart rest → Clear isDigit (w ++ rest)) ∧
      (optional (sequence (symbol s [ch] :: rules))).Finds (Clear isClockPart) nodes w := by
  rcases optional_found_iff.1 h with hfound | ⟨habsent, rfl⟩
  · obtain ⟨first, mid, more, hsymbol, hmore, rfl⟩ := sequenceFrom_cons_found_iff.1 hfound
    obtain ⟨hfirst, hfinds⟩ := symbol_reading hplain hsymbol
    obtain ⟨v, hv, hagain⟩ := hrules hmore
    exact ⟨[.scalar ch] ++ v, hfirst.append hv, fun rest _ => Cursor.clear_cons.2 hdigit,
      ((hfinds fun _ => True).cons hagain fun _ _ => trivial).sequence.optional⟩
  · obtain rfl := sequenceFrom_absent habsent
    refine ⟨[], .nil _, fun rest hrest => clear_digit_of_clear_clock hrest, fun p rest hrest => ?_⟩
    have hsymbol := symbol_absent_of_clear (s := s) (p := p) hplain.1 hch hrest
    exact optional_found_iff.2 (.inr ⟨sequence_absent hsymbol, rfl⟩)

theorem fractionPart_reading (h : fractionPart .american c = (.found nodes, next)) :
    ∃ w, Reading c next nodes w ∧ (∀ rest, Clear isClockPart rest → Clear isDigit (w ++ rest)) ∧
      (fractionPart .american).Finds (Clear isClockPart) nodes w := by
  refine optional_reading ⟨by decide, by decide⟩ (by decide) (by decide) (fun hmore => ?_) h
  obtain ⟨n, w, rfl, hw, hnumber, -, hpart⟩ :=
    secondFraction_finds (sequenceFrom_single_found_iff.1 hmore)
  exact ⟨w, hpart.reading hw hnumber.isScalar,
    (hpart.finds.mono fun _ => clear_digit_of_clear_clock).single⟩

theorem secondsPart_reading (h : secondsPart .american c = (.found nodes, next)) :
    ∃ w, Reading c next nodes w ∧ (∀ rest, Clear isClockPart rest → Clear isDigit (w ++ rest)) ∧
      (secondsPart .american).Finds (Clear isClockPart) nodes w := by
  refine optional_reading ⟨by decide, by decide⟩ (by decide) (by decide) (fun hmore => ?_) h
  obtain ⟨ns, mid, ms, hseconds, hfraction, rfl⟩ := sequenceFrom_pair_found_iff.1 hmore
  obtain ⟨u, hu, -, hfindsSeconds⟩ := digitsComponent_reading hseconds
  obtain ⟨v, hv, hclear, hfindsFraction⟩ := fractionPart_reading hfraction
  exact ⟨u ++ v, hu.append hv, hfindsSeconds.cons hfindsFraction.single hclear⟩

/-! ### The meridiem -/

theorem meridiem_words : Grammar.american.lexicon.meridiems.Unmarked ∧
    ∀ u ∈ Grammar.american.lexicon.meridiems, u.length ≠ 0 ∧ ∀ b ∈ u.folded.bytes, b < 0x80 := by
  unfold WordList.Unmarked
  decide +kernel

/-- How a meridiem is written: with characters, of which the first is no mark. -/
structure IsMeridiemText (w : List Rune) : Prop where
  scalar : ∀ r ∈ w, r.isScalar = true
  starts : ∃ r v, w = r :: v ∧ r.value ∉ markChars

theorem IsMeridiemText.clear (h : IsMeridiemText w) {q : Char → Bool}
    (hq : ∀ ch, q ch = true → ch ∈ markChars) : Clear q w := by
  obtain ⟨r, v, rfl, hr⟩ := h.starts
  rw [Cursor.clear_cons, Bool.eq_false_iff]
  exact fun hmark => hr (hq _ hmark)

theorem mem_markChars_of_isClockPart {ch : Char} (h : isClockPart ch = true) : ch ∈ markChars := by
  simp only [isClockPart, isDecimal, Bool.or_eq_true, beq_iff_eq] at h
  rcases h with (hdigit | rfl) | rfl
  · exact mem_markChars_of_isDigit hdigit
  · decide
  · decide

theorem mem_markChars_of_isBlank {ch : Char} (h : isBlank ch = true) : ch ∈ markChars := by
  rw [markChars, List.append_assoc]
  exact List.mem_append_left _ (mem_stopChars_of_isBlank h)

theorem isClockPart_eq_false_of_isBlank {ch : Char} (h : isBlank ch = true) :
    isClockPart ch = false :=
  of_isBlank (P := (isClockPart · = false)) (by decide) h

theorem marked_of_eq_nil (h : rest = []) : Marked rest := by simp [Marked, h]

/-- A meridiem at the end is read without the whitespace in front of it. -/
theorem meridiem_bare {start : Cursor} (hsettled : Text.Settled c.rest)
    (h : sequenceFrom start [optionalWhitespace, meridiem .american] c = (.found nodes, next))
    (hend : next.rest = []) :
    Clear isClockPart c.rest ∧ ∃ w, IsMeridiemText w ∧ w.length ≤ c.rest.length ∧
      FindInTurn [optionalWhitespace, meridiem .american] (· = []) (Node.bareAll nodes) w := by
  obtain ⟨hunmarked, hwords⟩ := meridiem_words
  obtain ⟨blanks, mid, more, hblanks, hname, rfl⟩ := sequenceFrom_pair_found_iff.1 h
  obtain ⟨s, hs, rfl, hspaces, -⟩ := optionalWhitespace_eq hblanks
  obtain ⟨n, w, rfl, hw, ⟨word, hmem, hlength, hfold⟩, hpart⟩ :=
    nameComponent_finds hunmarked (marked_of_eq_nil hend) hname
  obtain ⟨hne, hascii⟩ := hwords word hmem
  have hscalar := isScalar_of_foldRunes (settled_of_passes hsettled hspaces) hw hfold hascii
  have hreading := hpart.reading hw hscalar
  have hrest : c.rest = s ++ w := (hspaces.trans hw).rest_of_end hend
  -- A word for a half of the day is not empty and starts with no mark, so it is seen as such.
  rw [hlength] at hne
  obtain ⟨r, v, rfl⟩ := List.exists_cons_of_ne_nil (List.ne_nil_of_length_pos
    (Nat.pos_of_ne_zero hne))
  have htext : IsMeridiemText (r :: v) :=
    ⟨hscalar, r, v, rfl, hunmarked.value_not_mem hmem hfold r (List.mem_cons_self ..)⟩
  refine ⟨?_, r :: v, htext, by rw [hrest]; simp, ?_⟩
  · rw [hrest]
    cases s with
    | nil => exact htext.clear fun _ => mem_markChars_of_isClockPart
    | cons b s =>
      exact Cursor.clear_cons.2 (isClockPart_eq_false_of_isBlank (hs b (List.mem_cons_self ..)))
  · rw [Node.bareAll_append, bareAll_spaces, Node.bareAll_of_isSolid _ hreading.solid]
    refine (optionalWhitespace_finds allBlank_nil).cons
      (hpart.finds.mono fun _ => marked_of_eq_nil).single ?_
    rintro rest rfl
    rw [List.append_nil]
    exact htext.clear fun _ => mem_markChars_of_isBlank

/-- At the end there is no meridiem. -/
theorem optional_meridiem_finds_nil :
    (optional (sequence [optionalWhitespace, meridiem .american])).Finds (· = []) [] [] := by
  rintro p rest rfl
  have hblanks : optionalWhitespace ⟨p, []⟩ = (.found [], ⟨p, []⟩) :=
    optionalWhitespace_finds allBlank_nil Cursor.clear_nil
  have hname : meridiem .american ⟨p, []⟩ = (.absent, ⟨p, []⟩) :=
    nameComponent_absent_of_marked meridiem_words.1 (marked_of_eq_nil rfl)
  refine optional_found_iff.2 (.inr ⟨?_, rfl⟩)
  simp [sequence, sequenceFrom, hblanks, hname]

/-- The meridiem of a time that ends with its minutes or seconds may be missing. -/
theorem optional_meridiem_bare (hsettled : Text.Settled c.rest)
    (h : optional (sequence [optionalWhitespace, meridiem .american]) c = (.found nodes, next))
    (hend : next.rest = []) :
    Clear isClockPart c.rest ∧ ∃ w, (∀ r ∈ w, r.isScalar = true) ∧ Clear isClockPart w ∧
      w.length ≤ c.rest.length ∧
      (optional (sequence [optionalWhitespace, meridiem .american])).Finds (· = [])
        (Node.bareAll nodes) w := by
  rcases optional_found_iff.1 h with hfound | ⟨habsent, rfl⟩
  · obtain ⟨hclear, w, hw, hle, hfinds⟩ := meridiem_bare hsettled hfound hend
    exact ⟨hclear, w, hw.scalar, hw.clear fun _ => mem_markChars_of_isClockPart, hle,
      hfinds.sequence.optional⟩
  · obtain rfl := sequenceFrom_absent habsent
    refine ⟨by simp [hend, Clear], [], List.forall_mem_nil _, Cursor.clear_nil, Nat.zero_le _, ?_⟩
    rw [Node.bareAll_nil]
    exact optional_meridiem_finds_nil

/-! ### Times -/

/-- A time without its whitespace: digits, and a colon or a word behind them. -/
structure IsTimeText (w : List Rune) : Prop where
  scalar : ∀ r ∈ w, r.isScalar = true
  hour : ∃ d r v, w = d ++ r :: v ∧ IsNumberText 1 2 d ∧ (r.value = ':' ∨ r.value ∉ markChars)

/-- The layout of a time with minutes. -/
def longTime (g : Grammar) : List Rule :=
  [digitsComponent .hour 1 2 0 23, timeSeparator g, digitsComponent .minute 2 2 0 59, secondsPart g,
    optional (sequence [optionalWhitespace, meridiem g])]

/-- The layout of a full hour. -/
def shortTime (g : Grammar) : List Rule :=
  [digitsComponent .hour 1 2 0 12, optionalWhitespace, meridiem g]

theorem time_eq (g : Grammar) : time g =
    validated (alternatives [sequence (longTime g), sequence (shortTime g)]) isTime Node.time := rfl

theorem longTime_bare {start : Cursor} (hsettled : Text.Settled c.rest)
    (h : sequenceFrom start (longTime .american) c = (.found nodes, next)) (hend : next.rest = []) :
    ∃ w, IsTimeText w ∧ w.length ≤ c.rest.length ∧
      FindInTurn (longTime .american) (· = []) (Node.bareAll nodes) w := by
  obtain ⟨hours, c₁, afterHours, hhours, h₁, rfl⟩ := sequenceFrom_cons_found_iff.1 h
  obtain ⟨seps, c₂, afterSep, hsep, h₂, rfl⟩ := sequenceFrom_cons_found_iff.1 h₁
  obtain ⟨minutes, c₃, afterMinutes, hminutes, h₃, rfl⟩ := sequenceFrom_cons_found_iff.1 h₂
  obtain ⟨seconds, c₄, tail, hseconds, htail, rfl⟩ := sequenceFrom_cons_found_iff.1 h₃
  obtain ⟨d, hd, hdnumber, hfindsHours⟩ := digitsComponent_reading hhours
  have hcolon : symbol .timeSeparator [':'] c₁ = (.found seps, c₂) := hsep
  obtain ⟨hcolon, hfindsSep⟩ := symbol_reading ⟨by decide, by decide⟩ hcolon
  obtain ⟨u, hu, -, hfindsMinutes⟩ := digitsComponent_reading hminutes
  obtain ⟨v, hv, hclear, hfindsSeconds⟩ := secondsPart_reading hseconds
  have hclock := hd.append (hcolon.append (hu.append hv))
  obtain ⟨-, w, hscalar, hw, hle, hfinds⟩ := optional_meridiem_bare
    (settled_of_passes hsettled hclock.passes) (sequenceFrom_single_found_iff.1 htail) hend
  have hrest {rest : List Rune} (h : rest = []) : Clear isClockPart (w ++ rest) := by
    rwa [h, List.append_nil]
  -- Every part ends where the next one starts, and the seconds where the meridiem or nothing does.
  have hall : FindInTurn (longTime .american) (· = [])
      (hours ++ (seps ++ (minutes ++ (seconds ++ Node.bareAll tail))))
      (d ++ ([.scalar ':'] ++ (u ++ (v ++ w)))) := by
    refine hfindsHours.cons ((hfindsSep fun _ => True).cons (hfindsMinutes.cons
      (hfindsSeconds.cons hfinds.single fun _ => hrest) fun rest h => ?_) fun _ _ => trivial)
      fun _ _ => Cursor.clear_cons.2 (by decide)
    rw [List.append_assoc]
    exact hclear _ (hrest h)
  have hbare : Node.bareAll (hours ++ (seps ++ (minutes ++ (seconds ++ tail)))) =
      hours ++ (seps ++ (minutes ++ (seconds ++ Node.bareAll tail))) := by
    have hsolid := Node.bareAll_of_isSolid _ hclock.solid
    rw [← List.append_assoc minutes, ← List.append_assoc seps, ← List.append_assoc hours,
      Node.bareAll_append, hsolid]
    simp only [List.append_assoc]
  rw [← hbare] at hall
  refine ⟨_, ⟨?_, d, .scalar ':', u ++ (v ++ w), rfl, hdnumber, .inl rfl⟩, ?_, hall⟩
  · simpa only [List.append_assoc, List.cons_append, List.nil_append] using
      List.forall_mem_append.2 ⟨hclock.scalar, hscalar⟩
  · rw [hclock.passes.rest]
    simp only [List.length_append, List.length_cons, List.length_nil]
    omega

theorem shortTime_bare {start : Cursor} (hsettled : Text.Settled c.rest)
    (h : sequenceFrom start (shortTime .american) c = (.found nodes, next))
    (hend : next.rest = []) :
    ∃ w, IsTimeText w ∧ w.length ≤ c.rest.length ∧
      (sequence (longTime .american)).Misses (· = []) w ∧
      FindInTurn (shortTime .american) (· = []) (Node.bareAll nodes) w := by
  obtain ⟨hours, mid, tail, hhours, htail, rfl⟩ := sequenceFrom_cons_found_iff.1 h
  obtain ⟨d, hd, hdnumber, hfindsHours⟩ := digitsComponent_reading hhours
  obtain ⟨-, w, hw, hle, hfinds⟩ := meridiem_bare (settled_of_passes hsettled hd.passes) htail hend
  have hdigit {rest : List Rune} (hrest : rest = []) : Clear isDigit (w ++ rest) := by
    rw [hrest, List.append_nil]
    exact hw.clear fun _ => mem_markChars_of_isDigit
  obtain ⟨r, v, rfl, hr⟩ := hw.starts
  refine ⟨d ++ r :: v, ⟨List.forall_mem_append.2 ⟨hd.scalar, hw.scalar⟩, d, r, v, rfl, hdnumber,
    .inr hr⟩, ?_, fun p rest hrest => ?_, ?_⟩
  · rw [hd.passes.rest]
    simp only [List.length_append] at hle ⊢
    omega
  · -- Without a colon behind the hour there are no minutes.
    rw [List.append_assoc]
    refine sequence_digitsComponent_absent hdnumber.digits hdnumber.most (hdigit hrest)
      (symbol_absent fun hcolon => hr ?_)
    rw [hcolon]
    decide
  · rw [Node.bareAll_append, Node.bareAll_of_isSolid _ hd.solid]
    exact hfindsHours.cons hfinds fun _ => hdigit

/-- A time is read without its whitespace. -/
theorem time_bare (hsettled : Text.Settled c.rest)
    (h : time .american c = (.found [n], next)) (hend : next.rest = []) :
    ∃ w, IsTimeText w ∧ w.length ≤ c.rest.length ∧ (time .american).Finds (· = []) [n.bare] w := by
  obtain ⟨children, m, hchildren, haccepted, hm, heq⟩ := validated_found_iff.1 h
  obtain rfl := (List.cons.inj heq).1
  have hisTime : isTime (Node.bareAll children) = true := by
    rwa [isTime, timeOfDay_bareAll]
  have hvalidated {r : Rule} {w : List Rune} (hw : r.Finds (· = []) (Node.bareAll children) w) :
      (validated r isTime Node.time).Finds (· = []) [n.bare] w := fun p rest hrest =>
    validated_found_iff.2 ⟨_, _, hw hrest, hisTime, Node.time_bareAll hm, rfl⟩
  rw [time_eq]
  rcases alternatives_cons_found_iff.1 hchildren with hlong | ⟨mid, habsent, hshort⟩
  · obtain ⟨w, htext, hle, hfinds⟩ := longTime_bare hsettled hlong hend
    exact ⟨w, htext, hle, hvalidated hfinds.sequence.alternatives⟩
  · obtain rfl := sequenceFrom_absent habsent
    rcases alternatives_cons_found_iff.1 hshort with hshort | ⟨_, -, hnone⟩
    · obtain ⟨w, htext, hle, hmisses, hfinds⟩ := shortTime_bare hsettled hshort hend
      exact ⟨w, htext, hle, hvalidated (hmisses.alternatives hfinds.sequence.alternatives)⟩
    · cases hnone

/-! ### Neither a formula nor a date -/

theorem dateSeparator_absent {r : Rune} (h : r.value = ':' ∨ r.value ∉ markChars) :
    dateSeparator .american ⟨p, r :: v⟩ = (.absent, ⟨p, r :: v⟩) := by
  have hne : r.value ≠ '/' ∧ r.value ≠ '-' := by
    constructor <;> intro heq <;> rw [heq] at h <;> revert h <;> decide
  exact alternatives_absent ⟨symbol_absent hne.1, symbol_absent hne.2⟩

theorem whitespace_absent_of_clear (h : Clear isBlank w) :
    whitespace ⟨p, w⟩ = (.absent, ⟨p, w⟩) := by
  have hskip := Cursor.skip_append (p := p) (w := []) (List.forall_mem_nil _) h
  exact whitespace_absent_iff.2 ⟨congrArg Cursor.pos hskip, rfl⟩

theorem spaceOrSeparator_absent {r : Rune} (h : r.value = ':' ∨ r.value ∉ markChars) :
    spaceOrSeparator .american ⟨p, r :: v⟩ = (.absent, ⟨p, r :: v⟩) := by
  have hclear : Clear isBlank (r :: v) := by
    rw [Cursor.clear_cons, Bool.eq_false_iff]
    intro hblank
    rcases h with h | h
    · rw [h] at hblank
      cases hblank
    · exact h (mem_markChars_of_isBlank hblank)
  have hspace := whitespace_absent_of_clear (p := p) hclear
  simp only [spaceOrSeparator, alternatives, hspace, dateSeparator_absent h]

theorem date_words : Grammar.american.lexicon.months.Unmarked ∧
    Grammar.american.lexicon.monthAbbreviations.Unmarked ∧
    Grammar.american.lexicon.monthInitials.Unmarked ∧
    Grammar.american.lexicon.days.Unmarked ∧
    Grammar.american.lexicon.dayAbbreviations.Unmarked := by
  unfold WordList.Unmarked
  decide +kernel

theorem IsTimeText.exists_digit (h : IsTimeText w) :
    ∃ r v, w = r :: v ∧ isDigit r.value = true := by
  obtain ⟨d, r, v, rfl, hd, -⟩ := h.hour
  obtain ⟨digit, d, rfl⟩ := List.exists_cons_of_ne_nil (List.ne_nil_of_length_pos hd.fewest)
  exact ⟨digit, d ++ r :: v, rfl, hd.digits digit (List.mem_cons_self ..)⟩

theorem monthWord_absent (h : Marked w) : monthWord .american ⟨p, w⟩ = (.absent, ⟨p, w⟩) := by
  obtain ⟨hmonths, habbreviations, hinitials, -⟩ := date_words
  refine alternatives_absent ?_
  exact ⟨nameComponent_absent_of_marked hmonths h, nameComponent_absent_of_marked habbreviations h,
    nameComponent_absent_of_marked hinitials h⟩

theorem dayWord_absent (h : Marked w) : dayWord .american ⟨p, w⟩ = (.absent, ⟨p, w⟩) := by
  obtain ⟨-, -, -, hdays, habbreviations⟩ := date_words
  refine alternatives_absent ?_
  exact ⟨nameComponent_absent_of_marked hdays h, nameComponent_absent_of_marked habbreviations h⟩

/-- Behind its digits a time has nothing of what a date has there. -/
theorem dateLayouts_absent (h : IsTimeText w) (hmarked : Marked w) :
    dateLayouts .american ⟨p, w⟩ = (.absent, ⟨p, w⟩) := by
  have hmonth := monthWord_absent (p := p) hmarked
  obtain ⟨d, r, v, rfl, hd, hr⟩ := h.hour
  have hdigit : Clear isDigit (r :: v) := by
    rw [Cursor.clear_cons, Bool.eq_false_iff]
    intro hdigit
    rcases hr with hr | hr
    · rw [hr] at hdigit
      cases hdigit
    · exact hr (mem_markChars_of_isDigit hdigit)
  have hnumber {component : Component} {fewest most low high : Nat} {r' : Rule}
      {rules : List Rule} (hmost : 2 ≤ most)
      (hr' : r' ⟨p + d.length, r :: v⟩ = (.absent, ⟨p + d.length, r :: v⟩)) :
      sequence (digitsComponent component fewest most low high :: r' :: rules)
        ⟨p, d ++ r :: v⟩ = (.absent, ⟨p, d ++ r :: v⟩) :=
    sequence_digitsComponent_absent hd.digits (Nat.le_trans hd.most hmost) hdigit hr'
  have hseparator := dateSeparator_absent (p := p + d.length) (v := v) hr
  have hspace := spaceOrSeparator_absent (p := p + d.length) (v := v) hr
  refine alternatives_absent ?_
  exact ⟨hnumber (by decide) hseparator, hnumber (Nat.le_refl 2) hseparator,
    hnumber (Nat.le_refl 2) hseparator, hnumber (Nat.le_refl 2) hspace,
    hnumber (Nat.le_refl 2) hspace, sequence_absent hmonth⟩

/-- Where a time stands there is no date. -/
theorem date_absent (h : IsTimeText w) : date .american ⟨p, w⟩ = (.absent, ⟨p, w⟩) := by
  have hmarked : Marked w := by
    obtain ⟨r, v, rfl, hr⟩ := h.exists_digit
    exact marked_cons.2 (mem_markChars_of_isDigit hr)
  have hlayouts := dateLayouts_absent (p := p) h hmarked
  have hweekday {rules : List Rule} :
      optional (sequence (dayWord .american :: rules)) ⟨p, w⟩ = (.found [], ⟨p, w⟩) :=
    optional_found_iff.2 (.inr ⟨sequence_absent (dayWord_absent hmarked), rfl⟩)
  refine validated_absent_iff.2 (.inl ?_)
  rw [sequence]
  simp only [sequenceFrom, hweekday, hlayouts]

/-- A time without its whitespace is read as such where anything can be typed. -/
theorem valueOrExpression_finds_time (h : IsTimeText w)
    (hfinds : (time .american).Finds (· = []) nodes w) :
    (valueOrExpression .american).Finds (· = []) nodes w := by
  have hformula : (formula .american).Misses (· = []) w := by
    obtain ⟨r, v, rfl, hr⟩ := h.exists_digit
    refine fun p rest _ => transform_absent_iff.2 (sequence_absent (symbol_absent fun heq => ?_))
    rw [heq] at hr
    cases hr
  have hdate {p : Nat} {rest : List Rune} (hrest : rest = []) :
      date .american ⟨p, w ++ rest⟩ = (.absent, ⟨p, w ++ rest⟩) := by
    rw [hrest, List.append_nil]
    exact date_absent h
  have hdateTime : (complete (dateTime .american)).Misses (· = []) w := fun p rest hrest =>
    complete_absent_iff.2 (.inl (transform_absent_iff.2 (sequence_absent (hdate hrest))))
  have hnoDate : (complete (date .american)).Misses (· = []) w := fun p rest hrest =>
    complete_absent_iff.2 (.inl (hdate hrest))
  have htime : (complete (time .american)).Finds (· = []) nodes w := fun p rest hrest =>
    complete_found_iff.2 ⟨hfinds hrest, by simp [Cursor.atEnd, hrest]⟩
  exact hformula.alternatives (hdateTime.alternatives (hnoDate.alternatives htime.alternatives))

end Rule

end SheetFormula
