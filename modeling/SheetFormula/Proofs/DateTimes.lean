import SheetFormula.Proofs.Dates

/-!
# A date, blanks and a time

A time may stand behind a date that ends in a digit (`Rule.dateTime_found`).  Behind a date that
ends in the name of a month it may not: the layout with a year comes first there, any hour could be
a year, and what is left behind the hour is no time (`Rule.dateTime_absent`).
-/

namespace SheetFormula

open Cursor (Clear)

namespace Rule

variable {r : Rule} {rules : List Rule} {p k : Nat} {v w : List Rune}
  {start c mid next : Cursor} {nodes : List Node}

/-! ### Times at the end of a longer text -/

/-- What is local in front of anything that does not go on with `q` is local at the end. -/
theorem Local.atEnd {q : Char → Bool} (h : Local (Clear q) r) : Local (· = []) r :=
  h.mono fun rest hrest => by simp [hrest, Clear]

theorem local_timeSeparator : Local (· = []) (timeSeparator .american) :=
  (local_symbol _ (by decide)).atEnd

theorem local_fractionPart : Local (· = []) (fractionPart .american) :=
  Local.optionalSequence ⟨(local_symbol _ (by decide)).atEnd, local_secondFraction.atEnd⟩

theorem local_secondsPart : Local (· = []) (secondsPart .american) :=
  Local.optionalSequence ⟨local_timeSeparator, (local_digitsComponent ..).atEnd,
    local_fractionPart⟩

theorem local_meridiem : Local (· = []) (meridiem .american) :=
  (local_nameComponent meridiem_words.1 _).mono fun _ => marked_of_eq_nil

theorem local_time : Local (· = []) (time .american) := by
  have hblanks : Local (· = []) optionalWhitespace := local_whitespace.atEnd.optional
  have hlong : Local (· = []) (sequence (longTime .american)) :=
    Local.sequence ⟨(local_digitsComponent ..).atEnd, local_timeSeparator,
      (local_digitsComponent ..).atEnd, local_secondsPart,
      Local.optionalSequence ⟨hblanks, local_meridiem⟩⟩
  have hshort : Local (· = []) (sequence (shortTime .american)) :=
    Local.sequence ⟨(local_digitsComponent ..).atEnd, hblanks, local_meridiem⟩
  have hlayouts : Local (· = [])
      (alternatives [sequence (longTime .american), sequence (shortTime .american)]) :=
    Local.alternatives ⟨hlong, hshort⟩
  exact hlayouts.validated

/-- A time that is a whole text is one at the end of a longer text. -/
theorem time_atEnd {t : Text} (h : time .american (.start t) = (.found nodes, next))
    (hend : next.rest = []) (p : Nat) :
    ∃ stop, time .american ⟨p, t.runes⟩ = (.found nodes, stop) ∧ stop.rest = [] := by
  have hinside := @Local.found _ _ p _ _ _ _ local_time rfl h
  have hcursor : (Cursor.start t).inside p [] = ⟨p, t.runes⟩ := by
    simp [Cursor.inside, Cursor.start]
  rw [hcursor] at hinside
  exact ⟨_, hinside, by simp [hend]⟩

/-! ### The hour of a time -/

/-- A time starts with a digit. -/
theorem time_absent_of_clear (h : Clear isDigit c.rest) :
    time .american c = (.absent, c) := by
  have hhour {high : Nat} : digitsComponent .hour 1 2 0 high c = (.absent, c) :=
    digitsComponent_absent_of_clear (by decide) h
  exact validated_absent_iff.2 (.inl (alternatives_absent
    ⟨sequence_absent hhour, sequence_absent hhour⟩))

/-- A time starts with an hour, and no digit comes behind that and the blanks there may be. -/
theorem hour_of_time (h : time .american c = (.found nodes, next)) :
    ∃ hours mid, digitsComponent .hour 1 2 0 23 c = (.found hours, mid) ∧
      ∀ blanks stop, whitespace mid = (.found blanks, stop) → Clear isDigit stop.rest := by
  obtain ⟨children, n, hchildren, -⟩ := validated_found_iff.1 h
  rcases alternatives_cons_found_iff.1 hchildren with hlong | ⟨mid, habsent, hshort⟩
  -- Behind the hour of a long time stands the separator, which is no blank.
  · obtain ⟨hours, mid, more, hhour, hmore, -⟩ := sequenceFrom_cons_found_iff.1 hlong
    obtain ⟨colon, afterColon, _, hcolon, -, -⟩ := sequenceFrom_cons_found_iff.1 hmore
    obtain ⟨-, hpasses⟩ := symbol_eq_leaf ⟨by decide, by decide⟩ hcolon
    have hclear : Clear isBlank mid.rest := by
      rw [hpasses.rest]
      exact Cursor.clear_cons.2 (by decide)
    refine ⟨hours, mid, hhour, fun blanks stop hblanks => ?_⟩
    rw [whitespace_absent_of_clear hclear] at hblanks
    cases hblanks
  · obtain rfl := sequenceFrom_absent habsent
    rcases alternatives_cons_found_iff.1 hshort with hshort | ⟨_, -, hnone⟩
    · obtain ⟨hours, mid, spaces, afterSpaces, _, hhour, hspaces, hmeridiem, -⟩ :=
        sequenceFrom_triple_found_iff.1 hshort
      obtain ⟨hnext, hcount, hdigit, value, hvalue, hlow, hhigh, hleaf⟩ :=
        digitsComponent_found_iff.1 hhour
      -- The hour of a short time goes to 12, and the words for the halves of the day are no digits.
      refine ⟨hours, mid, digitsComponent_found_iff.2
        ⟨hnext, hcount, hdigit, value, hvalue, hlow, by omega, hleaf⟩,
        fun blanks stop hblanks => ?_⟩
      have hstop : optionalWhitespace mid = (.found blanks, stop) :=
        optional_found_iff.2 (.inl hblanks)
      rw [hspaces, Prod.mk.injEq] at hstop
      rw [← hstop.2]
      exact clear_digit_of_found (fun h => nameComponent_absent_of_marked meridiem_words.1 h)
        hmeridiem
    · cases hnone

/-- An hour could be a year. -/
theorem year_of_hour (h : digitsComponent .hour 1 2 0 23 c = (.found nodes, next)) :
    ∃ years, year c = (.found years, next) := by
  obtain ⟨n, w, -, hw, hnumber, hclear, -⟩ := digitsComponent_finds h
  obtain ⟨hnext, hcount, hdigit, value, hvalue, hlow, hhigh, -⟩ := digitsComponent_found_iff.1 h
  have hfull : fullYear c = (.absent, c) := by
    have hmost := hnumber.most
    have hskip : skipDigits 4 c = ⟨c.pos + w.length, next.rest⟩ := by
      have hskip := @skipDigits_append w next.rest 4 c.pos hnumber.digits (by omega) hclear
      rwa [← hw.rest] at hskip
    have hfew : w.length < 4 := by omega
    simp [fullYear, digitsComponent, hskip, hfew]
  exact ⟨_, alternatives_cons_found_iff.2 (.inr ⟨c, hfull, alternatives_cons_found_iff.2 (.inl
    (digitsComponent_found_iff.2 ⟨hnext, hcount, hdigit, value, hvalue, hlow, by omega, rfl⟩))⟩)⟩

/-! ### Behind a date -/

theorem whitespace_finds (hblank : AllBlank v) (hv : v ≠ []) :
    whitespace.Finds (Clear isBlank) [.leaf .whitespace (.ofRunes v)] v := by
  intro p rest hrest
  have h := optionalWhitespace_finds hblank (p := p) hrest
  rw [spaces, if_neg hv] at h
  rcases optional_found_iff.1 h with hfound | ⟨-, hnil⟩
  · exact hfound
  · cases hnil

/-- Blanks behind the end of a text are found in a longer one. -/
theorem whitespace_behind (hblank : AllBlank v) (hv : v ≠ []) (hend : next.rest = [])
    (hw : Clear isBlank w) : whitespace (next.inside k (v ++ w)) =
      (.found [.leaf .whitespace (.ofRunes v)], ⟨k + next.pos + v.length, w⟩) := by
  rw [Cursor.inside, hend]
  exact whitespace_finds hblank hv hw

theorem blanked_append (hblank : AllBlank v) (hv : v ≠ []) : Blanked (v ++ w) := by
  intro r hr
  rw [List.head?_append_of_ne_nil _ hv] at hr
  exact hblank r (List.mem_of_mem_head? hr)

/-- What starts with an hour does not start with a blank. -/
theorem clear_blank_of_hour {high : Nat}
    (h : digitsComponent .hour 1 2 0 high ⟨p, w⟩ = (.found nodes, next)) : Clear isBlank w := by
  obtain ⟨n, u, -, hu, hnumber, -, -⟩ := digitsComponent_finds h
  obtain ⟨r, u, rfl⟩ := List.exists_cons_of_ne_nil (List.ne_nil_of_length_pos hnumber.fewest)
  rw [show w = (r :: u) ++ next.rest from hu.rest, List.cons_append, Cursor.clear_cons,
    Bool.eq_false_iff]
  intro hblank
  have hdigit : isDigit r.value = false := of_isBlank (P := (isDigit · = false)) (by decide) hblank
  rw [hnumber.digits r (List.mem_cons_self ..)] at hdigit
  cases hdigit

theorem sequenceFrom_append_found {more : List Rule} {last : List Node}
    (h : sequenceFrom start rules c = (.found nodes, mid))
    (hmore : sequenceFrom start more mid = (.found last, next)) :
    sequenceFrom start (rules ++ more) c = (.found (nodes ++ last), next) := by
  induction rules generalizing c nodes with
  | nil =>
    obtain ⟨rfl, rfl⟩ := sequenceFrom_nil_found_iff.1 h
    exact hmore
  | cons r rules ih =>
    obtain ⟨first, afterFirst, rest, hfirst, hrest, rfl⟩ := sequenceFrom_cons_found_iff.1 h
    exact sequenceFrom_cons_found_iff.2 ⟨first, afterFirst, rest ++ last, hfirst, ih hrest,
      List.append_assoc ..⟩

/-- Behind the name of a month an hour is read as the year. -/
theorem dateLayouts_takes_hour (hblank : AllBlank v) (hv : v ≠ [])
    (hnumeric : alternatives (numericLayouts .american) c = (.absent, c))
    (hword : sequence (wordLayout .american) c = (.found nodes, next)) (hend : next.rest = [])
    {hours : List Node} (hhour : digitsComponent .hour 1 2 0 23
      ⟨k + next.pos + v.length, w⟩ = (.found hours, mid)) :
    ∃ more, dateLayouts .american (c.inside k (v ++ w)) = (.found more, mid) ∧ more ≠ [] := by
  have hblanked : Blanked (v ++ w) := blanked_append hblank hv
  obtain ⟨years, hyear⟩ := year_of_hour hhour
  have hspace : spaceOrSeparator .american (next.inside k (v ++ w)) =
      (.found [.leaf .whitespace (.ofRunes v)], ⟨k + next.pos + v.length, w⟩) :=
    alternatives_cons_found_iff.2
      (.inl (whitespace_behind hblank hv hend (clear_blank_of_hour hhour)))
  have hfull : sequence (fullLayout .american) (c.inside k (v ++ w)) =
      (.found (nodes ++ (.leaf .whitespace (.ofRunes v) :: years)), mid) :=
    sequenceFrom_append_found (foundInside_wordLayout hblanked hword)
      (sequenceFrom_pair_found_iff.2 ⟨_, _, years, hspace, hyear, rfl⟩)
  rw [dateLayouts_eq]
  exact ⟨_, alternatives_cons_found_iff.2 (.inr ⟨_, local_numericLayouts.absent hblanked hnumeric,
    alternatives_cons_found_iff.2 (.inl hfull)⟩), by simp⟩

/-- Where a date does not end in a digit, it has the layout that ends in the name of a month. -/
theorem wordLayout_of_last (h : dateLayouts .american c = (.found nodes, next))
    (hend : next.rest = []) (hlast : ∃ x ∈ c.rest.getLast?, (!isDigit x.value) = true) :
    alternatives (numericLayouts .american) c = (.absent, c) ∧
      sequence (wordLayout .american) c = (.found nodes, next) := by
  rcases dateLayouts_cases h with hnumeric | ⟨hnumeric, hfull | hword⟩ | hmonth
  · exact (not_isDigit_last (endsWith_numericLayouts hnumeric hend) hlast).elim
  · exact (not_isDigit_last (endInTurn_fullLayout hfull hend) hlast).elim
  · exact ⟨hnumeric, hword⟩
  · exact (not_isDigit_last (endInTurn_monthLayout hmonth hend) hlast).elim

/-- Leaves with the components of a date are built into one, or no date is found. -/
theorem date_eq_of_children {children : List Node}
    (h : sequence [weekday .american, dateLayouts .american] c = (.found children, next))
    (hne : children ≠ []) :
    date .american c = (.absent, c) ∨ ∃ n, date .american c = (.found [n], next) := by
  cases hparts : dateParts children with
  | error fault =>
    exact .inl (validated_absent_iff.2 (.inr ⟨_, _, h, by simp [isDate, hparts], rfl⟩))
  | ok parts =>
    have hn : Node.date children = .ok (.parent (.date parts) children) :=
      Node.date_eq_ok_iff.2 ⟨hne, parts, hparts, rfl⟩
    exact .inr ⟨_, validated_found_iff.2 ⟨_, _, h, by simp [isDate, hparts], hn, rfl⟩⟩

/-- Behind a date that does not end in a digit there is no time. -/
theorem dateTime_absent (hblank : AllBlank v) (hv : v ≠ []) {dates times : List Node}
    {stop : Cursor} (hdate : date .american c = (.found dates, next)) (hend : next.rest = [])
    (hlast : ∃ x ∈ c.rest.getLast?, (!isDigit x.value) = true)
    (htime : time .american ⟨k + next.pos + v.length, w⟩ = (.found times, stop)) :
    dateTime .american (c.inside k (v ++ w)) = (.absent, c.inside k (v ++ w)) := by
  obtain ⟨first, mid, more, n, hweekday, hlayouts, -, -, -, hsame⟩ := date_found_cases hdate hend
  rw [hsame] at hlast
  obtain ⟨hnumeric, hword⟩ := wordLayout_of_last hlayouts hend hlast
  obtain ⟨hours, afterHour, hhour, hnoDigit⟩ := hour_of_time htime
  obtain ⟨taken, htaken, hne⟩ := dateLayouts_takes_hour hblank hv hnumeric hword hend hhour
  have hchildren : sequence [weekday .american, dateLayouts .american] (c.inside k (v ++ w)) =
      (.found (first ++ taken), afterHour) :=
    sequenceFrom_pair_found_iff.2 ⟨first, _, taken,
      weekday_inside (blanked_append hblank hv) hweekday hlayouts hend, htaken, rfl⟩
  refine transform_absent_iff.2 ?_
  rcases date_eq_of_children hchildren (List.append_ne_nil_of_right_ne_nil _ hne) with
    habsent | ⟨n, hfound⟩
  · exact sequence_absent habsent
  refine sequenceFrom_cons_absent_iff.2 (.inr ⟨[n], afterHour, hfound, ?_⟩)
  -- What is left behind the hour does not start with a digit, blanks or not.
  by_cases hpos : (afterHour.skip isBlank).pos = afterHour.pos
  · exact sequenceFrom_cons_absent_iff.2
      (.inl ⟨_, whitespace_absent_iff.2 ⟨hpos, rfl⟩, rfl⟩)
  · have hblanks := whitespace_found_iff.2 ⟨rfl, hpos, rfl⟩
    exact sequenceFrom_cons_absent_iff.2 (.inr ⟨_, _, hblanks, sequenceFrom_cons_absent_iff.2
      (.inl ⟨_, time_absent_of_clear (hnoDigit _ _ hblanks), rfl⟩)⟩)

/-- Behind a date that ends in a digit a time is read as at the end of a text. -/
theorem dateTime_found (hblank : AllBlank v) (hv : v ≠ []) {d t : Node} {stop : Cursor}
    (hdate : date .american c = (.found [d], next)) (hend : next.rest = [])
    (hdigit : ∃ x ∈ c.rest.getLast?, isDigit x.value = true)
    (htime : time .american ⟨k + next.pos + v.length, w⟩ = (.found [t], stop)) :
    dateTime .american (c.inside k (v ++ w)) =
      (.found [.parent .dateTime [d, .leaf .whitespace (.ofRunes v), t]], stop) := by
  obtain ⟨hours, mid, hhour, -⟩ := hour_of_time htime
  have hspace := whitespace_behind (k := k) hblank hv hend (clear_blank_of_hour hhour)
  have hchildren : sequence [date .american, whitespace, time .american] (c.inside k (v ++ w)) =
      (.found [d, .leaf .whitespace (.ofRunes v), t], stop) :=
    sequenceFrom_triple_found_iff.2 ⟨[d], _, _, _, _,
      date_inside (blanked_append hblank hv) hdate hend hdigit, hspace, htime, rfl⟩
  obtain ⟨parts, ds, rfl⟩ := form_of_date hdate
  obtain ⟨value, ts, rfl⟩ := form_of_time htime
  exact transform_found_iff.2 ⟨_, _, hchildren, Node.dateTime_eq_ok_iff.2
    ⟨by simp, ⟨(true, true), rfl, by decide⟩, rfl⟩, rfl⟩

end Rule

namespace Grammar

variable {p : Parser} {s d t : Text} {n : Node}

/-- What a parser finds absent it turns down where the cursor is left. -/
theorem parse_eq_error_of_absent {c : Cursor} (hlength : s.runeCount ≤ maxFormulaLength)
    (h : p.rule american (.start s) = (.absent, c)) :
    american.parse p s = .error (.parse (.unexpectedAt c)) := by
  have hshort : ¬ maxFormulaLength < s.runes.length := Nat.not_lt.2 hlength
  rw [parse, run]
  simp only [if_neg hshort, show p.rule american ⟨0, s.runes⟩ = (.absent, c) from h]

theorem unexpectedAt_inside {c : Cursor} {tail : List Rune} (h : c.rest ≠ []) :
    ParseError.unexpectedAt (c.inside 0 tail) = .unexpectedAt c := by
  have hend : c.atEnd = false := by simp [Cursor.atEnd, h]
  have hend' : (c.inside 0 tail).atEnd = false := by simp [Cursor.atEnd, h]
  rw [ParseError.unexpectedAt, ParseError.unexpectedAt, hend, hend', Cursor.current_inside h,
    Cursor.pos_inside, Nat.zero_add]

theorem toNat_lt_of_isBlank {ch : Char} (h : isBlank ch = true) : ch.toNat < 0x80 :=
  of_isBlank (P := (·.toNat < 0x80)) (by decide) h

/-- The runes of a text with blanks in it. -/
theorem start_append_blanks {cs : List Char} (hne : cs ≠ [])
    (hblank : ∀ ch ∈ cs, isBlank ch = true) :
    Cursor.start (d ++ .ofChars cs ++ t) =
      (Cursor.start d).inside 0 (cs.map .scalar ++ t.runes) := by
  obtain ⟨ch, cs, rfl⟩ := List.exists_cons_of_ne_nil hne
  rw [Cursor.start,
    Text.runes_append_ofChars (toNat_lt_of_isBlank (hblank ch (List.mem_cons_self ..)))]
  rfl

/-- A date, blanks and a time are a date and time, with that date and that time as its halves, if
the date ends in a digit, as all dates do but those that end in the name of a month.  Behind such a
name the hour is taken for a year, and the text is turned down at its first character. -/
theorem dateTime_of_date_time (d t : Text) (cs : List Char) (date time : Node)
    (hdate : american.parse .date d = .ok date) (htime : american.parse .time t = .ok time)
    (hne : cs ≠ []) (hblank : ∀ ch ∈ cs, isBlank ch = true)
    (hlength : (d ++ .ofChars cs ++ t).runeCount ≤ maxFormulaLength) :
    (d.chars.getLast?.any isDigit = true →
      ∃ n, american.parse .dateTime (d ++ .ofChars cs ++ t) = .ok n ∧
        n.dateHalf? = some date ∧ date.text = d ∧ n.timeHalf? = some time ∧ time.text = t) ∧
      (d.chars.getLast?.any isDigit = false →
        american.parse .dateTime (d ++ .ofChars cs ++ t) =
          .error (.parse (.unexpectedAt (.start d)))) := by
  obtain ⟨afterDate, hdateFound, hdateEnd⟩ := found_of_parse hdate
  obtain ⟨afterTime, htimeFound, htimeEnd⟩ := found_of_parse htime
  change Rule.date american (.start d) = _ at hdateFound
  change Rule.time american (.start t) = _ at htimeFound
  have hv : cs.map Rune.scalar ≠ [] := by simpa using hne
  have hall : AllBlank (cs.map Rune.scalar) := by simpa [AllBlank, Rune.value] using hblank
  obtain ⟨stop, htimeInside, hstop⟩ :=
    Rule.time_atEnd htimeFound htimeEnd (0 + afterDate.pos + (cs.map Rune.scalar).length)
  -- Whether a time can follow depends on the last rune of the date.
  obtain ⟨x, hx⟩ := Rule.exists_last_of_date hdateFound hdateEnd
  have hlast : d.chars.getLast?.any isDigit = isDigit x.value := by
    rw [Text.chars, List.getLast?_map, show d.runes.getLast? = some x from hx]
    rfl
  rw [hlast]
  constructor
  · intro hdigit
    have hfound := Rule.dateTime_found hall hv hdateFound hdateEnd ⟨x, hx, hdigit⟩ htimeInside
    rw [← start_append_blanks hne hblank] at hfound
    obtain ⟨parts, ds, rfl⟩ := Rule.form_of_date hdateFound
    obtain ⟨value, ts, rfl⟩ := Rule.form_of_time htimeFound
    exact ⟨_, parse_eq_ok_of_found hlength hfound hstop, rfl, (length_of_parse hdate).2, rfl,
      (length_of_parse htime).2⟩
  · intro hdigit
    have habsent := Rule.dateTime_absent hall hv hdateFound hdateEnd
      ⟨x, hx, by simp [hdigit]⟩ htimeInside
    rw [← start_append_blanks hne hblank] at habsent
    have hrest : (Cursor.start d).rest ≠ [] := by
      intro hnil
      rw [hnil] at hx
      cases hx
    have herror := @parse_eq_error_of_absent .dateTime _ _ hlength habsent
    rwa [start_append_blanks hne hblank, unexpectedAt_inside hrest] at herror

/-- A time behind a blank, a tab and a date with a year. -/
theorem dateTime_of_date_with_year :
    ∃ date time n, american.parse .date "Mon, 6 Jan 2020" = .ok date ∧
      american.parse .time "12:30 PM" = .ok time ∧ [' ', '\t'] ≠ [] ∧
      (∀ ch ∈ [' ', '\t'], isBlank ch = true) ∧
      american.parse .dateTime ("Mon, 6 Jan 2020" ++ .ofChars [' ', '\t'] ++ "12:30 PM") = .ok n ∧
      n.dateHalf? = some date ∧ n.timeHalf? = some time := by
  have hparses : (american.parse .date "Mon, 6 Jan 2020").toOption.any (fun _ => true) = true ∧
      (american.parse .time "12:30 PM").toOption.any (fun _ => true) = true := by decide +kernel
  obtain ⟨date, hdate, -⟩ := exists_ok_of_any hparses.1
  obtain ⟨time, htime, -⟩ := exists_ok_of_any hparses.2
  have hblank : ∀ ch ∈ [' ', '\t'], isBlank ch = true := by decide
  obtain ⟨hdigit, -⟩ := dateTime_of_date_time _ _ [' ', '\t'] date time hdate htime (by decide)
    hblank (by decide +kernel)
  obtain ⟨n, hn, hdateHalf, -, htimeHalf, -⟩ := hdigit (by decide +kernel)
  exact ⟨date, time, n, hdate, htime, by decide, hblank, hn, hdateHalf, htimeHalf⟩

/-- The first of January is a date and half past twelve a time, but both together are not read: the
twelve is taken for a year. -/
theorem dateTime_of_date_without_year :
    ∃ date time, american.parse .date "1 Jan" = .ok date ∧
      american.parse .time "12:30" = .ok time ∧
      ∀ n, american.parse .dateTime ("1 Jan" ++ .ofChars [' '] ++ "12:30") ≠ .ok n := by
  have hparses : (american.parse .date "1 Jan").toOption.any (fun _ => true) = true ∧
      (american.parse .time "12:30").toOption.any (fun _ => true) = true := by decide +kernel
  have hdateTime : (american.parse .dateTime
      ("1 Jan" ++ .ofChars [' '] ++ "12:30")).toOption.isNone = true := by decide +kernel
  obtain ⟨date, hdate, -⟩ := exists_ok_of_any hparses.1
  obtain ⟨time, htime, -⟩ := exists_ok_of_any hparses.2
  refine ⟨date, time, hdate, htime, fun n hn => ?_⟩
  rw [hn] at hdateTime
  cases hdateTime

end Grammar

end SheetFormula
