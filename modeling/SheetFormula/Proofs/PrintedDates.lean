import SheetFormula.Proofs.CellTexts
import SheetFormula.Proofs.DateExpressions
import SheetFormula.Proofs.GivenComponents
import SheetFormula.Proofs.Messages
import SheetFormula.Proofs.PlainText

/-!
# Printed dates and times

A date is printed with four digits of the year first, a time with its seconds and with all nine
digits behind the point if there are any.  Typed into a cell, the first is read as a date and the
second as a time, since neither is a date with a time behind it and a time has colons where a date
has other marks.  A year of four digits is never expanded, so the expression is the date or the time
that was printed, whatever the settings are: `Grammar.readsAs_written`.
-/

namespace SheetFormula

open Cursor (Clear)

variable {ps : List (List Rune)} {x : WrittenDate} {t : TimeOfDay} {text : Text}

/-! ### Numbers of a fixed width -/

theorem Text.runes_join {ts : List Text} (h : ∀ t ∈ ts, t.isValid = true) :
    (join ts).runes = (ts.map runes).flatten := by
  induction ts with
  | nil => rfl
  | cons t ts ih =>
    obtain ⟨ht, hts⟩ := List.forall_mem_cons.1 h
    obtain ⟨hruns, htext⟩ := eq_ofChars_of_isValid ht
    obtain ⟨hruns', htext'⟩ := eq_ofChars_of_isValid (isValid_join hts)
    have hjoin : join (t :: ts) = t ++ join ts := rfl
    rw [List.map_cons, List.flatten_cons, ← ih hts, hjoin, htext, htext', ← ofChars_append]
    simp only [runes_ofChars, List.map_append]

/-- A number that fits is printed with as many digits as there is room for. -/
theorem isNumberOf_ofIntPadded (width : Nat) {n : Nat} (hwidth : 0 < width) (h : n < 10 ^ width) :
    IsNumberOf width width (Text.ofIntPadded width n).runes n := by
  have hlength := (Nat.length_toDigits_le_iff (by decide) hwidth).2 h
  have hrunes : (Text.ofIntPadded width n).runes =
      (List.replicate (width - (Nat.toDigits 10 n).length) '0' ++ Nat.toDigits 10 n).map .scalar :=
    Text.runes_ofChars _
  have hsize : (Text.ofIntPadded width n).runes.length = width := by
    rw [hrunes, List.length_map, List.length_append, List.length_replicate]
    omega
  refine ⟨⟨?_, hsize.ge, hsize.le⟩, ?_⟩
  · rw [hrunes]
    refine List.forall_mem_map.2 (List.forall_mem_append.2 ⟨fun c hc => ?_, fun c hc => ?_⟩)
    · rw [List.eq_of_mem_replicate hc]
      rfl
    · exact isDigit_of_mem_toDigits hc
  · rw [hrunes, List.map_map]
    have hvalue : Rune.value ∘ Rune.scalar = id := rfl
    rw [hvalue, List.map_id, digitsValue_zeros_append, digitsValue_toDigits]

theorem IsNumberOf.of_fewest {fewest most n : Nat} {w : List Rune} (h : IsNumberOf fewest most w n)
    (hfewest : 0 < fewest) : IsNumberOf 1 most w n :=
  ⟨⟨h.digits, Nat.le_trans hfewest h.fewest, h.most⟩, h.value⟩

/-- Only twelve months have days. -/
theorem mostDays_bounds {month : Int} (h : 1 ≤ mostDays month) :
    1 ≤ month ∧ month ≤ 12 ∧ mostDays month ≤ 31 := by
  unfold mostDays at h ⊢
  split_ifs at h ⊢ <;> omega

theorem Date.le_mostDays {date : Date} (h : date.isReal = true) :
    1 ≤ date.day ∧ date.day ≤ mostDays date.month := by
  have hlength : date.monthLength ≤ mostDays date.month := by
    unfold monthLength
    split_ifs with h
    · rw [h.1]
      decide
    · exact Int.le_refl _
  simp only [isReal, Bool.and_eq_true, decide_eq_true_eq] at h
  omega

theorem IsSeconds.length_le {second nanosecond : Nat} (h : IsSeconds ps second nanosecond none) :
    ps.flatten.length ≤ 13 := by
  cases h with
  | missing h =>
    cases h
    decide
  | whole hs h =>
    cases h
    have := hs.most
    simp only [List.flatten_cons, List.flatten_nil, List.length_append, List.length_singleton,
      List.length_nil]
    omega
  | fraction hs hf h =>
    cases h
    have := hs.most
    have := hf.most
    simp only [List.flatten_cons, List.flatten_nil, List.length_append, List.length_singleton,
      List.length_nil]
    omega

/-! ### Written dates and times are found -/

namespace Rule

open Grammar (american)

variable {w : List Rune}

theorem dateSeparator_finds {F : List Rune → Prop} (h : IsDateMark w) :
    (dateSeparator american).Finds F [.leaf (.symbol .dateSeparator) (.ofRunes w)] w := by
  rcases h with rfl | rfl
  · exact (symbol_finds .dateSeparator ['/'] F).alternatives
  · have hslash : (symbol .dateSeparator ['/']).Misses F [.scalar '-'] := fun _ _ _ =>
      symbol_absent (by decide)
    exact hslash.alternatives (symbol_finds .dateSeparator ['-'] F).alternatives

/-- The nodes of a date in numbers, the year in front. -/
def numericDate (y a m b d : List Rune) (year month day : Nat) : List Node :=
  [.leaf (.component .year year) (.ofRunes y), .leaf (.symbol .dateSeparator) (.ofRunes a),
    .leaf (.component .monthNumber month) (.ofRunes m),
    .leaf (.symbol .dateSeparator) (.ofRunes b), .leaf (.component .dayNumber day) (.ofRunes d)]

section

variable {y a m b d : List Rune} {year month day : Nat}

theorem numericDate_finds (hy : IsNumberOf 4 4 y year) (ha : IsDateMark a)
    (hm : IsNumberOf 1 2 m month) (hb : IsDateMark b) (hd : IsNumberOf 1 2 d day)
    (hyear : year ≤ 9999) (hmonth : 1 ≤ month ∧ month ≤ 12) (hday : 1 ≤ day ∧ day ≤ 31) :
    FindInTurn [fullYear, dateSeparator american, Rule.month, dateSeparator american, Rule.day]
      (Clear isDigit) (numericDate y a m b d year month day) (y ++ (a ++ (m ++ (b ++ d)))) := by
  have hyears := digitsComponent_finds_number .year hy (by decide) (by decide)
    (Nat.zero_le year) hyear
  have hmonths := digitsComponent_finds_number .monthNumber hm (by decide)
    (by decide) hmonth.1 hmonth.2
  have hdays := digitsComponent_finds_number .dayNumber hd (by decide)
    (by decide) hday.1 hday.2
  have hmark {w v rest : List Rune} (hw : IsDateMark w) : Clear isDigit (w ++ v ++ rest) := by
    rcases hw with rfl | rfl <;> exact Cursor.clear_cons.2 (by decide)
  exact hyears.cons ((dateSeparator_finds ha (F := fun _ => True)).cons (hmonths.cons
    ((dateSeparator_finds hb (F := fun _ => True)).cons hdays.single fun _ _ => trivial)
    fun _ _ => hmark hb) fun _ _ => trivial) fun _ _ => hmark ha

/-- The parts of a date in numbers are those numbers, if the month can have the day. -/
theorem dateParts_numericDate (hy : IsNumberOf 4 4 y year) (hyear : year ≤ 9999)
    (hmonth : 1 ≤ month ∧ month ≤ 12) (hday : 1 ≤ day ∧ day ≤ 31)
    (hmost : (day : Int) ≤ mostDays month) :
    dateParts (numericDate y a m b d year month day) = .ok ⟨day, month, year, y.length, -1⟩ := by
  have hmonths : MonthLeaf (fun k _ => k = month) m
      [.leaf (.component .monthNumber month) (.ofRunes m)] :=
    monthLeaf_of_component (by decide) rfl hmonth.1 hmonth.2
  obtain ⟨k, hk, -, hmonths⟩ := hmonths
  rw [hk] at hmonths
  have hdays : DateParts.Reads ⟨0, month, year, y.length, -1⟩
      [.leaf (.component .dayNumber day) (.ofRunes d)] ⟨day, month, year, y.length, -1⟩ := by
    have hrange : ¬ ((day : Int) < 1 ∨ 31 < (day : Int)) := by omega
    refine .single ?_
    simp only [DateParts.read, DateParts.readComponent]
    rw [if_neg (not_not.2 rfl), if_neg hrange]
  have hreads : DateParts.none.Reads (numericDate y a m b d year month day)
      ⟨day, month, year, y.length, -1⟩ :=
    (read_year hy hyear 0 0 (-1)).append ((ReadsTo.single rfl).append
      ((hmonths ..).append ((ReadsTo.single rfl).append hdays)))
  rw [dateParts, hreads]
  exact if_neg fun h => Int.not_lt.2 hmost h.2

/-- A date in numbers is found if its month can have the day. -/
theorem date_finds (hy : IsNumberOf 4 4 y year) (ha : IsDateMark a) (hm : IsNumberOf 1 2 m month)
    (hb : IsDateMark b) (hd : IsNumberOf 1 2 d day) (hday : 1 ≤ day)
    (hmost : (day : Int) ≤ mostDays month) :
    ∃ parts children, (date american).Finds (Clear isDigit) [.parent (.date parts) children]
      (y ++ (a ++ (m ++ (b ++ d)))) := by
  have hdays : 1 ≤ mostDays month := by omega
  obtain ⟨hmonth, hmonth', hlongest⟩ := mostDays_bounds hdays
  norm_cast at hmonth hmonth'
  have hday' : day ≤ 31 := by omega
  have hyear : year ≤ 9999 := by
    have hlt := digitsValue_lt (List.forall_mem_map.2 hy.digits)
    rw [hy.value, List.length_map, Nat.le_antisymm hy.most hy.fewest] at hlt
    exact Nat.le_of_lt_succ hlt
  have hlayout := numericDate_finds hy ha hm hb hd hyear ⟨hmonth, hmonth'⟩ ⟨hday, hday'⟩
  have hparts := dateParts_numericDate (a := a) (m := m) (b := b) (d := d) hy hyear
    ⟨hmonth, hmonth'⟩ ⟨hday, hday'⟩ hmost
  have hne : numericDate y a m b d year month day ≠ [] := List.cons_ne_nil _ _
  have hnode := Node.date_eq_ok_iff.2 ⟨hne, _, hparts, rfl⟩
  refine ⟨_, _, fun p rest hrest => validated_found_iff.2 ⟨_, _, ?_, ?_, hnode, rfl⟩⟩
  · -- A digit is not the start of the name of a day.
    have hmarked : Marked (y ++ (a ++ (m ++ (b ++ d))) ++ rest) := by
      obtain ⟨r, v, rfl⟩ := List.exists_cons_of_ne_nil (hy.isPiece (by decide)).nonempty
      exact marked_cons.2 (mem_markChars_of_isDigit (hy.digits r (List.mem_cons_self ..)))
    have hweekday : weekday american ⟨p, y ++ (a ++ (m ++ (b ++ d))) ++ rest⟩ =
        (.found [], ⟨p, y ++ (a ++ (m ++ (b ++ d))) ++ rest⟩) :=
      optional_found_iff.2 (.inr ⟨sequence_absent (dayWord_absent hmarked), rfl⟩)
    refine sequenceFrom_cons_found_iff.2 ⟨_, _, _, hweekday, ?_, rfl⟩
    exact hlayout.sequence.alternatives.single hrest
  · rw [isDate, hparts]

end

theorem timeSeparator_finds (F : List Rune → Prop) : (timeSeparator american).Finds F
    [.leaf (.symbol .timeSeparator) (.ofRunes [.scalar ':'])] [.scalar ':'] :=
  symbol_finds .timeSeparator [':'] F

/-- At the end there is nothing that starts with a symbol. -/
theorem optional_symbol_finds_nil {s : Symbol} {ch : Char} (hnul : ch ≠ nul) (rules : List Rule) :
    (optional (sequence (symbol s [ch] :: rules))).Finds (· = []) [] [] := by
  rintro p rest rfl
  have habsent := symbol_absent_of_clear (s := s) (p := p) (q := fun _ => true) hnul rfl
    Cursor.clear_nil
  exact optional_found_iff.2 (.inr ⟨sequence_absent habsent, rfl⟩)

/-- The nodes of the seconds of a time, with the nodes `fraction` behind them. -/
def clockSeconds (s : List Rune) (second : Nat) (fraction : List Node) : List Node :=
  [.leaf (.symbol .timeSeparator) (.ofRunes [.scalar ':'])] ++
    ([.leaf (.component .seconds second) (.ofRunes s)] ++ fraction)

theorem clockSeconds_finds {s f : List Rune} {second : Nat} {fraction : List Node}
    (hs : IsNumberOf 2 2 s second) (hsecond : second ≤ 59)
    (hf : (fractionPart american).Finds (· = []) fraction f) (hclear : Clear isDigit f) :
    (secondsPart american).Finds (· = []) (clockSeconds s second fraction)
      ([.scalar ':'] ++ (s ++ f)) := by
  have hseconds := digitsComponent_finds_number .seconds hs (by decide) (by decide)
    (Nat.zero_le second) hsecond
  refine ((timeSeparator_finds fun _ => True).cons (hseconds.cons hf.single ?_)
    fun _ _ => trivial).sequence.optional
  rintro rest rfl
  rwa [List.append_nil]

theorem reads_clockSeconds {hour minute : Int} {s : List Rune} {second : Nat}
    {fraction : List Node} {r : TimeReading} (hsecond : second ≤ 59)
    (h : TimeReading.Reads ⟨⟨hour, minute, second, 0⟩, none, [.seconds, .minute, .hour]⟩
      fraction r) :
    TimeReading.Reads ⟨⟨hour, minute, 0, 0⟩, none, [.minute, .hour]⟩
      (clockSeconds s second fraction) r := by
  have hread : TimeReading.Reads ⟨⟨hour, minute, 0, 0⟩, none, [.minute, .hour]⟩
      [.leaf (.component .seconds second) (.ofRunes s)]
      ⟨⟨hour, minute, second, 0⟩, none, [.seconds, .minute, .hour]⟩ :=
    .single (TimeReading.within_natCast hsecond)
  exact (TimeReading.reads_timeSeparator _).append (hread.append h)

/-- The nodes of the point of a second and of the places behind it. -/
def clockFraction (f : List Rune) (places : Nat) : List Node :=
  [.leaf (.symbol .decimalSeparator) (.ofRunes [.scalar '.'])] ++
    [.leaf (.component .fraction (places * 10 ^ (9 - f.length) : Nat)) (.ofRunes f)]

theorem clockFraction_finds {f : List Rune} {places : Nat} (hf : IsNumberOf 1 9 f places) :
    (fractionPart american).Finds (· = []) (clockFraction f places) ([.scalar '.'] ++ f) := by
  have hplaces : FindInTurn [symbol .decimalSeparator ['.'], secondFraction] (Clear isDigit)
      (clockFraction f places) ([.scalar '.'] ++ f) :=
    (symbol_finds .decimalSeparator ['.'] fun _ => True).cons
      (secondFraction_finds_places hf).single fun _ _ => trivial
  refine hplaces.sequence.optional.mono ?_
  rintro rest rfl
  exact Cursor.clear_nil

theorem reads_clockFraction {hour minute second : Int} {f : List Rune} {places : Nat}
    (hf : IsNumberOf 1 9 f places) :
    TimeReading.Reads ⟨⟨hour, minute, second, 0⟩, none, [.seconds, .minute, .hour]⟩
      (clockFraction f places)
      ⟨⟨hour, minute, second, (places * 10 ^ (9 - f.length) : Nat)⟩, none,
        [.fraction, .seconds, .minute, .hour]⟩ := by
  have hle : places * 10 ^ (9 - f.length) ≤ 999999999 := Nat.le_of_lt_succ (nanosecond_lt hf)
  have hpoint : TimeReading.Reads
      ⟨⟨hour, minute, second, 0⟩, none, [.seconds, .minute, .hour]⟩
      [.leaf (.symbol .decimalSeparator) (.ofRunes [.scalar '.'])]
      ⟨⟨hour, minute, second, 0⟩, none, [.seconds, .minute, .hour]⟩ := .single rfl
  exact hpoint.append (.single (TimeReading.within_natCast hle))

/-- The seconds of a time are found at its end, with what stands behind their point. -/
theorem secondsPart_finds {second nanosecond : Nat} (h : IsSeconds ps second nanosecond none)
    (hsecond : second ≤ 59) :
    ∃ nodes, (secondsPart american).Finds (· = []) nodes ps.flatten ∧ Clear isDigit ps.flatten ∧
      ∀ hour minute : Int, ∃ seen, Component.hour ∈ seen ∧
        TimeReading.Reads ⟨⟨hour, minute, 0, 0⟩, none, [.minute, .hour]⟩ nodes
          ⟨⟨hour, minute, second, nanosecond⟩, none, seen⟩ := by
  -- The seconds may lack, stand alone, or have a fraction behind them.
  cases h with
  | missing h =>
    cases h
    exact ⟨[], optional_symbol_finds_nil (by decide) _, Cursor.clear_nil, fun hour minute =>
      ⟨_, by decide, rfl⟩⟩
  | whole hs h =>
    cases h
    have hfinds := clockSeconds_finds hs hsecond (optional_symbol_finds_nil (by decide) _)
      Cursor.clear_nil
    exact ⟨_, hfinds, Cursor.clear_cons.2 (by decide), fun hour minute =>
      ⟨[.seconds, .minute, .hour], by decide, reads_clockSeconds hsecond rfl⟩⟩
  | @fraction s f _ _ _ _ hs hf h =>
    cases h
    have hfinds := clockSeconds_finds hs hsecond (clockFraction_finds hf)
      (Cursor.clear_cons.2 (by decide))
    have hflat : [.scalar ':'] ++ (s ++ ([.scalar '.'] ++ f)) =
        [[.scalar ':'], s, [.scalar '.'], f].flatten := by simp
    rw [hflat] at hfinds
    exact ⟨_, hfinds, Cursor.clear_cons.2 (by decide), fun hour minute =>
      ⟨[.fraction, .seconds, .minute, .hour], by decide,
        reads_clockSeconds hsecond (reads_clockFraction hf)⟩⟩

/-- The nodes of the hour and the minute of a time, with the nodes `seconds` behind them. -/
def clockTime (h m : List Rune) (hour minute : Nat) (seconds : List Node) : List Node :=
  [.leaf (.component .hour hour) (.ofRunes h)] ++
    ([.leaf (.symbol .timeSeparator) (.ofRunes [.scalar ':'])] ++
      ([.leaf (.component .minute minute) (.ofRunes m)] ++ seconds))

theorem timeOfDay_clockTime {h m : List Rune} {hour minute : Nat} {second nanosecond : Int}
    {seconds : List Node} {seen : List Component} (hhour : hour ≤ 23) (hminute : minute ≤ 59)
    (hseen : Component.hour ∈ seen)
    (hreads : TimeReading.Reads ⟨⟨hour, minute, 0, 0⟩, none, [.minute, .hour]⟩ seconds
      ⟨⟨hour, minute, second, nanosecond⟩, none, seen⟩) :
    timeOfDay (clockTime h m hour minute seconds) = .ok ⟨hour, minute, second, nanosecond⟩ := by
  have hhourRead : TimeReading.Reads {} [.leaf (.component .hour hour) (.ofRunes h)]
      ⟨⟨hour, 0, 0, 0⟩, none, [.hour]⟩ := .single (TimeReading.within_natCast hhour)
  have hminuteRead : TimeReading.Reads ⟨⟨hour, 0, 0, 0⟩, none, [.hour]⟩
      [.leaf (.component .minute minute) (.ofRunes m)]
      ⟨⟨hour, minute, 0, 0⟩, none, [.minute, .hour]⟩ :=
    .single (TimeReading.within_natCast hminute)
  have hall : TimeReading.Reads {} (clockTime h m hour minute seconds)
      ⟨⟨hour, minute, second, nanosecond⟩, none, seen⟩ :=
    hhourRead.append ((TimeReading.reads_timeSeparator _).append (hminuteRead.append hreads))
  rw [timeOfDay, hall]
  exact if_neg (by simpa using hseen)

/-- A time without a half of the day is found at the end if a clock shows it. -/
theorem time_finds {h m : List Rune} {hour minute second nanosecond : Nat}
    (hh : IsNumberOf 1 2 h hour) (hm : IsNumberOf 2 2 m minute)
    (hs : IsSeconds ps second nanosecond none) (hhour : hour ≤ 23) (hminute : minute ≤ 59)
    (hsecond : second ≤ 59) :
    ∃ children, (time american).Finds (· = [])
      [.parent (.time ⟨hour, minute, second, nanosecond⟩) children]
      (h ++ ([.scalar ':'] ++ (m ++ ps.flatten))) := by
  obtain ⟨seconds, hfinds, hclear, hreads⟩ := secondsPart_finds hs hsecond
  obtain ⟨seen, hseen, hreads⟩ := hreads hour minute
  have hhours := digitsComponent_finds_number .hour hh (by decide) (by decide)
    (Nat.zero_le hour) hhour
  have hminutes := digitsComponent_finds_number .minute hm (by decide) (by decide)
    (Nat.zero_le minute) hminute
  -- The long form of a time comes first, and with no half of the day it takes all of the text.
  have hlong : FindInTurn (longTime american) (· = []) (clockTime h m hour minute (seconds ++ []))
      (h ++ ([.scalar ':'] ++ (m ++ (ps.flatten ++ [])))) := by
    refine hhours.cons ((timeSeparator_finds fun _ => True).cons (hminutes.cons
      (hfinds.cons optional_meridiem_finds_nil.single ?_) ?_) fun _ _ => trivial)
      fun _ _ => Cursor.clear_cons.2 (by decide)
    · rintro rest rfl
      rfl
    · rintro rest rfl
      simpa using hclear
  rw [List.append_nil, List.append_nil] at hlong
  have htime := timeOfDay_clockTime (h := h) (m := m) hhour hminute hseen hreads
  refine ⟨clockTime h m hour minute seconds, fun p rest hrest => ?_⟩
  rw [time_eq]
  exact validated_found_iff.2 ⟨_, _, hlong.sequence.alternatives hrest, by rw [isTime, htime],
    Node.time_eq_ok_iff.2 ⟨nofun, _, htime, rfl⟩, rfl⟩

end Rule

/-! ### Dates, times, and both -/

/-- Among the pieces of a date with a time behind it there are blanks. -/
theorem IsDateTime.exists_blanks (h : IsDateTime ps x t) : ∃ w ∈ ps, IsPiece .blanks w := by
  obtain ⟨-, hblanks, -⟩ := h
  exact ⟨_, by simp, hblanks⟩

/-- A date in numbers, the year in front, has no time behind it. -/
theorem not_isDateTime_of_numbers {y a m b d : List Rune} {year month day : Nat}
    (hy : IsNumberOf 4 4 y year) (ha : IsDateMark a) (hm : IsNumberOf 1 2 m month)
    (hb : IsDateMark b) (hd : IsNumberOf 1 2 d day) : ¬ IsDateTime [y, a, m, b, d] x t := by
  intro h
  obtain ⟨w, hw, hblanks⟩ := h.exists_blanks
  simp only [List.mem_cons, List.not_mem_nil, or_false] at hw
  rcases hw with rfl | rfl | rfl | rfl | rfl
  · cases hblanks.unique (hy.isPiece (by decide))
  · cases hblanks.unique ha.isPiece
  · cases hblanks.unique (hm.isPiece (by decide))
  · cases hblanks.unique hb.isPiece
  · cases hblanks.unique (hd.isPiece (by decide))

/-- Behind the first piece of a date there are blanks or a mark of dates. -/
theorem IsDate.second {v w : List Rune} (h : IsDate (v :: w :: ps) x) :
    IsGap w ∨ w = [.scalar ','] := by
  cases h with
  | plain h =>
    cases h with
    | yearMonthDay _ ha | dayMonthYear _ ha | dayMonth _ ha => exact .inl (.inr ha)
    | dayNameYear _ ha | dayName _ ha | nameYear _ ha => exact .inl ha
  | weekday _ hblanks => exact .inl (.inl hblanks)
  | weekdayComma => exact .inr rfl

/-- A colon behind the first piece is no part of a date. -/
theorem IsDate.not_colon {v : List Rune} : ¬ IsDate (v :: [.scalar ':'] :: ps) x := by
  intro h
  have hcolon : IsPiece .mark [.scalar ':'] := isPiece_mark (by decide)
  rcases h.second with (hblanks | hmark) | hcomma
  · cases hcolon.unique hblanks
  · revert hmark
    unfold IsDateMark
    decide
  · revert hcomma
    decide

/-- A time is not a date with a time behind it. -/
theorem IsTime.not_isDateTime {u : TimeOfDay} (h : IsTime ps t) : ¬ IsDateTime ps x u := by
  rintro ⟨-, hblanks, htime⟩
  exact h.not_gap hblanks htime

namespace Text

variable {ks : List PieceKind}

/-- Whether a text is a date is told by its pieces. -/
theorem isDate_iff (htext : text.runes = ps.flatten) (hps : ArePieces ks ps) :
    text.IsDate x ↔ SheetFormula.IsDate ps x := by
  refine ⟨fun ⟨qs, hqs, h⟩ => ?_, fun h => ⟨ps, htext, h⟩⟩
  obtain ⟨ls, -, -, hls, -⟩ := h.areBounded
  obtain ⟨rfl, -⟩ := hls.unique hps (hqs.symm.trans htext)
  exact h

theorem isDateTime_iff (htext : text.runes = ps.flatten) (hps : ArePieces ks ps) :
    text.IsDateTime x t ↔ SheetFormula.IsDateTime ps x t := by
  refine ⟨fun ⟨qs, hqs, h⟩ => ?_, fun h => ⟨ps, htext, h⟩⟩
  obtain ⟨ls, hls⟩ := h.arePieces
  obtain ⟨rfl, -⟩ := hls.unique hps (hqs.symm.trans htext)
  exact h

end Text

/-! ### Values that are typed -/

namespace Grammar

variable {n : Node} {v w : List Rune}

/-- What starts with a digit is read by the first of the parsers of values that accepts it all. -/
theorem parse_of_firstValue? (hlength : text.runeCount ≤ maxFormulaLength)
    (htext : text.runes = w ++ v) (hw : IsPiece .digits w)
    (h : american.firstValue? text = some n) :
    american.parse .valueOrExpression text = .ok n := by
  obtain ⟨r, w, rfl⟩ := List.exists_cons_of_ne_nil hw.nonempty
  have hne : text.runes ≠ [] := by
    rw [htext]
    exact List.cons_ne_nil _ _
  have hequals : text.runes.head? ≠ some (.scalar '=') := by
    rw [htext]
    intro heq
    cases heq
    cases hw.kind _ (List.mem_cons_self ..)
  by_cases hrefused : ∃ w fault, Rule.IsRefused text.runes w fault
  · obtain ⟨w, fault, hrefused⟩ := hrefused
    exact (parse_of_isRefused hlength hequals hrefused).1 n h
  · simp only [not_exists] at hrefused
    exact (parse_of_not_isRefused hne hlength hequals hrefused).1 n h

theorem accepted?_dateTime_eq_none (h : ∀ x t, ¬ text.IsDateTime x t) :
    american.accepted? text .dateTime = none := by
  rw [Option.eq_none_iff_forall_ne_some]
  intro n hn
  obtain ⟨x, t, hwritten, -⟩ := standsFor_of_parse_dateTime (accepted?_eq_some_iff.1 hn)
  exact h x t hwritten

theorem accepted?_date_eq_none (h : ∀ x, ¬ text.IsDate x) :
    american.accepted? text .date = none := by
  rw [Option.eq_none_iff_forall_ne_some]
  intro n hn
  obtain ⟨x, hwritten, -⟩ := standsFor_of_parse_date (accepted?_eq_some_iff.1 hn)
  exact h x hwritten

/-- A date is typed where it has no time behind it. -/
theorem parse_valueOrExpression_of_date (htext : text.runes = w ++ v) (hw : IsPiece .digits w)
    (hdateTime : ∀ x t, ¬ text.IsDateTime x t) (h : american.parse .date text = .ok n) :
    american.parse .valueOrExpression text = .ok n := by
  refine parse_of_firstValue? (runeCount_of_parse h) htext hw ?_
  rw [firstValue?, Parser.values, List.findSome?_cons, accepted?_dateTime_eq_none hdateTime,
    List.findSome?_cons, accepted?_eq_some_iff.2 h]

/-- A time is typed where there is no date. -/
theorem parse_valueOrExpression_of_time (htext : text.runes = w ++ v) (hw : IsPiece .digits w)
    (hdateTime : ∀ x t, ¬ text.IsDateTime x t) (hdate : ∀ x, ¬ text.IsDate x)
    (h : american.parse .time text = .ok n) : american.parse .valueOrExpression text = .ok n := by
  refine parse_of_firstValue? (runeCount_of_parse h) htext hw ?_
  rw [firstValue?, Parser.values, List.findSome?_cons, accepted?_dateTime_eq_none hdateTime,
    List.findSome?_cons, accepted?_date_eq_none hdate, List.findSome?_cons,
    accepted?_eq_some_iff.2 h]

/-- What is typed is read as a node of the kind `kind`, which is the value `v` whatever the settings
are. -/
def ReadsAs (text : Text) (kind : Kind) (v : Value) : Prop :=
  ∃ n, american.parse .valueOrExpression text = .ok n ∧ n.kind = kind ∧
    ∀ s : Settings, n.toExpression s = .ok (some (.value v))

/-- A date in numbers, the year in front, is typed if the calendar has it. -/
theorem readsAs_date {y a m b d : List Rune} {year month day : Nat}
    (htext : text.runes = [y, a, m, b, d].flatten) (hy : IsNumberOf 4 4 y year) (ha : IsDateMark a)
    (hm : IsNumberOf 1 2 m month) (hb : IsDateMark b) (hd : IsNumberOf 1 2 d day)
    (hreal : Date.isReal ⟨year, month, day⟩ = true) :
    ReadsAs text .date (.date ⟨year, month, day⟩) := by
  have hwritten : IsPlainDate [y, a, m, b, d] ⟨.full year, month, some day⟩ :=
    .yearMonthDay hy ha hm hb hd
  obtain ⟨ks, -, -, hks, -⟩ := hwritten.areBounded
  obtain ⟨hday, hmost⟩ := Date.le_mostDays hreal
  simp only at hday hmost
  obtain ⟨parts, children, hfinds⟩ := Rule.date_finds hy ha hm hb hd (by omega) hmost
  have hrunes : text.runes = y ++ (a ++ (m ++ (b ++ d))) := by simpa using htext
  have hlength : text.runeCount ≤ maxFormulaLength := by
    have hmark {w : List Rune} (hw : IsDateMark w) : w.length = 1 := by
      rcases hw with rfl | rfl <;> rfl
    have hyears := hy.most
    have hmonths := hm.most
    have hdays := hd.most
    rw [Text.runeCount, hrunes, maxFormulaLength]
    simp only [List.length_append, hmark ha, hmark hb]
    omega
  have hparse : american.parse .date text = .ok (.parent (.date parts) children) :=
    parse_eq_ok_of_finds hlength (hrunes ▸ hfinds)
  -- A date and a time are tried first, and this text is no such pair in any cut.
  have hdateTime (x : WrittenDate) (t : TimeOfDay) : ¬ text.IsDateTime x t := by
    rw [Text.isDateTime_iff htext hks]
    exact not_isDateTime_of_numbers hy ha hm hb hd
  refine ⟨_, parse_valueOrExpression_of_date htext (hy.isPiece (by decide)) hdateTime hparse, rfl,
    fun s => ?_⟩
  obtain ⟨x, hx, hstands⟩ := standsFor_of_parse_date hparse
  obtain rfl : x = ⟨.full year, month, some day⟩ := hx.unique ⟨_, htext, .plain hwritten⟩
  exact (hstands s).real hreal

/-- A time without a half of the day is typed if a clock shows it. -/
theorem readsAs_time {h m : List Rune} {hour minute second nanosecond : Nat}
    (htext : text.runes = (h :: [.scalar ':'] :: m :: ps).flatten) (hh : IsNumberOf 1 2 h hour)
    (hm : IsNumberOf 2 2 m minute) (hs : IsSeconds ps second nanosecond none)
    (hhour : hour ≤ 23) (hminute : minute ≤ 59) (hsecond : second ≤ 59) :
    ReadsAs text .time (.time ⟨hour, minute, second, nanosecond⟩) := by
  have hwritten : IsTime (h :: [.scalar ':'] :: m :: ps) ⟨hour, minute, second, nanosecond⟩ :=
    .clock hh hm hs
  obtain ⟨ks, hks, -⟩ := hwritten.arePieces
  obtain ⟨children, hfinds⟩ := Rule.time_finds hh hm hs hhour hminute hsecond
  have hrunes : text.runes = h ++ ([.scalar ':'] ++ (m ++ ps.flatten)) := by simpa using htext
  have hlength : text.runeCount ≤ maxFormulaLength := by
    have hhours := hh.most
    have hminutes := hm.most
    have hseconds := hs.length_le
    rw [Text.runeCount, hrunes, maxFormulaLength]
    simp only [List.length_append, List.length_singleton]
    omega
  have hparse : american.parse .time text =
      .ok (.parent (.time ⟨hour, minute, second, nanosecond⟩) children) := by
    refine parse_eq_ok_of_finds (q := fun _ => true) hlength (hrunes ▸ hfinds.mono fun rest h => ?_)
    cases rest with
    | nil => rfl
    | cons r rest => cases Cursor.clear_cons.1 h
  -- Neither a date and a time nor a date is written there, so that the time is reached.
  have hdateTime (x : WrittenDate) (u : TimeOfDay) : ¬ text.IsDateTime x u := by
    rw [Text.isDateTime_iff htext hks]
    exact hwritten.not_isDateTime
  have hdate (x : WrittenDate) : ¬ text.IsDate x := by
    rw [Text.isDate_iff htext hks]
    exact IsDate.not_colon
  refine ⟨_, parse_valueOrExpression_of_time htext (hh.isPiece (by decide)) hdateTime hdate hparse,
    rfl, fun s => ?_⟩
  obtain ⟨c, hfound, -⟩ := found_of_parse hparse
  obtain ⟨_, heq, hmoment⟩ := Rule.moment_time.found hfound
  cases heq
  exact Node.toExpression_eq_ok_iff.2 (Node.expressions_time hmoment)

end Grammar

/-! ### Printed dates and times -/

theorem Date.readsAs_text {date : Date} (hreal : date.isReal = true) (hyear : 0 ≤ date.year)
    (hyear' : date.year ≤ 9999) :
    Grammar.ReadsAs (Value.date date).written .date (.date date) := by
  obtain ⟨hday, hmost⟩ := le_mostDays hreal
  obtain ⟨hmonth, hmonth', hlongest⟩ := mostDays_bounds (hday.trans hmost)
  obtain ⟨year, month, day⟩ := date
  simp only at hyear hyear' hday hmost hmonth hmonth' hlongest
  lift year to ℕ using hyear
  lift month to ℕ using (by omega)
  lift day to ℕ using (by omega)
  have hy := isNumberOf_ofIntPadded 4 (by decide) (show year < 10 ^ 4 by omega)
  have hm := isNumberOf_ofIntPadded 2 (by decide) (show month < 10 ^ 2 by omega)
  have hd := isNumberOf_ofIntPadded 2 (by decide) (show day < 10 ^ 2 by omega)
  have hmark : IsDateMark (Text.runes "-") := .inr rfl
  exact Grammar.readsAs_date (Text.runes_join (by simp)) hy hmark (hm.of_fewest (by decide)) hmark
    (hd.of_fewest (by decide)) hreal

theorem TimeOfDay.readsAs_text {time : TimeOfDay} (h : time.IsOnClock) :
    Grammar.ReadsAs (Value.time time).written .time (.time time) := by
  obtain ⟨hour, minute, second, nanosecond⟩ := time
  obtain ⟨⟨hhour, hhour'⟩, ⟨hminute, hminute'⟩, ⟨hsecond, hsecond'⟩, hnanosecond, hnanosecond'⟩ := h
  simp only at hhour hhour' hminute hminute' hsecond hsecond' hnanosecond hnanosecond'
  lift hour to ℕ using hhour
  lift minute to ℕ using hminute
  lift second to ℕ using hsecond
  lift nanosecond to ℕ using hnanosecond
  have hh := (isNumberOf_ofIntPadded 2 (by decide) (show hour < 10 ^ 2 by omega)).of_fewest
    (by decide)
  have hm := isNumberOf_ofIntPadded 2 (by decide) (show minute < 10 ^ 2 by omega)
  have hs := isNumberOf_ofIntPadded 2 (by decide) (show second < 10 ^ 2 by omega)
  have hf := isNumberOf_ofIntPadded 9 (by decide) (show nanosecond < 10 ^ 9 by omega)
  have hclock : (Text.join [.ofIntPadded 2 hour, ":", .ofIntPadded 2 minute, ":",
      .ofIntPadded 2 second]).runes = List.flatten [(Text.ofIntPadded 2 hour).runes, [.scalar ':'],
        (Text.ofIntPadded 2 minute).runes, [.scalar ':'], (Text.ofIntPadded 2 second).runes] :=
    Text.runes_join (by simp)
  by_cases hzero : nanosecond = 0
  · subst hzero
    exact Grammar.readsAs_time hclock hh hm (.whole hs .missing) (by omega) (by omega) (by omega)
  · have hne : (nanosecond : Int) ≠ 0 := by exact_mod_cast hzero
    -- With all nine digits behind the point there are no zeros to be added.
    have hplaces := IsSeconds.fraction hs (hf.of_fewest (by decide)) .missing
    rw [Nat.le_antisymm hf.most hf.fewest, Nat.sub_self, Nat.pow_zero, Nat.mul_one] at hplaces
    have hprinted : TimeOfDay.text ⟨hour, minute, second, nanosecond⟩ =
        .join [.join [.ofIntPadded 2 hour, ":", .ofIntPadded 2 minute, ":", .ofIntPadded 2 second],
          ".", .ofIntPadded 9 nanosecond] := if_neg hne
    have hpoint : Text.runes "." = [.scalar '.'] := rfl
    have htext : (TimeOfDay.text ⟨hour, minute, second, nanosecond⟩).runes = List.flatten
        [(Text.ofIntPadded 2 hour).runes, [.scalar ':'], (Text.ofIntPadded 2 minute).runes,
          [.scalar ':'], (Text.ofIntPadded 2 second).runes, [.scalar '.'],
          (Text.ofIntPadded 9 nanosecond).runes] := by
      rw [hprinted, Text.runes_join (by simp [Text.isValid_join])]
      simp only [List.map_cons, List.map_nil, hclock, hpoint, List.flatten_cons, List.flatten_nil,
        List.append_assoc, List.append_nil]
    exact Grammar.readsAs_time htext hh hm hplaces (by omega) (by omega) (by omega)

/-- A date that the calendar has, with a year of up to four digits, and a time that a clock shows
are read back from what is printed of them. -/
theorem Grammar.readsAs_written (date : Date) (time : TimeOfDay) :
    (date.isReal = true → 0 ≤ date.year → date.year ≤ 9999 →
      ReadsAs (Value.date date).written .date (.date date)) ∧
    (time.IsOnClock → ReadsAs (Value.time time).written .time (.time time)) :=
  ⟨Date.readsAs_text, TimeOfDay.readsAs_text⟩

/-- The year 80 is printed with four digits and stays the year 80. -/
theorem Grammar.readsAs_written_leap_day :
    Date.isReal ⟨80, 2, 29⟩ = true ∧ TimeOfDay.IsOnClock ⟨7, 5, 9, 1500⟩ ∧
      ReadsAs "0080-02-29" .date (.date ⟨80, 2, 29⟩) ∧
      ReadsAs "07:05:09.000001500" .time (.time ⟨7, 5, 9, 1500⟩) := by
  have hreal : Date.isReal ⟨80, 2, 29⟩ = true := by decide
  have hclock : TimeOfDay.IsOnClock ⟨7, 5, 9, 1500⟩ :=
    ⟨by decide, by decide, by decide, by decide⟩
  have hdateText : (Value.date ⟨80, 2, 29⟩).written = "0080-02-29" := by decide
  have htimeText : (Value.time ⟨7, 5, 9, 1500⟩).written = "07:05:09.000001500" := by decide
  obtain ⟨hdate, htime⟩ := readsAs_written ⟨80, 2, 29⟩ ⟨7, 5, 9, 1500⟩
  rw [hdateText] at hdate
  rw [htimeText] at htime
  exact ⟨hreal, hclock, hdate hreal (by decide) (by decide), htime hclock⟩

end SheetFormula
