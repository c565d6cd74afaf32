import SheetFormula.Expression.Build
import SheetFormula.Proofs.Dates
import SheetFormula.Proofs.Pieces

/-!
# How dates are written

A date has its day, month and year in one of six orders, in numbers or with the name of the month,
and there may be the name of a day in front of it.  `IsDate` says which date the pieces of a text
are, in terms of their runes only, and no text is two dates, `IsDate.unique`.  What the date parser
accepts is a date, and its parts are the ones that are written, `Rule.date_written`.
-/

namespace SheetFormula

/-! ### Written dates -/

/-- The names of the months, their abbreviations and the first letters that only one has. -/
def namesOfMonths : List (Text × Nat) :=
  [("January", 1), ("February", 2), ("March", 3), ("April", 4), ("May", 5), ("June", 6),
    ("July", 7), ("August", 8), ("September", 9), ("October", 10), ("November", 11),
    ("December", 12), ("Jan", 1), ("Feb", 2), ("Mar", 3), ("Apr", 4), ("May", 5), ("Jun", 6),
    ("Jul", 7), ("Aug", 8), ("Sep", 9), ("Oct", 10), ("Nov", 11), ("Dec", 12), ("F", 2), ("S", 9),
    ("O", 10), ("N", 11), ("D", 12)]

/-- The names of the days and their abbreviations, Sunday first. -/
def namesOfDays : List (Text × Nat) :=
  [("Sunday", 0), ("Monday", 1), ("Tuesday", 2), ("Wednesday", 3), ("Thursday", 4), ("Friday", 5),
    ("Saturday", 6), ("Sun", 0), ("Mon", 1), ("Tue", 2), ("Wed", 3), ("Thu", 4), ("Fri", 5),
    ("Sat", 6)]

/-- A year as it is written. -/
inductive WrittenYear
  | missing
  /-- One or two digits. -/
  | short (year : Nat)
  /-- Four digits. -/
  | full (year : Nat)

/-- A date as it is written. -/
structure WrittenDate where
  year : WrittenYear
  month : Nat
  day? : Option Nat

namespace Settings

/-- The year that is written. -/
def writtenYear (s : Settings) : WrittenYear → Int
  | .missing => s.fallbackYear
  | .short year => if year < s.twoDigitYear then 2000 + year else 1900 + year
  | .full year => year

/-- The date that is written, the first of the month if no day is. -/
def writtenDate (s : Settings) (x : WrittenDate) : Date :=
  ⟨s.writtenYear x.year, x.month, x.day?.getD 1⟩

end Settings

/-- The digits of a year. -/
inductive IsYear : List Rune → WrittenYear → Prop
  | full {w : List Rune} {n : Nat} : IsNumberOf 4 4 w n → IsYear w (.full n)
  | short {w : List Rune} {n : Nat} : IsNumberOf 1 2 w n → IsYear w (.short n)

/-- The mark between the numbers of a date. -/
def IsDateMark (w : List Rune) : Prop := w = [.scalar '/'] ∨ w = [.scalar '-']

/-- What stands beside the name of a month. -/
def IsGap (w : List Rune) : Prop := IsPiece .blanks w ∨ IsDateMark w

/-- Pieces that are the date `x`, without the name of a day. -/
inductive IsPlainDate : List (List Rune) → WrittenDate → Prop
  | yearMonthDay {y a m b d : List Rune} {year month day : Nat} :
      IsNumberOf 4 4 y year → IsDateMark a → IsNumberOf 1 2 m month → IsDateMark b →
      IsNumberOf 1 2 d day → IsPlainDate [y, a, m, b, d] ⟨.full year, month, some day⟩
  | dayMonthYear {d a m b y : List Rune} {month day : Nat} {year : WrittenYear} :
      IsNumberOf 1 2 d day → IsDateMark a → IsNumberOf 1 2 m month → IsDateMark b →
      IsYear y year → IsPlainDate [d, a, m, b, y] ⟨year, month, some day⟩
  | dayMonth {d a m : List Rune} {month day : Nat} :
      IsNumberOf 1 2 d day → IsDateMark a → IsNumberOf 1 2 m month →
      IsPlainDate [d, a, m] ⟨.missing, month, some day⟩
  | dayNameYear {d a m b y : List Rune} {month day : Nat} {year : WrittenYear} :
      IsNumberOf 1 2 d day → IsGap a → IsNameOf namesOfMonths month m → IsGap b →
      IsYear y year → IsPlainDate [d, a, m, b, y] ⟨year, month, some day⟩
  | dayName {d a m : List Rune} {month day : Nat} :
      IsNumberOf 1 2 d day → IsGap a → IsNameOf namesOfMonths month m →
      IsPlainDate [d, a, m] ⟨.missing, month, some day⟩
  | nameYear {m a y : List Rune} {month : Nat} {year : WrittenYear} :
      IsNameOf namesOfMonths month m → IsGap a → IsYear y year →
      IsPlainDate [m, a, y] ⟨year, month, none⟩

/-- Pieces that are the date `x`. -/
inductive IsDate : List (List Rune) → WrittenDate → Prop
  | plain {ps : List (List Rune)} {x : WrittenDate} : IsPlainDate ps x → IsDate ps x
  | weekday {name blanks : List Rune} {weekday : Nat} {ps : List (List Rune)} {x : WrittenDate} :
      IsNameOf namesOfDays weekday name → IsPiece .blanks blanks → IsPlainDate ps x →
      IsDate (name :: blanks :: ps) x
  | weekdayComma {name blanks : List Rune} {weekday : Nat} {ps : List (List Rune)}
      {x : WrittenDate} :
      IsNameOf namesOfDays weekday name → IsPiece .blanks blanks → IsPlainDate ps x →
      IsDate (name :: [.scalar ','] :: blanks :: ps) x

/-! ### A text is one date -/

/-- The words for months are their names. -/
theorem wordsOf_months : wordsOf namesOfMonths =
    Grammar.american.lexicon.months ++ Grammar.american.lexicon.monthAbbreviations ++
      Grammar.american.lexicon.monthInitials := by
  rfl

theorem wordsOf_days : wordsOf namesOfDays =
    Grammar.american.lexicon.days ++ Grammar.american.lexicon.dayAbbreviations := by
  rfl

theorem areNames_months : AreNames namesOfMonths where
  nonempty := by decide
  unmarked := by
    obtain ⟨hmonths, habbreviations, hinitials, -⟩ := Rule.date_words
    rw [wordsOf_months]
    exact List.forall_mem_append.2 ⟨List.forall_mem_append.2 ⟨hmonths, habbreviations⟩, hinitials⟩
  unique := by decide +kernel

theorem areNames_days : AreNames namesOfDays where
  nonempty := by decide
  unmarked := by
    obtain ⟨-, -, -, hdays, habbreviations⟩ := Rule.date_words
    rw [wordsOf_days]
    exact List.forall_mem_append.2 ⟨hdays, habbreviations⟩
  unique := by decide +kernel

/-- No name is that of a day and that of a month. -/
theorem not_isNameOf_day_month {w : List Rune} {day month : Nat}
    (hday : IsNameOf namesOfDays day w) (hmonth : IsNameOf namesOfMonths month w) : False := by
  have hdistinct : ∀ p ∈ namesOfDays, ∀ q ∈ namesOfMonths, p.1.fold ≠ q.1.fold := by
    decide +kernel
  obtain ⟨name, hmem, -, hfold⟩ := hday
  obtain ⟨name', hmem', -, hfold'⟩ := hmonth
  exact hdistinct _ hmem _ hmem' (hfold.symm.trans hfold')

variable {w : List Rune} {ps : List (List Rune)} {x y : WrittenDate}

theorem IsYear.isPiece {year : WrittenYear} (h : IsYear w year) : IsPiece .digits w := by
  cases h with
  | full h => exact h.isPiece (by decide)
  | short h => exact h.isPiece (by decide)

theorem IsYear.unique {year year' : WrittenYear} (h : IsYear w year) (h' : IsYear w year') :
    year = year' := by
  cases h with
  | full h =>
    cases h' with
    | full h' => rw [h.unique h']
    | short h' =>
      have := h.fewest
      have := h'.most
      omega
  | short h =>
    cases h' with
    | full h' =>
      have := h.most
      have := h'.fewest
      omega
    | short h' => rw [h.unique h']

theorem IsDateMark.isPiece (h : IsDateMark w) : IsPiece .mark w := by
  rcases h with rfl | rfl
  · exact isPiece_mark (by decide)
  · exact isPiece_mark (by decide)

/-- A gap is neither a number nor a name. -/
theorem IsGap.isPiece (h : IsGap w) : ∃ k, IsPiece k w ∧ k.isSolid = false := by
  rcases h with h | h
  · exact ⟨_, h, rfl⟩
  · exact ⟨_, h.isPiece, rfl⟩

theorem IsPlainDate.areBounded (h : IsPlainDate ps x) : AreBounded ps := by
  have hbefore {k : PieceKind} {w a : List Rune} {ps : List (List Rune)} (hw : IsPiece k w)
      (hk : k.isSolid = true) (ha : IsGap a) (h : AreBounded ps) : AreBounded (w :: a :: ps) := by
    obtain ⟨l, hl, hgap⟩ := ha.isPiece
    exact (AreBounded.single hw hk).gap hl hgap h
  have hnumber {n : Nat} {w : List Rune} (hw : IsNumberOf 1 2 w n) : IsPiece .digits w :=
    hw.isPiece (by decide)
  cases h with
  | yearMonthDay hy ha hm hb hd =>
    exact hbefore (hy.isPiece (by decide)) rfl (.inr ha) (hbefore (hnumber hm) rfl (.inr hb)
      (.single (hnumber hd) rfl))
  | dayMonthYear hd ha hm hb hy =>
    exact hbefore (hnumber hd) rfl (.inr ha) (hbefore (hnumber hm) rfl (.inr hb)
      (.single hy.isPiece rfl))
  | dayMonth hd ha hm => exact hbefore (hnumber hd) rfl (.inr ha) (.single (hnumber hm) rfl)
  | dayNameYear hd ha hm hb hy =>
    exact hbefore (hnumber hd) rfl ha (hbefore (hm.isPiece areNames_months) rfl hb
      (.single hy.isPiece rfl))
  | dayName hd ha hm =>
    exact hbefore (hnumber hd) rfl ha (.single (hm.isPiece areNames_months) rfl)
  | nameYear hm ha hy =>
    exact hbefore (hm.isPiece areNames_months) rfl ha (.single hy.isPiece rfl)

theorem IsDate.areBounded (h : IsDate ps x) : AreBounded ps := by
  have hname {n : Nat} {w : List Rune} (hw : IsNameOf namesOfDays n w) : AreBounded [w] :=
    .single (hw.isPiece areNames_days) rfl
  cases h with
  | plain h => exact h.areBounded
  | weekday hw hblanks h => exact (hname hw).gap hblanks rfl h.areBounded
  | weekdayComma hw hblanks h =>
    have hcomma : IsPiece .mark [.scalar ','] := isPiece_mark (by decide)
    exact (hname hw).join (.cons hcomma (by decide) (.single hblanks)) (List.cons_ne_nil _ _)
      (by decide) h.areBounded

theorem not_number_of_name {fewest most m n : Nat} {names : List (Text × Nat)}
    (hnames : AreNames names) (hfewest : 0 < fewest) (hname : IsNameOf names m w)
    (hnumber : IsNumberOf fewest most w n) : False := by
  have hkinds := (hname.isPiece hnames).unique (hnumber.isPiece hfewest)
  cases hkinds

/-- The pieces of a date tell which it is. -/
theorem IsPlainDate.unique (h : IsPlainDate ps x) (h' : IsPlainDate ps y) : x = y := by
  have hmonth {w : List Rune} {m n : Nat} (hname : IsNameOf namesOfMonths m w)
      (hnumber : IsNumberOf 1 2 w n) : False :=
    not_number_of_name areNames_months (by decide) hname hnumber
  have hlength {w : List Rune} {m n : Nat} (hfull : IsNumberOf 4 4 w m)
      (hshort : IsNumberOf 1 2 w n) : False := by
    have := hfull.fewest
    have := hshort.most
    omega
  -- Layouts with as many pieces differ in a piece that is a name or has four digits.
  cases h with
  | yearMonthDay hy ha hm hb hd =>
    cases h' with
    | yearMonthDay hy' ha' hm' hb' hd' => rw [hy.unique hy', hm.unique hm', hd.unique hd']
    | dayMonthYear hd' => exact (hlength hy hd').elim
    | dayNameYear hd' ha' hm' hb' hy' => exact (hmonth hm' hm).elim
  | dayMonthYear hd ha hm hb hy =>
    cases h' with
    | yearMonthDay hy' ha' hm' hb' hd' => exact (hlength hy' hd).elim
    | dayMonthYear hd' ha' hm' hb' hy' => rw [hd.unique hd', hm.unique hm', hy.unique hy']
    | dayNameYear hd' ha' hm' hb' hy' => exact (hmonth hm' hm).elim
  | dayMonth hd ha hm =>
    cases h' with
    | dayMonth hd' ha' hm' => rw [hd.unique hd', hm.unique hm']
    | dayName hd' ha' hm' => exact (hmonth hm' hm).elim
    | nameYear hm' ha' hy' => exact (hmonth hm' hd).elim
  | dayNameYear hd ha hm hb hy =>
    cases h' with
    | yearMonthDay hy' ha' hm' hb' hd' => exact (hmonth hm hm').elim
    | dayMonthYear hd' ha' hm' hb' hy' => exact (hmonth hm hm').elim
    | dayNameYear hd' ha' hm' hb' hy' =>
      rw [hd.unique hd', hm.unique areNames_months hm', hy.unique hy']
  | dayName hd ha hm =>
    cases h' with
    | dayMonth hd' ha' hm' => exact (hmonth hm hm').elim
    | dayName hd' ha' hm' => rw [hd.unique hd', hm.unique areNames_months hm']
    | nameYear hm' ha' hy' => exact (hmonth hm' hd).elim
  | nameYear hm ha hy =>
    cases h' with
    | dayMonth hd' ha' hm' => exact (hmonth hm hd').elim
    | dayName hd' ha' hm' => exact (hmonth hm hd').elim
    | nameYear hm' ha' hy' => rw [hm.unique areNames_months hm', hy.unique hy']

/-- A date does not begin with the name of a day. -/
theorem IsPlainDate.not_weekday {weekday : Nat} (h : IsPlainDate (w :: ps) x)
    (hname : IsNameOf namesOfDays weekday w) : False := by
  cases h with
  | yearMonthDay hy | dayMonthYear hy | dayMonth hy | dayNameYear hy | dayName hy =>
    exact not_number_of_name areNames_days (by decide) hname hy
  | nameYear hm => exact not_isNameOf_day_month hname hm

theorem not_blanks_comma : ¬ IsPiece .blanks [.scalar ','] := by
  intro h
  have hkinds := h.unique (isPiece_mark (by decide))
  cases hkinds

theorem IsDate.unique (h : IsDate ps x) (h' : IsDate ps y) : x = y := by
  cases h with
  | plain h =>
    cases h' with
    | plain h' => exact h.unique h'
    | weekday hname' | weekdayComma hname' => exact (h.not_weekday hname').elim
  | weekday hname hblanks h =>
    cases h' with
    | plain h' => exact (h'.not_weekday hname).elim
    | weekday hname' hblanks' h' => exact h.unique h'
    | weekdayComma => exact (not_blanks_comma hblanks).elim
  | weekdayComma hname hblanks h =>
    cases h' with
    | plain h' => exact (h'.not_weekday hname).elim
    | weekday _ hblanks' => exact (not_blanks_comma hblanks').elim
    | weekdayComma hname' hblanks' h' => exact h.unique h'

/-! ### The parts that are read -/

/-- Reading the nodes turns the parts `p` into `q`. -/
abbrev DateParts.Reads (p : DateParts) (nodes : List Node) (q : DateParts) : Prop :=
  ReadsTo DateParts.read p nodes q

/-- How a year that is written is kept: its number and its digits. -/
def WrittenYear.KeptAs : WrittenYear → Int → Nat → Prop
  | missing, _, digits => digits = 0
  | short year, value, digits => value = year ∧ 1 ≤ digits ∧ digits ≤ 2
  | full year, value, digits => value = year ∧ digits = 4

/-- What has been read of a date is the date that is written. -/
theorem dateOf_written (s : Settings) (day? : Option Nat) {year : WrittenYear} {month : Nat}
    {value weekday : Int} {digits : Nat} (hyear : year.KeptAs value digits) (hmonth : 1 ≤ month)
    (hday : ∀ day ∈ day?, 1 ≤ day) :
    s.dateOf ⟨(day?.getD 0 : Nat), month, value, digits, weekday⟩ =
      s.writtenDate ⟨year, month, day?⟩ := by
  have hyears : s.yearOf ⟨(day?.getD 0 : Nat), month, value, digits, weekday⟩ =
      s.writtenYear year := by
    unfold Settings.yearOf
    cases year with
    | missing =>
      rw [show digits = 0 from hyear]
      rfl
    | short year =>
      obtain ⟨rfl, hone, htwo⟩ := hyear
      rw [if_neg (Nat.ne_of_gt hone), if_pos htwo]
      rfl
    | full year =>
      obtain ⟨rfl, rfl⟩ := hyear
      rfl
  unfold Settings.dateOf Settings.writtenDate
  rw [hyears]
  have hmonth' : (month : Int) ≠ 0 := by omega
  have hdays : (if ((day?.getD 0 : Nat) : Int) = 0 then 1 else ((day?.getD 0 : Nat) : Int)) =
      ((day?.getD 1 : Nat) : Int) := by
    -- Without a day the date is the first of the month.
    cases day? with
    | none => rfl
    | some day =>
      have hne : (day : Int) ≠ 0 := by
        have := hday day rfl
        omega
      exact if_neg hne
  simp only [if_neg hmonth', hdays]

namespace Rule

open Grammar (american)

variable {c next : Cursor} {nodes : List Node} {s : Settings}

/-! ### Components -/

/-- A piece that has no part in the date. -/
def PaddingLeaf (Q : List Rune → Prop) (w : List Rune) (nodes : List Node) : Prop :=
  Q w ∧ ∀ p : DateParts, p.Reads nodes p

/-- A number or a name that says the month. -/
def MonthLeaf (Q : Nat → List Rune → Prop) (w : List Rune) (nodes : List Node) : Prop :=
  ∃ month, Q month w ∧ 1 ≤ month ∧ ∀ day year digits weekday,
    DateParts.Reads ⟨day, 0, year, digits, weekday⟩ nodes ⟨day, month, year, digits, weekday⟩

/-- A number that says the day. -/
def DayLeaf (w : List Rune) (nodes : List Node) : Prop :=
  ∃ day : Nat, IsNumberOf 1 2 w day ∧ 1 ≤ day ∧ ∀ month year digits weekday,
    DateParts.Reads ⟨0, month, year, digits, weekday⟩ nodes ⟨day, month, year, digits, weekday⟩

/-- A number that says the year. -/
def YearLeaf (Q : List Rune → WrittenYear → Prop) (w : List Rune) (nodes : List Node) : Prop :=
  ∃ year value digits, Q w year ∧ year.KeptAs value digits ∧ ∀ day month weekday,
    DateParts.Reads ⟨day, month, 0, 0, weekday⟩ nodes ⟨day, month, value, digits, weekday⟩

theorem day_written : day.Writes DayLeaf := by
  refine (digitsComponent_written (by decide) (by decide)).imp fun w nodes h => ?_
  obtain ⟨n, hn, hlow, hhigh, rfl⟩ := h
  have hrange : ¬ ((n : Int) < 1 ∨ 31 < (n : Int)) := by omega
  refine ⟨n, hn, hlow, fun month year digits weekday => .single ?_⟩
  simp only [DateParts.read, DateParts.readComponent]
  rw [if_neg (not_not.2 rfl), if_neg hrange]

theorem monthLeaf_of_component {component : Component} {Q : Nat → List Rune → Prop} {n : Nat}
    {w : List Rune} {t : Text} (hcomponent : component ∈ [.monthNumber, .monthName,
      .monthNameAbbreviation, .monthNameInitial]) (hn : Q n w) (hlow : 1 ≤ n) (hhigh : n ≤ 12) :
    MonthLeaf Q w [.leaf (.component component n) t] := by
  refine ⟨n, hn, hlow, fun day year digits weekday => .single ?_⟩
  have hrange : ¬ ((n : Int) < 1 ∨ 12 < (n : Int)) := by omega
  simp only [List.mem_cons, List.not_mem_nil, or_false] at hcomponent
  rcases hcomponent with rfl | rfl | rfl | rfl
  all_goals
    simp only [DateParts.read, DateParts.readComponent]
    rw [if_neg (not_not.2 rfl), if_neg hrange]

theorem month_written : month.Writes (MonthLeaf fun n w => IsNumberOf 1 2 w n) := by
  refine (digitsComponent_written (by decide) (by decide)).imp fun w nodes h => ?_
  obtain ⟨n, hn, hlow, hhigh, rfl⟩ := h
  exact monthLeaf_of_component (by decide) hn hlow hhigh

theorem monthWord_written : (monthWord american).Writes (MonthLeaf (IsNameOf namesOfMonths)) := by
  have hwords {component : Component} {words : WordList Int}
      (hcomponent : component ∈ [.monthNumber, .monthName, .monthNameAbbreviation,
        .monthNameInitial]) (hwords : words ⊆ wordsOf namesOfMonths) :
      (nameComponent component words).Writes (MonthLeaf (IsNameOf namesOfMonths)) := by
    refine (nameComponent_written hwords).imp fun w nodes h => ?_
    obtain ⟨n, hn, rfl⟩ := h
    have hrange : ∀ p ∈ namesOfMonths, 1 ≤ p.2 ∧ p.2 ≤ 12 := by decide
    obtain ⟨name, hmem, -⟩ := id hn
    obtain ⟨hlow, hhigh⟩ := hrange _ hmem
    exact monthLeaf_of_component hcomponent hn hlow hhigh
  rw [wordsOf_months] at hwords
  refine Writes.alternatives spells_american.monthWords ⟨?_, ?_, ?_⟩
  · exact hwords (by decide) fun _ h => List.mem_append_left _ (List.mem_append_left _ h)
  · exact hwords (by decide) fun _ h => List.mem_append_left _ (List.mem_append_right _ h)
  · exact hwords (by decide) fun _ h => List.mem_append_right _ h

theorem read_year {fewest most n : Nat} {w : List Rune} (hn : IsNumberOf fewest most w n)
    (hhigh : n ≤ 9999) (day month weekday : Int) :
    DateParts.Reads ⟨day, month, 0, 0, weekday⟩ [.leaf (.component .year n) (.ofRunes w)]
      ⟨day, month, n, w.length, weekday⟩ := by
  have hrange : ¬ ((n : Int) < 0 ∨ 9999 < (n : Int)) := by omega
  refine .single ?_
  simp only [DateParts.read, DateParts.readComponent]
  rw [if_neg (not_not.2 rfl), if_neg hrange, (ofRunes_of_digits hn.digits).2]

theorem fullYear_written :
    fullYear.Writes (YearLeaf fun w year => ∃ n, IsNumberOf 4 4 w n ∧ year = .full n) := by
  refine (digitsComponent_written (by decide) (by decide)).imp fun w nodes h => ?_
  obtain ⟨n, hn, -, hhigh, rfl⟩ := h
  exact ⟨.full n, n, w.length, ⟨n, hn, rfl⟩, ⟨rfl, Nat.le_antisymm hn.most hn.fewest⟩,
    read_year hn hhigh⟩

theorem year_written : year.Writes (YearLeaf IsYear) := by
  refine Writes.alternatives spells_american.years ⟨fullYear_written.imp ?_,
    (digitsComponent_written (by decide) (by decide)).imp ?_⟩
  · rintro w nodes ⟨_, value, digits, ⟨n, hn, rfl⟩, hkept, hreads⟩
    exact ⟨.full n, value, digits, .full hn, hkept, hreads⟩
  · rintro w nodes ⟨n, hn, -, hhigh, rfl⟩
    exact ⟨.short n, n, w.length, .short hn, ⟨rfl, hn.fewest, hn.most⟩,
      read_year hn (Nat.le_trans hhigh (by decide))⟩

theorem dateSeparator_written : (dateSeparator american).Writes (PaddingLeaf IsDateMark) := by
  have hmark {ch : Char} (hplain : IsPlain ch) (hch : IsDateMark [.scalar ch]) :
      (symbol .dateSeparator [ch]).Writes (PaddingLeaf IsDateMark) := by
    refine (symbol_written hplain).imp fun w nodes h => ?_
    obtain ⟨rfl, t, rfl⟩ := h
    exact ⟨hch, fun p => .single rfl⟩
  exact Writes.alternatives ⟨exact_symbol _ (by decide), exact_symbol _ (by decide)⟩
    ⟨hmark ⟨by decide, by decide⟩ (.inl rfl), hmark ⟨by decide, by decide⟩ (.inr rfl)⟩

theorem spaceOrSeparator_written : (spaceOrSeparator american).Writes (PaddingLeaf IsGap) := by
  refine Writes.alternatives ⟨exact_whitespace, exact_dateSeparator⟩
    ⟨whitespace_written.imp ?_, dateSeparator_written.imp ?_⟩
  · rintro w nodes ⟨hblanks, t, rfl⟩
    exact ⟨.inl hblanks, fun p => .single rfl⟩
  · rintro w nodes ⟨hmark, hreads⟩
    exact ⟨.inr hmark, hreads⟩

/-! ### Dates -/

/-- The nodes are those of the date that is written in the pieces `ps`. -/
def DateNodes (ps : List (List Rune)) (nodes : List Node) : Prop :=
  ∃ x, IsPlainDate ps x ∧ ∀ weekday, ∃ parts, DateParts.Reads ⟨0, 0, 0, 0, weekday⟩ nodes parts ∧
    ∀ s : Settings, s.dateOf parts = s.writtenDate x

section

variable {ps : List (List Rune)} {Gap : List Rune → Prop} {Month : Nat → List Rune → Prop}

theorem dateNodes_yearMonthDay (h : WrittenInTurn
    [YearLeaf fun w year => ∃ n, IsNumberOf 4 4 w n ∧ year = .full n, PaddingLeaf IsDateMark,
      MonthLeaf fun n w => IsNumberOf 1 2 w n, PaddingLeaf IsDateMark, DayLeaf] ps nodes) :
    DateNodes ps nodes := by
  obtain _ | ⟨hy, _ | ⟨ha, _ | ⟨hm, _ | ⟨hb, _ | ⟨hd, ⟨⟩⟩⟩⟩⟩⟩ := h
  obtain ⟨_, value, digits, ⟨year, hyear, rfl⟩, hkept, hy⟩ := hy
  obtain ⟨month, hmonth, hmonthPos, hm⟩ := hm
  obtain ⟨day, hday, hdayPos, hd⟩ := hd
  refine ⟨_, .yearMonthDay hyear ha.1 hmonth hb.1 hday, fun weekday =>
    ⟨⟨day, month, value, digits, weekday⟩, ?_, fun s => dateOf_written s (some day) hkept hmonthPos
      (by simpa using hdayPos)⟩⟩
  exact (hy ..).append ((ha.2 _).append ((hm ..).append ((hb.2 _).append ((hd ..).append .nil))))

theorem dateNodes_dayMonthYear
    (hdate : ∀ {d a m b y : List Rune} {day month : Nat} {year : WrittenYear},
      IsNumberOf 1 2 d day → Gap a → Month month m → Gap b → IsYear y year →
      IsPlainDate [d, a, m, b, y] ⟨year, month, some day⟩)
    (h : WrittenInTurn [DayLeaf, PaddingLeaf Gap, MonthLeaf Month, PaddingLeaf Gap,
      YearLeaf IsYear] ps nodes) : DateNodes ps nodes := by
  obtain _ | ⟨hd, _ | ⟨ha, _ | ⟨hm, _ | ⟨hb, _ | ⟨hy, ⟨⟩⟩⟩⟩⟩⟩ := h
  obtain ⟨day, hday, hdayPos, hd⟩ := hd
  obtain ⟨month, hmonth, hmonthPos, hm⟩ := hm
  obtain ⟨year, value, digits, hyear, hkept, hy⟩ := hy
  refine ⟨_, hdate hday ha.1 hmonth hb.1 hyear, fun weekday =>
    ⟨⟨day, month, value, digits, weekday⟩, ?_, fun s => dateOf_written s (some day) hkept hmonthPos
      (by simpa using hdayPos)⟩⟩
  exact (hd ..).append ((ha.2 _).append ((hm ..).append ((hb.2 _).append ((hy ..).append .nil))))

theorem dateNodes_dayMonth
    (hdate : ∀ {d a m : List Rune} {day month : Nat}, IsNumberOf 1 2 d day → Gap a →
      Month month m → IsPlainDate [d, a, m] ⟨.missing, month, some day⟩)
    (h : WrittenInTurn [DayLeaf, PaddingLeaf Gap, MonthLeaf Month] ps nodes) :
    DateNodes ps nodes := by
  obtain _ | ⟨hd, _ | ⟨ha, _ | ⟨hm, ⟨⟩⟩⟩⟩ := h
  obtain ⟨day, hday, hdayPos, hd⟩ := hd
  obtain ⟨month, hmonth, hmonthPos, hm⟩ := hm
  have hkept : WrittenYear.missing.KeptAs 0 0 := rfl
  refine ⟨_, hdate hday ha.1 hmonth, fun weekday =>
    ⟨⟨day, month, 0, 0, weekday⟩, ?_, fun s => dateOf_written s (some day) hkept hmonthPos
      (by simpa using hdayPos)⟩⟩
  exact (hd ..).append ((ha.2 _).append ((hm ..).append .nil))

theorem dateNodes_nameYear (h : WrittenInTurn [MonthLeaf (IsNameOf namesOfMonths),
    PaddingLeaf IsGap, YearLeaf IsYear] ps nodes) : DateNodes ps nodes := by
  obtain _ | ⟨hm, _ | ⟨ha, _ | ⟨hy, ⟨⟩⟩⟩⟩ := h
  obtain ⟨month, hmonth, hmonthPos, hm⟩ := hm
  obtain ⟨year, value, digits, hyear, hkept, hy⟩ := hy
  refine ⟨_, .nameYear hmonth ha.1 hyear, fun weekday => ⟨⟨0, month, value, digits, weekday⟩, ?_,
    fun s => dateOf_written s none hkept hmonthPos nofun⟩⟩
  exact (hm ..).append ((ha.2 _).append ((hy ..).append .nil))

end

/-- A layout of a date is found for a date that is written. -/
theorem dateLayouts_written (h : dateLayouts american c = (.found nodes, next)) :
    ∃ ps, c.Passes ps.flatten next ∧ DateNodes ps nodes := by
  have hlayout {rules : List Rule} {Qs : List (List Rune → List Node → Prop)}
      (hrules : List.Forall₂ Writes rules Qs)
      (hdate : ∀ {ps nodes}, WrittenInTurn Qs ps nodes → DateNodes ps nodes)
      (h : sequence rules c = (.found nodes, next)) :
      ∃ ps, c.Passes ps.flatten next ∧ DateNodes ps nodes := by
    obtain ⟨ps, hps, hturn⟩ := sequence_written hrules h
    exact ⟨ps, hps, hdate hturn⟩
  have hname : List.Forall₂ Writes (wordLayout american)
      [DayLeaf, PaddingLeaf IsGap, MonthLeaf (IsNameOf namesOfMonths)] :=
    .cons day_written (.cons spaceOrSeparator_written (.cons monthWord_written .nil))
  have hnameYear : List.Forall₂ Writes (monthLayout american)
      [MonthLeaf (IsNameOf namesOfMonths), PaddingLeaf IsGap, YearLeaf IsYear] :=
    .cons monthWord_written (.cons spaceOrSeparator_written (.cons year_written .nil))
  -- The numeric layouts come first, then those with a name behind the day or in front.
  rcases dateLayouts_cases h with hnumeric | ⟨-, hfull | hword⟩ | hmonth
  · obtain ⟨layout, hmem, hfound⟩ :=
      exists_mem_of_alternatives exact_numericLayouts hnumeric nofun
    simp only [numericLayouts, List.mem_cons, List.not_mem_nil, or_false] at hmem
    rcases hmem with rfl | rfl | rfl
    · exact hlayout (.cons fullYear_written (.cons dateSeparator_written (.cons month_written
        (.cons dateSeparator_written (.cons day_written .nil))))) dateNodes_yearMonthDay hfound
    · exact hlayout (.cons day_written (.cons dateSeparator_written (.cons month_written
        (.cons dateSeparator_written (.cons year_written .nil)))))
        (dateNodes_dayMonthYear .dayMonthYear) hfound
    · exact hlayout (.cons day_written (.cons dateSeparator_written (.cons month_written .nil)))
        (dateNodes_dayMonth .dayMonth) hfound
  · exact hlayout (.cons day_written (.cons spaceOrSeparator_written hnameYear))
      (dateNodes_dayMonthYear .dayNameYear) hfull
  · exact hlayout hname (dateNodes_dayMonth .dayName) hword
  · exact hlayout hnameYear dateNodes_nameYear hmonth

/-- A name that says the weekday. -/
def WeekdayLeaf (w : List Rune) (nodes : List Node) : Prop :=
  ∃ number, IsNameOf namesOfDays number w ∧
    DateParts.none.Reads nodes ⟨0, 0, 0, 0, number⟩

theorem dayWord_written : (dayWord american).Writes WeekdayLeaf := by
  have hwords {component : Component} {words : WordList Int}
      (hcomponent : component = .dayName ∨ component = .dayNameAbbreviation)
      (hwords : words ⊆ wordsOf namesOfDays) :
      (nameComponent component words).Writes WeekdayLeaf := by
    refine (nameComponent_written hwords).imp fun w nodes h => ?_
    obtain ⟨n, hn, rfl⟩ := h
    refine ⟨n, hn, .single ?_⟩
    rcases hcomponent with rfl | rfl <;> rfl
  rw [wordsOf_days] at hwords
  exact Writes.alternatives ⟨exact_nameComponent .., exact_nameComponent ..⟩
    ⟨hwords (.inl rfl) fun _ h => List.mem_append_left _ h,
      hwords (.inr rfl) fun _ h => List.mem_append_right _ h⟩

/-- The name of a day may stand in front of a date and says nothing of it but the weekday. -/
theorem weekday_written (h : weekday american c = (.found nodes, next)) :
    ∃ before number, c.Passes before.flatten next ∧
      DateParts.none.Reads nodes ⟨0, 0, 0, 0, number⟩ ∧
      ∀ ps x, IsPlainDate ps x → IsDate (before ++ ps) x := by
  rcases optional_found_iff.1 h with hfound | ⟨habsent, rfl⟩
  · obtain ⟨days, afterDay, comma, afterComma, _, hday, hcomma, hspace, rfl⟩ :=
      sequenceFrom_triple_found_iff.1 hfound
    obtain ⟨name, hname, number, hnumber, hreads⟩ := dayWord_written hday
    obtain ⟨blanks, hblanks, hpiece, t, rfl⟩ := whitespace_written hspace
    rcases optional_found_iff.1 hcomma with hsymbol | ⟨habsent, rfl⟩
    · obtain ⟨_, hmark, rfl, u, rfl⟩ := symbol_written ⟨by decide, by decide⟩ hsymbol
      refine ⟨[name, [.scalar ','], blanks], number, ?_, hreads.append rfl,
        fun ps x hx => .weekdayComma hnumber hpiece hx⟩
      simpa using hname.trans (hmark.trans hblanks)
    · obtain rfl := (exact_symbol _ (by decide)).restores habsent
      refine ⟨[name, blanks], number, ?_, hreads.append rfl,
        fun ps x hx => .weekday hnumber hpiece hx⟩
      simpa using hname.trans hblanks
  · obtain rfl := sequenceFrom_absent habsent
    exact ⟨[], -1, .refl _, rfl, fun ps x hx => .plain hx⟩

/-- What is read as a date is a date that is written, and its parts are those. -/
theorem date_written (h : date american c = (.found nodes, next)) :
    ∃ ps x parts children, c.Passes ps.flatten next ∧ IsDate ps x ∧
      nodes = [.parent (.date parts) children] ∧
      ∀ s : Settings, s.dateOf parts = s.writtenDate x := by
  obtain ⟨children, n, hchildren, -, hn, rfl⟩ := validated_found_iff.1 h
  obtain ⟨first, mid, more, hweekday, hlayouts, rfl⟩ := sequenceFrom_pair_found_iff.1 hchildren
  obtain ⟨before, number, hbefore, hreads, hdate⟩ := weekday_written hweekday
  obtain ⟨ps, hps, x, hx, hparts⟩ := dateLayouts_written hlayouts
  obtain ⟨parts, hmoreReads, hdateOf⟩ := hparts number
  obtain ⟨-, parts', hparts', rfl⟩ := Node.date_eq_ok_iff.1 hn
  obtain ⟨read, hread, hcheck⟩ := bind_eq_ok_iff.1 hparts'
  obtain rfl : read = parts := Except.ok.inj (hread.symm.trans (hreads.append hmoreReads))
  obtain rfl : parts' = read := by
    dsimp only at hcheck
    split_ifs at hcheck
    · cases hcheck
    · exact (Except.ok.inj hcheck).symm
  exact ⟨before ++ ps, x, parts', _, by simpa using hbefore.trans hps, hdate ps x hx, rfl, hdateOf⟩

end Rule

end SheetFormula
