import SheetFormula.Proofs.Pieces

/-!
# How times are written

A time has an hour with minutes and seconds or with AM or PM behind it, or with both.  `IsTime` says
which time of day the pieces of a text are, in terms of their runes only, and no text is two times,
`IsTime.unique`.  What the time parser accepts is a time, and its value is the one that is written,
`Rule.time_written`.
-/

namespace SheetFormula

/-! ### Written times -/

/-- The names of the halves of a day, with the hours in front of them. -/
def namesOfHalves : List (Text × Nat) := [("AM", 0), ("PM", 12)]

/-- The hour in a half of the day, if one is named.  There hour 12 comes first. -/
def hourIn (hour : Nat) : Option Nat → Nat
  | none => hour
  | some hours => hour % 12 + hours

/-- Pieces that name a half of the day, if there are any. -/
inductive IsHalf : List (List Rune) → Option Nat → Prop
  | missing : IsHalf [] none
  | tight {w : List Rune} {hours : Nat} : IsNameOf namesOfHalves hours w → IsHalf [w] (some hours)
  | spaced {blanks w : List Rune} {hours : Nat} :
      IsPiece .blanks blanks → IsNameOf namesOfHalves hours w → IsHalf [blanks, w] (some hours)

/-- Pieces that are the seconds and nanoseconds of a time, if there are any, and a half of the day
behind them. -/
inductive IsSeconds : List (List Rune) → Nat → Nat → Option Nat → Prop
  | missing {ps : List (List Rune)} {half? : Option Nat} :
      IsHalf ps half? → IsSeconds ps 0 0 half?
  | whole {s : List Rune} {ps : List (List Rune)} {second : Nat} {half? : Option Nat} :
      IsNumberOf 2 2 s second → IsHalf ps half? →
      IsSeconds ([.scalar ':'] :: s :: ps) second 0 half?
  | fraction {s f : List Rune} {ps : List (List Rune)} {second places : Nat}
      {half? : Option Nat} :
      IsNumberOf 2 2 s second → IsNumberOf 1 9 f places → IsHalf ps half? →
      IsSeconds ([.scalar ':'] :: s :: [.scalar '.'] :: f :: ps) second
        (places * 10 ^ (9 - f.length)) half?

/-- Pieces that are the time of day `t`. -/
inductive IsTime : List (List Rune) → TimeOfDay → Prop
  | clock {h m : List Rune} {ps : List (List Rune)} {hour minute second nanosecond : Nat}
      {half? : Option Nat} :
      IsNumberOf 1 2 h hour → IsNumberOf 2 2 m minute → IsSeconds ps second nanosecond half? →
      IsTime (h :: [.scalar ':'] :: m :: ps) ⟨hourIn hour half?, minute, second, nanosecond⟩
  | fullHour {h : List Rune} {ps : List (List Rune)} {hour hours : Nat} :
      IsNumberOf 1 2 h hour → IsHalf ps (some hours) →
      IsTime (h :: ps) ⟨hourIn hour (some hours), 0, 0, 0⟩

/-! ### A text is one time -/

theorem wordsOf_halves : wordsOf namesOfHalves = Grammar.american.lexicon.meridiems := by
  rfl

theorem areNames_halves : AreNames namesOfHalves where
  nonempty := by decide
  unmarked := by
    rw [wordsOf_halves]
    exact Rule.meridiem_words.1
  unique := by decide +kernel

variable {ps : List (List Rune)} {half? half'? : Option Nat}

/-- The name of a half of the day does not start with a mark. -/
theorem not_isHalf_mark {ch : Char} (hmark : PieceKind.of ch = .mark) :
    ¬ IsHalf ([.scalar ch] :: ps) half? := by
  intro h
  have hpiece := isPiece_mark hmark
  cases h with
  | tight hname =>
    have hkinds := hpiece.unique (hname.isPiece areNames_halves)
    cases hkinds
  | spaced hblanks =>
    have hkinds := hpiece.unique hblanks
    cases hkinds

theorem IsHalf.unique (h : IsHalf ps half?) (h' : IsHalf ps half'?) : half? = half'? := by
  cases h with
  | missing =>
    cases h'
    rfl
  | tight h =>
    cases h' with
    | tight h' => rw [h.unique areNames_halves h']
  | spaced hblanks h =>
    cases h' with
    | spaced hblanks' h' => rw [h.unique areNames_halves h']

theorem IsSeconds.unique {second nanosecond second' nanosecond' : Nat}
    (h : IsSeconds ps second nanosecond half?) (h' : IsSeconds ps second' nanosecond' half'?) :
    second = second' ∧ nanosecond = nanosecond' ∧ half? = half'? := by
  have hcolon {ps : List (List Rune)} {half? : Option Nat} :
      ¬ IsHalf ([.scalar ':'] :: ps) half? := not_isHalf_mark (by decide)
  have hpoint {ps : List (List Rune)} {half? : Option Nat} :
      ¬ IsHalf ([.scalar '.'] :: ps) half? := not_isHalf_mark (by decide)
  cases h with
  | missing h =>
    cases h' with
    | missing h' => exact ⟨rfl, rfl, h.unique h'⟩
    | whole | fraction => exact (hcolon h).elim
  | whole hs h =>
    cases h' with
    | missing h' => exact (hcolon h').elim
    | whole hs' h' => exact ⟨hs.unique hs', rfl, h.unique h'⟩
    | fraction => exact (hpoint h).elim
  | fraction hs hf h =>
    cases h' with
    | missing h' => exact (hcolon h').elim
    | whole hs' h' => exact (hpoint h').elim
    | fraction hs' hf' h' => exact ⟨hs.unique hs', by rw [hf.unique hf'], h.unique h'⟩

/-- The pieces of a time tell which it is. -/
theorem IsTime.unique {t u : TimeOfDay} (h : IsTime ps t) (h' : IsTime ps u) : t = u := by
  cases h with
  | clock hh hm hs =>
    cases h' with
    | clock hh' hm' hs' =>
      obtain ⟨rfl, rfl, rfl⟩ := hs.unique hs'
      rw [hh.unique hh', hm.unique hm']
    | fullHour hh' ha' => exact (not_isHalf_mark (by decide) ha').elim
  | fullHour hh ha =>
    cases h' with
    | clock => exact (not_isHalf_mark (by decide) ha).elim
    | fullHour hh' ha' =>
      cases ha.unique ha'
      rw [hh.unique hh']

/-! ### The pieces of a time -/

/-- The kinds of pieces that name a half of the day. -/
def halfKinds : List (List PieceKind) := [[], [.word], [.blanks, .word]]

/-- The kinds of pieces behind the minutes of a time. -/
def secondsKinds : List (List PieceKind) :=
  halfKinds ++ halfKinds.map ([.mark, .digits] ++ ·) ++
    halfKinds.map ([.mark, .digits, .mark, .digits] ++ ·)

theorem IsHalf.arePieces (h : IsHalf ps half?) : ∃ ks ∈ halfKinds, ArePieces ks ps := by
  cases h with
  | missing => exact ⟨[], by decide, .nil⟩
  | tight hw => exact ⟨[.word], by decide, .single (hw.isPiece areNames_halves)⟩
  | spaced hblanks hw =>
    exact ⟨[.blanks, .word], by decide,
      .cons hblanks (by decide) (.single (hw.isPiece areNames_halves))⟩

theorem IsSeconds.arePieces {second nanosecond : Nat} (h : IsSeconds ps second nanosecond half?) :
    ∃ ks ∈ secondsKinds, ArePieces ks ps := by
  have hmark {ch : Char} (hch : PieceKind.of ch = .mark) {w : List Rune} {ks : List PieceKind}
      {ps : List (List Rune)} (hw : IsPiece .digits w) (hks : ks.head? ≠ some .digits)
      (h : ArePieces ks ps) : ArePieces (.mark :: .digits :: ks) ([.scalar ch] :: w :: ps) :=
    .cons (isPiece_mark hch) (by simp) (.cons hw hks h)
  have hhead : ∀ ks ∈ halfKinds, ks.head? ≠ some .digits := by decide
  cases h with
  | missing h =>
    obtain ⟨ks, hmem, hks⟩ := h.arePieces
    exact ⟨ks, List.mem_append_left _ (List.mem_append_left _ hmem), hks⟩
  | whole hs h =>
    obtain ⟨ks, hmem, hks⟩ := h.arePieces
    refine ⟨_, List.mem_append_left _ (List.mem_append_right _ (List.mem_map_of_mem hmem)), ?_⟩
    exact hmark (by decide) (hs.isPiece (by decide)) (hhead ks hmem) hks
  | fraction hs hf h =>
    obtain ⟨ks, hmem, hks⟩ := h.arePieces
    refine ⟨_, List.mem_append_right _ (List.mem_map_of_mem hmem), ?_⟩
    exact hmark (by decide) (hs.isPiece (by decide)) (by simp)
      (hmark (by decide) (hf.isPiece (by decide)) (hhead ks hmem) hks)

/-- A time starts with digits, and nowhere in it are there digits behind blanks. -/
theorem IsTime.arePieces {t : TimeOfDay} (h : IsTime ps t) :
    ∃ ks, ArePieces (.digits :: ks) ps ∧ ¬ [.blanks, .digits] <:+: PieceKind.digits :: ks := by
  cases h with
  | clock hh hm hs =>
    obtain ⟨ks, hmem, hks⟩ := hs.arePieces
    have hkinds : ∀ ks ∈ secondsKinds, ks.head? ≠ some .digits ∧
        ¬ [.blanks, .digits] <:+: PieceKind.digits :: .mark :: .digits :: ks := by decide
    obtain ⟨hhead, hgap⟩ := hkinds ks hmem
    exact ⟨.mark :: .digits :: ks, .cons (hh.isPiece (by decide)) (by simp)
      (.cons (isPiece_mark (by decide)) (by simp) (.cons (hm.isPiece (by decide)) hhead hks)), hgap⟩
  | fullHour hh ha =>
    obtain ⟨ks, hmem, hks⟩ := ha.arePieces
    have hkinds : ∀ ks ∈ halfKinds, ks.head? ≠ some .digits ∧
        ¬ [.blanks, .digits] <:+: PieceKind.digits :: ks := by decide
    obtain ⟨hhead, hgap⟩ := hkinds ks hmem
    exact ⟨ks, .cons (hh.isPiece (by decide)) hhead hks, hgap⟩

/-! ### The time that is read -/

/-- Reading the nodes turns what has been read of a time from `r` into `q`. -/
abbrev TimeReading.Reads (r : TimeReading) (nodes : List Node) (q : TimeReading) : Prop :=
  ReadsTo TimeReading.read r nodes q

theorem TimeReading.reads_timeSeparator {r : TimeReading} (t : Text) :
    r.Reads [.leaf (.symbol .timeSeparator) t] r := .single rfl

theorem TimeReading.within_natCast {r : TimeReading} {what : String} {n most : Nat}
    (h : n ≤ most) : within what n most r = .ok r := by
  rw [within, if_neg (by omega)]

namespace Rule

open Grammar (american)

variable {c next start : Cursor} {nodes : List Node}

/-- A leaf of the places behind the point of a second. -/
def FractionLeaf (w : List Rune) (nodes : List Node) : Prop :=
  ∃ places : Nat, IsNumberOf 1 9 w places ∧ nodes =
    [.leaf (.component .fraction (places * 10 ^ (9 - w.length) : Nat)) (.ofRunes w)]

/-- The places behind the point of a second are read with zeros behind them. -/
theorem readInteger_places {w : List Rune} {places : Nat} (h : IsNumberOf 1 9 w places) :
    readInteger 64 ((Text.ofRunes w).chars ++
      List.replicate (fractionDigits - (Text.ofRunes w).size) '0') =
        .ok (places * 10 ^ (9 - w.length) : Nat) := by
  obtain ⟨hchars, hsize⟩ := ofRunes_of_digits h.digits
  rw [hchars, hsize]
  have hne : w.map Rune.value ≠ [] := by
    rw [Ne, List.map_eq_nil_iff]
    exact (h.isPiece (by decide)).nonempty
  have hall : ∀ ch ∈ w.map Rune.value ++ List.replicate (fractionDigits - w.length) '0',
      isDigit ch = true := by
    refine List.forall_mem_append.2 ⟨List.forall_mem_map.2 h.digits, fun ch hch => ?_⟩
    rw [List.eq_of_mem_replicate hch]
    rfl
  have hshort : (w.map Rune.value ++
      List.replicate (fractionDigits - w.length) '0').length ≤ 18 := by
    have hmost : w.length ≤ fractionDigits := h.most
    rw [List.length_append, List.length_map, List.length_replicate, Nat.add_sub_cancel' hmost]
    decide
  rw [readInteger_short (List.append_ne_nil_of_left_ne_nil hne _) hall hshort,
    digitsValue_append_zeros, h.value]
  rfl

theorem secondFraction_written : secondFraction.Writes FractionLeaf := by
  intro c next nodes h
  obtain ⟨w, value, hw, htext, -, hvalue, rfl⟩ := findsDigits_secondFraction.found h
  have hplaces : IsNumberOf 1 9 w (digitsValue (w.map Rune.value)) := ⟨htext, rfl⟩
  rw [readInteger_places hplaces] at hvalue
  cases hvalue
  exact ⟨w, hw, _, hplaces, rfl⟩

/-- The places behind the point are found as nanoseconds in front of anything but a digit. -/
theorem secondFraction_finds_places {w : List Rune} {places : Nat} (h : IsNumberOf 1 9 w places) :
    secondFraction.Finds (Cursor.Clear isDigit)
      [.leaf (.component .fraction (places * 10 ^ (9 - w.length) : Nat)) (.ofRunes w)] w :=
  findsDigits_secondFraction.finds h.toIsNumberText (readInteger_places h)

/-- The nodes name the half of the day. -/
def HalfNodes (half? : Option Nat) (nodes : List Node) : Prop :=
  ∀ (t : TimeOfDay) (seen : List Component), Component.meridiem ∉ seen → ∃ seen',
    TimeReading.Reads ⟨t, none, seen⟩ nodes ⟨t, half?.map Nat.cast, seen'⟩

theorem meridiem_written (h : sequenceFrom start [optionalWhitespace, meridiem american] c =
    (.found nodes, next)) :
    ∃ ps hours, c.Passes ps.flatten next ∧ IsHalf ps (some hours) ∧
      HalfNodes (some hours) nodes := by
  obtain ⟨blanks, mid, more, hblanks, hname, rfl⟩ := sequenceFrom_pair_found_iff.1 h
  obtain ⟨w, hw, hours, hhours, rfl⟩ :=
    nameComponent_written (fun _ hu => wordsOf_halves ▸ hu) hname
  have hname (t : TimeOfDay) (seen : List Component) (hseen : Component.meridiem ∉ seen) :
      TimeReading.Reads ⟨t, none, seen⟩
        [.leaf (.component .meridiem hours) (.ofRunes w)] ⟨t, some hours, .meridiem :: seen⟩ := by
    have hvalues : ∀ p ∈ namesOfHalves, ¬ ((p.2 : Int) ≠ 0 ∧ (p.2 : Int) ≠ 12) := by decide
    obtain ⟨name, hmem, -⟩ := hhours
    refine .single ?_
    simp only [TimeReading.read, TimeReading.readComponent]
    rw [if_neg (by simpa using hseen), if_neg (hvalues _ hmem)]
  rcases optional_found_iff.1 hblanks with hfound | ⟨habsent, rfl⟩
  · obtain ⟨v, hv, hpiece, t, rfl⟩ := whitespace_written hfound
    exact ⟨[v, w], hours, by simpa using hv.trans hw, .spaced hpiece hhours,
      fun t seen hseen => ⟨_, hname t seen hseen⟩⟩
  · obtain ⟨-, rfl⟩ := whitespace_absent_iff.1 habsent
    exact ⟨[w], hours, by simpa using hw, .tight hhours,
      fun t seen hseen => ⟨_, hname t seen hseen⟩⟩

/-- There may be no name of a half of the day. -/
theorem half_written (h : optional (sequence [optionalWhitespace, meridiem american]) c =
    (.found nodes, next)) :
    ∃ ps half?, c.Passes ps.flatten next ∧ IsHalf ps half? ∧ HalfNodes half? nodes := by
  rcases optional_found_iff.1 h with hfound | ⟨habsent, rfl⟩
  · obtain ⟨ps, hours, hps, hhalf, hnodes⟩ := meridiem_written hfound
    exact ⟨ps, some hours, hps, hhalf, hnodes⟩
  · obtain rfl := sequenceFrom_absent habsent
    exact ⟨[], none, .refl _, .missing, fun t seen _ => ⟨seen, rfl⟩⟩

/-- The time that is read with a half of the day is the one that is written. -/
theorem value_written {hour : Nat} {minute second nanosecond : Int} {half? : Option Nat}
    {seen : List Component} {t : TimeOfDay}
    (h : TimeReading.value ⟨⟨hour, minute, second, nanosecond⟩, half?.map Nat.cast, seen⟩ =
      .ok t) : t = ⟨hourIn hour half?, minute, second, nanosecond⟩ := by
  cases half? with
  | none =>
    simp only [TimeReading.value, Option.map_none] at h
    split_ifs at h
    exact (Except.ok.inj h).symm
  | some hours =>
    simp only [TimeReading.value, Option.map_some] at h
    split_ifs at h with hseen hlarge htwelve
    · rw [← Except.ok.inj h, hourIn, show hour = 12 by omega]
      simp
    · rw [← Except.ok.inj h, hourIn, Nat.mod_eq_of_lt (show hour < 12 by omega)]
      simp

theorem timeSeparator_written :
    (timeSeparator american).Writes (MarkLeaf .timeSeparator ':') :=
  symbol_written ⟨by decide, by decide⟩

theorem nanosecond_lt {w : List Rune} {places : Nat} (h : IsNumberOf 1 9 w places) :
    places * 10 ^ (9 - w.length) < 10 ^ 9 := by
  have hlt := digitsValue_lt (List.forall_mem_map.2 h.digits)
  rw [h.value, List.length_map] at hlt
  have hpos : 0 < 10 ^ (9 - w.length) := Nat.pow_pos (by decide)
  calc places * 10 ^ (9 - w.length)
      < 10 ^ w.length * 10 ^ (9 - w.length) := Nat.mul_lt_mul_of_pos_right hlt hpos
    _ = 10 ^ 9 := by rw [← Nat.pow_add, Nat.add_sub_cancel' h.most]

/-- The places behind the point may be missing. -/
theorem fractionPart_written (h : fractionPart american c = (.found nodes, next)) :
    ∃ fs nanosecond, c.Passes fs.flatten next ∧
      (∀ {s : List Rune} {second : Nat}, IsNumberOf 2 2 s second → ∀ qs half?, IsHalf qs half? →
        IsSeconds ([.scalar ':'] :: s :: fs ++ qs) second nanosecond half?) ∧
      ∀ hour minute second : Int, ∃ seen, Component.meridiem ∉ seen ∧
        TimeReading.Reads ⟨⟨hour, minute, second, 0⟩, none, [.seconds, .minute, .hour]⟩ nodes
          ⟨⟨hour, minute, second, (nanosecond : Nat)⟩, none, seen⟩ := by
  rcases optional_found_iff.1 h with hfound | ⟨habsent, rfl⟩
  · have hrules : List.Forall₂ Writes [symbol .decimalSeparator ['.'], secondFraction]
        [MarkLeaf .decimalSeparator '.', FractionLeaf] :=
      .cons (symbol_written ⟨by decide, by decide⟩) (.cons secondFraction_written .nil)
    obtain ⟨ps, hps, hturn⟩ := sequence_written hrules hfound
    obtain _ | ⟨⟨rfl, t, rfl⟩, _ | @⟨_, _, w, _, _, _, ⟨places, hplaces, rfl⟩, ⟨⟩⟩⟩ := hturn
    refine ⟨_, _, hps, fun hs qs half? hqs => .fraction hs hplaces hqs, fun hour minute second =>
      ⟨[.fraction, .seconds, .minute, .hour], by decide, ?_⟩⟩
    -- However many places there are, they stand for less than a second.
    have hle : places * 10 ^ (9 - w.length) ≤ 999999999 :=
      Nat.le_of_lt_succ (nanosecond_lt hplaces)
    have hpoint : TimeReading.Reads ⟨⟨hour, minute, second, 0⟩, none, [.seconds, .minute, .hour]⟩
        [.leaf (.symbol .decimalSeparator) t]
        ⟨⟨hour, minute, second, 0⟩, none, [.seconds, .minute, .hour]⟩ := .single rfl
    exact hpoint.append (.single (TimeReading.within_natCast hle))
  · obtain rfl := sequenceFrom_absent habsent
    exact ⟨[], 0, .refl _, fun hs qs half? hqs => .whole hs hqs, fun hour minute second =>
      ⟨_, by decide, rfl⟩⟩

/-- There may be no seconds. -/
theorem seconds_written (h : secondsPart american c = (.found nodes, next)) :
    ∃ ps second nanosecond, c.Passes ps.flatten next ∧
      (∀ qs half?, IsHalf qs half? → IsSeconds (ps ++ qs) second nanosecond half?) ∧
      ∀ hour minute : Int, ∃ seen, Component.meridiem ∉ seen ∧
        TimeReading.Reads ⟨⟨hour, minute, 0, 0⟩, none, [.minute, .hour]⟩ nodes
          ⟨⟨hour, minute, (second : Nat), (nanosecond : Nat)⟩, none, seen⟩ := by
  rcases optional_found_iff.1 h with hfound | ⟨habsent, rfl⟩
  · obtain ⟨colons, mid, digits, mid', fraction, hcolon, hdigits, hfraction, rfl⟩ :=
      sequenceFrom_triple_found_iff.1 hfound
    obtain ⟨_, hcolonPasses, rfl, t, rfl⟩ := timeSeparator_written hcolon
    obtain ⟨s, hs, second, hsecond, -, hhigh, rfl⟩ :=
      digitsComponent_written (by decide) (by decide) hdigits
    obtain ⟨fs, nanosecond, hfs, hwritten, hreads⟩ := fractionPart_written hfraction
    refine ⟨[.scalar ':'] :: s :: fs, second, nanosecond, ?_,
      fun qs half? => hwritten hsecond qs half?, fun hour minute => ?_⟩
    · simpa using hcolonPasses.trans (hs.trans hfs)
    · obtain ⟨seen, hseen, hreads⟩ := hreads hour minute second
      have hsecond : TimeReading.Reads ⟨⟨hour, minute, 0, 0⟩, none, [.minute, .hour]⟩
          [.leaf (.component .seconds second) (.ofRunes s)]
          ⟨⟨hour, minute, second, 0⟩, none, [.seconds, .minute, .hour]⟩ :=
        .single (TimeReading.within_natCast hhigh)
      exact ⟨seen, hseen, (TimeReading.reads_timeSeparator t).append (hsecond.append hreads)⟩
  · obtain rfl := sequenceFrom_absent habsent
    exact ⟨[], 0, 0, .refl _, fun qs half? hqs => .missing hqs, fun hour minute =>
      ⟨_, by decide, rfl⟩⟩

theorem hour_written {high : Nat} (hhigh : high ≤ 23)
    (h : digitsComponent .hour 1 2 0 high c = (.found nodes, next)) :
    ∃ w hour, c.Passes w next ∧ IsNumberOf 1 2 w hour ∧
      TimeReading.Reads {} nodes ⟨⟨(hour : Nat), 0, 0, 0⟩, none, [.hour]⟩ := by
  obtain ⟨w, hw, hour, hhour, -, hle, rfl⟩ := digitsComponent_written (by decide) (by decide) h
  exact ⟨w, hour, hw, hhour, .single (TimeReading.within_natCast (hle.trans hhigh))⟩

/-- What the nodes of a time are read as is what is written in the pieces `ps`. -/
def TimeNodes (ps : List (List Rune)) (nodes : List Node) : Prop :=
  ∀ t, timeOfDay nodes = .ok t → IsTime ps t

/-- A time with minutes. -/
theorem longTime_written (h : sequenceFrom start (longTime american) c = (.found nodes, next)) :
    ∃ ps, c.Passes ps.flatten next ∧ TimeNodes ps nodes := by
  obtain ⟨hours, c₁, _, hhours, h₁, rfl⟩ := sequenceFrom_cons_found_iff.1 h
  obtain ⟨colons, c₂, _, hcolon, h₂, rfl⟩ := sequenceFrom_cons_found_iff.1 h₁
  obtain ⟨minutes, c₃, _, hminutes, h₃, rfl⟩ := sequenceFrom_cons_found_iff.1 h₂
  obtain ⟨seconds, c₄, half, hseconds, h₄, rfl⟩ := sequenceFrom_cons_found_iff.1 h₃
  obtain ⟨d, hour, hd, hhour, hreadsHour⟩ := hour_written (by decide) hhours
  obtain ⟨_, hcolonPasses, rfl, t, rfl⟩ := timeSeparator_written hcolon
  obtain ⟨m, hm, minute, hminute, -, hhigh, rfl⟩ :=
    digitsComponent_written (by decide) (by decide) hminutes
  obtain ⟨ps, second, nanosecond, hps, hwritten, hreadsSeconds⟩ := seconds_written hseconds
  obtain ⟨qs, half?, hqs, hhalf, hreadsHalf⟩ := half_written (sequenceFrom_single_found_iff.1 h₄)
  -- Each part fills the slots behind it in the reading that the one before it has left.
  have hreadsMinute : TimeReading.Reads ⟨⟨hour, 0, 0, 0⟩, none, [.hour]⟩
      [.leaf (.component .minute minute) (.ofRunes m)]
      ⟨⟨hour, minute, 0, 0⟩, none, [.minute, .hour]⟩ :=
    .single (TimeReading.within_natCast hhigh)
  obtain ⟨seen, hseen, hreadsSeconds⟩ := hreadsSeconds hour minute
  obtain ⟨seen', hreadsHalf⟩ := hreadsHalf ⟨hour, minute, second, nanosecond⟩ seen hseen
  have hreads := hreadsHour.append ((TimeReading.reads_timeSeparator t).append
    (hreadsMinute.append (hreadsSeconds.append hreadsHalf)))
  refine ⟨d :: [.scalar ':'] :: m :: (ps ++ qs), ?_, fun t ht => ?_⟩
  · simpa using hd.trans (hcolonPasses.trans (hm.trans (hps.trans hqs)))
  · rw [timeOfDay, hreads] at ht
    rw [value_written ht]
    exact .clock hhour hminute (hwritten qs half? hhalf)

/-- A full hour. -/
theorem shortTime_written (h : sequenceFrom start (shortTime american) c = (.found nodes, next)) :
    ∃ ps, c.Passes ps.flatten next ∧ TimeNodes ps nodes := by
  obtain ⟨hours, mid, half, hhours, hhalf, rfl⟩ := sequenceFrom_cons_found_iff.1 h
  obtain ⟨d, hour, hd, hhour, hreadsHour⟩ := hour_written (by decide) hhours
  obtain ⟨ps, hours, hps, hhalf, hreadsHalf⟩ := meridiem_written hhalf
  obtain ⟨seen, hreadsHalf⟩ := hreadsHalf ⟨hour, 0, 0, 0⟩ [.hour] (by decide)
  have hreads := hreadsHour.append hreadsHalf
  refine ⟨d :: ps, by simpa using hd.trans hps, fun t ht => ?_⟩
  rw [timeOfDay, hreads] at ht
  have hvalue : t = ⟨hourIn hour (some hours), (0 : Int), (0 : Int), (0 : Int)⟩ := value_written ht
  rw [hvalue]
  exact .fullHour hhour hhalf

/-- What is read as a time is a time that is written, and it is that time. -/
theorem time_written (h : time american c = (.found nodes, next)) :
    ∃ ps t children, c.Passes ps.flatten next ∧ IsTime ps t ∧
      nodes = [.parent (.time t) children] := by
  rw [time_eq] at h
  obtain ⟨children, n, hchildren, -, hn, rfl⟩ := validated_found_iff.1 h
  obtain ⟨-, t, ht, rfl⟩ := Node.time_eq_ok_iff.1 hn
  obtain ⟨ps, hps, hnodes⟩ : ∃ ps, c.Passes ps.flatten next ∧ TimeNodes ps children := by
    rcases alternatives_cons_found_iff.1 hchildren with hlong | ⟨mid, habsent, hmore⟩
    · exact longTime_written hlong
    · obtain rfl := sequenceFrom_absent habsent
      rcases alternatives_cons_found_iff.1 hmore with hshort | ⟨_, -, hnone⟩
      · exact shortTime_written hshort
      · cases hnone
  exact ⟨ps, t, children, hps, hnodes t ht, rfl⟩

end Rule

end SheetFormula
