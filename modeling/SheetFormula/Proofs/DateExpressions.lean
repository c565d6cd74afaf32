import SheetFormula.Proofs.Outcomes
import SheetFormula.Proofs.WrittenDates
import SheetFormula.Proofs.WrittenTimes

/-!
# The expressions of dates

A text that is read as a date, alone or with a time behind it, says in one way only which date that
is: the one of `Text.IsDate` or `Text.IsDateTime`.  Its expression is that date if the calendar has
it, with the time that is written, and an error otherwise, `Grammar.toExpression_date_written`:
it is never a date that does not exist, nor another one than is written.
-/

namespace SheetFormula

variable {ps qs : List (List Rune)} {x y : WrittenDate} {t u : TimeOfDay} {text : Text}

/-! ### Written dates and times -/

/-- Pieces that are the date `x` and the time `t` behind it. -/
inductive IsDateTime : List (List Rune) → WrittenDate → TimeOfDay → Prop
  | intro {ps qs : List (List Rune)} {blanks : List Rune} {x : WrittenDate} {t : TimeOfDay} :
      IsDate ps x → IsPiece .blanks blanks → IsTime qs t → IsDateTime (ps ++ blanks :: qs) x t

theorem IsDateTime.arePieces (h : IsDateTime ps x t) : ∃ ks, ArePieces ks ps := by
  obtain ⟨hdate, hblanks, htime⟩ := h
  obtain ⟨ks, first, last, hks, hfirst, hsolid, hlast, hsolid'⟩ := hdate.areBounded
  obtain ⟨ls, hls, -⟩ := htime.arePieces
  refine ⟨ks ++ .blanks :: .digits :: ls, hks.append (.cons hblanks (by simp) hls) ?_⟩
  rintro k hk heq
  rw [Option.mem_def, hlast] at hk
  cases hk
  cases heq
  cases hsolid'

/-- No time has a time behind some of its blanks. -/
theorem IsTime.not_gap {blanks : List Rune} (h : IsTime (ps ++ blanks :: qs) t)
    (hblanks : IsPiece .blanks blanks) : ¬ IsTime qs u := by
  intro hu
  obtain ⟨ks, hks, hgap⟩ := h.arePieces
  obtain ⟨ks₁, ks₂, heq, -, hks₂⟩ := hks.of_append
  obtain ⟨ls, hls, -⟩ := hu.arePieces
  have hbehind : ks₂ = .blanks :: .digits :: ls := by
    cases hks₂ with
    | cons hw hhead h => rw [hw.unique hblanks, (h.unique hls rfl).2]
  refine hgap ⟨ks₁, ls, ?_⟩
  rw [heq, hbehind]
  simp

/-- The pieces of a date and time tell which they are. -/
theorem IsDateTime.unique (h : IsDateTime ps x t) (h' : IsDateTime ps y u) : x = y ∧ t = u := by
  obtain ⟨hdate, hblanks, htime⟩ := h
  generalize heq : _ ++ _ :: _ = pieces at h'
  obtain ⟨hdate', hblanks', htime'⟩ := h'
  -- The time that starts later is not behind blanks in the other one.
  rcases List.append_eq_append_iff.1 heq with ⟨more, rfl, hmore⟩ | ⟨more, rfl, hmore⟩
  · rcases List.cons_eq_append_iff.1 hmore with ⟨rfl, hcons⟩ | ⟨rest, rfl, rfl⟩
    · cases hcons
      rw [List.append_nil] at hdate'
      exact ⟨hdate.unique hdate', htime.unique htime'⟩
    · exact (htime.not_gap hblanks' htime').elim
  · rcases List.cons_eq_append_iff.1 hmore with ⟨rfl, hcons⟩ | ⟨rest, rfl, rfl⟩
    · cases hcons
      rw [List.append_nil] at hdate
      exact ⟨hdate.unique hdate', htime.unique htime'⟩
    · exact (htime'.not_gap hblanks htime).elim

/-- The text is the date `x`. -/
def Text.IsDate (text : Text) (x : WrittenDate) : Prop :=
  ∃ ps, text.runes = ps.flatten ∧ SheetFormula.IsDate ps x

/-- The text is the date `x` with the time `t` behind it. -/
def Text.IsDateTime (text : Text) (x : WrittenDate) (t : TimeOfDay) : Prop :=
  ∃ ps, text.runes = ps.flatten ∧ SheetFormula.IsDateTime ps x t

/-- A text is one date at most. -/
theorem Text.IsDate.unique (h : text.IsDate x) (h' : text.IsDate y) : x = y := by
  obtain ⟨ps, hps, hdate⟩ := h
  obtain ⟨qs, hqs, hdate'⟩ := h'
  obtain ⟨ks, -, -, hks, -⟩ := hdate.areBounded
  obtain ⟨ls, -, -, hls, -⟩ := hdate'.areBounded
  obtain ⟨rfl, -⟩ := hks.unique hls (hps.symm.trans hqs)
  exact hdate.unique hdate'

/-- A text is one date with one time at most. -/
theorem Text.IsDateTime.unique (h : text.IsDateTime x t) (h' : text.IsDateTime y u) :
    x = y ∧ t = u := by
  obtain ⟨ps, hps, hdate⟩ := h
  obtain ⟨qs, hqs, hdate'⟩ := h'
  obtain ⟨ks, hks⟩ := hdate.arePieces
  obtain ⟨ls, hls⟩ := hdate'.arePieces
  obtain ⟨rfl, -⟩ := hks.unique hls (hps.symm.trans hqs)
  exact hdate.unique hdate'

/-! ### Dates in trees -/

namespace Node

variable {s : Settings} {n : Node} {parts : DateParts} {children : List Node} {date : Date}
  {v : Value}

/-- The tree stands for a value with a date in it: it makes that value if the calendar has the date,
and the error `#VALUE!` otherwise. -/
structure StandsFor (s : Settings) (n : Node) (date : Date) (v : Value) : Prop where
  real : date.isReal = true → n.toExpression s = .ok (some (.value v))
  unreal : date.isReal = false →
    ∃ error, n.toExpression s = .error (.value error) ∧ error.code = .value

theorem standsFor_of_expressions {written : Text} {f : Date → Value}
    (h : n.expressions s = (do
      let date ← s.dateValue written parts
      return [.value (f date)])) :
    n.StandsFor s (s.dateOf parts) (f (s.dateOf parts)) where
  real hreal := by
    rw [toExpression_eq, h, Settings.dateValue, hreal]
    rfl
  unreal hreal := by
    rw [toExpression_eq, h, Settings.dateValue, hreal]
    exact ⟨_, rfl, rfl⟩

theorem expressions_date (h : (parent (.date parts) children).IsMoment) :
    (parent (.date parts) children).expressions s = (do
      let date ← s.dateValue (parent (.date parts) children).text parts
      return [.value (.date date)]) := by
  cases h with
  | date hparts =>
    rw [expressions, expressionsOfAll_components hparts]
    rfl

theorem expressions_time {t : TimeOfDay} (h : (parent (.time t) children).IsMoment) :
    (parent (.time t) children).expressions s = .ok [.value (.time t)] := by
  cases h with
  | time hparts =>
    rw [expressions, expressionsOfAll_components hparts]
    rfl

/-- A date and time stands for what its halves do. -/
theorem expressions_dateTime {t : TimeOfDay} {blanks : Text} {parts' : List Node}
    (hdate : (parent (.date parts) children).IsMoment)
    (htime : (parent (.time t) parts').IsMoment) :
    (parent .dateTime [parent (.date parts) children, leaf .whitespace blanks,
      parent (.time t) parts']).expressions s = (do
      let date ← s.dateValue (parent (.date parts) children).text parts
      return [.value (.dateTime date t)]) := by
  have hhalf : dateHalf? (parent .dateTime [parent (.date parts) children,
      leaf .whitespace blanks, parent (.time t) parts']) =
      some (parent (.date parts) children) := rfl
  have hhalf' : timeHalf? (parent .dateTime [parent (.date parts) children,
      leaf .whitespace blanks, parent (.time t) parts']) = some (parent (.time t) parts') := rfl
  rw [expressions, expressionsOfAll, expressions_date hdate, expressionsOfAll_cons_leaf rfl,
    expressionsOfAll_singleton, expressions_time htime]
  simp only [Settings.buildNode, Settings.dateTimeValue, hhalf, hhalf']
  cases s.dateValue (parent (.date parts) children).text parts <;> rfl

end Node

/-! ### Parsed dates -/

namespace Rule

open Grammar (american)

variable {c next : Cursor} {nodes : List Node}

/-- What is read as a date and time is a date with a time behind it, and stands for those. -/
theorem dateTime_written (h : dateTime american c = (.found nodes, next)) :
    ∃ ps x t n, c.Passes ps.flatten next ∧ IsDateTime ps x t ∧ nodes = [n] ∧
      ∀ s : Settings, n.StandsFor s (s.writtenDate x) (.dateTime (s.writtenDate x) t) := by
  obtain ⟨children, n, hchildren, hn, rfl⟩ := transform_found_iff.1 h
  obtain ⟨dates, c₁, blanks, c₂, times, hdate, hblanks, htime, rfl⟩ :=
    sequenceFrom_triple_found_iff.1 hchildren
  obtain ⟨-, -, rfl⟩ := Node.dateTime_eq_ok_iff.1 hn
  obtain ⟨ps, x, parts, dateChildren, hps, hx, rfl, hparts⟩ := date_written hdate
  obtain ⟨w, hw, hpiece, b, rfl⟩ := whitespace_written hblanks
  obtain ⟨qs, t, timeChildren, hqs, ht, rfl⟩ := time_written htime
  obtain ⟨_, heq, hmoment⟩ := moment_date.found hdate
  obtain ⟨_, heq', hmoment'⟩ := moment_time.found htime
  cases heq
  cases heq'
  refine ⟨ps ++ w :: qs, x, t, _, by simpa using hps.trans (hw.trans hqs), .intro hx hpiece ht, rfl,
    fun s => ?_⟩
  rw [← hparts s]
  exact Node.standsFor_of_expressions (f := (.dateTime · t))
    (Node.expressions_dateTime hmoment hmoment')

end Rule

namespace Grammar

variable {n : Node}

theorem standsFor_of_parse_date (h : american.parse .date text = .ok n) :
    ∃ x, text.IsDate x ∧
      ∀ s : Settings, n.StandsFor s (s.writtenDate x) (.date (s.writtenDate x)) := by
  obtain ⟨c, hfound, hend⟩ := found_of_parse h
  obtain ⟨ps, x, parts, children, hps, hx, hnodes, hparts⟩ := Rule.date_written hfound
  obtain ⟨_, heq, hmoment⟩ := Rule.moment_date.found hfound
  cases heq
  cases hnodes
  refine ⟨x, ⟨ps, hps.rest_of_end hend, hx⟩, fun s => ?_⟩
  rw [← hparts s]
  exact Node.standsFor_of_expressions (f := .date) (Node.expressions_date hmoment)

theorem standsFor_of_parse_dateTime (h : american.parse .dateTime text = .ok n) :
    ∃ x t, text.IsDateTime x t ∧
      ∀ s : Settings, n.StandsFor s (s.writtenDate x) (.dateTime (s.writtenDate x) t) := by
  obtain ⟨c, hfound, hend⟩ := found_of_parse h
  obtain ⟨ps, x, t, _, hps, hx, hnodes, hstands⟩ := Rule.dateTime_written hfound
  cases hnodes
  exact ⟨x, t, ⟨ps, hps.rest_of_end hend, hx⟩, hstands⟩

/-- A text that is read as a date, alone or with a time behind it, is one date and one time.  Its
tree makes that date, with the time, if the calendar has it, and the error `#VALUE!` if it has
not. -/
theorem toExpression_date_written (text : Text) (n : Node) (s : Settings) :
    (american.parse .date text = .ok n →
      (∃! x, text.IsDate x) ∧ ∀ x, text.IsDate x →
        n.StandsFor s (s.writtenDate x) (.date (s.writtenDate x))) ∧
    (american.parse .dateTime text = .ok n →
      (∃! p : WrittenDate × TimeOfDay, text.IsDateTime p.1 p.2) ∧ ∀ x t, text.IsDateTime x t →
        n.StandsFor s (s.writtenDate x) (.dateTime (s.writtenDate x) t)) := by
  constructor
  · intro h
    obtain ⟨x, hx, hstands⟩ := standsFor_of_parse_date h
    refine ⟨⟨x, hx, fun y hy => hy.unique hx⟩, fun y hy => ?_⟩
    rw [hy.unique hx]
    exact hstands s
  · intro h
    obtain ⟨x, t, hx, hstands⟩ := standsFor_of_parse_dateTime h
    refine ⟨⟨(x, t), hx, fun p hp => ?_⟩, fun y u hy => ?_⟩
    · obtain ⟨hdate, htime⟩ := hp.unique hx
      exact Prod.ext hdate htime
    · obtain ⟨rfl, rfl⟩ := hy.unique hx
      exact hstands s

/-- February of 2023 has no 29th.  The year 20 is 1920, and 12 PM is noon. -/
theorem toExpression_date_written_noon :
    (∃ n error, american.parse .date "29/2/2023" = .ok n ∧
      n.toExpression { today := ⟨2024, 3, 15⟩ } = .error (.value error) ∧ error.code = .value) ∧
    ∃ n, american.parse .dateTime "1 Jan 20 12:30PM" = .ok n ∧
      n.toExpression { today := ⟨2024, 3, 15⟩ } =
        .ok (some (.value (.dateTime ⟨1920, 1, 1⟩ ⟨12, 30, 0, 0⟩))) := by
  have hblanks : IsPiece .blanks [.scalar ' '] := ⟨by simp, by decide⟩
  have hunreal : Text.IsDate "29/2/2023" ⟨.full 2023, 2, some 29⟩ := by
    refine ⟨["29", "/", "2", "/", "2023"].map Text.runes, by decide, .plain ?_⟩
    exact .dayMonthYear (by decide) (.inl rfl) (by decide) (.inl rfl) (.full (by decide))
  have hnoon : Text.IsDateTime "1 Jan 20 12:30PM" ⟨.short 20, 1, some 1⟩ ⟨12, 30, 0, 0⟩ := by
    refine ⟨["1", " ", "Jan", " ", "20"].map Text.runes ++
      [.scalar ' '] :: ["12", ":", "30", "PM"].map Text.runes, by decide, .intro ?_ hblanks ?_⟩
    · exact .plain (.dayNameYear (by decide) (.inl hblanks) (by decide) (.inl hblanks)
        (.short (by decide)))
    · have hhalf : IsHalf [Text.runes "PM"] (some 12) := .tight (by decide)
      show IsTime _ ⟨hourIn 12 (some 12), 30, 0, 0⟩
      exact .clock (by decide) (by decide) (.missing hhalf)
  have hparsedDate : (american.parse .date "29/2/2023").toOption.any (fun _ => true) = true := by
    decide +kernel
  have hparsedNoon : (american.parse .dateTime "1 Jan 20 12:30PM").toOption.any (fun _ => true) =
      true := by decide +kernel
  constructor
  · obtain ⟨n, hn, -⟩ := exists_ok_of_any hparsedDate
    obtain ⟨-, hstands⟩ := (toExpression_date_written _ n { today := ⟨2024, 3, 15⟩ }).1 hn
    obtain ⟨error, herror⟩ := (hstands _ hunreal).unreal (by decide)
    exact ⟨n, error, hn, herror⟩
  · obtain ⟨n, hn, -⟩ := exists_ok_of_any hparsedNoon
    obtain ⟨-, hstands⟩ := (toExpression_date_written _ n { today := ⟨2024, 3, 15⟩ }).2 hn
    exact ⟨n, hn, (hstands _ _ hnoon).real (by decide)⟩

end Grammar

end SheetFormula
