import SheetFormula.Proofs.Storage
import SheetFormula.Proofs.Times

/-!
# What the key of a formula tells

A table knows a formula by the text of its token without whitespace.  That text is read as the token
without its whitespace (`Grammar.parse_key`), and so two formulas with one key differ in whitespace
only.  The exception are dates: the whitespace in them stands between numbers and names, and without
it the text means something else, or another date.
-/

namespace SheetFormula

/-- A date, with a time or without, written with whitespace. -/
def Node.IsSpacedDate (n : Node) : Prop := (n.kind = .date ∨ n.kind = .dateTime) ∧ n.bare ≠ n

namespace Rule

variable {c next : Cursor} {n : Node} {nodes : List Node}

/-- A number is written without whitespace. -/
theorem isSolid_number {signed : Bool}
    (h : number .american signed c = (.found nodes, next)) : ∀ n ∈ nodes, n.IsSolid := by
  obtain ⟨signs, afterSign, places, afterPlaces, power, afterPower, hundredths, n, hsigns, hplaces,
    hpower, hhundredths, -, hn, rfl⟩ := number_found_iff.1 h
  obtain ⟨u, -, hmantissa⟩ := mantissa_eq hplaces
  obtain ⟨v, -, hexponent⟩ := exponent_eq afterPlaces
  rw [hpower] at hexponent
  obtain ⟨k, -, hpercents⟩ := percents_eq afterPower
  rw [show percents '%' afterPower = (hundredths, next) from hhundredths] at hpercents
  simp only at hexponent hpercents
  subst hpercents
  have hsign : ∀ n ∈ signs, n.IsSolid := by
    split_ifs at hsigns
    · obtain ⟨w, -, hw⟩ := sign_eq c
      rw [show sign '-' '+' c = (signs, afterSign) from hsigns] at hw
      cases hw <;> simp [signLeaf]
    · obtain ⟨rfl, -⟩ := Prod.mk.inj hsigns
      simp
  obtain ⟨-, _, -, rfl⟩ := Node.number_eq_ok_iff.1 hn
  simpa [or_imp, forall_and, signLeaf] using ⟨hsign, hmantissa.isSolid, hexponent.isSolid⟩

theorem isSolid_remainingLiteral (h : remainingLiteral c = (.found nodes, next)) :
    ∀ n ∈ nodes, n.IsSolid := by
  obtain ⟨-, rfl⟩ := remainingLiteral_found_iff.1 h
  simp

theorem isSolid_quotation {children : List Node} (h : Node.quotation children = .ok n)
    (hchildren : ∀ child ∈ children, child.IsSolid) : n.IsSolid := by
  obtain ⟨-, _, -, rfl⟩ := Node.quotation_eq_ok_iff.1 h
  exact Node.isSolid_parent.2 hchildren

theorem isSolid_apostropheText (h : apostropheText c = (.found nodes, next)) :
    ∀ n ∈ nodes, n.IsSolid := by
  obtain ⟨children, n, hchildren, hn, rfl⟩ := transform_found_iff.1 h
  obtain ⟨mark, mid, literal, hmark, hliteral, rfl⟩ := sequenceFrom_pair_found_iff.1 hchildren
  obtain ⟨-, -, rfl⟩ := symbol_found_iff.1 hmark
  have hsolid := isSolid_remainingLiteral hliteral
  simpa using isSolid_quotation hn (by simpa [or_imp, forall_and] using hsolid)

theorem isSolid_wholeText (h : wholeText c = (.found nodes, next)) : ∀ n ∈ nodes, n.IsSolid := by
  obtain ⟨children, n, hchildren, hn, rfl⟩ := transform_found_iff.1 (wholeText_found_iff.1 h).2
  simpa using isSolid_quotation hn (isSolid_remainingLiteral hchildren)

theorem form_of_date {n : Node} (h : date .american c = (.found [n], next)) :
    ∃ parts children, n = .parent (.date parts) children := by
  obtain ⟨children, m, -, -, hm, heq⟩ := validated_found_iff.1 h
  obtain ⟨-, parts, -, rfl⟩ := Node.date_eq_ok_iff.1 hm
  exact ⟨parts, children, (List.cons.inj heq).1⟩

theorem form_of_time {n : Node} (h : time .american c = (.found [n], next)) :
    ∃ value children, n = .parent (.time value) children := by
  obtain ⟨children, m, -, -, hm, heq⟩ := validated_found_iff.1 h
  obtain ⟨-, value, -, rfl⟩ := Node.time_eq_ok_iff.1 hm
  exact ⟨value, children, (List.cons.inj heq).1⟩

/-- The rule for what is typed into a cell by which it is found. -/
inductive FindsEntry (c : Cursor) (nodes : List Node) (next : Cursor) : Prop
  | formula (h : Rule.formula .american c = (.found nodes, next))
  | dateTime (h : Rule.dateTime .american c = (.found nodes, next))
  | date (h : Rule.date .american c = (.found nodes, next))
  | time (h : Rule.time .american c = (.found nodes, next)) (hend : next.rest = [])
  | number (h : Rule.number .american true c = (.found nodes, next))
  | apostropheText (h : Rule.apostropheText c = (.found nodes, next))
  | wholeText (h : Rule.wholeText c = (.found nodes, next))

theorem findsEntry_of_found (h : valueOrExpression .american c = (.found nodes, next)) :
    FindsEntry c nodes next := by
  obtain ⟨r, hr, hfound⟩ := exists_mem_of_alternatives spells_american.entries h nofun
  simp only [List.mem_cons, List.not_mem_nil, or_false] at hr
  rcases hr with rfl | rfl | rfl | rfl | rfl | rfl | rfl
  · exact .formula hfound
  · exact .dateTime (complete_found_iff.1 hfound).1
  · exact .date (complete_found_iff.1 hfound).1
  · exact .time (complete_found_iff.1 hfound).1 (List.isEmpty_iff.1 (complete_found_iff.1 hfound).2)
  · exact .number (complete_found_iff.1 hfound).1
  · exact .apostropheText (complete_found_iff.1 hfound).1
  · exact .wholeText hfound

/-- What is typed into a cell is a formula, a time or a date, or written without whitespace of its
own. -/
theorem valueOrExpression_cases (hsettled : Text.Settled c.rest)
    (h : valueOrExpression .american c = (.found [n], next)) :
    formula .american c = (.found [n], next) ∨
      (n.kind = .time ∧ ∃ w, IsTimeText w ∧ w.length ≤ c.rest.length ∧
        (valueOrExpression .american).Finds (· = []) [n.bare] w) ∨
      (n.kind = .date ∨ n.kind = .dateTime) ∨ n.IsSolid := by
  cases findsEntry_of_found h with
  | formula hformula => exact .inl hformula
  | dateTime hdateTime =>
    obtain ⟨children, m, -, hm, heq⟩ := transform_found_iff.1 hdateTime
    obtain ⟨-, -, rfl⟩ := Node.dateTime_eq_ok_iff.1 hm
    obtain rfl := (List.cons.inj heq).1
    exact .inr (.inr (.inl (.inr rfl)))
  | date hdate =>
    obtain ⟨parts, children, rfl⟩ := form_of_date hdate
    exact .inr (.inr (.inl (.inl rfl)))
  | time htime hend =>
    obtain ⟨w, hw, hle, hfinds⟩ := time_bare hsettled htime hend
    obtain ⟨value, children, rfl⟩ := form_of_time htime
    exact .inr (.inl ⟨rfl, w, hw, hle, valueOrExpression_finds_time hw hfinds⟩)
  -- The other values have no whitespace apart from what quotes enclose.
  | number hnumber =>
    exact .inr (.inr (.inr (isSolid_number hnumber n (List.mem_singleton_self n))))
  | apostropheText htext =>
    exact .inr (.inr (.inr (isSolid_apostropheText htext n (List.mem_singleton_self n))))
  | wholeText htext =>
    exact .inr (.inr (.inr (isSolid_wholeText htext n (List.mem_singleton_self n))))

end Rule

namespace Grammar

variable {s t : Text} {n m : Node}

theorem parse_eq_ok_of_found {g : Grammar} {p : Parser} {c : Cursor}
    (hlength : s.runes.length ≤ maxFormulaLength)
    (h : p.rule g (.start s) = (.found [n], c)) (hend : c.rest = []) : g.parse p s = .ok n := by
  have hend' : (!c.atEnd) = false := by simp [Cursor.atEnd, hend]
  rw [parse, run]
  simp only [if_neg (Nat.not_lt.2 hlength), show p.rule g ⟨0, s.runes⟩ = (.found [n], c) from h,
    hend', Bool.and_false, Bool.false_eq_true, if_false]

/-- A parser whose rule fails tells the failure. -/
theorem parse_eq_error_of_failed {g : Grammar} {p : Parser} {c : Cursor} {failure : Failure}
    (hlength : s.runes.length ≤ maxFormulaLength)
    (h : p.rule g (.start s) = (.failed failure, c)) : g.parse p s = .error failure := by
  have hrule : p.rule g ⟨0, s.runes⟩ = (.failed failure, c) := h
  rw [parse, run]
  simp only [if_neg (Nat.not_lt.2 hlength), hrule]

/-- A text that is parsed is not too long. -/
theorem runeCount_of_parse {g : Grammar} {p : Parser} (h : g.parse p s = .ok n) :
    s.runeCount ≤ maxFormulaLength := by
  by_contra hcount
  have hlong : maxFormulaLength < s.runes.length := Nat.not_le.1 hcount
  rw [parse, run] at h
  simp only [if_pos hlong] at h
  cases h

/-- A text that is parsed is not too long, and its tree spells it. -/
theorem length_of_parse {p : Parser} (h : american.parse p s = .ok n) :
    s.runes.length ≤ maxFormulaLength ∧ n.text = s := by
  obtain ⟨k, hrun⟩ := run_of_parse h
  exact ⟨runeCount_of_parse h, (run_spells Locale.hasPlainSigns_default hrun).2.2 rfl⟩

/-- A token without its whitespace spells a text that is read as just that, unless it is a date. -/
theorem parse_key (h : american.parse .valueOrExpression s = .ok n) (hdate : ¬ n.IsSpacedDate) :
    american.parse .valueOrExpression n.bare.text = .ok n.bare := by
  obtain ⟨hlength, htext⟩ := length_of_parse h
  obtain ⟨c, hfound, hend⟩ := found_of_parse h
  rcases Rule.valueOrExpression_cases (Text.settled_runes s) hfound with
    hformula | ⟨-, w, hw, hle, hfinds⟩ | hkind
  -- A formula and a time are read again; whatever else has no whitespace to lose is unchanged.
  · obtain ⟨hfinds, hle⟩ := Rule.formula_bare (Text.settled_runes s) hformula
    have hbare := @hfinds 0 [] rfl
    rw [List.append_nil] at hbare
    refine parse_eq_ok_of_found ?_ (Rule.alternatives_cons_found_iff.2 (.inl hbare)) rfl
    exact Nat.le_trans (Nat.le_trans hle (Nat.sub_le _ _)) hlength
  · have hbare := @hfinds 0 [] rfl
    rw [List.append_nil] at hbare
    have hwritten : n.bare.text = .ofRunes w :=
      Rule.text_of_spells (Rule.spells_american.valueOrExpression.found hbare)
        ⟨(List.append_nil w).symm, rfl⟩
    have hrunes : n.bare.text.runes = w := by
      rw [hwritten]
      exact (Text.sealed_of_isScalar hw.scalar).settled
    rw [← hrunes] at hle hbare
    exact parse_eq_ok_of_found (Nat.le_trans hle hlength) hbare rfl
  · have hbare : n.bare = n := by
      rcases hkind with hkind | hsolid
      · by_contra hne
        exact hdate ⟨hkind, hne⟩
      · exact Node.bare_of_isSolid n hsolid
    rw [hbare, htext]
    exact h

theorem isWhitespace_of_parse (h : american.parse .valueOrExpression s = .ok n) :
    n.isWhitespace = false := by
  obtain ⟨c, hfound, -⟩ := found_of_parse h
  rcases Rule.valueOrExpression_cases (Text.settled_runes s) hfound with
    hformula | ⟨hkind, -⟩ | hkind | hsolid
  · obtain ⟨children, m, -, hm, heq⟩ := Rule.transform_found_iff.1 hformula
    obtain ⟨-, rfl⟩ := Node.unary_eq_ok_iff.1 hm
    rw [(List.cons.inj heq).1]
    rfl
  · rw [Node.isWhitespace, hkind]
    rfl
  · rw [Node.isWhitespace]
    rcases hkind with hkind | hkind <;> rw [hkind] <;> rfl
  · cases n with
    | leaf content text => simpa [Node.isWhitespace_leaf] using hsolid
    | parent form children => exact Node.isWhitespace_parent form children

/-- The token of a parsed formula is what its text is parsed to. -/
theorem parse_of_token {g : Grammar} {p : Parser} (h : (Formula.parse g p s).token? = some n) :
    g.parse p s = .ok n := by
  rw [Formula.parse] at h
  split_ifs at h
  · cases h
  · split at h
    next hok =>
      cases h
      exact hok
    next => cases h

/-- The token of a parsed formula, and its key. -/
theorem token_of_parse (h : (Formula.parse american .valueOrExpression s).token? = some n) :
    american.parse .valueOrExpression s = .ok n ∧
      (Formula.parse american .valueOrExpression s).key = n.bare.text :=
  ⟨parse_of_token h, Formula.key_eq h (isWhitespace_of_parse (parse_of_token h))⟩

/-- Two formulas with the same key differ in whitespace only, unless one of them is a date with
whitespace in it. -/
theorem bare_eq_of_key_eq (s t : Text) (n m : Node)
    (hn : (Formula.parse american .valueOrExpression s).token? = some n)
    (hm : (Formula.parse american .valueOrExpression t).token? = some m)
    (hkey : (Formula.parse american .valueOrExpression s).key =
      (Formula.parse american .valueOrExpression t).key)
    (hndate : ¬ n.IsSpacedDate) (hmdate : ¬ m.IsSpacedDate) : n.bare = m.bare := by
  obtain ⟨hnparse, hnkey⟩ := token_of_parse hn
  obtain ⟨hmparse, hmkey⟩ := token_of_parse hm
  have hnread := parse_key hnparse hndate
  rw [← hnkey, hkey, hmkey, parse_key hmparse hmdate] at hnread
  exact (Except.ok.inj hnread).symm

/-- A formula with blanks around its signs and the same formula without them. -/
theorem bare_eq_of_key_eq_spaced :
    ∃ n m, (Formula.parse american .valueOrExpression "=-a1 + 2").token? = some n ∧
      (Formula.parse american .valueOrExpression "= - a1+2").token? = some m ∧
      (Formula.parse american .valueOrExpression "=-a1 + 2").key =
        (Formula.parse american .valueOrExpression "= - a1+2").key ∧
      ¬ n.IsSpacedDate ∧ ¬ m.IsSpacedDate ∧ n.bare = m.bare := by
  have hkinds : (Formula.parse american .valueOrExpression "=-a1 + 2").token?.map Node.kind =
        some (.unary .expression) ∧
      (Formula.parse american .valueOrExpression "= - a1+2").token?.map Node.kind =
        some (.unary .expression) := by decide +kernel
  have hkey : (Formula.parse american .valueOrExpression "=-a1 + 2").key =
      (Formula.parse american .valueOrExpression "= - a1+2").key := by decide +kernel
  obtain ⟨n, hn, hnkind⟩ := Option.map_eq_some_iff.1 hkinds.1
  obtain ⟨m, hm, hmkind⟩ := Option.map_eq_some_iff.1 hkinds.2
  have hndate : ¬ n.IsSpacedDate := by simp [Node.IsSpacedDate, hnkind]
  have hmdate : ¬ m.IsSpacedDate := by simp [Node.IsSpacedDate, hmkind]
  exact ⟨n, m, hn, hm, hkey, hndate, hmdate,
    bare_eq_of_key_eq _ _ n m hn hm hkey hndate hmdate⟩

/-- Four minutes past noon on the first of January and past two on the first of November have the
same key, and so one entry in a table. -/
theorem key_confuses_dates :
    ∃ n m, (Formula.parse american .valueOrExpression "1/1 12:04").token? = some n ∧
      (Formula.parse american .valueOrExpression "1/11 2:04").token? = some m ∧
      (Formula.parse american .valueOrExpression "1/1 12:04").key =
        (Formula.parse american .valueOrExpression "1/11 2:04").key ∧ n.bare ≠ m.bare := by
  have hleaves : ((Formula.parse american .valueOrExpression "1/1 12:04").token?.bind
        fun n => n.bare.leaves[2]?) = some (Content.component .monthNumber 1, Text.ofString "1") ∧
      ((Formula.parse american .valueOrExpression "1/11 2:04").token?.bind
        fun n => n.bare.leaves[2]?) =
          some (Content.component .monthNumber 11, Text.ofString "11") := by decide +kernel
  obtain ⟨n, hn, hnleaf⟩ := Option.bind_eq_some_iff.1 hleaves.1
  obtain ⟨m, hm, hmleaf⟩ := Option.bind_eq_some_iff.1 hleaves.2
  refine ⟨n, m, hn, hm, by decide +kernel, fun hbare => ?_⟩
  rw [hbare, hmleaf] at hnleaf
  revert hnleaf
  decide

end Grammar

end SheetFormula
