import SheetFormula.Proofs.Reconstruction
import SheetFormula.Proofs.Stops

/-!
# Tokens in front of a stop

What a scanner of the American grammar finds, it finds again wherever the same runes stand in front
of a stop.  For each scanner one lemma takes apart what it read and one puts it in front of other
runes; `Rule.Finds` is what they have in common.

An operand of one token, `IsToken`, is found by `Rule.operandOf` whatever the rule for the operands
inside an operand is.
-/

namespace SheetFormula

open Cursor (Clear)

/-- The grammar of the default locale. -/
abbrev Grammar.american : Grammar := .ofLocale {}

theorem Cursor.Passes.unique {c next : Cursor} {v w : List Rune} (hv : c.Passes v next)
    (hw : c.Passes w next) : v = w :=
  List.append_cancel_right (hv.rest.symm.trans hw.rest)

theorem Text.Settled.isScalar_of_ascii {rest : List Rune} (h : Settled rest) {r : Rune}
    (hr : r ∈ rest) (hascii : ∀ b ∈ r.bytes, b < 0x80) : r.isScalar = true := by
  cases r with
  | scalar c => rfl
  | stray b =>
    obtain ⟨front, back, rfl⟩ := List.append_of_mem hr
    have hcut : (ofRunes (.stray b :: back)).runes = .stray b :: back := h.of_append
    have hb : b < 0x80 := hascii b (List.mem_singleton_self b)
    have hnat : b.toNat < 0x80 := UInt8.lt_iff_toNat_lt.1 hb
    have hread := runes_cons b (ofRunes back).bytes
    simp only [spelledBy, hnat, if_true] at hread
    cases (List.cons.inj (hread.symm.trans hcut)).1

namespace Rule

/-- The rule finds `nodes` where `w` is written, in front of any runes with the property `F`. -/
def Finds (r : Rule) (F : List Rune → Prop) (nodes : List Node) (w : List Rune) : Prop :=
  ∀ ⦃p : Nat⦄ ⦃rest : List Rune⦄, F rest →
    r ⟨p, w ++ rest⟩ = (.found nodes, ⟨p + w.length, rest⟩)

/-- The rule is absent where `w` is written, in front of any runes with the property `F`. -/
def Misses (r : Rule) (F : List Rune → Prop) (w : List Rune) : Prop :=
  ∀ ⦃p : Nat⦄ ⦃rest : List Rune⦄, F rest → r ⟨p, w ++ rest⟩ = (.absent, ⟨p, w ++ rest⟩)

variable {c next mid : Cursor} {nodes : List Node} {w rest : List Rune} {p : Nat}

/-! ### Combinators -/

section Combinators

variable {r : Rule} {rules : List Rule} {F G : List Rune → Prop} {first more : List Node}
  {u v : List Rune} {build : List Node → Except Defect Node} {n : Node}

theorem Finds.mono (h : r.Finds F nodes w) (hG : ∀ rest, G rest → F rest) : r.Finds G nodes w :=
  fun _ rest hrest => h (hG rest hrest)

/-- The rules find `nodes` one after another where `w` is written. -/
def FindInTurn (rules : List Rule) (F : List Rune → Prop) (nodes : List Node) (w : List Rune) :
    Prop :=
  ∀ ⦃start : Cursor⦄, Finds (sequenceFrom start rules) F nodes w

theorem findInTurn_nil : FindInTurn [] F [] [] := fun _ _ _ _ => rfl

theorem Finds.cons (hr : r.Finds G first u) (hrules : FindInTurn rules F more v)
    (hG : ∀ rest, F rest → G (v ++ rest)) : FindInTurn (r :: rules) F (first ++ more) (u ++ v) := by
  intro start p rest hrest
  rw [List.append_assoc, sequenceFrom_cons_found_iff]
  refine ⟨first, _, more, hr (hG rest hrest), ?_, rfl⟩
  rw [hrules hrest, List.length_append, Nat.add_assoc]

theorem Finds.single (hr : r.Finds F nodes w) : FindInTurn [r] F nodes w := by
  simpa using hr.cons findInTurn_nil fun _ hrest => hrest

theorem FindInTurn.sequence (h : FindInTurn rules F nodes w) : (sequence rules).Finds F nodes w :=
  fun _ _ hrest => h hrest

theorem Finds.transform (h : r.Finds F nodes w) (hn : build nodes = .ok n) :
    (transform r build).Finds F [n] w := fun _ _ hrest =>
  transform_found_iff.2 ⟨nodes, n, h hrest, hn, rfl⟩

theorem Finds.required (h : r.Finds F nodes w) : (required r).Finds F nodes w := fun _ _ hrest =>
  required_found_iff.2 (h hrest)

theorem Finds.optional (h : r.Finds F nodes w) : (optional r).Finds F nodes w := fun _ _ hrest =>
  optional_found_iff.2 (.inl (h hrest))

theorem Finds.alternatives (h : r.Finds F nodes w) : (alternatives (r :: rules)).Finds F nodes w :=
  fun _ _ hrest => alternatives_cons_found_iff.2 (.inl (h hrest))

theorem Misses.alternatives (hr : r.Misses F w) (h : (alternatives rules).Finds F nodes w) :
    (Rule.alternatives (r :: rules)).Finds F nodes w := fun _ _ hrest =>
  alternatives_cons_found_iff.2 (.inr ⟨_, hr hrest, h hrest⟩)

/-- What the rules in front miss is left to the rule behind them. -/
theorem Finds.behind {front : List Rule} (h : r.Finds F nodes w)
    (hfront : front.Forall fun other => other.Misses F w) :
    (Rule.alternatives (front ++ r :: rules)).Finds F nodes w := by
  induction front with
  | nil => exact h.alternatives
  | cons other front ih =>
    obtain ⟨hother, hmore⟩ := (List.forall_cons ..).1 hfront
    exact hother.alternatives (ih hmore)

theorem sequence_absent {rules : List Rule} (h : r c = (.absent, mid)) :
    sequence (r :: rules) c = (.absent, c) := by
  simp [sequence, sequenceFrom, h]

theorem alternatives_absent {rules : List Rule} (h : rules.Forall fun r => r c = (.absent, c)) :
    alternatives rules c = (.absent, c) := by
  induction rules with
  | nil => rfl
  | cons r rules ih =>
    obtain ⟨hr, hrules⟩ := (List.forall_cons ..).1 h
    exact alternatives_cons_absent_iff.2 ⟨c, hr, ih hrules⟩

end Combinators

/-! ### Symbols -/

theorem shows_append (word : List Char) : Cursor.shows word (word.map .scalar ++ rest) = true := by
  induction word with
  | nil => rfl
  | cons ch word ih => simp [Cursor.shows, Rune.value, ih]

/-- A symbol is found where it is written. -/
theorem symbol_finds (s : Symbol) (word : List Char) (F : List Rune → Prop) :
    (symbol s word).Finds F [.leaf (.symbol s) (.ofRunes (word.map .scalar))]
      (word.map .scalar) := by
  intro p rest _
  rw [symbol_found_iff]
  refine ⟨shows_append word, by simp [Cursor.advance], ?_⟩
  rw [Cursor.textTo_append]

/-- A symbol of plain characters passes its characters. -/
theorem symbol_eq {s : Symbol} {word : List Char} (hplain : ∀ ch ∈ word, IsPlain ch)
    (h : symbol s word c = (.found nodes, next)) :
    c.Passes (word.map .scalar) next ∧
      nodes = [.leaf (.symbol s) (.ofRunes (word.map .scalar))] := by
  obtain ⟨hshows, rfl, rfl⟩ := symbol_found_iff.1 h
  obtain ⟨w, v, hrest, hw⟩ := exists_append_of_shows (fun hnul => (hplain nul hnul).1 rfl) hshows
  have hscalar : w = word.map .scalar := by
    rw [← hw, List.map_map]
    refine (List.map_id w).symm.trans (List.map_congr_left fun r hr => ?_)
    exact Rune.eq_scalar_of_value rfl (hplain _ (hw ▸ List.mem_map_of_mem hr)).2
  rw [hscalar] at hrest
  have hpasses := Cursor.passes_advance hrest
  rw [List.length_map] at hpasses
  exact ⟨hpasses, by rw [hpasses.textTo]⟩

/-- A symbol is absent where its first character does not stand. -/
theorem symbol_absent {s : Symbol} {ch : Char} {word : List Char} {r : Rune} (h : r.value ≠ ch) :
    symbol s (ch :: word) ⟨p, r :: rest⟩ = (.absent, ⟨p, r :: rest⟩) := by
  rw [symbol_absent_iff]
  simp [Cursor.shows, h]

/-! ### Quoted text -/

theorem quotedText_finds (h : quotedText c = (.found nodes, next)) :
    ∃ v, c.Passes (.scalar '"' :: v ++ [.scalar '"']) next ∧
      quotedText.Finds Stops nodes (.scalar '"' :: v ++ [.scalar '"']) := by
  obtain ⟨hquote, value, count, n, hread, rfl, rfl, hn⟩ := quotedText_found_iff.1 h
  obtain ⟨r, inside, hrest, hr⟩ := Cursor.exists_rest_of_current hquote (by decide)
  have hopen := Cursor.passes_next hrest
  have hinside : c.next.rest = inside := by
    have := hopen.rest
    rw [hrest] at this
    exact (List.cons.inj this).2.symm
  obtain ⟨v, close, tail, htail, hclose, hcount, hagain⟩ := readQuoted_ok hread
  rw [Nat.zero_add] at hcount
  subst hcount
  have hbody : c.next.Passes v (c.next.advance v.length) := Cursor.passes_advance htail
  have hend := Cursor.passes_next (c := c.next.advance v.length) (r := close) (v := tail)
    (by simp [Cursor.advance, htail])
  obtain rfl := Rune.eq_scalar_of_value hr (by decide)
  obtain rfl := Rune.eq_scalar_of_value hclose (by decide)
  refine ⟨v, by simpa using hopen.trans (hbody.trans hend), ?_⟩
  intro p rest hrest
  have hnot : ∀ r ∈ rest.head?, r.value ≠ '"' := fun r hr =>
    fun heq => absurd (heq ▸ hrest r hr) (by decide)
  have hread' := hagain rest hnot
  -- The cursors on the way: behind the opening quote, at the closing one and behind it.
  have hnext : Cursor.next ⟨p, .scalar '"' :: v ++ [.scalar '"'] ++ rest⟩ =
      ⟨p + 1, v ++ .scalar '"' :: rest⟩ := by
    simp [Cursor.next, Cursor.atEnd, Cursor.advance]
  have hadvance : Cursor.advance ⟨p + 1, v ++ .scalar '"' :: rest⟩ v.length =
      ⟨p + 1 + v.length, .scalar '"' :: rest⟩ := by
    simp [Cursor.advance]
  rw [quotedText_found_iff]
  refine ⟨rfl, value, v.length, n, ?_, ?_, rfl, ?_⟩
  · rw [hnext]
    exact hread'
  · rw [hnext, hadvance]
    simp [Cursor.next, Cursor.atEnd, Cursor.advance]
    omega
  · rw [hnext, hadvance, Cursor.textTo_append, ← hbody.textTo]
    exact hn

/-! ### Words -/

section Words

variable {α : Type} {words : WordList α} {word : Word α}

/-- A word is found again in front of anything, if no other word begins with it. -/
theorem matchAt_append (hwords : words.PrefixFree) (h : words.matchAt c = some (word, next)) :
    ∃ w, c.Passes w next ∧ w ≠ [] ∧ foldRunes w = word.folded ∧ word ∈ words ∧
      ∀ p rest, words.matchAt ⟨p, w ++ rest⟩ = some (word, ⟨p + w.length, rest⟩) := by
  have hpasses := passes_matchAt h
  obtain ⟨hlongest, -⟩ := WordList.matchAt_eq_some h
  obtain ⟨hmem, hstands, -⟩ := WordList.longestAt_spec hlongest
  obtain ⟨hle, hpos, hfold⟩ := WordList.standsAt_iff.1 hstands
  have hlength : word.length = (c.rest.take word.length).length := by
    rw [List.length_take_of_le hle]
  refine ⟨c.rest.take word.length, hpasses, ?_, hfold, hmem, fun p rest => ?_⟩
  · intro hnil
    rw [hnil] at hlength
    exact hpos hlength
  · have hstands' : WordList.standsAt word (c.rest.take word.length ++ rest) = true := by
      rw [WordList.standsAt_append hlength, WordList.standsAt_iff, ← hlength]
      exact ⟨Nat.le_refl _, hpos, by rw [List.take_take, Nat.min_self, hfold]⟩
    rw [WordList.matchAt, hwords.longestAt_eq_some hmem hstands']
    generalize c.rest.take word.length = w at hlength ⊢
    simp [Cursor.advance, hlength]

/-- What a word of ASCII characters is written with are characters. -/
theorem isScalar_of_foldRunes (hsettled : Text.Settled c.rest) (hw : c.Passes w next)
    {folded : Text} (hfold : foldRunes w = folded) (hascii : ∀ b ∈ folded.bytes, b < 0x80) :
    ∀ r ∈ w, r.isScalar = true := by
  intro r hr
  cases hscalar : r.isScalar with
  | true => rfl
  | false =>
    cases r with
    | scalar ch => cases hscalar
    | stray b =>
      refine hscalar.symm.trans (hsettled.isScalar_of_ascii (r := .stray b) ?_ ?_)
      · rw [hw.rest]
        exact List.mem_append_left _ hr
      · intro b' hb'
        rw [← hfold] at hascii
        exact hascii b' (mem_foldRunes hr hb')

end Words

theorem errorLiteral_finds (hsettled : Text.Settled c.rest)
    (h : errorLiteral c = (.found nodes, next)) :
    ∃ v, c.Passes (.scalar '#' :: v) next ∧ (∀ r ∈ v, r.isScalar = true) ∧
      ∀ F, errorLiteral.Finds F nodes (.scalar '#' :: v) := by
  obtain ⟨hcurrent, word, hmatch, rfl⟩ := errorLiteral_found_iff.1 h
  obtain ⟨w, hw, hne, hfold, hmem, hagain⟩ := matchAt_append prefixFree_errorWords hmatch
  have hascii : ∀ u ∈ errorWords, ∀ b ∈ u.folded.bytes, b < 0x80 := by decide +kernel
  have hscalar := isScalar_of_foldRunes hsettled hw hfold (hascii word hmem)
  obtain ⟨r, v, rfl⟩ := List.exists_cons_of_ne_nil hne
  obtain ⟨pos, rest⟩ := c
  have hrest : rest = r :: v ++ next.rest := hw.rest
  subst hrest
  obtain rfl := Rune.eq_scalar_of_value (r := r) hcurrent (by decide)
  refine ⟨v, hw, (List.forall_mem_cons.1 hscalar).2, fun F p rest _ => ?_⟩
  rw [errorLiteral_found_iff, hw.textTo, Cursor.textTo_append]
  exact ⟨rfl, word, hagain p rest, rfl⟩

/-! ### Numbers -/

/-- The leaf of some digits, if there are any. -/
def digitLeaves (v : List Rune) : List Node := if v = [] then [] else [.leaf .digits (.ofRunes v)]

theorem digits_append {v : List Rune} (hv : ∀ r ∈ v, isDigit r.value = true)
    (hrest : Clear isDigit rest) :
    digits ⟨p, v ++ rest⟩ = (digitLeaves v, ⟨p + v.length, rest⟩) := by
  rw [digits, Cursor.skip_append hv hrest]
  by_cases hnil : v = []
  · subst hnil
    simp [digitLeaves]
  · have hlen : v.length ≠ 0 := by simpa using hnil
    simp [digitLeaves, hnil, hlen, Cursor.textTo_append]

theorem digits_eq (c : Cursor) :
    ∃ v, c.Passes v (digits c).2 ∧ (∀ r ∈ v, isDigit r.value = true) ∧
      (digits c).1 = digitLeaves v := by
  obtain ⟨pos, rest⟩ := c
  have hv : ∀ r ∈ rest.takeWhile fun r => isDigit r.value, isDigit r.value = true :=
    fun r hr => (List.mem_takeWhile_imp hr :)
  have happend := digits_append (p := pos) hv
    (@Cursor.clear_dropWhile isDigit rest)
  rw [List.takeWhile_append_dropWhile] at happend
  rw [happend]
  exact ⟨_, ⟨List.takeWhile_append_dropWhile.symm, rfl⟩, hv, rfl⟩

/-- Whether a character is a digit or a point. -/
def isDecimal (ch : Char) : Bool := isDigit ch || ch == '.'

/-- The digits of a number with an optional point in or around them. -/
inductive IsMantissa : List Rune → List Node → Prop
  | whole {v : List Rune} : v ≠ [] → (∀ r ∈ v, isDigit r.value = true) →
      IsMantissa v (digitLeaves v)
  | fraction {u v : List Rune} : u ≠ [] ∨ v ≠ [] → (∀ r ∈ u, isDigit r.value = true) →
      (∀ r ∈ v, isDigit r.value = true) →
      IsMantissa (u ++ .scalar '.' :: v)
        (digitLeaves u ++ [.leaf (.symbol .decimalSeparator) (.ofRunes [.scalar '.'])] ++
          digitLeaves v)

theorem digitLeaves_eq_nil {v : List Rune} : (digitLeaves v).isEmpty = true ↔ v = [] := by
  by_cases h : v = [] <;> simp [digitLeaves, h]

theorem mantissa_eq (h : mantissa '.' c = some (nodes, next)) :
    ∃ v, c.Passes v next ∧ IsMantissa v nodes := by
  simp only [mantissa] at h
  obtain ⟨u, hu, hudigits, huleaves⟩ := digits_eq c
  split at h
  · rename_i point places last hfraction
    simp only [fraction] at hfraction
    split_ifs at hfraction h with hpoint hempty
    obtain ⟨r, rest, hrest, hr⟩ := Cursor.exists_rest_of_current (beq_iff_eq.1 hpoint) (by decide)
    obtain rfl := Rune.eq_scalar_of_value hr (by decide)
    cases hfraction
    obtain ⟨v, hv, hvdigits, hvleaves⟩ := digits_eq (digits c).2.next
    -- The point alone is no mantissa, so there are digits on one side of it.
    have hsome : u ≠ [] ∨ v ≠ [] := by
      rw [huleaves, hvleaves, Bool.and_eq_true, digitLeaves_eq_nil, digitLeaves_eq_nil] at hempty
      exact not_and_or.1 hempty
    cases h
    refine ⟨u ++ .scalar '.' :: v, ?_, ?_⟩
    · simpa using hu.trans ((Cursor.passes_next hrest).trans hv)
    · rw [huleaves, hvleaves, hrest]
      simpa using IsMantissa.fraction hsome hudigits hvdigits
  · split_ifs at h with hempty
    cases h
    rw [huleaves] at hempty ⊢
    exact ⟨u, hu, .whole (fun hnil => hempty (digitLeaves_eq_nil.2 hnil)) hudigits⟩

/-- Digits with a point in or around them are read up to a character that is no digit. -/
theorem mantissa_fraction_append {u v : List Rune} (hne : u ≠ [] ∨ v ≠ [])
    (hu : ∀ r ∈ u, isDigit r.value = true) (hv : ∀ r ∈ v, isDigit r.value = true)
    (hrest : Clear isDigit rest) :
    mantissa '.' ⟨p, u ++ .scalar '.' :: v ++ rest⟩ =
      some (digitLeaves u ++ [.leaf (.symbol .decimalSeparator) (.ofRunes [.scalar '.'])] ++
        digitLeaves v, ⟨p + (u ++ .scalar '.' :: v).length, rest⟩) := by
  have hclear : Clear isDigit (.scalar '.' :: (v ++ rest)) := Cursor.clear_cons.2 (by decide)
  have hnext : Cursor.next ⟨p + u.length, .scalar '.' :: (v ++ rest)⟩ =
      ⟨p + u.length + 1, v ++ rest⟩ := by
    simp [Cursor.next, Cursor.atEnd, Cursor.advance]
  have hfraction : fraction '.' ⟨p + u.length, .scalar '.' :: (v ++ rest)⟩ =
      some ([.leaf (.symbol .decimalSeparator) (.ofRunes [.scalar '.'])], digitLeaves v,
        ⟨p + u.length + 1 + v.length, rest⟩) := by
    simp [fraction, Rune.value, hnext, digits_append hv hrest]
  have hempty : ((digitLeaves u).isEmpty && (digitLeaves v).isEmpty) = false := by
    rw [Bool.eq_false_iff, ne_eq, Bool.and_eq_true, digitLeaves_eq_nil, digitLeaves_eq_nil]
    exact not_and_or.2 hne
  rw [List.append_assoc, List.cons_append, mantissa, digits_append hu hclear]
  simp only [hfraction, hempty, Bool.false_eq_true, if_false, List.length_append,
    List.length_cons]
  simp [Nat.add_assoc, Nat.add_comm 1]

theorem mantissa_append {v : List Rune} (hv : IsMantissa v nodes) (hrest : Clear isDecimal rest) :
    mantissa '.' ⟨p, v ++ rest⟩ = some (nodes, ⟨p + v.length, rest⟩) := by
  have hdigit : Clear isDigit rest := hrest.mono fun ch h => by simp [isDecimal, h]
  have hpoint : Clear (· == '.') rest := hrest.mono (by simp [isDecimal])
  cases hv with
  | whole hne hdigits =>
    have hnot : (Cursor.current ⟨p + v.length, rest⟩ == '.') = false :=
      Cursor.current_eq_false (q := (· == '.')) (by decide) hpoint
    have hfraction : fraction '.' ⟨p + v.length, rest⟩ = none := by simp [fraction, hnot]
    have hfull : (digitLeaves v).isEmpty = false :=
      Bool.eq_false_iff.2 fun h => hne (digitLeaves_eq_nil.1 h)
    simp [mantissa, digits_append hdigits hdigit, hfraction, hfull]
  | fraction hne hu hv => exact mantissa_fraction_append hne hu hv hdigit

/-- An optional sign. -/
inductive IsSign : List Rune → List Node → Prop
  | none : IsSign [] []
  | minus : IsSign [.scalar '-'] [signLeaf .minus '-']
  | plus : IsSign [.scalar '+'] [signLeaf .plus '+']

theorem sign_eq (c : Cursor) :
    ∃ v, c.Passes v (sign '-' '+' c).2 ∧ IsSign v (sign '-' '+' c).1 := by
  unfold sign
  split_ifs with hminus hplus
  · obtain ⟨r, rest, hrest, hr⟩ := Cursor.exists_rest_of_current (beq_iff_eq.1 hminus) (by decide)
    obtain rfl := Rune.eq_scalar_of_value hr (by decide)
    exact ⟨[.scalar '-'], Cursor.passes_next hrest, .minus⟩
  · obtain ⟨r, rest, hrest, hr⟩ := Cursor.exists_rest_of_current (beq_iff_eq.1 hplus) (by decide)
    obtain rfl := Rune.eq_scalar_of_value hr (by decide)
    exact ⟨[.scalar '+'], Cursor.passes_next hrest, .plus⟩
  · exact ⟨[], .refl c, .none⟩

theorem sign_append {v : List Rune} (hv : IsSign v nodes)
    (hrest : Clear (fun ch => ch == '-' || ch == '+') rest) :
    sign '-' '+' ⟨p, v ++ rest⟩ = (nodes, ⟨p + v.length, rest⟩) := by
  cases hv with
  | none =>
    have hnot : (Cursor.current ⟨p, rest⟩ == '-' || Cursor.current ⟨p, rest⟩ == '+') = false :=
      Cursor.current_eq_false (q := fun ch => ch == '-' || ch == '+') (by decide) hrest
    rw [Bool.or_eq_false_iff] at hnot
    simp [sign, hnot.1, hnot.2]
  | minus => simp [sign, Rune.value, Cursor.next, Cursor.atEnd, Cursor.advance]
  | plus => simp [sign, Rune.value, Cursor.next, Cursor.atEnd, Cursor.advance]

/-- An optional exponent. -/
inductive IsExponent : List Rune → List Node → Prop
  | none : IsExponent [] []
  | power {m : Rune} {u v : List Rune} {signs : List Node} : foldRunes [m] = "e" →
      IsSign u signs → v ≠ [] → (∀ r ∈ v, isDigit r.value = true) →
      IsExponent (m :: u ++ v)
        (.leaf (.symbol .exponent) (.ofRunes [m]) :: signs ++ digitLeaves v)

theorem exponent_words : Grammar.american.lexicon.exponent.PrefixFree ∧
    Grammar.american.lexicon.exponent.Unmarked ∧
    ∀ u ∈ Grammar.american.lexicon.exponent, u.length = 1 ∧ u.folded = "e" := by
  unfold WordList.PrefixFree WordList.Unmarked
  decide +kernel

theorem exponent_eq (c : Cursor) :
    ∃ v, c.Passes v (exponent Grammar.american.lexicon.exponent c).2 ∧
      IsExponent v (exponent Grammar.american.lexicon.exponent c).1 := by
  obtain ⟨hfree, -, hword⟩ := exponent_words
  unfold exponent
  split
  · exact ⟨[], .refl c, .none⟩
  · rename_i word afterMark hmatch
    obtain ⟨w, hw, -, hfold, hmem, -⟩ := matchAt_append hfree hmatch
    obtain ⟨hlength, hfolded⟩ := hword word hmem
    -- The exponent of the locale is marked by a single letter.
    obtain ⟨m, rfl⟩ : ∃ m, w = [m] := by
      have hpos := hw.pos
      rw [(WordList.matchAt_eq_some hmatch).2] at hpos
      simp only [Cursor.advance, hlength, Nat.add_left_cancel_iff] at hpos
      exact List.length_eq_one_iff.1 hpos.symm
    obtain ⟨u, hu, hsign⟩ := sign_eq afterMark
    obtain ⟨v, hv, hdigits, hleaves⟩ := digits_eq (sign '-' '+' afterMark).2
    simp only
    split
    · exact ⟨[], .refl c, .none⟩
    · rename_i places last hplaces hdigits'
      rw [hdigits'] at hv hleaves
      refine ⟨m :: u ++ v, by simpa using hw.trans (hu.trans hv), ?_⟩
      rw [hw.textTo]
      simp only at hleaves hplaces ⊢
      subst hleaves
      refine .power (hfold.trans hfolded) hsign (fun hnil => ?_) hdigits
      subst hnil
      exact hplaces rfl

/-- A mark, a sign and digits are read up to a character that is no digit. -/
theorem exponent_power_append {m : Rune} {u v : List Rune} {signs : List Node}
    (hm : foldRunes [m] = "e") (hu : IsSign u signs) (hne : v ≠ [])
    (hv : ∀ r ∈ v, isDigit r.value = true) (hrest : Clear isDigit rest) :
    exponent Grammar.american.lexicon.exponent ⟨p, m :: u ++ v ++ rest⟩ =
      (.leaf (.symbol .exponent) (.ofRunes [m]) :: signs ++ digitLeaves v,
        ⟨p + (m :: u ++ v).length, rest⟩) := by
  obtain ⟨hfree, -, hword⟩ := exponent_words
  obtain ⟨word, hmem⟩ : ∃ word, word ∈ Grammar.american.lexicon.exponent :=
    List.exists_mem_of_ne_nil _ (by decide)
  obtain ⟨hlength, hfolded⟩ := hword word hmem
  have hstands : WordList.standsAt word (m :: (u ++ v ++ rest)) = true := by
    rw [WordList.standsAt_iff, hlength]
    exact ⟨by simp, by simp, hm.trans hfolded.symm⟩
  have hmatch : Grammar.american.lexicon.exponent.matchAt ⟨p, m :: (u ++ v ++ rest)⟩ =
      some (word, ⟨p + 1, u ++ v ++ rest⟩) := by
    rw [WordList.matchAt, hfree.longestAt_eq_some hmem hstands]
    simp [Cursor.advance, hlength]
  have htext : Cursor.textTo ⟨p, m :: (u ++ v ++ rest)⟩ ⟨p + 1, u ++ v ++ rest⟩ =
      .ofRunes [m] := Cursor.textTo_append (w := [m])
  -- Digits follow, so a missing sign stays missing.
  have hclear : Clear (fun ch => ch == '-' || ch == '+') (v ++ rest) := by
    obtain ⟨r, more, rfl⟩ := List.exists_cons_of_ne_nil hne
    have hdigit : isDigit r.value = true := hv r (List.mem_cons_self ..)
    rw [List.cons_append, Cursor.clear_cons, Bool.or_eq_false_iff]
    constructor <;> rw [beq_eq_false_iff_ne] <;> rintro heq <;> rw [heq] at hdigit <;>
      exact absurd hdigit (by decide)
  have hsign : sign '-' '+' ⟨p + 1, u ++ v ++ rest⟩ = (signs, ⟨p + 1 + u.length, v ++ rest⟩) := by
    rw [List.append_assoc]
    exact sign_append hu hclear
  have hleaves : digitLeaves v = [.leaf .digits (.ofRunes v)] := if_neg hne
  rw [List.cons_append, List.cons_append, exponent, hmatch]
  simp only [hsign, digits_append hv hrest, htext, hleaves, List.length_cons, List.length_append,
    List.cons_append]
  simp [Nat.add_assoc, Nat.add_comm 1]

theorem exponent_append {v : List Rune} (hv : IsExponent v nodes) (hrest : Clear isDigit rest)
    (hmark : ∀ r ∈ rest.head?, r.value ∈ markChars) :
    exponent Grammar.american.lexicon.exponent ⟨p, v ++ rest⟩ =
      (nodes, ⟨p + v.length, rest⟩) := by
  cases hv with
  | none =>
    obtain ⟨-, hunmarked, -⟩ := exponent_words
    rw [exponent, List.nil_append, hunmarked.matchAt_eq_none hmark]
    rfl
  | power hm hu hne hv => exact exponent_power_append hm hu hne hv hrest

theorem percents_eq (c : Cursor) :
    ∃ k, c.Passes (List.replicate k (.scalar '%')) (percents '%' c).2 ∧
      (percents '%' c).1 = List.replicate k (signLeaf .percent '%') := by
  have hpasses := c.passes_skip (· == '%')
  have hrun : c.run (· == '%') = List.replicate (c.run (· == '%')).length (.scalar '%') := by
    refine List.eq_replicate_of_mem fun r hr => ?_
    have hvalue := List.mem_takeWhile_imp hr
    exact Rune.eq_scalar_of_value (beq_iff_eq.1 hvalue) (by decide)
  refine ⟨(c.run (· == '%')).length, ?_, ?_⟩
  · rw [← hrun]
    exact hpasses
  · simp only [percents]
    rw [hpasses.pos, Nat.add_sub_cancel_left]

theorem percents_append {k : Nat} (hrest : Clear (· == '%') rest) :
    percents '%' ⟨p, List.replicate k (.scalar '%') ++ rest⟩ =
      (List.replicate k (signLeaf .percent '%'), ⟨p + k, rest⟩) := by
  have hall : ∀ r ∈ List.replicate k (Rune.scalar '%'), (r.value == '%') = true := by
    intro r hr
    rw [List.eq_of_mem_replicate hr]
    rfl
  simp only [percents, Cursor.skip_append (q := (· == '%')) hall hrest, List.length_replicate,
    Nat.add_sub_cancel_left]

theorem IsMantissa.starts {u : List Rune} (h : IsMantissa u nodes) :
    ∃ r v, u = r :: v ∧ isDecimal r.value = true := by
  cases h with
  | whole hne hdigits =>
    obtain ⟨r, v, rfl⟩ := List.exists_cons_of_ne_nil hne
    exact ⟨r, v, rfl, by simp [isDecimal, hdigits r (List.mem_cons_self ..)]⟩
  | @fraction u v _ hu _ =>
    cases u with
    | nil => exact ⟨.scalar '.', v, rfl, rfl⟩
    | cons r u => exact ⟨r, _, rfl, by simp [isDecimal, hu r (List.mem_cons_self ..)]⟩

theorem IsMantissa.isScalar {u : List Rune} (h : IsMantissa u nodes) :
    ∀ r ∈ u, r.isScalar = true := by
  have hdigit {v : List Rune} (hv : ∀ r ∈ v, isDigit r.value = true) : ∀ r ∈ v, r.isScalar = true :=
    fun r hr => Rune.isScalar_of_class (hv r hr) (by decide)
  cases h with
  | whole _ hdigits => exact hdigit hdigits
  | fraction _ hu hv =>
    rw [List.forall_mem_append, List.forall_mem_cons]
    exact ⟨hdigit hu, rfl, hdigit hv⟩

/-- The mark of an exponent is no digit, no point and no other mark. -/
theorem value_exponent_mark {m : Rune} (hm : foldRunes [m] = "e") : m.value ∉ markChars := by
  obtain ⟨-, hunmarked, hword⟩ := exponent_words
  obtain ⟨word, hmem⟩ : ∃ word, word ∈ Grammar.american.lexicon.exponent :=
    List.exists_mem_of_ne_nil _ (by decide)
  exact hunmarked.value_not_mem hmem (hm.trans (hword word hmem).2.symm) m
    (List.mem_singleton_self m)

theorem isDecimal_eq_false {ch : Char} (h : ch ∉ markChars) : isDecimal ch = false := by
  rw [isDecimal, Bool.or_eq_false_iff, Bool.eq_false_iff, beq_eq_false_iff_ne]
  exact ⟨fun hdigit => h (mem_markChars_of_isDigit hdigit), fun heq => h (by rw [heq]; decide)⟩

theorem IsExponent.clear {v : List Rune} (h : IsExponent v nodes) (hrest : Clear isDecimal rest) :
    Clear isDecimal (v ++ rest) := by
  cases h with
  | none => exact hrest
  | power hm => exact Cursor.clear_cons.2 (isDecimal_eq_false (value_exponent_mark hm))

theorem IsSign.isScalar {v : List Rune} (h : IsSign v nodes) : ∀ r ∈ v, r.isScalar = true := by
  cases h <;> simp [Rune.isScalar]

theorem IsExponent.isScalar {v : List Rune} (h : IsExponent v nodes)
    (hsettled : Text.Settled (v ++ rest)) : ∀ r ∈ v, r.isScalar = true := by
  cases h with
  | none => nofun
  | @power m u v signs hm hu _ hv =>
    have hpasses : Cursor.Passes ⟨0, m :: u ++ v ++ rest⟩ [m] ⟨1, u ++ v ++ rest⟩ := ⟨rfl, rfl⟩
    rw [List.forall_mem_append, List.forall_mem_cons]
    refine ⟨⟨?_, hu.isScalar⟩, fun r hr => Rune.isScalar_of_class (hv r hr) (by decide)⟩
    exact isScalar_of_foldRunes hsettled hpasses hm (by decide) m (List.mem_singleton_self m)

theorem IsMantissa.isSolid {u : List Rune} (h : IsMantissa u nodes) : ∀ n ∈ nodes, n.IsSolid := by
  have hdigits (v : List Rune) : ∀ n ∈ digitLeaves v, n.IsSolid := by
    rw [digitLeaves]
    split_ifs <;> simp
  cases h with
  | whole _ _ => exact hdigits _
  | fraction _ _ _ => simpa [or_imp, forall_and] using ⟨hdigits _, hdigits _⟩

theorem IsExponent.isSolid {v : List Rune} (h : IsExponent v nodes) : ∀ n ∈ nodes, n.IsSolid := by
  cases h with
  | none => nofun
  | power _ hu hne _ => cases hu <;> simp [digitLeaves, hne, signLeaf]

/-- The parts of a number are found again in front of any stop. -/
theorem number_append {u v : List Rune} {places power : List Node} {k : Nat} {n : Node}
    (hu : IsMantissa u places) (hv : IsExponent v power)
    (hn : Node.number (places ++ power ++ List.replicate k (signLeaf .percent '%')) = .ok n) :
    (number .american false).Finds Stops [n] (u ++ v ++ List.replicate k (.scalar '%')) := by
  intro p rest hrest
  have hpercent : Clear (· == '%') rest := hrest.clear (by decide)
  -- What stands behind the exponent.
  have hmark : ∀ r ∈ (List.replicate k (Rune.scalar '%') ++ rest).head?, r.value ∈ markChars ∧
      isDecimal r.value = false := by
    cases k with
    | zero => exact fun r hr => ⟨hrest.mem_markChars r hr, hrest.clear (by decide) r hr⟩
    | succ k =>
      intro r hr
      obtain rfl : Rune.scalar '%' = r := by simpa [List.replicate_succ] using hr
      exact ⟨by decide, by decide⟩
  have hclear : Clear isDecimal (List.replicate k (.scalar '%') ++ rest) :=
    fun r hr => (hmark r hr).2
  have hdigit : Clear isDigit (List.replicate k (.scalar '%') ++ rest) := fun r hr =>
    (Bool.or_eq_false_iff.1 (hmark r hr).2).1
  have hlength : p + (u ++ v ++ List.replicate k (Rune.scalar '%')).length =
      p + u.length + v.length + k := by
    rw [List.length_append, List.length_append, List.length_replicate]
    omega
  rw [hlength, List.append_assoc, List.append_assoc, number_found_iff]
  refine ⟨[], _, places, _, power, _, List.replicate k (signLeaf .percent '%'), n, rfl,
    mantissa_append hu (hv.clear hclear), exponent_append hv hdigit fun r hr => (hmark r hr).1,
    percents_append hpercent, ?_, hn, rfl⟩
  exact Bool.and_eq_false_imp.2 fun _ => by decide

/-- A number without a sign is found again in front of any stop. -/
theorem number_finds (hsettled : Text.Settled c.rest)
    (h : number .american false c = (.found nodes, next)) :
    ∃ r v, c.Passes (r :: v) next ∧ isDecimal r.value = true ∧
      (∀ s ∈ r :: v, s.isScalar = true) ∧ (∀ n ∈ nodes, n.IsSolid) ∧
      (number .american false).Finds Stops nodes (r :: v) := by
  obtain ⟨signs, afterSign, places, afterPlaces, power, afterPower, hundredths, n, hsigns, hplaces,
    hpower, hhundredths, -, hn, rfl⟩ := number_found_iff.1 h
  obtain ⟨rfl, rfl⟩ := Prod.mk.inj hsigns
  obtain ⟨u, hu, hmantissa⟩ := mantissa_eq hplaces
  obtain ⟨v, hv, hexponent⟩ := exponent_eq afterPlaces
  rw [hpower] at hv hexponent
  obtain ⟨k, hk, hpercents⟩ := percents_eq afterPower
  rw [show percents '%' afterPower = (hundredths, next) from hhundredths] at hk hpercents
  simp only at hv hexponent hk hpercents
  subst hpercents
  have hall := (hu.trans hv).trans hk
  have hfinds := number_append hmantissa hexponent hn
  -- The mark of the exponent is told by its folded text alone, so the runes have to be settled.
  have hscalar : ∀ s ∈ u ++ v ++ List.replicate k (Rune.scalar '%'), s.isScalar = true := by
    rw [List.forall_mem_append, List.forall_mem_append]
    refine ⟨⟨hmantissa.isScalar, ?_⟩, fun s hs => by rw [List.eq_of_mem_replicate hs]; rfl⟩
    have hsettled' : Text.Settled (v ++ afterPower.rest) := by
      rw [← hv.rest]
      rw [hu.rest] at hsettled
      exact hsettled.of_append
    exact hexponent.isScalar hsettled'
  have hsolid : n.IsSolid := by
    obtain ⟨-, _, -, rfl⟩ := Node.number_eq_ok_iff.1 hn
    simpa [or_imp, forall_and, signLeaf] using ⟨hmantissa.isSolid, hexponent.isSolid⟩
  obtain ⟨r, u, rfl, hr⟩ := hmantissa.starts
  exact ⟨r, _, hall, hr, hscalar, by simpa using hsolid, hfinds⟩

end Rule

end SheetFormula
