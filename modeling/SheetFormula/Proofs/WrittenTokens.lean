import SheetFormula.Expression.Basic
import SheetFormula.Proofs.Decimals
import SheetFormula.Proofs.Derivation
import SheetFormula.Proofs.Evaluation

/-!
# The tokens that values and references are written as

An expression keeps of a token what it stands for, and writes that in one way: booleans, columns and
the texts of errors in capital letters, rows without zeros in front, numbers with all their digits
and no exponent, and text with its quotes doubled.  Each is a token again and stands for the same.
-/

namespace SheetFormula

open Cursor (Clear)

/-! ### The value of the leaves of a number -/

/-- Every digit takes one byte. -/
theorem Text.size_ofChars {cs : List Char} (h : ∀ c ∈ cs, isDigit c = true) :
    (Text.ofChars cs).size = cs.length := by
  have hone : ∀ c ∈ cs, (String.utf8EncodeChar c).length = 1 := by
    have hall : ∀ c ∈ digitChars, (String.utf8EncodeChar c).length = 1 := by decide
    exact fun c hc => hall c (mem_digitChars (h c hc))
  rw [size, ofChars, List.length_flatMap, List.map_congr_left hone]
  simp

namespace NumberReading

variable {r r' : NumberReading} {child : Node}

/-- The digits of a number have begun, and there was no minus sign in front of them. -/
structure IsUnsigned (r : NumberReading) : Prop where
  negative : r.negative = false
  begun : (r.digitsSeen || r.inFraction || r.inExponent) = true

theorem IsUnsigned.readSign {minus : Bool} {t : Text} (h : r.IsUnsigned)
    (hr : r.readSign minus t = .ok r') : r'.IsUnsigned := by
  obtain ⟨hnegative, hbegun⟩ := h
  unfold NumberReading.readSign at hr
  split_ifs at hr with hexponent hfront
  · cases hr
    exact ⟨hnegative, hbegun⟩
  · simp_all

theorem IsUnsigned.readDigits {t : Text} (h : r.IsUnsigned) (hr : r.readDigits t = .ok r') :
    r'.IsUnsigned := by
  obtain ⟨hnegative, hbegun⟩ := h
  unfold NumberReading.readDigits at hr
  split_ifs at hr with hexponent hbad hfraction
  · split at hr
    · cases hr
      exact ⟨hnegative, rfl⟩
    · cases hr
  · cases hr
    exact ⟨hnegative, rfl⟩
  · cases hr
    exact ⟨hnegative, rfl⟩

theorem IsUnsigned.read (h : r.IsUnsigned) (hr : r.read child = .ok r') : r'.IsUnsigned := by
  have hbegun := h.begun
  unfold NumberReading.read at hr
  split at hr
  · exact h.readSign hr
  · exact h.readSign hr
  · exact h.readDigits hr
  · split_ifs at hr
    cases hr
    exact ⟨h.negative, by simp⟩
  · split_ifs at hr
    cases hr
    exact ⟨h.negative, by simp⟩
  · cases hr
    exact ⟨h.negative, hbegun⟩
  · cases hr

/-- The children behind the first digits of a number do not make it negative. -/
theorem IsUnsigned.negative_of_value {children : List Node} {d : Decimal} (h : r.IsUnsigned)
    (hd : (children.foldlM NumberReading.read r >>= value) = .ok d) : d.negative = false := by
  induction children generalizing r with
  | nil =>
    have hvalue : r.value = .ok d := hd
    unfold value at hvalue
    split at hvalue
    · cases hvalue
    · dsimp only at hvalue
      split at hvalue
      · cases hvalue
        simp [h.negative]
      · cases hvalue
  | cons child children ih =>
    rw [List.foldlM_cons, bind_assoc] at hd
    obtain ⟨r', hr', hd⟩ := bind_eq_ok_iff.1 hd
    exact ih (h.read hr') hd

/-- The number that digits and an exponent spell, if it is not too large or too small for one. -/
theorem value_eq {ds : List Char} {e : Int} (hdigits : r.digits = .ofChars ds) (hne : ds ≠ [])
    (hds : ∀ c ∈ ds, isDigit c = true) (hexponent : (r.inExponent && r.exponent?.isNone) = false)
    (htotal : r.totalExponent = e) (hlow : -2 ^ 31 ≤ e) (hhigh : e < 2 ^ 31) :
    r.value =
      if Decimal.inRange (digitsValue ds) e then
        .ok ⟨r.negative && digitsValue ds != 0, digitsValue ds, e⟩
      else .error (.decimal .exponentOutOfRange) := by
  have hfull : (Text.ofChars ds).isEmpty = false := by
    have hsize := Text.size_ofChars hds
    rw [Text.isEmpty, List.isEmpty_eq_false_iff, ← List.length_pos_iff]
    show 0 < (Text.ofChars ds).size
    rw [hsize]
    exact List.length_pos_iff.2 hne
  unfold value
  rw [hexponent, hdigits, htotal, hfull]
  simp only [Bool.false_eq_true, if_false, Decimal.parse_digits hne hds hlow hhigh,
    Decimal.withExponents_singleton]
  by_cases hrange : Decimal.inRange (digitsValue ds) e = true
  · simp only [if_pos hrange]
  · simp only [if_neg hrange]

/-- The number that digits spell, with the point that has been read among them. -/
theorem value_eq_ok {ds : List Char} {k : Nat} (hdigits : r.digits = .ofChars ds) (hne : ds ≠ [])
    (hds : ∀ c ∈ ds, isDigit c = true) (hnegative : r.negative = false)
    (hexponent : r.inExponent = false) (htotal : r.totalExponent = -k)
    (hk : (k : Int) ≤ Decimal.exponentLimit) (hlength : (ds.length : Int) ≤ Decimal.exponentLimit) :
    r.value = .ok ⟨false, digitsValue ds, -k⟩ := by
  have hbound : (k : Int) ≤ 100000 := hk
  rw [value_eq hdigits hne hds (by rw [hexponent]; rfl) htotal (by omega) (by omega),
    if_pos (Decimal.inRange_digitsValue hne hds hk hlength), hnegative]
  rfl

end NumberReading

namespace Rule

variable {n : Node} {w : List Rune} {nodes : List Node} {next : Cursor}

/-- What one of the rules for tokens finds up to the end of some runes is a token. -/
theorem isToken_of_finds (h : FindsToken ⟨0, w⟩ [n] ⟨w.length, []⟩) (hw : Text.Settled w) :
    IsToken n w := by
  obtain ⟨m, v, hnodes, hv, hm⟩ := h.readsToken hw
  obtain rfl := (List.cons.inj hnodes).1
  have hall : Cursor.Passes ⟨0, w⟩ w ⟨w.length, []⟩ :=
    ⟨(List.append_nil w).symm, (Nat.zero_add _).symm⟩
  rwa [hall.unique hv]

/-! ### Errors and booleans -/

/-- The text of every error is found as the error. -/
theorem errorWords_text : ∀ u ∈ errorWords,
    WordList.standsAt u u.meaning.defaultMessage.runes = true ∧
    u.meaning.defaultMessage.runes.length = u.length ∧
    Cursor.current ⟨0, u.meaning.defaultMessage.runes⟩ = '#' := by
  decide +kernel

theorem isToken_error {u : Word ErrorCode} (hu : u ∈ errorWords) :
    IsToken (.leaf (.error u.meaning) u.meaning.defaultMessage) u.meaning.defaultMessage.runes := by
  obtain ⟨hstands, hlength, hmark⟩ := errorWords_text u hu
  have hmatch : errorWords.matchAt ⟨0, u.meaning.defaultMessage.runes⟩ =
      some (u, ⟨u.meaning.defaultMessage.runes.length, []⟩) := by
    rw [WordList.matchAt, prefixFree_errorWords.longestAt_eq_some hu hstands]
    simp [Cursor.advance, ← hlength]
  refine isToken_of_finds (.inr (.inl ?_)) (Text.settled_runes _)
  rw [errorLiteral_found_iff]
  exact ⟨hmark, u, hmatch, by simp [Cursor.textTo]⟩

theorem isToken_boolean (b : Bool) :
    IsToken (.leaf (.boolean b) (Value.boolean b).written) (Value.boolean b).written.runes := by
  refine isToken_of_finds (.inr (.inr (.inr (.inl ?_)))) (Text.settled_runes _)
  cases b <;> rfl

/-! ### References -/

/-- The runes that a cell is written with. -/
theorem isCellText_written (cell : Cell) : ∃ a letters b digits, IsCellText a letters b digits ∧
    letters.length ≤ 3 ∧ .ofRunes (a ++ letters) = cell.column.text ∧
      .ofRunes (b ++ digits) = cell.row.text := by
  have hmark (absolute : Bool) : IsAbsolute ((absoluteMark absolute).map .scalar) := by
    cases absolute
    · exact .inl rfl
    · exact .inr rfl
  have hcapital : ∀ n < 26, isLetter (capitalLetter n) = true := by decide
  refine ⟨(absoluteMark cell.column.absolute).map .scalar,
    (columnLetters cell.column.number).map .scalar, (absoluteMark cell.row.absolute).map .scalar,
    (Nat.toDigits 10 cell.row.number).map .scalar, ⟨hmark _, hmark _, ?_, ?_, ?_, ?_⟩, ?_, ?_, ?_⟩
  · simpa using columnLetters_ne_nil cell.column
  · refine List.forall_mem_map.2 fun ch hch => ?_
    obtain ⟨k, hk, rfl⟩ := mem_columnLetters hch
    exact hcapital k hk
  · simp [Nat.toDigits_ne_nil]
  · exact List.forall_mem_map.2 fun ch hch => isDigit_of_mem_toDigits hch
  · rw [List.length_map]
    exact length_columnLetters_le _
  · rw [← List.map_append, Text.ofRunes_map_scalar]
    rfl
  · rw [← List.map_append, Text.ofRunes_map_scalar]
    rfl

/-- Where a column of at most three letters stands in front of a row, no boolean stands. -/
theorem boolean_absent_of_cellText {a letters b digits rest : List Rune} {p : Nat}
    (h : IsCellText a letters b digits) (hlength : letters.length ≤ 3) :
    boolean ⟨p, a ++ letters ++ (b ++ digits) ++ rest⟩ =
      (.absent, ⟨p, a ++ letters ++ (b ++ digits) ++ rest⟩) := by
  -- One of the first four runes is no letter, and no boolean is shorter.
  obtain ⟨front, r, back, hsplit, hfront, hr⟩ : ∃ front r back,
      a ++ letters ++ (b ++ digits) ++ rest = front ++ r :: back ∧ front.length ≤ 3 ∧
        r.value ∈ markChars := by
    rcases h.columnSign with rfl | rfl
    · obtain ⟨r, more, hmore, hr⟩ : ∃ r more, b ++ digits = r :: more ∧ r.value ∈ markChars := by
        rcases h.rowSign with rfl | rfl
        · obtain ⟨r, more, rfl⟩ := List.exists_cons_of_ne_nil h.digits_ne
          exact ⟨r, more, rfl, mem_markChars_of_isDigit (h.digits r (List.mem_cons_self ..))⟩
        · exact ⟨.scalar '$', digits, rfl, by decide⟩
      exact ⟨letters, r, more ++ rest, by simp [hmore], hlength, hr⟩
    · exact ⟨[], .scalar '$', letters ++ (b ++ digits) ++ rest, by simp, Nat.zero_le _, by decide⟩
  have hlong : ∀ u ∈ booleanWords, 4 ≤ u.length := by decide
  have hnone : booleanWords.matchAt ⟨p, front ++ r :: back⟩ = none := by
    rw [WordList.matchAt, WordList.longestAt_eq_none_iff.2]
    · rfl
    intro u hu
    rw [Bool.eq_false_iff]
    intro hstands
    obtain ⟨-, -, hfold⟩ := WordList.standsAt_iff.1 hstands
    refine unmarked_booleanWords.value_not_mem hu hfold r ?_ hr
    obtain ⟨k, hk⟩ : ∃ k, u.length - front.length = k + 1 := by
      have := hlong u hu
      exact ⟨u.length - front.length - 1, by omega⟩
    rw [List.take_append, hk, List.take_succ_cons]
    simp
  rw [hsplit, boolean, WordList.matchWhole, hnone]
  rfl

/-- A cell is found where it is written, and no boolean is found there. -/
theorem cell_finds_written (cell : Cell) : ∃ children w, cell.text = .ofRunes w ∧
    (∀ r ∈ w, r.isScalar = true) ∧
    (∀ p rest, boolean ⟨p, w ++ rest⟩ = (.absent, ⟨p, w ++ rest⟩)) ∧
    Rule.cell.Finds (Clear isNamePart) [.parent (.cell cell) children] w ∧
      ∀ s, (Node.parent (.cell cell) children).expressions s = .ok [.reference (.cell cell)] := by
  obtain ⟨a, letters, b, digits, htext, hlength, hcolumn, hrow⟩ := isCellText_written cell
  obtain ⟨-, -, -, -, hparts⟩ := htext.isReferenceText
  refine ⟨[.leaf (.column cell.column) (.ofRunes (a ++ letters)),
    .leaf (.row cell.row) (.ofRunes (b ++ digits))], a ++ letters ++ (b ++ digits), ?_,
    fun r hr => Rune.isScalar_of_class (hparts r hr) (by decide),
    fun _ _ => boolean_absent_of_cellText htext hlength, ?_, fun s => rfl⟩
  · rw [Text.ofRunes_append, hcolumn, hrow]
    rfl
  · exact cell_append htext (hcolumn ▸ cell.column.parse_text) (hrow ▸ cell.row.parse_text) rfl

theorem isToken_cell (cell : Cell) : ∃ n w, cell.text = .ofRunes w ∧ IsToken n w ∧
    ∀ s, n.expressions s = .ok [.reference (.cell cell)] := by
  obtain ⟨children, w, htext, hscalar, habsent, hfinds, hmakes⟩ := cell_finds_written cell
  have hfound := hfinds (p := 0) Cursor.clear_nil
  have hboolean := habsent 0 []
  rw [List.append_nil] at hfound hboolean
  rw [Nat.zero_add] at hfound
  exact ⟨_, w, htext, isToken_of_finds (.inr (.inr (.inr (.inr ⟨hboolean, .inr (.inl hfound)⟩))))
    (Text.sealed_of_isScalar hscalar).settled, hmakes⟩

theorem isToken_cellRange (range : CellRange) : ∃ n w, range.text = .ofRunes w ∧ IsToken n w ∧
    ∀ s, n.expressions s = .ok [.reference (.range range)] := by
  obtain ⟨_, v, hv, hvscalar, habsent, hfirst, hfirstMakes⟩ := cell_finds_written range.first
  obtain ⟨_, w, hw, hwscalar, -, hlast, hlastMakes⟩ := cell_finds_written range.last
  have hfound := cellRange_append hfirst hlast rfl (p := 0) Cursor.clear_nil
  have hboolean := habsent 0 (.scalar ':' :: w)
  have hscalar : ∀ r ∈ v ++ .scalar ':' :: w, r.isScalar = true :=
    List.forall_mem_append.2 ⟨hvscalar, List.forall_mem_cons.2 ⟨rfl, hwscalar⟩⟩
  rw [List.append_nil, Nat.zero_add] at hfound
  refine ⟨_, v ++ .scalar ':' :: w, ?_, isToken_of_finds
    (.inr (.inr (.inr (.inr ⟨hboolean, .inl hfound⟩)))) (Text.sealed_of_isScalar hscalar).settled,
    fun s => ?_⟩
  · rw [CellRange.text, hv, hw]
    exact (Text.join_map_ofRunes [v, [.scalar ':'], w]).trans (by simp)
  · refine Node.expressions_parent_eq_ok_iff.2
      ⟨[.reference (.cell range.first), .reference (.cell range.last)], ?_, rfl⟩
    rw [Node.expressionsOfAll_cons_eq_ok_iff]
    refine ⟨_, _, hfirstMakes s, ?_, rfl⟩
    rw [Node.expressionsOfAll_cons_leaf rfl, Node.expressionsOfAll_cons_eq_ok_iff]
    exact ⟨_, [], hlastMakes s, rfl, rfl⟩

/-! ### Quoted text -/

/-- Bytes with the quotes among them doubled. -/
def doubleQuotes (bs : List UInt8) : List UInt8 :=
  bs.flatMap fun b => if b = 34 then [34, 34] else [b]

theorem doubleQuotes_eq_self {bs : List UInt8} (h : 34 ∉ bs) : doubleQuotes bs = bs := by
  induction bs with
  | nil => rfl
  | cons b bs ih =>
    rw [List.mem_cons, not_or] at h
    show (if b = 34 then [34, 34] else [b]) ++ doubleQuotes bs = _
    rw [if_neg (Ne.symm h.1), ih h.2]
    rfl

/-- Only the quote has the byte of a quote in it. -/
theorem eq_quote_of_mem_bytes {c : Char} (h : 34 ∈ String.utf8EncodeChar c) : c = '"' := by
  have hmem : (34 : UInt8).toNat ∈ (String.utf8EncodeChar c).map UInt8.toNat :=
    List.mem_map_of_mem h
  rw [Text.toNat_utf8EncodeChar] at hmem
  have hcode : c.toNat = 34 := by
    split_ifs at hmem
    · simpa [eq_comm] using hmem
    all_goals simp at hmem
  exact Char.toNat_inj.1 hcode

theorem value_of_mem_bytes {rest : List Rune} (hrest : Text.Settled rest) {r : Rune} (hr : r ∈ rest)
    (h : 34 ∈ r.bytes) : r.value = '"' := by
  cases r with
  | scalar c => exact eq_quote_of_mem_bytes h
  | stray b =>
    obtain rfl : 34 = b := List.mem_singleton.1 h
    exact absurd (hrest.isScalar_of_ascii hr (by simp [Rune.bytes])) (by decide)

/-- What is read between quotes, with its quotes doubled, is what was written there. -/
theorem readQuoted_eq_ok {value rest v : List Rune} {count k : Nat} (hrest : Text.Settled rest)
    (h : readQuoted value count rest = .ok (v, k)) :
    ∃ w tail, rest = w ++ tail ∧ k = count + w.length ∧
      doubleQuotes (Text.ofRunes v).bytes =
        doubleQuotes (Text.ofRunes value.reverse).bytes ++ (Text.ofRunes w).bytes := by
  have hreverse (r : Rune) (value : List Rune) :
      doubleQuotes (Text.ofRunes (r :: value).reverse).bytes =
        doubleQuotes (Text.ofRunes value.reverse).bytes ++ doubleQuotes r.bytes := by
    simp [doubleQuotes, Text.ofRunes]
  fun_induction readQuoted value count rest with
  | case1 => cases h
  | case2 value count r hr s rest hs ih =>
    obtain ⟨w, tail, rfl, rfl, hread⟩ := ih hrest.tail.tail h
    obtain rfl := Rune.eq_scalar_of_value hr (by decide)
    obtain rfl := Rune.eq_scalar_of_value hs (by decide)
    refine ⟨.scalar '"' :: .scalar '"' :: w, tail, rfl, by simp; omega, ?_⟩
    rw [hread, hreverse, List.append_assoc]
    rfl
  | case3 value count r hr s rest hs =>
    cases h
    exact ⟨[], _, rfl, rfl, (List.append_nil _).symm⟩
  | case4 value count r hr =>
    cases h
    exact ⟨[], _, rfl, rfl, (List.append_nil _).symm⟩
  | case5 value count r rest hr ih =>
    obtain ⟨w, tail, rfl, rfl, hread⟩ := ih hrest.tail h
    -- A byte 34 in a rune that is no quote would be a quote of its own.
    have hplain : 34 ∉ r.bytes := fun hmem =>
      hr (value_of_mem_bytes hrest (List.mem_cons_self ..) hmem)
    refine ⟨r :: w, tail, rfl, by simp; omega, ?_⟩
    rw [hread, hreverse, doubleQuotes_eq_self hplain, List.append_assoc]
    rfl

/-- A quoted text is written again as it was. -/
theorem quoteText_of_isToken (h : IsToken n w) (hfound : quotedText ⟨0, w⟩ = (.found [n], next)) :
    ∃ value children, n = .parent (.text value) children ∧ Value.quoteText value = .ofRunes w := by
  obtain ⟨hquote, value, count, m, hread, -, hnodes, hm⟩ := quotedText_found_iff.1 hfound
  obtain rfl := (List.cons.inj hnodes).1
  obtain ⟨r, v, rfl, hr⟩ : ∃ r v, w = r :: v ∧ r.value = '"' :=
    Cursor.exists_rest_of_current hquote (by decide)
  have hinside : Cursor.next ⟨0, r :: v⟩ = ⟨1, v⟩ := by
    simp [Cursor.next, Cursor.atEnd, Cursor.advance]
  rw [hinside] at hread hm
  obtain ⟨u, tail, rfl, rfl, hbytes⟩ := readQuoted_eq_ok h.sealed.settled.tail hread
  obtain ⟨-, literal, hliteral, rfl⟩ := Node.quotation_eq_ok_iff.1 hm
  obtain rfl : some (.ofRunes value) = literal := Except.ok.inj hliteral
  have hadvance : Cursor.advance ⟨1, u ++ tail⟩ (0 + u.length) = ⟨1 + u.length, tail⟩ := by
    simp [Cursor.advance]
  refine ⟨_, _, rfl, ?_⟩
  rw [← h.spells, hadvance, Cursor.textTo_append]
  show (⟨34 :: doubleQuotes (Text.ofRunes value).bytes ++ [34]⟩ : Text) = _
  rw [hbytes]
  rfl

/-! ### Numbers -/

variable {u : List Rune} {places : List Node}

/-- The first leaf of a number is of digits or the point. -/
theorem IsMantissa.first (hu : IsMantissa u places) : ∃ child children, places = child :: children ∧
    ∃ r, NumberReading.read {} child = .ok r ∧ r.IsUnsigned := by
  cases hu with
  | whole hne _ => exact ⟨_, [], if_neg hne, _, rfl, rfl, rfl⟩
  | @fraction u v _ _ _ =>
    by_cases hnil : u = []
    · subst hnil
      exact ⟨_, _, rfl, _, rfl, rfl, rfl⟩
    · rw [digitLeaves, if_neg hnil]
      exact ⟨_, _, rfl, _, rfl, rfl, rfl⟩

theorem negative_of_isMantissa {d : Decimal} {more : List Node} (hu : IsMantissa u places)
    (hd : numberValue (places ++ more) = .ok d) : d.negative = false := by
  obtain ⟨child, children, rfl, r, hread, hunsigned⟩ := hu.first
  rw [List.cons_append, numberValue, List.foldlM_cons, bind_assoc, hread] at hd
  exact hunsigned.negative_of_value hd

/-- Digits alone are read as the number they spell. -/
theorem numberValue_whole {ds : List Char} (hne : ds ≠ []) (hds : ∀ c ∈ ds, isDigit c = true)
    (hlength : (ds.length : Int) ≤ Decimal.exponentLimit) :
    numberValue (digitLeaves (ds.map .scalar)) = .ok ⟨false, digitsValue ds, 0⟩ := by
  have hleaves : digitLeaves (ds.map .scalar) = [.leaf .digits (.ofChars ds)] := by
    rw [digitLeaves, if_neg (by simpa using hne), Text.ofRunes_map_scalar]
  rw [hleaves]
  exact NumberReading.value_eq_ok (k := 0) (r := { digits := .ofChars ds, digitsSeen := true }) rfl
    hne hds rfl rfl rfl (by decide) hlength

/-- Every digit behind the point lowers the exponent by one. -/
theorem numberValue_fraction {ds es : List Char} (hne : ds ≠ []) (hne' : es ≠ [])
    (hds : ∀ c ∈ ds, isDigit c = true) (hes : ∀ c ∈ es, isDigit c = true)
    (hlength : ((ds ++ es).length : Int) ≤ Decimal.exponentLimit) :
    numberValue (digitLeaves (ds.map .scalar) ++
        [.leaf (.symbol .decimalSeparator) (.ofRunes [.scalar '.'])] ++
        digitLeaves (es.map .scalar)) =
      .ok ⟨false, digitsValue (ds ++ es), -es.length⟩ := by
  have hleaves {cs : List Char} (hcs : cs ≠ []) :
      digitLeaves (cs.map .scalar) = [.leaf .digits (.ofChars cs)] := by
    rw [digitLeaves, if_neg (by simpa using hcs), Text.ofRunes_map_scalar]
  -- What has been read when the digits behind the point have been.
  let r : NumberReading :=
    { digits := .ofChars ds ++ .ofChars es
      digitsSeen := true
      inFraction := true
      fraction := 0 + (Text.ofChars es).size }
  have hdigits : r.digits = .ofChars (ds ++ es) := by
    simp [r, Text.ofChars]
    rfl
  have htotal : r.totalExponent = -es.length := by
    simp [r, NumberReading.totalExponent, Text.size_ofChars hes]
  rw [hleaves hne, hleaves hne']
  refine NumberReading.value_eq_ok (r := r) hdigits ?_ ?_ rfl rfl htotal ?_ hlength
  · simp [hne]
  · exact List.forall_mem_append.2 ⟨hds, hes⟩
  · rw [List.length_append] at hlength
    omega

theorem IsMantissa.expressionsOfAll (hu : IsMantissa u places) (s : Settings) :
    Node.expressionsOfAll s places = .ok [] := by
  have hdigits (v : List Rune) (ns : List Node) :
      Node.expressionsOfAll s (digitLeaves v ++ ns) = Node.expressionsOfAll s ns := by
    unfold digitLeaves
    split_ifs
    · rfl
    · exact Node.expressionsOfAll_cons_leaf rfl
  cases hu with
  | whole _ _ =>
    rw [← List.append_nil (digitLeaves u), hdigits]
    rfl
  | @fraction u v _ _ _ =>
    rw [List.append_assoc, hdigits, List.singleton_append, Node.expressionsOfAll_cons_leaf rfl,
      ← List.append_nil (digitLeaves v), hdigits]
    rfl

/-- The digits of a number with an optional point among them are a token of the value they have. -/
theorem isToken_of_isMantissa {d : Decimal} (hu : IsMantissa u places)
    (hd : numberValue places = .ok d) : IsToken (.parent (.number d) places) u := by
  have hnumber : Node.number (places ++ [] ++ List.replicate 0 (signLeaf .percent '%')) =
      .ok (.parent (.number d) places) := by
    simp only [List.append_nil, List.replicate_zero]
    refine Node.number_eq_ok_iff.2 ⟨?_, d, hd, rfl⟩
    rintro rfl
    obtain ⟨_, _, hfirst, -⟩ := hu.first
    cases hfirst
  have hfound := number_append hu .none hnumber (p := 0) stops_nil
  simp only [List.append_nil, List.replicate_zero, Nat.zero_add] at hfound
  exact isToken_of_finds (.inr (.inr (.inl hfound))) (Text.sealed_of_isScalar hu.isScalar).settled

/-- A decimal that is not negative is written as a number token of the same value. -/
theorem isToken_decimal {d : Decimal} (h : d.negative = false) :
    ∃ w, d.plain = .ofRunes w ∧ (∀ r ∈ w, r.isScalar = true) ∧
      ((w.length : Int) ≤ Decimal.exponentLimit →
        (Decimal.digitCount d.spread.coefficient : Int) ≤ Decimal.exponentLimit ∧
          ∃ n, IsToken n w ∧ ∀ s v, s.numberValue n.text d.spread = .ok v →
            n.expressions s = .ok [.value v]) := by
  have hscalar {ds : List Char} (hds : ∀ c ∈ ds, isDigit c = true) :
      ∀ r ∈ ds.map Rune.scalar, isDigit r.value = true := List.forall_mem_map.2 hds
  have hmakes {u : List Rune} {places : List Node} (hu : IsMantissa u places) (s : Settings)
      (v : Value)
      (hv : s.numberValue (Node.parent (.number d.spread) places).text d.spread = .ok v) :
      (Node.parent (.number d.spread) places).expressions s = .ok [.value v] :=
    Node.expressions_parent_eq_ok_iff.2
      ⟨[], hu.expressionsOfAll s, bind_eq_ok_iff.2 ⟨v, hv, rfl⟩⟩
  rcases Decimal.plain_cases h with ⟨ds, hne, hds, htext, hspread⟩ |
    ⟨ds, es, hne, hne', hds, hes, htext, hspread⟩
  · -- Without a point
    have hmantissa : IsMantissa (ds.map .scalar) (digitLeaves (ds.map .scalar)) :=
      .whole (by simpa using hne) (hscalar hds)
    refine ⟨ds.map .scalar, by rw [htext, Text.ofRunes_map_scalar], hmantissa.isScalar,
      fun hlength => ?_⟩
    rw [List.length_map] at hlength
    have hvalue := numberValue_whole hne hds hlength
    rw [← hspread] at hvalue
    refine ⟨?_, _, isToken_of_isMantissa hmantissa hvalue, hmakes hmantissa⟩
    rw [hspread]
    exact Int.le_trans (by exact_mod_cast Decimal.digitCount_digitsValue hne hds) hlength
  · -- With digits on both sides of a point
    have hmantissa : IsMantissa (ds.map .scalar ++ .scalar '.' :: es.map .scalar)
        (digitLeaves (ds.map .scalar) ++
          [.leaf (.symbol .decimalSeparator) (.ofRunes [.scalar '.'])] ++
          digitLeaves (es.map .scalar)) :=
      .fraction (.inl (by simpa using hne)) (hscalar hds) (hscalar hes)
    refine ⟨_, ?_, hmantissa.isScalar, fun hlength => ?_⟩
    · rw [htext, ← Text.ofRunes_map_scalar, List.map_append, List.map_cons]
    have hall : ((ds ++ es).length : Int) ≤ Decimal.exponentLimit := by
      simp only [List.length_append, List.length_map, List.length_cons] at hlength ⊢
      omega
    have hvalue := numberValue_fraction hne hne' hds hes hall
    rw [← hspread] at hvalue
    refine ⟨?_, _, isToken_of_isMantissa hmantissa hvalue, hmakes hmantissa⟩
    rw [hspread]
    have hcount : Decimal.digitCount (digitsValue (ds ++ es)) ≤ (ds ++ es).length :=
      Decimal.digitCount_digitsValue (by simp [hne]) (List.forall_mem_append.2 ⟨hds, hes⟩)
    exact Int.le_trans (by exact_mod_cast hcount) hall

/-- A number that is no date and has no sign is not negative. -/
theorem negative_of_number {c next : Cursor} {nodes : List Node}
    (h : number .american false c = (.found nodes, next)) :
    ∃ d children, nodes = [.parent (.number d) children] ∧ d.negative = false := by
  obtain ⟨signs, afterSign, places, afterPlaces, power, afterPower, hundredths, n, hsigns, hplaces,
    -, -, -, hn, rfl⟩ := number_found_iff.1 h
  obtain ⟨rfl, rfl⟩ := Prod.mk.inj hsigns
  obtain ⟨u, -, hu⟩ := mantissa_eq hplaces
  obtain ⟨-, d, hd, rfl⟩ := Node.number_eq_ok_iff.1 hn
  rw [List.nil_append, List.append_assoc] at hd
  exact ⟨d, _, rfl, negative_of_isMantissa hu hd⟩

/-! ### Names of functions -/

theorem asciiUpper_of_capital {ch : Char} (h : 'A' ≤ ch ∧ ch ≤ 'Z') : asciiUpper ch = ch := by
  rw [asciiUpper, if_neg]
  rw [Char.le_def, Char.le_def, UInt32.le_iff_toNat_le, UInt32.le_iff_toNat_le] at h ⊢
  have h0 : 'a'.val.toNat = 97 := rfl
  have h1 : 'Z'.val.toNat = 90 := rfl
  omega

theorem asciiUpper_cases (ch : Char) :
    asciiUpper ch = ch ∨ 'A' ≤ asciiUpper ch ∧ asciiUpper ch ≤ 'Z' := by
  by_cases hsmall : 'a' ≤ ch ∧ ch ≤ 'z'
  · right
    have hbounds : 97 ≤ ch.toNat ∧ ch.toNat ≤ 122 := by
      simpa [Char.le_def, UInt32.le_iff_toNat_le] using hsmall
    have hcode : (Char.ofNat (ch.toNat - 32)).toNat = ch.toNat - 32 :=
      Text.toNat_ofNat_of_valid (.inl (by omega))
    rw [asciiUpper, if_pos hsmall, Char.le_def, Char.le_def, UInt32.le_iff_toNat_le,
      UInt32.le_iff_toNat_le]
    show 65 ≤ (Char.ofNat (ch.toNat - 32)).toNat ∧ (Char.ofNat (ch.toNat - 32)).toNat ≤ 90
    omega
  · exact .inl (if_neg hsmall)

theorem asciiUpper_asciiUpper (ch : Char) : asciiUpper (asciiUpper ch) = asciiUpper ch := by
  rcases asciiUpper_cases ch with heq | hcapital
  · rw [heq, heq]
  · exact asciiUpper_of_capital hcapital

/-- A class with all letters in it has the capital letter of every small one. -/
theorem class_asciiUpper {q : Char → Bool} {ch : Char} (hq : ∀ ch, isLetter ch = true → q ch = true)
    (h : q ch = true) : q (asciiUpper ch) = true := by
  rcases asciiUpper_cases ch with heq | hcapital
  · rwa [heq]
  · exact hq _ (by simp [isLetter, hcapital])

/-- The name of a function in capital letters. -/
structure IsCapitalName (g : List Rune) : Prop where
  name : IsFunctionName g
  scalar : ∀ r ∈ g, r.isScalar = true
  capital : upperCase (.ofRunes g) = .ofRunes g

/-- In capital letters the name of a function is a name again. -/
theorem exists_capitalName {f : List Rune} (hf : IsFunctionName f) :
    ∃ g, upperCase (.ofRunes f) = .ofRunes g ∧ IsCapitalName g := by
  obtain ⟨cs, rfl⟩ : ∃ cs : List Char, f = cs.map .scalar :=
    ⟨_, Text.eq_map_scalar fun r hr => Rune.isScalar_of_class (hf.parts r hr) (by decide)⟩
  obtain ⟨⟨r, v, hstart, hletter⟩, hparts⟩ := hf
  refine ⟨(cs.map asciiUpper).map .scalar, ?_, ⟨?_, ?_⟩, ?_, ?_⟩
  · rw [upperCase, Text.ofRunes_map_scalar, Text.chars_ofChars, Text.ofRunes_map_scalar]
  · obtain ⟨c, ds, rfl⟩ : ∃ c ds, cs = c :: ds := by
      cases cs with
      | nil => cases hstart
      | cons c ds => exact ⟨c, ds, rfl⟩
    obtain ⟨rfl, -⟩ := List.cons.inj hstart
    exact ⟨_, _, rfl, class_asciiUpper (fun _ h => h) hletter⟩
  · simp only [List.forall_mem_map] at hparts ⊢
    exact fun c hc => class_asciiUpper (fun _ h => by simp [isLabelPart, h]) (hparts c hc)
  · simp [Rune.isScalar]
  · have htwice : asciiUpper ∘ asciiUpper = asciiUpper := funext asciiUpper_asciiUpper
    rw [Text.ofRunes_map_scalar, upperCase, Text.chars_ofChars, List.map_map, htwice]

end Rule

end SheetFormula
