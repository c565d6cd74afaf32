import SheetFormula.Proofs.Components
import SheetFormula.Proofs.Standing

/-!
# Letter case

A text in lower case has small ASCII letters in place of the capital ones and is otherwise the same,
byte by byte.  Two texts differ in the case of their letters only when they are the same in lower
case.  What the rules look at does not see the case of letters: the classes of characters, the
values of letters and digits, the folding of words and the capitals of names
(`asciiLower_invariant` and what follows from it).

* `Text.lower`, `Rune.lower`, and `Text.runes_lower` between them;
* `Cursor.lower`: the cursor in the text in lower case;
* `WordList.matchAt_lower`: words are matched in whatever case.
-/

namespace SheetFormula

/-! ### Characters -/

theorem exists_capitalLetter {ch : Char} (h : 'A' ≤ ch ∧ ch ≤ 'Z') :
    ∃ i, i < 26 ∧ ch = capitalLetter i := by
  obtain ⟨hlow, hhigh⟩ := h
  have hlow' : 65 ≤ ch.toNat := hlow
  have hhigh' : ch.toNat ≤ 90 := hhigh
  refine ⟨ch.toNat - 65, by omega, ?_⟩
  have hsum : 'A'.toNat + (ch.toNat - 65) = ch.toNat := by
    have hA : 'A'.toNat = 65 := rfl
    omega
  rw [capitalLetter, hsum, Char.ofNat_toNat]

/-- What is the same for a capital and its small letter is the same for all characters and their
small letters. -/
theorem asciiLower_invariant {α : Type} {q : Char → α}
    (h : ∀ i, i < 26 → q (asciiLower (capitalLetter i)) = q (capitalLetter i)) (ch : Char) :
    q (asciiLower ch) = q ch := by
  by_cases hcapital : 'A' ≤ ch ∧ ch ≤ 'Z'
  · obtain ⟨i, hi, rfl⟩ := exists_capitalLetter hcapital
    exact h i hi
  · rw [asciiLower, if_neg hcapital]

section Classes

variable (ch : Char)

@[simp] theorem isLetter_asciiLower : isLetter (asciiLower ch) = isLetter ch :=
  asciiLower_invariant (by decide) ch

@[simp] theorem isDigit_asciiLower : isDigit (asciiLower ch) = isDigit ch :=
  asciiLower_invariant (by decide) ch

@[simp] theorem isBlank_asciiLower : isBlank (asciiLower ch) = isBlank ch :=
  asciiLower_invariant (by decide) ch

@[simp] theorem isLabelPart_asciiLower : isLabelPart (asciiLower ch) = isLabelPart ch :=
  asciiLower_invariant (by decide) ch

@[simp] theorem isLabelStart_asciiLower : isLabelStart (asciiLower ch) = isLabelStart ch :=
  asciiLower_invariant (by decide) ch

@[simp] theorem letterValue_asciiLower : letterValue (asciiLower ch) = letterValue ch :=
  asciiLower_invariant (by decide) ch

@[simp] theorem asciiUpper_asciiLower : asciiUpper (asciiLower ch) = asciiUpper ch :=
  asciiLower_invariant (by decide) ch

@[simp] theorem foldChar_asciiLower : foldChar (asciiLower ch) = foldChar ch :=
  asciiLower_invariant (by decide) ch

end Classes

theorem asciiLower_of_not_isLetter {ch : Char} (h : isLetter ch = false) : asciiLower ch = ch := by
  refine if_neg fun hcapital => ?_
  obtain ⟨i, hi, rfl⟩ := exists_capitalLetter hcapital
  have hletters : ∀ i, i < 26 → isLetter (capitalLetter i) = true := by decide
  rw [hletters i hi] at h
  cases h

/-- Only the character itself becomes a character that is no letter. -/
theorem asciiLower_eq_iff {ch mark : Char} (hmark : isLetter mark = false) :
    asciiLower ch = mark ↔ ch = mark := by
  constructor
  · rintro rfl
    rw [isLetter_asciiLower] at hmark
    exact (asciiLower_of_not_isLetter hmark).symm
  · rintro rfl
    exact asciiLower_of_not_isLetter hmark

/-- A mark that is no letter is told apart in either case. -/
theorem asciiLower_beq {mark : Char} (hmark : isLetter mark = false) (ch : Char) :
    (asciiLower ch == mark) = (ch == mark) := by
  rw [Bool.eq_iff_iff, beq_iff_eq, beq_iff_eq, asciiLower_eq_iff hmark]

/-! ### Texts -/

/-- The byte of a small letter in place of that of a capital. -/
def lowerByte (b : UInt8) : UInt8 := if 0x41 ≤ b ∧ b ≤ 0x5A then b + 0x20 else b

theorem lowerByte_of_le {b : UInt8} (h : 0x80 ≤ b) : lowerByte b = b := by
  refine if_neg fun hcapital => ?_
  have hlow : 0x80 ≤ b.toNat := UInt8.le_iff_toNat_le.1 h
  have hhigh : b.toNat ≤ 0x5A := UInt8.le_iff_toNat_le.1 hcapital.2
  omega

theorem le_lowerByte_iff {b : UInt8} : 0x80 ≤ lowerByte b ↔ 0x80 ≤ b := by
  by_cases hcapital : 0x41 ≤ b ∧ b ≤ 0x5A
  · have hlow : 0x41 ≤ b.toNat := UInt8.le_iff_toNat_le.1 hcapital.1
    have hhigh : b.toNat ≤ 0x5A := UInt8.le_iff_toNat_le.1 hcapital.2
    rw [lowerByte, if_pos hcapital, UInt8.le_iff_toNat_le, UInt8.le_iff_toNat_le, UInt8.toNat_add]
    simp only [UInt8.reduceToNat]
    omega
  · rw [lowerByte, if_neg hcapital]

/-- A text with small letters in place of capitals. -/
def Text.lower (t : Text) : Text := ⟨t.bytes.map lowerByte⟩

/-- A rune with a small letter in place of a capital. -/
def Rune.lower : Rune → Rune
  | .scalar ch => .scalar (asciiLower ch)
  | .stray b => .stray b

namespace Text

/-- The bytes of a character are its number alone, or none of them is that of an ASCII character. -/
theorem bytes_of_char (ch : Char) :
    (ch.toNat < 0x80 ∧ (String.utf8EncodeChar ch).map UInt8.toNat = [ch.toNat]) ∨
      (0x80 ≤ ch.toNat ∧ ∀ b ∈ String.utf8EncodeChar ch, 0x80 ≤ b) := by
  have hencode := toNat_utf8EncodeChar ch
  by_cases hascii : ch.toNat < 0x80
  · rw [if_pos hascii] at hencode
    exact .inl ⟨hascii, hencode⟩
  · refine .inr ⟨Nat.not_lt.1 hascii, fun b hb => ?_⟩
    have hmem := List.mem_map_of_mem (f := UInt8.toNat) hb
    rw [hencode, if_neg hascii] at hmem
    rw [UInt8.le_iff_toNat_le]
    simp only [UInt8.reduceToNat]
    split_ifs at hmem <;> simp only [List.mem_cons, List.not_mem_nil, or_false] at hmem <;> omega

theorem map_lowerByte_of_le {bs : List UInt8} (h : ∀ b ∈ bs, 0x80 ≤ b) : bs.map lowerByte = bs := by
  conv_rhs => rw [← List.map_id bs]
  exact List.map_congr_left fun b hb => lowerByte_of_le (h b hb)

/-- A character in lower case is encoded as the bytes in lower case. -/
theorem utf8EncodeChar_asciiLower (ch : Char) :
    String.utf8EncodeChar (asciiLower ch) = (String.utf8EncodeChar ch).map lowerByte := by
  by_cases hcapital : 'A' ≤ ch ∧ ch ≤ 'Z'
  · obtain ⟨i, hi, rfl⟩ := exists_capitalLetter hcapital
    have hall : ∀ i, i < 26 → String.utf8EncodeChar (asciiLower (capitalLetter i)) =
        (String.utf8EncodeChar (capitalLetter i)).map lowerByte := by decide
    exact hall i hi
  · rw [asciiLower, if_neg hcapital]
    rcases bytes_of_char ch with ⟨-, hbytes⟩ | ⟨-, hbytes⟩
    · obtain ⟨b, rest, hb, hnumber, hrest⟩ := List.map_eq_cons_iff.1 hbytes
      rw [hb, List.map_eq_nil_iff.1 hrest, List.map_singleton, lowerByte, if_neg]
      rintro ⟨hlow, hhigh⟩
      rw [UInt8.le_iff_toNat_le] at hlow hhigh
      rw [hnumber] at hlow hhigh
      exact hcapital ⟨hlow, hhigh⟩
    · exact (map_lowerByte_of_le hbytes).symm

theorem le_of_spelledBy_eq_none {b : UInt8} {rest : List UInt8} (h : spelledBy b rest = none) :
    0x80 ≤ b := by
  by_contra hlt
  have hnumber : b.toNat < 0x80 := UInt8.lt_iff_toNat_lt.1 (UInt8.not_le.1 hlt)
  simp [spelledBy, hnumber] at h

theorem spelledBy_lower (b : UInt8) (rest : List UInt8) :
    spelledBy (lowerByte b) (rest.map lowerByte) =
      (spelledBy b rest).map fun spelling => (asciiLower spelling.1, spelling.2) := by
  cases h : spelledBy b rest with
  | some spelling =>
    obtain ⟨ch, k⟩ := spelling
    obtain ⟨hbytes, hk⟩ := spelledBy_eq_some_iff.1 h
    refine spelledBy_eq_some_iff.2 ⟨?_, by rwa [List.length_map]⟩
    rw [utf8EncodeChar_asciiLower, hbytes, List.map_cons, List.map_take]
  | none =>
    -- The byte is none of an ASCII character, and so what it could spell is none in lower case.
    have hb := le_of_spelledBy_eq_none h
    rw [Option.map_none, Option.eq_none_iff_forall_ne_some]
    rintro ⟨ch, k⟩ hspelled
    obtain ⟨hbytes, hk⟩ := spelledBy_eq_some_iff.1 hspelled
    rw [List.length_map] at hk
    rw [lowerByte_of_le hb, ← List.map_take] at hbytes
    have hrest : ∀ c ∈ rest.take k, 0x80 ≤ c := by
      intro c hc
      rcases bytes_of_char ch with ⟨hascii, hnumber⟩ | ⟨-, hall⟩
      · rw [hbytes, List.map_cons, List.cons.injEq] at hnumber
        rw [UInt8.le_iff_toNat_le] at hb
        simp only [UInt8.reduceToNat] at hb
        omega
      · refine le_lowerByte_iff.1 (hall _ ?_)
        rw [hbytes]
        exact List.mem_cons_of_mem _ (List.mem_map_of_mem hc)
    rw [map_lowerByte_of_le hrest] at hbytes
    rw [spelledBy_eq_some_iff.2 ⟨hbytes, hk⟩] at h
    cases h

/-- The runes of a text in lower case are its runes in lower case. -/
theorem runes_lower (t : Text) : t.lower.runes = t.runes.map Rune.lower := by
  obtain ⟨bs⟩ := t
  have hlower (b : UInt8) (rest : List UInt8) :
      lower ⟨b :: rest⟩ = ⟨lowerByte b :: rest.map lowerByte⟩ := rfl
  induction bs using rune_induction with
  | nil => rfl
  | stray b rest h ih =>
    rw [hlower, runes_cons, runes_cons, spelledBy_lower]
    simp only [h, Option.map_none, List.map_cons, lowerByte_of_le (le_of_spelledBy_eq_none h)]
    exact congrArg _ ih
  | scalar b rest c more h ih =>
    rw [hlower, runes_cons, runes_cons, spelledBy_lower]
    simp only [h, Option.map_some, List.map_cons, ← List.map_drop]
    exact congrArg _ ih

theorem size_lower (t : Text) : t.lower.size = t.size := List.length_map ..

end Text

namespace Rune

@[simp] theorem value_lower (r : Rune) : r.lower.value = asciiLower r.value := by
  cases r with
  | scalar ch => rfl
  | stray b => exact (asciiLower_of_not_isLetter (show isLetter replacement = false by decide)).symm

@[simp] theorem fold_lower (r : Rune) : r.lower.fold = r.fold := by
  cases r with
  | scalar ch => rw [lower, fold, fold, foldChar_asciiLower]
  | stray b => rfl

theorem lower_eq_self {r : Rune} (h : isLetter r.value = false) : r.lower = r := by
  cases r with
  | scalar ch => exact congrArg scalar (asciiLower_of_not_isLetter h)
  | stray b => rfl

/-- Only the mark itself becomes a mark that is no letter. -/
theorem lower_eq_scalar_iff {r : Rune} {mark : Char} (hmark : isLetter mark = false) :
    r.lower = .scalar mark ↔ r = .scalar mark := by
  cases r with
  | scalar ch =>
    rw [lower, scalar.injEq, scalar.injEq]
    exact asciiLower_eq_iff hmark
  | stray b => exact ⟨nofun, nofun⟩

/-- A character, or a byte that is none of an ASCII character. -/
def IsClean : Rune → Prop
  | scalar _ => True
  | stray b => 0x80 ≤ b

theorem IsClean.bytes_lower {r : Rune} (h : r.IsClean) :
    r.lower.bytes = r.bytes.map lowerByte := by
  cases r with
  | scalar ch => exact Text.utf8EncodeChar_asciiLower ch
  | stray b => exact congrArg (· :: []) (lowerByte_of_le h).symm

end Rune

namespace Text

@[simp] theorem chars_lower (t : Text) : t.lower.chars = t.chars.map asciiLower := by
  simp only [chars, runes_lower, List.map_map]
  exact List.map_congr_left fun r _ => r.value_lower

/-- The runes of a text are clean. -/
theorem isClean_of_mem_runes {t : Text} {r : Rune} (h : r ∈ t.runes) : r.IsClean := by
  cases r with
  | scalar ch => trivial
  | stray b =>
    by_contra hlt
    have hascii : ∀ c ∈ Rune.bytes (.stray b), c < 0x80 :=
      List.forall_mem_singleton.2 (UInt8.not_le.1 hlt)
    cases (settled_runes t).isScalar_of_ascii h hascii

theorem lower_ofRunes {rs : List Rune} (h : ∀ r ∈ rs, r.IsClean) :
    (ofRunes rs).lower = ofRunes (rs.map Rune.lower) := by
  induction rs with
  | nil => rfl
  | cons r rs ih =>
    obtain ⟨hr, hrs⟩ := List.forall_mem_cons.1 h
    have hbytes := congrArg Text.bytes (ih hrs)
    refine congrArg mk ?_
    simp only [ofRunes, lower, List.flatMap_cons, List.map_append, List.map_cons] at hbytes ⊢
    rw [hr.bytes_lower, hbytes]

/-- A text without letters is the same in lower case. -/
theorem lower_eq_self {rs : List Rune} (hclean : ∀ r ∈ rs, r.IsClean)
    (h : ∀ r ∈ rs, isLetter r.value = false) : (ofRunes rs).lower = ofRunes rs := by
  have hmap : rs.map Rune.lower = rs.map id :=
    List.map_congr_left fun r hr => Rune.lower_eq_self (h r hr)
  rw [lower_ofRunes hclean, hmap, List.map_id]

end Text

@[simp] theorem foldRunes_lower (rs : List Rune) :
    foldRunes (rs.map Rune.lower) = foldRunes rs := by
  simp only [foldRunes, List.flatMap_map, Rune.fold_lower]

/-! ### Cursors -/

namespace Cursor

variable {c stop : Cursor} {p : Char → Bool}

/-- The cursor at the same position of the text in lower case. -/
def lower (c : Cursor) : Cursor := ⟨c.pos, c.rest.map Rune.lower⟩

/-- What is left behind the cursor could be left of a text. -/
def IsClean (c : Cursor) : Prop := ∀ r ∈ c.rest, r.IsClean

@[simp] theorem pos_lower : c.lower.pos = c.pos := rfl

@[simp] theorem rest_lower : c.lower.rest = c.rest.map Rune.lower := rfl

theorem lower_start (t : Text) : (start t).lower = start t.lower :=
  congrArg (mk 0) (Text.runes_lower t).symm

theorem isClean_start (t : Text) : (start t).IsClean := fun _ => Text.isClean_of_mem_runes

theorem IsClean.advance (h : c.IsClean) (count : Nat) : (c.advance count).IsClean :=
  fun r hr => h r (List.mem_of_mem_drop hr)

theorem IsClean.next (h : c.IsClean) : c.next.IsClean := by
  rw [Cursor.next]
  split_ifs
  · exact h
  · exact h.advance 1

@[simp] theorem lower_advance (count : Nat) : (c.advance count).lower = c.lower.advance count := by
  simp [lower, Cursor.advance]

@[simp] theorem atEnd_lower : c.lower.atEnd = c.atEnd := by simp [atEnd]

@[simp] theorem lower_next : c.next.lower = c.lower.next := by
  rw [Cursor.next, Cursor.next, atEnd_lower, apply_ite lower, lower_advance]

@[simp] theorem current_lower : c.lower.current = asciiLower c.current := by
  obtain ⟨p, _ | ⟨r, rest⟩⟩ := c
  · rfl
  · exact r.value_lower

@[simp] theorem peek_lower (offset : Nat) : c.lower.peek offset = asciiLower (c.peek offset) := by
  rw [peek, peek, rest_lower, List.getElem?_map]
  cases c.rest[offset]? with
  | none => rfl
  | some r => exact r.value_lower

/-- Runes of a class that does not see the case of letters are passed alike. -/
theorem skip_lower (hp : ∀ ch, p (asciiLower ch) = p ch) : c.lower.skip p = (c.skip p).lower := by
  have hrun : (c.lower.run p).length = (c.run p).length := by
    rw [run, run, rest_lower, List.takeWhile_map, List.length_map]
    exact congrArg List.length (congrArg (c.rest.takeWhile ·) (funext fun r => by simp [hp]))
  rw [skip, skip, hrun, lower_advance]

theorem IsClean.skip (h : c.IsClean) : (c.skip p).IsClean := h.advance _

theorem textTo_lower (h : c.IsClean) : c.lower.textTo stop.lower = (c.textTo stop).lower := by
  rw [textTo, textTo, Text.lower_ofRunes fun r hr => h r (List.mem_of_mem_take hr), rest_lower,
    pos_lower, pos_lower, List.map_take]

/-- A word without letters stands in a text just if it stands in the text in lower case. -/
theorem shows_lower {word : List Char} (hword : ∀ ch ∈ word, isLetter ch = false)
    (rest : List Rune) : shows word (rest.map Rune.lower) = shows word rest := by
  induction word generalizing rest with
  | nil => simp [shows]
  | cons ch word ih =>
    obtain ⟨hch, hmore⟩ := List.forall_mem_cons.1 hword
    cases rest with
    | nil => rfl
    | cons r rest =>
      rw [List.map_cons, shows, shows, Rune.value_lower, asciiLower_beq hch, ih hmore]

end Cursor

/-! ### Words -/

namespace WordList

variable {α : Type} {words : WordList α} {c : Cursor}

theorem standsAt_lower (w : Word α) (rest : List Rune) :
    standsAt w (rest.map Rune.lower) = standsAt w rest := by
  simp only [standsAt, ← List.map_take, List.length_map, foldRunes_lower]

/-- Words are matched in whatever case. -/
theorem matchAt_lower : words.matchAt c.lower =
    (words.matchAt c).map fun found => (found.1, found.2.lower) := by
  have hlongest : words.longestAt c.lower.rest = words.longestAt c.rest :=
    longestAt_congr fun u _ => standsAt_lower u c.rest
  rw [matchAt, matchAt, hlongest, Option.map_map]
  exact congrArg (Option.map · _) (funext fun w => by simp)

theorem matchWhole_lower : words.matchWhole c.lower =
    (words.matchWhole c).map fun found => (found.1, found.2.lower) := by
  rw [matchWhole, matchWhole, matchAt_lower, Option.filter_map]
  refine congrArg _ (congrArg (Option.filter · _) (funext fun found => ?_))
  simp

end WordList

end SheetFormula
