import Mathlib.Data.List.Basic
import Mathlib.Tactic.SplitIfs
import SheetFormula.Text.Basic

/-!
# Runes spell the text they were read from

`Text.runes` cuts a text into characters and stray bytes.  The cut loses nothing: `ofRunes_runes`
puts the text together again, and a text that was written from characters is cut into these
characters (`runes_ofChars`).  Both rest on `spelledBy_eq_some_iff`, by which a lead byte is
accepted exactly when it starts the encoding of a character.
-/

namespace SheetFormula

/-- What is said of all members of a list is checked member by member, also of characters, which
could be gone through one and all. -/
instance (priority := 2000) decidableForallMem {α : Type} {p : α → Prop} [DecidablePred p]
    (l : List α) : Decidable (∀ a ∈ l, p a) := List.decidableBAll p l

/-- A rune in a class that no stray byte is in is a character. -/
theorem Rune.isScalar_of_class {q : Char → Bool} {r : Rune} (h : q r.value = true)
    (hq : q replacement = false) : r.isScalar = true := by
  cases r with
  | scalar c => rfl
  | stray b => simp [value, hq] at h

namespace Text

theorem toNat_lt_max (c : Char) : c.toNat < 0x110000 := by
  have hv : c.val.toNat.isValidChar := c.valid
  simp only [Nat.isValidChar] at hv
  change c.val.toNat < 0x110000
  omega

/-- The numbers of the bytes that a character is encoded as. -/
theorem toNat_utf8EncodeChar (c : Char) :
    (String.utf8EncodeChar c).map UInt8.toNat =
      if c.toNat < 0x80 then [c.toNat]
      else if c.toNat < 0x800 then [c.toNat / 64 + 0xC0, c.toNat % 64 + 0x80]
      else if c.toNat < 0x10000 then
        [c.toNat / 4096 + 0xE0, c.toNat / 64 % 64 + 0x80, c.toNat % 64 + 0x80]
      else [c.toNat / 262144 + 0xF0, c.toNat / 4096 % 64 + 0x80, c.toNat / 64 % 64 + 0x80,
        c.toNat % 64 + 0x80] := by
  have hc := toNat_lt_max c
  have hv : c.val.toNat = c.toNat := rfl
  simp only [String.utf8EncodeChar, hv]
  split_ifs <;> try omega
  all_goals simp only [List.map_cons, List.map_nil, UInt8.toNat_ofNat', List.cons.injEq, and_true]
  all_goals omega

/-- Lists of bytes are told apart by their numbers. -/
theorem bytes_ext {bs cs : List UInt8} (h : bs.map UInt8.toNat = cs.map UInt8.toNat) : bs = cs :=
  List.map_injective_iff.2 (fun _ _ => UInt8.toNat_inj.1) h

theorem toNat_ofNat_of_valid {n : Nat} (h : n.isValidChar) : (Char.ofNat n).toNat = n := by
  rw [Char.ofNat, dif_pos h]
  rfl

theorem spelled_eq_some_iff {top count least : Nat} {rest : List UInt8} {c : Char} {k : Nat} :
    spelled top count least rest = some (c, k) ↔
      k = count ∧ (rest.take count).length = count ∧ (∀ b ∈ rest.take count, 0x80 ≤ b ∧ b < 0xC0) ∧
        least ≤ c.toNat ∧ spelledNumber top (rest.take count) = c.toNat := by
  simp only [spelled, Option.ite_none_right_eq_some, Option.some.injEq, Prod.mk.injEq,
    List.all_eq_true, Bool.and_eq_true, decide_eq_true_eq]
  constructor
  · rintro ⟨⟨hlen, hall, hleast, hvalid⟩, rfl, rfl⟩
    rw [toNat_ofNat_of_valid hvalid]
    exact ⟨rfl, hlen, hall, hleast, rfl⟩
  · rintro ⟨rfl, hlen, hall, hleast, hnumber⟩
    rw [hnumber]
    refine ⟨⟨hlen, hall, hleast, c.valid⟩, ?_, rfl⟩
    simp [Char.ofNat_toNat]

/-- A lead byte and the bytes behind it spell a character exactly when they are its encoding. -/
theorem spelledBy_eq_some_iff {b : UInt8} {rest : List UInt8} {c : Char} {k : Nat} :
    spelledBy b rest = some (c, k) ↔
      String.utf8EncodeChar c = b :: rest.take k ∧ k ≤ rest.length := by
  have hb : b.toNat < 256 := b.toNat_lt
  have encoding : String.utf8EncodeChar c = b :: rest.take k ↔
      (String.utf8EncodeChar c).map UInt8.toNat = b.toNat :: (rest.take k).map UInt8.toNat :=
    ⟨fun h => by rw [h]; rfl, fun h => bytes_ext h⟩
  rw [encoding, toNat_utf8EncodeChar]
  simp only [spelledBy]
  constructor
  · intro h
    split_ifs at h
    · -- A byte of its own; the other cases take one to three bytes behind the lead byte.
      simp only [Option.some.injEq, Prod.mk.injEq] at h
      obtain ⟨rfl, rfl⟩ := h
      have hv : b.toNat.isValidChar := by left; omega
      rw [toNat_ofNat_of_valid hv]
      split_ifs
      simp
    all_goals
      obtain ⟨rfl, hlen, hall, hleast, hnumber⟩ := spelled_eq_some_iff.1 h
      rcases rest with _ | ⟨b1, _ | ⟨b2, _ | ⟨b3, rest⟩⟩⟩ <;>
        simp only [List.take, List.length, List.mem_cons, forall_eq_or_imp, UInt8.le_iff_toNat_le,
          UInt8.lt_iff_toNat_lt, UInt8.reduceToNat, spelledNumber, List.foldl] at hlen hall hnumber
          <;> try omega
      all_goals
        split_ifs <;>
          simp only [List.take, List.map, List.length, List.cons.injEq, and_true, reduceCtorEq]
            <;> omega
  · rintro ⟨h, hk⟩
    have hc := toNat_lt_max c
    have hk' : ((rest.take k).map UInt8.toNat).length = k := by
      rw [List.length_map, List.length_take_of_le hk]
    generalize hns : rest.take k = cs at h hk'
    -- The number of the character says how many bytes there are.
    split_ifs at h <;>
      rcases cs with _ | ⟨b1, _ | ⟨b2, _ | ⟨b3, _ | ⟨b4, cs⟩⟩⟩⟩ <;>
      simp only [List.map, List.length, List.cons.injEq, and_true, reduceCtorEq, and_false] at h hk'
    all_goals subst hk'
    · rw [if_pos (by omega), ← h, Char.ofNat_toNat]
    all_goals
      repeat rw [if_neg (by omega)]
      rw [if_pos (by omega), spelled_eq_some_iff, hns]
      simp only [spelledNumber, List.foldl, List.length, List.mem_cons, List.not_mem_nil,
        forall_eq_or_imp, UInt8.le_iff_toNat_le, UInt8.lt_iff_toNat_lt, UInt8.reduceToNat,
        false_implies, implies_true, and_true, true_and]
      omega

theorem runesFrom_eq (read : List Rune) (pending : Nat) (bs : List UInt8) :
    runesFrom read pending bs = read.reverse ++ runesFrom [] 0 (bs.drop pending) := by
  induction bs generalizing read pending with
  | nil => simp [runesFrom]
  | cons b bs ih =>
    cases pending with
    | succ more => simp only [runesFrom, List.drop_succ_cons, ih read more]
    | zero =>
      simp only [runesFrom, List.drop_zero]
      cases spelledBy b bs with
      | none => simp [ih (.stray b :: read), ih [.stray b]]
      | some spelling => simp [ih (.scalar spelling.1 :: read), ih [.scalar spelling.1]]

@[simp] theorem runes_empty : runes empty = [] := rfl

theorem runes_cons (b : UInt8) (rest : List UInt8) :
    runes ⟨b :: rest⟩ =
      match spelledBy b rest with
      | some (c, more) => .scalar c :: runes ⟨rest.drop more⟩
      | none => .stray b :: runes ⟨rest⟩ := by
  simp only [runes, runesFrom]
  cases spelledBy b rest with
  | none => simp [runesFrom_eq [.stray b]]
  | some spelling => simp [runesFrom_eq [.scalar spelling.1]]

/-- Induction on bytes rune by rune: the next rune is a stray byte, or a character that the lead
byte spells with the bytes behind it. -/
@[elab_as_elim]
theorem rune_induction {motive : List UInt8 → Prop} (nil : motive [])
    (stray : ∀ b rest, spelledBy b rest = none → motive rest → motive (b :: rest))
    (scalar : ∀ b rest c more, spelledBy b rest = some (c, more) → motive (rest.drop more) →
      motive (b :: rest))
    (bs : List UInt8) : motive bs := by
  induction hn : bs.length using Nat.strongRecOn generalizing bs with
  | ind n ih =>
    cases bs with
    | nil => exact nil
    | cons b rest =>
      cases h : spelledBy b rest with
      | none => exact stray b rest h (ih rest.length (by simp [← hn]) rest rfl)
      | some spelling =>
        refine scalar b rest spelling.1 spelling.2 h (ih (rest.drop spelling.2).length ?_ _ rfl)
        rw [List.length_drop, ← hn, List.length_cons]
        omega

theorem ofRunes_cons (r : Rune) (rs : List Rune) :
    ofRunes (r :: rs) = ⟨r.bytes⟩ ++ ofRunes rs := rfl

/-- The runes of a text spell it again. -/
@[simp] theorem ofRunes_runes (t : Text) : ofRunes t.runes = t := by
  obtain ⟨bs⟩ := t
  induction bs using rune_induction with
  | nil => rfl
  | stray b rest h ih =>
    simp only [runes_cons, h, ofRunes_cons, ih]
    rfl
  | scalar b rest c more h ih =>
    obtain ⟨hbytes, -⟩ := spelledBy_eq_some_iff.1 h
    simp only [runes_cons, h, ofRunes_cons, ih]
    refine congrArg mk ?_
    simp [Rune.bytes, hbytes]

/-- A character in front of a text is its first rune. -/
theorem runes_char_append (c : Char) (bs : List UInt8) :
    runes ⟨String.utf8EncodeChar c ++ bs⟩ = .scalar c :: runes ⟨bs⟩ := by
  cases h : String.utf8EncodeChar c with
  | nil => exact absurd h String.utf8EncodeChar_ne_nil
  | cons b more =>
    have hs : spelledBy b (more ++ bs) = some (c, more.length) := by
      rw [spelledBy_eq_some_iff, h]
      simp
    rw [List.cons_append, runes_cons, hs]
    simp

@[simp] theorem runes_ofChars (cs : List Char) : (ofChars cs).runes = cs.map .scalar := by
  induction cs with
  | nil => rfl
  | cons c cs ih =>
    simp only [ofChars, List.flatMap_cons, List.map_cons] at ih ⊢
    rw [runes_char_append, ih]

@[simp] theorem chars_ofChars (cs : List Char) : (ofChars cs).chars = cs := by
  simp [chars, Function.comp_def, Rune.value]

theorem join_map_ofRunes (ws : List (List Rune)) : join (ws.map ofRunes) = ofRunes ws.flatten := by
  induction ws with
  | nil => rfl
  | cons w ws ih =>
    rw [List.flatten_cons, ofRunes_append, ← ih]
    rfl

theorem ofRunes_map_scalar (cs : List Char) : ofRunes (cs.map .scalar) = ofChars cs := by
  simp [ofRunes, ofChars, List.flatMap_map, Rune.bytes]

theorem eq_map_scalar {rs : List Rune} (h : ∀ r ∈ rs, r.isScalar = true) :
    rs = (rs.map Rune.value).map .scalar := by
  rw [List.map_map]
  conv_lhs => rw [← List.map_id rs]
  refine List.map_congr_left fun r hr => ?_
  cases r with
  | scalar c => rfl
  | stray b => cases h _ hr

/-- A valid text is made of its characters. -/
theorem eq_ofChars_of_isValid {t : Text} (h : t.isValid = true) :
    t.runes = t.chars.map .scalar ∧ t = ofChars t.chars := by
  have hrunes : t.runes = t.chars.map .scalar := eq_map_scalar (List.all_eq_true.1 h)
  refine ⟨hrunes, ?_⟩
  rw [← ofRunes_map_scalar, ← hrunes, ofRunes_runes]

@[simp] theorem isValid_ofChars (cs : List Char) : (ofChars cs).isValid = true := by
  simp [isValid, Rune.isScalar]

theorem ofChars_append (cs ds : List Char) : ofChars (cs ++ ds) = ofChars cs ++ ofChars ds := by
  simp only [ofChars, List.flatMap_append]
  rfl

theorem isValid_append {s t : Text} (hs : s.isValid = true) (ht : t.isValid = true) :
    (s ++ t).isValid = true := by
  rw [(eq_ofChars_of_isValid hs).2, (eq_ofChars_of_isValid ht).2, ← ofChars_append,
    isValid_ofChars]

theorem isValid_join {ts : List Text} (h : ∀ t ∈ ts, t.isValid = true) :
    (join ts).isValid = true := by
  induction ts with
  | nil => rfl
  | cons t ts ih =>
    obtain ⟨ht, hts⟩ := List.forall_mem_cons.1 h
    exact isValid_append ht (ih hts)

theorem isValid_ofRunes {rs : List Rune} (h : ∀ r ∈ rs, r.isScalar = true) :
    (ofRunes rs).isValid = true := by
  rw [eq_map_scalar h, ofRunes_map_scalar, isValid_ofChars]

/-! ### Runes that are read back as themselves -/

theorem spelled_append {b : UInt8} (hb : b < 0x80) (top count least : Nat)
    (rest tail : List UInt8) :
    spelled top count least (rest ++ b :: tail) = spelled top count least rest := by
  by_cases hcount : count ≤ rest.length
  · rw [spelled, spelled, List.take_append_of_le_length hcount]
  · -- The byte `b` would have to continue the character.
    have hmem : b ∈ (rest ++ b :: tail).take count := by
      rw [List.take_append, List.mem_append]
      right
      obtain ⟨k, hk⟩ : ∃ k, count - rest.length = k + 1 := ⟨count - rest.length - 1, by omega⟩
      rw [hk, List.take_succ_cons]
      exact List.mem_cons_self ..
    have hshort : (rest.take count).length ≠ count := by
      rw [List.length_take]
      omega
    have hnot : ¬ ((rest ++ b :: tail).take count).all (fun b => 0x80 ≤ b && b < 0xC0) = true := by
      intro hall
      have hcontinues := List.all_eq_true.1 hall b hmem
      simp only [Bool.and_eq_true, decide_eq_true_eq] at hcontinues
      exact absurd hb (UInt8.not_lt.2 hcontinues.1)
    rw [spelled, spelled, if_neg (fun h => hnot h.2.1), if_neg (fun h => hshort h.1)]

theorem spelledBy_append {b : UInt8} (hb : b < 0x80) (lead : UInt8) (rest tail : List UInt8) :
    spelledBy lead (rest ++ b :: tail) = spelledBy lead rest := by
  simp only [spelledBy, spelled_append hb]

/-- A text is cut in front of an ASCII byte, whatever stands there. -/
theorem runes_append_ascii {b : UInt8} (hb : b < 0x80) (bs tail : List UInt8) :
    runes ⟨bs ++ b :: tail⟩ = runes ⟨bs⟩ ++ runes ⟨b :: tail⟩ := by
  induction bs using rune_induction with
  | nil => rfl
  | stray lead rest h ih =>
    rw [List.cons_append, runes_cons, runes_cons lead rest, spelledBy_append hb]
    simp only [h, List.cons_append, ih]
  | scalar lead rest c more h ih =>
    obtain ⟨-, hmore⟩ := spelledBy_eq_some_iff.1 h
    rw [List.cons_append, runes_cons, runes_cons lead rest, spelledBy_append hb]
    simp only [h, List.drop_append_of_le_length hmore, List.cons_append, ih]

/-- Runes that their text is read as. -/
def Settled (rs : List Rune) : Prop := (ofRunes rs).runes = rs

/-- Runes that their text is read as, whatever text follows. -/
def Sealed (rs : List Rune) : Prop := ∀ t : Text, (ofRunes rs ++ t).runes = rs ++ t.runes

theorem settled_runes (t : Text) : Settled t.runes := by
  rw [Settled, ofRunes_runes]

theorem Settled.tail {r : Rune} {rs : List Rune} (h : Settled (r :: rs)) : Settled rs := by
  unfold Settled at h ⊢
  cases r with
  | scalar c =>
    have hcut := runes_char_append c (ofRunes rs).bytes
    exact (List.cons.inj (hcut.symm.trans h)).2
  | stray b =>
    have hcut := runes_cons b (ofRunes rs).bytes
    have heq := hcut.symm.trans h
    split at heq
    · cases (List.cons.inj heq).1
    · exact (List.cons.inj heq).2

theorem Settled.of_append {v w : List Rune} (h : Settled (v ++ w)) : Settled w := by
  induction v with
  | nil => exact h
  | cons r v ih => exact ih h.tail

theorem sealed_nil : Sealed [] := fun _ => rfl

theorem Sealed.append {v w : List Rune} (hv : Sealed v) (hw : Sealed w) : Sealed (v ++ w) := by
  intro t
  rw [ofRunes_append, append_assoc, hv, hw, List.append_assoc]

theorem Sealed.settled {w : List Rune} (h : Sealed w) : Settled w := by
  have hempty := h empty
  rwa [append_empty, runes_empty, List.append_nil] at hempty

theorem sealed_scalar (c : Char) : Sealed [.scalar c] := by
  intro t
  have hbytes : ofRunes [.scalar c] ++ t = ⟨String.utf8EncodeChar c ++ t.bytes⟩ := by
    simp [ofRunes, Rune.bytes]
    rfl
  rw [hbytes, runes_char_append]
  rfl

theorem sealed_of_isScalar {w : List Rune} (h : ∀ r ∈ w, r.isScalar = true) : Sealed w := by
  induction w with
  | nil => exact sealed_nil
  | cons r w ih =>
    obtain ⟨hr, hw⟩ := List.forall_mem_cons.1 h
    cases r with
    | scalar c => exact (sealed_scalar c).append (ih hw)
    | stray b => cases hr

/-- An ASCII character is written with one byte. -/
theorem utf8EncodeChar_of_ascii {c : Char} (hc : c.toNat < 0x80) :
    ∃ b : UInt8, b < 0x80 ∧ String.utf8EncodeChar c = [b] := by
  have hcode := toNat_utf8EncodeChar c
  rw [if_pos hc] at hcode
  obtain ⟨b, hone, hnat⟩ : ∃ b, String.utf8EncodeChar c = [b] ∧ b.toNat = c.toNat := by
    rcases hs : String.utf8EncodeChar c with _ | ⟨b, _ | ⟨b', bs⟩⟩ <;> simp [hs] at hcode
    exact ⟨b, rfl, hcode⟩
  exact ⟨b, by rw [UInt8.lt_iff_toNat_lt, hnat]; exact hc, hone⟩

/-- A text is cut in front of an ASCII character, and the character is a rune of its own. -/
theorem runes_append_scalar {c : Char} (hc : c.toNat < 0x80) (s t : Text) :
    (s ++ ofRunes [.scalar c] ++ t).runes = s.runes ++ .scalar c :: t.runes := by
  obtain ⟨b, hb, hbytes⟩ := utf8EncodeChar_of_ascii hc
  have htext : s ++ ofRunes [.scalar c] ++ t = ⟨s.bytes ++ b :: t.bytes⟩ := by
    have hone : ofRunes [.scalar c] = ⟨[b]⟩ := by simp [ofRunes, Rune.bytes, hbytes]
    rw [append_assoc, hone]
    rfl
  have hchar := runes_char_append c t.bytes
  rw [hbytes] at hchar
  rw [htext, runes_append_ascii hb, show b :: t.bytes = [b] ++ t.bytes from rfl, hchar]

/-- A text is cut around characters of which the first is an ASCII character. -/
theorem runes_append_ofChars {c : Char} (hc : c.toNat < 0x80) (cs : List Char) (s t : Text) :
    (s ++ ofChars (c :: cs) ++ t).runes = s.runes ++ ((c :: cs).map .scalar ++ t.runes) := by
  have hsealed : Sealed (cs.map .scalar) := sealed_of_isScalar (by simp [Rune.isScalar])
  have hchars : ofChars (c :: cs) = ofRunes [.scalar c] ++ ofRunes (cs.map .scalar) := by
    rw [← ofRunes_append, ← ofRunes_map_scalar]
    rfl
  rw [hchars, ← append_assoc, append_assoc, runes_append_scalar hc, hsealed]
  rfl

/-- What is read in front of an ASCII character stays as it is when the text is cut there. -/
theorem Settled.of_append_ascii {c : Char} {w tail : List Rune}
    (h : Settled (w ++ .scalar c :: tail)) (hc : c.toNat < 0x80) : Settled w := by
  have htail : Settled tail := (Settled.of_append h).tail
  have hall := runes_append_scalar hc (ofRunes w) (ofRunes tail)
  rw [append_assoc, ← ofRunes_append, ← ofRunes_append, List.singleton_append, h, htail] at hall
  exact (List.append_cancel_right hall).symm

/-- What is read in front of an ASCII character stays as it is when the text is cut behind that
character. -/
theorem Settled.sealed_of_ascii {c : Char} {w tail : List Rune} (hc : c.toNat < 0x80)
    (h : Settled (w ++ .scalar c :: tail)) : Sealed (w ++ [.scalar c]) := by
  intro t
  rw [ofRunes_append, runes_append_scalar hc, h.of_append_ascii hc, List.append_assoc]
  rfl

end Text

end SheetFormula
