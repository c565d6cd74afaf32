import SheetFormula.Proofs.ExactTokens
import SheetFormula.Proofs.Numerals

/-!
# Where a token ends

A token goes on as long as the next rune belongs to it.  In front of a *stop*, a blank, an operator,
a comma or a closing parenthesis, every token of a formula ends, and it does not matter which stop
it is or what comes behind.  This module has what the scanners need to know about stops, about the
runs of characters that they read and about words.

* `Cursor.Clear`: the next rune is not in a class of characters;
* `Stops`: the next rune is a stop, or there is none;
* `WordList.PrefixFree`: no word begins another one, so that what follows a word does not matter.
-/

namespace SheetFormula

/-! ### Runs of characters -/

namespace Cursor

/-- The next rune, if there is one, does not satisfy `q`. -/
def Clear (q : Char → Bool) (rest : List Rune) : Prop := ∀ r ∈ rest.head?, q r.value = false

variable {q : Char → Bool} {w rest : List Rune} {r : Rune} {p : Nat}

theorem clear_cons : Clear q (r :: rest) ↔ q r.value = false := by simp [Clear]

theorem clear_nil : Clear q [] := by simp [Clear]

/-- What is left behind a run of `q` does not go on with it. -/
theorem clear_dropWhile : Clear q (rest.dropWhile fun r => q r.value) := by
  intro r hr
  have hne : rest.dropWhile (fun r => q r.value) ≠ [] := by
    intro hnil
    simp [hnil] at hr
  have hhead := List.head_dropWhile_not (fun r : Rune => q r.value) hne
  rw [List.head?_eq_some_head hne] at hr
  rwa [← Option.some.inj hr]

theorem takeWhile_append_clear (hw : ∀ r ∈ w, q r.value = true) (hrest : Clear q rest) :
    (w ++ rest).takeWhile (fun r => q r.value) = w := by
  rw [List.takeWhile_append_of_pos hw]
  cases rest with
  | nil => simp
  | cons r rest => simp [clear_cons.1 hrest]

/-- A run of `q` is skipped up to where it ends. -/
theorem skip_append (hw : ∀ r ∈ w, q r.value = true) (hrest : Clear q rest) :
    skip ⟨p, w ++ rest⟩ q = ⟨p + w.length, rest⟩ := by
  rw [skip, run, takeWhile_append_clear hw hrest]
  simp [advance]

theorem textTo_append : textTo ⟨p, w ++ rest⟩ ⟨p + w.length, rest⟩ = .ofRunes w := by
  simp [textTo]

@[simp] theorem current_cons : current ⟨p, r :: rest⟩ = r.value := rfl

/-- A class that NUL is not in tells what is current from what comes next. -/
theorem current_eq_false (hnul : q nul = false) (h : Clear q rest) :
    q (current ⟨p, rest⟩) = false := by
  cases rest with
  | nil => exact hnul
  | cons r rest => exact clear_cons.1 h

theorem clear_of_current (h : q (current ⟨p, rest⟩) = false) : Clear q rest := by
  cases rest with
  | nil => exact clear_nil
  | cons r rest => exact clear_cons.2 h

theorem Clear.take (h : Clear q rest) (n : Nat) : Clear q (rest.take n) := by
  intro r hr
  rw [List.head?_take] at hr
  split_ifs at hr
  · cases hr
  · exact h r hr

theorem Clear.mono {q' : Char → Bool} (h : Clear q rest) (hq : ∀ ch, q' ch = true → q ch = true) :
    Clear q' rest := by
  intro r hr
  have hfalse := h r hr
  cases hq' : q' r.value with
  | false => rfl
  | true =>
    rw [hq _ hq'] at hfalse
    cases hfalse

end Cursor

open Cursor (Clear)

/-! ### Stops -/

/-- The characters in front of which every token of a formula ends. -/
def stopChars : List Char :=
  [' ', '\t', '\n', '\r', '<', '>', '=', '+', '-', '*', '/', '^', ')', ',']

/-- The next rune, if there is one, is a stop. -/
def Stops (rest : List Rune) : Prop := ∀ r ∈ rest.head?, r.value ∈ stopChars

theorem stops_nil : Stops [] := by simp [Stops]

theorem stops_cons {r : Rune} {rest : List Rune} : Stops (r :: rest) ↔ r.value ∈ stopChars := by
  simp [Stops]

/-- A class that no stop is in is clear. -/
theorem Stops.clear {q : Char → Bool} {rest : List Rune} (h : Stops rest)
    (hq : ∀ ch ∈ stopChars, q ch = false) : Clear q rest :=
  fun r hr => hq _ (h r hr)

theorem Stops.current_ne {rest : List Rune} {p : Nat} (h : Stops rest) {ch : Char}
    (hch : ch ∉ nul :: stopChars) : Cursor.current ⟨p, rest⟩ ≠ ch := by
  rintro rfl
  cases rest with
  | nil => exact hch (List.mem_cons_self ..)
  | cons r rest => exact hch (List.mem_cons_of_mem _ (stops_cons.1 h))

/-- The characters of formulas, dates and times that no word is written with. -/
def markChars : List Char :=
  stopChars ++ ['(', '"', '#', '.', '$', ':', '%', '\''] ++ digitChars

theorem mem_markChars_of_isDigit {ch : Char} (h : isDigit ch = true) : ch ∈ markChars :=
  List.mem_append_right _ (mem_digitChars h)

theorem eq_scalar_of_mem_markChars {r : Rune} (h : r.value ∈ markChars) : r = .scalar r.value := by
  refine Rune.eq_scalar_of_value rfl fun hreplacement => ?_
  rw [hreplacement] at h
  exact absurd h (by decide)

/-! ### Words -/

theorem foldRunes_append (v w : List Rune) :
    (foldRunes (v ++ w)).bytes = (foldRunes v).bytes ++ (foldRunes w).bytes := by
  simp [foldRunes]

theorem mem_foldRunes {r : Rune} {w : List Rune} (hr : r ∈ w) {b : UInt8} (hb : b ∈ r.fold) :
    b ∈ (foldRunes w).bytes :=
  List.mem_flatMap.2 ⟨r, hr, hb⟩

namespace WordList

variable {α : Type} {words : WordList α} {u v : Word α} {w rest rest' : List Rune}

/-- There is a longest word exactly when some word stands there. -/
theorem longestAt_eq_none_iff :
    words.longestAt rest = none ↔ ∀ v ∈ words, standsAt v rest = false := by
  -- A word that was found is never lost in the fold.
  have hsome (ws : List (Word α)) (best : Word α) : ws.foldl (fun best w =>
      if (best.map Word.length).getD 0 < w.length && standsAt w rest then some w else best)
      (some best) ≠ none := by
    induction ws generalizing best with
    | nil => simp
    | cons u ws ih =>
      simp only [List.foldl_cons]
      split_ifs
      · exact ih u
      · exact ih best
  unfold longestAt
  induction words with
  | nil => simp
  | cons u ws ih =>
    simp only [List.foldl_cons, List.forall_mem_cons, Option.map_none, Option.getD_none]
    cases hu : standsAt u rest with
    | false => simpa using ih
    | true =>
      have hpos : 0 < u.length := Nat.pos_of_ne_zero (standsAt_iff.1 hu).2.1
      rw [if_pos (by simp [hpos])]
      exact iff_of_false (hsome ws u) (by simp)

/-- No word begins with another one, up to case. -/
def PrefixFree (words : WordList α) : Prop :=
  ∀ u ∈ words, ∀ v ∈ words, u.folded.bytes <+: v.folded.bytes →
    u.folded = v.folded ∧ u.length = v.length ∧ u.meaning = v.meaning

/-- Words that stand at one place begin with one another. -/
theorem prefix_or_prefix_of_standsAt (hu : standsAt u rest = true) (hv : standsAt v rest = true) :
    u.folded.bytes <+: v.folded.bytes ∨ v.folded.bytes <+: u.folded.bytes := by
  obtain ⟨-, -, hufold⟩ := standsAt_iff.1 hu
  obtain ⟨-, -, hvfold⟩ := standsAt_iff.1 hv
  -- The shorter one is folded from a part of what the longer one is folded from.
  have hprefix {m n : Nat} (h : m ≤ n) :
      (foldRunes (rest.take m)).bytes <+: (foldRunes (rest.take n)).bytes := by
    obtain ⟨more, hmore⟩ := List.take_prefix_take_left h (l := rest)
    exact ⟨(foldRunes more).bytes, by rw [← foldRunes_append, hmore]⟩
  rcases Nat.le_total u.length v.length with h | h
  · left
    simpa [hufold, hvfold] using hprefix h
  · right
    simpa [hufold, hvfold] using hprefix h

theorem PrefixFree.eq_of_standsAt (hwords : PrefixFree words) (hu : u ∈ words) (hv : v ∈ words)
    (hu' : standsAt u rest = true) (hv' : standsAt v rest = true) : u = v := by
  obtain ⟨hfolded, hlength, hmeaning⟩ : u.folded = v.folded ∧ u.length = v.length ∧
      u.meaning = v.meaning := by
    rcases prefix_or_prefix_of_standsAt hu' hv' with h | h
    · exact hwords u hu v hv h
    · obtain ⟨h₁, h₂, h₃⟩ := hwords v hv u hu h
      exact ⟨h₁.symm, h₂.symm, h₃.symm⟩
  cases u
  cases v
  simp_all

/-- The only word that can stand somewhere is the longest one there. -/
theorem PrefixFree.longestAt_eq_some (hwords : PrefixFree words) (hu : u ∈ words)
    (h : standsAt u rest = true) : words.longestAt rest = some u := by
  cases hlongest : words.longestAt rest with
  | none =>
    rw [longestAt_eq_none_iff.1 hlongest u hu] at h
    cases h
  | some v =>
    obtain ⟨hv, hstands, -⟩ := longestAt_spec hlongest
    rw [hwords.eq_of_standsAt hu hv h hstands]

/-- A word stands in front of anything. -/
theorem standsAt_append (hlen : u.length = w.length) :
    standsAt u (w ++ rest) = standsAt u w := by
  simp [standsAt, hlen]

theorem standsAt_append_of_le (hlen : u.length ≤ w.length) :
    standsAt u (w ++ rest) = standsAt u w := by
  simp only [standsAt, List.take_append_of_le_length hlen]

/-- Words that no mark is folded into. -/
def Unmarked (words : WordList α) : Prop :=
  ∀ u ∈ words, ∀ ch ∈ markChars, ∃ b ∈ (Rune.scalar ch).fold, b ∉ u.folded.bytes

/-- Such a word is not written with marks. -/
theorem Unmarked.value_not_mem (hwords : Unmarked words) (hu : u ∈ words)
    (hfold : foldRunes w = u.folded) : ∀ r ∈ w, r.value ∉ markChars := by
  intro r hr hmark
  obtain ⟨b, hb, hnot⟩ := hwords u hu r.value hmark
  rw [← eq_scalar_of_mem_markChars hmark] at hb
  rw [← hfold] at hnot
  exact hnot (mem_foldRunes hr hb)

/-- Such a word does not stand where a mark stands. -/
theorem Unmarked.standsAt_eq_false (hwords : Unmarked words) (hu : u ∈ words)
    (hrest : ∀ r ∈ rest.head?, r.value ∈ markChars) : standsAt u rest = false := by
  rw [Bool.eq_false_iff]
  intro hstands
  obtain ⟨hle, hpos, hfold⟩ := standsAt_iff.1 hstands
  cases rest with
  | nil => exact hpos (Nat.le_zero.1 hle)
  | cons r rest =>
    obtain ⟨k, hk⟩ := Nat.exists_eq_succ_of_ne_zero hpos
    have hr : r ∈ (r :: rest).take u.length := by simp [hk]
    exact hwords.value_not_mem hu hfold r hr (hrest r rfl)

/-- Such a word does not reach a mark. -/
theorem Unmarked.length_le (hwords : Unmarked words) (hu : u ∈ words)
    (hrest : ∀ r ∈ rest.head?, r.value ∈ markChars) (h : standsAt u (w ++ rest) = true) :
    u.length ≤ w.length := by
  by_contra hlt
  obtain ⟨hlength, -, hfold⟩ := standsAt_iff.1 h
  rw [List.length_append] at hlength
  obtain ⟨r, more, rfl⟩ := List.exists_cons_of_length_pos (by omega : 0 < rest.length)
  refine hwords.value_not_mem hu hfold r ?_ (hrest r rfl)
  obtain ⟨k, hk⟩ : ∃ k, u.length = w.length + k + 1 := ⟨u.length - w.length - 1, by omega⟩
  rw [hk, Nat.add_assoc, List.take_length_add_append]
  exact List.mem_append_right _ (List.mem_cons_self ..)

theorem Unmarked.matchAt_eq_none (hwords : Unmarked words)
    (hrest : ∀ r ∈ rest.head?, r.value ∈ markChars) {p : Nat} :
    words.matchAt ⟨p, rest⟩ = none := by
  rw [matchAt, longestAt_eq_none_iff.2 fun v hv => hwords.standsAt_eq_false hv hrest]
  rfl

end WordList

theorem Stops.mem_markChars {rest : List Rune} (h : Stops rest) :
    ∀ r ∈ rest.head?, r.value ∈ markChars := fun r hr => by simp [markChars, h r hr]

theorem unmarked_booleanWords : booleanWords.Unmarked := by
  unfold WordList.Unmarked
  decide +kernel

theorem prefixFree_booleanWords : booleanWords.PrefixFree := by
  unfold WordList.PrefixFree
  decide +kernel

theorem prefixFree_errorWords : errorWords.PrefixFree := by
  unfold WordList.PrefixFree
  decide +kernel

end SheetFormula
