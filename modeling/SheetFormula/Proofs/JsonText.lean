import Mathlib.Tactic.Common
import Mathlib.Tactic.IntervalCases
import SheetFormula.Json.Reader
import SheetFormula.Proofs.Runes

/-!
# Written documents are read back

`Json.parse?` reads what `Json.compact` writes, for every value whose strings are valid UTF-8, whose
numbers are numbers and which is not nested too deeply.  The proof follows the two passes of the
reader: written characters are cut into the tokens of the value, and tokens are built up into the
value.
-/

namespace SheetFormula.Json

/-! ### Strings -/

variable {ts : List Token} {chars tail : List Char} {c : Char}

/-- Goes on with the characters behind one that was read. -/
theorem foldlM_scanChar_cons {s s' : Scan} (h : scanChar s c = some s') :
    (c :: tail).foldlM scanChar s = tail.foldlM scanChar s' := by
  rw [List.foldlM_cons, h]
  rfl

/-- A character that is no quote, no backslash and no control character stands for itself. -/
theorem scan_plain (hquote : c ≠ '"') (hback : c ≠ '\\') (hcontrol : ¬ c.toNat < 0x20) :
    (c :: tail).foldlM scanChar ⟨ts, .string chars none⟩ =
      tail.foldlM scanChar ⟨ts, .string (c :: chars) none⟩ := by
  refine foldlM_scanChar_cons ?_
  simp [scanChar, hquote, hback, hcontrol, settle]

theorem scan_simple {e : Char} (hu : c ≠ 'u') (he : simpleEscape? c = some e) :
    ('\\' :: c :: tail).foldlM scanChar ⟨ts, .string chars none⟩ =
      tail.foldlM scanChar ⟨ts, .string (e :: chars) none⟩ := by
  have hback : scanChar ⟨ts, .string chars none⟩ '\\' = some ⟨ts, .escape chars none⟩ := rfl
  rw [foldlM_scanChar_cons hback]
  refine foldlM_scanChar_cons ?_
  simp [scanChar, hu, he, settle]

/-- Four hexadecimal digits are read as a number. -/
theorem scan_hex {ds : List Char} {values : List Nat} (hlength : ds.length = 4)
    (hvalues : ds.mapM hexValue? = some values) :
    ('\\' :: 'u' :: (ds ++ tail)).foldlM scanChar ⟨ts, .string chars none⟩ =
      tail.foldlM scanChar
        ⟨ts, afterUnicode chars none (values.foldl (fun n d => n * 16 + d) 0)⟩ := by
  match ds, hlength with
  | [d₁, d₂, d₃, d₄], _ =>
    obtain ⟨v₁, h₁, v₂, v₃, v₄, ⟨h₂, h₃, -⟩, -⟩ : ∃ v₁, hexValue? d₁ = some v₁ ∧ ∃ v₂ v₃ v₄,
        (hexValue? d₂ = some v₂ ∧ hexValue? d₃ = some v₃ ∧ hexValue? d₄ = some v₄) ∧
          [v₁, v₂, v₃, v₄] = values := by
      simpa [List.mapM_cons, Option.bind_eq_some_iff] using hvalues
    have hback : scanChar ⟨ts, .string chars none⟩ '\\' = some ⟨ts, .escape chars none⟩ := rfl
    have hu : scanChar ⟨ts, .escape chars none⟩ 'u' = some ⟨ts, .unicode chars none []⟩ := rfl
    have hd₁ : scanChar ⟨ts, .unicode chars none []⟩ d₁ =
        some ⟨ts, .unicode chars none [d₁]⟩ := by simp [scanChar, h₁]
    have hd₂ : scanChar ⟨ts, .unicode chars none [d₁]⟩ d₂ =
        some ⟨ts, .unicode chars none [d₂, d₁]⟩ := by simp [scanChar, h₂]
    have hd₃ : scanChar ⟨ts, .unicode chars none [d₂, d₁]⟩ d₃ =
        some ⟨ts, .unicode chars none [d₃, d₂, d₁]⟩ := by simp [scanChar, h₃]
    have hd₄ : scanChar ⟨ts, .unicode chars none [d₃, d₂, d₁]⟩ d₄ =
        some ⟨ts, afterUnicode chars none (values.foldl (fun n d => n * 16 + d) 0)⟩ := by
      have hall : [d₄, d₃, d₂, d₁].reverse.mapM hexValue? = some values := hvalues
      simp only [scanChar, hall]
      rfl
    -- The digits are collected in reverse, and the fourth of them completes the character.
    simp only [List.cons_append, List.nil_append]
    rw [foldlM_scanChar_cons hback, foldlM_scanChar_cons hu, foldlM_scanChar_cons hd₁,
      foldlM_scanChar_cons hd₂, foldlM_scanChar_cons hd₃, foldlM_scanChar_cons hd₄]

/-- The characters that are written as four hexadecimal digits. -/
def hexEscaped : List Nat := List.range 0x20 ++ [0x3C, 0x3E, 0x26, 0x2028, 0x2029]

theorem hexDigits_of_hexEscaped : ∀ n ∈ hexEscaped, (hexDigits 4 n).length = 4 ∧
    ((hexDigits 4 n).mapM hexValue?).map (·.foldl (fun n d => n * 16 + d) 0) = some n ∧
    n < 0xD800 := by
  decide

theorem scan_unicodeEscape (h : c.toNat ∈ hexEscaped) :
    (unicodeEscape c.toNat ++ tail).foldlM scanChar ⟨ts, .string chars none⟩ =
      tail.foldlM scanChar ⟨ts, .string (c :: chars) none⟩ := by
  obtain ⟨hlength, hvalue, hsmall⟩ := hexDigits_of_hexEscaped _ h
  obtain ⟨values, hvalues, hn⟩ := Option.map_eq_some_iff.1 hvalue
  have hscan := @scan_hex ts chars tail _ _ hlength hvalues
  have hmode : afterUnicode chars none c.toNat = .string (c :: chars) none := by
    unfold afterUnicode
    rw [if_neg (by omega), if_neg (by omega), Char.ofNat_toNat]
    rfl
  rw [hn, hmode] at hscan
  exact hscan

/-- Every character is read back from the way it is written in a string. -/
theorem scan_escapedRune :
    (escapedRune (.scalar c) ++ tail).foldlM scanChar ⟨ts, .string chars none⟩ =
      tail.foldlM scanChar ⟨ts, .string (c :: chars) none⟩ := by
  unfold escapedRune
  split
  · rename_i h
    cases h
  · rename_i h
    cases h
    exact scan_simple (by decide) rfl
  · rename_i h
    cases h
    exact scan_simple (by decide) rfl
  · rename_i c' hquote hback h
    cases h
    -- The controls with a short escape, then what is escaped by its number, then the rest.
    have hof {n : Nat} (hn : c.toNat = n) : c = Char.ofNat n := by rw [← hn, Char.ofNat_toNat]
    split
    · rw [hof ‹_›]
      exact scan_simple (by decide) rfl
    · rw [hof ‹_›]
      exact scan_simple (by decide) rfl
    · rw [hof ‹_›]
      exact scan_simple (by decide) rfl
    · rw [hof ‹_›]
      exact scan_simple (by decide) rfl
    · rw [hof ‹_›]
      exact scan_simple (by decide) rfl
    · split_ifs with hescaped
      · refine scan_unicodeEscape ?_
        simp only [Bool.or_eq_true, decide_eq_true_eq, beq_iff_eq] at hescaped
        rcases hescaped with ((((hcontrol | rfl) | rfl) | rfl) | hline) | hparagraph
        · exact List.mem_append_left _ (List.mem_range.2 hcontrol)
        · decide
        · decide
        · decide
        · rw [hline]
          decide
        · rw [hparagraph]
          decide
      · simp only [Bool.or_eq_true, not_or, decide_eq_true_eq, beq_iff_eq] at hescaped
        exact scan_plain (fun h => hquote (by rw [h])) (fun h => hback (by rw [h]))
          hescaped.1.1.1.1.1

theorem scan_escapedRunes (cs : List Char) :
    ((cs.map Rune.scalar).flatMap escapedRune ++ tail).foldlM scanChar ⟨ts, .string chars none⟩ =
      tail.foldlM scanChar ⟨ts, .string (cs.reverse ++ chars) none⟩ := by
  induction cs generalizing chars with
  | nil => rfl
  | cons c cs ih =>
    rw [List.map_cons, List.flatMap_cons, List.append_assoc, scan_escapedRune, ih]
    simp

/-- A string is read back from the way it is written. -/
theorem scan_quotedOnto {t : Text} (h : t.isValid = true) :
    (quotedOnto tail t).foldlM scanChar ⟨ts, .between⟩ =
      tail.foldlM scanChar ⟨.string t :: ts, .between⟩ := by
  obtain ⟨hrunes, ht⟩ := Text.eq_ofChars_of_isValid h
  have hopen : scanChar ⟨ts, .between⟩ '"' = some ⟨ts, .string [] none⟩ := rfl
  have hclose : scanChar ⟨ts, .string (t.chars.reverse ++ []) none⟩ '"' =
      some ⟨.string t :: ts, .between⟩ := by
    simp [scanChar, settle, ← ht]
  rw [quotedOnto, hrunes, List.cons_append, foldlM_scanChar_cons hopen, scan_escapedRunes,
    foldlM_scanChar_cons hclose]

/-! ### Values -/

mutual

/-- What can be written and read back: the strings are valid UTF-8, and the numbers are numbers. -/
def IsWritable : Json → Prop
  | null => True
  | bool _ => True
  | number digits => isNumber digits = true ∧ ∀ c ∈ digits, endsWord c = false
  | string text => text.isValid = true
  | array items => AllWritable items
  | object members => MembersWritable members

/-- Every item can be written and read back. -/
def AllWritable : List Json → Prop
  | [] => True
  | item :: rest => IsWritable item ∧ AllWritable rest

/-- Every member can be written and read back. -/
def MembersWritable : List (Text × Json) → Prop
  | [] => True
  | (name, value) :: rest => name.isValid = true ∧ IsWritable value ∧ MembersWritable rest

end

mutual

/-- The tokens of a value. -/
def tokens : Json → List Token
  | null => [.value .null]
  | bool value => [.value (.bool value)]
  | number digits => [.value (.number digits)]
  | string text => [.string text]
  | array [] => [.openArray, .closeArray]
  | array (item :: rest) => .openArray :: (tokens item ++ (tokensOfItems rest ++ [.closeArray]))
  | object [] => [.openObject, .closeObject]
  | object ((name, value) :: rest) =>
    .openObject :: .string name :: .colon ::
      (tokens value ++ (tokensOfMembers rest ++ [.closeObject]))

/-- The tokens of items, each after a comma. -/
def tokensOfItems : List Json → List Token
  | [] => []
  | item :: rest => .comma :: (tokens item ++ tokensOfItems rest)

/-- The tokens of members, each after a comma. -/
def tokensOfMembers : List (Text × Json) → List Token
  | [] => []
  | (name, value) :: rest =>
    .comma :: .string name :: .colon :: (tokens value ++ tokensOfMembers rest)

end

/-- Whether a value is written as a word, which ends only where something else begins. -/
def isWord : Json → Bool
  | null | bool _ | number _ => true
  | _ => false

/-- A character that ends a word stands in front. -/
def EndsWord (tail : List Char) : Prop := ∃ c rest, tail = c :: rest ∧ endsWord c = true

theorem scanBetween_word (h : endsWord c = false) : scanBetween ts c = some ⟨ts, .word [c]⟩ := by
  simp only [endsWord, Bool.or_eq_false_iff, beq_eq_false_iff_ne] at h
  unfold scanBetween
  rw [if_neg (by simp [h])]
  split <;> simp_all

theorem scan_wordChars {cs : List Char} (h : ∀ c ∈ cs, endsWord c = false) (read : List Char) :
    (cs ++ tail).foldlM scanChar ⟨ts, .word read⟩ =
      tail.foldlM scanChar ⟨ts, .word (cs.reverse ++ read)⟩ := by
  induction cs generalizing read with
  | nil => rfl
  | cons c cs ih =>
    obtain ⟨hc, hcs⟩ := List.forall_mem_cons.1 h
    have hstep : scanChar ⟨ts, .word read⟩ c = some ⟨ts, .word (c :: read)⟩ := by
      simp [scanChar, hc]
    rw [List.cons_append, foldlM_scanChar_cons hstep, ih hcs]
    simp

/-- A word is read back where something else begins behind it. -/
theorem scan_word (cs : List Char) {value : Json} (hne : cs ≠ [])
    (h : ∀ c ∈ cs, endsWord c = false) (hvalue : word? cs = some value) (htail : EndsWord tail) :
    (cs ++ tail).foldlM scanChar ⟨ts, .between⟩ =
      tail.foldlM scanChar ⟨.value value :: ts, .between⟩ := by
  obtain ⟨first, cs, rfl⟩ := List.exists_cons_of_ne_nil hne
  obtain ⟨last, rest, rfl, hlast⟩ := htail
  obtain ⟨hfirst, hcs⟩ := List.forall_mem_cons.1 h
  have hopen : scanChar ⟨ts, .between⟩ first = some ⟨ts, .word [first]⟩ := scanBetween_word hfirst
  have hclose : scanChar ⟨ts, .word (cs.reverse ++ [first])⟩ last =
      scanChar ⟨.value value :: ts, .between⟩ last := by
    simp [scanChar, hlast, hvalue]
  rw [List.cons_append, foldlM_scanChar_cons hopen, scan_wordChars hcs, List.foldlM_cons, hclose,
    List.foldlM_cons]

theorem word?_number {cs : List Char} (h : isNumber cs = true) : word? cs = some (.number cs) := by
  have hnull : cs ≠ "null".toList := by
    rintro rfl
    revert h
    decide
  have htrue : cs ≠ "true".toList := by
    rintro rfl
    revert h
    decide
  have hfalse : cs ≠ "false".toList := by
    rintro rfl
    revert h
    decide
  rw [word?, if_neg hnull, if_neg htrue, if_neg hfalse, if_pos h]

theorem endsWord_items {items : List Json} (h : EndsWord tail) :
    EndsWord (compactItemsOnto tail items) := by
  cases items with
  | nil => simpa [compactItemsOnto] using h
  | cons item rest => exact ⟨',', _, by rw [compactItemsOnto], rfl⟩

theorem endsWord_members {members : List (Text × Json)} (h : EndsWord tail) :
    EndsWord (compactMembersOnto tail members) := by
  match members with
  | [] => simpa [compactMembersOnto] using h
  | (name, value) :: rest => exact ⟨',', _, by rw [compactMembersOnto], rfl⟩

theorem scan_punctuation {t : Token} (h : scanChar ⟨ts, .between⟩ c = some ⟨t :: ts, .between⟩) :
    (c :: tail).foldlM scanChar ⟨ts, .between⟩ = tail.foldlM scanChar ⟨t :: ts, .between⟩ :=
  foldlM_scanChar_cons h

mutual

/-- A value is cut into its tokens. -/
theorem scan_compactOnto (j : Json) (hj : j.IsWritable) (ts : List Token) (tail : List Char)
    (htail : j.isWord = true → EndsWord tail) :
    (compactOnto tail j).foldlM scanChar ⟨ts, .between⟩ =
      tail.foldlM scanChar ⟨j.tokens.reverse ++ ts, .between⟩ := by
  match j with
  | null =>
    rw [compactOnto, tokens]
    exact scan_word "null".toList (by decide) (by decide) rfl (htail rfl)
  | bool true =>
    rw [compactOnto, tokens]
    exact scan_word "true".toList (by decide) (by decide) rfl (htail rfl)
  | bool false =>
    rw [compactOnto, tokens]
    exact scan_word "false".toList (by decide) (by decide) rfl (htail rfl)
  | number digits =>
    rw [compactOnto, tokens]
    rw [IsWritable] at hj
    have hne : digits ≠ [] := by
      rintro rfl
      exact absurd hj.1 (by decide)
    exact scan_word digits hne hj.2 (word?_number hj.1) (htail rfl)
  | string text =>
    rw [compactOnto, tokens]
    rw [IsWritable] at hj
    exact scan_quotedOnto hj
  | array [] =>
    rw [compactOnto, tokens, scan_punctuation (t := .openArray) rfl,
      scan_punctuation (t := .closeArray) rfl]
    rfl
  | array (item :: rest) =>
    rw [IsWritable, AllWritable] at hj
    -- A word, such as a number, ends where a bracket or a comma follows.
    have hend : EndsWord (']' :: tail) := ⟨']', tail, rfl, rfl⟩
    rw [compactOnto, tokens, scan_punctuation (t := .openArray) rfl,
      scan_compactOnto item hj.1 _ _ fun _ => endsWord_items hend,
      scan_compactItemsOnto rest hj.2 _ _ hend, scan_punctuation (t := .closeArray) rfl]
    simp
  | object [] =>
    rw [compactOnto, tokens, scan_punctuation (t := .openObject) rfl,
      scan_punctuation (t := .closeObject) rfl]
    rfl
  | object ((name, value) :: rest) =>
    rw [IsWritable, MembersWritable] at hj
    have hend : EndsWord ('}' :: tail) := ⟨'}', tail, rfl, rfl⟩
    rw [compactOnto, tokens, scan_punctuation (t := .openObject) rfl, scan_quotedOnto hj.1,
      scan_punctuation (t := .colon) rfl,
      scan_compactOnto value hj.2.1 _ _ fun _ => endsWord_members hend,
      scan_compactMembersOnto rest hj.2.2 _ _ hend, scan_punctuation (t := .closeObject) rfl]
    simp

/-- Items are cut into their tokens. -/
theorem scan_compactItemsOnto (items : List Json) (hitems : AllWritable items) (ts : List Token)
    (tail : List Char) (htail : EndsWord tail) :
    (compactItemsOnto tail items).foldlM scanChar ⟨ts, .between⟩ =
      tail.foldlM scanChar ⟨(tokensOfItems items).reverse ++ ts, .between⟩ := by
  match items with
  | [] =>
    rw [compactItemsOnto, tokensOfItems]
    rfl
  | item :: rest =>
    rw [AllWritable] at hitems
    rw [compactItemsOnto, tokensOfItems, scan_punctuation (t := .comma) rfl,
      scan_compactOnto item hitems.1 _ _ fun _ => endsWord_items htail,
      scan_compactItemsOnto rest hitems.2 _ _ htail]
    simp

/-- Members are cut into their tokens. -/
theorem scan_compactMembersOnto (members : List (Text × Json)) (hmembers : MembersWritable members)
    (ts : List Token) (tail : List Char) (htail : EndsWord tail) :
    (compactMembersOnto tail members).foldlM scanChar ⟨ts, .between⟩ =
      tail.foldlM scanChar ⟨(tokensOfMembers members).reverse ++ ts, .between⟩ := by
  match members with
  | [] =>
    rw [compactMembersOnto, tokensOfMembers]
    rfl
  | (name, value) :: rest =>
    rw [MembersWritable] at hmembers
    rw [compactMembersOnto, tokensOfMembers, scan_punctuation (t := .comma) rfl,
      scan_quotedOnto hmembers.1, scan_punctuation (t := .colon) rfl,
      scan_compactOnto value hmembers.2.1 _ _ fun _ => endsWord_members htail,
      scan_compactMembersOnto rest hmembers.2.2 _ _ htail]
    simp

end

/-! ### Building values -/

/-- A value may come next. -/
def Build.TakesValue (b : Build) : Prop := b.expects = .value ∨ b.expects = .valueOrClose

/-- Goes on with the tokens behind one that was read. -/
theorem foldlM_buildToken_cons {b b' : Build} {t : Token} {more : List Token}
    (h : buildToken b t = some b') :
    (t :: more).foldlM buildToken b = more.foldlM buildToken b' := by
  rw [List.foldlM_cons, h]
  rfl

theorem putExpected_of_takesValue {b : Build} (h : b.TakesValue) (value : Json) :
    putExpected b value = some (put b value) := by
  rcases h with h | h <;> simp [putExpected, h]

/-- The document with another array or object open. -/
def Build.inside (b : Build) (frame : Frame) (expects : Expectation) : Build :=
  { b with stack := frame :: b.stack, depth := b.depth + 1, expects := expects }

theorem enter_of_takesValue {b : Build} (h : b.TakesValue) (hdepth : b.depth < maxDepth)
    (frame : Frame) (expects : Expectation) :
    enter b frame expects = some (b.inside frame expects) := by
  rcases h with h | h <;> simp [enter, h, hdepth, Build.inside]

theorem buildToken_openArray {b : Build} (h : b.TakesValue) (hdepth : b.depth < maxDepth) :
    buildToken b .openArray = some (b.inside (.array []) .valueOrClose) :=
  enter_of_takesValue h hdepth ..

theorem buildToken_openObject {b : Build} (h : b.TakesValue) (hdepth : b.depth < maxDepth) :
    buildToken b .openObject = some (b.inside (.object [] .empty) .nameOrClose) :=
  enter_of_takesValue h hdepth ..

/-- Closing an array or object puts it where it was opened. -/
theorem close_inside (b : Build) (frame : Frame) (expects : Expectation) (value : Json) :
    close (b.inside frame expects) b.stack value = put b value := by
  obtain ⟨stack, depth, expects', result?⟩ := b
  rcases stack with _ | ⟨_ | _, stack⟩ <;> rfl

theorem buildToken_string {b : Build} (h : b.TakesValue) (text : Text) :
    buildToken b (.string text) = some (put b (.string text)) := by
  rw [← putExpected_of_takesValue h]
  rcases h with h | h <;> simp [buildToken, h]

theorem buildToken_closeArray (b : Build) (items : List Json) :
    buildToken (b.inside (.array items) .commaOrClose) .closeArray =
      some (put b (.array items.reverse)) := by
  rw [← close_inside b (.array items) .commaOrClose]
  rfl

theorem buildToken_closeObject (b : Build) (members : List (Text × Json)) (name : Text) :
    buildToken (b.inside (.object members name) .commaOrClose) .closeObject =
      some (put b (.object members.reverse)) := by
  rw [← close_inside b (.object members name) .commaOrClose]
  rfl

mutual

/-- The tokens of a value put the value where one may come. -/
theorem build_tokens (j : Json) (b : Build) (more : List Token) (hb : b.TakesValue)
    (hdepth : b.depth + j.depth ≤ maxDepth) :
    (j.tokens ++ more).foldlM buildToken b = more.foldlM buildToken (put b j) := by
  match j with
  | null => exact foldlM_buildToken_cons (putExpected_of_takesValue hb _)
  | bool value => exact foldlM_buildToken_cons (putExpected_of_takesValue hb _)
  | number digits => exact foldlM_buildToken_cons (putExpected_of_takesValue hb _)
  | string text => exact foldlM_buildToken_cons (buildToken_string hb text)
  | array [] =>
    rw [depth, depthOfItems] at hdepth
    have hopen := buildToken_openArray hb (by omega)
    rw [tokens, List.cons_append, foldlM_buildToken_cons hopen]
    refine foldlM_buildToken_cons ?_
    rw [← close_inside b (.array []) .valueOrClose]
    rfl
  | array (item :: rest) =>
    rw [depth, depthOfItems] at hdepth
    have hopen := buildToken_openArray hb (by omega)
    have hitem : (b.inside (.array []) .valueOrClose).depth + item.depth ≤ maxDepth := by
      show b.depth + 1 + item.depth ≤ maxDepth
      omega
    rw [tokens, List.cons_append, foldlM_buildToken_cons hopen, List.append_assoc,
      build_tokens item _ _ (.inr rfl) hitem, List.append_assoc]
    refine (build_tokensOfItems rest b [item] _ (by omega)).trans ?_
    refine foldlM_buildToken_cons ?_
    rw [buildToken_closeArray]
    simp
  | object [] =>
    rw [depth, depthOfMembers] at hdepth
    have hopen := buildToken_openObject hb (by omega)
    rw [tokens, List.cons_append, foldlM_buildToken_cons hopen]
    refine foldlM_buildToken_cons ?_
    rw [← close_inside b (.object [] .empty) .nameOrClose]
    rfl
  | object ((name, value) :: rest) =>
    rw [depth, depthOfMembers] at hdepth
    have hopen := buildToken_openObject hb (by omega)
    -- The name and the colon lead to where a value may come.
    have hname : buildToken (b.inside (.object [] .empty) .nameOrClose) (.string name) =
        some (b.inside (.object [] .empty) (.colon [] name)) := rfl
    have hcolon : buildToken (b.inside (.object [] .empty) (.colon [] name)) .colon =
        some (b.inside (.object [] name) .value) := rfl
    have hvalue : (b.inside (.object [] name) .value).depth + value.depth ≤ maxDepth := by
      show b.depth + 1 + value.depth ≤ maxDepth
      omega
    rw [tokens, List.cons_append, foldlM_buildToken_cons hopen, List.cons_append,
      foldlM_buildToken_cons hname, List.cons_append, foldlM_buildToken_cons hcolon,
      List.append_assoc, build_tokens value _ _ (.inl rfl) hvalue, List.append_assoc]
    obtain ⟨last, hmembers⟩ := build_tokensOfMembers rest b [(name, value)] name
      ([.closeObject] ++ more) (by omega)
    refine hmembers.trans ?_
    refine foldlM_buildToken_cons ?_
    rw [buildToken_closeObject]
    simp

/-- The tokens of items put them into an open array. -/
theorem build_tokensOfItems (items : List Json) (b : Build) (done : List Json)
    (more : List Token) (hdepth : b.depth + 1 + depthOfItems items ≤ maxDepth) :
    (tokensOfItems items ++ more).foldlM buildToken (b.inside (.array done) .commaOrClose) =
      more.foldlM buildToken (b.inside (.array (items.reverse ++ done)) .commaOrClose) := by
  match items with
  | [] => rfl
  | item :: rest =>
    rw [depthOfItems] at hdepth
    have hcomma : buildToken (b.inside (.array done) .commaOrClose) .comma =
        some (b.inside (.array done) .value) := rfl
    have hitem : (b.inside (.array done) .value).depth + item.depth ≤ maxDepth := by
      show b.depth + 1 + item.depth ≤ maxDepth
      omega
    rw [tokensOfItems, List.cons_append, foldlM_buildToken_cons hcomma, List.append_assoc,
      build_tokens item _ _ (.inl rfl) hitem]
    refine (build_tokensOfItems rest b (item :: done) more (by omega)).trans ?_
    simp

/-- The tokens of members put them into an open object. -/
theorem build_tokensOfMembers (members : List (Text × Json)) (b : Build)
    (done : List (Text × Json)) (name : Text) (more : List Token)
    (hdepth : b.depth + 1 + depthOfMembers members ≤ maxDepth) :
    ∃ last, (tokensOfMembers members ++ more).foldlM buildToken
        (b.inside (.object done name) .commaOrClose) =
      more.foldlM buildToken (b.inside (.object (members.reverse ++ done) last) .commaOrClose) := by
  match members with
  | [] => exact ⟨name, rfl⟩
  | (next, value) :: rest =>
    rw [depthOfMembers] at hdepth
    -- A member is a comma, a name, a colon and a value; each leaves the object waiting for the
    -- next.
    have hcomma : buildToken (b.inside (.object done name) .commaOrClose) .comma =
        some (b.inside (.object done name) (.name done)) := rfl
    have hname : buildToken (b.inside (.object done name) (.name done)) (.string next) =
        some (b.inside (.object done name) (.colon done next)) := rfl
    have hcolon : buildToken (b.inside (.object done name) (.colon done next)) .colon =
        some (b.inside (.object done next) .value) := rfl
    have hvalue : (b.inside (.object done next) .value).depth + value.depth ≤ maxDepth := by
      show b.depth + 1 + value.depth ≤ maxDepth
      omega
    obtain ⟨last, hrest⟩ :=
      build_tokensOfMembers rest b ((next, value) :: done) next more (by omega)
    refine ⟨last, ?_⟩
    rw [tokensOfMembers, List.cons_append, foldlM_buildToken_cons hcomma, List.cons_append,
      foldlM_buildToken_cons hname, List.cons_append, foldlM_buildToken_cons hcolon,
      List.append_assoc, build_tokens value _ _ (.inl rfl) hvalue]
    refine hrest.trans ?_
    simp

end

/-- A document is read back from its text: an array or an object, not nested too deeply, whose
strings are valid UTF-8. -/
theorem parse?_compact {j : Json} (hj : j.IsWritable) (hword : j.isWord = false)
    (hdepth : j.depth ≤ maxDepth) : parse? (compact j) = some j := by
  have hscan := scan_compactOnto j hj [] [] (by simp [hword])
  have htokens : tokens? (compact j) = some j.tokens := by
    rw [tokens?, compact, Text.chars_ofChars, hscan]
    simp
  have hbuild := build_tokens j ⟨[], 0, .value, none⟩ [] (.inl rfl) (by simpa using hdepth)
  rw [List.append_nil] at hbuild
  rw [parse?, htokens]
  simp only [Option.bind_eq_bind, Option.bind_some]
  rw [hbuild]
  rfl

end SheetFormula.Json
