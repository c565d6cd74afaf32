import SheetFormula.Proofs.Keys
import SheetFormula.Proofs.WrittenTokens

/-!
# Quoted texts are the texts that values are written as

A value that is text is written between quotes, byte by byte, with the quotes among its bytes
doubled.  The parser of quoted texts goes through runes and looks one rune ahead to tell a doubled
quote from the closing one.  `Grammar.parse_text_iff`: what it accepts is what is written, and the
value of the tree is the one that was written.  Bytes that are no valid UTF-8 make no difference:
a quote is a rune of its own wherever it stands (`Text.runes_append_ascii`).
-/

namespace SheetFormula

/-- Bytes among which quotes stand in adjacent pairs only. -/
inductive QuotesPaired : List UInt8 → Prop
  | nil : QuotesPaired []
  | plain {b : UInt8} {bs : List UInt8} : b ≠ 34 → QuotesPaired bs → QuotesPaired (b :: bs)
  | pair {bs : List UInt8} : QuotesPaired bs → QuotesPaired (34 :: 34 :: bs)

/-- A text that starts with a quote, ends with another, and has no quotes in between but in adjacent
pairs. -/
def Text.IsQuoted (t : Text) : Prop :=
  ∃ inside, t.bytes = 34 :: inside ++ [34] ∧ QuotesPaired inside

/-- The tree of a text in quotes: a literal between two quotes, which is written as the bytes of the
text with the quotes among them doubled. -/
def Node.quoted (s : Text) : Node :=
  .parent (.text s)
    [Rule.quoteLeaf, .leaf (.literal s) ⟨Rule.doubleQuotes s.bytes⟩, Rule.quoteLeaf]

namespace Rule

/-! ### Doubled quotes -/

theorem doubleQuotes_append (bs cs : List UInt8) :
    doubleQuotes (bs ++ cs) = doubleQuotes bs ++ doubleQuotes cs := List.flatMap_append

theorem quotesPaired_doubleQuotes (bs : List UInt8) : QuotesPaired (doubleQuotes bs) := by
  induction bs with
  | nil => exact .nil
  | cons b bs ih =>
    show QuotesPaired ((if b = 34 then [34, 34] else [b]) ++ doubleQuotes bs)
    split_ifs with hb
    · exact .pair ih
    · exact .plain hb ih

/-- Where quotes stand in pairs, they have been doubled. -/
theorem exists_doubleQuotes {cs : List UInt8} (h : QuotesPaired cs) :
    ∃ bs, cs = doubleQuotes bs := by
  induction h with
  | nil => exact ⟨[], rfl⟩
  | @plain b _ hb _ ih =>
    obtain ⟨bs, rfl⟩ := ih
    refine ⟨b :: bs, ?_⟩
    show _ = (if b = 34 then [34, 34] else [b]) ++ doubleQuotes bs
    rw [if_neg hb]
    rfl
  | pair _ ih =>
    obtain ⟨bs, rfl⟩ := ih
    exact ⟨34 :: bs, rfl⟩

theorem written_text (s : Text) :
    (Value.text s).written = ⟨34 :: doubleQuotes s.bytes ++ [34]⟩ := rfl

/-- The texts with their quotes in pairs are those that some text is written as. -/
theorem isQuoted_iff {t : Text} : t.IsQuoted ↔ ∃ s, t = (Value.text s).written := by
  constructor
  · rintro ⟨inside, ht, hpaired⟩
    obtain ⟨bs, rfl⟩ := exists_doubleQuotes hpaired
    exact ⟨⟨bs⟩, congrArg Text.mk ht⟩
  · rintro ⟨s, rfl⟩
    exact ⟨doubleQuotes s.bytes, rfl, quotesPaired_doubleQuotes s.bytes⟩

/-! ### Reading what was written -/

/-- Bytes without a quote are read as runes other than the quote. -/
theorem value_ne_quote {bs : List UInt8} (h : 34 ∉ bs) :
    ∀ r ∈ Text.runes ⟨bs⟩, r.value ≠ '"' := by
  intro r hr hquote
  obtain rfl := Rune.eq_scalar_of_value hquote (by decide)
  have hbytes : (Text.ofRunes (Text.runes ⟨bs⟩)).bytes = bs := by rw [Text.ofRunes_runes]
  rw [← hbytes] at h
  exact h (List.mem_flatMap.2 ⟨.scalar '"', hr, by decide⟩)

/-- Runes other than the quote are read as they are. -/
theorem readQuoted_plain {v : List Rune} (h : ∀ r ∈ v, r.value ≠ '"') (value : List Rune)
    (count : Nat) (rest : List Rune) :
    readQuoted value count (v ++ rest) =
      readQuoted (v.reverse ++ value) (count + v.length) rest := by
  induction v generalizing value count with
  | nil => rfl
  | cons r v ih =>
    obtain ⟨hr, hv⟩ := List.forall_mem_cons.1 h
    rw [List.cons_append, readQuoted.eq_def]
    simp only [if_neg hr]
    rw [ih hv, List.reverse_cons, List.append_assoc, List.length_cons, Nat.add_assoc,
      Nat.add_comm 1]
    rfl

theorem readQuoted_pair (value : List Rune) (count : Nat) (rest : List Rune) :
    readQuoted value count (.scalar '"' :: .scalar '"' :: rest) =
      readQuoted (.scalar '"' :: value) (count + 2) rest := rfl

/-- A quote is a rune of its own wherever it stands. -/
theorem runes_append_quote (bs tail : List UInt8) :
    Text.runes ⟨bs ++ 34 :: tail⟩ = Text.runes ⟨bs⟩ ++ .scalar '"' :: Text.runes ⟨tail⟩ := by
  rw [Text.runes_append_ascii (by decide)]
  exact congrArg _ (Text.runes_char_append '"' tail)

/-- Doubled quotes are read as the bytes with single ones, up to the closing quote. -/
theorem readQuoted_doubleQuotes (bs : List UInt8) (value : List Rune) (count : Nat) :
    readQuoted value count (Text.runes ⟨doubleQuotes bs⟩ ++ [.scalar '"']) =
      .ok (value.reverse ++ Text.runes ⟨bs⟩, count + (Text.runes ⟨doubleQuotes bs⟩).length) := by
  -- By induction on the number of bytes, from each quote to the next.
  induction hn : bs.length using Nat.strongRecOn generalizing bs value count with
  | ind n ih =>
    by_cases hquote : 34 ∈ bs
    · obtain ⟨front, back, rfl, hfront⟩ := List.eq_append_cons_of_mem hquote
      have hdouble : doubleQuotes (front ++ 34 :: back) =
          front ++ 34 :: ([] ++ 34 :: doubleQuotes back) := by
        rw [doubleQuotes_append, doubleQuotes_eq_self hfront]
        rfl
      have hlen : back.length < n := by
        simp only [List.length_append, List.length_cons] at hn
        omega
      rw [hdouble, runes_append_quote, runes_append_quote, runes_append_quote, List.append_assoc,
        readQuoted_plain (value_ne_quote hfront)]
      simp only [show Text.runes ⟨[]⟩ = [] from rfl, List.nil_append, List.cons_append]
      rw [readQuoted_pair, ih _ hlen back _ _ rfl]
      simp
      omega
    · rw [doubleQuotes_eq_self hquote, readQuoted_plain (value_ne_quote hquote)]
      show Except.ok ((_ ++ value).reverse, _) = _
      rw [List.reverse_append, List.reverse_reverse]

/-- A text is found where it is written. -/
theorem quotedText_written (s : Text) :
    ∃ next, quotedText (.start (Value.text s).written) = (.found [.quoted s], next) ∧
      next.rest = [] := by
  have hrunes : (Value.text s).written.runes =
      .scalar '"' :: (Text.runes ⟨doubleQuotes s.bytes⟩ ++ [.scalar '"']) := by
    rw [written_text, ← List.nil_append (34 :: doubleQuotes s.bytes ++ [34]), List.cons_append,
      runes_append_quote, runes_append_quote]
    rfl
  have hread := readQuoted_doubleQuotes s.bytes [] 0
  rw [List.reverse_nil, List.nil_append, Nat.zero_add] at hread
  have hinside : (Cursor.start (Value.text s).written).next =
      ⟨1, Text.runes ⟨doubleQuotes s.bytes⟩ ++ [.scalar '"']⟩ := by
    rw [Cursor.start, hrunes]
    rfl
  refine ⟨_, quotedText_found_iff.2 ⟨?_, _, _, _, by rw [hinside, hread], rfl, rfl, ?_⟩, ?_⟩
  · rw [Cursor.start, hrunes]
    rfl
  · have hadvance : Cursor.Passes ⟨1, Text.runes ⟨doubleQuotes s.bytes⟩ ++ [.scalar '"']⟩
        (Text.runes ⟨doubleQuotes s.bytes⟩) _ := Cursor.passes_advance rfl
    rw [hinside, hadvance.textTo, Text.ofRunes_runes, Text.ofRunes_runes]
    rfl
  · rw [hinside]
    simp [Cursor.advance, Cursor.next, Cursor.atEnd]

/-- What is found up to the end of a text is the text that it is written as. -/
theorem written_of_quotedText {t : Text} {n : Node} {next : Cursor}
    (h : quotedText (.start t) = (.found [n], next)) (hend : next.rest = []) :
    ∃ s, t = (Value.text s).written := by
  obtain ⟨ws, hws, -⟩ := exact_quotedText.found h
  obtain ⟨pos, rest⟩ := next
  obtain rfl : rest = [] := hend
  have hall : t.runes = ws.flatten := hws.rest_of_end rfl
  have hpos : pos = t.runes.length := by simpa [hall, Cursor.start] using hws.pos
  subst hpos
  have htoken := isToken_of_finds (.inl h) (Text.settled_runes t)
  obtain ⟨s, -, -, hs⟩ := quoteText_of_isToken htoken h
  exact ⟨s, (Text.ofRunes_runes t).symm.trans hs.symm⟩

end Rule

namespace Grammar

/-- The tree of a text that some text is written as, unless it is too long. -/
theorem parse_written_text (g : Grammar) (s : Text)
    (hlength : (Value.text s).written.runeCount ≤ maxFormulaLength) :
    g.parse .text (Value.text s).written = .ok (.quoted s) := by
  obtain ⟨next, hfound, hend⟩ := Rule.quotedText_written s
  exact parse_eq_ok_of_found hlength hfound hend

/-- The parser of quoted texts reads back what is written for a text, and accepts nothing else: a
text with the value `s` is what the value `s` is written as.  So it accepts the texts that start
with a quote, end with another and in between have quotes in adjacent pairs only. -/
theorem parse_text_iff (g : Grammar) (t : Text) :
    (∀ n, g.parse .text t = .ok n ↔
      t.runeCount ≤ maxFormulaLength ∧ ∃ s, t = (Value.text s).written ∧ n = .quoted s) ∧
      ((∃ n, g.parse .text t = .ok n) ↔ t.runeCount ≤ maxFormulaLength ∧ t.IsQuoted) := by
  have hread (n : Node) : g.parse .text t = .ok n ↔
      t.runeCount ≤ maxFormulaLength ∧ ∃ s, t = (Value.text s).written ∧ n = .quoted s := by
    constructor
    · intro h
      have hlength := runeCount_of_parse h
      obtain ⟨next, hfound, hend⟩ := found_of_parse h
      obtain ⟨s, rfl⟩ := Rule.written_of_quotedText hfound hend
      rw [parse_written_text g s hlength] at h
      exact ⟨hlength, s, rfl, (Except.ok.inj h).symm⟩
    · rintro ⟨hlength, s, rfl, rfl⟩
      exact parse_written_text g s hlength
  refine ⟨hread, ?_⟩
  rw [Rule.isQuoted_iff]
  constructor
  · rintro ⟨n, hn⟩
    obtain ⟨hlength, s, hs, -⟩ := (hread n).1 hn
    exact ⟨hlength, s, hs⟩
  · rintro ⟨hlength, s, hs⟩
    exact ⟨.quoted s, (hread _).2 ⟨hlength, s, hs, rfl⟩⟩

end Grammar

end SheetFormula
