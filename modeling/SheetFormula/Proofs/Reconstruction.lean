import SheetFormula.Proofs.Invariant

/-!
# Parsed trees spell the text they were parsed from

Being spelled out is an invariant of every grammar whose signs of numbers stand for themselves, so
that a parsed tree spells exactly the runes that were read.
-/

namespace SheetFormula

namespace Rule

variable {g : Grammar}

theorem loose_dateSeparator : Loose (dateSeparator g) := by
  refine Keeps.alternatives (List.forall_iff_forall_mem.2 fun r hr => ?_)
  obtain ⟨ch, -, rfl⟩ := List.mem_map.1 hr
  exact loose_symbol .dateSeparator [ch]

theorem loose_separator {separator : Rule} (h : IsSeparator g separator) : Loose separator := by
  cases h with
  | date => exact loose_dateSeparator
  | spaceOrDate => exact Keeps.alternatives ⟨exact_whitespace.loose, loose_dateSeparator⟩
  | time => exact loose_symbol ..
  | decimal => exact loose_symbol ..
  | value => exact loose_symbol ..

theorem invariant_spells (hl : g.locale.HasPlainSigns) : Invariant g Cursor.Spells where
  compositional := compositional_spells
  parent h hn := h.parent hn
  reduced := by
    rintro c next nodes n ⟨ws, hws, htexts⟩ hn
    exact ⟨ws, hws, by simpa [Node.leaves_of_reduce hn] using htexts⟩
  symbol hnul := exact_symbol _ hnul
  separator h hrules hneeds := keepInTurn_cons_loose (loose_separator h) hrules hneeds
  whitespace := exact_whitespace
  readColumn := spells_readColumn
  readRow := spells_readRow
  label := exact_label
  templateValueName := exact_templateValueName
  functionName := exact_functionName
  errorLiteral := exact_errorLiteral
  boolean := exact_boolean
  quotedText := exact_quotedText
  remainingLiteral := exact_remainingLiteral
  number := exact_number hl _
  digitsComponent := exact_digitsComponent ..
  secondFraction := exact_secondFraction
  nameComponent _ := exact_nameComponent ..

end Rule

namespace Grammar

variable {g : Grammar} {p : Parser} {text : Text} {n : Node} {k : Nat}

/-- A run that gives a node passed the runes that the node spells. -/
theorem run_spells (hl : g.locale.HasPlainSigns) {whole : Bool}
    (h : g.run p text whole = (.ok n, k)) :
    k ≤ text.runeCount ∧ n.text = .ofRunes (text.runes.take k) ∧
      (whole = true → n.text = text) := by
  obtain ⟨c, hspells, rfl, hend⟩ := run_keeps (Rule.invariant_spells hl) h
  obtain ⟨w, hw, htext⟩ := hspells.text
  have hrest : text.runes = w ++ c.rest := hw.rest
  have hpos : c.pos = w.length := by
    rw [hw.pos]
    exact Nat.zero_add _
  have hn : n.text = .ofRunes w := by simpa using htext
  refine ⟨?_, ?_, fun hwhole => ?_⟩
  · rw [Text.runeCount, hrest, List.length_append, hpos]
    exact Nat.le_add_right ..
  · rw [hn, hrest, hpos, List.take_left]
  · rw [hn, ← text.ofRunes_runes, hrest, hend hwhole, List.append_nil]

/-- A node spells the text it was parsed from, byte for byte, and a node parsed from the beginning
of a text the runes that it took; and in both every parent spells what its children spell, one after
another. -/
theorem parsed_text (l : Locale) (hl : l.HasPlainSigns) (p : Parser) (text : Text) (n : Node) :
    ((ofLocale l).parse p text = .ok n → n.text = text) ∧
    (∀ k, (ofLocale l).parsePrefix p text = (.ok n, k) →
      k ≤ text.runeCount ∧ n.text = .ofRunes (text.runes.take k)) ∧
    ((ofLocale l).parse p text = .ok n ∨ (∃ k, (ofLocale l).parsePrefix p text = (.ok n, k)) →
      ∀ form children, (Node.parent form children).Within n →
        (Node.parent form children).text = .join (children.map Node.text)) := by
  refine ⟨fun h => ?_, fun k h => ?_, fun _ form children _ => ?_⟩
  · have hrun : (ofLocale l).run p text true = (.ok n, ((ofLocale l).run p text true).2) :=
      Prod.ext h rfl
    exact (run_spells hl hrun).2.2 rfl
  · obtain ⟨hk, htext, -⟩ := run_spells hl h
    exact ⟨hk, htext⟩
  · rw [Node.text_parent, Node.textOfAll_eq_join]

theorem parsed_text_sum :
    ∃ n, (ofLocale {}).parse .valueOrExpression "= a1 + 2%" = .ok n ∧ n.text = "= a1 + 2%" := by
  have hl := Locale.hasPlainSigns_default
  cases h : (ofLocale {}).parse .valueOrExpression "= a1 + 2%" with
  | ok n => exact ⟨n, rfl, (parsed_text {} hl .valueOrExpression "= a1 + 2%" n).1 h⟩
  | error failure =>
    have hok : ((ofLocale {}).parse .valueOrExpression "= a1 + 2%").isOk = true := by decide
    rw [h] at hok
    cases hok

end Grammar

end SheetFormula
