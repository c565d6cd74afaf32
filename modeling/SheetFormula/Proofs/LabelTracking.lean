import SheetFormula.Proofs.BareTokens
import SheetFormula.Proofs.StoredFormulas
import SheetFormula.Proofs.TableRefinement

/-!
# The labels that a table tracks

A table tells which of its entries use a label.  It notes the labels of an entry when the entry
comes in, and they are the labels of the formula that brings its key in (`Table.mem_idsUsing_iff`).
A formula that shares the entry afterwards is found by its labels if they are the same.  Formulas
that one parser was tried on are like that, for the parser reads the labels off the key again
(`Formula.labels_eq_of_key_eq`).  A text that was not parsed has no labels, although it may be the
key of a formula that has some: cells that hold the formula are then not found
(`Table.labels_missed_behind_text`).
-/

namespace SheetFormula

open Grammar (american)

/-! ### Formulas with one key -/

namespace Formula

variable {f : Formula} {p : Parser} {s t : Text} {n : Node}

theorem text_parse {g : Grammar} : (parse g p s).text = s := by
  rw [parse]
  split_ifs
  · rfl
  · cases g.parse p s <;> rfl

/-- A token that is whitespace is not seen in the key. -/
theorem key_of_isWhitespace (h : f.token? = some n) (hn : n.isWhitespace = true) :
    f.key = .empty := by
  cases n with
  | leaf content t =>
    obtain rfl : content = .whitespace := by simpa [Node.isWhitespace_leaf] using hn
    rw [key, h]
    rfl
  | parent form children => exact absurd hn (by simp [Node.isWhitespace_parent])

/-- No token with labels is read from an empty text. -/
theorem parse_empty_ne_ok (hp : p.takesLabels = true) : american.parse p .empty ≠ .ok n := by
  intro h
  have hnone : (american.parse p .empty).toOption = none := by
    cases p with
    | conditionRight | expression | label | lambda | namedFunction | valueOrExpression =>
      decide +kernel
    | _ => cases hp
  rw [h] at hnone
  cases hnone

/-- A parsed formula has the labels of any other that the same parser was tried on and that has the
same key. -/
theorem labels_eq_of_key_eq (h : (parse american p s).labels ≠ [])
    (hkey : (parse american p t).key = (parse american p s).key) :
    (parse american p t).labels = (parse american p s).labels := by
  cases hn : (parse american p s).token? with
  | none => exact absurd (labels_of_no_token hn) h
  | some n =>
    rw [labels_of_token hn] at h
    have hparse := Grammar.parse_of_token hn
    have hp : p.takesLabels = true := by
      by_contra hp
      exact h (Grammar.labels_of_parse (Bool.eq_false_iff.2 hp) hparse)
    have hnoise : n.isWhitespace = false := by
      cases n with
      | leaf content t =>
        cases content with
        | label name => rfl
        | _ => exact absurd rfl h
      | parent form children => exact Node.isWhitespace_parent form children
    -- The parser reads the token again off the key.
    have hread := Grammar.parse_bare hp hparse fun hvalue => by
      subst hvalue
      exact Grammar.not_isSpacedDate_of_labels hparse h
    rw [← Formula.key_eq hn hnoise, ← hkey] at hread
    cases hm : (parse american p t).token? with
    | none =>
      rw [key_of_no_token hm, text_parse] at hread
      have hempty : t.isEmpty = true := by
        by_contra hne
        rw [parse, if_neg hne, hread] at hm
        cases hm
      rw [Text.eq_empty_of_isEmpty hempty] at hread
      exact absurd hread (parse_empty_ne_ok hp)
    | some m =>
      have hmparse := Grammar.parse_of_token hm
      cases hmnoise : m.isWhitespace with
      | true =>
        rw [key_of_isWhitespace hm hmnoise] at hread
        exact absurd hread (parse_empty_ne_ok hp)
      | false =>
        rw [labels_of_token hn, labels_of_token hm]
        rw [Formula.key_eq hn hnoise, Formula.key_eq hm hmnoise] at hkey
        exact Grammar.labels_eq_of_text_eq hmparse hparse hkey

end Formula

/-! ### What a table tells of labels -/

namespace Table

variable {actions : List Action} {cell : Cell} {f g : Formula} {id : FormulaId} {label key : Text}

theorem mem_idsUsing {t : Table} : id ∈ t.idsUsing label ↔ InSet t.users label id := by
  rw [idsUsing, List.mem_mergeSort, Std.HashSet.mem_toList]
  rfl

/-- The entry of a cell uses the labels of the formula that brought its key in. -/
theorem mem_idsUsing_iff (hroom : empty.freshCount actions < 2 ^ 32 - 1)
    (hf : holding actions cell = some f) (hid : (run actions).at? cell = some id) :
    id ∈ (run actions).idsUsing label ↔ ∃ g, IntroducedBy actions f.key g ∧ label ∈ g.labels := by
  obtain ⟨hconsistent, -⟩ := consistent_run actions hroom
  rw [mem_idsUsing, hconsistent.used, hconsistent.labelled]
  exact exists_congr fun g => and_congr_left fun _ => get?_run_eq_some_iff hroom hf hid

theorem exists_introducedBy (hroom : empty.freshCount actions < 2 ^ 32 - 1)
    (hf : holding actions cell = some f) (hid : (run actions).at? cell = some id) :
    ∃ g, IntroducedBy actions f.key g := by
  obtain ⟨g, hg⟩ := (consistent_run actions hroom).1.exists_formula hid
  exact ⟨g, (get?_run_eq_some_iff hroom hf hid).1 hg⟩

/-- What a cell holds was put into it. -/
theorem mem_of_holding (h : holding actions cell = some f) : .intern f cell ∈ actions := by
  induction actions using List.reverseRecOn with
  | nil => cases h
  | append_singleton actions a ih =>
    rw [holding_concat] at h
    rw [List.mem_append, List.mem_singleton]
    cases a with
    | intern g d =>
      rw [place] at h
      by_cases hcell : cell = d
      · rw [hcell, Function.update_self, Option.some.injEq] at h
        exact .inr (by rw [h, hcell])
      · rw [Function.update_of_ne hcell] at h
        exact .inl (ih h)
    | release d =>
      rw [place] at h
      by_cases hcell : cell = d
      · rw [hcell, Function.update_self] at h
        cases h
      · rw [Function.update_of_ne hcell] at h
        exact .inl (ih h)

theorem IntroducedBy.exists_mem (h : IntroducedBy actions key f) :
    f.key = key ∧ ∃ cell, .intern f cell ∈ actions := by
  obtain ⟨before, cell, rest, rfl, hkey, -⟩ := h
  exact ⟨hkey, cell, List.mem_append_right _ (List.mem_cons_self ..)⟩

/-- Formulas as they come about: `p` was tried on a text, or a text was not parsed. -/
def IsMadeBy (p : Parser) (f : Formula) : Prop :=
  (∃ s, f = .parse american p s) ∨ ∃ s, f = .ofText s

/-- No text that is put into a cell without being parsed is the key of a formula with labels. -/
def TextsStandApart (actions : List Action) : Prop :=
  ∀ s c f d, .intern (.ofText s) c ∈ actions → .intern f d ∈ actions → f.labels ≠ [] → f.key ≠ s

/-- The entry of a cell uses just the labels of the formula that brought its key in.  These are
those of the formula in the cell if one parser was tried on all formulas, but for texts that were
not parsed and are not the key of a formula with labels. -/
theorem labels_tracked (actions : List Action) (hroom : empty.freshCount actions < 2 ^ 32 - 1) :
    (∀ cell f id label, holding actions cell = some f → (run actions).at? cell = some id →
      (id ∈ (run actions).idsUsing label ↔
        ∃ g, IntroducedBy actions f.key g ∧ label ∈ g.labels)) ∧
    ∀ p, (∀ f cell, .intern f cell ∈ actions → IsMadeBy p f) → TextsStandApart actions →
      ∀ cell f n label, holding actions cell = some f → f.token? = some n →
        .label label ∈ n.references →
          ∃ id, (run actions).at? cell = some id ∧ id ∈ (run actions).idsUsing label := by
  refine ⟨fun cell f id label hf hid => mem_idsUsing_iff hroom hf hid, ?_⟩
  intro p hmade hapart cell f n label hf hn href
  have hlabel : label ∈ f.labels := mem_labels_iff.2 ⟨n, hn, href⟩
  obtain ⟨id, hid⟩ :=
    Option.isSome_iff_exists.1 ((run_represents hroom).isSome_idAt_iff.2 (by rw [hf]; rfl))
  obtain ⟨g, hg⟩ := exists_introducedBy hroom hf hid
  obtain ⟨hkey, d, hd⟩ := hg.exists_mem
  refine ⟨id, hid, (mem_idsUsing_iff hroom hf hid).2 ⟨g, hg, ?_⟩⟩
  have hne : f.labels ≠ [] := List.ne_nil_of_mem hlabel
  -- The formula that brought the key in was parsed, too: a text that was not stands apart.
  obtain ⟨s, rfl⟩ | ⟨s, rfl⟩ := hmade f cell (mem_of_holding hf)
  · obtain ⟨t, rfl⟩ | ⟨t, rfl⟩ := hmade g d hd
    · rwa [Formula.labels_eq_of_key_eq hne hkey]
    · exact absurd hkey.symm (hapart t d _ cell hd (mem_of_holding hf) hne)
  · exact absurd rfl hne

/-- A formula is put into a cell under another spacing than in the cell that it came in with, which
is emptied; a third cell holds a text that was not parsed. -/
theorem labels_tracked_respaced :
    let formula text := Formula.parse american .valueOrExpression text
    let a1 : Cell := ⟨⟨1, false, by decide, by decide⟩, ⟨1, false, by decide, by decide⟩⟩
    let b1 : Cell := ⟨⟨2, false, by decide, by decide⟩, ⟨1, false, by decide, by decide⟩⟩
    let c1 : Cell := ⟨⟨3, false, by decide, by decide⟩, ⟨1, false, by decide, by decide⟩⟩
    let actions := [Action.intern (.ofText "=rate*") a1, .intern (formula "=rate*2") b1,
      .intern (formula "= rate * 2") c1, .release b1]
    empty.freshCount actions < 2 ^ 32 - 1 ∧ (∀ f cell, .intern f cell ∈ actions →
      IsMadeBy .valueOrExpression f) ∧ TextsStandApart actions ∧
      ∃ id, (run actions).at? c1 = some id ∧ id ∈ (run actions).idsUsing "rate" := by
  intro formula a1 b1 c1 actions
  have hroom : empty.freshCount actions < 2 ^ 32 - 1 :=
    Nat.lt_of_le_of_lt (freshCount_le_length empty actions) (by decide)
  have hmade : ∀ f cell, .intern f cell ∈ actions → IsMadeBy .valueOrExpression f := by
    intro f cell hmem
    simp only [actions, List.mem_cons, Action.intern.injEq, reduceCtorEq, List.not_mem_nil,
      or_false] at hmem
    obtain ⟨rfl, -⟩ | ⟨rfl, -⟩ | ⟨rfl, -⟩ := hmem
    · exact .inr ⟨_, rfl⟩
    · exact .inl ⟨_, rfl⟩
    · exact .inl ⟨_, rfl⟩
  -- Both spellings have one key, so that the raw text stands apart if its own key is another.
  have hkeys : (formula "=rate*2").key = "=rate*2" ∧ (formula "= rate * 2").key = "=rate*2" ∧
      (formula "=rate*2").token?.isSome = true ∧ (formula "= rate * 2").token?.isSome = true := by
    decide +kernel
  have hapart : TextsStandApart actions := by
    intro s c f d hs hf hlabels
    simp only [actions, List.mem_cons, Action.intern.injEq, reduceCtorEq, List.not_mem_nil,
      or_false] at hs hf
    obtain rfl : s = "=rate*" := by
      obtain ⟨heq, -⟩ | ⟨heq, -⟩ | ⟨heq, -⟩ := hs
      · exact congrArg Formula.text heq
      · rw [← heq] at hkeys
        cases hkeys.2.2.1
      · rw [← heq] at hkeys
        cases hkeys.2.2.2
    obtain ⟨rfl, -⟩ | ⟨rfl, -⟩ | ⟨rfl, -⟩ := hf
    · exact absurd rfl hlabels
    · rw [hkeys.1]
      decide
    · rw [hkeys.2.1]
      decide
  have hheld : holding actions c1 = some (formula "= rate * 2") := by
    have hc1 : c1 ≠ b1 := by decide
    simp [actions, holding, place, hc1]
  obtain ⟨n, hn⟩ := Option.isSome_iff_exists.1 hkeys.2.2.2
  have href : .label "rate" ∈ n.references := by
    have hreferences : (formula "= rate * 2").token?.map Node.references =
        some [.label "rate"] := by decide +kernel
    rw [hn, Option.map_some, Option.some.injEq] at hreferences
    rw [hreferences]
    exact List.mem_singleton_self _
  exact ⟨hroom, hmade, hapart,
    (labels_tracked actions hroom).2 .valueOrExpression hmade hapart c1 _ n "rate" hheld hn href⟩

/-- A text that was not parsed stands in a cell; the formula that has it as its key shares the
entry, and its label is not tracked. -/
theorem labels_missed_behind_text :
    let f := Formula.parse american .valueOrExpression "=total+1"
    let a1 : Cell := ⟨⟨1, false, by decide, by decide⟩, ⟨1, false, by decide, by decide⟩⟩
    let a2 : Cell := ⟨⟨1, false, by decide, by decide⟩, ⟨2, false, by decide, by decide⟩⟩
    let actions := [Action.intern (.ofText "=total+1") a1, .intern f a2]
    empty.freshCount actions < 2 ^ 32 - 1 ∧ holding actions a2 = some f ∧
      (∃ n, f.token? = some n ∧ .label "total" ∈ n.references) ∧
      ∃ id, (run actions).at? a2 = some id ∧ id ∉ (run actions).idsUsing "total" := by
  intro f a1 a2 actions
  have hroom : empty.freshCount actions < 2 ^ 32 - 1 :=
    Nat.lt_of_le_of_lt (freshCount_le_length empty actions) (by decide)
  have hheld : holding actions a2 = some f := by simp [actions, holding, place]
  have hkey : f.key = "=total+1" := by decide +kernel
  have hreferences : f.token?.map Node.references = some [.label "total"] := by decide +kernel
  obtain ⟨n, hn, hlist⟩ := Option.map_eq_some_iff.1 hreferences
  obtain ⟨id, hid⟩ :=
    Option.isSome_iff_exists.1 ((run_represents hroom).isSome_idAt_iff.2 (by rw [hheld]; rfl))
  refine ⟨hroom, hheld, ⟨n, hn, by rw [hlist]; exact List.mem_singleton_self _⟩, id, hid, ?_⟩
  rw [mem_idsUsing_iff hroom hheld hid]
  rintro ⟨g, hg, hlabel⟩
  have htext : IntroducedBy actions f.key (.ofText "=total+1") := by
    have hne : a1 ≠ a2 := by decide
    refine ⟨[], a1, [.intern f a2], rfl, hkey.symm, ?_, fun later hprefix =>
      ⟨a1, .ofText "=total+1", ?_, hkey.symm⟩⟩
    · rintro ⟨_, _, hnone, -⟩
      cases hnone
    · -- the text stays where it is
      obtain rfl | rfl : later = [] ∨ later = [.intern f a2] := by
        simpa [List.prefix_cons_iff] using hprefix
      · simp [holding, place]
      · simp [holding, place, hne]
  rw [hg.unique htext] at hlabel
  cases hlabel

end Table

end SheetFormula
