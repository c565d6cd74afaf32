import SheetFormula.Proofs.Conditions
import SheetFormula.Proofs.Dependencies
import SheetFormula.Proofs.Labels
import SheetFormula.Proofs.Spacing
import SheetFormula.Proofs.WrittenDates

/-!
# Labels and the keys of formulas

The key of a formula is the text of its token without whitespace.  Whichever parser a token with
labels comes from, that text is read by the same parser as the token without its whitespace
(`Grammar.parse_bare`), so the key tells which labels the formula refers to: the parser that gave
the token reads them off it again.
-/

namespace SheetFormula

/-! ### The labels of a tree -/

namespace Node

variable {n : Node} {form : Form} {children : List Node}

/-- The labels that a tree refers to, in order. -/
def labels (n : Node) : List Text :=
  n.references.filterMap fun
    | .label name => some name
    | _ => none

theorem labels_of_references (h : n.references = []) : n.labels = [] := by
  rw [labels, h]
  rfl

mutual

/-- Whitespace refers to nothing. -/
theorem references_bare (n : Node) : n.bare.references = n.references := by
  match n with
  | leaf content t => rw [bare_leaf]
  | parent form children =>
    rw [bare_parent, references_parent, references_parent, references_bareAll children]

theorem references_bareAll (ns : List Node) :
    (bareAll ns).flatMap references = ns.flatMap references := by
  match ns with
  | [] => rw [bareAll_nil]
  | n :: rest =>
    cases h : n.isWhitespace with
    | true =>
      have hnoise : n.isNoise = true := by
        cases n with
        | leaf content t =>
          rw [isWhitespace_leaf, decide_eq_true_eq] at h
          rw [h]
          rfl
        | parent form children => exact absurd h (by simp [isWhitespace_parent])
      rw [bareAll_cons_whitespace h, references_bareAll rest, List.flatMap_cons,
        references_of_isNoise hnoise, List.nil_append]
    | false =>
      rw [bareAll_cons h, List.flatMap_cons, List.flatMap_cons, references_bare n,
        references_bareAll rest]

end

theorem labels_bare (n : Node) : n.bare.labels = n.labels := by
  rw [labels, references_bare, labels]

/-- Among the tokens of one piece only labels refer to labels. -/
theorem IsAtom.labels_eq (h : n.IsAtom) (hleaf : n.isLeaf = false) : n.labels = [] := by
  cases h with
  | error | boolean | label => cases hleaf
  | number h | text h =>
    exact labels_of_references (references_of_parts rfl fun part hpart =>
      (h part (List.mem_of_mem_filter hpart)).references_eq)
  | cell | cellRange => rfl

end Node

namespace Formula

variable {f : Formula} {n : Node}

theorem labels_of_token (h : f.token? = some n) : f.labels = n.labels := by
  simp only [labels, h]
  rfl

theorem labels_of_no_token (h : f.token? = none) : f.labels = [] := by
  simp only [labels, h]

theorem key_of_no_token (h : f.token? = none) : f.key = f.text := by
  simp only [key, h]

end Formula

/-! ### Rules that find no labels -/

namespace Rule

variable {c next : Cursor} {n : Node} {g : Grammar}

/-- What is found is none but a token of one piece. -/
theorem labels_of_atom {r : Rule} (hr : Keeps (One Node.IsAtom) r)
    (h : r c = (.found [n], next)) (hleaf : n.isLeaf = false) : n.labels = [] := by
  obtain ⟨m, hm, hatom⟩ := hr.found h
  obtain rfl := (List.cons.inj hm).1
  exact hatom.labels_eq hleaf

theorem labels_of_moment {r : Rule} (hr : Keeps (One Node.IsMoment) r)
    (h : r c = (.found [n], next)) : n.labels = [] := by
  obtain ⟨m, hm, hmoment⟩ := hr.found h
  obtain rfl := (List.cons.inj hm).1
  exact Node.labels_of_references hmoment.references_eq

theorem labels_of_date (h : date g c = (.found [n], next)) : n.labels = [] :=
  labels_of_moment moment_date h

theorem labels_of_time (h : time g c = (.found [n], next)) : n.labels = [] :=
  labels_of_moment moment_time h

theorem labels_of_number {signed : Bool} (h : number g signed c = (.found [n], next)) :
    n.labels = [] := by
  obtain ⟨d, children, hn, -, -⟩ := number_eq h
  obtain rfl := (List.cons.inj hn).1
  exact labels_of_atom atom_number h rfl

theorem isLeaf_of_quotation {children : List Node} (h : Node.quotation children = .ok n) :
    n.isLeaf = false := by
  obtain ⟨-, _, -, rfl⟩ := Node.quotation_eq_ok_iff.1 h
  rfl

theorem labels_of_apostropheText (h : apostropheText c = (.found [n], next)) : n.labels = [] := by
  obtain ⟨children, m, -, hm, heq⟩ := transform_found_iff.1 h
  obtain rfl := (List.cons.inj heq).1
  exact labels_of_atom atom_apostropheText h (isLeaf_of_quotation hm)

theorem labels_of_wholeText (h : wholeText c = (.found [n], next)) : n.labels = [] := by
  obtain ⟨children, m, -, hm, heq⟩ := transform_found_iff.1 (wholeText_found_iff.1 h).2
  obtain rfl := (List.cons.inj heq).1
  exact labels_of_atom atom_wholeText h (isLeaf_of_quotation hm)

theorem labels_of_quotedText (h : quotedText c = (.found [n], next)) : n.labels = [] := by
  obtain ⟨-, value, count, m, -, -, heq, hm⟩ := quotedText_found_iff.1 h
  obtain rfl := (List.cons.inj heq).1
  exact labels_of_atom atom_quotedText h (isLeaf_of_quotation hm)

theorem labels_of_dateTime (h : dateTime g c = (.found [n], next)) : n.labels = [] := by
  obtain ⟨children, m, -, hm, heq⟩ := transform_found_iff.1 h
  obtain rfl := (List.cons.inj heq).1
  obtain ⟨-, -, rfl⟩ := Node.dateTime_eq_ok_iff.1 hm
  obtain ⟨m, hm, hentry⟩ := entry_dateTime.found h
  obtain rfl := (List.cons.inj hm).1
  cases hentry with
  | term hterm => cases hterm with
    | atom hatom => cases hatom
  | moment hmoment => cases hmoment
  | dateTime hhalves =>
    exact Node.labels_of_references (Node.references_of_parts rfl fun half hhalf =>
      (hhalves half hhalf).references_eq)

/-- What is typed into a cell refers to labels only if it is a formula. -/
theorem formula_of_labels (h : valueOrExpression .american c = (.found [n], next))
    (hlabels : n.labels ≠ []) : formula .american c = (.found [n], next) := by
  cases findsEntry_of_found h with
  | formula hformula => exact hformula
  | dateTime hdateTime => exact absurd (labels_of_dateTime hdateTime) hlabels
  | date hdate => exact absurd (labels_of_date hdate) hlabels
  | time htime _ => exact absurd (labels_of_time htime) hlabels
  | number hnumber => exact absurd (labels_of_number hnumber) hlabels
  | apostropheText htext => exact absurd (labels_of_apostropheText htext) hlabels
  | wholeText htext => exact absurd (labels_of_wholeText htext) hlabels

end Rule

/-- The parsers of tokens that can refer to labels. -/
def Parser.takesLabels : Parser → Bool
  | .conditionRight | .expression | .label | .lambda | .namedFunction | .valueOrExpression => true
  | _ => false

namespace Grammar

variable {p : Parser} {s t : Text} {n m : Node}

/-- No other parser gives a token that refers to a label. -/
theorem labels_of_parse (hp : p.takesLabels = false) (h : american.parse p s = .ok n) :
    n.labels = [] := by
  obtain ⟨c, hfound, -⟩ := found_of_parse h
  -- Tokens of words, signs and cells show by their leaves that no label is in them; those with
  -- parts have lemmas of their own.
  cases p with
  | conditionRight | expression | label | lambda | namedFunction | valueOrExpression => cases hp
  | apostropheText => exact Rule.labels_of_apostropheText hfound
  | boolean =>
    obtain ⟨-, -, w, -, heq⟩ := Rule.boolean_found_iff.1 hfound
    rw [(List.cons.inj heq).1]
    rfl
  | error =>
    obtain ⟨-, w, -, heq⟩ := Rule.errorLiteral_found_iff.1 hfound
    rw [(List.cons.inj heq).1]
    rfl
  | cell =>
    obtain ⟨m, hm, _, _, rfl, -⟩ := Rule.isCell_cell.found hfound
    rw [(List.cons.inj hm).1]
    rfl
  | cellRange =>
    obtain ⟨children, m, -, hm, heq⟩ := Rule.transform_found_iff.1 hfound
    obtain ⟨_, _, _, _, -, -, rfl⟩ := Node.cellRange_eq_ok_iff.1 hm
    rw [(List.cons.inj heq).1]
    rfl
  | column =>
    obtain ⟨-, -, _, -, heq⟩ := Rule.readColumn_found_iff.1 (Rule.restoring_found_iff.1 hfound)
    rw [(List.cons.inj heq).1]
    rfl
  | row =>
    obtain ⟨-, -, _, -, heq⟩ := Rule.readRow_found_iff.1 (Rule.restoring_found_iff.1 hfound)
    rw [(List.cons.inj heq).1]
    rfl
  | functionName =>
    obtain ⟨-, -, -, heq⟩ := Rule.functionName_found_iff.1 hfound
    rw [(List.cons.inj heq).1]
    rfl
  | templateValueName =>
    obtain ⟨-, -, heq⟩ := Rule.templateValueName_found_iff.1 hfound
    rw [(List.cons.inj heq).1]
    rfl
  | date => exact Rule.labels_of_date hfound
  | time => exact Rule.labels_of_time hfound
  | dateTime => exact Rule.labels_of_dateTime hfound
  | number =>
    have hnumber : Rule.number american true (.start s) = (.found [n], c) := hfound
    exact Rule.labels_of_number hnumber
  | text => exact Rule.labels_of_quotedText hfound

end Grammar

/-! ### How dates start -/

namespace Node

variable {n : Node} {form : Form} {children : List Node}

/-- The node is no whitespace, and its text starts with the same byte when the whitespace in it is
left out. -/
def Leads (n : Node) : Prop :=
  n.isWhitespace = false ∧
    ∃ b : UInt8, n.text.bytes.head? = some b ∧ n.bare.text.bytes.head? = some b

theorem leads_component {component : Component} {value : Int} {w : List Rune} (hw : w ≠ []) :
    (leaf (.component component value) (.ofRunes w)).Leads := by
  obtain ⟨r, v, rfl⟩ := List.exists_cons_of_ne_nil hw
  have hbytes : r.bytes ≠ [] := by
    cases r with
    | scalar ch => exact String.utf8EncodeChar_ne_nil
    | stray b => exact List.cons_ne_nil _ _
  obtain ⟨b, bs, hb⟩ := List.exists_cons_of_ne_nil hbytes
  have hhead : (leaf (.component component value) (.ofRunes (r :: v))).text.bytes.head? =
      some b := by
    rw [text_leaf, Text.ofRunes_cons, hb]
    rfl
  exact ⟨rfl, b, hhead, by rw [bare_leaf, hhead]⟩

theorem Leads.parent (h : n.Leads) : (parent form (n :: children)).Leads := by
  obtain ⟨hnoise, b, hb, hbare⟩ := h
  refine ⟨isWhitespace_parent form _, b, ?_, ?_⟩
  · rw [text_parent, textOfAll_cons, Text.bytes_append, List.head?_append, hb, Option.some_or]
  · rw [bare_parent, bareAll_cons hnoise, text_parent, textOfAll_cons, Text.bytes_append,
      List.head?_append, hbare, Option.some_or]

end Node

namespace Rule

open Grammar (american)

variable {r : Rule} {rules : List Rule} {component : Component} {c next : Cursor} {n : Node}
  {children nodes : List Node} {form : Form}

/-- What is found starts with a node that leads. -/
def Led (_ : Cursor) (nodes : List Node) (_ : Cursor) : Prop :=
  ∃ n more, nodes = n :: more ∧ n.Leads

theorem led_digits {fewest most low high : Nat} (hfewest : 0 < fewest) (hmost : most ≤ 18) :
    Keeps Led (digitsComponent component fewest most low high) where
  restores := digitsComponent_absent
  found h := by
    obtain ⟨w, -, n, hn, -, -, rfl⟩ := digitsComponent_written hfewest hmost h
    exact ⟨_, [], rfl,
      Node.leads_component (List.ne_nil_of_length_pos (Nat.lt_of_lt_of_le hfewest hn.fewest))⟩

theorem led_name {words : WordList Int} {names : List (Text × Nat)} (hnames : AreNames names)
    (hwords : words ⊆ wordsOf names) : Keeps Led (nameComponent component words) where
  restores := nameComponent_absent
  found h := by
    obtain ⟨w, -, n, hn, rfl⟩ := nameComponent_written hwords h
    exact ⟨_, [], rfl, Node.leads_component (hn.isPiece hnames).nonempty⟩

theorem led_monthWord : Keeps Led (monthWord american) := by
  have hwords := wordsOf_months
  refine Keeps.alternatives ⟨led_name areNames_months ?_, led_name areNames_months ?_,
    led_name areNames_months ?_⟩ <;> rw [hwords]
  · exact fun _ h => List.mem_append_left _ (List.mem_append_left _ h)
  · exact fun _ h => List.mem_append_left _ (List.mem_append_right _ h)
  · exact fun _ h => List.mem_append_right _ h

theorem led_dayWord : Keeps Led (dayWord american) := by
  have hwords := wordsOf_days
  refine Keeps.alternatives ⟨led_name areNames_days ?_, led_name areNames_days ?_⟩ <;> rw [hwords]
  · exact fun _ h => List.mem_append_left _ h
  · exact fun _ h => List.mem_append_right _ h

theorem Led.sequence (h : Keeps Led r) : Keeps Led (sequence (r :: rules)) := by
  refine KeepInTurn.sequence fun start c next nodes hfound => ?_
  obtain ⟨first, mid, more, hfirst, -, rfl⟩ := sequenceFrom_cons_found_iff.1 hfound
  obtain ⟨n, ns, rfl, hn⟩ := h.found hfirst
  exact ⟨n, ns ++ more, rfl, hn⟩

theorem led_dateLayouts : Keeps Led (dateLayouts american) := by
  have hday : Keeps Led day := led_digits (by decide) (by decide)
  have hyear : Keeps Led fullYear := led_digits (by decide) (by decide)
  exact Keeps.alternatives ⟨Led.sequence hyear, Led.sequence hday, Led.sequence hday,
    Led.sequence hday, Led.sequence hday, Led.sequence led_monthWord⟩

theorem leads_of_date (h : date american c = (.found [n], next)) : n.Leads := by
  obtain ⟨children, m, hchildren, -, hm, heq⟩ := validated_found_iff.1 h
  obtain ⟨-, parts, -, rfl⟩ := Node.date_eq_ok_iff.1 hm
  obtain rfl := (List.cons.inj heq).1
  obtain ⟨weekdays, mid, more, hweekday, hmore, rfl⟩ := sequenceFrom_pair_found_iff.1 hchildren
  have hlayouts := led_dateLayouts.found hmore
  obtain ⟨first, rest, hfirst, hleads⟩ : Led c (weekdays ++ more) next := by
    rcases optional_found_iff.1 hweekday with hfound | ⟨-, rfl⟩
    · obtain ⟨first, rest, rfl, hleads⟩ := (Led.sequence led_dayWord).found hfound
      exact ⟨first, rest ++ more, rfl, hleads⟩
    · exact hlayouts
  rw [hfirst]
  exact hleads.parent

theorem leads_of_dateTime (h : dateTime american c = (.found [n], next)) : n.Leads := by
  obtain ⟨children, m, hchildren, hm, heq⟩ := transform_found_iff.1 h
  obtain ⟨-, -, rfl⟩ := Node.dateTime_eq_ok_iff.1 hm
  obtain rfl := (List.cons.inj heq).1
  obtain ⟨dates, mid, more, hdate, -, rfl⟩ := sequenceFrom_cons_found_iff.1 hchildren
  obtain ⟨_, first, -, -, -, rfl⟩ := validated_found_iff.1 hdate
  exact (leads_of_date hdate).parent

/-- What is typed into a cell with whitespace in a date starts as it does without it. -/
theorem leads_of_isSpacedDate (h : valueOrExpression american c = (.found [n], next))
    (hdate : n.IsSpacedDate) : n.Leads := by
  have hsolid (hsolid : n.IsSolid) : n.Leads := absurd (Node.bare_of_isSolid n hsolid) hdate.2
  cases findsEntry_of_found h with
  | formula hformula => exact absurd hdate (Grammar.not_isSpacedDate_of_formula hformula)
  | dateTime hdateTime => exact leads_of_dateTime hdateTime
  | date hfound => exact leads_of_date hfound
  | time htime _ =>
    obtain ⟨value, children, rfl⟩ := form_of_time htime
    simp [Node.IsSpacedDate, Node.kind, Form.kind] at hdate
  | number hnumber => exact hsolid (isSolid_number hnumber n (List.mem_singleton_self n))
  | apostropheText htext =>
    exact hsolid (isSolid_apostropheText htext n (List.mem_singleton_self n))
  | wholeText htext => exact hsolid (isSolid_wholeText htext n (List.mem_singleton_self n))

/-! ### What is found without whitespace -/

/-- The rule finds the node without its whitespace at the end of a text, where it is written as at
most `k` runes. -/
def FindsBare (r : Rule) (k : Nat) (n : Node) : Prop :=
  ∃ w, WrittenAll [n.bare] w ∧ w.length ≤ k ∧ r.Finds (· = []) [n.bare] w

theorem expression_findsBare (hsettled : Text.Settled c.rest)
    (h : expression american c = (.found [n], next)) (hend : next.rest = []) :
    (expression american).FindsBare c.rest.length n := by
  obtain ⟨m, w, hm, hw, hderives⟩ := expression_sound hsettled h
  obtain rfl := (List.cons.inj hm).1
  refine ⟨_, hderives.bare.written, hw.rest_of_end hend ▸ hderives.bare.length, ?_⟩
  exact (expression_finds hderives.bare.derives).mono fun rest hrest =>
    hrest ▸ endsIn_of_blanks allBlank_nil

theorem namedFunction_findsBare (hsettled : Text.Settled c.rest)
    (h : namedFunction american c = (.found [n], next)) (hend : next.rest = []) :
    (namedFunction american).FindsBare c.rest.length n := by
  obtain ⟨f, m, w, hf, hm, hn, hw⟩ := namedFunctionOf_eq operand_sound hsettled h
  obtain rfl := (List.cons.inj hn).1
  have hchildren : Node.bareAll [nameLeaf f, m] = [nameLeaf f, m.bare] := by
    rw [bareAll_nameLeaf, Node.bareAll_operand hm.isNoise, Node.bareAll_nil]
  have hlength := congrArg List.length (hw.rest_of_end hend)
  have hle := hm.bare.length
  rw [List.length_append] at hlength
  refine ⟨f ++ m.bare.text.runes, ?_, ?_, ?_⟩
  · rw [Node.bare_parent, hchildren]
    exact ((writtenAll_nameLeaf hf).append hm.bare.written).parent _
  · rw [List.length_append]
    omega
  · rw [Node.bare_parent, hchildren]
    exact (namedFunctionOf_finds (operand_reads _) hf hm.bare.derives (Nat.le_refl _)).mono
      fun rest hrest => hrest ▸ stops_nil

theorem lambda_findsBare (hsettled : Text.Settled c.rest)
    (h : lambda american c = (.found [n], next)) (hend : next.rest = []) :
    (lambda american).FindsBare c.rest.length n := by
  obtain ⟨f, m, v, l, w, hf, hlambda, hm, hl, hn, hw⟩ := lambdaOf_eq operand_sound hsettled h
  obtain rfl := (List.cons.inj hn).1
  have hchildren : Node.bareAll [nameLeaf f, m, l] = [nameLeaf f, m.bare, l.bare] := by
    rw [bareAll_nameLeaf, Node.bareAll_operand hm.isNoise, Node.bareAll_operand hl.isNoise,
      Node.bareAll_nil]
  have hlength := congrArg List.length (hw.rest_of_end hend)
  -- Bare parts are no longer than the parts themselves, so there is text enough to read them.
  have hmle := hm.bare.length
  have hlle := hl.bare.length
  rw [List.length_append, List.length_append] at hlength
  refine ⟨f ++ (m.bare.text.runes ++ l.bare.text.runes), ?_, ?_, ?_⟩
  · rw [Node.bare_parent, hchildren]
    exact ((writtenAll_nameLeaf hf).append (hm.bare.written.append hl.bare.written)).parent _
  · rw [List.length_append, List.length_append]
    omega
  · rw [Node.bare_parent, hchildren]
    have hreads := operand_reads (m.bare.text.runes.length + l.bare.text.runes.length)
    exact (lambdaOf_finds hreads hf hlambda hm.bare.derives hl.bare.derives (Nat.le_add_right ..)
      (Nat.le_add_left ..)).mono fun rest hrest => hrest ▸ stops_nil

theorem conditionRight_findsBare (hsettled : Text.Settled c.rest)
    (h : conditionRight american c = (.found [n], next)) (hend : next.rest = []) :
    (conditionRight american).FindsBare c.rest.length n := by
  obtain ⟨comparison, s, w, right, hs, hright, hn, hw⟩ := conditionRight_keeps.found h hsettled
  obtain rfl := (List.cons.inj hn).1
  have hchildren : Node.bareAll (conditionNodes comparison s right) =
      conditionNodes comparison [] right.bare := by
    rw [conditionNodes, bareAll_symbolLeaf, Node.bareAll_append, bareAll_spaces,
      Node.bareAll_operand hright.isNoise, Node.bareAll_nil]
    rfl
  have hlength := congrArg List.length (hw.rest_of_end hend)
  have hle := hright.bare.length
  simp only [conditionRunes, List.length_append] at hlength
  refine ⟨conditionRunes comparison [] right.bare.text.runes, ?_, ?_, ?_⟩
  · rw [Node.bare_parent, hchildren]
    exact ((writtenAll_symbolLeaf comparison.symbol comparison.sign.toList).append
      hright.bare.written).parent _
  · simp only [conditionRunes, List.length_append, List.length_nil]
    omega
  · rw [Node.bare_parent, hchildren]
    exact (conditionRight_finds comparison hright.bare.derives).mono fun rest hrest =>
      hrest ▸ endsIn_of_blanks allBlank_nil

end Rule

namespace Grammar

variable {p : Parser} {s t : Text} {n m : Node}

theorem parse_of_findsBare (h : (p.rule american).FindsBare s.runes.length n)
    (hs : american.parse p s = .ok n) : american.parse p n.bare.text = .ok n.bare := by
  obtain ⟨w, hwritten, hle, hfinds⟩ := h
  have hread := @hfinds 0 [] rfl
  rw [List.append_nil, ← hwritten.runes] at hread
  rw [← hwritten.runes] at hle
  exact parse_eq_ok_of_found (Nat.le_trans hle (length_of_parse hs).1) hread rfl

/-- The parser that a token with labels may come from reads the token again without its whitespace,
unless it is a date with whitespace in it. -/
theorem parse_bare (hp : p.takesLabels = true) (h : american.parse p s = .ok n)
    (hdate : p = .valueOrExpression → ¬ n.IsSpacedDate) :
    american.parse p n.bare.text = .ok n.bare := by
  obtain ⟨c, hfound, hend⟩ := found_of_parse h
  have hsettled := Text.settled_runes s
  cases p with
  | conditionRight =>
    exact parse_of_findsBare (Rule.conditionRight_findsBare hsettled hfound hend) h
  | expression => exact parse_of_findsBare (Rule.expression_findsBare hsettled hfound hend) h
  | namedFunction =>
    exact parse_of_findsBare (Rule.namedFunction_findsBare hsettled hfound hend) h
  | lambda => exact parse_of_findsBare (Rule.lambda_findsBare hsettled hfound hend) h
  | valueOrExpression => exact parse_key h (hdate rfl)
  | label =>
    obtain ⟨-, -, -, -, -, -, hn, -⟩ := label_of_parse h
    rw [hn] at h ⊢
    rw [Node.bare_leaf, Node.text_leaf]
    exact h
  | _ => cases hp

/-- A token with labels is no date. -/
theorem not_isSpacedDate_of_labels (h : american.parse .valueOrExpression s = .ok n)
    (hlabels : n.labels ≠ []) : ¬ n.IsSpacedDate := by
  obtain ⟨c, hfound, -⟩ := found_of_parse h
  exact not_isSpacedDate_of_formula (Rule.formula_of_labels hfound hlabels)

/-- The first byte of a formula. -/
def equalsByte : UInt8 := 61

theorem head_of_formula {c next : Cursor} (hsettled : Text.Settled c.rest)
    (h : Rule.formula american c = (.found [n], next)) :
    n.bare.text.bytes.head? = some equalsByte := by
  obtain ⟨s, w, t, m, -, -, hm, hn, -⟩ := Rule.formula_eq hsettled h
  rw [(List.cons.inj hn).1, Node.bare_parent, bareAll_symbolLeaf]
  rfl

/-- What starts as a formula without its whitespace is no date with whitespace in it. -/
theorem not_isSpacedDate_of_head (h : american.parse .valueOrExpression s = .ok n)
    (hhead : n.bare.text.bytes.head? = some equalsByte) : ¬ n.IsSpacedDate := by
  intro hdate
  obtain ⟨c, hfound, -⟩ := found_of_parse h
  obtain ⟨-, b, hb, hbare⟩ := Rule.leads_of_isSpacedDate hfound hdate
  obtain rfl : equalsByte = b := Option.some.inj (hhead.symm.trans hbare)
  rw [(length_of_parse h).2] at hb
  obtain ⟨rest, hrest⟩ := List.head?_eq_some_iff.1 hb
  obtain rfl : s = "=" ++ ⟨rest⟩ := by
    obtain ⟨bytes⟩ := s
    exact congrArg Text.mk hrest
  obtain ⟨_, hformula⟩ := formula_of_parse h
  exact not_isSpacedDate_of_formula hformula hdate

/-- Tokens of one parser with the same text apart from whitespace have the same labels. -/
theorem labels_eq_of_text_eq (hn : american.parse p s = .ok n) (hm : american.parse p t = .ok m)
    (htext : n.bare.text = m.bare.text) : n.labels = m.labels := by
  cases hp : p.takesLabels with
  | false => rw [labels_of_parse hp hn, labels_of_parse hp hm]
  | true =>
    by_cases hlabels : n.labels = [] ∧ m.labels = []
    · rw [hlabels.1, hlabels.2]
    have hdates : p = .valueOrExpression → ¬ n.IsSpacedDate ∧ ¬ m.IsSpacedDate := by
      rintro rfl
      -- One of the two is a formula, and so the other is no date.
      have hstart {s t : Text} {n m : Node} (hn : american.parse .valueOrExpression s = .ok n)
          (hm : american.parse .valueOrExpression t = .ok m) (htext : n.bare.text = m.bare.text)
          (hlabels : n.labels ≠ []) : ¬ n.IsSpacedDate ∧ ¬ m.IsSpacedDate := by
        obtain ⟨c, hfound, -⟩ := found_of_parse hn
        have hhead := head_of_formula (Text.settled_runes s) (Rule.formula_of_labels hfound hlabels)
        exact ⟨not_isSpacedDate_of_labels hn hlabels, not_isSpacedDate_of_head hm (htext ▸ hhead)⟩
      by_cases hnlabels : n.labels = []
      · exact (hstart hm hn htext.symm fun hmlabels => hlabels ⟨hnlabels, hmlabels⟩).symm
      · exact hstart hn hm htext hnlabels
    have hnread := parse_bare hp hn fun heq => (hdates heq).1
    have hmread := parse_bare hp hm fun heq => (hdates heq).2
    rw [htext, hmread] at hnread
    rw [← Node.labels_bare n, ← Node.labels_bare m, Except.ok.inj hnread]

end Grammar

end SheetFormula
