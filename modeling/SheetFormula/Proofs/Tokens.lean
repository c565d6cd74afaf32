import SheetFormula.Grammar.Dates
import SheetFormula.Grammar.Names
import SheetFormula.Proofs.Build
import SheetFormula.Proofs.Rules

/-!
# When a token is found

One lemma for each hand-written scanner: which text makes it find its token, where the cursor stands
afterwards and which leaf or parent comes out.  Later proofs go through these lemmas and do not open
the scanners.
-/

namespace SheetFormula

/-! ### Words -/

namespace WordList

variable {α : Type} {words : WordList α} {rest : List Rune} {w : Word α}

theorem standsAt_iff :
    standsAt w rest = true ↔
      w.length ≤ rest.length ∧ w.length ≠ 0 ∧ foldRunes (rest.take w.length) = w.folded := by
  simp only [standsAt, List.length_take, Bool.and_eq_true, beq_iff_eq, bne_iff_ne, and_assoc]
  have : min w.length rest.length = w.length ↔ w.length ≤ rest.length := by omega
  rw [this]

/-- The longest of the words `seen` that stand somewhere, if one does. -/
structure IsLongest (rest : List Rune) (seen : List (Word α)) (best : Option (Word α)) : Prop where
  stands : ∀ w ∈ best, w ∈ seen ∧ standsAt w rest = true
  longest : ∀ v ∈ seen, standsAt v rest = true → v.length ≤ (best.map Word.length).getD 0

/-- One more word. -/
theorem IsLongest.concat {seen : List (Word α)} {best : Option (Word α)}
    (h : IsLongest rest seen best) (u : Word α) :
    IsLongest rest (seen ++ [u])
      (if (best.map Word.length).getD 0 < u.length && standsAt u rest then some u else best) := by
  split_ifs with hu
  · obtain ⟨hlonger, hstands⟩ := Bool.and_eq_true_iff.1 hu
    rw [decide_eq_true_eq] at hlonger
    refine ⟨fun w hw => ?_, fun v hv hv' => ?_⟩
    · obtain rfl := Option.mem_some_iff.1 hw
      exact ⟨List.mem_append_right _ (List.mem_singleton_self _), hstands⟩
    · rcases List.mem_append.1 hv with hseen | hlast
      · exact Nat.le_trans (h.longest v hseen hv') (Nat.le_of_lt hlonger)
      · obtain rfl := List.mem_singleton.1 hlast
        exact Nat.le_refl _
  · refine ⟨fun w hw => ⟨List.mem_append_left _ (h.stands w hw).1, (h.stands w hw).2⟩,
      fun v hv hv' => ?_⟩
    rcases List.mem_append.1 hv with hseen | hlast
    · exact h.longest v hseen hv'
    · obtain rfl := List.mem_singleton.1 hlast
      rw [hv', Bool.and_true, decide_eq_true_eq] at hu
      exact Nat.le_of_not_lt hu

theorem IsLongest.foldl {seen : List (Word α)} {best : Option (Word α)}
    (h : IsLongest rest seen best) (more : List (Word α)) :
    IsLongest rest (seen ++ more) (more.foldl (fun best w =>
      if (best.map Word.length).getD 0 < w.length && standsAt w rest then some w else best)
      best) := by
  induction more generalizing seen best with
  | nil => rwa [List.append_nil]
  | cons u more ih =>
    rw [List.append_cons]
    exact ih (h.concat u)

/-- The longest word is one of the words, stands there and no longer one does. -/
theorem longestAt_spec (h : words.longestAt rest = some w) :
    w ∈ words ∧ standsAt w rest = true ∧
      ∀ v ∈ words, standsAt v rest = true → v.length ≤ w.length := by
  have hnone : IsLongest rest ([] : List (Word α)) none := ⟨nofun, nofun⟩
  have hall : IsLongest rest words (words.longestAt rest) := hnone.foldl words
  rw [h] at hall
  obtain ⟨hmem, hstands⟩ := hall.stands w rfl
  exact ⟨hmem, hstands, hall.longest⟩

variable {c next : Cursor}

theorem matchAt_eq_some (h : words.matchAt c = some (w, next)) :
    words.longestAt c.rest = some w ∧ next = c.advance w.length := by
  simp only [matchAt, Option.map_eq_some_iff, Prod.mk.injEq] at h
  obtain ⟨w', hw', rfl, rfl⟩ := h
  exact ⟨hw', rfl⟩

theorem matchWhole_eq_some_iff :
    words.matchWhole c = some (w, next) ↔
      words.matchAt c = some (w, next) ∧ isLetter next.current = false := by
  simp [matchWhole, Option.filter_eq_some_iff]

end WordList

namespace Rule

variable {c next : Cursor} {nodes : List Node}

/-! ### References -/

/-- Runes of a class after an optional `$`, from which a column or a row is read. -/
def readLine {α : Type} (isPart : Char → Bool) (parse : Text → Except ReferenceError α)
    (content : α → Content) : Rule := fun c =>
  let next := (skipAbsolute c).skip isPart
  if next.pos = (skipAbsolute c).pos then (.absent, next)
  else match parse (c.textTo next) with
    | .ok line => leafBetween (content line) c next
    | .error e => (.failed (.parse ⟨c.pos, .reference e⟩), next)

theorem readColumn_eq_readLine : readColumn = readLine isLetter Column.parse .column := by
  funext c
  simp only [readColumn, readLine]
  cases Column.parse (c.textTo ((skipAbsolute c).skip isLetter)) <;> rfl

theorem readRow_eq_readLine : readRow = readLine isDigit Row.parse .row := by
  funext c
  simp only [readRow, readLine]
  cases Row.parse (c.textTo ((skipAbsolute c).skip isDigit)) <;> rfl

theorem readLine_found_iff {α : Type} {isPart : Char → Bool}
    {parse : Text → Except ReferenceError α} {content : α → Content} :
    readLine isPart parse content c = (.found nodes, next) ↔
      next = (skipAbsolute c).skip isPart ∧ next.pos ≠ (skipAbsolute c).pos ∧
        ∃ line, parse (c.textTo next) = .ok line ∧
          nodes = [.leaf (content line) (c.textTo next)] := by
  simp only [readLine, leafBetween]
  by_cases hpos : ((skipAbsolute c).skip isPart).pos = (skipAbsolute c).pos
  · simp only [hpos, if_true]
    grind
  · simp only [hpos, if_false]
    cases hparse : parse (c.textTo ((skipAbsolute c).skip isPart)) <;> grind

theorem readLine_failed {α : Type} {isPart : Char → Bool}
    {parse : Text → Except ReferenceError α} {content : α → Content} {failure : Failure}
    (h : readLine isPart parse content c = (.failed failure, next)) :
    ∃ e, parse (c.textTo ((skipAbsolute c).skip isPart)) = .error e ∧
      failure = .parse ⟨c.pos, .reference e⟩ := by
  simp only [readLine, leafBetween] at h
  split_ifs at h
  · cases h
  split at h
  · cases h
  · cases h
    exact ⟨_, ‹_›, rfl⟩

theorem readColumn_found_iff :
    readColumn c = (.found nodes, next) ↔
      next = (skipAbsolute c).skip isLetter ∧ next.pos ≠ (skipAbsolute c).pos ∧
        ∃ column, Column.parse (c.textTo next) = .ok column ∧
          nodes = [.leaf (.column column) (c.textTo next)] := by
  rw [readColumn_eq_readLine, readLine_found_iff]

theorem readRow_found_iff :
    readRow c = (.found nodes, next) ↔
      next = (skipAbsolute c).skip isDigit ∧ next.pos ≠ (skipAbsolute c).pos ∧
        ∃ row, Row.parse (c.textTo next) = .ok row ∧
          nodes = [.leaf (.row row) (c.textTo next)] := by
  rw [readRow_eq_readLine, readLine_found_iff]

/-- A cell is found when its column and its row are and no name goes on behind them. -/
theorem readCell_found_iff :
    readCell c = (.found nodes, next) ↔
      ∃ column mid row n, readColumn c = (.found column, mid) ∧ readRow mid = (.found row, next) ∧
        isLabelPart next.current = false ∧ next.current ≠ '(' ∧
        Node.cell (column ++ row) = .ok n ∧ nodes = [n] := by
  rw [readCell]
  rcases readColumn c with ⟨_ | column | _, mid⟩
  · simp
  · rcases h : readRow mid with ⟨_ | row | _, last⟩
    · simp [h]
    · by_cases hpart : (isLabelPart last.current || last.current == '(') = true
      · simp only [h, hpart, if_true]
        grind
      · simp only [h, if_neg hpart, built_found_iff]
        grind
    · simp only [h]
      split_ifs <;> simp [h]
  · simp only
    split_ifs <;> simp

theorem restoring_found_iff {r : Rule} :
    restoring r c = (.found nodes, next) ↔ r c = (.found nodes, next) := by
  rw [restoring]
  rcases r c with ⟨_ | _ | _, mid⟩ <;> simp

/-! ### Names -/

theorem label_found_iff :
    label c = (.found nodes, next) ↔
      isLabelStart c.current = true ∧ next = c.skip isLabelPart ∧
        (c.textTo next).size ≤ maxLabelLength ∧ next.current ≠ '(' ∧
        isBoolean (c.textTo next) = false ∧ isCell (c.textTo next) = false ∧
        nodes = [.leaf (.label (c.textTo next)) (c.textTo next)] := by
  simp only [label, leafBetween]
  split_ifs with hstart hname
  · grind
  · grind
  · grind

theorem label_absent (h : label c = (.absent, next)) : next = c := by
  grind [label, leafBetween]

theorem templateValueName_found_iff :
    templateValueName c = (.found nodes, next) ↔
      isLabelStart c.current = true ∧ next = c.skip (fun ch => isLabelPart ch || ch == '-') ∧
        nodes = [.leaf (.template (c.textTo next)) (c.textTo next)] := by
  simp only [templateValueName, leafBetween]
  split_ifs with hstart <;> grind

theorem templateValueName_absent (h : templateValueName c = (.absent, next)) : next = c := by
  grind [templateValueName, leafBetween]

theorem functionName_found_iff :
    functionName c = (.found nodes, next) ↔
      isLetter c.current = true ∧ next = c.skip isLabelPart ∧ next.current = '(' ∧
        nodes = [.leaf (.functionName (upperCase (c.textTo next))) (c.textTo next)] := by
  simp only [functionName, leafBetween]
  split_ifs with hstart hparen <;> grind

theorem functionName_absent (h : functionName c = (.absent, next)) : next = c := by
  grind [functionName, leafBetween]

theorem lambdaName_found_iff :
    lambdaName c = (.found nodes, next) ↔
      functionName c = (.found nodes, next) ∧
        ∃ text, nodes = [.leaf (.functionName "LAMBDA") text] := by
  rw [lambdaName]
  constructor
  · intro h
    split at h
    · split_ifs at h with hname
      · cases h
        subst hname
        exact ⟨‹_›, _, rfl⟩
      · cases h
    · rename_i answer hanswer
      obtain ⟨-, -, -, hnodes⟩ := functionName_found_iff.1 h
      subst hnodes
      exact absurd h (hanswer _ _ _)
  · rintro ⟨h, text, rfl⟩
    rw [h]
    simp

theorem lambdaName_absent (h : lambdaName c = (.absent, next)) : next = c := by
  rw [lambdaName] at h
  split at h
  · split_ifs at h
    · cases h
    · cases h
      rfl
  · exact functionName_absent h

/-! ### Literals -/

theorem errorLiteral_found_iff :
    errorLiteral c = (.found nodes, next) ↔
      c.current = '#' ∧ ∃ w, errorWords.matchAt c = some (w, next) ∧
        nodes = [.leaf (.error w.meaning) (c.textTo next)] := by
  simp only [errorLiteral, leafBetween]
  rcases h : errorWords.matchAt c with _ | ⟨w, mid⟩ <;> split_ifs <;> grind

theorem errorLiteral_absent (h : errorLiteral c = (.absent, next)) : next = c := by
  grind [errorLiteral, leafBetween]

theorem boolean_found_iff :
    boolean c = (.found nodes, next) ↔
      isLabelPart next.current = false ∧ next.current ≠ '(' ∧
        ∃ w, booleanWords.matchWhole c = some (w, next) ∧
          nodes = [.leaf (.boolean w.meaning) (c.textTo next)] := by
  simp only [boolean, leafBetween]
  rcases h : booleanWords.matchWhole c with _ | ⟨w, mid⟩
  · simp
  · simp only
    split_ifs <;> grind

theorem boolean_absent (h : boolean c = (.absent, next)) : next = c := by
  grind [boolean, leafBetween]

theorem quotedText_found_iff :
    quotedText c = (.found nodes, next) ↔
      c.current = '"' ∧ ∃ value count n, readQuoted [] 0 c.next.rest = .ok (value, count) ∧
        next = (c.next.advance count).next ∧ nodes = [n] ∧
        Node.quotation [quoteLeaf,
          .leaf (.literal (.ofRunes value)) (c.next.textTo (c.next.advance count)), quoteLeaf] =
          .ok n := by
  simp only [quotedText]
  rcases h : readQuoted [] 0 c.next.rest with count | ⟨value, count⟩
  · split_ifs <;> simp
  · split_ifs with hquote
    · grind
    · simp only [built_found_iff]
      grind

theorem quotedText_absent (h : quotedText c = (.absent, next)) : next = c := by
  simp only [quotedText] at h
  split_ifs at h
  · cases h
    rfl
  · split at h
    · exact absurd h built_ne_absent
    · cases h

theorem remainingLiteral_found_iff :
    remainingLiteral c = (.found nodes, next) ↔
      next = c.advance c.rest.length ∧
        nodes = [.leaf (.literal (.ofRunes c.rest)) (.ofRunes c.rest)] := by
  grind [remainingLiteral]

theorem wholeText_found_iff :
    wholeText c = (.found nodes, next) ↔
      c.rest ≠ [] ∧ transform remainingLiteral Node.quotation c = (.found nodes, next) := by
  simp only [wholeText, Cursor.atEnd]
  split_ifs with hend <;> simp_all

theorem wholeText_absent (h : wholeText c = (.absent, next)) : next = c := by
  rw [wholeText] at h
  split_ifs at h
  · cases h
    rfl
  · cases transform_absent_iff.1 h

/-! ### Numbers -/

/-- The leaves of a number, in the order in which they are read, and the cursors between them. -/
theorem number_found_iff {g : Grammar} {signed : Bool} :
    number g signed c = (.found nodes, next) ↔
      ∃ signs afterSign places afterPlaces power afterPower hundredths n,
        (if signed then sign g.locale.negativeSign g.locale.positiveSign c else ([], c)) =
          (signs, afterSign) ∧
        mantissa g.locale.decimalSeparator afterSign = some (places, afterPlaces) ∧
        exponent g.lexicon.exponent afterPlaces = (power, afterPower) ∧
        percents g.locale.percentSymbol afterPower = (hundredths, next) ∧
        (next.atEnd && g.locale.percentSymbol == nul) = false ∧
        Node.number (signs ++ places ++ power ++ hundredths) = .ok n ∧ nodes = [n] := by
  simp only [number]
  rcases hsign : (if signed then sign g.locale.negativeSign g.locale.positiveSign c else ([], c))
    with ⟨signs, afterSign⟩
  rcases hplaces : mantissa g.locale.decimalSeparator afterSign with _ | ⟨places, afterPlaces⟩
  · simp [hplaces]
  rcases hpower : exponent g.lexicon.exponent afterPlaces with ⟨power, afterPower⟩
  rcases hhundredths : percents g.locale.percentSymbol afterPower with ⟨hundredths, last⟩
  simp only [hpower, hhundredths]
  -- What is left after the four parts is whether the search ends, and then the value.
  cases hendless : (last.atEnd && g.locale.percentSymbol == nul) with
  | true => grind
  | false =>
    cases hvalue : numberValue (signs ++ places ++ power ++ hundredths) with
    | ok value =>
      simp only [Bool.false_eq_true, if_false, built_found_iff]
      grind
    | error fault => grind [Node.number_eq_ok_iff]

theorem number_absent {g : Grammar} {signed : Bool} (h : number g signed c = (.absent, next)) :
    next = c := by
  simp only [number] at h
  split at h
  · cases h
    rfl
  · split at h
    · cases h
    · split at h
      · exact absurd h built_ne_absent
      · cases h

/-! ### Components of dates and times -/

theorem digitsComponent_found_iff {component : Component} {fewest most low high : Nat} :
    digitsComponent component fewest most low high c = (.found nodes, next) ↔
      next = skipDigits most c ∧ fewest ≤ next.pos - c.pos ∧ isDigit next.current = false ∧
        ∃ value : Int, readInteger 64 (c.textTo next).chars = .ok value ∧ low ≤ value ∧
          value ≤ high ∧ nodes = [.leaf (.component component value) (c.textTo next)] := by
  simp only [digitsComponent]
  rcases h : readInteger 64 (c.textTo (skipDigits most c)).chars with fault | value
  · split_ifs <;> grind
  · split_ifs <;> grind

theorem digitsComponent_absent {component : Component} {fewest most low high : Nat}
    (h : digitsComponent component fewest most low high c = (.absent, next)) : next = c := by
  grind [digitsComponent]

theorem secondFraction_found_iff :
    secondFraction c = (.found nodes, next) ↔
      next = skipDigits fractionDigits c ∧ next.pos ≠ c.pos ∧ isDigit next.current = false ∧
        ∃ value : Int, readInteger 64 ((c.textTo next).chars ++
            List.replicate (fractionDigits - (c.textTo next).size) '0') = .ok value ∧
          nodes = [.leaf (.component .fraction value) (c.textTo next)] := by
  simp only [secondFraction]
  rcases h : readInteger 64 ((c.textTo (skipDigits fractionDigits c)).chars ++
    List.replicate (fractionDigits - (c.textTo (skipDigits fractionDigits c)).size) '0')
    with fault | value
  · split_ifs <;> grind
  · split_ifs <;> grind

theorem secondFraction_absent (h : secondFraction c = (.absent, next)) : next = c := by
  grind [secondFraction]

theorem nameComponent_found_iff {component : Component} {words : WordList Int} :
    nameComponent component words c = (.found nodes, next) ↔
      ∃ w, words.matchWhole c = some (w, next) ∧
        nodes = [.leaf (.component component w.meaning) (c.textTo next)] := by
  simp only [nameComponent]
  rcases h : words.matchWhole c with _ | ⟨w, mid⟩ <;> grind

theorem nameComponent_absent {component : Component} {words : WordList Int}
    (h : nameComponent component words c = (.absent, next)) : next = c := by
  grind [nameComponent]

end Rule

end SheetFormula
