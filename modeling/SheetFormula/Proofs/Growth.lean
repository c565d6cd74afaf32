import SheetFormula.Proofs.Reconstruction

/-!
# How parsed trees are built

A tree is *grown* from leaves when every parent in it is what its constructor makes of its children.
Parsed trees are grown from what the scanners make leaves of: all else goes through the
constructors, the folding of operators included.
-/

namespace SheetFormula

/-- A tree whose leaves satisfy `fits` and whose parents are what their constructors make of their
children. -/
inductive Node.Grown (fits : Content → Text → Prop) : Node → Prop
  | leaf {content : Content} {text : Text} : fits content text → Grown fits (.leaf content text)
  | parent {b : Builder} {children : List Node} {n : Node} :
      (∀ child ∈ children, Grown fits child) → b.buildFull children = .ok n → Grown fits n

theorem Node.Grown.mono {fits fits' : Content → Text → Prop} {n : Node} (h : n.Grown fits)
    (hfits : ∀ content text, fits content text → fits' content text) : n.Grown fits' := by
  induction h with
  | leaf h => exact .leaf (hfits _ _ h)
  | parent _ hn ih => exact .parent ih hn

/-- What is made of the leaves of a grown tree. -/
theorem Node.Grown.fits_leaves {fits : Content → Text → Prop} {n : Node} (h : n.Grown fits) :
    ∀ l ∈ n.leaves, fits l.1 l.2 := by
  induction h with
  | leaf h => simpa using h
  | parent _ hn ih =>
    obtain ⟨form, rfl, -⟩ := Builder.eq_parent_of_buildFull hn
    intro l hl
    rw [Node.leaves_parent] at hl
    obtain ⟨child, hchild, hl⟩ := Node.mem_leavesOfAll.1 hl
    exact ih child hchild l hl

/-- A property of all leaves is one that the tree is grown with. -/
theorem Node.Grown.and_leaves {fits : Content → Text → Prop} {ok : Content × Text → Prop} {n : Node}
    (h : n.Grown fits) (hleaves : ∀ l ∈ n.leaves, ok l) :
    n.Grown fun content text => fits content text ∧ ok (content, text) := by
  induction h with
  | leaf h => exact .leaf ⟨h, by simpa using hleaves⟩
  | parent _ hn ih =>
    obtain ⟨form, rfl, -⟩ := Builder.eq_parent_of_buildFull hn
    rw [Node.leaves_parent] at hleaves
    exact .parent (fun child hchild => ih child hchild fun l hl =>
      hleaves l (Node.mem_leavesOfAll.2 ⟨child, hchild, hl⟩)) hn

/-- What the scanners of a grammar make leaves of, reading runes that are `ok`: a reference is the
one that the text stands for, a name is the text itself, the value of a literal is made of runes
that were read, a component is a number read from digits or the meaning of a word, and an error is
listed. -/
def Grammar.Scans (g : Grammar) (ok : Rune → Prop) (content : Content) (text : Text) : Prop :=
  match content with
  | .component c value =>
    (∃ cs, readInteger 64 cs = .ok value) ∨
      ∃ words, (c, words) ∈ g.lexicon.components ∧ ∃ w ∈ words, w.meaning = value
  | .column column => Column.parse text = .ok column
  | .row row => Row.parse text = .ok row
  | .label name | .template name => name = text
  | .functionName name => name = Rule.upperCase text
  | .literal value => ∃ vs, value = .ofRunes vs ∧ ∀ r ∈ vs, ok r
  | .error code => ∃ w ∈ errorWords, w.meaning = code
  | _ => True

namespace Rule

/-- Where the runes are `ok`, only trees grown from them are found. -/
def OnlyGrown (g : Grammar) (ok : Rune → Prop) (c : Cursor) (nodes : List Node) (next : Cursor) :
    Prop :=
  (∀ r ∈ c.rest, ok r) → (∀ r ∈ next.rest, ok r) ∧ ∀ n ∈ nodes, n.Grown (g.Scans ok)

variable {g : Grammar} {ok : Rune → Prop}

theorem grown_single {content : Content} {text : Text} (h : g.Scans ok content text) :
    ∀ n ∈ [Node.leaf content text], n.Grown (g.Scans ok) := by
  simpa using Node.Grown.leaf h

theorem grown_symbol (s : Symbol) (text : Text) : (Node.leaf (.symbol s) text).Grown (g.Scans ok) :=
  .leaf trivial

theorem parent_grown {b : Builder} {children : List Node} {n : Node}
    (h : ∀ child ∈ children, child.Grown (g.Scans ok)) (hn : b.buildFull children = .ok n) :
    ∀ m ∈ [n], m.Grown (g.Scans ok) := by
  simpa using Node.Grown.parent h hn

/-- A leaf of a number: digits, which are no stray bytes, or a symbol. -/
def IsNumeral (n : Node) : Prop :=
  ∃ content text, n = .leaf content text ∧
    (content = .digits ∧ text.isValid = true ∨ ∃ s, content = .symbol s)

theorem isNumeral_symbol (s : Symbol) (text : Text) : IsNumeral (.leaf (.symbol s) text) :=
  ⟨_, _, rfl, .inr ⟨s, rfl⟩⟩

theorem IsNumeral.grown {n : Node} (h : IsNumeral n) : n.Grown (g.Scans ok) := by
  obtain ⟨content, text, rfl, ⟨rfl, -⟩ | ⟨s, rfl⟩⟩ := h
  · exact .leaf trivial
  · exact grown_symbol s text

theorem isNumeral_digits {c next : Cursor} {nodes : List Node} (h : digits c = (nodes, next)) :
    ∀ n ∈ nodes, IsNumeral n := by
  simp only [digits] at h
  split_ifs at h
  · cases h
    exact List.forall_mem_nil _
  · cases h
    have hvalid : (c.textTo (c.skip isDigit)).isValid = true := by
      rw [(c.passes_skip isDigit).textTo]
      exact Text.isValid_ofRunes fun r hr =>
        Rune.isScalar_of_class (List.mem_takeWhile_imp hr :) (by decide)
    exact List.forall_mem_singleton.2 ⟨_, _, rfl, .inl ⟨rfl, hvalid⟩⟩

theorem isNumeral_sign {minus plus : Char} {c next : Cursor} {nodes : List Node}
    (h : sign minus plus c = (nodes, next)) : ∀ n ∈ nodes, IsNumeral n := by
  unfold sign at h
  split_ifs at h
  · cases h
    exact List.forall_mem_singleton.2 (isNumeral_symbol ..)
  · cases h
    exact List.forall_mem_singleton.2 (isNumeral_symbol ..)
  · cases h
    exact List.forall_mem_nil _

theorem isNumeral_mantissa {separator : Char} {c next : Cursor} {nodes : List Node}
    (h : mantissa separator c = some (nodes, next)) : ∀ n ∈ nodes, IsNumeral n := by
  have hdigits (c : Cursor) : ∀ n ∈ (digits c).1, IsNumeral n := isNumeral_digits rfl
  simp only [mantissa, fraction] at h
  split at h
  · rename_i point places last hfraction
    split_ifs at hfraction h
    cases hfraction
    cases h
    intro n hn
    simp only [List.mem_append, List.mem_singleton] at hn
    rcases hn with (hn | rfl) | hn
    · exact hdigits _ n hn
    · exact isNumeral_symbol ..
    · exact hdigits _ n hn
  · split_ifs at h
    cases h
    exact hdigits c

theorem isNumeral_exponent {marks : WordList Unit} {c next : Cursor} {nodes : List Node}
    (h : exponent marks c = (nodes, next)) : ∀ n ∈ nodes, IsNumeral n := by
  simp only [exponent] at h
  split at h
  · cases h
    exact List.forall_mem_nil _
  · split at h
    · cases h
      exact List.forall_mem_nil _
    · rename_i places last _ hplaces
      cases h
      intro n hn
      simp only [List.cons_append, List.mem_cons, List.mem_append] at hn
      rcases hn with rfl | hn | hn
      · exact isNumeral_symbol ..
      · exact isNumeral_sign rfl n hn
      · exact isNumeral_digits hplaces n hn

theorem isNumeral_percents {percent : Char} {c next : Cursor} {nodes : List Node}
    (h : percents percent c = (nodes, next)) : ∀ n ∈ nodes, IsNumeral n := by
  intro n hn
  obtain ⟨rfl, -⟩ := Prod.mk.inj h
  rw [List.eq_of_mem_replicate hn]
  exact isNumeral_symbol ..

theorem isNumeral_signs {negative positive : Char} {signed : Bool} {c next : Cursor}
    {nodes : List Node}
    (h : (if signed then sign negative positive c else ([], c)) = (nodes, next)) :
    ∀ n ∈ nodes, IsNumeral n := by
  split_ifs at h
  · exact isNumeral_sign h
  · cases h
    exact List.forall_mem_nil _

/-- The leaves of a number are digits and symbols. -/
theorem isNumeral_children {separator : Char} (marks : WordList Unit) (percent : Char)
    {signs places : List Node} {afterSign afterPlaces : Cursor} (hsigns : ∀ n ∈ signs, IsNumeral n)
    (hplaces : mantissa separator afterSign = some (places, afterPlaces)) :
    ∀ n ∈ signs ++ places ++ (exponent marks afterPlaces).1 ++
      (percents percent (exponent marks afterPlaces).2).1, IsNumeral n := by
  simp only [List.forall_mem_append]
  exact ⟨⟨⟨hsigns, isNumeral_mantissa hplaces⟩, isNumeral_exponent rfl⟩, isNumeral_percents rfl⟩

/-- A number is made of digits and symbols. -/
theorem number_eq {signed : Bool} {c next : Cursor} {nodes : List Node}
    (h : number g signed c = (.found nodes, next)) :
    ∃ d children, nodes = [.parent (.number d) children] ∧
      Node.number children = .ok (.parent (.number d) children) ∧ ∀ n ∈ children, IsNumeral n := by
  obtain ⟨signs, afterSign, places, afterPlaces, power, afterPower, hundredths, n, hsigns,
    hplaces, hpower, hhundredths, -, hn, rfl⟩ := number_found_iff.1 h
  have hchildren := isNumeral_children g.lexicon.exponent g.locale.percentSymbol
    (isNumeral_signs hsigns) hplaces
  rw [hpower, hhundredths] at hchildren
  obtain ⟨-, d, -, rfl⟩ := Node.number_eq_ok_iff.1 hn
  exact ⟨d, _, rfl, hn, hchildren⟩

theorem grown_number {signed : Bool} {c next : Cursor} {nodes : List Node}
    (h : number g signed c = (.found nodes, next)) : ∀ n ∈ nodes, n.Grown (g.Scans ok) := by
  obtain ⟨d, children, rfl, hn, hchildren⟩ := number_eq h
  exact parent_grown (b := .number) (fun n hn => (hchildren n hn).grown) hn

/-- The runes behind what was passed are among those in front of it. -/
theorem ok_of_loose {c next : Cursor} {nodes : List Node}
    (h : c.Spells nodes next ∨ next.rest = []) (hok : ∀ r ∈ c.rest, ok r) :
    ∀ r ∈ next.rest, ok r := by
  rcases h with ⟨ws, hws, -⟩ | hend
  · rw [hws.rest] at hok
    exact fun r hr => hok r (List.mem_append_right _ hr)
  · rw [hend]
    exact List.forall_mem_nil _

/-- A scanner finds only grown trees if the leaves it makes are those of the grammar. -/
theorem onlyGrown_of_loose {r : Rule} (hr : Loose r)
    (h : ∀ {c next : Cursor} {nodes : List Node}, r c = (.found nodes, next) →
      (∀ x ∈ c.rest, ok x) → ∀ n ∈ nodes, n.Grown (g.Scans ok)) : Keeps (OnlyGrown g ok) r where
  restores := hr.restores
  found hfound hok := ⟨ok_of_loose (hr.found hfound) hok, h hfound hok⟩

theorem onlyGrown_symbol (s : Symbol) (word : List Char) :
    Keeps (OnlyGrown g ok) (symbol s word) := by
  refine onlyGrown_of_loose (loose_symbol s word) fun h _ => ?_
  obtain ⟨-, -, rfl⟩ := symbol_found_iff.1 h
  exact grown_single trivial

theorem onlyGrown_whitespace : Keeps (OnlyGrown g ok) whitespace := by
  refine onlyGrown_of_loose exact_whitespace.loose fun h _ => ?_
  obtain ⟨-, -, rfl⟩ := whitespace_found_iff.1 h
  exact grown_single trivial

theorem onlyGrown_separator {separator : Rule} (h : IsSeparator g separator) :
    Keeps (OnlyGrown g ok) separator := by
  have hdate : Keeps (OnlyGrown g ok) (dateSeparator g) := by
    refine Keeps.alternatives (List.forall_iff_forall_mem.2 fun r hr => ?_)
    obtain ⟨ch, -, rfl⟩ := List.mem_map.1 hr
    exact onlyGrown_symbol .dateSeparator [ch]
  cases h with
  | date => exact hdate
  | spaceOrDate => exact Keeps.alternatives ⟨onlyGrown_whitespace, hdate⟩
  | time => exact onlyGrown_symbol ..
  | decimal => exact onlyGrown_symbol ..
  | value => exact onlyGrown_symbol ..

/-- The value of quoted text is made of the runes that were read. -/
theorem mem_of_readQuoted {value : List Rune} {count : Nat} {rest v : List Rune} {k : Nat}
    (h : readQuoted value count rest = .ok (v, k)) : ∀ r ∈ v, r ∈ value ∨ r ∈ rest := by
  -- A round puts at most one of the runes it reads in front of the value.
  fun_induction readQuoted value count rest with
  | case1 => cases h
  | case2 value count r hr s rest hs ih =>
    intro x hx
    rcases ih h x hx with hx | hx
    · rcases List.mem_cons.1 hx with rfl | hx
      · simp
      · exact .inl hx
    · simp [hx]
  | case3 value count r hr s rest hs =>
    cases h
    intro x hx
    exact .inl (List.mem_reverse.1 hx)
  | case4 value count r hr =>
    cases h
    intro x hx
    exact .inl (List.mem_reverse.1 hx)
  | case5 value count r rest hr ih =>
    intro x hx
    rcases ih h x hx with hx | hx
    · rcases List.mem_cons.1 hx with rfl | hx
      · simp
      · exact .inl hx
    · simp [hx]

theorem onlyGrown_quotedText : Keeps (OnlyGrown g ok) quotedText := by
  refine onlyGrown_of_loose exact_quotedText.loose fun {c next nodes} h hok => ?_
  obtain ⟨hquote, value, count, n, hread, -, rfl, hn⟩ := quotedText_found_iff.1 h
  obtain ⟨r, v, hrest, -⟩ := Cursor.exists_rest_of_current hquote (by decide)
  have hinside : c.next.rest = v := by
    have := (Cursor.passes_next hrest).rest
    rw [hrest] at this
    exact (List.cons.inj this).2.symm
  have hvalue : ∀ x ∈ value, ok x := by
    intro x hx
    have hmem := (mem_of_readQuoted hread x hx).resolve_left List.not_mem_nil
    rw [hinside] at hmem
    exact hok x (by simp [hrest, hmem])
  refine parent_grown (b := .text) (List.forall_iff_forall_mem.1 ?_) hn
  exact ⟨grown_symbol .., .leaf ⟨value, rfl, hvalue⟩, grown_symbol ..⟩

theorem reduced_grown {nodes : List Node} {n : Node} (h : ∀ m ∈ nodes, m.Grown (g.Scans ok))
    (hn : Node.reduce nodes = .ok n) : ∀ m ∈ [n], m.Grown (g.Scans ok) := by
  refine Node.reduce_keeps (P := fun ns => ∀ m ∈ ns, m.Grown (g.Scans ok)) ?_ h hn
  intro outer span rest m b hm hall
  simp only [List.forall_mem_append, List.forall_mem_cons] at hall ⊢
  exact ⟨hall.1.1, .parent hall.1.2 hm, hall.2⟩

theorem compositional_onlyGrown : Compositional (OnlyGrown g ok) where
  nil _ hok := ⟨hok, List.forall_mem_nil _⟩
  append := by
    intro c mid next ns ms hns hms hok
    obtain ⟨hmid, hns⟩ := hns hok
    obtain ⟨hnext, hms⟩ := hms hmid
    exact ⟨hnext, List.forall_mem_append.2 ⟨hns, hms⟩⟩
  stall h _ hok := ⟨(h hok).1, List.forall_mem_nil _⟩

/-- Growth is an invariant of every grammar whose signs of numbers stand for themselves. -/
theorem invariant_onlyGrown (hl : g.locale.HasPlainSigns) : Invariant g (OnlyGrown g ok) where
  compositional := compositional_onlyGrown
  parent h hn hok := ⟨(h hok).1, parent_grown (h hok).2 hn⟩
  reduced h hn hok := ⟨(h hok).1, reduced_grown (h hok).2 hn⟩
  symbol _ := onlyGrown_symbol ..
  separator h hrules _ := compositional_onlyGrown.keepInTurn_cons (onlyGrown_separator h) hrules
  whitespace := onlyGrown_whitespace
  -- Of the single tokens only what their leaf holds is to be shown.
  readColumn := by
    intro c next nodes h hok
    refine ⟨ok_of_loose (.inl (spells_readColumn h)) hok, ?_⟩
    obtain ⟨-, -, column, hcolumn, rfl⟩ := readColumn_found_iff.1 h
    exact grown_single hcolumn
  readRow := by
    intro c next nodes h hok
    refine ⟨ok_of_loose (.inl (spells_readRow h)) hok, ?_⟩
    obtain ⟨-, -, row, hrow, rfl⟩ := readRow_found_iff.1 h
    exact grown_single hrow
  label := by
    refine onlyGrown_of_loose exact_label.loose fun h _ => ?_
    obtain ⟨-, -, -, -, -, -, rfl⟩ := label_found_iff.1 h
    exact grown_single rfl
  templateValueName := by
    refine onlyGrown_of_loose exact_templateValueName.loose fun h _ => ?_
    obtain ⟨-, -, rfl⟩ := templateValueName_found_iff.1 h
    exact grown_single rfl
  functionName := by
    refine onlyGrown_of_loose exact_functionName.loose fun h _ => ?_
    obtain ⟨-, -, -, rfl⟩ := functionName_found_iff.1 h
    exact grown_single rfl
  errorLiteral := by
    refine onlyGrown_of_loose exact_errorLiteral.loose fun h _ => ?_
    obtain ⟨-, w, hw, rfl⟩ := errorLiteral_found_iff.1 h
    have hmem := (WordList.longestAt_spec (WordList.matchAt_eq_some hw).1).1
    exact grown_single ⟨w, hmem, rfl⟩
  boolean := by
    refine onlyGrown_of_loose exact_boolean.loose fun h _ => ?_
    obtain ⟨-, -, w, -, rfl⟩ := boolean_found_iff.1 h
    exact grown_single trivial
  quotedText := onlyGrown_quotedText
  remainingLiteral := by
    refine onlyGrown_of_loose exact_remainingLiteral.loose fun h hok => ?_
    obtain ⟨-, rfl⟩ := remainingLiteral_found_iff.1 h
    exact grown_single ⟨_, rfl, hok⟩
  number := onlyGrown_of_loose (exact_number hl _).loose fun h _ => grown_number h
  digitsComponent := by
    refine onlyGrown_of_loose (exact_digitsComponent ..).loose fun h _ => ?_
    obtain ⟨-, -, -, value, hvalue, -, -, rfl⟩ := digitsComponent_found_iff.1 h
    exact grown_single (.inl ⟨_, hvalue⟩)
  secondFraction := by
    refine onlyGrown_of_loose exact_secondFraction.loose fun h _ => ?_
    obtain ⟨-, -, -, value, hvalue, rfl⟩ := secondFraction_found_iff.1 h
    exact grown_single (.inl ⟨_, hvalue⟩)
  nameComponent := by
    intro component words hwords
    refine onlyGrown_of_loose (exact_nameComponent ..).loose fun h _ => ?_
    obtain ⟨w, hw, rfl⟩ := nameComponent_found_iff.1 h
    have hmatch := WordList.matchAt_eq_some (WordList.matchWhole_eq_some_iff.1 hw).1
    exact grown_single (.inr ⟨words, hwords, w, (WordList.longestAt_spec hmatch.1).1, rfl⟩)

end Rule

end SheetFormula
