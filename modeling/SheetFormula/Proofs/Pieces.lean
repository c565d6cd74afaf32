import Mathlib.Data.List.SplitBy
import SheetFormula.Proofs.Times
import SheetFormula.Proofs.WrittenTokens

/-!
# The pieces of dates and times

Dates and times are written as numbers and words with marks and blanks between them.  A piece of a
text is a run of runes of one kind, and pieces are followed by pieces of another kind.  So the text
that they make up tells where each of them ends, `ArePieces.unique`, and what each of them says is
read from its runes alone.
-/

namespace SheetFormula

/-- The kinds of runes that the pieces of dates and times are made of. -/
inductive PieceKind
  | digits
  | blanks
  | mark
  | word
deriving DecidableEq

/-- The kind of pieces that a character belongs to. -/
def PieceKind.of (ch : Char) : PieceKind :=
  if isDigit ch then .digits else if isBlank ch then .blanks
  else if ch ∈ markChars then .mark else .word

/-- A run of runes of one kind. -/
structure IsPiece (k : PieceKind) (w : List Rune) : Prop where
  nonempty : w ≠ []
  kind : ∀ r ∈ w, PieceKind.of r.value = k

/-- Pieces of the kinds `ks`, none of the same kind as the one in front of it. -/
inductive ArePieces : List PieceKind → List (List Rune) → Prop
  | nil : ArePieces [] []
  | cons {k : PieceKind} {ks : List PieceKind} {w : List Rune} {ps : List (List Rune)} :
      IsPiece k w → ks.head? ≠ some k → ArePieces ks ps → ArePieces (k :: ks) (w :: ps)

/-- Whether two runes belong to the same kind of pieces. -/
def sameKind (r s : Rune) : Bool := PieceKind.of r.value == PieceKind.of s.value

variable {k l : PieceKind} {ks ls : List PieceKind} {ps qs : List (List Rune)} {w : List Rune}

theorem IsPiece.unique (hk : IsPiece k w) (hl : IsPiece l w) : k = l := by
  obtain ⟨r, v, rfl⟩ := List.exists_cons_of_ne_nil hk.nonempty
  rw [← hk.kind r (List.mem_cons_self ..), hl.kind r (List.mem_cons_self ..)]

theorem isPiece_mark {ch : Char} (h : PieceKind.of ch = .mark) : IsPiece .mark [.scalar ch] where
  nonempty := nofun
  kind r hr := by
    rw [List.mem_singleton.1 hr]
    exact h

/-- A piece is not cut. -/
theorem IsPiece.splitBy (h : IsPiece k w) : w.splitBy sameKind = [w] := by
  refine List.splitBy_of_isChain h.nonempty (List.Pairwise.isChain ?_)
  refine List.pairwise_of_forall_mem_list fun r hr s hs => ?_
  rw [sameKind, h.kind r hr, h.kind s hs, beq_self_eq_true]

/-- Pieces start with a rune of their first kind. -/
theorem ArePieces.kind_of_head (h : ArePieces ks ps) :
    ∀ r ∈ ps.flatten.head?, ks.head? = some (PieceKind.of r.value) := by
  cases h with
  | nil => nofun
  | cons hw =>
    intro r hr
    rw [List.flatten_cons, List.head?_append_of_ne_nil _ hw.nonempty] at hr
    rw [List.head?_cons, hw.kind r (List.mem_of_mem_head? hr)]

/-- Cutting a text where the kind of its runes changes gives its pieces. -/
theorem ArePieces.splitBy_flatten (h : ArePieces ks ps) : ps.flatten.splitBy sameKind = ps := by
  induction h with
  | nil => rfl
  | @cons k ks w ps hw hhead h ih =>
    rw [List.flatten_cons, List.splitBy_append, hw.splitBy, ih]
    · rfl
    · intro r hr s hs
      rw [sameKind, beq_eq_false_iff_ne, hw.kind r (List.mem_of_mem_getLast? hr)]
      intro heq
      exact hhead (heq ▸ h.kind_of_head s hs)

/-- A text is cut into pieces in one way. -/
theorem ArePieces.unique (h : ArePieces ks ps) (h' : ArePieces ls qs)
    (heq : ps.flatten = qs.flatten) : ps = qs ∧ ks = ls := by
  have hpieces : ps = qs := by rw [← h.splitBy_flatten, heq, h'.splitBy_flatten]
  subst hpieces
  refine ⟨rfl, ?_⟩
  clear heq
  induction h generalizing ls with
  | nil =>
    cases h'
    rfl
  | cons hw _ _ ih =>
    cases h' with
    | cons hw' _ h' => rw [hw.unique hw', ih h']

theorem ArePieces.append (h : ArePieces ks ps) (h' : ArePieces ls qs)
    (hne : ∀ k ∈ ks.getLast?, ls.head? ≠ some k) : ArePieces (ks ++ ls) (ps ++ qs) := by
  induction h with
  | nil => exact h'
  | @cons k ks w ps hw hhead h ih =>
    cases ks with
    | nil =>
      cases h
      exact .cons hw (hne k rfl) h'
    | cons k' ks => exact .cons hw hhead (ih fun l hl => hne l (by simpa using hl))

theorem ArePieces.of_append (h : ArePieces ks (ps ++ qs)) :
    ∃ ks₁ ks₂, ks = ks₁ ++ ks₂ ∧ ArePieces ks₁ ps ∧ ArePieces ks₂ qs := by
  induction ps generalizing ks with
  | nil => exact ⟨[], ks, rfl, .nil, h⟩
  | cons w ps ih =>
    cases h with
    | cons hw hhead h =>
      obtain ⟨ks₁, ks₂, rfl, h₁, h₂⟩ := ih h
      refine ⟨_ :: ks₁, ks₂, rfl, .cons hw (fun hk => hhead ?_) h₁, h₂⟩
      rw [List.head?_append, hk, Option.some_or]

/-- Whether pieces of a kind are numbers or words. -/
def PieceKind.isSolid : PieceKind → Bool
  | digits | word => true
  | blanks | mark => false

/-- Pieces that begin and end with a number or a word. -/
def AreBounded (ps : List (List Rune)) : Prop :=
  ∃ ks first last, ArePieces ks ps ∧ ks.head? = some first ∧ first.isSolid = true ∧
    ks.getLast? = some last ∧ last.isSolid = true

theorem ArePieces.single (h : IsPiece k w) : ArePieces [k] [w] := .cons h nofun .nil

theorem AreBounded.single (h : IsPiece k w) (hk : k.isSolid = true) : AreBounded [w] :=
  ⟨[k], k, k, .single h, rfl, hk, rfl, hk⟩

theorem ne_of_isSolid (hk : k.isSolid = true) (hl : l.isSolid = false) : k ≠ l :=
  fun heq => Bool.noConfusion (hk.symm.trans (heq ▸ hl))

/-- Something else stands between numbers and words. -/
theorem AreBounded.join {gs : List PieceKind} {bs : List (List Rune)} (h : AreBounded ps)
    (hbs : ArePieces gs bs) (hne : gs ≠ []) (hgs : ∀ g ∈ gs, g.isSolid = false)
    (h' : AreBounded qs) : AreBounded (ps ++ (bs ++ qs)) := by
  obtain ⟨ks, first, last, hks, hfirst, hsolid, hlast, hsolid'⟩ := h
  obtain ⟨ls, first', last', hls, hfirst', hsolidFirst, hlast', hsolidLast⟩ := h'
  have hbehind : ArePieces (gs ++ ls) (bs ++ qs) := by
    refine hbs.append hls fun g hg heq => ?_
    rw [hfirst'] at heq
    exact ne_of_isSolid hsolidFirst (hgs g (List.mem_of_mem_getLast? hg)) (Option.some.inj heq)
  refine ⟨ks ++ (gs ++ ls), first, last', hks.append hbehind fun k hk heq => ?_, ?_, hsolid, ?_,
    hsolidLast⟩
  · rw [Option.mem_def, hlast] at hk
    rw [List.head?_append_of_ne_nil _ hne, ← hk] at heq
    exact ne_of_isSolid hsolid' (hgs last (List.mem_of_mem_head? heq)) rfl
  · rw [List.head?_append, hfirst, Option.some_or]
  · rw [List.getLast?_append, List.getLast?_append, hlast', Option.some_or, Option.some_or]

/-- One piece stands between numbers and words. -/
theorem AreBounded.gap (h : AreBounded ps) (hw : IsPiece l w) (hl : l.isSolid = false)
    (h' : AreBounded qs) : AreBounded (ps ++ w :: qs) :=
  h.join (.single hw) (List.cons_ne_nil _ _) (List.forall_mem_singleton.2 hl) h'

/-! ### What a piece says -/

/-- The digits `w` stand for the number `n`. -/
structure IsNumberOf (fewest most : Nat) (w : List Rune) (n : Nat) : Prop
    extends Rule.IsNumberText fewest most w where
  value : digitsValue (w.map Rune.value) = n

instance (fewest most : Nat) (w : List Rune) (n : Nat) :
    Decidable (IsNumberOf fewest most w n) :=
  decidable_of_iff ((∀ r ∈ w, isDigit r.value = true) ∧ fewest ≤ w.length ∧ w.length ≤ most ∧
      digitsValue (w.map Rune.value) = n)
    ⟨fun ⟨hdigits, hfewest, hmost, hvalue⟩ => ⟨⟨hdigits, hfewest, hmost⟩, hvalue⟩,
      fun h => ⟨h.digits, h.fewest, h.most, h.value⟩⟩

/-- The runes `w` are a name of the number `n`, in whatever case. -/
def IsNameOf (names : List (Text × Nat)) (n : Nat) (w : List Rune) : Prop :=
  ∃ name, (name, n) ∈ names ∧ w.length = name.runeCount ∧ foldRunes w = name.fold

instance (names : List (Text × Nat)) (n : Nat) (w : List Rune) :
    Decidable (IsNameOf names n w) :=
  decidable_of_iff (∃ p ∈ names, p.2 = n ∧ w.length = p.1.runeCount ∧ foldRunes w = p.1.fold)
    ⟨fun ⟨p, hmem, hn, h⟩ => ⟨p.1, hn ▸ hmem, h⟩,
      fun ⟨name, hmem, h⟩ => ⟨(name, n), hmem, rfl, h⟩⟩

/-- The names as words to be recognised. -/
def wordsOf (names : List (Text × Nat)) : WordList Int :=
  .of (names.map fun (name, n) => (name, (n : Int)))

/-- Names without marks, none of which has two meanings. -/
structure AreNames (names : List (Text × Nat)) : Prop where
  nonempty : ∀ p ∈ names, p.1.runeCount ≠ 0
  unmarked : (wordsOf names).Unmarked
  unique : ∀ p ∈ names, ∀ q ∈ names, p.1.fold = q.1.fold → p.2 = q.2

section

variable {names : List (Text × Nat)} {fewest most m n : Nat}

theorem IsNumberOf.isPiece (h : IsNumberOf fewest most w n) (hfewest : 0 < fewest) :
    IsPiece .digits w where
  nonempty := List.ne_nil_of_length_pos (Nat.lt_of_lt_of_le hfewest h.fewest)
  kind r hr := if_pos (h.digits r hr)

theorem IsNumberOf.unique (h : IsNumberOf fewest most w n) {fewest' most' : Nat}
    (h' : IsNumberOf fewest' most' w m) : n = m := h.value.symm.trans h'.value

theorem PieceKind.of_eq_word {ch : Char} (h : ch ∉ markChars) : PieceKind.of ch = .word := by
  have hdigit : ¬ isDigit ch = true := fun hdigit => h (mem_markChars_of_isDigit hdigit)
  have hblank : ¬ isBlank ch = true := fun hblank => h (Rule.mem_markChars_of_isBlank hblank)
  simp [PieceKind.of, hdigit, hblank, h]

theorem mem_wordsOf_iff {u : Word Int} :
    u ∈ wordsOf names ↔ ∃ p ∈ names, u = .of p.1 (p.2 : Int) := by
  simp [wordsOf, WordList.of, eq_comm]

theorem IsNameOf.isPiece (hnames : AreNames names) (h : IsNameOf names n w) : IsPiece .word w := by
  obtain ⟨name, hmem, hlength, hfold⟩ := h
  refine ⟨fun hnil => hnames.nonempty _ hmem ?_, fun r hr => PieceKind.of_eq_word ?_⟩
  · rw [← hlength, hnil, List.length_nil]
  · exact hnames.unmarked.value_not_mem (mem_wordsOf_iff.2 ⟨_, hmem, rfl⟩) hfold r hr

theorem IsNameOf.unique (hnames : AreNames names) (h : IsNameOf names m w)
    (h' : IsNameOf names n w) : m = n := by
  obtain ⟨name, hmem, -, hfold⟩ := h
  obtain ⟨name', hmem', -, hfold'⟩ := h'
  exact hnames.unique _ hmem _ hmem' (hfold.symm.trans hfold')

end

/-! ### Reading nodes in turn -/

/-- Reading the nodes one after another with `read` turns `a` into `b`. -/
def ReadsTo {α ε : Type} (read : α → Node → Except ε α) (a : α) (nodes : List Node) (b : α) :
    Prop :=
  nodes.foldlM read a = .ok b

namespace ReadsTo

variable {α ε : Type} {read : α → Node → Except ε α} {a a' a'' : α} {nodes more : List Node}

theorem nil : ReadsTo read a [] a := rfl

theorem append (h : ReadsTo read a nodes a') (h' : ReadsTo read a' more a'') :
    ReadsTo read a (nodes ++ more) a'' := by
  rw [ReadsTo, List.foldlM_append, h]
  exact h'

theorem single {n : Node} (h : read a n = .ok a') : ReadsTo read a [n] a' := by
  rw [ReadsTo, List.foldlM_cons, h]
  rfl

end ReadsTo

/-! ### Rules for pieces -/

/-- What a rule finds is a piece, of which `Q` tells what it says and what its nodes are. -/
def Rule.Writes (r : Rule) (Q : List Rune → List Node → Prop) : Prop :=
  ∀ ⦃c next : Cursor⦄ ⦃nodes : List Node⦄, r c = (.found nodes, next) →
    ∃ w, c.Passes w next ∧ Q w nodes

/-- The pieces `ps` with nodes one after another, for each of which `Qs` tells what it is. -/
inductive WrittenInTurn : List (List Rune → List Node → Prop) → List (List Rune) → List Node → Prop
  | nil : WrittenInTurn [] [] []
  | cons {Q : List Rune → List Node → Prop} {Qs : List (List Rune → List Node → Prop)}
      {w : List Rune} {ps : List (List Rune)} {first more : List Node} :
      Q w first → WrittenInTurn Qs ps more → WrittenInTurn (Q :: Qs) (w :: ps) (first ++ more)

namespace Rule

variable {component : Component} {c next start : Cursor} {nodes : List Node} {rules : List Rule}
  {Qs : List (List Rune → List Node → Prop)}

theorem Writes.imp {r : Rule} {Q Q' : List Rune → List Node → Prop} (h : r.Writes Q)
    (hQ : ∀ w nodes, Q w nodes → Q' w nodes) : r.Writes Q' := by
  intro c next nodes hfound
  obtain ⟨w, hw, hwritten⟩ := h hfound
  exact ⟨w, hw, hQ w nodes hwritten⟩

theorem Writes.alternatives {rules : List Rule} {Q : List Rune → List Node → Prop}
    (hexact : rules.Forall Exact) (h : rules.Forall (Writes · Q)) :
    (alternatives rules).Writes Q := by
  intro c next nodes hfound
  obtain ⟨r, hr, hfirst⟩ := exists_mem_of_alternatives hexact hfound nofun
  exact List.forall_iff_forall_mem.1 h r hr hfirst

/-- What rules find one after another is a piece for each of them. -/
theorem sequence_written (hrules : List.Forall₂ Writes rules Qs)
    (h : sequenceFrom start rules c = (.found nodes, next)) :
    ∃ ps, c.Passes ps.flatten next ∧ WrittenInTurn Qs ps nodes := by
  induction hrules generalizing c nodes with
  | nil =>
    obtain ⟨rfl, rfl⟩ := sequenceFrom_nil_found_iff.1 h
    exact ⟨[], .refl _, .nil⟩
  | cons hr _ ih =>
    obtain ⟨first, mid, more, hfirst, hmore, rfl⟩ := sequenceFrom_cons_found_iff.1 h
    obtain ⟨w, hw, hQ⟩ := hr hfirst
    obtain ⟨ps, hps, hturn⟩ := ih hmore
    exact ⟨w :: ps, hw.trans hps, .cons hQ hturn⟩

/-- Digits are their characters, of one byte each. -/
theorem ofRunes_of_digits (h : IsDigitText w) :
    (Text.ofRunes w).chars = w.map Rune.value ∧ (Text.ofRunes w).size = w.length := by
  have hchars : w = (w.map Rune.value).map .scalar :=
    Text.eq_map_scalar fun r hr => Rune.isScalar_of_class (h r hr) (by decide)
  have htext : Text.ofRunes w = .ofChars (w.map Rune.value) := by
    rw [← Text.ofRunes_map_scalar, ← hchars]
  rw [htext, Text.chars_ofChars, Text.size_ofChars (List.forall_mem_map.2 h), List.length_map]
  exact ⟨rfl, rfl⟩

/-- So few digits are the number that they stand for. -/
theorem readInteger_short {cs : List Char} (hne : cs ≠ []) (hcs : ∀ ch ∈ cs, isDigit ch = true)
    (hlength : cs.length ≤ 18) : readInteger 64 cs = .ok (digitsValue cs : Int) := by
  refine readInteger_digits hne hcs (Nat.lt_of_lt_of_le (digitsValue_lt hcs) ?_)
  exact Nat.le_trans (Nat.pow_le_pow_right (by decide) hlength) (by decide)

/-- A leaf of the number that its digits stand for. -/
def NumberLeaf (component : Component) (fewest most low high : Nat) (w : List Rune)
    (nodes : List Node) : Prop :=
  ∃ n : Nat, IsNumberOf fewest most w n ∧ low ≤ n ∧ n ≤ high ∧
    nodes = [.leaf (.component component n) (.ofRunes w)]

/-- A leaf of what a name stands for. -/
def NameLeaf (component : Component) (names : List (Text × Nat)) (w : List Rune)
    (nodes : List Node) : Prop :=
  ∃ n, IsNameOf names n w ∧ nodes = [.leaf (.component component n) (.ofRunes w)]

/-- A leaf of a mark. -/
def MarkLeaf (s : Symbol) (ch : Char) (w : List Rune) (nodes : List Node) : Prop :=
  w = [.scalar ch] ∧ ∃ t, nodes = [.leaf (.symbol s) t]

/-- A leaf of blanks. -/
def BlankLeaf (w : List Rune) (nodes : List Node) : Prop :=
  IsPiece .blanks w ∧ ∃ t, nodes = [.leaf .whitespace t]

/-- The digits of a number are read as that number. -/
theorem readInteger_number {fewest most n : Nat} (h : IsNumberOf fewest most w n)
    (hfewest : 0 < fewest) (hmost : most ≤ 18) :
    readInteger 64 (Text.ofRunes w).chars = .ok (n : Int) := by
  have hne : w.map Rune.value ≠ [] := by
    rw [Ne, List.map_eq_nil_iff]
    exact (h.isPiece hfewest).nonempty
  have hshort : (w.map Rune.value).length ≤ 18 := by
    rw [List.length_map]
    exact Nat.le_trans h.most hmost
  rw [(ofRunes_of_digits h.digits).1, readInteger_short hne (List.forall_mem_map.2 h.digits) hshort,
    h.value]

theorem digitsComponent_written {fewest most low high : Nat} (hfewest : 0 < fewest)
    (hmost : most ≤ 18) : (digitsComponent component fewest most low high).Writes
      (NumberLeaf component fewest most low high) := by
  intro c next nodes h
  obtain ⟨w, value, hw, htext, -, ⟨hvalue, hlow, hhigh⟩, rfl⟩ :=
    (findsDigits_digitsComponent ..).found h
  have hnumber : IsNumberOf fewest most w (digitsValue (w.map Rune.value)) := ⟨htext, rfl⟩
  rw [readInteger_number hnumber hfewest hmost] at hvalue
  cases hvalue
  exact ⟨w, hw, _, hnumber, by exact_mod_cast hlow, by exact_mod_cast hhigh, rfl⟩

/-- What a number is written with is found as that number in front of anything but a digit. -/
theorem digitsComponent_finds_number (component : Component) {fewest most low high n : Nat}
    (h : IsNumberOf fewest most w n) (hfewest : 0 < fewest) (hmost : most ≤ 18) (hlow : low ≤ n)
    (hhigh : n ≤ high) :
    (digitsComponent component fewest most low high).Finds (Cursor.Clear isDigit)
      [.leaf (.component component n) (.ofRunes w)] w :=
  (findsDigits_digitsComponent ..).finds h.toIsNumberText
    ⟨readInteger_number h hfewest hmost, by exact_mod_cast hlow, by exact_mod_cast hhigh⟩

theorem nameComponent_written {words : WordList Int} {names : List (Text × Nat)}
    (hwords : words ⊆ wordsOf names) :
    (nameComponent component words).Writes (NameLeaf component names) := by
  intro c next nodes h
  obtain ⟨u, hmatch, rfl⟩ := nameComponent_found_iff.1 h
  obtain ⟨hmatchAt, -⟩ := WordList.matchWhole_eq_some_iff.1 hmatch
  have hpasses := passes_matchAt hmatchAt
  obtain ⟨hlongest, -⟩ := WordList.matchAt_eq_some hmatchAt
  obtain ⟨hmem, hstands, -⟩ := WordList.longestAt_spec hlongest
  obtain ⟨hle, -, hfold⟩ := WordList.standsAt_iff.1 hstands
  obtain ⟨⟨name, n⟩, hname, rfl⟩ := mem_wordsOf_iff.1 (hwords hmem)
  refine ⟨_, hpasses, n, ⟨name, hname, List.length_take_of_le hle, hfold⟩, ?_⟩
  rw [hpasses.textTo]
  rfl

theorem symbol_written {s : Symbol} {ch : Char} (hplain : IsPlain ch) :
    (symbol s [ch]).Writes (MarkLeaf s ch) := by
  intro c next nodes h
  obtain ⟨hpasses, rfl⟩ := symbol_eq (by simpa using hplain) h
  exact ⟨_, hpasses, rfl, _, rfl⟩

theorem whitespace_written : whitespace.Writes BlankLeaf := by
  intro c next nodes h
  obtain ⟨rfl, hpos, rfl⟩ := whitespace_found_iff.1 h
  have hpasses := c.passes_skip isBlank
  refine ⟨_, hpasses, ⟨fun hnil => hpos (by rw [hpasses.pos, hnil]; rfl), fun r hr => ?_⟩, _, rfl⟩
  have hblank : isBlank r.value = true := (List.mem_takeWhile_imp hr :)
  exact of_isBlank (P := (PieceKind.of · = .blanks)) (by decide) hblank

end Rule

end SheetFormula
