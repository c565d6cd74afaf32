import SheetFormula.Node.Document
import SheetFormula.Proofs.Growth
import SheetFormula.Proofs.JsonText
import SheetFormula.Proofs.Numerals

/-!
# Stored trees are read back

A tree that was grown from leaves of a grammar is what its document is read as: every leaf is
decoded from what it stands for, and every parent is built again by the constructor that built it.
If the text of the tree is valid UTF-8, the text of the document is read as the document.
-/

namespace SheetFormula

/-! ### Reading documents -/

namespace Node

theorem fields?_document (kind : Kind) (value : Json) (text : Text) :
    fields? (document kind value text) = some ⟨kind.name, some value, text⟩ := by
  have htype : (Text.ofString "type").likeAscii "type" = true := by decide
  have hvalue : (Text.ofString "value").likeAscii "type" = false := by decide
  have hvalue' : (Text.ofString "value").likeAscii "value" = true := by decide
  have htext : (Text.ofString "text").likeAscii "value" = false := by decide
  have htext' : (Text.ofString "text").likeAscii "text" = true := by decide
  simp [fields?, document, readOuter, readInner, setText, htype, hvalue, hvalue', htext, htext']

theorem ofName?_kind {kind : Kind} (h : kind ≠ .invalid) :
    (Text.ofString kind.name).toString?.bind Kind.ofName? = some kind := by
  rw [Text.toString?, Text.ofString, if_pos (Text.isValid_ofChars _), Text.chars_ofChars,
    Option.bind_some, String.ofList_toList, Kind.ofName?_name kind h]

theorem kind_ne_invalid (content : Content) : content.kind ≠ .invalid := by
  cases content <;> nofun

theorem isLeaf_kind (content : Content) : content.kind.isLeaf = true := by
  cases content <;> rfl

theorem form_kind_ne_invalid (form : Form) : form.kind ≠ .invalid := by
  cases form <;> nofun

theorem isLeaf_form_kind (form : Form) : form.kind.isLeaf = false := by
  cases form <;> rfl

end Node

/-- The words of a lexicon stand for numbers that a word of 64 bits holds. -/
def Lexicon.FitsWord (l : Lexicon) : Prop :=
  ∀ entry ∈ l.components, ∀ w ∈ entry.2, -2 ^ 63 ≤ w.meaning ∧ w.meaning < 2 ^ 63

/-- The text of a listed error is read back. -/
theorem ErrorCode.ofText?_text : ∀ w ∈ errorWords,
    ErrorCode.ofText? (Text.ofString w.meaning.text) = some w.meaning := by
  decide

namespace Node

variable {g : Grammar} {ok : Rune → Prop} {content : Content} {text : Text} {n : Node}
  {children : List Node}

/-- What a leaf stands for is read back from its document. -/
def IsReadBack (content : Content) (text : Text) : Prop :=
  decodeContent content.kind (some (scalar content text)) text = .ok content

theorem isReadBack_component {c : Component} {value : Int}
    (h : -2 ^ 63 ≤ value ∧ value < 2 ^ 63) : IsReadBack (.component c value) text := by
  obtain ⟨cs, hjson, hread⟩ := readInteger_ofInt h
  simp [IsReadBack, decodeContent, Content.kind, scalar, hjson, intValue?, hread]

/-- Two readings that must agree. -/
theorem agreeing_eq_ok_iff {α : Type} [DecidableEq α] {x y : Except ReferenceError α}
    {toContent : α → Content} {fault : LeafFault} :
    (do
      let line ← x.mapError LeafFault.reference
      let written ← y.mapError LeafFault.reference
      if written = line then return toContent line else throw fault) = .ok content ↔
      ∃ line, x = .ok line ∧ y = .ok line ∧ content = toContent line := by
  simp only [bind_eq_ok_iff, mapError_eq_ok_iff]
  constructor
  · rintro ⟨line, hvalue, written, hwritten, h⟩
    split_ifs at h with heq
    subst heq
    exact ⟨written, hvalue, hwritten, (Except.ok.inj h).symm⟩
  · rintro ⟨line, hvalue, htext, rfl⟩
    exact ⟨line, hvalue, line, htext, if_pos rfl⟩

/-- A column is read if its value and its text are the same column. -/
theorem decodeColumn_eq_ok_iff {value : Text} :
    decodeColumn value text = .ok content ↔
      ∃ column, Column.parse value = .ok column ∧ Column.parse text = .ok column ∧
        content = .column column :=
  agreeing_eq_ok_iff

/-- A row is read if its value and its text are the same row. -/
theorem decodeRow_eq_ok_iff {value : Text} :
    decodeRow value text = .ok content ↔
      ∃ row, Row.parse value = .ok row ∧ Row.parse text = .ok row ∧ content = .row row :=
  agreeing_eq_ok_iff

theorem isReadBack_column_iff {column : Column} :
    IsReadBack (.column column) text ↔ Column.parse text = .ok column := by
  show decodeColumn column.text text = _ ↔ _
  simp [decodeColumn_eq_ok_iff, Column.parse_text]

theorem isReadBack_row_iff {row : Row} :
    IsReadBack (.row row) text ↔ Row.parse text = .ok row := by
  show decodeRow row.text text = _ ↔ _
  simp [decodeRow_eq_ok_iff, Row.parse_text]

theorem isReadBack_error {code : ErrorCode}
    (h : ErrorCode.ofText? (Text.ofString code.text) = some code) :
    IsReadBack (.error code) text := by
  simp [IsReadBack, decodeContent, Content.kind, scalar, textValue?, decodeText, h]

theorem isReadBack_of_scans (hwords : g.lexicon.FitsWord) (h : g.Scans ok content text) :
    IsReadBack content text := by
  cases content with
  | digits => rfl
  | symbol s => rfl
  | whitespace => rfl
  | label name => rfl
  | template name => rfl
  | functionName name => rfl
  | literal value => rfl
  | boolean value => rfl
  | component c value =>
    refine isReadBack_component ?_
    rcases h with ⟨cs, hcs⟩ | ⟨words, hmem, w, hw, rfl⟩
    · exact bounds_of_readInteger hcs
    · exact hwords (c, words) hmem w hw
  | column column => exact isReadBack_column_iff.2 h
  | row row => exact isReadBack_row_iff.2 h
  | error code =>
    obtain ⟨w, hw, rfl⟩ := h
    exact isReadBack_error (ErrorCode.ofText?_text w hw)

/-- A parent is built again from its children. -/
theorem rebuild_eq_ok {b : Builder} (h : b.buildFull children = .ok n) :
    rebuild n.kind (textOfAll children) children = .ok n := by
  obtain ⟨form, rfl, hb⟩ := Builder.eq_parent_of_buildFull h
  simp [rebuild, kind, hb, h, Except.mapError, bind, Except.bind]
  rfl

theorem depth_document (kind : Kind) (value : Json) (text : Text) :
    (document kind value text).depth = value.depth + 2 := by
  simp [document, Json.depth, Json.depthOfMembers]

theorem depth_le_depthOfItems {child : Node} (h : child ∈ children) :
    child.encode.depth ≤ Json.depthOfItems (encodeAll children) := by
  induction children with
  | nil => cases h
  | cons n rest ih =>
    rw [encodeAll, Json.depthOfItems]
    rcases List.mem_cons.1 h with rfl | h
    · exact Nat.le_max_left ..
    · exact Nat.le_trans (ih h) (Nat.le_max_right ..)

/-- If every child is read back, then so are all of them. -/
theorem decode_children {fuel : Nat} (h : ∀ child ∈ children, ∃ f,
      fields? child.encode = some f ∧ decodeFields fuel f = .ok child) :
    ∃ fs, (encodeAll children).mapM fields? = some fs ∧
      fs.mapM (decodeFields fuel) = .ok children := by
  induction children with
  | nil => exact ⟨[], rfl, rfl⟩
  | cons n rest ih =>
    obtain ⟨⟨f, hf, hn⟩, hrest⟩ := List.forall_mem_cons.1 h
    obtain ⟨fs, hfs, hchildren⟩ := ih hrest
    refine ⟨f :: fs, ?_, ?_⟩
    · simp [encodeAll, List.mapM_cons, hf, hfs]
    · simp [List.mapM_cons, hn, hchildren, bind, Except.bind]
      rfl

/-- A grown tree is read back from its document if its leaves are. -/
theorem decodeFields_encode (h : n.Grown IsReadBack) {fuel : Nat} (hfuel : n.encode.depth < fuel) :
    ∃ f, fields? n.encode = some f ∧ decodeFields fuel f = .ok n := by
  induction h generalizing fuel with
  | @leaf content text hback =>
    rw [IsReadBack] at hback
    obtain ⟨fuel, rfl⟩ := Nat.exists_eq_add_one_of_ne_zero (Nat.ne_of_gt (Nat.zero_lt_of_lt hfuel))
    refine ⟨_, by rw [encode, fields?_document], ?_⟩
    simp [decodeFields, ofName?_kind (kind_ne_invalid content), isLeaf_kind, hback]
  | @parent b children n hchildren hn ih =>
    obtain ⟨fuel, rfl⟩ := Nat.exists_eq_add_one_of_ne_zero (Nat.ne_of_gt (Nat.zero_lt_of_lt hfuel))
    obtain ⟨form, rfl, -⟩ := Builder.eq_parent_of_buildFull hn
    rw [encode, depth_document, Json.depth] at hfuel
    have hall := @decode_children _ fuel fun child hchild =>
      ih child hchild (by have := depth_le_depthOfItems hchild; omega)
    obtain ⟨fs, hfs, hdecoded⟩ := hall
    refine ⟨_, by rw [encode, fields?_document], ?_⟩
    have hrebuild : rebuild form.kind (textOfAll children) children = .ok (.parent form children) :=
      rebuild_eq_ok hn
    simp [decodeFields, ofName?_kind (form_kind_ne_invalid form), isLeaf_form_kind, childFields?,
      hfs, hdecoded, hrebuild, bind, Except.bind]

theorem decode_encode_of_isReadBack (h : n.Grown IsReadBack) : decode n.encode = .ok n := by
  obtain ⟨f, hf, hn⟩ := decodeFields_encode h (Nat.lt_succ_self _)
  rw [decode, hf]
  exact hn

theorem decode_encode (hwords : g.lexicon.FitsWord) (h : n.Grown (g.Scans ok)) :
    decode n.encode = .ok n :=
  decode_encode_of_isReadBack (h.mono fun _ _ => isReadBack_of_scans hwords)

end Node

/-! ### Writing documents -/

/-- No zero stands in front of other digits. -/
theorem exists_toDigits_eq_cons {n : Nat} (h : n ≠ 0) :
    ∃ c cs, Nat.toDigits 10 n = c :: cs ∧ c ≠ '0' := by
  induction n using Nat.strongRecOn with
  | _ n ih =>
    by_cases hn : n < 10
    · have hdigit : ∀ m < 10, m ≠ 0 → Nat.digitChar m ≠ '0' := by decide
      exact ⟨_, [], Nat.toDigits_of_lt_base hn, hdigit n hn h⟩
    · obtain ⟨c, cs, hcs, hc⟩ := ih (n / 10) (by omega) (by omega)
      rw [Nat.toDigits_of_base_le (by decide) (Nat.le_of_not_lt hn), hcs]
      exact ⟨c, _, rfl, hc⟩

theorem isWholePart_toDigits (n : Nat) : Json.isWholePart (Nat.toDigits 10 n) = true := by
  by_cases hn : n = 0
  · subst hn
    decide
  · obtain ⟨c, cs, hcs, hc⟩ := exists_toDigits_eq_cons hn
    have hall : (c :: cs).all isDigit = true := by
      rw [← hcs]
      exact List.all_eq_true.2 fun c hc => isDigit_of_mem_toDigits hc
    rw [hcs]
    unfold Json.isWholePart
    split
    · rename_i heq
      cases heq
    · rfl
    · rename_i heq
      exact absurd (List.cons.inj heq).1 hc
    · exact hall

theorem isNumber_of_digits {cs : List Char} (hwhole : Json.isWholePart cs = true)
    (hcs : ∀ c ∈ cs, isDigit c = true) :
    Json.isNumber cs = true ∧ Json.isNumber ('-' :: cs) = true := by
  have htake : cs.takeWhile isDigit = cs := List.takeWhile_eq_self_iff.2 hcs
  have hdrop : cs.dropWhile isDigit = [] := List.dropWhile_eq_nil_iff.2 hcs
  have hsign : '-' ∉ cs := fun h => by cases hcs _ h
  have hparts : (Json.isWholePart (cs.takeWhile isDigit) &&
      Json.isFractionPart (cs.dropWhile isDigit)) = true := by
    rw [htake, hdrop, hwhole]
    rfl
  refine ⟨?_, hparts⟩
  unfold Json.isNumber
  split
  · exact absurd (List.mem_cons_self ..) hsign
  · exact hparts

theorem endsWord_of_isDigit {c : Char} (h : isDigit c = true) : Json.endsWord c = false := by
  simp only [Json.endsWord, Json.isSpace, Bool.or_eq_false_iff, beq_eq_false_iff_ne]
  refine ⟨⟨⟨⟨⟨⟨⟨⟨⟨⟨?_, ?_⟩, ?_⟩, ?_⟩, ?_⟩, ?_⟩, ?_⟩, ?_⟩, ?_⟩, ?_⟩, ?_⟩ <;>
    · rintro rfl
      cases h

theorem Json.isWritable_ofInt (v : Int) : (Json.ofInt v).IsWritable := by
  cases v with
  | ofNat n =>
    rw [Json.ofInt, Json.IsWritable]
    exact ⟨(isNumber_of_digits (isWholePart_toDigits n) fun c hc => isDigit_of_mem_toDigits hc).1,
      fun c hc => endsWord_of_isDigit (isDigit_of_mem_toDigits hc)⟩
  | negSucc n =>
    rw [Json.ofInt, Json.IsWritable]
    refine ⟨(isNumber_of_digits (isWholePart_toDigits (n + 1))
      fun c hc => isDigit_of_mem_toDigits hc).2, List.forall_mem_cons.2 ⟨rfl, fun c hc => ?_⟩⟩
    exact endsWord_of_isDigit (isDigit_of_mem_toDigits hc)

namespace Node

variable {g : Grammar} {content : Content} {text : Text} {n : Node} {children : List Node}

/-- What a leaf of valid text stands for can be written. -/
theorem isWritable_scalar (h : g.Scans (fun r => r.isScalar = true) content text)
    (htext : text.isValid = true) : (scalar content text).IsWritable := by
  cases content with
  | digits => simpa [scalar, Json.IsWritable] using htext
  | symbol s => simpa [scalar, Json.IsWritable] using htext
  | whitespace => simpa [scalar, Json.IsWritable] using htext
  | component c value => exact Json.isWritable_ofInt value
  | column column => simp [scalar, Json.IsWritable, Column.text]
  | row row => simp [scalar, Json.IsWritable, Row.text]
  | label name =>
    obtain rfl : name = text := h
    simpa [scalar, Json.IsWritable] using htext
  | template name =>
    obtain rfl : name = text := h
    simpa [scalar, Json.IsWritable] using htext
  | functionName name =>
    obtain rfl : name = Rule.upperCase text := h
    simp [scalar, Json.IsWritable, Rule.upperCase]
  | literal value =>
    obtain ⟨vs, rfl, hvs⟩ := h
    simpa [scalar, Json.IsWritable] using Text.isValid_ofRunes hvs
  | error code => simp [scalar, Json.IsWritable, Text.ofString]
  | boolean value => simp [scalar, Json.IsWritable]

theorem isWritable_document {kind : Kind} {value : Json} (hvalue : value.IsWritable)
    (htext : text.isValid = true) : (document kind value text).IsWritable := by
  simp [document, Json.IsWritable, Json.MembersWritable, Text.ofString, hvalue, htext]

theorem allWritable_encodeAll (h : ∀ child ∈ children, child.encode.IsWritable) :
    Json.AllWritable (encodeAll children) := by
  induction children with
  | nil => simp [encodeAll, Json.AllWritable]
  | cons n rest ih =>
    obtain ⟨hn, hrest⟩ := List.forall_mem_cons.1 h
    rw [encodeAll, Json.AllWritable]
    exact ⟨hn, ih hrest⟩

/-- A leaf of valid text that stands for something that can be written. -/
def IsLeafWritable (content : Content) (text : Text) : Prop :=
  (scalar content text).IsWritable ∧ text.isValid = true

theorem isValid_text_of_leaves (h : ∀ l ∈ n.leaves, l.2.isValid = true) :
    n.text.isValid = true := by
  rw [text_eq_join_leaves]
  exact Text.isValid_join (List.forall_mem_map.2 h)

/-- The document of a grown tree can be written if its leaves can. -/
theorem isWritable_encode_of_leaves (h : n.Grown IsLeafWritable) : n.encode.IsWritable := by
  have htext : n.text.isValid = true := isValid_text_of_leaves fun l hl => (h.fits_leaves l hl).2
  induction h with
  | leaf hleaf =>
    rw [encode]
    exact isWritable_document hleaf.1 hleaf.2
  | @parent b children n hchildren hn ih =>
    obtain ⟨form, rfl, -⟩ := Builder.eq_parent_of_buildFull hn
    rw [encode]
    refine isWritable_document ?_ htext
    rw [Json.IsWritable]
    exact allWritable_encodeAll fun child hchild => ih child hchild <|
      isValid_text_of_leaves fun l hl => ((hchildren child hchild).fits_leaves l hl).2

/-- The document of a tree grown from valid text can be written. -/
theorem isWritable_encode (h : n.Grown (g.Scans fun r => r.isScalar = true))
    (hleaves : ∀ l ∈ n.leaves, l.2.isValid = true) : n.encode.IsWritable :=
  isWritable_encode_of_leaves <| (h.and_leaves hleaves).mono fun _ _ ⟨hscans, htext⟩ =>
    ⟨isWritable_scalar hscans htext, htext⟩

end Node

/-! ### Storing parsed trees -/

namespace Grammar

theorem fitsWord_default : (ofLocale {}).lexicon.FitsWord := by
  unfold Lexicon.FitsWord
  decide

variable {g : Grammar} {p : Parser} {text : Text} {n : Node}

theorem run_of_parse (h : g.parse p text = .ok n) :
    ∃ k, g.run p text true = (.ok n, k) := ⟨_, Prod.ext h rfl⟩

/-- A parsed text is found by the rule of the parser, all of it. -/
theorem found_of_parse (h : g.parse p text = .ok n) :
    ∃ c, p.rule g (.start text) = (.found [n], c) ∧ c.rest = [] := by
  obtain ⟨k, hrun⟩ := run_of_parse h
  obtain ⟨c, hfound, -, hend⟩ := run_eq_ok hrun
  exact ⟨c, hfound, hend rfl⟩

/-- A parsed tree is grown from leaves. -/
theorem grown_of_parse (hl : g.locale.HasPlainSigns) {ok : Rune → Prop}
    (hok : ∀ r ∈ text.runes, ok r) (h : g.parse p text = .ok n) : n.Grown (g.Scans ok) := by
  obtain ⟨k, hrun⟩ := run_of_parse h
  obtain ⟨c, hgrown, -, -⟩ := run_keeps (Rule.invariant_onlyGrown hl) hrun
  exact (hgrown hok).2 n (List.mem_singleton_self n)

/-- The leaves of a tree parsed from valid text are valid. -/
theorem isValid_leaf_of_parse (hl : g.locale.HasPlainSigns) (htext : text.isValid = true)
    (h : g.parse p text = .ok n) : ∀ l ∈ n.leaves, l.2.isValid = true := by
  obtain ⟨k, hrun⟩ := run_of_parse h
  obtain ⟨c, ⟨ws, hws, htexts⟩, -, -⟩ := run_keeps (Rule.invariant_spells hl) hrun
  intro l hl
  have hmem : l.2 ∈ ws.map Text.ofRunes := by
    rw [← htexts]
    exact List.mem_map_of_mem (by simpa using hl)
  obtain ⟨w, hw, heq⟩ := List.mem_map.1 hmem
  rw [← heq]
  refine Text.isValid_ofRunes fun r hr => ?_
  have hrest : text.runes = ws.flatten ++ c.rest := hws.rest
  refine List.all_eq_true.1 htext r ?_
  rw [hrest]
  exact List.mem_append_left _ (List.mem_flatten.2 ⟨w, hw, hr⟩)

/-- A tree parsed from valid text can be stored and is read back as it was, with all that its nodes
stand for; only the reader's bound on the nesting of documents is in the way.  A tree parsed from
any other text is refused as an invalid argument. -/
theorem stored_tree (p : Parser) (text : Text) (n : Node)
    (h : (ofLocale {}).parse p text = .ok n) :
    (text.isValid = true →
      Node.marshal (some n) = .ok n.encode.compact ∧ Node.decode n.encode = .ok n ∧
        (n.encode.depth ≤ Json.maxDepth →
          Json.parse? n.encode.compact = some n.encode ∧
            Node.unmarshal n.encode.compact = .ok n)) ∧
    (text.isValid = false →
      Node.marshal (some n) = .error (.invalidText n.kind.name text) ∧
        (Node.EncodeError.invalidText n.kind.name text).code = .invalidArgument) := by
  have hl := Locale.hasPlainSigns_default
  obtain ⟨k, hrun⟩ := run_of_parse h
  have htext : n.text = text := (run_spells hl hrun).2.2 rfl
  -- Whether a tree can be stored is decided by its text, and that is the text it was parsed from.
  refine ⟨fun hvalid => ?_, fun hinvalid => ?_⟩
  · have hdecode : Node.decode n.encode = .ok n :=
      Node.decode_encode fitsWord_default (grown_of_parse hl (fun _ _ => trivial) h)
    have hwritable : n.encode.IsWritable :=
      Node.isWritable_encode (grown_of_parse hl (List.all_eq_true.1 hvalid) h)
        (isValid_leaf_of_parse hl hvalid h)
    refine ⟨?_, hdecode, fun hdepth => ?_⟩
    · simp [Node.marshal, Node.encodeValid, htext, hvalid, Except.map]
    · have hobject : n.encode.isWord = false := by
        cases n <;> rw [Node.encode] <;> rfl
      have hparse := Json.parse?_compact hwritable hobject hdepth
      refine ⟨hparse, ?_⟩
      rw [Node.unmarshal, hparse]
      exact hdecode
  · exact ⟨by simp [Node.marshal, Node.encodeValid, htext, hinvalid, Except.map], rfl⟩

theorem stored_tree_sum :
    ∃ n, (ofLocale {}).parse .valueOrExpression "=a$1+\"é\"" = .ok n ∧
      Node.unmarshal n.encode.compact = .ok n := by
  have hcheck : ((ofLocale {}).parse .valueOrExpression "=a$1+\"é\"").toOption.any
      (fun n => decide (n.encode.depth ≤ Json.maxDepth)) = true := by decide +kernel
  obtain ⟨n, hn, hdepth⟩ := exists_ok_of_any hcheck
  have hstored := (stored_tree .valueOrExpression "=a$1+\"é\"" n hn).1 (by decide)
  exact ⟨n, hn, (hstored.2.2 (of_decide_eq_true hdepth)).2⟩

end Grammar

end SheetFormula
