import SheetFormula.Proofs.JsonValues
import SheetFormula.Proofs.Reduction
import SheetFormula.Proofs.Storage

/-!
# What documents are read as

A document may come from anywhere.  Whatever tree it is read as, the leaves have passed the checks
of the reader and the parents are what their constructors made of their children, so the tree is
grown (`Node.grown_of_decode`).  All that the constructors and the reader check then holds of every
node in it, and the tree can be stored and is read back as it is.
-/

namespace SheetFormula

/-! ### What an operator stands between -/

namespace Node

variable {children : List Node} {n : Node}

/-- A leaf that is the symbol `s`. -/
def IsSymbol (s : Symbol) (n : Node) : Prop := ∃ text, n = .leaf (.symbol s) text

theorem isSymbol_or_isNoise_eq_false {n : Node} (h : n.isWhitespace = false) :
    (∃ s, n.IsSymbol s) ∨ n.isNoise = false := by
  cases n with
  | parent form children => exact .inr (isNoise_parent form children)
  | leaf content text =>
    cases content with
    | symbol s => exact .inl ⟨s, text, rfl⟩
    | whitespace => cases h
    | _ => exact .inr rfl

theorem IsSymbol.isNoise {s : Symbol} (h : n.IsSymbol s) : n.isNoise = true := by
  obtain ⟨text, rfl⟩ := h
  rfl

/-- The check passes over operands, and it lets the symbol pass in its place only. -/
theorem foldlM_checkSymbol {kind : Kind} {symbol : Symbol} {place : Nat} {ns : List Node}
    (hns : ∀ n ∈ ns, n.isWhitespace = false) {index count index' count' : Nat}
    (h : ns.foldlM (checkSymbol kind symbol place) (index, count) = .ok (index', count')) :
    (count' = count ∧ ∀ n ∈ ns, n.isNoise = false) ∨
      count' = count + 1 ∧ ∃ front op back, ns = front ++ op :: back ∧ op.IsSymbol symbol ∧
        index + front.length = place ∧ ∀ n ∈ front ++ back, n.isNoise = false := by
  induction ns generalizing index count with
  | nil =>
    cases h
    exact .inl ⟨rfl, by simp⟩
  | cons n ns ih =>
    obtain ⟨hn, hmore⟩ := List.forall_mem_cons.1 hns
    rw [List.foldlM_cons] at h
    obtain ⟨state, hstate, hrest⟩ := bind_eq_ok_iff.1 h
    rcases isSymbol_or_isNoise_eq_false hn with ⟨s, text, rfl⟩ | hoperand
    · rw [checkSymbol] at hstate
      split_ifs at hstate with hplace
      cases hstate
      obtain ⟨rfl, rfl⟩ := hplace
      -- The symbol is in its place, and behind it there is none.
      rcases ih hmore hrest with ⟨rfl, hback⟩ | ⟨-, front, op, back, -, -, hlength, -⟩
      · exact .inr ⟨rfl, [], _, ns, rfl, ⟨text, rfl⟩, rfl, hback⟩
      · omega
    · rw [checkSymbol_operand hoperand] at hstate
      cases hstate
      rcases ih hmore hrest with ⟨rfl, hback⟩ | ⟨rfl, front, op, back, rfl, hop, hlength, hback⟩
      · exact .inl ⟨rfl, List.forall_mem_cons.2 ⟨hoperand, hback⟩⟩
      · refine .inr ⟨rfl, n :: front, op, back, rfl, hop, ?_, ?_⟩
        · rw [List.length_cons]
          omega
        · exact List.forall_mem_cons.2 ⟨hoperand, hback⟩

/-- Where an operator passes its check, whitespace aside its symbol stands in its place between
operands. -/
theorem checkOperator_eq_ok {kind : Kind} {symbol : Symbol} {place : Nat}
    (h : checkOperator kind symbol place children = .ok ()) :
    ∃ front op back, children.filter (!·.isWhitespace) = front ++ op :: back ∧
      op.IsSymbol symbol ∧ front.length = place ∧ operandsOf children = front ++ back := by
  obtain ⟨⟨index, count⟩, hfold, hcount⟩ := bind_eq_ok_iff.1 h
  have hone : count = 1 := by
    by_contra hne
    simp only [ne_eq, hne, not_false_eq_true, if_true] at hcount
    cases hcount
  have hnoise : operandsOf children = operandsOf (children.filter (!·.isWhitespace)) := by
    rw [operandsOf, operandsOf, List.filter_filter]
    refine List.filter_congr fun n _ => ?_
    cases hn : n.isNoise with
    | false => simp [isWhitespace_eq_false hn]
    | true => simp
  -- Counting the symbols cuts the children at the one that was found.
  rcases foldlM_checkSymbol (fun n hn => by simpa using (List.mem_filter.1 hn).2) hfold with
    ⟨hzero, -⟩ | ⟨-, front, op, back, hsplit, hop, hlength, hoperands⟩
  · omega
  · refine ⟨front, op, back, hsplit, hop, by omega, ?_⟩
    have hself {ns : List Node} (hns : ∀ n ∈ ns, n.isNoise = false) : operandsOf ns = ns :=
      List.filter_eq_self.2 fun n hn => by simp [hns n hn]
    obtain ⟨hfront, hback⟩ := List.forall_mem_append.1 hoperands
    rw [hnoise, hsplit, operandsOf_append, hself hfront, operandsOf, List.filter_cons,
      if_neg (by simp [hop.isNoise])]
    exact congrArg _ (hself hback)

/-- Only whitespace. -/
def IsSpace (ns : List Node) : Prop := ∀ n ∈ ns, n.isWhitespace = true

/-- What is left without whitespace are some nodes, each with whitespace in front of it. -/
theorem filter_eq_cons {x : Node} {xs ns : List Node}
    (h : ns.filter (!·.isWhitespace) = x :: xs) :
    ∃ space rest, ns = space ++ x :: rest ∧ IsSpace space ∧
      rest.filter (!·.isWhitespace) = xs := by
  obtain ⟨space, rest, rfl, hspace, -, hrest⟩ := List.filter_eq_cons_iff.1 h
  exact ⟨space, rest, rfl, fun n hn => by simpa using hspace n hn, hrest⟩

theorem filter_eq_nil {ns : List Node} (h : ns.filter (!·.isWhitespace) = []) : IsSpace ns :=
  fun n hn => by simpa using List.filter_eq_nil_iff.1 h n hn

/-- Two operands with a symbol between them, and whitespace anywhere. -/
def IsInfix (symbol : Symbol) (children : List Node) : Prop :=
  ∃ s₁ left s₂ op s₃ right s₄,
    children = s₁ ++ left :: (s₂ ++ op :: (s₃ ++ right :: s₄)) ∧ op.IsSymbol symbol ∧
      left.isNoise = false ∧ right.isNoise = false ∧
      IsSpace s₁ ∧ IsSpace s₂ ∧ IsSpace s₃ ∧ IsSpace s₄

/-- An operand behind a symbol, and whitespace anywhere. -/
def IsPrefixed (symbol : Symbol) (children : List Node) : Prop :=
  ∃ s₁ op s₂ right s₃,
    children = s₁ ++ op :: (s₂ ++ right :: s₃) ∧ op.IsSymbol symbol ∧ right.isNoise = false ∧
      IsSpace s₁ ∧ IsSpace s₂ ∧ IsSpace s₃

theorem isInfix_of_binary {op : Operator} (h : binary (.binary op) children = .ok n) :
    IsInfix op.symbol children := by
  obtain ⟨hcount, hcheck, -⟩ := binary_eq_ok_iff.1 h
  obtain ⟨front, mark, back, hsplit, hmark, hfront, hoperands⟩ := checkOperator_eq_ok hcheck
  obtain ⟨left, rfl⟩ := List.length_eq_one_iff.1 hfront
  obtain ⟨right, rfl⟩ : ∃ right, back = [right] := by
    rw [← List.length_eq_one_iff]
    rw [hoperands, List.length_append] at hcount
    omega
  have hall : ∀ n ∈ operandsOf children, n.isNoise = false := fun n hn => by
    simpa using (List.mem_filter.1 hn).2
  rw [hoperands] at hall
  obtain ⟨s₁, _, rfl, hs₁, h₁⟩ := filter_eq_cons hsplit
  obtain ⟨s₂, _, rfl, hs₂, h₂⟩ := filter_eq_cons h₁
  obtain ⟨s₃, s₄, rfl, hs₃, h₃⟩ := filter_eq_cons h₂
  exact ⟨s₁, left, s₂, mark, s₃, right, s₄, rfl, hmark, hall left (by simp), hall right (by simp),
    hs₁, hs₂, hs₃, filter_eq_nil h₃⟩

theorem isPrefixed_of_conditionRight {comparison : Comparison}
    (h : conditionRight (.conditionRight comparison) children = .ok n) :
    IsPrefixed comparison.symbol children := by
  obtain ⟨hcount, hcheck, -⟩ := conditionRight_eq_ok_iff.1 h
  obtain ⟨front, mark, back, hsplit, hmark, hfront, hoperands⟩ := checkOperator_eq_ok hcheck
  obtain rfl := List.length_eq_zero_iff.1 hfront
  obtain ⟨right, rfl⟩ : ∃ right, back = [right] := by
    rw [← List.length_eq_one_iff]
    rwa [hoperands] at hcount
  have hright : right ∈ operandsOf children := by simp [hoperands]
  obtain ⟨s₁, _, rfl, hs₁, h₁⟩ := filter_eq_cons hsplit
  obtain ⟨s₂, s₃, rfl, hs₂, h₂⟩ := filter_eq_cons h₁
  exact ⟨s₁, mark, s₂, right, s₃, rfl, hmark, by simpa using (List.mem_filter.1 hright).2, hs₁, hs₂,
    filter_eq_nil h₂⟩

/-! ### Leaves -/

/-- What the reader makes leaves of: they can be written and are read back as they are. -/
def IsLeafStored (content : Content) (text : Text) : Prop :=
  IsReadBack content text ∧ IsLeafWritable content text

variable {kind : Kind} {value? : Option Json} {value text : Text} {content : Content}

/-- The text of every code that is read from a text is read as that code. -/
theorem ofText?_text_of_ofText? {code : ErrorCode} (h : ErrorCode.ofText? value = some code) :
    ErrorCode.ofText? (Text.ofString code.text) = some code := by
  have hlisted : ∀ entry ∈ ErrorCode.listed,
      ErrorCode.ofText? (Text.ofString entry.1.text) = some entry.1 := by decide
  obtain ⟨entry, hentry, rfl⟩ := Option.map_eq_some_iff.1 h
  exact hlisted entry (List.mem_of_find?_eq_some hentry)

theorem isLeafStored_of_decodeText (hvalue : value.isValid = true) (htext : text.isValid = true)
    (h : decodeText kind value text = .ok content) : IsLeafStored content text := by
  have hstring {t : Text} (ht : t.isValid = true) : (Json.string t).IsWritable := by
    rw [Json.IsWritable]
    exact ht
  have hchars (cs : List Char) : (Json.string (.ofChars cs)).IsWritable :=
    hstring (Text.isValid_ofChars cs)
  -- Columns, rows and errors are written again as they are read; the others have the value that was
  -- given.
  unfold decodeText at h
  split at h
  · cases h
    exact ⟨rfl, hstring htext, htext⟩
  · obtain ⟨column, -, hcolumn, rfl⟩ := decodeColumn_eq_ok_iff.1 h
    exact ⟨isReadBack_column_iff.2 hcolumn, hchars _, htext⟩
  · obtain ⟨row, -, hrow, rfl⟩ := decodeRow_eq_ok_iff.1 h
    exact ⟨isReadBack_row_iff.2 hrow, hchars _, htext⟩
  · cases h
    exact ⟨rfl, hstring hvalue, htext⟩
  · cases h
    exact ⟨rfl, hstring hvalue, htext⟩
  · cases h
    exact ⟨rfl, hstring hvalue, htext⟩
  · cases h
    exact ⟨rfl, hstring hvalue, htext⟩
  · split at h
    · rename_i code hcode
      cases h
      exact ⟨isReadBack_error (ofText?_text_of_ofText? hcode), hchars _, htext⟩
    · cases h
  · cases h

theorem isLeafStored_of_decodeContent (hvalue : ∀ v ∈ value?, v.IsWritable)
    (htext : text.isValid = true) (h : decodeContent kind value? text = .ok content) :
    IsLeafStored content text := by
  unfold decodeContent at h
  split at h
  · cases h
    exact ⟨rfl, by rw [scalar, Json.IsWritable]; exact htext, htext⟩
  · cases h
    exact ⟨rfl, by rw [scalar, Json.IsWritable]; exact htext, htext⟩
  · split at h
    · rename_i v hv
      cases h
      refine ⟨isReadBack_component ?_, Json.isWritable_ofInt v, htext⟩
      -- A value is an integer of 64 bits because its reader bounds it.
      unfold intValue? at hv
      split at hv
      · split at hv
        · cases hv
          exact bounds_of_readInteger ‹_›
        · cases hv
      · cases hv
        decide
      · cases hv
    · cases h
  · split at h
    · cases h
      exact ⟨rfl, by rw [scalar, Json.IsWritable]; trivial, htext⟩
    · cases h
  · split at h
    · rename_i value hv
      refine isLeafStored_of_decodeText ?_ htext h
      unfold textValue? at hv
      split at hv
      · cases hv
        have hwritable := hvalue _ rfl
        rwa [Json.IsWritable] at hwritable
      · cases hv
        rfl
      · cases hv
    · cases h

/-! ### Documents -/

/-- The text and the value of a document can be written. -/
structure Fields.IsWritable (f : Fields) : Prop where
  text : f.text.isValid = true
  value : ∀ v ∈ f.value?, v.IsWritable

variable {f f' : Fields} {member : Text × Json} {j : Json}

theorem isValid_of_setText {old t : Text} (hold : old.isValid = true) (hj : j.IsWritable)
    (h : setText old j = some t) : t.isValid = true := by
  unfold setText at h
  split at h
  · cases h
    rwa [Json.IsWritable] at hj
  · cases h
    exact hold
  · cases h

theorem readInner_isWritable (hf : f.IsWritable)
    (hmember : member.1.isValid = true ∧ member.2.IsWritable) (h : readInner f member = some f') :
    f'.IsWritable := by
  simp only [readInner] at h
  split_ifs at h
  · cases h
    exact ⟨hf.text, fun v hv => Option.mem_some.1 hv ▸ hmember.2⟩
  · obtain ⟨t, ht, rfl⟩ := Option.map_eq_some_iff.1 h
    exact ⟨isValid_of_setText hf.text hmember.2 ht, hf.value⟩
  · cases h
    exact hf

theorem readOuter_isWritable (hf : f.IsWritable)
    (hmember : member.1.isValid = true ∧ member.2.IsWritable) (h : readOuter f member = some f') :
    f'.IsWritable := by
  obtain ⟨name, j⟩ := member
  simp only [readOuter] at h
  split_ifs at h
  · obtain ⟨t, -, rfl⟩ := Option.map_eq_some_iff.1 h
    exact ⟨hf.text, hf.value⟩
  · split at h
    · have hmembers := hmember.2
      rw [Json.IsWritable, Json.membersWritable_iff] at hmembers
      exact Json.of_foldlM readInner_isWritable hmembers hf h
    · cases h
      exact hf
    · cases h
  · cases h
    exact hf

theorem fields?_isWritable (hj : j.IsWritable) (h : fields? j = some f) : f.IsWritable := by
  have hnone : Fields.IsWritable {} := ⟨rfl, nofun⟩
  unfold fields? at h
  split at h
  · rw [Json.IsWritable, Json.membersWritable_iff] at hj
    exact Json.of_foldlM readOuter_isWritable hj hnone h
  · cases h
    exact hnone
  · cases h

/-- What is read of every item holds of every result. -/
theorem forall_of_mapM_fields? {items : List Json} {fs : List Fields}
    (hitems : ∀ j ∈ items, j.IsWritable) (h : items.mapM fields? = some fs) :
    ∀ f ∈ fs, f.IsWritable := by
  induction items generalizing fs with
  | nil =>
    cases h
    exact List.forall_mem_nil _
  | cons j items ih =>
    obtain ⟨hj, hitems⟩ := List.forall_mem_cons.1 hitems
    rw [List.mapM_cons] at h
    obtain ⟨f, hf, h⟩ := Option.bind_eq_some_iff.1 h
    obtain ⟨rest, hrest, h⟩ := Option.bind_eq_some_iff.1 h
    cases h
    exact List.forall_mem_cons.2 ⟨fields?_isWritable hj hf, ih hitems hrest⟩

theorem childFields?_isWritable {fs : List Fields} (hvalue : ∀ v ∈ value?, v.IsWritable)
    (h : childFields? value? = some fs) : ∀ f ∈ fs, f.IsWritable := by
  unfold childFields? at h
  split at h
  · have hitems := hvalue _ rfl
    rw [Json.IsWritable, Json.allWritable_iff] at hitems
    exact forall_of_mapM_fields? hitems h
  · cases h
    exact List.forall_mem_nil _
  · cases h

theorem forall_of_mapM_decodeFields {fuel : Nat} {fs : List Fields} {P : Node → Prop}
    (hf : ∀ f ∈ fs, ∀ n, decodeFields fuel f = .ok n → P n)
    (h : fs.mapM (decodeFields fuel) = .ok children) : ∀ n ∈ children, P n := by
  induction fs generalizing children with
  | nil =>
    cases h
    exact List.forall_mem_nil _
  | cons f fs ih =>
    obtain ⟨hfirst, hrest⟩ := List.forall_mem_cons.1 hf
    rw [List.mapM_cons] at h
    obtain ⟨n, hn, h⟩ := bind_eq_ok_iff.1 h
    obtain ⟨rest, hread, h⟩ := bind_eq_ok_iff.1 h
    cases h
    exact List.forall_mem_cons.2 ⟨hfirst n hn, ih hrest hread⟩

/-- A parent is what its constructor made of the children, and spells the text of the document. -/
theorem exists_buildFull_of_rebuild (h : rebuild kind text children = .ok n) :
    (∃ b : Builder, b.buildFull children = .ok n) ∧ n.text = text := by
  rw [rebuild] at h
  split at h
  · rename_i b _
    obtain ⟨m, hm, h⟩ := bind_eq_ok_iff.1 h
    simp only at h
    split_ifs at h with htext
    cases h
    exact ⟨⟨b, mapError_eq_ok_iff.1 hm⟩, htext⟩
  · cases h

/-- Whatever a document is read as is grown from leaves that can be stored, and spells the text of
the document. -/
theorem grown_of_decodeFields {fuel : Nat} (hf : f.IsWritable)
    (h : decodeFields fuel f = .ok n) : n.Grown IsLeafStored ∧ n.text = f.text := by
  induction fuel generalizing f n with
  | zero => cases h
  | succ fuel ih =>
    rw [decodeFields] at h
    split at h
    · cases h
    split_ifs at h with hleaf
    · split at h
      · rename_i content hcontent
        cases h
        exact ⟨.leaf (isLeafStored_of_decodeContent hf.value hf.text hcontent), text_leaf ..⟩
      · cases h
    · split at h
      · cases h
      · rename_i fs hfs
        obtain ⟨children, hchildren, h⟩ := bind_eq_ok_iff.1 h
        obtain ⟨⟨b, hb⟩, htext⟩ := exists_buildFull_of_rebuild h
        have hall := childFields?_isWritable hf.value hfs
        exact ⟨.parent (forall_of_mapM_decodeFields
          (fun f hmem n hn => (ih (hall f hmem) hn).1) hchildren) hb, htext⟩

theorem grown_of_decode (hj : j.IsWritable) (h : decode j = .ok n) : n.Grown IsLeafStored := by
  unfold decode at h
  split at h
  · exact (grown_of_decodeFields (fields?_isWritable hj ‹_›) h).1
  · cases h

theorem grown_of_unmarshal (h : unmarshal text = .ok n) : n.Grown IsLeafStored := by
  unfold unmarshal at h
  split at h
  · exact grown_of_decode (Json.isWritable_of_parse? ‹_›) h
  · cases h

/-! ### Trees that were read -/

/-- Every node of a grown tree is grown. -/
theorem Grown.of_within {fits : Content → Text → Prop} {m : Node} (h : n.Grown fits)
    (hm : m.Within n) : m.Grown fits := by
  induction hm with
  | self => exact h
  | under hchild _ ih =>
    cases h with
    | parent hchildren hn =>
      obtain ⟨form, heq, -⟩ := Builder.eq_parent_of_buildFull hn
      obtain ⟨-, rfl⟩ := Node.parent.inj heq
      exact ih (hchildren _ hchild)

theorem Grown.fits_of_leaf {fits : Content → Text → Prop}
    (h : (Node.leaf content text).Grown fits) : fits content text := by
  simpa using h.fits_leaves

/-- A parent in a grown tree is built by the constructor of its kind. -/
theorem Grown.exists_buildFull {fits : Content → Text → Prop} {form : Form}
    (h : (Node.parent form children).Grown fits) :
    ∃ b, Builder.ofKind? form.kind = some b ∧
      b.buildFull children = .ok (.parent form children) := by
  cases h with
  | parent hchildren hn =>
    obtain ⟨form', heq, hb⟩ := Builder.eq_parent_of_buildFull hn
    obtain ⟨rfl, rfl⟩ := Node.parent.inj heq
    exact ⟨_, hb, hn⟩

theorem Grown.isInfix {fits : Content → Text → Prop} {op : Operator}
    (h : (Node.parent (.binary op) children).Grown fits) : IsInfix op.symbol children := by
  obtain ⟨b, hb, hn⟩ := h.exists_buildFull
  cases hb
  exact isInfix_of_binary hn

theorem Grown.isPrefixed {fits : Content → Text → Prop} {comparison : Comparison}
    (h : (Node.parent (.conditionRight comparison) children).Grown fits) :
    IsPrefixed comparison.symbol children := by
  obtain ⟨b, hb, hn⟩ := h.exists_buildFull
  cases hb
  exact isPrefixed_of_conditionRight hn

/-- Whatever tree a document is read as, a value nested at will or a text, its nodes are as their
kinds demand, and it can be stored again and is read back as it is.  Only the reader's bound on the
nesting of texts is in the way of the last. -/
theorem decoded_tree (n : Node)
    (h : (∃ j : Json, j.IsWritable ∧ decode j = .ok n) ∨ ∃ text, unmarshal text = .ok n) :
    (∀ form children, (Node.parent form children).Within n →
      (Node.parent form children).text = .join (children.map Node.text)) ∧
    (∀ op children, (Node.parent (.binary op) children).Within n → IsInfix op.symbol children) ∧
    (∀ comparison children, (Node.parent (.conditionRight comparison) children).Within n →
      IsPrefixed comparison.symbol children) ∧
    (∀ column text, (Node.leaf (.column column) text).Within n →
      Column.parse text = .ok column ∧ 1 ≤ column.number ∧ column.number ≤ maxColumn) ∧
    (∀ row text, (Node.leaf (.row row) text).Within n →
      Row.parse text = .ok row ∧ 1 ≤ row.number ∧ row.number ≤ maxRow) ∧
    marshal (some n) = .ok n.encode.compact ∧ decode n.encode = .ok n ∧
    (n.encode.depth ≤ Json.maxDepth →
      Json.parse? n.encode.compact = some n.encode ∧ unmarshal n.encode.compact = .ok n) := by
  have hgrown : n.Grown IsLeafStored := by
    rcases h with ⟨j, hj, h⟩ | ⟨text, h⟩
    · exact grown_of_decode hj h
    · exact grown_of_unmarshal h
  have hdecode : decode n.encode = .ok n :=
    decode_encode_of_isReadBack (hgrown.mono fun _ _ h => h.1)
  have hwritable : n.encode.IsWritable :=
    isWritable_encode_of_leaves (hgrown.mono fun _ _ h => h.2)
  have htext : n.text.isValid = true :=
    isValid_text_of_leaves fun l hl => (hgrown.fits_leaves l hl).2.2
  -- All of it follows from how the leaves are stored and how the parents were built.
  refine ⟨fun form children _ => ?_, fun op children hm => ?_, fun comparison children hm => ?_,
    fun column text hm => ?_, fun row text hm => ?_, ?_, hdecode, fun hdepth => ?_⟩
  · rw [text_parent, textOfAll_eq_join]
  · exact (hgrown.of_within hm).isInfix
  · exact (hgrown.of_within hm).isPrefixed
  · exact ⟨isReadBack_column_iff.1 (hgrown.of_within hm).fits_of_leaf.1, column.one_le,
      column.le_max⟩
  · exact ⟨isReadBack_row_iff.1 (hgrown.of_within hm).fits_of_leaf.1, row.one_le, row.le_max⟩
  · simp [marshal, encodeValid, htext, Except.map]
  · have hobject : n.encode.isWord = false := by
      cases n <;> rw [Node.encode] <;> rfl
    have hparse := Json.parse?_compact hwritable hobject hdepth
    refine ⟨hparse, ?_⟩
    rw [unmarshal, hparse]
    exact hdecode

/-- The sum of a label and an error, with texts and values that do not match: what is stored of the
symbol and the whitespace has no say, and the code of the error is read without regard to case. -/
theorem decoded_tree_sum :
    ∃ n, decode (document (.binary .addition) (.array [
        document .labelName (.string "total") "x", document .whitespace .null " ",
        document (.symbol .plus) (.number ['7']) "+", document .error (.string "#ref!") "?"])
        "x +?") = .ok n ∧
      (∃ children, n = .parent (.binary .addition) children ∧ IsInfix .plus children) ∧
      marshal (some n) = .ok n.encode.compact ∧ decode n.encode = .ok n := by
  have hcheck : (decode (document (.binary .addition) (.array [
      document .labelName (.string "total") "x", document .whitespace .null " ",
      document (.symbol .plus) (.number ['7']) "+", document .error (.string "#ref!") "?"])
      "x +?")).toOption.any (fun n => decide (n.kind = .binary .addition)) = true := by
    decide +kernel
  obtain ⟨n, hn, hkind⟩ := exists_ok_of_any hcheck
  have hwritable : (document (.binary .addition) (.array [
      document .labelName (.string "total") "x", document .whitespace .null " ",
      document (.symbol .plus) (.number ['7']) "+", document .error (.string "#ref!") "?"])
      "x +?").IsWritable := by
    simp only [document, Json.IsWritable, Json.MembersWritable, Json.AllWritable]
    decide
  obtain ⟨-, hinfix, -, -, -, hmarshal, hdecode, -⟩ := decoded_tree n (.inl ⟨_, hwritable, hn⟩)
  refine ⟨n, hn, ?_, hmarshal, hdecode⟩
  cases n with
  | leaf content text => cases content <;> cases of_decide_eq_true hkind
  | parent form children =>
    cases form <;> cases of_decide_eq_true hkind
    exact ⟨children, rfl, hinfix .addition children .self⟩

end Node

end SheetFormula
