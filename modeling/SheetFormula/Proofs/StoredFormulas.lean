import SheetFormula.Formula.Basic
import SheetFormula.Proofs.JsonValues
import SheetFormula.Proofs.Messages
import SheetFormula.Proofs.Sameness
import SheetFormula.Proofs.Storage
import SheetFormula.Proofs.Wiring

/-!
# Stored formulas are read back

The document of a formula leaves out what follows from the rest: the text of a formula with a token,
the usual message of an error, and every expression.  A formula that was parsed, or whose expression
was built, is read back with the same text, token and error nevertheless, and builds the same.
-/

namespace SheetFormula

theorem Text.eq_empty_of_isEmpty {t : Text} (h : t.isEmpty = true) : t = .empty :=
  congrArg Text.mk (List.isEmpty_iff.1 h)

/-! ### Errors -/

/-- An error that is read back from its document: its code is listed, and its message is valid
UTF-8 and says something. -/
structure CellError.IsStored (e : CellError) : Prop where
  listed : ∃ w ∈ errorWords, w.meaning = e.code
  valid : e.message.isValid = true
  message : e.message.isEmpty = false

theorem ErrorCode.defaultMessage_isEmpty :
    ∀ w ∈ errorWords, w.meaning.defaultMessage.isEmpty = false := by decide

/-- An error with a listed code is never without a message. -/
theorem CellError.isStored_of {code : ErrorCode} {message : Text}
    (hcode : ∃ w ∈ errorWords, w.meaning = code) (hvalid : message.isValid = true) :
    (CellError.of code message).IsStored := by
  unfold CellError.of
  split_ifs with hempty
  · obtain ⟨w, hw, rfl⟩ := hcode
    exact ⟨⟨w, hw, rfl⟩, Text.isValid_ofString _, ErrorCode.defaultMessage_isEmpty w hw⟩
  · exact ⟨hcode, hvalid, Bool.eq_false_of_not_eq_true hempty⟩

namespace Formula

variable {e : CellError}

theorem isWritable_encodeError (h : e.IsStored) : (encodeError e).IsWritable := by
  unfold encodeError
  split_ifs
  · simp [Json.IsWritable, Json.MembersWritable]
  · simp [Json.IsWritable, Json.MembersWritable, h.valid]

/-- The usual message is put in again when it was left out. -/
theorem decodeCellError_encodeError (h : e.IsStored) : ∃ members fields,
    encodeError e = .object members ∧ members.foldlM readErrorMember {} = some fields ∧
      decodeCellError (some fields) = .ok (some e) := by
  obtain ⟨w, hw, hcode⟩ := h.listed
  have hread : ErrorCode.ofText? (Text.ofString e.code.text) = some e.code := by
    rw [← hcode]
    exact ErrorCode.ofText?_text w hw
  have hname : (Text.ofString "code").likeAscii "code" = true := by decide
  have hmessage : (Text.ofString "message").likeAscii "code" = false := by decide
  have hmessage' : (Text.ofString "message").likeAscii "message" = true := by decide
  unfold encodeError
  split_ifs with husual
  · have hdefault : e.message = e.code.defaultMessage := by simpa [h.message] using husual
    refine ⟨_, ⟨.ofString e.code.text, .empty⟩, rfl, ?_, ?_⟩
    · simp [readErrorMember, Node.setText, hname]
    · simp only [decodeCellError, hread]
      show Except.ok (some (⟨e.code, e.code.defaultMessage⟩ : CellError)) = _
      rw [← hdefault]
  · refine ⟨_, ⟨.ofString e.code.text, e.message⟩, rfl, ?_, ?_⟩
    · simp [readErrorMember, Node.setText, hname, hmessage, hmessage']
    · simp only [decodeCellError, hread]
      rw [CellError.of, h.message]
      rfl

end Formula

/-! ### Errors of parsing -/

namespace ParseError

variable {e : ParseError}

theorem listed_code (e : ParseError) : ∃ w ∈ errorWords, w.meaning = e.code := by
  unfold code
  split <;> decide

theorem StandsAt.isValid_message {c : Cursor} (h : StandsAt c e) : e.message.isValid = true := by
  cases h with
  | unexpected =>
    unfold unexpectedAt
    split_ifs
    · exact Text.isValid_join (by simp)
    · exact Text.isValid_join (by simp)
  | outOfBounds axis text => exact ReferenceError.isValid_message_outOfBounds axis text
  | number text fault hlegible => exact Text.isValid_join (by simp [hlegible])

end ParseError

/-- The failure of a parse is shown as an error that can be stored. -/
theorem Grammar.isStored_of_parse {g : Grammar} (hl : g.locale.HasSigns) {p : Parser} {text : Text}
    {failure : Failure} (h : g.parse p text = .error failure) : failure.cellError.IsStored := by
  rcases stands_of_run hl h with ⟨-, rfl⟩ | ⟨-, w, stop, e, -, he, rfl⟩
  · exact CellError.isStored_of (ParseError.listed_code _) (Text.isValid_join (by simp))
  · exact CellError.isStored_of e.listed_code he.isValid_message

/-! ### Errors of building -/

namespace BuildError

/-- An error that is a defect, or that can be stored. -/
def IsStored : BuildError → Prop
  | value error => error.IsStored
  | _ => True

end BuildError

namespace Settings

variable {s : Settings} {t : Text} {n : Node} {results : List Expression} {error : BuildError}

theorem listed_num : ∃ w ∈ errorWords, w.meaning = ErrorCode.num := by decide

theorem isStored_numberError {reason : Text} (h : reason.isValid = true) :
    (numberError t reason).IsStored :=
  ⟨listed_num, Text.isValid_join (by simp [h]), rfl⟩

theorem isStored_of_numberValue {d : Decimal} (h : s.numberValue t d = .error error) :
    error.IsStored := by
  unfold numberValue at h
  split at h
  · split at h
    · cases h
    · cases h
      exact isStored_numberError (IntegerFault.isValid_message ..)
  · split at h
    · cases h
    · split at h
      · cases h
      · rename_i hround
        cases h
        exact isStored_numberError (Decimal.isValid_message_of_round hround)

theorem isStored_of_dateValue {parts : DateParts} (h : s.dateValue t parts = .error error) :
    error.IsStored := by
  simp only [dateValue] at h
  split_ifs at h
  cases h
  exact CellError.isStored_of (by decide) (Text.isValid_join (by simp [Date.isValid_text]))

theorem isStored_of_dateTimeValue (h : s.dateTimeValue n = .error error) : error.IsStored := by
  simp only [dateTimeValue] at h
  split at h
  · rcases bind_eq_error_iff.1 h with hdate | ⟨_, -, hvalue⟩
    · exact isStored_of_dateValue hdate
    · cases hvalue
  · cases h

theorem isStored_of_buildNode (h : s.buildNode n results = .error error) : error.IsStored := by
  cases n with
  | leaf content text => cases h
  | parent form children =>
    -- Only the values have an error that is kept with the formula; the counts are defects.
    cases form with
    | binary op =>
      match results with
      | [left, right] => cases h
      | [] | [_] | _ :: _ :: _ :: _ =>
        cases h
        trivial
    | unary wrapper =>
      match results with
      | [operand] => cases h
      | [] | _ :: _ :: _ =>
        cases h
        trivial
    | conditionRight =>
      cases h
      trivial
    | cell | cellRange | time | text | functionParameters | namedFunction => cases h
    | number d =>
      rcases bind_eq_error_iff.1 h with hvalue | ⟨_, -, hbuilt⟩
      · exact isStored_of_numberValue hvalue
      · cases hbuilt
    | date parts =>
      rcases bind_eq_error_iff.1 h with hdate | ⟨_, -, hbuilt⟩
      · exact isStored_of_dateValue hdate
      · cases hbuilt
    | dateTime =>
      rcases bind_eq_error_iff.1 h with hvalue | ⟨_, -, hbuilt⟩
      · exact isStored_of_dateTimeValue hvalue
      · cases hbuilt
    | lambda name =>
      simp only [buildNode] at h
      split_ifs at h
      cases h
      trivial

end Settings

namespace Node

variable {s : Settings} {error : BuildError}

mutual

theorem isStored_of_expressions (n : Node) (h : n.expressions s = .error error) :
    error.IsStored := by
  match n with
  | leaf content text => cases h
  | parent form children =>
    rw [expressions] at h
    rcases bind_eq_error_iff.1 h with hchildren | ⟨results, -, hbuild⟩
    · exact isStored_of_expressionsOfAll children hchildren
    · exact Settings.isStored_of_buildNode hbuild

theorem isStored_of_expressionsOfAll (ns : List Node)
    (h : expressionsOfAll s ns = .error error) : error.IsStored := by
  match ns with
  | [] => cases h
  | n :: rest =>
    rw [expressionsOfAll] at h
    rcases bind_eq_error_iff.1 h with hfirst | ⟨first, -, hmore⟩
    · exact isStored_of_expressions n hfirst
    · rcases bind_eq_error_iff.1 hmore with hrest | ⟨more, -, hall⟩
      · exact isStored_of_expressionsOfAll rest hrest
      · cases hall

end

/-- A value that does not exist is told by an error that can be stored. -/
theorem isStored_of_toExpression {n : Node} (h : n.toExpression s = .error error) :
    error.IsStored := by
  rw [toExpression_eq] at h
  rcases bind_eq_error_iff.1 h with hmade | ⟨built, -, hbuilt⟩
  · exact isStored_of_expressions n hmade
  · match built with
    | [] | [_] => cases hbuilt
    | _ :: _ :: _ =>
      cases hbuilt
      trivial

end Node

/-! ### Formulas -/

namespace Formula

variable {f f' : Formula} {n : Node} {s : Settings}

/-- A formula that is read back from its document: the text is valid UTF-8, the token spells it and
is read back itself, no expression is without a token, and the error is read back. -/
structure IsStored (f : Formula) : Prop where
  text : f.text.isValid = true
  spells : ∀ n, f.token? = some n → n.text = f.text
  writable : ∀ n, f.token? = some n → n.encode.IsWritable
  token : ∀ n, f.token? = some n → Node.decode n.encode = .ok n
  expression : f.token? = none → f.expression? = none
  error : ∀ e, f.error? = some e → e.IsStored

/-- What is read back of a formula. -/
def stored (f : Formula) : Formula where
  text := if f.token?.isSome then .empty else f.text
  token? := f.token?
  error? := f.error?

/-- The token, or the text, in the document of a formula. -/
def contentMembers (f : Formula) : List (Text × Json) :=
  match f.token? with
  | some n => [("token", n.encode)]
  | none => if f.text.isEmpty then [] else [("text", .string f.text)]

/-- The error in the document of a formula. -/
def errorMembers (f : Formula) : List (Text × Json) :=
  match f.error? with
  | some e => [("error", encodeError e)]
  | none => []

theorem encode_eq_ok (h : f.IsStored) :
    f.encode = .ok (.object (f.contentMembers ++ f.errorMembers)) := by
  unfold encode contentMembers
  cases htoken : f.token? with
  | some n =>
    have hvalid : n.encodeValid = .ok n.encode := by
      rw [Node.encodeValid, if_pos (by rw [h.spells n htoken, h.text])]
    simp only [hvalid]
    rfl
  | none =>
    simp only [h.text, Bool.not_true, Bool.false_eq_true, if_false]
    split_ifs
    · rfl
    · rfl

theorem membersWritable (h : f.IsStored) :
    Json.MembersWritable (f.contentMembers ++ f.errorMembers) := by
  rw [Json.membersWritable_iff, List.forall_mem_append]
  constructor
  · unfold contentMembers
    split
    · rename_i n htoken
      exact List.forall_mem_singleton.2 ⟨Text.isValid_ofString _, h.writable n htoken⟩
    · split_ifs
      · exact List.forall_mem_nil _
      · refine List.forall_mem_singleton.2 ⟨Text.isValid_ofString _, ?_⟩
        rw [Json.IsWritable]
        exact h.text
  · unfold errorMembers
    split
    · rename_i e herror
      exact List.forall_mem_singleton.2
        ⟨Text.isValid_ofString _, isWritable_encodeError (h.error e herror)⟩
    · exact List.forall_mem_nil _

/-- The token, or the text, is read. -/
theorem readMember_content (h : f.IsStored) : ∃ token?,
    f.contentMembers.foldlM readMember {} = some { text := f.stored.text, token? := token? } ∧
      decodeToken token? = .ok f.token? := by
  have htext : (Text.ofString "text").likeAscii "text" = true := by decide
  have htoken : (Text.ofString "token").likeAscii "text" = false := by decide
  have htoken' : (Text.ofString "token").likeAscii "token" = true := by decide
  unfold contentMembers stored
  cases hf : f.token? with
  | some n =>
    refine ⟨some n.encode, by simp [readMember, htoken, htoken'], ?_⟩
    have hn := h.token n hf
    obtain ⟨members, hobject⟩ : ∃ members, n.encode = .object members := by
      cases n <;> rw [Node.encode] <;> exact ⟨_, rfl⟩
    rw [hobject] at hn ⊢
    simp only [decodeToken, hn]
  | none =>
    refine ⟨none, ?_, rfl⟩
    simp only [Option.isSome_none, Bool.false_eq_true, if_false]
    split_ifs with hempty
    · rw [Text.eq_empty_of_isEmpty hempty]
      rfl
    · simp [readMember, Node.setText, htext]

/-- The error is read behind the token or the text. -/
theorem readMember_error (h : f.IsStored) (fields : Fields) (hfields : fields.error? = none) :
    ∃ error?, f.errorMembers.foldlM readMember fields = some { fields with error? := error? } ∧
      decodeCellError error? = .ok f.error? := by
  have htext : (Text.ofString "error").likeAscii "text" = false := by decide
  have htoken : (Text.ofString "error").likeAscii "token" = false := by decide
  have herror : (Text.ofString "error").likeAscii "error" = true := by decide
  unfold errorMembers
  cases hf : f.error? with
  | some e =>
    obtain ⟨members, fields', hdocument, hread, hdecode⟩ :=
      decodeCellError_encodeError (h.error e hf)
    exact ⟨some fields', by simp [readMember, htext, htoken, herror, hdocument, hfields, hread],
      hdecode⟩
  | none => exact ⟨none, by rw [← hfields]; rfl, rfl⟩

theorem decode_members (h : f.IsStored) :
    decode (.object (f.contentMembers ++ f.errorMembers)) = .ok f.stored := by
  obtain ⟨token?, hcontent, htoken⟩ := readMember_content h
  obtain ⟨error?, herrors, herror⟩ := readMember_error h
    { text := f.stored.text, token? := token? } rfl
  have hfields : fields? (.object (f.contentMembers ++ f.errorMembers)) =
      some { text := f.stored.text, token? := token?, error? := error? } := by
    rw [fields?, List.foldlM_append, hcontent]
    exact herrors
  simp only [decode, hfields, htoken, herror]
  rfl

/-- What can be stored is read back from the text of its document, which only has to be within the
reader's bound on the nesting of documents. -/
theorem unmarshal_marshal (h : f.IsStored) : ∃ document,
    f.encode = .ok document ∧ f.marshal = .ok document.compact ∧ decode document = .ok f.stored ∧
      (document.depth ≤ Json.maxDepth → unmarshal document.compact = .ok f.stored) := by
  have hencode := encode_eq_ok h
  have hdecode := decode_members h
  refine ⟨_, hencode, by rw [marshal, hencode]; rfl, hdecode, fun hdepth => ?_⟩
  have hwritable : (Json.object (f.contentMembers ++ f.errorMembers)).IsWritable := by
    rw [Json.IsWritable]
    exact membersWritable h
  rw [unmarshal, Json.parse?_compact hwritable rfl hdepth]
  exact hdecode

theorem fullText_stored (h : f.IsStored) : f.stored.fullText = f.fullText := by
  unfold stored fullText
  cases hf : f.token? with
  | none => rfl
  | some n =>
    show n.text = if f.text.isEmpty then n.text else f.text
    rw [h.spells n hf, ite_self]

/-- Both buildings gave formulas with the same error, whose expressions have the same shape and the
same values, or both stopped at one defect. -/
inductive SameOutcome : Except ExpressionError Formula → Except ExpressionError Formula → Prop
  | built {f g : Formula} :
    Option.Rel (fun e e' => e.same e' = true) f.expression? g.expression? → f.error? = g.error? →
      SameOutcome (.ok f) (.ok g)
  | defect {error : ExpressionError} : SameOutcome (.error error) (.error error)

/-- What is read back builds the same. -/
theorem sameOutcome_stored (h : f.IsStored) (s : Settings) :
    SameOutcome (f.toExpression s) (f.stored.toExpression s) := by
  have htoken : f.stored.token? = f.token? := rfl
  unfold toExpression
  rw [fullText_stored h, htoken]
  cases hf : f.token? with
  | none =>
    refine .built ?_ rfl
    rw [h.expression hf]
    exact .none
  | some n =>
    cases hn : n.toExpression s with
    | ok e? =>
      simp only [hn]
      cases e? with
      | none => exact .built .none rfl
      | some e => exact .built (.some (Node.same_of_toExpression hn)) rfl
    | error error =>
      simp only [hn]
      cases error with
      | value error => exact .built .none rfl
      | _ => exact .defect

/-! ### Formulas of parsed texts -/

/-- A formula of valid text can be stored. -/
theorem isStored_parse (p : Parser) {text : Text} (htext : text.isValid = true) :
    (parse .american p text).IsStored := by
  have hl := Locale.hasPlainSigns_default
  unfold parse
  split_ifs
  · exact ⟨htext, nofun, nofun, nofun, fun _ => rfl, nofun⟩
  · cases hparse : Grammar.american.parse p text with
    | error failure =>
      refine ⟨htext, nofun, nofun, nofun, fun _ => rfl, ?_⟩
      rintro _ ⟨⟩
      exact Grammar.isStored_of_parse Locale.hasSigns_default hparse
    | ok n =>
      obtain ⟨k, hrun⟩ := Grammar.run_of_parse hparse
      refine ⟨htext, ?_, ?_, ?_, nofun, nofun⟩
      · rintro _ ⟨⟩
        exact (Grammar.run_spells hl hrun).2.2 rfl
      · rintro _ ⟨⟩
        exact Node.isWritable_encode (Grammar.grown_of_parse hl (List.all_eq_true.1 htext) hparse)
          (Grammar.isValid_leaf_of_parse hl htext hparse)
      · rintro _ ⟨⟩
        exact Node.decode_encode Grammar.fitsWord_default
          (Grammar.grown_of_parse hl (fun _ _ => trivial) hparse)

/-- The formula that building gives can be stored like the one it was given. -/
theorem IsStored.of_toExpression (h : f.IsStored) (hbuilt : f.toExpression s = .ok f') :
    f'.IsStored := by
  unfold toExpression at hbuilt
  split at hbuilt
  · cases hbuilt
    exact h
  · rename_i n hn
    have hexpression {e? : Option Expression} : f.token? = none → e? = none := by
      rw [hn]
      nofun
    split at hbuilt
    · cases hbuilt
      exact ⟨h.text, h.spells, h.writable, h.token, hexpression, nofun⟩
    · rename_i error herror
      cases hbuilt
      refine ⟨h.text, h.spells, h.writable, h.token, fun _ => rfl, ?_⟩
      rintro _ ⟨⟩
      exact Node.isStored_of_toExpression herror
    · cases hbuilt

/-- A formula of valid text, parsed by any parser of the default grammar, or the one that building
its expression gives, can be stored.  It is read back with its text, its token and its error, and
whatever the settings, building an expression comes to the same before and after. -/
theorem stored_formula (p : Parser) (text : Text) (s : Settings) (f : Formula)
    (htext : text.isValid = true)
    (hf : f = parse .american p text ∨ (parse .american p text).toExpression s = .ok f) :
    ∃ document g, f.encode = .ok document ∧ f.marshal = .ok document.compact ∧
      decode document = .ok g ∧
      (document.depth ≤ Json.maxDepth → unmarshal document.compact = .ok g) ∧
      g.fullText = f.fullText ∧ g.token? = f.token? ∧ g.error? = f.error? ∧
      ∀ s' : Settings, SameOutcome (f.toExpression s') (g.toExpression s') := by
  have hstored : f.IsStored := by
    rcases hf with rfl | hbuilt
    · exact isStored_parse p htext
    · exact (isStored_parse p htext).of_toExpression hbuilt
  obtain ⟨document, hencode, hmarshal, hdecode, hunmarshal⟩ := unmarshal_marshal hstored
  exact ⟨document, f.stored, hencode, hmarshal, hdecode, hunmarshal, fullText_stored hstored, rfl,
    rfl, sameOutcome_stored hstored⟩

/-- The formula of a date that does not exist is stored with its error. -/
theorem stored_formula_unreal : ∃ f document g,
    (parse .american .valueOrExpression "29/2/2023").toExpression { today := ⟨2024, 2, 29⟩ } =
        .ok f ∧ f.marshal = .ok document ∧ unmarshal document = .ok g ∧
      g.fullText = "29/2/2023" ∧ g.error?.map CellError.code = some .value := by
  have hcheck : ((parse .american .valueOrExpression "29/2/2023").toExpression
      { today := ⟨2024, 2, 29⟩ }).toOption.any (fun f =>
        f.encode.toOption.any (fun document => decide (document.depth ≤ Json.maxDepth)) &&
          decide (f.fullText = .ofString "29/2/2023" ∧
            f.error?.map CellError.code = some .value)) = true := by
    decide +kernel
  obtain ⟨f, hf, hchecks⟩ := exists_ok_of_any hcheck
  obtain ⟨document, g, hencode, hmarshal, -, hread, htext, -, herror, -⟩ :=
    stored_formula .valueOrExpression "29/2/2023" { today := ⟨2024, 2, 29⟩ } f (by decide) (.inr hf)
  rw [hencode, Bool.and_eq_true, decide_eq_true_eq] at hchecks
  obtain ⟨hdepth, hfull, hcode⟩ := hchecks
  exact ⟨f, document.compact, g, hf, hmarshal, hread (of_decide_eq_true hdepth),
    htext.trans hfull, herror ▸ hcode⟩

end Formula

end SheetFormula
