import SheetFormula.Proofs.Growth
import SheetFormula.Grammar.Failure

/-!
# The messages of errors

The message of an error of parsing is valid UTF-8 and says something, whatever bytes the text has
that it is about: texts are quoted in it, with their stray bytes escaped.  Only a decimal number is
told as it was written, and the digits of a number are digits.
-/

namespace SheetFormula

namespace Text

@[simp] theorem isValid_ofString (s : String) : (ofString s).isValid = true := isValid_ofChars _

@[simp] theorem isValid_ofNat (n : Nat) : (ofNat n).isValid = true := isValid_ofChars _

@[simp] theorem isValid_ofInt (n : Int) : (ofInt n).isValid = true := by
  cases n with
  | ofNat n => exact isValid_ofNat n
  | negSucc n => exact isValid_append (isValid_ofString _) (isValid_ofNat _)

@[simp] theorem isValid_ofIntPadded (width : Nat) (n : Int) :
    (ofIntPadded width n).isValid = true := by
  cases n with
  | ofNat n => exact isValid_ofChars _
  | negSucc n => exact isValid_append (isValid_ofString _) (isValid_ofChars _)

@[simp] theorem isValid_quoted (t : Text) : t.quoted.isValid = true := isValid_ofChars _

@[simp] theorem isValid_quotedChar (c : Char) : (quotedChar c).isValid = true := isValid_ofChars _

end Text

theorem IntegerFault.isValid_message (fault : IntegerFault) (reader : String) (source : Text) :
    (fault.message reader source).isValid = true :=
  Text.isValid_join (by simp [Text.isValid_append])

theorem ReferenceError.isValid_message_outOfBounds (axis : Axis) (text : Text) :
    (outOfBounds axis text).message.isValid = true := by
  exact Text.isValid_join (by simp [Text.isValid_append])

theorem Date.isValid_text (d : Date) : d.text.isValid = true := Text.isValid_join (by simp)

/-! ### Numbers without a value -/

namespace Decimal

variable {negative : Bool} {cs : List Char} {text : Text} {fault : DecimalFault}

theorem isValid_message_of_withExponents {coefficient : Nat} {terms : List Int}
    (h : withExponents negative coefficient terms = .error fault) :
    fault.message.isValid = true := by
  simp only [withExponents] at h
  split_ifs at h
  cases h
  exact Text.isValid_ofString _

theorem isValid_message_of_parseUnsigned (h : parseUnsigned negative cs = .error fault) :
    fault.message.isValid = true := by
  have hmantissa (ds : List Char) (terms : List Int)
      (h : (if ds.isEmpty || ds.any (!isDigit ·) then .error (.mantissa (.ofChars ds))
        else withExponents negative (digitsValue ds) terms) = .error fault) :
      fault.message.isValid = true := by
    split_ifs at h
    · cases h
      exact Text.isValid_join (by simp)
    · exact isValid_message_of_withExponents h
  unfold parseUnsigned at h
  split at h
  · exact hmantissa _ _ h
  · split at h
    · exact hmantissa _ _ h
    · cases h
      exact Text.isValid_join (by simp [IntegerFault.isValid_message])

/-- A decimal that is not read is told as it was written, or in part. -/
theorem isValid_message_of_parse (htext : text.isValid = true) (h : parse text = .error fault) :
    fault.message.isValid = true := by
  simp only [parse] at h
  split at h
  · cases h
    exact Text.isValid_join (by simp [htext])
  · cases h
    exact Text.isValid_join (by simp [htext])
  · split at h
    · split at h
      · cases h
        exact Text.isValid_join (by simp)
      · cases h
        exact Text.isValid_join (by simp [IntegerFault.isValid_message])
    · exact isValid_message_of_parseUnsigned h

theorem isValid_message_of_round {precision : Nat} {d : Decimal}
    (h : d.round precision = .error fault) : fault.message.isValid = true := by
  simp only [round] at h
  split_ifs at h <;>
  · cases h
    exact Text.isValid_ofString _

end Decimal

namespace NumberReading

variable {r r' : NumberReading} {child : Node} {children : List Node} {fault : NumberFault}

theorem isValid_message_of_readSign {minus : Bool} {text : Text}
    (h : r.readSign minus text = .error fault) : fault.message.isValid = true := by
  unfold readSign at h
  split_ifs at h
  cases h
  exact Text.isValid_join (by simp)

theorem isValid_message_of_readDigits {text : Text} (h : r.readDigits text = .error fault) :
    fault.message.isValid = true := by
  unfold readDigits at h
  split_ifs at h
  · cases h
    exact Text.isValid_join (by simp)
  · split at h
    · cases h
    · cases h
      exact IntegerFault.isValid_message ..

theorem isValid_message_of_read (h : r.read child = .error fault) :
    fault.message.isValid = true := by
  unfold read at h
  split at h
  · exact isValid_message_of_readSign h
  · exact isValid_message_of_readSign h
  · exact isValid_message_of_readDigits h
  · split_ifs at h
    cases h
    exact Text.isValid_join (by simp)
  · split_ifs at h
    cases h
    exact Text.isValid_join (by simp)
  · cases h
  · cases h
    exact Text.isValid_join (by simp)

theorem isValid_digits_of_readSign {minus : Bool} {text : Text}
    (h : r.readSign minus text = .ok r') (hr : r.digits.isValid = true) :
    r'.digits.isValid = true := by
  unfold readSign at h
  split_ifs at h <;>
  · cases h
    exact hr

theorem isValid_digits_of_readDigits {text : Text} (h : r.readDigits text = .ok r')
    (hr : r.digits.isValid = true) (htext : text.isValid = true) : r'.digits.isValid = true := by
  unfold readDigits at h
  split_ifs at h
  · split at h
    · cases h
      exact hr
    · cases h
  · cases h
    exact Text.isValid_append hr htext
  · cases h
    exact Text.isValid_append hr htext

/-- Only characters are among the digits that are read of a numeral. -/
theorem isValid_digits_of_read (h : r.read child = .ok r') (hr : r.digits.isValid = true)
    (hchild : Rule.IsNumeral child) : r'.digits.isValid = true := by
  obtain ⟨content, text, rfl, ⟨rfl, htext⟩ | ⟨s, rfl⟩⟩ := hchild
  · exact isValid_digits_of_readDigits h hr htext
  · unfold read at h
    split at h
    · exact isValid_digits_of_readSign h hr
    · exact isValid_digits_of_readSign h hr
    · rename_i heq
      cases heq
    · split_ifs at h
      cases h
      exact hr
    · split_ifs at h
      cases h
      exact hr
    · cases h
      exact hr
    · cases h

theorem isValid_message_of_value (h : r.value = .error fault) (hr : r.digits.isValid = true) :
    fault.message.isValid = true := by
  simp only [value] at h
  split_ifs at h with hmissing hempty
  · cases h
    exact Text.isValid_ofString _
  · split at h
    · cases h
    · rename_i hparse
      cases h
      exact Decimal.isValid_message_of_parse (Text.isValid_join (by simp)) hparse
  · split at h
    · cases h
    · rename_i hparse
      cases h
      exact Decimal.isValid_message_of_parse (Text.isValid_join (by simp [hr])) hparse

theorem isValid_message_of_foldlM (hchildren : ∀ child ∈ children, Rule.IsNumeral child)
    (hr : r.digits.isValid = true) (h : (children.foldlM read r >>= value) = .error fault) :
    fault.message.isValid = true := by
  induction children generalizing r with
  | nil => exact isValid_message_of_value h hr
  | cons child children ih =>
    obtain ⟨hchild, hchildren⟩ := List.forall_mem_cons.1 hchildren
    rw [List.foldlM_cons, bind_assoc] at h
    rcases bind_eq_error_iff.1 h with hread | ⟨r', hread, hrest⟩
    · exact isValid_message_of_read hread
    · exact ih hchildren (isValid_digits_of_read hread hr hchild) hrest

end NumberReading

/-- The fault of a number that a scanner has read. -/
theorem isValid_message_of_numberValue {children : List Node} {fault : NumberFault}
    (hchildren : ∀ child ∈ children, Rule.IsNumeral child)
    (h : numberValue children = .error fault) : fault.message.isValid = true :=
  NumberReading.isValid_message_of_foldlM hchildren rfl h

end SheetFormula
