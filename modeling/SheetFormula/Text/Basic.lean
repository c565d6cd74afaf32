/-!
# Text as bytes, and the runes it spells

A formula is typed as a string of bytes that need not be valid UTF-8.  `Text` keeps the bytes as
they were written; `Text.runes` reads them as a list of `Rune`s, where every byte that takes part
in no well-formed sequence stands alone as a *stray* rune.  Positions and lengths in messages count
runes, while equality and concatenation are those of the bytes.

* `Text`, `Text.ofString`, `Text.join`;
* `Rune`, `Rune.value`, `Rune.bytes`;
* `Text.runes` and `Text.ofRunes`, which spell and respell a text;
* `Text.isValid`, `Text.toString?` for texts that are valid UTF-8.
-/

namespace SheetFormula

/-- A text, as the bytes that were written. -/
structure Text where
  bytes : List UInt8
deriving DecidableEq, Hashable, Inhabited

namespace Text

/-- The UTF-8 spelling of a list of characters. -/
def ofChars (cs : List Char) : Text := ⟨cs.flatMap String.utf8EncodeChar⟩

/-- The UTF-8 spelling of a string. -/
def ofString (s : String) : Text := ofChars s.toList

instance : Coe String Text := ⟨ofString⟩

/-- The text of no bytes. -/
def empty : Text := ⟨[]⟩

/-- Whether the text has no bytes. -/
def isEmpty (t : Text) : Bool := t.bytes.isEmpty

/-- The number of bytes. -/
def size (t : Text) : Nat := t.bytes.length

instance : Append Text := ⟨fun s t => ⟨s.bytes ++ t.bytes⟩⟩

@[simp] theorem bytes_append (s t : Text) : (s ++ t).bytes = s.bytes ++ t.bytes := rfl

theorem append_assoc (r s t : Text) : r ++ s ++ t = r ++ (s ++ t) :=
  congrArg mk (List.append_assoc ..)

@[simp] theorem append_empty (t : Text) : t ++ empty = t := congrArg mk (List.append_nil _)

/-- The texts one after another. -/
def join (ts : List Text) : Text := ⟨ts.flatMap bytes⟩

/-- The texts one after another, with `separator` between neighbours. -/
def intercalate (separator : Text) (ts : List Text) : Text := join (ts.intersperse separator)

/-- The decimal digits of a natural number. -/
def ofNat (n : Nat) : Text := ofChars (Nat.toDigits 10 n)

/-- The decimal digits of an integer, after a minus sign when it is negative. -/
def ofInt : Int → Text
  | .ofNat n => ofNat n
  | .negSucc n => ofString "-" ++ ofNat (n + 1)

/-- The digits of `n`, with zeros in front up to `width` digits. -/
def ofNatPadded (width n : Nat) : Text :=
  let digits := Nat.toDigits 10 n
  ofChars (List.replicate (width - digits.length) '0' ++ digits)

end Text

/-! ### Runes -/

/-- One unit of a text: a Unicode scalar value, or a byte that belongs to none. -/
inductive Rune
  | scalar (c : Char)
  | stray (b : UInt8)
deriving DecidableEq, Inhabited

namespace Rune

/-- The character that a stray byte counts as. -/
def replacement : Char := '\uFFFD'

/-- The character to compare a rune by. -/
def value : Rune → Char
  | scalar c => c
  | stray _ => replacement

/-- The bytes a rune was written with. -/
def bytes : Rune → List UInt8
  | scalar c => String.utf8EncodeChar c
  | stray b => [b]

/-- Whether the rune is a Unicode scalar value. -/
def isScalar : Rune → Bool
  | scalar _ => true
  | stray _ => false

end Rune

namespace Text

/-- The number that a lead byte's bits `top` and the continuation bytes spell. -/
def spelledNumber (top : Nat) (continuation : List UInt8) : Nat :=
  continuation.foldl (fun n b => n * 64 + (b.toNat - 0x80)) top

/-- The character that a lead byte with bits `top` and the next `count` bytes spell.  The bytes must
be continuation bytes, and the number a scalar value of at least `least`, so that no character has
two spellings. -/
def spelled (top count least : Nat) (rest : List UInt8) : Option (Char × Nat) :=
  let continuation := rest.take count
  let number := spelledNumber top continuation
  if continuation.length = count ∧ (continuation.all fun b => 0x80 ≤ b && b < 0xC0) ∧
      least ≤ number ∧ number.isValidChar then
    some (Char.ofNat number, count)
  else
    none

/-- The character that starts with byte `b`, and the number of bytes after `b` it takes. -/
def spelledBy (b : UInt8) (rest : List UInt8) : Option (Char × Nat) :=
  let n := b.toNat
  if n < 0x80 then some (Char.ofNat n, 0)
  else if n < 0xC0 then none
  else if n < 0xE0 then spelled (n - 0xC0) 1 0x80 rest
  else if n < 0xF0 then spelled (n - 0xE0) 2 0x800 rest
  else if n < 0xF8 then spelled (n - 0xF0) 3 0x10000 rest
  else none

/-- Reads runes in front of `rest`: `read` holds those already read, last first, and `pending`
counts the bytes of the last one still to be passed over. -/
def runesFrom (read : List Rune) (pending : Nat) : List UInt8 → List Rune
  | [] => read.reverse
  | b :: rest =>
    match pending with
    | more + 1 => runesFrom read more rest
    | 0 =>
      match spelledBy b rest with
      | some (c, more) => runesFrom (.scalar c :: read) more rest
      | none => runesFrom (.stray b :: read) 0 rest

/-- The runes of a text.  A byte that starts no well-formed sequence is a rune of its own. -/
def runes (t : Text) : List Rune := runesFrom [] 0 t.bytes

/-- The text that a list of runes was written as. -/
def ofRunes (rs : List Rune) : Text := ⟨rs.flatMap Rune.bytes⟩

@[simp] theorem ofRunes_append (rs ss : List Rune) :
    ofRunes (rs ++ ss) = ofRunes rs ++ ofRunes ss := by
  simp only [ofRunes, List.flatMap_append]
  rfl

/-- The number of runes. -/
def runeCount (t : Text) : Nat := t.runes.length

/-- Whether the bytes are valid UTF-8. -/
def isValid (t : Text) : Bool := t.runes.all Rune.isScalar

/-- The characters of a text, with the replacement character for a stray byte. -/
def chars (t : Text) : List Char := t.runes.map Rune.value

/-- The string that a valid text spells. -/
def toString? (t : Text) : Option String :=
  if t.isValid then some (String.ofList t.chars) else none

/-- The text with the replacement character for every stray byte. -/
def scrub (t : Text) : Text := ofChars t.chars

end Text

end SheetFormula
