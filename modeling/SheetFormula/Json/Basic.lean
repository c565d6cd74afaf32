import SheetFormula.Text.Quoted

/-!
# JSON values and their text

`Json` values keep the members of objects in order, repeated names included, and numbers as they are
written.  `Json.compact` writes a value without any space and `Json.indented` with two spaces per
level.  Beside what JSON demands, the characters `<`, `>`, `&` and the two Unicode line separators
are written as escapes, and a stray byte is written as the replacement character.
-/

namespace SheetFormula

/-- A JSON value. -/
inductive Json
  | null
  | bool (value : Bool)
  | number (digits : List Char)
  | string (text : Text)
  | array (items : List Json)
  | object (members : List (Text × Json))

namespace Json

/-- The number `n`. -/
def ofInt : Int → Json
  | .ofNat n => number (Nat.toDigits 10 n)
  | .negSucc n => number ('-' :: Nat.toDigits 10 (n + 1))

mutual

/-- The number of arrays and objects around the innermost value. -/
def depth : Json → Nat
  | array items => depthOfItems items + 1
  | object members => depthOfMembers members + 1
  | _ => 0

/-- The depth of the deepest item. -/
def depthOfItems : List Json → Nat
  | [] => 0
  | item :: rest => max (depth item) (depthOfItems rest)

/-- The depth of the deepest member. -/
def depthOfMembers : List (Text × Json) → Nat
  | [] => 0
  | (_, value) :: rest => max (depth value) (depthOfMembers rest)

end

/-! ### Strings -/

/-- A four-digit escape. -/
def unicodeEscape (n : Nat) : List Char := '\\' :: 'u' :: hexDigits 4 n

/-- A rune as written in a JSON string. -/
def escapedRune : Rune → List Char
  | .stray _ => [Rune.replacement]
  | .scalar '"' => ['\\', '"']
  | .scalar '\\' => ['\\', '\\']
  | .scalar c =>
    match c.toNat with
    | 0x08 => ['\\', 'b']
    | 0x09 => ['\\', 't']
    | 0x0A => ['\\', 'n']
    | 0x0C => ['\\', 'f']
    | 0x0D => ['\\', 'r']
    | n =>
      if n < 0x20 || c == '<' || c == '>' || c == '&' || n == 0x2028 || n == 0x2029 then
        unicodeEscape n
      else
        [c]

/-- A text as a JSON string, in front of `tail`. -/
def quotedOnto (tail : List Char) (text : Text) : List Char :=
  '"' :: text.runes.flatMap escapedRune ++ '"' :: tail

/-! ### Values -/

mutual

/-- Writes a value in front of `tail`, without any space. -/
def compactOnto (tail : List Char) : Json → List Char
  | null => 'n' :: 'u' :: 'l' :: 'l' :: tail
  | bool true => 't' :: 'r' :: 'u' :: 'e' :: tail
  | bool false => 'f' :: 'a' :: 'l' :: 's' :: 'e' :: tail
  | number digits => digits ++ tail
  | string text => quotedOnto tail text
  | array [] => '[' :: ']' :: tail
  | array (item :: rest) => '[' :: compactOnto (compactItemsOnto (']' :: tail) rest) item
  | object [] => '{' :: '}' :: tail
  | object ((name, value) :: rest) =>
    '{' :: quotedOnto (':' :: compactOnto (compactMembersOnto ('}' :: tail) rest) value) name

/-- Writes items in front of `tail`, each after a comma. -/
def compactItemsOnto (tail : List Char) : List Json → List Char
  | [] => tail
  | item :: rest => ',' :: compactOnto (compactItemsOnto tail rest) item

/-- Writes members in front of `tail`, each after a comma. -/
def compactMembersOnto (tail : List Char) : List (Text × Json) → List Char
  | [] => tail
  | (name, value) :: rest =>
    ',' :: quotedOnto (':' :: compactOnto (compactMembersOnto tail rest) value) name

end

/-- A value without any space. -/
def compact (j : Json) : Text := .ofChars (compactOnto [] j)

/-- A new line at a level, in front of `tail`. -/
def newLineOnto (level : Nat) (tail : List Char) : List Char :=
  '\n' :: List.replicate (2 * level) ' ' ++ tail

mutual

/-- Writes a value at a level in front of `tail`, with every item and member on its own line. -/
def indentedOnto (level : Nat) (tail : List Char) : Json → List Char
  | array (item :: rest) =>
    '[' :: newLineOnto (level + 1)
      (indentedOnto (level + 1)
        (indentedItemsOnto (level + 1) (newLineOnto level (']' :: tail)) rest) item)
  | object ((name, value) :: rest) =>
    '{' :: newLineOnto (level + 1)
      (quotedOnto (':' :: ' ' :: indentedOnto (level + 1)
        (indentedMembersOnto (level + 1) (newLineOnto level ('}' :: tail)) rest) value) name)
  | j => compactOnto tail j

/-- Writes items at a level in front of `tail`, each after a comma. -/
def indentedItemsOnto (level : Nat) (tail : List Char) : List Json → List Char
  | [] => tail
  | item :: rest =>
    ',' :: newLineOnto level (indentedOnto level (indentedItemsOnto level tail rest) item)

/-- Writes members at a level in front of `tail`, each after a comma. -/
def indentedMembersOnto (level : Nat) (tail : List Char) : List (Text × Json) → List Char
  | [] => tail
  | (name, value) :: rest =>
    ',' :: newLineOnto level (quotedOnto (':' :: ' ' ::
      indentedOnto level (indentedMembersOnto level tail rest) value) name)

end

/-- A value with two spaces per level. -/
def indented (j : Json) : Text := .ofChars (indentedOnto 0 [] j)

end Json

end SheetFormula
