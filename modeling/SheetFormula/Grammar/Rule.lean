import SheetFormula.Grammar.Failure
import SheetFormula.Node.Build

/-!
# Rules

A rule looks at the text from a cursor on and answers with an outcome and the cursor afterwards: it
found nodes, it is absent, or it failed.  Absence is no failure: another rule may be tried, and the
cursor is then where it was before.  The combinators of this module build rules from rules.
-/

namespace SheetFormula

/-- What a rule makes of a text. -/
inductive Outcome
  | absent
  | found (nodes : List Node)
  | failed (failure : Failure)

/-- A rule answers with an outcome and the cursor afterwards. -/
abbrev Rule := Cursor → Outcome × Cursor

namespace Rule

/-- The rule `r`, with the cursor put back when it is absent. -/
def restoring (r : Rule) : Rule := fun c =>
  match r c with
  | (.absent, _) => (.absent, c)
  | answer => answer

/-- A restoring rule that is absent leaves the cursor where it was. -/
theorem restoring_absent {r : Rule} {c next : Cursor} (h : restoring r c = (.absent, next)) :
    next = c := by
  unfold restoring at h
  split at h <;> simp_all

/-- Goes on with a sequence that began at `start`. -/
def sequenceFrom (start : Cursor) : List Rule → Rule
  | [], c => (.found [], c)
  | r :: rules, c =>
    match r c with
    | (.found nodes, c) =>
      match sequenceFrom start rules c with
      | (.found more, c) => (.found (nodes ++ more), c)
      | answer => answer
    | (.absent, _) => (.absent, start)
    | answer => answer

/-- All rules one after another, or nothing at all. -/
def sequence (rules : List Rule) : Rule := fun c => sequenceFrom c rules c

/-- A sequence that is absent ends where it began, whatever its rules do. -/
theorem sequenceFrom_absent {start c next : Cursor} {rules : List Rule}
    (h : sequenceFrom start rules c = (.absent, next)) : next = start := by
  induction rules generalizing c with
  | nil => simp [sequenceFrom] at h
  | cons r rules ih =>
    unfold sequenceFrom at h
    split at h
    · split at h
      · simp at h
      · exact ih h
    · simp_all
    · simp_all

/-- The first rule that is not absent. -/
def alternatives : List Rule → Rule
  | [], c => (.absent, c)
  | r :: rules, c =>
    match r c with
    | (.absent, c) => alternatives rules c
    | answer => answer

/-- The rule `r`, or nothing. -/
def optional (r : Rule) : Rule := fun c =>
  match r c with
  | (.absent, c) => (.found [], c)
  | answer => answer

/-- The rule `r` in at most `fuel` rounds. -/
def repeatedIn (r : Rule) : (fuel : Nat) → Rule
  | 0, c => (.failed .endless, c)
  | fuel + 1, c =>
    match r c with
    | (.found nodes, next) =>
      if next.pos = c.pos then (.found [], next)
      else
        match repeatedIn r fuel next with
        | (.found more, c) => (.found (nodes ++ more), c)
        | answer => answer
    | (.absent, next) => (.found [], next)
    | answer => answer

/-- The rule `r` as often as it is found and moves the cursor.  Each round that consumes a rune
leaves fewer of them, which bounds the number of rounds. -/
def repeated (r : Rule) : Rule := fun c => repeatedIn r (c.rest.length + 1) c

/-- The rule `r`, whose absence is an error at the cursor. -/
def required (r : Rule) : Rule := fun c =>
  match r c with
  | (.absent, c) => (.failed (.parse (.unexpectedAt c)), c)
  | answer => answer

/-- The rule `r` when it reads all that is left. -/
def complete (r : Rule) : Rule := fun c =>
  match r c with
  | (.found nodes, next) => if next.atEnd then (.found nodes, next) else (.absent, c)
  | answer => answer

/-- What a constructor makes of nodes, with the cursor behind them. -/
def built (result : Except Defect Node) (c : Cursor) : Outcome × Cursor :=
  match result with
  | .ok n => (.found [n], c)
  | .error d => (.failed (.defect d), c)

/-- One parent of the nodes that `r` finds. -/
def transform (r : Rule) (build : List Node → Except Defect Node) : Rule := fun c =>
  match r c with
  | (.found nodes, next) => built (build nodes) next
  | answer => answer

/-- One parent of the nodes that `r` finds, if they are acceptable; otherwise absent. -/
def validated (r : Rule) (acceptable : List Node → Bool)
    (build : List Node → Except Defect Node) : Rule := fun c =>
  match r c with
  | (.found nodes, next) =>
    if acceptable nodes then built (build nodes) next else (.absent, c)
  | answer => answer

/-! ### Symbols and whitespace -/

/-- The symbol `s` written as `word`. -/
def symbol (s : Symbol) (word : List Char) : Rule := fun c =>
  if Cursor.shows word c.rest then
    let next := c.advance word.length
    (.found [.leaf (.symbol s) (c.textTo next)], next)
  else
    (.absent, c)

/-- One or more blanks. -/
def whitespace : Rule := fun c =>
  let next := c.skip isBlank
  if next.pos = c.pos then (.absent, c) else (.found [.leaf .whitespace (c.textTo next)], next)

/-- Any number of blanks. -/
def optionalWhitespace : Rule := optional whitespace

end Rule

end SheetFormula
