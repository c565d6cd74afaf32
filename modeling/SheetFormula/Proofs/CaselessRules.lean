import SheetFormula.Proofs.LowerTrees

/-!
# Rules that ignore letter case

A rule ignores letter case, `Rule.IgnoresCase`, when its answer in lower case is its answer with the
nodes and the cursor in lower case.  It finds the same, is absent alike and fails alike, although a
failure may quote the text in the case it has.  The combinators keep this.
-/

namespace SheetFormula

namespace Rule

/-- The second answer is the first in lower case.  What is told about a failure may differ. -/
inductive Lowers : Outcome × Cursor → Outcome × Cursor → Prop
  | absent {next : Cursor} : next.IsClean → Lowers (.absent, next) (.absent, next.lower)
  | found {nodes : List Node} {next : Cursor} : next.IsClean →
      Lowers (.found nodes, next) (.found (nodes.map Node.lower), next.lower)
  | failed {failure failure' : Failure} {next : Cursor} : next.IsClean →
      Lowers (.failed failure, next) (.failed failure', next.lower)

/-- What holds of every answer and of it in lower case holds of an answer and the second one. -/
@[elab_as_elim]
theorem Lowers.by_answer {motive : Outcome × Cursor → Outcome × Cursor → Prop}
    {x y : Outcome × Cursor} (h : Lowers x y)
    (absent : ∀ next : Cursor, next.IsClean → motive (.absent, next) (.absent, next.lower))
    (failed : ∀ (failure failure' : Failure) (next : Cursor), next.IsClean →
      motive (.failed failure, next) (.failed failure', next.lower))
    (found : ∀ (nodes : List Node) (next : Cursor), next.IsClean →
      motive (.found nodes, next) (.found (nodes.map Node.lower), next.lower)) : motive x y := by
  cases h with
  | absent hnext => exact absent _ hnext
  | failed hnext => exact failed _ _ _ hnext
  | found hnext => exact found _ _ hnext

/-- The rule answers in lower case as it answers otherwise. -/
def IgnoresCase (r : Rule) : Prop := ∀ ⦃c : Cursor⦄, c.IsClean → Lowers (r c) (r c.lower)

variable {r : Rule} {rules : List Rule} {start c next : Cursor} {nodes : List Node}

theorem Lowers.one {n : Node} (hnext : next.IsClean) :
    Lowers (.found [n], next) (.found [n.lower], next.lower) := .found hnext

theorem lowers_built {x y : Except Defect Node} (h : SucceedAlike Node.lower x y) (hc : c.IsClean) :
    Lowers (built x c) (built y c.lower) := by
  cases h with
  | ok n => exact .one hc
  | error _ => exact .failed hc

/-- What is found in lower case is what is found otherwise, in lower case. -/
theorem IgnoresCase.found_lower_iff {nodes' : List Node} (h : IgnoresCase r) (hc : c.IsClean) :
    r c.lower = (.found nodes', next) ↔
      ∃ nodes stop, r c = (.found nodes, stop) ∧ nodes' = nodes.map Node.lower ∧
        next = stop.lower := by
  refine (h hc).by_answer ?_ ?_ ?_
  · simp
  · simp
  · simp [eq_comm]

/-! ### Combinators -/

theorem lowers_sequenceFrom (h : rules.Forall IgnoresCase) (hstart : start.IsClean)
    (hc : c.IsClean) :
    Lowers (sequenceFrom start rules c) (sequenceFrom start.lower rules c.lower) := by
  induction rules generalizing c with
  | nil => exact .found hc
  | cons r rules ih =>
    obtain ⟨hr, hrules⟩ := (List.forall_cons ..).1 h
    rw [sequenceFrom, sequenceFrom]
    refine (hr hc).by_answer (fun _ _ => .absent hstart) (fun _ _ _ => .failed) ?_
    intro first mid hmid
    dsimp only
    refine (ih hrules hmid).by_answer (fun _ => .absent) (fun _ _ _ => .failed) ?_
    intro more next hnext
    simp only [← List.map_append]
    exact .found hnext

theorem IgnoresCase.sequence (h : rules.Forall IgnoresCase) : IgnoresCase (sequence rules) :=
  fun _ hc => lowers_sequenceFrom h hc hc

theorem IgnoresCase.alternatives (h : rules.Forall IgnoresCase) :
    IgnoresCase (alternatives rules) := by
  induction rules with
  | nil => exact fun _ hc => .absent hc
  | cons r rules ih =>
    obtain ⟨hr, hrules⟩ := (List.forall_cons ..).1 h
    intro c hc
    rw [Rule.alternatives, Rule.alternatives]
    exact (hr hc).by_answer (fun _ hnext => ih hrules hnext) (fun _ _ _ => .failed)
      (fun _ _ => .found)

theorem IgnoresCase.optional (h : IgnoresCase r) : IgnoresCase (optional r) := by
  intro c hc
  rw [Rule.optional, Rule.optional]
  exact (h hc).by_answer (fun _ => .found) (fun _ _ _ => .failed) (fun _ _ => .found)

theorem lowers_repeatedIn (h : IgnoresCase r) (fuel : Nat) (hc : c.IsClean) :
    Lowers (repeatedIn r fuel c) (repeatedIn r fuel c.lower) := by
  induction fuel generalizing c with
  | zero => exact .failed hc
  | succ fuel ih =>
    rw [repeatedIn, repeatedIn]
    refine (h hc).by_answer (fun _ => .found) (fun _ _ _ => .failed) ?_
    intro first mid hmid
    dsimp only
    by_cases hpos : mid.pos = c.pos
    · rw [if_pos hpos, if_pos (show mid.lower.pos = c.lower.pos from hpos)]
      exact .found hmid
    · rw [if_neg hpos, if_neg (show mid.lower.pos ≠ c.lower.pos from hpos)]
      refine (ih hmid).by_answer (fun _ => .absent) (fun _ _ _ => .failed) ?_
      intro more next hnext
      simp only [← List.map_append]
      exact .found hnext

theorem IgnoresCase.repeated (h : IgnoresCase r) : IgnoresCase (repeated r) := by
  intro c hc
  have hlength : c.lower.rest.length = c.rest.length := List.length_map ..
  rw [Rule.repeated, Rule.repeated, hlength]
  exact lowers_repeatedIn h _ hc

theorem IgnoresCase.required (h : IgnoresCase r) : IgnoresCase (required r) := by
  intro c hc
  rw [Rule.required, Rule.required]
  exact (h hc).by_answer (fun _ => .failed) (fun _ _ _ => .failed) (fun _ _ => .found)

theorem IgnoresCase.transform {build : List Node → Except Defect Node} (h : IgnoresCase r)
    (hbuild : ∀ ns : List Node, SucceedAlike Node.lower (build ns) (build (ns.map Node.lower))) :
    IgnoresCase (transform r build) := by
  intro c hc
  rw [Rule.transform, Rule.transform]
  exact (h hc).by_answer (fun _ => .absent) (fun _ _ _ => .failed)
    (fun nodes _ => lowers_built (hbuild nodes))

theorem IgnoresCase.restoring (h : IgnoresCase r) : IgnoresCase (restoring r) := by
  intro c hc
  rw [Rule.restoring, Rule.restoring]
  exact (h hc).by_answer (fun _ _ => .absent hc) (fun _ _ _ => .failed) (fun _ _ => .found)

/-! ### Symbols and whitespace -/

theorem lowers_leafBetween (content : Content) (hc : c.IsClean) (hnext : next.IsClean) :
    Lowers (leafBetween content c next) (leafBetween content.lower c.lower next.lower) := by
  rw [leafBetween, leafBetween, Cursor.textTo_lower hc, ← Node.lower_leaf]
  exact .one hnext

/-- A symbol that is written without letters is written in lower case, too. -/
theorem symbol_ignoresCase (s : Symbol) {word : List Char}
    (hword : ∀ ch ∈ word, isLetter ch = false) : IgnoresCase (symbol s word) := by
  intro c hc
  rw [symbol, symbol, Cursor.rest_lower, Cursor.shows_lower hword]
  split_ifs
  · rw [← Cursor.lower_advance]
    exact lowers_leafBetween (.symbol s) hc (hc.advance _)
  · exact .absent hc

theorem whitespace_ignoresCase : IgnoresCase whitespace := by
  intro c hc
  simp only [whitespace, Cursor.skip_lower isBlank_asciiLower, Cursor.pos_lower]
  split_ifs
  · exact .absent hc
  · exact lowers_leafBetween .whitespace hc hc.skip

theorem optionalWhitespace_ignoresCase : IgnoresCase optionalWhitespace :=
  whitespace_ignoresCase.optional

end Rule

end SheetFormula
