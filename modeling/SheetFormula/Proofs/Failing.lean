import SheetFormula.Proofs.ExactTokens

/-!
# How rules fail

A rule that neither finds something nor is absent fails, and a failure of a well-made rule *blames*
the text: it says that a rune does not belong where it is, that a column or a row there is out of
bounds, or that a number there has no value.  That no other failure comes about depends on what the
rules find, for every constructor of a parent has to accept the nodes that it is given.  So a rule
`Gives` nodes of a shape, and fails by blaming the text, and all combinators keep this.

Rules for operands are only well-made for texts up to some length, which bounds their nesting.  The
statement therefore carries a bound on the runes that are left; it drops behind a rule that consumes
some of them.
-/

namespace SheetFormula

/-! ### Blame -/

/-- Errors that say what is wrong at a cursor. -/
inductive ParseError.StandsAt (c : Cursor) : ParseError → Prop
  | unexpected : StandsAt c (.unexpectedAt c)
  | outOfBounds (axis : Axis) (text : Text) :
      StandsAt c ⟨c.pos, .reference (.outOfBounds axis text)⟩
  | number (text : Text) (fault : NumberFault) (hlegible : fault.message.isValid = true) :
    StandsAt c ⟨c.pos, .number text fault⟩

/-- A failure that says what is wrong at some place behind a cursor. -/
def Cursor.Blames (c : Cursor) (failure : Failure) : Prop :=
  ∃ w stop e, c.Passes w stop ∧ ParseError.StandsAt stop e ∧ failure = .parse e

/-- The second cursor stands behind the first. -/
def Cursor.Moves (c : Cursor) (_ : List Node) (next : Cursor) : Prop := ∃ w, c.Passes w next

theorem Cursor.Blames.here {c : Cursor} {e : ParseError} (h : ParseError.StandsAt c e) :
    c.Blames (.parse e) := ⟨[], c, e, .refl c, h, rfl⟩

theorem Cursor.Blames.behind {c mid : Cursor} {w : List Rune} {failure : Failure}
    (hw : c.Passes w mid) (h : mid.Blames failure) : c.Blames failure := by
  obtain ⟨v, stop, e, hv, he, rfl⟩ := h
  exact ⟨w ++ v, stop, e, hw.trans hv, he, rfl⟩

namespace Rule

theorem compositional_moves : Compositional Cursor.Moves where
  nil c := ⟨[], .refl c⟩
  append := by
    rintro c mid next ns ms ⟨v, hv⟩ ⟨w, hw⟩
    exact ⟨v ++ w, hv.trans hw⟩
  stall := fun h _ => h

theorem Exact.moves {r : Rule} (h : Exact r) : Keeps Cursor.Moves r where
  restores := h.restores
  found hr := by
    obtain ⟨ws, hws, -⟩ := h.found hr
    exact ⟨ws.flatten, hws⟩

/-- On texts of fewer than `k` runes the rule finds nodes of the shape `S`, and its failures blame
the text. -/
structure Gives (k : Nat) (r : Rule) (S : List Node → Prop) : Prop where
  moves : Keeps Cursor.Moves r
  found : ∀ {c next : Cursor} {nodes : List Node}, c.rest.length < k →
    r c = (.found nodes, next) → S nodes
  failed : ∀ {c next : Cursor} {failure : Failure}, c.rest.length < k →
    r c = (.failed failure, next) → c.Blames failure

/-- The rule finds something or is absent, wherever it is tried. -/
def NeverFails (r : Rule) : Prop :=
  ∀ ⦃c next : Cursor⦄ ⦃failure : Failure⦄, r c ≠ (.failed failure, next)

/-- The rules one after another find nodes of the shape `S`, and their failures blame the text. -/
structure GiveInTurn (k : Nat) (rules : List Rule) (S : List Node → Prop) : Prop where
  moves : KeepInTurn Cursor.Moves rules
  found : ∀ {start c next : Cursor} {nodes : List Node}, c.rest.length < k →
    sequenceFrom start rules c = (.found nodes, next) → S nodes
  failed : ∀ {start c next : Cursor} {failure : Failure}, c.rest.length < k →
    sequenceFrom start rules c = (.failed failure, next) → c.Blames failure

/-- A rule that leaves fewer runes than there were. -/
def Consumes (r : Rule) : Prop :=
  ∀ ⦃c next : Cursor⦄ ⦃nodes : List Node⦄, r c = (.found nodes, next) →
    next.rest.length < c.rest.length

/-- Nodes of the shape `S` and behind them nodes of the shape `T`. -/
def Followed (S T : List Node → Prop) (nodes : List Node) : Prop :=
  ∃ first more, S first ∧ T more ∧ nodes = first ++ more

/-- Any number of groups of nodes, each of the shape `S`. -/
def Groups (S : List Node → Prop) (nodes : List Node) : Prop :=
  ∃ groups : List (List Node), (∀ group ∈ groups, S group) ∧ nodes = groups.flatten

variable {k l : Nat} {r : Rule} {rules : List Rule} {S T : List Node → Prop}
  {c next start : Cursor} {nodes : List Node} {failure : Failure}

theorem Gives.mono (h : Gives k r S) (hle : l ≤ k) : Gives l r S where
  moves := h.moves
  found hlt := h.found (Nat.lt_of_lt_of_le hlt hle)
  failed hlt := h.failed (Nat.lt_of_lt_of_le hlt hle)

theorem Gives.imp (h : Gives k r S) (himp : ∀ nodes, S nodes → T nodes) : Gives k r T where
  moves := h.moves
  found hlt hr := himp _ (h.found hlt hr)
  failed := h.failed

theorem length_rest_le (h : c.Moves nodes next) : next.rest.length ≤ c.rest.length := by
  obtain ⟨w, hw⟩ := h
  rw [hw.rest, List.length_append]
  exact Nat.le_add_left ..

/-! ### Failures of combined rules -/

theorem sequenceFrom_cons_failed_iff :
    sequenceFrom start (r :: rules) c = (.failed failure, next) ↔
      r c = (.failed failure, next) ∨
        ∃ first mid, r c = (.found first, mid) ∧
          sequenceFrom start rules mid = (.failed failure, next) := by
  grind [sequenceFrom]

theorem alternatives_cons_failed_iff :
    alternatives (r :: rules) c = (.failed failure, next) ↔
      r c = (.failed failure, next) ∨
        ∃ mid, r c = (.absent, mid) ∧ alternatives rules mid = (.failed failure, next) := by
  grind [alternatives]

theorem optional_failed_iff :
    optional r c = (.failed failure, next) ↔ r c = (.failed failure, next) := by
  grind [optional]

theorem required_failed_iff :
    required r c = (.failed failure, next) ↔
      r c = (.failed failure, next) ∨
        r c = (.absent, next) ∧ failure = .parse (.unexpectedAt next) := by
  grind [required]

theorem complete_failed_iff :
    complete r c = (.failed failure, next) ↔ r c = (.failed failure, next) := by
  grind [complete]

theorem repeatedIn_succ_failed_iff {fuel : Nat} :
    repeatedIn r (fuel + 1) c = (.failed failure, next) ↔
      r c = (.failed failure, next) ∨
        ∃ first mid, r c = (.found first, mid) ∧ mid.pos ≠ c.pos ∧
          repeatedIn r fuel mid = (.failed failure, next) := by
  grind [repeatedIn]

theorem built_failed_iff {result : Except Defect Node} :
    built result c = (.failed failure, next) ↔
      ∃ d, result = .error d ∧ failure = .defect d ∧ next = c := by
  cases result with
  | error d => simp [built, eq_comm]
  | ok n => simp [built]

theorem validated_failed_iff {acceptable : List Node → Bool}
    {build : List Node → Except Defect Node} :
    validated r acceptable build c = (.failed failure, next) ↔
      r c = (.failed failure, next) ∨
        ∃ children d, r c = (.found children, next) ∧ acceptable children = true ∧
          build children = .error d ∧ failure = .defect d := by
  rw [validated_eq_iff]
  simp only [built_failed_iff]
  grind

theorem transform_failed_iff {build : List Node → Except Defect Node} :
    transform r build c = (.failed failure, next) ↔
      r c = (.failed failure, next) ∨
        ∃ children d, r c = (.found children, next) ∧ build children = .error d ∧
          failure = .defect d := by
  simp [← validated_true, validated_failed_iff]

/-! ### What combinators give -/

theorem giveInTurn_nil : GiveInTurn k [] (· = []) where
  moves := compositional_moves.keepInTurn_nil
  found _ h := (sequenceFrom_nil_found_iff.1 h).1
  failed _ h := by cases h

/-- Rules in turn, of which the first leaves to the rest a text that they are good for. -/
theorem GiveInTurn.cons_of_leaves {m : Nat} (hr : Gives k r S) (hrules : GiveInTurn m rules T)
    (hleaves : ∀ {c mid : Cursor} {first : List Node}, c.rest.length < k →
      r c = (.found first, mid) → mid.rest.length < m) :
    GiveInTurn k (r :: rules) (Followed S T) where
  moves := compositional_moves.keepInTurn_cons hr.moves hrules.moves
  found := by
    intro start c next nodes hlt h
    obtain ⟨first, mid, more, hfirst, hmore, rfl⟩ := sequenceFrom_cons_found_iff.1 h
    exact ⟨first, more, hr.found hlt hfirst, hrules.found (hleaves hlt hfirst) hmore, rfl⟩
  failed := by
    intro start c next failure hlt h
    rcases sequenceFrom_cons_failed_iff.1 h with hfirst | ⟨first, mid, hfirst, hmore⟩
    · exact hr.failed hlt hfirst
    · obtain ⟨w, hw⟩ := hr.moves.found hfirst
      exact (hrules.failed (hleaves hlt hfirst) hmore).behind hw

/-- Rules in turn, of which the rest is as good as the first. -/
theorem GiveInTurn.cons (hr : Gives k r S) (hrules : GiveInTurn k rules T) :
    GiveInTurn k (r :: rules) (Followed S T) :=
  .cons_of_leaves hr hrules fun hlt hfirst =>
    Nat.lt_of_le_of_lt (length_rest_le (hr.moves.found hfirst)) hlt

/-- Rules in turn, of which the first consumes something and so leaves less to the rest. -/
theorem GiveInTurn.cons_consumes (hr : Gives (k + 1) r S) (hconsumes : Consumes r)
    (hrules : GiveInTurn k rules T) : GiveInTurn (k + 1) (r :: rules) (Followed S T) :=
  .cons_of_leaves hr hrules fun hlt hfirst =>
    Nat.lt_of_lt_of_le (hconsumes hfirst) (Nat.lt_succ_iff.1 hlt)

theorem GiveInTurn.sequence (h : GiveInTurn k rules S) : Gives k (sequence rules) S where
  moves := h.moves.sequence
  found hlt hr := h.found hlt hr
  failed hlt hr := h.failed hlt hr

theorem Gives.alternatives (h : rules.Forall fun r => Gives k r S) :
    Gives k (alternatives rules) S where
  moves := Keeps.alternatives (h.imp fun _ hr => hr.moves)
  found := by
    intro c next nodes hlt hfound
    obtain ⟨r, hr, hfirst⟩ := exists_mem_of_alternatives (h.imp fun _ hr => hr.moves) hfound nofun
    exact (List.forall_iff_forall_mem.1 h r hr).found hlt hfirst
  failed := by
    intro c next failure hlt hfailed
    obtain ⟨r, hr, hfirst⟩ := exists_mem_of_alternatives (h.imp fun _ hr => hr.moves) hfailed nofun
    exact (List.forall_iff_forall_mem.1 h r hr).failed hlt hfirst

theorem Gives.optional (h : Gives k r S) :
    Gives k (optional r) fun nodes => nodes = [] ∨ S nodes where
  moves := compositional_moves.optional h.moves
  found hlt hfound := by
    rcases optional_found_iff.1 hfound with hr | ⟨-, rfl⟩
    · exact .inr (h.found hlt hr)
    · exact .inl rfl
  failed hlt hfailed := h.failed hlt (optional_failed_iff.1 hfailed)

/-- A round that moves the cursor consumes a rune, so the rounds come to an end. -/
theorem Gives.repeatedIn (h : Gives k r S) {fuel : Nat} {c next : Cursor}
    (hlt : c.rest.length < k) (hfuel : c.rest.length < fuel) :
    (∀ nodes, repeatedIn r fuel c = (.found nodes, next) → Groups S nodes) ∧
      ∀ failure, repeatedIn r fuel c = (.failed failure, next) → c.Blames failure := by
  induction fuel generalizing c with
  | zero => exact absurd hfuel (Nat.not_lt_zero _)
  | succ fuel ih =>
    -- A round that moves on leaves less of the text than there is fuel for the rest.
    have hround {first : List Node} {mid : Cursor} (hfirst : r c = (.found first, mid))
        (hpos : mid.pos ≠ c.pos) : ∃ w, c.Passes w mid ∧ mid.rest.length < c.rest.length := by
      obtain ⟨w, hw⟩ := h.moves.found hfirst
      have hmid := hw.pos
      refine ⟨w, hw, ?_⟩
      rw [hw.rest, List.length_append]
      omega
    constructor
    · intro nodes hfound
      rcases repeatedIn_succ_found_iff.1 hfound with
        ⟨first, mid, more, hfirst, hpos, hmore, rfl⟩ | ⟨-, -, -, rfl⟩ | ⟨-, rfl⟩
      · obtain ⟨w, -, hless⟩ := hround hfirst hpos
        obtain ⟨groups, hgroups, rfl⟩ := (ih (by omega) (by omega)).1 more hmore
        exact ⟨first :: groups, List.forall_mem_cons.2 ⟨h.found hlt hfirst, hgroups⟩, rfl⟩
      · exact ⟨[], by simp, rfl⟩
      · exact ⟨[], by simp, rfl⟩
    · intro failure hfailed
      rcases repeatedIn_succ_failed_iff.1 hfailed with hfirst | ⟨first, mid, hfirst, hpos, hmore⟩
      · exact h.failed hlt hfirst
      · obtain ⟨w, hw, hless⟩ := hround hfirst hpos
        exact ((ih (by omega) (by omega)).2 failure hmore).behind hw

theorem Gives.repeated (h : Gives k r S) : Gives k (repeated r) (Groups S) where
  moves := compositional_moves.repeated h.moves
  found hlt hfound := (h.repeatedIn hlt (Nat.lt_succ_self _)).1 _ hfound
  failed hlt hfailed := (h.repeatedIn hlt (Nat.lt_succ_self _)).2 _ hfailed

theorem Gives.required (h : Gives k r S) : Gives k (required r) S where
  moves := h.moves.required
  found hlt hfound := h.found hlt (required_found_iff.1 hfound)
  failed := by
    intro c next failure hlt hfailed
    rcases required_failed_iff.1 hfailed with hr | ⟨habsent, rfl⟩
    · exact h.failed hlt hr
    · rw [h.moves.restores habsent]
      exact .here .unexpected

theorem Gives.complete (h : Gives k r S) : Gives k (complete r) S where
  moves := h.moves.complete
  found hlt hfound := h.found hlt (complete_found_iff.1 hfound).1
  failed hlt hfailed := h.failed hlt (complete_failed_iff.1 hfailed)

/-- A parent of nodes that are checked before its constructor is given them. -/
theorem Gives.validated {acceptable : List Node → Bool} {build : List Node → Except Defect Node}
    (h : Gives k r S)
    (hbuild : ∀ children, S children → acceptable children = true →
      ∃ n, build children = .ok n ∧ T [n]) :
    Gives k (validated r acceptable build) T where
  moves := h.moves.validated fun hmoves _ => hmoves
  found := by
    intro c next nodes hlt hfound
    obtain ⟨children, n, hr, hok, hn, rfl⟩ := validated_found_iff.1 hfound
    obtain ⟨m, hm, hT⟩ := hbuild children (h.found hlt hr) hok
    rw [hn, Except.ok.injEq] at hm
    exact hm ▸ hT
  failed := by
    intro c next failure hlt hfailed
    rcases validated_failed_iff.1 hfailed with hr | ⟨children, d, hr, hok, hd, -⟩
    · exact h.failed hlt hr
    · obtain ⟨m, hm, -⟩ := hbuild children (h.found hlt hr) hok
      rw [hd] at hm
      cases hm

/-- A parent of nodes that its constructor accepts. -/
theorem Gives.transform {build : List Node → Except Defect Node} (h : Gives k r S)
    (hbuild : ∀ children, S children → ∃ n, build children = .ok n ∧ T [n]) :
    Gives k (transform r build) T :=
  validated_true ▸ h.validated fun children hS _ => hbuild children hS

/-! ### Rules that never fail -/

/-- A combination of rules that fails only where one of them does. -/
theorem neverFails_of_forall {combine : List Rule → Rule} (hnil : NeverFails (combine []))
    (hcons : ∀ {r rules c next failure}, combine (r :: rules) c = (.failed failure, next) →
      r c = (.failed failure, next) ∨ ∃ mid, combine rules mid = (.failed failure, next))
    (h : rules.Forall NeverFails) : NeverFails (combine rules) := by
  induction rules with
  | nil => exact hnil
  | cons r rules ih =>
    obtain ⟨hr, hrules⟩ := (List.forall_cons ..).1 h
    intro c next failure hfailed
    rcases hcons hfailed with hfirst | ⟨_, hmore⟩
    · exact hr hfirst
    · exact ih hrules hmore

theorem neverFails_sequenceFrom (h : rules.Forall NeverFails) :
    NeverFails (sequenceFrom start rules) := by
  refine neverFails_of_forall (fun _ _ _ hfailed => by cases hfailed) (fun hfailed => ?_) h
  exact (sequenceFrom_cons_failed_iff.1 hfailed).imp_right fun ⟨_, mid, _, hmore⟩ => ⟨mid, hmore⟩

theorem neverFails_sequence (h : rules.Forall NeverFails) : NeverFails (sequence rules) :=
  fun _ _ _ hfailed => neverFails_sequenceFrom h hfailed

theorem neverFails_alternatives (h : rules.Forall NeverFails) :
    NeverFails (alternatives rules) := by
  refine neverFails_of_forall (fun _ _ _ hfailed => by cases hfailed) (fun hfailed => ?_) h
  exact (alternatives_cons_failed_iff.1 hfailed).imp_right fun ⟨mid, _, hmore⟩ => ⟨mid, hmore⟩

theorem NeverFails.optional (h : NeverFails r) : NeverFails (optional r) :=
  fun _ _ _ hfailed => h (optional_failed_iff.1 hfailed)

/-- A parent of nodes that are checked, and then accepted, does not fail. -/
theorem NeverFails.validated {acceptable : List Node → Bool}
    {build : List Node → Except Defect Node} (h : NeverFails r)
    (hgives : ∀ k, Gives k (validated r acceptable build) S) :
    NeverFails (validated r acceptable build) := by
  intro c next failure hfailed
  obtain ⟨_, _, e, -, -, rfl⟩ := (hgives (c.rest.length + 1)).failed (Nat.lt_succ_self _) hfailed
  rcases validated_failed_iff.1 hfailed with hr | ⟨_, _, -, -, -, heq⟩
  · exact h hr
  · cases heq

/-- A parent of nodes that its constructor accepts does not fail. -/
theorem NeverFails.transform {build : List Node → Except Defect Node} (h : NeverFails r)
    (hgives : ∀ k, Gives k (transform r build) S) : NeverFails (transform r build) := by
  rw [← validated_true] at hgives ⊢
  exact h.validated hgives

end Rule

end SheetFormula
