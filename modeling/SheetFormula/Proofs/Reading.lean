import SheetFormula.Grammar.Parser
import SheetFormula.Proofs.Build
import SheetFormula.Proofs.Leaves
import SheetFormula.Proofs.Rules
import SheetFormula.Proofs.Runes

/-!
# Rules that read exactly what their nodes spell

A rule is *exact* when its absence leaves the cursor where it was and when the nodes it finds spell
the runes that it passed.  All combinators keep exactness.  The one exception is a symbol that is
NUL: it is also found at the end of a text, and then the cursor leaves the text.  Such a rule is
*loose*; it is harmless in front of a rule that needs text.

* `Cursor.Passes`: one cursor stands behind the runes at another;
* `Rule.Exact`, `Rule.Loose`, `Rule.NeedsText` and what the combinators make of them.
-/

namespace SheetFormula

/-! ### Runes between cursors -/

/-- `next` stands right behind the runes `w`, which stand at `c`. -/
structure Cursor.Passes (c : Cursor) (w : List Rune) (next : Cursor) : Prop where
  rest : c.rest = w ++ next.rest
  pos : next.pos = c.pos + w.length

namespace Cursor

variable {c mid next : Cursor} {v w : List Rune}

theorem Passes.refl (c : Cursor) : c.Passes [] c := ⟨rfl, rfl⟩

theorem Passes.trans (h : c.Passes v mid) (h' : mid.Passes w next) : c.Passes (v ++ w) next where
  rest := by rw [h.rest, h'.rest, List.append_assoc]
  pos := by rw [h'.pos, h.pos, List.length_append, Nat.add_assoc]

/-- On the way to the end nothing is left out. -/
theorem Passes.rest_of_end (h : c.Passes w next) (hend : next.rest = []) : c.rest = w := by
  rw [h.rest, hend, List.append_nil]

theorem Passes.textTo (h : c.Passes w next) : c.textTo next = .ofRunes w := by
  simp [Cursor.textTo, h.rest, h.pos]

theorem Passes.eq_of_pos (h : c.Passes w next) (hpos : next.pos = c.pos) : w = [] ∧ next = c := by
  have hw : w = [] := by
    rw [h.pos] at hpos
    exact List.length_eq_zero_iff.1 (by omega)
  subst hw
  obtain ⟨pos, rest⟩ := c
  obtain ⟨pos', rest'⟩ := next
  have hrest : rest = rest' := h.rest
  have hpos' : pos' = pos := hpos
  rw [hrest, hpos']
  exact ⟨rfl, rfl⟩

/-- A cursor moves on by a part of the runes in front of it. -/
theorem passes_advance (h : c.rest = w ++ v) : c.Passes w (c.advance w.length) where
  rest := by simp [advance, h]
  pos := rfl

theorem passes_skip (c : Cursor) (p : Char → Bool) : c.Passes (c.run p) (c.skip p) :=
  passes_advance List.takeWhile_append_dropWhile.symm

theorem next_cons {r : Rune} (h : c.rest = r :: v) : c.next = c.advance 1 := by
  simp [Cursor.next, atEnd, h]

theorem passes_next {r : Rune} (h : c.rest = r :: v) : c.Passes [r] c.next := by
  rw [next_cons h]
  exact passes_advance (v := v) h

/-- What shows at a cursor is a rune of the text, unless it is NUL. -/
theorem exists_rest_of_current {ch : Char} (h : c.current = ch) (hnul : ch ≠ nul) :
    ∃ r v, c.rest = r :: v ∧ r.value = ch := by
  unfold current at h
  split at h
  · exact ⟨_, _, ‹_›, h⟩
  · exact absurd h.symm hnul

theorem rest_ne_nil_of_current {ch : Char} (h : c.current = ch) (hnul : ch ≠ nul) :
    c.rest ≠ [] := by
  obtain ⟨r, v, hrest, -⟩ := exists_rest_of_current h hnul
  simp [hrest]

end Cursor

/-- Only the character itself counts as a character that no stray byte is taken for. -/
theorem Rune.eq_scalar_of_value {r : Rune} {ch : Char} (h : r.value = ch)
    (hne : ch ≠ replacement) : r = .scalar ch := by
  cases r with
  | scalar c => exact congrArg Rune.scalar h
  | stray b => exact absurd h.symm hne

/-! ### Exact rules -/

/-- Nodes that spell the runes between two cursors: every leaf has some runes as its text, and leaf
by leaf these are the runes that were passed. -/
def Cursor.Spells (c : Cursor) (nodes : List Node) (next : Cursor) : Prop :=
  ∃ ws : List (List Rune), c.Passes ws.flatten next ∧
    (Node.leavesOfAll nodes).map Prod.snd = ws.map .ofRunes

/-- A parent spells what its children spell. -/
theorem Cursor.Spells.parent {c next : Cursor} {b : Builder} {children : List Node} {n : Node}
    (h : c.Spells children next) (hn : b.buildFull children = .ok n) : c.Spells [n] next := by
  obtain ⟨ws, hws, htexts⟩ := h
  obtain ⟨form, rfl, -⟩ := Builder.eq_parent_of_buildFull hn
  exact ⟨ws, hws, by simpa using htexts⟩

/-- The text of what is spelled out. -/
theorem Cursor.Spells.text {c next : Cursor} {nodes : List Node} (h : c.Spells nodes next) :
    ∃ w, c.Passes w next ∧ Node.textOfAll nodes = .ofRunes w := by
  obtain ⟨ws, hws, htexts⟩ := h
  refine ⟨ws.flatten, hws, ?_⟩
  rw [Node.textOfAll_eq_join_leaves, htexts, Text.join_map_ofRunes]

namespace Rule

/-- Being spelled out is put together from neighbours. -/
theorem compositional_spells : Compositional Cursor.Spells where
  nil c := ⟨[], .refl c, rfl⟩
  append := by
    rintro c mid next ns ms ⟨vs, hvs, hns⟩ ⟨ws, hws, hms⟩
    refine ⟨vs ++ ws, ?_, by simp [hns, hms]⟩
    rw [List.flatten_append]
    exact hvs.trans hws
  stall := by
    rintro c next ns ⟨ws, hws, -⟩ hpos
    obtain ⟨-, rfl⟩ := hws.eq_of_pos hpos
    exact ⟨[], .refl next, rfl⟩

/-- A rule whose absence leaves the cursor where it was and whose nodes spell what it passed. -/
abbrev Exact (r : Rule) : Prop := Keeps Cursor.Spells r

/-- A rule that is exact unless it ends at the end of the text or behind it. -/
abbrev Loose (r : Rule) : Prop := Keeps (fun c nodes next => c.Spells nodes next ∨ next.rest = []) r

/-- A rule that finds nothing at the end of a text. -/
def NeedsText (r : Rule) : Prop :=
  ∀ ⦃c next : Cursor⦄ ⦃nodes : List Node⦄, r c = (.found nodes, next) → c.rest ≠ []

/-- The rules one after another find nothing at the end of a text. -/
def NeedTextInTurn (rules : List Rule) : Prop :=
  ∀ ⦃start : Cursor⦄, NeedsText (sequenceFrom start rules)

variable {r : Rule} {rules : List Rule} {build : List Node → Except Defect Node}

theorem Exact.loose (h : Exact r) : Loose r := ⟨h.restores, fun hr => .inl (h.found hr)⟩

/-- A loose rule is harmless in front of rules that need text. -/
theorem keepInTurn_cons_loose (hr : Loose r) (hrules : KeepInTurn Cursor.Spells rules)
    (hneeds : NeedTextInTurn rules) : KeepInTurn Cursor.Spells (r :: rules) := by
  intro start c next nodes h
  obtain ⟨first, mid, more, hfirst, hmore, rfl⟩ := sequenceFrom_cons_found_iff.1 h
  rcases hr.found hfirst with hspells | hend
  · exact compositional_spells.append hspells (hrules hmore)
  · exact absurd hend (hneeds hmore)

theorem NeedTextInTurn.cons (hr : NeedsText r) : NeedTextInTurn (r :: rules) := by
  intro start c next nodes h
  obtain ⟨first, mid, more, hfirst, -, -⟩ := sequenceFrom_cons_found_iff.1 h
  exact hr hfirst

/-- At the end of a text an exact rule stays there, so the next rule decides. -/
theorem NeedTextInTurn.cons_exact (hr : Exact r) (hrules : NeedTextInTurn rules) :
    NeedTextInTurn (r :: rules) := by
  intro start c next nodes h hend
  obtain ⟨first, mid, more, hfirst, hmore, -⟩ := sequenceFrom_cons_found_iff.1 h
  obtain ⟨ws, hws, -⟩ := hr.found hfirst
  have hrest := hws.rest
  rw [hend] at hrest
  exact hrules hmore (List.append_eq_nil_iff.1 hrest.symm).2

theorem NeedTextInTurn.sequence (h : NeedTextInTurn rules) : NeedsText (sequence rules) := by
  intro c next nodes hfound
  exact h hfound

theorem NeedsText.alternatives {P : Cursor → List Node → Cursor → Prop}
    (hkeeps : rules.Forall (Keeps P)) (h : rules.Forall NeedsText) :
    NeedsText (alternatives rules) := by
  intro c next nodes hfound
  obtain ⟨r, hr, hfirst⟩ := exists_mem_of_alternatives hkeeps hfound nofun
  exact List.forall_iff_forall_mem.1 h r hr hfirst

theorem NeedsText.required (h : NeedsText r) : NeedsText (required r) :=
  fun _ _ _ hfound => h (required_found_iff.1 hfound)

theorem NeedsText.transform (h : NeedsText r) : NeedsText (transform r build) := by
  intro c next nodes hfound
  obtain ⟨children, n, hr, -, -⟩ := transform_found_iff.1 hfound
  exact h hr

end Rule

end SheetFormula
