import Mathlib.Data.List.Basic
import Mathlib.Tactic.Common
import Mathlib.Tactic.SplitIfs
import Mathlib.Tactic.Tauto
import SheetFormula.Grammar.Rule

/-!
# When a combined rule finds something

For every combinator of rules, one lemma tells from what its parts found that the whole found its
nodes, and one when it is absent.  Proofs about a grammar go through these lemmas and do not open
the combinators.

A rule *keeps* a property of what it finds, `Rule.Keeps`, when the property holds of the nodes it
finds between two cursors and its absence leaves the cursor where it was.  If the property can be
put together from neighbours, `Rule.Compositional`, then all combinators keep it.
-/

namespace SheetFormula.Rule

variable {r s t : Rule} {rules : List Rule} {start c next : Cursor} {nodes : List Node}
  {build : List Node → Except Defect Node}

/-! ### Found -/

theorem sequenceFrom_nil_found_iff :
    sequenceFrom start [] c = (.found nodes, next) ↔ nodes = [] ∧ next = c := by
  grind [sequenceFrom]

theorem sequenceFrom_cons_found_iff :
    sequenceFrom start (r :: rules) c = (.found nodes, next) ↔
      ∃ first mid more, r c = (.found first, mid) ∧
        sequenceFrom start rules mid = (.found more, next) ∧ nodes = first ++ more := by
  grind [sequenceFrom]

theorem sequenceFrom_single_found_iff :
    sequenceFrom start [r] c = (.found nodes, next) ↔ r c = (.found nodes, next) := by
  grind [sequenceFrom]

theorem sequenceFrom_pair_found_iff :
    sequenceFrom start [r, s] c = (.found nodes, next) ↔
      ∃ first mid second, r c = (.found first, mid) ∧ s mid = (.found second, next) ∧
        nodes = first ++ second := by
  rw [sequenceFrom_cons_found_iff]
  simp only [sequenceFrom_single_found_iff]

theorem sequenceFrom_triple_found_iff :
    sequenceFrom start [r, s, t] c = (.found nodes, next) ↔
      ∃ first mid second mid' third, r c = (.found first, mid) ∧ s mid = (.found second, mid') ∧
        t mid' = (.found third, next) ∧ nodes = first ++ (second ++ third) := by
  rw [sequenceFrom_cons_found_iff]
  simp only [sequenceFrom_pair_found_iff]
  grind

theorem alternatives_cons_found_iff :
    alternatives (r :: rules) c = (.found nodes, next) ↔
      r c = (.found nodes, next) ∨
        ∃ mid, r c = (.absent, mid) ∧ alternatives rules mid = (.found nodes, next) := by
  grind [alternatives]

theorem optional_found_iff :
    optional r c = (.found nodes, next) ↔
      r c = (.found nodes, next) ∨ r c = (.absent, next) ∧ nodes = [] := by
  grind [optional]

theorem repeatedIn_succ_found_iff {fuel : Nat} :
    repeatedIn r (fuel + 1) c = (.found nodes, next) ↔
      (∃ first mid more, r c = (.found first, mid) ∧ mid.pos ≠ c.pos ∧
        repeatedIn r fuel mid = (.found more, next) ∧ nodes = first ++ more) ∨
      (∃ first, r c = (.found first, next) ∧ next.pos = c.pos ∧ nodes = []) ∨
      r c = (.absent, next) ∧ nodes = [] := by
  grind [repeatedIn]

theorem required_found_iff :
    required r c = (.found nodes, next) ↔ r c = (.found nodes, next) := by
  grind [required]

theorem complete_found_iff :
    complete r c = (.found nodes, next) ↔ r c = (.found nodes, next) ∧ next.atEnd = true := by
  grind [complete]

theorem built_found_iff {result : Except Defect Node} :
    built result c = (.found nodes, next) ↔ ∃ n, result = .ok n ∧ nodes = [n] ∧ next = c := by
  cases result with
  | error d => simp [built]
  | ok n => simp [built, eq_comm]

/-- A parent is the same rule as a checked parent whose check accepts everything, so what is proved
of the checked one holds of both. -/
theorem validated_true : validated r (fun _ => true) build = transform r build := by
  funext c
  rw [validated, transform]
  rcases r c with ⟨_ | _ | _, _⟩ <;> rfl

/-- What is not found is passed on, and what is found is built or turned down. -/
theorem validated_eq_iff {acceptable : List Node → Bool} {answer : Outcome × Cursor} :
    validated r acceptable build c = answer ↔
      (r c = answer ∧ ∀ children, answer.1 ≠ .found children) ∨
        ∃ children mid, r c = (.found children, mid) ∧
          (acceptable children = true ∧ built (build children) mid = answer ∨
            acceptable children = false ∧ (.absent, c) = answer) := by
  rw [validated]
  rcases r c with ⟨_ | children | _, mid⟩
  · simp only [Prod.mk.injEq, reduceCtorEq, false_and, exists_false, or_false]
    exact (and_iff_left_of_imp fun h => by rw [← h]; exact nofun).symm
  · cases hok : acceptable children <;> grind
  · simp only [Prod.mk.injEq, reduceCtorEq, false_and, exists_false, or_false]
    exact (and_iff_left_of_imp fun h => by rw [← h]; exact nofun).symm

theorem validated_found_iff {acceptable : List Node → Bool} :
    validated r acceptable build c = (.found nodes, next) ↔
      ∃ children n, r c = (.found children, next) ∧ acceptable children = true ∧
        build children = .ok n ∧ nodes = [n] := by
  rw [validated_eq_iff]
  simp only [built_found_iff]
  grind

theorem transform_found_iff :
    transform r build c = (.found nodes, next) ↔
      ∃ children n, r c = (.found children, next) ∧ build children = .ok n ∧ nodes = [n] := by
  simp [← validated_true, validated_found_iff]

theorem symbol_found_iff {s : Symbol} {word : List Char} :
    symbol s word c = (.found nodes, next) ↔
      Cursor.shows word c.rest = true ∧ next = c.advance word.length ∧
        nodes = [.leaf (.symbol s) (c.textTo next)] := by
  grind [Rule.symbol]

theorem whitespace_found_iff :
    whitespace c = (.found nodes, next) ↔
      next = c.skip isBlank ∧ next.pos ≠ c.pos ∧ nodes = [.leaf .whitespace (c.textTo next)] := by
  grind [whitespace]

/-! ### Absent -/

theorem alternatives_nil_absent_iff : alternatives [] c = (.absent, next) ↔ next = c := by
  grind [alternatives]

theorem alternatives_cons_absent_iff :
    alternatives (r :: rules) c = (.absent, next) ↔
      ∃ mid, r c = (.absent, mid) ∧ alternatives rules mid = (.absent, next) := by
  grind [alternatives]

theorem sequenceFrom_cons_absent_iff :
    sequenceFrom start (r :: rules) c = (.absent, next) ↔
      (∃ mid, r c = (.absent, mid) ∧ next = start) ∨
        ∃ first mid, r c = (.found first, mid) ∧
          sequenceFrom start rules mid = (.absent, next) := by
  grind [sequenceFrom]

theorem optional_ne_absent : optional r c ≠ (.absent, next) := by
  grind [optional]

theorem repeatedIn_ne_absent {fuel : Nat} : repeatedIn r fuel c ≠ (.absent, next) := by
  induction fuel generalizing c next with
  | zero => simp [repeatedIn]
  | succ fuel ih => grind [repeatedIn]

theorem required_ne_absent : required r c ≠ (.absent, next) := by
  grind [required]

theorem complete_absent_iff :
    complete r c = (.absent, next) ↔
      r c = (.absent, next) ∨
        ∃ found mid, r c = (.found found, mid) ∧ mid.atEnd = false ∧ next = c := by
  grind [complete]

theorem built_ne_absent {result : Except Defect Node} : built result c ≠ (.absent, next) := by
  cases result <;> simp [built]

theorem validated_absent_iff {acceptable : List Node → Bool} :
    validated r acceptable build c = (.absent, next) ↔
      r c = (.absent, next) ∨
        ∃ children mid, r c = (.found children, mid) ∧ acceptable children = false ∧ next = c := by
  rw [validated_eq_iff]
  simp only [built_ne_absent]
  grind

theorem transform_absent_iff :
    transform r build c = (.absent, next) ↔ r c = (.absent, next) := by
  simp [← validated_true, validated_absent_iff]

theorem transform_sequence_absent (h : transform (sequence rules) build c = (.absent, next)) :
    next = c :=
  sequenceFrom_absent (transform_absent_iff.1 h)

theorem symbol_absent_iff {s : Symbol} {word : List Char} :
    symbol s word c = (.absent, next) ↔ Cursor.shows word c.rest = false ∧ next = c := by
  grind [Rule.symbol]

theorem whitespace_absent_iff :
    whitespace c = (.absent, next) ↔ (c.skip isBlank).pos = c.pos ∧ next = c := by
  grind [whitespace]

/-! ### Kept properties -/

/-- A property of the nodes found between two cursors that neighbours add up to. -/
structure Compositional (P : Cursor → List Node → Cursor → Prop) : Prop where
  nil : ∀ c, P c [] c
  append : ∀ {c mid next : Cursor} {ns ms : List Node},
    P c ns mid → P mid ms next → P c (ns ++ ms) next
  /-- What is found without moving can be dropped. -/
  stall : ∀ {c next : Cursor} {ns : List Node}, P c ns next → next.pos = c.pos → P c [] next

/-- A rule that finds only nodes with the property `P`, and whose absence leaves the cursor where it
was. -/
structure Keeps (P : Cursor → List Node → Cursor → Prop) (r : Rule) : Prop where
  restores : ∀ {c next : Cursor}, r c = (.absent, next) → next = c
  found : ∀ {c next : Cursor} {nodes : List Node}, r c = (.found nodes, next) → P c nodes next

/-- The rules one after another find only nodes with the property `P`. -/
def KeepInTurn (P : Cursor → List Node → Cursor → Prop) (rules : List Rule) : Prop :=
  ∀ ⦃start c next : Cursor⦄ ⦃nodes : List Node⦄,
    sequenceFrom start rules c = (.found nodes, next) → P c nodes next

variable {P Q : Cursor → List Node → Cursor → Prop}

theorem Keeps.imp (h : Keeps P r)
    (himp : ∀ {c next : Cursor} {nodes : List Node}, P c nodes next → Q c nodes next) :
    Keeps Q r :=
  ⟨h.restores, fun hfound => himp (h.found hfound)⟩

theorem Compositional.keepInTurn_nil (hP : Compositional P) : KeepInTurn P [] := by
  intro start c next nodes h
  obtain ⟨rfl, rfl⟩ := sequenceFrom_nil_found_iff.1 h
  exact hP.nil next

theorem Compositional.keepInTurn_cons (hP : Compositional P) (hr : Keeps P r)
    (hrules : KeepInTurn P rules) : KeepInTurn P (r :: rules) := by
  intro start c next nodes h
  obtain ⟨first, mid, more, hfirst, hmore, rfl⟩ := sequenceFrom_cons_found_iff.1 h
  exact hP.append (hr.found hfirst) (hrules hmore)

theorem KeepInTurn.sequence (h : KeepInTurn P rules) : Keeps P (sequence rules) where
  restores := sequenceFrom_absent
  found hfound := h hfound

theorem Compositional.sequence (hP : Compositional P) (h : rules.Forall (Keeps P)) :
    Keeps P (sequence rules) := by
  refine KeepInTurn.sequence ?_
  induction rules with
  | nil => exact hP.keepInTurn_nil
  | cons r rules ih =>
    obtain ⟨hr, hrules⟩ := (List.forall_cons ..).1 h
    exact hP.keepInTurn_cons hr (ih hrules)

/-- Rules that are absent leave the cursor where it was, so what is found or fails among the
alternatives is the answer that one of them gives where they were asked. -/
theorem exists_mem_of_alternatives {outcome : Outcome} (h : rules.Forall (Keeps P))
    (halternatives : alternatives rules c = (outcome, next)) (hpresent : outcome ≠ .absent) :
    ∃ r ∈ rules, r c = (outcome, next) := by
  induction rules with
  | nil => exact absurd (congrArg Prod.fst halternatives).symm hpresent
  | cons r rules ih =>
    obtain ⟨hr, hrules⟩ := (List.forall_cons ..).1 h
    rcases hanswer : r c with ⟨_ | found | failure, mid⟩
    · rw [alternatives, hanswer, hr.restores hanswer] at halternatives
      obtain ⟨s, hs, hfirst⟩ := ih hrules halternatives
      exact ⟨s, List.mem_cons_of_mem r hs, hfirst⟩
    all_goals
      rw [alternatives, hanswer] at halternatives
      exact ⟨r, List.mem_cons_self, hanswer.trans halternatives⟩

theorem Keeps.alternatives (h : rules.Forall (Keeps P)) : Keeps P (alternatives rules) where
  restores := by
    intro c next habsent
    induction rules generalizing c with
    | nil => exact alternatives_nil_absent_iff.1 habsent
    | cons r rules ih =>
      obtain ⟨hr, hrules⟩ := (List.forall_cons ..).1 h
      obtain ⟨mid, hmid, hnext⟩ := alternatives_cons_absent_iff.1 habsent
      rw [ih hrules hnext, hr.restores hmid]
  found := by
    intro c next nodes hfound
    obtain ⟨r, hr, hfirst⟩ := exists_mem_of_alternatives h hfound nofun
    exact (List.forall_iff_forall_mem.1 h r hr).found hfirst

theorem Compositional.optional (hP : Compositional P) (h : Keeps P r) : Keeps P (optional r) where
  restores habsent := absurd habsent optional_ne_absent
  found := by
    intro c next nodes hfound
    rcases optional_found_iff.1 hfound with hr | ⟨hr, rfl⟩
    · exact h.found hr
    · rw [h.restores hr]
      exact hP.nil c

theorem Compositional.repeatedIn (hP : Compositional P) (h : Keeps P r) {fuel : Nat} :
    ∀ {c next : Cursor} {nodes : List Node}, repeatedIn r fuel c = (.found nodes, next) →
      P c nodes next := by
  induction fuel with
  | zero => nofun
  | succ fuel ih =>
    intro c next nodes hfound
    rcases repeatedIn_succ_found_iff.1 hfound with
      ⟨first, mid, more, hfirst, -, hmore, rfl⟩ | ⟨first, hfirst, hpos, rfl⟩ | ⟨hr, rfl⟩
    · exact hP.append (h.found hfirst) (ih hmore)
    · exact hP.stall (h.found hfirst) hpos
    · rw [h.restores hr]
      exact hP.nil c

theorem Compositional.repeated (hP : Compositional P) (h : Keeps P r) : Keeps P (repeated r) where
  restores habsent := absurd habsent repeatedIn_ne_absent
  found := hP.repeatedIn h

theorem Keeps.required (h : Keeps P r) : Keeps P (required r) where
  restores habsent := absurd habsent required_ne_absent
  found hfound := h.found (required_found_iff.1 hfound)

theorem Keeps.complete (h : Keeps P r) : Keeps P (complete r) where
  restores := by
    intro c next habsent
    rcases complete_absent_iff.1 habsent with hr | ⟨_, _, -, -, rfl⟩
    · exact h.restores hr
    · rfl
  found hfound := h.found (complete_found_iff.1 hfound).1

theorem Keeps.validated {acceptable : List Node → Bool} (h : Keeps P r)
    (hbuild : ∀ {c next : Cursor} {children : List Node} {n : Node},
      P c children next → build children = .ok n → Q c [n] next) :
    Keeps Q (validated r acceptable build) where
  restores := by
    intro c next habsent
    rcases validated_absent_iff.1 habsent with hr | ⟨_, _, -, -, rfl⟩
    · exact h.restores hr
    · rfl
  found := by
    intro c next nodes hfound
    obtain ⟨children, n, hr, -, hn, rfl⟩ := validated_found_iff.1 hfound
    exact hbuild (h.found hr) hn

theorem Keeps.transform (h : Keeps P r)
    (hbuild : ∀ {c next : Cursor} {children : List Node} {n : Node},
      P c children next → build children = .ok n → Q c [n] next) : Keeps Q (transform r build) :=
  validated_true ▸ h.validated hbuild

end SheetFormula.Rule
