import Mathlib.Algebra.GroupWithZero.Nat
import Mathlib.Tactic.Choose
import SheetFormula.Proofs.Build

/-!
# Which components make a date or a time

A date or time is read leaf by leaf.  Each of its slots holds the last value that it was given, and
something by which a second value is noticed.  `SlotReader` states this once for both: it tells the
slots and what one leaf does to them, and `SlotReader.foldlM_iff` what a list of children does.

Whether a slot of a date is free is told from what it holds, for the year from the length of its
text.  So a leaf that stands for nothing (a year without digits, the weekday -1) leaves its slot
free.  Among leaves that do stand for something, `Node.date_and_time_given_once` says exactly which
lists of children make dates and times.
-/

namespace SheetFormula

section Slots

variable {ι : Type} [DecidableEq ι] {slotOf : Component → Option ι} {i j : ι} {child : Node}
  {children : List Node}

/-- The value and the text of a leaf that goes to slot `i`. -/
def Node.given? (slotOf : Component → Option ι) (i : ι) : Node → Option (Int × Text)
  | .leaf (.component c value) text => if slotOf c = some i then some (value, text) else none
  | _ => none

/-- The values and the texts of the leaves that go to slot `i`, in order. -/
def given (slotOf : Component → Option ι) (i : ι) (children : List Node) : List (Int × Text) :=
  children.filterMap (Node.given? slotOf i)

@[simp] theorem given_nil : given slotOf i [] = [] := rfl

theorem given_cons :
    given slotOf i (child :: children) =
      (child.given? slotOf i).toList ++ given slotOf i children := by
  rw [given, List.filterMap_cons]
  cases child.given? slotOf i <;> rfl

theorem Node.given?_component {c : Component} {value : Int} {text : Text}
    (h : slotOf c = some i) :
    Node.given? slotOf i (.leaf (.component c value) text) = some (value, text) :=
  if_pos h

theorem Node.given?_component_of_ne {c : Component} {value : Int} {text : Text}
    (h : slotOf c = some i) (hne : j ≠ i) :
    Node.given? slotOf j (.leaf (.component c value) text) = none :=
  if_neg fun hj => hne (Option.some.inj (hj.symm.trans h))

/-- A part of a date or time that some of the components give. -/
structure Slot (τ : Type) where
  /-- What the slot holds after a leaf with this value and text. -/
  hold : Int → Text → τ
  /-- Whether the slot takes a leaf, going by what it holds. -/
  IsFree : τ → Prop
  /-- The values that are in range. -/
  accepts : Int → Prop

/-- Whether a slot that holds the first comes to hold the last by further leaves. -/
def Slot.Runs {τ : Type} (s : Slot τ) : τ → List (Int × Text) → τ → Prop
  | old, [], new => new = old
  | old, (value, text) :: leaves, new =>
    s.IsFree old ∧ s.accepts value ∧ s.Runs (s.hold value text) leaves new

namespace Slot

variable {τ : Type} {s : Slot τ} {old new : τ} {vs ws : List (Int × Text)}

@[simp] theorem runs_nil : s.Runs old [] new ↔ new = old := Iff.rfl

@[simp] theorem runs_cons {v : Int × Text} :
    s.Runs old (v :: vs) new ↔ s.IsFree old ∧ s.accepts v.1 ∧ s.Runs (s.hold v.1 v.2) vs new :=
  Iff.rfl

theorem runs_append :
    s.Runs old (vs ++ ws) new ↔ ∃ mid, s.Runs old vs mid ∧ s.Runs mid ws new := by
  induction vs generalizing old with
  | nil => simp
  | cons v vs ih => simp [ih, and_assoc]

/-- A slot that is never free again takes one leaf at most. -/
theorem runs_iff_of_not_isFree (hold : s.IsFree old)
    (htaken : ∀ v ∈ vs, s.accepts v.1 → ¬ s.IsFree (s.hold v.1 v.2)) :
    s.Runs old vs new ↔
      vs = [] ∧ new = old ∨
        ∃ value text, vs = [(value, text)] ∧ s.accepts value ∧ new = s.hold value text := by
  match vs with
  | [] => simp
  | [(value, text)] =>
    simp only [runs_cons, runs_nil, List.cons_ne_nil, false_and, false_or, List.cons.injEq,
      Prod.mk.injEq, and_true]
    constructor
    · rintro ⟨-, haccepts, hnew⟩
      exact ⟨value, text, ⟨rfl, rfl⟩, haccepts, hnew⟩
    · rintro ⟨_, _, ⟨rfl, rfl⟩, haccepts, hnew⟩
      exact ⟨hold, haccepts, hnew⟩
  | v :: _ :: _ =>
    have hfirst := htaken v (List.mem_cons_self ..)
    simp only [runs_cons, List.cons_ne_nil, false_and, List.cons.injEq, and_false, exists_false,
      or_self, iff_false]
    rintro ⟨-, haccepts, hfree, -⟩
    exact hfirst haccepts hfree

end Slot

/-! ### Reading leaf by leaf -/

/-- How the state of a reader is made of slots. -/
structure SlotTable (σ τ ι : Type) where
  isNoise : Symbol → Bool
  slotOf : Component → Option ι
  slot : ι → Slot τ
  /-- What a slot holds. -/
  view : ι → σ → τ
  /-- Fills a slot. -/
  put : ι → σ → Int → Text → σ
  view_put {i : ι} {state : σ} {value : Int} {text : Text} :
    view i (put i state value text) = (slot i).hold value text
  view_put_of_ne {i j : ι} {state : σ} {value : Int} {text : Text} (hne : j ≠ i) :
    view j (put i state value text) = view j state

namespace SlotTable

variable {σ ε τ : Type} {t : SlotTable σ τ ι} {read : σ → Node → Except ε σ} {state state' : σ}
  {new : ι → τ}

/-- Blanks, noise, or a component that has a slot. -/
def IsPiece (t : SlotTable σ τ ι) : Node → Prop
  | .leaf .whitespace _ => True
  | .leaf (.symbol symbol) _ => t.isNoise symbol
  | .leaf (.component c _) _ => (t.slotOf c).isSome
  | _ => False

/-- Noise leaves the state as it is, and a component is put into its slot when that is free and the
value is in range. -/
def Step (t : SlotTable σ τ ι) (state : σ) (state' : σ) : Node → Prop
  | .leaf .whitespace _ => state' = state
  | .leaf (.symbol symbol) _ => t.isNoise symbol ∧ state' = state
  | .leaf (.component c value) text =>
    ∃ i, t.slotOf c = some i ∧ (t.slot i).IsFree (t.view i state) ∧ (t.slot i).accepts value ∧
      state' = t.put i state value text
  | _ => False

/-- A reader that goes by the table. -/
def IsReadBy (t : SlotTable σ τ ι) (read : σ → Node → Except ε σ) : Prop :=
  ∀ state child state', read state child = .ok state' ↔ t.Step state state' child

/-- A component fills its slot and leaves the others. -/
theorem step_component_iff {i : ι} {c : Component} {value : Int} {text : Text}
    (hi : t.slotOf c = some i) :
    (∃ state', t.Step state state' (.leaf (.component c value) text) ∧
        ∀ j, t.view j state' = new j) ↔
      ∀ j, (t.slot j).Runs (t.view j state)
        (Node.given? t.slotOf j (.leaf (.component c value) text)).toList (new j) := by
  -- A step is told by what it does to the views of the slots, one of which changes.
  constructor
  · rintro ⟨_, ⟨i', hi', hfree, haccepts, rfl⟩, hnew⟩ j
    obtain rfl : i = i' := Option.some.inj (hi.symm.trans hi')
    rw [← hnew]
    by_cases hj : j = i
    · subst hj
      rw [Node.given?_component hi, t.view_put]
      exact ⟨hfree, haccepts, rfl⟩
    · rw [Node.given?_component_of_ne hi hj, t.view_put_of_ne hj]
      rfl
  · intro hruns
    have hrun := hruns i
    rw [Node.given?_component hi] at hrun
    obtain ⟨hfree, haccepts, hnew⟩ := hrun
    refine ⟨_, ⟨i, hi, hfree, haccepts, rfl⟩, fun j => ?_⟩
    by_cases hj : j = i
    · subst hj
      exact t.view_put.trans hnew.symm
    · have hold := hruns j
      rw [Node.given?_component_of_ne hi hj] at hold
      exact (t.view_put_of_ne hj).trans hold.symm

/-- What one child does to the slots. -/
theorem step_iff :
    (∃ state', t.Step state state' child ∧ ∀ i, t.view i state' = new i) ↔
      t.IsPiece child ∧
        ∀ i, (t.slot i).Runs (t.view i state) (child.given? t.slotOf i).toList (new i) := by
  rcases child with ⟨content, text⟩ | ⟨form, children⟩
  · cases content with
    | whitespace => simp [Step, IsPiece, Node.given?, eq_comm]
    | symbol symbol =>
      simp only [Step, IsPiece, Node.given?, Option.toList_none, Slot.runs_nil, and_assoc,
        exists_and_left, exists_eq_left, eq_comm (b := t.view _ _)]
    | component c value =>
      cases hi : t.slotOf c with
      | none => simp [Step, IsPiece, hi]
      | some i => simpa [IsPiece, hi] using step_component_iff hi
    | _ => simp [Step, IsPiece]
  · simp [Step, IsPiece]

/-- What a list of children does to the slots: each goes its own way. -/
theorem foldlM_iff (hread : t.IsReadBy read) :
    (∃ state', children.foldlM read state = .ok state' ∧ ∀ i, t.view i state' = new i) ↔
      (∀ child ∈ children, t.IsPiece child) ∧
        ∀ i, (t.slot i).Runs (t.view i state) (given t.slotOf i children) (new i) := by
  induction children generalizing state with
  | nil => simp [pure, Except.pure, eq_comm]
  | cons child children ih =>
    simp only [List.foldlM_cons, bind_eq_ok_iff, given_cons, Slot.runs_append,
      List.forall_mem_cons, hread _ child]
    constructor
    · rintro ⟨state', ⟨mid, hstep, hfold⟩, hnew⟩
      obtain ⟨hpiece, hfirst⟩ := step_iff.1 ⟨mid, hstep, fun _ => rfl⟩
      obtain ⟨hpieces, hrest⟩ := ih.1 ⟨state', hfold, hnew⟩
      exact ⟨⟨hpiece, hpieces⟩, fun i => ⟨_, hfirst i, hrest i⟩⟩
    · rintro ⟨⟨hpiece, hpieces⟩, hruns⟩
      choose mids hfirst hrest using hruns
      obtain ⟨mid, hstep, hmid⟩ := step_iff.2 ⟨hpiece, hfirst⟩
      obtain rfl : (fun i => t.view i mid) = mids := funext hmid
      obtain ⟨state', hfold, hnew⟩ := ih.2 ⟨hpieces, hrest⟩
      exact ⟨state', ⟨mid, hstep, hfold⟩, hnew⟩

end SlotTable

end Slots

/-- A check passes what it does not refuse. -/
theorem ite_error_eq_ok_iff {ε α : Type} {p : Prop} [Decidable p] {e : ε} {x : Except ε α} {a : α} :
    (if p then .error e else x) = .ok a ↔ ¬ p ∧ x = .ok a := by
  split_ifs with h <;> simp [h]

/-! ### Dates -/

/-- The parts of a date. -/
inductive DateSlot
  | day
  | month
  | year
  | weekday
deriving DecidableEq

namespace DateSlot

/-- The part of a date that a component gives. -/
def of? : Component → Option DateSlot
  | .dayNumber => some day
  | .monthNumber | .monthName | .monthNameAbbreviation | .monthNameInitial => some month
  | .year => some year
  | .dayName | .dayNameAbbreviation => some weekday
  | _ => none

/-- The value of a part and the length of its text, which is kept for the year only. -/
def view (i : DateSlot) (parts : DateParts) : Int × Nat :=
  match i with
  | day => (parts.day, 0)
  | month => (parts.month, 0)
  | year => (parts.year, parts.yearDigits)
  | weekday => (parts.weekday, 0)

/-- Sets a part to the value of a leaf. -/
def put (i : DateSlot) (parts : DateParts) (value : Int) (text : Text) : DateParts :=
  match i with
  | day => { parts with day := value }
  | month => { parts with month := value }
  | year => { parts with year := value, yearDigits := text.size }
  | weekday => { parts with weekday := value }

/-- The slot of a part.  Only the year is told from being missing by more than its value, and the
weekday is not checked. -/
def slot : DateSlot → Slot (Int × Nat)
  | day => ⟨fun value _ => (value, 0), fun held => held.1 = 0, fun value => 1 ≤ value ∧ value ≤ 31⟩
  | month =>
    ⟨fun value _ => (value, 0), fun held => held.1 = 0, fun value => 1 ≤ value ∧ value ≤ 12⟩
  | year =>
    ⟨fun value text => (value, text.size), fun held => held.2 = 0,
      fun value => 0 ≤ value ∧ value ≤ 9999⟩
  | weekday => ⟨fun value _ => (value, 0), fun held => held.1 = -1, fun _ => True⟩

/-- The slots of a date. -/
def table : SlotTable DateParts (Int × Nat) DateSlot where
  isNoise symbol := symbol = .dateSeparator ∨ symbol = .comma
  slotOf := of?
  slot := slot
  view := view
  put := put
  view_put {i _ _ _} := by cases i <;> rfl
  view_put_of_ne {i j _ _ _} hne := by cases i <;> cases j <;> first | rfl | exact absurd rfl hne

theorem eq_of_view {parts parts' : DateParts} (h : ∀ i : DateSlot, i.view parts = i.view parts') :
    parts = parts' := by
  have hday := h day
  have hmonth := h month
  have hyear := h year
  have hweekday := h weekday
  cases parts
  cases parts'
  simp_all [view]

theorem isReadBy_table : table.IsReadBy DateParts.read := by
  intro parts child parts'
  rcases child with ⟨content, text⟩ | ⟨form, children⟩
  · cases content with
    | whitespace => simp [DateParts.read, SlotTable.Step, eq_comm]
    | symbol symbol => cases symbol <;> simp [DateParts.read, SlotTable.Step, table, eq_comm]
    | component c value =>
      cases c <;>
        simp only [DateParts.read, DateParts.readComponent, ite_error_eq_ok_iff, SlotTable.Step,
          table, of?, slot, view, put] <;>
        simp [and_assoc, eq_comm (b := parts')]
    | _ => simp [DateParts.read, SlotTable.Step]
  · simp [DateParts.read, SlotTable.Step]

end DateSlot

/-- No leaf gives the part, which is missing, or one leaf gives it, with a value in range. -/
def IsGiven (leaves : List (Int × Text)) (low high missing value : Int) : Prop :=
  leaves = [] ∧ value = missing ∨ (∃ text, leaves = [(value, text)]) ∧ low ≤ value ∧ value ≤ high

/-- What a slot of a date holds in the end, if what it accepts is in range and takes it. -/
theorem DateSlot.runs_iff_isGiven {i : DateSlot} {leaves : List (Int × Text)}
    {low high missing value : Int} {k : Nat} (len : Text → Nat)
    (hhold : ∀ v t, i.slot.hold v t = (v, len t)) (hfree : i.slot.IsFree (missing, 0))
    (hrange : ∀ leaf ∈ leaves, i.slot.accepts leaf.1 ↔ low ≤ leaf.1 ∧ leaf.1 ≤ high)
    (htaken : ∀ leaf ∈ leaves, low ≤ leaf.1 → ¬ i.slot.IsFree (leaf.1, len leaf.2)) :
    i.slot.Runs (missing, 0) leaves (value, k) ↔
      IsGiven leaves low high missing value ∧ k = (leaves.map (len ·.2)).sum := by
  rw [Slot.runs_iff_of_not_isFree hfree fun leaf hleaf haccepts => by
    rw [hhold]
    exact htaken leaf hleaf ((hrange leaf hleaf).1 haccepts).1]
  constructor
  · rintro (⟨rfl, h⟩ | ⟨v, text, rfl, haccepts, h⟩)
    · obtain ⟨rfl, rfl⟩ := Prod.mk.inj h
      exact ⟨.inl ⟨rfl, rfl⟩, rfl⟩
    · rw [hhold] at h
      obtain ⟨rfl, rfl⟩ := Prod.mk.inj h
      exact ⟨.inr ⟨⟨text, rfl⟩, (hrange _ (List.mem_singleton_self _)).1 haccepts⟩, by simp⟩
  · rintro ⟨⟨rfl, rfl⟩ | ⟨⟨text, rfl⟩, hin⟩, rfl⟩
    · exact .inl ⟨rfl, rfl⟩
    · exact .inr ⟨value, text, rfl, (hrange _ (List.mem_singleton_self _)).2 hin, by simp [hhold]⟩

/-- The parts of a date made of these children. -/
structure DateParts.IsOf (children : List Node) (parts : DateParts) : Prop where
  pieces : ∀ child ∈ children, DateSlot.table.IsPiece child
  day : IsGiven (given DateSlot.of? .day children) 1 31 0 parts.day
  month : IsGiven (given DateSlot.of? .month children) 1 12 0 parts.month
  year : IsGiven (given DateSlot.of? .year children) 0 9999 0 parts.year
  yearDigits : parts.yearDigits = ((given DateSlot.of? .year children).map (·.2.size)).sum
  weekday : IsGiven (given DateSlot.of? .weekday children) 0 6 (-1) parts.weekday
  fits : parts.month ≠ 0 → parts.day ≤ mostDays parts.month

variable {children : List Node} {parts : DateParts} {time : TimeOfDay}

/-- The four slots of a date, when years have digits and weekdays are those of a week. -/
theorem DateSlot.runs_iff
    (hyears : ∀ leaf ∈ given DateSlot.of? .year children, leaf.2 ≠ .empty)
    (hweekdays : ∀ leaf ∈ given DateSlot.of? .weekday children, 0 ≤ leaf.1 ∧ leaf.1 ≤ 6) :
    (∀ i : DateSlot, i.slot.Runs (i.view .none) (given of? i children) (i.view parts)) ↔
      IsGiven (given of? .day children) 1 31 0 parts.day ∧
        IsGiven (given of? .month children) 1 12 0 parts.month ∧
        (IsGiven (given of? .year children) 0 9999 0 parts.year ∧
          parts.yearDigits = ((given of? .year children).map (·.2.size)).sum) ∧
        IsGiven (given of? .weekday children) 0 6 (-1) parts.weekday := by
  have hall : (∀ i : DateSlot, i.slot.Runs (i.view .none) (given of? i children) (i.view parts)) ↔
      (slot day).Runs (0, 0) (given of? day children) (parts.day, 0) ∧
        (slot month).Runs (0, 0) (given of? month children) (parts.month, 0) ∧
        (slot year).Runs (0, 0) (given of? year children) (parts.year, parts.yearDigits) ∧
        (slot weekday).Runs (-1, 0) (given of? weekday children) (parts.weekday, 0) :=
    ⟨fun h => ⟨h day, h month, h year, h weekday⟩, fun ⟨hd, hm, hy, hw⟩ i => by
      cases i <;> assumption⟩
  -- Day and month have no text that counts; the year adds up digits, and the weekday starts at -1.
  rw [hall, runs_iff_isGiven (i := day) (fun _ => 0) (fun _ _ => rfl) rfl
      (fun _ _ => Iff.rfl) fun _ _ h => by simp only [slot]; omega,
    runs_iff_isGiven (i := month) (fun _ => 0) (fun _ _ => rfl) rfl
      (fun _ _ => Iff.rfl) fun _ _ h => by simp only [slot]; omega,
    runs_iff_isGiven (i := year) Text.size (fun _ _ => rfl) rfl
      (fun _ _ => Iff.rfl) fun leaf hleaf _ hsize => hyears leaf hleaf
        (congrArg Text.mk (List.length_eq_zero_iff.1 hsize)),
    runs_iff_isGiven (i := weekday) (fun _ => 0) (fun _ _ => rfl) rfl
      (fun leaf hleaf => by simpa [slot] using hweekdays leaf hleaf)
      fun _ _ h => by simp only [slot]; omega]
  simp [List.map_const']

/-- Reading the children of a date fills its slots. -/
theorem DateParts.foldlM_read_eq_ok_iff :
    children.foldlM DateParts.read .none = .ok parts ↔
      (∀ child ∈ children, DateSlot.table.IsPiece child) ∧
        ∀ i : DateSlot,
          i.slot.Runs (i.view .none) (given DateSlot.of? i children) (i.view parts) := by
  refine Iff.trans ?_ (DateSlot.table.foldlM_iff DateSlot.isReadBy_table)
  exact ⟨fun h => ⟨parts, h, fun _ => rfl⟩,
    fun ⟨_, h, hview⟩ => DateSlot.eq_of_view hview ▸ h⟩

theorem dateParts_eq_ok_iff
    (hyears : ∀ leaf ∈ given DateSlot.of? .year children, leaf.2 ≠ .empty)
    (hweekdays : ∀ leaf ∈ given DateSlot.of? .weekday children, 0 ≤ leaf.1 ∧ leaf.1 ≤ 6) :
    dateParts children = .ok parts ↔ parts.IsOf children := by
  have hsplit : dateParts children = .ok parts ↔
      children.foldlM DateParts.read .none = .ok parts ∧
        (parts.month ≠ 0 → parts.day ≤ mostDays parts.month) := by
    simp only [dateParts, bind_eq_ok_iff]
    constructor
    · rintro ⟨read, hread, h⟩
      split_ifs at h with hmost
      · cases h
      · obtain rfl : read = parts := Except.ok.inj h
        exact ⟨hread, fun hmonth => Int.not_lt.1 fun hlt => hmost ⟨hmonth, hlt⟩⟩
    · rintro ⟨hread, hfits⟩
      refine ⟨parts, hread, ?_⟩
      rw [if_neg fun h => Int.not_lt.2 (hfits h.1) h.2]
      rfl
  -- The leaves are read in one pass, and the day is held against the month after it.
  rw [hsplit, DateParts.foldlM_read_eq_ok_iff, DateSlot.runs_iff hyears hweekdays]
  exact ⟨fun ⟨⟨hpieces, hday, hmonth, ⟨hyear, hdigits⟩, hweekday⟩, hfits⟩ =>
      ⟨hpieces, hday, hmonth, hyear, hdigits, hweekday, hfits⟩,
    fun h => ⟨⟨h.pieces, h.day, h.month, ⟨h.year, h.yearDigits⟩, h.weekday⟩, h.fits⟩⟩

/-! ### Times -/

/-- The parts of a time. -/
inductive TimeSlot
  | hour
  | minute
  | second
  | nanosecond
  | meridiem
deriving DecidableEq

namespace TimeSlot

/-- The component that gives a part. -/
def component : TimeSlot → Component
  | hour => .hour
  | minute => .minute
  | second => .seconds
  | nanosecond => .fraction
  | meridiem => .meridiem

/-- The part of a time that a component gives. -/
def of? : Component → Option TimeSlot
  | .hour => some hour
  | .minute => some minute
  | .seconds => some second
  | .fraction => some nanosecond
  | .meridiem => some meridiem
  | _ => none

/-- The value of a part of a time and its meridiem, if it has one. -/
def value? (time : TimeOfDay) (meridiem? : Option Int) : TimeSlot → Option Int
  | hour => some time.hour
  | minute => some time.minute
  | second => some time.second
  | nanosecond => some time.nanosecond
  | meridiem => meridiem?

/-- The value of a part, and whether a component gave it. -/
def view (i : TimeSlot) (r : TimeReading) : Option Int × Bool :=
  (i.value? r.time r.meridiem?, r.seen.contains i.component)

/-- Sets a part to the value of a leaf. -/
def put (i : TimeSlot) (r : TimeReading) (value : Int) (_ : Text) : TimeReading :=
  let r := { r with seen := i.component :: r.seen }
  match i with
  | hour => { r with time.hour := value }
  | minute => { r with time.minute := value }
  | second => { r with time.second := value }
  | nanosecond => { r with time.nanosecond := value }
  | meridiem => { r with meridiem? := some value }

/-- The values that a part can have. -/
def InRange : TimeSlot → Int → Prop
  | hour, value => 0 ≤ value ∧ value ≤ 23
  | minute, value | second, value => 0 ≤ value ∧ value ≤ 59
  | nanosecond, value => 0 ≤ value ∧ value ≤ 999999999
  | meridiem, value => value = 0 ∨ value = 12

/-- The slot of a part. -/
def slot (i : TimeSlot) : Slot (Option Int × Bool) :=
  ⟨fun value _ => (some value, true), fun held => held.2 = false, i.InRange⟩

/-- The slots of a time. -/
def table : SlotTable TimeReading (Option Int × Bool) TimeSlot where
  isNoise symbol := symbol = .timeSeparator ∨ symbol = .decimalSeparator
  slotOf := of?
  slot := slot
  view := view
  put := put
  view_put {i _ _ _} := by cases i <;> simp [view, value?, put, slot]
  view_put_of_ne {i j _ _ _} hne := by
    cases i <;> cases j <;> first | exact absurd rfl hne | simp [view, value?, put, component]

theorem isReadBy_table : table.IsReadBy TimeReading.read := by
  intro r child r'
  rcases child with ⟨content, text⟩ | ⟨form, children⟩
  · cases content with
    | whitespace => simp [TimeReading.read, SlotTable.Step, eq_comm]
    | symbol symbol => cases symbol <;> simp [TimeReading.read, SlotTable.Step, table, eq_comm]
    | component c value =>
      cases c <;>
        simp only [TimeReading.read, TimeReading.readComponent, TimeReading.within,
          ite_error_eq_ok_iff, SlotTable.Step, table, of?, slot, view, put] <;>
        simp [and_assoc, eq_comm (b := r'), component, InRange, or_iff_not_imp_left]
    | _ => simp [TimeReading.read, SlotTable.Step]
  · simp [TimeReading.read, SlotTable.Step]

/-- What a part is before any leaf gives it. -/
def missing? : TimeSlot → Option Int
  | meridiem => none
  | _ => some 0

/-- No leaf gives the part, which is missing, or one leaf gives it, with a value in range. -/
def Holds (i : TimeSlot) (leaves : List (Int × Text)) (value? : Option Int) : Prop :=
  leaves = [] ∧ value? = i.missing? ∨
    ∃ value text, leaves = [(value, text)] ∧ i.InRange value ∧ value? = some value

/-- What a slot of a time holds in the end. -/
theorem runs_iff {i : TimeSlot} {leaves : List (Int × Text)} {value? : Option Int} {seen : Bool} :
    i.slot.Runs (i.view {}) leaves (value?, seen) ↔
      i.Holds leaves value? ∧ seen = !leaves.isEmpty := by
  have hview : i.view {} = (i.missing?, false) := by cases i <;> rfl
  have hruns : i.slot.Runs (i.missing?, false) leaves (value?, seen) ↔ _ :=
    Slot.runs_iff_of_not_isFree rfl fun _ _ _ => Bool.noConfusion
  rw [hview, hruns, Holds]
  constructor
  · rintro (⟨rfl, h⟩ | ⟨value, text, rfl, hin, h⟩)
    · obtain ⟨rfl, rfl⟩ := Prod.mk.inj h
      exact ⟨.inl ⟨rfl, rfl⟩, rfl⟩
    · obtain ⟨rfl, rfl⟩ := Prod.mk.inj h
      exact ⟨.inr ⟨value, text, rfl, hin, rfl⟩, rfl⟩
  · rintro ⟨⟨rfl, rfl⟩ | ⟨value, text, rfl, hin, rfl⟩, rfl⟩
    · exact .inl ⟨rfl, rfl⟩
    · exact .inr ⟨value, text, rfl, hin, rfl⟩

/-- A part that is zero when it is missing. -/
theorem holds_iff_isGiven {i : TimeSlot} {leaves : List (Int × Text)} {low high value : Int}
    (hmissing : i.missing? = some 0) (hrange : ∀ v, i.InRange v ↔ low ≤ v ∧ v ≤ high) :
    i.Holds leaves (some value) ↔ IsGiven leaves low high 0 value := by
  rw [Holds, IsGiven, hmissing]
  refine or_congr (and_congr_right fun _ => Option.some_inj) ?_
  constructor
  · rintro ⟨v, text, rfl, hin, h⟩
    obtain rfl := Option.some.inj h
    exact ⟨⟨text, rfl⟩, (hrange _).1 hin⟩
  · rintro ⟨⟨text, rfl⟩, hin⟩
    exact ⟨value, text, rfl, (hrange _).2 hin, rfl⟩

end TimeSlot

/-- The time that children give.  With a meridiem the hours are those of a clock face, on which 12
comes first. -/
structure TimeOfDay.IsOf (children : List Node) (time : TimeOfDay) : Prop where
  pieces : ∀ child ∈ children, TimeSlot.table.IsPiece child
  hour : ∃ hour text, given TimeSlot.of? .hour children = [(hour, text)] ∧ 0 ≤ hour ∧ hour ≤ 23 ∧
    (given TimeSlot.of? .meridiem children = [] ∧ time.hour = hour ∨
      ∃ add text, given TimeSlot.of? .meridiem children = [(add, text)] ∧ (add = 0 ∨ add = 12) ∧
        hour ≤ 12 ∧ time.hour = hour % 12 + add)
  minute : IsGiven (given TimeSlot.of? .minute children) 0 59 0 time.minute
  second : IsGiven (given TimeSlot.of? .second children) 0 59 0 time.second
  nanosecond : IsGiven (given TimeSlot.of? .nanosecond children) 0 999999999 0 time.nanosecond

/-- A time that a clock shows. -/
structure TimeOfDay.IsOnClock (time : TimeOfDay) : Prop where
  hour : 0 ≤ time.hour ∧ time.hour ≤ 23
  minute : 0 ≤ time.minute ∧ time.minute ≤ 59
  second : 0 ≤ time.second ∧ time.second ≤ 59
  nanosecond : 0 ≤ time.nanosecond ∧ time.nanosecond ≤ 999999999

theorem IsGiven.bounds {leaves : List (Int × Text)} {high value : Int} (hhigh : 0 ≤ high)
    (h : IsGiven leaves 0 high 0 value) : 0 ≤ value ∧ value ≤ high := by
  rcases h with ⟨-, rfl⟩ | ⟨-, hin⟩
  · exact ⟨Int.le_refl 0, hhigh⟩
  · exact hin

theorem TimeOfDay.IsOf.isOnClock (h : time.IsOf children) : time.IsOnClock where
  hour := by
    obtain ⟨hour, -, -, hlow, hhigh, ⟨-, hsame⟩ | ⟨add, -, -, hadd, hclock, hsum⟩⟩ := h.hour
    · omega
    · omega
  minute := h.minute.bounds (by decide)
  second := h.second.bounds (by decide)
  nanosecond := h.nanosecond.bounds (by decide)

theorem TimeReading.value_eq_ok_iff {r : TimeReading} :
    r.value = .ok time ↔
      r.seen.contains .hour = true ∧
        (r.meridiem? = none ∧ time = r.time ∨
          ∃ add, r.meridiem? = some add ∧ r.time.hour ≤ 12 ∧
            time = { r.time with
              hour := (if r.time.hour = 12 then 0 else r.time.hour) + add }) := by
  unfold TimeReading.value
  have hmissing {x : Except ComponentFault TimeOfDay} :
      (if !r.seen.contains .hour then .error .missingHour else x) = .ok time ↔
        r.seen.contains .hour = true ∧ x = .ok time := by
    rw [ite_error_eq_ok_iff, Bool.not_eq_true', Bool.not_eq_false]
  rw [hmissing]
  cases r.meridiem? with
  | none => simp [eq_comm (b := time)]
  | some add => simp [ite_error_eq_ok_iff, eq_comm (b := time)]

/-- What the parts of a time that was read are. -/
theorem TimeReading.of_foldlM_read {r : TimeReading}
    (h : children.foldlM TimeReading.read {} = .ok r) :
    (∀ child ∈ children, TimeSlot.table.IsPiece child) ∧
      ∀ i : TimeSlot, i.Holds (given TimeSlot.of? i children) (i.value? r.time r.meridiem?) ∧
        r.seen.contains i.component = !(given TimeSlot.of? i children).isEmpty := by
  obtain ⟨hpieces, hruns⟩ :=
    (TimeSlot.table.foldlM_iff TimeSlot.isReadBy_table).1 ⟨r, h, fun _ => rfl⟩
  exact ⟨hpieces, fun i => TimeSlot.runs_iff.1 (hruns i)⟩

/-- Children that give every part of a time at most once are read as that time. -/
theorem TimeReading.exists_foldlM_read {meridiem? : Option Int}
    (hpieces : ∀ child ∈ children, TimeSlot.table.IsPiece child)
    (hholds : ∀ i : TimeSlot, i.Holds (given TimeSlot.of? i children) (i.value? time meridiem?)) :
    ∃ r : TimeReading, children.foldlM TimeReading.read {} = .ok r ∧ r.time = time ∧
      r.meridiem? = meridiem? ∧
      r.seen.contains .hour = !(given TimeSlot.of? .hour children).isEmpty := by
  obtain ⟨r, hread, hview⟩ := (TimeSlot.table.foldlM_iff TimeSlot.isReadBy_table).2
    ⟨hpieces, fun i => TimeSlot.runs_iff.2 ⟨hholds i, rfl⟩⟩
  have hvalue (i : TimeSlot) : i.value? r.time r.meridiem? = i.value? time meridiem? :=
    congrArg Prod.fst (hview i)
  refine ⟨r, hread, ?_, hvalue .meridiem, congrArg Prod.snd (hview .hour)⟩
  have hhour := Option.some.inj (hvalue .hour)
  have hminute := Option.some.inj (hvalue .minute)
  have hsecond := Option.some.inj (hvalue .second)
  have hnanosecond := Option.some.inj (hvalue .nanosecond)
  cases hr : r.time
  cases time
  simp_all

theorem timeOfDay_eq_ok_iff : timeOfDay children = .ok time ↔ time.IsOf children := by
  rw [timeOfDay, bind_eq_ok_iff]
  constructor
  · rintro ⟨r, hread, hvalue⟩
    obtain ⟨hpieces, hparts⟩ := TimeReading.of_foldlM_read hread
    obtain ⟨hseen, hvalue⟩ := TimeReading.value_eq_ok_iff.1 hvalue
    have hminute := (TimeSlot.holds_iff_isGiven rfl fun _ => Iff.rfl).1 (hparts .minute).1
    have hsecond := (TimeSlot.holds_iff_isGiven rfl fun _ => Iff.rfl).1 (hparts .second).1
    have hnanosecond := (TimeSlot.holds_iff_isGiven rfl fun _ => Iff.rfl).1 (hparts .nanosecond).1
    obtain ⟨hhour, hhourSeen⟩ := hparts .hour
    -- Without an hour there is no value at all.
    rcases hhour with ⟨hnil, -⟩ | ⟨hour, text, hhour, hin, hsome⟩
    · rw [hnil] at hhourSeen
      cases hseen.symm.trans hhourSeen
    obtain rfl : r.time.hour = hour := Option.some.inj hsome
    rcases hvalue with ⟨hnone, rfl⟩ | ⟨add, hadd, hclock, rfl⟩
    · refine ⟨hpieces, ⟨r.time.hour, text, hhour, hin.1, hin.2, .inl ⟨?_, rfl⟩⟩, hminute, hsecond,
        hnanosecond⟩
      rcases (hparts .meridiem).1 with ⟨hnil, -⟩ | ⟨_, _, -, -, hsome⟩
      · exact hnil
      · cases hnone.symm.trans hsome
    · refine ⟨hpieces, ⟨r.time.hour, text, hhour, hin.1, hin.2, .inr ?_⟩, hminute, hsecond,
        hnanosecond⟩
      rcases (hparts .meridiem).1 with ⟨-, hnone⟩ | ⟨add', text', hleaf, hadd', hsome⟩
      · cases hadd.symm.trans hnone
      · obtain rfl : add = add' := Option.some.inj (hadd.symm.trans hsome)
        refine ⟨add, text', hleaf, hadd', hclock, ?_⟩
        have hin : 0 ≤ r.time.hour ∧ r.time.hour ≤ 23 := hin
        simp only
        split_ifs <;> omega
  · intro h
    obtain ⟨hour, text, hhour, hlow, hhigh, hmeridiem⟩ := h.hour
    -- The reading keeps the hour as written; the words for the halves of the day add to it at the
    -- end.
    have hholds (meridiem? : Option Int)
        (hmeridiem : TimeSlot.meridiem.Holds (given TimeSlot.of? .meridiem children) meridiem?)
        (i : TimeSlot) : i.Holds (given TimeSlot.of? i children)
          (i.value? { time with hour := hour } meridiem?) := by
      cases i
      · exact .inr ⟨hour, text, hhour, ⟨hlow, hhigh⟩, rfl⟩
      · exact (TimeSlot.holds_iff_isGiven rfl fun _ => Iff.rfl).2 h.minute
      · exact (TimeSlot.holds_iff_isGiven rfl fun _ => Iff.rfl).2 h.second
      · exact (TimeSlot.holds_iff_isGiven rfl fun _ => Iff.rfl).2 h.nanosecond
      · exact hmeridiem
    rcases hmeridiem with ⟨hnil, hsame⟩ | ⟨add, text', hleaf, hadd, hclock, hsum⟩
    · obtain ⟨r, hread, htime, hnone, hseen⟩ :=
        TimeReading.exists_foldlM_read h.pieces (hholds none (.inl ⟨hnil, rfl⟩))
      refine ⟨r, hread, TimeReading.value_eq_ok_iff.2 ⟨by rw [hseen, hhour]; rfl, .inl ⟨hnone, ?_⟩⟩⟩
      rw [htime, ← hsame]
    · obtain ⟨r, hread, htime, hsome, hseen⟩ :=
        TimeReading.exists_foldlM_read h.pieces
          (hholds (some add) (.inr ⟨add, text', hleaf, hadd, rfl⟩))
      refine ⟨r, hread, TimeReading.value_eq_ok_iff.2
        ⟨by rw [hseen, hhour]; rfl, .inr ⟨add, hsome, ?_, ?_⟩⟩⟩
      · rw [htime]
        exact hclock
      · have hour_eq : hour % 12 = if hour = 12 then 0 else hour := by
          split_ifs <;> omega
        rw [htime, ← hour_eq, ← hsum]

/-! ### Both -/

/-- What the constructors of dates and times accept, and what comes out. -/
theorem Node.date_and_time_given_once (children : List Node) (n : Node) :
    ((∀ leaf ∈ given DateSlot.of? .year children, leaf.2 ≠ .empty) →
      (∀ leaf ∈ given DateSlot.of? .weekday children, 0 ≤ leaf.1 ∧ leaf.1 ≤ 6) →
      (Node.date children = .ok n ↔
        children ≠ [] ∧ ∃ parts : DateParts,
          n = .parent (.date parts) children ∧ parts.IsOf children)) ∧
      (Node.time children = .ok n ↔
        children ≠ [] ∧ ∃ time : TimeOfDay,
          n = .parent (.time time) children ∧ time.IsOf children ∧ time.IsOnClock) := by
  refine ⟨fun hyears hweekdays => ?_, ?_⟩
  · rw [Node.date_eq_ok_iff]
    simp only [dateParts_eq_ok_iff hyears hweekdays, and_comm]
  · rw [Node.time_eq_ok_iff]
    simp only [timeOfDay_eq_ok_iff]
    refine and_congr_right fun _ => exists_congr fun time => ?_
    exact ⟨fun ⟨h, hn⟩ => ⟨hn, h, h.isOnClock⟩, fun ⟨hn, h, _⟩ => ⟨h, hn⟩⟩

/-- The leaves of `29/2/2020`. -/
def leapDay : List Node :=
  [.leaf (.component .dayNumber 29) "29", .leaf (.symbol .dateSeparator) "/",
    .leaf (.component .monthNumber 2) "2", .leaf (.symbol .dateSeparator) "/",
    .leaf (.component .year 2020) "2020"]

/-- The leaves of `12:30 AM`. -/
def afterMidnight : List Node :=
  [.leaf (.component .hour 12) "12", .leaf (.symbol .timeSeparator) ":",
    .leaf (.component .minute 30) "30", .leaf .whitespace " ",
    .leaf (.component .meridiem 0) "AM"]

theorem Node.date_and_time_given_once_leapDay :
    ((∀ leaf ∈ given DateSlot.of? .year leapDay, leaf.2 ≠ .empty) ∧
        (∀ leaf ∈ given DateSlot.of? .weekday leapDay, 0 ≤ leaf.1 ∧ leaf.1 ≤ 6) ∧
        (⟨29, 2, 2020, 4, -1⟩ : DateParts).IsOf leapDay) ∧
      (⟨0, 30, 0, 0⟩ : TimeOfDay).IsOf afterMidnight := by
  have hyears : ∀ leaf ∈ given DateSlot.of? .year leapDay, leaf.2 ≠ .empty := by decide
  have hweekdays : ∀ leaf ∈ given DateSlot.of? .weekday leapDay, 0 ≤ leaf.1 ∧ leaf.1 ≤ 6 := by
    decide
  refine ⟨⟨hyears, hweekdays, ?_⟩, ?_⟩
  · obtain ⟨-, parts, hn, hparts⟩ :=
      ((Node.date_and_time_given_once leapDay (.parent (.date ⟨29, 2, 2020, 4, -1⟩) leapDay)).1
        hyears hweekdays).1 rfl
    cases hn
    exact hparts
  · obtain ⟨-, time, hn, htime, -⟩ :=
      (Node.date_and_time_given_once afterMidnight
        (.parent (.time ⟨0, 30, 0, 0⟩) afterMidnight)).2.1 rfl
    cases hn
    exact htime

/-- A year without digits leaves room for a second one. -/
def twoYears : List Node :=
  [.leaf (.component .year 5) .empty, .leaf (.component .year 2020) "2020"]

/-- A day name that stands for no day of the week. -/
def ninthDay : List Node := [.leaf (.component .dayName 9) "Someday"]

/-- Dates with leaves that stand for nothing are accepted too. -/
theorem Node.date_of_empty_leaves :
    (Node.date twoYears = .ok (.parent (.date ⟨0, 0, 2020, 4, -1⟩) twoYears) ∧
        given DateSlot.of? .year twoYears = [(5, Text.empty), (2020, "2020")]) ∧
      Node.date ninthDay = .ok (.parent (.date ⟨0, 0, 0, 0, 9⟩) ninthDay) :=
  ⟨⟨rfl, rfl⟩, rfl⟩

end SheetFormula
