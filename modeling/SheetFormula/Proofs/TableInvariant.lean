import Mathlib.Algebra.Group.Nat.Defs
import Mathlib.Data.Set.Function
import SheetFormula.Formula.Table
import SheetFormula.Proofs.SetMaps

/-!
# What holds of every table

A table keeps seven maps in step.  `Table.Consistent` says how they belong together: the entries are
numbered below the next number, an entry is known by its key and by no other, the cells of an entry
are those that hold it and there are as many as are counted, and the labels of an entry are those
its formula refers to.  Putting formulas into cells and emptying cells keeps this, as long as
numbers are left for the entries that are new.

* `Table.Action`, `Table.run`: tables as they come about;
* `Table.Consistent`, kept by `Table.release`, `Table.share` and `Table.enter`, of which
  `Table.intern` is made;
* `Table.consistent_run`, and `Table.MapsAgree` for what it says of each map.
-/

namespace SheetFormula

namespace Table

@[simp] theorem dropCell_formulas (t : Table) (id : FormulaId) (cell : Cell) :
    (t.dropCell id cell).formulas = t.formulas := rfl

@[simp] theorem dropCell_labels (t : Table) (id : FormulaId) (cell : Cell) :
    (t.dropCell id cell).labels = t.labels := rfl

theorem dropCell_cells (t : Table) (id : FormulaId) (cell : Cell) :
    (t.dropCell id cell).cells = dropMember t.cells id cell := by
  rw [dropCell, dropMember]
  cases t.cells[id]? <;> rfl

theorem dropLabel_eq (id : FormulaId) (users : Std.HashMap Text (Std.HashSet FormulaId))
    (label : Text) : dropLabel id users label = dropMember users label id := by
  rw [dropLabel, dropMember]
  cases users[label]? <;> rfl

/-! ### Tables as they come about -/

/-- Something that is done to a table. -/
inductive Action
  | intern (formula : Formula) (cell : Cell)
  | release (cell : Cell)

/-- The table after an action. -/
def step (t : Table) : Action → Table
  | .intern f cell => (t.intern f cell).2
  | .release cell => (t.release cell).2

/-- The table after some actions, the first of them on an empty table. -/
def run (actions : List Action) : Table := actions.foldl step empty

/-- Whether an action makes a new entry. -/
def isFresh (t : Table) : Action → Bool
  | .intern f _ => t.ids[f.key]?.isNone
  | .release _ => false

/-- How many of the actions make a new entry. -/
def freshCount (t : Table) : List Action → Nat
  | [] => 0
  | a :: rest => (t.isFresh a).toNat + freshCount (t.step a) rest

theorem freshCount_append (t : Table) (before after : List Action) :
    t.freshCount (before ++ after) =
      t.freshCount before + (before.foldl step t).freshCount after := by
  induction before generalizing t with
  | nil => exact (Nat.zero_add _).symm
  | cons a before ih => rw [List.cons_append, freshCount, ih, freshCount, Nat.add_assoc]; rfl

/-! ### What the maps of a table have to do with each other -/

/-- How the maps of a table belong together. -/
structure Consistent (t : Table) : Prop where
  /-- Entries are numbered from 1 up to the next number. -/
  numbered {id : FormulaId} {f : Formula} : t.formulas[id]? = some f → id ≠ 0 ∧ id < t.nextId
  /-- An entry is found by its key and by nothing else. -/
  keyed {k : Text} {id : FormulaId} :
    t.ids[k]? = some id ↔ ∃ f : Formula, t.formulas[id]? = some f ∧ f.key = k
  /-- An entry is there as long as a cell holds it. -/
  held {id : FormulaId} : t.formulas[id]?.isSome = true ↔ ∃ cell, InSet t.cells id cell
  /-- The count of an entry is the number of its cells. -/
  counted (id : FormulaId) :
    t.holders[id]? = t.cells[id]?.map fun cells : Std.HashSet Cell => (cells.size : Int)
  placed {cell : Cell} {id : FormulaId} : t.idAt[cell]? = some id ↔ InSet t.cells id cell
  labelled {id : FormulaId} {label : Text} :
    InSet t.labels id label ↔ ∃ f : Formula, t.formulas[id]? = some f ∧ label ∈ f.labels
  used {id : FormulaId} {label : Text} : InSet t.users label id ↔ InSet t.labels id label
  cells_nonempty : NoEmptySet t.cells
  labels_nonempty : NoEmptySet t.labels
  users_nonempty : NoEmptySet t.users
  nextId_ne_zero : t.nextId ≠ 0

theorem consistent_empty : Consistent empty where
  numbered h := by simp [empty] at h
  keyed := by simp [empty]
  held := by simp [empty, InSet]
  counted := by simp [empty]
  placed := by simp [empty, InSet]
  labelled := by simp [empty, InSet]
  used := by simp [empty, InSet]
  cells_nonempty _ _ h := by simp [empty] at h
  labels_nonempty _ _ h := by simp [empty] at h
  users_nonempty _ _ h := by simp [empty] at h
  nextId_ne_zero := by decide

section Entries

variable {t : Table} {id : FormulaId} {cell : Cell}

/-- A cell that holds something holds an entry that is there. -/
theorem Consistent.exists_formula (h : Consistent t) (hid : t.idAt[cell]? = some id) :
    ∃ f, t.formulas[id]? = some f :=
  Option.isSome_iff_exists.1 (h.held.2 ⟨cell, h.placed.1 hid⟩)

/-- Two entries with one key are one entry. -/
theorem Consistent.eq_of_key (h : Consistent t) {i j : FormulaId} {f g : Formula}
    (hi : t.formulas[i]? = some f) (hj : t.formulas[j]? = some g) (hkey : f.key = g.key) : i = j :=
  Option.some.inj ((h.keyed.2 ⟨f, hi, rfl⟩).symm.trans (h.keyed.2 ⟨g, hj, hkey.symm⟩))

/-! ### Emptying a cell -/

theorem release_of_none (h : t.idAt[cell]? = none) : t.release cell = (false, t) := by
  simp only [release, h]

theorem size_ne_zero_of_mem {s : Std.HashSet Cell} (h : cell ∈ s) : s.size ≠ 0 := by
  intro hzero
  exact Std.HashSet.isEmpty_iff_forall_not_mem.1
    (by rw [Std.HashSet.isEmpty_eq_size_eq_zero, hzero]; rfl) cell h

/-- The count left after a cell is dropped is that of the other cells. -/
theorem Consistent.holders_dropCell (h : Consistent t) {s : Std.HashSet Cell}
    (hs : t.cells[id]? = some s) (hcell : cell ∈ s) :
    (t.dropCell id cell).holders[id]? = some ((s.erase cell).size : Int) := by
  have hcount : t.holders.getD id 0 = (s.size : Int) := by
    rw [Std.HashMap.getD_eq_getD_getElem?, h.counted, hs]
    rfl
  have hpos := size_ne_zero_of_mem hcell
  rw [dropCell, Std.HashMap.getElem?_insert_self, hcount, Std.HashSet.size_erase, if_pos hcell]
  congr 1
  omega

/-- The cells of an entry, found as a set. -/
theorem Consistent.exists_cells (h : Consistent t) (hid : t.idAt[cell]? = some id) :
    ∃ s : Std.HashSet Cell, t.cells[id]? = some s ∧ cell ∈ s ∧
      ∀ other, other ∈ s ↔ InSet t.cells id other := by
  obtain ⟨s, hs⟩ :=
    Option.isSome_iff_exists.1 (h.cells_nonempty.isSome_iff.2 ⟨cell, h.placed.1 hid⟩)
  have hmem : ∀ other, other ∈ s ↔ InSet t.cells id other := by
    intro other
    rw [InSet, Std.HashMap.getD_eq_getD_getElem?, hs, Option.getD_some]
  exact ⟨s, hs, (hmem cell).2 (h.placed.1 hid), hmem⟩

/-- An entry that another cell holds as well stays. -/
theorem Consistent.release_shared (h : Consistent t) (hid : t.idAt[cell]? = some id)
    {other : Cell} (hne : other ≠ cell) (hother : InSet t.cells id other) :
    t.release cell = (false, t.dropCell id cell) := by
  obtain ⟨s, hs, hcell, hmem⟩ := h.exists_cells hid
  have hrest : (s.erase cell).size ≠ 0 := size_ne_zero_of_mem
    (Std.HashSet.mem_erase.2 ⟨by simpa using Ne.symm hne, (hmem other).2 hother⟩)
  have hpos : 0 < (t.dropCell id cell).holders.getD id 0 := by
    rw [Std.HashMap.getD_eq_getD_getElem?, h.holders_dropCell hs hcell, Option.getD_some]
    omega
  simp only [release, hid, if_pos hpos]

/-- An entry that no other cell holds goes. -/
theorem Consistent.release_last (h : Consistent t) (hid : t.idAt[cell]? = some id)
    (hlast : ∀ other, InSet t.cells id other → other = cell) :
    t.release cell = (true, (t.dropCell id cell).remove id) := by
  obtain ⟨s, hs, hcell, hmem⟩ := h.exists_cells hid
  have hempty : (s.erase cell).isEmpty = true := by
    refine Std.HashSet.isEmpty_iff_forall_not_mem.2 fun other hother => ?_
    obtain ⟨hne, hin⟩ := Std.HashSet.mem_erase.1 hother
    rw [hlast other ((hmem other).1 hin), beq_self_eq_true] at hne
    cases hne
  have hzero : ¬ 0 < (t.dropCell id cell).holders.getD id 0 := by
    rw [Std.HashSet.isEmpty_eq_size_eq_zero, beq_iff_eq] at hempty
    rw [Std.HashMap.getD_eq_getD_getElem?, h.holders_dropCell hs hcell, Option.getD_some, hempty]
    decide
  simp only [release, hid, if_neg hzero]

/-- After a cell is dropped, the cells of all entries are those from before but it. -/
theorem Consistent.inSet_dropCell (h : Consistent t) (hid : t.idAt[cell]? = some id)
    {x : FormulaId} {d : Cell} :
    InSet (t.dropCell id cell).cells x d ↔ InSet t.cells x d ∧ d ≠ cell := by
  rw [dropCell_cells, inSet_dropMember]
  refine and_congr_right fun hx => not_congr ⟨And.right, fun hd => ?_⟩
  subst hd
  exact ⟨Option.some.inj ((h.placed.2 hx).symm.trans hid), rfl⟩

theorem Consistent.dropCell (h : Consistent t) (hid : t.idAt[cell]? = some id)
    {other : Cell} (hne : other ≠ cell) (hother : InSet t.cells id other) :
    Consistent (t.dropCell id cell) where
  numbered := h.numbered
  keyed := h.keyed
  held {x} := by
    refine h.held.trans ⟨?_, ?_⟩
    · rintro ⟨d, hd⟩
      by_cases hdc : d = cell
      · -- the entry of the cell itself: another cell holds it
        subst hdc
        have hx : x = id := Option.some.inj ((h.placed.2 hd).symm.trans hid)
        exact ⟨other, (h.inSet_dropCell hid).2 ⟨hx ▸ hother, hne⟩⟩
      · exact ⟨d, (h.inSet_dropCell hid).2 ⟨hd, hdc⟩⟩
    · rintro ⟨d, hd⟩
      exact ⟨d, ((h.inSet_dropCell hid).1 hd).1⟩
  counted x := by
    obtain ⟨s, hs, hcell, hmem⟩ := h.exists_cells hid
    by_cases hx : x = id
    · subst hx
      have hrest : ¬ (s.erase cell).isEmpty = true := by
        intro hempty
        exact Std.HashSet.isEmpty_iff_forall_not_mem.1 hempty other
          (Std.HashSet.mem_erase.2 ⟨by simpa using Ne.symm hne, (hmem other).2 hother⟩)
      rw [h.holders_dropCell hs hcell, dropCell_cells, getElem?_dropMember_self hs hrest]
      rfl
    · rw [dropCell_cells, getElem?_dropMember_of_ne hx, ← h.counted]
      exact (Std.HashMap.getElem?_insert ..).trans (if_neg (by simpa using Ne.symm hx))
  placed {d x} := by
    rw [h.inSet_dropCell hid, ← h.placed, Table.dropCell, Std.HashMap.getElem?_erase]
    by_cases hd : cell = d
    · simp [hd]
    · simp [hd, Ne.symm hd]
  labelled := h.labelled
  used := h.used
  cells_nonempty := by
    rw [dropCell_cells]
    exact h.cells_nonempty.dropMember id cell
  labels_nonempty := h.labels_nonempty
  users_nonempty := h.users_nonempty
  nextId_ne_zero := h.nextId_ne_zero

/-- The labels of an entry that goes have it no longer among their users. -/
theorem inSet_dropLabels {users : Std.HashMap Text (Std.HashSet FormulaId)} {gone : List Text}
    {label : Text} {x : FormulaId} :
    InSet (gone.foldl (dropLabel id) users) label x ↔
      InSet users label x ∧ ¬ (x = id ∧ label ∈ gone) := by
  induction gone generalizing users with
  | nil => simp
  | cons l gone ih =>
    rw [List.foldl_cons, ih, dropLabel_eq, inSet_dropMember, and_assoc, List.mem_cons, and_or_left,
      not_or, and_comm (a := label = l)]

theorem NoEmptySet.dropLabels {users : Std.HashMap Text (Std.HashSet FormulaId)}
    (h : NoEmptySet users) (gone : List Text) : NoEmptySet (gone.foldl (dropLabel id) users) := by
  induction gone generalizing users with
  | nil => exact h
  | cons l gone ih => exact ih (by rw [dropLabel_eq]; exact h.dropMember l id)

theorem formulas_remove {x : FormulaId} :
    (t.remove id).formulas[x]? = if id = x then none else t.formulas[x]? := by
  simp [remove, Std.HashMap.getElem?_erase]

theorem ids_remove {f : Formula} (hf : t.formulas[id]? = some f) :
    (t.remove id).ids = t.ids.erase f.key := by
  simp only [remove, hf]

theorem inSet_cells_dropCell_remove {x : FormulaId} {d : Cell} :
    InSet ((t.dropCell id cell).remove id).cells x d ↔ x ≠ id ∧ InSet t.cells x d := by
  refine inSet_erase.trans (and_congr_right fun hx => ?_)
  rw [dropCell_cells, inSet_dropMember]
  exact and_iff_left fun hxd => hx hxd.1

/-- Keys lead to the entries that are left, for no other entry has the key of the one that goes. -/
theorem Consistent.keyed_remove (h : Consistent t) (hid : t.idAt[cell]? = some id) {k : Text}
    {x : FormulaId} :
    ((t.dropCell id cell).remove id).ids[k]? = some x ↔
      ∃ f, ((t.dropCell id cell).remove id).formulas[x]? = some f ∧ f.key = k := by
  obtain ⟨f, hf⟩ := h.exists_formula hid
  rw [ids_remove (t := t.dropCell id cell) hf, Std.HashMap.getElem?_erase, formulas_remove]
  by_cases hk : f.key = k
  · subst hk
    simp only [beq_self_eq_true, if_true, reduceCtorEq, false_iff]
    rintro ⟨g, hg, hkey⟩
    split_ifs at hg with hx
    exact hx (h.eq_of_key hf hg hkey.symm)
  · rw [if_neg (by simpa using hk)]
    refine h.keyed.trans (exists_congr fun g => and_congr_left fun hkey => ?_)
    by_cases hx : id = x
    · subst hx
      rw [hf, if_pos rfl]
      simp only [Option.some.injEq, reduceCtorEq, iff_false]
      rintro rfl
      exact hk hkey
    · rw [if_neg hx]
      rfl

theorem Consistent.removeLast (h : Consistent t) (hid : t.idAt[cell]? = some id)
    (hlast : ∀ other, InSet t.cells id other → other = cell) :
    Consistent ((t.dropCell id cell).remove id) where
  numbered {x g} hg := by
    rw [formulas_remove] at hg
    split_ifs at hg
    exact h.numbered hg
  keyed := h.keyed_remove hid
  held {x} := by
    simp only [inSet_cells_dropCell_remove, formulas_remove]
    by_cases hx : id = x
    · simp [hx]
    · simpa [hx, Ne.symm hx] using h.held
  counted x := by
    simp only [remove, Std.HashMap.getElem?_erase]
    by_cases hx : id = x
    · simp [hx]
    · rw [if_neg (by simpa using hx), if_neg (by simpa using hx), dropCell_cells,
        getElem?_dropMember_of_ne (Ne.symm hx), ← h.counted, Table.dropCell,
        Std.HashMap.getElem?_insert, if_neg (by simpa using hx)]
  placed {d x} := by
    rw [inSet_cells_dropCell_remove, ← h.placed]
    show (t.idAt.erase cell)[d]? = some x ↔ _
    rw [Std.HashMap.getElem?_erase]
    by_cases hd : cell = d
    · subst hd
      simp only [beq_self_eq_true, if_true, reduceCtorEq, false_iff, hid, Option.some.injEq]
      exact fun hx => hx.1 hx.2.symm
    · rw [if_neg (by simpa using hd)]
      -- No other cell holds the entry that goes.
      refine (and_iff_right_of_imp ?_).symm
      rintro hx rfl
      exact hd (hlast d (h.placed.1 hx)).symm
  labelled {x l} := by
    refine inSet_erase.trans ?_
    rw [formulas_remove]
    by_cases hx : id = x
    · simp [hx]
    · simpa [hx, Ne.symm hx] using h.labelled
  used {x l} := by
    refine inSet_dropLabels.trans (Iff.trans ?_ inSet_erase.symm)
    rw [Std.HashSet.mem_toList]
    show InSet t.users l x ∧ ¬ (x = id ∧ InSet t.labels id l) ↔ x ≠ id ∧ InSet t.labels x l
    rw [h.used]
    by_cases hx : x = id
    · simp [hx]
    · simp [hx]
  cells_nonempty := by
    refine NoEmptySet.erase ?_ id
    rw [dropCell_cells]
    exact h.cells_nonempty.dropMember id cell
  labels_nonempty := h.labels_nonempty.erase id
  users_nonempty := NoEmptySet.dropLabels h.users_nonempty _
  nextId_ne_zero := h.nextId_ne_zero

/-- Whether another cell holds what a cell holds decides what emptying the cell does. -/
theorem Consistent.release_cases (h : Consistent t) (hid : t.idAt[cell]? = some id) :
    (t.release cell = (true, (t.dropCell id cell).remove id) ∧
        (∀ other, t.idAt[other]? = some id → other = cell) ∧
        Consistent ((t.dropCell id cell).remove id)) ∨
      (t.release cell = (false, t.dropCell id cell) ∧
        (∃ other, t.idAt[other]? = some id ∧ other ≠ cell) ∧ Consistent (t.dropCell id cell)) := by
  by_cases hlast : ∀ other, t.idAt[other]? = some id → other = cell
  · have hcells : ∀ other, InSet t.cells id other → other = cell :=
      fun other hother => hlast other (h.placed.2 hother)
    exact .inl ⟨h.release_last hid hcells, hlast, h.removeLast hid hcells⟩
  · simp only [not_forall, exists_prop] at hlast
    obtain ⟨other, hother, hne⟩ := hlast
    exact .inr ⟨h.release_shared hid hne (h.placed.1 hother), ⟨other, hother, hne⟩,
      h.dropCell hid hne (h.placed.1 hother)⟩

theorem Consistent.release (h : Consistent t) (cell : Cell) : Consistent (t.release cell).2 := by
  cases hid : t.idAt[cell]? with
  | none => rwa [release_of_none hid]
  | some id =>
    obtain ⟨heq, -, hnew⟩ | ⟨heq, -, hnew⟩ := h.release_cases hid
    all_goals rwa [heq]

theorem release_nextId : (t.release cell).2.nextId = t.nextId := by
  unfold Table.release
  split
  · rfl
  · dsimp only
    split_ifs <;> rfl

theorem release_idAt {d : Cell} :
    (t.release cell).2.idAt[d]? = if cell = d then none else t.idAt[d]? := by
  have herase : (t.idAt.erase cell)[d]? = if cell = d then none else t.idAt[d]? := by
    rw [Std.HashMap.getElem?_erase]
    simp only [beq_iff_eq]
  unfold Table.release
  split
  next hnone =>
    split_ifs with hd
    · exact hd ▸ hnone
    · rfl
  next id hid =>
    refine Eq.trans ?_ herase
    dsimp only
    split_ifs <;> rfl

/-- Emptying a cell leaves all entries, but the one of the cell if it held it alone. -/
theorem Consistent.release_formulas (h : Consistent t) {x : FormulaId} :
    (t.release cell).2.formulas[x]? =
      if (t.release cell).1 = true ∧ t.idAt[cell]? = some x then none else t.formulas[x]? := by
  cases hid : t.idAt[cell]? with
  | none => simp [release_of_none hid]
  | some id =>
    obtain ⟨heq, -, -⟩ | ⟨heq, -, -⟩ := h.release_cases hid
    · rw [heq, formulas_remove]
      simp
    · rw [heq]
      simp

/-- Emptying a cell tells that an entry is gone when no other cell held it. -/
theorem Consistent.release_fst (h : Consistent t) :
    (t.release cell).1 = true ↔
      ∃ id, t.idAt[cell]? = some id ∧ ∀ other, t.idAt[other]? = some id → other = cell := by
  cases hid : t.idAt[cell]? with
  | none => simp [release_of_none hid]
  | some id =>
    simp only [Option.some.injEq, exists_eq_left']
    obtain ⟨heq, hlast, -⟩ | ⟨heq, ⟨other, hother, hne⟩, -⟩ := h.release_cases hid
    · simpa [heq] using hlast
    · simp only [heq, Bool.false_eq_true, false_iff]
      exact fun hlast => hne (hlast other hother)

/-! ### Filling a cell -/

/-- One more cell holds an entry. -/
def share (t : Table) (id : FormulaId) (cell : Cell) : Table :=
  { t with holders := t.holders.insert id (t.holders.getD id 0 + 1) }.addCell id cell

/-- A new entry, held by one cell. -/
def enter (t : Table) (f : Formula) (cell : Cell) : Table :=
  f.labels.foldl (addLabel t.nextId)
    ({ t with
        nextId := t.nextId + 1
        ids := t.ids.insert f.key t.nextId
        formulas := t.formulas.insert t.nextId f
        holders := t.holders.insert t.nextId 1 }.addCell t.nextId cell)

variable {f : Formula}

theorem intern_same (hid : t.ids[f.key]? = some id) (hat : t.idAt.getD cell 0 = id) :
    t.intern f cell = (id, t) := by
  simp only [intern, hid, if_pos hat]

theorem intern_shared (hid : t.ids[f.key]? = some id) (hat : t.idAt.getD cell 0 ≠ id) :
    t.intern f cell = (id, (t.release cell).2.share id cell) := by
  simp only [intern, hid, if_neg hat, share]

theorem intern_fresh (hid : t.ids[f.key]? = none) :
    t.intern f cell = (t.nextId, (t.release cell).2.enter f cell) := by
  simp only [intern, hid, enter, release_nextId]

/-- One more cell of an entry is one more in its count. -/
theorem Consistent.counted_insert (h : Consistent t) (hcell : t.idAt[cell]? = none)
    (x : FormulaId) :
    (t.holders.insert id (t.holders.getD id 0 + 1))[x]? =
      (addMember t.cells id cell)[x]?.map fun cells : Std.HashSet Cell => (cells.size : Int) := by
  rw [addMember, Std.HashMap.getElem?_insert, Std.HashMap.getElem?_insert]
  split_ifs with hx
  · have hnew : cell ∉ t.cells.getD id ∅ := by
      intro hin
      rw [h.placed.2 hin] at hcell
      cases hcell
    rw [Option.map_some, Std.HashSet.size_insert, if_neg hnew, Std.HashMap.getD_eq_getD_getElem?,
      Std.HashMap.getD_eq_getD_getElem?, h.counted]
    cases t.cells[id]? <;> rfl
  · exact h.counted x

/-- A cell that was empty holds the entry that it was filled with. -/
theorem Consistent.placed_insert (h : Consistent t) (hcell : t.idAt[cell]? = none) {d : Cell}
    {x : FormulaId} :
    (t.idAt.insert cell id)[d]? = some x ↔ InSet (addMember t.cells id cell) x d := by
  rw [inSet_addMember, Std.HashMap.getElem?_insert, ← h.placed]
  by_cases hd : cell = d
  · subst hd
    simp [hcell, eq_comm]
  · simp [hd, Ne.symm hd]

theorem Consistent.share (h : Consistent t) (hcell : t.idAt[cell]? = none)
    (hid : t.formulas[id]? = some f) : Consistent (t.share id cell) where
  numbered := h.numbered
  keyed := h.keyed
  held {x} := by
    refine h.held.trans ⟨fun ⟨d, hd⟩ => ⟨d, inSet_addMember.2 (.inr hd)⟩, ?_⟩
    rintro ⟨d, hd⟩
    obtain ⟨rfl, -⟩ | hd := inSet_addMember.1 hd
    · exact h.held.1 (by rw [hid]; rfl)
    · exact ⟨d, hd⟩
  counted := h.counted_insert hcell
  placed := h.placed_insert hcell
  labelled := h.labelled
  used := h.used
  cells_nonempty := h.cells_nonempty.addMember id cell
  labels_nonempty := h.labels_nonempty
  users_nonempty := h.users_nonempty
  nextId_ne_zero := h.nextId_ne_zero

/-! ### New entries -/

/-- What holds of a table for a label that is added, and else as before. -/
theorem foldl_addLabel_iff {P : Table → Prop} {labels : List Text} {x : FormulaId} {l : Text}
    (hadd : ∀ t label, P (addLabel id t label) ↔ (x = id ∧ l = label) ∨ P t) :
    P (labels.foldl (addLabel id) t) ↔ (x = id ∧ l ∈ labels) ∨ P t := by
  induction labels generalizing t with
  | nil => simp
  | cons label labels ih =>
    rw [List.foldl_cons, ih, hadd, List.mem_cons, and_or_left, or_assoc, or_left_comm]

theorem inSet_labels_foldl {labels : List Text} {x : FormulaId} {l : Text} :
    InSet (labels.foldl (addLabel id) t).labels x l ↔
      (x = id ∧ l ∈ labels) ∨ InSet t.labels x l :=
  foldl_addLabel_iff (P := fun t => InSet t.labels x l) fun _ _ => inSet_addMember

theorem inSet_users_foldl {labels : List Text} {x : FormulaId} {l : Text} :
    InSet (labels.foldl (addLabel id) t).users l x ↔
      (x = id ∧ l ∈ labels) ∨ InSet t.users l x :=
  foldl_addLabel_iff (P := fun t => InSet t.users l x) fun _ _ => by
    rw [and_comm]
    exact inSet_addMember

/-- Noting labels changes only what is known about labels. -/
theorem foldl_addLabel (labels : List Text) :
    labels.foldl (addLabel id) t =
      { t with
        labels := (labels.foldl (addLabel id) t).labels
        users := (labels.foldl (addLabel id) t).users } := by
  induction labels generalizing t with
  | nil => rfl
  | cons label labels ih => exact ih (t := addLabel id t label)

theorem foldl_addLabel_nonempty (labels : List Text) (hl : NoEmptySet t.labels)
    (hu : NoEmptySet t.users) :
    NoEmptySet (labels.foldl (addLabel id) t).labels ∧
      NoEmptySet (labels.foldl (addLabel id) t).users := by
  induction labels generalizing t with
  | nil => exact ⟨hl, hu⟩
  | cons label labels ih => exact ih (hl.addMember id label) (hu.addMember label id)

@[simp] theorem enter_nextId : (t.enter f cell).nextId = t.nextId + 1 := by
  rw [enter, foldl_addLabel]
  rfl

theorem toNat_enter_nextId (hroom : t.nextId.toNat + 1 < 2 ^ 32) :
    (t.enter f cell).nextId.toNat = t.nextId.toNat + 1 := by
  rw [enter_nextId, UInt32.toNat_add]
  exact Nat.mod_eq_of_lt hroom

@[simp] theorem enter_ids : (t.enter f cell).ids = t.ids.insert f.key t.nextId := by
  rw [enter, foldl_addLabel]
  rfl

@[simp] theorem enter_holders : (t.enter f cell).holders = t.holders.insert t.nextId 1 := by
  rw [enter, foldl_addLabel]
  rfl

@[simp] theorem enter_cells : (t.enter f cell).cells = addMember t.cells t.nextId cell := by
  rw [enter, foldl_addLabel]
  rfl

@[simp] theorem enter_idAt : (t.enter f cell).idAt = t.idAt.insert cell t.nextId := by
  rw [enter, foldl_addLabel]
  rfl

theorem enter_formulas {x : FormulaId} :
    (t.enter f cell).formulas[x]? = if x = t.nextId then some f else t.formulas[x]? := by
  rw [enter, foldl_addLabel]
  refine (Std.HashMap.getElem?_insert ..).trans ?_
  simp only [beq_iff_eq, eq_comm (b := x)]

theorem inSet_enter_labels {x : FormulaId} {l : Text} :
    InSet (t.enter f cell).labels x l ↔ (x = t.nextId ∧ l ∈ f.labels) ∨ InSet t.labels x l :=
  inSet_labels_foldl

theorem inSet_enter_users {x : FormulaId} {l : Text} :
    InSet (t.enter f cell).users l x ↔ (x = t.nextId ∧ l ∈ f.labels) ∨ InSet t.users l x :=
  inSet_users_foldl

theorem enter_nonempty (hl : NoEmptySet t.labels) (hu : NoEmptySet t.users) :
    NoEmptySet (t.enter f cell).labels ∧ NoEmptySet (t.enter f cell).users :=
  foldl_addLabel_nonempty f.labels hl hu

/-- The number of a new entry is not yet in use. -/
theorem Consistent.formulas_nextId (h : Consistent t) : t.formulas[t.nextId]? = none := by
  cases hf : t.formulas[t.nextId]? with
  | none => rfl
  | some f => exact absurd (h.numbered hf).2 (UInt32.lt_irrefl _)

theorem Consistent.holders_nextId (h : Consistent t) : t.holders.getD t.nextId 0 = 0 := by
  have hcells : ¬ t.cells[t.nextId]?.isSome = true := by
    rw [h.cells_nonempty.isSome_iff, ← h.held, h.formulas_nextId]
    exact Bool.false_ne_true
  rw [Std.HashMap.getD_eq_getD_getElem?, h.counted, Option.not_isSome_iff_eq_none.1 hcells]
  rfl

theorem Consistent.enter (h : Consistent t) (hcell : t.idAt[cell]? = none)
    (hkey : t.ids[f.key]? = none) (hroom : t.nextId.toNat + 1 < 2 ^ 32) :
    Consistent (t.enter f cell) where
  numbered {x g} hg := by
    rw [enter_formulas] at hg
    rw [UInt32.lt_iff_toNat_lt, toNat_enter_nextId hroom]
    split_ifs at hg with hx
    · subst hx
      exact ⟨h.nextId_ne_zero, Nat.lt_succ_self _⟩
    · obtain ⟨hzero, hlt⟩ := h.numbered hg
      exact ⟨hzero, Nat.lt_succ_of_lt (UInt32.lt_iff_toNat_lt.1 hlt)⟩
  keyed {k x} := by
    simp only [enter_ids, enter_formulas, Std.HashMap.getElem?_insert]
    by_cases hx : x = t.nextId
    · subst hx
      -- The number is new: no key stood for it.
      have hold : t.ids[k]? ≠ some t.nextId := by
        rw [Ne, h.keyed, h.formulas_nextId]
        simp
      by_cases hk : f.key = k
      · simp [hk]
      · simp [hk, hold]
    · rw [if_neg hx, ← h.keyed]
      by_cases hk : f.key = k
      · subst hk
        simp [hkey, Ne.symm hx]
      · simp [hk]
  held {x} := by
    simp only [enter_formulas, enter_cells, inSet_addMember]
    by_cases hx : x = t.nextId
    · simp [hx]
    · simpa [hx] using h.held
  counted := by
    intro x
    rw [enter_holders, enter_cells, ← h.counted_insert hcell x, h.holders_nextId]
    rfl
  placed {d x} := by
    rw [enter_idAt, enter_cells]
    exact h.placed_insert hcell
  labelled {x l} := by
    rw [inSet_enter_labels, enter_formulas, h.labelled]
    by_cases hx : x = t.nextId
    · simp [hx, h.formulas_nextId]
    · simp [hx]
  used {x l} := by
    rw [inSet_enter_users, inSet_enter_labels, h.used]
  cells_nonempty := by
    rw [enter_cells]
    exact h.cells_nonempty.addMember t.nextId cell
  labels_nonempty := (enter_nonempty h.labels_nonempty h.users_nonempty).1
  users_nonempty := (enter_nonempty h.labels_nonempty h.users_nonempty).2
  nextId_ne_zero := by
    intro hzero
    have hnat : (t.enter f cell).nextId.toNat = t.nextId.toNat + 1 := toNat_enter_nextId hroom
    rw [hzero] at hnat
    cases hnat

end Entries

/-! ### Whole runs -/

/-- Emptying a cell brings no entry back. -/
theorem Consistent.formulas_of_release {t : Table} (h : Consistent t) {cell : Cell}
    {id : FormulaId} {f : Formula} (hf : (t.release cell).2.formulas[id]? = some f) :
    t.formulas[id]? = some f := by
  rw [h.release_formulas] at hf
  split_ifs at hf
  exact hf

theorem Consistent.ids_of_release {t : Table} (h : Consistent t) {k : Text}
    (hk : t.ids[k]? = none) (cell : Cell) : (t.release cell).2.ids[k]? = none := by
  cases hid : (t.release cell).2.ids[k]? with
  | none => rfl
  | some id =>
    obtain ⟨f, hf, hfk⟩ := (h.release cell).keyed.1 hid
    rw [h.keyed.2 ⟨f, h.formulas_of_release hf, hfk⟩] at hk
    cases hk

/-- An entry that a cell does not hold is still there when the cell is emptied. -/
theorem Consistent.formulas_release {t : Table} (h : Consistent t) {cell : Cell}
    {id : FormulaId} (hne : t.idAt[cell]? ≠ some id) :
    (t.release cell).2.formulas[id]? = t.formulas[id]? := by
  rw [h.release_formulas, if_neg (fun hgone => hne hgone.2)]

theorem idAt_ne_of_getD_ne {t : Table} {cell : Cell} {id : FormulaId}
    (hne : t.idAt.getD cell 0 ≠ id) : t.idAt[cell]? ≠ some id := by
  intro hid
  rw [Std.HashMap.getD_eq_getD_getElem?, hid] at hne
  exact hne rfl

theorem release_idAt_self {t : Table} {cell : Cell} : (t.release cell).2.idAt[cell]? = none := by
  rw [release_idAt, if_pos rfl]

/-- As long as a number is left, an action keeps a table consistent and uses up a number for an
entry that is new. -/
theorem Consistent.step {t : Table} (h : Consistent t) (a : Action)
    (hroom : t.nextId.toNat + (t.isFresh a).toNat < 2 ^ 32) :
    Consistent (t.step a) ∧ (t.step a).nextId.toNat = t.nextId.toNat + (t.isFresh a).toNat := by
  cases a with
  | release cell => exact ⟨h.release cell, congrArg UInt32.toNat release_nextId⟩
  | intern f cell =>
    simp only [Table.step, isFresh] at hroom ⊢
    cases hid : t.ids[f.key]? with
    | some id =>
      by_cases hat : t.idAt.getD cell 0 = id
      · rw [intern_same hid hat]
        exact ⟨h, rfl⟩
      · obtain ⟨g, hg, -⟩ := h.keyed.1 hid
        rw [intern_shared hid hat]
        refine ⟨(h.release cell).share release_idAt_self
          ((h.formulas_release (idAt_ne_of_getD_ne hat)).trans hg), ?_⟩
        exact congrArg UInt32.toNat release_nextId
    | none =>
      rw [hid] at hroom
      have hroom' : (t.release cell).2.nextId.toNat + 1 < 2 ^ 32 := by rwa [release_nextId]
      rw [intern_fresh hid, toNat_enter_nextId hroom', release_nextId]
      exact ⟨(h.release cell).enter release_idAt_self (h.ids_of_release hid cell) hroom', rfl⟩

/-- As long as numbers are left, any actions keep a table consistent and use up a number for each
entry that is new. -/
theorem Consistent.foldl {t : Table} (h : Consistent t) {actions : List Action}
    (hroom : t.nextId.toNat + t.freshCount actions < 2 ^ 32) :
    Consistent (actions.foldl Table.step t) ∧
      (actions.foldl Table.step t).nextId.toNat = t.nextId.toNat + t.freshCount actions := by
  induction actions generalizing t with
  | nil => exact ⟨h, rfl⟩
  | cons a actions ih =>
    rw [freshCount] at hroom
    obtain ⟨hstep, hnext⟩ := h.step a (by omega)
    obtain ⟨hrest, hlast⟩ := ih hstep (by omega)
    exact ⟨hrest, by rw [List.foldl_cons, hlast, freshCount, hnext, Nat.add_assoc]⟩

theorem run_append (before after : List Action) :
    run (before ++ after) = after.foldl step (run before) := List.foldl_append

/-- Every table that comes about is consistent, unless its numbers run out. -/
theorem consistent_run (actions : List Action) (hroom : empty.freshCount actions < 2 ^ 32 - 1) :
    Consistent (run actions) ∧ (run actions).nextId.toNat = 1 + empty.freshCount actions :=
  consistent_empty.foldl (by
    rw [show empty.nextId.toNat = 1 from rfl]
    omega)

/-- What the maps of a table say of each other, one map at a time. -/
structure MapsAgree (t : Table) : Prop where
  mem_holders {id : FormulaId} : id ∈ t.holders ↔ id ∈ t.formulas
  mem_cells {id : FormulaId} : id ∈ t.cells ↔ id ∈ t.formulas
  numbered {id : FormulaId} : id ∈ t.formulas → id ≠ 0 ∧ id < t.nextId
  counted {id : FormulaId} {n : Int} : t.holders[id]? = some n →
    1 ≤ n ∧ ∃ cells : Std.HashSet Cell, t.cells[id]? = some cells ∧ n = cells.size
  placed {cell : Cell} {id : FormulaId} : t.idAt[cell]? = some id ↔ InSet t.cells id cell
  bijOn_ids : Set.BijOn (fun key => t.ids.getD key 0) {key | key ∈ t.ids} {id | id ∈ t.formulas}
  ids_key {id : FormulaId} {f : Formula} : t.formulas[id]? = some f → t.ids[f.key]? = some id
  /-- The labels of an entry are the labels among the references of its token. -/
  labelled {id : FormulaId} {label : Text} : InSet t.labels id label ↔
    ∃ f : Formula, t.formulas[id]? = some f ∧
      ∃ token, f.token? = some token ∧ .label label ∈ token.references
  used {id : FormulaId} {label : Text} : InSet t.users label id ↔ InSet t.labels id label
  cells_nonempty : NoEmptySet t.cells
  labels_nonempty : NoEmptySet t.labels
  users_nonempty : NoEmptySet t.users

theorem mem_labels_iff {f : Formula} {label : Text} :
    label ∈ f.labels ↔ ∃ token, f.token? = some token ∧ .label label ∈ token.references := by
  unfold Formula.labels
  cases f.token? with
  | none => simp
  | some token =>
    simp only [List.mem_filterMap, Option.some.injEq, exists_eq_left']
    constructor
    · rintro ⟨ref, href, hname⟩
      cases ref <;> simp_all
    · exact fun href => ⟨_, href, rfl⟩

/-- The cells of an entry are those that hold it, and there is one at least. -/
theorem Consistent.mem_cells {t : Table} (h : Consistent t) {id : FormulaId} :
    id ∈ t.cells ↔ id ∈ t.formulas := by
  rw [Std.HashMap.mem_iff_isSome_getElem?, Std.HashMap.mem_iff_isSome_getElem?, h.held,
    h.cells_nonempty.isSome_iff]

theorem Consistent.bijOn_ids {t : Table} (h : Consistent t) :
    Set.BijOn (fun key => t.ids.getD key 0) {key | key ∈ t.ids} {id | id ∈ t.formulas} := by
  have hget {key : Text} (hkey : key ∈ t.ids) : t.ids[key]? = some (t.ids.getD key 0) := by
    obtain ⟨id, hid⟩ := Option.isSome_iff_exists.1 (Std.HashMap.mem_iff_isSome_getElem?.1 hkey)
    rw [Std.HashMap.getD_eq_getD_getElem?, hid]
    rfl
  refine ⟨fun key hkey => ?_, fun k hk k' hk' heq => ?_, fun id hid => ?_⟩
  · obtain ⟨f, hf, -⟩ := h.keyed.1 (hget hkey)
    exact Std.HashMap.mem_iff_isSome_getElem?.2 (by rw [hf]; rfl)
  · obtain ⟨f, hf, rfl⟩ := h.keyed.1 (hget hk)
    obtain ⟨g, hg, rfl⟩ := h.keyed.1 (hget hk')
    rw [show t.ids.getD f.key 0 = t.ids.getD g.key 0 from heq, hg] at hf
    rw [Option.some.inj hf]
  · obtain ⟨f, hf⟩ := Option.isSome_iff_exists.1 (Std.HashMap.mem_iff_isSome_getElem?.1 hid)
    have hkey : t.ids[f.key]? = some id := h.keyed.2 ⟨f, hf, rfl⟩
    refine ⟨f.key, Std.HashMap.mem_iff_isSome_getElem?.2 (by rw [hkey]; rfl), ?_⟩
    show t.ids.getD f.key 0 = id
    rw [Std.HashMap.getD_eq_getD_getElem?, hkey]
    rfl

theorem Consistent.mapsAgree {t : Table} (h : Consistent t) : MapsAgree t where
  mem_holders {id} := by
    rw [← h.mem_cells, Std.HashMap.mem_iff_isSome_getElem?, Std.HashMap.mem_iff_isSome_getElem?,
      h.counted, Option.isSome_map]
  mem_cells := h.mem_cells
  numbered hid := by
    obtain ⟨f, hf⟩ := Option.isSome_iff_exists.1 (Std.HashMap.mem_iff_isSome_getElem?.1 hid)
    exact h.numbered hf
  counted {id n} hn := by
    rw [h.counted, Option.map_eq_some_iff] at hn
    obtain ⟨cells, hcells, rfl⟩ := hn
    -- An entry counts its cells, and it would not be there without one.
    have hsize : cells.size ≠ 0 := by
      intro hzero
      have hempty := h.cells_nonempty hcells
      rw [Std.HashSet.isEmpty_eq_size_eq_zero, hzero] at hempty
      cases hempty
    exact ⟨by omega, cells, hcells, rfl⟩
  placed := h.placed
  bijOn_ids := h.bijOn_ids
  ids_key hf := h.keyed.2 ⟨_, hf, rfl⟩
  labelled {id label} := by
    rw [h.labelled]
    simp only [mem_labels_iff]
  used := h.used
  cells_nonempty := h.cells_nonempty
  labels_nonempty := h.labels_nonempty
  users_nonempty := h.users_nonempty

theorem freshCount_le_length (t : Table) (actions : List Action) :
    t.freshCount actions ≤ actions.length := by
  induction actions generalizing t with
  | nil => exact Nat.le_refl 0
  | cons a actions ih =>
    rw [freshCount, List.length_cons]
    have := ih (t.step a)
    have := Bool.toNat_le (t.isFresh a)
    omega

/-- The maps of every table that comes about agree, unless its numbers run out. -/
theorem run_mapsAgree (actions : List Action) (hroom : empty.freshCount actions < 2 ^ 32 - 1) :
    MapsAgree (run actions) :=
  (consistent_run actions hroom).1.mapsAgree

/-- A formula is shared under another spacing, replaced in one of its cells and brought back. -/
theorem run_mapsAgree_replaced :
    let formula text := Formula.parse (.ofLocale {}) .valueOrExpression text
    let a1 : Cell := ⟨⟨1, false, by decide, by decide⟩, ⟨1, false, by decide, by decide⟩⟩
    let b1 : Cell := ⟨⟨2, false, by decide, by decide⟩, ⟨1, false, by decide, by decide⟩⟩
    let actions := [Action.intern (formula "=rate*2") a1, .intern (formula "= rate * 2") b1,
      .intern (formula "=c1") a1, .release b1, .intern (formula "=rate*2") b1]
    empty.freshCount actions < 2 ^ 32 - 1 ∧ MapsAgree (run actions) := by
  intro formula a1 b1 actions
  have hroom : empty.freshCount actions < 2 ^ 32 - 1 :=
    Nat.lt_of_le_of_lt (freshCount_le_length empty actions) (by decide)
  exact ⟨hroom, run_mapsAgree actions hroom⟩

end Table

end SheetFormula
