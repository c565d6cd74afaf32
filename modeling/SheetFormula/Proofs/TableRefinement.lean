import Mathlib.Data.Set.Card
import SheetFormula.Proofs.TableInvariant

/-!
# A table as a map from cells to formulas

Seen from outside, a table is a map from cells to formulas in which formulas with the same key count
as one.  `Table.holding` is that map, made of the same actions; `Table.keyAt` is what a table knows
of it, and both change in step.  Everything a table answers is then told in terms of the map: where
an entry is, which cells share it, how many there are, what emptying a cell removes.  Of the
formulas that share an entry the table keeps the one that brought the key in when it was last absent
(`Table.IntroducedBy`), and the number of an entry that went is never used again.
-/

namespace SheetFormula

namespace Cell

/-! ### Reading order -/

theorem precedes_iff {a b : Cell} :
    a.precedes b = true ↔ a.row.number < b.row.number ∨ a.row.number = b.row.number ∧
      (a.column.number < b.column.number ∨ a.column.number = b.column.number ∧
        a.text.bytes ≤ b.text.bytes) := by
  unfold precedes
  split_ifs with hrow hcolumn
  · simp only [decide_eq_true_eq]
    omega
  · simp only [decide_eq_true_eq]
    omega
  · simp only [decide_eq_true_eq]
    constructor
    · exact fun h => .inr ⟨by omega, .inr ⟨by omega, h⟩⟩
    · rintro (h | ⟨-, h | ⟨-, h⟩⟩)
      · omega
      · omega
      · exact h

theorem precedes_trans (a b c : Cell) (hab : a.precedes b = true) (hbc : b.precedes c = true) :
    a.precedes c = true := by
  rw [precedes_iff] at hab hbc ⊢
  rcases hab with hab | ⟨hab, hab' | ⟨hab', htext⟩⟩
  · exact .inl (by omega)
  · rcases hbc with hbc | ⟨hbc, hbc' | ⟨hbc', -⟩⟩
    · exact .inl (by omega)
    · exact .inr ⟨by omega, .inl (by omega)⟩
    · exact .inr ⟨by omega, .inl (by omega)⟩
  · rcases hbc with hbc | ⟨hbc, hbc' | ⟨hbc', htext'⟩⟩
    · exact .inl (by omega)
    · exact .inr ⟨by omega, .inl (by omega)⟩
    · exact .inr ⟨by omega, .inr ⟨by omega, List.le_trans htext htext'⟩⟩

theorem precedes_total (a b : Cell) : (a.precedes b || b.precedes a) = true := by
  rw [Bool.or_eq_true, precedes_iff, precedes_iff]
  rcases Nat.lt_trichotomy a.row.number b.row.number with hrow | hrow | hrow
  · exact .inl (.inl hrow)
  · rcases Nat.lt_trichotomy a.column.number b.column.number with hcol | hcol | hcol
    · exact .inl (.inr ⟨hrow, .inl hcol⟩)
    · rcases List.le_total a.text.bytes b.text.bytes with htext | htext
      · exact .inl (.inr ⟨hrow, .inr ⟨hcol, htext⟩⟩)
      · exact .inr (.inr ⟨hrow.symm, .inr ⟨hcol.symm, htext⟩⟩)
    · exact .inr (.inr ⟨hrow.symm, .inl hcol⟩)
  · exact .inr (.inl hrow)

end Cell

namespace Table

/-! ### The map that a table stands for -/

/-- What cells hold after an action. -/
def place (held : Cell → Option Formula) : Action → Cell → Option Formula
  | .intern f cell => Function.update held cell (some f)
  | .release cell => Function.update held cell none

/-- What cells hold after some actions, the first of them on empty cells. -/
def holding (actions : List Action) : Cell → Option Formula := actions.foldl place fun _ => none

theorem holding_concat (actions : List Action) (a : Action) :
    holding (actions ++ [a]) = place (holding actions) a := by
  rw [holding, List.foldl_append]
  rfl

/-- Some cell holds a formula with this key. -/
def KeyHeld (held : Cell → Option Formula) (key : Text) : Prop :=
  ∃ cell f, held cell = some f ∧ f.key = key

/-- The key of what a table has for a cell. -/
def keyAt (t : Table) (cell : Cell) : Option Text :=
  t.idAt[cell]?.bind fun id : FormulaId => t.formulas[id]?.map Formula.key

section Keys

variable {t : Table} {cell d : Cell} {f : Formula} {id : FormulaId}

theorem mem_cellsOf : cell ∈ t.cellsOf id ↔ InSet t.cells id cell := by
  rw [cellsOf, List.mem_mergeSort, Std.HashSet.mem_toList]
  rfl

theorem Consistent.keyAt_eq_some_iff (h : Consistent t) {key : Text} :
    t.keyAt cell = some key ↔
      ∃ id : FormulaId, t.ids[key]? = some id ∧ t.idAt[cell]? = some id := by
  simp only [keyAt, Option.bind_eq_some_iff, Option.map_eq_some_iff, h.keyed]
  constructor
  · rintro ⟨id, hid, hf⟩
    exact ⟨id, hf, hid⟩
  · rintro ⟨id, hf, hid⟩
    exact ⟨id, hid, hf⟩

theorem Consistent.keyAt_release (h : Consistent t) :
    (t.release cell).2.keyAt d = if d = cell then none else t.keyAt d := by
  rw [keyAt, release_idAt]
  by_cases hd : d = cell
  · rw [if_pos hd.symm, if_pos hd]
    rfl
  · rw [if_neg (Ne.symm hd), if_neg hd, keyAt]
    cases hid : t.idAt[d]? with
    | none => rfl
    | some id =>
      -- the entry of `d` stays, for `d` is another cell that holds it
      have hstays : ¬ ((t.release cell).1 = true ∧ t.idAt[cell]? = some id) := by
        rintro ⟨hgone, hcell⟩
        obtain ⟨x, hx, honly⟩ := h.release_fst.1 hgone
        rw [hcell, Option.some.injEq] at hx
        exact hd (honly d (hx ▸ hid))
      rw [Option.bind_some, Option.bind_some, h.release_formulas, if_neg hstays]

theorem keyAt_share (hf : t.formulas[id]? = some f) :
    (t.share id cell).keyAt d = if d = cell then some f.key else t.keyAt d := by
  have hidAt : (t.share id cell).idAt[d]? = if cell = d then some id else t.idAt[d]? := by
    refine (Std.HashMap.getElem?_insert ..).trans ?_
    simp only [beq_iff_eq]
  have hformulas : (t.share id cell).formulas = t.formulas := rfl
  rw [keyAt, hidAt, hformulas]
  by_cases hd : d = cell
  · rw [if_pos hd.symm, if_pos hd, Option.bind_some, hf, Option.map_some]
  · rw [if_neg (Ne.symm hd), if_neg hd, keyAt]

theorem Consistent.keyAt_enter (h : Consistent t) :
    (t.enter f cell).keyAt d = if d = cell then some f.key else t.keyAt d := by
  rw [keyAt, enter_idAt, Std.HashMap.getElem?_insert]
  by_cases hd : d = cell
  · rw [if_pos (by simpa using hd.symm), if_pos hd, Option.bind_some, enter_formulas, if_pos rfl,
      Option.map_some]
  · rw [if_neg (by simpa using Ne.symm hd), if_neg hd, keyAt]
    cases hid : t.idAt[d]? with
    | none => rfl
    | some x =>
      have hx : x ≠ t.nextId := by
        rintro rfl
        obtain ⟨g, hg⟩ := h.exists_formula hid
        rw [h.formulas_nextId] at hg
        cases hg
      rw [Option.bind_some, Option.bind_some, enter_formulas, if_neg hx]

/-- A table changes with the map it stands for. -/
theorem Consistent.keyAt_step (h : Consistent t) {held : Cell → Option Formula}
    (hheld : ∀ cell, t.keyAt cell = (held cell).map Formula.key) (a : Action) (cell : Cell) :
    (t.step a).keyAt cell = (place held a cell).map Formula.key := by
  have hupdate (c : Cell) (value : Option Formula) :
      (Function.update held c value cell).map Formula.key =
        if cell = c then value.map Formula.key else t.keyAt cell := by
    by_cases hc : cell = c
    · rw [if_pos hc, hc, Function.update_self]
    · rw [if_neg hc, Function.update_of_ne hc, hheld]
  cases a with
  | release c => rw [Table.step, h.keyAt_release, place, hupdate, Option.map_none]
  | intern f c =>
    rw [place, hupdate, Option.map_some, Table.step]
    cases hid : t.ids[f.key]? with
    | some id =>
      by_cases hat : t.idAt.getD c 0 = id
      · -- The table stays as it is.
        rw [intern_same hid hat]
        split_ifs with hc
        · -- the cell held the entry before
          subst hc
          obtain ⟨g, hg, hkey⟩ := h.keyed.1 hid
          refine h.keyAt_eq_some_iff.2 ⟨id, hid, ?_⟩
          rw [Std.HashMap.getD_eq_getD_getElem?] at hat
          cases hc : t.idAt[cell]? with
          | none =>
            rw [hc] at hat
            exact absurd hat.symm (h.numbered hg).1
          | some x =>
            rw [hc] at hat
            exact congrArg some hat
        · rfl
      · -- The cell leaves another entry, which may go; the entry that it joins does not.
        obtain ⟨g, hg, hkey⟩ := h.keyed.1 hid
        rw [intern_shared hid hat,
          keyAt_share ((h.formulas_release (idAt_ne_of_getD_ne hat)).trans hg), hkey,
          h.keyAt_release]
        split_ifs <;> rfl
    | none =>
      rw [intern_fresh hid, (h.release c).keyAt_enter, h.keyAt_release]
      split_ifs <;> rfl

/-- What is there after an action was there before, or the action has just brought it in. -/
theorem Consistent.formulas_step (h : Consistent t) {a : Action}
    (hf : (t.step a).formulas[id]? = some f) :
    t.formulas[id]? = some f ∨
      ∃ cell, a = .intern f cell ∧ id = t.nextId ∧ t.ids[f.key]? = none := by
  cases a with
  | release c => exact .inl (h.formulas_of_release hf)
  | intern g c =>
    rw [Table.step] at hf
    cases hid : t.ids[g.key]? with
    | some x =>
      by_cases hat : t.idAt.getD c 0 = x
      · rw [intern_same hid hat] at hf
        exact .inl hf
      · rw [intern_shared hid hat] at hf
        exact .inl (h.formulas_of_release hf)
    | none =>
      rw [intern_fresh hid, enter_formulas, release_nextId] at hf
      split_ifs at hf with hx
      · cases hf
        exact .inr ⟨c, rfl, hx, hid⟩
      · exact .inl (h.formulas_of_release hf)

/-- The number of an entry that went is not used again. -/
theorem Consistent.absent_foldl (h : Consistent t) {actions : List Action}
    (hroom : t.nextId.toNat + t.freshCount actions < 2 ^ 32) (hlt : id < t.nextId)
    (habsent : t.formulas[id]? = none) : (actions.foldl Table.step t).formulas[id]? = none := by
  induction actions generalizing t with
  | nil => exact habsent
  | cons a actions ih =>
    rw [freshCount] at hroom
    obtain ⟨hstep, hnext⟩ := h.step a (by omega)
    refine ih hstep (by omega) ?_ ?_
    · rw [UInt32.lt_iff_toNat_lt] at hlt ⊢
      omega
    · cases hf : (t.step a).formulas[id]? with
      | none => rfl
      | some f =>
        rcases h.formulas_step hf with hold | ⟨-, -, rfl, -⟩
        · rw [habsent] at hold
          cases hold
        · exact absurd hlt (UInt32.lt_irrefl _)

/-- Nothing is known any more of an entry that went. -/
theorem Consistent.answers_of_absent (h : Consistent t) (habsent : t.formulas[id]? = none) :
    t.cellsOf id = [] ∧ (∀ cell, t.at? cell ≠ some id) ∧ ∀ f, t.lookup? f ≠ some id := by
  refine ⟨List.eq_nil_iff_forall_not_mem.2 fun cell hcell => ?_, fun cell hid => ?_,
    fun f hid => ?_⟩
  · have hheld := h.held.2 ⟨cell, mem_cellsOf.1 hcell⟩
    rw [habsent] at hheld
    cases hheld
  · obtain ⟨g, hg⟩ := h.exists_formula hid
    rw [habsent] at hg
    cases hg
  · obtain ⟨g, hg, -⟩ := h.keyed.1 hid
    rw [habsent] at hg
    cases hg

end Keys

/-! ### What a table knows of its map -/

/-- A table that is consistent and has the right key for each cell. -/
structure Represents (t : Table) (held : Cell → Option Formula) : Prop where
  consistent : Consistent t
  keyAt (cell : Cell) : t.keyAt cell = (held cell).map Formula.key

theorem run_represents {actions : List Action} (hroom : empty.freshCount actions < 2 ^ 32 - 1) :
    Represents (run actions) (holding actions) := by
  refine ⟨(consistent_run _ hroom).1, ?_⟩
  induction actions using List.reverseRecOn with
  | nil =>
    intro cell
    simp [keyAt, run, empty, holding]
  | append_singleton actions a ih =>
    rw [freshCount_append] at hroom
    have hbefore : empty.freshCount actions < 2 ^ 32 - 1 := by omega
    rw [run_append, holding_concat]
    exact (consistent_run actions hbefore).1.keyAt_step (ih hbefore) a

namespace Represents

variable {t : Table} {held : Cell → Option Formula} {cell d : Cell} {f g : Formula}
  {id : FormulaId} {key : Text}

theorem exists_id (h : Represents t held) (hf : held cell = some f) :
    ∃ id : FormulaId, t.ids[f.key]? = some id ∧ t.idAt[cell]? = some id :=
  h.consistent.keyAt_eq_some_iff.1 (by rw [h.keyAt, hf, Option.map_some])

theorem exists_held (h : Represents t held) (hid : t.idAt[cell]? = some id) :
    ∃ f, held cell = some f ∧ t.ids[f.key]? = some id := by
  obtain ⟨g, hg⟩ := h.consistent.exists_formula hid
  have hkey : t.ids[g.key]? = some id := h.consistent.keyed.2 ⟨g, hg, rfl⟩
  have hat : t.keyAt cell = some g.key := h.consistent.keyAt_eq_some_iff.2 ⟨id, hkey, hid⟩
  rw [h.keyAt, Option.map_eq_some_iff] at hat
  obtain ⟨f, hf, hfg⟩ := hat
  exact ⟨f, hf, hfg ▸ hkey⟩

theorem isSome_idAt_iff (h : Represents t held) :
    t.idAt[cell]?.isSome = true ↔ (held cell).isSome = true := by
  rw [Option.isSome_iff_exists, Option.isSome_iff_exists]
  constructor
  · rintro ⟨id, hid⟩
    obtain ⟨f, hf, -⟩ := h.exists_held hid
    exact ⟨f, hf⟩
  · rintro ⟨f, hf⟩
    obtain ⟨id, -, hid⟩ := h.exists_id hf
    exact ⟨id, hid⟩

theorem idAt_eq (h : Represents t held) (hf : held cell = some f) :
    t.idAt[cell]? = t.ids[f.key]? := by
  obtain ⟨id, hkey, hid⟩ := h.exists_id hf
  rw [hkey, hid]

/-- The cells of an entry are the cells that hold its key. -/
theorem idAt_iff (h : Represents t held) (hkey : t.ids[key]? = some id) :
    t.idAt[cell]? = some id ↔ ∃ f, held cell = some f ∧ f.key = key := by
  constructor
  · intro hid
    obtain ⟨f, hf, hfid⟩ := h.exists_held hid
    obtain ⟨g, hg, hgkey⟩ := h.consistent.keyed.1 hkey
    obtain ⟨g', hg', hfkey⟩ := h.consistent.keyed.1 hfid
    rw [hg, Option.some.injEq] at hg'
    exact ⟨f, hf, by rw [← hfkey, ← hg', hgkey]⟩
  · rintro ⟨f, hf, rfl⟩
    rw [h.idAt_eq hf, hkey]

theorem idAt_eq_iff (h : Represents t held) (hf : held cell = some f) (hg : held d = some g) :
    t.idAt[cell]? = t.idAt[d]? ↔ f.key = g.key := by
  constructor
  · intro heq
    obtain ⟨id, hkey, hid⟩ := h.exists_id hg
    obtain ⟨f', hf', hkey'⟩ := (h.idAt_iff hkey).1 (heq.trans hid)
    rw [hf, Option.some.injEq] at hf'
    rw [hf', hkey']
  · intro hkey
    rw [h.idAt_eq hf, h.idAt_eq hg, hkey]

theorem keyHeld_iff (h : Represents t held) :
    KeyHeld held key ↔ ∃ id : FormulaId, t.ids[key]? = some id := by
  constructor
  · rintro ⟨cell, f, hf, rfl⟩
    obtain ⟨id, hkey, -⟩ := h.exists_id hf
    exact ⟨id, hkey⟩
  · rintro ⟨id, hkey⟩
    obtain ⟨g, hg, -⟩ := h.consistent.keyed.1 hkey
    obtain ⟨cell, hcell⟩ := h.consistent.held.1 (by rw [hg]; rfl)
    obtain ⟨f, hf, hfkey⟩ := (h.idAt_iff hkey).1 (h.consistent.placed.2 hcell)
    exact ⟨cell, f, hf, hfkey⟩

theorem release_fst (h : Represents t held) :
    (t.release cell).1 = true ↔
      ∃ f, held cell = some f ∧ ∀ d g, held d = some g → g.key = f.key → d = cell := by
  rw [h.consistent.release_fst]
  constructor
  · rintro ⟨id, hid, honly⟩
    obtain ⟨f, hf, hkey⟩ := h.exists_held hid
    exact ⟨f, hf, fun d g hg hgf => honly d ((h.idAt_iff hkey).2 ⟨g, hg, hgf⟩)⟩
  · rintro ⟨f, hf, honly⟩
    obtain ⟨id, hkey, hid⟩ := h.exists_id hf
    refine ⟨id, hid, fun d hd => ?_⟩
    obtain ⟨g, hg, hgf⟩ := (h.idAt_iff hkey).1 hd
    exact honly d g hg hgf

end Represents

/-! ### The cells of an entry and the number of entries -/

section Sizes

variable {t : Table} {id : FormulaId}

theorem nodup_cellsOf : (t.cellsOf id).Nodup := by
  refine (List.mergeSort_perm _ _).nodup_iff.2 ?_
  refine List.Pairwise.imp ?_ (Std.HashSet.distinct_toList (m := t.cells.getD id ∅))
  intro a b hab heq
  rw [heq, beq_self_eq_true] at hab
  cases hab

theorem pairwise_cellsOf : (t.cellsOf id).Pairwise fun a b => a.row.number < b.row.number ∨
    a.row.number = b.row.number ∧ a.column.number ≤ b.column.number := by
  refine List.Pairwise.imp ?_
    (List.pairwise_mergeSort Cell.precedes_trans Cell.precedes_total (t.cells.getD id ∅).toList)
  intro a b hab
  rcases Cell.precedes_iff.1 hab with hrow | ⟨hrow, hcol | ⟨hcol, -⟩⟩
  · exact .inl hrow
  · exact .inr ⟨hrow, Nat.le_of_lt hcol⟩
  · exact .inr ⟨hrow, Nat.le_of_eq hcol⟩

/-- The number of keys of a map is its size. -/
theorem encard_keys {α β : Type} [DecidableEq α] [Hashable α] (m : Std.HashMap α β) :
    {a | a ∈ m}.encard = m.size := by
  have hset : {a | a ∈ m} = (m.keys.toFinset : Set α) := by
    ext a
    simp
  rw [hset, Set.encard_coe_eq_coe_finsetCard, List.toFinset_card_of_nodup Std.HashMap.nodup_keys,
    Std.HashMap.length_keys]

theorem Represents.size_eq {held : Cell → Option Formula} (h : Represents t held) :
    {key | KeyHeld held key}.encard = t.size := by
  have hkeys : {key | KeyHeld held key} = {key | key ∈ t.ids} := by
    ext key
    exact h.keyHeld_iff.trans
      (Option.isSome_iff_exists.symm.trans Std.HashMap.mem_iff_isSome_getElem?.symm)
  have hbij := h.consistent.bijOn_ids
  rw [hkeys, ← hbij.injOn.encard_image, hbij.image_eq, encard_keys, size]

end Sizes

/-! ### Which formula an entry keeps -/

/-- `f` is the formula that was put into a cell when no cell held `key`, and since then there has
always been a cell that holds it. -/
def IntroducedBy (actions : List Action) (key : Text) (f : Formula) : Prop :=
  ∃ before cell rest, actions = before ++ .intern f cell :: rest ∧ f.key = key ∧
    ¬ KeyHeld (holding before) key ∧
      ∀ later, later <+: rest → KeyHeld (holding (before ++ .intern f cell :: later)) key

section Introduction

variable {actions : List Action} {key : Text} {f g : Formula}

theorem IntroducedBy.concat (h : IntroducedBy actions key f) {a : Action}
    (hheld : KeyHeld (holding (actions ++ [a])) key) : IntroducedBy (actions ++ [a]) key f := by
  obtain ⟨before, cell, rest, rfl, hkey, habsent, hlater⟩ := h
  refine ⟨before, cell, rest ++ [a], by simp, hkey, habsent, fun later hprefix => ?_⟩
  rcases List.prefix_concat_iff.1 hprefix with rfl | hprefix
  · simpa using hheld
  · exact hlater later hprefix

/-- No two formulas brought a key in. -/
theorem IntroducedBy.unique (hf : IntroducedBy actions key f) (hg : IntroducedBy actions key g) :
    f = g := by
  -- the later of two such actions would have found the key held
  have hle {f g : Formula} {before before' rest rest' : List Action} {cell cell' : Cell}
      (heq : before ++ .intern f cell :: rest = before' ++ .intern g cell' :: rest')
      (habsent : ¬ KeyHeld (holding before') key)
      (hlater : ∀ later, later <+: rest →
        KeyHeld (holding (before ++ .intern f cell :: later)) key) :
      before'.length ≤ before.length := by
    by_contra hlt
    rcases List.append_eq_append_iff.1 heq with ⟨mid, rfl, hmid⟩ | ⟨mid, rfl, hmid⟩
    · cases mid with
      | nil => simp at hlt
      | cons a mid =>
        rw [List.cons_append, List.cons.injEq] at hmid
        obtain ⟨rfl, rfl⟩ := hmid
        exact habsent (hlater mid (List.prefix_append _ _))
    · rw [List.length_append] at hlt
      omega
  obtain ⟨before, cell, rest, rfl, -, habsent, hlater⟩ := hf
  obtain ⟨before', cell', rest', heq, -, habsent', hlater'⟩ := hg
  have hlength : before.length = before'.length :=
    Nat.le_antisymm (hle heq.symm habsent hlater') (hle heq habsent' hlater)
  obtain ⟨-, hcons⟩ := List.append_inj heq hlength
  rw [List.cons.injEq, Action.intern.injEq] at hcons
  exact hcons.1.1

/-- The formula of an entry is the one that brought its key in. -/
theorem formulas_run {id : FormulaId} (hroom : empty.freshCount actions < 2 ^ 32 - 1)
    (hf : (run actions).formulas[id]? = some f) : IntroducedBy actions f.key f := by
  induction actions using List.reverseRecOn generalizing id f with
  | nil => simp [run, empty] at hf
  | append_singleton actions a ih =>
    have hheld : KeyHeld (holding (actions ++ [a])) f.key :=
      (run_represents hroom).keyHeld_iff.2 ⟨id, (consistent_run _ hroom).1.keyed.2 ⟨f, hf, rfl⟩⟩
    rw [freshCount_append] at hroom
    have hbefore : empty.freshCount actions < 2 ^ 32 - 1 := by omega
    rw [run_append] at hf
    rcases (consistent_run actions hbefore).1.formulas_step hf with hold | ⟨cell, rfl, rfl, hnone⟩
    · exact (ih hbefore hold).concat hheld
    · refine ⟨actions, cell, [], rfl, rfl, ?_, fun later hprefix => ?_⟩
      · rw [(run_represents hbefore).keyHeld_iff, hnone]
        simp
      · rw [List.prefix_nil.1 hprefix]
        exact hheld

/-- The entry of a cell keeps the formula that brought the key of the cell in, and no other. -/
theorem get?_run_eq_some_iff {cell : Cell} {id : FormulaId}
    (hroom : empty.freshCount actions < 2 ^ 32 - 1) (hf : holding actions cell = some f)
    (hid : (run actions).at? cell = some id) :
    (run actions).get? id = some g ↔ IntroducedBy actions f.key g := by
  have h := run_represents hroom
  have hkey : (run actions).ids[f.key]? = some id := (h.idAt_eq hf).symm.trans hid
  obtain ⟨k, hk, hkf⟩ := h.consistent.keyed.1 hkey
  have hintro : IntroducedBy actions f.key k := hkf ▸ formulas_run hroom hk
  rw [get?, hk, Option.some.injEq]
  exact ⟨fun heq => heq ▸ hintro, fun hg => hintro.unique hg⟩

end Introduction

/-! ### The refinement -/

/-- What a table answers, in terms of the actions that made it. -/
structure Refines (t : Table) (actions : List Action) : Prop where
  isSome_at? {cell : Cell} : (t.at? cell).isSome = true ↔ (holding actions cell).isSome = true
  at?_eq_iff {cell d : Cell} {f g : Formula} :
    holding actions cell = some f → holding actions d = some g →
      (t.at? cell = t.at? d ↔ f.key = g.key)
  lookup?_eq_some_iff {f : Formula} {id : FormulaId} : t.lookup? f = some id ↔
    ∃ cell g, holding actions cell = some g ∧ g.key = f.key ∧ t.at? cell = some id
  lookup?_eq_none_iff {f : Formula} :
    t.lookup? f = none ↔ ∀ cell g, holding actions cell = some g → g.key ≠ f.key
  /-- The formula of an entry is the one that brought its key in. -/
  get?_eq_some_iff {cell : Cell} {id : FormulaId} {f g : Formula} :
    holding actions cell = some f → t.at? cell = some id →
      (t.get? id = some g ↔ IntroducedBy actions f.key g)
  mem_cellsOf_iff {cell d : Cell} {id : FormulaId} {f : Formula} :
    holding actions cell = some f → t.at? cell = some id →
      (d ∈ t.cellsOf id ↔ ∃ g, holding actions d = some g ∧ g.key = f.key)
  nodup_cellsOf {id : FormulaId} : (t.cellsOf id).Nodup
  pairwise_cellsOf {id : FormulaId} : (t.cellsOf id).Pairwise fun a b =>
    a.row.number < b.row.number ∨
      a.row.number = b.row.number ∧ a.column.number ≤ b.column.number
  size_eq : {key | KeyHeld (holding actions) key}.encard = t.size
  release_fst {cell : Cell} : (t.release cell).1 = true ↔
    ∃ f, holding actions cell = some f ∧
      ∀ d g, holding actions d = some g → g.key = f.key → d = cell
  /-- The number of an entry that went denotes nothing again. -/
  gone {before between rest : List Action} {id : FormulaId} :
    actions = before ++ between ++ rest → (run before).get? id ≠ none →
      (run (before ++ between)).get? id = none →
        t.get? id = none ∧ t.cellsOf id = [] ∧ (∀ cell, t.at? cell ≠ some id) ∧
          ∀ f, t.lookup? f ≠ some id

/-- The number of an entry that went denotes nothing, whatever is done after that. -/
theorem formulas_run_of_gone {before between rest : List Action} {id : FormulaId}
    (hroom : empty.freshCount (before ++ between ++ rest) < 2 ^ 32 - 1)
    (hthere : (run before).formulas[id]? ≠ none)
    (hgone : (run (before ++ between)).formulas[id]? = none) :
    (run (before ++ between ++ rest)).formulas[id]? = none := by
  rw [freshCount_append] at hroom
  obtain ⟨hmid, hnext⟩ := consistent_run (before ++ between) (by omega)
  rw [freshCount_append] at hnext hroom
  obtain ⟨hbefore, hfirst⟩ := consistent_run before (by omega)
  obtain ⟨f, hf⟩ := Option.ne_none_iff_exists'.1 hthere
  have hlt := UInt32.lt_iff_toNat_lt.1 (hbefore.numbered hf).2
  rw [run_append (before ++ between)]
  refine hmid.absent_foldl ?_ (UInt32.lt_iff_toNat_lt.2 (by omega)) hgone
  show (run (before ++ between)).nextId.toNat + freshCount (run (before ++ between)) rest < 2 ^ 32
  have hrest : freshCount (run (before ++ between)) rest =
      freshCount ((before ++ between).foldl step empty) rest := rfl
  omega

/-- A table answers as the map from cells to formulas that is made of the same actions, unless its
numbers run out. -/
theorem run_refines (actions : List Action) (hroom : empty.freshCount actions < 2 ^ 32 - 1) :
    Refines (run actions) actions := by
  have h := run_represents hroom
  exact {
    isSome_at? := h.isSome_idAt_iff
    at?_eq_iff := fun hf hg => h.idAt_eq_iff hf hg
    -- An entry has a number as long as a cell holds its key, and the numbers that are found by way
    -- of the cell and by way of the key are the same.
    lookup?_eq_some_iff := by
      intro f id
      constructor
      · intro hkey
        obtain ⟨cell, g, hg, hgf⟩ := h.keyHeld_iff.2 ⟨id, hkey⟩
        exact ⟨cell, g, hg, hgf, (h.idAt_iff hkey).2 ⟨g, hg, hgf⟩⟩
      · rintro ⟨cell, g, hg, hgf, hid⟩
        rw [at?, h.idAt_eq hg, hgf] at hid
        exact hid
    lookup?_eq_none_iff := by
      intro f
      rw [lookup?, Option.eq_none_iff_forall_ne_some]
      constructor
      · intro hnone cell g hg hgf
        obtain ⟨id, hkey, -⟩ := h.exists_id hg
        exact hnone id (hgf ▸ hkey)
      · intro hnone id hkey
        obtain ⟨cell, g, hg, hgf⟩ := h.keyHeld_iff.2 ⟨id, hkey⟩
        exact hnone cell g hg hgf
    get?_eq_some_iff := get?_run_eq_some_iff hroom
    mem_cellsOf_iff := by
      intro cell d id f hf hid
      have hkey : (run actions).ids[f.key]? = some id := (h.idAt_eq hf).symm.trans hid
      rw [mem_cellsOf, ← h.consistent.placed, h.idAt_iff hkey]
    nodup_cellsOf := nodup_cellsOf
    pairwise_cellsOf := pairwise_cellsOf
    size_eq := h.size_eq
    release_fst := h.release_fst
    gone := by
      -- numbers only grow, so one that has been given out is not given out again
      rintro before between rest id rfl hthere hgone
      have habsent := formulas_run_of_gone hroom hthere hgone
      exact ⟨habsent, h.consistent.answers_of_absent habsent⟩ }

/-- The formula of one cell is put into another under another spacing, replaced in both, and put
back after its entry has gone. -/
theorem run_refines_replaced :
    let formula text := Formula.parse (.ofLocale {}) .valueOrExpression text
    let a1 : Cell := ⟨⟨1, false, by decide, by decide⟩, ⟨1, false, by decide, by decide⟩⟩
    let b1 : Cell := ⟨⟨2, false, by decide, by decide⟩, ⟨1, false, by decide, by decide⟩⟩
    let actions := [Action.intern (formula "=sum(c1,2)") b1, .intern (formula "=sum(c1, 2)") a1,
      .intern (formula "=c1") a1, .intern (formula "=c1") b1, .intern (formula "=sum(c1, 2)") a1]
    empty.freshCount actions < 2 ^ 32 - 1 ∧ Refines (run actions) actions := by
  intro formula a1 b1 actions
  have hroom : empty.freshCount actions < 2 ^ 32 - 1 :=
    Nat.lt_of_le_of_lt (freshCount_le_length empty actions) (by decide)
  exact ⟨hroom, run_refines actions hroom⟩

end Table

end SheetFormula
