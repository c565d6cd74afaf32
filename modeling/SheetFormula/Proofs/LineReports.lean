import Mathlib.Data.List.Dedup
import SheetFormula.Command.Run
import SheetFormula.Proofs.LabelTracking
import SheetFormula.Proofs.ReferenceTexts

/-!
# Which lines of an input share a formula

The lines of an input go into the cells of the first column from the top, and every line is reported
with the number of the entry of its formula.  A table whose cells are filled in this order numbers
its entries without gaps in the order in which their keys come up, `HasRead`, and no entry is ever
removed.  So the numbers follow from the keys of the lines alone: a key that is new gets one more
than there are keys before it, and any other the number it has (`AreNumbers`, `parseLines_numbers`).
-/

namespace SheetFormula

/-! ### Numbers in order of appearance -/

/-- The number of a key: one more than there are other keys in front of its first place. -/
def entryNumber (keys : List Text) (key : Text) : Nat :=
  1 + (keys.takeWhile (· ≠ key)).dedup.length

/-- Keys with their numbers: a key that is new gets one more than there are keys before it, and a
key that was there before has the number it had. -/
structure AreNumbers (keys : List Text) (ids : List Nat) : Prop where
  length_eq : ids.length = keys.length
  fresh {i : Nat} {key : Text} : keys[i]? = some key → key ∉ keys.take i →
    ids[i]? = some (1 + (keys.take i).dedup.length)
  shared {i j : Nat} {key : Text} : j < i → keys[i]? = some key → keys[j]? = some key →
    ids[i]? = ids[j]?

section Numbers

variable {keys rest : List Text} {key : Text} {ids : List Nat}

theorem entryNumber_of_not_mem (h : key ∉ keys) :
    entryNumber keys key = 1 + keys.dedup.length := by
  have hall : ∀ k ∈ keys, decide (k ≠ key) = true := by
    intro k hk
    rw [decide_eq_true_eq]
    rintro rfl
    exact h hk
  rw [entryNumber, List.takeWhile_eq_self_iff.2 hall]

/-- What comes behind a key does not change its number. -/
theorem entryNumber_append_cons (keys rest : List Text) (key : Text) :
    entryNumber (keys ++ key :: rest) key = entryNumber keys key := by
  rw [entryNumber, entryNumber, List.takeWhile_append]
  split_ifs with hall
  · rw [List.takeWhile_cons_of_neg (by simp), List.append_nil,
      List.takeWhile_eq_self_iff.2 fun k hk => ?_]
    rw [← (List.takeWhile_prefix _).eq_of_length hall] at hk
    exact (List.mem_takeWhile_imp hk :)
  · rfl

theorem entryNumber_append (h : key ∈ keys) :
    entryNumber (keys ++ rest) key = entryNumber keys key := by
  obtain ⟨before, after, rfl⟩ := List.append_of_mem h
  rw [List.append_assoc, List.cons_append, entryNumber_append_cons, entryNumber_append_cons]

theorem length_dedup_concat :
    (keys ++ [key]).dedup.length = keys.dedup.length + (if key ∈ keys then 0 else 1) := by
  have hperm : (keys ++ [key]).dedup.length = (key :: keys).dedup.length :=
    (List.perm_append_singleton key keys).dedup.length_eq
  rw [hperm]
  split_ifs with h
  · rw [List.dedup_cons_of_mem h, Nat.add_zero]
  · rw [List.dedup_cons_of_notMem h, List.length_cons]

/-- A place of a key has the number of its first place. -/
theorem AreNumbers.getElem?_eq (h : AreNumbers keys ids) {i : Nat} (hi : keys[i]? = some key) :
    ids[i]? = some (entryNumber keys key) := by
  -- the first place of the key
  obtain ⟨before, after, hkeys, hfirst⟩ :=
    List.eq_append_cons_of_mem (List.mem_of_getElem? hi)
  have hat : keys[before.length]? = some key := by
    rw [hkeys, List.getElem?_append_right (Nat.le_refl _), Nat.sub_self]
    rfl
  have hbefore : keys.take before.length = before := by rw [hkeys, List.take_left]
  have hnumber : ids[before.length]? = some (entryNumber keys key) := by
    rw [h.fresh hat (by rwa [hbefore]), hbefore, hkeys, entryNumber_append_cons,
      entryNumber_of_not_mem hfirst]
  rcases Nat.lt_trichotomy before.length i with hlt | rfl | hlt
  · rw [h.shared hlt hi hat, hnumber]
  · exact hnumber
  · have hmem : key ∈ keys.take before.length := by
      rw [← List.getElem?_take_of_lt hlt] at hi
      exact List.mem_of_getElem? hi
    rw [hbefore] at hmem
    exact absurd hmem hfirst

/-- The numbers of keys follow from the keys. -/
theorem areNumbers_iff : AreNumbers keys ids ↔ ids = keys.map (entryNumber keys) := by
  constructor
  · intro h
    refine List.ext_getElem? fun i => ?_
    cases hi : keys[i]? with
    | none =>
      have hlength := List.getElem?_eq_none_iff.1 hi
      rw [List.getElem?_map, hi, List.getElem?_eq_none_iff.2 (h.length_eq ▸ hlength)]
      rfl
    | some key =>
      rw [h.getElem?_eq hi, List.getElem?_map, hi]
      rfl
  · rintro rfl
    refine ⟨List.length_map _, fun {i key} hi hnew => ?_, fun _ hi hj => ?_⟩
    · obtain ⟨hlt, hget⟩ := List.getElem?_eq_some_iff.1 hi
      have hkeys : keys = keys.take i ++ key :: keys.drop (i + 1) := by
        rw [← hget, ← List.drop_eq_getElem_cons hlt, List.take_append_drop]
      rw [List.getElem?_map, hi, Option.map_some]
      conv_lhs => rw [hkeys, entryNumber_append_cons]
      rw [entryNumber_of_not_mem hnew]
    · rw [List.getElem?_map, List.getElem?_map, hi, hj]

end Numbers

/-! ### What a table has read -/

/-- A table has been filled with formulas of these keys, one in each row from the top. -/
structure HasRead (t : Table) (keys : List Text) : Prop where
  consistent : t.Consistent
  numbered {key : Text} {id : FormulaId} :
    t.ids[key]? = some id ↔ key ∈ keys ∧ id.toNat = entryNumber keys key
  nextId : t.nextId.toNat = 1 + keys.dedup.length
  size : t.size = keys.dedup.length
  free {cell : Cell} : keys.length < cell.row.number → t.idAt[cell]? = none

theorem hasRead_empty : HasRead .empty [] where
  consistent := Table.consistent_empty
  numbered := by simp [Table.empty]
  nextId := rfl
  size := by simp [Table.size, Table.empty]
  free _ := by simp [Table.empty]

namespace HasRead

variable {t : Table} {keys : List Text} {f : Formula} {cell : Cell}

theorem exists_id (h : HasRead t keys) (hroom : keys.length < maxRow) {key : Text}
    (hkey : key ∈ keys) : ∃ id, t.ids[key]? = some id := by
  have hnumber : entryNumber keys key < 2 ^ 32 := by
    have hfront := (List.dedup_sublist (keys.takeWhile (· ≠ key))).length_le
    have hall := (List.takeWhile_prefix (p := (· ≠ key)) (l := keys)).length_le
    simp only [entryNumber, maxRow] at hroom ⊢
    omega
  exact ⟨_, h.numbered.2 ⟨hkey, UInt32.toNat_ofNat_of_lt hnumber⟩⟩

/-- A key that is there shares its entry with the next cell. -/
theorem share (h : HasRead t keys) (hcell : cell.row.number = keys.length + 1) {id : FormulaId}
    (hid : t.ids[f.key]? = some id) :
    t.intern f cell = (id, t.share id cell) ∧ HasRead (t.share id cell) (keys ++ [f.key]) := by
  have hkey := (h.numbered.1 hid).1
  have hfree : t.idAt[cell]? = none := h.free (by omega)
  obtain ⟨g, hg, -⟩ := h.consistent.keyed.1 hid
  have hne : t.idAt.getD cell 0 ≠ id := by
    rw [Std.HashMap.getD_eq_getD_getElem?, hfree]
    exact (h.consistent.numbered hg).1.symm
  -- A key that is there adds nothing to the keys, to their numbers or to the size.
  refine ⟨by rw [Table.intern_shared hid hne, Table.release_of_none hfree],
    h.consistent.share hfree hg, fun {key x} => ?_, ?_, ?_, fun {d} hd => ?_⟩
  · have hids : (t.share id cell).ids = t.ids := rfl
    rw [hids, h.numbered, List.mem_append, List.mem_singleton]
    constructor
    · rintro ⟨hmem, hx⟩
      exact ⟨.inl hmem, by rw [hx, entryNumber_append hmem]⟩
    · rintro ⟨hmem | rfl, hx⟩
      · exact ⟨hmem, by rw [hx, entryNumber_append hmem]⟩
      · exact ⟨hkey, by rw [hx, entryNumber_append hkey]⟩
  · rw [length_dedup_concat, if_pos hkey]
    exact h.nextId
  · rw [length_dedup_concat, if_pos hkey]
    exact h.size
  · rw [List.length_append, List.length_singleton] at hd
    have hother : cell ≠ d := by
      rintro rfl
      omega
    have hidAt : (t.share id cell).idAt[d]? = if cell = d then some id else t.idAt[d]? := by
      refine (Std.HashMap.getElem?_insert ..).trans ?_
      simp only [beq_iff_eq]
    rw [hidAt, if_neg hother]
    exact h.free (by omega)

/-- A key that is new gets the next number. -/
theorem enter (h : HasRead t keys) (hcell : cell.row.number = keys.length + 1)
    (hkey : f.key ∉ keys) :
    t.intern f cell = (t.nextId, t.enter f cell) ∧ HasRead (t.enter f cell) (keys ++ [f.key]) := by
  have hfree : t.idAt[cell]? = none := h.free (by omega)
  have hid : t.ids[f.key]? = none := by
    refine Option.eq_none_iff_forall_ne_some.2 fun id hid => hkey (h.numbered.1 hid).1
  have hnumber : entryNumber (keys ++ [f.key]) f.key = t.nextId.toNat := by
    rw [entryNumber_append_cons, entryNumber_of_not_mem hkey, h.nextId]
  have hroom : t.nextId.toNat + 1 < 2 ^ 32 := by
    have hle := (List.dedup_sublist keys).length_le
    have hrow := cell.row.le_max
    rw [h.nextId]
    simp only [maxRow] at hrow
    omega
  -- The new key is the last one; the numbers of those before it stay, since they are counted from
  -- the front.
  refine ⟨by rw [Table.intern_fresh hid, Table.release_of_none hfree],
    h.consistent.enter hfree hid hroom, fun {key x} => ?_, ?_, ?_, fun {d} hd => ?_⟩
  · rw [Table.enter_ids, Std.HashMap.getElem?_insert, List.mem_append, List.mem_singleton]
    by_cases heq : f.key = key
    · subst heq
      simp only [beq_self_eq_true, if_true, Option.some.injEq, hnumber, or_true, true_and]
      exact ⟨fun h => by rw [h], fun h => UInt32.toNat_inj.1 h.symm⟩
    · rw [if_neg (by simpa using heq), h.numbered]
      constructor
      · rintro ⟨hmem, hx⟩
        exact ⟨.inl hmem, by rw [hx, entryNumber_append hmem]⟩
      · rintro ⟨hmem | rfl, hx⟩
        · exact ⟨hmem, by rw [hx, entryNumber_append hmem]⟩
        · exact absurd rfl heq
  · rw [length_dedup_concat, if_neg hkey, Table.toNat_enter_nextId hroom, h.nextId,
      Nat.add_assoc]
  · have hsize : (t.enter f cell).size = t.size + 1 := by
      rw [Table.size, Table.enter, Table.foldl_addLabel]
      show (t.formulas.insert t.nextId f).size = _
      rw [Std.HashMap.size_insert, if_neg]
      · rfl
      · rw [← Std.HashMap.isSome_getElem?_iff_mem, h.consistent.formulas_nextId]
        exact Bool.false_ne_true
    rw [hsize, h.size, length_dedup_concat, if_neg hkey]
  · rw [List.length_append, List.length_singleton] at hd
    rw [Table.enter_idAt, Std.HashMap.getElem?_insert, if_neg]
    · exact h.free (by omega)
    · rw [beq_iff_eq]
      rintro rfl
      omega

/-- The formula in the next row gets the number of its key. -/
theorem intern (h : HasRead t keys) (f : Formula) (cell : Cell)
    (hcell : cell.row.number = keys.length + 1) :
    (t.intern f cell).1.toNat = entryNumber keys f.key ∧
      HasRead (t.intern f cell).2 (keys ++ [f.key]) := by
  by_cases hkey : f.key ∈ keys
  · have hrow := cell.row.le_max
    obtain ⟨id, hid⟩ := h.exists_id (by omega) hkey
    obtain ⟨hshare, hread⟩ := h.share hcell hid
    rw [hshare]
    exact ⟨(h.numbered.1 hid).2, hread⟩
  · obtain ⟨henter, hread⟩ := h.enter hcell hkey
    rw [henter]
    exact ⟨by rw [h.nextId, entryNumber_of_not_mem hkey], hread⟩

end HasRead

/-! ### Reports -/

section Reports

variable {g : Grammar} {p : Parser} {line : Text} {lines : List Text}

/-- What is shown behind the text of a line that cannot be parsed: the code and the message of its
error.  A line without text is not parsed. -/
def shownError (g : Grammar) (p : Parser) (line : Text) : List Text :=
  if line.isEmpty then []
  else match g.parse p line with
    | .ok _ => []
    | .error failure => ["\t", failure.cellError.code.text, " ", failure.cellError.message]

/-- What is shown of the line in row `row` of the first column. -/
def shownLine (g : Grammar) (p : Parser) (row id : Nat) (line : Text) : Text :=
  .join ("A" :: .ofNat row :: "\t" :: .ofNat id :: "\t" :: line ::
    (shownError g p line ++ [.ofString "\n"]))

/-- The keys of lines. -/
def lineKeys (g : Grammar) (p : Parser) (lines : List Text) : List Text :=
  lines.map fun line => (Formula.parse g p (dropReturn line)).key

/-- What is shown of lines with these numbers, the first of them in row `row`. -/
def shownLines (g : Grammar) (p : Parser) (row : Nat) (lines : List Text) (ids : List Nat) :
    List Text :=
  List.zipWith (fun line id => shownLine g p line.2 id (dropReturn line.1)) (lines.zipIdx row) ids

theorem fullText_parse : (Formula.parse g p line).fullText = line := by
  rw [Formula.parse]
  split_ifs with hempty
  · rfl
  · cases g.parse p line with
    | error failure => rfl
    | ok token => exact if_neg hempty

/-- The cell in a row of the first column. -/
theorem exists_cell {n : Nat} (hlow : 1 ≤ n) (hhigh : n ≤ maxRow) :
    ∃ column row, Column.ofInt 1 false = .ok column ∧ Row.ofInt n false = .ok row ∧
      row.number = n ∧
        ∀ ts, Text.join (Cell.text ⟨column, row⟩ :: ts) = .join ("A" :: .ofNat n :: ts) := by
  have hrow : Row.ofInt n false = .ok ⟨n, false, hlow, hhigh⟩ := by
    rw [Row.ofInt, Int.toNat_natCast, Row.ofNumber?, dif_pos ⟨hlow, hhigh⟩]
  have hcolumn : columnLetters 1 = ['A'] := rfl
  refine ⟨⟨1, false, by decide, by decide⟩, _, rfl, hrow, rfl, fun ts => ?_⟩
  rw [Cell.text, Column.text, hcolumn]
  exact congrArg Text.mk (List.append_assoc ..)

theorem lineReport_eq {cell : Cell} {row : Nat}
    (hcell : ∀ ts, Text.join (cell.text :: ts) = .join ("A" :: .ofNat row :: ts))
    (id : FormulaId) :
    lineReport cell id (Formula.parse g p line) = shownLine g p row id.toNat line := by
  rw [lineReport, fullText_parse, shownLine, shownError, Formula.parse]
  split_ifs
  · exact hcell _
  · cases g.parse p line with
    | ok token => exact hcell _
    | error failure => exact hcell _

/-- Lines that are read into a table in which formulas with the given keys are. -/
theorem parseLines_eq {t : Table} {keys : List Text} (h : HasRead t keys)
    (hcount : keys.length + lines.length ≤ maxRow) (hshort : ∀ line ∈ lines, line.size < lineLimit)
    (printed : List Text) :
    parseLines g p t (keys.length + 1) printed lines =
      ⟨.join (printed.reverse ++ (shownLines g p (keys.length + 1) lines
          ((lineKeys g p lines).map (entryNumber (keys ++ lineKeys g p lines))) ++
        [.ofNat (keys ++ lineKeys g p lines).dedup.length, .ofString " distinct formulas\n"])),
        none⟩ := by
  -- By induction on the lines that are left: `keys` are those that have been read.
  induction lines generalizing t keys printed with
  | nil =>
    rw [parseLines, h.size]
    simp [lineKeys, shownLines]
  | cons line lines ih =>
    obtain ⟨hline, hlines⟩ := List.forall_mem_cons.1 hshort
    rw [List.length_cons] at hcount
    obtain ⟨column, row, hcolumn, hrow, hnumber, hcell⟩ :=
      exists_cell (n := keys.length + 1) (by omega) (by omega)
    obtain ⟨hid, hread⟩ := h.intern (Formula.parse g p (dropReturn line)) ⟨column, row⟩ hnumber
    have hlength (key : Text) : (keys ++ [key]).length = keys.length + 1 := List.length_append
    have hkeys : keys ++ lineKeys g p (line :: lines) =
        keys ++ [(Formula.parse g p (dropReturn line)).key] ++ lineKeys g p lines := by
      rw [List.append_assoc]
      rfl
    -- What is reported of a line is settled by the keys up to it, and later ones change nothing.
    have hshown : shownLines g p (keys.length + 1) (line :: lines)
        ((lineKeys g p (line :: lines)).map (entryNumber (keys ++ lineKeys g p (line :: lines)))) =
        lineReport ⟨column, row⟩ (t.intern (Formula.parse g p (dropReturn line)) ⟨column, row⟩).1
          (Formula.parse g p (dropReturn line)) ::
        shownLines g p (keys.length + 1 + 1) lines
          ((lineKeys g p lines).map (entryNumber (keys ++ lineKeys g p (line :: lines)))) := by
      rw [lineReport_eq hcell, hid, ← entryNumber_append_cons _ (lineKeys g p lines)]
      rfl
    have hrest := ih hread (by rw [hlength]; omega) hlines
      (lineReport ⟨column, row⟩ (t.intern (Formula.parse g p (dropReturn line)) ⟨column, row⟩).1
        (Formula.parse g p (dropReturn line)) :: printed)
    rw [hlength, ← hkeys] at hrest
    rw [parseLines, if_neg (Nat.not_le.2 hline), hcolumn, hrow, hshown]
    refine hrest.trans ?_
    rw [List.reverse_cons, List.append_assoc]
    rfl

/-- What is printed of at most as many short lines as there are rows: every line with its cell, the
number of its entry and its text, and with its error if it cannot be parsed; behind them the number
of keys.  The keys of the lines alone say what the numbers are. -/
theorem parseLines_numbers (g : Grammar) (p : Parser) (lines : List Text)
    (hcount : lines.length ≤ maxRow) (hshort : ∀ line ∈ lines, line.size < lineLimit) :
    ∃! ids, AreNumbers (lineKeys g p lines) ids ∧
      parseLines g p .empty 1 [] lines =
        ⟨.join (shownLines g p 1 lines ids ++
          [.ofNat (lineKeys g p lines).dedup.length, .ofString " distinct formulas\n"]), none⟩ := by
  refine ⟨(lineKeys g p lines).map (entryNumber (lineKeys g p lines)), ⟨areNumbers_iff.2 rfl, ?_⟩,
    fun ids h => areNumbers_iff.1 h.1⟩
  exact parseLines_eq hasRead_empty (by simpa using hcount) hshort []

/-- Blanks make no other formula; a line that cannot be parsed and a line without text are formulas
of their own. -/
theorem parseLines_numbers_respaced :
    parseLines .american .valueOrExpression .empty 1 []
        ["=A1+1", "= A1 + 1\r", "=1+", "", "=A1 +1", "=1+"] =
      ⟨.join ["A1\t1\t=A1+1\n", "A2\t1\t= A1 + 1\n",
        "A3\t2\t=1+\t#ERROR! End of text at (4)\n", "A4\t3\t\n", "A5\t1\t=A1 +1\n",
        "A6\t2\t=1+\t#ERROR! End of text at (4)\n", "3 distinct formulas\n"], none⟩ := by
  obtain ⟨ids, ⟨hids, hreport⟩, -⟩ := parseLines_numbers .american .valueOrExpression
    ["=A1+1", "= A1 + 1\r", "=1+", "", "=A1 +1", "=1+"] (by decide) (by decide)
  obtain rfl : ids = [1, 1, 2, 3, 1, 2] := by
    rw [areNumbers_iff.1 hids]
    decide +kernel
  rw [hreport]
  refine congrArg (Report.mk · none) ?_
  decide +kernel

end Reports

/-! ### Lines of an input -/

/-- Lines with a line feed behind each are cut apart again. -/
theorem linesOf_join {lines : List Text} (h : ∀ line ∈ lines, 10 ∉ line.bytes) :
    linesOf (.join (lines.map (· ++ "\n"))) = lines := by
  have hsplit : (Text.join (lines.map (· ++ "\n"))).bytes.splitOn 10 =
      lines.map Text.bytes ++ [[]] := by
    induction lines with
    | nil => rfl
    | cons line lines ih =>
      obtain ⟨hline, hlines⟩ := List.forall_mem_cons.1 h
      have hbytes : (Text.join ((line :: lines).map (· ++ "\n"))).bytes =
          line.bytes ++ 10 :: (Text.join (lines.map (· ++ "\n"))).bytes :=
        List.append_assoc ..
      rw [hbytes, List.splitOn, List.splitOnP_append_cons_of_forall_mem, ← List.splitOn, ih hlines]
      · rfl
      · exact fun b hb => beq_eq_false_iff_ne.2 fun heq => hline (heq ▸ hb)
      · rfl
  have hlast : (lines.map Text.bytes ++ [[]]).getLast? = some [] := List.getLast?_concat
  rw [linesOf, hsplit, if_pos hlast, List.dropLast_concat, List.map_map]
  exact List.map_id' lines

end SheetFormula
