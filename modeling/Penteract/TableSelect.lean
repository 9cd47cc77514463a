/-
# Selections

A selection reads what is stored for the columns of a row.  What it returns is given column by column,
for both layouts, and for every state of the records: a record can be missing or, in a transaction that
has declared its key, empty.
-/
import Penteract.TableRows

namespace Slog.Benchx

open List Option KeyValue.Program Bytes
open KeyValue (Program)
open KeyValueExecution (find)

namespace Schema

variable {S : Schema} {lookup : Key → Option Value} {pkey : List Scalar} {bytes : List Char}
  {columns : List S.Column} {c : S.Column} {v : Scalar}

/-- The storage keys of the row whose keys start with `bytes`. -/
def keysOf (S : Schema) (bytes : List Char) : Set Key :=
  if S.grouped then {String.ofList bytes}
  else {key | ∃ c : S.Column, S.isPkey c = false ∧ key = String.ofList (bytes ++ [Char.ofNat c.val])}

theorem select_readsOnly (hkey : S.keyBytes pkey = some bytes) (columns : List S.Column) :
    (S.select pkey columns).ReadsOnly (S.keysOf bytes) := by
  have hreads : ∀ key ∈ S.readKeys bytes columns, key ∈ S.keysOf bytes := by
    intro key hmem
    rw [readKeys] at hmem
    rw [keysOf]
    split_ifs at hmem ⊢
    · exact mem_singleton.mp hmem
    · obtain ⟨c, hc, rfl⟩ := mem_map.mp hmem
      exact ⟨c, by simpa using (mem_filter.mp hc).2, rfl⟩
  refine (select_within hkey columns).mono ?_ fun _ _ => trivial
  rintro access ⟨key, hmem, rfl⟩
  exact ⟨key, hreads key hmem, rfl⟩

/-- The values of the records. -/
def lookupIn (storage : Storage) (key : Key) : Option Value := (storage key).map Record.value

/-- A table whose columns are not grouped finds a row by its other columns only. -/
def Selectable (S : Schema) (columns : List S.Column) : Prop :=
  S.grouped = true ∨ columns = [] ∨ ∃ c ∈ columns, S.isPkey c = false

/-- What is stored for a column of the row whose keys start with `bytes`. -/
def cell (S : Schema) (lookup : Key → Option Value) (pkey : List Scalar) (bytes : List Char)
    (c : S.Column) : Option Scalar :=
  if S.isPkey c then pkey[c.val]?
  else if S.grouped then (lookup (String.ofList bytes)).bind fun value =>
    makeScalar (S.type c) ((value.toList ++ ['\x00']).drop (S.columnOffset c))
  else (lookup (keyAt bytes c)).bind fun value =>
    if value = "" then none else makeScalar (S.type c) (value.toList ++ ['\x00'])

/-- The columns that are returned: all of them if none are given. -/
def orAll (columns : List S.Column) : List S.Column :=
  if columns = [] then List.finRange S.columnTypes.length else columns

theorem orAll_ne_nil : orAll columns ≠ [] := by
  rw [orAll]
  split_ifs with hnil
  · exact ne_nil_of_length_pos (by simpa using S.pkeySize_pos.trans S.pkeySize_lt)
  · exact hnil

theorem mem_orNonPkey_of_orAll (h : c ∈ orAll columns) (hc : S.isPkey c = false) :
    c ∈ S.orNonPkey columns := by
  rw [orAll] at h
  rw [orNonPkey]
  split_ifs at h ⊢
  · exact mem_nonPkeyColumns.mpr hc
  · exact h

theorem cell_pkey (hle : S.pkeySize ≤ pkey.length) (hc : S.isPkey c = true) :
    ∃ v ∈ pkey, pkey[c.val]? = some v ∧ ∀ lookup bytes, S.cell lookup pkey bytes c = some v := by
  have hlt : c.val < pkey.length := (isPkey_eq_true.mp hc).trans_le hle
  have hget := List.getElem?_eq_getElem hlt
  exact ⟨_, getElem_mem hlt, hget, fun _ _ => (if_pos hc).trans hget⟩

/-- What is read is always a value of the type of the column. -/
theorem fits_of_cell (hc : S.isPkey c = false) (hcell : S.cell lookup pkey bytes c = some v) :
    v.Fits (S.type c) := by
  rw [cell, hc, if_neg Bool.false_ne_true] at hcell
  split_ifs at hcell
  all_goals obtain ⟨value, -, hvalue⟩ := Option.bind_eq_some_iff.mp hcell
  · exact Scalar.fits_of_makeScalar hvalue
  · split_ifs at hvalue
    exact Scalar.fits_of_makeScalar hvalue

/-- A primary key is put in front if no columns are given. -/
theorem mapM_cell_orAll (hlength : pkey.length = S.pkeySize) :
    (orAll columns).mapM (S.cell lookup pkey bytes) =
      ((S.orNonPkey columns).mapM (S.cell lookup pkey bytes)).map
        ((if columns = [] then pkey else []) ++ ·) := by
  rw [orAll, orNonPkey]
  split_ifs
  · have hpkey : S.pkeyColumns.mapM (S.cell lookup pkey bytes) = some pkey := by
      have hget : ∀ c ∈ S.pkeyColumns, S.cell lookup pkey bytes c = some (pkey.getD c.val emptyFixedTextScalar) := by
        intro c hc
        obtain ⟨v, -, hget, hcell⟩ := cell_pkey hlength.ge
          (mem_pkeyColumns.mp hc)
        rw [hcell, getD_eq_getElem?_getD, hget, Option.getD_some]
      rw [mapM_of_forall hget, pkeyColumns, some_inj]
      refine ext_getElem (by simp [hlength, S.pkeySize_lt.le]) fun i hi hi' => ?_
      simp [getD_eq_getElem?_getD, List.getElem?_eq_getElem hi']
    conv_lhs => rw [← take_append_drop S.pkeySize (List.finRange _), mapM_append]
    rw [pkeyColumns] at hpkey
    rw [hpkey, nonPkeyColumns, map_eq_bind]
    rfl
  · simp

theorem eval_selectGrouped (hkey : S.keyBytes pkey = some bytes) (hlength : pkey.length = S.pkeySize)
    (hgrouped : S.grouped = true) : (S.select pkey columns).eval lookup =
      if lookup (String.ofList bytes) = none then some []
      else (orAll columns).mapM (S.cell lookup pkey bytes) := by
  rw [select, if_pos hgrouped, mapM_cell_orAll hlength]
  simp only [selectGrouped, makeStorageKey, hkey, Option.map_some, eval_bind,
    eval_ofOption, bind_some, eval_read]
  cases hlookup : lookup (String.ofList bytes) with
  | none => rfl
  | some value =>
    have hcell : S.cell lookup pkey bytes = fun c => if S.isPkey c then pkey[c.val]? else
        makeScalar (S.type c) ((value.toList ++ ['\x00']).drop (S.columnOffset c)) := by
      funext c
      rw [cell, hgrouped, hlookup, if_pos rfl, bind_some]
    rw [if_neg (by simp), hcell, orNonPkey]
    split_ifs
    · rw [eval_bind, eval_ofOption, map_eq_bind]
      rfl
    · simp

/-- No value is found for the column. -/
def Missing (lookup : Key → Option Value) (bytes : List Char) (c : S.Column) : Prop :=
  ∀ value ∈ lookup (keyAt bytes c), value = ""

instance : Decidable (Missing lookup bytes c) :=
  inferInstanceAs (Decidable (∀ value ∈ lookup (keyAt bytes c), value = ""))

theorem length_orAll (hlength : pkey.length = S.pkeySize) : (orAll columns).length =
    (if columns = [] then pkey else []).length + (S.orNonPkey columns).length := by
  rw [orAll, orNonPkey]
  split_ifs
  · rw [nonPkeyColumns, length_drop, length_finRange, hlength,
      Nat.add_sub_cancel' S.pkeySize_lt.le]
  · simp

section Ungrouped

variable (hkey : S.keyBytes pkey = some bytes) (hgrouped : S.grouped = false)

include hkey hgrouped

theorem eval_selectUngrouped : (S.select pkey columns).eval lookup =
    ((S.orNonPkey columns).mapM fun c =>
      (S.selectColumn pkey (keyAt bytes c, c)).eval lookup).map fun result =>
        if (result.zip (S.orNonPkey columns)).any (fun e => e.1.isSome && !S.isPkey e.2) then
          (if columns = [] then pkey else []) ++ result.reduceOption
        else [] := by
  rw [select, if_neg (by simp [hgrouped]), selectUngrouped, makeStorageKeys, hkey, Option.map_some,
    ofOption_some, pure_bind, eval_bind, ← List.map_prod_right_eq_zip, mapM_map,
    eval_mapM, map_eq_bind]
  congr 1
  funext result
  rw [apply_ite (Program.eval lookup)]
  exact (apply_ite some _ _ _).symm

theorem eval_selectColumn : (S.selectColumn pkey (keyAt bytes c, c)).eval lookup =
    if S.isPkey c = false ∧ Missing lookup bytes c then some none
    else (S.cell lookup pkey bytes c).map some := by
  cases hc : S.isPkey c with
  | true =>
    obtain ⟨v, -, hget, hcell⟩ := cell_pkey (le_length_of_keyBytes hkey) hc
    simp [selectColumn, hc, hget, hcell]
  | false =>
    rw [selectColumn, cell, hc, hgrouped]
    cases hlookup : lookup (keyAt bytes c) with
    | none => simp [Missing, hlookup]
    | some value => by_cases hempty : value = "" <;> simp [Missing, hlookup, hempty, map_eq_bind]

/-- No value is found. -/
theorem eval_select_of_forall_missing
    (h : ∀ c ∈ S.orNonPkey columns, S.isPkey c = false → Missing lookup bytes c) :
    (S.select pkey columns).eval lookup = some [] := by
  have hcolumn : ∀ c ∈ S.orNonPkey columns, (S.selectColumn pkey (keyAt bytes c, c)).eval lookup =
      some (if S.isPkey c then pkey[c.val]? else none) := by
    intro c hmem
    rw [eval_selectColumn hkey hgrouped]
    cases hc : S.isPkey c with
    | true =>
      obtain ⟨v, -, hget, hcell⟩ := cell_pkey (le_length_of_keyBytes hkey) hc
      simp [hget, hcell]
    | false => simp [h c hmem hc]
  rw [eval_selectUngrouped hkey hgrouped, mapM_of_forall hcolumn, Option.map_some,
    ← List.map_prod_right_eq_zip, List.any_map, if_neg]
  rw [List.any_eq_true]
  rintro ⟨c, -, hc⟩
  cases hpkey : S.isPkey c <;> simp [hpkey] at hc

variable (hlength : pkey.length = S.pkeySize)

include hlength

/-- All values are found. -/
theorem eval_select_of_complete (hselectable : S.Selectable columns)
    (h : ∀ c ∈ orAll columns, (S.cell lookup pkey bytes c).isSome) :
    (S.select pkey columns).eval lookup = (orAll columns).mapM (S.cell lookup pkey bytes) := by
  have hsub : ∀ c ∈ S.orNonPkey columns, c ∈ orAll columns := by
    intro c hc
    rw [orNonPkey] at hc
    rw [orAll]
    split_ifs at hc ⊢
    · exact List.mem_finRange c
    · exact hc
  have hcell : ∀ c ∈ S.orNonPkey columns,
      S.cell lookup pkey bytes c = some ((S.cell lookup pkey bytes c).getD emptyFixedTextScalar) := by
    intro c hc
    obtain ⟨v, hv⟩ := Option.isSome_iff_exists.mp (h c (hsub c hc))
    rw [hv, Option.getD_some]
  have hcolumn : ∀ c ∈ S.orNonPkey columns, (S.selectColumn pkey (keyAt bytes c, c)).eval lookup =
      some (some ((S.cell lookup pkey bytes c).getD emptyFixedTextScalar)) := by
    intro c hc
    rw [eval_selectColumn hkey hgrouped, if_neg, hcell c hc]
    · rfl
    · rintro ⟨hpkey, hmissing⟩
      obtain ⟨v, hv⟩ := Option.isSome_iff_exists.mp (h c (hsub c hc))
      rw [cell, hpkey, hgrouped] at hv
      obtain ⟨value, hvalue, hv⟩ := Option.bind_eq_some_iff.mp hv
      simp [hmissing value hvalue] at hv
  rw [mapM_cell_orAll hlength, mapM_of_forall hcell, eval_selectUngrouped hkey hgrouped,
    mapM_of_forall hcolumn, Option.map_some, Option.map_some, ← List.map_prod_right_eq_zip, List.any_map,
    if_pos]
  · simp [List.reduceOption, List.filterMap_map]
  · obtain ⟨c, hc, hpkey⟩ : ∃ c ∈ S.orNonPkey columns, S.isPkey c = false := by
      rw [orNonPkey]
      split_ifs with hnil
      · have hpkey : S.isPkey ⟨S.pkeySize, S.pkeySize_lt⟩ = false := isPkey_eq_false.mpr le_rfl
        exact ⟨_, mem_nonPkeyColumns.mpr hpkey, hpkey⟩
      · exact ((hselectable.resolve_left (by simp [hgrouped])).resolve_left hnil)
    exact List.any_eq_true.mpr ⟨c, hc, by simp [hpkey]⟩

/-- A selection of as many scalars as columns has found all values. -/
theorem complete_of_eval_select {values : List Scalar}
    (heval : (S.select pkey columns).eval lookup = some values)
    (hvalues : values.length = (orAll columns).length) :
    S.Selectable columns ∧ ∀ c ∈ orAll columns, (S.cell lookup pkey bytes c).isSome := by
  rw [eval_selectUngrouped hkey hgrouped] at heval
  obtain ⟨result, hresult, heq⟩ := map_eq_some_iff.mp heval
  have hforall := forall₂_of_mapM hresult
  rw [length_orAll hlength] at hvalues
  cases hany : (result.zip (S.orNonPkey columns)).any (fun e => e.1.isSome && !S.isPkey e.2) with
  | false =>
    have hne : 0 < (orAll columns).length := length_pos_iff.mpr orAll_ne_nil
    rw [hany, if_neg Bool.false_ne_true] at heq
    rw [← heq, length_nil] at hvalues
    rw [length_orAll hlength] at hne
    omega
  | true =>
    rw [hany, if_pos rfl] at heq
    -- as many scalars as columns means that none was left out
    have hsome := reduceOption_length_eq_iff.mp <| by
      rw [← heq, length_append, hforall.length_eq] at hvalues
      exact Nat.add_left_cancel hvalues
    refine ⟨?_, fun c hc => ?_⟩
    · obtain ⟨⟨x, c⟩, hmem, hx⟩ := List.any_eq_true.mp hany
      have hc := (of_mem_zip hmem).2
      rw [orNonPkey] at hc
      split_ifs at hc with hnil
      · exact .inr (.inl hnil)
      · exact .inr (.inr ⟨c, hc, by simpa using (Bool.and_eq_true_iff.mp hx).2⟩)
    · cases hpkey : S.isPkey c with
      | true =>
        obtain ⟨v, -, -, hcell⟩ := cell_pkey hlength.ge hpkey
        rw [hcell, isSome_some]
      | false =>
        obtain ⟨x, hx, hcolumn⟩ := exists_of_forall₂ hforall.flip (mem_orNonPkey_of_orAll hc hpkey)
        obtain ⟨v, rfl⟩ := Option.isSome_iff_exists.mp (hsome x hx)
        rw [eval_selectColumn hkey hgrouped] at hcolumn
        split_ifs at hcolumn
        · cases hcolumn
        · obtain ⟨w, hw, -⟩ := map_eq_some_iff.mp hcolumn
          rw [hw, isSome_some]

end Ungrouped

/-- A selection of as many scalars as columns returns what is stored for them. -/
theorem mapM_cell_of_eval (hkey : S.keyBytes pkey = some bytes) (hlength : pkey.length = S.pkeySize)
    {values : List Scalar} (heval : (S.select pkey columns).eval lookup = some values)
    (hvalues : values.length = (orAll columns).length) :
    (orAll columns).mapM (S.cell lookup pkey bytes) = some values := by
  cases hgrouped : S.grouped with
  | false =>
    obtain ⟨hselectable, hcomplete⟩ := complete_of_eval_select hkey hgrouped hlength heval hvalues
    rw [← heval, eval_select_of_complete hkey hgrouped hlength hselectable hcomplete]
  | true =>
    rw [eval_selectGrouped hkey hlength hgrouped] at heval
    split_ifs at heval
    · rw [← some_inj.mp heval] at hvalues
      exact absurd (length_eq_zero_iff.mp hvalues.symm) orAll_ne_nil
    · exact heval

/-! ## Absent rows -/

/-- No value is stored for the row whose keys start with `bytes`. -/
def RowAbsent (S : Schema) (lookup : Key → Option Value) (bytes : List Char) : Prop :=
  if S.grouped then ∀ value ∈ lookup (String.ofList bytes), value = ""
  else ∀ c : S.Column, S.isPkey c = false → Missing lookup bytes c

/-- The tables of TPC-C have the same code, except that an empty value is a missing row. -/
def selectGroupedTpcc (S : Schema) (pkey : List Scalar) (columns : List S.Column) :
    StorageProgram (List Scalar) := do
  let key ← .ofOption (S.makeStorageKey pkey)
  match ← Program.read key with
  | none => return []
  | some value =>
    if value = "" then return []
    let data := value.toList ++ ['\x00']
    let column (c : S.Column) : Option Scalar :=
      if S.isPkey c then pkey[c.val]? else makeScalar (S.type c) (data.drop (S.columnOffset c))
    if columns = [] then return pkey ++ (← .ofOption (S.nonPkeyColumns.mapM column))
    else .ofOption (columns.mapM column)

def selectTpcc (S : Schema) (pkey : List Scalar) (columns : List S.Column) :
    StorageProgram (List Scalar) :=
  if S.grouped then S.selectGroupedTpcc pkey columns else S.selectUngrouped pkey columns

/-- Selections with the results `answer` and `answerTpcc` tell whether the row is there. -/
structure TellsRow (S : Schema) (lookup : Key → Option Value) (pkey : List Scalar)
    (columns : List S.Column) (answer answerTpcc : Option (List Scalar)) : Prop where
  absent : answer = some [] ↔ S.RowAbsent lookup (S.keyOf pkey)
  present : ¬ S.RowAbsent lookup (S.keyOf pkey) → ∃ values, answer = some values ∧
    Forall₂ (fun v c => v.Fits (S.type c)) values (orAll columns)
  tpcc : answerTpcc = answer

/-- A row that is absent has no empty value, and of a row that is there all columns are found. -/
def Tellable (S : Schema) (lookup : Key → Option Value) (pkey : List Scalar)
    (columns : List S.Column) : Prop :=
  (S.RowAbsent lookup (S.keyOf pkey) ∧
    (S.grouped = true → lookup (String.ofList (S.keyOf pkey)) = none)) ∨
  (¬ S.RowAbsent lookup (S.keyOf pkey) ∧ S.Selectable columns ∧
    ∀ c ∈ orAll columns, (S.cell lookup pkey (S.keyOf pkey) c).isSome)

theorem PkeyFits.fits_of_cell (h : S.PkeyFits pkey) (hcell : S.cell lookup pkey bytes c = some v) :
    v.Fits (S.type c) := by
  cases hc : S.isPkey c with
  | false => exact Schema.fits_of_cell hc hcell
  | true =>
    rw [cell, if_pos hc] at hcell
    obtain ⟨hlt, rfl⟩ := List.getElem?_eq_some_iff.mp hcell
    have hfits := (forall₂_iff_get.mp h).2 c.val hlt (Forall₂.length_eq h ▸ hlt)
    simpa [type] using hfits

theorem eval_selectTpcc : (S.selectTpcc pkey columns).eval lookup =
    if S.grouped = true ∧ ∃ bytes, S.keyBytes pkey = some bytes ∧ lookup (String.ofList bytes) = some ""
    then some [] else (S.select pkey columns).eval lookup := by
  rw [selectTpcc, select]
  cases S.grouped with
  | false => simp
  | true =>
    simp only [selectGroupedTpcc, selectGrouped, makeStorageKey, if_true, true_and, eval_bind,
      eval_ofOption]
    cases S.keyBytes pkey with
    | none => simp
    | some bytes =>
      simp only [Option.map_some, bind_some, eval_read, some_inj,
        exists_eq_left']
      cases lookup (String.ofList bytes) with
      | none => simp
      | some value => by_cases hempty : value = "" <;> simp [hempty]

theorem tellsRow_of_complete (hpkey : S.PkeyFits pkey)
    (habsent : ¬ S.RowAbsent lookup (S.keyOf pkey))
    (hcomplete : ∀ c ∈ orAll columns, (S.cell lookup pkey (S.keyOf pkey) c).isSome)
    {answer : Option (List Scalar)}
    (hanswer : answer = (orAll columns).mapM (S.cell lookup pkey (S.keyOf pkey))) :
    TellsRow S lookup pkey columns answer answer := by
  have hcell : ∀ c ∈ orAll columns, S.cell lookup pkey (S.keyOf pkey) c =
      some ((S.cell lookup pkey (S.keyOf pkey) c).getD emptyFixedTextScalar) := by
    intro c hc
    obtain ⟨v, hv⟩ := Option.isSome_iff_exists.mp (hcomplete c hc)
    rw [hv, Option.getD_some]
  have hvalues := mapM_of_forall hcell
  refine ⟨iff_of_false (fun hnil => ?_) habsent, fun _ => ⟨_, hanswer.trans hvalues, ?_⟩, rfl⟩
  · have hlength := length_of_mapM (hanswer.symm.trans hnil)
    exact orAll_ne_nil (length_eq_zero_iff.mp hlength.symm)
  · exact (forall₂_of_mapM hvalues).flip.imp fun v c hv => hpkey.fits_of_cell hv

theorem tellsRow_eval_iff (hpkey : S.PkeyFits pkey) (columns : List S.Column) :
    TellsRow S lookup pkey columns ((S.select pkey columns).eval lookup)
      ((S.selectTpcc pkey columns).eval lookup) ↔ S.Tellable lookup pkey columns := by
  have hkey := keyBytes_of_keyOk hpkey.keyOk
  have hlength := hpkey.length_eq
  simp only [eval_selectTpcc, hkey, some_inj, exists_eq_left']
  cases hgrouped : S.grouped with
  | false =>
    rw [if_neg (by simp)]
    constructor
    · intro h
      by_cases habsent : S.RowAbsent lookup (S.keyOf pkey)
      · exact .inl ⟨habsent, by simp [hgrouped]⟩
      · obtain ⟨values, heval, hfits⟩ := h.present habsent
        exact .inr ⟨habsent, complete_of_eval_select hkey hgrouped hlength heval hfits.length_eq⟩
    · rintro (⟨habsent, -⟩ | ⟨habsent, hselectable, hcomplete⟩)
      · have hmissing := habsent
        rw [RowAbsent, hgrouped, if_neg Bool.false_ne_true] at hmissing
        rw [eval_select_of_forall_missing hkey hgrouped fun c _ => hmissing c]
        exact ⟨iff_of_true rfl habsent, absurd habsent, rfl⟩
      · exact tellsRow_of_complete hpkey habsent hcomplete
          (eval_select_of_complete hkey hgrouped hlength hselectable hcomplete)
  | true =>
    have habsent_iff : S.RowAbsent lookup (S.keyOf pkey) ↔
        ∀ value ∈ lookup (String.ofList (S.keyOf pkey)), value = "" := by rw [RowAbsent, if_pos hgrouped]
    have heval : (S.select pkey columns).eval lookup = _ := eval_selectGrouped hkey hlength hgrouped
    constructor
    · intro h
      by_cases habsent : S.RowAbsent lookup (S.keyOf pkey)
      · refine .inl ⟨habsent, fun _ => by_contra fun hsome => ?_⟩
        rw [if_neg hsome] at heval
        have hnil := length_of_mapM (heval.symm.trans (h.absent.mpr habsent))
        exact orAll_ne_nil (length_eq_zero_iff.mp hnil.symm)
      · obtain ⟨values, hvalues, -⟩ := h.present habsent
        rw [if_neg fun hnone => habsent (habsent_iff.mpr (by simp [hnone]))] at heval
        exact .inr ⟨habsent, .inl hgrouped, forall_of_mapM (heval.symm.trans hvalues)⟩
    · rintro (⟨habsent, hnone⟩ | ⟨habsent, -, hcomplete⟩)
      · rw [if_neg (by simp [hnone hgrouped]), heval, if_pos (hnone hgrouped)]
        exact ⟨iff_of_true rfl habsent, absurd habsent, rfl⟩
      · rw [if_neg fun hempty => habsent (habsent_iff.mpr (by simp [hempty.2]))]
        refine tellsRow_of_complete hpkey habsent hcomplete (heval.trans (if_neg fun hnone => ?_))
        exact habsent (habsent_iff.mpr (by simp [hnone]))

theorem selectTpcc_readsOnly (hkey : S.keyBytes pkey = some bytes) (columns : List S.Column) :
    (S.selectTpcc pkey columns).ReadsOnly (S.keysOf bytes) := by
  have hselect := select_readsOnly hkey columns
  rw [select] at hselect
  rw [selectTpcc]
  split_ifs at hselect ⊢ with hgrouped
  · rw [selectGroupedTpcc, makeStorageKey, hkey, Option.map_some, ofOption_some, pure_bind]
    refine Within.bind (within_read ⟨_, ?_, rfl⟩) fun value _ => ?_
    · rw [keysOf, if_pos hgrouped]
      rfl
    · cases value with
      | none => exact within_pure trivial
      | some value =>
        simp only
        split_ifs
        · exact within_pure trivial
        · exact (within_ofOption fun _ _ => trivial).bind fun _ _ => within_pure trivial
        · exact within_ofOption fun _ _ => trivial
  · exact hselect

/-- What a transaction carries for a key; it is empty if the storage had no record. -/
def lookupTxn (t : Transaction) (key : Key) : Option Value := (find t.keys key).map KeyValueEntry.value

theorem tellsRow_run_iff (hpkey : S.PkeyFits pkey) (columns : List S.Column) {σ : Type}
    {adapter : KeyValue.Adapter Key Value σ} {s : σ}
    (hreads : ∀ key, adapter.answer s (.read key) = some (lookup key, s)) :
    TellsRow S lookup pkey columns (((S.select pkey columns).run adapter s).map Prod.fst)
      (((S.selectTpcc pkey columns).run adapter s).map Prod.fst) ↔ S.Tellable lookup pkey columns := by
  have hkey := keyBytes_of_keyOk hpkey.keyOk
  rw [run_eq_eval (select_readsOnly hkey columns) fun key _ => hreads key,
    run_eq_eval (selectTpcc_readsOnly hkey columns) fun key _ => hreads key, Option.map_map,
    Option.map_map, ← tellsRow_eval_iff hpkey]
  simp [Function.comp_def]

/-- The first order of a district. -/
def firstOrder : List Scalar := [.int32 1, .int8 1, .int32 1]

/-- The order is inserted, so its key is declared and has an empty value. -/
def insertsFirstOrder : Transaction where
  internal := { id := 1 }
  keys := [{ key := String.ofList (newOrderSchema.keyOf firstOrder), type := .write }]

end Schema

end Slog.Benchx
