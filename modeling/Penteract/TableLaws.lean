/-
# Round trips through a table

What is inserted into a table can be selected, an update changes its columns, and a deleted row is
gone.  For this the stored bytes, which follow the types of the scalars, have to be where the schema
expects them, while the checks compare only the names of types.
-/
import Penteract.TableSelect

namespace Slog.Benchx

open List Option Function KeyValue.Program Bytes
open KeyValue (Program)
open KeyValueExecution (find)

namespace Schema

variable {S : Schema} {lookup : Key → Option Value} {row : S.Column → Scalar} {columns : List S.Column} {c : S.Column}

/-! ## Selection -/

theorem makeStorageKey_pkeyOf (haccepts : Accepts row) (hkey : HasKey row) :
    S.makeStorageKey (pkeyOf row) = some (String.ofList (rowKey row)) := by
  rw [makeStorageKey, keyBytes_pkeyOf, keyBytes_eq haccepts hkey]
  rfl

theorem makeStorageKeys_pkeyOf (haccepts : Accepts row) (hkey : HasKey row) (columns : List S.Column) :
    S.makeStorageKeys (pkeyOf row) columns = some ((S.orNonPkey columns).map (columnKey row)) := by
  rw [makeStorageKeys, keyBytes_pkeyOf, keyBytes_eq haccepts hkey]
  rfl

/-- A column of a grouped row is found at its offset; the columns after it do not matter. -/
theorem makeScalar_rowValue (hvalues : ∀ c' ≤ c, S.isPkey c' = false → (row c').Fits (S.type c'))
    (hc : S.isPkey c = false) (rest : List Char) :
    makeScalar (S.type c) ((rowValue row ++ rest).drop (S.columnOffset c)) = some (row c) := by
  have hi : c.val - S.pkeySize < (S.nonPkeyColumns.map fun c => (row c).stored).length := by
    rw [length_map]
    exact lt_length_nonPkeyColumns hc
  have hfield : (S.nonPkeyColumns.map fun c => (row c).stored)[c.val - S.pkeySize] = (row c).stored := by
    rw [getElem_map, getElem_nonPkeyColumns hc]
  have hfits := hvalues c le_rfl hc
  have hsize : (row c).stored.length = (S.type c).size :=
    hfits.2.length_stored.trans (congrArg DataType.size hfits.1)
  rw [makeScalar, rowValue, readBytes_flatten hi (hfield ▸ hsize)
    (columnOffset_eq (fun c' hlt => hvalues c' hlt.le) hc), hfield,
    map_some, ← hfits.1, hfits.2.ofBytes_stored]

variable {v : Scalar} {pkey values : List Scalar} {bytes : List Char} {c' : S.Column}
  {es : List (S.Column × Scalar)} {row' : S.Column → Scalar} {key : Key}

/-- The value of one column that is not grouped. -/
theorem makeScalar_stored {type : DataType} (hfits : v.Fits type) (rest : List Char) :
    makeScalar type (v.stored ++ rest) = some v := by
  have hsize : v.stored.length = type.size :=
    hfits.2.length_stored.trans (congrArg DataType.size hfits.1)
  rw [makeScalar, readBytes_append hsize, map_some, ← hfits.1, hfits.2.ofBytes_stored]

theorem requested_eq : requested row columns = (orAll columns).map row := by
  rw [requested, orAll]
  split_ifs
  · rw [ofFn_eq_map]
  · rfl

theorem cell_of_isPkey (hc : S.isPkey c = true) : S.cell lookup (pkeyOf row) bytes c = some (row c) := by
  rw [cell, if_pos hc, getElem?_pkeyOf hc]

theorem eval_selectGrouped_of_holds (hgrouped : S.grouped = true) (haccepts : Accepts row)
    (hkey : HasKey row)
    (hholds : lookup (String.ofList (rowKey row)) = some (String.ofList (rowValue row)))
    (hvalues : ∀ c ∈ S.orNonPkey columns, ∀ c' ≤ c, S.isPkey c' = false → (row c').Fits (S.type c')) :
    (S.select (pkeyOf row) columns).eval lookup = some (requested row columns) := by
  rw [eval_selectGrouped (keyBytes_pkeyOf.trans (keyBytes_eq haccepts hkey)) length_pkeyOf hgrouped,
    if_neg (by simp [hholds]), requested_eq]
  refine mapM_of_forall fun c hmem => ?_
  cases hc : S.isPkey c with
  | true => exact cell_of_isPkey hc
  | false =>
    rw [cell, hc, hgrouped, hholds, if_neg Bool.false_ne_true, if_pos rfl, bind_some,
      String.toList_ofList]
    exact makeScalar_rowValue (hvalues c (mem_orNonPkey_of_orAll hmem hc)) hc _

theorem eval_selectUngrouped_of_holds (hgrouped : S.grouped = false) (haccepts : Accepts row)
    (hkey : HasKey row) (hvalues : ValuesFit row)
    (hholds : ∀ c, S.isPkey c = false → lookup (columnKey row c) = some (String.ofList (row c).stored))
    (hcolumns : S.Selectable columns) :
    (S.select (pkeyOf row) columns).eval lookup = some (requested row columns) := by
  have hcell (c : S.Column) : S.cell lookup (pkeyOf row) (rowKey row) c = some (row c) := by
    cases hc : S.isPkey c with
    | true => exact cell_of_isPkey hc
    | false =>
      have hfits := hvalues c hc
      have hne : String.ofList (row c).stored ≠ "" := by
        intro h
        have hlength := hfits.2.length_stored
        rw [String.ofList_injective (h.trans String.ofList_nil.symm), hfits.1] at hlength
        exact (S.size_pos _ (get_mem _ _)).ne hlength
      rw [cell, hc, hgrouped, if_neg Bool.false_ne_true, if_neg Bool.false_ne_true, keyAt, ← columnKey,
        hholds c hc, bind_some, if_neg hne, String.toList_ofList]
      exact makeScalar_stored hfits _
  rw [eval_select_of_complete (keyBytes_pkeyOf.trans (keyBytes_eq haccepts hkey)) hgrouped length_pkeyOf
    hcolumns fun c _ => by rw [hcell c, isSome_some], requested_eq]
  exact mapM_of_forall fun c _ => hcell c

theorem eval_select_of_holds (haccepts : Accepts row)
    (hkey : HasKey row) (hvalues : ValuesFit row) (hholds : Holds lookup row)
    (hcolumns : S.Selectable columns) :
    (S.select (pkeyOf row) columns).eval lookup = some (requested row columns) := by
  rw [Holds] at hholds
  cases hgrouped : S.grouped with
  | true =>
    rw [if_pos hgrouped] at hholds
    exact eval_selectGrouped_of_holds hgrouped haccepts hkey hholds fun _ _ c' _ => hvalues c'
  | false =>
    rw [if_neg (by simp [hgrouped])] at hholds
    exact eval_selectUngrouped_of_holds hgrouped haccepts hkey hvalues hholds hcolumns

/-- Whatever is stored, a selected value is a value of the type of its column. -/
theorem fits_of_eval_select (hkey : S.keyBytes pkey = some bytes) (hlength : pkey.length = S.pkeySize)
    (hc : S.isPkey c = false) (h : (S.select pkey [c]).eval lookup = some [v]) : v.Fits (S.type c) := by
  have hcell := mapM_cell_of_eval hkey hlength h rfl
  exact fits_of_cell hc (by simpa [orAll, bind_eq_some_iff] using hcell)

/-- No record of the row is there. -/
theorem eval_select_of_missing (hkey : S.keyBytes pkey = some bytes)
    (hmissing : ∀ key ∈ S.keysOf bytes, lookup key = none) :
    (S.select pkey columns).eval lookup = some [] := by
  rw [keysOf] at hmissing
  cases hgrouped : S.grouped with
  | true =>
    rw [if_pos hgrouped] at hmissing
    rw [select, if_pos hgrouped]
    simp [selectGrouped, makeStorageKey, hkey, hmissing _ rfl]
  | false =>
    rw [if_neg (by simp [hgrouped])] at hmissing
    refine eval_select_of_forall_missing hkey hgrouped fun c _ hc => ?_
    rw [Missing, keyAt, hmissing _ ⟨c, hc, rfl⟩]
    simp

/-- Only columns of the primary key are asked for. -/
theorem eval_select_pkey (hkey : S.keyBytes pkey = some bytes) (hcolumns : ¬ S.Selectable columns) :
    (S.select pkey columns).eval lookup = some [] := by
  rw [Selectable, not_or, not_or, Bool.not_eq_true] at hcolumns
  obtain ⟨hgrouped, hne, hpkey⟩ := hcolumns
  refine eval_select_of_forall_missing hkey hgrouped fun c hc hc' => ?_
  rw [orNonPkey, if_neg hne] at hc
  exact absurd ⟨c, hc, hc'⟩ hpkey

/-! ## Insertion into the storage -/

theorem char_inj (h : Char.ofNat c.val = Char.ofNat c'.val) : c = c' := by
  have hle := S.length_le
  have hc := toNat_ofNat_of_lt (n := c.val) (by omega)
  have hc' := toNat_ofNat_of_lt (n := c'.val) (by omega)
  exact Fin.ext (hc.symm.trans ((congrArg Char.toNat h).trans hc'))

theorem columnKey_inj (h : columnKey row c = columnKey row c') : c = c' := by
  have hlist := append_cancel_left (String.ofList_injective h)
  exact char_inj (List.cons.inj hlist).1

variable {compute : Key → MasterMetadata} {storage : Storage}

/-- Inserting the columns one by one. -/
theorem run_perform_insert (compute : Key → MasterMetadata) (row : S.Column → Scalar)
    (columns : List S.Column) (storage : Storage) :
    ∃ storage', (Program.perform (columns.map fun c =>
        .insert (columnKey row c) (String.ofList (row c).stored))).run (kvStorageAdapter compute)
          storage = some (true, storage') ∧
      (∀ c ∈ columns, lookupIn storage' (columnKey row c) = some (String.ofList (row c).stored)) ∧
      ∀ key, (∀ c ∈ columns, key ≠ columnKey row c) → storage' key = storage key := by
  induction columns generalizing storage with
  | nil => exact ⟨storage, rfl, by simp, fun _ _ => rfl⟩
  | cons c columns ih =>
    obtain ⟨storage', hrun, hin, hout⟩ := ih (Function.update storage (columnKey row c)
      (some { value := String.ofList (row c).stored, metadata := compute (columnKey row c) }))
    refine ⟨storage', ?_, fun c' hc' => ?_, fun key hkey => ?_⟩
    · rw [map_cons, run_perform_cons, kvStorageAdapter, bind_some,
        ← kvStorageAdapter, hrun]
      rfl
    · by_cases hmem : c' ∈ columns
      · exact hin c' hmem
      · obtain rfl : c' = c := (mem_cons.mp hc').resolve_right hmem
        have hne : ∀ c'' ∈ columns, columnKey row c' ≠ columnKey row c'' :=
          fun c'' hc'' heq => hmem (columnKey_inj heq ▸ hc'')
        rw [lookupIn, hout _ hne, update_self]
        rfl
    · rw [hout key fun c' hc' => hkey c' (mem_cons_of_mem _ hc'),
        update_of_ne (hkey c mem_cons_self)]

theorem acceptsInsert_ofFn (haccepts : Accepts row) : S.acceptsInsert (List.ofFn row) = true := by
  rw [acceptsInsert, zip_columnTypes, List.length_ofFn, Bool.and_eq_true, ← List.map_drop, List.all_map,
    List.all_eq_true]
  exact ⟨by simp [numColumns], fun c _ => haccepts c⟩

theorem run_insert (haccepts : Accepts row) (hkey : HasKey row)
    (hbytes : ∀ c, S.isPkey c = false → (row c).bytes.isSome) (compute : Key → MasterMetadata)
    (storage : Storage) :
    ∃ storage', (S.insert (List.ofFn row)).run (kvStorageAdapter compute) storage =
        some (true, storage') ∧ Holds (lookupIn storage') row ∧
      ∀ key ∉ S.keysOf (rowKey row), storage' key = storage key := by
  have hmapM : ((List.ofFn row).drop S.pkeySize).mapM Scalar.bytes =
      some (S.nonPkeyColumns.map fun c => (row c).stored) := by
    rw [drop_ofFn, mapM_map]
    exact mapM_of_forall fun c hc => Scalar.bytes_eq_stored (hbytes c (mem_nonPkeyColumns.mp hc))
  rw [insert, if_pos (acceptsInsert_ofFn haccepts), hmapM, Program.ofOption_some, pure_bind]
  simp only [Holds, keysOf]
  split_ifs with hgrouped
  · rw [makeStorageKey, keyBytes_eq haccepts hkey, map_some, Program.ofOption_some, pure_bind,
      Program.run_insert]
    refine ⟨_, rfl, ?_, fun key hne => update_of_ne hne _ _⟩
    rw [lookupIn, update_self]
    rfl
  · have hkeys : S.makeStorageKeys (List.ofFn row) [] = some (S.nonPkeyColumns.map (columnKey row)) := by
      rw [makeStorageKeys, keyBytes_eq haccepts hkey, orNonPkey, if_pos rfl]
      rfl
    rw [hkeys, Program.ofOption_some, pure_bind, List.zip_map', List.map_map]
    obtain ⟨storage', hrun, hin, hout⟩ := run_perform_insert compute row S.nonPkeyColumns storage
    refine ⟨storage', hrun, fun c hc => hin c (mem_nonPkeyColumns.mpr hc), fun key hne => hout key ?_⟩
    rintro c hc rfl
    exact hne ⟨c, mem_nonPkeyColumns.mp hc, rfl⟩

/-- A selection from the storage. -/
theorem run_select_kv (hkey : S.keyBytes pkey = some bytes) (columns : List S.Column) :
    (S.select pkey columns).run (kvStorageAdapter compute) storage =
      ((S.select pkey columns).eval (lookupIn storage)).map fun values => (values, storage) :=
  run_eq_eval (select_readsOnly hkey columns) fun _ _ => rfl

/-- After the insertion of the row, the selection of the columns returns their scalars. -/
def SelectsInserted (row : S.Column → Scalar) (columns : List S.Column) : Prop :=
  ∀ (compute : Key → MasterMetadata) (storage : Storage), ∃ storage',
    (S.insert (List.ofFn row)).run (kvStorageAdapter compute) storage = some (true, storage') ∧
    (S.select (pkeyOf row) columns).run (kvStorageAdapter compute) storage' =
      some (requested row columns, storage')

theorem selectsInserted_of_fits (haccepts : Accepts row) (hkey : HasKey row) (hvalues : ValuesFit row)
    (hcolumns : S.Selectable columns) : SelectsInserted row columns := by
  intro compute storage
  obtain ⟨storage', hrun, hholds, -⟩ := run_insert haccepts hkey
    (fun c hc => by rw [(hvalues c hc).2.bytes]; rfl) compute storage
  refine ⟨storage', hrun, ?_⟩
  rw [run_select_kv (keyBytes_pkeyOf.trans (keyBytes_eq haccepts hkey)),
    eval_select_of_holds haccepts hkey hvalues hholds hcolumns]
  rfl

theorem hasKey_of_run_insert {r : Bool × Storage}
    (h : (S.insert (List.ofFn row)).run (kvStorageAdapter compute) storage = some r) : HasKey row := by
  cases hkey : S.keyBytes (List.ofFn row) with
  | some bytes => exact hasKey_of_keyBytes hkey
  | none =>
    rw [insert] at h
    split_ifs at h
    · simp [makeStorageKey, hkey] at h
    · simp [makeStorageKeys, hkey] at h
    · cases h

theorem fits_of_selectsInserted (haccepts : Accepts row)
    (h : ∀ c, S.isPkey c = false → SelectsInserted row [c]) : HasKey row ∧ ValuesFit row := by
  have hkey : HasKey row := by
    obtain ⟨storage', hrun, -⟩ := h ⟨S.pkeySize, S.pkeySize_lt⟩ (isPkey_eq_false.mpr le_rfl)
      (fun _ => { master := 0 }) (fun _ => none)
    exact hasKey_of_run_insert hrun
  refine ⟨hkey, fun c hc => ?_⟩
  obtain ⟨storage', -, hrun⟩ := h c hc (fun _ => { master := 0 }) (fun _ => none)
  rw [run_select_kv (keyBytes_pkeyOf.trans (keyBytes_eq haccepts hkey)),
    map_eq_some_iff] at hrun
  obtain ⟨values, hvalues, heq⟩ := hrun
  obtain rfl : values = [row c] := congrArg Prod.fst heq
  exact fits_of_eval_select (keyBytes_pkeyOf.trans (keyBytes_eq haccepts hkey)) length_pkeyOf hc hvalues

/-! ## Updates of the storage -/

/-- The row with other values in some columns. -/
def replaced (row : S.Column → Scalar) (es : List (S.Column × Scalar)) : S.Column → Scalar :=
  es.foldl (fun row e => Function.update row e.1 e.2) row

theorem replaced_of_not_mem (hc : c ∉ es.map Prod.fst) : replaced row es c = row c := by
  induction es generalizing row with
  | nil => rfl
  | cons e es ih =>
    rw [map_cons, mem_cons, not_or] at hc
    rw [replaced, foldl_cons, ← replaced, ih hc.2, update_of_ne hc.1]

theorem replaced_pkey (hes : ∀ e ∈ es, S.isPkey e.1 = false) (hc : S.isPkey c = true) :
    replaced row es c = row c := by
  refine replaced_of_not_mem fun hmem => ?_
  obtain ⟨e, he, rfl⟩ := mem_map.mp hmem
  exact nomatch hc.symm.trans (hes e he)

theorem rowKey_congr (h : ∀ c, S.isPkey c = true → row c = row' c) : rowKey row = rowKey row' := by
  rw [rowKey, rowKey]
  have hmap : (S.pkeyColumns.map fun c => (row c).stored) =
      S.pkeyColumns.map fun c => (row' c).stored :=
    map_congr_left fun c hc => by rw [h c (mem_pkeyColumns.mp hc)]
  rw [hmap]

theorem set_stored (hc : S.isPkey c = false) :
    (S.nonPkeyColumns.map fun c => (row c).stored).set (c.val - S.pkeySize) v.stored =
      S.nonPkeyColumns.map fun c' => (Function.update row c v c').stored := by
  refine ext_getElem (by simp) fun j hj hj' => ?_
  rw [length_map] at hj'
  have hval : (S.nonPkeyColumns[j]).val = S.pkeySize + j := by simp [nonPkeyColumns]
  rw [getElem_set, getElem_map, getElem_map]
  split_ifs with heq
  · have hcj : S.nonPkeyColumns[j] = c := by
      have hle := isPkey_eq_false.mp hc
      exact Fin.ext (by omega)
    rw [hcj, update_self]
  · rw [update_of_ne]
    intro hcj
    rw [hcj] at hval
    omega

theorem replaceAt_rowValue (hvalues : ValuesFit row) (hc : S.isPkey c = false)
    (hfits : v.Fits (S.type c)) :
    replaceAt (S.columnOffset c) v.stored (rowValue row) =
      some (rowValue (Function.update row c v)) := by
  have hi : c.val - S.pkeySize < (S.nonPkeyColumns.map fun c => (row c).stored).length := by
    rw [length_map]
    exact lt_length_nonPkeyColumns hc
  have hlength : v.stored.length =
      (S.nonPkeyColumns.map fun c => (row c).stored)[c.val - S.pkeySize].length := by
    rw [getElem_map, getElem_nonPkeyColumns hc, hfits.2.length_stored,
      (hvalues c hc).2.length_stored, hfits.1, (hvalues c hc).1]
  rw [rowValue, replaceAt_flatten hi (columnOffset_eq (fun c' _ => hvalues c') hc) hlength, set_stored hc, rowValue]

theorem ValuesFit.update (hvalues : ValuesFit row) (hfits : v.Fits (S.type c)) :
    ValuesFit (Function.update row c v) := by
  intro c' hc'
  rcases eq_or_ne c' c with rfl | hne
  · rwa [update_self]
  · rw [update_of_ne hne]
    exact hvalues c' hc'

theorem replaceColumns_rowValue (hvalues : ValuesFit row)
    (hfits : ∀ e ∈ es, S.isPkey e.1 = false ∧ e.2.Fits (S.type e.1)) :
    es.foldlM (fun stored e => e.2.bytes.bind fun bytes =>
        replaceAt (S.columnOffset e.1) bytes stored) (rowValue row) =
      some (rowValue (replaced row es)) := by
  induction es generalizing row with
  | nil => rfl
  | cons e es ih =>
    obtain ⟨hc, hfit⟩ := hfits e mem_cons_self
    rw [foldlM_cons, hfit.2.bytes, bind_some, replaceAt_rowValue hvalues hc hfit]
    exact ih (hvalues.update hfit) fun e he => hfits e (mem_cons_of_mem _ he)

/-- Updating the columns one by one. -/
theorem run_perform_update (compute : Key → MasterMetadata) {key : S.Column → Key}
    (hinj : Injective key) (hfits : ∀ e ∈ es, S.isPkey e.1 = false ∧ e.2.Fits (S.type e.1))
    (hholds : ∀ c, S.isPkey c = false →
      lookupIn storage (key c) = some (String.ofList (row c).stored)) :
    ∃ storage', (Program.perform (es.map fun e =>
        .update (key e.1) fun _ => e.2.bytes.map String.ofList)).run (kvStorageAdapter compute)
          storage = some (true, storage') ∧
      (∀ c, S.isPkey c = false →
        lookupIn storage' (key c) = some (String.ofList (replaced row es c).stored)) ∧
      ∀ k, (∀ c, S.isPkey c = false → k ≠ key c) → storage' k = storage k := by
  induction es generalizing storage row with
  | nil => exact ⟨storage, rfl, hholds, fun _ _ => rfl⟩
  | cons e es ih =>
    obtain ⟨hc, hfit⟩ := hfits e mem_cons_self
    obtain ⟨r, hr, -⟩ := map_eq_some_iff.mp (hholds e.1 hc)
    have hholds' : ∀ c, S.isPkey c = false →
        lookupIn (Function.update storage (key e.1)
          (some { r with value := String.ofList e.2.stored })) (key c) =
            some (String.ofList (Function.update row e.1 e.2 c).stored) := by
      intro c hc'
      rcases eq_or_ne c e.1 with rfl | hne
      · rw [lookupIn, update_self, update_self]
        rfl
      · rw [lookupIn, update_of_ne (hinj.ne hne), update_of_ne hne]
        exact hholds c hc'
    obtain ⟨storage', hrun, hin, hout⟩ :=
      ih (fun e he => hfits e (mem_cons_of_mem _ he)) hholds'
    refine ⟨storage', ?_, hin, fun k hk => ?_⟩
    · rw [map_cons, run_perform_cons]
      simp only [kvStorageAdapter, hr, hfit.2.bytes, map_some, bind_some]
      rw [← kvStorageAdapter, hrun]
      rfl
    · rw [hout k hk, update_of_ne (hk e.1 hc)]

theorem run_update (compute : Key → MasterMetadata) (haccepts : Accepts row) (hkey : HasKey row)
    (hvalues : ValuesFit row) (hholds : Holds (lookupIn storage) row)
    (hupdate : S.acceptsUpdate columns values = true)
    (hfits : ∀ e ∈ columns.zip values, S.isPkey e.1 = false ∧ e.2.Fits (S.type e.1)) :
    ∃ storage', (S.update (pkeyOf row) columns values).run (kvStorageAdapter compute) storage =
        some (true, storage') ∧ Holds (lookupIn storage') (replaced row (columns.zip values)) ∧
      ∀ key ∉ S.keysOf (rowKey row), storage' key = storage key := by
  have hsame : rowKey (replaced row (columns.zip values)) = rowKey row :=
    rowKey_congr fun c hc => replaced_pkey (fun e he => (hfits e he).1) hc
  rw [update, if_pos hupdate]
  simp only [Holds, keysOf, columnKey, hsame] at hholds ⊢
  split_ifs at hholds ⊢ with hgrouped
  · obtain ⟨r, hr, hvalue⟩ := map_eq_some_iff.mp hholds
    rw [makeStorageKey_pkeyOf haccepts hkey, Program.ofOption_some, pure_bind, Program.run_update]
    refine ⟨Function.update storage (String.ofList (rowKey row)) (some { r with
      value := String.ofList (rowValue (replaced row (columns.zip values))) }), ?_, ?_, ?_⟩
    · simp [kvStorageAdapter, hr, hvalue, replaceColumns, replaceColumns_rowValue hvalues hfits]
    · rw [lookupIn, update_self]
      rfl
    · exact fun key hne => update_of_ne hne _ _
  · rw [makeStorageKeys_pkeyOf haccepts hkey, Program.ofOption_some, pure_bind,
      zip_orNonPkey (acceptsUpdate_iff.mp hupdate).1, List.map_map]
    obtain ⟨storage', hrun, hin, hout⟩ := run_perform_update compute
      (fun c c' h => columnKey_inj h) hfits hholds
    refine ⟨storage', hrun, hin, fun k hk => hout k ?_⟩
    rintro c hc rfl
    exact hk ⟨c, hc, rfl⟩

/-! ## Other rows -/

def RowFits (row : S.Column → Scalar) : Prop := ∀ c, (row c).Fits (S.type c)

theorem RowFits.accepts (h : RowFits row) : Accepts row := by
  intro c
  rw [validateType, (h c).1]
  simp

theorem RowFits.hasKey (h : RowFits row) : HasKey row := fun c _ => by
  rw [(h c).2.bytes]
  rfl

theorem RowFits.valuesFit (h : RowFits row) : ValuesFit row := fun c _ => h c

/-- The first column of the primary key. -/
def firstColumn (S : Schema) : S.Column := ⟨0, S.pkeySize_pos.trans S.pkeySize_lt⟩

theorem RowFits.pkeyFits (h : RowFits row) : S.PkeyFits (pkeyOf row) := by
  rw [PkeyFits, pkeyOf_eq, ← map_type, ← map_take, ← pkeyColumns, forall₂_map_left_iff,
    forall₂_map_right_iff, forall₂_same]
  exact fun c _ => h c

theorem RowFits.keyOf_eq (h : RowFits row) : S.keyOf (pkeyOf row) = rowKey row := by
  rw [keyOf, keyBytes_pkeyOf, keyBytes_eq h.accepts h.hasKey, getD_some]

/-- The rows of other tables, and other rows of the table, have other storage keys. -/
theorem disjoint_keysOf {S' : Schema} {row' : S'.Column → Scalar} (hfits : RowFits row)
    (hfits' : RowFits row') (hother : S'.id ≠ S.id ∨ S' = S ∧ pkeyOf row' ≠ pkeyOf row)
    (hkey : key ∈ S.keysOf (rowKey row)) : key ∉ S'.keysOf (rowKey row') := by
  have hbytes {S : Schema} {bytes : List Char} (h : key ∈ S.keysOf bytes) : ∃ rest : List Char,
      key = String.ofList (bytes ++ rest) ∧ rest.length = if S.grouped then 0 else 1 := by
    rw [keysOf] at h
    split_ifs at h ⊢
    · exact ⟨[], by rw [append_nil]; exact h, rfl⟩
    · obtain ⟨c, -, rfl⟩ := h
      exact ⟨_, rfl, rfl⟩
  intro hkey'
  obtain ⟨rest, rfl, hlength⟩ := hbytes hkey
  obtain ⟨rest', heq, hlength'⟩ := hbytes hkey'
  have heq := String.ofList_injective heq
  rw [← hfits.keyOf_eq, ← hfits'.keyOf_eq] at heq
  rcases hother with hid | ⟨rfl, hne⟩
  · exact hid (hfits.pkeyFits.id_eq_of_keyOf hfits'.pkeyFits heq).symm
  · exact hne (hfits'.pkeyFits.eq_of_keyOf hfits.pkeyFits
      (append_inj' heq (hlength.trans hlength'.symm)).1.symm)

/-- The update replaces the values of the columns in every row of the table, and leaves all other
rows of all tables as they are. -/
def UpdatesRow (columns : List S.Column) (values : List Scalar) : Prop :=
  ∀ (compute : Key → MasterMetadata) (storage : Storage) (row : S.Column → Scalar), RowFits row →
    Holds (lookupIn storage) row → ∃ storage',
      (S.update (pkeyOf row) columns values).run (kvStorageAdapter compute) storage =
        some (true, storage') ∧
      (∀ columns', S.Selectable columns' →
        (S.select (pkeyOf row) columns').run (kvStorageAdapter compute) storage' =
          some (requested (replaced row (columns.zip values)) columns', storage')) ∧
      ∀ (S' : Schema) (row' : S'.Column → Scalar), RowFits row' →
        (S'.id ≠ S.id ∨ S' = S ∧ pkeyOf row' ≠ pkeyOf row) → ∀ columns',
          ((S'.select (pkeyOf row') columns').run (kvStorageAdapter compute) storage').map Prod.fst =
            ((S'.select (pkeyOf row') columns').run (kvStorageAdapter compute) storage).map Prod.fst

theorem rowFits_replaced (hfits : RowFits row) (hes : ∀ e ∈ es, e.2.Fits (S.type e.1)) :
    RowFits (replaced row es) := by
  induction es generalizing row with
  | nil => exact hfits
  | cons e es ih =>
    refine ih (fun c => ?_) fun e he => hes e (mem_cons_of_mem _ he)
    change (Function.update row e.1 e.2 c).Fits (S.type c)
    rcases eq_or_ne c e.1 with rfl | hne
    · rw [update_self]
      exact hes e mem_cons_self
    · rw [update_of_ne hne]
      exact hfits c

theorem pkeyOf_congr (h : ∀ c, S.isPkey c = true → row c = row' c) : pkeyOf row = pkeyOf row' := by
  rw [pkeyOf_eq, pkeyOf_eq]
  exact map_congr_left fun c hc => h c (mem_pkeyColumns.mp hc)

theorem updatesRow_of_fits (hupdate : S.acceptsUpdate columns values = true)
    (hfits : ∀ e ∈ columns.zip values, S.isPkey e.1 = false ∧ e.2.Fits (S.type e.1)) :
    UpdatesRow columns values := by
  intro compute storage row hrow hholds
  obtain ⟨storage', hrun, hholds', hframe⟩ := run_update compute hrow.accepts hrow.hasKey
    hrow.valuesFit hholds hupdate hfits
  have hsame : ∀ c, S.isPkey c = true → replaced row (columns.zip values) c = row c :=
    fun c hc => replaced_pkey (fun e he => (hfits e he).1) hc
  have hrow' := rowFits_replaced hrow fun e he => (hfits e he).2
  refine ⟨storage', hrun, fun columns' hcolumns' => ?_, fun S' row' hfits' hother columns' => ?_⟩
  · rw [run_select_kv (keyBytes_pkeyOf.trans (keyBytes_eq hrow.accepts hrow.hasKey)),
      ← pkeyOf_congr hsame, eval_select_of_holds hrow'.accepts hrow'.hasKey hrow'.valuesFit hholds'
        hcolumns']
    rfl
  · have hkey := keyBytes_pkeyOf.trans (keyBytes_eq hfits'.accepts hfits'.hasKey)
    have heval : (S'.select (pkeyOf row') columns').eval (lookupIn storage') =
        (S'.select (pkeyOf row') columns').eval (lookupIn storage) := by
      refine eval_congr (select_readsOnly hkey columns') fun key hmem => ?_
      rw [lookupIn, hframe key fun hmem' => disjoint_keysOf hrow hfits' hother hmem' hmem, lookupIn]
    rw [run_select_kv hkey, run_select_kv hkey, heval, Option.map_map, Option.map_map]
    rfl

/-- Two values of every type. -/
def sample (b : Bool) : DataType → Scalar
  | .int8 => .int8 (if b then 1 else 0)
  | .int16 => .int16 (if b then 1 else 0)
  | .int32 => .int32 (if b then 1 else 0)
  | .int64 => .int64 (if b then 1 else 0)
  | .fixedText width => .fixedText width (String.ofList (List.replicate width (if b then '1' else '0')))

theorem fits_sample (b : Bool) (type : DataType) : (sample b type).Fits type := by
  cases type with
  | fixedText width => exact ⟨rfl, by rw [sample, Scalar.Exact, String.length_ofList, length_replicate]⟩
  | _ => exact ⟨rfl, trivial⟩

theorem sample_ne {type : DataType} (h : 0 < type.size) : sample true type ≠ sample false type := by
  cases type with
  | fixedText width =>
    intro heq
    have hlist := String.ofList_injective (Scalar.fixedText.inj heq).2
    have hwidth : width ≠ 0 := Nat.pos_iff_ne_zero.mp h
    have hchar := (replicate_right_inj hwidth).mp hlist
    exact absurd hchar (by decide)
  | _ => decide

theorem exists_row_ne (c : S.Column) (v : Scalar) : ∃ row : S.Column → Scalar, RowFits row ∧ row c ≠ v := by
  by_cases h : sample true (S.type c) = v
  · refine ⟨fun c => sample false (S.type c), fun c => fits_sample false _, fun heq => ?_⟩
    exact sample_ne (S.size_pos _ (get_mem _ _)) (h.trans heq.symm)
  · exact ⟨fun c => sample true (S.type c), fun c => fits_sample true _, h⟩

theorem take_of_eval_select (hkey : S.keyBytes (pkeyOf row) = some bytes)
    (h : (S.select (pkeyOf row) []).eval lookup = some values)
    (hvalues : values.length = S.columnTypes.length) : values.take S.pkeySize = pkeyOf row := by
  have hcells := mapM_cell_of_eval hkey length_pkeyOf h (by rw [hvalues, orAll, if_pos rfl, length_finRange])
  rw [mapM_cell_orAll length_pkeyOf, if_pos rfl] at hcells
  obtain ⟨rest, -, rfl⟩ := map_eq_some_iff.mp hcells
  exact take_left' length_pkeyOf

theorem replaced_mem (hnodup : (es.map Prod.fst).Nodup) {e : S.Column × Scalar} (he : e ∈ es) :
    replaced row es e.1 = e.2 := by
  induction es generalizing row with
  | nil => cases he
  | cons e' es ih =>
    obtain ⟨hnot, hnodup⟩ := nodup_cons.mp hnodup
    rcases mem_cons.mp he with rfl | he
    · exact (replaced_of_not_mem hnot).trans (update_self _ _ _)
    · exact ih hnodup he

theorem fits_of_updatesRow (hupdate : S.acceptsUpdate columns values = true) (hnodup : columns.Nodup)
    (h : UpdatesRow columns values) :
    ∀ e ∈ columns.zip values, S.isPkey e.1 = false ∧ e.2.Fits (S.type e.1) := by
  rintro ⟨c, v⟩ he
  have hlength := (acceptsUpdate_iff.mp hupdate).1
  have hnodup' : ((columns.zip values).map Prod.fst).Nodup := by
    rwa [map_fst_zip hlength.le]
  -- a row with another value in the column
  obtain ⟨row, hrow, hne⟩ := exists_row_ne c v
  obtain ⟨storage, -, hholds, -⟩ := run_insert hrow.accepts hrow.hasKey
    (fun c _ => by rw [(hrow c).2.bytes]; rfl) (fun _ => { master := 0 }) (fun _ => none)
  obtain ⟨storage', -, hselect, -⟩ := h (fun _ => { master := 0 }) storage row hrow hholds
  have hkey := keyBytes_pkeyOf.trans (keyBytes_eq hrow.accepts hrow.hasKey)
  have heval {columns' : List S.Column} (hcolumns' : S.Selectable columns') :
      (S.select (pkeyOf row) columns').eval (lookupIn storage') =
        some (requested (replaced row (columns.zip values)) columns') := by
    have hrun := hselect columns' hcolumns'
    rw [run_select_kv hkey, map_eq_some_iff] at hrun
    obtain ⟨values, hvalues, heq⟩ := hrun
    rw [hvalues, (Prod.mk.inj heq).1]
  have hreplaced : replaced row (columns.zip values) c = v := replaced_mem hnodup' he
  cases hc : S.isPkey c with
  | false =>
    have hcolumn := heval (.inr (.inr ⟨c, mem_singleton_self c, hc⟩))
    rw [requested, if_neg (cons_ne_nil _ _), map_singleton, hreplaced] at hcolumn
    exact ⟨rfl, fits_of_eval_select hkey length_pkeyOf hc hcolumn⟩
  | true =>
    -- the selection returns the primary key that it is given
    have hall := heval (.inr (.inl rfl))
    rw [requested, if_pos rfl] at hall
    have htake := take_of_eval_select hkey hall (List.length_ofFn)
    have hget := (getElem?_pkeyOf hc).symm.trans ((congrArg (·[c.val]?) htake).trans
      (getElem?_pkeyOf hc))
    exact absurd ((some_inj.mp hget).symm.trans hreplaced) hne

/-! ## Deletion by a transaction -/

theorem run_perform_delete (keys : List Key) {t : Transaction}
    (hnodup : (t.keys.map KeyValueEntry.key).Nodup) :
    ∃ ok t', (Program.perform (keys.map .delete)).run txnStorageAdapter t = some (ok, t') ∧
      (t'.keys.map KeyValueEntry.key).Nodup ∧
      (∀ key, find t.keys key = none ∨ key ∈ keys → find t'.keys key = none) ∧
      ∀ key, key ∈ t.deletedKeys ∨ ok = true ∧ key ∈ keys → key ∈ t'.deletedKeys := by
  induction keys generalizing t with
  | nil => exact ⟨true, t, rfl, hnodup, by simp, by simp⟩
  | cons key keys ih =>
    rw [map_cons, run_perform_cons]
    cases hfind : find t.keys key with
    | none =>
      obtain ⟨ok, t', hrun, hnodup', hmissing, hdeleted⟩ := ih hnodup
      refine ⟨false, t', ?_, hnodup', fun k hk => hmissing k ?_, fun k hk => hdeleted k ?_⟩
      · rw [answer_delete_none hnodup hfind, bind_some, hrun]
        rfl
      · rcases hk with hk | hk
        · exact .inl hk
        · rcases mem_cons.mp hk with rfl | hk
          · exact .inl hfind
          · exact .inr hk
      · exact .inl (hk.resolve_right fun h => nomatch h.1)
    | some kv =>
      obtain ⟨ok, t', hrun, hnodup', hmissing, hdeleted⟩ := ih (t := { t with
        keys := t.keys.eraseP (·.key = key)
        deletedKeys := t.deletedKeys ++ [key] }) (nodup_map_key_eraseP hnodup)
      refine ⟨ok, t', ?_, hnodup', fun k hk => hmissing k ?_, fun k hk => hdeleted k ?_⟩
      · rw [answer_delete_some hnodup hfind, bind_some, hrun]
        rfl
      · rw [find_eraseP hnodup]
        by_cases hkey : k = key
        · exact .inl (if_pos hkey)
        · rw [if_neg hkey]
          exact hk.imp_right fun h => (mem_cons.mp h).resolve_left hkey
      · rw [mem_append, mem_singleton]
        rcases hk with hk | ⟨hok, hk⟩
        · exact .inl (.inl hk)
        · rcases mem_cons.mp hk with rfl | hk
          · exact .inl (.inr rfl)
          · exact .inr ⟨hok, hk⟩

/-- After the deletion of a row the transaction does not find it, and if it has deleted it, it is not
found in the storage after the transaction either. -/
def DeletesRow (S : Schema) : Prop :=
  ∀ (t : Transaction) (pkey : List Scalar) (bytes : List Char),
    (t.keys.map KeyValueEntry.key).Nodup → S.keyBytes pkey = some bytes → ∃ ok t',
      (S.delete pkey).run txnStorageAdapter t = some (ok, t') ∧
      (∀ columns, (S.select pkey columns).run txnStorageAdapter t' = some ([], t')) ∧
      (ok = true → ∀ isLocal compute storage columns,
        ((S.select pkey columns).run (kvStorageAdapter compute) (t'.applyWrites isLocal storage)).map
          Prod.fst = some [])

theorem deletesRow (S : Schema) : DeletesRow S := by
  intro t pkey bytes hnodup hkey
  -- all keys of the row are deleted, one after the other
  obtain ⟨keys, hmem, hdelete⟩ : ∃ keys : List Key, (∀ key ∈ S.keysOf bytes, key ∈ keys) ∧
      (S.delete pkey).run txnStorageAdapter t =
        (Program.perform (keys.map .delete)).run txnStorageAdapter t := by
    rw [keysOf, delete]
    split_ifs
    · refine ⟨[String.ofList bytes], fun key h => mem_singleton.mpr h, ?_⟩
      rw [makeStorageKey, hkey, map_some, Program.ofOption_some, pure_bind, run_delete,
        map_singleton, run_perform_singleton]
      exact (congrFun map_id _).symm
    · refine ⟨S.nonPkeyColumns.map fun c => String.ofList (bytes ++ [Char.ofNat c.val]), ?_, ?_⟩
      · rintro key ⟨c, hc, rfl⟩
        exact mem_map_of_mem (mem_nonPkeyColumns.mpr hc)
      · rw [makeStorageKeys, hkey, map_some, Program.ofOption_some, pure_bind, orNonPkey,
          if_pos rfl]
  obtain ⟨ok, t', hrun, hnodup', hmissing, hdeleted⟩ := run_perform_delete keys hnodup
  refine ⟨ok, t', hdelete.trans hrun, fun columns => ?_, fun hok isLocal compute storage columns => ?_⟩
  · rw [run_eq_eval (select_readsOnly hkey columns) fun key _ => answer_read hnodup' key,
      eval_select_of_missing hkey fun key h => by rw [hmissing key (.inr (hmem key h))]; rfl]
    rfl
  · rw [run_select_kv hkey, eval_select_of_missing hkey fun key h => by
      rw [lookupIn, applyWrites_deleted (hdeleted key (.inr ⟨hok, hmem key h⟩))]; rfl]
    rfl

/-! ## The laws of a table -/

/-- **Round trips.**  A row that passes the checks of an insertion is selected as it was inserted if
its scalars are values of the types of their columns and its primary key can be read; with columns that
are not grouped, a selection must also ask for a column outside of the primary key.  An update changes
its columns and nothing else if they are not in the primary key and the new scalars are values of the
types of the columns.  A deleted row is gone. -/
theorem table_laws (S : Schema) :
    (∀ row : S.Column → Scalar, Accepts row →
      ((∀ columns, SelectsInserted row columns) ↔
        HasKey row ∧ ValuesFit row ∧ S.grouped = true)) ∧
    (∀ row : S.Column → Scalar, Accepts row →
      ((∀ columns, S.Selectable columns → SelectsInserted row columns) ↔
        HasKey row ∧ ValuesFit row)) ∧
    (∀ (columns : List S.Column) (values : List Scalar), S.acceptsUpdate columns values = true →
      columns.Nodup →
      (UpdatesRow columns values ↔
        ∀ e ∈ columns.zip values, S.isPkey e.1 = false ∧ e.2.Fits (S.type e.1))) ∧
    DeletesRow S := by
  have hselectable {c : S.Column} (hc : S.isPkey c = false) : S.Selectable [c] :=
    .inr (.inr ⟨c, mem_singleton_self c, hc⟩)
  refine ⟨fun row haccepts => ⟨fun h => ?_, fun h columns => ?_⟩,
    fun row haccepts => ⟨fun h => ?_, fun h columns hcolumns => ?_⟩,
    fun columns values hupdate hnodup =>
      ⟨fits_of_updatesRow hupdate hnodup, updatesRow_of_fits hupdate⟩, deletesRow S⟩
  · obtain ⟨hkey, hvalues⟩ := fits_of_selectsInserted haccepts fun c _ => h [c]
    refine ⟨hkey, hvalues, ?_⟩
    -- without groups, the first column of the primary key alone is not found
    by_contra hgrouped
    obtain ⟨storage', -, hrun⟩ := h [S.firstColumn] (fun _ => { master := 0 }) (fun _ => none)
    have hpkey : S.isPkey S.firstColumn = true := isPkey_eq_true.mpr S.pkeySize_pos
    rw [run_select_kv (keyBytes_pkeyOf.trans (keyBytes_eq haccepts hkey)),
      eval_select_pkey (keyBytes_pkeyOf.trans (keyBytes_eq haccepts hkey))] at hrun
    · exact nomatch hrun
    · rintro (h | h | ⟨c, hc, hc'⟩)
      · exact hgrouped h
      · exact nomatch h
      · rw [mem_singleton.mp hc] at hc'
        exact nomatch hpkey.symm.trans hc'
  · exact selectsInserted_of_fits haccepts h.1 h.2.1 (.inl h.2.2)
  · exact fits_of_selectsInserted haccepts fun c hc => h [c] (hselectable hc)
  · exact selectsInserted_of_fits haccepts h.1 h.2 hcolumns

end Schema

/-- A row of the history as a payment builds it: the scalar of the last column is made without a text,
and gets its buffer later. -/
def historyRow : historySchema.Column → Scalar := fun c =>
  [.int32 1, .int8 1, .int32 1, .int32 1, .int8 1, .int32 1, .int64 1234, .int32 100,
    match emptyFixedTextScalar with
    | .fixedText width _ => .fixedText width "WAREHOUSE1    DISTRICT01"
    | v => v].get (c.cast rfl)

theorem historyRow_not_selected :
    Schema.Accepts historyRow ∧ ¬ Schema.SelectsInserted historyRow [⟨8, by decide⟩] := by
  have haccepts : Schema.Accepts historyRow := by
    unfold Schema.Accepts
    decide
  refine ⟨haccepts, fun h => ?_⟩
  obtain ⟨storage', hinsert, hrun⟩ := h (fun _ => { master := 0 }) (fun _ => none)
  have hkey := Schema.keyBytes_pkeyOf.trans
    (Schema.keyBytes_eq haccepts (Schema.hasKey_of_run_insert hinsert))
  rw [Schema.run_select_kv hkey, map_eq_some_iff] at hrun
  obtain ⟨values, hvalues, heq⟩ := hrun
  obtain rfl : values = [historyRow ⟨8, by decide⟩] := congrArg Prod.fst heq
  have hfits := Schema.fits_of_eval_select hkey Schema.length_pkeyOf (by decide) hvalues
  exact absurd hfits (by decide)

end Slog.Benchx
