/-
# Rows

A row of a table is a scalar for every column.  The operations of a table on one row are put in terms
of what is stored for it: the bytes of its scalars, one after the other or under one key each.
-/
import Penteract.Table

namespace Slog.Benchx

open List Option KeyValue.Program Bytes
open KeyValue (Program)

/-! ## Scalars and their bytes -/

namespace Scalar

/-- The buffer of a text has the width of its type. -/
def Exact : Scalar → Prop
  | fixedText width buffer => buffer.length = width
  | _ => True

/-- The scalar is a value of the type. -/
def Fits (v : Scalar) (type : DataType) : Prop := v.type = type ∧ v.Exact

instance : (v : Scalar) → Decidable v.Exact
  | fixedText width buffer => inferInstanceAs (Decidable (buffer.length = width))
  | int8 _ => isTrue trivial
  | int16 _ => isTrue trivial
  | int32 _ => isTrue trivial
  | int64 _ => isTrue trivial

instance (v : Scalar) (type : DataType) : Decidable (v.Fits type) :=
  inferInstanceAs (Decidable (_ ∧ _))

/-- The bytes that are stored for the scalar. -/
def stored (v : Scalar) : List Char := v.data.take v.type.size

variable {v : Scalar} {type : DataType} {data bs : List Char}

theorem bytes_eq_stored (h : v.bytes.isSome) : v.bytes = some v.stored := by
  obtain ⟨bs, hbs⟩ := isSome_iff_exists.mp h
  rw [Scalar.bytes, readBytes] at hbs ⊢
  split_ifs at hbs ⊢
  rfl

theorem Exact.bytes (h : v.Exact) : v.bytes = some v.stored := by
  apply bytes_eq_stored
  cases v with
  | fixedText width buffer =>
    have h : buffer.toList.length = width := String.length_toList.trans h
    rw [Scalar.bytes, readBytes, if_pos]
    · rfl
    · simp only [Scalar.type, DataType.size, Scalar.data, length_append]
      omega
  | _ => simp [Scalar.bytes, readBytes, Scalar.type, DataType.size, Scalar.data]

theorem length_of_bytes (h : v.bytes = some bs) : bs.length = v.type.size := length_of_readBytes h

theorem Exact.length_stored (h : v.Exact) : v.stored.length = v.type.size := length_of_bytes h.bytes

theorem Exact.ofBytes_stored (h : v.Exact) : ofBytes v.stored v.type = v := by
  cases v with
  | fixedText width buffer =>
    have h : buffer.toList.length = width := String.length_toList.trans h
    rw [stored, Scalar.type, DataType.size, Scalar.data, take_left' h, ofBytes,
      String.ofList_toList]
  | int8 value => exact congrArg int8 (ofNat_ofLittleEndian (w := 1) (by norm_num) value)
  | int16 value => exact congrArg int16 (ofNat_ofLittleEndian (w := 2) (by norm_num) value)
  | int32 value => exact congrArg int32 (ofNat_ofLittleEndian (w := 4) (by norm_num) value)
  | int64 value => exact congrArg int64 (ofNat_ofLittleEndian (w := 8) (by norm_num) value)

theorem fits_ofBytes (h : bs.length = type.size) : (ofBytes bs type).Fits type := by
  cases type with
  | fixedText width => exact ⟨rfl, by rwa [ofBytes, Exact, String.length_ofList]⟩
  | _ => exact ⟨rfl, trivial⟩

/-- What is read is always a value of the type of the column. -/
theorem fits_of_makeScalar (h : makeScalar type data = some v) : v.Fits type := by
  obtain ⟨bytes, hbytes, rfl⟩ := map_eq_some_iff.mp h
  exact fits_ofBytes (length_of_readBytes hbytes)

/-- Two scalars of a type with the same bytes are the same. -/
theorem Fits.eq_of_stored_eq {w : Scalar} (hv : v.Fits type) (hw : w.Fits type)
    (h : v.stored = w.stored) : v = w := by
  rw [← hv.2.ofBytes_stored, ← hw.2.ofBytes_stored, h, hv.1, hw.1]

end Scalar

/-! ## Rows and what is stored for them -/

namespace Schema

variable {S : Schema}

def pkeyColumns (S : Schema) : List S.Column := (List.finRange S.columnTypes.length).take S.pkeySize

/-- The primary key of a row. -/
def pkeyOf (row : S.Column → Scalar) : List Scalar := (List.ofFn row).take S.pkeySize

/-- The scalars pass all checks of an insertion. -/
def Accepts (row : S.Column → Scalar) : Prop := ∀ c, validateType (row c) (S.type c) = true

/-- The columns that are not part of the primary key have values of their types. -/
def ValuesFit (row : S.Column → Scalar) : Prop := ∀ c, S.isPkey c = false → (row c).Fits (S.type c)

/-- The bytes of the primary key can be read. -/
def HasKey (row : S.Column → Scalar) : Prop := ∀ c, S.isPkey c = true → (row c).bytes.isSome

/-- The common part of the storage keys of the row. -/
def rowKey (row : S.Column → Scalar) : List Char :=
  match S.pkeyColumns.map fun c => (row c).stored with
  | [] => []
  | first :: rest => first ++ Char.ofNat S.id.toNat :: rest.flatten

def columnKey (row : S.Column → Scalar) (c : S.Column) : Key :=
  String.ofList (rowKey row ++ [Char.ofNat c.val])

/-- The value of a row with grouped columns. -/
def rowValue (row : S.Column → Scalar) : List Char :=
  (S.nonPkeyColumns.map fun c => (row c).stored).flatten

/-- The row is in the table, if `lookup` gives the values of the records. -/
def Holds (lookup : Key → Option Value) (row : S.Column → Scalar) : Prop :=
  if S.grouped then
    lookup (String.ofList (rowKey row)) = some (String.ofList (rowValue row))
  else
    ∀ c, S.isPkey c = false → lookup (columnKey row c) = some (String.ofList (row c).stored)

/-- The scalars of the columns that are selected, in their order. -/
def requested (row : S.Column → Scalar) (columns : List S.Column) : List Scalar :=
  if columns = [] then List.ofFn row else columns.map row

section Columns

variable {row : S.Column → Scalar} {c : S.Column}

theorem isPkey_eq_true : S.isPkey c = true ↔ c.val < S.pkeySize := by simp [isPkey]

theorem isPkey_eq_false : S.isPkey c = false ↔ S.pkeySize ≤ c.val := by simp [isPkey]

theorem mem_pkeyColumns : c ∈ S.pkeyColumns ↔ S.isPkey c = true := by
  rw [pkeyColumns, isPkey_eq_true, List.mem_take_iff_getElem]
  constructor
  · rintro ⟨i, hi, rfl⟩
    simp only [List.getElem_finRange, Fin.val_cast]
    omega
  · intro hc
    exact ⟨c.val, by simp [hc], by simp⟩

theorem mem_nonPkeyColumns : c ∈ S.nonPkeyColumns ↔ S.isPkey c = false := by
  rw [nonPkeyColumns, isPkey_eq_false, mem_drop_iff_getElem]
  constructor
  · rintro ⟨i, hi, rfl⟩
    simp
  · intro hc
    exact ⟨c.val - S.pkeySize, by simp; omega, by simp [Nat.add_sub_cancel' hc]⟩

theorem pkeyOf_eq : pkeyOf row = S.pkeyColumns.map row := by
  rw [pkeyOf, ofFn_eq_map, pkeyColumns, List.map_take]

theorem length_pkeyOf : (pkeyOf row).length = S.pkeySize := by
  rw [pkeyOf, length_take, length_ofFn, Nat.min_eq_left S.pkeySize_lt.le]

theorem getElem?_pkeyOf (hc : S.isPkey c = true) : (pkeyOf row)[c.val]? = some (row c) := by
  rw [pkeyOf, List.getElem?_take_of_lt (isPkey_eq_true.mp hc)]
  simp

theorem drop_ofFn : (List.ofFn row).drop S.pkeySize = S.nonPkeyColumns.map row := by
  rw [nonPkeyColumns, List.map_drop, ← ofFn_eq_map]

theorem map_type : (List.finRange S.columnTypes.length).map S.type = S.columnTypes :=
  map_get_finRange _

theorem zip_columnTypes : (List.ofFn row).zip S.columnTypes =
    (List.finRange S.columnTypes.length).map fun c => (row c, S.type c) := by
  rw [← zip_map', map_type, ofFn_eq_map]

theorem zip_pkeyOf :
    (pkeyOf row).zip S.columnTypes = S.pkeyColumns.map fun c => (row c, S.type c) := by
  have htypes : S.columnTypes = S.pkeyColumns.map S.type ++ S.nonPkeyColumns.map S.type := by
    rw [← map_append, pkeyColumns, nonPkeyColumns, List.take_append_drop, map_type]
  calc (pkeyOf row).zip S.columnTypes
      = (S.pkeyColumns.map row ++ []).zip
          (S.pkeyColumns.map S.type ++ S.nonPkeyColumns.map S.type) := by
        rw [← htypes, List.append_nil, pkeyOf_eq]
    _ = S.pkeyColumns.map fun c => (row c, S.type c) := by
        rw [List.zip_append (by simp), zip_map', List.zip_nil_left, List.append_nil]

/-- The columns before a column have the bytes up to its offset. -/
theorem columnOffset_eq (hvalues : ∀ c' < c, S.isPkey c' = false → (row c').Fits (S.type c'))
    (hc : S.isPkey c = false) :
    ((S.nonPkeyColumns.map fun c => (row c).stored).take (c.val - S.pkeySize)).flatten.length =
      S.columnOffset c := by
  have hle := isPkey_eq_false.mp hc
  have htypes : (S.columnTypes.take c.val).drop S.pkeySize =
      (S.nonPkeyColumns.take (c.val - S.pkeySize)).map S.type := by
    rw [nonPkeyColumns, List.take_drop, Nat.add_sub_cancel' hle, List.map_drop, List.map_take, map_type]
  rw [columnOffset, hc, if_neg Bool.false_ne_true, htypes, List.length_flatten, ← List.map_take,
    List.map_map, List.map_map]
  refine congrArg List.sum (List.map_congr_left fun c' hc' => ?_)
  have hlt : c' < c := by
    obtain ⟨i, hi, rfl⟩ := List.mem_take_iff_getElem.mp hc'
    rw [Fin.lt_def]
    simp only [nonPkeyColumns, List.getElem_drop, List.getElem_finRange, Fin.val_cast]
    omega
  have hfits := hvalues c' hlt (mem_nonPkeyColumns.mp (List.mem_of_mem_take hc'))
  exact (hfits.2.length_stored).trans (congrArg DataType.size hfits.1)

theorem getElem_nonPkeyColumns (hc : S.isPkey c = false)
    (hi : c.val - S.pkeySize < S.nonPkeyColumns.length) :
    S.nonPkeyColumns[c.val - S.pkeySize] = c := by
  have hle := isPkey_eq_false.mp hc
  simp [nonPkeyColumns, Nat.add_sub_cancel' hle]

theorem lt_length_nonPkeyColumns (hc : S.isPkey c = false) :
    c.val - S.pkeySize < S.nonPkeyColumns.length := by
  have hle := isPkey_eq_false.mp hc
  have hlt := c.isLt
  rw [nonPkeyColumns, length_drop, length_finRange]
  omega

end Columns

/-! ## Keys -/

section Keys

variable {row : S.Column → Scalar} {c : S.Column} {values : List Scalar}

theorem keyBytes_take : S.keyBytes (values.take S.pkeySize) = S.keyBytes values := by
  rw [keyBytes, keyBytes, take_take, Nat.min_self, length_take]
  simp only [le_min_iff, le_refl, true_and]

theorem keyBytes_pkeyOf : S.keyBytes (pkeyOf row) = S.keyBytes (List.ofFn row) := keyBytes_take

theorem keyBytes_eq (haccepts : Accepts row) (hkey : HasKey row) :
    S.keyBytes (List.ofFn row) = some (rowKey row) := by
  have hcheck : S.pkeySize ≤ (List.ofFn row).length ∧
      (((List.ofFn row).take S.pkeySize).zip S.columnTypes).all
        (fun e => validateType e.1 e.2) = true := by
    refine ⟨by simpa using S.pkeySize_lt.le, List.all_eq_true.mpr fun e he => ?_⟩
    rw [← pkeyOf, zip_pkeyOf] at he
    obtain ⟨c, -, rfl⟩ := mem_map.mp he
    exact haccepts c
  have hbytes : ((List.ofFn row).take S.pkeySize).mapM Scalar.bytes =
      some (S.pkeyColumns.map fun c => (row c).stored) := by
    rw [← pkeyOf, pkeyOf_eq, mapM_map]
    exact mapM_of_forall fun c hc => Scalar.bytes_eq_stored (hkey c (mem_pkeyColumns.mp hc))
  have hne : S.pkeyColumns ≠ [] := by
    rw [← length_pos_iff, pkeyColumns, length_take, length_finRange,
      Nat.min_eq_left S.pkeySize_lt.le]
    exact S.pkeySize_pos
  rw [keyBytes, if_pos hcheck, hbytes, rowKey]
  obtain ⟨c, cs, hcs⟩ := exists_cons_of_ne_nil hne
  rw [hcs]
  rfl

variable {bytes : List Char}

theorem le_length_of_keyBytes (h : S.keyBytes values = some bytes) : S.pkeySize ≤ values.length := by
  rw [keyBytes] at h
  split_ifs at h with hcheck
  exact hcheck.1

theorem hasKey_of_keyBytes (h : S.keyBytes (List.ofFn row) = some bytes) : HasKey row := by
  rw [keyBytes] at h
  split_ifs at h
  cases hbytes : ((List.ofFn row).take S.pkeySize).mapM Scalar.bytes with
  | none => simp [hbytes] at h
  | some bs =>
    rw [← pkeyOf, pkeyOf_eq, mapM_map] at hbytes
    exact fun c hc => forall_of_mapM hbytes c (mem_pkeyColumns.mpr hc)

end Keys

/-! ## The keys of an operation -/

section Accesses

variable {pkey values : List Scalar} {bytes : List Char} {columns : List S.Column}

/-- The storage key of a column of the row whose keys start with `bytes`. -/
def keyAt (bytes : List Char) (c : S.Column) : Key := String.ofList (bytes ++ [Char.ofNat c.val])

/-- The keys that a selection reads. -/
def readKeys (S : Schema) (bytes : List Char) (columns : List S.Column) : List Key :=
  if S.grouped then [String.ofList bytes]
  else ((S.orNonPkey columns).filter fun c => !S.isPkey c).map (keyAt bytes)

/-- The keys that an insertion or a deletion writes. -/
def rowKeys (S : Schema) (bytes : List Char) : List Key :=
  if S.grouped then [String.ofList bytes] else S.nonPkeyColumns.map (keyAt bytes)

/-- The keys that an update writes. -/
def updateKeys (S : Schema) (bytes : List Char) (columns : List S.Column) : List Key :=
  if S.grouped then [String.ofList bytes] else columns.map (keyAt bytes)

theorem select_within (hkey : S.keyBytes pkey = some bytes) (columns : List S.Column) :
    (S.select pkey columns).Within {access | ∃ key ∈ S.readKeys bytes columns, access = .read key}
      fun _ => True := by
  rw [select]
  split_ifs with hgrouped
  · rw [selectGrouped, makeStorageKey, hkey, map_some, ofOption_some, pure_bind]
    refine Within.bind (within_read ?_) fun value _ => ?_
    · rw [readKeys, if_pos hgrouped]
      exact ⟨_, mem_singleton_self _, rfl⟩
    · cases value with
      | none => exact within_pure trivial
      | some value =>
        simp only
        split_ifs
        · exact (within_ofOption fun _ _ => trivial).bind fun _ _ =>
            within_pure trivial
        · exact within_ofOption fun _ _ => trivial
  · rw [selectUngrouped, makeStorageKeys, hkey, map_some, ofOption_some, pure_bind]
    have hcolumn : ∀ e ∈ ((S.orNonPkey columns).map (keyAt bytes)).zip (S.orNonPkey columns),
        (S.selectColumn pkey e).Within {access | ∃ key ∈ S.readKeys bytes columns, access = .read key}
          fun _ => True := by
      intro e he
      rw [← List.map_prod_right_eq_zip] at he
      obtain ⟨c, hc, rfl⟩ := mem_map.mp he
      rw [selectColumn]
      split_ifs with hpkey
      · exact (within_ofOption fun _ _ => trivial).bind fun _ _ => within_pure trivial
      · refine Within.bind (within_read ?_) fun value _ => ?_
        · rw [readKeys, if_neg hgrouped]
          have hmem : c ∈ (S.orNonPkey columns).filter fun c => !S.isPkey c :=
            mem_filter.mpr ⟨hc, by simpa using hpkey⟩
          exact ⟨_, mem_map_of_mem hmem, rfl⟩
        · cases value with
          | none => exact within_pure trivial
          | some value =>
            simp only
            split_ifs
            · exact within_pure trivial
            · exact (within_ofOption fun _ _ => trivial).bind fun _ _ =>
                within_pure trivial
    refine (within_mapM hcolumn).bind fun result _ => ?_
    simp only
    split_ifs <;> exact within_pure trivial

theorem acceptsUpdate_iff : S.acceptsUpdate columns values = true ↔
    columns.length = values.length ∧
      ∀ e ∈ columns.zip values, validateType e.2 (S.type e.1) = true := by
  rw [acceptsUpdate, Bool.and_eq_true, decide_eq_true_iff, List.all_eq_true]

/-- No column is updated if none is given. -/
theorem zip_orNonPkey {f : S.Column → Key} (hlength : columns.length = values.length) :
    ((S.orNonPkey columns).map f).zip values = (columns.zip values).map fun e => (f e.1, e.2) := by
  rw [orNonPkey]
  split_ifs with hnil
  · rw [hnil, length_nil] at hlength
    rw [hnil, eq_nil_of_length_eq_zero hlength.symm, zip_nil_right]
    rfl
  · exact zip_map_left

theorem insert_within (hkey : S.keyBytes values = some bytes) :
    (S.insert values).Within {access | ∃ key ∈ S.rowKeys bytes, access = .write key}
      fun _ => True := by
  rw [insert]
  by_cases haccepts : S.acceptsInsert values = true
  · rw [if_pos haccepts]
    refine Within.bind (within_ofOption fun _ _ => trivial) fun bs _ => ?_
    split_ifs with hgrouped
    · rw [makeStorageKey, hkey, map_some, ofOption_some, pure_bind, rowKeys,
        if_pos hgrouped]
      exact within_call ⟨_, mem_singleton_self _, rfl⟩ fun _ =>
        within_pure trivial
    · rw [makeStorageKeys, hkey, map_some, ofOption_some, pure_bind, rowKeys,
        if_neg hgrouped, orNonPkey, if_pos rfl]
      refine within_perform fun c hc => ?_
      obtain ⟨e, he, rfl⟩ := mem_map.mp hc
      exact ⟨e.1, (of_mem_zip he).1, rfl⟩
  · rw [if_neg haccepts]
    exact within_fault

theorem update_within (hkey : S.keyBytes pkey = some bytes) (columns : List S.Column) :
    (S.update pkey columns values).Within {access | ∃ key ∈ S.updateKeys bytes columns,
      access = .write key} fun _ => True := by
  rw [update]
  split_ifs with haccepts hgrouped
  · rw [makeStorageKey, hkey, map_some, ofOption_some, pure_bind, updateKeys,
      if_pos hgrouped]
    exact within_call ⟨_, mem_singleton_self _, rfl⟩ fun _ =>
      within_pure trivial
  · rw [makeStorageKeys, hkey, map_some, ofOption_some, pure_bind, updateKeys,
      if_neg hgrouped]
    refine within_perform fun c hc => ?_
    obtain ⟨e, he, rfl⟩ := mem_map.mp hc
    rw [zip_orNonPkey (acceptsUpdate_iff.mp haccepts).1] at he
    obtain ⟨e', he', rfl⟩ := mem_map.mp he
    exact ⟨_, mem_map_of_mem (of_mem_zip he').1, rfl⟩
  · exact within_fault

theorem select_dry (hkey : S.keyBytes pkey = some bytes) (columns : List S.Column) :
    (S.select pkey columns).Dry ((S.readKeys bytes columns).map .read) [] := by
  rw [select, readKeys]
  split_ifs with hgrouped
  · rw [selectGrouped, makeStorageKey, hkey]
    exact (dry_read _).bind (dry_pure [])
  · have hcolumn : ∀ c ∈ S.orNonPkey columns, (S.selectColumn pkey (keyAt bytes c, c)).Dry
        (if S.isPkey c then [] else [.read (keyAt bytes c)])
        (if S.isPkey c then pkey[c.val]? else none) := by
      intro c _
      rw [selectColumn]
      split_ifs with hpkey
      · have hlt : c.val < pkey.length :=
          (isPkey_eq_true.mp hpkey).trans_le (le_length_of_keyBytes hkey)
        rw [List.getElem?_eq_getElem hlt]
        exact dry_pure _
      · exact (dry_read _).bind (dry_pure _)
    have htrace : (S.orNonPkey columns).flatMap (fun c =>
        if S.isPkey c then [] else [.read (keyAt bytes c)]) =
          (((S.orNonPkey columns).filter fun c => !S.isPkey c).map (keyAt bytes)).map
            KeyValue.Access.read := by
      induction S.orNonPkey columns with
      | nil => rfl
      | cons c cs ih =>
        rw [flatMap_cons, ih, filter_cons]
        cases S.isPkey c <;> simp
    rw [selectUngrouped, makeStorageKeys, hkey, map_some, ofOption_some, pure_bind,
      ← List.map_prod_right_eq_zip, mapM_map, ← htrace, ← List.append_nil (List.flatMap _ _)]
    refine Dry.bind (dry_mapM hcolumn) ?_
    rw [← List.map_prod_right_eq_zip, List.any_map, if_neg]
    · exact dry_pure []
    · rw [List.any_eq_true]
      rintro ⟨c, -, hc⟩
      cases hpkey : S.isPkey c <;> simp [hpkey] at hc

theorem insert_dry (hkey : S.keyBytes values = some bytes) (haccepts : S.acceptsInsert values = true)
    {bs : List (List Char)} (hbytes : (values.drop S.pkeySize).mapM Scalar.bytes = some bs) :
    ∃ ok, (S.insert values).Dry ((S.rowKeys bytes).map .write) ok := by
  rw [insert, if_pos haccepts, hbytes, ofOption_some, pure_bind, rowKeys]
  split_ifs with hgrouped
  · rw [makeStorageKey, hkey]
    exact ⟨false, rfl, rfl⟩
  · rw [makeStorageKeys, hkey, map_some, ofOption_some, pure_bind, orNonPkey, if_pos rfl]
    have hlength : (S.nonPkeyColumns.map (keyAt bytes)).length ≤ bs.length := by
      have hvalues : values.length = S.columnTypes.length := by
        rw [acceptsInsert, Bool.and_eq_true, decide_eq_true_iff] at haccepts
        exact haccepts.1
      rw [length_of_mapM hbytes, length_map, nonPkeyColumns, length_drop, length_drop,
        length_finRange, hvalues]
    have hdry := dry_perform (((S.nonPkeyColumns.map (keyAt bytes)).zip bs).map fun e =>
      (.insert e.1 (String.ofList e.2) : StorageCall))
    rw [List.map_map] at hdry
    have htrace : ((S.nonPkeyColumns.map (keyAt bytes)).zip bs).map (KeyValue.Call.access ∘ fun e =>
        (.insert e.1 (String.ofList e.2) : StorageCall)) =
          (S.nonPkeyColumns.map (keyAt bytes)).map .write := by
      conv_rhs => rw [← List.map_fst_zip hlength, List.map_map]
      rfl
    exact ⟨_, htrace ▸ hdry⟩

theorem update_dry (hkey : S.keyBytes pkey = some bytes)
    (haccepts : S.acceptsUpdate columns values = true) :
    ∃ ok, (S.update pkey columns values).Dry ((S.updateKeys bytes columns).map .write) ok := by
  have hlength := (acceptsUpdate_iff.mp haccepts).1
  rw [update, if_pos haccepts, updateKeys]
  split_ifs with hgrouped
  · rw [makeStorageKey, hkey]
    exact ⟨false, rfl, rfl⟩
  · rw [makeStorageKeys, hkey, map_some, ofOption_some, pure_bind,
      zip_orNonPkey hlength]
    have hdry := dry_perform (((columns.zip values).map fun e => (keyAt bytes e.1, e.2)).map
      fun e => (.update e.1 fun _ => e.2.bytes.map String.ofList : StorageCall))
    have htrace : (((columns.zip values).map fun e => (keyAt bytes e.1, e.2)).map fun e =>
        (.update e.1 fun _ => e.2.bytes.map String.ofList : StorageCall)).map KeyValue.Call.access =
          (columns.map (keyAt bytes)).map .write := by
      conv_rhs => rw [← List.map_fst_zip hlength.le, List.map_map, List.map_map]
      rw [List.map_map, List.map_map]
      rfl
    exact ⟨_, htrace ▸ hdry⟩

theorem delete_dry (hkey : S.keyBytes pkey = some bytes) (hgrouped : S.grouped = true) :
    (S.delete pkey).Dry ((S.rowKeys bytes).map .write) false := by
  rw [delete, if_pos hgrouped, rowKeys, if_pos hgrouped, makeStorageKey, hkey]
  exact ⟨rfl, rfl⟩

/-- The common part of the storage keys of the row with the primary key. -/
def keyOf (S : Schema) (pkey : List Scalar) : List Char := (S.keyBytes pkey).getD []

/-- The primary key passes the checks and its bytes can be read. -/
def keyOk (S : Schema) (pkey : List Scalar) : Bool :=
  S.pkeySize ≤ pkey.length &&
    ((pkey.take S.pkeySize).zip S.columnTypes).all (fun e => validateType e.1 e.2) &&
    (pkey.take S.pkeySize).all fun v => v.Exact

theorem keyBytes_of_keyOk (h : S.keyOk pkey = true) : S.keyBytes pkey = some (S.keyOf pkey) := by
  rw [keyOk, Bool.and_eq_true, Bool.and_eq_true, decide_eq_true_iff] at h
  obtain ⟨⟨hle, hvalid⟩, hexact⟩ := h
  have hbytes := mapM_of_forall (f := Scalar.bytes) fun v hv =>
    Scalar.Exact.bytes (by simpa using List.all_eq_true.mp hexact v hv)
  have hlength : ((pkey.take S.pkeySize).map Scalar.stored).length ≠ 0 := by
    rw [length_map, length_take, Nat.min_eq_left hle]
    exact S.pkeySize_pos.ne'
  rw [keyOf, Schema.keyBytes, if_pos ⟨hle, hvalid⟩, hbytes]
  cases hstored : (pkey.take S.pkeySize).map Scalar.stored with
  | nil => exact absurd (congrArg List.length hstored) hlength
  | cons first rest => rfl

def selectAccesses (S : Schema) (pkey : List Scalar) (columns : List S.Column) :
    List (KeyValue.Access Key) :=
  (S.readKeys (S.keyOf pkey) columns).map .read

def rowAccesses (S : Schema) (pkey : List Scalar) : List (KeyValue.Access Key) :=
  (S.rowKeys (S.keyOf pkey)).map .write

def updateAccesses (S : Schema) (pkey : List Scalar) (columns : List S.Column) :
    List (KeyValue.Access Key) :=
  (S.updateKeys (S.keyOf pkey) columns).map .write

variable (S) in
theorem select_static (pkey : List Scalar) (hkey : S.keyOk pkey = true) (columns : List S.Column) :
    (S.select pkey columns).Static (S.selectAccesses pkey columns) [] fun _ => True := by
  refine ⟨(select_within (keyBytes_of_keyOk hkey) columns).mono ?_ fun _ h => h,
    select_dry (keyBytes_of_keyOk hkey) columns⟩
  rintro _ ⟨key, hmem, rfl⟩
  exact mem_map_of_mem hmem

theorem keyBytes_of_take (hkey : S.keyOk (values.take S.pkeySize) = true) :
    S.keyBytes values = some (S.keyOf (values.take S.pkeySize)) := by
  rw [← keyBytes_take]
  exact keyBytes_of_keyOk hkey

variable (S) in
theorem insert_within_rowAccesses {pkey : List Scalar}
    (htake : values.take S.pkeySize = pkey) (hkey : S.keyOk pkey = true) :
    (S.insert values).Within {access | access ∈ S.rowAccesses pkey} fun _ => True := by
  subst htake
  refine (insert_within (keyBytes_of_take hkey)).mono ?_ fun _ h => h
  rintro _ ⟨key, hmem, rfl⟩
  exact mem_map_of_mem hmem

variable (S) in
theorem insert_dry_rowAccesses {pkey : List Scalar}
    (htake : values.take S.pkeySize = pkey) (hkey : S.keyOk pkey = true)
    (haccepts : S.acceptsInsert values = true)
    (hbytes : (values.drop S.pkeySize).all (fun v => v.bytes.isSome) = true) :
    ∃ ok, (S.insert values).Dry (S.rowAccesses pkey) ok := by
  subst htake
  have hmapM := mapM_of_forall (f := Scalar.bytes) fun v hv =>
    Scalar.bytes_eq_stored (List.all_eq_true.mp hbytes v hv)
  exact insert_dry (keyBytes_of_take hkey) haccepts hmapM

variable (S) in
theorem update_within_updateAccesses (pkey : List Scalar) (columns : List S.Column)
    (values : List Scalar) (hkey : S.keyOk pkey = true) :
    (S.update pkey columns values).Within {access | access ∈ S.updateAccesses pkey columns}
      fun _ => True := by
  refine (update_within (keyBytes_of_keyOk hkey) columns).mono ?_ fun _ h => h
  rintro _ ⟨key, hmem, rfl⟩
  exact mem_map_of_mem hmem

variable (S) in
theorem update_dry_updateAccesses (pkey : List Scalar) (columns : List S.Column)
    (values : List Scalar) (hkey : S.keyOk pkey = true)
    (haccepts : S.acceptsUpdate columns values = true) :
    ∃ ok, (S.update pkey columns values).Dry (S.updateAccesses pkey columns) ok :=
  update_dry (keyBytes_of_keyOk hkey) haccepts

section Grouped

variable {σ : Type} {adapter : KeyValue.Adapter Key Value σ} {s : σ}

theorem selectAccesses_grouped (hgrouped : S.grouped = true) (pkey : List Scalar)
    (columns : List S.Column) :
    S.selectAccesses pkey columns = [.read (String.ofList (S.keyOf pkey))] := by
  rw [selectAccesses, readKeys, if_pos hgrouped]
  rfl

theorem rowAccesses_grouped (hgrouped : S.grouped = true) (pkey : List Scalar) :
    S.rowAccesses pkey = [.write (String.ofList (S.keyOf pkey))] := by
  rw [rowAccesses, rowKeys, if_pos hgrouped]
  rfl

theorem mem_trace_select (hgrouped : S.grouped = true) (hkey : S.keyOk pkey = true)
    (columns : List S.Column) :
    .read (String.ofList (S.keyOf pkey)) ∈ (S.select pkey columns).trace adapter s := by
  rw [select, if_pos hgrouped, selectGrouped, makeStorageKey, keyBytes_of_keyOk hkey, map_some,
    ofOption_some, pure_bind]
  exact mem_trace_bind.mpr (Or.inl mem_cons_self)

theorem delete_grouped (hgrouped : S.grouped = true) (hkey : S.keyOk pkey = true) :
    S.delete pkey = Program.delete (String.ofList (S.keyOf pkey)) := by
  rw [delete, if_pos hgrouped, makeStorageKey, keyBytes_of_keyOk hkey]
  rfl

/-- A row is found only if there is a record. -/
theorem exists_record_of_run_select (hgrouped : S.grouped = true) (hkey : S.keyOk pkey = true)
    {r : List Scalar × σ} (hrun : (S.select pkey columns).run adapter s = some r) (hfound : r.1 ≠ []) :
    ∃ value s', adapter.answer s (.read (String.ofList (S.keyOf pkey))) = some (some value, s') := by
  rw [select, if_pos hgrouped, selectGrouped, makeStorageKey, keyBytes_of_keyOk hkey, map_some,
    ofOption_some, pure_bind, run_bind, run_read] at hrun
  obtain ⟨⟨value, s'⟩, hanswer, hrun⟩ := bind_eq_some_iff.mp hrun
  cases value with
  | none =>
    cases hrun
    exact absurd rfl hfound
  | some value => exact ⟨value, s', hanswer⟩

end Grouped

/-! Rows with the same storage key have the same primary key. -/

/-- The primary key has scalars of the types of its columns. -/
def PkeyFits (S : Schema) (pkey : List Scalar) : Prop :=
  Forall₂ Scalar.Fits pkey (S.columnTypes.take S.pkeySize)

theorem PkeyFits.length_eq (h : S.PkeyFits pkey) : pkey.length = S.pkeySize := by
  rw [List.Forall₂.length_eq h, length_take, Nat.min_eq_left S.pkeySize_lt.le]

theorem PkeyFits.exact (h : S.PkeyFits pkey) {v : Scalar} (hv : v ∈ pkey) : v.Exact := by
  obtain ⟨i, hi, rfl⟩ := getElem_of_mem hv
  exact ((forall₂_iff_get.mp h).2 i hi (List.Forall₂.length_eq h ▸ hi)).2

theorem PkeyFits.keyOk (h : S.PkeyFits pkey) : S.keyOk pkey = true := by
  have hzip : pkey.zip S.columnTypes = pkey.zip (S.columnTypes.take S.pkeySize) := by
    calc pkey.zip S.columnTypes
        = (pkey ++ []).zip (S.columnTypes.take S.pkeySize ++ S.columnTypes.drop S.pkeySize) := by
          rw [List.append_nil, List.take_append_drop]
      _ = pkey.zip (S.columnTypes.take S.pkeySize) := by
          rw [List.zip_append (List.Forall₂.length_eq h), List.zip_nil_left, List.append_nil]
  rw [Schema.keyOk, List.take_of_length_le h.length_eq.le, hzip, Bool.and_eq_true, Bool.and_eq_true,
    decide_eq_true_iff, List.all_eq_true, List.all_eq_true]
  refine ⟨⟨h.length_eq.ge, fun e he => ?_⟩, fun v hv => by simpa using h.exact hv⟩
  rw [validateType, (List.forall₂_zip h he).1, decide_eq_true_iff]

/-- The first four bytes of a key are the partitioning column, the next one is the table. -/
theorem PkeyFits.keyOf_eq (h : S.PkeyFits pkey) : ∃ v vs, pkey = v :: vs ∧ v.stored.length = 4 ∧
    S.keyOf pkey = v.stored ++ Char.ofNat S.id.toNat :: (vs.map Scalar.stored).flatten := by
  have hkey := keyBytes_of_keyOk h.keyOk
  have hbytes : (pkey.take S.pkeySize).mapM Scalar.bytes = some (pkey.map Scalar.stored) := by
    rw [List.take_of_length_le h.length_eq.le]
    exact mapM_of_forall fun v hv => (h.exact hv).bytes
  cases pkey with
  | nil => exact absurd h.length_eq S.pkeySize_pos.ne
  | cons v vs =>
    have htype : v.type = .int32 := by
      have hhead := S.head
      rw [PkeyFits] at h
      cases htypes : S.columnTypes with
      | nil => simp [htypes] at hhead
      | cons type types =>
        rw [htypes, List.head?_cons, some_inj] at hhead
        rw [htypes, ← Nat.succ_pred S.pkeySize_pos.ne', take_succ_cons] at h
        cases h with
        | cons hv _ => exact hv.1.trans hhead
    refine ⟨v, vs, rfl, ?_, ?_⟩
    · rw [(h.exact mem_cons_self).length_stored, htype]
      rfl
    · rw [keyBytes, hbytes, map_cons] at hkey
      split_ifs at hkey
      exact (some_inj.mp hkey).symm

theorem eq_of_flatten_stored {vs ws : List Scalar} {types : List DataType}
    (hvs : Forall₂ Scalar.Fits vs types) (hws : Forall₂ Scalar.Fits ws types)
    (h : (vs.map Scalar.stored).flatten = (ws.map Scalar.stored).flatten) : vs = ws := by
  induction hvs generalizing ws with
  | nil => cases hws; rfl
  | cons hv _ ih =>
    cases hws with
    | cons hw hws =>
      rw [map_cons, map_cons, flatten_cons, flatten_cons] at h
      have hlength := hv.2.length_stored.trans
        ((congrArg DataType.size (hv.1.trans hw.1.symm)).trans hw.2.length_stored.symm)
      obtain ⟨hfirst, hrest⟩ := append_inj h hlength
      rw [hv.eq_of_stored_eq hw hfirst, ih hws hrest]

variable {pkey' : List Scalar} {S' : Schema} {access : KeyValue.Access Key}

theorem PkeyFits.eq_of_keyOf (h : S.PkeyFits pkey) (h' : S.PkeyFits pkey')
    (hkey : S.keyOf pkey = S.keyOf pkey') : pkey = pkey' := by
  obtain ⟨v, vs, rfl, hlength, heq⟩ := h.keyOf_eq
  obtain ⟨w, ws, rfl, hlength', heq'⟩ := h'.keyOf_eq
  rw [heq, heq'] at hkey
  obtain ⟨hfirst, hrest⟩ := append_inj hkey (hlength.trans hlength'.symm)
  refine eq_of_flatten_stored h h' ?_
  rw [map_cons, map_cons, flatten_cons, flatten_cons, hfirst,
    (List.cons.inj hrest).2]

theorem tableId_inj {id id' : TableId} (h : Char.ofNat id.toNat = Char.ofNat id'.toNat) : id = id' := by
  cases id <;> cases id' <;> first | rfl | exact absurd h (by decide)

theorem PkeyFits.id_eq_of_keyOf (h : S.PkeyFits pkey) (h' : S'.PkeyFits pkey') {rest rest' : List Char}
    (hkey : S.keyOf pkey ++ rest = S'.keyOf pkey' ++ rest') : S.id = S'.id := by
  obtain ⟨v, vs, rfl, hlength, heq⟩ := h.keyOf_eq
  obtain ⟨w, ws, rfl, hlength', heq'⟩ := h'.keyOf_eq
  rw [heq, heq', append_assoc, append_assoc] at hkey
  have hrest := (append_inj hkey (hlength.trans hlength'.symm)).2
  exact tableId_inj (List.cons.inj hrest).1

theorem key_of_mem_rowAccesses (h : access ∈ S.rowAccesses pkey) :
    ∃ rest, access.key = String.ofList (S.keyOf pkey ++ rest) := by
  obtain ⟨key, hkey, rfl⟩ := mem_map.mp h
  rw [rowKeys] at hkey
  split_ifs at hkey
  · exact ⟨[], by rw [List.append_nil]; exact mem_singleton.mp hkey⟩
  · obtain ⟨c, -, rfl⟩ := mem_map.mp hkey
    exact ⟨_, rfl⟩

theorem key_of_mem_updateAccesses (h : access ∈ S.updateAccesses pkey columns) :
    ∃ rest, access.key = String.ofList (S.keyOf pkey ++ rest) := by
  obtain ⟨key, hkey, rfl⟩ := mem_map.mp h
  rw [updateKeys] at hkey
  split_ifs at hkey
  · exact ⟨[], by rw [List.append_nil]; exact mem_singleton.mp hkey⟩
  · obtain ⟨c, -, rfl⟩ := mem_map.mp hkey
    exact ⟨_, rfl⟩

/-- The rows of other tables have other keys. -/
theorem PkeyFits.key_ne (h : S.PkeyFits pkey) (h' : S'.PkeyFits pkey') (hid : S.id ≠ S'.id) {key : Key}
    (hkey : ∃ rest, key = String.ofList (S.keyOf pkey ++ rest)) :
    key ≠ String.ofList (S'.keyOf pkey') := by
  obtain ⟨rest, rfl⟩ := hkey
  intro heq
  have happend := String.ofList_injective heq
  rw [← List.append_nil (S'.keyOf pkey')] at happend
  exact hid (h.id_eq_of_keyOf h' happend)

theorem PkeyFits.insert_within_other (h : S.PkeyFits (values.take S.pkeySize)) (h' : S'.PkeyFits pkey')
    (hid : S.id ≠ S'.id) :
    (S.insert values).Within {access | access.key ≠ String.ofList (S'.keyOf pkey')} fun _ => True :=
  (S.insert_within_rowAccesses rfl h.keyOk).mono
    (fun _ haccess => h.key_ne h' hid (key_of_mem_rowAccesses haccess)) fun _ h => h

theorem PkeyFits.update_within_other (h : S.PkeyFits pkey) (h' : S'.PkeyFits pkey') (hid : S.id ≠ S'.id) :
    (S.update pkey columns values).Within {access | access.key ≠ String.ofList (S'.keyOf pkey')}
      fun _ => True :=
  (S.update_within_updateAccesses pkey columns values h.keyOk).mono
    (fun _ haccess => h.key_ne h' hid (key_of_mem_updateAccesses haccess)) fun _ h => h

end Accesses

end Schema

end Slog.Benchx
