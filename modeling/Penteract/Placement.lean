/-
# Where rows are placed

A storage key starts with the number of a warehouse, from which the sharder computes the partition and
the metadata initializer the home of the record.  The tables are loaded at every partition by several
threads, each with a range of the warehouses.
-/
import Penteract.TableRows

namespace Slog.Benchx

open List Bytes

/-- The warehouse id that is read at the start of a key. -/
def warehouseId (key : Key) : Option (BitVec 32) :=
  (readBytes 4 key.toList).map fun bytes => BitVec.ofNat 32 (ofLittleEndian bytes)

/-- The difference of the `int`s is converted to an unsigned number. -/
def BenchXSharder.computePartition (numPartitions : ℕ) (key : Key) : Option PartitionId :=
  if numPartitions = 0 then none else (warehouseId key).map fun w => (w - 1).toNat % numPartitions

def BenchXMetadataInitializer.compute (numRegions numPartitions : ℕ) (key : Key) :
    Option MasterMetadata :=
  if numRegions = 0 ∨ numPartitions = 0 then none
  else (warehouseId key).map fun w => { master := (w - 1).toNat / numPartitions % numRegions }

/-! ## Cells -/

def tables : List Schema :=
  [warehouseSchema, districtSchema, customerSchema, customerByNameSchema, historySchema, newOrderSchema,
    orderSchema, orderLineSchema, itemSchema, itemByNameSchema, stockSchema]

namespace Schema

variable {S S' : Schema} {pkey pkey' : List Scalar}

/-- The storage key under which the column of a row is found. -/
def cellKey (S : Schema) (pkey : List Scalar) (c : S.Column) : Option Key :=
  if S.grouped then S.makeStorageKey pkey else (S.makeStorageKeys pkey [c]).bind List.head?

/-- The part of the key after the primary key. -/
def columnByte (S : Schema) (c : S.Column) : List Char := if S.grouped then [] else [Char.ofNat c.val]

theorem PkeyFits.cellKey_eq (h : S.PkeyFits pkey) (c : S.Column) :
    S.cellKey pkey c = some (String.ofList (S.keyOf pkey ++ S.columnByte c)) := by
  rw [cellKey, columnByte, makeStorageKey, makeStorageKeys, keyBytes_of_keyOk h.keyOk]
  split_ifs
  · rw [append_nil]
    rfl
  · rfl

theorem PkeyFits.warehouseId_eq (h : S.PkeyFits pkey) :
    ∃ w, ∀ rest, warehouseId (String.ofList (S.keyOf pkey ++ rest)) = some w := by
  obtain ⟨v, vs, -, hlength, hkey⟩ := h.keyOf_eq
  refine ⟨BitVec.ofNat 32 (ofLittleEndian v.stored), fun rest => ?_⟩
  rw [warehouseId, String.toList_ofList, hkey, append_assoc, readBytes_append hlength]
  rfl

theorem eq_of_id_eq (hS : S ∈ tables) (hS' : S' ∈ tables) (h : S.id = S'.id) : S = S' :=
  inj_on_of_nodup_map (by decide : (tables.map Schema.id).Nodup) hS hS' h

/-- Cells with the same storage key are the same. -/
theorem PkeyFits.eq_of_cellKey (hS : S ∈ tables) (hS' : S' ∈ tables) (h : S.PkeyFits pkey)
    (h' : S'.PkeyFits pkey') {c : S.Column} {c' : S'.Column}
    (hkey : S.cellKey pkey c = S'.cellKey pkey' c') :
    S = S' ∧ pkey = pkey' ∧ (S.grouped = false → c.val = c'.val) := by
  rw [h.cellKey_eq, h'.cellKey_eq, Option.some_inj] at hkey
  have hbytes := String.ofList_injective hkey
  obtain rfl := eq_of_id_eq hS hS' (h.id_eq_of_keyOf h' hbytes)
  have hlength : (S.columnByte c).length = (S.columnByte c').length := by
    rw [columnByte, columnByte]
    split_ifs <;> rfl
  obtain ⟨hpkey, hcolumn⟩ := append_inj' hbytes hlength
  refine ⟨rfl, h.eq_of_keyOf h' hpkey, fun hgrouped => ?_⟩
  rw [columnByte, columnByte, hgrouped, if_neg Bool.false_ne_true, if_neg Bool.false_ne_true] at hcolumn
  have hle := S.length_le
  rw [← toNat_ofNat_of_lt (n := c.val) (by omega), (List.cons.inj hcolumn).1,
    toNat_ofNat_of_lt (by omega)]

/-- A storage key belongs to one cell, and the keys of a row are placed together. -/
theorem storageKeys_identify_cells :
    (∀ S ∈ tables, ∀ S' ∈ tables, ∀ pkey pkey', S.PkeyFits pkey → S'.PkeyFits pkey' →
      ∀ (c : S.Column) (c' : S'.Column), S.cellKey pkey c = S'.cellKey pkey' c' →
        S = S' ∧ pkey = pkey' ∧ (S.grouped = false → c.val = c'.val)) ∧
    ∀ S ∈ tables, ∀ pkey, S.PkeyFits pkey → ∀ numRegions > 0, ∀ numPartitions > 0,
      ∃ p metadata, ∀ c, ∃ key, S.cellKey pkey c = some key ∧
        BenchXSharder.computePartition numPartitions key = some p ∧
        BenchXMetadataInitializer.compute numRegions numPartitions key = some metadata := by
  refine ⟨fun S hS S' hS' pkey pkey' h h' c c' hkey => h.eq_of_cellKey hS hS' h' hkey,
    fun S _ pkey h numRegions hR numPartitions hP => ?_⟩
  obtain ⟨w, hw⟩ := h.warehouseId_eq
  refine ⟨(w - 1).toNat % numPartitions, { master := (w - 1).toNat / numPartitions % numRegions },
    fun c => ⟨_, h.cellKey_eq c, ?_, ?_⟩⟩
  · rw [BenchXSharder.computePartition, if_neg hP.ne', hw, Option.map_some]
  · rw [BenchXMetadataInitializer.compute, if_neg (by omega), hw, Option.map_some]

end Schema

/-! ## Loading the tables -/

/-- `for (int id = from; id < to; id += step)` -/
def steps (step stop id : ℕ) : List ℕ :=
  if h : id < stop ∧ 0 < step then id :: steps step stop (id + step) else []
termination_by stop - id

theorem mem_steps {step stop id w : ℕ} (hstep : 0 < step) :
    w ∈ steps step stop id ↔ id ≤ w ∧ w < stop ∧ step ∣ w - id := by
  fun_induction steps step stop id with
  | case1 id h ih =>
    rw [mem_cons, ih]
    constructor
    · rintro (rfl | ⟨hle, hlt, hdvd⟩)
      · exact ⟨le_rfl, h.1, by simp⟩
      · refine ⟨by omega, hlt, ?_⟩
        have heq : w - id = w - (id + step) + step := by omega
        rw [heq]
        exact Nat.dvd_add_self_right.mpr hdvd
    · rintro ⟨hle, hlt, hdvd⟩
      rcases hle.eq_or_lt with rfl | hlt'
      · exact .inl rfl
      · have hge := Nat.le_of_dvd (by omega) hdvd
        have heq : w - id = w - (id + step) + step := by omega
        rw [heq, Nat.dvd_add_self_right] at hdvd
        exact .inr ⟨by omega, hlt, hdvd⟩
  | case2 id h => simp only [not_mem_nil, false_iff]; omega

theorem nodup_steps (step stop id : ℕ) : (steps step stop id).Nodup := by
  fun_induction steps step stop id with
  | case1 id h ih =>
    refine nodup_cons.mpr ⟨fun hmem => ?_, ih⟩
    have hle := ((mem_steps h.2).mp hmem).1
    omega
  | case2 => exact nodup_nil

/-- The arguments of `LoadTables`. -/
structure LoadTables where
  numWarehouses : ℕ
  numRegions : ℕ
  numPartitions : ℕ
  part : PartitionId
  numThreads : ℕ
  part_lt : part < numPartitions
  numThreads_pos : 0 < numThreads

namespace LoadTables

variable (L : LoadTables)

/-- One representative warehouse for each of the next regions. -/
def repFrom : ℕ → ℕ → List ℕ
  | 0, _ => []
  | n + 1, counter => (counter + 1) :: repFrom n (counter + L.numPartitions)

def repW : List ℕ := L.repFrom L.numRegions L.part

def range : ℕ := L.numWarehouses / L.numThreads + 1

/-- The warehouses that thread `i` loads. -/
def threadIds (i : ℕ) : List ℕ :=
  let rangeStart := i * L.range
  let distance := (L.part + L.numPartitions - rangeStart % L.numPartitions) % L.numPartitions
  let fromKey := rangeStart + distance
  let toKey := min ((i + 1) * L.range) L.numWarehouses
  steps L.numPartitions (toKey + 1) (fromKey + 1)

/-- What all threads load. -/
def loaded : List ℕ := (List.range L.numThreads).flatMap L.threadIds

/-- The first number of a residue class from `start` on. -/
theorem le_and_dvd_iff {P p : ℕ} (hp : p < P) (start v : ℕ) :
    start + (p + P - start % P) % P ≤ v ∧ P ∣ v - (start + (p + P - start % P) % P) ↔
      start ≤ v ∧ v % P = p := by
  have hP : 0 < P := by omega
  have hlt := Nat.mod_lt (p + P - start % P) hP
  have hstart := Nat.mod_lt start hP
  set d := (p + P - start % P) % P with hd
  have hmod : (start + d) % P = p := by
    rw [hd, Nat.add_mod_mod, ← Nat.mod_add_mod, Nat.add_sub_cancel' (by omega), Nat.add_mod_right,
      Nat.mod_eq_of_lt hp]
  constructor
  · rintro ⟨hle, hdvd⟩
    refine ⟨by omega, ?_⟩
    rw [← hmod]
    exact ((Nat.modEq_iff_dvd' hle).mpr hdvd).symm
  · rintro ⟨hle, hv⟩
    have hmodEq : (start + d) ≡ v [MOD P] := hmod.trans hv.symm
    have hge : start + d ≤ v := by
      by_contra hcon
      have hdvd := (Nat.modEq_iff_dvd' (by omega : v ≤ start + d)).mp hmodEq.symm
      have := Nat.le_of_dvd (by omega) hdvd
      omega
    exact ⟨hge, (Nat.modEq_iff_dvd' hge).mp hmodEq⟩

theorem mem_threadIds {i w : ℕ} : w ∈ L.threadIds i ↔
    1 ≤ w ∧ w ≤ L.numWarehouses ∧ (w - 1) % L.numPartitions = L.part ∧ (w - 1) / L.range = i := by
  have hrange : 0 < L.range := Nat.succ_pos _
  cases w with
  | zero => simp [threadIds, mem_steps (L.part.zero_le.trans_lt L.part_lt)]
  | succ v =>
    have hclass := le_and_dvd_iff L.part_lt (i * L.range) v
    rw [threadIds, mem_steps (L.part.zero_le.trans_lt L.part_lt), Nat.add_le_add_iff_right,
      Nat.add_sub_add_right, Nat.add_sub_cancel, Nat.div_eq_iff hrange]
    have hsucc : (i + 1) * L.range = i * L.range + L.range := Nat.succ_mul _ _
    omega

theorem nodup_loaded : L.loaded.Nodup := by
  refine nodup_flatMap.mpr ⟨fun i _ => nodup_steps _ _ _, nodup_range.imp fun hne => ?_⟩
  intro w hw hw'
  exact hne ((L.mem_threadIds.mp hw).2.2.2.symm.trans (L.mem_threadIds.mp hw').2.2.2)

theorem mem_loaded {w : ℕ} : w ∈ L.loaded ↔
    1 ≤ w ∧ w ≤ L.numWarehouses ∧ (w - 1) % L.numPartitions = L.part := by
  simp only [loaded, mem_flatMap, mem_range, mem_threadIds]
  constructor
  · rintro ⟨i, -, h⟩
    exact ⟨h.1, h.2.1, h.2.2.1⟩
  · rintro ⟨hpos, hle, hmod⟩
    refine ⟨_, ?_, hpos, hle, hmod, rfl⟩
    have hcover : L.numWarehouses < L.numThreads * L.range :=
      Nat.lt_mul_div_succ _ L.numThreads_pos
    exact Nat.div_lt_of_lt_mul (by rw [mul_comm]; omega)

theorem length_repFrom (n counter : ℕ) : (L.repFrom n counter).length = n := by
  induction n generalizing counter with
  | zero => rfl
  | succ n ih => rw [repFrom, length_cons, ih]

theorem getElem?_repFrom (n counter r : ℕ) :
    (L.repFrom n counter)[r]? = if r < n then some (counter + r * L.numPartitions + 1) else none := by
  induction n generalizing counter r with
  | zero => rfl
  | succ n ih =>
    cases r with
    | zero => simp [repFrom]
    | succ r => simp [repFrom, ih, Nat.succ_mul, add_assoc, add_comm L.numPartitions]

theorem toNat_succ_sub_one {n : ℕ} (h : n < 2 ^ 31) : (BitVec.ofNat 32 (n + 1) - 1).toNat = n := by
  have hone : (1 : BitVec 32).toNat = 1 := rfl
  rw [BitVec.toNat_sub, BitVec.toNat_ofNat, hone]
  omega

theorem placement_rep {r : ℕ} (hr : r < L.numRegions)
    (hint : L.part + r * L.numPartitions + 1 < 2 ^ 31) {key : Key}
    (hkey : warehouseId key = some (BitVec.ofNat 32 (L.part + r * L.numPartitions + 1))) :
    BenchXSharder.computePartition L.numPartitions key = some L.part ∧
      BenchXMetadataInitializer.compute L.numRegions L.numPartitions key = some { master := r } := by
  have hP : 0 < L.numPartitions := L.part.zero_le.trans_lt L.part_lt
  have hw : (BitVec.ofNat 32 (L.part + r * L.numPartitions + 1) - 1).toNat =
      L.part + r * L.numPartitions :=
    toNat_succ_sub_one (Nat.lt_of_succ_lt hint)
  rw [BenchXSharder.computePartition, BenchXMetadataInitializer.compute, if_neg hP.ne',
    if_neg (by omega), hkey, Option.map_some, Option.map_some, hw, Nat.add_mul_mod_self_right,
    Nat.mod_eq_of_lt L.part_lt, Nat.add_mul_div_right _ _ hP, Nat.div_eq_of_lt L.part_lt, zero_add,
    Nat.mod_eq_of_lt hr]
  exact ⟨rfl, rfl⟩

/-- Every warehouse of the partition is loaded once, and every region has one representative.  The
numbers are `int`s: a representative beyond them cannot be computed. -/
theorem loads_each_warehouse_once (L : LoadTables) :
    L.loaded.Nodup ∧
    (∀ w, w ∈ L.loaded ↔ 1 ≤ w ∧ w ≤ L.numWarehouses ∧ (w - 1) % L.numPartitions = L.part) ∧
    L.repW.length = L.numRegions ∧
    ∀ r < L.numRegions, ∃ w, L.repW[r]? = some w ∧ (w < 2 ^ 31 →
      ∀ key, warehouseId key = some (BitVec.ofNat 32 w) →
        BenchXSharder.computePartition L.numPartitions key = some L.part ∧
        BenchXMetadataInitializer.compute L.numRegions L.numPartitions key = some { master := r }) := by
  refine ⟨L.nodup_loaded, fun w => L.mem_loaded, L.length_repFrom _ _,
    fun r hr => ⟨_, ?_, fun hint key => L.placement_rep hr hint⟩⟩
  rw [repW, L.getElem?_repFrom, if_pos hr]

end LoadTables

end Slog.Benchx
