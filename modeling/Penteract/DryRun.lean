/-
# Dry runs

A client runs its procedure without data to get the keys that the transaction has to declare.  The
execution, which sees the data, should access no other keys.
-/
import Penteract.TableRows
import Penteract.Procedures

namespace Slog.Benchx

open List KeyValue.Program
open KeyValue (Program Access)

/-! ## The declared keys -/

/-- A key that is written has to be declared with the type WRITE. -/
def DeclaredIn (index : AssocMap Key KeyType) : Access Key → Prop
  | .read key => key ∈ index
  | .write key => index.lookup key = some .write

instance (index : AssocMap Key KeyType) : DecidablePred (DeclaredIn index)
  | .read key => inferInstanceAs (Decidable (key ∈ index))
  | .write key => inferInstanceAs (Decidable (index.lookup key = some .write))

/-- `NewReadKey` and `NewWriteKey`. -/
def newKey (index : AssocMap Key KeyType) : Access Key → AssocMap Key KeyType
  | .read key => if key ∈ index then index else index.insert key .read
  | .write key => index.insert key .write

theorem run_txnKeyGenStorageAdapter {α : Type} (p : StorageProgram α) (index : AssocMap Key KeyType) :
    p.run txnKeyGenStorageAdapter index =
      p.dryRun.map fun a => (a, p.dryTrace.foldl newKey index) := by
  induction p generalizing index with
  | pure a => rfl
  | fault => rfl
  | call c next ih => cases c <;> exact ih _ _

/-- A key that is declared for writing can also be read. -/
def Covers (access access' : Access Key) : Prop :=
  access' = access ∨ ∃ key, access = .write key ∧ access' = .read key

theorem declaredIn_newKey {index : AssocMap Key KeyType} {access access' : Access Key} :
    DeclaredIn (newKey index access) access' ↔ DeclaredIn index access' ∨ Covers access access' := by
  rcases access with key | key <;> rcases access' with key' | key'
  · rw [newKey]
    split_ifs with hmem
    · have hcovers : Covers (.read key) (.read key') ↔ key' = key := by simp [Covers]
      rw [hcovers, DeclaredIn, or_iff_left_of_imp]
      rintro rfl
      exact hmem
    · simp [DeclaredIn, Covers, or_comm]
  · have hne : key' = key → key ∉ index → index.lookup key' ≠ some .write := by
      rintro rfl hnot hlookup
      exact hnot (AssocMap.mem_iff_lookup.mpr ⟨_, hlookup⟩)
    rw [newKey]
    split_ifs with hmem
    · simp [Covers]
    · rw [DeclaredIn, AssocMap.lookup_insert_eq_some, DeclaredIn]
      simp [Covers]
      exact fun hlookup heq => hne heq hmem hlookup
  · simp [newKey, DeclaredIn, Covers, or_comm]
  · rw [newKey, DeclaredIn, AssocMap.lookup_insert_eq_some, DeclaredIn]
    by_cases heq : key' = key <;> simp [Covers, heq]

theorem declaredIn_foldl {accesses : List (Access Key)} {index : AssocMap Key KeyType}
    {access : Access Key} : DeclaredIn (accesses.foldl newKey index) access ↔
      DeclaredIn index access ∨ ∃ access' ∈ accesses, Covers access' access := by
  induction accesses generalizing index with
  | nil => simp
  | cons a accesses ih =>
    rw [List.foldl_cons, ih, declaredIn_newKey, or_assoc]
    simp

theorem not_declaredIn_empty (access : Access Key) : ¬ DeclaredIn ∅ access := by
  cases access <;> simp [DeclaredIn]

/-- The keys that `Finialize` gets after the dry run. -/
def keyIndex (dry : StorageProgram (List String)) : Option (AssocMap Key KeyType) :=
  (dry.run txnKeyGenStorageAdapter ∅).map Prod.snd

theorem mem_keyIndex_iff {dry : StorageProgram (List String)} {as : List (Access Key)} {a : List String}
    (h : dry.Dry as a) {access : Access Key} :
    (∃ index ∈ keyIndex dry, DeclaredIn index access) ↔ ∃ access' ∈ as, Covers access' access := by
  rw [keyIndex, run_txnKeyGenStorageAdapter, h.run, h.trace]
  simp [declaredIn_foldl, not_declaredIn_empty]

/-! ## Procedures whose accesses do not depend on the data -/

theorem Schema.selectRow_static (S : Schema) (pkey : List Scalar) (hkey : S.keyOk pkey = true) (n : ℕ)
    (columns : List S.Column) :
    (S.selectRow n pkey columns).Static (S.selectAccesses pkey columns) none fun _ => True := by
  have hselect := S.select_static pkey hkey columns
  refine ⟨hselect.within.bind fun res _ => ?_, hselect.dry.bind_nil (dry_pure none)⟩
  split_ifs
  · exact within_pure trivial
  · exact within_ofOption fun _ _ => trivial
  · exact within_ofOption fun _ _ => trivial

namespace NewOrderTxn

variable (a : NewOrderTxn)

/-- The lines have the same keys. -/
def SameKeys (l l' : OrderLineScalar) : Prop :=
  l'.aId = l.aId ∧ l'.aSupplyWId = l.aSupplyWId ∧ l'.aItemId = l.aItemId

def lineReadAccesses (l : OrderLineScalar) : List (Access Key) :=
  itemSchema.selectAccesses [makeInt32Scalar a.iWId, .int32 l.aItemId]
      [ItemColumn.price, ItemColumn.name, ItemColumn.data] ++
    stockSchema.selectAccesses [.int32 l.aSupplyWId, .int32 l.aItemId]
      [StockColumn.quantity, StockColumn.allDist]

def readAccesses : List (Access Key) :=
  warehouseSchema.selectAccesses [makeInt32Scalar a.wId] [WarehouseColumn.tax] ++
    (customerSchema.selectAccesses [makeInt32Scalar a.wId, makeInt8Scalar a.dId, makeInt32Scalar a.cId]
        [CustomerColumn.discount, CustomerColumn.fullName, CustomerColumn.credit] ++
      (districtSchema.selectAccesses [makeInt32Scalar a.wId, makeInt8Scalar a.dId]
          [DistrictColumn.tax, DistrictColumn.nextOId] ++
        a.lines.flatMap a.lineReadAccesses))

def lineWriteAccesses (l : OrderLineScalar) : List (Access Key) :=
  stockSchema.updateAccesses [.int32 l.aSupplyWId, .int32 l.aItemId] [StockColumn.quantity] ++
    orderLineSchema.rowAccesses [makeInt32Scalar a.wId, makeInt8Scalar a.dId, makeInt32Scalar a.oId,
      .int8 l.aId]

def writeAccesses : List (Access Key) :=
  districtSchema.updateAccesses [makeInt32Scalar a.wId, makeInt8Scalar a.dId]
      [DistrictColumn.nextOId] ++
    (orderSchema.rowAccesses [makeInt32Scalar a.wId, makeInt8Scalar a.dId, makeInt32Scalar a.oId] ++
      (newOrderSchema.rowAccesses [makeInt32Scalar a.wId, makeInt8Scalar a.dId, makeInt32Scalar a.oId] ++
        a.lines.flatMap a.lineWriteAccesses))

theorem readLine_static (l : OrderLineScalar) :
    (a.readLine l).Static (a.lineReadAccesses l)
      (["The item does not exist", "Stock of the item does not exist"], l)
      fun r => SameKeys l r.2 := by
  have hitem := itemSchema.selectRow_static [makeInt32Scalar a.iWId, .int32 l.aItemId] rfl 1
    [ItemColumn.price, ItemColumn.name, ItemColumn.data]
  have hstock := stockSchema.selectRow_static [.int32 l.aSupplyWId, .int32 l.aItemId] rfl 2
    [StockColumn.quantity, StockColumn.allDist]
  exact ⟨hitem.within.append fun _ _ => hstock.within.bind fun _ _ =>
      within_pure ⟨rfl, rfl, rfl⟩,
    hitem.dry.bind (hstock.dry.bind_nil (dry_pure _))⟩

/-- The state has lines with the keys of the arguments. -/
def KeepsKeys (s : State) : Prop := ∀ l ∈ s.lines, ∃ l₀ ∈ a.lines, SameKeys l₀ l

theorem read_static :
    ∃ s : State, s.lines = a.lines ∧ a.read.Static a.readAccesses s a.KeepsKeys := by
  refine ⟨_, ?_, (warehouseSchema.selectRow_static _ rfl _ _).bind fun _ =>
    (customerSchema.selectRow_static _ rfl _ _).bind fun _ =>
      (districtSchema.selectRow_static _ rfl _ _).bind fun _ =>
        have hlines := static_mapM fun l _ => a.readLine_static l
        ⟨hlines.within.bind fun rs hrs => within_pure fun l hl => ?_, hlines.dry.bind_nil (dry_pure _)⟩⟩
  · simp
  · obtain ⟨r, hr, rfl⟩ := List.mem_map.mp hl
    obtain ⟨l, hl, hkeys⟩ := Bytes.exists_of_forall₂ hrs hr
    exact ⟨l, hl, hkeys⟩

theorem writeLine_within (l : OrderLineScalar) :
    (a.writeLine l).Within {access | access ∈ a.lineWriteAccesses l} fun _ => True :=
  (stockSchema.update_within_updateAccesses _ _ _ rfl).append fun _ _ =>
    Within.bind (orderLineSchema.insert_within_rowAccesses rfl rfl) fun _ _ => within_pure trivial

theorem write_within {s : State} (h : a.KeepsKeys s) :
    (a.write s).Within {access | access ∈ a.writeAccesses} fun _ => True := by
  have hlines : ∀ l ∈ s.lines, (a.writeLine l).Within
      {access | access ∈ a.lines.flatMap a.lineWriteAccesses} fun _ => True := by
    intro l hl
    obtain ⟨l₀, hl₀, hid, hsupply, hitem⟩ := h l hl
    refine (a.writeLine_within l).mono (fun access hmem => ?_) fun _ h => h
    rw [Set.mem_ofPred_eq, lineWriteAccesses, hid, hsupply, hitem] at hmem
    exact List.mem_flatMap.mpr ⟨l₀, hl₀, hmem⟩
  exact (districtSchema.update_within_updateAccesses _ _ _ rfl).append fun _ _ =>
    Within.append (orderSchema.insert_within_rowAccesses rfl rfl) fun _ _ =>
      Within.append (newOrderSchema.insert_within_rowAccesses rfl rfl) fun _ _ =>
        (within_mapM hlines).bind fun _ _ => within_pure trivial

theorem writeLine_dry {l : OrderLineScalar} (hdist : l.distInfo = emptyFixedTextScalar) :
    ∃ b, (a.writeLine l).Dry (a.lineWriteAccesses l) b := by
  rw [writeLine, hdist]
  exact exists_dry_bind (stockSchema.update_dry_updateAccesses _ _ _ rfl rfl) fun _ =>
    exists_dry_map (orderLineSchema.insert_dry_rowAccesses rfl rfl rfl rfl)

theorem write_dry {s : State} (hlines : s.lines = a.lines) :
    ∃ b, (a.write s).Dry a.writeAccesses b := by
  have hline : ∀ l ∈ a.lines, ∃ b, True ∧ (a.writeLine l).Dry (a.lineWriteAccesses l) b := by
    intro l hl
    obtain ⟨l, -, rfl⟩ := List.mem_map.mp hl
    obtain ⟨b, hb⟩ := a.writeLine_dry (l := l.scalars) rfl
    exact ⟨b, trivial, hb⟩
  obtain ⟨_, -, hdry⟩ := exists_dry_mapM hline
  rw [write, hlines]
  exact exists_dry_bind (districtSchema.update_dry_updateAccesses _ _ _ rfl rfl) fun _ =>
    exists_dry_bind (orderSchema.insert_dry_rowAccesses rfl rfl rfl rfl) fun _ =>
      exists_dry_bind (newOrderSchema.insert_dry_rowAccesses rfl rfl rfl rfl) fun _ =>
        ⟨_, hdry.bind_nil (dry_pure _)⟩

theorem execute_within :
    a.execute.Within {access | access ∈ a.readAccesses ++ a.writeAccesses} fun _ => True := by
  obtain ⟨_, -, hread⟩ := a.read_static
  refine hread.within.append fun s hs => ?_
  split_ifs
  · exact within_pure trivial
  · refine a.write_within fun l hl => ?_
    obtain ⟨l, hmem, rfl⟩ := List.mem_map.mp hl
    exact hs l hmem

theorem dry_dry : ∃ b, a.dry.Dry (a.readAccesses ++ a.writeAccesses) b := by
  obtain ⟨s, hlines, hread⟩ := a.read_static
  obtain ⟨b, hwrite⟩ := a.write_dry hlines
  exact ⟨b, hread.dry.bind hwrite⟩

end NewOrderTxn

namespace InsertTxn

variable (a : InsertTxn)

def rowReadAccesses (row : InsertRow) : List (Access Key) :=
  warehouseSchema.selectAccesses [makeInt32Scalar row.wId]
      [WarehouseColumn.name, WarehouseColumn.address, WarehouseColumn.ytd] ++
    (districtSchema.selectAccesses [makeInt32Scalar row.wId, makeInt8Scalar row.dId]
        [DistrictColumn.name, DistrictColumn.address, DistrictColumn.ytd] ++
      customerSchema.selectAccesses
        [makeInt32Scalar row.cWId, makeInt8Scalar row.cDId, makeInt32Scalar row.cId]
        [CustomerColumn.fullName, CustomerColumn.address, CustomerColumn.phone, CustomerColumn.since,
          CustomerColumn.credit, CustomerColumn.creditLim, CustomerColumn.discount,
          CustomerColumn.balance, CustomerColumn.ytdPayment, CustomerColumn.paymentCnt,
          CustomerColumn.data])

def rowWriteAccesses (row : InsertRow) : List (Access Key) :=
  historySchema.rowAccesses [makeInt32Scalar row.wId, makeInt8Scalar row.dId, makeInt32Scalar row.cId,
    makeInt32Scalar row.hId]

def allAccesses : List (Access Key) :=
  a.rows.zipIdx.flatMap (fun row => rowReadAccesses row.1) ++ a.rows.flatMap rowWriteAccesses

theorem readRow_static (row : InsertRow × ℕ) : ∃ s : RowState, s.newHData = emptyFixedTextScalar ∧
    (readRow row).Static (rowReadAccesses row.1) s fun _ => True :=
  ⟨_, rfl, (warehouseSchema.selectRow_static _ rfl _ _).bind fun _ =>
    (districtSchema.selectRow_static _ rfl _ _).bind fun _ =>
      (customerSchema.selectRow_static _ rfl _ _).map rfl⟩

theorem writeRow_within (e : InsertRow × RowState) :
    (writeRow e).Within {access | access ∈ rowWriteAccesses e.1} fun _ => True :=
  historySchema.insert_within_rowAccesses rfl rfl

theorem writeRow_dry {e : InsertRow × RowState} (hdata : e.2.newHData = emptyFixedTextScalar) :
    ∃ b, (writeRow e).Dry (rowWriteAccesses e.1) b := by
  rw [writeRow, hdata]
  exact historySchema.insert_dry_rowAccesses rfl rfl rfl rfl

theorem execute_within : a.execute.Within {access | access ∈ a.allAccesses} fun _ => True := by
  choose _ _ hrow using readRow_static
  refine Within.append (within_mapM_flatMap fun row _ => (hrow row).within) fun s _ => ?_
  simp only
  split_ifs
  · exact within_pure trivial
  · have hwrite : ∀ e ∈ a.rows.zip (s.map computeRow), (writeRow e).Within
        {access | access ∈ a.rows.flatMap rowWriteAccesses} fun _ => True := fun e he =>
      (writeRow_within e).mono (fun access hmem =>
        List.mem_flatMap.mpr ⟨e.1, (of_mem_zip he).1, hmem⟩) fun _ h => h
    exact (within_mapM hwrite).bind fun _ _ => within_pure trivial

theorem dry_dry : ∃ b, a.dry.Dry a.allAccesses b := by
  obtain ⟨s, hs, hread⟩ := exists_dry_mapM fun row (_ : row ∈ a.rows.zipIdx) =>
    (readRow_static row).imp fun _ h => ⟨h.1, h.2.dry⟩
  have hrow : ∀ e ∈ a.rows.zip s, ∃ b, True ∧ (writeRow e).Dry (rowWriteAccesses e.1) b := by
    intro e he
    obtain ⟨_, -, hdata⟩ := Bytes.exists_of_forall₂ hs (of_mem_zip he).2
    obtain ⟨b, hb⟩ := writeRow_dry hdata
    exact ⟨b, trivial, hb⟩
  obtain ⟨_, -, hwrite⟩ := exists_dry_mapM hrow
  have hrows : (a.rows.zip s).flatMap (fun e => rowWriteAccesses e.1) =
      a.rows.flatMap rowWriteAccesses := by
    have hlength : a.rows.length ≤ s.length := by
      rw [← hs.length_eq, length_zipIdx]
    rw [← flatMap_map Prod.fst, map_fst_zip hlength]
  exact ⟨_, hread.bind (hrows ▸ hwrite.bind_nil (dry_pure []))⟩

end InsertTxn

namespace StockLevelTxn

variable (a : StockLevelTxn)

def rowAccesses (iIds : List ℤ) (row : StockLevelRow) : List (Access Key) :=
  districtSchema.selectAccesses [makeInt32Scalar row.wId, makeInt8Scalar row.dId]
      [DistrictColumn.nextOId] ++
    (((orders row).product (List.range kLinePerOrder)).flatMap (fun e =>
        orderLineSchema.selectAccesses (orderLinePkey row e.1 e.2) [OrderLineColumn.iId]) ++
      iIds.flatMap fun i =>
        stockSchema.selectAccesses [makeInt32Scalar row.wId, makeInt32Scalar i] [StockColumn.quantity])

theorem readRow_static (iIds : List ℤ) (row : StockLevelRow) :
    (readRow iIds row).Static (rowAccesses iIds row) () fun _ => True := by
  have hdistrict := districtSchema.select_static [makeInt32Scalar row.wId, makeInt8Scalar row.dId] rfl
    [DistrictColumn.nextOId]
  have hlines := static_mapM
    (l := (orders row).product (List.range kLinePerOrder)) fun e _ =>
      orderLineSchema.select_static (orderLinePkey row e.1 e.2) rfl [OrderLineColumn.iId]
  have hstock := static_mapM (l := iIds) fun i _ =>
    stockSchema.select_static [makeInt32Scalar row.wId, makeInt32Scalar i] rfl [StockColumn.quantity]
  exact ⟨hdistrict.within.append fun _ _ => hlines.within.append fun _ _ =>
      (hstock.map rfl).within,
    hdistrict.dry.bind (hlines.dry.bind (hstock.dry.bind_nil (dry_pure _)))⟩

theorem execute_static :
    a.execute.Static (a.rows.flatMap (rowAccesses a.iIds)) [] fun _ => True := by
  have hrows := static_mapM (l := a.rows) fun row _ => readRow_static a.iIds row
  exact hrows.map rfl

end StockLevelTxn

theorem fits_of_makeFixedTextScalar {width : ℕ} {data : String} {v : Scalar}
    (h : makeFixedTextScalar (.fixedText width) data = some v) : v.Fits (.fixedText width) := by
  rw [makeFixedTextScalar] at h
  split_ifs at h with hlength
  cases h
  exact ⟨rfl, hlength⟩

theorem GetCustomerByNameTxn.keyOk_pkey {row : ℤ × ℤ × String} {pkey : List Scalar}
    (h : GetCustomerByNameTxn.pkey row = some pkey) : customerByNameSchema.keyOk pkey = true := by
  obtain ⟨name, hname, rfl⟩ := Option.map_eq_some_iff.mp h
  exact Schema.PkeyFits.keyOk (.cons ⟨rfl, trivial⟩ (.cons ⟨rfl, trivial⟩
    (.cons (fits_of_makeFixedTextScalar hname) .nil)))

theorem GetItemByNameTxn.keyOk_pkey {row : ℤ × String} {pkey : List Scalar}
    (h : GetItemByNameTxn.pkey row = some pkey) : itemByNameSchema.keyOk pkey = true := by
  obtain ⟨name, hname, rfl⟩ := Option.map_eq_some_iff.mp h
  exact Schema.PkeyFits.keyOk (.cons ⟨rfl, trivial⟩ (.cons (fits_of_makeFixedTextScalar hname) .nil))

/-- A look-up of rows, one after the other, accesses the keys that it declares. -/
theorem declares_lookUps {α : Type} {rows : List α} {pkey : α → Option (List Scalar)} {S : Schema}
    {column : S.Column} {message : String} {p : StorageProgram (List String)}
    (hp : p = do
      let pkeys ← .ofOption (rows.mapM pkey)
      return (← pkeys.mapM fun pkey => do
        let res ← S.select pkey [column]
        return if res = [] then [message] else []).flatten)
    (hkey : ∀ {row k}, pkey row = some k → S.keyOk k = true) (t : Transaction) :
    ∀ access ∈ p.trace txnStorageAdapter t, ∃ index ∈ keyIndex p, DeclaredIn index access := by
  intro access haccess
  cases hpkeys : rows.mapM pkey with
  | none =>
    rw [hp, hpkeys] at haccess
    cases haccess
  | some pkeys =>
    rw [hpkeys, ofOption_some, pure_bind] at hp
    have hrow : ∀ k ∈ pkeys, Static (S.selectAccesses k [column]) [message] (fun _ => True) (do
        let res ← S.select k [column]
        return if res = [] then [message] else []) := by
      intro k hk
      obtain ⟨row, -, hrow⟩ := Bytes.exists_of_mem_mapM hpkeys hk
      have hselect := S.select_static k (hkey hrow) [column]
      exact hselect.map rfl
    have hrows := (static_mapM hrow).map (g := flatten) rfl
    subst hp
    exact (mem_keyIndex_iff hrows.dry).mpr ⟨access, hrows.within.of_mem_trace haccess, Or.inl rfl⟩

/-! ## Order status -/

theorem answer_read_keeps {t : Transaction} {key : Key} {r : Option Value × Transaction}
    (h : txnStorageAdapter.answer t (.read key) = some r) : r.2 = t := by
  simp only [txnStorageAdapter] at h
  split_ifs at h
  exact congrArg Prod.snd (Option.some_inj.mp h).symm

/-- Only selections, so that the transaction stays as it is. -/
def Reads {α : Type} (p : StorageProgram α) : Prop := p.ReadsOnly Set.univ

theorem Reads.keeps {α : Type} {p : StorageProgram α} (h : Reads p) {t : Transaction}
    {r : α × Transaction} (hrun : p.run txnStorageAdapter t = some r) : r.2 = t :=
  ReadsOnly.keeps h (fun _ _ _ => answer_read_keeps) hrun

theorem Schema.reads_select (S : Schema) (pkey : List Scalar) (hkey : S.keyOk pkey = true)
    (columns : List S.Column) : Reads (S.select pkey columns) := by
  refine (select_within (keyBytes_of_keyOk hkey) columns).mono ?_ fun _ h => h
  rintro _ ⟨key, -, rfl⟩
  exact ⟨key, trivial, rfl⟩

namespace OrderStatusTxn

variable (a : OrderStatusTxn)

def orderPkey (row : OrderStatusRow) : List Scalar :=
  [makeInt32Scalar row.wId, makeInt8Scalar row.dId, makeInt32Scalar row.oId]

def linePkey (row : OrderStatusRow) (j : ℕ) : List Scalar :=
  [makeInt32Scalar row.wId, makeInt8Scalar row.dId, makeInt32Scalar row.oId, makeInt8Scalar j]

def orderAccesses (row : OrderStatusRow) : List (Access Key) :=
  orderSchema.selectAccesses (orderPkey row)
    [OrderColumn.entryD, OrderColumn.carrierId, OrderColumn.olCnt]

def lineAccesses (row : OrderStatusRow) (j : ℕ) : List (Access Key) :=
  orderLineSchema.selectAccesses (linePkey row j)
    [OrderLineColumn.iId, OrderLineColumn.supplyWId, OrderLineColumn.quantity, OrderLineColumn.amount,
      OrderLineColumn.deliveryD]

/-- Without data the order is not found, and 15 lines are assumed. -/
def dryAccesses : List (Access Key) :=
  a.rows.zipIdx.flatMap fun row => orderAccesses row.1 ++
    ((List.range 15).map (· + 1)).flatMap (lineAccesses row.1)

theorem selectOrder_static (row : OrderStatusRow) :
    (selectOrder row).Static (orderAccesses row) [] fun _ => True :=
  orderSchema.select_static (orderPkey row) rfl _

theorem readLine_static (row : OrderStatusRow × ℕ) (j : ℕ) : (readLine row j).Static
    (lineAccesses row.1 j)
    ["Order line does not exist for index " ++ toString row.2 ++ " line " ++ toString j]
    fun _ => True := by
  have hselect := orderLineSchema.select_static (linePkey row.1 j) rfl
    [OrderLineColumn.iId, OrderLineColumn.supplyWId, OrderLineColumn.quantity, OrderLineColumn.amount,
      OrderLineColumn.deliveryD]
  exact hselect.map rfl

theorem dry_dry : ∃ b, a.dry.Dry a.dryAccesses b := by
  have hrow : ∀ row ∈ a.rows.zipIdx, ∃ b, True ∧ (readRow row).Dry (orderAccesses row.1 ++
      ((List.range 15).map (· + 1)).flatMap (lineAccesses row.1)) b := fun row _ =>
    ⟨_, trivial, (selectOrder_static row.1).dry.bind
      ((dry_mapM fun j _ => (readLine_static row j).dry).bind_nil (dry_pure _))⟩
  obtain ⟨_, -, hrows⟩ := exists_dry_mapM hrow
  exact ⟨_, hrows.bind_nil (dry_pure _)⟩

theorem reads_readLine (row : OrderStatusRow × ℕ) (j : ℕ) : Reads (readLine row j) :=
  (orderLineSchema.reads_select (linePkey row.1 j) rfl _).bind fun _ _ => within_pure trivial

theorem reads_readRow (row : OrderStatusRow × ℕ) : Reads (readRow row) :=
  Within.bind (orderSchema.reads_select (orderPkey row.1) rfl _) fun _ _ =>
    (within_mapM fun j _ => reads_readLine row j).bind fun _ _ => within_pure trivial

/-- The orders have at most the 15 lines that the dry run assumes. -/
def LinesDeclared (t : Transaction) : Prop :=
  ∀ row ∈ a.rows, ∀ r, (selectOrder row).run txnStorageAdapter t = some r → lineCount r.1 ≤ 15

variable {a} {t : Transaction}

theorem mem_dryAccesses_of_mem_trace (h : a.LinesDeclared t) {access : Access Key}
    (haccess : access ∈ a.execute.trace txnStorageAdapter t) : access ∈ a.dryAccesses := by
  rcases mem_trace_bind.mp haccess with haccess | ⟨_, _, hnil⟩
  · obtain ⟨row, hrow, haccess⟩ :=
      mem_trace_mapM (fun row _ r hr => (reads_readRow row).keeps hr) haccess
    refine List.mem_flatMap.mpr ⟨row, hrow, List.mem_append.mpr ?_⟩
    rcases mem_trace_bind.mp haccess with haccess | ⟨r, hr, haccess⟩
    · exact Or.inl ((selectOrder_static row.1).within.of_mem_trace haccess)
    · right
      rcases mem_trace_bind.mp haccess with haccess | ⟨_, _, hnil⟩
      · obtain ⟨j, hj, haccess⟩ :=
          mem_trace_mapM (fun j _ r hr => (reads_readLine row j).keeps hr) haccess
        have hcount := h row.1 (fst_mem_of_mem_zipIdx hrow) r hr
        obtain ⟨i, hi, rfl⟩ := List.mem_map.mp hj
        have hi : i < 15 := by
          rw [mem_range] at hi
          omega
        exact List.mem_flatMap.mpr ⟨i + 1, mem_map_of_mem (mem_range.mpr hi),
          (readLine_static row (i + 1)).within.of_mem_trace haccess⟩
      · cases hnil
  · cases hnil

/-- The line 16 of an order with more than 15 lines is read. -/
theorem exists_mem_trace_of_lineCount (hrun : (a.execute.run txnStorageAdapter t).isSome)
    {row : OrderStatusRow} (hrow : row ∈ a.rows) {r : List Scalar × Transaction}
    (hr : (selectOrder row).run txnStorageAdapter t = some r) (hcount : 15 < lineCount r.1) :
    .read (String.ofList (orderLineSchema.keyOf (linePkey row 16))) ∈
      a.execute.trace txnStorageAdapter t := by
  obtain ⟨i, hi⟩ : ∃ i, (row, i) ∈ a.rows.zipIdx := by
    obtain ⟨i, hi, rfl⟩ := getElem_of_mem hrow
    exact ⟨i, mem_zipIdx_iff_getElem?.mpr (List.getElem?_eq_getElem hi)⟩
  obtain ⟨_, hrows, -⟩ := exists_run_of_bind hrun
  obtain ⟨hsome, hmem⟩ := run_isSome_of_mapM
    (fun row _ r hr => (reads_readRow row).keeps hr) (Option.isSome_of_eq_some hrows) hi
  obtain ⟨_, hr', hsome⟩ := exists_run_of_bind hsome
  obtain rfl := Option.some_inj.mp (hr.symm.trans hr')
  obtain ⟨_, hlines, -⟩ := exists_run_of_bind hsome
  refine mem_trace_bind.mpr (Or.inl (hmem _ (mem_trace_bind.mpr
    (Or.inr ⟨r, hr, mem_trace_bind.mpr (Or.inl ?_)⟩))))
  have hline : 16 ∈ (List.range (lineCount r.1).toNat).map (· + 1) :=
    List.mem_map.mpr ⟨15, mem_range.mpr (by omega), rfl⟩
  refine (run_isSome_of_mapM (fun j _ r hr => (reads_readLine (row, i) j).keeps hr)
    (Option.isSome_of_eq_some hlines) hline).2 _ (mem_trace_bind.mpr (Or.inl ?_))
  exact Schema.mem_trace_select rfl rfl _

theorem pkeyFits_linePkey (row : OrderStatusRow) (j : ℕ) : orderLineSchema.PkeyFits (linePkey row j) :=
  .cons ⟨rfl, trivial⟩ (.cons ⟨rfl, trivial⟩ (.cons ⟨rfl, trivial⟩ (.cons ⟨rfl, trivial⟩ .nil)))

theorem pkeyFits_orderPkey (row : OrderStatusRow) : orderSchema.PkeyFits (orderPkey row) :=
  .cons ⟨rfl, trivial⟩ (.cons ⟨rfl, trivial⟩ (.cons ⟨rfl, trivial⟩ .nil))

/-- A grouped selection declares one key. -/
theorem keyOf_of_covers {S : Schema} {pkey : List Scalar} {columns : List S.Column} {k : List Char}
    {access : Access Key} (hgrouped : S.grouped = true) (h : access ∈ S.selectAccesses pkey columns)
    (hcovers : Covers access (.read (String.ofList k))) : k = S.keyOf pkey := by
  rw [Schema.selectAccesses_grouped hgrouped, List.mem_singleton] at h
  subst h
  rcases hcovers with heq | ⟨_, hwrite, -⟩
  · exact String.ofList_injective (KeyValue.Access.read.inj heq)
  · cases hwrite

theorem not_covers_of_lineCount (row : OrderStatusRow) {access : Access Key}
    (haccess : access ∈ a.dryAccesses) :
    ¬ Covers access (.read (String.ofList (orderLineSchema.keyOf (linePkey row 16)))) := by
  intro hcovers
  obtain ⟨row', -, haccess⟩ := List.mem_flatMap.mp haccess
  rcases List.mem_append.mp haccess with haccess | haccess
  · have hid := (pkeyFits_linePkey row 16).id_eq_of_keyOf (pkeyFits_orderPkey row'.1)
      (congrArg (· ++ []) (keyOf_of_covers rfl haccess hcovers))
    exact absurd hid (by decide)
  · obtain ⟨j, hj, haccess⟩ := List.mem_flatMap.mp haccess
    have hpkey := (pkeyFits_linePkey row 16).eq_of_keyOf (pkeyFits_linePkey row'.1 j)
      (keyOf_of_covers rfl haccess hcovers)
    have hnumber : ∀ j ∈ (List.range 15).map (· + 1), makeInt8Scalar (16 : ℕ) ≠ makeInt8Scalar (j : ℕ) := by
      decide
    simp only [linePkey, List.cons.injEq] at hpkey
    exact hnumber j hj hpkey.2.2.2.1

end OrderStatusTxn

/-! ## Delete only -/

namespace DeleteTxn

variable (a : DeleteTxn)

def rowReadAccesses (row : DeleteRow) : List (Access Key) :=
  warehouseSchema.selectAccesses [makeInt32Scalar row.wId] [WarehouseColumn.name] ++
    (districtSchema.selectAccesses [makeInt32Scalar row.wId, makeInt8Scalar row.dId]
        [DistrictColumn.name] ++
      (customerSchema.selectAccesses
          [makeInt32Scalar row.cWId, makeInt8Scalar row.cDId, makeInt32Scalar row.cId]
          [CustomerColumn.fullName] ++
        historySchema.selectAccesses (historyPkey row) [HistoryColumn.data]))

def historyKey (row : DeleteRow) : Key := String.ofList (historySchema.keyOf (historyPkey row))

/-- Without data the first deletion fails, and the loop ends. -/
def dryAccesses : List (Access Key) :=
  a.rows.zipIdx.flatMap (fun row => rowReadAccesses row.1) ++
    (a.rows.take 1).map fun row => .write (historyKey row)

theorem pkeyFits_historyPkey (row : DeleteRow) : historySchema.PkeyFits (historyPkey row) :=
  .cons ⟨rfl, trivial⟩ (.cons ⟨rfl, trivial⟩ (.cons ⟨rfl, trivial⟩ (.cons ⟨rfl, trivial⟩ .nil)))

theorem readRow_static (row : DeleteRow × ℕ) :
    ∃ b, (readRow row).Static (rowReadAccesses row.1) b fun _ => True := by
  exact ⟨_, (warehouseSchema.select_static _ rfl _).bind fun _ =>
    (districtSchema.select_static _ rfl _).bind fun _ =>
      (customerSchema.select_static _ rfl _).bind fun _ =>
        (historySchema.select_static _ rfl _).map rfl⟩

theorem read_static : ∃ b, a.read.Static
    (a.rows.zipIdx.flatMap fun row => rowReadAccesses row.1) b fun _ => True := by
  choose b hrow using readRow_static
  have hrows := static_mapM fun row (_ : row ∈ a.rows.zipIdx) => hrow row
  exact ⟨_, hrows.map rfl⟩

theorem write_dry : ∃ b, a.write.Dry ((a.rows.take 1).map fun row => .write (historyKey row)) b := by
  rw [write]
  cases a.rows with
  | nil => exact ⟨_, dry_pure _⟩
  | cons row rows =>
    have hdelete := Schema.delete_dry (Schema.keyBytes_of_keyOk (pkeyFits_historyPkey row).keyOk) rfl
    exact ⟨_, hdelete.bind_nil (dry_pure _)⟩

theorem dry_dry : ∃ b, a.dry.Dry a.dryAccesses b := by
  obtain ⟨_, hread⟩ := a.read_static
  obtain ⟨b, hwrite⟩ := a.write_dry
  exact ⟨b, hread.dry.bind hwrite⟩

theorem reads_readRow (row : DeleteRow × ℕ) : Reads (readRow row) :=
  Within.bind (warehouseSchema.reads_select _ rfl _) fun _ _ =>
    (districtSchema.reads_select _ rfl _).bind fun _ _ =>
      (customerSchema.reads_select _ rfl _).bind fun _ _ =>
        (historySchema.reads_select _ rfl _).bind fun _ _ => within_pure trivial

theorem reads_read : Reads a.read :=
  (within_mapM fun row _ => reads_readRow row).bind fun _ _ => within_pure trivial

/-- The loop does not come past the first row: there are no more rows, or the second one is the same
row again. -/
def FirstOnly (t : Transaction) : Prop :=
  ∀ row row' rows, a.rows = row :: row' :: rows → a.read.run txnStorageAdapter t = some ([], t) →
    historyPkey row' = historyPkey row

variable {a} {t : Transaction}

theorem writeRows_cons (row : DeleteRow × ℕ) (rows : List (DeleteRow × ℕ)) :
    writeRows (row :: rows) = Program.delete (historyKey row.1) >>= fun ok => if ok then writeRows rows
      else return ["Failed to delete history row for index " ++ toString row.2] := by
  rw [writeRows, Schema.delete_grouped rfl (pkeyFits_historyPkey row.1).keyOk, historyKey]

theorem mem_trace_writeRows {row : DeleteRow × ℕ} {rows : List (DeleteRow × ℕ)} {access : Access Key} :
    access ∈ (writeRows (row :: rows)).trace txnStorageAdapter t ↔ access = .write (historyKey row.1) ∨
      ∃ t', txnStorageAdapter.answer t (.delete (historyKey row.1)) = some (true, t') ∧
        access ∈ (writeRows rows).trace txnStorageAdapter t' := by
  have hdelete : access ∈ (Program.delete (historyKey row.1) : StorageProgram Bool).trace
      txnStorageAdapter t ↔ access = .write (historyKey row.1) := by
    rw [Program.delete, Program.trace]
    cases txnStorageAdapter.answer t (.delete (historyKey row.1)) <;> simp [Program.trace, KeyValue.Call.access]
  rw [writeRows_cons, mem_trace_bind, hdelete, run_delete]
  refine or_congr Iff.rfl ⟨?_, ?_⟩
  · rintro ⟨⟨ok, t'⟩, hanswer, haccess⟩
    cases ok with
    | false => cases haccess
    | true => exact ⟨t', hanswer, haccess⟩
  · rintro ⟨t', hanswer, haccess⟩
    exact ⟨(true, t'), hanswer, haccess⟩

/-- A key cannot be deleted twice. -/
theorem answer_delete_twice {key : Key} {t' : Transaction}
    (h : txnStorageAdapter.answer t (.delete key) = some (true, t')) :
    ∀ t'', txnStorageAdapter.answer t' (.delete key) ≠ some (true, t'') := by
  intro t''
  by_cases hnodup : (t.keys.map KeyValueEntry.key).Nodup
  · cases hfind : KeyValueExecution.find t.keys key with
    | none => simp [answer_delete_none hnodup hfind] at h
    | some kv =>
      rw [answer_delete_some hnodup hfind, Option.some_inj, Prod.mk.injEq] at h
      obtain ⟨-, rfl⟩ := h
      rw [answer_delete_none (nodup_map_key_eraseP hnodup) (by simp [find_eraseP hnodup])]
      simp
  · simp [txnStorageAdapter, hnodup] at h

theorem mem_trace_execute {access : Access Key} :
    access ∈ a.execute.trace txnStorageAdapter t ↔ access ∈ a.read.trace txnStorageAdapter t ∨
      a.read.run txnStorageAdapter t = some ([], t) ∧
        access ∈ (writeRows a.rows.zipIdx).trace txnStorageAdapter t := by
  rw [execute, mem_trace_bind]
  refine or_congr Iff.rfl ⟨?_, ?_⟩
  · rintro ⟨⟨errors, t'⟩, hread, haccess⟩
    obtain rfl : t' = t := a.reads_read.keeps hread
    by_cases herrors : errors = []
    · subst herrors
      exact ⟨hread, haccess⟩
    · rw [if_pos herrors] at haccess
      cases haccess
  · rintro ⟨hread, haccess⟩
    exact ⟨([], t), hread, haccess⟩

theorem mem_dryAccesses_of_mem_trace (h : a.FirstOnly t) {access : Access Key}
    (haccess : access ∈ a.execute.trace txnStorageAdapter t) : access ∈ a.dryAccesses := by
  rw [dryAccesses, List.mem_append, List.mem_map]
  rcases mem_trace_execute.mp haccess with haccess | ⟨hread, haccess⟩
  · obtain ⟨_, hstatic⟩ := a.read_static
    exact Or.inl (hstatic.within.of_mem_trace haccess)
  · right
    cases hrows : a.rows with
    | nil =>
      rw [hrows] at haccess
      cases haccess
    | cons row rows =>
      rw [hrows, List.zipIdx_cons, mem_trace_writeRows] at haccess
      refine ⟨row, List.mem_cons_self, ?_⟩
      rcases haccess with rfl | ⟨t₁, hdelete, haccess⟩
      · rfl
      · cases rows with
        | nil => cases haccess
        | cons row' rows =>
          have hkey : historyKey row' = historyKey row := by
            rw [historyKey, historyKey, h row row' rows hrows hread]
          rw [List.zipIdx_cons, mem_trace_writeRows] at haccess
          rcases haccess with rfl | ⟨t₂, hdelete', -⟩
          · exact congrArg Access.write hkey.symm
          · rw [hkey] at hdelete'
            exact absurd hdelete' (answer_delete_twice hdelete t₂)

theorem run_select_of_readRow {row : DeleteRow × ℕ} {r : List String × Transaction}
    (hrun : (readRow row).run txnStorageAdapter t = some r) (herrors : r.1 = []) :
    ∃ res, res ≠ [] ∧ (historySchema.select (historyPkey row.1) [HistoryColumn.data]).run
      txnStorageAdapter t = some (res, t) := by
  simp only [readRow, run_bind, Option.bind_eq_some_iff] at hrun
  obtain ⟨⟨_, t₁⟩, h₁, ⟨_, t₂⟩, h₂, ⟨_, t₃⟩, h₃, ⟨res, t₄⟩, h₄, hpure⟩ := hrun
  obtain rfl : t₁ = t := (warehouseSchema.reads_select _ rfl _).keeps h₁
  obtain rfl : t₂ = t₁ := (districtSchema.reads_select _ rfl _).keeps h₂
  obtain rfl : t₃ = t₂ := (customerSchema.reads_select _ rfl _).keeps h₃
  obtain rfl : t₄ = t₃ := (historySchema.reads_select _ rfl _).keeps h₄
  refine ⟨res, ?_, h₄⟩
  rintro rfl
  cases hpure
  simp at herrors

/-- If the reads find everything, the first row can be deleted. -/
theorem answer_delete_of_read {row : DeleteRow} {rows : List DeleteRow} (hrows : a.rows = row :: rows)
    (hread : a.read.run txnStorageAdapter t = some ([], t)) :
    ∃ t', txnStorageAdapter.answer t (.delete (historyKey row)) = some (true, t') := by
  simp only [read, hrows, List.zipIdx_cons, mapM_cons, bind_assoc, run_bind,
    Option.bind_eq_some_iff] at hread
  obtain ⟨⟨errors, t₁⟩, hrow, ⟨_, t₂⟩, -, _, hcons, hpure⟩ := hread
  cases hcons
  have herrors : errors = [] := by
    have hflatten := congrArg Prod.fst (Option.some_inj.mp hpure)
    simp only [flatten_cons] at hflatten
    exact (append_eq_nil_iff.mp hflatten).1
  obtain ⟨res, hres, hselect⟩ := run_select_of_readRow hrow herrors
  obtain ⟨value, t', hanswer⟩ := Schema.exists_record_of_run_select rfl
    (pkeyFits_historyPkey row).keyOk hselect hres
  by_cases hnodup : (t.keys.map KeyValueEntry.key).Nodup
  · rw [answer_read hnodup, Option.some_inj, Prod.mk.injEq, Option.map_eq_some_iff] at hanswer
    obtain ⟨⟨kv, hfind, -⟩, -⟩ := hanswer
    exact ⟨_, answer_delete_some hnodup hfind⟩
  · simp [txnStorageAdapter, hnodup] at hanswer

theorem pkey_of_covers {row row' : DeleteRow} {rows : List DeleteRow}
    (hrows : a.rows = row :: row' :: rows) {access : Access Key} (haccess : access ∈ a.dryAccesses)
    (hcovers : Covers access (.write (historyKey row'))) : historyPkey row' = historyPkey row := by
  obtain rfl : .write (historyKey row') = access := by
    rcases hcovers with heq | ⟨_, -, hread⟩
    · exact heq
    · cases hread
  rcases List.mem_append.mp haccess with haccess | haccess
  · obtain ⟨row₁, -, haccess⟩ := List.mem_flatMap.mp haccess
    simp only [rowReadAccesses, Schema.selectAccesses, List.mem_append, List.mem_map] at haccess
    rcases haccess with ⟨_, -, h⟩ | ⟨_, -, h⟩ | ⟨_, -, h⟩ | ⟨_, -, h⟩ <;> cases h
  · obtain ⟨row₁, hrow₁, heq⟩ := List.mem_map.mp haccess
    rw [hrows] at hrow₁
    obtain rfl := List.mem_singleton.mp hrow₁
    exact ((pkeyFits_historyPkey row₁).eq_of_keyOf (pkeyFits_historyPkey row')
      (String.ofList_injective (Access.write.inj heq))).symm

theorem firstOnly_of_covered
    (h : ∀ access ∈ a.execute.trace txnStorageAdapter t, ∃ access' ∈ a.dryAccesses, Covers access' access) :
    a.FirstOnly t := by
  intro row row' rows hrows hread
  obtain ⟨t', hdelete⟩ := answer_delete_of_read hrows hread
  obtain ⟨access, haccess, hcovers⟩ := h (.write (historyKey row')) <|
    mem_trace_execute.mpr <| Or.inr ⟨hread, by
      rw [hrows, List.zipIdx_cons, mem_trace_writeRows]
      exact Or.inr ⟨t', hdelete, by rw [List.zipIdx_cons, mem_trace_writeRows]; exact Or.inl rfl⟩⟩
  exact pkey_of_covers hrows haccess hcovers

end DeleteTxn

/-! ## All procedures -/

/-- The procedures of the benchmark with their arguments. -/
inductive Procedure where
  | newOrder (a : NewOrderTxn)
  | insertOnly (a : InsertTxn)
  | orderStatus (a : OrderStatusTxn)
  | deleteOnly (a : DeleteTxn)
  | stockLevel (a : StockLevelTxn)
  | getCustomerByName (a : GetCustomerByNameTxn)
  | getItemByName (a : GetItemByNameTxn)

namespace Procedure

def execute : Procedure → StorageProgram (List String)
  | newOrder a => a.execute
  | insertOnly a => a.execute
  | orderStatus a => a.execute
  | deleteOnly a => a.execute
  | stockLevel a => a.execute
  | getCustomerByName a => a.execute
  | getItemByName a => a.execute

/-- What the client runs to get the keys. -/
def dry : Procedure → StorageProgram (List String)
  | newOrder a => a.dry
  | insertOnly a => a.dry
  | orderStatus a => a.dry
  | deleteOnly a => a.dry
  | stockLevel a => a.dry
  | getCustomerByName a => a.dry
  | getItemByName a => a.dry

/-- All accesses of the execution on the transaction are declared by the dry run. -/
def DeclaresAll (p : Procedure) (t : Transaction) : Prop :=
  ∀ access ∈ p.execute.trace txnStorageAdapter t, ∃ index ∈ keyIndex p.dry, DeclaredIn index access

instance (p : Procedure) (t : Transaction) : Decidable (p.DeclaresAll t) :=
  inferInstanceAs (Decidable (∀ access ∈ _, ∃ index ∈ _, _))

/-- The data does not lead the execution past the keys of the dry run: an order has at most 15 lines,
and there is only one row to delete. -/
def Foreseen (t : Transaction) : Procedure → Prop
  | orderStatus a => a.LinesDeclared t
  | deleteOnly a => a.FirstOnly t
  | _ => True

theorem declaresAll_of_within {p : Procedure} {as : List (Access Key)} {b : List String}
    {post : List String → Prop} (hwithin : p.execute.Within {access | access ∈ as} post)
    (hdry : p.dry.Dry as b) (t : Transaction) : p.DeclaresAll t := fun access haccess =>
  (mem_keyIndex_iff hdry).mpr ⟨access, hwithin.of_mem_trace haccess, Or.inl rfl⟩

theorem declaresAll_of_foreseen {p : Procedure} {t : Transaction} (h : p.Foreseen t) :
    p.DeclaresAll t := by
  cases p with
  | newOrder a =>
    obtain ⟨b, hdry⟩ := a.dry_dry
    exact declaresAll_of_within a.execute_within hdry t
  | insertOnly a =>
    obtain ⟨b, hdry⟩ := a.dry_dry
    exact declaresAll_of_within a.execute_within hdry t
  | orderStatus a =>
    obtain ⟨b, hdry⟩ := a.dry_dry
    exact fun access haccess => (mem_keyIndex_iff hdry).mpr
      ⟨access, OrderStatusTxn.mem_dryAccesses_of_mem_trace h haccess, Or.inl rfl⟩
  | deleteOnly a =>
    obtain ⟨b, hdry⟩ := a.dry_dry
    exact fun access haccess => (mem_keyIndex_iff hdry).mpr
      ⟨access, DeleteTxn.mem_dryAccesses_of_mem_trace h haccess, Or.inl rfl⟩
  | stockLevel a => exact declaresAll_of_within a.execute_static.within a.execute_static.dry t
  | getCustomerByName a => exact declares_lookUps rfl GetCustomerByNameTxn.keyOk_pkey t
  | getItemByName a => exact declares_lookUps rfl GetItemByNameTxn.keyOk_pkey t

theorem foreseen_of_declaresAll {p : Procedure} {t : Transaction}
    (hrun : (p.execute.run txnStorageAdapter t).isSome) (h : p.DeclaresAll t) : p.Foreseen t := by
  cases p with
  | orderStatus a =>
    obtain ⟨b, hdry⟩ := a.dry_dry
    intro row hrow r hr
    by_contra hcount
    have haccess := OrderStatusTxn.exists_mem_trace_of_lineCount hrun hrow hr (by omega)
    obtain ⟨access, hmem, hcovers⟩ := (mem_keyIndex_iff hdry).mp (h _ haccess)
    exact OrderStatusTxn.not_covers_of_lineCount row hmem hcovers
  | deleteOnly a =>
    obtain ⟨b, hdry⟩ := a.dry_dry
    exact DeleteTxn.firstOnly_of_covered fun access haccess =>
      (mem_keyIndex_iff hdry).mp (h access haccess)
  | _ => trivial

/-- The dry run declares every key that the execution accesses, with type WRITE if it is written,
exactly if the data keeps the execution within the keys that can be foreseen.  For all procedures but
`order_status` and `delete_only` this is always so. -/
theorem declaresAll_iff_foreseen (p : Procedure) (t : Transaction) :
    (p.Foreseen t → p.DeclaresAll t) ∧
      ((p.execute.run txnStorageAdapter t).isSome → (p.DeclaresAll t ↔ p.Foreseen t)) :=
  ⟨declaresAll_of_foreseen, fun hrun => ⟨foreseen_of_declaresAll hrun, declaresAll_of_foreseen⟩⟩

/-- The transaction that the client sends, with the same data for all keys. -/
def transaction (p : Procedure) (value : Value) : Transaction where
  internal := { id := 0 }
  keys := ((keyIndex p.dry).elim [] finialize).map fun kv => { kv with value }

/-- Two rows of the history. -/
def deleteTwo : Procedure :=
  .deleteOnly ⟨[⟨1, 1, 1, 1, 1, 1⟩, ⟨1, 1, 1, 1, 1, 2⟩]⟩

/-- All rows are found, and the second one is written without being declared for it. -/
theorem not_declaresAll_deleteTwo :
    ¬ deleteTwo.DeclaresAll (deleteTwo.transaction (String.ofList (List.replicate 60 'a'))) := by
  decide +kernel

end Procedure

end Slog.Benchx
