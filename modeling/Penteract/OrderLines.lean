/-
# The lines of an order

A new order puts the number of its lines into the row of the order, and it inserts a row for each of
its lines.  The number of lines, the numbers of the lines and the quantities have 8 bits.
-/
import Penteract.TableLaws
import Penteract.DryRun

namespace Slog.Benchx

open List Option KeyValue.Program
open KeyValue (Program Access)
open KeyValueExecution (find)

/-- The value of an integer. -/
def Scalar.toInt : Scalar → ℤ
  | int8 value => value.toInt
  | int16 value => value.toInt
  | int32 value => value.toInt
  | int64 value => value.toInt
  | fixedText _ _ => 0

/-! ## Rows that a transaction writes back -/

/-- The value goes to the storage when the transaction commits. -/
structure Pending (key : Key) (value : Value) (t : Transaction) : Prop where
  nodup : (t.keys.map KeyValueEntry.key).Nodup
  entry : ∃ kv, t.view key = (some kv, false) ∧ kv.type = .write ∧ kv.newValue = value

variable {key : Key} {value : Value} {t t' : Transaction} {S : Schema}

theorem Pending.lookupIn (h : Pending key value t) {isLocal : Key → Bool} (hlocal : isLocal key = true)
    (storage : Storage) : Schema.lookupIn (t.applyWrites isLocal storage) key = some value := by
  obtain ⟨kv, hview, hwrite, rfl⟩ := h.entry
  obtain ⟨hfind, hdeleted⟩ := Prod.mk.inj hview
  rw [Schema.lookupIn, applyWrites_written h.nodup hfind (of_decide_eq_false hdeleted) hlocal hwrite]
  rfl

theorem Pending.frame {α : Type} {p : StorageProgram α} {post : α → Prop} (h : Pending key value t)
    (hp : p.Within {access | access.key ≠ key} post) {r : α × Transaction}
    (hrun : p.run txnStorageAdapter t = some r) : Pending key value r.2 := by
  obtain ⟨hnodup, hview⟩ := txnStorageAdapter_separates.frame hp h.nodup hrun
  exact ⟨hnodup, by rw [hview]; exact h.entry⟩

/-- The bytes of the columns after the primary key. -/
def Schema.valueOf (S : Schema) (values : List Scalar) : Value :=
  String.ofList ((values.drop S.pkeySize).map Scalar.stored).flatten

def Schema.keyString (S : Schema) (values : List Scalar) : Key :=
  String.ofList (S.keyOf (values.take S.pkeySize))

theorem Schema.pending_of_run_insert {values : List Scalar} (hgrouped : S.grouped = true)
    (hkey : S.keyOk (values.take S.pkeySize) = true) (hnodup : (t.keys.map KeyValueEntry.key).Nodup)
    (hdeleted : (t.view (S.keyString values)).2 = false)
    (hrun : (S.insert values).run txnStorageAdapter t = some (true, t')) :
    S.acceptsInsert values = true ∧ Pending (S.keyString values) (S.valueOf values) t' := by
  rw [insert] at hrun
  by_cases haccepts : S.acceptsInsert values = true
  · rw [if_pos haccepts, Program.run_bind] at hrun
    obtain ⟨⟨bytes, t₀⟩, hbytes, hrun⟩ := bind_eq_some_iff.mp hrun
    rw [Program.run_ofOption, map_eq_some_iff] at hbytes
    obtain ⟨bytes, hmapM, ⟨⟩⟩ := hbytes
    obtain rfl : bytes = (values.drop S.pkeySize).map Scalar.stored :=
      some_inj.mp (hmapM.symm.trans (Bytes.mapM_of_forall fun v hv =>
        Scalar.bytes_eq_stored (Bytes.forall_of_mapM hmapM v hv)))
    simp only [if_pos hgrouped, makeStorageKey, keyBytes_of_take hkey, map_some,
      Program.ofOption_some, pure_bind, Program.run_insert] at hrun
    refine ⟨haccepts, ?_⟩
    change txnStorageAdapter.answer t (.insert (S.keyString values) (S.valueOf values)) = _ at hrun
    simp only [txnStorageAdapter, hnodup, not_true_eq_false, if_false] at hrun
    cases hfind : find t.keys (S.keyString values) with
    | none => simp [hfind] at hrun
    | some kv =>
      by_cases hwrite : kv.type = .write
      · simp only [hfind, hwrite, ne_eq, not_true_eq_false, if_false, some_inj,
          Prod.mk.injEq, true_and] at hrun
        subst hrun
        refine ⟨by rwa [map_key_setNewValue], { kv with newValue := S.valueOf values }, ?_, hwrite, rfl⟩
        rw [Transaction.view_setNewValue hfind, Function.update_self, hdeleted]
      · simp [hfind, hwrite] at hrun
  · rw [if_neg haccepts] at hrun
    cases hrun

section Rows

variable {S : Schema} {row : S.Column → Scalar}

theorem Schema.keyString_ofFn (haccepts : Accepts row) (hkey : HasKey row) :
    S.keyString (List.ofFn row) = String.ofList (rowKey row) := by
  rw [keyString, keyOf, keyBytes_take, keyBytes_eq haccepts hkey]
  rfl

theorem Schema.valueOf_ofFn : S.valueOf (List.ofFn row) = String.ofList (rowValue row) := by
  rw [valueOf, drop_ofFn, List.map_map, rowValue]
  rfl

/-- The values of columns are found if they and the columns before them have values of their types. -/
theorem Schema.run_select_of_lookup (hgrouped : S.grouped = true) (haccepts : Accepts row)
    (hkey : HasKey row) {storage : Storage}
    (hlookup : lookupIn storage (S.keyString (List.ofFn row)) = some (S.valueOf (List.ofFn row)))
    (columns : List S.Column)
    (hvalues : ∀ c ∈ S.orNonPkey columns, ∀ c' ≤ c, S.isPkey c' = false → (row c').Fits (S.type c'))
    (compute : Key → MasterMetadata) :
    (S.select (pkeyOf row) columns).run (kvStorageAdapter compute) storage =
      some (requested row columns, storage) := by
  rw [keyString_ofFn haccepts hkey, valueOf_ofFn] at hlookup
  rw [run_select_kv (keyBytes_pkeyOf.trans (keyBytes_eq haccepts hkey)),
    eval_selectGrouped_of_holds hgrouped haccepts hkey hlookup hvalues]
  rfl

end Rows

theorem Schema.reads_selectRow (S : Schema) (n : ℕ) (pkey : List Scalar) (hkey : S.keyOk pkey = true)
    (columns : List S.Column) : Reads (S.selectRow n pkey columns) := by
  refine Within.bind (S.reads_select pkey hkey columns) fun res _ => ?_
  split_ifs
  · exact within_pure trivial
  · exact within_ofOption fun _ _ => trivial
  · exact within_ofOption fun _ _ => trivial

theorem Schema.run_selectRow {n : ℕ} {pkey : List Scalar} {columns : List S.Column}
    {res : Option (List Scalar)}
    (hrun : (S.selectRow n pkey columns).run txnStorageAdapter t = some (res, t')) :
    ∃ res', (S.select pkey columns).run txnStorageAdapter t = some (res', t') ∧
      res = if res' = [] then none else some res' := by
  simp only [selectRow, Program.run_bind, bind_eq_some_iff] at hrun
  obtain ⟨⟨res', t₁⟩, hselect, hrun⟩ := hrun
  by_cases hnil : res' = []
  · rw [if_pos hnil] at hrun
    cases hrun
    exact ⟨res', hselect, (if_pos hnil).symm⟩
  · rw [if_neg hnil, Program.run_ofOption, map_eq_some_iff] at hrun
    obtain ⟨res₁, hres₁, ⟨⟩⟩ := hrun
    split_ifs at hres₁
    exact ⟨res', hselect, by rw [if_neg hnil]; exact (some_inj.mp hres₁).symm⟩

/-! ## The rows of an order -/

namespace NewOrderTxn

variable (a : NewOrderTxn)

def orderPkey : List Scalar := [makeInt32Scalar a.wId, makeInt8Scalar a.dId, makeInt32Scalar a.oId]

def linePkey (number : BitVec 8) : List Scalar :=
  [makeInt32Scalar a.wId, makeInt8Scalar a.dId, makeInt32Scalar a.oId, .int8 number]

def orderValues (allLocal : BitVec 8) : List Scalar :=
  [makeInt32Scalar a.wId, makeInt8Scalar a.dId, makeInt32Scalar a.oId, makeInt32Scalar a.cId,
    makeInt64Scalar a.datetime, makeInt8Scalar 0, makeInt8Scalar a.olCnt, .int8 allLocal]

def lineValues (l : OrderLineScalar) : List Scalar :=
  [makeInt32Scalar a.wId, makeInt8Scalar a.dId, makeInt32Scalar a.oId, .int8 l.aId, .int32 l.aItemId,
    .int32 l.aSupplyWId, makeInt64Scalar 0, .int8 l.aQuantity, .int32 l.amount, l.distInfo]

def orderRow (allLocal : BitVec 8) : orderSchema.Column → Scalar := (a.orderValues allLocal).get

def lineRow (l : OrderLineScalar) : orderLineSchema.Column → Scalar := (a.lineValues l).get

theorem ofFn_orderRow (allLocal : BitVec 8) : List.ofFn (a.orderRow allLocal) = a.orderValues allLocal :=
  ofFn_get _

theorem ofFn_lineRow (l : OrderLineScalar) : List.ofFn (a.lineRow l) = a.lineValues l :=
  ofFn_get _

theorem rowFits_orderRow (allLocal : BitVec 8) : Schema.RowFits (a.orderRow allLocal) := by
  intro c
  fin_cases c <;> exact ⟨rfl, trivial⟩

/-- The columns before the text. -/
theorem fits_lineRow (l : OrderLineScalar) {c : orderLineSchema.Column} (hc : c.val < 9) :
    (a.lineRow l c).Fits (orderLineSchema.type c) := by
  fin_cases c <;> first | exact ⟨rfl, trivial⟩ | exact absurd hc (by decide)

def orderKey : Key := String.ofList (orderSchema.keyOf a.orderPkey)

def lineKey (number : BitVec 8) : Key := String.ofList (orderLineSchema.keyOf (a.linePkey number))

theorem pkeyFits_orderPkey : orderSchema.PkeyFits a.orderPkey :=
  .cons ⟨rfl, trivial⟩ (.cons ⟨rfl, trivial⟩ (.cons ⟨rfl, trivial⟩ .nil))

theorem pkeyFits_newOrder : newOrderSchema.PkeyFits a.orderPkey :=
  .cons ⟨rfl, trivial⟩ (.cons ⟨rfl, trivial⟩ (.cons ⟨rfl, trivial⟩ .nil))

theorem pkeyFits_linePkey (number : BitVec 8) : orderLineSchema.PkeyFits (a.linePkey number) :=
  .cons ⟨rfl, trivial⟩ (.cons ⟨rfl, trivial⟩ (.cons ⟨rfl, trivial⟩ (.cons ⟨rfl, trivial⟩ .nil)))

theorem pkeyFits_district :
    districtSchema.PkeyFits [makeInt32Scalar a.wId, makeInt8Scalar a.dId] :=
  .cons ⟨rfl, trivial⟩ (.cons ⟨rfl, trivial⟩ .nil)

theorem pkeyFits_stock (l : OrderLineScalar) :
    stockSchema.PkeyFits [.int32 l.aSupplyWId, .int32 l.aItemId] :=
  .cons ⟨rfl, trivial⟩ (.cons ⟨rfl, trivial⟩ .nil)

theorem lineKey_injective : Function.Injective a.lineKey := by
  intro number number' heq
  have hpkey := (a.pkeyFits_linePkey number).eq_of_keyOf (a.pkeyFits_linePkey number')
    (String.ofList_injective heq)
  simp only [linePkey, List.cons.injEq, Scalar.int8.injEq] at hpkey
  exact hpkey.2.2.2.1

variable {l : OrderLineScalar} {S : Schema} {pkey : List Scalar} {s : State}

/-- A line is written to its row of the stock and to its own row. -/
theorem writeLine_frame (hpkey : S.PkeyFits pkey) (hstock : stockSchema.id ≠ S.id)
    (hline : a.lineKey l.aId ≠ String.ofList (S.keyOf pkey)) :
    (a.writeLine l).Within {access | access.key ≠ String.ofList (S.keyOf pkey)} fun _ => True := by
  refine (a.writeLine_within l).mono (fun access haccess => ?_) fun _ h => h
  rcases mem_append.mp haccess with haccess | haccess
  · exact (pkeyFits_stock l).key_ne hpkey hstock (Schema.key_of_mem_updateAccesses haccess)
  · rw [Schema.rowAccesses_grouped rfl, mem_singleton] at haccess
    subst haccess
    exact hline

/-- The row of a line has been accepted and is written back. -/
def WritesBack (l : OrderLineScalar) (t : Transaction) : Prop :=
  orderLineSchema.acceptsInsert (a.lineValues l) = true ∧
    Pending (a.lineKey l.aId) (orderLineSchema.valueOf (a.lineValues l)) t

variable {a} {t t' : Transaction}

theorem run_write (hrun : (a.write s).run txnStorageAdapter t = some ([], t')) :
    ∃ t₁ t₂ t₃ errors,
      (districtSchema.update [makeInt32Scalar a.wId, makeInt8Scalar a.dId] [DistrictColumn.nextOId]
        [.int32 s.newDNextOId]).run txnStorageAdapter t = some (true, t₁) ∧
      (orderSchema.insert (a.orderValues s.allLocal)).run txnStorageAdapter t₁ = some (true, t₂) ∧
      (newOrderSchema.insert [makeInt32Scalar a.wId, makeInt8Scalar a.dId, makeInt32Scalar a.oId,
        makeInt8Scalar 0]).run txnStorageAdapter t₂ = some (true, t₃) ∧
      (s.lines.mapM a.writeLine).run txnStorageAdapter t₃ = some (errors, t') ∧
      errors.flatten = [] := by
  simp only [write, Program.run_bind, bind_eq_some_iff] at hrun
  obtain ⟨⟨district, t₁⟩, h₁, ⟨order, t₂⟩, h₂, ⟨newOrder, t₃⟩, h₃, ⟨errors, t₄⟩, h₄, hpure⟩ := hrun
  obtain ⟨herrors, rfl⟩ := Prod.mk.inj (some_inj.mp hpure)
  obtain ⟨rfl, rfl, rfl, hlines⟩ :
      district = true ∧ order = true ∧ newOrder = true ∧ errors.flatten = [] := by
    simpa using herrors
  exact ⟨t₁, t₂, t₃, errors, h₁, h₂, h₃, h₄, hlines⟩

/-- The row of the order is written back, whatever the lines are. -/
theorem pending_order (hnodup : (t.keys.map KeyValueEntry.key).Nodup)
    (hdeleted : (t.view a.orderKey).2 = false)
    (hrun : (a.write s).run txnStorageAdapter t = some ([], t')) :
    Pending a.orderKey (orderSchema.valueOf (a.orderValues s.allLocal)) t' := by
  obtain ⟨t₁, t₂, t₃, errors, h₁, h₂, h₃, h₄, -⟩ := run_write hrun
  obtain ⟨hnodup₁, hview⟩ := txnStorageAdapter_separates.frame
    (a.pkeyFits_district.update_within_other a.pkeyFits_orderPkey (by decide)) hnodup h₁
  obtain ⟨-, hpending⟩ : orderSchema.acceptsInsert (a.orderValues s.allLocal) = true ∧
      Pending a.orderKey (orderSchema.valueOf (a.orderValues s.allLocal)) t₂ :=
    Schema.pending_of_run_insert rfl rfl hnodup₁ ((congrArg Prod.snd hview).trans hdeleted) h₂
  have hpending₃ := hpending.frame
    (Schema.PkeyFits.insert_within_other a.pkeyFits_newOrder a.pkeyFits_orderPkey (by decide)) h₃
  refine hpending₃.frame (within_mapM fun l _ => a.writeLine_frame a.pkeyFits_orderPkey
    (by decide) ?_) h₄
  exact (a.pkeyFits_linePkey l.aId).key_ne a.pkeyFits_orderPkey (by decide)
    ⟨[], by rw [append_nil]; rfl⟩

theorem pending_line (hnodup : (t.keys.map KeyValueEntry.key).Nodup)
    (hdeleted : (t.view (a.lineKey l.aId)).2 = false)
    (hrun : (a.writeLine l).run txnStorageAdapter t = some ([], t')) : a.WritesBack l t' := by
  simp only [writeLine, Program.run_bind, bind_eq_some_iff] at hrun
  obtain ⟨⟨stock, t₁⟩, h₁, ⟨line, t₂⟩, h₂, hpure⟩ := hrun
  obtain ⟨herrors, rfl⟩ := Prod.mk.inj (some_inj.mp hpure)
  obtain ⟨-, rfl⟩ : stock = true ∧ line = true := by simpa using herrors
  obtain ⟨hnodup₁, hview⟩ := txnStorageAdapter_separates.frame
    ((pkeyFits_stock l).update_within_other (a.pkeyFits_linePkey l.aId) (by decide)) hnodup h₁
  exact Schema.pending_of_run_insert rfl rfl hnodup₁ ((congrArg Prod.snd hview).trans hdeleted) h₂

/-- The rows of the lines are written back if their numbers are different. -/
theorem pending_lines {ls : List OrderLineScalar} (hids : (ls.map OrderLineScalar.aId).Nodup)
    {errors : List (List String)} (hnodup : (t.keys.map KeyValueEntry.key).Nodup)
    (hrun : (ls.mapM a.writeLine).run txnStorageAdapter t = some (errors, t'))
    (herrors : errors.flatten = []) (hl : l ∈ ls) (hdeleted : (t.view (a.lineKey l.aId)).2 = false) :
    a.WritesBack l t' := by
  induction ls generalizing t errors with
  | nil => cases hl
  | cons l₁ ls ih =>
    rw [map_cons, nodup_cons] at hids
    simp only [mapM_cons, Program.run_bind, bind_eq_some_iff] at hrun
    obtain ⟨⟨errors₁, t₁⟩, h₁, ⟨errors₂, t₂⟩, h₂, ⟨⟩⟩ := hrun
    rw [flatten_cons, append_eq_nil_iff] at herrors
    obtain ⟨rfl, herrors₂⟩ := herrors
    -- lines with other numbers do not touch the row of the line `l`
    have hframe : ∀ l' : OrderLineScalar, l'.aId ≠ l.aId → (a.writeLine l').Within
        {access | access.key ≠ a.lineKey l.aId} fun _ => True := fun l' hne =>
      a.writeLine_frame (a.pkeyFits_linePkey l.aId) (by decide) fun heq =>
        hne (a.lineKey_injective heq)
    have hne : ∀ l' ∈ ls, l'.aId ≠ l₁.aId := fun l' hl' heq =>
      hids.1 (heq ▸ mem_map_of_mem hl')
    rcases mem_cons.mp hl with rfl | hl
    · obtain ⟨haccepts, hpending⟩ := pending_line hnodup hdeleted h₁
      exact ⟨haccepts, hpending.frame (within_mapM fun l' hl' => hframe l' (hne l' hl')) h₂⟩
    · obtain ⟨hnodup₁, hview⟩ := txnStorageAdapter_separates.frame
        (hframe l₁ (hne l hl).symm) hnodup h₁
      exact ih hids.2 hnodup₁ h₂ herrors₂ hl ((congrArg Prod.snd hview).trans hdeleted)

theorem pending_line_of_write (hids : (s.lines.map OrderLineScalar.aId).Nodup)
    (hnodup : (t.keys.map KeyValueEntry.key).Nodup)
    (hrun : (a.write s).run txnStorageAdapter t = some ([], t')) (hl : l ∈ s.lines)
    (hdeleted : (t.view (a.lineKey l.aId)).2 = false) : a.WritesBack l t' := by
  obtain ⟨t₁, t₂, t₃, errors, h₁, h₂, h₃, h₄, herrors⟩ := run_write hrun
  have hline := a.pkeyFits_linePkey l.aId
  obtain ⟨hnodup₁, hview₁⟩ := txnStorageAdapter_separates.frame
    (a.pkeyFits_district.update_within_other hline (by decide)) hnodup h₁
  obtain ⟨hnodup₂, hview₂⟩ := txnStorageAdapter_separates.frame
    (Schema.PkeyFits.insert_within_other a.pkeyFits_orderPkey hline (by decide)) hnodup₁ h₂
  obtain ⟨hnodup₃, hview₃⟩ := txnStorageAdapter_separates.frame
    (Schema.PkeyFits.insert_within_other a.pkeyFits_newOrder hline (by decide)) hnodup₂ h₃
  exact pending_lines hids hnodup₃ h₄ herrors hl
    ((congrArg Prod.snd (hview₃.trans (hview₂.trans hview₁))).trans hdeleted)

/-! ## What the lines are computed from -/

variable (a) in
/-- The price that the transaction has read for an item. -/
def price (t : Transaction) (itemId : BitVec 32) : Option ℤ :=
  ((itemSchema.select [makeInt32Scalar a.iWId, .int32 itemId]
      [ItemColumn.price, ItemColumn.name, ItemColumn.data]).run txnStorageAdapter t).bind fun r =>
    r.1.head?.map fun v => v.toInt32.toInt

/-- What is left of a line after the reads and the computation. -/
structure Computed (t : Transaction) (l : OrderLineScalar) (l' : OrderLineScalar) : Prop where
  aId : l'.aId = l.aId
  aItemId : l'.aItemId = l.aItemId
  aSupplyWId : l'.aSupplyWId = l.aSupplyWId
  aQuantity : l'.aQuantity = l.aQuantity
  amount : ∃ price : BitVec 32, a.price t l.aItemId = some price.toInt ∧
    l'.amount = l.aQuantity.signExtend 32 * price

variable (a) in
theorem reads_readLine (l : OrderLineScalar) : Reads (a.readLine l) :=
  Within.bind (itemSchema.reads_selectRow _ _ rfl _) fun _ _ =>
    (stockSchema.reads_selectRow _ _ rfl _).bind fun _ _ => within_pure trivial

theorem computed_of_run_readLine {l' : OrderLineScalar}
    (hrun : (a.readLine l).run txnStorageAdapter t = some (([], l'), t)) :
    a.Computed t l (computeLine l') := by
  simp only [readLine, Program.run_bind, bind_eq_some_iff] at hrun
  obtain ⟨⟨item, t₁⟩, hitem, ⟨stock, t₂⟩, -, hpure⟩ := hrun
  obtain ⟨hpair, -⟩ := Prod.mk.inj (some_inj.mp hpure)
  obtain ⟨herrors, rfl⟩ := Prod.mk.inj hpair
  obtain ⟨res, hselect, rfl⟩ := Schema.run_selectRow hitem
  cases res with
  | nil => simp at herrors
  | cons v vs =>
    refine ⟨rfl, rfl, rfl, rfl, v.toInt32, ?_, rfl⟩
    rw [price, hselect]
    rfl

theorem run_read (hrun : a.read.run txnStorageAdapter t = some (s, t')) (herrors : s.errors = []) :
    t' = t ∧ Forall₂ (fun l l' => (a.readLine l).run txnStorageAdapter t = some (([], l'), t))
      a.lines s.lines := by
  simp only [read, Program.run_bind, bind_eq_some_iff] at hrun
  obtain ⟨⟨_, t₁⟩, h₁, ⟨_, t₂⟩, h₂, ⟨_, t₃⟩, h₃, ⟨rs, t₄⟩, h₄, ⟨⟩⟩ := hrun
  obtain rfl : t₁ = t := (warehouseSchema.reads_selectRow _ _ rfl _).keeps h₁
  obtain rfl : t₂ = t₁ := (customerSchema.reads_selectRow _ _ rfl _).keeps h₂
  obtain rfl : t₃ = t₂ := (districtSchema.reads_selectRow _ _ rfl _).keeps h₃
  obtain ⟨rfl, hlines⟩ := forall₂_of_run_mapM (fun l _ r hr => (a.reads_readLine l).keeps hr) h₄
  refine ⟨rfl, forall₂_map_right_iff.mpr ?_⟩
  have hnil : ∀ r ∈ rs, r.1 = [] := flatMap_eq_nil_iff.mp (append_eq_nil_iff.mp herrors).2
  refine forall₂_iff_get.mpr ⟨hlines.length_eq, fun i hi hi' => ?_⟩
  rw [(forall₂_iff_get.mp hlines).2 i hi hi', ← hnil _ (get_mem rs ⟨i, hi'⟩)]

/-- A committed execution has read and computed all lines, and then written. -/
theorem run_execute (hrun : a.execute.run txnStorageAdapter t = some ([], t')) :
    ∃ s : State, Forall₂ (a.Computed t) a.lines s.lines ∧
      (a.write s).run txnStorageAdapter t = some ([], t') := by
  simp only [execute, Program.run_bind, bind_eq_some_iff] at hrun
  obtain ⟨⟨s, t₁⟩, hread, hrun⟩ := hrun
  by_cases herrors : s.errors = []
  · obtain ⟨rfl, hlines⟩ := run_read hread herrors
    rw [if_neg (not_not.mpr herrors)] at hrun
    exact ⟨a.compute s, forall₂_map_right_iff.mpr
      (hlines.imp fun _ _ => computed_of_run_readLine), hrun⟩
  · rw [if_pos herrors] at hrun
    exact absurd (congrArg Prod.fst (some_inj.mp hrun)) herrors

/-! ## An order keeps its lines -/

/-- The columns of a row in the storage, which are integers. -/
def storedInts (compute : Key → MasterMetadata) (storage : Storage) (S : Schema) (pkey : List Scalar)
    (columns : List S.Column) : Option (List ℤ) :=
  ((S.select pkey columns).run (kvStorageAdapter compute) storage).map fun r => r.1.map Scalar.toInt

variable (compute : Key → MasterMetadata) {storage : Storage} {isLocal : Key → Bool}

theorem storedInts_order {allLocal : BitVec 8}
    (h : Schema.lookupIn storage a.orderKey = some (orderSchema.valueOf (a.orderValues allLocal))) :
    storedInts compute storage orderSchema a.orderPkey [OrderColumn.olCnt] =
      some [(BitVec.ofInt 8 a.olCnt).toInt] := by
  have hfits := a.rowFits_orderRow allLocal
  rw [← ofFn_orderRow] at h
  have hselect := Schema.run_select_of_lookup rfl hfits.accepts hfits.hasKey h [OrderColumn.olCnt]
    (fun _ _ c' _ _ => hfits c') compute
  rw [Schema.pkeyOf, ofFn_orderRow] at hselect
  rw [storedInts]
  exact congrArg (Option.map fun r => r.1.map Scalar.toInt) hselect

theorem storedInts_line (haccepts : orderLineSchema.acceptsInsert (a.lineValues l) = true)
    (h : Schema.lookupIn storage (a.lineKey l.aId) = some (orderLineSchema.valueOf (a.lineValues l))) :
    storedInts compute storage orderLineSchema (a.linePkey l.aId)
        [OrderLineColumn.iId, OrderLineColumn.supplyWId, OrderLineColumn.quantity,
          OrderLineColumn.amount] =
      some [l.aItemId.toInt, l.aSupplyWId.toInt, l.aQuantity.toInt, l.amount.toInt] := by
  have haccepts : Schema.Accepts (a.lineRow l) := by
    intro c
    by_cases hc : c.val < 9
    · rw [Schema.validateType, (a.fits_lineRow l hc).1, decide_eq_true_iff]
    · obtain rfl : c = ⟨9, by decide⟩ := Fin.ext (by have := c.isLt; simp [orderLineSchema] at this ⊢; omega)
      have hmem : (l.distInfo, DataType.fixedText 24) ∈
          ((a.lineValues l).zip orderLineSchema.columnTypes).drop orderLineSchema.pkeySize := by
        simp [lineValues, orderLineSchema]
      exact all_eq_true.mp ((Bool.and_eq_true _ _).mp haccepts).2 _ hmem
  have hkey : Schema.HasKey (a.lineRow l) := fun c hc => by
    rw [(a.fits_lineRow l ((Schema.isPkey_eq_true.mp hc).trans (by decide))).2.bytes]
    rfl
  rw [← ofFn_lineRow] at h
  have hselect := Schema.run_select_of_lookup rfl haccepts hkey h
    [OrderLineColumn.iId, OrderLineColumn.supplyWId, OrderLineColumn.quantity, OrderLineColumn.amount]
    (fun c hc c' hle _ => a.fits_lineRow l (by
      have hlt : ∀ c ∈ orderLineSchema.orNonPkey [OrderLineColumn.iId, OrderLineColumn.supplyWId,
        OrderLineColumn.quantity, OrderLineColumn.amount], c.val < 9 := by decide
      exact lt_of_le_of_lt hle (hlt c hc))) compute
  rw [Schema.pkeyOf, ofFn_lineRow] at hselect
  exact congrArg (Option.map fun r => r.1.map Scalar.toInt) hselect

/-- The integers of the width. -/
def IsInt (w : ℕ) (x : ℤ) : Prop := -2 ^ (w - 1) ≤ x ∧ x < 2 ^ (w - 1)

instance (w : ℕ) (x : ℤ) : Decidable (IsInt w x) := inferInstanceAs (Decidable (_ ∧ _))

theorem toInt_ofInt_iff {w : ℕ} (hw : 0 < w) {x : ℤ} : (BitVec.ofInt w x).toInt = x ↔ IsInt w x := by
  refine ⟨fun h => h ▸ ⟨BitVec.le_toInt _, BitVec.toInt_lt⟩, fun h => ?_⟩
  exact BitVec.toInt_ofInt_eq_self hw h.1 h.2

variable (a) in
/-- The row of the order has the number of the lines, and there is a row for every line, with the
item, the supplying warehouse, the quantity and the amount of the line. -/
structure KeepsLines (compute : Key → MasterMetadata) (t : Transaction) (storage : Storage) : Prop where
  olCnt : storedInts compute storage orderSchema a.orderPkey [OrderColumn.olCnt] = some [(a.ol.length : ℤ)]
  distinct : (a.ol.map fun l => a.linePkey (BitVec.ofInt 8 l.id)).Nodup
  lines : ∀ l ∈ a.ol, ∃ price ∈ a.price t (BitVec.ofInt 32 l.itemId),
    storedInts compute storage orderLineSchema (a.linePkey (BitVec.ofInt 8 l.id))
        [OrderLineColumn.iId, OrderLineColumn.supplyWId, OrderLineColumn.quantity,
          OrderLineColumn.amount] =
      some [l.itemId, l.supplyWId, l.quantity, l.quantity * price]

variable (a) in
/-- The numbers fit into their columns, and no line has the item 0, which marks a line as unused. -/
structure Fits (t : Transaction) : Prop where
  count : a.ol.length < 2 ^ 7
  lines : ∀ l ∈ a.ol, l.itemId ≠ 0 ∧ IsInt 32 l.itemId ∧ IsInt 32 l.supplyWId ∧ IsInt 8 l.quantity ∧
    ∀ price ∈ a.price t (BitVec.ofInt 32 l.itemId), IsInt 32 (l.quantity * price)

variable (a) in
/-- The lines are numbered from 1. -/
def Numbered : Prop := a.ol.map OrderLine.id = (List.range a.ol.length).map fun i : ℕ => (i : ℤ) + 1

theorem olCnt_le : a.olCnt ≤ a.ol.length := length_filter_le _ _

theorem id_ne_zero (h : a.Numbered) {l : OrderLine} (hl : l ∈ a.ol) : l.id ≠ 0 := by
  have hid : l.id ∈ a.ol.map OrderLine.id := mem_map_of_mem hl
  rw [h] at hid
  obtain ⟨i, -, hi⟩ := mem_map.mp hid
  have hi : (i : ℤ) + 1 = l.id := hi
  omega

theorem olCnt_eq_length (h : a.Numbered) : a.olCnt = a.ol.length ↔ ∀ l ∈ a.ol, l.itemId ≠ 0 := by
  rw [olCnt, length_filter_eq_length_iff]
  refine forall₂_congr fun l hl => ?_
  simp [id_ne_zero h hl]

theorem lines_of_olCnt (h : a.olCnt = a.ol.length) : a.lines = a.ol.map OrderLine.scalars := by
  rw [lines, h, take_length]

theorem nodup_of_run {α : Type} {p : StorageProgram α} {r : α × Transaction}
    (hrun : p.run txnStorageAdapter t = some r) (htrace : p.dryTrace ≠ []) :
    (t.keys.map KeyValueEntry.key).Nodup := by
  by_contra hdup
  cases p with
  | pure a => exact htrace rfl
  | fault => exact htrace rfl
  | call c next => simp [Program.run, txnStorageAdapter, hdup] at hrun

theorem nodup_of_run_execute (hrun : a.execute.run txnStorageAdapter t = some ([], t')) :
    (t.keys.map KeyValueEntry.key).Nodup := by
  obtain ⟨r, hread, -⟩ := exists_run_of_bind (isSome_of_eq_some hrun)
  obtain ⟨s, -, hstatic⟩ := a.read_static
  refine nodup_of_run hread ?_
  rw [hstatic.dry.trace]
  exact append_ne_nil_of_left_ne_nil (cons_ne_nil _ _) _

/-- All rows of the order are in the partition of its warehouse. -/
theorem isLocal_of_pkeyFits (hpkey : S.PkeyFits pkey)
    (hhead : pkey.head? = some (makeInt32Scalar a.wId))
    (hlocal : ∀ rest, isLocal (String.ofList ((makeInt32Scalar a.wId).stored ++ rest)) = true) :
    isLocal (String.ofList (S.keyOf pkey)) = true := by
  obtain ⟨v, vs, rfl, -, heq⟩ := hpkey.keyOf_eq
  obtain rfl : v = makeInt32Scalar a.wId := some_inj.mp hhead
  rw [heq, hlocal]

theorem storedInts_order_of_run (storage : Storage) (hdeleted : t.deletedKeys = [])
    (hrun : a.execute.run txnStorageAdapter t = some ([], t'))
    (hlocal : ∀ rest, isLocal (String.ofList ((makeInt32Scalar a.wId).stored ++ rest)) = true) :
    storedInts compute (t'.applyWrites isLocal storage) orderSchema a.orderPkey [OrderColumn.olCnt] =
      some [(BitVec.ofInt 8 a.olCnt).toInt] := by
  obtain ⟨s, -, hwrite⟩ := run_execute hrun
  have hpending := pending_order (nodup_of_run_execute hrun) (by simp [Transaction.view, hdeleted]) hwrite
  exact storedInts_order compute (hpending.lookupIn (isLocal_of_pkeyFits a.pkeyFits_orderPkey rfl hlocal) storage)

theorem nodup_ids (hnumbered : a.Numbered) (hcount : a.ol.length < 2 ^ 7) :
    (a.ol.map fun l => BitVec.ofInt 8 l.id).Nodup := by
  have hids : (a.ol.map fun l => BitVec.ofInt 8 l.id) =
      (List.range a.ol.length).map fun i : ℕ => BitVec.ofInt 8 ((i : ℤ) + 1) := by
    have hcongr := congrArg (List.map (BitVec.ofInt 8)) hnumbered
    rwa [List.map_map, List.map_map] at hcongr
  rw [hids]
  refine Nodup.map_on (fun i hi j hj heq => ?_) nodup_range
  rw [mem_range] at hi hj
  have hfits {n : ℕ} (h : n < a.ol.length) : IsInt 8 ((n : ℤ) + 1) := by
    constructor <;> norm_num
    · omega
    · omega
  have hint := congrArg BitVec.toInt heq
  rw [(toInt_ofInt_iff (by norm_num)).mpr (hfits hi),
    (toInt_ofInt_iff (by norm_num)).mpr (hfits hj)] at hint
  omega

theorem toInt_amount {quantity : ℤ} (hquantity : IsInt 8 quantity) (price : BitVec 32) :
    ((BitVec.ofInt 8 quantity).signExtend 32 * price).toInt = quantity * price.toInt ↔
      IsInt 32 (quantity * price.toInt) := by
  rw [← toInt_ofInt_iff (by norm_num), BitVec.toInt_mul, BitVec.toInt_signExtend_of_le (by norm_num),
    (toInt_ofInt_iff (by norm_num)).mpr hquantity, BitVec.toInt_ofInt]

/-- The count of 8 bits is the number of lines exactly if there are few lines and all are used. -/
theorem olCnt_iff (hnumbered : a.Numbered) : (BitVec.ofInt 8 a.olCnt).toInt = a.ol.length ↔
    a.ol.length < 2 ^ 7 ∧ ∀ l ∈ a.ol, l.itemId ≠ 0 := by
  rw [← olCnt_eq_length hnumbered]
  constructor
  · intro h
    have hlt : a.ol.length < 2 ^ 7 := by
      have := BitVec.toInt_lt (x := BitVec.ofInt 8 a.olCnt)
      omega
    have hint : IsInt 8 a.olCnt := by
      have := a.olCnt_le
      constructor <;> norm_num <;> omega
    rw [(toInt_ofInt_iff (by norm_num)).mpr hint] at h
    exact ⟨hlt, by omega⟩
  · rintro ⟨hlt, heq⟩
    have hint : IsInt 8 a.ol.length := by constructor <;> norm_num <;> omega
    rw [heq, (toInt_ofInt_iff (by norm_num)).mpr hint]

theorem line_iff (storage : Storage) (hnumbered : a.Numbered) (hcount : a.ol.length < 2 ^ 7)
    (hcnt : a.olCnt = a.ol.length) (hdeleted : t.deletedKeys = [])
    (hrun : a.execute.run txnStorageAdapter t = some ([], t'))
    (hlocal : ∀ rest, isLocal (String.ofList ((makeInt32Scalar a.wId).stored ++ rest)) = true)
    {l : OrderLine} (hl : l ∈ a.ol) :
    (∃ price ∈ a.price t (BitVec.ofInt 32 l.itemId),
      storedInts compute (t'.applyWrites isLocal storage) orderLineSchema
          (a.linePkey (BitVec.ofInt 8 l.id))
          [OrderLineColumn.iId, OrderLineColumn.supplyWId, OrderLineColumn.quantity,
            OrderLineColumn.amount] =
        some [l.itemId, l.supplyWId, l.quantity, l.quantity * price]) ↔
      IsInt 32 l.itemId ∧ IsInt 32 l.supplyWId ∧ IsInt 8 l.quantity ∧
        ∀ price ∈ a.price t (BitVec.ofInt 32 l.itemId), IsInt 32 (l.quantity * price) := by
  obtain ⟨s, hcomputed, hwrite⟩ := run_execute hrun
  rw [lines_of_olCnt hcnt, forall₂_map_left_iff] at hcomputed
  have hids : (s.lines.map OrderLineScalar.aId).Nodup := by
    have heq : (a.ol.map fun l => BitVec.ofInt 8 l.id) = s.lines.map OrderLineScalar.aId := by
      rw [← forall₂_eq_eq_eq, forall₂_map_left_iff, forall₂_map_right_iff]
      exact hcomputed.imp fun _ _ h => h.aId.symm
    exact heq ▸ nodup_ids hnumbered hcount
  obtain ⟨l', hl', h⟩ := Bytes.exists_of_forall₂ hcomputed.flip hl
  obtain ⟨price, hprice, hamount⟩ := h.amount
  obtain ⟨haccepts, hpending⟩ := pending_line_of_write hids (nodup_of_run_execute hrun) hwrite hl'
    (by simp [Transaction.view, hdeleted])
  have hstored := storedInts_line compute haccepts (hpending.lookupIn
    (isLocal_of_pkeyFits (a.pkeyFits_linePkey l'.aId) rfl hlocal) storage)
  rw [h.aId, h.aItemId, h.aSupplyWId, h.aQuantity, hamount] at hstored
  dsimp only [OrderLine.scalars] at hstored hprice
  rw [hstored, hprice]
  simp only [mem_some_iff, exists_eq_left', forall_eq', some_inj, List.cons.injEq,
    and_true]
  rw [toInt_ofInt_iff (by norm_num), toInt_ofInt_iff (by norm_num), toInt_ofInt_iff (by norm_num)]
  refine and_congr_right fun _ => and_congr_right fun _ => and_congr_right fun hquantity => ?_
  exact toInt_amount hquantity price

/-- A new order whose only line has the item 0. -/
def unusedLine : NewOrderTxn where
  wId := 1
  dId := 1
  cId := 1
  oId := 1
  datetime := 1
  iWId := 1
  ol := [⟨1, 1, 0, 5⟩]

/-- Its transaction, with records that are long enough for all columns. -/
def unusedLineTxn : Transaction :=
  (Procedure.newOrder unusedLine).transaction (String.ofList (List.replicate 34 (Char.ofNat 1)))

theorem run_unusedLine : ∃ t', unusedLine.execute.run txnStorageAdapter unusedLineTxn = some ([], t') := by
  have hcommits : (unusedLine.execute.run txnStorageAdapter unusedLineTxn).map Prod.fst = some [] := by
    decide +kernel
  obtain ⟨⟨errors, t'⟩, hrun, rfl⟩ := map_eq_some_iff.mp hcommits
  exact ⟨t', hrun⟩

end NewOrderTxn

end Slog.Benchx
