/-
# Stored procedures

The procedures of the benchmark.  A procedure first reads, then computes, then writes; it gives up after
the reads if a row is missing.  Arguments are `int`s that are put into scalars of the widths of the
columns.  An error is remembered and the procedure goes on; the first one is reported.
-/
import Penteract.Table

namespace Slog.Benchx

open KeyValue (Program)

/-! ## Columns -/

namespace WarehouseColumn

def name : warehouseSchema.Column := ⟨1, by decide⟩
def address : warehouseSchema.Column := ⟨2, by decide⟩
def tax : warehouseSchema.Column := ⟨3, by decide⟩
def ytd : warehouseSchema.Column := ⟨4, by decide⟩

end WarehouseColumn

namespace DistrictColumn

def name : districtSchema.Column := ⟨2, by decide⟩
def address : districtSchema.Column := ⟨3, by decide⟩
def tax : districtSchema.Column := ⟨4, by decide⟩
def ytd : districtSchema.Column := ⟨5, by decide⟩
def nextOId : districtSchema.Column := ⟨6, by decide⟩

end DistrictColumn

namespace CustomerColumn

def fullName : customerSchema.Column := ⟨3, by decide⟩
def address : customerSchema.Column := ⟨4, by decide⟩
def phone : customerSchema.Column := ⟨5, by decide⟩
def since : customerSchema.Column := ⟨6, by decide⟩
def credit : customerSchema.Column := ⟨7, by decide⟩
def creditLim : customerSchema.Column := ⟨8, by decide⟩
def discount : customerSchema.Column := ⟨9, by decide⟩
def balance : customerSchema.Column := ⟨10, by decide⟩
def ytdPayment : customerSchema.Column := ⟨11, by decide⟩
def paymentCnt : customerSchema.Column := ⟨12, by decide⟩
def data : customerSchema.Column := ⟨14, by decide⟩

end CustomerColumn

namespace HistoryColumn

def data : historySchema.Column := ⟨8, by decide⟩

end HistoryColumn

namespace OrderColumn

def entryD : orderSchema.Column := ⟨4, by decide⟩
def carrierId : orderSchema.Column := ⟨5, by decide⟩
def olCnt : orderSchema.Column := ⟨6, by decide⟩

end OrderColumn

namespace OrderLineColumn

def iId : orderLineSchema.Column := ⟨4, by decide⟩
def supplyWId : orderLineSchema.Column := ⟨5, by decide⟩
def deliveryD : orderLineSchema.Column := ⟨6, by decide⟩
def quantity : orderLineSchema.Column := ⟨7, by decide⟩
def amount : orderLineSchema.Column := ⟨8, by decide⟩

end OrderLineColumn

namespace ItemColumn

def name : itemSchema.Column := ⟨3, by decide⟩
def price : itemSchema.Column := ⟨4, by decide⟩
def data : itemSchema.Column := ⟨5, by decide⟩

end ItemColumn

namespace StockColumn

def quantity : stockSchema.Column := ⟨2, by decide⟩
def allDist : stockSchema.Column := ⟨3, by decide⟩

end StockColumn

/-! ## Scalars from arguments -/

def makeInt8Scalar (value : ℤ) : Scalar := .int8 (BitVec.ofInt 8 value)
def makeInt32Scalar (value : ℤ) : Scalar := .int32 (BitVec.ofInt 32 value)
def makeInt64Scalar (value : ℤ) : Scalar := .int64 (BitVec.ofInt 64 value)

/-! The casts of results are not checked; the columns have these types. -/

def Scalar.toInt8 : Scalar → BitVec 8
  | .int8 value => value
  | _ => 0

def Scalar.toInt16 : Scalar → BitVec 16
  | .int16 value => value
  | _ => 0

def Scalar.toInt32 : Scalar → BitVec 32
  | .int32 value => value
  | _ => 0

def Scalar.buffer : Scalar → String
  | .fixedText _ buffer => buffer
  | _ => ""

/-- Select columns of a row.  The result is `none` if the selection is empty, which is an error, and
otherwise it is accessed up to its `n`-th value without a check. -/
def Schema.selectRow (S : Schema) (n : ℕ) (pkey : List Scalar) (columns : List S.Column) :
    StorageProgram (Option (List Scalar)) := do
  let res ← S.select pkey columns
  if res = [] then return none
  else .ofOption (if n ≤ res.length then some (some res) else none)

/-! ## New order -/

structure OrderLine where
  id : ℤ
  supplyWId : ℤ
  itemId : ℤ
  quantity : ℤ
  deriving DecidableEq, Repr

structure OrderLineScalar where
  aId : BitVec 8
  aSupplyWId : BitVec 32
  aItemId : BitVec 32
  aQuantity : BitVec 8
  iPrice : BitVec 32 := 0
  sQuantity : BitVec 16 := 0
  amount : BitVec 32 := 0
  distInfo : Scalar := emptyFixedTextScalar
  deriving DecidableEq, Repr

def OrderLine.scalars (l : OrderLine) : OrderLineScalar where
  aId := BitVec.ofInt 8 l.id
  aSupplyWId := BitVec.ofInt 32 l.supplyWId
  aItemId := BitVec.ofInt 32 l.itemId
  aQuantity := BitVec.ofInt 8 l.quantity

structure NewOrderTxn where
  wId : ℤ
  dId : ℤ
  cId : ℤ
  oId : ℤ
  datetime : ℤ
  iWId : ℤ
  ol : List OrderLine
  deriving DecidableEq, Repr

namespace NewOrderTxn

/-- What the reads and the computation leave in the members of the object. -/
structure State where
  errors : List String := []
  dNextOId : BitVec 32 := 0
  newDNextOId : BitVec 32 := 0
  allLocal : BitVec 8 := 0
  lines : List OrderLineScalar
  deriving DecidableEq, Repr

variable (a : NewOrderTxn)

/-- The actual number of order lines. -/
def olCnt : ℕ := (a.ol.filter fun l => l.id ≠ 0 ∧ l.itemId ≠ 0).length

/-- The lines that are processed are the first ones, as many as there are actual lines. -/
def lines : List OrderLineScalar := (a.ol.take a.olCnt).map OrderLine.scalars

def readLine (l : OrderLineScalar) : StorageProgram (List String × OrderLineScalar) := do
  let item ← itemSchema.selectRow 1 [makeInt32Scalar a.iWId, .int32 l.aItemId]
    [ItemColumn.price, ItemColumn.name, ItemColumn.data]
  let stock ← stockSchema.selectRow 2 [.int32 l.aSupplyWId, .int32 l.aItemId]
    [StockColumn.quantity, StockColumn.allDist]
  let errors := (if item.isNone then ["The item does not exist"] else []) ++
    (if stock.isNone then ["Stock of the item does not exist"] else [])
  let iPrice := (item.bind (·[0]?)).elim l.iPrice Scalar.toInt32
  let sQuantity := (stock.bind (·[0]?)).elim l.sQuantity Scalar.toInt16
  let distInfo := (stock.bind (·[1]?)).elim l.distInfo fun v =>
    .fixedText 24 (String.ofList (v.data.take 24))
  return (errors, { l with iPrice, sQuantity, distInfo })

def read : StorageProgram State := do
  let warehouse ← warehouseSchema.selectRow 1 [makeInt32Scalar a.wId] [WarehouseColumn.tax]
  let customer ← customerSchema.selectRow 3
    [makeInt32Scalar a.wId, makeInt8Scalar a.dId, makeInt32Scalar a.cId]
    [CustomerColumn.discount, CustomerColumn.fullName, CustomerColumn.credit]
  let district ← districtSchema.selectRow 2 [makeInt32Scalar a.wId, makeInt8Scalar a.dId]
    [DistrictColumn.tax, DistrictColumn.nextOId]
  let lines ← a.lines.mapM a.readLine
  return {
    errors := (if warehouse.isNone then ["Warehouse does not exist"] else []) ++
      (if customer.isNone then ["The customer does not exist"] else []) ++
      (if district.isNone then ["The district does not exist"] else []) ++
      lines.flatMap Prod.fst
    dNextOId := (district.bind (·[1]?)).elim 0 Scalar.toInt32
    lines := lines.map Prod.snd }

/-- The stock is filled up when it gets low. -/
def computeLine (l : OrderLineScalar) : OrderLineScalar :=
  { l with
    amount := l.aQuantity.signExtend 32 * l.iPrice
    sQuantity :=
      if l.aQuantity.toInt < l.sQuantity.toInt then l.sQuantity - l.aQuantity.signExtend 16
      else l.sQuantity - (l.aQuantity.signExtend 16 - 91) }

def compute (s : State) : State :=
  { s with
    newDNextOId := s.dNextOId + 1
    allLocal := if s.lines.all fun l => l.aSupplyWId = BitVec.ofInt 32 a.wId then 1 else 0
    lines := s.lines.map computeLine }

def writeLine (l : OrderLineScalar) : StorageProgram (List String) := do
  let stock ← stockSchema.update [.int32 l.aSupplyWId, .int32 l.aItemId] [StockColumn.quantity]
    [.int16 l.sQuantity]
  let line ← orderLineSchema.insert [makeInt32Scalar a.wId, makeInt8Scalar a.dId,
    makeInt32Scalar a.oId, .int8 l.aId, .int32 l.aItemId, .int32 l.aSupplyWId, makeInt64Scalar 0,
    .int8 l.aQuantity, .int32 l.amount, l.distInfo]
  return (if stock then [] else ["Cannot update Stock"]) ++
    (if line then [] else ["Cannot insert to OrderLine"])

def write (s : State) : StorageProgram (List String) := do
  let district ← districtSchema.update [makeInt32Scalar a.wId, makeInt8Scalar a.dId]
    [DistrictColumn.nextOId] [.int32 s.newDNextOId]
  let order ← orderSchema.insert [makeInt32Scalar a.wId, makeInt8Scalar a.dId, makeInt32Scalar a.oId,
    makeInt32Scalar a.cId, makeInt64Scalar a.datetime, makeInt8Scalar 0, makeInt8Scalar a.olCnt,
    .int8 s.allLocal]
  let newOrder ← newOrderSchema.insert [makeInt32Scalar a.wId, makeInt8Scalar a.dId,
    makeInt32Scalar a.oId, makeInt8Scalar 0]
  let lines ← s.lines.mapM a.writeLine
  return (if district then [] else ["Cannot update District"]) ++
    (if order then [] else ["Cannot insert into Order"]) ++
    (if newOrder then [] else ["Cannot insert into NewOrder"]) ++ lines.flatten

/-- The result of `Execute`: the errors, and none if the transaction commits. -/
def execute : StorageProgram (List String) := do
  let s ← a.read
  if s.errors ≠ [] then return s.errors else a.write (a.compute s)

/-- The workload runs the reads and the writes to get the keys. -/
def dry : StorageProgram (List String) := do
  a.write (← a.read)

end NewOrderTxn

/-! ## Insert only -/

structure InsertRow where
  wId : ℤ
  dId : ℤ
  cWId : ℤ
  cDId : ℤ
  cId : ℤ
  amount : ℤ
  datetime : ℤ
  hId : ℤ
  deriving DecidableEq, Repr

/-- The rows that the lists of arguments, which have the same length, are made of. -/
structure InsertTxn where
  rows : List InsertRow
  deriving DecidableEq, Repr

namespace InsertTxn

structure RowState where
  errors : List String := []
  wName : String := ""
  dName : String := ""
  newHData : Scalar := emptyFixedTextScalar
  deriving DecidableEq, Repr

def readRow (row : InsertRow × ℕ) : StorageProgram RowState := do
  let warehouse ← warehouseSchema.selectRow 3 [makeInt32Scalar row.1.wId]
    [WarehouseColumn.name, WarehouseColumn.address, WarehouseColumn.ytd]
  let district ← districtSchema.selectRow 3
    [makeInt32Scalar row.1.wId, makeInt8Scalar row.1.dId]
    [DistrictColumn.name, DistrictColumn.address, DistrictColumn.ytd]
  let customer ← customerSchema.selectRow 11
    [makeInt32Scalar row.1.cWId, makeInt8Scalar row.1.cDId, makeInt32Scalar row.1.cId]
    [CustomerColumn.fullName, CustomerColumn.address, CustomerColumn.phone, CustomerColumn.since,
      CustomerColumn.credit, CustomerColumn.creditLim, CustomerColumn.discount, CustomerColumn.balance,
      CustomerColumn.ytdPayment, CustomerColumn.paymentCnt, CustomerColumn.data]
  return {
    errors :=
      (if warehouse.isNone then ["Warehouse does not exist for index " ++ toString row.2] else []) ++
      (if district.isNone then ["District does not exist for index " ++ toString row.2] else []) ++
      (if customer.isNone then ["Customer does not exist for index " ++ toString row.2] else [])
    wName := (warehouse.bind (·[0]?)).elim "" Scalar.buffer
    dName := (district.bind (·[0]?)).elim "" Scalar.buffer }

/-- The buffer of the text is assigned to; its type keeps the width 0. -/
def computeRow (s : RowState) : RowState :=
  { s with newHData := .fixedText 0 (s.wName ++ "    " ++ s.dName) }

def writeRow (e : InsertRow × RowState) : StorageProgram Bool :=
  historySchema.insert [makeInt32Scalar e.1.wId, makeInt8Scalar e.1.dId, makeInt32Scalar e.1.cId,
    makeInt32Scalar e.1.hId, makeInt8Scalar e.1.cDId, makeInt32Scalar e.1.cWId,
    makeInt64Scalar e.1.datetime, makeInt32Scalar e.1.amount, e.2.newHData]

variable (a : InsertTxn)

def read : StorageProgram (List RowState) := a.rows.zipIdx.mapM readRow

/-- The results of the insertions are not looked at. -/
def write (s : List RowState) : StorageProgram (List String) := do
  let _ ← (a.rows.zip s).mapM writeRow
  return []

def execute : StorageProgram (List String) := do
  let s ← a.read
  let errors := s.flatMap RowState.errors
  if errors ≠ [] then return errors else a.write (s.map computeRow)

def dry : StorageProgram (List String) := do
  a.write (← a.read)

end InsertTxn

/-! ## Order status -/

structure OrderStatusRow where
  wId : ℤ
  dId : ℤ
  cId : ℤ
  oId : ℤ
  deriving DecidableEq, Repr

structure OrderStatusTxn where
  rows : List OrderStatusRow
  deriving DecidableEq, Repr

namespace OrderStatusTxn

/-- The order line `j` of the order, with the error message if it is missing. -/
def readLine (row : OrderStatusRow × ℕ) (j : ℕ) : StorageProgram (List String) := do
  let res ← orderLineSchema.select [makeInt32Scalar row.1.wId, makeInt8Scalar row.1.dId,
      makeInt32Scalar row.1.oId, makeInt8Scalar j]
    [OrderLineColumn.iId, OrderLineColumn.supplyWId, OrderLineColumn.quantity, OrderLineColumn.amount,
      OrderLineColumn.deliveryD]
  return if res.length < 5 then
    ["Order line does not exist for index " ++ toString row.2 ++ " line " ++ toString j] else []

/-- The number of lines that are read for the order.  The execution does not scale it. -/
def lineCount (res : List Scalar) : ℤ :=
  if 3 ≤ res.length then ((res[2]?).elim 0 Scalar.toInt8).toInt else 15

def selectOrder (row : OrderStatusRow) : StorageProgram (List Scalar) :=
  orderSchema.select [makeInt32Scalar row.wId, makeInt8Scalar row.dId, makeInt32Scalar row.oId]
    [OrderColumn.entryD, OrderColumn.carrierId, OrderColumn.olCnt]

def readRow (row : OrderStatusRow × ℕ) : StorageProgram (List String) := do
  let res ← selectOrder row.1
  let errors := if 3 ≤ res.length then [] else ["Order does not exist for index " ++ toString row.2]
  let lines ← ((List.range (lineCount res).toNat).map (· + 1)).mapM (readLine row)
  return errors ++ lines.flatten

variable (a : OrderStatusTxn)

/-- There is nothing to compute and to write. -/
def execute : StorageProgram (List String) := do
  return (← a.rows.zipIdx.mapM readRow).flatten

def dry : StorageProgram (List String) := a.execute

end OrderStatusTxn

/-! ## Delete only -/

structure DeleteRow where
  wId : ℤ
  dId : ℤ
  cWId : ℤ
  cDId : ℤ
  cId : ℤ
  hId : ℤ
  deriving DecidableEq, Repr

structure DeleteTxn where
  rows : List DeleteRow
  deriving DecidableEq, Repr

namespace DeleteTxn

def historyPkey (row : DeleteRow) : List Scalar :=
  [makeInt32Scalar row.wId, makeInt8Scalar row.dId, makeInt32Scalar row.cId, makeInt32Scalar row.hId]

def readRow (row : DeleteRow × ℕ) : StorageProgram (List String) := do
  let warehouse ← warehouseSchema.select [makeInt32Scalar row.1.wId] [WarehouseColumn.name]
  let district ← districtSchema.select [makeInt32Scalar row.1.wId, makeInt8Scalar row.1.dId]
    [DistrictColumn.name]
  let customer ← customerSchema.select
    [makeInt32Scalar row.1.cWId, makeInt8Scalar row.1.cDId, makeInt32Scalar row.1.cId]
    [CustomerColumn.fullName]
  let history ← historySchema.select (historyPkey row.1) [HistoryColumn.data]
  return (if warehouse = [] then ["Warehouse does not exist for index " ++ toString row.2] else []) ++
    (if district = [] then ["District does not exist for index " ++ toString row.2] else []) ++
    (if customer = [] then ["Customer does not exist for index " ++ toString row.2] else []) ++
    (if history = [] then ["History does not exist for index " ++ toString row.2] else [])

/-- The loop returns at the first row that cannot be deleted. -/
def writeRows : List (DeleteRow × ℕ) → StorageProgram (List String)
  | [] => return []
  | row :: rows => do
      if ← historySchema.delete (historyPkey row.1) then writeRows rows
      else return ["Failed to delete history row for index " ++ toString row.2]

variable (a : DeleteTxn)

def read : StorageProgram (List String) := do
  return (← a.rows.zipIdx.mapM readRow).flatten

def write : StorageProgram (List String) := writeRows a.rows.zipIdx

def execute : StorageProgram (List String) := do
  let errors ← a.read
  if errors ≠ [] then return errors else a.write

def dry : StorageProgram (List String) := do
  let _ ← a.read
  a.write

end DeleteTxn

/-! ## Stock level -/

def kLinePerOrder : ℕ := 10

structure StockLevelRow where
  wId : ℤ
  dId : ℤ
  oId : ℤ
  deriving DecidableEq, Repr

/-- There are 200 items. -/
structure StockLevelTxn where
  rows : List StockLevelRow
  iIds : List ℤ
  deriving DecidableEq, Repr

namespace StockLevelTxn

def orderLinePkey (row : StockLevelRow) (oId : ℤ) (number : ℕ) : List Scalar :=
  [makeInt32Scalar row.wId, makeInt8Scalar row.dId, makeInt32Scalar oId, makeInt8Scalar number]

/-- The last 20 orders before `oId`, which is the value of a scalar. -/
def orders (row : StockLevelRow) : List ℤ :=
  (List.range 20).map fun i => (BitVec.ofInt 32 row.oId).toInt - 20 + i

def readRow (iIds : List ℤ) (row : StockLevelRow) : StorageProgram Unit := do
  let _ ← districtSchema.select [makeInt32Scalar row.wId, makeInt8Scalar row.dId]
    [DistrictColumn.nextOId]
  let _ ← ((orders row).product (List.range kLinePerOrder)).mapM fun e =>
    orderLineSchema.select (orderLinePkey row e.1 e.2) [OrderLineColumn.iId]
  let _ ← iIds.mapM fun i =>
    stockSchema.select [makeInt32Scalar row.wId, makeInt32Scalar i] [StockColumn.quantity]

variable (a : StockLevelTxn)

/-- Missing rows are not errors. -/
def execute : StorageProgram (List String) := do
  let _ ← a.rows.mapM (readRow a.iIds)
  return []

def dry : StorageProgram (List String) := a.execute

end StockLevelTxn

/-! ## Look-ups by name -/

structure GetCustomerByNameTxn where
  rows : List (ℤ × ℤ × String)
  deriving DecidableEq, Repr

namespace GetCustomerByNameTxn

def customerId : customerByNameSchema.Column := ⟨3, by decide⟩

/-- The constructor makes the scalars of all names. -/
def pkey (row : ℤ × ℤ × String) : Option (List Scalar) :=
  (makeFixedTextScalar (.fixedText 34) row.2.2).map fun name =>
    [makeInt32Scalar row.1, makeInt8Scalar row.2.1, name]

def readRow (pkey : List Scalar) : StorageProgram (List String) := do
  let res ← customerByNameSchema.select pkey [customerId]
  return if res = [] then ["Customer does not exist for the given name"] else []

variable (a : GetCustomerByNameTxn)

def execute : StorageProgram (List String) := do
  let pkeys ← .ofOption (a.rows.mapM pkey)
  return (← pkeys.mapM readRow).flatten

def dry : StorageProgram (List String) := a.execute

end GetCustomerByNameTxn

structure GetItemByNameTxn where
  rows : List (ℤ × String)
  deriving DecidableEq, Repr

namespace GetItemByNameTxn

def itemId : itemByNameSchema.Column := ⟨2, by decide⟩

def pkey (row : ℤ × String) : Option (List Scalar) :=
  (makeFixedTextScalar (.fixedText 24) row.2).map fun name => [makeInt32Scalar row.1, name]

def readRow (pkey : List Scalar) : StorageProgram (List String) := do
  let res ← itemByNameSchema.select pkey [itemId]
  return if res = [] then ["Item does not exist for the given name"] else []

variable (a : GetItemByNameTxn)

def execute : StorageProgram (List String) := do
  let pkeys ← .ofOption (a.rows.mapM pkey)
  return (← pkeys.mapM readRow).flatten

def dry : StorageProgram (List String) := a.execute

end GetItemByNameTxn

end Slog.Benchx
