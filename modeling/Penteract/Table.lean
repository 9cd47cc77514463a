/-
# Tables

The rows of the benchmark databases are kept as records.  The storage key of a row starts with the
first column of its primary key, by which the rows are partitioned, and the table; the other columns
are the value of one record if the table groups its columns, and of one record each otherwise.
-/
import Penteract.Lib.Bytes
import Penteract.StorageAdapter

namespace Slog.Benchx

open Bytes
open KeyValue (Program)

/-! ## Scalars -/

inductive DataTypeName where
  | int8
  | int16
  | int32
  | int64
  | fixedText
  deriving DecidableEq, Repr

inductive DataType where
  | int8
  | int16
  | int32
  | int64
  | fixedText (width : ℕ)
  deriving DecidableEq, Repr

namespace DataType

def name : DataType → DataTypeName
  | int8 => .int8
  | int16 => .int16
  | int32 => .int32
  | int64 => .int64
  | fixedText _ => .fixedText

def size : DataType → ℕ
  | int8 => 1
  | int16 => 2
  | int32 => 4
  | int64 => 8
  | fixedText width => width

end DataType

/-- The width of a text belongs to the type of the scalar; the buffer can be assigned to later. -/
inductive Scalar where
  | int8 (value : BitVec 8)
  | int16 (value : BitVec 16)
  | int32 (value : BitVec 32)
  | int64 (value : BitVec 64)
  | fixedText (width : ℕ) (buffer : String)
  deriving DecidableEq, Repr

namespace Scalar

def type : Scalar → DataType
  | int8 _ => .int8
  | int16 _ => .int16
  | int32 _ => .int32
  | int64 _ => .int64
  | fixedText width _ => .fixedText width

/-- The bytes that can be read at `data()`; a string ends with a zero. -/
def data : Scalar → List Char
  | int8 value => littleEndian 1 value.toNat
  | int16 value => littleEndian 2 value.toNat
  | int32 value => littleEndian 4 value.toNat
  | int64 value => littleEndian 8 value.toNat
  | fixedText _ buffer => buffer.toList ++ ['\x00']

/-- As many bytes of the data as the type says. -/
def bytes (v : Scalar) : Option (List Char) := readBytes v.type.size v.data

end Scalar

/-- `MakeFixedTextScalar` with a type and a text. -/
def makeFixedTextScalar (type : DataType) (data : String) : Option Scalar :=
  match type with
  | .fixedText width => if data.length = width then some (.fixedText width data) else none
  | _ => none

/-- `MakeFixedTextScalar` without arguments. -/
def emptyFixedTextScalar : Scalar := .fixedText 0 ""

/-- The scalar made of as many bytes as its type has. -/
def Scalar.ofBytes (bytes : List Char) : DataType → Scalar
  | .int8 => .int8 (BitVec.ofNat 8 (ofLittleEndian bytes))
  | .int16 => .int16 (BitVec.ofNat 16 (ofLittleEndian bytes))
  | .int32 => .int32 (BitVec.ofNat 32 (ofLittleEndian bytes))
  | .int64 => .int64 (BitVec.ofNat 64 (ofLittleEndian bytes))
  | .fixedText width => .fixedText width (String.ofList bytes)

def makeScalar (type : DataType) (data : List Char) : Option Scalar :=
  (readBytes type.size data).map fun bytes => .ofBytes bytes type

/-! ## Schemas -/

inductive TableId where
  | warehouse
  | district
  | customer
  | customerByName
  | history
  | newOrder
  | order
  | orderLine
  | item
  | itemByName
  | stock
  deriving DecidableEq, Repr

/-- The value of the enumeration, of type `int8_t`. -/
def TableId.toNat : TableId → ℕ
  | warehouse => 0
  | district => 1
  | customer => 2
  | customerByName => 3
  | history => 4
  | newOrder => 5
  | order => 6
  | orderLine => 7
  | item => 8
  | itemByName => 9
  | stock => 10

/-- The number of a column is of type `int8_t`, and the rows are partitioned by an `int32_t`. -/
structure Schema where
  id : TableId
  pkeySize : ℕ
  grouped : Bool
  columnTypes : List DataType
  pkeySize_pos : 0 < pkeySize := by decide
  pkeySize_lt : pkeySize < columnTypes.length := by decide
  length_le : columnTypes.length ≤ 128 := by decide
  head : columnTypes.head? = some .int32 := by rfl
  size_pos : ∀ type ∈ columnTypes, 0 < type.size := by decide

namespace Schema

variable (S : Schema)

def numColumns : ℕ := S.columnTypes.length

abbrev Column := Fin S.columnTypes.length

def type (c : S.Column) : DataType := S.columnTypes.get c

def isPkey (c : S.Column) : Bool := c.val < S.pkeySize

def nonPkeyColumns : List S.Column := (List.finRange S.columnTypes.length).drop S.pkeySize

/-- The place of a column in the value of a row with grouped columns. -/
def columnOffset (c : S.Column) : ℕ :=
  if S.isPkey c then 0 else (((S.columnTypes.take c.val).drop S.pkeySize).map DataType.size).sum

/-- Only the name of the type is compared: texts of all widths are accepted. -/
def validateType (value : Scalar) (type : DataType) : Bool := value.type.name = type.name

/-! ## Storage keys -/

/-- The part of the storage keys of a row that all its keys have in common. -/
def keyBytes (values : List Scalar) : Option (List Char) :=
  if S.pkeySize ≤ values.length ∧
      ((values.take S.pkeySize).zip S.columnTypes).all fun e => validateType e.1 e.2 then
    match (values.take S.pkeySize).mapM Scalar.bytes with
    | some (first :: rest) => some (first ++ Char.ofNat S.id.toNat :: rest.flatten)
    | _ => none
  else none

def makeStorageKey (values : List Scalar) : Option Key := (S.keyBytes values).map String.ofList

/-- The columns that are meant if none are given. -/
def orNonPkey (columns : List S.Column) : List S.Column :=
  if columns = [] then S.nonPkeyColumns else columns

def makeStorageKeys (values : List Scalar) (columns : List S.Column) : Option (List Key) :=
  (S.keyBytes values).map fun bytes =>
    (S.orNonPkey columns).map fun c => String.ofList (bytes ++ [Char.ofNat c.val])

/-! ## Operations -/

def selectGrouped (pkey : List Scalar) (columns : List S.Column) : StorageProgram (List Scalar) := do
  let key ← .ofOption (S.makeStorageKey pkey)
  match ← Program.read key with
  | none => return []
  | some value =>
    let data := value.toList ++ ['\x00']
    let column (c : S.Column) : Option Scalar :=
      if S.isPkey c then pkey[c.val]? else makeScalar (S.type c) (data.drop (S.columnOffset c))
    if columns = [] then return pkey ++ (← .ofOption (S.nonPkeyColumns.mapM column))
    else .ofOption (columns.mapM column)

/-- A column of a row whose columns are not grouped; an empty value counts as missing. -/
def selectColumn (pkey : List Scalar) (e : Key × S.Column) : StorageProgram (Option Scalar) := do
  if S.isPkey e.2 then return some (← .ofOption pkey[e.2.val]?)
  else
    match ← Program.read e.1 with
    | none => return none
    | some value =>
      if value = "" then return none
      else return some (← .ofOption (makeScalar (S.type e.2) (value.toList ++ ['\x00'])))

def selectUngrouped (pkey : List Scalar) (columns : List S.Column) :
    StorageProgram (List Scalar) := do
  let keys ← .ofOption (S.makeStorageKeys pkey columns)
  let result ← (keys.zip (S.orNonPkey columns)).mapM (S.selectColumn pkey)
  let valueFound := (result.zip (S.orNonPkey columns)).any fun e => e.1.isSome && !S.isPkey e.2
  if valueFound then return (if columns = [] then pkey else []) ++ result.reduceOption
  else return []

def select (pkey : List Scalar) (columns : List S.Column) : StorageProgram (List Scalar) :=
  if S.grouped then S.selectGrouped pkey columns else S.selectUngrouped pkey columns

/-- The function given to the adapter for a row with grouped columns. -/
def replaceColumns (columns : List S.Column) (values : List Scalar) (stored : List Char) :
    Option (List Char) :=
  (columns.zip values).foldlM (fun stored e =>
    e.2.bytes.bind fun bytes => replaceAt (S.columnOffset e.1) bytes stored) stored

def acceptsUpdate (columns : List S.Column) (values : List Scalar) : Bool :=
  columns.length = values.length &&
    (columns.zip values).all fun e => validateType e.2 (S.type e.1)

def update (pkey : List Scalar) (columns : List S.Column) (values : List Scalar) :
    StorageProgram Bool :=
  if S.acceptsUpdate columns values then
    if S.grouped then do
      let key ← .ofOption (S.makeStorageKey pkey)
      Program.update key fun stored =>
        (S.replaceColumns columns values stored.toList).map String.ofList
    else do
      let keys ← .ofOption (S.makeStorageKeys pkey columns)
      .perform ((keys.zip values).map fun e => .update e.1 fun _ => e.2.bytes.map String.ofList)
  else .fault

def acceptsInsert (values : List Scalar) : Bool :=
  values.length = S.numColumns &&
    ((values.zip S.columnTypes).drop S.pkeySize).all fun e => validateType e.1 e.2

def insert (values : List Scalar) : StorageProgram Bool :=
  if S.acceptsInsert values then do
    let bytes ← .ofOption ((values.drop S.pkeySize).mapM Scalar.bytes)
    if S.grouped then
      let key ← .ofOption (S.makeStorageKey values)
      Program.insert key (String.ofList bytes.flatten)
    else
      let keys ← .ofOption (S.makeStorageKeys values [])
      .perform ((keys.zip bytes).map fun e => .insert e.1 (String.ofList e.2))
  else .fault

def delete (pkey : List Scalar) : StorageProgram Bool :=
  if S.grouped then do
    let key ← .ofOption (S.makeStorageKey pkey)
    Program.delete key
  else do
    let keys ← .ofOption (S.makeStorageKeys pkey [])
    .perform (keys.map .delete)

end Schema

/-! ## The tables -/

def warehouseSchema : Schema where
  id := .warehouse
  pkeySize := 1
  grouped := false
  columnTypes := [.int32, .fixedText 10, .fixedText 71, .int32, .int64]

def districtSchema : Schema where
  id := .district
  pkeySize := 2
  grouped := false
  columnTypes := [.int32, .int8, .fixedText 10, .fixedText 71, .int32, .int64, .int32]

def customerSchema : Schema where
  id := .customer
  pkeySize := 3
  grouped := false
  columnTypes := [.int32, .int8, .int32, .fixedText 34, .fixedText 71, .fixedText 16, .int64,
    .fixedText 2, .int64, .int32, .int64, .int64, .int16, .int16, .fixedText 250]

def customerByNameSchema : Schema where
  id := .customerByName
  pkeySize := 3
  grouped := false
  columnTypes := [.int32, .int8, .fixedText 34, .int32]

def historySchema : Schema where
  id := .history
  pkeySize := 4
  grouped := true
  columnTypes := [.int32, .int8, .int32, .int32, .int8, .int32, .int64, .int32, .fixedText 24]

def newOrderSchema : Schema where
  id := .newOrder
  pkeySize := 3
  grouped := true
  columnTypes := [.int32, .int8, .int32, .int8]

def orderSchema : Schema where
  id := .order
  pkeySize := 3
  grouped := true
  columnTypes := [.int32, .int8, .int32, .int32, .int64, .int8, .int8, .int8]

def orderLineSchema : Schema where
  id := .orderLine
  pkeySize := 4
  grouped := true
  columnTypes := [.int32, .int8, .int32, .int8, .int32, .int32, .int64, .int8, .int32, .fixedText 24]

def itemSchema : Schema where
  id := .item
  pkeySize := 2
  grouped := true
  columnTypes := [.int32, .int32, .int32, .fixedText 24, .int32, .fixedText 50]

def itemByNameSchema : Schema where
  id := .itemByName
  pkeySize := 2
  grouped := false
  columnTypes := [.int32, .fixedText 24, .int32]

def stockSchema : Schema where
  id := .stock
  pkeySize := 2
  grouped := true
  columnTypes := [.int32, .int32, .int16, .fixedText 240, .int32, .int16, .int16, .fixedText 50]

end Slog.Benchx
