/-
# Executing the transactions of the benchmark

The code of a transaction names one of the procedures and gives its arguments as texts.  The execution
decodes them, runs the procedure on the keys that the transaction carries, and applies the writes if
it commits.  The partitions of a transaction have its keys in different orders.
-/
import Penteract.DryRun
import Penteract.ReplicationOrder

namespace Slog.Benchx

open KeyValueExecution (find)

/-! ## Decoding -/

/-- The text before the error of the procedure. -/
def Procedure.name : Procedure → String
  | newOrder _ => "NewOrder"
  | insertOnly _ => "InsertOnly"
  | orderStatus _ => "OrderStatus"
  | deleteOnly _ => "DeleteOnly"
  | stockLevel _ => "StockLevel"
  | getCustomerByName _ => "GetCustomerByName"
  | getItemByName _ => "GetItemByName"

namespace BenchXExecution

/-- Decoding ends with a value, with a reason to abort, or with an exception. -/
abbrev Decode := ExceptT String Option

/-- `std::getline` up to commas; there is no token after a comma at the end. -/
def getlines (s : String) : List (List Char) :=
  let tokens := s.toList.splitOn ','
  if tokens.getLast? = some [] then tokens.dropLast else tokens

def stoi (token : List Char) : Option ℤ :=
  (stol token).filter fun value => -2 ^ 31 ≤ value ∧ value < 2 ^ 31

def splitAndStoi (s : String) : Option (List ℤ) := (getlines s).mapM stoi

def splitAndStoll (s : String) : Option (List ℤ) := (getlines s).mapM stol

def checkArgs (name : String) (args : List String) (least : ℕ) : Decode Unit :=
  if args.length < least ∨ least + 1 < args.length then
    throw (name ++ " Txn - Invalid number of arguments")
  else pure ()

def checkSizes (name : String) (n : ℕ) (sizes : List ℕ) : Decode Unit :=
  if ∀ size ∈ sizes, size = n then pure () else throw (name ++ " Txn - Vector sizes do not match")

def decodeLine : List String → Decode OrderLine
  | [id, supplyWId, itemId, quantity] => do
    return { id := ← stoi id.toList, supplyWId := ← stoi supplyWId.toList,
             itemId := ← stoi itemId.toList, quantity := ← stoi quantity.toList }
  | _ => throw "NewOrder Txn - Invalid number of arguments for order line"

/-- The item ids of a stock level transaction. -/
def decodeItems (args : List String) : Decode (List ℤ) := do
  if args.length ≠ 200 then throw "StockLevel Txn - Invalid number of items"
  let iIds ← args.mapM fun arg => stoi arg.toList
  return iIds

/-- `args` are those of the first procedure, with its name, and `more` are the other ones. -/
def decodeArgs (args : List String) (more : List (List String)) : Decode Procedure := do
  let arg (i : ℕ) : String := args.getD i ""
  let row (values : List ℤ) (i : ℕ) : ℤ := values.getD i 0
  match arg 0 with
  | "new_order" =>
    checkArgs "NewOrder" args 7
    let wId ← stoi (arg 1).toList
    let dId ← stoi (arg 2).toList
    let cId ← stoi (arg 3).toList
    let oId ← stoi (arg 4).toList
    let datetime ← stol (arg 5).toList
    let iWId ← stoi (arg 6).toList
    let ol ← more.mapM decodeLine
    return .newOrder { wId, dId, cId, oId, datetime, iWId, ol }
  | "insert_only" =>
    checkArgs "InsertOnly" args 9
    let wIds ← splitAndStoi (arg 1)
    let dIds ← splitAndStoi (arg 2)
    let cWIds ← splitAndStoi (arg 3)
    let cDIds ← splitAndStoi (arg 4)
    let cIds ← splitAndStoi (arg 5)
    let amounts ← splitAndStoll (arg 6)
    let datetimes ← splitAndStoll (arg 7)
    let hIds ← splitAndStoi (arg 8)
    checkSizes "InsertOnly" wIds.length
      ([dIds, cWIds, cDIds, cIds, amounts, datetimes, hIds].map List.length)
    return .insertOnly ⟨(List.range wIds.length).map fun i =>
      { wId := row wIds i, dId := row dIds i, cWId := row cWIds i, cDId := row cDIds i,
        cId := row cIds i, amount := row amounts i, datetime := row datetimes i, hId := row hIds i }⟩
  | "order_status" =>
    checkArgs "OrderStatus" args 5
    let wIds ← splitAndStoi (arg 1)
    let dIds ← splitAndStoi (arg 2)
    let cIds ← splitAndStoi (arg 3)
    let oIds ← splitAndStoi (arg 4)
    checkSizes "OrderStatus" wIds.length ([dIds, cIds, oIds].map List.length)
    return .orderStatus ⟨(List.range wIds.length).map fun i =>
      { wId := row wIds i, dId := row dIds i, cId := row cIds i, oId := row oIds i }⟩
  | "get_customer_by_name" =>
    checkArgs "GetCustomerByName" args 4
    let wIds ← splitAndStoi (arg 1)
    let dIds ← splitAndStoi (arg 2)
    let names := (getlines (arg 3)).map String.ofList
    checkSizes "GetCustomerByName" wIds.length [dIds.length, names.length]
    return .getCustomerByName ⟨wIds.zip (dIds.zip names)⟩
  | "get_item_by_name" =>
    checkArgs "GetItemByName" args 3
    let wIds ← splitAndStoi (arg 1)
    let names := (getlines (arg 2)).map String.ofList
    checkSizes "GetItemByName" wIds.length [names.length]
    return .getItemByName ⟨wIds.zip names⟩
  | "delete_only" =>
    checkArgs "DeleteOnly" args 7
    let wIds ← splitAndStoi (arg 1)
    let dIds ← splitAndStoi (arg 2)
    let cWIds ← splitAndStoi (arg 3)
    let cDIds ← splitAndStoi (arg 4)
    let cIds ← splitAndStoi (arg 5)
    let hIds ← splitAndStoi (arg 6)
    checkSizes "DeleteOnly" wIds.length ([dIds, cWIds, cDIds, cIds, hIds].map List.length)
    return .deleteOnly ⟨(List.range wIds.length).map fun i =>
      { wId := row wIds i, dId := row dIds i, cWId := row cWIds i, cDId := row cDIds i,
        cId := row cIds i, hId := row hIds i }⟩
  | "stock_level" =>
    if more.length ≠ 1 then throw "StockLevel Txn - Invalid number of arguments"
    checkArgs "StockLevel" args 4
    let wIds ← splitAndStoi (arg 1)
    let dIds ← splitAndStoi (arg 2)
    let oIds ← splitAndStoi (arg 3)
    checkSizes "StockLevel" wIds.length ([dIds, oIds].map List.length)
    let iIds ← decodeItems more.flatten
    let rows := (List.range wIds.length).map fun i =>
      { wId := row wIds i, dId := row dIds i, oId := row oIds i }
    return .stockLevel { rows, iIds }
  | _ => throw "Unknown procedure name"

def decode : Slog.Program → Decode Procedure
  | .code ((name :: args) :: more) => decodeArgs (name :: args) more
  | _ => throw "Invalid code"

/-! ## Execution -/

/-- How the run of the procedure ends. -/
def finish (isLocal : Key → Bool) (p : Procedure) (storage : Storage) :
    List String × Transaction → Transaction × Storage
  | ([], t) =>
    let t := { t with status := .committed }
    (t, t.applyWrites isLocal storage)
  | (error :: _, t) =>
    ({ t with status := .aborted, abortReason := p.name ++ " Txn - " ++ error }, storage)

/-- `none` is a failed check or an exception. -/
def execute (isLocal : Key → Bool) (t : Transaction) (storage : Storage) :
    Option (Transaction × Storage) :=
  match (decode t.program).run with
  | none => none
  | some (.error reason) => some ({ t with status := .aborted, abortReason := reason }, storage)
  | some (.ok p) => (p.execute.run txnStorageAdapter t).map (finish isLocal p storage)

/-- Both partitions decide alike, have the same entries and deleted keys, and write the same. -/
structure SameOutcome (r r' : Transaction × Storage) : Prop where
  status : r.1.status = r'.1.status
  abortReason : r.1.status = .aborted → r.1.abortReason = r'.1.abortReason
  entry : ∀ key, find r.1.keys key = find r'.1.keys key
  deleted : ∀ key, key ∈ r.1.deletedKeys ↔ key ∈ r'.1.deletedKeys
  storage : r.2 = r'.2

section Order

variable {t t' : Transaction} {isLocal : Key → Bool} {storage : Storage}

theorem answer_congr {c : StorageCall} (hnodup : (t.keys.map KeyValueEntry.key).Nodup)
    (hnodup' : (t'.keys.map KeyValueEntry.key).Nodup) (h : t.view c.key = t'.view c.key) :
    (txnStorageAdapter.answer t c).map Prod.fst = (txnStorageAdapter.answer t' c).map Prod.fst := by
  have hfind : find t.keys c.key = find t'.keys c.key := congrArg Prod.fst h
  cases c <;> rw [KeyValue.Call.key] at hfind <;>
    simp only [txnStorageAdapter, hnodup, hnodup', not_true_eq_false, if_false, hfind]
  · rfl
  all_goals
    split
    · rfl
    · try split_ifs
      all_goals simp [Option.map_map, Function.comp_def]

theorem applyWrites_congr (hnodup : (t.keys.map KeyValueEntry.key).Nodup)
    (hnodup' : (t'.keys.map KeyValueEntry.key).Nodup) (h : t.view = t'.view) :
    t.applyWrites isLocal storage = t'.applyWrites isLocal storage := by
  funext key
  have hfind : find t.keys key = find t'.keys key := congrArg Prod.fst (congrFun h key)
  have hdeleted : key ∈ t.deletedKeys ↔ key ∈ t'.deletedKeys :=
    decide_eq_decide.mp (congrArg Prod.snd (congrFun h key))
  by_cases hmem : key ∈ t.deletedKeys
  · rw [applyWrites_deleted hmem, applyWrites_deleted (hdeleted.mp hmem)]
  have hmem' := mt hdeleted.mpr hmem
  rw [Transaction.applyWrites, Transaction.applyWrites, foldl_update_none, foldl_update_none,
    if_neg hmem, if_neg hmem']
  by_cases hkv : ∃ kv, find t.keys key = some kv ∧ isLocal key = true ∧ kv.type = .write
  · obtain ⟨kv, hkv, hlocal, hwrite⟩ := hkv
    obtain ⟨hkv', rfl⟩ := KeyValueExecution.find_eq_some (hfind ▸ hkv)
    rw [foldl_applyWrite_self hnodup (KeyValueExecution.find_eq_some hkv).1 hlocal hwrite,
      foldl_applyWrite_self hnodup' hkv' hlocal hwrite]
  · have hother (u : Transaction) (hnodup : (u.keys.map KeyValueEntry.key).Nodup)
        (hu : find t.keys key = find u.keys key) :
        u.keys.foldl (Transaction.applyWrite isLocal) storage key = storage key := by
      refine foldl_applyWrite_other fun kv hmem hkey => ?_
      by_contra hnot
      rw [not_or, Bool.not_eq_false] at hnot
      refine hkv ⟨kv, hu.trans (hkey ▸ find_of_mem hnodup hmem), hnot.1, ?_⟩
      cases hwrite : kv.type with
      | read => exact absurd hwrite hnot.2
      | write => rfl
    rw [hother t hnodup rfl, hother t' hnodup' hfind]

/-- The order of the keys of a transaction does not matter. -/
theorem execute_perm {keys : List KeyValueEntry} (hnodup : (t.keys.map KeyValueEntry.key).Nodup)
    (hperm : keys.Perm t.keys) (isLocal : Key → Bool) (storage : Storage) :
    Option.Rel SameOutcome (execute isLocal t storage) (execute isLocal { t with keys } storage) := by
  have hnodup' : (keys.map KeyValueEntry.key).Nodup := (hperm.map _).nodup_iff.mpr hnodup
  have hview : t.view = Transaction.view { t with keys } := by
    funext key
    refine Prod.ext ?_ rfl
    change find t.keys key = find keys key
    cases hfind : find t.keys key with
    | none =>
      refine (KeyValueExecution.find_eq_none.mpr ?_).symm
      rintro ⟨kv, hkv, hkey⟩
      exact KeyValueExecution.find_eq_none.mp hfind ⟨kv, hperm.mem_iff.mp hkv, hkey⟩
    | some kv =>
      obtain ⟨hkv, rfl⟩ := KeyValueExecution.find_eq_some hfind
      exact (find_of_mem (t := { t with keys }) hnodup' (hperm.mem_iff.mpr hkv)).symm
  rw [execute, execute]
  cases (decode t.program).run with
  | none => exact .none
  | some d =>
    cases d with
    | error reason =>
      exact .some ⟨rfl, fun _ => rfl, fun key => congrArg Prod.fst (congrFun hview key), fun _ => Iff.rfl, rfl⟩
    | ok p =>
      have hrun := txnStorageAdapter_separates.run_congr answer_congr hnodup hnodup' hview p.execute
      dsimp only
      generalize p.execute.run txnStorageAdapter t = r at hrun
      generalize p.execute.run txnStorageAdapter _ = r' at hrun
      cases hrun with
      | none => exact .none
      | @some r r' h =>
        obtain ⟨hans, hgood, hgood', hview⟩ := h
        obtain ⟨errors, u⟩ := r
        obtain ⟨errors', u'⟩ := r'
        obtain rfl : errors = errors' := hans
        have hentry (key : Key) : find u.keys key = find u'.keys key :=
          congrArg Prod.fst (congrFun hview key)
        have hdeleted (key : Key) : key ∈ u.deletedKeys ↔ key ∈ u'.deletedKeys :=
          decide_eq_decide.mp (congrArg Prod.snd (congrFun hview key))
        refine .some ?_
        cases errors with
        | nil => exact ⟨rfl, nofun, hentry, hdeleted, applyWrites_congr hgood hgood' hview⟩
        | cons error errors => exact ⟨rfl, fun _ => rfl, hentry, hdeleted, rfl⟩

/-- The look-up of the item at warehouse 1 with its key declared after another one. -/
def itemByName : Transaction where
  internal := { id := 1 }
  program := .code [["get_item_by_name", "1", "abcdefghijklmnopqrstuvwx"]]
  keys := [{ key := "other", type := .write, value := "a" },
    { key := String.ofList (['\x01', '\x00', '\x00', '\x00', '\x09'] ++ "abcdefghijklmnopqrstuvwx".toList ++
        ['\x02']), type := .read, value := "0000" }]

theorem execute_perm_itemByName :
    Option.Rel SameOutcome (execute (fun _ => true) itemByName fun _ => none)
      (execute (fun _ => true) { itemByName with keys := itemByName.keys.reverse } fun _ => none) :=
  execute_perm (by decide +kernel) (List.reverse_perm _) _ _

end Order

end BenchXExecution

end Slog.Benchx
