/-
# Table operations in a transaction

A stored procedure inserts, updates and deletes rows of tables.  On the copies of the records that the
transaction carries this should have the effect that it has on the storage, once the transaction is
written back.
-/
import Penteract.Procedures
import Penteract.TableRows

namespace Slog.Benchx

open Option
open KeyValue (Program)

inductive TableOp where
  | insert (S : Schema) (values : List Scalar)
  | update (S : Schema) (pkey : List Scalar) (columns : List S.Column) (values : List Scalar)
  | delete (S : Schema) (pkey : List Scalar)

namespace TableOp

def program : TableOp → StorageProgram Bool
  | insert S values => S.insert values
  | update S pkey columns values => S.update pkey columns values
  | delete S pkey => S.delete pkey

/-- The operations one after the other, whether or not they succeed. -/
def runAll : List TableOp → StorageProgram Unit
  | [] => return ()
  | op :: ops => do
      let _ ← op.program
      runAll ops

/-- The calls of an operation, if its checks do not fail. -/
def calls : TableOp → Option (List StorageCall)
  | insert S values =>
    if S.acceptsInsert values then
      ((values.drop S.pkeySize).mapM Scalar.bytes).bind fun bytes =>
        if S.grouped then
          (S.makeStorageKey values).map fun key => [.insert key (String.ofList bytes.flatten)]
        else
          (S.makeStorageKeys values []).map fun keys =>
            (keys.zip bytes).map fun e => .insert e.1 (String.ofList e.2)
    else none
  | update S pkey columns values =>
    if S.acceptsUpdate columns values then
      if S.grouped then
        (S.makeStorageKey pkey).map fun key =>
          [.update key fun stored =>
            (S.replaceColumns columns values stored.toList).map String.ofList]
      else
        (S.makeStorageKeys pkey columns).map fun keys =>
          (keys.zip values).map fun e => .update e.1 fun _ => e.2.bytes.map String.ofList
    else none
  | delete S pkey =>
    if S.grouped then (S.makeStorageKey pkey).map fun key => [.delete key]
    else (S.makeStorageKeys pkey []).map fun keys => keys.map .delete

/-- All calls of the operations, in their order. -/
def allCalls : List TableOp → Option (List StorageCall)
  | [] => some []
  | op :: ops => do return (← op.calls) ++ (← allCalls ops)

variable {σ : Type} {adapter : KeyValue.Adapter Key Value σ} {s : σ} {op : TableOp}
  {ops : List TableOp}

theorem run_singleton (c : StorageCall) :
    Lts.run adapter.next s [c] = (adapter.answer s c).map Prod.snd := by
  rw [Lts.run_cons, KeyValue.Adapter.next]
  cases adapter.answer s c <;> rfl

theorem run_program :
    (op.program.run adapter s).map Prod.snd = op.calls.bind (Lts.run adapter.next s) := by
  cases op with
  | insert S values =>
    rw [program, Schema.insert, calls]
    by_cases haccepts : S.acceptsInsert values = true
    · rw [if_pos haccepts, if_pos haccepts]
      cases (values.drop S.pkeySize).mapM Scalar.bytes with
      | none => rfl
      | some bytes =>
        rw [Program.ofOption_some, pure_bind, bind_some]
        by_cases hgrouped : S.grouped = true
        · rw [if_pos hgrouped, if_pos hgrouped]
          cases S.makeStorageKey values with
          | none => rfl
          | some key => simp [run_singleton]
        · rw [if_neg hgrouped, if_neg hgrouped]
          cases S.makeStorageKeys values [] with
          | none => rfl
          | some keys => simp [Program.run_perform]
    · rw [if_neg haccepts, if_neg haccepts]
      rfl
  | update S pkey columns values =>
    rw [program, Schema.update, calls]
    by_cases haccepts : S.acceptsUpdate columns values = true
    · rw [if_pos haccepts, if_pos haccepts]
      by_cases hgrouped : S.grouped = true
      · rw [if_pos hgrouped, if_pos hgrouped]
        cases S.makeStorageKey pkey with
        | none => rfl
        | some key => simp [run_singleton]
      · rw [if_neg hgrouped, if_neg hgrouped]
        cases S.makeStorageKeys pkey columns with
        | none => rfl
        | some keys => simp [Program.run_perform]
    · rw [if_neg haccepts, if_neg haccepts]
      rfl
  | delete S pkey =>
    rw [program, Schema.delete, calls]
    by_cases hgrouped : S.grouped = true
    · rw [if_pos hgrouped, if_pos hgrouped]
      cases S.makeStorageKey pkey with
      | none => rfl
      | some key => simp [run_singleton]
    · rw [if_neg hgrouped, if_neg hgrouped]
      cases S.makeStorageKeys pkey [] with
      | none => rfl
      | some keys => simp [Program.run_perform]

theorem run_runAll :
    ((runAll ops).run adapter s).map Prod.snd = (allCalls ops).bind (Lts.run adapter.next s) := by
  induction ops generalizing s with
  | nil => rfl
  | cons op ops ih =>
    have hop : (op.program.run adapter s).map Prod.snd =
        op.calls.bind (Lts.run adapter.next s) := run_program
    rw [runAll, Program.run_bind, allCalls]
    cases hcalls : op.calls with
    | none =>
      rw [hcalls, bind_none, map_eq_none_iff] at hop
      rw [hop]
      rfl
    | some calls =>
      rw [hcalls, bind_some] at hop
      cases hrun : op.program.run adapter s with
      | none =>
        rw [hrun, map_none] at hop
        cases hall : allCalls ops with
        | none => rfl
        | some calls' => simp [Lts.run_append, ← hop]
      | some r =>
        rw [hrun, map_some] at hop
        rw [bind_some, ih]
        cases hall : allCalls ops with
        | none => rfl
        | some calls' => simp [Lts.run_append, ← hop]

/-! ## Writing back -/

/-- The calls that the operations make. -/
def callsOf (ops : List TableOp) : List StorageCall := (allCalls ops).getD []

theorem run_of_runAll {r : Unit × σ} (h : (runAll ops).run adapter s = some r) :
    Lts.run adapter.next s (callsOf ops) = some r.2 := by
  have hrun : (allCalls ops).bind (Lts.run adapter.next s) = some r.2 := by
    rw [← run_runAll, h]
    rfl
  rw [callsOf]
  cases hcalls : allCalls ops with
  | none => simp [hcalls] at hrun
  | some calls => simpa [hcalls] using hrun

theorem runAll_of_run {s' : σ} {calls : List StorageCall} (hcalls : allCalls ops = some calls)
    (h : Lts.run adapter.next s calls = some s') : (runAll ops).run adapter s = some ((), s') := by
  have hrun : ((runAll ops).run adapter s).map Prod.snd = some s' := by
    rw [run_runAll, hcalls, bind_some, h]
  obtain ⟨⟨u, s''⟩, hr, rfl⟩ := map_eq_some_iff.mp hrun
  exact hr

/-- The key of the order 1 of a district. -/
def orderPkey : List Scalar := [.int32 1, .int8 1, .int32 1]

def orderValue : Value := String.ofList
  (Bytes.littleEndian 4 7 ++ Bytes.littleEndian 8 0 ++ Bytes.littleEndian 1 0 ++
    Bytes.littleEndian 1 5 ++ Bytes.littleEndian 1 1)

def orderKey : Key := (orderSchema.makeStorageKey orderPkey).getD ""

def orderStorage : Storage := Function.update (fun _ => none) orderKey (some { value := orderValue })

def orderTransaction : Transaction where
  internal := { id := 1 }
  keys := [{ key := orderKey, type := .write, value := orderValue }]

theorem orderTransaction_readFrom : orderTransaction.ReadFrom (fun _ => true) orderStorage where
  nodup := by decide +kernel
  isLocal := by simp
  value := by
    intro kv hkv
    obtain rfl := List.mem_singleton.mp hkv
    simp [KeyValueExecution.storedValue, orderStorage]
  newValue := by
    intro kv hkv
    obtain rfl := List.mem_singleton.mp hkv
    rfl
  deletedKeys := rfl

def setCarrier : TableOp := .update orderSchema orderPkey [OrderColumn.carrierId] [.int8 3]

def setCount : TableOp := .update orderSchema orderPkey [OrderColumn.olCnt] [.int8 9]

theorem orderStorage_run (ops : List TableOp)
    (h : ((runAll ops).run (storeAdapter fun _ => { master := 0 }) orderStorage).isSome) :
    ∃ storage', (runAll ops).run (storeAdapter fun _ => { master := 0 }) orderStorage =
      some ((), storage') := by
  obtain ⟨⟨u, storage'⟩, h⟩ := isSome_iff_exists.mp h
  exact ⟨storage', h⟩

theorem orderTransaction_declared (h : (callsOf ops).all (fun c => c.key = orderKey) = true) :
    ∀ c ∈ callsOf ops, ∃ kv ∈ orderTransaction.keys, kv.key = c.key ∧ kv.type = .write := by
  intro c hc
  have hkey : c.key = orderKey := by simpa using List.all_eq_true.mp h c hc
  exact ⟨_, List.mem_singleton_self _, hkey.symm, rfl⟩

/-- The operations are on declared rows and can be executed on the storage, but the transaction that
is written back does not leave what they leave there. -/
def LosesWrites (ops : List TableOp) : Prop := ∃ storage',
  orderTransaction.ReadFrom (fun _ => true) orderStorage ∧
  (∀ c ∈ callsOf ops, ∃ kv ∈ orderTransaction.keys, kv.key = c.key ∧ kv.type = .write) ∧
  (runAll ops).run (storeAdapter fun _ => { master := 0 }) orderStorage = some ((), storage') ∧
  ¬ ∃ t', (runAll ops).run txnStorageAdapter orderTransaction = some ((), t') ∧
    SameValues (t'.applyWrites (fun _ => true) orderStorage) storage'

theorem losesWrites
    (hstore : ((runAll ops).run (storeAdapter fun _ => { master := 0 }) orderStorage).isSome)
    (hkeys : (callsOf ops).all (fun c => c.key = orderKey) = true)
    (hne : ((runAll ops).run txnStorageAdapter orderTransaction).map (fun r =>
        (r.2.applyWrites (fun _ => true) orderStorage orderKey).map Record.value) ≠
      ((runAll ops).run (storeAdapter fun _ => { master := 0 }) orderStorage).map (fun r =>
        (r.2 orderKey).map Record.value)) : LosesWrites ops := by
  obtain ⟨storage', hstore⟩ := orderStorage_run ops hstore
  refine ⟨storage', orderTransaction_readFrom, orderTransaction_declared hkeys, hstore, ?_⟩
  rintro ⟨t', ht', hsame⟩
  rw [hstore, ht', map_some, map_some] at hne
  exact hne (congrArg some (hsame orderKey))

end TableOp

end Slog.Benchx
