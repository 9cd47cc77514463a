/-
# Storage adapters

The tables of a stored procedure reach the records through a storage adapter.  One works on the
storage itself and loads the initial records, one works on the copies of the records that a
transaction carries, and one only collects the keys, so that a client can find out which keys its
transaction has to declare.
-/
import Penteract.Lib.AssocMap
import Penteract.Lib.KeyValue
import Penteract.Execution

namespace Slog

open List Option Function
open KeyValueExecution (find setNewValue storedValue)

/-- A stored procedure, or a part of it, as the calls it makes. -/
abbrev StorageProgram (α : Type) := KeyValue.Program Key Value α

abbrev StorageCall := KeyValue.Call Key Value

/-! ## The adapters -/

/-- `compute` is the metadata initializer.  Deletion is not implemented and throws. -/
def kvStorageAdapter (compute : Key → MasterMetadata) : KeyValue.Adapter Key Value Storage where
  answer storage
    | .read key => some ((storage key).map Record.value, storage)
    | .insert key value =>
      some (true, update storage key (some { value, metadata := compute key }))
    | .update key f =>
      match storage key with
      | none => some (false, storage)
      | some r =>
        (f r.value).map fun value =>
          (true, update storage key (some { r with value }))
    | .delete _ => none

/-- Every call first compares the size of the index with the number of keys, which differ if a key
occurs twice. -/
def txnStorageAdapter : KeyValue.Adapter Key Value Transaction where
  answer t call :=
    if ¬ (t.keys.map KeyValueEntry.key).Nodup then none
    else
      match call with
      | .read key => some ((find t.keys key).map KeyValueEntry.value, t)
      | .insert key value =>
        match find t.keys key with
        | none => some (false, t)
        | some kv =>
          if kv.type ≠ .write then some (false, t)
          else some (true, { t with keys := setNewValue value key t.keys })
      | .update key f =>
        match find t.keys key with
        | none => some (false, t)
        | some kv =>
          if kv.type ≠ .write ∨ kv.value = "" then some (false, t)
          else (f kv.value).map fun value =>
            (true, { t with keys := setNewValue value key t.keys })
      | .delete key =>
        match find t.keys key with
        | none => some (false, t)
        | some _ =>
          some (true, { t with
            keys := t.keys.eraseP (·.key = key)
            deletedKeys := t.deletedKeys ++ [key] })

/-- The state is the index of the adapter.  A read keeps the type of a key that is already there. -/
def txnKeyGenStorageAdapter : KeyValue.Adapter Key Value (AssocMap Key KeyType) where
  answer index
    | .read key => some (none, if key ∈ index then index else index.insert key .read)
    | .insert key _ => some (false, index.insert key .write)
    | .update key _ => some (false, index.insert key .write)
    | .delete key => some (false, index.insert key .write)

/-- The keys of the transaction after `Finialize`, in an order that the map chooses. -/
def finialize (index : AssocMap Key KeyType) : List KeyValueEntry :=
  index.entries.map fun e => { key := e.1, type := e.2 }

/-- The storage with deletion: what a stored procedure is meant to do. -/
def storeAdapter (compute : Key → MasterMetadata) : KeyValue.Adapter Key Value Storage where
  answer storage
    | .delete key => some ((storage key).isSome, update storage key none)
    | call => (kvStorageAdapter compute).answer storage call

/-! ## The keys of a transaction -/

section Keys

variable {keys : List KeyValueEntry} {key key' : Key} {value : Value}

theorem find_cons (kv : KeyValueEntry) (keys : List KeyValueEntry) (key : Key) :
    find (kv :: keys) key = if kv.key = key then some kv else find keys key := by
  rw [find, List.find?_cons, find]
  by_cases hkey : kv.key = key <;> simp [hkey]

theorem find_setNewValue :
    find (setNewValue value key keys) key' =
      if key' = key then (find keys key).map fun kv => { kv with newValue := value }
      else find keys key' := by
  induction keys with
  | nil => simp [find, setNewValue]
  | cons kv keys ih =>
    rw [setNewValue, find_cons kv keys key, find_cons kv keys key']
    by_cases hkey : kv.key = key
    · rw [if_pos hkey, if_pos hkey, find_cons]
      by_cases hkey' : key' = key
      · rw [if_pos hkey', if_pos (hkey.trans hkey'.symm)]
        rfl
      · rw [if_neg hkey', if_neg (hkey ▸ Ne.symm hkey'), if_neg (hkey ▸ Ne.symm hkey')]
    · rw [if_neg hkey, if_neg hkey, find_cons, ih]
      by_cases hkey' : key' = key
      · rw [if_pos hkey', if_pos hkey', if_neg (hkey' ▸ hkey)]
      · rw [if_neg hkey', if_neg hkey']

theorem map_key_setNewValue :
    (setNewValue value key keys).map KeyValueEntry.key = keys.map KeyValueEntry.key := by
  induction keys with
  | nil => rfl
  | cons kv keys ih =>
    rw [setNewValue]
    split_ifs
    · rfl
    · rw [map_cons, map_cons, ih]

theorem find_eraseP (hnodup : (keys.map KeyValueEntry.key).Nodup) :
    find (keys.eraseP (·.key = key)) key' = if key' = key then none else find keys key' := by
  induction keys with
  | nil => simp [find]
  | cons kv keys ih =>
    obtain ⟨hkv, hnodup⟩ := nodup_cons.mp hnodup
    by_cases hkey : kv.key = key
    · rw [eraseP_cons_of_pos (by simpa using hkey)]
      by_cases hkey' : key' = key
      · rw [if_pos hkey', KeyValueExecution.find_eq_none]
        rintro ⟨kv', hkv', heq⟩
        exact hkv (hkey.trans (heq.trans hkey').symm ▸ mem_map_of_mem hkv')
      · rw [if_neg hkey', find_cons, if_neg (hkey ▸ Ne.symm hkey')]
    · rw [eraseP_cons_of_neg (by simpa using hkey), find_cons, find_cons, ih hnodup]
      by_cases hkey' : key' = key
      · rw [if_pos hkey', if_pos hkey', if_neg (hkey' ▸ hkey)]
      · rw [if_neg hkey', if_neg hkey']

theorem nodup_map_key_eraseP (hnodup : (keys.map KeyValueEntry.key).Nodup) :
    ((keys.eraseP (·.key = key)).map KeyValueEntry.key).Nodup :=
  hnodup.sublist ((eraseP_sublist).map _)

end Keys

variable {t : Transaction} {key : Key}

theorem answer_read (hnodup : (t.keys.map KeyValueEntry.key).Nodup) (key : Key) :
    txnStorageAdapter.answer t (.read key) = some ((find t.keys key).map KeyValueEntry.value, t) := by
  simp [txnStorageAdapter, hnodup]

theorem answer_delete_none (hnodup : (t.keys.map KeyValueEntry.key).Nodup)
    (hfind : find t.keys key = none) : txnStorageAdapter.answer t (.delete key) = some (false, t) := by
  simp [txnStorageAdapter, hnodup, hfind]

theorem answer_delete_some {kv : KeyValueEntry} (hnodup : (t.keys.map KeyValueEntry.key).Nodup)
    (hfind : find t.keys key = some kv) :
    txnStorageAdapter.answer t (.delete key) =
      some (true, { t with
        keys := t.keys.eraseP (·.key = key)
        deletedKeys := t.deletedKeys ++ [key] }) := by
  simp [txnStorageAdapter, hnodup, hfind]

/-! ## One key of an adapter -/

/-- What a call does to the entry of its key, and whether the key is among the deleted keys. -/
def entryCall : Option KeyValueEntry × Bool → StorageCall → Option (Option KeyValueEntry × Bool)
  | (none, deleted), _ => some (none, deleted)
  | (some kv, deleted), .read _ => some (some kv, deleted)
  | (some kv, deleted), .insert _ value =>
    some (if kv.type ≠ .write then some kv else some { kv with newValue := value }, deleted)
  | (some kv, deleted), .update _ f =>
    if kv.type ≠ .write ∨ kv.value = "" then some (some kv, deleted)
    else (f kv.value).map fun value => (some { kv with newValue := value }, deleted)
  | (some _, _), .delete _ => some (none, true)

/-- What a call does to the record of its key in the storage. -/
def recordCall (compute : Key → MasterMetadata) : Option Record → StorageCall → Option (Option Record)
  | r, .read _ => some r
  | _, .insert key value => some (some { value, metadata := compute key })
  | none, .update _ _ => some none
  | some r, .update _ f => (f r.value).map fun value => some { r with value }
  | _, .delete _ => some none

def Transaction.view (t : Transaction) (key : Key) : Option KeyValueEntry × Bool :=
  (find t.keys key, decide (key ∈ t.deletedKeys))

section Separates

variable {t : Transaction} {kv : KeyValueEntry}

variable {key : Key}

theorem Transaction.view_setNewValue {value : Value} (hfind : find t.keys key = some kv) :
    Transaction.view { t with keys := setNewValue value key t.keys } =
      update t.view key (some { kv with newValue := value }, (t.view key).2) := by
  funext key'
  rw [Transaction.view, find_setNewValue, hfind]
  rcases eq_or_ne key' key with rfl | hne
  · rw [if_pos rfl, update_self]
    rfl
  · rw [if_neg hne, update_of_ne hne]
    rfl

theorem Transaction.view_delete (hnodup : (t.keys.map KeyValueEntry.key).Nodup) :
    Transaction.view { t with
        keys := t.keys.eraseP (·.key = key)
        deletedKeys := t.deletedKeys ++ [key] } =
      update t.view key (none, true) := by
  funext key'
  rw [Transaction.view, find_eraseP hnodup]
  rcases eq_or_ne key' key with rfl | hne
  · rw [if_pos rfl, update_self]
    simp
  · rw [if_neg hne, update_of_ne hne]
    simp [Transaction.view, hne]

theorem txnStorageAdapter_separates :
    txnStorageAdapter.Separates (fun t => (t.keys.map KeyValueEntry.key).Nodup) Transaction.view
      entryCall where
  fault := by
    intro t c hnodup hnone
    cases hfind : find t.keys c.key with
    | none => simp [Transaction.view, hfind, entryCall] at hnone
    | some kv =>
      cases c with
      | update key f =>
        rw [KeyValue.Call.key] at hfind
        by_cases hskip : kv.type ≠ .write ∨ kv.value = ""
        · simp [Transaction.view, KeyValue.Call.key, hfind, entryCall, hskip] at hnone
        · have hf : f kv.value = none := by
            simpa [Transaction.view, KeyValue.Call.key, hfind, entryCall, hskip] using hnone
          simp [KeyValue.Adapter.next, txnStorageAdapter, hnodup, hfind, hskip, hf]
      | _ => simp [Transaction.view, hfind, entryCall] at hnone
  step := by
    intro t c x hnodup hx
    have hkeep (hnext : txnStorageAdapter.next t c = some t) (hview : t.view c.key = x) :
        ∃ t', txnStorageAdapter.next t c = some t' ∧ (t'.keys.map KeyValueEntry.key).Nodup ∧
          t'.view = update t.view c.key x :=
      ⟨t, hnext, hnodup, by rw [← hview, update_eq_self]⟩
    cases hfind : find t.keys c.key with
    | none =>
      refine hkeep ?_ (by simpa [Transaction.view, hfind, entryCall] using hx)
      cases c <;> rw [KeyValue.Call.key] at hfind <;>
        simp [KeyValue.Adapter.next, txnStorageAdapter, hnodup, hfind]
    | some kv =>
      have hview : t.view c.key = (some kv, decide (c.key ∈ t.deletedKeys)) := by
        rw [Transaction.view, hfind]
      rw [hview] at hx
      -- the call sets the new value of the copy
      have hset {value : Value}
          (hnext : txnStorageAdapter.next t c = some { t with keys := setNewValue value c.key t.keys })
          (hx : (some { kv with newValue := value }, decide (c.key ∈ t.deletedKeys)) = x) :
          ∃ t', txnStorageAdapter.next t c = some t' ∧ (t'.keys.map KeyValueEntry.key).Nodup ∧
            t'.view = update t.view c.key x := by
        refine ⟨_, hnext, by rwa [map_key_setNewValue], ?_⟩
        rw [Transaction.view_setNewValue hfind, ← hx]
        rfl
      cases c with
      | read key =>
        exact hkeep (by simp [KeyValue.Adapter.next, txnStorageAdapter, hnodup])
          (hview.trans (some_inj.mp hx))
      | insert key value =>
        rw [KeyValue.Call.key] at hfind
        rw [entryCall, some_inj] at hx
        by_cases hwrite : kv.type ≠ .write
        · rw [if_pos hwrite] at hx
          exact hkeep (by simp [KeyValue.Adapter.next, txnStorageAdapter, hnodup, hfind, hwrite])
            (hview.trans hx)
        · rw [if_neg hwrite] at hx
          exact hset (by simp [KeyValue.Adapter.next, txnStorageAdapter, hnodup, hfind, hwrite,
            KeyValue.Call.key]) hx
      | update key f =>
        rw [KeyValue.Call.key] at hfind
        rw [entryCall] at hx
        by_cases hskip : kv.type ≠ .write ∨ kv.value = ""
        · rw [if_pos hskip, some_inj] at hx
          exact hkeep (by simp [KeyValue.Adapter.next, txnStorageAdapter, hnodup, hfind, hskip])
            (hview.trans hx)
        · rw [if_neg hskip, map_eq_some_iff] at hx
          obtain ⟨value, hvalue, hx⟩ := hx
          exact hset (by simp [KeyValue.Adapter.next, txnStorageAdapter, hnodup, hfind, hskip, hvalue,
            KeyValue.Call.key]) hx
      | delete key =>
        rw [KeyValue.Call.key] at hfind ⊢
        rw [entryCall, some_inj] at hx
        refine ⟨_, ?_, nodup_map_key_eraseP hnodup, hx ▸ Transaction.view_delete hnodup⟩
        simp [KeyValue.Adapter.next, txnStorageAdapter, hnodup, hfind]

theorem storeAdapter_separates (compute : Key → MasterMetadata) :
    (storeAdapter compute).Separates (fun _ => True) id (recordCall compute) where
  fault := by
    intro storage c _ hnone
    cases c with
    | update key f =>
      rw [id, KeyValue.Call.key] at hnone
      cases hr : storage key with
      | none => simp [hr, recordCall] at hnone
      | some r =>
        have hf : f r.value = none := by simpa [hr, recordCall] using hnone
        simp [KeyValue.Adapter.next, storeAdapter, kvStorageAdapter, hr, hf]
    | _ => simp [recordCall] at hnone
  step := by
    intro storage c x _ hx
    refine ⟨update storage c.key x, ?_, trivial, rfl⟩
    cases c with
    | read key =>
      have hx' : storage key = x := by simpa [recordCall, KeyValue.Call.key] using hx
      simp [KeyValue.Adapter.next, storeAdapter, kvStorageAdapter, KeyValue.Call.key, ← hx']
    | insert key value =>
      have hx' : some { value, metadata := compute key } = x := by simpa [recordCall] using hx
      simp [KeyValue.Adapter.next, storeAdapter, kvStorageAdapter, KeyValue.Call.key, ← hx']
    | update key f =>
      rw [id, KeyValue.Call.key] at hx
      cases hr : storage key with
      | none =>
        have hx' : none = x := by simpa [hr, recordCall] using hx
        rw [KeyValue.Call.key, ← hx', ← hr, update_eq_self]
        simp [KeyValue.Adapter.next, storeAdapter, kvStorageAdapter, hr]
      | some r =>
        obtain ⟨value, hvalue, hx'⟩ : ∃ value, f r.value = some value ∧ some { r with value } = x := by
          simpa [hr, recordCall] using hx
        simp [KeyValue.Adapter.next, storeAdapter, kvStorageAdapter, KeyValue.Call.key, hr, hvalue,
          ← hx']
    | delete key =>
      have hx' : none = x := by simpa [recordCall] using hx
      simp [KeyValue.Adapter.next, storeAdapter, KeyValue.Call.key, ← hx']

end Separates

/-! ## The calls on one key

The copy of a record keeps the value that was read and one new value, so each write replaces the
earlier ones, and an update is applied to the value that was read.  Once the key is deleted the calls
on it do nothing. -/

def isDelete : StorageCall → Bool
  | .delete _ => true
  | _ => false

/-- Whether the call decides on its own whether the key is present after it. -/
def isPlacement : StorageCall → Bool
  | .insert _ _ => true
  | .delete _ => true
  | _ => false

/-- The new value that a call sets if `before` is the value that was read. -/
def writtenValue (before : Value) : StorageCall → Option Value
  | .insert _ value => some value
  | .update _ f => if before = "" then none else f before
  | _ => none

/-- The last of these values, and `value` if there is none. -/
def lastWrittenValue (before value : Value) (calls : List StorageCall) : Value :=
  (calls.reverse.findSome? (writtenValue before)).getD value

/-- Up to the first deletion, all updates can be applied to the value that was read. -/
def Applies (before : Value) : List StorageCall → Prop
  | [] => True
  | .delete _ :: _ => True
  | .update _ f :: calls => (before = "" ∨ (f before).isSome) ∧ Applies before calls
  | _ :: calls => Applies before calls

instance decidableApplies (before : Value) : (calls : List StorageCall) →
    Decidable (Applies before calls)
  | [] => isTrue trivial
  | .delete _ :: _ => isTrue trivial
  | .update _ f :: calls =>
    have := decidableApplies before calls
    inferInstanceAs (Decidable ((before = "" ∨ (f before).isSome) ∧ Applies before calls))
  | .read _ :: calls => decidableApplies before calls
  | .insert _ _ :: calls => decidableApplies before calls

/-- What the calls make of a record, one after the other. -/
def composedValue (before : Option Value) (calls : List StorageCall) : Option Value :=
  calls.foldl (fun
    | v, .read _ => v
    | _, .insert _ value => some value
    | v, .update _ f => v.bind f
    | _, .delete _ => none) before

section OneKey

variable {kv : KeyValueEntry} {deleted : Bool} {calls : List StorageCall} {before value : Value}

theorem lastWrittenValue_cons (c : StorageCall) :
    lastWrittenValue before value (c :: calls) =
      lastWrittenValue before ((writtenValue before c).getD value) calls := by
  rw [lastWrittenValue, reverse_cons, List.findSome?_append, List.findSome?_singleton,
    lastWrittenValue]
  cases calls.reverse.findSome? (writtenValue before) <;> rfl

theorem run_entryCall_none : Lts.run entryCall (none, deleted) calls = some (none, deleted) := by
  induction calls with
  | nil => rfl
  | cons c calls ih => exact ih

theorem run_entryCall (hwrite : kv.type = .write) :
    Lts.run entryCall (some kv, deleted) calls = if Applies kv.value calls then
      some (if calls.any isDelete then (none, true)
        else (some { kv with newValue := lastWrittenValue kv.value kv.newValue calls }, deleted))
      else none := by
  induction calls generalizing kv with
  | nil => rfl
  | cons c calls ih =>
    rw [Lts.run_cons, any_cons, lastWrittenValue_cons]
    cases c with
    | read key =>
      rw [entryCall, bind_some, ih hwrite]
      rfl
    | insert key value =>
      rw [entryCall, if_neg (not_not.mpr hwrite), bind_some]
      exact ih hwrite
    | update key f =>
      by_cases hempty : kv.value = ""
      · rw [entryCall, if_pos (.inr hempty), bind_some, ih hwrite, writtenValue, if_pos hempty]
        simp [Applies, hempty, isDelete]
      · rw [entryCall, if_neg (by simp [hwrite, hempty]), writtenValue, if_neg hempty]
        cases hf : f kv.value with
        | none => simp [Applies, hempty, hf]
        | some value =>
          have hrest := @ih { kv with newValue := value } hwrite
          simp [Applies, hf, isDelete, hrest]
    | delete key =>
      rw [entryCall, bind_some, run_entryCall_none]
      rfl

variable {compute : Key → MasterMetadata} {r r' : Option Record}

theorem value_of_run_recordCall (h : Lts.run (recordCall compute) r calls = some r') :
    r'.map Record.value = composedValue (r.map Record.value) calls := by
  induction calls generalizing r with
  | nil =>
    cases h
    rfl
  | cons c calls ih =>
    obtain ⟨x, hx, hrun⟩ := bind_eq_some_iff.mp (Lts.run_cons _ _ _ _ ▸ h)
    rw [ih hrun, composedValue, composedValue, foldl_cons]
    congr 1
    cases c with
    | read key => cases hx; rfl
    | insert key value => cases hx; rfl
    | update key f =>
      cases r with
      | none => cases hx; rfl
      | some r =>
        obtain ⟨value, hvalue, rfl⟩ := map_eq_some_iff.mp hx
        simp [hvalue]
    | delete key => cases hx; rfl

/-- If the calls do not fault, the key is absent after them if the last call that decides about it is
a deletion. -/
theorem isNone_of_run_recordCall (h : Lts.run (recordCall compute) r calls = some r')
    (hdelete : calls.any isDelete) : r' = none ↔ (calls.reverse.find? isPlacement).any isDelete := by
  induction calls using List.reverseRecOn generalizing r' with
  | nil => cases hdelete
  | append_singleton calls c ih =>
    obtain ⟨x, hrun, hx⟩ := (Lts.run_concat _).mp h
    rw [reverse_append, reverse_singleton, singleton_append]
    have hkeep (hc : isDelete c = false) : calls.any isDelete = true := by
      simpa [hc] using hdelete
    cases c with
    | read key =>
      cases hx
      exact ih hrun (hkeep rfl)
    | insert key value =>
      cases hx
      rw [List.find?_cons_of_pos (by rfl)]
      simp [isDelete]
    | update key f =>
      rw [List.find?_cons_of_neg (by simp [isPlacement]), ← ih hrun (hkeep rfl)]
      cases x with
      | none =>
        cases hx
        rfl
      | some r =>
        obtain ⟨value, -, rfl⟩ := map_eq_some_iff.mp hx
        simp
    | delete key =>
      cases hx
      rw [List.find?_cons_of_pos (by rfl)]
      simp [isDelete]

end OneKey

/-! ## Writing back -/

/-- The transaction before its execution: the keys are those of the storage, with the values read
from it, and nothing is written yet. -/
structure Transaction.ReadFrom (isLocal : Key → Bool) (storage : Storage) (t : Transaction) :
    Prop where
  nodup : (t.keys.map KeyValueEntry.key).Nodup
  isLocal : ∀ kv ∈ t.keys, isLocal kv.key = true
  value : ∀ kv ∈ t.keys, kv.value = storedValue storage kv.key
  newValue : ∀ kv ∈ t.keys, kv.newValue = ""
  deletedKeys : t.deletedKeys = []

/-- The same keys are present, with the same values. -/
def SameValues (storage storage' : Storage) : Prop :=
  ∀ key, (storage key).map Record.value = (storage' key).map Record.value

/-- What the calls on a declared key must be like: a key that they delete is not inserted again, and
otherwise the last write alone, made of the value that was read, gives what all calls give. -/
structure KeyComposes (before : Option Value) (calls : List StorageCall) : Prop where
  applies : Applies (before.getD "") calls
  deleted : calls.any isDelete = true → (calls.reverse.find? isPlacement).any isDelete = true
  written : calls.any isDelete = false →
    composedValue before calls = some (lastWrittenValue (before.getD "") "" calls)

instance (before : Option Value) (calls : List StorageCall) : Decidable (KeyComposes before calls) :=
  decidable_of_iff
    (Applies (before.getD "") calls ∧
      (calls.any isDelete = true → (calls.reverse.find? isPlacement).any isDelete = true) ∧
      (calls.any isDelete = false →
        composedValue before calls = some (lastWrittenValue (before.getD "") "" calls)))
    ⟨fun h => ⟨h.1, h.2.1, h.2.2⟩, fun h => ⟨h.applies, h.deleted, h.written⟩⟩

theorem foldl_update_none (keys : List Key) (storage : Storage) (key : Key) :
    keys.foldl (fun storage key => update storage key none) storage key =
      if key ∈ keys then none else storage key := by
  induction keys generalizing storage with
  | nil => rfl
  | cons k keys ih =>
    rw [foldl_cons, ih, update_apply]
    by_cases hkey : key = k <;> simp [hkey]

section WriteBack

variable {isLocal : Key → Bool} {storage : Storage} {t : Transaction} {key : Key} {kv : KeyValueEntry}

theorem find_of_mem (hnodup : (t.keys.map KeyValueEntry.key).Nodup) (hkv : kv ∈ t.keys) :
    find t.keys kv.key = some kv := by
  cases hfind : find t.keys kv.key with
  | none => exact absurd ⟨kv, hkv, rfl⟩ (KeyValueExecution.find_eq_none.mp hfind)
  | some kv' =>
    obtain ⟨hmem, hkey⟩ := KeyValueExecution.find_eq_some hfind
    rw [inj_on_of_nodup_map hnodup hmem hkv hkey]

theorem applyWrites_deleted (h : key ∈ t.deletedKeys) : t.applyWrites isLocal storage key = none := by
  rw [Transaction.applyWrites, foldl_update_none, if_pos h]

theorem applyWrites_written (hnodup : (t.keys.map KeyValueEntry.key).Nodup)
    (hfind : find t.keys key = some kv) (hdeleted : key ∉ t.deletedKeys)
    (hlocal : isLocal key = true) (hwrite : kv.type = .write) :
    t.applyWrites isLocal storage key = some kv.newRecord := by
  obtain ⟨hkv, rfl⟩ := KeyValueExecution.find_eq_some hfind
  rw [Transaction.applyWrites, foldl_update_none, if_neg hdeleted,
    foldl_applyWrite_self hnodup hkv hlocal hwrite]

theorem applyWrites_other (hnodup : (t.keys.map KeyValueEntry.key).Nodup)
    (hfind : ∀ kv, find t.keys key = some kv → kv.type = .read) (hdeleted : key ∉ t.deletedKeys) :
    t.applyWrites isLocal storage key = storage key := by
  rw [Transaction.applyWrites, foldl_update_none, if_neg hdeleted, foldl_applyWrite_other]
  rintro kv hkv rfl
  exact .inr (hfind kv (find_of_mem hnodup hkv))

end WriteBack

section SameValues

variable {isLocal : Key → Bool} {compute : Key → MasterMetadata} {storage storage' : Storage}
  {t t' : Transaction} {calls : List StorageCall}

/-- A declared key after the calls on it, in the storage and in what is written back. -/
theorem sameValue_iff {kv : KeyValueEntry} (hnodup : (t'.keys.map KeyValueEntry.key).Nodup)
    (hlocal : isLocal kv.key = true) (hwrite : kv.type = .write) (hnew : kv.newValue = "")
    (hvalue : kv.value = storedValue storage kv.key)
    (happlies : Applies kv.value (KeyValue.history kv.key calls))
    (hentry : Lts.run entryCall (some kv, false) (KeyValue.history kv.key calls) =
      some (t'.view kv.key))
    (hrecord : Lts.run (recordCall compute) (storage kv.key) (KeyValue.history kv.key calls) =
      some (storage' kv.key)) :
    (t'.applyWrites isLocal storage kv.key).map Record.value = (storage' kv.key).map Record.value ↔
      KeyComposes ((storage kv.key).map Record.value) (KeyValue.history kv.key calls) := by
  set calls := KeyValue.history kv.key calls
  rw [run_entryCall hwrite, if_pos happlies, some_inj, Transaction.view, hnew] at hentry
  have hbefore : ((storage kv.key).map Record.value).getD "" = kv.value := hvalue.symm
  cases hdelete : calls.any isDelete with
  | true =>
    have hdeleted : kv.key ∈ t'.deletedKeys := by simpa [hdelete] using congrArg Prod.snd hentry
    rw [applyWrites_deleted hdeleted]
    have hiff := isNone_of_run_recordCall hrecord hdelete
    constructor
    · intro hnone
      refine ⟨hbefore ▸ happlies, fun _ => hiff.mp ?_, by simp [hdelete]⟩
      exact map_eq_none_iff.mp hnone.symm
    · intro h
      rw [hiff.mpr (h.deleted hdelete)]
  | false =>
    obtain ⟨hfind, hdeleted⟩ : some { kv with
          newValue := lastWrittenValue kv.value "" calls } = find t'.keys kv.key ∧
        kv.key ∉ t'.deletedKeys := by
      simpa [hdelete] using hentry
    rw [applyWrites_written hnodup hfind.symm hdeleted hlocal hwrite, map_some,
      value_of_run_recordCall hrecord, eq_comm]
    constructor
    · intro hsome
      exact ⟨hbefore ▸ happlies, by simp [hdelete], fun _ => hbefore ▸ hsome⟩
    · intro h
      exact hbefore ▸ h.written hdelete

/-- Which sequences of calls on declared keys do the same to the copies of a transaction that is
written back afterwards as they do to the storage. -/
theorem sameValues_iff (hread : t.ReadFrom isLocal storage)
    (hdeclared : ∀ c ∈ calls, ∃ kv ∈ t.keys, kv.key = c.key ∧ kv.type = .write)
    (hstore : Lts.run (storeAdapter compute).next storage calls = some storage') :
    (∃ t', Lts.run txnStorageAdapter.next t calls = some t' ∧
        SameValues (t'.applyWrites isLocal storage) storage') ↔
      ∀ kv ∈ t.keys, kv.type = .write →
        KeyComposes ((storage kv.key).map Record.value) (KeyValue.history kv.key calls) := by
  have hrecord : ∀ key, Lts.run (recordCall compute) (storage key) (KeyValue.history key calls) =
      some (storage' key) := by
    rcases (storeAdapter_separates compute).run trivial calls with ⟨hnone, -⟩ | ⟨s', hs', -, h⟩
    · exact nomatch hnone.symm.trans hstore
    · exact some_inj.mp (hs'.symm.trans hstore) ▸ h
  have hview {kv : KeyValueEntry} (hkv : kv ∈ t.keys) : t.view kv.key = (some kv, false) := by
    simp [Transaction.view, find_of_mem hread.nodup hkv, hread.deletedKeys]
  have hbefore {kv : KeyValueEntry} (hkv : kv ∈ t.keys) :
      ((storage kv.key).map Record.value).getD "" = kv.value := (hread.value kv hkv).symm
  constructor
  · rintro ⟨t', hrun, hsame⟩ kv hkv hwrite
    rcases txnStorageAdapter_separates.run hread.nodup calls with
      ⟨hnone, -⟩ | ⟨s', hs', hnodup, hentry⟩
    · exact nomatch hnone.symm.trans hrun
    obtain rfl := some_inj.mp (hs'.symm.trans hrun)
    have hentry := hview hkv ▸ hentry kv.key
    have happlies : Applies kv.value (KeyValue.history kv.key calls) := by
      by_contra hnot
      rw [run_entryCall hwrite, if_neg hnot] at hentry
      cases hentry
    exact (sameValue_iff hnodup (hread.isLocal kv hkv) hwrite (hread.newValue kv hkv)
      (hread.value kv hkv) happlies hentry (hrecord kv.key)).mp (hsame kv.key)
  · intro hcomposes
    rcases txnStorageAdapter_separates.run hread.nodup calls with
      ⟨-, c, hc, hnone⟩ | ⟨t', hrun, hnodup, hentry⟩
    · obtain ⟨kv, hkv, hkey, hwrite⟩ := hdeclared c hc
      rw [← hkey, hview hkv, run_entryCall hwrite,
        if_pos (hbefore hkv ▸ (hcomposes kv hkv hwrite).applies)] at hnone
      exact nomatch hnone
    refine ⟨t', hrun, fun key => ?_⟩
    by_cases hkey : ∃ kv ∈ t.keys, kv.key = key ∧ kv.type = .write
    · obtain ⟨kv, hkv, rfl, hwrite⟩ := hkey
      have hkv' := hcomposes kv hkv hwrite
      exact (sameValue_iff hnodup (hread.isLocal kv hkv) hwrite (hread.newValue kv hkv)
        (hread.value kv hkv) (hbefore hkv ▸ hkv'.applies) (hview hkv ▸ hentry kv.key)
        (hrecord kv.key)).mpr hkv'
    · -- no call is on the key, so that neither side has changed it
      have hnil : KeyValue.history key calls = [] := by
        refine filter_eq_nil_iff.mpr fun c hc => ?_
        obtain ⟨kv, hkv, hckey, hwrite⟩ := hdeclared c hc
        simpa using fun h : c.key = key => hkey ⟨kv, hkv, hckey.trans h, hwrite⟩
      have hentry := hentry key
      have hrecord := hrecord key
      rw [hnil, Lts.run_nil, some_inj] at hentry hrecord
      have hdeleted : key ∉ t'.deletedKeys := by
        have h := congrArg Prod.snd hentry
        simpa [Transaction.view, hread.deletedKeys] using h
      rw [applyWrites_other hnodup _ hdeleted, ← hrecord]
      intro kv hfind
      have hfind' : find t.keys key = some kv := (congrArg Prod.fst hentry).trans hfind
      obtain ⟨hkv, hkvkey⟩ := KeyValueExecution.find_eq_some hfind'
      cases htype : kv.type with
      | read => rfl
      | write => exact absurd ⟨kv, hkv, hkvkey, htype⟩ hkey

end SameValues

end Slog
