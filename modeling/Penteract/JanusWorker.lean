/-
# Workers of Janus

In Janus every partition of a transaction gets it with all its keys.  A worker fills in the values
of the keys that its partition owns, and sends the whole list to the other partitions; what it gets
from them is merged into its own list, or appended to it, depending on the execution type.  Merged,
every key has the value that its owner has read; appended, every key is there once for every
partition.
-/
import Penteract.Lib.Network
import Penteract.SubTransactions
import Penteract.Worker

namespace Janus

open List Function Slog

inductive ExecutionType where
  | keyValue
  | noop
  | tpcC
  | movr
  | pps
  | movie
  | smallBank
  | benchX
  | writeSkew
  deriving DecidableEq, Repr

/-- The execution types for which remote reads are merged by key. -/
def ExecutionType.mergesReads : ExecutionType → Bool
  | .pps | .movie | .smallBank => true
  | _ => false

/-! ## What a worker does to a transaction -/

/-- `ReadLocalStorage` fills in the value of a key of the partition. -/
def readKey (sh : Sharder) (p : PartitionId) (storage : Storage) (kv : KeyValueEntry) :
    KeyValueEntry :=
  if sh.computePartition kv.key = some p then
    match storage kv.key with
    | some record => { kv with value := record.value }
    | none => kv
  else kv

def readLocal (sh : Sharder) (p : PartitionId) (storage : Storage) (t : Transaction) :
    Transaction :=
  if t.status = .aborted then t
  else { t with keys := t.keys.map (readKey sh p storage) }

/-- The value of a remote read goes to the first entry of the key, or to a new one. -/
def mergeRead (kv : KeyValueEntry) : List KeyValueEntry → List KeyValueEntry
  | [] => [kv]
  | e :: es => if e.key = kv.key then { e with value := kv.value } :: es else e :: mergeRead kv es

/-- Remote reads without a value are skipped when they are merged. -/
def applyReads (type : ExecutionType) (keys reads : List KeyValueEntry) : List KeyValueEntry :=
  if type.mergesReads then
    reads.foldl (fun keys kv => if kv.value = "" then keys else mergeRead kv keys) keys
  else keys ++ reads

def applyRemoteRead (type : ExecutionType) (t : Transaction) (result : RemoteReadResult) :
    Transaction :=
  if t.status = .aborted then t
  else if result.willAbort then t.abort result.abortReason
  else { t with keys := applyReads type t.keys result.reads }

/-- The result that is sent to the other partitions. -/
def readResult (p : PartitionId) (t : Transaction) : RemoteReadResult :=
  let aborted : Bool := t.status = .aborted
  { txnId := t.id, deadlocked := false, partition := p, willAbort := aborted,
    abortReason := t.abortReason, reads := if aborted then [] else t.keys }

def broadcastReads (p : PartitionId) (t : Transaction) : List (PartitionId × RemoteReadResult) :=
  (t.internal.involvedPartitions.filter (· ≠ p)).map fun q => (q, readResult p t)

def numRemoteReads (p : PartitionId) (t : Transaction) : ℕ :=
  if p ∈ t.internal.involvedPartitions then t.internal.involvedPartitions.length - 1 else 0

/-! ## The workers of all partitions -/

structure TransactionState where
  txn : Transaction
  remoteReadsWaitingOn : ℕ := 0
  phase : WorkerPhase := .readLocalStorage
  deriving DecidableEq, Repr

/-- The transaction id, the partition it is at, and the transaction as `Execute` gets it. -/
structure Execution where
  id : TxnId
  partition : PartitionId
  txn : Transaction
  deriving DecidableEq, Repr

/-- `snapshot p id` is the storage of the partition `p` when its worker read it for the
transaction, and `got p id` are the partitions whose reads it has applied since. -/
structure Workers where
  storage : PartitionId → Storage
  txnStates : PartitionId → TxnId → Option TransactionState := fun _ _ => none
  inFlight : List (PartitionId × RemoteReadResult) := []
  snapshot : PartitionId → TxnId → Option Storage := fun _ _ => none
  got : PartitionId → TxnId → List PartitionId := fun _ _ => []
  executed : List Execution := []

inductive WorkersEvent where
  /-- The scheduler of the partition dispatches the transaction. -/
  | dispatch (p : PartitionId) (id : TxnId)
  /-- The broker of the receiver hands over the message at the index. -/
  | deliver (i : ℕ)

/-- How the workers were built.  `execute` stands for the execution type's program. -/
structure WorkerConfig where
  sharder : Sharder
  type : ExecutionType
  execute : PartitionId → Transaction → Storage → Storage

def update₂ {α β γ : Type*} [DecidableEq α] [DecidableEq β] (f : α → β → γ) (a : α) (b : β)
    (c : γ) : α → β → γ :=
  fun a' b' => if a' = a ∧ b' = b then c else f a' b'

namespace Workers

variable (c : WorkerConfig) (txns : TxnId → Transaction)

def setState (s : Workers) (p : PartitionId) (id : TxnId) (state : Option TransactionState) :
    Workers :=
  { s with txnStates := update₂ s.txnStates p id state }

/-- `Execute` and `Finish`.  A program other than code is a fatal error. -/
def executeAndFinish (s : Workers) (p : PartitionId) (id : TxnId) (t : Transaction) :
    Option Workers :=
  if t.isRemaster then none
  else
    let s := s.setState p id none
    if t.status = .aborted then some s
    else
      some { s with
        storage := Function.update s.storage p (c.execute p t (s.storage p))
        executed := s.executed ++ [⟨id, p, t⟩] }

/-- `OnCustomSocket` and `ReadLocalStorage`.  A scheduler dispatches a transaction to one of its
workers, once. -/
def dispatch (s : Workers) (p : PartitionId) (id : TxnId) : Option Workers :=
  if p ∉ (txns id).internal.involvedPartitions ∨ (s.snapshot p id).isSome then none
  else if (s.txnStates p id).isSome then none
  else
    let t := readLocal c.sharder p (s.storage p) (txns id)
    let s := { s with
      inFlight := s.inFlight ++ broadcastReads p t
      snapshot := update₂ s.snapshot p id (some (s.storage p)) }
    let n := numRemoteReads p t
    if n = 0 then executeAndFinish c s p id t
    else some (s.setState p id (some ⟨t, n, .waitRemoteRead⟩))

/-- `OnInternalRequestReceived`.  A read that arrives before its transaction is dispatched stays
with the broker until the worker asks for it. -/
def onInternalRequestReceived (s : Workers) (p : PartitionId) (result : RemoteReadResult) :
    Option Workers :=
  let id := result.txnId
  (s.txnStates p id).bind fun state =>
    let t := applyRemoteRead c.type state.txn result
    let n := decrement state.remoteReadsWaitingOn
    let s := { s with got := update₂ s.got p id (s.got p id ++ [result.partition]) }
    if n = 0 then
      if state.phase = .waitRemoteRead then executeAndFinish c s p id t else none
    else some (s.setState p id (some ⟨t, n, state.phase⟩))

def step (s : Workers) : WorkersEvent → Option Workers
  | .dispatch p id => s.dispatch c txns p id
  | .deliver i => s.inFlight[i]?.bind fun (p, result) =>
    onInternalRequestReceived c { s with inFlight := s.inFlight.eraseIdx i } p result

def init (storage : PartitionId → Storage) : Workers := { storage }

/-! ## What the transaction is executed on -/

/-- The value that a worker reads from a storage. -/
def storedValue (storage : Storage) (k : Key) : Value := ((storage k).map Record.value).getD ""

/-- Every key of the transaction is there once, with the value that its owner has read. -/
structure OnOwnersValues (s : Workers) (e : Execution) : Prop where
  nodup : (e.txn.keys.map (·.key)).Nodup
  keys : ∀ k, k ∈ e.txn.keys.map (·.key) ↔ k ∈ (txns e.id).keys.map (·.key)
  values : ∀ kv ∈ e.txn.keys, ∃ q storage, c.sharder.computePartition kv.key = some q ∧
    s.snapshot q e.id = some storage ∧ kv.value = storedValue storage kv.key

/-! ## Merged and appended reads -/

/-- The keys with other values. -/
def withValues (keys : List KeyValueEntry) (f : Key → Value) : List KeyValueEntry :=
  keys.map fun kv => { kv with value := f kv.key }

variable {keys : List KeyValueEntry} {kv : KeyValueEntry} {sh : Sharder} {t : Transaction}
  {id : TxnId}

theorem withValues_congr {f g : Key → Value} (h : ∀ kv ∈ keys, f kv.key = g kv.key) :
    withValues keys f = withValues keys g := by
  refine map_congr_left fun kv hkv => ?_
  rw [h kv hkv]

@[simp] theorem map_key_withValues (keys : List KeyValueEntry) (f : Key → Value) :
    (withValues keys f).map (·.key) = keys.map (·.key) := by
  simp [withValues, comp_def]

theorem mergeRead_withValues (hnd : (keys.map (·.key)).Nodup) (f : Key → Value)
    (hkv : kv.key ∈ keys.map (·.key)) :
    mergeRead kv (withValues keys f) =
      withValues keys (Function.update f kv.key kv.value) := by
  induction keys with
  | nil => cases hkv
  | cons e es ih =>
    rw [map_cons, nodup_cons] at hnd
    simp only [withValues, map_cons, mergeRead]
    by_cases he : e.key = kv.key
    · have hrest : withValues es f = withValues es (Function.update f kv.key kv.value) := by
        refine withValues_congr fun e' he' => ?_
        have hne : e'.key ≠ kv.key := fun h =>
          hnd.1 (he.trans h.symm ▸ mem_map_of_mem he')
        rw [update_of_ne hne]
      rw [if_pos he, he, update_self]
      exact congrArg _ hrest
    · rw [map_cons, mem_cons] at hkv
      rw [if_neg he, update_of_ne he]
      exact congrArg _ (ih hnd.2 (hkv.resolve_left fun h => he h.symm))

/-- What merging the reads `withValues reads g` does to the values. -/
theorem foldl_mergeRead (hnd : (keys.map (·.key)).Nodup) (g : Key → Value) (reads : List KeyValueEntry)
    (hsub : ∀ kv ∈ reads, kv.key ∈ keys.map (·.key)) (f : Key → Value) :
    (withValues reads g).foldl (fun keys kv => if kv.value = "" then keys else mergeRead kv keys)
        (withValues keys f) =
      withValues keys fun k => if k ∈ reads.map (·.key) ∧ g k ≠ "" then g k else f k := by
  induction reads generalizing f with
  | nil => simp [withValues]
  | cons e es ih =>
    have hes : ∀ kv ∈ es, kv.key ∈ keys.map (·.key) :=
      fun kv hkv => hsub kv (mem_cons_of_mem _ hkv)
    have hcons : withValues (e :: es) g = { e with value := g e.key } :: withValues es g := rfl
    rw [hcons, foldl_cons]
    dsimp only
    by_cases he : g e.key = ""
    · rw [if_pos he, ih hes]
      refine withValues_congr fun kv _ => ?_
      by_cases hk : kv.key = e.key
      · simp [hk, he]
      · simp [hk]
    · have hmem : e.key ∈ keys.map (·.key) := hsub e mem_cons_self
      have hmerge : mergeRead { e with value := g e.key } (withValues keys f) =
          withValues keys (Function.update f e.key (g e.key)) := mergeRead_withValues hnd f hmem
      rw [if_neg he, hmerge, ih hes]
      refine withValues_congr fun kv _ => ?_
      by_cases hk : kv.key = e.key
      · simp [hk, he]
      · simp [hk]

/-! ## What is assembled from the reads -/

/-- A transaction as the client makes it and the coordinator annotates it: with different keys
that have no values yet. -/
structure Submitted (sh : Sharder) (t : Transaction) : Prop where
  notAborted : t.status ≠ .aborted
  nodup : (t.keys.map (·.key)).Nodup
  noValues : ∀ kv ∈ t.keys, kv.value = ""
  partitions : ∃ client : Transaction, client.internal.involvedPartitions = [] ∧
    client.populateInvolvedPartitions sh = some t

theorem Submitted.involved (ht : Submitted sh t) :
    t.internal.involvedPartitions = sortUnique (t.keys.filterMap fun kv =>
      sh.computePartition kv.key) ∧ ∀ kv ∈ t.keys, (sh.computePartition kv.key).isSome := by
  obtain ⟨client, hnil, hpop⟩ := ht.partitions
  obtain ⟨hshard, rfl⟩ := Transaction.populateInvolvedPartitions_eq_some hpop
  exact ⟨by simp [hnil], hshard⟩

theorem Submitted.involved_nodup (ht : Submitted sh t) : t.internal.involvedPartitions.Nodup := by
  rw [ht.involved.1]
  exact sortUnique_nodup _

/-- The owner of a key is involved. -/
theorem Submitted.owner (ht : Submitted sh t) (hkv : kv ∈ t.keys) :
    ∃ q ∈ t.internal.involvedPartitions, sh.computePartition kv.key = some q := by
  obtain ⟨q, hq⟩ := Option.isSome_iff_exists.mp (ht.involved.2 kv hkv)
  refine ⟨q, ?_, hq⟩
  rw [ht.involved.1, mem_sortUnique, mem_filterMap]
  exact ⟨kv, hkv, hq⟩

/-- The keys that the worker of `q` sends. -/
def sentKeys (snapshot : PartitionId → TxnId → Option Storage) (id : TxnId) (q : PartitionId) :
    List KeyValueEntry :=
  (txns id).keys.map (readKey c.sharder q ((snapshot q id).getD fun _ => none))

/-- The keys at the partition `p` after the reads of the partitions `qs`. -/
def assembled (snapshot : PartitionId → TxnId → Option Storage) (id : TxnId) (p : PartitionId)
    (qs : List PartitionId) : List KeyValueEntry :=
  qs.foldl (fun keys q => applyReads c.type keys (sentKeys c txns snapshot id q))
    (sentKeys c txns snapshot id p)

variable {c txns}

theorem assembled_concat (snapshot : PartitionId → TxnId → Option Storage) (id : TxnId)
    (p q : PartitionId) (qs : List PartitionId) :
    assembled c txns snapshot id p (qs ++ [q]) =
      applyReads c.type (assembled c txns snapshot id p qs) (sentKeys c txns snapshot id q) := by
  rw [assembled, foldl_append]
  rfl

theorem assembled_congr {snapshot snapshot' : PartitionId → TxnId → Option Storage} {p : PartitionId}
    {qs : List PartitionId} (h : ∀ q ∈ p :: qs, snapshot q id = snapshot' q id) :
    assembled c txns snapshot id p qs = assembled c txns snapshot' id p qs := by
  induction qs using List.reverseRecOn with
  | nil => simp only [assembled, foldl_nil, sentKeys, h p mem_cons_self]
  | append_singleton qs q ih =>
    have hq : snapshot q id = snapshot' q id := h q (by simp)
    have hqs : ∀ q' ∈ p :: qs, snapshot q' id = snapshot' q' id := by
      intro q' hq'
      rcases mem_cons.mp hq' with rfl | hq'
      · exact h q' mem_cons_self
      · exact h q' (by simp [hq'])
    rw [assembled_concat, assembled_concat, ih hqs, sentKeys, sentKeys, hq]

/-- The value of a key that the worker of `q` sends: none if it does not own the key. -/
def sentValue (c : WorkerConfig) (snapshot : PartitionId → TxnId → Option Storage) (id : TxnId)
    (q : PartitionId) (k : Key) : Value :=
  if c.sharder.computePartition k = some q then
    storedValue ((snapshot q id).getD fun _ => none) k else ""

theorem sentKeys_eq (ht : Submitted c.sharder (txns id))
    (snapshot : PartitionId → TxnId → Option Storage) (q : PartitionId) :
    sentKeys c txns snapshot id q = withValues (txns id).keys (sentValue c snapshot id q) := by
  refine map_congr_left fun kv hkv => ?_
  have hempty := ht.noValues kv hkv
  rw [readKey, sentValue, storedValue]
  split_ifs with hown
  · cases ((snapshot q id).getD fun _ => none) kv.key with
    | none => simp [← hempty]
    | some record => rfl
  · simp [← hempty]

/-- **Merged reads**: a key has the value of its owner if the owner's reads were applied. -/
theorem assembled_of_merges (hmerge : c.type.mergesReads = true) (ht : Submitted c.sharder (txns id))
    (snapshot : PartitionId → TxnId → Option Storage) (p : PartitionId) (qs : List PartitionId) :
    ∃ f, assembled c txns snapshot id p qs = withValues (txns id).keys f ∧
      ∀ k q, c.sharder.computePartition k = some q → k ∈ (txns id).keys.map (·.key) →
        f k = if q ∈ p :: qs then sentValue c snapshot id q k else "" := by
  induction qs using List.reverseRecOn with
  | nil =>
    refine ⟨sentValue c snapshot id p, sentKeys_eq ht snapshot p, fun k q hk _ => ?_⟩
    by_cases hq : q = p
    · simp [hq]
    · simp [sentValue, hk, hq]
  | append_singleton qs r ih =>
    obtain ⟨f, hf, hval⟩ := ih
    refine ⟨fun k => if k ∈ (txns id).keys.map (·.key) ∧ sentValue c snapshot id r k ≠ "" then
      sentValue c snapshot id r k else f k, ?_, fun k q hk hmem => ?_⟩
    · rw [assembled_concat, hf, sentKeys_eq ht, applyReads, if_pos hmerge,
        foldl_mergeRead ht.nodup _ _ (fun kv hkv => mem_map_of_mem hkv)]
    · dsimp only
      rw [hval k q hk hmem]
      by_cases hq : q = r
      · subst hq
        by_cases hv : sentValue c snapshot id q k = ""
        · simp [hv]
        · simp [hmem, hv]
      · have hnone : sentValue c snapshot id r k = "" := by
          rw [sentValue, if_neg]
          rw [hk]
          exact fun h => hq (Option.some_inj.mp h)
        simp [hnone, hq]

/-- **Appended reads**: a key is there once for every partition. -/
theorem count_assembled_of_appends (happ : c.type.mergesReads = false) (id : TxnId)
    (snapshot : PartitionId → TxnId → Option Storage) (p : PartitionId) (qs : List PartitionId)
    (k : Key) :
    ((assembled c txns snapshot id p qs).map (·.key)).count k =
      (qs.length + 1) * ((txns id).keys.map (·.key)).count k := by
  have hsent (q : PartitionId) : (sentKeys c txns snapshot id q).map (·.key) =
      (txns id).keys.map (·.key) := by
    rw [sentKeys, map_map]
    refine map_congr_left fun kv _ => ?_
    rw [comp_apply, readKey]
    split_ifs
    · cases ((snapshot q id).getD fun _ => none) kv.key <;> rfl
    · rfl
  induction qs using List.reverseRecOn with
  | nil => simp [assembled, hsent]
  | append_singleton qs q ih =>
    rw [assembled_concat, applyReads, happ, if_neg Bool.false_ne_true, map_append,
      count_append, ih, hsent, length_append, length_singleton]
    ring

end Workers

end Janus
