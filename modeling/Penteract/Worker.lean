/-
# Workers

A worker takes a dispatched transaction through its phases: it reads the local keys, sends them to
the other partitions, waits for theirs, executes, and hands the transaction back.  Whether a
transaction aborts is found out while reading, here or at another partition, and has to be
respected by the phase that executes.  It is for code, and it is not for a remaster.
-/
import Penteract.RemasterManager

namespace Slog

open Option Function

inductive LockManagerKind where
  | ddr
  | rma
  | old
  deriving DecidableEq, Repr

inductive RemasterProtocol where
  | simple
  | perKey
  | counterless
  deriving DecidableEq, Repr

/-- A transaction and whether it is dispatched because it was in a deadlock. -/
abbrev RunId := TxnId × Bool

structure RemoteReadResult where
  txnId : TxnId
  deadlocked : Bool
  partition : PartitionId
  willAbort : Bool
  abortReason : String
  reads : List KeyValueEntry
  deriving DecidableEq, Repr

inductive WorkerPhase where
  | readLocalStorage
  | waitRemoteRead
  | execute
  | finish
  deriving DecidableEq, Repr

/-- The counter of remote reads is unsigned. -/
def decrement (n : ℕ) : ℕ := if n = 0 then 2 ^ 32 - 1 else n - 1

structure TransactionState where
  remoteReadsWaitingOn : ℕ := 0
  phase : WorkerPhase := .readLocalStorage
  deriving DecidableEq, Repr

/-- What a worker sends: reads to other partitions, redirections to its broker, the transaction to
the server that coordinates it, and to the scheduler that the transaction is done. -/
inductive WorkerMessage where
  | remoteRead (dst : PartitionId) (result : RemoteReadResult)
  | startRedirection (run : RunId)
  | stopRedirection (run : RunId)
  | finishedSubtxn (t : Transaction)
  | done (id : TxnId) (remasterResult : Option (Key × ℕ))
  deriving DecidableEq, Repr

/-- How the worker was built and configured.  `execution` stands for any of the execution types. -/
structure WorkerConfig where
  localPartition : PartitionId
  lockManager : LockManagerKind
  remasterProtocol : RemasterProtocol
  execution : Transaction → Storage → Transaction × Storage

namespace Transaction

def abort (t : Transaction) (reason : String) : Transaction :=
  { t with status := .aborted, abortReason := reason }

/-- The partitions that wait for the reads of the others. -/
def waitingPartitions (c : WorkerConfig) (t : Transaction) : List PartitionId :=
  if c.lockManager = .ddr then t.internal.involvedPartitions else t.internal.activePartitions

/-- The first switch of `ReadLocalStorage`: `none` is the fatal error on a counter that is ahead,
or the failed check of `CheckCounters`. -/
def verifyCounters (c : WorkerConfig) (t : Transaction) (storage : Storage) : Option Transaction :=
  if c.remasterProtocol = .counterless then some t
  else
    match t.checkCounters false storage with
    | some .valid => some t
    | some .abort => some (t.abort "outdated counter")
    | some .waiting => none
    | none => none

/-- The loop of `ReadLocalStorage` over the keys: the keys with the values read so far and, if the
loop was left early, the reason. -/
def readKeys (storage : Storage) (isRemaster : Bool) :
    List KeyValueEntry → List KeyValueEntry × Option String
  | [] => ([], none)
  | kv :: rest =>
    match storage kv.key with
    | some record =>
      if kv.master ≠ record.metadata.master then (kv :: rest, some "outdated master")
      else
        let r := readKeys storage isRemaster rest
        ({ kv with value := record.value } :: r.1, r.2)
    | none =>
      if isRemaster then (kv :: rest, some ("remaster non-existent key " ++ kv.key))
      else
        let r := readKeys storage isRemaster rest
        (kv :: r.1, r.2)

def readValues (t : Transaction) (storage : Storage) : Transaction :=
  let r := readKeys storage t.isRemaster t.keys
  match r.2 with
  | none => { t with keys := r.1 }
  | some reason => { t with keys := r.1 }.abort reason

/-- What `ReadLocalStorage` does to the transaction. -/
def readLocal (c : WorkerConfig) (t : Transaction) (storage : Storage) : Option Transaction :=
  if t.status = .aborted then some t
  else (t.verifyCounters c storage).map fun t => t.readValues storage

/-- The remote reads are appended to the keys. -/
def applyRemoteRead (t : Transaction) (result : RemoteReadResult) : Transaction :=
  if t.status = .aborted then t
  else if result.willAbort then t.abort result.abortReason
  else { t with keys := t.keys ++ result.reads }

/-- What `Execute` does to the transaction and the storage.  `none` reads the first of no keys. -/
def executeProgram (c : WorkerConfig) (t : Transaction) (storage : Storage) :
    Option (Transaction × Storage × Option (Key × ℕ)) :=
  match t.program with
  | .code _ =>
    if t.status = .aborted then some (t, storage, none)
    else
      let r := c.execution t storage
      some (r.1, r.2, none)
  | .remaster newMaster _ =>
    match t.keys with
    | [] => none
    | kv :: _ =>
      let record := (storage kv.key).getD {}
      let newCounter := kv.counter + 1
      let metadata := { master := newMaster, counter := newCounter }
      some ({ t with status := .committed },
        update storage kv.key (some { record with metadata }),
        some (kv.key, newCounter))

end Transaction

/-- The workers of a partition.  A holder has the transaction until it is finished; both dispatches
of a transaction share it. -/
structure Worker where
  holders : TxnId → Option Transaction := fun _ => none
  txnStates : RunId → Option TransactionState := fun _ => none
  storage : Storage := fun _ => none
  outbox : List WorkerMessage := []

namespace Worker

variable (c : WorkerConfig)

def setTxn (w : Worker) (id : TxnId) (t : Option Transaction) : Worker :=
  { w with holders := update w.holders id t }

def setState (w : Worker) (run : RunId) (state : Option TransactionState) : Worker :=
  { w with txnStates := update w.txnStates run state }

def send (w : Worker) (messages : List WorkerMessage) : Worker :=
  { w with outbox := w.outbox ++ messages }

/-- `BroadcastReads`. -/
def broadcastReads (run : RunId) (t : Transaction) : List WorkerMessage :=
  let aborted : Bool := t.status = .aborted
  let result : RemoteReadResult :=
    { txnId := run.1, deadlocked := run.2, partition := c.localPartition, willAbort := aborted,
      abortReason := t.abortReason, reads := if aborted then [] else t.keys }
  ((t.waitingPartitions c).filter (· ≠ c.localPartition)).map (.remoteRead · result)

/-- The number of remote reads that the partition has to wait for. -/
def numRemoteReads (t : Transaction) : ℕ :=
  if c.localPartition ∈ t.waitingPartitions c then t.internal.involvedPartitions.length - 1 else 0

def readLocalStorage (w : Worker) (run : RunId) : Option Worker :=
  (w.holders run.1).bind fun t =>
    (t.readLocal c w.storage).map fun t =>
      let w := (w.setTxn run.1 (some t)).send (broadcastReads c run t)
      let n := numRemoteReads c t
      if n = 0 then w.setState run (some ⟨n, .execute⟩)
      else (w.send [.startRedirection run]).setState run (some ⟨n, .waitRemoteRead⟩)

def execute (w : Worker) (run : RunId) : Option (Worker × Option (Key × ℕ)) :=
  (w.holders run.1).bind fun t =>
    (t.executeProgram c w.storage).map fun (t, storage, remasterResult) =>
      ({ w.setTxn run.1 (some t) with storage }, remasterResult)

def finish (w : Worker) (run : RunId) (remasterResult : Option (Key × ℕ)) : Option Worker :=
  (w.holders run.1).map fun t =>
    ((w.setTxn run.1 none).send [.finishedSubtxn t, .done run.1 remasterResult]).setState run none

/-- The phases after the reads. -/
def advanceFrom (w : Worker) (run : RunId) : WorkerPhase → Option Worker
  | .readLocalStorage => none
  | .waitRemoteRead => some w
  | .execute => (w.execute c run).bind fun (w, result) => w.finish run result
  | .finish => w.finish run none

/-- `AdvanceTransaction`. -/
def advanceTransaction (w : Worker) (run : RunId) : Option Worker :=
  (w.txnStates run).bind fun state =>
    if state.phase = .readLocalStorage then
      (w.readLocalStorage c run).bind fun w =>
        (w.txnStates run).bind fun state => w.advanceFrom c run state.phase
    else w.advanceFrom c run state.phase

/-- `OnCustomSocket`: the scheduler dispatches a transaction. -/
def onCustomSocket (w : Worker) (run : RunId) : Option Worker :=
  (w.holders run.1).bind fun _ =>
    -- a second dispatch takes over from the first
    let old : RunId := (run.1, false)
    let w := if run.2 ∧ (w.txnStates old).isSome then
        (w.setState old none).send [.stopRedirection old] else w
    if (w.txnStates run).isSome then none
    else (w.setState run (some {})).advanceTransaction c run

/-- `OnInternalRequestReceived`.  `none` is the fatal error on a phase that does not wait. -/
def onInternalRequestReceived (w : Worker) (result : RemoteReadResult) : Option Worker :=
  let run : RunId := (result.txnId, result.deadlocked)
  match w.txnStates run with
  | none => some w
  | some state =>
    (w.holders run.1).bind fun t =>
      let w := w.setTxn run.1 (some (t.applyRemoteRead result))
      let n := decrement state.remoteReadsWaitingOn
      if n = 0 then
        if state.phase = .waitRemoteRead then
          ((w.setState run (some ⟨n, .execute⟩)).send [.stopRedirection run]).advanceTransaction
            c run
        else none
      else (w.setState run (some ⟨n, state.phase⟩)).advanceTransaction c run

/-! ## What a call does to the transaction and to the storage -/

def finished (w : Worker) : List Transaction :=
  w.outbox.filterMap fun
    | .finishedSubtxn t => some t
    | _ => none

@[simp] theorem setState_holders (w : Worker) (run : RunId) (state : Option TransactionState) :
    (w.setState run state).holders = w.holders := rfl

@[simp] theorem setState_storage (w : Worker) (run : RunId) (state : Option TransactionState) :
    (w.setState run state).storage = w.storage := rfl

@[simp] theorem setState_txnStates (w : Worker) (run : RunId) (state : Option TransactionState) :
    (w.setState run state).txnStates = update w.txnStates run state := rfl

@[simp] theorem setState_finished (w : Worker) (run : RunId) (state : Option TransactionState) :
    (w.setState run state).finished = w.finished := rfl

@[simp] theorem send_holders (w : Worker) (ms : List WorkerMessage) :
    (w.send ms).holders = w.holders := rfl

@[simp] theorem send_storage (w : Worker) (ms : List WorkerMessage) :
    (w.send ms).storage = w.storage := rfl

@[simp] theorem send_txnStates (w : Worker) (ms : List WorkerMessage) :
    (w.send ms).txnStates = w.txnStates := rfl

@[simp] theorem setTxn_storage (w : Worker) (id : TxnId) (t : Option Transaction) :
    (w.setTxn id t).storage = w.storage := rfl

@[simp] theorem setTxn_holders (w : Worker) (id : TxnId) (t : Option Transaction) :
    (w.setTxn id t).holders = update w.holders id t := rfl

@[simp] theorem setTxn_finished (w : Worker) (id : TxnId) (t : Option Transaction) :
    (w.setTxn id t).finished = w.finished := rfl

theorem send_finished (w : Worker) (ms : List WorkerMessage) :
    (w.send ms).finished = w.finished ++ (Worker.mk w.holders w.txnStates w.storage ms).finished :=
  List.filterMap_append

@[simp] theorem send_redirection_finished (w : Worker) (run : RunId) :
    (w.send [.startRedirection run]).finished = w.finished ∧
      (w.send [.stopRedirection run]).finished = w.finished := by
  constructor <;> rw [send_finished] <;> exact List.append_nil _

@[simp] theorem send_broadcastReads_finished (w : Worker) (run : RunId) (t : Transaction) :
    (w.send (broadcastReads c run t)).finished = w.finished := by
  rw [send_finished]
  simp [finished, broadcastReads, List.filterMap_map, comp_def]

variable {c}

/-- The runs that wait after a call are those that did before it, the run `run` of the call
apart. -/
def StatesFrom (w w' : Worker) (run : RunId) : Prop :=
  ∀ r state, w'.txnStates r = some state →
    state.phase = .waitRemoteRead ∨ r ≠ run ∧ w.txnStates r = some state

/-- The transaction `t` of the run `run`, with all the reads that have arrived, waits for more, or
is executed and given back. -/
inductive Advances (c : WorkerConfig) (w w' : Worker) (run : RunId) (t : Transaction) : Prop where
  | waits (hholders : w'.holders = update w.holders run.1 (some t))
      (hstorage : w'.storage = w.storage) (hfinished : w'.finished = w.finished)
      (hstates : StatesFrom w w' run)
  | executes (t' : Transaction) (result : Option (Key × ℕ))
      (hexec : t.executeProgram c w.storage = some (t', w'.storage, result))
      (hholders : w'.holders = update w.holders run.1 none)
      (hfinished : w'.finished = w.finished ++ [t'])
      (hstates : StatesFrom w w' run)

variable {w w' w₀ : Worker} {run : RunId} {t : Transaction}

theorem advances_of_execute (ht : w.holders run.1 = some t) (h : w.advanceFrom c run .execute = some w') :
    Advances c w w' run t := by
  obtain ⟨⟨w₁, result⟩, hw₁, hw'⟩ := bind_eq_some_iff.mp h
  rw [execute, ht, bind_some, map_eq_some_iff] at hw₁
  obtain ⟨⟨t', storage, result'⟩, hexec, heq⟩ := hw₁
  obtain ⟨rfl, rfl⟩ := Prod.mk.inj heq
  have ht' : ({ w.setTxn run.1 (some t') with storage } : Worker).holders run.1 = some t' :=
    update_self ..
  dsimp only at hw'
  rw [finish, ht', map_some, some_inj] at hw'
  subst hw'
  refine .executes t' result' hexec ?_ ?_ ?_
  · simp [setTxn]
  · rw [setState_finished, send_finished]
    rfl
  · intro r state hr
    rcases eq_or_ne r run with rfl | hne
    · simp at hr
    · rw [setState_txnStates, update_of_ne hne] at hr
      exact .inr ⟨hne, hr⟩

/-- What happened before the phases were advanced does not matter, as far as it concerns only the
state of the run. -/
theorem Advances.of_eq (h : Advances c w₀ w' run t)
    (hholders : ∀ x, update w₀.holders run.1 x = update w.holders run.1 x)
    (hstorage : w₀.storage = w.storage) (hfinished : w₀.finished = w.finished)
    (hstates : ∀ r ≠ run, ∀ state, w₀.txnStates r = some state → w.txnStates r = some state) :
    Advances c w w' run t := by
  have htrans (h' : StatesFrom w₀ w' run) : StatesFrom w w' run := by
    intro r state hr
    rcases h' r state hr with hp | ⟨hne, hr'⟩
    · exact .inl hp
    · exact .inr ⟨hne, hstates r hne state hr'⟩
  cases h with
  | waits h₁ h₂ h₃ h₄ =>
    exact .waits (h₁.trans (hholders _)) (h₂.trans hstorage) (h₃.trans hfinished) (htrans h₄)
  | executes t' result h₁ h₂ h₃ h₄ =>
    exact .executes t' result (hstorage ▸ h₁) (h₂.trans (hholders _)) (hfinished ▸ h₃)
      (htrans h₄)

theorem statesFrom_update {n : ℕ}
    (hw₀ : w₀.txnStates = update w.txnStates run (some ⟨n, .waitRemoteRead⟩)) :
    StatesFrom w w₀ run := by
  intro r state hr
  rw [hw₀] at hr
  rcases eq_or_ne r run with rfl | hne
  · rw [update_self, some_inj] at hr
    exact .inl (hr ▸ rfl)
  · rw [update_of_ne hne] at hr
    exact .inr ⟨hne, hr⟩

/-- Reading the local storage and what follows it. -/
theorem advances_of_read (ht : w.holders run.1 = some t) (hstate : w.txnStates run = some {})
    (h : w.advanceTransaction c run = some w') :
    ∃ t', t.readLocal c w.storage = some t' ∧ Advances c w w' run t' := by
  rw [advanceTransaction, hstate, bind_some, if_pos rfl, readLocalStorage, ht,
    bind_some, bind_map, bind_eq_some_iff] at h
  obtain ⟨t', ht', h⟩ := h
  refine ⟨t', ht', ?_⟩
  dsimp only [comp_apply] at h
  split_ifs at h with hn
  · rw [setState_txnStates, update_self, bind_some] at h
    refine (advances_of_execute (t := t') ?_ h).of_eq (fun x => ?_) rfl ?_ fun r hne state hr => ?_
    · simp
    · simp
    · simp
    · rwa [setState_txnStates, update_of_ne hne] at hr
  · rw [setState_txnStates, update_self, bind_some, advanceFrom,
      some_inj] at h
    subst h
    exact .waits (by simp) (by simp) (by simp) (statesFrom_update (setState_txnStates ..))

theorem advances_of_onCustomSocket (h : w.onCustomSocket c run = some w') :
    ∃ t t', w.holders run.1 = some t ∧ t.readLocal c w.storage = some t' ∧
      Advances c w w' run t' := by
  obtain ⟨t, ht, h⟩ := bind_eq_some_iff.mp h
  dsimp only at h
  set w₀ := if run.2 ∧ (w.txnStates (run.1, false)).isSome then
    (w.setState (run.1, false) none).send [.stopRedirection (run.1, false)] else w with hw₀
  have hholders : w₀.holders = w.holders := by rw [hw₀]; split_ifs <;> rfl
  have hstorage : w₀.storage = w.storage := by rw [hw₀]; split_ifs <;> rfl
  have hfinished : w₀.finished = w.finished := by
    rw [hw₀]
    split_ifs
    · simp
    · rfl
  have hstates (r : RunId) (state : TransactionState) (hr : w₀.txnStates r = some state) :
      w.txnStates r = some state := by
    rw [hw₀] at hr
    split_ifs at hr
    · rcases eq_or_ne r (run.1, false) with rfl | hne
      · simp at hr
      · rwa [send_txnStates, setState_txnStates, update_of_ne hne] at hr
    · exact hr
  split_ifs at h
  obtain ⟨t', ht', hadv⟩ := advances_of_read (t := t) (by simp [hholders, ht]) (by simp) h
  refine ⟨t, t', ht, hstorage ▸ ht',
    hadv.of_eq (fun x => ?_) hstorage hfinished fun r hne state hr => hstates r state ?_⟩
  · rw [setState_holders, hholders]
  · rwa [setState_txnStates, update_of_ne hne] at hr

theorem advances_of_onInternalRequestReceived {result : RemoteReadResult} {state : TransactionState}
    (hstate : w.txnStates (result.txnId, result.deadlocked) = some state)
    (hphase : state.phase = .waitRemoteRead) (h : w.onInternalRequestReceived c result = some w') :
    ∃ t, w.holders result.txnId = some t ∧
      Advances c w w' (result.txnId, result.deadlocked) (t.applyRemoteRead result) := by
  rw [onInternalRequestReceived, hstate] at h
  obtain ⟨t, ht, h⟩ := bind_eq_some_iff.mp h
  refine ⟨t, ht, ?_⟩
  dsimp only at h
  rw [hphase, if_pos rfl] at h
  split_ifs at h with hn
  · rw [advanceTransaction, send_txnStates, setState_txnStates, update_self,
      bind_some, if_neg (by simp)] at h
    refine (advances_of_execute (t := t.applyRemoteRead result) ?_ h).of_eq (fun x => ?_) rfl ?_
      fun r hne state hr => ?_
    · simp
    · simp
    · simp
    · rwa [send_txnStates, setState_txnStates, update_of_ne hne] at hr
  · rw [advanceTransaction, setState_txnStates, update_self,
      bind_some, if_neg (by simp), advanceFrom, some_inj] at h
    subst h
    exact .waits (by simp) (by simp) (by simp) (statesFrom_update (setState_txnStates ..))

end Worker

end Slog
