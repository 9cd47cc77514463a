/-
# Aborted transactions

Over every run of the workers of a partition: a transaction that was marked as aborted while it was
read stays aborted until it is given back, and is given back without a change to the storage,
exactly if it is not a remaster.
-/
import Penteract.Worker

namespace Slog

open List Option Function

namespace Transaction

variable {c : WorkerConfig} {t t' : Transaction} {storage storage' : Storage}
  {result : Option (Key × ℕ)}

theorem status_readLocal (ht : t.status = .aborted) (h : t.readLocal c storage = some t') :
    t'.status = .aborted := by
  rw [readLocal, if_pos ht, some_inj] at h
  exact h ▸ ht

theorem status_applyRemoteRead (r : RemoteReadResult) (ht : t.status = .aborted) :
    (t.applyRemoteRead r).status = .aborted := by
  rwa [applyRemoteRead, if_pos ht]

/-- **Executing an aborted transaction** leaves it aborted and the storage unchanged if and only if
it is not a remaster. -/
theorem executeProgram_inert (ht : t.status = .aborted)
    (h : t.executeProgram c storage = some (t', storage', result)) :
    (t'.status = .aborted ∧ storage' = storage) ↔ t'.isRemaster = false := by
  unfold executeProgram at h
  cases hp : t.program with
  | code procedures =>
    rw [hp] at h
    dsimp only at h
    rw [if_pos ht, some_inj] at h
    obtain ⟨rfl, hrest⟩ := Prod.mk.inj h
    obtain ⟨rfl, -⟩ := Prod.mk.inj hrest
    simp [ht, isRemaster, hp]
  | remaster newMaster lockOnly =>
    rw [hp] at h
    dsimp only at h
    cases hk : t.keys with
    | nil => simp [hk] at h
    | cons kv rest =>
      rw [hk] at h
      obtain ⟨rfl, -⟩ := Prod.mk.inj (some_inj.mp h)
      simp [isRemaster, hp]

end Transaction

/-! ## Runs of the workers of a partition -/

inductive WorkerEvent where
  | arrive (t : Transaction)
  | dispatch (run : RunId)
  | remoteRead (result : RemoteReadResult)
  /-- Another transaction writes or deletes a record. -/
  | store (key : Key) (record : Option Record)

/-- A transaction that was given back, with the storage before and after the call that did it. -/
structure Returned where
  id : TxnId
  txn : Transaction
  before : Storage
  after : Storage

/-- Still aborted, and nothing was written. -/
def Returned.Inert (r : Returned) : Prop := r.txn.status = .aborted ∧ r.after = r.before

/-- `seen` are the transactions that arrived, `marked` those that were marked as aborted by reading
the local storage or by a remote partition. -/
structure WorkerRun where
  worker : Worker
  seen : List TxnId := []
  marked : List TxnId := []
  returned : List Returned := []

namespace WorkerRun

variable (c : WorkerConfig)

/-- The network has taken the messages of the worker. -/
def flushed (s : WorkerRun) : Worker := { s.worker with outbox := [] }

/-- After a call for the transaction `id` that read it as `t`. -/
def record (s : WorkerRun) (id : TxnId) (t : Option Transaction) (w : Worker) : WorkerRun :=
  { s with
    worker := w
    marked := if t.any (·.status = .aborted) then id :: s.marked else s.marked
    returned := s.returned ++ w.finished.map (⟨id, ·, s.worker.storage, w.storage⟩) }

def step (s : WorkerRun) (e : WorkerEvent) : Option WorkerRun :=
  let w := s.flushed
  match e with
  | .arrive t =>
    if t.id ∈ s.seen then none
    else some { s with worker := w.setTxn t.id (some t), seen := t.id :: s.seen }
  | .dispatch run =>
    (w.onCustomSocket c run).map
      (s.record run.1 ((w.holders run.1).bind fun t => t.readLocal c w.storage))
  | .remoteRead result =>
    (w.onInternalRequestReceived c result).map (s.record result.txnId
      (if (w.txnStates (result.txnId, result.deadlocked)).isSome then
        (w.holders result.txnId).map (·.applyRemoteRead result) else none))
  | .store key record =>
    some { s with worker := { w with storage := Function.update w.storage key record } }

def init (storage : Storage) : WorkerRun := { worker := { storage } }

structure Inv (s : WorkerRun) : Prop where
  waits : ∀ run state, s.worker.txnStates run = some state → state.phase = .waitRemoteRead
  seen : ∀ id t, s.worker.holders id = some t → id ∈ s.seen
  markedSeen : ∀ id ∈ s.marked, id ∈ s.seen
  gone : ∀ r ∈ s.returned, s.worker.holders r.id = none ∧ r.id ∈ s.seen
  aborted : ∀ id ∈ s.marked, ∀ t, s.worker.holders id = some t → t.status = .aborted
  inert : ∀ r ∈ s.returned, r.id ∈ s.marked → (r.Inert ↔ r.txn.isRemaster = false)

variable {c}

theorem inv_init (storage : Storage) : Inv (init storage) where
  waits := fun _ _ h => nomatch h
  seen := fun _ _ h => nomatch h
  markedSeen := fun _ h => nomatch h
  gone := fun _ h => nomatch h
  aborted := fun _ h => nomatch h
  inert := fun _ h => nomatch h

theorem flushed_finished (s : WorkerRun) : s.flushed.finished = [] := rfl

/-- A message that no run waits for changes nothing. -/
theorem record_none (s : WorkerRun) (id : TxnId) :
    s.record id none s.flushed = { s with worker := s.flushed } := by
  simp [record, flushed_finished]

variable {s : WorkerRun} {t : Transaction} {w : Worker}

theorem mem_marked_record {id id' : TxnId} :
    id' ∈ (s.record id (some t) w).marked ↔
      id' = id ∧ t.status = .aborted ∨ id' ∈ s.marked := by
  simp only [record, any_some, decide_eq_true_eq]
  split_ifs with ht
  · simp [ht]
  · simp [ht]

/-- A call for a transaction: the transaction is read as `t'`, and is still aborted if it was. -/
theorem Inv.record (hs : Inv s) {run : RunId} {t' : Transaction} (ht : s.worker.holders run.1 = some t)
    (hstatus : t.status = .aborted → t'.status = .aborted) (hadv : Worker.Advances c s.flushed w run t') :
    Inv (s.record run.1 (some t') w) := by
  -- the transaction of the call has not been given back before
  have hfresh : ∀ r ∈ s.returned, r.id ≠ run.1 := by
    intro r hr heq
    have := (hs.gone r hr).1
    rw [heq, ht] at this
    cases this
  have hmarked : ∀ r ∈ s.returned, r.id ∈ (s.record run.1 (some t') w).marked → r.id ∈ s.marked :=
    fun r hr h => (mem_marked_record.mp h).resolve_left fun h' => hfresh r hr h'.1
  have habort : run.1 ∈ (s.record run.1 (some t') w).marked → t'.status = .aborted := by
    intro h
    rcases mem_marked_record.mp h with ⟨_, h'⟩ | h'
    · exact h'
    · exact hstatus (hs.aborted _ h' t ht)
  have hseen : ∀ id ∈ (s.record run.1 (some t') w).marked, id ∈ s.seen := by
    intro id hid
    rcases mem_marked_record.mp hid with ⟨rfl, -⟩ | hid
    · exact hs.seen _ t ht
    · exact hs.markedSeen id hid
  have hwaits (hstates : Worker.StatesFrom s.flushed w run) :
      ∀ run' state, w.txnStates run' = some state → state.phase = .waitRemoteRead := by
    intro run' state h
    rcases hstates run' state h with h' | ⟨-, h'⟩
    · exact h'
    · exact hs.waits run' state h'
  cases hadv with
  | waits hholders hstorage hfinished hstates =>
    have hreturned : (s.record run.1 (some t') w).returned = s.returned := by
      rw [WorkerRun.record, hfinished, flushed_finished]
      simp
    refine ⟨hwaits hstates, fun id u hu => ?_, hseen, fun r hr => ?_, fun id hid u hu => ?_,
      fun r hr hid => ?_⟩
    · change w.holders id = some u at hu
      rw [hholders] at hu
      rcases eq_or_ne id run.1 with rfl | hne
      · exact hs.seen _ t ht
      · rw [update_of_ne hne] at hu
        exact hs.seen id u hu
    · rw [hreturned] at hr
      refine ⟨?_, (hs.gone r hr).2⟩
      change w.holders r.id = none
      rw [hholders, update_of_ne (hfresh r hr)]
      exact (hs.gone r hr).1
    · change w.holders id = some u at hu
      rw [hholders] at hu
      rcases eq_or_ne id run.1 with rfl | hne
      · rw [update_self, some_inj] at hu
        exact hu ▸ habort hid
      · rw [update_of_ne hne] at hu
        exact hs.aborted id ((mem_marked_record.mp hid).resolve_left fun h => hne h.1) u hu
    · rw [hreturned] at hr
      exact hs.inert r hr (hmarked r hr hid)
  | executes t'' result hexec hholders hfinished hstates =>
    have hreturned : (s.record run.1 (some t') w).returned =
        s.returned ++ [⟨run.1, t'', s.worker.storage, w.storage⟩] := by
      rw [WorkerRun.record, hfinished, flushed_finished]
      simp
    refine ⟨hwaits hstates, fun id u hu => ?_, hseen, fun r hr => ?_, fun id hid u hu => ?_,
      fun r hr hid => ?_⟩
    · change w.holders id = some u at hu
      rw [hholders] at hu
      rcases eq_or_ne id run.1 with rfl | hne
      · exact hs.seen _ t ht
      · rw [update_of_ne hne] at hu
        exact hs.seen id u hu
    · change w.holders r.id = none ∧ r.id ∈ s.seen
      rw [hreturned, mem_append, mem_singleton] at hr
      rw [hholders]
      rcases hr with hr | rfl
      · rw [update_of_ne (hfresh r hr)]
        exact hs.gone r hr
      · exact ⟨update_self .., hs.seen _ t ht⟩
    · change w.holders id = some u at hu
      rw [hholders] at hu
      rcases eq_or_ne id run.1 with rfl | hne
      · rw [update_self] at hu
        cases hu
      · rw [update_of_ne hne] at hu
        exact hs.aborted id ((mem_marked_record.mp hid).resolve_left fun h => hne h.1) u hu
    · rw [hreturned, mem_append, mem_singleton] at hr
      rcases hr with hr | rfl
      · exact hs.inert r hr (hmarked r hr hid)
      · exact Transaction.executeProgram_inert (habort hid) hexec

theorem Inv.step {s' : WorkerRun} {e : WorkerEvent} (hs : Inv s) (h : step c s e = some s') :
    Inv s' := by
  cases e with
  | arrive t =>
    rw [WorkerRun.step] at h
    split_ifs at h with hseen
    cases h
    refine ⟨hs.waits, fun id u hu => ?_, fun id hid => mem_cons_of_mem _ (hs.markedSeen id hid),
      fun r hr => ?_, fun id hid u hu => ?_, hs.inert⟩
    · rcases eq_or_ne id t.id with rfl | hne
      · exact mem_cons_self
      · refine mem_cons_of_mem _ (hs.seen id u ?_)
        rwa [Worker.setTxn_holders, update_of_ne hne] at hu
    · have hr' := hs.gone r hr
      have hne : r.id ≠ t.id := fun heq => hseen (heq ▸ hr'.2)
      refine ⟨?_, mem_cons_of_mem _ hr'.2⟩
      rw [Worker.setTxn_holders, update_of_ne hne]
      exact hr'.1
    · have hne : id ≠ t.id := fun heq => hseen (heq ▸ hs.markedSeen id hid)
      rw [Worker.setTxn_holders, update_of_ne hne] at hu
      exact hs.aborted id hid u hu
  | dispatch run =>
    obtain ⟨w, hw, rfl⟩ := map_eq_some_iff.mp h
    obtain ⟨t, t', ht, ht', hadv⟩ := Worker.advances_of_onCustomSocket hw
    rw [ht, bind_some, ht']
    exact hs.record ht (fun hab => Transaction.status_readLocal hab ht') hadv
  | remoteRead result =>
    obtain ⟨w, hw, rfl⟩ := map_eq_some_iff.mp h
    cases hstate : s.flushed.txnStates (result.txnId, result.deadlocked) with
    | none =>
      rw [Worker.onInternalRequestReceived, hstate] at hw
      cases hw
      rw [isSome_none, if_neg Bool.false_ne_true, record_none]
      exact ⟨hs.waits, hs.seen, hs.markedSeen, hs.gone, hs.aborted, hs.inert⟩
    | some state =>
      obtain ⟨t, ht, hadv⟩ := Worker.advances_of_onInternalRequestReceived hstate
        (hs.waits _ _ hstate) hw
      rw [isSome_some, if_pos rfl, ht, map_some]
      have hrun : s.worker.holders (result.txnId, result.deadlocked).1 = some t := ht
      exact hs.record hrun (Transaction.status_applyRemoteRead result) hadv
  | store key record =>
    cases h
    exact ⟨hs.waits, hs.seen, hs.markedSeen, hs.gone, hs.aborted, hs.inert⟩

/-- **Aborted transactions.**  In every state that is reached from any database, a transaction that
was marked as aborted is aborted as long as it is there; and one that was given back is still
aborted and has written nothing if and only if it is not a remaster. -/
theorem inert_iff_not_remaster {storage : Storage} {s : WorkerRun}
    (h : Lts.Reachable (step c) (init storage) s) :
    (∀ id ∈ s.marked, ∀ t, s.worker.holders id = some t → t.status = .aborted) ∧
      ∀ r ∈ s.returned, r.id ∈ s.marked → (r.Inert ↔ r.txn.isRemaster = false) := by
  have hs : Inv s := Lts.invariant (step c) (inv_init storage) (fun _ _ _ hs => hs.step) h
  exact ⟨hs.aborted, hs.inert⟩

/-- A worker with an execution that always commits. -/
def committing : WorkerConfig where
  localPartition := 0
  lockManager := .ddr
  remasterProtocol := .counterless
  execution := fun t storage => ({ t with status := .committed }, storage)

/-- Two keys at two partitions. -/
def twoKeys : Transaction where
  internal := { id := 1, involvedPartitions := [0, 1], activePartitions := [0, 1] }
  program := .code [["SET", "A", "1"]]
  keys := [{ key := "A", type := .write, metadata := some { master := 0 } }]

/-- The other partition has found out that the transaction has to abort. -/
def remoteAbort : RemoteReadResult where
  txnId := 1
  deadlocked := false
  partition := 1
  willAbort := true
  abortReason := "outdated master"
  reads := []

/-- A transaction that another partition aborts is given back aborted, without a write. -/
theorem inert_remoteAbort :
    ∃ s, Lts.Reachable (step committing) (init fun _ => none) s ∧
      ∃ r ∈ s.returned, r.id ∈ s.marked ∧ r.txn.isRemaster = false ∧ r.Inert := by
  obtain ⟨s, hs, r, hr, hmark, hremaster⟩ : ∃ s ∈ Lts.run (step committing) (init fun _ => none)
      [.arrive twoKeys, .dispatch (1, false), .remoteRead remoteAbort],
      ∃ r ∈ s.returned, r.id ∈ s.marked ∧ r.txn.isRemaster = false := by decide +kernel
  exact ⟨s, ⟨_, hs⟩, r, hr, hmark, hremaster,
    ((inert_iff_not_remaster ⟨_, hs⟩).2 r hr hmark).mpr hremaster⟩

/-- Moves the key to region `1`. -/
def moveKey : Transaction where
  internal := { id := 1, involvedPartitions := [0], activePartitions := [0] }
  program := .remaster 1 false
  keys := [{ key := "A", type := .write, metadata := some { master := 0 } }]

/-- **A remaster of a key that is not stored** is marked as aborted, and then creates the key and
is given back as committed. -/
theorem not_inert_remaster :
    ∃ s, Lts.Reachable (step committing) (init fun _ => none) s ∧
      ∃ r ∈ s.returned, r.id ∈ s.marked ∧ r.txn.status = .committed ∧
        r.after "A" ≠ r.before "A" ∧ ¬ r.Inert := by
  obtain ⟨s, hs, r, hr, hmark, hstatus, hbefore, hafter⟩ : ∃ s ∈ Lts.run (step committing)
      (init fun _ => none) [.arrive moveKey, .dispatch (1, false)],
      ∃ r ∈ s.returned, r.id ∈ s.marked ∧ r.txn.status = .committed ∧
        (r.before "A").isSome = false ∧ (r.after "A").isSome = true := by decide +kernel
  refine ⟨s, ⟨_, hs⟩, r, hr, hmark, hstatus, ?_, ?_⟩
  · intro heq
    rw [heq, hbefore] at hafter
    cases hafter
  · rintro ⟨hab, -⟩
    rw [hstatus] at hab
    cases hab

end WorkerRun

end Slog
