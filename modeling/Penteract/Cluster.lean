/-
# Partitions with their resolvers

The system in which the lock managers and the resolvers work: one lock manager, one resolver
and the dispatching part of one scheduler per partition, and a first-in-first-out channel from
every resolver to every other one.

The two latched sections of `AcquireLocks` are two steps, and so are the phases of a run of the
resolver: it works on its own data (`find`), changes the lock manager under the latch of
`txn_info_` (`apply`), and hands over the ready transactions (`publish`).  The scheduler's
thread and the resolver's thread interleave at these steps.  A resolver receives graph logs
between runs only.

The fields from `arrived` on record what has happened; no step reads them except for the
guards that describe the workload (a part arrives once, and not after the release).
-/
import Penteract.Lib.Run
import Penteract.DeadlockResolver
import Penteract.Workload

namespace Slog

open Option

/-! ## One partition -/

/-- Where the resolver is in its run; after `find`, the components handed to
`ResolveDeadlock`, and after `apply`, the transactions that became ready. -/
inductive Stage where
  | idle
  | found (sccs : List (List TxnId))
  | applied (ready : List TxnId)
  deriving DecidableEq, Repr

def Stage.sccs : Stage → List (List TxnId)
  | .found sccs => sccs
  | _ => []

structure PartitionState where
  lm : DDRLockManager := {}
  /-- The entry of the `AcquireLocks` in progress, before it is appended to the log. -/
  entry : Option LogEntry := none
  /-- What the lock manager has reported to the scheduler, before it is dispatched. -/
  todo : List (TxnId × Bool) := []
  resolver : DeadlockResolver := {}
  stage : Stage := .idle
  /-- The parts that have arrived. -/
  arrived : List (TxnId × RegionId) := []
  released : List TxnId := []
  /-- The dispatches, with the flag `deadlocked`. -/
  dispatched : List (TxnId × Bool) := []
  /-- The entries of all calls of `AcquireLocks`. -/
  hist : List LogEntry := []
  /-- The entries that the resolver has put into its graph, with their partition. -/
  seen : List (PartitionId × LogEntry) := []
  /-- The nodes that the resolver has taken out of its graph. -/
  gone : List TxnId := []
  /-- The components whose resolution has been copied into the lock manager. -/
  applied : List (List TxnId) := []
  /-- No entry has reached the resolver since its last run began. -/
  upToDate : Bool := false

namespace PartitionState

/-- The components handed to `ResolveDeadlock` so far. -/
def handed (ps : PartitionState) : List (List TxnId) := ps.applied ++ ps.stage.sccs

/-- The entries that the resolver has received from the partition `p`. -/
def seenFrom (ps : PartitionState) (p : PartitionId) : List LogEntry :=
  (ps.seen.filter fun pe => pe.1 = p).map Prod.snd

/-- The entries that the resolver has not taken over from its lock manager yet. -/
def unsent (ps : PartitionState) : List LogEntry := ps.lm.log ps.lm.logIndex ++ ps.entry.toList

/-- The scheduler's thread is between two messages. -/
def betweenMessages (ps : PartitionState) : Prop := ps.entry = none ∧ ps.todo = []

instance (ps : PartitionState) : Decidable ps.betweenMessages :=
  inferInstanceAs (Decidable (_ ∧ _))

/-- `x` is in the lock manager and ready. -/
def isReady (ps : PartitionState) (x : TxnId) : Bool :=
  (ps.lm.txnInfo.lookup x).elim false TxnInfo.isReady

/-! ## The scheduler's thread -/

/-- The call of `AcquireLocks` for the part of `x` with home `h`, up to the end of its first
latched section. -/
def acquire (W : Submission) (p : PartitionId) (ps : PartitionState) (x : TxnId) (h : RegionId) :
    Option PartitionState :=
  if ps.betweenMessages ∧ x ≠ kSentinelTxnId ∧ p ∈ W.involved x ∧ h ∈ (W.txn x p).homes ∧
      (x, h) ∉ ps.arrived ∧ x ∉ ps.released then
    let (lm, result, entry) := ps.lm.enterLocks (W.part p x h)
    some { ps with
      lm := lm,
      entry := some entry,
      todo := if result = .acquired then [(x, false)] else [],
      arrived := ps.arrived ++ [(x, h)],
      hist := ps.hist ++ [entry],
      upToDate := false }
  else none

/-- The second latched section of `AcquireLocks`. -/
def log (ps : PartitionState) : Option PartitionState :=
  ps.entry.map fun entry => { ps with lm := ps.lm.appendLog entry, entry := none }

/-- The call of `ReleaseLocks` for a ready transaction. -/
def release (ps : PartitionState) (x : TxnId) : Option PartitionState :=
  if ps.betweenMessages ∧ ps.isReady x = true then
    (ps.lm.releaseLocks x).map fun (lm, result) =>
      { ps with lm := lm, todo := result, released := x :: ps.released }
  else none

/-- The signal that makes the scheduler call `GetReadyTxns`. -/
def signal (ps : PartitionState) : Option PartitionState :=
  if ps.betweenMessages then
    let (lm, ready) := ps.lm.getReadyTxns
    some { ps with lm := lm, todo := ready.map fun x => (x, true) }
  else none

/-- The next dispatch of the message that is being handled. -/
def dispatch (ps : PartitionState) : Option PartitionState :=
  match ps.entry, ps.todo with
  | none, d :: todo => some { ps with todo := todo, dispatched := ps.dispatched ++ [d] }
  | _, _ => none

/-! ## The resolver's thread -/

/-- The resolver after it has taken over the entries of its lock manager. -/
def updatedResolver (ps : PartitionState) : DeadlockResolver :=
  ps.lm.takeLog.2.foldl DeadlockResolver.addLocalEntry ps.resolver

/-- The first phase of a run. -/
def find (p : PartitionId) (ps : PartitionState) (order : List TxnId) : Option PartitionState :=
  if ps.stage = .idle ∧ order.Perm ps.updatedResolver.graph.keys then
    (ps.updatedResolver.findDeadlocks order).map fun (resolver, sccs) =>
      { ps with
        lm := ps.lm.takeLog.1,
        resolver := resolver,
        stage := .found sccs,
        seen := ps.seen ++ ps.lm.takeLog.2.map fun e => (p, e),
        gone := ps.gone ++ resolver.dfsOrder,
        upToDate := ps.entry.isNone }
  else none

/-- The second phase, under the latch of `txn_info_`. -/
def apply (ps : PartitionState) : Option PartitionState :=
  match ps.stage with
  | .found sccs =>
    (DeadlockResolver.applyUpdates ps.resolver.txnInfoUpdates ps.resolver.toBeUpdated
      ps.lm.txnInfo).map fun (info, ready) =>
        { ps with
          lm := { ps.lm with txnInfo := info },
          stage := .applied ready,
          applied := ps.applied ++ sccs }
  | _ => none

/-- The last phase. -/
def publish (ps : PartitionState) : Option PartitionState :=
  match ps.stage with
  | .applied ready =>
    some { ps with
      lm := ps.lm.addReadyTxns ready,
      resolver := ps.resolver.cleanUp,
      stage := .idle }
  | _ => none

/-- The resolver receives the graph log `entries` of the partition `p`. -/
def receive (ps : PartitionState) (p : PartitionId) (entries : List LogEntry) :
    Option PartitionState :=
  if ps.stage = .idle then
    some { ps with
      resolver := ps.resolver.onGraphLog entries,
      seen := ps.seen ++ entries.map fun e => (p, e),
      upToDate := ps.upToDate && entries.isEmpty }
  else none

end PartitionState

/-! ## The cluster -/

/-- What can happen at one partition. -/
inductive Action where
  | acquire (x : TxnId) (h : RegionId)
  | log
  | release (x : TxnId)
  | signal
  | dispatch
  | find (order : List TxnId)
  | apply
  | publish
  deriving DecidableEq, Repr

inductive Event where
  | act (p : PartitionId) (a : Action)
  /-- The oldest message from `p` to `q` arrives. -/
  | deliver (p q : PartitionId)
  deriving DecidableEq, Repr

structure Cluster where
  part : PartitionId → PartitionState := fun _ => {}
  /-- The graph logs on their way, oldest first: sender, then receiver. -/
  chan : PartitionId → PartitionId → List (List LogEntry) := fun _ _ => []

/-- The effect of an action on its own partition. -/
def PartitionState.act (W : Submission) (p : PartitionId) (ps : PartitionState) :
    Action → Option PartitionState
  | .acquire x h => ps.acquire W p x h
  | .log => ps.log
  | .release x => ps.release x
  | .signal => ps.signal
  | .dispatch => ps.dispatch
  | .find order => ps.find p order
  | .apply => ps.apply
  | .publish => ps.publish

/-- The message that an action sends to all other partitions. -/
def PartitionState.sent (ps : PartitionState) : Action → List (List LogEntry)
  | .find _ => [ps.lm.takeLog.2]
  | _ => []

/-- One step of a cluster of `n` partitions. -/
def Cluster.step (W : Submission) (n : ℕ) (s : Cluster) : Event → Option Cluster
  | .act p a =>
    if p < n then
      ((s.part p).act W p a).map fun ps =>
        { part := Function.update s.part p ps,
          chan := fun p' q =>
            if p' = p ∧ q ≠ p ∧ q < n then s.chan p' q ++ (s.part p).sent a
            else s.chan p' q }
    else none
  | .deliver p q =>
    if q < n then
      match s.chan p q with
      | [] => none
      | m :: ms =>
        ((s.part q).receive p m).map fun ps =>
          { part := Function.update s.part q ps,
            chan := Function.update s.chan p (Function.update (s.chan p) q ms) }
    else none

/-! ## What a step can do -/

namespace PartitionState

variable {W : Submission} {p : PartitionId} {ps ps' : PartitionState} {x : TxnId} {h : RegionId}

theorem acquire_inv (hs : ps.acquire W p x h = some ps') :
    ps.betweenMessages ∧ x ≠ kSentinelTxnId ∧ p ∈ W.involved x ∧ h ∈ (W.txn x p).homes ∧
      (x, h) ∉ ps.arrived ∧ x ∉ ps.released ∧
      ps' = { ps with
        lm := (ps.lm.enterLocks (W.part p x h)).1,
        entry := some (ps.lm.enterLocks (W.part p x h)).2.2,
        todo := if (ps.lm.enterLocks (W.part p x h)).2.1 = .acquired then [(x, false)] else [],
        arrived := ps.arrived ++ [(x, h)],
        hist := ps.hist ++ [(ps.lm.enterLocks (W.part p x h)).2.2],
        upToDate := false } := by
  unfold acquire at hs
  split_ifs at hs with hg
  obtain ⟨h1, h2, h3, h4, h5, h6⟩ := hg
  exact ⟨h1, h2, h3, h4, h5, h6, (some_inj.mp hs).symm⟩

theorem log_inv (hs : ps.log = some ps') :
    ∃ e, ps.entry = some e ∧ ps' = { ps with lm := ps.lm.appendLog e, entry := none } := by
  obtain ⟨e, he, rfl⟩ := map_eq_some_iff.mp hs
  exact ⟨e, he, rfl⟩

theorem isReady_iff : ps.isReady x = true ↔
    ∃ ti, ps.lm.txnInfo.lookup x = some ti ∧ ti.isReady = true := by
  unfold isReady
  cases ps.lm.txnInfo.lookup x <;> simp

theorem release_inv (hs : ps.release x = some ps') :
    ps.betweenMessages ∧ ∃ ti, ps.lm.txnInfo.lookup x = some ti ∧ ti.isReady = true ∧
      ps' = { ps with
        lm := { ps.lm with txnInfo := ps.lm.releasedInfo x ti },
        todo := (unblock ps.lm.txnInfo ti.waitedBy).2,
        released := x :: ps.released } := by
  unfold release at hs
  split_ifs at hs with hg
  obtain ⟨ti, hti, hr⟩ := isReady_iff.mp hg.2
  obtain ⟨⟨lm, out⟩, hlm, rfl⟩ := map_eq_some_iff.mp hs
  refine ⟨hg.1, ti, hti, hr, ?_⟩
  rcases DDRLockManager.releaseLocks_eq_some.mp hlm with ⟨hnone, -⟩ | ⟨ti', hti', -, rfl, rfl⟩
  · rw [hti] at hnone
    cases hnone
  · rw [hti, some_inj] at hti'
    rw [hti']

theorem signal_inv (hs : ps.signal = some ps') :
    ps.betweenMessages ∧ ps' = { ps with
      lm := { ps.lm with readyTxns := [] },
      todo := ps.lm.readyTxns.map fun x => (x, true) } := by
  unfold signal at hs
  split_ifs at hs with hg
  exact ⟨hg, (some_inj.mp hs).symm⟩

theorem dispatch_inv (hs : ps.dispatch = some ps') :
    ∃ d todo, ps.entry = none ∧ ps.todo = d :: todo ∧
      ps' = { ps with todo := todo, dispatched := ps.dispatched ++ [d] } := by
  unfold dispatch at hs
  split at hs
  · rename_i d todo hentry htodo
    exact ⟨d, todo, hentry, htodo, (some_inj.mp hs).symm⟩
  · cases hs

theorem find_inv {order : List TxnId} (hs : ps.find p order = some ps') :
    ps.stage = .idle ∧ order.Perm ps.updatedResolver.graph.keys ∧ ∃ resolver sccs,
      ps.updatedResolver.findDeadlocks order = some (resolver, sccs) ∧
      ps' = { ps with
        lm := ps.lm.takeLog.1,
        resolver := resolver,
        stage := .found sccs,
        seen := ps.seen ++ ps.lm.takeLog.2.map fun e => (p, e),
        gone := ps.gone ++ resolver.dfsOrder,
        upToDate := ps.entry.isNone } := by
  unfold find at hs
  split_ifs at hs with hg
  obtain ⟨⟨resolver, sccs⟩, hf, rfl⟩ := map_eq_some_iff.mp hs
  exact ⟨hg.1, hg.2, resolver, sccs, hf, rfl⟩

theorem apply_inv (hs : ps.apply = some ps') :
    ∃ sccs info ready, ps.stage = .found sccs ∧
      DeadlockResolver.applyUpdates ps.resolver.txnInfoUpdates ps.resolver.toBeUpdated
        ps.lm.txnInfo = some (info, ready) ∧
      ps' = { ps with
        lm := { ps.lm with txnInfo := info },
        stage := .applied ready,
        applied := ps.applied ++ sccs } := by
  unfold apply at hs
  split at hs
  · rename_i sccs hstage
    obtain ⟨⟨info, ready⟩, ha, rfl⟩ := map_eq_some_iff.mp hs
    exact ⟨sccs, info, ready, hstage, ha, rfl⟩
  · cases hs

theorem publish_inv (hs : ps.publish = some ps') :
    ∃ ready, ps.stage = .applied ready ∧ ps' = { ps with
      lm := ps.lm.addReadyTxns ready,
      resolver := ps.resolver.cleanUp,
      stage := .idle } := by
  unfold publish at hs
  split at hs
  · rename_i ready hstage
    exact ⟨ready, hstage, (some_inj.mp hs).symm⟩
  · cases hs

theorem receive_inv {entries : List LogEntry} (hs : ps.receive p entries = some ps') :
    ps.stage = .idle ∧ ps' = { ps with
      resolver := ps.resolver.onGraphLog entries,
      seen := ps.seen ++ entries.map fun e => (p, e),
      upToDate := ps.upToDate && entries.isEmpty } := by
  unfold receive at hs
  split_ifs at hs with hg
  exact ⟨hg, (some_inj.mp hs).symm⟩

end PartitionState

/-- A step is an action at one partition, or the delivery of the oldest message of a channel. -/
theorem Cluster.step_inv {W : Submission} {n : ℕ} {s s' : Cluster} {e : Event}
    (hs : s.step W n e = some s') :
    (∃ p a ps, e = .act p a ∧ p < n ∧ (s.part p).act W p a = some ps ∧
      s' = { part := Function.update s.part p ps,
             chan := fun p' q =>
               if p' = p ∧ q ≠ p ∧ q < n then s.chan p' q ++ (s.part p).sent a
               else s.chan p' q }) ∨
    (∃ p q m ms ps, e = .deliver p q ∧ q < n ∧ s.chan p q = m :: ms ∧
      (s.part q).receive p m = some ps ∧
      s' = { part := Function.update s.part q ps,
             chan := Function.update s.chan p (Function.update (s.chan p) q ms) }) := by
  cases e with
  | act p a =>
    rw [step] at hs
    split_ifs at hs with hp
    obtain ⟨ps, hps, rfl⟩ := map_eq_some_iff.mp hs
    exact .inl ⟨p, a, ps, rfl, hp, hps, rfl⟩
  | deliver p q =>
    rw [step] at hs
    split_ifs at hs with hq
    cases hm : s.chan p q with
    | nil => rw [hm] at hs; cases hs
    | cons m ms =>
      rw [hm] at hs
      obtain ⟨ps, hps, rfl⟩ := map_eq_some_iff.mp hs
      exact .inr ⟨p, q, m, ms, ps, rfl, hq, hm, hps, rfl⟩

end Slog
