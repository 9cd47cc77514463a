/-
# Tail-only locking equals full-queue locking

The DDR lock manager without a resolver and the RMA lock manager are fed the same calls.  Both
are related to one abstract notion, `Workload.AllGranted`: a transaction may run when all its
parts have arrived and no request that is not released stands before one of its own and
conflicts with it.  The tails of the DDR lock manager and the full queues of the RMA lock
manager are two ways to compute it.
-/
import Penteract.Lib.Run
import Penteract.LockHistory
import Penteract.FullQueue

namespace Slog

open List Option AssocMap Relation

/-! ## The abstract notion -/

namespace Workload

variable (W : Workload) (p : PartitionId)

/-- The requests on `k` that are not released, in order of arrival. -/
def liveQueue (arrived : List (TxnId × RegionId)) (released : List TxnId) (k : KeyRegion) :
    List Request :=
  (W.queue p arrived k).filter fun r => r.1 ∉ released

/-- The key-regions that the parts for the regions `hs` request. -/
def requested (x : TxnId) (hs : List RegionId) : List KeyRegion :=
  hs.flatMap fun h => (W.part p x h).lockRequests.map Prod.fst

/-- **All locks are granted**: all requests have been made, and everything that conflicts with
one of them and came before it has been released. -/
def AllGranted (arrived : List (TxnId × RegionId)) (released : List TxnId) (x : TxnId) : Prop :=
  (W.numRequests p x (homesOf arrived x) : ℤ) = (W.txn x p).numRequiredLocks ∧
    ∀ k r s, ConflictsBefore (W.queue p arrived k) r s → s.1 = x → r.1 ∈ released

/-- The release of `x` lets `v` run. -/
def NewlyGranted (arrived : List (TxnId × RegionId)) (released : List TxnId) (x v : TxnId) : Prop :=
  ((∃ h, (v, h) ∈ arrived) ∧ v ∉ x :: released) ∧ ¬ W.AllGranted p arrived released v ∧
    W.AllGranted p arrived (x :: released) v

variable {W p} {arrived : List (TxnId × RegionId)} {released : List TxnId}

theorem liveQueue_nodup (ha : W.Arrived p arrived) (k : KeyRegion) :
    ((W.liveQueue p arrived released k).map Prod.fst).Nodup :=
  (filter_sublist.map Prod.fst).nodup (Workload.queue_nodup ha k)

theorem without_liveQueue (x : TxnId) (k : KeyRegion) :
    without (W.liveQueue p arrived released k) x = W.liveQueue p arrived (x :: released) k := by
  rw [without, liveQueue, liveQueue, List.filter_filter]
  apply List.filter_congr
  intro r _
  rw [Bool.eq_iff_iff]
  simp

theorem length_requested (x : TxnId) (hs : List RegionId) :
    (W.requested p x hs).length = W.numRequests p x hs := by
  simp [requested, Submission.numRequests, length_flatMap]

variable {x : TxnId} {hs : List RegionId} {k : KeyRegion}

theorem mem_requested :
    k ∈ W.requested p x hs ↔ ∃ h ∈ hs, ∃ m, (k, m) ∈ (W.part p x h).lockRequests := by
  simp [requested]

theorem mem_requested_iff_queue :
    k ∈ W.requested p x (homesOf arrived x) ↔ ∃ m, (x, m) ∈ W.queue p arrived k := by
  simp only [mem_requested, Submission.mem_queue, mem_homesOf]
  constructor
  · rintro ⟨h, ha, m, hm⟩
    exact ⟨m, h, ha, hm⟩
  · rintro ⟨m, h, ha, hm⟩
    exact ⟨h, ha, m, hm⟩

theorem requested_nodup (x : TxnId) (hnd : hs.Nodup) : (W.requested p x hs).Nodup := by
  rw [requested, nodup_flatMap]
  refine ⟨fun h _ => W.lockRequests_nodup p x h, hnd.imp fun {h h'} hne => ?_⟩
  intro k hk hk'
  obtain ⟨⟨_, m⟩, hm, rfl⟩ := List.mem_map.mp hk
  obtain ⟨⟨_, m'⟩, hm', heq⟩ := List.mem_map.mp hk'
  simp only at heq
  subst heq
  exact W.lockRequests_disjoint p x hne hm hm'

end Workload

/-! ## The DDR lock manager computes it from tails -/

/-- The edges of the waits-for graph are the blocking pairs of the queues. -/
structure TailInv (W : Workload) (p : PartitionId) (lm : DDRLockManager)
    (arrived : List (TxnId × RegionId)) (released : List TxnId) : Prop
    extends LockInv W p lm arrived released where
  waits : WaitsInv lm.txnInfo
  edges : ∀ u tu v, lm.txnInfo.lookup u = some tu → v ≠ kSentinelTxnId →
    (v ∈ tu.waitedBy ↔ ∃ k, Blocks (W.queue p arrived k) u v)

namespace TailInv

variable {W : Workload} {p : PartitionId} {lm : DDRLockManager}
  {arrived : List (TxnId × RegionId)} {released : List TxnId}

/-- Whoever a live transaction blocks is live. -/
theorem live_of_blocks (hI : TailInv W p lm arrived released) {k : KeyRegion} {u v : TxnId}
    (hb : Blocks (W.queue p arrived k) u v) (hu : u ∈ lm.txnInfo) : v ∈ lm.txnInfo := by
  obtain ⟨tu, htu⟩ := AssocMap.mem_iff_lookup.mp hu
  obtain ⟨-, m, hm⟩ := mem_queue_of_blocks hb
  obtain ⟨h, ha, -⟩ := Submission.mem_queue.mp hm
  have hv0 : v ≠ kSentinelTxnId := (hI.parts.part v h ha).1
  have hmem : v ∈ tu.waitedBy := (hI.edges u tu v htu hv0).mpr ⟨k, hb⟩
  exact (hI.waits.live u tu htu v hmem).resolve_left hv0

variable {x : TxnId} {ti : TxnInfo} {h : RegionId}

/-- **A transaction is ready in the DDR lock manager exactly when all its locks are granted.** -/
theorem ready_iff (hI : TailInv W p lm arrived released) (hx : lm.txnInfo.lookup x = some ti) :
    ti.isReady = true ↔ W.AllGranted p arrived released x := by
  have hx0 : x ≠ kSentinelTxnId := hI.waits.ne_sentinel hx
  rw [TxnInfo.isReady_iff, hI.unarrived x ti hx, sub_eq_zero, and_comm, eq_comm,
    Workload.AllGranted, and_congr_right_iff]
  intro _
  rw [hI.waits.numWaitingFor_eq_zero_iff hx]
  constructor
  · intro hnone k r s hconf hs
    by_contra hrel
    -- A chain of live blockers leads from the conflicting request to this transaction.
    have hr : r ∈ W.queue p arrived k := hconf.1.subset (by simp)
    obtain ⟨h, ha, -⟩ := Submission.mem_queue.mp hr
    have hlive : r.1 ∈ lm.txnInfo := (hI.live r.1).mpr ⟨⟨h, ha⟩, hrel⟩
    obtain ⟨u, hpath, hlast⟩ := TransGen.tail'_iff.mp hconf.transGen_blocks
    have hu : u ∈ lm.txnInfo := by
      clear hlast
      induction hpath with
      | refl => exact hlive
      | tail _ hb ih => exact hI.live_of_blocks hb ih
    obtain ⟨tu, htu⟩ := AssocMap.mem_iff_lookup.mp hu
    rw [hs] at hlast
    exact hnone u tu htu ((hI.edges u tu x htu hx0).mpr ⟨k, hlast⟩)
  · intro hgranted u tu hu hmem
    obtain ⟨k, hb⟩ := (hI.edges u tu x hu hx0).mp hmem
    obtain ⟨mu, mx, hconf⟩ := hb.conflictsBefore
    have hrel := hgranted k _ _ hconf rfl
    exact ((hI.live u).mp (AssocMap.mem_iff_lookup.mpr ⟨tu, hu⟩)).2 hrel

theorem enterLocks (hI : TailInv W p lm arrived released) (hx : x ≠ kSentinelTxnId)
    (hh : h ∈ (W.txn x p).homes) (hnew : (x, h) ∉ arrived) (hrel : x ∉ released) :
    TailInv W p (lm.enterLocks (W.part p x h)).1 (arrived ++ [(x, h)]) released where
  toLockInv := hI.toLockInv.enterLocks hx hh hnew hrel
  waits := hI.waits.enterLocks (by rwa [W.part_id])
  edges u tu v hu hv := by
    rw [hI.exists_blocks_concat]
    have hself : x ∉ lm.blocking (W.part p x h) := hI.self_notMem_blocking hnew
    rcases DDRLockManager.enterLocks_cases hu with ⟨hux, rfl⟩ | ⟨hux, ti, hti, rfl⟩
    · rw [W.part_id] at hux
      subst hux
      rw [or_iff_left fun h => hself h.2, DDRLockManager.enteredInfo, DDRLockManager.baseInfo,
        W.part_id]
      cases hl : lm.txnInfo.lookup u with
      | some ti => exact hI.edges u ti v hl hv
      | none =>
        -- A transaction that has just arrived is in no queue yet.
        refine iff_of_false (by simpa [TxnInfo.new] using hv) ?_
        rintro ⟨k, hb⟩
        obtain ⟨⟨m, hm⟩, -⟩ := mem_queue_of_blocks hb
        obtain ⟨g, hg, -⟩ := Submission.mem_queue.mp hm
        exact not_mem_iff_lookup.mpr hl ((hI.live u).mpr ⟨⟨g, hg⟩, hrel⟩)
    · rw [mem_append, hI.edges u ti v hti hv, W.part_id]
      by_cases hb : u ∈ lm.blocking (W.part p x h) <;> simp [hb]

theorem releaseLocks (hI : TailInv W p lm arrived released) (hx : lm.txnInfo.lookup x = some ti)
    (hr : ti.isReady) :
    TailInv W p { lm with txnInfo := lm.releasedInfo x ti } arrived (x :: released) where
  toLockInv := hI.toLockInv.releaseLocks x ti
  waits := hI.waits.releaseLocks hx hr
  edges u tu v hu hv := by
    obtain ⟨-, tu₀, htu₀, rfl⟩ := DDRLockManager.released_cases hI.waits.sentinel hu
    exact hI.edges u tu₀ v htu₀ hv

theorem acquireLocks_result (hI : TailInv W p lm arrived released) (hx : x ≠ kSentinelTxnId)
    (hh : h ∈ (W.txn x p).homes) (hnew : (x, h) ∉ arrived) (hrel : x ∉ released) :
    (lm.acquireLocks (W.part p x h)).2 = .acquired ↔
      W.AllGranted p (arrived ++ [(x, h)]) released x := by
  have hentry : (lm.enterLocks (W.part p x h)).1.txnInfo.lookup x
      = some (lm.enteredInfo (W.part p x h)) := by
    rw [DDRLockManager.lookup_enterLocks, W.part_id, if_pos rfl]
  rw [← (hI.enterLocks hx hh hnew hrel).ready_iff hentry]
  change (lm.enterLocks (W.part p x h)).2.1 = .acquired ↔ _
  rw [DDRLockManager.enterLocks_result]
  split_ifs with hr <;> simp [hr]

/-- `ReleaseLocks` reports the transactions that the release lets run, none of them twice. -/
theorem mem_released_iff (hI : TailInv W p lm arrived released) (hx : lm.txnInfo.lookup x = some ti)
    (hr : ti.isReady) :
    ((unblock lm.txnInfo ti.waitedBy).2.map Prod.fst).Nodup ∧
      ∀ v, v ∈ (unblock lm.txnInfo ti.waitedBy).2.map Prod.fst ↔
        W.NewlyGranted p arrived released x v := by
  obtain ⟨hnd, hiff⟩ := hI.waits.mem_released hx hr
  have hI' := hI.releaseLocks hx hr
  refine ⟨hnd, fun v => ?_⟩
  rw [Workload.NewlyGranted, ← hI'.live, List.mem_map]
  constructor
  · rintro ⟨⟨v, d⟩, hvd, rfl⟩
    obtain ⟨tv, tv', htv, hnr, htv', hr', -⟩ := (hiff v d).mp hvd
    refine ⟨AssocMap.mem_iff_lookup.mpr ⟨tv', htv'⟩, ?_, (hI'.ready_iff htv').mp hr'⟩
    rw [← hI.ready_iff htv, hnr]
    simp
  · rintro ⟨hlive, hbefore, hafter⟩
    obtain ⟨tv', htv'⟩ := AssocMap.mem_iff_lookup.mp hlive
    obtain ⟨-, tv, htv, -⟩ := DDRLockManager.released_cases hI.waits.sentinel htv'
    rw [← hI.ready_iff htv, Bool.not_eq_true] at hbefore
    exact ⟨(v, tv'.deadlocked), (hiff v _).mpr
      ⟨tv, tv', htv, hbefore, htv', (hI'.ready_iff htv').mpr hafter, rfl⟩, rfl⟩

end TailInv

/-! ## The RMA lock manager computes it from full queues -/

/-- The lock table holds the states of the queues, and the counters count the locks that are
not granted. -/
structure FullInv (W : Workload) (p : PartitionId) (rm : RMALockManager)
    (arrived : List (TxnId × RegionId)) (released : List TxnId) : Prop where
  parts : W.Arrived p arrived
  table : rm.lockTable = fun k => stateOf (W.liveQueue p arrived released k)
  live : ∀ x, x ∈ rm.txnInfo ↔ (∃ h, (x, h) ∈ arrived) ∧ x ∉ released
  keys : ∀ x ti, rm.txnInfo.lookup x = some ti →
    ti.keys = W.requested p x (homesOf arrived x)
  count : ∀ x ti, rm.txnInfo.lookup x = some ti →
    ti.numWaitingFor = (W.txn x p).numRequiredLocks
      - ti.keys.countP fun k => x ∈ (rm.lockTable k).holders

namespace FullInv

variable {W : Workload} {p : PartitionId} {rm : RMALockManager}
  {arrived : List (TxnId × RegionId)} {released : List TxnId}

variable {x : TxnId} {ti tx : RMATxnInfo} {h : RegionId}

theorem length_keys_le (hI : FullInv W p rm arrived released) (hx : rm.txnInfo.lookup x = some ti) :
    (ti.keys.length : ℤ) ≤ (W.txn x p).numRequiredLocks := by
  rw [hI.keys x ti hx, Workload.length_requested]
  exact W.numRequests_le (homesOf_nodup hI.parts.nodup x) fun h hh =>
    (hI.parts.part x h (mem_homesOf.mp hh)).2

theorem queueInv (hI : FullInv W p rm arrived released) :
    rm.QueueInv (fun v => (W.txn v p).numRequiredLocks) (W.liveQueue p arrived released) where
  distinct := Workload.liveQueue_nodup hI.parts
  table := hI.table
  locks k := hI.table ▸ stateOf_ok (Workload.liveQueue_nodup hI.parts k)
  live k v hv := by
    rw [hI.table, members_stateOf] at hv
    obtain ⟨⟨_, m⟩, hm, rfl⟩ := List.mem_map.mp hv
    obtain ⟨hq, hnr⟩ := mem_filter.mp hm
    obtain ⟨h, ha, -⟩ := Submission.mem_queue.mp hq
    exact (hI.live _).mpr ⟨⟨h, ha⟩, of_decide_eq_true hnr⟩
  entries v ti hti := by
    have hrel := ((hI.live v).mp (AssocMap.mem_iff_lookup.mpr ⟨ti, hti⟩)).2
    refine ⟨fun k => ?_, ?_, hI.count v ti hti⟩
    · rw [hI.keys v ti hti, Workload.mem_requested_iff_queue, hI.table, members_stateOf,
        Workload.liveQueue]
      constructor
      · rintro ⟨m, hm⟩
        exact List.mem_map.mpr ⟨(v, m), mem_filter.mpr ⟨hm, by simpa using hrel⟩, rfl⟩
      · intro hv
        obtain ⟨⟨_, m⟩, hm, rfl⟩ := List.mem_map.mp hv
        exact ⟨m, (mem_filter.mp hm).1⟩
    · rw [hI.keys v ti hti]
      exact Workload.requested_nodup v (homesOf_nodup hI.parts.nodup v)
  length_le v ti hti := hI.length_keys_le hti

/-- A live transaction holds the lock on `k` exactly when nothing live that came before it
conflicts with its request. -/
theorem mem_holders_iff (hI : FullInv W p rm arrived released) {m : KeyType} {k : KeyRegion}
    (hx : x ∉ released) (hm : (x, m) ∈ W.queue p arrived k) :
    x ∈ (rm.lockTable k).holders ↔
      ∀ r, ConflictsBefore (W.queue p arrived k) r (x, m) → r.1 ∈ released := by
  have hmem : (x, m) ∈ W.liveQueue p arrived released k := mem_filter.mpr ⟨hm, by simpa⟩
  rw [hI.table]
  simp only
  rw [mem_holders_stateOf (r := (x, m)) (Workload.liveQueue_nodup hI.parts k) hmem]
  refine forall_congr' fun r => ?_
  rw [ConflictsBefore, ConflictsBefore, Workload.liveQueue, pair_sublist_filter]
  simp only [hx, not_false_eq_true, decide_true, and_true, decide_eq_true_eq]
  tauto

/-- **A transaction is ready in the RMA lock manager exactly when all its locks are granted.** -/
theorem ready_iff (hI : FullInv W p rm arrived released) (hx : rm.txnInfo.lookup x = some ti) :
    ti.numWaitingFor = 0 ↔ W.AllGranted p arrived released x := by
  have hlive := ((hI.live x).mp (AssocMap.mem_iff_lookup.mpr ⟨ti, hx⟩)).2
  rw [hI.queueInv.numWaitingFor_eq_zero_iff hx, Workload.AllGranted, hI.keys x ti hx,
    Workload.length_requested, and_congr_right_iff]
  intro _
  constructor
  · rintro hall k r ⟨y, m⟩ hconf rfl
    have hm : (y, m) ∈ W.queue p arrived k := hconf.1.subset (by simp)
    exact (hI.mem_holders_iff hlive hm).mp
      (hall k (Workload.mem_requested_iff_queue.mpr ⟨m, hm⟩)) r hconf
  · intro hgranted k hk
    obtain ⟨m, hm⟩ := Workload.mem_requested_iff_queue.mp hk
    exact (hI.mem_holders_iff hlive hm).mpr fun r hconf => hgranted k r _ hconf rfl

/-- The queues after one more part. -/
theorem addRequests_liveQueue (hrel : x ∉ released) (h : RegionId) :
    addRequests (W.liveQueue p arrived released) x (W.part p x h).lockRequests =
      W.liveQueue p (arrived ++ [(x, h)]) released := by
  funext k
  rw [addRequests, Workload.liveQueue, Workload.liveQueue, Submission.queue, Submission.queue,
    map_append, map_singleton, queueAt_concat, filter_append,
    Transaction.requestsAt, W.part_id]
  congr 1
  rw [eq_comm, filter_eq_self]
  intro r hr
  obtain ⟨a, -, rfl⟩ := List.mem_map.mp hr
  simpa using hrel

theorem acquireLocks (hI : FullInv W p rm arrived released) (hx : x ≠ kSentinelTxnId)
    (hh : h ∈ (W.txn x p).homes) (hnew : (x, h) ∉ arrived) (hrel : x ∉ released) :
    FullInv W p (rm.acquireLocks (W.part p x h)).1 (arrived ++ [(x, h)]) released := by
  have hparts := hI.parts.concat hx hh hnew
  -- the keys requested before, and the entry of `x` afterwards
  have hkeys : ((rm.txnInfo.lookup x).getD
      { numWaitingFor := (W.part p x h).numRequiredLocks }).keys =
        W.requested p x (homesOf arrived x) := by
    cases hl : rm.txnInfo.lookup x with
    | some ti => exact hI.keys x ti hl
    | none =>
      have hnone : homesOf arrived x = [] := by
        rw [eq_nil_iff_forall_not_mem]
        intro g hg
        exact not_mem_iff_lookup.mpr hl
          ((hI.live x).mpr ⟨⟨g, mem_homesOf.mp hg⟩, hrel⟩)
      rw [hnone]
      rfl
  have hnum : RMALockManager.QueueInv.numRequested rm x =
      W.numRequests p x (homesOf arrived x) := by
    rw [← Workload.length_requested, ← hkeys, RMALockManager.QueueInv.numRequested]
    cases rm.txnInfo.lookup x <;> rfl
  have hQ := hI.queueInv.acquireRequests (x := x)
    (W.lockRequests_nodup p x h) (fun r hr hmem => by
      obtain ⟨⟨_, m⟩, hm, rfl⟩ := List.mem_map.mp hmem
      exact Submission.notMem_queue hnew hr (mem_filter.mp hm).1)
    (fun _ _ => rfl) (fun _ => (rfl : _ = (W.part p x h).numRequiredLocks)) (by
      have hle := W.numRequests_le (p := p) (x := x) (homesOf_nodup hparts.nodup x) fun g hg =>
        (hparts.part x g (mem_homesOf.mp hg)).2
      rw [homesOf_concat, if_pos rfl, Submission.numRequests, map_append, sum_append,
        map_singleton, sum_singleton, ← Submission.numRequests] at hle
      rwa [hnum])
  rw [addRequests_liveQueue hrel] at hQ
  have hrm := rm.acquireLocks_eq (W.part p x h)
  rw [W.part_id] at hrm
  rw [hrm]
  refine ⟨hparts, hQ.table, fun y => ?_, fun y ti hy => ?_,
    fun y ti hy => (hQ.entries y ti hy).count⟩
  · rw [RMALockManager.acquireRequests, AssocMap.mem_iff_lookup]
    simp only [lookup_insert']
    by_cases hyx : y = x
    · subst hyx
      simp [hrel]
    · have := hI.live y
      rw [AssocMap.mem_iff_lookup] at this
      simp [hyx, this]
  · rw [RMALockManager.acquireRequests] at hy
    simp only [lookup_insert'] at hy
    rw [homesOf_concat]
    split_ifs at hy with hyx
    · subst hyx
      cases hy
      rw [RMALockManager.acquireAll_keys, hkeys, if_pos rfl]
      simp [Workload.requested]
    · rw [if_neg (Ne.symm hyx), append_nil]
      exact hI.keys y ti hy

/-- `ReleaseLocks` of a ready transaction: the invariant is kept, and exactly the transactions
that become ready are returned. -/
theorem releaseLocks (hI : FullInv W p rm arrived released) (hx : rm.txnInfo.lookup x = some tx)
    (hr : tx.numWaitingFor = 0) :
    FullInv W p (rm.releaseLocks x).1 arrived (x :: released) ∧
      ∀ v, v ∈ (rm.releaseLocks x).2 ↔
        ∃ ti ti', rm.txnInfo.lookup v = some ti ∧ ti.numWaitingFor ≠ 0 ∧
          (rm.releaseLocks x).1.txnInfo.lookup v = some ti' ∧ ti'.numWaitingFor = 0 := by
  have hQ := hI.queueInv
  have hheld := ((hQ.numWaitingFor_eq_zero_iff hx).mp hr).2
  obtain ⟨hQ', hiff⟩ := hQ.releaseLocks hx fun k hk =>
    release_stateOf (hQ.distinct k) (by simpa only [hQ.table] using hheld k hk)
  have hwithout : (fun k => without (W.liveQueue p arrived released k) x) =
      W.liveQueue p arrived (x :: released) := funext fun k => Workload.without_liveQueue x k
  rw [hwithout] at hQ'
  refine ⟨⟨hI.parts, hQ'.table, fun v => ?_, fun v ti' hv => ?_,
    fun v ti hv => (hQ'.entries v ti hv).count⟩, hiff⟩
  · have hkeys := RMALockManager.keys_releaseLocks hx v
    have hlive := hI.live v
    rw [AssocMap.mem_iff_lookup] at hlive ⊢
    rw [mem_cons, not_or]
    by_cases hvx : v = x
    · rw [if_pos hvx, map_eq_none_iff] at hkeys
      simp [hkeys, hvx]
    · rw [if_neg hvx] at hkeys
      have hdom : (∃ ti', (rm.releaseLocks x).1.txnInfo.lookup v = some ti') ↔
          ∃ ti, rm.txnInfo.lookup v = some ti := by
        rw [← isSome_iff_exists, ← isSome_iff_exists, ← isSome_map,
          hkeys, isSome_map]
      rw [hdom, hlive]
      simp [hvx]
  · have hkeys := RMALockManager.keys_releaseLocks hx v
    rw [hv, map_some] at hkeys
    split_ifs at hkeys
    obtain ⟨ti, hti, hk⟩ := map_eq_some_iff.mp hkeys.symm
    rw [← hk, hI.keys v ti hti]

theorem acquireLocks_result (hI : FullInv W p rm arrived released) (hx : x ≠ kSentinelTxnId)
    (hh : h ∈ (W.txn x p).homes) (hnew : (x, h) ∉ arrived) (hrel : x ∉ released) :
    (rm.acquireLocks (W.part p x h)).2 = .acquired ↔
      W.AllGranted p (arrived ++ [(x, h)]) released x := by
  have hI' := hI.acquireLocks hx hh hnew hrel
  obtain ⟨info, hinfo, hres⟩ : ∃ info : RMATxnInfo,
      (rm.acquireLocks (W.part p x h)).1.txnInfo.lookup x = some info ∧
        (rm.acquireLocks (W.part p x h)).2 =
          if info.numWaitingFor = 0 then .acquired else .waiting := by
    refine ⟨_, ?_, rfl⟩
    rw [RMALockManager.acquireLocks]
    simp only [lookup_insert', W.part_id, if_true]
  rw [← hI'.ready_iff hinfo, hres]
  split_ifs with h0 <;> simp [h0]

/-- `ReleaseLocks` returns the transactions that the release lets run, none of them twice. -/
theorem mem_released_iff (hI : FullInv W p rm arrived released) (hx : rm.txnInfo.lookup x = some tx)
    (hr : tx.numWaitingFor = 0) :
    (rm.releaseLocks x).2.Nodup ∧
      ∀ v, v ∈ (rm.releaseLocks x).2 ↔ W.NewlyGranted p arrived released x v := by
  obtain ⟨hI', hiff⟩ := hI.releaseLocks hx hr
  refine ⟨by rw [RMALockManager.releaseLocks, hx]; exact sortUnique_nodup _, fun v => ?_⟩
  rw [hiff, Workload.NewlyGranted, ← hI'.live]
  constructor
  · rintro ⟨ti, ti', hti, hne, hti', h0⟩
    exact ⟨AssocMap.mem_iff_lookup.mpr ⟨ti', hti'⟩, mt (hI.ready_iff hti).mpr hne,
      (hI'.ready_iff hti').mp h0⟩
  · rintro ⟨hlive, hbefore, hafter⟩
    have hbound := (hI'.live v).mp hlive
    rw [mem_cons, not_or] at hbound
    obtain ⟨ti', hti'⟩ := AssocMap.mem_iff_lookup.mp hlive
    obtain ⟨ti, hti⟩ := AssocMap.mem_iff_lookup.mp ((hI.live v).mpr ⟨hbound.1, hbound.2.2⟩)
    exact ⟨ti, ti', hti, mt (hI.ready_iff hti).mp hbefore, hti', (hI'.ready_iff hti').mpr hafter⟩

end FullInv

/-! ## Both lock managers on the same calls -/

inductive LockCall where
  | acquire (x : TxnId) (h : RegionId)
  | release (x : TxnId)
  deriving DecidableEq, Repr

/-- What a call returns; the flag that the DDR lock manager adds to an id is left out. -/
inductive CallResult where
  | locks (result : AcquireLocksResult)
  | unblocked (ids : List TxnId)
  deriving DecidableEq, Repr

/-- The same result, or the same set of ids with none of them twice. -/
def CallResult.Agree : CallResult → CallResult → Prop
  | .locks r, .locks r' => r = r'
  | .unblocked ids, .unblocked ids' => ids.Nodup ∧ ids.Perm ids'
  | _, _ => False

/-- The two lock managers, the history of the calls and the results of both. -/
structure LockPair where
  ddr : DDRLockManager := { dlResolver := false }
  rma : RMALockManager := {}
  arrived : List (TxnId × RegionId) := []
  released : List TxnId := []
  results : List (CallResult × CallResult) := []

/-- A call of both lock managers.  The caller passes each part of a transaction once and
releases a transaction only when it is ready; after that the id is not used again. -/
def LockPair.call (W : Workload) (p : PartitionId) (s : LockPair) : LockCall → Option LockPair
  | .acquire x h =>
    if x ≠ kSentinelTxnId ∧ h ∈ (W.txn x p).homes ∧ (x, h) ∉ s.arrived ∧ x ∉ s.released then
      let (ddr, result) := s.ddr.acquireLocks (W.part p x h)
      let (rma, result') := s.rma.acquireLocks (W.part p x h)
      some { s with
        ddr := ddr, rma := rma, arrived := s.arrived ++ [(x, h)]
        results := s.results ++ [(.locks result, .locks result')] }
    else none
  | .release x =>
    if (s.ddr.txnInfo.lookup x).elim false TxnInfo.isReady then
      (s.ddr.releaseLocks x).map fun (ddr, unblocked) =>
        let (rma, unblocked') := s.rma.releaseLocks x
        { s with
          ddr := ddr, rma := rma, released := x :: s.released
          results := s.results ++ [(.unblocked (unblocked.map Prod.fst),
            .unblocked unblocked')] }
    else none

/-- Both lock managers follow the history, and all results so far agree. -/
structure LockPair.Inv (W : Workload) (p : PartitionId) (s : LockPair) : Prop where
  ddr : TailInv W p s.ddr s.arrived s.released
  rma : FullInv W p s.rma s.arrived s.released
  agree : ∀ r ∈ s.results, r.1.Agree r.2

namespace LockPair

variable {W : Workload} {p : PartitionId} {s s' : LockPair}

theorem Inv.init : Inv W p {} where
  ddr := ⟨LockInv.init W p rfl rfl, WaitsInv.empty, by simp⟩
  rma := ⟨⟨nodup_nil, by simp⟩, rfl, by simp, by simp, by simp⟩
  agree := by simp

theorem Inv.concat_results {results : List (CallResult × CallResult)} {a b : CallResult}
    (h : ∀ r ∈ results, r.1.Agree r.2) (hab : a.Agree b) :
    ∀ r ∈ results ++ [(a, b)], r.1.Agree r.2 := by
  intro r hr
  rcases mem_append.mp hr with hr | hr
  · exact h r hr
  · rw [mem_singleton.mp hr]
    exact hab

/-- **Step.**  One call keeps the invariant. -/
theorem Inv.call (hI : Inv W p s) {c : LockCall} (h : s.call W p c = some s') : Inv W p s' := by
  cases c with
  | acquire x h' =>
    simp only [LockPair.call] at h
    split_ifs at h with hg
    obtain ⟨hx, hh, hnew, hrel⟩ := hg
    cases h
    have hddr := hI.ddr.enterLocks hx hh hnew hrel
    have hrma := hI.rma.acquireLocks hx hh hnew hrel
    refine ⟨?_, hrma, Inv.concat_results hI.agree ?_⟩
    · exact ⟨hddr.toLockInv.congr (DDRLockManager.appendLog_lockTable _ _)
          (DDRLockManager.appendLog_txnInfo _ _),
        by simpa only [DDRLockManager.acquireLocks, DDRLockManager.appendLog_txnInfo]
          using hddr.waits, by
        simpa only [DDRLockManager.acquireLocks, DDRLockManager.appendLog_txnInfo]
          using hddr.edges⟩
    · have h1 := hI.ddr.acquireLocks_result hx hh hnew hrel
      have h2 := hI.rma.acquireLocks_result hx hh hnew hrel
      change (s.ddr.acquireLocks (W.part p x h')).2 = (s.rma.acquireLocks (W.part p x h')).2
      rw [← h2] at h1
      revert h1
      cases (s.ddr.acquireLocks (W.part p x h')).2 <;>
        cases (s.rma.acquireLocks (W.part p x h')).2 <;> simp
  | release x =>
    simp only [LockPair.call] at h
    split_ifs at h with hg
    obtain ⟨⟨lm, out⟩, hrel, rfl⟩ := map_eq_some_iff.mp h
    rcases DDRLockManager.releaseLocks_eq_some.mp hrel with
      ⟨hnone, -⟩ | ⟨ti, hti, hr, rfl, rfl⟩
    · rw [hnone] at hg
      cases hg
    · have hmem : x ∈ s.rma.txnInfo := by
        rw [hI.rma.live, ← hI.ddr.live]
        exact AssocMap.mem_iff_lookup.mpr ⟨ti, hti⟩
      obtain ⟨tx, htx⟩ := AssocMap.mem_iff_lookup.mp hmem
      have hready : tx.numWaitingFor = 0 :=
        (hI.rma.ready_iff htx).mpr ((hI.ddr.ready_iff hti).mp hr)
      obtain ⟨hnd, hout⟩ := hI.ddr.mem_released_iff hti hr
      obtain ⟨hnd', hout'⟩ := hI.rma.mem_released_iff htx hready
      refine ⟨hI.ddr.releaseLocks hti hr, (hI.rma.releaseLocks htx hready).1,
        Inv.concat_results hI.agree ⟨hnd, ?_⟩⟩
      exact (perm_ext_iff_of_nodup hnd hnd').mpr fun v => (hout v).trans (hout' v).symm

/-- **Tail-only locking equals full-queue locking.**  For every sequence of calls, the two lock
managers return the same result for every `AcquireLocks` and the same newly ready transactions
for every `ReleaseLocks`, none of them twice. -/
theorem tail_locking_eq_full_queue_locking (W : Workload) (p : PartitionId)
    {calls : List LockCall} {s : LockPair}
    (h : Lts.run (LockPair.call W p) {} calls = some s) :
    ∀ r ∈ s.results, r.1.Agree r.2 :=
  (Lts.invariant (LockPair.call W p) (P := Inv W p) Inv.init (fun _ _ _ hI hc => hI.call hc)
    ⟨calls, h⟩).agree

/-- A write of `A`, a transaction on `A` and `B` with homes in two regions, and a remaster of
`B`. -/
def mixedTxn : TxnId → PartitionId → Transaction
  | 1, 0 =>
    { internal := { id := 1, involvedPartitions := [0] }
      keys := [{ key := "A", type := .write, metadata := some { master := 0 } }] }
  | 2, 0 =>
    { internal := { id := 2, involvedPartitions := [0] }
      keys := [{ key := "A", type := .write, metadata := some { master := 0 } },
        { key := "B", type := .read, metadata := some { master := 1 } }] }
  | 3, 0 =>
    { internal := { id := 3, involvedPartitions := [0] }
      program := .remaster 0 false
      keys := [{ key := "B", type := .write, metadata := some { master := 1 } }] }
  | x, _ => { internal := { id := x, involvedPartitions := [0] }, keys := [] }

def mixedWorkload : Workload where
  txn := mixedTxn
  involved := fun _ => [0]
  id_eq x p := by unfold mixedTxn; split <;> rfl
  involved_eq x p := by unfold mixedTxn; split <;> rfl
  involved_nodup := by simp
  regions_nodup x p := by unfold mixedTxn; split <;> simp
  remaster_single x p := by unfold mixedTxn; split <;> simp [Transaction.isRemaster]

def mixedCalls : List LockCall :=
  [.acquire 1 0, .acquire 2 0, .acquire 3 1, .acquire 2 1, .acquire 3 0, .release 3, .release 1]

theorem tail_locking_mixed :
    ∃ s, Lts.run (LockPair.call mixedWorkload 0) {} mixedCalls = some s ∧
      s.results.map Prod.fst = [.locks .acquired, .locks .waiting, .locks .waiting,
        .locks .waiting, .locks .acquired, .unblocked [], .unblocked [2]] ∧
      ∀ r ∈ s.results, r.1.Agree r.2 := by
  have h : (Lts.run (LockPair.call mixedWorkload 0) {} mixedCalls).map
      (fun s => s.results.map Prod.fst) = some [.locks .acquired, .locks .waiting,
        .locks .waiting, .locks .waiting, .locks .acquired, .unblocked [], .unblocked [2]] := by
    decide
  obtain ⟨s, hs, hres⟩ := map_eq_some_iff.mp h
  exact ⟨s, hs, hres, tail_locking_eq_full_queue_locking mixedWorkload 0 hs⟩

end LockPair

end Slog
