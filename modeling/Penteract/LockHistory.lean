/-
# The history of a lock manager

The state of a DDR lock manager is related to the parts that have arrived at its partition and
to the transactions that have been released there.  The invariant below is kept by
`AcquireLocks` and by `ReleaseLocks`; it says nothing about which edges the waits-for graph has,
so that it also holds when a deadlock resolver edits the graph.
-/
import Penteract.DDRLockManager
import Penteract.Workload

namespace Slog

open List

/-! ## Queues of the arrived parts -/

theorem mem_queue_of_blocks {q : List Request} {u v : TxnId} (h : Blocks q u v) :
    (∃ m, (u, m) ∈ q) ∧ ∃ m, (v, m) ∈ q := by
  obtain ⟨mu, mv, hsub, -⟩ := h.conflictsBefore
  exact ⟨⟨mu, hsub.subset (by simp)⟩, ⟨mv, hsub.subset (by simp)⟩⟩

namespace Submission

variable (W : Submission) (p : PartitionId)

/-- The queue of the key-region `k` after these parts have arrived at the partition `p`. -/
def queue (arrived : List (TxnId × RegionId)) (k : KeyRegion) : List Request :=
  queueAt (arrived.map fun a => W.part p a.1 a.2) k

/-- The arrived parts are parts of the submission, none of them twice. -/
structure Arrived (arrived : List (TxnId × RegionId)) : Prop where
  nodup : arrived.Nodup
  part : ∀ x h, (x, h) ∈ arrived → x ≠ kSentinelTxnId ∧ h ∈ (W.txn x p).homes

end Submission

/-- The regions for which parts of `x` have arrived. -/
def homesOf (arrived : List (TxnId × RegionId)) (x : TxnId) : List RegionId :=
  (arrived.filter fun a => a.1 = x).map Prod.snd

variable {arrived : List (TxnId × RegionId)}

theorem mem_homesOf {x : TxnId} {h : RegionId} : h ∈ homesOf arrived x ↔ (x, h) ∈ arrived := by
  simp [homesOf]

theorem homesOf_concat (arrived : List (TxnId × RegionId)) (x y : TxnId) (h : RegionId) :
    homesOf (arrived ++ [(x, h)]) y = homesOf arrived y ++ if x = y then [h] else [] := by
  by_cases hxy : x = y <;> simp [homesOf, hxy]

theorem homesOf_nodup (h : arrived.Nodup) (x : TxnId) : (homesOf arrived x).Nodup := by
  refine Nodup.map_on ?_ (h.filter _)
  rintro ⟨a, b⟩ hab ⟨c, d⟩ hcd rfl
  simp only [mem_filter, decide_eq_true_eq] at hab hcd
  rw [hab.2, hcd.2]

namespace Submission

variable {W : Submission} {p : PartitionId} {arrived : List (TxnId × RegionId)}

variable {k : KeyRegion} {x : TxnId} {h : RegionId}

theorem mem_queue {r : Request} :
    r ∈ W.queue p arrived k ↔
      ∃ h, (r.1, h) ∈ arrived ∧ (k, r.2) ∈ (W.part p r.1 h).lockRequests := by
  rw [queue, mem_queueAt]
  constructor
  · rintro ⟨t, ht, hid, hmem⟩
    obtain ⟨⟨x, h⟩, ha, rfl⟩ := mem_map.mp ht
    rw [part_id] at hid
    subst hid
    exact ⟨h, ha, hmem⟩
  · rintro ⟨h, ha, hmem⟩
    exact ⟨_, mem_map.mpr ⟨_, ha, rfl⟩, W.part_id p _ h, hmem⟩

/-- A transaction that is in a queue does not request the same key-region again. -/
theorem notMem_queue (hnew : (x, h) ∉ arrived) {m m' : KeyType}
    (hk : (k, m) ∈ (W.part p x h).lockRequests) : (x, m') ∉ W.queue p arrived k := by
  intro hmem
  obtain ⟨h', ha', hk'⟩ := mem_queue.mp hmem
  have hne : h ≠ h' := by
    rintro rfl
    exact hnew ha'
  exact W.lockRequests_disjoint p x hne hk hk'

theorem Arrived.init {a : TxnId × RegionId} (ha : W.Arrived p (arrived ++ [a])) :
    W.Arrived p arrived where
  nodup := (nodup_append.mp ha.nodup).1
  part x h hmem := ha.part x h (mem_append_left _ hmem)

theorem Arrived.concat (ha : W.Arrived p arrived) (hx : x ≠ kSentinelTxnId) (hh : h ∈ (W.txn x p).homes)
    (hnew : (x, h) ∉ arrived) :
    W.Arrived p (arrived ++ [(x, h)]) where
  nodup := by
    rw [nodup_append]
    refine ⟨ha.nodup, nodup_singleton _, fun a hmem b hb => ?_⟩
    rw [mem_singleton.mp hb]
    rintro rfl
    exact hnew hmem
  part y g hmem := by
    rcases mem_append.mp hmem with hmem | hmem
    · exact ha.part y g hmem
    · cases mem_singleton.mp hmem
      exact ⟨hx, hh⟩

end Submission

namespace Workload

variable {W : Workload} {p : PartitionId} {arrived : List (TxnId × RegionId)}

/-- A part adds at most one request to each queue. -/
theorem queue_concat (arrived : List (TxnId × RegionId)) (x : TxnId) (h : RegionId)
    (k : KeyRegion) :
    ((∀ m, (k, m) ∉ (W.part p x h).lockRequests) ∧
        W.queue p (arrived ++ [(x, h)]) k = W.queue p arrived k) ∨
      ∃ m, (k, m) ∈ (W.part p x h).lockRequests ∧
        W.queue p (arrived ++ [(x, h)]) k = W.queue p arrived k ++ [(x, m)] := by
  have hq : W.queue p (arrived ++ [(x, h)]) k =
      W.queue p arrived k ++ (W.part p x h).requestsAt k := by
    rw [Submission.queue, Submission.queue, map_append, map_singleton, queueAt_concat]
  rw [hq, Transaction.requestsAt]
  have hnd := W.lockRequests_nodup p x h
  generalize (W.part p x h).lockRequests = rs at hnd
  by_cases hk : ∃ m, (k, m) ∈ rs
  · obtain ⟨m, hm⟩ := hk
    refine .inr ⟨m, hm, ?_⟩
    rw [filter_fst_eq_singleton hnd hm, map_singleton, W.part_id]
  · refine .inl ⟨fun m hm => hk ⟨m, hm⟩, ?_⟩
    have hnone : rs.filter (fun r => r.1 = k) = [] := by
      rw [filter_eq_nil_iff]
      rintro ⟨k', m⟩ hm hk'
      rw [decide_eq_true_eq] at hk'
      exact hk ⟨m, hk' ▸ hm⟩
    rw [hnone, map_nil, append_nil]

/-- No transaction is in a queue twice. -/
theorem queue_nodup (ha : W.Arrived p arrived) (k : KeyRegion) :
    ((W.queue p arrived k).map Prod.fst).Nodup := by
  induction arrived using List.reverseRecOn with
  | nil => simp [Submission.queue, queueAt]
  | append_singleton arrived a ih =>
    obtain ⟨x, h⟩ := a
    have hnd := ih ha.init
    have hnew : (x, h) ∉ arrived := by
      intro hmem
      exact (nodup_append.mp ha.nodup).2.2 _ hmem _ (mem_singleton_self _) rfl
    rcases W.queue_concat (p := p) arrived x h k with ⟨-, hq⟩ | ⟨m, hm, hq⟩
    · rwa [hq]
    · rw [hq, map_append, nodup_append]
      refine ⟨hnd, by simp, fun y hy z hz => ?_⟩
      rw [map_singleton, mem_singleton] at hz
      subst hz
      rintro rfl
      obtain ⟨⟨_, m'⟩, hmem, rfl⟩ := mem_map.mp hy
      exact Submission.notMem_queue hnew hm hmem

end Workload

/-! ## The invariant -/

/-- **The lock manager follows its history**: the lock table holds the tails of the queues,
exactly the transactions that have arrived and have not been released are in the map, and
their unarrived requests are those of the parts still to come. -/
structure LockInv (W : Submission) (p : PartitionId) (lm : DDRLockManager)
    (arrived : List (TxnId × RegionId)) (released : List TxnId) : Prop where
  parts : W.Arrived p arrived
  table : lm.lockTable = fun k => tailOf (W.queue p arrived k)
  live : ∀ x, x ∈ lm.txnInfo ↔ (∃ h, (x, h) ∈ arrived) ∧ x ∉ released
  unarrived : ∀ x ti, lm.txnInfo.lookup x = some ti →
    ti.unarrivedLockRequests = (W.txn x p).numRequiredLocks
      - W.numRequests p x (homesOf arrived x)

namespace LockInv

variable {W : Submission} {p : PartitionId} {lm : DDRLockManager}
  {arrived : List (TxnId × RegionId)} {released : List TxnId}

theorem init (W : Submission) (p : PartitionId) (ht : lm.lockTable = fun _ => {}) (hi : lm.txnInfo = ∅) :
    LockInv W p lm [] [] where
  parts := ⟨nodup_nil, by simp⟩
  table := ht
  live := by simp [hi]
  unarrived := by simp [hi]

/-- The log and the list of ready transactions play no role. -/
theorem congr {lm' : DDRLockManager} (hI : LockInv W p lm arrived released)
    (ht : lm'.lockTable = lm.lockTable) (hi : lm'.txnInfo = lm.txnInfo) :
    LockInv W p lm' arrived released where
  parts := hI.parts
  table := ht.trans hI.table
  live := hi ▸ hI.live
  unarrived := hi ▸ hI.unarrived

theorem sentinel (hI : LockInv W p lm arrived released) : kSentinelTxnId ∉ lm.txnInfo := by
  intro hmem
  obtain ⟨⟨h, hh⟩, -⟩ := (hI.live _).mp hmem
  exact (hI.parts.part _ h hh).1 rfl

variable {x : TxnId} {h : RegionId}

/-- What blocks a part has arrived before, unless it is the transaction itself, which then makes
two requests in the part that conflict. -/
theorem of_mem_blocking (hI : LockInv W p lm arrived released) {u : TxnId} (hnew : (x, h) ∉ arrived)
    (hu : u ∈ lm.blocking (W.part p x h)) :
    (u ≠ x ∧ ∃ g, (u, g) ∈ arrived) ∨ u = x ∧ ∃ a k m m' b,
      (W.part p x h).lockRequests = a ++ (k, m) :: b ∧ (k, m') ∈ a ∧ Conflict m' m := by
  rw [DDRLockManager.blocking, mem_sortUnique, W.part_id] at hu
  obtain ⟨a, k, m, b, hrs, mu, hmu, hc⟩ := conflict_of_mem_acquireAll (congrFun hI.table) hu
  rcases mem_append.mp hmu with hq | hq
  · have hux : u ≠ x := by
      rintro rfl
      have hk : (k, m) ∈ (W.part p u h).lockRequests := by
        rw [hrs]
        simp
      exact Submission.notMem_queue hnew hk hq
    obtain ⟨g, hg, -⟩ := Submission.mem_queue.mp hq
    exact .inl ⟨hux, g, hg⟩
  · obtain ⟨⟨k', m'⟩, hr, ⟨⟩⟩ := mem_map.mp hq
    obtain ⟨hra, rfl⟩ : (k', m') ∈ a ∧ k' = k := by simpa using hr
    exact .inr ⟨rfl, a, k', m, m', b, hrs, hra, hc⟩

/-- **`AcquireLocks` follows the history.** -/
theorem enterLocks (hI : LockInv W p lm arrived released) (hx : x ≠ kSentinelTxnId)
    (hh : h ∈ (W.txn x p).homes) (hnew : (x, h) ∉ arrived) (hrel : x ∉ released) :
    LockInv W p (lm.enterLocks (W.part p x h)).1 (arrived ++ [(x, h)]) released where
  parts := hI.parts.concat hx hh hnew
  table := by
    have h1 : (lm.enterLocks (W.part p x h)).1.lockTable =
        (lm.lockTable.acquireAll (W.part p x h).id (W.part p x h).lockRequests).1 := rfl
    have h2 := acquireAll_tailOf (arrived.map fun a => W.part p a.1 a.2) (W.part p x h)
    rw [h1, hI.table]
    simpa [Submission.queue] using h2
  live y := by
    rw [DDRLockManager.mem_enterLocks, W.part_id, hI.live]
    simp only [mem_append, mem_singleton, Prod.mk.injEq, exists_or, exists_and_left,
      exists_eq, and_true]
    constructor
    · rintro (rfl | ⟨h1, h2⟩)
      · exact ⟨.inr rfl, hrel⟩
      · exact ⟨.inl h1, h2⟩
    · rintro ⟨h1 | rfl, h2⟩
      · exact .inr ⟨h1, h2⟩
      · exact .inl rfl
  unarrived y ti hy := by
    rw [homesOf_concat]
    rcases DDRLockManager.enterLocks_cases hy with ⟨hyx, rfl⟩ | ⟨hyx, ti, hti, rfl⟩
    · rw [W.part_id] at hyx
      subst hyx
      have hbase : (lm.baseInfo (W.part p y h)).unarrivedLockRequests =
          (W.txn y p).numRequiredLocks - W.numRequests p y (homesOf arrived y) := by
        rw [DDRLockManager.baseInfo, W.part_id]
        cases hl : lm.txnInfo.lookup y with
        | none =>
          have hnone : homesOf arrived y = [] := by
            rw [eq_nil_iff_forall_not_mem]
            intro g hg
            exact AssocMap.not_mem_iff_lookup.mpr hl
              ((hI.live y).mpr ⟨⟨g, mem_homesOf.mp hg⟩, hrel⟩)
          simp [TxnInfo.new, hnone, Submission.numRequests]
        | some ti => exact hI.unarrived y ti hl
      rw [DDRLockManager.enteredInfo, hbase, if_pos rfl]
      simp only [Submission.numRequests, map_append, sum_append, map_singleton,
        sum_singleton, Nat.cast_add]
      ring
    · rw [W.part_id] at hyx
      rw [if_neg (Ne.symm hyx), append_nil]
      exact hI.unarrived y ti hti

/-- **`ReleaseLocks` follows the history.** -/
theorem releaseLocks (hI : LockInv W p lm arrived released) (x : TxnId) (ti : TxnInfo) :
    LockInv W p { lm with txnInfo := lm.releasedInfo x ti } arrived (x :: released) where
  parts := hI.parts
  table := hI.table
  live y := by
    rw [mem_cons, not_or, AssocMap.mem_iff_lookup]
    constructor
    · rintro ⟨ty, hty⟩
      obtain ⟨hyx, ty₀, hty₀, -⟩ := DDRLockManager.released_cases hI.sentinel hty
      obtain ⟨harr, hrel⟩ := (hI.live y).mp (AssocMap.mem_iff_lookup.mpr ⟨ty₀, hty₀⟩)
      exact ⟨harr, hyx, hrel⟩
    · rintro ⟨harr, hyx, hrel⟩
      obtain ⟨ty, hty⟩ := AssocMap.mem_iff_lookup.mp ((hI.live y).mpr ⟨harr, hrel⟩)
      exact ⟨_, DDRLockManager.lookup_released hI.sentinel hyx hty⟩
  unarrived y ty hy := by
    obtain ⟨-, ty₀, hty₀, rfl⟩ := DDRLockManager.released_cases hI.sentinel hy
    exact hI.unarrived y ty₀ hty₀

/-! ## Parts that name no key-region twice -/

section Workload

variable {W : Workload} {p : PartitionId} {lm : DDRLockManager}
  {arrived : List (TxnId × RegionId)} {released : List TxnId}

variable {x u : TxnId} {h : RegionId}

/-- The transactions that block a part are those that the tails of its queues report. -/
theorem mem_blocking (hI : LockInv W p lm arrived released) :
    u ∈ lm.blocking (W.part p x h) ↔
      ∃ k m, (k, m) ∈ (W.part p x h).lockRequests ∧
        u ∈ (tailOf (W.queue p arrived k)).blockers m := by
  rw [DDRLockManager.blocking, mem_sortUnique, mem_acquireAll_snd (W.lockRequests_nodup p x h),
    hI.table]
  simp only [Prod.exists]

/-- The blocking pairs after one more part. -/
theorem exists_blocks_concat (hI : LockInv W p lm arrived released) {v : TxnId} :
    (∃ k, Blocks (W.queue p (arrived ++ [(x, h)]) k) u v) ↔
      (∃ k, Blocks (W.queue p arrived k) u v) ∨ (v = x ∧ u ∈ lm.blocking (W.part p x h)) := by
  constructor
  · rintro ⟨k, hb⟩
    rcases W.queue_concat (p := p) arrived x h k with ⟨-, hq⟩ | ⟨m, hm, hq⟩
    · exact .inl ⟨k, hq ▸ hb⟩
    · rw [hq, blocks_concat] at hb
      rcases hb with hb | ⟨rfl, hu⟩
      · exact .inl ⟨k, hb⟩
      · exact .inr ⟨rfl, hI.mem_blocking.mpr ⟨k, m, hm, hu⟩⟩
  · rintro (⟨k, hb⟩ | ⟨rfl, hu⟩)
    · rcases W.queue_concat (p := p) arrived x h k with ⟨-, hq⟩ | ⟨m, -, hq⟩
      · exact ⟨k, hq ▸ hb⟩
      · exact ⟨k, hq ▸ hb.append⟩
    · obtain ⟨k, m, hm, hu⟩ := hI.mem_blocking.mp hu
      refine ⟨k, ?_⟩
      rcases W.queue_concat (p := p) arrived v h k with ⟨hno, -⟩ | ⟨m', hm', hq⟩
      · exact absurd hm (hno m)
      · rw [hq, blocks_concat]
        obtain rfl : m = m' := by
          have := inj_on_of_nodup_map (W.lockRequests_nodup p v h) hm hm' rfl
          exact (Prod.mk.inj this).2
        exact .inr ⟨rfl, hu⟩

/-- No part is blocked by its own transaction. -/
theorem self_notMem_blocking (hI : LockInv W p lm arrived released) (hnew : (x, h) ∉ arrived) :
    x ∉ lm.blocking (W.part p x h) := by
  intro hmem
  obtain ⟨k, m, hm, hb⟩ := hI.mem_blocking.mp hmem
  obtain ⟨m', hm', -⟩ := mem_of_mem_blockers hb
  exact Submission.notMem_queue hnew hm hm'

end Workload

end LockInv

end Slog
