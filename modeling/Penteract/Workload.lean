/-
# Workloads

What the lock managers are promised about the transactions that reach them.  A transaction
arrives at a partition as one part for every home region that masters one of its keys there;
a remaster names one key and arrives for the old and for the new master.  All parts of an id
carry the same keys.  The structures carry these facts, so that a submission that breaks them
cannot be built; a workload also names no key twice with the same master.
-/
import Penteract.Transaction

namespace Slog

open List

namespace Transaction

/-- The home regions for which parts of the transaction are generated. -/
def homes (t : Transaction) : List RegionId :=
  (t.keys.map KeyValueEntry.master ++
    match t.program with
    | .code _ => []
    | .remaster newMaster _ => [newMaster]).dedup

variable {t : Transaction}

theorem mem_homes_of_code (ht : t.isRemaster = false) {h : RegionId} :
    h ∈ t.homes ↔ ∃ kv ∈ t.keys, kv.master = h := by
  unfold homes isRemaster at *
  cases hp : t.program with
  | code _ => simp
  | remaster m b => rw [hp] at ht; cases ht

theorem length_homes_le_of_remaster (hk : t.keys.length = 1) : t.homes.length ≤ 2 := by
  have hlen : t.homes.length ≤ (t.keys.map KeyValueEntry.master ++
      match t.program with
      | .code _ => []
      | .remaster newMaster _ => [newMaster]).length :=
    (dedup_sublist _).length_le
  refine hlen.trans ?_
  rw [length_append, length_map, hk]
  cases t.program <;> simp

end Transaction

/-- The transactions of a run: the keys, program and involved partitions of every id, as each
partition sees them. -/
structure Submission where
  txn : TxnId → PartitionId → Transaction
  involved : TxnId → List PartitionId
  id_eq : ∀ x p, (txn x p).id = x
  involved_eq : ∀ x p, (txn x p).internal.involvedPartitions = involved x
  involved_nodup : ∀ x, (involved x).Nodup
  remaster_single : ∀ x p, (txn x p).isRemaster → (txn x p).keys.length = 1

/-- The transactions of a run, none of which names a key twice with the same master. -/
structure Workload extends Submission where
  regions_nodup : ∀ x p, ((txn x p).keys.map fun kv => (kv.key, kv.master)).Nodup

instance : Coe Workload Submission := ⟨Workload.toSubmission⟩

namespace Submission

variable (W : Submission)

/-- The part of `x` for the home region `h`, as it arrives at the partition `p`. -/
def part (p : PartitionId) (x : TxnId) (h : RegionId) : Transaction := (W.txn x p).withHome h

/-- The number of locks that the parts for the regions `hs` request. -/
def numRequests (p : PartitionId) (x : TxnId) (hs : List RegionId) : ℕ :=
  (hs.map fun h => (W.part p x h).lockRequests.length).sum

@[simp] theorem part_id (p : PartitionId) (x : TxnId) (h : RegionId) : (W.part p x h).id = x :=
  W.id_eq x p

@[simp] theorem part_involved (p : PartitionId) (x : TxnId) (h : RegionId) :
    (W.part p x h).internal.involvedPartitions = W.involved x :=
  W.involved_eq x p

@[simp] theorem part_numRequiredLocks (p : PartitionId) (x : TxnId) (h : RegionId) :
    (W.part p x h).numRequiredLocks = (W.txn x p).numRequiredLocks := rfl

theorem lockRequests_part (p : PartitionId) (x : TxnId) (h : RegionId) :
    (W.part p x h).lockRequests =
      ((W.txn x p).keys.filter fun kv =>
        (W.txn x p).isRemaster || decide (kv.master = h)).map fun kv =>
          (makeKeyRegion kv.key h, kv.type) := by
  simp only [part, Transaction.lockRequests, Transaction.withHome_keys,
    Transaction.withHome_isRemaster, Transaction.withHome_home, Nat.cast_inj, Int.toNat_natCast]

variable {h : RegionId} {p : PartitionId} {x : TxnId} {hs : List RegionId}

/-- Parts for different regions name different key-regions. -/
theorem lockRequests_disjoint (p : PartitionId) (x : TxnId) {h' : RegionId} (hne : h ≠ h')
    {k : KeyRegion} {m m' : KeyType} (hk : (k, m) ∈ (W.part p x h).lockRequests) :
    (k, m') ∉ (W.part p x h').lockRequests := by
  intro hk'
  rw [lockRequests_part] at hk hk'
  obtain ⟨kv, -, hkv⟩ := mem_map.mp hk
  obtain ⟨kv', -, hkv'⟩ := mem_map.mp hk'
  rw [Prod.mk.injEq] at hkv hkv'
  exact hne (makeKeyRegion_inj.mp (hkv.1.trans hkv'.1.symm)).2

/-- Every part requests a lock. -/
theorem lockRequests_ne_nil (hh : h ∈ (W.txn x p).homes) : (W.part p x h).lockRequests ≠ [] := by
  rw [lockRequests_part]
  cases hr : (W.txn x p).isRemaster with
  | true =>
    obtain ⟨kv, hkv⟩ := length_eq_one_iff.mp (W.remaster_single x p hr)
    simp [hkv]
  | false =>
    obtain ⟨kv, hkv, rfl⟩ := (Transaction.mem_homes_of_code hr).mp hh
    simp only [Bool.false_or, ne_eq, map_eq_nil_iff, filter_eq_nil_iff]
    intro hnone
    exact hnone kv hkv (decide_eq_true rfl)

/-- Counting the keys master by master counts every key once. -/
theorem sum_length_filter (hnd : hs.Nodup) (ks : List KeyValueEntry) :
    (hs.map fun h => (ks.filter fun kv => decide (kv.master = h)).length).sum =
      (ks.filter fun kv => decide (kv.master ∈ hs)).length := by
  induction hs with
  | nil => simp
  | cons h hs ih =>
    rw [nodup_cons] at hnd
    rw [map_cons, sum_cons, ih hnd.2, ← countP_eq_length_filter,
      ← countP_eq_length_filter, ← countP_eq_length_filter]
    clear ih
    induction ks with
    | nil => rfl
    | cons kv ks ih =>
      simp only [countP_cons, mem_cons, decide_eq_true_eq] at ih ⊢
      by_cases hkv : kv.master = h
      · have : kv.master ∉ hs := hkv ▸ hnd.1
        simp only [hkv, true_or, if_true]
        rw [hkv] at this
        simp only [this, if_false]
        omega
      · simp only [hkv, false_or, if_false]
        omega

/-- Counting the keys master by master counts no key twice. -/
theorem sum_length_filter_le (hnd : hs.Nodup) (ks : List KeyValueEntry) :
    (hs.map fun h => (ks.filter fun kv => decide (kv.master = h)).length).sum ≤ ks.length := by
  rw [sum_length_filter hnd]
  exact length_filter_le _ _

/-- **The parts of a transaction never request more locks than it waits for.** -/
theorem numRequests_le (hnd : hs.Nodup) (hsub : ∀ h ∈ hs, h ∈ (W.txn x p).homes) :
    (W.numRequests p x hs : ℤ) ≤ (W.txn x p).numRequiredLocks := by
  cases hr : (W.txn x p).isRemaster with
  | true =>
    have hone := W.remaster_single x p hr
    have hlen : W.numRequests p x hs = hs.length := by
      simp [numRequests, lockRequests_part, hr, hone]
    have hle : hs.length ≤ 2 :=
      (subperm_of_subset hnd hsub).length_le.trans
        (Transaction.length_homes_le_of_remaster hone)
    rw [hlen, Transaction.numRequiredLocks, hr]
    exact_mod_cast hle
  | false =>
    have hsum : W.numRequests p x hs ≤ (W.txn x p).keys.length := by
      simpa [numRequests, lockRequests_part, hr] using
        sum_length_filter_le hnd (W.txn x p).keys
    rw [Transaction.numRequiredLocks, hr]
    exact_mod_cast hsum

end Submission

/-- No part names a key-region twice. -/
theorem Workload.lockRequests_nodup (W : Workload) (p : PartitionId) (x : TxnId) (h : RegionId) :
    ((W.part p x h).lockRequests.map Prod.fst).Nodup := by
  rw [W.lockRequests_part, map_map]
  cases hr : (W.txn x p).isRemaster with
  | true =>
    obtain ⟨kv, hkv⟩ := length_eq_one_iff.mp (W.remaster_single x p hr)
    simp [hkv]
  | false =>
    refine Nodup.map_on ?_ ((Nodup.of_map _ (W.regions_nodup x p)).filter _)
    intro kv hkv kv' hkv' heq
    simp only [Bool.false_or, mem_filter, decide_eq_true_eq] at hkv hkv'
    obtain ⟨hk, -⟩ := makeKeyRegion_inj.mp heq
    exact inj_on_of_nodup_map (W.regions_nodup x p) hkv.1 hkv'.1
      (by rw [hk, hkv.2, hkv'.2])

end Slog
