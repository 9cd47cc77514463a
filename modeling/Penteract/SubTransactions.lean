/-
# Sub-transactions

How a transaction is split before it reaches the schedulers.  The forwarder notes the partitions
and, once the master of every key is known, the regions that the transaction involves.  The
batcher of each of these regions makes a lock-only transaction out of it, and splits that by
partition; a part that has nothing to lock in its home region is dropped.  Built with the
counterless remaster protocol, a remaster is always a multi-home transaction, and is never
dropped.
-/
import Penteract.LockQueueTail
import Penteract.Workload

namespace Slog

open List Option

/-- A sharder throws on a key that it cannot read. -/
structure Sharder where
  numPartitions : ℕ
  computePartition : Key → Option PartitionId
  lt_numPartitions : ∀ k p, computePartition k = some p → p < numPartitions

namespace Transaction

/-! ## Annotating a transaction -/

def masters (t : Transaction) : List RegionId := t.keys.map KeyValueEntry.master

def newMaster (t : Transaction) : List RegionId :=
  match t.program with
  | .code _ => []
  | .remaster m _ => [m]

/-- The master of the first key. -/
def firstMaster (t : Transaction) : RegionId := (t.keys.head?.map KeyValueEntry.master).getD 0

def setTransactionType (t : Transaction) : Transaction :=
  if t.keys ≠ [] ∧ ∀ kv ∈ t.keys, kv.metadata.isSome then
    if (∀ kv ∈ t.keys, kv.master = t.firstMaster) ∧ t.isRemaster = false then
      { t with internal := { t.internal with type := .singleHome, home := t.firstMaster } }
    else { t with internal := { t.internal with type := .multiHomeOrLockOnly, home := -1 } }
  else { t with internal := { t.internal with type := .unknown } }

def populateInvolvedRegions (t : Transaction) : Transaction :=
  match t.internal.type with
  | .unknown => t
  | .singleHome => { t with internal := { t.internal with involvedRegions := [t.firstMaster] } }
  | .multiHomeOrLockOnly =>
    { t with internal := { t.internal with
        involvedRegions := t.internal.involvedRegions ++ sortUnique (t.masters ++ t.newMaster) } }

/-- Flags of the partitions, read in increasing order; nothing is changed if the sharder
throws. -/
def populateInvolvedPartitions (sh : Sharder) (t : Transaction) : Option Transaction :=
  if ∀ kv ∈ t.keys, (sh.computePartition kv.key).isSome then
    some { t with internal := { t.internal with
      involvedPartitions := t.internal.involvedPartitions ++
        sortUnique (t.keys.filterMap fun kv => sh.computePartition kv.key),
      activePartitions := t.internal.activePartitions ++
        sortUnique ((t.keys.filter fun kv => kv.type = .write).filterMap fun kv =>
          sh.computePartition kv.key) } }
  else none

theorem populateInvolvedPartitions_eq_some {sh : Sharder} {t u : Transaction}
    (h : t.populateInvolvedPartitions sh = some u) :
    (∀ kv ∈ t.keys, (sh.computePartition kv.key).isSome) ∧
      u = { t with internal := { t.internal with
        involvedPartitions := t.internal.involvedPartitions ++
          sortUnique (t.keys.filterMap fun kv => sh.computePartition kv.key),
        activePartitions := t.internal.activePartitions ++
          sortUnique ((t.keys.filter fun kv => kv.type = .write).filterMap fun kv =>
            sh.computePartition kv.key) } } := by
  rw [populateInvolvedPartitions] at h
  split_ifs at h with hshard
  exact ⟨hshard, (some_inj.mp h).symm⟩

/-- What the forwarder makes of a transaction whose keys all carry their masters. -/
def forward (sh : Sharder) (t : Transaction) : Option Transaction :=
  (t.populateInvolvedPartitions sh).map fun t => t.setTransactionType.populateInvolvedRegions

/-- The regions whose sequencers get the transaction: its home, or every involved region by way
of the multi-home orderer. -/
def forwardRegions (t : Transaction) : List RegionId :=
  match t.internal.type with
  | .unknown => []
  | .singleHome => [t.firstMaster]
  | .multiHomeOrLockOnly => t.internal.involvedRegions

/-! ## Splitting a transaction -/

def generateLockOnlyTxn (t : Transaction) (loMaster : RegionId) : Transaction :=
  match t.program with
  | .code _ => t.withHome loMaster
  | .remaster m _ =>
    if m = loMaster then { t.withHome loMaster with program := .remaster m true }
    else t.withHome loMaster

/-- The keys of a transaction that are in the partition. -/
def keysAt (sh : Sharder) (t : Transaction) (p : PartitionId) : List KeyValueEntry :=
  t.keys.filter fun kv => sh.computePartition kv.key = some p

def generatePartitionedTxn (sh : Sharder) (t : Transaction) (p : PartitionId) :
    Option Transaction :=
  let keys := t.keysAt sh p
  let isRedundant := !t.isRemaster && keys.all fun kv => (kv.master : ℤ) ≠ t.home
  if keys = [] ∨ isRedundant then none
  else
    some { t with
      keys := keys,
      internal := { t.internal with
        involvedRegions := if t.internal.type = .multiHomeOrLockOnly then
          sortUnique (keys.map KeyValueEntry.master) else t.internal.involvedRegions } }

/-- The transaction that the batcher of a region splits by partition. -/
def atRegion (t : Transaction) (localRegion : RegionId) : Transaction :=
  if t.internal.type = .multiHomeOrLockOnly then t.generateLockOnlyTxn localRegion else t

/-- What `BatchTxn` adds to the batches of the partitions. -/
def batchTxn (sh : Sharder) (localRegion : RegionId) (t : Transaction) :
    List (PartitionId × Transaction) :=
  (t.atRegion localRegion).internal.involvedPartitions.filterMap fun p =>
    ((t.atRegion localRegion).generatePartitionedTxn sh p).map fun u => (p, u)

/-- The parts that reach the scheduler of a partition, from the logs of all regions. -/
def partsAt (sh : Sharder) (t : Transaction) (p : PartitionId) : List Transaction :=
  t.forwardRegions.flatMap fun r =>
    ((t.batchTxn sh r).filter fun u => u.1 = p).map Prod.snd

end Transaction

/-- What is kept for one of the partitions. -/
theorem filterMap_keyed {α β : Type*} [DecidableEq α] {l : List α} (hnd : l.Nodup) {p : α}
    (hp : p ∈ l) (g : α → Option β) :
    ((l.filterMap fun q => (g q).map fun u => (q, u)).filter fun u => u.1 = p).map Prod.snd =
      (g p).toList := by
  induction l with
  | nil => cases hp
  | cons q l ih =>
    rw [nodup_cons] at hnd
    by_cases hq : p = q
    · subst hq
      have hnone : (l.filterMap fun q => (g q).map fun u => (q, u)).filter
          (fun u => u.1 = p) = [] := by
        rw [filter_eq_nil_iff]
        intro u hu hup
        obtain ⟨q, hq, hgq⟩ := mem_filterMap.mp hu
        obtain ⟨v, -, rfl⟩ := map_eq_some_iff.mp hgq
        exact hnd.1 (of_decide_eq_true hup ▸ hq)
      cases hg : g p <;> simp [hg, hnone]
    · have hp' := (mem_cons.mp hp).resolve_left hq
      rw [← ih hnd.2 hp']
      cases hg : g q <;> simp [hg, Ne.symm hq]

/-! ## Forwarded transactions -/

/-- A transaction that the server has admitted and the forwarder has forwarded: it has a key, the
master of every key was found, and the regions exist. -/
structure ForwardedTxn (sh : Sharder) (numRegions : ℕ) where
  client : Transaction
  txn : Transaction
  keys_ne_nil : client.keys ≠ []
  mastered : ∀ kv ∈ client.keys, kv.metadata.isSome
  regions_lt : ∀ r ∈ client.masters ++ client.newMaster, r < numRegions
  noRegions : client.internal.involvedRegions = []
  noPartitions : client.internal.involvedPartitions = []
  forward_eq : client.forward sh = some txn

namespace ForwardedTxn

variable {sh : Sharder} {n : ℕ} (a : ForwardedTxn sh n)

theorem forward_spec :
    a.txn.keys = a.client.keys ∧ a.txn.program = a.client.program ∧
    a.txn.internal.involvedPartitions =
      sortUnique (a.client.keys.filterMap fun kv => sh.computePartition kv.key) ∧
    ((a.txn.internal.type = .singleHome ∧ (∀ kv ∈ a.txn.keys, kv.master = a.txn.firstMaster) ∧
        a.txn.isRemaster = false ∧ a.txn.home = a.txn.firstMaster ∧
        a.txn.internal.involvedRegions = [a.txn.firstMaster]) ∨
      (a.txn.internal.type = .multiHomeOrLockOnly ∧
        a.txn.internal.involvedRegions = sortUnique (a.txn.masters ++ a.txn.newMaster))) := by
  obtain ⟨u, hu, h⟩ := map_eq_some_iff.mp a.forward_eq
  obtain ⟨-, rfl⟩ := Transaction.populateInvolvedPartitions_eq_some hu
  have hmeta : a.client.keys ≠ [] ∧ ∀ kv ∈ a.client.keys, kv.metadata.isSome :=
    ⟨a.keys_ne_nil, a.mastered⟩
  rw [← h, Transaction.setTransactionType, if_pos hmeta]
  split_ifs with hsingle
  · refine ⟨rfl, rfl, ?_, .inl ⟨rfl, hsingle.1, hsingle.2, rfl, rfl⟩⟩
    simp [Transaction.populateInvolvedRegions, a.noPartitions]
  · refine ⟨rfl, rfl, ?_, .inr ⟨rfl, ?_⟩⟩
    · simp [Transaction.populateInvolvedRegions, a.noPartitions]
    · simp only [Transaction.populateInvolvedRegions, a.noRegions, nil_append]
      rfl

variable {kv : KeyValueEntry} {r : RegionId} {rs : List RegionId}

theorem sharded (hkv : kv ∈ a.txn.keys) : ∃ p, sh.computePartition kv.key = some p := by
  obtain ⟨u, hu, -⟩ := map_eq_some_iff.mp a.forward_eq
  obtain ⟨hshard, -⟩ := Transaction.populateInvolvedPartitions_eq_some hu
  rw [a.forward_spec.1] at hkv
  exact isSome_iff_exists.mp (hshard kv hkv)

theorem regions_nodup : a.txn.internal.involvedRegions.Nodup := by
  rcases a.forward_spec.2.2.2 with ⟨-, -, -, -, hregions⟩ | ⟨-, hregions⟩
  · rw [hregions]
    exact nodup_singleton _
  · rw [hregions]
    exact sortUnique_nodup _

theorem newMaster_eq_nil {t : Transaction} (ht : t.isRemaster = false) : t.newMaster = [] := by
  unfold Transaction.isRemaster Transaction.newMaster at *
  split at ht <;> simp_all

theorem mem_regions : r ∈ a.txn.internal.involvedRegions ↔ r ∈ a.txn.masters ++ a.txn.newMaster := by
  rcases a.forward_spec.2.2.2 with ⟨-, hall, hrem, -, hregions⟩ | ⟨-, hregions⟩
  · rw [hregions, newMaster_eq_nil hrem, append_nil, mem_singleton, Transaction.masters,
      List.mem_map]
    constructor
    · rintro rfl
      obtain ⟨kv, hkv⟩ := List.exists_mem_of_ne_nil _ (a.forward_spec.1 ▸ a.keys_ne_nil)
      exact ⟨kv, hkv, hall kv hkv⟩
    · rintro ⟨kv, hkv, rfl⟩
      exact hall kv hkv
  · rw [hregions, mem_sortUnique]

theorem forwardRegions_eq : a.txn.forwardRegions = a.txn.internal.involvedRegions := by
  rcases a.forward_spec.2.2.2 with ⟨htype, -, -, -, hregions⟩ | ⟨htype, -⟩
  · rw [Transaction.forwardRegions, htype, hregions]
  · rw [Transaction.forwardRegions, htype]

theorem involvedPartitions_nodup : a.txn.internal.involvedPartitions.Nodup := by
  rw [a.forward_spec.2.2.1]
  exact sortUnique_nodup _

/-- The involved partitions are those that have a key of the transaction. -/
theorem mem_involvedPartitions {p : PartitionId} :
    p ∈ a.txn.internal.involvedPartitions ↔ a.txn.keysAt sh p ≠ [] := by
  rw [a.forward_spec.2.2.1, mem_sortUnique, mem_filterMap, ← a.forward_spec.1,
    Transaction.keysAt, ne_eq, filter_eq_nil_iff]
  push Not
  simp

/-! ### The parts of a partition -/

/-- The regions from which a part reaches the partition. -/
def homesAt (p : PartitionId) : List RegionId :=
  a.txn.internal.involvedRegions.filter fun r =>
    a.txn.isRemaster || (a.txn.keysAt sh p).any fun kv => kv.master = r

/-- The part for the home region `r`. -/
def part (p : PartitionId) (r : RegionId) : Transaction :=
  { a.txn.atRegion r with
    keys := a.txn.keysAt sh p,
    internal := { (a.txn.atRegion r).internal with
      involvedRegions := if a.txn.internal.type = .multiHomeOrLockOnly then
        sortUnique ((a.txn.keysAt sh p).map KeyValueEntry.master)
        else a.txn.internal.involvedRegions } }

theorem generateLockOnlyTxn_spec (t : Transaction) (r : RegionId) :
    (t.generateLockOnlyTxn r).internal = (t.withHome r).internal ∧
      (t.generateLockOnlyTxn r).keys = t.keys ∧
      (t.generateLockOnlyTxn r).isRemaster = t.isRemaster := by
  unfold Transaction.generateLockOnlyTxn Transaction.isRemaster
  split
  · next h => simp [h, Transaction.withHome]
  · next h =>
      split_ifs <;> simp [h, Transaction.withHome]

theorem atRegion_spec (hr : r ∈ a.txn.internal.involvedRegions) :
    (a.txn.atRegion r).internal = (a.txn.withHome r).internal ∧
      (a.txn.atRegion r).keys = a.txn.keys ∧
      (a.txn.atRegion r).isRemaster = a.txn.isRemaster := by
  rcases a.forward_spec.2.2.2 with ⟨htype, -, -, hhome, hregions⟩ | ⟨htype, -⟩
  · rw [hregions, mem_singleton] at hr
    rw [Transaction.atRegion, if_neg (by simp [htype]), hr]
    refine ⟨?_, rfl, rfl⟩
    rw [Transaction.withHome, ← hhome]
  · rw [Transaction.atRegion, if_pos htype]
    exact generateLockOnlyTxn_spec _ r

variable {p : PartitionId}

/-- A region without anything to lock at the partition sends nothing there. -/
theorem generatePartitionedTxn_eq (hkeys : a.txn.keysAt sh p ≠ [])
    (hr : r ∈ a.txn.internal.involvedRegions) :
    (a.txn.atRegion r).generatePartitionedTxn sh p =
      if a.txn.isRemaster || (a.txn.keysAt sh p).any fun kv => kv.master = r then
        some (a.part p r) else none := by
  obtain ⟨hint, hk, hrem⟩ := a.atRegion_spec hr
  have hkeysAt : (a.txn.atRegion r).keysAt sh p = a.txn.keysAt sh p := by
    rw [Transaction.keysAt, hk, Transaction.keysAt]
  have hredundant : (!(a.txn.atRegion r).isRemaster && (a.txn.keysAt sh p).all fun kv =>
      (kv.master : ℤ) ≠ (a.txn.atRegion r).home) =
        !(a.txn.isRemaster || (a.txn.keysAt sh p).any fun kv => kv.master = r) := by
    have hhome : (a.txn.atRegion r).home = r := by
      rw [Transaction.home, hint]
      rfl
    rw [hrem, hhome, Bool.not_or, not_any_eq_all_not]
    simp
  rw [Transaction.generatePartitionedTxn, hkeysAt, hredundant]
  by_cases hany : (a.txn.isRemaster || (a.txn.keysAt sh p).any fun kv => kv.master = r) = true
  · rw [if_neg (by simp [hkeys, hany]), if_pos hany, part]
    simp [hint, Transaction.withHome]
  · rw [if_pos (by simp [Bool.eq_false_of_not_eq_true hany]), if_neg hany]

/-- **The parts that reach a partition**: one for every region in `homesAt`. -/
theorem partsAt_eq (hp : p ∈ a.txn.internal.involvedPartitions) :
    a.txn.partsAt sh p = (a.homesAt p).map (a.part p) := by
  have hkeys := a.mem_involvedPartitions.mp hp
  have hone : ∀ r ∈ a.txn.internal.involvedRegions,
      ((a.txn.batchTxn sh r).filter fun u => u.1 = p).map Prod.snd =
        if a.txn.isRemaster || (a.txn.keysAt sh p).any fun kv => kv.master = r then
          [a.part p r] else [] := by
    intro r hr
    have hinv : (a.txn.atRegion r).internal.involvedPartitions =
        a.txn.internal.involvedPartitions := by
      rw [(a.atRegion_spec hr).1]
      rfl
    rw [Transaction.batchTxn, hinv, filterMap_keyed a.involvedPartitions_nodup hp,
      a.generatePartitionedTxn_eq hkeys hr]
    split_ifs <;> rfl
  rw [Transaction.partsAt, forwardRegions_eq, homesAt, flatMap_congr hone]
  induction a.txn.internal.involvedRegions with
  | nil => rfl
  | cons r rs ih =>
    rw [flatMap_cons, filter_cons, ih]
    split_ifs <;> rfl

/-- What the lock managers wait for. -/
def required (p : PartitionId) : ℤ :=
  if a.txn.isRemaster then 2 else (a.txn.keysAt sh p).length

@[simp] theorem part_keys (r : RegionId) : (a.part p r).keys = a.txn.keysAt sh p := rfl

section Part

variable {r : RegionId} (hr : r ∈ a.txn.internal.involvedRegions)
include hr

theorem part_home : (a.part p r).home = r := by
  have h : (a.part p r).home = (a.txn.atRegion r).internal.home := rfl
  rw [h, (a.atRegion_spec hr).1]
  rfl

theorem part_id : (a.part p r).id = a.txn.id := by
  have h : (a.part p r).id = (a.txn.atRegion r).internal.id := rfl
  rw [h, (a.atRegion_spec hr).1]
  rfl

theorem part_isRemaster : (a.part p r).isRemaster = a.txn.isRemaster :=
  (a.atRegion_spec hr).2.2

theorem part_lockRequests :
    (a.part p r).lockRequests =
      ((a.txn.keysAt sh p).filter fun kv => a.txn.isRemaster || kv.master = r).map fun kv =>
        (makeKeyRegion kv.key r, kv.type) := by
  simp only [Transaction.lockRequests, part_keys, a.part_isRemaster hr, a.part_home hr,
    Nat.cast_inj, Int.toNat_natCast]

theorem part_numRequiredLocks : (a.part p r).numRequiredLocks = a.required p := by
  rw [Transaction.numRequiredLocks, a.part_isRemaster hr, part_keys]
  rfl

end Part

theorem master_mem_regions (hkv : kv ∈ a.txn.keysAt sh p) :
    kv.master ∈ a.txn.internal.involvedRegions :=
  a.mem_regions.mpr (mem_append_left _
    (mem_map_of_mem (mem_of_mem_filter hkv)))

/-- **What a part says about the regions**: the masters of the keys of its partition. -/
theorem part_involvedRegions (hkeys : a.txn.keysAt sh p ≠ []) (r : RegionId) :
    (a.part p r).internal.involvedRegions.Nodup ∧ ∀ r',
      r' ∈ (a.part p r).internal.involvedRegions ↔
        ∃ kv ∈ a.txn.keysAt sh p, kv.master = r' := by
  rcases a.forward_spec.2.2.2 with ⟨htype, hall, -, -, hregions⟩ | ⟨htype, -⟩
  · have h : (a.part p r).internal.involvedRegions = [a.txn.firstMaster] := by
      simp only [part, htype, reduceCtorEq, if_false, hregions]
    rw [h]
    refine ⟨nodup_singleton _, fun r' => ?_⟩
    rw [mem_singleton]
    constructor
    · rintro rfl
      obtain ⟨kv, hkv⟩ := List.exists_mem_of_ne_nil _ hkeys
      exact ⟨kv, hkv, hall kv (mem_of_mem_filter hkv)⟩
    · rintro ⟨kv, hkv, rfl⟩
      exact hall kv (mem_of_mem_filter hkv)
  · have h : (a.part p r).internal.involvedRegions =
        sortUnique ((a.txn.keysAt sh p).map KeyValueEntry.master) := by
      simp only [part, htype, if_true]
    rw [h]
    exact ⟨sortUnique_nodup _, fun r' => by rw [mem_sortUnique, List.mem_map]⟩

theorem homesAt_nodup : (a.homesAt p).Nodup := a.regions_nodup.filter _

theorem homesAt_subset (hr : r ∈ a.homesAt p) :
    r ∈ a.txn.internal.involvedRegions := mem_of_mem_filter hr

theorem mem_homesAt_of_code (hrem : a.txn.isRemaster = false) :
    r ∈ a.homesAt p ↔ ∃ kv ∈ a.txn.keysAt sh p, kv.master = r := by
  rw [homesAt, List.mem_filter, hrem, Bool.false_or, List.any_eq_true]
  constructor
  · rintro ⟨-, kv, hkv, hm⟩
    exact ⟨kv, hkv, of_decide_eq_true hm⟩
  · rintro ⟨kv, hkv, rfl⟩
    exact ⟨a.master_mem_regions hkv, kv, hkv, decide_eq_true rfl⟩

theorem homesAt_of_remaster (hrem : a.txn.isRemaster = true) :
    a.homesAt p = a.txn.internal.involvedRegions := by
  rw [homesAt, hrem]
  simp

/-- The locks that the parts of some regions request. -/
def numRequests (p : PartitionId) (rs : List RegionId) : ℕ :=
  (rs.map fun r => (a.part p r).lockRequests.length).sum

theorem numRequests_of_remaster (hrem : a.txn.isRemaster = true)
    (hrs : ∀ r ∈ rs, r ∈ a.txn.internal.involvedRegions) :
    a.numRequests p rs = rs.length * (a.txn.keysAt sh p).length := by
  have hmap : (rs.map fun r => (a.part p r).lockRequests.length) =
      rs.map fun _ => (a.txn.keysAt sh p).length := by
    refine map_congr_left fun r hr => ?_
    rw [a.part_lockRequests (hrs r hr), length_map, hrem]
    simp
  rw [numRequests, hmap, map_const', sum_replicate, smul_eq_mul]

theorem numRequests_of_code (hrem : a.txn.isRemaster = false) (hnd : rs.Nodup)
    (hrs : ∀ r ∈ rs, r ∈ a.txn.internal.involvedRegions) :
    a.numRequests p rs = ((a.txn.keysAt sh p).filter fun kv => kv.master ∈ rs).length := by
  have hmap : (rs.map fun r => (a.part p r).lockRequests.length) =
      rs.map fun r => ((a.txn.keysAt sh p).filter fun kv => decide (kv.master = r)).length := by
    refine map_congr_left fun r hr => ?_
    rw [a.part_lockRequests (hrs r hr), length_map, hrem]
    simp
  rw [numRequests, hmap, Submission.sum_length_filter hnd]

/-- **The locks that all parts request together.** -/
theorem numRequests_homesAt :
    a.numRequests p (a.homesAt p) =
      if a.txn.isRemaster then a.txn.internal.involvedRegions.length * (a.txn.keysAt sh p).length
      else (a.txn.keysAt sh p).length := by
  cases hrem : a.txn.isRemaster with
  | true =>
    rw [a.numRequests_of_remaster hrem fun r => a.homesAt_subset, a.homesAt_of_remaster hrem]
    rfl
  | false =>
    rw [a.numRequests_of_code hrem a.homesAt_nodup fun r => a.homesAt_subset]
    have hall : (a.txn.keysAt sh p).filter (fun kv => kv.master ∈ a.homesAt p) =
        a.txn.keysAt sh p := by
      rw [filter_eq_self]
      intro kv hkv
      exact decide_eq_true ((a.mem_homesAt_of_code hrem).mpr ⟨kv, hkv, rfl⟩)
    rw [hall]
    rfl

theorem homesAt_ne_nil (hp : p ∈ a.txn.internal.involvedPartitions) : a.homesAt p ≠ [] := by
  obtain ⟨kv, hkv⟩ := List.exists_mem_of_ne_nil _ (a.mem_involvedPartitions.mp hp)
  refine List.ne_nil_of_mem (a := kv.master) ?_
  rw [homesAt, List.mem_filter, Bool.or_eq_true, List.any_eq_true]
  exact ⟨a.master_mem_regions hkv, .inr ⟨kv, hkv, decide_eq_true rfl⟩⟩

theorem partsAt_ne_nil (hp : p ∈ a.txn.internal.involvedPartitions) :
    a.txn.partsAt sh p ≠ [] := by
  rw [a.partsAt_eq hp, ne_eq, map_eq_nil_iff]
  exact a.homesAt_ne_nil hp

theorem mem_partsAt (hp : p ∈ a.txn.internal.involvedPartitions) {u : Transaction}
    (hu : u ∈ a.txn.partsAt sh p) : u.id = a.txn.id ∧ u.numRequiredLocks = a.required p := by
  rw [a.partsAt_eq hp] at hu
  obtain ⟨r, hr, rfl⟩ := List.mem_map.mp hu
  exact ⟨a.part_id (a.homesAt_subset hr), a.part_numRequiredLocks (a.homesAt_subset hr)⟩

theorem sum_partsAt (hp : p ∈ a.txn.internal.involvedPartitions) :
    ((a.txn.partsAt sh p).map fun v => v.lockRequests.length).sum =
      a.numRequests p (a.homesAt p) := by
  rw [a.partsAt_eq hp, List.map_map]
  rfl

/-- The sharder of a store with one partition. -/
def oneShard : Sharder where
  numPartitions := 1
  computePartition _ := some 0
  lt_numPartitions _ _ h := some_inj.mp h ▸ Nat.one_pos

end ForwardedTxn

end Slog
