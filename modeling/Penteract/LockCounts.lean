/-
# Every lock is requested

A lock manager waits for a number of locks that it reads off the first part of a transaction.
Whether the parts that reach a partition request that many is a question about how the
transaction was split: a transaction with code gets all its locks, unless it names a key twice
and blocks itself; a remaster does if its regions and the keys of the partition make two
requests.
-/
import Penteract.DDRLockManager
import Penteract.FifoLocks
import Penteract.SubTransactions

namespace Slog

open List Option Function

/-! ## The DDR lock manager -/

namespace DDRLockManager

def call (lm : DDRLockManager) : QueueCall → Option DDRLockManager
  | .acquire t => some (lm.acquireLocks t).1
  | .release x => (lm.releaseLocks x).map Prod.fst

/-- The requests of `x` that have not arrived, if it waits for `required` locks. -/
def unarrived (lm : DDRLockManager) (x : TxnId) (required : ℤ) : ℤ :=
  (lm.txnInfo.lookup x).elim required TxnInfo.unarrivedLockRequests

end DDRLockManager

/-- The part of `x` that the call delivers. -/
def QueueCall.part (x : TxnId) : QueueCall → Option Transaction
  | .acquire t => if t.id = x then some t else none
  | .release _ => none

namespace DDRLockManager

variable {lm lm' : DDRLockManager} {x : TxnId} {required : ℤ}

/-- Only the parts of `x` count. -/
theorem call_unarrived {c : QueueCall} (hc : lm.call c = some lm') (hx : c ≠ .release x)
    (hreq : ∀ u ∈ c.part x, u.numRequiredLocks = required) :
    lm'.unarrived x required =
        lm.unarrived x required - ((c.part x).elim 0 fun u => u.lockRequests.length : ℕ) ∧
      (x ∈ lm'.txnInfo ↔ x ∈ lm.txnInfo ∨ (c.part x).isSome) := by
  cases c with
  | acquire t =>
    cases some_inj.mp hc
    have hinfo : (lm.acquireLocks t).1.txnInfo = (lm.enterLocks t).1.txnInfo :=
      appendLog_txnInfo _ _
    simp only [unarrived, QueueCall.part, hinfo, lookup_enterLocks, mem_enterLocks]
    by_cases ht : x = t.id
    · subst ht
      have hnum : t.numRequiredLocks = required := hreq t (by simp [QueueCall.part])
      cases hl : lm.txnInfo.lookup t.id <;>
        simp [enteredInfo, baseInfo, hl, hnum, TxnInfo.new]
    · rw [if_neg ht, if_neg (Ne.symm ht)]
      cases lm.txnInfo.lookup x <;> simp [ht]
  | release y =>
    obtain ⟨⟨lm₁, out⟩, hrel, rfl⟩ := map_eq_some_iff.mp hc
    have hyx : x ≠ y := fun h => hx (by rw [h])
    rcases releaseLocks_eq_some.mp hrel with ⟨-, rfl, -⟩ | ⟨ti, hti, -, rfl, -⟩
    · simp [QueueCall.part]
    · simp only [unarrived, QueueCall.part, AssocMap.mem_iff_lookup, lookup_releasedInfo,
        if_neg hyx]
      cases lm.txnInfo.lookup x <;> simp

theorem run_unarrived {cs : List QueueCall} (hrun : Lts.run call lm cs = some lm')
    (hx : .release x ∉ cs)
    (hreq : ∀ u ∈ cs.filterMap (QueueCall.part x), u.numRequiredLocks = required) :
    lm'.unarrived x required = lm.unarrived x required -
        ((cs.filterMap (QueueCall.part x)).map fun u => u.lockRequests.length).sum ∧
      (x ∈ lm'.txnInfo ↔ x ∈ lm.txnInfo ∨ cs.filterMap (QueueCall.part x) ≠ []) := by
  induction cs generalizing lm with
  | nil =>
    cases some_inj.mp hrun
    simp
  | cons c cs ih =>
    rw [Lts.run_cons, bind_eq_some_iff] at hrun
    obtain ⟨lm₁, hc, hrun⟩ := hrun
    rw [mem_cons, not_or] at hx
    have hreqc : ∀ u ∈ c.part x, u.numRequiredLocks = required := fun u hu => hreq u
      (mem_filterMap.mpr ⟨c, List.mem_cons_self, hu⟩)
    have hone := call_unarrived hc (Ne.symm hx.1) hreqc
    have hrest := ih hrun hx.2 fun u hu => hreq u (by
      obtain ⟨c', hc', hu⟩ := mem_filterMap.mp hu
      exact mem_filterMap.mpr ⟨c', mem_cons_of_mem _ hc', hu⟩)
    rw [hrest.1, hrest.2, hone.1, hone.2, filterMap_cons]
    cases c.part x with
    | none => simp
    | some u =>
      simp only [elim_some, map_cons, sum_cons, Nat.cast_add]
      exact ⟨by ring, by simp⟩

end DDRLockManager

/-! ## The RMA lock manager -/

namespace RMALockManager

theorem acquireAll_append (table : KeyRegion → LockState) (x : TxnId) (info : RMATxnInfo)
    (rs rs' : List (KeyRegion × KeyType)) :
    acquireAll table x info (rs ++ rs') =
      acquireAll (acquireAll table x info rs).1 x (acquireAll table x info rs).2 rs' := by
  induction rs generalizing table info with
  | nil => rfl
  | cons r rs ih =>
    obtain ⟨k, m⟩ := r
    exact ih _ _

/-- Nothing that is requested is in the way of a later request on the same lock. -/
def Compatible (rs : List (KeyRegion × KeyType)) : Prop :=
  rs.Pairwise fun r s => r.1 = s.1 → ¬ Conflict r.2 s.2

/-- **Granting all requests at once**: the counter goes down by at most one for each request, and
by exactly one for each of them if nothing is in the way. -/
theorem acquireAll_granted_iff {table : KeyRegion → LockState} {q : KeyRegion → List Request}
    (htable : ∀ k, table k = stateOf (q k)) (x : TxnId) (info : RMATxnInfo)
    (rs : List (KeyRegion × KeyType)) :
    info.numWaitingFor - rs.length ≤ (acquireAll table x info rs).2.numWaitingFor ∧
      ((acquireAll table x info rs).2.numWaitingFor = info.numWaitingFor - rs.length ↔
        (∀ r ∈ rs, ∀ s ∈ q r.1, ¬ Conflict s.2 r.2) ∧ Compatible rs) := by
  induction rs generalizing table q info with
  | nil => simp [acquireAll, Compatible]
  | cons r rs ih =>
    obtain ⟨k, m⟩ := r
    obtain ⟨hstate, hgranted⟩ := acquire_stateOf (q k) x m
    have htable' : ∀ k', update table k ((table k).acquire x m).1 k' =
        stateOf (update q k (q k ++ [(x, m)]) k') := by
      intro k'
      by_cases hk : k' = k
      · subst hk
        rw [update_self, update_self, htable, hstate]
      · rw [update_of_ne hk, update_of_ne hk, htable]
    rw [← htable k] at hgranted
    obtain ⟨info', hinfo'⟩ : ∃ info' : RMATxnInfo, info' =
      { keys := info.keys ++ [k]
        numWaitingFor := if ((table k).acquire x m).2 then info.numWaitingFor - 1
          else info.numWaitingFor } := ⟨_, rfl⟩
    have hcons : acquireAll table x info ((k, m) :: rs) =
        acquireAll (update table k ((table k).acquire x m).1) x info' rs := by
      rw [hinfo']
      rfl
    rw [hcons]
    obtain ⟨hle, hiff⟩ := ih htable' info'
    -- what is in the way of the rest: what was there before, and this request
    have hqueue : (∀ r ∈ rs, ∀ s ∈ update q k (q k ++ [(x, m)]) r.1,
        ¬ Conflict s.2 r.2) ↔
        (∀ r ∈ rs, ∀ s ∈ q r.1, ¬ Conflict s.2 r.2) ∧
          ∀ r ∈ rs, k = r.1 → ¬ Conflict m r.2 := by
      rw [← forall₂_and]
      refine forall₂_congr fun r _ => ?_
      by_cases hk : r.1 = k
      · rw [hk, update_self]
        simp [or_imp, forall_and]
      · rw [update_of_ne hk]
        exact ⟨fun h => ⟨h, fun h' => absurd h'.symm hk⟩, fun h => h.1⟩
    rw [hqueue] at hiff
    rw [length_cons]
    simp only [Compatible, forall_mem_cons, pairwise_cons] at hiff ⊢
    by_cases hg : ((table k).acquire x m).2 = true
    · have hnum : info'.numWaitingFor = info.numWaitingFor - 1 := by rw [hinfo', if_pos hg]
      have hfirst := hgranted.mp hg
      rw [hnum] at hle hiff
      refine ⟨by push_cast; omega, ?_⟩
      rw [Nat.cast_add, Nat.cast_one, ← sub_sub, sub_right_comm, hiff]
      tauto
    · have hnum : info'.numWaitingFor = info.numWaitingFor := by rw [hinfo', if_neg hg]
      have hfirst := fun h => hg (hgranted.mpr h)
      rw [hnum] at hle hiff
      refine ⟨by push_cast; omega, iff_of_false (by push_cast; omega) ?_⟩
      tauto

/-- The parts of one transaction request their locks one after the other. -/
theorem foldl_acquireLocks {us : List Transaction} {x : TxnId} {required : ℤ}
    (hid : ∀ u ∈ us, u.id = x) (hreq : ∀ u ∈ us, u.numRequiredLocks = required) (hne : us ≠ [])
    (rm : RMALockManager) :
    (us.foldl (fun rm u => (rm.acquireLocks u).1) rm).txnInfo.lookup x =
      some (acquireAll rm.lockTable x
        ((rm.txnInfo.lookup x).getD { numWaitingFor := required })
        (us.flatMap Transaction.lockRequests)).2 := by
  induction us generalizing rm with
  | nil => exact absurd rfl hne
  | cons u us ih =>
    have hu : (rm.acquireLocks u).1 =
        { txnInfo := rm.txnInfo.insert x (acquireAll rm.lockTable x
            ((rm.txnInfo.lookup x).getD { numWaitingFor := required }) u.lockRequests).2,
          lockTable := (acquireAll rm.lockTable x
            ((rm.txnInfo.lookup x).getD { numWaitingFor := required }) u.lockRequests).1 } := by
      rw [acquireLocks, hid u List.mem_cons_self, hreq u List.mem_cons_self]
    rw [foldl_cons, flatMap_cons, acquireAll_append]
    cases us with
    | nil => simp [hu, acquireAll]
    | cons v us =>
      rw [ih (fun w hw => hid w (mem_cons_of_mem _ hw))
        (fun w hw => hreq w (mem_cons_of_mem _ hw)) (cons_ne_nil _ _), hu]
      simp

end RMALockManager

/-! ## The parts of a transaction -/

/-- **A transaction can get all its locks at a partition**: its parts make as many requests as the
lock manager waits for, so that in the DDR lock manager nothing is missing once they have
arrived, whatever else happens there, and that in the RMA lock manager it waits for nothing if
nobody else uses the locks. -/
structure Transaction.GetsAllLocks (sh : Sharder) (t : Transaction) (p : PartitionId) : Prop where
  total : ∀ u ∈ t.partsAt sh p,
    (((t.partsAt sh p).map fun v => v.lockRequests.length).sum : ℕ) = u.numRequiredLocks
  ddr : ∀ (lm lm' : DDRLockManager) (cs : List QueueCall), t.id ∉ lm.txnInfo →
    Lts.run DDRLockManager.call lm cs = some lm' → .release t.id ∉ cs →
    (cs.filterMap (QueueCall.part t.id)).Perm (t.partsAt sh p) →
    ∃ ti, lm'.txnInfo.lookup t.id = some ti ∧ ti.unarrivedLockRequests = 0
  rma : ∀ (rm : RMALockManager) (us : List Transaction), t.id ∉ rm.txnInfo →
    (∀ k, rm.lockTable k = {}) → us.Perm (t.partsAt sh p) →
    ∃ ti, (us.foldl (fun rm u => (rm.acquireLocks u).1) rm).txnInfo.lookup t.id = some ti ∧
      ti.numWaitingFor ≤ 0

namespace ForwardedTxn

variable {sh : Sharder} {n : ℕ} (a : ForwardedTxn sh n) {p : PartitionId}

/-- Two keys of the partition do not block each other: they are not the same key, or not locked
in the same region, or both are read. -/
def NotSelfBlocking (p : PartitionId) : Prop :=
  (a.txn.keysAt sh p).Pairwise fun kv kv' =>
    kv.key = kv'.key → (a.txn.isRemaster = true ∨ kv.master = kv'.master) →
      ¬ Conflict kv.type kv'.type

variable {us : List Transaction}

/-- Different parts lock in different regions, so only the keys of one part can be in each
other's way. -/
theorem compatible_iff (hp : p ∈ a.txn.internal.involvedPartitions) (hus : us.Perm (a.txn.partsAt sh p)) :
    RMALockManager.Compatible (us.flatMap Transaction.lockRequests) ↔ a.NotSelfBlocking p := by
  have hsymm : ∀ {r s : KeyRegion × KeyType}, (r.1 = s.1 → ¬ Conflict r.2 s.2) →
      s.1 = r.1 → ¬ Conflict s.2 r.2 := fun h heq hc => h heq.symm hc.symm
  rw [RMALockManager.Compatible, (hus.flatMap_right _).pairwise_iff hsymm, a.partsAt_eq hp,
    List.pairwise_flatMap, List.forall_mem_map]
  have hother : ((a.homesAt p).map (a.part p)).Pairwise fun u v =>
      ∀ r ∈ u.lockRequests, ∀ s ∈ v.lockRequests, r.1 = s.1 → ¬ Conflict r.2 s.2 := by
    rw [List.pairwise_map]
    refine a.homesAt_nodup.pairwise_of_forall_ne fun h hh h' hh' hne => ?_
    rw [a.part_lockRequests (a.homesAt_subset hh), a.part_lockRequests (a.homesAt_subset hh')]
    intro r hr s hs heq
    obtain ⟨kv, -, rfl⟩ := List.mem_map.mp hr
    obtain ⟨kv', -, rfl⟩ := List.mem_map.mp hs
    exact absurd (makeKeyRegion_inj.mp heq).2 hne
  rw [and_iff_left hother, NotSelfBlocking, List.pairwise_iff_forall_sublist]
  have hpart : ∀ h ∈ a.homesAt p, ((a.part p h).lockRequests.Pairwise fun r s =>
      r.1 = s.1 → ¬ Conflict r.2 s.2) ↔
        ∀ {kv kv' : KeyValueEntry}, [kv, kv'].Sublist (a.txn.keysAt sh p) →
          (a.txn.isRemaster || decide (kv.master = h)) = true →
          (a.txn.isRemaster || decide (kv'.master = h)) = true →
          kv.key = kv'.key → ¬ Conflict kv.type kv'.type := by
    intro h hh
    rw [a.part_lockRequests (a.homesAt_subset hh), List.pairwise_map, List.pairwise_filter,
      List.pairwise_iff_forall_sublist]
    simp only [makeKeyRegion_inj, and_true]
  rw [forall₂_congr hpart]
  constructor
  · intro hall kv kv' hsub hkey hregion
    have hkv : kv ∈ a.txn.keysAt sh p := hsub.subset List.mem_cons_self
    rcases hregion with hrem | hmaster
    · refine hall kv.master ?_ hsub (by simp [hrem]) (by simp [hrem]) hkey
      rw [a.homesAt_of_remaster hrem]
      exact a.master_mem_regions hkv
    · refine hall kv.master ?_ hsub (by simp) (by simp [hmaster]) hkey
      rw [homesAt, List.mem_filter, Bool.or_eq_true, List.any_eq_true]
      exact ⟨a.master_mem_regions hkv, .inr ⟨kv, hkv, decide_eq_true rfl⟩⟩
  · intro hall h _ kv kv' hsub hr hr' hkey
    refine hall hsub hkey ?_
    rw [Bool.or_eq_true, decide_eq_true_eq] at hr hr'
    rcases hr with hrem | rfl
    · exact .inl hrem
    · exact hr'.imp id Eq.symm

theorem numRequests_eq_required_iff :
    (a.numRequests p (a.homesAt p) : ℤ) = a.required p ↔
      (a.txn.isRemaster = true →
        a.txn.internal.involvedRegions.length * (a.txn.keysAt sh p).length = 2) := by
  rw [a.numRequests_homesAt, required]
  cases a.txn.isRemaster with
  | true =>
    simp only [if_true, forall_const]
    norm_cast
  | false => simp

/-- With as many requests as it waits for, the transaction waits for nothing in the RMA lock
manager exactly when it does not block itself. -/
theorem rma_granted (hp : p ∈ a.txn.internal.involvedPartitions)
    (htotal : (a.numRequests p (a.homesAt p) : ℤ) = a.required p) {rm : RMALockManager}
    (hx : a.txn.id ∉ rm.txnInfo) (hfree : ∀ k, rm.lockTable k = {}) (hus : us.Perm (a.txn.partsAt sh p)) :
    ∃ ti, (us.foldl (fun rm u => (rm.acquireLocks u).1) rm).txnInfo.lookup a.txn.id = some ti ∧
      (ti.numWaitingFor ≤ 0 ↔ a.NotSelfBlocking p) := by
  have hparts : ∀ u ∈ us, u.id = a.txn.id ∧ u.numRequiredLocks = a.required p := fun u hu =>
    a.mem_partsAt hp (hus.mem_iff.mp hu)
  have hne : us ≠ [] := by
    rintro rfl
    exact a.partsAt_ne_nil hp hus.symm.eq_nil
  have hlen : (us.flatMap Transaction.lockRequests).length = a.numRequests p (a.homesAt p) := by
    rw [length_flatMap, (hus.map _).sum_eq, a.sum_partsAt hp]
  refine ⟨_, RMALockManager.foldl_acquireLocks (fun u hu => (hparts u hu).1)
    (fun u hu => (hparts u hu).2) hne rm, ?_⟩
  rw [AssocMap.not_mem_iff_lookup.mp hx, getD_none]
  obtain ⟨hle, hiff⟩ := RMALockManager.acquireAll_granted_iff (q := fun _ => []) hfree a.txn.id
    { numWaitingFor := a.required p } (us.flatMap Transaction.lockRequests)
  rw [hlen, htotal, sub_self] at hle hiff
  rw [← a.compatible_iff hp hus, hle.ge_iff_eq', hiff]
  simp

/-- **When a transaction can get all its locks**: a remaster if its regions and the keys of the
partition make two requests, and any transaction only if it does not block itself. -/
theorem getsAllLocks_iff (hp : p ∈ a.txn.internal.involvedPartitions) :
    a.txn.GetsAllLocks sh p ↔
      (a.txn.isRemaster = true →
        a.txn.internal.involvedRegions.length * (a.txn.keysAt sh p).length = 2) ∧
      a.NotSelfBlocking p := by
  rw [← numRequests_eq_required_iff]
  constructor
  · rintro ⟨htotal, -, hrma⟩
    obtain ⟨u, hmem⟩ := exists_mem_of_ne_nil _ (a.partsAt_ne_nil hp)
    have hsum := htotal _ hmem
    rw [a.sum_partsAt hp, (a.mem_partsAt hp hmem).2] at hsum
    have hnew : a.txn.id ∉ ({} : RMALockManager).txnInfo := by simp
    obtain ⟨ti, hti, hiff⟩ := a.rma_granted hp hsum hnew (fun _ => rfl) (Perm.refl _)
    obtain ⟨ti', hti', hle⟩ := hrma {} _ hnew (fun _ => rfl) (Perm.refl _)
    cases hti.symm.trans hti'
    exact ⟨hsum, hiff.mp hle⟩
  · rintro ⟨hsum, hblock⟩
    refine ⟨fun u hu => ?_, fun lm lm' cs hx hrun hrel hcs => ?_, fun rm us hx hfree hus => ?_⟩
    · rw [a.sum_partsAt hp, (a.mem_partsAt hp hu).2, hsum]
    · have hreq : ∀ u ∈ cs.filterMap (QueueCall.part a.txn.id),
          u.numRequiredLocks = a.required p :=
        fun u hu => (a.mem_partsAt hp (hcs.mem_iff.mp hu)).2
      obtain ⟨hun, hin⟩ := DDRLockManager.run_unarrived hrun hrel hreq
      have hne : cs.filterMap (QueueCall.part a.txn.id) ≠ [] := by
        intro hnil
        rw [hnil] at hcs
        exact a.partsAt_ne_nil hp hcs.symm.eq_nil
      obtain ⟨ti, hti⟩ := AssocMap.mem_iff_lookup.mp (hin.mpr (.inr hne))
      refine ⟨ti, hti, ?_⟩
      rw [DDRLockManager.unarrived, DDRLockManager.unarrived, hti,
        AssocMap.not_mem_iff_lookup.mp hx, (hcs.map _).sum_eq, a.sum_partsAt hp, hsum] at hun
      simpa using hun
    · obtain ⟨ti, hti, hiff⟩ := a.rma_granted hp hsum hx hfree hus
      exact ⟨ti, hti, hiff.mpr hblock⟩

/-- An entry of `A`, mastered at region `0`. -/
def onA (m : KeyType) : KeyValueEntry :=
  { key := "A", type := m, metadata := some { master := 0 } }

/-- The remaster of `A` to region `m`. -/
def moveA (m : RegionId) : Transaction :=
  { internal := { id := 1 }, program := .remaster m false, keys := [onA .write] }

/-- The remaster of `A` to region `1`. -/
def movedA : ForwardedTxn oneShard 2 where
  client := moveA 1
  txn := ((moveA 1).forward oneShard).getD (moveA 1)
  keys_ne_nil := by decide
  mastered := by decide
  regions_lt := by decide
  noRegions := rfl
  noPartitions := rfl
  forward_eq := by decide +kernel

/-- The remaster of `A` to the region where it is. -/
def unmovedA : ForwardedTxn oneShard 2 where
  client := moveA 0
  txn := ((moveA 0).forward oneShard).getD (moveA 0)
  keys_ne_nil := by decide
  mastered := by decide
  regions_lt := by decide
  noRegions := rfl
  noPartitions := rfl
  forward_eq := by decide +kernel

/-- A transaction that names `A` twice. -/
def twiceA : Transaction := { internal := { id := 1 }, keys := [onA .read, onA .write] }

def readAndWriteA : ForwardedTxn oneShard 2 where
  client := twiceA
  txn := (twiceA.forward oneShard).getD twiceA
  keys_ne_nil := by decide
  mastered := by decide
  regions_lt := by decide
  noRegions := rfl
  noPartitions := rfl
  forward_eq := by decide +kernel

theorem getsAllLocks_movedA :
    0 ∈ movedA.txn.internal.involvedPartitions ∧ movedA.txn.GetsAllLocks oneShard 0 := by
  have hp : 0 ∈ movedA.txn.internal.involvedPartitions := by decide +kernel
  refine ⟨hp, (movedA.getsAllLocks_iff hp).mpr ⟨by decide +kernel, ?_⟩⟩
  have hkeys : movedA.txn.keysAt oneShard 0 = [onA .write] := by decide +kernel
  rw [NotSelfBlocking, hkeys]
  exact pairwise_singleton _ _

/-- **The remaster to the current master requests one lock and waits for two**, and a transaction
that reads and writes a key by two entries waits for itself in the RMA lock manager. -/
theorem not_getsAllLocks :
    (unmovedA.txn.partsAt oneShard 0).map
        (fun u => (u.lockRequests.length, u.numRequiredLocks)) = [(1, 2)] ∧
      ¬ unmovedA.txn.GetsAllLocks oneShard 0 ∧ ¬ readAndWriteA.txn.GetsAllLocks oneShard 0 := by
  refine ⟨by decide +kernel, ?_, ?_⟩
  · intro h
    have hbad : ¬ ∀ u ∈ unmovedA.txn.partsAt oneShard 0,
        (((unmovedA.txn.partsAt oneShard 0).map fun v => v.lockRequests.length).sum : ℕ) =
          u.numRequiredLocks := by
      decide +kernel
    exact hbad h.total
  · intro h
    obtain ⟨ti, hti, hle⟩ := h.rma {} _ (by simp) (fun _ => rfl) (Perm.refl _)
    have hbad : ∀ ti ∈ (((readAndWriteA.txn.partsAt oneShard 0).foldl
        (fun rm u => (RMALockManager.acquireLocks rm u).1) {}).txnInfo.lookup
          readAndWriteA.txn.id), ti.numWaitingFor = 1 := by
      decide +kernel
    have hone := hbad ti hti
    omega

end ForwardedTxn

end Slog
