/-
# Waited-by lists and their snapshot

Two facts about the waited-by lists that the lock manager and its resolver share.  The counters
of the lock manager count the occurrences in the lists, however the phases of the resolver fall
between the calls.  The lists that the resolver rebuilds from the log are beginnings of the lists
of the lock manager, so that the updates it copies over them fit.

The second fact needs that no part requests a key-region twice with a write among the two
requests.  `AcquireLocks` leaves a transaction that blocks itself out of its own waited-by list
but not out of the log, and the resolver takes the log at its word.
-/
import Penteract.MutualExclusion

namespace Slog

open Option DeadlockResolver

/-! ## Counters -/

namespace PartitionState

/-- The counters count the edges of the waits-for graph, and no edge leads to a transaction that
is not there. -/
structure CountsWaits (ps : PartitionState) : Prop where
  count : ∀ x ti, ps.lm.txnInfo.lookup x = some ti → ti.numWaitingFor = waitCount ps.lm.txnInfo x
  nonneg : ∀ x ti, ps.lm.txnInfo.lookup x = some ti → 0 ≤ ti.numWaitingFor
  live : ∀ x ti, ps.lm.txnInfo.lookup x = some ti → ∀ v ∈ ti.waitedBy, v ≠ kSentinelTxnId →
    v ∈ ps.lm.txnInfo

end PartitionState

namespace Cluster

/-- **The counters count the waits-for edges** in every reachable state. -/
theorem countsWaits_of_reachable (W : Workload) (n : ℕ) {s : Cluster}
    (h : Lts.Reachable (Cluster.step W n) {} s) (p : PartitionId) : (s.part p).CountsWaits := by
  have hW := ((Inv.reachable h).lists p).waits
  refine ⟨hW.count, fun x ti hx => hW.numWaitingFor_nonneg hx, fun x ti hx v hv h0 => ?_⟩
  exact (hW.live x ti hx v hv).resolve_left h0

/-- The deadlock over two partitions has been resolved; 2 waits for 1. -/
theorem countsWaits_cross : ∃ s, Lts.run (Cluster.step crossWorkload 2) {} crossEvents = some s ∧
    ((s.part 0).lm.txnInfo.lookup 2).map TxnInfo.numWaitingFor = some 1 ∧
    (s.part 0).CountsWaits := by
  refine Lts.exists_run (p := fun s =>
    ((s.part 0).lm.txnInfo.lookup 2).map TxnInfo.numWaitingFor = some 1) (by decide +kernel) ?_
  exact fun s hs h => ⟨h, countsWaits_of_reachable crossWorkload 2 ⟨crossEvents, hs⟩ 0⟩

end Cluster

/-! ## Snapshots -/

/-- A list can be copied over the beginning of another: it is not longer, it fills the free slot
and blanks out members of the component `c`, and everything else is what it was. -/
structure FitsOver (c new old : List TxnId) : Prop where
  length : new.length ≤ old.length
  free : old.head? = some kSentinelTxnId
  slots : ∀ (i : ℕ) v w, new.tail[i]? = some v → old.tail[i]? = some w →
    v = w ∨ v = kSentinelTxnId ∧ w ∈ c

/-- What the resolver leaves of the slots of its snapshot can be copied over the longer list. -/
theorem fitsOver_chained (c L : List TxnId) (x : TxnId) (slots later : List TxnId) :
    FitsOver c (chained c L x slots) (kSentinelTxnId :: (slots ++ later)) where
  length := by simp [chained]
  free := rfl
  slots i v w hv hw := by
    rw [chained, List.tail_cons, List.getElem?_map] at hv
    obtain ⟨v₀, hv₀, rfl⟩ := map_eq_some_iff.mp hv
    have hi : i < slots.length := (List.getElem?_eq_some_iff.mp hv₀).1
    rw [List.tail_cons, List.getElem?_append_left hi, hv₀, some_inj] at hw
    subst hw
    by_cases hmem : v₀ ∈ c
    · exact .inr ⟨if_pos hmem, hmem⟩
    · exact .inl (if_neg hmem)

namespace PartitionState

/-- The lists of the resolver fit those of the lock manager. -/
structure SnapshotFits (ps : PartitionState) : Prop where
  /-- A run that has taken over the log finds the beginnings of the lists. -/
  rebuilt : ps.stage = .idle → ∀ x u ti, ps.updatedResolver.txnInfoUpdates.lookup x = some u →
    ps.lm.txnInfo.lookup x = some ti → u.waitedBy <+: ti.waitedBy
  /-- The lists of a run that has found the components `sccs` can be copied. -/
  copied : ∀ sccs, ps.stage = .found sccs → ∀ x ∈ ps.resolver.toBeUpdated, ∀ u ti,
    ps.resolver.txnInfoUpdates.lookup x = some u → ps.lm.txnInfo.lookup x = some ti →
    ∃ c ∈ sccs, x ∈ c ∧ FitsOver c u.waitedBy ti.waitedBy

end PartitionState

namespace Cluster

section Snapshot

variable {W : Submission} {n : ℕ} {s : Cluster} {p : PartitionId} (hI : Inv W n s) (hp : p < n)
include hI hp

variable {x : TxnId} {ti : TxnInfo} {u : TxnInfoUpdate}

/-- The list of a transaction that no run has looked at. -/
theorem Inv.waitedBy_of_notMem_gone (hx : x ∉ (s.part p).gone)
    (hti : (s.part p).lm.txnInfo.lookup x = some ti) :
    ti.waitedBy = kSentinelTxnId :: outs (s.part p).hist x := by
  have hnone : componentOf (s.part p).applied x = none :=
    componentOf_eq_none.mpr fun c hc hxc =>
      hx (hI.handed_gone hp (List.mem_append_left _ hc) hxc)
  rw [(hI.part p).slots.slots x ti hti, slotsOf_of_none hnone]

theorem Inv.rebuilt_prefix (hidle : (s.part p).stage = .idle)
    (hu : (s.part p).updatedResolver.txnInfoUpdates.lookup x = some u)
    (hti : (s.part p).lm.txnInfo.lookup x = some ti) : u.waitedBy <+: ti.waitedBy := by
  have hU := hI.updatesInv_updatedResolver hp hidle
  have hx := ((hU.mem x).mp (AssocMap.mem_iff_lookup.mpr ⟨u, hu⟩)).2
  have hlater : outs (s.part p).hist x =
      outs ((s.part p).seenFrom p ++ (s.part p).lm.takeLog.2) x ++
        outs (s.part p).entry.toList x := by
    rw [hI.hist_eq_takeLog hp, outs_append]
  rw [hU.fresh x u hu, hI.waitedBy_of_notMem_gone hp hx hti, hlater, ← List.cons_append]
  exact List.prefix_append _ _

theorem Inv.copied_fits {sccs : List (List TxnId)} (hstage : (s.part p).stage = .found sccs)
    (hx : x ∈ (s.part p).resolver.toBeUpdated)
    (hu : (s.part p).resolver.txnInfoUpdates.lookup x = some u)
    (hti : (s.part p).lm.txnInfo.lookup x = some ti) :
    ∃ c ∈ sccs, x ∈ c ∧ FitsOver c u.waitedBy ti.waitedBy := by
  obtain ⟨⟨us₀, gone₀, hR⟩, hdis, htail, -⟩ := hI.apply_context hp hstage
  obtain ⟨c, hc, hxc, hent⟩ := hR.mem_todo.mp hx
  rw [hR.lookup_member hc hxc hent, some_inj] at hu
  have hlist := ((hI.slots_context hp).member hR hdis htail hc hxc hti).1
  rw [← hu, hlist]
  exact ⟨c, hc, hxc, fitsOver_chained c _ x _ _⟩

end Snapshot

/-- **The snapshot of the resolver fits** in every run in which no part requests a key-region
twice with a write among the two requests. -/
theorem snapshotFits_of_compatible (W : Submission) (n : ℕ) {es : List Event} {s : Cluster}
    (hrun : Lts.run (Cluster.step W n) {} es = some s) (hC : ∀ e ∈ es, W.Compatible e)
    {p : PartitionId} (hp : p < n) : (s.part p).SnapshotFits := by
  have hI := Inv.of_compatible hrun hC
  exact ⟨fun hidle x u ti hu hti => hI.rebuilt_prefix hp hidle hu hti,
    fun sccs hstage x hx u ti hu hti => hI.copied_fits hp hstage hx hu hti⟩

theorem snapshotFits_cross :
    ∃ s, Lts.run (Cluster.step crossWorkload 2) {} crossEvents = some s ∧
      (∀ e ∈ crossEvents, crossWorkload.Compatible e) ∧ (s.part 0).SnapshotFits := by
  have hsome : (Lts.run (Cluster.step crossWorkload 2) {} crossEvents).isSome = true := by
    decide +kernel
  have hC : ∀ e ∈ crossEvents, crossWorkload.Compatible e := by decide +kernel
  obtain ⟨s, hs⟩ := isSome_iff_exists.mp hsome
  exact ⟨s, hs, hC, snapshotFits_of_compatible crossWorkload 2 hs hC (by decide)⟩

/-- **The rebuilt list is not a beginning of the list, and the copy does not fit.**  The list of
1 in the lock manager is the free slot and 2; the resolver rebuilds the free slot, 1 and 2, and
has three slots to copy over two. -/
theorem not_snapshotFits_twice :
    (∃ s, Lts.run (Cluster.step twiceSubmission 1) {} twiceEvents = some s ∧
      ¬ (s.part 0).SnapshotFits) ∧
    ∃ s, Lts.run (Cluster.step twiceSubmission 1) {}
        (twiceEvents ++ [.act 0 (.find [1, 2])]) = some s ∧
      (s.part 0).apply.isSome = false ∧ ¬ (s.part 0).SnapshotFits := by
  constructor
  · refine Lts.exists_run (p := fun s => (s.part 0).stage = .idle ∧
      (∃ u ∈ (s.part 0).updatedResolver.txnInfoUpdates.lookup 1, u.waitedBy = [0, 1, 2]) ∧
      ∃ ti ∈ (s.part 0).lm.txnInfo.lookup 1, ti.waitedBy = [0, 2]) (by decide +kernel) ?_
    rintro s - ⟨hidle, ⟨u, hu, hul⟩, ti, hti, htl⟩ hfit
    have hpre := hfit.rebuilt hidle 1 u ti hu hti
    rw [hul, htl] at hpre
    exact absurd hpre (by decide)
  · refine Lts.exists_run (p := fun s => (s.part 0).stage = .found [[1, 2]] ∧
      1 ∈ (s.part 0).resolver.toBeUpdated ∧
      (∃ u ∈ (s.part 0).resolver.txnInfoUpdates.lookup 1, u.waitedBy = [2, 0, 0]) ∧
      (∃ ti ∈ (s.part 0).lm.txnInfo.lookup 1, ti.waitedBy = [0, 2]) ∧
      (s.part 0).apply.isSome = false) (by decide +kernel) ?_
    rintro s - ⟨hstage, htodo, ⟨u, hu, hul⟩, ⟨ti, hti, htl⟩, happly⟩
    refine ⟨happly, fun hfit => ?_⟩
    obtain ⟨c, -, -, hover⟩ := hfit.copied _ hstage 1 htodo u ti hu hti
    have hlen := hover.length
    rw [hul, htl] at hlen
    exact absurd hlen (by decide)

end Cluster

end Slog
