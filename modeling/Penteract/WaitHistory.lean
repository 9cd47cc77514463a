/-
# Waited-by lists in closed form

The waited-by list of a transaction in the lock manager is determined by the log and by the
components that have been resolved: a free slot and one slot per entry that names the
transaction, or, if the transaction was in a resolved component, the chain slot and the slots
with the members of the component blanked out.  The lists that the resolver prepares follow the
entries it has seen in the same way.  This module proves that the phases of the resolver keep
the two in step, although the lock manager's lists grow while the resolver works.
-/
import Penteract.DeadlockResolution
import Penteract.LogHistory

namespace Slog

open List Option AssocMap DeadlockResolver

/-! ## Components and slots -/

section Components

variable {sccs sccs' : List (List TxnId)} {c : List TxnId} {x : TxnId}

theorem mem_of_componentOf (h : componentOf sccs x = some c) : c ∈ sccs ∧ x ∈ c := by
  unfold componentOf at h
  exact ⟨mem_of_find?_eq_some h, by simpa using List.find?_some h⟩

theorem componentOf_eq_none : componentOf sccs x = none ↔ ∀ c ∈ sccs, x ∉ c := by
  rw [componentOf, List.find?_eq_none]
  simp only [decide_eq_true_eq]

/-- Components that do not meet can be told from their members. -/
theorem componentOf_of_mem (hdis : sccs.Pairwise List.Disjoint) (hc : c ∈ sccs) (hx : x ∈ c) :
    componentOf sccs x = some c := by
  induction sccs with
  | nil => cases hc
  | cons d sccs ih =>
    obtain ⟨hd, hdis'⟩ := pairwise_cons.mp hdis
    rcases mem_cons.mp hc with rfl | hc
    · simp [componentOf, hx]
    · have hxd : x ∉ d := fun h => hd c hc h hx
      have hskip : componentOf (d :: sccs) x = componentOf sccs x := by simp [componentOf, hxd]
      rw [hskip, ih hdis' hc]

theorem componentOf_append :
    componentOf (sccs ++ sccs') x = (componentOf sccs x).or (componentOf sccs' x) :=
  List.find?_append

end Components

theorem nextIn_congr {L L' : List TxnId} (h : ∀ y, y ∈ L ↔ y ∈ L') (x : TxnId) :
    nextIn L x = nextIn L' x := by
  rcases nextIn_cases L x with ⟨h1, h2⟩ | ⟨h1, h2, h3⟩ <;>
    rcases nextIn_cases L' x with ⟨k1, k2⟩ | ⟨k1, k2, k3⟩
  · rw [h1, k1]
  · exact absurd (h2 _ ((h _).mpr k1)) (not_le.mpr k2)
  · exact absurd (k2 _ ((h _).mp h1)) (not_le.mpr h2)
  · exact le_antisymm (h3 _ ((h _).mpr k1) k2) (k3 _ ((h _).mp h1) h2)

/-- The waited-by list of `u`, given the log and the resolved components. -/
def slotsOf (sccs : List (List TxnId)) (es : List LogEntry) (u : TxnId) : List TxnId :=
  match componentOf sccs u with
  | none => kSentinelTxnId :: outs es u
  | some c => chained c (c.filter fun y => decide (HasEntry es y)) u (outs es u)

variable {sccs : List (List TxnId)} {u : TxnId} {es : List LogEntry} {us : TxnInfoUpdates}
  {slots : TxnId → List TxnId}

theorem slotsOf_of_none (h : componentOf sccs u = none) (es : List LogEntry) :
    slotsOf sccs es u = kSentinelTxnId :: outs es u := by
  rw [slotsOf, h]

theorem slotsOf_of_some {c : List TxnId} (h : componentOf sccs u = some c) (es : List LogEntry) :
    slotsOf sccs es u =
      chained c (c.filter fun y => decide (HasEntry es y)) u (outs es u) := by
  rw [slotsOf, h]

/-- An entry of a transaction outside the resolved components adds one slot. -/
theorem slotsOf_concat {e : LogEntry} (he : ∀ c ∈ sccs, e.txnId ∉ c) (u : TxnId) :
    slotsOf sccs (es ++ [e]) u =
      slotsOf sccs es u ++ if u ∈ e.incomingEdges then [e.txnId] else [] := by
  have houts : outs (es ++ [e]) u = outs es u ++ if u ∈ e.incomingEdges then [e.txnId] else [] := by
    rw [outs_append, outs_singleton]
  cases hc : componentOf sccs u with
  | none => rw [slotsOf_of_none hc, slotsOf_of_none hc, houts, cons_append]
  | some c =>
    have hec : e.txnId ∉ c := he c (mem_of_componentOf hc).1
    have hlocal : (c.filter fun y => decide (HasEntry (es ++ [e]) y)) =
        c.filter fun y => decide (HasEntry es y) := by
      apply filter_congr
      intro y hy
      have hne : ¬ e.txnId = y := fun heq => hec (heq ▸ hy)
      rw [decide_eq_decide, hasEntry_append, hasEntry_singleton, or_iff_left hne]
    have hmask : mask c e.txnId = e.txnId := if_neg hec
    rw [slotsOf_of_some hc, slotsOf_of_some hc, hlocal, houts, chained, chained,
      map_append, cons_append]
    by_cases hu : u ∈ e.incomingEdges <;> simp [hu, hmask]

/-! ## The prepared updates follow the entries -/

/-- Between two runs: an update without changes for every transaction whose fate is open. -/
structure UpdatesInv (us : TxnInfoUpdates) (es : List LogEntry) (gone : List TxnId) : Prop where
  mem : ∀ x, x ∈ us ↔ HasEntry es x ∧ x ∉ gone
  fresh : ∀ x u, us.lookup x = some u →
    u = { numWaitingFor := 0, waitedBy := kSentinelTxnId :: outs es x }

namespace UpdatesInv

variable {us : TxnInfoUpdates} {es : List LogEntry} {gone : List TxnId}

theorem empty : UpdatesInv ∅ [] [] where
  mem x := iff_of_false (by simp) fun h => not_hasEntry_nil h.1
  fresh := by simp

/-- **An entry of the own log comes in.** -/
theorem reconstruct (h : UpdatesInv us es gone) {e : LogEntry} (hnd : e.incomingEdges.Nodup)
    (hgone : e.txnId ∉ gone) (hpred : ∀ u v, LogEdge es u v → HasEntry es u) :
    UpdatesInv (us.reconstructLocalTxnInfo e) (es ++ [e]) gone := by
  have hlook : ∀ x, (us.reconstructLocalTxnInfo e).lookup x =
      (if x = e.txnId then some ((us.lookup x).getD {}) else us.lookup x).map fun u =>
        if x ∈ e.incomingEdges then { u with waitedBy := u.waitedBy ++ [e.txnId] } else u := by
    intro x
    rw [TxnInfoUpdates.reconstructLocalTxnInfo, lookup_foldl_modify hnd]
    congr 1
    by_cases hx : x = e.txnId
    · subst hx
      by_cases hm : e.txnId ∈ us
      · obtain ⟨u, hu⟩ := mem_iff_lookup.mp hm
        simp [hm, hu]
      · simp [hm, not_mem_iff_lookup.mp hm]
    · by_cases hm : e.txnId ∈ us <;> simp [hm, hx]
  refine ⟨fun x => ?_, fun x u hu => ?_⟩
  · rw [mem_iff_lookup, hlook, hasEntry_append, hasEntry_singleton]
    by_cases hx : x = e.txnId
    · subst hx
      simp [hgone]
    · have hne : ¬ e.txnId = x := fun heq => hx heq.symm
      rw [if_neg hx, or_iff_left hne, ← h.mem, mem_iff_lookup]
      cases us.lookup x <;> simp
  · rw [hlook] at hu
    obtain ⟨u₀, hu₀, rfl⟩ := map_eq_some_iff.mp hu
    have hfresh : u₀ = { numWaitingFor := 0, waitedBy := kSentinelTxnId :: outs es x } := by
      by_cases hx : x = e.txnId
      · subst hx
        rw [if_pos rfl, some_inj] at hu₀
        cases hl : us.lookup e.txnId with
        | some u₁ =>
          rw [hl] at hu₀
          exact hu₀ ▸ h.fresh _ u₁ hl
        | none =>
          -- nobody waits for a transaction that has just come in
          have houts : outs es e.txnId = [] := by
            rw [eq_nil_iff_forall_not_mem]
            intro v hv
            exact not_mem_iff_lookup.mpr hl
              ((h.mem _).mpr ⟨hpred _ v (mem_outs.mp hv), hgone⟩)
          rw [hl] at hu₀
          rw [houts, ← hu₀]
          rfl
      · rw [if_neg hx] at hu₀
        exact h.fresh x u₀ hu₀
    rw [outs_append, outs_singleton, hfresh]
    by_cases hm : x ∈ e.incomingEdges <;> simp [hm]

end UpdatesInv

/-! ## The prepared updates after a run -/

/-- Between the phases of a run that has found the components `sccs`: the updates are those
from before the run, with the components resolved. -/
structure Resolved (r : DeadlockResolver) (es : List LogEntry) (gone : List TxnId)
    (sccs : List (List TxnId)) (us₀ : TxnInfoUpdates) (gone₀ : List TxnId) : Prop where
  before : UpdatesInv us₀ es gone₀
  gone_eq : gone = gone₀ ++ r.dfsOrder
  nonzero : kSentinelTxnId ∉ us₀
  members : ∀ c ∈ sccs, c.Nodup ∧ kSentinelTxnId ∉ c ∧ ∀ x ∈ c, x ∈ r.dfsOrder
  fresh : ∀ x ∈ r.dfsOrder, x ∉ gone₀
  disjoint : sccs.Pairwise List.Disjoint
  todo : r.toBeUpdated = sccs.flatMap (localMembers us₀)
  lookup : ∀ y, r.txnInfoUpdates.lookup y = (us₀.lookup y).map fun u =>
    { numWaitingFor := u.numWaitingFor + countChange us₀ (outs es) sccs y,
      waitedBy := match componentOf sccs y with
        | none => u.waitedBy
        | some c => chained c (localMembers us₀ c) y (outs es y) }

theorem countChange_of_none {y : TxnId} (hy : y ≠ kSentinelTxnId) (h : componentOf sccs y = none) :
    countChange us slots sccs y = 0 := by
  rw [componentOf_eq_none] at h
  apply sum_eq_zero
  intro z hz
  obtain ⟨c, hc, rfl⟩ := mem_map.mp hz
  apply sum_eq_zero
  intro w hw
  obtain ⟨x, -, rfl⟩ := mem_map.mp hw
  exact slotChange_of_notMem (fun z hz => (mem_localMembers.mp hz).1) hy (h c hc)

/-- The change of a counter, summed over all the updated transactions. -/
theorem sum_slotChange (hdis : sccs.Pairwise List.Disjoint) (y : TxnId) :
    ((sccs.flatMap (localMembers us)).map fun x =>
      match componentOf sccs x with
      | none => 0
      | some c => slotChange c (localMembers us c) slots x y).sum =
        countChange us slots sccs y := by
  rw [List.map_flatMap, List.flatMap_def, List.sum_flatten, List.map_map, countChange]
  congr 1
  apply List.map_congr_left
  intro c hc
  rw [Function.comp_apply]
  congr 1
  apply List.map_congr_left
  intro x hx
  rw [componentOf_of_mem hdis hc (mem_localMembers.mp hx).1]

namespace Resolved

variable {r : DeadlockResolver} {es : List LogEntry} {gone gone₀ : List TxnId}
  {sccs : List (List TxnId)} {us₀ : TxnInfoUpdates}

variable {x : TxnId}

theorem mem_todo (h : Resolved r es gone sccs us₀ gone₀) :
    x ∈ r.toBeUpdated ↔ ∃ c ∈ sccs, x ∈ c ∧ HasEntry es x := by
  rw [h.todo, mem_flatMap]
  constructor
  · rintro ⟨c, hc, hx⟩
    obtain ⟨hxc, hxu⟩ := mem_localMembers.mp hx
    exact ⟨c, hc, hxc, ((h.before.mem x).mp hxu).1⟩
  · rintro ⟨c, hc, hxc, hent⟩
    exact ⟨c, hc, mem_localMembers.mpr ⟨hxc,
      (h.before.mem x).mpr ⟨hent, h.fresh x ((h.members c hc).2.2 x hxc)⟩⟩⟩

theorem todo_nodup (h : Resolved r es gone sccs us₀ gone₀) : r.toBeUpdated.Nodup := by
  rw [h.todo, nodup_flatMap]
  refine ⟨fun c hc => ?_, h.disjoint.imp ?_⟩
  rotate_left
  · intro c d hcd x hx hx'
    exact hcd (mem_localMembers.mp hx).1 (mem_localMembers.mp hx').1
  exact (localMembers_desc us₀ (h.members c hc).1).imp fun hgt => (ne_of_gt hgt)

/-- The update of a local member. -/
theorem lookup_member (h : Resolved r es gone sccs us₀ gone₀) {c : List TxnId} (hc : c ∈ sccs)
    (hx : x ∈ c) (hent : HasEntry es x) :
    r.txnInfoUpdates.lookup x = some
      { numWaitingFor := countChange us₀ (outs es) sccs x,
        waitedBy := chained c (localMembers us₀ c) x (outs es x) } := by
  have hmem : x ∈ us₀ :=
    (h.before.mem x).mpr ⟨hent, h.fresh x ((h.members c hc).2.2 x hx)⟩
  obtain ⟨u, hu⟩ := mem_iff_lookup.mp hmem
  rw [h.lookup, hu, h.before.fresh x u hu, componentOf_of_mem h.disjoint hc hx, map_some,
    zero_add]

/-- **The end of a run.** -/
theorem cleanUp (h : Resolved r es gone sccs us₀ gone₀) :
    UpdatesInv r.cleanUp.txnInfoUpdates es gone := by
  have hl : ∀ x, r.cleanUp.txnInfoUpdates.lookup x =
      if x ∈ r.dfsOrder then none else us₀.lookup x := by
    intro x
    rw [DeadlockResolver.cleanUp, lookup_foldl_erase]
    by_cases hx : x ∈ r.dfsOrder
    · simp [hx]
    · rw [if_neg hx, if_neg hx, h.lookup]
      have hnone : componentOf sccs x = none :=
        componentOf_eq_none.mpr fun c hc hxc => hx ((h.members c hc).2.2 x hxc)
      cases hu : us₀.lookup x with
      | none => rfl
      | some u =>
        have hx0 : x ≠ kSentinelTxnId := by
          rintro rfl
          exact h.nonzero (mem_iff_lookup.mpr ⟨u, hu⟩)
        rw [map_some, countChange_of_none hx0 hnone, hnone, add_zero]
  refine ⟨fun x => ?_, fun x u hu => ?_⟩
  · rw [mem_iff_lookup, hl, h.gone_eq, mem_append, not_or, ← and_assoc,
      ← h.before.mem, mem_iff_lookup]
    by_cases hx : x ∈ r.dfsOrder <;> simp [hx]
  · rw [hl] at hu
    split_ifs at hu
    exact h.before.fresh x u hu

end Resolved

/-- **A run prepares the updates.** -/
theorem UpdatesInv.resolved {r : DeadlockResolver} {E : TxnId → TxnId → Prop} {gone : List TxnId}
    (h : UpdatesInv r.txnInfoUpdates es gone) (hnz : ∀ x, HasEntry es x → x ≠ kSentinelTxnId)
    {out : List TxnId} {handed : List (List TxnId)} (hf : Found r.graph E out handed)
    (hout : ∀ x ∈ out, x ∉ gone ∧ x ≠ kSentinelTxnId) (hcomp : ∀ c ∈ handed, ∀ x ∈ c, x ∈ out) :
    ∃ r', { r with dfsOrder := out, toBeUpdated := [] }.resolveAll handed = some r' ∧
      Resolved r' es (gone ++ out) handed r.txnInfoUpdates gone := by
  have h0 : kSentinelTxnId ∉ r.txnInfoUpdates := fun hm => hnz _ ((h.mem _).mp hm).1 rfl
  obtain ⟨us', hres, hlook⟩ := resolveAll_spec (r := { r with dfsOrder := out, toBeUpdated := [] })
    h0 (fun c hc => ⟨(hf.comp c hc).2.1, fun hm => (hout _ (hcomp c hc _ hm)).2 rfl⟩) hf.disjoint
    (fun c hc x hx u hu => by rw [h.fresh x u hu])
    (fun c hc x hx hxu w hw hwc => (h.mem w).mpr
      ⟨(mem_outs.mp hw).hasEntry, (hout w (hcomp c hc w hwc)).1⟩)
  exact ⟨_, hres, h, rfl, h0,
    fun c hc => ⟨(hf.comp c hc).2.1, fun hm => (hout _ (hcomp c hc _ hm)).2 rfl, hcomp c hc⟩,
    fun x hx => (hout x hx).1, hf.disjoint, rfl, hlook⟩

/-! ## The lists of the lock manager -/

/-- **The waited-by lists in closed form**, and the flag that tells whether a transaction was in
a resolved component. -/
structure SlotInv (info : TxnInfoMap) (applied : List (List TxnId)) (hist : List LogEntry) :
    Prop where
  slots : ∀ u ti, info.lookup u = some ti → ti.waitedBy = slotsOf applied hist u
  flag : ∀ u ti, info.lookup u = some ti → (ti.deadlocked = true ↔ ∃ c ∈ applied, u ∈ c)

theorem exists_component_iff : (∃ c ∈ sccs, u ∈ c) ↔ componentOf sccs u ≠ none := by
  rw [ne_eq, componentOf_eq_none]
  push Not
  rfl

namespace SlotInv

variable {W : Submission} {p : PartitionId} {ps ps' : PartitionState}

theorem empty : SlotInv ∅ [] [] where
  slots := by simp
  flag := by simp

variable {x : TxnId}

/-- **A part arrives** of a transaction that is not in a resolved component and does not block
itself. -/
theorem acquire (hS : SlotInv ps.lm.txnInfo ps.applied ps.hist) (hH : HistInv W p ps) {h : RegionId}
    (hs : ps.acquire W p x h = some ps') (hx : ∀ c ∈ ps.applied, x ∉ c)
    (hself : x ∉ ps.lm.blocking (W.part p x h)) : SlotInv ps'.lm.txnInfo ps'.applied ps'.hist := by
  obtain ⟨-, hx0, -, hh, hnew, hrel, rfl⟩ := PartitionState.acquire_inv hs
  have hentry := hH.entry_eq hx0 hh hnew hrel
  have hnone : componentOf ps.applied x = none := componentOf_eq_none.mpr hx
  -- the list of `x` itself
  have hbase : (ps.lm.baseInfo (W.part p x h)).waitedBy = slotsOf ps.applied ps.hist x ∧
      ((ps.lm.baseInfo (W.part p x h)).deadlocked = true ↔ ∃ c ∈ ps.applied, x ∈ c) := by
    rw [DDRLockManager.baseInfo, W.part_id]
    cases hl : ps.lm.txnInfo.lookup x with
    | some ti => exact ⟨hS.slots x ti hl, hS.flag x ti hl⟩
    | none =>
      have hno : ¬ HasEntry ps.hist x := fun hent =>
        not_mem_iff_lookup.mpr hl (hH.live_iff.mpr ⟨hent, hrel⟩)
      have houts : outs ps.hist x = [] := by
        rw [eq_nil_iff_forall_not_mem]
        intro v hv
        exact hno (hH.ok.edge (mem_outs.mp hv))
      rw [slotsOf_of_none hnone, houts, exists_component_iff, hnone]
      simp [TxnInfo.new]
  refine ⟨fun u tu hu => ?_, fun u tu hu => ?_⟩
  · show tu.waitedBy = slotsOf ps.applied (ps.hist ++ [_]) u
    rw [slotsOf_concat (by rw [hentry]; exact hx), hentry]
    rcases DDRLockManager.enterLocks_cases hu with ⟨hux, rfl⟩ | ⟨hux, ti, hti, rfl⟩
    · rw [W.part_id] at hux
      rw [hux, if_neg hself, append_nil]
      exact hbase.1
    · rw [← hS.slots u ti hti, W.part_id]
  · rcases DDRLockManager.enterLocks_cases hu with ⟨hux, rfl⟩ | ⟨hux, ti, hti, rfl⟩
    · rw [W.part_id] at hux
      rw [hux]
      exact hbase.2
    · exact hS.flag u ti hti

/-- **A transaction is released.** -/
theorem release (hS : SlotInv ps.lm.txnInfo ps.applied ps.hist) (hH : HistInv W p ps)
    (hs : ps.release x = some ps') : SlotInv ps'.lm.txnInfo ps'.applied ps'.hist := by
  obtain ⟨-, ti, hti, hr, rfl⟩ := PartitionState.release_inv hs
  refine ⟨fun u tu hu => ?_, fun u tu hu => ?_⟩ <;>
    obtain ⟨-, tu₀, htu₀, rfl⟩ := DDRLockManager.released_cases hH.lock.sentinel hu
  · exact hS.slots u tu₀ htu₀
  · exact hS.flag u tu₀ htu₀

section Apply

variable {r : DeadlockResolver} {es tail : List LogEntry} {gone gone₀ : List TxnId}
  {applied sccs : List (List TxnId)} {us₀ : TxnInfoUpdates} {info info' : TxnInfoMap}
  {ready : List TxnId}

variable {c : List TxnId} {x : TxnId} {ti : TxnInfo}

variable (hS : SlotInv info applied (es ++ tail)) (hR : Resolved r es gone sccs us₀ gone₀)
  (hdis : (applied ++ sccs).Pairwise List.Disjoint) (htail : ∀ c ∈ sccs, ∀ x ∈ c, ¬ HasEntry tail x)

include hS hR hdis htail

/-- The list of a local member as the resolver finds it and as it leaves it.  The entries in
`tail` came after the resolver's snapshot; none of them is a member's. -/
theorem member (hc : c ∈ sccs) (hx : x ∈ c) (hti : info.lookup x = some ti) :
    ti.waitedBy = kSentinelTxnId :: (outs es x ++ outs tail x) ∧
      slotsOf (applied ++ sccs) (es ++ tail) x =
        chained c (localMembers us₀ c) x (outs es x) ++ outs tail x := by
  have hnone : componentOf applied x = none := by
    rw [componentOf_eq_none]
    intro d hd hxd
    exact (pairwise_append.mp hdis).2.2 d hd c hc hxd hx
  have hsome : componentOf (applied ++ sccs) x = some c := by
    rw [componentOf_append, hnone, none_or, componentOf_of_mem hR.disjoint hc hx]
  refine ⟨by rw [hS.slots x ti hti, slotsOf_of_none hnone, outs_append], ?_⟩
  have hlocal : ∀ y, y ∈ c.filter (fun y => decide (HasEntry (es ++ tail) y)) ↔
      y ∈ localMembers us₀ c := by
    intro y
    rw [mem_filter, decide_eq_true_eq, mem_localMembers, and_congr_right_iff]
    intro hy
    rw [hasEntry_append, or_iff_left (htail c hc y hy), hR.before.mem]
    exact (and_iff_left (hR.fresh y ((hR.members c hc).2.2 y hy))).symm
  have hmask : (outs tail x).map (mask c) = outs tail x := by
    have hfix : ∀ v ∈ outs tail x, mask c v = v := fun v hv =>
      if_neg fun hvc => htail c hc v hvc (mem_outs.mp hv).hasEntry
    rw [List.map_congr_left hfix, List.map_id']
  rw [slotsOf_of_some hsome, outs_append, chained, chained, map_append, hmask,
    nextIn_congr hlocal, cons_append]

/-- One update: the new entry of a local member. -/
theorem applied_member (hc : c ∈ sccs) (hx : x ∈ c) (hent : HasEntry es x)
    (hti : info.lookup x = some ti) {u : TxnInfoUpdate} (hu : r.txnInfoUpdates.lookup x = some u) :
    appliedInfo u ti = { ti with
      deadlocked := true,
      waitedBy := slotsOf (applied ++ sccs) (es ++ tail) x,
      numWaitingFor := ti.numWaitingFor + countChange us₀ (outs es) sccs x } := by
  obtain ⟨h1, h2⟩ := hS.member hR hdis htail hc hx hti
  rw [hR.lookup_member hc hx hent, some_inj] at hu
  have hdrop : ti.waitedBy.drop (chained c (localMembers us₀ c) x (outs es x)).length =
      outs tail x := by
    rw [h1, chained, length_cons, length_map, drop_succ_cons, drop_left]
  rw [← hu, appliedInfo, hdrop, h2]

variable (hent : ∀ x ∈ info, HasEntry (es ++ tail) x)
  (ha : applyUpdates r.txnInfoUpdates r.toBeUpdated info = some (info', ready))

include hent ha

/-- What `apply` does to every entry. -/
theorem applied_cases {y : TxnId} {ty : TxnInfo} (hy : info'.lookup y = some ty) :
    (∃ c ∈ sccs, y ∈ c ∧ y ∈ r.toBeUpdated ∧ ∃ ti, info.lookup y = some ti ∧ ty = { ti with
      deadlocked := true,
      waitedBy := slotsOf (applied ++ sccs) (es ++ tail) y,
      numWaitingFor := ti.numWaitingFor + countChange us₀ (outs es) sccs y }) ∨
    (componentOf sccs y = none ∧ info.lookup y = some ty) := by
  obtain ⟨h1, h2, -⟩ := applyUpdates_spec hR.todo_nodup ha
  by_cases hmem : y ∈ r.toBeUpdated
  · obtain ⟨c, hc, hyc, hyes⟩ := hR.mem_todo.mp hmem
    obtain ⟨u, ti, hu, hti, -, hl⟩ := h1 y hmem
    rw [hl, some_inj] at hy
    exact .inl ⟨c, hc, hyc, hmem, ti, hti,
      hy ▸ hS.applied_member hR hdis htail hc hyc hyes hti hu⟩
  · rw [h2 y hmem] at hy
    refine .inr ⟨componentOf_eq_none.mpr fun c hc hyc => hmem ?_, hy⟩
    rcases hasEntry_append.mp (hent y (mem_iff_lookup.mpr ⟨ty, hy⟩)) with h | h
    · exact hR.mem_todo.mpr ⟨c, hc, hyc, h⟩
    · exact absurd h (htail c hc y hyc)

/-- **The updates are applied**: the lists keep their closed form. -/
theorem apply : SlotInv info' (applied ++ sccs) (es ++ tail) := by
  refine ⟨fun u tu hu => ?_, fun u tu hu => ?_⟩
  · rcases hS.applied_cases hR hdis htail hent ha hu with ⟨c, -, -, -, ti, -, rfl⟩ | ⟨hn, hl⟩
    · rfl
    · rw [hS.slots u tu hl, slotsOf, slotsOf, componentOf_append, hn, or_none]
  · rcases hS.applied_cases hR hdis htail hent ha hu with ⟨c, hc, huc, -, ti, -, rfl⟩ | ⟨hn, hl⟩
    · exact iff_of_true rfl ⟨c, mem_append_right _ hc, huc⟩
    · rw [hS.flag u tu hl, exists_component_iff, exists_component_iff, componentOf_append, hn,
        or_none]

/-- **The updates are applied**: the counters still count. -/
theorem apply_waits (hW : WaitsInv info) : WaitsInv info' := by
  have hmem : ∀ y, y ∈ info' ↔ y ∈ info := fun y => mem_applyUpdates hR.todo_nodup ha
  obtain ⟨h1, -, -⟩ := applyUpdates_spec hR.todo_nodup ha
  have hcount : ∀ v, waitCount info' v = waitCount info v + countChange us₀ (outs es) sccs v := by
    intro v
    rw [← sum_slotChange hR.disjoint v, ← hR.todo]
    refine waitCount_applyUpdates hR.todo_nodup ha fun x hx u ti hu hti => ?_
    obtain ⟨c, hc, hxc, hxes⟩ := hR.mem_todo.mp hx
    obtain ⟨k1, k2⟩ := hS.member hR hdis htail hc hxc hti
    rw [hS.applied_member hR hdis htail hc hxc hxes hti hu, k1, k2,
      componentOf_of_mem hR.disjoint hc hxc]
    show _ = slotChange c (localMembers us₀ c) (outs es) x v
    rw [slotChange, ← cons_append, count_append, count_append]
    push_cast
    ring
  refine ⟨fun h0 => hW.sentinel ((hmem _).mp h0), fun u tu hu v hv => ?_, fun v tv hv => ?_⟩
  · rw [hmem]
    rcases hS.applied_cases hR hdis htail hent ha hu with ⟨c, hc, huc, -, ti, hti, rfl⟩ | ⟨-, hl⟩
    · obtain ⟨k1, k2⟩ := hS.member hR hdis htail hc huc hti
      have hold : ∀ w ∈ outs es u ++ outs tail u, w = kSentinelTxnId ∨ w ∈ info := fun w hw =>
        hW.live u ti hti w (k1 ▸ mem_cons_of_mem _ hw)
      rw [k2, chained, cons_append] at hv
      rcases mem_cons.mp hv with rfl | hv
      · -- the chain slot holds a member, and all local members are there
        rcases nextIn_cases (localMembers us₀ c) u with h | h
        · exact .inl h.1
        · have htodo : nextIn (localMembers us₀ c) u ∈ r.toBeUpdated := by
            rw [hR.todo]
            exact mem_flatMap.mpr ⟨c, hc, h.1⟩
          obtain ⟨-, t, -, ht, -⟩ := h1 _ htodo
          exact .inr (mem_iff_lookup.mpr ⟨t, ht⟩)
      · rcases mem_append.mp hv with hv | hv
        · obtain ⟨w, hw, rfl⟩ := mem_map.mp hv
          unfold mask
          split_ifs
          · exact .inl rfl
          · exact hold w (mem_append_left _ hw)
        · exact hold v (mem_append_right _ hv)
    · exact hW.live u tu hl v hv
  · rw [hcount]
    rcases hS.applied_cases hR hdis htail hent ha hv with ⟨c, hc, hvc, -, ti, hti, rfl⟩ | ⟨hn, hl⟩
    · show ti.numWaitingFor + _ = _
      rw [hW.count v ti hti]
    · rw [hW.count v tv hl, countChange_of_none (hW.ne_sentinel hl) hn, add_zero]

end Apply

end SlotInv

end Slog
