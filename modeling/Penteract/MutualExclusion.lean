/-
# Mutual exclusion

The lock table keeps only the tails of the queues, so that a request is kept from its lock by a
chain of waits-for edges that may run through other requests.  Resolving a deadlock takes edges
out of such a chain.  Inside a deadlock the new chain of its members makes up for it.  A
transaction outside the deadlock can lose its protection, however: if the resolver turns around
two members of a deadlock that conflict on a key-region, a third transaction that is in the same
queue may get its lock together with one of them.  Without such a third transaction the lock
manager does exclude conflicting transactions.
-/
import Penteract.DeadlockFreedom

namespace Slog

open List AssocMap Components DeadlockResolver Relation

namespace PartitionState

variable (W : Workload) (p : PartitionId) (ps : PartitionState)

/-- No two ready transactions have conflicting requests on a key-region. -/
def Exclusive : Prop :=
  ∀ x y, x ≠ y → ps.isReady x = true → ps.isReady y = true → ∀ k mx my,
    (x, mx) ∈ W.queue p ps.arrived k → (y, my) ∈ W.queue p ps.arrived k → ¬ Conflict mx my

/-- The two transactions are members of one resolved deadlock. -/
def Together (x y : TxnId) : Prop := ∃ c ∈ ps.applied, x ∈ c ∧ y ∈ c

/-- The resolver has turned around two requests of one queue, made by members of a deadlock, and
a transaction that is not a member has a request in this queue that conflicts with both. -/
def TurnedAround : Prop :=
  ∃ c ∈ ps.applied, ∃ k r s t, ConflictsBefore (W.queue p ps.arrived k) r s ∧
    r.1 ∈ c ∧ s.1 ∈ c ∧ s.1 < r.1 ∧ r.1 ∈ ps.lm.txnInfo ∧
    t ∈ W.queue p ps.arrived k ∧ t.1 ∉ c ∧ t.1 ∈ ps.lm.txnInfo ∧
    Conflict r.2 t.2 ∧ Conflict s.2 t.2

/-- **The order that the locks keep.**  The log has the blocking pairs of the queues; a deadlock
is worked off in the order of the ids, and conflicting requests of transactions that are not in
one deadlock in the order of the queue. -/
structure OrderInv : Prop where
  edges : ∀ k u v, Blocks (W.queue p ps.arrived k) u v → LogEdge ps.hist u v
  chain : ∀ c ∈ ps.applied, ∀ x ∈ c, ∀ y ∈ c, x < y → HasEntry ps.hist x → HasEntry ps.hist y →
    y ∈ ps.released → x ∈ ps.released
  order : ∀ k r s, ConflictsBefore (W.queue p ps.arrived k) r s → ¬ ps.Together r.1 s.1 →
    s.1 ∈ ps.released → r.1 ∈ ps.released

end PartitionState

open PartitionState

/-! ## Who waits -/

/-- The chain of a list: every member but the smallest is the next one of a member, and what
lies below it lies below that member as well. -/
theorem exists_nextIn_eq {L : List TxnId} {x y : TxnId} (hx : x ∈ L) (hy : y ∈ L) (hxy : x < y) :
    ∃ z ∈ L, x ≤ z ∧ z < y ∧ nextIn L z = y := by
  induction hd : y - x using Nat.strong_induction_on generalizing x with
  | _ d ih =>
    rcases nextIn_cases L x with ⟨-, hle⟩ | ⟨hmem, hlt, hmin⟩
    · exact absurd hxy (not_lt.mpr (hle y hy))
    rcases (hmin y hy hxy).eq_or_lt with heq | hlt'
    · exact ⟨x, hx, le_rfl, hxy, heq⟩
    · obtain ⟨z, hz, hz1, hz2, hz3⟩ := ih _ (hd ▸ Nat.sub_lt_sub_left hxy hlt) hmem hlt' rfl
      exact ⟨z, hz, hlt.le.trans hz1, hz2, hz3⟩

section Waiting

variable {W : Workload} {p : PartitionId} {ps : PartitionState}

variable {k : KeyRegion} {r : Request} {u v : TxnId}

theorem hasEntry_of_mem_queue (hP : PartInv W p ps) (hr : r ∈ W.queue p ps.arrived k) :
    HasEntry ps.hist r.1 := by
  obtain ⟨h, hh, -⟩ := Submission.mem_queue.mp hr
  exact hP.hist.hasEntry_iff.mpr ⟨h, hh⟩

theorem ConflictsBefore.ne_of_arrived {arrived : List (TxnId × RegionId)} (ha : W.Arrived p arrived)
    {s : Request} (h : ConflictsBefore (W.queue p arrived k) r s) : r.1 ≠ s.1 := by
  have hnd := (Workload.queue_nodup ha k).sublist (h.1.map Prod.fst)
  simpa using hnd

/-- Whoever is in a waited-by list is not ready. -/
theorem PartInv.not_isReady (hP : PartInv W p ps) {tu : TxnInfo} (hu : ps.lm.txnInfo.lookup u = some tu)
    (hv : v ∈ tu.waitedBy) : ¬ ps.isReady v = true := by
  intro hr
  obtain ⟨tv, htv, hready⟩ := isReady_iff.mp hr
  have h0 := (TxnInfo.isReady_iff.mp hready).1
  exact (hP.waits.numWaitingFor_eq_zero_iff htv).mp h0 u tu hu hv

/-- A request waits for the requests that block it, unless both are in one deadlock. -/
theorem PartInv.not_isReady_of_blocks (hP : PartInv W p ps) (hO : ps.OrderInv W p)
    (hb : Blocks (W.queue p ps.arrived k) u v) (hu : u ∈ ps.lm.txnInfo) (hsep : ¬ ps.Together u v) :
    ¬ ps.isReady v = true := by
  obtain ⟨tu, htu⟩ := mem_iff_lookup.mp hu
  have hout : v ∈ outs ps.hist u := mem_outs.mpr (hO.edges k u v hb)
  refine hP.not_isReady htu ?_
  rw [hP.slots.slots u tu htu]
  cases hc : componentOf ps.applied u with
  | none =>
    rw [slotsOf_of_none hc]
    exact mem_cons_of_mem _ hout
  | some c =>
    obtain ⟨hca, huc⟩ := mem_of_componentOf hc
    have hvc : v ∉ c := fun hvc => hsep ⟨c, hca, huc, hvc⟩
    rw [slotsOf_of_some hc]
    exact mem_cons_of_mem _ (mem_map.mpr ⟨v, hout, if_neg hvc⟩)

end Waiting

/-! ## The order is kept -/

namespace PartitionState.OrderInv

variable {W : Workload} {p : PartitionId} {ps : PartitionState}

section Protection

variable (hO : ps.OrderInv W p) (hP : PartInv W p ps)
include hO hP

variable {x y w : TxnId} {k : KeyRegion} {r t : Request}

theorem chain_live {c : List TxnId} (hc : c ∈ ps.applied) (hx : x ∈ c) (hy : y ∈ c) (hxy : x < y)
    (hxl : x ∈ ps.lm.txnInfo) (hye : HasEntry ps.hist y) : y ∈ ps.lm.txnInfo := by
  obtain ⟨hxe, hxr⟩ := hP.hist.live_iff.mp hxl
  exact hP.hist.live_iff.mpr ⟨hye, fun h => hxr (hO.chain c hc x hx y hy hxy hxe hye h)⟩

/-- In a resolved deadlock everybody waits who has a smaller member before them. -/
theorem not_isReady_of_lt (hdis : ps.applied.Pairwise Disjoint) (hxy : ps.Together x y)
    (hlt : x < y) (hx : x ∈ ps.lm.txnInfo) : ¬ ps.isReady y = true := by
  intro hr
  obtain ⟨c, hc, hxc, hyc⟩ := hxy
  obtain ⟨ty, hty, -⟩ := isReady_iff.mp hr
  have hlocal : ∀ {z}, z ∈ c.filter (fun z => decide (HasEntry ps.hist z)) ↔
      z ∈ c ∧ HasEntry ps.hist z := by
    intro z
    rw [mem_filter, decide_eq_true_eq]
  have hentry : ∀ {z}, z ∈ ps.lm.txnInfo → HasEntry ps.hist z := fun hz =>
    (hP.hist.live_iff.mp hz).1
  -- the member right before `y` is still there, since `x` is
  obtain ⟨z, hz, hxz, hzy, hnext⟩ := exists_nextIn_eq (hlocal.mpr ⟨hxc, hentry hx⟩)
    (hlocal.mpr ⟨hyc, hentry (mem_iff_lookup.mpr ⟨ty, hty⟩)⟩) hlt
  obtain ⟨hzc, hze⟩ := hlocal.mp hz
  have hzlive : z ∈ ps.lm.txnInfo := by
    rcases hxz.eq_or_lt with rfl | hxz
    · exact hx
    · exact hO.chain_live hP hc hxc hzc hxz hx hze
  obtain ⟨tz, htz⟩ := mem_iff_lookup.mp hzlive
  refine hP.not_isReady htz ?_ hr
  rw [hP.slots.slots z tz htz, slotsOf_of_some (componentOf_of_mem hdis hc hzc), chained, hnext]
  exact mem_cons_self

/-- A member of a deadlock that makes its request before a smaller one is gone before it. -/
theorem lt_of_not_live {s : Request} (hrs : ConflictsBefore (W.queue p ps.arrived k) r s)
    (hr : r.1 ∈ ps.lm.txnInfo) (hs : s.1 ∉ ps.lm.txnInfo) : ps.Together r.1 s.1 ∧ s.1 < r.1 := by
  have hto : ps.Together r.1 s.1 := by
    by_contra hsep
    refine hs (hP.hist.live_iff.mpr ⟨hasEntry_of_mem_queue hP hrs.mem.2, fun hrel => ?_⟩)
    exact (hP.hist.live_iff.mp hr).2 (hO.order k r s hrs hsep hrel)
  refine ⟨hto, ?_⟩
  obtain ⟨c, hc, hrc, hsc⟩ := hto
  rcases lt_trichotomy s.1 r.1 with h | h | h
  · exact h
  · exact absurd (h ▸ hr) hs
  · exact absurd (hO.chain_live hP hc hrc hsc h hr (hasEntry_of_mem_queue hP hrs.mem.2)) hs

variable (hT : ¬ ps.TurnedAround W p)
include hT

/-- A writer behind a live request is live, as seen from a request that conflicts with both. -/
theorem writer_live (hrw : ConflictsBefore (W.queue p ps.arrived k) r (w, .write))
    (hr : r.1 ∈ ps.lm.txnInfo) (ht : t ∈ W.queue p ps.arrived k) (htl : t.1 ∈ ps.lm.txnInfo)
    (hrt : Conflict r.2 t.2) (hsep : ¬ ps.Together r.1 t.1) : w ∈ ps.lm.txnInfo := by
  by_contra hw
  obtain ⟨⟨c, hc, hrc, hwc⟩, hlt⟩ := hO.lt_of_not_live hP hrw hr hw
  exact hT ⟨c, hc, k, r, (w, .write), t, hrw, hrc, hwc, hlt, hr, ht,
    fun htc => hsep ⟨c, hc, hrc, htc⟩, htl, hrt, .inl rfl⟩

/-- A request waits if a member of its deadlock wrote before it and an outsider conflicts. -/
theorem not_isReady_of_writer (hdis : ps.applied.Pairwise Disjoint)
    (hwt : ConflictsBefore (W.queue p ps.arrived k) (w, .write) t) (hw : w ∈ ps.lm.txnInfo)
    (hto : ps.Together w t.1) (hr : r ∈ W.queue p ps.arrived k) (hrl : r.1 ∈ ps.lm.txnInfo)
    (hrt : Conflict r.2 t.2) (hsep : ¬ ps.Together r.1 t.1) : ¬ ps.isReady t.1 = true := by
  rcases lt_trichotomy w t.1 with h | h | h
  · exact hO.not_isReady_of_lt hP hdis hto h hw
  · exact absurd h (hwt.ne_of_arrived hP.hist.lock.parts)
  · obtain ⟨c, hc, hwc, htc⟩ := hto
    exact absurd ⟨c, hc, k, (w, .write), t, r, hwt, hwc, htc, h, hw, hr,
      fun hrc => hsep ⟨c, hc, hrc, htc⟩, hrl, .inl rfl, hrt.symm⟩ hT

/-- **A request waits for the earlier requests that conflict with it**, unless the two
transactions are in one deadlock. -/
theorem not_isReady_of_conflictsBefore (hdis : ps.applied.Pairwise Disjoint)
    (hrt : ConflictsBefore (W.queue p ps.arrived k) r t) (hr : r.1 ∈ ps.lm.txnInfo)
    (htl : t.1 ∈ ps.lm.txnInfo) (hsep : ¬ ps.Together r.1 t.1) : ¬ ps.isReady t.1 = true := by
  obtain ⟨hrq, htq⟩ := hrt.mem
  obtain ⟨pre, post, hq, hpre⟩ := pair_sublist_iff.mp hrt.1
  have hsub : pre.Sublist (W.queue p ps.arrived k) := hq ▸ sublist_append_left _ _
  have hblocks : ∀ {u}, u ∈ (tailOf pre).blockers t.2 → Blocks (W.queue p ps.arrived k) u t.1 :=
    fun hu => ⟨pre, t.2, post, hq, hu⟩
  have hbefore : ∀ {s}, s ∈ pre → [s, t].Sublist (W.queue p ps.arrived k) := fun hs =>
    pair_sublist_iff.mpr ⟨pre, post, hq, hs⟩
  rcases blocker_cases hpre hrt.2 with hb | ⟨w, hwpre, hrw, hb⟩
  · exact hP.not_isReady_of_blocks hO (hblocks hb) hr hsep
  -- the last writer before `t` is `r` or is still there
  have hwt : ConflictsBefore (W.queue p ps.arrived k) (w, .write) t := ⟨hbefore hwpre, .inl rfl⟩
  have hw : w ∈ ps.lm.txnInfo := by
    rcases hrw with rfl | hrw
    · exact hr
    · exact hO.writer_live hP hT (hrw.mono hsub) hr htq htl hrt.2 hsep
  by_cases hto : ps.Together w t.1
  · exact hO.not_isReady_of_writer hP hT hdis hwt hw hto hrq hr hrt.2 hsep
  rcases hb with hb | ⟨s, hws, hm, hb⟩
  · exact hP.not_isReady_of_blocks hO (hblocks hb) hw hto
  -- otherwise a reader `s` after `w` blocks `t`
  have hst : ConflictsBefore (W.queue p ps.arrived k) s t := ⟨hbefore hws.mem.2, .inr hm⟩
  replace hws := hws.mono hsub
  by_cases hs : s.1 ∈ ps.lm.txnInfo
  · by_cases hsto : ps.Together s.1 t.1
    · rcases lt_trichotomy s.1 t.1 with h | h | h
      · exact hO.not_isReady_of_lt hP hdis hsto h hs
      · exact absurd h (hst.ne_of_arrived hP.hist.lock.parts)
      · obtain ⟨c, hc, hsc, htc⟩ := hsto
        exact absurd ⟨c, hc, k, s, t, (w, .write), hst, hsc, htc, h, hs, hws.mem.1,
          fun hwc => hto ⟨c, hc, hwc, htc⟩, hw, .inr rfl, .inr rfl⟩ hT
    · exact hP.not_isReady_of_blocks hO (hblocks hb) hs hsto
  · obtain ⟨⟨c, hc, hwc, hsc⟩, hlt⟩ := hO.lt_of_not_live hP hws hw hs
    exact absurd ⟨c, hc, k, (w, .write), s, t, hws, hwc, hsc, hlt, hw, htq,
      fun htc => hto ⟨c, hc, hwc, htc⟩, htl, .inl rfl, .inr hm⟩ hT

/-- The order keeps conflicting transactions apart. -/
theorem exclusive (hdis : ps.applied.Pairwise Disjoint) : ps.Exclusive W p := by
  have hlive : ∀ {x}, ps.isReady x = true → x ∈ ps.lm.txnInfo := fun hx => by
    obtain ⟨ti, hti, -⟩ := isReady_iff.mp hx
    exact mem_iff_lookup.mpr ⟨ti, hti⟩
  have hbefore : ∀ {k r t}, ConflictsBefore (W.queue p ps.arrived k) r t →
      ps.isReady r.1 = true → ps.isReady t.1 = true → False := by
    intro k r t hrt hr ht
    by_cases hto : ps.Together r.1 t.1
    · rcases lt_trichotomy r.1 t.1 with h | h | h
      · exact hO.not_isReady_of_lt hP hdis hto h (hlive hr) ht
      · exact hrt.ne_of_arrived hP.hist.lock.parts h
      · obtain ⟨c, hc, hrc, htc⟩ := hto
        exact hO.not_isReady_of_lt hP hdis ⟨c, hc, htc, hrc⟩ h (hlive ht) hr
    · exact hO.not_isReady_of_conflictsBefore hP hT hdis hrt (hlive hr) (hlive ht) hto ht
  intro x y hxy hx hy k mx my hqx hqy hc
  rcases pair_sublist_or hqx hqy (fun h => hxy (Prod.mk.inj h).1) with h | h
  · exact hbefore ⟨h, hc⟩ hx hy
  · exact hbefore ⟨h, hc.symm⟩ hy hx

end Protection

/-! ## Steps -/

theorem init (W : Workload) (p : PartitionId) : OrderInv W p {} where
  edges k u v hb := by
    obtain ⟨⟨m, hm⟩, -⟩ := mem_queue_of_blocks hb
    obtain ⟨h, hh, -⟩ := Submission.mem_queue.mp hm
    cases hh
  chain := by simp
  order := by simp

variable {ps' : PartitionState} {x : TxnId}

/-- Most steps leave everything alone that the order is about. -/
theorem congr (hO : ps.OrderInv W p) (happ : ps'.applied = ps.applied) (hhist : ps'.hist = ps.hist)
    (hrel : ps'.released = ps.released) (harr : ps'.arrived = ps.arrived) : ps'.OrderInv W p where
  edges := by
    rw [hhist, harr]
    exact hO.edges
  chain := by
    rw [happ, hhist, hrel]
    exact hO.chain
  order := by
    unfold Together
    rw [happ, hrel, harr]
    exact hO.order

/-- A request that arrives comes after all others, and its transaction is not released. -/
theorem acquire (hO : ps.OrderInv W p) {h : RegionId} (hs : ps.acquire W p x h = some ps')
    (hP : PartInv W p ps) (hx : ∀ c ∈ ps.applied, x ∉ c) : ps'.OrderInv W p := by
  obtain ⟨-, hx0, -, hh, hnew, hrel, rfl⟩ := acquire_inv hs
  have hentry : ∀ {c y}, c ∈ ps.applied → y ∈ c →
      HasEntry (ps.hist ++ [(ps.lm.enterLocks (W.part p x h)).2.2]) y → HasEntry ps.hist y := by
    intro c y hc hy hye
    rw [hP.hist.entry_eq hx0 hh hnew hrel, hasEntry_append, hasEntry_singleton] at hye
    refine hye.resolve_right ?_
    rintro rfl
    exact hx c hc hy
  refine ⟨fun k u v hb => ?_, fun c hc a ha b hb hab hae hbe => hO.chain c hc a ha b hb hab
    (hentry hc ha hae) (hentry hc hb hbe), fun k r s hrs hsep hsrel => ?_⟩
  · show LogEdge (ps.hist ++ [_]) u v
    rw [hP.hist.entry_eq hx0 hh hnew hrel, logEdge_append, logEdge_singleton]
    rcases hP.hist.lock.exists_blocks_concat.mp ⟨k, hb⟩ with ⟨k', hb'⟩ | ⟨rfl, hu⟩
    · exact .inl (hO.edges k' u v hb')
    · exact .inr ⟨rfl, hu⟩
  refine hO.order k r s ⟨?_, hrs.2⟩ hsep hsrel
  have hsub : [r, s].Sublist (W.queue p (ps.arrived ++ [(x, h)]) k) := hrs.1
  rcases W.queue_concat (p := p) ps.arrived x h k with ⟨-, hq⟩ | ⟨m, -, hq⟩
  · rwa [hq] at hsub
  · have hne : s ≠ (x, m) := by
      rintro rfl
      exact hrel hsrel
    rw [hq, pair_sublist_concat] at hsub
    exact hsub.resolve_right fun h => hne h.2

/-- Only a transaction that waits for nobody is released. -/
theorem release (hO : ps.OrderInv W p) (hP : PartInv W p ps) (hT : ¬ ps.TurnedAround W p)
    (hdis : ps.applied.Pairwise Disjoint) (hs : ps.release x = some ps') : ps'.OrderInv W p := by
  obtain ⟨-, ti, hti, hr, rfl⟩ := release_inv hs
  have hready : ps.isReady x = true := isReady_iff.mpr ⟨ti, hti, hr⟩
  have hlive : x ∈ ps.lm.txnInfo := mem_iff_lookup.mpr ⟨ti, hti⟩
  refine ⟨hO.edges, ?_, ?_⟩
  · intro c hc a ha b hb hab hae hbe hbrel
    rcases mem_cons.mp hbrel with rfl | hbrel
    · by_contra harel
      have hal : a ∈ ps.lm.txnInfo :=
        hP.hist.live_iff.mpr ⟨hae, fun h => harel (mem_cons_of_mem _ h)⟩
      exact hO.not_isReady_of_lt hP hdis ⟨c, hc, ha, hb⟩ hab hal hready
    · exact mem_cons_of_mem x (hO.chain c hc a ha b hb hab hae hbe hbrel)
  · intro k r s hrs hsep hsrel
    rcases mem_cons.mp hsrel with heq | hsrel
    · by_contra hrrel
      have hrl : r.1 ∈ ps.lm.txnInfo := hP.hist.live_iff.mpr
        ⟨hasEntry_of_mem_queue hP hrs.mem.1, fun h => hrrel (mem_cons_of_mem _ h)⟩
      exact hO.not_isReady_of_conflictsBefore hP hT hdis hrs hrl (heq ▸ hlive) hsep
        (heq ▸ hready)
    · exact mem_cons_of_mem x (hO.order k r s hrs hsep hsrel)

end PartitionState.OrderInv

namespace Cluster

variable {W : Workload} {n : ℕ} {s s' : Cluster} {p : PartitionId}

variable {ps : PartitionState}

/-- The order is kept when a resolver applies its updates: the local members of the deadlocks
that it has found are all there. -/
theorem Inv.orderInv_apply (hI : Inv W n s) (hp : p < n) (hO : (s.part p).OrderInv W p)
    (hs : (s.part p).apply = some ps) : ps.OrderInv W p := by
  have hlive : ∀ {sccs}, (s.part p).stage = .found sccs → ∀ c ∈ sccs, ∀ x ∈ c,
      HasEntry (s.part p).hist x → x ∈ (s.part p).lm.txnInfo :=
    fun hstage c hc x hx => hI.live_of_apply hp hstage hs hc hx
  obtain ⟨sccs, info, ready, hstage, -, rfl⟩ := apply_inv hs
  refine ⟨hO.edges, ?_, ?_⟩
  · intro c hc x hx y hy hxy hxe hye hrel
    rcases mem_append.mp hc with hc | hc
    · exact hO.chain c hc x hx y hy hxy hxe hye hrel
    · exact absurd hrel ((hI.part p).hist.live_iff.mp (hlive hstage c hc y hy hye)).2
  · intro k r t hrt hsep
    refine hO.order k r t hrt fun ⟨c, hc, hrc, htc⟩ => hsep ?_
    exact ⟨c, mem_append_left _ hc, hrc, htc⟩

theorem Inv.applied_disjoint (hI : Inv W n s) (hp : p < n) :
    (s.part p).applied.Pairwise Disjoint :=
  (pairwise_append.mp (hI.resolvers p hp).disjoint).1

/-- **An action keeps the order** unless the resolver has turned around two requests. -/
theorem Inv.orderInv_act (hI : Inv W n s) (hp : p < n) (hT : ¬ (s.part p).TurnedAround W p)
    (hO : (s.part p).OrderInv W p) {a : Action} (hs : (s.part p).act W p a = some ps) :
    ps.OrderInv W p := by
  cases a with
  | acquire x h =>
    obtain ⟨-, hx0, hinv, hh, hnew, -⟩ := acquire_inv hs
    refine hO.acquire hs (hI.part p) fun c hc hxc => ?_
    exact hI.not_gone hp hinv ((hI.part p).hist.not_hasComplete hx0 hh hnew)
      (hI.handed_gone hp (mem_append_left _ hc) hxc)
  | log =>
    obtain ⟨e, -, rfl⟩ := log_inv hs
    exact hO.congr rfl rfl rfl rfl
  | release x => exact hO.release (hI.part p) hT (hI.applied_disjoint hp) hs
  | signal =>
    obtain ⟨-, rfl⟩ := signal_inv hs
    exact hO.congr rfl rfl rfl rfl
  | dispatch =>
    obtain ⟨d, todo, -, -, rfl⟩ := dispatch_inv hs
    exact hO.congr rfl rfl rfl rfl
  | find order =>
    obtain ⟨-, -, r, sccs, -, rfl⟩ := find_inv hs
    exact hO.congr rfl rfl rfl rfl
  | apply => exact hI.orderInv_apply hp hO hs
  | publish =>
    obtain ⟨ready, -, rfl⟩ := publish_inv hs
    exact hO.congr rfl rfl rfl rfl

theorem Inv.orderInv_step (hI : Inv W n s) (hT : ∀ p < n, ¬ (s.part p).TurnedAround W p)
    (hO : ∀ p, (s.part p).OrderInv W p) {e : Event} (hs : s.step W n e = some s') :
    ∀ p, (s'.part p).OrderInv W p := by
  rcases Cluster.step_inv hs with ⟨p, a, ps, -, hp, ha, rfl⟩ | ⟨p, q, m, ms, ps, -, hq, hm, hr, rfl⟩
  · exact (Function.forall_update_iff s.part fun q ps => ps.OrderInv W q).mpr
      ⟨hI.orderInv_act hp (hT p hp) (hO p) ha, fun q _ => hO q⟩
  · refine (Function.forall_update_iff s.part fun q ps => ps.OrderInv W q).mpr
      ⟨?_, fun q _ => hO q⟩
    obtain ⟨-, rfl⟩ := receive_inv hr
    exact (hO q).congr rfl rfl rfl rfl

/-! ## Mutual exclusion -/

/-! The deadlock of the transactions 1 and 2 becomes stable when the last part of 3 arrives.  The
resolver puts 1 before 2, although 2 was first to request the key "A"; 4, which waits for 1
there, becomes ready together with 2 when 1 is released. -/

def unstableTxn : TxnId → PartitionId → Transaction
  | 1, _ => { internal := { id := 1, involvedPartitions := [0] },
              keys := [{ key := "A", type := .read, metadata := some { master := 1 } },
                { key := "B", type := .write, metadata := some { master := 0 } },
                { key := "C", type := .write, metadata := some { master := 0 } }] }
  | 2, _ => { internal := { id := 2, involvedPartitions := [0] },
              keys := [{ key := "B", type := .read, metadata := some { master := 0 } },
                { key := "A", type := .write, metadata := some { master := 1 } }] }
  | 3, _ => { internal := { id := 3, involvedPartitions := [0] },
              keys := [{ key := "C", type := .read, metadata := some { master := 0 } },
                { key := "D", type := .write, metadata := some { master := 1 } }] }
  | 4, _ => { internal := { id := 4, involvedPartitions := [0] },
              keys := [{ key := "A", type := .write, metadata := some { master := 1 } }] }
  | x, _ => { internal := { id := x, involvedPartitions := [0] }, keys := [] }

def unstableWorkload : Workload where
  txn := unstableTxn
  involved := fun _ => [0]
  id_eq x p := by unfold unstableTxn; split <;> rfl
  involved_eq x p := by unfold unstableTxn; split <;> rfl
  involved_nodup := nodup_involved
  regions_nodup x p := by unfold unstableTxn; split <;> simp
  remaster_single x p := by unfold unstableTxn; split <;> simp [Transaction.isRemaster]

def unstableEvents : List Event :=
  acquireLocks 0 3 0 ++ acquireLocks 0 1 0 ++ acquireLocks 0 2 0 ++ acquireLocks 0 2 1 ++
    acquireLocks 0 1 1 ++ acquireLocks 0 4 1 ++ acquireLocks 0 3 1 ++ [.act 0 .dispatch] ++
    resolverRun 0 [1, 2, 3, 4] ++
    [.act 0 (.release 3), .act 0 .dispatch, .act 0 (.release 1)]

/-- **Two writers of one key-region are ready at the same time.** -/
theorem not_exclusive_unstable : ∃ s,
    Lts.run (Cluster.step unstableWorkload 1) {} unstableEvents = some s ∧
      (s.part 0).isReady 2 = true ∧ (s.part 0).isReady 4 = true ∧
      (2, KeyType.write) ∈ unstableWorkload.queue 0 (s.part 0).arrived (makeKeyRegion "A" 1) ∧
      (4, KeyType.write) ∈ unstableWorkload.queue 0 (s.part 0).arrived (makeKeyRegion "A" 1) ∧
      ¬ (s.part 0).Exclusive unstableWorkload 0 := by
  refine Lts.exists_run (p := fun s => (s.part 0).isReady 2 = true ∧ (s.part 0).isReady 4 = true ∧
    (2, KeyType.write) ∈ unstableWorkload.queue 0 (s.part 0).arrived (makeKeyRegion "A" 1) ∧
    (4, KeyType.write) ∈ unstableWorkload.queue 0 (s.part 0).arrived (makeKeyRegion "A" 1))
    (by decide +kernel) ?_
  rintro s - ⟨h2, h4, hq2, hq4⟩
  exact ⟨h2, h4, hq2, hq4, fun hex =>
    hex 2 4 (by decide) h2 h4 (makeKeyRegion "A" 1) .write .write hq2 hq4 (.inl rfl)⟩

/-- **Mutual exclusion of the lock manager with its resolver**, in every run in which the
resolver does not turn around two requests of a queue while a transaction outside their deadlock
waits there or holds the lock. -/
theorem exclusive_of_not_turnedAround (W : Workload) (n : ℕ) {es : List Event} {s : Cluster}
    (hrun : Lts.run (Cluster.step W n) {} es = some s)
    (hT : Lts.Along (Cluster.step W n) (fun s => ∀ p < n, ¬ (s.part p).TurnedAround W p) {} es)
    {p : PartitionId} (hp : p < n) : (s.part p).Exclusive W p := by
  have hO : ∀ p, (s.part p).OrderInv W p := by
    refine Lts.invariant_along (Cluster.step W n) (P := fun s => ∀ p, (s.part p).OrderInv W p)
      (fun p => OrderInv.init W p) (fun s e s' hr hO hC _ hs => ?_) hT hrun
    exact (Inv.reachable hr).orderInv_step hC hO hs
  have hI := Inv.reachable ⟨es, hrun⟩
  exact (hO p).exclusive (hI.part p) (hT es [] s (append_nil _).symm hrun p hp)
    (hI.applied_disjoint hp)

/-- In the deadlock over two partitions there is no third transaction. -/
theorem exclusive_cross : ∃ s, Lts.run (Cluster.step crossWorkload 2) {} crossEvents = some s ∧
    Lts.Along (Cluster.step crossWorkload 2)
      (fun s => ∀ p < 2, ¬ (s.part p).TurnedAround crossWorkload p) {} crossEvents ∧
    (s.part 0).Exclusive crossWorkload 0 := by
  have hmembers : Lts.Along (Cluster.step crossWorkload 2) (fun s => ∀ p < 2,
      ∀ c ∈ (s.part p).applied, ∀ a ∈ (s.part p).arrived, a.1 ∈ c) {} crossEvents := by
    decide +kernel
  have hT := hmembers.mono (D := fun s => ∀ p < 2, ¬ (s.part p).TurnedAround crossWorkload p) _ <| by
    rintro s h p hp ⟨c, hc, k, -, -, t, -, -, -, -, -, ht, htc, -⟩
    obtain ⟨g, hg, -⟩ := Submission.mem_queue.mp ht
    exact htc (h p hp c hc _ hg)
  have hsome : (Lts.run (Cluster.step crossWorkload 2) {} crossEvents).isSome = true := by
    decide +kernel
  obtain ⟨s, hs⟩ := Option.isSome_iff_exists.mp hsome
  exact ⟨s, hs, hT, exclusive_of_not_turnedAround crossWorkload 2 hs hT (by decide)⟩

end Cluster

end Slog
