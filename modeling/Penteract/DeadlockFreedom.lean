/-
# Agreement on deadlocks, and their end

Two consequences of the invariant of the cluster.  The resolvers of all partitions agree on
what a deadlock is, although each of them decides on its own prefixes of the logs.  And what a
resolver does to a deadlock is exactly this: the local members become one chain in the order of
their ids, every other edge stays, and the counters follow.  Since all partitions chain the same
components in the same order, no cycle is left when all of them have run.
-/
import Penteract.ClusterInvariant

namespace Slog

open List Option AssocMap Components DeadlockResolver Relation

/-! ## Waits-for edges -/

/-- The number of waits-for edges from `u` to `v` in the lock manager. -/
def PartitionState.numEdges (ps : PartitionState) (u v : TxnId) : ℕ :=
  ((ps.lm.txnInfo.lookup u).elim [] TxnInfo.waitedBy).count v

/-- `v` is the next larger one after `u` among the members that the partition knows. -/
def IsNextLocal (ps : PartitionState) (c : List TxnId) (u v : TxnId) : Prop :=
  (v ∈ c ∧ HasEntry ps.hist v) ∧ u < v ∧ ∀ w ∈ c, HasEntry ps.hist w → u < w → v ≤ w

variable {u v : TxnId}

theorem isNextLocal_iff {ps : PartitionState} {c : List TxnId} (hv : v ≠ kSentinelTxnId) :
    IsNextLocal ps c u v ↔ nextIn (c.filter fun y => decide (HasEntry ps.hist y)) u = v := by
  have hmem : ∀ y, y ∈ c.filter (fun y => decide (HasEntry ps.hist y)) ↔
      y ∈ c ∧ HasEntry ps.hist y := fun y => by rw [mem_filter, decide_eq_true_eq]
  constructor
  · rintro ⟨hvc, huv, hmin⟩
    rcases nextIn_cases (c.filter fun y => decide (HasEntry ps.hist y)) u with h | ⟨h1, h2, h3⟩
    · exact absurd huv (not_lt.mpr (h.2 v ((hmem v).mpr hvc)))
    · obtain ⟨hc, he⟩ := (hmem _).mp h1
      exact le_antisymm (h3 v ((hmem v).mpr hvc) huv) (hmin _ hc he h2)
  · rintro rfl
    rcases nextIn_cases (c.filter fun y => decide (HasEntry ps.hist y)) u with h | ⟨h1, h2, h3⟩
    · exact absurd h.1 hv
    · exact ⟨(hmem _).mp h1, h2, fun w hw he => h3 w ((hmem w).mpr ⟨hw, he⟩)⟩

/-- The edges from a transaction, read off the closed form of its list. -/
theorem count_slotsOf {sccs : List (List TxnId)} {es : List LogEntry} (hv : v ≠ kSentinelTxnId) :
    (slotsOf sccs es u).count v =
      match componentOf sccs u with
      | none => (outs es u).count v
      | some c => (if nextIn (c.filter fun y => decide (HasEntry es y)) u = v then 1 else 0) +
          if v ∈ c then 0 else (outs es u).count v := by
  cases hc : componentOf sccs u with
  | none => rw [slotsOf_of_none hc, count_cons_of_ne hv.symm]
  | some c =>
    rw [slotsOf_of_some hc, chained, count_cons, count_map_mask hv, add_comm]
    simp only [beq_iff_eq]

namespace Cluster

variable {W : Submission} {n : ℕ} {s : Cluster} {p : PartitionId}

/-! ## Agreement -/

/-- **Distributed resolvers agree on what a deadlock is**: two components handed to
`ResolveDeadlock`, anywhere and in any run, are the same set or do not meet. -/
theorem resolvers_agree (W : Submission) (n : ℕ) {s : Cluster}
    (hs : Lts.Reachable (Cluster.step W n) {} s) {p q : PartitionId} (hp : p < n) (hq : q < n)
    {c c' : List TxnId} (hc : c ∈ (s.part p).handed) (hc' : c' ∈ (s.part q).handed) :
    (1 < c.length ∧ 1 < c'.length) ∧ ((∀ x, x ∈ c ↔ x ∈ c') ∨ c.Disjoint c') := by
  have hI := BaseInv.reachable hs
  exact ⟨⟨((hI.resolvers p hp).handed c hc).2.1, ((hI.resolvers q hq).handed c' hc').2.1⟩,
    hI.handed_eq_or_disjoint hp hq hc hc'⟩

/-! A deadlock over two partitions: both transactions write both keys, and they reach the two
partitions in different orders. -/

def crossTxn : TxnId → PartitionId → Transaction
  | 1, 0 => { internal := { id := 1, involvedPartitions := [0, 1] },
              keys := [{ key := "A", type := .write }] }
  | 1, 1 => { internal := { id := 1, involvedPartitions := [0, 1] },
              keys := [{ key := "B", type := .write }] }
  | 2, 0 => { internal := { id := 2, involvedPartitions := [0, 1] },
              keys := [{ key := "A", type := .write }] }
  | 2, 1 => { internal := { id := 2, involvedPartitions := [0, 1] },
              keys := [{ key := "B", type := .write }] }
  | x, _ => { internal := { id := x, involvedPartitions := [0, 1] }, keys := [] }

def crossWorkload : Workload where
  txn := crossTxn
  involved := fun _ => [0, 1]
  id_eq x p := by unfold crossTxn; split <;> rfl
  involved_eq x p := by unfold crossTxn; split <;> rfl
  involved_nodup := by simp
  regions_nodup x p := by unfold crossTxn; split <;> simp
  remaster_single x p := by unfold crossTxn; split <;> simp [Transaction.isRemaster]

/-- A whole run of the resolver of `p`. -/
def resolverRun (p : PartitionId) (order : List TxnId) : List Event :=
  [.act p (.find order), .act p .apply, .act p .publish]

/-- The requests, a run at each partition, and the exchange of the logs. -/
def crossRequests : List Event :=
  [.act 0 (.acquire 1 0), .act 0 .log, .act 0 .dispatch, .act 0 (.acquire 2 0), .act 0 .log,
    .act 1 (.acquire 2 0), .act 1 .log, .act 1 .dispatch, .act 1 (.acquire 1 0), .act 1 .log] ++
  resolverRun 0 [1, 2] ++ resolverRun 1 [1, 2] ++ [.deliver 0 1, .deliver 1 0]

/-- Then each partition runs its resolver once more. -/
def crossEvents : List Event :=
  crossRequests ++ resolverRun 0 [1, 2] ++ resolverRun 1 [2, 1] ++ [.deliver 0 1, .deliver 1 0]

/-- Both partitions hand over the same deadlock. -/
theorem resolvers_agree_cross : ∃ s c c', Lts.run (Cluster.step crossWorkload 2) {} crossEvents =
    some s ∧ c ∈ (s.part 0).handed ∧ c' ∈ (s.part 1).handed ∧
      ((1 < c.length ∧ 1 < c'.length) ∧ ((∀ x, x ∈ c ↔ x ∈ c') ∨ c.Disjoint c')) := by
  obtain ⟨s, hs, hc, hc'⟩ : ∃ s ∈ Lts.run (Cluster.step crossWorkload 2) {} crossEvents,
      [1, 2] ∈ (s.part 0).handed ∧ [2, 1] ∈ (s.part 1).handed := by decide +kernel
  exact ⟨s, _, _, hs, hc, hc',
    resolvers_agree crossWorkload 2 ⟨crossEvents, hs⟩ (by decide) (by decide) hc hc'⟩

/-! ## The exact effect of a resolution -/

variable {sccs : List (List TxnId)} {ps : PartitionState} {u v : TxnId}

/-- What `apply` does to the edges of one transaction. -/
theorem Inv.numEdges_apply (hI : Inv W n s) (hp : p < n) (hstage : (s.part p).stage = .found sccs)
    (hs : (s.part p).apply = some ps) (hv : v ≠ kSentinelTxnId) :
    ps.numEdges u v =
      match componentOf sccs u with
      | none => (s.part p).numEdges u v
      | some c =>
        if v ∈ c then (if u ∈ (s.part p).lm.txnInfo ∧
          nextIn (c.filter fun y => decide (HasEntry (s.part p).hist y)) u = v then 1 else 0)
        else (s.part p).numEdges u v := by
  have hnew := hI.lists_apply hp hs
  have hdis := (hI.apply_context hp hstage).2.1
  obtain ⟨sccs', info, ready, hstage', ha, rfl⟩ := PartitionState.apply_inv hs
  rw [hstage, Stage.found.injEq] at hstage'
  subst hstage'
  obtain ⟨⟨us₀, gone₀, hR⟩, -⟩ := hI.apply_context hp hstage
  have hmem : u ∈ info ↔ u ∈ (s.part p).lm.txnInfo := mem_applyUpdates hR.todo_nodup ha
  have hold := (hI.lists p).slots
  unfold PartitionState.numEdges
  cases hl : info.lookup u with
  | none =>
    have hno : u ∉ (s.part p).lm.txnInfo := fun h =>
      not_mem_iff_lookup.mpr hl (hmem.mpr h)
    rw [not_mem_iff_lookup.mp hno]
    cases componentOf sccs u <;> simp [hno]
  | some tu =>
    have hlive : u ∈ (s.part p).lm.txnInfo := hmem.mp (mem_iff_lookup.mpr ⟨tu, hl⟩)
    obtain ⟨tu₀, htu₀⟩ := mem_iff_lookup.mp hlive
    have hslots := hnew.slots.slots u tu hl
    rw [htu₀, elim_some, elim_some, hslots, hold.slots u tu₀ htu₀,
      count_slotsOf hv, count_slotsOf hv, componentOf_append]
    cases hc : componentOf sccs u with
    | none => rw [or_none]
    | some c =>
      obtain ⟨hcs, huc⟩ := mem_of_componentOf hc
      have hnone : componentOf (s.part p).applied u = none := componentOf_eq_none.mpr
        fun d hd hud => (pairwise_append.mp hdis).2.2 d hd c hcs hud huc
      rw [hnone, none_or]
      by_cases hvc : v ∈ c
      · simp [hvc, hlive]
      · have hne : nextIn (c.filter fun y => decide (HasEntry (s.part p).hist y)) u ≠ v := by
          rintro rfl
          rcases nextIn_cases (c.filter fun y => decide (HasEntry (s.part p).hist y)) u
            with h | h
          · exact hv h.1
          · exact hvc (mem_of_mem_filter h.1)
        simp [hvc, hne]

/-- The exact effect of resolving the component `c` at a partition, whose state was `ps` before
the updates were applied and is `ps'` after: one chain, everything else as it was, and counters
that change by the edges added minus the edges removed. -/
structure ResolvedExactly (ps ps' : PartitionState) (c : List TxnId) : Prop where
  chain : ∀ u ∈ c, ∀ v ∈ c, HasEntry ps.hist u → HasEntry ps.hist v →
    (IsNextLocal ps c u v → ps'.numEdges u v = 1) ∧
    (¬ IsNextLocal ps c u v → ps'.numEdges u v = 0)
  frame : ∀ u v, u ≠ kSentinelTxnId → v ≠ kSentinelTxnId → (u ∈ c ∧ v ∉ c ∨ u ∉ c ∧ v ∈ c) →
    ps'.numEdges u v = ps.numEdges u v
  counter : ∀ v ∈ c, HasEntry ps.hist v → ∃ tv tv', ps.lm.txnInfo.lookup v = some tv ∧
    ps'.lm.txnInfo.lookup v = some tv' ∧ tv'.numWaitingFor - tv.numWaitingFor =
      waitCount ps'.lm.txnInfo v - waitCount ps.lm.txnInfo v

theorem Inv.resolvedExactly (hI : Inv W n s) (hp : p < n) (hstage : (s.part p).stage = .found sccs)
    (hs : (s.part p).apply = some ps) {c : List TxnId} (hc : c ∈ sccs) :
    ResolvedExactly (s.part p) ps c := by
  have hedges : ∀ {u v}, v ≠ kSentinelTxnId → _ := fun {u v} =>
    hI.numEdges_apply hp hstage hs (u := u) (v := v)
  have hwaits := (hI.lists_apply hp hs).waits
  have hlive : ∀ {x}, x ∈ c → HasEntry (s.part p).hist x → x ∈ (s.part p).lm.txnInfo := fun hx =>
    hI.live_of_apply hp hstage hs hc hx
  obtain ⟨⟨us₀, gone₀, hR⟩, -⟩ := hI.apply_context hp hstage
  obtain ⟨sccs', info, ready, hstage', ha, rfl⟩ := PartitionState.apply_inv hs
  have hcomp : ∀ {x}, x ∈ c → componentOf sccs x = some c := fun hx =>
    componentOf_of_mem hR.disjoint hc hx
  have hnz : ∀ {x}, x ∈ c → x ≠ kSentinelTxnId := by
    rintro x hx rfl
    exact (hR.members c hc).2.1 hx
  refine ⟨fun u hu v hv hue _ => ?_, fun u v hu0 hv0 huv => ?_, fun v hv hve => ?_⟩
  · have hmem : u ∈ (s.part p).lm.txnInfo := hlive hu hue
    rw [hedges (hnz hv), hcomp hu, isNextLocal_iff (hnz hv)]
    simp only [if_pos hv, hmem, true_and]
    exact ⟨fun h => if_pos h, fun h => if_neg h⟩
  · rw [hedges hv0]
    cases hd : componentOf sccs u with
    | none => rfl
    | some d =>
      have hvd : v ∉ d := by
        obtain ⟨hds, hud⟩ := mem_of_componentOf hd
        rcases huv with ⟨huc, hvc⟩ | ⟨huc, hvc⟩
        · rw [hcomp huc, some_inj] at hd
          exact hd ▸ hvc
        · intro hvd
          have h1 := componentOf_of_mem hR.disjoint hds hvd
          rw [hcomp hvc, some_inj] at h1
          exact huc (h1 ▸ hud)
      simp only [if_neg hvd]
  · obtain ⟨tv, htv⟩ := mem_iff_lookup.mp (hlive hv hve)
    obtain ⟨tv', htv'⟩ := mem_iff_lookup.mp
      ((mem_applyUpdates hR.todo_nodup ha).mpr (hlive hv hve))
    refine ⟨tv, tv', htv, htv', ?_⟩
    rw [(hI.lists p).waits.count v tv htv, hwaits.count v tv' htv']

/-! ## No deadlock survives -/

/-- `v` waits for `u` at some partition, both being there. -/
def WaitsFor (n : ℕ) (s : Cluster) (u v : TxnId) : Prop :=
  ∃ p < n, v ∈ (s.part p).lm.txnInfo ∧ 0 < (s.part p).numEdges u v

/-- All graph logs are delivered, every transaction that has arrived anywhere is complete at all
its partitions, and every resolver has run since. -/
def Settled (W : Submission) (n : ℕ) (s : Cluster) : Prop :=
  ∀ p < n, (s.part p).unsent = [] ∧ (∀ q < n, s.chan p q = []) ∧
    (∀ e ∈ (s.part p).hist, ∀ p' ∈ W.involved e.txnId, HasComplete (s.part p').hist e.txnId) ∧
    (s.part p).upToDate = true ∧ (s.part p).stage = .idle

instance (W : Submission) (n : ℕ) (s : Cluster) : Decidable (s.Settled W n) := by
  unfold Settled
  infer_instance

/-- Nothing happens outside the cluster. -/
theorem outside (hs : Lts.Reachable (Cluster.step W n) {} s) (hp : ¬ p < n) :
    s.part p = {} ∧ ∀ q, s.chan p q = [] := by
  refine Lts.invariant (Cluster.step W n) (P := fun s => s.part p = {} ∧ ∀ q, s.chan p q = [])
    ⟨rfl, fun _ => rfl⟩ (fun s e s' h hstep => ?_) hs
  rcases Cluster.step_inv hstep with ⟨p', a, ps, -, hp', -, rfl⟩ | ⟨p', q, m, ms, ps, -, hq, hm, -, rfl⟩
  · have hne : p ≠ p' := fun heq => hp (heq ▸ hp')
    refine ⟨by simpa [hne] using h.1, fun q => ?_⟩
    show (if p = p' ∧ q ≠ p' ∧ q < n then _ else s.chan p q) = []
    rw [if_neg fun hc => hne hc.1]
    exact h.2 q
  · have hne : p ≠ q := fun heq => hp (heq ▸ hq)
    have hne' : p ≠ p' := by
      rintro rfl
      rw [h.2 q] at hm
      cases hm
    exact ⟨by simpa [hne] using h.1, fun q' => by simpa [hne'] using h.2 q'⟩

/-- In a settled state every resolver has taken everything out of its graph. -/
theorem Settled.mem_gone (h : s.Settled W n) (hI : BaseInv W n s)
    (hs : Lts.Reachable (Cluster.step W n) {} s) {q : PartitionId} (hq : q < n) {x : TxnId}
    (hx : HasEntry (s.part p).hist x) : x ∈ (s.part q).gone := by
  have hin : ∀ {p'}, (∃ e, e ∈ (s.part p').hist) → p' < n := by
    rintro p' ⟨e, he⟩
    by_contra hn
    rw [(outside hs hn).1] at he
    cases he
  have hall : ∀ p', (s.part q).seenFrom p' = (s.part p').hist := by
    intro p'
    by_cases hp' : p' < n
    · rw [hI.flow p' q hq, (h p' hp').1, (h p' hp').2.1 q hq]
      simp
    · obtain ⟨hpart, hchan⟩ := outside hs hp'
      have hflow := hI.flow p' q hq
      rw [hchan q, hpart] at hflow
      rw [hpart]
      exact (append_eq_nil_iff.mp (append_eq_nil_iff.mp hflow.symm).1).1
  have hcomplete : ∀ w, HasEntry ((s.part q).seen.map Prod.snd) w →
      ∀ p' ∈ W.involved w, HasComplete (entriesFrom (s.part q).seen p') w := by
    intro w hw p' hp'
    obtain ⟨p'', e, he, rfl⟩ := hasEntry_seen.mp hw
    rw [← PartitionState.seenFrom_eq, hall] at he ⊢
    exact (h p'' (hin ⟨e, he⟩)).2.2.1 e he p' hp'
  by_contra hgone
  have hG := (hI.resolvers q hq).graph
  have hmem : x ∈ (s.part q).resolver.graph := by
    refine (hG.mem x).mpr ⟨hasEntry_seen.mpr ⟨p, ?_⟩, hgone⟩
    rw [← PartitionState.seenFrom_eq, hall]
    exact hx
  -- all nodes are complete, so all are stable, but no stable node was left
  refine (hI.resolvers q hq).fresh (h q hq).2.2.2.1 x ⟨hmem, fun w hw hinc => ?_⟩
  rw [hG.isIncomplete_iff hw] at hinc
  have hle := (numReported_iff (hI.seen_ok hq) w).mpr (hcomplete w ((hG.mem w).mp hw).1)
  exact absurd hinc (not_lt.mpr hle)

/-- An edge of the lock manager was written to the log, or is part of a chain. -/
theorem Inv.waitsFor_cases (hI : Inv W n s) (hp : p < n) (hv : v ∈ (s.part p).lm.txnInfo)
    (huv : 0 < (s.part p).numEdges u v) :
    HasEntry (s.part p).hist u ∧ ((s.Edge u v ∧ u ≠ v ∧ ∀ c ∈ (s.part p).applied, u ∈ c → v ∉ c) ∨
      (u < v ∧ ∃ c ∈ (s.part p).applied, u ∈ c ∧ v ∈ c)) := by
  have hP := hI.part p
  unfold PartitionState.numEdges at huv
  cases hl : (s.part p).lm.txnInfo.lookup u with
  | none => rw [hl] at huv; simp at huv
  | some tu =>
    have hv0 : v ≠ kSentinelTxnId := by
      rintro rfl
      exact hP.waits.sentinel hv
    have hue : HasEntry (s.part p).hist u :=
      (hP.hist.live_iff.mp (mem_iff_lookup.mpr ⟨tu, hl⟩)).1
    refine ⟨hue, ?_⟩
    have hedge : 0 < (outs (s.part p).hist u).count v → s.Edge u v ∧ u ≠ v := by
      intro hpos
      have hlog := mem_outs.mp (count_pos_iff.mp hpos)
      refine ⟨⟨p, hlog⟩, ?_⟩
      rintro rfl
      obtain ⟨e, he, rfl, hself⟩ := hlog
      exact hP.simple e he hself
    rw [hl, elim_some, hP.slots.slots u tu hl, count_slotsOf hv0] at huv
    cases hc : componentOf (s.part p).applied u with
    | none =>
      rw [hc] at huv
      exact .inl ⟨(hedge huv).1, (hedge huv).2, fun d hd hud =>
        absurd hud (componentOf_eq_none.mp hc d hd)⟩
    | some c =>
      obtain ⟨hca, huc⟩ := mem_of_componentOf hc
      simp only [hc] at huv
      by_cases hvc : v ∈ c
      · rw [if_pos hvc, add_zero] at huv
        split_ifs at huv with hnext
        · refine .inr ⟨?_, c, hca, huc, hvc⟩
          exact ((isNextLocal_iff hv0).mpr hnext).2.1
        · cases huv
      · rw [if_neg hvc] at huv
        have hne : nextIn (c.filter fun y => decide (HasEntry (s.part p).hist y)) u ≠ v := by
          intro hnext
          exact hvc ((isNextLocal_iff hv0).mpr hnext).1.1
        rw [if_neg hne, zero_add] at huv
        refine .inl ⟨(hedge huv).1, (hedge huv).2, fun d hd hud => ?_⟩
        have hdc : componentOf (s.part p).applied u = some d :=
          componentOf_of_mem (pairwise_append.mp (hI.resolvers p hp).disjoint).1 hd hud
        rw [hc, some_inj] at hdc
        exact hdc ▸ hvc

/-- Whoever waits is reached in the graph of all entries. -/
theorem Inv.reach_of_waitsFor (hI : Inv W n s) (h : s.WaitsFor n u v) : ReflTransGen s.Edge u v := by
  obtain ⟨p, hp, hv, huv⟩ := h
  rcases (hI.waitsFor_cases hp hv huv).2 with ⟨hE, -⟩ | ⟨-, c, hc, huc, hvc⟩
  · exact .single hE
  · obtain ⟨-, -, d, -, hd⟩ := (hI.resolvers p hp).handed c (mem_append_left _ hc)
    exact (((hd u).mp huc).symm.trans ((hd v).mp hvc)).1

/-- In a settled state an edge on a cycle leads to a larger id: its two ends are in one
component, and that has become a chain. -/
theorem Settled.lt_of_waitsFor (h : s.Settled W n) (hI : Inv W n s)
    (hs : Lts.Reachable (Cluster.step W n) {} s) (huv : s.WaitsFor n u v)
    (hvu : ReflTransGen (s.WaitsFor n) v u) : u < v := by
  have hback : ReflTransGen s.Edge v u := by
    clear huv
    induction hvu with
    | refl => exact .refl
    | tail _ hbc ih => exact ih.trans (hI.reach_of_waitsFor hbc)
  have hcon : Connected s.Edge u v := ⟨hI.reach_of_waitsFor huv, hback⟩
  obtain ⟨p, hp, hv, hpos⟩ := huv
  obtain ⟨hue, ⟨-, hne, hno⟩ | ⟨hlt, -⟩⟩ := hI.waitsFor_cases hp hv hpos
  · obtain ⟨c, hc, huc⟩ := (hI.resolvers p hp).all u (h.mem_gone hI.toBaseInv hs hp hue) v hne.symm hcon
    have happ : c ∈ (s.part p).applied := by
      rw [PartitionState.handed, (h p hp).2.2.2.2] at hc
      simpa [Stage.sccs] using hc
    obtain ⟨-, -, d, -, hd⟩ := (hI.resolvers p hp).handed c hc
    exact absurd ((hd v).mpr (((hd u).mp huc).trans hcon)) (hno c happ huc)
  · exact hlt

theorem Settled.lt_of_path (h : s.Settled W n) (hI : Inv W n s)
    (hs : Lts.Reachable (Cluster.step W n) {} s) (huv : TransGen (s.WaitsFor n) u v) :
    ReflTransGen (s.WaitsFor n) v u → u < v := by
  induction huv with
  | single hab => exact h.lt_of_waitsFor hI hs hab
  | @tail b c hub hbc ih =>
    intro hcu
    have h1 := ih (.head hbc hcu)
    have h2 := h.lt_of_waitsFor hI hs hbc (hcu.trans hub.to_reflTransGen)
    exact h1.trans h2

/-- **Resolution replaces every deadlock by chains, and no deadlock survives it**, in every run in
which no part requests a key-region twice with a write among the two requests. -/
theorem resolution_leaves_no_cycle (W : Submission) (n : ℕ) {es : List Event} {s : Cluster}
    (hrun : Lts.run (Cluster.step W n) {} es = some s) (hC : ∀ e ∈ es, W.Compatible e) :
    (∀ p < n, ∀ sccs ps, (s.part p).stage = .found sccs → (s.part p).apply = some ps →
      ∀ c ∈ sccs, 1 < c.length ∧ ResolvedExactly (s.part p) ps c) ∧
    (s.Settled W n → ∀ x, ¬ TransGen (s.WaitsFor n) x x) := by
  have hI := Inv.of_compatible hrun hC
  refine ⟨fun p hp sccs ps hstage hps c hc => ⟨?_, hI.resolvedExactly hp hstage hps hc⟩,
    fun h x hx => ?_⟩
  · have hhanded : c ∈ (s.part p).handed := by
      rw [PartitionState.handed, hstage]
      exact mem_append_right _ hc
    exact ((hI.resolvers p hp).handed c hhanded).2.1
  · exact lt_irrefl x (h.lt_of_path hI ⟨es, hrun⟩ hx .refl)

/-- The deadlock over two partitions ends in a settled state in which the larger id waits. -/
theorem resolution_cross : ∃ s, Lts.run (Cluster.step crossWorkload 2) {} crossEvents = some s ∧
    s.Settled crossWorkload 2 ∧ s.WaitsFor 2 1 2 ∧ ∀ x, ¬ TransGen (s.WaitsFor 2) x x := by
  refine Lts.exists_run (p := fun s => s.Settled crossWorkload 2 ∧ 2 ∈ (s.part 0).lm.txnInfo ∧
    0 < (s.part 0).numEdges 1 2) (by decide +kernel) ?_
  rintro s hs ⟨hsettled, h2, hedge⟩
  exact ⟨hsettled, ⟨0, by decide, h2, hedge⟩,
    (resolution_leaves_no_cycle crossWorkload 2 hs fun e _ => crossWorkload.compatible e).2
      hsettled⟩

section Reachable

variable (W : Submission) (n : ℕ) {s : Cluster} (hs : Lts.Reachable (Cluster.step W n) {} s)
  {q : PartitionId} (hq : q < n)
include hs hq

/-- **No entry is lost, repeated or overtaken**: the entries of a partition are those that another one
has seen, then those on their way to it, then those that have not been sent. -/
theorem graphLogs_flow (p : PartitionId) : (s.part p).hist =
    (s.part q).seenFrom p ++ (s.chan p q).flatten ++ (s.part p).unsent :=
  (BaseInv.reachable hs).flow p q hq

/-- **Detection is sound and complete.**  A resolver hands over components of the graph of all entries
written anywhere, each once, and whoever it takes out of its graph and is on a cycle is in one. -/
theorem handed_components :
    (∀ c ∈ (s.part q).handed, c.Nodup ∧ 1 < c.length ∧
      ∃ d ∈ (s.part q).gone, ∀ y, y ∈ c ↔ Connected s.Edge d y) ∧
    (∀ d ∈ (s.part q).gone, ∀ y, y ≠ d → Connected s.Edge d y → ∃ c ∈ (s.part q).handed, d ∈ c) ∧
    (s.part q).handed.Pairwise Disjoint := by
  have hresolver := (BaseInv.reachable hs).resolvers q hq
  exact ⟨hresolver.handed, hresolver.all, hresolver.disjoint⟩

end Reachable

theorem graphLogs_flow_cross :
    ∃ s, Lts.run (Cluster.step crossWorkload 2) {} crossEvents = some s ∧
      (s.part 0).hist.length = 2 ∧
      (s.part 0).hist = (s.part 1).seenFrom 0 ++ (s.chan 0 1).flatten ++ (s.part 0).unsent :=
  Lts.exists_run (p := fun s => (s.part 0).hist.length = 2) (by decide +kernel)
    fun _ hs h => ⟨h, graphLogs_flow _ 2 ⟨_, hs⟩ (by decide) 0⟩

/-- Both resolvers hand over the deadlock. -/
theorem handed_components_cross :
    ∃ s, Lts.run (Cluster.step crossWorkload 2) {} crossEvents = some s ∧
      (s.part 1).handed = [[2, 1]] ∧ ∃ d ∈ (s.part 1).gone, ∀ y, y ∈ [2, 1] ↔ Connected s.Edge d y :=
  Lts.exists_run (p := fun s => (s.part 1).handed = [[2, 1]]) (by decide +kernel) fun _ hs h =>
    ⟨h, ((handed_components _ 2 ⟨_, hs⟩ (by decide)).1 [2, 1] (by simp [h])).2.2⟩

/-! The transactions 1 and 2 are in a deadlock over the keys "A" and "B", and 1 names "A" twice.
Its list in the lock manager leaves out 1 itself, which the log does not. -/

def twiceTxn : TxnId → PartitionId → Transaction
  | 1, _ => { internal := { id := 1, involvedPartitions := [0] },
              keys := [{ key := "A", type := .write, metadata := some { master := 0 } },
                { key := "A", type := .write, metadata := some { master := 0 } },
                { key := "B", type := .write, metadata := some { master := 1 } }] }
  | x, _ => { internal := { id := x, involvedPartitions := [0] },
              keys := [{ key := "A", type := .write, metadata := some { master := 0 } },
                { key := "B", type := .write, metadata := some { master := 1 } }] }

theorem nodup_involved (_ : TxnId) : [(0 : PartitionId)].Nodup := by simp

def twiceSubmission : Submission where
  txn := twiceTxn
  involved := fun _ => [0]
  id_eq x p := by unfold twiceTxn; split <;> rfl
  involved_eq x p := by unfold twiceTxn; split <;> rfl
  involved_nodup := nodup_involved
  remaster_single x p := by unfold twiceTxn; split <;> simp [Transaction.isRemaster]

/-- A whole call of `AcquireLocks`. -/
def acquireLocks (p : PartitionId) (x : TxnId) (h : RegionId) : List Event :=
  [.act p (.acquire x h), .act p .log]

def twiceEvents : List Event :=
  acquireLocks 0 1 0 ++ acquireLocks 0 2 1 ++ acquireLocks 0 2 0 ++ acquireLocks 0 1 1

/-- The transaction 3 comes to wait for 1 between the two phases of the resolver. -/
def lateEvents : List Event :=
  twiceEvents ++ [.act 0 (.find [1, 2])] ++ acquireLocks 0 3 1

/-- **The resolution of 1 and 2 removes the edge from 1 to 3.** -/
theorem not_resolvedExactly_late : ∃ s ps,
    Lts.run (Cluster.step twiceSubmission 1) {} lateEvents = some s ∧
      (s.part 0).stage = .found [[1, 2]] ∧ (s.part 0).apply = some ps ∧
      3 ∈ ps.lm.txnInfo ∧ (s.part 0).numEdges 1 3 = 1 ∧ ps.numEdges 1 3 = 0 ∧
      ¬ ResolvedExactly (s.part 0) ps [1, 2] := by
  obtain ⟨s, hs, ps, hps, hstage, h3, hbefore, hafter⟩ :
      ∃ s ∈ Lts.run (Cluster.step twiceSubmission 1) {} lateEvents, ∃ ps ∈ (s.part 0).apply,
        (s.part 0).stage = .found [[1, 2]] ∧ 3 ∈ ps.lm.txnInfo ∧ (s.part 0).numEdges 1 3 = 1 ∧
        ps.numEdges 1 3 = 0 := by
    decide +kernel
  refine ⟨s, ps, hs, hstage, hps, h3, hbefore, hafter, fun hR => ?_⟩
  have hframe := hR.frame 1 3 (by decide) (by decide) (.inl (by decide))
  rw [hbefore, hafter] at hframe
  exact absurd hframe (by decide)

end Cluster

end Slog
