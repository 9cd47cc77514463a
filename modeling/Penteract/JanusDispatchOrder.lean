/-
# The order in which the Janus schedulers dispatch

A transaction has to come after those that it depends on, and in a cycle of dependencies after those
with smaller ids.  A scheduler keeps to this order as long as its searches are not misled by a stale
mark and it hears of an executed transaction only when all that the transaction depends on is done
in its own partition.  The partitions then agree, and a worker finds all local dependencies of a
transaction among those dispatched before it.
-/
import Penteract.JanusProgress

namespace Janus

open List Slog Relation

namespace Workload

variable {w : Workload} {t u : TxnId}

/-- `u` has to wait for `t`. -/
def Precedes (w : Workload) (t u : TxnId) : Prop :=
  t ≠ u ∧ w.Reaches u t ∧ ¬ (w.Reaches t u ∧ u < t)

theorem precedes_or_precedes (hreach : w.Reaches u t) (hne : t ≠ u) :
    w.Precedes t u ∨ w.Precedes u t := by
  by_cases hback : w.Reaches t u ∧ u < t
  · exact .inr ⟨hne.symm, hback.1, fun h => absurd h.2 (Nat.lt_asymm hback.2)⟩
  · exact .inl ⟨hne, hreach, hback⟩

theorem participants_ne_nil {x d : TxnId} (h : w.DependsOn x d) : w.participants d ≠ [] := by
  obtain ⟨dep, hdep, rfl⟩ := h
  exact ne_nil_of_mem (w.target x dep hdep)

end Workload

namespace Scheduler

open TarjanSCCsFinder (txnIds)

variable {w : Workload} {p : PartitionId} {committed : List TxnId} {s s' : Scheduler} {v id : TxnId}
  {finder : TarjanSCCsFinder}

/-- The transactions that were dispatched, in this order. -/
def order (s : Scheduler) : List TxnId := s.dispatched.map Prod.snd

structure Ordered (w : Workload) (s : Scheduler) : Prop where
  closed : ∀ x d, s.Done x → w.participants x ≠ [] → w.DependsOn x d → s.Done d
  ordered : s.order.Pairwise fun x y => ¬ w.Precedes y x
  nodup : s.order.Nodup

variable {x y : TxnId} {before after : List SCC}

theorem Ordered.done_of_reaches (h : Ordered w s) (hx : s.Done x) (hpart : w.participants x ≠ [])
    (hreach : w.Reaches x y) : s.Done y := by
  suffices s.Done y ∧ w.participants y ≠ [] from this.1
  induction hreach with
  | refl => exact ⟨hx, hpart⟩
  | tail _ hdep ih => exact ⟨h.closed _ _ ih.1 ih.2 hdep, Workload.participants_ne_nil hdep⟩

theorem Ordered.congr (h : Ordered w s) (hdone : ∀ x, s'.Done x ↔ s.Done x)
    (horder : s'.order = s.order) : Ordered w s' where
  closed := fun x d hx hpart hd => (hdone d).mpr (h.closed x d ((hdone x).mp hx) hpart hd)
  ordered := by
    rw [horder]
    exact h.ordered
  nodup := by
    rw [horder]
    exact h.nodup

/-! ## A search -/

/-- What is found up to a point depends on nothing that is found later. -/
theorem Searched.closed (hwf : Wf w p committed s) (h : Searched s v finder)
    (heq : finder.sccs = before ++ after) {d : TxnId} (hx : x ∈ txnIds before) (hd : w.DependsOn x d) :
    s.Done d ∨ d ∈ txnIds before := by
  obtain ⟨m, hm, rfl⟩ := mem_map.mp hx
  obtain ⟨scc, hscc, hmscc⟩ := mem_flatten.mp hm
  obtain ⟨l, l', rfl⟩ := append_of_mem hscc
  obtain ⟨hactive, hedge, hmissing, -, -, -⟩ :=
    h.good.components l scc (l' ++ after) (by simpa using heq)
  have hid : m.1 ∈ scc.map Prod.fst := mem_map_of_mem hmscc
  have hblocked : s.Blocked m.1 := hactive m.1 hid
  obtain ⟨dep, hdep, rfl⟩ := hd
  rw [← hwf.deps_eq hblocked.mem] at hdep
  by_cases hself : dep.txnId = m.1
  · exact .inr (hself ▸ hx)
  by_cases hknown : dep.txnId ∈ s.graph
  · by_cases hdone : s.Done dep.txnId
    · exact .inl hdone
    · have hmem := hedge m.1 hid dep.txnId
        ⟨hblocked, blocked_iff.mpr ⟨hknown, hdone⟩, hself, dep, hdep, rfl⟩
      right
      simp only [txnIds, flatten_append, map_append, mem_append, flatten_cons,
        flatten_nil, append_nil] at hmem ⊢
      tauto
  · by_cases hexec : s.horizon.contains dep.txnId = true
    · exact .inl (.inl hexec)
    · exact absurd ⟨hblocked, hdep, hself, by simpa using hexec,
        AssocMap.not_mem_iff_lookup.mp hknown⟩ (hmissing m.1 hid dep)

theorem Searched.reaches (hwf : Wf w p committed s) (hord : Ordered w s) (h : Searched s v finder)
    (heq : finder.sccs = before ++ after) (hx : x ∈ txnIds before) (hreach : w.Reaches x y) :
    s.Done y ∨ y ∈ txnIds before := by
  induction hreach with
  | refl => exact .inr hx
  | tail hpath hdep ih =>
    rcases ih with hdone | hmem
    · rcases ReflTransGen.cases_tail hpath with rfl | ⟨z, -, hz⟩
      · exact h.closed hwf heq hx hdep
      · exact .inl (hord.closed _ _ hdone (Workload.participants_ne_nil hz) hdep)
    · exact h.closed hwf heq hmem hdep

/-- The components are found in the right order, unless the search is misled. -/
theorem Searched.pairwise (hwf : Wf w p committed s) (hord : Ordered w s) (h : Searched s v finder)
    (hstale : finder.stale = false) (heq : finder.sccs = before ++ after) :
    (txnIds before).Pairwise fun x y => ¬ w.Precedes y x := by
  induction before using List.reverseRecOn generalizing after with
  | nil => exact .nil
  | append_singleton before scc ih =>
    have heq' : finder.sccs = before ++ scc :: after := by simpa using heq
    obtain ⟨hactive, -, -, -, hsorted, hconn⟩ := h.good.components before scc after heq'
    obtain ⟨z, hz⟩ := hconn hstale
    rw [TarjanSCCsFinder.txnIds_concat, pairwise_append]
    refine ⟨ih heq', ?_, fun x hx y hy hprec => ?_⟩
    · rw [pairwise_map]
      refine hsorted.imp_of_mem fun {a b} ha hb hlt hprec => hprec.2.2 ⟨?_, hlt⟩
      have hza := (hz a.1).mpr (mem_map_of_mem ha)
      have hzb := (hz b.1).mpr (mem_map_of_mem hb)
      exact hwf.reaches_of_edges (hzb.2.trans hza.1)
    · rcases h.reaches hwf hord heq' hx hprec.2.1 with hdone | hmem
      · have hblocked : s.Blocked y := hactive y hy
        exact (blocked_iff.mp hblocked).2 hdone
      · have hnodup := h.good.nodup
        rw [heq', Rounds.txnIds_append, nodup_append] at hnodup
        refine hnodup.2.2 y hmem y ?_ rfl
        rw [txnIds, flatten_cons, map_append]
        exact mem_append_left _ hy

theorem Resolved.ordered (hwf : Wf w p committed s) (hord : Ordered w s) (h : Searched s v finder)
    {c : SchedulerConfig} (hres : Resolved c s v finder s') (hstale : finder.stale = false) :
    Ordered w s' := by
  have hdone (x : TxnId) : s'.Done x ↔ s.Done x ∨ x ∈ txnIds finder.sccs :=
    hres.done_iff hwf h.good
  have hnil : finder.sccs = finder.sccs ++ [] := (append_nil _).symm
  have hsub : ((finder.sccs.flatten.filter Prod.snd).map Prod.fst).Sublist (txnIds finder.sccs) :=
    filter_sublist.map _
  have hnew {x : TxnId} (hx : x ∈ txnIds finder.sccs) : ¬ s.Done x :=
    (Scheduler.blocked_iff.mp (h.blocked_of_mem hx)).2
  have hold {x : TxnId} (hx : x ∈ s.order) : s.Done x ∧ w.participants x ≠ [] := by
    obtain ⟨hp, hx⟩ := (hwf.dispatched x).mp hx
    exact ⟨hx, ne_nil_of_mem hp⟩
  refine ⟨fun x d hx hpart hd => ?_, ?_, ?_⟩
  · rw [hdone]
    rcases (hdone x).mp hx with hx | hx
    · exact .inl (hord.closed x d hx hpart hd)
    · exact h.closed hwf hnil hx hd
  · rw [order, hres.dispatched, pairwise_append]
    refine ⟨hord.ordered, (h.pairwise hwf hord hstale hnil).sublist hsub, fun x hx y hy hprec => ?_⟩
    obtain ⟨hx, hpart⟩ := hold hx
    exact hnew (hsub.subset hy) (hord.done_of_reaches hx hpart hprec.2.1)
  · rw [order, hres.dispatched, nodup_append]
    refine ⟨hord.nodup, h.good.nodup.sublist hsub, fun x hx y hy heq => ?_⟩
    exact hnew (hsub.subset hy) (heq ▸ (hold hx).1)

theorem Move.ordered (hwf : Wf w p committed s) (h : s.misled = false → Ordered w s)
    (hmove : Move w p s s') : s'.misled = false → Ordered w s' := by
  intro hmisled
  cases hmove with
  | resolve hround hpost hres =>
    rw [hres.misled, Bool.or_eq_false_iff] at hmisled
    exact hres.ordered hwf (h hmisled.1) hpost hmisled.2
  | countDown id => exact (h hmisled).congr (fun _ => done_countDown) rfl
  | forget id hdone => exact (h hmisled).congr (fun _ => Iff.rfl) rfl

theorem Wf.ordered_of_moves (hwf : Wf w p committed s) (h : s.misled = false → Ordered w s)
    (hmoves : ReflTransGen (Move w p) s s') : s'.misled = false → Ordered w s' :=
  (hwf.moves (P := fun s => s.misled = false → Ordered w s) h
    (fun _ _ hwf h hmove => hmove.ordered hwf h) hmoves).2

/-! ## The handlers -/

theorem Ordered.withVertex (h : Ordered w s) (hid : id ∉ s.graph) :
    Ordered w (s.withVertex w p id) :=
  h.congr (fun _ => done_withVertex hid) rfl

theorem Ordered.inquiries (h : Ordered w s) (hsame : SameButInquiries s s') : Ordered w s' := by
  rw [hsame]
  exact h.congr (fun _ => Iff.rfl) rfl

theorem Ordered.onCustomSocket (h : Ordered w s) (hid : s.Done id) :
    Ordered w (s.onCustomSocket id) :=
  h.congr (fun _ => done_onCustomSocket hid) rfl

theorem Ordered.withExecuted (h : Ordered w s) (hdeps : ∀ dep ∈ w.deps id, s.Done dep.txnId) :
    Ordered w (s.withExecuted id) := by
  refine ⟨fun x d hx hpart hd => done_withExecuted.mpr (.inr ?_), h.ordered, h.nodup⟩
  rcases done_withExecuted.mp hx with rfl | hx
  · obtain ⟨dep, hdep, rfl⟩ := hd
    exact hdeps dep hdep
  · exact h.closed x d hx hpart hd

end Scheduler

/-- What an executed transaction depends on is done here as well. -/
def InquiryResult.Settled (w : Workload) (s : Scheduler) : InquiryResult → Prop
  | .executed id => ∀ dep ∈ w.deps id, s.Done dep.txnId
  | .pending _ _ => True

def Envelope.Settled (w : Workload) (s : Cluster) : Envelope → Prop
  | .inquire _ _ _ => True
  | .answer receiver results => ∀ result ∈ results, result.Settled w (s.schedulers receiver)

def ClusterEvent.Settled (w : Workload) (s : Cluster) : ClusterEvent → Prop
  | .deliver i => ∀ envelope ∈ s.network[i]?, envelope.Settled w s
  | _ => True

instance (s : Scheduler) (x : TxnId) : Decidable (s.Done x) := inferInstanceAs (Decidable (_ ∨ _))

instance (w : Workload) (s : Scheduler) : DecidablePred (InquiryResult.Settled w s)
  | .executed id => inferInstanceAs (Decidable (∀ dep ∈ w.deps id, s.Done dep.txnId))
  | .pending _ _ => .isTrue trivial

instance (w : Workload) (s : Cluster) : DecidablePred (Envelope.Settled w s)
  | .inquire _ _ _ => .isTrue trivial
  | .answer receiver results =>
    inferInstanceAs (Decidable (∀ result ∈ results, result.Settled w (s.schedulers receiver)))

instance (w : Workload) (s : Cluster) : DecidablePred (ClusterEvent.Settled w s)
  | .commit _ _ => .isTrue trivial
  | .deliver i => inferInstanceAs (Decidable (∀ envelope ∈ s.network[i]?, envelope.Settled w s))
  | .take _ _ => .isTrue trivial
  | .finish _ _ => .isTrue trivial
  | .complete _ _ => .isTrue trivial

namespace Scheduler

variable {w : Workload} {p : PartitionId} {committed : List TxnId} {s s' : Scheduler}

variable {result : InquiryResult}

theorem Ordered.learn (h : Ordered w s) (hgraph : result.id ∉ s.graph) (hsettled : result.Settled w s) :
    Ordered w (s.learn w p result) := by
  cases result with
  | executed id => exact h.withExecuted hsettled
  | pending id deps => exact h.withVertex hgraph

theorem InquiryResult.Settled.mono (h : result.Settled w s) (hdone : ∀ x, s.Done x → s'.Done x) :
    result.Settled w s' := by
  cases result with
  | executed id => exact fun dep hdep => hdone _ (h dep hdep)
  | pending id deps => trivial

/-- The answers are taken in one after the other; what is done stays done. -/
theorem Learns.ordered {results : List InquiryResult} (hlearns : Learns w p results s s')
    (hp : p < w.numPartitions) (hwf : Wf w p committed s) (h : s.misled = false → Ordered w s)
    (hsettled : ∀ result ∈ results, result.Settled w s) :
    s'.misled = false → Ordered w s' := by
  induction hlearns with
  | nil => exact h
  | @cons result results s s₁ s' hawaits hmoves hlearns ih =>
    have hwf₁ := hwf.learn hawaits
    have hmisled : (s.learn w p result).misled = s.misled := by
      cases result <;> rfl
    refine ih (hwf₁.of_moves hmoves) (hwf₁.ordered_of_moves (fun hm => ?_) hmoves)
      fun r hr => ?_
    · exact (h (hmisled ▸ hm)).learn hawaits.2.1 (hsettled result mem_cons_self)
    · exact InquiryResult.Settled.mono (hsettled r (mem_cons_of_mem _ hr)) fun x hx =>
        (hwf₁.effects hp hmoves).done x ((learn_effects hawaits).done x hx)

end Scheduler

namespace Cluster

open Scheduler (Ordered)
open Rounds (txn)

variable {w : Workload} {s s' : Cluster} {p q : PartitionId} {t u : TxnId}

/-- The event makes no search go wrong by a stale mark. -/
def NotMisled (w : Workload) (s : Cluster) (e : ClusterEvent) : Prop :=
  ∀ s' ∈ step w s e, ∀ p < w.numPartitions, (s'.schedulers p).misled = false

instance (w : Workload) (s : Cluster) (e : ClusterEvent) : Decidable (NotMisled w s e) :=
  inferInstanceAs (Decidable (∀ s' ∈ step w s e, ∀ p < w.numPartitions, _))

/-- The event misleads no search, and brings word of an executed transaction only when all that
it depends on is done. -/
def Sound (w : Workload) (s : Cluster) (e : ClusterEvent) : Prop :=
  NotMisled w s e ∧ e.Settled w s

instance (w : Workload) (s : Cluster) (e : ClusterEvent) : Decidable (Sound w s e) :=
  inferInstanceAs (Decidable (_ ∧ _))

/-- One scheduler has changed. -/
theorem ordered_setScheduler (h : ∀ p < w.numPartitions, Ordered w (s.schedulers p))
    {scheduler : Scheduler} (hnew : scheduler.misled = false → Ordered w scheduler)
    (network : List Envelope)
    (hmisled : ((({ s with network } : Cluster).setScheduler p scheduler).schedulers p).misled =
      false) :
    ∀ q < w.numPartitions,
      Ordered w ((({ s with network } : Cluster).setScheduler p scheduler).schedulers q) := by
  intro q hq
  simp only [setScheduler] at hmisled ⊢
  rcases eq_or_ne q p with rfl | hqp
  · rw [Function.update_self] at hmisled ⊢
    exact (hnew hmisled).congr (fun _ => Iff.rfl) rfl
  · rw [Function.update_of_ne hqp]
    exact h q hq

theorem Inv.ordered (hinv : Inv w s) (h : ∀ p < w.numPartitions, Ordered w (s.schedulers p))
    {e : ClusterEvent} (hsound : Sound w s e) (hstep : step w s e = some s') :
    ∀ p < w.numPartitions, Ordered w (s'.schedulers p) := by
  have hmisled := hsound.1 s' hstep
  cases hinv.change hstep with
  | @commit p id s₁ scheduler hp hid hgraph hdone hsame hmoves hwf hwaits heffects =>
    refine ordered_setScheduler h ?_ s.network (hmisled p hp)
    exact hwf.ordered_of_moves (fun _ => ((h p hp).withVertex hgraph).inquiries hsame) hmoves
  | @inquire i sender receiver ids hi hsender hreceiver =>
    refine ordered_setScheduler h (fun _ => ?_) _ (hmisled receiver hreceiver)
    obtain ⟨hsame, -⟩ :=
      Scheduler.processInquiry_spec (hinv.wf receiver hreceiver) hsender ids
    exact (h receiver hreceiver).inquiries hsame
  | @answer i receiver results scheduler hi hreceiver hlearns hwf hwaits heffects =>
    refine ordered_setScheduler h ?_ _ (hmisled receiver hreceiver)
    exact hlearns.ordered hreceiver (hinv.wf receiver hreceiver) (fun _ => h receiver hreceiver)
      (hsound.2 _ hi)
  | take hid => exact h
  | finish hid hnot hall => exact h
  | @complete p id hp hid hnot hdone hlocal =>
    exact ordered_setScheduler h (fun _ => (h p hp).onCustomSocket hdone) s.network (hmisled p hp)

theorem ordered_start (w : Workload) : Ordered w ({} : Scheduler) := by
  refine ⟨fun x d hx hpart => ?_, .nil, .nil⟩
  have hcounter := w.counter_pos x hpart
  rcases hx with hx | hx
  · simp [TxnHorizon.contains, TxnHorizon.of, Horizon.contains] at hx
    omega
  · exact absurd rfl hx

theorem ordered_of_run {es : List ClusterEvent} (hrun : Lts.run (step w) {} es = some s)
    (hsound : Lts.Meets (step w) (Sound w) {} es) :
    ∀ p < w.numPartitions, Ordered w (s.schedulers p) :=
  Lts.invariant_meets (step w) (P := fun s => ∀ p < w.numPartitions, Ordered w (s.schedulers p))
    (fun _ _ => ordered_start w)
    (fun _ _ _ hreach h hC hstep => (inv_of_reachable hreach).ordered h hC hstep) hsound hrun

/-! ## Agreement -/

theorem sublist_or_sublist {l : List TxnId} (ht : t ∈ l) (hu : u ∈ l) (hne : t ≠ u) :
    [t, u].Sublist l ∨ [u, t].Sublist l := by
  obtain ⟨l₁, l₂, rfl⟩ := append_of_mem ht
  rcases mem_append.mp hu with hu | hu
  · exact .inr ((singleton_sublist.mpr hu).append (singleton_sublist.mpr mem_cons_self))
  · have hu : u ∈ l₂ := (mem_cons.mp hu).resolve_left hne.symm
    exact .inl (((singleton_sublist.mpr hu).cons_cons t).trans (sublist_append_right ..))

theorem Inv.lt_of_mem_order (hinv : Inv w s) (ht : t ∈ (s.schedulers p).order) :
    p < w.numPartitions := by
  by_contra hp
  rw [Scheduler.order, hinv.outside p (not_lt.mp hp)] at ht
  cases ht

/-- The dispatched transactions are in the order of `Precedes`. -/
theorem sublist_iff_precedes (hinv : Inv w s)
    (hord : ∀ p < w.numPartitions, Ordered w (s.schedulers p)) (hreach : w.Reaches u t)
    (hne : t ≠ u) (ht : t ∈ (s.schedulers p).order) (hu : u ∈ (s.schedulers p).order) :
    [t, u].Sublist (s.schedulers p).order ↔ w.Precedes t u := by
  have hpairs {x y : TxnId} (hsub : [x, y].Sublist (s.schedulers p).order) : ¬ w.Precedes y x :=
    pairwise_iff_forall_sublist.mp (hord p (hinv.lt_of_mem_order ht)).ordered hsub
  constructor
  · intro hsub
    exact (Workload.precedes_or_precedes hreach hne).resolve_right (hpairs hsub)
  · intro hprec
    exact (sublist_or_sublist ht hu hne).resolve_right fun hsub => hpairs hsub hprec

/-- Two transactions, the first of which depends on the second. -/
def pairDeps (id : TxnId) : List TxnId := if id = txn 1 then [txn 2] else []

def pairTwice : Workload := .everywhere 2 1 Nat.two_pos (by decide) Nat.one_pos pairDeps

def pairOnce : Workload := .everywhere 1 1 Nat.one_pos chain.numPartitions_le Nat.one_pos pairDeps

def pairTwoWorkers : Workload := .everywhere 1 2 Nat.one_pos chain.numPartitions_le Nat.two_pos pairDeps

/-! ## Disagreement

The chain of three again, now at two partitions: the one that gets the last transaction of the chain at
last takes the other two for one component.  In the second workload, the middle one of three
transactions takes part elsewhere; its partition says that it has been executed, and not that it
depended on the last one. -/

/-- Each of three transactions depends on the next one, at both of two partitions. -/
def chainTwice : Workload :=
  .everywhere 2 1 Nat.two_pos (by decide) Nat.one_pos fun id =>
    if id = txn 1 then [txn 2] else if id = txn 2 then [txn 3] else []

/-- The first and the last of three transactions take part at the partitions 0 and 2, the middle one at
partition 1. -/
def detour : Workload where
  numPartitions := 3
  numWorkers := 1
  participants := fun id => if id = txn 2 then [1] else if id = txn 1 ∨ id = txn 3 then [0, 2] else []
  deps := fun id =>
    if id = txn 1 then [{ txnId := txn 2, participantsBitmap := 2, targetPartition := 1 }]
    else if id = txn 2 then [{ txnId := txn 3, participantsBitmap := 5, targetPartition := 2 }]
    else []
  order := fun _ _ l => l
  numPartitions_le := by decide
  numWorkers_pos := Nat.one_pos
  participants_lt := by
    intro id p hp
    split_ifs at hp
    · obtain rfl := mem_singleton.mp hp
      decide
    · rcases mem_cons.mp hp with rfl | hp
      · decide
      · obtain rfl := mem_singleton.mp hp
        decide
    · exact absurd hp not_mem_nil
  counter_pos := by
    intro id hne
    split_ifs at hne with h2 h13
    · subst h2
      decide
    · rcases h13 with rfl | rfl <;> decide
    · exact absurd rfl hne
  bitmap := by
    intro id dep hdep p hp
    split_ifs at hdep with h1 h2
    · obtain rfl := mem_singleton.mp hdep
      interval_cases p <;> decide
    · obtain rfl := mem_singleton.mp hdep
      interval_cases p <;> decide
    · exact absurd hdep not_mem_nil
  target := by
    intro id dep hdep
    split_ifs at hdep with h1 h2
    · obtain rfl := mem_singleton.mp hdep
      decide
    · obtain rfl := mem_singleton.mp hdep
      decide
    · exact absurd hdep not_mem_nil
  order_perm := fun _ _ l => .refl l

/-- The partitions 2 and 1 execute the last and the middle one; then partition 0 gets the first one,
and asks for the middle one, before it gets the last one. -/
def detourEvents : List ClusterEvent :=
  [.commit 2 (txn 3), .commit 1 (txn 2), .deliver 0, .deliver 0, .take 1 0, .finish 1 (txn 2),
    .complete 1 (txn 2), .commit 0 (txn 1), .deliver 0, .deliver 0, .commit 0 (txn 3),
    .commit 2 (txn 1), .deliver 0, .deliver 0]

/-! ## Dependencies have finished -/

variable {worker : ℕ}

theorem mem_order_of_next (h : s.next w p worker = some t) : t ∈ (s.schedulers p).order := by
  rw [next] at h
  split_ifs at h
  obtain ⟨m, hm, rfl⟩ := mem_map.mp (mem_of_find?_eq_some h)
  exact mem_map_of_mem (mem_filter.mp hm).1

/-- What was sent to the worker before, and involves no other partition, has finished. -/
theorem finished_of_queue (hnext : s.next w p worker = some t)
    (hqueue : [u, t].Sublist (s.queue p worker)) (hnodup : (s.queue p worker).Nodup)
    (hsingle : (w.participants u).length = 1) : u ∈ s.finished p := by
  rw [next] at hnext
  split_ifs at hnext with hbusy
  have hu : u ∈ s.queue p worker := hqueue.subset mem_cons_self
  have htaken : u ∈ s.taken p := by
    obtain ⟨-, l, l', hl, htaken⟩ := List.find?_eq_some_iff_append.mp hnext
    rw [hl] at hqueue hnodup
    obtain ⟨hnl, hnt, hdisjoint⟩ := nodup_append.mp hnodup
    have ht : t ∉ l' := (nodup_cons.mp hnt).1
    suffices u ∈ l by simpa using htaken u this
    by_contra hul
    -- otherwise both of them come after the first `t`
    obtain ⟨l₁, l₂, heq, hl₁, hl₂⟩ := sublist_append_iff.mp hqueue
    cases l₁ with
    | cons a l₁ =>
      have ha : a = u := by simp at heq; exact heq.1.symm
      exact hul (ha ▸ hl₁.subset mem_cons_self)
    | nil =>
      rw [nil_append] at heq
      subst heq
      rcases sublist_cons_iff.mp hl₂ with hsub | ⟨r, hr, hsub⟩
      · exact ht (hsub.subset (mem_cons_of_mem _ mem_cons_self))
      · obtain rfl := (List.cons.inj hr).2
        exact ht (hsub.subset mem_cons_self)
  by_contra hnot
  refine hbusy (any_eq_true.mpr ⟨u, hu, ?_⟩)
  simp [htaken, hnot, hsingle]

/-- **The local dependencies of a transaction have finished when a worker reads for it** if and only if
this holds for those that were dispatched before it to another worker, or involve another partition. -/
theorem finished_iff_of_sound {es : List ClusterEvent} (hrun : Lts.run (step w) {} es = some s)
    (hsound : Lts.Meets (step w) (Sound w) {} es) {worker : ℕ}
    (hnext : s.next w p worker = some t) :
    (∀ u, p ∈ w.participants u → w.Precedes u t → u ∈ s.finished p) ↔
      ∀ u, [u, t].Sublist (s.schedulers p).order → w.Precedes u t →
        ¬ ([u, t].Sublist (s.queue p worker) ∧ (w.participants u).length = 1) →
        u ∈ s.finished p := by
  have hinv := inv_of_reachable ⟨es, hrun⟩
  have hord := ordered_of_run hrun hsound
  have ht := mem_order_of_next hnext
  have hp := hinv.lt_of_mem_order ht
  have hdispatched (x : TxnId) := (hinv.wf p hp).dispatched x
  constructor
  · intro h u hsub hprec _
    exact h u ((hdispatched u).mp (hsub.subset mem_cons_self)).1 hprec
  · intro h u hpu hprec
    obtain ⟨hpt, hdone⟩ := (hdispatched t).mp ht
    have hudone := (hord p hp).done_of_reaches hdone (ne_nil_of_mem hpt) hprec.2.1
    have hu : u ∈ (s.schedulers p).order := (hdispatched u).mpr ⟨hpu, hudone⟩
    have hsub := (sublist_iff_precedes hinv hord hprec.2.1 hprec.1 hu ht).mpr hprec
    by_cases hqueue : [u, t].Sublist (s.queue p worker) ∧ (w.participants u).length = 1
    · exact finished_of_queue hnext hqueue.1 ((hord p hp).nodup.sublist (filter_sublist.map _))
        hqueue.2
    · exact h u hsub hprec hqueue

theorem finished_pair :
    ∃ s, (∃ es, Lts.run (step pairOnce) {} es = some s ∧
        Lts.Meets (step pairOnce) (Sound pairOnce) {} es) ∧
      s.next pairOnce 0 0 = some (txn 1) ∧
      ∀ u, 0 ∈ pairOnce.participants u →
        pairOnce.Precedes u (txn 1) → u ∈ s.finished 0 := by
  have hsound : Lts.Meets (step pairOnce) (Sound pairOnce) {}
      [.commit 0 (txn 1), .commit 0 (txn 2), .take 0 0, .finish 0 (txn 2)] := by
    decide +kernel
  obtain ⟨s, hs, hnext, horder, hfinished⟩ : ∃ s ∈ Lts.run (step pairOnce) {}
      [.commit 0 (txn 1), .commit 0 (txn 2), .take 0 0, .finish 0 (txn 2)],
      s.next pairOnce 0 0 = some (txn 1) ∧ (s.schedulers 0).order = [txn 2, txn 1] ∧
        s.finished 0 = [txn 2] := by
    decide +kernel
  refine ⟨s, ⟨_, hs, hsound⟩, hnext, (finished_iff_of_sound hs hsound hnext).mpr ?_⟩
  intro u hsub hprec _
  have hu : u ∈ [txn 2, txn 1] := horder ▸ hsub.subset mem_cons_self
  simp only [mem_cons, not_mem_nil, or_false, hprec.1] at hu
  simp [hu, hfinished]

/-- **A worker reads for a transaction while another one executes what it depends on.** -/
theorem not_finished_pair :
    ∃ (w : Workload) (es : List ClusterEvent) (s : Cluster) (p : PartitionId) (worker : ℕ)
      (t u : TxnId), Lts.run (step w) {} es = some s ∧ Lts.Meets (step w) (Sound w) {} es ∧
      s.next w p worker = some t ∧ p ∈ w.participants u ∧ w.Precedes u t ∧ u ∉ s.finished p := by
  have hsound : Lts.Meets (step pairTwoWorkers) (Sound pairTwoWorkers) {}
      [.commit 0 (txn 2), .commit 0 (txn 1)] := by
    decide +kernel
  obtain ⟨s, hs, hnext, hfinished⟩ : ∃ s ∈ Lts.run (step pairTwoWorkers) {}
      [.commit 0 (txn 2), .commit 0 (txn 1)],
      s.next pairTwoWorkers 0 1 = some (txn 1) ∧ s.finished 0 = [] := by
    decide +kernel
  have hdep : pairTwoWorkers.DependsOn (txn 1) (txn 2) :=
    ⟨_, mem_singleton_self _, rfl⟩
  have hback : ∀ y, pairTwoWorkers.Reaches (txn 2) y → y = txn 2 := by
    intro y hreach
    rcases ReflTransGen.cases_head hreach with rfl | ⟨z, ⟨dep, hmem, -⟩, -⟩
    · rfl
    · cases hmem
  refine ⟨_, _, s, 0, 1, txn 1, txn 2, hs, hsound, hnext, by decide,
    ⟨by decide, .single hdep, fun h => ?_⟩, by simp [hfinished]⟩
  exact absurd (hback _ h.1) (by decide)

/-! ## Every transaction is dispatched once -/

section Once

variable {committed : List TxnId} {c c' : Scheduler}

theorem nodup_of_moves (hwf : c.Wf w p committed) (h : c.order.Nodup)
    (hmoves : ReflTransGen (Scheduler.Move w p) c c') : c'.order.Nodup := by
  refine (hwf.moves (P := fun c => c.order.Nodup) h (fun c c' hwf h hmove => ?_) hmoves).2
  cases hmove with
  | resolve hround hpost hres =>
    rw [Scheduler.order, hres.dispatched]
    refine h.append (hpost.good.nodup.sublist (filter_sublist.map _)) fun x hx hnew => ?_
    have hblocked := hpost.blocked_of_mem ((filter_sublist.map _).subset hnew)
    exact (Scheduler.blocked_iff.mp hblocked).2 ((hwf.dispatched x).mp hx).2
  | countDown id => exact h
  | forget id hdone => exact h

theorem nodup_of_learns {results : List InquiryResult} (hwf : c.Wf w p committed)
    (h : c.order.Nodup) (hlearns : Scheduler.Learns w p results c c') : c'.order.Nodup := by
  induction hlearns with
  | nil => exact h
  | @cons result results c c₁ c' hawaits hmoves hlearns ih =>
    have hwf₁ := hwf.learn hawaits
    exact ih (hwf₁.of_moves hmoves) (nodup_of_moves hwf₁ (by cases result <;> exact h) hmoves)

theorem Inv.nodup (hinv : Inv w s) (h : ∀ p, (s.schedulers p).order.Nodup) {e : ClusterEvent}
    (hstep : step w s e = some s') : ∀ p, (s'.schedulers p).order.Nodup := by
  have hset {q : PartitionId} {c : Scheduler} (h' : c.order.Nodup) :
      ∀ p, ((s.setScheduler q c).schedulers p).order.Nodup := by
    refine (Function.forall_update_iff s.schedulers fun _ c => c.order.Nodup).mpr ⟨?_, fun p _ => h p⟩
    exact h'
  cases hinv.change hstep with
  | @commit p id s₁ scheduler hp hid hgraph hdone hsame hmoves hwf hwaits heffects =>
    exact hset (nodup_of_moves hwf (hsame ▸ h p) hmoves)
  | @inquire i sender receiver ids hi hsender hreceiver =>
    obtain ⟨hsame, -⟩ := Scheduler.processInquiry_spec (hinv.wf receiver hreceiver) hsender ids
    exact hset (hsame ▸ h receiver)
  | @answer i receiver results scheduler hi hreceiver hlearns hwf hwaits heffects =>
    exact hset (nodup_of_learns (hinv.wf receiver hreceiver) (h receiver) hlearns)
  | take hid => exact h
  | finish hid hnot hall => exact h
  | @complete p id hp hid hnot hdone hlocal => exact hset (h p)

end Once

/-- **A transaction passes once through the stages of a partition**, in every run: what has finished was
taken by a worker, what was taken was dispatched, once, and what was dispatched takes part and has been
committed. -/
theorem stages_of_reachable (hs : Lts.Reachable (step w) {} s) (p : PartitionId) :
    (s.schedulers p).order.Nodup ∧ s.finished p ⊆ s.taken p ∧ s.taken p ⊆ (s.schedulers p).order ∧
      ∀ x ∈ (s.schedulers p).order, p ∈ w.participants x ∧ x ∈ s.committed p := by
  obtain ⟨hinv, hnodup⟩ : Inv w s ∧ ∀ p, (s.schedulers p).order.Nodup :=
    Lts.invariant (step w) (P := fun s => Inv w s ∧ ∀ p, (s.schedulers p).order.Nodup)
      ⟨inv_start w, fun _ => .nil⟩ (fun _ _ _ h hstep =>
      ⟨h.1.of_change (h.1.change hstep), h.1.nodup h.2 hstep⟩) hs
  refine ⟨hnodup p, hinv.finished p, hinv.taken p, fun x hx => ?_⟩
  have hwf := hinv.wf p (hinv.lt_of_mem_order hx)
  obtain ⟨hp, hdone⟩ := (hwf.dispatched x).mp hx
  exact ⟨hp, hwf.known x hp (hdone.symm.imp_left Rounds.mem_of_disc_ne_zero)⟩

theorem stages_pair : ∃ s, Lts.run (step pairOnce) {} [.commit 0 (txn 1), .commit 0 (txn 2),
      .take 0 0, .finish 0 (txn 2)] = some s ∧ s.finished 0 = [txn 2] ∧
    (s.schedulers 0).order.Nodup ∧ txn 2 ∈ s.committed 0 := by
  refine Lts.exists_run (p := fun s => s.finished 0 = [txn 2]) (by decide +kernel) fun s hs h => ?_
  obtain ⟨hnodup, hfinished, htaken, hmem⟩ := stages_of_reachable ⟨_, hs⟩ 0
  exact ⟨h, hnodup, (hmem _ (htaken (hfinished (by simp [h])))).2⟩

end Cluster

end Janus
