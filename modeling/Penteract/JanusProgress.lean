/-
# No transaction is stuck in the Janus scheduler

In every run of the schedulers of all partitions, a vertex that has not been dispatched is filed
under dependencies that have not been dispatched either, and counts them; following them one comes
to a transaction that the scheduler does not know.
-/
import Penteract.JanusHandlers

namespace Janus

open List Option Function Slog Relation

namespace Cluster

open Scheduler (Wf Waits Effects Move Learns SameButInquiries Registered numRegistered credit)

variable {w : Workload} {s s' : Cluster} {p : PartitionId} {id : TxnId}

/-- All questions of `q` about `x` that have not been dealt with. -/
def tokens (w : Workload) (s : Cluster) (q : PartitionId) (x : TxnId) : ℕ :=
  (s.network.map (Envelope.tokens q x)).sum +
    ∑ t ∈ Finset.range w.numPartitions, (s.schedulers t).held q x

structure Inv (w : Workload) (s : Cluster) : Prop where
  wf : ∀ p < w.numPartitions, Wf w p (s.committed p) (s.schedulers p)
  waits : ∀ p < w.numPartitions, Waits w (s.schedulers p) [] [] none
  sent : ∀ p, (s.schedulers p).sent = []
  outside : ∀ p, w.numPartitions ≤ p → (s.schedulers p).dispatched = []
  valid : ∀ e ∈ s.network, e.Valid w
  held : ∀ p < w.numPartitions, ∀ q x, (s.schedulers p).held q x ≠ 0 → q < w.numPartitions
  tokens : ∀ q < w.numPartitions, ∀ x, s.tokens w q x ≤ credit w q (s.schedulers q) q x
  taken : ∀ p, ∀ id ∈ s.taken p, id ∈ (s.schedulers p).dispatched.map Prod.snd
  finished : ∀ p, s.finished p ⊆ s.taken p

/-! ## What an event does -/

/-- What the events do to the cluster: for each one that is enabled, how the scheduler of its
partition gets from its state to the next one. -/
inductive Change (w : Workload) (s : Cluster) : ClusterEvent → Cluster → Prop where
  | commit {p : PartitionId} {id : TxnId} {s₁ scheduler : Scheduler} (hp : p < w.numPartitions)
      (hid : p ∈ w.participants id) (hgraph : id ∉ (s.schedulers p).graph)
      (hdone : ¬ (s.schedulers p).Done id)
      (hsame : SameButInquiries ((s.schedulers p).withVertex w p id) s₁)
      (hmoves : ReflTransGen (Move w p) s₁ scheduler) (hwf : Wf w p (id :: s.committed p) s₁)
      (hwaits : Waits w scheduler [] [] none)
      (heffects : Effects w p (fun _ _ => 0) (s.schedulers p) scheduler) :
      Change w s (.commit p id) { s.setScheduler p scheduler with
        committed := update s.committed p (id :: s.committed p) }
  | inquire {i : ℕ} {sender receiver : PartitionId} {ids : List TxnId}
      (hi : s.network[i]? = some (.inquire sender receiver ids))
      (hsender : sender < w.numPartitions) (hreceiver : receiver < w.numPartitions) :
      Change w s (.deliver i) (({ s with network := s.network.eraseIdx i } : Cluster).setScheduler
        receiver ((s.schedulers receiver).processInquiry sender ids))
  | answer {i : ℕ} {receiver : PartitionId} {results : List InquiryResult} {scheduler : Scheduler}
      (hi : s.network[i]? = some (.answer receiver results))
      (hreceiver : receiver < w.numPartitions)
      (hlearns : Learns w receiver results (s.schedulers receiver) scheduler)
      (hwf : Wf w receiver (s.committed receiver) scheduler)
      (hwaits : Waits w scheduler [] [] none)
      (heffects : Effects w receiver
        (fun q x => if q = receiver then (results.map InquiryResult.id).count x else 0)
        (s.schedulers receiver) scheduler) :
      Change w s (.deliver i) (({ s with network := s.network.eraseIdx i } : Cluster).setScheduler
        receiver scheduler)
  | take {p : PartitionId} {worker : ℕ} {id : TxnId} (hid : s.next w p worker = some id) :
      Change w s (.take p worker) { s with taken := update s.taken p (id :: s.taken p) }
  | finish {p : PartitionId} {id : TxnId} (hid : id ∈ s.taken p) (hnot : id ∉ s.finished p)
      (hall : ∀ q ∈ w.participants id, id ∈ s.taken q) :
      Change w s (.finish p id)
        { s with finished := update s.finished p (id :: s.finished p) }
  | complete {p : PartitionId} {id : TxnId} (hp : p < w.numPartitions) (hid : id ∈ s.finished p)
      (hnot : id ∉ s.completed p) (hdone : (s.schedulers p).Done id)
      (hlocal : p ∈ w.participants id) :
      Change w s (.complete p id) { s.setScheduler p ((s.schedulers p).onCustomSocket id) with
        completed := update s.completed p (id :: s.completed p) }

/-- An answer in the network is about transactions that are awaited, each of them once. -/
theorem Inv.awaited (h : Inv w s) {receiver : PartitionId} {results : List InquiryResult}
    (hmem : .answer receiver results ∈ s.network) :
    (results.map InquiryResult.id).Nodup ∧
      ∀ x ∈ results.map InquiryResult.id, (s.schedulers receiver).Awaits w receiver x := by
  obtain ⟨hreceiver, -⟩ := h.valid _ hmem
  have hle (x : TxnId) : (results.map InquiryResult.id).count x ≤
      credit w receiver (s.schedulers receiver) receiver x := by
    refine le_trans ?_ (h.tokens receiver hreceiver x)
    have htoken : Envelope.tokens receiver x (.answer receiver results) ∈
        s.network.map (Envelope.tokens receiver x) := mem_map_of_mem hmem
    have hsum := le_sum_of_mem htoken
    rw [Envelope.tokens, if_pos rfl] at hsum
    exact hsum.trans (Nat.le_add_right _ _)
  refine ⟨nodup_iff_count_le_one.mpr fun x => (hle x).trans ?_, fun x hx => ?_⟩
  · unfold credit
    split_ifs <;> simp
  · by_contra hnot
    have hzero : credit w receiver (s.schedulers receiver) receiver x = 0 :=
      if_neg fun hcredit => hnot hcredit.2
    have hpos := count_pos_iff.mpr hx
    have := hle x
    omega

theorem Inv.commit_isSome (h : Inv w s) (hid : p ∈ w.participants id) (hnew : id ∉ s.committed p) :
    ∃ s', step w s (.commit p id) = some s' ∧ Change w s (.commit p id) s' := by
  have hp := w.participants_lt id p hid
  obtain ⟨s₁, scheduler, hprocess, hsame, hmoves, hgraph, hdone, hwf, hwaits, heffects⟩ :=
    Scheduler.processTransaction_spec hp (h.wf p hp) (h.waits p hp) (h.held p hp) hid hnew
  refine ⟨_, ?_, .commit hp hid hgraph hdone hsame hmoves hwf hwaits heffects⟩
  rw [step, if_pos ⟨hid, hnew⟩, hprocess]
  rfl

variable {i : ℕ} {e : ClusterEvent} {scheduler : Scheduler}

theorem Inv.deliver_isSome (h : Inv w s) {e : Envelope} (hi : s.network[i]? = some e) :
    ∃ s', step w s (.deliver i) = some s' ∧ Change w s (.deliver i) s' := by
  have hmem : e ∈ s.network := mem_of_getElem? hi
  simp only [step, hi, bind_some]
  cases e with
  | inquire sender receiver ids =>
    obtain ⟨hsender, hreceiver⟩ := h.valid _ hmem
    exact ⟨_, rfl, .inquire hi hsender hreceiver⟩
  | answer receiver results =>
    obtain ⟨hreceiver, hvalid⟩ := h.valid _ hmem
    obtain ⟨hnodup, hawaited⟩ := h.awaited hmem
    obtain ⟨scheduler, hresponse, hlearns, hwf, hwaits, heffects⟩ :=
      Scheduler.onInternalResponseReceived_spec hreceiver (h.wf receiver hreceiver)
        (h.waits receiver hreceiver) hnodup hawaited hvalid
    refine ⟨_, ?_, .answer hi hreceiver hlearns hwf hwaits heffects⟩
    simp only [handle]
    rw [hresponse]
    rfl

theorem Inv.change (h : Inv w s) (hstep : step w s e = some s') : Change w s e s' := by
  cases e with
  | commit p id =>
    by_cases hguard : p ∈ w.participants id ∧ id ∉ s.committed p
    · obtain ⟨s'', hs'', hchange⟩ := h.commit_isSome hguard.1 hguard.2
      exact some_inj.mp (hs''.symm.trans hstep) ▸ hchange
    · rw [step, if_neg hguard] at hstep
      exact absurd hstep (by simp)
  | deliver i =>
    cases hi : s.network[i]? with
    | none => simp [step, hi] at hstep
    | some e =>
      obtain ⟨s'', hs'', hchange⟩ := h.deliver_isSome hi
      exact some_inj.mp (hs''.symm.trans hstep) ▸ hchange
  | take p worker =>
    obtain ⟨id, hid, rfl⟩ := map_eq_some_iff.mp hstep
    exact .take hid
  | finish p id =>
    rw [step] at hstep
    split_ifs at hstep with hguard
    cases hstep
    exact .finish hguard.1 hguard.2.1 hguard.2.2
  | complete p id =>
    rw [step] at hstep
    split_ifs at hstep with hguard
    cases hstep
    have hdispatched := h.taken p id (h.finished p hguard.1)
    have hp : p < w.numPartitions := by
      by_contra hp
      rw [h.outside p (not_lt.mp hp)] at hdispatched
      cases hdispatched
    obtain ⟨hlocal, hdone⟩ := ((h.wf p hp).dispatched id).mp hdispatched
    exact .complete hp hguard.1 hguard.2 hdone hlocal

/-! ## What every event keeps -/

theorem sum_network {e : Envelope} (hi : s.network[i]? = some e) (f : Envelope → ℕ) :
    (s.network.map f).sum = ((s.network.eraseIdx i).map f).sum + f e := by
  obtain ⟨hlt, hget⟩ := List.getElem?_eq_some_iff.mp hi
  rw [← ((getElem_cons_eraseIdx_perm hlt).map f).sum_eq, hget, map_cons, sum_cons,
    add_comm]

/-- A scheduler has handled something that accounts for the questions taken from the network. -/
theorem Inv.setScheduler (h : Inv w s) (hp : p < w.numPartitions) {network : List Envelope}
    {committed : PartitionId → List TxnId} {consumed : PartitionId → TxnId → ℕ}
    (completed : PartitionId → List TxnId)
    (hnetwork : ∀ q x, (s.network.map (Envelope.tokens q x)).sum =
      (network.map (Envelope.tokens q x)).sum + consumed q x) (hsub : ∀ e ∈ network, e ∈ s.network)
    (hcommitted : ∀ q ≠ p, committed q = s.committed q) (hwf : Wf w p (committed p) scheduler)
    (hwaits : Waits w scheduler [] [] none) (heffects : Effects w p consumed (s.schedulers p) scheduler) :
    Inv w { ({ s with network } : Cluster).setScheduler p scheduler with
      committed, completed } := by
  have hself : update s.schedulers p { scheduler with sent := [] } p =
      { scheduler with sent := [] } := update_self ..
  have hother {q : PartitionId} (hq : q ≠ p) :
      update s.schedulers p { scheduler with sent := [] } q = s.schedulers q :=
    update_of_ne hq _ _
  have hflush : SameButInquiries scheduler { scheduler with sent := [] } := rfl
  have hsent₀ : ∀ e ∈ (s.schedulers p).sent, e.Valid w := by simp [h.sent p]
  have hheld := heffects.held (h.held p hp)
  refine ⟨fun q hq => ?_, fun q hq => ?_, fun q => ?_, fun q hq => ?_, fun e he => ?_,
    fun q hq => ?_, fun q hq x => ?_, fun q id hid => ?_, h.finished⟩
  · rcases eq_or_ne q p with rfl | hqp
    · exact (congrArg (Wf w q (committed q)) hself).mpr (hwf.inquiries hflush)
    · exact (congrArg₂ (Wf w q) (hcommitted q hqp) (hother hqp)).mpr (h.wf q hq)
  · rcases eq_or_ne q p with rfl | hqp
    · exact (congrArg (fun t => Waits w t [] [] none) hself).mpr (hwaits.inquiries hflush)
    · exact (congrArg (fun t => Waits w t [] [] none) (hother hqp)).mpr (h.waits q hq)
  · rcases eq_or_ne q p with rfl | hqp
    · exact congrArg Scheduler.sent hself
    · exact (congrArg Scheduler.sent (hother hqp)).trans (h.sent q)
  · have hqp : q ≠ p := by
      rintro rfl
      exact absurd hp (not_lt.mpr hq)
    exact (congrArg Scheduler.dispatched (hother hqp)).trans (h.outside q hq)
  · rcases mem_append.mp he with he | he
    · exact h.valid e (hsub e he)
    · exact heffects.valid hsent₀ e he
  · rcases eq_or_ne q p with rfl | hqp
    · exact (congrArg (fun t : Scheduler => ∀ r x, t.held r x ≠ 0 → r < w.numPartitions)
        hself).mpr hheld
    · exact (congrArg (fun t : Scheduler => ∀ r x, t.held r x ≠ 0 → r < w.numPartitions)
        (hother hqp)).mpr (h.held q hq)
  · -- all questions of `q`, with the changes at `p`
    have hbound := h.tokens q hq x
    have haccounts := heffects.accounts q x
    have hmem : p ∈ Finset.range w.numPartitions := Finset.mem_range.mpr hp
    have hrest : ∑ t ∈ (Finset.range w.numPartitions).erase p,
        (update s.schedulers p { scheduler with sent := [] } t).held q x =
        ∑ t ∈ (Finset.range w.numPartitions).erase p, (s.schedulers t).held q x :=
      Finset.sum_congr rfl fun t ht => by rw [hother (Finset.ne_of_mem_erase ht)]
    have hnow : Cluster.tokens w { ({ s with network } : Cluster).setScheduler p scheduler with
        committed, completed } q x = (network.map (Envelope.tokens q x)).sum +
        scheduler.tokens q x +
        ∑ t ∈ (Finset.range w.numPartitions).erase p, (s.schedulers t).held q x := by
      have hheld : ({ scheduler with sent := [] } : Scheduler).held q x = scheduler.held q x := rfl
      rw [Cluster.tokens, ← Finset.add_sum_erase _ _ hmem]
      simp only [Cluster.setScheduler, hself, hrest, hheld, map_append, sum_append,
        Scheduler.tokens]
      ring
    have hbefore : Cluster.tokens w s q x = (network.map (Envelope.tokens q x)).sum +
        consumed q x + (s.schedulers p).tokens q x +
        ∑ t ∈ (Finset.range w.numPartitions).erase p, (s.schedulers t).held q x := by
      have hflushed : (s.schedulers p).tokens q x = (s.schedulers p).held q x := by
        simp [Scheduler.tokens, h.sent p]
      rw [Cluster.tokens, ← Finset.add_sum_erase _ _ hmem, hnetwork, hflushed]
      ring
    rw [hnow]
    rcases eq_or_ne q p with rfl | hqp
    · show _ ≤ credit w q (update s.schedulers q { scheduler with sent := [] } q) q x
      rw [hself, hflush.credit_eq]
      omega
    · show _ ≤ credit w q (update s.schedulers p { scheduler with sent := [] } q) q x
      rw [hother hqp]
      have hzero (t : Scheduler) : credit w p t q x = 0 := if_neg fun hc => hqp hc.1
      rw [hzero, hzero] at haccounts
      omega
  · rcases eq_or_ne q p with rfl | hqp
    · show id ∈ (update s.schedulers q { scheduler with sent := [] } q).dispatched.map
        Prod.snd
      rw [hself]
      obtain ⟨hlocal, hdone⟩ := ((h.wf q hp).dispatched id).mp (h.taken q id hid)
      exact (hwf.dispatched id).mpr ⟨hlocal, heffects.done id hdone⟩
    · show id ∈ (update s.schedulers p { scheduler with sent := [] } q).dispatched.map
        Prod.snd
      rw [hother hqp]
      exact h.taken q id hid

theorem Inv.of_change (h : Inv w s) (hchange : Change w s e s') : Inv w s' := by
  cases hchange with
  | @commit p id s₁ scheduler hp hid hgraph hdone hsame hmoves hwf hwaits heffects =>
    refine h.setScheduler hp s.completed (fun q x => rfl) (fun e he => he)
      (fun q hq => update_of_ne hq _ _) ?_ hwaits heffects
    rw [update_self]
    exact hwf.of_moves hmoves
  | @inquire i sender receiver ids hi hsender hreceiver =>
    obtain ⟨hsame, hvalid, hheld, htokens⟩ := Scheduler.processInquiry_spec
      (h.wf receiver hreceiver) hsender ids
    refine h.setScheduler hreceiver s.completed (fun q x => sum_network hi _)
      (fun e he => mem_of_mem_eraseIdx he) (fun q _ => rfl)
      ((h.wf receiver hreceiver).inquiries hsame) ((h.waits receiver hreceiver).inquiries hsame)
      (.of_same hsame htokens hvalid fun hs q x hq => ?_)
    by_cases hqs : sender = q
    · exact hqs ▸ hsender
    · exact hs q x (hheld q x hqs ▸ hq)
  | @answer i receiver results scheduler hi hreceiver hlearns hwf hwaits heffects =>
    refine h.setScheduler hreceiver s.completed (fun q x => ?_)
      (fun e he => mem_of_mem_eraseIdx he) (fun q _ => rfl) hwf hwaits heffects
    rw [sum_network hi, Envelope.tokens]
    simp only [eq_comm]
  | @take p worker id hid =>
    have hqueue : id ∈ (s.schedulers p).dispatched.map Prod.snd := by
      rw [next] at hid
      split_ifs at hid
      obtain ⟨m, hm, rfl⟩ := mem_map.mp (mem_of_find?_eq_some hid)
      exact mem_map_of_mem (mem_filter.mp hm).1
    have htaken (q : PartitionId) (x : TxnId) :
        x ∈ update s.taken p (id :: s.taken p) q ↔ q = p ∧ x = id ∨ x ∈ s.taken q := by
      rcases eq_or_ne q p with rfl | hq
      · rw [update_self, mem_cons]
        simp
      · rw [update_of_ne hq]
        simp [hq]
    refine { h with
      taken := fun q x hx => ?_
      finished := fun q x hx => (htaken q x).mpr (.inr (h.finished q hx)) }
    rcases (htaken q x).mp hx with ⟨rfl, rfl⟩ | hx
    · exact hqueue
    · exact h.taken q x hx
  | @finish p id hid hnot hall =>
    refine { h with finished := fun q => ?_ }
    show update s.finished p (id :: s.finished p) q ⊆ s.taken q
    rcases eq_or_ne q p with rfl | hq
    · rw [update_self]
      exact cons_subset.mpr ⟨hid, h.finished q⟩
    · rw [update_of_ne hq]
      exact h.finished q
  | @complete p id hp hid hnot hdone hlocal =>
    have hwf := h.wf p hp
    have hcommitted : id ∈ s.committed p := by
      refine hwf.known id hlocal ?_
      rcases hdone with hdone | hdone
      · exact .inr hdone
      · exact .inl (Rounds.mem_of_disc_ne_zero hdone)
    exact h.setScheduler hp (update s.completed p (id :: s.completed p))
      (fun q x => rfl) (fun e he => he) (fun q _ => rfl)
      (hwf.onCustomSocket hdone fun _ => hcommitted) ((h.waits p hp).onCustomSocket hdone)
      (Scheduler.onCustomSocket_effects hdone)

theorem inv_start (w : Workload) : Inv w {} := by
  have hcontains {x : TxnId} : TxnHorizon.contains ∅ x = decide (TxnHorizon.getCounter x = 0) := by
    simp [TxnHorizon.contains, TxnHorizon.of, Horizon.contains]
  have hnone (x : TxnId) : x ∉ (∅ : Graph) := AList.notMem_empty x
  have hdisc (x : TxnId) : Graph.disc ∅ x = 0 := rfl
  have hindex (x d : TxnId) : ¬ Registered ∅ x d := by
    rintro ⟨waiting, hd, -⟩
    simp at hd
  have hblocked (x : TxnId) : ¬ ({} : Scheduler).Blocked x := fun hx => hnone x hx.mem
  have hlocal {p : PartitionId} {x : TxnId} (hp : p ∈ w.participants x) :
      TxnHorizon.contains ∅ x = false := by
    have := w.counter_pos x (ne_nil_of_mem hp)
    rw [hcontains]
    simp
    omega
  refine ⟨fun p hp => ⟨fun x vertex hx => ?_, fun x vertex hx => ?_, fun x hx => ?_,
    fun x hx => absurd hx (hblocked x), fun x hpx hx => ?_, fun x => ?_,
    fun x hx => absurd hx (hnone x)⟩, fun p hp => ⟨by simp, fun d hd => ?_, fun d waiting hd => ?_, fun x d hxd => ?_,
      fun x d hxd => absurd hxd (hindex x d), fun x hx => absurd hx (hblocked x),
      fun x hx => absurd hx (hblocked x), fun x hx => absurd hx (hblocked x),
      ⟨fun _ => 0, 1, fun x hx => absurd hx (hnone x), fun x d hxd => absurd hxd (hindex x d)⟩⟩,
    fun p => rfl, fun p _ => rfl, by simp, fun p _ q x hq => ?_, fun q _ x => ?_, by simp,
    fun p => Subset.refl _⟩
  · simp at hx
  · simp at hx
  · exact absurd hx (hnone x)
  · rcases hx with hx | hx
    · exact absurd hx (hnone x)
    · rw [hlocal hpx] at hx
      exact absurd hx (by simp)
  · refine ⟨fun hx => absurd hx (by simp), ?_⟩
    rintro ⟨hpx, hx | hx⟩
    · rw [hlocal hpx] at hx
      exact absurd hx (by simp)
    · exact absurd (hdisc x) hx
  · exact absurd hd (AList.notMem_empty d)
  · simp at hd
  · exact absurd hxd (hindex x d)
  · simp [Scheduler.held] at hq
  · simp [tokens, Scheduler.held]

/-- **The schedulers keep their invariants in every run.** -/
theorem inv_of_reachable (h : Lts.Reachable (step w) {} s) : Inv w s :=
  Lts.invariant (step w) (inv_start w) (fun _ _ _ hs hstep => hs.of_change (hs.change hstep)) h

/-! ## Nobody is stuck -/

/-- What the scheduler of a partition owes to the vertices of its graph: one whose transitive
dependencies are all known has been dispatched; one that has not been dispatched is filed under a
transitive dependency that has not been dispatched either, and counts under how many it is filed. -/
structure NoneStuck (w : Workload) (s : Scheduler) : Prop where
  dispatched : ∀ x ∈ s.graph, (∀ y, w.Reaches x y → y ∈ s.graph ∨ s.horizon.contains y = true) →
    x ∈ s.dispatched.map Prod.snd
  filed : ∀ x ∈ s.graph, x ∉ s.dispatched.map Prod.snd →
    ∃ d, Registered s.pendingTxns x d ∧ TransGen w.DependsOn x d ∧
      d ∉ s.dispatched.map Prod.snd ∧ s.horizon.contains d = false
  count : ∀ x ∈ s.graph, x ∉ s.dispatched.map Prod.snd →
    s.counter x = numRegistered s.pendingTxns x

theorem noneStuck_of_waits {committed : List TxnId} (hwf : Wf w p committed scheduler)
    (h : Waits w scheduler [] [] none) : NoneStuck w scheduler := by
  have hblocked {x : TxnId} (hx : x ∈ scheduler.graph)
      (hnot : x ∉ scheduler.dispatched.map Prod.snd) : scheduler.Blocked x :=
    Scheduler.blocked_iff.mpr ⟨hx, fun hdone =>
      hnot ((hwf.dispatched x).mpr ⟨hwf.kept x hx hdone, hdone⟩)⟩
  have hundone (x d : TxnId) (hxd : Registered scheduler.pendingTxns x d) :
      ¬ scheduler.Done d := fun hdone => by
    obtain ⟨waiting, hd, -⟩ := hxd
    exact absurd (h.keys d (AssocMap.mem_iff_lookup.mpr ⟨waiting, hd⟩) hdone) not_mem_nil
  obtain ⟨rank, bound, hbound, hrank⟩ := h.rank
  refine ⟨fun x hx hknown => ?_, fun x hx hnot => ?_, fun x hx hnot => ?_⟩
  · by_contra hnot
    -- following the registrations one comes to an unknown transaction
    obtain ⟨m, hreach, hm, hmd⟩ := Waiting.exists_missing (fun y hy => hbound y hy.mem)
      (fun y hy => h.filed y hy (by simp) not_mem_nil) hundone
      (fun y d hyd => (h.reach y d hyd).to_reflTransGen)
      (fun y d hy hd hyd => hrank y d hyd hy.mem hd.mem) (hblocked hx hnot)
    rcases hknown m hreach with hmem | hexec
    · exact hm (Scheduler.blocked_iff.mpr ⟨hmem, hmd⟩)
    · exact hmd (.inl hexec)
  · obtain ⟨d, hd⟩ := h.filed x (hblocked hx hnot) (by simp) not_mem_nil
    have hdone := hundone x d hd
    exact ⟨d, hd, h.reach x d hd, fun hdisp => hdone ((hwf.dispatched d).mp hdisp).2,
      Bool.eq_false_iff.mpr fun hexec => hdone (.inl hexec)⟩
  · simpa using h.count x (hblocked hx hnot) (by simp)

/-- **No transaction is stuck**, at any partition and in any run; and every commit and every message
is handled to its end. -/
theorem noneStuck_of_reachable (h : Lts.Reachable (step w) {} s) :
    (∀ p < w.numPartitions, NoneStuck w (s.schedulers p)) ∧
      (∀ p id, p ∈ w.participants id → id ∉ s.committed p →
        (step w s (.commit p id)).isSome = true) ∧
      ∀ i < s.network.length, (step w s (.deliver i)).isSome = true := by
  have hinv := inv_of_reachable h
  refine ⟨fun p hp => noneStuck_of_waits (hinv.wf p hp) (hinv.waits p hp), fun p id hid hnew => ?_,
    fun i hi => ?_⟩
  · obtain ⟨s', hs', -⟩ := hinv.commit_isSome hid hnew
    rw [hs']
    rfl
  · obtain ⟨s', hs', -⟩ := hinv.deliver_isSome (List.getElem?_eq_getElem hi)
    rw [hs']
    rfl

end Cluster

namespace Workload

/-- All transactions take part at all of `n` partitions; `ds` gives their dependencies. -/
def everywhere (n numWorkers : ℕ) (hn : 0 < n) (hle : n ≤ 31) (hworkers : 0 < numWorkers)
    (ds : TxnId → List TxnId) : Workload where
  numPartitions := n
  numWorkers := numWorkers
  participants := fun id => if TxnHorizon.getCounter id = 0 then [] else List.range n
  deps := fun id => ((ds id).filter fun d => TxnHorizon.getCounter d ≠ 0).map fun d =>
    { txnId := d, participantsBitmap := 2 ^ n - 1, targetPartition := 0 }
  order := fun _ _ l => l
  numPartitions_le := hle
  numWorkers_pos := hworkers
  participants_lt := by
    intro id p hp
    split_ifs at hp
    · exact absurd hp not_mem_nil
    · exact mem_range.mp hp
  counter_pos := by
    intro id hne
    by_contra hzero
    exact hne (if_pos (Nat.eq_zero_of_not_pos hzero))
  bitmap := by
    intro id dep hdep p hp
    obtain ⟨d, hd, rfl⟩ := mem_map.mp hdep
    have hd : TxnHorizon.getCounter d ≠ 0 := by simpa using (mem_filter.mp hd).2
    simp [hd, Nat.testBit_two_pow_sub_one, hp]
  target := by
    intro id dep hdep
    obtain ⟨d, hd, rfl⟩ := mem_map.mp hdep
    have hd : TxnHorizon.getCounter d ≠ 0 := by simpa using (mem_filter.mp hd).2
    simpa [hd] using hn
  order_perm := fun _ _ l => .refl l

end Workload

namespace Cluster

open Scheduler (Registered)
open Rounds (txn)

/-- Each of three transactions depends on the next one. -/
def chain : Workload :=
  .everywhere 1 1 Nat.one_pos (by decide) Nat.one_pos fun id =>
    if id = txn 1 then [txn 2] else if id = txn 2 then [txn 3] else []

/-- The middle one of a chain of three has arrived after the first: the first is filed under it alone,
and not under the missing one. -/
theorem not_filed_under_missing :
    ∃ (w : Workload) (s : Cluster) (p : PartitionId) (x : TxnId),
      Lts.Reachable (step w) {} s ∧ p < w.numPartitions ∧ x ∈ (s.schedulers p).graph ∧
      x ∉ (s.schedulers p).dispatched.map Prod.snd ∧
      ∀ d, Registered (s.schedulers p).pendingTxns x d → d ∈ (s.schedulers p).graph := by
  obtain ⟨s, hs, h1, h2, hdispatched, hentries⟩ : ∃ s ∈ Lts.run (step chain) {}
      [.commit 0 (txn 1), .commit 0 (txn 2)], txn 1 ∈ (s.schedulers 0).graph ∧
        txn 2 ∈ (s.schedulers 0).graph ∧ (s.schedulers 0).dispatched = [] ∧
        (s.schedulers 0).pendingTxns.entries.map (fun e => (e.1, e.2)) =
          [(txn 3, [txn 2]), (txn 2, [txn 1])] := by
    decide +kernel
  refine ⟨chain, s, 0, txn 1, ⟨_, hs⟩, by decide, h1, by simp [hdispatched], ?_⟩
  rintro d ⟨waiting, hd, hmem⟩
  have hentry : (d, waiting) ∈ (s.schedulers 0).pendingTxns.entries.map fun e => (e.1, e.2) :=
    mem_map.mpr ⟨⟨d, waiting⟩, AList.mem_lookup_iff.mp hd, rfl⟩
  rw [hentries] at hentry
  rcases mem_cons.mp hentry with heq | hentry
  · cases heq
    exact absurd hmem (by decide)
  · cases mem_singleton.mp hentry
    exact h2

/-- When the last one has arrived, all three have been dispatched. -/
theorem noneStuck_chain :
    ∃ s, Lts.Reachable (step chain) {} s ∧
      (s.schedulers 0).dispatched.map Prod.snd = [txn 3, txn 2, txn 1] ∧
      NoneStuck chain (s.schedulers 0) := by
  obtain ⟨s, hs, hdispatched⟩ : ∃ s ∈ Lts.run (step chain) {} [.commit 0 (txn 1),
      .commit 0 (txn 2), .commit 0 (txn 3)],
      (s.schedulers 0).dispatched.map Prod.snd = [txn 3, txn 2, txn 1] := by
    decide +kernel
  exact ⟨s, ⟨_, hs⟩, hdispatched, (noneStuck_of_reachable ⟨_, hs⟩).1 0 (by decide)⟩

end Cluster

end Janus
