/-
# What the machines emit

The batches that a machine emits for a region are those of the first slots of the region, with the
data of its own partition: all machines emit prefixes of one sequence.  A machine of the home
region counts the acknowledgements of a batch before it emits it.  Another region acknowledges the
order of a batch, which may reach it before the data.
-/
import Penteract.LogDissemination

namespace Slog

open List

/-- The batch in a slot of a region, as a partition gets it: the slot belongs to a machine, and the
number of earlier slots of this machine is the position of the batch. -/
def LogInput.slotBatch {cfg : Configuration} (I : LogInput cfg) (home : RegionId)
    (p : PartitionId) (slot : SlotId) : Batch :=
  { id := batchId (I.order home slot) (rank (I.order home) (I.order home slot) slot + 1),
    transactions :=
      I.content (I.order home slot) (rank (I.order home) (I.order home slot) slot) p }

/-- What a machine has emitted for a region. -/
def LogState.emitted (s : LogState) (m : MachineId) (home : RegionId) : List (SlotId × Batch) :=
  ((s.nodes m).singleHomeLogs home).history.emitted

namespace LogRun

variable {cfg : Configuration} {I : LogInput cfg} {s s' : LogRun} {m : MachineId}

/-! ## One sequence of batches -/

/-- The slots that are emitted are the first ones. -/
theorem emitted_slots {bl : BatchLog} {H : BatchHistory} (h : bl.Inv H) :
    H.emitted.map Prod.fst = List.range H.emitted.length := by
  have hprefix : H.emitted.map Prod.fst <+: List.range bl.slots.next := by
    rw [← h.order, BatchLog.ordered, map_append, map_map]
    exact prefix_append _ _
  have htake := prefix_iff_eq_take.mp hprefix
  rw [length_map, take_range] at htake
  have hle : H.emitted.length ≤ bl.slots.next := by
    have := h.length_ordered
    omega
  rw [htake, min_eq_left hle]

variable {home : RegionId}

/-- A batch is known by its number. -/
theorem Inv.data_eq (h : Inv I s) (hm : cfg.IsMachine m) (hhome : home < cfg.numRegions) {b : Batch}
    {slot : SlotId} (hb : b ∈ ((s.state.nodes m).singleHomeLogs home).history.data)
    (hid : b.id = I.batchId home slot) : b = I.slotBatch home m.partition slot := by
  rw [((h.machines m hm).logs home).data] at hb
  obtain ⟨env, henv, hbatch⟩ := mem_filterMap.mp hb
  obtain ⟨hreceived, hrec⟩ := mem_filter.mp henv
  obtain rfl : env.receiver = m := of_decide_eq_true hrec
  have hvalid := h.received env hreceived
  rw [LogEnvelope.homeBatch] at hbatch
  split at hbatch
  · next f hf =>
      split_ifs at hbatch
      rw [hvalid.myBatch hf] at hbatch
      cases hbatch
      rw [RegionOrders.batchId, slotBatchId] at hid
      obtain ⟨hg, hpos⟩ := batchId_inj (hvalid.data f hf).1.fits
        (I.isMachine home hhome slot).fits hid
      rw [LogInput.slotBatch, ← Nat.succ.inj hpos, ← hg]
  · cases hbatch

/-- The number of a batch that was emitted is that of its slot. -/
theorem Inv.emitted_id (h : Inv I s) (hm : cfg.IsMachine m) {e : SlotId × Batch}
    (he : e ∈ s.state.emitted m home) : e.2.id = I.batchId home e.1 := by
  have hlog := (h.machines m hm).logs home
  have hord : (e.1, e.2.id) ∈ ((s.state.nodes m).singleHomeLogs home).log.ordered
      ((s.state.nodes m).singleHomeLogs home).history :=
    mem_append_left _ (mem_map.mpr ⟨e, he, rfl⟩)
  obtain ⟨k, hk⟩ := hlog.inv.known _ hord
  rw [hlog.slots, LogManager.knownSlots] at hk
  split_ifs at hk with hown
  · simp only [mem_map, Prod.mk.injEq] at hk
    obtain ⟨slot, -, rfl, hid, -⟩ := hk
    rw [hown, hid]
  · simp only [mem_map, Prod.mk.injEq] at hk
    obtain ⟨slot, -, rfl, hid, -⟩ := hk
    rw [hid]

/-- **All machines emit one sequence.**  In every run, what a machine of any region has emitted for
a region are the batches of its first slots, and the `k`-th slot that is given to a machine carries
the `k`-th batch of this machine. -/
theorem emitted_eq_of_run (I : LogInput cfg) {events : List LogEvent} {s : LogRun}
    (h : Lts.run (LogRun.step I) init events = some s) {m : MachineId} (hm : cfg.IsMachine m)
    {home : RegionId} (hhome : home < cfg.numRegions) :
    ∃ n, s.state.emitted m home =
      (List.range n).map fun slot => (slot, I.slotBatch home m.partition slot) := by
  have hI := Inv.of_run h
  have hinv := ((hI.machines m hm).logs home).inv
  refine ⟨(s.state.emitted m home).length, ?_⟩
  have hslots : (s.state.emitted m home).map Prod.fst =
      List.range (s.state.emitted m home).length := emitted_slots hinv
  conv_rhs => rw [← hslots]
  rw [map_map]
  conv_lhs => rw [← map_id (s.state.emitted m home)]
  refine map_congr_left fun e he => ?_
  have hbatch := hI.data_eq hm hhome (hinv.emitted e he) (hI.emitted_id hm he)
  rw [Function.comp_apply, ← hbatch]
  rfl

/-- A machine of the home region and one of another region emit the first batch. -/
theorem emitted_twoByTwo : ∃ s, Lts.run (LogRun.step twoByTwoInput) init
      ([.batch ⟨0, 1, 1⟩ 0, .decide 0 0] ++ List.replicate 20 (.deliver 0)) = some s ∧
    (s.state.emitted ⟨1, 1, 0⟩ 0).length = 1 ∧
    (∃ n, s.state.emitted ⟨1, 1, 0⟩ 0 =
      (List.range n).map fun slot => (slot, twoByTwoInput.slotBatch 0 0 slot)) ∧
    ∃ n, s.state.emitted ⟨0, 0, 1⟩ 0 =
      (List.range n).map fun slot => (slot, twoByTwoInput.slotBatch 0 1 slot) := by
  refine Lts.exists_run (p := fun s => (s.state.emitted ⟨1, 1, 0⟩ 0).length = 1)
    (by decide +kernel) ?_
  exact fun s hs hlen => ⟨hlen,
    emitted_eq_of_run twoByTwoInput hs ⟨by decide, by decide, by decide⟩ (by decide),
    emitted_eq_of_run twoByTwoInput hs ⟨by decide, by decide, by decide⟩ (by decide)⟩

/-! ## Replication -/

end LogRun

/-- The number of the batch whose data a message carries. -/
def LogEnvelope.dataId (env : LogEnvelope) : Option BatchId :=
  match env.message with
  | .data f => some (batchId f.generator (f.position + 1))
  | _ => none

/-- The number of the batch that a message asks a region to acknowledge. -/
def LogEnvelope.asksAck (env : LogEnvelope) : Option BatchId :=
  match env.message with
  | .remoteOrder _ id _ needAck => if env.firstTimeRegion && needAck then some id else none
  | _ => none

/-- Some machine of the region has received the data of the batch. -/
def LogState.HoldsData (s : LogState) (reg : RegionId) (id : BatchId) : Prop :=
  ∃ env ∈ s.received, env.receiver.region = reg ∧ env.dataId = some id

instance (s : LogState) (reg : RegionId) (id : BatchId) : Decidable (s.HoldsData reg id) :=
  inferInstanceAs (Decidable (∃ env ∈ s.received, _))

/-- The other regions that hold the data of a batch of a region. -/
def LogState.holders (cfg : Configuration) (s : LogState) (home : RegionId) (id : BatchId) :
    List RegionId :=
  (List.range cfg.numRegions).filter fun reg => reg ≠ home ∧ s.HoldsData reg id

namespace LogRun

variable {cfg : Configuration} {I : LogInput cfg} {s s' : LogRun} {m : MachineId}

/-- Every batch that a machine of its home region has emitted is held by enough other regions. -/
def Replicated (cfg : Configuration) (s : LogRun) : Prop :=
  ∀ m, cfg.IsMachine m → ∀ e ∈ s.state.emitted m m.region,
    cfg.replicationFactor - 1 ≤ (s.state.holders cfg m.region e.2.id).length

/-- An order that asks for an acknowledgement is delivered to a region that holds the data of the
batch. -/
def OrdersFollowData (s : LogRun) : LogEvent → Prop
  | .deliver i => ∀ env ∈ s.inFlight[i]?, ∀ id ∈ env.asksAck,
      s.state.HoldsData env.receiver.region id
  | _ => True

instance (s : LogRun) : (e : LogEvent) → Decidable (OrdersFollowData s e)
  | .deliver i => inferInstanceAs (Decidable (∀ env ∈ s.inFlight[i]?, ∀ id ∈ env.asksAck, _))
  | .batch _ _ => inferInstanceAs (Decidable True)
  | .decide _ _ => inferInstanceAs (Decidable True)

/-- The regions that acknowledged a batch hold its data. -/
def AckersHold (s : LogRun) : Prop :=
  ∀ env ∈ s.state.received, ∀ reg id, env.acknowledges reg id →
    s.state.HoldsData env.receiver.region id

theorem AckersHold.step (h : AckersHold s) {e : LogEvent} (hC : OrdersFollowData s e)
    (hs : LogRun.step I s e = some s') : AckersHold s' := by
  cases e with
  | batch g k =>
    rw [LogRun.step] at hs
    split_ifs at hs
    cases hs
    exact h
  | decide reg slot =>
    rw [LogRun.step] at hs
    split_ifs at hs
    cases hs
    exact h
  | deliver i =>
    obtain ⟨env, rest, r, hget, -, hr, rfl⟩ := Network.deliver_eq_some hs
    obtain ⟨r', -, rfl⟩ := Option.map_eq_some_iff.mp hr
    have hmono : ∀ reg id, s.state.HoldsData reg id → LogState.HoldsData { s.state with
        nodes := Function.update s.state.nodes env.receiver r'.1,
        received := s.state.received ++ [env] } reg id := by
      rintro reg id ⟨e, he, hreg, hid⟩
      exact ⟨e, mem_append_left _ he, hreg, hid⟩
    intro e he reg id hack
    rcases mem_append.mp he with he | he
    · exact hmono _ _ (h e he reg id hack)
    · obtain rfl := mem_singleton.mp he
      obtain ⟨slot, hmsg, hfirst⟩ := acknowledges_iff.mp hack
      refine hmono _ _ (hC e hget id ?_)
      rw [LogEnvelope.asksAck, hmsg, hfirst]
      rfl

/-- A batch that was emitted in its home region has all acknowledgements. -/
theorem Inv.acks_of_emitted (h : Inv I s) (hm : cfg.IsMachine m) {e : SlotId × Batch}
    (he : e ∈ s.state.emitted m m.region) :
    s.state.timesReceived m (.ack e.2.id) = cfg.replicationFactor - 1 := by
  have hlog := (h.machines m hm).logs m.region
  have hlt : e.1 < ((s.state.nodes m).singleHomeLogs m.region).log.slots.next := by
    have hmem : e.1 ∈ List.range (s.state.emitted m m.region).length := by
      rw [LogState.emitted, ← emitted_slots hlog.inv]
      exact mem_map_of_mem he
    have hlen := hlog.inv.length_ordered
    have hle : (s.state.emitted m m.region).length ≤ _ := Nat.le.intro hlen
    exact lt_of_lt_of_le (mem_range.mp hmem) hle
  obtain ⟨id, k, hslot, -, hcount⟩ := hlog.inv.complete e.1 hlt
  rw [hlog.slots, LogManager.knownSlots, if_pos rfl] at hslot
  simp only [mem_map, Prod.mk.injEq] at hslot
  obtain ⟨slot, -, rfl, rfl, rfl⟩ := hslot
  rw [hlog.acks, if_pos rfl, LogState.count_ackId, ← h.emitted_id hm he] at hcount
  exact hcount

/-- **Enough regions hold a batch that is emitted**, if those that acknowledge it hold it. -/
theorem Inv.replicated (h : Inv I s) (hhold : AckersHold s) : Replicated cfg s := by
  intro m hm e he
  have hacks := h.acks_of_emitted hm he
  have hcount := h.counts m hm (.ack e.2.id)
  have hle : cfg.replicationFactor - 1 ≤
      (s.state.received.filter fun env => env.acknowledges m.region e.2.id).length := by
    rw [← hacks]
    exact (Nat.le_add_right _ _).trans hcount.le
  have hsub : ((s.state.received.filter fun env => env.acknowledges m.region e.2.id).map
      fun env => env.receiver.region) ⊆ s.state.holders cfg m.region e.2.id := by
    intro reg hreg
    obtain ⟨env, henv, rfl⟩ := mem_map.mp hreg
    obtain ⟨henv, hack⟩ := mem_filter.mp henv
    obtain ⟨-, -, hne, -⟩ := h.of_acknowledges henv hack
    refine mem_filter.mpr ⟨mem_range.mpr (h.received env henv).receiver.region, ?_⟩
    exact decide_eq_true ⟨Ne.symm hne, hhold env henv _ _ hack⟩
  have hlen := ((h.nodup_acknowledged m.region e.2.id).subperm hsub).length_le
  rw [length_map] at hlen
  exact hle.trans hlen

/-- **Replication.**  In every run in which orders that ask for an acknowledgement follow the data,
a batch that a machine of its home region emits is held by all but one of the regions that it is to
be replicated to. -/
theorem replicated_of_ordersFollowData (I : LogInput cfg) {events : List LogEvent} {s : LogRun}
    (hC : Lts.Meets (LogRun.step I) OrdersFollowData init events)
    (h : Lts.run (LogRun.step I) init events = some s) : Replicated cfg s := by
  have hboth : Inv I s ∧ AckersHold s := by
    refine Lts.invariant_meets (LogRun.step I) (P := fun s => Inv I s ∧ AckersHold s)
      ⟨Inv.init, by simp [AckersHold, init]⟩ ?_ hC h
    rintro t e t' - ⟨hI, hhold⟩ hCe hs
    exact ⟨hI.step hs, hhold.step hCe hs⟩
  exact hboth.1.replicated hboth.2

/-- Two regions of one machine, and batches that are replicated to both. -/
def pairOfRegions : Configuration where
  numRegions := 2
  numReplicas := fun _ => 1
  numPartitions := 1
  replicationFactor := 2
  replicationOrder := fun reg => [1 - reg]
  numPartitions_pos := Nat.one_pos
  numReplicas_pos := fun _ => Nat.one_pos
  replicationFactor_pos := Nat.two_pos
  numRegions_le := twoByTwo.numRegions_le
  numReplicas_le := fun _ => Nat.one_le_two_pow
  numPartitions_le := Nat.one_le_two_pow

def pairOfRegionsInput : LogInput pairOfRegions where
  order := fun reg _ => ⟨reg, 0, 0⟩
  isMachine := fun _ hreg _ => ⟨hreg, Nat.one_pos, Nat.one_pos⟩
  region := fun _ _ => rfl
  content := fun _ _ _ => []

/-- The data reaches the other region before the order. -/
theorem replicated_dataFirst : ∃ s, Lts.run (LogRun.step pairOfRegionsInput) init
      ([.batch ⟨0, 0, 0⟩ 0, .decide 0 0] ++ List.replicate 5 (.deliver 0)) = some s ∧
    (s.state.emitted ⟨0, 0, 0⟩ 0).length = 1 ∧ Replicated pairOfRegions s := by
  refine Lts.exists_run (p := fun s => (s.state.emitted ⟨0, 0, 0⟩ 0).length = 1)
    (by decide +kernel) fun s hs hlen => ⟨hlen, ?_⟩
  exact replicated_of_ordersFollowData pairOfRegionsInput (of_decide_eq_true (by decide +kernel)) hs

/-- **A region acknowledges an order before it has the data.**  The message with the data is the
second one in flight and stays there while the batch is ordered, acknowledged and emitted. -/
theorem not_replicated_orderFirst : ∃ s, Lts.run (LogRun.step pairOfRegionsInput) init
      [.batch ⟨0, 0, 0⟩ 0, .decide 0 0, .deliver 0, .deliver 1, .deliver 1, .deliver 1] = some s ∧
    (s.state.emitted ⟨0, 0, 0⟩ 0).length = 1 ∧ ¬ Replicated pairOfRegions s := by
  refine Lts.exists_run (p := fun s => (s.state.emitted ⟨0, 0, 0⟩ 0).length = 1 ∧
    ∃ e ∈ s.state.emitted ⟨0, 0, 0⟩ 0, (s.state.holders pairOfRegions 0 e.2.id).length = 0)
    (by decide +kernel) ?_
  rintro s - ⟨hlen, e, he, hzero⟩
  refine ⟨hlen, fun hrep => ?_⟩
  have hle := hrep ⟨0, 0, 0⟩ ⟨by decide, by decide, by decide⟩ e he
  rw [hzero] at hle
  exact absurd hle (by decide)

end LogRun

end Slog
