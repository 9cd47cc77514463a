/-
# How logs are disseminated

The messages of a run agree with what the machines generate and what Paxos decides, and what a
machine has received together with what the messages in flight will bring to it is what it is to
receive.  So every item reaches every machine exactly once, and a machine never handles a message
that it cannot handle.
-/
import Penteract.LogNetwork

namespace Slog

open List Option

namespace LogRun

variable {cfg : Configuration} (I : LogInput cfg) {g m : MachineId} {it : LogItem}

/-! ## Messages that agree with the input -/

/-- A message that agrees with the input: data comes with all partitions when it first reaches a
replica, and with the partition of its receiver otherwise, and an order that first reaches a region
comes from the leader of its home. -/
structure Valid (env : LogEnvelope) : Prop where
  receiver : cfg.IsMachine env.receiver
  data : ∀ f, env.message = .data f → cfg.IsMachine f.generator ∧ f.batchData =
    if env.firstTimeReplica then I.batchAt f.generator f.position
    else [{ id := batchId f.generator (f.position + 1),
            transactions := I.content f.generator f.position env.receiver.partition }]
  localOrder : ∀ slot g leader, env.message = .localOrder slot g leader →
    g = I.order env.receiver.region slot ∧ leader = leaderOf env.receiver.region
  remoteOrder : ∀ slot id home needAck, env.message = .remoteOrder slot id home needAck →
    home ≠ env.receiver.region ∧ home < cfg.numRegions ∧ id = I.batchId home slot ∧
    (env.firstTimeRegion → env.sender = leaderOf home ∧
      env.receiver = cfg.orderDestination (leaderOf home) env.receiver.region ∧
      needAck = cfg.needAckFromRegion (leaderOf home) env.receiver.region)

variable {reg : RegionId} {r d : MachineId} {k : ℕ} {env e : LogEnvelope} {slot : SlotId}

theorem isMachine_leaderOf (hreg : reg < cfg.numRegions) : cfg.IsMachine (leaderOf reg) :=
  ⟨hreg, cfg.numReplicas_pos reg, cfg.numPartitions_pos⟩

theorem isMachine_otherPartitions (hr : cfg.IsMachine r) (hd : d ∈ cfg.otherPartitions r) :
    cfg.IsMachine d ∧ d.region = r.region ∧
      d.replica = r.replica ∧ d.partition ≠ r.partition := by
  obtain ⟨p, hp, rfl⟩ := mem_map.mp hd
  obtain ⟨hlt, hne⟩ := mem_filter.mp hp
  exact ⟨⟨hr.region, hr.replica, mem_range.mp hlt⟩, rfl, rfl, of_decide_eq_true hne⟩

theorem isMachine_otherReplicas (hr : cfg.IsMachine r) (hd : d ∈ cfg.otherReplicas r) :
    cfg.IsMachine d ∧ d.region = r.region ∧
      d.replica ≠ r.replica := by
  obtain ⟨q, hq, rfl⟩ := mem_map.mp hd
  obtain ⟨hlt, hne⟩ := mem_filter.mp hq
  exact ⟨⟨hr.region, mem_range.mp hlt, hr.partition⟩, rfl, of_decide_eq_true hne⟩

variable {I}

/-- The batch of a partition. -/
theorem batchAt_zipIdx {b : Batch} {p : ℕ} (h : (b, p) ∈ (I.batchAt g k).zipIdx) :
    p < cfg.numPartitions ∧ b = { id := batchId g (k + 1), transactions := I.content g k p } := by
  have hget : (I.batchAt g k)[p]? = some b := mem_zipIdx_iff_getElem?.mp h
  obtain ⟨hlt, rfl⟩ := List.getElem?_eq_some_iff.mp hget
  rw [length_batchAt] at hlt
  exact ⟨hlt, by simp [LogInput.batchAt]⟩

/-- The data that a machine receives is that of its own partition. -/
theorem Valid.myBatch (h : Valid I env) {f : BatchForwarding} (hf : env.message = .data f) :
    LogManager.myBatch cfg env.receiver env f = some
      { id := batchId f.generator (f.position + 1),
        transactions := I.content f.generator f.position env.receiver.partition } := by
  have hdata := (h.data f hf).2
  rw [LogManager.myBatch, hdata]
  by_cases hfirst : env.firstTimeReplica
  · rw [if_pos hfirst, if_pos hfirst, if_pos (length_batchAt I _ _)]
    simp [LogInput.batchAt, h.receiver.partition]
  · rw [if_neg hfirst, if_neg hfirst]
    rfl

/-- The messages of a batch. -/
theorem valid_batchMessages (hg : cfg.IsMachine g) (h : env ∈ batchMessages I g k) : Valid I env := by
  rcases mem_append.mp h with h | h
  · -- to the same replica
    obtain ⟨mf, hmf, rfl⟩ := mem_map.mp h
    obtain ⟨⟨b, p⟩, hbp, rfl⟩ := mem_map.mp hmf
    obtain ⟨hp, rfl⟩ := batchAt_zipIdx hbp
    refine ⟨⟨hg.region, hg.replica, hp⟩, ?_, by simp, by simp⟩
    rintro f ⟨⟩
    exact ⟨hg, by simp [LogEnvelope.firstTimeReplica, LogEnvelope.firstTimeRegion]⟩
  · -- to other replicas and regions
    obtain ⟨d, hd, rfl⟩ := mem_map.mp h
    obtain ⟨hdm, hfirst⟩ : cfg.IsMachine d ∧ (g.region ≠ d.region ∨ g.replica ≠ d.replica) := by
      obtain ⟨reg, hreg, hd⟩ := mem_flatMap.mp hd
      have hpart : ∀ k, k % cfg.numPartitions < cfg.numPartitions := fun k =>
        Nat.mod_lt _ cfg.numPartitions_pos
      by_cases hne : reg ≠ g.region
      · rw [if_pos hne] at hd
        obtain rfl := mem_singleton.mp hd
        refine ⟨⟨mem_range.mp hreg, cfg.numReplicas_pos _, ?_⟩, .inl (Ne.symm hne)⟩
        dsimp only
        split_ifs <;> exact hpart _
      · rw [if_neg hne] at hd
        obtain ⟨rep, hrep, rfl⟩ := mem_map.mp hd
        obtain ⟨hlt, hrep⟩ := mem_filter.mp hrep
        refine ⟨⟨mem_range.mp hreg, ?_, ?_⟩, .inr (Ne.symm (of_decide_eq_true hrep))⟩
        · rw [not_not.mp hne]
          exact mem_range.mp hlt
        · dsimp only
          split_ifs <;> exact hpart _
    refine ⟨hdm, ?_, by simp, by simp⟩
    rintro f ⟨⟩
    refine ⟨hg, (if_pos ?_).symm⟩
    simpa [LogEnvelope.firstTimeReplica, LogEnvelope.firstTimeRegion] using hfirst

theorem valid_orderMessages (hreg : reg < cfg.numRegions) (h : env ∈ orderMessages I reg slot) :
    Valid I env := by
  obtain ⟨l, hl, rfl⟩ := mem_map.mp h
  obtain ⟨hlm, hregion⟩ : cfg.IsMachine l ∧ l.region = reg := by
    rcases mem_append.mp hl with hl | hl
    · obtain ⟨p, hp, rfl⟩ := mem_map.mp hl
      exact ⟨⟨hreg, cfg.numReplicas_pos _, mem_range.mp hp⟩, rfl⟩
    · obtain ⟨rep, hrep, rfl⟩ := mem_map.mp hl
      exact ⟨⟨hreg, mem_range.mp (mem_filter.mp hrep).1, cfg.numPartitions_pos⟩, rfl⟩
  refine ⟨hlm, by simp, ?_, by simp⟩
  rintro slot' g' leader ⟨⟩
  dsimp only
  rw [hregion, Configuration.electedLeader_getMembers]
  exact ⟨rfl, rfl⟩

/-- Messages that are handed on within a region. -/
theorem Valid.handOn (h : Valid I env) (hdata : ∀ f, env.message ≠ .data f) (horder : ∀ slot g leader,
      env.message ≠ .localOrder slot g leader) (he : e ∈ LogManager.handOn cfg env.receiver env) :
    Valid I e := by
  obtain ⟨d, hd, hreg, rfl⟩ : ∃ d, cfg.IsMachine d ∧ d.region = env.receiver.region ∧
      e = ⟨env.receiver, d, env.message⟩ := by
    rcases mem_append.mp he with he | he <;> split_ifs at he <;> try cases he
    · obtain ⟨d, hd, rfl⟩ := mem_map.mp he
      obtain ⟨hdm, hdr, -⟩ := isMachine_otherReplicas h.receiver hd
      exact ⟨d, hdm, hdr, rfl⟩
    · obtain ⟨d, hd, rfl⟩ := mem_map.mp he
      obtain ⟨hdm, hdr, -⟩ := isMachine_otherPartitions h.receiver hd
      exact ⟨d, hdm, hdr, rfl⟩
  refine ⟨hd, fun f hf => absurd hf (hdata f), fun s g l hl => absurd hl (horder s g l), ?_⟩
  intro slot id home needAck hmsg
  obtain ⟨hne, hlt, hid, -⟩ := h.remoteOrder slot id home needAck hmsg
  refine ⟨fun heq => hne (heq.trans hreg), hlt, hid, fun hfirst => ?_⟩
  exact absurd hreg.symm (of_decide_eq_true hfirst)

theorem Valid.ackOrder (h : Valid I env) {id : BatchId} {home : RegionId} {needAck : Bool}
    (hmsg : env.message = .remoteOrder slot id home needAck)
    (he : e ∈ LogManager.ackOrder env.receiver env id needAck) : Valid I e := by
  rw [LogManager.ackOrder] at he
  split_ifs at he with hneed
  · obtain rfl := mem_singleton.mp he
    obtain ⟨-, hlt, -, hfirst⟩ := h.remoteOrder slot id home needAck hmsg
    refine ⟨?_, by simp, by simp, by simp⟩
    dsimp only
    rw [(hfirst hneed.1).1]
    exact isMachine_leaderOf hlt
  · cases he

/-- What is handed on agrees with the input. -/
theorem Valid.handed (h : Valid I env) (he : e ∈ LogManager.handed cfg env.receiver env) :
    Valid I e := by
  rw [LogManager.handed] at he
  split at he
  · next id hmsg => exact h.handOn (by simp [hmsg]) (by simp [hmsg]) he
  · next f hf =>
      obtain ⟨hgen, hbatch⟩ := h.data f hf
      rcases mem_append.mp he with he | he <;> split_ifs at he with hfirst <;> try cases he
      · -- to the other replicas, with all partitions
        obtain ⟨d, hd, rfl⟩ := mem_map.mp he
        obtain ⟨hdm, hdr, hrep⟩ := isMachine_otherReplicas h.receiver hd
        have hrepl : env.firstTimeReplica := by
          rw [LogEnvelope.firstTimeReplica, hfirst, Bool.true_or]
        rw [hf]
        refine ⟨hdm, ?_, by simp, by simp⟩
        rintro f' ⟨⟩
        rw [if_pos hrepl] at hbatch
        refine ⟨hgen, hbatch.trans (if_pos ?_).symm⟩
        simp [LogEnvelope.firstTimeReplica, Ne.symm hrep]
      · -- to the other partitions, with their own one
        obtain ⟨⟨b, p⟩, hbp, rfl⟩ := mem_map.mp he
        rw [if_pos hfirst] at hbatch
        rw [mem_filter, mem_reverse, hbatch] at hbp
        obtain ⟨hp, rfl⟩ := batchAt_zipIdx hbp.1
        refine ⟨⟨h.receiver.region, h.receiver.replica, hp⟩, ?_, by simp, by simp⟩
        rintro f' ⟨⟩
        exact ⟨hgen, by simp [LogEnvelope.firstTimeReplica, LogEnvelope.firstTimeRegion]⟩
  · next slot g leader hmsg =>
      split_ifs at he
      · obtain ⟨d, hd, rfl⟩ := mem_map.mp he
        obtain ⟨hdm, hdr, -⟩ := isMachine_otherPartitions h.receiver hd
        obtain ⟨hg, hl⟩ := h.localOrder slot g leader hmsg
        rw [hmsg]
        refine ⟨hdm, by simp, ?_, by simp⟩
        rintro slot' g' leader' ⟨⟩
        dsimp only
        rw [hdr]
        exact ⟨hg, hl⟩
      · cases he
  · next slot id home needAck hmsg =>
      rcases mem_append.mp he with he | he
      · exact h.ackOrder hmsg he
      · exact h.handOn (by simp [hmsg]) (by simp [hmsg]) he

/-- So does what the leader announces. -/
theorem valid_announced (hr : cfg.IsMachine r) {n n' : ℕ}
    (he : e ∈ LogManager.announced I.toRegionOrders r n n') : Valid I e := by
  rw [LogManager.announced] at he
  split_ifs at he with hleader
  · obtain ⟨s, -, he⟩ := mem_flatMap.mp he
    obtain ⟨reg, hreg, rfl⟩ := mem_map.mp he
    obtain ⟨hlt, hne⟩ := mem_filter.mp hreg
    have hne' : reg ≠ r.region := of_decide_eq_true hne
    refine ⟨⟨mem_range.mp hlt, cfg.numReplicas_pos _, Nat.mod_lt _ cfg.numPartitions_pos⟩,
      by simp, by simp, ?_⟩
    rintro slot id home needAck ⟨⟩
    refine ⟨Ne.symm hne', hr.region, rfl, fun _ => ?_⟩
    dsimp only
    rw [← hleader]
    exact ⟨rfl, rfl, rfl⟩
  · cases he

/-! ## The invariant -/

/-- **The invariant of a run.**  Every machine follows what it has received, messages agree with the
input, and what a machine has received and what the messages in flight will bring to it is what it
is to receive. -/
structure Inv (I : LogInput cfg) (s : LogRun) : Prop where
  machines : ∀ m, cfg.IsMachine m →
    LogManager.Inv I.toRegionOrders m (s.state.nodes m) (s.state.receivedAt m)
  inFlight : ∀ env ∈ s.inFlight, Valid I env
  received : ∀ env ∈ s.state.received, Valid I env
  counts : ∀ m, cfg.IsMachine m → ∀ it,
    s.state.timesReceived m it + tally it m s.inFlight = s.state.expected cfg m it

theorem Inv.init : Inv I LogRun.init where
  machines := fun _ _ => LogManager.Inv.init
  inFlight := by simp [LogRun.init]
  received := by simp [LogRun.init]
  counts := by
    intro m _ it
    cases it <;>
      simp [LogRun.init, LogState.timesReceived, LogState.receivedAt, LogState.expected,
        LogState.announcedSlots]

end LogRun

namespace LogState

variable {cfg : Configuration} {s : LogState} {m : MachineId} {it : LogItem}

theorem timesReceived_pos {env : LogEnvelope} (henv : env ∈ s.receivedAt m)
    (hit : env.message.item = it) : 0 < s.timesReceived m it :=
  length_pos_of_mem (mem_filter.mpr ⟨henv, decide_eq_true hit⟩)

/-- The acknowledgements that a machine has received. -/
theorem count_ackId (R : List LogEnvelope) (id : BatchId) :
    (R.filterMap LogEnvelope.ackId).count id =
      (R.filter fun env => env.message.item = .ack id).length := by
  induction R with
  | nil => rfl
  | cons env R ih =>
    obtain ⟨sender, receiver, message⟩ := env
    cases message with
    | ack id' =>
      change (id' :: R.filterMap LogEnvelope.ackId).count id = _
      rw [count_cons, ih, filter_cons]
      by_cases hid : id' = id <;> simp [LogMessage.item, hid]
    | data f => simpa [filterMap_cons, LogEnvelope.ackId, LogMessage.item] using ih
    | localOrder slot g leader =>
      simpa [filterMap_cons, LogEnvelope.ackId, LogMessage.item] using ih
    | remoteOrder slot id' home needAck =>
      simpa [filterMap_cons, LogEnvelope.ackId, LogMessage.item] using ih

/-- Batches and orders are received at most once. -/
theorem expected_le_one (hit : ∀ id, it ≠ .ack id) : s.expected cfg m it ≤ 1 := by
  cases it with
  | ack id => exact absurd rfl (hit id)
  | _ =>
    rw [expected]
    split_ifs <;> omega

end LogState

namespace LogRun

variable {cfg : Configuration} {I : LogInput cfg} {s s' : LogRun} {m : MachineId}

variable {env : LogEnvelope} {reg : RegionId} {id : BatchId} {ms : List MachineId}

/-- A message in flight was not received enough times. -/
theorem Inv.timesReceived_lt (h : Inv I s) (henv : env ∈ s.inFlight) :
    s.state.timesReceived env.receiver env.message.item <
      s.state.expected cfg env.receiver env.message.item := by
  have hone : 1 ≤ tally env.message.item env.receiver s.inFlight := by
    have hle : env.brings env.message.item env.receiver ≤
        tally env.message.item env.receiver s.inFlight := le_tally henv
    rw [LogEnvelope.brings, if_pos rfl, env.reaches_receiver] at hle
    exact hle
  have hcount := h.counts _ (h.inFlight env henv).receiver env.message.item
  omega

/-- A batch or an order in flight is new for its receiver. -/
theorem Inv.notReceived (h : Inv I s) {e : LogEnvelope} (henv : env ∈ s.inFlight)
    (hack : ∀ id, env.message.item ≠ .ack id) (he : e ∈ s.state.receivedAt env.receiver) :
    e.message.item ≠ env.message.item := by
  intro heq
  have hlt := h.timesReceived_lt henv
  have hpos := LogState.timesReceived_pos he heq
  have hle : s.state.expected cfg env.receiver env.message.item ≤ 1 :=
    LogState.expected_le_one hack
  omega

/-- The orders that make a region acknowledge a batch. -/
theorem acknowledges_iff :
    env.acknowledges reg id ↔
      ∃ slot, env.message = .remoteOrder slot id reg true ∧ env.firstTimeRegion := by
  obtain ⟨sender, receiver, message⟩ := env
  cases message with
  | remoteOrder slot id' home needAck =>
    simp [LogEnvelope.acknowledges]
    tauto
  | _ => simp [LogEnvelope.acknowledges]

/-- What is known about an order that makes a region acknowledge a batch. -/
theorem Inv.of_acknowledges (h : Inv I s) (henv : env ∈ s.state.received)
    (hack : env.acknowledges reg id) : ∃ slot,
      env.message.item = .remoteOrder reg slot ∧ reg ≠ env.receiver.region ∧
      reg < cfg.numRegions ∧ id = I.batchId reg slot ∧
      env.receiver = cfg.orderDestination (leaderOf reg) env.receiver.region ∧
      env.receiver.region ∈ (cfg.replicationOrder reg).take (cfg.replicationFactor - 1) := by
  obtain ⟨slot, hmsg, hfirst⟩ := acknowledges_iff.mp hack
  obtain ⟨hne, hreg, hid, hdest⟩ := (h.received env henv).remoteOrder slot id reg true hmsg
  obtain ⟨-, hreceiver, hneed⟩ := hdest hfirst
  exact ⟨slot, by rw [hmsg]; rfl, hne, hreg, hid, hreceiver, of_decide_eq_true hneed.symm⟩

/-- A region acknowledges a batch once. -/
theorem Inv.nodup_acknowledged (h : Inv I s) (reg : RegionId) (id : BatchId) :
    ((s.state.received.filter fun env => env.acknowledges reg id).map
      fun env => env.receiver.region).Nodup := by
  -- two orders with one receiver would be the same item
  refine nodup_iff_count_le_one.mpr fun a => ?_
  by_cases hpos : a ∈ (s.state.received.filter fun env => env.acknowledges reg id).map
    fun env => env.receiver.region
  · obtain ⟨env₀, henv₀, rfl⟩ := mem_map.mp hpos
    obtain ⟨henv₀, hack₀⟩ := mem_filter.mp henv₀
    obtain ⟨slot, -, -, hreg, hid, hdest, -⟩ := h.of_acknowledges henv₀ hack₀
    have hle : s.state.timesReceived env₀.receiver (.remoteOrder reg slot) ≤ 1 := by
      have hcount := h.counts _ (h.received env₀ henv₀).receiver (.remoteOrder reg slot)
      have hone : s.state.expected cfg env₀.receiver (.remoteOrder reg slot) ≤ 1 :=
        LogState.expected_le_one fun _ => LogItem.noConfusion
      omega
    refine le_trans ?_ hle
    rw [List.count, countP_map, countP_filter, LogState.timesReceived,
      LogState.receivedAt, List.filter_filter, ← List.countP_eq_length_filter]
    refine countP_mono_left fun env henv hboth => ?_
    obtain ⟨heq, hack⟩ := Bool.and_eq_true_iff.mp hboth
    obtain ⟨slot', hitem, -, -, hid', hdest', -⟩ := h.of_acknowledges henv hack
    have hslot : slot' = slot := I.batchId_inj hreg (hid'.symm.trans hid)
    have hregion : env.receiver.region = env₀.receiver.region := beq_iff_eq.mp heq
    have hreceiver : env.receiver = env₀.receiver := by rw [hdest', hdest, hregion]
    simp [hitem, hslot, hreceiver]
  · rw [count_eq_zero_of_not_mem hpos]
    exact Nat.zero_le _

/-- Only the first regions of the replication order acknowledge a batch. -/
theorem Inv.acknowledged_le (h : Inv I s) (reg : RegionId) (id : BatchId) :
    (s.state.received.filter fun env => env.acknowledges reg id).length ≤
      cfg.replicationFactor - 1 := by
  have hsub : ((s.state.received.filter fun env => env.acknowledges reg id).map
      fun env => env.receiver.region) ⊆
      (cfg.replicationOrder reg).take (cfg.replicationFactor - 1) := by
    intro a ha
    obtain ⟨env, henv, rfl⟩ := mem_map.mp ha
    obtain ⟨henv, hack⟩ := mem_filter.mp henv
    obtain ⟨-, -, -, -, -, -, hregion⟩ := h.of_acknowledges henv hack
    exact hregion
  calc (s.state.received.filter fun env => env.acknowledges reg id).length
      = ((s.state.received.filter fun env => env.acknowledges reg id).map
          fun env => env.receiver.region).length := (length_map ..).symm
    _ ≤ ((cfg.replicationOrder reg).take (cfg.replicationFactor - 1)).length :=
        ((h.nodup_acknowledged reg id).subperm hsub).length_le
    _ ≤ cfg.replicationFactor - 1 := length_take_le _ _

/-- A message in flight can be received. -/
theorem Inv.receivable (h : Inv I s) (henv : env ∈ s.inFlight) :
    LogManager.Receivable I.toRegionOrders env.receiver (s.state.receivedAt env.receiver) env := by
  have hvalid := h.inFlight env henv
  have hlt := h.timesReceived_lt henv
  have hnew := fun hack e he => h.notReceived (e := e) henv hack he
  rw [LogManager.Receivable]
  split
  · next id hmsg =>
      have hle := h.acknowledged_le env.receiver.region id
      rw [hmsg] at hlt
      rw [LogState.count_ackId]
      exact lt_of_lt_of_le hlt hle
  · next f hf =>
      refine ⟨fun hmem => ?_, _, hvalid.myBatch hf, rfl⟩
      obtain ⟨e, he, hbatch⟩ := mem_filterMap.mp hmem
      refine hnew (by rw [hf]; exact fun _ => LogItem.noConfusion) e he ?_
      obtain ⟨sender, receiver, message⟩ := e
      cases message with
      | data f' =>
        obtain ⟨hg, hp⟩ := Prod.mk.inj (Option.some.inj hbatch)
        rw [hf, LogMessage.item, LogMessage.item, hg, hp]
      | _ => cases hbatch
  · next slot g leader hmsg =>
      refine ⟨fun hmem => ?_, hvalid.localOrder slot g leader hmsg⟩
      obtain ⟨e, he, hslot⟩ := mem_filterMap.mp hmem
      refine hnew (by rw [hmsg]; exact fun _ => LogItem.noConfusion) e he ?_
      obtain ⟨sender, receiver, message⟩ := e
      cases message with
      | localOrder slot' g' leader' =>
        cases hslot
        rw [hmsg]
        rfl
      | _ => cases hslot
  · next slot id home needAck hmsg =>
      obtain ⟨hne, hreg, hid, -⟩ := hvalid.remoteOrder slot id home needAck hmsg
      refine ⟨fun hmem => ?_, hne, hreg, hid⟩
      obtain ⟨e, he, hslot⟩ := mem_filterMap.mp hmem
      refine hnew (by rw [hmsg]; exact fun _ => LogItem.noConfusion) e he ?_
      obtain ⟨sender, receiver, message⟩ := e
      cases message with
      | remoteOrder slot' id' home' needAck' =>
        dsimp only [LogEnvelope.remoteSlot] at hslot
        split_ifs at hslot with hhome
        cases hslot
        rw [hmsg, LogMessage.item, LogMessage.item, hhome]
      | _ => cases hslot

theorem Inv.count_ackId_le (h : Inv I s) (hm : cfg.IsMachine m) (id : BatchId) :
    ((s.state.receivedAt m).filterMap LogEnvelope.ackId).count id ≤ cfg.replicationFactor - 1 := by
  have hcount := h.counts m hm (.ack id)
  have hle : s.state.expected cfg m (.ack id) ≤ _ := h.acknowledged_le m.region id
  rw [LogState.count_ackId]
  exact le_trans (le_trans (Nat.le_add_right _ _) hcount.le) hle

/-- **Handling a message in flight.** -/
theorem Inv.handle_eq (h : Inv I s) (henv : env ∈ s.inFlight) :
    ∃ lm, handle cfg s.state env = some ({ s.state with
          nodes := Function.update s.state.nodes env.receiver lm,
          received := s.state.received ++ [env] },
        LogManager.handed cfg env.receiver env ++ LogManager.announced I.toRegionOrders env.receiver
          (s.state.nodes env.receiver).localLog.slots.next lm.localLog.slots.next) ∧
      (s.state.nodes env.receiver).localLog.slots.next ≤ lm.localLog.slots.next ∧
      LogManager.Inv I.toRegionOrders env.receiver lm
        (s.state.receivedAt env.receiver ++ [env]) := by
  have hmachine := (h.inFlight env henv).receiver
  obtain ⟨lm, hlm, hle, hinv⟩ := (h.machines _ hmachine).receive hmachine.region rfl
    (h.receivable henv) (h.count_ackId_le hmachine)
  exact ⟨lm, by rw [handle, hlm, map_some], hle, hinv⟩

/-! ## Steps -/

/-- An acknowledgement reaches every machine of the home region. -/
theorem Valid.ackBrings (h : Valid I env) (it : LogItem) :
    env.ackBrings it m = match it with
      | .ack id => if env.acknowledges m.region id then 1 else 0
      | _ => 0 := by
  obtain ⟨sender, receiver, message⟩ := env
  cases message with
  | remoteOrder slot id home needAck =>
    have hremote := (h.remoteOrder slot id home needAck rfl).2.2.2
    rw [LogEnvelope.ackBrings]
    dsimp only
    rw [LogManager.ackOrder]
    by_cases hneed : LogEnvelope.firstTimeRegion
        ⟨sender, receiver, .remoteOrder slot id home needAck⟩ ∧ needAck
    · obtain ⟨hfirst, rfl⟩ := hneed
      obtain rfl : sender = leaderOf home := (hremote hfirst).1
      have hne : receiver.region ≠ home := Ne.symm (of_decide_eq_true hfirst)
      rw [if_pos ⟨hfirst, rfl⟩, tally_cons, tally_nil, add_zero, LogEnvelope.brings]
      cases it with
      | ack id' =>
        have hspread : spread receiver (leaderOf home) m = if m.region = home then 1 else 0 :=
          if_pos hne
        simp only [LogMessage.item, LogItem.ack.injEq, LogEnvelope.reaches, hspread,
          LogEnvelope.acknowledges, hfirst, Bool.true_and, Bool.and_eq_true, decide_eq_true_eq]
        by_cases hid : id = id' <;> by_cases hreg : home = m.region <;>
          simp [hid, hreg, eq_comm (a := m.region)]
      | _ => rfl
    · rw [if_neg hneed, tally_nil]
      cases it with
      | ack id' =>
        refine (if_neg fun hack => hneed ?_).symm
        obtain ⟨slot', hmsg, hfirst⟩ := acknowledges_iff.mp hack
        cases hmsg
        exact ⟨hfirst, rfl⟩
      | _ => rfl
  | _ => cases it <;> simp [LogEnvelope.ackBrings, LogEnvelope.acknowledges]

/-- What machines are to receive grows by what a message makes its receiver send. -/
theorem expected_handle {st : LogState} (hvalid : Valid I env) (hm : cfg.IsMachine m) {lm : LogManager}
    (hle : (st.nodes env.receiver).localLog.slots.next ≤ lm.localLog.slots.next) (it : LogItem) :
    LogState.expected cfg { st with
        nodes := Function.update st.nodes env.receiver lm,
        received := st.received ++ [env] } m it =
      st.expected cfg m it + env.ackBrings it m +
        tally it m (LogManager.announced I.toRegionOrders env.receiver
          (st.nodes env.receiver).localLog.slots.next lm.localLog.slots.next) := by
  rw [hvalid.ackBrings, LogManager.tally_announced _ hm]
  cases it with
  | batch g k => rfl
  | localOrder slot => rfl
  | ack id =>
    dsimp only [LogState.expected]
    rw [filter_append, length_append, add_zero]
    by_cases hack : env.acknowledges m.region id <;> simp [hack]
  | remoteOrder home slot =>
    by_cases hhome : leaderOf home = env.receiver
    · obtain rfl : home = env.receiver.region := congrArg MachineId.region hhome
      have hnew : LogState.announcedSlots { st with
          nodes := Function.update st.nodes env.receiver lm,
          received := st.received ++ [env] } env.receiver.region = lm.localLog.slots.next := by
        rw [LogState.announcedSlots, hhome]
        exact congrArg (fun lm : LogManager => lm.localLog.slots.next) (Function.update_self ..)
      have hold : st.announcedSlots env.receiver.region =
          (st.nodes env.receiver).localLog.slots.next := by
        rw [LogState.announcedSlots, hhome]
      have hlt := hvalid.receiver.region
      simp only [LogState.expected, hnew, hold, hhome, hlt, true_and, add_zero]
      generalize (st.nodes env.receiver).localLog.slots.next = n at hle ⊢
      generalize lm.localLog.slots.next = n' at hle ⊢
      by_cases h1 : slot < n
      · have h2 : slot < n' := lt_of_lt_of_le h1 hle
        simp [h1, h2, not_le.mpr h1]
      · by_cases h2 : slot < n'
        · simp [h1, h2, not_lt.mp h1, eq_comm]
        · simp [h1, h2]
    · have hnew : LogState.announcedSlots { st with
          nodes := Function.update st.nodes env.receiver lm,
          received := st.received ++ [env] } home = st.announcedSlots home :=
        congrArg (fun lm : LogManager => lm.localLog.slots.next)
          (Function.update_of_ne hhome lm st.nodes)
      have hother : ¬(env.receiver = leaderOf env.receiver.region ∧ home = env.receiver.region ∧
          m.region ≠ env.receiver.region ∧
          (st.nodes env.receiver).localLog.slots.next ≤ slot ∧
          slot < lm.localLog.slots.next) := by
        rintro ⟨hleader, rfl, -⟩
        exact hhome hleader.symm
      simp only [LogState.expected, hnew, if_neg hother, add_zero]

theorem receivedAt_concat (st : LogState) (nodes : MachineId → LogManager) (env : LogEnvelope) :
    LogState.receivedAt { st with nodes, received := st.received ++ [env] } m =
      st.receivedAt m ++ if env.receiver = m then [env] else [] := by
  dsimp only [LogState.receivedAt]
  rw [filter_append]
  by_cases hm : env.receiver = m <;> simp [hm]

/-- A message is delivered. -/
theorem Inv.deliver (h : Inv I s) {i : ℕ} (hs : Network.deliver (handle cfg) s i = some s') :
    Inv I s' := by
  obtain ⟨env, rest, r, hget, hperm, hr, rfl⟩ := Network.deliver_eq_some hs
  have henv : env ∈ s.inFlight := mem_of_getElem? hget
  have hvalid := h.inFlight env henv
  obtain ⟨lm, hhandle, hle, hinv⟩ := h.handle_eq henv
  obtain rfl := Option.some.inj (hhandle.symm.trans hr)
  refine ⟨fun m hm => ?_, fun e he => ?_, fun e he => ?_, fun m hm it => ?_⟩
  · -- the machines
    dsimp only
    rw [receivedAt_concat, Function.update_apply]
    by_cases hrec : m = env.receiver
    · rw [if_pos hrec, if_pos hrec.symm, hrec]
      exact hinv
    · rw [if_neg hrec, if_neg (Ne.symm hrec), append_nil]
      exact h.machines m hm
  · -- the messages in flight
    rcases mem_append.mp he with he | he
    · exact h.inFlight e (hperm.mem_iff.mpr (mem_cons_of_mem _ he))
    · rcases mem_append.mp he with he | he
      · exact hvalid.handed he
      · exact valid_announced hvalid.receiver he
  · rcases mem_append.mp he with he | he
    · exact h.received e he
    · exact mem_singleton.mp he ▸ hvalid
  · -- the counts
    have hcount := h.counts m hm it
    rw [tally_perm hperm, tally_cons] at hcount
    have hlength : ∀ f, env.message = .data f → env.firstTimeReplica →
        f.batchData.length = cfg.numPartitions := by
      intro f hf hfirst
      rw [(hvalid.data f hf).2, if_pos hfirst, length_batchAt]
    have hhanded := LogManager.tally_handed hm hlength it
    have htimes : LogState.timesReceived { s.state with
        nodes := Function.update s.state.nodes env.receiver lm,
        received := s.state.received ++ [env] } m it = s.state.timesReceived m it +
          if m = env.receiver ∧ env.message.item = it then 1 else 0 := by
      rw [LogState.timesReceived, receivedAt_concat, filter_append, length_append]
      congr 1
      by_cases hrec : m = env.receiver
      · by_cases hitem : env.message.item = it <;> simp [hrec, hitem]
      · simp [hrec, Ne.symm hrec]
    rw [htimes, expected_handle hvalid hm hle, tally_append, tally_append]
    omega

/-- **Every step keeps the invariant.** -/
theorem Inv.step (h : Inv I s) {e : LogEvent} (hs : step I s e = some s') : Inv I s' := by
  cases e with
  | batch g k =>
    rw [LogRun.step] at hs
    split_ifs at hs with hg
    obtain ⟨hg, hnew⟩ := hg
    cases hs
    refine ⟨h.machines, fun env henv => ?_, h.received, fun m hm it => ?_⟩
    · rcases mem_append.mp henv with henv | henv
      · exact h.inFlight env henv
      · exact valid_batchMessages hg henv
    · have hcount := h.counts m hm it
      have htally : tally it m (batchMessages I g k) = if it = .batch g k then 1 else 0 :=
        tally_batchMessages I hm g k
      have hexpected : LogState.expected cfg { s.state with
          sentBatches := s.state.sentBatches ++ [(g, k)] } m it =
          s.state.expected cfg m it + if it = .batch g k then 1 else 0 := by
        cases it with
        | batch g' k' =>
          by_cases heq : (g', k') = (g, k)
          · cases heq
            simp [LogState.expected, hnew]
          · have hne : LogItem.batch g' k' ≠ .batch g k := by
              rintro ⟨⟩
              exact heq rfl
            simp only [LogState.expected, mem_append, mem_singleton, heq, or_false,
              if_neg hne, add_zero]
        | _ =>
          rw [if_neg (by simp)]
          rfl
      rw [tally_append, htally, hexpected]
      exact (Nat.add_assoc ..).symm.trans (congrArg (· + _) hcount)
  | decide reg slot =>
    rw [LogRun.step] at hs
    split_ifs at hs with hreg
    obtain ⟨hreg, hnew⟩ := hreg
    cases hs
    refine ⟨h.machines, fun env henv => ?_, h.received, fun m hm it => ?_⟩
    · rcases mem_append.mp henv with henv | henv
      · exact h.inFlight env henv
      · exact valid_orderMessages hreg henv
    · have hcount := h.counts m hm it
      have htally : tally it m (orderMessages I reg slot) =
          if it = .localOrder slot ∧ m.region = reg then 1 else 0 :=
        tally_orderMessages I hm reg slot
      have hexpected : LogState.expected cfg { s.state with
          decided := s.state.decided ++ [(reg, slot)] } m it =
          s.state.expected cfg m it + if it = .localOrder slot ∧ m.region = reg then 1 else 0 := by
        cases it with
        | localOrder slot' =>
          by_cases heq : (m.region, slot') = (reg, slot)
          · cases heq
            simp [LogState.expected, hnew]
          · have hne : ¬(LogItem.localOrder slot' = .localOrder slot ∧ m.region = reg) := by
              rintro ⟨⟨⟩, rfl⟩
              exact heq rfl
            simp only [LogState.expected, mem_append, mem_singleton, heq, or_false,
              if_neg hne, add_zero]
        | _ =>
          rw [if_neg (by simp)]
          rfl
      rw [tally_append, htally, hexpected]
      exact (Nat.add_assoc ..).symm.trans (congrArg (· + _) hcount)
  | deliver i => exact h.deliver hs

theorem Inv.of_run {events : List LogEvent}
    (h : Lts.run (LogRun.step I) LogRun.init events = some s) :
    Inv I s :=
  Lts.invariant (LogRun.step I) Inv.init (fun _ _ _ hI hs => hI.step hs) ⟨events, h⟩

/-! ## Deliveries end -/

theorem mem_machines (hm : cfg.IsMachine m) : m ∈ cfg.machines :=
  mem_flatMap.mpr ⟨m.region, mem_range.mpr hm.region,
    mem_flatMap.mpr ⟨m.replica, mem_range.mpr hm.replica,
      mem_map.mpr ⟨m.partition, mem_range.mpr hm.partition, rfl⟩⟩⟩

theorem isMachine_of_mem_machines (hm : m ∈ cfg.machines) : cfg.IsMachine m := by
  obtain ⟨reg, hreg, hm⟩ := mem_flatMap.mp hm
  obtain ⟨rep, hrep, hm⟩ := mem_flatMap.mp hm
  obtain ⟨part, hpart, rfl⟩ := mem_map.mp hm
  exact ⟨mem_range.mp hreg, mem_range.mp hrep, mem_range.mp hpart⟩

/-- Counting messages by their receivers. -/
theorem length_le_sum_receivers {l : List LogEnvelope} (h : ∀ env ∈ l, env.receiver ∈ ms) :
    l.length ≤ (ms.map fun m => (l.filter fun env => env.receiver = m).length).sum := by
  induction l with
  | nil => exact Nat.zero_le _
  | cons env l ih =>
    have hone : 1 ≤ (ms.map fun m => if env.receiver = m then 1 else 0).sum := by
      refine single_le_sum (fun _ _ => Nat.zero_le _) _ (mem_map.mpr ?_)
      exact ⟨env.receiver, h env mem_cons_self, if_pos rfl⟩
    have hsplit : (ms.map fun m => ((env :: l).filter fun env => env.receiver = m).length).sum =
        (ms.map fun m => (l.filter fun env => env.receiver = m).length).sum +
          (ms.map fun m => if env.receiver = m then 1 else 0).sum := by
      rw [← sum_map_add]
      refine congrArg List.sum (map_congr_left fun m _ => ?_)
      by_cases hm : env.receiver = m <;> simp [hm]
    rw [hsplit, length_cons]
    exact Nat.add_le_add (ih fun e he => h e (mem_cons_of_mem _ he)) hone

theorem sum_le_of_forall_le {f : MachineId → ℕ} {n : ℕ} (h : ∀ m ∈ ms, f m ≤ n) :
    (ms.map f).sum ≤ ms.length * n := by
  have hle := sum_le_card_nsmul (ms.map f) n (by simpa using h)
  simpa using hle

/-- A message that is not an acknowledgement. -/
def isItem (env : LogEnvelope) : Bool := env.ackId.isNone

theorem item_ne_ack (h : isItem env) (id : BatchId) : env.message.item ≠ .ack id := by
  obtain ⟨sender, receiver, message⟩ := env
  cases message with
  | ack id' => cases h
  | _ => exact LogItem.noConfusion

/-- The batches that were sent and the slots that were decided, as items. -/
def sentItems (st : LogState) : List LogItem :=
  st.sentBatches.map (fun e => .batch e.1 e.2) ++ st.decided.map (fun e => .localOrder e.2) ++
    st.decided.map fun e => .remoteOrder e.1 e.2

/-- A slot that the leader of its region has announced was decided. -/
theorem Inv.decided_of_announced (h : Inv I s) {home : RegionId} (hhome : home < cfg.numRegions)
    {slot : SlotId} (hslot : slot < s.state.announcedSlots home) :
    (home, slot) ∈ s.state.decided := by
  have hm : cfg.IsMachine (leaderOf home) := isMachine_leaderOf hhome
  obtain ⟨env, henv, heq⟩ := mem_filterMap.mp ((h.machines _ hm).localLog.complete slot hslot).1
  have hpos : 0 < s.state.timesReceived (leaderOf home) (.localOrder slot) := by
    refine LogState.timesReceived_pos henv ?_
    obtain ⟨sender, receiver, message⟩ := env
    cases message with
    | localOrder slot' g leader => exact congrArg LogItem.localOrder (Option.some.inj heq)
    | _ => cases heq
  have hcount := h.counts _ hm (.localOrder slot)
  by_contra hnot
  rw [LogState.expected, if_neg hnot] at hcount
  omega

theorem Inv.mem_sentItems (h : Inv I s) (hm : cfg.IsMachine m) (henv : env ∈ s.state.receivedAt m)
    (hitem : isItem env) : env.message.item ∈ sentItems s.state := by
  have hpos := LogState.timesReceived_pos henv rfl
  have hcount := h.counts m hm env.message.item
  have hack := item_ne_ack hitem
  have hexpected : 0 < s.state.expected cfg m env.message.item := by omega
  rw [sentItems, append_assoc]
  cases hit : env.message.item with
  | ack id => exact absurd hit (hack id)
  | batch g k =>
    rw [hit, LogState.expected] at hexpected
    split_ifs at hexpected with hmem
    · exact mem_append_left _ (mem_map.mpr ⟨(g, k), hmem, rfl⟩)
    · omega
  | localOrder slot =>
    rw [hit, LogState.expected] at hexpected
    split_ifs at hexpected with hmem
    · exact mem_append_right _ (mem_append_left _
        (mem_map.mpr ⟨(m.region, slot), hmem, rfl⟩))
    · omega
  | remoteOrder home slot =>
    rw [hit, LogState.expected] at hexpected
    split_ifs at hexpected with hmem
    · exact mem_append_right _ (mem_append_right _ (mem_map.mpr
        ⟨(home, slot), h.decided_of_announced hmem.2.1 hmem.2.2, rfl⟩))
    · omega

/-- A machine receives each of them at most once. -/
theorem Inv.length_isItem_le (h : Inv I s) (hm : cfg.IsMachine m) :
    ((s.state.receivedAt m).filter isItem).length ≤ (sentItems s.state).length := by
  have hnodup : (((s.state.receivedAt m).filter isItem).map fun env => env.message.item).Nodup := by
    refine nodup_iff_count_le_one.mpr fun it => ?_
    by_cases hmem : it ∈ ((s.state.receivedAt m).filter isItem).map fun env => env.message.item
    · obtain ⟨env, henv, rfl⟩ := mem_map.mp hmem
      have hack := item_ne_ack (mem_filter.mp henv).2
      have hcount := h.counts m hm env.message.item
      have hone : s.state.expected cfg m env.message.item ≤ 1 := LogState.expected_le_one hack
      have hle : (((s.state.receivedAt m).filter isItem).map fun env => env.message.item).count
          env.message.item ≤ s.state.timesReceived m env.message.item := by
        rw [List.count, countP_map, countP_filter, LogState.timesReceived,
          ← List.countP_eq_length_filter]
        refine countP_mono_left fun e _ hboth => ?_
        exact decide_eq_true (beq_iff_eq.mp (Bool.and_eq_true_iff.mp hboth).1)
      omega
    · rw [count_eq_zero_of_not_mem hmem]
      exact Nat.zero_le _
  have hsub : (((s.state.receivedAt m).filter isItem).map fun env => env.message.item) ⊆
      sentItems s.state := by
    intro it hit
    obtain ⟨env, henv, rfl⟩ := mem_map.mp hit
    obtain ⟨henv, hitem⟩ := mem_filter.mp henv
    exact h.mem_sentItems hm henv hitem
  have hle := (hnodup.subperm hsub).length_le
  rw [length_map] at hle
  exact hle

theorem Inv.length_items_le (h : Inv I s) :
    (s.state.received.filter isItem).length ≤
      cfg.machines.length * (sentItems s.state).length := by
  refine le_trans (length_le_sum_receivers fun env henv => ?_)
    (sum_le_of_forall_le fun m (hm : m ∈ cfg.machines) => ?_)
  · exact mem_machines (h.received env (mem_filter.mp henv).1).receiver
  · rw [filter_comm]
    exact h.length_isItem_le (isMachine_of_mem_machines hm)

/-- The batch that an order makes its receiver acknowledge to a region. -/
def ackFor (reg : RegionId) (env : LogEnvelope) : Option BatchId :=
  match env.message with
  | .remoteOrder _ id home needAck =>
    if env.firstTimeRegion && needAck && home = reg then some id else none
  | _ => none

theorem ackFor_eq_some : ackFor reg env = some id ↔ env.acknowledges reg id := by
  obtain ⟨sender, receiver, message⟩ := env
  cases message with
  | remoteOrder slot id' home needAck =>
    simp [ackFor, LogEnvelope.acknowledges]
  | _ => simp [ackFor, LogEnvelope.acknowledges]

theorem count_filterMap_ackFor (l : List LogEnvelope) (reg : RegionId) (id : BatchId) :
    (l.filterMap (ackFor reg)).count id = (l.filter fun env => env.acknowledges reg id).length := by
  rw [count_filterMap, List.countP_eq_length_filter]
  congr 2
  funext env
  rw [Bool.eq_iff_iff, beq_iff_eq, ackFor_eq_some]

/-- The acknowledgements that a machine has received. -/
theorem Inv.length_acks_le (h : Inv I s) (hm : cfg.IsMachine m) :
    ((s.state.receivedAt m).filterMap LogEnvelope.ackId).length ≤
      (s.state.received.filter isItem).length := by
  have hsub : ((s.state.receivedAt m).filterMap LogEnvelope.ackId).Subperm
      (s.state.received.filterMap (ackFor m.region)) := by
    refine subperm_ext_iff.mpr fun id _ => ?_
    rw [LogState.count_ackId, count_filterMap_ackFor]
    exact (Nat.le_add_right _ _).trans (h.counts m hm (.ack id)).le
  refine hsub.length_le.trans ?_
  have hitem : ∀ l : List LogEnvelope,
      l.filterMap (ackFor m.region) = (l.filter isItem).filterMap (ackFor m.region) := by
    intro l
    rw [filterMap_filter]
    refine filterMap_congr fun env _ => ?_
    obtain ⟨sender, receiver, message⟩ := env
    cases message <;> rfl
  rw [hitem]
  exact length_filterMap_le _ _

/-- **The number of messages that are received is bounded.** -/
theorem Inv.length_received_le (h : Inv I s) : s.state.received.length ≤ s.state.bound cfg := by
  have hitems : (sentItems s.state).length =
      s.state.sentBatches.length + s.state.decided.length + s.state.decided.length := by
    simp [sentItems, add_assoc]
  rw [LogState.bound, ← hitems]
  refine le_trans (length_le_sum_receivers fun env henv => ?_)
    (sum_le_of_forall_le fun m (hm : m ∈ cfg.machines) => ?_)
  · exact mem_machines (h.received env henv).receiver
  · have hmachine := isMachine_of_mem_machines hm
    have hsplit : ∀ l : List LogEnvelope,
        l.length = (l.filter isItem).length + (l.filterMap LogEnvelope.ackId).length := by
      intro l
      induction l with
      | nil => rfl
      | cons env l ih =>
        cases hid : env.ackId with
        | none =>
          have hitem : isItem env := by rw [isItem, hid, isNone_none]
          rw [filter_cons_of_pos hitem, filterMap_cons_none hid, length_cons,
            length_cons, ih]
          omega
        | some id =>
          have hitem : ¬ isItem env := by simp [isItem, hid]
          rw [filter_cons_of_neg hitem, filterMap_cons_some hid, length_cons,
            length_cons, ih]
          omega
    have hreceived := hsplit (s.state.receivedAt m)
    have hle := h.length_isItem_le hmachine
    have hacks := (h.length_acks_le hmachine).trans h.length_items_le
    exact hreceived.le.trans (Nat.add_le_add hle hacks)

/-- What deliveries leave as it is. -/
theorem Inv.run_deliver {is : List ℕ} (h : Inv I s)
    (hrun : Lts.run (Network.deliver (handle cfg)) s is = some s') :
    Inv I s' ∧ s'.state.received.length = s.state.received.length + is.length ∧
      s'.state.bound cfg = s.state.bound cfg := by
  induction is generalizing s with
  | nil =>
    cases hrun
    exact ⟨h, rfl, rfl⟩
  | cons i is ih =>
    rw [Lts.run_cons, bind_eq_some_iff] at hrun
    obtain ⟨t, ht, hrun⟩ := hrun
    obtain ⟨hI, hlen, hbound⟩ := ih (h.deliver ht) hrun
    obtain ⟨env, rest, r, -, -, hr, rfl⟩ := Network.deliver_eq_some ht
    obtain ⟨r', -, rfl⟩ := map_eq_some_iff.mp hr
    refine ⟨hI, ?_, hbound⟩
    rw [hlen, length_append, length_singleton, length_cons]
    omega

/-- **Dissemination.**  In every run, whatever the order in which batches are sent, slots are
decided and messages are delivered, every machine receives every item exactly once, its data is
that of its own partition, no message leads to an error, and deliveries come to an end. -/
theorem disseminated_of_run (I : LogInput cfg) {events : List LogEvent} {s : LogRun}
    (h : Lts.run (LogRun.step I) init events = some s) : Disseminated I s := by
  have hI := Inv.of_run h
  refine ⟨fun m hm it => ?_, fun hnil m hm it => ?_, fun env henv f hf => ?_, fun i hi => ?_,
    fun is s' hrun => ?_⟩
  · exact (Nat.le_add_right _ _).trans (hI.counts m hm it).le
  · have hcount := hI.counts m hm it
    rw [hnil, tally_nil, add_zero] at hcount
    exact hcount
  · exact (hI.received env henv).myBatch hf
  · obtain ⟨lm, hlm, -⟩ := hI.handle_eq (getElem_mem hi)
    rw [LogRun.step, Network.deliver, List.getElem?_eq_getElem hi, bind_some, hlm]
    rfl
  · obtain ⟨hI', hlen, hbound⟩ := hI.run_deliver hrun
    have hle := hI'.length_received_le
    omega

/-- Two regions of two replicas with two partitions each. -/
def twoByTwo : Configuration where
  numRegions := 2
  numReplicas := fun _ => 2
  numPartitions := 2
  replicationFactor := 2
  replicationOrder := fun reg => [1 - reg]
  numPartitions_pos := Nat.two_pos
  numReplicas_pos := fun _ => Nat.two_pos
  replicationFactor_pos := Nat.two_pos
  numRegions_le := by decide
  numReplicas_le := fun _ => by decide
  numPartitions_le := by decide

def twoByTwoInput : LogInput twoByTwo where
  order := fun reg _ => ⟨reg, 1, 1⟩
  isMachine := fun _ hreg _ => ⟨hreg, Nat.one_lt_two, Nat.one_lt_two⟩
  region := fun _ _ => rfl
  content := fun _ _ _ => []

/-- One batch of a machine that is not the leader, and its slot, are sent to all machines. -/
theorem disseminated_twoByTwo : ∃ s, Lts.run (LogRun.step twoByTwoInput) init
      ([.batch ⟨0, 1, 1⟩ 0, .decide 0 0] ++ List.replicate 20 (.deliver 0)) = some s ∧
    s.inFlight = [] ∧ s.state.received.length = 20 ∧ Disseminated twoByTwoInput s := by
  refine Lts.exists_run (p := fun s => s.inFlight = [] ∧ s.state.received.length = 20)
    (by decide +kernel) ?_
  exact fun s hs h => ⟨h.1, h.2, disseminated_of_run twoByTwoInput hs⟩

end LogRun

end Slog
