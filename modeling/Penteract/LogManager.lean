/-
# The log manager

Every machine keeps the log of every region.  The log of its own region, the local log, is made of
the order of the slots, which comes from Paxos and says which machine generated the batch of a
slot, and of the batches that each machine generated, in their order.  One machine of the region,
the leader of the group, sends the slots with the numbers of their batches to the other regions.
Data, orders and acknowledgements reach one machine of a region or of a replica and are handed on
from there.
-/
import Penteract.Batcher
import Penteract.Paxos

namespace Slog

open List

/-! ## The local log -/

/-- The slots carry the machine that generated their batch, and the leader.  A queue that does not
exist is an empty one. -/
structure LocalLog where
  slots : AsyncLog (MachineId × MachineId) := {}
  batchQueues : MachineId → AsyncLog BatchId := fun _ => {}
  readyBatches : List (SlotId × BatchId × MachineId) := []

namespace LocalLog

/-- One iteration of `UpdateReadyBatches`, undefined where the loop is left. -/
def updateStep (ll : LocalLog) : Option LocalLog :=
  ll.slots.peek.bind fun s =>
    (ll.batchQueues s.1).peek.map fun id =>
      { slots := ll.slots.advance,
        batchQueues := Function.update ll.batchQueues s.1 (ll.batchQueues s.1).advance,
        readyBatches := ll.readyBatches ++ [(ll.slots.next, id, s.2)] }

def updateReadyBatches (ll : LocalLog) : LocalLog := Loop.run updateStep ll.slots.size ll

/-- `none` is the error of a position that is taken. -/
def addBatchId (ll : LocalLog) (queue : MachineId) (position : ℕ) (id : BatchId) :
    Option LocalLog :=
  ((ll.batchQueues queue).insert position id).map fun q =>
    updateReadyBatches { ll with batchQueues := Function.update ll.batchQueues queue q }

/-- `none` is the error of a slot that is taken. -/
def addSlot (ll : LocalLog) (slot : SlotId) (queue leader : MachineId) : Option LocalLog :=
  (ll.slots.insert slot (queue, leader)).map fun slots => updateReadyBatches { ll with slots }

end LocalLog

/-! ## The order of the batches

Paxos gives the slots of a region to the machines that generate batches: `order slot` is the
machine that the slot is given to. -/

/-- How many slots before `slot` are given to `g`. -/
def rank (order : SlotId → MachineId) (g : MachineId) (slot : SlotId) : ℕ :=
  ((List.range slot).filter fun j => order j = g).length

/-- The batch of a slot: the `k`-th slot that is given to a machine carries its `k`-th batch. -/
def slotBatchId (order : SlotId → MachineId) (slot : SlotId) : BatchId :=
  batchId (order slot) (rank order (order slot) slot + 1)

theorem rank_succ (order : SlotId → MachineId) (g : MachineId) (slot : SlotId) :
    rank order g (slot + 1) = rank order g slot + if order slot = g then 1 else 0 := by
  rw [rank, rank, range_succ, filter_append, length_append]
  split_ifs with h <;> simp [h]

theorem rank_mono (order : SlotId → MachineId) (g : MachineId) : Monotone (rank order g) :=
  monotone_nat_of_le_succ fun slot => by
    rw [rank_succ]
    exact Nat.le_add_right _ _

/-- Different slots carry different batches. -/
theorem slotBatchId_inj {order : SlotId → MachineId} (hfits : ∀ slot, (order slot).Fits)
    {slot slot' : SlotId} (h : slotBatchId order slot = slotBatchId order slot') :
    slot = slot' := by
  have hlt : ∀ {i j : SlotId}, i < j → order i = order j →
      rank order (order i) i ≠ rank order (order j) j := by
    intro i j hij hg heq
    have hle := rank_mono order (order i) (Nat.succ_le_of_lt hij)
    rw [Nat.succ_eq_add_one, rank_succ, if_pos rfl, hg, ← heq, hg] at hle
    omega
  obtain ⟨hg, hr⟩ := batchId_inj (hfits slot) (hfits slot') h
  rcases Nat.lt_trichotomy slot slot' with hs | hs | hs
  · exact absurd (Nat.succ.inj hr) (hlt hs hg)
  · exact hs
  · exact absurd (Nat.succ.inj hr).symm (hlt hs hg.symm)

/-- **The local log follows the order.**  `S` are the slots that have arrived, `D` the batches, and
the slots below `popped` have been handed over. -/
structure LocalLog.Follows (ll : LocalLog) (order : SlotId → MachineId) (leader : MachineId)
    (popped : ℕ) (S : List SlotId) (D : List (MachineId × ℕ)) : Prop where
  slots : ll.slots.Follows (S.map fun s => (s, order s, leader))
  queues : ∀ g, (ll.batchQueues g).Follows
    ((D.filter fun e => e.1 = g).map fun e => (e.2, batchId g (e.2 + 1)))
  next : ∀ g, (ll.batchQueues g).next = rank order g ll.slots.next
  popped_le : popped ≤ ll.slots.next
  ready : ll.readyBatches = (List.range' popped (ll.slots.next - popped)).map fun s =>
    (s, slotBatchId order s, leader)
  complete : ∀ s < ll.slots.next, s ∈ S ∧ (order s, rank order (order s) s) ∈ D

namespace LocalLog.Follows

variable {ll ll' : LocalLog} {order : SlotId → MachineId} {leader : MachineId} {popped : ℕ}
  {S : List SlotId} {D : List (MachineId × ℕ)}

theorem init : LocalLog.Follows {} order leader 0 [] [] where
  slots := .init
  queues := fun _ => .init
  next := fun _ => rfl
  popped_le := le_rfl
  ready := rfl
  complete := by simp

theorem updateStep (h : ll.Follows order leader popped S D) (hs : ll.updateStep = some ll') :
    ll'.Follows order leader popped S D := by
  rw [LocalLog.updateStep, Option.bind_eq_some_iff] at hs
  obtain ⟨⟨g, m⟩, hpeek, hs⟩ := hs
  obtain ⟨id, hid, rfl⟩ := Option.map_eq_some_iff.mp hs
  obtain ⟨s, hsS, hseq⟩ := mem_map.mp (h.slots.peek_eq_some.mp hpeek)
  obtain ⟨rfl, ⟨⟩⟩ := Prod.mk.inj hseq
  dsimp only at hid ⊢
  -- the next batch of the generator is the one of the slot
  obtain ⟨e, heD, heq⟩ := mem_map.mp ((h.queues _).peek_eq_some.mp hid)
  obtain ⟨hpos, rfl⟩ := Prod.mk.inj heq
  rw [h.next] at hpos
  obtain ⟨heD, heg⟩ := mem_filter.mp heD
  have heg' : e.1 = order ll.slots.next := of_decide_eq_true heg
  refine ⟨h.slots.advance, fun g => ?_, fun g => ?_, ?_, ?_, fun s hs => ?_⟩
  · dsimp only
    rw [Function.update_apply]
    split_ifs with hg
    · rw [hg]
      exact (h.queues _).advance
    · exact h.queues g
  · dsimp only
    rw [Function.update_apply, InOrderLog.advance_next, rank_succ]
    split_ifs with hg hg' hg'
    · rw [InOrderLog.advance_next, h.next, hg]
    · exact absurd hg.symm hg'
    · exact absurd hg'.symm hg
    · rw [h.next, add_zero]
  · exact h.popped_le.trans (Nat.le_succ _)
  · rw [InOrderLog.advance_next, Nat.succ_sub h.popped_le, List.range'_concat, map_append,
      ← h.ready, map_singleton, one_mul, Nat.add_sub_cancel' h.popped_le, slotBatchId, hpos]
  · rw [InOrderLog.advance_next] at hs
    rcases Nat.lt_succ_iff_lt_or_eq.mp hs with hs | rfl
    · exact h.complete s hs
    · refine ⟨hsS, ?_⟩
      rw [← hpos, ← heg']
      exact heD

theorem updateReadyBatches (h : ll.Follows order leader popped S D) :
    ll.updateReadyBatches.Follows order leader popped S D :=
  Loop.run_inv (P := fun ll : LocalLog => ll.Follows order leader popped S D)
    (fun _ _ h hs => h.updateStep hs) _ h

/-- A batch arrives. -/
theorem addBatchId (h : ll.Follows order leader popped S D) {g : MachineId} {position : ℕ}
    (hnew : (g, position) ∉ D) :
    ∃ ll', ll.addBatchId g position (batchId g (position + 1)) = some ll' ∧
      ll'.Follows order leader popped S (D ++ [(g, position)]) := by
  obtain ⟨q, hq, hnext, hfollows⟩ := (h.queues g).insert_new (batchId g (position + 1))
    (i := position) (by
      rw [map_map]
      rintro hmem
      obtain ⟨e, he, rfl⟩ := mem_map.mp hmem
      obtain ⟨heD, heg⟩ := mem_filter.mp he
      exact hnew (by rw [← of_decide_eq_true heg]; exact heD))
  suffices hF : LocalLog.Follows { ll with batchQueues := Function.update ll.batchQueues g q }
      order leader popped S (D ++ [(g, position)]) from
    ⟨_, by rw [LocalLog.addBatchId, hq, Option.map_some], hF.updateReadyBatches⟩
  refine ⟨h.slots, fun g' => ?_, fun g' => ?_, h.popped_le, h.ready, fun s hs => ?_⟩
  · rw [filter_append, map_append]
    by_cases hg : g' = g
    · subst hg
      simpa using hfollows
    · simpa [hg, Ne.symm hg] using h.queues g'
  · dsimp only
    rw [Function.update_apply]
    split_ifs with hg
    · rw [hnext, hg]
      exact h.next g
    · exact h.next g'
  · exact ⟨(h.complete s hs).1, mem_append_left _ (h.complete s hs).2⟩

/-- A slot arrives. -/
theorem addSlot (h : ll.Follows order leader popped S D) {slot : SlotId} (hnew : slot ∉ S) :
    ∃ ll', ll.addSlot slot (order slot) leader = some ll' ∧
      ll'.Follows order leader popped (S ++ [slot]) D := by
  obtain ⟨slots, hslots, hnext, hfollows⟩ := h.slots.insert_new (order slot, leader) (i := slot) (by
    rw [map_map]
    simpa [Function.comp_def] using hnew)
  suffices hF : LocalLog.Follows { ll with slots } order leader popped (S ++ [slot]) D from
    ⟨_, by rw [LocalLog.addSlot, hslots, Option.map_some], hF.updateReadyBatches⟩
  refine ⟨?_, h.queues, fun g => ?_, ?_, ?_, fun s hs => ?_⟩
  · rw [map_append]
    exact hfollows
  · dsimp only
    rw [hnext]
    exact h.next g
  · exact hnext ▸ h.popped_le
  · dsimp only
    rw [hnext]
    exact h.ready
  · rw [hnext] at hs
    exact ⟨mem_append_left _ (h.complete s hs).1, (h.complete s hs).2⟩

/-- The batches that are ready are handed over. -/
theorem pop (h : ll.Follows order leader popped S D) :
    LocalLog.Follows { ll with readyBatches := [] } order leader ll.slots.next S D where
  slots := h.slots
  queues := h.queues
  next := h.next
  popped_le := le_rfl
  ready := by simp
  complete := h.complete

end LocalLog.Follows

/-! ## Messages -/

inductive LogMessage where
  | ack (id : BatchId)
  | data (f : BatchForwarding)
  | localOrder (slot : SlotId) (generator leader : MachineId)
  | remoteOrder (slot : SlotId) (id : BatchId) (home : RegionId) (needAck : Bool)
  deriving DecidableEq, Repr

structure LogEnvelope where
  sender : MachineId
  receiver : MachineId
  message : LogMessage
  deriving DecidableEq, Repr

/-- The first time that a message reaches the region of its receiver. -/
def LogEnvelope.firstTimeRegion (env : LogEnvelope) : Bool :=
  env.sender.region ≠ env.receiver.region

/-- The first time that a message reaches the replica of its receiver. -/
def LogEnvelope.firstTimeReplica (env : LogEnvelope) : Bool :=
  env.firstTimeRegion || env.sender.replica ≠ env.receiver.replica

def sendAll (me : MachineId) (dests : List MachineId) (message : LogMessage) :
    List LogEnvelope :=
  dests.map fun m => { sender := me, receiver := m, message }

namespace Configuration

variable (cfg : Configuration) (me : MachineId)

def otherPartitions : List MachineId :=
  ((List.range cfg.numPartitions).filter fun p => p ≠ me.partition).map fun p =>
    { me with partition := p }

def otherReplicas : List MachineId :=
  ((List.range (cfg.numReplicas me.region)).filter fun r => r ≠ me.replica).map fun r =>
    { me with replica := r }

def needAckFromRegion (reg : RegionId) : Bool :=
  reg ∈ (cfg.replicationOrder me.region).take (cfg.replicationFactor - 1)

/-- The machine of another region that the leader sends an order to. -/
def orderDestination (reg : RegionId) : MachineId :=
  { region := reg, replica := 0,
    partition := (reg + cfg.numRegions - me.region) % cfg.numRegions % cfg.numPartitions }

/-- The Paxos group of a region.  Its learners are the machines of the first replica and the first
partitions of the other replicas. -/
def getMembers (reg : RegionId) : Members where
  acceptors :=
    if cfg.localSyncReplication reg then
      (List.range ((cfg.numReplicas reg - 1) / 2 * 2 + 1)).map fun rep => ⟨reg, rep, 0⟩
    else (List.range ((cfg.numPartitions - 1) / 2 * 2 + 1)).map fun part => ⟨reg, 0, part⟩
  learners :=
    ((List.range cfg.numPartitions).map fun part => ⟨reg, 0, part⟩) ++
      ((List.range (cfg.numReplicas reg)).filter fun rep => rep ≠ 0).map fun rep => ⟨reg, rep, 0⟩
  acceptors_ne_nil := by
    split_ifs <;> simp
  acceptors_nodup := by
    split_ifs
    · exact nodup_range.map fun a b h => congrArg MachineId.replica h
    · exact nodup_range.map fun a b h => congrArg MachineId.partition h
  learners_nodup := by
    refine nodup_append'.mpr ⟨nodup_range.map fun a b h => congrArg MachineId.partition h,
      (nodup_range.filter _).map fun a b h => congrArg MachineId.replica h, ?_⟩
    intro m hm hm'
    obtain ⟨p, -, rfl⟩ := mem_map.mp hm
    obtain ⟨r, hr, heq⟩ := mem_map.mp hm'
    exact of_decide_eq_true (mem_filter.mp hr).2 (congrArg MachineId.replica heq)

theorem electedLeader_getMembers (reg : RegionId) :
    (cfg.getMembers reg).electedLeader = ⟨reg, 0, 0⟩ := by
  unfold Members.electedLeader getMembers
  split_ifs <;> simp

end Configuration

/-! ## The manager -/

/-- The log of every region, with its history, and the local log. -/
structure LogManager where
  singleHomeLogs : RegionId → BatchRun := fun _ => {}
  localLog : LocalLog := {}

namespace LogManager

variable (cfg : Configuration) (me : MachineId)

def callLog (lm : LogManager) (home : RegionId) (c : BatchCall) : Option LogManager :=
  ((lm.singleHomeLogs home).call c).map fun r =>
    { lm with singleHomeLogs := Function.update lm.singleHomeLogs home r }

/-- Hand a message on to the other replicas and partitions. -/
def handOn (env : LogEnvelope) : List LogEnvelope :=
  (if env.firstTimeRegion then sendAll me (cfg.otherReplicas me) env.message else []) ++
    if env.firstTimeReplica then sendAll me (cfg.otherPartitions me) env.message else []

def processBatchReplicationAck (lm : LogManager) (env : LogEnvelope) (id : BatchId) :
    Option (LogManager × List LogEnvelope) :=
  (lm.callLog me.region (.ackReplication id)).map fun lm => (lm, handOn cfg me env)

/-- The batch of the own partition.  `none` is the failure of the check that there is a batch for
every partition. -/
def myBatch (env : LogEnvelope) (f : BatchForwarding) : Option Batch :=
  if env.firstTimeReplica then
    if f.batchData.length = cfg.numPartitions then f.batchData[me.partition]? else none
  else f.batchData.getLast?

/-- The batches of the other partitions, from the last one on. -/
def distribute (f : BatchForwarding) : List LogEnvelope :=
  (f.batchData.zipIdx.reverse.filter fun bp => bp.2 ≠ me.partition).map fun bp =>
    { sender := me,
      receiver := { me with partition := bp.2 },
      message := .data { f with batchData := [bp.1] } }

/-- A batch of the own region is added to the local log. -/
def addToLocalLog (lm : LogManager) (f : BatchForwarding) (batch : Batch) : Option LocalLog :=
  if f.generator.region = me.region then
    lm.localLog.addBatchId f.generator f.position batch.id
  else some lm.localLog

def processForwardBatchData (lm : LogManager) (env : LogEnvelope) (f : BatchForwarding) :
    Option (LogManager × List LogEnvelope) := do
  let sent := (if env.firstTimeRegion then sendAll me (cfg.otherReplicas me) env.message else []) ++
    if env.firstTimeReplica then distribute me f else []
  let batch ← myBatch cfg me env f
  let localLog ← lm.addToLocalLog me f batch
  let lm ← callLog { lm with localLog } f.generator.region (.addBatch batch)
  return (lm, sent)

def processLocalBatchOrder (lm : LogManager) (env : LogEnvelope) (slot : SlotId)
    (generator leader : MachineId) : Option (LogManager × List LogEnvelope) := do
  let localLog ← lm.localLog.addSlot slot generator leader
  return ({ lm with localLog },
    if leader.replica ≠ me.replica ∧ env.sender.partition = me.partition then
      sendAll me (cfg.otherPartitions me) env.message else [])

/-- The acknowledgement of an order that needs one, sent where the order came from. -/
def ackOrder (env : LogEnvelope) (id : BatchId) (needAck : Bool) : List LogEnvelope :=
  if env.firstTimeRegion ∧ needAck then
    [{ sender := me, receiver := env.sender, message := .ack id }] else []

def processRemoteBatchOrder (lm : LogManager) (env : LogEnvelope) (slot : SlotId) (id : BatchId)
    (home : RegionId) (needAck : Bool) : Option (LogManager × List LogEnvelope) := do
  let lm ← lm.callLog home (.addSlot slot id 0)
  return (lm, ackOrder me env id needAck ++ handOn cfg me env)

/-- The orders that the leader sends to the other regions. -/
def remoteOrders (slot : SlotId) (id : BatchId) : List LogEnvelope :=
  ((List.range cfg.numRegions).filter fun reg => reg ≠ me.region).map fun reg =>
    { sender := me,
      receiver := cfg.orderDestination me reg,
      message := .remoteOrder slot id me.region (cfg.needAckFromRegion me reg) }

/-- Emit all batches that are ready. -/
def emitBatches : ℕ → BatchRun → Option BatchRun
  | 0, s => some s
  | n + 1, s => if s.log.hasNextBatch then (s.call .nextBatch).bind (emitBatches n) else some s

/-- The second loop of `AdvanceLog`, for the log of one region. -/
def advanceHome (lm : LogManager) (home : RegionId) : Option LogManager :=
  (emitBatches (lm.singleHomeLogs home).log.readyBatches.length (lm.singleHomeLogs home)).map
    fun r => { lm with singleHomeLogs := Function.update lm.singleHomeLogs home r }

def advanceLog (lm : LogManager) : Option (LogManager × List LogEnvelope) := do
  let ready := lm.localLog.readyBatches
  let sent := ready.flatMap fun e => if me = e.2.2 then remoteOrders cfg me e.1 e.2.1 else []
  let lm ← ready.foldlM (fun (lm : LogManager) e =>
    lm.callLog me.region (.addSlot e.1 e.2.1 (cfg.replicationFactor - 1)))
    { lm with localLog := { lm.localLog with readyBatches := [] } }
  let lm ← (List.range cfg.numRegions).foldlM advanceHome lm
  return (lm, sent)

def process (lm : LogManager) (env : LogEnvelope) : Option (LogManager × List LogEnvelope) :=
  match env.message with
  | .ack id => lm.processBatchReplicationAck cfg me env id
  | .data f => lm.processForwardBatchData cfg me env f
  | .localOrder slot generator leader => lm.processLocalBatchOrder cfg me env slot generator leader
  | .remoteOrder slot id home needAck =>
    lm.processRemoteBatchOrder cfg me env slot id home needAck

def onInternalRequestReceived (lm : LogManager) (env : LogEnvelope) :
    Option (LogManager × List LogEnvelope) := do
  let (lm, sent) ← lm.process cfg me env
  let (lm, sent') ← lm.advanceLog cfg me
  return (lm, sent ++ sent')

end LogManager

end Slog
