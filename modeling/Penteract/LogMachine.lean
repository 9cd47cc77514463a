/-
# A machine and what it has received

The state of a log manager is compared with the list of the messages that it has received.  A
message is receivable if it is new and agrees with the order of the slots.  A machine handles every
receivable message without an error, and what it sends is a function of the message and of the
slots of the local log that it completes.
-/
import Penteract.LogManager

namespace Slog

open List Option

/-- The order of the slots of every region: the slots of a region are given to its machines. -/
structure RegionOrders (cfg : Configuration) where
  order : RegionId → SlotId → MachineId
  isMachine : ∀ reg < cfg.numRegions, ∀ slot, cfg.IsMachine (order reg slot)
  region : ∀ reg slot, (order reg slot).region = reg

/-- The number of the batch in a slot of a region. -/
def RegionOrders.batchId {cfg : Configuration} (O : RegionOrders cfg) (reg : RegionId)
    (slot : SlotId) : BatchId := slotBatchId (O.order reg) slot

theorem RegionOrders.batchId_inj {cfg : Configuration} (O : RegionOrders cfg) {reg : RegionId}
    (hreg : reg < cfg.numRegions) {slot slot' : SlotId}
    (h : O.batchId reg slot = O.batchId reg slot') : slot = slot' :=
  slotBatchId_inj (fun s => (O.isMachine reg hreg s).fits) h

/-- The leader of the group of a region. -/
abbrev leaderOf (reg : RegionId) : MachineId := ⟨reg, 0, 0⟩

namespace LogEnvelope

/-- The slot of a local order. -/
def localSlot (env : LogEnvelope) : Option SlotId :=
  match env.message with
  | .localOrder slot _ _ => some slot
  | _ => none

/-- The machine that generated the batch of a message with data, and its position. -/
def batch (env : LogEnvelope) : Option (MachineId × ℕ) :=
  match env.message with
  | .data f => some (f.generator, f.position)
  | _ => none

def ackId (env : LogEnvelope) : Option BatchId :=
  match env.message with
  | .ack id => some id
  | _ => none

/-- The slot of an order of another region. -/
def remoteSlot (home : RegionId) (env : LogEnvelope) : Option SlotId :=
  match env.message with
  | .remoteOrder slot _ h _ => if h = home then some slot else none
  | _ => none

/-- The batch that a machine adds to the log of a region. -/
def homeBatch (cfg : Configuration) (home : RegionId) (env : LogEnvelope) : Option Batch :=
  match env.message with
  | .data f =>
    if f.generator.region = home then LogManager.myBatch cfg env.receiver env f else none
  | _ => none

end LogEnvelope

open LogEnvelope

namespace LogManager

variable {cfg : Configuration} (O : RegionOrders cfg)

/-- The batches of the own region among the messages that were received. -/
def ownBatches (me : MachineId) (R : List LogEnvelope) : List (MachineId × ℕ) :=
  (R.filterMap batch).filter fun e => e.1.region = me.region

/-- The slots of a region that a machine knows: those of its own region below `popped`, and those
of other regions that it was told. -/
def knownSlots (me : MachineId) (R : List LogEnvelope) (popped : ℕ) (h : RegionId) :
    List (SlotId × BatchId × ℕ) :=
  if h = me.region then
    (List.range popped).map fun s => (s, O.batchId me.region s, cfg.replicationFactor - 1)
  else (R.filterMap (remoteSlot h)).map fun s => (s, O.batchId h s, 0)

/-- The log of a region follows the messages `R` that the machine has received. -/
structure HomeFollows (me : MachineId) (R : List LogEnvelope) (popped : ℕ) (h : RegionId)
    (r : BatchRun) : Prop where
  inv : r.log.Inv r.history
  data : r.history.data = R.filterMap (homeBatch cfg h)
  acks : r.history.acks = if h = me.region then R.filterMap ackId else []
  slots : r.history.slots = knownSlots O me R popped h

/-- **The manager follows what it has received**, `R`.  The slots of the local log below `popped`
were added to the log of the own region. -/
structure Follows (me : MachineId) (lm : LogManager) (R : List LogEnvelope) (popped : ℕ) :
    Prop where
  localLog : lm.localLog.Follows (O.order me.region) (leaderOf me.region) popped
    (R.filterMap localSlot) (ownBatches me R)
  logs : ∀ h, HomeFollows O me R popped h (lm.singleHomeLogs h)

/-- All slots of the local log were added. -/
def Inv (me : MachineId) (lm : LogManager) (R : List LogEnvelope) : Prop :=
  Follows O me lm R lm.localLog.slots.next

/-- A message that is new and agrees with the orders. -/
def Receivable (me : MachineId) (R : List LogEnvelope) (env : LogEnvelope) : Prop :=
  match env.message with
  | .ack id => (R.filterMap ackId).count id < cfg.replicationFactor - 1
  | .data f => (f.generator, f.position) ∉ R.filterMap batch ∧
      ∃ b, myBatch cfg me env f = some b ∧ b.id = batchId f.generator (f.position + 1)
  | .localOrder slot g leader => slot ∉ R.filterMap localSlot ∧ g = O.order me.region slot ∧
      leader = leaderOf me.region
  | .remoteOrder slot id home _ => slot ∉ R.filterMap (remoteSlot home) ∧ home ≠ me.region ∧
      home < cfg.numRegions ∧ id = O.batchId home slot

/-- What a machine sends for a message, apart from the orders of its own region. -/
def handed (cfg : Configuration) (me : MachineId) (env : LogEnvelope) : List LogEnvelope :=
  match env.message with
  | .ack _ => handOn cfg me env
  | .data f =>
    (if env.firstTimeRegion then sendAll me (cfg.otherReplicas me) env.message else []) ++
      if env.firstTimeReplica then distribute me f else []
  | .localOrder _ _ leader =>
    if leader.replica ≠ me.replica ∧ env.sender.partition = me.partition then
      sendAll me (cfg.otherPartitions me) env.message else []
  | .remoteOrder _ id _ needAck => ackOrder me env id needAck ++ handOn cfg me env

/-- The orders of the slots from `n` up to `n'`, which the leader sends to the other regions. -/
def announced (me : MachineId) (n n' : ℕ) : List LogEnvelope :=
  if me = leaderOf me.region then
    (List.range' n (n' - n)).flatMap fun s => remoteOrders cfg me s (O.batchId me.region s)
  else []

end LogManager

/-! ## Emitting batches -/

/-- A log that has emitted further batches. -/
structure BatchRun.Emits (r r' : BatchRun) : Prop where
  inv : r'.log.Inv r'.history
  slots : r'.history.slots = r.history.slots
  data : r'.history.data = r.history.data
  acks : r'.history.acks = r.history.acks

namespace LogManager

variable {r : BatchRun} {n : ℕ} {env : LogEnvelope}

theorem emitBatches_emits (n : ℕ) (h : r.log.Inv r.history) :
    ∃ r', emitBatches n r = some r' ∧ r.Emits r' := by
  induction n generalizing r with
  | zero => exact ⟨r, rfl, h, rfl, rfl, rfl⟩
  | succ n ih =>
    rw [emitBatches]
    split_ifs with hnext
    · obtain ⟨r₁, hr₁, hI⟩ := BatchRun.call_inv (c := .nextBatch) h hnext
      obtain ⟨r', hr', he⟩ := ih hI
      obtain ⟨⟨e, log⟩, -, rfl⟩ := map_eq_some_iff.mp hr₁
      exact ⟨r', by rw [hr₁, bind_some, hr'], he.inv, he.slots, he.data, he.acks⟩
    · exact ⟨r, rfl, h, rfl, rfl, rfl⟩

/-- Emitting batches does not change what was received. -/
structure Advances (lm lm' : LogManager) : Prop where
  localLog : lm'.localLog = lm.localLog
  logs : ∀ h, (lm.singleHomeLogs h).Emits (lm'.singleHomeLogs h)

theorem advanceHomes_advances {lm : LogManager}
    (h : ∀ h, (lm.singleHomeLogs h).log.Inv (lm.singleHomeLogs h).history) (homes : List RegionId) :
    ∃ lm', homes.foldlM advanceHome lm = some lm' ∧ lm.Advances lm' := by
  induction homes generalizing lm with
  | nil => exact ⟨lm, rfl, rfl, fun home => ⟨h home, rfl, rfl, rfl⟩⟩
  | cons home homes ih =>
    obtain ⟨r, hr, he⟩ := emitBatches_emits (lm.singleHomeLogs home).log.readyBatches.length
      (h home)
    obtain ⟨lm₁, hlm₁⟩ : ∃ lm₁ : LogManager, lm₁ = { lm with
        singleHomeLogs := Function.update lm.singleHomeLogs home r } := ⟨_, rfl⟩
    have hone : ∀ h', (lm.singleHomeLogs h').Emits (lm₁.singleHomeLogs h') := by
      intro h'
      rw [hlm₁]
      dsimp only
      rw [Function.update_apply]
      split_ifs with hh
      · rw [hh]
        exact he
      · exact ⟨h h', rfl, rfl, rfl⟩
    obtain ⟨lm', hlm', hadv⟩ := ih fun h' => (hone h').inv
    refine ⟨lm', ?_, ?_, fun h' => ⟨(hadv.logs h').inv, ?_, ?_, ?_⟩⟩
    · rw [foldlM_cons, advanceHome, hr, map_some, ← hlm₁]
      exact hlm'
    · rw [hadv.localLog, hlm₁]
    · rw [(hadv.logs h').slots, (hone h').slots]
    · rw [(hadv.logs h').data, (hone h').data]
    · rw [(hadv.logs h').acks, (hone h').acks]

variable {cfg : Configuration} (O : RegionOrders cfg)

variable {O} in
/-- The slots of the local log are added to the log of the own region. -/
theorem addSlots {lm : LogManager} {me : MachineId} (hme : me.region < cfg.numRegions)
    (h : (lm.singleHomeLogs me.region).log.Inv (lm.singleHomeLogs me.region).history)
    (hslots : (lm.singleHomeLogs me.region).history.slots = (List.range n).map fun s =>
      (s, O.batchId me.region s, cfg.replicationFactor - 1))
    (hacks : ∀ id, (lm.singleHomeLogs me.region).history.acks.count id ≤
      cfg.replicationFactor - 1) (leader : MachineId) (k : ℕ) :
    ∃ r : BatchRun, ((List.range' n k).map fun s => (s, O.batchId me.region s, leader)).foldlM
        (fun (lm : LogManager) e =>
          lm.callLog me.region (.addSlot e.1 e.2.1 (cfg.replicationFactor - 1))) lm =
        some { lm with singleHomeLogs := Function.update lm.singleHomeLogs me.region r } ∧
      r.log.Inv r.history ∧
      r.history = { (lm.singleHomeLogs me.region).history with
        slots := (List.range (n + k)).map fun s =>
          (s, O.batchId me.region s, cfg.replicationFactor - 1) } := by
  induction k with
  | zero =>
    refine ⟨lm.singleHomeLogs me.region, ?_, h, ?_⟩
    · rw [Function.update_eq_self]
      rfl
    · rw [add_zero, ← hslots]
  | succ k ih =>
    obtain ⟨r, hfold, hI, hhist⟩ := ih
    have hnew : ∀ s, s < n + k → s ≠ n + k := fun s hs => hs.ne
    have hallowed : r.Allowed (.addSlot (n + k) (O.batchId me.region (n + k))
        (cfg.replicationFactor - 1)) := by
      refine ⟨?_, ?_, ?_⟩
      · rw [hhist]
        simp
      · rw [hhist]
        intro hmem
        obtain ⟨e, he, heq⟩ := mem_map.mp hmem
        obtain ⟨s, hs, rfl⟩ := mem_map.mp he
        exact hnew s (mem_range.mp hs) (O.batchId_inj hme heq)
      · rw [hhist]
        exact hacks _
    obtain ⟨r', hr', hI'⟩ := BatchRun.call_inv hI hallowed
    refine ⟨r', ?_, hI', ?_⟩
    · rw [List.range'_concat, map_append, foldlM_append, hfold, one_mul]
      simp [callLog, hr']
    · obtain ⟨log, -, rfl⟩ := map_eq_some_iff.mp hr'
      dsimp only
      rw [hhist, ← add_assoc, range_succ, map_append]
      rfl

/-! ## Receiving a message -/

variable {O} {me : MachineId} {lm : LogManager} {R : List LogEnvelope}

/-- The orders that are sent for the batches that are ready. -/
theorem flatMap_remoteOrders (me : MachineId) (n n' : ℕ) :
    ((List.range' n (n' - n)).map fun s =>
      (s, O.batchId me.region s, leaderOf me.region)).flatMap
        (fun e => if me = e.2.2 then remoteOrders cfg me e.1 e.2.1 else []) =
      announced O me n n' := by
  rw [announced, flatMap_map]
  split_ifs with hl
  · rfl
  · simp

/-- `AdvanceLog` adds the slots that are complete, announces them, and emits batches. -/
theorem Follows.advanceLog (h : Follows O me lm R n) (hme : me.region < cfg.numRegions)
    (hacks : ∀ id, (R.filterMap ackId).count id ≤ cfg.replicationFactor - 1) :
    ∃ lm', lm.advanceLog cfg me = some (lm', announced O me n lm.localLog.slots.next) ∧
      lm'.localLog.slots.next = lm.localLog.slots.next ∧ Inv O me lm' R := by
  obtain ⟨lm₀, hlm₀⟩ : ∃ lm₀ : LogManager, lm₀ = { lm with
    localLog := { lm.localLog with readyBatches := [] } } := ⟨_, rfl⟩
  have hlogs₀ : lm₀.singleHomeLogs = lm.singleHomeLogs := by rw [hlm₀]
  have hown₀ := h.logs me.region
  obtain ⟨r, hfold, hI, hhist⟩ := addSlots (O := O) hme (by rw [hlogs₀]; exact hown₀.inv)
    (by rw [hlogs₀, hown₀.slots, knownSlots, if_pos rfl])
    (by rw [hlogs₀, hown₀.acks, if_pos rfl]; exact hacks) (leaderOf me.region)
    (lm.localLog.slots.next - n)
  rw [hlogs₀, Nat.add_sub_cancel' h.localLog.popped_le] at hhist
  obtain ⟨lm₁, hlm₁⟩ : ∃ lm₁ : LogManager, lm₁ = { lm₀ with
    singleHomeLogs := Function.update lm₀.singleHomeLogs me.region r } := ⟨_, rfl⟩
  rw [← hlm₁] at hfold
  have hlogs₁ : ∀ h', HomeFollows O me R lm.localLog.slots.next h' (lm₁.singleHomeLogs h') := by
    intro h'
    rw [hlm₁, hlogs₀]
    dsimp only
    rw [Function.update_apply]
    split_ifs with hh
    · subst hh
      refine ⟨hI, ?_, ?_, ?_⟩
      · rw [hhist]
        exact hown₀.data
      · rw [hhist]
        exact hown₀.acks
      · rw [hhist, knownSlots, if_pos rfl]
    · have hold := h.logs h'
      exact ⟨hold.inv, hold.data, hold.acks, by rw [hold.slots, knownSlots, knownSlots, if_neg hh,
        if_neg hh]⟩
  obtain ⟨lm', hhomes, hadv⟩ := advanceHomes_advances (fun h' => (hlogs₁ h').inv)
    (List.range cfg.numRegions)
  have hready : lm.localLog.readyBatches = (List.range' n (lm.localLog.slots.next - n)).map
      fun s => (s, O.batchId me.region s, leaderOf me.region) := h.localLog.ready
  have hlocal : lm'.localLog = { lm.localLog with readyBatches := [] } := by
    rw [hadv.localLog, hlm₁, hlm₀]
  refine ⟨lm', ?_, by rw [hlocal], ?_, fun h' => ?_⟩
  · rw [LogManager.advanceLog, ← hlm₀, hready, flatMap_remoteOrders, hfold]
    simp only [bind_eq_bind, bind_some, hhomes]
    rfl
  · rw [hlocal]
    exact h.localLog.pop
  · have hold := hlogs₁ h'
    have he := hadv.logs h'
    rw [hlocal]
    exact ⟨he.inv, he.data.trans hold.data, he.acks.trans hold.acks, he.slots.trans hold.slots⟩

theorem filterMap_concat {α β : Type*} (g : α → Option β) (l : List α) (a : α) :
    (l ++ [a]).filterMap g = l.filterMap g ++ (g a).toList := by
  rw [filterMap_append]
  cases h : g a <;> simp [h]

/-- A message that does not concern the log of a region. -/
theorem HomeFollows.frame {h : RegionId} (hr : HomeFollows O me R n h r)
    (hdata : homeBatch cfg h env = none) (hack : h = me.region → ackId env = none)
    (hslot : h ≠ me.region → remoteSlot h env = none) : HomeFollows O me (R ++ [env]) n h r := by
  refine ⟨hr.inv, ?_, ?_, ?_⟩
  · rw [hr.data]
    simp [hdata]
  · rw [hr.acks]
    split_ifs with hh
    · simp [hack hh]
    · rfl
  · rw [hr.slots, knownSlots, knownSlots]
    split_ifs with hh
    · rfl
    · simp [hslot hh]

/-- A message is handed on, and the machine follows. -/
def Processes (O : RegionOrders cfg) (me : MachineId) (lm : LogManager) (R : List LogEnvelope)
    (env : LogEnvelope) : Prop :=
  ∃ lm', lm.process cfg me env = some (lm', handed cfg me env) ∧
    Follows O me lm' (R ++ [env]) lm.localLog.slots.next

/-- A message that leads to a call on the log of one region. -/
theorem Processes.callLog {l : LogManager} {home : RegionId} {c : BatchCall}
    (hprocess : ∀ lm', l.callLog home c = some lm' →
      lm.process cfg me env = some (lm', handed cfg me env))
    (hlocal : l.localLog.Follows (O.order me.region) (leaderOf me.region) lm.localLog.slots.next
      ((R ++ [env]).filterMap localSlot) (ownBatches me (R ++ [env])))
    (hframe : ∀ h, h ≠ home → HomeFollows O me (R ++ [env]) lm.localLog.slots.next h
      (l.singleHomeLogs h))
    (hinv : (l.singleHomeLogs home).log.Inv (l.singleHomeLogs home).history)
    (hc : (l.singleHomeLogs home).Allowed c)
    (hhome : ∀ r, (l.singleHomeLogs home).call c = some r → r.log.Inv r.history →
      HomeFollows O me (R ++ [env]) lm.localLog.slots.next home r) : Processes O me lm R env := by
  obtain ⟨r, hr, hI⟩ := BatchRun.call_inv hinv hc
  refine ⟨{ l with singleHomeLogs := Function.update l.singleHomeLogs home r },
    hprocess _ (by rw [LogManager.callLog, hr, map_some]), hlocal, fun h => ?_⟩
  dsimp only
  rw [Function.update_apply]
  split_ifs with hh
  · rw [hh]
    exact hhome r hr hI
  · exact hframe h hh

section Cases

variable {sender receiver : MachineId}

/-- An acknowledgement. -/
theorem Inv.ack (h : Inv O me lm R) {id : BatchId}
    (hcount : (R.filterMap ackId).count id < cfg.replicationFactor - 1) :
    Processes O me lm R ⟨sender, receiver, .ack id⟩ := by
  have hown := h.logs me.region
  refine .callLog (l := lm) (c := .ackReplication id) (fun lm' hcall => ?_) ?_ (fun h' hne =>
    (h.logs h').frame rfl (fun hh => absurd hh hne) fun _ => rfl) hown.inv ?_ fun r hr hI => ?_
  · rw [process]
    dsimp only
    rw [processBatchReplicationAck, hcall]
    rfl
  · simpa [filterMap_cons, localSlot, ownBatches, batch] using h.localLog
  · intro e he _
    rw [hown.slots, knownSlots, if_pos rfl] at he
    obtain ⟨s, -, rfl⟩ := mem_map.mp he
    rw [hown.acks, if_pos rfl]
    exact hcount
  · cases hr
    refine ⟨hI, ?_, ?_, ?_⟩
    · dsimp only
      rw [hown.data, filterMap_concat]
      simp [homeBatch]
    · dsimp only
      rw [hown.acks, if_pos rfl, if_pos rfl, filterMap_concat]
      rfl
    · dsimp only
      rw [hown.slots, knownSlots, knownSlots, if_pos rfl, if_pos rfl]

/-- The data of a batch. -/
theorem Inv.data (h : Inv O me lm R) {f : BatchForwarding} {b : Batch}
    (hnew : (f.generator, f.position) ∉ R.filterMap batch)
    (hb : myBatch cfg me ⟨sender, me, .data f⟩ f = some b)
    (hid : b.id = batchId f.generator (f.position + 1)) :
    Processes O me lm R ⟨sender, me, .data f⟩ := by
  -- the local log
  obtain ⟨ll, hll, hlocal⟩ : ∃ ll, lm.addToLocalLog me f b = some ll ∧
      ll.Follows (O.order me.region) (leaderOf me.region) lm.localLog.slots.next
        (List.filterMap localSlot (R ++ [⟨sender, me, .data f⟩]))
        (ownBatches me (R ++ [⟨sender, me, .data f⟩])) := by
    rw [addToLocalLog]
    by_cases hg : f.generator.region = me.region
    · rw [if_pos hg, hid]
      obtain ⟨ll, hll, hF⟩ := h.localLog.addBatchId
        (fun hmem => hnew (mem_filter.mp hmem).1)
      exact ⟨ll, hll, by simpa [filterMap_cons, localSlot, ownBatches, batch, hg] using hF⟩
    · rw [if_neg hg]
      exact ⟨_, rfl, by simpa [filterMap_cons, localSlot, ownBatches, batch, hg] using h.localLog⟩
  -- the log of the region of the generator
  have hown := h.logs f.generator.region
  refine .callLog (l := { lm with localLog := ll }) (fun lm' hcall => ?_) hlocal (fun h' hne =>
    (h.logs h').frame (if_neg (Ne.symm hne)) (fun _ => rfl) fun _ => rfl) hown.inv
    (c := .addBatch b) trivial fun r hr hI => ?_
  · rw [process]
    dsimp only
    rw [processForwardBatchData, hb]
    simp only [bind_eq_bind, bind_some, hll, hcall]
    rfl
  · cases hr
    refine ⟨hI, ?_, ?_, ?_⟩
    · dsimp only
      rw [hown.data, filterMap_concat]
      simp [homeBatch, hb]
    · dsimp only
      rw [hown.acks, filterMap_concat]
      simp [ackId]
    · dsimp only
      rw [hown.slots, knownSlots, knownSlots, filterMap_concat]
      simp [remoteSlot]

variable {slot : SlotId}

/-- An order of the own region. -/
theorem Inv.localOrder (h : Inv O me lm R) (hnew : slot ∉ R.filterMap localSlot) :
    Processes O me lm R
      ⟨sender, receiver, .localOrder slot (O.order me.region slot) (leaderOf me.region)⟩ := by
  obtain ⟨ll, hll, hF⟩ := h.localLog.addSlot hnew
  refine ⟨{ lm with localLog := ll }, ?_, ?_, fun h' => (h.logs h').frame rfl (fun _ => rfl)
    fun _ => rfl⟩
  · rw [process]
    dsimp only
    rw [processLocalBatchOrder, hll]
    rfl
  · simpa [filterMap_cons, localSlot, ownBatches, batch] using hF

/-- An order of another region. -/
theorem Inv.remoteOrder (h : Inv O me lm R) {home : RegionId} {needAck : Bool}
    (hnew : slot ∉ R.filterMap (remoteSlot home)) (hne : home ≠ me.region)
    (hhome : home < cfg.numRegions) :
    Processes O me lm R
      ⟨sender, receiver, .remoteOrder slot (O.batchId home slot) home needAck⟩ := by
  have hown := h.logs home
  have hslots : (lm.singleHomeLogs home).history.slots =
      (R.filterMap (remoteSlot home)).map fun s => (s, O.batchId home s, 0) := by
    rw [hown.slots, knownSlots, if_neg hne]
  refine .callLog (l := lm) (c := .addSlot slot (O.batchId home slot) 0) (fun lm' hcall => ?_) ?_
    (fun h' hh => (h.logs h').frame rfl (fun _ => rfl) fun _ => if_neg (Ne.symm hh)) hown.inv
    ⟨?_, ?_, ?_⟩ fun r hr hI => ?_
  · rw [process]
    dsimp only
    rw [processRemoteBatchOrder, hcall]
    rfl
  · simpa [filterMap_cons, localSlot, ownBatches, batch] using h.localLog
  · rw [hslots]
    intro hmem
    obtain ⟨e, he, heq⟩ := mem_map.mp hmem
    obtain ⟨s, hs, rfl⟩ := mem_map.mp he
    exact hnew (heq ▸ hs)
  · rw [hslots]
    intro hmem
    obtain ⟨e, he, heq⟩ := mem_map.mp hmem
    obtain ⟨s, hs, rfl⟩ := mem_map.mp he
    exact hnew (O.batchId_inj hhome heq ▸ hs)
  · rw [hown.acks, if_neg hne]
    exact le_rfl
  · obtain ⟨log, -, rfl⟩ := map_eq_some_iff.mp hr
    refine ⟨hI, ?_, ?_, ?_⟩
    · dsimp only
      rw [hown.data, filterMap_concat]
      simp [homeBatch]
    · dsimp only
      rw [hown.acks, if_neg hne, if_neg hne]
    · dsimp only
      rw [hslots, knownSlots, if_neg hne, filterMap_concat, map_append]
      simp [remoteSlot]

end Cases

/-- **A machine handles every receivable message.**  It hands the message on, and the leader
announces the slots that are complete. -/
theorem Inv.receive (h : Inv O me lm R) (hme : me.region < cfg.numRegions) (henv : env.receiver = me)
    (hok : Receivable O me R env)
    (hacks : ∀ id, (R.filterMap ackId).count id ≤ cfg.replicationFactor - 1) :
    ∃ lm', lm.onInternalRequestReceived cfg me env = some (lm', handed cfg me env ++
        announced O me lm.localLog.slots.next lm'.localLog.slots.next) ∧
      lm.localLog.slots.next ≤ lm'.localLog.slots.next ∧ Inv O me lm' (R ++ [env]) := by
  obtain ⟨⟨lm₁, hprocess, hF⟩, hacks'⟩ : Processes O me lm R env ∧
      ∀ id, ((R ++ [env]).filterMap ackId).count id ≤ cfg.replicationFactor - 1 := by
    obtain ⟨sender, receiver, message⟩ := env
    obtain rfl : receiver = me := henv
    cases message with
    | ack id =>
      refine ⟨h.ack hok, fun id' => ?_⟩
      have hok' : (R.filterMap ackId).count id < cfg.replicationFactor - 1 := hok
      simp only [filterMap_concat, ackId, toList_some, count_append,
        count_singleton]
      by_cases hid : id = id'
      · subst hid
        simpa using hok'
      · simpa [hid] using hacks id'
    | data f =>
      obtain ⟨hnew, b, hb, hid⟩ := hok
      exact ⟨h.data hnew hb hid, by simpa [filterMap_cons, ackId] using hacks⟩
    | localOrder slot g leader =>
      obtain ⟨hnew, rfl, rfl⟩ := hok
      exact ⟨h.localOrder hnew, by simpa [filterMap_cons, ackId] using hacks⟩
    | remoteOrder slot id home needAck =>
      obtain ⟨hnew, hne, hhome, rfl⟩ := hok
      exact ⟨h.remoteOrder hnew hne hhome, by simpa [filterMap_cons, ackId] using hacks⟩
  obtain ⟨lm', hadv, hnext, hI⟩ := hF.advanceLog hme hacks'
  refine ⟨lm', ?_, hnext ▸ hF.localLog.popped_le, hI⟩
  rw [onInternalRequestReceived, hprocess]
  simp only [bind_eq_bind, bind_some, hadv, hnext]
  rfl

theorem Inv.init : Inv O me {} [] where
  localLog := .init
  logs := by
    intro h
    refine ⟨BatchLog.Inv.init, rfl, ?_, ?_⟩
    · split_ifs <;> rfl
    · rw [knownSlots]
      split_ifs <;> rfl

end LogManager

end Slog
