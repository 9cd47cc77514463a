/-
# The network of the log managers

A run of the log managers of all machines.  Machines generate batches, Paxos decides slots, and
messages are delivered in any order.  A message that arrives at a machine is to reach a part of the
machines: its receiver, the replica of the receiver, or the region of the receiver.  Handing a
message on splits this part into the receiver and the parts of the messages that it sends.
-/
import Penteract.LogMachine

namespace Slog

open List

def Configuration.machines (cfg : Configuration) : List MachineId :=
  (List.range cfg.numRegions).flatMap fun reg => (List.range (cfg.numReplicas reg)).flatMap fun rep =>
    (List.range cfg.numPartitions).map fun part => ⟨reg, rep, part⟩

/-- What is given from outside: the order of the slots, and the contents of the batches. -/
structure LogInput (cfg : Configuration) extends RegionOrders cfg where
  content : MachineId → ℕ → PartitionId → List Transaction

/-- The batch at a position of a machine. -/
def LogInput.batchAt {cfg : Configuration} (I : LogInput cfg) (g : MachineId) (position : ℕ) :
    PartitionedBatch :=
  (List.range cfg.numPartitions).map fun p =>
    { id := batchId g (position + 1), transactions := I.content g position p }

/-- The things that are disseminated. -/
inductive LogItem where
  | batch (g : MachineId) (position : ℕ)
  | localOrder (slot : SlotId)
  | remoteOrder (home : RegionId) (slot : SlotId)
  | ack (id : BatchId)
  deriving DecidableEq, Repr

def LogMessage.item : LogMessage → LogItem
  | .ack id => .ack id
  | .data f => .batch f.generator f.position
  | .localOrder slot _ _ => .localOrder slot
  | .remoteOrder slot _ home _ => .remoteOrder home slot

/-- The message makes its receiver acknowledge a batch to a region. -/
def LogEnvelope.acknowledges (reg : RegionId) (id : BatchId) (env : LogEnvelope) : Bool :=
  match env.message with
  | .remoteOrder _ i home needAck => env.firstTimeRegion && needAck && home = reg && i = id
  | _ => false

structure LogState where
  nodes : MachineId → LogManager := fun _ => {}
  sentBatches : List (MachineId × ℕ) := []
  decided : List (RegionId × SlotId) := []
  received : List LogEnvelope := []

abbrev LogRun := Network LogState LogEnvelope

inductive LogEvent where
  | batch (g : MachineId) (position : ℕ)
  | decide (reg : RegionId) (slot : SlotId)
  | deliver (i : ℕ)
  deriving DecidableEq, Repr

namespace LogState

variable {cfg : Configuration}

def receivedAt (s : LogState) (m : MachineId) : List LogEnvelope :=
  s.received.filter fun env => env.receiver = m

/-- How many slots of a region its leader has announced. -/
def announcedSlots (s : LogState) (home : RegionId) : ℕ :=
  (s.nodes (leaderOf home)).localLog.slots.next

def timesReceived (s : LogState) (m : MachineId) (it : LogItem) : ℕ :=
  ((s.receivedAt m).filter fun env => env.message.item = it).length

/-- How often a machine is to receive an item: once each batch that was sent, each slot of its
region that was decided, and each slot of another region that was announced, and an
acknowledgement as often as it was sent to the region. -/
def expected (cfg : Configuration) (s : LogState) (m : MachineId) : LogItem → ℕ
  | .batch g position => if (g, position) ∈ s.sentBatches then 1 else 0
  | .localOrder slot => if (m.region, slot) ∈ s.decided then 1 else 0
  | .remoteOrder home slot =>
    if home ≠ m.region ∧ home < cfg.numRegions ∧ slot < s.announcedSlots home then 1 else 0
  | .ack id => (s.received.filter fun env => env.acknowledges m.region id).length

/-- A bound on the number of messages that are received. -/
def bound (cfg : Configuration) (s : LogState) : ℕ :=
  let items := s.sentBatches.length + s.decided.length + s.decided.length
  cfg.machines.length * (items + cfg.machines.length * items)

end LogState

namespace LogRun

variable {cfg : Configuration} (I : LogInput cfg)

def handle (cfg : Configuration) (s : LogState) (env : LogEnvelope) :
    Option (LogState × List LogEnvelope) :=
  ((s.nodes env.receiver).onInternalRequestReceived cfg env.receiver env).map fun r =>
    ({ s with
        nodes := Function.update s.nodes env.receiver r.1,
        received := s.received ++ [env] }, r.2)

/-- The messages with the data of a batch. -/
def batchMessages (g : MachineId) (position : ℕ) : List LogEnvelope :=
  (localMessages g position (I.batchAt g position)).map (fun mf => ⟨g, mf.1, .data mf.2⟩) ++
    sendAll g (remoteMessage cfg g position (I.batchAt g position)).1
      (.data (remoteMessage cfg g position (I.batchAt g position)).2)

/-- The order of a slot, which every learner hands to its own log manager. -/
def orderMessages (reg : RegionId) (slot : SlotId) : List LogEnvelope :=
  (cfg.getMembers reg).learners.map fun l =>
    ⟨l, l, .localOrder slot (I.order reg slot) (cfg.getMembers reg).electedLeader⟩

def init : LogRun := { state := {} }

/-- A machine sends the batch at a position, Paxos decides a slot of a region, or a message is
delivered.  A position of a machine and a slot of a region are used once. -/
def step (s : LogRun) : LogEvent → Option LogRun
  | .batch g position =>
    if cfg.IsMachine g ∧ (g, position) ∉ s.state.sentBatches then some {
      state := { s.state with sentBatches := s.state.sentBatches ++ [(g, position)] },
      inFlight := s.inFlight ++ batchMessages I g position }
    else none
  | .decide reg slot =>
    if reg < cfg.numRegions ∧ (reg, slot) ∉ s.state.decided then some {
      state := { s.state with decided := s.state.decided ++ [(reg, slot)] },
      inFlight := s.inFlight ++ orderMessages I reg slot }
    else none
  | .deliver i => Network.deliver (handle cfg) s i

/-- **Every item is received exactly once**, and nothing goes wrong: a machine never receives an
item too often, it has received everything when no message is in flight, the data that it receives
is that of its own partition, every message can be handled, and deliveries come to an end. -/
structure Disseminated (s : LogRun) : Prop where
  atMost : ∀ m, cfg.IsMachine m → ∀ it, s.state.timesReceived m it ≤ s.state.expected cfg m it
  exactly : s.inFlight = [] → ∀ m, cfg.IsMachine m → ∀ it,
    s.state.timesReceived m it = s.state.expected cfg m it
  ownPartition : ∀ env ∈ s.state.received, ∀ f, env.message = .data f →
    LogManager.myBatch cfg env.receiver env f = some
      { id := batchId f.generator (f.position + 1),
        transactions := I.content f.generator f.position env.receiver.partition }
  succeeds : ∀ i < s.inFlight.length, (step I s (.deliver i)).isSome
  ends : ∀ is s', Lts.run (Network.deliver (handle cfg)) s is = some s' →
    is.length ≤ s.state.bound cfg

end LogRun

/-! ## What a message reaches -/

/-- How often a message from `a` to `r` that is handed on by replica and partition reaches `m`. -/
def spread (a r m : MachineId) : ℕ :=
  if a.region ≠ r.region then if m.region = r.region then 1 else 0
  else if a.replica ≠ r.replica then if m.region = r.region ∧ m.replica = r.replica then 1 else 0
  else if m = r then 1 else 0

/-- The same for an order of Paxos, which is handed on from the first partition of a replica. -/
def spreadOrder (leader a r m : MachineId) : ℕ :=
  if leader.replica ≠ r.replica ∧ a.partition = r.partition then
    if m.region = r.region ∧ m.replica = r.replica then 1 else 0
  else if m = r then 1 else 0

def LogEnvelope.reaches (env : LogEnvelope) (m : MachineId) : ℕ :=
  match env.message with
  | .localOrder _ _ leader => spreadOrder leader env.sender env.receiver m
  | _ => spread env.sender env.receiver m

/-- How often a message brings an item to `m`. -/
def LogEnvelope.brings (it : LogItem) (m : MachineId) (env : LogEnvelope) : ℕ :=
  if env.message.item = it then env.reaches m else 0

theorem spread_self (a r : MachineId) : spread a r r = 1 := by
  rw [spread]
  split_ifs <;> simp_all

theorem spreadOrder_self (leader a r : MachineId) : spreadOrder leader a r r = 1 := by
  rw [spreadOrder]
  split_ifs <;> simp_all

theorem LogEnvelope.reaches_receiver (env : LogEnvelope) : env.reaches env.receiver = 1 := by
  obtain ⟨sender, receiver, message⟩ := env
  cases message <;> first | exact spread_self _ _ | exact spreadOrder_self _ _ _

section Parts

variable {cfg : Configuration} {r m : MachineId} (hm : cfg.IsMachine m)

include hm

theorem sum_otherPartitions (f : MachineId → ℕ)
    (hf : ∀ p, p ≠ r.partition → f { r with partition := p } =
      if m = { r with partition := p } then 1 else 0) :
    ((cfg.otherPartitions r).map f).sum =
      if m.region = r.region ∧ m.replica = r.replica ∧ m.partition ≠ r.partition then 1 else 0 := by
  obtain ⟨mg, mr, mp⟩ := m
  obtain ⟨rg, rr, rp⟩ := r
  have hmap : (cfg.otherPartitions ⟨rg, rr, rp⟩).map f =
      ((List.range cfg.numPartitions).filter fun p => p ≠ rp).map fun p =>
        if (⟨mg, mr, mp⟩ : MachineId) = ⟨rg, rr, p⟩ then 1 else 0 := by
    rw [Configuration.otherPartitions, map_map]
    refine map_congr_left fun p hp => ?_
    exact hf p (of_decide_eq_true (mem_filter.mp hp).2)
  rw [hmap, sum_indicator (nodup_range.filter _) _
    (a := mp) fun p hp => (congrArg MachineId.partition hp).symm]
  have hlt : mp < cfg.numPartitions := hm.partition
  simp only [mem_filter, mem_range, MachineId.mk.injEq, decide_eq_true_eq]
  congr 1
  simp [hlt]
  tauto

theorem sum_otherReplicas :
    ((cfg.otherReplicas r).map fun d => spread r d m).sum =
      if m.region = r.region ∧ m.replica ≠ r.replica then 1 else 0 := by
  obtain ⟨mg, mr, mp⟩ := m
  obtain ⟨rg, rr, rp⟩ := r
  have hmap : (cfg.otherReplicas ⟨rg, rr, rp⟩).map (fun d => spread ⟨rg, rr, rp⟩ d ⟨mg, mr, mp⟩) =
      ((List.range (cfg.numReplicas rg)).filter fun q => q ≠ rr).map fun q =>
        if mg = rg ∧ mr = q then 1 else 0 := by
    rw [Configuration.otherReplicas, map_map]
    refine map_congr_left fun q hq => ?_
    have hne : q ≠ rr := of_decide_eq_true (mem_filter.mp hq).2
    simp [spread, Ne.symm hne]
  rw [hmap, sum_indicator (nodup_range.filter _) _ (a := mr) fun q hq => hq.2.symm]
  by_cases hg : mg = rg
  · subst hg
    have hlt : mr < cfg.numReplicas mg := hm.replica
    simp [hlt]
  · simp [hg]

theorem sum_otherPartitions_spread :
    ((cfg.otherPartitions r).map fun d => spread r d m).sum =
      if m.region = r.region ∧ m.replica = r.replica ∧ m.partition ≠ r.partition then 1 else 0 :=
  sum_otherPartitions hm _ fun p _ => by simp [spread]

omit hm in
theorem MachineId.eq_iff : m = r ↔
    m.region = r.region ∧ m.replica = r.replica ∧ m.partition = r.partition := by
  obtain ⟨mg, mr, mp⟩ := m
  obtain ⟨rg, rr, rp⟩ := r
  exact MachineId.mk.injEq .. ▸ Iff.rfl

omit hm in
/-- A replica is a machine with the other partitions. -/
theorem replica_split : (if m.region = r.region ∧ m.replica = r.replica then 1 else 0) =
    (if m = r then 1 else 0) +
      if m.region = r.region ∧ m.replica = r.replica ∧ m.partition ≠ r.partition then 1 else 0 := by
  rw [if_congr MachineId.eq_iff rfl rfl]
  by_cases h1 : m.region = r.region <;> by_cases h2 : m.replica = r.replica <;>
    by_cases h3 : m.partition = r.partition <;> simp [h1, h2, h3]

/-- **Handing on splits what a message reaches** into its receiver and what the messages that are
sent reach. -/
theorem spread_split (a : MachineId) :
    spread a r m = (if m = r then 1 else 0) +
      ((if a.region ≠ r.region then (cfg.otherReplicas r).map fun d => spread r d m else []).sum +
      (if a.region ≠ r.region ∨ a.replica ≠ r.replica then
        (cfg.otherPartitions r).map fun d => spread r d m else []).sum) := by
  rw [spread]
  by_cases hg : a.region = r.region
  · by_cases hr : a.replica = r.replica
    · simp [hg, hr]
    · simp [hg, hr, sum_otherPartitions_spread hm, replica_split]
  · simp only [hg, ne_eq, not_false_eq_true, if_true, true_or, sum_otherPartitions_spread hm,
      sum_otherReplicas hm]
    rw [add_left_comm, ← replica_split]
    by_cases h1 : m.region = r.region <;> by_cases h2 : m.replica = r.replica <;> simp [h1, h2]

/-- The same for an order of Paxos. -/
theorem spreadOrder_split (leader a : MachineId) :
    spreadOrder leader a r m = (if m = r then 1 else 0) +
      (if leader.replica ≠ r.replica ∧ a.partition = r.partition then
        (cfg.otherPartitions r).map fun d => spreadOrder leader r d m else []).sum := by
  have hsum := sum_otherPartitions (r := r) hm (fun d => spreadOrder leader r d m)
    fun p hp => by simp [spreadOrder, Ne.symm hp]
  rw [spreadOrder]
  by_cases hl : leader.replica ≠ r.replica ∧ a.partition = r.partition
  · rw [if_pos hl, if_pos hl, hsum, replica_split]
  · rw [if_neg hl, if_neg hl]
    simp

end Parts

/-! ## Tallies of messages -/

/-- How often the messages of a list bring an item to `m`. -/
def tally (it : LogItem) (m : MachineId) (l : List LogEnvelope) : ℕ :=
  (l.map (LogEnvelope.brings it m)).sum

section Tally

variable {it : LogItem} {m : MachineId}

@[simp] theorem tally_nil : tally it m [] = 0 := rfl

@[simp] theorem tally_append (l l' : List LogEnvelope) :
    tally it m (l ++ l') = tally it m l + tally it m l' := by
  rw [tally, map_append, sum_append]
  rfl

@[simp] theorem tally_cons (env : LogEnvelope) (l : List LogEnvelope) :
    tally it m (env :: l) = env.brings it m + tally it m l := rfl

variable {l : List LogEnvelope}

theorem tally_perm {l' : List LogEnvelope} (h : l.Perm l') : tally it m l = tally it m l' :=
  (h.map _).sum_eq

theorem tally_flatMap {α : Type*} (f : α → List LogEnvelope) (l : List α) :
    tally it m (l.flatMap f) = (l.map fun a => tally it m (f a)).sum := by
  induction l with
  | nil => rfl
  | cons a l ih => rw [flatMap_cons, tally_append, ih, map_cons, sum_cons]

/-- Messages about another item do not count. -/
theorem tally_eq_zero (h : ∀ env ∈ l, env.message.item ≠ it) : tally it m l = 0 := by
  rw [tally, sum_eq_zero_iff]
  intro n hn
  obtain ⟨env, henv, rfl⟩ := mem_map.mp hn
  exact if_neg (h env henv)

/-- Messages about the item count as often as they reach the machine. -/
theorem tally_eq_sum (h : ∀ env ∈ l, env.message.item = it) :
    tally it m l = (l.map fun env => env.reaches m).sum :=
  congrArg List.sum (map_congr_left fun env henv => if_pos (h env henv))

theorem le_tally {env : LogEnvelope} (h : env ∈ l) : env.brings it m ≤ tally it m l :=
  single_le_sum (fun _ _ => Nat.zero_le _) _ (mem_map_of_mem h)

end Tally

/-- What the acknowledgement that a message leads to brings. -/
def LogEnvelope.ackBrings (it : LogItem) (m : MachineId) (env : LogEnvelope) : ℕ :=
  match env.message with
  | .remoteOrder _ id _ needAck =>
    tally it m (LogManager.ackOrder env.receiver env id needAck)
  | _ => 0

namespace LogManager

variable {cfg : Configuration} {r m : MachineId} {it : LogItem}

variable {env : LogEnvelope} {f : BatchForwarding}

theorem tally_handOn (hm : cfg.IsMachine m) (hr : env.receiver = r)
    (hreach : ∀ d, LogEnvelope.reaches ⟨r, d, env.message⟩ m = spread r d m)
    (henv : env.reaches m = spread env.sender r m) (hit : env.message.item = it) :
    (if m = r then 1 else 0) + tally it m (handOn cfg r env) = env.brings it m := by
  have hsum : ∀ dests : List MachineId, tally it m (sendAll r dests env.message) =
      (dests.map fun d => spread r d m).sum := by
    intro dests
    rw [tally_eq_sum (by
      intro e he
      obtain ⟨d, -, rfl⟩ := mem_map.mp he
      exact hit), sendAll, map_map]
    exact congrArg List.sum (map_congr_left fun d _ => hreach d)
  rw [LogEnvelope.brings, if_pos hit, henv, spread_split hm env.sender, handOn, tally_append]
  subst hr
  congr 2
  · by_cases hg : env.sender.region = env.receiver.region
    · simp [LogEnvelope.firstTimeRegion, hg]
    · simp [LogEnvelope.firstTimeRegion, hg, hsum]
  · by_cases hg : env.sender.region = env.receiver.region
    · by_cases hp : env.sender.replica = env.receiver.replica
      · simp [LogEnvelope.firstTimeReplica, LogEnvelope.firstTimeRegion, hg, hp]
      · simp [LogEnvelope.firstTimeReplica, LogEnvelope.firstTimeRegion, hg, hp, hsum]
    · simp [LogEnvelope.firstTimeReplica, LogEnvelope.firstTimeRegion, hg, hsum]

/-- The batches that are distributed go to the other partitions. -/
theorem map_receiver_distribute (hlen : f.batchData.length = cfg.numPartitions) :
    ((distribute r f).map LogEnvelope.receiver).Perm (cfg.otherPartitions r) := by
  have hsnd : (f.batchData.zipIdx.filter fun bp => bp.2 ≠ r.partition).map Prod.snd =
      (List.range cfg.numPartitions).filter fun p => p ≠ r.partition := by
    have hzip : f.batchData.zipIdx.map Prod.snd = List.range cfg.numPartitions := by
      rw [zipIdx_map_snd, hlen, range_eq_range']
    rw [← hzip, filter_map]
    rfl
  rw [distribute, map_map, Configuration.otherPartitions, ← hsnd, map_map,
    filter_reverse, map_reverse]
  exact reverse_perm _

theorem tally_data (hm : cfg.IsMachine m) (hr : env.receiver = r) (hf : env.message = .data f)
    (hlen : env.firstTimeReplica → f.batchData.length = cfg.numPartitions) (hit : env.message.item = it) :
    (if m = r then 1 else 0) + tally it m (handed cfg r env) = env.brings it m := by
  subst hr
  rw [← tally_handOn hm rfl (by rw [hf]; exact fun _ => rfl) (by rw [LogEnvelope.reaches, hf]) hit,
    handed, hf]
  dsimp only
  rw [tally_append, handOn, tally_append, hf]
  congr 2
  split_ifs with hfirst
  · -- what is distributed reaches what handing on would reach
    have hreach : ∀ l : List LogEnvelope, (∀ e ∈ l, e.sender = env.receiver ∧
        ∃ f' : BatchForwarding, f'.generator = f.generator ∧ f'.position = f.position ∧
          e.message = .data f') →
        tally it m l = ((l.map LogEnvelope.receiver).map fun d => spread env.receiver d m).sum := by
      intro l hl
      rw [tally_eq_sum, map_map]
      · refine congrArg List.sum (map_congr_left fun e he => ?_)
        obtain ⟨hsender, f', -, -, hmsg⟩ := hl e he
        rw [LogEnvelope.reaches, hmsg, ← hsender]
        rfl
      · intro e he
        obtain ⟨-, f', hg, hp, hmsg⟩ := hl e he
        rw [← hit, hf, hmsg, LogMessage.item, LogMessage.item, hg, hp]
    rw [hreach, hreach]
    · have hrec : (sendAll env.receiver (cfg.otherPartitions env.receiver) (.data f)).map
          LogEnvelope.receiver = cfg.otherPartitions env.receiver := by
        rw [sendAll, map_map]
        exact map_id _
      rw [hrec]
      exact ((map_receiver_distribute (hlen hfirst)).map _).sum_eq
    · intro e he
      obtain ⟨d, -, rfl⟩ := mem_map.mp he
      exact ⟨rfl, f, rfl, rfl, rfl⟩
    · intro e he
      obtain ⟨bp, -, rfl⟩ := mem_map.mp he
      exact ⟨rfl, { f with batchData := [bp.1] }, rfl, rfl, rfl⟩
  · rfl

theorem tally_localOrder (hm : cfg.IsMachine m) {sender : MachineId} {slot : SlotId}
    {g leader : MachineId} (hit : LogItem.localOrder slot = it) :
    (if m = r then 1 else 0) +
        tally it m (handed cfg r ⟨sender, r, .localOrder slot g leader⟩) =
      LogEnvelope.brings it m ⟨sender, r, .localOrder slot g leader⟩ := by
  have hbrings : LogEnvelope.brings it m ⟨sender, r, .localOrder slot g leader⟩ =
      spreadOrder leader sender r m := if_pos hit
  rw [hbrings, spreadOrder_split hm, handed]
  dsimp only
  congr 1
  split_ifs
  · rw [tally_eq_sum, sendAll, map_map]
    · rfl
    · intro e he
      obtain ⟨d, -, rfl⟩ := mem_map.mp he
      exact hit
  · rfl

/-- The messages that are handed on are about the same item, apart from an acknowledgement. -/
theorem item_of_mem_handed {e : LogEnvelope} (he : e ∈ handed cfg r env) :
    e.message.item = env.message.item ∨ ∃ slot id home needAck,
      env.message = .remoteOrder slot id home needAck ∧ e ∈ ackOrder r env id needAck := by
  have hsend : ∀ dests, e ∈ sendAll r dests env.message → e.message.item = env.message.item := by
    intro dests hmem
    obtain ⟨d, -, rfl⟩ := mem_map.mp hmem
    rfl
  have hhand : e ∈ handOn cfg r env → e.message.item = env.message.item := by
    intro hmem
    rcases mem_append.mp hmem with hmem | hmem <;> split_ifs at hmem
    · exact hsend _ hmem
    · cases hmem
    · exact hsend _ hmem
    · cases hmem
  rw [handed] at he
  split at he
  · exact .inl (hhand he)
  · next f hf =>
      left
      rcases mem_append.mp he with hmem | hmem <;> split_ifs at hmem
      · exact hsend _ hmem
      · cases hmem
      · obtain ⟨bp, -, rfl⟩ := mem_map.mp hmem
        rw [hf]
        rfl
      · cases hmem
  · left
    split_ifs at he
    · exact hsend _ he
    · cases he
  · next slot id home needAck hmsg =>
      rcases mem_append.mp he with hmem | hmem
      · exact .inr ⟨slot, id, home, needAck, hmsg, hmem⟩
      · exact .inl (hhand hmem)

/-- **What a message brings**, its receiver and the messages that it leads to bring. -/
theorem tally_handed (hm : cfg.IsMachine m) (hlen : ∀ f, env.message = .data f → env.firstTimeReplica →
      f.batchData.length = cfg.numPartitions) (it : LogItem) :
    (if m = env.receiver ∧ env.message.item = it then 1 else 0) +
        tally it m (handed cfg env.receiver env) = env.brings it m + env.ackBrings it m := by
  by_cases hit : env.message.item = it
  · simp only [hit, and_true]
    have hack : env.ackBrings it m = 0 := by
      rw [LogEnvelope.ackBrings]
      split
      · next slot id home needAck hmsg =>
          refine tally_eq_zero fun e he => ?_
          rw [ackOrder] at he
          split_ifs at he
          · rw [mem_singleton.mp he, ← hit, hmsg]
            exact LogItem.noConfusion
          · cases he
      · rfl
    rw [hack, add_zero]
    cases hmsg : env.message with
    | ack id =>
      rw [← tally_handOn hm rfl (by rw [hmsg]; exact fun _ => rfl)
        (by rw [LogEnvelope.reaches, hmsg]) hit, handed, hmsg]
    | data f => exact tally_data hm rfl hmsg (hlen f hmsg) hit
    | localOrder slot g leader =>
      obtain ⟨sender, receiver, message⟩ := env
      obtain rfl : message = .localOrder slot g leader := hmsg
      exact tally_localOrder hm hit
    | remoteOrder slot id home needAck =>
      rw [← tally_handOn hm rfl (by rw [hmsg]; exact fun _ => rfl)
        (by rw [LogEnvelope.reaches, hmsg]) hit, handed, hmsg]
      dsimp only
      rw [tally_append]
      rw [LogEnvelope.ackBrings, hmsg] at hack
      dsimp only at hack
      rw [hack, zero_add]
  · rw [if_neg fun h => hit h.2, zero_add, LogEnvelope.brings, if_neg hit, zero_add,
      LogEnvelope.ackBrings]
    split
    · next slot id home needAck hmsg =>
        rw [handed, hmsg]
        dsimp only
        rw [tally_append, add_eq_left]
        refine tally_eq_zero fun e he heq => hit ?_
        rcases mem_append.mp he with he | he <;> split_ifs at he <;>
          first | (cases he; done) | (obtain ⟨d, -, rfl⟩ := mem_map.mp he; exact heq)
    · next hmsg =>
        refine tally_eq_zero fun e he heq => ?_
        rcases item_of_mem_handed he with h | ⟨slot, id, home, needAck, h, -⟩
        · exact hit (h.symm.trans heq)
        · exact hmsg _ _ _ _ h

/-- The orders of a slot reach every machine of the other regions. -/
theorem tally_remoteOrders (hm : cfg.IsMachine m) (slot : SlotId) (id : BatchId) :
    tally it m (remoteOrders cfg r slot id) =
      if it = .remoteOrder r.region slot ∧ m.region ≠ r.region then 1 else 0 := by
  by_cases hit : it = .remoteOrder r.region slot
  · rw [tally_eq_sum, remoteOrders, map_map]
    · have hmap : ∀ reg ∈ (List.range cfg.numRegions).filter fun reg => reg ≠ r.region,
          ((fun env => LogEnvelope.reaches env m) ∘ fun reg => (⟨r, cfg.orderDestination r reg,
            .remoteOrder slot id r.region (cfg.needAckFromRegion r reg)⟩ : LogEnvelope)) reg =
          if m.region = reg then 1 else 0 := by
        intro reg hreg
        have hne : r.region ≠ reg := Ne.symm (of_decide_eq_true (mem_filter.mp hreg).2)
        exact if_pos hne
      rw [map_congr_left hmap, sum_indicator (nodup_range.filter _) _
        (a := m.region) fun b hb => hb.symm]
      simp [hit, hm.region]
    · intro e he
      obtain ⟨reg, -, rfl⟩ := mem_map.mp he
      exact hit.symm
  · rw [if_neg fun h => hit h.1]
    refine tally_eq_zero fun e he heq => hit ?_
    obtain ⟨reg, -, rfl⟩ := mem_map.mp he
    exact heq.symm

/-- The orders that are announced bring each slot once to every other region. -/
theorem tally_announced (O : RegionOrders cfg) (hm : cfg.IsMachine m) (n n' : ℕ) :
    tally it m (announced O r n n') =
      match it with
      | .remoteOrder home slot => if r = leaderOf r.region ∧ home = r.region ∧ m.region ≠ r.region ∧
          n ≤ slot ∧ slot < n' then 1 else 0
      | _ => 0 := by
  rw [announced]
  by_cases hr : r = leaderOf r.region
  · rw [if_pos hr, tally_flatMap]
    simp only [tally_remoteOrders hm]
    cases it with
    | remoteOrder home slot =>
      rw [sum_indicator nodup_range' _ (a := slot) fun s hs => by
        have := hs.1
        injection this with _ h2
        exact h2.symm]
      simp only [mem_range'_1, LogItem.remoteOrder.injEq]
      have harith : ∀ a b c : ℕ, (b ≤ a ∧ a < b + (c - b)) ↔ (b ≤ a ∧ a < c) := by omega
      have hslot := harith slot n n'
      exact if_congr (by tauto) rfl rfl
    | batch g k => simp
    | localOrder slot => simp
    | ack id => simp
  · rw [if_neg hr]
    cases it <;> simp [hr]

end LogManager

namespace LogRun

variable {cfg : Configuration} (I : LogInput cfg) {g m : MachineId} {it : LogItem}

theorem length_batchAt (g : MachineId) (k : ℕ) : (I.batchAt g k).length = cfg.numPartitions := by
  simp [LogInput.batchAt]

theorem item_batchMessages {k : ℕ} {env : LogEnvelope} (h : env ∈ batchMessages I g k) :
    env.message.item = .batch g k := by
  rcases mem_append.mp h with h | h
  · obtain ⟨mf, hmf, rfl⟩ := mem_map.mp h
    obtain ⟨bp, -, rfl⟩ := mem_map.mp hmf
    rfl
  · obtain ⟨d, -, rfl⟩ := mem_map.mp h
    rfl

/-- A batch is sent to the partitions of the replica of its generator. -/
theorem sum_localMessages (hm : cfg.IsMachine m) (g : MachineId) (k : ℕ) :
    (((localMessages g k (I.batchAt g k)).map
      fun mf => (⟨g, mf.1, .data mf.2⟩ : LogEnvelope)).map fun env => env.reaches m).sum =
      if m.region = g.region ∧ m.replica = g.replica then 1 else 0 := by
  obtain ⟨mg, mr, mp⟩ := m
  obtain ⟨gg, gr, gp⟩ := g
  have hmap : ((localMessages ⟨gg, gr, gp⟩ k (I.batchAt ⟨gg, gr, gp⟩ k)).map
      fun mf => (⟨⟨gg, gr, gp⟩, mf.1, .data mf.2⟩ : LogEnvelope)).map
        (fun env => env.reaches ⟨mg, mr, mp⟩) =
      ((I.batchAt ⟨gg, gr, gp⟩ k).zipIdx.map Prod.snd).map fun p =>
        if (⟨mg, mr, mp⟩ : MachineId) = ⟨gg, gr, p⟩ then 1 else 0 := by
    rw [localMessages, map_map, map_map, map_map]
    refine map_congr_left fun bp _ => ?_
    simp [LogEnvelope.reaches, spread]
  rw [hmap, zipIdx_map_snd, length_batchAt, ← range_eq_range',
    sum_indicator nodup_range _ (a := mp)
      fun p hp => (congrArg MachineId.partition hp).symm]
  have hlt : mp < cfg.numPartitions := hm.partition
  simp [hlt]

/-- One machine of every other region and of every other replica, in whatever partition, together
reach all machines outside of the replica. -/
theorem sum_spread_others (hm : cfg.IsMachine m) (g : MachineId) (p q : ℕ → ℕ) :
    (((List.range cfg.numRegions).flatMap fun reg =>
      if reg ≠ g.region then [(⟨reg, 0, p reg⟩ : MachineId)]
      else ((List.range (cfg.numReplicas g.region)).filter fun rep => rep ≠ g.replica).map
        fun rep => ⟨reg, rep, q rep⟩).map fun d => spread g d m).sum =
      if m.region ≠ g.region ∨ m.replica ≠ g.replica then 1 else 0 := by
  rw [map_flatMap, flatMap_def, sum_flatten, map_map]
  trans ((List.range cfg.numRegions).map fun reg =>
    if m.region = reg ∧ (m.region ≠ g.region ∨ m.replica ≠ g.replica) then 1 else 0).sum
  · refine congrArg List.sum (map_congr_left fun reg _ => ?_)
    rw [Function.comp_apply]
    by_cases hreg : reg ≠ g.region
    · rw [if_pos hreg]
      by_cases hmr : m.region = reg
      · simp [spread, Ne.symm hreg, hmr, hreg]
      · simp [spread, Ne.symm hreg, hmr]
    · obtain rfl : reg = g.region := not_not.mp hreg
      have hmap : ∀ rep ∈ (List.range (cfg.numReplicas g.region)).filter
          fun rep => rep ≠ g.replica,
          ((fun d => spread g d m) ∘ fun rep => (⟨g.region, rep, q rep⟩ : MachineId)) rep =
            if m.region = g.region ∧ m.replica = rep then 1 else 0 := by
        intro rep hrep
        have hne : g.replica ≠ rep := Ne.symm (of_decide_eq_true (mem_filter.mp hrep).2)
        simp [spread, hne]
      rw [if_neg hreg, map_map, map_congr_left hmap,
        sum_indicator (nodup_range.filter _) _ (a := m.replica) fun b hb => hb.2.symm]
      by_cases hmr : m.region = g.region
      · have hlt : m.replica < cfg.numReplicas g.region := hmr ▸ hm.replica
        simp [hmr, hlt]
      · simp [hmr]
  · rw [sum_indicator nodup_range _ (a := m.region) fun b hb => hb.1.symm]
    simp [hm.region]

theorem sum_batchDestinations (hm : cfg.IsMachine m) (g : MachineId) (k : ℕ) :
    ((batchDestinations cfg g k).map fun d => spread g d m).sum =
      if m.region ≠ g.region ∨ m.replica ≠ g.replica then 1 else 0 :=
  sum_spread_others hm g _ _

/-- **A batch is sent once to every machine.** -/
theorem tally_batchMessages (hm : cfg.IsMachine m) (g : MachineId) (k : ℕ) :
    tally it m (batchMessages I g k) = if it = .batch g k then 1 else 0 := by
  split_ifs with hit
  · rw [tally_eq_sum fun env henv => (item_batchMessages I henv).trans hit.symm, batchMessages,
      map_append, sum_append, sum_localMessages I hm, sendAll, map_map]
    have hremote := sum_batchDestinations hm g k
    rw [show ((fun env => LogEnvelope.reaches env m) ∘ fun d => (⟨g, d, .data
      (remoteMessage cfg g k (I.batchAt g k)).2⟩ : LogEnvelope)) = fun d => spread g d m from rfl]
    rw [remoteMessage, hremote]
    by_cases h1 : m.region = g.region <;> by_cases h2 : m.replica = g.replica <;> simp [h1, h2]
  · exact tally_eq_zero fun env henv heq => hit (heq.symm.trans (item_batchMessages I henv))

/-- **A slot is sent once to every machine of the region.** -/
theorem tally_orderMessages (hm : cfg.IsMachine m) (reg : RegionId) (slot : SlotId) :
    tally it m (orderMessages I reg slot) =
      if it = .localOrder slot ∧ m.region = reg then 1 else 0 := by
  have hitem : ∀ env ∈ orderMessages I reg slot, env.message.item = .localOrder slot := by
    intro env henv
    obtain ⟨l, -, rfl⟩ := mem_map.mp henv
    rfl
  by_cases hit : it = .localOrder slot
  · rw [tally_eq_sum fun env henv => (hitem env henv).trans hit.symm, orderMessages,
      map_map, Configuration.electedLeader_getMembers]
    obtain ⟨mg, mr, mp⟩ := m
    have hmap : (cfg.getMembers reg).learners.map
        ((fun env => LogEnvelope.reaches env ⟨mg, mr, mp⟩) ∘ fun l =>
          (⟨l, l, .localOrder slot (I.order reg slot) ⟨reg, 0, 0⟩⟩ : LogEnvelope)) =
        ((List.range cfg.numPartitions).map fun p =>
          if (⟨mg, mr, mp⟩ : MachineId) = ⟨reg, 0, p⟩ then 1 else 0) ++
        (((List.range (cfg.numReplicas reg)).filter fun rep => rep ≠ 0).map fun rep =>
          if mg = reg ∧ mr = rep then 1 else 0) := by
      rw [Configuration.getMembers, map_append, map_map, map_map]
      refine congrArg₂ (· ++ ·) (map_congr_left fun p _ => ?_)
        (map_congr_left fun rep hrep => ?_)
      · simp [LogEnvelope.reaches, spreadOrder]
      · have hne : 0 ≠ rep := Ne.symm (of_decide_eq_true (mem_filter.mp hrep).2)
        simp [LogEnvelope.reaches, spreadOrder, hne]
    rw [hmap, sum_append, sum_indicator nodup_range _ (a := mp)
        fun p hp => (congrArg MachineId.partition hp).symm,
      sum_indicator (nodup_range.filter _) _ (a := mr) fun b hb => hb.2.symm]
    have hp : mp < cfg.numPartitions := hm.partition
    by_cases hreg : mg = reg
    · subst hreg
      have hr : mr < cfg.numReplicas mg := hm.replica
      by_cases h0 : mr = 0 <;> simp [hit, hp, hr, h0]
    · simp [hreg]
  · rw [if_neg fun h => hit h.1]
    exact tally_eq_zero fun env henv heq => hit (heq.symm.trans (hitem env henv))

end LogRun

end Slog
