/-
# The batcher

The batcher of a machine collects transactions in batches, opens a new batch when the current
one is full, and hands all open batches over when its timer fires: each is proposed to the local
Paxos group, sent to the partitions of the same replica, and sent to the other replicas and
regions, possibly after a delay.  The position of a batch says how many batches the machine has
made before it.  The loop over the open batches ends at the first batch that is delayed.
-/
import Penteract.BatchLog
import Penteract.SubTransactions

namespace Slog

open List Option

/-- The message with the data of a batch: the partition of the receiver, or all partitions. -/
structure BatchForwarding where
  generator : MachineId
  position : ℕ
  batchData : List Batch
  deriving DecidableEq, Repr

/-- The other regions and the other replicas of the same region, with the partition that gets the
batch. -/
def batchDestinations (cfg : Configuration) (me : MachineId) (position : ℕ) : List MachineId :=
  (List.range cfg.numRegions).flatMap fun reg =>
    if reg ≠ me.region then
      [{ region := reg,
         replica := 0,
         partition := if cfg.sequencerRrr then position % cfg.numPartitions
           else (reg + cfg.numRegions - me.region) % cfg.numRegions % cfg.numPartitions }]
    else
      ((List.range (cfg.numReplicas me.region)).filter fun rep => rep ≠ me.replica).map fun rep =>
        { region := reg,
          replica := rep,
          partition := if cfg.sequencerRrr then position % cfg.numPartitions
            else (rep + cfg.numReplicas me.region - me.replica) % cfg.numReplicas me.region
              % cfg.numPartitions }

/-- An open batch has one batch for every partition. -/
abbrev PartitionedBatch := List Batch

/-- The messages with the data of a batch to the partitions of the same replica. -/
def localMessages (me : MachineId) (position : ℕ) (batch : PartitionedBatch) :
    List (MachineId × BatchForwarding) :=
  batch.zipIdx.map fun bp =>
    ({ me with partition := bp.2 }, { generator := me, position, batchData := [bp.1] })

/-- The message with the data of a batch to other replicas and regions. -/
def remoteMessage (cfg : Configuration) (me : MachineId) (position : ℕ)
    (batch : PartitionedBatch) : List MachineId × BatchForwarding :=
  (batchDestinations cfg me position, { generator := me, position, batchData := batch })

structure Batcher where
  batchIdCounter : ℕ := 0
  batches : List PartitionedBatch := []
  currentBatchSize : ℕ := 0
  totalBatchSize : ℕ := 0

/-- What the batcher has sent: proposals, data to the partitions of its replica, and data to
other replicas and regions, where delayed messages wait for their callbacks. -/
structure BatcherOutput where
  proposals : List MachineId := []
  localSent : List (MachineId × BatchForwarding) := []
  remoteSent : List (List MachineId × BatchForwarding) := []
  delayed : List (List MachineId × BatchForwarding) := []

namespace Batcher

variable (cfg : Configuration) (sh : Sharder) (me : MachineId)

def newBatch (b : Batcher) : Batcher :=
  { b with
    currentBatchSize := 0,
    batchIdCounter := b.batchIdCounter + 1,
    batches := b.batches ++
      [List.replicate cfg.numPartitions { id := batchId me (b.batchIdCounter + 1) }] }

def startOver (b : Batcher) : Batcher :=
  newBatch cfg me { b with totalBatchSize := 0, batches := [] }

/-- Add a part to the batch of its partition. -/
def addPart (batch : PartitionedBatch) (u : PartitionId × Transaction) : PartitionedBatch :=
  batch.modify u.1 fun b => { b with transactions := b.transactions ++ [u.2] }

/-- Put a transaction into the current batch, the last one. -/
def addTxn (b : Batcher) (t : Transaction) : Batcher :=
  { b with
    batches := b.batches.modify (b.batches.length - 1) fun batch =>
      (t.batchTxn sh me.region).foldl addPart batch,
    currentBatchSize := b.currentBatchSize + 1,
    totalBatchSize := b.totalBatchSize + 1 }

def batchTxn (b : Batcher) (t : Transaction) : Batcher :=
  let b := b.addTxn sh me t
  if 0 < cfg.sequencerBatchSize ∧ cfg.sequencerBatchSize ≤ b.currentBatchSize then
    newBatch cfg me b
  else b

/-- The loop of `SendBatches`.  `delays` are the outcomes of the draws, and the loop returns at
the first one that delays a batch. -/
def sendLoop : List PartitionedBatch → List Bool → ℕ → BatcherOutput → BatcherOutput
  | [], _, _, out => out
  | batch :: rest, delays, position, out =>
    let out := { out with
      proposals := out.proposals ++ [me],
      localSent := out.localSent ++ localMessages me position batch }
    let message := remoteMessage cfg me position batch
    if delays.headD false then { out with delayed := out.delayed ++ [message] }
    else sendLoop rest delays.tail (position + 1)
      { out with remoteSent := out.remoteSent ++ [message] }

def sendBatches (b : Batcher) (delays : List Bool) (out : BatcherOutput) : BatcherOutput :=
  sendLoop cfg me b.batches delays (b.batchIdCounter - b.batches.length) out

end Batcher

/-! ## Runs -/

inductive BatcherEvent where
  | txn (t : Transaction)
  | fire (delays : List Bool)
  | callback (i : ℕ)

/-- A batcher with its timer and what it has sent.  `batched` notes into which batch each
transaction was put. -/
structure BatcherRun where
  batcher : Batcher
  timer : Bool := false
  out : BatcherOutput := {}
  batched : List (Transaction × ℕ) := []

namespace BatcherRun

variable (cfg : Configuration) (sh : Sharder) (me : MachineId)

def init : BatcherRun := { batcher := Batcher.startOver cfg me {} }

def step (s : BatcherRun) : BatcherEvent → Option BatcherRun
  | .txn t =>
    some { s with
      batcher := s.batcher.batchTxn cfg sh me t,
      timer := s.timer || s.batcher.totalBatchSize + 1 == 1,
      batched := s.batched ++ [(t, s.batcher.batchIdCounter)] }
  | .fire delays =>
    if s.timer then
      some { s with
        batcher := s.batcher.startOver cfg me,
        timer := false,
        out := s.batcher.sendBatches cfg me delays s.out }
    else none
  | .callback i =>
    s.out.delayed[i]?.map fun message =>
      { s with out := { s.out with
          delayed := s.out.delayed.eraseIdx i,
          remoteSent := s.out.remoteSent ++ [message] } }

/-- Only the last open batch may be delayed. -/
def OnlyLastDelayed (s : BatcherRun) : BatcherEvent → Prop
  | .fire delays => ∀ i < s.batcher.batches.length - 1, delays[i]? ≠ some true
  | _ => True

instance (s : BatcherRun) : ∀ e, Decidable (s.OnlyLastDelayed e)
  | .fire delays =>
    inferInstanceAs (Decidable (∀ i < s.batcher.batches.length - 1, delays[i]? ≠ some true))
  | .txn _ => isTrue trivial
  | .callback _ => isTrue trivial

/-- The parts that the transactions of the batch with the given counter have in a partition. -/
def content (batched : List (Transaction × ℕ)) (counter : ℕ) (p : PartitionId) :
    List Transaction :=
  (batched.filter fun e => e.2 = counter).flatMap fun e =>
    ((e.1.batchTxn sh me.region).filter fun u => u.1 = p).map Prod.snd

/-- The batch at a position. -/
def batchAt (batched : List (Transaction × ℕ)) (position : ℕ) : PartitionedBatch :=
  (List.range cfg.numPartitions).map fun p =>
    { id := batchId me (position + 1), transactions := content sh me batched (position + 1) p }

/-- **The batcher loses nothing.**  The batches sent so far have the positions `0`, `1`, `2`, …;
each was proposed once, sent once to every partition of the replica, and is sent once, now or by
a callback, to its destinations, which are one machine in every other region and every other
replica.  A transaction is in one of these batches, or the timer that will send it is set. -/
structure Lossless (s : BatcherRun) : Prop where
  proposals : s.out.proposals = List.replicate s.out.proposals.length me
  localSent : s.out.localSent = (List.range s.out.proposals.length).flatMap fun position =>
    localMessages me position (batchAt cfg sh me s.batched position)
  remoteSent : (s.out.remoteSent ++ s.out.delayed).Perm
    ((List.range s.out.proposals.length).map fun position =>
      remoteMessage cfg me position (batchAt cfg sh me s.batched position))
  batched : ∀ e ∈ s.batched, 0 < e.2 ∧ (s.out.proposals.length < e.2 →
    s.timer ∧ ∀ delays, s.OnlyLastDelayed (.fire delays) → ∀ s',
      s.step cfg sh me (.fire delays) = some s' → e.2 ≤ s'.out.proposals.length)
  regions : ∀ position, ∀ reg < cfg.numRegions, reg ≠ me.region →
    ((batchDestinations cfg me position).filter fun m => m.region = reg).length = 1
  replicas : ∀ position, ∀ rep < cfg.numReplicas me.region, rep ≠ me.replica →
    ((batchDestinations cfg me position).filter fun m =>
      m.region = me.region ∧ m.replica = rep).length = 1

/-! ## One call -/

theorem addPart_map (n : ℕ) (f : ℕ → Batch) (u : PartitionId × Transaction) :
    Batcher.addPart ((List.range n).map f) u = (List.range n).map fun p =>
      if p = u.1 then { f p with transactions := (f p).transactions ++ [u.2] } else f p := by
  apply List.ext_getElem?
  intro i
  rw [Batcher.addPart, List.getElem?_modify, List.getElem?_map, List.getElem?_map]
  by_cases hi : i < n
  · rw [List.getElem?_range hi]
    by_cases hu : u.1 = i
    · simp [hu]
    · simp [hu, Ne.symm hu]
  · rw [List.getElem?_eq_none (by simpa using hi)]
    rfl

/-- The parts go to the batches of their partitions. -/
theorem foldl_addPart (n : ℕ) (f : ℕ → Batch) (us : List (PartitionId × Transaction)) :
    us.foldl Batcher.addPart ((List.range n).map f) = (List.range n).map fun p =>
      { f p with transactions :=
        (f p).transactions ++ (us.filter fun u => u.1 = p).map Prod.snd } := by
  induction us generalizing f with
  | nil => simp
  | cons u us ih =>
    rw [foldl_cons, addPart_map, ih]
    refine map_congr_left fun p _ => ?_
    by_cases hp : p = u.1
    · simp [hp]
    · simp [hp, Ne.symm hp]

/-- **Without an early return**, `SendBatches` handles all open batches. -/
theorem sendLoop_spec (bs : List PartitionedBatch) {delays : List Bool}
    (hdelays : ∀ i < bs.length - 1, delays[i]? ≠ some true) (position : ℕ) (out : BatcherOutput) :
    (Batcher.sendLoop cfg me bs delays position out).proposals =
        out.proposals ++ List.replicate bs.length me ∧
      (Batcher.sendLoop cfg me bs delays position out).localSent =
        out.localSent ++ (bs.zipIdx position).flatMap (fun bi => localMessages me bi.2 bi.1) ∧
      ((Batcher.sendLoop cfg me bs delays position out).remoteSent ++
        (Batcher.sendLoop cfg me bs delays position out).delayed).Perm
          (out.remoteSent ++ out.delayed ++
            (bs.zipIdx position).map fun bi => remoteMessage cfg me bi.2 bi.1) := by
  induction bs generalizing delays position out with
  | nil => simp [Batcher.sendLoop]
  | cons batch rest ih =>
    rw [Batcher.sendLoop]
    by_cases hhead : delays.headD false = true
    · -- the delayed batch is the last one
      have hrest : rest = [] := by
        by_contra hne
        have hlen : 0 < rest.length := length_pos_iff.mpr hne
        refine hdelays 0 (by simpa using hlen) ?_
        cases delays with
        | nil => simp at hhead
        | cons d ds => simpa using hhead
      subst hrest
      rw [if_pos hhead]
      simp [append_assoc]
    · rw [if_neg hhead]
      have htail : ∀ i < rest.length - 1, delays.tail[i]? ≠ some true := by
        intro i hi
        rw [List.getElem?_tail]
        exact hdelays (i + 1) (by simp only [length_cons]; omega)
      obtain ⟨h1, h2, h3⟩ := ih htail (position + 1) { out with
        proposals := out.proposals ++ [me],
        localSent := out.localSent ++ localMessages me position batch,
        remoteSent := out.remoteSent ++ [remoteMessage cfg me position batch] }
      refine ⟨?_, ?_, ?_⟩
      · rw [h1, append_assoc]
        rfl
      · rw [h2, append_assoc]
        rfl
      · refine h3.trans ?_
        rw [zipIdx_cons, map_cons]
        simp only [append_assoc, singleton_append]
        refine Perm.append_left _ ?_
        exact perm_middle.symm

/-! ## The invariant -/

structure Inv (s : BatcherRun) : Prop where
  counter : s.batcher.batchIdCounter = s.out.proposals.length + s.batcher.batches.length
  nonempty : 0 < s.batcher.batches.length
  batches : s.batcher.batches = (List.range s.batcher.batches.length).map fun i =>
    batchAt cfg sh me s.batched (s.out.proposals.length + i)
  bound : ∀ e ∈ s.batched, 0 < e.2 ∧ e.2 ≤ s.batcher.batchIdCounter
  total : ∀ e ∈ s.batched, s.out.proposals.length < e.2 → 0 < s.batcher.totalBatchSize
  timer : 0 < s.batcher.totalBatchSize → s.timer
  proposals : s.out.proposals = List.replicate s.out.proposals.length me
  localSent : s.out.localSent = (List.range s.out.proposals.length).flatMap fun position =>
    localMessages me position (batchAt cfg sh me s.batched position)
  remoteSent : (s.out.remoteSent ++ s.out.delayed).Perm
    ((List.range s.out.proposals.length).map fun position =>
      remoteMessage cfg me position (batchAt cfg sh me s.batched position))

variable {position reg : ℕ}

/-- A batch that nothing was put into. -/
theorem batchAt_of_lt {batched : List (Transaction × ℕ)} (h : ∀ e ∈ batched, e.2 < position + 1) :
    batchAt cfg sh me batched position =
      List.replicate cfg.numPartitions { id := batchId me (position + 1) } := by
  have hnil : batched.filter (fun e => e.2 = position + 1) = [] := by
    rw [filter_eq_nil_iff]
    intro e he heq
    exact absurd (of_decide_eq_true heq) (h e he).ne
  rw [batchAt]
  simp only [content, hnil, flatMap_nil]
  rw [map_const', List.length_range]

variable {sh me} in
/-- What a transaction adds to the batches. -/
theorem content_concat (batched : List (Transaction × ℕ)) (t : Transaction) (c k : ℕ)
    (p : PartitionId) :
    content sh me (batched ++ [(t, c)]) k p = content sh me batched k p ++
      if k = c then ((t.batchTxn sh me.region).filter fun u => u.1 = p).map Prod.snd else [] := by
  rw [content, content, filter_append, flatMap_append]
  congr 1
  by_cases hk : k = c
  · simp [hk]
  · simp [hk, Ne.symm hk]

theorem batchAt_concat_of_ne (batched : List (Transaction × ℕ)) (t : Transaction) {c : ℕ}
    (hne : position + 1 ≠ c) :
    batchAt cfg sh me (batched ++ [(t, c)]) position = batchAt cfg sh me batched position := by
  rw [batchAt, batchAt]
  refine map_congr_left fun p _ => ?_
  rw [content_concat, if_neg hne, append_nil]

theorem batchAt_concat_self (batched : List (Transaction × ℕ)) (t : Transaction) (position : ℕ) :
    batchAt cfg sh me (batched ++ [(t, position + 1)]) position =
      (t.batchTxn sh me.region).foldl Batcher.addPart (batchAt cfg sh me batched position) := by
  rw [batchAt, batchAt, foldl_addPart]
  refine map_congr_left fun p _ => ?_
  rw [content_concat, if_pos rfl]

namespace Inv

variable {cfg sh me} {s s' : BatcherRun}

theorem init : Inv cfg sh me (init cfg me) where
  counter := rfl
  nonempty := Nat.one_pos
  batches := congrArg (fun b => [b]) (batchAt_of_lt cfg sh me (by simp [BatcherRun.init])).symm
  bound := by simp [BatcherRun.init]
  total := by simp [BatcherRun.init]
  timer := by simp [BatcherRun.init, Batcher.startOver, Batcher.newBatch]
  proposals := rfl
  localSent := rfl
  remoteSent := by simp [BatcherRun.init]

/-- Opening a batch. -/
theorem newBatch (h : Inv cfg sh me s) :
    Inv cfg sh me { s with batcher := s.batcher.newBatch cfg me } := by
  have hlen : (s.batcher.newBatch cfg me).batches.length = s.batcher.batches.length + 1 := by
    simp [Batcher.newBatch]
  refine ⟨?_, by rw [hlen]; omega, ?_, fun e he => ?_, h.total, h.timer, h.proposals,
    h.localSent, h.remoteSent⟩
  · rw [hlen, ← add_assoc, ← h.counter]
    rfl
  · have hlt : ∀ e ∈ s.batched, e.2 < s.batcher.batchIdCounter + 1 := fun e he =>
      Nat.lt_succ_of_le (h.bound e he).2
    have hnew := batchAt_of_lt cfg sh me hlt
    dsimp only
    rw [hlen, range_succ, map_append, map_singleton, ← h.counter]
    exact congrArg₂ (· ++ ·) h.batches (congrArg (fun b => [b]) hnew.symm)
  · obtain ⟨hpos, hle⟩ := h.bound e he
    exact ⟨hpos, Nat.le_succ_of_le hle⟩

/-- A transaction is put into the current batch. -/
theorem addTxn (h : Inv cfg sh me s) (t : Transaction) :
    Inv cfg sh me { s with
      batcher := s.batcher.addTxn sh me t,
      timer := s.timer || s.batcher.totalBatchSize + 1 == 1,
      batched := s.batched ++ [(t, s.batcher.batchIdCounter)] } := by
  have hcounter := h.counter
  have hnonempty := h.nonempty
  have hlen : (s.batcher.addTxn sh me t).batches.length = s.batcher.batches.length := by
    simp [Batcher.addTxn]
  have hold : ∀ position ∈ List.range s.out.proposals.length,
      batchAt cfg sh me (s.batched ++ [(t, s.batcher.batchIdCounter)]) position =
        batchAt cfg sh me s.batched position := by
    intro position hlt
    rw [List.mem_range] at hlt
    exact batchAt_concat_of_ne cfg sh me _ t (by omega)
  refine ⟨by rw [hlen]; exact h.counter, by rw [hlen]; exact h.nonempty, ?_, fun e he => ?_,
    fun e he hlt => Nat.succ_pos _, fun _ => ?_, h.proposals, ?_, ?_⟩
  · -- only the last batch changes
    dsimp only
    rw [hlen]
    apply List.ext_getElem?
    intro i
    rw [Batcher.addTxn, List.getElem?_modify, h.batches, List.length_map, List.length_range,
      List.getElem?_map, List.getElem?_map]
    by_cases hi : i < s.batcher.batches.length
    · rw [List.getElem?_range hi, map_some, map_some]
      by_cases hlast : s.batcher.batches.length - 1 = i
      · have hpos : s.batcher.batchIdCounter = s.out.proposals.length + i + 1 := by omega
        rw [hpos, batchAt_concat_self]
        simp [hlast]
      · rw [batchAt_concat_of_ne cfg sh me _ t (by omega)]
        simp [hlast]
    · rw [List.getElem?_eq_none (by simpa using hi)]
      rfl
  · rcases mem_append.mp he with he | he
    · exact h.bound e he
    · rw [mem_singleton.mp he]
      exact ⟨by dsimp only; omega, le_rfl⟩
  · by_cases htotal : 0 < s.batcher.totalBatchSize
    · simp [h.timer htotal]
    · simp [Nat.eq_zero_of_not_pos htotal]
  · rw [h.localSent]
    exact (flatMap_congr fun position hp => by rw [hold position hp]).symm
  · refine h.remoteSent.trans (Perm.of_eq ?_)
    exact (map_congr_left fun position hp => by rw [hold position hp]).symm

theorem txn (h : Inv cfg sh me s) (t : Transaction) :
    Inv cfg sh me { s with
      batcher := s.batcher.batchTxn cfg sh me t,
      timer := s.timer || s.batcher.totalBatchSize + 1 == 1,
      batched := s.batched ++ [(t, s.batcher.batchIdCounter)] } := by
  rw [Batcher.batchTxn]
  split_ifs
  · exact (h.addTxn t).newBatch
  · exact h.addTxn t

/-- The open batches with their positions. -/
theorem zipIdx_batches (h : Inv cfg sh me s) :
    s.batcher.batches.zipIdx (s.batcher.batchIdCounter - s.batcher.batches.length) =
      ((List.range s.batcher.batches.length).map (s.out.proposals.length + ·)).map fun position =>
        (batchAt cfg sh me s.batched position, position) := by
  rw [h.counter, Nat.add_sub_cancel, List.map_map]
  apply List.ext_getElem?
  intro i
  rw [List.getElem?_zipIdx, h.batches, List.getElem?_map, List.getElem?_map, List.length_map,
    List.length_range, Option.map_map]
  by_cases hi : i < s.batcher.batches.length
  · rw [List.getElem?_range hi]
    rfl
  · rw [List.getElem?_eq_none (by simpa using hi)]
    rfl

variable {delays : List Bool}

/-- **The timer fires.**  All open batches are sent, and the counter is the number of the batches
sent. -/
theorem length_proposals_fire (h : Inv cfg sh me s) (hdelays : s.OnlyLastDelayed (.fire delays)) :
    (s.batcher.sendBatches cfg me delays s.out).proposals.length = s.batcher.batchIdCounter := by
  rw [Batcher.sendBatches, (sendLoop_spec cfg me _ hdelays _ _).1, length_append,
    length_replicate, h.counter]

theorem fire (h : Inv cfg sh me s) (hdelays : s.OnlyLastDelayed (.fire delays)) :
    Inv cfg sh me { s with
      batcher := s.batcher.startOver cfg me,
      timer := false,
      out := s.batcher.sendBatches cfg me delays s.out } := by
  have hlen := h.length_proposals_fire hdelays
  obtain ⟨hprop, hlocal, hremote⟩ := sendLoop_spec cfg me s.batcher.batches hdelays
    (s.batcher.batchIdCounter - s.batcher.batches.length) s.out
  rw [h.zipIdx_batches] at hlocal hremote
  have hnew := batchAt_of_lt cfg sh me fun e he => Nat.lt_succ_of_le (h.bound e he).2
  refine ⟨?_, Nat.one_pos, ?_, fun e he => ?_, fun e he hlt => ?_, fun htotal => ?_, ?_, ?_, ?_⟩
  · rw [hlen]
    rfl
  · rw [hlen]
    exact congrArg (fun b => [b]) hnew.symm
  · obtain ⟨hpos, hle⟩ := h.bound e he
    exact ⟨hpos, Nat.le_succ_of_le hle⟩
  · rw [hlen] at hlt
    exact absurd (h.bound e he).2 (not_le.mpr hlt)
  · exact absurd htotal (Nat.lt_irrefl 0)
  · rw [hlen, h.counter, replicate_add, ← h.proposals]
    exact hprop
  · rw [hlen, h.counter, range_add, flatMap_append, ← h.localSent]
    refine hlocal.trans ?_
    rw [flatMap_map]
  · rw [hlen, h.counter, range_add, map_append]
    refine hremote.trans ?_
    rw [List.map_map]
    exact h.remoteSent.append_right _

/-- A delayed batch is sent. -/
theorem callback (h : Inv cfg sh me s) {i : ℕ} {message : List MachineId × BatchForwarding}
    (hi : s.out.delayed[i]? = some message) :
    Inv cfg sh me { s with out := { s.out with
      delayed := s.out.delayed.eraseIdx i,
      remoteSent := s.out.remoteSent ++ [message] } } := by
  refine ⟨h.counter, h.nonempty, h.batches, h.bound, h.total, h.timer, h.proposals, h.localSent,
    Perm.trans ?_ h.remoteSent⟩
  obtain ⟨hlt, hget⟩ := List.getElem?_eq_some_iff.mp hi
  rw [append_assoc, singleton_append, ← hget]
  exact (getElem_cons_eraseIdx_perm hlt).append_left _

theorem step (h : Inv cfg sh me s) {e : BatcherEvent} (he : s.OnlyLastDelayed e)
    (hstep : s.step cfg sh me e = some s') : Inv cfg sh me s' := by
  cases e with
  | txn t =>
    rw [← Option.some.inj hstep]
    exact h.txn t
  | fire delays =>
    rw [BatcherRun.step] at hstep
    split_ifs at hstep
    rw [← Option.some.inj hstep]
    exact h.fire he
  | callback i =>
    obtain ⟨message, hi, rfl⟩ := map_eq_some_iff.mp hstep
    exact h.callback hi

end Inv

/-! ## Destinations -/

/-- In a list made of a block for every number, where the key of an element is the number of its
block, the elements with one key are the block of that key. -/
theorem filter_flatMap_range {α : Type} (n : ℕ) (f : ℕ → List α) (key : α → ℕ)
    (hkey : ∀ k, ∀ a ∈ f k, key a = k) {k : ℕ} (hk : k < n) :
    ((List.range n).flatMap f).filter (fun a => key a = k) = f k := by
  have hblock : ∀ j, (f j).filter (fun a => key a = k) = if j = k then f k else [] := by
    intro j
    split_ifs with hj
    · rw [hj, filter_eq_self]
      exact fun a ha => decide_eq_true (hkey k a ha)
    · rw [filter_eq_nil_iff]
      exact fun a ha hak => hj ((hkey j a ha).symm.trans (of_decide_eq_true hak))
  have hnone : ∀ m ≤ k, ((List.range m).flatMap f).filter (fun a => key a = k) = [] := by
    intro m hm
    rw [filter_flatMap, flatMap_eq_nil_iff]
    intro j hj
    rw [hblock, if_neg (by have := List.mem_range.mp hj; omega)]
  induction n with
  | zero => exact absurd hk (Nat.not_lt_zero k)
  | succ n ih =>
    rw [range_succ, flatMap_append, filter_append, flatMap_singleton, hblock]
    split_ifs with hn
    · rw [hnone n hn.le, nil_append]
    · rw [ih (by omega), append_nil]

theorem filter_batchDestinations (position : ℕ) (hreg : reg < cfg.numRegions) :
    (batchDestinations cfg me position).filter (fun m => m.region = reg) =
      if reg ≠ me.region then
        [{ region := reg, replica := 0,
           partition := if cfg.sequencerRrr then position % cfg.numPartitions
             else (reg + cfg.numRegions - me.region) % cfg.numRegions % cfg.numPartitions }]
      else ((List.range (cfg.numReplicas me.region)).filter fun rep => rep ≠ me.replica).map
        fun rep =>
          { region := reg, replica := rep,
            partition := if cfg.sequencerRrr then position % cfg.numPartitions
              else (rep + cfg.numReplicas me.region - me.replica) % cfg.numReplicas me.region
                % cfg.numPartitions } := by
  refine filter_flatMap_range cfg.numRegions _ MachineId.region (fun reg m hm => ?_) hreg
  by_cases hne : reg ≠ me.region
  · rw [if_pos hne] at hm
    rw [mem_singleton.mp hm]
  · rw [if_neg hne] at hm
    obtain ⟨rep, -, rfl⟩ := mem_map.mp hm
    rfl

theorem length_regions (position : ℕ) (hreg : reg < cfg.numRegions) (hne : reg ≠ me.region) :
    ((batchDestinations cfg me position).filter fun m => m.region = reg).length = 1 := by
  rw [filter_batchDestinations cfg me position hreg, if_pos hne]
  rfl

theorem length_replicas (hme : cfg.IsMachine me) (position : ℕ) {rep : ℕ}
    (hrep : rep < cfg.numReplicas me.region) (hne : rep ≠ me.replica) :
    ((batchDestinations cfg me position).filter fun m =>
      m.region = me.region ∧ m.replica = rep).length = 1 := by
  have hsplit : ∀ l : List MachineId,
      l.filter (fun m => m.region = me.region ∧ m.replica = rep) =
        (l.filter fun m => m.region = me.region).filter fun m => m.replica = rep := by
    intro l
    rw [List.filter_filter]
    exact List.filter_congr fun m _ => by rw [Bool.decide_and, Bool.and_comm]
  rw [hsplit, filter_batchDestinations cfg me position hme.region, if_neg (not_not.mpr rfl),
    List.filter_map, List.length_map]
  have hone : ((List.range (cfg.numReplicas me.region)).filter fun rep => rep ≠ me.replica).filter
      (fun r => r = rep) = [rep] := by
    have hmem : rep ∈ (List.range (cfg.numReplicas me.region)).filter fun rep =>
        rep ≠ me.replica :=
      List.mem_filter.mpr ⟨List.mem_range.mpr hrep, decide_eq_true hne⟩
    refine (List.filter_beq _).trans ?_
    rw [List.count_eq_one_of_mem (List.nodup_range.filter _) hmem]
    rfl
  exact congrArg List.length hone

/-! ## The batcher -/

/-- **The batcher loses nothing** in a run in which only the last open batch is delayed. -/
theorem lossless_of_onlyLastDelayed (hme : cfg.IsMachine me) {events : List BatcherEvent}
    {s : BatcherRun}
    (hmeets : Lts.Meets (step cfg sh me) OnlyLastDelayed (init cfg me) events)
    (hrun : Lts.run (step cfg sh me) (init cfg me) events = some s) : s.Lossless cfg sh me := by
  have h : Inv cfg sh me s := Lts.invariant_meets (step cfg sh me) Inv.init
    (fun _ _ _ _ h he hstep => h.step he hstep) hmeets hrun
  refine ⟨h.proposals, h.localSent, h.remoteSent, fun e he => ?_,
    fun position reg hreg hne => length_regions cfg me position hreg hne,
    fun position rep hrep hne => length_replicas cfg me hme position hrep hne⟩
  obtain ⟨hpos, hle⟩ := h.bound e he
  refine ⟨hpos, fun hlt => ⟨h.timer (h.total e he hlt), fun delays hdelays s' hstep => ?_⟩⟩
  rw [step] at hstep
  split_ifs at hstep
  rw [← Option.some.inj hstep]
  exact hle.trans (h.length_proposals_fire hdelays).ge

/-- Two regions with one machine each, and batches of one transaction. -/
theorem two_le_regionIds : 2 ≤ 2 ^ kRegionIdBits := by decide

def twoRegions : Configuration where
  numRegions := 2
  numReplicas _ := 1
  numPartitions := 1
  sequencerBatchSize := 1
  numPartitions_pos := Nat.one_pos
  numReplicas_pos _ := Nat.one_pos
  replicationFactor_pos := Nat.one_pos
  numRegions_le := two_le_regionIds
  numReplicas_le _ := Nat.one_le_two_pow
  numPartitions_le := Nat.one_le_two_pow

def writeA (id : TxnId) : Transaction :=
  { internal := { id, type := .singleHome, involvedPartitions := [0], involvedRegions := [0] },
    keys := [{ key := "A", type := .write, metadata := some { master := 0 } }] }

/-- The last of the open batches is delayed and sent by its callback. -/
def lastDelayed : List BatcherEvent :=
  [.txn (writeA 1), .txn (writeA 2), .fire [false, false, true], .callback 0]

theorem lossless_lastDelayed :
    ∃ s, Lts.run (step twoRegions ForwardedTxn.oneShard ⟨0, 0, 0⟩) (init twoRegions ⟨0, 0, 0⟩)
        lastDelayed = some s ∧ s.out.remoteSent.length = 3 ∧
      s.Lossless twoRegions ForwardedTxn.oneShard ⟨0, 0, 0⟩ := by
  refine Lts.exists_run (p := fun s => s.out.remoteSent.length = 3) (by decide +kernel) ?_
  intro s hs hlen
  refine ⟨hlen, lossless_of_onlyLastDelayed twoRegions ForwardedTxn.oneShard _
    ⟨by decide, by decide, by decide⟩ ?_ hs⟩
  exact of_decide_eq_true (by decide +kernel)

/-- **The batches after a delayed one are lost**: the second transaction is in no batch that is
sent, and no timer will send it. -/
theorem not_lossless_firstDelayed :
    ∃ s, Lts.run (step twoRegions ForwardedTxn.oneShard ⟨0, 0, 0⟩) (init twoRegions ⟨0, 0, 0⟩)
        [.txn (writeA 1), .txn (writeA 2), .fire [true]] = some s ∧
      (writeA 2, 2) ∈ s.batched ∧ s.out.proposals.length = 1 ∧ s.timer = false ∧
      ¬ s.Lossless twoRegions ForwardedTxn.oneShard ⟨0, 0, 0⟩ := by
  refine Lts.exists_run (p := fun s => (writeA 2, 2) ∈ s.batched ∧ s.out.proposals.length = 1 ∧
    s.timer = false) (by decide +kernel) ?_
  rintro s - ⟨hmem, hlen, htimer⟩
  refine ⟨hmem, hlen, htimer, fun hloss => ?_⟩
  have hset := ((hloss.batched _ hmem).2 (by rw [hlen]; decide)).1
  rw [htimer] at hset
  cases hset

end BatcherRun

end Slog
