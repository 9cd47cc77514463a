/-
# The schedulers of all partitions

The partitions of a region run their schedulers side by side.  Each transaction is committed with the
same dependencies at all partitions that take part in it, at any time and in any order.  The messages
between the schedulers are delivered in any order.  A worker reads its storage for the transactions
dispatched to it, one after the other; it goes on to the next one while a transaction waits for what
the other partitions have read.
-/
import Penteract.JanusScheduler

namespace Janus

open Slog

/-- The committed transactions, with the partitions that take part in them and their dependencies.
The dependencies of a transaction name the participants of the transactions that it depends on, as
bits of a machine word, and one of them to ask.  The counters of the transaction ids start from
one. -/
structure Workload where
  numPartitions : ℕ
  numWorkers : ℕ
  participants : TxnId → List PartitionId
  deps : TxnId → List JanusDependency
  order : PartitionId → TxnId → List TxnId → List TxnId
  numPartitions_le : numPartitions ≤ 31
  numWorkers_pos : 0 < numWorkers
  participants_lt : ∀ id, ∀ p ∈ participants id, p < numPartitions
  counter_pos : ∀ id, participants id ≠ [] → 0 < TxnHorizon.getCounter id
  bitmap : ∀ id, ∀ dep ∈ deps id, ∀ p < numPartitions,
    dep.participantsBitmap.testBit p = decide (p ∈ participants dep.txnId)
  target : ∀ id, ∀ dep ∈ deps id, dep.targetPartition ∈ participants dep.txnId
  order_perm : ∀ p id l, (order p id l).Perm l

namespace Workload

def config (w : Workload) (p : PartitionId) : SchedulerConfig where
  localPartition := p
  numPartitions := w.numPartitions
  numWorkers := w.numWorkers
  order := w.order p

def DependsOn (w : Workload) (x y : TxnId) : Prop := ∃ dep ∈ w.deps x, dep.txnId = y

/-- `x` is `y`, or depends on it transitively. -/
def Reaches (w : Workload) : TxnId → TxnId → Prop := Relation.ReflTransGen w.DependsOn

end Workload

/-- `committed`, `taken`, `finished` and `completed` are, for each partition, the transactions whose
commit has arrived, for which a worker has read the storage, which a worker has executed, and which
the scheduler knows to be executed. -/
structure Cluster where
  schedulers : PartitionId → Scheduler := fun _ => {}
  network : List Envelope := []
  committed : PartitionId → List TxnId := fun _ => []
  taken : PartitionId → List TxnId := fun _ => []
  finished : PartitionId → List TxnId := fun _ => []
  completed : PartitionId → List TxnId := fun _ => []

inductive ClusterEvent where
  | commit (p : PartitionId) (id : TxnId)
  | deliver (i : ℕ)
  | take (p : PartitionId) (worker : ℕ)
  | finish (p : PartitionId) (id : TxnId)
  | complete (p : PartitionId) (id : TxnId)
  deriving DecidableEq, Repr

namespace Cluster

variable (w : Workload)

/-- A scheduler has handled something; what it sends goes into the network. -/
def setScheduler (s : Cluster) (p : PartitionId) (scheduler : Scheduler) : Cluster :=
  { s with
    schedulers := Function.update s.schedulers p { scheduler with sent := [] }
    network := s.network ++ scheduler.sent }

def handle (s : Cluster) : Envelope → Option Cluster
  | .inquire sender receiver ids =>
    some (s.setScheduler receiver ((s.schedulers receiver).processInquiry sender ids))
  | .answer receiver results =>
    ((s.schedulers receiver).onInternalResponseReceived (w.config receiver) results).map
      (s.setScheduler receiver)

/-- What was sent to a worker, in this order. -/
def queue (s : Cluster) (p : PartitionId) (worker : ℕ) : List TxnId :=
  ((s.schedulers p).dispatched.filter (·.1 = worker)).map Prod.snd

/-- The worker executes a transaction of this partition alone, without going on to the next. -/
def busy (s : Cluster) (p : PartitionId) (worker : ℕ) : Bool :=
  (s.queue p worker).any fun id =>
    id ∈ s.taken p && id ∉ s.finished p && (w.participants id).length = 1

/-- The transaction that the worker takes next. -/
def next (s : Cluster) (p : PartitionId) (worker : ℕ) : Option TxnId :=
  if s.busy w p worker then none else (s.queue p worker).find? (· ∉ s.taken p)

def step (s : Cluster) : ClusterEvent → Option Cluster
  | .commit p id =>
    if p ∈ w.participants id ∧ id ∉ s.committed p then
      ((s.schedulers p).processTransaction (w.config p) id (w.deps id)).map fun scheduler =>
        { s.setScheduler p scheduler with
          committed := Function.update s.committed p (id :: s.committed p) }
    else none
  | .deliver i =>
    (s.network[i]?).bind fun envelope =>
      ({ s with network := s.network.eraseIdx i } : Cluster).handle w envelope
  | .take p worker =>
    (s.next w p worker).map fun id =>
      { s with taken := Function.update s.taken p (id :: s.taken p) }
  | .finish p id =>
    -- the reads of all partitions that take part have been broadcast
    if id ∈ s.taken p ∧ id ∉ s.finished p ∧ ∀ q ∈ w.participants id, id ∈ s.taken q then
      some { s with finished := Function.update s.finished p (id :: s.finished p) }
    else none
  | .complete p id =>
    if id ∈ s.finished p ∧ id ∉ s.completed p then
      some { s.setScheduler p ((s.schedulers p).onCustomSocket id) with
        completed := Function.update s.completed p (id :: s.completed p) }
    else none

end Cluster

end Janus
