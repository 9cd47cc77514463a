/-
# The Janus scheduler of a partition

The scheduler gets the committed transactions of its partition with their dependencies.  It asks
other partitions for the dependencies of transactions that its partition takes no part in.  From
each new vertex it searches for components and dispatches what it finds: the local transactions
go to the workers in turn, the others count as executed.  A vertex whose search met missing
dependencies is filed under each of them and counts them; when one of them has been dispatched, the
count goes down, and at zero the search starts again.
-/
import Penteract.JanusBitmap
import Penteract.JanusRounds

namespace Janus

open Slog

inductive InquiryResult where
  | executed (id : TxnId)
  | pending (id : TxnId) (deps : List JanusDependency)
  deriving DecidableEq, Repr

/-- The messages between the schedulers. -/
inductive Envelope where
  | inquire (sender receiver : PartitionId) (ids : List TxnId)
  | answer (receiver : PartitionId) (results : List InquiryResult)
  deriving DecidableEq, Repr

/-- For each missing transaction, those that wait for it. -/
abbrev PendingIndex := AssocMap TxnId (List TxnId)

namespace PendingIndex

/-- The second component says whether the ancestor is new. -/
def add (index : PendingIndex) (ancestor descendant : TxnId) : PendingIndex × Bool :=
  match index.lookup ancestor with
  | none => (index.insert ancestor [descendant], true)
  | some descendants => (index.insert ancestor (descendants.insert descendant), false)

def remove (index : PendingIndex) (ancestor : TxnId) : Option (List TxnId) × PendingIndex :=
  (index.lookup ancestor, index.erase ancestor)

end PendingIndex

/-- `order` is the order in which the transactions that wait for one are gone through; they are kept
in a hash set. -/
structure SchedulerConfig where
  localPartition : PartitionId
  numPartitions : ℕ
  numWorkers : ℕ
  order : TxnId → List TxnId → List TxnId

/-- `dispatched` are the transactions handed to the workers, with the worker, in this order; `sent`
are the messages of the current step.  `misled` records that in a search a vertex that is marked as
being on the stack and is not on it lowered a low number. -/
structure Scheduler where
  txns : List TxnId := []
  graph : Graph := ∅
  horizon : TxnHorizon := ∅
  pendingTxns : PendingIndex := ∅
  pendingInquiries : AssocMap TxnId (List PartitionId) := ∅
  currentWorker : ℕ := 0
  dispatched : List (ℕ × TxnId) := []
  sent : List Envelope := []
  misled : Bool := false

namespace Scheduler

variable (c : SchedulerConfig)

/-! ## Dispatching -/

def dispatchTxn (s : Scheduler) (m : TxnId × Bool) : Option Scheduler :=
  if m.2 then
    if m.1 ∈ s.txns then
      some { s with
        txns := s.txns.erase m.1
        dispatched := s.dispatched ++ [(s.currentWorker, m.1)]
        currentWorker := (s.currentWorker + 1) % c.numWorkers }
    else none
  else some { s with graph := s.graph.erase m.1, horizon := s.horizon.add m.1 }

def dispatchSCCs (s : Scheduler) (sccs : List SCC) : Option Scheduler :=
  sccs.foldlM (fun s scc => scc.foldlM (dispatchTxn c) s) s

/-! ## Missing dependencies -/

/-- File `v` under a missing dependency; the list are the transactions to ask for, with the
partitions to ask. -/
def addPending (v : TxnId) (acc : PendingIndex × List (PartitionId × TxnId))
    (dep : JanusDependency) : PendingIndex × List (PartitionId × TxnId) :=
  let (index, isNew) := acc.1.add dep.txnId v
  (index,
    if isNew && !takesPart dep.participantsBitmap c.localPartition then
      acc.2 ++ [(dep.targetPartition, dep.txnId)]
    else acc.2)

/-- One message for each partition that is asked something. -/
def inquiries (asked : List (PartitionId × TxnId)) : List Envelope :=
  (List.range c.numPartitions).filterMap fun p =>
    match (asked.filter (·.1 = p)).map Prod.snd with
    | [] => none
    | ids => some (.inquire c.localPartition p ids)

/-- The last vertex that became ready comes first in `ready`.  The third component are the vertices
that were visited and are not ready. -/
def findAndResolveSCCs (s : Scheduler) (v : TxnId) (ready : List TxnId) :
    Option (Scheduler × List TxnId × List TxnId) :=
  (findRound s.horizon.contains s.graph v).bind fun finder =>
    let (graph, result) := finder.finalize
    let (pendingTxns, asked) := result.missingDeps.foldl (addPending c v) (s.pendingTxns, [])
    let s := { s with
      graph := AssocMap.modify graph v fun x => { x with missingDeps := result.missingDeps.length }
      pendingTxns
      sent := s.sent ++ inquiries c asked
      misled := s.misled || finder.stale }
    (dispatchSCCs c s result.sccs).map fun s =>
      (s, (result.sccs.flatten.map Prod.fst).reverse ++ ready, result.unready)

/-- One of the missing dependencies of `id` is ready. -/
def countDown (s : Scheduler) (id : TxnId) : Scheduler :=
  { s with
    graph := AssocMap.modify s.graph id fun x => { x with missingDeps := x.missingDeps - 1 } }

/-- The body of the inner loop of `CheckPendingTxns`. -/
def checkPendingTxn (acc : Scheduler × List TxnId × List TxnId) (id : TxnId) :
    Option (Scheduler × List TxnId × List TxnId) :=
  let (s, ready, unready) := acc
  match s.graph.lookup id with
  | none => some (s, ready, unready)
  | some vertex =>
    if vertex.disc ≠ 0 then some (s, ready, unready)
    else if id ∈ unready ∨ 0 < vertex.missingDeps - 1 then some (s.countDown id, ready, unready)
    else
      (findAndResolveSCCs c (s.countDown id) id ready).map fun (s, ready, newUnready) =>
        (s, ready, unready ++ newUnready)

/-- `CheckPendingTxns`, with a bound on the iterations. -/
def checkPendingTxns : ℕ → Scheduler → List TxnId → Option Scheduler
  | 0, _, _ => none
  | _ + 1, s, [] => some s
  | bound + 1, s, id :: ready =>
    match s.pendingTxns.remove id with
    | (none, _) => checkPendingTxns bound s ready
    | (some pending, pendingTxns) =>
      ((c.order id pending).foldlM (checkPendingTxn c)
        ({ s with pendingTxns }, ready, [])).bind fun (s, ready, _) =>
          checkPendingTxns bound s ready

/-- Every vertex becomes ready once, so that this many iterations are enough. -/
def wakeUp (s : Scheduler) (ready : List TxnId) : Option Scheduler :=
  checkPendingTxns c (ready.length + s.graph.entries.length + 1) s ready

/-- The search from a new vertex, and from those that it makes ready. -/
def resolve (s : Scheduler) (v : TxnId) : Option Scheduler :=
  (findAndResolveSCCs c s v []).bind fun (s, ready, _) => wakeUp c s ready

/-! ## The handlers -/

/-- One iteration of the loop of `ProcessInquiry`. -/
def inquireTxn (sender : PartitionId) (acc : Scheduler × List InquiryResult) (id : TxnId) :
    Scheduler × List InquiryResult :=
  let (s, results) := acc
  match s.graph.lookup id with
  | none =>
    if s.horizon.contains id then (s, results ++ [.executed id])
    else
      ({ s with
        pendingInquiries := s.pendingInquiries.insert id
          ((s.pendingInquiries.lookup id).getD [] ++ [sender]) }, results)
  | some vertex => (s, results ++ [.pending id vertex.deps])

def processInquiry (s : Scheduler) (sender : PartitionId) (ids : List TxnId) : Scheduler :=
  let (s, results) := ids.foldl (inquireTxn sender) (s, [])
  if results = [] then s else { s with sent := s.sent ++ [.answer sender results] }

/-- `CheckPendingInquiry`, for a transaction that is in the graph. -/
def checkPendingInquiry (s : Scheduler) (id : TxnId) : Scheduler :=
  match s.pendingInquiries.lookup id with
  | none => s
  | some senders =>
    let s := senders.foldl (fun s sender => s.processInquiry sender [id]) s
    { s with pendingInquiries := s.pendingInquiries.erase id }

def processTransaction (s : Scheduler) (id : TxnId) (deps : List JanusDependency) :
    Option Scheduler :=
  if id ∈ s.graph then none
  else
    let s := { s with
      txns := s.txns.insert id
      graph := s.graph.insert id { txnId := id, isLocal := true, deps } }
    resolve c (s.checkPendingInquiry id) id

/-- One iteration of the loop of `OnInternalResponseReceived`. -/
def onInquiryResult (s : Scheduler) : InquiryResult → Option Scheduler
  | .executed id => wakeUp c { s with horizon := s.horizon.add id } [id]
  | .pending id deps =>
    resolve c
      { s with
        graph := AssocMap.insertNew s.graph id { txnId := id, isLocal := false, deps } } id

def onInternalResponseReceived (s : Scheduler) (results : List InquiryResult) :
    Option Scheduler :=
  results.foldlM (onInquiryResult c) s

/-- A worker has finished a transaction. -/
def onCustomSocket (s : Scheduler) (id : TxnId) : Scheduler :=
  { s with horizon := s.horizon.add id, graph := s.graph.erase id }

end Scheduler

end Janus
