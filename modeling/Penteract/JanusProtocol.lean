/-
# Acceptors and coordinators of Janus

A coordinator sends a new transaction to the acceptors of its partitions in all regions.  An
acceptor answers with the latest writer of each of the transaction's keys that it has seen.  The
coordinator collects the answers of every partition: as long as they agree it waits for all regions,
and once two of them differ it takes the union of what half of the regions have answered, rounded
up, and lets the acceptors accept it before it commits.
-/
import Penteract.JanusBitmap
import Penteract.Lib.Run
import Penteract.SubTransactions

namespace Janus

open Function Slog

/-- A transaction and the bitmap of its partitions. -/
abbrev Dependency := TxnId × ℕ

/-- The machine of a region that has a partition. -/
abbrev Machine := RegionId × PartitionId

inductive Phase where
  | preAccept
  | accept
  deriving DecidableEq, Repr

/-! ## Acceptors -/

structure AcceptorTxnInfo where
  txn : Transaction
  phase : Phase := .preAccept
  highestBallot : ℕ := 0
  deriving DecidableEq, Repr

structure Acceptor where
  txns : TxnId → Option AcceptorTxnInfo := fun _ => none
  latestWritingTxns : Key → Option Dependency := fun _ => none

/-- A map from transactions to bitmaps keeps what was inserted first. -/
def insertDep (deps : List Dependency) (d : Dependency) : List Dependency :=
  if d.1 ∈ deps.map Prod.fst then deps else deps ++ [d]

/-- One iteration of the loop of `ProcessPreAccept` over the keys. -/
def collectDep (sh : Sharder) (p : PartitionId) (self : Dependency)
    (s : List Dependency × (Key → Option Dependency)) (kv : KeyValueEntry) :
    List Dependency × (Key → Option Dependency) :=
  if sh.computePartition kv.key = some p then
    (match s.2 kv.key with
      | some d => insertDep s.1 d
      | none => s.1,
    if kv.type = .write then update s.2 kv.key (some self) else s.2)
  else s

/-- `ProcessPreAccept`: the new state and the dependencies, if the ballot is not too low. -/
def Acceptor.processPreAccept (sh : Sharder) (p : PartitionId) (a : Acceptor) (t : Transaction)
    (ballot : ℕ) : Acceptor × Option (List Dependency) :=
  let info := (a.txns t.id).getD { txn := t }
  if ballot < info.highestBallot then (a, none)
  else
    let r := t.keys.foldl (collectDep sh p (t.id, participantsBitmap t)) ([], a.latestWritingTxns)
    ({ txns := update a.txns t.id (some { info with highestBallot := ballot }),
       latestWritingTxns := r.2 }, some r.1)

/-- `ProcessAccept`: whether the acceptor knows the transaction and the ballot is not too low. -/
def Acceptor.processAccept (a : Acceptor) (id : TxnId) (ballot : ℕ) : Acceptor × Bool :=
  match a.txns id with
  | none => (a, false)
  | some info =>
    if ballot < info.highestBallot then (a, false)
    else ({ a with txns := update a.txns id (some { info with phase := .accept }) }, true)

/-- `ProcessCommit`: the transaction goes to the scheduler. -/
def Acceptor.processCommit (a : Acceptor) (id : TxnId) : Acceptor :=
  { a with txns := update a.txns id none }

/-! ## Quorums -/

structure Quorum where
  numReplicas : ℕ
  count : ℕ := 0
  deriving DecidableEq, Repr

def Quorum.inc (q : Quorum) : Quorum := { q with count := q.count + 1 }

def Quorum.isDone (q : Quorum) : Bool := (q.numReplicas + 1) / 2 ≤ q.count

structure QuorumDeps where
  numReplicas : ℕ
  isFastQuorum : Bool := true
  count : ℕ := 0
  deps : Finset Dependency := ∅
  deriving DecidableEq

namespace QuorumDeps

def isDone (q : QuorumDeps) : Bool :=
  if q.isFastQuorum then q.count = q.numReplicas else (q.numReplicas + 1) / 2 ≤ q.count

def add (q : QuorumDeps) (deps : Finset Dependency) : QuorumDeps :=
  if q.isDone then q
  else
    let q := if q.count = 0 then { q with deps }
      else if !q.isFastQuorum ∨ deps ≠ q.deps then
        { q with isFastQuorum := false, deps := q.deps ∪ deps }
      else q
    { q with count := q.count + 1 }

end QuorumDeps

/-! ## Coordinators -/

structure CoordinatorTxnInfo where
  participants : List PartitionId
  phase : Phase := .preAccept
  shardedDeps : PartitionId → Option QuorumDeps := fun _ => none
  quorums : PartitionId → Option Quorum := fun _ => none

/-- The dependencies of an accept or a commit message, by the partition they come from. -/
abbrev ShardedDeps := List (PartitionId × Finset Dependency)

inductive Message where
  | preAccept (m : Machine) (t : Transaction) (ballot : ℕ)
  | preAcceptResponse (m : Machine) (id : TxnId) (deps : Option (List Dependency))
  | accept (m : Machine) (id : TxnId) (ballot : ℕ) (deps : ShardedDeps)
  | acceptResponse (m : Machine) (id : TxnId) (ok : Bool)
  | commit (m : Machine) (id : TxnId) (deps : ShardedDeps)
  deriving DecidableEq

/-- How many regions there are, and how keys are split into partitions. -/
structure Config where
  numRegions : ℕ
  sharder : Sharder
  numRegions_pos : 0 < numRegions

namespace CoordinatorTxnInfo

variable (c : Config)

def destinations (info : CoordinatorTxnInfo) : List Machine :=
  info.participants.flatMap fun p => (List.range c.numRegions).map fun reg => (reg, p)

def deps (info : CoordinatorTxnInfo) : ShardedDeps :=
  (List.range c.sharder.numPartitions).filterMap fun p =>
    (info.shardedDeps p).map fun q => (p, q.deps)

/-- The answer of a partition is added to its dependencies. -/
def addDeps (info : CoordinatorTxnInfo) (p : PartitionId) (deps : List Dependency) :
    CoordinatorTxnInfo :=
  let q := (info.shardedDeps p).getD { numReplicas := c.numRegions }
  { info with shardedDeps := update info.shardedDeps p (some (q.add deps.toFinset)) }

def depsDone (info : CoordinatorTxnInfo) : Bool :=
  info.participants.all fun p => (info.shardedDeps p).any QuorumDeps.isDone

def isFast (info : CoordinatorTxnInfo) : Bool :=
  info.participants.all fun p => (info.shardedDeps p).any QuorumDeps.isFastQuorum

def incQuorum (info : CoordinatorTxnInfo) (p : PartitionId) : CoordinatorTxnInfo :=
  let q := (info.quorums p).getD { numReplicas := c.numRegions }
  { info with quorums := update info.quorums p (some q.inc) }

def quorumsDone (info : CoordinatorTxnInfo) : Bool :=
  info.participants.all fun p => (info.quorums p).any Quorum.isDone

end CoordinatorTxnInfo

/-! ## The protocol -/

/-- `started` and `txns` are the transactions that were started, `history` those that an acceptor has
pre-accepted in its order, `answered` the regions whose answers a coordinator has collected, and
`committed` the dependencies of the commit messages. -/
structure Protocol where
  acceptors : Machine → Acceptor := fun _ => {}
  coordinators : TxnId → Option CoordinatorTxnInfo := fun _ => none
  inFlight : List Message := []
  started : List TxnId := []
  txns : TxnId → Option Transaction := fun _ => none
  history : Machine → List Transaction := fun _ => []
  answered : TxnId → PartitionId → List RegionId := fun _ _ => []
  committed : TxnId → Option ShardedDeps := fun _ => none

inductive ProtocolEvent where
  /-- A client's transaction reaches its coordinator. -/
  | start (t : Transaction)
  | deliver (m : Message)

namespace Protocol

variable (c : Config)

def send (s : Protocol) (ms : List Message) : Protocol := { s with inFlight := s.inFlight ++ ms }

def setInfo (s : Protocol) (id : TxnId) (info : CoordinatorTxnInfo) : Protocol :=
  { s with coordinators := update s.coordinators id (some info) }

/-- `StartNewTxn`.  A transaction with a key that cannot be sharded is dropped. -/
def startNewTxn (s : Protocol) (t : Transaction) : Option Protocol :=
  match t.populateInvolvedPartitions c.sharder with
  | none => some s
  | some t =>
    if (s.coordinators t.id).isSome then none
    else
      let info : CoordinatorTxnInfo := { participants := t.internal.involvedPartitions }
      some ({ s with
        coordinators := update s.coordinators t.id (some info)
        started := s.started ++ [t.id]
        txns := update s.txns t.id (some t) }.send
        ((info.destinations c).map (.preAccept · t 0)))

/-- `CommitTxn`. -/
def commitTxn (s : Protocol) (id : TxnId) (info : CoordinatorTxnInfo) : Protocol :=
  { s with
    coordinators := update s.coordinators id none
    committed := update s.committed id (some (info.deps c)) }.send
    ((info.destinations c).map (.commit · id (info.deps c)))

/-- `PreAcceptTxn` for an answer that is not a refusal. -/
def preAcceptTxn (s : Protocol) (m : Machine) (id : TxnId) (deps : List Dependency) : Protocol :=
  match s.coordinators id with
  | none => s
  | some info =>
    if info.phase ≠ .preAccept then s
    else
      -- the answer counts unless the partition has enough of them
      let counts := !(info.shardedDeps m.2).any QuorumDeps.isDone
      let info := info.addDeps c m.2 deps
      let s := { s.setInfo id info with
        answered := if counts then update s.answered id
          (update (s.answered id) m.2 (s.answered id m.2 ++ [m.1])) else s.answered }
      if !info.depsDone then s
      else if info.isFast then s.commitTxn c id info
      else
        (s.setInfo id { info with phase := .accept }).send
          ((info.destinations c).map (.accept · id 0 (info.deps c)))

/-- `AcceptTxn` for an answer that is not a refusal. -/
def acceptTxn (s : Protocol) (m : Machine) (id : TxnId) : Protocol :=
  match s.coordinators id with
  | none => s
  | some info =>
    let info := info.incQuorum c m.2
    if info.quorumsDone then s.commitTxn c id info
    else s.setInfo id info

/-- A machine handles a message.  `none` is the failed check of a coordinator on a refusal:
recovery from crashes is not implemented. -/
def handle (s : Protocol) : Message → Option Protocol
  | .preAccept m t ballot =>
    let r := (s.acceptors m).processPreAccept c.sharder m.2 t ballot
    some ({ s with
      acceptors := update s.acceptors m r.1
      history := if r.2.isSome then update s.history m (s.history m ++ [t])
        else s.history }.send [.preAcceptResponse m t.id r.2])
  | .preAcceptResponse m id deps => deps.map fun deps => s.preAcceptTxn c m id deps
  | .accept m id ballot _ =>
    let r := (s.acceptors m).processAccept id ballot
    some ({ s with acceptors := update s.acceptors m r.1 }.send
      [.acceptResponse m id r.2])
  | .acceptResponse m id ok => if ok then some (s.acceptTxn c m id) else none
  | .commit m id _ =>
    some { s with acceptors := update s.acceptors m ((s.acceptors m).processCommit id) }

/-- Messages are delivered in any order, and none is lost.  Transactions have different ids. -/
def step (s : Protocol) : ProtocolEvent → Option Protocol
  | .start t =>
    if (s.txns t.id).isSome ∨ t.internal.involvedPartitions ≠ [] then none
    else s.startNewTxn c t
  | .deliver m =>
    if m ∈ s.inFlight then { s with inFlight := s.inFlight.erase m }.handle c m else none

def init : Protocol := {}

end Protocol

end Janus
