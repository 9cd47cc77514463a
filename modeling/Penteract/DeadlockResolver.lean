/-
# The deadlock resolver

Every partition has a resolver that runs beside the lock manager.  It collects the log entries
of its own lock manager and, through broadcasts, those of all the others into one waits-for
graph.  In a run it marks the nodes that may still get incoming edges, looks for the strongly
connected components of the others, and replaces the waits-for edges inside a component by a
chain in the order of the transaction ids.  The new edges are prepared in `txn_info_updates_`
and then copied into the lock manager.

The marks `is_stable` and `is_visited` are lists of ids that one phase hands to the next.  A
loop over an unordered map is given the order of its keys.  `none` is a failed `CHECK`.
-/
import Penteract.Lib.Search
import Penteract.Lib.DepthFirst
import Penteract.DDRLockManager

namespace Slog

/-! ## State -/

/-- The change that is prepared for an entry of the lock manager: the amount to add to
`num_waiting_for`, and the new content of the first slots of the waited-by list. -/
structure TxnInfoUpdate where
  numWaitingFor : ℤ := 0
  waitedBy : List TxnId := [kSentinelTxnId]
  deriving DecidableEq, Repr

structure Node where
  numPartitions : ℕ
  numComplete : ℕ := 0
  outgoing : List TxnId := []
  incoming : List TxnId := []
  deriving DecidableEq, Repr

abbrev Graph := AssocMap TxnId Node

abbrev TxnInfoUpdates := AssocMap TxnId TxnInfoUpdate

structure DeadlockResolver where
  graph : Graph := ∅
  txnInfoUpdates : TxnInfoUpdates := ∅
  dfsOrder : List TxnId := []
  toBeUpdated : List TxnId := []

/-! ## The graph -/

namespace Graph

/-- `UpdateGraph`. -/
def updateGraph (graph : Graph) (entry : LogEntry) : Graph :=
  let graph := if entry.txnId ∈ graph then graph
    else graph.insert entry.txnId { numPartitions := entry.numPartitions }
  let graph := AssocMap.modify graph entry.txnId fun n =>
    { n with numComplete := n.numComplete + (if entry.isComplete then 1 else 0),
             incoming := n.incoming ++ entry.incomingEdges }
  entry.incomingEdges.foldl (fun g v =>
    AssocMap.modify g v fun n => { n with outgoing := n.outgoing ++ [entry.txnId] }) graph

def successors (graph : Graph) (x : TxnId) : Option (List TxnId) :=
  (graph.lookup x).map Node.outgoing

def predecessors (graph : Graph) (x : TxnId) : Option (List TxnId) :=
  (graph.lookup x).map Node.incoming

/-- Some partition has not reported all the lock requests of `x` yet. -/
def isIncomplete (graph : Graph) (x : TxnId) : Bool :=
  (graph.lookup x).elim false fun n => decide (n.numComplete < n.numPartitions)

/-- The second half of `UpdateGraphAndBroadcastChanges`: the nodes that are not stable, namely
the incomplete ones and all that can be reached from them.  An edge to a missing node fails the
"Dangling edge" check. -/
def unstable (graph : Graph) (order : List TxnId) : Option (List TxnId) :=
  let unstables := order.filter graph.isIncomplete
  (Search.search graph.successors (fun next => if next ∈ graph then some true else none)
    order.length unstables unstables).map Prod.snd

/-- `FindSCCOrder`. -/
def findSCCOrder (graph : Graph) (unstable order : List TxnId) : Option (List TxnId) :=
  let isStable := fun next => decide (next ∈ graph ∧ next ∉ unstable)
  (DepthFirst.dfsAll graph.successors isStable (1 + DepthFirst.cost graph.successors order [])
    order [] []).map Prod.snd

/-- `FormStronglyConnectedComponent` for the node `x`: the component and the marks after it. -/
def formStronglyConnectedComponent (graph : Graph) (unstable visited : List TxnId) (x : TxnId) :
    Option (List TxnId × List TxnId) :=
  Search.search graph.predecessors
    (fun next => if next ∈ graph then (if next ∈ unstable then none else some true)
      else some false)
    graph.keys.length [x] (x :: visited)

end Graph

/-! ## Resolving one deadlock -/

namespace TxnInfoUpdates

/-- `ReconstructLocalTxnInfo`. -/
def reconstructLocalTxnInfo (updates : TxnInfoUpdates) (entry : LogEntry) : TxnInfoUpdates :=
  let updates := if entry.txnId ∈ updates then updates else updates.insert entry.txnId {}
  entry.incomingEdges.foldl (fun us v =>
    AssocMap.modify us v fun u => { u with waitedBy := u.waitedBy ++ [entry.txnId] }) updates

/-- The loop that removes the edges from one transaction to members of its component `scc`:
the slots after it.  Every removed edge is taken off the counter of its target. -/
def removeEdges (scc : List TxnId) (updates : TxnInfoUpdates) :
    List TxnId → Option (TxnInfoUpdates × List TxnId)
  | [] => some (updates, [])
  | other :: slots =>
    if other ∈ scc then
      if other ∈ updates then
        (removeEdges scc (AssocMap.modify updates other fun u =>
          { u with numWaitingFor := u.numWaitingFor - 1 }) slots).map
            fun r => (r.1, kSentinelTxnId :: r.2)
      else none
    else (removeEdges scc updates slots).map fun r => (r.1, other :: r.2)

/-- Put an edge to `other` into the first empty slot. -/
def addEdge (other : TxnId) : List TxnId → Option (List TxnId)
  | [] => none
  | v :: slots =>
    if v = kSentinelTxnId then some (other :: slots)
    else (addEdge other slots).map fun r => v :: r

/-- One round of the loop of `ResolveDeadlock`, for the local member `x`; `prev` is the local
member of the round before. -/
def resolveMember (scc : List TxnId) (prev : Option TxnId) (x : TxnId)
    (updates : TxnInfoUpdates) : Option TxnInfoUpdates :=
  match updates.lookup x with
  | none => some updates
  | some u =>
    (removeEdges scc updates u.waitedBy).bind fun (updates, slots) =>
      match prev with
      | none => some (AssocMap.modify updates x fun u => { u with waitedBy := slots })
      | some other =>
        (addEdge other slots).map fun slots =>
          let updates := AssocMap.modify updates x fun u => { u with waitedBy := slots }
          AssocMap.modify updates other fun u =>
            { u with numWaitingFor := u.numWaitingFor + 1 }

/-- The loop of `ResolveDeadlock` over the local members, largest id first. -/
def resolveMembers (scc : List TxnId) :
    Option TxnId → List TxnId → TxnInfoUpdates → Option TxnInfoUpdates
  | _, [], updates => some updates
  | prev, x :: members, updates =>
    (resolveMember scc prev x updates).bind fun updates =>
      resolveMembers scc (some x) members updates

end TxnInfoUpdates

namespace DeadlockResolver

/-- The members of a component that have an entry at this partition, largest id first. -/
def localMembers (updates : TxnInfoUpdates) (scc : List TxnId) : List TxnId :=
  ((scc.insertionSort (· ≤ ·)).reverse).filter fun x => decide (x ∈ updates)

/-- `ResolveDeadlock` for the component `scc`. -/
def resolveDeadlock (r : DeadlockResolver) (scc : List TxnId) : Option DeadlockResolver :=
  let members := localMembers r.txnInfoUpdates scc
  (r.txnInfoUpdates.resolveMembers scc none members).map fun updates =>
    { r with txnInfoUpdates := updates, toBeUpdated := r.toBeUpdated ++ members }

/-! ## A run -/

/-- The loop of `CheckAndResolveDeadlocks` over the vertices in `dfs_order_`.  The second
component of the result lists the components handed to `ResolveDeadlock`. -/
def checkComponents (unstable : List TxnId) :
    List TxnId → List TxnId → DeadlockResolver → Option (DeadlockResolver × List (List TxnId))
  | [], _, r => some (r, [])
  | vertex :: vs, visited, r =>
    if vertex ∉ r.graph then none
    else if vertex ∈ visited then
      checkComponents unstable vs visited { r with graph := r.graph.erase vertex }
    else
      (r.graph.formStronglyConnectedComponent unstable visited vertex).bind
        fun (scc, visited) =>
          if 1 < scc.length then
            (r.resolveDeadlock scc).bind fun r =>
              (checkComponents unstable vs visited { r with graph := r.graph.erase vertex }).map
                fun res => (res.1, scc :: res.2)
          else checkComponents unstable vs visited { r with graph := r.graph.erase vertex }

/-- The part of `UpdateGraphAndBroadcastChanges` that works through the entries of the own
log. -/
def addLocalEntry (r : DeadlockResolver) (entry : LogEntry) : DeadlockResolver :=
  { r with txnInfoUpdates := r.txnInfoUpdates.reconstructLocalTxnInfo entry,
           graph := r.graph.updateGraph entry }

/-- `OnInternalRequestReceived`, with the entries of one message. -/
def onGraphLog (r : DeadlockResolver) (entries : List LogEntry) : DeadlockResolver :=
  { r with graph := entries.foldl Graph.updateGraph r.graph }

/-- `Run` up to the point where the lock manager is changed: everything that works on the
resolver's own data.  `order` is the order of the nodes in the graph. -/
def findDeadlocks (r : DeadlockResolver) (order : List TxnId) :
    Option (DeadlockResolver × List (List TxnId)) :=
  (r.graph.unstable order).bind fun unstable =>
    (r.graph.findSCCOrder unstable order).bind fun dfsOrder =>
      checkComponents unstable dfsOrder [] { r with dfsOrder := dfsOrder, toBeUpdated := [] }

/-- Copy one update into the lock manager.  Besides the two checks, the copied list must not
be longer than the list it is copied over. -/
def applyUpdate (updates : TxnInfoUpdates) (info : TxnInfoMap) (x : TxnId) :
    Option (TxnInfoMap × Bool) :=
  (updates.lookup x).bind fun update =>
    (info.lookup x).bind fun txn =>
      if update.waitedBy.length ≤ txn.waitedBy.length then
        let txn := { txn with
          deadlocked := true,
          waitedBy := update.waitedBy ++ txn.waitedBy.drop update.waitedBy.length,
          numWaitingFor := txn.numWaitingFor + update.numWaitingFor }
        some (info.insert x txn, txn.isReady)
      else none

/-- The loop of `CheckAndResolveDeadlocks` over `to_be_updated_`, under the latch of
`txn_info_`: the new map and the transactions that are ready now. -/
def applyUpdates (updates : TxnInfoUpdates) : List TxnId → TxnInfoMap →
    Option (TxnInfoMap × List TxnId)
  | [], info => some (info, [])
  | x :: xs, info =>
    (applyUpdate updates info x).bind fun (info, ready) =>
      (applyUpdates updates xs info).map fun res =>
        (res.1, if ready then x :: res.2 else res.2)

/-- The end of `CheckAndResolveDeadlocks`: forget the transactions whose fate is known. -/
def cleanUp (r : DeadlockResolver) : DeadlockResolver :=
  { r with txnInfoUpdates := r.dfsOrder.foldl (fun us x => us.erase x) r.txnInfoUpdates }

end DeadlockResolver

namespace DDRLockManager

/-- Make the other log current and take the entries of this one. -/
def takeLog (lm : DDRLockManager) : DDRLockManager × List LogEntry :=
  ({ lm with logIndex := 1 - lm.logIndex, log := Function.update lm.log lm.logIndex [] },
    lm.log lm.logIndex)

/-- Add to the ready list, under its latch. -/
def addReadyTxns (lm : DDRLockManager) (xs : List TxnId) : DDRLockManager :=
  { lm with readyTxns := lm.readyTxns ++ xs }

end DDRLockManager

end Slog
