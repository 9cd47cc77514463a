/-
# The search for components in the Janus scheduler

The scheduler of a partition keeps the transactions that it knows of in a graph, with an edge to
each transaction that one depends on.  From a vertex it searches for strongly connected components;
the numbers of the search are kept in the vertices.  A component is closed only as long as no
dependency has been met that is not in the graph.  A vertex whose component was closed keeps its
number, so that later searches pass it by; what was visited and not closed is reset.
-/
import Penteract.Lib.AssocMap
import Penteract.Transaction

namespace Janus

open Slog

structure JanusDependency where
  txnId : TxnId
  participantsBitmap : ℕ := 0
  targetPartition : PartitionId := 0
  deriving DecidableEq, Repr

structure Vertex where
  txnId : TxnId
  isLocal : Bool
  deps : List JanusDependency
  disc : ℕ := 0
  low : ℕ := 0
  missingDeps : ℤ := 0
  onStack : Bool := false
  deriving DecidableEq, Repr

abbrev Graph := AssocMap TxnId Vertex

/-- The transactions of a component, and whether they are local, ordered by their ids. -/
abbrev SCC := List (TxnId × Bool)

structure TarjanResult where
  sccs : List SCC := []
  missingDeps : List JanusDependency := []
  unready : List TxnId := []
  deriving DecidableEq, Repr

/-- The top of the stack comes first.  The last two fields are records that the search itself does
not look at: `stale`, that a vertex that is marked as being on the stack and is not on it has lowered
the low number of another one; `closedBefore`, how many components were closed before it met a
missing dependency. -/
structure TarjanSCCsFinder where
  graph : Graph
  stack : List TxnId := []
  sccs : List SCC := []
  missingDeps : List JanusDependency := []
  idCounter : ℕ := 0
  stale : Bool := false
  closedBefore : ℕ := 0

namespace TarjanSCCsFinder

variable (executed : TxnId → Bool)

def enter (s : TarjanSCCsFinder) (v : TxnId) : TarjanSCCsFinder :=
  let id := s.idCounter + 1
  { s with
    graph := s.graph.modify v fun x => { x with disc := id, low := id, onStack := true }
    stack := v :: s.stack
    idCounter := id }

def lowerTo (s : TarjanSCCsFinder) (v : TxnId) (n : ℕ) : TarjanSCCsFinder :=
  { s with graph := s.graph.modify v fun x => { x with low := min x.low n } }

/-- A map from transactions to dependencies keeps what was inserted first. -/
def addMissing (s : TarjanSCCsFinder) (dep : JanusDependency) : TarjanSCCsFinder :=
  if dep.txnId ∈ s.missingDeps.map (·.txnId) then s
  else
    { s with
      missingDeps := s.missingDeps ++ [dep]
      closedBefore := if s.missingDeps = [] then s.sccs.length else s.closedBefore }

/-- One iteration of the loop of `FindSCCs` over the dependencies of `v`. -/
def visit (find : TarjanSCCsFinder → TxnId → Option TarjanSCCsFinder) (v : TxnId)
    (s : TarjanSCCsFinder) (next : JanusDependency) : Option TarjanSCCsFinder :=
  if next.txnId = v ∨ executed next.txnId then some s
  else
    match s.graph.lookup next.txnId with
    | none => some (s.addMissing next)
    | some nextV =>
      if nextV.disc = 0 then
        (find s next.txnId).bind fun s =>
          (s.graph.lookup next.txnId).map fun nextV => s.lowerTo v nextV.low
      else if nextV.onStack then
        some { s.lowerTo v nextV.disc with
          stale := s.stale || (next.txnId ∉ s.stack &&
            (s.graph.lookup v).any fun x => nextV.disc < x.low) }
      else some s

/-- The loop that takes a component from the stack, down to `v`.  The mark of `v` itself is not
taken away. -/
def popUntil (v : TxnId) :
    List TxnId → Graph → SCC → Option (List TxnId × Graph × SCC)
  | [], _, _ => none
  | x :: stack, graph, scc =>
    if x = v then some (stack, graph, scc)
    else
      (graph.lookup x).bind fun member =>
        popUntil v stack (graph.insert x { member with onStack := false })
          (scc ++ [(member.txnId, member.isLocal)])

/-- The end of `FindSCCs`. -/
def close (s : TarjanSCCsFinder) (v : TxnId) : Option TarjanSCCsFinder :=
  if s.missingDeps ≠ [] then some s
  else
    (s.graph.lookup v).bind fun vertex =>
      if vertex.disc = vertex.low then
        (popUntil v s.stack s.graph []).map fun (stack, graph, scc) =>
          { s with
            stack, graph
            sccs := s.sccs ++
              [(scc ++ [(vertex.txnId, vertex.isLocal)]).insertionSort (·.1 ≤ ·.1)] }
      else some s

/-- `FindSCCs`, with a bound on the depth of the recursion. -/
def findSCCs : ℕ → TarjanSCCsFinder → TxnId → Option TarjanSCCsFinder
  | 0, _, _ => none
  | depth + 1, s, v =>
    (s.graph.lookup v).bind fun vertex =>
      if vertex.disc ≠ 0 ∨ executed v then some s
      else (vertex.deps.foldlM (visit executed (findSCCs depth) v) (s.enter v)).bind (·.close v)

/-- `Finalize`: the components, the missing dependencies, and what was visited without being in a
component; the numbers of the latter are reset. -/
def finalize (s : TarjanSCCsFinder) : Graph × TarjanResult :=
  (s.stack.foldl (fun graph x => graph.modify x fun vertex => { vertex with disc := 0 }) s.graph,
    { sccs := s.sccs, missingDeps := s.missingDeps, unready := s.stack })

end TarjanSCCsFinder

/-- A round of the search from `v`, with its end state. -/
def findRound (executed : TxnId → Bool) (graph : Graph) (v : TxnId) : Option TarjanSCCsFinder :=
  TarjanSCCsFinder.findSCCs executed (graph.entries.length + 1) { graph } v

end Janus
