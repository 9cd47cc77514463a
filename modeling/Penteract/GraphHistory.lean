/-
# The graph of a resolver

The graph of a resolver holds the entries it has seen, without the nodes it has taken out.
`GraphInv` says so, and that the nodes taken out are closed under predecessors; it is kept when
an entry comes in and when a run takes the stable nodes out, and it gives the conditions under
which a run was shown to find the components.
-/
import Penteract.DeadlockDetection
import Penteract.LogHistory

namespace Slog

open List AssocMap Components Relation

/-! ## What an entry does to the graph -/

/-- The node of an entry's transaction, before its outgoing edges are considered. -/
def Node.entered (n : Node) (e : LogEntry) : Node :=
  { n with numComplete := n.numComplete + (if e.isComplete then 1 else 0),
           incoming := n.incoming ++ e.incomingEdges }

theorem Graph.lookup_updateGraph {g : Graph} {e : LogEntry} (hnd : e.incomingEdges.Nodup)
    (x : TxnId) :
    (g.updateGraph e).lookup x =
      (if x = e.txnId then
        some (((g.lookup x).getD { numPartitions := e.numPartitions }).entered e)
      else g.lookup x).map fun n =>
        if x ∈ e.incomingEdges then { n with outgoing := n.outgoing ++ [e.txnId] } else n := by
  have hbase : (if e.txnId ∈ g then g
      else g.insert e.txnId { numPartitions := e.numPartitions }).lookup x =
        if x = e.txnId then some ((g.lookup x).getD { numPartitions := e.numPartitions })
        else g.lookup x := by
    by_cases hx : x = e.txnId
    · subst hx
      by_cases hm : e.txnId ∈ g
      · obtain ⟨n, hn⟩ := mem_iff_lookup.mp hm
        simp [hm, hn]
      · simp [hm, not_mem_iff_lookup.mp hm]
    · by_cases hm : e.txnId ∈ g <;> simp [hm, hx]
  rw [updateGraph, lookup_foldl_modify hnd, lookup_modify_map, hbase]
  by_cases hx : x = e.txnId
  · simp [hx, Node.entered]
  · simp [hx]

/-! ## The graph follows the entries -/

/-- The number of partitions that have reported `x` complete. -/
def numReported (es : List LogEntry) (x : TxnId) : ℕ :=
  (es.filter fun e => decide (e.txnId = x) && e.isComplete).length

theorem numReported_concat (es : List LogEntry) (e : LogEntry) (x : TxnId) :
    numReported (es ++ [e]) x =
      numReported es x + if e.txnId = x ∧ e.isComplete = true then 1 else 0 := by
  unfold numReported
  by_cases h : e.txnId = x ∧ e.isComplete = true
  · simp [h]
  · rw [if_neg h, filter_append, filter_cons_of_neg (by simpa using h)]
    simp

/-- The node of `x` follows the entries. -/
structure NodeInv (W : Submission) (es : List LogEntry) (x : TxnId) (n : Node) : Prop where
  size : n.numPartitions = (W.involved x).length
  complete : n.numComplete = numReported es x
  inc : ∀ u, u ∈ n.incoming ↔ LogEdge es u x
  out : ∀ v, v ∈ n.outgoing ↔ LogEdge es x v

/-- **The graph follows the entries** `es`; the nodes in `gone` have been taken out. -/
structure GraphInv (W : Submission) (g : Graph) (es : List LogEntry) (gone : List TxnId) :
    Prop where
  mem : ∀ x, x ∈ g ↔ HasEntry es x ∧ x ∉ gone
  nodes : ∀ x n, g.lookup x = some n → NodeInv W es x n
  edge : ∀ u v, LogEdge es u v → HasEntry es u
  gone_entry : ∀ x ∈ gone, HasEntry es x
  gone_pred : ∀ u v, LogEdge es u v → v ∈ gone → u ∈ gone

namespace GraphInv

variable {W : Submission} {g : Graph} {es : List LogEntry} {gone : List TxnId}

theorem empty (W : Submission) : GraphInv W ∅ [] [] where
  mem x := iff_of_false (by simp) fun h => not_hasEntry_nil h.1
  nodes := by simp
  edge _ _ h := absurd h.hasEntry not_hasEntry_nil
  gone_entry := by simp
  gone_pred := by simp

/-- **An entry comes in.** -/
theorem updateGraph (h : GraphInv W g es gone) {e : LogEntry}
    (hsize : e.numPartitions = (W.involved e.txnId).length) (hnd : e.incomingEdges.Nodup)
    (hpred : ∀ u ∈ e.incomingEdges, u = e.txnId ∨ HasEntry es u) (hgone : e.txnId ∉ gone) :
    GraphInv W (g.updateGraph e) (es ++ [e]) gone := by
  have hlook := Graph.lookup_updateGraph (g := g) hnd
  have hedge : ∀ u v, LogEdge (es ++ [e]) u v ↔
      LogEdge es u v ∨ (e.txnId = v ∧ u ∈ e.incomingEdges) := fun u v => by
    rw [logEdge_append, logEdge_singleton]
  -- the node of `e`, as it was before; nothing points from a transaction without an entry
  have hold : NodeInv W es e.txnId ((g.lookup e.txnId).getD { numPartitions := e.numPartitions }) := by
    cases hn : g.lookup e.txnId with
    | some n => exact h.nodes _ n hn
    | none =>
      have hno : ¬ HasEntry es e.txnId := fun hent =>
        not_mem_iff_lookup.mpr hn ((h.mem _).mpr ⟨hent, hgone⟩)
      refine ⟨hsize, ?_, fun u => iff_of_false not_mem_nil fun hu => hno hu.hasEntry,
        fun v => iff_of_false not_mem_nil fun hv => hno (h.edge _ v hv)⟩
      refine (length_eq_zero_iff.mpr (filter_eq_nil_iff.mpr fun e' he' hx => ?_)).symm
      rw [Bool.and_eq_true, decide_eq_true_eq] at hx
      exact hno ⟨e', he', hx.1⟩
  -- the outgoing edges come last
  have hout : ∀ {x n}, n.numPartitions = (W.involved x).length →
      n.numComplete = numReported (es ++ [e]) x →
      (∀ u, u ∈ n.incoming ↔ LogEdge (es ++ [e]) u x) → (∀ v, v ∈ n.outgoing ↔ LogEdge es x v) →
      NodeInv W (es ++ [e]) x
        (if x ∈ e.incomingEdges then { n with outgoing := n.outgoing ++ [e.txnId] } else n) := by
    intro x n hsize hcomplete hinc hout
    split_ifs with hm
    · refine ⟨hsize, hcomplete, hinc, fun v => ?_⟩
      simp [hedge, hout, hm, eq_comm]
    · refine ⟨hsize, hcomplete, hinc, fun v => ?_⟩
      simp [hedge, hout, hm]
  refine ⟨fun x => ?_, fun x n hn => ?_, fun u v huv => ?_, fun x hx => ?_, fun u v huv hv => ?_⟩
  · rw [hasEntry_append, hasEntry_singleton, mem_iff_lookup, hlook]
    by_cases hx : x = e.txnId
    · subst hx
      simp [hgone]
    · have hne : ¬ e.txnId = x := fun heq => hx heq.symm
      rw [if_neg hx, or_iff_left hne, ← h.mem, mem_iff_lookup]
      cases g.lookup x <;> simp
  · rw [hlook] at hn
    obtain ⟨n₁, hn₁, rfl⟩ := Option.map_eq_some_iff.mp hn
    by_cases hx : x = e.txnId
    · subst hx
      rw [if_pos rfl, Option.some_inj] at hn₁
      subst hn₁
      refine hout hold.size ?_ (fun u => ?_) hold.out
      · simp [numReported_concat, ← hold.complete, Node.entered]
      · simp [hedge, Node.entered, hold.inc]
    · rw [if_neg hx] at hn₁
      have hnode := h.nodes x n₁ hn₁
      refine hout hnode.size ?_ (fun u => ?_) hnode.out
      · rw [numReported_concat, if_neg fun hc => hx hc.1.symm, add_zero, hnode.complete]
      · rw [hedge, or_iff_left fun hc => hx hc.1.symm, hnode.inc]
  · rw [hasEntry_append]
    rcases (hedge u v).mp huv with huv | ⟨-, hu⟩
    · exact .inl (h.edge u v huv)
    · exact (hpred u hu).symm.imp id fun heq => hasEntry_singleton.mpr heq.symm
  · exact hasEntry_append.mpr (.inl (h.gone_entry x hx))
  · rcases (hedge u v).mp huv with huv | ⟨rfl, -⟩
    · exact h.gone_pred u v huv hv
    · exact absurd hv hgone

/-- The graph meets the conditions for a run. -/
theorem graphOk (h : GraphInv W g es gone) : g.Ok (LogEdge es) where
  out x n hn := (h.nodes x n hn).out
  inc x n hn := (h.nodes x n hn).inc
  succ u v hu huv := by
    refine (h.mem v).mpr ⟨huv.hasEntry, fun hv => ?_⟩
    exact ((h.mem u).mp hu).2 (h.gone_pred u v huv hv)

theorem isIncomplete_iff (h : GraphInv W g es gone) {x : TxnId} (hx : x ∈ g) :
    g.isIncomplete x = true ↔ numReported es x < (W.involved x).length := by
  obtain ⟨n, hn⟩ := mem_iff_lookup.mp hx
  unfold Graph.isIncomplete
  rw [hn, Option.elim_some, decide_eq_true_eq, (h.nodes x n hn).size, (h.nodes x n hn).complete]

/-- **A run takes the stable nodes out.** -/
theorem takeOut (h : GraphInv W g es gone) {out : List TxnId}
    (hout : ∀ x, x ∈ out ↔ g.Stable (LogEdge es) x) :
    GraphInv W (out.foldl (fun g x => g.erase x) g) es (gone ++ out) := by
  have hl : ∀ {x n}, (out.foldl (fun g x => g.erase x) g).lookup x = some n →
      g.lookup x = some n := by
    intro x n hn
    rw [lookup_foldl_erase] at hn
    split_ifs at hn
    exact hn
  refine ⟨fun x => ?_, fun x n hn => h.nodes x n (hl hn), h.edge, fun x hx => ?_, fun u v huv hv => ?_⟩
  · rw [mem_iff_lookup, lookup_foldl_erase, mem_append, not_or, ← and_assoc,
      ← h.mem, mem_iff_lookup]
    by_cases hx : x ∈ out <;> simp [hx]
  · rcases mem_append.mp hx with hx | hx
    · exact h.gone_entry x hx
    · exact ((h.mem x).mp ((hout x).mp hx).1).1
  · rw [mem_append]
    rcases mem_append.mp hv with hv | hv
    · exact .inl (h.gone_pred u v huv hv)
    · by_cases hu : u ∈ gone
      · exact .inl hu
      · refine .inr ((hout u).mpr (((hout v).mp hv).pred ?_ (.single huv)))
        exact (h.mem u).mpr ⟨h.edge u v huv, hu⟩

end GraphInv

end Slog
