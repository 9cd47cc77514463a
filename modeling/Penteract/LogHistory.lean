/-
# The log of a partition

Every call of `AcquireLocks` writes one log entry with the transactions that block it.  This
module relates the list of all entries of a partition to the parts that have arrived there: an
entry names only blocking transactions that have an entry before it, and the entry that reports
a transaction complete is its last one.
-/
import Penteract.Cluster
import Penteract.LockHistory

namespace Slog

open List Relation

/-! ## Reading a list of entries -/

/-- `x` has an entry in the list. -/
def HasEntry (es : List LogEntry) (x : TxnId) : Prop := ∃ e ∈ es, e.txnId = x

/-- `x` has been reported complete. -/
def HasComplete (es : List LogEntry) (x : TxnId) : Prop :=
  ∃ e ∈ es, e.txnId = x ∧ e.isComplete = true

/-- Some entry says that `v` waits for `u`. -/
def LogEdge (es : List LogEntry) (u v : TxnId) : Prop :=
  ∃ e ∈ es, e.txnId = v ∧ u ∈ e.incomingEdges

/-- The transactions whose entries name `u`, in the order of the entries. -/
def outs (es : List LogEntry) (u : TxnId) : List TxnId :=
  (es.filter fun e => u ∈ e.incomingEdges).map LogEntry.txnId

instance (es : List LogEntry) (x : TxnId) : Decidable (HasEntry es x) :=
  inferInstanceAs (Decidable (∃ e ∈ es, e.txnId = x))

instance (es : List LogEntry) (x : TxnId) : Decidable (HasComplete es x) :=
  inferInstanceAs (Decidable (∃ e ∈ es, e.txnId = x ∧ e.isComplete = true))

section Reading

variable {es es' : List LogEntry} {u v x : TxnId}

theorem mem_outs : v ∈ outs es u ↔ LogEdge es u v := by
  simp only [outs, LogEdge, mem_map, mem_filter, decide_eq_true_eq]
  constructor
  · rintro ⟨e, ⟨he, hu⟩, hv⟩
    exact ⟨e, he, hv, hu⟩
  · rintro ⟨e, he, hv, hu⟩
    exact ⟨e, ⟨he, hu⟩, hv⟩

theorem LogEdge.hasEntry (h : LogEdge es u v) : HasEntry es v := by
  obtain ⟨e, he, hv, -⟩ := h
  exact ⟨e, he, hv⟩

theorem HasComplete.hasEntry (h : HasComplete es x) : HasEntry es x := by
  obtain ⟨e, he, hx, -⟩ := h
  exact ⟨e, he, hx⟩

theorem hasEntry_append : HasEntry (es ++ es') x ↔ HasEntry es x ∨ HasEntry es' x := by
  simp only [HasEntry, mem_append, or_and_right, exists_or]

theorem hasComplete_append :
    HasComplete (es ++ es') x ↔ HasComplete es x ∨ HasComplete es' x := by
  simp only [HasComplete, mem_append, or_and_right, exists_or]

theorem logEdge_append : LogEdge (es ++ es') u v ↔ LogEdge es u v ∨ LogEdge es' u v := by
  simp only [LogEdge, mem_append, or_and_right, exists_or]

theorem outs_append : outs (es ++ es') u = outs es u ++ outs es' u := by
  simp [outs]

theorem not_hasEntry_nil : ¬ HasEntry [] x := by
  rintro ⟨e, he, -⟩
  cases he

variable {e : LogEntry}

theorem hasEntry_singleton : HasEntry [e] x ↔ e.txnId = x := by
  simp [HasEntry]

theorem hasComplete_singleton : HasComplete [e] x ↔ e.txnId = x ∧ e.isComplete = true := by
  simp [HasComplete]

theorem logEdge_singleton : LogEdge [e] u v ↔ e.txnId = v ∧ u ∈ e.incomingEdges := by
  simp [LogEdge]

theorem outs_singleton : outs [e] u = if u ∈ e.incomingEdges then [e.txnId] else [] := by
  by_cases h : u ∈ e.incomingEdges <;> simp [outs, h]

end Reading

/-! ## Well-formed logs -/

/-- The entries of one partition are well formed. -/
structure LogOk (W : Submission) (p : PartitionId) (es : List LogEntry) : Prop where
  involved : ∀ e ∈ es, p ∈ W.involved e.txnId
  size : ∀ e ∈ es, e.numPartitions = (W.involved e.txnId).length
  nonzero : ∀ e ∈ es, e.txnId ≠ kSentinelTxnId
  simple : ∀ e ∈ es, e.incomingEdges.Nodup
  /-- A blocking transaction has an entry before, unless it blocks itself. -/
  pred : ∀ a e b, es = a ++ e :: b → ∀ u ∈ e.incomingEdges, u = e.txnId ∨ HasEntry a u
  /-- Nothing follows for a transaction that is complete. -/
  last : es.Pairwise fun e e' => e.isComplete = true → e'.txnId ≠ e.txnId

theorem concat_eq_append_cons {α : Type*} {l a b : List α} {x y : α} (h : l ++ [x] = a ++ y :: b) :
    (a = l ∧ y = x ∧ b = []) ∨ ∃ b', b = b' ++ [x] ∧ l = a ++ y :: b' := by
  rcases eq_nil_or_concat' b with rfl | ⟨b', z, rfl⟩
  · obtain ⟨rfl, hxy⟩ := append_inj' h rfl
    exact .inl ⟨rfl, (singleton_inj.mp hxy).symm, rfl⟩
  · have h' : l ++ [x] = (a ++ y :: b') ++ [z] := by rw [h]; simp
    obtain ⟨rfl, hxz⟩ := append_inj' h' rfl
    exact .inr ⟨b', by rw [singleton_inj.mp hxz], rfl⟩

namespace LogOk

variable {W : Submission} {p : PartitionId} {es es' : List LogEntry}

theorem nil (W : Submission) (p : PartitionId) : LogOk W p [] where
  involved := by simp
  size := by simp
  nonzero := by simp
  simple := by simp
  pred := by simp
  last := Pairwise.nil

theorem concat (h : LogOk W p es) {e : LogEntry} (hinv : p ∈ W.involved e.txnId)
    (hsize : e.numPartitions = (W.involved e.txnId).length) (h0 : e.txnId ≠ kSentinelTxnId)
    (hsimple : e.incomingEdges.Nodup)
    (hpred : ∀ u ∈ e.incomingEdges, u = e.txnId ∨ HasEntry es u)
    (hlast : ¬ HasComplete es e.txnId) : LogOk W p (es ++ [e]) where
  involved e' he' := by
    rcases mem_append.mp he' with he' | he'
    · exact h.involved e' he'
    · exact mem_singleton.mp he' ▸ hinv
  size e' he' := by
    rcases mem_append.mp he' with he' | he'
    · exact h.size e' he'
    · exact mem_singleton.mp he' ▸ hsize
  nonzero e' he' := by
    rcases mem_append.mp he' with he' | he'
    · exact h.nonzero e' he'
    · exact mem_singleton.mp he' ▸ h0
  simple e' he' := by
    rcases mem_append.mp he' with he' | he'
    · exact h.simple e' he'
    · exact mem_singleton.mp he' ▸ hsimple
  pred a e' b hab := by
    rcases concat_eq_append_cons hab with ⟨rfl, rfl, -⟩ | ⟨b', -, rfl⟩
    · exact hpred
    · exact h.pred a e' b' rfl
  last := by
    rw [pairwise_append]
    refine ⟨h.last, pairwise_singleton _ _, fun e' he' e'' he'' hc heq => ?_⟩
    rw [mem_singleton.mp he''] at heq
    exact hlast ⟨e', he', heq.symm, hc⟩

/-- The beginning of a well-formed log is well formed. -/
theorem init (h : LogOk W p (es ++ es')) : LogOk W p es where
  involved e he := h.involved e (mem_append_left _ he)
  size e he := h.size e (mem_append_left _ he)
  nonzero e he := h.nonzero e (mem_append_left _ he)
  simple e he := h.simple e (mem_append_left _ he)
  pred a e b hab := h.pred a e (b ++ es') (by rw [hab]; simp)
  last := (pairwise_append.mp h.last).1

variable {x : TxnId}

/-- Nothing follows for a transaction that is complete. -/
theorem not_hasEntry (h : LogOk W p (es ++ es')) (hx : HasComplete es x) : ¬ HasEntry es' x := by
  rintro ⟨e', he', rfl⟩
  obtain ⟨e, he, heq, hc⟩ := hx
  exact (pairwise_append.mp h.last).2.2 e he e' he' hc heq.symm

/-- The first end of an edge has an entry, as the second one does. -/
theorem edge (h : LogOk W p es) {u v : TxnId} (huv : LogEdge es u v) : HasEntry es u := by
  obtain ⟨e, he, rfl, hu⟩ := huv
  obtain ⟨a, b, rfl⟩ := append_of_mem he
  rcases h.pred a e b rfl u hu with rfl | hent
  · exact ⟨e, he, rfl⟩
  · exact hasEntry_append.mpr (.inl hent)

theorem ne_sentinel (h : LogOk W p es) (hx : HasEntry es x) : x ≠ kSentinelTxnId := by
  obtain ⟨e, he, rfl⟩ := hx
  exact h.nonzero e he

end LogOk

/-! ## The log follows the lock manager -/

/-- **The history of a partition**: the lock manager follows the arrived parts, and so does the
log. -/
structure HistInv (W : Submission) (p : PartitionId) (ps : PartitionState) : Prop where
  lock : LockInv W p ps.lm ps.arrived ps.released
  ok : LogOk W p ps.hist
  ids : ps.hist.map LogEntry.txnId = ps.arrived.map Prod.fst
  done : ∀ x, HasComplete ps.hist x ↔ HasEntry ps.hist x ∧
    (W.txn x p).numRequiredLocks = W.numRequests p x (homesOf ps.arrived x)

namespace HistInv

variable {W : Submission} {p : PartitionId} {ps : PartitionState}

variable {x : TxnId} {ps' : PartitionState} {h : RegionId}

theorem hasEntry_iff (hI : HistInv W p ps) : HasEntry ps.hist x ↔ ∃ h, (x, h) ∈ ps.arrived := by
  have h1 : HasEntry ps.hist x ↔ x ∈ ps.hist.map LogEntry.txnId := by
    simp only [HasEntry, mem_map]
  rw [h1, hI.ids]
  simp

theorem live_iff (hI : HistInv W p ps) : x ∈ ps.lm.txnInfo ↔ HasEntry ps.hist x ∧ x ∉ ps.released := by
  rw [hI.lock.live, hI.hasEntry_iff]

/-- Steps that leave the lock table, the entries and the recorded history alone. -/
theorem congr (hI : HistInv W p ps) (ht : ps'.lm.lockTable = ps.lm.lockTable)
    (hi : ps'.lm.txnInfo = ps.lm.txnInfo) (ha : ps'.arrived = ps.arrived)
    (hr : ps'.released = ps.released) (hh : ps'.hist = ps.hist) :
    HistInv W p ps' where
  lock := by
    rw [ha, hr]
    exact hI.lock.congr ht hi
  ok := hh ▸ hI.ok
  ids := by rw [hh, ha]; exact hI.ids
  done := by rw [hh, ha]; exact hI.done

theorem init (W : Submission) (p : PartitionId) : HistInv W p {} where
  lock := LockInv.init W p rfl rfl
  ok := LogOk.nil W p
  ids := rfl
  done x := iff_of_false (fun h => not_hasEntry_nil h.hasEntry) (fun h => not_hasEntry_nil h.1)

/-- The entry that a call of `AcquireLocks` writes. -/
theorem entry_eq (hI : HistInv W p ps) (hx : x ≠ kSentinelTxnId) (hh : h ∈ (W.txn x p).homes)
    (hnew : (x, h) ∉ ps.arrived) (hrel : x ∉ ps.released) :
    (ps.lm.enterLocks (W.part p x h)).2.2 =
      { txnId := x, numPartitions := (W.involved x).length,
        isComplete := decide ((W.txn x p).numRequiredLocks =
          W.numRequests p x (homesOf (ps.arrived ++ [(x, h)]) x)),
        incomingEdges := ps.lm.blocking (W.part p x h) } := by
  have hpost := hI.lock.enterLocks hx hh hnew hrel
  have hun := hpost.unarrived x (ps.lm.enteredInfo (W.part p x h))
    (by rw [DDRLockManager.lookup_enterLocks, if_pos (W.part_id p x h).symm])
  have hc : ((ps.lm.enteredInfo (W.part p x h)).unarrivedLockRequests == 0) =
      decide ((W.txn x p).numRequiredLocks =
          W.numRequests p x (homesOf (ps.arrived ++ [(x, h)]) x)) := by
    rw [hun]
    exact decide_eq_decide.mpr sub_eq_zero
  rw [DDRLockManager.enterLocks_entry, W.part_id, W.part_involved, hc]

/-- When a part arrives, its transaction was not complete before. -/
theorem not_hasComplete (hI : HistInv W p ps) (hx : x ≠ kSentinelTxnId) (hh : h ∈ (W.txn x p).homes)
    (hnew : (x, h) ∉ ps.arrived) : ¬ HasComplete ps.hist x := by
  intro hc
  have heq := ((hI.done x).mp hc).2
  have hparts := hI.lock.parts.concat hx hh hnew
  have hle := W.numRequests_le (p := p) (x := x) (homesOf_nodup hparts.nodup x) fun g hg =>
    (hparts.part x g (mem_homesOf.mp hg)).2
  have hpos : 0 < (W.part p x h).lockRequests.length :=
    length_pos_iff.mpr (W.lockRequests_ne_nil hh)
  rw [heq, homesOf_concat, if_pos rfl, Submission.numRequests, Submission.numRequests,
    map_append, sum_append, map_singleton, sum_singleton] at hle
  omega

theorem numRequests_concat_of_ne {arrived : List (TxnId × RegionId)} {y : TxnId} (hne : y ≠ x) :
    W.numRequests p y (homesOf (arrived ++ [(x, h)]) y) =
      W.numRequests p y (homesOf arrived y) := by
  rw [homesOf_concat, if_neg (Ne.symm hne), append_nil]

/-- **A part arrives.** -/
theorem acquire (hI : HistInv W p ps) (hs : ps.acquire W p x h = some ps') : HistInv W p ps' := by
  obtain ⟨-, hx, hinv, hh, hnew, hrel, rfl⟩ := PartitionState.acquire_inv hs
  have hentry := hI.entry_eq hx hh hnew hrel
  have hnc := hI.not_hasComplete hx hh hnew
  refine ⟨hI.lock.enterLocks hx hh hnew hrel, ?_, ?_, fun y => ?_⟩
  · show LogOk W p (ps.hist ++ [_])
    rw [hentry]
    refine hI.ok.concat hinv rfl hx (sortUnique_nodup _) (fun u hu => ?_) hnc
    rcases hI.lock.of_mem_blocking hnew hu with ⟨-, g, hg⟩ | ⟨rfl, -⟩
    · exact .inr (hI.hasEntry_iff.mpr ⟨g, hg⟩)
    · exact .inl rfl
  · show (ps.hist ++ [_]).map LogEntry.txnId = (ps.arrived ++ [(x, h)]).map Prod.fst
    rw [hentry, map_append, map_append, hI.ids]
    rfl
  · show HasComplete (ps.hist ++ [_]) y ↔ HasEntry (ps.hist ++ [_]) y ∧
      (W.txn y p).numRequiredLocks = W.numRequests p y (homesOf (ps.arrived ++ [(x, h)]) y)
    rw [hentry, hasComplete_append, hasEntry_append, hasComplete_singleton, hasEntry_singleton]
    by_cases hyx : y = x
    · subst hyx
      rw [decide_eq_true_eq]
      exact ⟨fun h => h.elim (absurd · hnc) (fun h => ⟨.inr rfl, h.2⟩), fun h => .inr ⟨rfl, h.2⟩⟩
    · rw [numRequests_concat_of_ne hyx, hI.done]
      have hne : ¬ x = y := fun heq => hyx heq.symm
      simp [hne]

/-- **A transaction is released.** -/
theorem release (hI : HistInv W p ps) (hs : ps.release x = some ps') : HistInv W p ps' := by
  obtain ⟨-, ti, -, -, rfl⟩ := PartitionState.release_inv hs
  exact ⟨hI.lock.releaseLocks x ti, hI.ok, hI.ids, hI.done⟩

end HistInv

end Slog
