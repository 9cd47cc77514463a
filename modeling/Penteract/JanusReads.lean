/-
# The reads that Janus executes on

Over every run of the workers of all partitions: when a transaction of several partitions is
executed, its list of keys has every key once with the value that the owner of the key has read,
exactly if the execution type is one of those that merge remote reads.
-/
import Penteract.JanusWorker

namespace Janus.Workers

open List Option Slog

variable {c : WorkerConfig} {txns : TxnId → Transaction}

/-- The transaction as it is at the partition: with the keys assembled from the reads it got. -/
structure Holds (c : WorkerConfig) (txns : TxnId → Transaction) (s : Workers) (p : PartitionId)
    (id : TxnId) (t : Transaction) : Prop where
  read : (s.snapshot p id).isSome
  involved : p ∈ (txns id).internal.involvedPartitions
  txn : t = { txns id with keys := assembled c txns s.snapshot id p (s.got p id) }

/-- A message in flight is the only one from its sender to its receiver about its transaction, and
its receiver has not applied it. -/
structure InFlight (c : WorkerConfig) (txns : TxnId → Transaction) (s : Workers)
    (m : PartitionId × RemoteReadResult) : Prop where
  read : (s.snapshot m.2.partition m.2.txnId).isSome
  involved : m.2.partition ∈ (txns m.2.txnId).internal.involvedPartitions
  other : m.2.partition ≠ m.1
  notGot : m.2.partition ∉ s.got m.1 m.2.txnId
  willNotAbort : m.2.willAbort = false
  reads : m.2.reads = sentKeys c txns s.snapshot m.2.txnId m.2.partition

def route (m : PartitionId × RemoteReadResult) : PartitionId × TxnId × PartitionId :=
  (m.1, m.2.txnId, m.2.partition)

structure Inv (c : WorkerConfig) (txns : TxnId → Transaction) (s : Workers) : Prop where
  inFlight : ∀ m ∈ s.inFlight, InFlight c txns s m
  once : (s.inFlight.map route).Nodup
  gotNodup : ∀ p id, (s.got p id).Nodup
  got : ∀ p id, ∀ q ∈ s.got p id, (s.snapshot q id).isSome ∧
    q ∈ (txns id).internal.involvedPartitions ∧ q ≠ p
  gotNil : ∀ p id, s.snapshot p id = none → s.got p id = []
  holds : ∀ p id state, s.txnStates p id = some state → Holds c txns s p id state.txn
  waits : ∀ p id state, s.txnStates p id = some state → state.phase = .waitRemoteRead ∧
    0 < state.remoteReadsWaitingOn ∧ state.remoteReadsWaitingOn + (s.got p id).length + 1 =
      (txns id).internal.involvedPartitions.length
  executed : ∀ e ∈ s.executed, s.txnStates e.partition e.id = none ∧
    Holds c txns s e.partition e.id e.txn ∧
    (s.got e.partition e.id).length + 1 = (txns e.id).internal.involvedPartitions.length

theorem inv_init (storage : PartitionId → Storage) : Inv c txns (init storage) where
  inFlight := fun _ h => nomatch h
  once := nodup_nil
  gotNodup := fun _ _ => nodup_nil
  got := fun _ _ _ h => nomatch h
  gotNil := fun _ _ _ => rfl
  holds := fun _ _ _ h => nomatch h
  waits := fun _ _ _ h => nomatch h
  executed := fun _ h => nomatch h

variable {p p' q : PartitionId} {id id' : TxnId} {s s' : Workers} {t : Transaction}
  {m : PartitionId × RemoteReadResult} {rest : List (PartitionId × RemoteReadResult)}

theorem update₂_eq_some {α : Type*} {f : PartitionId → TxnId → Option α} {x y : Option α}
    (h : update₂ f p id x p' id' = y) :
    p' = p ∧ id' = id ∧ x = y ∨ ¬ (p' = p ∧ id' = id) ∧ f p' id' = y := by
  unfold update₂ at h
  split_ifs at h with heq
  · exact .inl ⟨heq.1, heq.2, h⟩
  · exact .inr ⟨heq, h⟩

/-- A transaction that was executed does not wait, and one that has not been read was not
executed. -/
theorem Inv.not_executed (hs : Inv c txns s) (h : (s.txnStates p id).isSome ∨ s.snapshot p id = none) :
    ∀ e ∈ s.executed, ¬ (e.partition = p ∧ e.id = id) := by
  rintro e he ⟨rfl, rfl⟩
  obtain ⟨hnone, hholds, -⟩ := hs.executed e he
  rcases h with h | h
  · simp [hnone] at h
  · have := hholds.read
    simp [h] at this

theorem Inv.setState_none (hs : Inv c txns s) (p : PartitionId) (id : TxnId) :
    Inv c txns (s.setState p id none) := by
  have hstate (p' id' state) (h : (s.setState p id none).txnStates p' id' = some state) :
      s.txnStates p' id' = some state := by
    rcases update₂_eq_some h with ⟨-, -, h⟩ | ⟨-, h⟩
    · cases h
    · exact h
  refine { hs with
    inFlight := fun m hm => ?_
    holds := fun p' id' state h => ?_
    waits := fun p' id' state h => ?_
    executed := fun e he => ?_ }
  · exact { hs.inFlight m hm with }
  · exact { hs.holds p' id' state (hstate _ _ _ h) with }
  · exact hs.waits p' id' state (hstate _ _ _ h)
  · obtain ⟨hnone, hholds, hlen⟩ := hs.executed e he
    refine ⟨?_, { hholds with }, hlen⟩
    simp only [setState, update₂, hnone, ite_self]

/-- A transaction starts to wait, or goes on waiting. -/
theorem Inv.setState_some (hs : Inv c txns s) {n : ℕ}
    (hexec : ∀ e ∈ s.executed, ¬ (e.partition = p ∧ e.id = id)) (hholds : Holds c txns s p id t)
    (hn : 0 < n) (hlen : n + (s.got p id).length + 1 = (txns id).internal.involvedPartitions.length) :
    Inv c txns (s.setState p id (some ⟨t, n, .waitRemoteRead⟩)) := by
  refine { hs with
    inFlight := fun m hm => ?_
    holds := fun p' id' state h => ?_
    waits := fun p' id' state h => ?_
    executed := fun e he => ?_ }
  · exact { hs.inFlight m hm with }
  · rcases update₂_eq_some h with ⟨rfl, rfl, heq⟩ | ⟨-, h'⟩
    · cases heq
      exact { hholds with }
    · exact { hs.holds p' id' state h' with }
  · rcases update₂_eq_some h with ⟨rfl, rfl, heq⟩ | ⟨-, h'⟩
    · cases heq
      exact ⟨rfl, hn, hlen⟩
    · exact hs.waits p' id' state h'
  · obtain ⟨hnone, hholds, hlen⟩ := hs.executed e he
    refine ⟨?_, { hholds with }, hlen⟩
    simp only [setState, update₂]
    rw [if_neg (hexec e he)]
    exact hnone

theorem Inv.executeAndFinish (hs : Inv c txns s) (hholds : Holds c txns s p id t)
    (hlen : (s.got p id).length + 1 = (txns id).internal.involvedPartitions.length)
    (h : s.executeAndFinish c p id t = some s') : Inv c txns s' := by
  have hs₀ := hs.setState_none p id
  unfold Workers.executeAndFinish at h
  split_ifs at h with hrem hab
  · exact some_inj.mp h ▸ hs₀
  · cases h
    refine { hs₀ with
      inFlight := fun m hm => { hs₀.inFlight m hm with }
      holds := fun p' id' state h => { hs₀.holds p' id' state h with }
      executed := fun e he => ?_ }
    rcases mem_append.mp he with he | he
    · obtain ⟨hnone, hholds, hlen⟩ := hs₀.executed e he
      exact ⟨hnone, { hholds with }, hlen⟩
    · obtain rfl := mem_singleton.mp he
      exact ⟨by simp [setState, update₂], { hholds with }, hlen⟩

/-! ## A dispatch -/

/-- The state after the worker has read its storage and sent what it read. -/
def afterRead (c : WorkerConfig) (txns : TxnId → Transaction) (s : Workers) (p : PartitionId)
    (id : TxnId) : Workers :=
  { s with
    inFlight := s.inFlight ++ broadcastReads p (readLocal c.sharder p (s.storage p) (txns id))
    snapshot := update₂ s.snapshot p id (some (s.storage p)) }

theorem snapshot_afterRead (hfresh : s.snapshot p id = none) (h : (s.snapshot q id').isSome) :
    (afterRead c txns s p id).snapshot q id' = s.snapshot q id' := by
  refine if_neg ?_
  rintro ⟨rfl, rfl⟩
  simp [hfresh] at h

theorem snapshot_afterRead_self (s : Workers) (p : PartitionId) (id : TxnId) :
    (afterRead c txns s p id).snapshot p id = some (s.storage p) := if_pos ⟨rfl, rfl⟩

theorem sentKeys_congr {snapshot snapshot' : PartitionId → TxnId → Option Storage}
    (h : snapshot q id = snapshot' q id) :
    sentKeys c txns snapshot id q = sentKeys c txns snapshot' id q := by
  rw [sentKeys, sentKeys, h]

theorem readLocal_eq (ht : Submitted c.sharder (txns id)) :
    readLocal c.sharder p (s.storage p) (txns id) =
      { txns id with keys := sentKeys c txns (afterRead c txns s p id).snapshot id p } := by
  rw [readLocal, if_neg ht.notAborted, sentKeys, snapshot_afterRead_self]
  rfl

theorem Holds.afterRead (hs : Inv c txns s) (hfresh : s.snapshot p id = none)
    (h : Holds c txns s p' id' t) :
    Holds c txns (afterRead c txns s p id) p' id' t where
  read := by
    rw [snapshot_afterRead hfresh h.read]
    exact h.read
  involved := h.involved
  txn := by
    have hkeys : assembled c txns s.snapshot id' p' (s.got p' id') =
        assembled c txns (Workers.afterRead c txns s p id).snapshot id' p' (s.got p' id') := by
      refine assembled_congr fun q hq => (snapshot_afterRead hfresh ?_).symm
      rcases mem_cons.mp hq with rfl | hq
      · exact h.read
      · exact (hs.got p' id' q hq).1
    rw [h.txn, hkeys]
    rfl

theorem mem_broadcastReads :
    m ∈ broadcastReads p t ↔
      m.1 ∈ t.internal.involvedPartitions ∧ m.1 ≠ p ∧ m.2 = readResult p t := by
  obtain ⟨q, r⟩ := m
  simp only [broadcastReads, List.mem_map, List.mem_filter, Prod.mk.injEq, decide_eq_true_eq]
  constructor
  · rintro ⟨q', ⟨hq, hne⟩, rfl, rfl⟩
    exact ⟨hq, hne, rfl⟩
  · rintro ⟨hq, hne, rfl⟩
    exact ⟨q, ⟨hq, hne⟩, rfl, rfl⟩

theorem Inv.afterRead (hs : Inv c txns s) (ht : Submitted c.sharder (txns id)) (hid : (txns id).id = id)
    (hp : p ∈ (txns id).internal.involvedPartitions) (hfresh : s.snapshot p id = none) :
    Inv c txns (afterRead c txns s p id) := by
  have hnew : ∀ m ∈ broadcastReads p (readLocal c.sharder p (s.storage p) (txns id)),
      m.2.partition = p ∧ m.2.txnId = id := by
    intro m hm
    rw [(mem_broadcastReads.mp hm).2.2, readLocal_eq ht]
    exact ⟨rfl, hid⟩
  refine ⟨fun m hm => ?_, ?_, hs.gotNodup, fun p' id' q hq => ?_, fun p' id' h => ?_,
    fun p' id' state h => (hs.holds p' id' state h).afterRead hs hfresh, hs.waits, fun e he => ?_⟩
  · rcases mem_append.mp hm with hm | hm
    · have hm' := hs.inFlight m hm
      have hsame : (Workers.afterRead c txns s p id).snapshot m.2.partition m.2.txnId =
          s.snapshot m.2.partition m.2.txnId := snapshot_afterRead hfresh hm'.read
      exact { hm' with
        read := hsame ▸ hm'.read
        reads := hm'.reads.trans (sentKeys_congr hsame.symm) }
    · obtain ⟨hpart, htxn⟩ := hnew m hm
      obtain ⟨hinv, hne, hres⟩ := mem_broadcastReads.mp hm
      have hstatus : (readLocal c.sharder p (s.storage p) (txns id)).status ≠ .aborted := by
        rw [readLocal_eq ht]
        exact ht.notAborted
      refine ⟨?_, ?_, ?_, ?_, ?_, ?_⟩
      · rw [hpart, htxn, snapshot_afterRead_self]
        rfl
      · rwa [hpart, htxn]
      · rw [hpart]
        exact hne.symm
      · rw [hpart, htxn]
        intro hgot
        have := (hs.got _ _ _ hgot).1
        simp [hfresh] at this
      · rw [hres]
        exact decide_eq_false hstatus
      · rw [htxn, hpart, hres, readResult]
        simp only [hstatus, decide_false, Bool.false_eq_true, if_false]
        rw [readLocal_eq ht]
  · rw [Workers.afterRead, map_append, nodup_append']
    refine ⟨hs.once, ?_, fun x hx hx' => ?_⟩
    · have hinj : Function.Injective fun q =>
          route (q, readResult p (readLocal c.sharder p (s.storage p) (txns id))) :=
        fun q q' h => (Prod.mk.inj h).1
      rw [broadcastReads, List.map_map]
      refine (Nodup.filter _ ?_).map hinj
      rw [readLocal_eq ht]
      exact ht.involved_nodup
    · obtain ⟨m, hm, rfl⟩ := List.mem_map.mp hx
      obtain ⟨m', hm', heq⟩ := List.mem_map.mp hx'
      have hread := (hs.inFlight m hm).read
      obtain ⟨hpart, htxn⟩ := hnew m' hm'
      simp only [route, Prod.mk.injEq] at heq
      rw [← heq.2.1, ← heq.2.2, hpart, htxn, hfresh] at hread
      cases hread
  · obtain ⟨hread, hrest⟩ := hs.got p' id' q hq
    exact ⟨(snapshot_afterRead hfresh hread).symm ▸ hread, hrest⟩
  · refine hs.gotNil p' id' ?_
    rcases update₂_eq_some h with ⟨-, -, h'⟩ | ⟨-, h'⟩
    · cases h'
    · exact h'
  · obtain ⟨hnone, hholds, hlen⟩ := hs.executed e he
    exact ⟨hnone, hholds.afterRead hs hfresh, hlen⟩

/-- The transaction as it was just read. -/
theorem Inv.holds_afterRead (hs : Inv c txns s) (ht : Submitted c.sharder (txns id))
    (hp : p ∈ (txns id).internal.involvedPartitions) (hfresh : s.snapshot p id = none) :
    Holds c txns (Workers.afterRead c txns s p id) p id
      (readLocal c.sharder p (s.storage p) (txns id)) := by
  refine ⟨by rw [snapshot_afterRead_self]; rfl, hp, ?_⟩
  have hgot : (Workers.afterRead c txns s p id).got p id = [] := hs.gotNil p id hfresh
  rw [readLocal_eq ht, hgot]
  rfl

theorem numRemoteReads_add_one (ht : Submitted c.sharder (txns id))
    (hp : p ∈ (txns id).internal.involvedPartitions) :
    numRemoteReads p (readLocal c.sharder p (s.storage p) (txns id)) + 1 =
      (txns id).internal.involvedPartitions.length := by
  rw [readLocal_eq ht, numRemoteReads, if_pos hp]
  exact Nat.sub_add_cancel (length_pos_of_mem hp)

theorem Inv.dispatch (hs : Inv c txns s) (ht : Submitted c.sharder (txns id)) (hid : (txns id).id = id)
    (h : s.dispatch c txns p id = some s') : Inv c txns s' := by
  unfold Workers.dispatch at h
  split at h
  · cases h
  rename_i hguard
  push Not at hguard
  obtain ⟨hp, hread⟩ := hguard
  have hfresh : s.snapshot p id = none := by simpa using hread
  have hs₁ := hs.afterRead ht hid hp hfresh
  have hholds := hs.holds_afterRead ht hp hfresh
  have hnum := numRemoteReads_add_one (s := s) ht hp
  have hgot : (Workers.afterRead c txns s p id).got p id = [] := hs.gotNil p id hfresh
  dsimp only at h
  split_ifs at h with hstate hn
  · refine hs₁.executeAndFinish hholds ?_ h
    rw [hgot, ← hnum, hn]
    rfl
  · cases h
    refine hs₁.setState_some (hs.not_executed (.inr hfresh)) hholds (Nat.pos_of_ne_zero hn) ?_
    rw [hgot]
    exact hnum

/-! ## A delivery -/

/-- The state after the worker of `p` has applied the reads of `q`. -/
def afterGot (s : Workers) (rest : List (PartitionId × RemoteReadResult)) (p : PartitionId)
    (id : TxnId) (q : PartitionId) : Workers :=
  { s with inFlight := rest, got := update₂ s.got p id (s.got p id ++ [q]) }

theorem got_afterGot_of_ne (h : ¬ (p' = p ∧ id' = id)) :
    (afterGot s rest p id q).got p' id' = s.got p' id' := if_neg h

theorem got_afterGot_self (s : Workers) (rest : List (PartitionId × RemoteReadResult))
    (p q : PartitionId) (id : TxnId) :
    (afterGot s rest p id q).got p id = s.got p id ++ [q] := if_pos ⟨rfl, rfl⟩

theorem Holds.afterGot_of_ne (hne : ¬ (p' = p ∧ id' = id)) (h : Holds c txns s p' id' t) :
    Holds c txns (afterGot s rest p id q) p' id' t where
  read := h.read
  involved := h.involved
  txn := by
    rw [got_afterGot_of_ne hne]
    exact h.txn

theorem Inv.afterGot (hs : Inv c txns s) (hperm : s.inFlight.Perm (m :: rest))
    (hread : (s.snapshot m.1 m.2.txnId).isSome) (hstate : s.txnStates m.1 m.2.txnId = none)
    (hexec : ∀ e ∈ s.executed, ¬ (e.partition = m.1 ∧ e.id = m.2.txnId)) :
    Inv c txns (afterGot s rest m.1 m.2.txnId m.2.partition) := by
  have hm := hs.inFlight m (hperm.mem_iff.mpr mem_cons_self)
  have honce : (route m :: rest.map route).Nodup :=
    ((hperm.map route).nodup_iff.mp hs.once)
  rw [nodup_cons] at honce
  have hne (p' id' state) (h : s.txnStates p' id' = some state) :
      ¬ (p' = m.1 ∧ id' = m.2.txnId) := by
    rintro ⟨rfl, rfl⟩
    rw [hstate] at h
    cases h
  refine ⟨fun m' hm' => ?_, honce.2, fun p' id' => ?_, fun p' id' q hq => ?_, fun p' id' h => ?_,
    fun p' id' state h => (hs.holds p' id' state h).afterGot_of_ne (hne _ _ _ h),
    fun p' id' state h => ?_, fun e he => ?_⟩
  · have hold := hs.inFlight m' (hperm.mem_iff.mpr (mem_cons_of_mem _ hm'))
    refine { hold with notGot := ?_ }
    by_cases heq : m'.1 = m.1 ∧ m'.2.txnId = m.2.txnId
    · rw [heq.1, heq.2, got_afterGot_self, mem_append, mem_singleton]
      rintro (hgot | hpart)
      · exact hold.notGot (by rwa [heq.1, heq.2])
      · refine honce.1 (List.mem_map.mpr ⟨m', hm', ?_⟩)
        rw [route, heq.1, heq.2, hpart]
        rfl
    · rw [got_afterGot_of_ne heq]
      exact hold.notGot
  · by_cases heq : p' = m.1 ∧ id' = m.2.txnId
    · rw [heq.1, heq.2, got_afterGot_self, nodup_append']
      exact ⟨hs.gotNodup _ _, nodup_singleton _, by simpa using hm.notGot⟩
    · rw [got_afterGot_of_ne heq]
      exact hs.gotNodup p' id'
  · by_cases heq : p' = m.1 ∧ id' = m.2.txnId
    · rw [heq.1, heq.2, got_afterGot_self, mem_append, mem_singleton] at hq
      rw [heq.1, heq.2]
      rcases hq with hq | rfl
      · exact hs.got _ _ q hq
      · exact ⟨hm.read, hm.involved, hm.other⟩
    · rw [got_afterGot_of_ne heq] at hq
      exact hs.got p' id' q hq
  · have heq : ¬ (p' = m.1 ∧ id' = m.2.txnId) := by
      rintro ⟨rfl, rfl⟩
      change s.snapshot m.1 m.2.txnId = none at h
      rw [h] at hread
      cases hread
    rw [got_afterGot_of_ne heq]
    exact hs.gotNil p' id' h
  · rw [got_afterGot_of_ne (hne _ _ _ h)]
    exact hs.waits p' id' state h
  · obtain ⟨hnone, hholds, hlen⟩ := hs.executed e he
    refine ⟨hnone, hholds.afterGot_of_ne (hexec e he), ?_⟩
    rw [got_afterGot_of_ne (hexec e he)]
    exact hlen

theorem setState_setState (s : Workers) (p : PartitionId) (id : TxnId)
    (x y : Option TransactionState) : (s.setState p id x).setState p id y = s.setState p id y := by
  simp only [setState, Workers.mk.injEq, true_and, and_true]
  funext p' id'
  simp only [update₂]
  split_ifs <;> rfl

theorem executeAndFinish_setState (s : Workers) (p : PartitionId) (id : TxnId) (t : Transaction)
    (x : Option TransactionState) :
    (s.setState p id x).executeAndFinish c p id t = s.executeAndFinish c p id t := by
  simp only [executeAndFinish, setState_setState]

/-- The reads of another partition are applied to the transaction. -/
theorem InFlight.holds_afterGot (hm : InFlight c txns s m)
    (rest : List (PartitionId × RemoteReadResult)) (ht : Submitted c.sharder (txns m.2.txnId))
    (h : Holds c txns s m.1 m.2.txnId t) :
    Holds c txns (afterGot s rest m.1 m.2.txnId m.2.partition) m.1 m.2.txnId
      (applyRemoteRead c.type t m.2) where
  read := h.read
  involved := h.involved
  txn := by
    have hstatus : t.status ≠ .aborted := by
      rw [h.txn]
      exact ht.notAborted
    rw [applyRemoteRead, if_neg hstatus, hm.willNotAbort, if_neg Bool.false_ne_true,
      got_afterGot_self, assembled_concat, hm.reads, h.txn]
    rfl

theorem Inv.deliver (hs : Inv c txns s) (hsub : ∀ id, Submitted c.sharder (txns id)) {i : ℕ}
    (h : step c txns s (.deliver i) = some s') : Inv c txns s' := by
  obtain ⟨m, hget, h⟩ := bind_eq_some_iff.mp h
  have hperm : s.inFlight.Perm (m :: s.inFlight.eraseIdx i) := by
    obtain ⟨hlt, hget⟩ := List.getElem?_eq_some_iff.mp hget
    rw [← hget]
    exact (getElem_cons_eraseIdx_perm hlt).symm
  obtain ⟨state, hstate, h⟩ := bind_eq_some_iff.mp h
  change s.txnStates m.1 m.2.txnId = some state at hstate
  obtain ⟨hphase, hpos, hlen⟩ := hs.waits _ _ _ hstate
  have hholds := hs.holds _ _ _ hstate
  have hm := hs.inFlight m (hperm.mem_iff.mpr mem_cons_self)
  -- the transaction leaves its state, gets the reads, and is put back or executed
  have hs₀ := hs.setState_none m.1 m.2.txnId
  have hexec : ∀ e ∈ s.executed, ¬ (e.partition = m.1 ∧ e.id = m.2.txnId) :=
    hs.not_executed (.inl (hstate ▸ rfl))
  have hs₁ := hs₀.afterGot hperm hholds.read (if_pos ⟨rfl, rfl⟩) hexec
  have hholds₁ : Holds c txns (Workers.afterGot (s.setState m.1 m.2.txnId none)
      (s.inFlight.eraseIdx i) m.1 m.2.txnId m.2.partition) m.1 m.2.txnId
      (applyRemoteRead c.type state.txn m.2) :=
    { hm.holds_afterGot (s.inFlight.eraseIdx i) (hsub _) hholds with }
  have hgot := got_afterGot_self (s.setState m.1 m.2.txnId none) (s.inFlight.eraseIdx i) m.1
    m.2.partition m.2.txnId
  have hdec : decrement state.remoteReadsWaitingOn + 1 = state.remoteReadsWaitingOn := by
    rw [decrement, if_neg hpos.ne']
    omega
  have hlen₁ : decrement state.remoteReadsWaitingOn + ((Workers.afterGot
      (s.setState m.1 m.2.txnId none) (s.inFlight.eraseIdx i) m.1 m.2.txnId m.2.partition).got m.1
      m.2.txnId).length + 1 = (txns m.2.txnId).internal.involvedPartitions.length := by
    rw [hgot, length_append, length_singleton]
    change _ + ((s.got m.1 m.2.txnId).length + 1) + 1 = _
    omega
  dsimp only at h
  rw [hphase, if_pos rfl] at h
  split_ifs at h with hn
  · rw [← executeAndFinish_setState _ _ _ _ none] at h
    refine hs₁.executeAndFinish hholds₁ ?_ h
    rw [hn] at hlen₁
    omega
  · rw [some_inj, ← setState_setState _ _ _ none] at h
    subst h
    exact hs₁.setState_some hexec hholds₁ (Nat.pos_of_ne_zero hn) hlen₁

/-! ## Every run -/

/-- The invariant of every reachable state. -/
theorem inv_of_reachable {storage : PartitionId → Storage} (hsub : ∀ id, Submitted c.sharder (txns id))
    (hid : ∀ id, (txns id).id = id) (h : Lts.Reachable (step c txns) (init storage) s) :
    Inv c txns s := by
  refine Lts.invariant (step c txns) (inv_init storage) (fun s e s' hs h => ?_) h
  cases e with
  | dispatch p id => exact hs.dispatch (hsub id) (hid id) h
  | deliver i => exact hs.deliver hsub h

/-- A transaction is executed when the reads of all its partitions are there. -/
theorem Inv.got_all (hs : Inv c txns s) {e : Execution} (he : e ∈ s.executed)
    (hq : q ∈ (txns e.id).internal.involvedPartitions) : q ∈ e.partition :: s.got e.partition e.id := by
  obtain ⟨-, hholds, hlen⟩ := hs.executed e he
  have hnd : (e.partition :: s.got e.partition e.id).Nodup :=
    nodup_cons.mpr ⟨fun hmem => (hs.got _ _ _ hmem).2.2 rfl, hs.gotNodup _ _⟩
  have hsubset : e.partition :: s.got e.partition e.id ⊆ (txns e.id).internal.involvedPartitions := by
    intro q hq
    rcases mem_cons.mp hq with rfl | hq
    · exact hholds.involved
    · exact (hs.got _ _ _ hq).2.1
  have hperm := (hnd.subperm hsubset).perm_of_length_le (hlen.ge)
  exact hperm.mem_iff.mpr hq

/-- **The owners' values.**  A transaction of several partitions is executed with each of its keys
once, and with the value that the owner of the key has read, if and only if the execution type
merges remote reads. -/
theorem onOwnersValues_iff_mergesReads {storage : PartitionId → Storage} {s : Workers}
    (hsub : ∀ id, Submitted c.sharder (txns id)) (hid : ∀ id, (txns id).id = id)
    (h : Lts.Reachable (step c txns) (init storage) s) {e : Execution} (he : e ∈ s.executed)
    (hmulti : 2 ≤ (txns e.id).internal.involvedPartitions.length) :
    OnOwnersValues c txns s e ↔ c.type.mergesReads = true := by
  have hs := inv_of_reachable hsub hid h
  obtain ⟨-, hholds, hlen⟩ := hs.executed e he
  have hkeys : e.txn.keys = assembled c txns s.snapshot e.id e.partition
      (s.got e.partition e.id) := by rw [hholds.txn]
  constructor
  · intro howners
    by_contra happ
    rw [Bool.not_eq_true] at happ
    -- some key is there once for each of the two or more partitions
    obtain ⟨kv, hkv⟩ : ∃ kv, kv ∈ (txns e.id).keys := by
      rw [(hsub e.id).involved.1] at hmulti
      cases hk : (txns e.id).keys with
      | nil => simp [hk, sortUnique] at hmulti
      | cons kv _ => exact ⟨kv, mem_cons_self⟩
    have hcount : (e.txn.keys.map (·.key)).count kv.key =
        ((s.got e.partition e.id).length + 1) * ((txns e.id).keys.map (·.key)).count kv.key := by
      rw [hkeys]
      exact count_assembled_of_appends happ e.id s.snapshot e.partition _ kv.key
    rw [count_eq_one_of_mem (hsub e.id).nodup (mem_map_of_mem hkv), hlen,
      mul_one] at hcount
    have hle := nodup_iff_count_le_one.mp howners.nodup kv.key
    omega
  · intro hmerge
    obtain ⟨f, hf, hval⟩ := assembled_of_merges hmerge (hsub e.id) s.snapshot e.partition
      (s.got e.partition e.id)
    rw [hf] at hkeys
    refine ⟨?_, fun k => ?_, fun kv hkv => ?_⟩
    · rw [hkeys, map_key_withValues]
      exact (hsub e.id).nodup
    · rw [hkeys, map_key_withValues]
    · rw [hkeys] at hkv
      obtain ⟨kv, hmem, rfl⟩ := List.mem_map.mp hkv
      obtain ⟨q, hq, hown⟩ := (hsub e.id).owner hmem
      have hgot := hs.got_all he hq
      have hread : (s.snapshot q e.id).isSome := by
        rcases mem_cons.mp hgot with rfl | hgot
        · exact hholds.read
        · exact (hs.got _ _ _ hgot).1
      obtain ⟨st, hst⟩ := isSome_iff_exists.mp hread
      refine ⟨q, st, hown, hst, ?_⟩
      change f kv.key = _
      rw [hval kv.key q hown (mem_map_of_mem hmem), if_pos hgot, sentValue, if_pos hown, hst]
      rfl

/-! ## Two partitions -/

def twoShards : Sharder where
  numPartitions := 2
  computePartition := fun k => if k = "A" then some 0 else if k = "B" then some 1 else none
  lt_numPartitions := by
    intro k p h
    split_ifs at h
    · cases h; decide
    · cases h; decide

/-- Every transaction has the two keys. -/
def twoKeys (id : TxnId) : Transaction where
  internal := { id, involvedPartitions := [0, 1], activePartitions := [0, 1] }
  keys := [{ key := "A", type := .write }, { key := "B", type := .write }]

theorem submitted_twoKeys (id : TxnId) : Submitted twoShards (twoKeys id) where
  notAborted := nofun
  nodup := by simp [twoKeys]
  noValues := by simp [twoKeys]
  partitions := ⟨{ twoKeys id with internal := { id } }, rfl, rfl⟩

def config (type : ExecutionType) : WorkerConfig where
  sharder := twoShards
  type := type
  execute := fun _ _ storage => storage

/-- Partition `0` stores `a` for `A`, and partition `1` stores `b` for `B`. -/
def stored : PartitionId → Storage
  | 0 => fun k => if k = "A" then some { value := "a" } else none
  | _ => fun k => if k = "B" then some { value := "b" } else none

/-- Both partitions read, and the first one gets what the second one has read. -/
def exchange : List WorkersEvent := [.dispatch 0 1, .dispatch 1 1, .deliver 1]

theorem onOwnersValues_smallBank :
    ∃ s, Lts.run (step (config .smallBank) twoKeys) (init stored) exchange = some s ∧
      ∃ e ∈ s.executed, 2 ≤ (twoKeys e.id).internal.involvedPartitions.length ∧
        e.txn.keys.map (fun kv => (kv.key, kv.value)) = [("A", "a"), ("B", "b")] ∧
        OnOwnersValues (config .smallBank) twoKeys s e := by
  refine Lts.exists_run (p := fun s => ∃ e ∈ s.executed,
    2 ≤ (twoKeys e.id).internal.involvedPartitions.length ∧
      e.txn.keys.map (fun kv => (kv.key, kv.value)) = [("A", "a"), ("B", "b")]) (by decide +kernel) ?_
  rintro s hs ⟨e, he, hle, hkeys⟩
  exact ⟨e, he, hle, hkeys,
    (onOwnersValues_iff_mergesReads submitted_twoKeys (fun _ => rfl) ⟨_, hs⟩ he hle).mpr rfl⟩

/-- **With appended reads** every key is there twice, and the first entry of a key that another
partition owns, the one that the key-value execution uses, has no value. -/
theorem not_onOwnersValues_keyValue :
    ∃ s, Lts.run (step (config .keyValue) twoKeys) (init stored) exchange = some s ∧
      ∃ e ∈ s.executed, e.txn.keys.map (fun kv => (kv.key, kv.value)) =
          [("A", "a"), ("B", ""), ("A", ""), ("B", "b")] ∧
        ¬ OnOwnersValues (config .keyValue) twoKeys s e := by
  refine Lts.exists_run (p := fun s => ∃ e ∈ s.executed,
    e.txn.keys.map (fun kv => (kv.key, kv.value)) =
      [("A", "a"), ("B", ""), ("A", ""), ("B", "b")]) (by decide +kernel) ?_
  rintro s - ⟨e, he, hkeys⟩
  refine ⟨e, he, hkeys, fun howners => ?_⟩
  have hnd := howners.nodup
  have hnames : e.txn.keys.map (·.key) = ["A", "B", "A", "B"] := by
    have := congrArg (List.map Prod.fst) hkeys
    simpa [Function.comp_def] using this
  rw [hnames] at hnd
  exact absurd hnd (by decide)

end Janus.Workers
