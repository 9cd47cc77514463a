/-
# The order of conflicting transactions in Janus

The transactions that write a key are in a chain at every acceptor: each one is answered with the
one before it.  The chain survives in the commit messages if the coordinators wait for the answers
of all regions, and does not if some of them go on with the answers of half of the regions.  Readers
are not remembered, so that a writer is not ordered after a reader that came before it.
-/
import Penteract.JanusAnswers

namespace Janus.Protocol

open List Option Slog

/-! ## Reachability through commit messages -/

/-- The commit message of `a` has the dependency `b`. -/
def DependsOn (s : Protocol) (a b : TxnId) : Prop :=
  ∃ deps, s.committed a = some deps ∧ b ∈ shardedIds deps

def Reaches (s : Protocol) : TxnId → TxnId → Prop := Relation.ReflTransGen (DependsOn s)

/-- Nothing that was started is still on its way. -/
def AllCommitted (s : Protocol) : Prop := ∀ id ∈ s.started, (s.committed id).isSome

/-- Of a transaction that accesses a key in the given way and one that writes it, at least one is
reachable from the other. -/
def Ordered (type : KeyType) (s : Protocol) : Prop :=
  ∀ t u k, s.txns t.id = some t → s.txns u.id = some u → (s.committed t.id).isSome →
    (s.committed u.id).isSome → accesses type t k → writes u k →
      Reaches s t.id u.id ∨ Reaches s u.id t.id

variable {a b : TxnId} {t : Transaction} {k : Key} {m : Machine} {after : List Transaction}
  {p : PartitionId} {e : ProtocolEvent}

/-- The set is closed under dependencies. -/
abbrev Closed (s : Protocol) (S : Finset TxnId) : Prop :=
  ∀ a ∈ S, ∀ deps ∈ s.committed a, ∀ q ∈ deps, ∀ d ∈ q.2, d.1 ∈ S

theorem Reaches.mem_of_closed {s : Protocol} {S : Finset TxnId} (hS : Closed s S) (h : Reaches s a b)
    (ha : a ∈ S) : b ∈ S := by
  induction h with
  | refl => exact ha
  | tail _ hstep ih =>
    obtain ⟨deps, hdeps, q, hq, d, hd, rfl⟩ := hstep
    exact hS _ ih deps hdeps q hq d hd

/-- Two transactions are apart if neither is in the closed set of the other. -/
abbrev Apart (s : Protocol) (t u : Transaction) (S : TxnId → Finset TxnId) : Prop :=
  s.txns t.id = some t ∧ s.txns u.id = some u ∧ Closed s (S t.id) ∧ Closed s (S u.id) ∧
    (t.id ∈ S t.id ∧ u.id ∉ S t.id) ∧ u.id ∈ S u.id ∧ t.id ∉ S u.id

variable {c : Config} {s s' : Protocol}

theorem key_mem_of_accesses {type : KeyType} (h : accesses type t k) : k ∈ t.keys.map (·.key) := by
  obtain ⟨kv, hkv, rfl, -⟩ := accesses_iff.mp h
  exact mem_map_of_mem hkv

/-! ## Chains of writers -/

/-- A transaction depends on the latest writer before it of each of its keys, at every machine. -/
theorem Inv.dependsOn_lastWriter (hs : Inv c s) (hall : AllCommitted s) (hm : m.1 < c.numRegions)
    {before : List Transaction} (hsplit : s.history m = before ++ t :: after)
    (hk : k ∈ t.keys.map (·.key)) (hp : c.sharder.computePartition k = some m.2) {w : TxnId}
    (hw : lastWriter k before = some w) : DependsOn s t.id w := by
  have ht : s.txns t.id = some t := hs.history m t (by rw [hsplit]; simp)
  obtain ⟨deps, hdeps⟩ :=
    isSome_iff_exists.mp (hall t.id (hs.started _ (isSome_iff_exists.mpr ⟨t, ht⟩)))
  obtain ⟨t', ht', hans⟩ := hs.committed t.id deps hdeps
  obtain rfl : t = t' := some_inj.mp (ht.symm.trans ht')
  obtain ⟨p, hinv, hpart⟩ := hs.mem_involved ht hk
  obtain rfl : m.2 = p := some_inj.mp (hp.symm.trans hpart)
  obtain ⟨before', t', after', hsplit', hid, hlast⟩ := hans m.2 hinv m.1 hm
  have ht' : s.txns t'.id = some t' := hs.history m t' (by rw [hsplit']; simp)
  obtain rfl : t = t' := some_inj.mp (ht.symm.trans (hid ▸ ht'))
  -- the transaction occurs once in the history
  have hnd := hs.historyNodup m
  rw [hsplit, map_append, map_cons, nodup_append'] at hnd
  have hbefore : t ∉ before := fun h => hnd.2.2 (mem_map_of_mem h) mem_cons_self
  have hafter : t ∉ after := fun h => (nodup_cons.mp hnd.2.1).1 (mem_map_of_mem h)
  obtain ⟨rfl, -⟩ := (append_cons_inj_of_notMem hbefore hafter).mp (hsplit ▸ hsplit')
  exact ⟨deps, hdeps, hlast k hk hp w hw⟩

/-- Every earlier writer of a key is reachable, through the writers in between. -/
theorem Inv.reaches_writer (hs : Inv c s) (hall : AllCommitted s) (hm : m.1 < c.numRegions)
    (hp : c.sharder.computePartition k = some m.2) (before : List Transaction) {u : Transaction}
    (hsplit : s.history m = before ++ t :: after) (hk : k ∈ t.keys.map (·.key)) (hu : u ∈ before)
    (hw : writes u k) : Reaches s t.id u.id := by
  -- by induction on what comes before the transaction: the latest writer is closer to `u`
  induction hn : before.length using Nat.strong_induction_on generalizing before t after with
  | _ n ih =>
    obtain ⟨w, hlast⟩ := exists_lastWriter hu hw
    have hdep := hs.dependsOn_lastWriter hall hm hsplit hk hp hlast
    obtain ⟨before', v, after', hbefore, rfl, hv, hnone⟩ := lastWriter_eq_some hlast
    rw [hbefore, mem_append, mem_cons] at hu
    rcases hu with hu | rfl | hu
    · have hsplit' : s.history m = before' ++ v :: (after' ++ t :: after) := by
        rw [hsplit, hbefore]
        simp
      have hlt : before'.length < n := by
        rw [← hn, hbefore]
        simp
      exact .head hdep (ih _ hlt before' hsplit' (key_mem_of_accesses hv) hu rfl)
    · exact .single hdep
    · exact absurd hw (hnone u hu)

/-- The machine of the first region has pre-accepted every committed transaction. -/
theorem Inv.mem_history (hs : Inv c s) (ht : s.txns t.id = some t) (hcom : (s.committed t.id).isSome)
    (hk : k ∈ t.keys.map (·.key)) (hp : c.sharder.computePartition k = some p) :
    t ∈ s.history (0, p) := by
  obtain ⟨deps, hdeps⟩ := isSome_iff_exists.mp hcom
  obtain ⟨t', ht', hans⟩ := hs.committed t.id deps hdeps
  obtain rfl : t = t' := some_inj.mp (ht.symm.trans ht')
  obtain ⟨p', hinv, hpart⟩ := hs.mem_involved ht hk
  obtain rfl : p = p' := some_inj.mp (hp.symm.trans hpart)
  obtain ⟨before, v, after, hsplit, hid, -⟩ := hans p hinv 0 c.numRegions_pos
  have hmem : v ∈ s.history (0, p) := by
    rw [hsplit]
    simp
  have hv := hs.history _ v hmem
  rw [hid, ht, some_inj] at hv
  exact hv ▸ hmem

/-- Two transactions of a history, in the order in which they are in it. -/
theorem exists_split {α : Type*} {l : List α} {a b : α} (ha : a ∈ l) (hb : b ∈ l) (hne : a ≠ b) :
    (∃ before after, l = before ++ a :: after ∧ b ∈ before) ∨
      ∃ before after, l = before ++ b :: after ∧ a ∈ before := by
  obtain ⟨before, after, rfl⟩ := append_of_mem ha
  rcases mem_append.mp hb with hb | hb
  · exact .inl ⟨before, after, rfl, hb⟩
  · obtain ⟨mid, after', rfl⟩ :=
      append_of_mem ((mem_cons.mp hb).resolve_left (Ne.symm hne))
    exact .inr ⟨before ++ a :: mid, after', by simp, by simp⟩

/-- One of two transactions came first at the machine of the first region.  It has to be a writer. -/
theorem Inv.ordered (hs : Inv c s) (hall : AllCommitted s) {type : KeyType}
    (hfirst : ∀ p before u after, s.history (0, p) = before ++ u :: after → ∀ t ∈ before, ∀ k,
      c.sharder.computePartition k = some p → accesses type t k → writes u k → writes t k) :
    Ordered type s := by
  intro t u k ht hu htcom hucom htk huk
  rcases eq_or_ne t u with rfl | hne
  · exact .inl .refl
  have hk := key_mem_of_accesses htk
  have hk' := key_mem_of_accesses huk
  obtain ⟨p, -, hp⟩ := hs.mem_involved ht hk
  rcases exists_split (hs.mem_history ht htcom hk hp) (hs.mem_history hu hucom hk' hp) hne with
    ⟨before, after, hsplit, hmem⟩ | ⟨before, after, hsplit, hmem⟩
  · exact .inl (hs.reaches_writer hall c.numRegions_pos hp before hsplit hk hmem huk)
  · have htw := hfirst p before u after hsplit t hmem k hp htk huk
    exact .inr (hs.reaches_writer hall c.numRegions_pos hp before hsplit hk' hmem htw)

/-- **Writers are ordered** in every run in which the answers of a partition are enough only when
all regions have answered: once all transactions are committed, one of two writers of a key is
reachable from the other. -/
theorem writersOrdered_of_allAnswer {events : List ProtocolEvent}
    (hmeets : Lts.Meets (step c) (AllAnswer c) init events)
    (hrun : Lts.run (step c) init events = some s) (hall : AllCommitted s) :
    Ordered .write s :=
  (Lts.invariant_meets (step c) (inv_init c) (fun _ _ _ _ hs hcond h => hs.step hcond h) hmeets
    hrun).ordered hall fun _ _ _ _ _ _ _ _ _ htk _ => htk

theorem Apart.not_ordered {type : KeyType} {u : Transaction} {S : TxnId → Finset TxnId}
    (h : Apart s t u S) (hall : AllCommitted s) (hstarted : t.id ∈ s.started ∧ u.id ∈ s.started)
    (htk : accesses type t k) (huk : writes u k) : ¬ Ordered type s := by
  obtain ⟨ht, hu, hS, hS', hmem, hmem'⟩ := h
  intro hord
  rcases hord t u k ht hu (hall _ hstarted.1) (hall _ hstarted.2) htk huk with hreach | hreach
  · exact hmem.2 (hreach.mem_of_closed hS hmem.1)
  · exact hmem'.2 (hreach.mem_of_closed hS' hmem'.1)

/-! ### One partition -/

theorem lt_one_of_some {p : PartitionId} (h : some 0 = some p) : p < 1 := by
  cases h
  decide

def oneShard : Sharder where
  numPartitions := 1
  computePartition := fun _ => some 0
  lt_numPartitions := fun _ _ h => lt_one_of_some h

def regions (n : ℕ) : Config where
  numRegions := n + 1
  sharder := oneShard
  numRegions_pos := n.succ_pos

/-- The transaction with one key, as it comes from the client. -/
def client (type : KeyType) (id : TxnId) : Transaction where
  internal := { id }
  keys := [{ key := "A", type }]

/-- The transaction as the coordinator sends it. -/
def submitted (type : KeyType) (id : TxnId) : Transaction where
  internal.id := id
  internal.involvedPartitions := [0]
  internal.activePartitions := if type = .write then [0] else []
  keys := [{ key := "A", type }]

/-- The acceptor of a region pre-accepts transactions in the order of the list. -/
def preAccepts (reg : RegionId) (txns : List Transaction) : List ProtocolEvent :=
  txns.map fun t => .deliver (.preAccept (reg, 0) t 0)

def response (reg : RegionId) (id : TxnId) (deps : List Dependency) : ProtocolEvent :=
  .deliver (.preAcceptResponse (reg, 0) id (some deps))

/-- A transaction goes through the second phase in a region. -/
def accepts (id : TxnId) (deps : Finset Dependency) (reg : RegionId) : List ProtocolEvent :=
  [.deliver (.accept (reg, 0) id 0 [(0, deps)]), .deliver (.acceptResponse (reg, 0) id true)]

def commits (n : ℕ) (id : TxnId) (deps : Finset Dependency) : List ProtocolEvent :=
  (List.range n).map fun reg => .deliver (.commit (reg, 0) id [(0, deps)])

/-- Two writers in one region. -/
def twoWriters : List ProtocolEvent :=
  [.start (client .write 1), .start (client .write 2)] ++
    preAccepts 0 [submitted .write 1, submitted .write 2] ++
    [response 0 1 [], response 0 2 [(1, 1)]]

theorem writersOrdered_twoWriters :
    ∃ s, Lts.run (step (regions 0)) init twoWriters = some s ∧ s.started = [1, 2] ∧
      AllCommitted s ∧ Ordered .write s := by
  have hmeets : Lts.Meets (step (regions 0)) (AllAnswer (regions 0)) init twoWriters :=
    of_decide_eq_true (by decide +kernel)
  refine Lts.exists_run (p := fun s => s.started = [1, 2] ∧
    ∀ id ∈ s.started, (s.committed id).isSome) (by decide +kernel) ?_
  exact fun s hs h => ⟨h.1, h.2, writersOrdered_of_allAnswer hmeets hs h.2⟩

/-- Four writers in three regions.  The acceptors see them in different orders, and each of the
coordinators has two different answers before the third. -/
def fourWriters : List ProtocolEvent :=
  [1, 2, 3, 4].map (fun id => .start (client .write id)) ++
    preAccepts 0 ([1, 3, 2, 4].map (submitted .write)) ++
    preAccepts 1 ([4, 3, 1, 2].map (submitted .write)) ++
    preAccepts 2 ([3, 4, 2, 1].map (submitted .write)) ++
    [response 0 1 [], response 1 1 [(3, 1)], response 0 2 [(3, 1)], response 2 2 [(4, 1)],
      response 1 3 [(4, 1)], response 2 3 [], response 1 4 [], response 2 4 [(3, 1)]] ++
    -- the third answers come too late
    [response 2 1 [(2, 1)], response 1 2 [(1, 1)], response 0 3 [(1, 1)], response 0 4 [(2, 1)]] ++
    (List.range 3).flatMap (accepts 1 {(3, 1)}) ++
    (List.range 3).flatMap (accepts 2 {(3, 1), (4, 1)}) ++
    (List.range 3).flatMap (accepts 3 {(4, 1)}) ++
    (List.range 3).flatMap (accepts 4 {(3, 1)}) ++
    commits 3 1 {(3, 1)} ++ commits 3 2 {(3, 1), (4, 1)} ++ commits 3 3 {(4, 1)} ++
    commits 3 4 {(3, 1)}

/-- **Two writers that are not ordered**: all messages are delivered, and neither of the first two
transactions is reachable from the other. -/
theorem not_writersOrdered_fourWriters :
    ∃ s, Lts.run (step (regions 2)) init fourWriters = some s ∧ s.inFlight = [] ∧
      AllCommitted s ∧ ¬ Ordered .write s := by
  refine Lts.exists_run (p := fun s => s.inFlight = [] ∧ s.started = [1, 2, 3, 4] ∧
    (∀ id ∈ s.started, (s.committed id).isSome) ∧
    Apart s (submitted .write 1) (submitted .write 2) fun id => {id, 3, 4}) (by decide +kernel) ?_
  rintro s - ⟨hflight, hstarted, hall, hapart⟩
  exact ⟨hflight, hall, hapart.not_ordered (k := "A") hall (by simp [hstarted, submitted])
    (by decide) (by decide)⟩

/-! ## Readers -/

/-- The condition on a pre-accept: no key that the transaction writes was read before at the
acceptor, by a transaction that does not write it. -/
def WritersFirst (c : Config) (s : Protocol) : ProtocolEvent → Prop
  | .deliver (.preAccept m t _) => ∀ u ∈ s.history m, ∀ kv ∈ u.keys,
      c.sharder.computePartition kv.key = some m.2 → kv.type = .read → writes t kv.key →
        writes u kv.key
  | _ => True

instance (c : Config) (s : Protocol) : DecidablePred (WritersFirst c s) := by
  intro e
  unfold WritersFirst
  split
  · infer_instance
  · infer_instance

/-- No writer of a key comes after a transaction that only reads it. -/
def ReadersLast (c : Config) (s : Protocol) : Prop :=
  ∀ m before t after, s.history m = before ++ t :: after → ∀ u ∈ before, ∀ k,
    c.sharder.computePartition k = some m.2 → reads u k → writes t k → writes u k

/-- Histories change only when an acceptor pre-accepts. -/
theorem history_step (h : step c s e = some s') :
    s'.history = s.history ∨ ∃ m t ballot, e = .deliver (.preAccept m t ballot) ∧
      s'.history = Function.update s.history m (s.history m ++ [t]) := by
  cases e with
  | start t =>
    rw [step] at h
    split_ifs at h
    unfold startNewTxn at h
    cases hpop : t.populateInvolvedPartitions c.sharder with
    | none =>
      rw [hpop] at h
      exact .inl (some_inj.mp h ▸ rfl)
    | some u =>
      rw [hpop] at h
      dsimp only at h
      split_ifs at h
      exact .inl (some_inj.mp h ▸ rfl)
  | deliver msg =>
    rw [step] at h
    split_ifs at h
    cases msg with
    | preAccept m t ballot =>
      cases h
      by_cases hok : ((s.acceptors m).processPreAccept c.sharder m.2 t ballot).2.isSome
      · refine .inr ⟨m, t, ballot, rfl, ?_⟩
        change (if _ then _ else _) = _
        exact if_pos hok
      · refine .inl ?_
        change (if _ then _ else _) = _
        exact if_neg hok
    | preAcceptResponse m id deps =>
      obtain ⟨deps, rfl, rfl⟩ := map_eq_some_iff.mp h
      unfold preAcceptTxn
      cases s.coordinators id with
      | none => exact .inl rfl
      | some info =>
        dsimp only
        split_ifs <;> exact .inl rfl
    | accept m id ballot deps => exact .inl (some_inj.mp h ▸ rfl)
    | acceptResponse m id ok =>
      rw [handle] at h
      split_ifs at h
      cases h
      unfold acceptTxn
      cases s.coordinators id with
      | none => exact .inl rfl
      | some info =>
        dsimp only
        split_ifs <;> exact .inl rfl
    | commit m id deps => exact .inl (some_inj.mp h ▸ rfl)

theorem ReadersLast.step (hs : ReadersLast c s) (hcond : WritersFirst c s e) (h : step c s e = some s') :
    ReadersLast c s' := by
  intro m before t after hsplit u hu k hk hread hwrite
  rcases history_step h with heq | ⟨m', t', ballot, rfl, heq⟩
  · rw [heq] at hsplit
    exact hs m before t after hsplit u hu k hk hread hwrite
  · rcases eq_or_ne m m' with rfl | hne
    · rw [heq, Function.update_self] at hsplit
      rcases eq_nil_or_concat after with rfl | ⟨after', v, rfl⟩
      · -- the transaction is the one that was just pre-accepted
        obtain ⟨hbefore, ht⟩ := append_inj' hsplit rfl
        obtain rfl : t' = t := by simpa using ht
        obtain ⟨kv, hkv, rfl, htype⟩ := accesses_iff.mp hread
        exact hcond u (hbefore ▸ hu) kv hkv hk htype hwrite
      · refine hs m before t after' ?_ u hu k hk hread hwrite
        have hsplit' : s.history m ++ [t'] = (before ++ t :: after') ++ [v] := by
          rw [hsplit]
          simp
        exact (append_inj' hsplit' rfl).1
    · rw [heq, Function.update_of_ne hne] at hsplit
      exact hs m before t after hsplit u hu k hk hread hwrite

/-- **Readers and writers are ordered** in every run in which all regions answer and every acceptor
pre-accepts the writers of a key before the transactions that only read it. -/
theorem readersOrdered_of_writersFirst {events : List ProtocolEvent}
    (hmeets : Lts.Meets (step c) (fun s e => AllAnswer c s e ∧ WritersFirst c s e) init events)
    (hrun : Lts.run (step c) init events = some s) (hall : AllCommitted s) :
    Ordered .read s := by
  have hinit : ReadersLast c init := by
    intro m before t after h
    cases before <;> cases h
  obtain ⟨hs, hlast⟩ : Inv c s ∧ ReadersLast c s :=
    Lts.invariant_meets (P := fun s => Inv c s ∧ ReadersLast c s) (step c) ⟨inv_init c, hinit⟩
      (fun _ _ _ _ hs hcond h => ⟨hs.1.step hcond.1 h, hs.2.step hcond.2 h⟩) hmeets hrun
  exact hs.ordered hall fun p => hlast (0, p)

/-- A writer and then a reader in one region. -/
def writerReader : List ProtocolEvent :=
  [.start (client .write 1), .start (client .read 2)] ++
    preAccepts 0 [submitted .write 1, submitted .read 2] ++
    [response 0 1 [], response 0 2 [(1, 1)]]

theorem readersOrdered_writerReader :
    ∃ s, Lts.run (step (regions 0)) init writerReader = some s ∧ s.started = [1, 2] ∧
      AllCommitted s ∧ Ordered .read s := by
  have hmeets : Lts.Meets (step (regions 0))
      (fun s e => AllAnswer (regions 0) s e ∧ WritersFirst (regions 0) s e) init writerReader :=
    of_decide_eq_true (by decide +kernel)
  refine Lts.exists_run (p := fun s => s.started = [1, 2] ∧
    ∀ id ∈ s.started, (s.committed id).isSome) (by decide +kernel) ?_
  exact fun s hs h => ⟨h.1, h.2, readersOrdered_of_writersFirst hmeets hs h.2⟩

/-- A reader and then a writer in one region. -/
def readerWriter : List ProtocolEvent :=
  [.start (client .read 1), .start (client .write 2)] ++
    preAccepts 0 [submitted .read 1, submitted .write 2] ++
    [response 0 1 [], response 0 2 []] ++ commits 1 1 ∅ ++ commits 1 2 ∅

/-- **A reader and a writer that are not ordered**: the acceptor does not remember the reader, and
neither of the two transactions has a dependency. -/
theorem not_readersOrdered_readerWriter :
    ∃ s, Lts.run (step (regions 0)) init readerWriter = some s ∧ s.inFlight = [] ∧
      AllCommitted s ∧ ¬ Ordered .read s := by
  refine Lts.exists_run (p := fun s => s.inFlight = [] ∧ s.started = [1, 2] ∧
    (∀ id ∈ s.started, (s.committed id).isSome) ∧
    Apart s (submitted .read 1) (submitted .write 2) fun id => {id}) (by decide +kernel) ?_
  rintro s - ⟨hflight, hstarted, hall, hapart⟩
  exact ⟨hflight, hall, hapart.not_ordered (k := "A") hall (by simp [hstarted, submitted])
    (by decide) (by decide)⟩

end Janus.Protocol
