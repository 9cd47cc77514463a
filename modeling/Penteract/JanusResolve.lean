/-
# What a search does to the scheduler

A search from a vertex that waits changes the scheduler in one go: the components that it finds are
dispatched, and the vertex is filed under the dependencies that are missing.  The lemmas here say
what that means for the graph, the horizon and the index; nothing after them looks into the loops.
-/
import Penteract.JanusCluster

namespace Janus

open List TarjanSCCsFinder AssocMap Slog Relation

namespace Scheduler

open TarjanSCCsFinder (txnIds)

variable {c : SchedulerConfig} {s s' : Scheduler}

/-- Dispatched, or executed as far as the scheduler knows. -/
def Done (s : Scheduler) (x : TxnId) : Prop :=
  s.horizon.contains x = true ∨ s.graph.disc x ≠ 0

/-- In the graph and not dispatched. -/
def Blocked (s : Scheduler) (x : TxnId) : Prop := s.graph.active s.horizon.contains x = true

variable {x : TxnId}

theorem Blocked.mem (h : s.Blocked x) : x ∈ s.graph := by
  obtain ⟨vertex, hlookup, -, -⟩ := exists_of_active h
  exact mem_iff_lookup.mpr ⟨vertex, hlookup⟩

theorem blocked_iff : s.Blocked x ↔ x ∈ s.graph ∧ ¬ s.Done x := by
  rw [Blocked, Graph.active, Done, Graph.disc, mem_iff_lookup]
  cases s.graph.lookup x with
  | none => simp
  | some vertex => simp [and_comm]

/-! ## Dispatching -/

/-- The members of components have been dispatched one after the other. -/
structure Dispatched (s : Scheduler) (ms : List (TxnId × Bool)) (s' : Scheduler) : Prop where
  graph : ∀ x, s'.graph.lookup x = if (x, false) ∈ ms then none else s.graph.lookup x
  horizon : ∀ x, s'.horizon.contains x = (decide ((x, false) ∈ ms) || s.horizon.contains x)
  txns : ∀ x ∈ s.txns, (x, true) ∉ ms → x ∈ s'.txns
  dispatched : s'.dispatched.map Prod.snd =
    s.dispatched.map Prod.snd ++ (ms.filter Prod.snd).map Prod.fst
  pendingTxns : s'.pendingTxns = s.pendingTxns
  pendingInquiries : s'.pendingInquiries = s.pendingInquiries
  sent : s'.sent = s.sent
  misled : s'.misled = s.misled

theorem dispatchSCCs_eq (c : SchedulerConfig) (s : Scheduler) (sccs : List SCC) :
    dispatchSCCs c s sccs = sccs.flatten.foldlM (dispatchTxn c) s := by
  rw [dispatchSCCs]
  induction sccs generalizing s with
  | nil => rfl
  | cons scc sccs ih =>
    rw [foldlM_cons, flatten_cons, foldlM_append]
    congr 1
    funext s₁
    exact ih s₁

theorem dispatched_of_foldlM (c : SchedulerConfig) {ms : List (TxnId × Bool)}
    (hnodup : (ms.map Prod.fst).Nodup) (htxns : ∀ x, (x, true) ∈ ms → x ∈ s.txns) :
    ∃ s', ms.foldlM (dispatchTxn c) s = some s' ∧ Dispatched s ms s' := by
  induction ms generalizing s with
  | nil => exact ⟨s, rfl, by constructor <;> simp⟩
  | cons m ms ih =>
    obtain ⟨id, isLocal⟩ := m
    obtain ⟨hid, hnodup'⟩ := List.nodup_cons.mp hnodup
    have hnot (b : Bool) : (id, b) ∉ ms := fun hmem =>
      hid (List.mem_map.mpr ⟨(id, b), hmem, rfl⟩)
    cases isLocal with
    | true =>
      have hmem : id ∈ s.txns := htxns id List.mem_cons_self
      obtain ⟨s', hs', hd⟩ := @ih { s with
        txns := s.txns.erase id
        dispatched := s.dispatched ++ [(s.currentWorker, id)]
        currentWorker := (s.currentWorker + 1) % c.numWorkers } hnodup' fun x hx => by
          have hne : x ≠ id := by
            rintro rfl
            exact hnot true hx
          exact (mem_erase_of_ne hne).mpr (htxns x (List.mem_cons_of_mem _ hx))
      refine ⟨s', ?_, ⟨fun x => ?_, fun x => ?_, fun x hx hxm => ?_, ?_, hd.pendingTxns,
        hd.pendingInquiries, hd.sent, hd.misled⟩⟩
      · rw [foldlM_cons, dispatchTxn, if_pos rfl, if_pos hmem]
        exact hs'
      · rw [hd.graph]
        simp
      · rw [hd.horizon]
        simp
      · obtain ⟨hne, hxm⟩ := not_or.mp (mt List.mem_cons.mpr hxm)
        refine hd.txns x ((mem_erase_of_ne ?_).mpr hx) hxm
        rintro rfl
        exact hne rfl
      · rw [hd.dispatched]
        simp
    | false =>
      obtain ⟨s', hs', hd⟩ := @ih
        { s with graph := s.graph.erase id, horizon := s.horizon.add id } hnodup'
        fun x hx => htxns x (List.mem_cons_of_mem _ hx)
      refine ⟨s', ?_, ⟨fun x => ?_, fun x => ?_, fun x hx hxm => ?_, ?_, hd.pendingTxns,
        hd.pendingInquiries, hd.sent, hd.misled⟩⟩
      · rw [foldlM_cons, dispatchTxn, if_neg (by simp)]
        exact hs'
      · rw [hd.graph, lookup_erase']
        by_cases hx : x = id <;> simp [hx]
      · rw [hd.horizon, TxnHorizon.contains_add]
        by_cases hx : x = id <;> simp [hx]
      · exact hd.txns x hx fun hmem => hxm (List.mem_cons_of_mem _ hmem)
      · rw [hd.dispatched]
        simp

/-! ## The index of missing dependencies -/

/-- `x` is filed under `d`. -/
def Registered (index : PendingIndex) (x d : TxnId) : Prop :=
  ∃ waiting, index.lookup d = some waiting ∧ x ∈ waiting

/-- Under how many transactions `x` is filed. -/
def numRegistered (index : PendingIndex) (x : TxnId) : ℤ :=
  AssocMap.total (fun _ waiting => if x ∈ waiting then 1 else 0) index

variable {index : PendingIndex} {v : TxnId}

theorem registered_add (a x d : TxnId) :
    Registered (index.add a v).1 x d ↔ Registered index x d ∨ x = v ∧ d = a := by
  rw [Registered, Registered, PendingIndex.add]
  cases ha : index.lookup a with
  | none =>
    simp only [lookup_insert']
    by_cases hd : d = a
    · subst hd
      simp [ha]
    · simp [hd]
  | some waiting =>
    simp only [lookup_insert']
    by_cases hd : d = a
    · subst hd
      simp [ha, or_comm]
    · simp [hd]

theorem mem_add (a d : TxnId) : d ∈ (index.add a v).1 ↔ d ∈ index ∨ d = a := by
  rw [PendingIndex.add]
  cases ha : index.lookup a <;> simp [AList.mem_insert, or_comm]

theorem add_isNew (a : TxnId) : (index.add a v).2 = decide (a ∉ index) := by
  simp only [PendingIndex.add, not_mem_iff_lookup]
  cases index.lookup a <;> simp

theorem numRegistered_add {a : TxnId} (hnew : ¬ Registered index v a) (x : TxnId) :
    numRegistered (index.add a v).1 x = numRegistered index x + if x = v then 1 else 0 := by
  rw [numRegistered, numRegistered, PendingIndex.add]
  cases ha : index.lookup a with
  | none =>
    rw [total_insert_new ha]
    simp [add_comm]
  | some waiting =>
    have hv : v ∉ waiting := fun hv => hnew ⟨waiting, ha, hv⟩
    have hins := total_modify (f := fun _ l => if x ∈ l then (1 : ℤ) else 0)
      (fun l => l.insert v) ha
    rw [modify_of_lookup ha] at hins
    simp only [hins, mem_insert_iff]
    by_cases hx : x = v
    · subst hx
      simp [hv]
    · simp [hx]

/-- Nobody is filed twice under one transaction. -/
def NoRepeats (index : PendingIndex) : Prop :=
  ∀ d waiting, index.lookup d = some waiting → waiting.Nodup

theorem NoRepeats.add (h : NoRepeats index) (a : TxnId) : NoRepeats (index.add a v).1 := by
  intro d waiting hd
  rw [PendingIndex.add] at hd
  cases ha : index.lookup a with
  | none =>
    simp only [ha, lookup_insert_eq_some] at hd
    rcases hd with ⟨-, rfl⟩ | ⟨-, hd⟩
    · exact nodup_singleton v
    · exact h d waiting hd
  | some old =>
    simp only [ha, lookup_insert_eq_some] at hd
    rcases hd with ⟨-, rfl⟩ | ⟨-, hd⟩
    · exact (h a old ha).insert
    · exact h d waiting hd

/-- `v` has been filed under the dependencies `deps`; `asked` is to be asked of other partitions. -/
structure Filed (c : SchedulerConfig) (v : TxnId) (index : PendingIndex)
    (deps : List JanusDependency) (index' : PendingIndex) (asked : List (PartitionId × TxnId)) :
    Prop where
  registered : ∀ x d, Registered index' x d ↔
    Registered index x d ∨ x = v ∧ d ∈ deps.map (·.txnId)
  mem : ∀ d, d ∈ index' ↔ d ∈ index ∨ d ∈ deps.map (·.txnId)
  count : ∀ x, numRegistered index' x = numRegistered index x + if x = v then deps.length else 0
  nodup : NoRepeats index → NoRepeats index'
  asked : asked = (deps.filter fun dep => dep.txnId ∉ index &&
    !takesPart dep.participantsBitmap c.localPartition).map fun dep =>
      (dep.targetPartition, dep.txnId)

theorem filed_of_foldl (c : SchedulerConfig) {deps : List JanusDependency}
    (hnodup : (deps.map (·.txnId)).Nodup)
    (hnew : ∀ d ∈ deps.map (·.txnId), ¬ Registered index v d)
    (asked₀ : List (PartitionId × TxnId)) :
    ∃ index' asked, deps.foldl (addPending c v) (index, asked₀) = (index', asked₀ ++ asked) ∧
      Filed c v index deps index' asked := by
  induction deps generalizing index asked₀ with
  | nil => exact ⟨index, [], by simp, by constructor <;> simp⟩
  | cons dep deps ih =>
    obtain ⟨hdep, hnodup'⟩ := List.nodup_cons.mp hnodup
    have hnew' : ∀ d ∈ deps.map (·.txnId), ¬ Registered (index.add dep.txnId v).1 v d := by
      intro d hd hreg
      rcases (registered_add _ _ _).mp hreg with hold | ⟨-, rfl⟩
      · exact hnew d (List.mem_cons_of_mem _ hd) hold
      · exact hdep hd
    obtain ⟨index', asked, hfold, hfiled⟩ := ih hnodup' hnew'
      (addPending c v (index, asked₀) dep).2
    refine ⟨index', (addPending c v (index, []) dep).2 ++ asked, ?_, fun x d => ?_, fun d => ?_,
      fun x => ?_, fun h => hfiled.nodup (h.add _), ?_⟩
    · rw [List.foldl_cons]
      refine hfold.trans ?_
      simp only [addPending]
      split_ifs <;> simp
    · rw [hfiled.registered, registered_add, List.map_cons, List.mem_cons, or_assoc, ← and_or_left]
    · rw [hfiled.mem, mem_add, List.map_cons, List.mem_cons, or_assoc]
    · rw [hfiled.count, numRegistered_add (hnew _ List.mem_cons_self)]
      split_ifs
      · push_cast [List.length_cons]
        ring
      · ring
    · -- the ids are different, so that the first one does not change which others are new
      have hsame : (deps.filter fun d => d.txnId ∉ (index.add dep.txnId v).1 &&
          !takesPart d.participantsBitmap c.localPartition) =
          deps.filter fun d => d.txnId ∉ index &&
            !takesPart d.participantsBitmap c.localPartition := by
        refine List.filter_congr fun d hd => ?_
        have hne : d.txnId ≠ dep.txnId := fun heq =>
          hdep (List.mem_map.mpr ⟨d, hd, heq⟩)
        simp [mem_add, hne]
      rw [hfiled.asked, hsame, List.filter_cons]
      simp only [addPending, add_isNew]
      split_ifs <;> simp

/-- The bitmap of a transaction names its partitions among the first `n`, the schedulers of these
read it so, and each of them asks for the transaction exactly when it does not take part. -/
structure BitmapExact (n : ℕ) (t : Transaction) : Prop where
  bits : ∀ p < n, (participantsBitmap t).testBit p = true ↔ p ∈ t.internal.involvedPartitions
  test : ∀ p < n, takesPart (participantsBitmap t) p = true ↔ p ∈ t.internal.involvedPartitions
  asks : ∀ c : SchedulerConfig, c.localPartition < n → ∀ v index asked, ∀ dep : JanusDependency,
    dep.participantsBitmap = participantsBitmap t → dep.txnId ∉ index →
      ((addPending c v (index, asked) dep).2 = asked ++ [(dep.targetPartition, dep.txnId)] ↔
        c.localPartition ∉ t.internal.involvedPartitions)

theorem addPending_asks {asked : List (PartitionId × TxnId)} {dep : JanusDependency}
    (hnew : dep.txnId ∉ index) :
    (addPending c v (index, asked) dep).2 = asked ++ [(dep.targetPartition, dep.txnId)] ↔
      ¬ takesPart dep.participantsBitmap c.localPartition = true := by
  have hadd : (index.add dep.txnId v).2 = true := by
    rw [add_isNew]
    exact decide_eq_true hnew
  cases h : takesPart dep.participantsBitmap c.localPartition <;> simp [addPending, hadd, h]

/-- A machine word of participants is exact for every transaction if the test of the schedulers
is. -/
theorem BitmapExact.of_iff {n : ℕ} {t : Transaction}
    (hbits : ∀ p < n, (participantsBitmap t).testBit p = true ↔ p ∈ t.internal.involvedPartitions)
    (htest : ∀ p < n, takesPart (participantsBitmap t) p = true ↔
      p ∈ t.internal.involvedPartitions) : BitmapExact n t where
  bits := hbits
  test := htest
  asks c hc v index asked dep hbitmap hnew := by
    rw [addPending_asks hnew, hbitmap, htest _ hc]

/-- A transaction of one partition. -/
def onPartition (p : PartitionId) : Transaction :=
  { internal := { id := 1, involvedPartitions := [p] }, keys := [] }

/-- **The bitmaps are exact for all transactions exactly up to 32 partitions.** -/
theorem bitmapExact_iff (n : ℕ) :
    (∀ t : Transaction, (∀ p ∈ t.internal.involvedPartitions, p < n) → BitmapExact n t) ↔
      n ≤ 32 := by
  constructor
  · intro h
    by_contra hn
    -- partition `31` is taken for partition `32`
    have hexact := h (onPartition 31) fun p hp => by
      rw [mem_singleton.mp hp]
      exact Nat.lt_of_succ_lt (not_le.mp hn)
    have hbit := (hexact.bits 32 (by omega)).mp (by decide)
    exact absurd hbit (by decide)
  · intro hn t ht
    have hlt : ∀ q : ℕ, q ∈ t.internal.involvedPartitions → q < 32 := fun q hq =>
      (ht q hq).trans_le hn
    have hbits : ∀ i, (participantsBitmap t).testBit i = true ↔
        ∃ q : ℕ, q ∈ t.internal.involvedPartitions ∧ (i = q ∨ q = 31 ∧ 31 ≤ i ∧ i < 64) := by
      intro i
      rw [testBit_participantsBitmap]
      refine exists_congr fun q => and_congr_right fun hq => ?_
      exact testBit_partitionBit (hlt q hq) i
    refine .of_iff (fun p hp => ?_) fun p hp => ?_
    · rw [hbits]
      constructor
      · rintro ⟨q, hq, rfl | ⟨rfl, h31, -⟩⟩
        · exact hq
        · rwa [show p = 31 by omega]
      · exact fun hmem => ⟨p, hmem, .inl rfl⟩
    · rw [takesPart_iff]
      constructor
      · rintro ⟨i, hi, hpi⟩
        obtain ⟨q, hq, hqi⟩ := (hbits i).mp hi
        have hq32 := hlt q hq
        have hpi := (testBit_partitionBit (hp.trans_le hn) i).mp hpi
        rwa [show p = q by omega]
      · intro hmem
        exact ⟨p, (hbits p).mpr ⟨p, hmem, .inl rfl⟩,
          (testBit_partitionBit (hp.trans_le hn) p).mpr (.inl rfl)⟩

/-- **Partition `31` is taken for partition `32`.** -/
theorem not_bitmapExact_thirtyOne :
    (participantsBitmap (onPartition 31)).testBit 32 = true ∧
      32 ∉ (onPartition 31).internal.involvedPartitions ∧ ¬ BitmapExact 33 (onPartition 31) := by
  refine ⟨by decide, by decide, fun h => ?_⟩
  exact absurd ((h.bits 32 (by decide)).mp (by decide)) (by decide)

/-! ## A search -/

/-- What holds of a scheduler between and during its steps; `committed` are the transactions whose
commit has arrived. -/
structure Wf (w : Workload) (p : PartitionId) (committed : List TxnId) (s : Scheduler) : Prop where
  keyed : s.graph.WellKeyed
  vertex : ∀ x vertex, s.graph.lookup x = some vertex →
    vertex.deps = w.deps x ∧ vertex.isLocal = decide (p ∈ w.participants x)
  apart : ∀ x ∈ s.graph, s.horizon.contains x = false
  txns : ∀ x, s.Blocked x → p ∈ w.participants x → x ∈ s.txns
  known : ∀ x, p ∈ w.participants x → x ∈ s.graph ∨ s.horizon.contains x = true → x ∈ committed
  dispatched : ∀ x, x ∈ s.dispatched.map Prod.snd ↔ p ∈ w.participants x ∧ s.Done x
  kept : ∀ x ∈ s.graph, s.Done x → p ∈ w.participants x

/-- The scheduler after a search from `v`, when `finder` is the end of the search. -/
structure Resolved (c : SchedulerConfig) (s : Scheduler) (v : TxnId) (finder : TarjanSCCsFinder)
    (s' : Scheduler) : Prop where
  lookup : ∀ x, s'.graph.lookup x = if (x, false) ∈ finder.sccs.flatten then none else
    (finder.finalize.1.lookup x).map fun vertex =>
      if x = v then { vertex with missingDeps := finder.missingDeps.length } else vertex
  horizon : ∀ x, s'.horizon.contains x =
    (decide ((x, false) ∈ finder.sccs.flatten) || s.horizon.contains x)
  txns : ∀ x ∈ s.txns, (x, true) ∉ finder.sccs.flatten → x ∈ s'.txns
  dispatched : s'.dispatched.map Prod.snd =
    s.dispatched.map Prod.snd ++ (finder.sccs.flatten.filter Prod.snd).map Prod.fst
  filed : ∃ asked, Filed c v s.pendingTxns finder.missingDeps s'.pendingTxns asked ∧
    s'.sent = s.sent ++ inquiries c asked
  pendingInquiries : s'.pendingInquiries = s.pendingInquiries
  misled : s'.misled = (s.misled || finder.stale)

section Resolve

variable {w : Workload} {p : PartitionId} {committed : List TxnId} {finder : TarjanSCCsFinder}

variable {x : TxnId}

theorem member_snd (hwf : Wf w p committed s) (hx : x ∈ s.graph) :
    s.graph.member x = (x, decide (p ∈ w.participants x)) := by
  obtain ⟨vertex, hlookup⟩ := mem_iff_lookup.mp hx
  rw [Graph.member, hlookup, Option.map_some, (hwf.vertex x vertex hlookup).2]
  rfl

/-- The members of the components, and whether they are local. -/
theorem mem_flatten_iff (hwf : Wf w p committed s)
    (hgood : Good s.horizon.contains s.graph finder []) {b : Bool} :
    (x, b) ∈ finder.sccs.flatten ↔
      x ∈ txnIds finder.sccs ∧ decide (p ∈ w.participants x) = b := by
  have hmember {b : Bool} (hm : (x, b) ∈ finder.sccs.flatten) :
      b = decide (p ∈ w.participants x) := by
    obtain ⟨scc, hscc, hm⟩ := mem_flatten.mp hm
    obtain ⟨before, after, heq⟩ := append_of_mem hscc
    obtain ⟨hactive, -, -, hmembers, -, -⟩ := hgood.components before scc after heq
    have hblocked : s.Blocked x := hactive x (mem_map_of_mem hm)
    have := hmembers _ hm
    rw [member_snd hwf hblocked.mem] at this
    exact (Prod.mk.inj this).2
  constructor
  · intro hm
    exact ⟨mem_map_of_mem hm, (hmember hm).symm⟩
  · rintro ⟨hx, rfl⟩
    obtain ⟨⟨y, b⟩, hm, rfl⟩ := List.mem_map.mp hx
    exact hmember hm ▸ hm

theorem resolved_of_findRound (hwf : Wf w p committed s)
    (hgood : Good s.horizon.contains s.graph finder [])
    (hround : findRound s.horizon.contains s.graph v = some finder)
    (hnew : ∀ d, ¬ Registered s.pendingTxns v d) (ready : List TxnId) :
    ∃ s', findAndResolveSCCs (w.config p) s v ready =
        some (s', (txnIds finder.sccs).reverse ++ ready, finder.stack) ∧
      Resolved (w.config p) s v finder s' := by
  obtain ⟨index, asked, hfold, hfiled⟩ := filed_of_foldl (w.config p) hgood.missingNodup
    (fun d _ => hnew d) []
  have htxns {x : TxnId} (hm : (x, true) ∈ finder.sccs.flatten) : x ∈ s.txns := by
    obtain ⟨hx, hlocal⟩ := (mem_flatten_iff hwf hgood).mp hm
    refine hwf.txns x ?_ (of_decide_eq_true hlocal)
    exact active_of_num_ne_zero ((hgood.tarjan.met x).mpr (.inr hx))
  rw [findAndResolveSCCs, hround, Option.bind_some]
  simp only [TarjanSCCsFinder.finalize, hfold, nil_append, dispatchSCCs_eq]
  obtain ⟨s', hs', hd⟩ := @dispatched_of_foldlM { s with
    graph := AssocMap.modify finder.finalize.1 v fun x =>
      { x with missingDeps := finder.missingDeps.length }
    pendingTxns := index
    sent := s.sent ++ inquiries (w.config p) asked
    misled := s.misled || finder.stale } (w.config p) finder.sccs.flatten hgood.nodup
    fun x hx => htxns hx
  refine ⟨s', ?_, ⟨fun x => ?_, hd.horizon, hd.txns, hd.dispatched, ⟨asked, ?_, hd.sent⟩,
    hd.pendingInquiries, hd.misled⟩⟩
  · rw [Option.map_eq_some_iff]
    exact ⟨s', hs', rfl⟩
  · rw [hd.graph]
    exact if_congr Iff.rfl rfl (lookup_modify_map ..)
  · rw [hd.pendingTxns]
    exact hfiled

theorem Resolved.mem_graph (hres : Resolved c s v finder s')
    (hgood : Good s.horizon.contains s.graph finder []) :
    x ∈ s'.graph ↔ x ∈ s.graph ∧ (x, false) ∉ finder.sccs.flatten := by
  have hnone : finder.finalize.1.lookup x = none ↔ s.graph.lookup x = none := by
    rw [← Option.map_eq_none_iff (f := Vertex.skeleton), hgood.skeleton_finalize x,
      Option.map_eq_none_iff]
  rw [← not_iff_not, not_mem_iff_lookup, hres.lookup, not_and_or, not_not,
    not_mem_iff_lookup, ← hnone]
  by_cases hm : (x, false) ∈ finder.sccs.flatten
  · rw [if_pos hm]
    simp [hm]
  · rw [if_neg hm, Option.map_eq_none_iff]
    simp [hm]

/-- A vertex that is still there is the one from before, apart from its number and mark, and from the
count of missing dependencies of `v`. -/
theorem Resolved.vertex (hres : Resolved c s v finder s')
    (hgood : Good s.horizon.contains s.graph finder []) {vertex' : Vertex}
    (hx : s'.graph.lookup x = some vertex') :
    ∃ vertex, s.graph.lookup x = some vertex ∧ vertex'.txnId = vertex.txnId ∧
      vertex'.isLocal = vertex.isLocal ∧ vertex'.deps = vertex.deps ∧
      vertex'.missingDeps = if x = v then (finder.missingDeps.length : ℤ) else
        vertex.missingDeps := by
  have hskeleton := hgood.skeleton_finalize x
  have hm : (x, false) ∉ finder.sccs.flatten := fun hm => by
    rw [hres.lookup, if_pos hm] at hx
    exact absurd hx (by simp)
  rw [hres.lookup, if_neg hm] at hx
  obtain ⟨vertex₁, hlookup₁, rfl⟩ := Option.map_eq_some_iff.mp hx
  rw [hlookup₁, Option.map_some, eq_comm, Option.map_eq_some_iff] at hskeleton
  obtain ⟨vertex, hlookup, heq⟩ := hskeleton
  simp only [Vertex.skeleton, Prod.mk.injEq] at heq
  refine ⟨vertex, hlookup, ?_⟩
  by_cases hxv : x = v
  · rw [if_pos hxv, if_pos hxv]
    exact ⟨heq.1.symm, heq.2.1.symm, heq.2.2.1.symm, rfl⟩
  · rw [if_neg hxv, if_neg hxv]
    exact ⟨heq.1.symm, heq.2.1.symm, heq.2.2.1.symm, heq.2.2.2.symm⟩

section Effect

variable (hwf : Wf w p committed s)
  (hgood : Good s.horizon.contains s.graph finder [])
  (hres : Resolved c s v finder s')

include hwf hgood hres

variable {x : TxnId}

/-- The search dispatches exactly the components that it finds. -/
theorem Resolved.done_iff : s'.Done x ↔ s.Done x ∨ x ∈ txnIds finder.sccs := by
  have hdisc : s'.graph.disc x =
      if (x, false) ∈ finder.sccs.flatten then 0 else finder.finalize.1.disc x := by
    rw [Graph.disc, hres.lookup]
    by_cases hm : (x, false) ∈ finder.sccs.flatten
    · rw [if_pos hm, if_pos hm]
      rfl
    · rw [if_neg hm, if_neg hm, Option.map_map, Graph.disc]
      congr 2
      funext vertex
      simp only [Function.comp_apply]
      split_ifs <;> rfl
  have hfinal := hgood.disc_finalize x
  have hmem := mem_flatten_iff (x := x) (b := false) hwf hgood
  rw [Done, Done, hres.horizon, hdisc]
  by_cases hm : (x, false) ∈ finder.sccs.flatten
  · simp [hm, (hmem.mp hm).1]
  · simp only [hm, decide_false, Bool.false_or, if_false, hfinal, or_assoc]

theorem Resolved.blocked_iff : s'.Blocked x ↔ s.Blocked x ∧ x ∉ txnIds finder.sccs := by
  rw [Scheduler.blocked_iff, Scheduler.blocked_iff, hres.mem_graph hgood, hres.done_iff hwf hgood,
    not_or]
  have hmem := mem_flatten_iff (x := x) (b := false) hwf hgood
  constructor
  · rintro ⟨⟨hx, -⟩, hdone, hnot⟩
    exact ⟨⟨hx, hdone⟩, hnot⟩
  · rintro ⟨⟨hx, hdone⟩, hnot⟩
    exact ⟨⟨hx, fun hm => hnot (hmem.mp hm).1⟩, hdone, hnot⟩

theorem Resolved.wf : Wf w p committed s' := by
  have hmem (x : TxnId) (b : Bool) := mem_flatten_iff (x := x) (b := b) hwf hgood
  refine ⟨fun x vertex' hx => ?_, fun x vertex' hx => ?_, fun x hx => ?_, fun x hx hp => ?_,
    fun x hp hx => ?_, fun x => ?_, fun x hx hdone => ?_⟩
  · obtain ⟨vertex, hlookup, hid, -⟩ := hres.vertex hgood hx
    exact hid.trans (hwf.keyed x vertex hlookup)
  · obtain ⟨vertex, hlookup, -, hlocal, hdeps, -⟩ := hres.vertex hgood hx
    rw [hdeps, hlocal]
    exact hwf.vertex x vertex hlookup
  · obtain ⟨hx, hm⟩ := (hres.mem_graph hgood).mp hx
    rw [hres.horizon, decide_eq_false hm, hwf.apart x hx]
    rfl
  · obtain ⟨hx, hnot⟩ := (hres.blocked_iff hwf hgood).mp hx
    exact hres.txns x (hwf.txns x hx hp) fun hm => hnot ((hmem x true).mp hm).1
  · refine hwf.known x hp ?_
    rcases hx with hx | hx
    · exact .inl ((hres.mem_graph hgood).mp hx).1
    · rw [hres.horizon, Bool.or_eq_true, decide_eq_true_eq] at hx
      refine hx.imp_left fun hm => ?_
      have := ((hmem x false).mp hm).2
      simp [hp] at this
  · rw [hres.dispatched, mem_append, hwf.dispatched, hres.done_iff hwf hgood, and_or_left]
    refine or_congr Iff.rfl ?_
    rw [List.mem_map]
    constructor
    · rintro ⟨⟨y, b⟩, hy, rfl⟩
      obtain ⟨hy, rfl⟩ := mem_filter.mp hy
      obtain ⟨hy, hp⟩ := (hmem y true).mp hy
      exact ⟨of_decide_eq_true hp, hy⟩
    · rintro ⟨hp, hx⟩
      exact ⟨(x, true), mem_filter.mpr ⟨(hmem x true).mpr ⟨hx, decide_eq_true hp⟩, rfl⟩, rfl⟩
  · obtain ⟨hx, hnot⟩ := (hres.mem_graph hgood).mp hx
    rcases (hres.done_iff hwf hgood).mp hdone with hdone | hemitted
    · exact hwf.kept x hx hdone
    · by_contra hp
      exact hnot ((hmem x false).mpr ⟨hemitted, decide_eq_false hp⟩)

end Effect

end Resolve

end Scheduler

end Janus
