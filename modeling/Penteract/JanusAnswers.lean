/-
# The answers that Janus commits

An acceptor answers a transaction with the transactions that were the latest writers of its keys
when it was pre-accepted.  If every coordinator waits for the answers of all regions, the
dependencies of a committed transaction include what the acceptors of its partitions have answered
in every region.
-/
import Penteract.JanusProtocol

namespace Janus

open List Option Function Slog

/-- The transaction has the key with the type. -/
def accesses (type : KeyType) (t : Transaction) (k : Key) : Bool :=
  t.keys.any fun kv => kv.key = k && kv.type = type

abbrev writes := accesses .write

abbrev reads := accesses .read

theorem accesses_iff {type : KeyType} {t : Transaction} {k : Key} :
    accesses type t k ↔ ∃ kv ∈ t.keys, kv.key = k ∧ kv.type = type := by
  simp [accesses]

/-! ## The latest writer -/

/-- The last transaction of a history that writes the key. -/
def lastWriter (k : Key) (history : List Transaction) : Option TxnId :=
  (history.reverse.find? (writes · k)).map Transaction.id

theorem lastWriter_concat (k : Key) (history : List Transaction) (t : Transaction) :
    lastWriter k (history ++ [t]) = if writes t k then some t.id else lastWriter k history := by
  rw [lastWriter, reverse_append, reverse_singleton, singleton_append,
    List.find?_cons]
  cases writes t k <;> rfl

theorem lastWriter_eq_some {k : Key} {history : List Transaction} {w : TxnId}
    (h : lastWriter k history = some w) :
    ∃ before u after, history = before ++ u :: after ∧ u.id = w ∧ writes u k ∧
      ∀ v ∈ after, ¬ writes v k := by
  obtain ⟨u, hu, rfl⟩ := map_eq_some_iff.mp h
  obtain ⟨hw, as, bs, hsplit, hnone⟩ := List.find?_eq_some_iff_append.mp hu
  refine ⟨bs.reverse, u, as.reverse, ?_, rfl, hw, fun v hv => ?_⟩
  · have := congrArg List.reverse hsplit
    simpa using this
  · simpa using hnone v (mem_reverse.mp hv)

theorem exists_lastWriter {k : Key} {history : List Transaction} {t : Transaction}
    (ht : t ∈ history) (hw : writes t k) : ∃ w, lastWriter k history = some w := by
  have hsome : (history.reverse.find? (writes · k)).isSome :=
    List.find?_isSome.mpr ⟨t, mem_reverse.mpr ht, hw⟩
  obtain ⟨u, hu⟩ := isSome_iff_exists.mp hsome
  exact ⟨u.id, by rw [lastWriter, hu]; rfl⟩

section Collect

variable {sh : Sharder} {p : PartitionId} {self : Dependency}

theorem mem_insertDep {deps : List Dependency} {d : Dependency} {w : TxnId} :
    w ∈ (insertDep deps d).map Prod.fst ↔ w = d.1 ∨ w ∈ deps.map Prod.fst := by
  rw [insertDep]
  split_ifs with h
  · constructor
    · exact .inr
    · rintro (rfl | hw)
      · exact h
      · exact hw
  · rw [map_append, mem_append, map_singleton, mem_singleton, or_comm]

theorem mem_collectDep {s : List Dependency × (Key → Option Dependency)} {kv : KeyValueEntry}
    {w : TxnId} (h : w ∈ s.1.map Prod.fst) :
    w ∈ (collectDep sh p self s kv).1.map Prod.fst := by
  rw [collectDep]
  by_cases hp : sh.computePartition kv.key = some p
  · rw [if_pos hp]
    cases s.2 kv.key with
    | none => exact h
    | some d => exact mem_insertDep.mpr (.inr h)
  · rwa [if_neg hp]

theorem mem_foldl_collectDep {keys : List KeyValueEntry}
    {s : List Dependency × (Key → Option Dependency)} {w : TxnId} (h : w ∈ s.1.map Prod.fst) :
    w ∈ (keys.foldl (collectDep sh p self) s).1.map Prod.fst := by
  induction keys generalizing s with
  | nil => exact h
  | cons kv keys ih => exact ih (mem_collectDep h)

/-- The acceptor answers with the latest writer of each key. -/
theorem foldl_collectDep_deps {keys : List KeyValueEntry}
    {s : List Dependency × (Key → Option Dependency)} {kv : KeyValueEntry} (hkv : kv ∈ keys)
    (hp : sh.computePartition kv.key = some p) {d : Dependency} (hd : s.2 kv.key = some d) :
    d.1 ∈ (keys.foldl (collectDep sh p self) s).1.map Prod.fst := by
  induction keys generalizing s with
  | nil => cases hkv
  | cons kv' keys ih =>
    rw [foldl_cons]
    by_cases heq : kv'.key = kv.key
    · -- the first entry of the key sees the latest writer before the transaction
      refine mem_foldl_collectDep ?_
      rw [collectDep, heq, if_pos hp, hd]
      exact mem_insertDep.mpr (.inl rfl)
    · have hmem : kv ∈ keys := by
        rcases mem_cons.mp hkv with rfl | h
        · exact absurd rfl heq
        · exact h
      refine ih hmem ?_
      rw [collectDep]
      split_ifs
      · exact (update_of_ne (Ne.symm heq) _ _).trans hd
      · exact hd
      · exact hd

/-- The transaction is then the latest writer of the keys that it writes. -/
theorem foldl_collectDep_latest (keys : List KeyValueEntry)
    (s : List Dependency × (Key → Option Dependency)) {k : Key}
    (hp : sh.computePartition k = some p) :
    (keys.foldl (collectDep sh p self) s).2 k =
      if keys.any (fun kv => kv.key = k && kv.type = .write) then some self else s.2 k := by
  induction keys generalizing s with
  | nil => rfl
  | cons kv keys ih =>
    rw [foldl_cons, ih, any_cons]
    by_cases hrest : keys.any (fun kv => kv.key = k && kv.type = .write)
    · simp [hrest]
    · rw [if_neg hrest, collectDep]
      by_cases hk : kv.key = k
      · rw [hk, if_pos hp]
        by_cases hw : kv.type = .write
        · simp [hw]
        · simp [hw, hrest]
      · have hne : k ≠ kv.key := Ne.symm hk
        by_cases hw : kv.type = .write
        · by_cases hloc : sh.computePartition kv.key = some p
          · simp [hk, hw, hloc, hne, hrest]
          · simp [hk, hloc, hrest]
        · by_cases hloc : sh.computePartition kv.key = some p
          · simp [hw, hloc, hrest]
          · simp [hk, hloc, hrest]

end Collect

namespace Protocol

/-! ## What an answer says -/

/-- The transaction was pre-accepted by the machine, and the writer before it of each of its keys
is one of `deps`. -/
def Answer (c : Config) (history : Machine → List Transaction) (m : Machine) (id : TxnId)
    (deps : Set TxnId) : Prop :=
  ∃ before t after, history m = before ++ t :: after ∧ t.id = id ∧
    ∀ k, k ∈ t.keys.map (·.key) → c.sharder.computePartition k = some m.2 →
      ∀ w, lastWriter k before = some w → w ∈ deps

/-- The transactions that are depended on. -/
def depIds (deps : Finset Dependency) : Set TxnId := { w | ∃ d ∈ deps, d.1 = w }

def shardedIds (deps : ShardedDeps) : Set TxnId := { w | ∃ q ∈ deps, w ∈ depIds q.2 }

section Answer

variable {c : Config} {history history' : Machine → List Transaction} {m : Machine} {id : TxnId}
  {deps deps' : Set TxnId}

theorem Answer.mono (h : Answer c history m id deps) (hsub : deps ⊆ deps') :
    Answer c history m id deps' := by
  obtain ⟨before, t, after, hsplit, hid, hdeps⟩ := h
  exact ⟨before, t, after, hsplit, hid, fun k hk hp w hw => hsub (hdeps k hk hp w hw)⟩

/-- Histories only grow. -/
theorem Answer.grow (h : Answer c history m id deps) (hpre : history m <+: history' m) :
    Answer c history' m id deps := by
  obtain ⟨before, t, after, hsplit, hid, hdeps⟩ := h
  obtain ⟨more, hmore⟩ := hpre
  refine ⟨before, t, after ++ more, ?_, hid, hdeps⟩
  rw [← hmore, hsplit]
  simp

theorem Answer.mem (h : Answer c history m id deps) : id ∈ (history m).map Transaction.id := by
  obtain ⟨before, t, after, hsplit, rfl, -⟩ := h
  rw [hsplit]
  simp

end Answer

/-! ## The invariant -/

def preAcceptRoute : Message → Option (Machine × TxnId)
  | .preAccept m t _ => some (m, t.id)
  | _ => none

def responseRoute : Message → Option (Machine × TxnId)
  | .preAcceptResponse m id (some _) => some (m, id)
  | _ => none

/-- The transaction of the second phase that a message is about. -/
def acceptId : Message → Option TxnId
  | .accept _ id _ _ => some id
  | .acceptResponse _ id _ => some id
  | _ => none

/-- What is known of the messages in flight. -/
structure MessagesInv (c : Config) (s : Protocol) (ms : List Message) : Prop where
  preAccepts : ∀ m t ballot, .preAccept m t ballot ∈ ms →
    s.txns t.id = some t ∧ m.1 < c.numRegions ∧ t.id ∉ (s.history m).map Transaction.id
  preAcceptOnce : (ms.filterMap preAcceptRoute).Nodup
  responses : ∀ m id deps, .preAcceptResponse m id (some deps) ∈ ms →
    Answer c s.history m id { w | w ∈ deps.map Prod.fst } ∧ m.1 < c.numRegions ∧
      m.1 ∉ s.answered id m.2
  responseOnce : (ms.filterMap responseRoute).Nodup

/-- What a coordinator has collected for a partition. -/
def Collected (c : Config) (s : Protocol) (id : TxnId) (p : PartitionId) :
    Option QuorumDeps → Prop
  | none => s.answered id p = []
  | some q => q.numReplicas = c.numRegions ∧ q.count = (s.answered id p).length ∧
      ∀ r ∈ s.answered id p, Answer c s.history (r, p) id (depIds q.deps)

/-- What is known of a coordinator. -/
structure CoordinatorInv (c : Config) (s : Protocol) (id : TxnId) (info : CoordinatorTxnInfo) :
    Prop where
  participants : ∃ t, s.txns id = some t ∧ info.participants = t.internal.involvedPartitions
  collected : ∀ p, Collected c s id p (info.shardedDeps p)
  /-- A partition whose answers are enough has got all of them. -/
  complete : ∀ p q, info.shardedDeps p = some q → q.isDone → q.count = c.numRegions
  /-- After the first phase all partitions have enough answers. -/
  accepting : info.phase = .accept → info.depsDone

structure Inv (c : Config) (s : Protocol) : Prop where
  txns : ∀ id t, s.txns id = some t → t.id = id ∧ ∃ client : Transaction,
    client.internal.involvedPartitions = [] ∧ client.populateInvolvedPartitions c.sharder = some t
  started : ∀ id, (s.txns id).isSome → id ∈ s.started
  history : ∀ m, ∀ t ∈ s.history m, s.txns t.id = some t
  historyNodup : ∀ m, ((s.history m).map Transaction.id).Nodup
  latest : ∀ m k, c.sharder.computePartition k = some m.2 →
    ((s.acceptors m).latestWritingTxns k).map Prod.fst = lastWriter k (s.history m)
  messages : MessagesInv c s s.inFlight
  answeredNodup : ∀ id p, (s.answered id p).Nodup
  answered : ∀ id p, ∀ r ∈ s.answered id p, r < c.numRegions ∧
    id ∈ (s.history (r, p)).map Transaction.id
  coordinators : ∀ id info, s.coordinators id = some info → CoordinatorInv c s id info
  accepts : ∀ msg ∈ s.inFlight, ∀ id, acceptId msg = some id → (s.txns id).isSome ∧
    ∀ info, s.coordinators id = some info → info.phase = .accept
  committed : ∀ id deps, s.committed id = some deps → ∃ t, s.txns id = some t ∧
    ∀ p ∈ t.internal.involvedPartitions, ∀ r < c.numRegions,
      Answer c s.history (r, p) id (shardedIds deps)

theorem inv_init (c : Config) : Inv c init where
  txns := fun _ _ h => nomatch h
  started := fun _ h => nomatch h
  history := fun _ _ h => nomatch h
  historyNodup := fun _ => nodup_nil
  latest := fun _ _ _ => rfl
  messages :=
    { preAccepts := fun _ _ _ h => nomatch h
      preAcceptOnce := nodup_nil
      responses := fun _ _ _ h => nomatch h
      responseOnce := nodup_nil }
  answeredNodup := fun _ _ => nodup_nil
  answered := fun _ _ _ h => nomatch h
  coordinators := fun _ _ h => nomatch h
  accepts := fun _ h => nomatch h
  committed := fun _ _ h => nomatch h

variable {c : Config} {s s' : Protocol} {m : Machine} {t : Transaction} {id : TxnId}
  {info info₁ : CoordinatorTxnInfo} {p : PartitionId} {deps : List Dependency}

theorem MessagesInv.sublist {ms ms' : List Message} (h : MessagesInv c s ms)
    (hsub : ms'.Sublist ms) : MessagesInv c s ms' where
  preAccepts := fun m t ballot hm => h.preAccepts m t ballot (hsub.subset hm)
  preAcceptOnce := h.preAcceptOnce.sublist (hsub.filterMap _)
  responses := fun m id deps hm => h.responses m id deps (hsub.subset hm)
  responseOnce := h.responseOnce.sublist (hsub.filterMap _)

/-- Messages of the other kinds. -/
theorem MessagesInv.append {ms : List Message} (h : MessagesInv c s ms) (ms' : List Message)
    (h₁ : ms'.filterMap preAcceptRoute = []) (h₂ : ms'.filterMap responseRoute = []) :
    MessagesInv c s (ms ++ ms') where
  preAccepts := by
    intro m t ballot hm
    rcases mem_append.mp hm with hm | hm
    · exact h.preAccepts m t ballot hm
    · have := filterMap_eq_nil_iff.mp h₁ _ hm
      cases this
  preAcceptOnce := by
    rw [filterMap_append, h₁, append_nil]
    exact h.preAcceptOnce
  responses := by
    intro m id deps hm
    rcases mem_append.mp hm with hm | hm
    · exact h.responses m id deps hm
    · have := filterMap_eq_nil_iff.mp h₂ _ hm
      cases this
  responseOnce := by
    rw [filterMap_append, h₂, append_nil]
    exact h.responseOnce

/-- The partition of a key of a transaction takes part in it. -/
theorem Inv.mem_involved (hs : Inv c s) (ht : s.txns id = some t) {k : Key} (hk : k ∈ t.keys.map (·.key)) :
    ∃ p ∈ t.internal.involvedPartitions, c.sharder.computePartition k = some p := by
  obtain ⟨-, client, hnil, hpop⟩ := hs.txns id t ht
  obtain ⟨hshard, rfl⟩ := Transaction.populateInvolvedPartitions_eq_some hpop
  obtain ⟨kv, hkv, rfl⟩ := List.mem_map.mp hk
  obtain ⟨p, hp⟩ := isSome_iff_exists.mp (hshard kv hkv)
  refine ⟨p, ?_, hp⟩
  rw [hnil]
  exact mem_sortUnique.mpr (mem_filterMap.mpr ⟨kv, hkv, hp⟩)

/-- More answers are true of longer histories. -/
theorem Collected.grow {q : Option QuorumDeps} (h : Collected c s id p q) (hans : s'.answered id p = s.answered id p)
    (hpre : ∀ m, s.history m <+: s'.history m) : Collected c s' id p q := by
  cases q with
  | none => exact hans.trans h
  | some q =>
    obtain ⟨h₁, h₂, h₃⟩ := h
    refine ⟨h₁, hans ▸ h₂, fun r hr => ?_⟩
    rw [hans] at hr
    exact (h₃ r hr).grow (hpre _)

theorem mem_coordinators_update {id' : TxnId} {info' : CoordinatorTxnInfo}
    (h : update s.coordinators id (some info) id' = some info') :
    id' = id ∧ info' = info ∨ id' ≠ id ∧ s.coordinators id' = some info' := by
  rcases eq_or_ne id' id with rfl | hne
  · rw [update_self, some_inj] at h
    exact .inl ⟨rfl, h.symm⟩
  · rw [update_of_ne hne] at h
    exact .inr ⟨hne, h⟩

/-- Other messages than the answers of the first phase are sent. -/
theorem Inv.sendOther (hs : Inv c s) (ms : List Message)
    (hms : ∀ msg ∈ ms, preAcceptRoute msg = none ∧ responseRoute msg = none ∧
      ∀ id, acceptId msg = some id → (s.txns id).isSome ∧
        ∀ info, s.coordinators id = some info → info.phase = .accept) : Inv c (s.send ms) :=
  { hs with
    messages := { hs.messages.append ms (filterMap_eq_nil_iff.mpr fun m h => (hms m h).1)
      (filterMap_eq_nil_iff.mpr fun m h => (hms m h).2.1) with }
    coordinators := fun id info h => { hs.coordinators id info h with }
    accepts := forall_mem_append.mpr ⟨hs.accepts, fun msg hmsg => (hms msg hmsg).2.2⟩ }

/-- An acceptor keeps its latest writers. -/
theorem Inv.setAcceptor (hs : Inv c s) {a : Acceptor}
    (ha : a.latestWritingTxns = (s.acceptors m).latestWritingTxns) :
    Inv c { s with acceptors := update s.acceptors m a } := by
  refine { hs with
    latest := fun m' k hk => ?_
    messages := { hs.messages with }
    coordinators := fun id info h => { hs.coordinators id info h with } }
  refine Eq.trans ?_ (hs.latest m' k hk)
  change ((update s.acceptors m a m').latestWritingTxns k).map _ = _
  rcases eq_or_ne m' m with rfl | hne
  · rw [update_self, ha]
  · rw [update_of_ne hne]

/-- A coordinator keeps what it has collected. -/
theorem Inv.updateInfo (hs : Inv c s)
    (hinfo : s.coordinators id = some info) (hpart : info₁.participants = info.participants)
    (hdeps : info₁.shardedDeps = info.shardedDeps)
    (hphase : info₁.phase = info.phase ∨ info₁.phase = .accept ∧ info.depsDone) :
    Inv c (s.setInfo id info₁) := by
  have hdone : info₁.depsDone = info.depsDone := by
    rw [CoordinatorTxnInfo.depsDone, hpart, hdeps, CoordinatorTxnInfo.depsDone]
  refine { hs with
    messages := { hs.messages with }
    coordinators := fun id' info' h => ?_
    accepts := fun msg hmsg id' hid => ?_ }
  · rcases mem_coordinators_update h with ⟨rfl, rfl⟩ | ⟨-, h⟩
    · have hold := hs.coordinators id' info hinfo
      refine ⟨hpart ▸ hold.participants, hdeps ▸ hold.collected, hdeps ▸ hold.complete, ?_⟩
      rw [hdone]
      exact fun haccept => hphase.elim (fun h => hold.accepting (h ▸ haccept)) And.right
    · exact { hs.coordinators id' info' h with }
  · obtain ⟨h₁, h₂⟩ := hs.accepts msg hmsg id' hid
    refine ⟨h₁, fun info' h => ?_⟩
    rcases mem_coordinators_update h with ⟨rfl, rfl⟩ | ⟨-, h⟩
    · exact hphase.elim (fun h => h.trans (h₂ info hinfo)) And.left
    · exact h₂ info' h

/-! ## Starting a transaction -/

theorem mem_destinations :
    m ∈ info.destinations c ↔ m.2 ∈ info.participants ∧ m.1 < c.numRegions := by
  obtain ⟨reg, p⟩ := m
  simp only [CoordinatorTxnInfo.destinations, List.mem_flatMap, List.mem_map, List.mem_range,
    Prod.mk.injEq]
  constructor
  · rintro ⟨p', hp', reg', hreg, rfl, rfl⟩
    exact ⟨hp', hreg⟩
  · rintro ⟨hp, hreg⟩
    exact ⟨p, hp, reg, hreg, rfl, rfl⟩

theorem destinations_nodup (h : info.participants.Nodup) :
    (info.destinations c).Nodup := by
  refine nodup_flatMap.mpr ⟨fun p _ => ?_, h.imp fun {p p'} hne => ?_⟩
  · exact nodup_range.map fun a b hab => (Prod.mk.inj hab).1
  · intro m hm hm'
    obtain ⟨_, -, rfl⟩ := List.mem_map.mp hm
    obtain ⟨_, -, heq⟩ := List.mem_map.mp hm'
    exact hne (Prod.mk.inj heq).2.symm

theorem Inv.startNewTxn (hs : Inv c s) (hfresh : s.txns t.id = none)
    (hnil : t.internal.involvedPartitions = []) (h : s.startNewTxn c t = some s') : Inv c s' := by
  unfold Protocol.startNewTxn at h
  cases hpop : t.populateInvolvedPartitions c.sharder with
  | none =>
    rw [hpop] at h
    exact some_inj.mp h ▸ hs
  | some u =>
    rw [hpop] at h
    dsimp only at h
    have hid : u.id = t.id := by
      obtain ⟨-, rfl⟩ := Transaction.populateInvolvedPartitions_eq_some hpop
      rfl
    rw [← hid] at hfresh
    split_ifs at h with hcoord
    cases h
    -- what is known of the other transactions is still known
    have hsame {id : TxnId} {v : Transaction} (hv : s.txns id = some v) :
        update s.txns u.id (some u) id = some v := by
      have hne : id ≠ u.id := by
        rintro rfl
        rw [hfresh] at hv
        cases hv
      rw [update_of_ne hne]
      exact hv
    have hnew : u.internal.involvedPartitions.Nodup := by
      obtain ⟨-, rfl⟩ := Transaction.populateInvolvedPartitions_eq_some hpop
      rw [hnil]
      exact sortUnique_nodup _
    have hnohist (m : Machine) : u.id ∉ (s.history m).map Transaction.id := by
      intro hmem
      obtain ⟨v, hv, hvid⟩ := List.mem_map.mp hmem
      have := hs.history m v hv
      rw [hvid, hfresh] at this
      cases this
    have hunanswered (p : PartitionId) : s.answered u.id p = [] := by
      rw [eq_nil_iff_forall_not_mem]
      exact fun r hr => hnohist (r, p) (hs.answered u.id p r hr).2
    refine { hs with
      txns := fun id v hv => ?_
      started := fun id hid => ?_
      history := fun m v hv => hsame (hs.history m v hv)
      messages := ?_
      coordinators := fun id info hinfo => ?_
      accepts := fun msg hmsg id hid => ?_
      committed := fun id deps hdeps => ?_ }
    · rcases eq_or_ne id u.id with rfl | hne
      · change update s.txns u.id (some u) u.id = some v at hv
        rw [update_self, some_inj] at hv
        exact hv ▸ ⟨rfl, t, hnil, hpop⟩
      · exact hs.txns id v ((update_of_ne hne _ _).symm.trans hv)
    · change (update s.txns u.id (some u) id).isSome at hid
      refine mem_append.mpr ?_
      rcases eq_or_ne id u.id with rfl | hne
      · exact .inr (mem_singleton_self _)
      · rw [update_of_ne hne] at hid
        exact .inl (hs.started id hid)
    · refine ⟨fun m v ballot hm => ?_, ?_, fun m id deps hm => ?_, ?_⟩
      · rcases mem_append.mp hm with hm | hm
        · obtain ⟨h₁, h₂⟩ := hs.messages.preAccepts m v ballot hm
          exact ⟨hsame h₁, h₂⟩
        · obtain ⟨m', hm', ⟨⟩⟩ := List.mem_map.mp hm
          exact ⟨update_self .., (mem_destinations.mp hm').2, hnohist m⟩
      · rw [send, filterMap_append, nodup_append']
        refine ⟨hs.messages.preAcceptOnce, ?_, fun x hx hx' => ?_⟩
        · rw [filterMap_map]
          have hroute : preAcceptRoute ∘ (fun m => Message.preAccept m u 0) =
              fun m => some (m, u.id) := rfl
          rw [hroute, filterMap_eq_map']
          exact (destinations_nodup hnew).map fun a b hab => (Prod.mk.inj hab).1
        · obtain ⟨msg, hmsg, hroute⟩ := mem_filterMap.mp hx
          obtain ⟨msg', hmsg', hroute'⟩ := mem_filterMap.mp hx'
          obtain ⟨m', -, rfl⟩ := List.mem_map.mp hmsg'
          cases hroute'
          cases msg with
          | preAccept m v ballot =>
            have hvid := (Prod.mk.inj (some_inj.mp hroute)).2
            have htxn := (hs.messages.preAccepts m v ballot hmsg).1
            rw [hvid, hfresh] at htxn
            cases htxn
          | _ => cases hroute
      · rcases mem_append.mp hm with hm | hm
        · exact hs.messages.responses m id deps hm
        · obtain ⟨m', -, ⟨⟩⟩ := List.mem_map.mp hm
      · have hnone : ((CoordinatorTxnInfo.destinations c
            { participants := u.internal.involvedPartitions }).map
              (Message.preAccept · u 0)).filterMap responseRoute = [] := by
          rw [filterMap_map]
          exact filterMap_eq_nil_iff.mpr fun _ _ => rfl
        rw [send, filterMap_append, hnone, append_nil]
        exact hs.messages.responseOnce
    · rcases mem_coordinators_update hinfo with ⟨rfl, rfl⟩ | ⟨-, hinfo⟩
      · exact ⟨⟨u, update_self .., rfl⟩, hunanswered, nofun, nofun⟩
      · have hold := hs.coordinators id info hinfo
        exact { hold with participants := hold.participants.imp fun v hv => ⟨hsame hv.1, hv.2⟩ }
    · rcases mem_append.mp hmsg with hmsg | hmsg
      · obtain ⟨hsome, hphase⟩ := hs.accepts msg hmsg id hid
        obtain ⟨v, hv⟩ := isSome_iff_exists.mp hsome
        have hne : id ≠ u.id := by
          rintro rfl
          rw [hfresh] at hv
          cases hv
        refine ⟨isSome_iff_exists.mpr ⟨v, hsame hv⟩, fun info hinfo => ?_⟩
        exact hphase info ((mem_coordinators_update hinfo).resolve_left fun h => hne h.1).2
      · obtain ⟨m, -, rfl⟩ := List.mem_map.mp hmsg
        cases hid
    · obtain ⟨v, hv, hans⟩ := hs.committed id deps hdeps
      exact ⟨v, hsame hv, hans⟩

/-! ## An acceptor pre-accepts -/

theorem processPreAccept_cases {sh : Sharder} {p : PartitionId} {a : Acceptor} {t : Transaction}
    {ballot : ℕ} :
    (a.processPreAccept sh p t ballot = (a, none)) ∨
      ∃ deps, (a.processPreAccept sh p t ballot).2 = some deps ∧
        (∀ kv ∈ t.keys, sh.computePartition kv.key = some p → ∀ d,
          a.latestWritingTxns kv.key = some d → d.1 ∈ deps.map Prod.fst) ∧
        ∀ k, sh.computePartition k = some p →
          (a.processPreAccept sh p t ballot).1.latestWritingTxns k =
            if writes t k then some (t.id, participantsBitmap t) else a.latestWritingTxns k := by
  unfold Acceptor.processPreAccept
  dsimp only
  split_ifs
  · exact .inl rfl
  · refine .inr ⟨_, rfl, fun kv hkv hp d hd => ?_, fun k hp => ?_⟩
    · exact foldl_collectDep_deps hkv hp hd
    · exact foldl_collectDep_latest t.keys _ hp

theorem Inv.preAccept (hs : Inv c s) {ballot : ℕ}
    (ht : s.txns t.id = some t) (hm : m.1 < c.numRegions)
    (hnew : t.id ∉ (s.history m).map Transaction.id)
    (honce : (m, t.id) ∉ s.inFlight.filterMap preAcceptRoute)
    (h : s.handle c (.preAccept m t ballot) = some s') : Inv c s' := by
  cases h
  rcases @processPreAccept_cases c.sharder m.2 (s.acceptors m) t ballot with
    hrefused | ⟨deps, hdeps, hlatest, hwrites⟩
  · rw [hrefused]
    exact (hs.setAcceptor rfl).sendOther _ (by simp [preAcceptRoute, responseRoute, acceptId])
  · rw [hdeps, isSome_some, if_pos rfl]
    set history' := update s.history m (s.history m ++ [t]) with hhist
    have hself : history' m = s.history m ++ [t] := update_self ..
    have hother {m' : Machine} (hne : m' ≠ m) : history' m' = s.history m' :=
      update_of_ne hne _ _
    have hpre (m' : Machine) : s.history m' <+: history' m' := by
      rcases eq_or_ne m' m with rfl | hne
      · rw [hself]
        exact prefix_append _ _
      · rw [hother hne]
    have hmap (m' : Machine) {id : TxnId} (hid : id ∈ (s.history m').map Transaction.id) :
        id ∈ (history' m').map Transaction.id :=
      ((hpre m').map _).subset hid
    refine { hs with
      history := fun m' v hv => ?_
      historyNodup := fun m' => ?_
      latest := fun m' k hk => ?_
      messages := ?_
      answered := fun id p r hr => ?_
      coordinators := fun id info hinfo =>
        have hold := hs.coordinators id info hinfo
        { hold with collected := fun p => (hold.collected p).grow rfl hpre }
      accepts := fun msg hmsg id hid => ?_
      committed := fun id deps hdeps => ?_ }
    · change v ∈ history' m' at hv
      rcases eq_or_ne m' m with rfl | hne
      · rw [hself, mem_append, mem_singleton] at hv
        rcases hv with hv | rfl
        · exact hs.history m' v hv
        · exact ht
      · rw [hother hne] at hv
        exact hs.history m' v hv
    · change ((history' m').map Transaction.id).Nodup
      rcases eq_or_ne m' m with rfl | hne
      · rw [hself, map_append, nodup_append']
        exact ⟨hs.historyNodup m', nodup_singleton _, by simpa using hnew⟩
      · rw [hother hne]
        exact hs.historyNodup m'
    · change ((update s.acceptors m _ m').latestWritingTxns k).map Prod.fst =
        lastWriter k (history' m')
      rcases eq_or_ne m' m with rfl | hne
      · rw [update_self, hwrites k hk, hself, lastWriter_concat]
        split_ifs
        · rfl
        · exact hs.latest m' k hk
      · rw [update_of_ne hne, hother hne]
        exact hs.latest m' k hk
    · have hfresh : (m, t.id) ∉ s.inFlight.filterMap responseRoute := by
        intro hmem
        obtain ⟨msg, hmsg, hroute⟩ := mem_filterMap.mp hmem
        cases msg with
        | preAcceptResponse m' id deps =>
          cases deps with
          | none => cases hroute
          | some deps =>
            cases hroute
            exact hnew (hs.messages.responses _ _ _ hmsg).1.mem
        | _ => cases hroute
      refine ⟨fun m' v ballot' hmsg => ?_, ?_, fun m' id deps' hmsg => ?_, ?_⟩
      · have hmsg' : .preAccept m' v ballot' ∈ s.inFlight := by
          rcases mem_append.mp hmsg with hmsg | hmsg
          · exact hmsg
          · cases mem_singleton.mp hmsg
        obtain ⟨h₁, h₂, h₃⟩ := hs.messages.preAccepts m' v ballot' hmsg'
        refine ⟨h₁, h₂, ?_⟩
        change v.id ∉ (history' m').map Transaction.id
        rcases eq_or_ne m' m with rfl | hne
        · rw [hself, map_append, mem_append, not_or]
          refine ⟨h₃, fun hid => honce (mem_filterMap.mpr ⟨_, hmsg', ?_⟩)⟩
          rw [preAcceptRoute, mem_singleton.mp hid]
        · rwa [hother hne]
      · rw [send, filterMap_append]
        exact (append_nil _).symm ▸ hs.messages.preAcceptOnce
      · rcases mem_append.mp hmsg with hmsg | hmsg
        · obtain ⟨h₁, h₂⟩ := hs.messages.responses m' id deps' hmsg
          exact ⟨h₁.grow (hpre m'), h₂⟩
        · cases mem_singleton.mp hmsg
          refine ⟨⟨s.history m, t, [], hself, rfl, fun k hk hp w hw => ?_⟩, hm, fun hans => ?_⟩
          · obtain ⟨kv, hkv, rfl⟩ := List.mem_map.mp hk
            rw [← hs.latest m kv.key hp] at hw
            obtain ⟨d, hd, rfl⟩ := map_eq_some_iff.mp hw
            exact hlatest kv hkv hp d hd
          · exact hnew (hs.answered t.id m.2 m.1 hans).2
      · rw [send, filterMap_append, nodup_append']
        refine ⟨hs.messages.responseOnce, nodup_singleton _, ?_⟩
        intro x hx hx'
        obtain rfl := mem_singleton.mp hx'
        exact hfresh hx
    · obtain ⟨h₁, h₂⟩ := hs.answered id p r hr
      exact ⟨h₁, hmap _ h₂⟩
    · rcases mem_append.mp hmsg with hmsg | hmsg
      · exact hs.accepts msg hmsg id hid
      · cases mem_singleton.mp hmsg
        cases hid
    · obtain ⟨v, hv, hans⟩ := hs.committed id deps hdeps
      exact ⟨v, hv, fun p hp r hr => (hans p hp r hr).grow (hpre _)⟩

/-! ## A coordinator collects answers -/

theorem QuorumDeps.add_of_isDone {q : QuorumDeps} (h : q.isDone) (deps : Finset Dependency) :
    q.add deps = q := if_pos h

theorem QuorumDeps.add_spec {q : QuorumDeps} (h : ¬ q.isDone) (deps : Finset Dependency) :
    (q.add deps).numReplicas = q.numReplicas ∧ (q.add deps).count = q.count + 1 ∧
      deps ⊆ (q.add deps).deps ∧ (q.count ≠ 0 → q.deps ⊆ (q.add deps).deps) := by
  rw [QuorumDeps.add, if_neg h]
  by_cases hcount : q.count = 0
  · simp [hcount]
  · rw [if_neg hcount]
    by_cases hdiff : !q.isFastQuorum ∨ deps ≠ q.deps
    · simp only [if_pos hdiff]
      exact ⟨trivial, trivial, Finset.subset_union_right, fun _ => Finset.subset_union_left⟩
    · simp only [if_neg hdiff]
      push Not at hdiff
      exact ⟨trivial, trivial, hdiff.2.le, fun _ => le_rfl⟩

theorem depIds_mono {deps deps' : Finset Dependency} (h : deps ⊆ deps') :
    depIds deps ⊆ depIds deps' := by
  rintro w ⟨d, hd, rfl⟩
  exact ⟨d, h hd, rfl⟩

/-- The state of a coordinator after an answer, before it looks whether the answers are enough. -/
def collect (c : Config) (s : Protocol) (m : Machine) (id : TxnId) (info : CoordinatorTxnInfo)
    (deps : List Dependency) : Protocol :=
  { s.setInfo id (info.addDeps c m.2 deps) with
    answered := if !(info.shardedDeps m.2).any QuorumDeps.isDone then update s.answered id
      (update (s.answered id) m.2 (s.answered id m.2 ++ [m.1])) else s.answered }

/-- With the answer, the partition does not have enough answers unless all regions have given
one. -/
def inTime (c : Config) (s : Protocol) (m : Machine) (id : TxnId) (deps : List Dependency) : Bool :=
  match s.coordinators id with
  | none => true
  | some info => info.phase ≠ .preAccept ||
      ((info.addDeps c m.2 deps).shardedDeps m.2).all fun q => !q.isDone || q.count = c.numRegions

theorem collect_cases (deps : List Dependency)
    (hinfo : Collected c s id m.2 (info.shardedDeps m.2)) :
    (∃ q, info.shardedDeps m.2 = some q ∧ q.isDone ∧
        (info.addDeps c m.2 deps).shardedDeps m.2 = some q ∧
        (collect c s m id info deps).answered = s.answered) ∨
      ∃ q, (info.addDeps c m.2 deps).shardedDeps m.2 = some q ∧ q.numReplicas = c.numRegions ∧
        q.count = (s.answered id m.2).length + 1 ∧ deps.toFinset ⊆ q.deps ∧
        (∀ r ∈ s.answered id m.2, Answer c s.history (r, m.2) id (depIds q.deps)) ∧
        (collect c s m id info deps).answered = update s.answered id
          (update (s.answered id) m.2 (s.answered id m.2 ++ [m.1])) := by
  have hadd : (info.addDeps c m.2 deps).shardedDeps m.2 =
      some (((info.shardedDeps m.2).getD { numReplicas := c.numRegions }).add deps.toFinset) :=
    update_self ..
  cases hq : info.shardedDeps m.2 with
  | none =>
    rw [hq] at hadd hinfo
    have hnil : s.answered id m.2 = [] := hinfo
    have hnot : ¬ ({ numReplicas := c.numRegions } : QuorumDeps).isDone := by
      have := c.numRegions_pos
      simp only [QuorumDeps.isDone, if_true, decide_eq_true_eq]
      omega
    obtain ⟨h₁, h₂, h₃, -⟩ := QuorumDeps.add_spec hnot deps.toFinset
    refine .inr ⟨_, hadd, h₁, ?_, h₃, fun r hr => ?_, ?_⟩
    · rw [hnil]
      exact h₂
    · rw [hnil] at hr
      cases hr
    · simp [collect, hq]
  | some q =>
    rw [hq] at hadd hinfo
    obtain ⟨hrep, hcount, hans⟩ := hinfo
    by_cases hdone : q.isDone
    · refine .inl ⟨q, rfl, hdone, ?_, ?_⟩
      · rw [hadd, getD_some, QuorumDeps.add_of_isDone hdone]
      · simp [collect, hq, hdone]
    · obtain ⟨h₁, h₂, h₃, h₄⟩ := QuorumDeps.add_spec hdone deps.toFinset
      refine .inr ⟨_, hadd, h₁.trans hrep, ?_, h₃, fun r hr => ?_, ?_⟩
      · rw [← hcount]
        exact h₂
      · have hne : q.count ≠ 0 := by
          rw [hcount]
          exact (length_pos_of_mem hr).ne'
        exact (hans r hr).mono (depIds_mono (h₄ hne))
      · simp [collect, hq, hdone]

theorem update_update_of_ne {answered : TxnId → PartitionId → List RegionId} {id id' : TxnId}
    {p p' : PartitionId} {l : List RegionId} (hne : ¬ (id' = id ∧ p' = p)) :
    update answered id (update (answered id) p l) id' p' = answered id' p' := by
  rcases eq_or_ne id' id with rfl | hid
  · have hp : p' ≠ p := fun h => hne ⟨rfl, h⟩
    rw [update_self, update_of_ne hp]
  · rw [update_of_ne hid]

theorem Inv.collect (hs : Inv c s) (hinfo : s.coordinators id = some info)
    (hphase : info.phase = .preAccept)
    (hans : Answer c s.history m id { w | w ∈ deps.map Prod.fst }) (hm : m.1 < c.numRegions)
    (hnew : m.1 ∉ s.answered id m.2) (honce : (m, id) ∉ s.inFlight.filterMap responseRoute)
    (htime : inTime c s m id deps) : Inv c (Protocol.collect c s m id info deps) := by
  have hold := hs.coordinators id info hinfo
  have hcases := collect_cases deps (hold.collected m.2)
  have hother {p : PartitionId} (hp : p ≠ m.2) :
      (info.addDeps c m.2 deps).shardedDeps p = info.shardedDeps p :=
    update_of_ne hp _ _
  set answered' := (Protocol.collect c s m id info deps).answered with hanswered
  -- what has been answered after the call
  have hkept {id' : TxnId} {p : PartitionId} (hne : ¬ (id' = id ∧ p = m.2)) :
      answered' id' p = s.answered id' p := by
    rcases hcases with ⟨_, _, _, _, hsame⟩ | ⟨_, _, _, _, _, _, hmore⟩
    · rw [hsame]
    · rw [hmore, update_update_of_ne hne]
  have hgot : answered' id m.2 = s.answered id m.2 ∨
      answered' id m.2 = s.answered id m.2 ++ [m.1] := by
    rcases hcases with ⟨_, _, _, _, hsame⟩ | ⟨_, _, _, _, _, _, hmore⟩
    · exact .inl (by rw [hsame])
    · exact .inr (by rw [hmore, update_self, update_self])
  have hmem {id' : TxnId} {p : PartitionId} {r : RegionId} (hr : r ∈ answered' id' p) :
      r ∈ s.answered id' p ∨ id' = id ∧ p = m.2 ∧ r = m.1 := by
    by_cases heq : id' = id ∧ p = m.2
    · obtain ⟨rfl, rfl⟩ := heq
      rcases hgot with h | h
      · exact .inl (h ▸ hr)
      · rw [h, mem_append, mem_singleton] at hr
        exact hr.imp_right fun h => ⟨rfl, rfl, h⟩
    · exact .inl (hkept heq ▸ hr)
  refine { hs with
    messages := ⟨hs.messages.preAccepts, hs.messages.preAcceptOnce, fun m' id' deps' hmsg => ?_,
      hs.messages.responseOnce⟩
    answeredNodup := fun id' p => ?_
    answered := fun id' p r hr => ?_
    coordinators := fun id' info' h => ?_
    accepts := fun msg hmsg id' hid => ?_ }
  · obtain ⟨h₁, h₂, h₃⟩ := hs.messages.responses m' id' deps' hmsg
    refine ⟨h₁, h₂, fun hr => ?_⟩
    rcases hmem hr with hr | ⟨rfl, hp, hr⟩
    · exact h₃ hr
    · obtain rfl : m' = m := Prod.ext hr hp
      exact honce (mem_filterMap.mpr ⟨_, hmsg, rfl⟩)
  · change (answered' id' p).Nodup
    by_cases heq : id' = id ∧ p = m.2
    · obtain ⟨rfl, rfl⟩ := heq
      rcases hgot with h | h
      · rw [h]
        exact hs.answeredNodup _ _
      · rw [h, nodup_append']
        exact ⟨hs.answeredNodup _ _, nodup_singleton _, by simpa using hnew⟩
    · rw [hkept heq]
      exact hs.answeredNodup id' p
  · rcases hmem hr with hr | ⟨rfl, rfl, rfl⟩
    · exact hs.answered id' p r hr
    · exact ⟨hm, hans.mem⟩
  · rcases mem_coordinators_update h with ⟨rfl, rfl⟩ | ⟨hne, h⟩
    · refine ⟨hold.participants, fun p => ?_, fun p q hq hdone => ?_, fun hphase' => ?_⟩
      · rcases eq_or_ne p m.2 with rfl | hp
        · rcases hcases with ⟨q, hq, -, hq', hsame⟩ | ⟨q, hq, hrep, hcount, hsub, hall, hmore⟩
          · have hcollected := hold.collected m.2
            rw [hq] at hcollected
            rw [hq']
            change _ ∧ _ = (answered' id' m.2).length ∧ ∀ r ∈ answered' id' m.2, _
            rw [hsame]
            exact hcollected
          · rw [hq]
            change _ ∧ _ = (answered' id' m.2).length ∧ ∀ r ∈ answered' id' m.2, _
            rw [hmore, update_self, update_self, length_append, length_singleton]
            refine ⟨hrep, hcount, fun r hr => ?_⟩
            rcases mem_append.mp hr with hr | hr
            · exact hall r hr
            · obtain rfl := mem_singleton.mp hr
              refine hans.mono fun w hw => ?_
              obtain ⟨d, hd, rfl⟩ := List.mem_map.mp hw
              exact ⟨d, hsub (mem_toFinset.mpr hd), rfl⟩
        · rw [hother hp]
          exact (hold.collected p).grow (hkept fun h => hp h.2) fun _ => prefix_rfl
      · rcases eq_or_ne p m.2 with rfl | hp
        · rw [inTime, hinfo] at htime
          simpa [hphase, hq, hdone] using htime
        · rw [hother hp] at hq
          exact hold.complete p q hq hdone
      · cases hphase.symm.trans hphase'
    · have hold' := hs.coordinators id' info' h
      exact { hold' with collected := fun p =>
        (hold'.collected p).grow (hkept fun h => hne h.1) fun _ => prefix_rfl }
  · obtain ⟨h₁, h₂⟩ := hs.accepts msg hmsg id' hid
    refine ⟨h₁, fun info' h => ?_⟩
    rcases mem_coordinators_update h with ⟨rfl, rfl⟩ | ⟨-, h⟩
    · exact h₂ info hinfo
    · exact h₂ info' h

/-! ## Commit -/

/-- A coordinator that has enough answers has them from all regions. -/
theorem Inv.answer_of_depsDone (hs : Inv c s) (hinfo : s.coordinators id = some info)
    (hdone : info.depsDone) (hp : p ∈ info.participants) {r : RegionId} (hr : r < c.numRegions) :
    Answer c s.history (r, p) id (shardedIds (info.deps c)) := by
  obtain ⟨q, hq, hqdone⟩ : ∃ q, info.shardedDeps p = some q ∧ q.isDone := by
    have := all_eq_true.mp hdone p hp
    exact any_eq_true_iff_get .. |>.mp this |> fun ⟨h, h'⟩ =>
      ⟨_, (some_get h).symm, h'⟩
  have hold := hs.coordinators id info hinfo
  have hcol := hold.collected p
  rw [hq] at hcol
  obtain ⟨-, hcount, hans⟩ := hcol
  have hlen := hold.complete p q hq hqdone
  -- the regions that have answered are all regions
  have hmem : r ∈ s.answered id p := by
    have hsub : s.answered id p ⊆ List.range c.numRegions :=
      fun r hr => List.mem_range.mpr (hs.answered id p r hr).1
    have hperm := ((hs.answeredNodup id p).subperm hsub).perm_of_length_le (by
      rw [length_range, ← hcount, hlen])
    exact hperm.mem_iff.mpr (List.mem_range.mpr hr)
  refine (hans r hmem).mono fun w hw => ⟨(p, q.deps), ?_, hw⟩
  refine mem_filterMap.mpr ⟨p, List.mem_range.mpr ?_, by rw [hq]; rfl⟩
  obtain ⟨t, ht, hpart⟩ := hold.participants
  obtain ⟨-, client, hnil, hpop⟩ := hs.txns id t ht
  obtain ⟨-, rfl⟩ := Transaction.populateInvolvedPartitions_eq_some hpop
  rw [hpart, hnil] at hp
  obtain ⟨kv, -, hkv⟩ := mem_filterMap.mp (mem_sortUnique.mp hp)
  exact c.sharder.lt_numPartitions _ _ hkv

theorem Inv.commitTxn (hs : Inv c s) (hinfo : s.coordinators id = some info)
    (hdone : info.depsDone) : Inv c (s.commitTxn c id info) := by
  have hcoord {id' : TxnId} {info' : CoordinatorTxnInfo}
      (h : update s.coordinators id none id' = some info') :
      s.coordinators id' = some info' := by
    rcases eq_or_ne id' id with rfl | hne
    · rw [update_self] at h
      cases h
    · rwa [update_of_ne hne] at h
  have hs₁ : Inv c { s with
      coordinators := update s.coordinators id none
      committed := update s.committed id (some (info.deps c)) } := by
    refine { hs with
      messages := { hs.messages with }
      coordinators := fun id' info' h => { hs.coordinators id' info' (hcoord h) with }
      accepts := fun msg hmsg id' hid => ?_
      committed := fun id' deps hdeps => ?_ }
    · obtain ⟨h₁, h₂⟩ := hs.accepts msg hmsg id' hid
      exact ⟨h₁, fun info' h => h₂ info' (hcoord h)⟩
    · change update s.committed id (some (info.deps c)) id' = some deps at hdeps
      rcases eq_or_ne id' id with rfl | hne
      · rw [update_self, some_inj] at hdeps
        subst hdeps
        obtain ⟨t, ht, hpart⟩ := (hs.coordinators id' info hinfo).participants
        exact ⟨t, ht, fun p hp r hr => hs.answer_of_depsDone hinfo hdone (hpart ▸ hp) hr⟩
      · rw [update_of_ne hne] at hdeps
        exact hs.committed id' deps hdeps
  refine hs₁.sendOther _ fun msg hmsg => ?_
  obtain ⟨m, -, rfl⟩ := List.mem_map.mp hmsg
  exact ⟨rfl, rfl, nofun⟩

/-- The second phase starts. -/
theorem Inv.startAccept (hs : Inv c s) (hinfo : s.coordinators id = some info) (hdone : info.depsDone) (ms : List Message)
    (hms : ∀ msg ∈ ms, preAcceptRoute msg = none ∧ responseRoute msg = none ∧
      acceptId msg = some id) :
    Inv c ((s.setInfo id { info with phase := .accept }).send ms) := by
  have hs₁ : Inv c (s.setInfo id { info with phase := .accept }) :=
    hs.updateInfo hinfo rfl rfl (.inr ⟨rfl, hdone⟩)
  refine hs₁.sendOther ms fun msg hmsg => ?_
  obtain ⟨h₁, h₂, h₃⟩ := hms msg hmsg
  refine ⟨h₁, h₂, fun id' hid => ?_⟩
  obtain rfl : id = id' := some_inj.mp (h₃.symm.trans hid)
  obtain ⟨t, ht, -⟩ := (hs.coordinators id info hinfo).participants
  refine ⟨isSome_iff_exists.mpr ⟨t, ht⟩, fun info' h => ?_⟩
  rcases mem_coordinators_update h with ⟨-, rfl⟩ | ⟨hne, -⟩
  · rfl
  · exact absurd rfl hne

theorem Inv.preAcceptTxn (hs : Inv c s)
    (hans : Answer c s.history m id { w | w ∈ deps.map Prod.fst }) (hm : m.1 < c.numRegions)
    (hnew : m.1 ∉ s.answered id m.2) (honce : (m, id) ∉ s.inFlight.filterMap responseRoute)
    (htime : inTime c s m id deps) : Inv c (s.preAcceptTxn c m id deps) := by
  unfold Protocol.preAcceptTxn
  cases hinfo : s.coordinators id with
  | none => exact hs
  | some info =>
    dsimp only
    by_cases hphase : info.phase = .preAccept
    · rw [if_neg (not_not_intro hphase)]
      have hs₁ := hs.collect hinfo hphase hans hm hnew honce htime
      have hinfo₁ : (Protocol.collect c s m id info deps).coordinators id =
          some (info.addDeps c m.2 deps) := update_self ..
      by_cases hdone : (info.addDeps c m.2 deps).depsDone = true
      · rw [if_neg (by simp [hdone])]
        by_cases hfast : (info.addDeps c m.2 deps).isFast = true
        · rw [if_pos hfast]
          exact hs₁.commitTxn hinfo₁ hdone
        · rw [if_neg hfast]
          refine hs₁.startAccept hinfo₁ hdone _ fun msg hmsg => ?_
          obtain ⟨m', -, rfl⟩ := List.mem_map.mp hmsg
          exact ⟨rfl, rfl, rfl⟩
      · rw [if_pos (by simp [hdone])]
        exact hs₁
    · rw [if_pos hphase]
      exact hs

theorem Inv.acceptTxn (hs : Inv c s)
    (haccept : ∀ info, s.coordinators id = some info → info.phase = .accept) :
    Inv c (s.acceptTxn c m id) := by
  unfold Protocol.acceptTxn
  cases hinfo : s.coordinators id with
  | none => exact hs
  | some info =>
    have hdone := (hs.coordinators id info hinfo).accepting (haccept info hinfo)
    have hs₁ : Inv c (s.setInfo id (info.incQuorum c m.2)) := hs.updateInfo hinfo rfl rfl (.inl rfl)
    have hinfo₁ : (s.setInfo id (info.incQuorum c m.2)).coordinators id =
        some (info.incQuorum c m.2) := update_self ..
    dsimp only
    split_ifs
    · have hcommit := hs₁.commitTxn hinfo₁ hdone
      rw [Protocol.commitTxn, setInfo, update_idem] at hcommit
      exact hcommit
    · exact hs₁

/-! ## Every run -/

/-- The condition on an event: an answer that makes the answers of a partition enough is the last
one. -/
def AllAnswer (c : Config) (s : Protocol) : ProtocolEvent → Prop
  | .deliver (.preAcceptResponse m id (some deps)) => inTime c s m id deps
  | _ => True

instance (c : Config) (s : Protocol) : DecidablePred (AllAnswer c s) := by
  intro e
  unfold AllAnswer
  split
  · infer_instance
  · infer_instance

theorem Inv.erase (hs : Inv c s) (msg : Message) :
    Inv c { s with inFlight := s.inFlight.erase msg } :=
  { hs with
    messages := { hs.messages.sublist erase_sublist with }
    coordinators := fun id info h => { hs.coordinators id info h with }
    accepts := fun msg' hmsg => hs.accepts msg' (mem_of_mem_erase hmsg) }

theorem not_mem_erase_route {f : Message → Option (Machine × TxnId)} {ms : List Message}
    (hnd : (ms.filterMap f).Nodup) {msg : Message} (hmsg : msg ∈ ms) {x : Machine × TxnId}
    (hx : f msg = some x) : x ∉ (ms.erase msg).filterMap f := by
  have hperm := (perm_cons_erase hmsg).filterMap f
  rw [filterMap_cons_some hx] at hperm
  exact (nodup_cons.mp (hperm.nodup_iff.mp hnd)).1

theorem Inv.step {e : ProtocolEvent} (hs : Inv c s) (hcond : AllAnswer c s e)
    (h : step c s e = some s') : Inv c s' := by
  cases e with
  | start t =>
    rw [Protocol.step] at h
    split_ifs at h with hguard
    push Not at hguard
    exact hs.startNewTxn (by simpa using hguard.1) hguard.2 h
  | deliver msg =>
    rw [Protocol.step] at h
    split_ifs at h with hmsg
    have hs₀ := hs.erase msg
    cases msg with
    | preAccept m t ballot =>
      obtain ⟨ht, hm, hnew⟩ := hs.messages.preAccepts m t ballot hmsg
      exact hs₀.preAccept ht hm hnew
        (not_mem_erase_route hs.messages.preAcceptOnce hmsg rfl) h
    | preAcceptResponse m id deps =>
      cases deps with
      | none => cases h
      | some deps =>
        obtain ⟨hans, hm, hnew⟩ := hs.messages.responses m id deps hmsg
        cases h
        exact hs₀.preAcceptTxn hans hm hnew
          (not_mem_erase_route hs.messages.responseOnce hmsg rfl) hcond
    | accept m id ballot deps =>
      cases h
      obtain ⟨hsome, hphase⟩ := hs.accepts _ hmsg id rfl
      refine (hs₀.setAcceptor ?_).sendOther _ (forall_mem_singleton.mpr ⟨rfl, rfl, fun id' hid => ?_⟩)
      · rw [Acceptor.processAccept]
        cases (s.acceptors m).txns id with
        | none => rfl
        | some info =>
          dsimp only
          split_ifs <;> rfl
      · cases hid
        exact ⟨hsome, hphase⟩
    | acceptResponse m id ok =>
      rw [handle] at h
      split_ifs at h
      cases h
      exact hs₀.acceptTxn (hs.accepts _ hmsg id rfl).2
    | commit m id deps =>
      cases h
      exact hs₀.setAcceptor rfl

end Protocol

end Janus
