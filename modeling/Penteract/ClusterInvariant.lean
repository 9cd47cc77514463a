/-
# The invariant of the cluster

The invariants of the parts, put together: every lock manager follows its history, its
waited-by lists have their closed form, the updates of its resolver follow the entries seen, and
the logs flow between the partitions.  Every step of the cluster keeps them, unless a part that
arrives is blocked by its own transaction.  On the way it turns out that starting a run of the
resolver never fails, and that the members of a resolved component are there when its updates
have been applied.
-/
import Penteract.ClusterLog
import Penteract.LockCounts
import Penteract.WaitHistory

namespace Slog

open List Function PartitionState Components DeadlockResolver Relation

/-! ## One partition -/

/-- The updates of the resolver, phase by phase. -/
def UpdatesOk (p : PartitionId) (ps : PartitionState) : Prop :=
  match ps.stage with
  | .idle => UpdatesInv ps.resolver.txnInfoUpdates (ps.seenFrom p) ps.gone
  | .found sccs => ∃ us₀ gone₀, Resolved ps.resolver (ps.seenFrom p) ps.gone sccs us₀ gone₀
  | .applied _ => ∃ sccs us₀ gone₀, Resolved ps.resolver (ps.seenFrom p) ps.gone sccs us₀ gone₀

/-- What holds of a partition whatever parts arrive. -/
structure PartBase (W : Submission) (p : PartitionId) (ps : PartitionState) : Prop where
  hist : HistInv W p ps
  otherLog : ps.lm.log (1 - ps.lm.logIndex) = []
  hasResolver : ps.lm.dlResolver = true
  updates : UpdatesOk p ps

/-- The waited-by lists have their closed form, and the counters count them. -/
structure ListsInv (ps : PartitionState) : Prop where
  simple : ∀ e ∈ ps.hist, e.txnId ∉ e.incomingEdges
  waits : WaitsInv ps.lm.txnInfo
  slots : SlotInv ps.lm.txnInfo ps.applied ps.hist

structure PartInv (W : Submission) (p : PartitionId) (ps : PartitionState) : Prop
    extends PartBase W p ps, ListsInv ps

theorem PartBase.init (W : Submission) (p : PartitionId) : PartBase W p {} where
  hist := HistInv.init W p
  otherLog := rfl
  hasResolver := rfl
  updates := UpdatesInv.empty

theorem ListsInv.congr {ps ps' : PartitionState} (h : ListsInv ps)
    (hi : ps'.lm.txnInfo = ps.lm.txnInfo) (ha : ps'.applied = ps.applied)
    (hh : ps'.hist = ps.hist) : ListsInv ps' where
  simple := hh ▸ h.simple
  waits := hi ▸ h.waits
  slots := by
    rw [hi, ha, hh]
    exact h.slots

/-- The entries of the own log are prepared one by one. -/
theorem UpdatesInv.foldl {W : Submission} {p : PartitionId} {gone : List TxnId} {es : List LogEntry} :
    ∀ {r : DeadlockResolver} {own : List LogEntry}, UpdatesInv r.txnInfoUpdates own gone →
    LogOk W p (own ++ es) → (∀ e ∈ es, e.txnId ∉ gone) →
    UpdatesInv (es.foldl addLocalEntry r).txnInfoUpdates (own ++ es) gone := by
  induction es with
  | nil =>
    intro r own h _ _
    simpa using h
  | cons e es ih =>
    intro r own h hok hgone
    have hmem : e ∈ own ++ e :: es := by simp
    have hstep : UpdatesInv (r.addLocalEntry e).txnInfoUpdates (own ++ [e]) gone :=
      h.reconstruct (hok.simple e hmem) (hgone e mem_cons_self)
        fun u v huv => hok.init.edge huv
    have hassoc : own ++ e :: es = (own ++ [e]) ++ es := by simp
    rw [hassoc] at hok ⊢
    exact ih hstep hok fun e' he' => hgone e' (mem_cons_of_mem e he')

namespace Cluster

/-- **The invariant of the cluster**, whatever parts arrive. -/
structure BaseInv (W : Submission) (n : ℕ) (s : Cluster) : Prop extends LogInv W n s where
  base : ∀ p, PartBase W p (s.part p)

/-- The invariant of the cluster as long as no part is blocked by its own transaction. -/
structure Inv (W : Submission) (n : ℕ) (s : Cluster) : Prop extends BaseInv W n s where
  lists : ∀ p, ListsInv (s.part p)

theorem Inv.part {W : Submission} {n : ℕ} {s : Cluster} (hI : Inv W n s) (p : PartitionId) :
    PartInv W p (s.part p) :=
  ⟨hI.base p, hI.lists p⟩

namespace BaseInv

variable {W : Submission} {n : ℕ} {s s' : Cluster} {p q : PartitionId}

theorem init (W : Submission) (n : ℕ) : BaseInv W n {} where
  toLogInv := LogInv.init W n
  base p := PartBase.init W p

section Own

variable (hI : BaseInv W n s) (hp : p < n)
include hI hp

/-- The own log: what the resolver has taken over, and the rest. -/
theorem hist_eq : (s.part p).hist = (s.part p).seenFrom p ++ (s.part p).unsent := by
  have h := hI.flow p p hp
  rwa [hI.self p, flatten_nil, append_nil] at h

/-- A member of a component has no entry that the resolver has not taken over. -/
theorem not_hasEntry_unsent {c : List TxnId} (hc : c ∈ (s.part p).handed) {x : TxnId}
    (hx : x ∈ c) : ¬ HasEntry (s.part p).unsent x := by
  rintro ⟨e, he, rfl⟩
  have hsplit : (s.part p).hist = (s.part p).seenFrom p ++ (s.part p).unsent ++ [] := by
    rw [append_nil]
    exact hI.hist_eq hp
  exact hI.notMem_gone hp hsplit he (hI.handed_gone hp hc hx)

/-- The own log: what a run that starts now has taken over, and the entry in between. -/
theorem hist_eq_takeLog : (s.part p).hist = (s.part p).seenFrom p ++ (s.part p).lm.takeLog.2 ++
    (s.part p).entry.toList := by
  rw [hI.hist_eq hp, append_assoc]
  rfl

theorem ok_takeLog : LogOk W p ((s.part p).seenFrom p ++ (s.part p).lm.takeLog.2) :=
  (hI.hist_eq_takeLog hp ▸ hI.ok p : LogOk W p (_ ++ (s.part p).entry.toList)).init

/-- The updates when a run has taken over the log. -/
theorem updatesInv_updatedResolver (hidle : (s.part p).stage = .idle) :
    UpdatesInv (s.part p).updatedResolver.txnInfoUpdates
      ((s.part p).seenFrom p ++ (s.part p).lm.takeLog.2) (s.part p).gone := by
  have h0 := (hI.base p).updates
  rw [UpdatesOk, hidle] at h0
  exact UpdatesInv.foldl h0 (hI.ok_takeLog hp) fun e he =>
    hI.notMem_gone hp (hI.hist_eq_takeLog hp) he

/-- **Starting a run always succeeds**: its checks hold, and it finds the components. -/
theorem findDeadlocks_eq (hidle : (s.part p).stage = .idle) {order : List TxnId}
    (horder : order.Perm (s.part p).updatedResolver.graph.keys) :
    ∃ r sccs, (s.part p).updatedResolver.findDeadlocks order = some (r, sccs) ∧
      Found (s.part p).updatedResolver.graph (LogEdge
        (((s.part p).seen ++ (s.part p).lm.takeLog.2.map fun e => (p, e)).map Prod.snd))
        r.dfsOrder sccs ∧
      r.graph = r.dfsOrder.foldl (fun g x => g.erase x) (s.part p).updatedResolver.graph ∧
      Resolved r ((s.part p).seenFrom p ++ (s.part p).lm.takeLog.2)
        ((s.part p).gone ++ r.dfsOrder) sccs (s.part p).updatedResolver.txnInfoUpdates
        (s.part p).gone := by
  have hG := hI.updatedResolver_graph hp
  have hok := hI.ok_takeLog hp
  have hU := hI.updatesInv_updatedResolver hp hidle
  obtain ⟨out, handed, hf, hrun⟩ := findDeadlocks_spec hG.graphOk horder
  have hout : ∀ x ∈ out, x ∉ (s.part p).gone ∧ x ≠ kSentinelTxnId := by
    intro x hx
    obtain ⟨hent, hgone⟩ := (hG.mem x).mp ((hf.stable x).mp hx).1
    refine ⟨hgone, ?_⟩
    rw [map_append, hasEntry_append] at hent
    rcases hent with hent | ⟨e, he, rfl⟩
    · obtain ⟨p', hp'⟩ := hasEntry_seen.mp hent
      exact (hI.seen_ok hp p').ne_sentinel hp'
    · rw [List.map_map] at he
      obtain ⟨e', he', rfl⟩ := mem_map.mp he
      exact hok.nonzero e' (mem_append_right _ he')
  obtain ⟨r', hres, hR⟩ := hU.resolved (fun x hx => hok.ne_sentinel hx) hf hout
    fun c hc x hx => hf.mem_out hG.graphOk hc hx
  have hdfs : out = r'.dfsOrder := append_cancel_left hR.gone_eq
  refine ⟨_, handed, hrun r' hres, hdfs ▸ hf, by rw [hdfs], ?_⟩
  rw [hdfs] at hR
  exact ⟨hR.before, hR.gone_eq, hR.nonzero, hR.members, hR.fresh, hR.disjoint, hR.todo, hR.lookup⟩

end Own

variable {ps : PartitionState}

/-- Only one partition has changed. -/
theorem base_update (hI : BaseInv W n s) (hps : PartBase W p ps) (q : PartitionId) :
    PartBase W q (update s.part p ps q) := by
  by_cases hq : q = p
  · subst hq
    simpa using hps
  · simpa [hq] using hI.base q

/-! ## Steps that leave the logs alone -/

/-- A step at `p` that other partitions do not notice. -/
theorem quiet (hI : BaseInv W n s) (hsame : LogInv.SameLog (s.part p) ps) (hps : PartBase W p ps)
    {chan : PartitionId → PartitionId → List (List LogEntry)} (hchan : chan = s.chan) :
    BaseInv W n { part := update s.part p ps, chan := chan } where
  toLogInv := by
    refine hI.toLogInv.congr (fun q => ?_) hchan
    by_cases hq : q = p
    · subst hq
      simpa using hsame
    · simpa [hq] using LogInv.SameLog.refl _
  base q := hI.base_update hps q

end BaseInv

end Cluster

namespace PartBase

variable {W : Submission} {p : PartitionId} {ps ps' : PartitionState}

theorem log (h : PartBase W p ps) (hs : ps.log = some ps') :
    PartBase W p ps' ∧ Cluster.LogInv.SameLog ps ps' := by
  obtain ⟨e, he, rfl⟩ := log_inv hs
  have hlm : ps.lm.appendLog e = { ps.lm with
      log := update ps.lm.log ps.lm.logIndex (ps.lm.log ps.lm.logIndex ++ [e]) } := by
    rw [DDRLockManager.appendLog, if_pos h.hasResolver]
  have hne : (1 - ps.lm.logIndex) ≠ ps.lm.logIndex := by
    generalize ps.lm.logIndex = i
    revert i
    decide
  rw [hlm]
  refine ⟨⟨h.hist.congr rfl rfl rfl rfl rfl, ?_, h.hasResolver, h.updates⟩,
    rfl, rfl, rfl, rfl, ?_, rfl, rfl⟩
  · show update ps.lm.log ps.lm.logIndex _ (1 - ps.lm.logIndex) = []
    rw [update_of_ne hne]
    exact h.otherLog
  · show update ps.lm.log ps.lm.logIndex _ ps.lm.logIndex ++ [] = _
    rw [update_self, PartitionState.unsent, he]
    simp

theorem release (h : PartBase W p ps) {x : TxnId} (hs : ps.release x = some ps') :
    PartBase W p ps' ∧ Cluster.LogInv.SameLog ps ps' := by
  have hH := h.hist.release hs
  obtain ⟨-, ti, -, -, rfl⟩ := release_inv hs
  exact ⟨⟨hH, h.otherLog, h.hasResolver, h.updates⟩, rfl, rfl, rfl, rfl, rfl, rfl, rfl⟩

theorem signal (h : PartBase W p ps) (hs : ps.signal = some ps') :
    PartBase W p ps' ∧ Cluster.LogInv.SameLog ps ps' := by
  obtain ⟨-, rfl⟩ := signal_inv hs
  exact ⟨⟨h.hist.congr rfl rfl rfl rfl rfl, h.otherLog, h.hasResolver, h.updates⟩,
    rfl, rfl, rfl, rfl, rfl, rfl, rfl⟩

theorem dispatch (h : PartBase W p ps) (hs : ps.dispatch = some ps') :
    PartBase W p ps' ∧ Cluster.LogInv.SameLog ps ps' := by
  obtain ⟨d, todo, -, -, rfl⟩ := dispatch_inv hs
  exact ⟨⟨h.hist.congr rfl rfl rfl rfl rfl, h.otherLog, h.hasResolver, h.updates⟩,
    rfl, rfl, rfl, rfl, rfl, rfl, rfl⟩

theorem publish (h : PartBase W p ps) (hs : ps.publish = some ps') :
    PartBase W p ps' ∧ Cluster.LogInv.SameLog ps ps' := by
  obtain ⟨ready, hstage, rfl⟩ := publish_inv hs
  have hU := h.updates
  rw [UpdatesOk, hstage] at hU
  obtain ⟨sccs, us₀, gone₀, hR⟩ := hU
  refine ⟨⟨h.hist.congr rfl rfl rfl rfl rfl, h.otherLog, h.hasResolver, hR.cleanUp⟩,
    rfl, rfl, rfl, ?_, rfl, rfl, rfl⟩
  show ps.applied ++ [] = ps.applied ++ ps.stage.sccs
  rw [hstage]
  rfl

end PartBase

namespace Cluster

variable {W : Submission} {n : ℕ} {s s' : Cluster} {p q : PartitionId}

namespace BaseInv

/-! ## The other steps -/

variable {x : TxnId} {h : RegionId} {ps : PartitionState} {sccs : List (List TxnId)}
  {c : List TxnId}

theorem acquire (hI : BaseInv W n s) (hs : (s.part p).acquire W p x h = some ps) :
    BaseInv W n { s with part := update s.part p ps } where
  toLogInv := hI.toLogInv.acquire (hI.base p).hist ((hI.base p).hist.acquire hs) hs
  base := by
    have hP := hI.base p
    obtain ⟨-, -, -, -, -, -, hps⟩ := acquire_inv hs
    refine hI.base_update ⟨hP.hist.acquire hs, ?_, ?_, ?_⟩
    · rw [hps]; exact hP.otherLog
    · rw [hps]; exact hP.hasResolver
    · rw [hps]; exact hP.updates

theorem find (hI : BaseInv W n s) (hp : p < n) {order : List TxnId}
    (hs : (s.part p).find p order = some ps) :
    BaseInv W n { part := update s.part p ps,
                  chan := fun p' q => if p' = p ∧ q ≠ p ∧ q < n
                    then s.chan p' q ++ (s.part p).sent (.find order) else s.chan p' q } := by
  obtain ⟨hidle, horder, r, sccs, hrun, rfl⟩ := find_inv hs
  obtain ⟨r', sccs', hrun', hf, hgraph, hR⟩ := hI.findDeadlocks_eq hp hidle horder
  rw [hrun, Option.some_inj, Prod.mk.injEq] at hrun'
  obtain ⟨rfl, rfl⟩ := hrun'
  have hP := hI.base p
  have hback : (1 - (1 - (s.part p).lm.logIndex)) = (s.part p).lm.logIndex := by
    generalize (s.part p).lm.logIndex = i
    revert i
    decide
  refine ⟨hI.toLogInv.find hp hP.otherLog hidle hf hgraph, hI.base_update
    ⟨hP.hist.congr rfl rfl rfl rfl rfl, ?_, hP.hasResolver, ?_⟩⟩
  · show update (s.part p).lm.log (s.part p).lm.logIndex []
      (1 - (1 - (s.part p).lm.logIndex)) = []
    rw [hback, update_self]
  · have hseen := entriesFrom_append (s.part p).seen p p (s.part p).lm.takeLog.2
    rw [if_pos rfl] at hseen
    refine ⟨(s.part p).updatedResolver.txnInfoUpdates, (s.part p).gone, ?_⟩
    rw [seenFrom_eq, hseen]
    exact hR

/-- What is known when the updates are applied. -/
theorem apply_context (hI : BaseInv W n s) (hp : p < n) (hstage : (s.part p).stage = .found sccs) :
    (∃ us₀ gone₀, Resolved (s.part p).resolver ((s.part p).seenFrom p) (s.part p).gone sccs
      us₀ gone₀) ∧
    ((s.part p).applied ++ sccs).Pairwise Disjoint ∧
    (∀ c ∈ sccs, ∀ x ∈ c, ¬ HasEntry (s.part p).unsent x) ∧
    ∀ x ∈ (s.part p).lm.txnInfo, HasEntry ((s.part p).seenFrom p ++ (s.part p).unsent) x := by
  have hhanded : (s.part p).handed = (s.part p).applied ++ sccs := by
    rw [PartitionState.handed, hstage]
    rfl
  have hU := (hI.base p).updates
  rw [UpdatesOk, hstage] at hU
  refine ⟨hU, hhanded ▸ (hI.resolvers p hp).disjoint, fun c hc x hx => hI.not_hasEntry_unsent hp
    (hhanded ▸ mem_append_right _ hc) hx, fun x hx => ?_⟩
  rw [← hI.hist_eq hp]
  exact ((hI.base p).hist.live_iff.mp hx).1

theorem apply (hI : BaseInv W n s) (hp : p < n) (hs : (s.part p).apply = some ps) :
    PartBase W p ps ∧ LogInv.SameLog (s.part p) ps := by
  obtain ⟨sccs, info, ready, hstage, ha, rfl⟩ := apply_inv hs
  obtain ⟨⟨us₀, gone₀, hR⟩, -⟩ := hI.apply_context hp hstage
  have hP := hI.base p
  obtain ⟨h1, h2, -⟩ := applyUpdates_spec hR.todo_nodup ha
  have hlock : LockInv W p { (s.part p).lm with txnInfo := info } (s.part p).arrived
      (s.part p).released := by
    have hL := hP.hist.lock
    refine ⟨hL.parts, hL.table, fun x => (mem_applyUpdates hR.todo_nodup ha).trans (hL.live x),
      fun x ti hti => ?_⟩
    by_cases hx : x ∈ (s.part p).resolver.toBeUpdated
    · obtain ⟨u, t, -, ht, -, hl⟩ := h1 x hx
      rw [hl, Option.some_inj] at hti
      rw [← hti]
      exact hL.unarrived x t ht
    · rw [h2 x hx] at hti
      exact hL.unarrived x ti hti
  refine ⟨⟨⟨hlock, hP.hist.ok, hP.hist.ids, hP.hist.done⟩, hP.otherLog, hP.hasResolver,
    sccs, us₀, gone₀, hR⟩, rfl, rfl, rfl, ?_, rfl, rfl, rfl⟩
  show ((s.part p).applied ++ sccs) ++ [] = (s.part p).handed
  rw [append_nil, PartitionState.handed, hstage]
  rfl

/-- The local members were there if the updates have been applied. -/
theorem live_of_apply (hI : BaseInv W n s) (hp : p < n) (hstage : (s.part p).stage = .found sccs)
    (hs : (s.part p).apply = some ps) (hc : c ∈ sccs) (hx : x ∈ c) (hent : HasEntry (s.part p).hist x) :
    x ∈ (s.part p).lm.txnInfo := by
  obtain ⟨⟨us₀, gone₀, hR⟩, -, htail, -⟩ := hI.apply_context hp hstage
  obtain ⟨sccs', info, ready, hstage', ha, rfl⟩ := apply_inv hs
  rw [hI.hist_eq hp, hasEntry_append, or_iff_left (htail c hc x hx)] at hent
  obtain ⟨h1, -, -⟩ := applyUpdates_spec hR.todo_nodup ha
  obtain ⟨u, ti, -, hti, -⟩ := h1 x (hR.mem_todo.mpr ⟨c, hc, hx, hent⟩)
  exact AssocMap.mem_iff_lookup.mpr ⟨ti, hti⟩

theorem deliver (hI : BaseInv W n s) (hq : q < n) {m : List LogEntry} {ms : List (List LogEntry)}
    (hm : s.chan p q = m :: ms) (hs : (s.part q).receive p m = some ps) :
    BaseInv W n { part := update s.part q ps,
                  chan := update s.chan p (update (s.chan p) q ms) } := by
  have hpq : p ≠ q := by
    rintro rfl
    rw [hI.self p] at hm
    cases hm
  have hP := hI.base q
  have hU := hP.updates
  have hlog := hI.toLogInv.deliver hq hm hs
  obtain ⟨hidle, rfl⟩ := receive_inv hs
  rw [UpdatesOk, hidle] at hU
  refine ⟨hlog, hI.base_update
    ⟨hP.hist.congr rfl rfl rfl rfl rfl, hP.otherLog, hP.hasResolver, ?_⟩⟩
  rw [UpdatesOk]
  simp only [hidle]
  have hseen := entriesFrom_append (s.part q).seen p q m
  rw [if_neg hpq, append_nil] at hseen
  rw [seenFrom_eq, hseen]
  exact hU

/-- The channels after an action that sends nothing. -/
theorem chan_unchanged (s : Cluster) (p : PartitionId) (n : ℕ) :
    (fun p' q => if p' = p ∧ q ≠ p ∧ q < n then s.chan p' q ++ [] else s.chan p' q) = s.chan := by
  funext p' q
  rw [append_nil, ite_self]

/-- **Every step keeps the invariant.** -/
theorem step (hI : BaseInv W n s) {e : Event} (hs : s.step W n e = some s') : BaseInv W n s' := by
  rcases Cluster.step_inv hs with ⟨p, a, ps, -, hp, ha, rfl⟩ | ⟨p, q, m, ms, ps, -, hq, hm, hr, rfl⟩
  · have hquiet : ∀ {ps}, (s.part p).sent a = [] →
        PartBase W p ps ∧ LogInv.SameLog (s.part p) ps →
        BaseInv W n { part := update s.part p ps,
                      chan := fun p' q => if p' = p ∧ q ≠ p ∧ q < n
                        then s.chan p' q ++ (s.part p).sent a else s.chan p' q } := by
      intro ps hsent h
      rw [hsent, chan_unchanged]
      exact hI.quiet h.2 h.1 rfl
    cases a with
    | acquire x h =>
      show BaseInv W n { part := update s.part p ps,
                         chan := fun p' q => if p' = p ∧ q ≠ p ∧ q < n
                           then s.chan p' q ++ [] else s.chan p' q }
      rw [chan_unchanged]
      exact hI.acquire ha
    | log => exact hquiet rfl ((hI.base p).log ha)
    | release x => exact hquiet rfl ((hI.base p).release ha)
    | signal => exact hquiet rfl ((hI.base p).signal ha)
    | dispatch => exact hquiet rfl ((hI.base p).dispatch ha)
    | find order => exact hI.find hp ha
    | apply => exact hquiet rfl (hI.apply hp ha)
    | publish => exact hquiet rfl ((hI.base p).publish ha)
  · exact hI.deliver hq hm hr

/-- **Every reachable state meets the invariant.** -/
theorem reachable (h : Lts.Reachable (Cluster.step W n) {} s) : BaseInv W n s :=
  Lts.invariant (Cluster.step W n) (init W n) (fun _ _ _ hI hs => hI.step hs) h

/-- A transaction of which a part arrives is in no component that has been handed over. -/
theorem notMem_handed (hI : BaseInv W n s) (hp : p < n) (hs : (s.part p).acquire W p x h = some ps)
    (hc : c ∈ (s.part p).handed) : x ∉ c := by
  obtain ⟨-, hx0, hinv, hh, hnew, -⟩ := acquire_inv hs
  exact fun hxc => hI.not_gone hp hinv ((hI.base p).hist.not_hasComplete hx0 hh hnew)
    (hI.handed_gone hp hc hxc)

end BaseInv

/-! ## Lists -/

end Cluster

/-- The part that arrives requests no key-region twice with a write among the two requests. -/
def Submission.Compatible (W : Submission) : Event → Prop
  | .act p (.acquire x h) => RMALockManager.Compatible (W.part p x h).lockRequests
  | _ => True

instance (W : Submission) : DecidablePred W.Compatible := fun e => by
  unfold Submission.Compatible RMALockManager.Compatible
  split <;> infer_instance

theorem Workload.compatible (W : Workload) (e : Event) : W.Compatible e := by
  unfold Submission.Compatible
  split
  · next p x h =>
    exact (pairwise_map.mp (W.lockRequests_nodup p x h)).imp fun hne heq => absurd heq hne
  · trivial

namespace Cluster

variable {W : Submission} {n : ℕ} {s s' : Cluster} {p q : PartitionId}

/-- No part that arrives is blocked by its own transaction. -/
def NotSelfBlocking (W : Submission) (s : Cluster) : Event → Prop
  | .act p (.acquire x h) => x ∉ (s.part p).lm.blocking (W.part p x h)
  | _ => True

namespace Inv

/-- What is known of the lists when the updates are applied. -/
theorem slots_context (hI : Inv W n s) (hp : p < n) :
    SlotInv (s.part p).lm.txnInfo (s.part p).applied
      ((s.part p).seenFrom p ++ (s.part p).unsent) := by
  rw [← hI.hist_eq hp]
  exact (hI.lists p).slots

variable {ps : PartitionState} {e : Event}

theorem lists_acquire (hI : Inv W n s) (hp : p < n) {x : TxnId} {h : RegionId}
    (hs : (s.part p).acquire W p x h = some ps) (hself : x ∉ (s.part p).lm.blocking (W.part p x h)) :
    ListsInv ps where
  simple := by
    obtain ⟨-, hx0, -, hh, hnew, hrel, rfl⟩ := acquire_inv hs
    intro e he
    rcases mem_append.mp he with he | he
    · exact (hI.lists p).simple e he
    · rw [mem_singleton.mp he, (hI.base p).hist.entry_eq hx0 hh hnew hrel]
      exact hself
  waits := by
    obtain ⟨-, hx0, -, -, -, -, rfl⟩ := acquire_inv hs
    exact (hI.lists p).waits.enterLocks (by rwa [W.part_id])
  slots := (hI.lists p).slots.acquire (hI.base p).hist hs
    (fun _ hc => hI.notMem_handed hp hs (mem_append_left _ hc)) hself

theorem lists_apply (hI : Inv W n s) (hp : p < n) (hs : (s.part p).apply = some ps) : ListsInv ps := by
  obtain ⟨sccs, info, ready, hstage, ha, rfl⟩ := apply_inv hs
  obtain ⟨⟨us₀, gone₀, hR⟩, hdis, htail, hent⟩ := hI.apply_context hp hstage
  have hS := hI.slots_context hp
  refine ⟨(hI.lists p).simple, hS.apply_waits hR hdis htail hent ha (hI.lists p).waits, ?_⟩
  show SlotInv info ((s.part p).applied ++ sccs) (s.part p).hist
  rw [hI.hist_eq hp]
  exact hS.apply hR hdis htail hent ha

theorem lists_act (hI : Inv W n s) (hp : p < n) {a : Action} (hs : (s.part p).act W p a = some ps)
    (hself : s.NotSelfBlocking W (.act p a)) : ListsInv ps := by
  have hL := hI.lists p
  cases a with
  | acquire x h => exact hI.lists_acquire hp hs hself
  | release x =>
    have hS := hL.slots.release (hI.base p).hist hs
    obtain ⟨-, ti, hti, hr, rfl⟩ := release_inv hs
    exact ⟨hL.simple, hL.waits.releaseLocks hti hr, hS⟩
  | apply => exact hI.lists_apply hp hs
  | log =>
    obtain ⟨e, -, rfl⟩ := log_inv hs
    exact hL.congr (DDRLockManager.appendLog_txnInfo _ _) rfl rfl
  | signal =>
    obtain ⟨-, rfl⟩ := signal_inv hs
    exact hL.congr rfl rfl rfl
  | dispatch =>
    obtain ⟨d, todo, -, -, rfl⟩ := dispatch_inv hs
    exact hL.congr rfl rfl rfl
  | find order =>
    obtain ⟨-, -, r, sccs, -, rfl⟩ := find_inv hs
    exact hL.congr rfl rfl rfl
  | publish =>
    obtain ⟨ready, -, rfl⟩ := publish_inv hs
    exact hL.congr rfl rfl rfl

/-- **A step keeps the lists** unless the part that arrives is blocked by its own transaction. -/
theorem step (hI : Inv W n s) (hs : s.step W n e = some s') (hself : s.NotSelfBlocking W e) :
    Inv W n s' := by
  refine ⟨hI.toBaseInv.step hs, ?_⟩
  rcases Cluster.step_inv hs with
    ⟨p, a, ps, rfl, hp, ha, rfl⟩ | ⟨p, q, m, ms, ps, -, hq, hm, hr, rfl⟩
  · exact (forall_update_iff s.part fun _ ps => ListsInv ps).mpr
      ⟨hI.lists_act hp ha hself, fun q _ => hI.lists q⟩
  · obtain ⟨-, rfl⟩ := receive_inv hr
    exact (forall_update_iff s.part fun _ ps => ListsInv ps).mpr
      ⟨(hI.lists q).congr rfl rfl rfl, fun q _ => hI.lists q⟩

theorem init (W : Submission) (n : ℕ) : Inv W n {} where
  toBaseInv := BaseInv.init W n
  lists _ := ⟨by simp, WaitsInv.empty, SlotInv.empty⟩

/-- A part that requests no lock twice with a write is not blocked by its own transaction. -/
theorem notSelfBlocking (hI : Inv W n s) (hC : W.Compatible e) (hs : s.step W n e = some s') :
    s.NotSelfBlocking W e := by
  rcases Cluster.step_inv hs with ⟨p, a, ps, rfl, -, ha, -⟩ | ⟨p, q, m, ms, ps, rfl, -, -, -, -⟩
  · cases a with
    | acquire x h =>
      obtain ⟨-, -, -, -, hnew, -, -⟩ := acquire_inv ha
      intro hmem
      rcases (hI.base p).hist.lock.of_mem_blocking hnew hmem with
        ⟨hne, -⟩ | ⟨-, a, k, m, m', b, hrs, hr, hc⟩
      · exact hne rfl
      · rw [Submission.Compatible, RMALockManager.Compatible, hrs, pairwise_append] at hC
        exact hC.2.2 (k, m') hr (k, m) mem_cons_self rfl hc
    | _ => trivial
  · trivial

/-- **A run of compatible parts keeps the invariant.** -/
theorem of_compatible {es : List Event} (hrun : Lts.run (Cluster.step W n) {} es = some s)
    (hC : ∀ e ∈ es, W.Compatible e) : Inv W n s := by
  refine Lts.invariant_meets (Cluster.step W n) (C := fun _ e => W.Compatible e) (init W n)
    (fun s e s' _ hI hCe hs => hI.step hs (hI.notSelfBlocking hCe hs)) ?_ hrun
  intro es₁ e es₂ t hes _
  exact hC e (by rw [hes]; simp)

/-- **Every reachable state of a workload meets the invariant.** -/
theorem reachable {W : Workload} (h : Lts.Reachable (Cluster.step W n) {} s) : Inv W n s := by
  obtain ⟨es, hes⟩ := h
  exact of_compatible hes fun e _ => W.compatible e

end Inv

end Cluster

end Slog
