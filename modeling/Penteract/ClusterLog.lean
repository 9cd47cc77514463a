/-
# The logs of a cluster

Every resolver sees a prefix of the log of every partition.  Nevertheless what it takes out of
its graph is final: a transaction that all its partitions have reported complete gets no more
incoming edges anywhere, and the transactions taken out are closed under predecessors.  So the
components that a resolver hands to `ResolveDeadlock` are components of the graph of all
entries written anywhere, at that time and for ever.
-/
import Penteract.GraphHistory

namespace Slog

open List Function PartitionState Components DeadlockResolver Relation

/-! ## Entries and their partitions -/

section Seen

variable {W : Submission} {seen : List (PartitionId × LogEntry)} {p : PartitionId}

/-- The entries of one partition among those seen. -/
def entriesFrom (seen : List (PartitionId × LogEntry)) (p : PartitionId) : List LogEntry :=
  (seen.filter fun pe => pe.1 = p).map Prod.snd

theorem mem_entriesFrom {e : LogEntry} : e ∈ entriesFrom seen p ↔ (p, e) ∈ seen := by
  simp [entriesFrom]

theorem entriesFrom_append (seen : List (PartitionId × LogEntry)) (p q : PartitionId)
    (es : List LogEntry) :
    entriesFrom (seen ++ es.map fun e => (p, e)) q =
      entriesFrom seen q ++ if p = q then es else [] := by
  unfold entriesFrom
  rw [filter_append, filter_map]
  by_cases h : p = q
  · subst h
    simp [comp_def]
  · simp [h]

variable {x : TxnId}

theorem hasEntry_seen : HasEntry (seen.map Prod.snd) x ↔ ∃ p, HasEntry (entriesFrom seen p) x := by
  constructor
  · rintro ⟨e, he, hx⟩
    obtain ⟨⟨p, e⟩, hpe, rfl⟩ := mem_map.mp he
    exact ⟨p, e, mem_entriesFrom.mpr hpe, hx⟩
  · rintro ⟨p, e, he, hx⟩
    exact ⟨e, mem_map.mpr ⟨(p, e), mem_entriesFrom.mp he, rfl⟩, hx⟩

theorem logEdge_seen {u v : TxnId} :
    LogEdge (seen.map Prod.snd) u v ↔ ∃ p, LogEdge (entriesFrom seen p) u v := by
  constructor
  · rintro ⟨e, he, hx⟩
    obtain ⟨⟨p, e⟩, hpe, rfl⟩ := mem_map.mp he
    exact ⟨p, e, mem_entriesFrom.mpr hpe, hx⟩
  · rintro ⟨p, e, he, hx⟩
    exact ⟨e, mem_map.mpr ⟨(p, e), mem_entriesFrom.mp he, rfl⟩, hx⟩

/-- The partitions that have reported `x` complete. -/
def reporters (seen : List (PartitionId × LogEntry)) (x : TxnId) : List PartitionId :=
  (seen.filter fun pe => decide (pe.2.txnId = x) && pe.2.isComplete).map Prod.fst

theorem mem_reporters : p ∈ reporters seen x ↔ HasComplete (entriesFrom seen p) x := by
  simp only [reporters, HasComplete, mem_map, mem_filter, Bool.and_eq_true,
    decide_eq_true_eq, mem_entriesFrom]
  constructor
  · rintro ⟨⟨q, e⟩, ⟨hmem, hx⟩, rfl⟩
    exact ⟨e, hmem, hx⟩
  · rintro ⟨e, hmem, hx⟩
    exact ⟨(p, e), ⟨hmem, hx⟩, rfl⟩

theorem length_reporters (seen : List (PartitionId × LogEntry)) (x : TxnId) :
    (reporters seen x).length = numReported (seen.map Prod.snd) x := by
  rw [reporters, numReported, length_map, filter_map, length_map]
  rfl

/-- No partition reports a transaction complete twice. -/
theorem reporters_nodup (hok : ∀ p, LogOk W p (entriesFrom seen p)) (x : TxnId) :
    (reporters seen x).Nodup := by
  rw [reporters, Nodup, pairwise_map, pairwise_iff_forall_sublist]
  intro a b hab heq
  rw [pair_sublist_filter] at hab
  obtain ⟨hsub, ha, hb⟩ := hab
  rw [Bool.and_eq_true, decide_eq_true_eq] at ha hb
  have hfrom : [a.2, b.2].Sublist (entriesFrom seen a.1) := by
    have h2 : [a, b].Sublist (seen.filter fun pe => decide (pe.1 = a.1)) :=
      pair_sublist_filter.mpr ⟨hsub, by simp, by simp [heq]⟩
    exact h2.map Prod.snd
  have hlast := pairwise_iff_forall_sublist.mp (hok a.1).last hfrom
  exact hlast ha.2 (hb.1.trans ha.1.symm)

/-- **All reports are in** exactly when their number is that of the involved partitions. -/
theorem numReported_iff (hok : ∀ p, LogOk W p (entriesFrom seen p)) (x : TxnId) :
    (W.involved x).length ≤ numReported (seen.map Prod.snd) x ↔
      ∀ p ∈ W.involved x, HasComplete (entriesFrom seen p) x := by
  rw [← length_reporters]
  have hnd := reporters_nodup hok x
  constructor
  · intro hle p hp
    have hsub : reporters seen x ⊆ W.involved x := by
      intro q hq
      obtain ⟨e, he, rfl, -⟩ := mem_reporters.mp hq
      exact (hok q).involved e he
    have hperm := (hnd.subperm hsub).perm_of_length_le hle
    exact mem_reporters.mp (hperm.mem_iff.mpr hp)
  · intro hall
    exact ((W.involved_nodup x).subperm fun p hp => mem_reporters.mpr (hall p hp)).length_le

end Seen

/-- **The next entries of one log come in.** -/
theorem GraphInv.receive {W : Submission} {p : PartitionId} {es : List LogEntry}
    {gone : List TxnId} :
    ∀ {g : Graph} {seen : List (PartitionId × LogEntry)},
    GraphInv W g (seen.map Prod.snd) gone → LogOk W p (entriesFrom seen p ++ es) →
    (∀ e ∈ es, e.txnId ∉ gone) →
    GraphInv W (es.foldl Graph.updateGraph g) ((seen ++ es.map fun e => (p, e)).map Prod.snd)
      gone := by
  induction es with
  | nil =>
    intro g seen h _ _
    simpa using h
  | cons e es ih =>
    intro g seen h hok hgone
    have hmem : e ∈ entriesFrom seen p ++ e :: es := by simp
    have hstep : GraphInv W (g.updateGraph e) ((seen ++ [(p, e)]).map Prod.snd) gone := by
      rw [map_append]
      refine h.updateGraph (hok.size e hmem) (hok.simple e hmem) (fun u hu => ?_)
        (hgone e mem_cons_self)
      exact (hok.pred _ e es rfl u hu).imp id fun hent => hasEntry_seen.mpr ⟨p, hent⟩
    have hfrom : entriesFrom (seen ++ [(p, e)]) p = entriesFrom seen p ++ [e] := by
      have := entriesFrom_append seen p p [e]
      rwa [if_pos rfl] at this
    have hok' : LogOk W p (entriesFrom (seen ++ [(p, e)]) p ++ es) := by
      rw [hfrom, append_assoc]
      exact hok
    have hrest := ih hstep hok' fun e' he' => hgone e' (mem_cons_of_mem e he')
    rw [append_assoc] at hrest
    exact hrest

theorem PartitionState.seenFrom_eq (ps : PartitionState) (p : PartitionId) :
    ps.seenFrom p = entriesFrom ps.seen p := rfl

/-! ## The invariant -/

namespace Cluster

/-- Some partition has written that `v` waits for `u`. -/
def Edge (s : Cluster) (u v : TxnId) : Prop := ∃ p, LogEdge (s.part p).hist u v

/-- What a resolver has seen and taken out, where `E` are the edges written anywhere. -/
structure ResolverInv (W : Submission) (E : TxnId → TxnId → Prop) (ps : PartitionState) : Prop where
  graph : GraphInv W ps.resolver.graph (ps.seen.map Prod.snd) ps.gone
  /-- What is taken out is complete. -/
  done : ∀ x ∈ ps.gone, ∀ p ∈ W.involved x, HasComplete (ps.seenFrom p) x
  /-- What is handed over is a component. -/
  handed : ∀ c ∈ ps.handed, c.Nodup ∧ 1 < c.length ∧ ∃ d ∈ ps.gone, ∀ y, y ∈ c ↔ Connected E d y
  /-- No component is forgotten. -/
  all : ∀ d ∈ ps.gone, ∀ y, y ≠ d → Connected E d y → ∃ c ∈ ps.handed, d ∈ c
  disjoint : ps.handed.Pairwise Disjoint
  /-- After a run nothing stable is left. -/
  fresh : ps.upToDate = true → ∀ x, ¬ ps.resolver.graph.Stable (LogEdge (ps.seen.map Prod.snd)) x

/-- **The logs of the cluster.** -/
structure LogInv (W : Submission) (n : ℕ) (s : Cluster) : Prop where
  ok : ∀ p, LogOk W p (s.part p).hist
  self : ∀ p, s.chan p p = []
  /-- Every entry has been seen, or is on its way, or has not been sent. -/
  flow : ∀ p, ∀ q < n,
    (s.part p).hist = (s.part q).seenFrom p ++ (s.chan p q).flatten ++ (s.part p).unsent
  resolvers : ∀ q < n, ResolverInv W s.Edge (s.part q)

/-- The resolver is left as it is, and the components of what was taken out are the same. -/
theorem ResolverInv.mono {W : Submission} {E E' : TxnId → TxnId → Prop} {ps ps' : PartitionState}
    (h : ResolverInv W E ps) (hseen : ps'.seen = ps.seen) (hgone : ps'.gone = ps.gone)
    (hhanded : ps'.handed = ps.handed) (hgraph : ps'.resolver.graph = ps.resolver.graph)
    (hup : ps'.upToDate = true → ps.upToDate = true)
    (hcon : ∀ d ∈ ps.gone, ∀ y, Connected E' d y ↔ Connected E d y) : ResolverInv W E' ps' where
  graph := by
    rw [hgraph, hseen, hgone]
    exact h.graph
  done := by
    simp only [hgone, seenFrom, hseen]
    exact h.done
  handed := by
    rw [hhanded, hgone]
    intro c hc
    obtain ⟨h1, h2, d, hd, hcd⟩ := h.handed c hc
    exact ⟨h1, h2, d, hd, fun y => (hcd y).trans (hcon d hd y).symm⟩
  all := by
    rw [hhanded, hgone]
    exact fun d hd y hy hc => h.all d hd y hy ((hcon d hd y).mp hc)
  disjoint := hhanded ▸ h.disjoint
  fresh hup' := by
    rw [hgraph, hseen]
    exact h.fresh (hup hup')

namespace LogInv

variable {W : Submission} {n : ℕ} {s : Cluster} {p q : PartitionId}

theorem init (W : Submission) (n : ℕ) : LogInv W n {} where
  ok p := LogOk.nil W p
  self _ := rfl
  flow _ _ _ := rfl
  resolvers _ _ :=
    ⟨GraphInv.empty W, by simp, by simp [PartitionState.handed, Stage.sccs], by simp,
      by simp [PartitionState.handed, Stage.sccs], by simp⟩

/-- A complete transaction gets no more edges: whatever was written about it has been seen. -/
theorem predClosed_of {seen : List (PartitionId × LogEntry)} {gone : List TxnId}
    (hok : ∀ p, LogOk W p (s.part p).hist) (hpre : ∀ p, entriesFrom seen p <+: (s.part p).hist)
    (hdone : ∀ x ∈ gone, ∀ p ∈ W.involved x, HasComplete (entriesFrom seen p) x)
    (hpred : ∀ u v, LogEdge (seen.map Prod.snd) u v → v ∈ gone → u ∈ gone) :
    PredClosed (LogEdge (seen.map Prod.snd)) s.Edge (· ∈ gone) := by
  rintro u v ⟨p, e, he, rfl, hu⟩ hv
  have hinv : p ∈ W.involved e.txnId := (hok p).involved e he
  obtain ⟨rest, hrest⟩ := hpre p
  have hok' : LogOk W p (entriesFrom seen p ++ rest) := hrest ▸ hok p
  rw [← hrest] at he
  have hmem : e ∈ entriesFrom seen p := (mem_append.mp he).resolve_right fun hr =>
    hok'.not_hasEntry (hdone _ hv p hinv) ⟨e, hr, rfl⟩
  have hedge : LogEdge (seen.map Prod.snd) u e.txnId :=
    logEdge_seen.mpr ⟨p, e, hmem, rfl, hu⟩
  exact ⟨hedge, hpred u _ hedge hv⟩

section Closed

variable (hI : LogInv W n s) (hq : q < n)
include hI hq

/-- What a resolver has seen of a log is its beginning. -/
theorem prefix_hist (p : PartitionId) : (s.part q).seenFrom p <+: (s.part p).hist :=
  ⟨(s.chan p q).flatten ++ (s.part p).unsent, by rw [hI.flow p q hq, append_assoc]⟩

theorem seen_ok (p : PartitionId) : LogOk W p (entriesFrom (s.part q).seen p) := by
  obtain ⟨rest, hrest⟩ := hI.prefix_hist hq p
  exact (hrest ▸ hI.ok p : LogOk W p ((s.part q).seenFrom p ++ rest)).init

/-- **The nodes taken out are closed under predecessors**, also of edges not seen yet. -/
theorem predClosed : PredClosed (LogEdge ((s.part q).seen.map Prod.snd)) s.Edge
    (· ∈ (s.part q).gone) :=
  predClosed_of hI.ok (hI.prefix_hist hq) (hI.resolvers q hq).done (hI.resolvers q hq).graph.gone_pred

theorem gone_of_reach {u v : TxnId} (h : ReflTransGen s.Edge u v) (hv : v ∈ (s.part q).gone) :
    u ∈ (s.part q).gone := ((hI.predClosed hq).reach h hv).2

theorem handed_gone {c : List TxnId} (hc : c ∈ (s.part q).handed) {x : TxnId} (hx : x ∈ c) :
    x ∈ (s.part q).gone := by
  obtain ⟨-, -, d, hd, hcd⟩ := (hI.resolvers q hq).handed c hc
  exact hI.gone_of_reach hq ((hcd x).mp hx).2 hd

end Closed

variable {x : TxnId} {ps : PartitionState}

/-- A transaction that is not complete at some involved partition is nowhere taken out. -/
theorem not_gone (hI : LogInv W n s) (hq : q < n) (hp : p ∈ W.involved x)
    (hx : ¬ HasComplete (s.part p).hist x) : x ∉ (s.part q).gone := by
  intro hg
  obtain ⟨e, he, hex⟩ := (hI.resolvers q hq).done x hg p hp
  exact hx ⟨e, (hI.prefix_hist hq p).subset he, hex⟩

/-! ## Steps that leave the logs alone -/

/-- The two states show the same to the other partitions. -/
structure SameLog (ps ps' : PartitionState) : Prop where
  hist : ps'.hist = ps.hist
  seen : ps'.seen = ps.seen
  gone : ps'.gone = ps.gone
  handed : ps'.handed = ps.handed
  unsent : ps'.unsent = ps.unsent
  graph : ps'.resolver.graph = ps.resolver.graph
  upToDate : ps'.upToDate = ps.upToDate

theorem SameLog.refl (ps : PartitionState) : SameLog ps ps := ⟨rfl, rfl, rfl, rfl, rfl, rfl, rfl⟩

theorem congr {s' : Cluster} (hI : LogInv W n s) (hp : ∀ p, SameLog (s.part p) (s'.part p))
    (hc : s'.chan = s.chan) : LogInv W n s' := by
  have hE : s'.Edge = s.Edge := by
    funext u v
    simp only [Edge, (hp _).hist]
  refine ⟨fun p => ?_, fun p => ?_, fun p q hq => ?_, fun q hq => ?_⟩
  · rw [(hp p).hist]
    exact hI.ok p
  · rw [hc]
    exact hI.self p
  · rw [(hp p).hist, seenFrom_eq, (hp q).seen, hc, (hp p).unsent]
    exact hI.flow p q hq
  · rw [hE]
    exact (hI.resolvers q hq).mono (hp q).seen (hp q).gone (hp q).handed (hp q).graph
      (fun h => (hp q).upToDate ▸ h) fun _ _ _ => Iff.rfl

/-! ## A part arrives -/

theorem acquire (hI : LogInv W n s) {h : RegionId} (hH : HistInv W p (s.part p)) (hH' : HistInv W p ps)
    (hs : (s.part p).acquire W p x h = some ps) :
    LogInv W n { s with part := update s.part p ps } := by
  obtain ⟨⟨hidle, -⟩, hx0, hinv, hh, hnew, hrel, hps⟩ := acquire_inv hs
  have hentry := hH.entry_eq hx0 hh hnew hrel
  have hnot : ∀ q < n, x ∉ (s.part q).gone := fun q hq =>
    hI.not_gone hq hinv (hH.not_hasComplete hx0 hh hnew)
  set s' : Cluster := { s with part := update s.part p ps } with hs'
  have hself : s'.part p = ps := update_self ..
  have hpart : ∀ q ≠ p, s'.part q = s.part q := fun q hne => update_of_ne hne ..
  -- only the log of `p` grows
  have hhist : ∀ q, (s'.part q).hist = (s.part q).hist ++
      if q = p then [((s.part p).lm.enterLocks (W.part p x h)).2.2] else [] := by
    intro q
    by_cases hqp : q = p
    · subst hqp
      simp [hself, hps]
    · simp [hpart q hqp, hqp]
  have hE : ∀ u v, s'.Edge u v → s.Edge u v ∨ v = x := by
    rintro u v ⟨q, e, he, hev, hu⟩
    rw [hhist] at he
    rcases mem_append.mp he with he | he
    · exact .inl ⟨q, e, he, hev, hu⟩
    · split_ifs at he
      · rw [mem_singleton.mp he, hentry] at hev
        exact .inr hev.symm
      · cases he
  have hmono : ∀ u v, s.Edge u v → s'.Edge u v := by
    rintro u v ⟨q, e, he, hx⟩
    exact ⟨q, e, by rw [hhist]; exact mem_append_left _ he, hx⟩
  have hcon : ∀ q < n, ∀ d ∈ (s.part q).gone, ∀ y,
      Connected s'.Edge d y ↔ Connected s.Edge d y := by
    intro q hq d hd y
    have hcl : PredClosed s.Edge s'.Edge (· ∈ (s.part q).gone) := by
      intro u v huv hv
      have huv' := (hE u v huv).resolve_right fun heq => hnot q hq (heq ▸ hv)
      exact ⟨huv', (hI.predClosed hq u v huv' hv).2⟩
    have := hcl.connected_iff hmono (u := y) hd
    exact ⟨fun hc => (this.mp hc.symm).symm, fun hc => (this.mpr hc.symm).symm⟩
  refine ⟨fun q => ?_, hI.self, fun p' q hq => ?_, fun q hq => ?_⟩
  · by_cases hqp : q = p
    · rw [hqp, hself]
      exact hH'.ok
    · rw [hpart q hqp]
      exact hI.ok q
  · have hseen : (s'.part q).seenFrom p' = (s.part q).seenFrom p' := by
      by_cases hqp : q = p
      · rw [hqp, hself, hps]
        rfl
      · rw [hpart q hqp]
    rw [hhist, hseen, hI.flow p' q hq]
    by_cases hpp : p' = p
    · subst hpp
      rw [hself, hps]
      simp [PartitionState.unsent, hidle]
      rfl
    · rw [hpart p' hpp, if_neg hpp, append_nil]
  · by_cases hqp : q = p
    · subst hqp
      rw [hself, hps]
      exact (hI.resolvers q hq).mono rfl rfl rfl rfl nofun (hcon q hq)
    · rw [hpart q hqp]
      exact (hI.resolvers q hq).mono rfl rfl rfl rfl id (hcon q hq)

/-! ## A graph log is delivered -/

/-- What has not been seen concerns no transaction that was taken out. -/
theorem notMem_gone (hI : LogInv W n s) (hq : q < n) {es rest : List LogEntry}
    (hsplit : (s.part p).hist = (s.part q).seenFrom p ++ es ++ rest) {e : LogEntry} (he : e ∈ es) :
    e.txnId ∉ (s.part q).gone := by
  intro hg
  have hinv : p ∈ W.involved e.txnId := (hI.ok p).involved e (by
    rw [hsplit]
    exact mem_append_left _ (mem_append_right _ he))
  have hok : LogOk W p ((s.part q).seenFrom p ++ (es ++ rest)) := by
    rw [← append_assoc, ← hsplit]
    exact hI.ok p
  exact hok.not_hasEntry ((hI.resolvers q hq).done _ hg p hinv) ⟨e, mem_append_left _ he, rfl⟩

theorem deliver (hI : LogInv W n s) (hq : q < n) {m : List LogEntry} {ms : List (List LogEntry)}
    (hm : s.chan p q = m :: ms) (hs : (s.part q).receive p m = some ps) :
    LogInv W n { part := update s.part q ps,
                 chan := update s.chan p (update (s.chan p) q ms) } := by
  obtain ⟨-, hps⟩ := receive_inv hs
  have hpq : p ≠ q := by
    rintro rfl
    rw [hI.self p] at hm
    cases hm
  set s' : Cluster := { part := update s.part q ps,
                        chan := update s.chan p (update (s.chan p) q ms) } with hs'
  have hself : s'.part q = ps := update_self ..
  have hpart : ∀ q' ≠ q, s'.part q' = s.part q' := fun q' hne => update_of_ne hne ..
  have hsame : ∀ p', (s'.part p').hist = (s.part p').hist ∧ (s'.part p').unsent = (s.part p').unsent := by
    intro p'
    by_cases hne : p' = q
    · rw [hne, hself, hps]
      exact ⟨rfl, rfl⟩
    · rw [hpart p' hne]
      exact ⟨rfl, rfl⟩
  have hE : s'.Edge = s.Edge := by
    funext u v
    simp only [Edge, (hsame _).1]
  have hchan : ∀ p' q', s'.chan p' q' = if p' = p ∧ q' = q then ms else s.chan p' q' := by
    intro p' q'
    by_cases hp' : p' = p
    · subst hp'
      simp [hs', update_apply]
    · simp [hs', hp']
  have hseen : ∀ p', ps.seenFrom p' = (s.part q).seenFrom p' ++ if p = p' then m else [] := by
    rw [hps]
    exact fun p' => entriesFrom_append _ p p' m
  have hsplit : (s.part p).hist =
      (s.part q).seenFrom p ++ m ++ (ms.flatten ++ (s.part p).unsent) := by
    rw [hI.flow p q hq, hm, flatten_cons]
    simp only [append_assoc]
  have hok : LogOk W p ((s.part q).seenFrom p ++ m) :=
    (hsplit ▸ hI.ok p : LogOk W p (_ ++ (ms.flatten ++ (s.part p).unsent))).init
  refine ⟨fun p' => ?_, fun p' => ?_, fun p' q' hlt => ?_, fun q' hlt => ?_⟩
  · rw [(hsame p').1]
    exact hI.ok p'
  · rw [hchan, if_neg (by rintro ⟨rfl, heq⟩; exact hpq heq)]
    exact hI.self p'
  · rw [(hsame p').1, (hsame p').2, hchan]
    by_cases hqq : q' = q
    · subst hqq
      rw [hself, hseen]
      by_cases hpp : p' = p
      · subst hpp
        rw [if_pos rfl, if_pos ⟨rfl, rfl⟩, hsplit]
        simp only [append_assoc]
      · rw [if_neg (Ne.symm hpp), if_neg fun h => hpp h.1, append_nil]
        exact hI.flow p' q' hlt
    · rw [hpart q' hqq, if_neg fun h => hqq h.2]
      exact hI.flow p' q' hlt
  · rw [hE]
    have hR := hI.resolvers q' hlt
    by_cases hqq : q' = q
    · subst hqq
      rw [hself]
      refine ⟨?_, fun x hx p' hp' => ?_, ?_, ?_, ?_, fun hup => ?_⟩
      · rw [hps]
        exact hR.graph.receive hok fun e he => hI.notMem_gone hlt hsplit he
      · rw [hps] at hx
        rw [hseen]
        exact hasComplete_append.mpr (.inl (hR.done x hx p' hp'))
      · exact hps ▸ hR.handed
      · exact hps ▸ hR.all
      · exact hps ▸ hR.disjoint
      · rw [hps, Bool.and_eq_true, List.isEmpty_iff] at hup
        obtain ⟨hup, rfl⟩ := hup
        rw [hps]
        simpa [DeadlockResolver.onGraphLog] using hR.fresh hup
    · rw [hpart q' hqq]
      exact hR

/-! ## A resolver starts a run -/

/-- The entries of the own log are put into the graph one by one. -/
theorem graph_foldl_addLocalEntry (r : DeadlockResolver) (es : List LogEntry) :
    (es.foldl addLocalEntry r).graph = es.foldl Graph.updateGraph r.graph := by
  induction es generalizing r with
  | nil => rfl
  | cons e es ih => exact ih (r.addLocalEntry e)

/-- The state of the resolver's graph right before the search. -/
theorem updatedResolver_graph (hI : LogInv W n s) (hp : p < n) :
    GraphInv W (s.part p).updatedResolver.graph
      (((s.part p).seen ++ (s.part p).lm.takeLog.2.map fun e => (p, e)).map Prod.snd)
      (s.part p).gone := by
  have hsplit : (s.part p).hist = (s.part p).seenFrom p ++ (s.part p).lm.takeLog.2 ++
      (s.part p).entry.toList := by
    have hflow := hI.flow p p hp
    rw [hI.self p, flatten_nil, append_nil, PartitionState.unsent,
      ← append_assoc] at hflow
    exact hflow
  have hok : LogOk W p ((s.part p).seenFrom p ++ (s.part p).lm.takeLog.2) :=
    (hsplit ▸ hI.ok p : LogOk W p (_ ++ (s.part p).entry.toList)).init
  rw [PartitionState.updatedResolver, graph_foldl_addLocalEntry]
  exact (hI.resolvers p hp).graph.receive hok fun e he => hI.notMem_gone hp hsplit he

theorem find (hI : LogInv W n s) (hp : p < n)
    (hlog : (s.part p).lm.log (1 - (s.part p).lm.logIndex) = [])
    (hidle : (s.part p).stage = .idle) {r : DeadlockResolver} {sccs : List (List TxnId)}
    (hf : Found (s.part p).updatedResolver.graph (LogEdge
      (((s.part p).seen ++ (s.part p).lm.takeLog.2.map fun e => (p, e)).map Prod.snd))
      r.dfsOrder sccs)
    (hr : r.graph = r.dfsOrder.foldl (fun g x => g.erase x) (s.part p).updatedResolver.graph) :
    LogInv W n
      { part := update s.part p { s.part p with
          lm := (s.part p).lm.takeLog.1,
          resolver := r,
          stage := .found sccs,
          seen := (s.part p).seen ++ (s.part p).lm.takeLog.2.map fun e => (p, e),
          gone := (s.part p).gone ++ r.dfsOrder,
          upToDate := (s.part p).entry.isNone },
        chan := fun p' q => if p' = p ∧ q ≠ p ∧ q < n
          then s.chan p' q ++ [(s.part p).lm.takeLog.2] else s.chan p' q } := by
  set ps : PartitionState := { s.part p with
    lm := (s.part p).lm.takeLog.1,
    resolver := r,
    stage := .found sccs,
    seen := (s.part p).seen ++ (s.part p).lm.takeLog.2.map fun e => (p, e),
    gone := (s.part p).gone ++ r.dfsOrder,
    upToDate := (s.part p).entry.isNone } with hps
  set es := (s.part p).lm.takeLog.2 with hes
  set s' : Cluster := { part := update s.part p ps,
                        chan := fun p' q => if p' = p ∧ q ≠ p ∧ q < n
                          then s.chan p' q ++ [es] else s.chan p' q } with hs'
  have hself : s'.part p = ps := update_self ..
  have hpart : ∀ q ≠ p, s'.part q = s.part q := fun q hne => update_of_ne hne ..
  have hhist : ∀ q, (s'.part q).hist = (s.part q).hist := by
    intro q
    by_cases hne : q = p
    · subst hne
      rw [hself]
    · rw [hpart q hne]
  have hE : s'.Edge = s.Edge := by
    funext u v
    simp only [Edge, hhist]
  have hunsent : (s.part p).unsent = es ++ ps.unsent := by
    have hnew : ps.unsent = (s.part p).entry.toList := by
      show (update (s.part p).lm.log (s.part p).lm.logIndex [])
        (1 - (s.part p).lm.logIndex) ++ _ = _
      have hne : (1 - (s.part p).lm.logIndex) ≠ (s.part p).lm.logIndex := by
        generalize (s.part p).lm.logIndex = i
        revert i
        decide
      rw [update_of_ne hne, hlog, nil_append]
    rw [hnew]
    rfl
  have hseen : ∀ p', ps.seenFrom p' = (s.part p).seenFrom p' ++ if p = p' then es else [] :=
    fun p' => entriesFrom_append _ p p' es
  have hchan : ∀ p' q, s'.chan p' q =
      if p' = p ∧ q ≠ p ∧ q < n then s.chan p' q ++ [es] else s.chan p' q := fun _ _ => rfl
  have hflow : ∀ p', ∀ q < n, (s'.part p').hist =
      (s'.part q).seenFrom p' ++ (s'.chan p' q).flatten ++ (s'.part p').unsent := by
    intro p' q hq
    rw [hhist, hI.flow p' q hq, hchan]
    by_cases hpp : p' = p
    · subst hpp
      rw [hself, hunsent]
      by_cases hqp : q = p'
      · subst hqp
        rw [hself, hseen, if_pos rfl, if_neg (by simp), hI.self q]
        simp only [flatten_nil, append_nil, append_assoc]
      · rw [hpart q hqp, if_pos ⟨rfl, hqp, hq⟩, flatten_append, flatten_singleton]
        simp only [append_assoc]
    · rw [if_neg fun h => hpp h.1, hpart p' hpp]
      by_cases hqp : q = p
      · subst hqp
        rw [hself, hseen, if_neg (Ne.symm hpp), append_nil]
      · rw [hpart q hqp]
  have hpre : ∀ p', entriesFrom ps.seen p' <+: (s'.part p').hist := fun p' =>
    ⟨(s'.chan p' p).flatten ++ (s'.part p').unsent, by
      rw [hflow p' p hp, hself, append_assoc]
      rfl⟩
  have hokh : ∀ p', LogOk W p' (s'.part p').hist := fun p' => by
    rw [hhist]
    exact hI.ok p'
  have hok : ∀ p', LogOk W p' (entriesFrom ps.seen p') := by
    intro p'
    obtain ⟨rest, hrest⟩ := hpre p'
    exact (hrest ▸ hokh p' : LogOk W p' (_ ++ rest)).init
  have hG := hI.updatedResolver_graph hp
  have hG' : GraphInv W r.graph (ps.seen.map Prod.snd) ps.gone := hr ▸ hG.takeOut hf.stable
  -- the stable nodes are complete everywhere
  have hdone : ∀ x ∈ ps.gone, ∀ p' ∈ W.involved x, HasComplete (entriesFrom ps.seen p') x := by
    intro x hx
    rcases mem_append.mp hx with hx | hx
    · intro p' hp'
      have hcp := hseen p'
      rw [seenFrom_eq] at hcp
      rw [hcp]
      exact hasComplete_append.mpr (.inl ((hI.resolvers p hp).done x hx p' hp'))
    · obtain ⟨hxg, hst⟩ := (hf.stable x).mp hx
      rw [← numReported_iff hok x]
      have hinc := hst x hxg
      rw [hG.isIncomplete_iff hxg] at hinc
      exact not_lt.mp fun hlt => hinc hlt .refl
  have hclosed := predClosed_of hokh hpre hdone hG'.gone_pred
  have hedge : ∀ u v, LogEdge (ps.seen.map Prod.snd) u v → s'.Edge u v := by
    intro u v huv
    obtain ⟨p', e, he, hx⟩ := logEdge_seen.mp huv
    exact ⟨p', e, (hpre p').subset he, hx⟩
  have hcon : ∀ d ∈ ps.gone, ∀ y,
      Connected (LogEdge (ps.seen.map Prod.snd)) d y ↔ Connected s'.Edge d y := by
    intro d hd y
    have := hclosed.connected_iff hedge (u := y) hd
    exact ⟨fun hc => (this.mpr hc.symm).symm, fun hc => (this.mp hc.symm).symm⟩
  have hhanded : ps.handed = (s.part p).handed ++ sccs := by
    show (s.part p).applied ++ sccs = ((s.part p).applied ++ (s.part p).stage.sccs) ++ sccs
    rw [hidle]
    simp [Stage.sccs]
  refine ⟨hokh, fun p' => ?_, hflow, fun q hq => ?_⟩
  · rw [hchan, if_neg (by rintro ⟨rfl, h, -⟩; exact h rfl)]
    exact hI.self p'
  have hR := hI.resolvers q hq
  by_cases hqp : q = p
  · subst hqp
    rw [hself]
    refine ⟨hG', hdone, ?_, ?_, ?_, fun _ x => ?_⟩
    · rw [hhanded]
      intro c hc
      rcases mem_append.mp hc with hc | hc
      · obtain ⟨h1, h2, d, hd, hcd⟩ := hR.handed c hc
        exact ⟨h1, h2, d, mem_append_left _ hd, by rw [hE]; exact hcd⟩
      · obtain ⟨h1, h2, d, hd, hcd⟩ := hf.comp c hc
        have hd' : d ∈ ps.gone := mem_append_right _ hd
        exact ⟨h2, h1, d, hd', fun y => (hcd y).trans (hcon d hd' y)⟩
    · rw [hhanded]
      intro d hd y hy hc
      rcases mem_append.mp hd with hd' | hd'
      · obtain ⟨c, hcm, hdc⟩ := hR.all d hd' y hy (hE ▸ hc)
        exact ⟨c, mem_append_left _ hcm, hdc⟩
      · obtain ⟨c, hcm, hdc⟩ := hf.all d hd' y hy ((hcon d hd y).mpr hc)
        exact ⟨c, mem_append_right _ hcm, hdc⟩
    · rw [hhanded, pairwise_append]
      refine ⟨hR.disjoint, hf.disjoint, fun c hc c' hc' y hy hy' => ?_⟩
      have hyo := hf.mem_out hG.graphOk hc' hy'
      exact ((hG.mem y).mp ((hf.stable y).mp hyo).1).2 (hI.handed_gone hq hc hy)
    · rw [hr]
      exact hf.not_stable x
  · rw [hpart q hqp, hE]
    exact hR

/-- **Distributed resolvers agree**: two components handed over anywhere are equal as sets or
have no member in common. -/
theorem handed_eq_or_disjoint (hI : LogInv W n s) (hp : p < n) (hq : q < n) {c c' : List TxnId}
    (hc : c ∈ (s.part p).handed) (hc' : c' ∈ (s.part q).handed) :
    (∀ x, x ∈ c ↔ x ∈ c') ∨ c.Disjoint c' := by
  obtain ⟨-, -, d, -, hd⟩ := (hI.resolvers p hp).handed c hc
  obtain ⟨-, -, d', -, hd'⟩ := (hI.resolvers q hq).handed c' hc'
  by_cases hmeet : ∃ y, y ∈ c ∧ y ∈ c'
  · obtain ⟨y, hy, hy'⟩ := hmeet
    have hdd : Connected s.Edge d d' := ((hd y).mp hy).trans ((hd' y).mp hy').symm
    refine .inl fun x => ?_
    rw [hd, hd']
    exact ⟨fun h => hdd.symm.trans h, fun h => hdd.trans h⟩
  · exact .inr fun y hy hy' => hmeet ⟨y, hy, hy'⟩

end LogInv

end Cluster

end Slog
