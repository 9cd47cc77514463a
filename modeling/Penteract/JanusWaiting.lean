/-
# Who waits for whom in the scheduler

A vertex that cannot be dispatched is filed under the dependencies that were missing when its search
ended, and counts them.  During a step, some transactions are ready and those that wait for them have
not been looked at yet (`ready`); of those that wait for the last of them, some are still to be
counted down (`todo`); and a search is about to start (`cur`).
-/
import Penteract.Lib.Waiting
import Penteract.JanusResolve

namespace Janus

open List Option TarjanSCCsFinder AssocMap Slog Relation

namespace Scheduler

open TarjanSCCsFinder (txnIds)

variable {w : Workload} {p : PartitionId} {committed : List TxnId} {s s' : Scheduler}
  {ready todo : List TxnId} {cur : Option TxnId} {v : TxnId} {finder : TarjanSCCsFinder}

/-- The count of missing dependencies. -/
def counter (s : Scheduler) (x : TxnId) : ℤ := ((s.graph.lookup x).map Vertex.missingDeps).getD 0

structure Waits (w : Workload) (s : Scheduler) (ready todo : List TxnId) (cur : Option TxnId) :
    Prop where
  done : ∀ x ∈ ready, s.Done x
  keys : ∀ d ∈ s.pendingTxns, s.Done d → d ∈ ready
  nodup : NoRepeats s.pendingTxns
  live : ∀ x d, Registered s.pendingTxns x d → x ∈ s.graph ∨ s.Done x
  reach : ∀ x d, Registered s.pendingTxns x d → TransGen w.DependsOn x d
  count : ∀ x, s.Blocked x → cur ≠ some x →
    s.counter x = numRegistered s.pendingTxns x + if x ∈ todo then 1 else 0
  filed : ∀ x, s.Blocked x → cur ≠ some x → x ∉ todo → ∃ d, Registered s.pendingTxns x d
  covered : ∀ x, s.Blocked x → cur ≠ some x →
    Waiting.Covered w.DependsOn (· ∈ s.graph) s.Done (Registered s.pendingTxns x) x
  rank : ∃ (rank : TxnId → ℕ) (bound : ℕ), (∀ x ∈ s.graph, rank x < bound) ∧
    ∀ x d, Registered s.pendingTxns x d → x ∈ s.graph → d ∈ s.graph → rank x < rank d

variable {x y d id : TxnId} {c : SchedulerConfig}

theorem numRegistered_eq_zero_iff {index : PendingIndex} :
    numRegistered index x = 0 ↔ ∀ d, ¬ Registered index x d := by
  have hnonneg (d : TxnId) (waiting : List TxnId) (_ : index.lookup d = some waiting) :
      (0 : ℤ) ≤ if x ∈ waiting then 1 else 0 := by
    split_ifs <;> decide
  constructor
  · rintro h0 d ⟨waiting, hd, hx⟩
    have := eq_zero_of_total hnonneg h0 hd
    simp [hx] at this
  · intro h
    refine total_eq_zero fun d waiting hd => if_neg fun hx => h d ⟨waiting, hd, hx⟩

theorem numRegistered_nonneg (index : PendingIndex) (x : TxnId) : 0 ≤ numRegistered index x := by
  refine total_nonneg fun d waiting _ => ?_
  split_ifs <;> decide

/-! ## A search -/

theorem Wf.deps_eq (hwf : Wf w p committed s) (hx : x ∈ s.graph) : s.graph.deps x = w.deps x := by
  obtain ⟨vertex, hlookup⟩ := mem_iff_lookup.mp hx
  rw [Graph.deps, hlookup, map_some, getD_some, (hwf.vertex x vertex hlookup).1]

theorem Wf.dependsOn_of_edge (hwf : Wf w p committed s) (h : s.graph.Edge s.horizon.contains x y) :
    w.DependsOn x y := by
  have hx : s.Blocked x := h.1
  have hdep := h.2.2.2
  rwa [hwf.deps_eq hx.mem] at hdep

theorem Wf.reaches_of_edges (hwf : Wf w p committed s)
    (h : ReflTransGen (s.graph.Edge s.horizon.contains) x y) : w.Reaches x y :=
  ReflTransGen.mono (fun _ _ => hwf.dependsOn_of_edge) x y h

/-- A missing dependency is neither known nor done. -/
theorem not_done_of_missing {dep : JanusDependency} (h : s.graph.Missing s.horizon.contains x dep) :
    dep.txnId ∉ s.graph ∧ ¬ s.Done dep.txnId := by
  obtain ⟨-, -, -, hexec, hnone⟩ := h
  refine ⟨not_mem_iff_lookup.mpr hnone, ?_⟩
  rintro (hdone | hdisc)
  · rw [hexec] at hdone
    exact absurd hdone (by simp)
  · exact hdisc (by rw [Graph.disc, hnone]; rfl)

/-- The end of a search from `v`. -/
abbrev Searched (s : Scheduler) (v : TxnId) (finder : TarjanSCCsFinder) : Prop :=
  Post s.horizon.contains s.graph { graph := s.graph } v [] finder

theorem Searched.num_ne_zero (h : Searched s v finder) :
    TarjanSCCsFinder.num s.horizon.contains s.graph finder v ≠ 0 := by
  rw [h.linked.number]
  exact Nat.succ_ne_zero _

theorem Searched.blocked (h : Searched s v finder) : s.Blocked v :=
  active_of_num_ne_zero h.num_ne_zero

theorem Searched.mem_of_missing_nil (h : Searched s v finder) (hmissing : finder.missingDeps = []) :
    v ∈ txnIds finder.sccs := by
  have hmet := h.good.tarjan.met v
  rw [h.stack_eq_nil hmissing] at hmet
  exact (hmet.mp h.num_ne_zero).resolve_left not_mem_nil

theorem Searched.blocked_of_mem (h : Searched s v finder) (hx : x ∈ txnIds finder.sccs) : s.Blocked x :=
  active_of_num_ne_zero ((h.good.tarjan.met x).mpr (.inr hx))

/-- What was visited covers `v`: its dependencies were visited, or are missing, or done. -/
theorem Searched.dep_of_visited (hwf : Wf w p committed s) (h : Searched s v finder)
    (hx : TarjanSCCsFinder.num s.horizon.contains s.graph finder x ≠ 0) (hd : w.DependsOn x d) :
    TarjanSCCsFinder.num s.horizon.contains s.graph finder d ≠ 0 ∨
      d ∈ finder.missingDeps.map (·.txnId) ∨ s.Done d := by
  have hblocked : s.Blocked x := active_of_num_ne_zero hx
  obtain ⟨dep, hdep, rfl⟩ := hd
  rw [← hwf.deps_eq hblocked.mem] at hdep
  by_cases hself : dep.txnId = x
  · exact .inl (hself ▸ hx)
  · by_cases hknown : dep.txnId ∈ s.graph
    · by_cases hdone : s.Done dep.txnId
      · exact .inr (.inr hdone)
      · have hedge : s.graph.Edge s.horizon.contains x dep.txnId :=
          ⟨hblocked, blocked_iff.mpr ⟨hknown, hdone⟩, hself, dep, hdep, rfl⟩
        left
        rcases (h.good.tarjan.met x).mp hx with hstack | hemitted
        · exact h.good.tarjan.black x hstack not_mem_nil _ hedge
        · exact (h.good.tarjan.met _).mpr (.inr (h.good.tarjan.closed x hemitted _ hedge))
    · by_cases hexec : s.horizon.contains dep.txnId = true
      · exact .inr (.inr (.inl hexec))
      · refine .inr (.inl (h.good.missing x hx not_mem_nil dep ?_))
        exact ⟨hblocked, hdep, hself, by simpa using hexec, not_mem_iff_lookup.mp hknown⟩

theorem Searched.exists_of_missing (h : Searched s v finder) (hd : d ∈ finder.missingDeps.map (·.txnId)) :
    ∃ x dep, dep.txnId = d ∧ s.graph.Missing s.horizon.contains x dep ∧
      ReflTransGen (s.graph.Edge s.horizon.contains) v x := by
  obtain ⟨dep, hdep, rfl⟩ := mem_map.mp hd
  obtain ⟨x, hx, hmissing⟩ := h.good.missed dep hdep
  exact ⟨x, dep, rfl, hmissing, h.linked.reach x hx (num_start _ _ x)⟩

/-- A search from a vertex that is covered and filed under nothing finds all that it needs. -/
theorem Searched.missing_eq_nil (hwf : Wf w p committed s) (h : Searched s v finder)
    (hcovered : Waiting.Covered w.DependsOn (· ∈ s.graph) s.Done (Registered s.pendingTxns v) v)
    (hreg : ∀ d, ¬ Registered s.pendingTxns v d) : finder.missingDeps = [] := by
  rw [eq_nil_iff_forall_not_mem]
  intro dep hdep
  obtain ⟨x, dep', hid, hmissing, hreach⟩ := h.exists_of_missing (mem_map_of_mem hdep)
  obtain ⟨hunknown, hundone⟩ := not_done_of_missing hmissing
  have hpath : ReflTransGen (fun a b => ¬ s.Done a ∧ w.DependsOn a b) v x :=
    ReflTransGen.mono (fun a b hab => ⟨(blocked_iff.mp hab.1).2, hwf.dependsOn_of_edge hab⟩) v x
      hreach
  have hx : s.Blocked x := hmissing.1
  have hlast : w.DependsOn x dep'.txnId := ⟨dep', hwf.deps_eq hx.mem ▸ hmissing.2.1, rfl⟩
  rcases hcovered.known_of_reach hreg (hpath.tail ⟨(blocked_iff.mp hx).2, hlast⟩) with hdone | hknown
  · exact hundone hdone
  · exact hunknown hknown

/-- After the search from `v`, `v` is dispatched or filed, and the others are as before. -/
theorem Waits.resolve (hwf : Wf w p committed s) (h : Waits w s ready todo (some v)) (hv : v ∉ todo)
    (hnew : ∀ d, ¬ Registered s.pendingTxns v d) (hpost : Searched s v finder)
    (hres : Resolved c s v finder s') :
    Waits w s' ((txnIds finder.sccs).reverse ++ ready) todo none := by
  obtain ⟨asked, hfiled, -⟩ := hres.filed
  have hgood := hpost.good
  have hdone (x : TxnId) : s'.Done x ↔ s.Done x ∨ x ∈ txnIds finder.sccs :=
    hres.done_iff hwf hgood
  have hblocked (x : TxnId) := hres.blocked_iff (x := x) hwf hgood
  have hkept {x : TxnId} (hx : x ∈ s.graph) : x ∈ s'.graph ∨ s'.Done x := by
    by_cases hm : (x, false) ∈ finder.sccs.flatten
    · exact .inr ((hdone x).mpr (.inr ((mem_flatten_iff hwf hgood).mp hm).1))
    · exact .inl ((hres.mem_graph hgood).mpr ⟨hx, hm⟩)
  have hmissing {d : TxnId} (hd : d ∈ finder.missingDeps.map (·.txnId)) :
      d ∉ s.graph ∧ ¬ s.Done d := by
    obtain ⟨x, dep, rfl, hm, -⟩ := hpost.exists_of_missing hd
    exact not_done_of_missing hm
  have hvmem : v ∈ s.graph := hpost.blocked.mem
  have hcur {x : TxnId} (hx : x ≠ v) : some v ≠ some x := fun heq => hx (some_inj.mp heq).symm
  refine ⟨fun x hx => ?_, fun d hd hdd => ?_, hfiled.nodup h.nodup, fun x d hxd => ?_,
    fun x d hxd => ?_, fun x hx _ => ?_, fun x hx _ hxt => ?_, fun x hx _ => ?_, ?_⟩
  · rcases mem_append.mp hx with hx | hx
    · exact (hdone x).mpr (.inr (mem_reverse.mp hx))
    · exact (hdone x).mpr (.inl (h.done x hx))
  · rw [mem_append, mem_reverse]
    rcases (hdone d).mp hdd with hold | hnew
    · rcases (hfiled.mem d).mp hd with hd | hd
      · exact .inr (h.keys d hd hold)
      · exact absurd hold (hmissing hd).2
    · exact .inl hnew
  · rcases (hfiled.registered x d).mp hxd with hold | ⟨rfl, -⟩
    · rcases h.live x d hold with hx | hx
      · exact hkept hx
      · exact .inr ((hdone x).mpr (.inl hx))
    · exact hkept hvmem
  · rcases (hfiled.registered x d).mp hxd with hold | ⟨rfl, hd⟩
    · exact h.reach x d hold
    · obtain ⟨y, dep, rfl, hm, hreach⟩ := hpost.exists_of_missing hd
      have hy : s.Blocked y := hm.1
      exact TransGen.tail' (hwf.reaches_of_edges hreach) ⟨dep, hwf.deps_eq hy.mem ▸ hm.2.1, rfl⟩
  · obtain ⟨hold, hnot⟩ := (hblocked x).mp hx
    obtain ⟨vertex', hlookup'⟩ := mem_iff_lookup.mp hx.mem
    obtain ⟨vertex, hlookup, -, -, -, hcount⟩ := hres.vertex hgood hlookup'
    rw [counter, hlookup', map_some, getD_some, hcount, hfiled.count]
    rcases eq_or_ne x v with rfl | hxv
    · rw [numRegistered_eq_zero_iff.mpr hnew]
      simp [hv]
    · have hc := h.count x hold (hcur hxv)
      rw [counter, hlookup, map_some, getD_some] at hc
      simp [hxv, hc]
  · obtain ⟨hold, hnot⟩ := (hblocked x).mp hx
    rcases eq_or_ne x v with rfl | hxv
    · have hne : finder.missingDeps ≠ [] := fun hnil => hnot (hpost.mem_of_missing_nil hnil)
      obtain ⟨dep, hdep⟩ := exists_mem_of_ne_nil _ hne
      exact ⟨dep.txnId, (hfiled.registered _ _).mpr (.inr ⟨rfl, mem_map_of_mem hdep⟩)⟩
    · obtain ⟨d, hd⟩ := h.filed x hold (hcur hxv) hxt
      exact ⟨d, (hfiled.registered x d).mpr (.inl hd)⟩
  · obtain ⟨hold, hnot⟩ := (hblocked x).mp hx
    rcases eq_or_ne x v with rfl | hxv
    · refine ⟨fun z => TarjanSCCsFinder.num s.horizon.contains s.graph finder z ≠ 0,
        hpost.num_ne_zero, fun z hz => ?_⟩
      have hzb : s.Blocked z := active_of_num_ne_zero hz
      rcases hkept hzb.mem with hzm | hzd
      · refine .inr ⟨hzm, fun d hd => ?_⟩
        rcases hpost.dep_of_visited hwf hz hd with hd | hd | hd
        · exact .inl hd
        · exact .inr (.inl ((hfiled.registered _ d).mpr (.inr ⟨rfl, hd⟩)))
        · exact .inr (.inr ((hdone d).mpr (.inl hd)))
      · exact .inl hzd
    · refine (h.covered x hold (hcur hxv)).mono (fun z hz => (hdone z).mpr (.inl hz))
        (fun z hz => hkept hz) fun d hd => .inl ((hfiled.registered x d).mpr (.inl hd))
  · obtain ⟨rank, bound, hbound, hrank⟩ := h.rank
    refine ⟨rank, bound, fun x hx => hbound x ((hres.mem_graph hgood).mp hx).1,
      fun x d hxd hx hd => ?_⟩
    have hx := ((hres.mem_graph hgood).mp hx).1
    have hd := ((hres.mem_graph hgood).mp hd).1
    rcases (hfiled.registered x d).mp hxd with hold | ⟨-, hm⟩
    · exact hrank x d hold hx hd
    · exact absurd hd (hmissing hm).1

/-! ## The moves of a scheduler -/

/-- What happens while the scheduler goes through what is ready. -/
inductive Move (w : Workload) (p : PartitionId) : Scheduler → Scheduler → Prop where
  | resolve {s s' : Scheduler} {v : TxnId} {finder : TarjanSCCsFinder}
      (hround : findRound s.horizon.contains s.graph v = some finder) (hpost : Searched s v finder)
      (hres : Resolved (w.config p) s v finder s') : Move w p s s'
  | countDown {s : Scheduler} (id : TxnId) : Move w p s (s.countDown id)
  | forget {s : Scheduler} (id : TxnId) (hdone : s.Done id) :
      Move w p s { s with pendingTxns := s.pendingTxns.erase id }

theorem lookup_countDown (s : Scheduler) (id x : TxnId) :
    (s.countDown id).graph.lookup x = (s.graph.lookup x).map fun vertex =>
      if x = id then { vertex with missingDeps := vertex.missingDeps - 1 } else vertex :=
  lookup_modify_map ..

theorem mem_countDown : x ∈ (s.countDown id).graph ↔ x ∈ s.graph :=
  mem_modify

theorem done_countDown : (s.countDown id).Done x ↔ s.Done x := by
  rw [Done, Done, Graph.disc, Graph.disc, lookup_countDown, Option.map_map]
  refine or_congr Iff.rfl (not_congr (Eq.congr_left ?_))
  congr 2
  funext vertex
  simp only [Function.comp_apply]
  split_ifs <;> rfl

theorem blocked_countDown : (s.countDown id).Blocked x ↔ s.Blocked x := by
  rw [blocked_iff, blocked_iff, mem_countDown, done_countDown]

theorem counter_countDown (hx : x ∈ s.graph) :
    (s.countDown id).counter x = s.counter x - if x = id then 1 else 0 := by
  obtain ⟨vertex, hlookup⟩ := mem_iff_lookup.mp hx
  rw [counter, counter, lookup_countDown, hlookup]
  by_cases hid : x = id <;> simp [hid]

theorem Wf.countDown (hwf : Wf w p committed s) (id : TxnId) : Wf w p committed (s.countDown id) := by
  have hvertex {x : TxnId} {vertex' : Vertex}
      (hx : (s.countDown id).graph.lookup x = some vertex') :
      ∃ vertex, s.graph.lookup x = some vertex ∧ vertex'.txnId = vertex.txnId ∧
        vertex'.deps = vertex.deps ∧ vertex'.isLocal = vertex.isLocal := by
    rw [lookup_countDown] at hx
    obtain ⟨vertex, hlookup, rfl⟩ := map_eq_some_iff.mp hx
    refine ⟨vertex, hlookup, ?_⟩
    by_cases hid : x = id <;> simp [hid]
  refine ⟨fun x vertex' hx => ?_, fun x vertex' hx => ?_, fun x hx => ?_, fun x hx => ?_,
    fun x hp hx => ?_, fun x => ?_, fun x hx hdone => ?_⟩
  · obtain ⟨vertex, hlookup, hid, -, -⟩ := hvertex hx
    exact hid.trans (hwf.keyed x vertex hlookup)
  · obtain ⟨vertex, hlookup, -, hdeps, hlocal⟩ := hvertex hx
    rw [hdeps, hlocal]
    exact hwf.vertex x vertex hlookup
  · exact hwf.apart x (mem_countDown.mp hx)
  · exact hwf.txns x (blocked_countDown.mp hx)
  · exact hwf.known x hp (hx.imp_left mem_countDown.mp)
  · rw [done_countDown]
    exact hwf.dispatched x
  · exact hwf.kept x (mem_countDown.mp hx) (done_countDown.mp hdone)

theorem Wf.pendingTxns (hwf : Wf w p committed s) (index : PendingIndex) :
    Wf w p committed { s with pendingTxns := index } :=
  ⟨hwf.keyed, hwf.vertex, hwf.apart, hwf.txns, hwf.known, hwf.dispatched, hwf.kept⟩

theorem Wf.move (hwf : Wf w p committed s) (hmove : Move w p s s') : Wf w p committed s' := by
  cases hmove with
  | resolve _ hpost hres => exact hres.wf hwf hpost.good
  | countDown id => exact hwf.countDown id
  | forget id _ => exact hwf.pendingTxns _

/-- **The rule for whatever a search and its consequences keep.** -/
theorem Wf.moves {P : Scheduler → Prop} (hwf : Wf w p committed s) (h : P s)
    (hmove : ∀ s s', Wf w p committed s → P s → Move w p s s' → P s')
    (hmoves : ReflTransGen (Move w p) s s') : Wf w p committed s' ∧ P s' := by
  induction hmoves with
  | refl => exact ⟨hwf, h⟩
  | tail _ hlast ih => exact ⟨ih.1.move hlast, hmove _ _ ih.1 ih.2 hlast⟩

theorem Wf.of_moves (hwf : Wf w p committed s) (hmoves : ReflTransGen (Move w p) s s') :
    Wf w p committed s' :=
  (hwf.moves (P := fun _ => True) trivial (fun _ _ _ _ _ => trivial) hmoves).1

/-! ## Going through those that wait -/

/-- The vertices that are not dispatched. -/
def blockedTxns (s : Scheduler) : Finset TxnId :=
  s.graph.keys.toFinset.filter fun x => s.graph.active s.horizon.contains x

theorem mem_blockedTxns : x ∈ s.blockedTxns ↔ s.Blocked x := by
  rw [blockedTxns, Finset.mem_filter, List.mem_toFinset]
  exact ⟨And.right, fun hx => ⟨AList.mem_keys.mp hx.mem, hx⟩⟩

theorem card_blockedTxns_le (s : Scheduler) : s.blockedTxns.card ≤ s.graph.entries.length := by
  refine (Finset.card_filter_le _ _).trans ((toFinset_card_le _).trans ?_)
  rw [AList.keys, List.keys, length_map]

/-- A search dispatches as many as it makes ready. -/
theorem Resolved.card_blockedTxns (hwf : Wf w p committed s) (hpost : Searched s v finder)
    (hres : Resolved c s v finder s') :
    (txnIds finder.sccs).length + s'.blockedTxns.card = s.blockedTxns.card := by
  have hsub : (txnIds finder.sccs).toFinset ⊆ s.blockedTxns := fun x hx =>
    mem_blockedTxns.mpr (hpost.blocked_of_mem (List.mem_toFinset.mp hx))
  have heq : s'.blockedTxns = s.blockedTxns \ (txnIds finder.sccs).toFinset := by
    ext x
    rw [mem_blockedTxns, hres.blocked_iff hwf hpost.good, Finset.mem_sdiff, mem_blockedTxns,
      List.mem_toFinset]
  rw [heq, ← toFinset_card_of_nodup hpost.good.nodup, add_comm]
  exact Finset.card_sdiff_add_card_eq_card hsub

/-- The search from a vertex that is filed under nothing. -/
theorem Waits.findAndResolve (hwf : Wf w p committed s) (h : Waits w s ready todo (some v))
    (hblocked : s.Blocked v) (hv : v ∉ todo) (hnew : ∀ d, ¬ Registered s.pendingTxns v d) :
    ∃ finder s', findAndResolveSCCs (w.config p) s v ready =
        some (s', (txnIds finder.sccs).reverse ++ ready, finder.stack) ∧
      Searched s v finder ∧ Waits w s' ((txnIds finder.sccs).reverse ++ ready) todo none ∧
      Move w p s s' ∧
      ((txnIds finder.sccs).reverse ++ ready).length + s'.blockedTxns.card =
        ready.length + s.blockedTxns.card := by
  obtain ⟨finder, hround, hpost⟩ := findRound_post hwf.keyed hblocked
  obtain ⟨s', hs', hres⟩ := resolved_of_findRound hwf hpost.good hround hnew ready
  refine ⟨finder, s', hs', hpost, h.resolve hwf hv hnew hpost hres, .resolve hround hpost hres, ?_⟩
  have := hres.card_blockedTxns hwf hpost
  rw [length_append, length_reverse]
  omega

theorem Waits.drop (h : Waits w s ready (id :: todo) none) (hid : ¬ s.Blocked id) :
    Waits w s ready todo none := by
  have hmem {x : TxnId} (hx : s.Blocked x) : x ∈ id :: todo ↔ x ∈ todo := by
    rw [mem_cons]
    refine or_iff_right ?_
    rintro rfl
    exact hid hx
  refine { h with count := fun x hx hcur => ?_, filed := fun x hx hcur hxt => ?_ }
  · rw [h.count x hx hcur]
    simp only [hmem hx]
  · exact h.filed x hx hcur (mt (hmem hx).mp hxt)

theorem Waits.covered_countDown (h : Waits w s ready todo none) (id : TxnId) (hx : s.Blocked x) :
    Waiting.Covered w.DependsOn
      (· ∈ (s.countDown id).graph) (s.countDown id).Done (Registered s.pendingTxns x) x :=
  (h.covered x hx (by simp)).mono (fun _ => done_countDown.mpr)
    (fun _ hz => .inl (mem_countDown.mpr hz)) fun _ hd => .inl hd

/-- One that waits has been counted down, and is looked at now. -/
theorem Waits.countDown (h : Waits w s ready (id :: todo) none) (hid : s.Blocked id) :
    Waits w (s.countDown id) ready todo (some id) ∧
      (s.countDown id).counter id = numRegistered s.pendingTxns id := by
  have hcount (x : TxnId) (hx : s.Blocked x) :
      (s.countDown id).counter x = s.counter x - if x = id then 1 else 0 :=
    counter_countDown hx.mem
  have hne {x : TxnId} (hx : some id ≠ some x) : x ≠ id := fun heq => hx (heq ▸ rfl)
  refine ⟨⟨fun x hx => done_countDown.mpr (h.done x hx),
    fun d hd hdd => h.keys d hd (done_countDown.mp hdd), h.nodup,
    fun x d hxd => (h.live x d hxd).imp mem_countDown.mpr done_countDown.mpr, h.reach,
    fun x hx hcur => ?_, fun x hx hcur hxt => ?_, 
    fun x hx _ => h.covered_countDown id (blocked_countDown.mp hx), ?_⟩,
    ?_⟩
  · have hx := blocked_countDown.mp hx
    have hxid := hne hcur
    rw [hcount x hx, h.count x hx (by simp), if_neg hxid]
    simp only [mem_cons, hxid, false_or, sub_zero]
    rfl
  · have hx := blocked_countDown.mp hx
    exact h.filed x hx (by simp) fun hmem => (mem_cons.mp hmem).elim (hne hcur) hxt
  · obtain ⟨rank, bound, hbound, hrank⟩ := h.rank
    exact ⟨rank, bound, fun x hx => hbound x (mem_countDown.mp hx),
      fun x d hxd hx hd => hrank x d hxd (mem_countDown.mp hx) (mem_countDown.mp hd)⟩
  · rw [hcount id hid, h.count id hid (by simp)]
    simp

/-- The vertex that was looked at waits for others. -/
theorem Waits.settle (h : Waits w s ready todo (some v)) (hv : v ∉ todo)
    (hcount : s.counter v = numRegistered s.pendingTxns v)
    (hfiled : ∃ d, Registered s.pendingTxns v d)
    (hcovered : Waiting.Covered w.DependsOn (· ∈ s.graph) s.Done (Registered s.pendingTxns v) v) :
    Waits w s ready todo none := by
  have hcur {x : TxnId} (hx : x ≠ v) : some v ≠ some x := fun heq =>
    hx (some_inj.mp heq).symm
  refine { h with
    count := fun x hx _ => ?_
    filed := fun x hx _ hxt => ?_
    covered := fun x hx _ => ?_ }
  · rcases eq_or_ne x v with rfl | hxv
    · simpa [hv] using hcount
    · exact h.count x hx (hcur hxv)
  · rcases eq_or_ne x v with rfl | hxv
    · exact hfiled
    · exact h.filed x hx (hcur hxv) hxt
  · rcases eq_or_ne x v with rfl | hxv
    · exact hcovered
    · exact h.covered x hx (hcur hxv)

theorem Wf.blocked_of_disc (hwf : Wf w p committed s) {vertex : Vertex}
    (hlookup : s.graph.lookup x = some vertex) : s.Blocked x ↔ vertex.disc = 0 := by
  have hexec := hwf.apart x (mem_iff_lookup.mpr ⟨vertex, hlookup⟩)
  simp [Blocked, Graph.active, hlookup, hexec]

/-- **One that waits is looked at.**  If it waits for nothing else, its search finds all that it
needs, so that nothing is left as not ready. -/
theorem Waits.checkPendingTxn (hwf : Wf w p committed s) (h : Waits w s ready (id :: todo) none)
    (hid : id ∉ todo) :
    ∃ s' ready', Scheduler.checkPendingTxn (w.config p) (s, ready, []) id =
        some (s', ready', []) ∧
      Waits w s' ready' todo none ∧ ReflTransGen (Move w p) s s' ∧
      ready'.length + s'.blockedTxns.card ≤ ready.length + s.blockedTxns.card := by
  simp only [Scheduler.checkPendingTxn]
  cases hlookup : s.graph.lookup id with
  | none =>
    refine ⟨s, ready, rfl, h.drop fun hb => ?_, .refl, le_rfl⟩
    exact not_mem_iff_lookup.mpr hlookup hb.mem
  | some vertex =>
    have hiff := hwf.blocked_of_disc hlookup
    by_cases hdisc : vertex.disc = 0
    · have hblocked := hiff.mpr hdisc
      obtain ⟨hwaits, hcounter⟩ := h.countDown hblocked
      have hmissing : (s.countDown id).counter id = vertex.missingDeps - 1 := by
        rw [counter_countDown hblocked.mem, counter, hlookup]
        simp
      have hmove : Move w p s (s.countDown id) := .countDown id
      have hcov := h.covered_countDown id hblocked
      have hcard : (s.countDown id).blockedTxns = s.blockedTxns := by
        ext x
        rw [mem_blockedTxns, mem_blockedTxns, blocked_countDown]
      simp only [if_neg (not_not.mpr hdisc), not_mem_nil, false_or]
      by_cases hpos : 0 < vertex.missingDeps - 1
      · rw [if_pos hpos]
        refine ⟨_, ready, rfl, hwaits.settle hid hcounter ?_ hcov, .single hmove, by rw [hcard]⟩
        by_contra hnone
        have hzero := numRegistered_eq_zero_iff.mpr (not_exists.mp hnone)
        have : (s.countDown id).counter id = 0 := hcounter.trans hzero
        omega
      · rw [if_neg hpos]
        have hnonneg := numRegistered_nonneg s.pendingTxns id
        have hnew : ∀ d, ¬ Registered (s.countDown id).pendingTxns id d :=
          numRegistered_eq_zero_iff.mp (by show numRegistered s.pendingTxns id = 0; omega)
        obtain ⟨finder, s', hs', hpost, hwaits', hmove', hlen⟩ := hwaits.findAndResolve
          (hwf.countDown id) (blocked_countDown.mpr hblocked) hid hnew
        have hnil := hpost.missing_eq_nil (hwf.countDown id) hcov hnew
        rw [hs', map_some, hpost.stack_eq_nil hnil]
        exact ⟨s', _, rfl, hwaits', .tail (.single hmove) hmove', by rw [hlen, hcard]⟩
    · simp only [if_pos hdisc]
      exact ⟨s, ready, rfl, h.drop (mt hiff.mp hdisc), .refl, le_rfl⟩

/-- All those that wait for one transaction are looked at. -/
theorem Waits.checkPendingTxns_loop (hwf : Wf w p committed s)
    (h : Waits w s ready todo none) (htodo : todo.Nodup) :
    ∃ s' ready', todo.foldlM (Scheduler.checkPendingTxn (w.config p)) (s, ready, []) =
        some (s', ready', []) ∧
      Waits w s' ready' [] none ∧ ReflTransGen (Move w p) s s' ∧
      ready'.length + s'.blockedTxns.card ≤ ready.length + s.blockedTxns.card := by
  induction todo generalizing s ready with
  | nil => exact ⟨s, ready, rfl, h, .refl, le_rfl⟩
  | cons id todo ih =>
    obtain ⟨hid, htodo'⟩ := nodup_cons.mp htodo
    obtain ⟨s₁, ready₁, hs₁, hwaits₁, hmoves₁, hlen₁⟩ := h.checkPendingTxn hwf hid
    have hwf₁ := hwf.of_moves hmoves₁
    obtain ⟨s₂, ready₂, hs₂, hwaits₂, hmoves₂, hlen₂⟩ := ih hwf₁ hwaits₁ htodo'
    refine ⟨s₂, ready₂, ?_, hwaits₂, hmoves₁.trans hmoves₂, hlen₂.trans hlen₁⟩
    rw [foldlM_cons, hs₁]
    exact hs₂

/-- Those that wait for a transaction that is ready are taken from the index. -/
theorem Waits.remove {waiting : List TxnId} (h : Waits w s (id :: ready) [] none)
    (hid : s.pendingTxns.lookup id = some waiting) (htodo : todo.Perm waiting) :
    Waits w { s with pendingTxns := s.pendingTxns.erase id } ready todo none := by
  have hreg {x d : TxnId} :
      Registered (s.pendingTxns.erase id) x d ↔ Registered s.pendingTxns x d ∧ d ≠ id := by
    rw [Registered, Registered, lookup_erase']
    by_cases hd : d = id <;> simp [hd]
  have hcount (x : TxnId) : numRegistered s.pendingTxns x =
      numRegistered (s.pendingTxns.erase id) x + if x ∈ todo then 1 else 0 := by
    rw [numRegistered, total_erase hid, add_comm, numRegistered]
    simp only [htodo.mem_iff]
  refine ⟨fun x hx => h.done x (mem_cons_of_mem _ hx), fun d hd hdd => ?_, fun d l hd => ?_,
    fun x d hxd => h.live x d (hreg.mp hxd).1, fun x d hxd => h.reach x d (hreg.mp hxd).1,
    fun x hx hcur => ?_, fun x hx hcur hxt => ?_, fun x hx hcur => ?_, ?_⟩
  · have hd : d ≠ id ∧ d ∈ s.pendingTxns := AList.mem_erase.mp hd
    exact (mem_cons.mp (h.keys d hd.2 hdd)).resolve_left hd.1
  · rw [lookup_erase'] at hd
    split_ifs at hd with heq
    exact h.nodup d l hd
  · exact (h.count x hx hcur).trans (by rw [if_neg not_mem_nil, add_zero]; exact hcount x)
  · obtain ⟨d, hd⟩ := h.filed x hx hcur not_mem_nil
    refine ⟨d, hreg.mpr ⟨hd, ?_⟩⟩
    rintro rfl
    obtain ⟨l, hl, hxl⟩ := hd
    rw [hid, some_inj] at hl
    exact hxt (htodo.mem_iff.mpr (hl ▸ hxl))
  · refine (h.covered x hx hcur).mono (fun _ hz => hz) (fun _ => .inl) fun d hd => ?_
    by_cases hdid : d = id
    · exact .inr (hdid ▸ h.done id mem_cons_self)
    · exact .inl (hreg.mpr ⟨hd, hdid⟩)
  · obtain ⟨rank, bound, hbound, hrank⟩ := h.rank
    exact ⟨rank, bound, hbound, fun x d hxd => hrank x d (hreg.mp hxd).1⟩

/-- **Going through what is ready ends**, with nothing left to look at.  Each iteration takes away one
that is ready, and each one that becomes ready was blocked. -/
theorem Waits.checkPendingTxns (hwf : Wf w p committed s) (h : Waits w s ready [] none) {bound : ℕ}
    (hbound : ready.length + s.blockedTxns.card < bound) :
    ∃ s', Scheduler.checkPendingTxns (w.config p) bound s ready = some s' ∧
      Waits w s' [] [] none ∧ ReflTransGen (Move w p) s s' := by
  induction bound generalizing s ready with
  | zero => omega
  | succ bound ih =>
    cases ready with
    | nil => exact ⟨s, rfl, h, .refl⟩
    | cons id ready =>
      rw [length_cons] at hbound
      simp only [Scheduler.checkPendingTxns, PendingIndex.remove]
      cases hid : s.pendingTxns.lookup id with
      | none =>
        refine ih hwf { h with
          done := fun x hx => h.done x (mem_cons_of_mem _ hx)
          keys := fun d hd hdd => ?_ } (by omega)
        refine (mem_cons.mp (h.keys d hd hdd)).resolve_left ?_
        rintro rfl
        exact not_mem_iff_lookup.mpr hid hd
      | some waiting =>
        have hperm := w.order_perm p id waiting
        have hwaits := h.remove hid hperm
        have hforget : Move w p s { s with pendingTxns := s.pendingTxns.erase id } :=
          .forget id (h.done id mem_cons_self)
        have hwf₁ := hwf.move hforget
        obtain ⟨s₂, ready₂, hs₂, hwaits₂, hmoves₂, hlen⟩ :=
          hwaits.checkPendingTxns_loop hwf₁ (hperm.nodup_iff.mpr (h.nodup id waiting hid))
        have hwf₂ := hwf₁.of_moves hmoves₂
        have hcard : ({ s with pendingTxns := s.pendingTxns.erase id } :
          Scheduler).blockedTxns = s.blockedTxns := rfl
        rw [hcard] at hlen
        obtain ⟨s₃, hs₃, hwaits₃, hmoves₃⟩ := ih hwf₂ hwaits₂ (by omega)
        refine ⟨s₃, ?_, hwaits₃, (ReflTransGen.head hforget hmoves₂).trans hmoves₃⟩
        have horder : (w.config p).order id waiting = w.order p id waiting := rfl
        simp only [horder, hs₂, bind_some]
        exact hs₃

theorem Waits.wakeUp (hwf : Wf w p committed s) (h : Waits w s ready [] none) :
    ∃ s', Scheduler.wakeUp (w.config p) s ready = some s' ∧ Waits w s' [] [] none ∧
      ReflTransGen (Move w p) s s' := by
  refine h.checkPendingTxns hwf ?_
  have := card_blockedTxns_le s
  omega

/-- The search from a new vertex, and all that follows from it. -/
theorem Waits.resolveNew (hwf : Wf w p committed s) (h : Waits w s [] [] (some v))
    (hblocked : s.Blocked v) (hnew : ∀ d, ¬ Registered s.pendingTxns v d) :
    ∃ s', Scheduler.resolve (w.config p) s v = some s' ∧ Waits w s' [] [] none ∧
      ReflTransGen (Move w p) s s' := by
  obtain ⟨finder, s₁, hs₁, -, hwaits₁, hmove, -⟩ :=
    h.findAndResolve hwf hblocked not_mem_nil hnew
  obtain ⟨s₂, hs₂, hwaits₂, hmoves⟩ := hwaits₁.wakeUp (hwf.move hmove)
  refine ⟨s₂, ?_, hwaits₂, .head hmove hmoves⟩
  rw [Scheduler.resolve, hs₁]
  exact hs₂

end Scheduler

end Janus
