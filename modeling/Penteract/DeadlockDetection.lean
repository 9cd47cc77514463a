/-
# What a run of the resolver finds

The graph of the resolver stands for a relation `E` on transaction ids.  Under the conditions of
`Graph.Ok` every check of a run holds on the way to the components: the propagation of
instability meets no dangling edge, and the second pass meets stable nodes only.  The vertices
in `dfs_order_` are exactly the stable ones, and the components handed to `ResolveDeadlock` are
exactly the classes of mutual reachability with more than one stable vertex.
-/
import Penteract.Lib.Kosaraju
import Penteract.DeadlockResolver

namespace Slog

open List Option AssocMap Components Relation

namespace Graph

variable {g : Graph} {E : TxnId → TxnId → Prop} {order : List TxnId}

/-- The node lists are the edges of `E`, and no edge leaves the graph. -/
structure Ok (g : Graph) (E : TxnId → TxnId → Prop) : Prop where
  out : ∀ u n, g.lookup u = some n → ∀ v, v ∈ n.outgoing ↔ E u v
  inc : ∀ v n, g.lookup v = some n → ∀ u, u ∈ n.incoming ↔ E u v
  succ : ∀ u v, u ∈ g → E u v → v ∈ g

/-- A stable node gets no more incoming edges: it is not reached from an incomplete node. -/
def Stable (g : Graph) (E : TxnId → TxnId → Prop) (x : TxnId) : Prop :=
  x ∈ g ∧ ∀ w ∈ g, g.isIncomplete w = true → ¬ ReflTransGen E w x

/-- The predecessors that are still in the graph are stable too. -/
theorem Stable.pred {u v : TxnId} (h : g.Stable E v) (hu : u ∈ g) (huv : ReflTransGen E u v) :
    g.Stable E u :=
  ⟨hu, fun w hw hinc hwu => h.2 w hw hinc (hwu.trans huv)⟩

variable {x : TxnId}

theorem mem_of_isIncomplete (h : g.isIncomplete x = true) : x ∈ g := by
  rw [mem_iff_lookup]
  unfold isIncomplete at h
  cases hl : g.lookup x with
  | none => rw [hl] at h; cases h
  | some n => exact ⟨n, rfl⟩

namespace Ok

variable {u v : TxnId}

theorem reach (hg : g.Ok E) (hu : u ∈ g) (h : ReflTransGen E u v) : v ∈ g := by
  induction h with
  | refl => exact hu
  | tail _ hbc ih => exact hg.succ _ _ ih hbc

theorem successors (hg : g.Ok E) (hu : u ∈ g) :
    ∃ vs, g.successors u = some vs ∧ ∀ v, v ∈ vs ↔ E u v := by
  obtain ⟨n, hn⟩ := mem_iff_lookup.mp hu
  exact ⟨n.outgoing, by rw [Graph.successors, hn]; rfl, hg.out u n hn⟩

theorem exists_successors (hg : g.Ok E) (hu : u ∈ g) :
    (∃ vs, g.successors u = some vs ∧ v ∈ vs) ↔ E u v := by
  obtain ⟨vs, hvs, hmem⟩ := hg.successors hu
  constructor
  · rintro ⟨ws, hws, hv⟩
    rw [hvs, some_inj] at hws
    exact (hmem v).mp (hws ▸ hv)
  · exact fun h => ⟨vs, hvs, (hmem v).mpr h⟩

end Ok

/-! ## Instability -/

/-- **Instability reaches exactly the nodes that are not stable**, and meets no dangling edge. -/
theorem unstable_spec (hg : g.Ok E) (horder : order.Perm g.keys) :
    ∃ un, g.unstable order = some un ∧ ∀ x ∈ g, x ∉ un ↔ g.Stable E x := by
  have hmem : ∀ x, x ∈ order ↔ x ∈ g := fun x => by rw [horder.mem_iff, AList.mem_keys]
  set queue := order.filter g.isIncomplete with hqueue
  have hq : ∀ x, x ∈ queue ↔ g.isIncomplete x = true := by
    intro x
    rw [hqueue, mem_filter, hmem]
    exact ⟨fun h => h.2, fun h => ⟨mem_of_isIncomplete h, h⟩⟩
  have hadj : ∀ u ∈ order, ∃ vs, g.successors u = some vs ∧ ∀ v ∈ vs,
      (if v ∈ g then some true else none) ≠ none ∧
        ((if v ∈ g then some true else none) = some true → v ∈ order) := by
    intro u hu
    obtain ⟨vs, hvs, hv⟩ := hg.successors ((hmem u).mp hu)
    refine ⟨vs, hvs, fun v hvm => ?_⟩
    have hvg : v ∈ g := hg.succ u v ((hmem u).mp hu) ((hv v).mp hvm)
    rw [if_pos hvg]
    exact ⟨some_ne_none _, fun _ => (hmem v).mpr hvg⟩
  have hfuel : queue.length + Search.unmarked order queue ≤ order.length := by
    have hsplit := length_eq_length_filter_add (l := order) g.isIncomplete
    have hun : Search.unmarked order queue = (order.filter fun x => !g.isIncomplete x).length := by
      rw [Search.unmarked]
      congr 1
      apply filter_congr
      intro x _
      cases hx : g.isIncomplete x <;> simp [hq, hx]
    rw [hun, hqueue]
    exact hsplit.ge
  have hnd : order.Nodup := horder.nodup_iff.mpr (AList.keys_nodup g)
  obtain ⟨out, un, hs, hun, -, -, hreach⟩ := Search.search_spec order hadj
    (fun u hu => mem_of_mem_filter hu) (fun u hu => hu) (hnd.filter _) hfuel
  refine ⟨un, by rw [unstable, ← hqueue, hs]; rfl, fun x hx => ?_⟩
  -- the search follows every edge, since no edge leaves the graph
  have hpath : ∀ u ∈ g, ReflTransGen (Search.Follows g.successors
      (fun next => if next ∈ g then some true else none) []) u x ↔ ReflTransGen E u x := by
    intro u hu
    constructor
    · intro h
      induction h using ReflTransGen.head_induction_on with
      | refl => exact .refl
      | @head a b hab _ ih =>
        have ha : a ∈ g := by
          obtain ⟨⟨vs, hvs, -⟩, -⟩ := hab
          obtain ⟨n, hn, -⟩ := map_eq_some_iff.mp hvs
          exact mem_iff_lookup.mpr ⟨n, hn⟩
        have hE := (hg.exists_successors ha).mp hab.1
        exact .head hE (ih (hg.succ a b ha hE))
    · intro h
      induction h using ReflTransGen.head_induction_on with
      | refl => exact .refl
      | @head a b hab _ ih =>
        have hb := hg.succ a b hu hab
        exact .head ⟨(hg.exists_successors hu).mpr hab, if_pos hb, not_mem_nil⟩ (ih hb)
  have hiff : x ∈ un ↔ ∃ w ∈ queue, ReflTransGen E w x := by
    rw [hun, hreach, Search.reach_of_marked_starts]
    constructor
    · rintro (hxq | ⟨u, hu, h⟩)
      · exact ⟨x, hxq, .refl⟩
      · exact ⟨u, hu, (hpath u (mem_of_isIncomplete ((hq u).mp hu))).mp h⟩
    · rintro ⟨u, hu, h⟩
      exact .inr ⟨u, hu, (hpath u (mem_of_isIncomplete ((hq u).mp hu))).mpr h⟩
  rw [hiff]
  constructor
  · intro hno
    exact ⟨hx, fun w _ hinc hwx => hno ⟨w, (hq w).mpr hinc, hwx⟩⟩
  · rintro ⟨-, hst⟩ ⟨w, hw, hwx⟩
    exact hst w (mem_of_isIncomplete ((hq w).mp hw)) ((hq w).mp hw) hwx

/-! ## The order of the first pass -/

/-- The edges between two listed vertices. -/
def Inside (E : TxnId → TxnId → Prop) (out : List TxnId) (u v : TxnId) : Prop :=
  E u v ∧ u ∈ out ∧ v ∈ out

/-- **The first pass lists exactly the stable vertices**, each after all it is reached from,
up to cycles. -/
theorem findSCCOrder_spec (hg : g.Ok E) (horder : order.Perm g.keys) {un : List TxnId}
    (hun : ∀ x ∈ g, x ∉ un ↔ g.Stable E x) :
    ∃ out, g.findSCCOrder un order = some out ∧ out.Nodup ∧ (∀ x, x ∈ out ↔ g.Stable E x) ∧
      DepthFirst.IsPostorder (Inside E out) out := by
  have hmem : ∀ x, x ∈ order ↔ x ∈ g := fun x => by rw [horder.mem_iff, AList.mem_keys]
  have hok : ∀ x, decide (x ∈ g ∧ x ∉ un) = true ↔ g.Stable E x := by
    intro x
    rw [decide_eq_true_eq]
    exact ⟨fun h => (hun x h.1).mp h.2, fun h => ⟨h.1, (hun x h.1).mpr h⟩⟩
  have hadj : ∀ u ∈ order, ∃ vs, g.successors u = some vs ∧
      ∀ v ∈ vs, decide (v ∈ g ∧ v ∉ un) = true → v ∈ order := by
    intro u hu
    obtain ⟨vs, hvs, -⟩ := hg.successors ((hmem u).mp hu)
    exact ⟨vs, hvs, fun v _ hv => (hmem v).mpr ((hok v).mp hv).1⟩
  obtain ⟨vis, out, hd, hnd, hout, hpost⟩ :=
    DepthFirst.dfsAll_postorder order hadj (le_refl _)
  have hstable : ∀ x, x ∈ out ↔ g.Stable E x := by
    intro x
    rw [hout, hok, hmem]
    exact ⟨fun h => h.2, fun h => ⟨h.1, h⟩⟩
  have hedge : ∀ u ∈ out, ∀ v,
      DepthFirst.Edge g.successors (fun next => decide (next ∈ g ∧ next ∉ un)) u v ↔
        Inside E out u v := by
    intro u hu v
    rw [DepthFirst.Edge, hg.exists_successors ((hstable u).mp hu).1, hok, ← hstable, Inside]
    exact ⟨fun h => ⟨h.1, hu, h.2⟩, fun h => ⟨h.1, h.2.2⟩⟩
  refine ⟨out, by rw [findSCCOrder, hd]; rfl, hnd, hstable, ?_⟩
  intro a ha u hu hle v hav
  rcases hpost a ha u hu hle v ((hedge a ha v).mpr hav) with h | h
  · exact .inl h
  · refine .inr ?_
    have hv : v ∈ out := hav.2.2
    clear hav
    induction h using ReflTransGen.head_induction_on with
    | refl => exact .refl
    | @head b c hbc _ ih =>
      have hin := (hedge b hv c).mp hbc
      exact .head hin (ih hin.2.2)

/-- A stable vertex has the same component in the whole graph and among the stable vertices. -/
theorem connected_inside (hg : g.Ok E) {out : List TxnId} (hout : ∀ x, x ∈ out ↔ g.Stable E x)
    {r : TxnId} (hr : r ∈ out) : Connected (Inside E out) r x ↔ Connected E r x := by
  constructor
  · rintro ⟨h1, h2⟩
    exact ⟨ReflTransGen.mono (fun _ _ h => h.1) _ _ h1, ReflTransGen.mono (fun _ _ h => h.1) _ _ h2⟩
  · intro hc
    have hrs := (hout r).mp hr
    -- whatever lies on a cycle through `r` is in the graph and reaches `r`
    have hpath : ∀ {a b}, ReflTransGen E r a → ReflTransGen E a b → ReflTransGen E b r →
        ReflTransGen (Inside E out) a b := by
      intro a b hra hab hbr
      induction hab using ReflTransGen.head_induction_on with
      | refl => exact .refl
      | @head a c hac hcb ih =>
        have hmem : ∀ y, ReflTransGen E r y → ReflTransGen E y r → y ∈ out := fun y h1 h2 =>
          (hout y).mpr (hrs.pred (hg.reach hrs.1 h1) h2)
        have hcr := hcb.trans hbr
        exact .head ⟨hac, hmem a hra (.head hac hcr), hmem c (hra.tail hac) hcr⟩
          (ih (hra.tail hac))
    exact ⟨hpath .refl hc.1 hc.2, hpath hc.1 hc.2 .refl⟩

end Graph

/-! ## The components of the second pass -/

namespace DeadlockResolver

variable {g : Graph} {E : TxnId → TxnId → Prop} {out un : List TxnId}

/-- Resolve several deadlocks one after the other. -/
def resolveAll (r : DeadlockResolver) : List (List TxnId) → Option DeadlockResolver
  | [] => some r
  | scc :: sccs => (r.resolveDeadlock scc).bind fun r => r.resolveAll sccs

/-- Resolving a deadlock does not look at the graph. -/
theorem resolveDeadlock_setGraph (r : DeadlockResolver) (g : Graph) (scc : List TxnId) :
    { r with graph := g }.resolveDeadlock scc =
      (r.resolveDeadlock scc).map fun r' => { r' with graph := g } := by
  simp only [resolveDeadlock, Option.map_map]
  rfl

theorem resolveAll_setGraph (r : DeadlockResolver) (g : Graph) (sccs : List (List TxnId)) :
    { r with graph := g }.resolveAll sccs =
      (r.resolveAll sccs).map fun r' => { r' with graph := g } := by
  induction sccs generalizing r with
  | nil => rfl
  | cons scc sccs ih =>
    rw [resolveAll, resolveAll, resolveDeadlock_setGraph]
    cases r.resolveDeadlock scc with
    | none => rfl
    | some r₁ => exact ih r₁

variable {r : DeadlockResolver} {vs : List TxnId} {handed : List (List TxnId)}

theorem resolveDeadlock_graph {r' : DeadlockResolver} {scc : List TxnId}
    (h : r.resolveDeadlock scc = some r') : r'.graph = r.graph := by
  obtain ⟨us, -, rfl⟩ := map_eq_some_iff.mp h
  rfl

/-- The search from an unmarked vertex finds its component, and every node it meets is
stable. -/
theorem formStronglyConnectedComponent_spec (hg : g.Ok E) (hun : ∀ x ∈ g, x ∉ un ↔ g.Stable E x)
    (hnd : out.Nodup) (hout : ∀ x, x ∈ out ↔ g.Stable E x)
    (hpost : DepthFirst.IsPostorder (Graph.Inside E out) out) {done vis : List TxnId} {x : TxnId}
    (hsplit : out = done ++ x :: vs) {g' : Graph}
    (hg' : ∀ y, g'.lookup y = if y ∈ done then none else g.lookup y)
    (hvis : ∀ y, y ∈ vis ↔ ∃ d ∈ done, Connected (Graph.Inside E out) d y) (hx : x ∉ vis) :
    ∃ scc vis', g'.formStronglyConnectedComponent un vis x = some (scc, vis') ∧ scc.Nodup ∧
      (∀ y, y ∈ scc ↔ Connected (Graph.Inside E out) x y) ∧
      ∀ y, y ∈ vis' ↔ y ∈ vis ∨ Connected (Graph.Inside E out) x y := by
  have hmem : ∀ y, y ∈ g' ↔ y ∈ g ∧ y ∉ done := by
    intro y
    rw [mem_iff_lookup, hg', mem_iff_lookup]
    by_cases hy : y ∈ done <;> simp [hy]
  have hleft : ∀ y, y ∈ x :: vs ↔ y ∈ out ∧ y ∉ done := by
    intro y
    have hdis := disjoint_of_nodup_append (hsplit ▸ hnd)
    rw [hsplit, mem_append]
    exact ⟨fun h => ⟨.inr h, fun hd => hdis hd h⟩, fun h => h.1.resolve_left h.2⟩
  have hstable : ∀ y ∈ g', y ∉ un ↔ y ∈ x :: vs := by
    intro y hy
    rw [hun y ((hmem y).mp hy).1, hleft, hout]
    exact ⟨fun h => ⟨h, ((hmem y).mp hy).2⟩, fun h => h.1⟩
  have hsub : ∀ y ∈ x :: vs, y ∈ g' := by
    intro y hy
    obtain ⟨hyo, hyd⟩ := (hleft y).mp hy
    exact (hmem y).mpr ⟨((hout y).mp hyo).1, hyd⟩
  have hadj : ∀ u ∈ x :: vs, ∃ ws, g'.predecessors u = some ws ∧
      (∀ v ∈ x :: vs, v ∈ ws ↔ Graph.Inside E out v u) ∧
      ∀ v ∈ ws, (if v ∈ g' then (if v ∈ un then none else some true) else some false) =
        some (decide (v ∈ x :: vs)) := by
    intro u hu
    obtain ⟨hug, hud⟩ := (hmem u).mp (hsub u hu)
    obtain ⟨n, hn⟩ := mem_iff_lookup.mp hug
    refine ⟨n.incoming, by rw [Graph.predecessors, hg', if_neg hud, hn]; rfl, fun v hv => ?_,
      fun v hv => ?_⟩
    · rw [hg.inc u n hn]
      exact ⟨fun h => ⟨h, ((hleft v).mp hv).1, ((hleft u).mp hu).1⟩, fun h => h.1⟩
    · by_cases hvg : v ∈ g'
      · have hvu : E v u := (hg.inc u n hn v).mp hv
        have hvs : g.Stable E v :=
          ((hout u).mp ((hleft u).mp hu).1).pred ((hmem v).mp hvg).1 (.single hvu)
        have hvun : v ∉ un := (hun v hvs.1).mpr hvs
        rw [if_pos hvg, if_neg hvun, decide_eq_true ((hstable v hvg).mp hvun)]
      · rw [if_neg hvg, decide_eq_false fun h => hvg (hsub v h)]
  have hfuel : (x :: vs).length ≤ g'.keys.length := by
    have hnd' : (x :: vs).Nodup := (nodup_append.mp (hsplit ▸ hnd)).2.1
    exact (hnd'.subperm fun y hy => AList.mem_keys.mp (hsub y hy)).length_le
  exact Kosaraju.search_component (hsplit ▸ hnd) (hsplit ▸ hpost)
    (fun u v h => hsplit ▸ h.2) hadj hvis hx hfuel

/-- The components that the loop of `CheckAndResolveDeadlocks` forms, with those of one vertex. -/
def formComponents (unstable : List TxnId) :
    List TxnId → List TxnId → Graph → Option (List (List TxnId))
  | [], _, _ => some []
  | vertex :: vs, visited, graph =>
    if vertex ∉ graph then none
    else if vertex ∈ visited then formComponents unstable vs visited (graph.erase vertex)
    else (graph.formStronglyConnectedComponent unstable visited vertex).bind fun (scc, visited) =>
      (formComponents unstable vs visited (graph.erase vertex)).map fun sccs => scc :: sccs

/-- **The second pass.**  The components are those of the listed vertices without a mark. -/
theorem formComponents_spec (hg : g.Ok E) (hun : ∀ x ∈ g, x ∉ un ↔ g.Stable E x) (hnd : out.Nodup)
    (hout : ∀ x, x ∈ out ↔ g.Stable E x) (hpost : DepthFirst.IsPostorder (Graph.Inside E out) out)
    {done vis : List TxnId} {g' : Graph} (hsplit : out = done ++ vs)
    (hg' : ∀ y, g'.lookup y = if y ∈ done then none else g.lookup y)
    (hvis : ∀ y, y ∈ vis ↔ ∃ d ∈ done, Connected (Graph.Inside E out) d y) :
    ∃ sccs, formComponents un vs vis g' = some sccs ∧
      (∀ c ∈ sccs, c.Nodup ∧ ∃ d ∈ vs, d ∉ vis ∧ ∀ y, y ∈ c ↔ Connected (Graph.Inside E out) d y) ∧
      sccs.Pairwise Disjoint ∧ ∀ d ∈ vs, d ∉ vis → ∃ c ∈ sccs, d ∈ c := by
  induction vs generalizing done vis g' with
  | nil => exact ⟨[], rfl, by simp, Pairwise.nil, by simp⟩
  | cons x vs ih =>
    have hsplit' : out = (done ++ [x]) ++ vs := by rw [hsplit, append_assoc]; rfl
    have hxo : x ∈ out := hsplit ▸ mem_append_right _ mem_cons_self
    have hxg : x ∈ g' := by
      have hxd : x ∉ done := fun h =>
        disjoint_of_nodup_append (hsplit ▸ hnd) h mem_cons_self
      rw [mem_iff_lookup, hg', if_neg hxd, ← mem_iff_lookup]
      exact ((hout x).mp hxo).1
    have herase : ∀ y, (g'.erase x).lookup y =
        if y ∈ done ++ [x] then none else g.lookup y := by
      intro y
      rw [lookup_erase', hg']
      by_cases hyx : y = x <;> by_cases hy : y ∈ done <;> simp [hyx, hy]
    have hdone : ∀ y, (∃ d ∈ done ++ [x], Connected (Graph.Inside E out) d y) ↔
        y ∈ vis ∨ Connected (Graph.Inside E out) x y := by
      intro y
      rw [hvis]
      simp [or_and_right, exists_or]
    by_cases hxv : x ∈ vis
    · -- the component of `x` has been met before
      have hvis' : ∀ y, y ∈ vis ↔ ∃ d ∈ done ++ [x], Connected (Graph.Inside E out) d y := by
        intro y
        rw [hdone, iff_self_or]
        intro h
        obtain ⟨d, hd, hdx⟩ := (hvis x).mp hxv
        exact (hvis y).mpr ⟨d, hd, hdx.trans h⟩
      obtain ⟨sccs, hsccs, h1, h2, h3⟩ := ih hsplit' herase hvis'
      refine ⟨sccs, ?_, fun c hc => ?_, h2, fun d hd hdv => ?_⟩
      · rw [formComponents, if_neg (not_not.mpr hxg), if_pos hxv, hsccs]
      · obtain ⟨hcnd, d, hd, hc⟩ := h1 c hc
        exact ⟨hcnd, d, mem_cons_of_mem _ hd, hc⟩
      · rcases mem_cons.mp hd with rfl | hd
        · exact absurd hxv hdv
        · exact h3 d hd hdv
    · obtain ⟨scc, vis', hform, hsnd, hscc, hvis'⟩ :=
        formStronglyConnectedComponent_spec hg hun hnd hout hpost hsplit hg' hvis hxv
      have hnot : ∀ d, d ∉ vis' ↔ d ∉ vis ∧ d ∉ scc := fun d => by
        rw [hvis', ← hscc, not_or]
      obtain ⟨sccs, hsccs, h1, h2, h3⟩ := ih hsplit' herase fun y => (hvis' y).trans (hdone y).symm
      refine ⟨scc :: sccs, ?_, ?_, Pairwise.cons (fun c hc y hy hyc => ?_) h2, fun d hd hdv => ?_⟩
      · rw [formComponents, if_neg (not_not.mpr hxg), if_neg hxv, hform, bind_some]
        exact congrArg (Option.map _) hsccs
      · refine forall_mem_cons.mpr ⟨⟨hsnd, x, mem_cons_self, hxv, hscc⟩, fun c hc => ?_⟩
        obtain ⟨hcnd, d, hd, hdv, hc⟩ := h1 c hc
        exact ⟨hcnd, d, mem_cons_of_mem _ hd, ((hnot d).mp hdv).1, hc⟩
      · obtain ⟨-, d, -, hdv, hc⟩ := h1 c hc
        exact ((hnot d).mp hdv).2 ((hscc d).mpr (((hscc y).mp hy).trans ((hc y).mp hyc).symm))
      · by_cases hds : d ∈ scc
        · exact ⟨scc, mem_cons_self, hds⟩
        · rcases mem_cons.mp hd with rfl | hd
          · exact absurd ((hscc d).mpr (Connected.refl d)) hds
          · obtain ⟨c, hc, hdc⟩ := h3 d hd ((hnot d).mpr ⟨hdv, hds⟩)
            exact ⟨c, mem_cons_of_mem _ hc, hdc⟩

/-- The loop hands on the components of more than one vertex, and erases the listed vertices. -/
theorem checkComponents_of_formComponents {vis : List TxnId} {sccs : List (List TxnId)}
    {r r' : DeadlockResolver} (hform : formComponents un vs vis r.graph = some sccs)
    (hr' : r.resolveAll (sccs.filter (1 < ·.length)) = some r') :
    checkComponents un vs vis r = some ({ r' with graph := vs.foldl (fun g x => g.erase x) r.graph },
      sccs.filter (1 < ·.length)) := by
  induction vs generalizing vis sccs r r' with
  | nil =>
    cases hform
    cases hr'
    rfl
  | cons x vs ih =>
    -- going on with the rest, whatever has been resolved before
    have hgo : ∀ {vis' : List TxnId} {sccs : List (List TxnId)} {r r' : DeadlockResolver},
        formComponents un vs vis' (r.graph.erase x) = some sccs →
        r.resolveAll (sccs.filter (1 < ·.length)) = some r' →
        checkComponents un vs vis' { r with graph := r.graph.erase x } = some
          ({ r' with graph := (x :: vs).foldl (fun g x => g.erase x) r.graph },
            sccs.filter (1 < ·.length)) := by
      intro vis' sccs r r' hform hr'
      exact @ih vis' sccs { r with graph := r.graph.erase x } { r' with graph := r.graph.erase x } hform
        (by rw [resolveAll_setGraph, hr']; rfl)
    rw [formComponents] at hform
    rw [checkComponents]
    split_ifs at hform ⊢ with hx hxv
    · exact hgo hform hr'
    · obtain ⟨⟨scc, vis'⟩, hscc, hform⟩ := bind_eq_some_iff.mp hform
      obtain ⟨rest, hrest, rfl⟩ := map_eq_some_iff.mp hform
      rw [hscc, bind_some]
      by_cases hlen : 1 < scc.length
      · simp only [filter_cons, hlen, decide_true, if_true] at hr' ⊢
        obtain ⟨r₁, hr₁, hr'⟩ := bind_eq_some_iff.mp hr'
        rw [hr₁, bind_some]
        rw [← resolveDeadlock_graph hr₁] at hrest ⊢
        rw [hgo hrest hr']
        rfl
      · simp only [filter_cons, hlen, decide_false, Bool.false_eq_true, if_false] at hr' ⊢
        exact hgo hrest hr'

theorem exists_formComponents (hg : g.Ok E) {order : List TxnId} (horder : order.Perm g.keys) :
    ∃ un out sccs, (g.unstable order = some un ∧ ∀ x ∈ g, x ∉ un ↔ g.Stable E x) ∧
      (g.findSCCOrder un order = some out ∧ out.Nodup ∧ ∀ x, x ∈ out ↔ g.Stable E x) ∧
      formComponents un out [] g = some sccs ∧
      (∀ c ∈ sccs, c.Nodup ∧ ∃ d ∈ out, ∀ y, y ∈ c ↔ Connected (Graph.Inside E out) d y) ∧
      sccs.Pairwise Disjoint ∧ ∀ d ∈ out, ∃ c ∈ sccs, d ∈ c := by
  obtain ⟨un, hun, hstable⟩ := Graph.unstable_spec hg horder
  obtain ⟨out, hfind, hnd, hout, hpost⟩ := Graph.findSCCOrder_spec hg horder hstable
  obtain ⟨sccs, hsccs, h1, h2, h3⟩ := formComponents_spec hg hstable hnd hout hpost
    (nil_append out).symm (fun y => (if_neg not_mem_nil).symm)
    (fun y => iff_of_false not_mem_nil (by simp))
  refine ⟨un, out, sccs, ⟨hun, hstable⟩, ⟨hfind, hnd, hout⟩, hsccs, fun c hc => ?_, h2,
    fun d hd => h3 d hd not_mem_nil⟩
  obtain ⟨hcnd, d, hd, -, hc⟩ := h1 c hc
  exact ⟨hcnd, d, hd, hc⟩

/-- **The search finds the stable nodes and their components.**  The nodes without the mark are those
that are complete and not reached from an incomplete one.  Each of them is in one component, and the
components are the strongly connected components among them. -/
theorem formComponents_findSCCOrder (hg : g.Ok E) {order : List TxnId} (horder : order.Perm g.keys) :
    ∃ un out sccs, g.unstable order = some un ∧ g.findSCCOrder un order = some out ∧
      formComponents un out [] g = some sccs ∧ (∀ x ∈ g, x ∉ un ↔ g.Stable E x) ∧
      sccs.flatten.Nodup ∧ (∀ x, x ∈ sccs.flatten ↔ g.Stable E x) ∧
      ∀ c ∈ sccs, c ≠ [] ∧ ∀ x ∈ c, ∀ y, y ∈ c ↔
        Connected (fun u v => E u v ∧ g.Stable E u ∧ g.Stable E v) x y := by
  obtain ⟨un, out, sccs, ⟨hun, hstable⟩, ⟨hfind, -, hout⟩, hsccs, hcomp, hdis, hall⟩ :=
    exists_formComponents hg horder
  have hinside : Graph.Inside E out = fun u v => E u v ∧ g.Stable E u ∧ g.Stable E v := by
    funext u v
    rw [Graph.Inside, hout, hout]
  refine ⟨un, out, sccs, hun, hfind, hsccs, hstable,
    nodup_flatten.mpr ⟨fun c hc => (hcomp c hc).1, hdis⟩, fun x => ?_, fun c hc => ?_⟩
  · rw [mem_flatten, ← hout]
    constructor
    · rintro ⟨c, hc, hx⟩
      obtain ⟨-, d, hd, hc⟩ := hcomp c hc
      rcases ReflTransGen.cases_tail ((hc x).mp hx).1 with heq | ⟨w, -, hw⟩
      · exact heq ▸ hd
      · exact hw.2.2
    · exact hall x
  · obtain ⟨-, d, -, hc⟩ := hcomp c hc
    refine ⟨ne_nil_of_mem ((hc d).mpr (Connected.refl d)), fun x hx y => ?_⟩
    rw [hc, ← hinside]
    exact ⟨fun h => ((hc x).mp hx).symm.trans h, fun h => ((hc x).mp hx).trans h⟩

/-- The nodes 1 and 2 wait for each other, and 3 is incomplete. -/
def cycleAndTail : Graph :=
  ⟨[⟨1, ⟨1, 1, [2], [2]⟩⟩, ⟨2, ⟨1, 1, [1, 3], [1]⟩⟩, ⟨3, ⟨2, 1, [], [2]⟩⟩], by simp [NodupKeys]⟩

theorem formComponents_cycleAndTail : ∃ un out sccs,
    cycleAndTail.unstable [1, 2, 3] = some un ∧ cycleAndTail.findSCCOrder un [1, 2, 3] = some out ∧
      formComponents un out [] cycleAndTail = some sccs ∧ sccs.flatten.Nodup := by
  have hok : cycleAndTail.Ok fun u v => (u, v) ∈ [(1, 2), (2, 1), (2, 3)] := by
    refine ⟨fun u n h v => ?_, fun v n h u => ?_, fun u v _ h => ?_⟩
    · have hmem := AList.mem_lookup_iff.mp h
      simp [cycleAndTail] at hmem
      rcases hmem with ⟨rfl, rfl⟩ | ⟨rfl, rfl⟩ | ⟨rfl, rfl⟩ <;> simp
    · have hmem := AList.mem_lookup_iff.mp h
      simp [cycleAndTail] at hmem
      rcases hmem with ⟨rfl, rfl⟩ | ⟨rfl, rfl⟩ | ⟨rfl, rfl⟩ <;> simp
    · have hall : ∀ e ∈ [(1, 2), (2, 1), (2, 3)], e.2 ∈ cycleAndTail := by decide
      exact hall (u, v) h
  obtain ⟨un, out, sccs, hun, hout, hsccs, -, hnodup, -⟩ :=
    formComponents_findSCCOrder hok (by decide : [1, 2, 3].Perm cycleAndTail.keys)
  exact ⟨un, out, sccs, hun, hout, hsccs, hnodup⟩

/-- What a run finds: the stable vertices, and their components of more than one vertex. -/
structure Found (g : Graph) (E : TxnId → TxnId → Prop) (out : List TxnId)
    (handed : List (List TxnId)) : Prop where
  nodup : out.Nodup
  stable : ∀ x, x ∈ out ↔ g.Stable E x
  comp : ∀ c ∈ handed, 1 < c.length ∧ c.Nodup ∧ ∃ d ∈ out, ∀ y, y ∈ c ↔ Connected E d y
  disjoint : handed.Pairwise Disjoint
  all : ∀ d ∈ out, ∀ y, y ≠ d → Connected E d y → ∃ c ∈ handed, d ∈ c

/-- The members of a component found are listed. -/
theorem Found.mem_out (h : Found g E out handed) (hg : g.Ok E) {c : List TxnId} (hc : c ∈ handed)
    {y : TxnId} (hy : y ∈ c) : y ∈ out := by
  obtain ⟨-, -, d, hd, hcd⟩ := h.comp c hc
  obtain ⟨hdy, hyd⟩ := (hcd y).mp hy
  have hds := (h.stable d).mp hd
  exact (h.stable y).mpr (hds.pred (hg.reach hds.1 hdy) hyd)

/-- Once the stable vertices are gone, no other vertex is stable: those that keep it from being
stable are still there. -/
theorem Found.not_stable (h : Found g E out handed) (x : TxnId) :
    ¬ Graph.Stable (out.foldl (fun g x => g.erase x) g) E x := by
  have hl : ∀ y, y ∉ out →
      (out.foldl (fun g x => g.erase x) g).lookup y = g.lookup y := fun y hy => by
    rw [lookup_foldl_erase, if_neg hy]
  have hmem : ∀ y, y ∈ out.foldl (fun g x => g.erase x) g ↔ y ∈ g ∧ y ∉ out := by
    intro y
    rw [mem_iff_lookup, lookup_foldl_erase, mem_iff_lookup]
    by_cases hy : y ∈ out <;> simp [hy]
  rintro ⟨hx, hst⟩
  obtain ⟨hxg, hxo⟩ := (hmem x).mp hx
  refine hxo ((h.stable x).mpr ⟨hxg, fun w hw hinc hwx => ?_⟩)
  have hwo : w ∉ out := fun hwo => ((h.stable w).mp hwo).2 w hw hinc .refl
  refine hst w ((hmem w).mpr ⟨hw, hwo⟩) ?_ hwx
  unfold Graph.isIncomplete at hinc ⊢
  rwa [hl w hwo]

/-- **A run of the resolver** on a well-formed graph: all its own checks hold, and it succeeds
if the deadlocks it finds can be resolved. -/
theorem findDeadlocks_spec (hg : r.graph.Ok E) {order : List TxnId} (horder : order.Perm r.graph.keys) :
    ∃ out handed, Found r.graph E out handed ∧
      ∀ r', { r with dfsOrder := out, toBeUpdated := [] }.resolveAll handed = some r' →
        r.findDeadlocks order =
          some ({ r' with graph := out.foldl (fun g x => g.erase x) r.graph }, handed) := by
  obtain ⟨un, out, sccs, ⟨hun, -⟩, ⟨hfind, hnd, hout⟩, hsccs, h1, h2, h3⟩ :=
    exists_formComponents hg horder
  have hcomp : ∀ c ∈ sccs, c.Nodup ∧ ∃ d ∈ out, ∀ y, y ∈ c ↔ Connected E d y := by
    intro c hc
    obtain ⟨hcnd, d, hd, hc⟩ := h1 c hc
    exact ⟨hcnd, d, hd, fun y => (hc y).trans (Graph.connected_inside hg hout hd)⟩
  refine ⟨out, sccs.filter (1 < ·.length), ⟨hnd, hout, fun c hc => ?_, h2.filter _,
    fun d hd y hyd hdy => ?_⟩, fun r' hr' => ?_⟩
  · obtain ⟨hc, hlen⟩ := mem_filter.mp hc
    exact ⟨of_decide_eq_true hlen, hcomp c hc⟩
  · obtain ⟨c, hc, hdc⟩ := h3 d hd
    obtain ⟨hcnd, e, -, hce⟩ := hcomp c hc
    have hyc : y ∈ c := (hce y).mpr (((hce d).mp hdc).trans hdy)
    have hpair : [y, d].Nodup := by simpa using hyd
    have hsub : [y, d] ⊆ c := by simp [hyc, hdc]
    exact ⟨c, mem_filter.mpr ⟨hc, decide_eq_true (hpair.subperm hsub).length_le⟩, hdc⟩
  · rw [findDeadlocks, hun, bind_some, hfind, bind_some]
    exact checkComponents_of_formComponents hsccs hr'

end DeadlockResolver

end Slog
