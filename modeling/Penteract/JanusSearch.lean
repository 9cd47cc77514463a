/-
# What a round of the search finds

The search visits every transaction that is reachable through dependencies among the active
vertices: those in the graph that are neither in a component yet nor executed.  It closes
components only when everything that they depend on is closed and nothing is missing.  A component
that it closes is a strongly connected component, unless the search has met a vertex that kept its
mark of being on the stack after its component was closed.
-/
import Penteract.Lib.Tarjan
import Penteract.JanusTarjan

namespace Janus

open List Option Function AssocMap Slog Relation

/-- What the search does not change. -/
def Vertex.skeleton (x : Vertex) : TxnId × Bool × List JanusDependency × ℤ :=
  (x.txnId, x.isLocal, x.deps, x.missingDeps)

namespace Graph

def disc (g : Graph) (x : TxnId) : ℕ := ((g.lookup x).map Vertex.disc).getD 0

def low (g : Graph) (x : TxnId) : ℕ := ((g.lookup x).map Vertex.low).getD 0

def onStack (g : Graph) (x : TxnId) : Bool := ((g.lookup x).map Vertex.onStack).getD false

def deps (g : Graph) (x : TxnId) : List JanusDependency := ((g.lookup x).map Vertex.deps).getD []

/-- A transaction as it stands in a component. -/
def member (g : Graph) (x : TxnId) : TxnId × Bool :=
  (x, ((g.lookup x).map Vertex.isLocal).getD false)

/-- Every vertex is filed under its id. -/
def WellKeyed (g : Graph) : Prop := ∀ x vertex, g.lookup x = some vertex → vertex.txnId = x

variable (executed : TxnId → Bool) (g : Graph)

/-- The vertices among which the search looks for components. -/
def active (x : TxnId) : Bool := (g.lookup x).any (·.disc = 0) && !executed x

/-- A dependency of an active vertex on another one. -/
def Edge (x y : TxnId) : Prop :=
  g.active executed x ∧ g.active executed y ∧ y ≠ x ∧ ∃ dep ∈ g.deps x, dep.txnId = y

/-- A dependency of an active vertex on a transaction that is not in the graph. -/
def Missing (x : TxnId) (dep : JanusDependency) : Prop :=
  g.active executed x ∧ dep ∈ g.deps x ∧ dep.txnId ≠ x ∧ executed dep.txnId = false ∧
    g.lookup dep.txnId = none

end Graph

namespace TarjanSCCsFinder

variable {executed : TxnId → Bool} {g : Graph}

/-- The numbers of the round: those of the vertices that were active at its start. -/
def num (executed : TxnId → Bool) (g : Graph) (s : TarjanSCCsFinder) (x : TxnId) : ℕ :=
  if g.active executed x then s.graph.disc x else 0

/-- The transactions of the components that were closed in the round. -/
def txnIds (sccs : List SCC) : List TxnId := sccs.flatten.map Prod.fst

/-- The components found so far.  Each one comes after all those that it depends on; it is one
strongly connected component, unless the search was misled. -/
def Components (executed : TxnId → Bool) (g : Graph) (stale : Bool) (sccs : List SCC) : Prop :=
  ∀ before scc after, sccs = before ++ scc :: after →
    (∀ x ∈ scc.map Prod.fst, g.active executed x) ∧
    (∀ x ∈ scc.map Prod.fst, ∀ y, g.Edge executed x y → y ∈ txnIds (before ++ [scc])) ∧
    (∀ x ∈ scc.map Prod.fst, ∀ dep, ¬ g.Missing executed x dep) ∧
    (∀ m ∈ scc, m = g.member m.1) ∧
    scc.Pairwise (·.1 < ·.1) ∧
    (stale = false → ∃ v, ∀ z, Components.Connected (g.Edge executed) v z ↔
      z ∈ scc.map Prod.fst)

/-- What holds in every snapshot of a round that started with the graph `g`. -/
structure Good (executed : TxnId → Bool) (g : Graph) (s : TarjanSCCsFinder) (gray : List TxnId) :
    Prop where
  frame : ∀ x, (s.graph.lookup x).map Vertex.skeleton = (g.lookup x).map Vertex.skeleton
  idle : ∀ x, g.active executed x = false → s.graph.lookup x = g.lookup x
  tarjan : Tarjan.Inv (g.Edge executed) (num executed g s) s.stack gray (· ∈ txnIds s.sccs)
  up : s.missingDeps = [] → s.stale = false →
    Tarjan.Up (g.Edge executed) (num executed g s) s.stack gray
  onStack : ∀ x ∈ s.stack, s.graph.onStack x = true
  counter : ∀ x, num executed g s x ≤ s.idCounter
  missing : ∀ x, num executed g s x ≠ 0 → x ∉ gray → ∀ dep, g.Missing executed x dep →
    dep.txnId ∈ s.missingDeps.map (·.txnId)
  missed : ∀ dep ∈ s.missingDeps, ∃ x, num executed g s x ≠ 0 ∧ g.Missing executed x dep
  missingNodup : (s.missingDeps.map (·.txnId)).Nodup
  late : s.missingDeps ≠ [] → s.sccs.length = s.closedBefore
  nodup : (txnIds s.sccs).Nodup
  components : Components executed g s.stale s.sccs

variable {x y v u : TxnId} {vertex : Vertex} {stale : Bool} {dep : JanusDependency} {ids : List TxnId}
  {s₀ s s' : TarjanSCCsFinder} {gray : List TxnId} {seen : List JanusDependency}

theorem active_of_num_ne_zero (h : num executed g s x ≠ 0) :
    g.active executed x = true := by
  by_contra hx
  rw [num, if_neg hx] at h
  exact h rfl

theorem num_of_active (h : g.active executed x = true) :
    num executed g s x = s.graph.disc x := if_pos h

theorem Good.active_of_mem (h : Good executed g s gray) (hx : x ∈ s.stack) : g.active executed x = true :=
  active_of_num_ne_zero ((h.tarjan.met x).mpr (.inl hx))

/-- A vertex of the graph is in it throughout the round, with its dependencies. -/
theorem Good.lookup (h : Good executed g s gray) (hx : g.lookup x = some vertex) :
    ∃ vertex', s.graph.lookup x = some vertex' ∧ vertex'.skeleton = vertex.skeleton := by
  have hframe := h.frame x
  rw [hx] at hframe
  exact map_eq_some_iff.mp hframe

theorem Good.lookup_eq_none (h : Good executed g s gray) :
    s.graph.lookup x = none ↔ g.lookup x = none := by
  rw [← map_eq_none_iff (f := Vertex.skeleton), h.frame x, map_eq_none_iff]

theorem exists_of_active (h : g.active executed x = true) :
    ∃ vertex, g.lookup x = some vertex ∧ vertex.disc = 0 ∧ executed x = false := by
  rw [Graph.active, Bool.and_eq_true, Bool.not_eq_true'] at h
  obtain ⟨vertex, hx, hdisc⟩ := (Option.any_eq_true ..).mp h.1
  exact ⟨vertex, hx, of_decide_eq_true hdisc, h.2⟩

theorem not_executed_of_active (h : g.active executed x = true) : executed x = false :=
  (exists_of_active h).choose_spec.2.2

theorem num_congr (h : ∀ x, s'.graph.disc x = s.graph.disc x) :
    num executed g s' = num executed g s := by
  funext x
  rw [num, num, h x]

theorem Good.exists_lookup (h : Good executed g s gray) (hv : g.active executed v = true) :
    ∃ vertex, s.graph.lookup v = some vertex := by
  obtain ⟨vertex, hlookup, -, -⟩ := exists_of_active hv
  obtain ⟨vertex', hlookup', -⟩ := h.lookup hlookup
  exact ⟨vertex', hlookup'⟩

/-- A change of a vertex that is not seen. -/
theorem map_map_ite {α : Type} {p : Prop} [Decidable p] {change : Vertex → Vertex} {f : Vertex → α}
    (hf : ∀ vertex, f (change vertex) = f vertex) (o : Option Vertex) :
    (o.map fun vertex => if p then change vertex else vertex).map f = o.map f := by
  rw [Option.map_map]
  congr 1
  funext vertex
  rw [Function.comp_apply]
  split_ifs
  · exact hf vertex
  · rfl

/-! ## Entering a vertex -/

theorem Good.num_enter (h : Good executed g s gray) (hv : g.active executed v = true) :
    num executed g (s.enter v) =
      Function.update (num executed g s) v (s.idCounter + 1) := by
  obtain ⟨vertex, hlookup⟩ := h.exists_lookup hv
  funext x
  rcases eq_or_ne x v with rfl | hx
  · rw [update_self, num_of_active hv, Graph.disc, enter, lookup_modify, if_pos rfl, hlookup]
    rfl
  · rw [update_of_ne hx, num, num, Graph.disc, enter, lookup_modify, if_neg hx]
    rfl

theorem Good.enter (h : Good executed g s gray) (hv : g.active executed v = true)
    (hnum : num executed g s v = 0) (hgray : ∀ x ∈ gray, ReflTransGen (g.Edge executed) x v) :
    Good executed g (s.enter v) (v :: gray) := by
  have hne {x : TxnId} (hx : num executed g s x ≠ 0) : x ≠ v := by
    rintro rfl
    exact hx hnum
  have hold {x : TxnId} (hx : num executed g s x ≠ 0) :
      num executed g (s.enter v) x = num executed g s x := by
    rw [h.num_enter hv, update_of_ne (hne hx)]
  refine ⟨fun x => ?_, fun x hx => ?_, ?_, fun hmissing hstale => ?_, fun x hx => ?_, fun x => ?_,
    fun x hx hxg => ?_, fun dep hdep => ?_, h.missingNodup, h.late, h.nodup, h.components⟩
  · rw [← h.frame x, TarjanSCCsFinder.enter, AssocMap.lookup_modify_map, map_map_ite]
    exact fun _ => rfl
  · have hxv : x ≠ v := by
      rintro rfl
      exact absurd hv (by simp [hx])
    rw [← h.idle x hx, TarjanSCCsFinder.enter, lookup_modify, if_neg hxv]
  · rw [h.num_enter hv]
    exact h.tarjan.push hnum (fun x => Nat.lt_succ_of_le (h.counter x)) hgray
  · rw [h.num_enter hv]
    exact (h.up hmissing hstale).push h.tarjan hnum _
  · obtain ⟨vertex, hlookup⟩ := h.exists_lookup hv
    rw [Graph.onStack, TarjanSCCsFinder.enter, lookup_modify]
    rcases mem_cons.mp hx with rfl | hx
    · rw [if_pos rfl, hlookup]
      rfl
    · rw [if_neg (hne ((h.tarjan.met x).mpr (.inl hx)))]
      exact h.onStack x hx
  · rw [h.num_enter hv]
    rcases eq_or_ne x v with rfl | hx
    · rw [update_self]
      exact le_rfl
    · rw [update_of_ne hx]
      exact (h.counter x).trans (Nat.le_succ _)
  · obtain ⟨hxv, hxg⟩ := not_or.mp (mt mem_cons.mpr hxg)
    rw [h.num_enter hv, update_of_ne hxv] at hx
    exact h.missing x hx hxg
  · obtain ⟨x, hx, hmissing⟩ := h.missed dep hdep
    exact ⟨x, by rwa [hold hx], hmissing⟩

/-! ## The changes of the loop over the dependencies -/

theorem Components.mono {stale' : Bool} {sccs : List SCC} (h : Components executed g stale sccs)
    (hstale : stale' = false → stale = false) : Components executed g stale' sccs := by
  intro before scc after heq
  obtain ⟨hactive, hedge, hmissing, hmember, hsorted, hconn⟩ := h before scc after heq
  exact ⟨hactive, hedge, hmissing, hmember, hsorted, fun hs => hconn (hstale hs)⟩

theorem lookup_lowerTo (s : TarjanSCCsFinder) (v : TxnId) (n : ℕ) (x : TxnId) :
    (s.lowerTo v n).graph.lookup x = (s.graph.lookup x).map fun vertex =>
      if x = v then { vertex with low := min vertex.low n } else vertex :=
  AssocMap.lookup_modify_map ..

theorem num_lowerTo (s : TarjanSCCsFinder) (v : TxnId) (n : ℕ) :
    num executed g (s.lowerTo v n) = num executed g s := by
  refine num_congr fun x => ?_
  rw [Graph.disc, Graph.disc, lookup_lowerTo, map_map_ite]
  exact fun _ => rfl

theorem onStack_lowerTo (s : TarjanSCCsFinder) (v : TxnId) (n : ℕ) (x : TxnId) :
    (s.lowerTo v n).graph.onStack x = s.graph.onStack x := by
  rw [Graph.onStack, Graph.onStack, lookup_lowerTo, map_map_ite]
  exact fun _ => rfl

theorem low_lowerTo_of_ne (s : TarjanSCCsFinder) (n : ℕ) (hx : x ≠ v) :
    (s.lowerTo v n).graph.low x = s.graph.low x := by
  rw [Graph.low, Graph.low, lookup_lowerTo]
  simp only [if_neg hx, Option.map_id']

theorem low_lowerTo_self (s : TarjanSCCsFinder) (v : TxnId) (n : ℕ) :
    (s.lowerTo v n).graph.low v = min (s.graph.low v) n := by
  rw [Graph.low, Graph.low, lookup_lowerTo]
  cases s.graph.lookup v <;> simp

theorem Good.lowerTo (h : Good executed g s gray) (hv : g.active executed v = true) (n : ℕ)
    (hstale : stale = false → s.stale = false) :
    Good executed g { s.lowerTo v n with stale } gray := by
  have hnum : num executed g { s.lowerTo v n with stale } = num executed g s := num_lowerTo s v n
  refine ⟨fun x => ?_, fun x hx => ?_, ?_, fun hmissing hs => ?_, fun x hx => ?_, ?_, ?_, ?_,
    h.missingNodup, h.late, h.nodup, h.components.mono hstale⟩
  · rw [← h.frame x, lookup_lowerTo, map_map_ite]
    exact fun _ => rfl
  · have hxv : x ≠ v := by
      rintro rfl
      exact absurd hv (by simp [hx])
    rw [← h.idle x hx, lookup_lowerTo]
    simp only [if_neg hxv, Option.map_id']
  · rw [hnum]
    exact h.tarjan
  · rw [hnum]
    exact h.up hmissing (hstale hs)
  · exact (onStack_lowerTo s v n x).trans (h.onStack x hx)
  · rw [hnum]
    exact h.counter
  · rw [hnum]
    exact h.missing
  · rw [hnum]
    exact h.missed

theorem mem_addMissing (s : TarjanSCCsFinder) (dep : JanusDependency) :
    dep.txnId ∈ (s.addMissing dep).missingDeps.map (·.txnId) := by
  by_cases h : dep.txnId ∈ s.missingDeps.map (·.txnId)
  · rwa [addMissing, if_pos h]
  · rw [addMissing, if_neg h]
    simp

theorem missingDeps_addMissing (s : TarjanSCCsFinder) (dep : JanusDependency) :
    s.missingDeps <+: (s.addMissing dep).missingDeps := by
  by_cases h : dep.txnId ∈ s.missingDeps.map (·.txnId)
  · rw [addMissing, if_pos h]
  · rw [addMissing, if_neg h]
    exact prefix_append ..

theorem addMissing_ne_nil (s : TarjanSCCsFinder) (dep : JanusDependency) :
    (s.addMissing dep).missingDeps ≠ [] :=
  ne_nil_of_length_pos (by simpa using length_pos_of_mem (mem_addMissing s dep))

theorem Good.addMissing (h : Good executed g s gray) (hx : num executed g s x ≠ 0)
    (hdep : g.Missing executed x dep) : Good executed g (s.addMissing dep) gray := by
  by_cases hmem : dep.txnId ∈ s.missingDeps.map (·.txnId)
  · rwa [TarjanSCCsFinder.addMissing, if_pos hmem]
  · have hne := addMissing_ne_nil s dep
    rw [TarjanSCCsFinder.addMissing, if_neg hmem] at hne ⊢
    refine ⟨h.frame, h.idle, h.tarjan, fun hnil => absurd hnil hne, h.onStack, h.counter,
      fun y hy hyg dep' hdep' => ?_, fun dep' hdep' => ?_, ?_, fun _ => ?_, h.nodup,
      h.components⟩
    · rw [map_append]
      exact mem_append_left _ (h.missing y hy hyg dep' hdep')
    · rcases mem_append.mp hdep' with hold | hnew
      · exact h.missed dep' hold
      · obtain rfl := mem_singleton.mp hnew
        exact ⟨x, hx, hdep⟩
    · rw [map_append, map_singleton, ← concat_eq_append]
      exact h.missingNodup.concat hmem
    · show s.sccs.length = if s.missingDeps = [] then s.sccs.length else s.closedBefore
      split_ifs with hnil
      · rfl
      · exact h.late hnil

/-! ## The links of a vertex -/

/-- What a part of the search keeps from the snapshot `s₀`. -/
structure Progress (executed : TxnId → Bool) (g : Graph) (s₀ s : TarjanSCCsFinder) : Prop where
  stack : s₀.stack <:+ s.stack
  num : ∀ x, num executed g s₀ x ≠ 0 → num executed g s x = num executed g s₀ x
  low : ∀ x, TarjanSCCsFinder.num executed g s₀ x ≠ 0 → s.graph.low x = s₀.graph.low x
  missing : s₀.missingDeps ⊆ s.missingDeps
  stale : s.stale = false → s₀.stale = false

/-- What `v.low` says after the dependencies `seen`, when `s₀` is the snapshot before `v` was
entered. -/
structure Linked (executed : TxnId → Bool) (g : Graph) (s₀ : TarjanSCCsFinder) (v : TxnId)
    (seen : List JanusDependency) (s : TarjanSCCsFinder) : Prop where
  number : num executed g s v = s₀.idCounter + 1
  pos : 0 < s.graph.low v
  le : s.graph.low v ≤ num executed g s v
  reach : ∀ x, num executed g s x ≠ 0 → num executed g s₀ x = 0 →
    ReflTransGen (g.Edge executed) v x
  bound : ∀ x ∈ s.stack, x ∉ s₀.stack → ∀ y ∈ s₀.stack, g.Edge executed x y →
    (x = v → y ∈ seen.map (·.txnId)) → s.graph.low v ≤ num executed g s y
  attained : s.stale = false → s.graph.low v = num executed g s v ∨
    ∃ y ∈ s₀.stack, num executed g s y = s.graph.low v ∧ ReflTransGen (g.Edge executed) v y

/-- The invariant of the loop over the dependencies of `v`. -/
structure Loop (executed : TxnId → Bool) (g : Graph) (s₀ : TarjanSCCsFinder) (v : TxnId)
    (gray : List TxnId) (seen : List JanusDependency) (s : TarjanSCCsFinder) : Prop where
  fresh : num executed g s₀ v = 0
  good : Good executed g s (v :: gray)
  progress : Progress executed g s₀ s
  linked : Linked executed g s₀ v seen s
  stack : v :: s₀.stack <:+ s.stack
  next : ∀ dep ∈ seen, g.Edge executed v dep.txnId → num executed g s dep.txnId ≠ 0
  missing : ∀ dep ∈ seen, g.Missing executed v dep → dep.txnId ∈ s.missingDeps.map (·.txnId)

/-- What a call of `FindSCCs` for `v` leaves behind. -/
structure Post (executed : TxnId → Bool) (g : Graph) (s₀ : TarjanSCCsFinder) (v : TxnId)
    (gray : List TxnId) (s : TarjanSCCsFinder) : Prop where
  good : Good executed g s gray
  progress : Progress executed g s₀ s
  linked : Linked executed g s₀ v (g.deps v) s
  closes : s.missingDeps = [] → s.graph.low v = num executed g s v → s.stack = s₀.stack
  stays : s.missingDeps ≠ [] → v ∈ s.stack

theorem Loop.number_ne_zero (h : Loop executed g s₀ v gray seen s) : num executed g s v ≠ 0 := by
  rw [h.linked.number]
  exact Nat.succ_ne_zero _

theorem Loop.active (h : Loop executed g s₀ v gray seen s) : g.active executed v = true :=
  active_of_num_ne_zero h.number_ne_zero

theorem Loop.mem_stack (h : Loop executed g s₀ v gray seen s) (hy : y ∈ s₀.stack) :
    y ∈ s.stack := h.progress.stack.subset hy

/-- The part of the stack below `v` are the vertices with smaller numbers. -/
theorem Loop.mem_of_lt (h : Loop executed g s₀ v gray seen s) (hy : y ∈ s.stack)
    (hlt : num executed g s y < num executed g s v) : y ∈ s₀.stack := by
  obtain ⟨new, hnew⟩ := h.stack
  have hinv := h.good.tarjan
  rw [← hnew] at hinv hy
  rw [append_cons, mem_append] at hy
  exact hy.resolve_left fun htop => (hinv.mem_top.mp htop).2.not_gt hlt

theorem Good.loop_enter (h : Good executed g s₀ gray) (hv : g.active executed v = true)
    (hnum : num executed g s₀ v = 0)
    (hgray : ∀ x ∈ gray, ReflTransGen (g.Edge executed) x v) :
    Loop executed g s₀ v gray [] (s₀.enter v) := by
  have hself : num executed g (s₀.enter v) v = s₀.idCounter + 1 := by
    rw [h.num_enter hv, update_self]
  have hold {x : TxnId} (hx : x ≠ v) : num executed g (s₀.enter v) x = num executed g s₀ x := by
    rw [h.num_enter hv, update_of_ne hx]
  have hlow : (s₀.enter v).graph.low v = s₀.idCounter + 1 := by
    obtain ⟨vertex, hlookup⟩ := h.exists_lookup hv
    rw [Graph.low, TarjanSCCsFinder.enter, lookup_modify, if_pos rfl, hlookup]
    rfl
  have hne {x : TxnId} (hx : num executed g s₀ x ≠ 0) : x ≠ v := by
    rintro rfl
    exact hx hnum
  refine ⟨hnum, h.enter hv hnum hgray, ⟨suffix_cons .., fun x hx => hold (hne hx), fun x hx => ?_,
    Subset.refl _, id⟩, ⟨hself, ?_, ?_, fun x hx hx0 => ?_, fun x hx hxs y hy hxy hseen => ?_, fun _ => ?_⟩,
    suffix_refl _, by simp, by simp⟩
  · rw [Graph.low, TarjanSCCsFinder.enter, lookup_modify, if_neg (hne hx)]
    rfl
  · rw [hlow]
    exact Nat.succ_pos _
  · rw [hlow, hself]
  · rcases eq_or_ne x v with rfl | hxv
    · exact .refl
    · exact absurd (hold hxv ▸ hx0) hx
  · rcases mem_cons.mp hx with rfl | hx
    · exact absurd (hseen rfl) (by simp)
    · exact absurd hx hxs
  · exact .inl (hlow.trans hself.symm)

/-- One dependency more has been dealt with. -/
theorem Loop.concat (h : Loop executed g s₀ v gray seen s)
    (hnext : g.Edge executed v dep.txnId → num executed g s dep.txnId ≠ 0)
    (hlow : dep.txnId ∈ s₀.stack → s.graph.low v ≤ num executed g s dep.txnId)
    (hmissing : g.Missing executed v dep → dep.txnId ∈ s.missingDeps.map (·.txnId)) :
    Loop executed g s₀ v gray (seen ++ [dep]) s := by
  refine ⟨h.fresh, h.good, h.progress, { h.linked with bound := ?_ }, h.stack, fun d hd => ?_,
    fun d hd => ?_⟩
  · intro x hx hxs y hy hxy hseen
    by_cases hdep : y = dep.txnId
    · subst hdep
      exact hlow hy
    · refine h.linked.bound x hx hxs y hy hxy fun hxv => ?_
      simpa [hdep] using hseen hxv
  · rcases mem_append.mp hd with hd | hd
    · exact h.next d hd
    · obtain rfl := mem_singleton.mp hd
      exact hnext
  · rcases mem_append.mp hd with hd | hd
    · exact h.missing d hd
    · obtain rfl := mem_singleton.mp hd
      exact hmissing

theorem Loop.addMissing (h : Loop executed g s₀ v gray seen s) (hdep : g.Missing executed v dep) :
    Loop executed g s₀ v gray seen (s.addMissing dep) := by
  have hgood := h.good.addMissing h.number_ne_zero hdep
  have hmem := (missingDeps_addMissing s dep).subset
  by_cases hold : dep.txnId ∈ s.missingDeps.map (·.txnId)
  · rwa [TarjanSCCsFinder.addMissing, if_pos hold]
  · rw [TarjanSCCsFinder.addMissing, if_neg hold] at hgood hmem ⊢
    exact ⟨h.fresh, hgood, ⟨h.progress.stack, h.progress.num, h.progress.low,
      Subset.trans h.progress.missing hmem, h.progress.stale⟩, ⟨h.linked.number, h.linked.pos, h.linked.le, h.linked.reach,
      h.linked.bound, h.linked.attained⟩, h.stack, h.next,
      fun d hd hmissing => map_subset _ hmem (h.missing d hd hmissing)⟩

/-- A neighbour that has a number lowers `v.low` to it. -/
theorem Loop.lowerTo (h : Loop executed g s₀ v gray seen s) {n : ℕ} (hn : 0 < n) (stale : Bool)
    (hstale : stale = false → s.stale = false)
    (hlink : stale = false → n < s.graph.low v → ∃ y ∈ s.stack, num executed g s y = n ∧
      ReflTransGen (g.Edge executed) v y) :
    Loop executed g s₀ v gray seen { s.lowerTo v n with stale } := by
  have hnum : num executed g { s.lowerTo v n with stale } = num executed g s := num_lowerTo s v n
  have hlow : ({ s.lowerTo v n with stale } : TarjanSCCsFinder).graph.low v =
      min (s.graph.low v) n := low_lowerTo_self s v n
  have hle := h.linked.le
  have hpos := h.linked.pos
  refine ⟨h.fresh, h.good.lowerTo h.active n hstale, ⟨h.progress.stack, ?_, fun x hx => ?_,
    h.progress.missing, fun hs => h.progress.stale (hstale hs)⟩, ⟨?_, ?_, ?_, ?_, ?_, ?_⟩, h.stack,
    ?_, h.missing⟩
  · rw [hnum]
    exact h.progress.num
  · have hxv : x ≠ v := by
      rintro rfl
      exact hx h.fresh
    exact (low_lowerTo_of_ne s n hxv).trans (h.progress.low x hx)
  · rw [hnum]
    exact h.linked.number
  · rw [hlow]
    omega
  · rw [hlow, hnum]
    omega
  · rw [hnum]
    exact h.linked.reach
  · rw [hlow, hnum]
    exact fun x hx hxs y hy hxy hseen =>
      (min_le_left _ _).trans (h.linked.bound x hx hxs y hy hxy hseen)
  · rw [hlow, hnum]
    intro hs
    by_cases hlt : n < s.graph.low v
    · obtain ⟨y, hy, hyn, hreach⟩ := hlink hs hlt
      exact .inr ⟨y, h.mem_of_lt hy (by omega), by omega, hreach⟩
    · rw [min_eq_left (not_lt.mp hlt)]
      exact h.linked.attained (hstale hs)
  · rw [hnum]
    exact h.next

/-- The search has come back from the dependency `u`, and lowers `v.low` to `u.low`. -/
theorem Loop.child (h : Loop executed g s₀ v gray seen s) (hedge : g.Edge executed v u)
    (hpost : Post executed g s u (v :: gray) s') :
    Loop executed g s₀ v gray seen (s'.lowerTo v (s'.graph.low u)) := by
  have hnum : num executed g (s'.lowerTo v (s'.graph.low u)) = num executed g s' :=
    num_lowerTo ..
  have hkeep := hpost.progress.num
  have hvnum := hkeep v h.number_ne_zero
  have hvlow := hpost.progress.low v h.number_ne_zero
  have hlow := low_lowerTo_self s' v (s'.graph.low u)
  have hle := h.linked.le
  have hstack {y : TxnId} (hy : y ∈ s.stack) : num executed g s' y = num executed g s y :=
    hkeep y ((h.good.tarjan.met y).mpr (.inl hy))
  have hold {x : TxnId} (hx : num executed g s₀ x ≠ 0) :
      num executed g s x ≠ 0 := by
    rwa [h.progress.num x hx]
  refine ⟨h.fresh, hpost.good.lowerTo h.active _ id, ⟨?_, fun x hx => ?_, fun x hx => ?_,
    Subset.trans h.progress.missing hpost.progress.missing,
    fun hs => h.progress.stale (hpost.progress.stale hs)⟩, ⟨?_, ?_, ?_, ?_, ?_, ?_⟩,
    h.stack.trans hpost.progress.stack, fun dep hdep he => ?_, fun dep hdep hm => ?_⟩
  · exact h.progress.stack.trans hpost.progress.stack
  · rw [hnum, hkeep x (hold hx), h.progress.num x hx]
  · have hxv : x ≠ v := by
      rintro rfl
      exact hx h.fresh
    rw [low_lowerTo_of_ne _ _ hxv, hpost.progress.low x (hold hx), h.progress.low x hx]
  · rw [hnum, hvnum, h.linked.number]
  · rw [hlow, hvlow]
    exact lt_min h.linked.pos hpost.linked.pos
  · rw [hlow, hnum, hvlow, hvnum]
    exact (min_le_left _ _).trans hle
  · -- what was met during the call is reached through `u`
    rw [hnum]
    intro x hx hx0
    by_cases hxs : num executed g s x = 0
    · exact .head hedge (hpost.linked.reach x hx hxs)
    · exact h.linked.reach x hxs hx0
  · rw [hnum, hlow]
    intro x hx hxs y hy hxy hseen
    by_cases hxold : x ∈ s.stack
    · rw [hstack (h.mem_stack hy), hvlow]
      exact (min_le_left _ _).trans (h.linked.bound x hxold hxs y hy hxy hseen)
    · refine (min_le_right _ _).trans (hpost.linked.bound x hx hxold y (h.mem_stack hy) hxy ?_)
      rintro rfl
      obtain ⟨dep, hdep, rfl⟩ := hxy.2.2.2
      exact mem_map_of_mem hdep
  · rw [hnum, hlow, hvlow, hvnum]
    intro hs
    by_cases hlt : s'.graph.low u < s.graph.low v
    · right
      rw [min_eq_right hlt.le]
      have hunum := hpost.linked.number
      have hcounter := h.good.counter v
      rcases hpost.linked.attained hs with heq | ⟨y, hy, hyn, hreach⟩
      · omega
      · refine ⟨y, h.mem_of_lt hy ?_, hyn, .head hedge hreach⟩
        rw [← hstack hy]
        omega
    · rw [min_eq_left (not_lt.mp hlt)]
      rcases h.linked.attained (hpost.progress.stale hs) with heq | ⟨y, hy, hyn, hreach⟩
      · exact .inl heq
      · exact .inr ⟨y, hy, by rw [hstack (h.mem_stack hy), hyn], hreach⟩
  · rw [hnum, hkeep _ (h.next dep hdep he)]
    exact h.next dep hdep he
  · exact map_subset _ hpost.progress.missing (h.missing dep hdep hm)

/-- A vertex that the search finds without a number is active. -/
theorem Good.active_of_disc_eq_zero (h : Good executed g s gray)
    (hlookup : s.graph.lookup u = some vertex) (hdisc : vertex.disc = 0) (hu : executed u = false) :
    g.active executed u = true ∧ num executed g s u = 0 := by
  have hactive : g.active executed u = true := by
    by_contra hidle
    have hg := h.idle u (by simpa using hidle)
    refine hidle ?_
    rw [Graph.active, ← hg, hlookup, hu]
    simpa using hdisc
  refine ⟨hactive, ?_⟩
  rw [num_of_active hactive, Graph.disc, hlookup]
  exact hdisc

/-- How the loop over the dependencies of `v` goes on, if the calls for them do what they should. -/
theorem Loop.visit (h : Loop executed g s₀ v gray seen s) (hdep : dep ∈ g.deps v)
    {find : TarjanSCCsFinder → TxnId → Option TarjanSCCsFinder}
    (hfind : ∀ u, g.Edge executed v u → num executed g s u = 0 →
      ∃ s', find s u = some s' ∧ Post executed g s u (v :: gray) s') :
    ∃ s', TarjanSCCsFinder.visit executed find v s dep = some s' ∧
      Loop executed g s₀ v gray (seen ++ [dep]) s' := by
  rw [TarjanSCCsFinder.visit]
  by_cases hskip : dep.txnId = v ∨ executed dep.txnId
  · rw [if_pos hskip]
    refine ⟨s, rfl, h.concat (fun he => ?_) (fun hmem => ?_) (fun hm => ?_)⟩
    · rcases hskip with heq | hexec
      · exact absurd heq he.2.2.1
      · exact absurd (not_executed_of_active he.2.1) (by simp [hexec])
    · rcases hskip with heq | hexec
      · rw [heq]
        exact h.linked.le
      · have hactive := h.good.active_of_mem (h.mem_stack hmem)
        exact absurd (not_executed_of_active hactive) (by simp [hexec])
    · rcases hskip with heq | hexec
      · exact absurd heq hm.2.2.1
      · exact absurd hm.2.2.2.1 (by simp [hexec])
  rw [if_neg hskip]
  obtain ⟨hne, hexec⟩ := not_or.mp hskip
  rw [Bool.not_eq_true] at hexec
  cases hlookup : s.graph.lookup dep.txnId with
  | none =>
    have hnone := h.good.lookup_eq_none.mp hlookup
    have hmissing : g.Missing executed v dep := ⟨h.active, hdep, hne, hexec, hnone⟩
    have hidle : g.active executed dep.txnId = false := by simp [Graph.active, hnone]
    refine ⟨_, rfl, (h.addMissing hmissing).concat (fun he => ?_) (fun hmem => ?_)
      fun _ => mem_addMissing s dep⟩
    · exact absurd he.2.1 (by simp [hidle])
    · exact absurd (h.good.active_of_mem (h.mem_stack hmem)) (by simp [hidle])
  | some nextV =>
    have hknown : ¬ g.Missing executed v dep := fun hm => by
      rw [h.good.lookup_eq_none.mpr hm.2.2.2.2] at hlookup
      exact absurd hlookup (by simp)
    by_cases hdisc : nextV.disc = 0
    · obtain ⟨hactive, hnum⟩ := h.good.active_of_disc_eq_zero hlookup hdisc hexec
      have hedge : g.Edge executed v dep.txnId := ⟨h.active, hactive, hne, dep, hdep, rfl⟩
      obtain ⟨s', hs', hpost⟩ := hfind dep.txnId hedge hnum
      obtain ⟨nextV', hlookup'⟩ := hpost.good.exists_lookup hactive
      have hlow : s'.graph.low dep.txnId = nextV'.low := by
        rw [Graph.low, hlookup']
        rfl
      have hloop := h.child hedge hpost
      rw [hlow] at hloop
      simp only [if_pos hdisc, hs', bind_some, hlookup', map_some]
      refine ⟨_, rfl, hloop.concat (fun _ => ?_) (fun hmem => ?_) fun hm => absurd hm hknown⟩
      · rw [num_lowerTo, hpost.linked.number]
        exact Nat.succ_ne_zero _
      · exact absurd hnum ((h.good.tarjan.met _).mpr (.inl (h.mem_stack hmem)))
    · simp only [if_neg hdisc]
      have hnumber (hactive : g.active executed dep.txnId = true) :
          num executed g s dep.txnId = nextV.disc := by
        rw [num_of_active hactive, Graph.disc, hlookup]
        rfl
      by_cases hon : nextV.onStack = true
      · rw [if_pos hon]
        refine ⟨_, rfl, (h.lowerTo (Nat.pos_of_ne_zero hdisc) (s.stale || (dep.txnId ∉ s.stack &&
          (s.graph.lookup v).any fun x => nextV.disc < x.low))
          (fun hs => (Bool.or_eq_false_iff.mp hs).1) fun hs hlt => ?_).concat (fun he => ?_)
          (fun hmem => ?_) fun hm => absurd hm hknown⟩
        · have hlowers : ((s.graph.lookup v).any fun x => nextV.disc < x.low) = true := by
            rw [Graph.low] at hlt
            cases hv : s.graph.lookup v with
            | none => simp [hv] at hlt
            | some x => simpa [hv] using hlt
          have hmem : dep.txnId ∈ s.stack := by
            simpa [hlowers] using (Bool.or_eq_false_iff.mp hs).2
          have hactive := h.good.active_of_mem hmem
          exact ⟨dep.txnId, hmem, hnumber hactive,
            .single ⟨h.active, hactive, hne, dep, hdep, rfl⟩⟩
        · exact (congrFun (num_lowerTo s v _) _).trans_ne ((hnumber he.2.1).trans_ne hdisc)
        · have hnum := hnumber (h.good.active_of_mem (h.mem_stack hmem))
          refine ((low_lowerTo_self s v _).trans_le (min_le_right _ _)).trans_eq ?_
          exact hnum.symm.trans (congrFun (num_lowerTo s v _) _).symm
      · rw [if_neg hon]
        have hnot : dep.txnId ∉ s.stack := by
          intro hmem
          have := h.good.onStack _ hmem
          rw [Graph.onStack, hlookup] at this
          exact hon this
        refine ⟨s, rfl, h.concat (fun he => ?_) (fun hmem => ?_) fun hm => absurd hm hknown⟩
        · rw [hnumber he.2.1]
          exact hdisc
        · exact absurd (h.mem_stack hmem) hnot

/-! ## Closing a component -/

theorem popUntil_eq {new rest : List TxnId} {graph : Graph} {scc : SCC} (hv : v ∉ new)
    (hmember : ∀ x ∈ new, ∃ m, graph.lookup x = some m ∧ (m.txnId, m.isLocal) = g.member x) :
    ∃ graph', popUntil v (new ++ v :: rest) graph scc =
        some (rest, graph', scc ++ new.map g.member) ∧
      ∀ x, graph'.lookup x =
        (graph.lookup x).map fun m => if x ∈ new then { m with onStack := false } else m := by
  induction new generalizing graph scc with
  | nil => exact ⟨graph, by simp [popUntil], by simp⟩
  | cons x new ih =>
    obtain ⟨hxv, hv⟩ := not_or.mp (mt mem_cons.mpr hv)
    obtain ⟨m, hm, hentry⟩ := hmember x mem_cons_self
    have hlookup (y : TxnId) : (graph.insert x { m with onStack := false }).lookup y =
        (graph.lookup y).map fun m => if y = x then { m with onStack := false } else m := by
      rw [lookup_insert']
      rcases eq_or_ne y x with rfl | hy
      · simp [hm]
      · simp [hy]
    obtain ⟨graph', hpop, hgraph'⟩ := @ih (graph.insert x { m with onStack := false })
      (scc ++ [(m.txnId, m.isLocal)]) hv fun y hy => by
        obtain ⟨m', hm', hentry'⟩ := hmember y (mem_cons_of_mem _ hy)
        rw [hlookup, hm']
        refine ⟨_, rfl, ?_⟩
        split_ifs <;> exact hentry'
    refine ⟨graph', ?_, fun y => ?_⟩
    · rw [cons_append, popUntil, if_neg (Ne.symm hxv), hm, bind_some, hpop, hentry,
        map_cons, append_assoc, singleton_append]
    · rw [hgraph', hlookup, Option.map_map]
      congr 1
      funext m'
      by_cases hyx : y = x <;> by_cases hyn : y ∈ new <;> simp [hyx, hyn]

theorem Good.stack_nodup (h : Good executed g s gray) : s.stack.Nodup :=
  h.tarjan.sorted.imp fun hlt heq => by
    rw [heq] at hlt
    exact lt_irrefl _ hlt

theorem Good.member (h : Good executed g s gray) (hkey : g.WellKeyed) (hx : x ∈ s.stack) :
    ∃ m, s.graph.lookup x = some m ∧ (m.txnId, m.isLocal) = g.member x := by
  obtain ⟨vertex, hlookup, -, -⟩ := exists_of_active (h.active_of_mem hx)
  obtain ⟨m, hm, hskeleton⟩ := h.lookup hlookup
  simp only [Vertex.skeleton, Prod.mk.injEq] at hskeleton
  refine ⟨m, hm, ?_⟩
  rw [Graph.member, hlookup, hskeleton.1, hskeleton.2.1, hkey x vertex hlookup]
  rfl

theorem txnIds_concat (sccs : List SCC) (scc : SCC) :
    txnIds (sccs ++ [scc]) = txnIds sccs ++ scc.map Prod.fst := by
  simp [txnIds]

/-- The component that `close` adds. -/
def component (g : Graph) (ids : List TxnId) : SCC :=
  (ids.map g.member).insertionSort (·.1 ≤ ·.1)

theorem mem_component {m : TxnId × Bool} :
    m ∈ component g ids ↔ m ∈ ids.map g.member := mem_insertionSort _

theorem component_fst_perm (ids : List TxnId) : ((component g ids).map Prod.fst).Perm ids := by
  refine ((List.perm_insertionSort _ _).map Prod.fst).trans ?_
  rw [List.map_map]
  exact .of_eq (List.map_id ids)

theorem component_sorted (hids : ids.Nodup) : (component g ids).Pairwise (·.1 < ·.1) := by
  have hle : (component g ids).Pairwise (·.1 ≤ ·.1) := pairwise_insertionSort _ _
  have hne : (component g ids).Pairwise (·.1 ≠ ·.1) :=
    pairwise_map.mp ((component_fst_perm ids).nodup_iff.mpr hids)
  exact (hle.and hne).imp fun h => lt_of_le_of_ne h.1 h.2

section Close

variable (h₀ : Good executed g s₀ gray) (h : Loop executed g s₀ v gray (g.deps v) s)

include h

variable {y x : TxnId} {new : List TxnId}

theorem Loop.next_all (hy : g.Edge executed v y) : num executed g s y ≠ 0 := by
  obtain ⟨dep, hdep, rfl⟩ := hy.2.2.2
  exact h.next dep hdep hy

theorem Loop.missing_all (hx : num executed g s x ≠ 0) (hxg : x ∉ gray) (dep : JanusDependency)
    (hdep : g.Missing executed x dep) : dep.txnId ∈ s.missingDeps.map (·.txnId) := by
  rcases eq_or_ne x v with rfl | hxv
  · exact h.missing dep hdep.2.1 hdep
  · exact h.good.missing x hx (by simp [hxv, hxg]) dep hdep

/-- The component of `v` stays open. -/
theorem Loop.post_open (hup : s.missingDeps = [] → s.graph.low v ≠ num executed g s v) :
    Post executed g s₀ v gray s := by
  obtain ⟨new, hnew⟩ := h.stack
  have hmem : v ∈ s.stack := h.stack.subset mem_cons_self
  have htarjan := h.good.tarjan
  refine ⟨{ h.good with
      tarjan := h.good.tarjan.blacken fun y hy => h.next_all hy
      up := fun hmissing hstale => ?_
      missing := fun x hx hxg => h.missing_all hx hxg }, h.progress, h.linked,
    fun hmissing hlow => absurd hlow (hup hmissing), fun _ => hmem⟩
  -- the link of `v` leads below it on the stack
  obtain ⟨y, hy, -, hreach⟩ := (h.linked.attained hstale).resolve_left (hup hmissing)
  have hup' := h.good.up hmissing hstale
  rw [← hnew] at htarjan hup' ⊢
  exact Tarjan.Up.blacken htarjan hup' hy hreach

theorem Loop.stay (hnew : new ++ v :: s₀.stack = s.stack) (hlow : s.graph.low v = num executed g s v)
    (hx : x ∈ new ++ [v]) (hy : y ∈ s₀.stack) : ¬ g.Edge executed x y := by
  intro hxy
  have htarjan := h.good.tarjan
  rw [← hnew] at htarjan
  have hbound := h.linked.bound x (hnew ▸ (htarjan.mem_top.mp hx).1) (htarjan.not_mem_rest hx) y hy
    hxy fun hxv => by
      obtain ⟨dep, hdep, hid⟩ := (hxv ▸ hxy).2.2.2
      exact mem_map.mpr ⟨dep, hdep, hid⟩
  exact absurd (htarjan.lt_of_mem_rest hy) (hlow ▸ hbound).not_gt

/-- The new component comes after those that it depends on, and is one component. -/
theorem Loop.components_close (hnew : new ++ v :: s₀.stack = s.stack) (hgray : ∀ x ∈ gray, x ∈ s₀.stack)
    (hmissing : s.missingDeps = []) (hlow : s.graph.low v = num executed g s v) :
    Components executed g s.stale (s.sccs ++ [component g (new ++ [v])]) := by
  have htarjan := h.good.tarjan
  have hup := h.good.up hmissing
  have hmem {x : TxnId} : x ∈ (component g (new ++ [v])).map Prod.fst ↔ x ∈ new ++ [v] :=
    (component_fst_perm _).mem_iff
  rw [← hnew] at htarjan hup
  have hstack {x : TxnId} (hx : x ∈ new ++ [v]) : x ∈ s.stack :=
    hnew ▸ (htarjan.mem_top.mp hx).1
  intro before scc after heq
  rcases eq_nil_or_concat after with rfl | ⟨after', last, rfl⟩
  · obtain ⟨rfl, hscc⟩ := append_inj' heq rfl
    obtain rfl : component g (new ++ [v]) = scc := by simpa using hscc
    refine ⟨fun x hx => h.good.active_of_mem (hstack (hmem.mp hx)), fun x hx y hxy => ?_,
      fun x hx dep hdep => ?_, fun m hm => ?_, component_sorted ?_, fun hstale => ⟨v, fun z => ?_⟩⟩
    · rw [txnIds_concat, mem_append, hmem]
      exact (htarjan.edge_of_top hgray (fun _ => h.next_all)
        (fun _ hx _ hy => h.stay hnew hlow hx hy) (hmem.mp hx) hxy).symm
    · have hxs := hmem.mp hx
      have hdep' := h.missing_all ((h.good.tarjan.met x).mpr (.inl (hstack hxs)))
        (fun hg => htarjan.not_mem_rest hxs (hgray x hg)) dep hdep
      rw [hmissing] at hdep'
      exact absurd hdep' (by simp)
    · obtain ⟨x, -, rfl⟩ := mem_map.mp (mem_component.mp hm)
      rfl
    · have hnodup := h.good.stack_nodup
      rw [← hnew, append_cons] at hnodup
      exact hnodup.of_append_left
    · rw [hmem]
      exact htarjan.connected_iff hgray (fun _ => h.next_all)
        (fun _ hx _ hy => h.stay hnew hlow hx hy) (hup hstale)
  · rw [concat_eq_append, ← cons_append, ← append_assoc] at heq
    exact h.good.components before scc after' (append_inj' heq rfl).1

include h₀ in
theorem Loop.post_close (hnew : new ++ v :: s₀.stack = s.stack) (hmissing : s.missingDeps = [])
    (hlow : s.graph.low v = num executed g s v) {graph : Graph} (hgraph : ∀ x, graph.lookup x =
      (s.graph.lookup x).map fun m => if x ∈ new then { m with onStack := false } else m) :
    Post executed g s₀ v gray
      { s with
        stack := s₀.stack
        graph
        sccs := s.sccs ++ [component g (new ++ [v])] } := by
  have hgray := h₀.tarjan.grayOnStack
  have htarjan := h.good.tarjan
  have hup := h.good.up hmissing
  rw [← hnew] at htarjan hup
  have hpop := htarjan.pop hgray (fun _ => h.next_all) (fun _ hx _ hy => h.stay hnew hlow hx hy)
  have hmem {x : TxnId} : x ∈ txnIds (s.sccs ++ [component g (new ++ [v])]) ↔
      x ∈ txnIds s.sccs ∨ x ∈ new ++ [v] := by
    rw [txnIds_concat, mem_append, (component_fst_perm _).mem_iff]
  -- only the marks change
  have hproj {α : Type} (f : Vertex → α) (hf : ∀ m : Vertex, f { m with onStack := false } = f m)
      (x : TxnId) : (graph.lookup x).map f = (s.graph.lookup x).map f := by
    rw [hgraph, map_map_ite hf]
  set s' : TarjanSCCsFinder := { s with
    stack := s₀.stack
    graph
    sccs := s.sccs ++ [component g (new ++ [v])] }
  have hnum : num executed g s' = num executed g s := num_congr fun x => by
    rw [Graph.disc, Graph.disc, hproj Vertex.disc fun _ => rfl]
  have hlows (x : TxnId) : s'.graph.low x = s.graph.low x := by
    rw [Graph.low, Graph.low, hproj Vertex.low fun _ => rfl]
  have hsame {x : TxnId} (hx : x ∉ new) : graph.lookup x = s.graph.lookup x := by
    rw [hgraph]
    simp [hx]
  have hlt {x : TxnId} (hx : x ∈ s₀.stack) : x ∉ new := fun hxn =>
    htarjan.not_mem_rest (mem_append_left _ hxn) hx
  refine ⟨⟨fun x => ?_, fun x hx => ?_, ?_, fun _ hstale => ?_, fun x hx => ?_, ?_, ?_, ?_,
    h.good.missingNodup, ?_, ?_, h.components_close hnew hgray hmissing hlow⟩, ⟨suffix_refl _, ?_, fun x hx => ?_,
    h.progress.missing, h.progress.stale⟩, ⟨?_, ?_, ?_, ?_, ?_, ?_⟩, fun _ _ => rfl,
    absurd hmissing⟩
  · exact (hproj Vertex.skeleton (fun _ => rfl) x).trans (h.good.frame x)
  · refine (hsame fun hxn => ?_).trans (h.good.idle x hx)
    have := h.good.active_of_mem (hnew ▸ mem_append_left _ hxn)
    exact absurd this (by simp [hx])
  · rw [hnum]
    simpa only [← hmem] using hpop
  · rw [hnum]
    exact Tarjan.Up.pop htarjan (hup hstale)
  · rw [Graph.onStack, hsame (hlt hx)]
    exact h.good.onStack x (h.mem_stack hx)
  · rw [hnum]
    exact h.good.counter
  · rw [hnum]
    exact fun x hx hxg => h.missing_all hx hxg
  · rw [hnum]
    exact h.good.missed
  · exact absurd hmissing
  · show (txnIds (s.sccs ++ [component g (new ++ [v])])).Nodup
    have hnodup := h.good.stack_nodup
    rw [← hnew, append_cons] at hnodup
    rw [txnIds_concat]
    refine h.good.nodup.append ((component_fst_perm _).nodup_iff.mpr hnodup.of_append_left) ?_
    intro x hx hxc
    exact htarjan.apart x (htarjan.mem_top.mp ((component_fst_perm _).mem_iff.mp hxc)).1 hx
  · rw [hnum]
    exact h.progress.num
  · rw [hlows]
    exact h.progress.low x hx
  · rw [hnum]
    exact h.linked.number
  · rw [hlows]
    exact h.linked.pos
  · rw [hlows, hnum]
    exact h.linked.le
  · rw [hnum]
    exact h.linked.reach
  · exact fun x hx hxs => absurd hx hxs
  · rw [hnum, hlows]
    exact fun _ => .inl hlow

include h₀ in
theorem Loop.close (hkey : g.WellKeyed) :
    ∃ s', s.close v = some s' ∧ Post executed g s₀ v gray s' := by
  rw [TarjanSCCsFinder.close]
  by_cases hmissing : s.missingDeps = []
  · rw [if_neg (not_not.mpr hmissing)]
    obtain ⟨vertex, hlookup, hmember⟩ := h.good.member hkey (h.stack.subset mem_cons_self)
    have hdisc : num executed g s v = vertex.disc := by
      rw [num_of_active h.active, Graph.disc, hlookup]
      rfl
    have hlow : s.graph.low v = vertex.low := by
      rw [Graph.low, hlookup]
      rfl
    rw [hlookup, bind_some]
    by_cases heq : vertex.disc = vertex.low
    · obtain ⟨new, hnew⟩ := h.stack
      have htarjan := h.good.tarjan
      rw [← hnew] at htarjan
      have hv : v ∉ new := fun hv => absurd (htarjan.lt_of_mem_new hv) (lt_irrefl _)
      obtain ⟨graph', hpop, hgraph'⟩ := @popUntil_eq g v new s₀.stack s.graph [] hv
        fun x hx => h.good.member hkey (hnew ▸ mem_append_left _ hx)
      rw [if_pos heq, ← hnew, hpop, map_some, hmember, nil_append]
      have hpost := h.post_close h₀ hnew hmissing (by rw [hlow, hdisc, heq]) hgraph'
      rw [component, map_append] at hpost
      exact ⟨_, rfl, hpost⟩
    · rw [if_neg heq]
      refine ⟨s, rfl, h.post_open fun _ => ?_⟩
      rw [hlow, hdisc]
      exact Ne.symm heq
  · rw [if_pos hmissing]
    exact ⟨s, rfl, h.post_open fun hnil => absurd hnil hmissing⟩

end Close

/-! ## The whole search -/

/-- The vertices that the search can still enter. -/
def unmet (executed : TxnId → Bool) (g : Graph) (s : TarjanSCCsFinder) : List TxnId :=
  g.keys.filter fun x => g.active executed x && num executed g s x = 0

theorem mem_unmet : x ∈ unmet executed g s ↔ g.active executed x = true ∧ num executed g s x = 0 := by
  simp only [unmet, mem_filter, Bool.and_eq_true, decide_eq_true_eq, and_iff_right_iff_imp]
  rintro ⟨hx, -⟩
  obtain ⟨vertex, hlookup, -, -⟩ := exists_of_active hx
  exact AList.mem_keys.mp (mem_iff_lookup.mpr ⟨vertex, hlookup⟩)

theorem Progress.unmet_sublist (h : Progress executed g s₀ s) :
    (unmet executed g s).Sublist (unmet executed g s₀) := by
  refine monotone_filter_right _ fun x hx => ?_
  simp only [Bool.and_eq_true, decide_eq_true_eq] at hx ⊢
  refine ⟨hx.1, ?_⟩
  by_contra hne
  exact hne ((h.num x hne) ▸ hx.2)

theorem Loop.length_unmet_lt (h : Loop executed g s₀ v gray seen s) :
    (unmet executed g s).length < (unmet executed g s₀).length := by
  refine lt_of_le_of_ne h.progress.unmet_sublist.length_le fun heq => ?_
  have hv : v ∈ unmet executed g s₀ := mem_unmet.mpr ⟨h.active, h.fresh⟩
  rw [← h.progress.unmet_sublist.eq_of_length heq] at hv
  exact h.number_ne_zero (mem_unmet.mp hv).2

/-- **What the search does.**  The call for a vertex that was not met yet returns; the induction is on
the depth of the recursion, which the number of vertices not met yet bounds. -/
theorem findSCCs_post (hkey : g.WellKeyed) {depth : ℕ} (h : Good executed g s gray)
    (hv : g.active executed v = true) (hnum : num executed g s v = 0)
    (hgray : ∀ x ∈ gray, ReflTransGen (g.Edge executed) x v)
    (hdepth : (unmet executed g s).length ≤ depth) :
    ∃ s', findSCCs executed depth s v = some s' ∧ Post executed g s v gray s' := by
  induction depth generalizing s v gray with
  | zero =>
    have := (h.loop_enter hv hnum hgray).length_unmet_lt
    omega
  | succ depth ih =>
    obtain ⟨vertex, hlookup, -, hexec⟩ := exists_of_active hv
    obtain ⟨vertex', hlookup', hskeleton⟩ := h.lookup hlookup
    have hdeps : vertex'.deps = g.deps v := by
      simp only [Vertex.skeleton, Prod.mk.injEq] at hskeleton
      rw [Graph.deps, hlookup, hskeleton.2.2.1]
      rfl
    have hdisc : vertex'.disc = 0 := by
      rw [num_of_active hv, Graph.disc, hlookup'] at hnum
      exact hnum
    rw [findSCCs, hlookup', bind_some, if_neg (by simp [hdisc, hexec]), hdeps]
    -- the loop, for a part of the dependencies that is still to be seen
    have hloop : ∀ (deps seen : List JanusDependency) (s₁ : TarjanSCCsFinder),
        seen ++ deps = g.deps v → Loop executed g s v gray seen s₁ →
        ∃ s', deps.foldlM (TarjanSCCsFinder.visit executed (findSCCs executed depth) v) s₁ =
          some s' ∧ Loop executed g s v gray (g.deps v) s' := by
      intro deps
      induction deps with
      | nil =>
        intro seen s₁ hseen hs₁
        rw [append_nil] at hseen
        exact ⟨s₁, rfl, hseen ▸ hs₁⟩
      | cons dep deps ih' =>
        intro seen s₁ hseen hs₁
        have hdep : dep ∈ g.deps v := hseen ▸ by simp
        obtain ⟨s₂, hvisit, hs₂⟩ := hs₁.visit hdep fun u hedge hu => by
          refine ih hs₁.good hedge.2.1 hu (fun x hx => ?_) ?_
          · rcases mem_cons.mp hx with rfl | hx
            · exact .single hedge
            · exact (hgray x hx).tail hedge
          · have := hs₁.length_unmet_lt
            omega
        obtain ⟨s', hs', hpost⟩ := ih' (seen ++ [dep]) s₂ (by simpa using hseen) hs₂
        exact ⟨s', by rw [foldlM_cons, hvisit]; exact hs', hpost⟩
    obtain ⟨s₁, hs₁, hend⟩ := hloop (g.deps v) [] (s.enter v) rfl (h.loop_enter hv hnum hgray)
    rw [hs₁, bind_some]
    exact hend.close h hkey

/-! ## A round from its start to its end -/

theorem num_start (executed : TxnId → Bool) (g : Graph) (x : TxnId) :
    num executed g { graph := g } x = 0 := by
  rw [num]
  split_ifs with hx
  · obtain ⟨vertex, hlookup, hdisc, -⟩ := exists_of_active hx
    rw [Graph.disc, hlookup]
    exact hdisc
  · rfl

theorem good_start (executed : TxnId → Bool) (g : Graph) : Good executed g { graph := g } [] where
  frame := fun _ => rfl
  idle := fun _ _ => rfl
  tarjan := by
    rw [funext (num_start executed g)]
    simpa [txnIds] using Tarjan.inv_nil (g.Edge executed)
  up := nofun
  onStack := nofun
  counter := fun x => (num_start executed g x).le
  missing := fun x hx => absurd (num_start executed g x) hx
  missed := nofun
  missingNodup := .nil
  late := absurd rfl
  nodup := .nil
  components := fun before scc after heq => absurd heq (by simp)

theorem findRound_post (hkey : g.WellKeyed) (hv : g.active executed v = true) :
    ∃ s, findRound executed g v = some s ∧ Post executed g { graph := g } v [] s := by
  refine findSCCs_post hkey (good_start executed g) hv (num_start executed g v) (by simp) ?_
  refine (length_filter_le _ _).trans ?_
  rw [AList.keys, List.keys, length_map]
  exact Nat.le_succ _

theorem findRound_idle (hlookup : g.lookup v = some vertex) (hv : g.active executed v = false) :
    findRound executed g v = some { graph := g } := by
  have hidle : vertex.disc ≠ 0 ∨ executed v = true := by
    simpa [Graph.active, hlookup, or_iff_not_imp_left] using hv
  rw [findRound, findSCCs, hlookup, bind_some, if_pos hidle]

/-- A round that misses nothing leaves nothing on the stack. -/
theorem Post.stack_eq_nil (h : Post executed g { graph := g } v [] s)
    (hmissing : s.missingDeps = []) : s.stack = [] := by
  have hpos := h.linked.pos
  have hle := h.linked.le
  have hnumber : num executed g s v = 1 := h.linked.number
  exact h.closes hmissing (by omega)

theorem Good.lookup_finalize (h : Good executed g s []) (x : TxnId) :
    s.finalize.1.lookup x = (s.graph.lookup x).map fun vertex =>
      if x ∈ s.stack then { vertex with disc := 0 } else vertex :=
  lookup_foldl_modify h.stack_nodup s.graph _ x

/-- After a round, exactly those vertices have a number that had one before, or whose component was
closed in it. -/
theorem Good.disc_finalize (h : Good executed g s []) (x : TxnId) :
    s.finalize.1.disc x ≠ 0 ↔ g.disc x ≠ 0 ∨ x ∈ txnIds s.sccs := by
  have hmet := h.tarjan.met x
  have hdisc : s.finalize.1.disc x = if x ∈ s.stack then 0 else s.graph.disc x := by
    rw [Graph.disc, h.lookup_finalize, Option.map_map]
    split_ifs with hx
    · cases s.graph.lookup x <;> rfl
    · rfl
  rw [hdisc]
  by_cases hactive : g.active executed x = true
  · have hstart : g.disc x = 0 := (num_of_active hactive).symm.trans (num_start executed g x)
    rw [num_of_active hactive] at hmet
    by_cases hx : x ∈ s.stack
    · simp [hx, hstart, h.tarjan.apart x hx]
    · simpa [hx, hstart] using hmet
  · rw [num, if_neg hactive] at hmet
    have hnot : x ∉ s.stack ∧ x ∉ txnIds s.sccs := by
      rw [← not_or, ← hmet]
      simp
    rw [if_neg hnot.1, Graph.disc, h.idle x (by simpa using hactive)]
    simp [hnot.2, Graph.disc]

/-- The end of a round changes nothing of a vertex but its number and its mark. -/
theorem Good.skeleton_finalize (h : Good executed g s []) (x : TxnId) :
    (s.finalize.1.lookup x).map Vertex.skeleton = (g.lookup x).map Vertex.skeleton := by
  rw [← h.frame x, h.lookup_finalize, map_map_ite]
  exact fun _ => rfl

end TarjanSCCsFinder

end Janus
