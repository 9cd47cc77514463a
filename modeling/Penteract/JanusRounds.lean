/-
# The rounds of the search

The graph outlives a round of the search: transactions are added to it when they are committed or
when another partition tells their dependencies, and taken from it when they have been executed.
The numbers and marks of earlier rounds stay in the vertices.  A history is a sequence of such
changes and rounds in any order.
-/
import Penteract.Lib.Run
import Penteract.JanusSearch

namespace Janus

open List TarjanSCCsFinder AssocMap Slog Relation

/-! ## The execution horizon -/

/-- All transactions with counters up to `horizon` have been executed, and those in `buffered`. -/
structure Horizon where
  horizon : ℕ := 0
  buffered : List ℕ := []
  deriving DecidableEq, Repr

namespace Horizon

/-- The loop that takes over what follows `horizon` directly, with a bound on its iterations. -/
def absorb : ℕ → Horizon → Horizon
  | 0, h => h
  | bound + 1, h =>
    if h.horizon + 1 ∈ h.buffered then
      absorb bound ⟨h.horizon + 1, h.buffered.erase (h.horizon + 1)⟩
    else h

def add (h : Horizon) (counter : ℕ) : Horizon :=
  if counter = h.horizon + 1 then absorb h.buffered.length { h with horizon := h.horizon + 1 }
  else { h with buffered := h.buffered.insert counter }

def contains (h : Horizon) (counter : ℕ) : Bool := counter ≤ h.horizon || counter ∈ h.buffered

theorem contains_absorb (bound : ℕ) (h : Horizon) (c : ℕ) :
    (absorb bound h).contains c = h.contains c := by
  induction bound generalizing h with
  | zero => rfl
  | succ bound ih =>
    rw [absorb]
    split_ifs with hmem
    · rw [ih, contains, contains, ← Bool.decide_or, ← Bool.decide_or, decide_eq_decide]
      rcases eq_or_ne c (h.horizon + 1) with rfl | hc
      · simp [hmem]
      · have hle : c ≤ h.horizon + 1 ↔ c ≤ h.horizon := by omega
        rw [mem_erase_of_ne hc, hle]
    · rfl

theorem contains_add (h : Horizon) (counter c : ℕ) :
    (h.add counter).contains c = (decide (c = counter) || h.contains c) := by
  rw [add]
  split_ifs with heq
  · rw [contains_absorb, contains, contains, ← Bool.decide_or, ← Bool.decide_or, ← Bool.decide_or,
      decide_eq_decide]
    have hle : c ≤ h.horizon + 1 ↔ c = counter ∨ c ≤ h.horizon := by omega
    rw [hle, or_assoc]
  · rw [contains, contains, ← Bool.decide_or, ← Bool.decide_or, ← Bool.decide_or, decide_eq_decide,
      List.mem_insert_iff]
    tauto

/-- The loop ends when the next counter is not buffered, and only takes counters from the buffer
that it passes. -/
theorem absorb_spec (bound : ℕ) (h : Horizon) (hnodup : h.buffered.Nodup)
    (hbound : h.buffered.length ≤ bound) : (absorb bound h).buffered.Nodup ∧
      (absorb bound h).horizon + 1 ∉ (absorb bound h).buffered ∧
      ∀ c ∈ (absorb bound h).buffered, c ∈ h.buffered ∧
        (c ≤ (absorb bound h).horizon → c ≤ h.horizon) := by
  induction bound generalizing h with
  | zero =>
    have hnil : h.buffered = [] := eq_nil_of_length_eq_zero (Nat.le_zero.mp hbound)
    simp [absorb, hnil]
  | succ bound ih =>
    rw [absorb]
    split_ifs with hmem
    · have hlength : (h.buffered.erase (h.horizon + 1)).length ≤ bound := by
        rw [length_erase_of_mem hmem]
        omega
      obtain ⟨h₁, h₂, h₃⟩ := ih ⟨h.horizon + 1, h.buffered.erase (h.horizon + 1)⟩
        (hnodup.erase _) hlength
      refine ⟨h₁, h₂, fun c hc => ?_⟩
      obtain ⟨hc, hle⟩ := h₃ c hc
      obtain ⟨hne, hc⟩ := hnodup.mem_erase_iff.mp hc
      exact ⟨hc, fun hc' => by have := hle hc'; dsimp only at this; omega⟩
    · exact ⟨hnodup, hmem, fun c hc => ⟨hc, id⟩⟩

/-- What the horizon is after the counters `cs` have been added.  A counter that is buffered below the
horizon has been added again. -/
structure Added (h : Horizon) (cs : List ℕ) : Prop where
  nodup : h.buffered.Nodup
  next : h.horizon + 1 ∉ h.buffered
  contains_iff : ∀ c, 0 < c → (h.contains c = true ↔ c ∈ cs)
  twice : ∀ c ∈ h.buffered, c ≤ h.horizon → 1 < cs.count c

theorem Added.add {h : Horizon} {cs : List ℕ} (hadded : Added h cs) {counter : ℕ}
    (hpos : 0 < counter) : Added (h.add counter) (cs ++ [counter]) := by
  have hcontains : ∀ c, 0 < c → ((h.add counter).contains c = true ↔ c ∈ cs ++ [counter]) := by
    intro c hc
    rw [contains_add, Bool.or_eq_true, hadded.contains_iff c hc, mem_append, mem_singleton,
      decide_eq_true_eq, or_comm]
  have hcount : ∀ c, 1 < cs.count c → 1 < (cs ++ [counter]).count c := fun c hc => by
    rw [count_append]
    omega
  rw [Horizon.add] at hcontains ⊢
  split_ifs at hcontains ⊢ with heq
  · obtain ⟨h₁, h₂, h₃⟩ := absorb_spec _ { h with horizon := h.horizon + 1 } hadded.nodup le_rfl
    refine ⟨h₁, h₂, hcontains, fun c hc hle => hcount c (hadded.twice c (h₃ c hc).1 ?_)⟩
    have hne : c ≠ h.horizon + 1 := fun hc' => hadded.next (hc' ▸ (h₃ c hc).1)
    exact Nat.le_of_lt_succ (lt_of_le_of_ne ((h₃ c hc).2 hle) hne)
  · refine ⟨hadded.nodup.insert, fun hmem => ?_, hcontains, fun c hc hle => ?_⟩
    · exact (List.mem_insert_iff.mp hmem).elim (Ne.symm heq) hadded.next
    · rcases List.mem_insert_iff.mp hc with rfl | hc
      · have hmem := (hadded.contains_iff c hpos).mp (by simp [contains, hle])
        rw [count_append, count_singleton_self]
        exact Nat.lt_add_of_pos_left (count_pos_iff.mpr hmem)
      · exact hcount c (hadded.twice c hc hle)

theorem added_foldl {cs : List ℕ} (hpos : ∀ c ∈ cs, 0 < c) : Added (cs.foldl Horizon.add {}) cs := by
  induction cs using List.reverseRecOn with
  | nil => exact ⟨nodup_nil, not_mem_nil, fun c hc => by simp [contains]; omega, nofun⟩
  | append_singleton cs c ih =>
    rw [foldl_append]
    exact (ih fun c hc => hpos c (mem_append_left _ hc)).add (hpos c (mem_append_right _ mem_cons_self))

/-- The horizon passes the counters that have all been added. -/
theorem Added.le_horizon {h : Horizon} {cs : List ℕ} (hadded : Added h cs) {n : ℕ}
    (hall : ∀ c, 0 < c → c ≤ n → c ∈ cs) : n ≤ h.horizon := by
  by_contra hlt
  have hnext := (hadded.contains_iff _ h.horizon.succ_pos).mpr (hall _ h.horizon.succ_pos (by omega))
  rw [contains, ← Bool.decide_or, decide_eq_true_eq] at hnext
  exact hnext.elim (by omega) hadded.next

end Horizon

/-- Executed transactions, for each machine that gives out ids; an id has the machine in its lower
bits and the counter of that machine in the upper ones. -/
abbrev TxnHorizon := AssocMap ℕ Horizon

namespace TxnHorizon

def getMachineId (id : TxnId) : ℕ := id % 2 ^ 32

def getCounter (id : TxnId) : ℕ := id / 2 ^ 32

def of (h : TxnHorizon) (machine : ℕ) : Horizon := (h.lookup machine).getD {}

def add (h : TxnHorizon) (id : TxnId) : TxnHorizon :=
  h.insert (getMachineId id) ((h.of (getMachineId id)).add (getCounter id))

def contains (h : TxnHorizon) (id : TxnId) : Bool :=
  (h.of (getMachineId id)).contains (getCounter id)

theorem eq_of_getCounter_eq {x y : TxnId} (hm : getMachineId x = getMachineId y)
    (hc : getCounter x = getCounter y) : x = y := by
  rw [← Nat.div_add_mod x (2 ^ 32), ← Nat.div_add_mod y (2 ^ 32)]
  exact congrArg₂ (fun c m => 2 ^ 32 * c + m) hc hm

theorem contains_add (h : TxnHorizon) (id x : TxnId) :
    (h.add id).contains x = (decide (x = id) || h.contains x) := by
  rw [contains, of, add, lookup_insert']
  by_cases hm : getMachineId x = getMachineId id
  · rw [if_pos hm, Option.getD_some, Horizon.contains_add, contains, hm]
    congr 1
    rw [decide_eq_decide]
    exact ⟨eq_of_getCounter_eq hm, fun hx => hx ▸ rfl⟩
  · have hx : x ≠ id := fun hx => hm (hx ▸ rfl)
    rw [if_neg hm, decide_eq_false hx, Bool.false_or]
    rfl

/-- The counters of a machine. -/
def counters (machine : ℕ) (ids : List TxnId) : List ℕ :=
  (ids.filter fun id => getMachineId id = machine).map getCounter

theorem of_foldl_add (machine : ℕ) (ids : List TxnId) :
    (ids.foldl add ∅).of machine = (counters machine ids).foldl Horizon.add {} := by
  induction ids using List.reverseRecOn with
  | nil => rfl
  | append_singleton ids id ih =>
    rw [foldl_append, counters, filter_append, map_append, foldl_append, ← counters, ← ih, foldl_cons,
      foldl_nil, of, add, lookup_insert']
    by_cases hm : machine = getMachineId id
    · simp [hm]
    · simp [hm, Ne.symm hm, of]

/-- The horizon contains what was added, in any order and with repetitions.  If the counters 1 to `n` of
a machine were added once each, it buffers none of them. -/
theorem contains_foldl_add_iff (ids : List TxnId) (hpos : ∀ id ∈ ids, 0 < getCounter id) :
    (∀ id, 0 < getCounter id → ((ids.foldl add ∅).contains id = true ↔ id ∈ ids)) ∧
    ∀ machine n, (∀ c, 0 < c → c ≤ n → (counters machine ids).count c = 1) →
      ∀ c, 0 < c → c ≤ n → c ∉ ((ids.foldl add ∅).of machine).buffered := by
  have hadded : ∀ machine,
      ((ids.foldl add ∅).of machine).Added (counters machine ids) := by
    intro machine
    rw [of_foldl_add]
    refine Horizon.added_foldl fun c hc => ?_
    obtain ⟨id, hid, rfl⟩ := mem_map.mp hc
    exact hpos id (mem_of_mem_filter hid)
  refine ⟨fun id hid => ?_, fun machine n honce c hc hle hmem => ?_⟩
  · rw [contains, (hadded _).contains_iff _ hid, counters, mem_map]
    constructor
    · rintro ⟨x, hx, hcounter⟩
      obtain ⟨hx, hmachine⟩ := mem_filter.mp hx
      exact eq_of_getCounter_eq (of_decide_eq_true hmachine) hcounter ▸ hx
    · exact fun h => ⟨id, mem_filter.mpr ⟨h, decide_eq_true rfl⟩, rfl⟩
  · have hhorizon := (hadded machine).le_horizon fun c hc hle =>
      count_pos_iff.mp (by rw [honce c hc hle]; exact Nat.one_pos)
    exact absurd ((hadded machine).twice c hmem (hle.trans hhorizon)) (by rw [honce c hc hle]; decide)

/-- Three transactions of machine 0 arrive in reverse, and one of machine 1 twice. -/
theorem contains_foldl_add_reversed :
    let ids := [3 * 2 ^ 32, 2 * 2 ^ 32, 2 ^ 32 + 1, 2 ^ 32, 2 ^ 32 + 1]
    (∀ id, 0 < getCounter id → ((ids.foldl add ∅).contains id = true ↔ id ∈ ids)) ∧
      (ids.foldl add ∅).of 0 = ⟨3, []⟩ ∧ (ids.foldl add ∅).of 1 = ⟨1, [1]⟩ :=
  ⟨(contains_foldl_add_iff _ (by decide)).1, by decide, by decide⟩

end TxnHorizon

/-! ## Histories -/

/-- The graph and the horizon of a scheduler, and the components of all rounds so far. -/
structure Rounds where
  graph : Graph := ∅
  horizon : TxnHorizon := ∅
  emitted : List SCC := []

inductive Change where
  | insert (id : TxnId) (isLocal : Bool) (deps : List JanusDependency)
  | execute (id : TxnId)
  | erase (id : TxnId)
  | round (id : TxnId)
  deriving Repr

namespace Rounds

/-- A transaction is inserted if it is not there; it is erased when it counts as executed; one that
is not there may become executed too, when another partition says so. -/
def step (r : Rounds) : Change → Option Rounds
  | .insert id isLocal deps =>
    some { r with graph := AssocMap.insertNew r.graph id { txnId := id, isLocal, deps } }
  | .execute id => some { r with horizon := r.horizon.add id }
  | .erase id => some { r with graph := r.graph.erase id, horizon := r.horizon.add id }
  | .round id =>
    (findRound r.horizon.contains r.graph id).map fun s =>
      { r with graph := s.finalize.1, emitted := r.emitted ++ s.finalize.2.sccs }

open TarjanSCCsFinder (txnIds)

/-- In the graph, in no component yet, and not executed. -/
def Remaining (r : Rounds) (x : TxnId) : Prop :=
  x ∈ r.graph ∧ x ∉ txnIds r.emitted ∧ r.horizon.contains x = false

/-- The dependencies among the remaining transactions. -/
def DependsOn (r : Rounds) (x y : TxnId) : Prop :=
  r.Remaining x ∧ r.Remaining y ∧ ∃ dep ∈ r.graph.deps x, dep.txnId = y

/-- What a round is for, when `s` is its end: it emits strongly connected components of what
remains, each after those that it depends on, and none twice; none after a missing dependency was
met; and a transaction that was never emitted has no number. -/
structure Emits (r : Rounds) (s : TarjanSCCsFinder) : Prop where
  component : ∀ scc ∈ s.sccs, ∃ v, r.Remaining v ∧
    ∀ z, z ∈ scc.map Prod.fst ↔ Components.Connected r.DependsOn v z
  once : (txnIds (r.emitted ++ s.sccs)).Nodup
  ordered : ∀ before scc after, s.sccs = before ++ scc :: after → ∀ x ∈ scc.map Prod.fst,
    ∀ dep ∈ r.graph.deps x, r.horizon.contains dep.txnId = true ∨
      dep.txnId ∈ txnIds (r.emitted ++ before ++ [scc])
  late : s.missingDeps ≠ [] → s.sccs.length = s.closedBefore
  reset : ∀ x, x ∉ txnIds (r.emitted ++ s.sccs) → s.finalize.1.disc x = 0

/-- In the search from `v`, no low number is lowered by a vertex that is marked as being on the stack
and is not. -/
def NotMisled (r : Rounds) (v : TxnId) : Prop :=
  ∀ s, findRound r.horizon.contains r.graph v = some s → s.stale = false

/-- What the numbers of the vertices say, whatever happened before. -/
structure Inv (r : Rounds) : Prop where
  keyed : r.graph.WellKeyed
  numbered : ∀ x, r.graph.disc x ≠ 0 → x ∈ txnIds r.emitted
  kept : ∀ x ∈ txnIds r.emitted, r.horizon.contains x = false → r.graph.disc x ≠ 0
  nodup : (txnIds r.emitted).Nodup

theorem txnIds_append (sccs sccs' : List SCC) :
    txnIds (sccs ++ sccs') = txnIds sccs ++ txnIds sccs' := by
  simp [txnIds]

variable {r r' : Rounds}

variable {x : TxnId} {s : TarjanSCCsFinder}

theorem mem_of_disc_ne_zero {g : Graph} (h : g.disc x ≠ 0) : x ∈ g := by
  rw [mem_iff_lookup]
  cases hlookup : g.lookup x with
  | none => simp [Graph.disc, hlookup] at h
  | some vertex => exact ⟨vertex, rfl⟩

theorem Inv.active_iff (h : Inv r) (x : TxnId) :
    r.graph.active r.horizon.contains x = true ↔ r.Remaining x := by
  constructor
  · intro hx
    obtain ⟨vertex, hlookup, hdisc, hexec⟩ := exists_of_active hx
    refine ⟨mem_iff_lookup.mpr ⟨vertex, hlookup⟩, fun hmem => ?_, hexec⟩
    refine h.kept x hmem hexec ?_
    rw [Graph.disc, hlookup]
    exact hdisc
  · rintro ⟨hmem, hemitted, hexec⟩
    obtain ⟨vertex, hlookup⟩ := mem_iff_lookup.mp hmem
    have hdisc : r.graph.disc x = 0 := by
      by_contra hne
      exact hemitted (h.numbered x hne)
    rw [Graph.disc, hlookup] at hdisc
    simpa [Graph.active, hlookup, hexec] using hdisc

/-- A transaction that depends on itself is in no larger component for it. -/
theorem Inv.reach_iff (h : Inv r) {y : TxnId} :
    ReflTransGen (r.graph.Edge r.horizon.contains) x y ↔ ReflTransGen r.DependsOn x y := by
  constructor
  · refine ReflTransGen.mono (fun a b hab => ?_) x y
    exact ⟨(h.active_iff a).mp hab.1, (h.active_iff b).mp hab.2.1, hab.2.2.2⟩
  · intro hxy
    induction hxy with
    | refl => exact .refl
    | @tail a b _ hab ih =>
      rcases eq_or_ne b a with rfl | hne
      · exact ih
      · exact ih.tail ⟨(h.active_iff a).mpr hab.1, (h.active_iff b).mpr hab.2.1, hne, hab.2.2⟩

theorem Inv.emitted_active (h : Inv r) {gray : List TxnId}
    (hs : Good r.horizon.contains r.graph s gray) (hx : x ∈ txnIds s.sccs) :
    r.Remaining x := by
  have hmet := (hs.tarjan.met x).mpr (.inr hx)
  exact (h.active_iff x).mp (active_of_num_ne_zero hmet)

/-- What a round from a vertex of the graph ends with. -/
theorem Inv.findRound (h : Inv r) {v : TxnId} (hv : v ∈ r.graph) :
    ∃ s, Janus.findRound r.horizon.contains r.graph v = some s ∧
      Good r.horizon.contains r.graph s [] := by
  cases hactive : r.graph.active r.horizon.contains v with
  | true =>
    obtain ⟨s, hs, hpost⟩ := findRound_post h.keyed hactive
    exact ⟨s, hs, hpost.good⟩
  | false =>
    obtain ⟨vertex, hlookup⟩ := mem_iff_lookup.mp hv
    exact ⟨_, findRound_idle hlookup hactive, good_start _ _⟩

/-! ## What the changes keep -/

theorem Inv.emit (h : Inv r) (hs : Good r.horizon.contains r.graph s []) :
    Inv { r with graph := s.finalize.1, emitted := r.emitted ++ s.sccs } := by
  refine ⟨fun x vertex hlookup => ?_, fun x hx => ?_, fun x hx hexec => ?_, ?_⟩
  · have hskeleton := hs.skeleton_finalize x
    rw [hlookup, Option.map_some, eq_comm, Option.map_eq_some_iff] at hskeleton
    obtain ⟨vertex', hlookup', heq⟩ := hskeleton
    exact (congrArg Prod.fst heq).symm.trans (h.keyed x vertex' hlookup')
  · rw [txnIds_append, mem_append]
    exact ((hs.disc_finalize x).mp hx).imp_left (h.numbered x)
  · rw [txnIds_append, mem_append] at hx
    exact (hs.disc_finalize x).mpr (hx.imp_left fun hold => h.kept x hold hexec)
  · rw [txnIds_append]
    refine h.nodup.append hs.nodup fun x hold hnew => ?_
    exact (h.emitted_active hs hnew).2.1 hold

theorem Inv.step (h : Inv r) {change : Change} (hstep : r.step change = some r') : Inv r' := by
  cases change with
  | insert id isLocal deps =>
    cases hstep
    by_cases hid : id ∈ r.graph
    · rwa [AssocMap.insertNew, if_pos hid]
    · have hlookup (x : TxnId) := lookup_insertNew r.graph id x
        { txnId := id, isLocal, deps } hid
      have hdisc (x : TxnId) : Graph.disc (AssocMap.insertNew r.graph id
          { txnId := id, isLocal, deps }) x = r.graph.disc x := by
        rw [Graph.disc, hlookup, Graph.disc]
        split_ifs with hx
        · rw [hx, not_mem_iff_lookup.mp hid]
          rfl
        · rfl
      refine ⟨fun x vertex hx => ?_, fun x hx => h.numbered x (hdisc x ▸ hx),
        fun x hx hexec => (hdisc x).symm ▸ h.kept x hx hexec, h.nodup⟩
      rw [hlookup] at hx
      split_ifs at hx with heq
      · rw [← Option.some_inj.mp hx, heq]
      · exact h.keyed x vertex hx
  | execute id =>
    cases hstep
    refine ⟨h.keyed, h.numbered, fun x hx hexec => h.kept x hx ?_, h.nodup⟩
    rw [TxnHorizon.contains_add, Bool.or_eq_false_iff] at hexec
    exact hexec.2
  | erase id =>
    cases hstep
    have hdisc {x : TxnId} (hx : x ≠ id) :
        Graph.disc (r.graph.erase id) x = r.graph.disc x := by
      rw [Graph.disc, lookup_erase', if_neg hx]
      rfl
    refine ⟨fun x vertex hx => ?_, fun x hx => ?_, fun x hx hexec => ?_, h.nodup⟩
    · rw [lookup_erase'] at hx
      split_ifs at hx with heq
      exact h.keyed x vertex hx
    · have hne : x ≠ id := by
        rintro rfl
        simp [Graph.disc] at hx
      exact h.numbered x (hdisc hne ▸ hx)
    · rw [TxnHorizon.contains_add, Bool.or_eq_false_iff, decide_eq_false_iff_not] at hexec
      exact (hdisc hexec.1).symm ▸ h.kept x hx hexec.2
  | round id =>
    obtain ⟨s, hs, rfl⟩ := Option.map_eq_some_iff.mp hstep
    have hmem : id ∈ r.graph := by
      rw [mem_iff_lookup]
      cases hlookup : r.graph.lookup id with
      | none => simp [Janus.findRound, TarjanSCCsFinder.findSCCs, hlookup] at hs
      | some vertex => exact ⟨vertex, rfl⟩
    obtain ⟨s', hs', hgood⟩ := h.findRound hmem
    obtain rfl := Option.some_inj.mp (hs'.symm.trans hs)
    exact h.emit hgood

theorem inv_start : Inv {} where
  keyed := fun x vertex hx => absurd hx (by simp)
  numbered := fun x hx => absurd rfl hx
  kept := nofun
  nodup := .nil

theorem inv_of_reachable (h : Lts.Reachable Rounds.step {} r) : Inv r :=
  Lts.invariant Rounds.step inv_start (fun _ _ _ hs hstep => hs.step hstep) h

/-- **The rounds emit components in the order of the dependencies**, whatever the graph has gone
through: if the search is not misled, each one is a strongly connected component of what remains. -/
theorem emits_of_notMisled (h : Lts.Reachable Rounds.step {} r) {v : TxnId} (hv : v ∈ r.graph)
    (hstale : r.NotMisled v) :
    ∃ s, findRound r.horizon.contains r.graph v = some s ∧ r.Emits s := by
  have hinv := inv_of_reachable h
  obtain ⟨s, hs, hgood⟩ := hinv.findRound hv
  have hnext := hinv.emit hgood
  refine ⟨s, hs, fun scc hscc => ?_, hnext.nodup, fun before scc after heq x hx dep hdep => ?_,
    hgood.late, fun x hx => ?_⟩
  · obtain ⟨before, after, heq⟩ := append_of_mem hscc
    obtain ⟨hactive, -, -, -, -, hconn⟩ := hgood.components before scc after heq
    obtain ⟨v, hv⟩ := hconn (hstale s hs)
    refine ⟨v, (hinv.active_iff v).mp (hactive v ((hv v).mp (.refl v))), fun z => ?_⟩
    rw [← hv z, Components.Connected, Components.Connected, hinv.reach_iff, hinv.reach_iff]
  · obtain ⟨hactive, hedge, hmissing, -, -, -⟩ := hgood.components before scc after heq
    by_cases hexec : r.horizon.contains dep.txnId = true
    · exact .inl hexec
    · right
      rw [append_assoc, txnIds_append, mem_append]
      by_cases hself : dep.txnId = x
      · rw [hself, txnIds_concat, mem_append]
        exact .inr (.inr hx)
      · by_cases hdepActive : r.graph.active r.horizon.contains dep.txnId = true
        · exact .inr (hedge x hx _ ⟨hactive x hx, hdepActive, hself, dep, hdep, rfl⟩)
        · left
          cases hlookup : r.graph.lookup dep.txnId with
          | none =>
            exact absurd ⟨hactive x hx, hdep, hself, by simpa using hexec, hlookup⟩
              (hmissing x hx dep)
          | some vertex =>
            refine hinv.numbered _ fun hdisc => hdepActive ?_
            rw [Graph.disc, hlookup] at hdisc
            simpa [Graph.active, hlookup, hexec] using hdisc
  · by_contra hne
    exact hx (hnext.numbered x hne)

/-- The `n`-th transaction of the first machine. -/
def txn (n : ℕ) : TxnId := n * 2 ^ 32

/-- Transactions 1 and 2 depend on each other, and 1 on one that was emitted and has finished. -/
def pair : List Change :=
  [.insert (txn 3) true [], .round (txn 3), .erase (txn 3),
    .insert (txn 1) true [{ txnId := txn 2 }, { txnId := txn 3 }], .round (txn 1),
    .insert (txn 2) true [{ txnId := txn 1 }]]

theorem pair_run : (Lts.run Rounds.step {} pair).bind (fun r =>
    (findRound r.horizon.contains r.graph (txn 1)).map fun s =>
      (s.stale, decide (txn 1 ∈ r.graph))) = some (false, true) := by
  decide +kernel

theorem emits_pair :
    ∃ r, Lts.Reachable Rounds.step {} r ∧ txn 1 ∈ r.graph ∧ r.NotMisled (txn 1) ∧
      ∃ s, findRound r.horizon.contains r.graph (txn 1) = some s ∧ r.Emits s := by
  obtain ⟨r, hr, hround⟩ := Option.bind_eq_some_iff.mp pair_run
  obtain ⟨s, hs, hres⟩ := Option.map_eq_some_iff.mp hround
  simp only [Prod.mk.injEq, decide_eq_true_eq] at hres
  have hstale : r.NotMisled (txn 1) := fun s' hs' => by
    rw [← Option.some_inj.mp (hs.symm.trans hs')]
    exact hres.1
  exact ⟨r, ⟨pair, hr⟩, hres.2, hstale, emits_of_notMisled ⟨pair, hr⟩ hres.2 hstale⟩

/-! ## A chain of three transactions

The last one of a chain arrives last.  The component of a single transaction keeps its mark, and the
two transactions that waited for it are found as one component, although only one of them depends on
the other. -/

/-- Transaction 2 depends on 3 and 1 on 2; the rounds are those of the scheduler. -/
def chain : List Change :=
  [.insert (txn 2) true [{ txnId := txn 3 }], .round (txn 2),
    .insert (txn 1) true [{ txnId := txn 2 }], .round (txn 1),
    .insert (txn 3) true [], .round (txn 3)]

theorem chain_run : (Lts.run Rounds.step {} chain).bind (fun r =>
    (findRound r.horizon.contains r.graph (txn 1)).map fun s =>
      (s.sccs, r.emitted, r.graph.deps (txn 2), decide (txn 1 ∈ r.graph))) =
    some ([[(txn 1, true), (txn 2, true)]], [[(txn 3, true)]], [{ txnId := txn 3 }], true) := by
  decide +kernel

theorem not_emits_chain :
    ∃ r, Lts.Reachable Rounds.step {} r ∧ txn 1 ∈ r.graph ∧
      ¬ ∃ s, findRound r.horizon.contains r.graph (txn 1) = some s ∧ r.Emits s := by
  obtain ⟨r, hr, hround⟩ := Option.bind_eq_some_iff.mp chain_run
  obtain ⟨s, hs, hres⟩ := Option.map_eq_some_iff.mp hround
  simp only [Prod.mk.injEq, decide_eq_true_eq] at hres
  obtain ⟨hsccs, hemitted, hdeps, hmem⟩ := hres
  refine ⟨r, ⟨chain, hr⟩, hmem, ?_⟩
  rintro ⟨s', hs', hemits⟩
  obtain rfl := Option.some_inj.mp (hs.symm.trans hs')
  obtain ⟨v, -, hv⟩ := hemits.component _ (hsccs ▸ mem_singleton_self _)
  -- the second transaction would have to reach the first one, and it depends on the third only
  have h1 := (hv (txn 1)).mp (by simp)
  have h2 := (hv (txn 2)).mp (by simp)
  rcases (h2.symm.trans h1).1.cases_head with heq | ⟨y, hedge, -⟩
  · exact absurd heq (by decide)
  · obtain ⟨-, hremaining, dep, hdep, rfl⟩ := hedge
    rw [hdeps, mem_singleton] at hdep
    refine hremaining.2.1 ?_
    rw [hdep, hemitted]
    exact mem_singleton_self _

end Rounds

end Janus
