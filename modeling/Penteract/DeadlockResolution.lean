/-
# What resolving a deadlock does

The waited-by list that is prepared for a transaction has a free slot in front and then one
slot for every log entry that waits for the transaction.  Resolving a component empties the
slots of its members and puts the next larger local member into the free slot; the counters
follow the slots.  Components that are resolved in the same run do not meet.
-/
import Penteract.DeadlockDetection

namespace Slog

open List Option AssocMap

/-! ## The slots after resolving -/

/-- A slot after its component has been resolved. -/
def mask (scc : List TxnId) (v : TxnId) : TxnId := if v ∈ scc then kSentinelTxnId else v

/-- The next larger member, if there is one. -/
def nextIn (members : List TxnId) (x : TxnId) : TxnId :=
  ((members.filter fun y => x < y).min?).getD kSentinelTxnId

/-- The waited-by list of the member `x` after resolving, where `slots` are the slots behind
the free one. -/
def chained (scc members : List TxnId) (x : TxnId) (slots : List TxnId) : List TxnId :=
  nextIn members x :: slots.map (mask scc)

theorem nextIn_cases (members : List TxnId) (x : TxnId) :
    (nextIn members x = kSentinelTxnId ∧ ∀ y ∈ members, y ≤ x) ∨
      (nextIn members x ∈ members ∧ x < nextIn members x ∧
        ∀ y ∈ members, x < y → nextIn members x ≤ y) := by
  unfold nextIn
  cases h : (members.filter fun y => x < y).min? with
  | none =>
    rw [List.min?_eq_none_iff, filter_eq_nil_iff] at h
    refine .inl ⟨rfl, fun y hy => ?_⟩
    have := h y hy
    rw [decide_eq_true_eq] at this
    exact not_lt.mp this
  | some z =>
    obtain ⟨hz, hmin⟩ := List.min?_eq_some_iff.mp h
    rw [mem_filter, decide_eq_true_eq] at hz
    refine .inr ⟨hz.1, hz.2, fun y hy hxy => hmin y ?_⟩
    rw [mem_filter, decide_eq_true_eq]
    exact ⟨hy, hxy⟩

/-- What the slots of `x` lose and gain for the target `y`. -/
def slotChange (scc members : List TxnId) (slots : TxnId → List TxnId) (x y : TxnId) : ℤ :=
  ((chained scc members x (slots x)).count y : ℤ) - ((kSentinelTxnId :: slots x).count y : ℤ)

variable {scc members : List TxnId} {y x : TxnId} {slots : TxnId → List TxnId}

theorem count_map_mask {slots : List TxnId} (hy : y ≠ kSentinelTxnId) :
    (slots.map (mask scc)).count y = if y ∈ scc then 0 else slots.count y := by
  induction slots with
  | nil => simp
  | cons v slots ih =>
    rw [map_cons, count_cons, count_cons, ih]
    by_cases hv : v ∈ scc
    · have h1 : mask scc v = kSentinelTxnId := if_pos hv
      by_cases hyv : v = y
      · subst hyv
        simp [h1, hv, hy.symm]
      · simp [h1, hyv, hy.symm]
    · have h1 : mask scc v = v := if_neg hv
      by_cases hyv : v = y
      · subst hyv
        simp [h1, hv]
      · simp [h1, hyv]

theorem slotChange_eq (hy : y ≠ kSentinelTxnId) :
    slotChange scc members slots x y = (if nextIn members x = y then 1 else 0) -
      (if y ∈ scc then ((slots x).count y : ℤ) else 0) := by
  rw [slotChange, chained, count_cons, count_cons, count_map_mask hy]
  by_cases hs : y ∈ scc <;> by_cases hn : nextIn members x = y <;> simp [hs, hn, hy.symm]

/-- Only members are concerned. -/
theorem slotChange_of_notMem (hsub : ∀ z ∈ members, z ∈ scc) (hy : y ≠ kSentinelTxnId) (hys : y ∉ scc) :
    slotChange scc members slots x y = 0 := by
  have hn : nextIn members x ≠ y := by
    rintro rfl
    rcases nextIn_cases members x with h | h
    · exact hy h.1
    · exact hys (hsub _ h.1)
  rw [slotChange_eq hy, if_neg hn, if_neg hys, sub_zero]

/-! ## One member -/

namespace TxnInfoUpdates

variable {scc : List TxnId}

variable {us : TxnInfoUpdates} {slots : List TxnId}

theorem removeEdges_spec (h : ∀ w ∈ slots, w ∈ scc → w ∈ us) :
    ∃ us', us.removeEdges scc slots = some (us', slots.map (mask scc)) ∧
      ∀ y, us'.lookup y = (us.lookup y).map fun u =>
        { u with numWaitingFor := u.numWaitingFor - if y ∈ scc then (slots.count y : ℤ) else 0 } := by
  induction slots generalizing us with
  | nil =>
    refine ⟨us, rfl, fun y => ?_⟩
    cases us.lookup y <;> simp
  | cons v slots ih =>
    have hrest : ∀ w ∈ slots, w ∈ scc → w ∈ us := fun w hw => h w (mem_cons_of_mem v hw)
    by_cases hv : v ∈ scc
    · obtain ⟨us', h1, h2⟩ := @ih (AssocMap.modify us v fun u =>
        { u with numWaitingFor := u.numWaitingFor - 1 })
        (fun w hw hws => mem_modify.mpr (hrest w hw hws))
      refine ⟨us', ?_, fun y => ?_⟩
      · rw [removeEdges, if_pos hv, if_pos (h v mem_cons_self hv), h1, map_cons, mask,
          if_pos hv]
        rfl
      · rw [h2, lookup_modify]
        by_cases hy : y = v
        · subst hy
          cases us.lookup y with
          | none => simp
          | some u =>
            simp only [hv, if_true, map_some, count_cons_self, Nat.cast_add,
              Nat.cast_one]
            rw [sub_sub, add_comm]
        · rw [if_neg hy, count_cons_of_ne (Ne.symm hy)]
    · obtain ⟨us', h1, h2⟩ := ih hrest
      refine ⟨us', ?_, fun y => ?_⟩
      · rw [removeEdges, if_neg hv, h1, map_cons, mask, if_neg hv]
        rfl
      · rw [h2]
        by_cases hy : y ∈ scc
        · have hvy : v ≠ y := fun heq => hv (heq ▸ hy)
          rw [count_cons_of_ne hvy]
        · simp only [if_neg hy]

/-- **One member.**  Its slots are emptied and the edge to the member before it is put into
the free slot. -/
theorem resolveMember_spec (h0 : kSentinelTxnId ∉ us) (prev : Option TxnId) (h0s : kSentinelTxnId ∉ scc)
    {x : TxnId} {u : TxnInfoUpdate} (hx : us.lookup x = some u)
    (hu : u.waitedBy = kSentinelTxnId :: slots) (htgt : ∀ w ∈ slots, w ∈ scc → w ∈ us) :
    ∃ us', us.resolveMember scc prev x = some us' ∧ ∀ y, us'.lookup y = (us.lookup y).map
      fun u =>
        { numWaitingFor := u.numWaitingFor + ((if prev = some y then 1 else 0) -
            if y ∈ scc then (slots.count y : ℤ) else 0),
          waitedBy := if y = x then prev.getD kSentinelTxnId :: slots.map (mask scc)
            else u.waitedBy } := by
  have hslots : ∀ w ∈ kSentinelTxnId :: slots, w ∈ scc → w ∈ us := by
    intro w hw hws
    rcases mem_cons.mp hw with rfl | hw
    · exact absurd hws h0s
    · exact htgt w hw hws
  obtain ⟨us₁, h1, h2⟩ := removeEdges_spec hslots
  have hmask : (kSentinelTxnId :: slots).map (mask scc) =
      kSentinelTxnId :: slots.map (mask scc) := by
    rw [map_cons, mask, if_neg h0s]
  have hcount : ∀ y, us.lookup y ≠ none →
      (kSentinelTxnId :: slots).count y = slots.count y := by
    intro y hy
    refine count_cons_of_ne ?_
    rintro rfl
    exact hy (not_mem_iff_lookup.mp h0)
  rw [hmask] at h1
  cases prev with
  | none =>
    refine ⟨AssocMap.modify us₁ x fun u =>
      { u with waitedBy := kSentinelTxnId :: slots.map (mask scc) }, ?_, fun y => ?_⟩
    · simp only [resolveMember, hx, hu, h1, bind_some]
    · rw [AssocMap.lookup_modify_map, h2, Option.map_map]
      cases hl : us.lookup y with
      | none => rfl
      | some v =>
        have hc := hcount y (by rw [hl]; exact some_ne_none v)
        simp only [map_some, Function.comp_apply, hc, some_inj, reduceCtorEq,
          if_false, zero_sub, getD_none]
        split_ifs <;> rfl
  | some other =>
    refine ⟨AssocMap.modify (AssocMap.modify us₁ x fun u =>
      { u with waitedBy := other :: slots.map (mask scc) }) other fun u =>
        { u with numWaitingFor := u.numWaitingFor + 1 }, ?_, fun y => ?_⟩
    · simp only [resolveMember, hx, hu, h1, bind_some, addEdge, if_true, map_some]
    · rw [AssocMap.lookup_modify_map, AssocMap.lookup_modify_map, h2, Option.map_map,
        Option.map_map]
      cases hl : us.lookup y with
      | none => rfl
      | some v =>
        have hc := hcount y (by rw [hl]; exact some_ne_none v)
        simp only [map_some, Function.comp_apply, hc, some_inj,
          getD_some, eq_comm (a := other)]
        split_ifs <;> congr 1 <;> ring

end TxnInfoUpdates

/-! ## One component -/

/-- In a descending list the next larger member stands right before. -/
theorem nextIn_append {pre rest : List TxnId} (hdesc : (pre ++ x :: rest).Pairwise (· > ·)) :
    nextIn (pre ++ x :: rest) x = pre.getLast?.getD kSentinelTxnId := by
  obtain ⟨hpre, hrest, hcross⟩ := pairwise_append.mp hdesc
  have hle : ∀ y ∈ x :: rest, y ≤ x := by
    intro y hy
    rcases mem_cons.mp hy with rfl | hy
    · exact le_rfl
    · exact ((pairwise_cons.mp hrest).1 y hy).le
  rcases eq_nil_or_concat' pre with rfl | ⟨front, z, rfl⟩
  · rcases nextIn_cases ([] ++ x :: rest) x with h | h
    · exact h.1
    · exact absurd (hle _ h.1) (not_le.mpr h.2.1)
  · have hz : z ∈ front ++ [z] := mem_append_right _ (mem_singleton_self z)
    have hxz : x < z := hcross z hz x mem_cons_self
    have hlast : (front ++ [z]).getLast?.getD kSentinelTxnId = z := by simp
    rw [hlast]
    rcases nextIn_cases (front ++ [z] ++ x :: rest) x with h | ⟨hmem, hlt, hmin⟩
    · exact absurd (h.2 z (mem_append_left _ hz)) (not_le.mpr hxz)
    · refine le_antisymm (hmin z (mem_append_left _ hz) hxz) ?_
      rcases mem_append.mp hmem with hm | hm
      · rcases mem_append.mp hm with hm | hm
        · exact ((pairwise_append.mp hpre).2.2 _ hm z (mem_singleton_self z)).le
        · exact (mem_singleton.mp hm).ge
      · exact absurd (hle _ hm) (not_le.mpr hlt)

namespace TxnInfoUpdates

variable {scc : List TxnId} {slots : TxnId → List TxnId}

/-- The loop over the members that are left, after those in `pre`. -/
theorem resolveMembers_spec (h0s : kSentinelTxnId ∉ scc) {members : List TxnId} :
    ∀ {pre : List TxnId} {us : TxnInfoUpdates}, (pre ++ members).Pairwise (· > ·) →
    kSentinelTxnId ∉ us →
    (∀ x ∈ members, ∃ u, us.lookup x = some u ∧ u.waitedBy = kSentinelTxnId :: slots x) →
    (∀ x ∈ members, ∀ w ∈ slots x, w ∈ scc → w ∈ us) →
    ∃ us', us.resolveMembers scc pre.getLast? members = some us' ∧
      ∀ y, us'.lookup y = (us.lookup y).map fun u =>
        { numWaitingFor := u.numWaitingFor +
            (members.map fun x => slotChange scc (pre ++ members) slots x y).sum,
          waitedBy := if y ∈ members then chained scc (pre ++ members) y (slots y)
            else u.waitedBy } := by
  induction members with
  | nil =>
    intro pre us _ _ _ _
    refine ⟨us, rfl, fun y => ?_⟩
    cases us.lookup y <;> simp
  | cons x members ih =>
    intro pre us hdesc h0 hslots htgt
    obtain ⟨u, hx, hu⟩ := hslots x mem_cons_self
    obtain ⟨us₁, h1, h2⟩ := resolveMember_spec h0 pre.getLast? h0s hx hu
      (htgt x mem_cons_self)
    have hmem : ∀ y, y ∈ us₁ ↔ y ∈ us := fun y => by
      rw [mem_iff_lookup, h2, mem_iff_lookup]
      cases us.lookup y <;> simp
    have hpre : pre ++ x :: members = (pre ++ [x]) ++ members := by simp
    have hxm : x ∉ members := fun hm => by
      have := (pairwise_cons.mp (pairwise_append.mp hdesc).2.1).1 x hm
      exact lt_irrefl x this
    have hslots' : ∀ y ∈ members, ∃ u, us₁.lookup y = some u ∧
        u.waitedBy = kSentinelTxnId :: slots y := by
      intro y hy
      obtain ⟨v, hv, hvw⟩ := hslots y (mem_cons_of_mem x hy)
      have hyx : y ≠ x := fun heq => hxm (heq ▸ hy)
      refine ⟨_, by rw [h2, hv]; rfl, ?_⟩
      simp only [if_neg hyx, hvw]
    obtain ⟨us', h3, h4⟩ := ih (hpre ▸ hdesc) (fun hm => h0 ((hmem _).mp hm)) hslots'
      fun y hy w hw hws => (hmem w).mpr (htgt y (mem_cons_of_mem x hy) w hw hws)
    refine ⟨us', ?_, fun y => ?_⟩
    · rw [resolveMembers, h1, bind_some]
      simpa using h3
    · rw [h4, h2, Option.map_map, ← hpre]
      cases hl : us.lookup y with
      | none => rfl
      | some v =>
        have hy0 : y ≠ kSentinelTxnId := fun heq =>
          h0 (mem_iff_lookup.mpr ⟨v, heq ▸ hl⟩)
        have hnext := nextIn_append hdesc
        have hprev : (pre.getLast? = some y) ↔ nextIn (pre ++ x :: members) x = y := by
          rw [hnext]
          cases pre.getLast? with
          | none => simpa using hy0.symm
          | some z => simp
        simp only [map_some, Function.comp_apply, some_inj, map_cons,
          sum_cons, slotChange_eq hy0, hprev, TxnInfoUpdate.mk.injEq]
        refine ⟨by ring, ?_⟩
        by_cases hyx : y = x
        · subst hyx
          rw [if_neg hxm, if_pos rfl, if_pos mem_cons_self, chained, hnext]
        · simp [hyx]

end TxnInfoUpdates

/-! ## All components of a run -/

namespace DeadlockResolver

open TxnInfoUpdates

variable {us : TxnInfoUpdates} {scc : List TxnId} {slots : TxnId → List TxnId}

theorem mem_localMembers {x : TxnId} : x ∈ localMembers us scc ↔ x ∈ scc ∧ x ∈ us := by
  simp [localMembers, mem_insertionSort]

theorem localMembers_congr {us' : TxnInfoUpdates} (h : ∀ x, x ∈ us' ↔ x ∈ us) (scc : List TxnId) :
    localMembers us' scc = localMembers us scc := by
  simp only [localMembers, h]

/-- The local members are taken in descending order. -/
theorem localMembers_desc (us : TxnInfoUpdates) (hnd : scc.Nodup) :
    (localMembers us scc).Pairwise (· > ·) := by
  refine Pairwise.filter _ (pairwise_reverse.mpr ?_)
  have hsorted := pairwise_insertionSort (· ≤ ·) scc
  have hnd' : (scc.insertionSort (· ≤ ·)).Nodup := (perm_insertionSort _ scc).nodup_iff.mpr hnd
  exact hsorted.imp₂ (fun a b hle hne => lt_of_le_of_ne hle hne) hnd'

/-- The component of `x` among those listed. -/
def componentOf (sccs : List (List TxnId)) (x : TxnId) : Option (List TxnId) :=
  sccs.find? fun c => decide (x ∈ c)

/-- The change of the counter of `y` when the components are resolved. -/
def countChange (us : TxnInfoUpdates) (slots : TxnId → List TxnId) (sccs : List (List TxnId))
    (y : TxnId) : ℤ :=
  (sccs.map fun c => ((localMembers us c).map fun x =>
    slotChange c (localMembers us c) slots x y).sum).sum

theorem resolveDeadlock_spec {r : DeadlockResolver} (h0 : kSentinelTxnId ∉ r.txnInfoUpdates)
    (hnd : scc.Nodup) (h0s : kSentinelTxnId ∉ scc)
    (hslots : ∀ x ∈ scc, ∀ u, r.txnInfoUpdates.lookup x = some u →
      u.waitedBy = kSentinelTxnId :: slots x)
    (htgt : ∀ x ∈ scc, x ∈ r.txnInfoUpdates → ∀ w ∈ slots x, w ∈ scc → w ∈ r.txnInfoUpdates) :
    ∃ us', r.resolveDeadlock scc = some { r with
        txnInfoUpdates := us',
        toBeUpdated := r.toBeUpdated ++ localMembers r.txnInfoUpdates scc } ∧
      ∀ y, us'.lookup y = (r.txnInfoUpdates.lookup y).map fun u =>
        { numWaitingFor := u.numWaitingFor + ((localMembers r.txnInfoUpdates scc).map fun x =>
            slotChange scc (localMembers r.txnInfoUpdates scc) slots x y).sum,
          waitedBy := if y ∈ scc then
            chained scc (localMembers r.txnInfoUpdates scc) y (slots y) else u.waitedBy } := by
  have hdesc : ([] ++ localMembers r.txnInfoUpdates scc).Pairwise (· > ·) :=
    localMembers_desc r.txnInfoUpdates hnd
  obtain ⟨us', h1, h2⟩ := resolveMembers_spec h0s hdesc h0
    (fun x hx => by
      obtain ⟨hxs, hxu⟩ := mem_localMembers.mp hx
      obtain ⟨u, hu⟩ := mem_iff_lookup.mp hxu
      exact ⟨u, hu, hslots x hxs u hu⟩)
    (fun x hx => htgt x (mem_localMembers.mp hx).1 (mem_localMembers.mp hx).2)
  refine ⟨us', ?_, fun y => ?_⟩
  · have h3 : r.txnInfoUpdates.resolveMembers scc none (localMembers r.txnInfoUpdates scc) =
        some us' := h1
    rw [resolveDeadlock, h3]
    rfl
  · rw [h2, nil_append]
    cases hl : r.txnInfoUpdates.lookup y with
    | none => rfl
    | some u =>
      have hy : y ∈ r.txnInfoUpdates := mem_iff_lookup.mpr ⟨u, hl⟩
      simp only [map_some, mem_localMembers, hy, and_true]

/-- **All components of a run.**  They do not meet, so each finds the slots of its members as
they were prepared. -/
theorem resolveAll_spec {sccs : List (List TxnId)} :
    ∀ {r : DeadlockResolver}, kSentinelTxnId ∉ r.txnInfoUpdates →
    (∀ c ∈ sccs, c.Nodup ∧ kSentinelTxnId ∉ c) → sccs.Pairwise Disjoint →
    (∀ c ∈ sccs, ∀ x ∈ c, ∀ u, r.txnInfoUpdates.lookup x = some u →
      u.waitedBy = kSentinelTxnId :: slots x) →
    (∀ c ∈ sccs, ∀ x ∈ c, x ∈ r.txnInfoUpdates → ∀ w ∈ slots x, w ∈ c →
      w ∈ r.txnInfoUpdates) →
    ∃ us', r.resolveAll sccs = some { r with
        txnInfoUpdates := us',
        toBeUpdated := r.toBeUpdated ++ sccs.flatMap (localMembers r.txnInfoUpdates) } ∧
      ∀ y, us'.lookup y = (r.txnInfoUpdates.lookup y).map fun u =>
        { numWaitingFor := u.numWaitingFor + countChange r.txnInfoUpdates slots sccs y,
          waitedBy := match componentOf sccs y with
            | none => u.waitedBy
            | some c => chained c (localMembers r.txnInfoUpdates c) y (slots y) } := by
  induction sccs with
  | nil =>
    intro r _ _ _ _ _
    refine ⟨r.txnInfoUpdates, by simp [resolveAll], fun y => ?_⟩
    cases r.txnInfoUpdates.lookup y <;> simp [countChange, componentOf]
  | cons c sccs ih =>
    intro r h0 hok hdis hslots htgt
    obtain ⟨hc, hdis'⟩ := pairwise_cons.mp hdis
    obtain ⟨us₁, h1, h2⟩ := resolveDeadlock_spec h0
      (hok c mem_cons_self).1 (hok c mem_cons_self).2 (hslots c mem_cons_self)
      (htgt c mem_cons_self)
    have hmem : ∀ y, y ∈ us₁ ↔ y ∈ r.txnInfoUpdates := fun y => by
      rw [mem_iff_lookup, h2, mem_iff_lookup]
      cases r.txnInfoUpdates.lookup y <;> simp
    have hloc : localMembers us₁ = localMembers r.txnInfoUpdates :=
      funext (localMembers_congr hmem)
    obtain ⟨us', h3, h4⟩ := ih (r := { r with
        txnInfoUpdates := us₁,
        toBeUpdated := r.toBeUpdated ++ localMembers r.txnInfoUpdates c })
      (fun h => h0 ((hmem _).mp h)) (fun d hd => hok d (mem_cons_of_mem c hd)) hdis'
      (fun d hd x hx u hu => by
        have hxc : x ∉ c := fun h => hc d hd h hx
        rw [h2] at hu
        obtain ⟨v, hv, rfl⟩ := map_eq_some_iff.mp hu
        simp only [if_neg hxc]
        exact hslots d (mem_cons_of_mem c hd) x hx v hv)
      (fun d hd x hx hxu w hw hwd => (hmem w).mpr
        (htgt d (mem_cons_of_mem c hd) x hx ((hmem x).mp hxu) w hw hwd))
    refine ⟨us', ?_, fun y => ?_⟩
    · rw [resolveAll, h1, bind_some, h3]
      simp only [hloc, flatMap_cons, append_assoc]
    · rw [h4, h2, Option.map_map]
      cases hl : r.txnInfoUpdates.lookup y with
      | none => rfl
      | some u =>
        simp only [map_some, Function.comp_apply, some_inj,
          TxnInfoUpdate.mk.injEq, countChange, map_cons, sum_cons, hloc]
        refine ⟨by ring, ?_⟩
        by_cases hyc : y ∈ c
        · have hnone : componentOf sccs y = none := by
            rw [componentOf, List.find?_eq_none]
            intro d hd hy
            exact hc d hd hyc (of_decide_eq_true hy)
          have hsome : componentOf (c :: sccs) y = some c := by simp [componentOf, hyc]
          simp only [hnone, hsome, if_pos hyc]
        · have hrest : componentOf (c :: sccs) y = componentOf sccs y := by
            simp [componentOf, hyc]
          simp only [hrest, if_neg hyc]

/-! ## Copying the updates into the lock manager -/

/-- An entry of the lock manager after its update. -/
def appliedInfo (update : TxnInfoUpdate) (txn : TxnInfo) : TxnInfo :=
  { txn with
    deadlocked := true,
    waitedBy := update.waitedBy ++ txn.waitedBy.drop update.waitedBy.length,
    numWaitingFor := txn.numWaitingFor + update.numWaitingFor }

section Apply

variable {us : TxnInfoUpdates} {info info' : TxnInfoMap} {xs ready : List TxnId}

theorem applyUpdate_eq_some {x : TxnId} {res : TxnInfoMap × Bool} :
    applyUpdate us info x = some res ↔ ∃ u ti, us.lookup x = some u ∧ info.lookup x = some ti ∧
      u.waitedBy.length ≤ ti.waitedBy.length ∧
      res = (info.insert x (appliedInfo u ti), (appliedInfo u ti).isReady) := by
  rw [applyUpdate, bind_eq_some_iff]
  simp only [bind_eq_some_iff]
  constructor
  · rintro ⟨u, hu, ti, hti, h⟩
    split_ifs at h with hlen
    exact ⟨u, ti, hu, hti, hlen, (some_inj.mp h).symm⟩
  · rintro ⟨u, ti, hu, hti, hlen, rfl⟩
    exact ⟨u, hu, ti, hti, by rw [if_pos hlen]; rfl⟩

/-- What the loop does: every member was there, its entry is updated, the others stay. -/
theorem applyUpdates_spec (hnd : xs.Nodup) (h : applyUpdates us xs info = some (info', ready)) :
    (∀ x ∈ xs, ∃ u ti, us.lookup x = some u ∧ info.lookup x = some ti ∧
      u.waitedBy.length ≤ ti.waitedBy.length ∧ info'.lookup x = some (appliedInfo u ti)) ∧
    (∀ y, y ∉ xs → info'.lookup y = info.lookup y) ∧
    ready = xs.filter fun x => (info'.lookup x).elim false TxnInfo.isReady := by
  induction xs generalizing info ready with
  | nil =>
    cases h
    exact ⟨by simp, fun y _ => rfl, rfl⟩
  | cons x xs ih =>
    obtain ⟨hx, hnd'⟩ := nodup_cons.mp hnd
    rw [applyUpdates, bind_eq_some_iff] at h
    obtain ⟨⟨info₁, rd⟩, h1, h2⟩ := h
    obtain ⟨u, ti, hu, hti, hlen, ⟨⟩⟩ := applyUpdate_eq_some.mp h1
    obtain ⟨⟨info₂, rest⟩, h3, ⟨⟩⟩ := map_eq_some_iff.mp h2
    obtain ⟨k1, k2, k3⟩ := ih hnd' h3
    have hxl : info₂.lookup x = some (appliedInfo u ti) := by
      rw [k2 x hx, lookup_insert', if_pos rfl]
    refine ⟨fun y hy => ?_, fun y hy => ?_, ?_⟩
    · rcases mem_cons.mp hy with rfl | hy
      · exact ⟨u, ti, hu, hti, hlen, hxl⟩
      · obtain ⟨v, tv, hv, htv, hle, hl⟩ := k1 y hy
        have hyx : y ≠ x := fun heq => hx (heq ▸ hy)
        rw [lookup_insert', if_neg hyx] at htv
        exact ⟨v, tv, hv, htv, hle, hl⟩
    · rw [mem_cons, not_or] at hy
      rw [k2 y hy.2, lookup_insert', if_neg hy.1]
    · rw [filter_cons, hxl, ← k3]
      rfl

theorem mem_applyUpdates (hnd : xs.Nodup) (h : applyUpdates us xs info = some (info', ready))
    {y : TxnId} : y ∈ info' ↔ y ∈ info := by
  obtain ⟨h1, h2, -⟩ := applyUpdates_spec hnd h
  by_cases hy : y ∈ xs
  · obtain ⟨u, ti, -, hti, -, hl⟩ := h1 y hy
    exact iff_of_true (mem_iff_lookup.mpr ⟨_, hl⟩) (mem_iff_lookup.mpr ⟨_, hti⟩)
  · rw [mem_iff_lookup, mem_iff_lookup, h2 y hy]

/-- The number of occurrences of `v` changes by what the members' lists gain and lose. -/
theorem waitCount_applyUpdates (hnd : xs.Nodup)
    (h : applyUpdates us xs info = some (info', ready)) {v : TxnId} {d : TxnId → ℤ}
    (hd : ∀ x ∈ xs, ∀ u ti, us.lookup x = some u → info.lookup x = some ti →
      ((appliedInfo u ti).waitedBy.count v : ℤ) - (ti.waitedBy.count v : ℤ) = d x) :
    waitCount info' v = waitCount info v + (xs.map d).sum := by
  induction xs generalizing info ready with
  | nil =>
    cases h
    simp
  | cons x xs ih =>
    obtain ⟨hx, hnd'⟩ := nodup_cons.mp hnd
    rw [applyUpdates, bind_eq_some_iff] at h
    obtain ⟨⟨info₁, rd⟩, h1, h2⟩ := h
    obtain ⟨u, ti, hu, hti, -, ⟨⟩⟩ := applyUpdate_eq_some.mp h1
    obtain ⟨⟨info₂, rest⟩, h3, ⟨⟩⟩ := map_eq_some_iff.mp h2
    have hcount : waitCount (info.insert x (appliedInfo u ti)) v = waitCount info v + d x := by
      have hmod := total_modify (f := fun _ t => (t.waitedBy.count v : ℤ))
        (appliedInfo u) hti
      rw [modify_of_lookup hti] at hmod
      rw [← hd x mem_cons_self u ti hu hti]
      unfold waitCount
      rw [hmod]
      ring
    rw [ih hnd' h3 fun y hy v' tv hv' htv => ?_, hcount, map_cons, sum_cons, add_assoc]
    have hyx : y ≠ x := fun heq => hx (heq ▸ hy)
    rw [lookup_insert', if_neg hyx] at htv
    exact hd y (mem_cons_of_mem x hy) v' tv hv' htv

end Apply

end DeadlockResolver

end Slog
