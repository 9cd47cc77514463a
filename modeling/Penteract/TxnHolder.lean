/-
# Holders of transactions

The scheduler of a partition keeps a holder for every transaction that it has seen, and drops it
when the transaction is done and as many parts have arrived as the first one announced.  The
parts are counted before the transaction is split by partition and announced after it, and for a
remaster the two differ.
-/
import Penteract.LockCounts

namespace Slog

open List Option

/-- `loTxns` has one place for every region. -/
structure TxnHolder where
  mainTxnIdx : RegionId
  loTxns : List (Option Transaction)
  aborting : Bool := false
  done : Bool := false
  numLoTxns : ℕ := 1
  expectedNumLoTxns : ℕ
  deriving DecidableEq, Repr

namespace TxnHolder

def new (numRegions : ℕ) (t : Transaction) : TxnHolder :=
  { mainTxnIdx := t.home.toNat,
    loTxns := (List.replicate numRegions none).set t.home.toNat (some t),
    expectedNumLoTxns := t.internal.involvedRegions.length }

/-- `none` is the failed check that the region exists; the flag says whether the part is new. -/
def addLockOnlyTxn (h : TxnHolder) (t : Transaction) : Option (TxnHolder × Bool) :=
  match h.loTxns[t.home.toNat]? with
  | none => none
  | some (some _) => some (h, false)
  | some none =>
    some ({ h with
      loTxns := h.loTxns.set t.home.toNat (some t),
      numLoTxns := h.numLoTxns + 1 }, true)

/-- The main part is there; reading it is a failed check otherwise. -/
def hasTxn (h : TxnHolder) : Bool := (h.loTxns[h.mainTxnIdx]?.join).isSome

/-- The worker takes the parts out when it has finished the transaction. -/
def finalizeAndRelease (h : TxnHolder) : TxnHolder :=
  { h with loTxns := h.loTxns.map fun _ => none }

def isReadyForGc (h : TxnHolder) : Bool := h.done && h.numLoTxns == h.expectedNumLoTxns

end TxnHolder

/-- The place of a transaction in `active_txns_`. -/
abbrev ActiveTxn := Option TxnHolder

/-- `ProcessTransaction`, as far as the holder is concerned.  `aborted` is the status of the part:
a part that the sequencer gave up triggers the abort of the transaction.  `none` is a failed
check. -/
def processTransaction (numRegions : ℕ) (active : ActiveTxn) (t : Transaction) (aborted : Bool) :
    Option ActiveTxn :=
  match active with
  | none => some (some { TxnHolder.new numRegions t with aborting := aborted })
  | some h =>
    (h.addLockOnlyTxn t).bind fun (h, added) =>
      if !added then some (some h)
      else if h.aborting then some (if h.isReadyForGc then none else some h)
      else if h.hasTxn then some (some { h with aborting := aborted })
      else none

/-- The scheduler hears from the worker that the transaction is finished. -/
def setDone (active : ActiveTxn) : Option ActiveTxn :=
  active.map fun h =>
    let h := { h with done := true }
    if h.isReadyForGc then none else some h

/-! ## The life of a holder -/

inductive HolderEvent where
  | arrive (u : Transaction) (aborted : Bool)
  | dispatch
  | finish
  | done
  deriving DecidableEq, Repr

/-- The place of one transaction, and what has happened to the transaction. -/
structure HolderRun where
  active : ActiveTxn := none
  arrived : List Transaction := []
  dispatched : Bool := false
  finished : Bool := false
  done : Bool := false
  erased : ℕ := 0
  deriving DecidableEq, Repr

namespace HolderRun

/-- How often the place was emptied, if it is now `active`. -/
def erasedBy (s : HolderRun) (active : ActiveTxn) : ℕ :=
  if s.active.isSome ∧ active.isNone then s.erased + 1 else s.erased

/-- The parts have requested as many locks as the transaction waits for. -/
def MayBeGranted (us : List Transaction) : Prop :=
  ∃ u ∈ us, u.numRequiredLocks ≤ ((us.map fun v => v.lockRequests.length).sum : ℕ)

instance (us : List Transaction) : Decidable (MayBeGranted us) :=
  inferInstanceAs (Decidable (∃ u ∈ us, _))

variable (n : ℕ) (us : List Transaction)

/-- The parts `us` arrive in any order, each once.  The transaction is dispatched when it is
aborted, or at the earliest when it has requested as many locks as it waits for; then a worker
finishes it, and the scheduler is told. -/
def step (s : HolderRun) : HolderEvent → Option HolderRun
  | .arrive u aborted =>
    if u ∈ us ∧ u ∉ s.arrived then
      (processTransaction n s.active u aborted).map fun active =>
        { s with active := active, arrived := s.arrived ++ [u], erased := s.erasedBy active }
    else none
  | .dispatch =>
    s.active.bind fun h =>
      if h.aborting ∨ MayBeGranted s.arrived then some { s with dispatched := true } else none
  | .finish =>
    s.active.bind fun h =>
      if s.dispatched ∧ ¬ s.finished then
        some { s with active := some h.finalizeAndRelease, finished := true }
      else none
  | .done =>
    if s.finished ∧ ¬ s.done then
      (setDone s.active).map fun active =>
        { s with active := active, done := true, erased := s.erasedBy active }
    else none

/-- **The holder is dropped exactly once**, when the transaction is done and all parts have
arrived, it is there from the first part until then, and no message stops the scheduler. -/
structure Ok (s : HolderRun) : Prop where
  erased : s.erased = if s.done ∧ s.arrived.length = us.length then 1 else 0
  active : s.active.isSome ↔ s.arrived ≠ [] ∧ s.erased = 0
  accepts : ∀ u ∈ us, u ∉ s.arrived → ∀ b, (s.step n us (.arrive u b)).isSome
  told : s.finished → ¬ s.done → (s.step n us .done).isSome

end HolderRun

/-- What the parts of a transaction have to satisfy: they are for different regions, each
announces how many there are, and none is missing when the locks may be granted. -/
structure PartsOk (n : ℕ) (us : List Transaction) : Prop where
  nodup : us.Nodup
  home_lt : ∀ u ∈ us, u.home.toNat < n
  home_inj : ∀ u ∈ us, ∀ v ∈ us, u.home.toNat = v.home.toNat → u = v
  expected : ∀ u ∈ us, u.internal.involvedRegions.length = us.length
  complete : ∀ vs : List Transaction, vs.Nodup → (∀ v ∈ vs, v ∈ us) →
    HolderRun.MayBeGranted vs → vs.length = us.length

namespace HolderRun

/-- What a holder knows, while the transaction is there. -/
structure Holds (n : ℕ) (us : List Transaction) (s : HolderRun) (h : TxnHolder) : Prop where
  arrived : s.arrived ≠ []
  waits : ¬ (s.done ∧ s.arrived.length = us.length)
  num : h.numLoTxns = s.arrived.length
  expected : h.expectedNumLoTxns = us.length
  done : h.done = s.done
  free : ∀ u ∈ us, u ∉ s.arrived → h.loTxns[u.home.toNat]? = some none
  hasTxn : s.finished = false → h.hasTxn
  dispatched : s.dispatched → h.aborting ∨ s.arrived.length = us.length
  finished : s.finished → s.dispatched
  finished_of_done : s.done → s.finished

structure Inv (n : ℕ) (us : List Transaction) (s : HolderRun) : Prop where
  nodup : s.arrived.Nodup
  sub : ∀ u ∈ s.arrived, u ∈ us
  erased : s.erased = if s.done ∧ s.arrived.length = us.length then 1 else 0
  absent : s.active = none →
    (s.arrived = [] ∧ s.dispatched = false ∧ s.finished = false ∧ s.done = false) ∨
      (s.done ∧ s.arrived.length = us.length)
  holds : ∀ h, s.active = some h → Holds n us s h

namespace Inv

variable {n : ℕ} {us : List Transaction} {s s' : HolderRun}

theorem init : Inv n us {} where
  nodup := nodup_nil
  sub := by simp
  erased := by simp
  absent _ := .inl ⟨rfl, rfl, rfl, rfl⟩
  holds _ h := by cases h

variable {u : Transaction}

/-- A part is missing as long as one can arrive. -/
theorem length_lt (hI : Inv n us s) (hu : u ∈ us) (hnew : u ∉ s.arrived) :
    s.arrived.length < us.length := by
  have hsub : (u :: s.arrived).Subperm us := by
    refine subperm_of_subset (nodup_cons.mpr ⟨hnew, hI.nodup⟩) fun v hv => ?_
    rcases mem_cons.mp hv with rfl | hv
    · exact hu
    · exact hI.sub v hv
  simpa using hsub.length_le

theorem erased_eq_zero (hI : Inv n us s) (hlt : s.arrived.length < us.length) :
    s.erased = 0 := by
  rw [hI.erased, if_neg fun h => hlt.ne h.2]

/-- The state in which the place is `active`, after the arrival of `u`. -/
def afterArrival (s : HolderRun) (u : Transaction) (active : ActiveTxn) : HolderRun :=
  { s with active := active, arrived := s.arrived ++ [u], erased := s.erasedBy active }

theorem step_arrive (hu : u ∈ us) (hnew : u ∉ s.arrived) (b : Bool) :
    s.step n us (.arrive u b) = (processTransaction n s.active u b).map (afterArrival s u) := by
  rw [step, if_pos ⟨hu, hnew⟩]
  rfl

/-- What an arrival has to establish. -/
theorem afterArrival_inv (hI : Inv n us s) (hu : u ∈ us) (hnew : u ∉ s.arrived) {active : ActiveTxn}
    (hnone : active = none →
      s.active.isSome ∧ s.done ∧ s.arrived.length + 1 = us.length)
    (hsome : ∀ h, active = some h → Holds n us (afterArrival s u active) h) :
    Inv n us (afterArrival s u active) := by
  have hzero := hI.erased_eq_zero (hI.length_lt hu hnew)
  refine ⟨nodup_append.mpr ⟨hI.nodup, nodup_singleton _, ?_⟩, fun v hv => ?_, ?_,
    fun hactive => .inr ?_, hsome⟩
  · intro v hv w hw hvw
    rw [mem_singleton] at hw
    exact hnew (hw ▸ hvw ▸ hv)
  · rcases mem_append.mp hv with hv | hv
    · exact hI.sub v hv
    · exact mem_singleton.mp hv ▸ hu
  · cases active with
    | none =>
      obtain ⟨hs, hdone, hlen⟩ := hnone rfl
      simp [afterArrival, erasedBy, hs, hdone, hlen, hzero]
    | some h =>
      rw [if_neg (hsome h rfl).waits]
      simp [afterArrival, erasedBy, hzero]
  · obtain ⟨-, hdone, hlen⟩ := hnone hactive
    exact ⟨hdone, by simp [afterArrival, hlen]⟩

/-- The first part makes a holder. -/
theorem arrive_first (hus : PartsOk n us) (hI : Inv n us s) (hactive : s.active = none) (hu : u ∈ us)
    (hnew : u ∉ s.arrived) (b : Bool) : ∃ s', s.step n us (.arrive u b) = some s' ∧ Inv n us s' := by
  have hlt := hI.length_lt hu hnew
  obtain ⟨hnil, hdis, hfin, hdone⟩ := (hI.absent hactive).resolve_right fun h => hlt.ne h.2
  refine ⟨_, by rw [step_arrive hu hnew, hactive]; rfl,
    hI.afterArrival_inv hu hnew (fun h => by cases h) fun h hh => ?_⟩
  cases hh
  refine ⟨by simp [afterArrival], by simp [afterArrival, hdone],
    by simp [afterArrival, hnil, TxnHolder.new], hus.expected u hu, hdone.symm,
    fun v hv hvnew => ?_, fun _ => ?_, by simp [afterArrival, hdis], by simp [afterArrival, hfin],
    by simp [afterArrival, hdone]⟩
  · have hne : u.home.toNat ≠ v.home.toNat := by
      intro heq
      rw [hus.home_inj u hu v hv heq] at hvnew
      exact hvnew (by simp [afterArrival])
    have hplace : ((List.replicate n none).set u.home.toNat (some u))[v.home.toNat]? =
        some none := by
      rw [List.getElem?_set_ne hne, List.getElem?_replicate, if_pos (hus.home_lt v hv)]
    exact hplace
  · simp [TxnHolder.hasTxn, TxnHolder.new, hus.home_lt u hu]

/-- A further part is added to the holder. -/
theorem arrive_next (hus : PartsOk n us) (hI : Inv n us s) {h : TxnHolder} (hactive : s.active = some h)
    (hu : u ∈ us) (hnew : u ∉ s.arrived) (b : Bool) :
    ∃ s', s.step n us (.arrive u b) = some s' ∧ Inv n us s' := by
  have hlt := hI.length_lt hu hnew
  have hh := hI.holds h hactive
  have hfree := hh.free u hu hnew
  obtain ⟨h', hh'⟩ : ∃ h' : TxnHolder, h' = { h with
    loTxns := h.loTxns.set u.home.toNat (some u), numLoTxns := h.numLoTxns + 1 } := ⟨_, rfl⟩
  have hadd : h.addLockOnlyTxn u = some (h', true) := by
    rw [TxnHolder.addLockOnlyTxn, hfree, hh']
  -- the holder with the new part, and possibly an abort
  have hholds : ∀ active abort, ¬ (s.done = true ∧ s.arrived.length + 1 = us.length) →
      (h.aborting = true → abort = true) →
      Holds n us (afterArrival s u active) { h' with aborting := abort } := by
    intro active abort hwaits habort
    refine ⟨by simp [afterArrival], by simpa [afterArrival] using hwaits,
      by simp [afterArrival, hh', hh.num], by rw [hh', hh.expected], by rw [hh']; exact hh.done,
      fun v hv hvnew => ?_, fun hfin => ?_, fun hdis => .inl (habort ?_), hh.finished,
      hh.finished_of_done⟩
    · simp only [afterArrival, mem_append, mem_singleton, not_or] at hvnew
      have hne : u.home.toNat ≠ v.home.toNat := fun heq =>
        hvnew.2 (hus.home_inj u hu v hv heq).symm
      rw [hh', List.getElem?_set_ne hne]
      exact hh.free v hv hvnew.1
    · have hmain := hh.hasTxn hfin
      have hne : u.home.toNat ≠ h.mainTxnIdx := by
        intro heq
        rw [TxnHolder.hasTxn, ← heq, hfree] at hmain
        simp at hmain
      simp only [TxnHolder.hasTxn, hh', List.getElem?_set_ne hne]
      exact hmain
    · exact (hh.dispatched hdis).resolve_right hlt.ne
  rw [step_arrive hu hnew, hactive, processTransaction]
  simp only [hadd, bind_some, Bool.not_true, Bool.false_eq_true, if_false]
  have habort : h'.aborting = h.aborting := by rw [hh']
  by_cases hab : h.aborting = true
  · -- nothing more than counting, and the last part drops the holder
    have hready : h'.isReadyForGc = true ↔ s.done = true ∧ s.arrived.length + 1 = us.length := by
      rw [TxnHolder.isReadyForGc, hh', Bool.and_eq_true, beq_iff_eq]
      exact and_congr (by rw [hh.done]) (by rw [hh.num, hh.expected])
    rw [habort, if_pos hab]
    refine ⟨_, rfl, hI.afterArrival_inv hu hnew (fun hnone => ?_) fun g hg => ?_⟩
    · split_ifs at hnone with hr
      exact ⟨by rw [hactive]; rfl, hready.mp hr⟩
    · split_ifs at hg with hr
      cases hg
      have hself : h' = { h' with aborting := true } := by rw [← hab, ← habort]
      rw [hself]
      exact hholds _ true (fun hc => hr (hready.mpr hc)) fun _ => rfl
  · -- the transaction is not dispatched, since a part is missing
    have hdis : s.dispatched ≠ true := fun hdis =>
      (hh.dispatched hdis).elim hab hlt.ne
    have hfin : s.finished = false := Bool.eq_false_iff.mpr fun hfin => hdis (hh.finished hfin)
    have hdone : s.done ≠ true := fun hdone => by
      simp [hh.finished_of_done hdone] at hfin
    have hholds' := hholds (some { h' with aborting := b }) b (fun hc => hdone hc.1) fun hab' =>
      absurd hab' hab
    have hmain : h'.hasTxn = true :=
      (hholds none b (fun hc => hdone hc.1) fun hab' => absurd hab' hab).hasTxn hfin
    rw [habort, if_neg hab, if_pos hmain]
    refine ⟨_, rfl, hI.afterArrival_inv hu hnew (fun hnone => by cases hnone) fun g hg => ?_⟩
    cases hg
    exact hholds'

theorem arrive (hus : PartsOk n us) (hI : Inv n us s) (hu : u ∈ us) (hnew : u ∉ s.arrived) (b : Bool) :
    ∃ s', s.step n us (.arrive u b) = some s' ∧ Inv n us s' := by
  cases hactive : s.active with
  | none => exact hI.arrive_first hus hactive hu hnew b
  | some h => exact hI.arrive_next hus hactive hu hnew b

theorem dispatch (hus : PartsOk n us) (hI : Inv n us s) (hs : s.step n us .dispatch = some s') :
    Inv n us s' := by
  rw [step, bind_eq_some_iff] at hs
  obtain ⟨h, hactive, hs⟩ := hs
  split_ifs at hs with hguard
  cases hs
  have hh := hI.holds h hactive
  refine ⟨hI.nodup, hI.sub, hI.erased, fun hnone => ?_, fun g hg => ?_⟩
  · cases hactive.symm.trans hnone
  · cases hactive.symm.trans hg
    refine ⟨hh.arrived, hh.waits, hh.num, hh.expected, hh.done, hh.free, hh.hasTxn, fun _ => ?_,
      fun _ => rfl, hh.finished_of_done⟩
    exact hguard.imp id (hus.complete s.arrived hI.nodup hI.sub)

theorem finish (hI : Inv n us s) (hs : s.step n us .finish = some s') : Inv n us s' := by
  rw [step, bind_eq_some_iff] at hs
  obtain ⟨h, hactive, hs⟩ := hs
  split_ifs at hs with hguard
  cases hs
  have hh := hI.holds h hactive
  refine ⟨hI.nodup, hI.sub, hI.erased, fun hnone => (by cases hnone), fun g hg => ?_⟩
  cases hg
  refine ⟨hh.arrived, hh.waits, hh.num, hh.expected, hh.done, fun u hu hnew => ?_,
    fun hfin => (by cases hfin), hh.dispatched, fun _ => hguard.1, fun _ => rfl⟩
  rw [TxnHolder.finalizeAndRelease, List.getElem?_map, hh.free u hu hnew, map_some]

/-- The message of the worker finds a holder, and drops it if all parts are there. -/
theorem tell (hI : Inv n us s) (hfin : s.finished = true) (hdone : s.done = false) :
    ∃ s', s.step n us .done = some s' ∧ Inv n us s' := by
  cases hactive : s.active with
  | none =>
    rcases hI.absent hactive with ⟨-, -, hfin', -⟩ | ⟨hdone', -⟩
    · simp [hfin] at hfin'
    · simp [hdone] at hdone'
  | some h =>
    have hh := hI.holds h hactive
    have hready : ({ h with done := true } : TxnHolder).isReadyForGc = true ↔
        s.arrived.length = us.length := by
      rw [TxnHolder.isReadyForGc, Bool.true_and, beq_iff_eq, hh.num, hh.expected]
    have hzero : s.erased = 0 := by rw [hI.erased]; simp [hdone]
    refine ⟨_, by rw [step, if_pos ⟨hfin, by simp [hdone]⟩, hactive]; rfl, ?_⟩
    refine ⟨hI.nodup, hI.sub, ?_, fun hnone => .inr ⟨rfl, ?_⟩, fun g hg => ?_⟩
    · by_cases hr : s.arrived.length = us.length
      · simp [erasedBy, hactive, hready.mpr hr, hzero, hr]
      · simp [erasedBy, hactive, mt hready.mp hr, hzero, hr]
    · by_contra hr
      simp [mt hready.mp hr] at hnone
    · have hr : ¬ s.arrived.length = us.length := by
        intro hr
        simp [hready.mpr hr] at hg
      simp only [mt hready.mp hr, Bool.false_eq_true, if_false, some_inj] at hg
      subst hg
      exact ⟨hh.arrived, fun hc => hr hc.2, hh.num, hh.expected, rfl, hh.free, hh.hasTxn,
        hh.dispatched, hh.finished, fun _ => hfin⟩

theorem step (hus : PartsOk n us) (hI : Inv n us s) {e : HolderEvent}
    (hs : s.step n us e = some s') : Inv n us s' := by
  cases e with
  | arrive u b =>
    by_cases hguard : u ∈ us ∧ u ∉ s.arrived
    · obtain ⟨s₁, hs₁, hI'⟩ := hI.arrive hus hguard.1 hguard.2 b
      cases hs₁.symm.trans hs
      exact hI'
    · rw [HolderRun.step, if_neg hguard] at hs
      cases hs
  | dispatch => exact hI.dispatch hus hs
  | finish => exact hI.finish hs
  | done =>
    by_cases hguard : s.finished = true ∧ ¬ s.done = true
    · obtain ⟨s₁, hs₁, hI'⟩ := hI.tell hguard.1 (Bool.eq_false_of_not_eq_true hguard.2)
      cases hs₁.symm.trans hs
      exact hI'
    · rw [HolderRun.step, if_neg hguard] at hs
      cases hs

theorem ok (hus : PartsOk n us) (hI : Inv n us s) : Ok n us s where
  erased := hI.erased
  active := by
    cases hactive : s.active with
    | none =>
      refine iff_of_false (by simp) ?_
      rintro ⟨hne, hzero⟩
      rcases hI.absent hactive with ⟨hnil, -⟩ | hall
      · exact hne hnil
      · rw [hI.erased, if_pos hall] at hzero
        cases hzero
    | some h =>
      have hh := hI.holds h hactive
      exact iff_of_true rfl ⟨hh.arrived, by rw [hI.erased, if_neg hh.waits]⟩
  accepts u hu hnew b := by
    obtain ⟨s₁, hs₁, -⟩ := hI.arrive hus hu hnew b
    rw [hs₁]
    rfl
  told hfin hdone := by
    obtain ⟨s₁, hs₁, -⟩ := hI.tell hfin (Bool.eq_false_of_not_eq_true hdone)
    rw [hs₁]
    rfl

/-- **The life of a holder**, in every run. -/
theorem run (hus : PartsOk n us) {es : List HolderEvent}
    (hrun : Lts.run (HolderRun.step n us) {} es = some s) : Ok n us s :=
  (Lts.invariant _ init (fun _ _ _ hI hs => hI.step hus hs) ⟨es, hrun⟩ : Inv n us s).ok hus

end Inv

end HolderRun

/-- If the locks may be granted to the first part alone, but it announces others, then the
transaction can be done before they arrive.  The worker has taken the parts out, the holder
stays, and the next part stops the scheduler. -/
theorem HolderRun.stuck {n : ℕ} {us : List Transaction} {u v : Transaction} (hu : u ∈ us)
    (hv : v ∈ us) (hne : u.home.toNat ≠ v.home.toNat) (hlt : v.home.toNat < n)
    (hgrant : MayBeGranted [u]) (hexp : u.internal.involvedRegions.length ≠ 1) :
    ∃ es s, Lts.run (step n us) {} es = some s ∧ v ∉ s.arrived ∧
      s.step n us (.arrive v false) = none := by
  have huv : u ≠ v := fun h => hne (by rw [h])
  obtain ⟨h, hh⟩ : ∃ h : TxnHolder, h =
      { (TxnHolder.new n u).finalizeAndRelease with done := true } := ⟨_, rfl⟩
  have hready : h.isReadyForGc = false := by
    rw [hh]
    simpa [TxnHolder.isReadyForGc, TxnHolder.finalizeAndRelease, TxnHolder.new] using Ne.symm hexp
  have harrive : step n us {} (.arrive u false) =
      some { active := some (TxnHolder.new n u), arrived := [u] } := by
    rw [step, if_pos ⟨hu, not_mem_nil⟩]
    rfl
  have hdispatch : step n us { active := some (TxnHolder.new n u), arrived := [u] } .dispatch =
      some { active := some (TxnHolder.new n u), arrived := [u], dispatched := true } := by
    rw [step, bind_some, if_pos (.inr hgrant)]
  obtain ⟨s, hs⟩ : ∃ s : HolderRun, s = {
      active := some (TxnHolder.new n u).finalizeAndRelease, arrived := [u],
      dispatched := true, finished := true } := ⟨_, rfl⟩
  have hdone : step n us s .done = some { s with active := some h, done := true } := by
    have hset : setDone (some (TxnHolder.new n u).finalizeAndRelease) =
        some (if h.isReadyForGc then none else some h) := by
      rw [hh]
      rfl
    rw [hready] at hset
    rw [hs]
    simp only [step, hset]
    rfl
  have hrun : Lts.run (step n us) {} [.arrive u false, .dispatch, .finish, .done] =
      some { s with active := some h, done := true } := by
    rw [Lts.run_cons, harrive, bind_some, Lts.run_cons, hdispatch, bind_some,
      Lts.run_cons]
    have hfinish : step n us { active := some (TxnHolder.new n u), arrived := [u], dispatched := true }
        .finish = some s := by
      rw [hs]
      rfl
    rw [hfinish, bind_some, Lts.run_cons, hdone]
    rfl
  have hnew : v ∉ s.arrived := by
    rw [hs]
    simpa using huv.symm
  refine ⟨_, _, hrun, hnew, ?_⟩
  have hadd : h.addLockOnlyTxn v =
      some ({ h with
        loTxns := h.loTxns.set v.home.toNat (some v), numLoTxns := h.numLoTxns + 1 }, true) := by
    have hplace : h.loTxns[v.home.toNat]? = some none := by
      rw [hh]
      simp [TxnHolder.finalizeAndRelease, TxnHolder.new, hlt]
    rw [TxnHolder.addLockOnlyTxn, hplace]
  rw [step, if_pos ⟨hv, hnew⟩, processTransaction]
  simp only [hadd, bind_some]
  rw [hh]
  simp only [TxnHolder.finalizeAndRelease, TxnHolder.new, TxnHolder.hasTxn,
    List.getElem?_set_ne (Ne.symm hne), List.getElem?_map]
  cases (List.set (List.replicate n none) u.home.toNat (some u))[u.home.toNat]? <;> rfl

/-! ## Splitting is exact -/

/-- **A transaction is split exactly at a partition**: one part for every region that masters one
of the keys there, and for the new master of a remaster; every part has the keys of the
partition, and every key is relevant to one part; and the holder, which is told how many parts
to expect, lives as long as it should. -/
structure Transaction.SplitExactly (sh : Sharder) (n : ℕ) (t : Transaction) (p : PartitionId) :
    Prop where
  homes_nodup : ((t.partsAt sh p).map Transaction.home).Nodup
  mem_homes : ∀ h : ℤ, h ∈ (t.partsAt sh p).map Transaction.home ↔
    ∃ r : RegionId, h = r ∧ ((∃ kv ∈ t.keysAt sh p, kv.master = r) ∨ r ∈ t.newMaster)
  keys : ∀ u ∈ t.partsAt sh p, u.keys = t.keysAt sh p
  relevant : ∀ kv ∈ t.keysAt sh p,
    ((t.partsAt sh p).filter fun u => kv ∈ u.keys ∧ (kv.master : ℤ) = u.home).length = 1
  expected : ∀ u ∈ t.partsAt sh p,
    (TxnHolder.new n u).expectedNumLoTxns = (t.partsAt sh p).length
  holder : ∀ es s, Lts.run (HolderRun.step n (t.partsAt sh p)) {} es = some s →
    HolderRun.Ok n (t.partsAt sh p) s

namespace ForwardedTxn

variable {sh : Sharder} {n : ℕ} (a : ForwardedTxn sh n) {p : PartitionId}
  (hp : p ∈ a.txn.internal.involvedPartitions)

/-- A remaster that leaves every key where it is. -/
def Stays : Prop := a.txn.isRemaster = true → ∀ kv ∈ a.txn.keys, kv.master ∈ a.txn.newMaster

include hp

theorem partsAt_homes :
    (a.txn.partsAt sh p).map Transaction.home = (a.homesAt p).map fun r : RegionId => (r : ℤ) := by
  rw [a.partsAt_eq hp, List.map_map]
  exact List.map_congr_left fun r hr => a.part_home (a.homesAt_subset hr)

theorem partsAt_homes_nodup : ((a.txn.partsAt sh p).map Transaction.home).Nodup := by
  rw [a.partsAt_homes hp]
  exact a.homesAt_nodup.map Nat.cast_injective

theorem length_partsAt : (a.txn.partsAt sh p).length = (a.homesAt p).length := by
  rw [a.partsAt_eq hp, List.length_map]

variable {u : Transaction} {r : RegionId}

/-- What a part announces: the masters of the keys of the partition. -/
theorem length_involvedRegions (hu : u ∈ a.txn.partsAt sh p) :
    u.internal.involvedRegions.length =
      (sortUnique ((a.txn.keysAt sh p).map KeyValueEntry.master)).length := by
  rw [a.partsAt_eq hp] at hu
  obtain ⟨r, -, rfl⟩ := List.mem_map.mp hu
  obtain ⟨hnd, hmem⟩ := a.part_involvedRegions (a.mem_involvedPartitions.mp hp) r
  refine ((List.perm_ext_iff_of_nodup hnd (sortUnique_nodup _)).mpr fun r' => ?_).length_eq
  rw [hmem, mem_sortUnique, List.mem_map]

omit hp in
theorem exists_newMaster {t : Transaction} (ht : t.isRemaster = true) :
    ∃ m, t.newMaster = [m] := by
  unfold Transaction.isRemaster at ht
  split at ht
  · cases ht
  · next m _ hprogram => exact ⟨m, by rw [Transaction.newMaster, hprogram]⟩

/-- If a remaster stays, a region sends a part to the partition exactly if it masters a key
there. -/
theorem mem_homesAt (hstay : a.Stays) : r ∈ a.homesAt p ↔ ∃ kv ∈ a.txn.keysAt sh p, kv.master = r := by
  cases hrem : a.txn.isRemaster with
  | false => exact a.mem_homesAt_of_code hrem
  | true =>
    obtain ⟨m, hm⟩ := exists_newMaster hrem
    have hall : ∀ kv ∈ a.txn.keys, kv.master = m := fun kv hkv => by
      have := hstay hrem kv hkv
      rwa [hm, mem_singleton] at this
    rw [a.homesAt_of_remaster hrem, a.mem_regions, hm]
    constructor
    · intro hr
      have hrm : r = m := by
        rcases mem_append.mp hr with hr | hr
        · obtain ⟨kv, hkv, rfl⟩ := List.mem_map.mp hr
          exact hall kv hkv
        · exact mem_singleton.mp hr
      obtain ⟨kv, hkv⟩ := exists_mem_of_ne_nil _ (a.mem_involvedPartitions.mp hp)
      exact ⟨kv, hkv, (hall kv (mem_of_mem_filter hkv)).trans hrm.symm⟩
    · rintro ⟨kv, hkv, rfl⟩
      exact mem_append_left _ (mem_map_of_mem (mem_of_mem_filter hkv))

theorem length_homesAt (hstay : a.Stays) :
    (a.homesAt p).length =
      (sortUnique ((a.txn.keysAt sh p).map KeyValueEntry.master)).length := by
  refine ((List.perm_ext_iff_of_nodup a.homesAt_nodup (sortUnique_nodup _)).mpr
    fun r => ?_).length_eq
  rw [a.mem_homesAt hp hstay, mem_sortUnique, List.mem_map]

omit hp in
theorem region_lt (hr : r ∈ a.txn.internal.involvedRegions) : r < n := by
  refine a.regions_lt r ?_
  rw [a.mem_regions, Transaction.masters, Transaction.newMaster, a.forward_spec.1,
    a.forward_spec.2.1] at hr
  exact hr

/-- Every part of a transaction with code requests a lock. -/
theorem lockRequests_pos (hrem : a.txn.isRemaster = false) (hu : u ∈ a.txn.partsAt sh p) :
    0 < u.lockRequests.length := by
  rw [a.partsAt_eq hp] at hu
  obtain ⟨r, hr, rfl⟩ := List.mem_map.mp hu
  obtain ⟨kv, hkv, hm⟩ := (a.mem_homesAt_of_code hrem).mp hr
  rw [a.part_lockRequests (a.homesAt_subset hr), List.length_map, length_pos_iff_exists_mem]
  exact ⟨kv, mem_filter.mpr ⟨hkv, by simp [hm]⟩⟩

/-- **No part is missing when the locks may be granted.** -/
theorem complete (hstay : a.Stays) {vs : List Transaction} (hnd : vs.Nodup)
    (hsub : ∀ v ∈ vs, v ∈ a.txn.partsAt sh p) (hgrant : HolderRun.MayBeGranted vs) :
    vs.length = (a.txn.partsAt sh p).length := by
  obtain ⟨u, hu, hle⟩ := hgrant
  have hsubperm : vs.Subperm (a.txn.partsAt sh p) := subperm_of_subset hnd hsub
  refine le_antisymm hsubperm.length_le ?_
  cases hrem : a.txn.isRemaster with
  | true =>
    -- all regions are the new master
    obtain ⟨m, hm⟩ := exists_newMaster hrem
    have hone : (a.homesAt p).Subperm [m] := by
      refine subperm_of_subset a.homesAt_nodup fun r hr => ?_
      obtain ⟨kv, hkv, rfl⟩ := (a.mem_homesAt hp hstay).mp hr
      exact hm ▸ hstay hrem kv (mem_of_mem_filter hkv)
    rw [a.length_partsAt hp]
    exact hone.length_le.trans (length_pos_of_mem hu)
  | false =>
    by_contra hlt
    obtain ⟨w, hw, hnew⟩ : ∃ w ∈ a.txn.partsAt sh p, w ∉ vs := by
      by_contra hall
      push Not at hall
      exact hlt ((subperm_of_subset
        (Nodup.of_map _ (a.partsAt_homes_nodup hp)) hall).length_le)
    have hsub' : (w :: vs).Subperm (a.txn.partsAt sh p) := by
      refine subperm_of_subset (nodup_cons.mpr ⟨hnew, hnd⟩) fun v hv => ?_
      rcases mem_cons.mp hv with rfl | hv
      · exact hw
      · exact hsub v hv
    obtain ⟨l, hperm, hl⟩ := hsub'
    have hsum := (hl.map fun v => v.lockRequests.length).sum_le_sum (by simp)
    rw [(hperm.map _).sum_eq, map_cons, sum_cons, a.sum_partsAt hp,
      a.numRequests_homesAt, hrem] at hsum
    have hpos := a.lockRequests_pos hp hrem hw
    rw [(a.mem_partsAt hp (hsub u hu)).2, required, hrem] at hle
    simp only [Bool.false_eq_true, if_false] at hsum hle
    omega

theorem partsOk (hstay : a.Stays) : PartsOk n (a.txn.partsAt sh p) where
  nodup := Nodup.of_map _ (a.partsAt_homes_nodup hp)
  home_lt u hu := by
    rw [a.partsAt_eq hp] at hu
    obtain ⟨r, hr, rfl⟩ := List.mem_map.mp hu
    rw [a.part_home (a.homesAt_subset hr), Int.toNat_natCast]
    exact a.region_lt (a.homesAt_subset hr)
  home_inj u hu v hv heq := by
    rw [a.partsAt_eq hp] at hu hv
    obtain ⟨r, hr, rfl⟩ := List.mem_map.mp hu
    obtain ⟨r', hr', rfl⟩ := List.mem_map.mp hv
    rw [a.part_home (a.homesAt_subset hr), a.part_home (a.homesAt_subset hr'),
      Int.toNat_natCast, Int.toNat_natCast] at heq
    rw [heq]
  expected u hu := by
    rw [a.length_involvedRegions hp hu, a.length_partsAt hp, a.length_homesAt hp hstay]
  complete vs hnd hsub hgrant := a.complete hp hstay hnd hsub hgrant

/-- Among the parts, one is for the master of the key. -/
theorem relevant {kv : KeyValueEntry} (hkv : kv ∈ a.txn.keysAt sh p)
    (hmem : kv.master ∈ a.homesAt p) :
    ((a.txn.partsAt sh p).filter fun u => kv ∈ u.keys ∧ (kv.master : ℤ) = u.home).length = 1 := by
  have hfilter : (a.homesAt p).filter ((fun u => decide (kv ∈ u.keys ∧
      (kv.master : ℤ) = u.home)) ∘ a.part p) = (a.homesAt p).filter fun r => r = kv.master := by
    refine List.filter_congr fun r hr => ?_
    rw [Function.comp_apply, decide_eq_decide, part_keys, and_iff_right hkv,
      a.part_home (a.homesAt_subset hr), Nat.cast_inj, eq_comm]
  rw [a.partsAt_eq hp, List.filter_map, List.length_map, hfilter, ← List.countP_eq_length_filter,
    ← List.count_eq_one_of_mem a.homesAt_nodup hmem, List.count_eq_countP]
  exact List.countP_congr fun r _ => by simp

theorem splitExactly_of_stays (hstay : a.Stays) : a.txn.SplitExactly sh n p where
  homes_nodup := a.partsAt_homes_nodup hp
  mem_homes h := by
    rw [a.partsAt_homes hp, List.mem_map]
    constructor
    · rintro ⟨r, hr, rfl⟩
      exact ⟨r, rfl, .inl ((a.mem_homesAt hp hstay).mp hr)⟩
    · rintro ⟨r, rfl, hr | hr⟩
      · exact ⟨r, (a.mem_homesAt hp hstay).mpr hr, rfl⟩
      · have hrem : a.txn.isRemaster = true := by
          by_contra hrem
          rw [newMaster_eq_nil (Bool.eq_false_of_not_eq_true hrem)] at hr
          cases hr
        refine ⟨r, ?_, rfl⟩
        rw [a.homesAt_of_remaster hrem, a.mem_regions]
        exact List.mem_append_right _ hr
  keys u hu := by
    rw [a.partsAt_eq hp] at hu
    obtain ⟨r, -, rfl⟩ := List.mem_map.mp hu
    rfl
  relevant kv hkv := a.relevant hp hkv ((a.mem_homesAt hp hstay).mpr ⟨kv, hkv, rfl⟩)
  expected u hu := (a.partsOk hp hstay).expected u hu
  holder _ _ hrun := HolderRun.Inv.run (a.partsOk hp hstay) hrun

omit hp in
/-- **Splitting is exact at every involved partition if and only if the transaction is not a
remaster that moves a key.** -/
theorem splitExactly_iff :
    (∀ p ∈ a.txn.internal.involvedPartitions, a.txn.SplitExactly sh n p) ↔ a.Stays := by
  constructor
  · intro hsplit hrem kv hkv
    obtain ⟨p, hkvp⟩ := a.sharded hkv
    have hkvAt : kv ∈ a.txn.keysAt sh p := mem_filter.mpr ⟨hkv, decide_eq_true hkvp⟩
    have hp : p ∈ a.txn.internal.involvedPartitions :=
      a.mem_involvedPartitions.mpr (ne_nil_of_mem hkvAt)
    have h := hsplit p hp
    obtain ⟨m, hm⟩ := exists_newMaster hrem
    rw [hm, mem_singleton]
    by_contra hne
    have hhomes := a.homesAt_of_remaster (p := p) hrem
    have hold : kv.master ∈ a.homesAt p := hhomes ▸ a.master_mem_regions hkvAt
    have hnew : m ∈ a.homesAt p := by
      rw [hhomes, a.mem_regions, hm]
      exact List.mem_append_right _ (mem_singleton_self m)
    have hmem : ∀ {r}, r ∈ a.homesAt p → a.part p r ∈ a.txn.partsAt sh p := fun hr => by
      rw [a.partsAt_eq hp]
      exact mem_map_of_mem hr
    -- every involved region masters a key of the partition, or fewer parts are announced
    have hlen : (a.homesAt p).length =
        (sortUnique ((a.txn.keysAt sh p).map KeyValueEntry.master)).length := by
      rw [← a.length_partsAt hp, ← h.expected _ (hmem hold), ← a.length_involvedRegions hp
        (hmem hold)]
      rfl
    have hmasters : m ∈ sortUnique ((a.txn.keysAt sh p).map KeyValueEntry.master) := by
      have hsub : (sortUnique ((a.txn.keysAt sh p).map KeyValueEntry.master)).Subperm
          (a.homesAt p) := by
        refine subperm_of_subset (sortUnique_nodup _) fun r hr => ?_
        rw [mem_sortUnique, List.mem_map] at hr
        obtain ⟨kv', hkv', rfl⟩ := hr
        exact hhomes ▸ a.master_mem_regions hkv'
      exact (hsub.perm_of_length_le hlen.le).mem_iff.mpr hnew
    obtain ⟨kv', hkv', hm'⟩ := List.mem_map.mp (mem_sortUnique.mp hmasters)
    have htwoKeys : 2 ≤ (a.txn.keysAt sh p).length := by
      have hsub : [kv, kv'].Subperm (a.txn.keysAt sh p) := by
        refine subperm_of_subset ?_ (by simp [hkvAt, hkv'])
        simp only [nodup_cons, mem_singleton, not_mem_nil, not_false_eq_true,
          nodup_nil, and_true]
        rintro rfl
        exact hne hm'
      exact hsub.length_le
    have hboth : [kv.master, m].Subperm (a.homesAt p) :=
      subperm_of_subset (by simpa using hne) (by simp [hold, hnew])
    have htwoRegions : 2 ≤ (a.homesAt p).length := hboth.length_le
    -- so the part of the old master can be granted two locks on its own
    have hgrant : HolderRun.MayBeGranted [a.part p kv.master] := by
      refine ⟨_, mem_singleton_self _, ?_⟩
      rw [a.part_numRequiredLocks (a.homesAt_subset hold), required, hrem, map_singleton,
        sum_singleton, a.part_lockRequests (a.homesAt_subset hold), List.length_map, hrem]
      simpa using htwoKeys
    obtain ⟨es, s, hrun, hnot, hstuck⟩ := HolderRun.stuck (hmem hold) (hmem hnew)
      (by simpa [a.part_home (a.homesAt_subset hold), a.part_home (a.homesAt_subset hnew)] using hne)
      (by simpa [a.part_home (a.homesAt_subset hnew)] using a.region_lt (a.homesAt_subset hnew))
      hgrant (by rw [a.length_involvedRegions hp (hmem hold), ← hlen]; omega)
    have hsome := (h.holder es s hrun).accepts _ (hmem hnew) hnot false
    rw [hstuck] at hsome
    cases hsome
  · intro hstay p hp
    exact a.splitExactly_of_stays hp hstay

/-- The parts of the remaster of `A` arrive, it runs, and the scheduler is told. -/
def movedEvents : List HolderEvent :=
  (movedA.txn.partsAt oneShard 0).map (fun u => .arrive u false) ++ [.dispatch, .finish, .done]

omit hp in
/-- **The remaster of a key to another region leaves its holder behind**: two parts arrive, and
each of them announces one. -/
theorem not_splitExactly_movedA :
    (movedA.txn.partsAt oneShard 0).map
        (fun u => (u.home, (TxnHolder.new 2 u).expectedNumLoTxns)) = [(0, 1), (1, 1)] ∧
      (∃ s, Lts.run (HolderRun.step 2 (movedA.txn.partsAt oneShard 0)) {} movedEvents = some s ∧
        s.done ∧ s.arrived.length = 2 ∧ s.active.isSome ∧ s.erased = 0) ∧
      ¬ ∀ p ∈ movedA.txn.internal.involvedPartitions, movedA.txn.SplitExactly oneShard 2 p := by
  refine ⟨by decide +kernel, ?_, fun h => ?_⟩
  · exact Lts.exists_run (by decide +kernel) fun _ _ h => h
  · have hexp := (h 0 (by decide +kernel)).expected
    have hbad : ¬ ∀ u ∈ movedA.txn.partsAt oneShard 0,
        (TxnHolder.new 2 u).expectedNumLoTxns = (movedA.txn.partsAt oneShard 0).length := by
      decide +kernel
    exact hbad hexp

end ForwardedTxn

end Slog
