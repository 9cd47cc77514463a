/-
# The representation of the locks

What holds of the lock managers with full queues in every run in which no transaction requests a lock
twice, also when waiting transactions leave: the mode of a lock fits its holders, nobody waits for a
free lock, the counter of the locked keys and the counters of the transactions are right.  A lock is
not a function of its queue any more once a reader was passed over, so the argument is about the states
of the locks themselves.
-/
import Penteract.FifoLocks

namespace Slog

open Function

/-! ## The counter of the locked keys -/

section Sweep

variable {σ α : Type} (mode : σ → LockMode) (key : α → KeyRegion) (next : σ → α → σ)
  (change : LockMode → LockMode → ℤ)

/-- A loop that changes one lock after another, and a counter with each. -/
def sweep (table : KeyRegion → σ) (n : ℤ) : List α → (KeyRegion → σ) × ℤ
  | [] => (table, n)
  | a :: as =>
    let state := next (table (key a)) a
    sweep (update table (key a) state) (n + change (mode (table (key a))) (mode state)) as

/-- What `AcquireLocks` adds to `num_locked_keys_` for a key. -/
def acquireChange (before after : LockMode) : ℤ :=
  if before = .unlocked ∧ after ≠ before then 1 else 0

/-- What `ReleaseLocks` adds to it. -/
def releaseChange (before after : LockMode) : ℤ :=
  if after = .unlocked ∧ before ≠ .unlocked then -1 else 0

/-- The keys that are locked. -/
def lockedKeys (table : KeyRegion → σ) : Set KeyRegion := {k | mode (table k) ≠ .unlocked}

/-- A lock counts if it is not free. -/
def LockMode.weight (m : LockMode) : ℤ := if m = .unlocked then 0 else 1

variable {mode key next change}

variable {table : KeyRegion → σ} {before after : LockMode}

theorem ncard_update (hfin : (lockedKeys mode table).Finite) (k : KeyRegion) (state : σ) :
    (lockedKeys mode (update table k state)).Finite ∧
      ((lockedKeys mode (update table k state)).ncard : ℤ) =
        (lockedKeys mode table).ncard + ((mode state).weight - (mode (table k)).weight) := by
  have hmem : ∀ k', k' ∈ lockedKeys mode (update table k state) ↔
      (k' = k ∧ mode state ≠ .unlocked) ∨ (k' ≠ k ∧ k' ∈ lockedKeys mode table) := by
    intro k'
    by_cases hk : k' = k
    · subst hk
      simp [lockedKeys]
    · simp [lockedKeys, hk]
  by_cases hstate : mode state = .unlocked
  · have heq : lockedKeys mode (update table k state) = lockedKeys mode table \ {k} := by
      ext k'
      rw [hmem]
      simp [hstate, and_comm]
    rw [heq, LockMode.weight, if_pos hstate]
    refine ⟨hfin.subset Set.diff_subset, ?_⟩
    by_cases hold : mode (table k) = .unlocked
    · rw [Set.diff_singleton_eq_self (by simpa [lockedKeys] using hold), LockMode.weight,
        if_pos hold]
      simp
    · have hcard := Set.ncard_diff_singleton_add_one (show k ∈ lockedKeys mode table from hold) hfin
      rw [LockMode.weight, if_neg hold]
      omega
  · have heq : lockedKeys mode (update table k state) = insert k (lockedKeys mode table) := by
      ext k'
      rw [hmem, Set.mem_insert_iff]
      tauto
    rw [heq, LockMode.weight, if_neg hstate]
    refine ⟨hfin.insert k, ?_⟩
    by_cases hold : mode (table k) = .unlocked
    · rw [Set.ncard_insert_of_notMem (by simpa [lockedKeys] using hold) hfin, LockMode.weight,
        if_pos hold]
      simp
    · rw [Set.insert_eq_of_mem (show k ∈ lockedKeys mode table from hold), LockMode.weight,
        if_neg hold]
      simp

/-- The counter follows the number of locked keys if it does so in every step. -/
theorem sweep_count {P : σ → Prop} (hstep : ∀ s a, P s → P (next s a) ∧
      change (mode s) (mode (next s a)) = (mode (next s a)).weight - (mode s).weight)
    {table' : KeyRegion → σ} {n n' : ℤ} {as : List α} (hP : ∀ k, P (table k))
    (hfin : (lockedKeys mode table).Finite) (h : sweep mode key next change table n as = (table', n')) :
    (lockedKeys mode table').Finite ∧
      n' = n + ((lockedKeys mode table').ncard - (lockedKeys mode table).ncard) := by
  induction as generalizing table n with
  | nil =>
    cases h
    exact ⟨hfin, by ring⟩
  | cons a as ih =>
    obtain ⟨hnext, hchange⟩ := hstep _ a (hP (key a))
    obtain ⟨hfin₁, hcard⟩ := ncard_update hfin (key a) (next (table (key a)) a)
    have hP₁ : ∀ k, P (update table (key a) (next (table (key a)) a) k) :=
      (forall_update_iff table fun _ s => P s).mpr ⟨hnext, fun k _ => hP k⟩
    obtain ⟨hfin', hcount⟩ := ih hP₁ hfin₁ h
    refine ⟨hfin', hcount.trans ?_⟩
    rw [hchange, hcard]
    ring

theorem acquireChange_eq (h : before ≠ .unlocked → after ≠ .unlocked) :
    acquireChange before after = after.weight - before.weight := by
  cases before <;> cases after <;> simp_all [acquireChange, LockMode.weight]

theorem releaseChange_eq (h : before = .unlocked → after = .unlocked) :
    releaseChange before after = after.weight - before.weight := by
  cases before <;> cases after <;> simp_all [releaseChange, LockMode.weight]

end Sweep

theorem LockState.mode_acquire {s : LockState} (x : TxnId) (m : KeyType) (h : s.mode ≠ .unlocked) :
    (s.acquire x m).1.mode ≠ .unlocked := by
  cases m <;> cases hm : s.mode <;>
    simp only [LockState.acquire, acquireReadLock, acquireWriteLock, hm] at h ⊢ <;>
    (try split_ifs) <;> simp_all

theorem OldLockState.mode_acquire {s : OldLockState} (x : TxnId) (m : KeyType)
    (h : s.mode ≠ .unlocked) : (s.acquire x m).1.mode ≠ .unlocked := by
  cases m <;> cases hm : s.mode <;>
    simp only [OldLockState.acquire, acquireReadLock, acquireWriteLock, hm] at h ⊢ <;>
    (try split_ifs) <;> simp_all [OldLockState.wait]

/-! ## The two lock managers -/

/-- `num_locked_keys_` after `AcquireLocks`. -/
def RMALockManager.acquireCount (rm : RMALockManager) (t : Transaction) (n : ℤ) : ℤ :=
  (sweep LockState.mode Prod.fst (fun s r => (s.acquire t.id r.2).1) acquireChange rm.lockTable n
    t.lockRequests).2

/-- `num_locked_keys_` after `ReleaseLocks`. -/
def RMALockManager.releaseCount (rm : RMALockManager) (x : TxnId) (n : ℤ) : ℤ :=
  match rm.txnInfo.lookup x with
  | none => n
  | some ti => (sweep LockState.mode (fun k => k) (fun s _ => (s.release x).1) releaseChange
      rm.lockTable n ti.keys).2

def OldLockManager.acquireCount (om : OldLockManager) (t : Transaction) (n : ℤ) : ℤ :=
  (sweep OldLockState.mode Prod.fst (fun s r => (s.acquire t.id r.2).1) acquireChange om.lockTable n
    t.oldLockRequests).2

def OldLockManager.releaseCount (om : OldLockManager) (x : TxnId) (n : ℤ) : ℤ :=
  match om.txnInfo.lookup x with
  | none => n
  | some ti => (sweep OldLockState.mode (fun k => k) (fun s _ => (s.release x).1) releaseChange
      om.lockTable n ti.keys).2

/-- A lock manager with full queues that counts the locked keys. -/
structure CountingManager extends QueueManager where
  txnInfo : State → AssocMap TxnId RMATxnInfo
  acquireCount : State → Transaction → ℤ → ℤ
  releaseCount : State → TxnId → ℤ → ℤ

def rmaCounting : CountingManager where
  toQueueManager := rmaManager
  txnInfo := RMALockManager.txnInfo
  acquireCount := RMALockManager.acquireCount
  releaseCount := RMALockManager.releaseCount

def oldCounting : CountingManager where
  toQueueManager := oldManager
  txnInfo := OldLockManager.txnInfo
  acquireCount := OldLockManager.acquireCount
  releaseCount := OldLockManager.releaseCount

/-- The keys that are locked in a state. -/
def CountingManager.locked (M : CountingManager) (s : M.State) : Set KeyRegion :=
  lockedKeys LockState.mode (M.lock s)

/-- The counter follows the number of locked keys in every call. -/
structure CountingManager.Counts (M : CountingManager) (abs : M.State → RMALockManager)
    (ok : M.State → Prop) : Prop extends M.toQueueManager.Follows abs ok where
  txnInfo : ∀ s, M.txnInfo s = (abs s).txnInfo
  locked_init : M.locked M.init = ∅
  acquireCount : ∀ s t n, (M.locked s).Finite → (M.locked (M.acquireLocks s t).1).Finite ∧
    M.acquireCount s t n = n + ((M.locked (M.acquireLocks s t).1).ncard - (M.locked s).ncard)
  releaseCount : ∀ s x n, ok s → (∀ k, (M.lock s k).Ok) → (M.locked s).Finite →
    (M.locked (M.releaseLocks s x).1).Finite ∧
    M.releaseCount s x n = n + ((M.locked (M.releaseLocks s x).1).ncard - (M.locked s).ncard)

theorem RMALockManager.acquireAll_eq_sweep (table : KeyRegion → LockState) (x : TxnId)
    (info : RMATxnInfo) (n : ℤ) (rs : List (KeyRegion × KeyType)) :
    (acquireAll table x info rs).1 = (sweep LockState.mode Prod.fst
      (fun s r => (s.acquire x r.2).1) acquireChange table n rs).1 := by
  induction rs generalizing table info n with
  | nil => rfl
  | cons r rs ih =>
    obtain ⟨k, m⟩ := r
    rw [acquireAll, sweep]
    exact ih _ _ _

theorem RMALockManager.releaseAll_eq_sweep (rm : RMALockManager) (x : TxnId) (n : ℤ)
    (ks : List KeyRegion) : (rm.releaseAll x ks).1.lockTable = (sweep LockState.mode (fun k => k)
      (fun s _ => (s.release x).1) releaseChange rm.lockTable n ks).1 := by
  induction ks generalizing rm n with
  | nil => rfl
  | cons k ks ih =>
    rw [releaseAll_cons, sweep]
    exact ih _ _

theorem OldLockManager.acquireAll_eq_sweep (table : Key → OldLockState) (x : TxnId)
    (info : RMATxnInfo) (n : ℤ) (rs : List (Key × KeyType)) :
    (acquireAll table x info rs).1 = (sweep OldLockState.mode Prod.fst
      (fun s r => (s.acquire x r.2).1) acquireChange table n rs).1 := by
  induction rs generalizing table info n with
  | nil => rfl
  | cons r rs ih =>
    obtain ⟨k, m⟩ := r
    rw [acquireAll, sweep]
    exact ih _ _ _

theorem OldLockManager.releaseAll_eq_sweep (om : OldLockManager) (x : TxnId) (n : ℤ)
    (ks : List Key) : (om.releaseAll x ks).1.lockTable = (sweep OldLockState.mode (fun k => k)
      (fun s _ => (s.release x).1) releaseChange om.lockTable n ks).1 := by
  induction ks generalizing om n with
  | nil => rfl
  | cons k ks ih =>
    rw [releaseAll_cons, sweep]
    exact ih _ _

theorem RMALockManager.acquireCount_eq (rm : RMALockManager) (t : Transaction) (n : ℤ)
    (hfin : (lockedKeys LockState.mode rm.lockTable).Finite) :
    (lockedKeys LockState.mode (rm.acquireLocks t).1.lockTable).Finite ∧
      rm.acquireCount t n = n + ((lockedKeys LockState.mode (rm.acquireLocks t).1.lockTable).ncard -
        (lockedKeys LockState.mode rm.lockTable).ncard) := by
  refine sweep_count (P := fun _ => True)
    (fun s r _ => ⟨trivial, acquireChange_eq (LockState.mode_acquire t.id r.2)⟩)
    (fun _ => trivial) hfin (Prod.ext ?_ rfl)
  exact (acquireAll_eq_sweep _ _ _ n _).symm

theorem OldLockManager.acquireCount_eq (om : OldLockManager) (t : Transaction) (n : ℤ)
    (hfin : (lockedKeys OldLockState.mode om.lockTable).Finite) :
    (lockedKeys OldLockState.mode (om.acquireLocks t).1.lockTable).Finite ∧
      om.acquireCount t n = n + ((lockedKeys OldLockState.mode (om.acquireLocks t).1.lockTable).ncard -
        (lockedKeys OldLockState.mode om.lockTable).ncard) := by
  refine sweep_count (P := fun _ => True)
    (fun s r _ => ⟨trivial, acquireChange_eq (OldLockState.mode_acquire t.id r.2)⟩)
    (fun _ => trivial) hfin (Prod.ext ?_ rfl)
  exact (acquireAll_eq_sweep _ _ _ n _).symm

theorem RMALockManager.releaseCount_eq (rm : RMALockManager) (x : TxnId) (n : ℤ)
    (hok : ∀ k, (rm.lockTable k).Ok) (hfin : (lockedKeys LockState.mode rm.lockTable).Finite) :
    (lockedKeys LockState.mode (rm.releaseLocks x).1.lockTable).Finite ∧
      rm.releaseCount x n = n + ((lockedKeys LockState.mode (rm.releaseLocks x).1.lockTable).ncard -
        (lockedKeys LockState.mode rm.lockTable).ncard) := by
  rw [releaseLocks, releaseCount]
  cases hx : rm.txnInfo.lookup x with
  | none => exact ⟨hfin, by simp⟩
  | some ti =>
    refine sweep_count (P := LockState.Ok) (fun s _ hs => ⟨(hs.release x).ok,
      releaseChange_eq (hs.release x).unlocked⟩) hok hfin (Prod.ext ?_ rfl)
    exact (releaseAll_eq_sweep rm x n ti.keys).symm

theorem OldLockManager.releaseCount_eq (om : OldLockManager) (x : TxnId) (n : ℤ)
    (hold : ∀ k, (om.lockTable k).Ok) (hok : ∀ k, (om.lockTable k).toLockState.Ok)
    (hfin : (lockedKeys OldLockState.mode om.lockTable).Finite) :
    (lockedKeys OldLockState.mode (om.releaseLocks x).1.lockTable).Finite ∧
      om.releaseCount x n = n + ((lockedKeys OldLockState.mode (om.releaseLocks x).1.lockTable).ncard -
        (lockedKeys OldLockState.mode om.lockTable).ncard) := by
  rw [releaseLocks, releaseCount]
  cases hx : om.txnInfo.lookup x with
  | none => exact ⟨hfin, by simp⟩
  | some ti =>
    have hstep : ∀ (s : OldLockState) (_ : Key), s.Ok ∧ s.toLockState.Ok →
        ((s.release x).1.Ok ∧ (s.release x).1.toLockState.Ok) ∧
          releaseChange s.mode (s.release x).1.mode = (s.release x).1.mode.weight - s.mode.weight := by
      rintro s - ⟨hs, hs'⟩
      obtain ⟨hs₁, heq⟩ := hs.release x
      have hrel := hs'.release x
      rw [← heq] at hrel
      exact ⟨⟨hs₁, hrel.ok⟩, releaseChange_eq hrel.unlocked⟩
    refine sweep_count (P := fun s => s.Ok ∧ s.toLockState.Ok) hstep
      (fun k => ⟨hold k, hok k⟩) hfin (Prod.ext ?_ rfl)
    exact (releaseAll_eq_sweep om x n ti.keys).symm

theorem rmaCounting_counts : rmaCounting.Counts (fun rm => rm) fun _ => True where
  toFollows := rmaManager_follows
  txnInfo _ := rfl
  locked_init := by
    ext k
    simp [CountingManager.locked, lockedKeys, rmaCounting, rmaManager]
  acquireCount := RMALockManager.acquireCount_eq
  releaseCount rm x n _ := RMALockManager.releaseCount_eq rm x n

theorem oldCounting_counts :
    oldCounting.Counts OldLockManager.toRMA fun om => ∀ k, (om.lockTable k).Ok where
  toFollows := oldManager_follows
  txnInfo _ := rfl
  locked_init := by
    ext k
    simp [CountingManager.locked, lockedKeys, oldCounting, oldManager, OldLockState.toLockState]
  acquireCount := OldLockManager.acquireCount_eq
  releaseCount := OldLockManager.releaseCount_eq

/-! ## Runs -/

/-- A lock manager with its counter, the locks that every transaction needs, and those that it has
requested. -/
structure LockRun (M : CountingManager) where
  lm : M.State := M.init
  numLockedKeys : ℤ := 0
  need : TxnId → ℤ := fun _ => 0
  made : TxnId → List KeyRegion := fun _ => []

namespace LockRun

variable {M : CountingManager}

/-- The transaction requests no lock twice. -/
def Once (s : LockRun M) (t : Transaction) : Prop :=
  ((M.requests t).map Prod.fst).Nodup ∧ ∀ r ∈ M.requests t, t.id ∉ (M.lock s.lm r.1).members

instance (s : LockRun M) (t : Transaction) : Decidable (s.Once t) :=
  inferInstanceAs (Decidable (_ ∧ _))

/-- What a transaction needs: its first part says how many locks that is. -/
def needOf (s : LockRun M) (t : Transaction) : ℤ :=
  if t.id ∈ M.txnInfo s.lm then s.need t.id else M.required t

def madeOf (s : LockRun M) (x : TxnId) : List KeyRegion :=
  if x ∈ M.txnInfo s.lm then s.made x else []

/-- A call of the lock manager. Any transaction may be released, also one that waits. -/
def step (s : LockRun M) : QueueCall → Option (LockRun M)
  | .acquire t =>
    if s.Once t then
      some {
        lm := (M.acquireLocks s.lm t).1,
        numLockedKeys := M.acquireCount s.lm t s.numLockedKeys,
        need := update s.need t.id (s.needOf t),
        made := update s.made t.id (s.madeOf t.id ++ (M.requests t).map Prod.fst) }
    else none
  | .release x => some { s with
      lm := (M.releaseLocks s.lm x).1,
      numLockedKeys := M.releaseCount s.lm x s.numLockedKeys }

/-- **The representation invariant**: the mode of a lock fits its holders, nobody waits for a free lock
or for a lock that it holds, the locked keys are counted, and a transaction waits for the locks that it
has requested and not got and for those that it has not requested yet. -/
structure Represents (s : LockRun M) : Prop where
  unlocked : ∀ k, (M.lock s.lm k).mode = .unlocked ↔ (M.lock s.lm k).holders = []
  waiters : ∀ k, (M.lock s.lm k).waiterQueue ≠ [] → (M.lock s.lm k).holders ≠ []
  write : ∀ k, (M.lock s.lm k).mode = .write → (M.lock s.lm k).holders.length = 1
  apart : ∀ k, ∀ x ∈ (M.lock s.lm k).holders, x ∉ (M.lock s.lm k).waiterQueue.map Prod.fst
  finite : (M.locked s.lm).Finite
  numLockedKeys : s.numLockedKeys = (M.locked s.lm).ncard
  numWaitingFor : ∀ x ti, (M.txnInfo s.lm).lookup x = some ti →
    ti.numWaitingFor =
      (s.made x).countP (fun k => x ∈ (M.lock s.lm k).waiterQueue.map Prod.fst) +
        (s.need x - (s.made x).length)

structure Inv (abs : M.State → RMALockManager) (ok : M.State → Prop) (s : LockRun M) : Prop where
  ok : ok s.lm
  lockInv : (abs s.lm).LockInv s.need
  made : ∀ x ti, (abs s.lm).txnInfo.lookup x = some ti → ti.keys = s.made x
  finite : (M.locked s.lm).Finite
  numLockedKeys : s.numLockedKeys = (M.locked s.lm).ncard

variable {abs : M.State → RMALockManager} {ok : M.State → Prop} {s s' : LockRun M}

theorem Inv.represents (hM : M.Counts abs ok) (h : Inv abs ok s) : s.Represents := by
  have hok : ∀ k, (M.lock s.lm k).Ok := fun k => by
    rw [hM.lock]
    exact h.lockInv.locks k
  refine ⟨fun k => (hok k).unlocked, fun k => (hok k).waiters, fun k => (hok k).write,
    fun k x hx hx' => (List.nodup_append'.mp (hok k).nodup).2.2 hx hx', h.finite, h.numLockedKeys,
    fun x ti hti => ?_⟩
  rw [hM.txnInfo] at hti
  rw [(h.lockInv.entries x ti hti).count, ← h.made x ti hti, ← hM.lock]
  -- every requested lock is held or waited for
  have hsplit : ti.keys.length =
      (ti.keys.countP fun k => x ∈ (M.lock s.lm k).holders) +
        ti.keys.countP fun k => x ∈ (M.lock s.lm k).waiterQueue.map Prod.fst := by
    rw [List.length_eq_countP_add_countP (fun k => decide (x ∈ (M.lock s.lm k).holders))]
    congr 1
    refine List.countP_congr fun k hk => ?_
    have hmem := ((h.lockInv.entries x ti hti).keys k).mp hk
    rw [← hM.lock, LockState.members, List.mem_append] at hmem
    have hapart := (List.nodup_append'.mp (hok k).nodup).2.2
    simp only [decide_eq_true_eq]
    exact ⟨hmem.resolve_left, fun hwait hhold => hapart hhold hwait⟩
  omega

theorem Inv.init (hM : M.Counts abs ok) : Inv abs ok ({} : LockRun M) := by
  obtain ⟨habs, hok⟩ := hM.init
  refine ⟨hok, ?_, fun x ti hti => ?_, ?_, ?_⟩
  · rw [habs]
    exact .init
  · rw [habs] at hti
    simp at hti
  · rw [hM.locked_init]
    exact Set.finite_empty
  · rw [hM.locked_init, Set.ncard_empty]
    rfl

theorem Inv.madeOf_eq (hM : M.Counts abs ok) (h : Inv abs ok s) (x : TxnId) :
    s.madeOf x = (((abs s.lm).txnInfo.lookup x).map RMATxnInfo.keys).getD [] := by
  rw [madeOf, hM.txnInfo]
  cases hl : (abs s.lm).txnInfo.lookup x with
  | none =>
    rw [if_neg (AssocMap.not_mem_iff_lookup.mpr hl)]
    rfl
  | some ti =>
    rw [if_pos (AssocMap.mem_iff_lookup.mpr ⟨ti, hl⟩), ← h.made x ti hl]
    rfl

theorem Inv.acquire (hM : M.Counts abs ok) (h : Inv abs ok s) {t : Transaction}
    (hs : s.step (.acquire t) = some s') : Inv abs ok s' := by
  rw [step] at hs
  split_ifs at hs with honce
  cases hs
  obtain ⟨hnd, hnew⟩ := honce
  obtain ⟨hok, habs⟩ := hM.acquire s.lm t h.ok hnd hnew
  obtain ⟨hfin, hcount⟩ := hM.acquireCount s.lm t s.numLockedKeys h.finite
  refine ⟨hok, ?_, fun x ti hti => ?_, hfin, ?_⟩
  · dsimp only
    rw [habs]
    refine h.lockInv.acquireRequests hnd (hM.lock s.lm ▸ hnew) (fun v hv => ?_)
      fun hx => ?_
    · by_cases hvt : v = t.id
      · rw [hvt, update_self, needOf, if_pos]
        rwa [hM.txnInfo, ← hvt]
      · exact update_of_ne hvt _ _
    · rw [update_self, needOf, if_neg]
      rwa [hM.txnInfo]
  · have hkeys := RMALockManager.keys_acquireRequests (abs s.lm) t.id (M.required t) (M.requests t) x
    dsimp only at hti ⊢
    rw [habs] at hti
    rw [hti, ← h.madeOf_eq hM] at hkeys
    by_cases hxt : x = t.id
    · rw [if_pos hxt, Option.map_some, Option.some.injEq] at hkeys
      rw [hkeys, hxt, update_self]
    · rw [if_neg hxt] at hkeys
      obtain ⟨ti₀, hl, hti₀⟩ := Option.map_eq_some_iff.mp hkeys.symm
      rw [update_of_ne hxt, ← h.made x ti₀ hl, hti₀]
  · dsimp only
    rw [hcount, h.numLockedKeys]
    ring

theorem Inv.release (hM : M.Counts abs ok) (h : Inv abs ok s) {x : TxnId}
    (hs : s.step (.release x) = some s') : Inv abs ok s' := by
  cases hs
  obtain ⟨hok, habs'⟩ := hM.release s.lm x h.ok
  have habs : abs (M.releaseLocks s.lm x).1 = ((abs s.lm).releaseLocks x).1 :=
    congrArg Prod.fst habs'
  have hlocks : ∀ k, (M.lock s.lm k).Ok := hM.lock s.lm ▸ h.lockInv.locks
  obtain ⟨hfin, hcount⟩ := hM.releaseCount s.lm x s.numLockedKeys h.ok hlocks h.finite
  refine ⟨hok, ?_, fun v ti hti => ?_, hfin, ?_⟩
  · dsimp only
    rw [habs]
    exact h.lockInv.releaseLocks x
  · dsimp only at hti
    rw [habs] at hti
    cases hx : (abs s.lm).txnInfo.lookup x with
    | none =>
      rw [RMALockManager.releaseLocks, hx] at hti
      exact h.made v ti hti
    | some tx =>
      have hkeys := RMALockManager.keys_releaseLocks hx v
      rw [hti, Option.map_some] at hkeys
      split_ifs at hkeys
      obtain ⟨ti₀, hl, hti₀⟩ := Option.map_eq_some_iff.mp hkeys.symm
      rw [← hti₀]
      exact h.made v ti₀ hl
  · dsimp only
    rw [hcount, h.numLockedKeys]
    ring

theorem Inv.of_reachable (hM : M.Counts abs ok) (hs : Lts.Reachable step ({} : LockRun M) s) :
    Inv abs ok s := by
  refine Lts.invariant step (.init hM) (fun s c s' h hstep => ?_) hs
  cases c with
  | acquire t => exact h.acquire hM hstep
  | release x => exact h.release hM hstep

/-- **Both lock managers with full queues keep the representation invariant** over every sequence of
calls in which no transaction requests a lock twice. -/
theorem represents_of_reachable (hM : M = rmaCounting ∨ M = oldCounting)
    (hs : Lts.Reachable step ({} : LockRun M) s) : s.Represents := by
  rcases hM with rfl | rfl
  · exact (Inv.of_reachable rmaCounting_counts hs).represents rmaCounting_counts
  · exact (Inv.of_reachable oldCounting_counts hs).represents oldCounting_counts

/-- A transaction is released while it waits. -/
theorem represents_served : ∃ s : LockRun oldCounting,
    Lts.run step {} QueueRun.servedCalls = some s ∧ s.Represents ∧ s.numLockedKeys = 1 := by
  obtain ⟨s, hs, hone⟩ : ∃ s ∈ Lts.run step ({} : LockRun oldCounting) QueueRun.servedCalls,
      s.numLockedKeys = 1 := by
    decide +kernel
  exact ⟨s, hs, represents_of_reachable (.inr rfl) ⟨_, hs⟩, hone⟩

end LockRun

end Slog
