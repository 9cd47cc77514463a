/-
# The OLD lock manager

The lock manager of the original design.  It locks keys and not key-regions, keeps the waiting
transactions both in a set and in a queue, and skips every key that is not mastered at the home
of the part, also for a remaster.  Apart from that it works as the RMA lock manager does: the
states of its locks are states of RMA locks with a set added that lists the queue once more, and
its loops run in step with those of the RMA lock manager.
-/
import Penteract.FullQueue

namespace Slog

open List

/-- `unordered_set::insert`, where a set is a list without duplicates. -/
def setInsert (l : List TxnId) (x : TxnId) : List TxnId := if x ∈ l then l else l ++ [x]

structure OldLockState where
  mode : LockMode := .unlocked
  holders : List TxnId := []
  waiters : List TxnId := []
  waiterQueue : List (TxnId × LockMode) := []
  deriving DecidableEq, Repr

namespace OldLockState

/-- The two lines of `AcquireReadLock` and `AcquireWriteLock` that make a transaction wait. -/
def wait (s : OldLockState) (x : TxnId) (m : LockMode) : OldLockState :=
  { s with waiters := setInsert s.waiters x, waiterQueue := s.waiterQueue ++ [(x, m)] }

def acquireReadLock (s : OldLockState) (x : TxnId) : OldLockState × Bool :=
  match s.mode with
  | .unlocked => ({ s with holders := setInsert s.holders x, mode := .read }, true)
  | .read =>
    if s.waiters = [] then ({ s with holders := setInsert s.holders x }, true)
    else (s.wait x .read, false)
  | .write => (s.wait x .read, false)

def acquireWriteLock (s : OldLockState) (x : TxnId) : OldLockState × Bool :=
  match s.mode with
  | .unlocked => ({ s with holders := setInsert s.holders x, mode := .write }, true)
  | .read => (s.wait x .write, false)
  | .write => (s.wait x .write, false)

def acquire (s : OldLockState) (x : TxnId) (m : KeyType) : OldLockState × Bool :=
  match m with
  | .read => s.acquireReadLock x
  | .write => s.acquireWriteLock x

/-- One round of the loops of `Release` that hand the lock over: the front of the queue becomes
a holder. -/
def grantFront (s : OldLockState) (y : TxnId) : OldLockState :=
  { s with holders := setInsert s.holders y, waiters := s.waiters.erase y,
           waiterQueue := s.waiterQueue.tail }

/-- The loop that gives the lock to all readers at the head of the queue. -/
def grantReaders (s : OldLockState) : List (TxnId × LockMode) → OldLockState
  | (y, .read) :: q => grantReaders (s.grantFront y) q
  | _ => s

def release (s : OldLockState) (x : TxnId) : OldLockState × List TxnId :=
  if x ∉ s.holders then
    ({ s with waiterQueue := s.waiterQueue.filter fun w => w.1 ≠ x, waiters := s.waiters.erase x },
      [])
  else
    let s := { s with holders := s.holders.erase x }
    if s.holders ≠ [] then (s, [])
    else if s.waiters = [] then ({ s with mode := .unlocked }, [])
    else
      match s.waiterQueue with
      | (y, .read) :: q =>
        let s := grantReaders (s.grantFront y) q
        ({ s with mode := .read }, s.holders)
      | (y, .write) :: _ =>
        let s := s.grantFront y
        ({ s with mode := .write }, s.holders)
      | _ => (s, s.holders)

end OldLockState

/-- The locks that `AcquireLocks` requests: those of the keys mastered at the home. -/
def Transaction.oldLockRequests (t : Transaction) : List (Key × KeyType) :=
  (t.keys.filter fun kv => decide ((kv.master : ℤ) = t.home)).map fun kv => (kv.key, kv.type)

/-- An unlocked key that is taken out of the lock table is in the default state again. -/
structure OldLockManager where
  txnInfo : AssocMap TxnId RMATxnInfo := ∅
  lockTable : Key → OldLockState := fun _ => {}

namespace OldLockManager

/-- The loop of `AcquireLocks` over the keys. -/
def acquireAll (table : Key → OldLockState) (x : TxnId) (info : RMATxnInfo) :
    List (Key × KeyType) → (Key → OldLockState) × RMATxnInfo
  | [] => (table, info)
  | (k, m) :: rs =>
    let (state, granted) := (table k).acquire x m
    let info :=
      { keys := info.keys ++ [k]
        numWaitingFor := if granted then info.numWaitingFor - 1 else info.numWaitingFor }
    acquireAll (Function.update table k state) x info rs

def acquireLocks (om : OldLockManager) (t : Transaction) : OldLockManager × AcquireLocksResult :=
  let info := (om.txnInfo.lookup t.id).getD { numWaitingFor := t.keys.length }
  let (table, info) := acquireAll om.lockTable t.id info t.oldLockRequests
  ({ txnInfo := om.txnInfo.insert t.id info, lockTable := table },
    if info.numWaitingFor = 0 then .acquired else .waiting)

/-- The loop of `ReleaseLocks` over the keys of the released transaction. -/
def releaseAll (om : OldLockManager) (x : TxnId) : List Key → OldLockManager × List TxnId
  | [] => (om, [])
  | k :: ks =>
    let (state, newGrantees) := (om.lockTable k).release x
    let (info, result) := RMALockManager.grant om.txnInfo newGrantees
    let (om, result') := releaseAll
      { txnInfo := info, lockTable := Function.update om.lockTable k state } x ks
    (om, result ++ result')

def releaseLocks (om : OldLockManager) (x : TxnId) : OldLockManager × List TxnId :=
  match om.txnInfo.lookup x with
  | none => (om, [])
  | some ti =>
    let (om, result) := om.releaseAll x ti.keys
    ({ om with txnInfo := om.txnInfo.erase x }, sortUnique result)

end OldLockManager

/-! ## A lock in step with an RMA lock -/

namespace OldLockState

/-- The lock without the set of the waiting transactions. -/
def toLockState (s : OldLockState) : LockState :=
  { mode := s.mode, holders := s.holders, waiterQueue := s.waiterQueue }

/-- The set lists the queue, no transaction is there twice, and all wait for a lock. -/
structure Ok (s : OldLockState) : Prop where
  waiters : s.waiters = s.waiterQueue.map Prod.fst
  nodup : (s.holders ++ s.waiters).Nodup
  modes : ∀ w ∈ s.waiterQueue, w.2 ≠ .unlocked

theorem Ok.default : Ok {} := ⟨rfl, nodup_nil, by simp⟩

theorem setInsert_of_notMem {l : List TxnId} {x : TxnId} (h : x ∉ l) : setInsert l x = l ++ [x] :=
  if_neg h

variable {s : OldLockState} {x : TxnId}

variable {m : LockMode} {q : List (TxnId × LockMode)}

theorem Ok.wait (h : s.Ok) (hx : x ∉ s.holders ++ s.waiters) (hm : m ≠ .unlocked) :
    (s.wait x m).Ok ∧ (s.wait x m).toLockState =
      { s.toLockState with waiterQueue := s.waiterQueue ++ [(x, m)] } := by
  rw [mem_append, not_or] at hx
  refine ⟨⟨?_, ?_, fun w hw => ?_⟩, rfl⟩
  · show setInsert s.waiters x = (s.waiterQueue ++ [(x, m)]).map Prod.fst
    rw [setInsert_of_notMem hx.2, h.waiters, map_append]
    rfl
  · show (s.holders ++ setInsert s.waiters x).Nodup
    rw [setInsert_of_notMem hx.2, ← append_assoc, nodup_append]
    refine ⟨h.nodup, by simp, fun a ha b hb => ?_⟩
    rw [mem_singleton.mp hb]
    rintro rfl
    exact (mem_append.mp ha).elim hx.1 hx.2
  · rcases mem_append.mp hw with hw | hw
    · exact h.modes w hw
    · rw [mem_singleton.mp hw]
      exact hm

/-- A lock of an unlocked or shared key is taken. -/
theorem Ok.hold (h : s.Ok) (hx : x ∉ s.holders ++ s.waiters) (m : LockMode) :
    ({ s with holders := setInsert s.holders x, mode := m } : OldLockState).Ok ∧
      setInsert s.holders x = s.holders ++ [x] := by
  rw [mem_append, not_or] at hx
  refine ⟨⟨h.waiters, ?_, h.modes⟩, setInsert_of_notMem hx.1⟩
  show (setInsert s.holders x ++ s.waiters).Nodup
  rw [setInsert_of_notMem hx.1, append_assoc, singleton_append]
  refine nodup_middle.mpr (nodup_cons.mpr ⟨?_, h.nodup⟩)
  rw [mem_append, not_or]
  exact hx

/-- **Acquiring runs in step.** -/
theorem Ok.acquire (h : s.Ok) (hx : x ∉ s.holders ++ s.waiters) (m : KeyType) :
    (s.acquire x m).1.Ok ∧
      ((s.acquire x m).1.toLockState, (s.acquire x m).2) = s.toLockState.acquire x m := by
  have hempty : s.waiters = [] ↔ s.waiterQueue = [] := by rw [h.waiters, map_eq_nil_iff]
  cases m with
  | write =>
    rw [OldLockState.acquire, LockState.acquire, OldLockState.acquireWriteLock,
      LockState.acquireWriteLock]
    cases hm : s.mode with
    | unlocked =>
      obtain ⟨hok, hins⟩ := h.hold hx .write
      exact ⟨hok, by simp [toLockState, hm, hins]⟩
    | read =>
      obtain ⟨hok, heq⟩ := h.wait hx (m := .write) (by decide)
      exact ⟨hok, by simp [heq]; simp [toLockState, hm]⟩
    | write =>
      obtain ⟨hok, heq⟩ := h.wait hx (m := .write) (by decide)
      exact ⟨hok, by simp [heq]; simp [toLockState, hm]⟩
  | read =>
    rw [OldLockState.acquire, LockState.acquire, OldLockState.acquireReadLock,
      LockState.acquireReadLock]
    cases hm : s.mode with
    | unlocked =>
      obtain ⟨hok, hins⟩ := h.hold hx .read
      exact ⟨hok, by simp [toLockState, hm, hins]⟩
    | read =>
      by_cases hw : s.waiters = []
      · obtain ⟨hok, hins⟩ := h.hold hx s.mode
        simp only [hw, if_true]
        exact ⟨by simpa [hw, hm] using hok, by simp [toLockState, hm, hempty.mp hw, hins]⟩
      · obtain ⟨hok, heq⟩ := h.wait hx (m := .read) (by decide)
        simp only [hw, if_false]
        exact ⟨hok, by simp [heq]; simp [toLockState, hm, mt hempty.mpr hw]⟩
    | write =>
      obtain ⟨hok, heq⟩ := h.wait hx (m := .read) (by decide)
      exact ⟨hok, by simp [heq]; simp [toLockState, hm]⟩

/-- The front of the queue gets the lock. -/
theorem Ok.grantFront (h : s.Ok) {y : TxnId} (hq : s.waiterQueue = (y, m) :: q) :
    (s.grantFront y).Ok ∧ s.grantFront y = { s with
      holders := s.holders ++ [y], waiters := q.map Prod.fst, waiterQueue := q } := by
  have hw : s.waiters = y :: q.map Prod.fst := by rw [h.waiters, hq]; rfl
  have hnd := h.nodup
  rw [hw] at hnd
  have hy : y ∉ s.holders := fun hmem =>
    (nodup_append.mp hnd).2.2 y hmem y mem_cons_self rfl
  have heq : s.grantFront y = { s with
      holders := s.holders ++ [y], waiters := q.map Prod.fst, waiterQueue := q } := by
    rw [OldLockState.grantFront, setInsert_of_notMem hy, hw, hq, erase_cons_head]
    rfl
  refine ⟨?_, heq⟩
  rw [heq]
  exact ⟨rfl, by simpa using hnd, fun w hw => h.modes w (by rw [hq]; exact mem_cons_of_mem _ hw)⟩

/-- The readers at the head of the queue get the lock. -/
theorem Ok.grantReaders : ∀ {s : OldLockState}, s.Ok →
    s.waiterQueue = q → (s.grantReaders q).Ok ∧ (s.grantReaders q).toLockState =
      { s.toLockState with
        holders := s.holders ++ (q.takeWhile fun w => w.2 = .read).map Prod.fst,
        waiterQueue := q.dropWhile fun w => w.2 = .read } := by
  induction q with
  | nil =>
    intro s h hq
    exact ⟨h, by simp [OldLockState.grantReaders, toLockState, hq]⟩
  | cons w q ih =>
    intro s h hq
    obtain ⟨y, m⟩ := w
    cases m with
    | read =>
      obtain ⟨hok, heq⟩ := h.grantFront hq
      obtain ⟨hok', heq'⟩ := ih hok (by rw [heq])
      refine ⟨hok', ?_⟩
      rw [OldLockState.grantReaders, heq', heq]
      simp [toLockState]
    | write => exact ⟨h, by simp [OldLockState.grantReaders, toLockState, hq]⟩
    | unlocked => exact ⟨h, by simp [OldLockState.grantReaders, toLockState, hq]⟩

/-- **Releasing runs in step.** -/
theorem Ok.release (h : s.Ok) (x : TxnId) :
    (s.release x).1.Ok ∧
      ((s.release x).1.toLockState, (s.release x).2) = s.toLockState.release x := by
  have hnd := nodup_append.mp h.nodup
  have hview : s.toLockState = ⟨s.mode, s.holders, s.waiterQueue⟩ := rfl
  rw [hview, OldLockState.release, LockState.release]
  by_cases hx : x ∈ s.holders
  swap
  · -- a transaction that waits leaves the set and the queue
    have hfilter : s.waiters.erase x = (s.waiterQueue.filter fun w => w.1 ≠ x).map Prod.fst := by
      rw [hnd.2.1.erase_eq_filter, h.waiters, filter_map]
      congr 1
      apply filter_congr
      intro w _
      rw [Bool.eq_iff_iff]
      simp
    simp only [hx, not_false_eq_true, if_true]
    exact ⟨⟨hfilter, h.nodup.sublist (erase_sublist.append_left _),
      fun w hw => h.modes w (mem_of_mem_filter hw)⟩, rfl⟩
  have herase : ({ s with holders := s.holders.erase x } : OldLockState).Ok :=
    ⟨h.waiters, h.nodup.sublist (erase_sublist.append_right _), h.modes⟩
  simp only [hx, not_true_eq_false, if_false]
  by_cases hh : s.holders.erase x = []
  swap
  · simp only [hh, ne_eq, not_false_eq_true, if_true]
    exact ⟨herase, rfl⟩
  rw [hh] at herase ⊢
  simp only [ne_eq, not_true_eq_false, if_false]
  cases hw : s.waiterQueue with
  | nil =>
    have hnil : s.waiters = [] := by rw [h.waiters, hw]; rfl
    simp only [hnil, if_true]
    exact ⟨⟨rfl, nodup_nil, by simp⟩, rfl⟩
  | cons w q =>
    obtain ⟨y, m⟩ := w
    have hne : s.waiters ≠ [] := by rw [h.waiters, hw]; simp
    simp only [hne, if_false]
    rw [hw] at herase
    obtain ⟨hok, heq⟩ := herase.grantFront rfl
    cases m with
    | unlocked => exact absurd rfl (h.modes (y, .unlocked) (by rw [hw]; exact mem_cons_self))
    | write =>
      refine ⟨⟨hok.waiters, hok.nodup, hok.modes⟩, ?_⟩
      simp only [heq]
      rfl
    | read =>
      obtain ⟨hok', heq'⟩ := Ok.grantReaders hok (by rw [heq])
      refine ⟨⟨hok'.waiters, hok'.nodup, hok'.modes⟩, ?_⟩
      simp only [toLockState, LockState.mk.injEq, heq, nil_append,
        singleton_append] at heq' ⊢
      rw [heq'.2.1, heq'.2.2]

end OldLockState

/-! ## The lock manager in step with the RMA lock manager -/

namespace OldLockManager

/-- The lock manager without the sets of the waiting transactions. -/
def toRMA (om : OldLockManager) : RMALockManager :=
  { txnInfo := om.txnInfo, lockTable := fun k => (om.lockTable k).toLockState }

theorem toLockState_update (table : Key → OldLockState) (k : Key) (st : OldLockState) :
    (fun k' => (Function.update table k st k').toLockState) =
      Function.update (fun k' => (table k').toLockState) k st.toLockState := by
  funext k'
  by_cases hk : k' = k
  · subst hk
    simp
  · simp [hk]

theorem ok_update {table : Key → OldLockState} (h : ∀ k, (table k).Ok) (k : Key)
    {st : OldLockState} (hst : st.Ok) : ∀ k', (Function.update table k st k').Ok :=
  (Function.forall_update_iff table fun _ st => st.Ok).mpr ⟨hst, fun k' _ => h k'⟩

variable {x : TxnId} {om : OldLockManager}

theorem acquireAll_toRMA {rs : List (Key × KeyType)} (hnd : (rs.map Prod.fst).Nodup) :
    ∀ {table : Key → OldLockState} (info : RMATxnInfo), (∀ k, (table k).Ok) →
    (∀ r ∈ rs, x ∉ (table r.1).holders ++ (table r.1).waiters) →
    (∀ k, ((acquireAll table x info rs).1 k).Ok) ∧
      ((fun k => ((acquireAll table x info rs).1 k).toLockState), (acquireAll table x info rs).2) =
        RMALockManager.acquireAll (fun k => (table k).toLockState) x info rs := by
  induction rs with
  | nil =>
    intro table info hok _
    exact ⟨hok, rfl⟩
  | cons r rs ih =>
    intro table info hok hnew
    obtain ⟨k, m⟩ := r
    rw [map_cons, nodup_cons] at hnd
    obtain ⟨hok', heq⟩ := (hok k).acquire (hnew (k, m) mem_cons_self) m
    have hrest : ∀ r ∈ rs, x ∉ (Function.update table k ((table k).acquire x m).1 r.1).holders ++
        (Function.update table k ((table k).acquire x m).1 r.1).waiters := by
      intro r hr
      have hne : r.1 ≠ k := fun h => hnd.1 (mem_map.mpr ⟨r, hr, h⟩)
      rw [Function.update_of_ne hne]
      exact hnew r (mem_cons_of_mem _ hr)
    rw [acquireAll, RMALockManager.acquireAll, ← heq]
    simp only
    rw [← toLockState_update]
    exact ih hnd.2 _ (ok_update hok k hok') hrest

/-- **`AcquireLocks` runs in step** if no lock is requested twice. -/
theorem acquireLocks_toRMA (hok : ∀ k, (om.lockTable k).Ok) {t : Transaction}
    (hnd : (t.oldLockRequests.map Prod.fst).Nodup) (hnew : ∀ r ∈ t.oldLockRequests,
      t.id ∉ (om.lockTable r.1).holders ++ (om.lockTable r.1).waiters) :
    (∀ k, ((om.acquireLocks t).1.lockTable k).Ok) ∧
      ((om.acquireLocks t).1.toRMA, (om.acquireLocks t).2) =
        om.toRMA.acquireRequests t.id t.keys.length t.oldLockRequests := by
  obtain ⟨hok', heq⟩ := acquireAll_toRMA hnd
    ((om.txnInfo.lookup t.id).getD { numWaitingFor := t.keys.length }) hok hnew
  refine ⟨hok', ?_⟩
  simp only [toRMA, acquireLocks, RMALockManager.acquireRequests, ← heq]

/-- The lock manager after the release of `x` on the key `k`. -/
def releaseOne (om : OldLockManager) (x : TxnId) (k : Key) : OldLockManager :=
  { txnInfo := (RMALockManager.grant om.txnInfo ((om.lockTable k).release x).2).1
    lockTable := Function.update om.lockTable k ((om.lockTable k).release x).1 }

theorem releaseAll_cons (om : OldLockManager) (x : TxnId) (k : Key) (ks : List Key) :
    om.releaseAll x (k :: ks) =
      (((om.releaseOne x k).releaseAll x ks).1,
        (RMALockManager.grant om.txnInfo ((om.lockTable k).release x).2).2
          ++ ((om.releaseOne x k).releaseAll x ks).2) := rfl

theorem releaseAll_toRMA {ks : List Key} : ∀ {om : OldLockManager},
    (∀ k, (om.lockTable k).Ok) → (∀ k, ((om.releaseAll x ks).1.lockTable k).Ok) ∧
      ((om.releaseAll x ks).1.toRMA, (om.releaseAll x ks).2) = om.toRMA.releaseAll x ks := by
  induction ks with
  | nil =>
    intro om hok
    exact ⟨hok, rfl⟩
  | cons k ks ih =>
    intro om hok
    obtain ⟨hok', heq⟩ := (hok k).release x
    have hstate : (om.toRMA.lockTable k).release x =
        (((om.lockTable k).release x).1.toLockState, ((om.lockTable k).release x).2) := heq.symm
    have hone : (om.releaseOne x k).toRMA = om.toRMA.releaseOne x k := by
      simp only [toRMA, releaseOne, RMALockManager.releaseOne, toLockState_update] at hstate ⊢
      rw [hstate]
    obtain ⟨h1, h2⟩ := @ih (om.releaseOne x k) (ok_update hok k hok')
    refine ⟨h1, ?_⟩
    rw [RMALockManager.releaseAll_cons, releaseAll_cons, ← hone, ← h2, hstate]
    rfl

/-- **`ReleaseLocks` runs in step.** -/
theorem releaseLocks_toRMA (hok : ∀ k, (om.lockTable k).Ok) (x : TxnId) :
    (∀ k, ((om.releaseLocks x).1.lockTable k).Ok) ∧
      ((om.releaseLocks x).1.toRMA, (om.releaseLocks x).2) = om.toRMA.releaseLocks x := by
  rw [releaseLocks, RMALockManager.releaseLocks, show om.toRMA.txnInfo = om.txnInfo from rfl]
  cases hx : om.txnInfo.lookup x with
  | none => exact ⟨hok, rfl⟩
  | some ti =>
    obtain ⟨hok', heq⟩ := @releaseAll_toRMA x ti.keys om hok
    simp only
    rw [← heq]
    exact ⟨hok', rfl⟩

end OldLockManager

end Slog
