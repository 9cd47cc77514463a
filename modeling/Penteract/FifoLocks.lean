/-
# First come, first served

What the lock managers with full queues promise: a lock is not granted exactly when an earlier
request that has not been released conflicts with it, and releasing a transaction returns those
that have all their locks afterwards and did not before.  The promise is kept as long as only
holders leave a lock.  A transaction may also leave while it waits, and then it is kept unless
the transaction was the writer on whom the readers behind it waited: the lock is shared, and
nobody hands it to them.
-/
import Penteract.Lib.Run
import Penteract.OldLockManager

namespace Slog

open List Option

/-! ## Releasing a transaction that waits -/

/-- `x` waits to write a lock that readers hold, and the next one in the queue is a reader: if
`x` leaves, the reader is passed over. -/
def LockState.passesOver (l : LockState) (x : TxnId) : Bool :=
  match l.mode, l.waiterQueue with
  | .read, (y, .write) :: (_, .read) :: _ => y = x
  | _, _ => false

/-- **A waiting transaction leaves**: nothing else changes, unless it passes over a reader. -/
theorem releaseOk_waiting {q : List Request} (hnd : (q.map Prod.fst).Nodup) {x : TxnId}
    (hx : x ∉ (stateOf q).holders) (hpass : (stateOf q).passesOver x = false) : ReleaseOk q x := by
  have hfilter : ∀ l : List Request,
      (l.map waiter).filter (fun w => w.1 ≠ x) = (without l x).map waiter := by
    intro l
    rw [List.filter_map, without]
    rfl
  have hrel : (stateOf q).release x =
      ({ stateOf q with waiterQueue := (stateOf q).waiterQueue.filter fun w => w.1 ≠ x }, []) := by
    rw [LockState.release, if_pos hx]
  refine releaseOk_of_eq hnd ?_
  rw [hrel]
  cases q with
  | nil => rfl
  | cons r q =>
    obtain ⟨y, m⟩ := r
    cases m with
    | write =>
      have hyx : y ≠ x := fun h => hx (by rw [← h]; exact mem_singleton_self y)
      have hcons : without ((y, KeyType.write) :: q) x = (y, .write) :: without q x :=
        filter_cons_of_pos (by simpa using hyx)
      rw [hcons, stateOf, stateOf, hfilter]
    | read =>
      obtain ⟨reads, rest, rfl, hreads, hrest⟩ := exists_reads q
      rw [stateOf_reads y hreads hrest] at hx hpass ⊢
      have hkeep : without ((y, KeyType.read) :: reads) x = (y, .read) :: reads :=
        without_of_notMem hx
      have hcons : without ((y, KeyType.read) :: (reads ++ rest)) x =
          (y, .read) :: (reads ++ without rest x) := by
        rw [← cons_append, without, filter_append, ← without, ← without, hkeep]
        rfl
      have hrest' : without rest x = [] ∨
          ∃ w rest', without rest x = (w, KeyType.write) :: rest' := by
        rcases hrest with rfl | ⟨w, rest', rfl⟩
        · exact .inl rfl
        by_cases hwx : w = x
        · -- `x` is the writer, so that the next one is no reader
          subst hwx
          have hout : without ((w, KeyType.write) :: rest') w = rest' := by
            rw [without, filter_cons_of_neg (by simp), ← without]
            refine without_of_notMem fun h => ?_
            have := hnd.sublist ((sublist_append_right ((y, KeyType.read) :: reads)
              ((w, .write) :: rest')).map Prod.fst)
            rw [map_cons, nodup_cons] at this
            exact this.1 h
          rw [hout]
          cases rest' with
          | nil => exact .inl rfl
          | cons z rest' =>
            obtain ⟨z, mz⟩ := z
            cases mz with
            | write => exact .inr ⟨z, rest', rfl⟩
            | read => simp [LockState.passesOver, waiter, KeyType.lockMode] at hpass
        · exact .inr ⟨w, without rest' x, filter_cons_of_pos (by simpa using hwx)⟩
      rw [hcons, stateOf_reads y hreads hrest', hfilter]

/-! ## The two lock managers -/

/-- A lock manager with full queues: its calls, what a transaction requests and waits for, and
the state of a lock. -/
structure QueueManager where
  State : Type
  init : State
  acquireLocks : State → Transaction → State × AcquireLocksResult
  releaseLocks : State → TxnId → State × List TxnId
  requests : Transaction → List (KeyRegion × KeyType)
  required : Transaction → ℤ
  lock : State → KeyRegion → LockState

def rmaManager : QueueManager where
  State := RMALockManager
  init := {}
  acquireLocks := RMALockManager.acquireLocks
  releaseLocks := RMALockManager.releaseLocks
  requests := Transaction.lockRequests
  required := Transaction.numRequiredLocks
  lock := RMALockManager.lockTable

def oldManager : QueueManager where
  State := OldLockManager
  init := {}
  acquireLocks := OldLockManager.acquireLocks
  releaseLocks := OldLockManager.releaseLocks
  requests := Transaction.oldLockRequests
  required t := t.keys.length
  lock om k := (om.lockTable k).toLockState

/-- The manager runs in step with the RMA lock manager, as seen through `abs`. -/
structure QueueManager.Follows (M : QueueManager) (abs : M.State → RMALockManager)
    (ok : M.State → Prop) : Prop where
  init : abs M.init = {} ∧ ok M.init
  lock : ∀ s, M.lock s = (abs s).lockTable
  acquire : ∀ s t, ok s → ((M.requests t).map Prod.fst).Nodup →
    (∀ r ∈ M.requests t,
      t.id ∉ (M.lock s r.1).holders ++ (M.lock s r.1).waiterQueue.map Prod.fst) →
    ok (M.acquireLocks s t).1 ∧
      abs (M.acquireLocks s t).1 =
        ((abs s).acquireRequests t.id (M.required t) (M.requests t)).1
  release : ∀ s x, ok s → ok (M.releaseLocks s x).1 ∧
    (abs (M.releaseLocks s x).1, (M.releaseLocks s x).2) = (abs s).releaseLocks x

theorem rmaManager_follows : rmaManager.Follows (fun rm => rm) fun _ => True where
  init := ⟨rfl, trivial⟩
  lock _ := rfl
  acquire _ _ _ _ _ := ⟨trivial, rfl⟩
  release _ _ _ := ⟨trivial, rfl⟩

theorem oldManager_follows :
    oldManager.Follows OldLockManager.toRMA fun om => ∀ k, (om.lockTable k).Ok where
  init := ⟨rfl, fun _ => OldLockState.Ok.default⟩
  lock _ := rfl
  acquire om t hok hnd hnew := by
    obtain ⟨hok', heq⟩ := OldLockManager.acquireLocks_toRMA hok hnd fun r hr => by
      rw [(hok r.1).waiters]
      exact hnew r hr
    exact ⟨hok', congrArg Prod.fst heq⟩
  release _ x hok := OldLockManager.releaseLocks_toRMA hok x

/-! ## Runs -/

inductive QueueCall where
  | acquire (t : Transaction)
  | release (x : TxnId)

/-- A lock manager, and what has been requested from it and not released: the queues, and for
every transaction the locks that it waits for and those that it has requested. -/
structure QueueRun (M : QueueManager) where
  lm : M.State := M.init
  queue : KeyRegion → List Request := fun _ => []
  live : List TxnId := []
  need : TxnId → ℤ := fun _ => 0
  made : TxnId → List KeyRegion := fun _ => []

namespace QueueRun

variable {M : QueueManager}

/-- What `x` waits for once it has made its next requests, and what it has requested before. -/
def needOf (s : QueueRun M) (t : Transaction) : ℤ :=
  if t.id ∈ s.live then s.need t.id else M.required t

def madeOf (s : QueueRun M) (x : TxnId) : List KeyRegion :=
  if x ∈ s.live then s.made x else []

/-- A call of the lock manager, and what it does to the requests. -/
def call (s : QueueRun M) : QueueCall → QueueRun M
  | .acquire t => {
      lm := (M.acquireLocks s.lm t).1,
      queue := addRequests s.queue t.id (M.requests t),
      live := if t.id ∈ s.live then s.live else t.id :: s.live,
      need := Function.update s.need t.id (s.needOf t),
      made := Function.update s.made t.id (s.madeOf t.id ++ (M.requests t).map Prod.fst) }
  | .release x => { s with
      lm := (M.releaseLocks s.lm x).1,
      queue := fun k => without (s.queue k) x,
      live := s.live.filter fun y => y ≠ x }

variable {s : QueueRun M}

theorem mem_live_acquire {t : Transaction} {v : TxnId} :
    v ∈ (s.call (.acquire t)).live ↔ v = t.id ∨ v ∈ s.live := by
  simp only [call]
  split_ifs with ht
  · exact ⟨.inr, fun h => h.elim (fun h => h ▸ ht) fun h => h⟩
  · exact mem_cons

def step (s : QueueRun M) (c : QueueCall) : Option (QueueRun M) := some (s.call c)

/-- A transaction requests no lock twice and not more locks than it waits for, and when it is
released no reader is passed over. -/
def Keeps (s : QueueRun M) : QueueCall → Prop
  | .acquire t => ((M.requests t).map Prod.fst).Nodup ∧
      (∀ r ∈ M.requests t, t.id ∉ (s.queue r.1).map Prod.fst) ∧
      (((s.madeOf t.id).length + (M.requests t).length : ℕ) : ℤ) ≤ s.needOf t
  | .release x => ∀ k ∈ s.madeOf x, (M.lock s.lm k).passesOver x = false

instance (s : QueueRun M) : ∀ c, Decidable (s.Keeps c)
  | .acquire _ => inferInstanceAs (Decidable (_ ∧ _ ∧ _))
  | .release x => inferInstanceAs (Decidable (∀ k ∈ s.madeOf x, _))

/-- **First come, first served**: a lock is not granted exactly when an earlier request
conflicts with it. -/
def Fifo (s : QueueRun M) : Prop :=
  ∀ k, ∀ r ∈ s.queue k,
    r.1 ∉ (M.lock s.lm k).holders ↔ ∃ r', ConflictsBefore (s.queue k) r' r

/-- All locks that the transaction waits for are requested and granted. -/
def FullyGranted (s : QueueRun M) (v : TxnId) : Prop :=
  v ∈ s.live ∧ ((s.made v).length : ℤ) = s.need v ∧
    ∀ k ∈ s.made v, v ∈ (M.lock s.lm k).holders

instance (s : QueueRun M) (v : TxnId) : Decidable (s.FullyGranted v) :=
  inferInstanceAs (Decidable (_ ∧ _ ∧ _))

/-- Through `abs`, the lock manager follows the queues of the run. -/
structure Inv (abs : M.State → RMALockManager) (ok : M.State → Prop) (s : QueueRun M) : Prop where
  ok : ok s.lm
  queues : (abs s.lm).QueueInv s.need s.queue
  made : ∀ v, ((abs s.lm).txnInfo.lookup v).map RMATxnInfo.keys =
    if v ∈ s.live then some (s.made v) else none

namespace Inv

variable {abs : M.State → RMALockManager} {ok : M.State → Prop} {s : QueueRun M}

variable {v : TxnId}

theorem mem_live (hI : Inv abs ok s) : v ∈ s.live ↔ v ∈ (abs s.lm).txnInfo := by
  have h := congrArg Option.isSome (hI.made v)
  rw [isSome_map] at h
  rw [AssocMap.mem_iff_lookup, ← isSome_iff_exists, h]
  split_ifs with hv <;> simp [hv]

theorem keys_eq (hI : Inv abs ok s) {ti : RMATxnInfo} (hti : (abs s.lm).txnInfo.lookup v = some ti) :
    ti.keys = s.made v := by
  have h := hI.made v
  rw [hti, if_pos (hI.mem_live.mpr (AssocMap.mem_iff_lookup.mpr ⟨ti, hti⟩))] at h
  exact some_inj.mp h

theorem madeOf_eq (hI : Inv abs ok s) (x : TxnId) :
    s.madeOf x = (((abs s.lm).txnInfo.lookup x).map RMATxnInfo.keys).getD [] := by
  rw [hI.made, madeOf]
  split_ifs <;> rfl

theorem numRequested_eq (hI : Inv abs ok s) (x : TxnId) :
    RMALockManager.QueueInv.numRequested (abs s.lm) x = (s.madeOf x).length := by
  rw [RMALockManager.QueueInv.numRequested, hI.madeOf_eq]
  cases (abs s.lm).txnInfo.lookup x <;> rfl

section Follows

variable (hM : M.Follows abs ok)
include hM

theorem lock_eq (hI : Inv abs ok s) (k : KeyRegion) :
    M.lock s.lm k = stateOf (s.queue k) := by
  rw [hM.lock, hI.queues.table]

theorem fifo (hI : Inv abs ok s) : s.Fifo := by
  intro k r hr
  rw [hI.lock_eq hM, mem_holders_stateOf (hI.queues.distinct k) hr]
  push Not
  rfl

/-- The counter of a transaction is zero exactly when it is fully granted. -/
theorem fullyGranted_iff (hI : Inv abs ok s) (v : TxnId) :
    s.FullyGranted v ↔
      ∃ ti, (abs s.lm).txnInfo.lookup v = some ti ∧ ti.numWaitingFor = 0 := by
  have hzero : ∀ ti, (abs s.lm).txnInfo.lookup v = some ti → (ti.numWaitingFor = 0 ↔
      ((s.made v).length : ℤ) = s.need v ∧ ∀ k ∈ s.made v, v ∈ (M.lock s.lm k).holders) := by
    intro ti hti
    rw [hI.queues.numWaitingFor_eq_zero_iff hti, hI.keys_eq hti, hM.lock]
  rw [FullyGranted, hI.mem_live, AssocMap.mem_iff_lookup]
  constructor
  · rintro ⟨⟨ti, hti⟩, hall⟩
    exact ⟨ti, hti, (hzero ti hti).mpr hall⟩
  · rintro ⟨ti, hti, h0⟩
    exact ⟨⟨ti, hti⟩, (hzero ti hti).mp h0⟩

theorem init : Inv abs ok ({} : QueueRun M) := by
  obtain ⟨habs, hok⟩ := hM.init
  refine ⟨hok, ?_, ?_⟩
  · rw [habs]
    exact .init
  · rw [habs]
    simp

theorem acquire (hI : Inv abs ok s) {t : Transaction} (hkeeps : s.Keeps (.acquire t)) :
    Inv abs ok (s.call (.acquire t)) := by
  obtain ⟨hnd, hnew, hle⟩ := hkeeps
  obtain ⟨hok, habs⟩ := hM.acquire s.lm t hI.ok hnd fun r hr hmem => by
    rw [hI.lock_eq hM] at hmem
    exact hnew r hr (members_stateOf (s.queue r.1) ▸ hmem)
  refine ⟨hok, ?_, fun v => ?_⟩
  · rw [call, habs]
    refine hI.queues.acquireRequests hnd hnew (fun v hv => ?_) (fun hx => ?_) ?_ <;> dsimp only
    · by_cases hvt : v = t.id
      · subst hvt
        rw [Function.update_self, needOf, if_pos (hI.mem_live.mpr hv)]
      · exact Function.update_of_ne hvt _ _
    · rw [Function.update_self, needOf, if_neg fun h => hx (hI.mem_live.mp h)]
    · rw [Function.update_self, hI.numRequested_eq]
      exact hle
  · simp only [mem_live_acquire]
    rw [call, habs, RMALockManager.keys_acquireRequests, ← hI.madeOf_eq, hI.made]
    by_cases hvt : v = t.id
    · subst hvt
      simp
    · simp [hvt]

variable {x : TxnId}

/-- The transaction leaves every lock as it should. -/
theorem releaseOk (hI : Inv abs ok s) (hkeeps : s.Keeps (.release x)) {ti : RMATxnInfo}
    (hx : (abs s.lm).txnInfo.lookup x = some ti) : ∀ k ∈ ti.keys, ReleaseOk (s.queue k) x := by
  intro k hk
  have hpass := hkeeps k (by rw [hI.madeOf_eq, hx]; exact hk)
  rw [hI.lock_eq hM] at hpass
  by_cases hholds : x ∈ (stateOf (s.queue k)).holders
  · exact release_stateOf (hI.queues.distinct k) hholds
  · exact releaseOk_waiting (hI.queues.distinct k) hholds hpass

theorem release (hI : Inv abs ok s) (hkeeps : s.Keeps (.release x)) :
    Inv abs ok (s.call (.release x)) ∧ ∀ v, v ∈ (M.releaseLocks s.lm x).2 ↔
      ¬ s.FullyGranted v ∧ (s.call (.release x)).FullyGranted v := by
  obtain ⟨hok, heq⟩ := hM.release s.lm x hI.ok
  obtain ⟨habs, hres⟩ := Prod.ext_iff.mp heq
  dsimp only at habs hres
  cases hx : (abs s.lm).txnInfo.lookup x with
  | none =>
    have hnot : x ∉ (abs s.lm).txnInfo := AssocMap.not_mem_iff_lookup.mpr hx
    have hrm : (abs s.lm).releaseLocks x = (abs s.lm, []) := by
      rw [RMALockManager.releaseLocks, hx]
    have hI' : Inv abs ok (s.call (.release x)) := by
      refine ⟨hok, ?_, fun v => ?_⟩
      · have hqueue : (fun k => without (s.queue k) x) = s.queue :=
          funext fun k => without_of_notMem fun h => hnot (hI.queues.live k x (hI.queues.members_eq k ▸ h))
        rw [call, habs, hrm, hqueue]
        exact hI.queues
      · simp only [call, habs, hrm, hI.made, mem_filter, decide_eq_true_eq]
        by_cases hvx : v = x
        · subst hvx
          simp [hI.mem_live, hnot]
        · simp [hvx]
    refine ⟨hI', fun v => ?_⟩
    rw [hI.fullyGranted_iff hM, hI'.fullyGranted_iff hM]
    simp only [call, habs, hres, hrm]
    simp
  | some ti =>
    obtain ⟨hqueues, hret⟩ := hI.queues.releaseLocks hx (hI.releaseOk hM hkeeps hx)
    have hI' : Inv abs ok (s.call (.release x)) := by
      refine ⟨hok, ?_, fun v => ?_⟩
      · rw [call, habs]
        exact hqueues
      · simp only [call, habs]
        rw [RMALockManager.keys_releaseLocks hx, hI.made]
        by_cases hvx : v = x <;> simp [hvx]
    refine ⟨hI', fun v => ?_⟩
    rw [hI.fullyGranted_iff hM, hI'.fullyGranted_iff hM, hres, hret]
    simp only [call, habs]
    constructor
    · rintro ⟨tv, tv', htv, hne, htv', h0⟩
      refine ⟨?_, tv', htv', h0⟩
      rintro ⟨tw, htw, h0'⟩
      exact hne (some_inj.mp (htv.symm.trans htw) ▸ h0')
    · rintro ⟨hnot, tv', htv', h0⟩
      have hkeys := RMALockManager.keys_releaseLocks hx v
      rw [htv', map_some] at hkeys
      split_ifs at hkeys
      obtain ⟨tv, htv, -⟩ := map_eq_some_iff.mp hkeys.symm
      exact ⟨tv, tv', htv, fun h => hnot ⟨tv, htv, h⟩, htv', h0⟩

/-- What the calls of a run keep. -/
theorem run {cs : List QueueCall} (hkeeps : Lts.Meets step Keeps ({} : QueueRun M) cs)
    (hrun : Lts.run step ({} : QueueRun M) cs = some s) : Inv abs ok s := by
  refine Lts.invariant_meets step (init hM) (fun s c s' _ hI hc hstep => ?_) hkeeps hrun
  cases some_inj.mp hstep
  cases c with
  | acquire t => exact hI.acquire hM hc
  | release x => exact (hI.release hM hc).1

end Follows

end Inv

/-- **The lock managers serve first come, first served**: in every run of the RMA and of the OLD
lock manager in which no reader is passed over, a lock is not granted exactly when an earlier
request that has not been released conflicts with it, and `ReleaseLocks` returns exactly the
transactions that it made fully granted. -/
theorem fifo_of_keeps {M : QueueManager} (hM : M = rmaManager ∨ M = oldManager)
    {cs : List QueueCall} {s : QueueRun M}
    (hkeeps : Lts.Meets step Keeps ({} : QueueRun M) cs) (hrun : Lts.run step {} cs = some s) :
    s.Fifo ∧ ∀ x, s.Keeps (.release x) → ∀ v,
      v ∈ (M.releaseLocks s.lm x).2 ↔
        ¬ s.FullyGranted v ∧ (s.call (.release x)).FullyGranted v := by
  rcases hM with rfl | rfl
  · have hI := Inv.run rmaManager_follows hkeeps hrun
    exact ⟨hI.fifo rmaManager_follows, fun x hx => (hI.release rmaManager_follows hx).2⟩
  · have hI := Inv.run oldManager_follows hkeeps hrun
    exact ⟨hI.fifo oldManager_follows, fun x hx => (hI.release oldManager_follows hx).2⟩

/-- A transaction that reads or writes `A`, mastered at region `0`. -/
def keyTxn (x : TxnId) (m : KeyType) : Transaction :=
  { internal := { id := x },
    keys := [{ key := "A", type := m, metadata := some { master := 0 } }] }

/-- A reader leaves the middle of the queue, and then the lock is handed over. -/
def servedCalls : List QueueCall :=
  [.acquire (keyTxn 1 .write), .acquire (keyTxn 2 .read), .acquire (keyTxn 3 .write), .release 2]

theorem fifo_served : ∃ s, Lts.Meets step Keeps ({} : QueueRun oldManager) servedCalls ∧
    Lts.run step {} servedCalls = some s ∧ s.Fifo ∧
    (oldManager.releaseLocks s.lm 1).2 = [3] ∧
    ¬ s.FullyGranted 3 ∧ (s.call (.release 1)).FullyGranted 3 := by
  have hkeeps : Lts.Meets step Keeps ({} : QueueRun oldManager) servedCalls := by decide +kernel
  obtain ⟨s, hs, hrel, hret⟩ : ∃ s ∈ Lts.run step ({} : QueueRun oldManager) servedCalls,
      s.Keeps (.release 1) ∧ (oldManager.releaseLocks s.lm 1).2 = [3] := by decide +kernel
  obtain ⟨hfifo, hexact⟩ := fifo_of_keeps (.inr rfl) hkeeps hs
  exact ⟨s, hkeeps, hs, hfifo, hret, (hexact 1 hrel 3).mp (by rw [hret]; simp)⟩

/-- A writer gives up waiting for the lock that the first reader holds; the second reader waited
behind it. -/
def passedCalls : List QueueCall :=
  [.acquire (keyTxn 1 .read), .acquire (keyTxn 2 .write), .acquire (keyTxn 3 .read), .release 2]

/-- A lock that only readers have requested is granted to all of them. -/
theorem not_fifo_of_readers {k : KeyRegion} (hq : s.queue k = [(1, .read), (3, .read)])
    (h3 : 3 ∉ (M.lock s.lm k).holders) : ¬ s.Fifo := by
  intro hfifo
  obtain ⟨r, hbefore⟩ := (hfifo k (3, .read) (by rw [hq]; simp)).mp h3
  have hr := hbefore.mem.1
  rw [hq] at hr
  have hread : r.2 = .read := by
    simp only [mem_cons, not_mem_nil, or_false] at hr
    rcases hr with rfl | rfl <;> rfl
  rcases hbefore.2 with h | h
  · simp [hread] at h
  · simp at h

/-- **A reader is passed over**: nobody conflicts with it, and it waits. -/
theorem not_fifo_passed :
    (∃ s, Lts.run step ({} : QueueRun rmaManager) passedCalls = some s ∧ ¬ s.Fifo) ∧
    ∃ s, Lts.run step ({} : QueueRun oldManager) passedCalls = some s ∧ ¬ s.Fifo := by
  constructor
  · refine Lts.exists_run (p := fun s => s.queue (makeKeyRegion "A" 0) = [(1, .read), (3, .read)] ∧
      3 ∉ (rmaManager.lock s.lm (makeKeyRegion "A" 0)).holders) (by decide +kernel) ?_
    exact fun s _ h => not_fifo_of_readers h.1 h.2
  · refine Lts.exists_run (p := fun s => s.queue "A" = [(1, .read), (3, .read)] ∧
      3 ∉ (oldManager.lock s.lm "A").holders) (by decide +kernel) ?_
    exact fun s _ h => not_fifo_of_readers h.1 h.2

/-! ## Progress -/

/-- Every transaction makes all of its requests in one call. -/
def Whole (s : QueueRun M) : QueueCall → Prop
  | .acquire t => t.id ∉ s.live ∧ M.required t = (M.requests t).length
  | .release _ => True

instance (s : QueueRun M) : ∀ c, Decidable (s.Whole c)
  | .acquire _ => inferInstanceAs (Decidable (_ ∧ _))
  | .release _ => .isTrue trivial

/-- All queues have the order in which the transactions came. -/
structure Aligned (s : QueueRun M) : Prop where
  nodup : s.live.Nodup
  queues : ∀ k, ((s.queue k).map Prod.fst).Sublist s.live.reverse
  made : ∀ v ∈ s.live, ((s.made v).length : ℤ) = s.need v

theorem Aligned.call (h : Aligned s) {c : QueueCall} (hkeeps : s.Keeps c) (hwhole : s.Whole c) :
    Aligned (s.call c) := by
  cases c with
  | acquire t =>
    obtain ⟨hnew, hrequired⟩ := hwhole
    simp only [QueueRun.call, needOf, madeOf, if_neg hnew]
    refine ⟨h.nodup.cons hnew, fun k => ?_, fun v hv => ?_⟩
    · dsimp only
      rw [reverse_cons]
      rcases addRequests_cases s.queue t.id hkeeps.1 k with ⟨-, hq⟩ | ⟨m, -, hq⟩
      · rw [hq]
        exact (h.queues k).trans (sublist_append_left ..)
      · rw [hq, map_append]
        exact (h.queues k).append (.refl _)
    · by_cases hvt : v = t.id
      · simp [hvt, hrequired]
      · simpa [hvt] using h.made v ((mem_cons.mp hv).resolve_left hvt)
  | release x =>
    refine ⟨h.nodup.filter _, fun k => ?_, fun v hv => h.made v (mem_filter.mp hv).1⟩
    have hsub := (h.queues k).filter fun y => y ≠ x
    rwa [List.filter_map, filter_reverse] at hsub

theorem Aligned.run {cs : List QueueCall} (hkeeps : Lts.Meets step Keeps ({} : QueueRun M) cs)
    (hwhole : Lts.Meets step Whole ({} : QueueRun M) cs) (hrun : Lts.run step {} cs = some s) :
    Aligned s := by
  have hinit : Aligned ({} : QueueRun M) := ⟨.nil, fun _ => .refl _, by simp⟩
  refine Lts.invariant_meets step (C := fun s c => s.Keeps c ∧ s.Whole c) hinit
    (fun s c s' _ h hc hs => ?_)
    (fun es₁ c es₂ s h hs => ⟨hkeeps es₁ c es₂ s h hs, hwhole es₁ c es₂ s h hs⟩) hrun
  cases hs
  exact h.call hc.1 hc.2

/-- **The oldest transaction has all its locks**, if transactions make all of their requests at once:
there is no deadlock. -/
theorem oldest_fullyGranted (hM : M = rmaManager ∨ M = oldManager) {cs : List QueueCall}
    (hkeeps : Lts.Meets step Keeps ({} : QueueRun M) cs)
    (hwhole : Lts.Meets step Whole ({} : QueueRun M) cs) (hrun : Lts.run step {} cs = some s)
    {x : TxnId} (hx : s.live.getLast? = some x) : s.FullyGranted x := by
  obtain ⟨abs, ok, hF, hI⟩ : ∃ abs ok, M.Follows abs ok ∧ Inv abs ok s := by
    rcases hM with rfl | rfl
    · exact ⟨_, _, rmaManager_follows, Inv.run rmaManager_follows hkeeps hrun⟩
    · exact ⟨_, _, oldManager_follows, Inv.run oldManager_follows hkeeps hrun⟩
  have halign := Aligned.run hkeeps hwhole hrun
  obtain ⟨live, hlive⟩ := getLast?_eq_some_iff.mp hx
  have hmem : x ∈ s.live := by simp [hlive]
  refine ⟨hmem, halign.made x hmem, fun k hk => ?_⟩
  obtain ⟨ti, hti⟩ := AssocMap.mem_iff_lookup.mp (hI.mem_live.mp hmem)
  rw [← hI.keys_eq hti, (hI.queues.entries x ti hti).keys, hI.queues.members_eq] at hk
  obtain ⟨r, hr, rfl⟩ := mem_map.mp hk
  by_contra hnot
  -- nobody came before the oldest transaction
  obtain ⟨r', hsub, -⟩ := (hI.fifo hF k r hr).mp hnot
  have hpair := (hsub.map Prod.fst).trans (halign.queues k)
  have hnodup := nodup_reverse.mpr halign.nodup
  rw [hlive, reverse_concat] at hpair hnodup
  rcases pair_sublist_cons_iff.mp hpair with ⟨-, h⟩ | h
  · exact (nodup_cons.mp hnodup).1 h
  · exact (nodup_cons.mp hnodup).1 (h.subset (by simp))

/-- The writer that came first holds the lock. -/
theorem oldest_served : ∃ s, Lts.run step ({} : QueueRun oldManager) servedCalls = some s ∧
    s.live = [3, 1] ∧ s.FullyGranted 1 :=
  Lts.exists_run (p := fun s => s.live = [3, 1]) (by decide +kernel) fun s hs hlive =>
    ⟨hlive, oldest_fullyGranted (.inr rfl) (by decide +kernel) (by decide +kernel) hs
      (by rw [hlive]; rfl)⟩

end QueueRun

end Slog
