/-
# The RMA lock manager follows its queues

The state of a lock is a function of the queue of requests that have not been released.
`AcquireLocks` keeps this for any requests that the transaction has not made before, and
`ReleaseLocks` does whenever `Release` passes on the lock of every key as it should.
-/
import Penteract.RMALockManager

namespace Slog

open List

/-! ## The state of a lock as a function of its queue -/

def KeyType.lockMode : KeyType → LockMode
  | .read => .read
  | .write => .write

def waiter (r : Request) : TxnId × LockMode := (r.1, r.2.lockMode)

def isRead (r : Request) : Bool := r.2 = .read

/-- The state of a lock whose requests that are not released are `q`, in order of arrival. -/
def stateOf : List Request → LockState
  | [] => {}
  | (x, .write) :: q => { mode := .write, holders := [x], waiterQueue := q.map waiter }
  | (x, .read) :: q =>
    { mode := .read, holders := x :: (q.takeWhile isRead).map Prod.fst,
      waiterQueue := (q.dropWhile isRead).map waiter }

/-- A queue is a run of readers followed by nothing or by a writer. -/
theorem exists_reads (q : List Request) :
    ∃ reads rest, q = reads ++ rest ∧ (∀ r ∈ reads, isRead r = true) ∧
      (rest = [] ∨ ∃ w rest', rest = (w, KeyType.write) :: rest') := by
  induction q with
  | nil => exact ⟨[], [], rfl, by simp, .inl rfl⟩
  | cons r q ih =>
    obtain ⟨x, m⟩ := r
    cases m with
    | read =>
      obtain ⟨reads, rest, rfl, hreads, hrest⟩ := ih
      exact ⟨(x, .read) :: reads, rest, rfl, by simpa [isRead] using hreads, hrest⟩
    | write => exact ⟨[], (x, .write) :: q, rfl, by simp, .inr ⟨x, q, rfl⟩⟩

theorem stateOf_reads (x : TxnId) {reads rest : List Request}
    (hreads : ∀ r ∈ reads, isRead r = true)
    (hrest : rest = [] ∨ ∃ w rest', rest = (w, KeyType.write) :: rest') :
    stateOf ((x, .read) :: (reads ++ rest)) =
      { mode := .read, holders := x :: reads.map Prod.fst, waiterQueue := rest.map waiter } := by
  have htake : (reads ++ rest).takeWhile isRead = reads := by
    rw [takeWhile_append_of_pos hreads]
    rcases hrest with rfl | ⟨w, rest', rfl⟩
    · simp
    · simp [isRead]
  have hdrop : (reads ++ rest).dropWhile isRead = rest := by
    rw [dropWhile_append_of_pos hreads]
    rcases hrest with rfl | ⟨w, rest', rfl⟩
    · simp
    · simp [isRead]
  rw [stateOf, htake, hdrop]

/-- **Acquiring maintains the function.**  The lock is granted exactly when nothing in the
queue conflicts with the request. -/
theorem acquire_stateOf (q : List Request) (x : TxnId) (m : KeyType) :
    ((stateOf q).acquire x m).1 = stateOf (q ++ [(x, m)]) ∧
      (((stateOf q).acquire x m).2 = true ↔ ∀ r ∈ q, ¬ Conflict r.2 m) := by
  cases q with
  | nil => cases m <;> simp [stateOf, LockState.acquire, LockState.acquireReadLock,
      LockState.acquireWriteLock]
  | cons r q =>
    obtain ⟨y, my⟩ := r
    cases my with
    | write =>
      -- Whatever is requested, it waits behind the writer.
      have hc : ¬ ∀ r ∈ (y, KeyType.write) :: q, ¬ Conflict r.2 m := fun h =>
        h (y, .write) mem_cons_self (.inl rfl)
      refine ⟨?_, iff_of_false ?_ hc⟩ <;>
      cases m <;> simp [stateOf, LockState.acquire, LockState.acquireReadLock,
        LockState.acquireWriteLock, waiter, KeyType.lockMode]
    | read =>
      obtain ⟨reads, rest, rfl, hreads, hrest⟩ := exists_reads q
      rw [stateOf_reads y hreads hrest]
      cases m with
      | write =>
        have hrest' : rest ++ [(x, KeyType.write)] = [] ∨
            ∃ w rest', rest ++ [(x, KeyType.write)] = (w, KeyType.write) :: rest' := by
          rcases hrest with rfl | ⟨w, rest', rfl⟩
          · exact .inr ⟨x, [], rfl⟩
          · exact .inr ⟨w, rest' ++ [(x, .write)], rfl⟩
        have hc : ¬ ∀ r ∈ (y, KeyType.read) :: (reads ++ rest), ¬ Conflict r.2 .write :=
          fun h => h (y, .read) mem_cons_self (.inr rfl)
        refine ⟨?_, iff_of_false ?_ hc⟩
        · rw [cons_append, append_assoc, stateOf_reads y hreads hrest']
          simp [LockState.acquire, LockState.acquireWriteLock, waiter, KeyType.lockMode]
        · simp [LockState.acquire, LockState.acquireWriteLock]
      | read =>
        rcases hrest with rfl | ⟨w, rest', rfl⟩
        · -- Only readers: the lock is shared.
          have hreads' : ∀ r ∈ reads ++ [(x, KeyType.read)], isRead r = true := by
            intro r hr
            rcases mem_append.mp hr with hr | hr
            · exact hreads r hr
            · rw [mem_singleton.mp hr]
              rfl
          have hc : ∀ r ∈ (y, KeyType.read) :: (reads ++ []), ¬ Conflict r.2 .read := by
            rintro r hr (hw | hw)
            · rw [append_nil, mem_cons] at hr
              rcases hr with rfl | hr
              · cases hw
              · have := hreads r hr
                simp [isRead, hw] at this
            · cases hw
          refine ⟨?_, iff_of_true ?_ hc⟩
          · have hq := @stateOf_reads y _ [] hreads' (.inl rfl)
            rw [append_nil] at hq
            rw [append_nil, cons_append, hq]
            simp [LockState.acquire, LockState.acquireReadLock]
          · simp [LockState.acquire, LockState.acquireReadLock]
        · have hc : ¬ ∀ r ∈ (y, KeyType.read) :: (reads ++ (w, .write) :: rest'),
              ¬ Conflict r.2 .read :=
            fun h => h (w, .write) (by simp) (.inl rfl)
          refine ⟨?_, iff_of_false ?_ hc⟩
          · rw [cons_append, append_assoc, @stateOf_reads y reads
              ((w, .write) :: rest' ++ [(x, KeyType.read)]) hreads (.inr ⟨w, _, rfl⟩)]
            simp [LockState.acquire, LockState.acquireReadLock, waiter, KeyType.lockMode]
          · simp [LockState.acquire, LockState.acquireReadLock]

/-- Handing the lock over to the head of the queue. -/
theorem handover_stateOf (mode : LockMode) (x : TxnId) (q : List Request) :
    LockState.release { mode := mode, holders := [x], waiterQueue := q.map waiter } x =
      (stateOf q, (stateOf q).holders) := by
  cases q with
  | nil => simp [LockState.release, stateOf]
  | cons r q =>
    obtain ⟨y, m⟩ := r
    cases m with
    | write => simp [LockState.release, stateOf, waiter, KeyType.lockMode]
    | read =>
      have hfun : (fun w : TxnId × LockMode => decide (w.2 = LockMode.read)) ∘ waiter = isRead := by
        funext r
        obtain ⟨z, m⟩ := r
        cases m <;> rfl
      have hfst : Prod.fst ∘ waiter = (Prod.fst : Request → TxnId) := rfl
      simp [LockState.release, stateOf, waiter, KeyType.lockMode, takeWhile_map,
        dropWhile_map, hfun, hfst]

/-- The queue without the requests of `x`. -/
def without (q : List Request) (x : TxnId) : List Request := q.filter fun r => r.1 ≠ x

theorem without_of_notMem {q : List Request} {x : TxnId} (h : x ∉ q.map Prod.fst) :
    without q x = q := by
  rw [without, filter_eq_self]
  intro r hr
  rw [decide_eq_true_eq]
  rintro rfl
  exact h (mem_map_of_mem hr)

/-- What `Release` has to establish for the request of `x`: the lock passes to the queue without `x`,
and the transactions that get it are those that hold it afterwards and did not before. -/
def ReleaseOk (q : List Request) (x : TxnId) : Prop :=
  ((stateOf q).release x).1 = stateOf (without q x) ∧
    ((stateOf q).release x).2.Nodup ∧
    ∀ v, v ∈ ((stateOf q).release x).2 ↔
      v ∈ (stateOf (without q x)).holders ∧ v ∉ (stateOf q).holders

/-- The state of a queue represents its requests. -/
theorem members_stateOf (q : List Request) : (stateOf q).members = q.map Prod.fst := by
  have hwaiter : ∀ l : List Request, (l.map waiter).map Prod.fst = l.map Prod.fst := fun l =>
    map_map
  cases q with
  | nil => rfl
  | cons r q =>
    obtain ⟨y, m⟩ := r
    cases m with
    | write => exact congrArg (y :: ·) (hwaiter q)
    | read =>
      simp only [stateOf, LockState.members, hwaiter]
      rw [cons_append, ← map_append, takeWhile_append_dropWhile, map_cons]

theorem stateOf_ok {q : List Request} (hnd : (q.map Prod.fst).Nodup) : (stateOf q).Ok := by
  have hmodes : ∀ l : List Request, ∀ w ∈ l.map waiter, w.2 ≠ .unlocked := by
    intro l w hw
    obtain ⟨⟨y, m⟩, -, rfl⟩ := mem_map.mp hw
    cases m <;> nofun
  have hnodup : (stateOf q).members.Nodup := by rwa [members_stateOf]
  cases q with
  | nil => exact .default
  | cons r q =>
    obtain ⟨y, m⟩ := r
    cases m with
    | write => exact ⟨by simp [stateOf], by simp [stateOf], fun _ => rfl, hnodup, hmodes q⟩
    | read => exact ⟨by simp [stateOf], by simp [stateOf], nofun, hnodup, hmodes _⟩

/-- It suffices that the lock passes to the queue without `x`. -/
theorem releaseOk_of_eq {q : List Request} {x : TxnId} (hnd : (q.map Prod.fst).Nodup)
    (h : ((stateOf q).release x).1 = stateOf (without q x)) : ReleaseOk q x := by
  have hrel := (stateOf_ok hnd).release x
  exact ⟨h, hrel.nodup, fun v => by rw [hrel.granted, h]⟩

/-- The only holder hands the lock over to the rest of the queue. -/
theorem releaseOk_sole {mode : LockMode} {x : TxnId} {m : KeyType} {rest : List Request}
    (hnd : (((x, m) :: rest).map Prod.fst).Nodup)
    (hstate : stateOf ((x, m) :: rest) =
      { mode := mode, holders := [x], waiterQueue := rest.map waiter }) :
    ReleaseOk ((x, m) :: rest) x := by
  refine releaseOk_of_eq hnd ?_
  rw [map_cons, nodup_cons] at hnd
  have hfilter : without ((x, m) :: rest) x = rest := by
    rw [without, filter_cons_of_neg (by simp), ← without, without_of_notMem hnd.1]
  rw [hfilter, hstate, handover_stateOf]

/-- If other readers hold the lock as well, they keep it and nobody new gets it. -/
theorem releaseOk_shared {x y : TxnId} {reads rest : List Request}
    (hreads : ∀ r ∈ reads, isRead r = true)
    (hrest : rest = [] ∨ ∃ w rest', rest = (w, KeyType.write) :: rest') (hne : reads ≠ [])
    (hnd : (((y, KeyType.read) :: (reads ++ rest)).map Prod.fst).Nodup)
    (hx : x ∈ y :: reads.map Prod.fst) : ReleaseOk ((y, .read) :: (reads ++ rest)) x := by
  refine releaseOk_of_eq hnd ?_
  set ids := y :: reads.map Prod.fst with hids
  have hsplit : ((y, KeyType.read) :: (reads ++ rest)).map Prod.fst = ids ++ rest.map Prod.fst := by
    simp [hids]
  rw [hsplit, nodup_append] at hnd
  obtain ⟨hndi, -, hdisj⟩ := hnd
  have hxrest : x ∉ rest.map Prod.fst := fun hmem => hdisj x hx x hmem rfl
  set stay := without ((y, KeyType.read) :: reads) x with hstay
  have hstayids : stay.map Prod.fst = ids.erase x := by
    have hmap : ids = ((y, KeyType.read) :: reads).map Prod.fst := rfl
    rw [hndi.erase_eq_filter, hmap, filter_map, hstay, without]
    congr 1
    apply filter_congr
    intro r _
    rw [Bool.eq_iff_iff]
    simp
  have hner : ids.erase x ≠ [] := by
    rw [← length_pos_iff, length_erase_of_mem hx]
    simpa [hids, length_pos_iff] using hne
  have hrel : (stateOf ((y, .read) :: (reads ++ rest))).release x =
      (⟨.read, ids.erase x, rest.map waiter⟩, []) := by
    rw [stateOf_reads y hreads hrest]
    simp only [LockState.release, ← hids, hx, not_true_eq_false, if_false, hner, ne_eq,
      not_false_eq_true, if_true]
  -- The readers that stay are again a run of readers.
  have hstate : stateOf (without ((y, KeyType.read) :: (reads ++ rest)) x) =
      ⟨.read, ids.erase x, rest.map waiter⟩ := by
    have hsum : without ((y, KeyType.read) :: (reads ++ rest)) x = stay ++ rest := by
      rw [hstay, without, ← cons_append, filter_append, ← without, ← without,
        without_of_notMem hxrest]
    rw [hsum]
    rw [← hstayids] at hner ⊢
    obtain ⟨⟨z, m⟩, reads', hcons⟩ := exists_cons_of_ne_nil (mt map_eq_nil_iff.mpr hner)
    have hall : ∀ r ∈ (z, m) :: reads', isRead r = true := by
      intro r hr
      rw [← hcons] at hr
      rcases mem_cons.mp (mem_filter.mp hr).1 with rfl | hr
      · rfl
      · exact hreads r hr
    obtain rfl : m = .read := by simpa [isRead] using hall _ mem_cons_self
    rw [hcons, cons_append, stateOf_reads z
      (fun r hr => hall r (mem_cons_of_mem _ hr)) hrest]
    rfl
  rw [hrel, hstate]

/-- **Releasing maintains the function.** -/
theorem release_stateOf {q : List Request} (hnd : (q.map Prod.fst).Nodup) {x : TxnId}
    (hx : x ∈ (stateOf q).holders) : ReleaseOk q x := by
  cases q with
  | nil => cases hx
  | cons r q =>
    obtain ⟨y, m⟩ := r
    cases m with
    | write =>
      obtain rfl := mem_singleton.mp hx
      exact releaseOk_sole hnd rfl
    | read =>
      obtain ⟨reads, rest, rfl, hreads, hrest⟩ := exists_reads q
      have hstate := stateOf_reads y hreads hrest
      rw [hstate] at hx
      by_cases hne : reads = []
      · subst hne
        obtain rfl := mem_singleton.mp hx
        exact releaseOk_sole hnd hstate
      · exact releaseOk_shared hreads hrest hne hnd hx

theorem pair_sublist_cons_iff {α : Type*} {l : List α} {a r s : α} :
    [r, s].Sublist (a :: l) ↔ (r = a ∧ s ∈ l) ∨ [r, s].Sublist l := by
  constructor
  · intro h
    cases h with
    | cons _ h => exact .inr h
    | cons_cons _ h => exact .inl ⟨rfl, singleton_sublist.mp h⟩
  · rintro (⟨rfl, hs⟩ | h)
    · exact (singleton_sublist.mpr hs).cons_cons r
    · exact h.cons a

/-- The holders of a lock are the requesters that no earlier request conflicts with. -/
theorem mem_holders_stateOf {q : List Request} (hnd : (q.map Prod.fst).Nodup) {r : Request}
    (hr : r ∈ q) :
    r.1 ∈ (stateOf q).holders ↔ ∀ s, ¬ ConflictsBefore q s r := by
  have hfirst : ∀ {a : Request} {l : List Request}, ((a :: l).map Prod.fst).Nodup →
      ∀ s, ¬ [s, a].Sublist (a :: l) := by
    intro a l hnd s hsub
    rw [map_cons, nodup_cons] at hnd
    rcases pair_sublist_cons_iff.mp hsub with ⟨-, ha⟩ | h
    · exact hnd.1 (mem_map_of_mem ha)
    · exact hnd.1 (mem_map_of_mem (h.subset (by simp)))
  cases q with
  | nil => cases hr
  | cons a q =>
    obtain ⟨y, m⟩ := a
    cases m with
    | write =>
      rcases mem_cons.mp hr with rfl | hr'
      · exact iff_of_true (mem_singleton_self _) fun s hs => hfirst hnd s hs.1
      · refine iff_of_false ?_ fun h => h (y, .write)
          ⟨pair_sublist_cons_iff.mpr (.inl ⟨rfl, hr'⟩), .inl rfl⟩
        intro hmem
        rw [map_cons, nodup_cons] at hnd
        exact hnd.1 (mem_map.mpr ⟨r, hr', mem_singleton.mp hmem⟩)
    | read =>
      obtain ⟨reads, rest, rfl, hreads, hrest⟩ := exists_reads q
      rw [stateOf_reads y hreads hrest]
      rw [← cons_append, map_append, nodup_append] at hnd
      obtain ⟨-, -, hdisj⟩ := hnd
      have hfront : ∀ s ∈ (y, KeyType.read) :: reads, s.2 = .read := by
        intro s hs
        rcases mem_cons.mp hs with rfl | hs
        · rfl
        · simpa [isRead] using hreads s hs
      rcases mem_append.mp (show r ∈ ((y, KeyType.read) :: reads) ++ rest from hr) with
        hf | hrest'
      · -- Only readers stand before a reader of the run.
        refine iff_of_true (mem_map_of_mem (f := Prod.fst) hf) ?_
        rintro s ⟨hsub, hc⟩
        have hs : s.2 = .write := hc.resolve_right (by rw [hfront r hf]; simp)
        rw [← cons_append] at hsub
        obtain ⟨l₁, l₂, heq, h₁, h₂⟩ := sublist_append_iff.mp hsub
        cases l₁ with
        | nil =>
          rw [nil_append] at heq
          have hr₂ : r ∈ rest := h₂.subset (by rw [← heq]; simp)
          exact hdisj _ (mem_map_of_mem hf) _ (mem_map_of_mem hr₂) rfl
        | cons a l₁ =>
          obtain ⟨rfl, -⟩ := cons_eq_cons.mp heq
          have := hfront s (h₁.subset mem_cons_self)
          rw [this] at hs
          cases hs
      · -- Behind the run, the first reader or the writer at its end is in the way.
        refine iff_of_false ?_ ?_
        · intro hmem
          exact hdisj _ hmem _ (mem_map_of_mem hrest') rfl
        · intro h
          rcases hrest with rfl | ⟨w, rest', rfl⟩
          · cases hrest'
          · rcases mem_cons.mp hrest' with rfl | hr'
            · exact h (y, .read) ⟨pair_sublist_cons_iff.mpr (.inl ⟨rfl, by simp⟩), .inr rfl⟩
            · refine h (w, .write) ⟨?_, .inl rfl⟩
              have hw : [(w, KeyType.write), r].Sublist ((w, .write) :: rest') :=
                pair_sublist_cons_iff.mpr (.inl ⟨rfl, hr'⟩)
              rw [← cons_append]
              exact hw.trans (sublist_append_right _ _)

/-- The queues after the requests of `x`. -/
def addRequests (q : KeyRegion → List Request) (x : TxnId) (rs : List (KeyRegion × KeyType))
    (k : KeyRegion) : List Request :=
  q k ++ (rs.filter fun r => r.1 = k).map fun r => (x, r.2)

/-- A transaction adds at most one request to each queue. -/
theorem addRequests_cases (q : KeyRegion → List Request) (x : TxnId)
    {rs : List (KeyRegion × KeyType)} (hnd : (rs.map Prod.fst).Nodup) (k : KeyRegion) :
    (k ∉ rs.map Prod.fst ∧ addRequests q x rs k = q k) ∨
      ∃ m, (k, m) ∈ rs ∧ addRequests q x rs k = q k ++ [(x, m)] := by
  rw [addRequests]
  by_cases hk : k ∈ rs.map Prod.fst
  · obtain ⟨⟨_, m⟩, hm, rfl⟩ := mem_map.mp hk
    exact .inr ⟨m, hm, by rw [filter_fst_eq_singleton hnd hm]; rfl⟩
  · refine .inl ⟨hk, ?_⟩
    rw [filter_fst_eq_nil hk, map_nil, append_nil]

namespace RMALockManager

/-- **The lock manager follows the queues** `q`, where `need` is what each transaction waits
for. -/
structure QueueInv (rm : RMALockManager) (need : TxnId → ℤ) (q : KeyRegion → List Request) :
    Prop extends rm.LockInv need where
  distinct : ∀ k, ((q k).map Prod.fst).Nodup
  table : rm.lockTable = fun k => stateOf (q k)
  length_le : ∀ v ti, rm.txnInfo.lookup v = some ti → (ti.keys.length : ℤ) ≤ need v

namespace QueueInv

variable {rm : RMALockManager} {need : TxnId → ℤ} {q : KeyRegion → List Request}

theorem table_eq (hI : QueueInv rm need q) (k : KeyRegion) : rm.lockTable k = stateOf (q k) := by
  rw [hI.table]

theorem members_eq (hI : QueueInv rm need q) (k : KeyRegion) :
    (rm.lockTable k).members = (q k).map Prod.fst := by
  rw [hI.table_eq, members_stateOf]

/-- The counter is zero exactly when all locks are requested and granted. -/
theorem numWaitingFor_eq_zero_iff (hI : QueueInv rm need q) {x : TxnId} {ti : RMATxnInfo}
    (hx : rm.txnInfo.lookup x = some ti) :
    ti.numWaitingFor = 0 ↔
      (ti.keys.length : ℤ) = need x ∧ ∀ k ∈ ti.keys, x ∈ (rm.lockTable k).holders := by
  have hle := hI.length_le x ti hx
  have hcount : (ti.keys.countP fun k => x ∈ (rm.lockTable k).holders) ≤ ti.keys.length :=
    countP_le_length
  have hall : (ti.keys.countP fun k => x ∈ (rm.lockTable k).holders) = ti.keys.length ↔
      ∀ k ∈ ti.keys, x ∈ (rm.lockTable k).holders := by
    simp
  rw [(hI.entries x ti hx).count, ← hall]
  omega

section Acquire

variable {x : TxnId} {rs : List (KeyRegion × KeyType)} (hI : QueueInv rm need q)
  (hnd : (rs.map Prod.fst).Nodup) (hnew : ∀ r ∈ rs, x ∉ (q r.1).map Prod.fst)
include hI hnd

theorem acquireAll_table (info : RMATxnInfo) (k : KeyRegion) :
    (acquireAll rm.lockTable x info rs).1 k = stateOf (addRequests q x rs k) := by
  rcases acquireAll_cases rm.lockTable (x := x) info hnd k with ⟨hk, heq⟩ | ⟨m, hm, heq⟩
  · rw [heq, hI.table_eq, addRequests, filter_fst_eq_nil hk, map_nil, append_nil]
  · rw [heq, hI.table_eq, addRequests, filter_fst_eq_singleton hnd hm, (acquire_stateOf _ _ _).1]
    rfl

include hnew

theorem addRequests_nodup (k : KeyRegion) : ((addRequests q x rs k).map Prod.fst).Nodup := by
  rcases addRequests_cases q x hnd k with ⟨-, hq⟩ | ⟨m, hm, hq⟩
  · rw [hq]
    exact hI.distinct k
  · rw [hq, map_append, nodup_append]
    refine ⟨hI.distinct k, by simp, fun y hy z hz => ?_⟩
    rw [map_singleton, mem_singleton] at hz
    subst hz
    rintro rfl
    exact hnew _ hm hy

end Acquire

theorem init : QueueInv {} need fun _ => [] where
  toLockInv := .init
  distinct := by simp
  table := rfl
  length_le := by simp

/-- The locks that a transaction has requested so far. -/
def numRequested (rm : RMALockManager) (x : TxnId) : ℕ :=
  (rm.txnInfo.lookup x).elim 0 fun ti => ti.keys.length

/-- **`AcquireLocks` follows the queues.**  What a transaction waits for is fixed by its first
part. -/
theorem acquireRequests (hI : QueueInv rm need q) {x : TxnId} {required : ℤ}
    {rs : List (KeyRegion × KeyType)} (hnd : (rs.map Prod.fst).Nodup)
    (hnew : ∀ r ∈ rs, x ∉ (q r.1).map Prod.fst) {need' : TxnId → ℤ}
    (hneed : ∀ v ∈ rm.txnInfo, need' v = need v) (hx : x ∉ rm.txnInfo → need' x = required)
    (hle : ((numRequested rm x + rs.length : ℕ) : ℤ) ≤ need' x) :
    QueueInv (rm.acquireRequests x required rs).1 need' (addRequests q x rs) := by
  have hL := hI.toLockInv.acquireRequests hnd
    (fun r hr => by rw [hI.members_eq]; exact hnew r hr) hneed hx
  refine ⟨hL, hI.addRequests_nodup hnd hnew, funext (hI.acquireAll_table hnd _), fun v ti hv => ?_⟩
  have hkeys := rm.keys_acquireRequests x required rs v
  rw [hv, Option.map_some] at hkeys
  split_ifs at hkeys with hvx
  · have hnum : (((rm.txnInfo.lookup x).map RMATxnInfo.keys).getD []).length =
        numRequested rm x := by
      rw [numRequested]
      cases rm.txnInfo.lookup x <;> rfl
    rw [Option.some.inj hkeys, length_append, length_map, hnum, hvx]
    exact hle
  · obtain ⟨ti₀, hti₀, hk⟩ := Option.map_eq_some_iff.mp hkeys.symm
    rw [← hk, hneed v (AssocMap.mem_iff_lookup.mpr ⟨ti₀, hti₀⟩)]
    exact hI.length_le v ti₀ hti₀

/-- **`ReleaseLocks` follows the queues** if `Release` does on every key, and it returns exactly
the transactions that become ready. -/
theorem releaseLocks (hI : QueueInv rm need q) {x : TxnId} {tx : RMATxnInfo}
    (hx : rm.txnInfo.lookup x = some tx) (hok : ∀ k ∈ tx.keys, ReleaseOk (q k) x) :
    QueueInv (rm.releaseLocks x).1 need (fun k => without (q k) x) ∧
      ∀ v, v ∈ (rm.releaseLocks x).2 ↔
        ∃ ti ti', rm.txnInfo.lookup v = some ti ∧ ti.numWaitingFor ≠ 0 ∧
          (rm.releaseLocks x).1.txnInfo.lookup v = some ti' ∧ ti'.numWaitingFor = 0 := by
  refine ⟨⟨hI.toLockInv.releaseLocks x, fun k => (hI.distinct k).sublist (filter_sublist.map _),
    funext fun k => ?_, fun v ti' hv => ?_⟩, hI.toLockInv.mem_releaseLocks hI.length_le hx⟩
  · have htable : (rm.releaseLocks x).1.lockTable k =
        (rm.releaseAll x tx.keys).1.lockTable k := by
      rw [RMALockManager.releaseLocks, hx]
    rw [htable, releaseAll_table rm x (hI.entries x tx hx).nodup, hI.table_eq]
    split_ifs with hk
    · exact (hok k hk).1
    · rw [without_of_notMem fun h => hk (((hI.entries x tx hx).keys k).mpr (hI.members_eq k ▸ h))]
  · have hkeys := keys_releaseLocks hx v
    rw [hv, Option.map_some] at hkeys
    split_ifs at hkeys with hvx
    obtain ⟨ti, hti, hk⟩ := Option.map_eq_some_iff.mp hkeys.symm
    rw [← hk]
    exact hI.length_le v ti hti

end QueueInv

end RMALockManager

end Slog
