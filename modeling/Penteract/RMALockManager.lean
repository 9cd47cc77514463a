/-
# The RMA lock manager

The lock manager that keeps the full queue of every key-region: the holders of the lock, and
the transactions that wait for it.  In every run in which no transaction requests a lock twice,
also when waiting transactions leave, the mode of a lock fits its holders, nobody waits for a
free lock, and the counters of the transactions count the locks that are not granted.
-/
import Penteract.Lib.AssocMap
import Penteract.LockQueueTail

namespace Slog

open List Function AssocMap

inductive LockMode where
  | unlocked
  | read
  | write
  deriving DecidableEq, Repr

structure LockState where
  mode : LockMode := .unlocked
  holders : List TxnId := []
  waiterQueue : List (TxnId × LockMode) := []
  deriving DecidableEq, Repr

namespace LockState

def acquireReadLock (s : LockState) (x : TxnId) : LockState × Bool :=
  match s.mode with
  | .unlocked => ({ s with holders := s.holders ++ [x], mode := .read }, true)
  | .read =>
    if s.waiterQueue = [] then ({ s with holders := s.holders ++ [x] }, true)
    else ({ s with waiterQueue := s.waiterQueue ++ [(x, .read)] }, false)
  | .write => ({ s with waiterQueue := s.waiterQueue ++ [(x, .read)] }, false)

def acquireWriteLock (s : LockState) (x : TxnId) : LockState × Bool :=
  match s.mode with
  | .unlocked => ({ s with holders := s.holders ++ [x], mode := .write }, true)
  | .read => ({ s with waiterQueue := s.waiterQueue ++ [(x, .write)] }, false)
  | .write => ({ s with waiterQueue := s.waiterQueue ++ [(x, .write)] }, false)

/-- The switch over the type of a key in `AcquireLocks`. -/
def acquire (s : LockState) (x : TxnId) (m : KeyType) : LockState × Bool :=
  match m with
  | .read => s.acquireReadLock x
  | .write => s.acquireWriteLock x

/-- Release the lock and hand it to the head of the queue: the new state and the transactions
that get the lock. -/
def release (s : LockState) (x : TxnId) : LockState × List TxnId :=
  if x ∉ s.holders then ({ s with waiterQueue := s.waiterQueue.filter fun w => w.1 ≠ x }, [])
  else
    let s := { s with holders := s.holders.erase x }
    if s.holders ≠ [] then (s, [])
    else
      match s.waiterQueue with
      | [] => ({ s with mode := .unlocked }, [])
      | (y, .read) :: q =>
        -- all readers at the head of the queue
        let holders := y :: (q.takeWhile fun w => w.2 = .read).map Prod.fst
        ({ mode := .read, holders := holders, waiterQueue := q.dropWhile fun w => w.2 = .read },
          holders)
      | (y, .write) :: q => ({ mode := .write, holders := [y], waiterQueue := q }, [y])
      | (_, .unlocked) :: _ => (s, [])

end LockState

structure RMATxnInfo where
  numWaitingFor : ℤ
  keys : List KeyRegion := []
  deriving DecidableEq, Repr

/-- A lock that was never requested is in the default state. -/
structure RMALockManager where
  txnInfo : AssocMap TxnId RMATxnInfo := ∅
  lockTable : KeyRegion → LockState := fun _ => {}

/-- The loop of `AcquireLocks` over the keys. -/
def RMALockManager.acquireAll (table : KeyRegion → LockState) (x : TxnId) (info : RMATxnInfo) :
    List (KeyRegion × KeyType) → (KeyRegion → LockState) × RMATxnInfo
  | [] => (table, info)
  | (k, m) :: rs =>
    let (state, granted) := (table k).acquire x m
    let info :=
      { keys := info.keys ++ [k]
        numWaitingFor := if granted then info.numWaitingFor - 1 else info.numWaitingFor }
    RMALockManager.acquireAll (update table k state) x info rs

def RMALockManager.acquireLocks (rm : RMALockManager) (t : Transaction) :
    RMALockManager × AcquireLocksResult :=
  let info := (rm.txnInfo.lookup t.id).getD { numWaitingFor := t.numRequiredLocks }
  let (table, info) := RMALockManager.acquireAll rm.lockTable t.id info t.lockRequests
  ({ txnInfo := rm.txnInfo.insert t.id info, lockTable := table },
    if info.numWaitingFor = 0 then .acquired else .waiting)

/-- The loop of `ReleaseLocks` over the transactions that get a lock. -/
def RMALockManager.grant (info : AssocMap TxnId RMATxnInfo) :
    List TxnId → AssocMap TxnId RMATxnInfo × List TxnId
  | [] => (info, [])
  | y :: ys =>
    match info.lookup y with
    | none => RMALockManager.grant info ys
    | some ti =>
      let ti := { ti with numWaitingFor := ti.numWaitingFor - 1 }
      let (info, result) := RMALockManager.grant (info.insert y ti) ys
      (info, if ti.numWaitingFor = 0 then y :: result else result)

/-- The loop of `ReleaseLocks` over the keys of the released transaction. -/
def RMALockManager.releaseAll (rm : RMALockManager) (x : TxnId) :
    List KeyRegion → RMALockManager × List TxnId
  | [] => (rm, [])
  | k :: ks =>
    let (state, newGrantees) := (rm.lockTable k).release x
    let (info, result) := RMALockManager.grant rm.txnInfo newGrantees
    let (rm, result') := RMALockManager.releaseAll
      { txnInfo := info, lockTable := update rm.lockTable k state } x ks
    (rm, result ++ result')

def RMALockManager.releaseLocks (rm : RMALockManager) (x : TxnId) :
    RMALockManager × List TxnId :=
  match rm.txnInfo.lookup x with
  | none => (rm, [])
  | some ti =>
    let (rm, result) := rm.releaseAll x ti.keys
    ({ rm with txnInfo := rm.txnInfo.erase x }, sortUnique result)

/-! ## One lock -/

namespace LockState

/-- The transactions that hold the lock or wait for it. -/
def members (s : LockState) : List TxnId := s.holders ++ s.waiterQueue.map Prod.fst

structure Ok (s : LockState) : Prop where
  unlocked : s.mode = .unlocked ↔ s.holders = []
  waiters : s.waiterQueue ≠ [] → s.holders ≠ []
  write : s.mode = .write → s.holders.length = 1
  nodup : s.members.Nodup
  modes : ∀ w ∈ s.waiterQueue, w.2 ≠ .unlocked

theorem Ok.default : Ok {} where
  unlocked := by simp
  waiters := by simp
  write := by simp
  nodup := nodup_nil
  modes := by simp

variable {s : LockState} {x : TxnId}

variable {m : LockMode}

theorem Ok.holds (h : s.Ok) (hx : x ∉ s.members) (hm : m ≠ .unlocked) (hw : m = .write → s.holders = [])
    (hq : s.waiterQueue = [] ∨ s.holders = []) :
    Ok { s with holders := s.holders ++ [x], mode := m } := by
  have hnil : s.waiterQueue = [] := hq.elim (fun h => h) fun hh => by
    by_contra hne
    exact h.waiters hne hh
  refine ⟨iff_of_false hm (by simp), fun _ => by simp, fun hmw => ?_, ?_, h.modes⟩
  · simp [hw hmw]
  · have hnd := h.nodup
    simp only [members, hnil, map_nil, append_nil] at hnd hx ⊢
    rw [← concat_eq_append, nodup_concat]
    exact ⟨hx, hnd⟩

theorem Ok.waits (h : s.Ok) (hx : x ∉ s.members) (hm : m ≠ .unlocked) (hlocked : s.mode ≠ .unlocked) :
    Ok { s with waiterQueue := s.waiterQueue ++ [(x, m)] } := by
  have hne : s.holders ≠ [] := mt h.unlocked.mpr hlocked
  refine ⟨h.unlocked, fun _ => hne, h.write, ?_, fun w hw => ?_⟩
  · have hmembers : members { s with waiterQueue := s.waiterQueue ++ [(x, m)] } =
        s.members ++ [x] := by simp [members]
    rw [hmembers, ← concat_eq_append, nodup_concat]
    exact ⟨hx, h.nodup⟩
  · rcases mem_append.mp hw with hw | hw
    · exact h.modes w hw
    · rw [mem_singleton.mp hw]
      exact hm

/-- What `AcquireReadLock` and `AcquireWriteLock` do to a lock of which the transaction is not a
member. -/
structure Acquired (s s' : LockState) (x : TxnId) (granted : Bool) : Prop where
  ok : s'.Ok
  members : ∀ v, v ∈ s'.members ↔ v ∈ s.members ∨ v = x
  granted : granted = true ↔ x ∈ s'.holders
  locked : s'.mode ≠ .unlocked

theorem Ok.acquired_holds (h : s.Ok) (hx : x ∉ s.members) (hm : m ≠ .unlocked)
    (hw : m = .write → s.holders = []) (hq : s.waiterQueue = [] ∨ s.holders = []) :
    Acquired s { s with holders := s.holders ++ [x], mode := m } x true := by
  refine ⟨h.holds hx hm hw hq, fun v => ?_, iff_of_true rfl (by simp), hm⟩
  simp only [LockState.members, mem_append, mem_singleton]
  tauto

theorem Ok.acquired_waits (h : s.Ok) (hx : x ∉ s.members) (hm : m ≠ .unlocked)
    (hlocked : s.mode ≠ .unlocked) :
    Acquired s { s with waiterQueue := s.waiterQueue ++ [(x, m)] } x false := by
  refine ⟨h.waits hx hm hlocked, fun v => ?_, iff_of_false Bool.false_ne_true ?_, hlocked⟩
  · simp [LockState.members, or_assoc]
  · exact fun hmem => hx (List.mem_append_left _ hmem)

/-- **Acquiring keeps the representation.** -/
theorem Ok.acquire (h : s.Ok) (hx : x ∉ s.members) (m : KeyType) :
    Acquired s (s.acquire x m).1 x (s.acquire x m).2 := by
  have hwaits : ∀ {m : LockMode}, m ≠ .unlocked → ∀ {mode : LockMode}, s.mode = mode →
      mode ≠ .unlocked →
      Acquired s { s with waiterQueue := s.waiterQueue ++ [(x, m)], mode := mode } x false := by
    rintro m hm mode rfl hlocked
    exact h.acquired_waits hx hm hlocked
  cases m with
  | read =>
    rw [LockState.acquire, acquireReadLock]
    cases hm : s.mode with
    | unlocked =>
      exact h.acquired_holds hx (by decide) nofun (.inr (h.unlocked.mp hm))
    | read =>
      dsimp only
      split_ifs with hq
      · exact h.acquired_holds hx (by decide) nofun (.inl hq)
      · exact hwaits (by decide) hm (by decide)
    | write => exact hwaits (by decide) hm (by decide)
  | write =>
    rw [LockState.acquire, acquireWriteLock]
    cases hm : s.mode with
    | unlocked =>
      have hnil := h.unlocked.mp hm
      exact h.acquired_holds hx (by decide) (fun _ => hnil) (.inr hnil)
    | read => exact hwaits (by decide) hm (by decide)
    | write => exact hwaits (by decide) hm (by decide)

/-- What `Release` does to a lock: who is still a member, and who gets the lock. -/
structure Released (s s' : LockState) (x : TxnId) (granted : List TxnId) : Prop where
  ok : s'.Ok
  members : ∀ v, v ∈ s'.members ↔ v ∈ s.members ∧ v ≠ x
  nodup : granted.Nodup
  granted : ∀ v, v ∈ granted ↔ v ∈ s'.holders ∧ v ∉ s.holders
  stays : ∀ v ≠ x, v ∈ s.holders → v ∈ s'.holders
  unlocked : s.mode = .unlocked → s'.mode = .unlocked

/-- A transaction that does not hold the lock leaves. -/
theorem Ok.released_waiting (h : s.Ok) (hx : x ∉ s.holders) :
    Released s { s with waiterQueue := s.waiterQueue.filter fun w => w.1 ≠ x } x [] := by
  have hmap : (s.waiterQueue.filter fun w => w.1 ≠ x).map Prod.fst =
      (s.waiterQueue.map Prod.fst).filter fun v => v ≠ x := by
    rw [List.filter_map]
    rfl
  refine ⟨⟨h.unlocked, fun hne => h.waiters fun hnil => hne (by simp [hnil]), h.write, ?_,
    fun w hw => h.modes w (mem_filter.mp hw).1⟩, fun v => ?_, nodup_nil, fun v => ?_,
    fun v _ hv => hv, fun hm => hm⟩
  · exact h.nodup.sublist ((Sublist.refl _).append (filter_sublist.map _))
  · simp only [LockState.members, hmap, mem_append, mem_filter, decide_eq_true_eq]
    constructor
    · rintro (hv | hv)
      · exact ⟨.inl hv, fun heq => hx (heq ▸ hv)⟩
      · exact ⟨.inr hv.1, hv.2⟩
    · rintro ⟨hv | hv, hne⟩
      · exact .inl hv
      · exact .inr ⟨hv, hne⟩
  · exact iff_of_false not_mem_nil fun hand => hand.2 hand.1

/-- A holder leaves the others. -/
theorem Ok.released_shared (h : s.Ok) (hx : x ∈ s.holders) (hne : s.holders.erase x ≠ []) :
    Released s { s with holders := s.holders.erase x } x [] := by
  have hnd := nodup_append'.mp h.nodup
  have hlocked : s.mode ≠ .unlocked := fun hm => by simp [h.unlocked.mp hm] at hx
  have hmem : ∀ v, v ∈ s.holders.erase x ↔ v ≠ x ∧ v ∈ s.holders := fun v => hnd.1.mem_erase_iff
  refine ⟨⟨iff_of_false hlocked hne, fun _ => hne, fun hw => ?_, ?_, h.modes⟩, fun v => ?_,
    nodup_nil, fun v => ?_, fun v hvx hv => (hmem v).mpr ⟨hvx, hv⟩, fun hm => absurd hm hlocked⟩
  · -- a lock for writing has no other holder
    have hlen := length_erase_of_mem hx
    rw [h.write hw] at hlen
    exact absurd (length_eq_zero_iff.mp hlen) hne
  · exact h.nodup.sublist (erase_sublist.append (Sublist.refl _))
  · simp only [LockState.members, mem_append, hmem]
    constructor
    · rintro (hv | hv)
      · exact ⟨.inl hv.2, hv.1⟩
      · refine ⟨.inr hv, ?_⟩
        rintro rfl
        exact hnd.2.2 hx hv
    · rintro ⟨hv | hv, hvx⟩
      · exact .inl ⟨hvx, hv⟩
      · exact .inr hv
  · exact iff_of_false not_mem_nil fun hand => hand.2 ((hmem v).mp hand.1).2

/-- The only holder leaves and the lock goes to the front of the queue. -/
theorem Ok.released_handover (h : s.Ok) (hx : s.holders = [x]) {s' : LockState}
    (hmembers : s'.members = s.waiterQueue.map Prod.fst) (hok : s'.mode = .unlocked ↔ s'.holders = [])
    (hwaiters : s'.waiterQueue ≠ [] → s'.holders ≠ [])
    (hwrite : s'.mode = .write → s'.holders.length = 1)
    (hmodes : s'.waiterQueue.Sublist s.waiterQueue) : Released s s' x s'.holders := by
  have hnd := h.nodup
  rw [LockState.members, hx, singleton_append, nodup_cons] at hnd
  have hsub : ∀ v ∈ s'.holders, v ∈ s.waiterQueue.map Prod.fst := fun v hv =>
    hmembers ▸ List.mem_append_left _ hv
  refine ⟨⟨hok, hwaiters, hwrite, hmembers ▸ hnd.2, fun w hw => h.modes w (hmodes.subset hw)⟩,
    fun v => ?_, ?_, fun v => ?_, fun v hvx hv => ?_, fun hm => ?_⟩
  · rw [hmembers, LockState.members, hx, singleton_append, mem_cons]
    constructor
    · intro hv
      exact ⟨.inr hv, fun heq => hnd.1 (heq ▸ hv)⟩
    · rintro ⟨hv | hv, hvx⟩
      · exact absurd hv hvx
      · exact hv
  · exact (hmembers ▸ hnd.2).sublist (sublist_append_left _ _)
  · refine ⟨fun hv => ⟨hv, fun hvx => ?_⟩, And.left⟩
    rw [hx, mem_singleton] at hvx
    exact hnd.1 (hvx ▸ hsub v hv)
  · rw [hx, mem_singleton] at hv
    exact absurd hv hvx
  · have hnil := h.unlocked.mp hm
    rw [hx] at hnil
    cases hnil

/-- **Releasing keeps the representation.** -/
theorem Ok.release (h : s.Ok) (x : TxnId) :
    Released s (s.release x).1 x (s.release x).2 := by
  rw [LockState.release]
  by_cases hx : x ∈ s.holders
  swap
  · rw [if_pos hx]
    exact h.released_waiting hx
  rw [if_neg (not_not.mpr hx)]
  dsimp only
  by_cases hh : s.holders.erase x = []
  swap
  · rw [if_pos hh]
    exact h.released_shared hx hh
  rw [if_neg (not_not.mpr hh)]
  have hsole : s.holders = [x] := by
    have hperm := perm_cons_erase hx
    rw [hh] at hperm
    exact perm_singleton.mp hperm
  cases hq : s.waiterQueue with
  | nil =>
    have hfree : Released s ({ mode := .unlocked } : LockState) x [] :=
      h.released_handover hsole (by simp [members, hq]) (by simp) (by simp)
        nofun (nil_sublist _)
    dsimp only
    rw [hh]
    exact hfree
  | cons w q =>
    obtain ⟨y, m⟩ := w
    cases m with
    | unlocked => exact absurd rfl (h.modes (y, .unlocked) (hq ▸ mem_cons_self))
    | read =>
      refine h.released_handover hsole ?_ (by simp) (by simp) nofun ?_
      · rw [members, hq, map_cons, cons_append, ← map_append,
          takeWhile_append_dropWhile]
      · rw [hq]
        exact (dropWhile_sublist _).cons _
    | write =>
      refine h.released_handover hsole ?_ (by simp) (by simp) (fun _ => rfl) ?_
      · rw [members, hq]
        rfl
      · rw [hq]
        exact sublist_cons_self _ _

end LockState

theorem mem_holders_acquire {s : LockState} {x v : TxnId} {m : KeyType} (hvx : v ≠ x) :
    v ∈ (s.acquire x m).1.holders ↔ v ∈ s.holders := by
  cases m <;> cases hm : s.mode <;>
    simp only [LockState.acquire, LockState.acquireReadLock, LockState.acquireWriteLock, hm] <;>
    (try split_ifs) <;> simp [hvx]

/-! ## The loop of `AcquireLocks` -/

namespace RMALockManager

theorem acquireAll_table (table : KeyRegion → LockState) (x : TxnId) (info : RMATxnInfo)
    (rs : List (KeyRegion × KeyType)) (k : KeyRegion) :
    (acquireAll table x info rs).1 k =
      (rs.filter fun r => r.1 = k).foldl (fun s r => (s.acquire x r.2).1) (table k) := by
  induction rs generalizing table info with
  | nil => rfl
  | cons r rs ih =>
    obtain ⟨k', m⟩ := r
    rw [acquireAll, ih]
    by_cases hk : k' = k
    · subst hk
      simp
    · rw [filter_cons_of_neg (by simpa using hk), update_of_ne (Ne.symm hk)]

theorem acquireAll_keys (table : KeyRegion → LockState) (x : TxnId) (info : RMATxnInfo)
    (rs : List (KeyRegion × KeyType)) :
    (acquireAll table x info rs).2.keys = info.keys ++ rs.map Prod.fst := by
  induction rs generalizing table info with
  | nil => simp [acquireAll]
  | cons r rs ih =>
    rw [acquireAll, ih]
    simp

/-- The counter goes down by the number of locks that are granted at once. -/
theorem acquireAll_numWaitingFor (table : KeyRegion → LockState) (x : TxnId) (info : RMATxnInfo)
    {rs : List (KeyRegion × KeyType)} (hnd : (rs.map Prod.fst).Nodup) :
    (acquireAll table x info rs).2.numWaitingFor =
      info.numWaitingFor - rs.countP fun r => ((table r.1).acquire x r.2).2 := by
  induction rs generalizing table info with
  | nil => simp [acquireAll]
  | cons r rs ih =>
    obtain ⟨k, m⟩ := r
    rw [map_cons, nodup_cons] at hnd
    rw [acquireAll, ih _ _ hnd.2, countP_cons]
    have hcongr : (rs.countP fun r =>
        ((update table k ((table k).acquire x m).1 r.1).acquire x r.2).2) =
          rs.countP fun r => ((table r.1).acquire x r.2).2 := by
      apply countP_congr
      intro r hr
      have hne : r.1 ≠ k := fun h => hnd.1 (mem_map.mpr ⟨r, hr, h⟩)
      rw [update_of_ne hne]
    rw [hcongr]
    cases ((table k).acquire x m).2
    · simp
    · simp only [if_true, Nat.cast_add, Nat.cast_one]
      ring

/-! ## The loops of `ReleaseLocks` -/

variable {ys : List TxnId} {tx : RMATxnInfo}

theorem lookup_grant (info : AssocMap TxnId RMATxnInfo) (hnd : ys.Nodup) (v : TxnId) :
    (grant info ys).1.lookup v = (info.lookup v).map fun ti =>
      { ti with numWaitingFor := ti.numWaitingFor - if v ∈ ys then 1 else 0 } := by
  induction ys generalizing info with
  | nil => simp [grant]
  | cons y ys ih =>
    rw [nodup_cons] at hnd
    rw [grant]
    cases hy : info.lookup y with
    | none =>
      simp only [ih info hnd.2]
      by_cases hvy : v = y
      · subst hvy
        simp [hy]
      · simp [hvy]
    | some ti =>
      simp only [ih _ hnd.2, lookup_insert']
      by_cases hvy : v = y
      · subst hvy
        simp [hy, hnd.1]
      · simp [hvy]

theorem grant_keys (info : AssocMap TxnId RMATxnInfo) (ys : List TxnId) (v : TxnId) :
    ((grant info ys).1.lookup v).map RMATxnInfo.keys = (info.lookup v).map RMATxnInfo.keys := by
  induction ys generalizing info with
  | nil => rfl
  | cons y ys ih =>
    rw [grant]
    cases hy : info.lookup y with
    | none => exact ih info
    | some ti =>
      simp only [ih, lookup_insert']
      by_cases hvy : v = y
      · subst hvy
        simp [hy]
      · simp [hvy]

theorem mem_grant (info : AssocMap TxnId RMATxnInfo) (hnd : ys.Nodup) (v : TxnId) :
    v ∈ (grant info ys).2 ↔ v ∈ ys ∧ ∃ ti, info.lookup v = some ti ∧ ti.numWaitingFor - 1 = 0 := by
  induction ys generalizing info with
  | nil => simp [grant]
  | cons y ys ih =>
    rw [nodup_cons] at hnd
    rw [grant]
    cases hy : info.lookup y with
    | none =>
      simp only [ih info hnd.2, mem_cons]
      by_cases hvy : v = y
      · subst hvy
        simp [hy]
      · simp [hvy]
    | some ti =>
      simp only
      by_cases hvy : v = y
      · subst hvy
        have hrest : v ∉ (grant (info.insert v
            { ti with numWaitingFor := ti.numWaitingFor - 1 }) ys).2 := by
          rw [ih _ hnd.2]
          exact fun h => hnd.1 h.1
        split_ifs with h0
        · simp [hy, h0]
        · simp [hy, h0, hrest]
      · have hrest : v ∈ (grant (info.insert y
            { ti with numWaitingFor := ti.numWaitingFor - 1 }) ys).2 ↔
            v ∈ ys ∧ ∃ ti, info.lookup v = some ti ∧ ti.numWaitingFor - 1 = 0 := by
          rw [ih _ hnd.2, lookup_insert', if_neg hvy]
        split_ifs <;> simp [hvy, hrest]

/-- The lock manager after the release of `x` on the key-region `k`. -/
def releaseOne (rm : RMALockManager) (x : TxnId) (k : KeyRegion) : RMALockManager :=
  { txnInfo := (grant rm.txnInfo ((rm.lockTable k).release x).2).1
    lockTable := update rm.lockTable k ((rm.lockTable k).release x).1 }

theorem releaseAll_cons (rm : RMALockManager) (x : TxnId) (k : KeyRegion) (ks : List KeyRegion) :
    rm.releaseAll x (k :: ks) =
      (((rm.releaseOne x k).releaseAll x ks).1,
        (grant rm.txnInfo ((rm.lockTable k).release x).2).2
          ++ ((rm.releaseOne x k).releaseAll x ks).2) := rfl

/-- The loop leaves the lists of keys alone. -/
theorem releaseAll_keys (rm : RMALockManager) (x : TxnId) (ks : List KeyRegion) (v : TxnId) :
    ((rm.releaseAll x ks).1.txnInfo.lookup v).map RMATxnInfo.keys =
      (rm.txnInfo.lookup v).map RMATxnInfo.keys := by
  induction ks generalizing rm with
  | nil => rfl
  | cons k ks ih =>
    rw [releaseAll_cons, ih]
    exact grant_keys _ _ v

/-- The entries after the release of `x`, with their keys. -/
theorem keys_releaseLocks {rm : RMALockManager} {x : TxnId} (hx : rm.txnInfo.lookup x = some tx)
    (v : TxnId) :
    ((rm.releaseLocks x).1.txnInfo.lookup v).map RMATxnInfo.keys =
      if v = x then none else (rm.txnInfo.lookup v).map RMATxnInfo.keys := by
  rw [releaseLocks, hx]
  simp only [lookup_erase']
  split_ifs
  · rfl
  · exact releaseAll_keys rm x tx.keys v

/-- The locks after the loop. -/
theorem releaseAll_table (rm : RMALockManager) (x : TxnId) {ks : List KeyRegion} (hks : ks.Nodup)
    (k : KeyRegion) : (rm.releaseAll x ks).1.lockTable k =
      if k ∈ ks then ((rm.lockTable k).release x).1 else rm.lockTable k := by
  induction ks generalizing rm with
  | nil => simp [releaseAll]
  | cons k' ks ih =>
    rw [nodup_cons] at hks
    rw [releaseAll_cons, ih _ hks.2, releaseOne]
    by_cases hk : k = k'
    · subst hk
      simp [hks.1]
    · simp [hk]

section ReleaseOne

variable {rm : RMALockManager} (hok : ∀ k, (rm.lockTable k).Ok)
include hok

theorem ok_releaseOne (x : TxnId) (k k' : KeyRegion) :
    ((rm.releaseOne x k).lockTable k').Ok := by
  change (update rm.lockTable k ((rm.lockTable k).release x).1 k').Ok
  rw [update_apply]
  split_ifs
  · exact ((hok k).release x).ok
  · exact hok k'

theorem lookup_releaseOne (x : TxnId) (k : KeyRegion) (v : TxnId) :
    (rm.releaseOne x k).txnInfo.lookup v = (rm.txnInfo.lookup v).map fun ti =>
      { ti with numWaitingFor := ti.numWaitingFor -
          if v ∈ ((rm.lockTable k).release x).2 then 1 else 0 } :=
  lookup_grant _ ((hok k).release x).nodup v

/-- The loop returns the transactions whose counters come down to zero. -/
theorem mem_releaseAll (x : TxnId) (ks : List KeyRegion) (v : TxnId) :
    (v ∈ (rm.releaseAll x ks).2 → v ≠ x ∧ v ∈ rm.txnInfo) ∧
    ∀ ti ti', rm.txnInfo.lookup v = some ti →
      (rm.releaseAll x ks).1.txnInfo.lookup v = some ti' → 0 ≤ ti'.numWaitingFor →
        ti'.numWaitingFor ≤ ti.numWaitingFor ∧
        (v ∈ (rm.releaseAll x ks).2 ↔ ti.numWaitingFor ≠ 0 ∧ ti'.numWaitingFor = 0) := by
  induction ks generalizing rm with
  | nil =>
    refine ⟨nofun, fun ti ti' hti hti' _ => ?_⟩
    obtain rfl := Option.some_inj.mp (hti.symm.trans hti')
    exact ⟨le_rfl, iff_of_false not_mem_nil fun h => h.1 h.2⟩
  | cons k ks ih =>
    have hrel := (hok k).release x
    obtain ⟨hmem, hcount⟩ := ih (ok_releaseOne hok x k)
    rw [releaseAll_cons, mem_append, mem_grant _ hrel.nodup]
    constructor
    · rintro (⟨hg, ti, hti, -⟩ | hv)
      · have hv := (hrel.members v).mp (List.mem_append_left _ ((hrel.granted v).mp hg).1)
        exact ⟨hv.2, mem_iff_lookup.mpr ⟨ti, hti⟩⟩
      · obtain ⟨hvx, hlive⟩ := hmem hv
        obtain ⟨ti, hti⟩ := mem_iff_lookup.mp hlive
        rw [lookup_releaseOne hok] at hti
        obtain ⟨ti₀, hti₀, -⟩ := Option.map_eq_some_iff.mp hti
        exact ⟨hvx, mem_iff_lookup.mpr ⟨ti₀, hti₀⟩⟩
    · intro ti ti' hti hti' h0
      have hti₁ := lookup_releaseOne hok x k v
      rw [hti] at hti₁
      obtain ⟨hle, hiff⟩ := hcount _ ti' hti₁ hti' h0
      rw [hiff, hti]
      by_cases hg : v ∈ ((rm.lockTable k).release x).2
      · simp only [hg, if_true, true_and, Option.some_inj, exists_eq_left'] at hle ⊢
        omega
      · simp only [hg, if_false, false_and, false_or, sub_zero] at hle ⊢
        exact ⟨hle, trivial⟩

end ReleaseOne

/-- `AcquireLocks` for a transaction that waits for `required` locks and makes the requests
`rs`. -/
def acquireRequests (rm : RMALockManager) (x : TxnId) (required : ℤ)
    (rs : List (KeyRegion × KeyType)) : RMALockManager × AcquireLocksResult :=
  let info := (rm.txnInfo.lookup x).getD { numWaitingFor := required }
  let (table, info) := acquireAll rm.lockTable x info rs
  ({ txnInfo := rm.txnInfo.insert x info, lockTable := table },
    if info.numWaitingFor = 0 then .acquired else .waiting)

theorem acquireLocks_eq (rm : RMALockManager) (t : Transaction) :
    rm.acquireLocks t = rm.acquireRequests t.id t.numRequiredLocks t.lockRequests := rfl

theorem keys_acquireRequests (rm : RMALockManager) (x : TxnId) (required : ℤ)
    (rs : List (KeyRegion × KeyType)) (v : TxnId) :
    ((rm.acquireRequests x required rs).1.txnInfo.lookup v).map RMATxnInfo.keys =
      if v = x then
        some (((rm.txnInfo.lookup x).map RMATxnInfo.keys).getD [] ++ rs.map Prod.fst)
      else (rm.txnInfo.lookup v).map RMATxnInfo.keys := by
  simp only [acquireRequests, lookup_insert']
  split_ifs
  · rw [Option.map_some, acquireAll_keys]
    cases rm.txnInfo.lookup x <;> rfl
  · rfl

/-! ## The lock table and the counters of the transactions -/

/-- The keys of an entry are those of the locks that the transaction is a member of, and it waits for as
many locks as it needs and does not hold. -/
structure EntryInv (rm : RMALockManager) (n : ℤ) (v : TxnId) (ti : RMATxnInfo) : Prop where
  keys : ∀ k, k ∈ ti.keys ↔ v ∈ (rm.lockTable k).members
  nodup : ti.keys.Nodup
  count : ti.numWaitingFor = n - ti.keys.countP fun k => v ∈ (rm.lockTable k).holders

/-- The locks and the entries are in order. -/
structure LockInv (rm : RMALockManager) (need : TxnId → ℤ) : Prop where
  locks : ∀ k, (rm.lockTable k).Ok
  live : ∀ k, ∀ v ∈ (rm.lockTable k).members, v ∈ rm.txnInfo
  entries : ∀ v ti, rm.txnInfo.lookup v = some ti → rm.EntryInv (need v) v ti

variable {rm : RMALockManager} {need : TxnId → ℤ} {x : TxnId}

theorem LockInv.init : LockInv {} need where
  locks := fun _ => LockState.Ok.default
  live := nofun
  entries := by simp

/-- A lock after the loop of `AcquireLocks`. -/
theorem acquireAll_cases (table : KeyRegion → LockState) (info : RMATxnInfo)
    {rs : List (KeyRegion × KeyType)} (hnd : (rs.map Prod.fst).Nodup) (k : KeyRegion) :
    (k ∉ rs.map Prod.fst ∧ (acquireAll table x info rs).1 k = table k) ∨
      ∃ m, (k, m) ∈ rs ∧ (acquireAll table x info rs).1 k = ((table k).acquire x m).1 := by
  rw [acquireAll_table]
  by_cases hk : k ∈ rs.map Prod.fst
  · obtain ⟨⟨_, m⟩, hm, rfl⟩ := mem_map.mp hk
    exact .inr ⟨m, hm, by rw [filter_fst_eq_singleton hnd hm]; rfl⟩
  · exact .inl ⟨hk, by rw [filter_fst_eq_nil hk]; rfl⟩

/-- The other transactions hold what they held, and the transaction itself the other locks. -/
theorem holders_acquireAll (table : KeyRegion → LockState) (info : RMATxnInfo)
    {rs : List (KeyRegion × KeyType)} (hnd : (rs.map Prod.fst).Nodup) (k : KeyRegion) {v : TxnId}
    (hv : v ≠ x ∨ k ∉ rs.map Prod.fst) :
    v ∈ ((acquireAll table x info rs).1 k).holders ↔ v ∈ (table k).holders := by
  rcases acquireAll_cases table (x := x) info hnd k with ⟨-, heq⟩ | ⟨m, hm, heq⟩
  · rw [heq]
  · rw [heq, mem_holders_acquire (hv.resolve_right fun hnot => hnot (mem_map_of_mem hm))]

section Acquire

variable {rs : List (KeyRegion × KeyType)} (hI : LockInv rm need)
  (hnd : (rs.map Prod.fst).Nodup) (hnew : ∀ r ∈ rs, x ∉ (rm.lockTable r.1).members)
include hI hnd hnew

theorem LockInv.ok_acquireAll (info : RMATxnInfo) (k : KeyRegion) :
    ((acquireAll rm.lockTable x info rs).1 k).Ok := by
  rcases acquireAll_cases rm.lockTable (x := x) info hnd k with ⟨-, heq⟩ | ⟨m, hm, heq⟩
  · rw [heq]
    exact hI.locks k
  · rw [heq]
    exact ((hI.locks k).acquire (hnew (k, m) hm) m).ok

theorem LockInv.members_acquireAll (info : RMATxnInfo) (k : KeyRegion) (v : TxnId) :
    v ∈ ((acquireAll rm.lockTable x info rs).1 k).members ↔
      v ∈ (rm.lockTable k).members ∨ v = x ∧ k ∈ rs.map Prod.fst := by
  rcases acquireAll_cases rm.lockTable (x := x) info hnd k with ⟨hnot, heq⟩ | ⟨m, hm, heq⟩
  · rw [heq, or_iff_left fun hand => hnot hand.2]
  · rw [heq, ((hI.locks k).acquire (hnew (k, m) hm) m).members,
      and_iff_left (mem_map_of_mem hm)]

/-- The counter of the transaction that requests locks. -/
theorem LockInv.count_acquireAll {base : RMATxnInfo} {n : ℤ}
    (hkeys : ∀ k ∈ base.keys, x ∈ (rm.lockTable k).members)
    (hbase : base.numWaitingFor =
      n - base.keys.countP fun k => x ∈ (rm.lockTable k).holders) :
    (acquireAll rm.lockTable x base rs).2.numWaitingFor =
      n - (base.keys ++ rs.map Prod.fst).countP fun k =>
        x ∈ ((acquireAll rm.lockTable x base rs).1 k).holders := by
  have hold : (base.keys.countP fun k => x ∈ ((acquireAll rm.lockTable x base rs).1 k).holders) =
      base.keys.countP fun k => x ∈ (rm.lockTable k).holders := by
    refine countP_congr fun k hk => ?_
    rw [decide_eq_true_eq, decide_eq_true_eq]
    refine holders_acquireAll rm.lockTable base hnd k (.inr fun hmem => ?_)
    obtain ⟨r, hr, rfl⟩ := mem_map.mp hmem
    exact hnew r hr (hkeys r.1 hk)
  have hgrant : ((rs.map Prod.fst).countP fun k =>
      x ∈ ((acquireAll rm.lockTable x base rs).1 k).holders) =
        rs.countP fun r => ((rm.lockTable r.1).acquire x r.2).2 := by
    rw [countP_map]
    refine countP_congr fun r hr => ?_
    rw [comp_apply, decide_eq_true_eq, ((hI.locks r.1).acquire (hnew r hr) r.2).granted,
      acquireAll_table, filter_fst_eq_singleton (m := r.2) hnd hr]
    rfl
  rw [acquireAll_numWaitingFor rm.lockTable x base hnd, hbase, countP_append, hold, hgrant]
  push_cast
  ring

end Acquire

/-- **`AcquireLocks` keeps the representation** if the transaction requests no lock twice. -/
theorem LockInv.acquireRequests (hI : LockInv rm need) {required : ℤ}
    {rs : List (KeyRegion × KeyType)} (hnd : (rs.map Prod.fst).Nodup)
    (hnew : ∀ r ∈ rs, x ∉ (rm.lockTable r.1).members) {need' : TxnId → ℤ}
    (hneed : ∀ v ∈ rm.txnInfo, need' v = need v) (hx : x ∉ rm.txnInfo → need' x = required) :
    LockInv (rm.acquireRequests x required rs).1 need' := by
  set base := (rm.txnInfo.lookup x).getD { numWaitingFor := required } with hbase
  set after := acquireAll rm.lockTable x base rs with hafter
  have hrm : (rm.acquireRequests x required rs).1 =
      { txnInfo := rm.txnInfo.insert x after.2, lockTable := after.1 } := rfl
  -- the entry from which the loop starts
  obtain ⟨hkeys, hknd, hcount⟩ : rm.EntryInv (need' x) x base := by
    cases hl : rm.txnInfo.lookup x with
    | some ti =>
      rw [hbase, hl, hneed x (mem_iff_lookup.mpr ⟨ti, hl⟩)]
      exact hI.entries x ti hl
    | none =>
      have hnot := not_mem_iff_lookup.mpr hl
      rw [hbase, hl]
      refine ⟨fun k => iff_of_false not_mem_nil fun h => hnot (hI.live k x h),
        nodup_nil, ?_⟩
      simp [hx hnot]
  have hakeys : after.2.keys = base.keys ++ rs.map Prod.fst := acquireAll_keys _ _ _ _
  rw [hrm]
  refine ⟨hI.ok_acquireAll hnd hnew base, fun k v hv => ?_, fun v ti hv => ?_⟩
  · rw [mem_iff_lookup, lookup_insert']
    by_cases hvx : v = x
    · exact ⟨after.2, by rw [if_pos hvx]⟩
    · rw [if_neg hvx, ← mem_iff_lookup]
      exact hI.live k v (((hI.members_acquireAll hnd hnew base k v).mp hv).resolve_right
        fun h => hvx h.1)
  rw [lookup_insert'] at hv
  split_ifs at hv with hvx
  · cases hv
    subst hvx
    refine ⟨fun k => ?_, ?_, ?_⟩
    · rw [hakeys, mem_append, hkeys, hI.members_acquireAll hnd hnew]
      simp
    · rw [hakeys, nodup_append]
      refine ⟨hknd, hnd, fun k hk k' hk' => ?_⟩
      rintro rfl
      obtain ⟨r, hr, rfl⟩ := mem_map.mp hk'
      exact hnew r hr ((hkeys _).mp hk)
    · rw [hakeys]
      exact hI.count_acquireAll hnd hnew (fun k hk => (hkeys k).mp hk) hcount
  · obtain ⟨hkeys', hknd', hcount'⟩ := hI.entries v ti hv
    refine ⟨fun k => ?_, hknd', ?_⟩
    · rw [hkeys', hI.members_acquireAll hnd hnew, or_iff_left fun h => hvx h.1]
    · rw [hneed v (mem_iff_lookup.mpr ⟨ti, hv⟩), hcount']
      congr 2
      refine countP_congr fun k _ => ?_
      rw [decide_eq_true_eq, decide_eq_true_eq]
      exact (holders_acquireAll rm.lockTable base hnd k (.inl hvx)).symm

/-- The invariant in the loop of `ReleaseLocks`, for the transactions other than the one that leaves. -/
structure Leaving (rm : RMALockManager) (need : TxnId → ℤ) (x : TxnId) : Prop where
  locks : ∀ k, (rm.lockTable k).Ok
  live : ∀ k, ∀ v ∈ (rm.lockTable k).members, v ≠ x → v ∈ rm.txnInfo
  entries : ∀ v ti, v ≠ x → rm.txnInfo.lookup v = some ti → rm.EntryInv (need v) v ti

/-- One step of the loop. -/
theorem Leaving.releaseOne (h : Leaving rm need x) (k : KeyRegion) :
    Leaving (rm.releaseOne x k) need x ∧
      (∀ k' v, v ∈ ((rm.releaseOne x k).lockTable k').members ↔
        v ∈ (rm.lockTable k').members ∧ (k' = k → v ≠ x)) := by
  have hrel := (h.locks k).release x
  have htable : ∀ k', (rm.releaseOne x k).lockTable k' =
      if k' = k then ((rm.lockTable k).release x).1 else rm.lockTable k' :=
    fun k' => update_apply _ _ _ _
  have hmembers : ∀ k' v, v ∈ ((rm.releaseOne x k).lockTable k').members ↔
      v ∈ (rm.lockTable k').members ∧ (k' = k → v ≠ x) := by
    intro k' v
    rw [htable]
    split_ifs with hk
    · subst hk
      rw [hrel.members]
      simp
    · simp [hk]
  have hlookup := lookup_releaseOne h.locks x k
  refine ⟨⟨ok_releaseOne h.locks x k, fun k' v hv hvx => ?_, fun v ti hvx hv => ?_⟩, hmembers⟩
  · obtain ⟨ti, hti⟩ := mem_iff_lookup.mp (h.live k' v ((hmembers k' v).mp hv).1 hvx)
    exact mem_iff_lookup.mpr ⟨_, by rw [hlookup, hti]; rfl⟩
  rw [hlookup] at hv
  obtain ⟨ti, hti, rfl⟩ := Option.map_eq_some_iff.mp hv
  obtain ⟨hkeys, hnodup, hcount⟩ := h.entries v ti hvx hti
  refine ⟨fun k' => ?_, hnodup, ?_⟩
  · rw [hkeys, hmembers, and_iff_left fun _ => hvx]
  · -- the counter goes down by one if the transaction gets the lock
    have hholds : ∀ k', v ∈ ((rm.releaseOne x k).lockTable k').holders ↔
        v ∈ (rm.lockTable k').holders ∨ k' = k ∧ v ∈ ((rm.lockTable k).release x).2 := by
      intro k'
      rw [htable]
      split_ifs with hk
      · subst hk
        rw [hrel.granted]
        constructor
        · intro hmem
          by_cases hold : v ∈ (rm.lockTable k').holders
          · exact .inl hold
          · exact .inr ⟨rfl, hmem, hold⟩
        · rintro (hold | hnew)
          · exact hrel.stays v hvx hold
          · exact hnew.2.1
      · simp [hk]
    dsimp only
    rw [hcount]
    by_cases hg : v ∈ ((rm.lockTable k).release x).2
    · have hnot := ((hrel.granted v).mp hg).2
      have hkk : k ∈ ti.keys := by
        rw [hkeys]
        exact ((hrel.members v).mp (List.mem_append_left _ ((hrel.granted v).mp hg).1)).1
      have hperm := perm_cons_erase hkk
      have hother : ((ti.keys.erase k).countP fun k' =>
          v ∈ ((rm.releaseOne x k).lockTable k').holders) =
            (ti.keys.erase k).countP fun k' => v ∈ (rm.lockTable k').holders := by
        refine countP_congr fun k' hk' => ?_
        have hne : k' ≠ k := by
          rintro rfl
          exact hnodup.not_mem_erase hk'
        rw [decide_eq_true_eq, decide_eq_true_eq, hholds, or_iff_left fun hand => hne hand.1]
      rw [hperm.countP_eq, hperm.countP_eq, countP_cons, countP_cons, hother]
      simp [hholds, hnot, hg]
      ring
    · simp [hholds, hg]

/-- The loop of `ReleaseLocks` over the keys of the transaction that leaves. -/
theorem Leaving.releaseAll (h : Leaving rm need x) (ks : List KeyRegion) :
    Leaving (rm.releaseAll x ks).1 need x ∧
      ∀ k v, v ∈ ((rm.releaseAll x ks).1.lockTable k).members ↔
        v ∈ (rm.lockTable k).members ∧ (k ∈ ks → v ≠ x) := by
  induction ks generalizing rm with
  | nil => exact ⟨h, fun k v => by simp [RMALockManager.releaseAll]⟩
  | cons k ks ih =>
    obtain ⟨hone, hmembers⟩ := h.releaseOne k
    obtain ⟨hrest, hmembers'⟩ := ih hone
    rw [releaseAll_cons]
    refine ⟨hrest, fun k' v => ?_⟩
    rw [hmembers', hmembers, mem_cons]
    tauto

/-- **`ReleaseLocks` keeps the representation**, also if the transaction waits. -/
theorem LockInv.releaseLocks (hI : LockInv rm need) (x : TxnId) :
    LockInv (rm.releaseLocks x).1 need := by
  rw [RMALockManager.releaseLocks]
  cases hx : rm.txnInfo.lookup x with
  | none => exact hI
  | some tx =>
    have hstart : Leaving rm need x :=
      ⟨hI.locks, fun k v hv _ => hI.live k v hv, fun v ti _ => hI.entries v ti⟩
    obtain ⟨hleft, hmembers⟩ := hstart.releaseAll tx.keys
    dsimp only
    -- the transaction is no member of any lock any more
    have hgone : ∀ k, ∀ v ∈ ((rm.releaseAll x tx.keys).1.lockTable k).members, v ≠ x := by
      rintro k v hv rfl
      obtain ⟨hmem, hne⟩ := (hmembers k v).mp hv
      exact hne (((hI.entries v tx hx).keys k).mpr hmem) rfl
    refine ⟨hleft.locks, fun k v hv => ?_, fun v ti hv => ?_⟩
    · obtain ⟨ti, hti⟩ := mem_iff_lookup.mp (hleft.live k v hv (hgone k v hv))
      refine mem_iff_lookup.mpr ⟨ti, ?_⟩
      rw [lookup_erase', if_neg (hgone k v hv), hti]
    · rw [lookup_erase'] at hv
      split_ifs at hv with hvx
      exact { hleft.entries v ti hvx hv with }

/-- **`ReleaseLocks` returns exactly the transactions that become ready** if nobody needs fewer
locks than it has requested. -/
theorem LockInv.mem_releaseLocks (hI : LockInv rm need)
    (hle : ∀ v ti, rm.txnInfo.lookup v = some ti → (ti.keys.length : ℤ) ≤ need v)
    (hx : rm.txnInfo.lookup x = some tx) (v : TxnId) :
    v ∈ (rm.releaseLocks x).2 ↔ ∃ ti ti', rm.txnInfo.lookup v = some ti ∧ ti.numWaitingFor ≠ 0 ∧
      (rm.releaseLocks x).1.txnInfo.lookup v = some ti' ∧ ti'.numWaitingFor = 0 := by
  obtain ⟨hmem, hcount⟩ := mem_releaseAll hI.locks x tx.keys v
  have hI' := hI.releaseLocks x
  have hkeys := keys_releaseLocks hx v
  rw [RMALockManager.releaseLocks, hx] at hI' hkeys ⊢
  dsimp only at hI' hkeys ⊢
  rw [mem_sortUnique]
  by_cases hvx : v = x
  · refine iff_of_false (fun hv => (hmem hv).1 hvx) ?_
    simp [lookup_erase', hvx]
  rw [if_neg hvx] at hkeys
  -- the counter of an entry that stays is not negative
  have hready : ∀ ti ti', rm.txnInfo.lookup v = some ti →
      ((rm.releaseAll x tx.keys).1.txnInfo.erase x).lookup v = some ti' →
      (v ∈ (rm.releaseAll x tx.keys).2 ↔ ti.numWaitingFor ≠ 0 ∧ ti'.numWaitingFor = 0) := by
    intro ti ti' hti hti'
    have hk : ti'.keys = ti.keys := by
      rw [hti, hti'] at hkeys
      exact Option.some_inj.mp hkeys
    have h1 := hle v ti hti
    have h2 := (hI'.entries v ti' hti').count
    dsimp only at h2
    have h3 : (ti'.keys.countP fun k =>
        v ∈ ((rm.releaseAll x tx.keys).1.lockTable k).holders) ≤ ti'.keys.length :=
      countP_le_length
    rw [lookup_erase', if_neg hvx] at hti'
    refine (hcount ti ti' hti hti' ?_).2
    rw [hk] at h2 h3
    omega
  constructor
  · intro hv
    obtain ⟨ti, hti⟩ := mem_iff_lookup.mp (hmem hv).2
    rw [hti, Option.map_some, Option.map_eq_some_iff] at hkeys
    obtain ⟨ti', hti', -⟩ := hkeys
    obtain ⟨hne, h0⟩ := (hready ti ti' hti hti').mp hv
    exact ⟨ti, ti', hti, hne, hti', h0⟩
  · rintro ⟨ti, ti', hti, hne, hti', h0⟩
    exact (hready ti ti' hti hti').mpr ⟨hne, h0⟩

end RMALockManager

end Slog
