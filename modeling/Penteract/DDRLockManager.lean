/-
# The DDR lock manager

The deterministic lock manager that keeps a waits-for graph: every transaction has the list of
the transactions that wait for it and the number of those it waits for.  `AcquireLocks` adds an
edge for every blocking transaction that is still there, `ReleaseLocks` removes the edges that
leave the released transaction and reports those that become ready.

The functions are given as the source computes them; for each one a lookup rule says what it
does to every entry of the map.  The counting rules state that `num_waiting_for` is the number
of occurrences in waited-by lists.
-/
import Penteract.Lib.AssocMap
import Penteract.LockQueueTail

namespace Slog

open List Option AssocMap

/-! ## State -/

structure TxnInfo where
  waitedBy : List TxnId
  numWaitingFor : ℤ
  unarrivedLockRequests : ℤ
  deadlocked : Bool
  deriving DecidableEq, Repr

namespace TxnInfo

/-- A new entry: the free slot is where the deadlock resolver may put an edge. -/
def new (unarrived : ℤ) : TxnInfo :=
  { waitedBy := [kSentinelTxnId], numWaitingFor := 0, unarrivedLockRequests := unarrived,
    deadlocked := false }

def isReady (t : TxnInfo) : Bool := t.numWaitingFor == 0 && t.unarrivedLockRequests == 0

variable {t : TxnInfo}

theorem isReady_iff : t.isReady = true ↔ t.numWaitingFor = 0 ∧ t.unarrivedLockRequests = 0 := by
  simp [isReady]

/-- One of the transactions waited for has left. -/
def unblocked (t : TxnInfo) : TxnInfo := { t with numWaitingFor := t.numWaitingFor - 1 }

theorem isReady_unblocked :
    t.unblocked.isReady = true ↔ t.numWaitingFor - 1 = 0 ∧ t.unarrivedLockRequests = 0 :=
  isReady_iff

end TxnInfo

abbrev TxnInfoMap := AssocMap TxnId TxnInfo

/-- What the lock manager tells the deadlock resolver about one call of `AcquireLocks`. -/
structure LogEntry where
  txnId : TxnId
  numPartitions : ℕ
  isComplete : Bool
  incomingEdges : List TxnId
  deriving DecidableEq, Repr

/-- The lock manager.  The two logs are written and read in turn: the resolver takes the one at
`logIndex` after it has made the other one current. -/
structure DDRLockManager where
  lockTable : LockTable := fun _ => {}
  txnInfo : TxnInfoMap := ∅
  log : Fin 2 → List LogEntry := fun _ => []
  logIndex : Fin 2 := 0
  readyTxns : List TxnId := []
  dlResolver : Bool := true

/-! ## Acquiring locks -/

/-- Add `x` to the waited-by list of every blocking transaction that is still in the lock
manager, and count it. -/
def addWaits (info : TxnInfoMap) (x : TxnId) : List TxnId → TxnInfoMap
  | [] => info
  | b :: bs =>
    if b = x ∨ info.lookup b = none then addWaits info x bs
    else
      let info := AssocMap.modify info x fun t => { t with numWaitingFor := t.numWaitingFor + 1 }
      let info := AssocMap.modify info b fun t => { t with waitedBy := t.waitedBy ++ [x] }
      addWaits info x bs

/-- The first part of `AcquireLocks`, up to the release of the latch of `txn_info_`: the new
state, the result, and the entry that is then appended to the log. -/
def DDRLockManager.enterLocks (lm : DDRLockManager) (t : Transaction) :
    DDRLockManager × AcquireLocksResult × LogEntry :=
  let x := t.id
  let (table, blocking) := lm.lockTable.acquireAll x t.lockRequests
  let blocking := sortUnique blocking
  let info := if x ∈ lm.txnInfo then lm.txnInfo
    else lm.txnInfo.insert x (TxnInfo.new t.numRequiredLocks)
  let info := AssocMap.modify info x fun ti =>
    { ti with unarrivedLockRequests := ti.unarrivedLockRequests - t.lockRequests.length }
  let isComplete := (info.lookup x).elim false fun ti => ti.unarrivedLockRequests == 0
  let info := addWaits info x blocking
  let result := if (info.lookup x).elim false TxnInfo.isReady then .acquired else .waiting
  ({ lm with lockTable := table, txnInfo := info }, result,
    { txnId := x, numPartitions := t.internal.involvedPartitions.length, isComplete := isComplete,
      incomingEdges := blocking })

/-- The second part of `AcquireLocks`, under the latch of the log. -/
def DDRLockManager.appendLog (lm : DDRLockManager) (e : LogEntry) : DDRLockManager :=
  if lm.dlResolver then
    { lm with log := Function.update lm.log lm.logIndex (lm.log lm.logIndex ++ [e]) }
  else lm

@[simp] theorem DDRLockManager.appendLog_lockTable (lm : DDRLockManager) (e : LogEntry) :
    (lm.appendLog e).lockTable = lm.lockTable := by
  rw [appendLog]
  split <;> rfl

@[simp] theorem DDRLockManager.appendLog_txnInfo (lm : DDRLockManager) (e : LogEntry) :
    (lm.appendLog e).txnInfo = lm.txnInfo := by
  rw [appendLog]
  split <;> rfl

def DDRLockManager.acquireLocks (lm : DDRLockManager) (t : Transaction) :
    DDRLockManager × AcquireLocksResult :=
  let (lm, result, entry) := lm.enterLocks t
  (lm.appendLog entry, result)

/-! ## Releasing locks -/

/-- The loop of `ReleaseLocks` over the waited-by list of the released transaction. -/
def unblock (info : TxnInfoMap) : List TxnId → TxnInfoMap × List (TxnId × Bool)
  | [] => (info, [])
  | b :: bs =>
    if b = kSentinelTxnId then unblock info bs
    else
      match info.lookup b with
      | none => unblock info bs
      | some ti =>
        let (info, result) := unblock (info.insert b ti.unblocked) bs
        (info, if ti.unblocked.isReady then (b, ti.deadlocked) :: result else result)

/-- `ReleaseLocks`; `none` is the failed check that the transaction is ready. -/
def DDRLockManager.releaseLocks (lm : DDRLockManager) (x : TxnId) :
    Option (DDRLockManager × List (TxnId × Bool)) :=
  match lm.txnInfo.lookup x with
  | none => some (lm, [])
  | some ti =>
    if ti.isReady then
      let (info, result) := unblock lm.txnInfo ti.waitedBy
      some ({ lm with txnInfo := info.erase x }, result)
    else none

/-- `GetReadyTxns` hands over the transactions that resolving a deadlock made ready. -/
def DDRLockManager.getReadyTxns (lm : DDRLockManager) : DDRLockManager × List TxnId :=
  ({ lm with readyTxns := [] }, lm.readyTxns)

/-! ## What acquiring does to the entries -/

/-- The blocking transactions that `x` is made to wait for. -/
def liveBlockers (info : TxnInfoMap) (x : TxnId) (bs : List TxnId) : List TxnId :=
  bs.filter fun b => decide (b ≠ x ∧ b ∈ info)

variable {info : TxnInfoMap} {x b : TxnId}

theorem liveBlockers_congr {info' : TxnInfoMap} (h : ∀ u, u ∈ info' ↔ u ∈ info) (x : TxnId)
    (bs : List TxnId) : liveBlockers info' x bs = liveBlockers info x bs := by
  simp only [liveBlockers, h]

theorem liveBlockers_skip (h : b = x ∨ info.lookup b = none) (bs : List TxnId) :
    liveBlockers info x (b :: bs) = liveBlockers info x bs := by
  apply filter_cons_of_neg
  rw [decide_eq_true_eq, mem_iff_lookup]
  rintro ⟨hne, ti, hti⟩
  rw [h.resolve_left hne] at hti
  cases hti

variable {ti : TxnInfo}

theorem liveBlockers_live (hb : b ≠ x) (h : info.lookup b = some ti) (bs : List TxnId) :
    liveBlockers info x (b :: bs) = b :: liveBlockers info x bs := by
  apply filter_cons_of_pos
  rw [decide_eq_true_eq, mem_iff_lookup]
  exact ⟨hb, ti, h⟩

theorem lookup_addWaits (info : TxnInfoMap) (x : TxnId) {bs : List TxnId} (hnd : bs.Nodup)
    (u : TxnId) :
    (addWaits info x bs).lookup u = (info.lookup u).map fun ti =>
      if u = x then { ti with numWaitingFor := ti.numWaitingFor + (liveBlockers info x bs).length }
      else if u ∈ bs then { ti with waitedBy := ti.waitedBy ++ [x] } else ti := by
  induction bs generalizing info with
  | nil => simp [addWaits, liveBlockers]
  | cons b bs ih =>
    rw [nodup_cons] at hnd
    by_cases hb : b = x ∨ info.lookup b = none
    · -- The blocking transaction is skipped.
      rw [addWaits, if_pos hb, ih info hnd.2, liveBlockers_skip hb]
      cases hu : info.lookup u with
      | none => rfl
      | some ti =>
        by_cases hux : u = x
        · simp [hux]
        · have hub : u ≠ b := by
            rintro rfl
            rcases hb with rfl | hb
            · exact hux rfl
            · rw [hb] at hu
              cases hu
          simp [hux, hub]
    · rw [addWaits, if_neg hb]
      rw [not_or] at hb
      obtain ⟨tb, htb⟩ := ne_none_iff_exists'.mp hb.2
      rw [ih _ hnd.2, @liveBlockers_congr info _ (by simp), liveBlockers_live hb.1 htb,
        lookup_modify, lookup_modify, lookup_modify]
      by_cases hux : u = x
      · subst hux
        rw [if_neg (Ne.symm hb.1), if_pos rfl, Option.map_map]
        congr 1
        funext ti
        simp only [Function.comp_apply, if_true, length_cons, Nat.cast_add, Nat.cast_one]
        congr 1
        ring
      · by_cases hub : u = b
        · subst hub
          rw [if_pos rfl, if_neg hux, Option.map_map]
          congr 1
          funext ti
          simp [hux, hnd.1]
        · simp [hux, hub]

namespace DDRLockManager

/-- The blocking transactions of a call of `AcquireLocks`, without duplicates. -/
def blocking (lm : DDRLockManager) (t : Transaction) : List TxnId :=
  sortUnique (lm.lockTable.acquireAll t.id t.lockRequests).2

/-- The entry of the transaction as the call finds it. -/
def baseInfo (lm : DDRLockManager) (t : Transaction) : TxnInfo :=
  (lm.txnInfo.lookup t.id).getD (TxnInfo.new t.numRequiredLocks)

/-- The entry of the transaction as the call leaves it. -/
def enteredInfo (lm : DDRLockManager) (t : Transaction) : TxnInfo :=
  { lm.baseInfo t with
    numWaitingFor := (lm.baseInfo t).numWaitingFor
      + (liveBlockers lm.txnInfo t.id (lm.blocking t)).length
    unarrivedLockRequests := (lm.baseInfo t).unarrivedLockRequests - t.lockRequests.length }

/-- The map right before the edges are added. -/
def arrivedInfo (lm : DDRLockManager) (t : Transaction) : TxnInfoMap :=
  AssocMap.modify
    (if t.id ∈ lm.txnInfo then lm.txnInfo
      else lm.txnInfo.insert t.id (TxnInfo.new t.numRequiredLocks))
    t.id fun ti =>
      { ti with unarrivedLockRequests := ti.unarrivedLockRequests - t.lockRequests.length }

theorem lookup_arrivedInfo (lm : DDRLockManager) (t : Transaction) (u : TxnId) :
    (lm.arrivedInfo t).lookup u =
      if u = t.id then
        some { lm.baseInfo t with
          unarrivedLockRequests :=
            (lm.baseInfo t).unarrivedLockRequests - t.lockRequests.length }
      else lm.txnInfo.lookup u := by
  rw [arrivedInfo, lookup_modify, baseInfo]
  by_cases hmem : t.id ∈ lm.txnInfo
  · obtain ⟨ti, hti⟩ := mem_iff_lookup.mp hmem
    rw [if_pos hmem, hti]
    rfl
  · rw [if_neg hmem, not_mem_iff_lookup.mp hmem]
    by_cases hu : u = t.id <;> simp [hu]

theorem enterLocks_txnInfo (lm : DDRLockManager) (t : Transaction) :
    (lm.enterLocks t).1.txnInfo = addWaits (lm.arrivedInfo t) t.id (lm.blocking t) := rfl

theorem liveBlockers_arrivedInfo (lm : DDRLockManager) (t : Transaction) (bs : List TxnId) :
    liveBlockers (lm.arrivedInfo t) t.id bs = liveBlockers lm.txnInfo t.id bs := by
  simp only [liveBlockers]
  congr 1
  funext b
  rw [decide_eq_decide]
  refine and_congr_right fun hb => ?_
  rw [mem_iff_lookup, mem_iff_lookup, lookup_arrivedInfo, if_neg hb]

/-- **What `AcquireLocks` does to the map**: the entry of the transaction is created or
updated, and the blocking transactions that are still there get it in their lists. -/
theorem lookup_enterLocks (lm : DDRLockManager) (t : Transaction) (u : TxnId) :
    (lm.enterLocks t).1.txnInfo.lookup u =
      if u = t.id then some (lm.enteredInfo t)
      else (lm.txnInfo.lookup u).map fun ti =>
        { ti with waitedBy := ti.waitedBy ++ if u ∈ lm.blocking t then [t.id] else [] } := by
  have hnd : (lm.blocking t).Nodup := sortUnique_nodup _
  rw [enterLocks_txnInfo, lookup_addWaits _ _ hnd, lookup_arrivedInfo, liveBlockers_arrivedInfo]
  by_cases hu : u = t.id
  · simp [hu, enteredInfo]
  · by_cases hb : u ∈ lm.blocking t <;> simp [hu, hb]

variable {lm : DDRLockManager} {t : Transaction} {u : TxnId}

/-- The entries after `AcquireLocks`, one by one. -/
theorem enterLocks_cases {tu : TxnInfo} (h : (lm.enterLocks t).1.txnInfo.lookup u = some tu) :
    (u = t.id ∧ tu = lm.enteredInfo t) ∨
      (u ≠ t.id ∧ ∃ ti, lm.txnInfo.lookup u = some ti ∧ tu = { ti with
        waitedBy := ti.waitedBy ++ if u ∈ lm.blocking t then [t.id] else [] }) := by
  rw [lookup_enterLocks] at h
  by_cases hu : u = t.id
  · rw [if_pos hu] at h
    exact .inl ⟨hu, (some_inj.mp h).symm⟩
  · rw [if_neg hu] at h
    obtain ⟨ti, hti, rfl⟩ := map_eq_some_iff.mp h
    exact .inr ⟨hu, ti, hti, rfl⟩

theorem mem_enterLocks : u ∈ (lm.enterLocks t).1.txnInfo ↔ u = t.id ∨ u ∈ lm.txnInfo := by
  rw [mem_iff_lookup, mem_iff_lookup, lookup_enterLocks]
  by_cases hu : u = t.id
  · simp [hu]
  · simp [hu, map_eq_some_iff]

theorem enterLocks_result (lm : DDRLockManager) (t : Transaction) :
    (lm.enterLocks t).2.1 =
      if (lm.enteredInfo t).isReady then .acquired else .waiting := by
  have h : (lm.enterLocks t).2.1 =
      if ((lm.enterLocks t).1.txnInfo.lookup t.id).elim false TxnInfo.isReady then
        .acquired else .waiting := rfl
  rw [h, lookup_enterLocks, if_pos rfl]
  rfl

theorem enterLocks_entry (lm : DDRLockManager) (t : Transaction) :
    (lm.enterLocks t).2.2 =
      { txnId := t.id, numPartitions := t.internal.involvedPartitions.length,
        isComplete := (lm.enteredInfo t).unarrivedLockRequests == 0,
        incomingEdges := lm.blocking t } := by
  have h : (lm.enterLocks t).2.2 =
      { txnId := t.id, numPartitions := t.internal.involvedPartitions.length,
        isComplete := ((lm.arrivedInfo t).lookup t.id).elim false
          fun ti => ti.unarrivedLockRequests == 0,
        incomingEdges := lm.blocking t } := rfl
  rw [h, lookup_arrivedInfo, if_pos rfl]
  rfl

end DDRLockManager

/-! ## What releasing does to the entries -/

theorem unblock_skip (h : b = kSentinelTxnId ∨ info.lookup b = none) (bs : List TxnId) :
    unblock info (b :: bs) = unblock info bs := by
  rw [unblock]
  by_cases hb : b = kSentinelTxnId
  · rw [if_pos hb]
  · rw [if_neg hb, h.resolve_left hb]

theorem unblock_live (hb : b ≠ kSentinelTxnId) (h : info.lookup b = some ti) (bs : List TxnId) :
    unblock info (b :: bs) =
      ((unblock (info.insert b ti.unblocked) bs).1,
        if ti.unblocked.isReady then
          (b, ti.deadlocked) :: (unblock (info.insert b ti.unblocked) bs).2
        else (unblock (info.insert b ti.unblocked) bs).2) := by
  rw [unblock, if_neg hb, h]

theorem lookup_unblock (info : TxnInfoMap) (l : List TxnId) (v : TxnId) :
    (unblock info l).1.lookup v = (info.lookup v).map fun ti =>
      { ti with
        numWaitingFor := ti.numWaitingFor - if v = kSentinelTxnId then 0 else l.count v } := by
  induction l generalizing info with
  | nil => simp [unblock]
  | cons b bs ih =>
    by_cases hskip : b = kSentinelTxnId ∨ info.lookup b = none
    · rw [unblock_skip hskip, ih]
      by_cases hvb : v = b
      · subst hvb
        rcases hskip with hv | hv <;> simp [hv]
      · rw [count_cons_of_ne (Ne.symm hvb)]
    · rw [not_or] at hskip
      obtain ⟨ti, hti⟩ := ne_none_iff_exists'.mp hskip.2
      rw [unblock_live hskip.1 hti]
      simp only [ih, lookup_insert']
      by_cases hvb : v = b
      · subst hvb
        simp [hti, hskip.1, TxnInfo.unblocked]
        ring
      · simp [hvb, count_cons_of_ne (Ne.symm hvb)]

/-- The reports of the loop, provided that no counter runs below zero: a transaction is
reported exactly when its last occurrence in the list takes its counter to zero. -/
theorem unblock_spec (info : TxnInfoMap) (l : List TxnId)
    (hle : ∀ v ti, v ≠ kSentinelTxnId → info.lookup v = some ti →
      (l.count v : ℤ) ≤ ti.numWaitingFor) :
    ((unblock info l).2.map Prod.fst).Nodup ∧
      ∀ v d, (v, d) ∈ (unblock info l).2 ↔
        v ≠ kSentinelTxnId ∧ v ∈ l ∧ ∃ ti, info.lookup v = some ti ∧
          ti.numWaitingFor = l.count v ∧ ti.unarrivedLockRequests = 0 ∧ d = ti.deadlocked := by
  induction l generalizing info with
  | nil => simp [unblock]
  | cons b bs ih =>
    by_cases hskip : b = kSentinelTxnId ∨ info.lookup b = none
    · -- Skipping an entry changes neither the list of reports nor any count that matters.
      have hne : ∀ v ti, v ≠ kSentinelTxnId → info.lookup v = some ti → v ≠ b := by
        rintro v ti hv hti rfl
        rcases hskip with h | h
        · exact hv h
        · rw [h] at hti
          cases hti
      rw [unblock_skip hskip]
      obtain ⟨hnd, hiff⟩ := ih info fun v ti hv hti => by
        have := hle v ti hv hti
        rwa [count_cons_of_ne (hne v ti hv hti).symm] at this
      refine ⟨hnd, fun v d => (hiff v d).trans ?_⟩
      refine and_congr_right fun hv => ?_
      constructor
      · rintro ⟨hmem, ti, hti, hn, hrest⟩
        exact ⟨mem_cons_of_mem b hmem, ti, hti,
          by rw [hn, count_cons_of_ne (hne v ti hv hti).symm], hrest⟩
      · rintro ⟨hmem, ti, hti, hn, hrest⟩
        have hvb := hne v ti hv hti
        exact ⟨(mem_cons.mp hmem).resolve_left hvb, ti, hti,
          by rw [hn, count_cons_of_ne hvb.symm], hrest⟩
    · rw [not_or] at hskip
      obtain ⟨hb, hsome⟩ := hskip
      obtain ⟨ti, hti⟩ := ne_none_iff_exists'.mp hsome
      rw [unblock_live hb hti]
      have hcount : (bs.count b : ℤ) + 1 ≤ ti.numWaitingFor := by
        simpa using hle b ti hb hti
      obtain ⟨hnd, hiff⟩ := ih (info.insert b ti.unblocked) fun v ti' hv hti' => by
        rw [lookup_insert'] at hti'
        split_ifs at hti' with hvb
        · cases hti'
          subst hvb
          simp only [TxnInfo.unblocked]
          omega
        · have := hle v ti' hv hti'
          rwa [count_cons_of_ne (Ne.symm hvb)] at this
      set rest := (unblock (info.insert b ti.unblocked) bs).2
      -- Reports of the other transactions, and of this one, by the rest of the loop.
      have hother : ∀ v d, v ≠ b → ((v, d) ∈ rest ↔
          v ≠ kSentinelTxnId ∧ v ∈ b :: bs ∧ ∃ ti, info.lookup v = some ti ∧
            ti.numWaitingFor = (b :: bs).count v ∧ ti.unarrivedLockRequests = 0 ∧
            d = ti.deadlocked) := by
        intro v d hvb
        rw [hiff, lookup_insert', if_neg hvb, count_cons_of_ne hvb.symm,
          mem_cons, or_iff_right hvb]
      have hthis : ∀ d, (b, d) ∈ rest ↔ b ∈ bs ∧ ti.numWaitingFor - 1 = bs.count b ∧
          ti.unarrivedLockRequests = 0 ∧ d = ti.deadlocked := by
        intro d
        simp [hiff, hb, TxnInfo.unblocked]
      have hgoal : ∀ d, (b ≠ kSentinelTxnId ∧ b ∈ b :: bs ∧ ∃ ti, info.lookup b = some ti ∧
          ti.numWaitingFor = (b :: bs).count b ∧ ti.unarrivedLockRequests = 0 ∧
          d = ti.deadlocked) ↔ ti.numWaitingFor - 1 = bs.count b ∧
            ti.unarrivedLockRequests = 0 ∧ d = ti.deadlocked := by
        intro d
        simp [hti, hb, sub_eq_iff_eq_add]
      by_cases hready : ti.numWaitingFor - 1 = 0 ∧ ti.unarrivedLockRequests = 0
      · have hnot : b ∉ bs := by
          rw [← count_eq_zero]
          omega
        rw [if_pos (TxnInfo.isReady_unblocked.mpr hready)]
        refine ⟨?_, fun v d => ?_⟩
        · rw [map_cons, nodup_cons]
          refine ⟨fun hmem => ?_, hnd⟩
          obtain ⟨⟨v, d⟩, hvd, rfl⟩ := mem_map.mp hmem
          exact hnot ((hthis d).mp hvd).1
        · by_cases hvb : v = b
          · subst hvb
            rw [hgoal, mem_cons, hthis, count_eq_zero_of_not_mem hnot]
            simp [hnot, hready.1, hready.2]
          · rw [← hother v d hvb, mem_cons, Prod.mk.injEq, or_iff_right fun h => hvb h.1]
      · rw [if_neg (mt TxnInfo.isReady_unblocked.mp hready)]
        refine ⟨hnd, fun v d => ?_⟩
        by_cases hvb : v = b
        · subst hvb
          rw [hgoal, hthis, and_iff_right_iff_imp]
          rintro ⟨hn, hu, -⟩
          by_contra hnot
          rw [count_eq_zero_of_not_mem hnot] at hn
          exact hready ⟨hn, hu⟩
        · exact hother v d hvb

/-! ## Counting the waits -/

/-- The number of occurrences of `v` in all waited-by lists. -/
def waitCount (info : TxnInfoMap) (v : TxnId) : ℤ :=
  AssocMap.total (fun _ ti => (ti.waitedBy.count v : ℤ)) info

/-- **The waits-for graph is well formed**: whoever is in a waited-by list is in the lock
manager, and `num_waiting_for` counts the occurrences. -/
structure WaitsInv (info : TxnInfoMap) : Prop where
  sentinel : kSentinelTxnId ∉ info
  live : ∀ u ti, info.lookup u = some ti → ∀ v ∈ ti.waitedBy, v = kSentinelTxnId ∨ v ∈ info
  count : ∀ v ti, info.lookup v = some ti → ti.numWaitingFor = waitCount info v

theorem WaitsInv.empty : WaitsInv ∅ where
  sentinel := by simp
  live := by simp
  count := by simp

namespace WaitsInv

variable {info : TxnInfoMap}

variable {v : TxnId} {tv : TxnInfo}

theorem ne_sentinel (h : WaitsInv info) {ti : TxnInfo} (hv : info.lookup v = some ti) :
    v ≠ kSentinelTxnId := by
  rintro rfl
  exact h.sentinel (mem_iff_lookup.mpr ⟨ti, hv⟩)

/-- Nobody waits for the benefit of a transaction that is not there. -/
theorem waitCount_eq_zero (h : WaitsInv info) (hv : v ∉ info) (h0 : v ≠ kSentinelTxnId) :
    waitCount info v = 0 := by
  apply total_eq_zero
  intro u ti hu
  rw [Nat.cast_eq_zero, count_eq_zero]
  intro hmem
  exact (h.live u ti hu v hmem).elim h0 hv

theorem count_le (h : WaitsInv info) {u : TxnId} {tu : TxnInfo} (hu : info.lookup u = some tu)
    (hv : info.lookup v = some tv) : (tu.waitedBy.count v : ℤ) ≤ tv.numWaitingFor := by
  rw [h.count v tv hv]
  exact le_total (f := fun _ ti => (ti.waitedBy.count v : ℤ))
    (fun _ _ _ => Int.natCast_nonneg _) hu

theorem numWaitingFor_nonneg (h : WaitsInv info) (hv : info.lookup v = some tv) :
    0 ≤ tv.numWaitingFor := by
  rw [h.count v tv hv]
  exact total_nonneg fun _ _ _ => Int.natCast_nonneg _

/-- A transaction waits for nobody exactly when it is in nobody's waited-by list. -/
theorem numWaitingFor_eq_zero_iff (h : WaitsInv info) (hv : info.lookup v = some tv) :
    tv.numWaitingFor = 0 ↔ ∀ u tu, info.lookup u = some tu → v ∉ tu.waitedBy := by
  constructor
  · intro h0 u tu hu hmem
    have hle := h.count_le hu hv
    have hpos := count_pos_iff.mpr hmem
    omega
  · intro hnone
    rw [h.count v tv hv]
    apply total_eq_zero
    intro u tu hu
    rw [Nat.cast_eq_zero, count_eq_zero]
    exact hnone u tu hu

end WaitsInv

theorem waitCount_modify {a : TxnId} {g : TxnInfo → TxnInfo} (h : ∀ ti, (g ti).waitedBy = ti.waitedBy)
    (v : TxnId) : waitCount (AssocMap.modify info a g) v = waitCount info v :=
  total_modify_of_eq fun ti _ => by rw [h ti]

theorem waitCount_addWaits (bs : List TxnId) (v : TxnId) :
    waitCount (addWaits info x bs) v =
      waitCount info v + if v = x then ((liveBlockers info x bs).length : ℤ) else 0 := by
  induction bs generalizing info with
  | nil => simp [addWaits, liveBlockers]
  | cons b bs ih =>
    by_cases hb : b = x ∨ info.lookup b = none
    · rw [addWaits, if_pos hb, ih, liveBlockers_skip hb]
    · rw [addWaits, if_neg hb]
      rw [not_or] at hb
      obtain ⟨ti, hti⟩ := ne_none_iff_exists'.mp hb.2
      have hpush := total_modify
        (m := AssocMap.modify info x fun t => { t with numWaitingFor := t.numWaitingFor + 1 })
        (f := fun _ ti => (ti.waitedBy.count v : ℤ)) (a := b) (b := ti)
        (fun t => { t with waitedBy := t.waitedBy ++ [x] }) (by simp [hb.1, hti])
      rw [ih, @liveBlockers_congr info _ (by simp), liveBlockers_live hb.1 hti, waitCount,
        hpush, count_append]
      have hinc := @waitCount_modify info x
        (fun t => { t with numWaitingFor := t.numWaitingFor + 1 }) (fun _ => rfl) v
      rw [waitCount] at hinc
      rw [hinc]
      by_cases hv : v = x
      · simp [hv]
        ring
      · simp [hv, Ne.symm hv]

theorem waitCount_arrivedInfo (lm : DDRLockManager) (t : Transaction) {v : TxnId}
    (hv : v ≠ kSentinelTxnId) : waitCount (lm.arrivedInfo t) v = waitCount lm.txnInfo v := by
  rw [DDRLockManager.arrivedInfo, waitCount_modify]
  · split_ifs with hmem
    · rfl
    · rw [waitCount, total_insert_new (not_mem_iff_lookup.mp hmem)]
      simp [TxnInfo.new, waitCount, Ne.symm hv]
  · exact fun _ => rfl

/-- `AcquireLocks` keeps the waits-for graph well formed. -/
theorem WaitsInv.enterLocks {lm : DDRLockManager} (h : WaitsInv lm.txnInfo) {t : Transaction}
    (hid : t.id ≠ kSentinelTxnId) : WaitsInv (lm.enterLocks t).1.txnInfo := by
  have hbase : ∀ v ∈ (lm.baseInfo t).waitedBy, v = kSentinelTxnId ∨ v ∈ lm.txnInfo := by
    intro v hv
    rw [DDRLockManager.baseInfo] at hv
    cases hl : lm.txnInfo.lookup t.id with
    | none =>
      rw [hl] at hv
      exact .inl (mem_singleton.mp hv)
    | some ti =>
      rw [hl] at hv
      exact h.live t.id ti hl v hv
  refine ⟨?_, ?_, ?_⟩
  · intro hmem
    rcases DDRLockManager.mem_enterLocks.mp hmem with h0 | h0
    · exact hid h0.symm
    · exact h.sentinel h0
  · intro u tu hu v hv
    rw [DDRLockManager.mem_enterLocks]
    rcases DDRLockManager.enterLocks_cases hu with ⟨-, rfl⟩ | ⟨-, ti, hti, rfl⟩
    · exact (hbase v hv).imp id .inr
    · rcases mem_append.mp hv with hv | hv
      · exact (h.live u ti hti v hv).imp id .inr
      · split_ifs at hv
        · exact .inr (.inl (mem_singleton.mp hv))
        · cases hv
  · intro v tv hv
    have hcount : ∀ w, w ≠ kSentinelTxnId → waitCount (lm.enterLocks t).1.txnInfo w =
        waitCount lm.txnInfo w + if w = t.id then
          ((liveBlockers lm.txnInfo t.id (lm.blocking t)).length : ℤ) else 0 := by
      intro w hw
      rw [DDRLockManager.enterLocks_txnInfo, waitCount_addWaits, waitCount_arrivedInfo _ _ hw,
        DDRLockManager.liveBlockers_arrivedInfo]
    rcases DDRLockManager.enterLocks_cases hv with ⟨rfl, rfl⟩ | ⟨hvx, ti, hti, rfl⟩
    · rw [hcount _ hid, if_pos rfl, DDRLockManager.enteredInfo, DDRLockManager.baseInfo,
        add_left_inj]
      cases hl : lm.txnInfo.lookup t.id with
      | none => exact (h.waitCount_eq_zero (not_mem_iff_lookup.mpr hl) hid).symm
      | some ti => exact h.count t.id ti hl
    · rw [hcount _ (h.ne_sentinel hti), if_neg hvx, add_zero, ← h.count v ti hti]

theorem waitCount_unblock (info : TxnInfoMap) (l : List TxnId) (v : TxnId) :
    waitCount (unblock info l).1 v = waitCount info v := by
  induction l generalizing info with
  | nil => rfl
  | cons b bs ih =>
    by_cases hskip : b = kSentinelTxnId ∨ info.lookup b = none
    · rw [unblock_skip hskip, ih]
    · rw [not_or] at hskip
      obtain ⟨ti, hti⟩ := ne_none_iff_exists'.mp hskip.2
      rw [unblock_live hskip.1 hti]
      simp only
      rw [ih, ← modify_of_lookup hti TxnInfo.unblocked, waitCount_modify]
      exact fun _ => rfl

namespace DDRLockManager

/-- The map after the release of a transaction that is there. -/
def releasedInfo (lm : DDRLockManager) (x : TxnId) (ti : TxnInfo) : TxnInfoMap :=
  (unblock lm.txnInfo ti.waitedBy).1.erase x

/-- The two ways in which `ReleaseLocks` returns. -/
theorem releaseLocks_eq_some {lm lm' : DDRLockManager} {out : List (TxnId × Bool)} :
    lm.releaseLocks x = some (lm', out) ↔
      (lm.txnInfo.lookup x = none ∧ lm' = lm ∧ out = []) ∨
      ∃ ti, lm.txnInfo.lookup x = some ti ∧ ti.isReady ∧
        lm' = { lm with txnInfo := lm.releasedInfo x ti } ∧
        out = (unblock lm.txnInfo ti.waitedBy).2 := by
  rw [releaseLocks]
  cases hl : lm.txnInfo.lookup x with
  | none =>
    constructor
    · intro h
      cases h
      exact .inl ⟨rfl, rfl, rfl⟩
    · rintro (⟨-, rfl, rfl⟩ | ⟨ti, hti, -⟩)
      · rfl
      · cases hti
  | some ti =>
    constructor
    · intro h
      by_cases hr : ti.isReady
      · simp only [hr, if_true] at h
        cases h
        exact .inr ⟨ti, rfl, hr, rfl, rfl⟩
      · simp only [hr, Bool.false_eq_true, if_false] at h
        cases h
    · rintro (⟨hti, -⟩ | ⟨ti', hti', hr, rfl, rfl⟩)
      · cases hti
      · cases hti'
        simp only [hr, if_true]
        rfl

theorem lookup_releasedInfo (lm : DDRLockManager) (x : TxnId) (ti : TxnInfo) (v : TxnId) :
    (lm.releasedInfo x ti).lookup v =
      if v = x then none
      else (lm.txnInfo.lookup v).map fun tv =>
        { tv with numWaitingFor := tv.numWaitingFor
            - if v = kSentinelTxnId then 0 else ti.waitedBy.count v } := by
  rw [releasedInfo, lookup_erase', lookup_unblock]

end DDRLockManager

section Release

variable {lm : DDRLockManager} {x : TxnId} {ti : TxnInfo}

variable {v : TxnId} {tv : TxnInfo}

/-- The entries that stay, one by one. -/
theorem DDRLockManager.lookup_released (h0 : kSentinelTxnId ∉ lm.txnInfo) (hvx : v ≠ x)
    (hv : lm.txnInfo.lookup v = some tv) :
    (lm.releasedInfo x ti).lookup v =
      some { tv with numWaitingFor := tv.numWaitingFor - ti.waitedBy.count v } := by
  have hv0 : v ≠ kSentinelTxnId := by
    rintro rfl
    exact h0 (mem_iff_lookup.mpr ⟨tv, hv⟩)
  rw [lookup_releasedInfo, if_neg hvx, hv, if_neg hv0]
  rfl

theorem DDRLockManager.released_cases (h0 : kSentinelTxnId ∉ lm.txnInfo)
    (hv : (lm.releasedInfo x ti).lookup v = some tv) :
    v ≠ x ∧ ∃ tv₀, lm.txnInfo.lookup v = some tv₀ ∧
      tv = { tv₀ with numWaitingFor := tv₀.numWaitingFor - ti.waitedBy.count v } := by
  have hvx : v ≠ x := by
    rintro rfl
    rw [lookup_releasedInfo, if_pos rfl] at hv
    cases hv
  cases hl : lm.txnInfo.lookup v with
  | none =>
    rw [lookup_releasedInfo, if_neg hvx, hl] at hv
    cases hv
  | some tv₀ =>
    rw [lookup_released h0 hvx hl] at hv
    exact ⟨hvx, tv₀, rfl, (some_inj.mp hv).symm⟩

/-- A ready transaction is in no waited-by list. -/
theorem WaitsInv.notMem_of_ready (h : WaitsInv lm.txnInfo) (hx : lm.txnInfo.lookup x = some ti)
    (hr : ti.isReady) {u : TxnId} {tu : TxnInfo} (hu : lm.txnInfo.lookup u = some tu) :
    x ∉ tu.waitedBy :=
  (h.numWaitingFor_eq_zero_iff hx).mp (TxnInfo.isReady_iff.mp hr).1 u tu hu

/-- `ReleaseLocks` keeps the waits-for graph well formed. -/
theorem WaitsInv.releaseLocks (h : WaitsInv lm.txnInfo) (hx : lm.txnInfo.lookup x = some ti)
    (hr : ti.isReady) : WaitsInv (lm.releasedInfo x ti) := by
  have hmem : ∀ v, v ≠ x → v ∈ lm.txnInfo → v ∈ lm.releasedInfo x ti := by
    intro v hvx hv
    obtain ⟨tv, htv⟩ := mem_iff_lookup.mp hv
    exact mem_iff_lookup.mpr ⟨_, DDRLockManager.lookup_released h.sentinel hvx htv⟩
  refine ⟨?_, ?_, ?_⟩
  · intro h0
    obtain ⟨t0, ht0⟩ := mem_iff_lookup.mp h0
    obtain ⟨-, t, ht, -⟩ := DDRLockManager.released_cases h.sentinel ht0
    exact h.sentinel (mem_iff_lookup.mpr ⟨t, ht⟩)
  · intro u tu hu v hv
    obtain ⟨-, tu₀, htu₀, rfl⟩ := DDRLockManager.released_cases h.sentinel hu
    refine (h.live u tu₀ htu₀ v hv).imp id (hmem v ?_)
    rintro rfl
    exact h.notMem_of_ready hx hr htu₀ hv
  · intro v tv hv
    obtain ⟨-, tv₀, htv₀, rfl⟩ := DDRLockManager.released_cases h.sentinel hv
    have hlx : (unblock lm.txnInfo ti.waitedBy).1.lookup x = some
        { ti with numWaitingFor := ti.numWaitingFor -
            if x = kSentinelTxnId then 0 else ti.waitedBy.count x } := by
      rw [lookup_unblock, hx]
      rfl
    have htotal := waitCount_unblock lm.txnInfo ti.waitedBy v
    rw [waitCount, total_erase hlx, ← h.count v tv₀ htv₀] at htotal
    change tv₀.numWaitingFor - _ = AssocMap.total _ _
    rw [← htotal, DDRLockManager.releasedInfo]
    ring

/-- **The reports of `ReleaseLocks`** are the transactions that the release makes ready, each
once, with their flag. -/
theorem WaitsInv.mem_released (h : WaitsInv lm.txnInfo) (hx : lm.txnInfo.lookup x = some ti)
    (hr : ti.isReady) :
    ((unblock lm.txnInfo ti.waitedBy).2.map Prod.fst).Nodup ∧
      ∀ v d, (v, d) ∈ (unblock lm.txnInfo ti.waitedBy).2 ↔
        ∃ tv tv', lm.txnInfo.lookup v = some tv ∧ tv.isReady = false ∧
          (lm.releasedInfo x ti).lookup v = some tv' ∧ tv'.isReady ∧ d = tv'.deadlocked := by
  obtain ⟨hnd, hiff⟩ := unblock_spec lm.txnInfo ti.waitedBy fun v tv _ htv => h.count_le hx htv
  refine ⟨hnd, fun v d => (hiff v d).trans ?_⟩
  constructor
  · rintro ⟨hv0, hmem, tv, htv, hn, hu, rfl⟩
    have hvx : v ≠ x := by
      rintro rfl
      exact h.notMem_of_ready hx hr hx hmem
    have hpos := count_pos_iff.mpr hmem
    refine ⟨tv, _, htv, ?_, DDRLockManager.lookup_released h.sentinel hvx htv, ?_, rfl⟩
    · rw [← Bool.not_eq_true, TxnInfo.isReady_iff]
      omega
    · rw [TxnInfo.isReady_iff]
      exact ⟨by simp only; omega, hu⟩
  · rintro ⟨tv, tv', htv, hnr, htv', hr', rfl⟩
    obtain ⟨-, tv₀, htv₀, rfl⟩ := DDRLockManager.released_cases h.sentinel htv'
    obtain rfl : tv = tv₀ := some_inj.mp (htv.symm.trans htv₀)
    rw [← Bool.not_eq_true, TxnInfo.isReady_iff] at hnr
    rw [TxnInfo.isReady_iff] at hr'
    simp only at hr'
    have hpos : 0 < ti.waitedBy.count v := by
      by_contra h0
      exact hnr ⟨by omega, hr'.2⟩
    exact ⟨h.ne_sentinel htv, count_pos_iff.mp hpos, tv, htv, by omega, hr'.2, rfl⟩

end Release

end Slog
