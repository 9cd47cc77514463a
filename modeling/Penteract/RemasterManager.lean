/-
# Remaster managers

A transaction carries the master and the counter of every key, as they were when it was forwarded.
A counter that is behind the stored one makes the transaction abort, one that is ahead makes it wait
for a remaster.  The simple manager keeps one queue for every region and blocks a transaction
behind all earlier ones of its region.  A call may drain the queues of several regions, and the
parts of one transaction wait in different queues.
-/
import Penteract.Lib.Run
import Penteract.Transaction

namespace Slog

open List Option Function

structure Record where
  value : Value := ""
  metadata : MasterMetadata := { master := 0 }
  deriving DecidableEq, Repr

/-- The stored records of a partition. -/
abbrev Storage := Key → Option Record

/-- The counter recorded on the entry; an entry without metadata reads as `0`. -/
def KeyValueEntry.counter (kv : KeyValueEntry) : ℕ :=
  (kv.metadata.map MasterMetadata.counter).getD 0

inductive VerifyMasterResult where
  | valid
  | waiting
  | abort
  deriving DecidableEq, Repr

namespace Transaction

/-- The loop of `CheckCounters`.  `none` is the failure of the check that masters match if
counters do. -/
def checkKeys (storage : Storage) (skip : KeyValueEntry → Bool) :
    List KeyValueEntry → Bool → Option VerifyMasterResult
  | [], waiting => some (if waiting then .waiting else .valid)
  | kv :: rest, waiting =>
    if skip kv then checkKeys storage skip rest waiting
    else
      -- a key that is not stored reads as an empty record
      let record := (storage kv.key).getD {}
      if kv.counter < record.metadata.counter then some .abort
      else if record.metadata.counter < kv.counter then checkKeys storage skip rest true
      else if kv.master = record.metadata.master then checkKeys storage skip rest waiting
      else none

def checkCounters (t : Transaction) (filterByHome : Bool) (storage : Storage) :
    Option VerifyMasterResult :=
  checkKeys storage (fun kv => filterByHome && (kv.master : ℤ) ≠ t.home) t.keys false

/-- The entries of the keys that are mastered at the home of the transaction. -/
def homeEntries (t : Transaction) : List KeyValueEntry :=
  t.keys.filter fun kv => (kv.master : ℤ) = t.home

/-- The number of the queue of the home region.  The home is a signed number, the queues have unsigned
ones. -/
def homeQueue (t : Transaction) : RegionId := (t.home % 2 ^ 32).toNat

end Transaction

structure RemasterOccurredResult where
  unblocked : List Transaction := []
  shouldAbort : List Transaction := []
  deriving DecidableEq, Repr

/-! ## The simple manager -/

/-- One queue for every region.  A queue that does not exist is an empty one. -/
structure SimpleRemasterManager where
  blockedQueue : RegionId → List Transaction := fun _ => []

namespace SimpleRemasterManager

variable (storage : Storage)

def setQueue (rm : SimpleRemasterManager) (reg : RegionId) (queue : List Transaction) :
    SimpleRemasterManager :=
  { rm with blockedQueue := Function.update rm.blockedQueue reg queue }

def verifyMaster (rm : SimpleRemasterManager) (t : Transaction) :
    Option (VerifyMasterResult × SimpleRemasterManager) :=
  if t.keys = [] then some (.valid, rm)
  else
    let home := t.homeQueue
    let blocked := rm.setQueue home (rm.blockedQueue home ++ [t])
    if rm.blockedQueue home ≠ [] then some (.waiting, blocked)
    else (t.checkCounters true storage).map fun result =>
      (result, if result = .waiting then blocked else rm)

/-- `TryToUnblock` on the queue of a region. -/
def tryToUnblock : List Transaction → RemasterOccurredResult →
    Option (List Transaction × RemasterOccurredResult)
  | [], res => some ([], res)
  | t :: queue, res =>
    match t.checkCounters true storage with
    | none => none
    | some .waiting => some (t :: queue, res)
    | some .valid => tryToUnblock queue { res with unblocked := res.unblocked ++ [t] }
    | some .abort => tryToUnblock queue { res with shouldAbort := res.shouldAbort ++ [t] }

def tryRegion (s : SimpleRemasterManager × RemasterOccurredResult) (reg : RegionId) :
    Option (SimpleRemasterManager × RemasterOccurredResult) :=
  (tryToUnblock storage (s.1.blockedQueue reg) s.2).map fun r => (s.1.setQueue reg r.1, r.2)

/-- The head of the queue has the key as a key of its home. -/
def headHasKey (key : Key) : List Transaction → Bool
  | [] => false
  | t :: _ => t.keys.any fun kv => (kv.master : ℤ) = t.home && kv.key = key

/-- The order in which the queues are visited is that of a hash map. -/
def remasterOccured (rm : SimpleRemasterManager) (key : Key) (order : List RegionId) :
    Option (SimpleRemasterManager × RemasterOccurredResult) :=
  order.foldlM (fun s reg =>
    if headHasKey key (s.1.blockedQueue reg) then tryRegion storage s reg else some s) (rm, {})

/-- Take the transaction out of the queues of its regions. -/
def removeTxn (rm : SimpleRemasterManager) (t : Transaction) : SimpleRemasterManager :=
  t.internal.involvedRegions.foldl (fun rm reg =>
    rm.setQueue reg ((rm.blockedQueue reg).eraseP fun u => u.id = t.id)) rm

def releaseTransaction (rm : SimpleRemasterManager) (t : Transaction) :
    Option (SimpleRemasterManager × RemasterOccurredResult) :=
  t.internal.involvedRegions.foldlM (tryRegion storage) (rm.removeTxn t, {})

/-! ## What draining a queue returns -/

variable {storage}

/-- The transactions of a queue that are asked to abort when the queue is drained: those with an
outdated counter in front of the first one that has to wait. -/
def doomed (storage : Storage) (queue : List Transaction) : List Transaction :=
  (queue.takeWhile fun t => t.checkCounters true storage ≠ some .waiting).filter
    fun t => t.checkCounters true storage = some .abort

theorem tryToUnblock_spec {queue queue' : List Transaction} {res res' : RemasterOccurredResult}
    (h : tryToUnblock storage queue res = some (queue', res')) :
    res'.shouldAbort = res.shouldAbort ++ doomed storage queue ∧ doomed storage queue' = [] ∧
      queue' <:+ queue := by
  induction queue generalizing res with
  | nil =>
    cases h
    exact ⟨(append_nil _).symm, rfl, suffix_rfl⟩
  | cons t queue ih =>
    rw [tryToUnblock] at h
    cases hcheck : t.checkCounters true storage with
    | none =>
      rw [hcheck] at h
      cases h
    | some result =>
      rw [hcheck] at h
      cases result with
      | waiting =>
        cases h
        simp [doomed, hcheck]
      | valid =>
        obtain ⟨habort, hrest, hsuffix⟩ := ih h
        exact ⟨by rw [habort]; simp [doomed, hcheck], hrest,
          hsuffix.trans (suffix_cons t queue)⟩
      | abort =>
        obtain ⟨habort, hrest, hsuffix⟩ := ih h
        exact ⟨by rw [habort]; simp [doomed, hcheck], hrest,
          hsuffix.trans (suffix_cons t queue)⟩

variable {s s' : SimpleRemasterManager × RemasterOccurredResult}

theorem tryRegion_spec {reg : RegionId} (h : tryRegion storage s reg = some s') :
    s'.2.shouldAbort = s.2.shouldAbort ++ doomed storage (s.1.blockedQueue reg) ∧
      (∀ r, doomed storage (s'.1.blockedQueue r) =
        if r = reg then [] else doomed storage (s.1.blockedQueue r)) ∧
      ∀ r, s'.1.blockedQueue r <:+ s.1.blockedQueue r := by
  obtain ⟨⟨queue, res⟩, hqueue, rfl⟩ := map_eq_some_iff.mp h
  obtain ⟨habort, hrest, hsuffix⟩ := tryToUnblock_spec hqueue
  refine ⟨habort, fun r => ?_, fun r => ?_⟩
  · dsimp only [setQueue]
    rw [update_apply]
    split_ifs
    · exact hrest
    · rfl
  · dsimp only [setQueue]
    rw [update_apply]
    split_ifs with hr
    · rw [hr]
      exact hsuffix
    · exact suffix_rfl

/-- No transaction is doomed in two of the queues. -/
def Apart (storage : Storage) (rm : SimpleRemasterManager) (regs : List RegionId) : Prop :=
  ∀ r ∈ regs, ∀ r' ∈ regs, r ≠ r' → ∀ t ∈ doomed storage (rm.blockedQueue r),
    ∀ t' ∈ doomed storage (rm.blockedQueue r'), t.id ≠ t'.id

/-- Every queue has at most one part of a transaction. -/
def OnePart (rm : SimpleRemasterManager) : Prop :=
  ∀ reg, ((rm.blockedQueue reg).map Transaction.id).Nodup

theorem OnePart.of_sublist {rm rm' : SimpleRemasterManager} (h : rm.OnePart)
    (hsub : ∀ reg, (rm'.blockedQueue reg).Sublist (rm.blockedQueue reg)) : rm'.OnePart :=
  fun reg => (h reg).sublist ((hsub reg).map _)

/-- **Draining the queues of some regions**: which parts are aborted, and when no transaction is
aborted twice. -/
theorem drain_spec {regs : List RegionId} (hone : s.1.OnePart)
    (h : regs.foldlM (tryRegion storage) s = some s') :
    ∃ new, s'.2.shouldAbort = s.2.shouldAbort ++ new ∧
      (∀ t, t ∈ new ↔ ∃ reg ∈ regs, t ∈ doomed storage (s.1.blockedQueue reg)) ∧
      ((new.map Transaction.id).Nodup ↔ Apart storage s.1 regs) ∧
      ∀ reg, s'.1.blockedQueue reg <:+ s.1.blockedQueue reg := by
  induction regs generalizing s with
  | nil =>
    cases h
    exact ⟨[], by simp, by simp, by simp [Apart], fun _ => suffix_rfl⟩
  | cons reg regs ih =>
    rw [foldlM_cons, bind_eq_bind, bind_eq_some_iff] at h
    obtain ⟨s₁, hs₁, h⟩ := h
    obtain ⟨habort, hdoomed, hsuffix⟩ := tryRegion_spec hs₁
    obtain ⟨new, hnew, hmem, hnodup, hsuffix'⟩ :=
      ih (hone.of_sublist fun r => (hsuffix r).sublist) h
    have hrest : ∀ t, (∃ r ∈ regs, t ∈ doomed storage (s₁.1.blockedQueue r)) ↔
        ∃ r ∈ regs, r ≠ reg ∧ t ∈ doomed storage (s.1.blockedQueue r) := by
      intro t
      refine exists_congr fun r => and_congr_right fun _ => ?_
      rw [hdoomed]
      split_ifs with hr <;> simp [hr]
    have hhead : ((doomed storage (s.1.blockedQueue reg)).map Transaction.id).Nodup :=
      (hone reg).sublist ((filter_sublist.trans (takeWhile_sublist _)).map _)
    refine ⟨doomed storage (s.1.blockedQueue reg) ++ new, ?_, fun t => ?_, ?_,
      fun r => (hsuffix' r).trans (hsuffix r)⟩
    · rw [hnew, habort, append_assoc]
    · rw [mem_append, hmem, hrest]
      constructor
      · rintro (ht | ⟨r, hr, -, ht⟩)
        · exact ⟨reg, mem_cons_self, ht⟩
        · exact ⟨r, mem_cons_of_mem _ hr, ht⟩
      · rintro ⟨r, hr, ht⟩
        by_cases hreg : r = reg
        · exact .inl (hreg ▸ ht)
        · exact .inr ⟨r, (mem_cons.mp hr).resolve_left hreg, hreg, ht⟩
    · rw [map_append, nodup_append', hnodup]
      constructor
      · rintro ⟨-, hapart, hdisj⟩ r hr r' hr' hne t ht t' ht' heq
        -- a number in the first queue and one in a later queue
        have hcross : ∀ r ∈ regs, r ≠ reg → ∀ t ∈ doomed storage (s.1.blockedQueue reg),
            ∀ t' ∈ doomed storage (s.1.blockedQueue r), t.id ≠ t'.id := by
          intro r hr hne t ht t' ht' heq
          refine hdisj (mem_map_of_mem ht) (heq ▸ mem_map_of_mem ?_)
          exact (hmem t').mpr ((hrest t').mpr ⟨r, hr, hne, ht'⟩)
        by_cases hreg : r = reg
        · subst hreg
          exact hcross r' ((mem_cons.mp hr').resolve_left (Ne.symm hne)) (Ne.symm hne)
            t ht t' ht' heq
        · by_cases hreg' : r' = reg
          · subst hreg'
            exact hcross r ((mem_cons.mp hr).resolve_left hreg) hreg t' ht' t ht heq.symm
          · refine hapart r ((mem_cons.mp hr).resolve_left hreg) r'
              ((mem_cons.mp hr').resolve_left hreg') hne t ?_ t' ?_ heq
            · rw [hdoomed, if_neg hreg]
              exact ht
            · rw [hdoomed, if_neg hreg']
              exact ht'
      · intro hapart
        refine ⟨hhead, ?_, ?_⟩
        · intro r hr r' hr' hne t ht t' ht'
          rw [hdoomed] at ht ht'
          split_ifs at ht with hreg
          · cases ht
          · split_ifs at ht' with hreg'
            · cases ht'
            · exact hapart r (mem_cons_of_mem _ hr) r' (mem_cons_of_mem _ hr') hne
                t ht t' ht'
        · intro id hid hid'
          obtain ⟨t, ht, rfl⟩ := mem_map.mp hid
          obtain ⟨t', ht', heq⟩ := mem_map.mp hid'
          obtain ⟨r, hr, hne, ht'⟩ := (hrest t').mp ((hmem t').mp ht')
          exact hapart reg mem_cons_self r (mem_cons_of_mem _ hr) (Ne.symm hne)
            t ht t' ht' heq.symm

/-- The regions whose queues `RemasterOccured` drains. -/
theorem remasterOccured_eq (rm : SimpleRemasterManager) (key : Key) {order : List RegionId}
    (hnodup : order.Nodup) : rm.remasterOccured storage key order =
      (order.filter fun reg => headHasKey key (rm.blockedQueue reg)).foldlM (tryRegion storage)
        (rm, {}) := by
  -- a region is visited once, so its queue is the one before the call
  have hgen : ∀ s : SimpleRemasterManager × RemasterOccurredResult,
      (∀ reg ∈ order, s.1.blockedQueue reg = rm.blockedQueue reg) →
      order.foldlM (fun s reg =>
        if headHasKey key (s.1.blockedQueue reg) then tryRegion storage s reg else some s) s =
      (order.filter fun reg => headHasKey key (rm.blockedQueue reg)).foldlM
        (tryRegion storage) s := by
    induction order with
    | nil => exact fun _ _ => rfl
    | cons reg order ih =>
      obtain ⟨hnotin, hnodup⟩ := nodup_cons.mp hnodup
      intro s hs
      rw [foldlM_cons, hs reg mem_cons_self]
      by_cases hhead : headHasKey key (rm.blockedQueue reg)
      · rw [if_pos hhead, filter_cons, if_pos hhead, foldlM_cons]
        cases htry : tryRegion storage s reg with
        | none => rfl
        | some s₁ =>
          refine ih hnodup s₁ fun r hr => ?_
          have hne : r ≠ reg := fun heq => hnotin (heq ▸ hr)
          obtain ⟨r', -, rfl⟩ := map_eq_some_iff.mp htry
          exact (update_of_ne hne _ _).trans (hs r (mem_cons_of_mem _ hr))
      · rw [if_neg hhead, filter_cons, if_neg hhead]
        exact ih hnodup s fun r hr => hs r (mem_cons_of_mem _ hr)
  exact hgen (rm, {}) fun _ _ => rfl

theorem removeTxn_sublist (rm : SimpleRemasterManager) (t : Transaction) (reg : RegionId) :
    ((rm.removeTxn t).blockedQueue reg).Sublist (rm.blockedQueue reg) := by
  rw [removeTxn]
  induction t.internal.involvedRegions generalizing rm with
  | nil => exact Sublist.refl _
  | cons r regs ih =>
    rw [foldl_cons]
    refine (ih _).trans ?_
    dsimp only [setQueue]
    rw [update_apply]
    split_ifs with hr
    · rw [hr]
      exact eraseP_sublist
    · exact Sublist.refl _

end SimpleRemasterManager

/-! ## Runs of the simple manager -/

/-- A call that returns transactions. -/
inductive RemasterCall where
  | remasterOccured (key : Key) (order : List RegionId)
  | releaseTransaction (t : Transaction)
  deriving DecidableEq, Repr

inductive RemasterEvent where
  | store (key : Key) (record : Option Record)
  | verifyMaster (t : Transaction)
  | call (c : RemasterCall)
  deriving DecidableEq, Repr

/-- The manager with the storage.  `verified` notes the parts that were passed to `VerifyMaster`. -/
structure SimpleRemasterRun where
  manager : SimpleRemasterManager := {}
  storage : Storage := fun _ => none
  verified : List (TxnId × RegionId) := []

namespace SimpleRemasterRun

open SimpleRemasterManager

def call (s : SimpleRemasterRun) :
    RemasterCall → Option (SimpleRemasterManager × RemasterOccurredResult)
  | .remasterOccured key order => s.manager.remasterOccured s.storage key order
  | .releaseTransaction t => s.manager.releaseTransaction s.storage t

/-- A hash map visits an entry once. -/
def Allowed : RemasterCall → Prop
  | .remasterOccured _ order => order.Nodup
  | .releaseTransaction _ => True

instance : (c : RemasterCall) → Decidable (Allowed c)
  | .remasterOccured _ order => inferInstanceAs (Decidable order.Nodup)
  | .releaseTransaction _ => inferInstanceAs (Decidable True)

/-- Records change in any way, and a part is verified once. -/
def step (s : SimpleRemasterRun) : RemasterEvent → Option SimpleRemasterRun
  | .store key record => some { s with storage := Function.update s.storage key record }
  | .verifyMaster t =>
    if (t.id, t.homeQueue) ∈ s.verified then none
    else (s.manager.verifyMaster s.storage t).map fun r =>
      { s with manager := r.2, verified := s.verified ++ [(t.id, t.homeQueue)] }
  | .call c =>
    if Allowed c then (s.call c).map fun r => { s with manager := r.1 } else none

/-- **No transaction is asked to abort twice.** -/
def AbortsOnce (res : RemasterOccurredResult) : Prop :=
  (res.shouldAbort.map Transaction.id).Nodup

/-- The queues that a call drains hold no two doomed parts of one transaction. -/
def PartsApart (s : SimpleRemasterRun) : RemasterCall → Prop
  | .remasterOccured key order => Apart s.storage s.manager
      (order.filter fun reg => headHasKey key (s.manager.blockedQueue reg))
  | .releaseTransaction t => Apart s.storage (s.manager.removeTxn t) t.internal.involvedRegions

/-- A queue has the parts of its region that were verified, each once. -/
structure Inv (s : SimpleRemasterRun) : Prop where
  onePart : s.manager.OnePart
  verified : ∀ reg, ∀ t ∈ s.manager.blockedQueue reg, (t.id, reg) ∈ s.verified

variable {s : SimpleRemasterRun}

theorem Inv.of_sublist (h : s.Inv) {rm : SimpleRemasterManager}
    (hsub : ∀ reg, (rm.blockedQueue reg).Sublist (s.manager.blockedQueue reg)) :
    Inv { s with manager := rm } :=
  ⟨h.onePart.of_sublist hsub, fun reg t ht => h.verified reg t ((hsub reg).subset ht)⟩

/-- What a call returns and what it leaves in the queues. -/
theorem Inv.call (h : s.Inv) {c : RemasterCall} {r : SimpleRemasterManager × RemasterOccurredResult}
    (hc : Allowed c) (hr : s.call c = some r) : (AbortsOnce r.2 ↔ s.PartsApart c) ∧
      ∀ reg, (r.1.blockedQueue reg).Sublist (s.manager.blockedQueue reg) := by
  cases c with
  | remasterOccured key order =>
    have hr' := hr
    rw [SimpleRemasterRun.call, remasterOccured_eq _ _ hc] at hr'
    obtain ⟨new, hnew, -, hnodup, hsuffix⟩ := drain_spec h.onePart hr'
    refine ⟨?_, fun reg => (hsuffix reg).sublist⟩
    rw [AbortsOnce, hnew]
    exact hnodup
  | releaseTransaction t =>
    have hsub := s.manager.removeTxn_sublist t
    obtain ⟨new, hnew, -, hnodup, hsuffix⟩ := drain_spec (h.onePart.of_sublist hsub) hr
    refine ⟨?_, fun reg => (hsuffix reg).sublist.trans (hsub reg)⟩
    rw [AbortsOnce, hnew]
    exact hnodup

theorem Inv.verifyMaster {s' : SimpleRemasterRun} (h : s.Inv) {t : Transaction}
    (hs : s.step (.verifyMaster t) = some s') : s'.Inv := by
  rw [step] at hs
  split_ifs at hs with hnew
  obtain ⟨⟨result, rm⟩, hverify, rfl⟩ := map_eq_some_iff.mp hs
  have hkept : ∀ reg, ∀ u ∈ s.manager.blockedQueue reg,
      (u.id, reg) ∈ s.verified ++ [(t.id, t.homeQueue)] :=
    fun reg u hu => mem_append_left _ (h.verified reg u hu)
  -- the part is put at the end of the queue of its region
  have hblocked : Inv { s with
      manager := s.manager.setQueue t.homeQueue (s.manager.blockedQueue t.homeQueue ++ [t]),
      verified := s.verified ++ [(t.id, t.homeQueue)] } := by
    refine ⟨fun reg => ?_, fun reg u hu => ?_⟩
    · dsimp only [setQueue]
      rw [update_apply]
      split_ifs with hreg
      · rw [map_append, map_singleton, ← concat_eq_append, nodup_concat]
        refine ⟨fun hmem => hnew ?_, h.onePart _⟩
        obtain ⟨u, hu, heq⟩ := mem_map.mp hmem
        rw [← heq]
        exact h.verified _ u hu
      · exact h.onePart reg
    · dsimp only [setQueue] at hu ⊢
      rw [update_apply] at hu
      split_ifs at hu with hreg
      · rcases mem_append.mp hu with hu | hu
        · exact hkept reg u (hreg ▸ hu)
        · rw [mem_singleton.mp hu, hreg]
          exact mem_append_right _ mem_cons_self
      · exact hkept reg u hu
  rw [SimpleRemasterManager.verifyMaster] at hverify
  dsimp only at hverify
  split_ifs at hverify with hkeys hqueue
  · cases hverify
    exact ⟨h.onePart, hkept⟩
  · cases hverify
    exact hblocked
  · obtain ⟨result', -, ⟨⟩⟩ := map_eq_some_iff.mp hverify
    split_ifs
    · exact hblocked
    · exact ⟨h.onePart, hkept⟩

theorem Inv.init : Inv {} := ⟨fun _ => nodup_nil, fun _ _ hmem => by cases hmem⟩

theorem Inv.of_run {events : List RemasterEvent} (h : Lts.run step {} events = some s) : s.Inv := by
  refine Lts.invariant step Inv.init ?_ ⟨events, h⟩
  intro t e t' hI hs
  cases e with
  | store key record =>
    cases hs
    exact ⟨hI.onePart, hI.verified⟩
  | verifyMaster u => exact hI.verifyMaster hs
  | call c =>
    rw [step] at hs
    split_ifs at hs with hc
    obtain ⟨r, hr, rfl⟩ := map_eq_some_iff.mp hs
    exact hI.of_sublist (hI.call hc hr).2

/-- **When a call asks no transaction to abort twice**: in every reachable state, exactly if the
queues that it drains hold no two doomed parts of one transaction. -/
theorem abortsOnce_iff_partsApart {events : List RemasterEvent} {s : SimpleRemasterRun}
    (h : Lts.run step {} events = some s) {c : RemasterCall} (hc : Allowed c)
    {r : SimpleRemasterManager × RemasterOccurredResult} (hr : s.call c = some r) :
    AbortsOnce r.2 ↔ s.PartsApart c :=
  ((Inv.of_run h).call hc hr).1

/-- A part of a transaction with a key of region `1` and a key of region `2`. -/
def twoHomes (id : TxnId) (home : RegionId) (a b : Key) (counter : ℕ) : Transaction :=
  { internal := { id, type := .multiHomeOrLockOnly, home, involvedRegions := [1, 2] },
    keys := [{ key := a, type := .write, metadata := some { master := 1, counter } },
      { key := b, type := .write, metadata := some { master := 2, counter } }] }

/-- Transaction `1` waits for remasters of its keys.  Transaction `2` is behind it in both queues
and has old counters. -/
def staleBehindWaiting : List RemasterEvent :=
  [.store "C" (some { metadata := { master := 3, counter := 1 } }),
    .store "D" (some { metadata := { master := 3, counter := 1 } }),
    .verifyMaster (twoHomes 1 1 "A" "B" 1), .verifyMaster (twoHomes 1 2 "A" "B" 1),
    .verifyMaster (twoHomes 2 1 "C" "D" 0), .verifyMaster (twoHomes 2 2 "C" "D" 0)]

/-- Transaction `1` waits in one queue only, and a remaster of its key drains this queue. -/
theorem abortsOnce_oneQueue : ∃ s r, Lts.run step {} (staleBehindWaiting.eraseIdx 3 ++
      [.store "A" (some { metadata := { master := 1, counter := 1 } })]) = some s ∧
    s.call (.remasterOccured "A" [1, 2]) = some r ∧ r.2.shouldAbort.map Transaction.id = [2] ∧
    (AbortsOnce r.2 ↔ s.PartsApart (.remasterOccured "A" [1, 2])) := by
  obtain ⟨s, hs, r, hr, hids⟩ : ∃ s ∈ Lts.run step {} (staleBehindWaiting.eraseIdx 3 ++
      [.store "A" (some { metadata := { master := 1, counter := 1 } })]),
      ∃ r ∈ s.call (.remasterOccured "A" [1, 2]), r.2.shouldAbort.map Transaction.id = [2] := by
    decide +kernel
  exact ⟨s, r, hs, hr, hids, abortsOnce_iff_partsApart hs (by decide) hr⟩

/-- **A transaction is asked to abort twice** when a transaction before it is released from two
queues. -/
theorem not_abortsOnce_twoQueues : ∃ s r, Lts.run step {} staleBehindWaiting = some s ∧
    s.call (.releaseTransaction (twoHomes 1 1 "A" "B" 1)) = some r ∧
    r.2.shouldAbort.map Transaction.id = [2, 2] ∧ ¬ AbortsOnce r.2 := by
  obtain ⟨s, hs, r, hr, hids⟩ : ∃ s ∈ Lts.run step {} staleBehindWaiting,
      ∃ r ∈ s.call (.releaseTransaction (twoHomes 1 1 "A" "B" 1)),
        r.2.shouldAbort.map Transaction.id = [2, 2] := by
    decide +kernel
  refine ⟨s, r, hs, hr, hids, fun hnodup => ?_⟩
  rw [AbortsOnce, hids] at hnodup
  exact absurd hnodup (by decide)

end SimpleRemasterRun

end Slog
