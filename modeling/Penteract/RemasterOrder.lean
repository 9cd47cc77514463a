/-
# The order in which the simple remaster manager lets transactions through

A queue is looked at again when the counter of a key of its first transaction has changed, and when
a transaction of its region is released.  So the first transaction of every queue has to wait, once
the manager was told of all changes, and the transactions of a region pass in the order in which
they came.  A transaction without keys is not queued and may pass before earlier ones.
-/
import Penteract.RemasterManager

namespace Slog

open List Option Function

/-- The counter that `CheckCounters` reads for a key. -/
def storedCounter (storage : Storage) (key : Key) : ℕ := ((storage key).getD {}).metadata.counter

namespace Transaction

variable {storage : Storage}

/-- No counter of a key of the home region is behind the stored one and one is ahead of it. -/
def Waits (storage : Storage) (t : Transaction) : Prop :=
  (∀ kv ∈ t.homeEntries, storedCounter storage kv.key ≤ kv.counter) ∧
    ∃ kv ∈ t.homeEntries, storedCounter storage kv.key < kv.counter

theorem checkKeys_filter (skip : KeyValueEntry → Bool) (keys : List KeyValueEntry) (waiting : Bool) :
    checkKeys storage skip keys waiting =
      checkKeys storage (fun _ => false) (keys.filter fun kv => !skip kv) waiting := by
  induction keys generalizing waiting with
  | nil => rfl
  | cons kv keys ih =>
    rw [checkKeys, filter_cons]
    cases hskip : skip kv with
    | true => simpa using ih waiting
    | false => simp [checkKeys, ih]

theorem checkCounters_eq (t : Transaction) :
    t.checkCounters true storage = checkKeys storage (fun _ => false) t.homeEntries false := by
  rw [checkCounters, checkKeys_filter, homeEntries]
  congr 1
  exact filter_congr fun kv _ => by simp

theorem checkKeys_cons (kv : KeyValueEntry) (keys : List KeyValueEntry) (waiting : Bool) :
    checkKeys storage (fun _ => false) (kv :: keys) waiting =
      if kv.counter < storedCounter storage kv.key then some .abort
      else if storedCounter storage kv.key < kv.counter then
        checkKeys storage (fun _ => false) keys true
      else if kv.master = ((storage kv.key).getD {}).metadata.master then
        checkKeys storage (fun _ => false) keys waiting
      else none := rfl

variable {keys : List KeyValueEntry} {waiting : Bool} {t : Transaction}

theorem waits_of_checkKeys (h : checkKeys storage (fun _ => false) keys waiting = some .waiting) :
    (∀ kv ∈ keys, storedCounter storage kv.key ≤ kv.counter) ∧
      (waiting = true ∨ ∃ kv ∈ keys, storedCounter storage kv.key < kv.counter) := by
  induction keys generalizing waiting with
  | nil =>
    cases waiting
    · cases h
    · exact ⟨by simp, .inl rfl⟩
  | cons kv keys ih =>
    rw [checkKeys_cons] at h
    split_ifs at h with hlt hgt
    · cases h
    · obtain ⟨hle, -⟩ := ih h
      exact ⟨forall_mem_cons.mpr ⟨le_of_lt hgt, hle⟩, .inr ⟨kv, mem_cons_self, hgt⟩⟩
    · obtain ⟨hle, hex⟩ := ih h
      refine ⟨forall_mem_cons.mpr ⟨not_lt.mp hlt, hle⟩, hex.imp_right ?_⟩
      rintro ⟨kv', hkv', hlt'⟩
      exact ⟨kv', mem_cons_of_mem _ hkv', hlt'⟩

theorem waits_of_checkCounters (h : t.checkCounters true storage = some .waiting) :
    t.Waits storage := by
  rw [checkCounters_eq] at h
  obtain ⟨hle, hex⟩ := waits_of_checkKeys h
  exact ⟨hle, hex.resolve_left Bool.false_ne_true⟩

theorem checkKeys_of_waits (hle : ∀ kv ∈ keys, storedCounter storage kv.key ≤ kv.counter)
    (hex : waiting = true ∨ ∃ kv ∈ keys, storedCounter storage kv.key < kv.counter) :
    ∀ result ∈ checkKeys storage (fun _ => false) keys waiting, result = .waiting := by
  induction keys generalizing waiting with
  | nil =>
    obtain rfl := hex.resolve_right (by simp)
    rintro _ ⟨⟩
    rfl
  | cons kv keys ih =>
    obtain ⟨hkv, hle⟩ := forall_mem_cons.mp hle
    rw [checkKeys_cons, if_neg (not_lt.mpr hkv)]
    split_ifs with hgt
    · exact ih hle (.inl rfl)
    · refine ih hle (hex.imp_right ?_)
      rintro ⟨kv', hkv', hlt'⟩
      rcases mem_cons.mp hkv' with rfl | hkv'
      · exact absurd hlt' hgt
      · exact ⟨kv', hkv', hlt'⟩
    · rintro _ ⟨⟩

/-- `CheckCounters` does not return anything else for a transaction that waits.  It may fail on a
master that differs. -/
theorem Waits.checkCounters (h : t.Waits storage) :
    ∀ result ∈ t.checkCounters true storage, result = .waiting := by
  rw [checkCounters_eq]
  exact checkKeys_of_waits h.1 (.inr h.2)

/-- Only the counters of its home keys decide whether a transaction waits. -/
theorem Waits.congr {storage' : Storage} (h : t.Waits storage)
    (hsame : ∀ kv ∈ t.homeEntries, storedCounter storage' kv.key = storedCounter storage kv.key) :
    t.Waits storage' := by
  obtain ⟨hle, kv, hkv, hlt⟩ := h
  refine ⟨fun kv hkv => ?_, kv, hkv, ?_⟩
  · rw [hsame kv hkv]
    exact hle kv hkv
  · rw [hsame kv hkv]
    exact hlt

end Transaction

namespace SimpleRemasterManager

variable {storage : Storage}

variable {queue ts : List Transaction} {reg : RegionId}

theorem headHasKey_cons {key : Key} {t : Transaction} :
    headHasKey key (t :: queue) ↔ ∃ kv ∈ t.homeEntries, kv.key = key := by
  simp [headHasKey, Transaction.homeEntries, and_assoc]

/-! ## Draining -/

/-- The first transaction of a queue that was drained waits, and the transactions that passed stood
in this order before the rest. -/
theorem tryToUnblock_order {queue' : List Transaction} {res res' : RemasterOccurredResult}
    (h : tryToUnblock storage queue res = some (queue', res')) :
    (∀ t ∈ queue'.head?, t.Waits storage) ∧
      ∃ passed, res'.unblocked = res.unblocked ++ passed ∧ (passed ++ queue').Sublist queue := by
  induction queue generalizing res with
  | nil =>
    cases h
    exact ⟨by simp, [], (append_nil _).symm, Sublist.refl _⟩
  | cons t queue ih =>
    rw [tryToUnblock] at h
    cases hcheck : t.checkCounters true storage with
    | none =>
      rw [hcheck] at h
      cases h
    | some result =>
      rw [hcheck] at h
      cases result with
      | waiting =>
        cases h
        refine ⟨?_, [], (append_nil _).symm, Sublist.refl _⟩
        rintro _ ⟨⟩
        exact Transaction.waits_of_checkCounters hcheck
      | valid =>
        obtain ⟨hhead, passed, hres, hsub⟩ := ih h
        refine ⟨hhead, t :: passed, ?_, hsub.cons_cons t⟩
        rw [hres, append_assoc]
        rfl
      | abort =>
        obtain ⟨hhead, passed, hres, hsub⟩ := ih h
        exact ⟨hhead, passed, hres, hsub.cons t⟩

/-- After the queues of some regions were drained, their first transactions wait, and the other
queues are as they were. -/
theorem drain_head {regs : List RegionId} {s s' : SimpleRemasterManager × RemasterOccurredResult}
    (h : regs.foldlM (tryRegion storage) s = some s') (reg : RegionId) :
    (∀ t ∈ (s'.1.blockedQueue reg).head?, t.Waits storage) ∨
      reg ∉ regs ∧ s'.1.blockedQueue reg = s.1.blockedQueue reg := by
  induction regs using List.reverseRecOn generalizing s' with
  | nil =>
    cases h
    exact .inr ⟨not_mem_nil, rfl⟩
  | append_singleton regs r ih =>
    rw [foldlM_append, bind_eq_bind, bind_eq_some_iff] at h
    obtain ⟨s₁, hs₁, h⟩ := h
    rw [foldlM_cons, bind_eq_bind, bind_eq_some_iff] at h
    obtain ⟨s₂, hs₂, ⟨⟩⟩ := h
    obtain ⟨⟨queue, res⟩, hqueue, rfl⟩ := map_eq_some_iff.mp hs₂
    by_cases hreg : reg = r
    · subst hreg
      have hself : (s₁.1.setQueue reg queue).blockedQueue reg = queue := update_self _ _ _
      rw [hself]
      exact .inl (tryToUnblock_order hqueue).1
    · have hother : (s₁.1.setQueue r queue).blockedQueue reg = s₁.1.blockedQueue reg :=
        update_of_ne hreg _ _
      rw [hother]
      refine (ih hs₁).imp_right ?_
      rintro ⟨hnotin, heq⟩
      exact ⟨by simp [hnotin, hreg], heq⟩

/-! ## Order -/

/-- The transactions of a region that have keys. -/
def ofRegion (reg : RegionId) (ts : List Transaction) : List Transaction :=
  ts.filter fun t => t.homeQueue = reg ∧ t.keys ≠ []

/-- The transactions of a region that passed came before those in its queue, all in the order in which
they were received. -/
structure InOrder (received : List Transaction) (rm : SimpleRemasterManager)
    (passed : List Transaction) : Prop where
  home : ∀ reg, ∀ t ∈ rm.blockedQueue reg, t.homeQueue = reg ∧ t.keys ≠ []
  sublist : ∀ reg, (ofRegion reg passed ++ rm.blockedQueue reg).Sublist (ofRegion reg received)

theorem ofRegion_append (reg : RegionId) (ts us : List Transaction) :
    ofRegion reg (ts ++ us) = ofRegion reg ts ++ ofRegion reg us := filter_append _ _

theorem ofRegion_eq_self (h : ∀ t ∈ ts, t.homeQueue = reg ∧ t.keys ≠ []) : ofRegion reg ts = ts :=
  filter_eq_self.mpr fun t ht => decide_eq_true (h t ht)

theorem ofRegion_eq_nil (h : ∀ t ∈ ts, ¬ (t.homeQueue = reg ∧ t.keys ≠ [])) : ofRegion reg ts = [] :=
  filter_eq_nil_iff.mpr fun t ht => by rw [decide_eq_true_eq]; exact h t ht

namespace InOrder

variable {received passed : List Transaction} {rm rm' : SimpleRemasterManager}

theorem init : InOrder [] {} [] := ⟨fun _ _ h => (not_mem_nil h).elim, fun _ => Sublist.refl _⟩

theorem of_sublist (h : InOrder received rm passed)
    (hsub : ∀ reg, (rm'.blockedQueue reg).Sublist (rm.blockedQueue reg)) :
    InOrder received rm' passed where
  home reg t ht := h.home reg t ((hsub reg).subset ht)
  sublist reg := ((Sublist.refl _).append (hsub reg)).trans (h.sublist reg)

variable {s s' : SimpleRemasterManager × RemasterOccurredResult} {t : Transaction}

theorem tryRegion {reg : RegionId} (h : InOrder received s.1 (passed ++ s.2.unblocked))
    (hs : SimpleRemasterManager.tryRegion storage s reg = some s') :
    InOrder received s'.1 (passed ++ s'.2.unblocked) := by
  obtain ⟨⟨queue, res⟩, hqueue, rfl⟩ := map_eq_some_iff.mp hs
  obtain ⟨-, new, hres, hsub⟩ := tryToUnblock_order hqueue
  have hnew : ∀ t ∈ new, t.homeQueue = reg ∧ t.keys ≠ [] := fun t ht =>
    h.home reg t (hsub.subset (mem_append_left _ ht))
  dsimp only at hres ⊢
  rw [hres, ← append_assoc]
  constructor
  · intro r t ht
    dsimp only [setQueue] at ht
    rw [update_apply] at ht
    split_ifs at ht with hr
    · exact hr ▸ h.home reg t (hsub.subset (mem_append_right _ ht))
    · exact h.home r t ht
  · intro r
    dsimp only [setQueue]
    rw [update_apply, ofRegion_append]
    split_ifs with hr
    · subst hr
      rw [ofRegion_eq_self hnew, append_assoc]
      exact ((Sublist.refl _).append hsub).trans (h.sublist r)
    · rw [ofRegion_eq_nil fun t ht hand => hr (hand.1.symm.trans (hnew t ht).1), append_nil]
      exact h.sublist r

theorem drain {regs : List RegionId} (h : InOrder received s.1 (passed ++ s.2.unblocked))
    (hs : regs.foldlM (SimpleRemasterManager.tryRegion storage) s = some s') :
    InOrder received s'.1 (passed ++ s'.2.unblocked) := by
  induction regs generalizing s with
  | nil =>
    cases hs
    exact h
  | cons reg regs ih =>
    rw [foldlM_cons, bind_eq_bind, bind_eq_some_iff] at hs
    obtain ⟨s₁, hs₁, hs⟩ := hs
    exact ih (h.tryRegion hs₁) hs

/-- A transaction is received and does not pass. -/
theorem receive (h : InOrder received rm passed) (t : Transaction) :
    InOrder (received ++ [t]) rm passed where
  home := h.home
  sublist reg := (h.sublist reg).trans (by rw [ofRegion_append]; exact sublist_append_left _ _)

/-- A transaction goes to the end of the queue of its region. -/
theorem block (h : InOrder received rm passed) (ht : t.keys ≠ []) :
    InOrder (received ++ [t]) (rm.setQueue t.homeQueue (rm.blockedQueue t.homeQueue ++ [t]))
      passed := by
  constructor
  · intro reg u hu
    dsimp only [setQueue] at hu
    rw [update_apply] at hu
    split_ifs at hu with hreg
    · rcases mem_append.mp hu with hu | hu
      · exact hreg ▸ h.home _ u hu
      · exact mem_singleton.mp hu ▸ ⟨hreg.symm, ht⟩
    · exact h.home reg u hu
  · intro reg
    dsimp only [setQueue]
    rw [update_apply, ofRegion_append]
    split_ifs with hreg
    · subst hreg
      rw [ofRegion_eq_self (forall_mem_singleton.mpr ⟨rfl, ht⟩), ← append_assoc]
      exact (h.sublist _).append (Sublist.refl _)
    · exact (h.sublist reg).trans (sublist_append_left _ _)

/-- A transaction passes at once: it has no keys, or no other one of its region is in the queue. -/
theorem pass (h : InOrder received rm passed) (ht : t.keys = [] ∨ rm.blockedQueue t.homeQueue = []) :
    InOrder (received ++ [t]) rm (passed ++ [t]) := by
  refine ⟨h.home, fun reg => ?_⟩
  rw [ofRegion_append, ofRegion_append]
  by_cases hreg : t.homeQueue = reg ∧ t.keys ≠ []
  · have hnil : rm.blockedQueue reg = [] := hreg.1 ▸ ht.resolve_left hreg.2
    have hsub := h.sublist reg
    rw [hnil, append_nil] at hsub ⊢
    exact hsub.append (Sublist.refl _)
  · rw [ofRegion_eq_nil (forall_mem_singleton.mpr hreg), append_nil, append_nil]
    exact h.sublist reg

theorem verifyMaster {r : VerifyMasterResult × SimpleRemasterManager} (h : InOrder received rm passed)
    (hr : rm.verifyMaster storage t = some r) :
    InOrder (received ++ [t]) r.2 (passed ++ if r.1 = .valid then [t] else []) := by
  rw [SimpleRemasterManager.verifyMaster] at hr
  dsimp only at hr
  split_ifs at hr with hkeys hqueue
  · cases hr
    exact h.pass (.inl hkeys)
  · cases hr
    simpa using h.block hkeys
  · obtain ⟨result, -, rfl⟩ := map_eq_some_iff.mp hr
    cases result with
    | valid => exact h.pass (.inr (not_not.mp hqueue))
    | waiting => simpa using h.block hkeys
    | abort => simpa using h.receive t

end InOrder

end SimpleRemasterManager

/-! ## Runs -/

/-- The manager with the storage.  `changed` has the keys whose stored counter has changed since the
manager was last told, `received` the transactions passed to `VerifyMaster` and `letThrough` those
that were answered valid or returned as unblocked. -/
structure RemasterHistory where
  manager : SimpleRemasterManager := {}
  storage : Storage := fun _ => none
  changed : List Key := []
  received : List Transaction := []
  letThrough : List Transaction := []

namespace RemasterHistory

open SimpleRemasterManager

/-- The hash map of queues visits an entry once, and it has all queues that are not empty. -/
def Visits (s : RemasterHistory) (order : List RegionId) : Prop :=
  order.Nodup ∧ ∀ t ∈ s.received, s.manager.blockedQueue t.homeQueue ≠ [] → t.homeQueue ∈ order

instance (s : RemasterHistory) (order : List RegionId) : Decidable (s.Visits order) :=
  inferInstanceAs (Decidable (_ ∧ _))

/-- The state after a call. -/
def returned (s : RemasterHistory) (changed : List Key)
    (r : SimpleRemasterManager × RemasterOccurredResult) : RemasterHistory :=
  { s with manager := r.1, changed, letThrough := s.letThrough ++ r.2.unblocked }

def step (s : RemasterHistory) : RemasterEvent → Option RemasterHistory
  | .store key record =>
    let storage := Function.update s.storage key record
    some { s with
      storage,
      changed := if storedCounter storage key = storedCounter s.storage key then s.changed
        else key :: s.changed }
  | .verifyMaster t => (s.manager.verifyMaster s.storage t).map fun r =>
    { s with
      manager := r.2,
      received := s.received ++ [t],
      letThrough := s.letThrough ++ if r.1 = .valid then [t] else [] }
  | .call (.remasterOccured key order) =>
    if s.Visits order then
      (s.manager.remasterOccured s.storage key order).map
        (s.returned (s.changed.filter fun k => k ≠ key))
    else none
  | .call (.releaseTransaction t) =>
    (s.manager.releaseTransaction s.storage t).map (s.returned s.changed)

/-- The first transaction of every queue waits: `CheckCounters` answers so, if it does not fail. -/
def FrontsWait (s : RemasterHistory) : Prop :=
  ∀ reg, ∀ t ∈ (s.manager.blockedQueue reg).head?, t.Waits s.storage ∧
    ∀ result ∈ t.checkCounters true s.storage, result = .waiting

/-- The first transaction of every queue waits or has a key of which the manager was not told. -/
def FrontsKnown (s : RemasterHistory) : Prop :=
  ∀ reg, ∀ t ∈ (s.manager.blockedQueue reg).head?,
    t.Waits s.storage ∨ ∃ kv ∈ t.homeEntries, kv.key ∈ s.changed

structure Inv (s : RemasterHistory) : Prop where
  inOrder : InOrder s.received s.manager s.letThrough
  fronts : s.FrontsKnown

variable {s s' : RemasterHistory} {key : Key} {t : Transaction}

theorem FrontsKnown.store (h : s.FrontsKnown) {record : Option Record}
    (hs : s.step (.store key record) = some s') : s'.FrontsKnown := by
  cases hs
  intro reg t ht
  dsimp only at ht ⊢
  rcases h reg t ht with hwaits | ⟨kv, hkv, hchanged⟩
  · by_cases hkey : ∃ kv ∈ t.homeEntries, kv.key = key ∧
        storedCounter (Function.update s.storage key record) key ≠ storedCounter s.storage key
    · obtain ⟨kv, hkv, heq, hne⟩ := hkey
      rw [if_neg hne]
      exact .inr ⟨kv, hkv, heq ▸ mem_cons_self⟩
    · refine .inl (hwaits.congr fun kv hkv => ?_)
      by_cases heq : kv.key = key
      · by_contra hne
        exact hkey ⟨kv, hkv, heq, heq ▸ hne⟩
      · rw [storedCounter, storedCounter, update_of_ne heq]
  · refine .inr ⟨kv, hkv, ?_⟩
    split_ifs
    · exact hchanged
    · exact mem_cons_of_mem _ hchanged

theorem FrontsKnown.verifyMaster (h : s.FrontsKnown) (hs : s.step (.verifyMaster t) = some s') :
    s'.FrontsKnown := by
  obtain ⟨r, hr, rfl⟩ := map_eq_some_iff.mp hs
  -- the end of a queue is its front only if the queue was empty
  have hblock : (s.manager.blockedQueue t.homeQueue = [] → t.Waits s.storage) →
      FrontsKnown { s with
        manager := s.manager.setQueue t.homeQueue
          (s.manager.blockedQueue t.homeQueue ++ [t]) } := by
    intro hempty reg u hu
    dsimp only [setQueue] at hu ⊢
    rw [update_apply] at hu
    split_ifs at hu with hreg
    · cases hqueue : s.manager.blockedQueue t.homeQueue with
      | nil =>
        rw [hqueue] at hu
        cases hu
        exact .inl (hempty hqueue)
      | cons v queue =>
        rw [hqueue] at hu
        exact h t.homeQueue u (hqueue ▸ hu)
    · exact h reg u hu
  rw [SimpleRemasterManager.verifyMaster] at hr
  dsimp only at hr
  split_ifs at hr with hkeys hqueue
  · cases hr
    exact h
  · cases hr
    exact hblock fun hnil => absurd hnil hqueue
  · obtain ⟨result, hresult, rfl⟩ := map_eq_some_iff.mp hr
    cases result with
    | valid => exact h
    | waiting => exact hblock fun _ => Transaction.waits_of_checkCounters hresult
    | abort => exact h

theorem Inv.remasterOccured (h : s.Inv) {order : List RegionId}
    (hs : s.step (.call (.remasterOccured key order)) = some s') : s'.Inv := by
  rw [step] at hs
  split_ifs at hs with hvisits
  obtain ⟨r, hr, rfl⟩ := map_eq_some_iff.mp hs
  rw [remasterOccured_eq _ _ hvisits.1] at hr
  have hstart : InOrder s.received s.manager (s.letThrough ++ []) := by
    rw [append_nil]
    exact h.inOrder
  refine ⟨hstart.drain hr, fun reg t ht => ?_⟩
  rcases drain_head hr reg with hwaits | ⟨hnotin, heq⟩
  · exact .inl (hwaits t ht)
  · -- the queue was not visited, so its front does not have the key
    dsimp only [returned] at ht ⊢
    rw [heq] at ht
    refine (h.fronts reg t ht).imp_right ?_
    rintro ⟨kv, hkv, hchanged⟩
    refine ⟨kv, hkv, mem_filter.mpr ⟨hchanged, decide_eq_true fun hkey => hnotin ?_⟩⟩
    obtain ⟨queue, hqueue⟩ : ∃ queue, s.manager.blockedQueue reg = t :: queue :=
      List.head?_eq_some_iff.mp ht
    have hmem : t ∈ s.manager.blockedQueue reg := hqueue ▸ mem_cons_self
    have hreg := (h.inOrder.home reg t hmem).1
    have hreceived : t ∈ s.received := (mem_filter.mp
      ((h.inOrder.sublist reg).subset (mem_append_right _ hmem))).1
    refine mem_filter.mpr ⟨hreg ▸ hvisits.2 t hreceived ?_, ?_⟩
    · rw [hreg, hqueue]
      exact cons_ne_nil _ _
    · rw [hqueue]
      exact headHasKey_cons.mpr ⟨kv, hkv, hkey⟩

theorem removeTxn_of_notMem (rm : SimpleRemasterManager) (t : Transaction) {reg : RegionId}
    (h : reg ∉ t.internal.involvedRegions) :
    (rm.removeTxn t).blockedQueue reg = rm.blockedQueue reg := by
  rw [removeTxn]
  revert h
  induction t.internal.involvedRegions generalizing rm with
  | nil => exact fun _ => rfl
  | cons r regs ih =>
    intro h
    rw [foldl_cons, ih _ fun hmem => h (mem_cons_of_mem _ hmem)]
    exact update_of_ne (ne_of_not_mem_cons h) _ _

theorem Inv.releaseTransaction (h : s.Inv) (hs : s.step (.call (.releaseTransaction t)) = some s') :
    s'.Inv := by
  obtain ⟨r, hr, rfl⟩ := map_eq_some_iff.mp hs
  have hstart : InOrder s.received (s.manager.removeTxn t) (s.letThrough ++ []) := by
    rw [append_nil]
    exact h.inOrder.of_sublist (s.manager.removeTxn_sublist t)
  refine ⟨hstart.drain hr, fun reg u hu => ?_⟩
  rcases drain_head hr reg with hwaits | ⟨hnotin, heq⟩
  · exact .inl (hwaits u hu)
  · dsimp only [returned] at hu ⊢
    rw [heq, removeTxn_of_notMem _ _ hnotin] at hu
    exact h.fronts reg u hu

theorem Inv.step (h : s.Inv) {e : RemasterEvent} (hs : s.step e = some s') : s'.Inv := by
  cases e with
  | store key record =>
    refine ⟨?_, h.fronts.store hs⟩
    cases hs
    exact h.inOrder
  | verifyMaster t =>
    refine ⟨?_, h.fronts.verifyMaster hs⟩
    obtain ⟨r, hr, rfl⟩ := map_eq_some_iff.mp hs
    exact h.inOrder.verifyMaster hr
  | call c =>
    cases c with
    | remasterOccured key order => exact h.remasterOccured hs
    | releaseTransaction t => exact h.releaseTransaction hs

theorem Inv.init : Inv {} := ⟨InOrder.init, fun _ _ h => by cases h⟩

/-- **The order of the logs is kept and no queue is stranded**: in every run, when the manager was told
of all changes, the first transaction of every queue waits, and the transactions of a region that have
keys are let through in the order in which they were received. -/
theorem frontsWait_and_inOrder {events : List RemasterEvent} {s : RemasterHistory}
    (h : Lts.run RemasterHistory.step {} events = some s) :
    (s.changed = [] → s.FrontsWait) ∧
      ∀ reg, (ofRegion reg s.letThrough).Sublist (ofRegion reg s.received) := by
  have hinv : s.Inv :=
    Lts.invariant RemasterHistory.step Inv.init (fun _ _ _ hI hs => hI.step hs) ⟨events, h⟩
  constructor
  · intro hnil reg t ht
    have hwaits : t.Waits s.storage := (hinv.fronts reg t ht).resolve_right (by simp [hnil])
    exact ⟨hwaits, hwaits.checkCounters⟩
  · intro reg
    exact (sublist_append_left _ _).trans (hinv.inOrder.sublist reg)

/-- A transaction of region `1` with keys at counter `1`. -/
def oneHome (id : TxnId) (keys : List Key) : Transaction :=
  { internal := { id, type := .singleHome, home := 1, involvedRegions := [1] },
    keys := keys.map fun key =>
      { key, type := .write, metadata := some { master := 1, counter := 1 } } }

/-- The first transaction waits for a remaster, and then the manager is told of it. -/
def waitThenRemaster (second : Transaction) : List RemasterEvent :=
  [.verifyMaster (oneHome 1 ["A"]), .verifyMaster second,
    .store "A" (some { metadata := { master := 1, counter := 1 } }),
    .call (.remasterOccured "A" [1])]

theorem frontsWait_secondWaits :
    ∃ s, Lts.run step {} (waitThenRemaster (oneHome 2 ["A"])) = some s ∧ s.changed = [] ∧
      s.letThrough = [oneHome 1 ["A"], oneHome 2 ["A"]] ∧ s.FrontsWait ∧
      ∀ reg, (ofRegion reg s.letThrough).Sublist (ofRegion reg s.received) := by
  refine Lts.exists_run (p := fun s => s.changed = [] ∧
    s.letThrough = [oneHome 1 ["A"], oneHome 2 ["A"]]) (by decide +kernel) ?_
  rintro s hs ⟨hchanged, hpassed⟩
  exact ⟨hchanged, hpassed, (frontsWait_and_inOrder hs).1 hchanged, (frontsWait_and_inOrder hs).2⟩

/-- **A transaction without keys passes before an earlier one** of its region. -/
theorem not_sublist_withoutKeys :
    ∃ s, Lts.run step {} (waitThenRemaster (oneHome 2 [])) = some s ∧
      s.received = [oneHome 1 ["A"], oneHome 2 []] ∧ s.letThrough = [oneHome 2 [], oneHome 1 ["A"]] ∧
      ¬ (s.letThrough.filter fun t => t.homeQueue = 1).Sublist
        (s.received.filter fun t => t.homeQueue = 1) := by
  refine Lts.exists_run (p := fun s => s.received = [oneHome 1 ["A"], oneHome 2 []] ∧
    s.letThrough = [oneHome 2 [], oneHome 1 ["A"]]) (by decide +kernel) ?_
  rintro s - ⟨hreceived, hpassed⟩
  refine ⟨hreceived, hpassed, ?_⟩
  rw [hreceived, hpassed]
  decide +kernel

end RemasterHistory

end Slog
