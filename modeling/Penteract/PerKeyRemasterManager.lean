/-
# The remaster manager with a queue for every key

A transaction that has to wait is queued under the keys of its home, behind the transactions with
smaller or equal counters.  It leaves the queues when it is in front of all of them and its counters
match, or when a counter is outdated; this may let other transactions leave.  The argument follows
the keys whose queues have a new front: a transaction that could leave has such a key among the
keys of its home, and `TryToUnblock` takes one of these keys away.
-/
import Penteract.Lib.AssocMap
import Penteract.RemasterManager

namespace Slog

open List Option

namespace Transaction

/-- The keys that are mastered at the home of the transaction. -/
def homeKeys (t : Transaction) : List Key := t.homeEntries.map KeyValueEntry.key

end Transaction

/-- A queue that does not exist is an empty one. -/
structure PerKeyRemasterManager where
  blockedQueue : AssocMap Key (List (Transaction × ℕ)) := ∅

namespace PerKeyRemasterManager

def queue (rm : PerKeyRemasterManager) (key : Key) : List (Transaction × ℕ) :=
  (rm.blockedQueue.lookup key).getD []

/-- Change a queue; an empty queue is erased. -/
def setQueue (rm : PerKeyRemasterManager) (key : Key) (q : List (Transaction × ℕ)) :
    PerKeyRemasterManager :=
  { rm with blockedQueue :=
      if q = [] then rm.blockedQueue.erase key else rm.blockedQueue.insert key q }

def insertIntoBlockedQueue (rm : PerKeyRemasterManager) (key : Key) (counter : ℕ)
    (t : Transaction) : PerKeyRemasterManager :=
  rm.setQueue key ((rm.queue key).takeWhile (fun e => e.2 ≤ counter) ++
    (t, counter) :: (rm.queue key).dropWhile fun e => e.2 ≤ counter)

/-- The front of the queue of the key has a counter that is not larger. -/
def blocks (rm : PerKeyRemasterManager) (kv : KeyValueEntry) : Bool :=
  match rm.queue kv.key with
  | [] => false
  | e :: _ => e.2 ≤ kv.counter

def addToQueues (rm : PerKeyRemasterManager) (t : Transaction) : PerKeyRemasterManager :=
  t.homeEntries.foldl (fun rm kv => rm.insertIntoBlockedQueue kv.key kv.counter t) rm

def verifyMaster (storage : Storage) (rm : PerKeyRemasterManager) (t : Transaction) :
    Option (VerifyMasterResult × PerKeyRemasterManager) :=
  if t.keys = [] then some (.valid, rm)
  else (t.checkCounters true storage).map fun
    | .abort => (.abort, rm)
    | .valid => if t.keys.any rm.blocks then (.waiting, rm.addToQueues t) else (.valid, rm)
    | .waiting => (.waiting, rm.addToQueues t)

def eraseTxn (id : TxnId) (rm : PerKeyRemasterManager) (key : Key) : PerKeyRemasterManager :=
  rm.setQueue key ((rm.queue key).eraseP fun e => e.1.id = id)

/-- The first loop of `ReleaseTransaction`. -/
def removeTxn (rm : PerKeyRemasterManager) (t : Transaction) : PerKeyRemasterManager :=
  (t.keys.map KeyValueEntry.key).foldl (eraseTxn t.id) rm

/-- The transaction is in front of the queues.  `none` is the failure of the check that a queue
exists. -/
def inFront (rm : PerKeyRemasterManager) (t : Transaction) : List Key → Option Bool
  | [] => some true
  | key :: keys =>
    match rm.queue key with
    | [] => none
    | e :: _ => if e.1 = t then inFront rm t keys else some false

def popFront (rm : PerKeyRemasterManager) (key : Key) : Option PerKeyRemasterManager :=
  match rm.queue key with
  | [] => none
  | _ :: q => some (rm.setQueue key q)

/-- `TryToUnblock`, with a bound on the depth of the recursion. -/
def tryToUnblock (storage : Storage) : ℕ → PerKeyRemasterManager × RemasterOccurredResult → Key →
    Option (PerKeyRemasterManager × RemasterOccurredResult)
  | 0, s, _ => some s
  | depth + 1, s, key =>
    match s.1.queue key with
    | [] => some s
    | (t, _) :: _ =>
      match t.checkCounters true storage with
      | none => none
      | some .waiting => some s
      | some .abort =>
        (t.keys.map KeyValueEntry.key).foldlM (tryToUnblock storage depth)
          (s.1.removeTxn t, { s.2 with shouldAbort := s.2.shouldAbort ++ [t] })
      | some .valid =>
        match s.1.inFront t t.homeKeys with
        | none => none
        | some false => some s
        | some true =>
          (t.homeKeys.foldlM popFront s.1).bind fun rm =>
            t.homeKeys.foldlM (tryToUnblock storage depth)
              (rm, { s.2 with unblocked := s.2.unblocked ++ [t] })

/-- The number of entries of all queues. -/
def size (rm : PerKeyRemasterManager) : ℕ :=
  (rm.blockedQueue.entries.map fun e => e.2.length).sum

def remasterOccured (storage : Storage) (rm : PerKeyRemasterManager) (key : Key) :
    Option (PerKeyRemasterManager × RemasterOccurredResult) :=
  tryToUnblock storage (rm.size + 1) (rm, {}) key

def releaseTransaction (storage : Storage) (rm : PerKeyRemasterManager) (t : Transaction) :
    Option (PerKeyRemasterManager × RemasterOccurredResult) :=
  (t.keys.map KeyValueEntry.key).foldlM (tryToUnblock storage (rm.size + 1)) (rm.removeTxn t, {})

/-! ## Queues and their size -/

variable {rm rm' : PerKeyRemasterManager} {t u : Transaction} {storage : Storage}

@[simp] theorem queue_setQueue (key key' : Key) (q : List (Transaction × ℕ)) :
    (rm.setQueue key q).queue key' = if key' = key then q else rm.queue key' := by
  unfold queue setQueue
  by_cases hq : q = []
  · rw [if_pos hq, AssocMap.lookup_erase']
    by_cases hkey : key' = key <;> simp [hkey, hq]
  · rw [if_neg hq, AssocMap.lookup_insert']
    by_cases hkey : key' = key <;> simp [hkey]

theorem size_eq_total : (rm.size : ℤ) =
    AssocMap.total (fun _ q => (q.length : ℤ)) rm.blockedQueue := by
  rw [size, AssocMap.total, Nat.cast_list_sum, List.map_map]
  rfl

theorem size_setQueue (key : Key) (q : List (Transaction × ℕ)) :
    (rm.setQueue key q).size + (rm.queue key).length = rm.size + q.length := by
  have herase : AssocMap.total (fun _ q => (q.length : ℤ)) (rm.blockedQueue.erase key) +
      (rm.queue key).length = rm.size := by
    rw [size_eq_total, queue]
    cases hlookup : rm.blockedQueue.lookup key with
    | none =>
      rw [AssocMap.total, AssocMap.erase_of_lookup_none hlookup]
      simp [AssocMap.total]
    | some q' =>
      rw [AssocMap.total_erase hlookup]
      exact add_comm _ _
  have hset : ((rm.setQueue key q).size : ℤ) =
      AssocMap.total (fun _ q => (q.length : ℤ)) (rm.blockedQueue.erase key) + q.length := by
    rw [size_eq_total, setQueue]
    by_cases hq : q = []
    · simp [hq]
    · rw [if_neg hq]
      exact add_comm _ _
  omega

/-! ## What an operation on some queues leaves as it is -/

/-- The queues get shorter. -/
structure Below (rm rm' : PerKeyRemasterManager) : Prop where
  sublist : ∀ key, (rm'.queue key).Sublist (rm.queue key)
  size_le : rm'.size ≤ rm.size

theorem Below.refl (rm : PerKeyRemasterManager) : Below rm rm :=
  ⟨fun _ => Sublist.refl _, le_rfl⟩

variable {rm₁ rm₂ rm₃ : PerKeyRemasterManager} {ks keys : List Key} {key : Key}
  {e : Transaction × ℕ} {s' : PerKeyRemasterManager × RemasterOccurredResult}

theorem Below.trans (h₁ : Below rm₁ rm₂) (h₂ : Below rm₂ rm₃) : Below rm₁ rm₃ :=
  ⟨fun key => (h₂.sublist key).trans (h₁.sublist key), h₂.size_le.trans h₁.size_le⟩

/-- Only queues of the keys `ks` are changed, and these get shorter. -/
structure Shrinks (ks : List Key) (rm rm' : PerKeyRemasterManager) : Prop
    extends Below rm rm' where
  frame : ∀ key ∉ ks, rm'.queue key = rm.queue key

theorem Shrinks.refl (ks : List Key) (rm : PerKeyRemasterManager) : Shrinks ks rm rm :=
  ⟨Below.refl rm, fun _ _ => rfl⟩

theorem Shrinks.trans (h₁ : Shrinks ks rm₁ rm₂) (h₂ : Shrinks ks rm₂ rm₃) : Shrinks ks rm₁ rm₃ :=
  ⟨h₁.toBelow.trans h₂.toBelow,
    fun key hkey => (h₂.frame key hkey).trans (h₁.frame key hkey)⟩

theorem Shrinks.setQueue (hkey : key ∈ ks) {q : List (Transaction × ℕ)} (hq : q.Sublist (rm.queue key)) :
    Shrinks ks rm (rm.setQueue key q) := by
  refine ⟨⟨fun key' => ?_, ?_⟩, fun key' hkey' => ?_⟩
  · rw [queue_setQueue]
    split_ifs with heq
    · rw [heq]
      exact hq
    · exact Sublist.refl _
  · have hsize := rm.size_setQueue key q
    have hlength := hq.length_le
    omega
  · have hne : key' ≠ key := fun heq => hkey' (heq ▸ hkey)
    rw [queue_setQueue, if_neg hne]

theorem Shrinks.removeTxn : Shrinks (t.keys.map KeyValueEntry.key) rm (rm.removeTxn t) := by
  have hgen : ∀ keys ks : List Key, keys ⊆ ks → ∀ rm : PerKeyRemasterManager,
      Shrinks ks rm (keys.foldl (eraseTxn t.id) rm) := by
    intro keys ks
    induction keys with
    | nil => exact fun _ rm => Shrinks.refl ks rm
    | cons key keys ih =>
      intro hsub rm
      rw [cons_subset] at hsub
      exact (Shrinks.setQueue hsub.1 eraseP_sublist).trans (ih hsub.2 _)
  exact hgen _ _ (Subset.refl _) rm

/-- A transaction is taken out of the queues of its keys. -/
theorem size_removeTxn_lt (hkey : key ∈ t.keys.map KeyValueEntry.key) (he : e ∈ rm.queue key)
    (hid : e.1.id = t.id) : (rm.removeTxn t).size < rm.size := by
  have hlt : ∀ rm : PerKeyRemasterManager, e ∈ rm.queue key → (eraseTxn t.id rm key).size <
      rm.size := by
    intro rm he
    have hsize := rm.size_setQueue key ((rm.queue key).eraseP fun e => e.1.id = t.id)
    have hlength : ((rm.queue key).eraseP fun e => e.1.id = t.id).length < (rm.queue key).length := by
      have hpred := length_eraseP_of_mem (p := fun e => decide (e.1.id = t.id)) he
        (decide_eq_true hid)
      have hpos := length_pos_of_mem he
      omega
    rw [eraseTxn]
    omega
  rw [PerKeyRemasterManager.removeTxn]
  generalize t.keys.map KeyValueEntry.key = keys at hkey
  induction keys generalizing rm with
  | nil => cases hkey
  | cons key' keys ih =>
    rw [foldl_cons]
    by_cases hkeys : key ∈ keys ∧ key' ≠ key
    · have hsub : ((rm.queue key').eraseP fun e => decide (e.1.id = t.id)).Sublist
          (rm.queue key') := eraseP_sublist
      have hle := (Shrinks.setQueue (mem_singleton_self key') hsub).size_le
      refine lt_of_lt_of_le (ih ?_ hkeys.1) hle
      rw [eraseTxn, queue_setQueue, if_neg (Ne.symm hkeys.2)]
      exact he
    · -- the entry is erased here
      have hkey' : key = key' := by
        by_contra hne
        exact hkeys ⟨(mem_cons.mp hkey).resolve_left hne, Ne.symm hne⟩
      have hrest : ∀ (keys : List Key) (rm : PerKeyRemasterManager),
          (keys.foldl (eraseTxn t.id) rm).size ≤ rm.size := by
        intro keys
        induction keys with
        | nil => exact fun _ => le_rfl
        | cons k keys ih =>
          intro rm
          exact (ih _).trans (Shrinks.setQueue (mem_singleton_self k)
            eraseP_sublist).size_le
      refine lt_of_le_of_lt (hrest keys _) ?_
      rw [← hkey']
      exact hlt rm he

theorem Shrinks.popFront (hsub : keys ⊆ ks) (h : keys.foldlM popFront rm = some rm') :
    Shrinks ks rm rm' := by
  induction keys generalizing rm with
  | nil =>
    obtain rfl := Option.some.inj h
    exact Shrinks.refl ks rm
  | cons key keys ih =>
    rw [foldlM_cons, bind_eq_bind, bind_eq_some_iff] at h
    obtain ⟨rm₁, hpop, h⟩ := h
    rw [cons_subset] at hsub
    rw [PerKeyRemasterManager.popFront] at hpop
    split at hpop
    · cases hpop
    · next e q hq =>
        cases hpop
        exact (Shrinks.setQueue hsub.1 (hq ▸ sublist_cons_self e q)).trans (ih hsub.2 h)

theorem size_popFront_lt (hne : keys ≠ []) (h : keys.foldlM popFront rm = some rm') :
    rm'.size < rm.size := by
  obtain ⟨key, keys, rfl⟩ := exists_cons_of_ne_nil hne
  rw [foldlM_cons, bind_eq_bind, bind_eq_some_iff] at h
  obtain ⟨rm₁, hpop, h⟩ := h
  refine lt_of_le_of_lt (Shrinks.popFront (Subset.refl _) h).size_le ?_
  rw [popFront] at hpop
  split at hpop
  · cases hpop
  · next e q hq =>
      cases hpop
      have hsize := rm.size_setQueue key q
      rw [hq, length_cons] at hsize
      omega

/-! ## Lost wake-ups -/

/-- The transaction is in front of the queues of all keys of its home. -/
def AtFront (rm : PerKeyRemasterManager) (t : Transaction) : Prop :=
  t.homeKeys ≠ [] ∧ ∀ key ∈ t.homeKeys, ∃ c, (rm.queue key).head? = some (t, c)

/-- The counters say that the transaction need not wait. -/
def Decided (storage : Storage) (t : Transaction) : Prop :=
  t.checkCounters true storage = some .valid ∨ t.checkCounters true storage = some .abort

/-- Every transaction that is in front and need not wait has one of the keys. -/
def Wakes (storage : Storage) (ks : List Key) (rm : PerKeyRemasterManager) : Prop :=
  ∀ t, rm.AtFront t → Decided storage t → ∃ key ∈ ks, key ∈ t.homeKeys

/-- **No wake-up is lost.** -/
def NoLostWakeUp (storage : Storage) (rm : PerKeyRemasterManager) : Prop :=
  ∀ t, rm.AtFront t → ¬ Decided storage t

/-- Transactions are queued under the keys of their homes. -/
def Queued (rm : PerKeyRemasterManager) : Prop :=
  ∀ key, ∀ e ∈ rm.queue key, key ∈ e.1.homeKeys

theorem Queued.below (h : rm.Queued) (hs : Below rm rm') : rm'.Queued :=
  fun key e he => h key e ((hs.sublist key).subset he)

/-- A change of the queues of some keys. -/
theorem Wakes.shrinks {ks' : List Key} (h : Wakes storage (key :: ks) rm) (hkey : key ∈ ks')
    (hs : Shrinks ks' rm rm') : Wakes storage (ks' ++ ks) rm' := by
  intro u hfront hdec
  by_cases hchanged : ∃ k ∈ ks', k ∈ u.homeKeys
  · obtain ⟨k, hk, hmem⟩ := hchanged
    exact ⟨k, mem_append_left _ hk, hmem⟩
  · -- none of the queues of the transaction has changed
    have hframe : ∀ k ∈ u.homeKeys, rm'.queue k = rm.queue k :=
      fun k hk => hs.frame k fun hmem => hchanged ⟨k, hmem, hk⟩
    have hfront' : rm.AtFront u :=
      ⟨hfront.1, fun k hk => hframe k hk ▸ hfront.2 k hk⟩
    obtain ⟨k, hk, hmem⟩ := h u hfront' hdec
    rcases mem_cons.mp hk with rfl | hk
    · exact absurd ⟨k, hkey, hmem⟩ hchanged
    · exact ⟨k, mem_append_right _ hk, hmem⟩

/-- A key whose front cannot leave. -/
theorem Wakes.drop (h : Wakes storage (key :: ks) rm)
    (hfront : ∀ u c, (rm.queue key).head? = some (u, c) → rm.AtFront u → ¬ Decided storage u) :
    Wakes storage ks rm := by
  intro u hu hdec
  obtain ⟨k, hk, hmem⟩ := h u hu hdec
  rcases mem_cons.mp hk with rfl | hk
  · obtain ⟨c, hc⟩ := hu.2 k hmem
    exact absurd hdec (hfront u c hc hu)
  · exact ⟨k, hk, hmem⟩

theorem homeKeys_subset (t : Transaction) : t.homeKeys ⊆ t.keys.map KeyValueEntry.key :=
  map_subset _ filter_sublist.subset

theorem inFront_false (h : rm.inFront t keys = some false) :
    ∃ key ∈ keys, ∀ c, (rm.queue key).head? ≠ some (t, c) := by
  induction keys with
  | nil => cases h
  | cons key keys ih =>
    rw [inFront] at h
    split at h
    · cases h
    · next e q hq =>
        split_ifs at h with heq
        · obtain ⟨k, hk, hne⟩ := ih h
          exact ⟨k, mem_cons_of_mem _ hk, hne⟩
        · refine ⟨key, mem_cons_self, fun c hc => heq ?_⟩
          rw [hq, List.head?_cons] at hc
          exact congrArg Prod.fst (Option.some.inj hc)

/-- What `TryToUnblock` on a key does: the key is taken away from those that have to be tried. -/
def Unblocks (storage : Storage) (depth : ℕ) : Prop :=
  ∀ (s s' : PerKeyRemasterManager × RemasterOccurredResult) (key : Key) (ks : List Key),
    s.1.size < depth → s.1.Queued → Wakes storage (key :: ks) s.1 →
    tryToUnblock storage depth s key = some s' → Wakes storage ks s'.1 ∧ Below s.1 s'.1

theorem Unblocks.foldlM {depth : ℕ} (h : Unblocks storage depth)
    {s : PerKeyRemasterManager × RemasterOccurredResult} (hsize : s.1.size < depth)
    (hqueued : s.1.Queued) (hwakes : Wakes storage (keys ++ ks) s.1)
    (hs : keys.foldlM (tryToUnblock storage depth) s = some s') :
    Wakes storage ks s'.1 ∧ Below s.1 s'.1 := by
  induction keys generalizing s with
  | nil =>
    cases hs
    exact ⟨hwakes, Below.refl _⟩
  | cons key keys ih =>
    rw [foldlM_cons, bind_eq_bind, bind_eq_some_iff] at hs
    obtain ⟨s₁, hs₁, hs⟩ := hs
    obtain ⟨hwakes₁, hbelow₁⟩ := h s s₁ key (keys ++ ks) hsize hqueued hwakes hs₁
    obtain ⟨hwakes', hbelow⟩ :=
      ih (lt_of_le_of_lt hbelow₁.size_le hsize) (hqueued.below hbelow₁) hwakes₁ hs
    exact ⟨hwakes', hbelow₁.trans hbelow⟩

/-- **`TryToUnblock` loses no wake-up.** -/
theorem unblocks (storage : Storage) (depth : ℕ) : Unblocks storage depth := by
  induction depth with
  | zero => exact fun _ _ _ _ hsize => absurd hsize (Nat.not_lt_zero _)
  | succ depth ih =>
    intro s s' key ks hsize hqueued hwakes hs
    rw [tryToUnblock] at hs
    cases hq : s.1.queue key with
    | nil =>
      rw [hq] at hs
      cases hs
      refine ⟨hwakes.drop fun u c hc => ?_, Below.refl _⟩
      rw [hq] at hc
      cases hc
    | cons e q =>
      obtain ⟨t, c⟩ := e
      rw [hq] at hs
      dsimp only at hs
      have hmem : (t, c) ∈ s.1.queue key := hq ▸ mem_cons_self
      have hhome : key ∈ t.homeKeys := hqueued key _ hmem
      -- the front of the queue is this transaction
      have hhead : ∀ u c', (s.1.queue key).head? = some (u, c') → u = t := by
        intro u c' hu
        rw [hq] at hu
        exact (congrArg Prod.fst (Option.some.inj hu)).symm
      cases hcheck : t.checkCounters true storage with
      | none =>
        rw [hcheck] at hs
        cases hs
      | some result =>
        rw [hcheck] at hs
        cases result with
        | waiting =>
          cases hs
          refine ⟨hwakes.drop fun u c' hu _ hdec => ?_, Below.refl _⟩
          rw [hhead u c' hu, Decided, hcheck] at hdec
          rcases hdec with hdec | hdec <;> cases hdec
        | abort =>
          have hkey := homeKeys_subset t hhome
          have hshrinks : Shrinks (t.keys.map KeyValueEntry.key) s.1 (s.1.removeTxn t) :=
            Shrinks.removeTxn
          have hlt := size_removeTxn_lt hkey hmem rfl
          obtain ⟨hwakes', hbelow⟩ := ih.foldlM (by dsimp only; omega)
            (hqueued.below hshrinks.toBelow) (hwakes.shrinks hkey hshrinks) hs
          exact ⟨hwakes', hshrinks.toBelow.trans hbelow⟩
        | valid =>
          dsimp only at hs
          cases hfront : s.1.inFront t t.homeKeys with
          | none =>
            rw [hfront] at hs
            cases hs
          | some front =>
            rw [hfront] at hs
            cases front with
            | false =>
              cases hs
              refine ⟨hwakes.drop fun u c' hu hat => ?_, Below.refl _⟩
              obtain ⟨k, hk, hne⟩ := inFront_false hfront
              rw [hhead u c' hu] at hat
              obtain ⟨c'', hc''⟩ := hat.2 k hk
              exact absurd hc'' (hne c'')
            | true =>
              obtain ⟨rm, hpop, hs⟩ := bind_eq_some_iff.mp hs
              have hshrinks := Shrinks.popFront (Subset.refl _) hpop
              have hlt := size_popFront_lt (ne_nil_of_mem hhome) hpop
              obtain ⟨hwakes', hbelow⟩ := ih.foldlM (by dsimp only; omega)
                (hqueued.below hshrinks.toBelow) (hwakes.shrinks hhome hshrinks) hs
              exact ⟨hwakes', hshrinks.toBelow.trans hbelow⟩

/-! ## Calls -/

/-- `CheckCounters` reads the keys of the home only. -/
theorem checkCounters_congr {storage' : Storage} (h : ∀ key ∈ t.homeKeys, storage key = storage' key) :
    t.checkCounters true storage = t.checkCounters true storage' := by
  have hgen : ∀ (keys : List KeyValueEntry) (waiting : Bool),
      (∀ kv ∈ keys, (kv.master : ℤ) = t.home → storage kv.key = storage' kv.key) →
      Transaction.checkKeys storage (fun kv => true && (kv.master : ℤ) ≠ t.home) keys waiting =
        Transaction.checkKeys storage' (fun kv => true && (kv.master : ℤ) ≠ t.home) keys waiting := by
    intro keys
    induction keys with
    | nil => exact fun _ _ => rfl
    | cons kv keys ih =>
      intro waiting hkeys
      have hrest := fun waiting => ih waiting fun kv' hkv' => hkeys kv' (mem_cons_of_mem _ hkv')
      rw [Transaction.checkKeys, Transaction.checkKeys, hrest, hrest]
      by_cases hhome : (kv.master : ℤ) = t.home
      · rw [hkeys kv mem_cons_self hhome]
      · simp [hhome]
  refine hgen t.keys false fun kv hkv hhome => h kv.key ?_
  exact mem_map_of_mem (mem_filter.mpr ⟨hkv, decide_eq_true hhome⟩)

theorem Wakes.noLostWakeUp (h : Wakes storage [] rm) : NoLostWakeUp storage rm := by
  intro u hu hdec
  obtain ⟨k, hk, -⟩ := h u hu hdec
  cases hk

/-- A counter is changed, and `RemasterOccured` is called. -/
theorem NoLostWakeUp.remasterOccured {record : Option Record} (h : NoLostWakeUp storage rm)
    (hqueued : rm.Queued) (hs : rm.remasterOccured (Function.update storage key record) key = some s') :
    NoLostWakeUp (Function.update storage key record) s'.1 ∧ Below rm s'.1 := by
  have hwakes : Wakes (Function.update storage key record) [key] rm := by
    intro u hu hdec
    refine ⟨key, mem_singleton_self key, ?_⟩
    by_contra hnot
    have hsame : u.checkCounters true (Function.update storage key record) =
        u.checkCounters true storage :=
      checkCounters_congr fun k hk => Function.update_of_ne (ne_of_mem_of_not_mem hk hnot) _ _
    rw [Decided, hsame] at hdec
    exact h u hu hdec
  obtain ⟨hwakes', hbelow⟩ := unblocks _ _ (rm, {}) s' key [] (Nat.lt_succ_self _) hqueued
    hwakes hs
  exact ⟨hwakes'.noLostWakeUp, hbelow⟩

theorem NoLostWakeUp.releaseTransaction (h : NoLostWakeUp storage rm) (hqueued : rm.Queued)
    (hs : rm.releaseTransaction storage t = some s') : NoLostWakeUp storage s'.1 ∧ Below rm s'.1 := by
  have hshrinks : Shrinks (t.keys.map KeyValueEntry.key) rm (rm.removeTxn t) := Shrinks.removeTxn
  have hwakes : Wakes storage (t.keys.map KeyValueEntry.key ++ []) (rm.removeTxn t) := by
    intro u hu hdec
    by_contra hnot
    have hframe : ∀ k ∈ u.homeKeys, (rm.removeTxn t).queue k = rm.queue k := fun k hk =>
      hshrinks.frame k fun hmem => hnot ⟨k, mem_append_left _ hmem, hk⟩
    exact h u ⟨hu.1, fun k hk => hframe k hk ▸ hu.2 k hk⟩ hdec
  obtain ⟨hwakes', hbelow⟩ := (unblocks storage _).foldlM
    (Nat.lt_succ_of_le hshrinks.size_le) (hqueued.below hshrinks.toBelow) hwakes hs
  exact ⟨hwakes'.noLostWakeUp, hshrinks.toBelow.trans hbelow⟩

/-- A front that is not the new transaction was in front before. -/
theorem head_addToQueues (hne : e.1 ≠ t) (h : ((rm.addToQueues t).queue key).head? = some e) :
    (rm.queue key).head? = some e := by
  rw [addToQueues] at h
  generalize t.homeEntries = kvs at h
  induction kvs generalizing rm with
  | nil => exact h
  | cons kv kvs ih =>
    have hins : ((rm.insertIntoBlockedQueue kv.key kv.counter t).queue key).head? = some e := ih h
    rw [insertIntoBlockedQueue, queue_setQueue] at hins
    split_ifs at hins with hkey
    · rw [hkey]
      cases hq : rm.queue kv.key with
      | nil =>
        rw [hq] at hins
        exact absurd (congrArg Prod.fst (Option.some.inj hins)).symm hne
      | cons e' q =>
        rw [hq, takeWhile_cons] at hins
        split_ifs at hins
        · exact hins
        · exact absurd (congrArg Prod.fst (Option.some.inj hins)).symm hne
    · exact hins

/-- A front with a small counter stays in front. -/
theorem head_addToQueues_of_le (hle : ∀ kv ∈ t.homeEntries, kv.key = key → e.2 ≤ kv.counter)
    (h : (rm.queue key).head? = some e) : ((rm.addToQueues t).queue key).head? = some e := by
  rw [addToQueues]
  generalize t.homeEntries = kvs at hle
  induction kvs generalizing rm with
  | nil => exact h
  | cons kv kvs ih =>
    refine ih ?_ fun kv' hkv' => hle kv' (mem_cons_of_mem _ hkv')
    dsimp only
    rw [insertIntoBlockedQueue, queue_setQueue]
    split_ifs with hkey
    · obtain ⟨q, hq⟩ := List.head?_eq_some_iff.mp h
      rw [← hkey, hq, takeWhile_cons, if_pos]
      · rfl
      · exact decide_eq_true (hle kv mem_cons_self hkey.symm)
    · exact h

theorem mem_addToQueues (he : e ∈ (rm.addToQueues t).queue key) :
    e ∈ rm.queue key ∨ e.1 = t ∧ key ∈ t.homeKeys := by
  rw [addToQueues] at he
  have hgen : ∀ (kvs : List KeyValueEntry) (rm : PerKeyRemasterManager), kvs ⊆ t.homeEntries →
      e ∈ (kvs.foldl (fun rm kv => rm.insertIntoBlockedQueue kv.key kv.counter t) rm).queue key →
      e ∈ rm.queue key ∨ e.1 = t ∧ key ∈ t.homeKeys := by
    intro kvs
    induction kvs with
    | nil => exact fun _ _ he => .inl he
    | cons kv kvs ih =>
      intro rm hsub he
      rw [cons_subset] at hsub
      rcases ih (rm.insertIntoBlockedQueue kv.key kv.counter t) hsub.2 he with he | he
      · rw [insertIntoBlockedQueue, queue_setQueue] at he
        split_ifs at he with hkey
        · rcases mem_append.mp he with he | he
          · exact .inl (hkey ▸ (takeWhile_sublist _).subset he)
          · rcases mem_cons.mp he with rfl | he
            · exact .inr ⟨rfl, hkey ▸ mem_map_of_mem hsub.1⟩
            · exact .inl (hkey ▸ (dropWhile_sublist _).subset he)
        · exact .inl he
      · exact .inr he
  exact hgen _ rm (Subset.refl _) he

theorem checkKeys_eq_valid {skip : KeyValueEntry → Bool} {keys : List KeyValueEntry}
    {waiting : Bool} (h : Transaction.checkKeys storage skip keys waiting = some .valid) :
    waiting = false ∧ ∀ kv ∈ keys, skip kv = false →
      kv.counter = ((storage kv.key).getD {}).metadata.counter := by
  induction keys generalizing waiting with
  | nil =>
    cases waiting with
    | false => exact ⟨rfl, by simp⟩
    | true => cases h
  | cons kv keys ih =>
    rw [Transaction.checkKeys] at h
    cases hskip : skip kv with
    | true =>
      rw [hskip, if_pos rfl] at h
      obtain ⟨hwaiting, hrest⟩ := ih h
      refine ⟨hwaiting, fun kv' hkv' hskip' => ?_⟩
      rcases mem_cons.mp hkv' with rfl | hkv'
      · rw [hskip] at hskip'
        cases hskip'
      · exact hrest kv' hkv' hskip'
    | false =>
      rw [hskip, if_neg Bool.false_ne_true] at h
      dsimp only at h
      split_ifs at h with hlt hgt heq
      · cases h
      · exact absurd (ih h).1 (by decide)
      · obtain ⟨hwaiting, hrest⟩ := ih h
        refine ⟨hwaiting, fun kv' hkv' hskip' => ?_⟩
        rcases mem_cons.mp hkv' with rfl | hkv'
        · exact le_antisymm (not_lt.mp hgt) (not_lt.mp hlt)
        · exact hrest kv' hkv' hskip'

/-- Valid counters are those that are stored. -/
theorem counter_of_valid (h : t.checkCounters true storage = some .valid) {kv : KeyValueEntry}
    (hkv : kv ∈ t.homeEntries) : kv.counter = ((storage kv.key).getD {}).metadata.counter := by
  obtain ⟨hmem, hhome⟩ := mem_filter.mp hkv
  exact (checkKeys_eq_valid h).2 kv hmem (by simpa using hhome)

/-- A transaction with valid counters that is blocked is blocked at a key of its home. -/
def BlockedAtHome (storage : Storage) (rm : PerKeyRemasterManager) (t : Transaction) : Prop :=
  t.checkCounters true storage = some .valid → t.keys.any rm.blocks → t.homeEntries.any rm.blocks

instance (storage : Storage) (rm : PerKeyRemasterManager) (t : Transaction) :
    Decidable (BlockedAtHome storage rm t) := inferInstanceAs (Decidable (_ → _ → _))

/-- A new transaction is put into the queues. -/
theorem NoLostWakeUp.verifyMaster {result : VerifyMasterResult} (h : NoLostWakeUp storage rm)
    (hnew : ∀ key, ∀ e ∈ rm.queue key, e.1 ≠ t) (hcond : BlockedAtHome storage rm t)
    (hs : rm.verifyMaster storage t = some (result, rm')) :
    NoLostWakeUp storage rm' ∧ (rm' = rm ∨ rm' = rm.addToQueues t) := by
  -- another transaction that is in front was in front before
  have hadd : (¬ (rm.addToQueues t).AtFront t ∨ ¬ Decided storage t) →
      NoLostWakeUp storage (rm.addToQueues t) := by
    intro hself u hu hdec
    by_cases hut : u = t
    · subst hut
      exact hself.elim (fun hnot => hnot hu) (fun hnot => hnot hdec)
    · refine h u ⟨hu.1, fun key hkey => ?_⟩ hdec
      obtain ⟨c, hc⟩ := hu.2 key hkey
      exact ⟨c, head_addToQueues hut hc⟩
  rw [PerKeyRemasterManager.verifyMaster] at hs
  by_cases hkeys : t.keys = []
  · rw [if_pos hkeys] at hs
    cases hs
    exact ⟨h, .inl rfl⟩
  · rw [if_neg hkeys] at hs
    obtain ⟨check, hcheck, heq⟩ := map_eq_some_iff.mp hs
    cases check with
    | abort =>
      cases heq
      exact ⟨h, .inl rfl⟩
    | waiting =>
      cases heq
      refine ⟨hadd (.inr fun hdec => ?_), .inr rfl⟩
      rw [Decided, hcheck] at hdec
      rcases hdec with hdec | hdec <;> cases hdec
    | valid =>
      dsimp only at heq
      split_ifs at heq with hblocked
      · cases heq
        refine ⟨hadd (.inl fun hfront => ?_), .inr rfl⟩
        -- the front that blocks the transaction stays in front of it
        obtain ⟨kv, hkv, hblocks⟩ := any_eq_true.mp (hcond hcheck hblocked)
        rw [blocks] at hblocks
        split at hblocks
        · cases hblocks
        · next e q hq =>
            have hle : ∀ kv' ∈ t.homeEntries, kv'.key = kv.key → e.2 ≤ kv'.counter := by
              intro kv' hkv' hkey
              rw [counter_of_valid hcheck hkv', hkey, ← counter_of_valid hcheck hkv]
              exact of_decide_eq_true hblocks
            obtain ⟨c, hc⟩ := hfront.2 kv.key (mem_map_of_mem hkv)
            rw [head_addToQueues_of_le hle (by rw [hq]; rfl)] at hc
            refine hnew kv.key e (hq ▸ mem_cons_self) ?_
            exact congrArg Prod.fst (Option.some.inj hc)
      · cases heq
        exact ⟨h, .inl rfl⟩

end PerKeyRemasterManager

/-! ## Runs -/

inductive PerKeyRemasterEvent where
  | verifyMaster (t : Transaction)
  | remaster (key : Key) (record : Option Record)
  | releaseTransaction (t : Transaction)
  deriving DecidableEq, Repr

/-- The manager with the storage.  `verified` notes the parts that were passed to `VerifyMaster`. -/
structure PerKeyRemasterRun where
  manager : PerKeyRemasterManager := {}
  storage : Storage := fun _ => none
  verified : List (TxnId × ℤ) := []

namespace PerKeyRemasterRun

open PerKeyRemasterManager

/-- A part is verified once, and `RemasterOccured` is called when a record has changed. -/
def step (s : PerKeyRemasterRun) : PerKeyRemasterEvent → Option PerKeyRemasterRun
  | .verifyMaster t =>
    if (t.id, t.home) ∈ s.verified then none
    else (s.manager.verifyMaster s.storage t).map fun r =>
      { s with manager := r.2, verified := s.verified ++ [(t.id, t.home)] }
  | .remaster key record =>
    (s.manager.remasterOccured (Function.update s.storage key record) key).map fun r =>
      { s with manager := r.1, storage := Function.update s.storage key record }
  | .releaseTransaction t =>
    (s.manager.releaseTransaction s.storage t).map fun r => { s with manager := r.1 }

/-- A transaction with valid counters is not blocked by the queues of other homes alone. -/
def NotBlockedElsewhere (s : PerKeyRemasterRun) : PerKeyRemasterEvent → Prop
  | .verifyMaster t => BlockedAtHome s.storage s.manager t
  | _ => True

instance (s : PerKeyRemasterRun) : (e : PerKeyRemasterEvent) → Decidable (s.NotBlockedElsewhere e)
  | .verifyMaster t => inferInstanceAs (Decidable (BlockedAtHome s.storage s.manager t))
  | .remaster _ _ => inferInstanceAs (Decidable True)
  | .releaseTransaction _ => inferInstanceAs (Decidable True)

structure Inv (s : PerKeyRemasterRun) : Prop where
  noLostWakeUp : s.manager.NoLostWakeUp s.storage
  queued : s.manager.Queued
  verified : ∀ key, ∀ e ∈ s.manager.queue key, (e.1.id, e.1.home) ∈ s.verified

theorem Inv.init : Inv {} where
  noLostWakeUp := by
    rintro t ⟨hne, hfront⟩ -
    obtain ⟨key, hkey⟩ := exists_mem_of_ne_nil _ hne
    obtain ⟨c, ⟨⟩⟩ := hfront key hkey
  queued := fun _ _ he => by cases he
  verified := fun _ _ he => by cases he

theorem Inv.step {s s' : PerKeyRemasterRun} {e : PerKeyRemasterEvent} (h : s.Inv)
    (hC : s.NotBlockedElsewhere e) (hs : s.step e = some s') : s'.Inv := by
  cases e with
  | verifyMaster t =>
    rw [PerKeyRemasterRun.step] at hs
    split_ifs at hs with hnew
    obtain ⟨⟨result, rm⟩, hverify, rfl⟩ := map_eq_some_iff.mp hs
    have hfresh : ∀ key, ∀ e ∈ s.manager.queue key, e.1 ≠ t := by
      rintro key e he rfl
      exact hnew (h.verified key e he)
    have hkept : ∀ key, ∀ e ∈ s.manager.queue key,
        (e.1.id, e.1.home) ∈ s.verified ++ [(t.id, t.home)] :=
      fun key e he => mem_append_left _ (h.verified key e he)
    obtain ⟨hwake, rfl | rfl⟩ := h.noLostWakeUp.verifyMaster hfresh hC hverify
    · exact ⟨hwake, h.queued, hkept⟩
    · refine ⟨hwake, fun key e he => ?_, fun key e he => ?_⟩
      · rcases mem_addToQueues he with he | ⟨rfl, hkey⟩
        · exact h.queued key e he
        · exact hkey
      · rcases mem_addToQueues he with he | ⟨rfl, -⟩
        · exact hkept key e he
        · exact mem_append_right _ mem_cons_self
  | remaster key record =>
    obtain ⟨r, hr, rfl⟩ := map_eq_some_iff.mp hs
    obtain ⟨hwake, hbelow⟩ := h.noLostWakeUp.remasterOccured h.queued hr
    exact ⟨hwake, h.queued.below hbelow,
      fun k e he => h.verified k e ((hbelow.sublist k).subset he)⟩
  | releaseTransaction t =>
    obtain ⟨r, hr, rfl⟩ := map_eq_some_iff.mp hs
    obtain ⟨hwake, hbelow⟩ := h.noLostWakeUp.releaseTransaction h.queued hr
    exact ⟨hwake, h.queued.below hbelow,
      fun k e he => h.verified k e ((hbelow.sublist k).subset he)⟩

/-- **No wake-up is lost** in a run in which no transaction with valid counters is blocked by the
queues of other homes alone. -/
theorem noLostWakeUp_of_notBlockedElsewhere {events : List PerKeyRemasterEvent}
    {s : PerKeyRemasterRun} (hC : Lts.Meets PerKeyRemasterRun.step NotBlockedElsewhere {} events)
    (h : Lts.run PerKeyRemasterRun.step {} events = some s) :
    s.manager.NoLostWakeUp s.storage :=
  (Lts.invariant_meets PerKeyRemasterRun.step Inv.init
    (fun _ _ _ _ hI hCe hs => hI.step hCe hs) hC h).noLostWakeUp

/-- A part that waits for a remaster of its key. -/
def waitsForA (id : TxnId) : Transaction :=
  { internal := { id, home := 1 },
    keys := [{ key := "A", type := .write, metadata := some { master := 1, counter := 1 } }] }

/-- A part for region `2` of a transaction that also has the key of region `1`. -/
def alsoHasA (id : TxnId) : Transaction :=
  { internal := { id, type := .multiHomeOrLockOnly, home := 2, involvedRegions := [1, 2] },
    keys := [{ key := "A", type := .write, metadata := some { master := 1, counter := 1 } },
      { key := "B", type := .write, metadata := some { master := 2 } }] }

/-- A remaster lets two transactions leave their queue. -/
theorem noLostWakeUp_oneKey : ∃ s, Lts.run PerKeyRemasterRun.step {} [.verifyMaster (waitsForA 1),
      .verifyMaster (waitsForA 2),
      .remaster "A" (some { metadata := { master := 1, counter := 1 } })] = some s ∧
    s.manager.size = 0 ∧ s.manager.NoLostWakeUp s.storage := by
  refine Lts.exists_run (p := fun s => s.manager.size = 0) (by decide +kernel) fun s hs hsize =>
    ⟨hsize, noLostWakeUp_of_notBlockedElsewhere ?_ hs⟩
  exact of_decide_eq_true (by decide +kernel)

/-- **A transaction waits in front of its only queue** although its counters are valid: it was
blocked by the queue of a key of another home, under which it is not queued. -/
theorem not_noLostWakeUp_otherHome : ∃ s, Lts.run PerKeyRemasterRun.step {}
      [.remaster "B" (some { metadata := { master := 2 } }), .verifyMaster (waitsForA 1),
        .verifyMaster (alsoHasA 2)] = some s ∧ ¬ s.manager.NoLostWakeUp s.storage := by
  refine Lts.exists_run (p := fun s => (s.manager.queue "B").head? = some (alsoHasA 2, 0) ∧
    (alsoHasA 2).checkCounters true s.storage = some .valid) (by decide +kernel) ?_
  rintro s - ⟨hhead, hcheck⟩ hwake
  refine hwake (alsoHasA 2) ⟨by decide, fun key hkey => ?_⟩ (.inl hcheck)
  have hkeys : (alsoHasA 2).homeKeys = ["B"] := by decide
  rw [hkeys] at hkey
  rw [mem_singleton.mp hkey]
  exact ⟨0, hhead⟩

end PerKeyRemasterRun

end Slog
