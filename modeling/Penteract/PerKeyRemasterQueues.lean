/-
# The queues of the remaster manager with a queue for every key

A queue is ordered by counters, and by arrival where these are equal.  A transaction stands once in the
queues of the keys of its home and in no others.  All operations but the arrival of a transaction take
some transactions out of all of their queues: an unblocked one is in front of its queues, and releasing
one part of a transaction removes all parts of it, since the parts have the same keys.  From this
follow the order of the queues, the membership, and what a call reports.
-/
import Penteract.PerKeyRemasterManager

namespace Slog

open List Option

/-- The lock-only transaction of a transaction for a home region. -/
def lockOnly (txns : TxnId → Transaction) (id : TxnId) (home : RegionId) : Transaction :=
  { txns id with internal := { (txns id).internal with id, home } }

/-- The keys of every transaction are different. -/
def DistinctKeys (txns : TxnId → Transaction) : Prop :=
  ∀ id, ((txns id).keys.map KeyValueEntry.key).Nodup

namespace PerKeyRemasterManager

variable {rm rm' : PerKeyRemasterManager} {t u : Transaction} {storage : Storage}
  {txns : TxnId → Transaction}

/-- The transaction is in a queue. -/
def Waiting (rm : PerKeyRemasterManager) (t : Transaction) : Prop :=
  ∃ key, t ∈ (rm.queue key).map Prod.fst

variable {key : Key} {e : Transaction × ℕ} {q : List (Transaction × ℕ)} {arrived : List Transaction}
  {keep : Transaction → Bool} {keys : List Key}
  {f : PerKeyRemasterManager × RemasterOccurredResult → Key → Option (PerKeyRemasterManager × RemasterOccurredResult)}
  {depth : ℕ}

theorem waiting_of_mem (he : e ∈ rm.queue key) : rm.Waiting e.1 :=
  ⟨key, mem_map_of_mem he⟩

/-- The queues are ordered by counters, and by arrival where these are equal.  A transaction in a queue
stands once in the queues of the keys of its home, with their counters, and in no other queue.  No empty
queue is kept. -/
structure WellFormed (arrived : List Transaction) (rm : PerKeyRemasterManager) : Prop where
  sorted : ∀ key, (rm.queue key).Pairwise fun e e' => e.2 ≤ e'.2
  firstCome : ∀ key c, (((rm.queue key).filter fun e => e.2 = c).map Prod.fst).Sublist arrived
  member : ∀ t, rm.Waiting t → ∀ key, ((rm.queue key).map Prod.fst).count t =
    if key ∈ t.homeKeys then 1 else 0
  counter : ∀ key, ∀ e ∈ rm.queue key, ∃ kv ∈ e.1.homeEntries, kv.key = key ∧ kv.counter = e.2
  nonempty : ∀ key, rm.blockedQueue.lookup key ≠ some []

/-! ## Taking transactions out of the queues -/

/-- The transactions with the property stay in all of their queues, and the others leave. -/
structure Keeps (keep : Transaction → Bool) (rm rm' : PerKeyRemasterManager) : Prop where
  queue : ∀ key, rm'.queue key = (rm.queue key).filter fun e => keep e.1
  nonempty : (∀ key, rm.blockedQueue.lookup key ≠ some []) →
    ∀ key, rm'.blockedQueue.lookup key ≠ some []

theorem nonempty_setQueue (h : ∀ key, rm.blockedQueue.lookup key ≠ some []) (key' : Key) :
    (rm.setQueue key q).blockedQueue.lookup key' ≠ some [] := by
  rw [setQueue]
  dsimp only
  split_ifs with hq
  · rw [AssocMap.lookup_erase']
    split_ifs
    · simp
    · exact h key'
  · rw [AssocMap.lookup_insert']
    split_ifs
    · exact fun heq => hq (Option.some.inj heq)
    · exact h key'

namespace Keeps

variable {keep keep' : Transaction → Bool} {rm'' : PerKeyRemasterManager}

theorem refl (rm : PerKeyRemasterManager) : Keeps (fun _ => true) rm rm :=
  ⟨fun _ => (filter_eq_self.mpr fun _ _ => rfl).symm, fun h => h⟩

theorem trans (h : Keeps keep rm rm') (h' : Keeps keep' rm' rm'') :
    Keeps (fun t => keep' t && keep t) rm rm'' := by
  refine ⟨fun key => ?_, fun hne => h'.nonempty (h.nonempty hne)⟩
  rw [h'.queue, h.queue, List.filter_filter]

theorem mem_iff (h : Keeps keep rm rm') {key : Key} {e : Transaction × ℕ} :
    e ∈ rm'.queue key ↔ e ∈ rm.queue key ∧ keep e.1 = true := by
  rw [h.queue, mem_filter]

theorem waiting_iff (h : Keeps keep rm rm') : rm'.Waiting t ↔ rm.Waiting t ∧ keep t = true := by
  constructor
  · rintro ⟨key, ht⟩
    obtain ⟨e, he, rfl⟩ := mem_map.mp ht
    obtain ⟨he, hkeep⟩ := h.mem_iff.mp he
    exact ⟨waiting_of_mem he, hkeep⟩
  · rintro ⟨⟨key, ht⟩, hkeep⟩
    obtain ⟨e, he, rfl⟩ := mem_map.mp ht
    exact waiting_of_mem (h.mem_iff.mpr ⟨he, hkeep⟩)

theorem count_eq (h : Keeps keep rm rm') (hkeep : keep t = true) (key : Key) :
    ((rm'.queue key).map Prod.fst).count t = ((rm.queue key).map Prod.fst).count t := by
  have hmap : ((rm.queue key).filter fun e => keep e.1).map Prod.fst =
      ((rm.queue key).map Prod.fst).filter keep := (List.filter_map).symm
  rw [h.queue, hmap, count_filter hkeep]

end Keeps

/-- Taking transactions out keeps the queues well formed. -/
theorem WellFormed.keeps (h : WellFormed arrived rm) (hk : Keeps keep rm rm') :
    WellFormed arrived rm' where
  sorted key := by
    rw [hk.queue]
    exact (h.sorted key).filter _
  firstCome key c := by
    rw [hk.queue, filter_comm]
    exact (filter_sublist.map _).trans (h.firstCome key c)
  member t ht key := by
    obtain ⟨hwaiting, hkeep⟩ := hk.waiting_iff.mp ht
    rw [hk.count_eq hkeep]
    exact h.member t hwaiting key
  counter key e he := h.counter key e (hk.mem_iff.mp he).1
  nonempty := hk.nonempty h.nonempty

/-! ## The parts of a transaction -/

/-- The queues have parts of the transactions, and each part stands once in the queues of the keys of its
home. -/
structure Placed (txns : TxnId → Transaction) (rm : PerKeyRemasterManager) : Prop where
  part : ∀ t, rm.Waiting t → ∃ home, t = lockOnly txns t.id home
  member : ∀ t, rm.Waiting t → ∀ key, ((rm.queue key).map Prod.fst).count t =
    if key ∈ t.homeKeys then 1 else 0

theorem Placed.keeps (h : Placed txns rm) (hk : Keeps keep rm rm') :
    Placed txns rm' where
  part t ht := h.part t (hk.waiting_iff.mp ht).1
  member t ht key := by
    obtain ⟨hwaiting, hkeep⟩ := hk.waiting_iff.mp ht
    rw [hk.count_eq hkeep]
    exact h.member t hwaiting key

theorem Placed.mem_homeKeys (h : Placed txns rm) (he : e ∈ rm.queue key) : key ∈ e.1.homeKeys := by
  have hcount := h.member e.1 (waiting_of_mem he) key
  by_contra hnot
  rw [if_neg hnot] at hcount
  exact count_eq_zero.mp hcount (mem_map_of_mem he)

theorem Placed.queued (h : Placed txns rm) : rm.Queued := fun _ _ he => h.mem_homeKeys he

theorem mem_homeKeys_iff :
    key ∈ t.homeKeys ↔ ∃ kv ∈ t.keys, (kv.master : ℤ) = t.home ∧ kv.key = key := by
  simp [Transaction.homeKeys, Transaction.homeEntries, and_assoc]

/-- A part that has a key of its home has the master of this key as its home. -/
theorem home_eq_of_mem (hkeys : DistinctKeys txns) {id : TxnId} {home home' : RegionId}
    (h : key ∈ (lockOnly txns id home).homeKeys) (h' : key ∈ (lockOnly txns id home').homeKeys) :
    home = home' := by
  obtain ⟨kv, hkv, hhome, hkey⟩ := mem_homeKeys_iff.mp h
  obtain ⟨kv', hkv', hhome', hkey'⟩ := mem_homeKeys_iff.mp h'
  obtain rfl : kv = kv' := inj_on_of_nodup_map (hkeys id) hkv hkv' (hkey.trans hkey'.symm)
  exact Int.ofNat_inj.mp (hhome.symm.trans hhome')

/-- Two parts of a transaction do not stand in one queue. -/
theorem Placed.eq_of_id (h : Placed txns rm) (hkeys : DistinctKeys txns) {e' : Transaction × ℕ}
    (he : e ∈ rm.queue key) (he' : e' ∈ rm.queue key) (hid : e.1.id = e'.1.id) : e.1 = e'.1 := by
  obtain ⟨home, hpart⟩ := h.part e.1 (waiting_of_mem he)
  obtain ⟨home', hpart'⟩ := h.part e'.1 (waiting_of_mem he')
  have hmem := h.mem_homeKeys he
  have hmem' := h.mem_homeKeys he'
  rw [hpart] at hmem
  rw [hpart', ← hid] at hmem'
  rw [hpart, hpart', ← hid, home_eq_of_mem hkeys hmem hmem']

/-- A queue has one entry of a transaction at most. -/
theorem Placed.pairwise_id (h : Placed txns rm) (hkeys : DistinctKeys txns) (key : Key) :
    (rm.queue key).Pairwise fun e e' => e.1.id ≠ e'.1.id := by
  have hnodup : ((rm.queue key).map Prod.fst).Nodup := by
    rw [nodup_iff_count_le_one]
    intro t
    by_cases ht : t ∈ (rm.queue key).map Prod.fst
    · rw [h.member t ⟨key, ht⟩ key]
      split_ifs <;> decide
    · rw [count_eq_zero.mpr ht]
      exact Nat.zero_le 1
  rw [nodup_iff_pairwise_ne, pairwise_map] at hnodup
  exact hnodup.imp_of_mem fun he he' hne hid => hne (h.eq_of_id hkeys he he' hid)

theorem eraseP_eq_filter {α : Type*} {p : α → Bool} {l : List α}
    (h : l.Pairwise fun a b => ¬ (p a = true ∧ p b = true)) : l.eraseP p = l.filter fun a => !p a := by
  induction l with
  | nil => rfl
  | cons a l ih =>
    obtain ⟨hhead, hrest⟩ := pairwise_cons.mp h
    rw [eraseP_cons, filter_cons]
    cases hp : p a with
    | true =>
      have hself : l.filter (fun a => !p a) = l := filter_eq_self.mpr fun b hb => by
        simpa using fun hpb => hhead b hb ⟨hp, hpb⟩
      simp [hself]
    | false => simp [ih hrest]

/-- One step of the first loop of `ReleaseTransaction`, for a transaction that stands in the queue once at
most. -/
theorem queue_eraseTxn (id : TxnId) (h : (rm.queue key).Pairwise fun e e' => e.1.id ≠ e'.1.id)
    (key' : Key) :
    (eraseTxn id rm key).queue key' =
      if key' = key then (rm.queue key).filter fun e => e.1.id ≠ id else rm.queue key' := by
  rw [eraseTxn, queue_setQueue]
  split_ifs
  · rw [eraseP_eq_filter]
    · exact filter_congr fun e _ => by simp
    · refine h.imp fun hne hand => hne ?_
      rw [of_decide_eq_true hand.1, of_decide_eq_true hand.2]
  · rfl

/-- **Releasing a transaction** takes all parts of it out of all queues. -/
theorem Placed.removeTxn (h : Placed txns rm) (hkeys : DistinctKeys txns) (id : TxnId)
    (home : RegionId) :
    Keeps (fun u => u.id ≠ id) rm (rm.removeTxn (lockOnly txns id home)) := by
  have hgen : ∀ (keys : List Key) (rm : PerKeyRemasterManager),
      (∀ key, (rm.queue key).Pairwise fun e e' => e.1.id ≠ e'.1.id) →
      (∀ key, (keys.foldl (eraseTxn id) rm).queue key =
        if key ∈ keys then (rm.queue key).filter fun e => e.1.id ≠ id else rm.queue key) ∧
      ((∀ key, rm.blockedQueue.lookup key ≠ some []) →
        ∀ key, (keys.foldl (eraseTxn id) rm).blockedQueue.lookup key ≠ some []) := by
    intro keys
    induction keys with
    | nil => exact fun _ _ => ⟨fun _ => (if_neg not_mem_nil).symm, fun hne => hne⟩
    | cons k keys ih =>
      intro rm hpair
      have hqueue := queue_eraseTxn id (hpair k)
      have hpair₁ : ∀ key, ((eraseTxn id rm k).queue key).Pairwise
          fun e e' => e.1.id ≠ e'.1.id := by
        intro key
        rw [hqueue]
        split_ifs with hk
        · exact (hpair k).filter _
        · exact hpair key
      obtain ⟨hrest, hne⟩ := ih _ hpair₁
      refine ⟨fun key => ?_, fun h0 => hne (nonempty_setQueue h0)⟩
      rw [foldl_cons, hrest, hqueue]
      by_cases hk : key = k
      · subst hk
        simp
      · simp [hk]
  obtain ⟨hqueue, hne⟩ := hgen ((txns id).keys.map KeyValueEntry.key) rm (h.pairwise_id hkeys)
  refine ⟨fun key => ?_, hne⟩
  refine (hqueue key).trans (ite_eq_left_iff.mpr fun hnot => ?_)
  -- a queue of another key has no part of the transaction
  refine (filter_eq_self.mpr fun e he => decide_eq_true ?_).symm
  intro hid
  refine hnot ?_
  obtain ⟨home', hpart⟩ := h.part e.1 (waiting_of_mem he)
  have hmem := homeKeys_subset _ (h.mem_homeKeys he)
  rw [hpart, hid] at hmem
  exact hmem

/-! ## Unblocking a transaction in front -/

theorem inFront_eq_true (h : rm.inFront t keys = some true) :
    ∀ key ∈ keys, ∃ c q, rm.queue key = (t, c) :: q := by
  induction keys with
  | nil => exact nofun
  | cons key keys ih =>
    rw [inFront] at h
    split at h
    · cases h
    · next e q hq =>
        split_ifs at h with heq
        · exact forall_mem_cons.mpr ⟨⟨e.2, q, by rw [hq, ← heq]⟩, ih h⟩
        · cases h

/-- Popping the front of some queues. -/
theorem popFront_spec (hnodup : keys.Nodup) (h : ∀ key ∈ keys, ∃ e q, rm.queue key = e :: q) :
    ∃ rm', keys.foldlM popFront rm = some rm' ∧
      (∀ key, rm'.queue key = if key ∈ keys then (rm.queue key).tail else rm.queue key) ∧
      ((∀ key, rm.blockedQueue.lookup key ≠ some []) →
        ∀ key, rm'.blockedQueue.lookup key ≠ some []) := by
  induction keys generalizing rm with
  | nil => exact ⟨rm, rfl, fun _ => (if_neg not_mem_nil).symm, fun hne => hne⟩
  | cons k keys ih =>
    obtain ⟨hnot, hnodup⟩ := nodup_cons.mp hnodup
    obtain ⟨⟨e, q, hq⟩, hrest⟩ := forall_mem_cons.mp h
    have hother : ∀ key ∈ keys, (rm.setQueue k q).queue key = rm.queue key := by
      intro key hkey
      rw [queue_setQueue, if_neg (ne_of_mem_of_not_mem hkey hnot)]
    have hpop : popFront rm k = some (rm.setQueue k q) := by rw [popFront, hq]
    obtain ⟨rm', hrm', hqueue, hne⟩ := ih hnodup fun key hkey => hother key hkey ▸ hrest key hkey
    refine ⟨rm', ?_, fun key => ?_, fun h0 => hne (nonempty_setQueue h0)⟩
    · rw [foldlM_cons, hpop]
      exact hrm'
    · rw [hqueue, queue_setQueue]
      by_cases hk : key = k
      · subst hk
        simp [hnot, hq]
      · simp [hk]

theorem homeKeys_nodup (h : (t.keys.map KeyValueEntry.key).Nodup) : t.homeKeys.Nodup :=
  h.sublist (filter_sublist.map _)

theorem filter_ne_eq_self (h : t ∉ q.map Prod.fst) : q.filter (fun e => decide (e.1 ≠ t)) = q := by
  refine filter_eq_self.mpr fun e he => decide_eq_true ?_
  rintro rfl
  exact h (mem_map_of_mem he)

/-- **Unblocking a transaction** that is in front takes it out of all queues. -/
theorem Placed.popFront (h : Placed txns rm) (hnodup : t.homeKeys.Nodup) (ht : rm.Waiting t)
    (hfront : rm.inFront t t.homeKeys = some true) :
    ∃ rm', t.homeKeys.foldlM PerKeyRemasterManager.popFront rm = some rm' ∧
      Keeps (fun u => u ≠ t) rm rm' := by
  have hheads := inFront_eq_true hfront
  obtain ⟨rm', hrm', hqueue, hne⟩ := popFront_spec hnodup fun key hkey => by
    obtain ⟨c, q, hq⟩ := hheads key hkey
    exact ⟨(t, c), q, hq⟩
  refine ⟨rm', hrm', fun key => ?_, hne⟩
  have hcount := h.member t ht key
  rw [hqueue]
  split_ifs at hcount ⊢ with hkey
  · obtain ⟨c, q, hq⟩ := hheads key hkey
    rw [hq] at hcount ⊢
    have hzero : (q.map Prod.fst).count t = 0 := by simpa using hcount
    simpa using (filter_ne_eq_self (count_eq_zero.mp hzero)).symm
  · exact (filter_ne_eq_self (count_eq_zero.mp hcount)).symm

/-! ## What a call reports -/

/-- From one state to another, transactions that waited were reported, each once, and have left the
queues; with one that is asked to abort all parts of it have left. -/
structure Outcome (keep : Transaction → Bool) (unblocked aborted : List Transaction)
    (s s' : PerKeyRemasterManager × RemasterOccurredResult) : Prop where
  keeps : Keeps keep s.1 s'.1
  unblocked_eq : s'.2.unblocked = s.2.unblocked ++ unblocked
  aborted_eq : s'.2.shouldAbort = s.2.shouldAbort ++ aborted
  waiting : ∀ t ∈ unblocked ++ aborted, s.1.Waiting t ∧ keep t = false
  nodup : (unblocked ++ aborted).Nodup
  abortedIds : (aborted.map Transaction.id).Nodup
  abortedParts : ∀ t ∈ aborted, ∀ u : Transaction, u.id = t.id → keep u = false

variable {s s' s'' : PerKeyRemasterManager × RemasterOccurredResult}

theorem Outcome.refl (s : PerKeyRemasterManager × RemasterOccurredResult) :
    Outcome (fun _ => true) [] [] s s where
  keeps := Keeps.refl _
  unblocked_eq := (append_nil _).symm
  aborted_eq := (append_nil _).symm
  waiting := fun _ h => absurd h not_mem_nil
  nodup := nodup_nil
  abortedIds := nodup_nil
  abortedParts := fun _ h => absurd h not_mem_nil

theorem Outcome.trans {keep' : Transaction → Bool} {us us' as as' : List Transaction}
    (h : Outcome keep us as s s') (h' : Outcome keep' us' as' s' s'') :
    Outcome (fun t => keep' t && keep t) (us ++ us') (as ++ as') s s'' := by
  have hperm : ((us ++ us') ++ (as ++ as')).Perm ((us ++ as) ++ (us' ++ as')) := by
    rw [append_assoc, append_assoc]
    refine Perm.append_left us ?_
    rw [← append_assoc, ← append_assoc]
    exact perm_append_comm.append_right as'
  -- what is reported later was kept before
  have hkept : ∀ t ∈ us' ++ as', s.1.Waiting t ∧ keep t = true ∧ keep' t = false := by
    intro t ht
    obtain ⟨hwaiting, hgone⟩ := h'.waiting t ht
    obtain ⟨hwaiting, hkeep⟩ := h.keeps.waiting_iff.mp hwaiting
    exact ⟨hwaiting, hkeep, hgone⟩
  refine ⟨h.keeps.trans h'.keeps, ?_, ?_, fun t ht => ?_, ?_, ?_, fun t ht u hu => ?_⟩
  · rw [h'.unblocked_eq, h.unblocked_eq, append_assoc]
  · rw [h'.aborted_eq, h.aborted_eq, append_assoc]
  · rcases mem_append.mp (hperm.mem_iff.mp ht) with ht | ht
    · obtain ⟨hwaiting, hgone⟩ := h.waiting t ht
      exact ⟨hwaiting, by rw [hgone, Bool.and_false]⟩
    · obtain ⟨hwaiting, -, hgone⟩ := hkept t ht
      exact ⟨hwaiting, by rw [hgone, Bool.false_and]⟩
  · refine hperm.nodup_iff.mpr (nodup_append'.mpr ⟨h.nodup, h'.nodup, fun t ht ht' => ?_⟩)
    have hgone := (h.waiting t ht).2
    rw [(hkept t ht').2.1] at hgone
    cases hgone
  · rw [map_append]
    refine nodup_append'.mpr ⟨h.abortedIds, h'.abortedIds, fun id hid hid' => ?_⟩
    obtain ⟨t, ht, rfl⟩ := mem_map.mp hid
    obtain ⟨u, hu, heq⟩ := mem_map.mp hid'
    have hgone := h.abortedParts t ht u heq
    rw [(hkept u (mem_append_right _ hu)).2.1] at hgone
    cases hgone
  · rcases mem_append.mp ht with ht | ht
    · rw [h.abortedParts t ht u hu, Bool.and_false]
    · rw [h'.abortedParts t ht u hu, Bool.false_and]

/-- The outcome of the steps of a loop. -/
theorem outcome_foldlM
    (hf : ∀ s s' key, Placed txns s.1 → f s key = some s' → ∃ keep us as, Outcome keep us as s s')
    (h : Placed txns s.1) (hs : keys.foldlM f s = some s') : ∃ keep us as, Outcome keep us as s s' := by
  induction keys generalizing s with
  | nil =>
    obtain rfl := Option.some.inj hs
    exact ⟨_, _, _, Outcome.refl s⟩
  | cons key keys ih =>
    rw [foldlM_cons, bind_eq_bind, bind_eq_some_iff] at hs
    obtain ⟨s₁, hs₁, hs⟩ := hs
    obtain ⟨keep, us, as, houtcome⟩ := hf s s₁ key h hs₁
    obtain ⟨keep', us', as', houtcome'⟩ := ih (h.keeps houtcome.keeps) hs
    exact ⟨_, _, _, houtcome.trans houtcome'⟩

/-- The front of a queue is asked to abort. -/
theorem Placed.outcome_abort (h : Placed txns s.1) (hkeys : DistinctKeys txns)
    (ht : s.1.Waiting t) :
    Outcome (fun u => u.id ≠ t.id) [] [t] s
      (s.1.removeTxn t, { s.2 with shouldAbort := s.2.shouldAbort ++ [t] }) := by
  obtain ⟨home, hpart⟩ := h.part t ht
  have hkeeps := h.removeTxn hkeys t.id home
  rw [← hpart] at hkeeps
  refine ⟨hkeeps, (append_nil _).symm, rfl, forall_mem_singleton.mpr ⟨ht, by simp⟩,
    nodup_singleton t, nodup_singleton _, forall_mem_singleton.mpr fun u hu => ?_⟩
  simp [hu]

/-- The front of its queues is unblocked. -/
theorem Placed.outcome_unblock (h : Placed txns s.1) (hkeys : DistinctKeys txns)
    (ht : s.1.Waiting t) (hfront : s.1.inFront t t.homeKeys = some true) :
    ∃ rm', t.homeKeys.foldlM PerKeyRemasterManager.popFront s.1 = some rm' ∧
      Outcome (fun u => u ≠ t) [t] [] s
        (rm', { s.2 with unblocked := s.2.unblocked ++ [t] }) := by
  obtain ⟨home, hpart⟩ := h.part t ht
  have hnodup : t.homeKeys.Nodup := by
    rw [hpart]
    exact homeKeys_nodup (hkeys _)
  obtain ⟨rm', hrm', hkeeps⟩ := h.popFront hnodup ht hfront
  refine ⟨rm', hrm', hkeeps, rfl, (append_nil _).symm,
    forall_mem_singleton.mpr ⟨ht, by simp⟩, nodup_singleton t, nodup_nil,
    fun _ h => absurd h not_mem_nil⟩

/-- **What `TryToUnblock` reports.** -/
theorem tryToUnblock_outcome (hkeys : DistinctKeys txns) (depth : ℕ) :
    ∀ s s' key, Placed txns s.1 → tryToUnblock storage depth s key = some s' →
      ∃ keep us as, Outcome keep us as s s' := by
  induction depth with
  | zero =>
    intro s s' key _ hs
    cases hs
    exact ⟨_, _, _, Outcome.refl s⟩
  | succ depth ih =>
    intro s s' key h hs
    rw [tryToUnblock] at hs
    cases hq : s.1.queue key with
    | nil =>
      rw [hq] at hs
      cases hs
      exact ⟨_, _, _, Outcome.refl s⟩
    | cons e q =>
      obtain ⟨t, c⟩ := e
      rw [hq] at hs
      dsimp only at hs
      have ht : s.1.Waiting t := ⟨key, hq ▸ mem_cons_self⟩
      cases hcheck : t.checkCounters true storage with
      | none =>
        rw [hcheck] at hs
        cases hs
      | some result =>
        rw [hcheck] at hs
        cases result with
        | waiting =>
          cases hs
          exact ⟨_, _, _, Outcome.refl s⟩
        | abort =>
          have hfirst := h.outcome_abort hkeys ht
          obtain ⟨keep, us, as, hrest⟩ := outcome_foldlM ih (h.keeps hfirst.keeps) hs
          exact ⟨_, _, _, hfirst.trans hrest⟩
        | valid =>
          dsimp only at hs
          cases hfront : s.1.inFront t t.homeKeys with
          | none =>
            rw [hfront] at hs
            cases hs
          | some front =>
            rw [hfront] at hs
            cases front with
            | false =>
              cases hs
              exact ⟨_, _, _, Outcome.refl s⟩
            | true =>
              obtain ⟨rm', hpop, hfirst⟩ := h.outcome_unblock hkeys ht hfront
              dsimp only at hs
              rw [hpop, bind_some] at hs
              obtain ⟨keep, us, as, hrest⟩ :=
                outcome_foldlM ih (h.keeps hfirst.keeps) hs
              exact ⟨_, _, _, hfirst.trans hrest⟩

/-! ## The recursion ends -/

/-- The recursion only shortens queues. -/
theorem below_foldlM (hf : ∀ s s' key, f s key = some s' → Below s.1 s'.1)
    (hs : keys.foldlM f s = some s') : Below s.1 s'.1 := by
  induction keys generalizing s with
  | nil =>
    cases hs
    exact Below.refl _
  | cons key keys ih =>
    rw [foldlM_cons, bind_eq_bind, bind_eq_some_iff] at hs
    obtain ⟨s₁, hs₁, hs⟩ := hs
    exact (hf s s₁ key hs₁).trans (ih hs)

theorem tryToUnblock_below (depth : ℕ) :
    ∀ s s' key, tryToUnblock storage depth s key = some s' → Below s.1 s'.1 := by
  induction depth with
  | zero =>
    intro s s' key hs
    cases hs
    exact Below.refl _
  | succ depth ih =>
    intro s s' key hs
    rw [tryToUnblock] at hs
    split at hs
    · cases hs
      exact Below.refl _
    · split at hs
      · cases hs
      · cases hs
        exact Below.refl _
      · exact Shrinks.removeTxn.toBelow.trans (below_foldlM ih hs)
      · split at hs
        · cases hs
        · cases hs
          exact Below.refl _
        · obtain ⟨rm', hpop, hs⟩ := bind_eq_some_iff.mp hs
          exact (Shrinks.popFront (Subset.refl _) hpop).toBelow.trans (below_foldlM ih hs)

/-- Two bounds give the same loop if they give the same steps on states with fewer entries. -/
theorem foldlM_depth {depth' n : ℕ} (h : ∀ s key, s.1.size < n → s.1.Queued →
      tryToUnblock storage depth s key = tryToUnblock storage depth' s key) (keys : List Key)
    (hsize : s.1.size < n) (hqueued : s.1.Queued) :
    keys.foldlM (tryToUnblock storage depth) s = keys.foldlM (tryToUnblock storage depth') s := by
  induction keys generalizing s with
  | nil => rfl
  | cons key keys ih =>
    rw [foldlM_cons, foldlM_cons, h s key hsize hqueued]
    refine bind_congr fun s₁ hs₁ => ?_
    have hbelow := tryToUnblock_below depth' s s₁ key hs₁
    exact ih (hbelow.size_le.trans_lt hsize) (hqueued.below hbelow)

/-- **The recursion of `TryToUnblock` ends**: its depth is bounded by the number of entries. -/
theorem tryToUnblock_depth (depth depth' : ℕ) :
    ∀ s key, s.1.size < depth → s.1.size < depth' → s.1.Queued →
      tryToUnblock storage depth s key = tryToUnblock storage depth' s key := by
  induction depth generalizing depth' with
  | zero => exact fun s key h => absurd h (Nat.not_lt_zero _)
  | succ depth ih =>
    intro s key hsize hsize' hqueued
    cases depth' with
    | zero => exact absurd hsize' (Nat.not_lt_zero _)
    | succ depth' =>
      rw [tryToUnblock, tryToUnblock]
      cases hq : s.1.queue key with
      | nil => rfl
      | cons e q =>
        obtain ⟨t, c⟩ := e
        dsimp only
        have hmem : (t, c) ∈ s.1.queue key := hq ▸ mem_cons_self
        have hhome : key ∈ t.homeKeys := hqueued key _ hmem
        have hless : ∀ s₁ key, s₁.1.size < s.1.size → s₁.1.Queued →
            tryToUnblock storage depth s₁ key = tryToUnblock storage depth' s₁ key :=
          fun s₁ key hs₁ => ih depth' s₁ key (by omega) (by omega)
        split
        · rfl
        · rfl
        · exact foldlM_depth hless _ (size_removeTxn_lt (homeKeys_subset t hhome) hmem rfl)
            (hqueued.below Shrinks.removeTxn.toBelow)
        · split
          · rfl
          · rfl
          · refine bind_congr fun rm' hpop => ?_
            exact foldlM_depth hless _ (size_popFront_lt (ne_nil_of_mem hhome) hpop)
              (hqueued.below (Shrinks.popFront (Subset.refl _) hpop).toBelow)

/-- `CheckCounters` does not fail for a waiting transaction. -/
def Answers (storage : Storage) (rm : PerKeyRemasterManager) : Prop :=
  ∀ t, rm.Waiting t → (t.checkCounters true storage).isSome

theorem Answers.keeps (h : Answers storage rm) (hk : Keeps keep rm rm') :
    Answers storage rm' := fun t ht => h t (hk.waiting_iff.mp ht).1

theorem isSome_foldlM (hkeys : DistinctKeys txns) (hf : ∀ s key, Placed txns s.1 → Answers storage s.1 →
      (tryToUnblock storage depth s key).isSome) (keys : List Key) (h : Placed txns s.1)
    (ha : Answers storage s.1) : (keys.foldlM (tryToUnblock storage depth) s).isSome := by
  induction keys generalizing s with
  | nil => rfl
  | cons key keys ih =>
    obtain ⟨s₁, hs₁⟩ := isSome_iff_exists.mp (hf s key h ha)
    obtain ⟨keep, us, as, houtcome⟩ := tryToUnblock_outcome hkeys depth s s₁ key h hs₁
    rw [foldlM_cons, hs₁]
    exact ih (h.keeps houtcome.keeps) (ha.keeps houtcome.keeps)

theorem inFront_isSome (h : ∀ key ∈ keys, rm.queue key ≠ []) : (rm.inFront t keys).isSome := by
  induction keys with
  | nil => rfl
  | cons key keys ih =>
    obtain ⟨hne, hrest⟩ := forall_mem_cons.mp h
    obtain ⟨e, q, hq⟩ := exists_cons_of_ne_nil hne
    rw [inFront, hq]
    dsimp only
    split_ifs
    · exact ih hrest
    · rfl

/-- **`TryToUnblock` returns** if `CheckCounters` does: a transaction is in the queues in which it is
looked up. -/
theorem tryToUnblock_isSome (hkeys : DistinctKeys txns) (depth : ℕ) :
    ∀ s key, Placed txns s.1 → Answers storage s.1 → (tryToUnblock storage depth s key).isSome := by
  induction depth with
  | zero => exact fun _ _ _ _ => rfl
  | succ depth ih =>
    intro s key h ha
    rw [tryToUnblock]
    cases hq : s.1.queue key with
    | nil => rfl
    | cons e q =>
      obtain ⟨t, c⟩ := e
      dsimp only
      have ht : s.1.Waiting t := ⟨key, hq ▸ mem_cons_self⟩
      obtain ⟨result, hresult⟩ := isSome_iff_exists.mp (ha t ht)
      rw [hresult]
      cases result with
      | waiting => rfl
      | abort =>
        have hfirst := h.outcome_abort hkeys ht
        exact isSome_foldlM hkeys ih _ (h.keeps hfirst.keeps) (ha.keeps hfirst.keeps)
      | valid =>
        dsimp only
        have hqueues : ∀ key ∈ t.homeKeys, s.1.queue key ≠ [] := by
          intro key hkey hnil
          have hcount := h.member t ht key
          rw [if_pos hkey, hnil] at hcount
          cases hcount
        obtain ⟨front, hfront⟩ := isSome_iff_exists.mp (inFront_isSome hqueues)
        rw [hfront]
        cases front with
        | false => rfl
        | true =>
          obtain ⟨rm', hpop, hfirst⟩ := h.outcome_unblock hkeys ht hfront
          dsimp only
          rw [hpop]
          exact isSome_foldlM hkeys ih _ (h.keeps hfirst.keeps) (ha.keeps hfirst.keeps)

/-! ## The arrival of a transaction -/

/-- A queue with a new entry. -/
def place (q : List (Transaction × ℕ)) (e : Transaction × ℕ) : List (Transaction × ℕ) :=
  q.takeWhile (fun e' => e'.2 ≤ e.2) ++ e :: q.dropWhile fun e' => e'.2 ≤ e.2

theorem place_perm (q : List (Transaction × ℕ)) (e : Transaction × ℕ) :
    (place q e).Perm (e :: q) := by
  refine perm_middle.trans (Perm.cons e ?_)
  rw [takeWhile_append_dropWhile]

theorem lt_of_mem_dropWhile {c : ℕ} (h : q.Pairwise fun e e' => e.2 ≤ e'.2)
    (he : e ∈ q.dropWhile fun e' => e'.2 ≤ c) : c < e.2 := by
  induction q with
  | nil => cases he
  | cons a q ih =>
    obtain ⟨hhead, hrest⟩ := pairwise_cons.mp h
    rw [dropWhile_cons] at he
    split_ifs at he with ha
    · exact ih hrest he
    · have hlt : c < a.2 := not_le.mp fun hle => ha (decide_eq_true hle)
      rcases mem_cons.mp he with rfl | he
      · exact hlt
      · exact hlt.trans_le (hhead e he)

theorem sorted_place (h : q.Pairwise fun e e' => e.2 ≤ e'.2) (e : Transaction × ℕ) :
    (place q e).Pairwise fun e e' => e.2 ≤ e'.2 := by
  have hbefore : ∀ a ∈ q.takeWhile (fun e' => e'.2 ≤ e.2), a.2 ≤ e.2 := by
    intro a ha
    simpa using mem_takeWhile_imp ha
  have hafter : ∀ a ∈ q.dropWhile (fun e' => e'.2 ≤ e.2), e.2 < a.2 := fun a ha =>
    lt_of_mem_dropWhile h ha
  refine pairwise_append.mpr ⟨h.sublist (takeWhile_sublist _), pairwise_cons.mpr
    ⟨fun a ha => (hafter a ha).le, h.sublist (dropWhile_sublist _)⟩, fun a ha b hb => ?_⟩
  rcases mem_cons.mp hb with rfl | hb
  · exact hbefore a ha
  · exact (hbefore a ha).trans (hafter b hb).le

/-- A new entry comes last among those with its counter. -/
theorem filter_place (h : q.Pairwise fun e e' => e.2 ≤ e'.2) (e : Transaction × ℕ) (c : ℕ) :
    (place q e).filter (fun e' => e'.2 = c) =
      q.filter (fun e' => e'.2 = c) ++ if e.2 = c then [e] else [] := by
  have hsplit : q.filter (fun e' => e'.2 = c) =
      (q.takeWhile fun e' => e'.2 ≤ e.2).filter (fun e' => e'.2 = c) ++
        (q.dropWhile fun e' => e'.2 ≤ e.2).filter (fun e' => e'.2 = c) := by
    rw [← filter_append, takeWhile_append_dropWhile]
  rw [place, filter_append, filter_cons, hsplit]
  by_cases hc : e.2 = c
  · have hnil : (q.dropWhile fun e' => e'.2 ≤ e.2).filter (fun e' => e'.2 = c) = [] := by
      rw [filter_eq_nil_iff]
      intro a ha heq
      exact absurd (of_decide_eq_true heq) (hc ▸ (lt_of_mem_dropWhile h ha).ne')
    rw [hnil, if_pos (decide_eq_true hc), if_pos hc, append_nil]
  · rw [if_neg (by simpa using hc), if_neg hc, append_nil]

/-- Where a new transaction is put. -/
theorem queue_addToQueues (rm : PerKeyRemasterManager) (hnodup : t.homeKeys.Nodup) (key : Key) :
    (∃ kv ∈ t.homeEntries, kv.key = key ∧
      (rm.addToQueues t).queue key = place (rm.queue key) (t, kv.counter)) ∨
    key ∉ t.homeKeys ∧ (rm.addToQueues t).queue key = rm.queue key := by
  rw [addToQueues]
  rw [Transaction.homeKeys] at hnodup ⊢
  generalize t.homeEntries = kvs at hnodup
  induction kvs generalizing rm with
  | nil => exact .inr ⟨not_mem_nil, rfl⟩
  | cons kv kvs ih =>
    rw [map_cons, nodup_cons] at hnodup
    rw [foldl_cons, map_cons, mem_cons]
    have hfirst : (rm.insertIntoBlockedQueue kv.key kv.counter t).queue key =
        if key = kv.key then place (rm.queue kv.key) (t, kv.counter) else rm.queue key :=
      queue_setQueue _ _ _
    rcases ih _ hnodup.2 with ⟨kv', hkv', hkey, heq⟩ | ⟨hnot, heq⟩
    · have hne : key ≠ kv.key := by
        rintro rfl
        exact hnodup.1 (hkey ▸ mem_map_of_mem hkv')
      rw [hfirst, if_neg hne] at heq
      exact .inl ⟨kv', mem_cons_of_mem _ hkv', hkey, heq⟩
    · by_cases hkey : key = kv.key
      · rw [hfirst, if_pos hkey] at heq
        exact .inl ⟨kv, mem_cons_self, hkey.symm, hkey ▸ heq⟩
      · rw [hfirst, if_neg hkey] at heq
        exact .inr ⟨by simp [hkey, hnot], heq⟩

theorem nonempty_addToQueues (h : ∀ key, rm.blockedQueue.lookup key ≠ some []) :
    ∀ key, (rm.addToQueues t).blockedQueue.lookup key ≠ some [] := by
  rw [addToQueues]
  generalize t.homeEntries = kvs
  induction kvs generalizing rm with
  | nil => exact h
  | cons kv kvs ih => exact ih (nonempty_setQueue h)

theorem count_addToQueues (hnodup : t.homeKeys.Nodup) (u : Transaction) (key : Key) :
    (((rm.addToQueues t).queue key).map Prod.fst).count u =
      ((rm.queue key).map Prod.fst).count u + if u = t ∧ key ∈ t.homeKeys then 1 else 0 := by
  rcases queue_addToQueues rm hnodup key with ⟨kv, hkv, hkey, heq⟩ | ⟨hnot, heq⟩
  · have hmem : key ∈ t.homeKeys := hkey ▸ mem_map_of_mem hkv
    rw [heq, ((place_perm _ _).map Prod.fst).count_eq, map_cons, count_cons]
    simp only [hmem, and_true, beq_iff_eq]
    exact congrArg _ (if_congr eq_comm rfl rfl)
  · rw [heq, if_neg fun hand => hnot hand.2, add_zero]

/-- **The arrival of a transaction** that is not in a queue keeps the queues well formed. -/
theorem WellFormed.addToQueues (h : WellFormed arrived rm) (hnodup : t.homeKeys.Nodup)
    (ht : ¬ rm.Waiting t) :
    WellFormed (arrived ++ [t]) (rm.addToQueues t) where
  sorted key := by
    rcases queue_addToQueues rm hnodup key with ⟨kv, -, -, heq⟩ | ⟨-, heq⟩
    · rw [heq]
      exact sorted_place (h.sorted key) _
    · rw [heq]
      exact h.sorted key
  firstCome key c := by
    rcases queue_addToQueues rm hnodup key with ⟨kv, -, -, heq⟩ | ⟨-, heq⟩
    · rw [heq, filter_place (h.sorted key), map_append]
      refine (h.firstCome key c).append ?_
      split_ifs
      · exact Sublist.refl _
      · exact nil_sublist _
    · rw [heq]
      exact (h.firstCome key c).trans (sublist_append_left _ _)
  member u hu key := by
    rw [count_addToQueues hnodup]
    by_cases hut : u = t
    · subst hut
      have hzero : ((rm.queue key).map Prod.fst).count u = 0 :=
        count_eq_zero.mpr fun hmem => ht ⟨key, hmem⟩
      rw [hzero, zero_add]
      simp
    · have hwaiting : rm.Waiting u := by
        obtain ⟨k, hk⟩ := hu
        have hpos := count_pos_iff.mpr hk
        rw [count_addToQueues hnodup, if_neg fun hand => hut hand.1, add_zero] at hpos
        exact ⟨k, count_pos_iff.mp hpos⟩
      rw [if_neg fun hand => hut hand.1, add_zero]
      exact h.member u hwaiting key
  counter key e he := by
    rcases queue_addToQueues rm hnodup key with ⟨kv, hkv, hkey, heq⟩ | ⟨-, heq⟩
    · rw [heq, (place_perm _ _).mem_iff, mem_cons] at he
      rcases he with rfl | he
      · exact ⟨kv, hkv, hkey, rfl⟩
      · exact h.counter key e he
    · exact h.counter key e (heq ▸ he)
  nonempty := nonempty_addToQueues h.nonempty

theorem WellFormed.arrive (h : WellFormed arrived rm) (t : Transaction) :
    WellFormed (arrived ++ [t]) rm :=
  ⟨h.sorted, fun key c => (h.firstCome key c).trans (sublist_append_left _ _), h.member,
    h.counter, h.nonempty⟩

theorem verifyMaster_cases {result : VerifyMasterResult}
    (h : rm.verifyMaster storage t = some (result, rm')) : rm' = rm ∨ rm' = rm.addToQueues t := by
  rw [verifyMaster] at h
  by_cases hkeys : t.keys = []
  · rw [if_pos hkeys] at h
    exact .inl (Prod.mk.inj (Option.some.inj h)).2.symm
  · rw [if_neg hkeys] at h
    obtain ⟨check, -, heq⟩ := map_eq_some_iff.mp h
    cases check with
    | abort => exact .inl (Prod.mk.inj heq).2.symm
    | waiting => exact .inr (Prod.mk.inj heq).2.symm
    | valid =>
      dsimp only at heq
      split_ifs at heq
      · exact .inr (Prod.mk.inj heq).2.symm
      · exact .inl (Prod.mk.inj heq).2.symm

end PerKeyRemasterManager

/-! ## Runs -/

/-- A call that returns transactions. -/
inductive PerKeyCall where
  | remasterOccured (key : Key)
  | releaseTransaction (id : TxnId) (home : RegionId)
  deriving DecidableEq, Repr

inductive PerKeyEvent where
  | store (key : Key) (record : Option Record)
  | verifyMaster (id : TxnId) (home : RegionId)
  | call (c : PerKeyCall)
  deriving DecidableEq, Repr

/-- The manager with the storage.  `arrived` has the transactions passed to `VerifyMaster`. -/
structure PerKeyHistory where
  manager : PerKeyRemasterManager := {}
  storage : Storage := fun _ => none
  arrived : List Transaction := []

namespace PerKeyHistory

open PerKeyRemasterManager

variable (txns : TxnId → Transaction)

/-- A call in which `TryToUnblock` has a bound on its depth. -/
def callWith (s : PerKeyHistory) (depth : ℕ) :
    PerKeyCall → Option (PerKeyRemasterManager × RemasterOccurredResult)
  | .remasterOccured key => tryToUnblock s.storage depth (s.manager, {}) key
  | .releaseTransaction id home =>
    ((lockOnly txns id home).keys.map KeyValueEntry.key).foldlM (tryToUnblock s.storage depth)
      (s.manager.removeTxn (lockOnly txns id home), {})

def call (s : PerKeyHistory) : PerKeyCall → Option (PerKeyRemasterManager × RemasterOccurredResult)
  | .remasterOccured key => s.manager.remasterOccured s.storage key
  | .releaseTransaction id home => s.manager.releaseTransaction s.storage (lockOnly txns id home)

/-- Records change in any way.  A lock-only transaction that is not in a queue is verified. -/
def step (s : PerKeyHistory) : PerKeyEvent → Option PerKeyHistory
  | .store key record => some { s with storage := Function.update s.storage key record }
  | .verifyMaster id home =>
    let t := lockOnly txns id home
    if ∀ key ∈ t.homeKeys, t ∉ (s.manager.queue key).map Prod.fst then
      (s.manager.verifyMaster s.storage t).map fun r =>
        { s with manager := r.2, arrived := s.arrived ++ [t] }
    else none
  | .call c => (s.call txns c).map fun r => { s with manager := r.1 }

/-- What holds of a call: a larger bound on the depth of the recursion changes nothing, the call returns
if `CheckCounters` does, no transaction is reported twice, and a transaction that is released is not
reported. -/
structure CallOk (s : PerKeyHistory) (c : PerKeyCall) : Prop where
  terminates : ∀ depth, s.manager.size < depth → s.callWith txns depth c = s.call txns c
  returns : s.manager.Answers s.storage → (s.call txns c).isSome
  once : ∀ r ∈ s.call txns c, (r.2.unblocked ++ r.2.shouldAbort).Nodup
  notReleased : ∀ r ∈ s.call txns c, ∀ id home, c = .releaseTransaction id home →
    lockOnly txns id home ∉ r.2.unblocked ++ r.2.shouldAbort

variable {txns} {s s' : PerKeyHistory}

structure Inv (txns : TxnId → Transaction) (s : PerKeyHistory) : Prop where
  wellFormed : s.manager.WellFormed s.arrived
  part : ∀ t, s.manager.Waiting t → ∃ home, t = lockOnly txns t.id home

theorem Inv.placed (h : Inv txns s) : s.manager.Placed txns := ⟨h.part, h.wellFormed.member⟩

/-- The state in which a call starts to unblock transactions, and the keys that it tries. -/
def callStart (txns : TxnId → Transaction) (s : PerKeyHistory) : PerKeyCall → PerKeyRemasterManager
  | .remasterOccured _ => s.manager
  | .releaseTransaction id home => s.manager.removeTxn (lockOnly txns id home)

def callKeys (txns : TxnId → Transaction) : PerKeyCall → List Key
  | .remasterOccured key => [key]
  | .releaseTransaction id home => (lockOnly txns id home).keys.map KeyValueEntry.key

theorem callWith_eq (s : PerKeyHistory) (depth : ℕ) (c : PerKeyCall) : s.callWith txns depth c =
    (callKeys txns c).foldlM (tryToUnblock s.storage depth) (s.callStart txns c, {}) := by
  cases c with
  | remasterOccured key =>
    rw [callKeys, foldlM_cons]
    exact (bind_fun_some _).symm
  | releaseTransaction id home => rfl

theorem call_eq (s : PerKeyHistory) (c : PerKeyCall) :
    s.call txns c = s.callWith txns (s.manager.size + 1) c := by
  cases c <;> rfl

theorem Inv.callStart (h : Inv txns s) (hkeys : DistinctKeys txns) (c : PerKeyCall) :
    (∃ keep, Keeps keep s.manager (s.callStart txns c)) ∧
      (s.callStart txns c).size ≤ s.manager.size ∧
      ∀ id home, c = .releaseTransaction id home →
        ¬ (s.callStart txns c).Waiting (lockOnly txns id home) := by
  cases c with
  | remasterOccured key => exact ⟨⟨_, Keeps.refl _⟩, le_rfl, nofun⟩
  | releaseTransaction id home =>
    have hkeeps := h.placed.removeTxn hkeys id home
    refine ⟨⟨_, hkeeps⟩, Shrinks.removeTxn.size_le, ?_⟩
    rintro id' home' ⟨⟩ hwaiting
    have hkeep := (hkeeps.waiting_iff.mp hwaiting).2
    simp [lockOnly] at hkeep

theorem Inv.call (h : Inv txns s) (hkeys : DistinctKeys txns) {c : PerKeyCall}
    {r : PerKeyRemasterManager × RemasterOccurredResult} (hr : s.call txns c = some r) :
    ∃ keep us as, Outcome keep us as (s.callStart txns c, {}) r := by
  obtain ⟨⟨keep, hkeep⟩, -, -⟩ := h.callStart hkeys c
  rw [call_eq, callWith_eq] at hr
  exact outcome_foldlM (tryToUnblock_outcome hkeys _) (h.placed.keeps hkeep) hr

theorem Inv.callOk (h : Inv txns s) (hkeys : DistinctKeys txns) (c : PerKeyCall) :
    CallOk txns s c := by
  obtain ⟨⟨keep, hkeep⟩, hsize, hreleased⟩ := h.callStart hkeys c
  have hplaced := h.placed.keeps hkeep
  refine ⟨fun depth hdepth => ?_, fun hanswers => ?_, fun r hr => ?_, fun r hr id home hc hmem => ?_⟩
  · rw [call_eq, callWith_eq, callWith_eq]
    refine foldlM_depth (n := s.manager.size + 1) (fun s₁ key hs₁ hqueued =>
      tryToUnblock_depth _ _ s₁ key (by omega) hs₁ hqueued) _ (by dsimp only; omega) hplaced.queued
  · rw [call_eq, callWith_eq]
    exact isSome_foldlM hkeys (tryToUnblock_isSome hkeys _) _ hplaced (hanswers.keeps hkeep)
  · obtain ⟨keep', us, as, houtcome⟩ := h.call hkeys hr
    rw [houtcome.unblocked_eq, houtcome.aborted_eq]
    exact houtcome.nodup
  · obtain ⟨keep', us, as, houtcome⟩ := h.call hkeys hr
    rw [houtcome.unblocked_eq, houtcome.aborted_eq] at hmem
    exact hreleased id home hc (houtcome.waiting _ hmem).1

theorem Inv.keeps (h : Inv txns s) {keep : Transaction → Bool} {rm : PerKeyRemasterManager}
    (hk : Keeps keep s.manager rm) : Inv txns { s with manager := rm } :=
  ⟨h.wellFormed.keeps hk, (h.placed.keeps hk).part⟩

theorem Inv.verifyMaster (h : Inv txns s) (hkeys : DistinctKeys txns) {id : TxnId} {home : RegionId}
    (hs : s.step txns (.verifyMaster id home) = some s') : Inv txns s' := by
  rw [step] at hs
  split_ifs at hs with hnew
  obtain ⟨⟨result, rm⟩, hverify, rfl⟩ := map_eq_some_iff.mp hs
  have hnodup : (lockOnly txns id home).homeKeys.Nodup := homeKeys_nodup (hkeys id)
  have hnot : ¬ s.manager.Waiting (lockOnly txns id home) := by
    rintro ⟨key, hmem⟩
    obtain ⟨e, he, heq⟩ := mem_map.mp hmem
    exact hnew key (heq ▸ h.placed.mem_homeKeys he) hmem
  rcases verifyMaster_cases hverify with rfl | rfl
  · exact ⟨h.wellFormed.arrive _, h.part⟩
  · refine ⟨h.wellFormed.addToQueues hnodup hnot, fun t ht => ?_⟩
    obtain ⟨key, hmem⟩ := ht
    obtain ⟨e, he, rfl⟩ := mem_map.mp hmem
    rcases mem_addToQueues he with he | ⟨heq, -⟩
    · exact h.part e.1 (waiting_of_mem he)
    · exact ⟨home, heq ▸ rfl⟩

theorem Inv.step (h : Inv txns s) (hkeys : DistinctKeys txns) {e : PerKeyEvent}
    (hs : s.step txns e = some s') : Inv txns s' := by
  cases e with
  | store key record =>
    cases hs
    exact ⟨h.wellFormed, h.part⟩
  | verifyMaster id home => exact h.verifyMaster hkeys hs
  | call c =>
    obtain ⟨r, hr, rfl⟩ := map_eq_some_iff.mp hs
    obtain ⟨⟨keep, hkeep⟩, -, -⟩ := h.callStart hkeys c
    obtain ⟨keep', us, as, houtcome⟩ := h.call hkeys hr
    exact h.keeps (hkeep.trans houtcome.keeps)

theorem Inv.init : Inv txns {} where
  wellFormed := by
    constructor
    · exact fun _ => Pairwise.nil
    · exact fun _ _ => Sublist.refl _
    · rintro t ⟨key, ht⟩
      cases ht
    · exact fun _ _ he => absurd he not_mem_nil
    · exact nofun
  part := by
    rintro t ⟨key, ht⟩
    cases ht

/-- Transactions with a key of region `1` that is one ahead of the storage, and transaction `1` with a
key of region `2` besides. -/
def oneAhead (id : TxnId) : Transaction :=
  { internal := { id },
    keys := { key := "A", type := .write, metadata := some { master := 1, counter := 1 } } ::
      if id = 1 then [{ key := "B", type := .write, metadata := some { master := 2, counter := 1 } }]
      else [] }

theorem distinctKeys_oneAhead : DistinctKeys oneAhead := by
  intro id
  by_cases hid : id = 1 <;> simp [oneAhead, hid]

end PerKeyHistory

end Slog
