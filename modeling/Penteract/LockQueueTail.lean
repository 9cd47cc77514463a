/-
# Tails of lock queues

For every key-region the DDR lock manager remembers only the tail of the queue of requests:
the last writer, and the readers after it.  The tail is never cleaned when locks are
released.  This module embeds the tail and the part of `AcquireLocks` that works on the lock
table, and relates both to the full queue of requests, which the code does not keep.  The main
result is that a conflict between two requests of one queue is covered by a chain of the
blocking pairs that the tails report.
-/
import Penteract.Transaction

namespace Slog

open List Function Relation

/-! ## The tail of a queue -/

structure LockQueueTail where
  writeLockRequester : Option TxnId := none
  readLockRequesters : List TxnId := []
  deriving DecidableEq, Repr

namespace LockQueueTail

def acquireReadLock (q : LockQueueTail) (x : TxnId) : LockQueueTail × Option TxnId :=
  ({ q with readLockRequesters := q.readLockRequesters ++ [x] }, q.writeLockRequester)

def acquireWriteLock (q : LockQueueTail) (x : TxnId) : LockQueueTail × List TxnId :=
  let deps := if q.readLockRequesters = [] then q.writeLockRequester.toList
    else q.readLockRequesters
  ({ writeLockRequester := some x, readLockRequesters := [] }, deps)

/-- The switch over the type of a key in `AcquireLocks`: the new tail, and the transactions
that block the request. -/
def acquire (q : LockQueueTail) (x : TxnId) (m : KeyType) : LockQueueTail × List TxnId :=
  match m with
  | .read => let (q', b) := q.acquireReadLock x; (q', b.toList)
  | .write => q.acquireWriteLock x

/-- The transactions that block a request, which do not depend on who makes it. -/
def blockers (q : LockQueueTail) (m : KeyType) : List TxnId :=
  match m with
  | .read => q.writeLockRequester.toList
  | .write => if q.readLockRequesters = [] then q.writeLockRequester.toList
      else q.readLockRequesters

@[simp] theorem acquire_snd (q : LockQueueTail) (x : TxnId) (m : KeyType) :
    (q.acquire x m).2 = q.blockers m := by
  cases m <;> rfl

end LockQueueTail

/-! ## The lock table -/

abbrev LockTable := KeyRegion → LockQueueTail

/-- The loop of `AcquireLocks` over the keys: every request is entered at the tail of its
queue, and the transactions that block it are collected. -/
def LockTable.acquireAll (table : LockTable) (x : TxnId) :
    List (KeyRegion × KeyType) → LockTable × List TxnId
  | [] => (table, [])
  | (k, m) :: rs =>
    let (tail, blocking) := (table k).acquire x m
    let (table', blocking') := LockTable.acquireAll (Function.update table k tail) x rs
    (table', blocking ++ blocking')

/-- `std::sort` followed by `std::unique`. -/
def sortUnique (l : List TxnId) : List TxnId := (l.insertionSort (· ≤ ·)).dedup

variable {x u v : TxnId}

@[simp] theorem mem_sortUnique {l : List TxnId} : x ∈ sortUnique l ↔ x ∈ l := by
  rw [sortUnique, mem_dedup, mem_insertionSort]

theorem sortUnique_nodup (l : List TxnId) : (sortUnique l).Nodup := nodup_dedup _

theorem sortUnique_congr {l l' : List TxnId} (h : ∀ x, x ∈ l ↔ x ∈ l') : sortUnique l = sortUnique l' := by
  have hsorted (l : List TxnId) : (sortUnique l).Pairwise (· ≤ ·) :=
    (pairwise_insertionSort (· ≤ ·) l).sublist (dedup_sublist _)
  refine Perm.eq_of_pairwise' (hsorted l) (hsorted l') ?_
  rw [perm_ext_iff_of_nodup (sortUnique_nodup l) (sortUnique_nodup l')]
  intro x
  rw [mem_sortUnique, mem_sortUnique, h]

/-! ## Queues of requests -/

/-- A request in the queue of one key-region. -/
abbrev Request := TxnId × KeyType

/-- Two requests on one key-region conflict unless both are reads. -/
def Conflict (m m' : KeyType) : Prop := m = .write ∨ m' = .write

instance (m m' : KeyType) : Decidable (Conflict m m') :=
  inferInstanceAs (Decidable (_ ∨ _))

theorem Conflict.symm {m m' : KeyType} (h : Conflict m m') : Conflict m' m := Or.symm h

/-- The tail that the lock table holds after the requests of a queue. -/
def tailOf (q : List Request) : LockQueueTail :=
  q.foldl (fun t r => (t.acquire r.1 r.2).1) {}

/-- `u` is reported as blocking when `v` makes its request in the queue. -/
def Blocks (q : List Request) (u v : TxnId) : Prop :=
  ∃ pre m post, q = pre ++ (v, m) :: post ∧ u ∈ (tailOf pre).blockers m

/-- The first request stands before the second one in the queue and conflicts with it. -/
def ConflictsBefore (q : List Request) (r s : Request) : Prop :=
  [r, s].Sublist q ∧ Conflict r.2 s.2

theorem tailOf_concat (q : List Request) (r : Request) :
    tailOf (q ++ [r]) = ((tailOf q).acquire r.1 r.2).1 := by
  rw [tailOf, foldl_concat]
  rfl

/-- The tail of a queue is its last writer and the readers after it. -/
theorem tailOf_shape (q : List Request) :
    ∃ pre reads, q = pre ++ reads ∧ (∀ r ∈ reads, r.2 = KeyType.read) ∧
      (tailOf q).readLockRequesters = reads.map Prod.fst ∧
      ((pre = [] ∧ (tailOf q).writeLockRequester = none) ∨
        ∃ pre' w, pre = pre' ++ [(w, KeyType.write)] ∧
          (tailOf q).writeLockRequester = some w) := by
  induction q using List.reverseRecOn with
  | nil => exact ⟨[], [], rfl, by simp, rfl, .inl ⟨rfl, rfl⟩⟩
  | append_singleton q r ih =>
    obtain ⟨pre, reads, hq, hreads, hr, hw⟩ := ih
    obtain ⟨x, m⟩ := r
    rw [tailOf_concat]
    cases m with
    | read =>
      refine ⟨pre, reads ++ [(x, .read)], by rw [hq, append_assoc], ?_, ?_, hw⟩
      · intro r hmem
        rcases mem_append.mp hmem with h | h
        · exact hreads r h
        · rw [mem_singleton.mp h]
      · simp [LockQueueTail.acquire, LockQueueTail.acquireReadLock, hr]
    | write =>
      exact ⟨q ++ [(x, .write)], [], by simp, by simp, rfl, .inr ⟨q, x, rfl, rfl⟩⟩

theorem pair_sublist_iff {α : Type*} {l : List α} {r s : α} :
    [r, s].Sublist l ↔ ∃ pre post, l = pre ++ s :: post ∧ r ∈ pre := by
  constructor
  · intro h
    obtain ⟨l₁, l₂, rfl, hr, hs⟩ := append_sublist_iff.mp (show ([r] ++ [s]).Sublist l from h)
    obtain ⟨a, b, rfl⟩ := append_of_mem (singleton_sublist.mp hs)
    exact ⟨l₁ ++ a, b, by rw [append_assoc],
      mem_append_left a (singleton_sublist.mp hr)⟩
  · rintro ⟨pre, post, rfl, hr⟩
    exact (singleton_sublist.mpr hr).append (by simp)

theorem pair_sublist_concat {α : Type*} {l : List α} {r s a : α} :
    [r, s].Sublist (l ++ [a]) ↔ [r, s].Sublist l ∨ (r ∈ l ∧ s = a) := by
  rw [pair_sublist_iff]
  constructor
  · rintro ⟨pre, post, heq, hr⟩
    rcases eq_nil_or_concat' post with rfl | ⟨post', b, rfl⟩
    · obtain ⟨rfl, h⟩ := append_inj' heq rfl
      exact .inr ⟨hr, (List.cons.inj h).1.symm⟩
    · rw [← cons_append, ← append_assoc] at heq
      obtain ⟨rfl, -⟩ := append_inj' heq rfl
      exact .inl (pair_sublist_iff.mpr ⟨pre, post', rfl, hr⟩)
  · rintro (h | ⟨hr, rfl⟩)
    · obtain ⟨pre, post, rfl, hr⟩ := pair_sublist_iff.mp h
      exact ⟨pre, post ++ [a], by simp, hr⟩
    · exact ⟨l, [], rfl, hr⟩

/-- Of two members of a list one comes first. -/
theorem pair_sublist_or {α : Type*} {l : List α} {r s : α} (hr : r ∈ l) (hs : s ∈ l)
    (hne : r ≠ s) : [r, s].Sublist l ∨ [s, r].Sublist l := by
  obtain ⟨pre, post, rfl⟩ := append_of_mem hs
  rcases mem_append.mp hr with h | h
  · exact .inl (pair_sublist_iff.mpr ⟨pre, post, rfl, h⟩)
  · rcases mem_cons.mp h with h | h
    · exact absurd h hne
    · exact .inr (Sublist.trans (cons_sublist_cons.mpr (singleton_sublist.mpr h))
        (sublist_append_right _ _))

theorem pair_sublist_filter {α : Type*} {l : List α} {f : α → Bool} {r s : α} :
    [r, s].Sublist (l.filter f) ↔ [r, s].Sublist l ∧ f r = true ∧ f s = true := by
  constructor
  · intro h
    have hr : r ∈ l.filter f := h.subset (by simp)
    have hs : s ∈ l.filter f := h.subset (by simp)
    exact ⟨h.trans filter_sublist, (mem_filter.mp hr).2, (mem_filter.mp hs).2⟩
  · rintro ⟨h, hr, hs⟩
    have := h.filter f
    rwa [filter_cons_of_pos hr, filter_cons_of_pos hs, filter_nil] at this

variable {r s : Request} {q : List Request}

theorem ConflictsBefore.mem (h : ConflictsBefore q r s) : r ∈ q ∧ s ∈ q :=
  ⟨h.1.subset (by simp), h.1.subset (by simp)⟩

variable {q' : List Request} {table : LockTable}

theorem ConflictsBefore.mono (h : ConflictsBefore q r s) (hq : q.Sublist q') : ConflictsBefore q' r s :=
  ⟨h.1.trans hq, h.2⟩

/-- How an earlier request keeps back a later one that conflicts with it: it is a blocker, or
the last writer `w` comes at or after it, and that is a blocker or comes before a reader that is
one. -/
theorem blocker_cases {m : KeyType} (hr : r ∈ q) (hc : Conflict r.2 m) :
    r.1 ∈ (tailOf q).blockers m ∨
      ∃ w, (w, KeyType.write) ∈ q ∧
        (r = (w, .write) ∨ ConflictsBefore q r (w, .write)) ∧
        (w ∈ (tailOf q).blockers m ∨
          ∃ s, ConflictsBefore q (w, .write) s ∧ m = .write ∧ s.1 ∈ (tailOf q).blockers m) := by
  obtain ⟨pre, reads, rfl, hreads, htr, hw⟩ := tailOf_shape q
  rcases mem_append.mp hr with hpre | h
  swap
  · -- A reader after the last writer is itself a blocker of the writers that follow.
    have hm : m = .write := hc.resolve_left (by rw [hreads r h]; decide)
    have hne : reads ≠ [] := ne_nil_of_mem h
    rw [hm, LockQueueTail.blockers, htr, if_neg (by simpa using hne)]
    exact .inl (mem_map_of_mem h)
  rcases hw with ⟨rfl, -⟩ | ⟨pre', w, rfl, hw⟩
  · cases hpre
  refine .inr ⟨w, by simp, ?_, ?_⟩
  · rcases mem_append.mp hpre with h | h
    · exact .inr ⟨pair_sublist_iff.mpr ⟨pre', reads, by simp, h⟩, .inr rfl⟩
    · exact .inl (mem_singleton.mp h)
  by_cases hcase : m = .write ∧ reads ≠ []
  · obtain ⟨rfl, hne⟩ := hcase
    obtain ⟨s, reads', rfl⟩ := exists_cons_of_ne_nil hne
    refine .inr ⟨s, ⟨?_, .inl rfl⟩, rfl, ?_⟩
    · exact pair_sublist_iff.mpr ⟨pre' ++ [(w, .write)], reads', rfl, by simp⟩
    · rw [LockQueueTail.blockers, htr]
      simp
  · refine .inl ?_
    cases m with
    | read => simp only [LockQueueTail.blockers, hw, Option.mem_toList]
    | write =>
      have hnil : reads = [] := by
        by_contra hne
        exact hcase ⟨rfl, hne⟩
      rw [LockQueueTail.blockers, htr, if_pos (by rw [hnil]; rfl), hw]
      exact mem_singleton_self w

/-- A request that conflicts with an earlier one is blocked by a request that the earlier one
reaches through conflicts of the queue. -/
theorem exists_blocker {m : KeyType} (hr : r ∈ q) (hc : Conflict r.2 m) :
    ∃ s ∈ q, s.1 ∈ (tailOf q).blockers m ∧ ReflTransGen (ConflictsBefore q) r s := by
  rcases blocker_cases hr hc with hb | ⟨w, hw, hrw, hb⟩
  · exact ⟨r, hr, hb, .refl⟩
  have hpath : ReflTransGen (ConflictsBefore q) r (w, .write) := by
    rcases hrw with rfl | h
    · exact .refl
    · exact .single h
  rcases hb with hb | ⟨s, hws, -, hb⟩
  · exact ⟨_, hw, hb, hpath⟩
  · exact ⟨s, hws.mem.2, hb, hpath.tail hws⟩

/-- A blocker stands in the queue and conflicts with the request. -/
theorem mem_of_mem_blockers {m : KeyType} (h : u ∈ (tailOf q).blockers m) :
    ∃ mu, (u, mu) ∈ q ∧ Conflict mu m := by
  obtain ⟨pre, reads, rfl, hreads, htr, hw⟩ := tailOf_shape q
  have hwriter : u ∈ (tailOf (pre ++ reads)).writeLockRequester.toList →
      ∃ mu, (u, mu) ∈ pre ++ reads ∧ Conflict mu m := by
    intro hu
    rcases hw with ⟨-, hnone⟩ | ⟨pre', w, rfl, hsome⟩
    · rw [hnone] at hu
      cases hu
    · rw [hsome, Option.toList_some, mem_singleton] at hu
      subst hu
      exact ⟨.write, by simp, .inl rfl⟩
  cases m with
  | read => exact hwriter h
  | write =>
    rw [LockQueueTail.blockers] at h
    split_ifs at h
    · exact hwriter h
    · rw [htr] at h
      obtain ⟨r, hr, rfl⟩ := mem_map.mp h
      exact ⟨r.2, mem_append_right pre hr, .inr rfl⟩

theorem Blocks.conflictsBefore (h : Blocks q u v) : ∃ mu mv, ConflictsBefore q (u, mu) (v, mv) := by
  obtain ⟨pre, m, post, rfl, hu⟩ := h
  obtain ⟨mu, hmu, hc⟩ := mem_of_mem_blockers hu
  exact ⟨mu, m, pair_sublist_iff.mpr ⟨pre, post, rfl, hmu⟩, hc⟩

theorem Blocks.append (h : Blocks q u v) : Blocks (q ++ q') u v := by
  obtain ⟨pre, m, post, rfl, hu⟩ := h
  exact ⟨pre, m, post ++ q', by simp, hu⟩

/-- The blocking pairs after one more request. -/
theorem blocks_concat {m : KeyType} :
    Blocks (q ++ [(x, m)]) u v ↔ Blocks q u v ∨ (v = x ∧ u ∈ (tailOf q).blockers m) := by
  constructor
  · rintro ⟨pre, mv, post, hq, hu⟩
    induction post using List.reverseRecOn with
    | nil =>
      obtain ⟨rfl, ⟨⟩⟩ := append_inj' hq rfl
      exact .inr ⟨rfl, hu⟩
    | append_singleton post a _ =>
      rw [← cons_append, ← append_assoc] at hq
      obtain ⟨rfl, -⟩ := append_inj' hq rfl
      exact .inl ⟨pre, mv, post, rfl, hu⟩
  · rintro (h | ⟨rfl, hu⟩)
    · exact h.append
    · exact ⟨q, m, [], rfl, hu⟩

/-- **Conflicts are covered by blocking pairs.**  If two requests of a queue conflict, the
later one is reached from the earlier one through pairs of which the first was reported as
blocking the second. -/
theorem ConflictsBefore.transGen_blocks (h : ConflictsBefore q r s) : TransGen (Blocks q) r.1 s.1 := by
  induction hn : q.length using Nat.strong_induction_on generalizing q r s with
  | _ n ih =>
    obtain ⟨hsub, hc⟩ := h
    -- Split the queue at the later request; the steps before it lie in a shorter queue.
    obtain ⟨pre, post, rfl, hr⟩ := pair_sublist_iff.mp hsub
    obtain ⟨t, -, ht, hpath⟩ := exists_blocker hr hc
    have hlen : pre.length < n := by
      rw [← hn, length_append, length_cons]
      omega
    have hstep : ∀ a b, ConflictsBefore pre a b →
        ReflTransGen (Blocks (pre ++ s :: post)) a.1 b.1 := by
      intro a b hab
      have := (ih pre.length hlen hab rfl).to_reflTransGen
      exact ReflTransGen.mono (fun _ _ h => h.append) _ _ this
    have hpre : ReflTransGen (Blocks (pre ++ s :: post)) r.1 t.1 := by
      clear ht
      induction hpath with
      | refl => exact .refl
      | tail _ hab ih => exact ih.trans (hstep _ _ hab)
    exact TransGen.tail' hpre ⟨pre, s.2, post, rfl, ht⟩

/-! ## The lock table after a list of parts -/

theorem filter_fst_eq_nil {α β : Type*} [DecidableEq α] {rs : List (α × β)} {k : α}
    (hk : k ∉ rs.map Prod.fst) : (rs.filter fun r => r.1 = k) = [] := by
  rw [filter_eq_nil_iff]
  intro r hr heq
  exact hk (mem_map.mpr ⟨r, hr, of_decide_eq_true heq⟩)

/-- In a list without duplicate keys there is at most one entry of a key. -/
theorem filter_fst_eq_singleton {α β : Type*} [DecidableEq α] {rs : List (α × β)}
    (hnd : (rs.map Prod.fst).Nodup) {k : α} {m : β} (hm : (k, m) ∈ rs) :
    (rs.filter fun r => r.1 = k) = [(k, m)] := by
  obtain ⟨a, b, rfl⟩ := append_of_mem hm
  simp only [map_append, map_cons, nodup_append, nodup_cons] at hnd
  obtain ⟨-, ⟨hb, -⟩, hab⟩ := hnd
  have ha : k ∉ a.map Prod.fst := fun ha => hab k ha k mem_cons_self rfl
  rw [filter_append, filter_fst_eq_nil ha, filter_cons_of_pos (by simp), filter_fst_eq_nil hb, nil_append]

/-- The requests on the key-region `k` that one part makes. -/
def Transaction.requestsAt (t : Transaction) (k : KeyRegion) : List Request :=
  (t.lockRequests.filter fun r => r.1 = k).map fun r => (t.id, r.2)

/-- The queue of the key-region `k` after the parts have arrived in this order. -/
def queueAt (parts : List Transaction) (k : KeyRegion) : List Request :=
  parts.flatMap fun t => t.requestsAt k

theorem queueAt_concat (parts : List Transaction) (t : Transaction) (k : KeyRegion) :
    queueAt (parts ++ [t]) k = queueAt parts k ++ t.requestsAt k := by
  simp [queueAt]

theorem mem_queueAt {parts : List Transaction} {k : KeyRegion} :
    r ∈ queueAt parts k ↔ ∃ t ∈ parts, t.id = r.1 ∧ (k, r.2) ∈ t.lockRequests := by
  obtain ⟨x, m⟩ := r
  simp only [queueAt, Transaction.requestsAt, mem_flatMap, mem_map, mem_filter,
    decide_eq_true_eq, Prod.mk.injEq]
  constructor
  · rintro ⟨t, ht, ⟨k', m'⟩, ⟨hmem, rfl⟩, hid, rfl⟩
    exact ⟨t, ht, hid, hmem⟩
  · rintro ⟨t, ht, hid, hmem⟩
    exact ⟨t, ht, (k, m), ⟨hmem, rfl⟩, hid, rfl⟩

/-- Entering requests leaves in every queue the tail of the longer queue. -/
theorem acquireAll_fst (table : LockTable) (x : TxnId) (rs : List (KeyRegion × KeyType))
    (k : KeyRegion) :
    (table.acquireAll x rs).1 k =
      ((rs.filter fun r => r.1 = k).map fun r => (x, r.2)).foldl
        (fun t r => (t.acquire r.1 r.2).1) (table k) := by
  induction rs generalizing table with
  | nil => rfl
  | cons r rs ih =>
    obtain ⟨k', m⟩ := r
    rw [LockTable.acquireAll, ih]
    by_cases hk : k' = k
    · subst hk
      simp
    · rw [filter_cons_of_neg (by simpa using hk), update_of_ne (Ne.symm hk)]

theorem acquireAll_tailOf (parts : List Transaction) (t : Transaction) :
    (LockTable.acquireAll (fun k => tailOf (queueAt parts k)) t.id t.lockRequests).1 =
      fun k => tailOf (queueAt (parts ++ [t]) k) := by
  funext k
  rw [acquireAll_fst, queueAt_concat, tailOf, tailOf, foldl_append]
  rfl

/-- If no key-region is named twice, the blocking transactions are those that the tails report
one by one. -/
theorem mem_acquireAll_snd {rs : List (KeyRegion × KeyType)} (hnd : (rs.map Prod.fst).Nodup) :
    u ∈ (table.acquireAll x rs).2 ↔ ∃ r ∈ rs, u ∈ (table r.1).blockers r.2 := by
  induction rs generalizing table with
  | nil => simp [LockTable.acquireAll]
  | cons r rs ih =>
    obtain ⟨k, m⟩ := r
    rw [map_cons, nodup_cons] at hnd
    rw [LockTable.acquireAll, mem_append, ih hnd.2, LockQueueTail.acquire_snd]
    have hother : ∀ r ∈ rs,
        Function.update table k ((table k).acquire x m).1 r.1 = table r.1 := by
      intro r hr
      apply update_of_ne
      intro heq
      exact hnd.1 (mem_map.mpr ⟨r, hr, heq⟩)
    simp only [mem_cons, or_and_right, exists_or, exists_eq_left]
    refine or_congr Iff.rfl (exists_congr fun r => and_congr_right fun hr => ?_)
    rw [hother r hr]

/-- A transaction that is reported as blocking stands in a queue before a request that conflicts
with it, or has made the earlier request in the same call. -/
theorem conflict_of_mem_acquireAll {q : KeyRegion → List Request} (htable : ∀ k, table k = tailOf (q k))
    {rs : List (KeyRegion × KeyType)} (hu : u ∈ (table.acquireAll x rs).2) :
    ∃ a k m b, rs = a ++ (k, m) :: b ∧
      ∃ mu, (u, mu) ∈ q k ++ (a.filter fun r => r.1 = k).map (fun r => (x, r.2)) ∧
        Conflict mu m := by
  induction rs generalizing table q with
  | nil => cases hu
  | cons r rs ih =>
    obtain ⟨k, m⟩ := r
    rw [LockTable.acquireAll, mem_append, LockQueueTail.acquire_snd, htable] at hu
    rcases hu with hu | hu
    · obtain ⟨mu, hmu, hc⟩ := mem_of_mem_blockers hu
      exact ⟨[], k, m, rs, rfl, mu, by simpa using hmu, hc⟩
    · have htable' : ∀ k', Function.update table k ((tailOf (q k)).acquire x m).1 k' =
          tailOf (Function.update q k (q k ++ [(x, m)]) k') := by
        intro k'
        by_cases hk : k' = k
        · subst hk
          rw [update_self, update_self, tailOf_concat]
        · rw [update_of_ne hk, update_of_ne hk, htable]
      obtain ⟨a, k', m', b, rfl, mu, hmu, hc⟩ := ih htable' hu
      refine ⟨(k, m) :: a, k', m', b, rfl, mu, ?_, hc⟩
      by_cases hk : k = k'
      · subst hk
        rw [update_self, append_assoc] at hmu
        simpa using hmu
      · rw [update_of_ne (Ne.symm hk)] at hmu
        rwa [filter_cons_of_neg (by simpa using hk)]

end Slog
