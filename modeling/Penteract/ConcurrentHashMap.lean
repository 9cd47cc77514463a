/-
# The hash map of the storage

The lowest bits of the hash of a key pick a segment, and the bits above them a bucket of the segment,
which is a chain of nodes.  A segment is created when it is first used, and the number of its buckets
is doubled when it has taken in too many keys.  Under the latches of the segments the calls happen one
after another.
-/
import Mathlib

namespace Slog

open List Function

/-- The parameters `HashFn` and `ShardBits` of the template. -/
class HashFn (K : Type) where
  hash : K → ℕ
  shardBits : ℕ

variable {K V : Type}

abbrev Segment.Node (K V : Type) := Σ _ : K, V

structure Segment (K V : Type) where
  count : ℕ
  bucketRoots : ℕ → List (Segment.Node K V) := fun _ => []
  loadFactorMaxSize : ℕ
  size : ℕ := 0

namespace Segment

/-- `kLoadFactor * count`.  The `float` next to 1.05 is 8808038 / 2²³, and its product with a power of
two is exact. -/
def maxSize (count : ℕ) : ℕ := 8808038 * count / 2 ^ 23

instance : Inhabited (Segment K V) := ⟨{ count := 8, loadFactorMaxSize := maxSize 8 }⟩

/-- What `ForEach` visits. -/
def forEach (s : Segment K V) : List (Node K V) := (List.range s.count).flatMap s.bucketRoots

def getKeyCount (s : Segment K V) : ℕ := s.forEach.length

variable [HashFn K]

def getIndex (nbuckets : ℕ) (key : K) : ℕ :=
  (HashFn.hash key >>> HashFn.shardBits K) &&& (nbuckets - 1)

/-- The chain of nodes that a key belongs to. -/
def chain (s : Segment K V) (key : K) : List (Node K V) := s.bucketRoots (getIndex s.count key)

def setChain (s : Segment K V) (key : K) (nodes : List (Node K V)) : Segment K V :=
  { s with bucketRoots := update s.bucketRoots (getIndex s.count key) nodes }

/-- Put a node in front of its bucket. -/
def push (index : K → ℕ) (buckets : ℕ → List (Node K V)) (node : Node K V) : ℕ → List (Node K V) :=
  update buckets (index node.1) (node :: buckets (index node.1))

/-- All nodes go to the fronts of their new buckets. -/
def rehash (s : Segment K V) : Segment K V :=
  let newBucketCount := s.count <<< 1
  { s with
    count := newBucketCount
    bucketRoots := s.forEach.foldl (push (getIndex newBucketCount)) fun _ => []
    loadFactorMaxSize := maxSize newBucketCount }

variable [DecidableEq K]

def get (s : Segment K V) (key : K) : Option V := dlookup key (s.chain key)

/-- A new node takes the place of the one with the key, or it goes to the front of the chain. -/
def put (s : Segment K V) (key : K) (value : V) : Segment K V :=
  if (s.get key).isSome then s.setChain key (kreplace key value (s.chain key))
  else { s.setChain key (⟨key, value⟩ :: s.chain key) with size := s.size + 1 }

def insertOrUpdate (s : Segment K V) (key : K) (value : V) : Segment K V × Bool :=
  let s' := s.put key value
  (if s'.size ≥ s'.loadFactorMaxSize then s'.rehash else s', (s.get key).isSome)

def erase (s : Segment K V) (key : K) : Segment K V × Bool :=
  (s.setChain key (kerase key (s.chain key)), (s.get key).isSome)

variable {s : Segment K V}

/-! ## The number of buckets -/

inductive Write (K V : Type) where
  | insertOrUpdate (key : K) (value : V)
  | erase (key : K)

/-- A write, and whether it has added a key. -/
def write (s : Segment K V) : Write K V → Segment K V × Bool
  | .insertOrUpdate key value => ((s.insertOrUpdate key value).1, !(s.insertOrUpdate key value).2)
  | .erase key => ((s.erase key).1, false)

/-- A new segment after some writes, and how many of them have added a key. -/
def writes (ws : List (Write K V)) : Segment K V × ℕ :=
  ws.foldl (fun r w => ((r.1.write w).1, r.2 + (r.1.write w).2.toNat)) (default, 0)

/-- If there were never more than `n` keys, there are never more than `max 8 (4 * n)` buckets. -/
def GrowsWithContents (ws : List (Write K V)) : Prop :=
  ∀ n, (∀ ws' ∈ ws.inits, (writes ws').1.getKeyCount ≤ n) →
    ∀ ws' ∈ ws.inits, (writes ws').1.count ≤ max 8 (4 * n)

/-- The number of buckets has been doubled `j` times, for `n` keys that were added. -/
structure Doubled (s : Segment K V) (n j : ℕ) : Prop where
  count : s.count = 8 * 2 ^ j
  max : s.loadFactorMaxSize = maxSize s.count
  size : s.size = n
  lt : n < maxSize (8 * 2 ^ j)
  le : ∀ i < j, maxSize (8 * 2 ^ i) ≤ n

theorem maxSize_mono {i j : ℕ} (h : i ≤ j) : maxSize (8 * 2 ^ i) ≤ maxSize (8 * 2 ^ j) :=
  Nat.div_le_div_right (Nat.mul_le_mul_left _
    (Nat.mul_le_mul_left 8 (Nat.pow_le_pow_right Nat.two_pos h)))

omit [DecidableEq K] in
/-- The check after an insertion. -/
theorem exists_doubled {n j : ℕ} (hcount : s.count = 8 * 2 ^ j)
    (hmax : s.loadFactorMaxSize = maxSize s.count) (hsize : s.size = n)
    (hn : n ≤ maxSize (8 * 2 ^ j)) (hle : ∀ i < j, maxSize (8 * 2 ^ i) ≤ n) :
    ∃ j', Doubled (if s.size ≥ s.loadFactorMaxSize then s.rehash else s) n j' := by
  rw [hmax, hsize, hcount]
  split_ifs with hfull
  · have hdouble : s.count <<< 1 = 8 * 2 ^ (j + 1) := by
      rw [hcount, Nat.shiftLeft_eq, pow_succ, mul_assoc]
      rfl
    refine ⟨j + 1, hdouble, rfl, hsize, ?_, fun i hi => ?_⟩
    · have hpos := Nat.two_pow_pos j
      rw [maxSize, pow_succ] at *
      omega
    · exact (maxSize_mono (Nat.lt_succ_iff.mp hi)).trans hfull
  · exact ⟨j, hcount, hmax, hsize, not_le.mp hfull, hle⟩

theorem Doubled.write {n j : ℕ} (h : Doubled s n j) (w : Write K V) :
    ∃ j', Doubled (s.write w).1 (n + (s.write w).2.toNat) j' := by
  cases w with
  | erase key => exact ⟨j, h.count, h.max, h.size, h.lt, h.le⟩
  | insertOrUpdate key value =>
    by_cases hexists : (s.get key).isSome
    · simp only [Segment.write, Segment.insertOrUpdate, put, hexists, if_true]
      exact exists_doubled h.count h.max h.size h.lt.le h.le
    · simp only [Segment.write, Segment.insertOrUpdate, put, hexists]
      exact exists_doubled h.count h.max (congrArg (· + 1) h.size) h.lt fun i hi =>
        (h.le i hi).trans (Nat.le_succ n)

theorem writes_concat (ws : List (Write K V)) (w : Write K V) : writes (ws ++ [w]) =
    (((writes ws).1.write w).1, (writes ws).2 + ((writes ws).1.write w).2.toNat) :=
  foldl_append

theorem doubled_writes (ws : List (Write K V)) : ∃ j, Doubled (writes ws).1 (writes ws).2 j := by
  induction ws using List.reverseRecOn with
  | nil => exact ⟨0, rfl, rfl, rfl, Nat.succ_pos 7, nofun⟩
  | append_singleton ws w ih =>
    obtain ⟨j, hj⟩ := ih
    rw [writes_concat]
    exact hj.write w

theorem writes_mono {ws ws' : List (Write K V)} (h : ws' <+: ws) : (writes ws').2 ≤ (writes ws).2 := by
  obtain ⟨us, rfl⟩ := h
  induction us using List.reverseRecOn with
  | nil => rw [append_nil]
  | append_singleton us w ih =>
    rw [← append_assoc, writes_concat]
    exact ih.trans (Nat.le_add_right _ _)

omit [HashFn K] [DecidableEq K] in
theorem Doubled.count_le_iff {n j : ℕ} (h : Doubled s n j) (m : ℕ) :
    s.count ≤ Max.max 8 (4 * m) ↔ n < maxSize (8 * 2 ^ Nat.log 2 (m / 2)) := by
  rw [h.count]
  constructor
  · intro hle
    refine h.lt.trans_le (maxSize_mono ?_)
    rcases j.eq_zero_or_pos with rfl | hj
    · exact Nat.zero_le _
    · refine Nat.le_log_of_pow_le (by decide) ?_
      have := Nat.one_lt_two_pow hj.ne'
      omega
  · intro hlt
    by_contra hgt
    have hj : j ≠ 0 := by
      rintro rfl
      exact hgt (le_max_left _ _)
    exact absurd hlt (not_lt.mpr (h.le _ (Nat.log_lt_of_lt_pow' hj (by omega))))

/-- **The number of buckets grows with the contents** exactly if few keys have been added. -/
theorem growsWithContents_iff (ws : List (Write K V)) :
    GrowsWithContents ws ↔ ∀ n, (∀ ws' ∈ ws.inits, (writes ws').1.getKeyCount ≤ n) →
      (writes ws).2 < maxSize (8 * 2 ^ Nat.log 2 (n / 2)) := by
  refine forall₂_congr fun n _ => ⟨fun h => ?_, fun h ws' hws' => ?_⟩
  · obtain ⟨j, hj⟩ := doubled_writes ws
    exact (hj.count_le_iff n).mp (h ws ((mem_inits _ _).mpr prefix_rfl))
  · obtain ⟨j, hj⟩ := doubled_writes ws'
    exact (hj.count_le_iff n).mpr ((writes_mono ((mem_inits _ _).mp hws')).trans_lt h)

/-- An integer is its own hash. -/
instance : HashFn ℕ := ⟨id, 8⟩

/-- One key is inserted and erased, eight times. -/
def insertErase : List (Write ℕ ℕ) := (List.range 8).flatMap fun i => [.insertOrUpdate 0 i, .erase 0]

theorem not_growsWithContents_insertErase : ¬ GrowsWithContents insertErase := fun h =>
  absurd (h 1 (by decide +kernel) insertErase (by simp)) (by decide +kernel)

end Segment

end Slog
