/-
# Bitmaps of participants

An acceptor names the partitions of a transaction by the bits of a machine word, and a scheduler
reads the word with its own partition.  Both shift a one of 32 bits, which the word then extends by
its sign.  The bits are right for up to 32 partitions; partition `31` sets all the bits after it.
-/
import Penteract.Transaction

namespace Janus

open Slog

/-- `1 << p` as a word of 64 bits.  A shift by 32 or more is undefined; the count is taken modulo 32
as common processors do. -/
def partitionBit (p : PartitionId) : ℕ := ((1#32 <<< (p % 32)).signExtend 64).toNat

def participantsBitmap (t : Transaction) : ℕ :=
  t.internal.involvedPartitions.foldl (fun bitmap p => bitmap ||| partitionBit p) 0

/-- The scheduler's test whether a partition takes part. -/
def takesPart (bitmap : ℕ) (p : PartitionId) : Bool := bitmap &&& partitionBit p != 0

variable {p : PartitionId}

theorem partitionBit_of_lt (hp : p < 31) : partitionBit p = 2 ^ p := by
  have h : ∀ p : Fin 31, partitionBit p = 2 ^ p.val := by decide
  exact h ⟨p, hp⟩

/-- Partition `31` has the bits from its own on. -/
theorem testBit_partitionBit {p : ℕ} (hp : p < 32) (i : ℕ) :
    (partitionBit p).testBit i = true ↔ i = p ∨ p = 31 ∧ 31 ≤ i ∧ i < 64 := by
  rcases Nat.lt_or_ge i 64 with hi | hi
  · have h : ∀ p : Fin 32, ∀ i : Fin 64, (partitionBit p).testBit i = true ↔
        i.val = p.val ∨ p.val = 31 ∧ 31 ≤ i.val ∧ i.val < 64 := by
      decide +kernel
    exact h ⟨p, hp⟩ ⟨i, hi⟩
  · rw [partitionBit, BitVec.testBit_toNat, BitVec.getLsbD_of_ge _ _ hi]
    exact iff_of_false Bool.false_ne_true (by omega)

/-- Below partition `31` the test is for one bit. -/
theorem takesPart_of_lt (bitmap : ℕ) (hp : p < 31) : takesPart bitmap p = bitmap.testBit p := by
  rw [takesPart, partitionBit_of_lt hp, Nat.and_two_pow]
  cases bitmap.testBit p <;> simp

theorem takesPart_iff {bitmap : ℕ} :
    takesPart bitmap p = true ↔
      ∃ i, bitmap.testBit i = true ∧ (partitionBit p).testBit i = true := by
  rw [takesPart, bne_iff_ne]
  constructor
  · intro hne
    obtain ⟨i, hi⟩ := Nat.exists_testBit_of_ne_zero hne
    rw [Nat.testBit_and, Bool.and_eq_true] at hi
    exact ⟨i, hi⟩
  · rintro ⟨i, hi⟩ hzero
    rw [← Bool.and_eq_true, ← Nat.testBit_and, hzero, Nat.zero_testBit] at hi
    cases hi

theorem testBit_foldl (ps : List PartitionId) (bitmap i : ℕ) :
    (ps.foldl (fun bitmap p => bitmap ||| partitionBit p) bitmap).testBit i = true ↔
      bitmap.testBit i = true ∨ ∃ p ∈ ps, (partitionBit p).testBit i = true := by
  induction ps generalizing bitmap with
  | nil => simp
  | cons p ps ih =>
    rw [List.foldl_cons, ih, Nat.testBit_or, Bool.or_eq_true, or_assoc]
    simp only [List.mem_cons, exists_eq_or_imp]

theorem testBit_participantsBitmap (t : Transaction) (i : ℕ) :
    (participantsBitmap t).testBit i = true ↔
      ∃ p ∈ t.internal.involvedPartitions, (partitionBit p).testBit i = true := by
  rw [participantsBitmap, testBit_foldl, Nat.zero_testBit]
  simp

end Janus
