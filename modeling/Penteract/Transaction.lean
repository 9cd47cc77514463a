/-
# Transactions

The data that the scheduler, the lock managers, the workers and the server of one replica
exchange: transactions with their keys, programs and statuses, and the key-regions on which
locks are taken.  Strings stand for the byte strings of the source, natural numbers for its
unsigned counters and identifiers.
-/
import Mathlib

namespace Slog

abbrev TxnId := ℕ
abbrev Key := String
abbrev Value := String
abbrev KeyRegion := String
abbrev RegionId := ℕ
abbrev PartitionId := ℕ

instance instLawfulBEqPart : LawfulBEq (TxnId × RegionId) := inferInstance

/-- `0` is never the id of a transaction; it marks a free slot in a waited-by list. -/
def kSentinelTxnId : TxnId := 0

inductive TransactionType where
  | unknown
  | singleHome
  | multiHomeOrLockOnly
  deriving DecidableEq, Repr

inductive TransactionStatus where
  | notStarted
  | committed
  | aborted
  deriving DecidableEq, Repr

inductive KeyType where
  | read
  | write
  deriving DecidableEq, Repr

inductive AcquireLocksResult where
  | acquired
  | waiting
  deriving DecidableEq, Repr

structure MasterMetadata where
  master : RegionId
  counter : ℕ := 0
  deriving DecidableEq, Repr

structure KeyValueEntry where
  key : Key
  type : KeyType
  value : Value := ""
  newValue : Value := ""
  metadata : Option MasterMetadata := none
  deriving DecidableEq, Repr

/-- The master recorded on the entry; an entry without metadata reads as region `0`. -/
def KeyValueEntry.master (kv : KeyValueEntry) : RegionId :=
  (kv.metadata.map MasterMetadata.master).getD 0

/-- What a transaction does: a list of procedures, each a name with its arguments, or the
move of a key to a new master region. -/
inductive Program where
  | code (procedures : List (List String))
  | remaster (newMaster : RegionId) (isNewMasterLockOnly : Bool)
  deriving DecidableEq, Repr

structure TransactionInternal where
  id : TxnId
  type : TransactionType := .unknown
  home : ℤ := 0
  timestamp : ℤ := 0
  involvedPartitions : List PartitionId := []
  activePartitions : List PartitionId := []
  involvedRegions : List RegionId := []
  deriving DecidableEq, Repr

structure Transaction where
  internal : TransactionInternal
  program : Program := .code []
  keys : List KeyValueEntry
  deletedKeys : List Key := []
  status : TransactionStatus := .notStarted
  abortReason : String := ""
  deriving DecidableEq, Repr

namespace Transaction

abbrev id (t : Transaction) : TxnId := t.internal.id

abbrev home (t : Transaction) : ℤ := t.internal.home

def isRemaster (t : Transaction) : Bool :=
  match t.program with
  | .code _ => false
  | .remaster _ _ => true

/-- The same transaction as a part for the home region `h`. -/
def withHome (t : Transaction) (h : RegionId) : Transaction :=
  { t with internal := { t.internal with home := h } }

@[simp] theorem withHome_home (t : Transaction) (h : RegionId) : (t.withHome h).home = h := rfl

@[simp] theorem withHome_keys (t : Transaction) (h : RegionId) : (t.withHome h).keys = t.keys := rfl

@[simp] theorem withHome_isRemaster (t : Transaction) (h : RegionId) :
    (t.withHome h).isRemaster = t.isRemaster := rfl

end Transaction

/-! ## Key-regions -/

def makeKeyRegion (key : Key) (master : RegionId) : KeyRegion :=
  key ++ ":" ++ toString master

theorem colon_notMem_toString (n : ℕ) : ':' ∉ (toString n).toList := by
  intro h
  have hd : (':').isDigit := by
    apply Nat.isDigit_of_mem_toDigits (b := 10) (n := n) (by omega) (by omega)
    simpa [toString, Nat.repr] using h
  exact absurd hd (by decide)

/-- Two words with a separator are equal only if they agree before and after it, provided
the separator does not occur in what follows it. -/
theorem append_cons_inj_of_notMem_right {α : Type*} {a b c d : List α} {x : α}
    (hb : x ∉ b) (hd : x ∉ d) (h : a ++ x :: b = c ++ x :: d) : a = c ∧ b = d := by
  rcases List.append_eq_append_iff.mp h with ⟨e, hc, he⟩ | ⟨e, ha, he⟩
  · cases e with
    | nil => exact ⟨by simpa using hc.symm, by simpa using he⟩
    | cons y e =>
      rw [List.cons_append, List.cons_eq_cons] at he
      exact absurd (he.2 ▸ by simp) hb
  · cases e with
    | nil => exact ⟨by simpa using ha, by simpa using he.symm⟩
    | cons y e =>
      rw [List.cons_append, List.cons_eq_cons] at he
      exact absurd (he.2 ▸ by simp) hd

/-- A key-region determines its key and its region. -/
theorem makeKeyRegion_inj {k k' : Key} {h h' : RegionId} :
    makeKeyRegion k h = makeKeyRegion k' h' ↔ k = k' ∧ h = h' := by
  constructor
  · intro heq
    have hl : k.toList ++ ':' :: (toString h).toList
        = k'.toList ++ ':' :: (toString h').toList := by
      have := congrArg String.toList heq
      simpa [makeKeyRegion] using this
    obtain ⟨hk, hh⟩ := append_cons_inj_of_notMem_right (colon_notMem_toString h)
      (colon_notMem_toString h') hl
    exact ⟨String.toList_inj.mp hk, Nat.repr_inj.mp (String.toList_inj.mp hh)⟩
  · rintro ⟨rfl, rfl⟩
    rfl

/-! ## Lock requests -/

namespace Transaction

/-- The lock requests of one call of `AcquireLocks`: the iterations of its loop over the keys
that are not skipped.  A part locks the keys mastered at its home; a remaster locks its key
whatever master the key carries. -/
def lockRequests (t : Transaction) : List (KeyRegion × KeyType) :=
  (t.keys.filter fun kv => t.isRemaster || decide ((kv.master : ℤ) = t.home)).map fun kv =>
    (makeKeyRegion kv.key t.home.toNat, kv.type)

/-- The number of locks that a transaction waits for before it is ready. -/
def numRequiredLocks (t : Transaction) : ℤ := if t.isRemaster then 2 else t.keys.length

end Transaction

end Slog
