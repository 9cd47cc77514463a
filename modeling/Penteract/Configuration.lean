/-
# Machines and the configuration

A machine is a partition of a replica of a region.  Its number packs the three, and the number
of a batch packs the machine that made it and a counter.
-/
import Penteract.Transaction

namespace Slog

abbrev BatchId := ℕ
abbrev SlotId := ℕ

def kRegionIdBits : ℕ := 8
def kReplicaIdBits : ℕ := 8
def kPartitionIdBits : ℕ := 16
def kMachineIdBits : ℕ := kRegionIdBits + kReplicaIdBits + kPartitionIdBits

structure MachineId where
  region : ℕ
  replica : ℕ
  partition : ℕ
  deriving DecidableEq, Repr

namespace MachineId

/-- The number of a machine. -/
def pack (m : MachineId) : ℕ :=
  m.region <<< (kReplicaIdBits + kPartitionIdBits) ||| m.replica <<< kPartitionIdBits |||
    m.partition

/-- The three parts of the number fit into their bits. -/
structure Fits (m : MachineId) : Prop where
  region : m.region < 2 ^ kRegionIdBits
  replica : m.replica < 2 ^ kReplicaIdBits
  partition : m.partition < 2 ^ kPartitionIdBits

variable {m : MachineId}

theorem Fits.pack_eq (h : m.Fits) : m.pack = m.region * 2 ^ 24 + m.replica * 2 ^ 16 + m.partition := by
  obtain ⟨h1, h2, h3⟩ := h
  simp only [kRegionIdBits, kReplicaIdBits, kPartitionIdBits] at h1 h2 h3
  have hlow : m.replica <<< 16 ||| m.partition = m.replica * 2 ^ 16 + m.partition := by
    rw [← Nat.shiftLeft_add_eq_or_of_lt h3, Nat.shiftLeft_eq]
  have hlt : m.replica * 2 ^ 16 + m.partition < 2 ^ 24 := by omega
  rw [pack]
  simp only [kReplicaIdBits, kPartitionIdBits]
  rw [Nat.or_assoc, hlow, ← Nat.shiftLeft_add_eq_or_of_lt hlt, Nat.shiftLeft_eq]
  omega

theorem Fits.pack_lt (h : m.Fits) : m.pack < 2 ^ kMachineIdBits := by
  have heq := h.pack_eq
  obtain ⟨h1, h2, h3⟩ := h
  simp only [kMachineIdBits, kRegionIdBits, kReplicaIdBits, kPartitionIdBits] at h1 h2 h3 ⊢
  omega

/-- A machine is determined by its number. -/
theorem Fits.pack_inj {m' : MachineId} (h : m.Fits) (h' : m'.Fits) (heq : m.pack = m'.pack) :
    m = m' := by
  rw [h.pack_eq, h'.pack_eq] at heq
  obtain ⟨h1, h2, h3⟩ := h
  obtain ⟨h1', h2', h3'⟩ := h'
  simp only [kRegionIdBits, kReplicaIdBits, kPartitionIdBits] at h1 h2 h3 h1' h2' h3'
  obtain ⟨r, p, q⟩ := m
  obtain ⟨r', p', q'⟩ := m'
  dsimp only at *
  obtain ⟨rfl, rfl, rfl⟩ : r = r' ∧ p = p' ∧ q = q' := by omega
  rfl

end MachineId

/-- The number of the batch with the given counter. -/
def batchId (m : MachineId) (counter : ℕ) : BatchId := counter <<< kMachineIdBits ||| m.pack

/-- **The number of a batch determines the machine that made it and the counter.** -/
theorem batchId_inj {m m' : MachineId} (h : m.Fits) (h' : m'.Fits) {c c' : ℕ}
    (heq : batchId m c = batchId m' c') : m = m' ∧ c = c' := by
  rw [batchId, batchId, ← Nat.shiftLeft_add_eq_or_of_lt h.pack_lt,
    ← Nat.shiftLeft_add_eq_or_of_lt h'.pack_lt, Nat.shiftLeft_eq, Nat.shiftLeft_eq] at heq
  have hlt := h.pack_lt
  have hlt' := h'.pack_lt
  have hpack : m.pack = m'.pack := by
    have := congrArg (· % 2 ^ kMachineIdBits) heq
    simpa [Nat.mul_add_mod', Nat.mod_eq_of_lt hlt, Nat.mod_eq_of_lt hlt', add_comm] using this
  refine ⟨h.pack_inj h' hpack, ?_⟩
  rw [hpack] at heq
  exact Nat.eq_of_mul_eq_mul_right (Nat.two_pow_pos _) (Nat.add_right_cancel heq)

/-- What the modules read from the configuration.  The order in which a region is replicated
leaves the region itself out.  The numbers of regions, replicas and partitions fit into the types
of their ids. -/
structure Configuration where
  numRegions : ℕ
  numReplicas : RegionId → ℕ
  numPartitions : ℕ
  replicationFactor : ℕ := 1
  replicationOrder : RegionId → List RegionId := fun _ => []
  localSyncReplication : RegionId → Bool := fun _ => false
  sequencerBatchSize : ℕ := 0
  sequencerRrr : Bool := false
  numPartitions_pos : 0 < numPartitions
  numReplicas_pos : ∀ r, 0 < numReplicas r
  replicationFactor_pos : 0 < replicationFactor
  numRegions_le : numRegions ≤ 2 ^ kRegionIdBits
  numReplicas_le : ∀ r, numReplicas r ≤ 2 ^ kReplicaIdBits
  numPartitions_le : numPartitions ≤ 2 ^ kPartitionIdBits

namespace Configuration

/-- The machines of the configuration. -/
structure IsMachine (cfg : Configuration) (m : MachineId) : Prop where
  region : m.region < cfg.numRegions
  replica : m.replica < cfg.numReplicas m.region
  partition : m.partition < cfg.numPartitions

instance (cfg : Configuration) (m : MachineId) : Decidable (cfg.IsMachine m) :=
  decidable_of_iff (m.region < cfg.numRegions ∧ m.replica < cfg.numReplicas m.region ∧
    m.partition < cfg.numPartitions)
    ⟨fun ⟨h1, h2, h3⟩ => ⟨h1, h2, h3⟩, fun ⟨h1, h2, h3⟩ => ⟨h1, h2, h3⟩⟩

theorem IsMachine.fits {cfg : Configuration} {m : MachineId} (h : cfg.IsMachine m) : m.Fits where
  region := h.region.trans_le cfg.numRegions_le
  replica := h.replica.trans_le (cfg.numReplicas_le _)
  partition := h.partition.trans_le cfg.numPartitions_le

end Configuration

end Slog
