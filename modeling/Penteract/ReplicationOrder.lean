/-
# The acknowledgements of a batch

A machine waits for as many acknowledgements of a batch as the replication factor says.  The leader
asks for acknowledgements from the first regions of the replication order of its region, which comes
from a text of the configuration.
-/
import Penteract.LogManager

namespace Slog

open List

/-! ## The texts of the configuration -/

def isSpace (c : Char) : Bool := c = ' ' || (9 ≤ c.toNat && c.toNat ≤ 13)

/-- The tokens between the delimiters; empty ones are skipped. -/
def split (str : String) (delim : Char) : List (List Char) :=
  (str.toList.splitOn delim).filter (· ≠ [])

/-- `std::stol`: white space, a sign, and as many digits as there are.  It throws if there is no digit
or if the number does not fit. -/
def stol (token : List Char) : Option ℤ :=
  let rest := token.dropWhile isSpace
  let digits := (if rest.head? = some '-' ∨ rest.head? = some '+' then rest.tail else rest).takeWhile
    Char.isDigit
  let magnitude : ℤ := digits.foldl (fun n c => 10 * n + (c.toNat - '0'.toNat : ℕ)) 0
  let value := if rest.head? = some '-' then -magnitude else magnitude
  if digits ≠ [] ∧ -2 ^ 63 ≤ value ∧ value < 2 ^ 63 then some value else none

/-- The fields of the configuration that replication depends on. -/
structure ReplicationConfig where
  numRegions : ℕ
  replicationFactor : ℕ
  replicationOrder : List String
  deriving DecidableEq, Repr

namespace ReplicationConfig

variable (config : ReplicationConfig) (localRegion : RegionId)

/-- `Configuration::replication_factor`. -/
def factor : ℕ := max config.replicationFactor 1

/-- One token of the list: the number is compared as a signed one and kept as an unsigned one. -/
def parseRegion (token : List Char) : Option (List RegionId) := do
  let r ← stol token
  if r < config.numRegions then
    return if r ≠ localRegion then [(r % 2 ^ 32).toNat] else []
  else none

/-- The replication order that the constructor of a machine of the region makes.  `none` is a failed
check or an exception. -/
def order : Option (List RegionId) :=
  match config.replicationOrder[localRegion]? with
  | none => some []
  | some str => ((split str ',').mapM (config.parseRegion localRegion)).map List.flatten

/-- The constructor accepts the configuration on the machines of the region. -/
def Accepted : Prop :=
  config.replicationFactor ≤ config.numRegions ∧ localRegion < config.numRegions ∧
    (config.order localRegion).isSome

instance : Decidable (config.Accepted localRegion) := inferInstanceAs (Decidable (_ ∧ _ ∧ _))

/-! ## Acknowledgements -/

/-- The regions at the front of the order, from which acknowledgements are needed. -/
def front : List RegionId := ((config.order localRegion).getD []).take (config.factor - 1)

/-- `need_ack_from_region_`; it is written outside of its bounds if the order has a number that is not a
region. -/
def needAckFromRegion : Option (RegionId → Bool) :=
  if ∀ r ∈ config.front localRegion, r < config.numRegions then
    some fun reg => decide (reg ∈ config.front localRegion)
  else none

/-- The regions that the leader asks to acknowledge a batch. -/
def ackRegions : Option (List RegionId) :=
  (config.needAckFromRegion localRegion).map fun needAck =>
    (List.range config.numRegions).filter fun reg => reg ≠ localRegion ∧ needAck reg

/-- The number of acknowledgements that a machine of the region waits for, the last argument of
`AddSlot`. -/
def awaitedAcks : ℕ := config.factor - 1

/-- As many other regions are asked to acknowledge a batch as acknowledgements are awaited. -/
def AcksMatch : Prop :=
  ∃ regions ∈ config.ackRegions localRegion, regions.length = config.awaitedAcks

instance : Decidable (config.AcksMatch localRegion) :=
  inferInstanceAs (Decidable (∃ regions ∈ config.ackRegions localRegion, _))

/-- The replication order starts with enough different other regions. -/
structure HasEnoughRegions : Prop where
  length : config.factor - 1 ≤ ((config.order localRegion).getD []).length
  nodup : (config.front localRegion).Nodup
  region : ∀ r ∈ config.front localRegion, r < config.numRegions ∧ r ≠ localRegion

variable {config localRegion}

theorem length_front_le : (config.front localRegion).length ≤ config.awaitedAcks :=
  length_take_le _ _

theorem length_front_iff : (config.front localRegion).length = config.awaitedAcks ↔
    config.factor - 1 ≤ ((config.order localRegion).getD []).length := by
  rw [front, length_take, awaitedAcks]
  exact min_eq_left_iff

variable {regions : List RegionId}

/-- The regions that are asked are regions of the front, each once. -/
theorem ackRegions_subperm (h : regions ∈ config.ackRegions localRegion) :
    regions.Subperm (config.front localRegion) := by
  obtain ⟨needAck, hneed, rfl⟩ := Option.map_eq_some_iff.mp h
  rw [needAckFromRegion] at hneed
  split_ifs at hneed
  cases hneed
  refine (nodup_range.filter _).subperm fun reg hreg => ?_
  have hand := (mem_filter.mp hreg).2
  simp only [ne_eq, decide_eq_true_eq] at hand
  exact hand.2

/-- All of the front is asked if it has different other regions only. -/
theorem front_subset_ackRegions (h : config.HasEnoughRegions localRegion) :
    ∃ regions ∈ config.ackRegions localRegion, config.front localRegion ⊆ regions := by
  have hneed : config.needAckFromRegion localRegion =
      some fun reg => decide (reg ∈ config.front localRegion) :=
    if_pos fun r hr => (h.region r hr).1
  refine ⟨_, Option.map_eq_some_iff.mpr ⟨_, hneed, rfl⟩, fun reg hreg => mem_filter.mpr ?_⟩
  obtain ⟨hlt, hne⟩ := h.region reg hreg
  exact ⟨mem_range.mpr hlt, decide_eq_true ⟨hne, decide_eq_true hreg⟩⟩

theorem HasEnoughRegions.acksMatch (h : config.HasEnoughRegions localRegion) :
    config.AcksMatch localRegion := by
  obtain ⟨regions, hregions, hsub⟩ := front_subset_ackRegions h
  have hle := (ackRegions_subperm hregions).length_le
  have hge := (h.nodup.subperm hsub).length_le
  exact ⟨regions, hregions, (hle.antisymm hge).trans (length_front_iff.mpr h.length)⟩

theorem AcksMatch.hasEnoughRegions (h : config.AcksMatch localRegion) :
    config.HasEnoughRegions localRegion := by
  obtain ⟨regions, hregions, hlength⟩ := h
  have hsubperm := ackRegions_subperm hregions
  -- The front is as long as the regions that are asked, so it is a permutation of them.
  have hfront : (config.front localRegion).length = config.awaitedAcks :=
    length_front_le.antisymm (hlength ▸ hsubperm.length_le)
  have hperm : regions.Perm (config.front localRegion) :=
    hsubperm.perm_of_length_le (hfront.trans hlength.symm).le
  obtain ⟨needAck, -, rfl⟩ := Option.map_eq_some_iff.mp hregions
  refine ⟨length_front_iff.mp hfront, hperm.nodup_iff.mp (nodup_range.filter _), fun r hr => ?_⟩
  obtain ⟨hlt, hand⟩ := mem_filter.mp (hperm.mem_iff.mpr hr)
  simp only [ne_eq, decide_eq_true_eq] at hand
  exact ⟨mem_range.mp hlt, hand.1⟩

/-! ## The messages of the leader -/

/-- A configuration of the system that comes from the texts, as a machine of the region sees it. -/
structure Describes (config : ReplicationConfig) (localRegion : RegionId) (cfg : Configuration) :
    Prop where
  numRegions : cfg.numRegions = config.numRegions
  factor : cfg.replicationFactor = config.factor
  order : config.order localRegion = some (cfg.replicationOrder localRegion)

/-- The message asks for an acknowledgement. -/
def asksAck : LogMessage → Bool
  | .remoteOrder _ _ _ needAck => needAck
  | _ => false

/-- The orders of the leader that ask for an acknowledgement go to the regions of `ackRegions`. -/
theorem Describes.ackRegions_eq {cfg : Configuration} {me : MachineId}
    (h : config.Describes me.region cfg) (hregions : regions ∈ config.ackRegions me.region)
    (slot : SlotId) (id : BatchId) :
    ((LogManager.remoteOrders cfg me slot id).filter fun env => asksAck env.message).map
      (fun env => env.receiver.region) = regions := by
  obtain ⟨needAck, hneed, rfl⟩ := Option.map_eq_some_iff.mp hregions
  rw [needAckFromRegion] at hneed
  split_ifs at hneed
  cases hneed
  have hfront : (cfg.replicationOrder me.region).take (cfg.replicationFactor - 1) =
      config.front me.region := by
    rw [front, h.order, h.factor, Option.getD_some]
  rw [LogManager.remoteOrders, filter_map, filter_filter, h.numRegions, map_map]
  refine (map_id _).trans (filter_congr fun reg _ => ?_)
  change (decide (reg ∈ List.take _ _) && decide (reg ≠ me.region)) = _
  rw [hfront, Bool.and_comm, Bool.decide_and, Bool.decide_eq_true]

/-- In every configuration, and so in every one that the constructor accepts, the acknowledgements that
the machines of a region wait for are those that its leader asks for if and only if the order of the
region starts with enough different other regions. -/
theorem acksMatch_iff_hasEnoughRegions (config : ReplicationConfig) (localRegion : RegionId) :
    config.AcksMatch localRegion ↔ config.HasEnoughRegions localRegion :=
  ⟨AcksMatch.hasEnoughRegions, HasEnoughRegions.acksMatch⟩

/-- The example of the documentation of the field. -/
def documented : ReplicationConfig := ⟨3, 3, ["1,2", "2,1,0", ""]⟩

/-- Region 2 asks nobody for an acknowledgement and waits for two. -/
theorem not_acksMatch_documented : documented.Accepted 2 ∧ documented.ackRegions 2 = some [] ∧
    documented.awaitedAcks = 2 ∧ ¬ documented.AcksMatch 2 := by
  decide +kernel

end ReplicationConfig

end Slog
