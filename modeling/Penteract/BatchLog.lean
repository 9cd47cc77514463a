/-
# The log of batches

A batch can be processed when its slot, its data and enough acknowledgements of its replication
have arrived, and all batches before it can.  The three kinds of messages come in any order; the
counter of the replication of a batch goes below zero if acknowledgements come before the slot.
The log is compared with the history of the calls.
-/
import Penteract.Lib.InOrderLog
import Penteract.Lib.Run
import Penteract.Configuration

namespace Slog

open List Option AssocMap

structure Batch where
  id : BatchId
  transactions : List Transaction := []
  deriving DecidableEq, Repr

/-- Positions are numbered without overflow. -/
abbrev AsyncLog := InOrderLog

structure BatchLog where
  slots : AsyncLog BatchId := {}
  batches : AssocMap BatchId Batch := ∅
  replication : AssocMap BatchId ℤ := ∅
  readyBatches : List (SlotId × BatchId) := []

namespace BatchLog

/-- One iteration of `UpdateReadyBatches`, undefined where the loop is left. -/
def updateStep (bl : BatchLog) : Option BatchLog :=
  bl.slots.peek.bind fun id =>
    if id ∈ bl.batches ∧ bl.replication.lookup id = some 0 then
      some { bl with
        slots := bl.slots.advance,
        replication := bl.replication.erase id,
        readyBatches := bl.readyBatches ++ [(bl.slots.next, id)] }
    else none

def updateReadyBatches (bl : BatchLog) : BatchLog := Loop.run updateStep bl.slots.size bl

def addBatch (bl : BatchLog) (batch : Batch) : BatchLog :=
  updateReadyBatches { bl with batches := bl.batches.insert batch.id batch }

def ackReplication (bl : BatchLog) (id : BatchId) : BatchLog :=
  updateReadyBatches { bl with
    replication := bl.replication.insert id ((bl.replication.lookup id).getD 0 - 1) }

/-- `none` is the error of a slot that is taken. -/
def addSlot (bl : BatchLog) (slot : SlotId) (id : BatchId) (replicationFactor : ℕ) :
    Option BatchLog :=
  (bl.slots.insert slot id).map fun slots =>
    updateReadyBatches { bl with
      slots := slots,
      replication := bl.replication.insert id
        ((bl.replication.lookup id).getD 0 + replicationFactor) }

def hasNextBatch (bl : BatchLog) : Bool := bl.readyBatches ≠ []

/-- `none` is the error of a call when no batch is ready. -/
def nextBatch (bl : BatchLog) : Option ((SlotId × Batch) × BatchLog) :=
  match bl.readyBatches with
  | [] => none
  | (slot, id) :: rest =>
    (bl.batches.lookup id).map fun batch =>
      ((slot, batch), { bl with readyBatches := rest, batches := bl.batches.erase id })

end BatchLog

/-! ## What was added to a log, and what it returned -/

structure BatchHistory where
  slots : List (SlotId × BatchId × ℕ) := []
  data : List Batch := []
  acks : List BatchId := []
  emitted : List (SlotId × Batch) := []

namespace BatchHistory

/-- The slot, the data and all acknowledgements of the batch in the slot have arrived. -/
def Complete (H : BatchHistory) (slot : SlotId) : Prop :=
  ∃ id k, (slot, id, k) ∈ H.slots ∧ (∃ b ∈ H.data, b.id = id) ∧ H.acks.count id = k

/-- Slots are distinct, a batch has one slot, and it is not acknowledged too often. -/
structure Ok (H : BatchHistory) : Prop where
  slots_nodup : (H.slots.map fun e => e.1).Nodup
  ids_nodup : (H.slots.map fun e => e.2.1).Nodup
  acks_le : ∀ e ∈ H.slots, H.acks.count e.2.1 ≤ e.2.2

variable {H : BatchHistory} {e e' : SlotId × BatchId × ℕ}

theorem Ok.slot_unique (h : H.Ok) (he : e ∈ H.slots) (he' : e' ∈ H.slots) (heq : e.1 = e'.1) : e = e' :=
  inj_on_of_nodup_map h.slots_nodup he he' heq

theorem Ok.id_unique (h : H.Ok) (he : e ∈ H.slots) (he' : e' ∈ H.slots) (heq : e.2.1 = e'.2.1) :
    e = e' :=
  inj_on_of_nodup_map h.ids_nodup he he' heq

end BatchHistory

namespace BatchLog

/-- The slots and ids of the batches that were made ready, the emitted ones first. -/
def ordered (bl : BatchLog) (H : BatchHistory) : List (SlotId × BatchId) :=
  H.emitted.map (fun e => (e.1, e.2.id)) ++ bl.readyBatches

/-- **The log follows its history**, except that a complete batch may still have to be made
ready. -/
structure Follows (bl : BatchLog) (H : BatchHistory) : Prop where
  ok : H.Ok
  slots : bl.slots.Follows (H.slots.map fun e => (e.1, e.2.1))
  order : (bl.ordered H).map Prod.fst = List.range bl.slots.next
  known : ∀ e ∈ bl.ordered H, ∃ k, (e.1, e.2, k) ∈ H.slots
  emitted : ∀ e ∈ H.emitted, e.2 ∈ H.data
  batches : ∀ id b, bl.batches.lookup id = some b → b.id = id ∧ b ∈ H.data
  present : ∀ b ∈ H.data, (∀ e ∈ H.emitted, e.2.id ≠ b.id) → b.id ∈ bl.batches
  replication : ∀ e ∈ H.slots, bl.slots.next ≤ e.1 →
    bl.replication.lookup e.2.1 = some ((e.2.2 : ℤ) - H.acks.count e.2.1)
  unslotted : ∀ id, id ∉ H.slots.map (fun e => e.2.1) →
    (bl.replication.lookup id).getD 0 = - H.acks.count id
  complete : ∀ j < bl.slots.next, H.Complete j

namespace Follows

variable {bl bl' : BatchLog} {H : BatchHistory}

theorem init : Follows {} {} where
  ok := ⟨by simp, by simp, by simp⟩
  slots := .init
  order := rfl
  known := by simp [ordered]
  emitted := by simp
  batches := by simp
  present := by simp
  replication := by simp
  unslotted := by simp
  complete := by simp

/-- A batch whose turn has not come has not been emitted. -/
theorem not_emitted (h : bl.Follows H) {e : SlotId × BatchId × ℕ} (he : e ∈ H.slots)
    (hnext : bl.slots.next ≤ e.1) : ∀ e' ∈ H.emitted, e'.2.id ≠ e.2.1 := by
  intro e' he' heq
  have hord : (e'.1, e'.2.id) ∈ bl.ordered H :=
    mem_append_left _ (mem_map_of_mem (f := fun e => (e.1, e.2.id)) he')
  obtain ⟨k, hk⟩ := h.known _ hord
  have hslot : e'.1 = e.1 := congrArg Prod.fst (h.ok.id_unique hk he heq)
  have hlt : e'.1 ∈ List.range bl.slots.next := h.order ▸ mem_map_of_mem hord
  rw [mem_range, hslot] at hlt
  exact absurd hlt (not_lt.mpr hnext)

/-- The test of the loop, in terms of the history. -/
theorem complete_next_iff (h : bl.Follows H) :
    H.Complete bl.slots.next ↔ ∃ id, bl.slots.peek = some id ∧ id ∈ bl.batches ∧
      bl.replication.lookup id = some 0 := by
  constructor
  · rintro ⟨id, k, hslot, ⟨b, hb, rfl⟩, hk⟩
    refine ⟨b.id, h.slots.peek_eq_some.mpr (mem_map.mpr ⟨_, hslot, rfl⟩),
      h.present b hb (h.not_emitted hslot le_rfl), ?_⟩
    rw [h.replication _ hslot le_rfl]
    simp [hk]
  · rintro ⟨id, hpeek, hbatch, hrep⟩
    obtain ⟨e, he, heq⟩ := mem_map.mp (h.slots.peek_eq_some.mp hpeek)
    obtain ⟨hslot, hid⟩ := Prod.mk.inj heq
    obtain ⟨b, hb⟩ := mem_iff_lookup.mp hbatch
    obtain ⟨hbid, hdata⟩ := h.batches id b hb
    have hcount := h.replication e he hslot.ge
    rw [hid, hrep, some_inj] at hcount
    refine ⟨id, e.2.2, ?_, ⟨b, hdata, hbid⟩, by omega⟩
    rw [← hslot, ← hid]
    exact he

theorem updateStep (h : bl.Follows H) (hs : bl.updateStep = some bl') : bl'.Follows H := by
  rw [BatchLog.updateStep, bind_eq_some_iff] at hs
  obtain ⟨id, hpeek, hs⟩ := hs
  split_ifs at hs with hready
  cases hs
  have hcomplete := h.complete_next_iff.mpr ⟨id, hpeek, hready⟩
  obtain ⟨e, he, heq⟩ := mem_map.mp (h.slots.peek_eq_some.mp hpeek)
  obtain ⟨hslot, hid⟩ := Prod.mk.inj heq
  have hordered : ordered { bl with
      slots := bl.slots.advance,
      replication := bl.replication.erase id,
      readyBatches := bl.readyBatches ++ [(bl.slots.next, id)] } H =
        bl.ordered H ++ [(bl.slots.next, id)] := (append_assoc _ _ _).symm
  refine ⟨h.ok, h.slots.advance, ?_, ?_, h.emitted, h.batches, h.present, ?_, ?_, ?_⟩
  · rw [hordered, List.map_append, h.order, map_singleton, InOrderLog.advance_next,
      range_succ]
  · rw [hordered]
    intro e' he'
    rcases mem_append.mp he' with he' | he'
    · exact h.known e' he'
    · rw [mem_singleton.mp he']
      exact ⟨e.2.2, by rw [← hslot, ← hid]; exact he⟩
  · intro e' he' hle
    rw [InOrderLog.advance_next] at hle
    have hne : e'.2.1 ≠ id := by
      intro heq'
      have hee := h.ok.id_unique he' he (heq'.trans hid.symm)
      rw [hee, hslot] at hle
      omega
    rw [lookup_erase', if_neg hne]
    exact h.replication e' he' (by omega)
  · intro id' hid'
    have hne : id' ≠ id := by
      rintro rfl
      exact hid' (mem_map.mpr ⟨e, he, hid⟩)
    rw [lookup_erase', if_neg hne]
    exact h.unslotted id' hid'
  · intro j hj
    rw [InOrderLog.advance_next] at hj
    rcases Nat.lt_succ_iff_lt_or_eq.mp hj with hj | rfl
    · exact h.complete j hj
    · exact hcomplete

end Follows

/-- **The log follows its history**, and no complete batch waits to be made ready. -/
structure Inv (bl : BatchLog) (H : BatchHistory) : Prop extends bl.Follows H where
  maximal : ¬ H.Complete bl.slots.next

theorem Follows.updateReadyBatches {bl : BatchLog} {H : BatchHistory} (h : bl.Follows H) :
    bl.updateReadyBatches.Inv H := by
  have hfollows : bl.updateReadyBatches.Follows H :=
    Loop.run_inv (P := fun bl : BatchLog => bl.Follows H) (fun _ _ h hs => h.updateStep hs) _ h
  have hdone : bl.updateReadyBatches.updateStep = none := by
    refine Loop.run_done (m := fun bl : BatchLog => bl.slots.size) (fun bl bl' hs => ?_) le_rfl
    rw [BatchLog.updateStep, bind_eq_some_iff] at hs
    obtain ⟨id, hpeek, hs⟩ := hs
    split_ifs at hs
    cases hs
    exact InOrderLog.size_advance hpeek
  refine ⟨hfollows, fun hcomplete => ?_⟩
  obtain ⟨id, hpeek, hready⟩ := hfollows.complete_next_iff.mp hcomplete
  rw [BatchLog.updateStep, hpeek, bind_some, if_pos hready] at hdone
  cases hdone

namespace Inv

variable {bl bl' : BatchLog} {H : BatchHistory}

theorem init : Inv {} {} := ⟨.init, by simp [BatchHistory.Complete]⟩

/-- **A batch is available if and only if it and every batch before it are complete.** -/
theorem lt_next_iff (h : bl.Inv H) (i : SlotId) :
    i < bl.slots.next ↔ ∀ j ≤ i, H.Complete j := by
  constructor
  · intro hi j hj
    exact h.complete j (hj.trans_lt hi)
  · intro hall
    by_contra hi
    exact h.maximal (hall _ (not_lt.mp hi))

theorem length_ordered (h : bl.Inv H) :
    H.emitted.length + bl.readyBatches.length = bl.slots.next := by
  have := congrArg List.length h.order
  simpa [ordered] using this

theorem addBatch (h : bl.Inv H) (b : Batch) :
    (bl.addBatch b).Inv { H with data := H.data ++ [b] } := by
  refine Follows.updateReadyBatches ⟨⟨h.ok.slots_nodup, h.ok.ids_nodup, h.ok.acks_le⟩, h.slots,
    h.order, h.known, fun e he => mem_append_left _ (h.emitted e he), fun id b' hb' => ?_,
    fun b' hb' hnew => ?_, h.replication, h.unslotted, fun j hj => ?_⟩
  · rw [lookup_insert'] at hb'
    split_ifs at hb' with hid
    · cases hb'
      exact ⟨hid.symm, by simp⟩
    · exact ⟨(h.batches id b' hb').1, mem_append_left _ (h.batches id b' hb').2⟩
  · rw [mem_iff_lookup, lookup_insert']
    split_ifs with hid
    · exact ⟨b, rfl⟩
    · rw [← mem_iff_lookup]
      rcases mem_append.mp hb' with hb' | hb'
      · exact h.present b' hb' hnew
      · exact absurd (congrArg Batch.id (mem_singleton.mp hb')) hid
  · obtain ⟨id, k, hslot, ⟨b', hb', hid⟩, hk⟩ := h.complete j hj
    exact ⟨id, k, hslot, ⟨b', mem_append_left _ hb', hid⟩, hk⟩

variable {id : BatchId}

theorem ackReplication (h : bl.Inv H) (hle : ∀ e ∈ H.slots, e.2.1 = id → H.acks.count id < e.2.2) :
    (bl.ackReplication id).Inv { H with acks := H.acks ++ [id] } := by
  have hcount : ∀ id', (H.acks ++ [id]).count id' =
      H.acks.count id' + if id' = id then 1 else 0 := by
    intro id'
    rw [count_append, count_singleton]
    by_cases hid : id' = id
    · simp [hid]
    · simp [hid, Ne.symm hid]
  refine Follows.updateReadyBatches ⟨⟨h.ok.slots_nodup, h.ok.ids_nodup, fun e he => ?_⟩, h.slots,
    h.order, h.known, h.emitted, h.batches, h.present, fun e he hnext => ?_, fun id' hid' => ?_,
    fun j hj => ?_⟩
  · have := h.ok.acks_le e he
    rw [hcount]
    split_ifs with hid
    · have := hle e he hid
      rw [hid]
      omega
    · omega
  · have hrep := h.replication e he hnext
    rw [lookup_insert', hcount]
    split_ifs with hid
    · rw [← hid, hrep, getD_some]
      push_cast
      congr 1
      ring
    · simpa using hrep
  · have hrep := h.unslotted id' hid'
    rw [lookup_insert', hcount]
    split_ifs with hid
    · rw [getD_some, ← hid, hrep]
      push_cast
      ring
    · simpa using hrep
  · obtain ⟨id', k, hslot, hdata, hk⟩ := h.complete j hj
    have hne : id' ≠ id := by
      rintro rfl
      exact absurd hk (hle _ hslot rfl).ne
    refine ⟨id', k, hslot, hdata, ?_⟩
    rw [hcount, if_neg hne]
    exact hk

theorem addSlot (h : bl.Inv H) {slot : SlotId} {k : ℕ} (hslot : slot ∉ H.slots.map fun e => e.1)
    (hid : id ∉ H.slots.map fun e => e.2.1) (hk : H.acks.count id ≤ k) :
    ∃ bl', bl.addSlot slot id k = some bl' ∧
      bl'.Inv { H with slots := H.slots ++ [(slot, id, k)] } := by
  have hnext : bl.slots.next ≤ slot := by
    by_contra hlt
    obtain ⟨id', k', hmem, -⟩ := h.complete slot (not_le.mp hlt)
    exact hslot (mem_map.mpr ⟨_, hmem, rfl⟩)
  obtain ⟨slots', hins, hnext', hfollows⟩ := h.slots.insert (a := id) hnext
    (by simpa [List.map_map] using hslot)
  suffices hF : Follows { bl with
      slots := slots',
      replication := bl.replication.insert id ((bl.replication.lookup id).getD 0 + k) }
        { H with slots := H.slots ++ [(slot, id, k)] } from
    ⟨_, by rw [BatchLog.addSlot, hins, map_some], hF.updateReadyBatches⟩
  refine ⟨⟨?_, ?_, fun e he => ?_⟩, ?_, ?_, fun e he => ?_, h.emitted, h.batches, h.present,
      fun e he hle => ?_, fun id' hid' => ?_, fun j hj => ?_⟩
  · rw [List.map_append, map_singleton, ← concat_eq_append, nodup_concat]
    exact ⟨hslot, h.ok.slots_nodup⟩
  · rw [List.map_append, map_singleton, ← concat_eq_append, nodup_concat]
    exact ⟨hid, h.ok.ids_nodup⟩
  · rcases mem_append.mp he with he | he
    · exact h.ok.acks_le e he
    · rw [mem_singleton.mp he]
      exact hk
  · rw [List.map_append]
    exact hfollows
  · dsimp only
    rw [hnext']
    exact h.order
  · obtain ⟨k', hk'⟩ := h.known e he
    exact ⟨k', mem_append_left _ hk'⟩
  · dsimp only at hle ⊢
    rw [lookup_insert']
    rcases mem_append.mp he with he | he
    · have hne : e.2.1 ≠ id := fun heq => hid (mem_map.mpr ⟨e, he, heq⟩)
      rw [if_neg hne]
      exact h.replication e he (hnext' ▸ hle)
    · rw [mem_singleton.mp he, if_pos rfl, h.unslotted id hid]
      congr 1
      ring
  · rw [List.map_append, mem_append, not_or] at hid'
    have hne : id' ≠ id := by simpa using hid'.2
    dsimp only
    rw [lookup_insert', if_neg hne]
    exact h.unslotted id' hid'.1
  · obtain ⟨id', k', hmem, hrest⟩ := h.complete j (hnext' ▸ hj)
    exact ⟨id', k', mem_append_left _ hmem, hrest⟩

/-- **`NextBatch` returns the batch of the next slot**, with its data. -/
theorem nextBatch (h : bl.Inv H) (hnext : bl.hasNextBatch) :
    ∃ b bl', bl.nextBatch = some ((H.emitted.length, b), bl') ∧
      bl'.Inv { H with emitted := H.emitted ++ [(H.emitted.length, b)] } := by
  obtain ⟨⟨slot, id⟩, rest, hready⟩ := exists_cons_of_ne_nil (of_decide_eq_true hnext)
  have hord : bl.ordered H = H.emitted.map (fun e => (e.1, e.2.id)) ++ (slot, id) :: rest := by
    rw [ordered, hready]
  have hmem : (slot, id) ∈ bl.ordered H := by
    rw [hord]
    simp
  -- the slot is the next one in the order
  have hslot : slot = H.emitted.length := by
    have hget : ((bl.ordered H).map Prod.fst)[H.emitted.length]? = some slot := by
      rw [hord]
      simp
    rw [h.order] at hget
    obtain ⟨_, hslot⟩ := List.getElem?_eq_some_iff.mp hget
    rw [getElem_range] at hslot
    exact hslot.symm
  -- its data is still there
  obtain ⟨k, hk⟩ := h.known _ hmem
  have hfresh : ∀ e ∈ H.emitted, e.2.id ≠ id := by
    intro e he hid
    have hnd : ((bl.ordered H).map Prod.fst).Nodup := h.order ▸ nodup_range
    have hmemE : (e.1, e.2.id) ∈ H.emitted.map fun e => (e.1, e.2.id) :=
      mem_map_of_mem (f := fun e => (e.1, e.2.id)) he
    obtain ⟨k', hk'⟩ := h.known _ (mem_append_left _ hmemE)
    have hsame : e.1 = slot := congrArg Prod.fst (h.ok.id_unique hk' hk hid)
    rw [hord, List.map_append, nodup_append] at hnd
    exact hnd.2.2 e.1 (mem_map_of_mem hmemE) slot (by simp) hsame
  have hlt : slot < bl.slots.next := by
    have := mem_map_of_mem (f := Prod.fst) hmem
    rwa [h.order, mem_range] at this
  obtain ⟨id', k', hk', ⟨b, hb, rfl⟩, -⟩ := h.complete slot hlt
  obtain rfl : b.id = id := congrArg (fun e => e.2.1) (h.ok.slot_unique hk' hk rfl)
  obtain ⟨b', hb'⟩ := mem_iff_lookup.mp (h.present b hb hfresh)
  obtain ⟨hid', hdata'⟩ := h.batches _ b' hb'
  have hord' : ordered { bl with readyBatches := rest, batches := bl.batches.erase b.id }
      { H with emitted := H.emitted ++ [(H.emitted.length, b')] } = bl.ordered H := by
    rw [hord, ordered, List.map_append, append_assoc, hslot, ← hid']
    rfl
  refine ⟨b', { bl with readyBatches := rest, batches := bl.batches.erase b.id },
    by rw [BatchLog.nextBatch, hready]; simp only [hb', map_some, hslot],
    ⟨⟨⟨h.ok.slots_nodup, h.ok.ids_nodup, h.ok.acks_le⟩, h.slots, by rw [hord']; exact h.order,
      by rw [hord']; exact h.known, fun e he => ?_, fun id'' b'' hb'' => ?_,
      fun b'' hb'' hnew => ?_, h.replication, h.unslotted, h.complete⟩, h.maximal⟩⟩
  · rcases mem_append.mp he with he | he
    · exact h.emitted e he
    · rw [mem_singleton.mp he]
      exact hdata'
  · rw [lookup_erase'] at hb''
    split_ifs at hb''
    exact h.batches id'' b'' hb''
  · have hne : b''.id ≠ b.id := fun heq =>
      hnew (H.emitted.length, b') (by simp) (hid'.trans heq.symm)
    rw [mem_iff_lookup, lookup_erase', if_neg hne, ← mem_iff_lookup]
    exact h.present b'' hb'' fun e he => hnew e (mem_append_left _ he)

theorem mem_ordered_of_emitted (h : bl.Inv H) {e : SlotId × Batch} (he : e ∈ H.emitted) :
    (∃ k, (e.1, e.2.id, k) ∈ H.slots) ∧ e.1 < bl.slots.next := by
  have hmem : (e.1, e.2.id) ∈ bl.ordered H :=
    mem_append_left _ (mem_map_of_mem (f := fun e => (e.1, e.2.id)) he)
  have hlt := mem_map_of_mem (f := Prod.fst) hmem
  rw [h.order, mem_range] at hlt
  exact ⟨h.known _ hmem, hlt⟩

/-- The slots that were emitted, in order. -/
theorem emitted_slots (h : bl.Inv H) :
    H.emitted.map Prod.fst = List.range H.emitted.length := by
  have htake := congrArg (List.take H.emitted.length) h.order
  have hle : H.emitted.length ≤ bl.slots.next := by
    rw [← h.length_ordered]
    exact Nat.le_add_right _ _
  rw [List.take_range, min_eq_left hle, ordered, List.map_append, List.map_map,
    List.take_left' (by simp)] at htake
  exact htake

theorem hasNextBatch_iff (h : bl.Inv H) :
    bl.hasNextBatch = true ↔ ∀ j ≤ H.emitted.length, H.Complete j := by
  rw [← h.lt_next_iff, ← h.length_ordered, hasNextBatch, decide_eq_true_eq,
    ← length_pos_iff]
  exact (lt_add_iff_pos_right _).symm

end Inv

end BatchLog

/-! ## Runs -/

inductive BatchCall where
  | addBatch (b : Batch)
  | addSlot (slot : SlotId) (id : BatchId) (k : ℕ)
  | ackReplication (id : BatchId)
  | nextBatch

/-- A log with its history. -/
structure BatchRun where
  log : BatchLog := {}
  history : BatchHistory := {}

namespace BatchRun

/-- The calls that the log is promised: distinct slots, one slot for each batch, and not more
acknowledgements than the slot of the batch says, whether they come before or after it. -/
def Allowed (s : BatchRun) : BatchCall → Prop
  | .addBatch _ => True
  | .addSlot slot id k => (slot ∉ s.history.slots.map fun e => e.1) ∧
      (id ∉ s.history.slots.map fun e => e.2.1) ∧ s.history.acks.count id ≤ k
  | .ackReplication id => ∀ e ∈ s.history.slots, e.2.1 = id → s.history.acks.count id < e.2.2
  | .nextBatch => s.log.hasNextBatch

instance (s : BatchRun) : ∀ c, Decidable (s.Allowed c)
  | .addBatch _ => isTrue trivial
  | .addSlot _ _ _ => inferInstanceAs (Decidable (_ ∧ _ ∧ _))
  | .ackReplication id => inferInstanceAs (Decidable (∀ e ∈ s.history.slots, e.2.1 = id → _))
  | .nextBatch => inferInstanceAs (Decidable (_ = true))

/-- A call; `none` is an error. -/
def call (s : BatchRun) : BatchCall → Option BatchRun
  | .addBatch b =>
    some { log := s.log.addBatch b,
           history := { s.history with data := s.history.data ++ [b] } }
  | .addSlot slot id k =>
    (s.log.addSlot slot id k).map fun log =>
      { log := log, history := { s.history with slots := s.history.slots ++ [(slot, id, k)] } }
  | .ackReplication id =>
    some { log := s.log.ackReplication id,
           history := { s.history with acks := s.history.acks ++ [id] } }
  | .nextBatch =>
    s.log.nextBatch.map fun r =>
      { log := r.2, history := { s.history with emitted := s.history.emitted ++ [r.1] } }

/-- What holds of the batches that the log has returned and can return. -/
structure Ordered (s : BatchRun) : Prop where
  slots : s.history.emitted.map Prod.fst = List.range s.history.emitted.length
  emitted : ∀ e ∈ s.history.emitted, e.2 ∈ s.history.data ∧
    (∃ k, (e.1, e.2.id, k) ∈ s.history.slots) ∧ ∀ j ≤ e.1, s.history.Complete j
  available : s.log.hasNextBatch ↔ ∀ j ≤ s.history.emitted.length, s.history.Complete j
  succeeds : ∀ c, s.Allowed c → (s.call c).isSome

theorem call_inv {s : BatchRun} {c : BatchCall} (h : s.log.Inv s.history) (hc : s.Allowed c) :
    ∃ s', s.call c = some s' ∧ s'.log.Inv s'.history := by
  cases c with
  | addBatch b => exact ⟨_, rfl, h.addBatch b⟩
  | addSlot slot id k =>
    obtain ⟨log, hlog, hI⟩ := h.addSlot hc.1 hc.2.1 hc.2.2
    exact ⟨_, by rw [call, hlog]; rfl, hI⟩
  | ackReplication id => exact ⟨_, rfl, h.ackReplication hc⟩
  | nextBatch =>
    obtain ⟨b, log, hlog, hI⟩ := h.nextBatch hc
    exact ⟨_, by rw [call, hlog]; rfl, hI⟩

/-- **The log returns exactly the ordered and replicated batches**, in the order of their slots,
in every run of allowed calls. -/
theorem ordered_of_allowed {cs : List BatchCall} {s : BatchRun}
    (hallowed : Lts.Meets call Allowed {} cs) (hrun : Lts.run call {} cs = some s) :
    s.Ordered := by
  have hI : s.log.Inv s.history := by
    refine Lts.invariant_meets call (P := fun s => s.log.Inv s.history) BatchLog.Inv.init
      (fun s c s' _ hI hc hs => ?_) hallowed hrun
    obtain ⟨s₁, hs₁, hI'⟩ := call_inv hI hc
    cases hs₁.symm.trans hs
    exact hI'
  refine ⟨hI.emitted_slots, fun e he => ?_, hI.hasNextBatch_iff, fun c hc => ?_⟩
  · obtain ⟨hknown, hlt⟩ := hI.mem_ordered_of_emitted he
    exact ⟨hI.emitted e he, hknown, (hI.lt_next_iff e.1).mp hlt⟩
  · obtain ⟨s₁, hs₁, -⟩ := call_inv hI hc
    rw [hs₁]
    rfl

/-- The acknowledgement and the data come before the slot, and the second slot before the first. -/
def earlyCalls : List BatchCall :=
  [.ackReplication 7, .addBatch { id := 7 }, .addSlot 1 9 0, .addSlot 0 7 1, .nextBatch,
    .addBatch { id := 9 }, .nextBatch]

theorem ordered_early : ∃ s, Lts.Meets call Allowed {} earlyCalls ∧
    Lts.run call {} earlyCalls = some s ∧ s.Ordered ∧
    s.history.emitted.map (fun e => (e.1, e.2.id)) = [(0, 7), (1, 9)] := by
  have hallowed : Lts.Meets call Allowed {} earlyCalls := by decide +kernel
  obtain ⟨s, hs, hemitted⟩ : ∃ s ∈ Lts.run call {} earlyCalls,
      s.history.emitted.map (fun e => (e.1, e.2.id)) = [(0, 7), (1, 9)] := by decide +kernel
  exact ⟨s, hallowed, hs, ordered_of_allowed hallowed hs, hemitted⟩

end BatchRun

end Slog
