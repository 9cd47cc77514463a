/-
# Counters and masters

The forwarder of a replica gives the keys of a transaction the metadata that the replica has stored,
or what the metadata initializer computes for a key that is not stored.  Schedulers and workers of all
replicas compare this metadata with what they have stored themselves: equal counters have to mean
equal masters.  The masters of a key are a history that all replicas go through, each at its own pace,
one remaster for every step of the counter.  A key that is not stored has a place in that history, which
is not the one that `CheckCounters` gives it.
-/
import Penteract.Execution
import Penteract.Worker

namespace Slog

open Option Function

/-- The metadata that a forwarder finds for a key: in `ProcessForwardTxn` for a key of its own
partition, otherwise in `ProcessLookUpMasterRequest`.  With one region, the metadata is
irrelevant. -/
def lookUpMaster (numRegions : ℕ) (compute : Key → RegionId) (storage : Storage) (key : Key) :
    MasterMetadata :=
  if numRegions = 1 then { master := 0 }
  else
    match storage key with
    | some record => record.metadata
    | none => { master := compute key }

/-- The metadata that a remaster writes. -/
def Transaction.remastered (t : Transaction) : Option (Key × MasterMetadata) :=
  match t.program, t.keys with
  | .remaster newMaster _, kv :: _ => some (kv.key, { master := newMaster, counter := kv.counter + 1 })
  | _, _ => none

/-- A worker of a partition.  The transactions that it executes have the new values already. -/
def writingWorker (isLocal : Key → Bool) : WorkerConfig where
  localPartition := 0
  lockManager := .rma
  remasterProtocol := .simple
  execution t storage := (t, t.applyWrites isLocal storage)

/-- A region and one of its replicas. -/
abbrev RegionReplica := RegionId × ℕ

/-- A forwarder of the replica `r` looks up a key, or a worker of the replica executes. -/
inductive MasterEvent where
  | lookUp (r : RegionReplica) (key : Key)
  | execute (r : RegionReplica) (isLocal : Key → Bool) (t : Transaction)

/-- The replicas of a region and of others, with all their partitions.  `forwarded` is the metadata that
the forwarders have found so far, and `masters` the masters of the keys by their counters. -/
structure MasterRun where
  storage : RegionReplica → Storage
  forwarded : List (Key × MasterMetadata) := []
  masters : Key → ℕ → Option RegionId

namespace MasterRun

variable (numRegions : ℕ) (compute : Key → RegionId)

/-- All replicas have loaded the same records. -/
def init (loaded : Storage) : MasterRun where
  storage _ := loaded
  masters key counter :=
    let metadata := ((loaded key).map Record.metadata).getD { master := compute key }
    if counter = metadata.counter then some metadata.master else none

/-- The metadata of the transaction comes from forwarders. -/
def Carries (s : MasterRun) (t : Transaction) : Prop :=
  ∀ kv ∈ t.keys, ∃ metadata ∈ kv.metadata, (kv.key, metadata) ∈ s.forwarded

instance (s : MasterRun) (t : Transaction) : Decidable (s.Carries t) :=
  inferInstanceAs (Decidable (∀ kv ∈ t.keys, _))

/-- Masters change by remasters only: a remaster increments the counter that is stored, and all
replicas execute the same one; a key that is deleted has the metadata that a new key has. -/
structure KeepsMasters (s : MasterRun) (r : RegionReplica) (t : Transaction) : Prop where
  stored : ∀ moved ∈ t.remastered, ∃ record ∈ s.storage r moved.1,
    record.metadata.counter + 1 = moved.2.counter
  agreed : ∀ moved ∈ t.remastered, ∀ master ∈ s.masters moved.1 moved.2.counter,
    master = moved.2.master
  deleted : ∀ key ∈ t.deletedKeys, ∀ record ∈ s.storage r key,
    record.metadata = { master := compute key }

instance (s : MasterRun) (r : RegionReplica) (t : Transaction) :
    Decidable (s.KeepsMasters compute r t) :=
  decidable_of_iff (_ ∧ _ ∧ _) ⟨fun ⟨h₁, h₂, h₃⟩ => ⟨h₁, h₂, h₃⟩, fun ⟨h₁, h₂, h₃⟩ => ⟨h₁, h₂, h₃⟩⟩

/-- A remaster that is executed continues the history of the key. -/
def record (s : MasterRun) (t : Transaction) : Key → ℕ → Option RegionId :=
  match t.remastered with
  | none => s.masters
  | some moved => update s.masters moved.1
      (update (s.masters moved.1) moved.2.counter (some moved.2.master))

def step (s : MasterRun) : MasterEvent → Option MasterRun
  | .lookUp r key => some { s with
      forwarded := s.forwarded ++ [(key, lookUpMaster numRegions compute (s.storage r) key)] }
  | .execute r isLocal t =>
    if s.Carries t ∧ s.KeepsMasters compute r t then
      (t.executeProgram (writingWorker isLocal) (s.storage r)).map fun result => { s with
        storage := update s.storage r result.2.1,
        masters := s.record t }
    else none

/-- **Equal counters mean equal masters**: the check of `CheckCounters` fails at no replica and for no
transaction. -/
def MastersMatch (s : MasterRun) : Prop :=
  ∀ r t filterByHome, s.Carries t → t.checkCounters filterByHome (s.storage r) ≠ none

/-- A key that a transaction has with the counter of a new key, and that a replica has not stored,
starts at region `0`. -/
def NewKeysAtZero (s : MasterRun) : Prop :=
  ∀ e ∈ s.forwarded, ∀ r, s.storage r e.1 = none → e.2.counter = 0 → compute e.1 = 0

/-! ## One step -/

/-- What holds in every run: stored and forwarded metadata is in the history of the key, and a
key that is not stored has the history of a new key. -/
structure Inv (s : MasterRun) : Prop where
  stored : ∀ r key, ∀ record ∈ s.storage r key,
    s.masters key record.metadata.counter = some record.metadata.master
  forwarded : ∀ e ∈ s.forwarded, s.masters e.1 e.2.counter = some e.2.master
  new : ∀ r key, s.storage r key = none → s.masters key 0 = some (compute key)

variable {numRegions compute} {s s' : MasterRun} {r : RegionReplica} {t : Transaction}

theorem Inv.init {loaded : Storage} : Inv compute (init compute loaded) := by
  refine ⟨fun r key record hrecord => ?_, by simp [MasterRun.init], fun r key hnone => ?_⟩
  · have hloaded : loaded key = some record := hrecord
    simp [MasterRun.init, hloaded]
  · have hloaded : loaded key = none := hnone
    simp [MasterRun.init, hloaded]

theorem Inv.lookUp (h : Inv compute s) (hregions : numRegions ≠ 1) (r : RegionReplica) (key : Key) :
    Inv compute { s with
      forwarded := s.forwarded ++ [(key, lookUpMaster numRegions compute (s.storage r) key)] } := by
  refine ⟨h.stored, fun e he => ?_, h.new⟩
  rcases List.mem_append.mp he with he | he
  · exact h.forwarded e he
  · rw [List.mem_singleton.mp he, lookUpMaster, if_neg hregions]
    cases hkey : s.storage r key with
    | none => exact h.new r key hkey
    | some record => exact h.stored r key record hkey

variable {key : Key} {isLocal : Key → Bool} {storage : Storage} {keys : List KeyValueEntry}

/-- The history only grows. -/
theorem record_of_masters {counter : ℕ} {master : RegionId}
    (hagreed : ∀ moved ∈ t.remastered, ∀ master ∈ s.masters moved.1 moved.2.counter,
      master = moved.2.master) (h : s.masters key counter = some master) :
    s.record t key counter = some master := by
  rw [record]
  cases hmoved : t.remastered with
  | none => exact h
  | some moved =>
    by_cases hkey : key = moved.1
    · subst hkey
      by_cases hcounter : counter = moved.2.counter
      · subst hcounter
        simp [hagreed moved hmoved master h]
      · simp [hcounter, h]
    · simp [hkey, h]

/-- The writes of a transaction store metadata that it carries. -/
theorem stored_of_foldl_applyWrite {record : Record}
    (h : record ∈ keys.foldl (Transaction.applyWrite isLocal) storage key) :
    record ∈ storage key ∨ ∃ kv ∈ keys, kv.key = key ∧
      record.metadata = kv.metadata.getD { master := 0 } := by
  induction keys generalizing storage with
  | nil => exact .inl h
  | cons kv keys ih =>
    rcases ih h with hone | ⟨kv', hkv', hrest⟩
    · rw [Transaction.applyWrite] at hone
      split_ifs at hone with hskip
      · exact .inl hone
      · by_cases hkey : key = kv.key
        · subst hkey
          rw [update_self] at hone
          exact .inr ⟨kv, List.mem_cons_self, rfl, mem_some.mp hone ▸ rfl⟩
        · rw [update_of_ne hkey] at hone
          exact .inl hone
    · exact .inr ⟨kv', List.mem_cons_of_mem kv hkv', hrest⟩

theorem foldl_delete {keys : List Key} :
    keys.foldl (fun storage key => update storage key none) storage key =
      if key ∈ keys then none else storage key := by
  induction keys generalizing storage with
  | nil => rfl
  | cons k keys ih =>
    rw [List.foldl_cons, ih]
    by_cases hk : key = k <;> by_cases hmem : key ∈ keys <;> simp [hk, hmem]

/-- A write stores its key. -/
theorem foldl_applyWrite_ne_none (h : storage key ≠ none) :
    keys.foldl (Transaction.applyWrite isLocal) storage key ≠ none := by
  induction keys generalizing storage with
  | nil => exact h
  | cons kv keys ih =>
    refine ih ?_
    rw [Transaction.applyWrite]
    split_ifs
    · exact h
    · by_cases hkey : key = kv.key
      · simp [hkey]
      · rwa [update_of_ne hkey]

/-- What a transaction writes or leaves out is in the history. -/
theorem Inv.applyWrites (h : Inv compute s) (isLocal : Key → Bool) (hcarries : s.Carries t)
    (hkeeps : s.KeepsMasters compute r t) (key : Key) :
    (∀ record ∈ t.applyWrites isLocal (s.storage r) key,
      s.masters key record.metadata.counter = some record.metadata.master) ∧
    (t.applyWrites isLocal (s.storage r) key = none → s.masters key 0 = some (compute key)) := by
  rw [Transaction.applyWrites, foldl_delete]
  split_ifs with hdeleted
  · refine ⟨by simp, fun _ => ?_⟩
    cases hstored : s.storage r key with
    | none => exact h.new r key hstored
    | some record =>
      have hmasters := h.stored r key record hstored
      rwa [hkeeps.deleted key hdeleted record hstored] at hmasters
  · refine ⟨fun record hrecord => ?_, fun hnone => h.new r key ?_⟩
    · rcases stored_of_foldl_applyWrite hrecord with hrecord | ⟨kv, hkv, rfl, hmetadata⟩
      · exact h.stored r key record hrecord
      · obtain ⟨metadata, hmem, hforwarded⟩ := hcarries kv hkv
        rw [hmetadata, mem_def.mp hmem]
        exact h.forwarded _ hforwarded
    · by_contra hstored
      exact foldl_applyWrite_ne_none hstored hnone

/-- What the worker stores is in the history. -/
theorem Inv.execute_storage (h : Inv compute s) (hcarries : s.Carries t)
    (hkeeps : s.KeepsMasters compute r t) {result : Transaction × Storage × Option (Key × ℕ)}
    (hresult : t.executeProgram (writingWorker isLocal) (s.storage r) = some result) (key : Key) :
    (∀ record ∈ result.2.1 key,
      s.record t key record.metadata.counter = some record.metadata.master) ∧
    (result.2.1 key = none → s.record t key 0 = some (compute key)) := by
  have hold : ∀ counter master, s.masters key counter = some master →
      s.record t key counter = some master := fun counter master =>
    record_of_masters hkeeps.agreed
  have hsame : (∀ record ∈ s.storage r key,
      s.record t key record.metadata.counter = some record.metadata.master) ∧
      (s.storage r key = none → s.record t key 0 = some (compute key)) :=
    ⟨fun record hrecord => hold _ _ (h.stored r key record hrecord),
      fun hnone => hold _ _ (h.new r key hnone)⟩
  cases hprogram : t.program with
  | code procedures =>
    simp only [Transaction.executeProgram, hprogram] at hresult
    split_ifs at hresult
    · cases hresult
      exact hsame
    · cases hresult
      obtain ⟨hstored, hnew⟩ := h.applyWrites isLocal hcarries hkeeps key
      exact ⟨fun record hrecord => hold _ _ (hstored record hrecord),
        fun hnone => hold _ _ (hnew hnone)⟩
  | remaster newMaster lockOnly =>
    cases hkeys : t.keys with
    | nil => simp [Transaction.executeProgram, hprogram, hkeys] at hresult
    | cons kv keys =>
      have hmoved : t.remastered =
          some (kv.key, { master := newMaster, counter := kv.counter + 1 }) := by
        simp [Transaction.remastered, hprogram, hkeys]
      simp only [Transaction.executeProgram, hprogram, hkeys] at hresult
      cases hresult
      dsimp only
      by_cases hkey : key = kv.key
      · subst hkey
        rw [update_self]
        refine ⟨fun record hrecord => ?_, by simp⟩
        cases hrecord
        simp [MasterRun.record, hmoved]
      · rw [update_of_ne hkey]
        exact hsame

theorem Inv.step (hregions : numRegions ≠ 1) (h : Inv compute s) {e : MasterEvent}
    (hs : s.step numRegions compute e = some s') : Inv compute s' := by
  cases e with
  | lookUp r key => exact Option.some.inj hs ▸ h.lookUp hregions r key
  | execute r isLocal t =>
    rw [MasterRun.step] at hs
    split_ifs at hs with hguard
    obtain ⟨result, hresult, rfl⟩ := map_eq_some_iff.mp hs
    have hresult' := h.execute_storage hguard.1 hguard.2 hresult
    have hold : ∀ key counter master, s.masters key counter = some master →
        s.record t key counter = some master := fun key counter master =>
      record_of_masters hguard.2.agreed
    refine ⟨fun r' key record hrecord => ?_, fun e he => hold _ _ _ (h.forwarded e he),
      fun r' key hnone => ?_⟩
    · dsimp only at hrecord
      by_cases hr : r' = r
      · subst hr
        rw [update_self] at hrecord
        exact (hresult' key).1 record hrecord
      · rw [update_of_ne hr] at hrecord
        exact hold _ _ _ (h.stored r' key record hrecord)
    · dsimp only at hnone
      by_cases hr : r' = r
      · subst hr
        rw [update_self] at hnone
        exact (hresult' key).2 hnone
      · rw [update_of_ne hr] at hnone
        exact hold _ _ _ (h.new r' key hnone)

/-! ## Runs -/

/-- The check passes if every key passes. -/
theorem checkKeys_ne_none {skip : KeyValueEntry → Bool} (h : ∀ kv ∈ keys,
      kv.counter = ((storage kv.key).getD {}).metadata.counter →
        kv.master = ((storage kv.key).getD {}).metadata.master) (waiting : Bool) :
    Transaction.checkKeys storage skip keys waiting ≠ none := by
  induction keys generalizing waiting with
  | nil => simp [Transaction.checkKeys]
  | cons kv keys ih =>
    obtain ⟨hkv, hrest⟩ := List.forall_mem_cons.mp h
    simp only [Transaction.checkKeys]
    split_ifs with hskip hlt hgt hmaster
    · exact ih hrest waiting
    · simp
    · exact ih hrest true
    · exact ih hrest waiting
    · exact absurd (hkv (le_antisymm (not_lt.mp hgt) (not_lt.mp hlt))) hmaster

/-- A transaction with one key, as the forwarder has found it. -/
def oneKey (e : Key × MasterMetadata) : Transaction :=
  { internal := { id := 0 }, keys := [{ key := e.1, type := .read, metadata := some e.2 }] }

theorem carries_oneKey {e : Key × MasterMetadata} (he : e ∈ s.forwarded) : s.Carries (oneKey e) := by
  simpa [Carries, oneKey] using he

/-- **In every run, equal counters mean equal masters exactly if the new keys start at region `0`.**
The check compares a key that is not stored with an empty record, whose master is region `0`. -/
theorem mastersMatch_iff (hregions : numRegions ≠ 1) {loaded : Storage}
    (hs : Lts.Reachable (MasterRun.step numRegions compute) (MasterRun.init compute loaded) s) :
    s.MastersMatch ↔ s.NewKeysAtZero compute := by
  have hI : Inv compute s := Lts.invariant _ .init (fun _ _ _ h hs => h.step hregions hs) hs
  constructor
  · intro hmatch e he r hnone hcounter
    have hmaster : e.2.master = compute e.1 := by
      have hmasters := hI.forwarded e he
      rw [hcounter, hI.new r e.1 hnone] at hmasters
      exact (Option.some.inj hmasters).symm
    by_contra hne
    refine hmatch r (oneKey e) false (carries_oneKey he) ?_
    simp [Transaction.checkCounters, Transaction.checkKeys, oneKey, KeyValueEntry.counter,
      KeyValueEntry.master, hnone, hcounter, hmaster, hne]
  · intro hzero r t filterByHome hcarries
    refine checkKeys_ne_none (fun kv hkv hcounter => ?_) _
    obtain ⟨metadata, hmem, hforwarded⟩ := hcarries kv hkv
    have hmasters := hI.forwarded _ hforwarded
    simp only [KeyValueEntry.counter, KeyValueEntry.master, mem_def.mp hmem, map_some,
      getD_some] at hcounter ⊢
    cases hstored : s.storage r kv.key with
    | some record =>
      rw [hstored, getD_some] at hcounter
      have hrecord := hI.stored r kv.key record hstored
      rw [← hcounter, hmasters] at hrecord
      simpa using hrecord
    | none =>
      have hcounter0 : metadata.counter = 0 := by simpa [hstored] using hcounter
      have hnew := hI.new r kv.key hstored
      rw [hcounter0, hnew] at hmasters
      rw [← Option.some.inj hmasters, hzero _ hforwarded r hstored hcounter0]
      rfl

/-- The storage has `A` at region `1`. -/
def storedAtOne : Storage := update (fun _ => none) "A" (some { metadata := { master := 1 } })

/-- A remaster of `A` to region `0`. -/
def moveToZero : Transaction :=
  { internal := { id := 1 },
    program := .remaster 0 false,
    keys := [{ key := "A", type := .write, metadata := some { master := 1 } }] }

/-- One replica executes the remaster, and the others still have the old master. -/
theorem mastersMatch_remastered :
    ∃ s, Lts.run (MasterRun.step 2 fun _ => 0) (MasterRun.init (fun _ => 0) storedAtOne)
        [.lookUp (0, 0) "A", .execute (1, 0) (fun _ => true) moveToZero, .lookUp (1, 0) "A"] = some s ∧
      s.forwarded = [("A", { master := 1 }), ("A", { master := 0, counter := 1 })] ∧
      s.MastersMatch := by
  refine Lts.exists_run (p := fun s => s.forwarded =
    [("A", { master := 1 }), ("A", { master := 0, counter := 1 })]) (by decide +kernel) ?_
  exact fun s hs h => ⟨h, (mastersMatch_iff (by decide) ⟨_, hs⟩).mpr fun _ _ _ _ _ => rfl⟩

/-- **A new key that starts at region `1` fails the check.** -/
theorem not_mastersMatch_newKey :
    ∃ s, Lts.run (MasterRun.step 2 fun _ => 1) (MasterRun.init (fun _ => 1) fun _ => none)
        [.lookUp (0, 0) "A"] = some s ∧ ¬ s.MastersMatch := by
  refine ⟨_, rfl, fun hmatch => ?_⟩
  refine hmatch (0, 0) (oneKey ("A", { master := 1 })) false (carries_oneKey (by simp [lookUpMaster,
    MasterRun.init])) ?_
  decide

end MasterRun

end Slog
