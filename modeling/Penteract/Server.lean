/-
# Answers to the clients

Every partition that takes part in a transaction sends its finished sub-transaction to the server
that coordinates the transaction.  The server merges them as they arrive and answers the client
when the last one is there.  Events and log positions of the transactions are left out.
-/
import Penteract.Lib.AssocMap
import Penteract.LockQueueTail

namespace Slog

inductive AbortCode where
  | other
  | rateLimited
  | restarted
  deriving DecidableEq, Repr

/-- A transaction as it comes back from a partition. -/
structure SubTxn extends Transaction where
  abortCode : AbortCode := .other
  deriving DecidableEq, Repr

namespace SubTxn

def keySet (t : SubTxn) : List Key := t.keys.map KeyValueEntry.key

def withPartitions (t : SubTxn) (parts : List PartitionId) : SubTxn :=
  { t with internal := { t.internal with involvedPartitions := parts } }

/-- The status and the keys of a merge. -/
def mergeResult (txn other : SubTxn) : SubTxn :=
  if other.status = .aborted then
    -- the abort code of `other` is not copied
    { txn with status := .aborted, abortReason := other.abortReason }
  else if txn.status ≠ .aborted then
    { txn with keys := txn.keys ++ other.keys.filter fun kv => kv.key ∉ txn.keySet }
  else txn

def mergeRegions (txn other : SubTxn) : SubTxn :=
  { txn with internal := { txn.internal with
      involvedRegions := sortUnique (txn.internal.involvedRegions ++ other.internal.involvedRegions) } }

def mergeTransaction (txn other : SubTxn) : Except String SubTxn :=
  if txn.id ≠ other.id then
    .error ("Cannot merge transactions with different IDs: " ++ toString txn.id ++ " vs. " ++
      toString other.id)
  else if txn.internal.type ≠ other.internal.type then
    .error ("Cannot merge transactions with different types: " ++
      toString txn.internal.type.ctorIdx ++ " vs. " ++ toString other.internal.type.ctorIdx)
  else .ok ((txn.mergeResult other).mergeRegions other)

end SubTxn

/-- The counter is a `size_t`; below zero stands for its wrap-around. -/
structure FinishedTransaction where
  remainingPartitions : ℤ
  req : Option SubTxn := none

def FinishedTransaction.addSubTxn (f : FinishedTransaction) (newReq : SubTxn) (part : PartitionId) :
    Except String FinishedTransaction :=
  match f.req with
  | none => .ok ⟨f.remainingPartitions - 1, some (newReq.withPartitions [part])⟩
  | some txn => (txn.mergeTransaction newReq).map fun txn =>
    ⟨f.remainingPartitions - 1, some (txn.withPartitions (txn.internal.involvedPartitions ++ [part]))⟩

structure Server where
  /-- The streams of the clients that wait for an answer. -/
  pendingResponses : AssocMap TxnId ℕ := ∅
  finishedTxns : AssocMap TxnId FinishedTransaction := ∅
  /-- What has been sent to the clients, with the stream. -/
  responses : List (ℕ × SubTxn) := []

namespace Server

def sendTxnToClient (s : Server) (txn : SubTxn) : Server :=
  match s.pendingResponses.lookup txn.id with
  | none => s
  | some stream => { s with
      pendingResponses := s.pendingResponses.erase txn.id
      responses := s.responses ++ [(stream, txn)] }

/-- The client is answered when no partition is missing. -/
def recordFinished (s : Server) (id : TxnId) (finished : FinishedTransaction) : Server :=
  if finished.remainingPartitions = 0 then
    let s' := finished.req.elim s s.sendTxnToClient
    { s' with finishedTxns := s'.finishedTxns.erase id }
  else { s with finishedTxns := s.finishedTxns.insert id finished }

def processFinishedSubtxn (s : Server) (txn : SubTxn) (part : PartitionId) : Except String Server :=
  if txn.id ∉ s.pendingResponses then .ok s
  else
    (((s.finishedTxns.lookup txn.id).getD ⟨txn.internal.involvedPartitions.length, none⟩).addSubTxn
      txn part).map (s.recordFinished txn.id)

/-- The sub-transactions arrive one after another. -/
def processAll (s : Server) (subs : List (SubTxn × PartitionId)) : Except String Server :=
  subs.foldlM (fun s sub => s.processFinishedSubtxn sub.1 sub.2) s

end Server

/-! ## What a sequence of merges gives -/

namespace SubTxn

variable {t : SubTxn} {sub : SubTxn × PartitionId} {subs : List (SubTxn × PartitionId)}
  {kv : KeyValueEntry}

/-- One more sub-transaction of the same transaction. -/
def absorb (t : SubTxn) (sub : SubTxn × PartitionId) : SubTxn :=
  let m := (t.mergeResult sub.1).mergeRegions sub.1
  m.withPartitions (m.internal.involvedPartitions ++ [sub.2])

/-- All sub-transactions, in the order of their arrival. -/
def merge (first : SubTxn × PartitionId) (rest : List (SubTxn × PartitionId)) : SubTxn :=
  rest.foldl absorb (first.1.withPartitions [first.2])

theorem mergeResult_internal (t other : SubTxn) : (t.mergeResult other).internal = t.internal := by
  rw [mergeResult]
  split_ifs <;> rfl

theorem absorb_internal (t : SubTxn) (sub : SubTxn × PartitionId) :
    (t.absorb sub).internal = { t.internal with
      involvedPartitions := t.internal.involvedPartitions ++ [sub.2]
      involvedRegions :=
        sortUnique (t.internal.involvedRegions ++ sub.1.internal.involvedRegions) } := by
  simp [absorb, withPartitions, mergeRegions, mergeResult_internal]

theorem absorb_abortCode : (t.absorb sub).abortCode = t.abortCode := by
  change (t.mergeResult sub.1).abortCode = _
  rw [mergeResult]
  split_ifs <;> rfl

theorem absorb_status :
    (t.absorb sub).status = if sub.1.status = .aborted then .aborted else t.status := by
  change (t.mergeResult sub.1).status = _
  rw [mergeResult]
  split_ifs <;> rfl

theorem absorb_keys : (t.absorb sub).keys =
    if sub.1.status ≠ .aborted ∧ t.status ≠ .aborted then
      t.keys ++ sub.1.keys.filter fun kv => kv.key ∉ t.keySet
    else t.keys := by
  change (t.mergeResult sub.1).keys = _
  rw [mergeResult]
  split_ifs <;> simp_all

theorem foldl_abortCode : (subs.foldl absorb t).abortCode = t.abortCode := by
  induction subs generalizing t with
  | nil => rfl
  | cons sub subs ih => rw [List.foldl_cons, ih, absorb_abortCode]

theorem foldl_status : (subs.foldl absorb t).status =
    if t.status = .aborted ∨ ∃ sub ∈ subs, sub.1.status = .aborted then .aborted else t.status := by
  induction subs generalizing t with
  | nil => by_cases ht : t.status = .aborted <;> simp [ht]
  | cons sub subs ih =>
    rw [List.foldl_cons, ih, absorb_status]
    simp only [List.mem_cons, exists_eq_or_imp]
    by_cases hsub : sub.1.status = .aborted
    · rw [if_pos hsub, ite_self, if_pos (.inr (.inl hsub))]
    · exact if_neg hsub ▸ if_congr (or_congr_right (or_iff_right hsub).symm) rfl rfl

theorem foldl_partitions : (subs.foldl absorb t).internal.involvedPartitions =
    t.internal.involvedPartitions ++ subs.map Prod.snd := by
  induction subs generalizing t with
  | nil => simp
  | cons sub subs ih => rw [List.foldl_cons, ih, absorb_internal]; simp

theorem foldl_regions (hne : subs ≠ []) : (subs.foldl absorb t).internal.involvedRegions =
    sortUnique (t.internal.involvedRegions ++ subs.flatMap (·.1.internal.involvedRegions)) := by
  induction subs generalizing t with
  | nil => exact absurd rfl hne
  | cons sub subs ih =>
    rw [List.foldl_cons]
    rcases eq_or_ne subs [] with rfl | hsubs
    · simp [absorb_internal]
    · rw [ih hsubs, absorb_internal]
      exact sortUnique_congr (by simp [or_assoc])

/-- The entries of a key stay those of the first sub-transaction that has it. -/
theorem mem_foldl_keys_of_mem (hkv : kv.key ∈ t.keySet) :
    kv ∈ (subs.foldl absorb t).keys ↔ kv ∈ t.keys := by
  induction subs generalizing t with
  | nil => rfl
  | cons sub subs ih =>
    have hmem : kv ∈ (t.absorb sub).keys ↔ kv ∈ t.keys := by
      rw [absorb_keys]
      split_ifs <;> simp [hkv]
    have hsub : t.keys ⊆ (t.absorb sub).keys := by
      rw [absorb_keys]
      split_ifs <;> simp
    rw [List.foldl_cons, ih (List.map_subset _ hsub hkv), hmem]

theorem mem_foldl_keys (hstatus : t.status ≠ .aborted)
    (hsubs : ∀ sub ∈ subs, sub.1.status ≠ .aborted) {E : Set KeyValueEntry}
    (ht : ∀ kv ∈ t.keys, ∀ e ∈ E, e.key = kv.key → e ∈ t.keys)
    (hE : ∀ sub ∈ subs, ∀ kv ∈ sub.1.keys, kv ∈ E ∧ ∀ e ∈ E, e.key = kv.key → e ∈ sub.1.keys) :
    kv ∈ (subs.foldl absorb t).keys ↔ kv ∈ t.keys ∨ ∃ sub ∈ subs, kv ∈ sub.1.keys := by
  induction subs generalizing t with
  | nil => simp
  | cons sub subs ih =>
    obtain ⟨hsub, hsubs⟩ := List.forall_mem_cons.mp hsubs
    obtain ⟨hEsub, hE⟩ := List.forall_mem_cons.mp hE
    have hkeys : ∀ e, e ∈ (t.absorb sub).keys ↔ e ∈ t.keys ∨ e ∈ sub.1.keys := by
      intro e
      rw [absorb_keys, if_pos ⟨hsub, hstatus⟩, List.mem_append, List.mem_filter, decide_eq_true_iff]
      refine or_congr_right' fun he => and_iff_left_of_imp fun hmem hkey => he ?_
      obtain ⟨kv', hkv', heq⟩ := List.mem_map.mp hkey
      exact ht kv' hkv' e (hEsub e hmem).1 heq.symm
    rw [List.foldl_cons, ih (by rw [absorb_status, if_neg hsub]; exact hstatus) hsubs ?_ hE, hkeys]
    · simp [or_assoc]
    · intro kv' hkv' e he heq
      rw [hkeys] at hkv' ⊢
      exact hkv'.imp (ht kv' · e he heq) fun h => (hEsub kv' h).2 e he heq

end SubTxn

/-- The sub-transactions of one transaction, each with the partition that sends it. -/
structure SubTxns where
  id : TxnId
  type : TransactionType
  subs : List (SubTxn × PartitionId)
  ne_nil : subs ≠ []
  id_eq : ∀ sub ∈ subs, sub.1.id = id
  type_eq : ∀ sub ∈ subs, sub.1.internal.type = type
  length_eq : ∀ sub ∈ subs, sub.1.internal.involvedPartitions.length = subs.length

namespace SubTxns

open SubTxn

/-- The sub-transactions arrive and the client receives `r`. -/
def Answers (s : Server) (stream : ℕ) (subs : List (SubTxn × PartitionId)) (r : SubTxn) : Prop :=
  ∃ s', s.processAll subs = .ok s' ∧ s'.responses = s.responses ++ [(stream, r)]

/-- Two answers that a client cannot tell apart. -/
structure SameAnswer (r r' : SubTxn) : Prop where
  status : r.status = r'.status
  abortCode : r.abortCode = r'.abortCode
  keys : r.status = .committed → ∀ kv, kv ∈ r.keys ↔ kv ∈ r'.keys
  regions : r.internal.involvedRegions = r'.internal.involvedRegions
  partitions : ∀ p, p ∈ r.internal.involvedPartitions ↔ p ∈ r'.internal.involvedPartitions

/-- The server answers, and in any two orders of arrival it gives the same answer. -/
def OrderIndependent (S : SubTxns) : Prop :=
  ∀ (s : Server) (stream : ℕ), s.pendingResponses.lookup S.id = some stream → S.id ∉ s.finishedTxns →
    ∀ l l', l.Perm S.subs → l'.Perm S.subs →
      ∃ r r', Answers s stream l r ∧ Answers s stream l' r' ∧ SameAnswer r r'

variable {S : SubTxns} {s : Server} {stream : ℕ} {first : SubTxn × PartitionId}
  {l rest : List (SubTxn × PartitionId)}

theorem process_eq (hsub : first ∈ S.subs) (hpending : s.pendingResponses.lookup S.id = some stream) :
    s.processFinishedSubtxn first.1 first.2 =
      (((s.finishedTxns.lookup S.id).getD ⟨S.subs.length, none⟩).addSubTxn first.1 first.2).map
        (s.recordFinished S.id) := by
  rw [Server.processFinishedSubtxn, S.id_eq first hsub, S.length_eq first hsub, if_neg]
  exact not_not_intro (AssocMap.mem_iff_lookup.mpr ⟨stream, hpending⟩)

/-- With the arrival of `first` the merged transaction is `t`, and those of `rest` are missing. -/
theorem answers_of_process (hpending : s.pendingResponses.lookup S.id = some stream) {t : SubTxn}
    (hid : t.id = S.id) (htype : t.internal.type = S.type) (hrest : ∀ sub ∈ rest, sub ∈ S.subs)
    (hstep : s.processFinishedSubtxn first.1 first.2 =
      .ok (s.recordFinished S.id ⟨rest.length, some t⟩)) :
    Answers s stream (first :: rest) (rest.foldl absorb t) := by
  induction rest generalizing s t first with
  | nil =>
    rw [Answers, Server.processAll, List.foldlM_cons, hstep]
    rw [← hid] at hpending
    exact ⟨_, rfl, by simp [Server.recordFinished, Server.sendTxnToClient, hpending]⟩
  | cons sub rest ih =>
    obtain ⟨hsub, hrest⟩ := List.forall_mem_cons.mp hrest
    have hmerge : t.mergeTransaction sub.1 = .ok ((t.mergeResult sub.1).mergeRegions sub.1) := by
      rw [mergeTransaction, if_neg (by simp [hid, S.id_eq sub hsub]),
        if_neg (by simp [htype, S.type_eq sub hsub])]
    have hlength : ((sub :: rest).length : ℤ) ≠ 0 := Nat.cast_ne_zero.mpr (Nat.succ_ne_zero _)
    rw [Server.recordFinished, if_neg hlength] at hstep
    set s' : Server := { s with finishedTxns := _ }
    have hpending' : s'.pendingResponses.lookup S.id = some stream := hpending
    rw [Answers, Server.processAll, List.foldlM_cons, hstep]
    refine ih hpending' ?_ ?_ hrest ?_
    · rw [← hid, Transaction.id, absorb_internal]
    · rw [absorb_internal, htype]
    · rw [process_eq hsub hpending']
      simp [s', FinishedTransaction.addSubTxn, hmerge, Except.map, absorb]

/-- The client receives the merge of the sub-transactions in the order of their arrival. -/
theorem answers_merge (hpending : s.pendingResponses.lookup S.id = some stream)
    (hfinished : S.id ∉ s.finishedTxns) (hperm : (first :: rest).Perm S.subs) :
    Answers s stream (first :: rest) (merge first rest) := by
  obtain ⟨hfirst, hrest⟩ := List.forall_mem_cons.mp fun _ => hperm.mem_iff.mp
  refine answers_of_process hpending (S.id_eq first hfirst) (S.type_eq first hfirst) hrest ?_
  rw [process_eq hfirst hpending, AssocMap.not_mem_iff_lookup.mp hfinished, ← hperm.length_eq]
  simp [FinishedTransaction.addSubTxn, Except.map]

theorem Answers.eq {r r' : SubTxn} (h : Answers s stream l r) (h' : Answers s stream l r') : r = r' := by
  obtain ⟨s', hrun, hs⟩ := h
  obtain ⟨s'', hrun', hs'⟩ := h'
  obtain rfl : s' = s'' := Except.ok.inj (hrun.symm.trans hrun')
  simpa using hs.symm.trans hs'

/-! ## Order of arrival -/

/-- All sub-transactions carry one abort code; unless one of them is aborted they have one status, and
when they are committed those that share a key have the same entries of it. -/
structure Consistent (S : SubTxns) : Prop where
  abortCode : ∀ a ∈ S.subs, ∀ b ∈ S.subs, a.1.abortCode = b.1.abortCode
  status : (∀ a ∈ S.subs, a.1.status ≠ .aborted) → ∀ a ∈ S.subs, ∀ b ∈ S.subs, a.1.status = b.1.status
  keys : (∀ a ∈ S.subs, a.1.status = .committed) →
    ∀ a ∈ S.subs, ∀ b ∈ S.subs, ∀ kv ∈ a.1.keys, ∀ e ∈ b.1.keys, e.key = kv.key → e ∈ a.1.keys

theorem merge_status : (merge first rest).status =
    if ∃ sub ∈ first :: rest, sub.1.status = .aborted then .aborted else first.1.status := by
  simp only [List.mem_cons, exists_eq_or_imp]
  exact foldl_status

variable {first' : SubTxn × PartitionId} {rest' : List (SubTxn × PartitionId)}

theorem merge_regions_perm (hperm : (first :: rest).Perm (first' :: rest')) :
    (merge first rest).internal.involvedRegions = (merge first' rest').internal.involvedRegions := by
  rcases eq_or_ne rest [] with rfl | hne
  · obtain ⟨rfl, rfl⟩ := List.cons.inj (List.perm_singleton.mp hperm.symm)
    rfl
  · have hne' : rest' ≠ [] := by
      rintro rfl
      exact hne (List.cons.inj (List.perm_singleton.mp hperm)).2
    rw [merge, merge, foldl_regions hne, foldl_regions hne']
    refine sortUnique_congr fun x => ?_
    have h := (hperm.flatMap_right fun sub => sub.1.internal.involvedRegions).mem_iff (a := x)
    exact h

theorem Consistent.mem_merge_keys (h : Consistent S) (hall : ∀ a ∈ S.subs, a.1.status = .committed)
    (hperm : (first :: rest).Perm S.subs) {kv : KeyValueEntry} :
    kv ∈ (merge first rest).keys ↔ ∃ sub ∈ S.subs, kv ∈ sub.1.keys := by
  obtain ⟨hfirst, hrest⟩ := List.forall_mem_cons.mp fun _ => hperm.mem_iff.mp
  have hnot : ∀ sub ∈ S.subs, sub.1.status ≠ .aborted := fun sub hsub => by simp [hall sub hsub]
  -- every sub-transaction has all entries of its keys
  have hfull : ∀ a ∈ S.subs, ∀ kv ∈ a.1.keys, ∀ e ∈ {e | ∃ b ∈ S.subs, e ∈ b.1.keys},
      e.key = kv.key → e ∈ a.1.keys := by
    rintro a ha kv hkv e ⟨b, hb, he⟩
    exact h.keys hall a ha b hb kv hkv e he
  rw [merge, mem_foldl_keys (t := first.1.withPartitions [first.2]) (hnot first hfirst)
    (fun sub hsub => hnot sub (hrest sub hsub)) (hfull first hfirst)
    fun sub hsub kv hkv => ⟨⟨sub, hrest sub hsub, hkv⟩, hfull sub (hrest sub hsub) kv hkv⟩]
  simp only [← hperm.mem_iff, List.mem_cons, exists_eq_or_imp]
  rfl

theorem Consistent.sameAnswer (h : Consistent S) (hperm : (first :: rest).Perm S.subs)
    (hperm' : (first' :: rest').Perm S.subs) : SameAnswer (merge first rest) (merge first' rest') := by
  have hfirst : first ∈ S.subs := hperm.mem_iff.mp List.mem_cons_self
  have hfirst' : first' ∈ S.subs := hperm'.mem_iff.mp List.mem_cons_self
  have hmem : ∀ sub, sub ∈ first :: rest ↔ sub ∈ first' :: rest' := fun sub => by
    rw [hperm.mem_iff, hperm'.mem_iff]
  refine ⟨?_, ?_, fun hcommitted kv => ?_, merge_regions_perm (hperm.trans hperm'.symm), fun p => ?_⟩
  · rw [merge_status, merge_status]
    simp only [hmem]
    split_ifs with haborted
    · rfl
    · push Not at haborted
      exact h.status (fun a ha => haborted a (hperm'.mem_iff.mpr ha)) _ hfirst _ hfirst'
  · rw [merge, merge, foldl_abortCode, foldl_abortCode]
    exact h.abortCode _ hfirst _ hfirst'
  · have hall : ∀ a ∈ S.subs, a.1.status = .committed := by
      rw [merge_status] at hcommitted
      split_ifs at hcommitted with haborted
      push Not at haborted
      intro a ha
      rw [← hcommitted]
      exact h.status (fun a ha => haborted a (hperm.mem_iff.mpr ha)) a ha first hfirst
    rw [h.mem_merge_keys hall hperm, h.mem_merge_keys hall hperm']
  · rw [merge, merge, foldl_partitions, foldl_partitions]
    exact ((hperm.trans hperm'.symm).map Prod.snd).mem_iff

/-- Every sub-transaction can be the first to arrive. -/
theorem OrderIndependent.sameAnswer (h : OrderIndependent S) {a b : SubTxn × PartitionId}
    (ha : a ∈ S.subs) (hb : b ∈ S.subs) :
    SameAnswer (merge a (S.subs.erase a)) (merge b (S.subs.erase b)) := by
  have hpa := (List.perm_cons_erase ha).symm
  have hpb := (List.perm_cons_erase hb).symm
  have hpending : (AList.insert S.id 0 (∅ : AssocMap TxnId ℕ)).lookup S.id = some 0 :=
    AList.lookup_insert _
  obtain ⟨r, r', hr, hr', hsame⟩ := h { pendingResponses := _ } 0 hpending (by simp) _ _ hpa hpb
  rwa [hr.eq (answers_merge hpending (by simp) hpa), hr'.eq (answers_merge hpending (by simp) hpb)]
    at hsame

/-- The answer is independent of the order exactly when the sub-transactions are consistent. -/
theorem orderIndependent_iff (S : SubTxns) : S.OrderIndependent ↔ S.Consistent := by
  constructor
  · intro h
    refine ⟨fun a ha b hb => ?_, fun hnot a ha b hb => ?_, fun hall a ha b hb kv hkv e he heq => ?_⟩
    · simpa [merge, foldl_abortCode, withPartitions] using (h.sameAnswer ha hb).abortCode
    · have hstatus := (h.sameAnswer ha hb).status
      have hnone : ∀ a ∈ S.subs, ¬ ∃ sub ∈ a :: S.subs.erase a, sub.1.status = .aborted := by
        rintro a ha ⟨sub, hsub, haborted⟩
        exact hnot sub ((List.perm_cons_erase ha).mem_iff.mpr hsub) haborted
      rwa [merge_status, merge_status, if_neg (hnone a ha), if_neg (hnone b hb)] at hstatus
    · have hcommitted : (merge a (S.subs.erase a)).status = .committed := by
        rw [merge_status, hall a ha, if_neg]
        rintro ⟨sub, hsub, haborted⟩
        exact nomatch (hall sub ((List.perm_cons_erase ha).mem_iff.mpr hsub)).symm.trans haborted
      -- the answer has the entries of the first sub-transaction with the key
      have hkeys := (h.sameAnswer ha hb).keys hcommitted e
      rw [merge, merge, mem_foldl_keys_of_mem, mem_foldl_keys_of_mem] at hkeys
      · exact hkeys.mpr he
      · exact List.mem_map_of_mem he
      · exact List.mem_map.mpr ⟨kv, hkv, heq.symm⟩
  · intro h s stream hpending hfinished l l' hl hl'
    cases l with
    | nil => exact absurd hl.symm.eq_nil S.ne_nil
    | cons first rest =>
      cases l' with
      | nil => exact absurd hl'.symm.eq_nil S.ne_nil
      | cons first' rest' =>
        exact ⟨_, _, answers_merge hpending hfinished hl, answers_merge hpending hfinished hl',
          h.sameAnswer hl hl'⟩

/-- A sub-transaction of a transaction on two partitions that has been aborted. -/
def abortedWith (code : AbortCode) : SubTxn :=
  { internal := { id := 100, type := .multiHomeOrLockOnly, involvedPartitions := [0, 1] }
    keys := []
    status := .aborted
    abortCode := code }

/-- A restart at partition 0 while partition 1 aborts for another reason. -/
def restartedSubTxns : SubTxns where
  id := 100
  type := .multiHomeOrLockOnly
  subs := [(abortedWith .restarted, 0), (abortedWith .other, 1)]
  ne_nil := by simp
  id_eq := by decide
  type_eq := by decide
  length_eq := by decide

theorem not_orderIndependent_restarted :
    (merge (abortedWith .restarted, 0) [(abortedWith .other, 1)]).abortCode = .restarted ∧
      (merge (abortedWith .other, 1) [(abortedWith .restarted, 0)]).abortCode = .other ∧
      ¬ restartedSubTxns.OrderIndependent := by
  refine ⟨rfl, rfl, fun h => ?_⟩
  have hsame := (h.sameAnswer (a := (abortedWith .restarted, 0)) (b := (abortedWith .other, 1))
    (by simp [restartedSubTxns]) (by simp [restartedSubTxns])).abortCode
  rw [merge, merge, foldl_abortCode, foldl_abortCode] at hsame
  exact nomatch hsame

end SubTxns

end Slog
