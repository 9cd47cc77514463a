/-
# The instances that the leader keeps

The leader keeps an instance of a slot until as many learners have answered its commit as there are
acceptors.  The answers of all slots are counted for slot `0`, so the instances of the other slots
are never removed, and the instance of slot `0` may be removed by answers for other slots.
-/
import Penteract.Paxos

namespace Slog

open List Option SimulatedMultiPaxos AssocMap

namespace PaxosRun

/-- A commit response for the slot. -/
def answers (slot : SlotId) (env : PaxosEnvelope) : Bool := env.message = .commitResponse slot

/-- The number of commit responses for a slot that have arrived: they were sent and are not in flight. -/
def arrived (s : PaxosState) (fl : List PaxosEnvelope) (slot : SlotId) : ℕ :=
  s.sent.countP (answers slot) - fl.countP (answers slot)

/-- The learners have been told to commit the slot. -/
def Committed (s : PaxosState) (slot : SlotId) : Prop := ∃ env ∈ s.sent, (commitTo slot env).isSome

section Statement

variable (mem : Members)

/-- The instances that the leader keeps. -/
def instances (s : PaxosState) : AssocMap SlotId PaxosInstance :=
  (s.nodes mem.electedLeader).leader.instances

/-- An instance is kept until enough commit responses for its slot have arrived.  When those of all
learners have arrived for every committed slot, no committed slot is kept. -/
structure Reclaims (s : PaxosRun) : Prop where
  removed : ∀ slot < (s.state.nodes mem.electedLeader).leader.nextEmptySlot,
    slot ∉ instances mem s.state ↔ mem.acceptors.length ≤ arrived s.state s.inFlight slot
  uncommitted : (∀ slot, Committed s.state slot →
      mem.learners.length ≤ arrived s.state s.inFlight slot) →
    ∀ slot ∈ instances mem s.state, ¬ Committed s.state slot

/-- A delivered commit response leaves the instances of the other slots as they are. -/
def ChangesOwnSlot (s : PaxosRun) : PaxosEvent → Prop
  | .deliver i => ∀ env ∈ s.inFlight[i]?, ∀ slot, env.message = .commitResponse slot →
      ∀ r ∈ handle mem s.state env, ∀ slot' ≠ slot,
        (instances mem r.1).lookup slot' = (instances mem s.state).lookup slot'
  | .propose _ _ => True

/-- Commit responses for slots other than `0` find slot `0` removed, and for none of these slots there
are as many as acceptors. -/
def AnswersFirst (s : PaxosRun) : PaxosEvent → Prop
  | .deliver i => ∀ env ∈ s.inFlight[i]?, ∀ slot, env.message = .commitResponse slot → slot ≠ 0 →
      0 ∉ instances mem s.state ∧ arrived s.state s.inFlight slot + 1 < mem.acceptors.length
  | .propose _ _ => True

end Statement

/-! ## What a message does -/

/-- The commits that the leader has counted for a slot that it keeps. -/
def numCommits (l : Leader) (slot : SlotId) : Option ℕ :=
  (l.instances.lookup slot).map PaxosInstance.numCommits

/-- What a delivered message does to the commits that the leader has counted, and to the commit
responses. -/
inductive Effect (mem : Members) (l : Leader) :
    PaxosEnvelope → List PaxosEnvelope → Leader → Prop
  | quiet {env : PaxosEnvelope} {out : List PaxosEnvelope} {l' : Leader}
      (henv : ∀ slot, answers slot env = false)
      (hout : ∀ slot, ∀ e ∈ out, answers slot e = false)
      (hnext : l.nextEmptySlot ≤ l'.nextEmptySlot)
      (hold : ∀ slot < l.nextEmptySlot, numCommits l' slot = numCommits l slot)
      (hnew : ∀ slot, l.nextEmptySlot ≤ slot → slot < l'.nextEmptySlot →
        numCommits l' slot = some 0) :
      Effect mem l env out l'
  | commit {env reply : PaxosEnvelope} {slot : SlotId} (henv : ∀ slot, answers slot env = false)
      (hreply : reply.message = .commitResponse slot) (hslot : slot < l.nextEmptySlot) :
      Effect mem l env [reply] l
  | answer {env : PaxosEnvelope} {slot : SlotId} (henv : env.message = .commitResponse slot) :
      Effect mem l env [] (l.handleResponse mem mem.electedLeader (.commitResponse slot)).1

variable {mem : Members} {s : PaxosState} {env : PaxosEnvelope} {rest : List PaxosEnvelope}
  {r : PaxosState × List PaxosEnvelope}

variable {l l' : Leader} {out fl : List PaxosEnvelope} {a b : MachineId} {slot : SlotId}
  {arr : SlotId → ℕ} {s' : PaxosRun} {i : ℕ} {e : PaxosEvent}

theorem Effect.refl (henv : ∀ slot, answers slot env = false)
    (hout : ∀ slot, ∀ e ∈ out, answers slot e = false) : Effect mem l env out l :=
  .quiet henv hout le_rfl (fun _ _ => rfl) fun _ hle hlt => absurd hlt hle.not_gt

theorem handle_sent (hr : handle mem s env = some r) : r.1.sent = s.sent ++ r.2 := by
  cases hr
  rfl

/-- A new instance has no commits. -/
theorem Effect.start {v : ℕ} (hnot : l.nextEmptySlot ∉ l.instances) :
    Effect mem l ⟨a, b, .propose v⟩ (l.startNewInstance mem mem.electedLeader v).2.sent
      (l.startNewInstance mem mem.electedLeader v).1 := by
  have hlookup : ∀ slot, numCommits (l.startNewInstance mem mem.electedLeader v).1 slot =
      if slot = l.nextEmptySlot then some 0 else numCommits l slot := by
    intro slot
    rw [numCommits, Leader.startNewInstance, lookup_insertNew _ _ _ _ hnot]
    split_ifs <;> rfl
  refine .quiet (fun _ => rfl) ?_ (Nat.le_succ _) (fun slot hslot => ?_) fun slot hle hlt => ?_
  · intro slot e he
    obtain ⟨m, -, rfl⟩ := mem_map.mp he
    rfl
  · rw [hlookup, if_neg hslot.ne]
  · rw [hlookup, if_pos (Nat.lt_succ_iff.mp hlt |>.antisymm hle)]

/-- An accept response changes no number of commits. -/
theorem Effect.accepted {ballot : ℕ} {inst : PaxosInstance}
    (hinst : l.instances.lookup slot = some inst) (hout : ∀ slot, ∀ e ∈ out, answers slot e = false) :
    Effect mem l ⟨a, b, .acceptResponse ballot slot⟩ out
      { l with instances :=
        l.instances.insert slot { inst with numAccepts := inst.numAccepts + 1 } } := by
  refine .quiet (fun _ => rfl) hout le_rfl (fun k _ => ?_) fun _ hle hlt => absurd hlt hle.not_gt
  rw [numCommits, lookup_insert']
  split_ifs with hk
  · rw [numCommits, hk, hinst]
    rfl
  · rfl

/-- **Every message has one of the effects.** -/
theorem RunInv.effect {strict : Prop} (h : RunInv mem strict { state := s, inFlight := env :: rest })
    (hr : PaxosRun.handle mem s env = some r) :
    Effect mem (s.nodes mem.electedLeader).leader env r.2
      (r.1.nodes mem.electedLeader).leader := by
  obtain ⟨nodes, reports, -, hs, hd⟩ := h.delivers hr
  obtain ⟨-, chosen, hinv⟩ := h
  rw [hs]
  dsimp only
  generalize (nodes mem.electedLeader).leader = l, r.2 = out at hd ⊢
  cases hd with
  | start => exact .start (hinv.next ▸ hinv.chosen_length_notMem)
  | forward | accept => exact .refl (fun _ => rfl) fun _ => forall_mem_singleton.mpr rfl
  | commit hslot => exact .commit (fun _ => rfl) rfl hslot
  | forgotten => exact .refl (fun _ => rfl) (by simp)
  | accepted hinst =>
    refine .accepted hinst fun k e he => ?_
    split_ifs at he
    · obtain ⟨m, -, rfl⟩ := mem_map.mp he
      rfl
    · cases he
  | answered => exact .answer rfl

/-! ## Commit responses -/

theorem nextEmptySlot_answer (l : Leader) (slot : SlotId) :
    (l.handleResponse mem mem.electedLeader (.commitResponse slot)).1.nextEmptySlot =
      l.nextEmptySlot := by
  rw [Leader.handleResponse]
  dsimp only [PaxosMessage.acceptSlot]
  cases l.instances.lookup 0 <;> rfl

/-- A commit response is counted for slot `0`. -/
theorem numCommits_answer (l : Leader) (slot : SlotId) :
    numCommits (l.handleResponse mem mem.electedLeader (.commitResponse slot)).1 0 =
      (numCommits l 0).bind fun n => if n + 1 = mem.acceptors.length then none else some (n + 1) := by
  rw [Leader.handleResponse]
  dsimp only [PaxosMessage.acceptSlot]
  cases hinst : l.instances.lookup 0 with
  | none => simp [numCommits, hinst]
  | some inst =>
    simp only [numCommits, hinst, map_some, bind_some]
    split_ifs <;> simp

/-- No other slot is changed. -/
theorem lookup_answer (l : Leader) (slot : SlotId) {slot' : SlotId}
    (h : slot' ≠ 0 ∨ 0 ∉ l.instances) :
    (l.handleResponse mem mem.electedLeader (.commitResponse slot)).1.instances.lookup slot' =
      l.instances.lookup slot' := by
  rw [Leader.handleResponse]
  dsimp only [PaxosMessage.acceptSlot]
  cases hinst : l.instances.lookup 0 with
  | none => rfl
  | some inst =>
    have hne : slot' ≠ 0 := h.resolve_right fun hno => hno (mem_iff_lookup.mpr ⟨_, hinst⟩)
    dsimp only
    split_ifs <;> simp [hne]

theorem mem_instances_iff : slot ∈ l.instances ↔ ∃ n, numCommits l slot = some n := by
  rw [mem_iff_lookup]
  constructor
  · rintro ⟨inst, hinst⟩
    exact ⟨_, congrArg _ hinst⟩
  · rintro ⟨n, hn⟩
    obtain ⟨inst, hinst, -⟩ := map_eq_some_iff.mp hn
    exact ⟨inst, hinst⟩

/-- The commit responses in flight were sent, and they are for slots in use. -/
structure AckInv (l : Leader) (s : PaxosState) (fl : List PaxosEnvelope) : Prop where
  inFlight_le : ∀ slot, fl.countP (answers slot) ≤ s.sent.countP (answers slot)
  unused : ∀ slot, l.nextEmptySlot ≤ slot → s.sent.countP (answers slot) = 0

theorem Effect.nextEmptySlot_le (h : Effect mem l env out l') : l.nextEmptySlot ≤ l'.nextEmptySlot := by
  cases h with
  | quiet _ _ hnext => exact hnext
  | commit => exact le_rfl
  | answer => exact (nextEmptySlot_answer l _).ge

theorem Effect.countP_out (h : Effect mem l env out l') (hslot : l.nextEmptySlot ≤ slot) :
    out.countP (answers slot) = 0 := by
  rw [countP_eq_zero]
  cases h with
  | quiet _ hout => exact fun e he => Bool.eq_false_iff.mp (hout slot e he)
  | commit _ hreply hlt =>
    rintro e he hans
    rw [mem_singleton.mp he, answers, hreply, decide_eq_true_eq] at hans
    cases hans
    exact hslot.not_gt hlt
  | answer => exact fun e he => absurd he not_mem_nil

/-- A delivery counts as an arrival of the message that is delivered. -/
theorem AckInv.arrived_handle (h : AckInv l s (env :: rest)) (hr : handle mem s env = some r)
    (slot : SlotId) :
    arrived r.1 (rest ++ r.2) slot =
      arrived s (env :: rest) slot + if answers slot env then 1 else 0 := by
  have hle := h.inFlight_le slot
  rw [arrived, arrived, handle_sent hr]
  simp only [countP_append, countP_cons] at hle ⊢
  omega

theorem AckInv.handle (h : AckInv l s (env :: rest)) (heffect : Effect mem l env r.2 l')
    (hr : PaxosRun.handle mem s env = some r) :
    AckInv l' r.1 (rest ++ r.2) where
  inFlight_le := by
    intro slot
    have hle := h.inFlight_le slot
    rw [handle_sent hr]
    simp only [countP_append, countP_cons] at hle ⊢
    omega
  unused := by
    intro slot hslot
    have hslot := heffect.nextEmptySlot_le.trans hslot
    rw [handle_sent hr, countP_append, h.unused slot hslot, heffect.countP_out hslot]

theorem AckInv.arrived_eq_zero (h : AckInv l s fl) (hslot : l.nextEmptySlot ≤ slot) :
    arrived s fl slot = 0 := by
  rw [arrived, h.unused slot hslot, Nat.zero_sub]

/-- A commit response in flight is for a slot in use. -/
theorem AckInv.lt_nextEmptySlot (h : AckInv l s fl) (henv : env ∈ fl)
    (hans : env.message = .commitResponse slot) : slot < l.nextEmptySlot := by
  by_contra hslot
  have hpos : 0 < fl.countP (answers slot) :=
    countP_pos_iff.mpr ⟨env, henv, decide_eq_true hans⟩
  exact absurd ((h.inFlight_le slot).trans (h.unused slot (not_lt.mp hslot)).le) hpos.not_ge

/-! ## Counting -/

/-- The commits of slot `0` are its commit responses, and for no other slot as many commit responses
have arrived as there are acceptors. -/
structure Counts (mem : Members) (l : Leader) (arr : SlotId → ℕ) : Prop where
  first : 0 < l.nextEmptySlot →
    numCommits l 0 = if arr 0 < mem.acceptors.length then some (arr 0) else none
  other : ∀ slot < l.nextEmptySlot, slot ≠ 0 → arr slot < mem.acceptors.length

/-- An effect keeps the counts if a commit response for another slot than `0` meets the condition. -/
theorem Counts.effect {arr' : SlotId → ℕ} (h : Counts mem l arr) (heffect : Effect mem l env out l')
    (harr : ∀ slot, arr' slot = arr slot + if answers slot env then 1 else 0)
    (hunused : ∀ slot, l.nextEmptySlot ≤ slot → arr slot = 0)
    (hcond : ∀ slot, env.message = .commitResponse slot → slot ≠ 0 →
      0 ∉ l.instances ∧ arr slot + 1 < mem.acceptors.length) : Counts mem l' arr' := by
  have hpos : 0 < mem.acceptors.length := length_pos_iff.mpr mem.acceptors_ne_nil
  have hsame : (∀ slot, answers slot env = false) → ∀ slot, arr' slot = arr slot := by
    intro henv slot
    rw [harr, henv]
    rfl
  cases heffect with
  | quiet henv hout hnext hold hnew =>
    have heq := hsame henv
    constructor
    · intro hlt
      rw [heq]
      rcases Nat.eq_zero_or_pos l.nextEmptySlot with hzero | hl
      · rw [hnew 0 hzero.le hlt, hunused 0 hzero.le, if_pos hpos]
      · rw [hold 0 hl, h.first hl]
    · intro slot hslot hne
      rw [heq]
      rcases lt_or_ge slot l.nextEmptySlot with hl | hl
      · exact h.other slot hl hne
      · rw [hunused slot hl]
        exact hpos
  | commit henv =>
    obtain rfl : arr' = arr := funext (hsame henv)
    exact h
  | @answer slot henv =>
    have hans : ∀ k, answers k env = true ↔ k = slot := by
      intro k
      rw [answers, henv, decide_eq_true_eq, PaxosMessage.commitResponse.injEq]
      exact eq_comm
    simp only [hans] at harr
    constructor
    · rw [nextEmptySlot_answer, numCommits_answer, harr]
      intro hl
      have hfirst := h.first hl
      by_cases hslot : 0 = slot
      · rw [hfirst, if_pos hslot]
        split_ifs <;> simp <;> omega
      · have hno := (hcond slot henv (Ne.symm hslot)).1
        rw [if_neg hslot, add_zero, ← hfirst]
        rw [mem_instances_iff, not_exists] at hno
        rw [eq_none_iff_forall_ne_some.mpr hno, bind_none]
    · intro k hk hne
      rw [nextEmptySlot_answer] at hk
      rw [harr]
      split_ifs with hks
      · subst hks
        exact (hcond k henv hne).2
      · exact h.other k hk hne

theorem Counts.mem_instances_iff (h : Counts mem l arr)
    (hpresent : ∀ slot < l.nextEmptySlot, slot ≠ 0 → slot ∈ l.instances)
    (hslot : slot < l.nextEmptySlot) : slot ∈ l.instances ↔ arr slot < mem.acceptors.length := by
  by_cases hzero : slot = 0
  · subst hzero
    rw [PaxosRun.mem_instances_iff, h.first hslot]
    split_ifs with hlt
    · simp [hlt]
    · simp [hlt]
  · exact iff_of_true (hpresent slot hslot hzero) (h.other slot hslot hzero)

/-! ## Runs -/

/-- The invariants of every run. -/
structure AckRunInv (mem : Members) (s : PaxosRun) : Prop where
  run : RunInv mem False s
  acks : AckInv (s.state.nodes mem.electedLeader).leader s.state s.inFlight

/-- What a delivery does in a run. -/
theorem AckRunInv.deliver {s : PaxosRun} (h : AckRunInv mem s)
    (hstep : step mem s (.deliver i) = some s') :
    ∃ env ∈ s.inFlight[i]?,
      Effect mem (s.state.nodes mem.electedLeader).leader env
        (s'.state.sent.drop s.state.sent.length) (s'.state.nodes mem.electedLeader).leader ∧
      (∀ slot, arrived s'.state s'.inFlight slot =
        arrived s.state s.inFlight slot + if answers slot env then 1 else 0) ∧
      AckRunInv mem s' := by
  obtain ⟨env, rest, r, hi, hperm, hr, rfl⟩ := Network.deliver_eq_some hstep
  have hrun : RunInv mem False { state := s.state, inFlight := env :: rest } := by
    obtain ⟨hballots, chosen, hinv⟩ := h.run
    exact ⟨hballots, chosen, hinv.perm hperm⟩
  have hacks : AckInv (s.state.nodes mem.electedLeader).leader s.state (env :: rest) :=
    ⟨fun slot => hperm.countP_eq _ ▸ h.acks.inFlight_le slot, h.acks.unused⟩
  have heffect := hrun.effect hr
  refine ⟨env, hi, ?_, fun slot => ?_, h.run.step False.elim hstep, hacks.handle heffect hr⟩
  · dsimp only
    rw [handle_sent hr, drop_left]
    exact heffect
  · rw [hacks.arrived_handle hr, arrived, arrived, hperm.countP_eq]

theorem arrived_propose (s : PaxosRun) (m : MachineId) (v : ℕ) (slot : SlotId) :
    arrived { s.state with proposed := s.state.proposed ++ [v] }
      (s.inFlight ++ [⟨m, m, .propose v⟩]) slot = arrived s.state s.inFlight slot := by
  rw [arrived, arrived, countP_append]
  rfl

theorem AckRunInv.step {s : PaxosRun} (h : AckRunInv mem s) (hstep : step mem s e = some s') :
    AckRunInv mem s' := by
  cases e with
  | propose m v =>
    refine ⟨h.run.step False.elim hstep, ?_⟩
    cases hstep
    refine ⟨fun slot => ?_, h.acks.unused⟩
    rw [countP_append]
    exact h.acks.inFlight_le slot
  | deliver i =>
    obtain ⟨-, -, -, -, h'⟩ := h.deliver hstep
    exact h'

theorem AckRunInv.init : AckRunInv mem init :=
  ⟨RunInv.init, by simp [PaxosRun.init], by simp [PaxosRun.init]⟩

theorem AckRunInv.of_run {events : List PaxosEvent} {s : PaxosRun}
    (hrun : Lts.run (PaxosRun.step mem) PaxosRun.init events = some s) : AckRunInv mem s :=
  Lts.invariant (PaxosRun.step mem) AckRunInv.init (fun _ _ _ h hstep => h.step hstep) ⟨events, hrun⟩

/-- The leader keeps all slots in use other than `0`. -/
theorem AckRunInv.present {s : PaxosRun} (h : AckRunInv mem s)
    (hslot : slot < (s.state.nodes mem.electedLeader).leader.nextEmptySlot) (hne : slot ≠ 0) :
    slot ∈ instances mem s.state := by
  obtain ⟨-, chosen, hinv⟩ := h.run
  exact hinv.present slot (hinv.next ▸ hslot) hne

theorem AckRunInv.lt_of_mem {s : PaxosRun} (h : AckRunInv mem s) (hslot : slot ∈ instances mem s.state) :
    slot < (s.state.nodes mem.electedLeader).leader.nextEmptySlot := by
  obtain ⟨-, chosen, hinv⟩ := h.run
  obtain ⟨inst, hinst⟩ := mem_iff_lookup.mp hslot
  rw [hinv.next]
  exact (List.getElem?_eq_some_iff.mp (hinv.instances slot inst hinst).value).1

def CountsRun (mem : Members) (s : PaxosRun) : Prop :=
  Counts mem (s.state.nodes mem.electedLeader).leader (arrived s.state s.inFlight)

theorem CountsRun.init : CountsRun mem init :=
  ⟨fun h => absurd h (lt_irrefl _), fun slot h => absurd h (Nat.not_lt_zero slot)⟩

theorem CountsRun.step {s : PaxosRun} (h : CountsRun mem s) (hinv : AckRunInv mem s)
    (hcond : AnswersFirst mem s e) (hstep : step mem s e = some s') : CountsRun mem s' := by
  cases e with
  | propose m v =>
    cases hstep
    rw [CountsRun]
    dsimp only
    rw [funext (arrived_propose s m v)]
    exact h
  | deliver i =>
    obtain ⟨env, hi, heffect, harr, -⟩ := hinv.deliver hstep
    exact h.effect heffect harr (fun _ => hinv.acks.arrived_eq_zero) (hcond env hi)

/-- The instances are reclaimed if the counts are right. -/
theorem CountsRun.reclaims {s : PaxosRun} (h : CountsRun mem s) (hinv : AckRunInv mem s)
    (hle : mem.acceptors.length ≤ mem.learners.length) : Reclaims mem s := by
  have hiff : ∀ slot < (s.state.nodes mem.electedLeader).leader.nextEmptySlot,
      slot ∈ instances mem s.state ↔ arrived s.state s.inFlight slot < mem.acceptors.length :=
    fun slot hslot => h.mem_instances_iff (fun _ => hinv.present) hslot
  constructor
  · intro slot hslot
    rw [← not_lt]
    exact not_congr (hiff slot hslot)
  · intro hall slot hmem hcommitted
    have hlt := (hiff slot (hinv.lt_of_mem hmem)).mp hmem
    exact absurd (hle.trans (hall slot hcommitted)) (not_le.mpr hlt)

/-- The leader's instances after a commit response. -/
theorem AckRunInv.answer {s : PaxosRun} (h : AckRunInv mem s) (hi : s.inFlight[i]? = some env)
    (hans : env.message = .commitResponse slot) (hr : handle mem s.state env = some r) :
    (r.1.nodes mem.electedLeader).leader =
      ((s.state.nodes mem.electedLeader).leader.handleResponse mem mem.electedLeader
        (.commitResponse slot)).1 := by
  obtain ⟨-, chosen, hinv⟩ := h.run
  have hvalid := hinv.valid env (mem_of_getElem? hi)
  obtain ⟨sender, receiver, message⟩ := env
  subst hans
  obtain rfl : receiver = mem.electedLeader := hvalid
  rw [handle, receive_commitResponse] at hr
  cases hr
  change (Function.update s.state.nodes mem.electedLeader _ mem.electedLeader).leader = _
  rw [Function.update_self]

theorem ChangesOwnSlot.of_answersFirst {s : PaxosRun} (hinv : AckRunInv mem s)
    (h : AnswersFirst mem s e) : ChangesOwnSlot mem s e := by
  cases e with
  | propose m v => trivial
  | deliver i =>
    intro env hi slot hans r hr slot' hne
    rw [instances, hinv.answer hi hans hr]
    refine lookup_answer _ _ ?_
    by_cases hslot : slot = 0
    · exact Or.inl (hslot ▸ hne)
    · exact Or.inr (h env hi slot hans hslot).1

/-- Slot `0` is not kept when a response for another slot changes its own slot only. -/
theorem ChangesOwnSlot.notMem {s : PaxosRun} (hinv : AckRunInv mem s)
    (h : ChangesOwnSlot mem s (.deliver i)) (hi : s.inFlight[i]? = some env)
    (hans : env.message = .commitResponse slot) (hne : slot ≠ 0) : 0 ∉ instances mem s.state := by
  intro hmem
  obtain ⟨n, hn⟩ := PaxosRun.mem_instances_iff.mp hmem
  obtain ⟨r, hr⟩ : ∃ r, handle mem s.state env = some r := ⟨_, rfl⟩
  have hsame := congrArg (Option.map PaxosInstance.numCommits) (h env hi slot hans r hr 0 hne.symm)
  rw [instances, hinv.answer hi hans hr] at hsame
  -- the leader has counted the response for slot `0`
  have hcount := (numCommits_answer _ slot).symm.trans hsame
  rw [hn, bind_some] at hcount
  have hn' : (if n + 1 = mem.acceptors.length then none else some (n + 1)) = some n :=
    hcount.trans hn
  split_ifs at hn'
  simp at hn'

/-- **The instances are reclaimed** in a run, with at least as many learners as acceptors, if and only
if the answers for slots other than `0` find slot `0` removed and are fewer than the acceptors. -/
theorem reclaims_iff_answersFirst (mem : Members)
    (hle : mem.acceptors.length ≤ mem.learners.length) (events : List PaxosEvent) :
    Lts.Meets (step mem) (ChangesOwnSlot mem) init events ∧
        Lts.Along (step mem) (Reclaims mem) init events ↔
      Lts.Meets (step mem) (AnswersFirst mem) init events := by
  constructor
  · rintro ⟨hown, hreclaims⟩ es₁ e es₂ s rfl hs
    have hinv := AckRunInv.of_run hs
    cases e with
    | propose m v => trivial
    | deliver i =>
      intro env hi slot hans hne
      refine ⟨(hown es₁ _ es₂ s rfl hs).notMem hinv hi hans hne, ?_⟩
      have hslot := hinv.acks.lt_nextEmptySlot (mem_of_getElem? hi) hans
      obtain ⟨s', hstep⟩ : ∃ s', step mem s (.deliver i) = some s' := by
        rw [step, Network.deliver, hi]
        exact ⟨_, rfl⟩
      obtain ⟨env', hi', heffect, harr, hinv'⟩ := hinv.deliver hstep
      obtain rfl : env = env' := Option.some.inj (hi.symm.trans hi')
      have hs' := (Lts.run_concat (step mem)).mpr ⟨s, hs, hstep⟩
      have hremoved := (hreclaims (es₁ ++ [.deliver i]) es₂ s' (by simp) hs').removed slot
        (hslot.trans_le heffect.nextEmptySlot_le)
      have hkept := hinv'.present (hslot.trans_le heffect.nextEmptySlot_le) hne
      have hlt := not_le.mp (mt hremoved.mpr (not_not.mpr hkept))
      have hanswers : answers slot env = true := decide_eq_true hans
      rwa [harr, if_pos hanswers] at hlt
  · intro hmeets
    refine ⟨fun es₁ e es₂ s hes hs =>
      .of_answersFirst (AckRunInv.of_run hs) (hmeets es₁ e es₂ s hes hs), ?_⟩
    rintro es₁ es₂ s rfl hs
    have hmeets₁ : Lts.Meets (step mem) (AnswersFirst mem) init es₁ := fun es₃ e es₄ t hes ht =>
      hmeets es₃ e (es₄ ++ es₂) t (by rw [hes, append_assoc]; rfl) ht
    have hcounts : CountsRun mem s := Lts.invariant_meets (step mem) CountsRun.init
      (fun t _ _ ⟨es, hes⟩ h hc hstep => h.step (AckRunInv.of_run hes) hc hstep) hmeets₁ hs
    exact hcounts.reclaims (AckRunInv.of_run hs) hle

theorem reclaims_iff_answersFirst_threeMembers :
    threeMembers.acceptors.length ≤ threeMembers.learners.length ∧
      (Lts.Meets (step threeMembers) (ChangesOwnSlot threeMembers) init twoProposals ∧
          Lts.Along (step threeMembers) (Reclaims threeMembers) init twoProposals ↔
        Lts.Meets (step threeMembers) (AnswersFirst threeMembers) init twoProposals) :=
  ⟨by decide, reclaims_iff_answersFirst threeMembers (by decide) twoProposals⟩

/-- **Slot `1` is kept** after all messages are delivered. -/
theorem not_reclaims_inOrder :
    ∃ s, Lts.run (step threeMembers) init (twoProposals ++ List.replicate 28 (.deliver 0)) =
        some s ∧ s.inFlight = [] ∧ arrived s.state s.inFlight 1 = 3 ∧
      1 ∈ instances threeMembers s.state ∧ ¬ Reclaims threeMembers s := by
  refine Lts.exists_run (p := fun s => s.inFlight = [] ∧ arrived s.state s.inFlight 1 = 3 ∧
    1 ∈ instances threeMembers s.state ∧
    (s.state.nodes threeMembers.electedLeader).leader.nextEmptySlot = 2) (by decide +kernel) ?_
  rintro s - ⟨hnil, harr, hmem, hnext⟩
  refine ⟨hnil, harr, hmem, fun hreclaims => ?_⟩
  exact (hreclaims.removed 1 (hnext ▸ by decide)).mpr harr.ge hmem

end PaxosRun

end Slog
