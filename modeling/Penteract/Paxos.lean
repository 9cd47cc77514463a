/-
# Multi-Paxos with a fixed leader

The first acceptor is the leader.  A proposal that reaches another machine is forwarded to it.  The
leader gives every proposal the next slot and asks the acceptors; when a majority has accepted, it
tells the learners.  A learner reports the slot and answers, and the leader counts the answers to
forget the slot.  It reads the slot of an answer from a field that the answer does not have, so
every answer counts for slot `0`.

Messages are delivered in any order.  The log is safe in every run.  It is complete if slot `0` is
accepted by a majority before the leader forgets it.
-/
import Penteract.Configuration
import Penteract.Lib.AssocMap
import Penteract.Lib.Network

namespace Slog

open List AssocMap

/-- The members of a group. -/
structure Members where
  acceptors : List MachineId
  learners : List MachineId
  acceptors_ne_nil : acceptors ≠ []
  acceptors_nodup : acceptors.Nodup
  learners_nodup : learners.Nodup

inductive PaxosMessage where
  | propose (value : ℕ)
  | accept (ballot : ℕ) (slot : SlotId) (value : ℕ)
  | commit (slot : SlotId) (value : ℕ) (leader : MachineId)
  | acceptResponse (ballot : ℕ) (slot : SlotId)
  | commitResponse (slot : SlotId)
  deriving DecidableEq, Repr

/-- The field `slot` of the field `paxos_accept` of a response.  Another response has its default
value there. -/
def PaxosMessage.acceptSlot : PaxosMessage → SlotId
  | .acceptResponse _ slot => slot
  | _ => 0

def PaxosMessage.isCommitResponse : PaxosMessage → Bool
  | .commitResponse _ => true
  | _ => false

structure PaxosEnvelope where
  sender : MachineId
  receiver : MachineId
  message : PaxosMessage
  deriving DecidableEq, Repr

/-- What `OnCommit` is called with. -/
structure PaxosCommit where
  slot : SlotId
  value : ℕ
  leader : MachineId
  deriving DecidableEq, Repr

structure PaxosInstance where
  ballot : ℕ
  value : ℕ
  numAccepts : ℕ := 0
  numCommits : ℕ := 0

/-- What a handler sends and reports. -/
structure PaxosOutput where
  sent : List PaxosEnvelope := []
  commits : List PaxosCommit := []

def kPaxosDefaultLeaderPosition : ℕ := 0

namespace Members

variable (mem : Members) (me : MachineId)

def isElected : Bool := mem.acceptors.idxOf me == kPaxosDefaultLeaderPosition

def electedLeader : MachineId := mem.acceptors.head mem.acceptors_ne_nil

/-- The ballot of an acceptor is its position. -/
def ballot : ℕ := mem.acceptors.idxOf me

/-- The number of acceptors that decides a slot. -/
def majority : ℕ := mem.acceptors.length / 2 + 1

end Members

structure Leader where
  nextEmptySlot : SlotId := 0
  instances : AssocMap SlotId PaxosInstance := ∅

namespace Leader

variable (mem : Members) (me : MachineId)

def startNewInstance (l : Leader) (value : ℕ) : Leader × PaxosOutput :=
  ({ nextEmptySlot := l.nextEmptySlot + 1,
     instances := l.instances.insertNew l.nextEmptySlot { ballot := mem.ballot me, value } },
   { sent := mem.acceptors.map fun a =>
      { sender := me, receiver := a, message := .accept (mem.ballot me) l.nextEmptySlot value } })

def processCommitRequest (l : Leader) (commit : PaxosCommit) : Leader × PaxosOutput :=
  ({ l with nextEmptySlot :=
      if l.nextEmptySlot ≤ commit.slot then commit.slot + 1 else l.nextEmptySlot },
   { commits := [commit] })

def handleRequest (l : Leader) : PaxosMessage → Leader × PaxosOutput
  | .propose value =>
    if mem.isElected me then l.startNewInstance mem me value
    else (l, { sent :=
      [{ sender := me, receiver := mem.electedLeader, message := .propose value }] })
  | .commit slot value leader => l.processCommitRequest { slot, value, leader }
  | _ => (l, {})

def handleResponse (l : Leader) (res : PaxosMessage) : Leader × PaxosOutput :=
  match res with
  | .acceptResponse _ _ =>
    let slot := res.acceptSlot
    match l.instances.lookup slot with
    | none => (l, {})
    | some i =>
      ({ l with
          instances := l.instances.insert slot { i with numAccepts := i.numAccepts + 1 } },
       { sent := if i.numAccepts + 1 = mem.majority then
          mem.learners.map fun m =>
            { sender := me, receiver := m, message := .commit slot i.value me }
          else [] })
  | .commitResponse _ =>
    let slot := res.acceptSlot
    match l.instances.lookup slot with
    | none => (l, {})
    | some i =>
      ({ l with instances :=
          if i.numCommits + 1 = mem.acceptors.length then l.instances.erase slot
          else l.instances.insert slot { i with numCommits := i.numCommits + 1 } }, {})
  | _ => (l, {})

end Leader

structure Acceptor where
  ballot : ℕ := 0

namespace Acceptor

def processAcceptRequest (me : MachineId) (a : Acceptor) (ballot : ℕ) (slot : SlotId)
    (sender : MachineId) : Acceptor × List PaxosEnvelope :=
  if ballot < a.ballot then (a, [])
  else ({ ballot },
    [{ sender := me, receiver := sender, message := .acceptResponse ballot slot }])

def processCommitRequest (me : MachineId) (slot : SlotId) (sender : MachineId) :
    List PaxosEnvelope :=
  [{ sender := me, receiver := sender, message := .commitResponse slot }]

def handleRequest (me : MachineId) (a : Acceptor) (req : PaxosEnvelope) :
    Acceptor × List PaxosEnvelope :=
  match req.message with
  | .accept ballot slot _ => a.processAcceptRequest me ballot slot req.sender
  | .commit slot _ _ => (a, processCommitRequest me slot req.sender)
  | _ => (a, [])

end Acceptor

structure SimulatedMultiPaxos where
  leader : Leader := {}
  acceptor : Acceptor := {}

namespace SimulatedMultiPaxos

variable (mem : Members) (me : MachineId)

def onInternalRequestReceived (p : SimulatedMultiPaxos) (req : PaxosEnvelope) :
    SimulatedMultiPaxos × PaxosOutput :=
  let (leader, out) := p.leader.handleRequest mem me req.message
  let (acceptor, sent) := p.acceptor.handleRequest me req
  ({ leader, acceptor }, { out with sent := out.sent ++ sent })

def onInternalResponseReceived (p : SimulatedMultiPaxos) (res : PaxosEnvelope) :
    SimulatedMultiPaxos × PaxosOutput :=
  let (leader, out) := p.leader.handleResponse mem me res.message
  ({ p with leader }, out)

def receive (p : SimulatedMultiPaxos) (env : PaxosEnvelope) : SimulatedMultiPaxos × PaxosOutput :=
  match env.message with
  | .acceptResponse _ _ | .commitResponse _ => p.onInternalResponseReceived mem me env
  | _ => p.onInternalRequestReceived mem me env

end SimulatedMultiPaxos

namespace Members

variable {mem : Members} {me : MachineId}

theorem isElected_iff : mem.isElected me = true ↔ me = mem.electedLeader := by
  obtain ⟨acceptors, learners, hne, hnd, hnd'⟩ := mem
  cases acceptors with
  | nil => exact absurd rfl hne
  | cons a as =>
    rw [isElected, electedLeader, kPaxosDefaultLeaderPosition, beq_iff_eq, head_cons]
    constructor
    · intro h
      by_contra hne
      rw [idxOf_cons_ne _ (Ne.symm hne)] at h
      cases h
    · rintro rfl
      exact idxOf_cons_self

theorem ballot_electedLeader : mem.ballot mem.electedLeader = 0 :=
  beq_iff_eq.mp (isElected_iff.mpr rfl)

end Members

namespace SimulatedMultiPaxos

variable {mem : Members} {me : MachineId} {p : SimulatedMultiPaxos} {sender : MachineId}

/-- The leader starts an instance for a proposal. -/
theorem receive_propose {v : ℕ} (hme : me = mem.electedLeader) :
    p.receive mem me ⟨sender, me, .propose v⟩ =
      ({ p with leader := (p.leader.startNewInstance mem me v).1 },
        (p.leader.startNewInstance mem me v).2) := by
  simp [receive, onInternalRequestReceived, Leader.handleRequest, Members.isElected_iff.mpr hme,
    Acceptor.handleRequest]

/-- Another machine forwards it. -/
theorem receive_forward {v : ℕ} (hme : me ≠ mem.electedLeader) :
    p.receive mem me ⟨sender, me, .propose v⟩ =
      (p, { sent := [⟨me, mem.electedLeader, .propose v⟩] }) := by
  simp [receive, onInternalRequestReceived, Leader.handleRequest, Members.isElected_iff, hme,
    Acceptor.handleRequest]

theorem receive_accept {slot : SlotId} {v : ℕ} (hp : p.acceptor.ballot = 0) :
    p.receive mem me ⟨sender, me, .accept 0 slot v⟩ =
      (p, { sent := [⟨me, sender, .acceptResponse 0 slot⟩] }) := by
  obtain ⟨leader, ⟨ballot⟩⟩ := p
  obtain rfl : ballot = 0 := hp
  rfl

theorem receive_commit {slot : SlotId} {v : ℕ} {leader : MachineId} :
    p.receive mem me ⟨sender, me, .commit slot v leader⟩ =
      ({ p with leader := (p.leader.processCommitRequest ⟨slot, v, leader⟩).1 },
        { sent := [⟨me, sender, .commitResponse slot⟩], commits := [⟨slot, v, leader⟩] }) := rfl

theorem receive_acceptResponse_none {ballot : ℕ} {slot : SlotId}
    (hinst : p.leader.instances.lookup slot = none) :
    p.receive mem me ⟨sender, me, .acceptResponse ballot slot⟩ = (p, {}) := by
  simp [receive, onInternalResponseReceived, Leader.handleResponse, PaxosMessage.acceptSlot, hinst]

theorem receive_acceptResponse_some {ballot : ℕ} {slot : SlotId} {inst : PaxosInstance}
    (hinst : p.leader.instances.lookup slot = some inst) :
    p.receive mem me ⟨sender, me, .acceptResponse ballot slot⟩ =
      ({ p with
          leader := { p.leader with
            instances := p.leader.instances.insert slot
              { inst with numAccepts := inst.numAccepts + 1 } } },
        { sent := if inst.numAccepts + 1 = mem.majority then
            mem.learners.map fun m => ⟨me, m, .commit slot inst.value me⟩ else [] }) := by
  simp [receive, onInternalResponseReceived, Leader.handleResponse, PaxosMessage.acceptSlot, hinst]

theorem receive_commitResponse {slot : SlotId} :
    p.receive mem me ⟨sender, me, .commitResponse slot⟩ =
      ({ p with leader := (p.leader.handleResponse mem me (.commitResponse slot)).1 }, {}) := by
  cases hinst : p.leader.instances.lookup 0 <;>
    simp [receive, onInternalResponseReceived, Leader.handleResponse, PaxosMessage.acceptSlot,
      hinst]

end SimulatedMultiPaxos

/-! ## Runs -/

/-- A commit reported by a machine. -/
structure PaxosReport where
  learner : MachineId
  slot : SlotId
  value : ℕ
  deriving DecidableEq, Repr

/-- The machines, with what was proposed, sent and reported so far. -/
structure PaxosState where
  nodes : MachineId → SimulatedMultiPaxos := fun _ => {}
  proposed : List ℕ := []
  sent : List PaxosEnvelope := []
  reports : List PaxosReport := []

abbrev PaxosRun := Network PaxosState PaxosEnvelope

inductive PaxosEvent where
  | propose (m : MachineId) (value : ℕ)
  | deliver (i : ℕ)

namespace PaxosRun

open SimulatedMultiPaxos

variable (mem : Members)

def handle (s : PaxosState) (env : PaxosEnvelope) : Option (PaxosState × List PaxosEnvelope) :=
  let (node, out) := (s.nodes env.receiver).receive mem env.receiver env
  some ({ s with
    nodes := Function.update s.nodes env.receiver node,
    sent := s.sent ++ out.sent,
    reports := s.reports ++ out.commits.map fun c =>
      { learner := env.receiver, slot := c.slot, value := c.value } }, out.sent)

def init : PaxosRun := { state := {} }

/-- A proposal arrives at a machine, or a message is delivered. -/
def step (s : PaxosRun) : PaxosEvent → Option PaxosRun
  | .propose m value => some {
      state := { s.state with proposed := s.state.proposed ++ [value] },
      inFlight := s.inFlight ++ [{ sender := m, receiver := m, message := .propose value }] }
  | .deliver i => Network.deliver (handle mem) s i

/-- The machine that an accept request for a slot is sent to. -/
def acceptTo (slot : SlotId) (env : PaxosEnvelope) : Option MachineId :=
  match env.message with
  | .accept _ s _ => if s = slot then some env.receiver else none
  | _ => none

/-- The machine that has accepted a slot by its response. -/
def acceptedBy (slot : SlotId) (env : PaxosEnvelope) : Option MachineId :=
  match env.message with
  | .acceptResponse _ s => if s = slot then some env.sender else none
  | _ => none

/-- The machine that a commit request for a slot is sent to. -/
def commitTo (slot : SlotId) (env : PaxosEnvelope) : Option MachineId :=
  match env.message with
  | .commit s _ _ => if s = slot then some env.receiver else none
  | _ => none

def proposal (env : PaxosEnvelope) : Option ℕ :=
  match env.message with
  | .propose value => some value
  | _ => none

def reportedBy (slot : SlotId) (r : PaxosReport) : Option MachineId :=
  if r.slot = slot then some r.learner else none

/-- **The log is safe.**  All reports agree with one log, in which every proposal that the leader
has seen has one slot; no slot is reported twice to a learner, and a slot is committed only after
a strict majority of the acceptors has accepted it. -/
structure Safe (s : PaxosRun) (chosen : List ℕ) : Prop where
  slots : (s.state.nodes mem.electedLeader).leader.nextEmptySlot = chosen.length
  occupies : (chosen ++ s.inFlight.filterMap proposal).Perm s.state.proposed
  agreement : ∀ r ∈ s.state.reports, r.learner ∈ mem.learners ∧ chosen[r.slot]? = some r.value
  once : (s.state.reports.map fun r => (r.learner, r.slot)).Nodup
  majority : ∀ env ∈ s.state.sent, ∀ slot, (commitTo slot env).isSome →
    mem.acceptors.length <
      2 * (mem.acceptors.filter fun a => a ∈ s.state.sent.filterMap (acceptedBy slot)).length

/-- **The log is safe and complete**: when all messages are delivered, every learner has reported
the slots `0`, …, `n - 1` of the `n` proposals. -/
def Correct (s : PaxosRun) : Prop :=
  ∃ chosen, Safe mem s chosen ∧ (s.inFlight = [] → chosen.Perm s.state.proposed ∧
    ∀ m ∈ mem.learners, ((s.state.reports.filter fun r => r.learner = m).map fun r =>
      (r.value, r.slot)).Perm chosen.zipIdx)

/-- The leader forgets slot `0` only after a majority has accepted it. -/
def ForgetsDecided (s : PaxosRun) : PaxosEvent → Prop
  | .deliver i => ∀ env ∈ s.inFlight[i]?, env.message.isCommitResponse →
      ∀ inst ∈ (s.state.nodes env.receiver).leader.instances.lookup 0,
        inst.numCommits + 1 = mem.acceptors.length → mem.majority ≤ inst.numAccepts
  | .propose _ _ => True

instance (s : PaxosRun) : ∀ e, Decidable (ForgetsDecided mem s e)
  | .deliver i => inferInstanceAs (Decidable (∀ env ∈ s.inFlight[i]?, _ → ∀ inst ∈ _, _ → _))
  | .propose _ _ => isTrue trivial

/-! ## The invariant -/

/-- The messages that a run sends. -/
def Valid (chosen : List ℕ) (env : PaxosEnvelope) : Prop :=
  match env.message with
  | .propose _ => True
  | .accept ballot slot value =>
    ballot = 0 ∧ env.sender = mem.electedLeader ∧ chosen[slot]? = some value
  | .commit slot value _ =>
    env.sender = mem.electedLeader ∧ env.receiver ∈ mem.learners ∧ chosen[slot]? = some value
  | .acceptResponse _ slot => env.receiver = mem.electedLeader ∧ slot < chosen.length
  | .commitResponse _ => env.receiver = mem.electedLeader

/-- What is known of an instance that the leader keeps. -/
structure InstanceInv (s : PaxosState) (fl : List PaxosEnvelope) (chosen : List ℕ) (slot : SlotId)
    (inst : PaxosInstance) : Prop where
  value : chosen[slot]? = some inst.value
  counted : (s.sent.filterMap (acceptedBy slot)).length =
    (fl.filterMap (acceptedBy slot)).length + inst.numAccepts
  commits : (fl.filterMap (commitTo slot) ++ s.reports.filterMap (reportedBy slot)).Perm
    (if mem.majority ≤ inst.numAccepts then mem.learners else [])

/-- The invariant of a run with the leader's state `l` and the messages `fl` in flight.  With
`strict`, a slot is forgotten only after it was decided. -/
structure Inv (strict : Prop) (l : Leader) (s : PaxosState) (fl : List PaxosEnvelope)
    (chosen : List ℕ) : Prop where
  next : l.nextEmptySlot = chosen.length
  proposals : (chosen ++ fl.filterMap proposal).Perm s.proposed
  valid : ∀ env ∈ fl, Valid mem chosen env
  validSent : ∀ env ∈ s.sent, Valid mem chosen env
  instances : ∀ slot inst, l.instances.lookup slot = some inst →
    InstanceInv mem s fl chosen slot inst
  present : ∀ slot < chosen.length, slot ≠ 0 → slot ∈ l.instances
  accepts : ∀ slot < chosen.length,
    (fl.filterMap (acceptTo slot) ++ s.sent.filterMap (acceptedBy slot)).Perm mem.acceptors
  forgotten : 0 < chosen.length → 0 ∉ l.instances →
    (fl.filterMap (commitTo 0) ++ s.reports.filterMap (reportedBy 0)).Perm mem.learners ∨
      ¬ strict ∧ fl.filterMap (commitTo 0) ++ s.reports.filterMap (reportedBy 0) = []
  decided : ∀ env ∈ s.sent, ∀ slot, (commitTo slot env).isSome →
    mem.majority ≤ (s.sent.filterMap (acceptedBy slot)).length
  reports : ∀ r ∈ s.reports, r.learner ∈ mem.learners ∧ chosen[r.slot]? = some r.value

variable {mem} in
/-- A message stays valid when a proposal gets a slot. -/
theorem Valid.concat {chosen : List ℕ} {env : PaxosEnvelope} (h : Valid mem chosen env)
    (value : ℕ) : Valid mem (chosen ++ [value]) env := by
  obtain ⟨sender, receiver, message⟩ := env
  cases message with
  | propose v => trivial
  | accept | commit =>
    exact ⟨h.1, h.2.1, List.getElem?_append_left (List.getElem?_eq_some_iff.mp h.2.2).1 ▸ h.2.2⟩
  | acceptResponse ballot slot =>
    exact ⟨h.1, by rw [length_append]; exact Nat.lt_add_right _ h.2⟩
  | commitResponse slot => exact h

variable {mem} in
/-- A valid message is about a slot that is in use. -/
theorem Valid.eq_none {chosen : List ℕ} {env : PaxosEnvelope} (h : Valid mem chosen env)
    {slot : SlotId} (hslot : chosen.length ≤ slot) :
    acceptTo slot env = none ∧ acceptedBy slot env = none ∧ commitTo slot env = none := by
  have hne : ∀ {s : SlotId} {v : ℕ}, chosen[s]? = some v → s ≠ slot := by
    rintro s v hs rfl
    exact absurd (List.getElem?_eq_some_iff.mp hs).1 (not_lt.mpr hslot)
  obtain ⟨sender, receiver, message⟩ := env
  cases message with
  | propose | commitResponse => exact ⟨rfl, rfl, rfl⟩
  | accept ballot s v => exact ⟨if_neg (hne h.2.2), rfl, rfl⟩
  | commit s v leader => exact ⟨rfl, rfl, if_neg (hne h.2.2)⟩
  | acceptResponse ballot s => exact ⟨rfl, if_neg (h.2.trans_le hslot).ne, rfl⟩

theorem filterMap_cons_eq {α β : Type*} {f : α → Option β} {a : α} {as : List α} :
    (a :: as).filterMap f = (f a).toList ++ as.filterMap f := by
  cases h : f a <;> simp [filterMap_cons, h]

theorem filterMap_exchange {α β γ : Type*} {f : α → Option γ} {g : β → Option γ} {a : α}
    {as bs : List α} {xs ys : List β} (h : bs.filterMap f ++ ys.filterMap g = (f a).toList) :
    ((as ++ bs).filterMap f ++ (xs ++ ys).filterMap g).Perm
      ((a :: as).filterMap f ++ xs.filterMap g) := by
  classical
  rw [filterMap_cons_eq, ← h, perm_iff_count]
  intro c
  simp only [filterMap_append, count_append]
  omega

/-- What is left of a forgotten slot does not depend on the order. -/
theorem forgotten_of_perm {strict : Prop} {ms ms' learners : List MachineId}
    (h : ms.Perm learners ∨ ¬ strict ∧ ms = []) (hp : ms'.Perm ms) :
    ms'.Perm learners ∨ ¬ strict ∧ ms' = [] :=
  h.imp hp.trans fun ⟨hs, hnil⟩ => ⟨hs, (hnil ▸ hp).eq_nil⟩

theorem filterMap_map_none {α β γ : Type*} {f : α → β} {g : β → Option γ}
    (h : ∀ a, g (f a) = none) (l : List α) : (l.map f).filterMap g = [] := by
  rw [filterMap_map, filterMap_eq_nil_iff]
  exact fun a _ => h a

theorem filterMap_map_some {α β : Type*} {f : α → β} {g : β → Option α}
    (h : ∀ a, g (f a) = some a) (l : List α) : (l.map f).filterMap g = l := by
  rw [filterMap_map]
  exact (filterMap_congr fun a _ => h a).trans filterMap_some

namespace Inv

variable {mem} {strict : Prop} {l : Leader} {s : PaxosState} {fl rest : List PaxosEnvelope}
  {chosen : List ℕ}

/-- The order of the messages in flight does not matter. -/
theorem perm {fl' : List PaxosEnvelope} (h : Inv mem strict l s fl chosen) (hp : fl.Perm fl') :
    Inv mem strict l s fl' chosen where
  __ := h
  proposals := ((hp.symm.filterMap _).append_left _).trans h.proposals
  valid := fun env henv => h.valid env (hp.mem_iff.mpr henv)
  accepts := fun slot hs => ((hp.symm.filterMap _).append_right _).trans (h.accepts slot hs)
  instances := fun slot inst hi =>
    have hold := h.instances slot inst hi
    { hold with
      counted := by rw [hold.counted, (hp.filterMap _).length_eq]
      commits := ((hp.symm.filterMap _).append_right _).trans hold.commits }
  forgotten := fun hpos hno =>
    forgotten_of_perm (h.forgotten hpos hno) ((hp.symm.filterMap _).append_right _)

theorem init : Inv mem strict {} {} [] [] where
  next := rfl
  proposals := Perm.refl _
  valid := by simp
  validSent := by simp
  instances := by simp
  present := by simp
  accepts := by simp
  forgotten := by simp
  decided := by simp
  reports := by simp

/-- A proposal arrives at a machine. -/
theorem propose (h : Inv mem strict l s fl chosen) (m : MachineId) (v : ℕ) :
    Inv mem strict l { s with proposed := s.proposed ++ [v] }
      (fl ++ [⟨m, m, .propose v⟩]) chosen where
  __ := h
  proposals := by
    rw [filterMap_append, ← append_assoc]
    exact h.proposals.append_right _
  valid := forall_mem_append.mpr ⟨h.valid, forall_mem_singleton.mpr trivial⟩
  accepts := by
    simpa [filterMap_cons, acceptTo] using h.accepts
  instances := fun slot inst hi =>
    have hold := h.instances slot inst hi
    { hold with
      counted := by simpa [filterMap_cons, acceptedBy] using hold.counted
      commits := by simpa [filterMap_cons, commitTo] using hold.commits }
  forgotten := by
    simpa [filterMap_cons, commitTo] using h.forgotten

/-- **A message is exchanged for the answers of its receiver**, when they concern a slot no more
than the message did. -/
theorem exchange {env : PaxosEnvelope} (h : Inv mem strict l s (env :: rest) chosen)
    (out : List PaxosEnvelope) (reports : List PaxosReport)
    (hproposal : out.filterMap proposal = (proposal env).toList)
    (hvalid : ∀ e ∈ out, Valid mem chosen e)
    (haccept : ∀ slot, out.filterMap (acceptTo slot) ++ out.filterMap (acceptedBy slot) =
      (acceptTo slot env).toList)
    (hresponse : ∀ slot ∈ l.instances, acceptedBy slot env = none)
    (hcommit : ∀ slot, out.filterMap (commitTo slot) ++ reports.filterMap (reportedBy slot) =
      (commitTo slot env).toList)
    (hquiet : ∀ e ∈ out, ∀ slot, commitTo slot e = none)
    (hreports : ∀ r ∈ reports, r.learner ∈ mem.learners ∧ chosen[r.slot]? = some r.value) :
    Inv mem strict l { s with sent := s.sent ++ out, reports := s.reports ++ reports }
      (rest ++ out) chosen where
  __ := h
  proposals := by
    have hold := h.proposals
    rw [filterMap_cons_eq, ← hproposal] at hold
    rw [filterMap_append]
    exact (perm_append_comm.append_left _).trans hold
  valid := forall_mem_append.mpr ⟨(forall_mem_cons.mp h.valid).2, hvalid⟩
  validSent := forall_mem_append.mpr ⟨h.validSent, hvalid⟩
  accepts := fun slot hslot => (filterMap_exchange (haccept slot)).trans (h.accepts slot hslot)
  instances := by
    intro slot inst hinst
    have hold := h.instances slot inst hinst
    refine ⟨hold.value, ?_, (filterMap_exchange (hcommit slot)).trans hold.commits⟩
    have hcount := hold.counted
    rw [filterMap_cons_none (hresponse slot (mem_iff_lookup.mpr ⟨inst, hinst⟩))] at hcount
    rw [filterMap_append, filterMap_append, length_append, length_append]
    omega
  forgotten := fun hpos hno =>
    forgotten_of_perm (h.forgotten hpos hno) (filterMap_exchange (hcommit 0))
  decided := by
    refine forall_mem_append.mpr ⟨fun e he slot hc => ?_, fun e he slot hc => ?_⟩
    · rw [filterMap_append, length_append]
      exact Nat.le_add_right_of_le (h.decided e he slot hc)
    · rw [hquiet e he slot] at hc
      cases hc
  reports := forall_mem_append.mpr ⟨h.reports, hreports⟩

/-- What is not there yet for the next slot. -/
theorem unused (h : Inv mem strict l s fl chosen) :
    fl.filterMap (acceptTo chosen.length) = [] ∧ fl.filterMap (acceptedBy chosen.length) = [] ∧
      fl.filterMap (commitTo chosen.length) = [] ∧
      s.sent.filterMap (acceptedBy chosen.length) = [] ∧
      s.reports.filterMap (reportedBy chosen.length) = [] := by
  simp only [filterMap_eq_nil_iff]
  refine ⟨fun env henv => ((h.valid env henv).eq_none le_rfl).1,
    fun env henv => ((h.valid env henv).eq_none le_rfl).2.1,
    fun env henv => ((h.valid env henv).eq_none le_rfl).2.2,
    fun env henv => ((h.validSent env henv).eq_none le_rfl).2.1, fun r hr => if_neg ?_⟩
  exact (List.getElem?_eq_some_iff.mp (h.reports r hr).2).1.ne

theorem chosen_length_notMem (h : Inv mem strict l s fl chosen) :
    chosen.length ∉ l.instances := by
  intro hmem
  obtain ⟨inst, hinst⟩ := mem_iff_lookup.mp hmem
  exact absurd (List.getElem?_eq_some_iff.mp (h.instances _ _ hinst).value).1 (lt_irrefl _)

/-- The leader gives a proposal the next slot. -/
theorem start {a b : MachineId} {v : ℕ}
    (h : Inv mem strict l s (⟨a, b, .propose v⟩ :: rest) chosen) :
    Inv mem strict (l.startNewInstance mem mem.electedLeader v).1
      { s with sent := s.sent ++ (l.startNewInstance mem mem.electedLeader v).2.sent }
      (rest ++ (l.startNewInstance mem mem.electedLeader v).2.sent) (chosen ++ [v]) := by
  obtain ⟨hA, hR, hC, hSR, hX⟩ := h.unused
  have hnot := h.chosen_length_notMem
  have hlt : ∀ slot < (chosen ++ [v]).length, slot = chosen.length ∨ slot < chosen.length := by
    intro slot hslot
    rw [length_append, length_singleton] at hslot
    exact (Nat.lt_succ_iff_lt_or_eq.mp hslot).symm
  simp only [Leader.startNewInstance, Members.ballot_electedLeader, h.next]
  set out : List PaxosEnvelope := mem.acceptors.map fun a =>
    ⟨mem.electedLeader, a, .accept 0 chosen.length v⟩ with hout
  have hvalid : ∀ env ∈ out, Valid mem (chosen ++ [v]) env := by
    intro env henv
    obtain ⟨a, -, rfl⟩ := mem_map.mp henv
    exact ⟨rfl, rfl, List.getElem?_concat_length⟩
  have hout1 : out.filterMap proposal = [] := filterMap_map_none (fun _ => rfl) _
  have hout2 : ∀ slot, out.filterMap (acceptedBy slot) = [] := fun slot =>
    filterMap_map_none (fun _ => rfl) _
  have hout3 : ∀ slot, out.filterMap (commitTo slot) = [] := fun slot =>
    filterMap_map_none (fun _ => rfl) _
  have hout4 : out.filterMap (acceptTo chosen.length) = mem.acceptors :=
    filterMap_map_some (fun _ => if_pos rfl) _
  have hout5 : ∀ slot < chosen.length, out.filterMap (acceptTo slot) = [] := by
    intro slot hslot
    exact filterMap_map_none (fun a => by simp [acceptTo, hslot.ne']) _
  refine ⟨?_, ?_, ?_, ?_, ?_, ?_, ?_, ?_, ?_, ?_⟩
  · rw [length_append]
    rfl
  · rw [filterMap_append, hout1, append_nil, append_assoc]
    exact h.proposals
  · exact forall_mem_append.mpr
      ⟨fun env henv => (h.valid env (mem_cons_of_mem _ henv)).concat v, hvalid⟩
  · exact forall_mem_append.mpr ⟨fun env henv => (h.validSent env henv).concat v, hvalid⟩
  · intro slot inst hinst
    rw [lookup_insertNew _ _ _ _ hnot] at hinst
    split_ifs at hinst with heq
    · cases hinst
      have hR' : rest.filterMap (acceptedBy chosen.length) = [] := hR
      have hC' : rest.filterMap (commitTo chosen.length) = [] := hC
      subst heq
      refine ⟨List.getElem?_concat_length, ?_, ?_⟩
      · rw [filterMap_append, filterMap_append, hout2, hSR, hR']
        rfl
      · rw [filterMap_append, hout3, hC', hX, if_neg (by simp [Members.majority])]
        rfl
    · obtain ⟨hval, hcount, hcom⟩ := h.instances slot inst hinst
      refine ⟨?_, ?_, ?_⟩
      · rw [List.getElem?_append_left (List.getElem?_eq_some_iff.mp hval).1, hval]
      · rw [filterMap_append, filterMap_append, hout2, append_nil, append_nil]
        exact hcount
      · rw [filterMap_append, hout3, append_nil]
        exact hcom
  · intro slot hslot hne
    rw [mem_iff_lookup, lookup_insertNew _ _ _ _ hnot]
    split_ifs with heq
    · exact ⟨_, rfl⟩
    · exact mem_iff_lookup.mp (h.present slot ((hlt slot hslot).resolve_left heq) hne)
  · intro slot hslot
    rw [filterMap_append, filterMap_append, hout2, append_nil]
    rcases hlt slot hslot with rfl | hslot
    · have hA' : rest.filterMap (acceptTo chosen.length) = [] := hA
      rw [hA', hSR, hout4, nil_append, append_nil]
    · rw [hout5 slot hslot, append_nil]
      exact h.accepts slot hslot
  · intro _ hno
    rw [not_mem_iff_lookup, lookup_insertNew _ _ _ _ hnot] at hno
    split_ifs at hno with heq
    rw [filterMap_append, hout3, append_nil]
    exact h.forgotten (Nat.pos_of_ne_zero (Ne.symm heq)) (not_mem_iff_lookup.mpr hno)
  · simp only [filterMap_append, hout2, append_nil]
    refine forall_mem_append.mpr ⟨h.decided, fun env henv slot hc => ?_⟩
    obtain ⟨a, -, rfl⟩ := mem_map.mp henv
    cases hc
  · intro r hr
    obtain ⟨hm, hval⟩ := h.reports r hr
    rw [List.getElem?_append_left (List.getElem?_eq_some_iff.mp hval).1]
    exact ⟨hm, hval⟩

/-- The leader counts a response, and with the one that makes a majority it tells the learners. -/
theorem acceptResponse_some {a b : MachineId} {ballot : ℕ} {slot : SlotId} {inst : PaxosInstance}
    {out : List PaxosEnvelope}
    (h : Inv mem strict l s (⟨a, b, .acceptResponse ballot slot⟩ :: rest) chosen)
    (hinst : l.instances.lookup slot = some inst)
    (hout : out = if inst.numAccepts + 1 = mem.majority then
      mem.learners.map fun m => ⟨mem.electedLeader, m, .commit slot inst.value mem.electedLeader⟩
      else []) :
    Inv mem strict
      { l with instances :=
        l.instances.insert slot { inst with numAccepts := inst.numAccepts + 1 } }
      { s with sent := s.sent ++ out } (rest ++ out) chosen := by
  obtain ⟨-, hvalid⟩ := forall_mem_cons.mp h.valid
  obtain ⟨hval, hcount, hcom⟩ := h.instances slot inst hinst
  have hnewValid : ∀ env ∈ out, Valid mem chosen env := by
    intro env henv
    rw [hout] at henv
    split_ifs at henv
    · obtain ⟨m, hm, rfl⟩ := mem_map.mp henv
      exact ⟨rfl, hm, hval⟩
    · cases henv
  have hnone : ∀ {γ : Type} (g : PaxosEnvelope → Option γ),
      (∀ m, g ⟨mem.electedLeader, m, .commit slot inst.value mem.electedLeader⟩ = none) →
      out.filterMap g = [] := by
    intro γ g hg
    rw [hout]
    split_ifs
    · exact filterMap_map_none hg _
    · rfl
  have hprop : out.filterMap proposal = [] := hnone _ fun _ => rfl
  have hto : ∀ k, out.filterMap (acceptTo k) = [] := fun k => hnone _ fun _ => rfl
  have hby : ∀ k, out.filterMap (acceptedBy k) = [] := fun k => hnone _ fun _ => rfl
  have hcommit : ∀ k, k ≠ slot → out.filterMap (commitTo k) = [] := fun k hk =>
    hnone _ fun m => if_neg hk.symm
  simp only [filterMap_cons, acceptedBy, if_pos, length_cons, commitTo] at hcount hcom
  refine ⟨h.next, ?_, forall_mem_append.mpr ⟨hvalid, hnewValid⟩,
    forall_mem_append.mpr ⟨h.validSent, hnewValid⟩, fun k i hi => ?_, fun k hk hne => ?_, ?_,
    fun hpos hno => ?_, fun env henv k hc => ?_, h.reports⟩
  · rw [filterMap_append, hprop, append_nil]
    simpa [filterMap_cons, proposal] using h.proposals
  · rcases lookup_insert_eq_some.mp hi with ⟨rfl, rfl⟩ | ⟨hk, hi⟩
    · refine ⟨hval, ?_, ?_⟩
      · simp only [filterMap_append, append_nil, hby]
        omega
      rw [filterMap_append]
      by_cases hmaj : inst.numAccepts + 1 = mem.majority
      · -- nothing was sent before
        rw [if_neg (by omega)] at hcom
        obtain ⟨hc, hr⟩ := append_eq_nil_iff.mp hcom.eq_nil
        have hself : out.filterMap (commitTo k) = mem.learners := by
          rw [hout, if_pos hmaj]
          exact filterMap_map_some (fun _ => if_pos rfl) _
        rw [hc, hr, hself, if_pos hmaj.ge, nil_append, append_nil]
      · rw [hout, if_neg hmaj, filterMap_nil, append_nil]
        simpa only [show mem.majority ≤ inst.numAccepts + 1 ↔ mem.majority ≤ inst.numAccepts by
          omega] using hcom
    · obtain ⟨hval', hcount', hcom'⟩ := h.instances k i hi
      refine ⟨hval', ?_, ?_⟩
      · rw [filterMap_append, filterMap_append, hby, append_nil, append_nil]
        simpa only [filterMap_cons, acceptedBy, if_neg (Ne.symm hk)] using hcount'
      · rw [filterMap_append, hcommit k hk, append_nil]
        simpa [filterMap_cons, commitTo] using hcom'
  · exact (AList.mem_insert _).mpr (Or.inr (h.present k hk hne))
  · simp only [filterMap_append, append_nil, hto, hby]
    simpa [filterMap_cons, acceptTo] using h.accepts
  · have hne : 0 ≠ slot := fun h0 => hno ((AList.mem_insert _).mpr (Or.inl h0))
    rw [filterMap_append, hcommit 0 hne, append_nil]
    simpa only [filterMap_cons, commitTo] using h.forgotten hpos fun h0 => hno ((AList.mem_insert _).mpr (Or.inr h0))
  · rw [filterMap_append, hby, append_nil]
    rcases mem_append.mp henv with henv | henv
    · exact h.decided env henv k hc
    · rw [hout] at henv
      split_ifs at henv with hmaj
      · obtain ⟨m, -, rfl⟩ := mem_map.mp henv
        have hk : slot = k := by
          by_contra hk
          simp [commitTo, hk] at hc
        subst hk
        omega
      · cases henv

/-- The number of commits of an instance does not matter. -/
theorem setInstance (h : Inv mem strict l s fl chosen) {slot : SlotId}
    {inst inst' : PaxosInstance} (hinst : l.instances.lookup slot = some inst)
    (hvalue : inst'.value = inst.value) (hnum : inst'.numAccepts = inst.numAccepts) :
    Inv mem strict { l with instances := l.instances.insert slot inst' } s fl chosen where
  __ := h
  instances := by
    intro k i hi
    rcases lookup_insert_eq_some.mp hi with ⟨rfl, rfl⟩ | ⟨-, hi⟩
    · obtain ⟨hval, hcount, hcom⟩ := h.instances k inst hinst
      exact ⟨hvalue ▸ hval, hnum ▸ hcount, hnum ▸ hcom⟩
    · exact h.instances k i hi
  present := fun k hk hne => (AList.mem_insert _).mpr (Or.inr (h.present k hk hne))
  forgotten := fun hpos hno => h.forgotten hpos fun h0 => hno ((AList.mem_insert _).mpr (Or.inr h0))

/-- The leader counts the answer of a learner for slot `0`. -/
theorem commitResponse {a b : MachineId} {slot : SlotId}
    (h : Inv mem strict l s (⟨a, b, .commitResponse slot⟩ :: rest) chosen)
    (hcond : strict → ∀ inst ∈ l.instances.lookup 0,
      inst.numCommits + 1 = mem.acceptors.length → mem.majority ≤ inst.numAccepts) :
    Inv mem strict (l.handleResponse mem mem.electedLeader (.commitResponse slot)).1 s rest
      chosen := by
  have hrest : Inv mem strict l s rest chosen := by
    simpa using h.exchange [] [] rfl nofun (fun _ => rfl) (fun _ _ => rfl) (fun _ => rfl) nofun
      nofun
  rw [Leader.handleResponse]
  dsimp only [PaxosMessage.acceptSlot]
  cases hinst : l.instances.lookup 0 with
  | none => exact hrest
  | some inst =>
    dsimp only
    split_ifs with hlast
    · -- slot `0` is forgotten
      refine ⟨h.next, hrest.proposals, hrest.valid, hrest.validSent, fun k i hi => ?_,
        fun k hk hne => ?_, hrest.accepts, fun hpos hno => ?_, hrest.decided, hrest.reports⟩
      · rw [lookup_erase'] at hi
        split_ifs at hi
        exact hrest.instances k i hi
      · exact AList.mem_erase.mpr ⟨hne, h.present k hk hne⟩
      · have hcom := (hrest.instances 0 inst hinst).commits
        split_ifs at hcom with hmaj
        · exact Or.inl hcom
        · exact Or.inr ⟨fun hs => hmaj (hcond hs inst hinst hlast), hcom.eq_nil⟩
    · exact hrest.setInstance hinst rfl rfl

end Inv

/-! ## Steps -/

/-- The invariant of a state of a run. -/
structure RunInv (strict : Prop) (s : PaxosRun) : Prop where
  ballots : ∀ m, (s.state.nodes m).acceptor.ballot = 0
  inv : ∃ chosen, Inv mem strict (s.state.nodes mem.electedLeader).leader s.state s.inFlight chosen

variable {mem} {strict : Prop}

variable (mem) in
/-- What a delivery does to the leader, and what is sent and reported. -/
inductive Delivery (l : Leader) :
    PaxosEnvelope → Leader → List PaxosEnvelope → List PaxosReport → Prop
  | start {a : MachineId} {v : ℕ} :
      Delivery l ⟨a, mem.electedLeader, .propose v⟩ (l.startNewInstance mem mem.electedLeader v).1
        (l.startNewInstance mem mem.electedLeader v).2.sent []
  | forward {a m : MachineId} {v : ℕ} :
      Delivery l ⟨a, m, .propose v⟩ l [⟨m, mem.electedLeader, .propose v⟩] []
  | accept {a m : MachineId} {slot : SlotId} {v : ℕ} :
      Delivery l ⟨a, m, .accept 0 slot v⟩ l [⟨m, a, .acceptResponse 0 slot⟩] []
  | commit {a m leader : MachineId} {slot : SlotId} {v : ℕ} (hslot : slot < l.nextEmptySlot) :
      Delivery l ⟨a, m, .commit slot v leader⟩ l [⟨m, a, .commitResponse slot⟩] [⟨m, slot, v⟩]
  | forgotten {a m : MachineId} {ballot : ℕ} {slot : SlotId}
      (hinst : l.instances.lookup slot = none) :
      Delivery l ⟨a, m, .acceptResponse ballot slot⟩ l [] []
  | accepted {a m : MachineId} {ballot : ℕ} {slot : SlotId} {inst : PaxosInstance}
      (hinst : l.instances.lookup slot = some inst) :
      Delivery l ⟨a, m, .acceptResponse ballot slot⟩
        { l with instances :=
          l.instances.insert slot { inst with numAccepts := inst.numAccepts + 1 } }
        (if inst.numAccepts + 1 = mem.majority then mem.learners.map fun m =>
          ⟨mem.electedLeader, m, .commit slot inst.value mem.electedLeader⟩ else []) []
  | answered {a : MachineId} {slot : SlotId} :
      Delivery l ⟨a, mem.electedLeader, .commitResponse slot⟩
        (l.handleResponse mem mem.electedLeader (.commitResponse slot)).1 [] []

variable {s : PaxosState} {env : PaxosEnvelope} {rest : List PaxosEnvelope}
  {r : PaxosState × List PaxosEnvelope}

variable (mem) in
/-- The state after a delivery. -/
def Delivers (s : PaxosState) (env : PaxosEnvelope) (r : PaxosState × List PaxosEnvelope) : Prop :=
  ∃ nodes reports, (∀ m, (nodes m).acceptor.ballot = 0) ∧
    r.1 = { s with nodes, sent := s.sent ++ r.2, reports := s.reports ++ reports } ∧
    Delivery mem (s.nodes mem.electedLeader).leader env (nodes mem.electedLeader).leader r.2 reports

/-- What a delivery does, from what the receiver does. -/
theorem Delivers.of_receive {node : SimulatedMultiPaxos} {out : PaxosOutput} {l : Leader}
    (hr : handle mem s env = some r) (hballots : ∀ m, (s.nodes m).acceptor.ballot = 0)
    (hrec : (s.nodes env.receiver).receive mem env.receiver env = (node, out))
    (hnode : node.acceptor.ballot = 0)
    (hl : (if mem.electedLeader = env.receiver then node.leader
      else (s.nodes mem.electedLeader).leader) = l)
    (h : Delivery mem (s.nodes mem.electedLeader).leader env l out.sent
      (out.commits.map fun c => ⟨env.receiver, c.slot, c.value⟩)) : Delivers mem s env r := by
  rw [handle, hrec] at hr
  cases hr
  refine ⟨_, _, fun m => ?_, rfl, ?_⟩
  · rw [Function.update_apply]
    split_ifs
    · exact hnode
    · exact hballots m
  · rwa [Function.update_apply, apply_ite SimulatedMultiPaxos.leader, hl]

/-- **A message does one of these things.** -/
theorem RunInv.delivers (h : RunInv mem strict { state := s, inFlight := env :: rest })
    (hr : PaxosRun.handle mem s env = some r) : Delivers mem s env r := by
  obtain ⟨hballots, chosen, hinv⟩ := h
  dsimp only at hballots hinv
  obtain ⟨sender, receiver, message⟩ := env
  have hvalid := (forall_mem_cons.mp hinv.valid).1
  cases message with
  | propose v =>
    by_cases hl : receiver = mem.electedLeader
    · subst hl
      exact .of_receive hr hballots (receive_propose rfl) (hballots _) (if_pos rfl) .start
    · exact .of_receive hr hballots (receive_forward hl) (hballots _) (if_neg (Ne.symm hl)) .forward
  | accept ballot slot v =>
    obtain ⟨rfl, -, -⟩ := hvalid
    exact .of_receive hr hballots (receive_accept (hballots receiver)) (hballots _)
      (ite_eq_right_iff.mpr fun hl => by rw [hl]) .accept
  | commit slot v leader =>
    have hlt : slot < (s.nodes mem.electedLeader).leader.nextEmptySlot := by
      rw [hinv.next]
      exact (List.getElem?_eq_some_iff.mp hvalid.2.2).1
    refine .of_receive hr hballots receive_commit (hballots _)
      (ite_eq_right_iff.mpr fun hl => ?_) (.commit hlt)
    -- the leader has used the slot before
    obtain rfl : mem.electedLeader = receiver := hl
    dsimp only
    rw [Leader.processCommitRequest, if_neg (not_le.mpr hlt)]
  | acceptResponse ballot slot =>
    obtain rfl : receiver = mem.electedLeader := hvalid.1
    cases hinst : (s.nodes mem.electedLeader).leader.instances.lookup slot with
    | none =>
      exact .of_receive hr hballots (receive_acceptResponse_none hinst) (hballots _) (if_pos rfl)
        (.forgotten hinst)
    | some inst =>
      exact .of_receive hr hballots (receive_acceptResponse_some hinst) (hballots _) (if_pos rfl)
        (.accepted hinst)
  | commitResponse slot =>
    obtain rfl : receiver = mem.electedLeader := hvalid
    exact .of_receive hr hballots receive_commitResponse (hballots _) (if_pos rfl) .answered

/-- **A delivery keeps the invariant.** -/
theorem RunInv.handle (h : RunInv mem strict { state := s, inFlight := env :: rest })
    (hcond : strict → env.message.isCommitResponse →
      ∀ inst ∈ (s.nodes env.receiver).leader.instances.lookup 0,
        inst.numCommits + 1 = mem.acceptors.length → mem.majority ≤ inst.numAccepts)
    (hr : PaxosRun.handle mem s env = some r) :
    RunInv mem strict { state := r.1, inFlight := rest ++ r.2 } := by
  obtain ⟨nodes, reports, hballots, hs, hd⟩ := h.delivers hr
  obtain ⟨-, chosen, h⟩ := h
  rw [hs]
  refine ⟨hballots, ?_⟩
  suffices hinv : ∃ chosen, Inv mem strict (nodes mem.electedLeader).leader
      { s with sent := s.sent ++ r.2, reports := s.reports ++ reports } (rest ++ r.2) chosen from
    hinv.imp fun _ hinv =>
      { hinv with instances := fun slot inst hi => { hinv.instances slot inst hi with } }
  obtain ⟨hvalid, -⟩ := forall_mem_cons.mp h.valid
  generalize (nodes mem.electedLeader).leader = l, r.2 = out at hd ⊢
  cases hd with
  | @start a v => exact ⟨chosen ++ [v], by simpa using h.start⟩
  | forward =>
    exact ⟨chosen, h.exchange [_] [] rfl (forall_mem_singleton.mpr trivial) (fun _ => rfl)
      (fun _ _ => rfl) (fun _ => rfl) (by simp [commitTo]) nofun⟩
  | @accept a m slot v =>
    obtain ⟨-, ha, hval⟩ := hvalid
    refine ⟨chosen, h.exchange [_] [] rfl (forall_mem_singleton.mpr
      ⟨ha, (List.getElem?_eq_some_iff.mp hval).1⟩) (fun slot' => ?_) (fun _ _ => rfl) (fun _ => rfl)
      (by simp [commitTo]) nofun⟩
    by_cases heq : slot = slot' <;> simp [acceptTo, acceptedBy, heq]
  | @commit a m leader slot v =>
    -- a report takes the place of a request
    obtain ⟨ha, hm, hval⟩ := hvalid
    refine ⟨chosen, h.exchange [_] [_] rfl (forall_mem_singleton.mpr ha) (fun _ => rfl)
      (fun _ _ => rfl) (fun slot' => ?_) (by simp [commitTo]) (forall_mem_singleton.mpr ⟨hm, hval⟩)⟩
    by_cases heq : slot = slot' <;> simp [commitTo, reportedBy, heq]
  | forgotten hinst =>
    refine ⟨chosen, h.exchange [] [] rfl nofun (fun _ => rfl) (fun slot' hmem => if_neg ?_)
      (fun _ => rfl) nofun nofun⟩
    rintro rfl
    exact not_mem_iff_lookup.mpr hinst hmem
  | accepted hinst => exact ⟨chosen, by simpa using h.acceptResponse_some hinst rfl⟩
  | answered => exact ⟨chosen, by simpa using h.commitResponse fun hs => hcond hs rfl⟩

theorem RunInv.step {s s' : PaxosRun} {e : PaxosEvent} (h : RunInv mem strict s)
    (hcond : strict → ForgetsDecided mem s e) (hstep : step mem s e = some s') :
    RunInv mem strict s' := by
  cases e with
  | propose m v =>
    obtain ⟨hballots, chosen, hinv⟩ := h
    rw [← Option.some.inj hstep]
    exact ⟨hballots, chosen, hinv.propose m v⟩
  | deliver i =>
    obtain ⟨env, rest, r, hi, hperm, hr, rfl⟩ := Network.deliver_eq_some hstep
    obtain ⟨hballots, chosen, hinv⟩ := h
    have h' : RunInv mem strict { state := s.state, inFlight := env :: rest } :=
      ⟨hballots, chosen, hinv.perm hperm⟩
    exact h'.handle (fun hs => hcond hs env hi) hr

theorem RunInv.init : RunInv mem strict init := ⟨fun _ => rfl, [], Inv.init⟩

/-! ## The log -/

namespace Inv

variable {l : Leader} {s : PaxosState} {fl : List PaxosEnvelope} {chosen : List ℕ}

/-- A slot is reported by different learners. -/
theorem reportedBy_nodup (h : Inv mem strict l s fl chosen) (slot : SlotId) :
    (s.reports.filterMap (reportedBy slot)).Nodup := by
  have hsub : (s.reports.filterMap (reportedBy slot)).Sublist
      (fl.filterMap (commitTo slot) ++ s.reports.filterMap (reportedBy slot)) :=
    sublist_append_right _ _
  by_cases hmem : slot ∈ l.instances
  · obtain ⟨inst, hinst⟩ := mem_iff_lookup.mp hmem
    refine hsub.nodup ((h.instances slot inst hinst).commits.nodup_iff.mpr ?_)
    split_ifs
    · exact mem.learners_nodup
    · exact nodup_nil
  · by_cases hlt : slot < chosen.length
    · obtain rfl : slot = 0 := by
        by_contra hne
        exact hmem (h.present slot hlt hne)
      rcases h.forgotten hlt hmem with hl | ⟨-, hnil⟩
      · exact hsub.nodup (hl.nodup_iff.mpr mem.learners_nodup)
      · exact hsub.nodup (hnil ▸ nodup_nil)
    · have hnil : s.reports.filterMap (reportedBy slot) = [] := by
        rw [filterMap_eq_nil_iff]
        rintro r hr
        refine if_neg ?_
        rintro rfl
        exact hlt (List.getElem?_eq_some_iff.mp (h.reports r hr).2).1
      rw [hnil]
      exact nodup_nil

/-- The acceptors that have accepted a slot are different. -/
theorem acceptedBy_subperm (h : Inv mem strict l s fl chosen) {slot : SlotId}
    (hslot : slot < chosen.length) :
    (s.sent.filterMap (acceptedBy slot)).Subperm mem.acceptors :=
  ((sublist_append_right _ _).subperm).trans (h.accepts slot hslot).subperm

theorem count_reports (rs : List PaxosReport) (m : MachineId) (slot : SlotId) :
    (rs.map fun r => (r.learner, r.slot)).count (m, slot) =
      (rs.filterMap (reportedBy slot)).count m := by
  induction rs with
  | nil => rfl
  | cons r rs ih =>
    rw [map_cons, count_cons, ih, filterMap_cons, reportedBy]
    by_cases hs : r.slot = slot
    · simp [hs, count_cons]
    · simp [hs]

/-- **The log is safe.** -/
theorem safe {s : PaxosRun} {chosen : List ℕ}
    (h : Inv mem strict (s.state.nodes mem.electedLeader).leader s.state s.inFlight chosen) :
    Safe mem s chosen where
  slots := h.next
  occupies := h.proposals
  agreement := h.reports
  once := by
    rw [nodup_iff_count_le_one]
    rintro ⟨m, slot⟩
    rw [count_reports]
    exact nodup_iff_count_le_one.mp (h.reportedBy_nodup slot) m
  majority := by
    intro env henv slot hc
    have hslot : slot < chosen.length := by
      by_contra hle
      rw [((h.validSent env henv).eq_none (not_lt.mp hle)).2.2] at hc
      cases hc
    have hsub := h.acceptedBy_subperm hslot
    have hnd : (s.state.sent.filterMap (acceptedBy slot)).Nodup :=
      ((h.accepts slot hslot).nodup_iff.mpr mem.acceptors_nodup).of_append_right
    have hle : (s.state.sent.filterMap (acceptedBy slot)).length ≤
        (mem.acceptors.filter fun a => a ∈ s.state.sent.filterMap (acceptedBy slot)).length :=
      (subperm_of_subset hnd fun a ha =>
        mem_filter.mpr ⟨hsub.subset ha, decide_eq_true ha⟩).length_le
    have hdec := h.decided env henv slot hc
    rw [Members.majority] at hdec
    omega

/-- When no message is in flight, every learner has reported every slot. -/
theorem reported (h : Inv mem True l s [] chosen) {slot : SlotId} (hslot : slot < chosen.length) :
    (s.reports.filterMap (reportedBy slot)).Perm mem.learners := by
  by_cases hmem : slot ∈ l.instances
  · obtain ⟨inst, hinst⟩ := mem_iff_lookup.mp hmem
    obtain ⟨-, hcount, hcom⟩ := h.instances slot inst hinst
    have hall := (h.accepts slot hslot).length_eq
    simp only [filterMap_nil, nil_append, length_nil, zero_add] at hcount hall hcom
    have hpos : 0 < mem.acceptors.length := length_pos_iff.mpr mem.acceptors_ne_nil
    rwa [if_pos (by rw [Members.majority]; omega)] at hcom
  · obtain rfl : slot = 0 := by
      by_contra hne
      exact hmem (h.present slot hslot hne)
    rcases h.forgotten hslot hmem with hl | ⟨hnot, -⟩
    · exact hl
    · exact absurd trivial hnot

/-- **The log is complete** when no message is in flight. -/
theorem complete (h : Inv mem True l s [] chosen)
    (hnd : (s.reports.map fun r => (r.learner, r.slot)).Nodup) {m : MachineId}
    (hm : m ∈ mem.learners) :
    ((s.reports.filter fun r => r.learner = m).map fun r => (r.value, r.slot)).Perm
      chosen.zipIdx := by
  rw [perm_ext_iff_of_nodup]
  · rintro ⟨v, slot⟩
    rw [mem_zipIdx_iff_getElem?, mem_map]
    constructor
    · rintro ⟨r, hr, heq⟩
      cases heq
      exact (h.reports r (mem_filter.mp hr).1).2
    · intro hval
      have hslot : slot < chosen.length := (List.getElem?_eq_some_iff.mp hval).1
      obtain ⟨r, hr, hby⟩ := mem_filterMap.mp ((h.reported hslot).mem_iff.mpr hm)
      rw [reportedBy] at hby
      split_ifs at hby with hs
      refine ⟨r, mem_filter.mpr ⟨hr, decide_eq_true (Option.some.inj hby)⟩, ?_⟩
      have hv : chosen[slot]? = some r.value := hs ▸ (h.reports r hr).2
      rw [Option.some.inj (hv.symm.trans hval), hs]
  · rw [nodup_iff_pairwise_ne, pairwise_map] at hnd ⊢
    refine (hnd.filter _).imp_of_mem fun {r r'} hr hr' hne heq => hne ?_
    rw [of_decide_eq_true (mem_filter.mp hr).2, of_decide_eq_true (mem_filter.mp hr').2,
      (Prod.mk.inj heq).2]
  · exact Nodup.of_map Prod.snd (by
      rw [zipIdx_map_snd]
      exact nodup_range')

end Inv

/-- **In every run the log is safe.** -/
theorem safe_of_run {events : List PaxosEvent} {s : PaxosRun}
    (hrun : Lts.run (step mem) init events = some s) : ∃ chosen, Safe mem s chosen := by
  have h : RunInv mem False s := Lts.invariant (step mem) RunInv.init
    (fun _ _ _ h hstep => h.step False.elim hstep) ⟨events, hrun⟩
  obtain ⟨-, chosen, hinv⟩ := h
  exact ⟨chosen, hinv.safe⟩

/-- **The log is safe and complete** in every run in which the leader forgets slot `0` only after
a majority has accepted it. -/
theorem correct_of_forgetsDecided {events : List PaxosEvent} {s : PaxosRun}
    (hmeets : Lts.Meets (step mem) (ForgetsDecided mem) init events)
    (hrun : Lts.run (step mem) init events = some s) : Correct mem s := by
  have h : RunInv mem True s := Lts.invariant_meets (step mem) RunInv.init
    (fun _ _ _ _ h he hstep => h.step (fun _ => he) hstep) hmeets hrun
  obtain ⟨-, chosen, hinv⟩ := h
  have hsafe := hinv.safe
  refine ⟨chosen, hsafe, fun hnil => ?_⟩
  rw [hnil] at hinv
  refine ⟨?_, fun m hm => hinv.complete hsafe.once hm⟩
  simpa using hinv.proposals

/-! ## Deliveries end -/

variable (mem) in
/-- How many deliveries a message can lead to. -/
def cost (env : PaxosEnvelope) : ℕ :=
  match env.message with
  | .commitResponse _ => 1
  | .commit _ _ _ => 2
  | .acceptResponse _ _ => 1 + 2 * mem.learners.length
  | .accept _ _ _ => 2 + 2 * mem.learners.length
  | .propose _ => (if env.receiver = mem.electedLeader then 1 else 2) +
      mem.acceptors.length * (2 + 2 * mem.learners.length)

theorem sum_cost_lt (s : PaxosState) (env : PaxosEnvelope) (r : PaxosState × List PaxosEnvelope)
    (hr : handle mem s env = some r) : (r.2.map (cost mem)).sum < cost mem env := by
  obtain ⟨sender, receiver, message⟩ := env
  have hr2 : r.2 = ((s.nodes receiver).receive mem receiver ⟨sender, receiver, message⟩).2.sent :=
    (congrArg Prod.snd (Option.some.inj hr)).symm
  rw [hr2]
  cases message with
  | propose v =>
    by_cases hl : receiver = mem.electedLeader
    · rw [receive_propose hl]
      simp [Leader.startNewInstance, cost, hl, Function.comp_def]
    · rw [receive_forward hl]
      simp [cost, hl]
  | accept ballot slot v =>
    simp only [SimulatedMultiPaxos.receive, SimulatedMultiPaxos.onInternalRequestReceived,
      Leader.handleRequest, Acceptor.handleRequest, Acceptor.processAcceptRequest]
    split_ifs <;> simp [cost]
  | commit slot v leader =>
    rw [receive_commit]
    simp [cost]
  | acceptResponse ballot slot =>
    cases hinst : (s.nodes receiver).leader.instances.lookup slot with
    | none =>
      rw [receive_acceptResponse_none hinst]
      simp [cost]
    | some inst =>
      rw [receive_acceptResponse_some hinst]
      dsimp only
      split_ifs
      · simp [cost, Function.comp_def, mul_comm]
      · simp [cost]
  | commitResponse slot =>
    rw [receive_commitResponse]
    simp [cost]

/-- **Deliveries end**, in whatever order the messages are delivered. -/
theorem length_deliveries_le {s s' : PaxosRun} {is : List ℕ}
    (hrun : Lts.run (Network.deliver (handle mem)) s is = some s') :
    is.length ≤ s.weight (cost mem) :=
  le_of_add_le_left (Network.length_add_weight_le sum_cost_lt hrun)

/-- Three machines, all of them acceptors and learners. -/
def threeMembers : Members where
  acceptors := [⟨0, 0, 0⟩, ⟨0, 0, 1⟩, ⟨0, 0, 2⟩]
  learners := [⟨0, 0, 0⟩, ⟨0, 0, 1⟩, ⟨0, 0, 2⟩]
  acceptors_ne_nil := by decide
  acceptors_nodup := by decide
  learners_nodup := by decide

def twoProposals : List PaxosEvent := [.propose ⟨0, 0, 1⟩ 10, .propose ⟨0, 0, 2⟩ 11]

/-- Messages are delivered in the order in which they were sent. -/
theorem correct_inOrder :
    ∃ s, Lts.run (step threeMembers) init (twoProposals ++ List.replicate 28 (.deliver 0)) =
        some s ∧ s.inFlight = [] ∧ s.state.reports.length = 6 ∧ Correct threeMembers s := by
  refine Lts.exists_run (p := fun s => s.inFlight = [] ∧ s.state.reports.length = 6)
    (by decide +kernel) ?_
  exact fun s hs h => ⟨h.1, h.2,
    correct_of_forgetsDecided (of_decide_eq_true (by decide +kernel)) hs⟩

theorem safe_inOrder :
    ∃ s, Lts.run (step threeMembers) init (twoProposals ++ List.replicate 28 (.deliver 0)) =
        some s ∧ s.state.reports.length = 6 ∧ ∃ chosen, Safe threeMembers s chosen :=
  Lts.exists_run (p := fun s => s.state.reports.length = 6) (by decide +kernel)
    fun _ hs h => ⟨h, safe_of_run hs⟩

theorem length_deliveries_inOrder :
    ∃ s s', Lts.run (step threeMembers) init twoProposals = some s ∧
      Lts.run (Network.deliver (handle threeMembers)) s (List.replicate 28 0) = some s' ∧
      (List.replicate 28 0).length ≤ s.weight (cost threeMembers) := by
  obtain ⟨s, hs, s', hs', -⟩ : ∃ s ∈ Lts.run (step threeMembers) init twoProposals,
      ∃ s' ∈ Lts.run (Network.deliver (handle threeMembers)) s (List.replicate 28 0), True := by
    decide +kernel
  exact ⟨s, s', hs, hs', length_deliveries_le hs'⟩

/-- **Slot `0` is forgotten and never reported.**  The messages about slot `1` overtake those
about slot `0`, and the answers of the learners for slot `1` make the leader forget slot `0`. -/
theorem not_correct_overtaken :
    ∃ s, Lts.run (step threeMembers) init (twoProposals ++ List.replicate 4 (.deliver 0) ++
        List.replicate 12 (.deliver 3) ++ List.replicate 6 (.deliver 0)) = some s ∧
      s.inFlight = [] ∧ s.state.proposed = [10, 11] ∧
      s.state.reports = [⟨⟨0, 0, 0⟩, 1, 11⟩, ⟨⟨0, 0, 1⟩, 1, 11⟩, ⟨⟨0, 0, 2⟩, 1, 11⟩] ∧
      ¬ Correct threeMembers s := by
  refine Lts.exists_run (p := fun s => s.inFlight = [] ∧ s.state.proposed = [10, 11] ∧
    s.state.reports = [⟨⟨0, 0, 0⟩, 1, 11⟩, ⟨⟨0, 0, 1⟩, 1, 11⟩, ⟨⟨0, 0, 2⟩, 1, 11⟩])
    (by decide +kernel) ?_
  rintro s - ⟨hnil, hprop, hrep⟩
  refine ⟨hnil, hprop, hrep, ?_⟩
  rintro ⟨chosen, -, hcomplete⟩
  obtain ⟨hperm, hall⟩ := hcomplete hnil
  -- one of two slots is missing
  have hlen := (hall ⟨0, 0, 0⟩ (by decide)).length_eq
  rw [hrep, length_zipIdx, hperm.length_eq, hprop] at hlen
  revert hlen
  decide

end PaxosRun

end Slog
