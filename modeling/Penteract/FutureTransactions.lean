/-
# Transactions of the future

With synchronized batching, a transaction waits at the sequencer until the clock reaches its
timestamp.  Two threads share the sorted map `future_txns_`: the sequencer puts transactions into
it, and the batcher takes those out that are ready.  The batcher wakes up by a timed callback, and
by a signal that the sequencer sends when the earliest timestamp changes.  Below, the two threads
take their steps in any order: a step is what a thread does between two accesses to the map, the
signals, the clock or the callbacks.
-/
import Penteract.Batcher
import Penteract.Lib.SortedMap

namespace Slog

open List Option

/-- The keys of `future_txns_`: timestamp and id. -/
abbrev Timestamp := ℤ ×ₗ TxnId

def Transaction.futureKey (t : Transaction) : Timestamp := toLex (t.internal.timestamp, t.id)

abbrev FutureTxns := SortedMap Timestamp Transaction

/-- `BufferFutureTxn`: whether the earliest time has changed.  A second transaction with the same
timestamp and id stops the program. -/
def FutureTxns.bufferFutureTxn (future : FutureTxns) (t : Transaction) :
    Option (FutureTxns × Bool) :=
  let earliestTxnChanged := match future.entries.head? with
    | none => true
    | some e => decide (t.internal.timestamp < (ofLex e.1).1)
  (future.emplace t.futureKey t).map fun future => (future, earliestTxnChanged)

/-- What is ready at time `now`. -/
def FutureTxns.isReady (now : ℤ) (k : Timestamp) : Bool := decide ((ofLex k).1 ≤ now)

/-! ## Timed callbacks -/

/-- When a callback is due (in nanoseconds of the steady clock), and its number. -/
abbrev Poller.Handle := ℤ ×ₗ ℕ

/-- The timed callbacks of `ProcessReadyFutureTxns`, with the timestamps that they are scheduled for.
The callbacks that send batches are in the model of the batches. -/
structure Poller where
  timedCallbacks : SortedMap Poller.Handle ℤ := {}
  timedCallbackCounter : ℕ := 0

namespace Poller

/-- The timeout is in microseconds. -/
def addTimedCallback (p : Poller) (steadyNow timeout timestamp : ℤ) : Poller × Handle :=
  let id : Handle := toLex (steadyNow + 1000 * timeout, p.timedCallbackCounter)
  ({ timedCallbacks := (p.timedCallbacks.emplace id timestamp).getD p.timedCallbacks,
     timedCallbackCounter := p.timedCallbackCounter + 1 }, id)

def removeTimedCallback (p : Poller) (id : Handle) : Poller :=
  { p with timedCallbacks := p.timedCallbacks.erase id }

/-- `NextEvent` runs a callback that is due.  It erases the callback afterwards, but nothing can
see it before. -/
def nextCallback (p : Poller) (steadyNow : ℤ) : Option Poller :=
  p.timedCallbacks.entries.head?.bind fun c =>
    if (ofLex c.1).1 ≤ steadyNow then some (p.removeTimedCallback c.1) else none

end Poller

/-- The delay until a timestamp, in microseconds. -/
def wakeUpDelay (timestamp now : ℤ) : ℤ := (timestamp - now).tdiv 1000 + 1

/-! ## The two threads -/

/-- Where the batcher is in `ProcessReadyFutureTxns`. -/
inductive BatcherThread where
  | outside
  | called
  | atTime (now : ℤ)
  | batching (now : ℤ) (readyTxns : List Transaction) (earliestTimestamp : Option ℤ)

/-- A transaction that was put into a batch: by which call, and at what time. -/
structure Batched where
  call : ℕ
  now : ℤ
  txn : Transaction

inductive FutureEvent where
  | forward (now : ℤ) (t : Transaction)
  | signal
  | receive
  | wakeUp (steadyNow : ℤ)
  | readClock (now : ℤ)
  | collect
  | batchTxn
  | schedule (steadyNow : ℤ)
  | send (delays : List Bool)
  | sendDelayed (i : ℕ)

/-- The sequencer and the batcher.  `signalNeeded` is set from the return of `BufferFutureTxn` until
the signal is sent; `buffered` and `batched` note what went into the map and into batches. -/
structure FutureRun where
  futureTxns : FutureTxns := {}
  signalNeeded : Bool := false
  signals : ℕ := 0
  thread : BatcherThread := .outside
  poller : Poller := {}
  processFutureTxnCallbackHandle : Option Poller.Handle := none
  batches : BatcherRun
  numCalls : ℕ := 0
  buffered : List Transaction := []
  batched : List Batched := []

namespace FutureRun

variable (cfg : Configuration) (sh : Sharder) (me : MachineId) (ddr : Bool)

def init : FutureRun := { batches := BatcherRun.init cfg me }

/-- Without the DDR lock manager, a transaction whose time has passed is restarted. -/
def arrive (now : ℤ) (t : Transaction) : Transaction :=
  if t.internal.timestamp ≤ now ∧ ddr = false then { t with status := .aborted } else t

/-- Add the transaction to the batch, in the current call. -/
def batch (s : FutureRun) (now : ℤ) (t : Transaction) (ready : List Transaction)
    (earliest : Option ℤ) (batches : BatcherRun) : FutureRun :=
  { s with
    thread := .batching now ready earliest,
    batches,
    batched := s.batched ++ [{ call := s.numCalls, now, txn := t }] }

def step (s : FutureRun) : FutureEvent → Option FutureRun
  | .forward now t =>
    if s.signalNeeded then none else
    let t := arrive ddr now t
    (s.futureTxns.bufferFutureTxn t).map fun r => { s with
      futureTxns := r.1, signalNeeded := r.2, buffered := s.buffered ++ [t] }
  | .signal =>
    if s.signalNeeded then some { s with signalNeeded := false, signals := s.signals + 1 } else none
  | .receive =>
    match s.thread, s.signals with
    | .outside, n + 1 => some { s with
        signals := n,
        thread := .called,
        poller := match s.processFutureTxnCallbackHandle with
          | some id => s.poller.removeTimedCallback id
          | none => s.poller }
    | _, _ => none
  | .wakeUp steadyNow =>
    match s.thread with
    | .outside =>
      (s.poller.nextCallback steadyNow).map fun p => { s with thread := .called, poller := p }
    | _ => none
  | .readClock now =>
    match s.thread with
    | .called => some { s with thread := .atTime now }
    | _ => none
  | .collect =>
    match s.thread with
    | .atTime now =>
      let rest := s.futureTxns.dropFront (FutureTxns.isReady now)
      some { s with
        futureTxns := rest,
        numCalls := s.numCalls + 1,
        thread := .batching now
          ((s.futureTxns.front (FutureTxns.isReady now)).map Prod.snd)
          (rest.entries.head?.map fun e => (ofLex e.1).1) }
    | _ => none
  | .batchTxn =>
    match s.thread with
    | .batching now (t :: ready) earliest =>
      (s.batches.step cfg sh me (.txn t)).map (s.batch now t ready earliest)
    | _ => none
  | .schedule steadyNow =>
    match s.thread with
    | .batching _ [] none =>
      some { s with thread := .outside, processFutureTxnCallbackHandle := none }
    | .batching now [] (some earliest) =>
      let r := s.poller.addTimedCallback steadyNow (wakeUpDelay earliest now) earliest
      some { s with
        thread := .outside, poller := r.1, processFutureTxnCallbackHandle := some r.2 }
    | _ => none
  | .send delays =>
    match s.thread with
    | .outside => (s.batches.step cfg sh me (.fire delays)).map fun b => { s with batches := b }
    | _ => none
  | .sendDelayed i =>
    match s.thread with
    | .outside => (s.batches.step cfg sh me (.callback i)).map fun b => { s with batches := b }
    | _ => none

/-- What the batcher has taken out of the map and not put into a batch. -/
def ready (s : FutureRun) : List Transaction :=
  match s.thread with
  | .batching _ ready _ => ready
  | _ => []

/-- Neither thread is inside. -/
def Outside (s : FutureRun) : Prop := s.signalNeeded = false ∧ s.thread = .outside

/-- A transaction arrives. -/
def isForward : FutureEvent → Bool
  | .forward _ _ => true
  | _ => false

/-- A look into the map at time `ts` or before is coming: the sequencer signals, a signal is in
flight, or the batcher is about to look or to schedule the callback, or has scheduled it. -/
def Coming (s : FutureRun) (ts : ℤ) : Prop :=
  s.signalNeeded = true ∨ 0 < s.signals ∨
    match s.thread with
    | .outside => ∃ c ∈ s.poller.timedCallbacks.entries, c.2 ≤ ts
    | .called => True
    | .atTime _ => True
    | .batching _ _ earliest => ∃ ts' ∈ earliest, ts' ≤ ts

/-- Without new transactions, a state that meets `P` can be reached. -/
def Leads (s : FutureRun) (P : FutureRun → Prop) : Prop :=
  ∃ es s', (∀ e ∈ es, isForward e = false) ∧
    Lts.run (step cfg sh me ddr) s es = some s' ∧ P s'

/-- **No transaction is forgotten.**  While a transaction waits and both threads are outside, a signal
is in flight or the callback is scheduled for the earliest timestamp or before; there is only one.
A transaction is in the map, or among those that the batcher puts into the batch, or it is in
the batch, once; it got there not before its timestamp, and one call batches in the order of
timestamp and id.  If no more transactions arrive, those that wait can get into a batch. -/
structure Remembers (s : FutureRun) : Prop where
  wakeUp : s.Outside → s.futureTxns.entries ≠ [] → 0 < s.signals ∨
    ∃ c ∈ s.poller.timedCallbacks.entries, ∀ e ∈ s.futureTxns.entries,
      c.2 ≤ e.2.internal.timestamp
  onePending : s.poller.timedCallbacks.entries.length ≤ 1
  once : s.buffered.Perm
    (s.batches.batched.map Prod.fst ++ (s.ready ++ s.futureTxns.entries.map Prod.snd))
  batched : s.batches.batched.map Prod.fst = s.batched.map Batched.txn
  notBefore : ∀ b ∈ s.batched, b.txn.internal.timestamp ≤ b.now
  inOrder : s.batched.Pairwise fun a b => a.call = b.call → a.txn.futureKey < b.txn.futureKey
  progress : ∀ t ∈ s.futureTxns.entries.map Prod.snd,
    s.Leads cfg sh me ddr fun s' => t ∈ s'.batched.map Batched.txn

/-! ## One step -/

/-- Everything that a step can do. -/
inductive Moves (s : FutureRun) : FutureRun → Prop
  | forward {t : Transaction} {future : FutureTxns} {changed : Bool}
      (hsignal : s.signalNeeded = false)
      (hbuffer : s.futureTxns.bufferFutureTxn t = some (future, changed)) :
      Moves s { s with
        futureTxns := future, signalNeeded := changed, buffered := s.buffered ++ [t] }
  | signal (hsignal : s.signalNeeded = true) :
      Moves s { s with signalNeeded := false, signals := s.signals + 1 }
  | receive {n : ℕ} (hthread : s.thread = .outside) (hn : s.signals = n + 1) :
      Moves s { s with
        signals := n,
        thread := .called,
        poller := match s.processFutureTxnCallbackHandle with
          | some id => s.poller.removeTimedCallback id
          | none => s.poller }
  | wakeUp {c : Poller.Handle × ℤ} (hthread : s.thread = .outside)
      (hc : s.poller.timedCallbacks.entries.head? = some c) :
      Moves s { s with thread := .called, poller := s.poller.removeTimedCallback c.1 }
  | readClock {now : ℤ} (hthread : s.thread = .called) : Moves s { s with thread := .atTime now }
  | collect {now : ℤ} (hthread : s.thread = .atTime now) :
      Moves s { s with
        futureTxns := s.futureTxns.dropFront (FutureTxns.isReady now),
        numCalls := s.numCalls + 1,
        thread := .batching now
          ((s.futureTxns.front (FutureTxns.isReady now)).map Prod.snd)
          ((s.futureTxns.dropFront (FutureTxns.isReady now)).entries.head?.map
            fun e => (ofLex e.1).1) }
  | batchTxn {now : ℤ} {t : Transaction} {ready : List Transaction} {earliest : Option ℤ}
      {b : BatcherRun} (hthread : s.thread = .batching now (t :: ready) earliest)
      (hb : b.batched.map Prod.fst = s.batches.batched.map Prod.fst ++ [t]) :
      Moves s (s.batch now t ready earliest b)
  | scheduleNone {now : ℤ} (hthread : s.thread = .batching now [] none) :
      Moves s { s with thread := .outside, processFutureTxnCallbackHandle := none }
  | schedule {now steadyNow delay earliest : ℤ}
      (hthread : s.thread = .batching now [] (some earliest)) :
      Moves s { s with
        thread := .outside,
        poller := (s.poller.addTimedCallback steadyNow delay earliest).1,
        processFutureTxnCallbackHandle :=
          some (s.poller.addTimedCallback steadyNow delay earliest).2 }
  | send {b : BatcherRun} (hb : b.batched = s.batches.batched) : Moves s { s with batches := b }

variable {cfg sh me ddr} {s s' : FutureRun}

variable {e : FutureEvent} {p : Poller} {future future' : FutureTxns} {t : Transaction}
  {changed : Bool} {now : ℤ} {earliest : Option ℤ}

theorem moves_of_step (h : s.step cfg sh me ddr e = some s') : Moves s s' := by
  cases e with
  | forward now t =>
    simp only [step] at h
    split_ifs at h with hsignal
    obtain ⟨⟨future, changed⟩, hbuffer, rfl⟩ := map_eq_some_iff.mp h
    exact .forward (Bool.not_eq_true _ ▸ hsignal) hbuffer
  | signal =>
    simp only [step] at h
    split_ifs at h with hsignal
    exact Option.some.inj h ▸ .signal hsignal
  | receive =>
    simp only [step] at h
    split at h
    · exact Option.some.inj h ▸ .receive ‹_› ‹_›
    · cases h
  | wakeUp steadyNow =>
    simp only [step] at h
    split at h
    · obtain ⟨p, hp, rfl⟩ := map_eq_some_iff.mp h
      obtain ⟨c, hc, hdue⟩ := bind_eq_some_iff.mp hp
      split_ifs at hdue
      exact Option.some.inj hdue ▸ .wakeUp ‹_› hc
    · cases h
  | readClock now =>
    simp only [step] at h
    split at h
    · exact Option.some.inj h ▸ .readClock ‹_›
    · cases h
  | collect =>
    simp only [step] at h
    split at h
    · exact Option.some.inj h ▸ .collect ‹_›
    · cases h
  | batchTxn =>
    simp only [step] at h
    split at h
    · obtain ⟨b, hb, rfl⟩ := map_eq_some_iff.mp h
      refine .batchTxn ‹_› ?_
      cases hb
      simp
    · cases h
  | schedule steadyNow =>
    simp only [step] at h
    split at h
    · exact Option.some.inj h ▸ .scheduleNone ‹_›
    · exact Option.some.inj h ▸ .schedule ‹_›
    · cases h
  | send delays =>
    simp only [step] at h
    split at h
    · obtain ⟨b, hb, rfl⟩ := map_eq_some_iff.mp h
      refine .send ?_
      simp only [BatcherRun.step] at hb
      split_ifs at hb
      exact Option.some.inj hb ▸ rfl
    · cases h
  | sendDelayed i =>
    simp only [step] at h
    split at h
    · obtain ⟨b, hb, rfl⟩ := map_eq_some_iff.mp h
      refine .send ?_
      obtain ⟨message, -, rfl⟩ := map_eq_some_iff.mp hb
      rfl
    · cases h

/-! ## The callback -/

/-- The callback is the one that the handle names, and while the batcher is inside there is none. -/
structure PendingInv (s : FutureRun) : Prop where
  outside : s.thread = .outside →
    s.poller.timedCallbacks.entries.map Prod.fst = s.processFutureTxnCallbackHandle.toList
  inside : s.thread ≠ .outside → s.poller.timedCallbacks.entries = []

theorem removeTimedCallback_of_map_eq {id : Poller.Handle}
    (h : p.timedCallbacks.entries.map Prod.fst = [id]) :
    (p.removeTimedCallback id).timedCallbacks.entries = [] := by
  refine filter_eq_nil_iff.mpr fun c hc => ?_
  have hmem : c.1 ∈ p.timedCallbacks.entries.map Prod.fst := mem_map_of_mem hc
  rw [h, mem_singleton] at hmem
  simp [hmem]

theorem addTimedCallback_of_nil (h : p.timedCallbacks.entries = []) (steadyNow timeout timestamp : ℤ) :
    (p.addTimedCallback steadyNow timeout timestamp).1.timedCallbacks.entries =
      [((p.addTimedCallback steadyNow timeout timestamp).2, timestamp)] := by
  simp [Poller.addTimedCallback, SortedMap.emplace, SortedMap.insertEntry, h]

theorem PendingInv.moves (h : PendingInv s) (hs : Moves s s') : PendingInv s' := by
  cases hs with
  | forward | signal | send => exact ⟨h.outside, h.inside⟩
  | receive hthread =>
    refine ⟨nofun, fun _ => ?_⟩
    have hpending := h.outside hthread
    cases hhandle : s.processFutureTxnCallbackHandle with
    | none =>
      rw [hhandle] at hpending
      exact map_eq_nil_iff.mp hpending
    | some id =>
      rw [hhandle] at hpending
      exact removeTimedCallback_of_map_eq hpending
  | wakeUp hthread hc =>
    refine ⟨nofun, fun _ => removeTimedCallback_of_map_eq ?_⟩
    have hpending := h.outside hthread
    obtain ⟨cs, hcs⟩ := List.head?_eq_some_iff.mp hc
    rw [hcs] at hpending ⊢
    cases hhandle : s.processFutureTxnCallbackHandle with
    | none => simp [hhandle] at hpending
    | some id =>
      simp only [hhandle, map_cons, toList_some, List.cons.injEq] at hpending
      simp [hpending.2]
  | readClock hthread | collect hthread | batchTxn hthread =>
    exact ⟨nofun, fun _ => h.inside (by rw [hthread]; nofun)⟩
  | scheduleNone hthread =>
    refine ⟨fun _ => ?_, absurd rfl⟩
    simp [h.inside (by rw [hthread]; nofun)]
  | schedule hthread =>
    refine ⟨fun _ => ?_, absurd rfl⟩
    have hnil := h.inside (by rw [hthread]; nofun)
    simp [addTimedCallback_of_nil hnil]

/-! ## The wake-up -/

/-- For everything in the map a look is coming. -/
structure WakeUpInv (s : FutureRun) : Prop where
  keyed : ∀ e ∈ s.futureTxns.entries, e.1 = e.2.futureKey
  coming : ∀ e ∈ s.futureTxns.entries, s.Coming e.2.internal.timestamp

theorem Coming.mono {ts ts' : ℤ} (hle : ts ≤ ts') (h : s.Coming ts) : s.Coming ts' := by
  rcases h with h | h | h
  · exact .inl h
  · exact .inr (.inl h)
  · refine .inr (.inr ?_)
    split at h
    · obtain ⟨c, hc, hcle⟩ := h
      exact ⟨c, hc, hcle.trans hle⟩
    · trivial
    · trivial
    · obtain ⟨ts₀, hts₀, hle₀⟩ := h
      exact ⟨ts₀, hts₀, hle₀.trans hle⟩

theorem bufferFutureTxn_perm (h : future.bufferFutureTxn t = some (future', changed)) :
    future'.entries.Perm ((t.futureKey, t) :: future.entries) := by
  obtain ⟨m, hm, heq⟩ := map_eq_some_iff.mp h
  obtain rfl := (Prod.mk.inj heq).1
  exact SortedMap.perm_of_emplace hm

/-- If the earliest time does not change, it is not later than the new one. -/
theorem exists_earlier_of_unchanged (h : future.bufferFutureTxn t = some (future', false)) :
    ∃ e ∈ future.entries, (ofLex e.1).1 ≤ t.internal.timestamp := by
  obtain ⟨m, -, heq⟩ := map_eq_some_iff.mp h
  have hchanged := (Prod.mk.inj heq).2
  split at hchanged
  · cases hchanged
  · next e he => exact ⟨e, mem_of_head? he, not_lt.mp (of_decide_eq_false hchanged)⟩

theorem WakeUpInv.forward (h : WakeUpInv s) (hsignal : s.signalNeeded = false)
    (hbuffer : s.futureTxns.bufferFutureTxn t = some (future, changed)) :
    WakeUpInv { s with
      futureTxns := future, signalNeeded := changed, buffered := s.buffered ++ [t] } := by
  have hmem : ∀ e ∈ future.entries, e = (t.futureKey, t) ∨ e ∈ s.futureTxns.entries :=
    fun e he => mem_cons.mp ((bufferFutureTxn_perm hbuffer).mem_iff.mp he)
  refine ⟨fun e he => ?_, fun e he => ?_⟩
  · rcases hmem e he with rfl | he
    · rfl
    · exact h.keyed e he
  · cases changed with
    | true => exact .inl rfl
    | false =>
      -- the flag was not set before either
      have hold : ∀ ts, s.Coming ts → Coming { s with
          futureTxns := future, signalNeeded := false, buffered := s.buffered ++ [t] } ts :=
        fun ts hts => .inr (hts.resolve_left (by simp [hsignal]))
      rcases hmem e he with rfl | he
      · obtain ⟨e₀, he₀, hle⟩ := exists_earlier_of_unchanged hbuffer
        rw [h.keyed e₀ he₀] at hle
        exact (hold _ (h.coming e₀ he₀)).mono hle
      · exact hold _ (h.coming e he)

theorem WakeUpInv.moves (h : WakeUpInv s) (hp : PendingInv s) (hs : Moves s s') : WakeUpInv s' := by
  cases hs with
  | forward hsignal hbuffer => exact h.forward hsignal hbuffer
  | signal => exact ⟨h.keyed, fun _ _ => .inr (.inl (Nat.succ_pos _))⟩
  | receive | wakeUp | readClock => exact ⟨h.keyed, fun _ _ => .inr (.inr trivial)⟩
  | @collect now hthread =>
    have hmem : ∀ e ∈ (s.futureTxns.dropFront (FutureTxns.isReady now)).entries,
        e ∈ s.futureTxns.entries := fun e he => (dropWhile_sublist _).subset he
    refine ⟨fun e he => h.keyed e (hmem e he), fun e he => .inr (.inr ?_)⟩
    -- the first entry that stays is not later than the others
    obtain ⟨e₀, he₀⟩ := ne_none_iff_exists'.mp
      fun hnone => ne_nil_of_mem he (List.head?_eq_none_iff.mp hnone)
    refine ⟨(ofLex e₀.1).1, by simp [he₀], ?_⟩
    have hle := SortedMap.head_le he₀ he
    rw [h.keyed e (hmem e he)] at hle
    exact (Prod.Lex.le_iff'.mp hle).1
  | batchTxn hthread =>
    refine ⟨h.keyed, fun e he => (h.coming e he).imp_right (Or.imp_right fun hlook => ?_)⟩
    rw [hthread] at hlook
    exact hlook
  | scheduleNone hthread =>
    refine ⟨h.keyed, fun e he => (h.coming e he).imp_right (Or.imp_right fun hlook => ?_)⟩
    rw [hthread] at hlook
    obtain ⟨ts, hts, -⟩ := hlook
    cases hts
  | schedule hthread =>
    refine ⟨h.keyed, fun e he => (h.coming e he).imp_right (Or.imp_right fun hlook => ?_)⟩
    rw [hthread] at hlook
    obtain ⟨ts, hts, hle⟩ := hlook
    cases hts
    have hnil := hp.inside (by rw [hthread]; nofun)
    exact ⟨_, by rw [addTimedCallback_of_nil hnil]; exact mem_singleton_self _, hle⟩
  | send => exact ⟨h.keyed, h.coming⟩

/-! ## What is batched -/

/-- Nothing is lost or batched twice, and what is ready is batched in order. -/
structure BatchInv (s : FutureRun) : Prop where
  once : s.buffered.Perm
    (s.batched.map Batched.txn ++ (s.ready ++ s.futureTxns.entries.map Prod.snd))
  batched : s.batches.batched.map Prod.fst = s.batched.map Batched.txn
  notBefore : ∀ b ∈ s.batched, b.txn.internal.timestamp ≤ b.now
  inOrder : s.batched.Pairwise fun a b => a.call = b.call → a.txn.futureKey < b.txn.futureKey
  calls : ∀ b ∈ s.batched, b.call ≤ s.numCalls
  readyTime : ∀ now ready earliest, s.thread = .batching now ready earliest →
    ∀ t ∈ ready, t.internal.timestamp ≤ now
  readyOrder : s.ready.Pairwise fun a b => a.futureKey < b.futureKey
  current : ∀ b ∈ s.batched, b.call = s.numCalls → ∀ t ∈ s.ready, b.txn.futureKey < t.futureKey

theorem ready_eq_nil (h : ∀ now ready earliest, s.thread ≠ .batching now ready earliest) :
    s.ready = [] := by
  rw [ready]
  split
  · exact absurd ‹_› (h _ _ _)
  · rfl

/-- A step that keeps what is in the map and what is batched. -/
theorem BatchInv.same (h : BatchInv s) (hready : s'.ready = s.ready)
    (hthread : ∀ now ready earliest, s'.thread = .batching now ready earliest →
      s.thread = .batching now ready earliest)
    (hbuffered : s'.buffered = s.buffered) (hfuture : s'.futureTxns = s.futureTxns)
    (hbatches : s'.batches.batched = s.batches.batched) (hbatched : s'.batched = s.batched)
    (hcalls : s'.numCalls = s.numCalls) : BatchInv s' where
  once := by rw [hbuffered, hbatched, hready, hfuture]; exact h.once
  batched := by rw [hbatches, hbatched]; exact h.batched
  notBefore := by rw [hbatched]; exact h.notBefore
  inOrder := by rw [hbatched]; exact h.inOrder
  calls := by rw [hbatched, hcalls]; exact h.calls
  readyTime now ready earliest hs' := h.readyTime now ready earliest (hthread now ready earliest hs')
  readyOrder := by rw [hready]; exact h.readyOrder
  current := by rw [hbatched, hcalls, hready]; exact h.current

theorem BatchInv.collect (h : BatchInv s) (hkeyed : ∀ e ∈ s.futureTxns.entries, e.1 = e.2.futureKey)
    (hthread : s.thread = .atTime now) :
    BatchInv { s with
      futureTxns := s.futureTxns.dropFront (FutureTxns.isReady now),
      numCalls := s.numCalls + 1,
      thread := .batching now
        ((s.futureTxns.front (FutureTxns.isReady now)).map Prod.snd) earliest } := by
  have hfront : ∀ e ∈ s.futureTxns.front (FutureTxns.isReady now), e ∈ s.futureTxns.entries :=
    fun e he => (takeWhile_sublist _).subset he
  refine ⟨?_, h.batched, h.notBefore, h.inOrder, fun b hb => (h.calls b hb).trans (Nat.le_succ _),
    ?_, ?_, fun b hb hcall => ?_⟩
  · have honce := h.once
    rw [ready_eq_nil (by simp [hthread]), nil_append,
      ← SortedMap.front_append_dropFront s.futureTxns (FutureTxns.isReady now),
      map_append] at honce
    exact honce
  · rintro _ _ _ ⟨⟩ t ht
    obtain ⟨e, he, rfl⟩ := mem_map.mp ht
    have hready : FutureTxns.isReady now e.1 = true := SortedMap.of_mem_front he
    rw [hkeyed e (hfront e he)] at hready
    exact of_decide_eq_true hready
  · refine pairwise_map.mpr ?_
    refine (s.futureTxns.sorted.sublist (takeWhile_sublist _)).imp_of_mem ?_
    intro a b ha hb hlt
    rwa [hkeyed a (hfront a ha), hkeyed b (hfront b hb)] at hlt
  · exact absurd (hcall ▸ h.calls b hb) (Nat.not_succ_le_self _)

theorem BatchInv.batchTxn (h : BatchInv s) {ts : List Transaction} {b : BatcherRun}
    (hthread : s.thread = .batching now (t :: ts) earliest)
    (hb : b.batched.map Prod.fst = s.batches.batched.map Prod.fst ++ [t]) :
    BatchInv (s.batch now t ts earliest b) := by
  have hready : s.ready = t :: ts := by rw [ready, hthread]
  have hcurrent := h.current
  have horder := h.readyOrder
  rw [hready] at hcurrent horder
  obtain ⟨hfirst, hrest⟩ := pairwise_cons.mp horder
  refine ⟨?_, ?_, fun a ha => ?_, ?_, fun a ha => ?_, ?_, hrest, fun a ha hcall u hu => ?_⟩
  · have honce := h.once
    rw [hready] at honce
    simpa [batch, ready] using honce
  · simp [batch, hb, h.batched]
  · rcases mem_append.mp ha with ha | ha
    · exact h.notBefore a ha
    · rw [mem_singleton.mp ha]
      exact h.readyTime now _ _ hthread t mem_cons_self
  · refine pairwise_append.mpr ⟨h.inOrder, pairwise_singleton _ _, fun a ha c hc => ?_⟩
    rw [mem_singleton.mp hc]
    exact fun hcall => hcurrent a ha hcall t mem_cons_self
  · rcases mem_append.mp ha with ha | ha
    · exact h.calls a ha
    · rw [mem_singleton.mp ha]
      exact le_rfl
  · rintro _ _ _ ⟨⟩ u hu
    exact h.readyTime now _ _ hthread u (mem_cons_of_mem t hu)
  · rcases mem_append.mp ha with ha | ha
    · exact hcurrent a ha hcall u (mem_cons_of_mem t hu)
    · rw [mem_singleton.mp ha]
      exact hfirst u hu

theorem BatchInv.moves (h : BatchInv s) (hw : WakeUpInv s) (hs : Moves s s') : BatchInv s' := by
  cases hs with
  | @forward t _ _ _ hbuffer =>
    refine ⟨?_, h.batched, h.notBefore, h.inOrder, h.calls, h.readyTime, h.readyOrder, h.current⟩
    have hperm := (bufferFutureTxn_perm hbuffer).map Prod.snd
    have honce := h.once.append_right [t]
    refine honce.trans ?_
    rw [append_assoc, append_assoc]
    refine .append_left _ (.append_left _ (perm_append_comm.trans hperm.symm))
  | signal => exact h.same rfl (fun _ _ _ => id) rfl rfl rfl rfl rfl
  | receive hthread | wakeUp hthread | readClock hthread =>
    exact h.same (ready_eq_nil (by simp [hthread])).symm nofun rfl rfl rfl rfl rfl
  | collect hthread => exact h.collect hw.keyed hthread
  | batchTxn hthread hb => exact h.batchTxn hthread hb
  | scheduleNone hthread | schedule hthread =>
    exact h.same (by simp [ready, hthread]) nofun rfl rfl rfl rfl rfl
  | send hb => exact h.same rfl (fun _ _ _ => id) rfl rfl hb rfl rfl

/-! ## Runs -/

structure Inv (s : FutureRun) : Prop where
  pending : PendingInv s
  wakeUp : WakeUpInv s
  batch : BatchInv s

theorem Inv.init : Inv (init cfg me) where
  pending := ⟨fun _ => rfl, fun _ => rfl⟩
  wakeUp := ⟨nofun, nofun⟩
  batch := ⟨.nil, rfl, nofun, .nil, nofun, nofun, .nil, nofun⟩

theorem Inv.step (h : Inv s) (hs : s.step cfg sh me ddr e = some s') : Inv s' where
  pending := h.pending.moves (moves_of_step hs)
  wakeUp := h.wakeUp.moves h.pending (moves_of_step hs)
  batch := h.batch.moves h.wakeUp (moves_of_step hs)

/-- Outside, either a signal is in flight or the callback is not later than the earliest timestamp. -/
theorem Inv.signal_or_callback (h : Inv s) (hout : s.Outside) (hne : s.futureTxns.entries ≠ []) :
    0 < s.signals ∨ ∃ c ∈ s.poller.timedCallbacks.entries, ∀ e ∈ s.futureTxns.entries,
      c.2 ≤ e.2.internal.timestamp := by
  obtain ⟨e₀, he₀⟩ := ne_none_iff_exists'.mp fun hnone => hne (List.head?_eq_none_iff.mp hnone)
  have hmem := mem_of_head? he₀
  have hcoming := (h.wakeUp.coming e₀ hmem).resolve_left (by simp [hout.1])
  rw [hout.2] at hcoming
  refine hcoming.imp_right fun ⟨c, hc, hle⟩ => ⟨c, hc, fun e he => hle.trans ?_⟩
  have hfirst := SortedMap.head_le he₀ he
  rw [h.wakeUp.keyed e₀ hmem, h.wakeUp.keyed e he] at hfirst
  exact (Prod.Lex.le_iff'.mp hfirst).1

theorem Inv.length_pending (h : Inv s) : s.poller.timedCallbacks.entries.length ≤ 1 := by
  by_cases hout : s.thread = .outside
  · rw [← length_map Prod.fst, h.pending.outside hout]
    cases s.processFutureTxnCallbackHandle <;> simp
  · simp [h.pending.inside hout]

/-! ## Progress -/

section Progress

variable {P : FutureRun → Prop}

theorem Leads.here (h : P s) : s.Leads cfg sh me ddr P := ⟨[], s, nofun, rfl, h⟩

theorem Leads.step {e : FutureEvent} (he : isForward e = false)
    (hs : s.step cfg sh me ddr e = some s') (h : s'.Leads cfg sh me ddr P) :
    s.Leads cfg sh me ddr P := by
  obtain ⟨es, s'', hes, hrun, hP⟩ := h
  refine ⟨e :: es, s'', fun e' he' => ?_, by rw [Lts.run_cons, hs]; exact hrun, hP⟩
  rcases mem_cons.mp he' with rfl | he'
  · exact he
  · exact hes e' he'

variable {t : Transaction} {now : ℤ} {ready : List Transaction} {earliest : Option ℤ}

/-- The loop over the transactions that are ready, and what comes after it. -/
theorem Leads.batching (hthread : s.thread = .batching now ready earliest) (hI : Inv s)
    (h : ∀ s', Inv s' → s'.thread = .batching now [] earliest → s'.futureTxns = s.futureTxns →
      (∀ u ∈ s.batched.map Batched.txn ++ ready, u ∈ s'.batched.map Batched.txn) →
      s'.Leads cfg sh me ddr P) : s.Leads cfg sh me ddr P := by
  induction ready generalizing s with
  | nil => exact h s hI hthread rfl (by simp)
  | cons u ready ih =>
    have hstep : s.step cfg sh me ddr .batchTxn =
        (s.batches.step cfg sh me (.txn u)).map (s.batch now u ready earliest) := by
      simp only [FutureRun.step, hthread]
    refine .step rfl hstep (ih rfl (hI.step hstep) fun s' hI' hthread' hfuture hbatched => ?_)
    exact h s' hI' hthread' hfuture (by simpa [batch] using hbatched)

variable (cfg sh me ddr) in
theorem exists_collect (hthread : s.thread = .atTime now) : ∃ s' earliest,
    s.step cfg sh me ddr .collect = some s' ∧
      s'.thread = .batching now ((s.futureTxns.front (FutureTxns.isReady now)).map Prod.snd)
        earliest ∧ s'.futureTxns = s.futureTxns.dropFront (FutureTxns.isReady now) := by
  simp only [FutureRun.step, hthread]
  exact ⟨_, _, rfl, rfl, rfl⟩

theorem Leads.called (hthread : s.thread = .called) (hI : Inv s)
    (ht : t ∈ s.futureTxns.entries.map Prod.snd) :
    s.Leads cfg sh me ddr fun s' => t ∈ s'.batched.map Batched.txn := by
  obtain ⟨e, he, rfl⟩ := mem_map.mp ht
  have hclock : s.step cfg sh me ddr (.readClock e.2.internal.timestamp) =
      some { s with thread := .atTime e.2.internal.timestamp } := by
    simp only [FutureRun.step, hthread]
  refine .step rfl hclock ?_
  obtain ⟨s', earliest, hs', hthread', -⟩ :=
    exists_collect cfg sh me ddr
      (rfl : ({ s with thread := .atTime e.2.internal.timestamp } : FutureRun).thread = _)
  refine .step rfl hs' (.batching hthread' ((hI.step hclock).step hs') fun s'' _ _ _ hbatched => ?_)
  refine .here (hbatched e.2 (mem_append_right _ (mem_map_of_mem ?_)))
  -- the clock shows its timestamp
  refine SortedMap.mem_front (fun k k' hle hk' => ?_) he ?_
  · exact decide_eq_true ((Prod.Lex.le_iff'.mp hle).1.trans (of_decide_eq_true hk'))
  · rw [hI.wakeUp.keyed e he]
    exact decide_eq_true le_rfl

theorem Leads.outside (hthread : s.thread = .outside) (hI : Inv s)
    (ht : t ∈ s.futureTxns.entries.map Prod.snd) :
    s.Leads cfg sh me ddr fun s' => t ∈ s'.batched.map Batched.txn := by
  -- a signal in flight calls the batcher
  have hsignals : ∀ s : FutureRun, s.thread = .outside → Inv s →
      t ∈ s.futureTxns.entries.map Prod.snd → 0 < s.signals →
      s.Leads cfg sh me ddr fun s' => t ∈ s'.batched.map Batched.txn := by
    intro s hthread hI ht hpos
    obtain ⟨n, hn⟩ := Nat.exists_eq_succ_of_ne_zero hpos.ne'
    have hstep : ∃ s', s.step cfg sh me ddr .receive = some s' ∧ s'.thread = .called ∧
        s'.futureTxns = s.futureTxns := by
      simp only [FutureRun.step, hthread, hn]
      exact ⟨_, rfl, rfl, rfl⟩
    obtain ⟨s', hs', hcalled, hfuture⟩ := hstep
    exact .step rfl hs' (.called hcalled (hI.step hs') (hfuture ▸ ht))
  by_cases hneeded : s.signalNeeded = true
  · have hstep : s.step cfg sh me ddr .signal =
        some { s with signalNeeded := false, signals := s.signals + 1 } := by
      simp only [FutureRun.step, hneeded, if_true]
    exact .step rfl hstep (hsignals _ hthread (hI.step hstep) ht (Nat.succ_pos _))
  · have hne : s.futureTxns.entries ≠ [] := by
      rintro hnil
      simp [hnil] at ht
    rcases hI.signal_or_callback ⟨Bool.not_eq_true _ ▸ hneeded, hthread⟩ hne with hpos | ⟨c, hc, -⟩
    · exact hsignals s hthread hI ht hpos
    · -- the callback is the only one, so it is the next one
      have hhead : s.poller.timedCallbacks.entries.head? = some c := by
        obtain ⟨c', hc'⟩ := length_eq_one_iff.mp
          (le_antisymm hI.length_pending (length_pos_of_mem hc))
        rw [hc', mem_singleton] at hc
        rw [hc', hc]
        rfl
      have hstep : s.step cfg sh me ddr (.wakeUp (ofLex c.1).1) = some { s with
          thread := .called, poller := s.poller.removeTimedCallback c.1 } := by
        simp [FutureRun.step, hthread, Poller.nextCallback, hhead]
      exact .step rfl hstep (.called rfl (hI.step hstep) ht)

theorem Leads.batching_rest (hthread : s.thread = .batching now ready earliest) (hI : Inv s)
    (ht : t ∈ ready ++ s.futureTxns.entries.map Prod.snd) :
    s.Leads cfg sh me ddr fun s' => t ∈ s'.batched.map Batched.txn := by
  refine .batching hthread hI fun s' hI' hthread' hfuture hbatched => ?_
  rcases mem_append.mp ht with ht | ht
  · exact .here (hbatched t (mem_append_right _ ht))
  · have hstep : ∃ s'', s'.step cfg sh me ddr (.schedule 0) = some s'' ∧ s''.thread = .outside ∧
        s''.futureTxns = s'.futureTxns := by
      cases earliest with
      | none =>
        simp only [FutureRun.step, hthread']
        exact ⟨_, rfl, rfl, rfl⟩
      | some ts =>
        simp only [FutureRun.step, hthread']
        exact ⟨_, rfl, rfl, rfl⟩
    obtain ⟨s'', hs'', hout, hfuture'⟩ := hstep
    exact .step rfl hs'' (.outside hout (hI'.step hs'') (by rwa [hfuture', hfuture]))

/-- **What waits gets into a batch**, from every state. -/
theorem Inv.leads (hI : Inv s) (ht : t ∈ s.futureTxns.entries.map Prod.snd) :
    s.Leads cfg sh me ddr fun s' => t ∈ s'.batched.map Batched.txn := by
  cases hthread : s.thread with
  | outside => exact .outside hthread hI ht
  | called => exact .called hthread hI ht
  | batching now ready earliest => exact .batching_rest hthread hI (mem_append_right _ ht)
  | atTime now =>
    obtain ⟨s', earliest, hs', hthread', hfuture⟩ := exists_collect cfg sh me ddr hthread
    refine .step rfl hs' (.batching_rest hthread' (hI.step hs') ?_)
    rwa [hfuture, ← map_append, SortedMap.front_append_dropFront]

end Progress

/-- The second transaction has the earlier timestamp, and it arrives when the callback is already
scheduled for the first one. -/
def earlierArrives : List FutureEvent :=
  [.forward 0 { internal := { id := 1, timestamp := 9 }, keys := [] }, .signal, .receive,
    .readClock 3, .collect, .schedule 3,
    .forward 4 { internal := { id := 2, timestamp := 6 }, keys := [] }, .signal]

end FutureRun

end Slog
