/-
# The handlers of the scheduler

Each handler adds a transaction to the graph or to the horizon, and goes through what becomes ready.
The scheduler asks for a transaction at most once, as long as each question is answered at most once:
it asks when it files a vertex under a transaction that nobody waited for before.
-/
import Penteract.Lib.Network
import Penteract.JanusWaiting

namespace Janus

open List AssocMap Slog Relation

def InquiryResult.id : InquiryResult → TxnId
  | .executed id => id
  | .pending id _ => id

/-- How often a message asks for `x` on behalf of `q`, or answers it. -/
def Envelope.tokens (q : PartitionId) (x : TxnId) : Envelope → ℕ
  | .inquire sender _ ids => if sender = q then ids.count x else 0
  | .answer receiver results => if receiver = q then (results.map InquiryResult.id).count x else 0

/-- The partitions exist, and an answer has the dependencies of the transaction. -/
def Envelope.Valid (w : Workload) : Envelope → Prop
  | .inquire sender receiver _ => sender < w.numPartitions ∧ receiver < w.numPartitions
  | .answer receiver results => receiver < w.numPartitions ∧
      ∀ id deps, .pending id deps ∈ results → deps = w.deps id

namespace Scheduler

variable {w : Workload} {p : PartitionId} {committed : List TxnId} {s s' : Scheduler} {id : TxnId}

/-! ## New vertices -/

/-- The scheduler with a new vertex for `id`. -/
def withVertex (w : Workload) (p : PartitionId) (s : Scheduler) (id : TxnId) : Scheduler :=
  { s with
    txns := if p ∈ w.participants id then s.txns.insert id else s.txns
    graph := s.graph.insert id
      { txnId := id, isLocal := decide (p ∈ w.participants id), deps := w.deps id } }

variable {x : TxnId} {ready todo : List TxnId} {cur : Option TxnId} {d d' : PartitionId → TxnId → ℕ}
  {s₁ s₂ s₃ : Scheduler} {result : InquiryResult}

theorem mem_withVertex :
    x ∈ (s.withVertex w p id).graph ↔ x = id ∨ x ∈ s.graph := AList.mem_insert _

theorem not_done_of_not_mem (hid : id ∉ s.graph) (hexec : s.horizon.contains id = false) :
    ¬ s.Done id := by
  rintro (h | h)
  · rw [hexec] at h
    exact absurd h (by simp)
  · exact h (by rw [Graph.disc, not_mem_iff_lookup.mp hid]; rfl)

theorem disc_withVertex (hid : id ∉ s.graph) (x : TxnId) :
    (s.withVertex w p id).graph.disc x = s.graph.disc x := by
  rw [Graph.disc, Graph.disc, withVertex, lookup_insert']
  split_ifs with hx
  · rw [hx, not_mem_iff_lookup.mp hid]
    rfl
  · rfl

theorem done_withVertex (hid : id ∉ s.graph) : (s.withVertex w p id).Done x ↔ s.Done x := by
  rw [Done, Done, disc_withVertex hid]
  rfl

theorem blocked_withVertex (hid : id ∉ s.graph) (hdone : ¬ s.Done id) :
    (s.withVertex w p id).Blocked x ↔ x = id ∨ s.Blocked x := by
  rw [blocked_iff, blocked_iff, mem_withVertex, done_withVertex hid]
  constructor
  · rintro ⟨rfl | hx, hxd⟩
    · exact .inl rfl
    · exact .inr ⟨hx, hxd⟩
  · rintro (rfl | ⟨hx, hxd⟩)
    · exact ⟨.inl rfl, hdone⟩
    · exact ⟨.inr hx, hxd⟩

theorem Wf.withVertex (hwf : Wf w p committed s) (hid : id ∉ s.graph) (hdone : ¬ s.Done id)
    {committed' : List TxnId} (hsub : committed ⊆ committed')
    (hcommitted : p ∈ w.participants id → id ∈ committed') :
    Wf w p committed' (s.withVertex w p id) := by
  have hlookup (x : TxnId) : (s.withVertex w p id).graph.lookup x = if x = id then
      some { txnId := id, isLocal := decide (p ∈ w.participants id), deps := w.deps id }
      else s.graph.lookup x := lookup_insert' ..
  refine ⟨fun x vertex hx => ?_, fun x vertex hx => ?_, fun x hx => ?_, fun x hx hp => ?_,
    fun x hp hx => ?_, fun x => ?_, fun x hx hxd => ?_⟩
  · rw [hlookup] at hx
    split_ifs at hx with heq
    · rw [← Option.some_inj.mp hx, heq]
    · exact hwf.keyed x vertex hx
  · rw [hlookup] at hx
    split_ifs at hx with heq
    · rw [← Option.some_inj.mp hx, heq]
      exact ⟨rfl, rfl⟩
    · exact hwf.vertex x vertex hx
  · rcases mem_withVertex.mp hx with rfl | hx
    · exact Bool.eq_false_iff.mpr fun h => hdone (.inl h)
    · exact hwf.apart x hx
  · rw [Scheduler.withVertex]
    rcases (blocked_withVertex hid hdone).mp hx with rfl | hx
    · simp [hp]
    · have := hwf.txns x hx hp
      split_ifs
      · exact mem_insert_of_mem this
      · exact this
  · rcases hx with hx | hx
    · rcases mem_withVertex.mp hx with rfl | hx
      · exact hcommitted hp
      · exact hsub (hwf.known x hp (.inl hx))
    · exact hsub (hwf.known x hp (.inr hx))
  · rw [done_withVertex hid]
    exact hwf.dispatched x
  · have hold := (done_withVertex hid).mp hxd
    rcases mem_withVertex.mp hx with rfl | hx
    · exact absurd hold hdone
    · exact hwf.kept x hx hold

/-- A vertex that was not there before is filed under nothing. -/
theorem Waits.not_registered (h : Waits w s ready todo cur) (hid : id ∉ s.graph) (hdone : ¬ s.Done id)
    (d : TxnId) :
    ¬ Registered s.pendingTxns id d := fun hreg => (h.live id d hreg).elim hid hdone

theorem Waits.withVertex (h : Waits w s [] [] none) (hid : id ∉ s.graph) (hdone : ¬ s.Done id) :
    Waits w (s.withVertex w p id) [] [] (some id) := by
  have hblocked {x : TxnId} (hx : (s.withVertex w p id).Blocked x) (hcur : some id ≠ some x) :
      s.Blocked x ∧ x ≠ id := by
    have hne : x ≠ id := fun heq => hcur (heq ▸ rfl)
    exact ⟨((blocked_withVertex hid hdone).mp hx).resolve_left hne, hne⟩
  refine ⟨by simp, fun d hd hdd => h.keys d hd ((done_withVertex hid).mp hdd), h.nodup,
    fun x d hxd => ?_, h.reach, fun x hx hcur => ?_, fun x hx hcur => ?_, fun x hx hcur => ?_, ?_⟩
  · exact (h.live x d hxd).imp (fun hx => mem_withVertex.mpr (.inr hx)) (done_withVertex hid).mpr
  · obtain ⟨hx, hne⟩ := hblocked hx hcur
    refine Eq.trans ?_ (h.count x hx (by simp))
    rw [counter, counter, Scheduler.withVertex, lookup_insert', if_neg hne]
  · exact h.filed x (hblocked hx hcur).1 (by simp)
  · exact (h.covered x (hblocked hx hcur).1 (by simp)).mono (fun z => (done_withVertex hid).mpr)
      (fun z hz => .inl (mem_withVertex.mpr (.inr hz))) fun d hd => .inl hd
  · -- the new vertex comes after all the others
    obtain ⟨rank, bound, hbound, hrank⟩ := h.rank
    have hother {x : TxnId} (hx : x ∈ s.graph) : Function.update rank id bound x = rank x := by
      refine Function.update_of_ne ?_ _ _
      rintro rfl
      exact hid hx
    refine ⟨Function.update rank id bound, bound + 1, fun x hx => ?_, fun x d hxd hx hd => ?_⟩
    · rcases mem_withVertex.mp hx with rfl | hx
      · rw [Function.update_self]
        exact Nat.lt_succ_self _
      · rw [hother hx]
        exact (hbound x hx).trans (Nat.lt_succ_self _)
    · have hxs : x ∈ s.graph := (mem_withVertex.mp hx).resolve_left fun heq =>
        h.not_registered hid hdone d (heq ▸ hxd)
      rw [hother hxs]
      rcases mem_withVertex.mp hd with rfl | hds
      · rw [Function.update_self]
        exact hbound x hxs
      · rw [hother hds]
        exact hrank x d hxd hxs hds

/-! ## Executed transactions -/

/-- Another partition has executed `id`. -/
def withExecuted (s : Scheduler) (id : TxnId) : Scheduler := { s with horizon := s.horizon.add id }

theorem done_withExecuted : (s.withExecuted id).Done x ↔ x = id ∨ s.Done x := by
  rw [Done, Done, withExecuted, TxnHorizon.contains_add, Bool.or_eq_true, decide_eq_true_eq,
    or_assoc]

theorem blocked_withExecuted (hid : id ∉ s.graph) : (s.withExecuted id).Blocked x ↔ s.Blocked x := by
  rw [blocked_iff, blocked_iff, done_withExecuted, not_or]
  refine and_congr_right fun hx => and_iff_right_of_imp fun _ heq => ?_
  exact hid (heq ▸ hx)

theorem Wf.withExecuted (hwf : Wf w p committed s) (hid : id ∉ s.graph)
    (hp : p ∉ w.participants id) : Wf w p committed (s.withExecuted id) := by
  have hcontains (x : TxnId) : (s.withExecuted id).horizon.contains x =
      (decide (x = id) || s.horizon.contains x) := TxnHorizon.contains_add ..
  refine ⟨hwf.keyed, hwf.vertex, fun x hx => ?_, fun x hx => ?_, fun x hpx hx => ?_, fun x => ?_,
    fun x hx hxd => ?_⟩
  · have hne : x ≠ id := fun heq => hid (heq ▸ hx)
    rw [hcontains, hwf.apart x hx, decide_eq_false hne]
    rfl
  · exact hwf.txns x ((blocked_withExecuted hid).mp hx)
  · refine hwf.known x hpx (hx.imp_right fun hx => ?_)
    have hne : x ≠ id := fun heq => hp (heq ▸ hpx)
    rwa [hcontains, decide_eq_false hne, Bool.false_or] at hx
  · rw [done_withExecuted, and_or_left]
    refine (hwf.dispatched x).trans (iff_or_self.mpr ?_)
    rintro ⟨hpx, rfl⟩
    exact absurd hpx hp
  · refine hwf.kept x hx ((done_withExecuted.mp hxd).resolve_left fun heq => ?_)
    exact hid (heq ▸ hx)

theorem Waits.withExecuted (h : Waits w s [] [] none) (hid : id ∉ s.graph) :
    Waits w (s.withExecuted id) [id] [] none := by
  refine ⟨fun x hx => done_withExecuted.mpr (.inl (mem_singleton.mp hx)), fun d hd hdd => ?_,
    h.nodup, fun x d hxd => (h.live x d hxd).imp_right fun hx => done_withExecuted.mpr (.inr hx),
    h.reach, fun x hx => h.count x ((blocked_withExecuted hid).mp hx),
    fun x hx => h.filed x ((blocked_withExecuted hid).mp hx), fun x hx hcur => ?_, h.rank⟩
  · rw [mem_singleton]
    refine (done_withExecuted.mp hdd).resolve_right fun hold => ?_
    exact absurd (h.keys d hd hold) not_mem_nil
  · exact (h.covered x ((blocked_withExecuted hid).mp hx) hcur).mono
      (fun z hz => done_withExecuted.mpr (.inr hz)) (fun z => .inl) fun d => .inl

/-! ## Finished transactions -/

theorem mem_onCustomSocket : x ∈ (s.onCustomSocket id).graph ↔ x ≠ id ∧ x ∈ s.graph :=
  AList.mem_erase

theorem done_onCustomSocket (hid : s.Done id) : (s.onCustomSocket id).Done x ↔ s.Done x := by
  rw [Done, onCustomSocket, TxnHorizon.contains_add, Graph.disc, lookup_erase']
  by_cases hx : x = id
  · subst hx
    simp [hid]
  · rw [if_neg hx, decide_eq_false hx, Bool.false_or]
    rfl

theorem blocked_onCustomSocket (hid : s.Done id) : (s.onCustomSocket id).Blocked x ↔ s.Blocked x := by
  rw [blocked_iff, blocked_iff, done_onCustomSocket hid, mem_onCustomSocket]
  constructor
  · rintro ⟨⟨-, hx⟩, hxd⟩
    exact ⟨hx, hxd⟩
  · rintro ⟨hx, hxd⟩
    exact ⟨⟨fun heq => hxd (heq ▸ hid), hx⟩, hxd⟩

theorem Wf.onCustomSocket (hwf : Wf w p committed s) (hid : s.Done id)
    (hcommitted : p ∈ w.participants id → id ∈ committed) :
    Wf w p committed (s.onCustomSocket id) := by
  have hlookup {x : TxnId} {vertex : Vertex}
      (hx : (s.onCustomSocket id).graph.lookup x = some vertex) :
      x ≠ id ∧ s.graph.lookup x = some vertex := by
    rw [Scheduler.onCustomSocket, lookup_erase'] at hx
    split_ifs at hx with heq
    exact ⟨heq, hx⟩
  have hcontains (x : TxnId) : (s.onCustomSocket id).horizon.contains x =
      (decide (x = id) || s.horizon.contains x) := TxnHorizon.contains_add ..
  refine ⟨fun x vertex hx => hwf.keyed x vertex (hlookup hx).2,
    fun x vertex hx => hwf.vertex x vertex (hlookup hx).2, fun x hx => ?_,
    fun x hx => hwf.txns x ((blocked_onCustomSocket hid).mp hx), fun x hpx hx => ?_, fun x => ?_,
    fun x hx hxd => hwf.kept x (mem_onCustomSocket.mp hx).2 ((done_onCustomSocket hid).mp hxd)⟩
  · obtain ⟨hne, hx⟩ := mem_onCustomSocket.mp hx
    rw [hcontains, hwf.apart x hx, decide_eq_false hne]
    rfl
  · rcases hx with hx | hx
    · exact hwf.known x hpx (.inl (mem_onCustomSocket.mp hx).2)
    · rw [hcontains, Bool.or_eq_true, decide_eq_true_eq] at hx
      rcases hx with rfl | hx
      · exact hcommitted hpx
      · exact hwf.known x hpx (.inr hx)
  · rw [done_onCustomSocket hid]
    exact hwf.dispatched x

theorem Waits.onCustomSocket (h : Waits w s [] [] none) (hid : s.Done id) :
    Waits w (s.onCustomSocket id) [] [] none := by
  have hkept {x : TxnId} (hx : x ∈ s.graph) :
      x ∈ (s.onCustomSocket id).graph ∨ (s.onCustomSocket id).Done x := by
    rcases eq_or_ne x id with rfl | hne
    · exact .inr ((done_onCustomSocket hid).mpr hid)
    · exact .inl (mem_onCustomSocket.mpr ⟨hne, hx⟩)
  refine ⟨by simp, fun d hd hdd => h.keys d hd ((done_onCustomSocket hid).mp hdd), h.nodup,
    fun x d hxd => ?_, h.reach, fun x hx hcur => ?_,
    fun x hx => h.filed x ((blocked_onCustomSocket hid).mp hx), fun x hx hcur => ?_, ?_⟩
  · rcases h.live x d hxd with hx | hx
    · exact hkept hx
    · exact .inr ((done_onCustomSocket hid).mpr hx)
  · have hne := (mem_onCustomSocket.mp hx.mem).1
    rw [counter, Scheduler.onCustomSocket, lookup_erase', if_neg hne]
    exact h.count x ((blocked_onCustomSocket hid).mp hx) hcur
  · exact (h.covered x ((blocked_onCustomSocket hid).mp hx) hcur).mono
      (fun z => (done_onCustomSocket hid).mpr) (fun z hz => hkept hz) fun d => .inl
  · obtain ⟨rank, bound, hbound, hrank⟩ := h.rank
    exact ⟨rank, bound, fun x hx => hbound x (mem_onCustomSocket.mp hx).2, fun x d hxd hx hd =>
      hrank x d hxd (mem_onCustomSocket.mp hx).2 (mem_onCustomSocket.mp hd).2⟩

/-! ## Questions -/

/-- The questions of `q` about `x` that the scheduler keeps. -/
def held (s : Scheduler) (q : PartitionId) (x : TxnId) : ℕ :=
  ((s.pendingInquiries.lookup x).getD []).count q

/-- The questions of `q` about `x` that the scheduler keeps, and those in what it sends. -/
def tokens (s : Scheduler) (q : PartitionId) (x : TxnId) : ℕ :=
  s.held q x + (s.sent.map (Envelope.tokens q x)).sum

/-- Some vertex waits for `x`, which only another partition can tell about. -/
def Awaits (w : Workload) (p : PartitionId) (s : Scheduler) (x : TxnId) : Prop :=
  x ∈ s.pendingTxns ∧ x ∉ s.graph ∧ ¬ s.Done x ∧ p ∉ w.participants x

open Classical in
/-- How many questions of `q` the scheduler of `p` accounts for. -/
noncomputable def credit (w : Workload) (p : PartitionId) (s : Scheduler) (q : PartitionId)
    (x : TxnId) : ℕ := if q = p ∧ s.Awaits w p x then 1 else 0

/-- New questions are covered by new waiting; `consumed` are the questions that were dealt with. -/
def Accounts (w : Workload) (p : PartitionId) (consumed : PartitionId → TxnId → ℕ)
    (s s' : Scheduler) : Prop :=
  ∀ q x, s'.tokens q x + credit w p s q x ≤ s.tokens q x + credit w p s' q x + consumed q x

theorem Accounts.trans (h : Accounts w p d s₁ s₂) (h' : Accounts w p d' s₂ s₃) :
    Accounts w p (fun q x => d q x + d' q x) s₁ s₃ := by
  intro q x
  have h₁ := h q x
  have h₂ := h' q x
  show _ ≤ _ + _ + (d q x + d' q x)
  omega

theorem credit_mono (h : ∀ x, s.Awaits w p x → s'.Awaits w p x) (q : PartitionId) (x : TxnId) :
    credit w p s q x ≤ credit w p s' q x := by
  unfold credit
  split_ifs with hs hs'
  · exact le_rfl
  · exact absurd ⟨hs.1, h x hs.2⟩ hs'
  · exact Nat.zero_le _
  · exact le_rfl

/-- Every question goes to one partition. -/
theorem sum_range_count_le (n : ℕ) (asked : List (PartitionId × TxnId)) (x : TxnId) :
    ((List.range n).map fun q => ((asked.filter (·.1 = q)).map Prod.snd).count x).sum ≤
      (asked.map Prod.snd).count x := by
  induction asked with
  | nil => simp
  | cons a asked ih =>
    have hcons (q : PartitionId) : ((((a :: asked).filter (·.1 = q)).map Prod.snd).count x) =
        ((asked.filter (·.1 = q)).map Prod.snd).count x +
          if a.1 = q ∧ a.2 = x then 1 else 0 := by
      by_cases hq : a.1 = q
      · simp [hq, count_cons]
      · simp [hq]
    have hone := sum_indicator (nodup_range (n := n)) (fun q => a.1 = q ∧ a.2 = x)
      (a := a.1) fun q hq => hq.1.symm
    simp only [hcons, sum_map_add, hone, map_cons, count_cons]
    refine Nat.add_le_add ih ?_
    by_cases hx : a.2 = x <;> simp [hx]
    split_ifs <;> simp

theorem tokens_inquiries_le (c : SchedulerConfig) (asked : List (PartitionId × TxnId))
    (q : PartitionId) (x : TxnId) : ((inquiries c asked).map (Envelope.tokens q x)).sum ≤
      if q = c.localPartition then (asked.map Prod.snd).count x else 0 := by
  have hsum : ((inquiries c asked).map (Envelope.tokens q x)).sum =
      ((List.range c.numPartitions).map fun r =>
        if q = c.localPartition then ((asked.filter (·.1 = r)).map Prod.snd).count x else 0).sum := by
    rw [inquiries]
    induction List.range c.numPartitions with
    | nil => rfl
    | cons r rs ih =>
      rw [filterMap_cons, map_cons, sum_cons, ← ih]
      cases hids : (asked.filter (·.1 = r)).map Prod.snd with
      | nil => simp
      | cons y ys =>
        by_cases hq : q = c.localPartition
        · subst hq
          simp [Envelope.tokens]
        · simp [Envelope.tokens, hq, Ne.symm hq]
  rw [hsum]
  split_ifs
  · exact sum_range_count_le ..
  · simp

/-- Nothing that is awaited appears during the moves of a scheduler. -/
theorem Move.awaits (hwf : Wf w p committed s) (hmove : Move w p s s') (hx : s.Awaits w p x) :
    s'.Awaits w p x := by
  obtain ⟨hmem, hgraph, hdone, hpx⟩ := hx
  cases hmove with
  | resolve hround hpost hres =>
    obtain ⟨asked, hfiled, -⟩ := hres.filed
    refine ⟨(hfiled.mem x).mpr (.inl hmem),
      fun h => hgraph ((hres.mem_graph hpost.good).mp h).1, fun h => ?_, hpx⟩
    rcases (hres.done_iff hwf hpost.good).mp h with h | h
    · exact hdone h
    · exact hgraph (hpost.blocked_of_mem h).mem
  | countDown id =>
    exact ⟨hmem, fun h => hgraph (mem_countDown.mp h), fun h => hdone (done_countDown.mp h), hpx⟩
  | forget id hid =>
    exact ⟨AList.mem_erase.mpr ⟨fun heq => hdone (heq ▸ hid), hmem⟩, hgraph, hdone, hpx⟩

theorem Move.accounts (hp : p < w.numPartitions) (hwf : Wf w p committed s)
    (hmove : Move w p s s') : Accounts w p (fun _ _ => 0) s s' := by
  have hmono := credit_mono fun x => hmove.awaits hwf (x := x)
  cases hmove with
  | @resolve _ v finder hround hpost hres =>
    obtain ⟨asked, hfiled, hsent⟩ := hres.filed
    -- what is asked for is missing, and nobody waited for it
    have hasked {x : TxnId} (hx : x ∈ asked.map Prod.snd) :
        s'.Awaits w p x ∧ ¬ s.Awaits w p x := by
      rw [hfiled.asked, List.map_map] at hx
      obtain ⟨dep, hdep, rfl⟩ := mem_map.mp hx
      obtain ⟨hdep, hnew⟩ := mem_filter.mp hdep
      simp only [Bool.and_eq_true, decide_eq_true_eq, Bool.not_eq_true'] at hnew
      have hmem := mem_map_of_mem (f := JanusDependency.txnId) hdep
      obtain ⟨y, hy, hmissing⟩ := hpost.good.missed dep hdep
      have hyb : s.Blocked y := hmissing.1
      obtain ⟨hgraph, hdone⟩ := not_done_of_missing hmissing
      have hbit := w.bitmap y dep (hwf.deps_eq hyb.mem ▸ hmissing.2.1) p hp
      have hpx : p ∉ w.participants dep.txnId := by
        rw [show (w.config p).localPartition = p from rfl,
          takesPart_of_lt _ (hp.trans_le w.numPartitions_le), hbit] at hnew
        exact of_decide_eq_false hnew.2
      refine ⟨⟨(hfiled.mem _).mpr (.inr hmem),
        fun h => hgraph ((hres.mem_graph hpost.good).mp h).1, fun h => ?_, hpx⟩,
        fun h => hnew.1 h.1⟩
      rcases (hres.done_iff hwf hpost.good).mp h with h | h
      · exact hdone h
      · exact hgraph (hpost.blocked_of_mem h).mem
    have hone (x : TxnId) : (asked.map Prod.snd).count x ≤ 1 := by
      refine nodup_iff_count_le_one.mp ?_ x
      rw [hfiled.asked, List.map_map]
      exact hpost.good.missingNodup.sublist ((filter_sublist).map _)
    intro q x
    have hle := tokens_inquiries_le (w.config p) asked q x
    have hmono := hmono q x
    have htokens : s'.tokens q x =
        s.tokens q x + ((inquiries (w.config p) asked).map (Envelope.tokens q x)).sum := by
      rw [tokens, tokens, held, held, hres.pendingInquiries, hsent, map_append, sum_append,
        add_assoc]
    rw [htokens]
    by_cases hx : q = p ∧ x ∈ asked.map Prod.snd
    · obtain ⟨rfl, hx⟩ := hx
      have hnow : credit w q s' q x = 1 := if_pos ⟨rfl, (hasked hx).1⟩
      have hbefore : credit w q s q x = 0 := if_neg fun h => (hasked hx).2 h.2
      rw [if_pos (show q = (w.config q).localPartition from rfl)] at hle
      have := hone x
      omega
    · have hzero : ((inquiries (w.config p) asked).map (Envelope.tokens q x)).sum = 0 := by
        refine Nat.le_zero.mp (hle.trans (Nat.le_zero.mpr ?_))
        split_ifs with hq
        · exact count_eq_zero.mpr fun hmem => hx ⟨hq, hmem⟩
        · rfl
      omega
  | countDown id =>
    intro q x
    exact Nat.add_le_add_left (hmono q x) _
  | forget id hdone =>
    intro q x
    exact Nat.add_le_add_left (hmono q x) _

theorem Move.done (hwf : Wf w p committed s) (hmove : Move w p s s') (hx : s.Done x) : s'.Done x := by
  cases hmove with
  | resolve hround hpost hres => exact (hres.done_iff hwf hpost.good).mpr (.inl hx)
  | countDown id => exact done_countDown.mpr hx
  | forget id hid => exact hx

theorem inquiries_valid (hp : p < w.numPartitions) {asked : List (PartitionId × TxnId)}
    {e : Envelope} (he : e ∈ inquiries (w.config p) asked) : e.Valid w := by
  rw [inquiries, mem_filterMap] at he
  obtain ⟨r, hr, he⟩ := he
  cases hids : (asked.filter (·.1 = r)).map Prod.snd with
  | nil => simp [hids] at he
  | cons y ys =>
    simp only [hids, Option.some_inj] at he
    exact he ▸ ⟨hp, mem_range.mp hr⟩

/-- What a sequence of moves does to the questions. -/
structure Effects (w : Workload) (p : PartitionId) (consumed : PartitionId → TxnId → ℕ)
    (s s' : Scheduler) : Prop where
  accounts : Accounts w p consumed s s'
  awaits : ∀ x, consumed p x = 0 → s.Awaits w p x → s'.Awaits w p x
  valid : (∀ e ∈ s.sent, e.Valid w) → ∀ e ∈ s'.sent, e.Valid w
  held : (∀ q x, s.held q x ≠ 0 → q < w.numPartitions) →
    ∀ q x, s'.held q x ≠ 0 → q < w.numPartitions
  done : ∀ x, s.Done x → s'.Done x

theorem Effects.trans (h : Effects w p d s₁ s₂) (h' : Effects w p d' s₂ s₃) :
    Effects w p (fun q x => d q x + d' q x) s₁ s₃ where
  accounts := h.accounts.trans h'.accounts
  awaits := fun x hx hs => h'.awaits x (by omega) (h.awaits x (by omega) hs)
  valid := fun hs => h'.valid (h.valid hs)
  held := fun hs => h'.held (h.held hs)
  done := fun x hx => h'.done x (h.done x hx)

theorem Wf.effects (hp : p < w.numPartitions) (hwf : Wf w p committed s)
    (hmoves : ReflTransGen (Move w p) s s') : Effects w p (fun _ _ => 0) s s' := by
  refine (hwf.moves (P := fun s' => Effects w p (fun _ _ => 0) s s')
    ⟨fun q x => le_rfl, fun x _ hx => hx, fun hs => hs, fun hs => hs, fun x hx => hx⟩
    (fun s₁ s₂ hwf₁ h hmove => ?_) hmoves).2
  refine h.trans ⟨hmove.accounts hp hwf₁, fun x _ hx => hmove.awaits hwf₁ hx, fun hs e he => ?_,
    fun hs q x hq => ?_, fun x => hmove.done hwf₁⟩
  · cases hmove with
    | resolve hround hpost hres =>
      obtain ⟨asked, -, hsent⟩ := hres.filed
      rw [hsent, mem_append] at he
      exact he.elim (hs e) (inquiries_valid hp)
    | countDown id => exact hs e he
    | forget id hdone => exact hs e he
  · cases hmove with
    | resolve hround hpost hres =>
      rw [Scheduler.held, hres.pendingInquiries] at hq
      exact hs q x hq
    | countDown id => exact hs q x hq
    | forget id hdone => exact hs q x hq

/-! ## Answers to questions of others -/

/-- `s'` differs from `s` only in the questions that it holds and in what it sends. -/
def SameButInquiries (s s' : Scheduler) : Prop :=
  s' = { s with pendingInquiries := s'.pendingInquiries, sent := s'.sent }

theorem SameButInquiries.trans (h : SameButInquiries s₁ s₂) (h' : SameButInquiries s₂ s₃) :
    SameButInquiries s₁ s₃ := by
  rw [SameButInquiries] at *
  rw [h'] at *
  rw [h]

theorem Wf.inquiries (hwf : Wf w p committed s) (h : SameButInquiries s s') :
    Wf w p committed s' := by
  rw [h]
  exact ⟨hwf.keyed, hwf.vertex, hwf.apart, hwf.txns, hwf.known, hwf.dispatched, hwf.kept⟩

theorem Waits.inquiries (hw : Waits w s ready todo cur) (h : SameButInquiries s s') :
    Waits w s' ready todo cur := by
  rw [h]
  exact ⟨hw.done, hw.keys, hw.nodup, hw.live, hw.reach, hw.count, hw.filed, hw.covered, hw.rank⟩

theorem SameButInquiries.credit_eq (h : SameButInquiries s s') (q : PartitionId) (x : TxnId) :
    credit w p s' q x = credit w p s q x := by
  rw [h]
  rfl

/-- How often `q` is answered about `x`. -/
def answered (sender q : PartitionId) (results : List InquiryResult) (x : TxnId) : ℕ :=
  if sender = q then (results.map InquiryResult.id).count x else 0

def ValidResults (w : Workload) (results : List InquiryResult) : Prop :=
  ∀ id deps, .pending id deps ∈ results → deps = w.deps id

/-- A question is answered, or kept. -/
theorem inquireTxn_spec (hwf : Wf w p committed s) (sender : PartitionId)
    (results : List InquiryResult) (id : TxnId) {results' : List InquiryResult}
    (h : inquireTxn sender (s, results) id = (s', results')) :
    SameButInquiries s s' ∧ s'.sent = s.sent ∧
      (ValidResults w results → ValidResults w results') ∧
      ∀ q x, s'.held q x + answered sender q results' x =
        s.held q x + answered sender q results x + if sender = q ∧ id = x then 1 else 0 := by
  have hone (result : InquiryResult) (q : PartitionId) (x : TxnId) :
      answered sender q (results ++ [result]) x = answered sender q results x +
        if sender = q ∧ result.id = x then 1 else 0 := by
    by_cases hq : sender = q <;> by_cases hx : result.id = x <;>
      simp [answered, hq, hx]
  simp only [inquireTxn] at h
  cases hlookup : s.graph.lookup id with
  | none =>
    simp only [hlookup] at h
    split_ifs at h with hexec
    · cases h
      refine ⟨rfl, rfl, fun hv x deps hx => hv x deps (by simpa using hx), fun q x => ?_⟩
      rw [hone, add_assoc]
      rfl
    · cases h
      refine ⟨rfl, rfl, fun hv => hv, fun q x => ?_⟩
      simp only [held, lookup_insert']
      by_cases hx : x = id
      · subst hx
        by_cases hq : sender = q <;> simp [hq]
        omega
      · simp [hx, Ne.symm hx]
  | some vertex =>
    simp only [hlookup] at h
    cases h
    refine ⟨rfl, rfl, fun hv x deps hx => ?_, fun q x => ?_⟩
    · rcases mem_append.mp hx with hx | hx
      · exact hv x deps hx
      · obtain ⟨rfl, rfl⟩ : x = id ∧ deps = vertex.deps := by simpa using hx
        exact (hwf.vertex _ vertex hlookup).1
    · rw [hone, add_assoc]
      rfl

theorem processInquiry_spec (hwf : Wf w p committed s) {sender : PartitionId}
    (hsender : sender < w.numPartitions) (ids : List TxnId) :
    SameButInquiries s (s.processInquiry sender ids) ∧
      ((∀ e ∈ s.sent, e.Valid w) → ∀ e ∈ (s.processInquiry sender ids).sent, e.Valid w) ∧
      (∀ q x, sender ≠ q → (s.processInquiry sender ids).held q x = s.held q x) ∧
      ∀ q x, (s.processInquiry sender ids).tokens q x =
        s.tokens q x + if sender = q then ids.count x else 0 := by
  -- the loop over the ids, from any results
  have hloop : ∀ (ids : List TxnId) (s₁ : Scheduler) (results : List InquiryResult),
      Wf w p committed s₁ → ∃ s₂ results', ids.foldl (inquireTxn sender) (s₁, results) =
          (s₂, results') ∧ SameButInquiries s₁ s₂ ∧ s₂.sent = s₁.sent ∧
        (ValidResults w results → ValidResults w results') ∧
        ∀ q x, s₂.held q x + answered sender q results' x =
          s₁.held q x + answered sender q results x + if sender = q then ids.count x else 0 := by
    intro ids
    induction ids with
    | nil => exact fun s₁ results _ => ⟨s₁, results, rfl, rfl, rfl, id, by simp⟩
    | cons id ids ih =>
      intro s₁ results hwf₁
      obtain ⟨hsame, hsent, hvalid, hcount⟩ := inquireTxn_spec hwf₁ sender results id rfl
      obtain ⟨s₃, results₃, hfold, hsame₃, hsent₃, hvalid₃, hcount₃⟩ :=
        ih _ _ (hwf₁.inquiries hsame)
      refine ⟨s₃, results₃, hfold, hsame.trans hsame₃, hsent₃.trans hsent,
        fun hv => hvalid₃ (hvalid hv), fun q x => ?_⟩
      rw [hcount₃, hcount, count_cons]
      by_cases hq : sender = q <;> by_cases hx : id = x <;> simp [hq, hx]
      omega
  obtain ⟨s₂, results, hfold, hsame, hsent, hvalid, hcount⟩ := hloop ids s [] hwf
  have hother (q : PartitionId) (x : TxnId) (hq : sender ≠ q) : s₂.held q x = s.held q x := by
    simpa [answered, hq] using hcount q x
  rw [processInquiry, hfold]
  by_cases hnil : results = []
  · simp only [if_pos hnil]
    refine ⟨hsame, fun hv => hsent ▸ hv, hother, fun q x => ?_⟩
    have := hcount q x
    simp only [hnil, answered, map_nil, count_nil, ite_self, add_zero] at this
    rw [tokens, tokens, hsent, this]
    omega
  · simp only [if_neg hnil]
    refine ⟨?_, fun hv e he => ?_, hother, fun q x => ?_⟩
    · rw [SameButInquiries] at hsame ⊢
      conv_lhs => rw [hsame]
    · rcases mem_append.mp he with he | he
      · exact hv e (hsent ▸ he)
      · rw [mem_singleton.mp he]
        exact ⟨hsender, hvalid nofun⟩
    · have := hcount q x
      simp only [answered, map_nil, count_nil, ite_self, add_zero] at this
      have hheld : ({ s₂ with sent := s₂.sent ++ [.answer sender results] } : Scheduler).held q x =
        s₂.held q x := rfl
      rw [tokens, tokens, hheld]
      simp only [hsent, map_append, sum_append, map_singleton, sum_singleton,
        Envelope.tokens]
      omega

theorem processInquiry_of_mem {vertex : Vertex} (hid : s.graph.lookup id = some vertex)
    (sender : PartitionId) : s.processInquiry sender [id] =
      { s with sent := s.sent ++ [.answer sender [.pending id vertex.deps]] } := by
  simp [processInquiry, inquireTxn, hid]

/-- The questions about a new vertex are answered. -/
theorem checkPendingInquiry_spec (hwf : Wf w p committed s) (hid : id ∈ s.graph)
    (hheld : ∀ q x, s.held q x ≠ 0 → q < w.numPartitions) :
    SameButInquiries s (s.checkPendingInquiry id) ∧
      ((∀ e ∈ s.sent, e.Valid w) → ∀ e ∈ (s.checkPendingInquiry id).sent, e.Valid w) ∧
      (∀ q x, (s.checkPendingInquiry id).held q x ≤ s.held q x) ∧
      ∀ q x, (s.checkPendingInquiry id).tokens q x = s.tokens q x := by
  obtain ⟨vertex, hvertex⟩ := mem_iff_lookup.mp hid
  rw [checkPendingInquiry]
  cases hlookup : s.pendingInquiries.lookup id with
  | none => exact ⟨rfl, fun hv => hv, fun _ _ => le_rfl, fun _ _ => rfl⟩
  | some senders =>
    have hfold : ∀ (senders : List PartitionId) (sent : List Envelope),
        senders.foldl (fun s sender => s.processInquiry sender [id]) { s with sent } =
          { s with sent := sent ++ senders.map fun q => .answer q [.pending id vertex.deps] } := by
      intro senders
      induction senders with
      | nil => simp
      | cons q senders ih =>
        intro sent
        have hq : ({ s with sent } : Scheduler).processInquiry q [id] =
            { s with sent := sent ++ [.answer q [.pending id vertex.deps]] } :=
          @processInquiry_of_mem { s with sent } id vertex hvertex q
        rw [foldl_cons, hq, ih]
        simp
    simp only [hfold senders s.sent]
    refine ⟨rfl, fun hv e he => ?_, fun q x => ?_, fun q x => ?_⟩
    · rcases mem_append.mp he with he | he
      · exact hv e he
      · obtain ⟨q, hq, rfl⟩ := mem_map.mp he
        refine ⟨hheld q id ?_, fun x deps hx => ?_⟩
        · rw [held, hlookup, Option.getD_some]
          exact (count_pos_iff.mpr hq).ne'
        · obtain ⟨rfl, rfl⟩ : x = id ∧ deps = vertex.deps := by simpa using hx
          exact (hwf.vertex _ vertex hvertex).1
    · simp only [held, lookup_erase']
      split_ifs
      · simp
      · exact le_rfl
    · have hsum : ((senders.map fun r => Envelope.answer r [.pending id vertex.deps]).map
          (Envelope.tokens q x)).sum = if x = id then senders.count q else 0 := by
        clear hlookup
        induction senders with
        | nil => simp
        | cons r senders ih =>
          rw [map_cons, map_cons, sum_cons, ih]
          rcases eq_or_ne x id with rfl | hx
          · by_cases hr : r = q <;> simp [Envelope.tokens, InquiryResult.id, hr, add_comm]
          · by_cases hr : r = q <;>
              simp [Envelope.tokens, InquiryResult.id, hr, hx, Ne.symm hx]
      simp only [tokens, held, map_append, sum_append, hsum, lookup_erase']
      by_cases hx : x = id
      · subst hx
        simp only [if_true, hlookup, Option.getD_none, Option.getD_some, count_nil]
        omega
      · simp [hx]

/-! ## The handlers as a whole -/

theorem SameButInquiries.awaits (h : SameButInquiries s s') (hx : s.Awaits w p x) :
    s'.Awaits w p x := by
  rw [h]
  exact hx

theorem Effects.of_same (h : SameButInquiries s s') {consumed : PartitionId → TxnId → ℕ}
    (htokens : ∀ q x, s'.tokens q x = s.tokens q x + consumed q x)
    (hvalid : (∀ e ∈ s.sent, e.Valid w) → ∀ e ∈ s'.sent, e.Valid w)
    (hheld : (∀ q x, s.held q x ≠ 0 → q < w.numPartitions) →
      ∀ q x, s'.held q x ≠ 0 → q < w.numPartitions) : Effects w p consumed s s' where
  accounts := by
    intro q x
    rw [htokens, h.credit_eq]
    omega
  awaits := fun x _ hx => h.awaits hx
  valid := hvalid
  held := hheld
  done := fun x hx => by
    rw [h]
    exact hx

/-- A committed transaction becomes a vertex, questions about it are answered, and its search
follows. -/
theorem processTransaction_spec (hp : p < w.numPartitions) (hwf : Wf w p committed s)
    (hw : Waits w s [] [] none) (hheld : ∀ q x, s.held q x ≠ 0 → q < w.numPartitions)
    (hid : p ∈ w.participants id) (hnew : id ∉ committed) :
    ∃ s₁ s', processTransaction (w.config p) s id (w.deps id) = some s' ∧
      SameButInquiries (s.withVertex w p id) s₁ ∧ ReflTransGen (Move w p) s₁ s' ∧
      id ∉ s.graph ∧ ¬ s.Done id ∧
      Wf w p (id :: committed) s₁ ∧ Waits w s' [] [] none ∧
      Effects w p (fun _ _ => 0) s s' := by
  have hgraph : id ∉ s.graph := fun h => hnew (hwf.known id hid (.inl h))
  have hdone : ¬ s.Done id := not_done_of_not_mem hgraph
    (Bool.eq_false_iff.mpr fun h => hnew (hwf.known id hid (.inr h)))
  have hwf₁ : Wf w p (id :: committed) (s.withVertex w p id) :=
    hwf.withVertex hgraph hdone (subset_cons_self ..) fun _ => mem_cons_self
  have hmem : id ∈ (s.withVertex w p id).graph := mem_withVertex.mpr (.inl rfl)
  obtain ⟨hsame, hvalid, hless, htokens⟩ := checkPendingInquiry_spec hwf₁ hmem hheld
  have hwf₂ := hwf₁.inquiries hsame
  have hblocked : ((s.withVertex w p id).checkPendingInquiry id).Blocked id := by
    rw [hsame]
    exact (blocked_withVertex hgraph hdone).mpr (.inl rfl)
  have hunfiled : ∀ d, ¬ Registered ((s.withVertex w p id).checkPendingInquiry id).pendingTxns
      id d := by
    rw [hsame]
    exact hw.not_registered hgraph hdone
  obtain ⟨s', hs', hw', hmoves⟩ := ((hw.withVertex hgraph hdone).inquiries hsame).resolveNew hwf₂
    hblocked hunfiled
  have hvertex : Effects w p (fun _ _ => 0) s (s.withVertex w p id) := by
    have hkept (x : TxnId) (hx : s.Awaits w p x) : (s.withVertex w p id).Awaits w p x := by
      refine ⟨hx.1, fun h => ?_, fun h => hx.2.2.1 ((done_withVertex hgraph).mp h), hx.2.2.2⟩
      rcases mem_withVertex.mp h with rfl | h
      · exact hx.2.2.2 hid
      · exact hx.2.1 h
    refine ⟨fun q x => ?_, fun x _ => hkept x, fun hs => hs, fun hs => hs,
      fun x => (done_withVertex hgraph).mpr⟩
    exact Nat.add_le_add_left (credit_mono hkept q x) _
  have hanswer : Effects w p (fun _ _ => 0) (s.withVertex w p id)
      ((s.withVertex w p id).checkPendingInquiry id) :=
    .of_same hsame htokens hvalid fun hs q x hq =>
      hs q x (Nat.pos_of_ne_zero hq |>.trans_le (hless q x)).ne'
  refine ⟨_, s', ?_, hsame, hmoves, hgraph, hdone, hwf₂, hw',
    (hvertex.trans hanswer).trans (hwf₂.effects hp hmoves)⟩
  rw [processTransaction, if_neg hgraph]
  simpa [Scheduler.withVertex, hid] using hs'

theorem onCustomSocket_effects (hid : s.Done id) :
    Effects w p (fun _ _ => 0) s (s.onCustomSocket id) := by
  have hkept (x : TxnId) (hx : s.Awaits w p x) : (s.onCustomSocket id).Awaits w p x :=
    ⟨hx.1, fun h => hx.2.1 (mem_onCustomSocket.mp h).2,
      fun h => hx.2.2.1 ((done_onCustomSocket hid).mp h), hx.2.2.2⟩
  refine ⟨fun q x => ?_, fun x _ => hkept x, fun hs => hs, fun hs => hs,
    fun x => (done_onCustomSocket hid).mpr⟩
  exact Nat.add_le_add_left (credit_mono hkept q x) _

/-- What an answer to a question of the scheduler changes at first. -/
def learn (w : Workload) (p : PartitionId) (s : Scheduler) : InquiryResult → Scheduler
  | .executed id => s.withExecuted id
  | .pending id _ => s.withVertex w p id

/-- The answers are taken in one after the other. -/
inductive Learns (w : Workload) (p : PartitionId) :
    List InquiryResult → Scheduler → Scheduler → Prop where
  | nil {s : Scheduler} : Learns w p [] s s
  | cons {result : InquiryResult} {results : List InquiryResult} {s s₁ s' : Scheduler}
      (hawaits : s.Awaits w p result.id) (hmoves : ReflTransGen (Move w p) (s.learn w p result) s₁)
      (hlearns : Learns w p results s₁ s') : Learns w p (result :: results) s s'

theorem Wf.learn (hwf : Wf w p committed s) (h : s.Awaits w p result.id) :
    Wf w p committed (s.learn w p result) := by
  obtain ⟨-, hgraph, hdone, hp⟩ := h
  cases result with
  | executed id => exact hwf.withExecuted hgraph hp
  | pending id deps =>
    exact hwf.withVertex hgraph hdone (Subset.refl _) fun hid => absurd hid hp

theorem learn_effects (h : s.Awaits w p result.id) :
    Effects w p (fun q x => if q = p ∧ x = result.id then 1 else 0) s (s.learn w p result) := by
  have hkept (x : TxnId) (hne : x ≠ result.id) (hx : s.Awaits w p x) :
      (s.learn w p result).Awaits w p x := by
    cases result with
    | executed id =>
      exact ⟨hx.1, hx.2.1, fun h => hx.2.2.1 ((done_withExecuted.mp h).resolve_left hne),
        hx.2.2.2⟩
    | pending id deps =>
      exact ⟨hx.1, fun h => hx.2.1 ((mem_withVertex.mp h).resolve_left hne),
        fun h' => hx.2.2.1 ((done_withVertex h.2.1).mp h'), hx.2.2.2⟩
  have htokens (q : PartitionId) (x : TxnId) : (s.learn w p result).tokens q x = s.tokens q x := by
    cases result <;> rfl
  refine ⟨fun q x => ?_, fun x hzero hx => hkept x ?_ hx, fun hs => ?_, fun hs => ?_, fun x hx => ?_⟩
  · rw [htokens]
    by_cases hqx : q = p ∧ x = result.id
    · have : credit w p s q x ≤ 1 := by
        unfold credit
        split_ifs <;> simp
      rw [if_pos hqx]
      omega
    · rw [if_neg hqx, add_zero]
      unfold credit
      by_cases haw : q = p ∧ s.Awaits w p x
      · rw [if_pos haw, if_pos ⟨haw.1, hkept x (fun hx => hqx ⟨haw.1, hx⟩) haw.2⟩]
      · rw [if_neg haw]
        omega
  · rintro rfl
    simp at hzero
  · cases result <;> exact hs
  · cases result <;> exact hs
  · cases result with
    | executed id => exact done_withExecuted.mpr (.inr hx)
    | pending id deps => exact (done_withVertex h.2.1).mpr hx

theorem onInquiryResult_spec (hwf : Wf w p committed s) (hw : Waits w s [] [] none)
    (h : s.Awaits w p result.id) (hvalid : ValidResults w [result]) :
    ∃ s', onInquiryResult (w.config p) s result = some s' ∧
      ReflTransGen (Move w p) (s.learn w p result) s' ∧ Waits w s' [] [] none := by
  have hwf₁ := hwf.learn h
  obtain ⟨-, hgraph, hdone, hp⟩ := h
  cases result with
  | executed id =>
    obtain ⟨s', hs', hw', hmoves⟩ := (hw.withExecuted hgraph).wakeUp hwf₁
    exact ⟨s', hs', hmoves, hw'⟩
  | pending id deps =>
    obtain rfl := hvalid id deps (mem_singleton_self _)
    obtain ⟨s', hs', hw', hmoves⟩ := (hw.withVertex (p := p) hgraph hdone).resolveNew hwf₁
      ((blocked_withVertex hgraph hdone).mpr (.inl rfl)) (hw.not_registered hgraph hdone)
    refine ⟨s', ?_, hmoves, hw'⟩
    have hgraph' : id ∉ s.graph := hgraph
    have hp' : p ∉ w.participants id := hp
    simpa [onInquiryResult, AssocMap.insertNew, hgraph', Scheduler.learn, InquiryResult.id,
      Scheduler.withVertex, hp'] using hs'

theorem onInternalResponseReceived_spec (hp : p < w.numPartitions) (hwf : Wf w p committed s)
    (hw : Waits w s [] [] none) {results : List InquiryResult}
    (hnodup : (results.map InquiryResult.id).Nodup)
    (h : ∀ x ∈ results.map InquiryResult.id, s.Awaits w p x) (hvalid : ValidResults w results) :
    ∃ s', onInternalResponseReceived (w.config p) s results = some s' ∧ Learns w p results s s' ∧
      Wf w p committed s' ∧ Waits w s' [] [] none ∧
      Effects w p (fun q x => if q = p then (results.map InquiryResult.id).count x else 0) s s' := by
  rw [onInternalResponseReceived]
  induction results generalizing s with
  | nil =>
    refine ⟨s, rfl, .nil, hwf, hw, ⟨fun q x => ?_, fun x _ hx => hx, fun hs => hs, fun hs => hs,
      fun x hx => hx⟩⟩
    simp
  | cons result results ih =>
    obtain ⟨hnot, hnodup'⟩ := nodup_cons.mp hnodup
    have hawaits := h result.id mem_cons_self
    obtain ⟨s₁, hs₁, hmoves, hw₁⟩ := onInquiryResult_spec hwf hw hawaits fun id deps hd =>
      hvalid id deps (mem_cons.mpr (.inl (mem_singleton.mp hd)))
    have hwfl := hwf.learn hawaits
    have heffects := (learn_effects hawaits).trans (hwfl.effects hp hmoves)
    obtain ⟨s', hs', hlearns, hwf', hw', heffects'⟩ := ih (hwfl.of_moves hmoves) hw₁ hnodup'
      (fun x hx => heffects.awaits x (by
        have hne : x ≠ result.id := fun heq => hnot (heq ▸ hx)
        simp [hne]) (h x (mem_cons_of_mem _ hx)))
      fun id deps hd => hvalid id deps (mem_cons_of_mem _ hd)
    refine ⟨s', ?_, .cons hawaits hmoves hlearns, hwf', hw', ?_⟩
    · rw [foldlM_cons, hs₁]
      exact hs'
    · convert heffects.trans heffects' using 2 with q
      funext x
      by_cases hq : q = p <;> by_cases hx : x = result.id <;>
        simp [hq, hx, Ne.symm, count_cons, add_comm]

end Scheduler

end Janus
