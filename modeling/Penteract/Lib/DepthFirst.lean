/-
# Iterative depth-first search and the components it yields

The search keeps an explicit stack of pairs `(vertex, done)`.  A vertex is marked when it is
popped with `done = false`; it is then pushed back with `done = true`, below its unmarked
neighbours, and joins the output when that pair is popped.  The output is built latest first.

`IsPostorder E out` is the one property of the output that matters: at the moment `u` is
finished, an edge out of the finished vertices leads to a finished vertex or to one that
reaches `u`.  `IsPostorder.reach` turns it into the second half of the two-pass component
algorithm: walking backwards from `r` over the vertices finished no later than `r` stays
inside the component of `r`.
-/
import Mathlib

namespace DepthFirst

open List Relation

variable {V : Type*} [DecidableEq V]

/-! ## The search -/

/-- The loop: fuel, stack, marks, output (latest first). -/
def dfs (adj : V → Option (List V)) (ok : V → Bool) :
    ℕ → List (V × Bool) → List V → List V → Option (List V × List V)
  | _, [], vis, out => some (vis, out)
  | 0, _ :: _, _, _ => none
  | n + 1, (v, true) :: st, vis, out => dfs adj ok n st vis (v :: out)
  | n + 1, (v, false) :: st, vis, out =>
    (adj v).bind fun vs =>
      if v ∈ vis then dfs adj ok n st vis out
      else
        let next := vs.filter fun w => ok w && decide (w ∉ v :: vis)
        dfs adj ok n ((next.map (·, false)).reverse ++ (v, true) :: st) (v :: vis) out

/-- Start a search at every acceptable vertex of `order` that has no mark yet. -/
def dfsAll (adj : V → Option (List V)) (ok : V → Bool) (fuel : ℕ) :
    List V → List V → List V → Option (List V × List V)
  | [], vis, out => some (vis, out)
  | v :: order, vis, out =>
    if v ∈ vis ∨ ok v = false then dfsAll adj ok fuel order vis out
    else
      (dfs adj ok fuel [(v, false)] vis out).bind fun r =>
        dfsAll adj ok fuel order r.1 r.2

/-- The edges the search follows. -/
def Edge (adj : V → Option (List V)) (ok : V → Bool) (u v : V) : Prop :=
  (∃ vs, adj u = some vs ∧ v ∈ vs) ∧ ok v = true

/-! ## Postorders -/

/-- `out` lists finished vertices, latest first. -/
def IsPostorder (E : V → V → Prop) (out : List V) : Prop :=
  ∀ a ∈ out, ∀ u ∈ out, out.idxOf u ≤ out.idxOf a → ∀ v, E a v →
    (v ∈ out ∧ out.idxOf u ≤ out.idxOf v) ∨ ReflTransGen E v u

theorem isPostorder_nil (E : V → V → Prop) : IsPostorder E [] := by
  intro a ha
  cases ha

variable {E : V → V → Prop} {out vis : List V} {st : List (V × Bool)} {v : V}
  {adj : V → Option (List V)} {ok : V → Bool}

/-- Finishing one more vertex: every edge out of the finished part now ends in it or at a
vertex that reaches the new one. -/
theorem IsPostorder.cons {u : V} (h : IsPostorder E out) (hu : u ∉ out)
    (hedge : ∀ a ∈ u :: out, ∀ v, E a v → v ∈ u :: out ∨ ReflTransGen E v u) :
    IsPostorder E (u :: out) := by
  have hidx : ∀ x ∈ out, (u :: out).idxOf x = out.idxOf x + 1 := by
    intro x hx
    rw [idxOf_cons_ne]
    rintro rfl
    exact hu hx
  intro a ha w hw hle v hav
  rcases mem_cons.mp hw with rfl | hw'
  · rcases hedge a ha v hav with h1 | h1
    · exact Or.inl ⟨h1, by rw [idxOf_cons_self]; exact Nat.zero_le _⟩
    · exact Or.inr h1
  · rcases mem_cons.mp ha with rfl | ha'
    · rw [hidx w hw', idxOf_cons_self] at hle
      omega
    · rw [hidx w hw', hidx a ha'] at hle
      rcases h a ha' w hw' (by omega) v hav with ⟨hv, hv'⟩ | h1
      · refine Or.inl ⟨mem_cons_of_mem u hv, ?_⟩
        rw [hidx w hw', hidx v hv]
        omega
      · exact Or.inr h1

/-- **The backward walk stays in the component.**  If `x` reaches `r` through vertices that
were finished no later than `r`, then `r` reaches `x`. -/
theorem IsPostorder.reach (h : IsPostorder E out) {r x : V} (hx : x ∈ out)
    (hrx : out.idxOf r ≤ out.idxOf x)
    (hpath : ReflTransGen (fun a b => E a b ∧ b ∈ out ∧ out.idxOf r ≤ out.idxOf b) x r) :
    ReflTransGen E r x := by
  -- strengthened: whoever was finished no earlier than `x` is reached as well
  suffices hall : ∀ u ∈ out, out.idxOf r ≤ out.idxOf u → out.idxOf u ≤ out.idxOf x →
      ReflTransGen E r u from hall x hx hrx le_rfl
  induction hpath using ReflTransGen.head_induction_on with
  | refl =>
    intro u hu hru hur
    have : u = r := (idxOf_inj hu).mp (le_antisymm hur hru)
    exact this ▸ .refl
  | @head a b hab _ ih =>
    obtain ⟨hE, hb, hrb⟩ := hab
    intro u hu hru hua
    rcases h a hx u hu hua b hE with ⟨-, hub⟩ | hbu
    · exact ih hb hrb u hu hru hub
    · exact (ih hb hrb b hb hrb le_rfl).trans hbu

/-! ## The invariant of the stack -/

/-- `vis` are the marked vertices, `out` the finished ones, and a pair `(g, true)` on the
stack is a vertex that is marked but not finished. -/
structure Inv (E : V → V → Prop) (st : List (V × Bool)) (vis out : List V) : Prop where
  marked : ∀ v, v ∈ vis ↔ v ∈ out ∨ (v, true) ∈ st
  apart : ∀ v, (v, true) ∈ st → v ∉ out
  once : st.Pairwise fun x y => x.2 = true → y.2 = true → x.1 ≠ y.1
  path : st.Pairwise fun x y => y.2 = true → ReflTransGen E y.1 x.1
  open_ : ∀ A B g, st = A ++ (g, true) :: B → ∀ w, E g w → w ∈ vis ∨ (w, false) ∈ A
  closed : ∀ a ∈ out, ∀ w, E a w → w ∈ vis
  nodup : out.Nodup
  post : IsPostorder E out

theorem inv_nil (hclosed : ∀ a ∈ out, ∀ w, E a w → w ∈ out) (hnd : out.Nodup)
    (hpost : IsPostorder E out) (hvis : ∀ v, v ∈ vis ↔ v ∈ out) (r : V) :
    Inv E [(r, false)] vis out where
  marked := by simp [hvis]
  apart := by simp
  once := pairwise_singleton _ _
  path := pairwise_singleton _ _
  open_ := by
    intro A B g h
    have hm : (g, true) ∈ [(r, false)] := h ▸ mem_append_right _ mem_cons_self
    simp at hm
  closed := fun a ha w hw => (hvis w).mpr (hclosed a ha w hw)
  nodup := hnd
  post := hpost

/-- Popping a marked vertex that is not done: nothing is left to do for it. -/
theorem Inv.skip (h : Inv E ((v, false) :: st) vis out) (hv : v ∈ vis) : Inv E st vis out where
  marked := by
    intro w
    rw [h.marked, mem_cons]
    simp
  apart := fun w hw => h.apart w (mem_cons_of_mem _ hw)
  once := h.once.tail
  path := h.path.tail
  open_ := by
    intro A B g hst w hw
    rcases h.open_ ((v, false) :: A) B g (by rw [hst]; rfl) w hw with h1 | h1
    · exact Or.inl h1
    · rcases mem_cons.mp h1 with h2 | h2
      · exact Or.inl ((Prod.mk.inj h2).1 ▸ hv)
      · exact Or.inr h2
  closed := h.closed
  nodup := h.nodup
  post := h.post

/-- Finishing the vertex on top of the stack. -/
theorem Inv.finish (h : Inv E ((v, true) :: st) vis out) : Inv E st vis (v :: out) := by
  have hvout : v ∉ out := h.apart v mem_cons_self
  have hgray : ∀ g, (g, true) ∈ st → g ≠ v ∧ ReflTransGen E g v := by
    intro g hg
    exact ⟨((pairwise_cons.mp h.once).1 _ hg rfl rfl).symm,
      (pairwise_cons.mp h.path).1 _ hg rfl⟩
  have hmarked : ∀ w, w ∈ vis ↔ w ∈ v :: out ∨ (w, true) ∈ st := by
    intro w
    rw [h.marked, mem_cons, mem_cons, Prod.mk.injEq]
    tauto
  have hstep : ∀ a ∈ v :: out, ∀ w, E a w → w ∈ vis := by
    intro a ha w hw
    rcases mem_cons.mp ha with rfl | ha
    · rcases h.open_ [] st a rfl w hw with h1 | h1
      · exact h1
      · cases h1
    · exact h.closed a ha w hw
  refine ⟨hmarked, ?_, h.once.tail, h.path.tail, ?_, hstep, ?_, ?_⟩
  · intro w hw hm
    rcases mem_cons.mp hm with rfl | hm
    · exact (hgray _ hw).1 rfl
    · exact h.apart w (mem_cons_of_mem _ hw) hm
  · intro A B g hst w hw
    rcases h.open_ ((v, true) :: A) B g (by rw [hst]; rfl) w hw with h1 | h1
    · exact Or.inl h1
    · rcases mem_cons.mp h1 with h2 | h2
      · cases h2
      · exact Or.inr h2
  · exact nodup_cons.mpr ⟨hvout, h.nodup⟩
  · apply h.post.cons hvout
    intro a ha w hw
    rcases (hmarked w).mp (hstep a ha w hw) with h1 | h1
    · exact Or.inl h1
    · exact Or.inr (hgray w h1).2

/-- Visiting an unmarked vertex: it turns gray, its unmarked neighbours go on top. -/
theorem Inv.visit (h : Inv E ((v, false) :: st) vis out) (hv : v ∉ vis) (next : List V)
    (hnext : ∀ w ∈ next, E v w) (hall : ∀ w, E v w → w ∈ v :: vis ∨ w ∈ next) :
    Inv E ((next.map (·, false)).reverse ++ (v, true) :: st) (v :: vis) out := by
  have htop : ∀ x ∈ (next.map (·, false)).reverse, x.2 = false ∧ E v x.1 := by
    intro x hx
    rw [mem_reverse, mem_map] at hx
    obtain ⟨w, hw, rfl⟩ := hx
    exact ⟨rfl, hnext w hw⟩
  have hvst : ∀ g, (g, true) ∈ st → g ≠ v := by
    rintro g hg rfl
    exact hv ((h.marked g).mpr (Or.inr (mem_cons_of_mem _ hg)))
  have hreach : ∀ g, (g, true) ∈ st → ReflTransGen E g v := fun g hg =>
    (pairwise_cons.mp h.path).1 _ hg rfl
  refine ⟨?_, ?_, ?_, ?_, ?_, ?_, h.nodup, h.post⟩
  · intro w
    rw [mem_cons, h.marked, mem_append, mem_cons, mem_cons]
    constructor
    · rintro (rfl | h1 | h1 | h1)
      · exact Or.inr (Or.inr (Or.inl rfl))
      · exact Or.inl h1
      · cases h1
      · exact Or.inr (Or.inr (Or.inr h1))
    · rintro (h1 | h1 | h1 | h1)
      · exact Or.inr (Or.inl h1)
      · exact absurd (htop _ h1).1 (by simp)
      · exact Or.inl (Prod.mk.inj h1).1
      · exact Or.inr (Or.inr (Or.inr h1))
  · intro w hw
    rcases mem_append.mp hw with h1 | h1
    · exact absurd (htop _ h1).1 (by simp)
    · rcases mem_cons.mp h1 with h2 | h2
      · intro hm
        exact hv ((h.marked v).mpr (Or.inl ((Prod.mk.inj h2).1 ▸ hm)))
      · exact h.apart w (mem_cons_of_mem _ h2)
  · rw [pairwise_append, pairwise_cons]
    refine ⟨?_, ⟨?_, h.once.tail⟩, ?_⟩
    · exact pairwise_of_forall_mem_list fun x hx y _ hx' => by
        rw [(htop x hx).1] at hx'; cases hx'
    · rintro ⟨g, b⟩ hy - (rfl : b = true) heq
      exact hvst g hy heq.symm
    · intro x hx y _ hx'
      rw [(htop x hx).1] at hx'; cases hx'
  · rw [pairwise_append, pairwise_cons]
    refine ⟨?_, ⟨?_, h.path.tail⟩, ?_⟩
    · exact pairwise_of_forall_mem_list fun x _ y hy hy' => by
        rw [(htop y hy).1] at hy'; cases hy'
    · rintro ⟨g, b⟩ hy (rfl : b = true)
      exact hreach g hy
    · rintro x hx ⟨g, b⟩ hy (rfl : b = true)
      rcases mem_cons.mp hy with h2 | h2
      · exact (Prod.mk.inj h2).1 ▸ .single (htop x hx).2
      · exact (hreach g h2).tail (htop x hx).2
  · intro A B g hst w hw
    rcases append_eq_append_iff.mp hst with ⟨A', hA, hB⟩ | ⟨A', hA, hB⟩
    · cases A' with
      | nil =>
        rw [nil_append, List.cons.injEq, Prod.mk.injEq] at hB
        obtain ⟨⟨rfl, -⟩, -⟩ := hB
        rcases hall w hw with h1 | h1
        · exact Or.inl h1
        · right
          rw [hA, append_nil, mem_reverse, mem_map]
          exact ⟨w, h1, rfl⟩
      | cons x A'' =>
        rw [cons_append, List.cons.injEq] at hB
        obtain ⟨rfl, hB⟩ := hB
        rcases h.open_ ((v, false) :: A'') B g (by rw [hB]; rfl) w hw with h1 | h1
        · exact Or.inl (mem_cons_of_mem v h1)
        · rcases mem_cons.mp h1 with h2 | h2
          · exact Or.inl ((Prod.mk.inj h2).1 ▸ mem_cons_self)
          · right
            rw [hA]
            exact mem_append_right _ (mem_cons_of_mem _ h2)
    · cases A' with
      | nil =>
        rw [nil_append, List.cons.injEq, Prod.mk.injEq] at hB
        obtain ⟨⟨rfl, -⟩, -⟩ := hB
        rcases hall _ hw with h1 | h1
        · exact Or.inl h1
        · right
          rw [append_nil] at hA
          rw [← hA, mem_reverse, mem_map]
          exact ⟨w, h1, rfl⟩
      | cons x A'' =>
        rw [cons_append, List.cons.injEq] at hB
        obtain ⟨rfl, -⟩ := hB
        have := htop (g, true) (hA ▸ mem_append_right _ mem_cons_self)
        exact absurd this.1 (by simp)
  · exact fun a ha w hw => mem_cons_of_mem v (h.closed a ha w hw)

/-! ## Correctness of the search -/

/-- What the fuel has to pay for: the pairs on the stack, and for every unmarked vertex of
`N` its own pair and one for each neighbour. -/
def cost (adj : V → Option (List V)) (N vis : List V) : ℕ :=
  ((N.filter (· ∉ vis)).map fun v => 1 + ((adj v).getD []).length).sum

variable {N : List V} {fuel : ℕ}

theorem cost_mark {vs : List V} (hvN : v ∈ N) (hv : v ∉ vis) (hvs : adj v = some vs) :
    cost adj N (v :: vis) + (1 + vs.length) ≤ cost adj N vis := by
  set f : V → ℕ := fun x => 1 + ((adj x).getD []).length with hf
  have hfil : N.filter (· ∉ v :: vis) = (N.filter (· ∉ vis)).filter (· ≠ v) := by
    rw [filter_filter]
    apply filter_congr
    intro x _
    by_cases hx : x = v <;> simp [hx]
  have hmem : v ∈ N.filter (· ∉ vis) := by simp [hvN, hv]
  have hperm := perm_cons_erase hmem
  have hsum := (hperm.map f).sum_eq
  have hrest := ((hperm.filter (· ≠ v)).map f).sum_eq
  rw [filter_cons_of_neg (by simp)] at hrest
  have hle := ((filter_sublist (p := (· ≠ v))
    (l := (N.filter (· ∉ vis)).erase v)).map f).sum_le_sum fun x _ => Nat.zero_le x
  have hfv : f v = 1 + vs.length := by rw [hf]; simp [hvs]
  rw [map_cons, sum_cons, hfv] at hsum
  rw [cost, cost, hfil, hrest, hsum]
  omega

/-- **One search.**  `N` is closed under the edges, the stack and the output lie in `N`; then
the search ends with every pair of the stack finished. -/
theorem dfs_spec (N : List V) (hadj : ∀ u ∈ N, ∃ vs, adj u = some vs ∧ ∀ v ∈ vs, ok v = true → v ∈ N)
    (fuel : ℕ) (hst : ∀ x ∈ st, x.1 ∈ N ∧ ok x.1 = true) (hinv : Inv (Edge adj ok) st vis out)
    (hout : ∀ v ∈ out, v ∈ N ∧ ok v = true) (hfuel : st.length + cost adj N vis ≤ fuel) :
    ∃ vis' out', dfs adj ok fuel st vis out = some (vis', out') ∧
      Inv (Edge adj ok) [] vis' out' ∧ (∀ v ∈ out', v ∈ N ∧ ok v = true) ∧
      (∀ v ∈ vis, v ∈ vis') ∧ (∀ x ∈ st, x.1 ∈ vis') := by
  induction fuel generalizing st vis out with
  | zero =>
    have hnil : st = [] := eq_nil_of_length_eq_zero (by omega)
    subst hnil
    exact ⟨vis, out, by simp [dfs], hinv, hout, fun v hv => hv, by simp⟩
  | succ n ih =>
    rcases st with _ | ⟨⟨v, done⟩, st⟩
    · exact ⟨vis, out, by simp [dfs], hinv, hout, fun v hv => hv, by simp⟩
    have hvN : v ∈ N ∧ ok v = true := hst (v, done) mem_cons_self
    have hst' : ∀ x ∈ st, x.1 ∈ N ∧ ok x.1 = true := fun x hx =>
      hst x (mem_cons_of_mem _ hx)
    rw [length_cons] at hfuel
    cases done with
    | true =>
      have hvvis : v ∈ vis := (hinv.marked v).mpr (Or.inr mem_cons_self)
      obtain ⟨vis', out', h1, h2, h3, h4, h5⟩ := ih hst' hinv.finish
        (fun w hw => (mem_cons.mp hw).elim (fun h => h ▸ hvN) (hout w)) (by omega)
      exact ⟨vis', out', by rw [dfs]; exact h1, h2, h3, h4, fun x hx =>
        (mem_cons.mp hx).elim (fun h => h ▸ h4 v hvvis) (h5 x)⟩
    | false =>
      obtain ⟨vs, hvs, hclosed⟩ := hadj v hvN.1
      by_cases hv : v ∈ vis
      · obtain ⟨vis', out', h1, h2, h3, h4, h5⟩ :=
          ih hst' (hinv.skip hv) hout (by omega)
        refine ⟨vis', out', ?_, h2, h3, h4, fun x hx =>
          (mem_cons.mp hx).elim (fun h => h ▸ h4 v hv) (h5 x)⟩
        simp only [dfs, hvs, Option.bind_some, if_pos hv]
        exact h1
      · set next := vs.filter fun w => ok w && decide (w ∉ v :: vis) with hnextdef
        have hnext : ∀ w, w ∈ next ↔ w ∈ vs ∧ ok w = true ∧ w ∉ v :: vis := by
          intro w
          rw [hnextdef, mem_filter, Bool.and_eq_true, decide_eq_true_iff]
        have hinv' := hinv.visit hv next
          (fun w hw => ⟨⟨vs, hvs, ((hnext w).mp hw).1⟩, ((hnext w).mp hw).2.1⟩) (by
            rintro w ⟨⟨vs', hvs', hw⟩, hwok⟩
            rw [hvs, Option.some_inj] at hvs'
            by_cases hm : w ∈ v :: vis
            · exact Or.inl hm
            · exact Or.inr ((hnext w).mpr ⟨hvs' ▸ hw, hwok, hm⟩))
        have hpush : ∀ x ∈ (next.map (·, false)).reverse ++ (v, true) :: st,
            x.1 ∈ N ∧ ok x.1 = true := by
          intro x hx
          rcases mem_append.mp hx with h1 | h1
          · rw [mem_reverse, mem_map] at h1
            obtain ⟨w, hw, rfl⟩ := h1
            obtain ⟨h1, h2, -⟩ := (hnext w).mp hw
            exact ⟨hclosed w h1 h2, h2⟩
          · rcases mem_cons.mp h1 with rfl | h2
            · exact hvN
            · exact hst' x h2
        have hcost := cost_mark hvN.1 hv hvs
        have hlen : next.length ≤ vs.length := length_filter_le _ _
        obtain ⟨vis', out', h1, h2, h3, h4, h5⟩ := ih hpush hinv' hout (by
          rw [length_append, length_reverse, length_map, length_cons]
          omega)
        refine ⟨vis', out', ?_, h2, h3, fun w hw => h4 w (mem_cons_of_mem v hw), ?_⟩
        · simp only [dfs, hvs, Option.bind_some, if_neg hv]
          exact h1
        · intro x hx
          rcases mem_cons.mp hx with rfl | hx
          · exact h4 _ mem_cons_self
          · exact h5 x (mem_append_right _ (mem_cons_of_mem _ hx))

theorem cost_le_of_subset : cost adj N vis ≤ cost adj N [] := by
  have h : (N.filter (· ∉ vis)).Sublist (N.filter (· ∉ ([] : List V))) := by
    rw [show N.filter (· ∉ ([] : List V)) = N by simp]
    exact filter_sublist
  exact (h.map _).sum_le_sum fun x _ => Nat.zero_le x

/-- **All searches.**  The output is a postorder of exactly the acceptable vertices. -/
theorem dfsAll_spec (N : List V) (hadj : ∀ u ∈ N, ∃ vs, adj u = some vs ∧ ∀ v ∈ vs, ok v = true → v ∈ N)
    (hfuel : 1 + cost adj N [] ≤ fuel) {order : List V} (horder : ∀ v ∈ order, v ∈ N)
    (hinv : Inv (Edge adj ok) [] vis out) (hout : ∀ v ∈ out, v ∈ N ∧ ok v = true) :
    ∃ vis' out', dfsAll adj ok fuel order vis out = some (vis', out') ∧
      Inv (Edge adj ok) [] vis' out' ∧ (∀ v ∈ out', v ∈ N ∧ ok v = true) ∧
      (∀ v ∈ vis, v ∈ vis') ∧ (∀ v ∈ order, ok v = true → v ∈ vis') := by
  induction order generalizing vis out with
  | nil => exact ⟨vis, out, rfl, hinv, hout, fun v hv => hv, by simp⟩
  | cons v order ih =>
    have horder' : ∀ w ∈ order, w ∈ N := fun w hw => horder w (mem_cons_of_mem v hw)
    by_cases hskip : v ∈ vis ∨ ok v = false
    · obtain ⟨vis', out', h1, h2, h3, h4, h5⟩ := ih horder' hinv hout
      refine ⟨vis', out', by rw [dfsAll, if_pos hskip]; exact h1, h2, h3, h4, ?_⟩
      intro w hw hwok
      rcases mem_cons.mp hw with rfl | hw
      · rcases hskip with h | h
        · exact h4 w h
        · rw [h] at hwok; cases hwok
      · exact h5 w hw hwok
    · have hvok : ok v = true := by
        rw [not_or] at hskip
        simpa using hskip.2
      have hvis : ∀ w, w ∈ vis ↔ w ∈ out := by simpa using hinv.marked
      have hstart : Inv (Edge adj ok) [(v, false)] vis out :=
        inv_nil (fun a ha w hw => (hvis w).mp (hinv.closed a ha w hw)) hinv.nodup hinv.post
          hvis v
      have hcost : cost adj N vis ≤ cost adj N [] := cost_le_of_subset
      obtain ⟨vis₁, out₁, h1, h2, h3, h4, h5⟩ := dfs_spec N hadj fuel
        (by simpa using ⟨horder v mem_cons_self, hvok⟩) hstart hout
        (by rw [length_singleton]; omega)
      obtain ⟨vis', out', k1, k2, k3, k4, k5⟩ := ih horder' h2 h3
      refine ⟨vis', out', ?_, k2, k3, fun w hw => k4 w (h4 w hw), ?_⟩
      · rw [dfsAll, if_neg hskip, h1]
        exact k1
      · intro w hw hwok
        rcases mem_cons.mp hw with rfl | hw
        · exact k4 w (h5 (w, false) mem_cons_self)
        · exact k5 w hw hwok

/-- The searches from an empty start, with `N` itself as the order of the roots. -/
theorem dfsAll_postorder (order : List V)
    (hadj : ∀ u ∈ order, ∃ vs, adj u = some vs ∧ ∀ v ∈ vs, ok v = true → v ∈ order)
    (hfuel : 1 + cost adj order [] ≤ fuel) :
    ∃ vis out, dfsAll adj ok fuel order [] [] = some (vis, out) ∧ out.Nodup ∧
      (∀ v, v ∈ out ↔ v ∈ order ∧ ok v = true) ∧ IsPostorder (Edge adj ok) out := by
  have hstart : Inv (Edge adj ok) [] [] [] :=
    ⟨by simp, by simp, Pairwise.nil, Pairwise.nil, by simp, by simp, nodup_nil,
      isPostorder_nil _⟩
  obtain ⟨vis, out, h1, h2, h3, -, h5⟩ :=
    dfsAll_spec order hadj hfuel (fun v hv => hv) hstart (by simp)
  have hvis : ∀ w, w ∈ vis ↔ w ∈ out := by simpa using h2.marked
  exact ⟨vis, out, h1, h2.nodup, fun v => ⟨h3 v, fun hv => (hvis v).mp (h5 v hv.1 hv.2)⟩,
    h2.post⟩

end DepthFirst
