/-
# Snapshots of a search for strongly connected components

A depth-first search numbers the vertices as it meets them, and keeps on a stack those whose
component it has not closed yet.  `gray` are the vertices whose neighbours it is going through,
`done` those of closed components.  `Inv` holds in every snapshot of the search; the rules below say
what keeps it: meeting a new vertex, closing the component on top of the stack, and finishing a
vertex whose component stays open.

That what is closed is one component, and not several at once, needs one thing more, `Up`: every
vertex of the stack reaches a gray one below it.  Whoever decides from numbers whether a component
can be closed has to see to it.
-/
import Penteract.Lib.Components

namespace Tarjan

open List Function Relation

variable {V : Type*} {E : V → V → Prop} {num : V → ℕ} {stack new rest gray : List V}
  {done : V → Prop} {v : V}

/-- The top of the stack comes first; a vertex without a number has not been met. -/
structure Inv (E : V → V → Prop) (num : V → ℕ) (stack gray : List V) (done : V → Prop) : Prop where
  sorted : stack.Pairwise fun x y => num y < num x
  met : ∀ x, num x ≠ 0 ↔ x ∈ stack ∨ done x
  apart : ∀ x ∈ stack, ¬ done x
  grayOnStack : ∀ g ∈ gray, g ∈ stack
  closed : ∀ x, done x → ∀ y, E x y → done y
  black : ∀ x ∈ stack, x ∉ gray → ∀ y, E x y → num y ≠ 0
  down : ∀ g ∈ gray, ∀ x ∈ stack, num g ≤ num x → ReflTransGen E g x

/-- Every vertex of the stack reaches a gray one that is not above it. -/
def Up (E : V → V → Prop) (num : V → ℕ) (stack gray : List V) : Prop :=
  ∀ x ∈ stack, ∃ g ∈ gray, num g ≤ num x ∧ ReflTransGen E x g

theorem inv_nil (E : V → V → Prop) : Inv E (fun _ => 0) [] [] fun _ => False where
  sorted := .nil
  met := by simp
  apart := by simp
  grayOnStack := by simp
  closed := by simp
  black := by simp
  down := by simp

/-! ## The numbers on the stack -/

variable {x : V}

theorem Inv.lt_of_mem_rest (h : Inv E num (new ++ v :: rest) gray done) (hx : x ∈ rest) :
    num x < num v :=
  (pairwise_cons.mp (pairwise_append.mp h.sorted).2.1).1 x hx

theorem Inv.lt_of_mem_new (h : Inv E num (new ++ v :: rest) gray done) (hx : x ∈ new) : num v < num x :=
  (pairwise_append.mp h.sorted).2.2 x hx v mem_cons_self

theorem Inv.mem_top (h : Inv E num (new ++ v :: rest) gray done) :
    x ∈ new ++ [v] ↔ x ∈ new ++ v :: rest ∧ num v ≤ num x := by
  simp only [mem_append, mem_cons, not_mem_nil, or_false]
  constructor
  · rintro (hx | rfl)
    · exact ⟨.inl hx, (h.lt_of_mem_new hx).le⟩
    · exact ⟨.inr (.inl rfl), le_rfl⟩
  · rintro ⟨hx | hx | hx, hle⟩
    · exact .inl hx
    · exact .inr hx
    · exact absurd (h.lt_of_mem_rest hx) hle.not_gt

theorem Inv.not_mem_rest (h : Inv E num (new ++ v :: rest) gray done) (hx : x ∈ new ++ [v]) :
    x ∉ rest :=
  fun hrest => (h.mem_top.mp hx).2.not_gt (h.lt_of_mem_rest hrest)

/-- What a closed vertex reaches is closed. -/
theorem Inv.reach_of_done (h : Inv E num stack gray done) {z : V} (hx : done x)
    (hxz : ReflTransGen E x z) : done z := by
  induction hxz with
  | refl => exact hx
  | tail _ hyz ih => exact h.closed _ ih _ hyz

/-! ## A new vertex -/

theorem Inv.push [DecidableEq V] (h : Inv E num stack gray done) {n : ℕ} (hv : num v = 0)
    (hn : ∀ x, num x < n) (hgray : ∀ g ∈ gray, ReflTransGen E g v) :
    Inv E (Function.update num v n) (v :: stack) (v :: gray) done := by
  have hnot : v ∉ stack ∧ ¬ done v := by
    rw [← not_or, ← h.met v, hv]
    simp
  have hsame {x : V} (hx : x ≠ v) : Function.update num v n x = num x :=
    update_of_ne hx _ _
  have hstack {x : V} (hx : x ∈ stack) : Function.update num v n x = num x :=
    hsame fun heq => hnot.1 (heq ▸ hx)
  refine ⟨?_, fun x => ?_, fun x hx => ?_, fun g hg => ?_, h.closed, fun x hx hxg y hy => ?_,
    fun g hg x hx hle => ?_⟩
  · refine pairwise_cons.mpr ⟨fun x hx => ?_, ?_⟩
    · rw [hstack hx, update_self]
      exact hn x
    · refine h.sorted.imp_of_mem fun {x y} hx hy hlt => ?_
      rwa [hstack hx, hstack hy]
  · rcases eq_or_ne x v with rfl | hx
    · have hpos := hn x
      simp only [update_self, mem_cons, true_or, iff_true]
      omega
    · rw [hsame hx, h.met x]
      simp [hx]
  · rcases mem_cons.mp hx with rfl | hx
    · exact hnot.2
    · exact h.apart x hx
  · rcases mem_cons.mp hg with rfl | hg
    · exact mem_cons_self
    · exact mem_cons_of_mem _ (h.grayOnStack g hg)
  · obtain ⟨hxv, hxg⟩ := not_or.mp (mt mem_cons.mpr hxg)
    have hy' := h.black x ((mem_cons.mp hx).resolve_left hxv) hxg y hy
    have hyv : y ≠ v := by
      rintro rfl
      exact hy' hv
    rwa [hsame hyv]
  · rcases mem_cons.mp hg with rfl | hg'
    · rcases mem_cons.mp hx with rfl | hx
      · exact .refl
      · rw [update_self, hstack hx] at hle
        exact absurd (hn x) hle.not_gt
    · rcases mem_cons.mp hx with rfl | hx
      · exact hgray g hg'
      · rw [hstack (h.grayOnStack g hg'), hstack hx] at hle
        exact h.down g hg' x hx hle

theorem Up.push [DecidableEq V] (hup : Up E num stack gray) (h : Inv E num stack gray done)
    (hv : num v = 0) (n : ℕ) : Up E (Function.update num v n) (v :: stack) (v :: gray) := by
  have hstack {x : V} (hx : x ∈ stack) : Function.update num v n x = num x := by
    refine update_of_ne (fun heq => ?_) _ _
    exact (h.met x).mpr (.inl hx) (heq ▸ hv)
  intro x hx
  rcases mem_cons.mp hx with rfl | hx
  · exact ⟨x, mem_cons_self, le_rfl, .refl⟩
  · obtain ⟨g, hg, hle, hreach⟩ := hup x hx
    refine ⟨g, mem_cons_of_mem _ hg, ?_, hreach⟩
    rwa [hstack (h.grayOnStack g hg), hstack hx]

/-! ## Closing the component on top of the stack -/

section Close

variable (h : Inv E num (new ++ v :: rest) (v :: gray) done) (hgray : ∀ g ∈ gray, g ∈ rest)
  (hnext : ∀ y, E v y → num y ≠ 0) (hstay : ∀ x ∈ new ++ [v], ∀ y ∈ rest, ¬ E x y)

include h hgray hnext hstay

variable {x z : V}

/-- The edges out of the top of the stack end in it, or in closed components. -/
theorem Inv.edge_of_top {y : V} (hx : x ∈ new ++ [v]) (hxy : E x y) : y ∈ new ++ [v] ∨ done y := by
  have hmet : num y ≠ 0 := by
    rcases mem_append.mp hx with hnew | hv
    · refine h.black x (mem_append_left _ hnew) (fun hg => ?_) y hxy
      rcases mem_cons.mp hg with rfl | hg
      · exact absurd (h.lt_of_mem_new hnew) (lt_irrefl _)
      · exact h.not_mem_rest hx (hgray x hg)
    · obtain rfl := mem_singleton.mp hv
      exact hnext y hxy
  rcases (h.met y).mp hmet with hy | hy
  · rw [append_cons, mem_append] at hy
    exact .inl (hy.resolve_right fun hrest => hstay x hx y hrest hxy)
  · exact .inr hy

theorem Inv.reach_of_top (hx : x ∈ new ++ [v]) (hxz : ReflTransGen E x z) :
    z ∈ new ++ [v] ∨ done z := by
  induction hxz with
  | refl => exact .inl hx
  | tail _ hyz ih =>
    rcases ih with hy | hy
    · exact h.edge_of_top hgray hnext hstay hy hyz
    · exact .inr (h.closed _ hy _ hyz)

theorem Inv.pop : Inv E num rest gray fun x => done x ∨ x ∈ new ++ [v] := by
  have hsub {x : V} (hx : x ∈ rest) : x ∈ new ++ v :: rest :=
    mem_append_right _ (mem_cons_of_mem _ hx)
  refine ⟨(pairwise_cons.mp (pairwise_append.mp h.sorted).2.1).2, fun x => ?_,
    fun x hx hdone => ?_, hgray, fun x hx y hxy => ?_, fun x hx hxg y hxy => ?_,
    fun g hg x hx hle => ?_⟩
  · rw [h.met x, append_cons, mem_append (t := rest)]
    tauto
  · rcases hdone with hdone | htop
    · exact h.apart x (hsub hx) hdone
    · exact h.not_mem_rest htop hx
  · rcases hx with hx | hx
    · exact .inl (h.closed x hx y hxy)
    · exact (h.edge_of_top hgray hnext hstay hx hxy).symm
  · refine h.black x (hsub hx) (fun hmem => ?_) y hxy
    rcases mem_cons.mp hmem with rfl | hmem
    · exact absurd (h.lt_of_mem_rest hx) (lt_irrefl _)
    · exact hxg hmem
  · exact h.down g (mem_cons_of_mem _ hg) x (hsub hx) hle

omit hgray hnext hstay in
theorem Up.pop (hup : Up E num (new ++ v :: rest) (v :: gray)) : Up E num rest gray := by
  intro x hx
  obtain ⟨g, hg, hle, hreach⟩ := hup x (mem_append_right _ (mem_cons_of_mem _ hx))
  rcases mem_cons.mp hg with rfl | hg
  · exact absurd (h.lt_of_mem_rest hx) hle.not_gt
  · exact ⟨g, hg, hle, hreach⟩

/-- **What is closed is the component of `v`.** -/
theorem Inv.connected_iff (hup : Up E num (new ++ v :: rest) (v :: gray)) :
    Components.Connected E v z ↔ z ∈ new ++ [v] := by
  have hvtop : v ∈ new ++ [v] := by simp
  have hapart {x : V} (hx : x ∈ new ++ [v]) : ¬ done x := h.apart x (h.mem_top.mp hx).1
  constructor
  · rintro ⟨hvz, hzv⟩
    exact (h.reach_of_top hgray hnext hstay hvtop hvz).resolve_right fun hz =>
      hapart hvtop (h.reach_of_done hz hzv)
  · intro hz
    obtain ⟨hmem, hle⟩ := h.mem_top.mp hz
    refine ⟨h.down v mem_cons_self z hmem hle, ?_⟩
    obtain ⟨g, hg, -, hreach⟩ := hup z hmem
    rcases mem_cons.mp hg with rfl | hg
    · exact hreach
    · -- a gray vertex below cannot be reached from the top of the stack
      rcases h.reach_of_top hgray hnext hstay hz hreach with htop | hdone
      · exact absurd (hgray g hg) (h.not_mem_rest htop)
      · exact absurd hdone (h.apart g (h.grayOnStack g (mem_cons_of_mem _ hg)))

end Close

/-! ## Finishing a vertex whose component stays open -/

theorem Inv.blacken (h : Inv E num stack (v :: gray) done) (hnext : ∀ y, E v y → num y ≠ 0) :
    Inv E num stack gray done where
  sorted := h.sorted
  met := h.met
  apart := h.apart
  grayOnStack := fun g hg => h.grayOnStack g (mem_cons_of_mem _ hg)
  closed := h.closed
  black := by
    intro x hx hxg y hxy
    rcases eq_or_ne x v with rfl | hxv
    · exact hnext y hxy
    · exact h.black x hx (fun hmem => (mem_cons.mp hmem).elim hxv hxg) y hxy
  down := fun g hg => h.down g (mem_cons_of_mem _ hg)

theorem Up.blacken (h : Inv E num (new ++ v :: rest) (v :: gray) done)
    (hup : Up E num (new ++ v :: rest) (v :: gray)) {y : V} (hy : y ∈ rest)
    (hvy : ReflTransGen E v y) : Up E num (new ++ v :: rest) gray := by
  -- below `v` there is another gray vertex, which `v` reaches through `y`
  obtain ⟨g, hg, hle, hreach⟩ := hup y (mem_append_right _ (mem_cons_of_mem _ hy))
  have hlt := h.lt_of_mem_rest hy
  have hgray : g ∈ gray := by
    rcases mem_cons.mp hg with rfl | hg
    · exact absurd hlt hle.not_gt
    · exact hg
  intro x hx
  obtain ⟨g', hg', hle', hreach'⟩ := hup x hx
  rcases mem_cons.mp hg' with rfl | hg'
  · exact ⟨g, hgray, by omega, (hreach'.trans hvy).trans hreach⟩
  · exact ⟨g', hg', hle', hreach'⟩

end Tarjan
