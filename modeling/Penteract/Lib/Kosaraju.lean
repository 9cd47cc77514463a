/-
# The second pass of the component search

A depth-first search has listed the vertices in the order in which they were finished, latest
first (`DepthFirst.IsPostorder`).  The second pass goes through that list and, from every
vertex that carries no mark yet, searches backwards among the vertices that are not behind it.
Each such search finds exactly one strongly connected component.
-/
import Penteract.Lib.Components
import Penteract.Lib.Search
import Penteract.Lib.DepthFirst

open Relation

namespace Search

variable {V : Type*} [DecidableEq V]

/-- Marks on the start vertices only do not hide anything: what is reached at all is reached
by a path that does not come back to a start vertex. -/
theorem reach_of_marked_starts {adj : V → Option (List V)} {look : V → Option Bool}
    {queue : List V} {v : V} :
    (∃ u ∈ queue, ReflTransGen (Follows adj look queue) u v) ↔
      ∃ u ∈ queue, ReflTransGen (Follows adj look []) u v := by
  constructor
  · rintro ⟨u, hu, h⟩
    exact ⟨u, hu, ReflTransGen.mono (fun a b hab => ⟨hab.1, hab.2.1, List.not_mem_nil⟩) _ _ h⟩
  · rintro ⟨u, hu, h⟩
    induction h with
    | refl => exact ⟨u, hu, .refl⟩
    | @tail b c _ hbc ih =>
      by_cases hc : c ∈ queue
      · exact ⟨c, hc, .refl⟩
      · obtain ⟨w, hw, hwb⟩ := ih
        exact ⟨w, hw, hwb.tail ⟨hbc.1, hbc.2.1, hc⟩⟩

end Search

namespace Kosaraju

open Components Search DepthFirst

variable {V : Type*} [DecidableEq V] {E : V → V → Prop} {done rest : List V} {r : V}

/-- The vertices from position `r` on are those that were finished no later than `r`. -/
theorem idxOf_le_iff (hnd : (done ++ r :: rest).Nodup) {x : V} (hx : x ∈ done ++ r :: rest) :
    (done ++ r :: rest).idxOf r ≤ (done ++ r :: rest).idxOf x ↔ x ∈ r :: rest := by
  have hr : r ∉ done := fun h => (List.disjoint_of_nodup_append hnd) h List.mem_cons_self
  have hidx : (done ++ r :: rest).idxOf r = done.length := by
    rw [List.idxOf_append_of_notMem hr, List.idxOf_cons_self, Nat.add_zero]
  rw [hidx]
  by_cases hd : x ∈ done
  · rw [List.idxOf_append_of_mem hd]
    have hlt := List.idxOf_lt_length_of_mem hd
    have hnr : x ∉ r :: rest := fun h => (List.disjoint_of_nodup_append hnd) hd h
    exact iff_of_false (by omega) hnr
  · rw [List.idxOf_append_of_notMem hd]
    exact iff_of_true (Nat.le_add_right _ _) ((List.mem_append.mp hx).resolve_left hd)

section Pass

variable {adj : V → Option (List V)} {look : V → Option Bool} {vis : List V}

/-- The backward search from `r` finds the component of `r`: the postorder brings every vertex
found back to `r`, and the component is still there as a whole because its vertices are marked
together. -/
theorem search_component (hnd : (done ++ r :: rest).Nodup)
    (hpost : IsPostorder E (done ++ r :: rest))
    (hE : ∀ u v, E u v → u ∈ done ++ r :: rest ∧ v ∈ done ++ r :: rest)
    (hadj : ∀ u ∈ r :: rest, ∃ vs, adj u = some vs ∧ (∀ v ∈ r :: rest, v ∈ vs ↔ E v u) ∧
      ∀ v ∈ vs, look v = some (decide (v ∈ r :: rest)))
    (hvis : ∀ x, x ∈ vis ↔ ∃ d ∈ done, Connected E d x) (hr : r ∉ vis)
    {fuel : ℕ} (hfuel : (r :: rest).length ≤ fuel) :
    ∃ scc vis', search adj look fuel [r] (r :: vis) = some (scc, vis') ∧ scc.Nodup ∧
      (∀ x, x ∈ scc ↔ Connected E r x) ∧ ∀ x, x ∈ vis' ↔ x ∈ vis ∨ Connected E r x := by
  have hN : ∀ u ∈ r :: rest, ∃ vs, adj u = some vs ∧
      ∀ v ∈ vs, look v ≠ none ∧ (look v = some true → v ∈ r :: rest) := by
    intro u hu
    obtain ⟨vs, hvs, -, hlook⟩ := hadj u hu
    refine ⟨vs, hvs, fun v hv => ?_⟩
    rw [hlook v hv]
    exact ⟨Option.some_ne_none _, fun h => of_decide_eq_true (Option.some_inj.mp h)⟩
  have hunmarked : [r].length + unmarked (r :: rest) (r :: vis) ≤ fuel := by
    have hle : unmarked (r :: rest) (r :: vis) ≤ rest.length := by
      rw [unmarked, List.filter_cons_of_neg (by simp)]
      exact List.length_filter_le _ _
    rw [List.length_cons] at hfuel
    rw [List.length_singleton]
    omega
  obtain ⟨scc, vis', hs, hvis', hscc, -, hmem⟩ := search_spec (r :: rest) hN
    (by simp) (by simp) (List.nodup_singleton r) hunmarked
  -- one step of the search is an edge backwards inside the part that is left
  have hfollow : ∀ u ∈ r :: rest, ∀ v, Follows adj look (r :: vis) u v ↔
      v ∈ r :: rest ∧ E v u ∧ v ∉ r :: vis := by
    intro u hu v
    obtain ⟨vs, hvs, hin, hlook⟩ := hadj u hu
    constructor
    · rintro ⟨⟨ws, hws, hv⟩, hl, hns⟩
      rw [hvs, Option.some_inj] at hws
      subst hws
      rw [hlook v hv] at hl
      have hvr := of_decide_eq_true (Option.some_inj.mp hl)
      exact ⟨hvr, (hin v hvr).mp hv, hns⟩
    · rintro ⟨hvr, hvu, hns⟩
      have hv := (hin v hvr).mpr hvu
      exact ⟨⟨vs, hvs, hv⟩, by rw [hlook v hv, decide_eq_true hvr], hns⟩
  have hback : ∀ x, ReflTransGen (Follows adj look (r :: vis)) r x →
      x ∈ r :: rest ∧ ReflTransGen (fun a b => E a b ∧ b ∈ done ++ r :: rest ∧
        (done ++ r :: rest).idxOf r ≤ (done ++ r :: rest).idxOf b) x r := by
    intro x hx
    induction hx with
    | refl => exact ⟨List.mem_cons_self, .refl⟩
    | @tail b c _ hbc ih =>
      obtain ⟨hc, hcb, -⟩ := (hfollow b ih.1 c).mp hbc
      have hb : b ∈ done ++ r :: rest := List.mem_append_right _ ih.1
      exact ⟨hc, ih.2.head ⟨hcb, hb, (idxOf_le_iff hnd hb).mpr ih.1⟩⟩
  -- what is left contains every vertex of the component, unmarked
  have hleft : ∀ x, Connected E r x → x ∈ r :: rest ∧ x ∉ vis := by
    intro x hx
    have hnv : x ∉ vis := by
      intro hxv
      obtain ⟨d, hd, hdx⟩ := (hvis x).mp hxv
      exact hr ((hvis r).mpr ⟨d, hd, hdx.trans hx.symm⟩)
    refine ⟨?_, hnv⟩
    have hxo : x ∈ done ++ r :: rest := by
      rcases ReflTransGen.cases_tail hx.1 with heq | ⟨w, -, hwx⟩
      · rw [heq]
        exact List.mem_append_right _ List.mem_cons_self
      · exact (hE w x hwx).2
    rcases List.mem_append.mp hxo with hd | hd
    · exact absurd ((hvis x).mpr ⟨x, hd, Connected.refl x⟩) hnv
    · exact hd
  have hcomp : ∀ x, x ∈ scc ↔ Connected E r x := by
    intro x
    rw [hmem]
    constructor
    · rintro ⟨u, hu, hpath⟩
      rw [List.mem_singleton] at hu
      subst hu
      obtain ⟨hxr, hxp⟩ := hback x hpath
      have hxo : x ∈ done ++ u :: rest := List.mem_append_right _ hxr
      exact ⟨hpost.reach hxo ((idxOf_le_iff hnd hxo).mpr hxr) hxp,
        ReflTransGen.mono (fun _ _ h => h.1) _ _ hxp⟩
    · intro hx
      refine ⟨r, List.mem_singleton_self r, ?_⟩
      obtain ⟨hrx, hxr⟩ := hx
      induction hxr using ReflTransGen.head_induction_on with
      | refl => exact .refl
      | @head a b hab hbr ih =>
        have hb : Connected E r b := ⟨hrx.tail hab, hbr⟩
        have ha : Connected E r a := ⟨hrx, .head hab hbr⟩
        by_cases har : a = r
        · exact har ▸ .refl
        · have hstep : Follows adj look (r :: vis) b a :=
            (hfollow b (hleft b hb).1 a).mpr ⟨(hleft a ha).1, hab, by
              rw [List.mem_cons]
              exact fun h => h.elim har (hleft a ha).2⟩
          exact (ih hb.1).tail hstep
  refine ⟨scc, vis', hs, hscc, hcomp, fun x => ?_⟩
  rw [hvis', hcomp, List.mem_cons]
  constructor
  · rintro ((rfl | h) | h)
    · exact Or.inr (Connected.refl x)
    · exact Or.inl h
    · exact Or.inr h
  · rintro (h | h)
    · exact Or.inl (Or.inr h)
    · exact Or.inr h

end Pass

end Kosaraju
