/-
# Work-list search with marks

`search adj look fuel queue seen` is the loop

  while the queue is not empty: pop `u`; for each neighbour `v` of `u`:
    if `v` passes `look` and is not marked, mark it and push it.

`adj u` is `none` when `u` is unknown, `look v` is `none` when meeting `v` is an error; both
stop the search.  `search_spec` says that, with enough fuel and no error in reach, the loop
pops exactly the vertices that the queue reaches through unmarked vertices, each once.
-/
import Mathlib

namespace Search

open List Relation

variable {V : Type*} [DecidableEq V]

/-- Scan the neighbours of one vertex: the ones to push, and the marks afterwards. -/
def scan (look : V → Option Bool) : List V → List V → Option (List V × List V)
  | [], seen => some ([], seen)
  | v :: vs, seen =>
    match look v with
    | none => none
    | some false => scan look vs seen
    | some true =>
      if v ∈ seen then scan look vs seen
      else (scan look vs (v :: seen)).map fun r => (v :: r.1, r.2)

/-- The loop.  The result is the list of popped vertices, in order, and the marks. -/
def search (adj : V → Option (List V)) (look : V → Option Bool) :
    ℕ → List V → List V → Option (List V × List V)
  | _, [], seen => some ([], seen)
  | 0, _ :: _, _ => none
  | n + 1, u :: queue, seen =>
    (adj u).bind fun vs =>
      (scan look vs seen).bind fun r =>
        (search adj look n (queue ++ r.1) r.2).map fun t => (u :: t.1, t.2)

/-- What one scan pushes: the acceptable unmarked neighbours, each once. -/
theorem scan_spec {look : V → Option Bool} {vs : List V} (seen : List V)
    (hlook : ∀ v ∈ vs, look v ≠ none) :
    ∃ new seen', scan look vs seen = some (new, seen') ∧
      (∀ v, v ∈ new ↔ v ∈ vs ∧ look v = some true ∧ v ∉ seen) ∧
      (∀ v, v ∈ seen' ↔ v ∈ seen ∨ v ∈ new) ∧ new.Nodup := by
  induction vs generalizing seen with
  | nil => exact ⟨[], seen, rfl, by simp, by simp, nodup_nil⟩
  | cons v vs ih =>
    have hvs : ∀ w ∈ vs, look w ≠ none := fun w hw => hlook w (mem_cons_of_mem v hw)
    have hskip : (look v = some false ∨ v ∈ seen) → ∃ new seen',
        scan look vs seen = some (new, seen') ∧
        (∀ w, w ∈ new ↔ w ∈ v :: vs ∧ look w = some true ∧ w ∉ seen) ∧
        (∀ w, w ∈ seen' ↔ w ∈ seen ∨ w ∈ new) ∧ new.Nodup := by
      intro hcase
      obtain ⟨new, seen', h, hn, hs, hd⟩ := ih seen hvs
      refine ⟨new, seen', h, fun w => ?_, hs, hd⟩
      rw [hn, mem_cons]
      constructor
      · exact fun ⟨h1, h2⟩ => ⟨Or.inr h1, h2⟩
      · rintro ⟨rfl | h1, h2, h3⟩
        · rcases hcase with hc | hc
          · rw [hc] at h2; cases h2
          · exact absurd hc h3
        · exact ⟨h1, h2, h3⟩
    rcases hl : look v with _ | _ | _
    · exact absurd hl (hlook v mem_cons_self)
    · simp only [scan, hl]
      exact hskip (Or.inl hl)
    · by_cases hv : v ∈ seen
      · simp only [scan, hl, if_pos hv]
        exact hskip (Or.inr hv)
      · obtain ⟨new, seen', h, hn, hs, hd⟩ := ih (v :: seen) hvs
        refine ⟨v :: new, seen', by simp only [scan, hl, if_neg hv, h, Option.map_some],
          fun w => ?_, fun w => ?_, ?_⟩
        · rw [mem_cons, mem_cons, hn, mem_cons]
          constructor
          · rintro (rfl | ⟨h1, h2, h3⟩)
            · exact ⟨Or.inl rfl, hl, hv⟩
            · exact ⟨Or.inr h1, h2, fun hw => h3 (Or.inr hw)⟩
          · rintro ⟨rfl | h1, h2, h3⟩
            · exact Or.inl rfl
            · by_cases hwv : w = v
              · exact Or.inl hwv
              · exact Or.inr ⟨h1, h2, fun hw => hw.elim hwv h3⟩
        · rw [hs, mem_cons, mem_cons]
          tauto
        · rw [nodup_cons]
          exact ⟨fun hm => ((hn v).mp hm).2.2 mem_cons_self, hd⟩

/-- The edges that a search with marks `seen` may follow. -/
def Follows (adj : V → Option (List V)) (look : V → Option Bool) (seen : List V)
    (u v : V) : Prop :=
  (∃ vs, adj u = some vs ∧ v ∈ vs) ∧ look v = some true ∧ v ∉ seen

/-- The number of vertices of `N` that carry no mark: what the fuel has to pay for. -/
def unmarked (N seen : List V) : ℕ := (N.filter (· ∉ seen)).length

theorem unmarked_scan {N seen new seen' : List V}
    (hN : ∀ v ∈ new, v ∈ N) (hn : ∀ v ∈ new, v ∉ seen)
    (hs : ∀ v, v ∈ seen' ↔ v ∈ seen ∨ v ∈ new) (hd : new.Nodup) :
    new.length + unmarked N seen' ≤ unmarked N seen := by
  have hfil : N.filter (· ∉ seen') = (N.filter (· ∉ seen)).filter (fun v => !decide (v ∈ new)) := by
    rw [filter_filter]
    apply filter_congr
    intro v _
    by_cases h1 : v ∈ seen <;> by_cases h2 : v ∈ new <;> simp [hs, h1, h2]
  have hnew : new.length ≤ ((N.filter (· ∉ seen)).filter (fun v => decide (v ∈ new))).length := by
    apply Subperm.length_le
    apply subperm_of_subset hd
    intro v hv
    simp [hv, hN v hv, hn v hv]
  have hsplit := (filter_append_perm (fun v => decide (v ∈ new))
    (N.filter (· ∉ seen))).length_eq
  rw [length_append] at hsplit
  rw [unmarked, unmarked, hfil]
  omega

/-- **Correctness of the search.**  `N` is a finite set of vertices that contains the queue
and is closed under the edges the search may follow, and no error lies in it. -/
theorem search_spec {adj : V → Option (List V)} {look : V → Option Bool} (N : List V)
    (hadj : ∀ u ∈ N, ∃ vs, adj u = some vs ∧
      ∀ v ∈ vs, look v ≠ none ∧ (look v = some true → v ∈ N))
    {fuel : ℕ} {queue seen : List V} (hqN : ∀ u ∈ queue, u ∈ N) (hqs : ∀ u ∈ queue, u ∈ seen)
    (hqd : queue.Nodup) (hfuel : queue.length + unmarked N seen ≤ fuel) :
    ∃ out seen', search adj look fuel queue seen = some (out, seen') ∧
      (∀ v, v ∈ seen' ↔ v ∈ seen ∨ v ∈ out) ∧ out.Nodup ∧ (∀ v ∈ out, v ∈ N) ∧
      (∀ v, v ∈ out ↔ ∃ u ∈ queue, ReflTransGen (Follows adj look seen) u v) := by
  induction fuel generalizing queue seen with
  | zero =>
    have hq : queue = [] := eq_nil_of_length_eq_zero (by omega)
    subst hq
    exact ⟨[], seen, by simp [search], by simp, nodup_nil, by simp, by simp⟩
  | succ n ih =>
    cases queue with
    | nil => exact ⟨[], seen, by simp [search], by simp, nodup_nil, by simp, by simp⟩
    | cons u queue =>
      obtain ⟨vs, hvs, hok⟩ := hadj u (hqN u mem_cons_self)
      obtain ⟨new, seen₁, hscan, hnew, hseen₁, hnd⟩ :=
        scan_spec seen fun v hv => (hok v hv).1
      rw [nodup_cons] at hqd
      have hnN : ∀ v ∈ new, v ∈ N := fun v hv =>
        (hok v ((hnew v).mp hv).1).2 ((hnew v).mp hv).2.1
      have hns : ∀ v ∈ new, v ∉ seen := fun v hv => ((hnew v).mp hv).2.2
      have hq' : (queue ++ new).Nodup := by
        rw [nodup_append]
        refine ⟨hqd.2, hnd, fun a ha b hb hab => hns b hb ?_⟩
        exact hab ▸ hqs a (mem_cons_of_mem u ha)
      have hfuel' : (queue ++ new).length + unmarked N seen₁ ≤ n := by
        have := unmarked_scan hnN hns hseen₁ hnd
        rw [length_append]
        rw [length_cons] at hfuel
        omega
      obtain ⟨out, seen', hrun, hmarks, hout, houtN, hreach⟩ := @ih (queue ++ new) seen₁
        (fun v hv => (mem_append.mp hv).elim
          (fun h => hqN v (mem_cons_of_mem u h)) (hnN v))
        (fun v hv => (hseen₁ v).mpr ((mem_append.mp hv).imp
          (fun h => hqs v (mem_cons_of_mem u h)) id)) hq' hfuel'
      have hmem : ∀ v ∈ queue ++ new, v ∈ out := fun v hv =>
        (hreach v).mpr ⟨v, hv, .refl⟩
      -- a vertex that the rest of the search pops carries no mark but that of the queue
      have hfresh : ∀ v ∈ out, v ∈ seen → v ∈ queue := by
        intro v hv hvs'
        obtain ⟨w, hw, hwv⟩ := (hreach v).mp hv
        rcases ReflTransGen.cases_tail hwv with rfl | ⟨x, -, -, -, hx⟩
        · exact (mem_append.mp hw).elim id fun h => absurd hvs' (hns _ h)
        · exact absurd ((hseen₁ v).mpr (Or.inl hvs')) hx
      refine ⟨u :: out, seen', ?_, fun v => ?_, ?_, ?_, fun v => ?_⟩
      · simp [search, hvs, hscan, hrun]
      · rw [hmarks, hseen₁, mem_cons]
        constructor
        · rintro ((h | h) | h)
          · exact Or.inl h
          · exact Or.inr (Or.inr (hmem v (mem_append_right _ h)))
          · exact Or.inr (Or.inr h)
        · rintro (h | rfl | h)
          · exact Or.inl (Or.inl h)
          · exact Or.inl (Or.inl (hqs _ mem_cons_self))
          · exact Or.inr h
      · rw [nodup_cons]
        exact ⟨fun h => hqd.1 (hfresh u h (hqs u mem_cons_self)), hout⟩
      · intro v hv
        rcases mem_cons.mp hv with rfl | h
        · exact hqN _ mem_cons_self
        · exact houtN v h
      · constructor
        · intro hv
          rcases mem_cons.mp hv with rfl | hv
          · exact ⟨_, mem_cons_self, .refl⟩
          · obtain ⟨w, hw, hwv⟩ := (hreach v).mp hv
            have hpath : ReflTransGen (Follows adj look seen) w v :=
              ReflTransGen.mono (fun a b h => ⟨h.1, h.2.1, fun hb =>
                h.2.2 ((hseen₁ b).mpr (Or.inl hb))⟩) _ _ hwv
            rcases mem_append.mp hw with hw | hw
            · exact ⟨w, mem_cons_of_mem u hw, hpath⟩
            · obtain ⟨h1, h2, h3⟩ := (hnew w).mp hw
              exact ⟨u, mem_cons_self, hpath.head ⟨⟨vs, hvs, h1⟩, h2, h3⟩⟩
        · rintro ⟨w, hw, hwv⟩
          -- the popped set contains the queue and is closed under the edges
          induction hwv with
          | refl =>
            rcases mem_cons.mp hw with rfl | hw
            · exact mem_cons_self
            · exact mem_cons_of_mem _ (hmem w (mem_append_left _ hw))
          | @tail a b hwa hab iha =>
            obtain ⟨⟨vs', hvs', hb⟩, hlb, hbs⟩ := hab
            apply mem_cons_of_mem
            by_cases hbn : b ∈ new
            · exact hmem b (mem_append_right _ hbn)
            · rcases mem_cons.mp iha with rfl | ha
              · rw [hvs, Option.some_inj] at hvs'
                exact absurd ((hnew b).mpr ⟨hvs' ▸ hb, hlb, hbs⟩) hbn
              · obtain ⟨x, hx, hxa⟩ := (hreach a).mp ha
                exact (hreach b).mpr ⟨x, hx, hxa.tail ⟨⟨vs', hvs', hb⟩, hlb,
                  fun h => ((hseen₁ b).mp h).elim hbs hbn⟩⟩

end Search
