/-
# Messages in flight

A network has a state and the messages that were sent and not yet delivered.  Messages are
delivered in any order and none is lost.  Handling a message changes the state and sends further
messages, or fails.
-/
import Penteract.Lib.Run

structure Network (σ μ : Type*) where
  state : σ
  inFlight : List μ := []

namespace Network

open List

variable {σ μ : Type*} (handle : σ → μ → Option (σ × List μ))

/-- Deliver the message at index `i`. -/
def deliver (s : Network σ μ) (i : ℕ) : Option (Network σ μ) :=
  s.inFlight[i]?.bind fun m => (handle s.state m).map fun r =>
    { state := r.1, inFlight := s.inFlight.eraseIdx i ++ r.2 }

variable {handle} {s s' : Network σ μ}

/-- What a delivery does, up to the order of the messages in flight. -/
theorem deliver_eq_some {i : ℕ} (h : deliver handle s i = some s') :
    ∃ m rest r, s.inFlight[i]? = some m ∧ s.inFlight.Perm (m :: rest) ∧
      handle s.state m = some r ∧ s' = { state := r.1, inFlight := rest ++ r.2 } := by
  obtain ⟨m, hm, hmap⟩ := Option.bind_eq_some_iff.mp h
  obtain ⟨r, hr, rfl⟩ := Option.map_eq_some_iff.mp hmap
  obtain ⟨hlt, hget⟩ := List.getElem?_eq_some_iff.mp hm
  refine ⟨m, _, r, hm, ?_, hr, rfl⟩
  rw [← hget]
  exact (getElem_cons_eraseIdx_perm hlt).symm

/-- The weight of the messages in flight. -/
def weight (w : μ → ℕ) (s : Network σ μ) : ℕ := (s.inFlight.map w).sum

/-- **Deliveries end** if a message weighs more than what handling it sends: their number is
bounded by the weight of the messages in flight. -/
theorem length_add_weight_le {w : μ → ℕ}
    (hw : ∀ s m r, handle s m = some r → (r.2.map w).sum < w m) {is : List ℕ}
    (h : Lts.run (deliver handle) s is = some s') : is.length + weight w s' ≤ weight w s := by
  induction is generalizing s with
  | nil =>
    cases Option.some_inj.mp h
    simp
  | cons i is ih =>
    rw [Lts.run_cons, Option.bind_eq_some_iff] at h
    obtain ⟨t, ht, hrun⟩ := h
    have hrest := ih hrun
    obtain ⟨m, rest, r, -, hperm, hr, rfl⟩ := deliver_eq_some ht
    have hlt := hw _ _ _ hr
    have hs : weight w s = w m + (rest.map w).sum := by
      rw [weight, (hperm.map w).sum_eq]
      rfl
    have ht : weight w { state := r.1, inFlight := rest ++ r.2 } =
        (rest.map w).sum + (r.2.map w).sum := by
      rw [weight, map_append, sum_append]
    rw [length_cons, hs]
    omega

end Network

/-! ## Tallies -/

/-- At most one element of a list without duplicates has a property that determines it. -/
theorem List.sum_indicator {α : Type*} [DecidableEq α] {l : List α} (hnd : l.Nodup) (P : α → Prop)
    [DecidablePred P] {a : α} (hP : ∀ b, P b → b = a) :
    (l.map fun b => if P b then 1 else 0).sum = if a ∈ l ∧ P a then 1 else 0 := by
  induction l with
  | nil => simp
  | cons b l ih =>
    rw [List.nodup_cons] at hnd
    rw [List.map_cons, List.sum_cons, ih hnd.2]
    by_cases hb : P b
    · obtain rfl := hP b hb
      simp [hb, hnd.1]
    · have hne : P a → a ≠ b := by
        rintro ha rfl
        exact hb ha
      by_cases ha : P a
      · simp [hb, ha, hne ha]
      · simp [hb, ha]
