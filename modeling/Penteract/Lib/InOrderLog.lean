/-
# Logs that are read in order

Items are added under their positions, in any order, and read one after the other from position
`0` on.  A log follows the list of what was added to it: it holds what has not been read yet.
Code that reads such a log runs a loop until the next item is not there, or not ready; the loop
is a partial step function that is iterated as long as it is defined.
-/
import Penteract.Lib.AssocMap

/-! ## Loops -/

namespace Loop

variable {σ : Type*} (step : σ → Option σ)

/-- Iterate `step` until it is undefined, at most `fuel` times. -/
def run : ℕ → σ → σ
  | 0, s => s
  | fuel + 1, s =>
    match step s with
    | none => s
    | some s' => run fuel s'

variable {step}

/-- **Loop rule**: what an iteration keeps holds after the loop. -/
theorem run_inv {P : σ → Prop} (hstep : ∀ s s', P s → step s = some s' → P s') :
    ∀ (fuel : ℕ) {s : σ}, P s → P (run step fuel s)
  | 0, _, h => h
  | fuel + 1, s, h => by
      rw [run]
      split
      · exact h
      · next s' hs' => exact run_inv hstep fuel (hstep s s' h hs')

/-- **The loop ends** if every iteration makes a bound smaller. -/
theorem run_done {m : σ → ℕ} (hstep : ∀ s s', step s = some s' → m s' < m s) :
    ∀ {fuel : ℕ} {s : σ}, m s ≤ fuel → step (run step fuel s) = none
  | 0, s, h => by
      rw [run]
      cases hs : step s with
      | none => rfl
      | some s' => exact absurd (hstep s s' hs) (by omega)
  | fuel + 1, s, h => by
      rw [run]
      split
      · assumption
      · next s' hs' => exact run_done hstep (by have := hstep s s' hs'; omega)

end Loop

/-! ## Logs -/

/-- The items that are not read yet, and the position to read next. -/
structure InOrderLog (α : Type*) where
  pending : AssocMap ℕ α := ∅
  next : ℕ := 0

namespace InOrderLog

variable {α : Type*}

/-- Add an item.  A position that was read is ignored, and one that is taken is an error. -/
def insert (l : InOrderLog α) (position : ℕ) (item : α) : Option (InOrderLog α) :=
  if position < l.next then some l
  else if position ∈ l.pending then none
  else some { l with pending := l.pending.insert position item }

def peek (l : InOrderLog α) : Option α := l.pending.lookup l.next

/-- Go on to the next position. -/
def advance (l : InOrderLog α) : InOrderLog α :=
  { pending := l.pending.erase l.next, next := l.next + 1 }

def size (l : InOrderLog α) : ℕ := l.pending.keys.length

@[simp] theorem advance_next (l : InOrderLog α) : l.advance.next = l.next + 1 := rfl

theorem size_advance {l : InOrderLog α} {a : α} (h : l.peek = some a) :
    l.advance.size < l.size := by
  have hmem : l.next ∈ l.pending.keys := AList.mem_keys.mpr (AssocMap.mem_iff_lookup.mpr ⟨a, h⟩)
  have hpos : 0 < l.pending.keys.length := List.length_pos_of_mem hmem
  rw [size, size, advance, AList.keys_erase, List.length_erase_of_mem hmem]
  omega

/-- **The log holds what was added** and not read. -/
def Follows (l : InOrderLog α) (added : List (ℕ × α)) : Prop :=
  ∀ i a, l.pending.lookup i = some a ↔ (i, a) ∈ added ∧ l.next ≤ i

namespace Follows

variable {l l' : InOrderLog α} {added : List (ℕ × α)}

theorem init : Follows ({} : InOrderLog α) [] := by
  intro i a
  simp

variable {a : α} {i : ℕ}

theorem peek_eq_some (h : l.Follows added) : l.peek = some a ↔ (l.next, a) ∈ added := by
  rw [peek, h l.next a, and_iff_left le_rfl]

theorem advance (h : l.Follows added) : l.advance.Follows added := by
  intro i a
  rw [InOrderLog.advance, AssocMap.lookup_erase']
  split_ifs with hi
  · refine iff_of_false (by simp) ?_
    rintro ⟨-, hle⟩
    dsimp only at hle
    omega
  · rw [h i a]
    refine and_congr_right fun _ => ?_
    dsimp only
    omega

/-- Adding an item under a new position succeeds. -/
theorem insert (h : l.Follows added) (hi : l.next ≤ i) (hnew : i ∉ added.map Prod.fst) :
    ∃ l', l.insert i a = some l' ∧ l'.next = l.next ∧ l'.Follows (added ++ [(i, a)]) := by
  have hpending : i ∉ l.pending := by
    rw [AssocMap.mem_iff_lookup]
    rintro ⟨b, hb⟩
    exact hnew (List.mem_map_of_mem ((h i b).mp hb).1)
  refine ⟨{ l with pending := l.pending.insert i a },
    by rw [InOrderLog.insert, if_neg (by omega), if_neg hpending], rfl, fun j b => ?_⟩
  rw [AssocMap.lookup_insert', List.mem_append, List.mem_singleton, Prod.mk.injEq]
  split_ifs with hj
  · subst hj
    rw [Option.some_inj, eq_comm]
    constructor
    · rintro rfl
      exact ⟨.inr ⟨rfl, rfl⟩, hi⟩
    · rintro ⟨hmem | ⟨-, hb⟩, -⟩
      · exact absurd (List.mem_map_of_mem hmem) hnew
      · exact hb
  · rw [h j b, or_iff_left fun hb => hj hb.1]

/-- Adding an item under a new position succeeds, also if the position was read. -/
theorem insert_new (h : l.Follows added) (a : α) (hnew : i ∉ added.map Prod.fst) :
    ∃ l', l.insert i a = some l' ∧ l'.next = l.next ∧ l'.Follows (added ++ [(i, a)]) := by
  by_cases hi : l.next ≤ i
  · exact h.insert hi hnew
  · refine ⟨l, if_pos (not_le.mp hi), rfl, fun j b => ?_⟩
    rw [h j b, List.mem_append, List.mem_singleton, Prod.mk.injEq]
    constructor
    · exact fun hj => ⟨.inl hj.1, hj.2⟩
    · rintro ⟨hmem | ⟨rfl, -⟩, hle⟩
      · exact ⟨hmem, hle⟩
      · exact absurd hle hi

end Follows

end InOrderLog
