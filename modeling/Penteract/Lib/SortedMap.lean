/-
# Sorted maps

A map that is iterated in the order of its keys: the list of its entries, with strictly increasing
keys.  An entry is only added for a new key; the entries before a bound are split off at the front.
-/
import Mathlib

/-- A map from `κ` to `β`, in the order of the keys. -/
structure SortedMap (κ β : Type*) [LinearOrder κ] where
  entries : List (κ × β) := []
  sorted : entries.Pairwise fun a b => a.1 < b.1 := by exact .nil

namespace SortedMap

open List

variable {κ β : Type*} [LinearOrder κ]

/-- Put an entry before the first one with a larger key. -/
def insertEntry (e : κ × β) (es : List (κ × β)) : List (κ × β) :=
  es.orderedInsert (fun a b => a.1 < b.1) e

theorem pairwise_insertEntry {e : κ × β} {es : List (κ × β)}
    (hes : es.Pairwise fun a b => a.1 < b.1) (he : ∀ a ∈ es, a.1 ≠ e.1) :
    (insertEntry e es).Pairwise fun a b => a.1 < b.1 := by
  induction es with
  | nil => exact pairwise_singleton _ _
  | cons a es ih =>
    obtain ⟨ha, hes'⟩ := pairwise_cons.mp hes
    rw [insertEntry, orderedInsert_cons]
    split_ifs with hlt
    · refine pairwise_cons.mpr ⟨fun b hb => ?_, hes⟩
      rcases mem_cons.mp hb with rfl | hb
      · exact hlt
      · exact hlt.trans (ha b hb)
    · refine pairwise_cons.mpr
        ⟨fun b hb => ?_, ih hes' fun b hb => he b (mem_cons_of_mem a hb)⟩
      rcases (mem_orderedInsert _).mp hb with rfl | hb
      · exact lt_of_le_of_ne (not_lt.mp hlt) (he a mem_cons_self)
      · exact ha b hb

/-- Add an entry, unless the key has one. -/
def emplace (m : SortedMap κ β) (k : κ) (v : β) : Option (SortedMap κ β) :=
  if h : ∀ a ∈ m.entries, a.1 ≠ k then
    some { entries := insertEntry (k, v) m.entries, sorted := pairwise_insertEntry m.sorted h }
  else none

def erase (m : SortedMap κ β) (k : κ) : SortedMap κ β where
  entries := m.entries.filter fun a => a.1 ≠ k
  sorted := m.sorted.filter _

/-- The entries at the front whose keys meet `p`. -/
def front (m : SortedMap κ β) (p : κ → Bool) : List (κ × β) :=
  m.entries.takeWhile fun a => p a.1

/-- What is left without the front. -/
def dropFront (m : SortedMap κ β) (p : κ → Bool) : SortedMap κ β where
  entries := m.entries.dropWhile fun a => p a.1
  sorted := m.sorted.sublist (dropWhile_sublist _)

variable {m m' : SortedMap κ β} {k : κ} {v : β} {p : κ → Bool}

theorem perm_of_emplace (h : m.emplace k v = some m') :
    m'.entries.Perm ((k, v) :: m.entries) := by
  rw [emplace] at h
  split_ifs at h
  cases h
  exact perm_orderedInsert _ _ _

theorem front_append_dropFront (m : SortedMap κ β) (p : κ → Bool) :
    m.front p ++ (m.dropFront p).entries = m.entries :=
  takeWhile_append_dropWhile

variable {a : κ × β}

theorem of_mem_front (ha : a ∈ m.front p) : p a.1 :=
  mem_takeWhile_imp (p := fun a : κ × β => p a.1) ha

/-- The first entry has the smallest key. -/
theorem head_le {b : κ × β} (ha : m.entries.head? = some a) (hb : b ∈ m.entries) : a.1 ≤ b.1 := by
  obtain ⟨es, hes⟩ := List.head?_eq_some_iff.mp ha
  have hsorted := m.sorted
  rw [hes] at hb hsorted
  rcases mem_cons.mp hb with rfl | hb
  · exact le_rfl
  · exact (rel_of_pairwise_cons hsorted hb).le

/-- If the smaller keys meet `p` as well, all entries that meet it are at the front. -/
theorem mem_front (hp : ∀ k k', k ≤ k' → p k' → p k) (ha : a ∈ m.entries) (hpa : p a.1) :
    a ∈ m.front p := by
  rw [← front_append_dropFront m p, mem_append] at ha
  refine ha.resolve_right fun hrest => ?_
  -- the first entry after the front does not meet `p`, and it is not after `a`
  obtain ⟨b, hb⟩ := Option.ne_none_iff_exists'.mp
    fun hnone => ne_nil_of_mem hrest (List.head?_eq_none_iff.mp hnone)
  have hnot := List.head?_dropWhile_not (fun a : κ × β => p a.1) m.entries
  have hb' : (m.entries.dropWhile fun a => p a.1).head? = some b := hb
  rw [hb'] at hnot
  have hpb := hp _ _ (head_le hb hrest) hpa
  simp [hpb] at hnot


end SortedMap
