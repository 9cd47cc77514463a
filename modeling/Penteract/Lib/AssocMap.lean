/-
# Finite maps

`AssocMap α β` is Mathlib's association list without duplicate keys.  The order of its
entries carries no meaning; code that iterates over a map is given the order of the keys as
an argument.  This module adds lookup rules in one-line form, the in-place update of an
existing entry, and the sum of a quantity over all entries.
-/
import Mathlib

/-- A finite map from `α` to `β`. -/
abbrev AssocMap (α β : Type*) := AList fun _ : α => β

namespace AssocMap

open List

variable {α β : Type*}

/-- The sum of `f` over the entries of a map. -/
def total (f : α → β → ℤ) (m : AssocMap α β) : ℤ := (m.entries.map fun e => f e.1 e.2).sum

@[simp] theorem total_empty (f : α → β → ℤ) : total f (∅ : AssocMap α β) = 0 := rfl

variable [DecidableEq α]

/-! ## Lookup rules -/

@[simp] theorem lookup_insert' (m : AssocMap α β) (a a' : α) (b : β) :
    (m.insert a b).lookup a' = if a' = a then some b else m.lookup a' := by
  by_cases h : a' = a
  · rw [if_pos h, h, AList.lookup_insert]
  · rw [if_neg h, AList.lookup_insert_ne h]

variable {m : AssocMap α β} {a : α} {b : β} {f : α → β → ℤ}

theorem lookup_insert_eq_some {a' : α} {b' : β} :
    (m.insert a b).lookup a' = some b' ↔ a' = a ∧ b' = b ∨ a' ≠ a ∧ m.lookup a' = some b' := by
  rw [lookup_insert']
  split_ifs with h
  · simp [h, eq_comm]
  · simp [h]

@[simp] theorem lookup_erase' (m : AssocMap α β) (a a' : α) :
    (m.erase a).lookup a' = if a' = a then none else m.lookup a' := by
  by_cases h : a' = a
  · rw [if_pos h, h, AList.lookup_erase]
  · rw [if_neg h, AList.lookup_erase_ne h]

theorem lookup_foldl_erase (m : AssocMap α β) (as : List α) (a : α) :
    (as.foldl (fun m b => m.erase b) m).lookup a = if a ∈ as then none else m.lookup a := by
  induction as generalizing m with
  | nil => simp
  | cons b as ih =>
    rw [foldl_cons, ih, lookup_erase']
    by_cases hab : a = b <;> by_cases ha : a ∈ as <;> simp [hab, ha]

theorem mem_iff_lookup : a ∈ m ↔ ∃ b, m.lookup a = some b := by
  rw [← AList.lookup_isSome, Option.isSome_iff_exists]

theorem not_mem_iff_lookup : a ∉ m ↔ m.lookup a = none := by
  rw [mem_iff_lookup]
  cases m.lookup a <;> simp

/-- Add an entry for `a`, unless there is one. -/
def insertNew (m : AssocMap α β) (a : α) (b : β) : AssocMap α β :=
  if a ∈ m then m else m.insert a b

theorem lookup_insertNew (m : AssocMap α β) (a a' : α) (b : β) (h : a ∉ m) :
    (insertNew m a b).lookup a' = if a' = a then some b else m.lookup a' := by
  rw [insertNew, if_neg h, lookup_insert']

/-- Update the entry of `a`, if there is one. -/
def modify (m : AssocMap α β) (a : α) (f : β → β) : AssocMap α β :=
  match m.lookup a with
  | none => m
  | some b => m.insert a (f b)

@[simp] theorem lookup_modify (m : AssocMap α β) (a a' : α) (f : β → β) :
    (modify m a f).lookup a' = if a' = a then (m.lookup a).map f else m.lookup a' := by
  unfold modify
  cases h : m.lookup a with
  | none =>
    by_cases ha : a' = a
    · rw [if_pos ha, ha, h]; rfl
    · rw [if_neg ha]
  | some b => rw [lookup_insert', Option.map_some]

/-- The lookup rule with the case distinction inside the entry. -/
theorem lookup_modify_map (m : AssocMap α β) (a a' : α) (f : β → β) :
    (modify m a f).lookup a' = (m.lookup a').map fun b => if a' = a then f b else b := by
  rw [lookup_modify]
  by_cases h : a' = a
  · subst h
    simp
  · simp [h]

theorem modify_of_lookup (h : m.lookup a = some b) (f : β → β) : modify m a f = m.insert a (f b) := by
  rw [modify, h]

/-- The same change made to several different entries. -/
theorem lookup_foldl_modify {as : List α} (hnd : as.Nodup) (m : AssocMap α β) (f : β → β)
    (a : α) : (as.foldl (fun m b => modify m b f) m).lookup a =
      (m.lookup a).map fun b => if a ∈ as then f b else b := by
  induction as generalizing m with
  | nil => simp
  | cons c as ih =>
    obtain ⟨hc, hnd'⟩ := nodup_cons.mp hnd
    rw [foldl_cons, ih hnd', lookup_modify_map, Option.map_map]
    congr 1
    funext b
    by_cases hac : a = c
    · subst hac
      simp [hc]
    · simp [hac]

@[simp] theorem mem_modify {a' : α} {f : β → β} : a' ∈ modify m a f ↔ a' ∈ m := by
  rw [mem_iff_lookup, mem_iff_lookup, lookup_modify]
  by_cases h : a' = a
  · subst h
    cases m.lookup a' <;> simp
  · rw [if_neg h]

/-! ## Sums over the entries -/

theorem total_erase (h : m.lookup a = some b) : total f m = f a b + total f (m.erase a) := by
  have hmem : a ∈ m.entries.keys := AList.mem_keys.mp (mem_iff_lookup.mpr ⟨b, h⟩)
  obtain ⟨b', l₁, l₂, hl₁, hm, hk⟩ := exists_of_kerase hmem
  have hb : b' = b := by
    have h2 : m.lookup a = some b' := by
      rw [AList.lookup, hm, dlookup_append, dlookup_eq_none.mpr hl₁, Option.none_or,
        dlookup_cons_eq]
    exact Option.some_inj.mp (h2.symm.trans h)
  have herase : total f (m.erase a) = ((l₁ ++ l₂).map fun e => f e.1 e.2).sum := by
    rw [← hk]
    rfl
  rw [herase, total, hm, ← hb]
  simp only [map_append, map_cons, sum_append, sum_cons]
  ring

theorem erase_of_lookup_none (h : m.lookup a = none) : (m.erase a).entries = m.entries :=
  kerase_of_notMem_keys fun hm => not_mem_iff_lookup.mpr h (AList.mem_keys.mpr hm)

theorem total_insert_new (h : m.lookup a = none) : total f (m.insert a b) = f a b + total f m := by
  have hins : total f (m.insert a b) = f a b + total f (m.erase a) := rfl
  rw [hins, total, total, erase_of_lookup_none h]

theorem total_modify (g : β → β) (h : m.lookup a = some b) :
    total f (modify m a g) = total f m - f a b + f a (g b) := by
  have hins : total f (m.insert a (g b)) = f a (g b) + total f (m.erase a) := rfl
  rw [modify_of_lookup h, hins, total_erase (f := f) h]
  ring

/-- If the quantity does not depend on the entry changed, the sum does not change. -/
theorem total_modify_of_eq {g : β → β} (h : ∀ b, m.lookup a = some b → f a (g b) = f a b) :
    total f (modify m a g) = total f m := by
  cases hl : m.lookup a with
  | none => rw [modify, hl]
  | some b => rw [total_modify g hl, h b hl]; ring

theorem total_nonneg (h : ∀ a b, m.lookup a = some b → 0 ≤ f a b) : 0 ≤ total f m := by
  apply sum_nonneg
  intro x hx
  obtain ⟨⟨a, b⟩, he, rfl⟩ := mem_map.mp hx
  exact h a b (AList.mem_lookup_iff.mpr he)

/-- In a sum without negative terms every term is a lower bound. -/
theorem le_total (hnn : ∀ a b, m.lookup a = some b → 0 ≤ f a b) (h : m.lookup a = some b) :
    f a b ≤ total f m := by
  rw [total_erase h]
  have : 0 ≤ total f (m.erase a) := by
    apply total_nonneg
    intro a' b' h'
    rw [lookup_erase'] at h'
    split_ifs at h' with heq
    exact hnn a' b' h'
  omega

/-- A sum without negative terms that is zero has zero terms only. -/
theorem eq_zero_of_total (hnn : ∀ a b, m.lookup a = some b → 0 ≤ f a b) (h0 : total f m = 0)
    (h : m.lookup a = some b) : f a b = 0 :=
  le_antisymm (h0 ▸ le_total hnn h) (hnn a b h)

theorem total_eq_zero (h : ∀ a b, m.lookup a = some b → f a b = 0) : total f m = 0 := by
  apply sum_eq_zero
  intro x hx
  obtain ⟨⟨a, b⟩, he, rfl⟩ := mem_map.mp hx
  exact h a b (AList.mem_lookup_iff.mpr he)

end AssocMap
