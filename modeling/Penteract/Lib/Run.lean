/-
# Runs of a labelled transition system

A system is a partial step function `step : σ → ε → Option σ`: the event carries
every choice the environment makes, and `none` means that the event is not enabled
(or that the program stopped).  A run is a list of events.  The three rules below are
the only ways in which the development reasons about whole runs: an invariant of a
step is an invariant of a run, also when the runs considered keep to states that meet
a side condition, and also when every event meets a condition on the state before it.
-/
import Mathlib

namespace Lts

open Option

variable {σ ε : Type*} (step : σ → ε → Option σ)

/-- Execute a list of events from `s`. -/
def run (s : σ) : List ε → Option σ
  | [] => some s
  | e :: es => (step s e).bind fun s' => run s' es

/-- `s` is reached from `s₀` by some run. -/
def Reachable (s₀ s : σ) : Prop := ∃ es, run step s₀ es = some s

/-- Every state that the run `es` visits from `s₀` (the last one included) meets `C`. -/
def Along (C : σ → Prop) (s₀ : σ) (es : List ε) : Prop :=
  ∀ es₁ es₂ s, es = es₁ ++ es₂ → run step s₀ es₁ = some s → C s

/-- Every event of the run `es` from `s₀` meets `C` in the state in which it happens. -/
def Meets (C : σ → ε → Prop) (s₀ : σ) (es : List ε) : Prop :=
  ∀ es₁ e es₂ s, es = es₁ ++ e :: es₂ → run step s₀ es₁ = some s → C s e

@[simp] theorem run_nil (s : σ) : run step s [] = some s := rfl

theorem run_cons (s : σ) (e : ε) (es : List ε) :
    run step s (e :: es) = (step s e).bind fun s' => run step s' es := rfl

theorem run_append (s : σ) (es₁ es₂ : List ε) :
    run step s (es₁ ++ es₂) = (run step s es₁).bind fun s' => run step s' es₂ := by
  induction es₁ generalizing s with
  | nil => rfl
  | cons e es ih =>
    rw [List.cons_append, run_cons, run_cons, bind_assoc]
    congr 1
    funext s'
    exact ih s'

variable {s s₀ : σ} {es : List ε} {e : ε} {P : σ → Prop} {C : σ → ε → Prop}

/-- The last step of a run, split off. -/
theorem run_concat {s' : σ} :
    run step s (es ++ [e]) = some s' ↔
      ∃ t, run step s es = some t ∧ step t e = some s' := by
  rw [run_append, bind_eq_some_iff]
  constructor
  · rintro ⟨t, ht, h⟩
    rw [run_cons, bind_eq_some_iff] at h
    obtain ⟨u, hu, hus⟩ := h
    rw [run_nil, some_inj] at hus
    exact ⟨t, ht, hus ▸ hu⟩
  · rintro ⟨t, ht, h⟩
    exact ⟨t, ht, by rw [run_cons, h]; rfl⟩

/-- **Invariant rule.**  What holds initially and is kept by every step holds in every
reachable state. -/
theorem invariant (h0 : P s₀) (hstep : ∀ s e s', P s → step s e = some s' → P s')
    (h : Reachable step s₀ s) : P s := by
  obtain ⟨es, hes⟩ := h
  induction es generalizing s₀ with
  | nil => exact some_inj.mp hes ▸ h0
  | cons e es ih =>
    rw [run_cons, bind_eq_some_iff] at hes
    obtain ⟨t, ht, hts⟩ := hes
    exact ih (hstep s₀ e t h0 ht) hts

/-- **Invariant rule under a side condition** on all the states of the run. -/
theorem invariant_along {C : σ → Prop} (h0 : P s₀)
    (hstep : ∀ s e s', Reachable step s₀ s → P s → C s → C s' → step s e = some s' → P s')
    (hC : Along step C s₀ es) (h : run step s₀ es = some s) : P s := by
  induction es using List.reverseRecOn generalizing s with
  | nil => exact some_inj.mp h ▸ h0
  | append_singleton es e ih =>
    have hCs : C s := hC (es ++ [e]) [] s (List.append_nil _).symm h
    obtain ⟨t, ht, hts⟩ := (run_concat step).mp h
    have hCt : C t := hC es [e] t rfl ht
    have hC' : Along step C s₀ es := fun es₁ es₂ u hu =>
      hC es₁ (es₂ ++ [e]) u (by rw [hu, List.append_assoc])
    exact hstep t e s ⟨es, ht⟩ (ih hC' ht) hCt hCs hts

/-- **Invariant rule under a side condition** on the events of the run. -/
theorem invariant_meets (h0 : P s₀)
    (hstep : ∀ s e s', Reachable step s₀ s → P s → C s e → step s e = some s' → P s')
    (hC : Meets step C s₀ es) (h : run step s₀ es = some s) : P s := by
  induction es using List.reverseRecOn generalizing s with
  | nil => exact some_inj.mp h ▸ h0
  | append_singleton es e ih =>
    obtain ⟨t, ht, hts⟩ := (run_concat step).mp h
    have hC' : Meets step C s₀ es := fun es₁ e' es₂ u hu =>
      hC es₁ e' (es₂ ++ [e]) u (by rw [hu, List.append_assoc]; rfl)
    exact hstep t e s ⟨es, ht⟩ (ih hC' ht) (hC es e [] t rfl ht) hts

/-! ## Checking a given run -/

variable {step} in
/-- The state that a run reaches, with what is seen by evaluation. -/
theorem exists_run {p q : σ → Prop} (h : ∃ s ∈ run step s₀ es, p s)
    (hq : ∀ s, run step s₀ es = some s → p s → q s) : ∃ s, run step s₀ es = some s ∧ q s := by
  obtain ⟨s, hs, hp⟩ := h
  exact ⟨s, hs, hq s hs hp⟩

theorem along_nil {C : σ → Prop} : Along step C s [] ↔ C s := by
  constructor
  · intro h
    exact h [] [] s rfl rfl
  · intro hC es₁ es₂ t hnil ht
    rw [(List.append_eq_nil_iff.mp hnil.symm).1, run_nil, some_inj] at ht
    exact ht ▸ hC

theorem along_cons {C : σ → Prop} :
    Along step C s (e :: es) ↔ C s ∧ ∀ s' ∈ step s e, Along step C s' es := by
  constructor
  · intro h
    refine ⟨h [] _ s rfl rfl, fun s' hs' es₁ es₂ t hes ht => h (e :: es₁) es₂ t (by rw [hes]; rfl) ?_⟩
    rw [run_cons, mem_def.mp hs']
    exact ht
  · rintro ⟨hC, h⟩ es₁ es₂ t hes ht
    cases es₁ with
    | nil => exact some_inj.mp ht ▸ hC
    | cons e' es₁ =>
      obtain ⟨rfl, rfl⟩ := List.cons.inj hes
      rw [run_cons, bind_eq_some_iff] at ht
      obtain ⟨s', hs', ht⟩ := ht
      exact h s' hs' es₁ es₂ t rfl ht

theorem Along.mono {C D : σ → Prop} (h : Along step C s es) (hCD : ∀ s, C s → D s) :
    Along step D s es :=
  fun es₁ es₂ t hes ht => hCD t (h es₁ es₂ t hes ht)

instance decidableAlong (C : σ → Prop) [DecidablePred C] :
    ∀ (es : List ε) (s : σ), Decidable (Along step C s es)
  | [], _ => decidable_of_iff _ (along_nil step).symm
  | _ :: es, _ =>
    have : DecidablePred fun s' => Along step C s' es := decidableAlong C es
    decidable_of_iff _ (along_cons step).symm

theorem meets_nil : Meets step C s [] := by
  intro es₁ e es₂ t hnil
  cases es₁ <;> cases hnil

theorem meets_cons : Meets step C s (e :: es) ↔ C s e ∧ ∀ s' ∈ step s e, Meets step C s' es := by
  constructor
  · intro h
    refine ⟨h [] e es s rfl rfl, fun s' hs' es₁ e' es₂ t hes ht =>
      h (e :: es₁) e' es₂ t (by rw [hes]; rfl) ?_⟩
    rw [run_cons, mem_def.mp hs']
    exact ht
  · rintro ⟨hC, h⟩ es₁ e' es₂ t hes ht
    cases es₁ with
    | nil =>
      obtain ⟨rfl, rfl⟩ := List.cons.inj hes
      exact some_inj.mp ht ▸ hC
    | cons e₁ es₁ =>
      obtain ⟨rfl, rfl⟩ := List.cons.inj hes
      rw [run_cons, bind_eq_some_iff] at ht
      obtain ⟨s', hs', ht⟩ := ht
      exact h s' hs' es₁ e' es₂ t rfl ht

instance decidableMeets (C : σ → ε → Prop) [∀ s e, Decidable (C s e)] :
    ∀ (es : List ε) (s : σ), Decidable (Meets step C s es)
  | [], _ => isTrue (meets_nil step)
  | _ :: es, _ =>
    have : DecidablePred fun s' => Meets step C s' es := decidableMeets C es
    decidable_of_iff _ (meets_cons step).symm

end Lts
