/-
# Waiting for what is missing

A vertex of a graph can go ahead when everything that it depends on, transitively, has been done.
Not all vertices are known from the start.  A vertex that cannot go ahead is registered under some of
those that it waits for.  It is `Covered` if nothing unknown is reached from it except through them:
when they have all been done, it can go ahead.  If every blocked vertex is registered under one that
came later, none of them waits in a circle: each one waits for a vertex that is not known.
-/
import Mathlib

open Relation

namespace Waiting

variable {V : Type*} {dep : V → V → Prop} {known done known' done' reg reg' : V → Prop} {x y : V}

/-- A set of vertices around `x` that are known, and whose dependencies lead out of it only to what
`x` is registered under or what has been done. -/
def Covered (dep : V → V → Prop) (known done reg : V → Prop) (x : V) : Prop :=
  ∃ S : V → Prop, S x ∧ ∀ z, S z → done z ∨ known z ∧ ∀ d, dep z d → S d ∨ reg d ∨ done d

/-- Covered vertices stay so when more is done, and when a registration is taken away because what it
is for has been done. -/
theorem Covered.mono (h : Covered dep known done reg x) (hdone : ∀ z, done z → done' z)
    (hknown : ∀ z, known z → known' z ∨ done' z) (hreg : ∀ d, reg d → reg' d ∨ done' d) :
    Covered dep known' done' reg' x := by
  obtain ⟨S, hx, hS⟩ := h
  refine ⟨S, hx, fun z hz => ?_⟩
  rcases hS z hz with hz | ⟨hz, hdeps⟩
  · exact .inl (hdone z hz)
  · rcases hknown z hz with hz | hz
    · refine .inr ⟨hz, fun d hd => ?_⟩
      rcases hdeps d hd with hd | hd | hd
      · exact .inl hd
      · exact .inr (hreg d hd)
      · exact .inr (.inr (hdone d hd))
    · exact .inl hz

/-- A covered vertex without registrations reaches, through what is not done, only what is known. -/
theorem Covered.known_of_reach (h : Covered dep known done reg x) (hreg : ∀ d, ¬ reg d)
    (hxy : ReflTransGen (fun a b => ¬ done a ∧ dep a b) x y) : done y ∨ known y := by
  obtain ⟨S, hx, hS⟩ := h
  have hy : S y ∨ done y := by
    induction hxy with
    | refl => exact .inl hx
    | @tail a b _ hab ih =>
      have ha := ih.resolve_right hab.1
      rcases hS a ha with hdone | ⟨-, hdeps⟩
      · exact absurd hdone hab.1
      · exact (hdeps b hab.2).imp_right fun hb => hb.resolve_left (hreg b)
  rcases hy with hy | hy
  · exact (hS y hy).imp_right And.left
  · exact .inl hy

/-- **No waiting in a circle.** -/
theorem exists_missing {blocked : V → Prop} {regs : V → V → Prop} {rank : V → ℕ} {bound : ℕ}
    (hbound : ∀ x, blocked x → rank x < bound) (hwait : ∀ x, blocked x → ∃ d, regs x d)
    (hundone : ∀ x d, regs x d → ¬ done d) (hreach : ∀ x d, regs x d → ReflTransGen dep x d)
    (hrank : ∀ x d, blocked x → blocked d → regs x d → rank x < rank d) (hx : blocked x) :
    ∃ m, ReflTransGen dep x m ∧ ¬ blocked m ∧ ¬ done m := by
  -- the ranks along the registrations grow, and are bounded
  induction hn : bound - rank x using Nat.strong_induction_on generalizing x with
  | _ n ih =>
    obtain ⟨d, hd⟩ := hwait x hx
    by_cases hblocked : blocked d
    · have hlt := hrank x d hx hblocked hd
      have hdb := hbound d hblocked
      obtain ⟨m, hdm, hm⟩ := ih (bound - rank d) (by omega) hblocked rfl
      exact ⟨m, (hreach x d hd).trans hdm, hm⟩
    · exact ⟨d, hreach x d hd, hblocked, hundone x d hd⟩

end Waiting
