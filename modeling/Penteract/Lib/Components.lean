/-
# Strongly connected components and closed sets of vertices

A graph is a relation `E : V → V → Prop`.  `Connected E u v` says that `u` and `v` lie in
one strongly connected component.  The second half is about a set of vertices that is
closed under predecessors: inside it, a graph may gain edges elsewhere without any
component changing.  This is the general form of "a component that was found on a prefix
of the edges is final".
-/
import Mathlib

open Relation

namespace Components

variable {V : Type*} {E E' : V → V → Prop}

/-- `u` and `v` reach each other. -/
def Connected (E : V → V → Prop) (u v : V) : Prop :=
  ReflTransGen E u v ∧ ReflTransGen E v u

theorem Connected.refl (u : V) : Connected E u u := ⟨.refl, .refl⟩

variable {u v : V} {C : V → Prop}

theorem Connected.symm (h : Connected E u v) : Connected E v u := ⟨h.2, h.1⟩

theorem Connected.trans {w : V} (h₁ : Connected E u v) (h₂ : Connected E v w) :
    Connected E u w := ⟨h₁.1.trans h₂.1, h₂.2.trans h₁.2⟩

/-! ## Sets closed under predecessors -/

/-- `C` is closed under the predecessors of `E'`, and `E'` adds no edge into it. -/
def PredClosed (E E' : V → V → Prop) (C : V → Prop) : Prop :=
  ∀ u v, E' u v → C v → E u v ∧ C u

/-- A path that ends in a closed set stays in it and uses old edges only. -/
theorem PredClosed.reach (hC : PredClosed E E' C) (h : ReflTransGen E' u v) (hv : C v) :
    ReflTransGen E u v ∧ C u := by
  induction h using ReflTransGen.head_induction_on with
  | refl => exact ⟨.refl, hv⟩
  | head hab _ ih =>
    obtain ⟨hE, hCa⟩ := hC _ _ hab ih.2
    exact ⟨ReflTransGen.head hE ih.1, hCa⟩

/-- **Finality.**  Inside a closed set, more edges do not change the components. -/
theorem PredClosed.connected_iff (hC : PredClosed E E' C) (hle : ∀ u v, E u v → E' u v) (hv : C v) :
    Connected E' u v ↔ Connected E u v := by
  have hmono : ∀ {a b : V}, ReflTransGen E a b → ReflTransGen E' a b :=
    fun h => ReflTransGen.mono hle _ _ h
  constructor
  · rintro ⟨huv, hvu⟩
    obtain ⟨h, hu⟩ := hC.reach huv hv
    exact ⟨h, (hC.reach hvu hu).1⟩
  · rintro ⟨huv, hvu⟩
    exact ⟨hmono huv, hmono hvu⟩

end Components
