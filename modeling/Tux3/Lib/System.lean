/-
  Lib/System.lean --- transition systems and their invariants.

  A system is a set of initial states and a step relation.  An invariant is proved
  once for the initial states and once for a step; `Reachable.invariant` is the only
  induction over runs.
-/

set_option autoImplicit false

universe u

/-- A transition system on states `σ`. -/
structure System (σ : Type u) where
  init : σ → Prop
  next : σ → σ → Prop

namespace System

variable {σ : Type u} {S : System σ}

/-- The states a run can reach. -/
inductive Reachable (S : System σ) : σ → Prop where
  | init {s : σ} (h : S.init s) : Reachable S s
  | next {s s' : σ} (h : Reachable S s) (hstep : S.next s s') : Reachable S s'

/-- What holds initially and is kept by every step holds of every reachable state. -/
theorem Reachable.invariant {I : σ → Prop} (hinit : ∀ s, S.init s → I s)
    (hnext : ∀ s s', I s → S.next s s' → I s') {s : σ} (h : Reachable S s) : I s := by
  induction h with
  | init h => exact hinit _ h
  | next _ hstep ih => exact hnext _ _ ih hstep

end System
