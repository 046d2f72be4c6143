/-
  Lib/Tally.lean --- tokens that tasks hold, counted over all tasks.

  An invariant over any number of tasks is often a number: how many of them hold a
  reference, own a flag, are at a certain place.  `tally` counts, and `tally_update` says
  what the move of one task does to the count.
-/
import Mathlib.Algebra.BigOperators.Group.Finset.Basic
import Mathlib.Algebra.BigOperators.Group.Finset.Piecewise
import Mathlib.Algebra.Order.BigOperators.Group.Finset
import Mathlib.Data.Fintype.Basic

set_option autoImplicit false

namespace Tally

variable {Task α : Type} [Fintype Task]

/-- The tokens that all tasks hold together, where a task in state `a` holds `w a`. -/
def tally (w : α → Nat) (tasks : Task → α) : Nat := ∑ t, w (tasks t)

variable {w : α → Nat} {tasks : Task → α}

/-- What one task holds is counted. -/
theorem le_tally (w : α → Nat) (tasks : Task → α) (t : Task) : w (tasks t) ≤ tally w tasks :=
  Finset.single_le_sum (f := fun t => w (tasks t)) (fun _ _ => Nat.zero_le _)
    (Finset.mem_univ t)

theorem tally_eq_zero (h : ∀ t, w (tasks t) = 0) : tally w tasks = 0 :=
  Finset.sum_eq_zero fun t _ => h t

theorem tally_le_card (h : ∀ t, w (tasks t) ≤ 1) : tally w tasks ≤ Fintype.card Task := by
  have hsum : tally w tasks ≤ ∑ _t : Task, 1 := Finset.sum_le_sum fun t _ => h t
  rw [← Finset.card_eq_sum_ones] at hsum
  exact hsum

/-- A token each counts the tasks that hold one. -/
theorem tally_eq_card {p : Task → Prop} [DecidablePred p]
    (h : ∀ t, w (tasks t) = if p t then 1 else 0) :
    tally w tasks = (Finset.univ.filter p).card := by
  rw [Finset.card_filter]
  exact Finset.sum_congr rfl fun t _ => h t

theorem eq_zero_of_tally (h : tally w tasks = 0) (t : Task) : w (tasks t) = 0 :=
  Nat.eq_zero_of_le_zero (h ▸ le_tally w tasks t)

/-- A single task that holds tokens is all there is to count. -/
theorem tally_eq_single {t : Task} (h : ∀ t', t' ≠ t → w (tasks t') = 0) :
    tally w tasks = w (tasks t) :=
  Finset.sum_eq_single t (fun t' _ hne => h t' hne) fun hmem => absurd (Finset.mem_univ t) hmem

variable [DecidableEq Task]

/-- The move of one task gives up the tokens of its old state and takes those of its new
one. -/
theorem tally_update (w : α → Nat) (tasks : Task → α) (t : Task) (a : α) :
    tally w (Function.update tasks t a) + w (tasks t) = tally w tasks + w a := by
  have hold := Finset.add_sum_erase Finset.univ (fun t => w (tasks t)) (Finset.mem_univ t)
  have hnew := Finset.add_sum_erase Finset.univ (fun t' => w (Function.update tasks t a t'))
    (Finset.mem_univ t)
  have hrest : ∑ t' ∈ Finset.univ.erase t, w (Function.update tasks t a t') =
      ∑ t' ∈ Finset.univ.erase t, w (tasks t') :=
    Finset.sum_congr rfl fun t' ht' => by
      rw [Function.update_of_ne (Finset.ne_of_mem_erase ht')]
  simp only [Function.update_self] at hnew
  unfold tally
  omega

/-- Two tasks that hold a token of which there is one are the same task. -/
theorem eq_of_tally_le_one (h : tally w tasks ≤ 1) {t t' : Task} (ht : 0 < w (tasks t))
    (ht' : 0 < w (tasks t')) : t = t' := by
  by_contra hne
  have hpair := Finset.sum_le_sum_of_subset (f := fun t => w (tasks t))
    (Finset.subset_univ {t, t'})
  rw [Finset.sum_pair hne] at hpair
  unfold tally at h
  omega

end Tally
