/-
  Lib/StepTable.lean --- tables of steps.

  A table is a list of entries with keys, in the order of the keys.  The entry of a point is the
  last one whose key is not above the point: each entry holds from its key up to the next one.
-/
import Mathlib.Order.Lattice
import Mathlib.Data.List.Induction

set_option autoImplicit false

namespace StepTable

variable {α κ : Type} [LinearOrder κ] {key : α → κ} {x y : κ} {l front back : List α} {a b : α}

/-- The last entry whose key is at most `x`. -/
def lastAt (key : α → κ) (l : List α) (x : κ) : Option α :=
  (l.filter fun a => decide (key a ≤ x)).getLast?

@[simp] theorem lastAt_nil : lastAt key [] x = none := rfl

theorem lastAt_append :
    lastAt key (front ++ back) x = (lastAt key back x).or (lastAt key front x) := by
  unfold lastAt
  rw [List.filter_append, List.getLast?_append]

/-- All keys are above the point. -/
theorem lastAt_of_lt (h : ∀ a ∈ l, x < key a) : lastAt key l x = none := by
  have hnone : l.filter (fun a => decide (key a ≤ x)) = [] := by
    rw [List.filter_eq_nil_iff]
    intro a ha hle
    exact not_lt_of_ge (of_decide_eq_true hle) (h a ha)
  unfold lastAt
  rw [hnone]
  rfl

theorem lastAt_append_of_lt (h : ∀ b ∈ back, x < key b) :
    lastAt key (front ++ back) x = lastAt key front x := by
  rw [lastAt_append, lastAt_of_lt h]
  rfl

theorem lastAt_singleton (h : key a ≤ x) : lastAt key [a] x = some a := by
  unfold lastAt
  simp [h]

/-- The entry of a point. -/
theorem lastAt_split (ha : key a ≤ x) (hback : ∀ b ∈ back, x < key b) :
    lastAt key (front ++ a :: back) x = some a := by
  rw [List.append_cons, lastAt_append_of_lt hback, lastAt_append, lastAt_singleton ha]
  rfl

/-- There is an entry at or below the point. -/
theorem exists_split (h : ∃ a ∈ l, key a ≤ x) :
    ∃ front a back, l = front ++ a :: back ∧ key a ≤ x ∧ ∀ b ∈ back, x < key b := by
  induction l using List.reverseRecOn with
  | nil =>
      obtain ⟨a, ha, -⟩ := h
      exact absurd ha List.not_mem_nil
  | append_singleton l b ih =>
      rcases le_or_gt (key b) x with hle | hlt
      · exact ⟨l, b, [], rfl, hle, fun c hc => absurd hc List.not_mem_nil⟩
      obtain ⟨a, ha, hle⟩ := h
      have hmem : a ∈ l := by
        rcases List.mem_append.mp ha with hin | heq
        · exact hin
        · rw [List.mem_singleton.mp heq] at hle
          exact absurd hlt (not_lt_of_ge hle)
      obtain ⟨front, c, back, rfl, hc, hback⟩ := ih ⟨a, hmem, hle⟩
      refine ⟨front, c, back ++ [b], ?_, hc, ?_⟩
      · rw [List.append_assoc, List.cons_append]
      · intro d hd
        rcases List.mem_append.mp hd with hin | heq
        · exact hback d hin
        · exact List.mem_singleton.mp heq ▸ hlt

/-- The entries in front of one at or below the point do not count. -/
theorem lastAt_append_of_le (h : ∃ a ∈ back, key a ≤ x) :
    lastAt key (front ++ back) x = lastAt key back x := by
  obtain ⟨before, a, after, rfl, ha, hafter⟩ := exists_split h
  rw [← List.append_assoc, lastAt_split ha hafter, lastAt_split ha hafter]

/-- The entry of a point is one of the table. -/
theorem lastAt_eq_some (h : lastAt key l x = some a) : a ∈ l ∧ key a ≤ x := by
  obtain ⟨hmem, hle⟩ := List.mem_filter.mp (List.mem_of_getLast? h)
  exact ⟨hmem, of_decide_eq_true hle⟩

/-! ## Tables in order -/

/-- The keys ascend. -/
def Ascending (key : α → κ) (l : List α) : Prop := l.Pairwise fun a b => key a < key b

theorem Ascending.left (h : Ascending key (front ++ back)) : Ascending key front :=
  (List.pairwise_append.mp h).1

theorem Ascending.right (h : Ascending key (front ++ back)) : Ascending key back :=
  (List.pairwise_append.mp h).2.1

theorem Ascending.cross (h : Ascending key (front ++ back)) :
    ∀ a ∈ front, ∀ b ∈ back, key a < key b :=
  (List.pairwise_append.mp h).2.2

theorem Ascending.before (h : Ascending key (front ++ a :: back)) : ∀ b ∈ front, key b < key a :=
  fun b hb => h.cross b hb a List.mem_cons_self

theorem Ascending.after (h : Ascending key (front ++ a :: back)) : ∀ b ∈ back, key a < key b :=
  (List.pairwise_cons.mp h.right).1

theorem Ascending.append (hfront : Ascending key front) (hback : Ascending key back)
    (hcross : ∀ a ∈ front, ∀ b ∈ back, key a < key b) : Ascending key (front ++ back) :=
  List.pairwise_append.mpr ⟨hfront, hback, hcross⟩

end StepTable
