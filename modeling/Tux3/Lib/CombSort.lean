/-
  Lib/CombSort.lean --- comb sort in place, over any linear order.

  A pass goes down the data and exchanges what is out of order across the gap; the gap shrinks to
  one, and the passes of gap one go on until one of them exchanges nothing.  Each exchange of
  neighbours takes one inversion away, so that there are finitely many of them.
-/
import Mathlib.Algebra.Group.Nat.Defs
import Mathlib.Data.List.Sort

set_option autoImplicit false

namespace CombSort

theorem swap_neighbours {α : Type} {x y : α} (before after : List α) :
    (before ++ y :: x :: after).swap (before.length + 1) before.length =
      before ++ x :: y :: after := by
  induction before with
  | nil => rfl
  | cons b before ih => exact congrArg (b :: ·) ih

variable {α : Type} [LinearOrder α]

/-! ## The sort -/

/-- The gap of the next pass, in 32 bits. -/
def nextGap (gap : Nat) : Nat :=
  let gap := if 1 < gap then gap * 10 % 2 ^ 32 / 13 else gap
  if (gap + 2 ^ 32 - 9) % 2 ^ 32 < 2 then 11 else gap

/-- The elements at `i` and `j` are exchanged if the one at `i` is less; and if they were. -/
def exchange (data : List α) (i j : Nat) : List α × Bool :=
  match data[i]?, data[j]? with
  | some x, some y => if x < y then (data.swap i j, true) else (data, false)
  | _, _ => (data, false)

/-- A pass down from below index `i`, and if something was exchanged. -/
def pass (gap : Nat) : Nat → List α → Bool → List α × Bool
  | 0, data, more => (data, more)
  | i + 1, data, more =>
      if i < gap then (data, more)
      else
        let (data, exchanged) := exchange data i (i - gap)
        pass gap i data (more || exchanged)

/-- The sort, of at least one element and with at most `fuel` passes; `none` is a sort that needs
more of them. -/
def sort : Nat → Nat → List α → Option (List α)
  | 0, _, _ => none
  | fuel + 1, gap, data =>
      let gap := nextGap gap
      let (data, more) := pass gap data.length data (decide (1 < gap))
      if more then sort fuel gap data else some data

/-! ## Exchanges -/

section

variable {data : List α} {gap i j n : Nat} {more : Bool}

theorem exchange_perm (data : List α) (i j : Nat) : (exchange data i j).1.Perm data := by
  unfold exchange
  split
  · split
    · exact data.swap_perm i j
    · exact List.Perm.refl data
  · exact List.Perm.refl data

/-- A pass arranges the elements anew. -/
theorem pass_perm (gap n : Nat) (data : List α) (more : Bool) :
    (pass gap n data more).1.Perm data := by
  induction n generalizing data more with
  | zero => exact List.Perm.refl data
  | succ i ih =>
      unfold pass
      split
      · exact List.Perm.refl data
      · exact (ih _ _).trans (exchange_perm data i (i - gap))

/-! ## Inversions -/

/-- The pairs of places whose elements are out of order. -/
def inversions : List α → Nat
  | [] => 0
  | x :: xs => xs.countP (· < x) + inversions xs

theorem inversions_le (data : List α) : inversions data ≤ data.length * data.length := by
  induction data with
  | nil => exact Nat.le_refl 0
  | cons x xs ih =>
      have hcount := List.countP_le_length (p := fun y => decide (y < x)) (l := xs)
      rw [inversions, List.length_cons, Nat.succ_mul, Nat.mul_succ]
      omega

/-- Two neighbours that are out of order are an inversion less when they are exchanged. -/
theorem inversions_exchange {x y : α} (before after : List α) (h : x < y) :
    inversions (before ++ x :: y :: after) < inversions (before ++ y :: x :: after) := by
  induction before with
  | nil =>
      have hnot : ¬ y < x := not_lt_of_gt h
      simp only [List.nil_append, inversions, List.countP_cons, decide_eq_true h,
        decide_eq_false hnot, if_true, Bool.false_eq_true, if_false]
      omega
  | cons b before ih =>
      have hperm : (before ++ x :: y :: after).Perm (before ++ y :: x :: after) :=
        (List.Perm.swap y x after).append_left before
      rw [List.cons_append, List.cons_append, inversions, inversions, hperm.countP_eq]
      exact Nat.add_lt_add_left ih _

/-- An exchange of neighbours does nothing, or there is an inversion less. -/
theorem exchange_neighbours (data : List α) (i : Nat) (hi : i + 1 < data.length) :
    exchange data (i + 1) i = (data, false) ∧ data.get ⟨i, Nat.lt_of_succ_lt hi⟩ ≤ data[i + 1] ∨
      ∃ data', exchange data (i + 1) i = (data', true) ∧ data'.length = data.length ∧
        inversions data' < inversions data := by
  have hlt : i < data.length := Nat.lt_of_succ_lt hi
  unfold exchange
  rw [List.getElem?_eq_getElem hi, List.getElem?_eq_getElem hlt]
  dsimp only
  by_cases h : data[i + 1] < data[i]
  · right
    have hsplit : data = data.take i ++ data[i] :: data[i + 1] :: data.drop (i + 2) := by
      rw [List.getElem_cons_drop hi, List.getElem_cons_drop hlt, List.take_append_drop]
    have hlength : (data.take i).length = i := List.length_take_of_le (Nat.le_of_lt hlt)
    have hswap := swap_neighbours (y := data[i]) (x := data[i + 1]) (data.take i) (data.drop (i + 2))
    rw [← hsplit, hlength] at hswap
    rw [if_pos h]
    refine ⟨data.swap (i + 1) i, rfl, List.length_swap, ?_⟩
    have hless := inversions_exchange (data.take i) (data.drop (i + 2)) h
    rwa [← hsplit, ← hswap] at hless
  · left
    rw [if_neg h]
    exact ⟨rfl, le_of_not_gt h⟩

/-- What a pass of gap one does: nothing, on neighbours that are in order, or there are fewer
inversions after it. -/
theorem pass_one (n : Nat) (data : List α) (more : Bool) (hn : n ≤ data.length) :
    pass 1 n data more = (data, more) ∧
        (∀ i (hi : i + 1 < data.length), i + 1 < n → data.get ⟨i, Nat.lt_of_succ_lt hi⟩ ≤ data[i + 1]) ∨
      (pass 1 n data more).2 = true ∧ inversions (pass 1 n data more).1 < inversions data := by
  induction n generalizing data more with
  | zero => exact .inl ⟨rfl, fun i _ hlt => absurd hlt (Nat.not_lt_zero _)⟩
  | succ n ih =>
      cases n with
      | zero => exact .inl ⟨rfl, fun i _ hlt => absurd hlt (by omega)⟩
      | succ i =>
          have hturn : pass 1 (i + 1 + 1) data more =
              pass 1 (i + 1) (exchange data (i + 1) i).1 (more || (exchange data (i + 1) i).2) := by
            rw [pass, if_neg (by omega)]
            rfl
          rw [hturn]
          rcases exchange_neighbours data i hn with ⟨hkeep, hle⟩ | ⟨data', hless, hlength, hinv⟩
          · rw [hkeep, Bool.or_false]
            rcases ih data more (Nat.le_of_succ_le hn) with ⟨hpass, horder⟩ | hpass
            · refine .inl ⟨hpass, fun j hj hlt => ?_⟩
              rcases Nat.lt_succ_iff_lt_or_eq.mp hlt with hlt | heq
              · exact horder j hj hlt
              · obtain rfl := Nat.succ.inj heq
                exact hle
            · exact .inr hpass
          · rw [hless, Bool.or_true]
            right
            rcases ih data' true (hlength ▸ Nat.le_of_succ_le hn) with ⟨hpass, _⟩ | ⟨hmore, hinv'⟩
            · rw [hpass]
              exact ⟨rfl, hinv⟩
            · exact ⟨hmore, Nat.lt_trans hinv' hinv⟩

/-! ## Correctness -/

theorem nextGap_one : nextGap 1 = 1 := by decide

theorem nextGap_of_lt (hone : 1 < gap) (hgap : gap < 2 ^ 28) :
    nextGap gap = if gap * 10 / 13 = 9 ∨ gap * 10 / 13 = 10 then 11 else gap * 10 / 13 := by
  have hwrap : gap * 10 % 2 ^ 32 = gap * 10 := Nat.mod_eq_of_lt (by omega)
  have hless : gap * 10 / 13 < 2 ^ 28 := by omega
  unfold nextGap
  rw [if_pos hone, hwrap]
  dsimp only
  generalize gap * 10 / 13 = next at hless ⊢
  by_cases hnine : next = 9 ∨ next = 10
  · rw [if_pos (by omega), if_pos hnine]
  · rw [if_neg (by omega), if_neg hnine]

theorem nextGap_lt (hone : 1 < gap) (hgap : gap < 2 ^ 28) : nextGap gap < gap := by
  rw [nextGap_of_lt hone hgap]
  split <;> omega

theorem nextGap_pos (hpos : 0 < gap) (hgap : gap < 2 ^ 28) : 0 < nextGap gap := by
  rcases Nat.lt_or_eq_of_le hpos with hone | rfl
  · rw [nextGap_of_lt hone hgap]
    split <;> omega
  · rw [nextGap_one]
    exact Nat.zero_lt_one

/-- Data whose neighbours are in order is sorted. -/
theorem pairwise_of_neighbours
    (h : ∀ i (hi : i + 1 < data.length), data.get ⟨i, Nat.lt_of_succ_lt hi⟩ ≤ data[i + 1]) :
    data.Pairwise (· ≤ ·) :=
  (List.isChain_iff_getElem.mpr h).pairwise

/-- A pass that is not of gap one is never the last. -/
theorem pass_more (gap n : Nat) (data : List α) : (pass gap n data true).2 = true := by
  induction n generalizing data with
  | zero => rfl
  | succ i ih =>
      unfold pass
      split
      · rfl
      · exact ih (exchange data i (i - gap)).1

theorem sort_succ (fuel gap : Nat) (data : List α) :
    sort (fuel + 1) gap data =
      if (pass (nextGap gap) data.length data (decide (1 < nextGap gap))).2 = true then
        sort fuel (nextGap gap) (pass (nextGap gap) data.length data (decide (1 < nextGap gap))).1
      else some (pass (nextGap gap) data.length data (decide (1 < nextGap gap))).1 := rfl

/-- The passes of gap one: an inversion less after each but the last. -/
theorem sort_one {fuel : Nat} (hfuel : inversions data < fuel) :
    ∃ sorted, sort fuel 1 data = some sorted ∧ sorted.Perm data ∧ sorted.Pairwise (· ≤ ·) := by
  induction fuel generalizing data with
  | zero => exact absurd hfuel (Nat.not_lt_zero _)
  | succ fuel ih =>
      have hlast : decide (1 < nextGap 1) = false := by rw [nextGap_one]; rfl
      rw [sort_succ, hlast, nextGap_one]
      rcases pass_one data.length data false (Nat.le_refl _) with ⟨hpass, horder⟩ | ⟨hmore, hless⟩
      · rw [hpass, if_neg Bool.false_ne_true]
        exact ⟨data, rfl, List.Perm.refl data, pairwise_of_neighbours fun i hi => horder i hi hi⟩
      · obtain ⟨sorted, hsort, hperm, hsorted⟩ := ih (Nat.lt_of_lt_of_le hless (Nat.le_of_lt_succ hfuel))
        rw [if_pos hmore]
        exact ⟨sorted, hsort, hperm.trans (pass_perm 1 _ data false), hsorted⟩

/-- With a pass for each gap and one for each inversion, the sort comes to an end, with the same
elements in order. -/
theorem sort_spec {fuel : Nat} (hpos : 0 < gap) (hgap : gap < 2 ^ 28)
    (hfuel : gap + data.length * data.length ≤ fuel) :
    ∃ sorted, sort fuel gap data = some sorted ∧ sorted.Perm data ∧ sorted.Pairwise (· ≤ ·) := by
  induction fuel generalizing gap data with
  | zero => exact absurd hpos (by omega)
  | succ fuel ih =>
      have hinv := inversions_le data
      have hnext := nextGap_pos hpos hgap
      rcases Nat.lt_or_eq_of_le hnext with hmany | hlast
      · have hone : 1 < gap := by
          by_contra hle
          obtain rfl : gap = 1 := by omega
          rw [nextGap_one] at hmany
          exact absurd hmany (Nat.lt_irrefl 1)
        have hless := nextGap_lt hone hgap
        have hperm := pass_perm (nextGap gap) data.length data true
        obtain ⟨sorted, hsort, hperm', hsorted⟩ :=
          ih (show 0 < nextGap gap from hnext)
            (Nat.lt_trans hless hgap) (by rw [hperm.length_eq]; omega)
        rw [sort_succ, decide_eq_true hmany, if_pos (pass_more _ _ data)]
        exact ⟨sorted, hsort, hperm'.trans hperm, hsorted⟩
      · have heq : sort (fuel + 1) gap data = sort (fuel + 1) 1 data := by
          rw [sort_succ, sort_succ, nextGap_one, ← hlast]
        rw [heq]
        exact sort_one (by omega)

end

end CombSort
