/-
  Lib/Tiling.lean --- a range tiled by cells.

  `Tiles w lo cells hi` says that the cells, each as wide as `w` has it, cover `[lo, hi)` one
  right after the other.  A cell may be split in two and two neighbours may be merged, and a
  walk that goes from cell to cell by their widths finds the first cell that it looks for.
-/
import Mathlib.Data.List.Basic

set_option autoImplicit false

namespace Tiling

variable {w w' : Nat → Nat} {lo mid hi : Nat} {cells front back : List Nat} {c : Nat}

/-- The cells cover `[lo, hi)`. -/
def Tiles (w : Nat → Nat) : Nat → List Nat → Nat → Prop
  | lo, [], hi => lo = hi
  | lo, c :: cells, hi => c = lo ∧ 0 < w c ∧ Tiles w (c + w c) cells hi

/-! ## Structure -/

theorem tiles_append : Tiles w lo (front ++ back) hi ↔
    ∃ mid, Tiles w lo front mid ∧ Tiles w mid back hi := by
  induction front generalizing lo with
  | nil => simp [Tiles]
  | cons c front ih =>
      simp only [List.cons_append, Tiles, ih]
      constructor
      · rintro ⟨hc, hpos, mid, hfront, hback⟩
        exact ⟨mid, ⟨hc, hpos, hfront⟩, hback⟩
      · rintro ⟨mid, ⟨hc, hpos, hfront⟩, hback⟩
        exact ⟨hc, hpos, mid, hfront, hback⟩

/-- The cells before a cell end where it begins. -/
theorem tiles_append_cons : Tiles w lo (front ++ c :: back) hi ↔
    Tiles w lo front c ∧ 0 < w c ∧ Tiles w (c + w c) back hi := by
  rw [tiles_append]
  constructor
  · rintro ⟨mid, hfront, rfl, hpos, hback⟩
    exact ⟨hfront, hpos, hback⟩
  · rintro ⟨hfront, hpos, hback⟩
    exact ⟨c, hfront, rfl, hpos, hback⟩

theorem Tiles.congr (h : Tiles w lo cells hi) (heq : ∀ c ∈ cells, w' c = w c) :
    Tiles w' lo cells hi := by
  induction cells generalizing lo with
  | nil => exact h
  | cons c cells ih =>
      obtain ⟨hc, hpos, hrest⟩ := h
      have hw := heq c List.mem_cons_self
      refine ⟨hc, by rw [hw]; exact hpos, ?_⟩
      rw [hw]
      exact ih hrest fun c' hc' => heq c' (List.mem_cons_of_mem _ hc')

theorem Tiles.le (h : Tiles w lo cells hi) : lo ≤ hi := by
  induction cells generalizing lo with
  | nil => exact Nat.le_of_eq h
  | cons c cells ih =>
      obtain ⟨rfl, -, hrest⟩ := h
      exact Nat.le_of_add_right_le (ih hrest)

/-- A cell lies in the range. -/
theorem Tiles.mem (h : Tiles w lo cells hi) (hc : c ∈ cells) :
    lo ≤ c ∧ 0 < w c ∧ c + w c ≤ hi := by
  obtain ⟨front, back, rfl⟩ := List.append_of_mem hc
  obtain ⟨hfront, hpos, hback⟩ := tiles_append_cons.1 h
  exact ⟨hfront.le, hpos, hback.le⟩

/-- Of two cells one ends before the other begins. -/
theorem Tiles.pairwise (h : Tiles w lo cells hi) :
    cells.Pairwise fun c c' => c + w c ≤ c' := by
  induction cells generalizing lo with
  | nil => exact List.Pairwise.nil
  | cons c cells ih =>
      obtain ⟨-, -, hrest⟩ := h
      exact List.Pairwise.cons (fun c' hc' => (hrest.mem hc').1) (ih hrest)

theorem Tiles.nodup (h : Tiles w lo cells hi) : cells.Nodup := by
  refine h.pairwise.imp_of_mem fun {c c'} hc _ hle heq => ?_
  have hpos := (h.mem hc).2.1
  omega

/-- There are no more cells than the range is wide. -/
theorem Tiles.length_le (h : Tiles w lo cells hi) : lo + cells.length ≤ hi := by
  induction cells generalizing lo with
  | nil => exact Nat.le_of_eq h
  | cons c cells ih =>
      obtain ⟨rfl, hpos, hrest⟩ := h
      have hle := ih hrest
      rw [List.length_cons]
      omega

/-- A range is tiled in one way only. -/
theorem Tiles.unique {cells' : List Nat} (h : Tiles w lo cells hi) (h' : Tiles w lo cells' hi) :
    cells = cells' := by
  induction cells generalizing lo cells' with
  | nil =>
      cases cells' with
      | nil => rfl
      | cons c' cells' =>
          have hmem := h'.mem List.mem_cons_self
          obtain rfl : lo = hi := h
          omega
  | cons c cells ih =>
      obtain ⟨rfl, hpos, hrest⟩ := h
      cases cells' with
      | nil =>
          obtain rfl : c = hi := h'
          have hle := hrest.le
          omega
      | cons c' cells' =>
          obtain ⟨rfl, -, hrest'⟩ := h'
          rw [ih hrest hrest']

/-- The other cells do not begin within a cell. -/
theorem Tiles.disjoint {c' : Nat} (h : Tiles w lo (front ++ c :: back) hi)
    (hc' : c' ∈ front ++ back) : c' < c ∨ c + w c ≤ c' := by
  obtain ⟨hfront, -, hback⟩ := tiles_append_cons.1 h
  rcases List.mem_append.1 hc' with hmem | hmem
  · have hbounds := hfront.mem hmem
    omega
  · exact Or.inr (hback.mem hmem).1

/-! ## Splitting and merging -/

/-- A cell is split in two. -/
theorem Tiles.split {a b : Nat} (h : Tiles w lo (front ++ c :: back) hi) (ha : 0 < a) (hb : 0 < b)
    (hab : a + b = w c) (hwc : w' c = a) (hwa : w' (c + a) = b)
    (heq : ∀ c' ∈ front ++ back, w' c' = w c') :
    Tiles w' lo (front ++ c :: (c + a) :: back) hi := by
  obtain ⟨hfront, -, hback⟩ := tiles_append_cons.1 h
  rw [tiles_append_cons, hwc]
  refine ⟨hfront.congr fun c' hc' => heq c' (List.mem_append_left back hc'), ha, rfl,
    by rw [hwa]; exact hb, ?_⟩
  rw [hwa, Nat.add_assoc, hab]
  exact hback.congr fun c' hc' => heq c' (List.mem_append_right front hc')

/-- A cell is merged into the one before it. -/
theorem Tiles.merge {p : Nat} (h : Tiles w lo (front ++ p :: c :: back) hi)
    (hwp : w' p = w p + w c) (heq : ∀ c' ∈ front ++ back, w' c' = w c') :
    Tiles w' lo (front ++ p :: back) hi := by
  obtain ⟨hfront, hpos, rfl, -, hback⟩ := tiles_append_cons.1 h
  rw [tiles_append_cons, hwp, ← Nat.add_assoc]
  exact ⟨hfront.congr fun c' hc' => heq c' (List.mem_append_left back hc'),
    Nat.lt_of_lt_of_le hpos (Nat.le_add_right _ _),
    hback.congr fun c' hc' => heq c' (List.mem_append_right front hc')⟩

/-! ## Walks -/

/-- A walk goes on from cell to cell while there is room for what it looks for, and stops
at the first cell that has it.  It is enough that a cell that has it is that wide. -/
theorem Tiles.walk {β : Type} {f : Nat → Nat → β} {need : Nat} {p : Nat → Bool}
    {g : Nat → β} {b : β} (hneed : 0 < need)
    (hmiss : ∀ fuel o, ¬o + need ≤ hi → f (fuel + 1) o = b)
    (hhit : ∀ fuel, ∀ c ∈ cells, c + need ≤ hi → p c = true → f (fuel + 1) c = g c)
    (hnext : ∀ fuel, ∀ c ∈ cells, c + need ≤ hi → p c = false →
      f (fuel + 1) c = f fuel (c + w c))
    (hwide : ∀ c ∈ cells, p c = true → need ≤ w c)
    (h : Tiles w lo cells hi) {fuel : Nat} (hfuel : cells.length < fuel) :
    f fuel lo = (cells.find? p).elim b g := by
  induction cells generalizing lo fuel with
  | nil =>
      obtain ⟨fuel, rfl⟩ := Nat.exists_eq_add_one_of_ne_zero (Nat.ne_of_gt hfuel)
      have hlo : lo = hi := h
      exact hmiss fuel lo (by omega)
  | cons c cells ih =>
      obtain ⟨fuel, rfl⟩ := Nat.exists_eq_add_one_of_ne_zero (Nat.ne_of_gt (Nat.zero_lt_of_lt hfuel))
      obtain ⟨rfl, -, hrest⟩ := h
      have hle := hrest.le
      cases hp : p c with
      | true =>
          have hw := hwide c List.mem_cons_self hp
          rw [List.find?_cons_of_pos hp]
          exact hhit fuel c List.mem_cons_self (by omega) hp
      | false =>
          rw [List.find?_cons_of_neg (by simp [hp])]
          by_cases hroom : c + need ≤ hi
          · rw [hnext fuel c List.mem_cons_self hroom hp]
            exact ih (fun n c' hc' => hhit n c' (List.mem_cons_of_mem _ hc'))
              (fun n c' hc' => hnext n c' (List.mem_cons_of_mem _ hc'))
              (fun c' hc' => hwide c' (List.mem_cons_of_mem _ hc')) hrest
              (Nat.lt_of_succ_lt_succ hfuel)
          · -- no later cell has the room either
            have hnone : cells.find? p = none := by
              refine List.find?_eq_none.2 fun c' hc' hp' => ?_
              have hw := hwide c' (List.mem_cons_of_mem _ hc') hp'
              have hbounds := hrest.mem hc'
              omega
            rw [hnone, hmiss fuel c hroom, Option.elim_none]

end Tiling
