/-
  Lib/Packed.lean --- lists that lie packed in one memory, one after the other.

  An index gives where each list begins, and a second one how many values it has.  A value is put
  into a list, or taken from it, by moving all that lies behind it by one place.
-/
import Tux3.Lib.Area

set_option autoImplicit false

namespace Packed

open Area (Holds holds_cons holds_append)

variable {α : Type} {mem mem' : Nat → α} {start count : Nat → Nat} {n p v w m : Nat} {c : α}
  {lists : Nat → List α} {l a b : List α}

/-- The place of a list: behind all the lists in front of it. -/
def offset (lists : Nat → List α) : Nat → Nat
  | 0 => 0
  | v + 1 => offset lists v + (lists v).length

theorem offset_succ (lists : Nat → List α) (v : Nat) :
    offset lists (v + 1) = offset lists v + (lists v).length := rfl

theorem offset_mono (lists : Nat → List α) (h : v ≤ w) : offset lists v ≤ offset lists w := by
  induction h with
  | refl => exact Nat.le_refl _
  | step _ ih => exact Nat.le_trans ih (Nat.le_add_right _ _)

/-- A list ends where the later ones have not yet begun. -/
theorem offset_end_le (lists : Nat → List α) (h : v < w) :
    offset lists v + (lists v).length ≤ offset lists w :=
  offset_mono lists (Nat.succ_le_of_lt h)

theorem offset_update_le (h : w ≤ p) : offset (Function.update lists p l) w = offset lists w := by
  induction w with
  | zero => rfl
  | succ w ih =>
      rw [offset_succ, offset_succ, ih (Nat.le_of_succ_le h),
        Function.update_of_ne (Nat.ne_of_lt h)]

theorem offset_update_gt (lists : Nat → List α) (l : List α) (h : p < w) :
    offset (Function.update lists p l) w + (lists p).length = offset lists w + l.length := by
  induction w with
  | zero => exact absurd h (Nat.not_lt_zero p)
  | succ w ih =>
      rw [offset_succ, offset_succ]
      rcases Nat.eq_or_lt_of_le (Nat.le_of_lt_succ h) with rfl | hlt
      · rw [offset_update_le (Nat.le_refl p), Function.update_self, Nat.add_right_comm]
      · have hw := ih hlt
        rw [Function.update_of_ne (Nat.ne_of_gt hlt)]
        omega

/-- The first `n` lists are packed, and the indexes tell where and how long they are. -/
structure Packs (mem : Nat → α) (start count : Nat → Nat) (n : Nat) (lists : Nat → List α) :
    Prop where
  start_eq : ∀ v, v < n → start v = offset lists v
  count_eq : ∀ v, v < n → count v = (lists v).length
  holds : ∀ v, v < n → Holds mem (offset lists v) (lists v)

/-- The values of a list are read through the index. -/
theorem Packs.get (h : Packs mem start count n lists) (hv : v < n) {i : Nat}
    (hi : i < (lists v).length) : mem (start v + i) = (lists v)[i] := by
  rw [h.start_eq v hv]
  exact (h.holds v hv).eq_getElem hi

theorem Packs.read (h : Packs mem start count n lists) (hv : v < n) :
    (List.range (count v)).map (fun i => mem (start v + i)) = lists v := by
  rw [h.count_eq v hv]
  refine List.ext_getElem (by rw [List.length_map, List.length_range]) fun i _ hi => ?_
  rw [List.getElem_map, List.getElem_range]
  exact h.get hv hi

/-- The number of values in the first `n` lists. -/
theorem offset_eq_length (lists : Nat → List α) (n : Nat) :
    offset lists n = ((List.range n).flatMap lists).length := by
  induction n with
  | zero => rfl
  | succ n ih => rw [offset_succ, List.range_succ, List.flatMap_append, List.length_append, ih,
      List.flatMap_singleton]

/-- Another list is begun behind the last one. -/
theorem Packs.extend {start' : Nat → Nat} (h : Packs mem start count n lists)
    (hsame : ∀ v, v < n → start' v = start v) (hempty : lists n = [])
    (hstart : start' n = offset lists n) (hcount : count n = 0) :
    Packs mem start' count (n + 1) lists := by
  refine ⟨fun v hv => ?_, fun v hv => ?_, fun v hv => ?_⟩
  all_goals rcases Nat.eq_or_lt_of_le (Nat.le_of_lt_succ hv) with rfl | hlt
  · exact hstart
  · exact (hsame v hlt).trans (h.start_eq v hlt)
  · rw [hempty]
    exact hcount
  · exact h.count_eq v hlt
  · rw [hempty]
    trivial
  · exact h.holds v hlt

/-- A list is replaced by one of the same length. -/
theorem Packs.replace (h : Packs mem start count n lists) (hlen : l.length = (lists p).length)
    (hsame : ∀ k, k < offset lists p ∨ offset lists p + (lists p).length ≤ k → mem' k = mem k)
    (hholds : Holds mem' (offset lists p) l) :
    Packs mem' start count n (Function.update lists p l) := by
  have hoffset (v : Nat) : offset (Function.update lists p l) v = offset lists v := by
    rcases Nat.lt_or_ge p v with hlt | hge
    · have hgt := offset_update_gt lists l hlt
      omega
    · exact offset_update_le hge
  refine ⟨fun v hv => ?_, fun v hv => ?_, fun v hv => ?_⟩
  · rw [hoffset]
    exact h.start_eq v hv
  · rw [h.count_eq v hv]
    rcases eq_or_ne v p with rfl | hne
    · rw [Function.update_self, hlen]
    · rw [Function.update_of_ne hne]
  · rw [hoffset]
    rcases eq_or_ne v p with rfl | hne
    · rw [Function.update_self]
      exact hholds
    · rw [Function.update_of_ne hne]
      refine (h.holds v hv).congr fun k hk => hsame _ ?_
      rcases Nat.lt_or_gt_of_ne hne with hlt | hgt
      · have hend := offset_end_le lists hlt
        omega
      · have hend := offset_end_le lists hgt
        omega

/-- A value is put into a list. -/
theorem Packs.insert (h : Packs mem start count n lists) (hlist : lists p = a ++ b) {pos : Nat}
    (hpos : pos = offset lists p + a.length) (hroom : offset lists n ≤ pos + m) :
    Packs (Function.update (Area.copy mem (pos + 1) mem pos m) pos c)
      (fun i => if p < i ∧ i < n then start i + 1 else start i)
      (Function.update count p (count p + 1)) n (Function.update lists p (a ++ c :: b)) := by
  have hlen : (lists p).length = a.length + b.length := by rw [hlist, List.length_append]
  have hlen' : (a ++ c :: b).length = (lists p).length + 1 := by
    rw [hlen, List.length_append, List.length_cons, Nat.add_assoc]
  refine ⟨fun v hv => ?_, fun v hv => ?_, fun v hv => ?_⟩
  · rcases Nat.lt_or_ge p v with hlt | hge
    · have hgt := offset_update_gt lists (a ++ c :: b) hlt
      rw [if_pos ⟨hlt, hv⟩, h.start_eq v hv]
      omega
    · rw [if_neg (fun hin => Nat.not_lt_of_le hge hin.1), h.start_eq v hv, offset_update_le hge]
  · rcases eq_or_ne v p with rfl | hne
    · rw [Function.update_self, Function.update_self, h.count_eq v hv, hlen']
    · rw [Function.update_of_ne hne, Function.update_of_ne hne, h.count_eq v hv]
  · have hheld := h.holds v hv
    rcases Nat.lt_trichotomy v p with hlt | rfl | hgt
    · have hend := offset_end_le lists hlt
      rw [Function.update_of_ne (Nat.ne_of_lt hlt), offset_update_le (Nat.le_of_lt hlt)]
      exact (hheld.copy_outside (.inl (by omega))).update_outside (.inr (by omega))
    · have hend := offset_end_le lists hv
      rw [hlist, holds_append] at hheld
      rw [Function.update_self, offset_update_le (Nat.le_refl v), holds_append, holds_cons]
      refine ⟨?_, ?_, ?_⟩
      · exact (hheld.1.copy_outside (.inl (by omega))).update_outside (.inr (by omega))
      · rw [hpos]
        exact Function.update_self _ _ _
      · refine Holds.update_outside ?_ (.inl (by omega))
        exact hheld.2.copied (by omega) (by omega) (by omega)
    · have hgt' := offset_update_gt lists (a ++ c :: b) hgt
      have hbefore := offset_end_le lists hgt
      have hend := offset_end_le lists hv
      rw [Function.update_of_ne (Nat.ne_of_gt hgt)]
      refine Holds.update_outside ?_ (.inl (by omega))
      exact hheld.copied (by omega) (by omega) (by omega)

/-- A value is taken from a list. -/
theorem Packs.erase (h : Packs mem start count n lists) (hlist : lists p = a ++ c :: b)
    {pos : Nat} (hpos : pos = offset lists p + a.length)
    (hroom : offset lists n ≤ pos + 1 + m) :
    Packs (Area.copy mem pos mem (pos + 1) m)
      (fun i => if p < i ∧ i < n then start i - 1 else start i)
      (Function.update count p (count p - 1)) n (Function.update lists p (a ++ b)) := by
  have hlen : (lists p).length = a.length + (b.length + 1) := by
    rw [hlist, List.length_append, List.length_cons]
  have hlen' : (a ++ b).length + 1 = (lists p).length := by
    rw [hlen, List.length_append, Nat.add_assoc]
  refine ⟨fun v hv => ?_, fun v hv => ?_, fun v hv => ?_⟩
  · rcases Nat.lt_or_ge p v with hlt | hge
    · have hgt := offset_update_gt lists (a ++ b) hlt
      rw [if_pos ⟨hlt, hv⟩, h.start_eq v hv]
      omega
    · rw [if_neg (fun hin => Nat.not_lt_of_le hge hin.1), h.start_eq v hv, offset_update_le hge]
  · rcases eq_or_ne v p with rfl | hne
    · rw [Function.update_self, Function.update_self, h.count_eq v hv]
      omega
    · rw [Function.update_of_ne hne, Function.update_of_ne hne, h.count_eq v hv]
  · have hheld := h.holds v hv
    rcases Nat.lt_trichotomy v p with hlt | rfl | hgt
    · have hend := offset_end_le lists hlt
      rw [Function.update_of_ne (Nat.ne_of_lt hlt), offset_update_le (Nat.le_of_lt hlt)]
      exact hheld.copy_outside (.inl (by omega))
    · have hend := offset_end_le lists hv
      rw [hlist, holds_append, holds_cons] at hheld
      rw [Function.update_self, offset_update_le (Nat.le_refl v), holds_append]
      refine ⟨?_, ?_⟩
      · exact hheld.1.copy_outside (.inl (by omega))
      · exact hheld.2.2.copied (by omega) (by omega) (by omega)
    · have hgt' := offset_update_gt lists (a ++ b) hgt
      have hbefore := offset_end_le lists hgt
      have hend := offset_end_le lists hv
      rw [Function.update_of_ne (Nat.ne_of_gt hgt)]
      exact hheld.copied (by omega) (by omega) (by omega)

end Packed
