/-
  Lib/Area.lean --- lists that are stored in a memory.

  A memory gives a value to each offset.  `Holds mem off l` says that the values of `l` lie one
  after the other from the offset `off` on.  Blocks are copied (`copy`) and single values
  changed (`Function.update`); what lies elsewhere stays stored.
-/
import Mathlib.Data.List.Basic
import Mathlib.Logic.Function.Basic

set_option autoImplicit false

namespace Area

variable {α : Type} {mem mem' : Nat → α} {off off' k : Nat} {a : α} {l l' : List α}

/-- The values of the list lie from the offset on. -/
def Holds (mem : Nat → α) : Nat → List α → Prop
  | _, [] => True
  | off, a :: l => mem off = a ∧ Holds mem (off + 1) l

/-- The values from an offset on. -/
def read (mem : Nat → α) (off : Nat) : Nat → List α
  | 0 => []
  | n + 1 => mem off :: read mem (off + 1) n

/-- `memcpy`: `size` values from `from_` on go to `at_` on. -/
def copy (dst : Nat → α) (at_ : Nat) (src : Nat → α) (from_ size : Nat) : Nat → α := fun k =>
  if at_ ≤ k ∧ k < at_ + size then src (from_ + (k - at_)) else dst k

@[simp] theorem holds_nil : Holds mem off [] := trivial

@[simp] theorem holds_cons : Holds mem off (a :: l) ↔ mem off = a ∧ Holds mem (off + 1) l :=
  Iff.rfl

theorem holds_append :
    Holds mem off (l ++ l') ↔ Holds mem off l ∧ Holds mem (off + l.length) l' := by
  induction l generalizing off with
  | nil => simp
  | cons a l ih =>
      rw [List.cons_append, holds_cons, holds_cons, ih, List.length_cons, and_assoc,
        show off + 1 + l.length = off + (l.length + 1) by omega]

/-- What is stored is a matter of the values in its range. -/
theorem Holds.congr (h : Holds mem off l)
    (heq : ∀ k, k < l.length → mem' (off' + k) = mem (off + k)) : Holds mem' off' l := by
  induction l generalizing off off' with
  | nil => trivial
  | cons a l ih =>
      obtain ⟨hhead, htail⟩ := h
      refine ⟨?_, ih htail fun k hk => ?_⟩
      · exact (heq 0 (Nat.succ_pos _)).trans hhead
      · have hval := heq (k + 1) (Nat.succ_lt_succ hk)
        rw [show off' + 1 + k = off' + (k + 1) by omega,
          show off + 1 + k = off + (k + 1) by omega]
        exact hval

theorem Holds.eq_getElem (h : Holds mem off l) (hk : k < l.length) : mem (off + k) = l[k] := by
  induction l generalizing off k with
  | nil => exact absurd hk (Nat.not_lt_zero k)
  | cons a l ih =>
      cases k with
      | zero => exact h.1
      | succ k =>
          have hval := ih h.2 (Nat.lt_of_succ_lt_succ hk)
          rw [show off + (k + 1) = off + 1 + k by omega]
          exact hval

@[simp] theorem length_read (n : Nat) : (read mem off n).length = n := by
  induction n generalizing off with
  | zero => rfl
  | succ n ih => rw [read, List.length_cons, ih]

theorem holds_read (n : Nat) : Holds mem off (read mem off n) := by
  induction n generalizing off with
  | zero => trivial
  | succ n ih => exact ⟨rfl, ih⟩

theorem Holds.read_eq (h : Holds mem off l) : read mem off l.length = l := by
  induction l generalizing off with
  | nil => rfl
  | cons a l ih => rw [List.length_cons, read, h.1, ih h.2]

/-! ## Copies -/

section Copies

variable {src : Nat → α} {size from_ at_ : Nat}

/-- The part of the copy that holds the list. -/
theorem Holds.copied (h : Holds src off l) (hfrom : from_ ≤ off)
    (hsize : off + l.length ≤ from_ + size) (hoff : off' = at_ + (off - from_)) :
    Holds (copy mem at_ src from_ size) off' l := by
  refine h.congr fun k hk => ?_
  have hin : at_ ≤ off' + k ∧ off' + k < at_ + size := by omega
  rw [copy, if_pos hin, show from_ + (off' + k - at_) = off + k by omega]

/-- The copy does not reach the list. -/
theorem Holds.copy_outside (h : Holds mem off l)
    (hout : off + l.length ≤ at_ ∨ at_ + size ≤ off) :
    Holds (copy mem at_ src from_ size) off l := by
  refine h.congr fun k hk => ?_
  have hnot : ¬(at_ ≤ off + k ∧ off + k < at_ + size) := by omega
  rw [copy, if_neg hnot]

end Copies

/-- The value that is changed is not one of the list. -/
theorem Holds.update_outside (h : Holds mem off l) (hout : k < off ∨ off + l.length ≤ k) :
    Holds (Function.update mem k a) off l := by
  refine h.congr fun j hj => ?_
  have hne : off + j ≠ k := by omega
  exact Function.update_of_ne hne a mem

end Area
