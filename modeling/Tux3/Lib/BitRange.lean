/-
  Lib/BitRange.lean --- ranges of bits in a bitmap.

  A bitmap is a function from positions to bits.  `findBit` looks for the next position
  with a given value, `fill` sets a range, and `countClear` counts the clear bits below a
  limit; filling a range of clear bits takes as many of them away.
-/
import Mathlib.Logic.Basic

set_option autoImplicit false

namespace BitRange

variable {bits : Nat → Bool} {v : Bool} {start stop n : Nat}

/-- All bits from `start` to before `stop` are `v`. -/
def AllBits (bits : Nat → Bool) (start stop : Nat) (v : Bool) : Prop :=
  ∀ b, start ≤ b → b < stop → bits b = v

theorem AllBits.mono {start' stop' : Nat} (h : AllBits bits start stop v)
    (hstart : start ≤ start') (hstop : stop' ≤ stop) : AllBits bits start' stop' v :=
  fun b hle hlt => h b (Nat.le_trans hstart hle) (Nat.lt_of_lt_of_le hlt hstop)

/-- Two adjacent ranges are one. -/
theorem AllBits.append {mid : Nat} (h : AllBits bits start mid v) (h' : AllBits bits mid stop v) :
    AllBits bits start stop v := by
  intro b hle hlt
  rcases Nat.lt_or_ge b mid with hb | hb
  · exact h b hle hb
  · exact h' b hb hlt

theorem AllBits.empty (hle : stop ≤ start) : AllBits bits start stop v :=
  fun _ hb hlt => absurd (Nat.lt_of_lt_of_le hlt hle) (Nat.not_lt_of_ge hb)

/-- Whether `len` bits from `start` on are `v`. -/
def allBits (bits : Nat → Bool) (start len : Nat) (v : Bool) : Bool :=
  (List.range len).all fun i => bits (start + i) == v

theorem allBits_iff {len : Nat} :
    allBits bits start len v = true ↔ AllBits bits start (start + len) v := by
  simp only [allBits, List.all_eq_true, List.mem_range, beq_iff_eq]
  constructor
  · intro h b hle hlt
    have hb := h (b - start) (by omega)
    rwa [Nat.add_sub_cancel' hle] at hb
  · intro h i hi
    exact h (start + i) (by omega) (by omega)

/-- The first of `len` positions from `start` on whose bit is `v`, or else the end. -/
def findBit (bits : Nat → Bool) (v : Bool) : Nat → Nat → Nat
  | 0, start => start
  | len + 1, start => if bits start = v then start else findBit bits v len (start + 1)

theorem findBit_spec (bits : Nat → Bool) (v : Bool) (len start : Nat) :
    start ≤ findBit bits v len start ∧ findBit bits v len start ≤ start + len ∧
      AllBits bits start (findBit bits v len start) (!v) ∧
      (findBit bits v len start < start + len → bits (findBit bits v len start) = v) := by
  induction len generalizing start with
  | zero => exact ⟨Nat.le_refl _, Nat.le_refl _, .empty (Nat.le_refl _), fun h => absurd h (Nat.lt_irrefl _)⟩
  | succ len ih =>
    unfold findBit
    split
    · rename_i hv
      exact ⟨Nat.le_refl _, by omega, .empty (Nat.le_refl _), fun _ => hv⟩
    · rename_i hv
      obtain ⟨hge, hle, hall, hfound⟩ := ih (start + 1)
      refine ⟨by omega, by omega, ?_, fun hlt => hfound (by omega)⟩
      intro b hb hlt
      rcases Nat.eq_or_lt_of_le hb with rfl | hb
      · cases hbit : bits start <;> cases v <;> simp_all
      · exact hall b hb hlt

/-- The bits from `start` to before `stop` are set to `v`. -/
def fill (bits : Nat → Bool) (start stop : Nat) (v : Bool) : Nat → Bool :=
  fun b => if start ≤ b ∧ b < stop then v else bits b

theorem fill_of_mem {b : Nat} (hle : start ≤ b) (hlt : b < stop) :
    fill bits start stop v b = v := if_pos ⟨hle, hlt⟩

theorem fill_of_ge {b : Nat} (hge : stop ≤ b) : fill bits start stop v b = bits b :=
  if_neg fun h => absurd h.2 (Nat.not_lt_of_ge hge)

theorem fill_empty (hle : stop ≤ start) : fill bits start stop v = bits :=
  funext fun _ => if_neg fun h => absurd (Nat.lt_of_le_of_lt h.1 h.2) (Nat.not_lt_of_ge hle)

theorem fill_fill {mid : Nat} (hstart : start ≤ mid) (hstop : mid ≤ stop) :
    fill (fill bits start mid v) mid stop v = fill bits start stop v := by
  funext b
  unfold fill
  by_cases hlow : start ≤ b <;> by_cases hmid : b < mid <;> by_cases hstop' : b < stop <;>
    simp [hlow, hmid, hstop'] <;> omega

/-- The number of clear bits below `n`. -/
def countClear (bits : Nat → Bool) : Nat → Nat
  | 0 => 0
  | n + 1 => countClear bits n + if bits n = false then 1 else 0

/-- A range of clear bits that is set is no longer counted. -/
theorem countClear_fill_true (h : AllBits bits start stop false) (hle : start ≤ stop)
    (hn : stop ≤ n) :
    countClear (fill bits start stop true) n + (stop - start) = countClear bits n := by
  have hgen : ∀ m, countClear (fill bits start stop true) m + (min stop m - min start m) =
      countClear bits m := by
    intro m
    induction m with
    | zero => simp [countClear]
    | succ m ih =>
      unfold countClear
      by_cases hmem : start ≤ m ∧ m < stop
      · rw [fill_of_mem hmem.1 hmem.2, h m hmem.1 hmem.2]
        simp only [Bool.true_eq_false, if_false, if_true]
        omega
      · rw [show fill bits start stop true m = bits m from if_neg hmem]
        omega
  have hfull := hgen n
  omega

/-- A range of set bits that is cleared is counted from then on. -/
theorem countClear_fill_false (h : AllBits bits start stop true) (hle : start ≤ stop)
    (hn : stop ≤ n) :
    countClear (fill bits start stop false) n = countClear bits n + (stop - start) := by
  have hback : fill (fill bits start stop false) start stop true = bits := by
    funext b
    by_cases hmem : start ≤ b ∧ b < stop
    · rw [fill_of_mem hmem.1 hmem.2, h b hmem.1 hmem.2]
    · unfold fill
      rw [if_neg hmem, if_neg hmem]
  have hclear : AllBits (fill bits start stop false) start stop false :=
    fun b hle hlt => fill_of_mem hle hlt
  have hcount := countClear_fill_true hclear hle hn
  rw [hback] at hcount
  omega

end BitRange
