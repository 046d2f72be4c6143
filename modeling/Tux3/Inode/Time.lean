/-
  Inode/Time.lean --- times in 32.32 binary fixed point, in machine words.

  Seconds are kept as they are, and a decimal fraction of nanoseconds becomes a binary one of 32
  bits.  Both conversions round, and the errors together are less than half a nanosecond.  The
  attributes of an inode use the same conversions on numbers.
-/
import Tux3.Inode.Attr

set_option autoImplicit false

namespace Tux3.Fixed32

/-! ## The code -/

/-- `struct timespec`. -/
@[ext] structure Timespec where
  tvSec : Int
  tvNsec : Int
  deriving DecidableEq, Repr

/-- `high32`. -/
def high32 (val : BitVec 64) : BitVec 32 := (val >>> 32).setWidth 32

/-- `billionths`. -/
def billionths (val : BitVec 64) : BitVec 32 :=
  (((val &&& 0xffffffff) * 1000000000 + 0x80000000) >>> 32).setWidth 32

/-- `spectime`. -/
def spectime (time : BitVec 64) : Timespec where
  tvSec := (high32 time).toNat
  tvNsec := (billionths time).toNat

/-- `mult` of `tuxtime`. -/
def nsecMult : BitVec 64 := (1 <<< 63) / 1000000000

/-- `tuxtime`. -/
def tuxtime (ts : Timespec) : BitVec 64 :=
  (BitVec.ofInt 64 ts.tvSec <<< 32) + ((BitVec.ofInt 64 ts.tvNsec * nsecMult + 3 <<< 29) >>> 31)

/-! ## Exact values -/

/-- A time that `tuxtime` is for. -/
structure Timespec.Valid (ts : Timespec) : Prop where
  sec_nonneg : 0 ≤ ts.tvSec
  sec_lt : ts.tvSec < 2 ^ 32
  nsec_nonneg : 0 ≤ ts.tvNsec
  nsec_lt : ts.tvNsec < 10 ^ 9

/-- The order of times. -/
def Timespec.Before (ts ts' : Timespec) : Prop :=
  ts.tvSec < ts'.tvSec ∨ (ts.tvSec = ts'.tvSec ∧ ts.tvNsec < ts'.tvNsec)

theorem nsecMult_toNat : nsecMult.toNat = 9223372036 := by decide

theorem tuxtimeFrac_strictMono {nsec nsec' : Nat} (h : nsec < nsec') :
    tuxtimeFrac nsec < tuxtimeFrac nsec' := by
  unfold tuxtimeFrac
  omega

section Times

variable {ts ts' : Timespec}

theorem ofInt_toNat {n : Int} (hnonneg : 0 ≤ n) (hlt : n < 2 ^ 32) :
    (BitVec.ofInt 64 n).toNat = n.toNat := by
  rw [BitVec.toNat_ofInt]
  exact congrArg Int.toNat (Int.emod_eq_of_lt hnonneg (Int.lt_trans hlt (by decide)))

/-- The seconds and the fraction lie side by side. -/
theorem tuxtime_toNat (h : ts.Valid) :
    (tuxtime ts).toNat = ts.tvSec.toNat * 2 ^ 32 + tuxtimeFrac ts.tvNsec.toNat := by
  have hsec := ofInt_toNat h.sec_nonneg h.sec_lt
  have hnsec := ofInt_toNat h.nsec_nonneg (Int.lt_trans h.nsec_lt (by decide))
  have hslt : ts.tvSec.toNat < 2 ^ 32 := by
    have := h.sec_lt
    omega
  have hnlt : ts.tvNsec.toNat < 10 ^ 9 := by
    have := h.nsec_lt
    omega
  have hround : (3 <<< 29 : BitVec 64).toNat = 3 * 2 ^ 29 := by decide
  have hfraction : ((BitVec.ofInt 64 ts.tvNsec * nsecMult + 3 <<< 29) >>> 31).toNat =
      tuxtimeFrac ts.tvNsec.toNat := by
    rw [BitVec.toNat_ushiftRight, BitVec.toNat_add, BitVec.toNat_mul, hnsec, nsecMult_toNat, hround,
      Nat.shiftRight_eq_div_pow, Nat.mod_eq_of_lt (by omega : ts.tvNsec.toNat * 9223372036 < 2 ^ 64),
      Nat.mod_eq_of_lt (by omega)]
    rfl
  have hlt := tuxtimeFrac_lt hnlt
  unfold tuxtime
  rw [BitVec.toNat_add, hfraction, BitVec.toNat_shiftLeft, hsec, Nat.shiftLeft_eq,
    Nat.mod_eq_of_lt (by omega : ts.tvSec.toNat * 2 ^ 32 < 2 ^ 64), Nat.mod_eq_of_lt (by omega)]

/-- The times of the attributes are the same numbers. -/
theorem tuxtime_eq (h : ts.Valid) :
    (tuxtime ts).toNat = Tux3.tuxtime ⟨ts.tvSec.toNat, ts.tvNsec.toNat⟩ := by
  have hlt := (tuxtime ts).isLt
  rw [tuxtime_toNat h] at hlt ⊢
  exact (Nat.mod_eq_of_lt hlt).symm

theorem high32_toNat (val : BitVec 64) : (high32 val).toNat = val.toNat / 2 ^ 32 := by
  have hlt := val.isLt
  unfold high32
  rw [BitVec.toNat_setWidth, BitVec.toNat_ushiftRight, Nat.shiftRight_eq_div_pow,
    Nat.mod_eq_of_lt (by omega)]

theorem billionths_toNat (val : BitVec 64) : (billionths val).toNat =
    (val.toNat % 2 ^ 32 * 1000000000 + 2 ^ 31) / 2 ^ 32 := by
  have hlow : (val &&& 0xffffffff).toNat = val.toNat % 2 ^ 32 := by
    rw [BitVec.toNat_and]
    exact Nat.and_two_pow_sub_one_eq_mod val.toNat 32
  have hmult : (1000000000 : BitVec 64).toNat = 1000000000 := by decide
  have hround : (0x80000000 : BitVec 64).toNat = 2 ^ 31 := by decide
  have hlt : val.toNat % 2 ^ 32 < 2 ^ 32 := Nat.mod_lt _ (by decide)
  unfold billionths
  rw [BitVec.toNat_setWidth, BitVec.toNat_ushiftRight, BitVec.toNat_add, BitVec.toNat_mul, hlow,
    hmult, hround, Nat.shiftRight_eq_div_pow,
    Nat.mod_eq_of_lt (by omega : val.toNat % 2 ^ 32 * 1000000000 < 2 ^ 64),
    Nat.mod_eq_of_lt (by omega : val.toNat % 2 ^ 32 * 1000000000 + 2 ^ 31 < 2 ^ 64),
    Nat.mod_eq_of_lt (by omega)]

/-- What `tuxtime` does with a time. -/
structure TimeRight (ts : Timespec) : Prop where
  seconds : ts.tvSec * 2 ^ 32 < 2 ^ 64
  product : ts.tvNsec * nsecMult.toNat < 2 ^ 64
  rounded : ts.tvNsec * nsecMult.toNat + 3 * 2 ^ 29 < 2 ^ 64
  fraction : (ts.tvNsec * nsecMult.toNat + 3 * 2 ^ 29) / 2 ^ 31 < 2 ^ 32
  total : ts.tvSec * 2 ^ 32 + (ts.tvNsec * nsecMult.toNat + 3 * 2 ^ 29) / 2 ^ 31 < 2 ^ 64
  exact : ((tuxtime ts).toNat : Int) =
    ts.tvSec * 2 ^ 32 + (ts.tvNsec * nsecMult.toNat + 3 * 2 ^ 29) / 2 ^ 31
  back : spectime (tuxtime ts) = ts
  later : ∀ ts' : Timespec, ts'.Valid → ts.Before ts' → (tuxtime ts).toNat < (tuxtime ts').toNat

theorem high_part {s f : Nat} (h : f < 2 ^ 32) : (s * 2 ^ 32 + f) / 2 ^ 32 = s := by omega

theorem low_part {s f : Nat} (h : f < 2 ^ 32) : (s * 2 ^ 32 + f) % 2 ^ 32 = f := by omega

theorem spectime_tuxtime (h : ts.Valid) : spectime (tuxtime ts) = ts := by
  have hnlt : ts.tvNsec.toNat < 10 ^ 9 := by
    have := h.nsec_lt
    omega
  have hlt := tuxtimeFrac_lt hnlt
  have hback := tuxtimeFrac_round hnlt
  have hsec : (high32 (tuxtime ts)).toNat = ts.tvSec.toNat := by
    rw [high32_toNat, tuxtime_toNat h, high_part hlt]
  have hnsec : (billionths (tuxtime ts)).toNat = ts.tvNsec.toNat := by
    rw [billionths_toNat, tuxtime_toNat h, low_part hlt]
    exact hback
  refine Timespec.ext ?_ ?_
  · show ((high32 (tuxtime ts)).toNat : Int) = ts.tvSec
    rw [hsec, Int.toNat_of_nonneg h.sec_nonneg]
  · show ((billionths (tuxtime ts)).toNat : Int) = ts.tvNsec
    rw [hnsec, Int.toNat_of_nonneg h.nsec_nonneg]

theorem tuxtime_lt (h : ts.Valid) (h' : ts'.Valid) (hbefore : ts.Before ts') :
    (tuxtime ts).toNat < (tuxtime ts').toNat := by
  have hnlt : ts.tvNsec.toNat < 10 ^ 9 := by
    have := h.nsec_lt
    omega
  have hlt := tuxtimeFrac_lt hnlt
  rw [tuxtime_toNat h, tuxtime_toNat h']
  rcases hbefore with hlater | ⟨hsame, hlater⟩
  · have hsec : ts.tvSec.toNat < ts'.tvSec.toNat := by
      have := h.sec_nonneg
      omega
    omega
  · have hnsec : ts.tvNsec.toNat < ts'.tvNsec.toNat := by
      have := h.nsec_nonneg
      omega
    have hfraction := tuxtimeFrac_strictMono hnsec
    rw [hsame]
    omega

/-- No step of `tuxtime` overflows, the fraction stays below the seconds, `spectime` gives the time
back, and a later time is a greater number. -/
theorem tuxtime_right (h : ts.Valid) : TimeRight ts := by
  have ⟨hsec, hslt, hnsec, hnlt⟩ := h
  have hexact := tuxtime_toNat h
  unfold tuxtimeFrac at hexact
  refine ⟨by omega, ?_, ?_, ?_, ?_, ?_, spectime_tuxtime h, fun ts' h' => tuxtime_lt h h'⟩
  all_goals
    rw [nsecMult_toNat]
    omega

/-- The last nanosecond of the last second. -/
theorem tuxtime_right_last : TimeRight ⟨2 ^ 32 - 1, 10 ^ 9 - 1⟩ :=
  tuxtime_right ⟨by decide, by decide, by decide, by decide⟩

end Times

end Tux3.Fixed32
