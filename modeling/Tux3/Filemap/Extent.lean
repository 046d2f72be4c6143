/-
  Filemap/Extent.lean --- the entry of a leaf of the file index, with its version.

  The upper half of the version lies above the logical address, the lower half above the physical
  one.  `VER_MASK` is the bit above the lower half and not the mask of it, and so the lower half is
  not stored.
-/
import Tux3.Lib.BigEndian

set_option autoImplicit false

namespace Tux3

open BigEndian (Bytes beBytes ofBe ofBe_beBytes)

/-! ## The code -/

/-- `struct diskextent2`: two big-endian words. -/
structure DiskExtent2 where
  verhiLogical : Bytes
  verloPhysical : Bytes
  deriving DecidableEq, Repr

/-- `struct extent`. -/
@[ext] structure Extent where
  version : BitVec 32
  logical : BitVec 64
  physical : BitVec 64
  deriving DecidableEq, Repr

/-- `cpu_to_be64`. -/
def cpuToBe64 (val : BitVec 64) : Bytes := beBytes 8 val.toNat

/-- `be64_to_cpu`. -/
def be64ToCpu (bytes : Bytes) : BitVec 64 := BitVec.ofNat 64 (ofBe bytes)

/-- `VER_MASK`. -/
def verMask : BitVec 32 := 1 <<< 16

/-- `ADDR_MASK`. -/
def addrMask : BitVec 64 := 1 <<< 48 - 1

namespace DiskExtent2

/-- `get_logical`. -/
def getLogical (dex : DiskExtent2) : BitVec 64 := be64ToCpu dex.verhiLogical &&& addrMask

/-- `get_extent`. -/
def getExtent (dex : DiskExtent2) : Extent :=
  let val := be64ToCpu dex.verhiLogical
  let version : BitVec 32 := (val >>> 48).setWidth 32
  let logical := val &&& addrMask
  let val := be64ToCpu dex.verloPhysical
  let version := ((version <<< 16).setWidth 64 ||| (val >>> 48)).setWidth 32
  { version, logical, physical := val &&& addrMask }

/-- `put_extent`. -/
def putExtent (version : BitVec 32) (logical physical : BitVec 64) : DiskExtent2 :=
  let verhi : BitVec 64 := (version >>> 16).setWidth 64
  let verlo : BitVec 64 := (version &&& verMask).setWidth 64
  { verhiLogical := cpuToBe64 (verhi <<< 48 ||| logical)
    verloPhysical := cpuToBe64 (verlo <<< 48 ||| physical) }

/-! ## The words -/

section Words

variable {version version' : BitVec 32} {logical logical' physical physical' val : BitVec 64}

theorem be64ToCpu_cpuToBe64 (val : BitVec 64) : be64ToCpu (cpuToBe64 val) = val := by
  have hlt : val.toNat < 256 ^ 8 := val.isLt
  unfold be64ToCpu cpuToBe64
  rw [ofBe_beBytes, Nat.mod_eq_of_lt hlt, BitVec.ofNat_toNat, BitVec.setWidth_eq]

theorem and_addrMask (val : BitVec 64) : (val &&& addrMask).toNat = val.toNat % 2 ^ 48 := by
  rw [BitVec.toNat_and]
  exact Nat.and_two_pow_sub_one_eq_mod val.toNat 48

/-- A field above an address. -/
theorem above_address {high : BitVec 64} (hhigh : high.toNat < 2 ^ 16)
    (hval : val.toNat < 2 ^ 48) : (high <<< 48 ||| val).toNat = high.toNat * 2 ^ 48 + val.toNat := by
  rw [BitVec.toNat_or, BitVec.toNat_shiftLeft, Nat.shiftLeft_eq,
    Nat.mod_eq_of_lt (by omega : high.toNat * 2 ^ 48 < 2 ^ 64), ← Nat.shiftLeft_eq,
    ← Nat.shiftLeft_add_eq_or_of_lt hval]

/-- The first word holds the upper half of the version and the logical address. -/
theorem putExtent_verhiLogical (version : BitVec 32) (hlogical : logical.toNat < 2 ^ 48)
    (physical : BitVec 64) :
    (be64ToCpu (putExtent version logical physical).verhiLogical).toNat =
      version.toNat / 2 ^ 16 * 2 ^ 48 + logical.toNat := by
  have hlt := version.isLt
  have hverhi : ((version >>> 16).setWidth 64 : BitVec 64).toNat = version.toNat / 2 ^ 16 := by
    rw [BitVec.toNat_setWidth, BitVec.toNat_ushiftRight, Nat.shiftRight_eq_div_pow,
      Nat.mod_eq_of_lt (by omega)]
  unfold putExtent
  dsimp only
  rw [be64ToCpu_cpuToBe64, above_address (by omega) hlogical, hverhi]

/-- The second word holds the physical address only. -/
theorem putExtent_verloPhysical (version : BitVec 32) (logical physical : BitVec 64) :
    be64ToCpu (putExtent version logical physical).verloPhysical = physical := by
  have hverlo : (version &&& verMask).setWidth 64 <<< 48 = (0 : BitVec 64) := by
    have hmask : verMask = BitVec.twoPow 32 16 := rfl
    rw [hmask, BitVec.and_twoPow]
    split <;> rfl
  unfold putExtent
  dsimp only
  rw [be64ToCpu_cpuToBe64, hverlo]
  exact BitVec.zero_or

/-- What is read back: the version without its lower half. -/
theorem getExtent_putExtent (version : BitVec 32) (hlogical : logical.toNat < 2 ^ 48)
    (hphysical : physical.toNat < 2 ^ 48) :
    getExtent (putExtent version logical physical) =
      ⟨version >>> 16 <<< 16, logical, physical⟩ := by
  have hlt := version.isLt
  have hfirst := putExtent_verhiLogical version hlogical physical
  have hsecond := putExtent_verloPhysical version logical physical
  refine Extent.ext ?_ ?_ ?_
  · have hhigh : (be64ToCpu (putExtent version logical physical).verhiLogical >>> 48).setWidth 32 =
        version >>> 16 := by
      refine BitVec.eq_of_toNat_eq ?_
      rw [BitVec.toNat_setWidth, BitVec.toNat_ushiftRight, hfirst, BitVec.toNat_ushiftRight,
        Nat.shiftRight_eq_div_pow, Nat.shiftRight_eq_div_pow]
      omega
    have hlow : physical >>> 48 = 0 := by
      refine BitVec.eq_of_toNat_eq ?_
      rw [BitVec.toNat_ushiftRight, Nat.shiftRight_eq_div_pow, Nat.div_eq_of_lt hphysical]
      rfl
    unfold getExtent
    dsimp only
    rw [hhigh, hsecond, hlow]
    have hor : ∀ x : BitVec 64, x ||| 0 = x := fun x => BitVec.or_zero
    rw [hor, BitVec.setWidth_setWidth_of_le _ (by decide), BitVec.setWidth_eq]
  · refine BitVec.eq_of_toNat_eq ?_
    show (be64ToCpu (putExtent version logical physical).verhiLogical &&& addrMask).toNat =
      logical.toNat
    rw [and_addrMask, hfirst]
    omega
  · refine BitVec.eq_of_toNat_eq ?_
    show (be64ToCpu (putExtent version logical physical).verloPhysical &&& addrMask).toNat = _
    rw [and_addrMask, hsecond, Nat.mod_eq_of_lt hphysical]

theorem upper_half_iff (version : BitVec 32) :
    version >>> 16 <<< 16 = version ↔ version.toNat % 2 ^ 16 = 0 := by
  have hlt := version.isLt
  rw [← BitVec.toNat_inj, BitVec.toNat_shiftLeft, BitVec.toNat_ushiftRight, Nat.shiftLeft_eq,
    Nat.shiftRight_eq_div_pow, Nat.mod_eq_of_lt (by omega)]
  omega

/-- An entry is read back, its first word orders it by the upper half of the version and the logical
address, and each field lies in its own bits. -/
structure ExtentRight (version : BitVec 32) (logical physical : BitVec 64) : Prop where
  back : getExtent (putExtent version logical physical) = ⟨version, logical, physical⟩
  first : (be64ToCpu (putExtent version logical physical).verhiLogical).toNat =
    version.toNat / 2 ^ 16 * 2 ^ 48 + logical.toNat
  second : (be64ToCpu (putExtent version logical physical).verloPhysical).toNat =
    version.toNat % 2 ^ 16 * 2 ^ 48 + physical.toNat
  order : ∀ (version' : BitVec 32) (logical' physical' : BitVec 64), logical'.toNat < 2 ^ 48 →
    ((be64ToCpu (putExtent version logical physical).verhiLogical).toNat <
        (be64ToCpu (putExtent version' logical' physical').verhiLogical).toNat ↔
      version.toNat / 2 ^ 16 < version'.toNat / 2 ^ 16 ∨
        (version.toNat / 2 ^ 16 = version'.toNat / 2 ^ 16 ∧ logical.toNat < logical'.toNat))

theorem putExtent_order (hlogical : logical.toNat < 2 ^ 48) (hlogical' : logical'.toNat < 2 ^ 48) :
    (be64ToCpu (putExtent version logical physical).verhiLogical).toNat <
        (be64ToCpu (putExtent version' logical' physical').verhiLogical).toNat ↔
      version.toNat / 2 ^ 16 < version'.toNat / 2 ^ 16 ∨
        (version.toNat / 2 ^ 16 = version'.toNat / 2 ^ 16 ∧ logical.toNat < logical'.toNat) := by
  rw [putExtent_verhiLogical _ hlogical, putExtent_verhiLogical _ hlogical']
  omega

/-- Exactly the versions whose lower half is zero are stored. -/
theorem extent_right_iff (hlogical : logical.toNat < 2 ^ 48) (hphysical : physical.toNat < 2 ^ 48) :
    ExtentRight version logical physical ↔ version.toNat % 2 ^ 16 = 0 := by
  have hback := getExtent_putExtent version hlogical hphysical
  constructor
  · intro h
    rw [h.back] at hback
    exact (upper_half_iff version).1 (congrArg Extent.version hback).symm
  · intro hlower
    refine ⟨?_, putExtent_verhiLogical _ hlogical _, ?_, fun _ _ _ => putExtent_order hlogical⟩
    · rw [hback, (upper_half_iff version).2 hlower]
    · rw [putExtent_verloPhysical, hlower, Nat.zero_mul, Nat.zero_add]

/-- A version with an empty lower half, at the greatest addresses. -/
theorem extent_right_iff_upper : ExtentRight 0xffff0000 0xffffffffffff 0xffffffffffff ∧
    ((be64ToCpu (putExtent 0x10000 0xffffffffffff 0).verhiLogical).toNat <
      (be64ToCpu (putExtent 0x20000 0 0).verhiLogical).toNat) :=
  ⟨(extent_right_iff (by decide) (by decide)).2 (by decide), by decide⟩

/-- Version 1 is read back as version 0. -/
theorem getExtent_versionOne : getExtent (putExtent 1 5 7) = ⟨0, 5, 7⟩ ∧
    ¬ ExtentRight 1 5 7 := by
  have hback : getExtent (putExtent 1 5 7) = ⟨0, 5, 7⟩ := by decide
  refine ⟨hback, fun h => ?_⟩
  rw [h.back] at hback
  exact absurd hback (by decide)

end Words

end DiskExtent2

end Tux3
