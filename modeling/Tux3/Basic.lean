/-
  Basic.lean --- the geometry of a volume, the extents the allocator hands out, delta
  numbers, and error codes.
-/
import Mathlib.Algebra.Group.Int.Defs
import Mathlib.Algebra.Group.Nat.Defs

set_option autoImplicit false

namespace Tux3

/-! ## Geometry -/

/-- The shape of a volume.  `mkfs` takes any power of two as the block size;
`__tux3_volmap_io` needs at least 64 bytes, and the 16 bit byte count of a log
block allows at most 64 KiB.  A fresh file system already uses four blocks: the
two or more reserved for the super block, a root bnode and its leaf. -/
structure Geometry where
  blockbits : Nat
  volblocks : Nat
  blockbits_ge : 6 ≤ blockbits
  blockbits_le : blockbits ≤ 16
  volblocks_ge : 5 ≤ volblocks
  volblocks_le : volblocks ≤ 2 ^ 48

/-- `sb->blocksize`. -/
def Geometry.blocksize (g : Geometry) : Nat := 2 ^ g.blockbits

theorem Geometry.blocksize_ge (g : Geometry) : 64 ≤ g.blocksize :=
  Nat.pow_le_pow_right (n := 2) (by decide) g.blockbits_ge

theorem Geometry.blocksize_le (g : Geometry) : g.blocksize ≤ 65536 :=
  Nat.pow_le_pow_right (n := 2) (by decide) g.blockbits_le

/-! ## Extents -/

/-- `struct block_segment`: `count` blocks from `block` on. -/
structure BlockSegment where
  block : Nat
  count : Nat
  deriving DecidableEq, Repr, Inhabited

/-- The blocks of a segment, in order. -/
def BlockSegment.blocks (seg : BlockSegment) : List Nat :=
  (List.range seg.count).map (seg.block + ·)

@[simp] theorem BlockSegment.mem_blocks {seg : BlockSegment} {b : Nat} :
    b ∈ seg.blocks ↔ seg.block ≤ b ∧ b < seg.block + seg.count := by
  simp only [BlockSegment.blocks, List.mem_map, List.mem_range]
  constructor
  · rintro ⟨i, hi, rfl⟩
    omega
  · rintro ⟨hle, hlt⟩
    exact ⟨b - seg.block, by omega, by omega⟩

/-! ## Deltas -/

/-- `tux3_delta`: the slot of a delta. -/
def tux3Delta (delta : Nat) : Nat := delta % 2

/-- `delta + 1`, of an unsigned delta. -/
@[irreducible] def succDelta (delta : Nat) : Nat := (delta + 1) % 2 ^ 32

/-- `delta - 1`, of an unsigned delta. -/
@[irreducible] def predDelta (delta : Nat) : Nat := (delta + (2 ^ 32 - 1)) % 2 ^ 32

theorem predDelta_succDelta {delta : Nat} (h : delta < 2 ^ 32) :
    predDelta (succDelta delta) = delta := by
  unfold predDelta succDelta
  omega

theorem succDelta_lt (delta : Nat) : succDelta delta < 2 ^ 32 := by
  unfold succDelta
  exact Nat.mod_lt _ (by decide)

/-- A delta and the one before it use different slots, also where the counter wraps. -/
theorem tux3Delta_predDelta (delta : Nat) : tux3Delta (predDelta delta) ≠ tux3Delta delta := by
  unfold tux3Delta predDelta
  omega

/-! ## Integers -/

/-- The conversion to `int`. -/
def int32 (x : Int) : Int := if x % 2 ^ 32 < 2 ^ 31 then x % 2 ^ 32 else x % 2 ^ 32 - 2 ^ 32

/-! ## Inode numbers -/

/-- `TUX_VOLMAP_INO`, which has no entry in the inode btree. -/
def tuxVolmapIno : Nat := 61

/-- `TUX_LOGMAP_INO`, which has none either. -/
def tuxLogmapIno : Nat := 62

/-- `TUX_NORMAL_INO`: the numbers up to this one are reserved. -/
def tuxNormalIno : Nat := 64

/-- `MAX_INODES`. -/
def maxInodes : Nat := 2 ^ 48

/-! ## Error codes -/

/-- `ENOENT`. -/
def enoent : Int := 2

/-- `EIO`. -/
def eio : Int := 5

/-- `EAGAIN`. -/
def eagain : Int := 11

/-- `ENOMEM`. -/
def enomem : Int := 12

/-- `EEXIST`. -/
def eexist : Int := 17

/-- `EINVAL`. -/
def einval : Int := 22

/-- `ENOSPC`. -/
def enospc : Int := 28

/-- `ERANGE`. -/
def erange : Int := 34

/-- `ENODATA`, which `ENOATTR` is another name for. -/
def enodata : Int := 61

end Tux3
