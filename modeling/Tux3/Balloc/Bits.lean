/-
  Balloc/Bits.lean --- the bits of a bitmap in memory.

  Masks take the first and the last byte of a range, and `memset` the bytes between.  The bits of
  a byte count from the low end.
-/
import Mathlib.Logic.Function.Basic
import Tux3.Lib.BitRange
import Tux3.Lib.Outcome
import Tux3.Volume

set_option autoImplicit false

namespace Tux3.Bitmap

open BitRange (AllBits fill)
open Outcome (bind_of_ok)

/-! ## Bytes -/

/-- A bit of a bitmap. -/
def bitAt (bitmap : List (BitVec 8)) (bit : Nat) : Bool :=
  (bitmap.getD (bit / 8) 0).getLsbD (bit % 8)

/-- A byte is read and written. -/
def modifyByte (bitmap : List (BitVec 8)) (i : Nat) (f : BitVec 8 → BitVec 8) :
    Except TuxError (List (BitVec 8)) :=
  match bitmap[i]? with
  | some byte => .ok (bitmap.set i (f byte))
  | none => .error .bounds

/-- `memset(bitmap + i, c, size)`. -/
def memsetBytes (bitmap : List (BitVec 8)) (i : Nat) (c : BitVec 8) (size : Nat) :
    Except TuxError (List (BitVec 8)) :=
  if size = 0 then .ok bitmap
  else if i + size ≤ bitmap.length then
    .ok (bitmap.take i ++ List.replicate size c ++ bitmap.drop (i + size))
  else .error .bounds

/-! ## The code -/

/-- `lmask`. -/
def lmask (start : BitVec 32) : BitVec 32 := ((-1 : BitVec 32) <<< (start &&& 7).toNat) &&& 0xff

/-- `rmask`. -/
def rmask (limit : BitVec 32) : BitVec 32 := ~~~((-1 : BitVec 32) <<< (limit &&& 7).toNat) &&& 0xff

/-- What `set_bits` and `clear_bits` have in common: `single` is for a range in one byte, `edge`
for the first byte and the last one, and `c` is for those between. -/
def modifyBits (single : BitVec 32 → BitVec 32 → BitVec 8 → BitVec 8)
    (edge : BitVec 32 → BitVec 8 → BitVec 8) (c : BitVec 8)
    (bitmap : List (BitVec 8)) (start count : BitVec 32) : Except TuxError (List (BitVec 8)) :=
  let limit := start + count
  let loff := start >>> 3
  let roff := limit >>> 3
  if loff = roff then modifyByte bitmap loff.toNat (single (lmask start) (rmask limit))
  else do
    let bitmap ← modifyByte bitmap loff.toNat (edge (lmask start))
    let bitmap ← memsetBytes bitmap (loff.toNat + 1) c (roff - loff - 1).toNat
    if rmask limit ≠ 0 then modifyByte bitmap roff.toNat (edge (rmask limit)) else return bitmap

/-- `set_bits`. -/
def setBits : List (BitVec 8) → BitVec 32 → BitVec 32 → Except TuxError (List (BitVec 8)) :=
  modifyBits (fun lmask rmask byte => byte ||| (lmask &&& rmask).setWidth 8)
    (fun mask byte => byte ||| mask.setWidth 8) (-1)

/-- `clear_bits`. -/
def clearBits : List (BitVec 8) → BitVec 32 → BitVec 32 → Except TuxError (List (BitVec 8)) :=
  modifyBits (fun lmask rmask byte => byte &&& (~~~lmask ||| ~~~rmask).setWidth 8)
    (fun mask byte => byte &&& (~~~mask).setWidth 8) 0

/-- `find_next_bit_le` or `find_next_zero_bit_le`: the bitmap, its size in bits, and an offset. -/
abbrev FindNext : Type := List (BitVec 8) → Nat → Nat → Nat

/-- `all_set`. -/
def allSet (findNextZeroBitLe : FindNext) (bitmap : List (BitVec 8)) (start count : BitVec 32) :
    Bool :=
  let limit := start + count
  findNextZeroBitLe bitmap limit.toNat start.toNat = limit.toNat

/-- `all_clear`. -/
def allClear (findNextBitLe : FindNext) (bitmap : List (BitVec 8)) (start count : BitVec 32) :
    Bool :=
  let limit := start + count
  findNextBitLe bitmap limit.toNat start.toNat = limit.toNat

/-! ## Masks -/

theorem toNat_and_seven (x : BitVec 32) : (x &&& 7).toNat = x.toNat % 8 := by
  rw [BitVec.toNat_and]
  exact Nat.and_two_pow_sub_one_eq_mod x.toNat 3

theorem toNat_shift_three (x : BitVec 32) : (x >>> 3).toNat = x.toNat / 8 := by
  rw [BitVec.toNat_ushiftRight, Nat.shiftRight_eq_div_pow]

theorem getLsbD_byteMask (k : Nat) : (0xff : BitVec 32).getLsbD k = decide (k < 8) := by
  have hmask : (0xff : BitVec 32) = BitVec.ofNat 32 (2 ^ 8 - 1) := rfl
  rw [hmask, BitVec.getLsbD_ofNat, Nat.testBit_two_pow_sub_one]
  by_cases hk : k < 8
  · rw [decide_eq_true hk, decide_eq_true (by omega : k < 32)]
    rfl
  · rw [decide_eq_false hk, Bool.and_false]

theorem getLsbD_lmask (start : BitVec 32) {k : Nat} (hk : k < 8) :
    (lmask start).getLsbD k = decide (start.toNat % 8 ≤ k) := by
  unfold lmask
  rw [BitVec.getLsbD_and, getLsbD_byteMask, toNat_and_seven, BitVec.getLsbD_shiftLeft,
    decide_eq_true hk, Bool.and_true, decide_eq_true (by omega : k < 32), Bool.true_and]
  have hones : (-1 : BitVec 32) = BitVec.allOnes 32 := rfl
  rw [hones, BitVec.getLsbD_allOnes, decide_eq_true (by omega : k - start.toNat % 8 < 32),
    Bool.and_true]
  by_cases hle : start.toNat % 8 ≤ k
  · rw [decide_eq_true hle, decide_eq_false (Nat.not_lt_of_le hle)]
    rfl
  · rw [decide_eq_false hle, decide_eq_true (Nat.lt_of_not_le hle)]
    rfl

theorem getLsbD_rmask (limit : BitVec 32) {k : Nat} (hk : k < 8) :
    (rmask limit).getLsbD k = decide (k < limit.toNat % 8) := by
  have hleft := getLsbD_lmask limit hk
  unfold lmask at hleft
  unfold rmask
  rw [BitVec.getLsbD_and, getLsbD_byteMask, decide_eq_true hk, Bool.and_true] at hleft ⊢
  rw [BitVec.getLsbD_not, hleft, decide_eq_true (by omega : k < 32), Bool.true_and,
    ← decide_not, decide_eq_decide]
  exact Nat.not_le

/-- No bit of the last byte is in the range. -/
theorem rmask_eq_zero_iff (limit : BitVec 32) : rmask limit = 0 ↔ limit.toNat % 8 = 0 := by
  constructor
  · intro h
    have hbit := getLsbD_rmask limit (by decide : 0 < 8)
    rw [h] at hbit
    by_contra hne
    rw [decide_eq_true (Nat.pos_of_ne_zero hne)] at hbit
    cases hbit
  · intro h
    unfold rmask
    rw [toNat_and_seven, h]
    rfl

/-! ## Single steps -/

section Steps

variable {bitmap : List (BitVec 8)} {i size bit : Nat} {v : Bool} {c : BitVec 8}

theorem bitAt_set (byte : BitVec 8) (hi : i < bitmap.length) : bitAt (bitmap.set i byte) bit =
    if bit / 8 = i then byte.getLsbD (bit % 8) else bitAt bitmap bit := by
  unfold bitAt
  rw [List.getD_eq_getElem?_getD, List.getD_eq_getElem?_getD, List.getElem?_set]
  split
  · next heq =>
      rw [if_pos heq.symm, Option.getD_some]
  · next hne => rw [if_neg fun heq => hne heq.symm]

/-- A byte gets a range of bits. -/
theorem modifyByte_fill {f : BitVec 8 → BitVec 8} {lo hi : Nat} (hi8 : hi ≤ 8)
    (hlen : i < bitmap.length)
    (hf : ∀ byte k, k < 8 → (f byte).getLsbD k = if lo ≤ k ∧ k < hi then v else byte.getLsbD k) :
    ∃ bitmap', modifyByte bitmap i f = .ok bitmap' ∧ bitmap'.length = bitmap.length ∧
      bitAt bitmap' = fill (bitAt bitmap) (8 * i + lo) (8 * i + hi) v := by
  have hget : bitmap[i]? = some (bitmap.getD i 0) := by
    rw [List.getD_eq_getElem?_getD, List.getElem?_eq_getElem hlen, Option.getD_some]
  refine ⟨bitmap.set i (f (bitmap.getD i 0)), ?_, List.length_set, funext fun bit => ?_⟩
  · unfold modifyByte
    rw [hget]
  · rw [bitAt_set _ hlen]
    unfold fill
    by_cases hbyte : bit / 8 = i
    · rw [if_pos hbyte, hf _ _ (Nat.mod_lt _ (by decide))]
      unfold bitAt
      rw [hbyte]
      by_cases hin : lo ≤ bit % 8 ∧ bit % 8 < hi
      · rw [if_pos hin, if_pos (by omega)]
      · rw [if_neg hin, if_neg (by omega)]
    · rw [if_neg hbyte, if_neg (by omega)]

/-- Whole bytes are filled. -/
theorem memsetBytes_fill (hlen : i + size ≤ bitmap.length) (hc : ∀ k, k < 8 → c.getLsbD k = v) :
    ∃ bitmap', memsetBytes bitmap i c size = .ok bitmap' ∧ bitmap'.length = bitmap.length ∧
      bitAt bitmap' = fill (bitAt bitmap) (8 * i) (8 * (i + size)) v := by
  unfold memsetBytes
  by_cases hzero : size = 0
  · rw [if_pos hzero, hzero]
    exact ⟨bitmap, rfl, rfl, (BitRange.fill_empty (Nat.le_refl _)).symm⟩
  · rw [if_neg hzero, if_pos hlen]
    refine ⟨_, rfl, ?_, funext fun bit => ?_⟩
    · rw [List.length_append, List.length_append, List.length_take, List.length_replicate,
        List.length_drop]
      omega
    · have htake : (bitmap.take i).length = i := by
        rw [List.length_take]
        omega
      unfold fill bitAt
      rw [List.getD_eq_getElem?_getD, List.getD_eq_getElem?_getD]
      rcases Nat.lt_or_ge (bit / 8) i with hlt | hge
      · rw [if_neg (by omega), List.append_assoc, List.getElem?_append_left (by omega),
          List.getElem?_take_of_lt hlt]
      rw [List.append_assoc, List.getElem?_append_right (by omega), htake]
      rcases Nat.lt_or_ge (bit / 8) (i + size) with hlt | hge'
      · rw [if_pos (by omega), List.getElem?_append_left (by rw [List.length_replicate]; omega),
          List.getElem?_replicate_of_lt (by omega), Option.getD_some]
        exact hc _ (Nat.mod_lt _ (by decide))
      · rw [if_neg (by omega), List.getElem?_append_right (by rw [List.length_replicate]; omega),
          List.length_replicate, List.getElem?_drop]
        congr 3
        omega

end Steps

/-! ## Ranges -/

/-- The bits of a mask, or of two masks, become `v`. -/
structure BitsStores (single : BitVec 32 → BitVec 32 → BitVec 8 → BitVec 8)
    (edge : BitVec 32 → BitVec 8 → BitVec 8) (c : BitVec 8) (v : Bool) : Prop where
  single : ∀ left right byte k, k < 8 → (single left right byte).getLsbD k =
    if left.getLsbD k = true ∧ right.getLsbD k = true then v else byte.getLsbD k
  edge : ∀ mask byte k, k < 8 → (edge mask byte).getLsbD k =
    if mask.getLsbD k = true then v else byte.getLsbD k
  fill : ∀ k, k < 8 → c.getLsbD k = v

/-- A range is filled in two parts, one behind the other. -/
theorem fill_adjacent {bits : Nat → Bool} {start mid mid' stop : Nat} {v : Bool}
    (heq : mid = mid') (hstart : start ≤ mid) (hstop : mid' ≤ stop) :
    fill (fill bits start mid v) mid' stop v = fill bits start stop v := by
  rw [heq] at hstart ⊢
  exact BitRange.fill_fill hstart hstop

theorem modifyBits_fill {single : BitVec 32 → BitVec 32 → BitVec 8 → BitVec 8}
    {edge : BitVec 32 → BitVec 8 → BitVec 8} {c : BitVec 8} {v : Bool}
    (h : BitsStores single edge c v) {bitmap : List (BitVec 8)} {start count : BitVec 32}
    (hlen : start.toNat + count.toNat ≤ 8 * bitmap.length)
    (hlimit : start.toNat + count.toNat < 2 ^ 32)
    (hin : 0 < count.toNat ∨ start.toNat < 8 * bitmap.length) :
    ∃ bitmap', modifyBits single edge c bitmap start count = .ok bitmap' ∧
      bitmap'.length = bitmap.length ∧
      bitAt bitmap' = fill (bitAt bitmap) start.toNat (start.toNat + count.toNat) v := by
  have hsum : (start + count).toNat = start.toNat + count.toNat := by
    rw [BitVec.toNat_add, Nat.mod_eq_of_lt hlimit]
  have hloff := toNat_shift_three start
  have hroff := toNat_shift_three (start + count)
  rw [hsum] at hroff
  unfold modifyBits
  dsimp only
  by_cases hsame : start >>> 3 = (start + count) >>> 3
  · have heq := congrArg BitVec.toNat hsame
    rw [hloff, hroff] at heq
    obtain ⟨bitmap', hmodify, hlength, hfill⟩ := @modifyByte_fill bitmap (start >>> 3).toNat v
      (single (lmask start) (rmask (start + count))) (start.toNat % 8)
      ((start.toNat + count.toNat) % 8) (Nat.le_of_lt (Nat.mod_lt _ (by decide))) (by omega)
      fun byte k hk => by
        rw [h.single _ _ _ k hk, getLsbD_lmask start hk, getLsbD_rmask _ hk, hsum]
        simp only [decide_eq_true_eq]
    rw [if_pos hsame]
    refine ⟨bitmap', hmodify, hlength, hfill.trans ?_⟩
    rw [hloff]
    congr 1 <;> omega
  · have hlt : start.toNat / 8 < (start.toNat + count.toNat) / 8 := by
      refine Nat.lt_of_le_of_ne (Nat.div_le_div_right (Nat.le_add_right _ _)) fun heq => hsame ?_
      exact BitVec.eq_of_toNat_eq (hloff.trans (heq.trans hroff.symm))
    have hsize : ((start + count) >>> 3 - start >>> 3 - 1).toNat =
        (start.toNat + count.toNat) / 8 - start.toNat / 8 - 1 := by
      rw [BitVec.toNat_sub_of_le, BitVec.toNat_sub_of_le, hloff, hroff]
      · rfl
      · rw [BitVec.le_def, hloff, hroff]
        omega
      · rw [BitVec.le_def, BitVec.toNat_sub_of_le, hloff, hroff]
        · show 1 ≤ _
          omega
        · rw [BitVec.le_def, hloff, hroff]
          omega
    obtain ⟨bitmap1, hfirst, hlength1, hfill1⟩ := @modifyByte_fill bitmap (start >>> 3).toNat v
      (edge (lmask start)) (start.toNat % 8) 8 (Nat.le_refl 8) (by omega) fun byte k hk => by
        rw [h.edge _ _ k hk, getLsbD_lmask start hk]
        simp only [decide_eq_true_eq, hk, and_true]
    obtain ⟨bitmap2, hmiddle, hlength2, hfill2⟩ := @memsetBytes_fill bitmap1
      ((start >>> 3).toNat + 1) ((start + count) >>> 3 - start >>> 3 - 1).toNat v c (by omega) h.fill
    rw [if_neg hsame, bind_of_ok hfirst, bind_of_ok hmiddle]
    rw [hfill1, hloff, fill_adjacent (by omega) (by omega) (by omega)] at hfill2
    by_cases hrmask : rmask (start + count) = 0
    · have hzero := (rmask_eq_zero_iff _).1 hrmask
      rw [hsum] at hzero
      rw [if_neg (fun hne => hne hrmask)]
      refine ⟨bitmap2, rfl, hlength2.trans hlength1, hfill2.trans ?_⟩
      rw [hsize]
      congr 1 <;> omega
    · have hzero : (start.toNat + count.toNat) % 8 ≠ 0 := by
        rw [← hsum]
        exact fun heq => hrmask ((rmask_eq_zero_iff _).2 heq)
      obtain ⟨bitmap3, hlast, hlength3, hfill3⟩ := @modifyByte_fill bitmap2
        ((start + count) >>> 3).toNat v (edge (rmask (start + count))) 0
        ((start.toNat + count.toNat) % 8) (Nat.le_of_lt (Nat.mod_lt _ (by decide))) (by omega)
        fun byte k hk => by
          rw [h.edge _ _ k hk, getLsbD_rmask _ hk, hsum]
          simp only [decide_eq_true_eq, Nat.zero_le, true_and]
      rw [if_pos hrmask]
      refine ⟨bitmap3, hlast, hlength3.trans (hlength2.trans hlength1), hfill3.trans ?_⟩
      rw [hfill2, hsize, hroff, fill_adjacent (by omega) (by omega) (by omega)]
      congr 1 <;> omega

theorem setBits_stores : BitsStores (fun lmask rmask byte => byte ||| (lmask &&& rmask).setWidth 8)
    (fun mask byte => byte ||| mask.setWidth 8) (-1) true := by
  refine ⟨fun left right byte k hk => ?_, fun mask byte k hk => ?_, fun k hk => ?_⟩
  · rw [BitVec.getLsbD_or, BitVec.getLsbD_setWidth, BitVec.getLsbD_and, decide_eq_true hk]
    cases left.getLsbD k <;> cases right.getLsbD k <;> simp
  · rw [BitVec.getLsbD_or, BitVec.getLsbD_setWidth, decide_eq_true hk]
    cases mask.getLsbD k <;> simp
  · have hones : (-1 : BitVec 8) = BitVec.allOnes 8 := rfl
    rw [hones, BitVec.getLsbD_allOnes, decide_eq_true hk]

theorem clearBits_stores :
    BitsStores (fun lmask rmask byte => byte &&& (~~~lmask ||| ~~~rmask).setWidth 8)
      (fun mask byte => byte &&& (~~~mask).setWidth 8) 0 false := by
  refine ⟨fun left right byte k hk => ?_, fun mask byte k hk => ?_, fun k hk => ?_⟩
  · rw [BitVec.getLsbD_and, BitVec.getLsbD_setWidth, BitVec.getLsbD_or, BitVec.getLsbD_not,
      BitVec.getLsbD_not, decide_eq_true hk, decide_eq_true (by omega : k < 32)]
    cases left.getLsbD k <;> cases right.getLsbD k <;> simp
  · rw [BitVec.getLsbD_and, BitVec.getLsbD_setWidth, BitVec.getLsbD_not, decide_eq_true hk,
      decide_eq_true (by omega : k < 32)]
    cases mask.getLsbD k <;> simp
  · exact BitVec.getLsbD_zero

/-! ## Tests of ranges -/

/-- The first position from `offset` on whose bit is `v`, or the size. -/
structure FindsFirst (find : FindNext) (v : Bool) : Prop where
  ge : ∀ bitmap size offset, offset ≤ size → size ≤ 8 * bitmap.length →
    offset ≤ find bitmap size offset
  le : ∀ bitmap size offset, offset ≤ size → size ≤ 8 * bitmap.length →
    find bitmap size offset ≤ size
  before : ∀ bitmap size offset, offset ≤ size → size ≤ 8 * bitmap.length →
    AllBits (bitAt bitmap) offset (find bitmap size offset) (!v)
  found : ∀ bitmap size offset, offset ≤ size → size ≤ 8 * bitmap.length →
    find bitmap size offset < size → bitAt bitmap (find bitmap size offset) = v

theorem FindsFirst.eq_size_iff {find : FindNext} {v : Bool} (h : FindsFirst find v)
    {bitmap : List (BitVec 8)} {size offset : Nat} (hoffset : offset ≤ size)
    (hsize : size ≤ 8 * bitmap.length) :
    find bitmap size offset = size ↔ AllBits (bitAt bitmap) offset size (!v) := by
  constructor
  · intro heq
    have hbefore := h.before bitmap size offset hoffset hsize
    rwa [heq] at hbefore
  · intro hall
    refine Nat.le_antisymm (h.le bitmap size offset hoffset hsize) (Nat.le_of_not_lt fun hlt => ?_)
    have hfound := h.found bitmap size offset hoffset hsize hlt
    have hbit := hall _ (h.ge bitmap size offset hoffset hsize) hlt
    rw [hfound] at hbit
    cases v <;> cases hbit

/-! ## The bitmap -/

/-- A range of bits becomes `v`, and nothing else is changed or accessed. -/
def FillsRange (modify : List (BitVec 8) → BitVec 32 → BitVec 32 → Except TuxError (List (BitVec 8)))
    (v : Bool) (bitmap : List (BitVec 8)) (start count : BitVec 32) : Prop :=
  ∃ bitmap', modify bitmap start count = .ok bitmap' ∧ bitmap'.length = bitmap.length ∧
    bitAt bitmap' = fill (bitAt bitmap) start.toNat (start.toNat + count.toNat) v

/-- What the operations on a range of a bitmap do. -/
structure RangeRight (findNextBitLe findNextZeroBitLe : FindNext) (bitmap : List (BitVec 8))
    (start count : BitVec 32) : Prop where
  set : 0 < count.toNat ∨ start.toNat < 8 * bitmap.length →
    FillsRange setBits true bitmap start count
  clear : 0 < count.toNat ∨ start.toNat < 8 * bitmap.length →
    FillsRange clearBits false bitmap start count
  allSet : allSet findNextZeroBitLe bitmap start count = true ↔
    AllBits (bitAt bitmap) start.toNat (start.toNat + count.toNat) true
  allClear : allClear findNextBitLe bitmap start count = true ↔
    AllBits (bitAt bitmap) start.toNat (start.toNat + count.toNat) false

/-- The operations act on the bits of the range, unless it is empty and begins behind the last
byte; its end has to be a number of 32 bits. -/
theorem rangeRight {findNextBitLe findNextZeroBitLe : FindNext}
    (hfind : FindsFirst findNextBitLe true) (hzero : FindsFirst findNextZeroBitLe false)
    (bitmap : List (BitVec 8)) (start count : BitVec 32)
    (hlen : start.toNat + count.toNat ≤ 8 * bitmap.length)
    (hlimit : start.toNat + count.toNat < 2 ^ 32) :
    RangeRight findNextBitLe findNextZeroBitLe bitmap start count := by
  have hsum : (start + count).toNat = start.toNat + count.toNat := by
    rw [BitVec.toNat_add, Nat.mod_eq_of_lt hlimit]
  refine ⟨modifyBits_fill setBits_stores hlen hlimit, modifyBits_fill clearBits_stores hlen hlimit,
    ?_, ?_⟩
  · unfold allSet
    dsimp only
    rw [hsum, decide_eq_true_eq]
    exact hzero.eq_size_iff (Nat.le_add_right _ _) hlen
  · unfold allClear
    dsimp only
    rw [hsum, decide_eq_true_eq]
    exact hfind.eq_size_iff (Nat.le_add_right _ _) hlen

/-- The first position in the range whose bit is `v`, or the size. -/
def findFrom (v : Bool) : FindNext :=
  fun bitmap size offset => BitRange.findBit (bitAt bitmap) v (size - offset) offset

theorem findFrom_first (v : Bool) : FindsFirst (findFrom v) v := by
  have hspec (bitmap : List (BitVec 8)) {size offset : Nat} (hle : offset ≤ size) :=
    BitRange.findBit_spec (bitAt bitmap) v (size - offset) offset
  refine ⟨fun bitmap size offset hle _ => ?_, fun bitmap size offset hle _ => ?_,
    fun bitmap size offset hle _ => ?_, fun bitmap size offset hle _ hlt => ?_⟩
  · exact (hspec bitmap hle).1
  · have hend := (hspec bitmap hle).2.1
    rwa [Nat.add_sub_cancel' hle] at hend
  · exact (hspec bitmap hle).2.2.1
  · refine (hspec bitmap hle).2.2.2 ?_
    rwa [Nat.add_sub_cancel' hle]

/-- Sixteen bytes, with a range that begins and ends within a byte. -/
theorem rangeRight_sixteen : RangeRight (findFrom true) (findFrom false)
    (List.replicate 16 0) 6 20 ∧ FillsRange setBits true (List.replicate 16 0) 6 20 := by
  have h := rangeRight (findFrom_first true) (findFrom_first false) (List.replicate 16 0)
    6 20 (by decide) (by decide)
  exact ⟨h, h.set (by decide)⟩

/-- An empty range at the end of a bitmap of one byte makes the code read and write the byte behind
it, and so does a range whose end is not a number of 32 bits. -/
theorem modifyBits_outside : setBits [0] 8 0 = .error .bounds ∧ clearBits [0] 8 0 = .error .bounds ∧
    setBits (List.replicate (2 ^ 29 + 1) 0) (-1) 2 = .error .bounds := by
  refine ⟨rfl, rfl, ?_⟩
  have hlen : (List.replicate (2 ^ 29 + 1) (0 : BitVec 8)).length = 2 ^ 29 + 1 :=
    List.length_replicate
  have hne : (-1 : BitVec 32) >>> 3 ≠ (-1 + 2 : BitVec 32) >>> 3 := by decide
  obtain ⟨bitmap1, hfirst, hlength1, -⟩ := @modifyByte_fill (List.replicate (2 ^ 29 + 1) 0)
    ((-1 : BitVec 32) >>> 3).toNat true
    (fun byte => byte ||| (lmask (-1)).setWidth 8) ((-1 : BitVec 32).toNat % 8) 8 (Nat.le_refl 8)
    (by rw [hlen]; decide) fun byte k hk => by
      rw [setBits_stores.edge _ _ k hk, getLsbD_lmask _ hk]
      simp only [decide_eq_true_eq, hk, and_true]
  have hsize : ((-1 + 2 : BitVec 32) >>> 3 - (-1 : BitVec 32) >>> 3 - 1).toNat = 7 * 2 ^ 29 := by
    decide
  unfold setBits modifyBits
  dsimp only
  rw [if_neg hne, bind_of_ok hfirst, hsize]
  unfold memsetBytes
  rw [if_neg (by decide), hlength1, hlen, if_neg (by decide)]
  rfl

end Tux3.Bitmap
