/-
  Balloc/Bitmap.lean --- changing a range of the allocation bitmap.

  `bitmap_modify` and `bitmap_test_and_modify` go through the bitmap blocks of a range one
  by one.  What they do to the whole bitmap is one `fill`, up to the first bitmap block that
  fails.
-/
import Tux3.Lib.BitRange
import Tux3.Volume

set_option autoImplicit false

namespace Tux3

open BitRange

/-! ## State -/

/-- The part of `struct sb` that the allocator works on.  `bits` is the data of the bitmap
inode, the blocks of it one after the other. -/
structure BitmapSb where
  blockbits : Nat
  volblocks : Nat
  bits : Nat → Bool
  freeblocks : Int
  nextblock : Nat

/-- `1 << mapshift`: the number of bits of a bitmap block. -/
def BitmapSb.mapsize (sb : BitmapSb) : Nat := 2 ^ (sb.blockbits + 3)

theorem BitmapSb.mapsize_pos (sb : BitmapSb) : 0 < sb.mapsize := Nat.two_pow_pos _

/-- `bufdata` of a bitmap block. -/
def BitmapSb.bufdata (sb : BitmapSb) (mapblock : Nat) : Nat → Bool :=
  fun offset => sb.bits (mapblock * sb.mapsize + offset)

/-- What the buffers of the bitmap do during one call: which `blockread` fails, in the
search (before or after it wrapped) and in the change, and the error of `blockdirty`.  As
the code has it, `blockdirty` never returns `-EAGAIN` there. -/
structure BitmapIo where
  searchFails : Bool → Nat → Bool
  readFails : Nat → Bool
  dirtyErr : Nat → Int
  dirtyErr_ne : ∀ mapblock, dirtyErr mapblock ≠ -eagain

/-! ## The code -/

/-- `bitmap_modify_bits`: the bits of one block, then `freeblocks`. -/
def bitmapModifyBits (sb : BitmapSb) (io : BitmapIo) (mapblock offset blocks : Nat)
    (set : Bool) : Except TuxError (BitmapSb × Int) := do
  tuxAssert (0 < blocks)
  tuxAssert (offset + blocks ≤ sb.mapsize)
  if io.dirtyErr mapblock ≠ 0 then
    tuxAssert (io.dirtyErr mapblock ≠ -eagain)
    return (sb, io.dirtyErr mapblock)
  let start := mapblock * sb.mapsize + offset
  return ({ sb with
    bits := fill sb.bits start (start + blocks) set
    freeblocks := if set then sb.freeblocks - blocks else sb.freeblocks + blocks }, 0)

/-- The loop over `n` bitmap blocks that `bitmap_modify` and `bitmap_test_and_modify`
share; only the second looks at the bits first (`test`). -/
def bitmapModifyBlocks (test : Bool) (io : BitmapIo) (set : Bool) :
    Nat → BitmapSb → Nat → Nat → Nat → Except TuxError (BitmapSb × Int)
  | 0, sb, _, _, _ => return (sb, 0)
  | n + 1, sb, mapblock, mapoffset, blocks => do
      if io.readFails mapblock then return (sb, -eio)
      let len := min (sb.mapsize - mapoffset) blocks
      if test && !allBits (sb.bufdata mapblock) mapoffset len (!set) then return (sb, -eio)
      let (sb, err) ← bitmapModifyBits sb io mapblock mapoffset len set
      if err ≠ 0 then return (sb, err)
      bitmapModifyBlocks test io set n sb (mapblock + 1) 0 (blocks - len)

/-- The asserts of both functions, and the number of bitmap blocks to go through. -/
def bitmapModifyRange (test : Bool) (sb : BitmapSb) (io : BitmapIo) (start blocks : Nat)
    (set : Bool) : Except TuxError (BitmapSb × Int) := do
  tuxAssert (0 < blocks)
  tuxAssert (start + blocks ≤ sb.volblocks)
  let mapblock := start / sb.mapsize
  let mapblocks := (start + blocks + (sb.mapsize - 1)) / sb.mapsize
  bitmapModifyBlocks test io set (mapblocks - mapblock) sb mapblock (start % sb.mapsize) blocks

/-- `bitmap_modify`. -/
def bitmapModify : BitmapSb → BitmapIo → Nat → Nat → Bool →
    Except TuxError (BitmapSb × Int) :=
  bitmapModifyRange false

/-- `bitmap_test_and_modify`. -/
def bitmapTestAndModify : BitmapSb → BitmapIo → Nat → Nat → Bool →
    Except TuxError (BitmapSb × Int) :=
  bitmapModifyRange true

/-- `bfree`. -/
def bfree (sb : BitmapSb) (io : BitmapIo) (start blocks : Nat) :
    Except TuxError (BitmapSb × Int) :=
  bitmapTestAndModify sb io start blocks false

/-- `replay_update_bitmap`. -/
def replayUpdateBitmap (sb : BitmapSb) (io : BitmapIo) (start blocks : Nat) (set : Bool) :
    Except TuxError (BitmapSb × Int) :=
  bitmapTestAndModify sb io start blocks set

/-! ## What it does to the bitmap -/

/-- The bits from `start` to before `stop` are set or cleared, and counted. -/
def BitmapSb.modified (sb : BitmapSb) (start stop : Nat) (set : Bool) : BitmapSb :=
  { sb with
    bits := fill sb.bits start stop set
    freeblocks := if set then sb.freeblocks - (stop - start : Nat)
      else sb.freeblocks + (stop - start : Nat) }

@[simp] theorem BitmapSb.modified_mapsize (sb : BitmapSb) (start stop : Nat) (set : Bool) :
    (sb.modified start stop set).mapsize = sb.mapsize := rfl

@[simp] theorem BitmapSb.modified_volblocks (sb : BitmapSb) (start stop : Nat) (set : Bool) :
    (sb.modified start stop set).volblocks = sb.volblocks := rfl

@[simp] theorem BitmapSb.modified_nextblock (sb : BitmapSb) (start stop : Nat) (set : Bool) :
    (sb.modified start stop set).nextblock = sb.nextblock := rfl

@[simp] theorem BitmapSb.modified_bits (sb : BitmapSb) (start stop : Nat) (set : Bool) :
    (sb.modified start stop set).bits = fill sb.bits start stop set := rfl

theorem BitmapSb.modified_self (sb : BitmapSb) (start : Nat) (set : Bool) :
    sb.modified start start set = sb := by
  unfold BitmapSb.modified
  rw [fill_empty (Nat.le_refl _), Nat.sub_self]
  cases set <;> simp

theorem BitmapSb.modified_modified (sb : BitmapSb) {start mid stop : Nat} {set : Bool}
    (hstart : start ≤ mid) (hstop : mid ≤ stop) :
    (sb.modified start mid set).modified mid stop set = sb.modified start stop set := by
  unfold BitmapSb.modified
  simp only [fill_fill hstart hstop]
  cases set
  · simp only [Bool.false_eq_true, if_false]
    congr 1
    omega
  · simp only [if_true]
    congr 1
    omega

/-- A bitmap block of a range cannot be read or dirtied. -/
def IoFails (io : BitmapIo) (mapblock : Nat) : Prop :=
  io.readFails mapblock = true ∨ io.dirtyErr mapblock ≠ 0

/-- A bit of the range in that bitmap block is already in the state it should get. -/
def Unexpected (sb : BitmapSb) (set : Bool) (start stop mapblock : Nat) : Prop :=
  ∃ b, start ≤ b ∧ b < stop ∧ b / sb.mapsize = mapblock ∧ sb.bits b = set

/-- The bitmap block stops the change of a range. -/
def BlockFails (test : Bool) (sb : BitmapSb) (io : BitmapIo) (set : Bool)
    (start stop mapblock : Nat) : Prop :=
  IoFails io mapblock ∨ (test = true ∧ Unexpected sb set start stop mapblock)

/-- The bitmap blocks of a range. -/
def InRange (sb : BitmapSb) (start stop mapblock : Nat) : Prop :=
  start / sb.mapsize ≤ mapblock ∧ mapblock * sb.mapsize < stop

/-- What a change of a range comes to: all of it, or what lies before the first bitmap
block that fails, and an error. -/
inductive ModifyResult (test : Bool) (sb : BitmapSb) (io : BitmapIo) (set : Bool)
    (start stop : Nat) : BitmapSb × Int → Prop where
  | done (h : ∀ m, InRange sb start stop m → ¬BlockFails test sb io set start stop m) :
      ModifyResult test sb io set start stop (sb.modified start stop set, 0)
  | failed {m : Nat} {err : Int} (hm : InRange sb start stop m)
      (hfails : BlockFails test sb io set start stop m)
      (hfirst : ∀ m' < m, InRange sb start stop m' → ¬BlockFails test sb io set start stop m')
      (herr : err ≠ 0) :
      ModifyResult test sb io set start stop
        (sb.modified start (max start (m * sb.mapsize)) set, err)

theorem mul_add_div_of_lt {m k o : Nat} (ho : o < k) : (m * k + o) / k = m := by
  rw [Nat.mul_comm, Nat.mul_add_div (Nat.zero_lt_of_lt ho), Nat.div_eq_of_lt ho, Nat.add_zero]

section Steps

variable {test set : Bool} {sb : BitmapSb} {io : BitmapIo} {mapblock mapoffset blocks : Nat}

/-- A range that fits into its first bitmap block is in no other. -/
theorem InRange.eq_of_le {m : Nat} (hoffset : mapoffset < sb.mapsize)
    (hle : mapoffset + blocks ≤ sb.mapsize)
    (hm : InRange sb (mapblock * sb.mapsize + mapoffset)
      (mapblock * sb.mapsize + mapoffset + blocks) m) : m = mapblock := by
  obtain ⟨hge, hlt⟩ := hm
  rw [mul_add_div_of_lt hoffset] at hge
  have hbelow : m * sb.mapsize < (mapblock + 1) * sb.mapsize := by
    rw [Nat.add_mul]
    omega
  have hm := Nat.lt_of_mul_lt_mul_right hbelow
  omega

theorem inRange_self (hoffset : mapoffset < sb.mapsize) (hblocks : 0 < blocks) :
    InRange sb (mapblock * sb.mapsize + mapoffset)
      (mapblock * sb.mapsize + mapoffset + blocks) mapblock := by
  refine ⟨?_, by omega⟩
  rw [mul_add_div_of_lt hoffset]

/-- A bitmap block that fails stops the change before it. -/
theorem ModifyResult.first {err : Int} (hoffset : mapoffset < sb.mapsize)
    (hblocks : 0 < blocks)
    (hfails : BlockFails test sb io set (mapblock * sb.mapsize + mapoffset)
      (mapblock * sb.mapsize + mapoffset + blocks) mapblock) (herr : err ≠ 0) :
    ModifyResult test sb io set (mapblock * sb.mapsize + mapoffset)
      (mapblock * sb.mapsize + mapoffset + blocks) (sb, err) := by
  have hres := ModifyResult.failed (inRange_self hoffset hblocks) hfails
    (fun m' hlt hm' => absurd hm'.1 (by rw [mul_add_div_of_lt hoffset]; omega)) herr
  rwa [Nat.max_eq_left (by omega), BitmapSb.modified_self] at hres

/-- The bitmap blocks after the first of a range fail as they did before the first was
changed. -/
theorem blockFails_modified {start mid stop m : Nat} (hstart : start ≤ mid)
    (hm : mid ≤ m * sb.mapsize) :
    BlockFails test (sb.modified start mid set) io set mid stop m ↔
      BlockFails test sb io set start stop m := by
  have hpos := sb.mapsize_pos
  have hunexpected : Unexpected (sb.modified start mid set) set mid stop m ↔
      Unexpected sb set start stop m := by
    constructor
    · rintro ⟨b, hge, hlt, hb, hbit⟩
      refine ⟨b, by omega, hlt, hb, ?_⟩
      rwa [BitmapSb.modified_bits, fill_of_ge hge] at hbit
    · rintro ⟨b, hge, hlt, hb, hbit⟩
      have hb' : m * sb.mapsize ≤ b := by
        rw [← hb]
        exact Nat.div_mul_le_self b _
      refine ⟨b, by omega, hlt, hb, ?_⟩
      rwa [BitmapSb.modified_bits, fill_of_ge (by omega)]
  unfold BlockFails
  rw [hunexpected]

/-- A change goes on after a bitmap block that does not fail. -/
theorem ModifyResult.next {r : BitmapSb × Int} (hoffset : mapoffset < sb.mapsize)
    (hgt : sb.mapsize < mapoffset + blocks)
    (hfails : ¬BlockFails test sb io set (mapblock * sb.mapsize + mapoffset)
      (mapblock * sb.mapsize + mapoffset + blocks) mapblock)
    (h : ModifyResult test
      (sb.modified (mapblock * sb.mapsize + mapoffset) ((mapblock + 1) * sb.mapsize) set) io set
      ((mapblock + 1) * sb.mapsize) (mapblock * sb.mapsize + mapoffset + blocks) r) :
    ModifyResult test sb io set (mapblock * sb.mapsize + mapoffset)
      (mapblock * sb.mapsize + mapoffset + blocks) r := by
  have hmid : (mapblock + 1) * sb.mapsize = mapblock * sb.mapsize + sb.mapsize := by
    rw [Nat.add_mul, Nat.one_mul]
  have hpos := sb.mapsize_pos
  -- the later blocks are those of the rest of the range
  have hrest : ∀ {m}, InRange sb (mapblock * sb.mapsize + mapoffset)
      (mapblock * sb.mapsize + mapoffset + blocks) m → m ≠ mapblock →
      (mapblock + 1) * sb.mapsize ≤ m * sb.mapsize ∧
      InRange sb ((mapblock + 1) * sb.mapsize)
        (mapblock * sb.mapsize + mapoffset + blocks) m := by
    intro m hm hne
    have hge := hm.1
    rw [mul_add_div_of_lt hoffset] at hge
    have hlt : mapblock + 1 ≤ m := by omega
    refine ⟨Nat.mul_le_mul_right _ hlt, ?_, hm.2⟩
    rwa [Nat.mul_div_cancel _ hpos]
  have hback : ∀ {m}, InRange sb ((mapblock + 1) * sb.mapsize)
      (mapblock * sb.mapsize + mapoffset + blocks) m →
      mapblock + 1 ≤ m ∧ InRange sb (mapblock * sb.mapsize + mapoffset)
        (mapblock * sb.mapsize + mapoffset + blocks) m := by
    intro m hm
    have hge := hm.1
    rw [Nat.mul_div_cancel _ hpos] at hge
    refine ⟨hge, ?_, hm.2⟩
    rw [mul_add_div_of_lt hoffset]
    omega
  cases h with
  | done hno =>
      rw [BitmapSb.modified_modified _ (by omega) (by omega)]
      refine .done fun m hm => ?_
      by_cases hne : m = mapblock
      · rw [hne]
        exact hfails
      · have hm' := hrest hm hne
        rw [← blockFails_modified (by omega) hm'.1]
        exact hno m hm'.2
  | @failed m err hm hm' hfirst herr =>
      obtain ⟨hge, hin⟩ := hback hm
      have hle := Nat.mul_le_mul_right sb.mapsize hge
      simp only [BitmapSb.modified_mapsize]
      rw [BitmapSb.modified_modified _ (by omega) (Nat.le_max_left _ _),
        Nat.max_eq_right hle,
        ← Nat.max_eq_right (show mapblock * sb.mapsize + mapoffset ≤ m * sb.mapsize by omega)]
      refine .failed hin ((blockFails_modified (by omega) hle).mp hm') ?_ herr
      intro m' hlt hin'
      by_cases hne : m' = mapblock
      · rw [hne]
        exact hfails
      · have hm' := hrest hin' hne
        rw [← blockFails_modified (by omega) hm'.1]
        exact hfirst m' hlt hm'.2

theorem bitmapModifyBits_ok (hblocks : 0 < blocks) (hle : mapoffset + blocks ≤ sb.mapsize)
    (hdirty : io.dirtyErr mapblock = 0) :
    bitmapModifyBits sb io mapblock mapoffset blocks set =
      .ok (sb.modified (mapblock * sb.mapsize + mapoffset)
        (mapblock * sb.mapsize + mapoffset + blocks) set, 0) := by
  unfold bitmapModifyBits BitmapSb.modified
  rw [tuxAssert_of hblocks, tuxAssert_of hle, Nat.add_sub_cancel_left]
  simp only [hdirty, ne_eq, not_true_eq_false, if_false]
  rfl

theorem bitmapModifyBits_failed (hblocks : 0 < blocks) (hle : mapoffset + blocks ≤ sb.mapsize)
    (hdirty : io.dirtyErr mapblock ≠ 0) :
    bitmapModifyBits sb io mapblock mapoffset blocks set = .ok (sb, io.dirtyErr mapblock) := by
  unfold bitmapModifyBits
  rw [tuxAssert_of hblocks, tuxAssert_of hle, tuxAssert_of (io.dirtyErr_ne mapblock)]
  simp only [hdirty, ne_eq, not_false_eq_true, if_true]
  rfl

/-- A bitmap block whose bits are not all in the state they should be in. -/
theorem unexpected_of_allBits {stop len : Nat} (hle : mapoffset + len ≤ sb.mapsize)
    (hstop : mapblock * sb.mapsize + mapoffset + len ≤ stop)
    (h : allBits (sb.bufdata mapblock) mapoffset len (!set) = false) :
    Unexpected sb set (mapblock * sb.mapsize + mapoffset) stop mapblock := by
  have hnot : ¬AllBits (sb.bufdata mapblock) mapoffset (mapoffset + len) (!set) := by
    rw [← allBits_iff, h]
    nofun
  unfold AllBits at hnot
  push Not at hnot
  obtain ⟨o, hge, hlt, hbit⟩ := hnot
  refine ⟨mapblock * sb.mapsize + o, by omega, by omega, mul_add_div_of_lt (by omega), ?_⟩
  unfold BitmapSb.bufdata at hbit
  simpa using hbit

theorem not_unexpected_of_allBits {len : Nat}
    (h : allBits (sb.bufdata mapblock) mapoffset len (!set) = true)
    (hlen : len = min (sb.mapsize - mapoffset) blocks) :
    ¬Unexpected sb set (mapblock * sb.mapsize + mapoffset)
      (mapblock * sb.mapsize + mapoffset + blocks) mapblock := by
  rintro ⟨b, hge, hlt, hb, hbit⟩
  have hblock : b < mapblock * sb.mapsize + sb.mapsize := by
    have hlt := Nat.lt_mul_div_succ b sb.mapsize_pos
    rwa [hb, Nat.mul_succ, Nat.mul_comm] at hlt
  have hall := allBits_iff.mp h (b - mapblock * sb.mapsize) (by omega) (by omega)
  unfold BitmapSb.bufdata at hall
  rw [Nat.add_sub_cancel' (by omega), hbit] at hall
  cases set <;> cases hall

/-- The loop changes its range, or what lies before the first block that fails. -/
theorem bitmapModifyBlocks_result (n : Nat) (hoffset : mapoffset < sb.mapsize)
    (hcover : mapoffset + blocks ≤ n * sb.mapsize)
    (hneed : ∀ k, n = k + 1 → k * sb.mapsize < mapoffset + blocks ∧ 0 < blocks) :
    ∃ r, bitmapModifyBlocks test io set n sb mapblock mapoffset blocks = .ok r ∧
      ModifyResult test sb io set (mapblock * sb.mapsize + mapoffset)
        (mapblock * sb.mapsize + mapoffset + blocks) r := by
  induction n generalizing sb mapblock mapoffset blocks with
  | zero =>
      rw [Nat.zero_mul] at hcover
      obtain rfl : mapoffset = 0 := by omega
      obtain rfl : blocks = 0 := by omega
      have hres : ModifyResult test sb io set (mapblock * sb.mapsize)
          (mapblock * sb.mapsize)
          (sb.modified (mapblock * sb.mapsize) (mapblock * sb.mapsize) set, 0) := by
        refine .done fun m hm => ?_
        obtain ⟨hge, hlt⟩ := hm
        rw [Nat.mul_div_cancel _ sb.mapsize_pos] at hge
        exact absurd (Nat.mul_le_mul_right _ hge) (Nat.not_le_of_lt hlt)
      rw [BitmapSb.modified_self] at hres
      exact ⟨(sb, 0), rfl, hres⟩
  | succ n ih =>
      obtain ⟨hlast, hblocks⟩ := hneed n rfl
      have hlen : 0 < min (sb.mapsize - mapoffset) blocks := by omega
      have hle : mapoffset + min (sb.mapsize - mapoffset) blocks ≤ sb.mapsize := by omega
      unfold bitmapModifyBlocks
      by_cases hread : io.readFails mapblock = true
      · rw [if_pos hread]
        exact ⟨_, rfl, .first hoffset hblocks (.inl (.inl hread)) (by decide)⟩
      rw [if_neg hread]
      dsimp only
      by_cases htest : (test && !allBits (sb.bufdata mapblock) mapoffset
          (min (sb.mapsize - mapoffset) blocks) (!set)) = true
      · rw [if_pos htest]
        rw [Bool.and_eq_true, Bool.not_eq_true'] at htest
        have hbits : Unexpected sb set (mapblock * sb.mapsize + mapoffset)
            (mapblock * sb.mapsize + mapoffset + blocks) mapblock :=
          unexpected_of_allBits hle (by omega) htest.2
        exact ⟨_, rfl, .first hoffset hblocks (.inr ⟨htest.1, hbits⟩) (by decide)⟩
      rw [if_neg htest]
      by_cases hdirty : io.dirtyErr mapblock = 0
      · rw [bitmapModifyBits_ok hlen hle hdirty]
        have hfails : ¬BlockFails test sb io set (mapblock * sb.mapsize + mapoffset)
            (mapblock * sb.mapsize + mapoffset + blocks) mapblock := by
          rintro ((hr | hd) | ⟨ht, hbits⟩)
          · exact hread hr
          · exact hd hdirty
          · refine not_unexpected_of_allBits ?_ rfl hbits
            rw [ht] at htest
            simpa using htest
        show ∃ r, bitmapModifyBlocks test io set n _ (mapblock + 1) 0 _ = .ok r ∧ _
        rcases Nat.lt_or_ge sb.mapsize (mapoffset + blocks) with hgt | hfit
        · -- the range goes on in the next block
          have hmid : (mapblock + 1) * sb.mapsize = mapblock * sb.mapsize + sb.mapsize := by
            rw [Nat.add_mul, Nat.one_mul]
          rw [Nat.min_eq_left (by omega),
            show mapblock * sb.mapsize + mapoffset + (sb.mapsize - mapoffset) =
              (mapblock + 1) * sb.mapsize by omega]
          rw [Nat.add_mul, Nat.one_mul] at hcover
          obtain ⟨r, hr, hres⟩ := @ih
            (sb.modified (mapblock * sb.mapsize + mapoffset) ((mapblock + 1) * sb.mapsize) set)
            (mapblock + 1) 0 (blocks - (sb.mapsize - mapoffset)) sb.mapsize_pos
            (by rw [BitmapSb.modified_mapsize]; omega)
            (by
              rintro k rfl
              rw [Nat.add_mul, Nat.one_mul] at hlast
              rw [BitmapSb.modified_mapsize]
              omega)
          refine ⟨r, hr, .next hoffset hgt hfails ?_⟩
          simp only [BitmapSb.modified_mapsize, Nat.add_zero] at hres
          rw [show (mapblock + 1) * sb.mapsize + (blocks - (sb.mapsize - mapoffset)) =
              mapblock * sb.mapsize + mapoffset + blocks by omega] at hres
          exact hres
        · -- it ends in this block
          obtain rfl : n = 0 := by
            by_contra hne
            have hone := Nat.mul_le_mul_right sb.mapsize (Nat.one_le_iff_ne_zero.mpr hne)
            omega
          rw [Nat.min_eq_right (by omega)]
          refine ⟨_, rfl, .done fun m hm => ?_⟩
          rw [hm.eq_of_le hoffset hfit]
          exact hfails
      · rw [bitmapModifyBits_failed hlen hle hdirty]
        refine ⟨(sb, io.dirtyErr mapblock), ?_, .first hoffset hblocks (.inl (.inr hdirty)) hdirty⟩
        show (if io.dirtyErr mapblock ≠ 0 then _ else _) = _
        rw [if_pos hdirty]
        rfl

end Steps

/-- `bitmap_modify` and `bitmap_test_and_modify`, called on a range of the volume. -/
theorem bitmapModifyRange_result (test : Bool) (sb : BitmapSb) (io : BitmapIo)
    {start blocks : Nat} (set : Bool) (hblocks : 0 < blocks)
    (hle : start + blocks ≤ sb.volblocks) :
    ∃ r, bitmapModifyRange test sb io start blocks set = .ok r ∧
      ModifyResult test sb io set start (start + blocks) r := by
  have hpos := sb.mapsize_pos
  have hstart := Nat.div_add_mod' start sb.mapsize
  have hoffset := Nat.mod_lt start hpos
  have hend := Nat.div_add_mod' (start + blocks + (sb.mapsize - 1)) sb.mapsize
  have hrest := Nat.mod_lt (start + blocks + (sb.mapsize - 1)) hpos
  generalize hlast : (start + blocks + (sb.mapsize - 1)) / sb.mapsize = last at hend
  have hfirst : start / sb.mapsize ≤ last := by
    rw [← hlast]
    exact Nat.div_le_div_right (by omega)
  have hcount : (last - start / sb.mapsize) * sb.mapsize =
      last * sb.mapsize - start / sb.mapsize * sb.mapsize := Nat.sub_mul _ _ _
  have hres := @bitmapModifyBlocks_result test set sb io (start / sb.mapsize)
    (start % sb.mapsize) blocks (last - start / sb.mapsize) hoffset (by omega)
    (by
      intro k hk
      rw [hk, Nat.add_mul, Nat.one_mul] at hcount
      omega)
  rw [hstart] at hres
  unfold bitmapModifyRange
  rw [tuxAssert_of hblocks, tuxAssert_of hle]
  dsimp only
  rw [hlast]
  exact hres

end Tux3
