/-
  Balloc/Search.lean --- the cyclic search of the allocator.

  `balloc_from_range` searches bitmap block by bitmap block and jumps over runs of bits; a
  running `need` carries a free run over the block boundaries.  `firstFit` says what it
  looks for, one block of the volume after the other: the first free run that is long
  enough, or else the longest that was seen to end.  The search refines it.
-/
import Tux3.Balloc.Bitmap

set_option autoImplicit false

namespace Tux3

open BitRange

/-! ## The code -/

/-- `find_next_bit_le`. -/
def findNextBitLe (p : Nat → Bool) (size offset : Nat) : Nat :=
  if size ≤ offset then size else findBit p true (size - offset) offset

/-- `find_next_zero_bit_le`. -/
def findNextZeroBitLe (p : Nat → Bool) (size offset : Nat) : Nat :=
  if size ≤ offset then size else findBit p false (size - offset) offset

/-- `save_seg`. -/
def saveSeg (seg : BlockSegment) (start count : Nat) : BlockSegment :=
  if seg.count < count then ⟨start, count⟩ else seg

/-- How the search of one bitmap block ends: with a `goto found_range`, or with a `break`
that leaves `need` blocks to find. -/
inductive BlockSearch where
  | found (found : Nat) (seg : BlockSegment)
  | leave (need : Nat) (seg : BlockSegment)

/-- The inner loop of `balloc_from_range`. -/
def searchBlock (p : Nat → Bool) (mapstart maplimit blocks : Nat) :
    Nat → Nat → Nat → BlockSegment → Except TuxError BlockSearch
  | 0, _, _, _ => .error .fuel
  | fuel + 1, need, mapoffset, seg =>
      let mapnext := min (mapoffset + need) maplimit
      let idx := findNextBitLe p mapnext mapoffset
      let need := need - (idx - mapoffset)
      if idx = mapnext then
        if need ≠ 0 then .ok (.leave need seg)
        else
          let found := mapstart + idx - blocks
          .ok (.found found (saveSeg seg found blocks))
      else
        let blks := blocks - need
        let seg := if need < blocks then saveSeg seg (mapstart + idx - blks) blks else seg
        let mapoffset := findNextZeroBitLe p maplimit (idx + 1)
        if mapoffset = maplimit then .ok (.leave blocks seg)
        else searchBlock p mapstart maplimit blocks fuel blocks mapoffset seg

/-- How the search ends: a bitmap block could not be read, `goto found_range` out of the
search of a bitmap block, or all of the range was searched. -/
inductive RangeSearch where
  | readFailed (seg : BlockSegment)
  | found (found mapblock : Nat) (seg : BlockSegment)
  | searched (seg : BlockSegment)

/-- The outer loop of `balloc_from_range`. -/
def searchRange (sb : BitmapSb) (io : BitmapIo) (blocks : Nat) :
    Nat → Bool → Nat → Nat → Nat → BlockSegment → Except TuxError RangeSearch
  | 0, _, _, _, _, _ => .error .fuel
  | fuel + 1, wrapped, start, len, need, seg => do
      if len = 0 then return .searched seg
      let out := decide (sb.volblocks ≤ start)
      let blks := blocks - need
      let seg := if out && decide (need < blocks)
        then saveSeg seg (sb.volblocks - blks) blks else seg
      let wrapped := wrapped || out
      let start := if out then 0 else start
      let need := if out then blocks else need
      let mapblock := start / sb.mapsize
      let mapstart := mapblock * sb.mapsize
      let mapoffset := start % sb.mapsize
      let maplimit := min sb.mapsize (mapoffset + len)
      let maplimit := if sb.volblocks < mapstart + maplimit
        then sb.volblocks % sb.mapsize else maplimit
      let maplen := maplimit - mapoffset
      if io.searchFails wrapped mapblock then return .readFailed seg
      match ← searchBlock (sb.bufdata mapblock) mapstart maplimit blocks (maplen + 1) need
          mapoffset seg with
      | .found found seg => return .found found mapblock seg
      | .leave need seg =>
          searchRange sb io blocks fuel wrapped (start + maplen) (len - maplen) need seg

/-- `found_range`: blocks found within the bitmap block that the search is at are taken
there. -/
def foundRange (sb : BitmapSb) (io : BitmapIo) (found mapblock blocks : Nat) :
    Except TuxError (BitmapSb × Int) :=
  if found / sb.mapsize = mapblock
  then bitmapModifyBits sb io mapblock (found % sb.mapsize) blocks true
  else bitmapModify sb io found blocks true

/-- The end of `balloc_from_range`, after a change of the bitmap. -/
def ballocFound (sb : BitmapSb) (err : Int) (seg : BlockSegment) (found blocks : Nat) :
    BitmapSb × Int × BlockSegment :=
  if err ≠ 0 then (sb, err, seg)
  else
    let nextblock := found + blocks
    ({ sb with nextblock := if sb.volblocks ≤ nextblock then 0 else nextblock }, 0,
      ⟨found, blocks⟩)

/-- `balloc_from_range`, with or without `BALLOC_PARTIAL`. -/
def ballocFromRange (sb : BitmapSb) (io : BitmapIo) (start len blocks : Nat)
    (ballocPartial : Bool) : Except TuxError (BitmapSb × Int × BlockSegment) := do
  tuxAssert (0 < blocks)
  tuxAssert (len ≤ sb.volblocks)
  match ← searchRange sb io blocks (len + 1) false start len blocks ⟨0, 0⟩ with
  | .readFailed seg => return (sb, -eio, seg)
  | .found found mapblock seg =>
      let (sb', err) ← foundRange sb io found mapblock blocks
      return ballocFound sb' err seg found blocks
  | .searched seg =>
      if ballocPartial && seg.count != 0 then
        let (sb', err) ← bitmapModify sb io seg.block seg.count true
        return ballocFound sb' err seg seg.block seg.count
      else return (sb, -enospc, seg)

/-- `balloc`. -/
def balloc (sb : BitmapSb) (io : BitmapIo) (blocks : Nat) :
    Except TuxError (BitmapSb × Int × BlockSegment) :=
  ballocFromRange sb io sb.nextblock sb.volblocks blocks false

/-- `balloc_partial`. -/
def ballocPartial (sb : BitmapSb) (io : BitmapIo) (blocks : Nat) :
    Except TuxError (BitmapSb × Int × BlockSegment) :=
  ballocFromRange sb io sb.nextblock sb.volblocks blocks true

/-! ## First fit -/

/-- Where a scan of the volume stands: the next block, the length of the free run that ends
before it, and the longest free run that ended earlier. -/
structure Scan where
  wrapped : Bool
  pos : Nat
  run : Nat
  best : BlockSegment

/-- At the end of the volume the scan goes on at block 0, and the run ends. -/
def Scan.wrap (volblocks : Nat) (s : Scan) : Scan :=
  if volblocks ≤ s.pos then ⟨true, 0, 0, saveSeg s.best (volblocks - s.run) s.run⟩ else s

/-- The next block is free. -/
def Scan.free (s : Scan) (n : Nat) : Scan := { s with pos := s.pos + n, run := s.run + n }

/-- The next block is taken, and the run ends. -/
def Scan.taken (s : Scan) : Scan :=
  { s with pos := s.pos + 1, run := 0, best := saveSeg s.best (s.pos - s.run) s.run }

/-- What a scan finds. -/
inductive Fit where
  | unreadable
  | found (seg : BlockSegment)
  | missing (best : BlockSegment)

/-- The first free run of `blocks` blocks among the next `len`, in cyclic order. -/
def firstFit (bits : Nat → Bool) (volblocks blocks : Nat) (unreadable : Bool → Nat → Bool) :
    Nat → Scan → Fit
  | 0, s => .missing s.best
  | len + 1, s =>
      let s := s.wrap volblocks
      if unreadable s.wrapped s.pos then .unreadable
      else if bits s.pos then firstFit bits volblocks blocks unreadable len s.taken
      else if s.run + 1 = blocks then .found ⟨s.pos + 1 - blocks, blocks⟩
      else firstFit bits volblocks blocks unreadable len (s.free 1)

section FirstFit

variable {bits : Nat → Bool} {volblocks blocks : Nat} {unreadable : Bool → Nat → Bool} {s : Scan}

@[simp] theorem saveSeg_zero (seg : BlockSegment) (start : Nat) : saveSeg seg start 0 = seg :=
  if_neg (Nat.not_lt_zero _)

/-- The blocks of the scan's lap from its position on can be read. -/
def Scan.Readable (unreadable : Bool → Nat → Bool) (s : Scan) (n : Nat) : Prop :=
  ∀ b, s.pos ≤ b → b < s.pos + n → unreadable s.wrapped b = false

theorem Scan.wrap_of_lt (h : s.pos < volblocks) : s.wrap volblocks = s :=
  if_neg (Nat.not_le_of_lt h)

theorem firstFit_taken {len : Nat} (hpos : s.pos < volblocks)
    (hread : unreadable s.wrapped s.pos = false) (hbit : bits s.pos = true) :
    firstFit bits volblocks blocks unreadable (len + 1) s =
      firstFit bits volblocks blocks unreadable len s.taken := by
  rw [firstFit]
  simp only [Scan.wrap_of_lt hpos, hread, hbit, Bool.false_eq_true, if_false, if_true]

theorem firstFit_free_step {len : Nat} (hpos : s.pos < volblocks)
    (hread : unreadable s.wrapped s.pos = false) (hbit : bits s.pos = false)
    (hrun : s.run + 1 ≠ blocks) :
    firstFit bits volblocks blocks unreadable (len + 1) s =
      firstFit bits volblocks blocks unreadable len (s.free 1) := by
  rw [firstFit]
  simp only [Scan.wrap_of_lt hpos, hread, hbit, hrun, Bool.false_eq_true, if_false]

/-- The scan passes over free blocks while the run is too short. -/
theorem firstFit_free {len : Nat} (n : Nat) (hpos : s.pos + n ≤ volblocks)
    (hread : s.Readable unreadable n) (hbits : AllBits bits s.pos (s.pos + n) false)
    (hrun : s.run + n < blocks) :
    firstFit bits volblocks blocks unreadable (n + len) s =
      firstFit bits volblocks blocks unreadable len (s.free n) := by
  induction n generalizing s with
  | zero => rw [Nat.zero_add]; rfl
  | succ n ih =>
      rw [show n + 1 + len = (n + len) + 1 by omega,
        firstFit_free_step (by omega) (hread _ (Nat.le_refl _) (by omega))
          (hbits _ (Nat.le_refl _) (by omega)) (by omega)]
      have hnext : (s.free 1).free n = s.free (n + 1) := by
        simp [Scan.free, Nat.add_assoc, Nat.add_comm 1 n]
      have hstep : firstFit bits volblocks blocks unreadable (n + len) (s.free 1) =
          firstFit bits volblocks blocks unreadable len ((s.free 1).free n) := by
        apply ih
        · simp only [Scan.free]; omega
        · exact fun b hle hlt => hread b (by simp only [Scan.free] at hle; omega)
            (by simp only [Scan.free] at hlt; omega)
        · exact hbits.mono (by simp only [Scan.free]; omega) (by simp only [Scan.free]; omega)
        · simp only [Scan.free]; omega
      rw [hstep, hnext]

/-- The scan finds a run as soon as it is long enough. -/
theorem firstFit_found {len : Nat} (n : Nat) (hpos : s.pos + n + 1 ≤ volblocks)
    (hread : s.Readable unreadable (n + 1))
    (hbits : AllBits bits s.pos (s.pos + n + 1) false) (hrun : s.run + n + 1 = blocks) :
    firstFit bits volblocks blocks unreadable (n + 1 + len) s =
      .found ⟨s.pos + n + 1 - blocks, blocks⟩ := by
  rw [show n + 1 + len = n + (len + 1) by omega,
    firstFit_free n (by omega) (fun b hle hlt => hread b hle (by omega))
      (hbits.mono (Nat.le_refl _) (by omega)) (by omega), firstFit]
  have hlast : (s.free n).wrap volblocks = s.free n :=
    Scan.wrap_of_lt (by simp only [Scan.free]; omega)
  have hread' := hread (s.pos + n) (by omega) (by omega)
  have hbit := hbits (s.pos + n) (by omega) (by omega)
  simp only [hlast]
  simp only [Scan.free, hread', hbit, hrun, Bool.false_eq_true, if_false, if_true]

/-- The scan passes over taken blocks. -/
theorem firstFit_skip {len : Nat} (n : Nat) (hpos : s.pos + n ≤ volblocks)
    (hread : s.Readable unreadable n) (hbits : AllBits bits s.pos (s.pos + n) true)
    (hrun : s.run = 0) :
    firstFit bits volblocks blocks unreadable (n + len) s =
      firstFit bits volblocks blocks unreadable len { s with pos := s.pos + n } := by
  induction n generalizing s with
  | zero => rw [Nat.zero_add]; rfl
  | succ n ih =>
      rw [show n + 1 + len = (n + len) + 1 by omega,
        firstFit_taken (by omega) (hread _ (Nat.le_refl _) (by omega))
          (hbits _ (Nat.le_refl _) (by omega))]
      have htaken : s.taken = { s with pos := s.pos + 1 } := by
        simp [Scan.taken, hrun]
      have hstep : firstFit bits volblocks blocks unreadable (n + len)
          { s with pos := s.pos + 1 } =
          firstFit bits volblocks blocks unreadable len { s with pos := s.pos + 1 + n } := by
        apply ih
        · show s.pos + 1 + n ≤ volblocks
          omega
        · exact fun b hle hlt => hread b (Nat.le_trans (Nat.le_succ _) hle)
            (Nat.lt_of_lt_of_le hlt (by show s.pos + 1 + n ≤ s.pos + (n + 1); omega))
        · exact hbits.mono (Nat.le_succ _) (by show s.pos + 1 + n ≤ _; omega)
        · exact hrun
      rw [htaken, hstep, show s.pos + (n + 1) = s.pos + 1 + n by omega]

/-- A segment of at most `blocks` free blocks of the volume. -/
structure FreeSeg (bits : Nat → Bool) (volblocks blocks : Nat) (seg : BlockSegment) : Prop where
  free : AllBits bits seg.block (seg.block + seg.count) false
  inside : seg.block + seg.count ≤ volblocks
  count_le : seg.count ≤ blocks

theorem FreeSeg.zero (bits : Nat → Bool) (volblocks blocks : Nat) :
    FreeSeg bits volblocks blocks ⟨0, 0⟩ :=
  ⟨.empty (Nat.le_refl _), Nat.zero_le _, Nat.zero_le _⟩

/-- What a scan knows. -/
structure Scan.Ok (bits : Nat → Bool) (volblocks blocks : Nat) (s : Scan) : Prop where
  run_lt : s.run < blocks
  run_le : s.run ≤ s.pos
  inside : s.pos ≤ volblocks ∨ s.run = 0
  free : AllBits bits (s.pos - s.run) s.pos false
  best : FreeSeg bits volblocks blocks s.best

/-- The longer of the best run and the one that ends. -/
theorem Scan.Ok.saveSeg (h : s.Ok bits volblocks blocks) :
    FreeSeg bits volblocks blocks (saveSeg s.best (s.pos - s.run) s.run) := by
  obtain ⟨hlt, hle, hin, hfree, hbest⟩ := h
  unfold Tux3.saveSeg
  split
  · rename_i hlonger
    refine ⟨?_, ?_, Nat.le_of_lt hlt⟩
    · show AllBits bits (s.pos - s.run) (s.pos - s.run + s.run) false
      rwa [Nat.sub_add_cancel hle]
    · show s.pos - s.run + s.run ≤ volblocks
      omega
  · exact hbest

theorem Scan.Ok.wrap (h : s.Ok bits volblocks blocks) :
    (s.wrap volblocks).Ok bits volblocks blocks := by
  unfold Scan.wrap
  split
  · rename_i hge
    refine ⟨Nat.zero_lt_of_lt h.run_lt, Nat.le_refl _, .inr rfl, .empty (Nat.le_refl _), ?_⟩
    have hbest := h.saveSeg
    rcases h.inside with hle | hrun
    · rwa [show s.pos = volblocks by omega] at hbest
    · rw [hrun, saveSeg_zero] at *
      exact h.best
  · exact h

theorem Scan.Ok.taken (h : s.Ok bits volblocks blocks) : s.taken.Ok bits volblocks blocks :=
  ⟨Nat.zero_lt_of_lt h.run_lt, Nat.zero_le _, .inr rfl, .empty (Nat.le_refl _), h.saveSeg⟩

theorem Scan.Ok.free_one (h : s.Ok bits volblocks blocks) (hpos : s.pos < volblocks)
    (hbit : bits s.pos = false) (hrun : s.run + 1 < blocks) :
    (s.free 1).Ok bits volblocks blocks := by
  refine ⟨hrun, Nat.succ_le_succ h.run_le, .inl hpos, ?_, h.best⟩
  show AllBits bits (s.pos + 1 - (s.run + 1)) (s.pos + 1) false
  rw [Nat.add_sub_add_right]
  refine h.free.append fun b hle hlt => ?_
  rwa [show b = s.pos by omega]

/-- What the scan finds is free and inside the volume. -/
theorem firstFit_spec (len : Nat) (h : s.Ok bits volblocks blocks) (hvol : 0 < volblocks) :
    match firstFit bits volblocks blocks unreadable len s with
    | .unreadable => True
    | .found seg => seg.count = blocks ∧ FreeSeg bits volblocks blocks seg
    | .missing best => FreeSeg bits volblocks blocks best := by
  induction len generalizing s with
  | zero => exact h.best
  | succ len ih =>
      have hwrap := h.wrap
      have hpos : (s.wrap volblocks).pos < volblocks := by
        unfold Scan.wrap
        split
        · exact hvol
        · omega
      unfold firstFit
      generalize s.wrap volblocks = w at hwrap hpos
      dsimp only
      by_cases hread : unreadable w.wrapped w.pos = true
      · simp only [hread, if_true]
      by_cases hbit : bits w.pos = true
      · simp only [hread, hbit, if_true]
        exact ih hwrap.taken
      have hclear : bits w.pos = false := by simpa using hbit
      by_cases hrun : w.run + 1 = blocks
      · simp only [hread, hbit, hrun, if_true]
        have hle := hwrap.run_le
        refine ⟨rfl, ?_, ?_, Nat.le_refl _⟩
        · show AllBits bits (w.pos + 1 - blocks) (w.pos + 1 - blocks + blocks) false
          rw [Nat.sub_add_cancel (by omega), ← hrun, Nat.add_sub_add_right]
          refine hwrap.free.append fun b hge hlt => ?_
          rwa [show b = w.pos by omega]
        · show w.pos + 1 - blocks + blocks ≤ volblocks
          omega
      · simp only [hread, hbit, hrun, if_false]
        have hlt := hwrap.run_lt
        exact ih (hwrap.free_one hpos hclear (by omega))

end FirstFit

/-! ## The search of one bitmap block -/

section SearchBlock

variable {bits : Nat → Bool} {volblocks blocks : Nat} {unreadable : Bool → Nat → Bool}

/-- A bit that `find_next_bit_le` or `find_next_zero_bit_le` passes over, or comes to, in a
bitmap block that begins at `mapstart`. -/
theorem findBit_page {mapstart offset size : Nat} (v : Bool) (hle : offset ≤ size) :
    let idx := if size ≤ offset then size
      else findBit (fun o => bits (mapstart + o)) v (size - offset) offset
    offset ≤ idx ∧ idx ≤ size ∧
      AllBits bits (mapstart + offset) (mapstart + idx) (!v) ∧
      (idx ≠ size → bits (mapstart + idx) = v) := by
  dsimp only
  split
  · rename_i hge
    obtain rfl := Nat.le_antisymm hle hge
    exact ⟨Nat.le_refl _, Nat.le_refl _, .empty (Nat.le_refl _), fun h => absurd rfl h⟩
  · obtain ⟨hge, hle', hall, hfound⟩ :=
      findBit_spec (fun o => bits (mapstart + o)) v (size - offset) offset
    rw [Nat.add_sub_cancel' hle] at hle' hfound
    refine ⟨hge, hle', fun b hb hlt => ?_, fun hne => hfound (Nat.lt_of_le_of_ne hle' hne)⟩
    have hbit := hall (b - mapstart) (by omega) (by omega)
    dsimp only at hbit
    rwa [Nat.add_sub_cancel' (by omega)] at hbit

/-- The search of one bitmap block is the scan of its part of the range. -/
theorem searchBlock_firstFit {mapstart maplimit : Nat} {wrapped : Bool} (fuel : Nat)
    {need mapoffset : Nat} {seg : BlockSegment} (hneed : 0 < need) (hle : need ≤ blocks)
    (hrun : blocks - need ≤ mapstart + mapoffset)
    (hoffset : mapoffset < maplimit) (hfuel : maplimit - mapoffset < fuel)
    (hvol : mapstart + maplimit ≤ volblocks)
    (hread : ∀ b, mapstart ≤ b → b < mapstart + maplimit → unreadable wrapped b = false) :
    (∃ found seg', searchBlock (fun o => bits (mapstart + o)) mapstart maplimit blocks fuel need
        mapoffset seg = .ok (.found found seg') ∧
      mapstart < found + blocks ∧ found + blocks ≤ mapstart + maplimit ∧
      ∀ len, firstFit bits volblocks blocks unreadable (maplimit - mapoffset + len)
        ⟨wrapped, mapstart + mapoffset, blocks - need, seg⟩ = .found ⟨found, blocks⟩) ∨
    ∃ need' seg', searchBlock (fun o => bits (mapstart + o)) mapstart maplimit blocks fuel need
        mapoffset seg = .ok (.leave need' seg') ∧ 0 < need' ∧ need' ≤ blocks ∧
      blocks - need' ≤ mapstart + maplimit ∧
      ∀ len, firstFit bits volblocks blocks unreadable (maplimit - mapoffset + len)
          ⟨wrapped, mapstart + mapoffset, blocks - need, seg⟩ =
        firstFit bits volblocks blocks unreadable len
          ⟨wrapped, mapstart + maplimit, blocks - need', seg'⟩ := by
  induction fuel generalizing need mapoffset seg with
  | zero => omega
  | succ fuel ih =>
      have hreads : ∀ {pos run best n}, mapstart ≤ pos → pos + n ≤ mapstart + maplimit →
          Scan.Readable unreadable ⟨wrapped, pos, run, best⟩ n :=
        fun hge hle b hb hlt => hread b (Nat.le_trans hge hb) (Nat.lt_of_lt_of_le hlt hle)
      rw [searchBlock]
      have hidx := @findBit_page bits mapstart mapoffset (min (mapoffset + need) maplimit) true
        (show mapoffset ≤ min (mapoffset + need) maplimit by omega)
      unfold findNextBitLe
      generalize (if min (mapoffset + need) maplimit ≤ mapoffset then
        min (mapoffset + need) maplimit else _) = idx at hidx ⊢
      obtain ⟨hge, hle', hclear, hset⟩ := hidx
      dsimp only
      by_cases hlast : idx = min (mapoffset + need) maplimit
      · rw [if_pos hlast]
        by_cases hmore : need - (idx - mapoffset) = 0
        · -- the run is long enough
          rw [if_neg (by omega)]
          refine .inl ⟨_, _, rfl, by omega, by omega, fun len => ?_⟩
          rw [show maplimit - mapoffset + len =
            need - 1 + 1 + (maplimit - mapoffset - need + len) by omega]
          rw [firstFit_found (need - 1) (by dsimp only; omega) (hreads (by omega) (by omega))
            (hclear.mono (Nat.le_refl _) (by dsimp only; omega)) (by dsimp only; omega)]
          dsimp only
          congr 2
          omega
        · -- the bitmap block ends with a run that is too short
          rw [if_pos hmore]
          refine .inr ⟨_, _, rfl, by omega, by omega, by omega, fun len => ?_⟩
          rw [firstFit_free (maplimit - mapoffset) (by dsimp only; omega)
            (hreads (by omega) (by omega))
            (hclear.mono (Nat.le_refl _) (by dsimp only; omega)) (by dsimp only; omega)]
          unfold Scan.free
          dsimp only
          congr 2 <;> omega
      · rw [if_neg hlast]
        have hend := @findBit_page bits mapstart (idx + 1) maplimit false
          (show idx + 1 ≤ maplimit by omega)
        unfold findNextZeroBitLe
        generalize (if maplimit ≤ idx + 1 then maplimit else _) = next at hend ⊢
        obtain ⟨hge', hle'', htaken, -⟩ := hend
        -- a run that is too short, the block that ends it, and the taken blocks after it
        have hscan : ∀ len, firstFit bits volblocks blocks unreadable
            (maplimit - mapoffset + len) ⟨wrapped, mapstart + mapoffset, blocks - need, seg⟩ =
            firstFit bits volblocks blocks unreadable (maplimit - next + len)
              ⟨wrapped, mapstart + next, 0,
                if need - (idx - mapoffset) < blocks then
                  saveSeg seg (mapstart + idx - (blocks - (need - (idx - mapoffset))))
                    (blocks - (need - (idx - mapoffset)))
                else seg⟩ := by
          intro len
          rw [show maplimit - mapoffset + len = (idx - mapoffset) +
            ((next - (idx + 1)) + (maplimit - next + len) + 1) by omega]
          rw [firstFit_free (idx - mapoffset) (by dsimp only; omega)
            (hreads (by omega) (by omega))
            (hclear.mono (Nat.le_refl _) (by dsimp only; omega)) (by dsimp only; omega)]
          have hpos : mapstart + mapoffset + (idx - mapoffset) = mapstart + idx := by omega
          have hrun' : blocks - need + (idx - mapoffset) =
            blocks - (need - (idx - mapoffset)) := by omega
          unfold Scan.free
          dsimp only
          rw [hpos, hrun', firstFit_taken (by dsimp only; omega)
            (hread _ (by dsimp only; omega) (by dsimp only; omega)) (hset (by omega))]
          unfold Scan.taken
          dsimp only
          rw [firstFit_skip (next - (idx + 1)) (by dsimp only; omega)
            (hreads (by omega) (by omega))
            (htaken.mono (by dsimp only; omega) (by dsimp only; omega)) rfl]
          dsimp only
          congr 2
          · omega
          · split
            · rfl
            · rw [show blocks - (need - (idx - mapoffset)) = 0 by omega, saveSeg_zero]
        generalize (if need - (idx - mapoffset) < blocks then _ else seg) = seg' at hscan ⊢
        by_cases hstop : next = maplimit
        · rw [if_pos hstop]
          refine .inr ⟨_, _, rfl, by omega, Nat.le_refl _, by omega, fun len => ?_⟩
          rw [hscan, hstop, Nat.sub_self, Nat.zero_add, Nat.sub_self]
        · rw [if_neg hstop]
          have hrest := @ih blocks next seg' (by omega) (Nat.le_refl _) (by omega) (by omega)
            (by omega)
          simp only [Nat.sub_self] at hrest
          simp only [hscan]
          exact hrest

end SearchBlock

/-! ## The search of the range -/

/-- The blocks of the volume whose bitmap block the search cannot read. -/
def BitmapSb.unreadable (sb : BitmapSb) (io : BitmapIo) : Bool → Nat → Bool :=
  fun wrapped b => io.searchFails wrapped (b / sb.mapsize)

/-- The search comes to what the scan finds; a run ends in the bitmap block it was found
in. -/
def RangeSearch.Fits (mapsize blocks : Nat) : RangeSearch → Fit → Prop
  | .readFailed _, fit => fit = .unreadable
  | .found block mapblock _, fit => fit = .found ⟨block, blocks⟩ ∧
      mapblock * mapsize < block + blocks ∧ block + blocks ≤ mapblock * mapsize + mapsize
  | .searched seg, fit => fit = .missing seg

theorem Scan.wrap_pos_lt {volblocks : Nat} (hvol : 0 < volblocks) (s : Scan) :
    (s.wrap volblocks).pos < volblocks := by
  unfold Scan.wrap
  split
  · exact hvol
  · omega

theorem firstFit_wrap {bits : Nat → Bool} {volblocks blocks : Nat}
    {unreadable : Bool → Nat → Bool} (hvol : 0 < volblocks) {len : Nat} (hlen : len ≠ 0)
    (s : Scan) :
    firstFit bits volblocks blocks unreadable len s =
      firstFit bits volblocks blocks unreadable len (s.wrap volblocks) := by
  obtain ⟨len, rfl⟩ := Nat.exists_eq_succ_of_ne_zero hlen
  rw [firstFit, firstFit, Scan.wrap_of_lt (Scan.wrap_pos_lt hvol s)]

/-- How far the search of a bitmap block goes. -/
theorem maplimit_spec {sb : BitmapSb} {start len maplimit : Nat} (hstart : start < sb.volblocks)
    (hlen : len ≠ 0)
    (hlimit : maplimit = if sb.volblocks < start / sb.mapsize * sb.mapsize +
        min sb.mapsize (start % sb.mapsize + len)
      then sb.volblocks % sb.mapsize else min sb.mapsize (start % sb.mapsize + len)) :
    start % sb.mapsize < maplimit ∧ maplimit ≤ sb.mapsize ∧
      maplimit - start % sb.mapsize ≤ len ∧
      start / sb.mapsize * sb.mapsize + maplimit ≤ sb.volblocks := by
  have hpos := sb.mapsize_pos
  have hdiv := Nat.div_add_mod' start sb.mapsize
  have hmod := Nat.mod_lt start hpos
  split at hlimit
  · rename_i hout
    have hrest : sb.volblocks % sb.mapsize =
        sb.volblocks - start / sb.mapsize * sb.mapsize := by
      conv_lhs =>
        rw [show sb.volblocks = sb.volblocks - start / sb.mapsize * sb.mapsize +
          start / sb.mapsize * sb.mapsize by omega, Nat.add_mul_mod_self_right]
      exact Nat.mod_eq_of_lt (by omega)
    omega
  · omega

/-- The search of a range is the scan of it, and it ends. -/
theorem searchRange_firstFit {sb : BitmapSb} {io : BitmapIo} {blocks : Nat} (fuel : Nat)
    {wrapped : Bool} {start len need : Nat} {seg : BlockSegment} (hneed : 0 < need)
    (hle : need ≤ blocks) (hrun : blocks - need ≤ start) (hlen : len < fuel)
    (hvol : 0 < sb.volblocks) (hin : start ≤ sb.volblocks ∨ need = blocks) :
    ∃ r, searchRange sb io blocks fuel wrapped start len need seg = .ok r ∧
      r.Fits sb.mapsize blocks (firstFit sb.bits sb.volblocks blocks (sb.unreadable io) len
        ⟨wrapped, start, blocks - need, seg⟩) := by
  induction fuel generalizing wrapped start len need seg with
  | zero => omega
  | succ fuel ih =>
      unfold searchRange
      by_cases hzero : len = 0
      · rw [if_pos hzero, hzero]
        exact ⟨_, rfl, rfl⟩
      rw [if_neg hzero, firstFit_wrap hvol hzero]
      -- where the search stands after it wrapped
      have hwrap : Scan.wrap sb.volblocks ⟨wrapped, start, blocks - need, seg⟩ =
          ⟨wrapped || decide (sb.volblocks ≤ start),
            if decide (sb.volblocks ≤ start) then 0 else start,
            blocks - (if decide (sb.volblocks ≤ start) then blocks else need),
            if decide (sb.volblocks ≤ start) && decide (need < blocks)
              then saveSeg seg (sb.volblocks - (blocks - need)) (blocks - need) else seg⟩ := by
        unfold Scan.wrap
        by_cases hout : sb.volblocks ≤ start
        · by_cases hpart : need < blocks
          · simp [hout, hpart]
          · simp [hout, hpart, show blocks - need = 0 by omega]
        · simp [hout]
      have hbefore : (if decide (sb.volblocks ≤ start) then 0 else start) < sb.volblocks := by
        split
        · exact hvol
        · rename_i hout
          simpa using hout
      have hkeep : let need' := if decide (sb.volblocks ≤ start) then blocks else need
          0 < need' ∧ need' ≤ blocks ∧
            blocks - need' ≤ if decide (sb.volblocks ≤ start) then 0 else start := by
        dsimp only
        split <;> omega
      rw [hwrap]
      dsimp only at hkeep ⊢
      generalize (wrapped || decide (sb.volblocks ≤ start)) = wrapped'
      generalize (if (decide (sb.volblocks ≤ start) && decide (need < blocks)) = true then _
        else seg) = seg'
      generalize (if decide (sb.volblocks ≤ start) = true then 0 else start) = start'
        at hbefore hkeep ⊢
      generalize (if decide (sb.volblocks ≤ start) = true then blocks else need) = need'
        at hkeep ⊢
      obtain ⟨hneed', hle', hrun'⟩ := hkeep
      generalize hlimit : (if sb.volblocks < start' / sb.mapsize * sb.mapsize +
        min sb.mapsize (start' % sb.mapsize + len) then _ else _) = maplimit
      obtain ⟨hlt, hmapsize, hmaplen, hend⟩ := maplimit_spec hbefore hzero hlimit.symm
      have hdiv := Nat.div_add_mod' start' sb.mapsize
      by_cases hfails : io.searchFails wrapped' (start' / sb.mapsize) = true
      · rw [if_pos hfails]
        refine ⟨_, rfl, ?_⟩
        obtain ⟨len, rfl⟩ := Nat.exists_eq_succ_of_ne_zero hzero
        show firstFit _ _ _ _ _ _ = .unreadable
        rw [firstFit, Scan.wrap_of_lt hbefore]
        exact if_pos hfails
      rw [if_neg hfails]
      have hread : ∀ b, start' / sb.mapsize * sb.mapsize ≤ b →
          b < start' / sb.mapsize * sb.mapsize + maplimit →
          sb.unreadable io wrapped' b = false := by
        intro b hge hb
        have hblock : b / sb.mapsize = start' / sb.mapsize := by
          rw [show b = start' / sb.mapsize * sb.mapsize +
            (b - start' / sb.mapsize * sb.mapsize) by omega]
          exact mul_add_div_of_lt (by omega)
        unfold BitmapSb.unreadable
        rw [hblock]
        simpa using hfails
      have hblock := @searchBlock_firstFit sb.bits sb.volblocks blocks (sb.unreadable io)
        (start' / sb.mapsize * sb.mapsize) maplimit wrapped'
        (maplimit - start' % sb.mapsize + 1) need' (start' % sb.mapsize) seg' hneed' hle'
        (by omega) hlt (Nat.lt_succ_self _) hend hread
      rw [hdiv] at hblock
      have hsplit : len = maplimit - start' % sb.mapsize +
        (len - (maplimit - start' % sb.mapsize)) := by omega
      rcases hblock with ⟨found, seg'', hsearch, hge, hfound, hscan⟩ |
        ⟨need'', seg'', hsearch, hpos, hle'', hrun'', hscan⟩
      · refine ⟨.found found (start' / sb.mapsize) seg'', ?_, ?_, by omega, by omega⟩
        · unfold BitmapSb.bufdata
          rw [hsearch]
          rfl
        · rw [hsplit, hscan]
      · have hnext : start' / sb.mapsize * sb.mapsize + maplimit =
            start' + (maplimit - start' % sb.mapsize) := by omega
        rw [hnext] at hscan
        rw [hsplit, hscan, ← hsplit]
        obtain ⟨r, hr, hfits⟩ := @ih wrapped' (start' + (maplimit - start' % sb.mapsize))
          (len - (maplimit - start' % sb.mapsize)) need'' seg'' hpos hle'' (by omega)
          (by omega) (.inl (by omega))
        refine ⟨r, ?_, hfits⟩
        unfold BitmapSb.bufdata
        rw [hsearch]
        exact hr

end Tux3
