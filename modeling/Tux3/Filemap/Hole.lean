/-
  Filemap/Hole.lean --- the holes of a truncate over the map of a file.

  A read maps its range with the btree and lays the dirty holes over the segments.  The overlay is
  right where the first segment behind the start of the holes is itself a hole, or has the last
  place of `seg[]`; elsewhere the hole that is added covers too much.
-/
import Tux3.Filemap.SegRange

set_option autoImplicit false

namespace Tux3

open Outcome (bind_of_ok bind_eq_ok)

/-! ## The code -/

/-- `MAX_BLOCKS`. -/
def maxBlocks : Nat := 2 ^ 48

/-- `struct hole_extent`. -/
structure HoleExtent where
  start : Nat
  count : Nat
  deriving DecidableEq, Repr

/-- `tux3_is_hole`. -/
def tux3IsHole (start : Nat) : List HoleExtent → Except TuxError Bool
  | [] => return false
  | hole :: holes => do
      tuxAssert (hole.start + hole.count = maxBlocks)
      if hole.start ≤ start then return true else tux3IsHole start holes

/-- The search of `tux3_map_hole` for the start of the holes. -/
def searchHoleStart (holeStart : Nat) : List HoleExtent → Except TuxError Nat
  | [] => return holeStart
  | hole :: holes => do
      tuxAssert (hole.start + hole.count = maxBlocks)
      searchHoleStart (min holeStart hole.start) holes

/-- The loop of `tux3_map_hole`; counts are unsigned. -/
def mapHoleLoop (holeStart segs maxSegs : Nat) :
    Nat → Nat → Nat → Nat → List StateSegment → Except TuxError (Nat × List StateSegment)
  | 0, _, _, _, _ => .error .fuel
  | fuel + 1, i, start, count, seg =>
      if i < segs then do
        let s ← readSeg seg i
        if holeStart < start + s.count then
          if s.state = blockSegHole then
            let seg ← writeSeg seg i { s with count := count }
            return (i + 1, seg)
          else
            let seg ← writeSeg seg i { s with count := (holeStart - start) % 2 ^ 32 }
            if i + 1 < maxSegs then
              let seg ← writeSeg seg (i + 1) ⟨0, count, blockSegHole⟩
              return (i + 2, seg)
            else return (i + 1, seg)
        else
          mapHoleLoop holeStart segs maxSegs fuel (i + 1) (start + s.count)
            ((count + 2 ^ 32 - s.count) % 2 ^ 32) seg
      else return (i, seg)

/-- `tux3_map_hole`; the number of segments is passed as an unsigned one. -/
def tux3MapHole (holes : List HoleExtent) (start count : Nat) (seg : List StateSegment)
    (segs : Int) (maxSegs : Nat) : Except TuxError (Int × List StateSegment) := do
  let holeStart ← searchHoleStart maxBlocks holes
  if start + count ≤ holeStart then return (segs, seg)
  else
    let (i, seg) ← mapHoleLoop holeStart (segs % 2 ^ 32).toNat maxSegs (seg.length + 1) 0 start
      count seg
    return (i, seg)

/-- `map_region`, in `MAP_READ` mode.  `mapped` is the result of `map_region2`, with what it leaves
in `seg[]`. -/
def mapRegionRead (holes : List HoleExtent) (start count : Nat) (seg : List StateSegment)
    (segMax : Nat) (mapped : Int × List StateSegment) :
    Except TuxError (Int × List StateSegment) := do
  if ← tux3IsHole start holes then
    tuxAssert (1 ≤ segMax)
    let seg ← writeSeg seg 0 ⟨0, count, blockSegHole⟩
    return (1, seg)
  else tux3MapHole holes start count mapped.2 mapped.1 segMax

/-! ## What a read is to return -/

/-- The lowest start of a hole. -/
def lowestHole (holes : List HoleExtent) : Nat :=
  holes.foldl (fun start hole => min start hole.start) maxBlocks

/-- The blocks of some segments. -/
def totalCount (segs : List StateSegment) : Nat := (segs.map StateSegment.count).sum

/-- The request of a read. -/
structure ReadRequest (holes : List HoleExtent) (start count : Nat) (seg : List StateSegment)
    (segMax : Nat) : Prop where
  holes : ∀ hole ∈ holes, hole.start + hole.count = maxBlocks
  inside : start + count ≤ maxBlocks
  count_pos : 0 < count
  count_lt : count < 2 ^ 32
  segMax_pos : 0 < segMax
  segMax_lt : segMax < 2 ^ 31
  memory : seg.length = segMax

/-- The result of `map_region2`: an error, or segments of a prefix of the range. -/
structure MapResultOk (count segMax : Nat) (mapped : Int × List StateSegment) : Prop where
  memory : mapped.2.length = segMax
  ge : -2 ^ 31 ≤ mapped.1
  le : mapped.1 ≤ segMax
  nonempty : ∀ s ∈ mapped.2.take mapped.1.toNat, 0 < s.count
  total : totalCount (mapped.2.take mapped.1.toNat) ≤ count

/-- The segments of a result are those of the btree up to the holes, and holes from there on. -/
structure HoleMapped (mapping : List (Option Nat)) (holeStart start count segMax : Nat)
    (out : Int × List StateSegment) : Prop where
  nonneg : 0 ≤ out.1
  le : out.1 ≤ segMax
  nonempty : ∀ s ∈ out.2.take out.1.toNat, 0 < s.count
  total : totalCount (out.2.take out.1.toNat) ≤ count
  blocks : ∀ i, i < totalCount (out.2.take out.1.toNat) →
    (rangeBlocks (out.2.take out.1.toNat))[i]? =
      if start + i < holeStart then mapping[i]? else some none

/-- What a read is to return. -/
def ReadsRight (holes : List HoleExtent) (start count : Nat) (seg : List StateSegment)
    (segMax : Nat) (mapped : Int × List StateSegment) : Prop :=
  ∃ out, mapRegionRead holes start count seg segMax mapped = .ok out ∧
    if lowestHole holes ≤ start ∨ 0 ≤ mapped.1 then
      HoleMapped (rangeBlocks (mapped.2.take mapped.1.toNat)) (lowestHole holes) start count
        segMax out
    else out.1 = mapped.1

/-- The segment that goes beyond the start of the holes is a hole, or it begins before them and has
the last place of `seg[]`. -/
def OverlayOk (holeStart start segMax : Nat) (segs : List StateSegment) : Prop :=
  ∀ front s rest, segs = front ++ s :: rest → start + totalCount front ≤ holeStart →
    holeStart < start + totalCount front + s.count →
    s.state = blockSegHole ∨
      front.length + 1 = segMax ∧ start + totalCount front < holeStart

section

variable {holes : List HoleExtent} {start count segMax holeStart : Nat}
  {seg segs front rest : List StateSegment} {s : StateSegment}

/-! ## The holes -/

theorem foldl_min_le (start x : Nat) (holes : List HoleExtent) :
    holes.foldl (fun start hole => min start hole.start) start ≤ x ↔
      start ≤ x ∨ ∃ hole ∈ holes, hole.start ≤ x := by
  induction holes generalizing start with
  | nil => simp
  | cons hole holes ih =>
      rw [List.foldl_cons, ih, min_le_iff, or_assoc]
      simp

theorem searchHoleStart_eq (hholes : ∀ hole ∈ holes, hole.start + hole.count = maxBlocks)
    (holeStart : Nat) : searchHoleStart holeStart holes =
      .ok (holes.foldl (fun start hole => min start hole.start) holeStart) := by
  induction holes generalizing holeStart with
  | nil => rfl
  | cons hole holes ih =>
      rw [searchHoleStart, bind_of_ok (tuxAssert_of (hholes hole List.mem_cons_self))]
      exact ih (fun h hh => hholes h (List.mem_cons_of_mem _ hh)) _

theorem tux3IsHole_any (hholes : ∀ hole ∈ holes, hole.start + hole.count = maxBlocks) :
    tux3IsHole start holes = .ok (holes.any fun hole => hole.start ≤ start) := by
  induction holes with
  | nil => rfl
  | cons hole holes ih =>
      rw [tux3IsHole, bind_of_ok (tuxAssert_of (hholes hole List.mem_cons_self)), List.any_cons]
      by_cases hle : hole.start ≤ start
      · rw [if_pos hle, decide_eq_true hle]
        rfl
      · rw [if_neg hle, decide_eq_false hle, ih fun h hh => hholes h (List.mem_cons_of_mem _ hh)]
        rfl

/-- The range begins in a hole if and only if it is behind the lowest start of one. -/
theorem tux3IsHole_eq (hholes : ∀ hole ∈ holes, hole.start + hole.count = maxBlocks)
    (hstart : start < maxBlocks) :
    tux3IsHole start holes = .ok (decide (lowestHole holes ≤ start)) := by
  have hiff : lowestHole holes ≤ start ↔ ∃ hole ∈ holes, hole.start ≤ start := by
    unfold lowestHole
    rw [foldl_min_le, or_iff_right (Nat.not_le_of_lt hstart)]
  rw [tux3IsHole_any hholes]
  refine congrArg _ (Bool.eq_iff_iff.mpr ?_)
  rw [List.any_eq_true, decide_eq_true_eq, hiff]
  simp

/-! ## The loop -/

@[simp] theorem totalCount_nil : totalCount [] = 0 := rfl

@[simp] theorem totalCount_cons (s : StateSegment) (segs : List StateSegment) :
    totalCount (s :: segs) = s.count + totalCount segs := by
  unfold totalCount
  rw [List.map_cons, List.sum_cons]

@[simp] theorem totalCount_append (segs segs' : List StateSegment) :
    totalCount (segs ++ segs') = totalCount segs + totalCount segs' := by
  unfold totalCount
  rw [List.map_append, List.sum_append]

/-- The segments end before the holes, or there is one that goes beyond their start. -/
theorem exists_behind (hstart : start ≤ holeStart) (segs : List StateSegment) :
    start + totalCount segs ≤ holeStart ∨ ∃ front s rest, segs = front ++ s :: rest ∧
      start + totalCount front ≤ holeStart ∧ holeStart < start + totalCount front + s.count := by
  induction segs generalizing start with
  | nil => exact .inl hstart
  | cons s segs ih =>
      by_cases hs : start + s.count ≤ holeStart
      · rcases ih hs with hall | ⟨front, s', rest, rfl, hfront, hbehind⟩
        · left
          rw [totalCount_cons]
          omega
        · refine .inr ⟨s :: front, s', rest, rfl, ?_, ?_⟩ <;> rw [totalCount_cons] <;> omega
      · exact .inr ⟨[], s, segs, rfl, hstart, Nat.lt_of_not_le hs⟩

/-- The segments that end before the holes are kept. -/
theorem mapHoleLoop_skip (fuel i n : Nat) (hi : i = front.length)
    (hn : i + segs.length ≤ n) (hskip : start + totalCount segs ≤ holeStart)
    (hcount : totalCount segs ≤ count) (hlt : count < 2 ^ 32) :
    mapHoleLoop holeStart n segMax (fuel + segs.length) i start count (front ++ (segs ++ rest)) =
      mapHoleLoop holeStart n segMax fuel (i + segs.length) (start + totalCount segs)
        (count - totalCount segs) (front ++ (segs ++ rest)) := by
  induction segs generalizing front i start count with
  | nil => rfl
  | cons s segs ih =>
      rw [totalCount_cons] at hskip hcount
      rw [List.length_cons] at hn
      have hread : readSeg (front ++ (s :: segs ++ rest)) i = .ok s := readSeg_append hi
      have hbefore : ¬holeStart < start + s.count := by omega
      have hwrap : (count + 2 ^ 32 - s.count) % 2 ^ 32 = count - s.count := by omega
      have hturn : mapHoleLoop holeStart n segMax (fuel + segs.length + 1) i start count
          (front ++ (s :: segs ++ rest)) = mapHoleLoop holeStart n segMax (fuel + segs.length)
            (i + 1) (start + s.count) (count - s.count) (front ++ (s :: segs ++ rest)) := by
        rw [mapHoleLoop, if_pos (by omega), bind_of_ok hread, if_neg hbefore, hwrap]
      have hmove : front ++ (s :: segs ++ rest) = (front ++ [s]) ++ (segs ++ rest) := by simp
      rw [List.length_cons, ← Nat.add_assoc, hturn, hmove, ih (i + 1) (by simp [hi]) (by omega)
        (by omega) (by omega) (by omega), totalCount_cons]
      congr 1 <;> omega

/-- The segment that goes beyond the start of the holes is a hole, which is made longer. -/
theorem mapHoleLoop_hole (fuel i n : Nat) (hi : i = front.length) (hn : i < n)
    (hbehind : holeStart < start + s.count) (hhole : s.state = blockSegHole) :
    mapHoleLoop holeStart n segMax (fuel + 1) i start count (front ++ s :: rest) =
      .ok (i + 1, front ++ { s with count := count } :: rest) := by
  rw [mapHoleLoop, if_pos hn, bind_of_ok (readSeg_append hi), if_pos hbehind, if_pos hhole,
    bind_of_ok (writeSeg_append hi)]
  rfl

/-- The segment that goes beyond the start of the holes is cut, and a hole is added where there is
a place for it. -/
theorem mapHoleLoop_cut (fuel i n : Nat) (hi : i = front.length) (hn : i < n)
    (hbehind : holeStart < start + s.count) (hhole : s.state ≠ blockSegHole)
    (hcut : holeStart - start < 2 ^ 32) :
    mapHoleLoop holeStart n segMax (fuel + 1) i start count (front ++ s :: rest) =
      if i + 1 < segMax then do
        let seg ← writeSeg (front ++ { s with count := holeStart - start } :: rest) (i + 1)
          ⟨0, count, blockSegHole⟩
        return (i + 2, seg)
      else .ok (i + 1, front ++ { s with count := holeStart - start } :: rest) := by
  rw [mapHoleLoop, if_pos hn, bind_of_ok (readSeg_append hi), if_pos hbehind, if_neg hhole,
    Nat.mod_eq_of_lt hcut, bind_of_ok (writeSeg_append hi)]
  rfl

/-! ## Blocks -/

theorem rangeBlocks_append (segs segs' : List StateSegment) :
    rangeBlocks (segs ++ segs') = rangeBlocks segs ++ rangeBlocks segs' := List.flatMap_append

theorem totalCount_eq (segs : List StateSegment) : (rangeBlocks segs).length = totalCount segs :=
  rangeBlocks_length segs

/-- The first blocks of a range that begins with a segment. -/
theorem StateSegment.getElem?_blocks (s : StateSegment) {j : Nat} (hj : j < s.count)
    (more : List (Option Nat)) : (s.blocks ++ more)[j]? =
      some (if s.state = blockSegHole then none else some (s.block + j)) := by
  rw [List.getElem?_append_left (by rw [s.blocks_length]; exact hj)]
  unfold StateSegment.blocks
  rw [List.getElem?_map, List.getElem?_range hj]
  rfl

/-- The blocks of a range up to a segment, and those of the segment. -/
theorem getElem?_rangeBlocks (i : Nat) :
    (rangeBlocks (front ++ s :: rest))[i]? =
      if i < totalCount front then (rangeBlocks front)[i]?
      else (s.blocks ++ rangeBlocks rest)[i - totalCount front]? := by
  rw [rangeBlocks_append, rangeBlocks_cons]
  by_cases hi : i < totalCount front
  · rw [if_pos hi, List.getElem?_append_left (by rw [totalCount_eq]; exact hi)]
  · rw [if_neg hi, List.getElem?_append_right (by rw [totalCount_eq]; omega), totalCount_eq]

/-- Only one segment goes beyond the start of the holes. -/
theorem overlayOk_iff (hsegs : segs = front ++ s :: rest)
    (hfront : start + totalCount front ≤ holeStart)
    (hbehind : holeStart < start + totalCount front + s.count) :
    OverlayOk holeStart start segMax segs ↔ s.state = blockSegHole ∨
      front.length + 1 = segMax ∧ start + totalCount front < holeStart := by
  refine ⟨fun h => h front s rest hsegs hfront hbehind, fun h front' s' rest' hsegs' hfront' hbehind' => ?_⟩
  have hlonger : ∀ {f f' : List StateSegment} {t t' : StateSegment} {r r' : List StateSegment},
      f ++ t :: r = f' ++ t' :: r' → start + totalCount f' ≤ holeStart →
      holeStart < start + totalCount f + t.count → ¬f.length < f'.length := by
    intro f f' t t' r r' heq hle hlt hlen
    have hstart : f ++ [t] <+: f' := by
      refine @List.prefix_of_prefix_length_le _ _ _ (f ++ t :: r) ?_ ?_ ?_
      · exact ⟨r, by simp⟩
      · rw [heq]
        exact List.prefix_append _ _
      · rw [List.length_append, List.length_singleton]
        exact hlen
    obtain ⟨more, rfl⟩ := hstart
    rw [totalCount_append, totalCount_append, totalCount_cons, totalCount_nil] at hle
    omega
  rw [hsegs] at hsegs'
  have hlength : front.length = front'.length := by
    have hle := hlonger hsegs' hfront' hbehind
    have hge := hlonger hsegs'.symm hfront hbehind'
    omega
  obtain ⟨rfl, htail⟩ := List.append_inj hsegs' hlength
  obtain ⟨rfl, rfl⟩ := List.cons.inj htail
  exact h

/-! ## Results -/

/-- Segments that end before the holes are returned as they are. -/
theorem HoleMapped.same {mapped : Int × List StateSegment} (h : MapResultOk count segMax mapped)
    (hnonneg : 0 ≤ mapped.1)
    (hbefore : start + totalCount (mapped.2.take mapped.1.toNat) ≤ holeStart) :
    HoleMapped (rangeBlocks (mapped.2.take mapped.1.toNat)) holeStart start count segMax mapped := by
  refine ⟨hnonneg, h.le, h.nonempty, h.total, fun i hi => ?_⟩
  rw [if_pos (by omega)]

/-- The hole that goes beyond the start of the holes is made longer up to the end of the range. -/
theorem HoleMapped.longer {junk : List StateSegment}
    (hfront : start + totalCount front ≤ holeStart) (htotal : totalCount front < count)
    (hbehind : holeStart < start + totalCount front + s.count) (hhole : s.state = blockSegHole)
    (hnonempty : ∀ t ∈ front, 0 < t.count) (hlen : front.length < segMax) :
    HoleMapped (rangeBlocks (front ++ s :: rest)) holeStart start count segMax
      ((front.length + 1 : Nat),
        front ++ { s with count := count - totalCount front } :: junk) := by
  have htake : (front ++ { s with count := count - totalCount front } :: junk).take
      ((front.length + 1 : Nat) : Int).toNat =
        front ++ [{ s with count := count - totalCount front }] := by
    rw [Int.toNat_natCast, List.take_append, List.take_of_length_le (Nat.le_succ _),
      Nat.add_sub_cancel_left]
    rfl
  have hsum : totalCount (front ++ [{ s with count := count - totalCount front }]) = count := by
    rw [totalCount_append, totalCount_cons, totalCount_nil]
    dsimp only
    omega
  refine ⟨Int.natCast_nonneg _, by dsimp only; omega, ?_, ?_, ?_⟩
  · rw [htake]
    intro t ht
    rcases List.mem_append.mp ht with ht | ht
    · exact hnonempty t ht
    · rw [List.mem_singleton.mp ht]
      exact Nat.sub_pos_of_lt htotal
  · rw [htake, hsum]
  · rw [htake, hsum]
    intro i hi
    rw [getElem?_rangeBlocks, getElem?_rangeBlocks]
    by_cases hin : i < totalCount front
    · rw [if_pos hin, if_pos (by omega), if_pos hin]
    · rw [if_neg hin, if_neg hin]
      have hold : start + i < holeStart → (s.blocks ++ rangeBlocks rest)[i - totalCount front]? =
          some none := by
        intro hlt
        rw [s.getElem?_blocks (by omega), if_pos hhole]
      rw [StateSegment.getElem?_blocks _ (by dsimp only; omega)]
      dsimp only
      rw [if_pos hhole]
      split
      · next hlt => rw [hold hlt]
      · rfl

/-- The segment in the last place is cut at the start of the holes. -/
theorem HoleMapped.cut {junk : List StateSegment} (hfront : start + totalCount front < holeStart)
    (hbehind : holeStart < start + totalCount front + s.count)
    (htotal : holeStart ≤ start + count) (hnonempty : ∀ t ∈ front, 0 < t.count)
    (hlen : front.length < segMax) :
    HoleMapped (rangeBlocks (front ++ s :: rest)) holeStart start count segMax
      ((front.length + 1 : Nat),
        front ++ { s with count := holeStart - (start + totalCount front) } :: junk) := by
  have htake : (front ++ { s with count := holeStart - (start + totalCount front) } :: junk).take
      ((front.length + 1 : Nat) : Int).toNat =
        front ++ [{ s with count := holeStart - (start + totalCount front) }] := by
    rw [Int.toNat_natCast, List.take_append, List.take_of_length_le (Nat.le_succ _),
      Nat.add_sub_cancel_left]
    rfl
  have hsum : totalCount (front ++ [{ s with count := holeStart - (start + totalCount front) }]) =
      holeStart - start := by
    rw [totalCount_append, totalCount_cons, totalCount_nil]
    dsimp only
    omega
  refine ⟨Int.natCast_nonneg _, by dsimp only; omega, ?_, ?_, ?_⟩
  · rw [htake]
    intro t ht
    rcases List.mem_append.mp ht with ht | ht
    · exact hnonempty t ht
    · rw [List.mem_singleton.mp ht]
      exact Nat.sub_pos_of_lt hfront
  · rw [htake, hsum]
    omega
  · rw [htake, hsum]
    intro i hi
    rw [if_pos (by omega), getElem?_rangeBlocks, getElem?_rangeBlocks]
    by_cases hin : i < totalCount front
    · rw [if_pos hin, if_pos hin]
    · have hlt : i - totalCount front < holeStart - (start + totalCount front) := by omega
      rw [if_neg hin, if_neg hin, s.getElem?_blocks (by omega),
        StateSegment.getElem?_blocks _ hlt]

/-! ## Reads -/

theorem tux3MapHole_eq (hreq : ReadRequest holes start count seg segMax)
    {mapped : Int × List StateSegment} (hbehind : lowestHole holes < start + count) :
    tux3MapHole holes start count mapped.2 mapped.1 segMax = (do
      let (i, seg) ← mapHoleLoop (lowestHole holes) (mapped.1 % 2 ^ 32).toNat segMax
        (mapped.2.length + 1) 0 start count mapped.2
      return ((i : Int), seg)) := by
  unfold tux3MapHole
  rw [bind_of_ok (searchHoleStart_eq hreq.holes maxBlocks)]
  exact if_neg (Nat.not_le_of_lt hbehind)

theorem mapRegionRead_eq (hreq : ReadRequest holes start count seg segMax)
    {mapped : Int × List StateSegment} (hbefore : start < lowestHole holes) :
    mapRegionRead holes start count seg segMax mapped =
      tux3MapHole holes start count mapped.2 mapped.1 segMax := by
  have hstart : start < maxBlocks := by
    have hinside := hreq.inside
    have hpos := hreq.count_pos
    omega
  unfold mapRegionRead
  rw [bind_of_ok (tux3IsHole_eq hreq.holes hstart), decide_eq_false (Nat.not_le_of_lt hbefore)]
  rfl

/-- A range that begins in a hole is one. -/
theorem readsRight_whole (hreq : ReadRequest holes start count seg segMax)
    (mapped : Int × List StateSegment) (hwhole : lowestHole holes ≤ start) :
    ReadsRight holes start count seg segMax mapped := by
  have hinside := hreq.inside
  have hpos := hreq.count_pos
  have hmax : 1 ≤ segMax := hreq.segMax_pos
  have hmemory := hreq.memory
  cases seg with
  | nil =>
      rw [List.length_nil] at hmemory
      omega
  | cons s rest =>
      refine ⟨(1, ⟨0, count, blockSegHole⟩ :: rest), ?_, ?_⟩
      · unfold mapRegionRead
        rw [bind_of_ok (tux3IsHole_eq hreq.holes (by omega)), decide_eq_true hwhole, if_pos rfl,
          bind_of_ok (tuxAssert_of hmax)]
        rfl
      · rw [if_pos (.inl hwhole)]
        have htake : (((1 : Int), (⟨0, count, blockSegHole⟩ : StateSegment) :: rest).2.take
            ((1 : Int), (⟨0, count, blockSegHole⟩ : StateSegment) :: rest).1.toNat) =
              [⟨0, count, blockSegHole⟩] := rfl
        refine ⟨by dsimp only; omega, by dsimp only; omega, ?_, ?_, ?_⟩
        · rw [htake]
          intro t ht
          rw [List.mem_singleton.mp ht]
          exact hpos
        · rw [htake]
          exact Nat.le_refl _
        · rw [htake]
          intro i hi
          rw [if_neg (by omega), rangeBlocks_cons, StateSegment.getElem?_blocks _ (by exact hi)]
          rfl

/-- The loop over segments that end before the holes. -/
theorem mapHoleLoop_all {junk : List StateSegment} (hall : start + totalCount segs ≤ holeStart)
    (hcount : totalCount segs ≤ count) (hlt : count < 2 ^ 32) :
    mapHoleLoop holeStart segs.length segMax ((segs ++ junk).length + 1) 0 start count
      (segs ++ junk) = .ok (segs.length, segs ++ junk) := by
  have hfuel : (segs ++ junk).length + 1 = junk.length + 1 + segs.length := by
    rw [List.length_append]
    omega
  have hskip := @mapHoleLoop_skip start count segMax holeStart segs [] junk (junk.length + 1) 0
    segs.length rfl (by omega) hall hcount hlt
  rw [List.nil_append] at hskip
  rw [hfuel, hskip, Nat.zero_add, mapHoleLoop, if_neg (Nat.lt_irrefl _)]
  rfl

/-- The loop comes to the segment that goes beyond the start of the holes. -/
theorem mapHoleLoop_behind {junk : List StateSegment}
    (hfront : start + totalCount front ≤ holeStart) (hcount : totalCount front ≤ count)
    (hlt : count < 2 ^ 32) :
    ∃ fuel, mapHoleLoop holeStart (front ++ s :: rest).length segMax
      ((front ++ s :: rest ++ junk).length + 1) 0 start count (front ++ s :: rest ++ junk) =
        mapHoleLoop holeStart (front ++ s :: rest).length segMax (fuel + 1) front.length
          (start + totalCount front) (count - totalCount front) (front ++ s :: (rest ++ junk)) := by
  refine ⟨(s :: (rest ++ junk)).length, ?_⟩
  have hfuel : (front ++ s :: (rest ++ junk)).length + 1 =
      (s :: (rest ++ junk)).length + 1 + front.length := by
    rw [List.length_append]
    omega
  have hskip := @mapHoleLoop_skip start count segMax holeStart front [] (s :: (rest ++ junk))
    ((s :: (rest ++ junk)).length + 1) 0 (front ++ s :: rest).length rfl
    (by rw [List.length_append]; omega) hfront hcount hlt
  rw [List.nil_append] at hskip
  rw [List.append_assoc, List.cons_append, hfuel, hskip, Nat.zero_add]

/-- A cut with a hole behind it covers too much, or what is left of the segment is empty. -/
theorem not_holeMapped_cut {mapping : List (Option Nat)} {t : StateSegment}
    {junk : List StateSegment} (htotal : totalCount front ≤ count)
    (hcut : t.count = holeStart - (start + totalCount front)) :
    ¬HoleMapped mapping holeStart start count segMax
      ((front.length + 2 : Nat), front ++ t :: ⟨0, count - totalCount front, blockSegHole⟩ :: junk) := by
  intro h
  have htake : (front ++ t :: ⟨0, count - totalCount front, blockSegHole⟩ :: junk).take
      ((front.length + 2 : Nat) : Int).toNat =
        front ++ [t, ⟨0, count - totalCount front, blockSegHole⟩] := by
    rw [Int.toNat_natCast, List.take_append, List.take_of_length_le (by omega),
      Nat.add_sub_cancel_left]
    rfl
  have hnonempty := h.nonempty
  have hle := h.total
  rw [htake] at hnonempty hle
  have hpos := hnonempty t (List.mem_append_right _ List.mem_cons_self)
  rw [totalCount_append, totalCount_cons, totalCount_cons, totalCount_nil] at hle
  dsimp only at hle
  omega

/-- What the overlay makes of segments that go beyond the start of the holes. -/
theorem readsRight_behind (hreq : ReadRequest holes start count seg segMax)
    {mapped : Int × List StateSegment} (hmapped : MapResultOk count segMax mapped)
    (hbefore : start < lowestHole holes) (hend : lowestHole holes < start + count)
    (hnonneg : 0 ≤ mapped.1) :
    ReadsRight holes start count seg segMax mapped ↔
      OverlayOk (lowestHole holes) start segMax (mapped.2.take mapped.1.toNat) := by
  obtain ⟨ret, mem⟩ := mapped
  obtain ⟨n, rfl⟩ := Int.eq_ofNat_of_zero_le hnonneg
  have hmemory : mem.length = segMax := hmapped.memory
  have hn : n ≤ segMax := Int.ofNat_le.mp hmapped.le
  have hlt := hreq.segMax_lt
  have hcountLt := hreq.count_lt
  have hsegs : ((n : Int) % 2 ^ 32).toNat = n := by omega
  unfold ReadsRight
  have hcond : lowestHole holes ≤ start ∨ 0 ≤ ((n : Int), mem).1 := .inr hnonneg
  simp only [if_pos hcond]
  rw [mapRegionRead_eq hreq hbefore, tux3MapHole_eq hreq hend]
  dsimp only
  rw [hsegs, Int.toNat_natCast]
  have hsplit := List.take_append_drop n mem
  have hlength : (mem.take n).length = n := List.length_take_of_le (by omega)
  have hnonempty : ∀ t ∈ mem.take n, 0 < t.count := hmapped.nonempty
  have htotal : totalCount (mem.take n) ≤ count := hmapped.total
  have hjunk : (mem.drop n).length = segMax - n := by rw [List.length_drop, hmemory]
  have hsame := @HoleMapped.same start count segMax (lowestHole holes) (n, mem) hmapped hnonneg
  dsimp only at hsame
  rw [Int.toNat_natCast] at hsame
  generalize mem.take n = segs at *
  generalize mem.drop n = junk at *
  subst hsplit hlength
  rcases exists_behind (Nat.le_of_lt hbefore) segs with hall | ⟨front, s, rest, rfl, hfront, hbehind⟩
  · constructor
    · intro _ front s rest hsegs' _ hbehind
      rw [hsegs', totalCount_append, totalCount_cons] at hall
      omega
    · intro _
      rw [mapHoleLoop_all hall htotal hcountLt]
      exact ⟨_, rfl, hsame hall⟩
  · rw [totalCount_append, totalCount_cons] at htotal
    rw [List.length_append, List.length_cons] at hn hjunk
    obtain ⟨fuel, hloop⟩ := @mapHoleLoop_behind start count segMax _ front rest s junk hfront
      (by omega) hcountLt
    have hfront' : ∀ t ∈ front, 0 < t.count :=
      fun t ht => hnonempty t (List.mem_append_left _ ht)
    have hi : front.length < (front ++ s :: rest).length := by
      rw [List.length_append, List.length_cons]
      omega
    rw [overlayOk_iff rfl hfront hbehind, hloop]
    by_cases hhole : s.state = blockSegHole
    · rw [mapHoleLoop_hole fuel front.length _ rfl hi hbehind hhole]
      refine ⟨fun _ => .inl hhole, fun _ => ⟨_, rfl, ?_⟩⟩
      exact .longer hfront (by omega) hbehind hhole hfront' (by omega)
    · have hcut : lowestHole holes - (start + totalCount front) < 2 ^ 32 := by omega
      rw [mapHoleLoop_cut fuel front.length _ rfl hi hbehind hhole hcut]
      by_cases hroom : front.length + 1 < segMax
      · -- there is a place for a hole, which covers too much
        rw [if_pos hroom]
        obtain ⟨next, junk', hnext⟩ : ∃ next junk', rest ++ junk = next :: junk' := by
          refine List.exists_cons_of_ne_nil fun hnil => ?_
          have hzero := congrArg List.length hnil
          rw [List.length_append, List.length_nil] at hzero
          omega
        rw [hnext]
        have hmove : ∀ t : StateSegment, front ++ t :: next :: junk' =
            (front ++ [t]) ++ next :: junk' := fun t => by simp
        rw [hmove, bind_of_ok (writeSeg_append (by simp))]
        constructor
        · rintro ⟨out, hout, hright⟩
          obtain rfl := Except.ok.inj hout
          rw [List.append_assoc] at hright
          exact absurd hright (not_holeMapped_cut (by omega) rfl)
        · rintro (h | ⟨h, _⟩)
          · exact absurd h hhole
          · omega
      · rw [if_neg hroom]
        constructor
        · rintro ⟨out, hout, hright⟩
          obtain rfl := Except.ok.inj hout
          have hmem : ({ s with count := lowestHole holes - (start + totalCount front) } :
              StateSegment) ∈ (front ++ { s with
                count := lowestHole holes - (start + totalCount front) } :: (rest ++ junk)).take
                  (front.length + 1) := by
            rw [List.take_append, List.take_of_length_le (Nat.le_succ _), Nat.add_sub_cancel_left]
            exact List.mem_append_right _ List.mem_cons_self
          have hpos : 0 < lowestHole holes - (start + totalCount front) :=
            hright.nonempty _ hmem
          exact .inr ⟨by omega, by omega⟩
        · rintro (h | ⟨_, hlt⟩)
          · exact absurd h hhole
          · exact ⟨_, rfl, .cut hlt hbehind (by omega) hfront' (by omega)⟩

/-- An error of `map_region2` is not passed through where the range goes beyond the start of the
holes. -/
theorem not_readsRight_err (hreq : ReadRequest holes start count seg segMax)
    {mapped : Int × List StateSegment} (hbefore : start < lowestHole holes)
    (hend : lowestHole holes < start + count) (hneg : mapped.1 < 0) :
    ¬ReadsRight holes start count seg segMax mapped := by
  rintro ⟨out, hout, hright⟩
  rw [mapRegionRead_eq hreq hbefore, tux3MapHole_eq hreq hend] at hout
  obtain ⟨⟨i, seg'⟩, _, hout⟩ := bind_eq_ok.mp hout
  obtain rfl := Except.ok.inj hout
  rw [if_neg (by omega)] at hright
  have hi : (i : Int) = mapped.1 := hright
  omega

/-- A read of `map_region` is right if and only if its range is a hole or before all holes, or
`map_region2` did not fail and the first of its segments that goes beyond the start of the holes
is a hole or is cut in the last place of `seg[]`. -/
theorem mapRegionRead_iff (hreq : ReadRequest holes start count seg segMax)
    {mapped : Int × List StateSegment} (hmapped : MapResultOk count segMax mapped) :
    ReadsRight holes start count seg segMax mapped ↔
      lowestHole holes ≤ start ∨ start + count ≤ lowestHole holes ∨
        0 ≤ mapped.1 ∧
          OverlayOk (lowestHole holes) start segMax (mapped.2.take mapped.1.toNat) := by
  by_cases hwhole : lowestHole holes ≤ start
  · exact ⟨fun _ => .inl hwhole, fun _ => readsRight_whole hreq mapped hwhole⟩
  have hbefore : start < lowestHole holes := Nat.lt_of_not_le hwhole
  by_cases hout : start + count ≤ lowestHole holes
  · refine ⟨fun _ => .inr (.inl hout), fun _ => ⟨mapped, ?_, ?_⟩⟩
    · rw [mapRegionRead_eq hreq hbefore]
      unfold tux3MapHole
      rw [bind_of_ok (searchHoleStart_eq hreq.holes maxBlocks)]
      exact if_pos hout
    · by_cases hnonneg : 0 ≤ mapped.1
      · rw [if_pos (.inr hnonneg)]
        refine HoleMapped.same hmapped hnonneg ?_
        have htotal := hmapped.total
        omega
      · rw [if_neg (by omega)]
  · rw [or_iff_right hwhole, or_iff_right hout]
    have hend : lowestHole holes < start + count := Nat.lt_of_not_le hout
    by_cases hnonneg : 0 ≤ mapped.1
    · rw [readsRight_behind hreq hmapped hbefore hend hnonneg, and_iff_right hnonneg]
    · refine ⟨fun h => absurd h (not_readsRight_err hreq hbefore hend (by omega)), fun h => ?_⟩
      exact absurd h.1 hnonneg

end

/-- A file of 3 blocks behind which it was truncated. -/
def truncatedHoles : List HoleExtent := [⟨3, maxBlocks - 3⟩]

/-- A hole of the btree is made longer. -/
theorem mapRegionRead_iff_hole :
    ReadsRight truncatedHoles 0 8 (List.replicate 4 ⟨0, 0, 0⟩) 4
      (2, [⟨7, 2, 0⟩, ⟨0, 4, blockSegHole⟩, ⟨0, 0, 0⟩, ⟨0, 0, 0⟩]) := by
  have hreq : ReadRequest truncatedHoles 0 8 (List.replicate 4 ⟨0, 0, 0⟩) 4 :=
    ⟨by decide, by decide, by decide, by decide, by decide, by decide, rfl⟩
  refine (mapRegionRead_iff hreq ⟨rfl, by decide, by decide, by decide, by decide⟩).mpr
    (.inr (.inr ⟨by decide, ?_⟩))
  exact (@overlayOk_iff 0 4 3 [⟨7, 2, 0⟩, ⟨0, 4, blockSegHole⟩] [⟨7, 2, 0⟩] []
    ⟨0, 4, blockSegHole⟩ rfl (by decide) (by decide)).mpr (.inl rfl)

/-- A read of 8 blocks whose btree maps 5 of them returns segments of 11 blocks, and an error does
not come through. -/
theorem mapRegionRead_covers_too_much :
    mapRegionRead truncatedHoles 0 8 (List.replicate 4 ⟨0, 0, 0⟩) 4
      (1, [⟨7, 5, 0⟩, ⟨0, 0, 0⟩, ⟨0, 0, 0⟩, ⟨0, 0, 0⟩]) =
        .ok (2, [⟨7, 3, 0⟩, ⟨0, 8, blockSegHole⟩, ⟨0, 0, 0⟩, ⟨0, 0, 0⟩]) ∧
    ¬ReadsRight truncatedHoles 0 8 (List.replicate 4 ⟨0, 0, 0⟩) 4
      (1, [⟨7, 5, 0⟩, ⟨0, 0, 0⟩, ⟨0, 0, 0⟩, ⟨0, 0, 0⟩]) ∧
    ¬ReadsRight truncatedHoles 0 8 (List.replicate 4 ⟨0, 0, 0⟩) 4
      (-eio, List.replicate 4 ⟨0, 0, 0⟩) := by
  have hreq : ReadRequest truncatedHoles 0 8 (List.replicate 4 ⟨0, 0, 0⟩) 4 :=
    ⟨by decide, by decide, by decide, by decide, by decide, by decide, rfl⟩
  have hcut : mapRegionRead truncatedHoles 0 8 (List.replicate 4 ⟨0, 0, 0⟩) 4
      (1, [⟨7, 5, 0⟩, ⟨0, 0, 0⟩, ⟨0, 0, 0⟩, ⟨0, 0, 0⟩]) =
        .ok (2, [⟨7, 3, 0⟩, ⟨0, 8, blockSegHole⟩, ⟨0, 0, 0⟩, ⟨0, 0, 0⟩]) := by rfl
  refine ⟨hcut, ?_, not_readsRight_err hreq (by decide) (by decide) (by decide)⟩
  rintro ⟨out, hout, hright⟩
  rw [hcut] at hout
  obtain rfl := Except.ok.inj hout
  rw [if_pos (.inr (by decide))] at hright
  exact absurd hright.total (by decide)

end Tux3
