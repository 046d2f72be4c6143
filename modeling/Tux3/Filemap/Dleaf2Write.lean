/-
  Filemap/Dleaf2Write.lean --- writes of a leaf of the file index.

  A write puts its segments in the place of the entries between its start and its end, and an entry
  for what follows its end.  If they do not all fit, a hole stands for the rest until the leaf is
  split; if not even one fits, or there are no blocks, the leaf is as it was.
-/
import Tux3.Filemap.Dleaf2Merge

set_option autoImplicit false

namespace Tux3

open Outcome (bind_of_ok bind_of_error)
open StepTable (Ascending)

/-! ## The code -/

/-- `dleaf2_resize`: there is a number of entries more, or less, from `head` on. -/
def dleaf2Resize (leaf : Dleaf2) (head : Nat) (diff : Int) : Except TuxError Dleaf2 :=
  if diff = 0 then return leaf
  else if 0 < diff then do
    let table ← memmoveExtents leaf.table (head + diff.toNat) head (leaf.count - head)
    return ⟨leaf.count + diff.toNat, table⟩
  else if head + (-diff).toNat ≤ leaf.count then do
    let table ← memmoveExtents leaf.table head (head + (-diff).toNat)
      (leaf.count - (head + (-diff).toNat))
    return ⟨leaf.count - (-diff).toNat, table⟩
  else .error .bounds

/-- `dleaf2_init_sentinel`. -/
def dleaf2InitSentinel (leaf : Dleaf2) (keyBottom : Nat) : Except TuxError Dleaf2 :=
  if leaf.count = 0 then do
    let table ← putExtent leaf.table 0 keyBottom 0
    return ⟨1, table⟩
  else return leaf

/-- `dleaf2_split_at_center`. -/
def dleaf2SplitAtCenter (leaf : Dleaf2) : Except TuxError Nat := do
  let ex ← getExtent leaf.table (leaf.count / 2)
  return ex.logical

/-- `seg_total_count`. -/
def segTotalCount (segs : List StateSegment) : Nat := totalCount segs % 2 ^ 32

/-- `dex_start` of `dleaf2_write`. -/
def findStart (leaf : Dleaf2) (start : Nat) : Except TuxError Nat := do
  let dex ← dleaf2LookupIndex leaf start
  if dex < leaf.count then do
    let ex ← getExtent leaf.table dex
    tuxAssert (ex.logical ≤ start)
    return if ex.logical < start then dex + 1 else dex
  else return dex

/-- `between` and `end_physical` of `dleaf2_write`, and the number of entries behind the end. -/
def findEnd (leaf : Dleaf2) (dexStart limit : Nat) : Except TuxError (Nat × Nat × Nat) := do
  let dexEnd ← dleaf2LookupIndex leaf limit
  if dexEnd < leaf.count then do
    let ex ← getExtent leaf.table dexEnd
    return (if dexEnd < dexStart then 0 else dexEnd - dexStart + 1, ex.blockAt limit,
      leaf.count - dexEnd - 1)
  else return (dexEnd - dexStart, 0, 0)

/-- The loop that fills the extents, for a number of segments. -/
def fillExtents : Nat → List DiskExtent → Nat → DleafReq → BtreeKeyRange →
    Except TuxError (List DiskExtent × Nat × DleafReq × BtreeKeyRange)
  | 0, table, dex, rq, key => .ok (table, dex, rq, key)
  | n + 1, table, dex, rq, key => do
      let seg ← readSeg rq.seg rq.segIdx
      let table ← putExtent table dex key.start seg.block
      fillExtents n table (dex + 1) { rq with segIdx := rq.segIdx + 1 }
        ⟨key.start + seg.count, key.len - seg.count⟩

/-- What `dleaf2_write` leaves; the hint is none where it is not set. -/
structure LeafWrite where
  ret : Int
  leaf : Dleaf2
  rq : DleafReq
  key : BtreeKeyRange
  splitHint : Option Nat

/-- The end of `dleaf2_write`, with blocks for the segments that are written: `restSegs` of them are
left, and the place of the hole that stands for them. -/
def writeExtents (leaf : Dleaf2) (rq : DleafReq) (key : BtreeKeyRange)
    (dexStart between endPhysical need writeSegs restSegs : Nat) : Except TuxError LeafWrite := do
  let limit := key.start + key.len
  let leaf ← dleaf2Resize leaf dexStart (((writeSegs + 1 : Nat) : Int) - between)
  tuxAssert (need = leaf.count)
  let (table, dex, rq, key) ←
    fillExtents (rq.segCnt - restSegs - rq.segIdx) leaf.table dexStart rq key
  if restSegs = 0 then do
    let table ← putExtent table dex limit endPhysical
    return ⟨0, ⟨leaf.count, table⟩, rq, key, none⟩
  else do
    let table ← putExtent table dex key.start 0
    let hint ← dleaf2SplitAtCenter ⟨leaf.count, table⟩
    let table ← putExtent table (dex + 1) limit endPhysical
    return ⟨1, ⟨leaf.count, table⟩, rq, key, some hint⟩

/-- The hint where not even one segment fits. -/
def noRoomHint (leaf : Dleaf2) (dexStart start : Nat) : Except TuxError Nat :=
  if dexStart + 1 < leaf.count - 1 then do
    let ex ← getExtent leaf.table (dexStart + 1)
    return ex.logical
  else return start

/-- `dleaf2_write` from `recheck` on.  The results of `rq->seg_alloc` are a parameter: the one of
the `calls`-th call, for a request and a number of segments. -/
def dleaf2WriteLoop (entriesPerLeaf keyBottom : Nat)
    (segAlloc : Nat → DleafReq → Nat → Except TuxError (DleafReq × Int)) :
    Nat → Nat → Dleaf2 → DleafReq → BtreeKeyRange → Except TuxError LeafWrite
  | 0, _, _, _, _ => .error .fuel
  | fuel + 1, calls, leaf, rq, key => do
      tuxAssert (key.len = segTotalCount rq.segs)
      let leaf ← dleaf2InitSentinel leaf keyBottom
      let writeSegs := rq.segCnt - rq.segIdx
      let dexStart ← findStart leaf key.start
      let (between, endPhysical, tail) ← findEnd leaf dexStart (key.start + key.len)
      let need := writeSegs + 1 + dexStart + tail
      -- `rest_segs`, before the place of the hole
      let restSegs := need - entriesPerLeaf
      if restSegs ≠ 0 ∧ writeSegs ≤ restSegs then do
        let hint ← noRoomHint leaf dexStart key.start
        return ⟨1, leaf, rq, key, some hint⟩
      else do
        let (rq, ret) ← segAlloc calls rq (writeSegs - restSegs)
        if ret < 0 then do
          tuxAssert (ret ≠ -enospc)
          return ⟨ret, leaf, rq, key, none⟩
        else if ret ≠ 0 then
          dleaf2WriteLoop entriesPerLeaf keyBottom segAlloc fuel (calls + 1) leaf rq
            ⟨key.start, segTotalCount rq.segs⟩
        else
          writeExtents leaf rq key dexStart between endPhysical (need - restSegs)
            (writeSegs - restSegs) (if restSegs = 0 then 0 else restSegs + 1)

/-- `dleaf2_write`, with at most `partials` partial allocations. -/
def dleaf2Write (entriesPerLeaf keyBottom : Nat)
    (segAlloc : Nat → DleafReq → Nat → Except TuxError (DleafReq × Int)) (partials : Nat)
    (leaf : Dleaf2) (rq : DleafReq) (key : BtreeKeyRange) : Except TuxError LeafWrite :=
  dleaf2WriteLoop entriesPerLeaf keyBottom segAlloc (partials + 1) 0 leaf rq key

/-! ## What a write is to do -/

/-- The blocks of segments, from a logical address on; block zero is a hole. -/
def segsMap : Nat → List StateSegment → Nat → Option Nat
  | _, [], _ => none
  | start, s :: segs, x =>
      if x < start + s.count then if s.block = 0 then none else some (s.block + (x - start))
      else segsMap (start + s.count) segs x

/-- A map with segments laid over it, and a hole from their end up to a limit. -/
def overlay (map : Nat → Option Nat) (start : Nat) (segs : List StateSegment) (limit x : Nat) :
    Option Nat :=
  if x < start then map x
  else if x < start + totalCount segs then segsMap start segs x
  else if x < limit then none else map x

/-- The entries of segments. -/
def segEntries : Nat → List StateSegment → List DiskExtent
  | _, [] => []
  | start, s :: segs => diskExtent start s.block :: segEntries (start + s.count) segs

/-- The segments that a write took from a request. -/
def DleafReq.taken (rq out : DleafReq) : List StateSegment :=
  (out.seg.drop rq.segIdx).take (out.segIdx - rq.segIdx)

/-- A result of `seg_alloc`: an error that is not `-ENOSPC`; or the segments of the request, with
blocks in the volume; or other ones, of no more blocks, where the allocation is partial. -/
structure SegAllocOk (rq out : DleafReq) (ret : Int) : Prop where
  enospc : ret ≠ -enospc
  segIdx : out.segIdx = rq.segIdx
  ok : 0 ≤ ret → out.Ok ∧ out.segIdx < out.segCnt
  blocks : 0 ≤ ret → ∀ s ∈ out.segs, s.block + s.count ≤ 2 ^ 48
  whole : ret = 0 → out.segCnt = rq.segCnt ∧ totalCount out.segs = totalCount rq.segs
  shorter : 0 < ret → totalCount out.segs ≤ totalCount rq.segs

/-- The results of `seg_alloc` for segments that are in the request. -/
def SegAllocs (segAlloc : Nat → DleafReq → Nat → Except TuxError (DleafReq × Int)) : Prop :=
  ∀ k rq writeSegs, rq.Ok → 0 < writeSegs → rq.segIdx + writeSegs ≤ rq.segCnt →
    ∃ out ret, segAlloc k rq writeSegs = .ok (out, ret) ∧ SegAllocOk rq out ret

/-- The entries outside of a range leave no place for a segment and for what follows it. -/
def NoRoom (entriesPerLeaf : Nat) (entries : List DiskExtent) (start limit : Nat) : Prop :=
  entriesPerLeaf ≤ (entries.filter fun ex => decide (ex.logical < start)).length +
    (entries.filter fun ex => decide (limit < ex.logical)).length + 1

/-- The result of a write: the segments that were taken are laid over the map, with a hole for those
that are left; or the map is as it was, where there is no room for a segment or the allocation
failed. -/
structure WriteOk (entriesPerLeaf bottom keyLimit : Nat) (leaf : Dleaf2) (rq : DleafReq)
    (key : BtreeKeyRange) (out : LeafWrite) : Prop where
  ok : out.leaf.Ok entriesPerLeaf bottom keyLimit
  volume : ∀ x b, extentMap out.leaf.entries x = some b → b < 2 ^ 48
  start : out.key.start = key.start + totalCount (rq.taken out.rq)
  inside : out.key.start + out.key.len ≤ key.start + key.len
  left : 0 ≤ out.ret → out.key.len = totalCount out.rq.segs
  result :
    ((out.ret = 0 ∧ out.key.len = 0 ∨ out.ret = 1 ∧ out.key.len ≠ 0) ∧
      out.leaf.Reads bottom keyLimit (overlay (extentMap leaf.entries) key.start
        (rq.taken out.rq) (out.key.start + out.key.len))) ∨
    ((out.ret = 1 ∧ NoRoom entriesPerLeaf out.leaf.entries key.start
        (out.key.start + out.key.len) ∨ out.ret < 0) ∧ out.rq.segIdx = rq.segIdx ∧
      out.leaf.Reads bottom keyLimit (extentMap leaf.entries))

section

variable {leaf : Dleaf2} {table front mid back junk rest entries : List DiskExtent} {ex : DiskExtent}
  {segs : List StateSegment} {s : StateSegment} {rq : DleafReq} {key : BtreeKeyRange}
  {entriesPerLeaf bottom limit start keyLimit n x : Nat}

/-! ## `dleaf2_resize` -/

/-- The entries behind the part that is resized are kept. -/
theorem dleaf2Resize_spec (htable : leaf.table = front ++ (mid ++ (back ++ junk)))
    (hcount : leaf.count = front.length + (mid.length + back.length))
    (hroom : n ≤ mid.length + junk.length) :
    ∃ gap junk', dleaf2Resize leaf front.length ((n : Int) - mid.length) =
        .ok ⟨front.length + (n + back.length), front ++ (gap ++ (back ++ junk'))⟩ ∧
      gap.length = n ∧ n + junk'.length = mid.length + junk.length := by
  have hlength : leaf.table.length =
      front.length + (mid.length + (back.length + junk.length)) := by
    rw [htable, List.length_append, List.length_append, List.length_append]
  have hmoved : mid ++ (back ++ junk) = (mid ++ back) ++ junk := (List.append_assoc _ _ _).symm
  unfold dleaf2Resize memmoveExtents memcpyExtents
  rcases Nat.lt_trichotomy n mid.length with hless | heq | hmore
  · have hneg : (-((n : Int) - mid.length)).toNat = mid.length - n := by omega
    have hsrc : front.length + (mid.length - n) ≤ leaf.count := by omega
    have hsize : leaf.count - (front.length + (mid.length - n)) = n + back.length := by omega
    have hdrop : (leaf.table.drop (front.length + (mid.length - n))).take (n + back.length) =
        mid.drop (mid.length - n) ++ back := by
      rw [htable, ← List.drop_drop, List.drop_left, hmoved, List.drop_append_of_le_length
        (by rw [List.length_append]; omega), List.drop_append_of_le_length (by omega)]
      refine List.take_left' ?_
      rw [List.length_append, List.length_drop]
      omega
    refine ⟨mid.drop (mid.length - n), leaf.table.drop (front.length + (n + back.length)), ?_, ?_,
      ?_⟩
    · rw [if_neg (by omega), if_neg (by omega), hneg, if_pos hsrc, hsize,
        if_pos (by rw [hlength]; omega), hdrop]
      have htake : leaf.table.take front.length = front := by rw [htable, List.take_left]
      have hend : leaf.count - (mid.length - n) = front.length + (n + back.length) := by omega
      rw [htake, hend]
      show Except.ok _ = Except.ok _
      rw [List.append_assoc, List.append_assoc]
    · rw [List.length_drop]
      omega
    · rw [List.length_drop, hlength]
      omega
  · refine ⟨mid, junk, ?_, heq.symm, by omega⟩
    rw [if_pos (by omega)]
    refine congrArg Except.ok ?_
    rw [← htable, heq, ← hcount]
  · have hpos : ((n : Int) - mid.length).toNat = n - mid.length := by omega
    have hsize : leaf.count - front.length = mid.length + back.length := by omega
    have hdrop : (leaf.table.drop front.length).take (mid.length + back.length) = mid ++ back := by
      rw [htable, List.drop_left, hmoved]
      exact List.take_left' List.length_append
    have htake : leaf.table.take (front.length + (n - mid.length)) =
        front ++ (mid ++ (back ++ junk)).take (n - mid.length) := by
      rw [htable, List.take_append, List.take_of_length_le (by omega), Nat.add_sub_cancel_left]
    refine ⟨(mid ++ (back ++ junk)).take (n - mid.length) ++ mid,
      leaf.table.drop (front.length + (n - mid.length) + (mid.length + back.length)), ?_, ?_, ?_⟩
    · rw [if_neg (by omega), if_pos (by omega), hpos, hsize, if_pos (by rw [hlength]; omega), hdrop,
        htake]
      have hend : leaf.count + (n - mid.length) = front.length + (n + back.length) := by omega
      rw [hend]
      show Except.ok _ = Except.ok _
      simp only [List.append_assoc]
    · rw [List.length_append, List.length_take, List.length_append, List.length_append]
      omega
    · rw [List.length_drop, hlength]
      omega

/-! ## Start and end -/

/-- The entries below the start of a write. -/
theorem findStart_spec (h : leaf.Ok entriesPerLeaf bottom keyLimit) (hcount : leaf.count ≠ 0)
    (hstart : bottom ≤ start) :
    ∃ front rest, leaf.entries = front ++ rest ∧ (∀ ex ∈ front, ex.logical < start) ∧
      (∀ ex ∈ rest, start ≤ ex.logical) ∧ findStart leaf start = .ok front.length := by
  have hlength := h.entries_length
  have hasc := h.ascending
  obtain ⟨front, ex, back, hentries, hle, hback⟩ := h.exists_at hcount
    fun ex hex => Nat.le_trans (h.first ex hex) hstart
  have hend : leaf.count = front.length + (back.length + 1) := by
    rw [← hlength, hentries, List.length_append, List.length_cons]
  unfold findStart
  rcases Nat.eq_or_lt_of_le hle with heq | hlt
  · refine ⟨front, ex :: back, hentries, ?_, ?_, ?_⟩
    · rw [hentries] at hasc
      exact heq ▸ hasc.before
    · exact List.forall_mem_cons.mpr ⟨Nat.le_of_eq heq.symm, fun b hb => Nat.le_of_lt (hback b hb)⟩
    · rw [bind_of_ok (dleaf2LookupIndex_eq hentries hlength hasc heq), if_pos (by omega),
        bind_of_ok (getExtent_of_entries hentries rfl), bind_of_ok (tuxAssert_of hle),
        if_neg (by omega)]
      rfl
  · refine ⟨front ++ [ex], back, by rw [hentries, List.append_cons], ?_,
      fun b hb => Nat.le_of_lt (hback b hb), ?_⟩
    · intro b hb
      rcases List.mem_append.mp hb with hin | hin
      · rw [hentries] at hasc
        exact Nat.lt_trans (hasc.before b hin) hlt
      · exact List.mem_singleton.mp hin ▸ hlt
    · rw [List.length_append, List.length_singleton]
      by_cases hnil : back = []
      · have hhole : ex.physical = 0 := by
          refine (h.last ex ?_).1
          rw [hentries, hnil, List.getLast?_append]
          rfl
        rw [bind_of_ok (dleaf2LookupIndex_behind hentries hlength hasc hnil hlt hhole),
          if_neg (Nat.lt_irrefl _), hend, hnil]
        rfl
      · rw [bind_of_ok (dleaf2LookupIndex_between hentries hlength hasc hnil hle hback),
          if_pos (by omega), bind_of_ok (getExtent_of_entries hentries rfl),
          bind_of_ok (tuxAssert_of hle), if_pos hlt]
        rfl

/-- The block of an entry is the one of the map. -/
theorem blockAt_eq (hle : ex.logical ≤ x) (hback : ∀ b ∈ back, x < b.logical) :
    ex.blockAt x = (extentMap (front ++ ex :: back) x).getD 0 := by
  rw [extentMap_split hle hback]
  unfold DiskExtent.blockAt
  split <;> rfl

/-- The entries up to the end of a write, and those behind it. -/
theorem findEnd_spec (h : leaf.Ok entriesPerLeaf bottom keyLimit) (hcount : leaf.count ≠ 0)
    (hbottom : bottom ≤ start) (hlt : start < limit) (hentries : leaf.entries = front ++ rest)
    (hfront : ∀ ex ∈ front, ex.logical < start) :
    ∃ mid back, rest = mid ++ back ∧ (∀ ex ∈ mid, ex.logical ≤ limit) ∧
      (∀ ex ∈ back, limit < ex.logical) ∧ findEnd leaf front.length limit =
        .ok (mid.length, (extentMap leaf.entries limit).getD 0, back.length) := by
  have hlength := h.entries_length
  have hasc := h.ascending
  obtain ⟨before, ex, back, hsplit, hle, hback⟩ := h.exists_at hcount
    fun ex hex => Nat.le_trans (h.first ex hex) (Nat.le_trans hbottom (Nat.le_of_lt hlt))
  have hend : leaf.count = before.length + (back.length + 1) := by
    rw [← hlength, hsplit, List.length_append, List.length_cons]
  obtain ⟨mid, hmid, hrest⟩ : ∃ mid, before ++ [ex] = front ++ mid ∧ rest = mid ++ back := by
    have hboth : front ++ rest = (before ++ [ex]) ++ back := by
      rw [← hentries, hsplit, List.append_cons]
    rcases List.append_eq_append_iff.mp hboth with ⟨mid, hmid, hrest⟩ | ⟨more, hmore, hback'⟩
    · exact ⟨mid, hmid, hrest⟩
    · cases more with
      | nil => exact ⟨[], by rw [hmore, List.append_nil, List.append_nil], hback'.symm⟩
      | cons b more =>
          have hbelow := hfront b (hmore ▸ List.mem_append_right _ List.mem_cons_self)
          have habove := hback b (hback' ▸ List.mem_cons_self)
          omega
  have hwidth : before.length + 1 = front.length + mid.length := by
    have := congrArg List.length hmid
    rwa [List.length_append, List.length_append, List.length_singleton] at this
  refine ⟨mid, back, hrest, fun b hb => ?_, hback, ?_⟩
  · have hmem : b ∈ before ++ [ex] := hmid ▸ List.mem_append_right _ hb
    rcases List.mem_append.mp hmem with hin | hin
    · rw [hsplit] at hasc
      exact Nat.le_trans (Nat.le_of_lt (hasc.before b hin)) hle
    · exact List.mem_singleton.mp hin ▸ hle
  unfold findEnd
  by_cases hbehind : back = [] ∧ ex.logical < limit
  · obtain ⟨hnil, hbelow⟩ := hbehind
    have hhole : ex.physical = 0 := by
      refine (h.last ex ?_).1
      rw [hsplit, hnil, List.getLast?_append]
      rfl
    have hnone : extentMap leaf.entries limit = none := by
      rw [hsplit, hnil]
      exact extentMap_sentinel hle hhole
    have hbetween : leaf.count - front.length = mid.length := by
      rw [hnil, List.length_nil] at hend
      omega
    rw [bind_of_ok (dleaf2LookupIndex_behind hsplit hlength hasc hnil hbelow hhole),
      if_neg (Nat.lt_irrefl _), hnone, hnil, hbetween]
    rfl
  · have hlookup : dleaf2LookupIndex leaf limit = .ok before.length := by
      by_cases hnil : back = []
      · have heq : ex.logical = limit := by
          have := not_and.mp hbehind hnil
          omega
        exact dleaf2LookupIndex_eq hsplit hlength hasc heq
      · exact dleaf2LookupIndex_between hsplit hlength hasc hnil hle hback
    have hbetween : (if before.length < front.length then 0 else before.length - front.length + 1) =
        mid.length := by
      split <;> omega
    have htail : leaf.count - before.length - 1 = back.length := by omega
    rw [bind_of_ok hlookup, if_pos (by omega), bind_of_ok (getExtent_of_entries hsplit rfl),
      hbetween, htail, hsplit, blockAt_eq hle hback]
    rfl

/-! ## The segments -/

theorem segEntries_length (segs : List StateSegment) :
    (segEntries start segs).length = segs.length := by
  induction segs generalizing start with
  | nil => rfl
  | cons s segs ih => exact congrArg (· + 1) ih

/-- The entries of segments take the places of as many entries. -/
theorem fillExtents_spec {pre post : List StateSegment}
    (htable : table = front ++ (mid ++ back)) (hlength : mid.length = segs.length)
    (hseg : rq.seg = pre ++ (segs ++ post)) (hidx : rq.segIdx = pre.length) :
    fillExtents segs.length table front.length rq key =
      .ok (front ++ (segEntries key.start segs ++ back), front.length + segs.length,
        { rq with segIdx := rq.segIdx + segs.length },
        ⟨key.start + totalCount segs, key.len - totalCount segs⟩) := by
  induction segs generalizing table front mid rq key pre with
  | nil =>
      obtain rfl := List.eq_nil_of_length_eq_zero hlength
      rw [htable]
      rfl
  | cons s segs ih =>
      cases mid with
      | nil => exact absurd hlength (Nat.succ_ne_zero _).symm
      | cons old mid =>
          have hread : readSeg rq.seg rq.segIdx = .ok s := by
            rw [hseg]
            exact readSeg_append hidx
          have hput : putExtent table front.length key.start s.block =
              .ok (front ++ diskExtent key.start s.block :: (mid ++ back)) := by
            rw [htable]
            exact putExtent_append rfl
          have hmove : front ++ diskExtent key.start s.block :: (mid ++ back) =
              (front ++ [diskExtent key.start s.block]) ++ (mid ++ back) := List.append_cons _ _ _
          have hsegs : rq.seg = (pre ++ [s]) ++ (segs ++ post) := by
            rw [hseg]
            simp
          have hnext := @ih _ (front ++ [diskExtent key.start s.block]) mid
            { rq with segIdx := rq.segIdx + 1 } ⟨key.start + s.count, key.len - s.count⟩ (pre ++ [s])
            hmove (Nat.succ_inj.mp hlength) hsegs (by simp [hidx])
          have hwidth : (front ++ [diskExtent key.start s.block]).length = front.length + 1 :=
            List.length_append
          rw [hwidth] at hnext
          have hcount : ∀ i, i + 1 + segs.length = i + (s :: segs).length := by
            intro i
            rw [List.length_cons]
            omega
          rw [List.length_cons, fillExtents, bind_of_ok hread, bind_of_ok hput, hnext,
            totalCount_cons, List.append_assoc]
          dsimp only
          rw [hcount, hcount, Nat.add_assoc key.start, Nat.sub_sub]
          rfl

/-- The hole that stands for the segments that are left. -/
def tempHole (restSegs start : Nat) : List DiskExtent :=
  if restSegs = 0 then [] else [diskExtent start 0]

theorem tempHole_length (restSegs start : Nat) :
    (tempHole restSegs start).length = if restSegs = 0 then 0 else 1 := by
  unfold tempHole
  split <;> rfl

theorem exists_getExtent (hi : n < table.length) : ∃ ex, getExtent table n = .ok ex := by
  unfold getExtent
  rw [List.getElem?_eq_getElem hi]
  exact ⟨_, rfl⟩

/-- What the end of a write leaves. -/
theorem writeExtents_spec {pre taken post : List StateSegment} {endPhysical need writeSegs restSegs : Nat}
    (htable : leaf.table = front ++ (mid ++ (back ++ junk)))
    (hcount : leaf.count = front.length + (mid.length + back.length))
    (hseg : rq.seg = pre ++ (taken ++ post)) (hidx : rq.segIdx = pre.length)
    (htaken : rq.segCnt - restSegs - rq.segIdx = taken.length)
    (hwrite : writeSegs = taken.length + (tempHole restSegs 0).length)
    (hneed : need = front.length + (writeSegs + 1 + back.length))
    (hroom : writeSegs + 1 ≤ mid.length + junk.length) :
    ∃ out junk', writeExtents leaf rq key front.length mid.length endPhysical need writeSegs restSegs =
        .ok out ∧
      out.leaf = ⟨need, front ++ (segEntries key.start taken ++
        (tempHole restSegs (key.start + totalCount taken) ++
          diskExtent (key.start + key.len) endPhysical :: (back ++ junk')))⟩ ∧
      writeSegs + 1 + junk'.length = mid.length + junk.length ∧
      out.rq = { rq with segIdx := rq.segIdx + taken.length } ∧
      out.key = ⟨key.start + totalCount taken, key.len - totalCount taken⟩ ∧
      out.ret = (if restSegs = 0 then 0 else 1) ∧ (out.splitHint.isSome ↔ restSegs ≠ 0) := by
  obtain ⟨gap, junk', hresize, hgap, hjunk⟩ := dleaf2Resize_spec htable hcount hroom
  have hwidth : taken.length ≤ gap.length := by omega
  obtain ⟨old, rest, rfl, hold⟩ : ∃ old rest, gap = old ++ rest ∧ old.length = taken.length :=
    ⟨gap.take taken.length, gap.drop taken.length, (List.take_append_drop _ _).symm,
      List.length_take_of_le hwidth⟩
  have hmemory : front ++ (old ++ rest ++ (back ++ junk')) =
      front ++ (old ++ (rest ++ (back ++ junk'))) := by rw [List.append_assoc old]
  rw [List.length_append, hold] at hgap
  have hfill := @fillExtents_spec _ front old (rest ++ (back ++ junk')) taken rq key pre post hmemory
    hold hseg hidx
  have hfilled : front ++ (segEntries key.start taken ++ (rest ++ (back ++ junk'))) =
      (front ++ segEntries key.start taken) ++ (rest ++ (back ++ junk')) :=
    (List.append_assoc _ _ _).symm
  have hdex : front.length + taken.length = (front ++ segEntries key.start taken).length := by
    rw [List.length_append, segEntries_length]
  unfold writeExtents
  rw [bind_of_ok hresize, bind_of_ok (tuxAssert_of (by rw [hneed])), htaken, bind_of_ok hfill]
  dsimp only
  by_cases hrest : restSegs = 0
  · subst hrest
    obtain ⟨old', rfl⟩ : ∃ old', rest = [old'] := by
      refine List.length_eq_one_iff.mp ?_
      have : (tempHole 0 0).length = 0 := rfl
      omega
    have hput : putExtent (front ++ (segEntries key.start taken ++ ([old'] ++ (back ++ junk'))))
        (front.length + taken.length) (key.start + key.len) endPhysical =
        .ok ((front ++ segEntries key.start taken) ++
          diskExtent (key.start + key.len) endPhysical :: (back ++ junk')) := by
      rw [hfilled]
      exact putExtent_append hdex
    refine ⟨⟨0, ⟨need, front ++ (segEntries key.start taken ++
      diskExtent (key.start + key.len) endPhysical :: (back ++ junk'))⟩,
      { rq with segIdx := rq.segIdx + taken.length },
      ⟨key.start + totalCount taken, key.len - totalCount taken⟩, none⟩, junk', ?_, rfl, hjunk, rfl,
      rfl, rfl, ?_⟩
    · rw [if_pos rfl, bind_of_ok hput, hneed, List.append_assoc]
      rfl
    · exact ⟨fun hsome => absurd hsome Bool.false_ne_true, fun hne => absurd rfl hne⟩
  · have hhole : (tempHole restSegs 0).length = 1 := by
      unfold tempHole
      rw [if_neg hrest]
      rfl
    obtain ⟨old', old'', rfl⟩ : ∃ old' old'', rest = [old', old''] := by
      refine List.length_eq_two.mp ?_
      omega
    have hput : putExtent (front ++ (segEntries key.start taken ++
        ([old', old''] ++ (back ++ junk')))) (front.length + taken.length)
        (key.start + totalCount taken) 0 = .ok ((front ++ segEntries key.start taken) ++
          diskExtent (key.start + totalCount taken) 0 :: (old'' :: (back ++ junk'))) := by
      rw [hfilled]
      exact putExtent_append hdex
    have hmove : (front ++ segEntries key.start taken) ++
          diskExtent (key.start + totalCount taken) 0 :: (old'' :: (back ++ junk')) =
        ((front ++ segEntries key.start taken) ++ [diskExtent (key.start + totalCount taken) 0]) ++
          old'' :: (back ++ junk') := List.append_cons _ _ _
    have hput' : putExtent ((front ++ segEntries key.start taken) ++
        diskExtent (key.start + totalCount taken) 0 :: (old'' :: (back ++ junk')))
        (front.length + taken.length + 1) (key.start + key.len) endPhysical =
        .ok (((front ++ segEntries key.start taken) ++
          [diskExtent (key.start + totalCount taken) 0]) ++
          diskExtent (key.start + key.len) endPhysical :: (back ++ junk')) := by
      rw [hmove]
      refine putExtent_append ?_
      rw [List.length_append, ← hdex]
      rfl
    have hcenter : ∃ hint, dleaf2SplitAtCenter ⟨front.length + (writeSegs + 1 + back.length),
        (front ++ segEntries key.start taken) ++
          diskExtent (key.start + totalCount taken) 0 :: (old'' :: (back ++ junk'))⟩ = .ok hint := by
      obtain ⟨ex, hex⟩ := @exists_getExtent ((front ++ segEntries key.start taken) ++
          diskExtent (key.start + totalCount taken) 0 :: (old'' :: (back ++ junk')))
        ((front.length + (writeSegs + 1 + back.length)) / 2) (by
          rw [List.length_append, List.length_append, segEntries_length, List.length_cons,
            List.length_cons, List.length_append]
          omega)
      refine ⟨ex.logical, ?_⟩
      unfold dleaf2SplitAtCenter
      dsimp only
      rw [bind_of_ok hex]
      rfl
    obtain ⟨hint, hhint⟩ := hcenter
    have hlist : ((front ++ segEntries key.start taken) ++
          [diskExtent (key.start + totalCount taken) 0]) ++
          diskExtent (key.start + key.len) endPhysical :: (back ++ junk') =
        front ++ (segEntries key.start taken ++
          (tempHole restSegs (key.start + totalCount taken) ++
            diskExtent (key.start + key.len) endPhysical :: (back ++ junk'))) := by
      unfold tempHole
      rw [if_neg hrest, List.append_assoc, List.append_assoc]
    refine ⟨⟨1, ⟨need, _⟩, { rq with segIdx := rq.segIdx + taken.length },
      ⟨key.start + totalCount taken, key.len - totalCount taken⟩, some hint⟩, junk', ?_,
      congrArg (Dleaf2.mk need) hlist, hjunk, rfl, rfl, (if_neg hrest).symm, ?_⟩
    · rw [if_neg hrest, bind_of_ok hput, bind_of_ok hhint, bind_of_ok hput', hneed]
      rfl
    · exact ⟨fun _ => hrest, fun _ => rfl⟩

/-! ## The map behind a write -/

/-- The entries of segments are in their range. -/
theorem mem_segEntries (hlimit : start + totalCount segs ≤ 2 ^ 48) (hpos : ∀ s ∈ segs, 0 < s.count)
    (hex : ex ∈ segEntries start segs) :
    start ≤ ex.logical ∧ ex.logical < start + totalCount segs := by
  induction segs generalizing start with
  | nil => exact absurd hex List.not_mem_nil
  | cons s segs ih =>
      obtain ⟨hs, hrest⟩ := List.forall_mem_cons.mp hpos
      rw [totalCount_cons] at hlimit ⊢
      rcases List.mem_cons.mp hex with rfl | hin
      · rw [diskExtent_logical _ (by omega)]
        omega
      · have := ih (by omega) hrest hin
        omega

theorem segEntries_ascending (hlimit : start + totalCount segs ≤ 2 ^ 48)
    (hpos : ∀ s ∈ segs, 0 < s.count) : Ascending DiskExtent.logical (segEntries start segs) := by
  induction segs generalizing start with
  | nil => exact List.Pairwise.nil
  | cons s segs ih =>
      obtain ⟨hs, hrest⟩ := List.forall_mem_cons.mp hpos
      rw [totalCount_cons] at hlimit
      refine List.pairwise_cons.mpr ⟨fun ex hex => ?_, ih (by omega) hrest⟩
      have := mem_segEntries (by omega) hrest hex
      rw [diskExtent_logical _ (by omega)]
      omega

/-- The entries of segments map their blocks. -/
theorem extentMap_segEntries (hlimit : start + totalCount segs ≤ 2 ^ 48)
    (hpos : ∀ s ∈ segs, 0 < s.count) (hblock : ∀ s ∈ segs, s.block < 2 ^ 48)
    (hback : ∀ b ∈ back, start + totalCount segs ≤ b.logical) (hle : start ≤ x)
    (hlt : x < start + totalCount segs) :
    extentMap (segEntries start segs ++ back) x = segsMap start segs x := by
  induction segs generalizing start with
  | nil =>
      rw [totalCount_nil] at hlt
      omega
  | cons s segs ih =>
      obtain ⟨hs, hrest⟩ := List.forall_mem_cons.mp hpos
      obtain ⟨hsblock, hblocks⟩ := List.forall_mem_cons.mp hblock
      rw [totalCount_cons] at hlimit hback hlt
      have hlogical : (diskExtent start s.block).logical = start := diskExtent_logical _ (by omega)
      unfold segsMap
      by_cases hx : x < start + s.count
      · have hsplit := @extentMap_split [] (segEntries (start + s.count) segs ++ back)
          (diskExtent start s.block) x (by omega) fun b hb => by
            rcases List.mem_append.mp hb with hin | hin
            · have := mem_segEntries (by omega) hrest hin
              omega
            · have := hback b hin
              omega
        rw [hlogical, diskExtent_physical _ hsblock] at hsplit
        rw [if_pos hx]
        exact hsplit
      · have hne : segs ≠ [] := by
          rintro rfl
          rw [totalCount_nil] at hlt
          omega
        obtain ⟨next, more, rfl⟩ := List.exists_cons_of_ne_nil hne
        have hnext : (diskExtent (start + s.count) next.block).logical = start + s.count :=
          diskExtent_logical _ (by omega)
        rw [if_neg hx, ← ih (by omega) hrest hblocks (fun b hb => by
          have := hback b hb
          omega) (by omega) (by omega)]
        exact @extentMap_append_of_le [diskExtent start s.block] _ _
          ⟨_, List.mem_append_left _ List.mem_cons_self, by omega⟩

/-- From an address up to the next entry the blocks go on. -/
theorem extentMap_shift (hfront : ∀ ex ∈ front, ex.logical ≤ limit)
    (hback : ∀ b ∈ back, x < b.logical) (hle : limit ≤ x) :
    extentMap (front ++ back) x = (extentMap (front ++ back) limit).map (· + (x - limit)) := by
  rcases List.eq_nil_or_concat front with rfl | ⟨before, ex, hconcat⟩
  · rw [List.nil_append, extentMap_of_lt hback,
      extentMap_of_lt fun b hb => Nat.lt_of_le_of_lt hle (hback b hb)]
    rfl
  · rw [List.concat_eq_append] at hconcat
    have hex := hfront ex (hconcat ▸ List.mem_append_right _ List.mem_cons_self)
    rw [hconcat, List.append_assoc, List.singleton_append,
      extentMap_split (Nat.le_trans hex hle) hback,
      extentMap_split hex fun b hb => Nat.lt_of_le_of_lt hle (hback b hb)]
    split
    · rfl
    · rw [Option.map_some]
      congr 1
      omega

/-- A mapped block is not zero. -/
theorem extentMap_ne_zero : extentMap entries x ≠ some 0 := by
  intro h
  unfold extentMap at h
  obtain ⟨ex, -, hex⟩ := Option.bind_eq_some_iff.mp h
  split at hex
  · cases hex
  · have := Option.some.inj hex
    omega

section WriteLaid

variable {taken : List StateSegment} {restSegs : Nat}

/-- The entries behind a write, and what is known of those that it found. -/
structure WriteLaid (front mid back : List DiskExtent) (taken : List StateSegment)
    (restSegs start limit : Nat) : Prop where
  front : ∀ ex ∈ front, ex.logical < start
  mid : ∀ ex ∈ mid, start ≤ ex.logical ∧ ex.logical ≤ limit
  back : ∀ ex ∈ back, limit < ex.logical
  limit_lt : limit < 2 ^ 48
  nonempty : ∀ s ∈ taken, 0 < s.count
  blocks : ∀ s ∈ taken, s.block < 2 ^ 48
  whole : restSegs = 0 → taken ≠ [] ∧ start + totalCount taken = limit
  left : restSegs ≠ 0 → start + totalCount taken < limit

/-- The entries behind a write. -/
def laidEntries (front mid back : List DiskExtent) (taken : List StateSegment)
    (restSegs start limit : Nat) : List DiskExtent :=
  front ++ (segEntries start taken ++ (tempHole restSegs (start + totalCount taken) ++
    diskExtent limit ((extentMap (front ++ (mid ++ back)) limit).getD 0) :: back))

variable (h : WriteLaid front mid back taken restSegs start limit)
include h

theorem WriteLaid.end_le : start + totalCount taken ≤ limit := by
  by_cases hrest : restSegs = 0
  · exact Nat.le_of_eq (h.whole hrest).2
  · exact Nat.le_of_lt (h.left hrest)

theorem WriteLaid.limit_logical (physical : Nat) : (diskExtent limit physical).logical = limit :=
  diskExtent_logical _ h.limit_lt

/-- What is behind the segments that were taken is behind their end. -/
theorem WriteLaid.behind (physical : Nat) : ∀ ex ∈ tempHole restSegs (start + totalCount taken) ++
    diskExtent limit physical :: back, start + totalCount taken ≤ ex.logical := by
  have hend := h.end_le
  intro ex hex
  rcases List.mem_append.mp hex with hin | hin
  · unfold tempHole at hin
    split at hin
    · exact absurd hin List.not_mem_nil
    · rw [List.mem_singleton.mp hin, diskExtent_logical _ (Nat.lt_of_le_of_lt hend h.limit_lt)]
  · rcases List.mem_cons.mp hin with rfl | hin
    · rw [h.limit_logical]
      exact hend
    · exact Nat.le_trans hend (Nat.le_of_lt (h.back ex hin))

/-- Behind the end of the write the map is as it was. -/
theorem WriteLaid.extentMap_ge
    (hvolume : ∀ b, extentMap (front ++ (mid ++ back)) limit = some b → b < 2 ^ 48)
    (hx : limit ≤ x) : extentMap (laidEntries front mid back taken restSegs start limit) x =
      extentMap (front ++ (mid ++ back)) x := by
  have hlogical := h.limit_logical ((extentMap (front ++ (mid ++ back)) limit).getD 0)
  unfold laidEntries
  rw [← List.append_assoc, ← List.append_assoc, extentMap_append_of_le
    ⟨_, List.mem_cons_self, by rw [hlogical]; exact hx⟩]
  by_cases hbehind : ∃ ex ∈ back, ex.logical ≤ x
  · rw [← List.append_assoc front, extentMap_append_of_le hbehind]
    exact @extentMap_append_of_le [diskExtent limit _] _ _ hbehind
  · have hback : ∀ b ∈ back, x < b.logical := fun b hb =>
      Nat.lt_of_not_le fun hle => hbehind ⟨b, hb, hle⟩
    have hsplit := @extentMap_split [] back (diskExtent limit
      ((extentMap (front ++ (mid ++ back)) limit).getD 0)) x (by rw [hlogical]; exact hx) hback
    have hbefore : ∀ ex ∈ front ++ mid, ex.logical ≤ limit := by
      have hend := h.end_le
      intro ex hex
      rcases List.mem_append.mp hex with hin | hin
      · have := h.front ex hin
        omega
      · exact (h.mid ex hin).2
    have hshift := @extentMap_shift (front ++ mid) back limit x hbefore hback hx
    rw [List.append_assoc] at hshift
    rw [hshift]
    refine hsplit.trans ?_
    rw [hlogical]
    cases hmap : extentMap (front ++ (mid ++ back)) limit with
    | none => rfl
    | some b =>
        have hne : b ≠ 0 := fun hzero => extentMap_ne_zero (hzero ▸ hmap)
        have hphysical : (diskExtent limit b).physical = b :=
          diskExtent_physical _ (hvolume b hmap)
        rw [Option.getD_some, hphysical, if_neg hne]
        rfl

/-- The map behind a write. -/
theorem WriteLaid.extentMap_eq
    (hvolume : ∀ b, extentMap (front ++ (mid ++ back)) limit = some b → b < 2 ^ 48) (x : Nat) :
    extentMap (laidEntries front mid back taken restSegs start limit) x =
      overlay (extentMap (front ++ (mid ++ back))) start taken limit x := by
  have hend := h.end_le
  have hlt48 := h.limit_lt
  have hseg48 : start + totalCount taken ≤ 2 ^ 48 := by omega
  have hbehind := h.behind ((extentMap (front ++ (mid ++ back)) limit).getD 0)
  unfold overlay
  by_cases hstart : x < start
  · rw [if_pos hstart]
    unfold laidEntries
    rw [extentMap_append_of_lt, extentMap_append_of_lt]
    · intro ex hex
      rcases List.mem_append.mp hex with hin | hin
      · have := (h.mid ex hin).1
        omega
      · have := h.back ex hin
        omega
    · intro ex hex
      rcases List.mem_append.mp hex with hin | hin
      · have := mem_segEntries hseg48 h.nonempty hin
        omega
      · have := hbehind ex hin
        omega
  rw [if_neg hstart]
  by_cases htaken : x < start + totalCount taken
  · rw [if_pos htaken, ← extentMap_segEntries hseg48 h.nonempty h.blocks hbehind
      (Nat.le_of_not_lt hstart) htaken]
    unfold laidEntries
    refine extentMap_append_of_le ?_
    cases taken with
    | nil =>
        rw [totalCount_nil] at htaken
        omega
    | cons s taken =>
        refine ⟨_, List.mem_append_left _ List.mem_cons_self, ?_⟩
        rw [diskExtent_logical _ (by omega)]
        omega
  rw [if_neg htaken]
  by_cases hlimit : x < limit
  · rw [if_pos hlimit]
    have hrest : restSegs ≠ 0 := fun hzero => by
      have := (h.whole hzero).2
      omega
    have hhole : tempHole restSegs (start + totalCount taken) =
        [diskExtent (start + totalCount taken) 0] := if_neg hrest
    unfold laidEntries
    rw [hhole, ← List.append_assoc, List.singleton_append, extentMap_split]
    · rw [if_pos (diskExtent_hole _)]
    · rw [diskExtent_logical _ (by omega)]
      omega
    · refine List.forall_mem_cons.mpr ⟨by rw [h.limit_logical]; exact hlimit, fun b hb => ?_⟩
      have := h.back b hb
      omega
  · rw [if_neg hlimit, h.extentMap_ge hvolume (Nat.le_of_not_lt hlimit)]

theorem WriteLaid.ascending (hasc : Ascending DiskExtent.logical (front ++ (mid ++ back))) :
    Ascending DiskExtent.logical (laidEntries front mid back taken restSegs start limit) := by
  have hend := h.end_le
  have hlt48 := h.limit_lt
  have hseg48 : start + totalCount taken ≤ 2 ^ 48 := by omega
  have hbehind := h.behind ((extentMap (front ++ (mid ++ back)) limit).getD 0)
  have hlogical := h.limit_logical ((extentMap (front ++ (mid ++ back)) limit).getD 0)
  unfold laidEntries
  refine hasc.left.append ((segEntries_ascending hseg48 h.nonempty).append
    (Ascending.append ?_ ?_ ?_) ?_) ?_
  · unfold tempHole
    split
    · exact List.Pairwise.nil
    · exact List.pairwise_singleton _ _
  · refine List.pairwise_cons.mpr ⟨fun ex hex => ?_, hasc.right.right⟩
    rw [hlogical]
    exact h.back ex hex
  · intro a ha b hb
    unfold tempHole at ha
    split at ha
    · exact absurd ha List.not_mem_nil
    · rename_i hrest
      have hleft := h.left hrest
      rw [List.mem_singleton.mp ha, diskExtent_logical _ (by omega)]
      rcases List.mem_cons.mp hb with rfl | hin
      · rw [hlogical]
        exact hleft
      · exact Nat.lt_trans hleft (h.back b hin)
  · intro a ha b hb
    have ha := mem_segEntries hseg48 h.nonempty ha
    have hb := hbehind b hb
    omega
  · intro a ha b hb
    have ha := h.front a ha
    rcases List.mem_append.mp hb with hin | hin
    · have := mem_segEntries hseg48 h.nonempty hin
      omega
    · have := hbehind b hin
      omega

/-- The first entry of those that are laid is the one of the start. -/
theorem WriteLaid.head {ex : DiskExtent} (hnil : front = [])
    (hex : (laidEntries front mid back taken restSegs start limit).head? = some ex) :
    ex.logical = start := by
  have hend := h.end_le
  have hlt48 := h.limit_lt
  subst hnil
  unfold laidEntries at hex
  cases htaken : taken with
  | cons s more =>
      rw [htaken] at hex
      obtain rfl := Option.some.inj hex
      exact diskExtent_logical _ (by omega)
  | nil =>
      have hrest : restSegs ≠ 0 := fun hzero => (h.whole hzero).1 htaken
      unfold tempHole at hex
      rw [htaken, if_neg hrest] at hex
      obtain rfl := Option.some.inj hex
      rw [totalCount_nil]
      exact diskExtent_logical _ (by omega)

/-- The leaf behind a write. -/
theorem WriteLaid.ok {out : Dleaf2} (hleaf : leaf.Ok entriesPerLeaf bottom keyLimit)
    (hne : leaf.count ≠ 0) (hentries : leaf.entries = front ++ (mid ++ back))
    (hlimit : limit ≤ keyLimit)
    (hout : out.entries = laidEntries front mid back taken restSegs start limit)
    (hmemory : out.table.length = entriesPerLeaf) (hcount : out.count ≤ entriesPerLeaf) :
    out.Ok entriesPerLeaf bottom keyLimit := by
  have hasc := hleaf.ascending
  rw [hentries] at hasc
  refine ⟨hmemory, hcount, hout ▸ h.ascending hasc, fun ex hex => ?_, fun ex hex => ?_⟩
  · rw [hout] at hex
    cases hfront : front with
    | nil =>
        rw [h.head hfront hex]
        have hlength := hleaf.entries_length
        rw [hentries, hfront, List.nil_append] at hlength
        cases hrest : mid ++ back with
        | nil =>
            rw [hrest] at hlength
            exact absurd hlength.symm hne
        | cons first rest =>
            have hfirst := hleaf.first first (by rw [hentries, hfront, hrest]; rfl)
            have hmem : first ∈ mid ++ back := hrest ▸ List.mem_cons_self
            rcases List.mem_append.mp hmem with hin | hin
            · exact Nat.le_trans (h.mid first hin).1 hfirst
            · have := h.back first hin
              have := h.end_le
              omega
    | cons f front' =>
        unfold laidEntries at hex
        rw [hfront] at hex
        refine hleaf.first ex ?_
        rw [hentries, hfront]
        exact hex
  · have hlast : (laidEntries front mid back taken restSegs start limit).getLast? =
        (diskExtent limit ((extentMap leaf.entries limit).getD 0) :: back).getLast? := by
      unfold laidEntries
      rw [hentries]
      simp [List.getLast?_append, List.getLast?_cons]
    rw [hout, hlast] at hex
    cases hback : back with
    | nil =>
        rw [hback] at hex
        have hnone : extentMap leaf.entries limit = none := by
          refine extentMap_behind hleaf fun e he => ?_
          have hend := h.end_le
          rw [hentries, hback, List.append_nil] at he
          rcases List.mem_append.mp he with hin | hin
          · have := h.front e hin
            omega
          · exact (h.mid e hin).2
        rw [hnone] at hex
        obtain rfl := Option.some.inj hex
        exact ⟨rfl, Nat.le_trans (Nat.le_of_eq (h.limit_logical 0)) hlimit⟩
    | cons b back' =>
        rw [hback, List.getLast?_cons_cons] at hex
        refine hleaf.last ex ?_
        rw [hentries, hback, List.getLast?_append, List.getLast?_append, hex]
        rfl

end WriteLaid

/-! ## `dleaf2_write` -/

theorem segsMap_lt {b : Nat} (hblocks : ∀ s ∈ segs, s.block + s.count ≤ 2 ^ 48) (hle : start ≤ x)
    (hx : x < start + totalCount segs) (h : segsMap start segs x = some b) : b < 2 ^ 48 := by
  induction segs generalizing start with
  | nil => cases h
  | cons s segs ih =>
      obtain ⟨hs, hrest⟩ := List.forall_mem_cons.mp hblocks
      unfold segsMap at h
      rw [totalCount_cons] at hx
      split at h
      · split at h
        · cases h
        · have := Option.some.inj h
          omega
      · exact ih hrest (by omega) (by omega) h

/-- The blocks of an overlay are in the volume. -/
theorem overlay_lt {map : Nat → Option Nat} {b : Nat} (hmap : ∀ x b, map x = some b → b < 2 ^ 48)
    (hblocks : ∀ s ∈ segs, s.block + s.count ≤ 2 ^ 48) (h : overlay map start segs limit x = some b) :
    b < 2 ^ 48 := by
  unfold overlay at h
  split at h
  · exact hmap x b h
  split at h
  · exact segsMap_lt hblocks (by omega) (by omega) h
  split at h
  · cases h
  · exact hmap x b h

/-- The segments in front of those that are left. -/
theorem DleafReq.Ok.taken_eq {out : DleafReq} {taken : List StateSegment}
    (hrq : rq.Ok) (hlt : rq.segIdx < rq.segCnt) (htaken : taken = rq.segs.take n)
    (hn : n ≤ rq.segs.length) (hseg : out.seg = rq.seg) (hidx : out.segIdx = rq.segIdx + n)
    (hcnt : out.segCnt = rq.segCnt) :
    rq.taken out = taken ∧ totalCount rq.segs = totalCount taken + totalCount out.segs := by
  obtain ⟨-, -, hlength⟩ := hrq.split (Nat.le_of_lt hlt)
  have hout : rq.taken out = taken := by
    unfold DleafReq.taken DleafReq.segs at *
    rw [htaken, hseg, hidx, Nat.add_sub_cancel_left, List.take_take, Nat.min_eq_left (by omega)]
  have hrest : out.segs = rq.segs.drop n := by
    unfold DleafReq.segs
    rw [hseg, hidx, hcnt, List.drop_take, List.drop_drop, Nat.sub_sub]
  refine ⟨hout, ?_⟩
  rw [hrest, htaken, ← totalCount_append, List.take_append_drop]

section Write

variable {segAlloc : Nat → DleafReq → Nat → Except TuxError (DleafReq × Int)} {calls : Nat}

/-- The filters of the entries in front of a range and behind it. -/
theorem outside_eq (hfront : ∀ ex ∈ front, ex.logical < start)
    (hmid : ∀ ex ∈ mid, start ≤ ex.logical ∧ ex.logical ≤ limit)
    (hback : ∀ ex ∈ back, limit < ex.logical) (hlt : start < limit) :
    (front ++ (mid ++ back)).filter (fun ex => decide (ex.logical < start)) = front ∧
      (front ++ (mid ++ back)).filter (fun ex => decide (limit < ex.logical)) = back := by
  have hkeep : ∀ {l : List DiskExtent} {p : DiskExtent → Prop} [DecidablePred p],
      (∀ ex ∈ l, p ex) → l.filter (fun ex => decide (p ex)) = l := fun h =>
    List.filter_eq_self.mpr fun ex hex => decide_eq_true (h ex hex)
  have hdrop : ∀ {l : List DiskExtent} {p : DiskExtent → Prop} [DecidablePred p],
      (∀ ex ∈ l, ¬p ex) → l.filter (fun ex => decide (p ex)) = [] := fun h =>
    List.filter_eq_nil_iff.mpr fun ex hex => by
      rw [decide_eq_false (h ex hex)]
      exact Bool.false_ne_true
  constructor
  · rw [List.filter_append, List.filter_append, hkeep hfront,
      hdrop fun ex hex => Nat.not_lt_of_le (hmid ex hex).1,
      hdrop fun ex hex => by
        have := hback ex hex
        omega, List.nil_append, List.append_nil]
  · rw [List.filter_append, List.filter_append, hkeep hback,
      hdrop fun ex hex => Nat.not_lt_of_le (hmid ex hex).2,
      hdrop fun ex hex => by
        have := hfront ex hex
        omega, List.nil_append, List.nil_append]

/-- The end of a write, with blocks for all segments of the request. -/
theorem writeExtents_ok {rq' : DleafReq} (hleaf : leaf.Ok entriesPerLeaf bottom keyLimit)
    (hne : leaf.count ≠ 0) (hvolume : ∀ x b, extentMap leaf.entries x = some b → b < 2 ^ 48)
    (hentries : leaf.entries = front ++ (mid ++ back))
    (hfront : ∀ ex ∈ front, ex.logical < key.start)
    (hmid : ∀ ex ∈ mid, key.start ≤ ex.logical ∧ ex.logical ≤ key.start + key.len)
    (hback : ∀ ex ∈ back, key.start + key.len < ex.logical)
    (hlimit : key.start + key.len ≤ keyLimit) (hlt48 : key.start + key.len < 2 ^ 48)
    (hlen : key.len = totalCount rq.segs) (halloc : SegAllocOk rq rq' 0) {restSegs : Nat}
    (hrest : restSegs =
      rq.segCnt - rq.segIdx + 1 + front.length + back.length - entriesPerLeaf)
    (hfit : restSegs ≠ 0 → restSegs < rq.segCnt - rq.segIdx) :
    ∃ out, writeExtents leaf rq' key front.length mid.length
        ((extentMap leaf.entries (key.start + key.len)).getD 0)
        (rq.segCnt - rq.segIdx + 1 + front.length + back.length - restSegs)
        (rq.segCnt - rq.segIdx - restSegs) (if restSegs = 0 then 0 else restSegs + 1) = .ok out ∧
      WriteOk entriesPerLeaf bottom keyLimit leaf rq key out := by
  obtain ⟨hrq, hidxlt⟩ := halloc.ok (Int.le_refl 0)
  have hblocks := halloc.blocks (Int.le_refl 0)
  obtain ⟨hcnt, htotal⟩ := halloc.whole rfl
  have hidx := halloc.segIdx
  obtain ⟨hseg, hpre, hlength⟩ := hrq.split (Nat.le_of_lt hidxlt)
  obtain ⟨junk, htable, hjunk⟩ := hleaf.table_eq
  have hcount := hleaf.entries_length
  rw [hentries, List.length_append, List.length_append] at hcount
  rw [hentries, List.append_assoc, List.append_assoc] at htable
  generalize hwidth : rq.segCnt - rq.segIdx = width at *
  have hwidth' : rq'.segs.length = width := by omega
  generalize hr : (if restSegs = 0 then 0 else restSegs + 1) = r
  obtain ⟨n, hn, hnle⟩ : ∃ n, n = width - r ∧ n ≤ rq'.segs.length := ⟨_, rfl, by omega⟩
  -- the place of the hole
  obtain ⟨holes, hholes, hcases⟩ : ∃ holes, (∀ x, (tempHole r x).length = holes) ∧
      (restSegs = 0 ∧ r = 0 ∧ holes = 0 ∨ restSegs ≠ 0 ∧ r = restSegs + 1 ∧ holes = 1) := by
    refine ⟨_, tempHole_length r, ?_⟩
    by_cases hzero : restSegs = 0
    · rw [if_pos hzero] at hr
      exact .inl ⟨hzero, hr.symm, if_pos hr.symm⟩
    · rw [if_neg hzero] at hr
      exact .inr ⟨hzero, hr.symm, if_neg (by omega)⟩
  have htakelen : (rq'.segs.take n).length = n := List.length_take_of_le hnle
  have hsplit : rq'.seg = rq'.seg.take rq'.segIdx ++ (rq'.segs.take n ++
      (rq'.segs.drop n ++ rq'.seg.drop rq'.segCnt)) := by
    rw [← List.append_assoc (rq'.segs.take n), List.take_append_drop, ← List.append_assoc]
    exact hseg
  have hparts : totalCount rq'.segs =
      totalCount (rq'.segs.take n) + totalCount (rq'.segs.drop n) := by
    rw [← totalCount_append, List.take_append_drop]
  have hlaid : WriteLaid front mid back (rq'.segs.take n) r key.start (key.start + key.len) := by
    refine ⟨hfront, hmid, hback, hlt48, fun s hs => hrq.nonempty s (List.mem_of_mem_take hs),
      fun s hs => ?_, fun hzero => ?_, fun hpos => ?_⟩
    · have := hblocks s (List.mem_of_mem_take hs)
      have := hrq.nonempty s (List.mem_of_mem_take hs)
      omega
    · have hall : n = rq'.segs.length := by
        rw [hn, hwidth', hzero]
        rfl
      rw [hall, List.take_length, htotal, ← hlen]
      refine ⟨fun hnil => ?_, rfl⟩
      rw [hnil, List.length_nil] at hwidth'
      omega
    · have hlast : rq'.segs.drop n ≠ [] := by
        intro hnil
        have := List.drop_eq_nil_iff.mp hnil
        omega
      obtain ⟨s, more, hdrop⟩ := List.exists_cons_of_ne_nil hlast
      have hpos := hrq.nonempty s (List.mem_of_mem_drop (hdrop ▸ List.mem_cons_self))
      rw [hdrop, totalCount_cons] at hparts
      omega
  have hneed : width + 1 + front.length + back.length - restSegs =
      front.length + (width - restSegs + 1 + back.length) := by omega
  obtain ⟨out, junk', hrun, hout, hjunk', houtrq, houtkey, hret, -⟩ := @writeExtents_spec leaf front
    mid back junk rq' key _ (rq'.segs.take n) _
    ((extentMap leaf.entries (key.start + key.len)).getD 0)
    (width + 1 + front.length + back.length - restSegs) (width - restSegs) r htable hcount.symm
    hsplit hpre.symm (by rw [htakelen]; omega) (by rw [htakelen, hholes]; omega) hneed
    (by omega)
  have hentries' : out.leaf.entries =
      laidEntries front mid back (rq'.segs.take n) r key.start (key.start + key.len) := by
    rw [hout]
    refine @entries_of_table _ _ junk' _ ?_ ?_
    · unfold laidEntries
      rw [hentries]
      simp only [List.append_assoc, List.cons_append]
    · unfold laidEntries
      rw [List.length_append, List.length_append, List.length_append, List.length_cons,
        segEntries_length, hholes, htakelen, hneed]
      omega
  have hmemory : out.leaf.table.length = entriesPerLeaf := by
    rw [hout]
    simp only [List.length_append, List.length_cons, segEntries_length, hholes, htakelen]
    omega
  have hok : out.leaf.Ok entriesPerLeaf bottom keyLimit := by
    refine hlaid.ok hleaf hne hentries hlimit hentries' hmemory ?_
    rw [hout]
    dsimp only
    omega
  have hmap := hlaid.extentMap_eq (hentries ▸ hvolume _)
  rw [← hentries', ← hentries] at hmap
  obtain ⟨htaken, hleft⟩ := @DleafReq.Ok.taken_eq rq' n out.rq (rq'.segs.take n) hrq hidxlt rfl hnle
    (by rw [houtrq]) (by rw [houtrq, htakelen]) (by rw [houtrq])
  have hsame : rq.taken out.rq = rq'.segs.take n := by
    rw [← htaken]
    unfold DleafReq.taken
    rw [hidx]
  have hstart : out.key.start = key.start + totalCount (rq'.segs.take n) := by rw [houtkey]
  have hkeylen : out.key.len = key.len - totalCount (rq'.segs.take n) := by rw [houtkey]
  have hend := hlaid.end_le
  refine ⟨out, hrun, hok, fun x b hb => ?_, by rw [hsame, hstart], by omega, fun _ => by omega,
    .inl ⟨?_, ?_⟩⟩
  · rw [hmap] at hb
    exact overlay_lt hvolume (fun s hs => hblocks s (List.mem_of_mem_take hs)) hb
  · by_cases hzero : r = 0
    · have := (hlaid.whole hzero).2
      rw [if_pos hzero] at hret
      exact .inl ⟨hret, by omega⟩
    · have := hlaid.left hzero
      rw [if_neg hzero] at hret
      exact .inr ⟨hret, by omega⟩
  · refine hok.reads_iff.mpr fun x _ _ => ?_
    have hlast : out.key.start + out.key.len = key.start + key.len := by omega
    rw [hmap, hsame, hlast]

theorem exists_noRoomHint (hleaf : leaf.Ok entriesPerLeaf bottom keyLimit) :
    ∃ hint, noRoomHint leaf n start = .ok hint := by
  have hmax := hleaf.count_le
  have hmemory := hleaf.memory
  unfold noRoomHint
  split
  · obtain ⟨ex, hex⟩ := @exists_getExtent leaf.table (n + 1) (by omega)
    exact ⟨ex.logical, by rw [bind_of_ok hex]; rfl⟩
  · exact ⟨start, rfl⟩

theorem taken_self {out : DleafReq} (hidx : out.segIdx = rq.segIdx) : rq.taken out = [] := by
  unfold DleafReq.taken
  rw [hidx, Nat.sub_self, List.take_zero]

section Loop

variable (halloc : SegAllocs segAlloc) (hleaf : leaf.Ok entriesPerLeaf bottom keyLimit)
  (hne : leaf.count ≠ 0) (hvolume : ∀ x b, extentMap leaf.entries x = some b → b < 2 ^ 48)
include halloc hleaf hne hvolume

/-- One turn: the write is done, or the allocation was partial. -/
theorem dleaf2WriteLoop_turn (fuel : Nat) (hbottom : bottom ≤ key.start)
    (hlimit : key.start + key.len ≤ keyLimit) (hlt48 : key.start + key.len < 2 ^ 48)
    (hlt32 : key.len < 2 ^ 32) (hrq : rq.Ok) (hidx : rq.segIdx < rq.segCnt)
    (hlen : key.len = totalCount rq.segs) :
    (∃ out, dleaf2WriteLoop entriesPerLeaf bottom segAlloc (fuel + 1) calls leaf rq key = .ok out ∧
      WriteOk entriesPerLeaf bottom keyLimit leaf rq key out) ∨
    ∃ rq' ret writeSegs, segAlloc calls rq writeSegs = .ok (rq', ret) ∧ 0 < ret ∧
      SegAllocOk rq rq' ret ∧
      dleaf2WriteLoop entriesPerLeaf bottom segAlloc (fuel + 1) calls leaf rq key =
        dleaf2WriteLoop entriesPerLeaf bottom segAlloc fuel (calls + 1) leaf rq'
          ⟨key.start, segTotalCount rq'.segs⟩ := by
  obtain ⟨-, -, hlength⟩ := hrq.split (Nat.le_of_lt hidx)
  have hlenpos : 0 < key.len := by
    have hsome : rq.segs ≠ [] := fun hnil => by
      rw [hnil, List.length_nil] at hlength
      omega
    obtain ⟨s, more, hsegs⟩ := List.exists_cons_of_ne_nil hsome
    have hpos := hrq.nonempty s (hsegs ▸ List.mem_cons_self)
    rw [hlen, hsegs, totalCount_cons]
    omega
  have htotal : key.len = segTotalCount rq.segs := by
    unfold segTotalCount
    rw [← hlen, Nat.mod_eq_of_lt hlt32]
  have hinit : dleaf2InitSentinel leaf bottom = .ok leaf := if_neg hne
  obtain ⟨front, rest, hentries, hfront, hrest, hdexStart⟩ := findStart_spec hleaf hne hbottom
  obtain ⟨mid, back, rfl, hmidle, hback, hdexEnd⟩ := findEnd_spec hleaf hne hbottom
    (Nat.lt_add_of_pos_right hlenpos) hentries hfront
  have hmid : ∀ ex ∈ mid, key.start ≤ ex.logical ∧ ex.logical ≤ key.start + key.len :=
    fun ex hex => ⟨hrest ex (List.mem_append_left _ hex), hmidle ex hex⟩
  rw [dleaf2WriteLoop, bind_of_ok (tuxAssert_of htotal), bind_of_ok hinit]
  dsimp only
  rw [bind_of_ok hdexStart, bind_of_ok hdexEnd]
  dsimp only
  generalize hexcess : rq.segCnt - rq.segIdx + 1 + front.length + back.length - entriesPerLeaf = excess
  by_cases hroom : excess ≠ 0 ∧ rq.segCnt - rq.segIdx ≤ excess
  · left
    obtain ⟨hint, hhint⟩ := @exists_noRoomHint leaf entriesPerLeaf bottom key.start keyLimit
      front.length hleaf
    rw [if_pos hroom, bind_of_ok hhint]
    refine ⟨_, rfl, hleaf, hvolume, ?_, Nat.le_refl _, fun _ => hlen,
      .inr ⟨.inl ⟨rfl, ?_⟩, rfl, hleaf.reads_iff.mpr fun _ _ _ => rfl⟩⟩
    · rw [taken_self rfl]
      rfl
    · obtain ⟨hbelow, habove⟩ := outside_eq hfront hmid hback (Nat.lt_add_of_pos_right hlenpos)
      unfold NoRoom
      dsimp only
      rw [hentries, hbelow, habove]
      omega
  rw [if_neg hroom]
  obtain ⟨rq', ret, hcall, hret⟩ := halloc calls rq (rq.segCnt - rq.segIdx - excess) hrq (by omega)
    (by omega)
  rw [bind_of_ok hcall]
  dsimp only
  rcases Int.lt_trichotomy ret 0 with hneg | rfl | hpos
  · left
    rw [if_pos hneg, bind_of_ok (tuxAssert_of hret.enospc)]
    refine ⟨_, rfl, hleaf, hvolume, ?_, Nat.le_refl _, fun hge => absurd hneg (Int.not_lt.mpr hge),
      .inr ⟨.inr hneg, hret.segIdx, hleaf.reads_iff.mpr fun _ _ _ => rfl⟩⟩
    rw [taken_self hret.segIdx]
    rfl
  · left
    rw [if_neg (Int.lt_irrefl 0), if_neg (not_not.mpr rfl)]
    exact writeExtents_ok hleaf hne hvolume hentries hfront hmid hback hlimit hlt48 hlen hret
      hexcess.symm (by omega)
  · right
    refine ⟨rq', ret, _, hcall, hpos, hret, ?_⟩
    rw [if_neg (by omega), if_pos (by omega)]

/-- A write of a leaf that has a sentinel, from a call of `seg_alloc` on. -/
theorem dleaf2WriteLoop_ok
    (hstop : ∀ rq writeSegs out ret, segAlloc (calls + n) rq writeSegs = .ok (out, ret) → ret ≤ 0)
    (hbottom : bottom ≤ key.start) (hlimit : key.start + key.len ≤ keyLimit)
    (hlt48 : key.start + key.len < 2 ^ 48) (hlt32 : key.len < 2 ^ 32) (hrq : rq.Ok)
    (hidx : rq.segIdx < rq.segCnt) (hlen : key.len = totalCount rq.segs) :
    ∃ out, dleaf2WriteLoop entriesPerLeaf bottom segAlloc (n + 1) calls leaf rq key = .ok out ∧
      WriteOk entriesPerLeaf bottom keyLimit leaf rq key out := by
  induction n generalizing calls rq key with
  | zero =>
      rcases dleaf2WriteLoop_turn halloc hleaf hne hvolume 0 hbottom hlimit hlt48 hlt32 hrq hidx
        hlen with hdone | ⟨rq', ret, writeSegs, hcall, hpos, -, -⟩
      · exact hdone
      · have := hstop rq writeSegs rq' ret hcall
        omega
  | succ n ih =>
      rcases dleaf2WriteLoop_turn halloc hleaf hne hvolume (n + 1) hbottom hlimit hlt48 hlt32 hrq
        hidx hlen with hdone | ⟨rq', ret, writeSegs, hcall, hpos, hret, hagain⟩
      · exact hdone
      obtain ⟨hrq', hidx'⟩ := hret.ok (Int.le_of_lt hpos)
      have hshorter := hret.shorter hpos
      have htotal : segTotalCount rq'.segs = totalCount rq'.segs :=
        Nat.mod_eq_of_lt (by omega)
      obtain ⟨out, hrun, hout⟩ := @ih rq' ⟨key.start, segTotalCount rq'.segs⟩ (calls + 1)
        (fun rq writeSegs out ret hcall => hstop rq writeSegs out ret
          (by rw [← Nat.add_assoc, Nat.add_right_comm]; exact hcall)) hbottom
        (by dsimp only; omega) (by dsimp only; omega) (by dsimp only; omega) hrq' hidx' htotal
      have hsame : rq'.taken out.rq = rq.taken out.rq := by
        unfold DleafReq.taken
        rw [hret.segIdx]
      have hstart := hout.start
      have hinside := hout.inside
      have hresult := hout.result
      rw [hsame] at hstart hresult
      rw [hret.segIdx] at hresult
      dsimp only at hinside
      exact ⟨out, hagain.trans hrun, hout.ok, hout.volume, hstart, by omega, hout.left, hresult⟩

end Loop

/-- The sentinel of a leaf that has no entries. -/
theorem exists_initSentinel (hleaf : leaf.Ok entriesPerLeaf bottom keyLimit)
    (hentries : 0 < entriesPerLeaf) (hempty : leaf.count = 0) (hbottom : bottom < 2 ^ 48)
    (hlimit : bottom ≤ keyLimit) :
    ∃ init, dleaf2InitSentinel leaf bottom = .ok init ∧ init.count ≠ 0 ∧
      extentMap init.entries = extentMap leaf.entries ∧
      init.Ok entriesPerLeaf bottom keyLimit := by
  have hmemory := hleaf.memory
  have hlogical := diskExtent_logical 0 hbottom
  obtain ⟨old, rest, htable⟩ := List.exists_cons_of_length_pos (hmemory ▸ hentries)
  have hput : putExtent leaf.table 0 bottom 0 = .ok (diskExtent bottom 0 :: rest) := by
    rw [htable]
    exact @putExtent_append [] rest old 0 bottom 0 rfl
  have hnew : (Dleaf2.mk 1 (diskExtent bottom 0 :: rest)).entries = [diskExtent bottom 0] := rfl
  have hok : (Dleaf2.mk 1 (diskExtent bottom 0 :: rest)).Ok entriesPerLeaf bottom keyLimit := by
    refine @Dleaf2.Ok.of_entries _ [] _ _ _ _ hnew ?_ hentries (List.pairwise_singleton _ _)
      (fun ex hex => ?_) rfl (Nat.le_trans (Nat.le_of_eq hlogical) hlimit)
    · rw [htable] at hmemory
      exact hmemory
    · obtain rfl := Option.some.inj hex
      exact Nat.le_of_eq hlogical
  refine ⟨_, ?_, Nat.one_ne_zero, funext fun x => ?_, hok⟩
  · unfold dleaf2InitSentinel
    rw [if_pos hempty, bind_of_ok hput]
    rfl
  · rw [extentMap_few hok (Nat.le_refl _), extentMap_few hleaf (hempty ▸ Nat.zero_le _)]

/-- `dleaf2_write`, and the reads of a leaf. -/
theorem dleaf2Write_ok (halloc : SegAllocs segAlloc)
    (hstop : ∀ rq writeSegs out ret, segAlloc n rq writeSegs = .ok (out, ret) → ret ≤ 0)
    (hleaf : leaf.Ok entriesPerLeaf bottom keyLimit) (hentries : 0 < entriesPerLeaf)
    (hvolume : ∀ x b, extentMap leaf.entries x = some b → b < 2 ^ 48)
    (hbottom : bottom ≤ key.start) (hlimit : key.start + key.len ≤ keyLimit)
    (hlt48 : key.start + key.len < 2 ^ 48) (hlt32 : key.len < 2 ^ 32) (hrq : rq.Ok)
    (hidx : rq.segIdx < rq.segCnt) (hlen : key.len = totalCount rq.segs) :
    (∃ out, dleaf2Write entriesPerLeaf bottom segAlloc n leaf rq key = .ok out ∧
      WriteOk entriesPerLeaf bottom keyLimit leaf rq key out) ∧
    leaf.Reads bottom keyLimit (extentMap leaf.entries) := by
  refine ⟨?_, hleaf.reads_iff.mpr fun _ _ _ => rfl⟩
  have hstop' : ∀ rq writeSegs out ret, segAlloc (0 + n) rq writeSegs = .ok (out, ret) →
      ret ≤ 0 := by
    rw [Nat.zero_add]
    exact hstop
  by_cases hne : leaf.count = 0
  swap
  · exact dleaf2WriteLoop_ok halloc hleaf hne hvolume hstop' hbottom hlimit hlt48 hlt32 hrq hidx
      hlen
  -- a leaf without entries gets its sentinel first
  obtain ⟨init, hinit, hcount, hsame, hok⟩ := exists_initSentinel hleaf hentries hne
    (by omega : bottom < 2 ^ 48) (by omega : bottom ≤ keyLimit)
  have htotal : key.len = segTotalCount rq.segs := by
    unfold segTotalCount
    rw [← hlen, Nat.mod_eq_of_lt hlt32]
  have hagain : dleaf2InitSentinel init bottom = .ok init := if_neg hcount
  have heq : dleaf2WriteLoop entriesPerLeaf bottom segAlloc (n + 1) 0 leaf rq key =
      dleaf2WriteLoop entriesPerLeaf bottom segAlloc (n + 1) 0 init rq key := by
    rw [dleaf2WriteLoop, dleaf2WriteLoop, bind_of_ok (tuxAssert_of htotal),
      bind_of_ok (tuxAssert_of htotal), bind_of_ok hinit, bind_of_ok hagain]
  obtain ⟨out, hrun, hout⟩ := dleaf2WriteLoop_ok halloc hok hcount (hsame ▸ hvolume) hstop' hbottom
    hlimit hlt48 hlt32 hrq hidx hlen
  have hresult := hout.result
  rw [hsame] at hresult
  exact ⟨out, heq.trans hrun, hout.ok, hout.volume, hout.start, hout.inside, hout.left, hresult⟩

end Write

end

/-- Segments that have their blocks already; others get none. -/
def givenBlocks (_ : Nat) (rq : DleafReq) (_ : Nat) : Except TuxError (DleafReq × Int) :=
  if rq.segs.all fun s => decide (s.block ≠ 0 ∧ s.block + s.count ≤ 2 ^ 48) then .ok (rq, 0)
  else .ok (rq, -5)

theorem givenBlocks_allocs : SegAllocs givenBlocks := by
  intro k rq writeSegs hrq hpos hle
  unfold givenBlocks
  split
  · rename_i hall
    refine ⟨rq, 0, rfl, by decide, rfl, fun _ => ⟨hrq, by omega⟩, fun _ s hs => ?_,
      fun _ => ⟨rfl, rfl⟩, fun hlt => absurd hlt (Int.lt_irrefl 0)⟩
    exact (of_decide_eq_true (List.all_eq_true.mp hall s hs)).2
  · exact ⟨rq, -5, rfl, by decide, rfl, fun hge => absurd hge (by decide),
      fun hge => absurd hge (by decide), fun heq => absurd heq (by decide),
      fun hlt => absurd hlt (by decide)⟩

/-- Two segments for the blocks 2 to 4. -/
def twoSegs : DleafReq where
  segIdx := 0
  segCnt := 2
  segMax := 2
  seg := [⟨20, 1, 0⟩, ⟨30, 2, 0⟩]

theorem twoSegs_ok : twoSegs.Ok := ⟨rfl, Nat.le_refl _, by decide⟩

/-- A write into two extents: both are cut, and the second one goes on at block 10. -/
theorem dleaf2Write_ok_twoSegs :
    dleaf2Write 6 0 givenBlocks 0 leafAt0 twoSegs ⟨2, 3⟩ = .ok ⟨0,
      ⟨5, [diskExtent 0 5, diskExtent 2 20, diskExtent 3 30, diskExtent 5 10, diskExtent 6 0,
        diskExtent 0 0]⟩, { twoSegs with segIdx := 2 }, ⟨5, 0⟩, none⟩ ∧
      ∃ out, dleaf2Write 6 0 givenBlocks 0 leafAt0 twoSegs ⟨2, 3⟩ = .ok out ∧
        WriteOk 6 0 8 leafAt0 twoSegs ⟨2, 3⟩ out := by
  refine ⟨rfl, (dleaf2Write_ok givenBlocks_allocs ?_ leafAt0_ok (by decide) ?_ (by decide)
    (by decide) (by decide) (by decide) twoSegs_ok (by decide) rfl).1⟩
  · intro rq writeSegs out ret hcall
    unfold givenBlocks at hcall
    split at hcall
    · obtain ⟨-, rfl⟩ := Prod.mk.inj (Except.ok.inj hcall)
      decide
    · obtain ⟨-, rfl⟩ := Prod.mk.inj (Except.ok.inj hcall)
      decide
  · intro x b hb
    rcases Nat.lt_or_ge x 6 with hlt | hge
    · have hsmall : ∀ x < 6, ∀ b ∈ extentMap leafAt0.entries x, b < 2 ^ 48 := by decide
      exact hsmall x hlt b hb
    · have hnone := @extentMap_sentinel [diskExtent 0 5, diskExtent 4 9] (diskExtent 6 0) x hge rfl
      exact absurd (hb.symm.trans hnone) (Option.some_ne_none _)

/-- A leaf that is full: three entries. -/
def fullLeaf : Dleaf2 := ⟨3, [diskExtent 0 5, diskExtent 4 9, diskExtent 6 0]⟩

/-- Where there is no room for a segment nothing is written: block 1 is the one it was. -/
theorem dleaf2Write_noRoom : fullLeaf.Ok 3 0 8 ∧
    dleaf2Write 3 0 givenBlocks 0 fullLeaf ⟨0, 1, 1, [⟨20, 1, 0⟩]⟩ ⟨1, 1⟩ =
      .ok ⟨1, fullLeaf, ⟨0, 1, 1, [⟨20, 1, 0⟩]⟩, ⟨1, 1⟩, some 1⟩ ∧
    ¬fullLeaf.Reads 0 8 (overlay (extentMap fullLeaf.entries) 1 [] 2) := by
  have hok : fullLeaf.Ok 3 0 8 := by
    refine ⟨rfl, by decide, by unfold Ascending; decide, fun ex hex => ?_, fun ex hex => ?_⟩
    · obtain rfl := Option.some.inj hex
      decide
    · obtain rfl := Option.some.inj hex
      decide
  refine ⟨hok, rfl, fun hreads => ?_⟩
  have hread := hok.reads_iff.mp hreads 1 (by decide) (by decide)
  have hmap : extentMap fullLeaf.entries 1 = some 6 := rfl
  rw [hmap] at hread
  exact absurd hread (Option.some_ne_none _)

end Tux3
