/-
  Filemap/Dleaf2Read.lean --- reads of a leaf of the file index.

  A read makes a segment of each entry that meets its range, up to the end of `seg[]`, and a hole
  of what is behind the sentinel.
-/
import Tux3.Filemap.Dleaf2
import Tux3.Filemap.Hole

set_option autoImplicit false

namespace Tux3

open Outcome (bind_of_ok)
open StepTable (Ascending)

/-! ## The code -/

/-- `struct btree_key_range`. -/
structure BtreeKeyRange where
  start : Nat
  len : Nat
  deriving DecidableEq, Repr

/-- The physical block of an entry at a logical address, zero in a hole. -/
def DiskExtent.blockAt (ex : DiskExtent) (x : Nat) : Nat :=
  if ex.physical = 0 then 0 else ex.physical + (x - ex.logical)

theorem DiskExtent.blockAt_logical (ex : DiskExtent) : ex.blockAt ex.logical = ex.physical := by
  unfold DiskExtent.blockAt
  split
  · rename_i hhole
    exact hhole.symm
  · rw [Nat.sub_self, Nat.add_zero]

/-- A store to the next place of `seg[]`. -/
def fillSeg (rq : DleafReq) (key : BtreeKeyRange) (physical count : Nat) :
    Except TuxError (DleafReq × BtreeKeyRange) := do
  let seg ← writeSeg rq.seg rq.segIdx
    ⟨physical, count, if physical = 0 then blockSegHole else 0⟩
  return ({ rq with segIdx := rq.segIdx + 1, seg := seg },
    ⟨key.start + count, key.len - count⟩)

/-- The loop of `dleaf2_read`. -/
def readLoop (leaf : Dleaf2) :
    Nat → Nat → Nat → DleafReq → BtreeKeyRange → Except TuxError (DleafReq × BtreeKeyRange)
  | 0, _, _, _, _ => .error .fuel
  | fuel + 1, dex, physical, rq, key => do
      let next ← getExtent leaf.table dex
      let (rq, key) ← fillSeg rq key physical
        (min key.len ((next.logical + 2 ^ 64 - key.start) % 2 ^ 64))
      if key.len ≠ 0 ∧ rq.segIdx < rq.segMax ∧ dex + 1 < leaf.count
      then readLoop leaf fuel (dex + 1) next.physical rq key
      else return (rq, key)

/-- The end of `dleaf2_read`: between the sentinel and the limit is a hole. -/
def fillLast (keyLimit : Nat) (rq : DleafReq) (key : BtreeKeyRange) :
    Except TuxError (DleafReq × BtreeKeyRange) :=
  if key.start < keyLimit ∧ key.len ≠ 0 ∧ rq.segIdx < rq.segMax
  then fillSeg rq key 0 (min key.len (keyLimit - key.start))
  else .ok (rq, key)

/-- The check of the sentinel. -/
def checkSentinel (leaf : Dleaf2) (dex : Nat) : Except TuxError Unit :=
  if dex < leaf.count then do
    let next ← getExtent leaf.table (leaf.count - 1)
    tuxAssert (next.physical = 0)
  else .ok ()

/-- `dleaf2_read`. -/
def dleaf2Read (keyLimit : Nat) (leaf : Dleaf2) (rq : DleafReq) (key : BtreeKeyRange) :
    Except TuxError (DleafReq × BtreeKeyRange) :=
  if rq.segMax ≤ rq.segIdx then return (rq, key)
  else do
    let dex ← dleaf2LookupIndex leaf key.start
    if leaf.count ≤ dex + 1 then do
      let () ← checkSentinel leaf dex
      fillLast keyLimit rq key
    else do
      let ex ← getExtent leaf.table dex
      let (rq, key) ← readLoop leaf leaf.count (dex + 1) (ex.blockAt key.start) rq key
      fillLast keyLimit rq key

/-! ## Parts of a read -/

/-- The segments of a part of a read: they follow those that were there, and map the range that the
part takes off the key. -/
structure ReadPart (map : Nat → Option Nat) (rq : DleafReq) (key : BtreeKeyRange)
    (out : DleafReq) (key' : BtreeKeyRange) (segs : List StateSegment) : Prop where
  memory : out.seg.length = rq.seg.length
  done : out.seg.take out.segIdx = rq.seg.take rq.segIdx ++ segs
  segIdx : out.segIdx = rq.segIdx + segs.length
  segCnt : out.segCnt = rq.segCnt
  segMax : out.segMax = rq.segMax
  start : key'.start = key.start + totalCount segs
  len : key.len = totalCount segs + key'.len
  nonempty : ∀ s ∈ segs, 0 < s.count
  blocks : rangeBlocks segs = (List.range' key.start (totalCount segs)).map map

/-- What a read is to return: all of the range up to the limit, unless `seg[]` is full. -/
structure ReadOk (map : Nat → Option Nat) (keyLimit : Nat) (rq : DleafReq)
    (key : BtreeKeyRange) (out : DleafReq) (key' : BtreeKeyRange) (segs : List StateSegment) :
    Prop extends ReadPart map rq key out key' segs where
  segMax_le : out.segIdx ≤ rq.segMax
  inside : totalCount segs ≤ keyLimit - key.start
  covers : totalCount segs = min key.len (keyLimit - key.start) ∨ out.segIdx = rq.segMax

section

variable {map map' : Nat → Option Nat} {leaf : Dleaf2} {front back rest entries : List DiskExtent} {ex next : DiskExtent}
  {entriesPerLeaf bottom limit : Nat} {rq rq' rq'' : DleafReq} {key key' key'' : BtreeKeyRange}
  {segs segs' : List StateSegment}

namespace ReadPart

theorem refl (map : Nat → Option Nat) (rq : DleafReq) (key : BtreeKeyRange) :
    ReadPart map rq key rq key [] where
  memory := rfl
  done := (List.append_nil _).symm
  segIdx := rfl
  segCnt := rfl
  segMax := rfl
  start := rfl
  len := (Nat.zero_add _).symm
  nonempty := fun _ hs => absurd hs List.not_mem_nil
  blocks := rfl

theorem trans (h : ReadPart map rq key rq' key' segs)
    (h' : ReadPart map rq' key' rq'' key'' segs') :
    ReadPart map rq key rq'' key'' (segs ++ segs') where
  memory := h'.memory.trans h.memory
  done := by rw [h'.done, h.done, List.append_assoc]
  segIdx := by rw [h'.segIdx, h.segIdx, List.length_append, Nat.add_assoc]
  segCnt := h'.segCnt.trans h.segCnt
  segMax := h'.segMax.trans h.segMax
  start := by rw [h'.start, h.start, totalCount_append, Nat.add_assoc]
  len := by rw [h.len, h'.len, totalCount_append, Nat.add_assoc]
  nonempty := by
    intro s hs
    rcases List.mem_append.mp hs with hin | hin
    · exact h.nonempty s hin
    · exact h'.nonempty s hin
  blocks := by
    rw [rangeBlocks_append, h.blocks, h'.blocks, h.start, totalCount_append,
      ← List.range'_append_1, List.map_append]

end ReadPart

/-- A segment is added. -/
theorem fillSeg_part {physical count : Nat} (hroom : rq.segIdx < rq.seg.length) (hpos : 0 < count)
    (hle : count ≤ key.len)
    (hmap : ∀ i < count, map (key.start + i) = if physical = 0 then none else some (physical + i)) :
    ∃ out key' seg, fillSeg rq key physical count = .ok (out, key') ∧
      ReadPart map rq key out key' [seg] ∧ seg.count = count := by
  refine ⟨{ rq with
      segIdx := rq.segIdx + 1
      seg := rq.seg.set rq.segIdx ⟨physical, count, if physical = 0 then blockSegHole else 0⟩ },
    ⟨key.start + count, key.len - count⟩,
    ⟨physical, count, if physical = 0 then blockSegHole else 0⟩, ?_, ?_, rfl⟩
  · unfold fillSeg writeSeg
    rw [if_pos hroom]
    rfl
  · refine ⟨List.length_set, ?_, rfl, rfl, rfl, ?_, ?_, ?_, ?_⟩
    · show (rq.seg.set _ _).take (rq.segIdx + 1) = _
      rw [List.take_add_one, List.take_set_of_le (Nat.le_refl _), List.getElem?_set_self hroom]
      rfl
    · rw [totalCount_cons, totalCount_nil]
      rfl
    · rw [totalCount_cons, totalCount_nil]
      exact (Nat.add_sub_cancel' hle).symm
    · exact fun s hs => List.mem_singleton.mp hs ▸ hpos
    · rw [rangeBlocks_cons, totalCount_cons, totalCount_nil, Nat.add_zero,
        List.range'_eq_map_range, List.map_map]
      refine (List.append_nil _).trans ?_
      unfold StateSegment.blocks
      refine List.map_congr_left fun i hi => ?_
      rw [Function.comp_apply, hmap i (List.mem_range.mp hi)]
      by_cases hhole : physical = 0
      · rw [if_pos hhole, if_pos hhole, if_pos rfl]
      · rw [if_neg hhole, if_neg hhole]
        exact if_neg Nat.zero_ne_one

/-! ## The loop -/

/-- The block at which a read begins in an entry. -/
theorem blockAt_map {x i : Nat} (hle : ex.logical ≤ x) (hback : ∀ b ∈ back, x + i < b.logical) :
    extentMap (front ++ ex :: back) (x + i) =
      if ex.blockAt x = 0 then none else some (ex.blockAt x + i) := by
  rw [extentMap_split (Nat.le_trans hle (Nat.le_add_right _ _)) hback]
  unfold DiskExtent.blockAt
  by_cases hhole : ex.physical = 0
  · rw [if_pos hhole, if_pos hhole, if_pos rfl]
  · rw [if_neg hhole, if_neg hhole, if_neg (by omega)]
    congr 1
    omega

/-- The loop, from the entry in front of `next` on: the range ends, or `seg[]` is full, or the
sentinel is reached. -/
theorem readLoop_part (fuel : Nat) (hentries : leaf.entries = front ++ ex :: next :: rest)
    (hcount : leaf.entries.length = leaf.count)
    (hasc : Ascending DiskExtent.logical leaf.entries) (hfuel : rest.length < fuel)
    (hle : ex.logical ≤ key.start) (hlt : key.start < next.logical) (hlen : 0 < key.len)
    (hroom : rq.segIdx < rq.segMax) (hmemory : rq.seg.length = rq.segMax) :
    ∃ out key' segs,
      readLoop leaf fuel (front.length + 1) (ex.blockAt key.start) rq key = .ok (out, key') ∧
      ReadPart (extentMap leaf.entries) rq key out key' segs ∧ out.segIdx ≤ rq.segMax ∧
      (∃ e ∈ leaf.entries, key'.start ≤ e.logical) ∧
      (key'.len = 0 ∨ out.segIdx = rq.segMax ∨ ∀ e ∈ leaf.entries, e.logical ≤ key'.start) := by
  induction fuel generalizing front ex next rest rq key with
  | zero => exact absurd hfuel (Nat.not_lt_zero _)
  | succ fuel ih =>
      have hmove : leaf.entries = (front ++ [ex]) ++ next :: rest := by
        rw [hentries]
        simp
      have hlength : (front ++ [ex]).length = front.length + 1 := List.length_append
      have hend : leaf.count = front.length + (rest.length + 2) := by
        rw [← hcount, hentries, List.length_append, List.length_cons, List.length_cons]
      have hmem : next ∈ leaf.entries := hmove ▸ List.mem_append_right _ List.mem_cons_self
      have hafter : ∀ b ∈ rest, next.logical < b.logical := by
        rw [hmove] at hasc
        exact hasc.after
      have hdistance : (next.logical + 2 ^ 64 - key.start) % 2 ^ 64 = next.logical - key.start := by
        have := next.logical_lt
        omega
      obtain ⟨out, key', seg, hfill, hpart, hseg⟩ := @fillSeg_part (extentMap leaf.entries) rq key
        (ex.blockAt key.start) (min key.len (next.logical - key.start)) (hmemory ▸ hroom)
        (by omega) (Nat.min_le_left _ _) fun i hi => by
          rw [hentries]
          refine blockAt_map hle (List.forall_mem_cons.mpr ⟨by omega, fun b hb => ?_⟩)
          have := hafter b hb
          omega
      have hstart := hpart.start
      have hlen' := hpart.len
      have hidx := hpart.segIdx
      rw [totalCount_cons, totalCount_nil, hseg] at hstart hlen'
      rw [List.length_singleton] at hidx
      rw [readLoop, bind_of_ok (getExtent_of_entries hmove hlength.symm), hdistance,
        bind_of_ok hfill]
      dsimp only
      by_cases hmore : key'.len ≠ 0 ∧ out.segIdx < out.segMax ∧ front.length + 1 + 1 < leaf.count
      · rw [if_pos hmore]
        obtain ⟨hlenpos, hroom', hinside⟩ := hmore
        cases rest with
        | nil =>
            rw [List.length_nil] at hend
            omega
        | cons after rest =>
            have heq : key'.start = next.logical := by omega
            have hloop := ih hmove (Nat.lt_of_succ_lt_succ hfuel) (Nat.le_of_eq heq.symm)
              (heq ▸ hafter after List.mem_cons_self) (Nat.pos_of_ne_zero hlenpos) hroom'
              (hpart.memory.trans (hmemory.trans hpart.segMax.symm))
            rw [hlength, heq, next.blockAt_logical, hpart.segMax] at hloop
            obtain ⟨out', key'', segs, hrun, hpart', hmax, hbelow, hstop⟩ := hloop
            exact ⟨out', key'', seg :: segs, hrun, hpart.trans hpart', hmax, hbelow, hstop⟩
      · rw [if_neg hmore]
        refine ⟨out, key', [seg], rfl, hpart, by omega, ⟨next, hmem, by omega⟩, ?_⟩
        rw [hpart.segMax] at hmore
        by_cases hzero : key'.len = 0
        · exact .inl hzero
        by_cases hfull : out.segIdx = rq.segMax
        · exact .inr (.inl hfull)
        refine .inr (.inr ?_)
        have hnil : rest = [] := List.eq_nil_of_length_eq_zero (by omega)
        have heq : key'.start = next.logical := by omega
        rw [hnil] at hmove
        rw [hmove] at hasc
        rw [hmove, heq]
        intro e he
        rcases List.mem_append.mp he with hin | hin
        · exact Nat.le_of_lt (hasc.before e hin)
        · exact Nat.le_of_eq (List.mem_singleton.mp hin ▸ rfl)

/-! ## `dleaf2_read` -/

/-- Behind the sentinel is a hole. -/
theorem extentMap_behind (h : leaf.Ok entriesPerLeaf bottom limit) {x : Nat}
    (hbehind : ∀ e ∈ leaf.entries, e.logical ≤ x) : extentMap leaf.entries x = none := by
  by_cases hcount : leaf.count = 0
  · rw [h.eq_nil hcount]
    rfl
  obtain ⟨front, sentinel, hentries, hhole, -, -⟩ := h.exists_sentinel hcount
  rw [hentries] at hbehind ⊢
  exact extentMap_sentinel (hbehind sentinel (List.mem_append_right _ List.mem_cons_self)) hhole

/-- The end of a read. -/
theorem fillLast_ok (h : leaf.Ok entriesPerLeaf bottom limit)
    (hpart : ReadPart (extentMap leaf.entries) rq key rq' key' segs)
    (hmemory : rq.seg.length = rq.segMax) (hmax : rq'.segIdx ≤ rq.segMax)
    (hlimit : key'.start ≤ limit)
    (hstop : key'.len = 0 ∨ rq'.segIdx = rq.segMax ∨ ∀ e ∈ leaf.entries, e.logical ≤ key'.start) :
    ∃ out key'' segs', fillLast limit rq' key' = .ok (out, key'') ∧
      ReadOk (extentMap leaf.entries) limit rq key out key'' segs' := by
  have hstart := hpart.start
  have hlen := hpart.len
  unfold fillLast
  rw [hpart.segMax]
  by_cases hfill : key'.start < limit ∧ key'.len ≠ 0 ∧ rq'.segIdx < rq.segMax
  · rw [if_pos hfill]
    obtain ⟨hlt, hlenpos, hroom⟩ := hfill
    have hbehind := (hstop.resolve_left hlenpos).resolve_left (Nat.ne_of_lt hroom)
    obtain ⟨out, key'', seg, hrun, hlast, hseg⟩ := @fillSeg_part (extentMap leaf.entries) rq' key' 0
      (min key'.len (limit - key'.start)) (by rw [hpart.memory, hmemory]; exact hroom) (by omega)
      (Nat.min_le_left _ _) fun i _ => by
        rw [if_pos rfl]
        exact extentMap_behind h fun e he => Nat.le_trans (hbehind e he) (Nat.le_add_right _ _)
    refine ⟨out, key'', segs ++ [seg], hrun, hpart.trans hlast, ?_, ?_, .inl ?_⟩
    · rw [hlast.segIdx]
      exact hroom
    · rw [totalCount_append, totalCount_cons, totalCount_nil, hseg]
      omega
    · rw [totalCount_append, totalCount_cons, totalCount_nil, hseg]
      omega
  · rw [if_neg hfill]
    refine ⟨rq', key', segs, rfl, hpart, hmax, by omega, ?_⟩
    by_cases hfull : rq'.segIdx = rq.segMax
    · exact .inr hfull
    · left
      by_cases hzero : key'.len = 0
      · omega
      · have hend : ¬key'.start < limit := fun hlt => hfill ⟨hlt, hzero, by omega⟩
        omega

/-- A read of a leaf. -/
theorem dleaf2Read_ok (h : leaf.Ok entriesPerLeaf bottom limit) (hbottom : bottom ≤ key.start)
    (hlimit : key.start ≤ limit) (hlen : 0 < key.len) (hmemory : rq.seg.length = rq.segMax)
    (hidx : rq.segIdx ≤ rq.segMax) :
    ∃ out key' segs, dleaf2Read limit leaf rq key = .ok (out, key') ∧
      ReadOk (extentMap leaf.entries) limit rq key out key' segs := by
  have hlength := h.entries_length
  unfold dleaf2Read
  by_cases hfull : rq.segMax ≤ rq.segIdx
  · rw [if_pos hfull]
    exact ⟨rq, key, [], rfl, .refl _ _ _, hidx, Nat.zero_le _, .inr (Nat.le_antisymm hidx hfull)⟩
  rw [if_neg hfull]
  by_cases hcount : leaf.count = 0
  · rw [bind_of_ok (dleaf2LookupIndex_empty hcount), if_pos (by omega)]
    have hcheck : checkSentinel leaf 0 = .ok () := if_neg (by omega)
    rw [bind_of_ok hcheck]
    refine fillLast_ok h (.refl _ _ _) hmemory hidx hlimit (.inr (.inr fun e he => ?_))
    rw [h.eq_nil hcount] at he
    exact absurd he List.not_mem_nil
  obtain ⟨front, ex, back, hentries, hle, hback⟩ := h.exists_at hcount
    fun ex hex => Nat.le_trans (h.first ex hex) hbottom
  cases back with
  | nil =>
      have hlast : leaf.entries.getLast? = some ex := by
        rw [hentries, List.getLast?_append]
        rfl
      have hend : leaf.count = front.length + 1 := by
        rw [← hlength, hentries, List.length_append]
        rfl
      have hhole := (h.last ex hlast).1
      have hlookup : ∃ dex, dleaf2LookupIndex leaf key.start = .ok dex ∧ leaf.count ≤ dex + 1 ∧
          checkSentinel leaf dex = .ok () := by
        rcases Nat.eq_or_lt_of_le hle with heq | hlt
        · refine ⟨_, dleaf2LookupIndex_eq hentries hlength h.ascending heq, Nat.le_of_eq hend, ?_⟩
          unfold checkSentinel
          rw [if_pos (by omega), bind_of_ok (getExtent_of_entries hentries (by omega)),
            tuxAssert_of hhole]
        · exact ⟨_, dleaf2LookupIndex_behind hentries hlength h.ascending rfl hlt hhole,
            Nat.le_succ _, if_neg (Nat.lt_irrefl _)⟩
      obtain ⟨dex, hdex, hge, hcheck⟩ := hlookup
      rw [bind_of_ok hdex, if_pos hge, bind_of_ok hcheck]
      refine fillLast_ok h (.refl _ _ _) hmemory hidx hlimit (.inr (.inr fun e he => ?_))
      have hasc := h.ascending
      rw [hentries] at he hasc
      rcases List.mem_append.mp he with hin | hin
      · exact Nat.le_trans (Nat.le_of_lt (hasc.before e hin)) hle
      · exact List.mem_singleton.mp hin ▸ hle
  | cons next rest =>
      have hend : leaf.count = front.length + (rest.length + 2) := by
        rw [← hlength, hentries, List.length_append, List.length_cons, List.length_cons]
      obtain ⟨out, key', segs, hrun, hpart, hmax, ⟨e, he, hbelow⟩, hstop⟩ :=
        readLoop_part leaf.count hentries hlength h.ascending (by omega) hle
          (hback next List.mem_cons_self) hlen (Nat.lt_of_not_le hfull) hmemory
      rw [bind_of_ok (dleaf2LookupIndex_between hentries hlength h.ascending
        (List.cons_ne_nil _ _) hle hback), if_neg (by omega),
        bind_of_ok (getExtent_of_entries hentries rfl), bind_of_ok hrun]
      exact fillLast_ok h hpart hmemory hmax (Nat.le_trans hbelow (h.le_limit e he)) hstop

/-- The reads of a leaf in its range return the blocks of a map. -/
def Dleaf2.Reads (leaf : Dleaf2) (bottom limit : Nat) (map : Nat → Option Nat) : Prop :=
  ∀ rq key, bottom ≤ key.start → key.start < limit → 0 < key.len → rq.seg.length = rq.segMax →
    rq.segIdx ≤ rq.segMax → ∃ out key' segs, dleaf2Read limit leaf rq key = .ok (out, key') ∧
      ReadOk map limit rq key out key' segs

theorem ReadOk.congr (h : ReadOk map limit rq key rq' key' segs)
    (hmap : ∀ x, key.start ≤ x → x < key.start + totalCount segs → map' x = map x) :
    ReadOk map' limit rq key rq' key' segs :=
  { h with
    blocks := by
      rw [h.blocks]
      refine List.map_congr_left fun x hx => ?_
      obtain ⟨hle, hlt⟩ := List.mem_range'_1.mp hx
      exact (hmap x hle hlt).symm }

/-- The reads of a leaf return the blocks of its map, and of no other one. -/
theorem Dleaf2.Ok.reads_iff (h : leaf.Ok entriesPerLeaf bottom limit) :
    leaf.Reads bottom limit map ↔
      ∀ x, bottom ≤ x → x < limit → extentMap leaf.entries x = map x := by
  constructor
  · intro hreads x hbottom hlimit
    -- a read of one block
    obtain ⟨out, key', segs, hrun, hok⟩ := hreads ⟨0, 1, 1, [⟨0, 0, 0⟩]⟩ ⟨x, 1⟩ hbottom hlimit
      Nat.one_pos rfl (Nat.zero_le _)
    obtain ⟨out', key'', segs', hrun', hok'⟩ := @dleaf2Read_ok _ _ _ _ ⟨0, 1, 1, [⟨0, 0, 0⟩]⟩
      ⟨x, 1⟩ h hbottom (Nat.le_of_lt hlimit) Nat.one_pos rfl (Nat.zero_le _)
    obtain ⟨rfl, -⟩ := Prod.mk.inj (Except.ok.inj (hrun.symm.trans hrun'))
    have hsegs : segs = segs' := hok.done.symm.trans hok'.done
    subst hsegs
    have hlen : 1 = totalCount segs + key'.len := hok.len
    have htotal : totalCount segs = 1 := by
      rcases hok.covers with hall | hfull
      · have hall : totalCount segs = min 1 (limit - x) := hall
        omega
      · have hidx : out.segIdx = 0 + segs.length := hok.segIdx
        have hfull : out.segIdx = 1 := hfull
        cases segs with
        | nil => exact absurd (hfull.symm.trans hidx) (by decide)
        | cons s segs =>
            have := hok.nonempty s List.mem_cons_self
            rw [totalCount_cons] at hlen ⊢
            omega
    have hblocks := hok'.blocks.symm.trans hok.blocks
    rw [htotal] at hblocks
    exact List.head_eq_of_cons_eq hblocks
  · intro hmap rq key hbottom hlimit hlen hmemory hidx
    obtain ⟨out, key', segs, hrun, hok⟩ := dleaf2Read_ok h hbottom (Nat.le_of_lt hlimit) hlen
      hmemory hidx
    refine ⟨out, key', segs, hrun, hok.congr fun x hle hlt => ?_⟩
    have hinside := hok.inside
    exact (hmap x (Nat.le_trans hbottom hle) (by omega)).symm

end

end Tux3
