/-
  Filemap/SegRange.lean --- the logical range of a write.

  What `seg_alloc` leaves in a request is a prefix of the range that was asked for: what was
  mapped keeps its blocks, and the holes of the first segments have those that were logged.  That
  is so unless the piece in the last place of `seg[]` is separated.
-/
import Tux3.Filemap.SegAlloc

set_option autoImplicit false

namespace Tux3

/-! ## The logical range -/

/-- The physical blocks of a segment, for each logical one: a hole has none. -/
def StateSegment.blocks (s : StateSegment) : List (Option Nat) :=
  (List.range s.count).map fun j => if s.state = blockSegHole then none else some (s.block + j)

/-- The physical blocks of a logical range. -/
def rangeBlocks (segs : List StateSegment) : List (Option Nat) :=
  segs.flatMap StateSegment.blocks

/-- What is mapped stays mapped, up to the end of the second range. -/
def Keeps (before after : List (Option Nat)) : Prop :=
  ∀ p b, before[p]? = some (some b) → p < after.length → after[p]? = some (some b)

/-- The blocks that logical blocks got that had none. -/
def newBlocks : List (Option Nat) → List (Option Nat) → List Nat
  | none :: before, some b :: after => b :: newBlocks before after
  | _ :: before, _ :: after => newBlocks before after
  | _, _ => []

section Blocks

variable {before after before' after' : List (Option Nat)} {segState : Nat}
  {segs segs' : List StateSegment} {log : List BlockSegment}

theorem rangeBlocks_cons (s : StateSegment) (segs : List StateSegment) :
    rangeBlocks (s :: segs) = s.blocks ++ rangeBlocks segs := rfl

@[simp] theorem StateSegment.blocks_length (s : StateSegment) : s.blocks.length = s.count := by
  unfold StateSegment.blocks
  rw [List.length_map, List.length_range]

theorem rangeBlocks_length (segs : List StateSegment) :
    (rangeBlocks segs).length = (segs.map StateSegment.count).sum := by
  induction segs with
  | nil => rfl
  | cons s segs ih =>
      rw [rangeBlocks_cons, List.length_append, ih, s.blocks_length, List.map_cons, List.sum_cons]

theorem newBlocks_self (before : List (Option Nat)) : newBlocks before before = [] := by
  induction before with
  | nil => rfl
  | cons a before ih => cases a <;> exact ih

theorem newBlocks_append (h : before.length = after.length) :
    newBlocks (before ++ before') (after ++ after') =
      newBlocks before after ++ newBlocks before' after' := by
  induction before generalizing after with
  | nil =>
      rw [List.eq_nil_of_length_eq_zero h.symm]
      rfl
  | cons a before ih =>
      cases after with
      | nil => exact absurd h (Nat.succ_ne_zero _)
      | cons b after =>
          have hrest := ih (Nat.succ_inj.mp h)
          cases a with
          | none =>
              cases b with
              | none => exact hrest
              | some b => exact congrArg (b :: ·) hrest
          | some a => cases b <;> exact hrest

theorem Keeps.append (h : before.length = after.length) (hfront : Keeps before after)
    (hback : Keeps before' after') : Keeps (before ++ before') (after ++ after') := by
  intro p b hp hlt
  rcases Nat.lt_or_ge p before.length with hin | hout
  · rw [List.getElem?_append_left hin] at hp
    rw [List.getElem?_append_left (h ▸ hin)]
    exact hfront p b hp (h ▸ hin)
  · rw [List.getElem?_append_right hout] at hp
    rw [List.length_append] at hlt
    rw [List.getElem?_append_right (h ▸ hout), ← h]
    exact hback _ b hp (by omega)

theorem Keeps.refl (before : List (Option Nat)) : Keeps before before := fun _ _ hp _ => hp

theorem Keeps.holes (n : Nat) : Keeps (List.replicate n none) after := by
  intro p b hp
  rw [List.getElem?_replicate] at hp
  split at hp
  · cases hp
  · cases hp

theorem newBlocks_holes (offsets : List Nat) (f : Nat → Nat) :
    newBlocks (List.replicate offsets.length none) (offsets.map fun j => some (f j)) =
      offsets.map f := by
  induction offsets with
  | nil => rfl
  | cons j offsets ih => exact congrArg (f j :: ·) ih

theorem blocks_of_hole {s : StateSegment} (h : s.state = blockSegHole) :
    s.blocks = List.replicate s.count none := by
  unfold StateSegment.blocks
  simp only [h, if_true]
  rw [List.map_const', List.length_range]

theorem blocks_of_extent {block count : Nat} (h : segState ≠ blockSegHole) :
    (⟨block, count, segState⟩ : StateSegment).blocks =
      (List.range count).map fun j => some (block + j) := by
  unfold StateSegment.blocks
  simp only [h, if_false]

/-- An extent for the first blocks of a hole. -/
theorem newBlocks_extent {block count : Nat} (h : segState ≠ blockSegHole) :
    newBlocks (List.replicate count none) (⟨block, count, segState⟩ : StateSegment).blocks =
      (⟨block, count⟩ : BlockSegment).blocks := by
  have hholes := newBlocks_holes (List.range count) (block + ·)
  rw [List.length_range] at hholes
  rw [blocks_of_extent h]
  exact hholes

/-- The hole that a piece was taken off. -/
theorem blocks_behind {s : StateSegment} {count : Nat} (h : s.state = blockSegHole)
    (hle : count ≤ s.count) :
    s.blocks = List.replicate count none ++ (s.behind count).blocks := by
  have hbehind : (s.behind count).state = blockSegHole := h
  rw [blocks_of_hole h, blocks_of_hole hbehind]
  unfold StateSegment.behind
  rw [List.replicate_append_replicate, Nat.add_sub_cancel' hle]

/-- What `seg_alloc` makes of the segments is a prefix of the logical range: what was mapped is
as it was, and the rest got the extents that were allocated, one after the other. -/
theorem SegSplit.range (h : SegSplit segState segs segs' log) (hstate : segState ≠ blockSegHole) :
    (rangeBlocks segs').length ≤ (rangeBlocks segs).length ∧
      Keeps (rangeBlocks segs) (rangeBlocks segs') ∧
      newBlocks (rangeBlocks segs) (rangeBlocks segs') = log.flatMap BlockSegment.blocks := by
  induction h with
  | stop segs =>
      refine ⟨Nat.zero_le _, fun p b _ hlt => absurd hlt (Nat.not_lt_zero _), ?_⟩
      cases rangeBlocks segs with
      | nil => rfl
      | cons a before => cases a <;> rfl
  | @keep s segs segs' log h ih =>
      obtain ⟨hle, hkeeps, hnew⟩ := ih
      rw [rangeBlocks_cons, rangeBlocks_cons, newBlocks_append rfl, newBlocks_self, hnew,
        List.nil_append, List.length_append, List.length_append]
      exact ⟨Nat.add_le_add_left hle _, .append rfl (.refl _) hkeeps, rfl⟩
  | @whole s segs segs' log block hole h ih =>
      obtain ⟨hle, hkeeps, hnew⟩ := ih
      have hlength : (List.replicate s.count (none : Option Nat)).length =
          (⟨block, s.count, segState⟩ : StateSegment).blocks.length := by simp
      rw [rangeBlocks_cons, rangeBlocks_cons, blocks_of_hole hole, newBlocks_append hlength,
        newBlocks_extent hstate, hnew, List.length_append, List.length_append, hlength]
      exact ⟨Nat.add_le_add_left hle _, .append hlength (.holes _) hkeeps, rfl⟩
  | @piece s segs segs' log block count hole hpos hlt h ih =>
      obtain ⟨hle, hkeeps, hnew⟩ := ih
      rw [rangeBlocks_cons] at hle hkeeps hnew
      have hlength : (List.replicate count (none : Option Nat)).length =
          (⟨block, count, segState⟩ : StateSegment).blocks.length := by simp
      rw [rangeBlocks_cons, rangeBlocks_cons, blocks_behind hole (Nat.le_of_lt hlt),
        List.append_assoc, newBlocks_append hlength, newBlocks_extent hstate, hnew,
        List.length_append, List.length_append, hlength]
      exact ⟨Nat.add_le_add_left hle _, .append hlength (.holes _) hkeeps, rfl⟩

theorem SegSplit.nonempty (h : SegSplit segState segs segs' log)
    (hpos : ∀ t ∈ segs, 0 < t.count) : ∀ t ∈ segs', 0 < t.count := by
  induction h with
  | stop segs => exact fun t ht => absurd ht List.not_mem_nil
  | @keep s segs segs' log h ih =>
      obtain ⟨hs, hrest⟩ := List.forall_mem_cons.mp hpos
      exact List.forall_mem_cons.mpr ⟨hs, ih hrest⟩
  | @whole s segs segs' log block hole h ih =>
      obtain ⟨hs, hrest⟩ := List.forall_mem_cons.mp hpos
      exact List.forall_mem_cons.mpr ⟨hs, ih hrest⟩
  | @piece s segs segs' log block count hole hcount hlt h ih =>
      obtain ⟨hs, hrest⟩ := List.forall_mem_cons.mp hpos
      refine List.forall_mem_cons.mpr ⟨hcount, ih (List.forall_mem_cons.mpr ⟨?_, hrest⟩)⟩
      exact Nat.sub_pos_of_lt hlt

end Blocks

/-! ## The allocator's own results -/

/-- A call of `balloc_partial` takes at most the blocks that were asked for. -/
theorem ballocPartial_count {sb sb' : BitmapSb} {io : BitmapIo} {blocks : Nat}
    {seg : BlockSegment} (hblocks : 0 < blocks) (hvol : 0 < sb.volblocks)
    (h : ballocPartial sb io blocks = .ok (sb', 0, seg)) : 0 < seg.count ∧ seg.count ≤ blocks := by
  obtain ⟨r, hr, hres⟩ :=
    @ballocFromRange_result sb io sb.nextblock sb.volblocks blocks true hblocks (Nat.le_refl _) hvol
  obtain rfl := Except.ok.inj (hr.symm.trans h)
  have hspec := @firstFit_spec sb.bits sb.volblocks blocks (sb.unreadable io)
    ⟨false, sb.nextblock, 0, ⟨0, 0⟩⟩ sb.volblocks
    ⟨hblocks, Nat.zero_le _, .inr rfl, .empty (Nat.le_refl _), .zero _ _ _⟩ hvol
  unfold BallocCall.firstFitSeg at hres
  generalize firstFit sb.bits sb.volblocks blocks (sb.unreadable io) sb.volblocks
    ⟨false, sb.nextblock, 0, ⟨0, 0⟩⟩ = fit at hres hspec
  cases fit with
  | unreadable => exact absurd rfl hres.2
  | found found =>
      obtain ⟨hpos, -, hseg, -⟩ := hres
      obtain rfl : seg = found := hseg rfl
      exact ⟨hpos, hspec.2.count_le⟩
  | missing best =>
      dsimp only at hres
      split at hres
      · obtain ⟨hpos, -, hseg, -⟩ := hres
        obtain rfl : seg = best := hseg rfl
        exact ⟨hpos, FreeSeg.count_le hspec⟩
      · exact absurd rfl hres.2

/-- The results of any calls of `balloc_partial`. -/
theorem ballocPartial_ok {sb : Nat → BitmapSb} {io : Nat → BitmapIo}
    (hvol : ∀ k, 0 < (sb k).volblocks) (hio : ∀ k m, (io k).dirtyErr m ≤ 0) :
    BallocOk fun k n => ballocResult (ballocPartial (sb k) (io k) n) where
  count := by
    intro k n seg hn hok
    unfold ballocResult at hok
    cases hr : ballocPartial (sb k) (io k) n with
    | error e =>
        rw [hr] at hok
        cases hok
    | ok r =>
        obtain ⟨sb', err, found⟩ := r
        rw [hr] at hok
        dsimp only at hok
        split at hok
        · rename_i hzero
          subst hzero
          cases hok
          exact ballocPartial_count hn (hvol k) hr
        · cases hok
  err := by
    intro k n e herr
    unfold ballocResult at herr
    cases hr : ballocPartial (sb k) (io k) n with
    | error e' =>
        rw [hr] at herr
        cases herr
        decide
    | ok r =>
        obtain ⟨sb', err, found⟩ := r
        rw [hr] at herr
        dsimp only at herr
        split at herr
        · cases herr
        · rename_i hne
          have heq : err = e := Except.error.inj herr
          have hle : err ≤ 0 := @ballocFromRange_errs (sb k) (io k) (fun err => err ≤ 0) _ _ _ _ _
            (Int.le_refl 0) (by decide) (by decide) (hio k) hr
          omega

/-! ## `seg_alloc` -/

/-- A request whose segments are not empty and are all in `seg[]`. -/
structure DleafReq.Ok (rq : DleafReq) : Prop where
  memory : rq.seg.length = rq.segMax
  segCnt_le : rq.segCnt ≤ rq.segMax
  nonempty : ∀ t ∈ rq.segs, 0 < t.count

/-- What a call makes of a request: `out` is what it returns with, and `log` has the extents that
went to `log_balloc`. -/
structure SegsAllocated (rq : DleafReq) (writeSegs : Nat) (out : DleafReq)
    (log : List BlockSegment) (ret : Int) : Prop where
  ok : out.Ok
  segIdx : out.segIdx = rq.segIdx
  segMax : out.segMax = rq.segMax
  done : out.seg.take rq.segIdx = rq.seg.take rq.segIdx
  -- the segments are a prefix of the range, and all of it if nothing was partial
  shorter : (rangeBlocks out.segs).length ≤ (rangeBlocks rq.segs).length
  whole : ret = 0 → (rangeBlocks out.segs).length = (rangeBlocks rq.segs).length
  -- nothing that is mapped is allocated again
  keeps : Keeps (rangeBlocks rq.segs) (rangeBlocks out.segs)
  logged : newBlocks (rangeBlocks rq.segs) (rangeBlocks out.segs) =
    log.flatMap BlockSegment.blocks
  allocated : 0 ≤ ret → writeSegs ≤ out.segs.length ∧
    ∀ t ∈ out.segs.take writeSegs, t.state ≠ blockSegHole

section Call

variable {balloc : Nat → Nat → Except Int BlockSegment} {segState writeSegs : Nat} {rq : DleafReq}

theorem DleafReq.Ok.split (h : rq.Ok) (hidx : rq.segIdx ≤ rq.segCnt) :
    rq.seg = rq.seg.take rq.segIdx ++ rq.segs ++ rq.seg.drop rq.segCnt ∧
      (rq.seg.take rq.segIdx).length = rq.segIdx ∧ rq.segs.length = rq.segCnt - rq.segIdx := by
  have hmemory := h.memory
  have hcnt := h.segCnt_le
  refine ⟨?_, ?_, ?_⟩
  · have hdrop : (rq.seg.drop rq.segIdx).drop (rq.segCnt - rq.segIdx) = rq.seg.drop rq.segCnt := by
      rw [List.drop_drop, Nat.add_sub_cancel' hidx]
    unfold DleafReq.segs
    rw [List.append_assoc, ← hdrop, List.take_append_drop, List.take_append_drop]
  · rw [List.length_take]
    omega
  · unfold DleafReq.segs
    rw [List.length_take, List.length_drop]
    omega

/-- The segments of a request whose `seg[]` is known. -/
theorem segs_of_eq {pre segs junk : List StateSegment} (hseg : rq.seg = pre ++ segs ++ junk)
    (hidx : rq.segIdx = pre.length) (hcnt : rq.segCnt = pre.length + segs.length) :
    rq.segs = segs := by
  unfold DleafReq.segs
  rw [hseg, hidx, hcnt, List.append_assoc, List.drop_left, Nat.add_sub_cancel_left,
    List.take_left]

/-- The condition: where all segments are written, the piece in the last place of `seg[]` is not
separated. -/
def LastWhole (balloc : Nat → Nat → Except Int BlockSegment) (rq : DleafReq) (writeSegs : Nat) :
    Prop :=
  rq.segIdx + writeSegs = rq.segCnt →
    splitsAt balloc (rq.segMax - 1 - rq.segIdx) 0 rq.segs = false

theorem segAlloc_result (hballoc : BallocOk balloc) (hrq : rq.Ok)
    (hwrite : rq.segIdx + writeSegs ≤ rq.segCnt) (hstate : segState ≠ blockSegHole) :
    (¬LastWhole balloc rq writeSegs →
      segAlloc balloc rq writeSegs segState = .error .bounds) ∧
    (LastWhole balloc rq writeSegs →
      ∃ out ret, segAlloc balloc rq writeSegs segState = .ok (out, ret) ∧
        SegsAllocated rq writeSegs out.rq out.log ret) := by
  obtain ⟨hseg, hpre, hlength⟩ := hrq.split (Nat.le_trans (Nat.le_add_right _ _) hwrite)
  have hcntmax := hrq.segCnt_le
  have hmemory := hrq.memory
  have hdropped : (rq.seg.drop rq.segCnt).length = rq.segMax - rq.segCnt := by
    rw [List.length_drop, hmemory]
  have hloop := segAllocLoop_spec hballoc hstate (rq.segMax + 1)
    ⟨rq, rq.segIdx, rq.segIdx + writeSegs, false, 0, []⟩ (rq.seg.take rq.segIdx) rq.segs
    (rq.seg.drop rq.segCnt)
    ⟨hseg, hpre.symm, by rw [hpre, hlength]; show rq.segCnt = _; omega,
      by rw [hpre, hlength, hdropped]; show rq.segMax = _; omega, hwrite, Nat.le_add_right _ _⟩
    hrq.nonempty (by show rq.segMax < rq.segIdx + (rq.segMax + 1); omega)
  have hcall : segAlloc balloc rq writeSegs segState = segAllocLoop balloc segState
      (rq.segMax + 1) ⟨rq, rq.segIdx, rq.segIdx + writeSegs, false, 0, []⟩ := by
    unfold segAlloc
    rw [tuxAssert_of (Nat.le_trans hwrite hcntmax)]
    rfl
  rw [hcall]
  constructor
  · intro hcond
    obtain ⟨hall, hsplits⟩ := Classical.not_imp.mp hcond
    exact hloop.bounds ⟨hall, Bool.of_not_eq_false hsplits⟩
  · intro hcond
    obtain ⟨out, ret, segs', junk', log, hr, houtrq, houtlength, hsplit, hlog, hdone, hzero⟩ :=
      hloop.returns fun hbad => by
        obtain ⟨hall, hsplits⟩ := hbad
        rw [hcond hall] at hsplits
        cases hsplits
    have houtseg : out.rq.seg = rq.seg.take rq.segIdx ++ segs' ++ junk' := by rw [houtrq]
    have houtidx : out.rq.segIdx = (rq.seg.take rq.segIdx).length := by
      rw [houtrq, hpre]
    have houtcnt : out.rq.segCnt = (rq.seg.take rq.segIdx).length + segs'.length := by
      rw [houtrq, hpre]
    have houtmax : out.rq.segMax = rq.segMax := by rw [houtrq]
    have hsegs := segs_of_eq houtseg houtidx houtcnt
    obtain ⟨hle, hkeeps, hnew⟩ := hsplit.range hstate
    refine ⟨out, ret, hr, ⟨?_, ?_, ?_⟩, ?_, houtmax, ?_, ?_, fun hret => ?_, ?_, ?_, fun hret => ?_⟩
    · rw [houtseg, houtmax]
      exact houtlength
    · rw [houtcnt, houtmax]
      rw [List.length_append, List.length_append] at houtlength
      show _ ≤ rq.segMax
      have hmax : _ = rq.segMax := houtlength
      omega
    · rw [hsegs]
      exact hsplit.nonempty hrq.nonempty
    · rw [houtidx, hpre]
    · rw [houtseg, List.append_assoc]
      exact List.take_left' hpre
    · rw [hsegs]
      exact hle
    · rw [hsegs, rangeBlocks_length, rangeBlocks_length]
      exact (hzero hret).2
    · rw [hsegs]
      exact hkeeps
    · rw [hsegs, hlog]
      exact hnew
    · obtain ⟨hlast, hall⟩ := hdone hret
      have hlast' : rq.segIdx + writeSegs ≤ rq.segIdx + segs'.length := hlast
      have hall' : ∀ t ∈ segs'.take (rq.segIdx + writeSegs - rq.segIdx),
          t.state ≠ blockSegHole := hall
      rw [Nat.add_sub_cancel_left] at hall'
      rw [hsegs]
      exact ⟨by omega, hall'⟩

theorem segAlloc_allocated (hballoc : BallocOk balloc) (hrq : rq.Ok)
    (hwrite : rq.segIdx + writeSegs ≤ rq.segCnt) (hstate : segState ≠ blockSegHole)
    {out : SegAlloc} {ret : Int}
    (hok : segAlloc balloc rq writeSegs segState = .ok (out, ret)) :
    SegsAllocated rq writeSegs out.rq out.log ret := by
  obtain ⟨hbounds, hreturns⟩ := segAlloc_result hballoc hrq hwrite hstate
  have hcond : LastWhole balloc rq writeSegs := by
    by_contra hnot
    rw [hbounds hnot] at hok
    cases hok
  obtain ⟨out', ret', hok', hallocated⟩ := hreturns hcond
  obtain ⟨rfl, rfl⟩ := Prod.mk.inj (Except.ok.inj (hok'.symm.trans hok))
  exact hallocated

/-- `seg_alloc`, for any results of `balloc_partial`, stays in `seg[]` and gives blocks to the
segments in order, if and only if the piece in the last place of `seg[]` does not get a partial
result.  A second call gives no blocks to what has them. -/
theorem segAlloc_iff (hballoc : BallocOk balloc) (hrq : rq.Ok)
    (hwrite : rq.segIdx + writeSegs ≤ rq.segCnt) (hstate : segState ≠ blockSegHole) :
    (∃ out ret, segAlloc balloc rq writeSegs segState = .ok (out, ret) ∧
      SegsAllocated rq writeSegs out.rq out.log ret ∧
      ∀ balloc' writeSegs' out' ret', BallocOk balloc' →
        out.rq.segIdx + writeSegs' ≤ out.rq.segCnt →
        segAlloc balloc' out.rq writeSegs' segState = .ok (out', ret') →
        SegsAllocated out.rq writeSegs' out'.rq out'.log ret') ↔
    LastWhole balloc rq writeSegs := by
  obtain ⟨hbounds, hreturns⟩ := segAlloc_result hballoc hrq hwrite hstate
  constructor
  · rintro ⟨out, ret, hok, -⟩
    by_contra hnot
    rw [hbounds hnot] at hok
    cases hok
  · intro hcond
    obtain ⟨out, ret, hok, hallocated⟩ := hreturns hcond
    exact ⟨out, ret, hok, hallocated, fun balloc' writeSegs' out' ret' hballoc' hwrite' hok' =>
      segAlloc_allocated hballoc' hallocated.ok hwrite' hstate hok'⟩

end Call

/-- The free runs of a volume are single blocks. -/
def singleBlocks (k _n : Nat) : Except Int BlockSegment := .ok ⟨20 + 2 * k, 1⟩

theorem singleBlocks_ok : BallocOk singleBlocks where
  count := by
    intro k n seg hn hok
    cases hok
    exact ⟨Nat.one_pos, hn⟩
  err := by
    intro k n e herr
    cases herr

/-- Four blocks without physical ones, a mapped one, and no more in use of `seg[]`. -/
def fourBlocks : DleafReq where
  segIdx := 0
  segCnt := 2
  segMax := 10
  seg := ⟨0, 4, blockSegHole⟩ :: ⟨9, 1, 0⟩ :: List.replicate 8 ⟨0, 0, 0⟩

/-- The hole is filled block by block. -/
theorem segAlloc_iff_fourBlocks :
    ∃ out ret, segAlloc singleBlocks fourBlocks 2 0 = .ok (out, ret) ∧
      SegsAllocated fourBlocks 2 out.rq out.log ret := by
  have hrq : fourBlocks.Ok := ⟨rfl, by decide, by decide⟩
  obtain ⟨out, ret, hok, hallocated, -⟩ :=
    (@segAlloc_iff _ 0 2 _ singleBlocks_ok hrq (by decide) (by decide)).mpr fun _ => rfl
  exact ⟨out, ret, hok, hallocated⟩

/-- Eleven blocks without physical ones, for ten places. -/
def elevenBlocks : DleafReq where
  segIdx := 0
  segCnt := 1
  segMax := 10
  seg := ⟨0, 11, blockSegHole⟩ :: List.replicate 9 ⟨0, 0, 0⟩

/-- The tenth piece is in the last place of `seg[]`, and its rest is stored behind it. -/
theorem redirectSegAlloc_bounds :
    elevenBlocks.Ok ∧ BallocOk singleBlocks ∧
      redirectSegAlloc singleBlocks elevenBlocks 1 = .error .bounds ∧
      ¬∃ out ret, redirectSegAlloc singleBlocks elevenBlocks 1 = .ok (out, ret) ∧
        SegsAllocated elevenBlocks 1 out.rq out.log ret := by
  have hbounds : redirectSegAlloc singleBlocks elevenBlocks 1 = .error .bounds := by rfl
  refine ⟨⟨rfl, by decide, by decide⟩, singleBlocks_ok, hbounds, ?_⟩
  rintro ⟨out, ret, hok, -⟩
  rw [hbounds] at hok
  cases hok

end Tux3
