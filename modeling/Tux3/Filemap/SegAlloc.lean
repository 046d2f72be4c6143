/-
  Filemap/SegAlloc.lean --- the blocks of a write.

  `seg_alloc` goes over the first segments of a request and gives physical blocks to the holes.  A
  partial allocation splits its segment in two: the segments behind it move up by one place, and
  the last one is dropped where `seg[]` is full.
-/
import Tux3.Balloc.Longest

set_option autoImplicit false

namespace Tux3

open Outcome (bind_of_ok bind_of_error)

/-! ## Requests -/

/-- `BLOCK_SEG_HOLE`. -/
def blockSegHole : Nat := 1

/-- `BLOCK_SEG_NEW`. -/
def blockSegNew : Nat := 2

/-- `struct block_segment`, with its state. -/
structure StateSegment where
  block : Nat
  count : Nat
  state : Nat
  deriving DecidableEq, Repr

/-- `struct dleaf_req`: `seg` is the memory of `seg[]`. -/
structure DleafReq where
  segIdx : Nat
  segCnt : Nat
  segMax : Nat
  seg : List StateSegment

/-- The segments of a request that are not written yet. -/
def DleafReq.segs (rq : DleafReq) : List StateSegment :=
  (rq.seg.drop rq.segIdx).take (rq.segCnt - rq.segIdx)

/-! ## The code -/

/-- `seg[i]`. -/
def readSeg (seg : List StateSegment) (i : Nat) : Except TuxError StateSegment :=
  match seg[i]? with
  | some s => .ok s
  | none => .error .bounds

/-- A store to `seg[i]`. -/
def writeSeg (seg : List StateSegment) (i : Nat) (s : StateSegment) :
    Except TuxError (List StateSegment) :=
  if i < seg.length then .ok (seg.set i s) else .error .bounds

/-- `memmove(&seg[i + 1], &seg[i], size)`, of a number of segments. -/
def memmoveSegs (seg : List StateSegment) (i size : Nat) : Except TuxError (List StateSegment) :=
  if i + 1 + size ≤ seg.length
  then .ok (seg.take (i + 1) ++ (seg.drop i).take size ++ seg.drop (i + 1 + size))
  else .error .bounds

/-- The separation of `seg[i]` behind its first `count` blocks; `last` is the end of the loop. -/
def separateSeg (rq : DleafReq) (i last count : Nat) : Except TuxError (DleafReq × Nat) := do
  let full := decide (rq.segCnt = rq.segMax)
  let size := if full then rq.segCnt - i - 1 else rq.segCnt - i
  let segCnt := if full then rq.segCnt else rq.segCnt + 1
  let last := if full then last else last + 1
  let seg ← memmoveSegs rq.seg i size
  let head ← readSeg seg i
  let next ← readSeg seg (i + 1)
  let seg ← writeSeg seg (i + 1) { next with count := head.count - count }
  return ({ rq with segCnt := segCnt, seg := seg }, last)

/-- The variables of `seg_alloc`: `last` is `seg_idx + write_segs`; `calls` counts the calls of
`balloc_partial`, and `log` has what went to `log_balloc`. -/
structure SegAlloc where
  rq : DleafReq
  i : Nat
  last : Nat
  isPartial : Bool
  calls : Nat
  log : List BlockSegment

/-- The segment is separated where the allocation is partial. -/
def makeRoom (s : SegAlloc) (seg : StateSegment) (tmp : BlockSegment) :
    Except TuxError SegAlloc :=
  if tmp.count ≠ seg.count then do
    let (rq, last) ← separateSeg s.rq s.i s.last tmp.count
    return { s with rq := rq, last := last, isPartial := true }
  else return s

/-- The loop of `seg_alloc`.  The results of `balloc_partial` are a parameter: the one of the
`k`-th call, for a number of blocks. -/
def segAllocLoop (balloc : Nat → Nat → Except Int BlockSegment) (segState : Nat) :
    Nat → SegAlloc → Except TuxError (SegAlloc × Int)
  | 0, _ => .error .fuel
  | fuel + 1, s =>
      if s.i < s.last then do
        let seg ← readSeg s.rq.seg s.i
        if seg.state ≠ blockSegHole then segAllocLoop balloc segState fuel { s with i := s.i + 1 }
        else
          match balloc s.calls seg.count with
          | .error err => return (s, err)
          | .ok tmp => do
              let s ← makeRoom s seg tmp
              let segs ← writeSeg s.rq.seg s.i ⟨tmp.block, tmp.count, segState⟩
              segAllocLoop balloc segState fuel
                { s with
                  rq := { s.rq with seg := segs }, i := s.i + 1, calls := s.calls + 1
                  log := s.log ++ [tmp] }
      else return (s, if s.isPartial then 1 else 0)

/-- `seg_alloc`. -/
def segAlloc (balloc : Nat → Nat → Except Int BlockSegment) (rq : DleafReq)
    (writeSegs segState : Nat) : Except TuxError (SegAlloc × Int) := do
  tuxAssert (rq.segIdx + writeSegs ≤ rq.segMax)
  segAllocLoop balloc segState (rq.segMax + 1)
    ⟨rq, rq.segIdx, rq.segIdx + writeSegs, false, 0, []⟩

/-- `overwrite_seg_alloc`. -/
def overwriteSegAlloc (balloc : Nat → Nat → Except Int BlockSegment) (rq : DleafReq)
    (writeSegs : Nat) : Except TuxError (SegAlloc × Int) :=
  segAlloc balloc rq writeSegs blockSegNew

/-- `redirect_seg_alloc`. -/
def redirectSegAlloc (balloc : Nat → Nat → Except Int BlockSegment) (rq : DleafReq)
    (writeSegs : Nat) : Except TuxError (SegAlloc × Int) :=
  segAlloc balloc rq writeSegs 0

/-! ## The results of `balloc_partial` -/

/-- A result is an extent of at most the blocks that were asked for, or an error. -/
structure BallocOk (balloc : Nat → Nat → Except Int BlockSegment) : Prop where
  count : ∀ k n seg, 0 < n → balloc k n = .ok seg → 0 < seg.count ∧ seg.count ≤ n
  err : ∀ k n e, balloc k n = .error e → e < 0

/-- The result of a call of `balloc_partial`. -/
def ballocResult (r : Except TuxError (BitmapSb × Int × BlockSegment)) : Except Int BlockSegment :=
  match r with
  | .ok (_, err, seg) => if err = 0 then .ok seg else .error err
  | .error _ => .error (-eio)

/-! ## The separation of a segment -/

section Memory

variable {pre rest junk : List StateSegment} {s x : StateSegment} {i : Nat}

theorem readSeg_append (hi : i = pre.length) : readSeg (pre ++ s :: rest) i = .ok s := by
  subst hi
  unfold readSeg
  rw [List.getElem?_append_right (Nat.le_refl _), Nat.sub_self]
  rfl

theorem writeSeg_append (hi : i = pre.length) :
    writeSeg (pre ++ s :: rest) i x = .ok (pre ++ x :: rest) := by
  subst hi
  unfold writeSeg
  rw [if_pos, List.set_append_right _ _ (Nat.le_refl _), Nat.sub_self, List.set_cons_zero]
  rw [List.length_append, List.length_cons]
  omega

theorem readSeg_end (hi : pre.length ≤ i) : readSeg pre i = .error .bounds := by
  unfold readSeg
  rw [List.getElem?_eq_none hi]

/-- The segments from `i` on move up by one place, over the next one. -/
theorem memmoveSegs_append (hi : i = pre.length) :
    memmoveSegs (pre ++ s :: (rest ++ x :: junk)) i (rest.length + 1) =
      .ok (pre ++ s :: s :: (rest ++ junk)) := by
  subst hi
  have htake : (pre ++ s :: (rest ++ x :: junk)).take (pre.length + 1) = pre ++ [s] := by
    rw [List.take_length_add_append, List.take_succ_cons, List.take_zero]
  have hmoved : ((pre ++ s :: (rest ++ x :: junk)).drop pre.length).take (rest.length + 1) =
      s :: rest := by
    rw [List.drop_left, List.take_succ_cons, List.take_left]
  have hdrop : (pre ++ s :: (rest ++ x :: junk)).drop (pre.length + 1 + (rest.length + 1)) =
      junk := by
    have hsame : pre ++ s :: (rest ++ x :: junk) = (pre ++ s :: (rest ++ [x])) ++ junk := by simp
    have hlength : pre.length + 1 + (rest.length + 1) = (pre ++ s :: (rest ++ [x])).length := by
      simp only [List.length_append, List.length_cons, List.length_nil]
      omega
    rw [hsame, hlength, List.drop_left]
  unfold memmoveSegs
  rw [if_pos, htake, hmoved, hdrop]
  · simp
  · simp only [List.length_append, List.length_cons]
    omega

theorem memmoveSegs_zero (hi : i = pre.length) :
    memmoveSegs (pre ++ [s]) i 0 = .ok (pre ++ [s]) := by
  subst hi
  unfold memmoveSegs
  rw [if_pos, List.take_zero, List.append_nil, List.take_append_drop]
  simp

end Memory

section Separate

variable {rq : DleafReq} {pre rest junk : List StateSegment} {s x : StateSegment}
  {last count : Nat}

/-- What is left of a separated segment. -/
def StateSegment.behind (s : StateSegment) (count : Nat) : StateSegment :=
  { s with count := s.count - count }

/-- `seg[]` has room for one more segment. -/
theorem separateSeg_room (hseg : rq.seg = pre ++ s :: (rest ++ x :: junk))
    (hcnt : rq.segCnt = pre.length + 1 + rest.length) (hroom : rq.segCnt ≠ rq.segMax) :
    separateSeg rq pre.length last count = .ok ({ rq with
      segCnt := rq.segCnt + 1, seg := pre ++ s :: s.behind count :: (rest ++ junk) }, last + 1) := by
  have hsize : rq.segCnt - pre.length = rest.length + 1 := by omega
  have hsnoc : pre ++ s :: s :: (rest ++ junk) = (pre ++ [s]) ++ s :: (rest ++ junk) := by simp
  have hlength : pre.length + 1 = (pre ++ [s]).length := by simp
  unfold separateSeg
  simp only [hroom, decide_false, Bool.false_eq_true, if_false, hsize, hseg,
    memmoveSegs_append rfl, bind, Except.bind, readSeg_append rfl]
  rw [hsnoc, readSeg_append hlength]
  dsimp only
  rw [writeSeg_append hlength]
  unfold StateSegment.behind
  simp [pure, Except.pure]

/-- `seg[]` is full: its last segment is dropped. -/
theorem separateSeg_full (hseg : rq.seg = pre ++ s :: (rest ++ [x]))
    (hcnt : rq.segCnt = pre.length + 1 + (rest.length + 1)) (hfull : rq.segCnt = rq.segMax) :
    separateSeg rq pre.length last count = .ok ({ rq with
      seg := pre ++ s :: s.behind count :: rest }, last) := by
  have hsize : rq.segCnt - pre.length - 1 = rest.length + 1 := by omega
  have hsnoc : pre ++ s :: s :: (rest ++ []) = (pre ++ [s]) ++ s :: rest := by simp
  have hlength : pre.length + 1 = (pre ++ [s]).length := by simp
  unfold separateSeg
  simp only [hfull, decide_true, if_true, hfull ▸ hsize, hseg, memmoveSegs_append rfl, bind,
    Except.bind, readSeg_append rfl]
  rw [hsnoc, readSeg_append hlength]
  dsimp only
  rw [writeSeg_append hlength]
  unfold StateSegment.behind
  simp [pure, Except.pure]

/-- The segment is in the last place of `seg[]`: the store goes behind it. -/
theorem separateSeg_last (hseg : rq.seg = pre ++ [s]) (hcnt : rq.segCnt = pre.length + 1)
    (hfull : rq.segCnt = rq.segMax) :
    separateSeg rq pre.length last count = .error .bounds := by
  have hsize : rq.segCnt - pre.length - 1 = 0 := by omega
  have hend : (pre ++ [s]).length ≤ pre.length + 1 := by simp
  unfold separateSeg
  simp only [hfull, decide_true, if_true, hfull ▸ hsize, hseg, memmoveSegs_zero rfl, bind,
    Except.bind, readSeg_append rfl, readSeg_end hend]

end Separate

/-! ## What becomes of the segments -/

/-- The segments of a request and what they became, with the extents that were allocated: holes
got an extent, in one or more pieces, and what is at the end may be missing. -/
inductive SegSplit (segState : Nat) :
    List StateSegment → List StateSegment → List BlockSegment → Prop where
  | stop (segs : List StateSegment) : SegSplit segState segs [] []
  | keep {s : StateSegment} {segs segs' : List StateSegment} {log : List BlockSegment}
      (h : SegSplit segState segs segs' log) : SegSplit segState (s :: segs) (s :: segs') log
  | whole {s : StateSegment} {segs segs' : List StateSegment} {log : List BlockSegment}
      {block : Nat} (hole : s.state = blockSegHole) (h : SegSplit segState segs segs' log) :
      SegSplit segState (s :: segs) (⟨block, s.count, segState⟩ :: segs')
        (⟨block, s.count⟩ :: log)
  | piece {s : StateSegment} {segs segs' : List StateSegment} {log : List BlockSegment}
      {block count : Nat} (hole : s.state = blockSegHole) (hpos : 0 < count)
      (hlt : count < s.count) (h : SegSplit segState (s.behind count :: segs) segs' log) :
      SegSplit segState (s :: segs) (⟨block, count, segState⟩ :: segs') (⟨block, count⟩ :: log)

theorem SegSplit.refl (segState : Nat) (segs : List StateSegment) :
    SegSplit segState segs segs [] := by
  induction segs with
  | nil => exact .stop []
  | cons s segs ih => exact .keep ih

theorem exists_of_take_eq_cons {n : Nat} {s : StateSegment} {segs rest : List StateSegment}
    (h : segs.take n = s :: rest) : ∃ m rest', segs = s :: rest' ∧ rest'.take m = rest := by
  cases segs with
  | nil =>
      rw [List.take_nil] at h
      exact absurd h.symm (List.cons_ne_nil _ _)
  | cons t segs =>
      cases n with
      | zero => exact absurd h.symm (List.cons_ne_nil _ _)
      | succ n =>
          obtain ⟨rfl, hrest⟩ := List.cons.inj h
          exact ⟨n, segs, rfl, hrest⟩

/-- Segments at the end that are not there any more. -/
theorem SegSplit.of_take {segState : Nat} {segs segs' : List StateSegment}
    {log : List BlockSegment} {n : Nat} (h : SegSplit segState (segs.take n) segs' log) :
    SegSplit segState segs segs' log := by
  generalize hsegs : segs.take n = segs₀ at h
  induction h generalizing segs n with
  | stop _ => exact .stop segs
  | keep h ih =>
      obtain ⟨m, rest, rfl, hrest⟩ := exists_of_take_eq_cons hsegs
      exact .keep (ih hrest)
  | whole hole h ih =>
      obtain ⟨m, rest, rfl, hrest⟩ := exists_of_take_eq_cons hsegs
      exact .whole hole (ih hrest)
  | @piece s _ _ _ block count hole hpos hlt h ih =>
      obtain ⟨m, rest, rfl, hrest⟩ := exists_of_take_eq_cons hsegs
      have hbehind : (s.behind count :: rest).take (m + 1) = s.behind count :: rest.take m := rfl
      rw [hrest] at hbehind
      exact .piece hole hpos hlt (ih hbehind)

/-- A result is for less blocks than were asked for. -/
def isPartialResult (r : Except Int BlockSegment) (count : Nat) : Bool :=
  match r with
  | .ok tmp => tmp.count != count
  | .error _ => false

/-- The results separate the piece that is `n` places ahead, if all segments are written and every
piece has a place. -/
def splitsAt (balloc : Nat → Nat → Except Int BlockSegment) :
    Nat → Nat → List StateSegment → Bool
  | _, _, [] => false
  | 0, k, s :: _ => s.state == blockSegHole && isPartialResult (balloc k s.count) s.count
  | n + 1, k, s :: rest =>
      if s.state ≠ blockSegHole then splitsAt balloc n k rest
      else
        match balloc k s.count with
        | .error _ => false
        | .ok tmp =>
            if tmp.count ≠ s.count then splitsAt balloc n (k + 1) (s.behind tmp.count :: rest)
            else splitsAt balloc n (k + 1) rest

section Loop

variable {balloc : Nat → Nat → Except Int BlockSegment} {segState : Nat}

/-- Only the segments up to that place matter. -/
theorem splitsAt_take (n k : Nat) (segs : List StateSegment) :
    splitsAt balloc n k (segs.take (n + 1)) = splitsAt balloc n k segs := by
  induction n generalizing k segs with
  | zero =>
      cases segs with
      | nil => rfl
      | cons s rest => rfl
  | succ n ih =>
      cases segs with
      | nil => rfl
      | cons s rest =>
          rw [List.take_succ_cons]
          unfold splitsAt
          split
          · exact ih k rest
          · cases balloc k s.count with
            | error e => rfl
            | ok tmp =>
                dsimp only
                split
                · rw [← ih (k + 1) (_ :: rest.take (n + 1)), ← ih (k + 1) (_ :: rest),
                    List.take_succ_cons, List.take_succ_cons, List.take_take,
                    Nat.min_eq_left (Nat.le_succ n)]
                · exact ih (k + 1) rest

/-- The segment in the last place of `seg[]` is going to be separated. -/
def SeparatesLast (balloc : Nat → Nat → Except Int BlockSegment) (s : SegAlloc)
    (segs : List StateSegment) : Prop :=
  s.last = s.rq.segCnt ∧ splitsAt balloc (s.rq.segMax - 1 - s.i) s.calls segs = true

/-- What the loop returns from a state on, whose segments from `i` on are `segs`. -/
def LoopReturns (segState : Nat) (s : SegAlloc) (pre segs : List StateSegment)
    (r : Except TuxError (SegAlloc × Int)) : Prop :=
  ∃ out ret segs' junk' log, r = .ok (out, ret) ∧
    out.rq = { s.rq with segCnt := s.i + segs'.length, seg := pre ++ segs' ++ junk' } ∧
    (pre ++ segs' ++ junk').length = s.rq.segMax ∧ SegSplit segState segs segs' log ∧
    out.log = s.log ++ log ∧
    (0 ≤ ret → s.last ≤ s.i + segs'.length ∧
      ∀ t ∈ segs'.take (s.last - s.i), t.state ≠ blockSegHole) ∧
    (ret = 0 → s.isPartial = false ∧
      (segs'.map StateSegment.count).sum = (segs.map StateSegment.count).sum)

/-- What the loop comes to: it stores behind `seg[]` where the segment in the last place is
separated, or else returns. -/
structure LoopResult (balloc : Nat → Nat → Except Int BlockSegment) (segState : Nat)
    (s : SegAlloc) (pre segs : List StateSegment) (r : Except TuxError (SegAlloc × Int)) :
    Prop where
  bounds : SeparatesLast balloc s segs → r = .error .bounds
  returns : ¬SeparatesLast balloc s segs → LoopReturns segState s pre segs r

/-- The state of the loop: `pre` is behind it, `segs` are to come, and `junk` is the rest of
`seg[]`. -/
structure LoopState (s : SegAlloc) (pre segs junk : List StateSegment) : Prop where
  seg : s.rq.seg = pre ++ segs ++ junk
  i_eq : s.i = pre.length
  segCnt : s.rq.segCnt = pre.length + segs.length
  segMax : s.rq.segMax = pre.length + segs.length + junk.length
  last_le : s.last ≤ s.rq.segCnt
  le_last : s.i ≤ s.last

/-- The loop is at its end. -/
theorem segAllocLoop_end {s : SegAlloc} {pre segs junk : List StateSegment}
    (h : LoopState s pre segs junk) (fuel : Nat) (hend : s.i = s.last) :
    LoopResult balloc segState s pre segs (segAllocLoop balloc segState (fuel + 1) s) := by
  unfold segAllocLoop
  rw [if_neg (by omega)]
  refine ⟨?_, fun _ => ?_⟩
  · rintro ⟨hlast, hsplit⟩
    have hnil : segs = [] := by
      have hcnt := h.segCnt
      have hi := h.i_eq
      exact List.eq_nil_of_length_eq_zero (by omega)
    rw [hnil] at hsplit
    unfold splitsAt at hsplit
    cases hsplit
  · refine ⟨s, _, segs, junk, [], rfl, ?_, ?_, .refl _ _, (List.append_nil _).symm, fun _ => ?_,
      fun hret => ?_⟩
    · rw [← h.seg]
      have hcnt : s.i + segs.length = s.rq.segCnt := by rw [h.i_eq, h.segCnt]
      rw [hcnt]
    · rw [List.length_append, List.length_append]
      exact h.segMax.symm
    · refine ⟨by omega, fun t ht => ?_⟩
      rw [hend, Nat.sub_self, List.take_zero] at ht
      exact absurd ht List.not_mem_nil
    · refine ⟨?_, rfl⟩
      cases hpart : s.isPartial with
      | false => rfl
      | true =>
          rw [hpart] at hret
          exact absurd hret (by decide)

/-- One turn that leaves a segment with blocks behind it. -/
theorem LoopResult.step {s s₁ : SegAlloc} {pre segs segs₁ : List StateSegment} {t : StateSegment}
    {log₀ : List BlockSegment} {r : Except TuxError (SegAlloc × Int)}
    (h : LoopResult balloc segState s₁ (pre ++ [t]) segs₁ r) (hi : s₁.i = s.i + 1)
    (hidx : s₁.rq.segIdx = s.rq.segIdx) (hmax : s₁.rq.segMax = s.rq.segMax)
    (hlast : s.i < s.last ∧ s.last ≤ s₁.last) (hlog : s₁.log = s.log ++ log₀)
    (hend : s₁.last = s₁.rq.segCnt ↔ s.last = s.rq.segCnt)
    (hsplits : splitsAt balloc (s.rq.segMax - 1 - s.i) s.calls segs =
      splitsAt balloc (s₁.rq.segMax - 1 - s₁.i) s₁.calls segs₁)
    (hstate : t.state ≠ blockSegHole)
    (hsplit : ∀ segs' log, SegSplit segState segs₁ segs' log →
      SegSplit segState segs (t :: segs') (log₀ ++ log))
    (hwhole : s₁.isPartial = false → s.isPartial = false ∧
      t.count + (segs₁.map StateSegment.count).sum = (segs.map StateSegment.count).sum) :
    LoopResult balloc segState s pre segs r := by
  have hiff : SeparatesLast balloc s segs ↔ SeparatesLast balloc s₁ segs₁ := by
    unfold SeparatesLast
    rw [hsplits, hend]
  have harr : ∀ segs' junk', pre ++ [t] ++ segs' ++ junk' = pre ++ (t :: segs') ++ junk' := by
    intro segs' junk'
    simp
  refine ⟨fun hbad => h.bounds (hiff.mp hbad), fun hgood => ?_⟩
  · obtain ⟨out, ret, segs', junk', log, hr, hrq, hlength, hsegs, houtlog, hdone, hzero⟩ :=
      h.returns (mt hiff.mpr hgood)
    refine ⟨out, ret, t :: segs', junk', log₀ ++ log, hr, ?_, ?_, hsplit segs' log hsegs, ?_,
      fun hret => ?_, fun hret => ?_⟩
    · have hcnt : s₁.i + segs'.length = s.i + (t :: segs').length := by
        rw [List.length_cons, hi]
        omega
      rw [hrq, hcnt, harr segs' junk']
      show DleafReq.mk s₁.rq.segIdx _ s₁.rq.segMax _ = _
      rw [hidx, hmax]
    · rw [← hmax, ← hlength, harr segs' junk']
    · rw [houtlog, hlog, List.append_assoc]
    · obtain ⟨hle, hall⟩ := hdone hret
      refine ⟨?_, fun u hu => ?_⟩
      · rw [List.length_cons]
        omega
      · obtain ⟨n, hn⟩ : ∃ n, s.last - s.i = n + 1 := ⟨s.last - s.i - 1, by omega⟩
        rw [hn, List.take_succ_cons] at hu
        rcases List.mem_cons.mp hu with rfl | hu
        · exact hstate
        · exact hall u ((List.take_subset_take_left _ (by omega)) hu)
    · obtain ⟨hpart, hsum⟩ := hzero hret
      obtain ⟨hpart', hsum'⟩ := hwhole hpart
      refine ⟨hpart', ?_⟩
      rw [List.map_cons, List.sum_cons, hsum, hsum']

/-! ### The piece in the last place -/

variable {t : StateSegment} {rest : List StateSegment} {n k : Nat} {tmp : BlockSegment}

theorem splitsAt_keep (hstate : t.state ≠ blockSegHole) (hn : n = 0 → rest = []) :
    splitsAt balloc n k (t :: rest) = splitsAt balloc (n - 1) k rest := by
  cases n with
  | zero =>
      rw [hn rfl]
      unfold splitsAt
      rw [beq_eq_false_iff_ne.mpr hstate, Bool.false_and]
  | succ n =>
      conv_lhs => unfold splitsAt
      rw [if_pos hstate, Nat.add_sub_cancel]

theorem splitsAt_err {e : Int} (hhole : t.state = blockSegHole)
    (hresult : balloc k t.count = .error e) : splitsAt balloc n k (t :: rest) = false := by
  cases n with
  | zero =>
      unfold splitsAt isPartialResult
      rw [hresult, Bool.and_false]
  | succ n =>
      unfold splitsAt
      rw [if_neg (not_not.mpr hhole), hresult]

theorem splitsAt_whole (hhole : t.state = blockSegHole) (hresult : balloc k t.count = .ok tmp)
    (hcount : tmp.count = t.count) (hn : n = 0 → rest = []) :
    splitsAt balloc n k (t :: rest) = splitsAt balloc (n - 1) (k + 1) rest := by
  cases n with
  | zero =>
      rw [hn rfl]
      unfold splitsAt isPartialResult
      rw [hresult]
      dsimp only
      rw [hcount, bne_self_eq_false, Bool.and_false]
  | succ n =>
      conv_lhs => unfold splitsAt
      rw [if_neg (not_not.mpr hhole), hresult]
      dsimp only
      rw [if_neg (not_not.mpr hcount), Nat.add_sub_cancel]

theorem splitsAt_piece (hhole : t.state = blockSegHole) (hresult : balloc k t.count = .ok tmp)
    (hcount : tmp.count ≠ t.count) (hn : n ≠ 0) :
    splitsAt balloc n k (t :: rest) =
      splitsAt balloc (n - 1) (k + 1) (t.behind tmp.count :: rest) := by
  obtain ⟨n, rfl⟩ := Nat.exists_eq_succ_of_ne_zero hn
  conv_lhs => unfold splitsAt
  rw [if_neg (not_not.mpr hhole), hresult]
  dsimp only
  rw [if_pos hcount, Nat.succ_sub_one]

theorem splitsAt_last (hhole : t.state = blockSegHole) (hresult : balloc k t.count = .ok tmp)
    (hcount : tmp.count ≠ t.count) : splitsAt balloc 0 k (t :: rest) = true := by
  unfold splitsAt isPartialResult
  rw [hresult, hhole, beq_self_eq_true, Bool.true_and]
  exact bne_iff_ne.mpr hcount

/-! ### One turn -/

/-- What the loop does with some fuel. -/
def LoopSpec (balloc : Nat → Nat → Except Int BlockSegment) (segState fuel : Nat) : Prop :=
  ∀ s pre segs junk, LoopState s pre segs junk → (∀ t ∈ segs, 0 < t.count) →
    s.rq.segMax < s.i + fuel →
    LoopResult balloc segState s pre segs (segAllocLoop balloc segState fuel s)

variable {s s₁ : SegAlloc} {pre junk junk₁ segs₁ : List StateSegment} {x : StateSegment}
  {fuel : Nat}

theorem LoopState.bounds (h : LoopState s pre (t :: rest) junk) :
    s.rq.segCnt = s.i + 1 + rest.length ∧
      s.rq.segMax = s.i + 1 + rest.length + junk.length := by
  have hcnt := h.segCnt
  have hmax := h.segMax
  have hi := h.i_eq
  rw [List.length_cons] at hcnt hmax
  exact ⟨by omega, by omega⟩

/-- There is no segment behind the last place. -/
theorem LoopState.rest_eq_nil (h : LoopState s pre (t :: rest) junk)
    (hzero : s.rq.segMax - 1 - s.i = 0) : rest = [] := by
  obtain ⟨-, hmax⟩ := h.bounds
  exact List.eq_nil_of_length_eq_zero (by omega)

/-- The segment `x` is behind the loop. -/
theorem LoopState.next (h : LoopState s pre (t :: rest) junk)
    (hseg : s₁.rq.seg = pre ++ x :: (segs₁ ++ junk₁)) (hi : s₁.i = s.i + 1)
    (hcnt : s₁.rq.segCnt = s.i + 1 + segs₁.length)
    (hmax : s₁.rq.segMax = s.i + 1 + segs₁.length + junk₁.length)
    (hlast : s₁.last ≤ s₁.rq.segCnt) (hle : s₁.i ≤ s₁.last) :
    LoopState s₁ (pre ++ [x]) segs₁ junk₁ := by
  have hpre := h.i_eq
  have hlength : (pre ++ [x]).length = s.i + 1 := by
    rw [hpre, List.length_append]
    rfl
  refine ⟨?_, by rw [hi, hlength], by rw [hcnt, hlength], by rw [hmax, hlength], hlast, hle⟩
  rw [hseg]
  simp

theorem writeSeg_turn {arr : List StateSegment} (h : LoopState s pre segs₁ junk)
    (harr : arr = pre ++ t :: rest) : writeSeg arr s.i x = .ok (pre ++ x :: rest) := by
  rw [harr]
  exact writeSeg_append h.i_eq

/-- The segment has its blocks. -/
theorem segAllocLoop_keep (ih : LoopSpec balloc segState fuel)
    (h : LoopState s pre (t :: rest) junk) (hpos : ∀ u ∈ rest, 0 < u.count)
    (hfuel : s.rq.segMax < s.i + (fuel + 1)) (hlt : s.i < s.last)
    (hstate : t.state ≠ blockSegHole) :
    LoopResult balloc segState s pre (t :: rest)
      (segAllocLoop balloc segState fuel { s with i := s.i + 1 }) := by
  obtain ⟨hcnt, hmax⟩ := h.bounds
  have hnext : LoopState { s with i := s.i + 1 } (pre ++ [t]) rest junk := by
    refine h.next ?_ rfl hcnt hmax h.last_le hlt
    rw [h.seg, List.append_assoc]
    rfl
  refine (ih _ _ _ _ hnext hpos (by show s.rq.segMax < s.i + 1 + fuel; omega)).step rfl rfl rfl
    ⟨hlt, Nat.le_refl _⟩ (List.append_nil _).symm Iff.rfl ?_ hstate
    (fun segs' log hsplit => .keep hsplit) fun hpart => ⟨hpart, rfl⟩
  rw [splitsAt_keep hstate h.rest_eq_nil, Nat.sub_sub _ s.i 1]

/-- The state behind a turn that stored an extent. -/
def SegAlloc.put (s : SegAlloc) (segs : List StateSegment) (tmp : BlockSegment) : SegAlloc :=
  { s with
    rq := { s.rq with seg := segs }, i := s.i + 1, calls := s.calls + 1
    log := s.log ++ [tmp] }

/-- What the loop does with an extent for the segment at `i`. -/
def afterBalloc (balloc : Nat → Nat → Except Int BlockSegment) (segState fuel : Nat)
    (s : SegAlloc) (t : StateSegment) (tmp : BlockSegment) : Except TuxError (SegAlloc × Int) := do
  let s ← makeRoom s t tmp
  let segs ← writeSeg s.rq.seg s.i ⟨tmp.block, tmp.count, segState⟩
  segAllocLoop balloc segState fuel (s.put segs tmp)

/-- The segment got all of its blocks. -/
theorem afterBalloc_whole (ih : LoopSpec balloc segState fuel)
    (h : LoopState s pre (t :: rest) junk) (hpos : ∀ u ∈ rest, 0 < u.count)
    (hfuel : s.rq.segMax < s.i + (fuel + 1)) (hlt : s.i < s.last)
    (hhole : t.state = blockSegHole) (hstate : segState ≠ blockSegHole)
    (hresult : balloc s.calls t.count = .ok tmp) (hcount : tmp.count = t.count) :
    LoopResult balloc segState s pre (t :: rest)
      (afterBalloc balloc segState fuel s t tmp) := by
  obtain ⟨hcnt, hmax⟩ := h.bounds
  have hroom : makeRoom s t tmp = .ok s := if_neg (not_not.mpr hcount)
  have hwrite : writeSeg s.rq.seg s.i ⟨tmp.block, tmp.count, segState⟩ =
      .ok (pre ++ ⟨tmp.block, tmp.count, segState⟩ :: (rest ++ junk)) := by
    have hseg : s.rq.seg = pre ++ t :: (rest ++ junk) := by
      rw [h.seg, List.append_assoc]
      rfl
    exact writeSeg_turn h hseg
  have hnext : LoopState (s.put (pre ++ ⟨tmp.block, tmp.count, segState⟩ :: (rest ++ junk)) tmp)
      (pre ++ [⟨tmp.block, tmp.count, segState⟩]) rest junk :=
    h.next rfl rfl hcnt hmax h.last_le hlt
  unfold afterBalloc
  rw [bind_of_ok hroom, bind_of_ok hwrite]
  refine (ih _ _ _ _ hnext hpos ?_).step rfl rfl rfl
    ⟨hlt, Nat.le_refl _⟩ rfl Iff.rfl ?_ hstate (fun segs' log hsplit => ?_)
    fun hpart => ⟨hpart, ?_⟩
  · show s.rq.segMax < s.i + 1 + fuel
    omega
  · rw [splitsAt_whole hhole hresult hcount h.rest_eq_nil, Nat.sub_sub _ s.i 1]
    rfl
  · obtain ⟨block, count⟩ := tmp
    obtain rfl : count = t.count := hcount
    exact .whole hhole hsplit
  · rw [List.map_cons, List.sum_cons]
    exact congrArg (· + _) hcount

theorem makeRoom_of_separate {rq : DleafReq} {last : Nat} (hcount : tmp.count ≠ t.count)
    (hsep : separateSeg s.rq s.i s.last tmp.count = .ok (rq, last)) :
    makeRoom s t tmp = .ok { s with rq := rq, last := last, isPartial := true } := by
  unfold makeRoom
  rw [if_pos hcount, bind_of_ok hsep]
  rfl

/-- A partial result for the segment in the last place of `seg[]`. -/
theorem afterBalloc_last (h : LoopState s pre [t] []) (hlt : s.i < s.last)
    (hhole : t.state = blockSegHole) (hresult : balloc s.calls t.count = .ok tmp)
    (hcount : tmp.count ≠ t.count) :
    LoopResult balloc segState s pre [t] (afterBalloc balloc segState fuel s t tmp) := by
  have hi := h.i_eq
  have hlast := h.last_le
  have hcnt : s.rq.segCnt = pre.length + 1 := h.segCnt
  have hmax : s.rq.segMax = pre.length + 1 + 0 := h.segMax
  have hseg : s.rq.seg = pre ++ [t] := h.seg.trans (List.append_nil _)
  have hsep : separateSeg s.rq s.i s.last tmp.count = .error .bounds := by
    rw [hi]
    exact separateSeg_last hseg hcnt (hcnt.trans hmax.symm)
  have hroom : makeRoom s t tmp = .error .bounds := by
    unfold makeRoom
    rw [if_pos hcount, bind_of_error hsep]
  unfold afterBalloc
  rw [bind_of_error hroom]
  refine ⟨fun _ => rfl, fun hnot => absurd ⟨by omega, ?_⟩ hnot⟩
  rw [show s.rq.segMax - 1 - s.i = 0 by omega]
  exact splitsAt_last hhole hresult hcount

/-- A partial result where `seg[]` is full: its last segment is dropped. -/
theorem afterBalloc_full (ih : LoopSpec balloc segState fuel)
    (h : LoopState s pre (t :: (rest ++ [x])) []) (hpos : ∀ u ∈ rest, 0 < u.count)
    (hfuel : s.rq.segMax < s.i + (fuel + 1)) (hlt : s.i < s.last)
    (hhole : t.state = blockSegHole) (hstate : segState ≠ blockSegHole)
    (hresult : balloc s.calls t.count = .ok tmp) (htmp : 0 < tmp.count)
    (hpart : tmp.count < t.count) :
    LoopResult balloc segState s pre (t :: (rest ++ [x]))
      (afterBalloc balloc segState fuel s t tmp) := by
  have hcount := Nat.ne_of_lt hpart
  obtain ⟨hcnt, hmax⟩ := h.bounds
  rw [List.length_append, List.length_singleton] at hcnt hmax
  have hi := h.i_eq
  have hseg : s.rq.seg = pre ++ t :: (rest ++ [x]) := h.seg.trans (List.append_nil _)
  have hsep : separateSeg s.rq s.i s.last tmp.count = .ok ({ s.rq with
      seg := pre ++ t :: t.behind tmp.count :: rest }, s.last) := by
    rw [hi]
    exact separateSeg_full hseg (by omega) (hcnt.trans hmax.symm)
  have hwrite : writeSeg (pre ++ t :: t.behind tmp.count :: rest) s.i
      ⟨tmp.block, tmp.count, segState⟩ =
      .ok (pre ++ ⟨tmp.block, tmp.count, segState⟩ :: t.behind tmp.count :: rest) :=
    writeSeg_turn h rfl
  have hplaces : s.rq.segMax - 1 - (s.i + 1) = rest.length := by
    rw [List.length_nil] at hmax
    omega
  have hdropped : (t.behind tmp.count :: (rest ++ [x])).take (rest.length + 1) =
      t.behind tmp.count :: rest := by
    rw [List.take_succ_cons, List.take_left]
  have hroom := makeRoom_of_separate hcount hsep
  have hnext : LoopState (SegAlloc.put
      ⟨⟨s.rq.segIdx, s.rq.segCnt, s.rq.segMax, pre ++ t :: t.behind tmp.count :: rest⟩, s.i,
        s.last, true, s.calls, s.log⟩
      (pre ++ ⟨tmp.block, tmp.count, segState⟩ :: t.behind tmp.count :: rest) tmp)
      (pre ++ [⟨tmp.block, tmp.count, segState⟩]) (t.behind tmp.count :: rest) [] := by
    refine h.next ?_ rfl hcnt hmax h.last_le hlt
    rw [List.append_nil]
    rfl
  unfold afterBalloc
  rw [bind_of_ok hroom, bind_of_ok hwrite]
  refine (ih _ _ _ _ hnext (List.forall_mem_cons.mpr ⟨Nat.sub_pos_of_lt hpart, hpos⟩) ?_).step
    rfl rfl rfl ⟨hlt, Nat.le_refl _⟩ rfl Iff.rfl ?_ hstate (fun segs' log hsplit => ?_)
    fun hfalse => absurd hfalse.symm Bool.false_ne_true
  · show s.rq.segMax < s.i + 1 + fuel
    omega
  · rw [splitsAt_piece hhole hresult hcount (by omega), Nat.sub_sub _ s.i 1, hplaces,
      ← splitsAt_take, hdropped]
    exact congrArg (splitsAt balloc · _ _) hplaces.symm
  · have htaken : SegSplit segState
        ((t.behind tmp.count :: (rest ++ [x])).take (rest.length + 1)) segs' log := by
      rw [hdropped]
      exact hsplit
    exact .piece hhole htmp hpart htaken.of_take

/-- A partial result where `seg[]` has room. -/
theorem afterBalloc_room (ih : LoopSpec balloc segState fuel)
    (h : LoopState s pre (t :: rest) (x :: junk)) (hpos : ∀ u ∈ rest, 0 < u.count)
    (hfuel : s.rq.segMax < s.i + (fuel + 1)) (hlt : s.i < s.last)
    (hhole : t.state = blockSegHole) (hstate : segState ≠ blockSegHole)
    (hresult : balloc s.calls t.count = .ok tmp) (htmp : 0 < tmp.count)
    (hpart : tmp.count < t.count) :
    LoopResult balloc segState s pre (t :: rest)
      (afterBalloc balloc segState fuel s t tmp) := by
  have hcount := Nat.ne_of_lt hpart
  obtain ⟨hcnt, hmax⟩ := h.bounds
  rw [List.length_cons] at hmax
  have hi := h.i_eq
  have hseg : s.rq.seg = pre ++ t :: (rest ++ x :: junk) := by
    rw [h.seg, List.append_assoc]
    rfl
  have hsep : separateSeg s.rq s.i s.last tmp.count = .ok ({ s.rq with
      segCnt := s.rq.segCnt + 1
      seg := pre ++ t :: t.behind tmp.count :: (rest ++ junk) }, s.last + 1) := by
    rw [hi]
    exact separateSeg_room hseg (by omega) (by omega)
  have hwrite : writeSeg (pre ++ t :: t.behind tmp.count :: (rest ++ junk)) s.i
      ⟨tmp.block, tmp.count, segState⟩ =
      .ok (pre ++ ⟨tmp.block, tmp.count, segState⟩ ::
        t.behind tmp.count :: (rest ++ junk)) :=
    writeSeg_turn h rfl
  have hroom := makeRoom_of_separate hcount hsep
  have hnext : LoopState (SegAlloc.put
      ⟨⟨s.rq.segIdx, s.rq.segCnt + 1, s.rq.segMax,
        pre ++ t :: t.behind tmp.count :: (rest ++ junk)⟩, s.i, s.last + 1, true, s.calls, s.log⟩
      (pre ++ ⟨tmp.block, tmp.count, segState⟩ :: t.behind tmp.count :: (rest ++ junk)) tmp)
      (pre ++ [⟨tmp.block, tmp.count, segState⟩]) (t.behind tmp.count :: rest) junk := by
    refine h.next rfl rfl ?_ ?_ (Nat.succ_le_succ h.last_le) (Nat.succ_le_succ h.le_last)
    · show s.rq.segCnt + 1 = _
      rw [List.length_cons]
      omega
    · show s.rq.segMax = _
      rw [List.length_cons]
      omega
  unfold afterBalloc
  rw [bind_of_ok hroom, bind_of_ok hwrite]
  refine (ih _ _ _ _ hnext (List.forall_mem_cons.mpr ⟨Nat.sub_pos_of_lt hpart, hpos⟩) ?_).step
    rfl rfl rfl ⟨hlt, Nat.le_succ _⟩ rfl Nat.succ_inj ?_ hstate
    (fun segs' log hsplit => .piece hhole htmp hpart hsplit)
    fun hfalse => absurd hfalse.symm Bool.false_ne_true
  · show s.rq.segMax < s.i + 1 + fuel
    omega
  · rw [splitsAt_piece hhole hresult hcount (by omega), Nat.sub_sub _ s.i 1]
    rfl

/-- `balloc_partial` fails. -/
theorem loopResult_err {e : Int} (h : LoopState s pre (t :: rest) junk)
    (hhole : t.state = blockSegHole) (hresult : balloc s.calls t.count = .error e) (hneg : e < 0) :
    LoopResult balloc segState s pre (t :: rest) (.ok (s, e)) := by
  obtain ⟨hcnt, hmax⟩ := h.bounds
  have hi := h.i_eq
  refine ⟨?_, fun _ => ⟨s, e, t :: rest, junk, [], rfl, ?_, ?_, .refl _ _,
    (List.append_nil _).symm, fun hret => by omega, fun hret => by omega⟩⟩
  · rintro ⟨-, hsplits⟩
    rw [splitsAt_err hhole hresult] at hsplits
    cases hsplits
  · have hcnt' : s.i + (t :: rest).length = s.rq.segCnt := by
      rw [List.length_cons]
      omega
    rw [← h.seg, hcnt']
  · simp only [List.length_append, List.length_cons]
    omega

/-- The loop from a state on. -/
theorem segAllocLoop_spec (hballoc : BallocOk balloc) (hstate : segState ≠ blockSegHole)
    (fuel : Nat) : LoopSpec balloc segState fuel := by
  induction fuel with
  | zero =>
      intro s pre segs junk h hpos hfuel
      have hi := h.i_eq
      have hmax := h.segMax
      omega
  | succ fuel ih =>
      intro s pre segs junk h hpos hfuel
      rcases Nat.eq_or_lt_of_le h.le_last with hend | hlt
      · exact segAllocLoop_end h fuel hend
      cases segs with
      | nil =>
          have hcnt := h.segCnt
          have hi := h.i_eq
          have hlast := h.last_le
          rw [List.length_nil] at hcnt
          omega
      | cons t rest =>
          obtain ⟨htpos, hrestpos⟩ := List.forall_mem_cons.mp hpos
          have hread : readSeg s.rq.seg s.i = .ok t := by
            rw [h.seg, List.append_assoc]
            exact readSeg_append h.i_eq
          unfold segAllocLoop
          rw [if_pos hlt, bind_of_ok hread]
          by_cases hhole : t.state ≠ blockSegHole
          · rw [if_pos hhole]
            exact segAllocLoop_keep ih h hrestpos hfuel hlt hhole
          rw [if_neg hhole]
          have hhole' := not_not.mp hhole
          cases hresult : balloc s.calls t.count with
          | error e => exact loopResult_err h hhole' hresult (hballoc.err _ _ _ hresult)
          | ok tmp =>
              show LoopResult balloc segState s pre (t :: rest)
                (afterBalloc balloc segState fuel s t tmp)
              obtain ⟨htmp, htmple⟩ := hballoc.count _ _ _ htpos hresult
              rcases Nat.eq_or_lt_of_le htmple with hcount | hpart
              · exact afterBalloc_whole ih h hrestpos hfuel hlt hhole' hstate hresult hcount
              cases junk with
              | cons x junk =>
                  exact afterBalloc_room ih h hrestpos hfuel hlt hhole' hstate hresult htmp hpart
              | nil =>
                  rcases List.eq_nil_or_concat rest with rfl | ⟨front, x, hrest⟩
                  · exact afterBalloc_last h hlt hhole' hresult (Nat.ne_of_lt hpart)
                  · rw [List.concat_eq_append] at hrest
                    subst hrest
                    refine afterBalloc_full ih h (fun u hu => ?_) hfuel hlt hhole' hstate hresult
                      htmp hpart
                    exact hrestpos u (List.mem_append_left _ hu)

end Loop

end Tux3
