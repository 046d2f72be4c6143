/-
  Buffer/FlushList.lean --- the flush of a list of dirty buffers.

  `flush_list` sorts the buffers, collects ranges of consecutive ones, and gives a range to
  `map->io` until all of it is completed.  The first buffer that is wholly outside of the file
  cancels itself and all that follow.
-/
import Mathlib.Data.List.Sort
import Tux3.Buffer.Compress
import Tux3.Log.Chain

set_option autoImplicit false

namespace Tux3

open Outcome (bind_of_ok bind_eq_ok)

/-! ## The code -/

/-- What a flush looks at of the inode; `iSize` is `idata->i_size`. -/
structure FlushInode where
  inum : Nat
  compressedFile : Bool
  iSize : Nat
  blockbits : Nat

/-- `outside_block`. -/
def FlushInode.outsideBlock (inode : FlushInode) : Nat :=
  (inode.iSize + (2 ^ inode.blockbits - 1)) / 2 ^ inode.blockbits

/-- The limit on the length of a range. -/
def FlushInode.rangeLimit (inode : FlushInode) : Nat :=
  if inode.compressedFile then compressionStrideLen else 2 ^ 32 - 1

/-- A range of the volume that `map->io` writes to: its first block, and its length. -/
structure IoRange where
  physical : Nat
  count : Nat

namespace Bufvec

/-- `bufvec_init`. -/
def init (head : List VecBuffer) : Bufvec where
  buffers := head
  contig := []
  contigCount := 0
  compress := []
  compressCount := 0
  forIo := []
  globalIndex := 0
  ios := []
  unused := []
  cancelled := []

/-- `bufvec_io_done`: the buffers on `for_io` are ended, and those that were not needed for the
compressed blocks. -/
def ioDone (inode : FlushInode) (bufvec : Bufvec) : Bufvec :=
  if inode.compressedFile then
    { bufvec with
      forIo := []
      compress := []
      compressCount := 0
      unused := bufvec.unused ++ bufvec.compress }
  else { bufvec with forIo := [] }

/-- `bufvec_io` adds buffers for I/O. -/
def takeForIo : Nat → Bufvec → Except TuxError Bufvec
  | 0, bufvec => return bufvec
  | count + 1, bufvec =>
      match bufvec.contig with
      | [] => .error .bounds
      | buffer :: contig =>
          takeForIo count { bufvec with
            contig := contig
            contigCount := bufvec.contigCount - 1
            forIo := bufvec.forIo ++ [buffer] }

/-- `bufvec_io`, of a write. -/
def bufvecIo (inode : FlushInode) (noMem : Bool) (range : IoRange) (bufvec : Bufvec) :
    Except TuxError (Bufvec × Int) := do
  tuxAssert (range.count ≤ bufvec.contigCount)
  if noMem then return (bufvec, -enomem)
  let bufvec ← takeForIo range.count bufvec
  tuxAssert (0 < range.count)
  return (ioDone inode { bufvec with ios := bufvec.ios ++ [⟨range.physical, bufvec.forIo⟩] }, 0)

/-- A `map->io` that writes to some ranges in turn, up to the first that fails. -/
def runRanges (inode : FlushInode) : List IoRange → Bufvec → Except TuxError (Bufvec × Int)
  | [], bufvec => return (bufvec, 0)
  | range :: ranges, bufvec => do
      let (bufvec, err) ← bufvecIo inode false range bufvec
      if err ≠ 0 then return (bufvec, err)
      else runRanges inode ranges bufvec

/-- `bufvec_cancel_dirty_outside`. -/
def cancelDirtyOutside (bufvec : Bufvec) : Bufvec :=
  { bufvec with buffers := [], cancelled := bufvec.cancelled ++ bufvec.buffers }

/-- The loop of `bufvec_contig_collect`, on the buffers that are left.  The indices go up, so that
`next_index - 1` does not wrap. -/
def collectLoop (limit outside : Nat) : List VecBuffer → Bufvec → Bufvec
  | [], bufvec => bufvec
  | buffer :: buffers, bufvec =>
      if bufvec.contigCount = limit then bufvec
      else
        let bufvec := { bufvec with
          buffers := buffers
          contig := bufvec.contig ++ [buffer]
          contigCount := bufvec.contigCount + 1 }
        match buffers with
        | [] => bufvec
        | next :: rest =>
            if outside ≤ next.index then bufvec.cancelDirtyOutside
            else if buffer.index + 1 = next.index then
              collectLoop limit outside (next :: rest) bufvec
            else bufvec

/-- `bufvec_contig_collect`. -/
def contigCollect (inode : FlushInode) (lzo : Lzo) (noMem : Bool) (bufvec : Bufvec) :
    Except TuxError (Bufvec × Bool) :=
  if bufvec.contigCount ≠ 0 then return (bufvec, true)
  else
    match bufvec.buffers with
    | [] => .error .assertion
    | buffer :: _ =>
        if inode.outsideBlock ≤ buffer.index then return (bufvec.cancelDirtyOutside, false)
        else
          let bufvec := collectLoop inode.rangeLimit inode.outsideBlock bufvec.buffers bufvec
          if 64 ≤ inode.inum ∧ inode.compressedFile = true then do
            let (bufvec, _) ← bufvec.compressStride lzo noMem
            return (bufvec, bufvec.contigCount ≠ 0)
          else return (bufvec, bufvec.contigCount ≠ 0)

/-- The loop of `flush_list`. -/
def flushLoop (inode : FlushInode) (lzo : Lzo) (noMem : Bool)
    (io : Bufvec → Except TuxError (Bufvec × Int)) :
    Nat → Bufvec → Except TuxError (Bufvec × Int)
  | 0, _ => .error .fuel
  | fuel + 1, bufvec =>
      if bufvec.contig = [] ∧ bufvec.buffers = [] then return (bufvec, 0)
      else do
        let (bufvec, collected) ← bufvec.contigCollect inode lzo noMem
        if collected then do
          let (bufvec, err) ← io bufvec
          if err ≠ 0 then return (bufvec, err)
          else flushLoop inode lzo noMem io fuel bufvec
        else flushLoop inode lzo noMem io fuel bufvec

/-- `list_sort` with `buffer_index_cmp`. -/
def sortBuffers (head : List VecBuffer) : List VecBuffer :=
  head.mergeSort fun a b => a.index ≤ b.index

/-- `flush_list`, with the asserts of `bufvec_free`. -/
def flushList (inode : FlushInode) (lzo : Lzo) (noMem : Bool)
    (io : Bufvec → Except TuxError (Bufvec × Int)) (head : List VecBuffer) :
    Except TuxError (Bufvec × Int) :=
  if head = [] then return (init [], 0)
  else do
    let (bufvec, err) ←
      flushLoop inode lzo noMem io (head.length + 1) (init (sortBuffers head))
    tuxAssert (bufvec.buffers = [])
    tuxAssert (bufvec.contig = [])
    tuxAssert (bufvec.forIo = [])
    return (bufvec, err)

end Bufvec

/-! ## What a flush is to do -/

/-- The indices of some buffers are consecutive. -/
def IsRun (buffers : List VecBuffer) : Prop :=
  ∃ start, buffers.map VecBuffer.index = List.range' start buffers.length

/-- Whether the block of a buffer is below the end of the file. -/
def VecBuffer.inside (buffer : VecBuffer) (outside : Nat) : Bool := buffer.index < outside

/-- On each call `map->io` completes some first part, which is not empty, of the range. -/
def CompletesPrefix (inode : FlushInode) (io : Bufvec → Except TuxError (Bufvec × Int)) : Prop :=
  ∀ bufvec, bufvec.contigCount = bufvec.contig.length → bufvec.contig ≠ [] → ∃ ranges,
    ranges ≠ [] ∧ (∀ range ∈ ranges, 0 < range.count) ∧
      (ranges.map IoRange.count).sum ≤ bufvec.contig.length ∧
      io bufvec = bufvec.runRanges inode ranges

/-- All buffers went their way: those inside of the file were written in ascending order and in
runs, and the others were cancelled. -/
structure FlushDone (outside : Nat) (head : List VecBuffer) (bufvec : Bufvec) : Prop where
  buffers : bufvec.buffers = []
  contig : bufvec.contig = []
  forIo : bufvec.forIo = []
  order : ∃ order : List VecBuffer, order.Perm head ∧
    order.Pairwise (fun a b => a.index < b.index) ∧
    bufvec.ios.flatMap VecIo.buffers = order.filter (·.inside outside) ∧
    bufvec.cancelled = order.filter (!·.inside outside)
  runs : ∀ io ∈ bufvec.ios, io.buffers ≠ [] ∧ IsRun io.buffers

/-- The invariant of a flush: what is written, what is in progress and what is left make up the
buffers inside of the file, and so with those outside. -/
structure FlushInv (outside : Nat) (order : List VecBuffer) (bufvec : Bufvec) : Prop where
  counted : bufvec.contigCount = bufvec.contig.length
  forIo : bufvec.forIo = []
  run : IsRun bufvec.contig
  sorted : bufvec.buffers.Pairwise fun a b => a.index < b.index
  written : bufvec.ios.flatMap VecIo.buffers ++
      (bufvec.contig ++ bufvec.buffers.filter (·.inside outside)) =
    order.filter (·.inside outside)
  cancelled : bufvec.cancelled ++ bufvec.buffers.filter (!·.inside outside) =
    order.filter (!·.inside outside)
  runs : ∀ io ∈ bufvec.ios, io.buffers ≠ [] ∧ IsRun io.buffers

section

variable {outside limit count : Nat} {order front back rest head : List VecBuffer}
  {buffer : VecBuffer} {bufvec : Bufvec} {inode : FlushInode} {lzo : Lzo} {noMem : Bool}
  {range : IoRange} {ranges : List IoRange} {io : Bufvec → Except TuxError (Bufvec × Int)}

/-! ## Runs of indices -/

theorem isRun_nil : IsRun [] := ⟨0, rfl⟩

theorem isRun_singleton (buffer : VecBuffer) : IsRun [buffer] := ⟨buffer.index, rfl⟩

/-- The parts of a run are runs. -/
theorem IsRun.append (h : IsRun (front ++ back)) : IsRun front ∧ IsRun back := by
  obtain ⟨start, h⟩ := h
  rw [List.map_append, List.length_append, ← List.range'_append_1] at h
  obtain ⟨hfront, hback⟩ := List.append_inj h (by rw [List.length_map, List.length_range'])
  exact ⟨⟨start, hfront⟩, ⟨start + front.length, hback⟩⟩

/-- A run goes on with the next index. -/
theorem IsRun.snoc {last next : VecBuffer} (h : IsRun (front ++ [last]))
    (hnext : last.index + 1 = next.index) : IsRun (front ++ [last] ++ [next]) := by
  obtain ⟨start, h⟩ := h
  refine ⟨start, ?_⟩
  have hlast := h
  rw [List.map_append, List.length_append, List.length_singleton, List.range'_concat] at hlast
  have heq := (List.append_inj' hlast rfl).2
  rw [List.map_singleton, List.singleton_inj] at heq
  have hlength : (front ++ [last] ++ [next]).length = (front ++ [last]).length + 1 :=
    List.length_append
  rw [List.map_append, h, hlength, List.range'_concat, List.map_singleton, ← hnext, heq,
    List.length_append, List.length_singleton]
  congr 2

/-! ## I/O -/

theorem takeForIo_eq (hcontig : bufvec.contig = front ++ back) :
    bufvec.takeForIo front.length = .ok { bufvec with
      contig := back
      contigCount := bufvec.contigCount - front.length
      forIo := bufvec.forIo ++ front } := by
  induction front generalizing bufvec with
  | nil =>
      rw [List.nil_append] at hcontig
      rw [← hcontig, List.append_nil]
      rfl
  | cons buffer front ih =>
      rw [List.length_cons, Bufvec.takeForIo, hcontig]
      dsimp only [List.cons_append]
      have hrest := @ih { bufvec with
        contig := front ++ back
        contigCount := bufvec.contigCount - 1
        forIo := bufvec.forIo ++ [buffer] } rfl
      rw [hrest, List.append_assoc]
      dsimp only
      rw [Nat.sub_sub, Nat.add_comm 1]
      rfl

/-- A part of the range is written. -/
theorem FlushInv.bufvecIo (h : FlushInv outside order bufvec) (hpos : 0 < range.count)
    (hle : range.count ≤ bufvec.contig.length) :
    ∃ bufvec', bufvec.bufvecIo inode false range = .ok (bufvec', 0) ∧
      FlushInv outside order bufvec' ∧ bufvec'.buffers = bufvec.buffers ∧
      bufvec'.contig.length + range.count = bufvec.contig.length := by
  have hsplit := (List.take_append_drop range.count bufvec.contig).symm
  have hlength : (bufvec.contig.take range.count).length = range.count :=
    List.length_take_of_le hle
  have htake := takeForIo_eq hsplit
  rw [hlength, h.forIo, List.nil_append] at htake
  obtain ⟨hfront, hback⟩ := (hsplit ▸ h.run).append
  have hne : bufvec.contig.take range.count ≠ [] := by
    intro hnil
    rw [hnil, List.length_nil] at hlength
    omega
  have hassert : range.count ≤ bufvec.contigCount := by
    rw [h.counted]
    exact hle
  unfold Bufvec.bufvecIo
  rw [bind_of_ok (tuxAssert_of hassert), if_neg Bool.false_ne_true, bind_of_ok htake,
    bind_of_ok (tuxAssert_of hpos)]
  refine ⟨_, rfl, ?_, ?_, ?_⟩
  · have hinv : FlushInv outside order { bufvec with
        contig := bufvec.contig.drop range.count
        contigCount := bufvec.contigCount - range.count
        forIo := []
        ios := bufvec.ios ++ [⟨range.physical, bufvec.contig.take range.count⟩] } := by
      refine ⟨?_, rfl, hback, h.sorted, ?_, h.cancelled, fun io hio => ?_⟩
      · dsimp only
        rw [h.counted, List.length_drop]
      · rw [← h.written]
        dsimp only
        rw [List.flatMap_append, List.flatMap_singleton, List.append_assoc, ← List.append_assoc
          (bufvec.contig.take range.count), List.take_append_drop]
      · rcases List.mem_append.mp hio with hold | hnew
        · exact h.runs io hold
        · rw [List.mem_singleton.mp hnew]
          exact ⟨hne, hfront⟩
    unfold Bufvec.ioDone
    split
    · exact ⟨hinv.counted, rfl, hinv.run, hinv.sorted, hinv.written, hinv.cancelled, hinv.runs⟩
    · exact hinv
  · unfold Bufvec.ioDone
    split <;> rfl
  · have hdrop : (bufvec.contig.drop range.count).length + range.count = bufvec.contig.length := by
      rw [List.length_drop]
      omega
    unfold Bufvec.ioDone
    split <;> exact hdrop

/-- Some ranges are written in turn. -/
theorem FlushInv.runRanges (h : FlushInv outside order bufvec)
    (hpos : ∀ range ∈ ranges, 0 < range.count)
    (hle : (ranges.map IoRange.count).sum ≤ bufvec.contig.length) :
    ∃ bufvec', bufvec.runRanges inode ranges = .ok (bufvec', 0) ∧
      FlushInv outside order bufvec' ∧ bufvec'.buffers = bufvec.buffers ∧
      bufvec'.contig.length + (ranges.map IoRange.count).sum = bufvec.contig.length := by
  induction ranges generalizing bufvec with
  | nil => exact ⟨bufvec, rfl, h, rfl, rfl⟩
  | cons range ranges ih =>
      obtain ⟨hfirst, hpos⟩ := List.forall_mem_cons.mp hpos
      rw [List.map_cons, List.sum_cons] at hle ⊢
      obtain ⟨bufvec', hrun, hinv, hbuffers, hlength⟩ :=
        @FlushInv.bufvecIo _ _ _ inode range h hfirst (by omega)
      obtain ⟨bufvec'', hrest, hinv', hbuffers', hlength'⟩ := ih hinv hpos (by omega)
      refine ⟨bufvec'', ?_, hinv', hbuffers'.trans hbuffers, by omega⟩
      unfold Bufvec.runRanges
      rw [bind_of_ok hrun]
      exact hrest

/-! ## Collecting -/

/-- The buffers that are left are cancelled. -/
theorem FlushInv.cancel (h : FlushInv outside order bufvec)
    (hall : ∀ buffer ∈ bufvec.buffers, outside ≤ buffer.index) :
    FlushInv outside order bufvec.cancelDirtyOutside := by
  have hin : bufvec.buffers.filter (·.inside outside) = [] := by
    rw [List.filter_eq_nil_iff]
    intro buffer hmem
    unfold VecBuffer.inside
    rw [decide_eq_true_eq]
    exact Nat.not_lt_of_le (hall buffer hmem)
  have hout : bufvec.buffers.filter (!·.inside outside) = bufvec.buffers := by
    rw [List.filter_eq_self]
    intro buffer hmem
    unfold VecBuffer.inside
    rw [decide_eq_false (Nat.not_lt_of_le (hall buffer hmem))]
    rfl
  have hwritten := h.written
  have hcancelled := h.cancelled
  rw [hin] at hwritten
  rw [hout] at hcancelled
  refine ⟨h.counted, h.forIo, h.run, List.Pairwise.nil, hwritten, ?_, h.runs⟩
  unfold Bufvec.cancelDirtyOutside
  rw [List.filter_nil, List.append_nil]
  exact hcancelled

/-- A buffer is moved to the range. -/
theorem FlushInv.move (h : FlushInv outside order bufvec)
    (hbuffers : bufvec.buffers = buffer :: rest) (hrun : IsRun (bufvec.contig ++ [buffer]))
    (hin : buffer.index < outside) : FlushInv outside order { bufvec with
      buffers := rest
      contig := bufvec.contig ++ [buffer]
      contigCount := bufvec.contigCount + 1 } := by
  obtain ⟨hcounted, hforIo, -, hsorted, hwritten, hcancelled, hruns⟩ := h
  have hinside : buffer.inside outside = true := decide_eq_true hin
  have hkeep : (buffer :: rest).filter (·.inside outside) =
      buffer :: rest.filter (·.inside outside) := List.filter_cons_of_pos hinside
  have hdrop : (buffer :: rest).filter (!·.inside outside) = rest.filter (!·.inside outside) :=
    List.filter_cons_of_neg (by rw [hinside]; decide)
  rw [hbuffers] at hsorted hwritten hcancelled
  rw [hkeep] at hwritten
  rw [hdrop] at hcancelled
  refine ⟨?_, hforIo, hrun, (List.pairwise_cons.mp hsorted).2, ?_, hcancelled, hruns⟩
  · dsimp only
    rw [hcounted, List.length_append, List.length_singleton]
  · rw [← hwritten, List.append_assoc bufvec.contig]
    rfl

/-- The loop of `bufvec_contig_collect`, where the next buffer goes on with the range. -/
theorem FlushInv.collectLoop (h : FlushInv outside order bufvec)
    (hbuffers : bufvec.buffers = buffer :: rest) (hrun : IsRun (bufvec.contig ++ [buffer]))
    (hin : buffer.index < outside) (hroom : bufvec.contig ≠ [] ∨ limit ≠ 0) :
    FlushInv outside order (Bufvec.collectLoop limit outside (buffer :: rest) bufvec) ∧
      (Bufvec.collectLoop limit outside (buffer :: rest) bufvec).contig ≠ [] ∧
      (Bufvec.collectLoop limit outside (buffer :: rest) bufvec).contig.length +
          (Bufvec.collectLoop limit outside (buffer :: rest) bufvec).buffers.length ≤
        bufvec.contig.length + bufvec.buffers.length := by
  induction rest generalizing buffer bufvec with
  | nil =>
      unfold Bufvec.collectLoop
      split
      · rename_i hlimit
        refine ⟨h, fun hnil => ?_, Nat.le_refl _⟩
        rw [h.counted, hnil, List.length_nil] at hlimit
        exact (hroom.resolve_left (not_not_intro hnil)) hlimit.symm
      · refine ⟨h.move hbuffers hrun hin,
          List.append_ne_nil_of_right_ne_nil _ (List.cons_ne_nil _ _), ?_⟩
        rw [hbuffers]
        dsimp only
        rw [List.length_append, List.length_singleton, List.length_nil]
  | cons next rest ih =>
      rw [Bufvec.collectLoop]
      split
      · rename_i hlimit
        refine ⟨h, fun hnil => ?_, Nat.le_refl _⟩
        rw [h.counted, hnil, List.length_nil] at hlimit
        exact (hroom.resolve_left (not_not_intro hnil)) hlimit.symm
      · have hmove := h.move hbuffers hrun hin
        have hne : bufvec.contig ++ [buffer] ≠ [] :=
          List.append_ne_nil_of_right_ne_nil _ (List.cons_ne_nil _ _)
        have hlength : (bufvec.contig ++ [buffer]).length + (next :: rest).length =
            bufvec.contig.length + bufvec.buffers.length := by
          rw [hbuffers]
          simp only [List.length_append, List.length_cons, List.length_nil]
          omega
        dsimp only
        split
        · rename_i hout
          -- the rest is behind the next one
          have hall : ∀ b ∈ next :: rest, outside ≤ b.index := by
            refine List.forall_mem_cons.mpr ⟨hout, fun b hb => ?_⟩
            have hlt := (List.pairwise_cons.mp hmove.sorted).1 b hb
            exact Nat.le_trans hout (Nat.le_of_lt hlt)
          refine ⟨hmove.cancel hall, hne, ?_⟩
          unfold Bufvec.cancelDirtyOutside
          dsimp only
          rw [List.length_nil, ← hlength]
          omega
        · rename_i hinside
          split
          · rename_i hnext
            obtain ⟨hinv, hnonempty, hle⟩ := @ih next _ hmove rfl (hrun.snoc hnext)
              (Nat.lt_of_not_le hinside) (.inl hne)
            exact ⟨hinv, hnonempty, Nat.le_trans hle (Nat.le_of_eq hlength)⟩
          · exact ⟨hmove, hne, Nat.le_of_eq hlength⟩

/-- `bufvec_contig_collect` of an inode that is not compressed. -/
theorem FlushInv.contigCollect (h : FlushInv inode.outsideBlock order bufvec)
    (hplain : ¬(64 ≤ inode.inum ∧ inode.compressedFile = true))
    (hne : ¬(bufvec.contig = [] ∧ bufvec.buffers = [])) :
    ∃ bufvec' collected, bufvec.contigCollect inode lzo noMem = .ok (bufvec', collected) ∧
      FlushInv inode.outsideBlock order bufvec' ∧
      (if collected then bufvec'.contig ≠ [] ∧ bufvec'.contig.length + bufvec'.buffers.length ≤
          bufvec.contig.length + bufvec.buffers.length
        else bufvec'.contig = [] ∧ bufvec'.buffers = []) := by
  unfold Bufvec.contigCollect
  by_cases hcount : bufvec.contigCount = 0
  swap
  · rw [if_pos hcount]
    refine ⟨_, _, rfl, h, fun hnil => hcount ?_, Nat.le_refl _⟩
    rw [h.counted, hnil, List.length_nil]
  have hcontig : bufvec.contig = [] := List.eq_nil_of_length_eq_zero (h.counted.symm.trans hcount)
  rw [if_neg (not_not_intro hcount)]
  cases hbuffers : bufvec.buffers with
  | nil => exact absurd ⟨hcontig, hbuffers⟩ hne
  | cons buffer rest =>
      dsimp only
      split
      · rename_i hout
        refine ⟨_, _, rfl, h.cancel ?_, hcontig, rfl⟩
        have hsorted := h.sorted
        rw [hbuffers] at hsorted ⊢
        refine List.forall_mem_cons.mpr ⟨hout, fun b hb => ?_⟩
        exact Nat.le_trans hout (Nat.le_of_lt ((List.pairwise_cons.mp hsorted).1 b hb))
      · rename_i hin
        have hlimit : inode.rangeLimit ≠ 0 := by
          unfold FlushInode.rangeLimit
          split <;> decide
        obtain ⟨hinv, hnonempty, hle⟩ := h.collectLoop hbuffers
          (by rw [hcontig]; exact isRun_singleton buffer) (Nat.lt_of_not_le hin) (.inr hlimit)
        refine ⟨_, _, rfl, hinv, ?_⟩
        have hcollected : (Bufvec.collectLoop inode.rangeLimit inode.outsideBlock (buffer :: rest)
            bufvec).contigCount ≠ 0 := by
          rw [hinv.counted]
          exact fun hzero => hnonempty (List.eq_nil_of_length_eq_zero hzero)
        rw [decide_eq_true hcollected, if_pos rfl, ← hbuffers]
        rw [← hbuffers] at hnonempty hle
        exact ⟨hnonempty, hle⟩

/-! ## `flush_list` -/

/-- The loop ends with no buffer left. -/
theorem FlushInv.flushLoop (h : FlushInv inode.outsideBlock order bufvec)
    (hplain : ¬(64 ≤ inode.inum ∧ inode.compressedFile = true)) (hio : CompletesPrefix inode io)
    (fuel : Nat) (hfuel : bufvec.contig.length + bufvec.buffers.length < fuel) :
    ∃ bufvec', bufvec.flushLoop inode lzo noMem io fuel = .ok (bufvec', 0) ∧
      FlushInv inode.outsideBlock order bufvec' ∧ bufvec'.contig = [] ∧ bufvec'.buffers = [] := by
  induction fuel generalizing bufvec with
  | zero => exact absurd hfuel (Nat.not_lt_zero _)
  | succ fuel ih =>
      unfold Bufvec.flushLoop
      by_cases hdone : bufvec.contig = [] ∧ bufvec.buffers = []
      · rw [if_pos hdone]
        exact ⟨bufvec, rfl, h, hdone.1, hdone.2⟩
      rw [if_neg hdone]
      obtain ⟨bufvec', collected, hrun, hinv, hres⟩ :=
        @FlushInv.contigCollect _ _ _ lzo noMem h hplain hdone
      rw [bind_of_ok hrun]
      cases collected with
      | true =>
          rw [if_pos rfl] at hres
          obtain ⟨hne, hle⟩ := hres
          -- a part of the range that is not empty is completed
          obtain ⟨ranges, hranges, hpos, hsum, heq⟩ := hio bufvec' hinv.counted hne
          obtain ⟨bufvec'', hcall, hinv', hbuffers, hlength⟩ :=
            @FlushInv.runRanges _ _ _ inode ranges hinv hpos hsum
          have hsome : 0 < (ranges.map IoRange.count).sum := by
            obtain ⟨range, ranges', rfl⟩ := List.exists_cons_of_ne_nil hranges
            have hfirst := hpos range List.mem_cons_self
            rw [List.map_cons, List.sum_cons]
            omega
          dsimp only
          rw [if_pos rfl, heq, bind_of_ok hcall]
          refine ih hinv' ?_
          dsimp only
          rw [hbuffers]
          omega
      | false =>
          rw [if_neg Bool.false_ne_true] at hres
          dsimp only
          rw [if_neg Bool.false_ne_true]
          refine ih hinv ?_
          rw [hres.1, hres.2, List.length_nil]
          have hsome : bufvec.contig.length + bufvec.buffers.length ≠ 0 := by
            intro hzero
            refine hdone ⟨List.eq_nil_of_length_eq_zero ?_, List.eq_nil_of_length_eq_zero ?_⟩
            · omega
            · omega
          omega

theorem sortBuffers_pairwise (hdistinct : (head.map VecBuffer.index).Nodup) :
    (Bufvec.sortBuffers head).Pairwise fun a b => a.index < b.index := by
  have hperm : (Bufvec.sortBuffers head).Perm head := List.mergeSort_perm head _
  have hle : (Bufvec.sortBuffers head).Pairwise fun a b => a.index ≤ b.index := by
    have htrans : ∀ a b c : VecBuffer, decide (a.index ≤ b.index) = true →
        decide (b.index ≤ c.index) = true → decide (a.index ≤ c.index) = true := by
      intro a b c hab hbc
      exact decide_eq_true (Nat.le_trans (of_decide_eq_true hab) (of_decide_eq_true hbc))
    have htotal : ∀ a b : VecBuffer,
        (decide (a.index ≤ b.index) || decide (b.index ≤ a.index)) = true := by
      intro a b
      rcases Nat.le_total a.index b.index with h | h
      · rw [decide_eq_true h, Bool.true_or]
      · rw [decide_eq_true h, Bool.or_true]
    exact (List.pairwise_mergeSort htrans htotal head).imp fun h => of_decide_eq_true h
  have hne : (Bufvec.sortBuffers head).Pairwise fun a b => a.index ≠ b.index :=
    List.pairwise_map.mp ((hperm.map VecBuffer.index).nodup_iff.mpr hdistinct)
  exact (hle.and hne).imp fun h => Nat.lt_of_le_of_ne h.1 h.2

end

/-- A file of two blocks. -/
def twoBlockFile : FlushInode := ⟨64, false, 8192, 12⟩

/-- A `map->io` that writes one buffer on each call. -/
def writeOne (inode : FlushInode) (bufvec : Bufvec) : Except TuxError (Bufvec × Int) :=
  bufvec.runRanges inode [⟨0, 1⟩]

theorem writeOne_completesPrefix (inode : FlushInode) : CompletesPrefix inode (writeOne inode) := by
  intro bufvec _ hne
  refine ⟨[⟨0, 1⟩], List.cons_ne_nil _ _, ?_, ?_, rfl⟩
  · intro range hmem
    rw [List.mem_singleton.mp hmem]
    exact Nat.one_pos
  · exact List.length_pos_of_ne_nil hne

end Tux3
