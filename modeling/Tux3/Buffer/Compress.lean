/-
  Buffer/Compress.lean --- the compression of a stride of dirty buffers.

  `compress_stride` gathers the buffers of `contig` into one piece of memory, has them compressed
  into another one of the same size, and puts the compressed blocks back into the first buffers.
  What is compressed may be longer than what was there: neither the size of the output buffer nor
  the end of the list is looked at.
-/
import Tux3.Log.Record
import Tux3.Volume
import Tux3.Lib.Outcome

set_option autoImplicit false

namespace Tux3

open BigEndian
open Outcome (bind_of_ok bind_of_error bind_eq_ok)

/-! ## The buffer vector -/

/-- `struct buffer_head`, as far as a flush looks at it. -/
structure VecBuffer where
  index : Nat
  data : Bytes
  deriving DecidableEq, Repr

/-- An I/O that was completed. -/
structure VecIo where
  physical : Nat
  buffers : List VecBuffer
  deriving DecidableEq, Repr

/-- `struct bufvec`, and what became of the buffers: `ios` were written, `unused` came back from
the compression, and the dirty bit of `cancelled` was cleared without I/O. -/
structure Bufvec where
  buffers : List VecBuffer
  contig : List VecBuffer
  contigCount : Nat
  compress : List VecBuffer
  compressCount : Nat
  forIo : List VecBuffer
  globalIndex : Nat
  ios : List VecIo
  unused : List VecBuffer
  cancelled : List VecBuffer
  deriving DecidableEq, Repr

/-- `PAGE_SIZE_1`. -/
def pageSize1 : Nat := 4096

/-- `memcpy(dst + off, src + soff, PAGE_SIZE_1)`. -/
def memcpyPage (dst : Bytes) (off : Nat) (src : Bytes) (soff : Nat) : Except TuxError Bytes :=
  if off + pageSize1 ≤ dst.length ∧ soff + pageSize1 ≤ src.length then
    .ok (dst.take off ++ (src.drop soff).take pageSize1 ++ dst.drop (off + pageSize1))
  else .error .bounds

/-- Bytes are written to memory, by `memset` or by the compression. -/
def storeBytes (dst : Bytes) (off : Nat) (bytes : Bytes) : Except TuxError Bytes :=
  if off + bytes.length ≤ dst.length then
    .ok (dst.take off ++ bytes ++ dst.drop (off + bytes.length))
  else .error .bounds

/-- LZO: whether `lzo_init` fails, and what `lzo1x_1_compress` returns and writes. -/
structure Lzo where
  initFails : Bool
  compress : Bytes → Int × Bytes

/-- What LZO makes of some bytes, if it works at all. -/
def Lzo.out (lzo : Lzo) (input : Bytes) : Bytes :=
  if lzo.initFails then [] else (lzo.compress input).2

namespace Bufvec

/-- The first loop of `compress_stride`, of `len` turns: the buffers go to `compress`. -/
def gatherLoop : Nat → Nat → Bytes → Bufvec → Except TuxError (Bytes × Bufvec)
  | 0, _, dBuf, bufvec => return (dBuf, bufvec)
  | len + 1, offset, dBuf, bufvec =>
      match bufvec.contig with
      | [] => .error .bounds
      | buffer :: contig => do
          let dBuf ← memcpyPage dBuf offset buffer.data 0
          gatherLoop len (offset + pageSize1) dBuf { bufvec with
            contig := contig
            contigCount := bufvec.contigCount - 1
            compress := bufvec.compress ++ [buffer]
            compressCount := bufvec.compressCount + 1 }

/-- The second loop of `compress_stride`, of `outBlocks` turns: buffers are taken back. -/
def scatterLoop : Nat → Nat → Bytes → Bufvec → Except TuxError Bufvec
  | 0, _, _, bufvec => return bufvec
  | outBlocks + 1, offset, cBuf, bufvec =>
      match bufvec.compress with
      | [] => .error .bounds
      | buffer :: compress => do
          let data ← memcpyPage buffer.data 0 cBuf offset
          scatterLoop outBlocks (offset + pageSize1) cBuf { bufvec with
            compress := compress
            compressCount := bufvec.compressCount - 1
            contig := bufvec.contig ++ [⟨bufvec.globalIndex, data⟩]
            contigCount := bufvec.contigCount + 1
            globalIndex := bufvec.globalIndex + 1 }

/-- `compress_stride`.  The pointer that `init_workspace` returns is not checked, and if `lzo_init`
fails the buffers stay where they are. -/
def compressStride (bufvec : Bufvec) (lzo : Lzo) (noMem : Bool) :
    Except TuxError (Bufvec × Int) :=
  if noMem then .error .bounds
  else do
    let workspace := List.replicate (pageSize1 * bufvec.contigCount) 0
    let (dBuf, bufvec) ← gatherLoop bufvec.contigCount 0 workspace bufvec
    if lzo.initFails then return (bufvec, 3)
    let (ret, out) := lzo.compress dBuf
    let cBuf ← storeBytes workspace 0 out
    let cBuf ← storeBytes cBuf out.length
      (List.replicate (pageSize1 - out.length % pageSize1) 0)
    let bufvec ← scatterLoop (out.length / pageSize1 + 1) 0 cBuf bufvec
    return (bufvec, ret)

/-- What is compressed: the first page of every buffer. -/
def strideInput (buffers : List VecBuffer) : Bytes :=
  buffers.flatMap fun buffer => buffer.data.take pageSize1

end Bufvec

section

variable {dst src back front cBuf bytes : Bytes} {off soff blocksize offset n : Nat}
  {bufvec : Bufvec} {buffers more : List VecBuffer} {lzo : Lzo} {noMem : Bool}

/-! ## The memory -/

theorem memcpyPage_of (hdst : off + pageSize1 ≤ dst.length) (hsrc : soff + pageSize1 ≤ src.length) :
    memcpyPage dst off src soff =
      .ok (dst.take off ++ (src.drop soff).take pageSize1 ++ dst.drop (off + pageSize1)) :=
  if_pos ⟨hdst, hsrc⟩

theorem storeBytes_append (hoff : off = front.length) (hle : bytes.length ≤ back.length) :
    storeBytes (front ++ back) off bytes = .ok (front ++ bytes ++ back.drop bytes.length) := by
  subst hoff
  unfold storeBytes
  rw [if_pos (by rw [List.length_append]; omega), List.take_left, ← List.drop_drop, List.drop_left]

theorem storeBytes_full (h : dst.length < off + bytes.length) :
    storeBytes dst off bytes = .error .bounds :=
  if_neg (Nat.not_le_of_lt h)

/-! ## The loops -/

/-- The buffers of a stride are gathered. -/
theorem gatherLoop_eq (hcontig : bufvec.contig = buffers ++ more)
    (hsize : ∀ buffer ∈ buffers, pageSize1 ≤ buffer.data.length) (hoff : offset = front.length)
    (hback : back.length = pageSize1 * buffers.length) :
    Bufvec.gatherLoop buffers.length offset (front ++ back) bufvec =
      .ok (front ++ Bufvec.strideInput buffers, { bufvec with
        contig := more
        contigCount := bufvec.contigCount - buffers.length
        compress := bufvec.compress ++ buffers
        compressCount := bufvec.compressCount + buffers.length }) := by
  induction buffers generalizing bufvec front back offset with
  | nil =>
      obtain rfl := List.eq_nil_of_length_eq_zero hback
      unfold Bufvec.gatherLoop Bufvec.strideInput
      rw [List.append_nil, List.flatMap_nil, List.append_nil, List.append_nil]
      rw [List.nil_append] at hcontig
      rw [← hcontig]
      rfl
  | cons buffer buffers ih =>
      obtain ⟨hpage, hsize⟩ := List.forall_mem_cons.mp hsize
      subst hoff
      rw [List.length_cons, Nat.mul_succ] at hback
      have hcopy := @memcpyPage_of (front ++ back) buffer.data front.length 0
        (by rw [List.length_append]; omega) (by omega)
      rw [List.take_left, List.drop_zero, ← List.drop_drop, List.drop_left] at hcopy
      rw [List.length_cons, Bufvec.gatherLoop, hcontig]
      dsimp only [List.cons_append]
      rw [bind_of_ok hcopy]
      have hlength : (front ++ buffer.data.take pageSize1).length = front.length + pageSize1 := by
        rw [List.length_append, List.length_take, Nat.min_eq_left hpage]
      have hrest := @ih (back.drop pageSize1) (front ++ buffer.data.take pageSize1)
        (front.length + pageSize1) { bufvec with
          contig := buffers ++ more
          contigCount := bufvec.contigCount - 1
          compress := bufvec.compress ++ [buffer]
          compressCount := bufvec.compressCount + 1 } rfl hsize hlength.symm
        (by rw [List.length_drop]; omega)
      rw [hrest]
      unfold Bufvec.strideInput
      rw [List.flatMap_cons, List.append_assoc, List.append_assoc]
      dsimp only
      rw [Nat.sub_sub, Nat.add_comm 1, Nat.add_assoc, Nat.add_comm 1]
      rfl

/-- A buffer smaller than a page is read beyond its end. -/
theorem gatherLoop_small {buffer : VecBuffer} {dBuf : Bytes}
    (hcontig : bufvec.contig = buffer :: more) (hsmall : buffer.data.length < pageSize1) :
    Bufvec.gatherLoop (n + 1) offset dBuf bufvec = .error .bounds := by
  have hcopy : memcpyPage dBuf offset buffer.data 0 = .error .bounds :=
    if_neg fun h => absurd h.2 (by omega)
  rw [Bufvec.gatherLoop, hcontig]
  dsimp only
  rw [bind_of_error hcopy]

/-- The first buffers of `compress` are taken back, with new indices and what was compressed. -/
theorem scatterLoop_eq (hcompress : bufvec.compress = buffers ++ more)
    (hsize : ∀ buffer ∈ buffers, pageSize1 ≤ buffer.data.length)
    (hroom : offset + pageSize1 * buffers.length ≤ cBuf.length) :
    ∃ stored, stored.map VecBuffer.index = List.range' bufvec.globalIndex buffers.length ∧
      Bufvec.strideInput stored = (cBuf.drop offset).take (pageSize1 * buffers.length) ∧
      Bufvec.scatterLoop buffers.length offset cBuf bufvec = .ok { bufvec with
        compress := more
        compressCount := bufvec.compressCount - buffers.length
        contig := bufvec.contig ++ stored
        contigCount := bufvec.contigCount + buffers.length
        globalIndex := bufvec.globalIndex + buffers.length } := by
  induction buffers generalizing bufvec offset with
  | nil =>
      refine ⟨[], rfl, rfl, ?_⟩
      rw [List.nil_append] at hcompress
      rw [← hcompress, List.append_nil]
      rfl
  | cons buffer buffers ih =>
      obtain ⟨hpage, hsize⟩ := List.forall_mem_cons.mp hsize
      rw [List.length_cons, Nat.mul_succ] at hroom
      have hcopy := @memcpyPage_of buffer.data cBuf 0 offset (by omega) (by omega)
      rw [List.take_zero, List.nil_append, Nat.zero_add] at hcopy
      have hlength : ((cBuf.drop offset).take pageSize1).length = pageSize1 := by
        rw [List.length_take, List.length_drop]
        omega
      have htake : ((cBuf.drop offset).take pageSize1 ++
          buffer.data.drop pageSize1).take pageSize1 = (cBuf.drop offset).take pageSize1 :=
        List.take_left' hlength
      rw [List.length_cons, Bufvec.scatterLoop, hcompress]
      dsimp only [List.cons_append]
      rw [bind_of_ok hcopy]
      generalize (cBuf.drop offset).take pageSize1 ++ buffer.data.drop pageSize1 = data at htake ⊢
      obtain ⟨stored, hindex, hinput, hrest⟩ := @ih (offset + pageSize1) { bufvec with
        compress := buffers ++ more
        compressCount := bufvec.compressCount - 1
        contig := bufvec.contig ++ [⟨bufvec.globalIndex, data⟩]
        contigCount := bufvec.contigCount + 1
        globalIndex := bufvec.globalIndex + 1 } rfl hsize (by omega)
      refine ⟨⟨bufvec.globalIndex, data⟩ :: stored, ?_, ?_, ?_⟩
      · rw [List.map_cons, hindex, List.range'_succ]
      · have hcons : Bufvec.strideInput (⟨bufvec.globalIndex, data⟩ :: stored) =
            data.take pageSize1 ++ Bufvec.strideInput stored := List.flatMap_cons
        rw [hcons, hinput, htake, ← List.drop_drop, Nat.mul_succ, Nat.add_comm _ pageSize1,
          List.take_add]
      · rw [hrest, List.append_assoc]
        dsimp only
        rw [Nat.sub_sub, Nat.add_assoc, Nat.add_assoc, Nat.add_comm 1]
        rfl

/-! ## A stride -/

/-- A stride was compressed: no more buffers were taken back than were put on the list, and enough
for what was compressed, which they have, their indices go on from those before, and the counts are
right. -/
structure StrideOk (bufvec : Bufvec) (out : Bytes) (bufvec' : Bufvec) : Prop where
  taken_le : bufvec'.contig.length ≤ bufvec.contig.length
  room : out.length ≤ pageSize1 * bufvec'.contig.length
  data : ∃ fill, Bufvec.strideInput bufvec'.contig = out ++ List.replicate fill 0
  index : bufvec'.contig.map VecBuffer.index =
    List.range' bufvec.globalIndex bufvec'.contig.length
  globalIndex : bufvec'.globalIndex = bufvec.globalIndex + bufvec'.contig.length
  contigCount : bufvec'.contigCount = bufvec'.contig.length
  compressCount : bufvec'.compressCount = bufvec'.compress.length

/-- A buffer vector with a stride of buffers of one size. -/
structure Bufvec.Stride (bufvec : Bufvec) (blocksize : Nat) : Prop where
  contigCount : bufvec.contigCount = bufvec.contig.length
  compressCount : bufvec.compressCount = bufvec.compress.length
  nonempty : bufvec.contig ≠ []
  contig_size : ∀ buffer ∈ bufvec.contig, buffer.data.length = blocksize
  compress_size : ∀ buffer ∈ bufvec.compress, buffer.data.length = blocksize

/-- The blocks are not smaller than a page, and what is compressed is shorter than the stride. -/
structure CompressFits (bufvec : Bufvec) (lzo : Lzo) (noMem : Bool) (blocksize : Nat) : Prop where
  noMem : noMem = false
  blocksize : pageSize1 ≤ blocksize
  shorter : lzo.initFails = true ∨
    (lzo.compress (Bufvec.strideInput bufvec.contig)).2.length < pageSize1 * bufvec.contig.length

/-- The first loop of a stride. -/
theorem Bufvec.Stride.gather (h : bufvec.Stride blocksize) (hpage : pageSize1 ≤ blocksize) :
    Bufvec.gatherLoop bufvec.contigCount 0
        (List.replicate (pageSize1 * bufvec.contigCount) 0) bufvec =
      .ok (Bufvec.strideInput bufvec.contig, { bufvec with
        contig := []
        contigCount := 0
        compress := bufvec.compress ++ bufvec.contig
        compressCount := bufvec.compressCount + bufvec.contig.length }) := by
  have hgather := @gatherLoop_eq (List.replicate (pageSize1 * bufvec.contig.length) 0) [] 0 bufvec
    bufvec.contig [] (List.append_nil _).symm
    (fun buffer hmem => by rw [h.contig_size buffer hmem]; exact hpage) rfl List.length_replicate
  rw [List.nil_append, List.nil_append, h.contigCount, Nat.sub_self] at hgather
  rw [h.contigCount]
  exact hgather

/-- `compress_stride` of a stride that gets shorter. -/
theorem compressStride_ok (h : bufvec.Stride blocksize)
    (hfits : CompressFits bufvec lzo noMem blocksize) :
    ∃ bufvec' ret, bufvec.compressStride lzo noMem = .ok (bufvec', ret) ∧
      StrideOk bufvec (lzo.out (Bufvec.strideInput bufvec.contig)) bufvec' := by
  have hpage : pageSize1 = 4096 := rfl
  obtain ⟨hmem, hblocksize, hshorter⟩ := hfits
  obtain ⟨initFails, compress⟩ := lzo
  unfold Bufvec.compressStride Lzo.out
  dsimp only at hshorter ⊢
  rw [hmem, if_neg Bool.false_ne_true, bind_of_ok (h.gather hblocksize)]
  dsimp only
  cases initFails with
  | true =>
      refine ⟨_, _, rfl, Nat.zero_le _, Nat.zero_le _, ⟨0, rfl⟩, rfl, rfl, rfl, ?_⟩
      dsimp only
      rw [List.length_append, h.compressCount]
  | false =>
      rw [if_neg Bool.false_ne_true, if_neg Bool.false_ne_true]
      have hshort := hshorter.resolve_left Bool.false_ne_true
      generalize compress (Bufvec.strideInput bufvec.contig) = result at hshort ⊢
      obtain ⟨ret, out⟩ := result
      dsimp only at hshort ⊢
      obtain ⟨zeros, hzeros⟩ : ∃ zeros : Bytes,
          zeros = List.replicate (pageSize1 - out.length % pageSize1) 0 := ⟨_, rfl⟩
      have hfill : zeros.length = pageSize1 - out.length % pageSize1 := by
        rw [hzeros, List.length_replicate]
      have hworkspace : (List.replicate (pageSize1 * bufvec.contigCount) (0 : UInt8)).length =
          pageSize1 * bufvec.contig.length := by
        rw [List.length_replicate, h.contigCount]
      rw [← hzeros]
      generalize List.replicate (pageSize1 * bufvec.contigCount) (0 : UInt8) = workspace
        at hworkspace ⊢
      have hdiv : out.length = 4096 * (out.length / pageSize1) + out.length % pageSize1 :=
        (Nat.div_add_mod out.length 4096).symm
      have hmod : out.length % pageSize1 < 4096 := Nat.mod_lt _ (Nat.succ_pos 4095)
      rw [hpage] at hshort hworkspace
      have hstore : storeBytes workspace 0 out = .ok (out ++ workspace.drop out.length) :=
        @storeBytes_append workspace [] out 0 rfl (by omega)
      have hset : storeBytes (out ++ workspace.drop out.length) out.length zeros =
          .ok (out ++ zeros ++ (workspace.drop out.length).drop zeros.length) :=
        storeBytes_append rfl (by rw [List.length_drop]; omega)
      rw [bind_of_ok hstore, bind_of_ok hset]
      -- no more blocks are taken back than there are buffers of the stride
      have hblocks : out.length / pageSize1 + 1 ≤ (bufvec.compress ++ bufvec.contig).length := by
        rw [List.length_append]
        omega
      have htake : ((bufvec.compress ++ bufvec.contig).take (out.length / pageSize1 + 1)).length =
          out.length / pageSize1 + 1 := List.length_take_of_le hblocks
      have hlarge : ∀ buffer ∈ (bufvec.compress ++ bufvec.contig).take (out.length / pageSize1 + 1),
          pageSize1 ≤ buffer.data.length := by
        intro buffer hmem
        rcases List.mem_append.mp (List.mem_of_mem_take hmem) with hold | hnew
        · rw [h.compress_size buffer hold]
          exact hblocksize
        · rw [h.contig_size buffer hnew]
          exact hblocksize
      obtain ⟨stored, hindex, hinput, hscatter⟩ := @scatterLoop_eq
        (out ++ zeros ++ (workspace.drop out.length).drop zeros.length) 0 { bufvec with
          contig := []
          contigCount := 0
          compress := bufvec.compress ++ bufvec.contig
          compressCount := bufvec.compressCount + bufvec.contig.length }
        ((bufvec.compress ++ bufvec.contig).take (out.length / pageSize1 + 1))
        ((bufvec.compress ++ bufvec.contig).drop (out.length / pageSize1 + 1))
        (List.take_append_drop _ _).symm hlarge (by
          rw [htake, List.length_append, List.length_append, List.length_drop, List.length_drop,
            hpage]
          omega)
      rw [htake] at hindex hinput hscatter
      have hlength : stored.length = out.length / pageSize1 + 1 := by
        have hmap := congrArg List.length hindex
        rw [List.length_map, List.length_range'] at hmap
        exact hmap
      rw [bind_of_ok hscatter]
      refine ⟨_, _, rfl, ?_, ?_, ⟨pageSize1 - out.length % pageSize1, ?_⟩, ?_, ?_, ?_, ?_⟩
      · dsimp only
        rw [List.nil_append, hlength]
        omega
      · dsimp only
        rw [List.nil_append, hlength, hpage]
        omega
      · have hfull : (out ++ zeros).length = pageSize1 * (out.length / pageSize1 + 1) := by
          rw [List.length_append, hfill, hpage]
          omega
        dsimp only
        rw [List.nil_append, hinput, List.drop_zero, List.take_left' hfull, hzeros]
      · dsimp only at hindex ⊢
        rw [List.nil_append, hlength, hindex]
      · dsimp only
        rw [List.nil_append, hlength]
      · dsimp only
        rw [List.nil_append, hlength, Nat.zero_add]
      · dsimp only
        rw [List.length_drop, List.length_append, h.compressCount]

/-- What is not shorter than the stride is written behind the output buffer. -/
theorem compressStride_full (h : bufvec.Stride blocksize) (hpage : pageSize1 ≤ blocksize)
    (hinit : lzo.initFails = false)
    (hlong : pageSize1 * bufvec.contig.length ≤
      (lzo.compress (Bufvec.strideInput bufvec.contig)).2.length) :
    bufvec.compressStride lzo noMem = .error .bounds := by
  have hsize : pageSize1 = 4096 := rfl
  obtain ⟨initFails, compress⟩ := lzo
  obtain rfl : initFails = false := hinit
  unfold Bufvec.compressStride
  cases noMem with
  | true => rfl
  | false =>
      dsimp only at hlong ⊢
      rw [if_neg Bool.false_ne_true, bind_of_ok (h.gather hpage)]
      dsimp only
      rw [if_neg Bool.false_ne_true]
      generalize compress (Bufvec.strideInput bufvec.contig) = result at hlong ⊢
      obtain ⟨ret, out⟩ := result
      dsimp only at hlong ⊢
      have hworkspace : (List.replicate (pageSize1 * bufvec.contigCount) (0 : UInt8)).length =
          pageSize1 * bufvec.contig.length := by
        rw [List.length_replicate, h.contigCount]
      generalize List.replicate (pageSize1 * bufvec.contigCount) (0 : UInt8) = workspace
        at hworkspace ⊢
      by_cases heq : out.length = workspace.length
      · -- the output just fits, and what is to fill up its last block does not
        have hstore : storeBytes workspace 0 out = .ok (out ++ workspace.drop out.length) :=
          @storeBytes_append workspace [] out 0 rfl (Nat.le_of_eq heq)
        rw [bind_of_ok hstore]
        have hmod : out.length % pageSize1 < pageSize1 := Nat.mod_lt _ (Nat.succ_pos 4095)
        refine bind_of_error (storeBytes_full ?_)
        rw [List.length_append, List.length_drop, List.length_replicate]
        omega
      · exact bind_of_error (storeBytes_full (by omega))

/-- A stride is compressed within its memory exactly if the blocks are not smaller than a page and
the compressed bytes are fewer than those of the stride. -/
theorem compressStride_iff (h : bufvec.Stride blocksize) :
    (∃ bufvec' ret, bufvec.compressStride lzo noMem = .ok (bufvec', ret) ∧
      StrideOk bufvec (lzo.out (Bufvec.strideInput bufvec.contig)) bufvec') ↔
    CompressFits bufvec lzo noMem blocksize := by
  constructor
  · rintro ⟨bufvec', ret, hrun, -⟩
    have hmem : noMem = false := by
      cases noMem with
      | true => cases hrun
      | false => rfl
    have hpage : pageSize1 ≤ blocksize := by
      by_contra hsmall
      obtain ⟨buffer, more, hcontig⟩ := List.exists_cons_of_ne_nil h.nonempty
      have hlength := h.contig_size buffer (hcontig ▸ List.mem_cons_self)
      have hcount : bufvec.contigCount = more.length + 1 := by
        rw [h.contigCount, hcontig, List.length_cons]
      unfold Bufvec.compressStride at hrun
      rw [hmem, if_neg Bool.false_ne_true, hcount] at hrun
      dsimp only at hrun
      rw [bind_of_error (gatherLoop_small hcontig (by omega))] at hrun
      cases hrun
    refine ⟨hmem, hpage, ?_⟩
    cases hinit : lzo.initFails with
    | true => exact .inl rfl
    | false =>
        right
        by_contra hlong
        rw [compressStride_full h hpage hinit (Nat.le_of_not_lt hlong)] at hrun
        cases hrun
  · exact compressStride_ok h

end

/-! ## Bytes that do not get shorter -/

/-- A stride of one block of zeros. -/
def oneBlock : Bufvec where
  buffers := []
  contig := [⟨0, List.replicate pageSize1 0⟩]
  contigCount := 1
  compress := []
  compressCount := 0
  forIo := []
  globalIndex := 0
  ios := []
  unused := []
  cancelled := []

theorem oneBlock_stride : oneBlock.Stride pageSize1 where
  contigCount := rfl
  compressCount := rfl
  nonempty := List.cons_ne_nil _ _
  contig_size := by
    intro buffer hmem
    rw [List.mem_singleton.mp hmem]
    exact List.length_replicate
  compress_size := fun buffer hmem => absurd hmem List.not_mem_nil

/-- A codec that stores the bytes as they are, with a mark at their end. -/
def storedLzo : Lzo := ⟨false, fun input => (0, input ++ [17, 0, 0])⟩

theorem compressStride_iff_oneBlock :
    (∃ bufvec' ret, oneBlock.compressStride storedLzo false = .ok (bufvec', ret) ∧
      StrideOk oneBlock (storedLzo.out (Bufvec.strideInput oneBlock.contig)) bufvec') ↔
    CompressFits oneBlock storedLzo false pageSize1 :=
  compressStride_iff oneBlock_stride

/-- A block that the codec makes longer by three bytes. -/
theorem compressStride_stored :
    (∀ input, (storedLzo.compress input).2.length ≤ input.length + input.length / 16 + 67) ∧
    oneBlock.compressStride storedLzo false = .error .bounds := by
  refine ⟨fun input => ?_, compressStride_full oneBlock_stride (Nat.le_refl _) rfl ?_⟩
  · show (input ++ [17, 0, 0]).length ≤ _
    rw [List.length_append, List.length_cons, List.length_cons, List.length_singleton]
    omega
  · show pageSize1 * 1 ≤ (Bufvec.strideInput oneBlock.contig ++ [17, 0, 0]).length
    have hinput : (Bufvec.strideInput oneBlock.contig).length = pageSize1 := by
      unfold Bufvec.strideInput oneBlock
      rw [List.flatMap_cons, List.flatMap_nil, List.append_nil, List.length_take,
        List.length_replicate, Nat.min_self]
    rw [List.length_append, hinput]
    omega

end Tux3
