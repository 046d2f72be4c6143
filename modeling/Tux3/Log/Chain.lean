/-
  Log/Chain.lean --- writing the log blocks of a delta and loading them on mount.

  The log blocks of a delta are dirty buffers of the log map, with indices from zero.
  `flush_list` collects them into ranges, and `tux3_logmap_io` gives each range
  physical blocks, sets the reverse chain pointers and writes it.  On mount
  `replay_prepare` follows the chain from `super.logchain` for `super.logcount`
  blocks.  `replayLoad_chained` is the bridge between the two: from the end of a
  chain it loads exactly the blocks of the chain, in the order they were written.
-/
import Mathlib.Data.List.Forall2
import Mathlib.Data.List.Induction
import Mathlib.Logic.Function.Basic
import Tux3.Log.Decode

set_option autoImplicit false

namespace Tux3

open BigEndian

/-! ## State -/

/-- The log fields of `struct disksuper`. -/
structure Super where
  logchain : Nat
  logcount : Nat
  deriving DecidableEq, Repr, Inhabited

/-- The state of a mounted volume, as far as the log depends on it.  `bitmap` has the
allocated blocks and `disk` the contents of the volume; `super` is the super block in
memory and `saved` the one `save_sb` wrote last. -/
structure LogSb where
  log : LogState
  super : Super
  saved : Super
  bitmap : Nat → Bool
  deunify : List BlockSegment
  defree : List BlockSegment
  disk : Nat → Logblock

/-- Why a commit stops: an assertion fails, or the allocator has no answer. -/
inductive CommitError where
  | assertion
  | balloc
  deriving DecidableEq, Repr, Inhabited

/-- The bitmap after setting or clearing the bits of a segment. -/
def setBits (bitmap : Nat → Bool) (seg : BlockSegment) (set : Bool) : Nat → Bool :=
  fun b => if b ∈ seg.blocks then set else bitmap b

/-- The volume after a list of block writes. -/
def writeBlocks {β : Type} (disk : Nat → β) (ws : List (Nat × β)) : Nat → β :=
  ws.foldl (fun d w => Function.update d w.1 w.2) disk

/-- `balloc_partial` may return this segment for a request of `count` blocks: it has
between one and `count` blocks, all of them free and on the volume. -/
def BlockSegment.Allocatable (g : Geometry) (bitmap : Nat → Bool) (count : Nat)
    (seg : BlockSegment) : Prop :=
  0 < seg.count ∧ seg.count ≤ count ∧ ∀ b ∈ seg.blocks, b < g.volblocks ∧ bitmap b = false

instance (g : Geometry) (bitmap : Nat → Bool) (count : Nat) (seg : BlockSegment) :
    Decidable (seg.Allocatable g bitmap count) := by
  unfold BlockSegment.Allocatable
  infer_instance

/-! ## `tux3_logmap_io` -/

/-- A dirty buffer of the log map. -/
structure LogBuffer where
  index : Nat
  log : Logblock
  deriving DecidableEq, Repr, Inhabited

/-- A flush in progress: the volume, the segments `balloc_partial` is going to return,
and the block writes issued so far. -/
structure LogFlush where
  sb : LogSb
  segs : List BlockSegment
  writes : List (Nat × Logblock)

/-- Set the chain pointers of log blocks that go to consecutive blocks from `block`
on: each points to the one before it. -/
def linkLogchain : Nat → Nat → List Logblock → List (Nat × Logblock)
  | _, _, [] => []
  | logchain, block, log :: logs =>
      (block, { log with logchain := logchain }) :: linkLogchain block (block + 1) logs

/-- The address a chain ends at. -/
def chainEnd (logchain : Nat) (ws : List (Nat × Logblock)) : Nat :=
  (ws.getLast?.map Prod.fst).getD logchain

/-- The loop of `tux3_logmap_io` over the buffers of a range. -/
def logmapIoLoop (g : Geometry) :
    LogSb → List BlockSegment → List (Nat × Logblock) → List LogBuffer →
      Except CommitError LogFlush
  | sb, segs, writes, [] => .ok { sb := sb, segs := segs, writes := writes }
  | _, [], _, _ :: _ => .error .balloc
  | sb, seg :: segs, writes, buffer :: buffers =>
      if seg.Allocatable g sb.bitmap (buffer :: buffers).length then
        let logs := ((buffer :: buffers).take seg.count).map LogBuffer.log
        -- assert(log->magic == cpu_to_be16(TUX3_MAGIC_LOG))
        if logs.all fun log => log.magic == tux3MagicLog then
          let ws := linkLogchain sb.super.logchain seg.block logs
          let sb := { sb with
            bitmap := setBits sb.bitmap seg true
            disk := writeBlocks sb.disk ws
            deunify := sb.deunify ++ [seg]
            super :=
              { logchain := chainEnd sb.super.logchain ws
                logcount := (sb.super.logcount + seg.count) % 2 ^ 32 } }
          logmapIoLoop g sb segs (writes ++ ws) ((buffer :: buffers).drop seg.count)
        else .error .assertion
      else .error .balloc

/-- `tux3_logmap_io` on a contiguous range of buffers. -/
def logmapIo (g : Geometry) (fl : LogFlush) (contig : List LogBuffer) :
    Except CommitError LogFlush :=
  -- assert(bufvec_contig_index(bufvec) == 0)
  if contig.head?.map LogBuffer.index = some 0 then
    logmapIoLoop g fl.sb fl.segs fl.writes contig
  else .error .assertion

/-! ## `flush_list` -/

/-- `COMPRESSION_STRIDE_LEN`. -/
def compressionStrideLen : Nat := 4

/-- `is_compressed_file`: always 1, for internal inodes such as the log map too. -/
def isCompressedFile : Bool := true

/-- The limit on the length of a collected range. -/
def contigLimit : Nat := if isCompressedFile then compressionStrideLen else 2 ^ 32 - 1

/-- The `do` loop of `bufvec_contig_collect`.  A buffer at or above `outside`
(`outside_block`, the end of the log map) drops itself and all that follow. -/
def contigCollectLoop (outside : Nat) :
    List LogBuffer → List LogBuffer → List LogBuffer × List LogBuffer
  | contig, [] => (contig, [])
  | contig, buffer :: buffers =>
      if contig.length = contigLimit then (contig, buffer :: buffers)
      else
        match buffers with
        | [] => (contig ++ [buffer], [])
        | next :: rest =>
            if outside ≤ next.index then (contig ++ [buffer], [])
            else if buffer.index + 1 = next.index then
              contigCollectLoop outside (contig ++ [buffer]) (next :: rest)
            else (contig ++ [buffer], next :: rest)

/-- `bufvec_contig_collect` with no range in progress: the next range and the buffers
left.  Compression is for inode numbers from 64 on only, the log map's is 62. -/
def bufvecContigCollect (outside : Nat) (buffers : List LogBuffer) :
    List LogBuffer × List LogBuffer :=
  match buffers with
  | [] => ([], [])
  | buffer :: rest =>
      if outside ≤ buffer.index then ([], [])
      else contigCollectLoop outside [] (buffer :: rest)

/-- `flush_list` on the sorted dirty buffers of the log map. -/
def flushList (g : Geometry) : Nat → LogFlush → List LogBuffer → Except CommitError LogFlush
  | 0, fl, _ => .ok fl
  | fuel + 1, fl, buffers =>
      if buffers.isEmpty then .ok fl
      else
        let (contig, rest) := bufvecContigCollect g.volblocks buffers
        if contig.isEmpty then flushList g fuel fl rest
        else do
          let fl ← logmapIo g fl contig
          flushList g fuel fl rest

/-- The buffers of the finished log blocks. -/
def logBuffers : Nat → List Logblock → List LogBuffer
  | _, [] => []
  | index, log :: logs => { index := index, log := log } :: logBuffers (index + 1) logs

@[simp] theorem logBuffers_length (index : Nat) (logs : List Logblock) :
    (logBuffers index logs).length = logs.length := by
  induction logs generalizing index with
  | nil => rfl
  | cons log logs ih => simp [logBuffers, ih]

@[simp] theorem logBuffers_map_log (index : Nat) (logs : List Logblock) :
    (logBuffers index logs).map LogBuffer.log = logs := by
  induction logs generalizing index with
  | nil => rfl
  | cons log logs ih => simp [logBuffers, ih]

/-- One turn of the loop with another buffer to come. -/
theorem contigCollectLoop_cons_cons (outside : Nat) (contig : List LogBuffer)
    (buffer next : LogBuffer) (rest : List LogBuffer) :
    contigCollectLoop outside contig (buffer :: next :: rest) =
      if contig.length = contigLimit then (contig, buffer :: next :: rest)
      else if outside ≤ next.index then (contig ++ [buffer], [])
      else if buffer.index + 1 = next.index then
        contigCollectLoop outside (contig ++ [buffer]) (next :: rest)
      else (contig ++ [buffer], next :: rest) := by
  rw [contigCollectLoop.eq_def]

/-- Blocks that fit under both limits are collected as one range. -/
theorem contigCollectLoop_all {outside : Nat} (logs : List Logblock) (contig : List LogBuffer)
    (hlimit : contig.length + logs.length ≤ contigLimit)
    (houtside : contig.length + logs.length ≤ outside) :
    contigCollectLoop outside contig (logBuffers contig.length logs) =
      (contig ++ logBuffers contig.length logs, []) := by
  induction logs generalizing contig with
  | nil => simp [logBuffers, contigCollectLoop]
  | cons log logs ih =>
      have hne : contig.length ≠ contigLimit := by simp at hlimit; omega
      cases logs with
      | nil => simp [logBuffers, contigCollectLoop, hne]
      | cons log' logs' =>
          have hin : ¬ outside ≤ contig.length + 1 := by simp at houtside; omega
          have hrec := ih (contig ++ [⟨contig.length, log⟩]) (by simp at hlimit ⊢; omega)
            (by simp at houtside ⊢; omega)
          simp only [List.length_append, List.length_singleton] at hrec
          simp only [logBuffers] at hrec ⊢
          rw [contigCollectLoop_cons_cons, if_neg hne, if_neg hin, if_pos rfl, hrec]
          simp

/-- Past the limit, the first range has exactly as many blocks as the limit allows. -/
theorem contigCollectLoop_limit {outside : Nat} (logs : List Logblock) (contig : List LogBuffer)
    (hle : contig.length ≤ contigLimit) (hlt : contigLimit < contig.length + logs.length)
    (houtside : contigLimit < outside) :
    contigCollectLoop outside contig (logBuffers contig.length logs) =
      (contig ++ logBuffers contig.length (logs.take (contigLimit - contig.length)),
        logBuffers contigLimit (logs.drop (contigLimit - contig.length))) := by
  induction logs generalizing contig with
  | nil => simp at hlt; omega
  | cons log logs ih =>
      by_cases heq : contig.length = contigLimit
      · cases logs with
        | nil => simp [logBuffers, contigCollectLoop, heq]
        | cons log' logs' =>
            simp only [logBuffers]
            rw [contigCollectLoop_cons_cons, if_pos heq]
            simp [heq, logBuffers]
      · have hroom : contigLimit - contig.length = contigLimit - (contig.length + 1) + 1 := by
          omega
        cases logs with
        | nil => simp at hlt; omega
        | cons log' logs' =>
            have hin : ¬ outside ≤ contig.length + 1 := by omega
            have hrec := ih (contig ++ [⟨contig.length, log⟩]) (by simp; omega)
              (by simp at hlt ⊢; omega)
            simp only [List.length_append, List.length_singleton] at hrec
            simp only [logBuffers, hroom, List.take_succ_cons, List.drop_succ_cons] at hrec ⊢
            rw [contigCollectLoop_cons_cons, if_neg heq, if_neg hin, if_pos rfl, hrec]
            simp

/-- Collecting from a buffer inside the log map. -/
theorem bufvecContigCollect_logBuffers {outside index : Nat} (h : index < outside)
    (logs : List Logblock) :
    bufvecContigCollect outside (logBuffers index logs) =
      contigCollectLoop outside [] (logBuffers index logs) := by
  cases logs with
  | nil => simp [logBuffers, bufvecContigCollect, contigCollectLoop]
  | cons log logs => rw [logBuffers, bufvecContigCollect, if_neg (by simpa using h)]

/-- A collected range starts with the first buffer. -/
theorem contigCollectLoop_head {outside : Nat} {buffer : LogBuffer}
    {buffers contig rest : List LogBuffer}
    (h : contigCollectLoop outside [] (buffer :: buffers) = (contig, rest)) :
    contig.head? = some buffer := by
  have hgen : ∀ (bs contig₀ : List LogBuffer), contig₀.head? = some buffer →
      (contigCollectLoop outside contig₀ bs).1.head? = some buffer := by
    intro bs
    induction bs with
    | nil =>
        intro contig₀ h₀
        exact h₀
    | cons b bs ih =>
        intro contig₀ h₀
        have happ : (contig₀ ++ [b]).head? = some buffer := by simp [List.head?_append, h₀]
        cases bs with
        | nil =>
            rw [contigCollectLoop.eq_def]
            simp only
            split <;> assumption
        | cons next bs =>
            rw [contigCollectLoop_cons_cons]
            split
            · exact h₀
            split
            · exact happ
            split
            · exact ih _ happ
            · exact happ
  have hne : ¬ ([] : List LogBuffer).length = contigLimit := by decide
  rw [contigCollectLoop.eq_def] at h
  simp only [if_neg hne, List.nil_append] at h
  cases buffers with
  | nil =>
      simp only [Prod.mk.injEq] at h
      rw [← h.1]
      rfl
  | cons next bs =>
      simp only at h
      split at h
      · simp only [Prod.mk.injEq] at h
        rw [← h.1]
        rfl
      split at h
      · have := hgen (next :: bs) [buffer] rfl
        rwa [h] at this
      · simp only [Prod.mk.injEq] at h
        rw [← h.1]
        rfl

/-! ## Chains -/

/-- The blocks `ws`, in the order written, are linked backwards: each points to the
one before it, and the first to `logchain`. -/
def Chained : Nat → List (Nat × Logblock) → Prop
  | _, [] => True
  | logchain, (block, log) :: ws => log.logchain = logchain ∧ Chained block ws

theorem chainEnd_cons (logchain : Nat) (w : Nat × Logblock) (ws : List (Nat × Logblock)) :
    chainEnd logchain (w :: ws) = chainEnd w.1 ws := by
  cases ws with
  | nil => rfl
  | cons w' ws => simp [chainEnd, List.getLast?_cons]

theorem chainEnd_append (logchain : Nat) (ws ws' : List (Nat × Logblock)) :
    chainEnd logchain (ws ++ ws') = chainEnd (chainEnd logchain ws) ws' := by
  induction ws generalizing logchain with
  | nil => rfl
  | cons w ws ih => rw [List.cons_append, chainEnd_cons, chainEnd_cons, ih]

theorem Chained.append {logchain : Nat} {ws ws' : List (Nat × Logblock)}
    (h : Chained logchain ws) (h' : Chained (chainEnd logchain ws) ws') :
    Chained logchain (ws ++ ws') := by
  induction ws generalizing logchain with
  | nil => exact h'
  | cons w ws ih =>
      rw [chainEnd_cons] at h'
      exact ⟨h.1, ih h.2 h'⟩

theorem Chained.last {logchain : Nat} {ws : List (Nat × Logblock)} {w : Nat × Logblock}
    (h : Chained logchain (ws ++ [w])) :
    w.2.logchain = chainEnd logchain ws ∧ Chained logchain ws := by
  induction ws generalizing logchain with
  | nil => exact ⟨h.1, trivial⟩
  | cons w' ws ih =>
      rw [chainEnd_cons]
      exact ⟨(ih h.2).1, h.1, (ih h.2).2⟩

theorem linkLogchain_chained (logchain block : Nat) (logs : List Logblock) :
    Chained logchain (linkLogchain logchain block logs) := by
  induction logs generalizing logchain block with
  | nil => trivial
  | cons log logs ih => exact ⟨rfl, ih block (block + 1)⟩

theorem linkLogchain_map_fst (logchain block : Nat) (logs : List Logblock) :
    (linkLogchain logchain block logs).map Prod.fst =
      (BlockSegment.mk block logs.length).blocks := by
  induction logs generalizing logchain block with
  | nil => rfl
  | cons log logs ih =>
      rw [linkLogchain, List.map_cons, ih]
      simp only [BlockSegment.blocks, List.length_cons, List.range_succ_eq_map, List.map_cons,
        List.map_map, Nat.add_zero, List.cons.injEq, true_and]
      refine List.map_congr_left fun i _ => ?_
      simp only [Function.comp_apply]
      omega

theorem linkLogchain_length (logchain block : Nat) (logs : List Logblock) :
    (linkLogchain logchain block logs).length = logs.length := by
  induction logs generalizing logchain block with
  | nil => rfl
  | cons log logs ih => simp [linkLogchain, ih]

/-! ## Loading the chain -/

/-- The loop of `replay_prepare`: blocks are read from the last to the first. -/
def replayLoad (g : Geometry) (disk : Nat → Logblock) :
    Nat → Nat → Replay → Except ReplayError Replay
  | 0, _, rp => .ok rp
  | i + 1, logchain, rp => do
      let log := disk logchain
      let rp ← replayCheckLog g rp i log
      replayLoad g disk i log.logchain { rp with blocks := (logchain, log) :: rp.blocks }

/-- `replay_prepare`, from the super block on the volume. -/
def replayPrepare (g : Geometry) (sb : LogSb) : Except ReplayError Replay :=
  replayLoad g sb.disk sb.saved.logcount sb.saved.logchain { blocks := [], unify := none }

/-- The last element of a list that `f` accepts, with its index and image. -/
def lastSome {α β : Type} (f : α → Option β) : List α → Option (Nat × β)
  | [] => none
  | a :: l =>
      match lastSome f l with
      | some (i, b) => some (i + 1, b)
      | none => (f a).map fun b => (0, b)

theorem lastSome_concat {α β : Type} (f : α → Option β) (l : List α) (a : α) :
    lastSome f (l ++ [a]) = ((f a).map fun b => (l.length, b)).or (lastSome f l) := by
  induction l with
  | nil => cases h : f a <;> simp [lastSome, h]
  | cons a' l ih => cases h : f a <;> simp [lastSome, ih, h]

/-- A block on the volume holds a run of records: it is a log block filled with them,
with some chain pointer. -/
structure HoldsRecords (g : Geometry) (w : Nat × Logblock) (rs : List LogRecord) : Prop where
  block : ∃ logchain, w.2 = { recordsLogblock g rs with logchain := logchain }
  fits : recordsSize rs ≤ g.logRoom
  inRange : ∀ r ∈ rs, r.InRange

/-- The padding of a block that holds records. -/
def recordsPad (g : Geometry) (rs : List LogRecord) : Bytes :=
  List.replicate (g.logRoom - recordsSize rs) 0

/-- Where the scan finds the first unify mark in a block that holds records. -/
def markBytes (g : Geometry) (rs : List LogRecord) : Option Bytes :=
  (fromUnify rs).map fun suffix => recordsBytes suffix ++ recordsPad g rs

section HoldsRecords

variable {g : Geometry} {w : Nat × Logblock} {rs : List LogRecord}

theorem HoldsRecords.magic (h : HoldsRecords g w rs) : w.2.magic = tux3MagicLog := by
  obtain ⟨c, hc⟩ := h.block
  rw [hc]
  rfl

theorem HoldsRecords.bytes (h : HoldsRecords g w rs) : w.2.bytes = recordsSize rs := by
  obtain ⟨c, hc⟩ := h.block
  rw [hc]
  rfl

theorem HoldsRecords.data (h : HoldsRecords g w rs) :
    w.2.data = recordsBytes rs ++ recordsPad g rs := by
  obtain ⟨c, hc⟩ := h.block
  rw [hc]
  rfl

/-- The padding is what the block has beyond its records. -/
theorem HoldsRecords.pad (h : HoldsRecords g w rs) :
    w.2.data.length - w.2.bytes = (recordsPad g rs).length := by
  rw [h.data, h.bytes, List.length_append, recordsBytes_length]
  omega

/-- A record is at least one byte, so the loops never run out of fuel. -/
theorem length_le_recordsSize (rs : List LogRecord) : rs.length ≤ recordsSize rs := by
  induction rs with
  | nil => exact Nat.le_refl 0
  | cons r rs ih =>
      have hpos := logSize_pos r.code
      simp only [recordsSize, List.length_cons, List.map_cons, List.sum_cons] at ih ⊢
      omega

theorem HoldsRecords.fuel (h : HoldsRecords g w rs) : rs.length < w.2.data.length + 1 := by
  have hle := length_le_recordsSize rs
  rw [h.data, List.length_append, recordsBytes_length]
  omega

/-- The check accepts the block and finds its mark, unless a later block had one. -/
theorem HoldsRecords.check (h : HoldsRecords g w rs) (rp : Replay) (index : Nat) :
    replayCheckLog g rp index w.2 =
      .ok { rp with unify := rp.unify.or ((markBytes g rs).map fun pos => (index, pos)) } := by
  have hmagic : ¬ w.2.magic ≠ tux3MagicLog := not_not_intro h.magic
  have hbytes : ¬ g.blocksize < w.2.bytes + 16 := by
    have hfits := h.fits
    have hsize := g.blocksize_ge
    rw [h.bytes]
    unfold Geometry.logRoom at hfits
    omega
  have hloop := checkLoop_records rs (recordsPad g rs) (rp.unify.map Prod.snd) h.fuel
  rw [replayCheckLog, if_neg hmagic, if_neg hbytes]
  simp only [h.pad]
  nth_rewrite 2 [h.data]
  rw [hloop]
  cases hu : rp.unify with
  | none => simp [markBytes, recordsPad, bind, Except.bind, pure, Except.pure]
  | some m => simp [bind, Except.bind, pure, Except.pure]

end HoldsRecords

/-- The last elements of two related lists are related. -/
theorem forall₂_concat_left {α β : Type} {R : α → β → Prop} {l : List α} {a : α}
    {l' : List β} (h : List.Forall₂ R (l ++ [a]) l') :
    ∃ l₀ b, l' = l₀ ++ [b] ∧ List.Forall₂ R l l₀ ∧ R a b := by
  induction l generalizing l' with
  | nil =>
      cases h with
      | cons hab hnil =>
          cases hnil
          exact ⟨[], _, rfl, .nil, hab⟩
  | cons c l ih =>
      cases h with
      | cons hc hrest =>
          obtain ⟨l₀, b, rfl, hl, hab⟩ := ih hrest
          exact ⟨_ :: l₀, b, rfl, .cons hc hl, hab⟩

/-- From the end of a chain, `replay_prepare` loads exactly the blocks of the chain in
the order they were written, and the latest unify mark in them. -/
theorem replayLoad_chained {g : Geometry} {disk : Nat → Logblock} {logchain : Nat}
    {ws : List (Nat × Logblock)} {rss : List (List LogRecord)}
    (hchain : Chained logchain ws) (hdisk : ∀ w ∈ ws, disk w.1 = w.2)
    (hholds : List.Forall₂ (HoldsRecords g) ws rss) (rp : Replay) :
    replayLoad g disk ws.length (chainEnd logchain ws) rp =
      .ok { blocks := ws ++ rp.blocks, unify := rp.unify.or (lastSome (markBytes g) rss) } := by
  induction ws using List.reverseRecOn generalizing rss rp with
  | nil =>
      cases hholds
      simp [replayLoad, lastSome]
  | append_singleton ws w ih =>
      obtain ⟨rss', rs, rfl, hholds', hlast⟩ := forall₂_concat_left hholds
      obtain ⟨hprev, hchain'⟩ := hchain.last
      have hend : chainEnd logchain (ws ++ [w]) = w.1 := by simp [chainEnd]
      have hlen : (ws ++ [w]).length = ws.length + 1 := by simp
      have hread : disk w.1 = w.2 := hdisk w (by simp)
      have hlength : ws.length = rss'.length := hholds'.length_eq
      rw [hlen, hend, replayLoad]
      simp only [hread, hlast.check, bind, Except.bind, hprev]
      rw [ih hchain' (fun w' hw' => hdisk w' (by simp [hw'])) hholds', lastSome_concat,
        hlength]
      simp [Option.or_assoc]

end Tux3
