/-
  Log/ReadBack.lean --- the log that is written is the log that is read back.

  The replay side: the loops of the two stages over the blocks of a cycle act on the
  records from the mark on (`replayLogblocks_parts`).  The write side: flushing the
  log map extends the chain of the cycle (`flushList_chain`), or fails an assertion
  when the delta has more log blocks than one range may hold (`flushList_over_limit`).
  `RunInv` ties the two together over a run.
-/
import Mathlib.Data.List.Nodup
import Tux3.Log.Cycle

set_option autoImplicit false

namespace Tux3

open BigEndian

/-! ## The stages over the blocks of a cycle -/

section Stage

variable {σ : Type} {g : Geometry} {handles : LogCode → Bool}
  {switch : LogCode → Bytes → Option (Option LogRecord × Bytes)}
  (apply : LogRecord → σ → Except ReplayError σ)

/-- The loop of a stage from any record boundary of a block. -/
theorem HoldsRecords.loop {w : Nat × Logblock} {rs suffix : List LogRecord}
    (h : HoldsRecords g w rs) (hswitch : Decodes handles switch) (hsuffix : suffix <:+ rs)
    (s : σ) :
    replayLoop switch apply (w.2.data.length - w.2.bytes) (w.2.data.length + 1)
        (recordsBytes suffix ++ recordsPad g rs) s =
      applyRecords apply (suffix.filter fun r => handles r.code) s := by
  have hlen : suffix.length ≤ rs.length := hsuffix.length_le
  have hfuel := h.fuel
  rw [h.pad]
  exact replayLoop_records switch apply hswitch suffix
    (fun r hr => h.inRange r (hsuffix.subset hr)) _ (by omega) s

/-- Where the replay state says the latest mark is, seen from the blocks with indices
from `k` on: in one of them, or in none of them. -/
def MarkFrom (g : Geometry) (k : Nat) (rss : List (List LogRecord))
    (unify : Option (Nat × Bytes)) : Prop :=
  match lastSome (markBytes g) rss with
  | some (i, pos) => unify = some (k + i, pos)
  | none => ∀ i pos, unify = some (i, pos) → i < k

theorem lastSome_markBytes_isSome (g : Geometry) (rss : List (List LogRecord)) :
    (lastSome (markBytes g) rss).isSome = rss.any hasMark := by
  induction rss with
  | nil => rfl
  | cons rs rss ih =>
      rw [lastSome, List.any_cons, ← ih]
      cases lastSome (markBytes g) rss <;> simp [hasMark, markBytes]

/-- A stage on one block, and what it leaves to the blocks after it. -/
theorem replayBlock_part {k : Nat} {rp : Replay} {w : Nat × Logblock} {rs : List LogRecord}
    {rss : List (List LogRecord)} (hswitch : Decodes handles switch)
    (h : HoldsRecords g w rs) (hmark : MarkFrom g k (rs :: rss) rp.unify) (s : σ) :
    replayBlock switch apply rp k w.2 s =
        applyRecords apply ((if rss.any hasMark then [] else (fromUnify rs).getD rs).filter
          fun r => handles r.code) s ∧
      MarkFrom g (k + 1) rss rp.unify := by
  have hany := lastSome_markBytes_isSome g rss
  unfold MarkFrom lastSome at hmark
  unfold MarkFrom replayBlock
  cases hlast : lastSome (markBytes g) rss with
  | some m =>
      -- the mark is in a later block: this one is skipped
      obtain ⟨i, pos⟩ := m
      simp only [hlast] at hmark hany ⊢
      simp only [hmark, ← hany]
      refine ⟨?_, by congr 2; omega⟩
      have hlt : k < k + (i + 1) := by omega
      simp [hlt, applyRecords]
  | none =>
      simp only [hlast] at hmark hany ⊢
      simp only [← hany]
      cases hrs : fromUnify rs with
      | some suffix =>
          -- the mark is in this block: only what follows it is replayed
          have hpos : markBytes g rs = some (recordsBytes suffix ++ recordsPad g rs) := by
            simp [markBytes, hrs]
          simp only [hpos, Option.map_some, Nat.add_zero] at hmark
          simp only [hmark]
          refine ⟨?_, ?_⟩
          · have hloop := h.loop apply hswitch (fromUnify_suffix hrs) s
            simpa using hloop
          · intro i pos heq
            simp only [Option.some.injEq, Prod.mk.injEq] at heq
            omega
      | none =>
          have hnone : markBytes g rs = none := by simp [markBytes, hrs]
          simp only [hnone, Option.map_none] at hmark
          have hloop := h.loop apply hswitch (List.suffix_refl rs) s
          rw [← h.data] at hloop
          refine ⟨?_, fun i pos heq => by have := hmark i pos heq; omega⟩
          cases hu : rp.unify with
          | none => simpa using hloop
          | some m =>
              obtain ⟨i, pos⟩ := m
              have hlt := hmark i pos hu
              have hnlt : ¬ k < i := by omega
              have hne : ¬ k = i := by omega
              simpa [hnlt, hne] using hloop

/-- A stage over the blocks of a cycle: what is done with the address of each block, then
the records of it that are not before the mark. -/
theorem replayLogblocks_parts {rp : Replay} {ws : List (Nat × Logblock)}
    {rss : List (List LogRecord)} (hswitch : Decodes handles switch)
    (mark : Nat → σ → Except ReplayError σ)
    (hholds : List.Forall₂ (HoldsRecords g) ws rss) {k : Nat}
    (hmark : MarkFrom g k rss rp.unify) (s : σ) :
    replayLogblocks (fun index blocknr log s => do
        let s ← mark blocknr s
        replayBlock switch apply rp index log s) k ws s =
      applyBlocks mark apply ((ws.map Prod.fst).zip
        ((liveParts rss).map fun rs => rs.filter fun r => handles r.code)) s := by
  induction hholds generalizing k s with
  | nil => rfl
  | @cons w rs ws rss hw hws ih =>
      simp only [List.map_cons, liveParts, List.zip_cons_cons, replayLogblocks, applyBlocks]
      cases hs : mark w.1 s with
      | error e => rfl
      | ok s' =>
          obtain ⟨hblock, hrest⟩ := replayBlock_part apply hswitch hw hmark s'
          simp only [bind, Except.bind, hblock]
          cases happly : applyRecords apply _ s' with
          | error e => rfl
          | ok s'' => exact ih hrest s''

/-- With nothing to do for the addresses, a stage is the run over all records. -/
theorem applyBlocks_ok (bs : List Nat) (rss : List (List LogRecord))
    (hlen : bs.length = rss.length) (s : σ) :
    applyBlocks (fun _ s => .ok s) apply (bs.zip rss) s = applyRecords apply rss.flatten s := by
  induction rss generalizing bs s with
  | nil =>
      cases bs with
      | nil => rfl
      | cons b bs => simp at hlen
  | cons rs rss ih =>
      cases bs with
      | nil => simp at hlen
      | cons b bs =>
          have hlen' : bs.length = rss.length := by simpa using hlen
          rw [List.flatten_cons, applyRecords_append]
          simp only [List.zip_cons_cons, applyBlocks, bind, Except.bind]
          cases happly : applyRecords apply rs s with
          | error e => rfl
          | ok s' => exact ih bs hlen' s'

theorem liveParts_length (rss : List (List LogRecord)) : (liveParts rss).length = rss.length := by
  induction rss with
  | nil => rfl
  | cons rs rss ih => simp [liveParts, ih]

end Stage

/-! ## Block writes -/

theorem writeBlocks_of_not_mem {β : Type} (disk : Nat → β) {ws : List (Nat × β)} {b : Nat}
    (h : b ∉ ws.map Prod.fst) : writeBlocks disk ws b = disk b := by
  induction ws generalizing disk with
  | nil => rfl
  | cons w ws ih =>
      simp only [List.map_cons, List.mem_cons, not_or] at h
      rw [writeBlocks, List.foldl_cons]
      exact (ih _ h.2).trans (Function.update_of_ne h.1 _ _)

theorem writeBlocks_of_mem {β : Type} (disk : Nat → β) {ws : List (Nat × β)}
    (hnodup : (ws.map Prod.fst).Nodup) {w : Nat × β} (h : w ∈ ws) :
    writeBlocks disk ws w.1 = w.2 := by
  induction ws generalizing disk with
  | nil => simp at h
  | cons w' ws ih =>
      simp only [List.map_cons, List.nodup_cons] at hnodup
      rw [writeBlocks, List.foldl_cons]
      rcases List.mem_cons.mp h with rfl | hmem
      · exact (writeBlocks_of_not_mem _ hnodup.1).trans (Function.update_self _ _ _)
      · exact ih _ hnodup.2 hmem

theorem BlockSegment.blocks_nodup (seg : BlockSegment) : seg.blocks.Nodup :=
  List.Nodup.map (fun _ _ h => Nat.add_left_cancel h) List.nodup_range

/-! ## The chain of a cycle -/

/-- The volume has the log blocks of a cycle: `ws`, chained and holding `rss`, are on it,
the super block in memory points to their end and counts them, and they stay
allocated because they wait in the unify list.  No block waits in both lists, so that
the commit frees none of them. -/
structure CycleInv (g : Geometry) (logchain : Nat) (sb : LogSb) (ws : List (Nat × Logblock))
    (rss : List (List LogRecord)) : Prop where
  chained : Chained logchain ws
  holds : List.Forall₂ (HoldsRecords g) ws rss
  disk : ∀ w ∈ ws, sb.disk w.1 = w.2
  pinned : ∀ w ∈ ws, ∃ seg ∈ sb.deunify, w.1 ∈ seg.blocks
  super : sb.super = { logchain := chainEnd logchain ws, logcount := ws.length % 2 ^ 32 }
  bits : ∀ seg ∈ sb.deunify ++ sb.defree, ∀ b ∈ seg.blocks, sb.bitmap b = true
  apart : ∀ seg ∈ sb.deunify, ∀ seg' ∈ sb.defree, ∀ b ∈ seg.blocks, b ∉ seg'.blocks

/-- Log blocks holding runs of records still hold them once they are linked. -/
theorem linkLogchain_holds {g : Geometry} (logchain block : Nat) {rss : List (List LogRecord)}
    (hfits : ∀ rs ∈ rss, recordsSize rs ≤ g.logRoom)
    (hin : ∀ rs ∈ rss, ∀ r ∈ rs, r.InRange) :
    List.Forall₂ (HoldsRecords g) (linkLogchain logchain block (rss.map (recordsLogblock g)))
      rss := by
  induction rss generalizing logchain block with
  | nil => exact .nil
  | cons rs rss ih =>
      refine .cons ⟨⟨logchain, rfl⟩, hfits rs (by simp), hin rs (by simp)⟩ ?_
      exact ih _ _ (fun rs' h => hfits rs' (by simp [h])) (fun rs' h => hin rs' (by simp [h]))

/-- What the log map I/O leaves alone. -/
structure SameOutside (sb sb' : LogSb) : Prop where
  log : sb'.log = sb.log
  saved : sb'.saved = sb.saved
  defree : sb'.defree = sb.defree

theorem SameOutside.refl (sb : LogSb) : SameOutside sb sb := ⟨rfl, rfl, rfl⟩

theorem SameOutside.trans {sb sb' sb'' : LogSb} (h : SameOutside sb sb')
    (h' : SameOutside sb' sb'') : SameOutside sb sb'' :=
  ⟨h'.log.trans h.log, h'.saved.trans h.saved, h'.defree.trans h.defree⟩

/-- One segment of the log map I/O extends the chain of the cycle. -/
theorem CycleInv.segment {g : Geometry} {logchain : Nat} {sb : LogSb}
    {ws : List (Nat × Logblock)} {rss : List (List LogRecord)}
    (h : CycleInv g logchain sb ws rss) {seg : BlockSegment} {count : Nat}
    (hseg : seg.Allocatable g sb.bitmap count) {rss' : List (List LogRecord)}
    (hlen : rss'.length = seg.count)
    (hfits : ∀ rs ∈ rss', recordsSize rs ≤ g.logRoom)
    (hin : ∀ rs ∈ rss', ∀ r ∈ rs, r.InRange) :
    let ws' := linkLogchain sb.super.logchain seg.block (rss'.map (recordsLogblock g))
    CycleInv g logchain
      { sb with
        bitmap := setBits sb.bitmap seg true
        disk := writeBlocks sb.disk ws'
        deunify := sb.deunify ++ [seg]
        super :=
          { logchain := chainEnd sb.super.logchain ws'
            logcount := (sb.super.logcount + seg.count) % 2 ^ 32 } }
      (ws ++ ws') (rss ++ rss') := by
  intro ws'
  have haddr : ws'.map Prod.fst = seg.blocks := by
    rw [linkLogchain_map_fst, List.length_map, hlen]
  have hlen' : ws'.length = seg.count := by rw [linkLogchain_length, List.length_map, hlen]
  have hnodup : (ws'.map Prod.fst).Nodup := haddr ▸ seg.blocks_nodup
  have hsuper := h.super
  refine ⟨?_, ?_, ?_, ?_, ?_, ?_, ?_⟩
  · refine h.chained.append ?_
    rw [show chainEnd logchain ws = sb.super.logchain by rw [hsuper]]
    exact linkLogchain_chained _ _ _
  · exact List.rel_append h.holds (linkLogchain_holds _ _ hfits hin)
  · intro w hw
    rcases List.mem_append.mp hw with hold | hnew
    · -- a block of the cycle is allocated, so it is not written again
      have hfresh : w.1 ∉ ws'.map Prod.fst := by
        rw [haddr]
        intro hmem
        obtain ⟨seg', hseg', hb⟩ := h.pinned w hold
        have htrue := h.bits seg' (by simp [hseg']) w.1 hb
        have hfalse := (hseg.2.2 w.1 hmem).2
        rw [htrue] at hfalse
        exact Bool.noConfusion hfalse
      exact (writeBlocks_of_not_mem _ hfresh).trans (h.disk w hold)
    · exact writeBlocks_of_mem _ hnodup hnew
  · intro w hw
    rcases List.mem_append.mp hw with hold | hnew
    · obtain ⟨seg', hseg', hb⟩ := h.pinned w hold
      exact ⟨seg', by simp [hseg'], hb⟩
    · exact ⟨seg, by simp, haddr ▸ List.mem_map_of_mem hnew⟩
  · simp only [hsuper, chainEnd_append, List.length_append, hlen', Nat.mod_add_mod]
  · intro seg' hseg' b hb
    by_cases hmem : b ∈ seg.blocks
    · simp [setBits, hmem]
    · have hold : seg' ∈ sb.deunify ++ sb.defree := by
        simp only [List.mem_append, List.mem_singleton] at hseg' ⊢
        rcases hseg' with (h | rfl) | h
        · exact .inl h
        · exact absurd hb hmem
        · exact .inr h
      simpa [setBits, hmem] using h.bits seg' hold b hb
  · intro seg₁ hseg₁ seg₂ hseg₂ b hb₁ hb₂
    rcases List.mem_append.mp hseg₁ with hold | hnew
    · exact h.apart seg₁ hold seg₂ hseg₂ b hb₁ hb₂
    · -- a block waiting to be freed is allocated, so the new segment does not have it
      rw [List.mem_singleton] at hnew
      subst hnew
      have htrue := h.bits seg₂ (by simp [hseg₂]) b hb₂
      have hfalse := (hseg.2.2 b hb₁).2
      rw [htrue] at hfalse
      exact Bool.noConfusion hfalse

/-- The log map I/O on a range of buffers extends the chain of the cycle by all of them,
whatever segments the allocator returns. -/
theorem logmapIoLoop_chain {g : Geometry} {logchain : Nat} (segs : List BlockSegment)
    {sb : LogSb} {ws : List (Nat × Logblock)} {rss : List (List LogRecord)}
    (h : CycleInv g logchain sb ws rss) (buffers : List LogBuffer)
    (rss' : List (List LogRecord))
    (hbuffers : buffers.map LogBuffer.log = rss'.map (recordsLogblock g))
    (hfits : ∀ rs ∈ rss', recordsSize rs ≤ g.logRoom)
    (hin : ∀ rs ∈ rss', ∀ r ∈ rs, r.InRange) (writes : List (Nat × Logblock)) :
    logmapIoLoop g sb segs writes buffers = .error .balloc ∨
      ∃ fl ws', logmapIoLoop g sb segs writes buffers = .ok fl ∧ fl.writes = writes ++ ws' ∧
        CycleInv g logchain fl.sb (ws ++ ws') (rss ++ rss') ∧ SameOutside sb fl.sb := by
  induction segs generalizing sb ws rss buffers rss' writes with
  | nil =>
      cases buffers with
      | nil =>
          have hnil : rss' = [] := by simpa using hbuffers.symm
          refine .inr ⟨_, [], by rw [logmapIoLoop], by simp, ?_, .refl sb⟩
          simpa [hnil] using h
      | cons buffer buffers => exact .inl (by rw [logmapIoLoop])
  | cons seg segs ih =>
      cases buffers with
      | nil =>
          have hnil : rss' = [] := by simpa using hbuffers.symm
          refine .inr ⟨_, [], by rw [logmapIoLoop], by simp, ?_, .refl sb⟩
          simpa [hnil] using h
      | cons buffer buffers =>
          by_cases hseg : seg.Allocatable g sb.bitmap (buffer :: buffers).length
          · have hcount : rss'.length = (buffer :: buffers).length := by
              have := congrArg List.length hbuffers
              simpa using this.symm
            have htake : ((buffer :: buffers).take seg.count).map LogBuffer.log =
                (rss'.take seg.count).map (recordsLogblock g) := by
              rw [List.map_take, hbuffers, List.map_take]
            have hdrop : ((buffer :: buffers).drop seg.count).map LogBuffer.log =
                (rss'.drop seg.count).map (recordsLogblock g) := by
              rw [List.map_drop, hbuffers, List.map_drop]
            have hmagic : ((rss'.take seg.count).map (recordsLogblock g)).all
                (fun log => log.magic == tux3MagicLog) = true := by
              rw [List.all_map, List.all_eq_true]
              exact fun rs _ => beq_self_eq_true tux3MagicLog
            have hlen : (rss'.take seg.count).length = seg.count := by
              rw [List.length_take, hcount]
              exact Nat.min_eq_left hseg.2.1
            have hstep := h.segment hseg hlen
              (fun rs hrs => hfits rs (List.mem_of_mem_take hrs))
              (fun rs hrs => hin rs (List.mem_of_mem_take hrs))
            set link := linkLogchain sb.super.logchain seg.block
              ((rss'.take seg.count).map (recordsLogblock g)) with hlink
            have hrec := ih hstep _ _ hdrop
              (fun rs hrs => hfits rs (List.mem_of_mem_drop hrs))
              (fun rs hrs => hin rs (List.mem_of_mem_drop hrs)) (writes ++ link)
            rw [logmapIoLoop, if_pos hseg]
            simp only [htake, hmagic, if_true, ← hlink]
            rcases hrec with herr | ⟨fl, ws', hok, hwrites, hinv, hsame⟩
            · exact .inl herr
            · refine .inr ⟨fl, link ++ ws', hok, ?_, ?_, ?_⟩
              · rw [hwrites, List.append_assoc]
              · simpa [List.append_assoc] using hinv
              · exact ⟨hsame.log, hsame.saved, hsame.defree⟩
          · exact .inl (by rw [logmapIoLoop, if_neg hseg])

/-! ## Flushing the log map -/

/-- The first buffer of the log map has index zero. -/
theorem logBuffers_head (logs : List Logblock) (h : logs ≠ []) :
    (logBuffers 0 logs).head?.map LogBuffer.index = some 0 := by
  cases logs with
  | nil => exact absurd rfl h
  | cons log logs => rfl

/-- Within the limit, the flush writes all log blocks of the delta as one range. -/
theorem flushList_chain {g : Geometry} {logchain : Nat} {sb : LogSb}
    {ws : List (Nat × Logblock)} {rss rss' : List (List LogRecord)}
    (h : CycleInv g logchain sb ws rss) (hlimit : rss'.length ≤ contigLimit)
    (hfits : ∀ rs ∈ rss', recordsSize rs ≤ g.logRoom)
    (hin : ∀ rs ∈ rss', ∀ r ∈ rs, r.InRange) (segs : List BlockSegment) :
    let buffers := logBuffers 0 (rss'.map (recordsLogblock g))
    let flush := flushList g (buffers.length + 1) { sb := sb, segs := segs, writes := [] } buffers
    flush = .error .balloc ∨
      ∃ fl, flush = .ok fl ∧ CycleInv g logchain fl.sb (ws ++ fl.writes) (rss ++ rss') ∧
        SameOutside sb fl.sb := by
  intro buffers flush
  have hvol := g.volblocks_ge
  cases rss' with
  | nil => exact .inr ⟨_, rfl, by simpa using h, .refl sb⟩
  | cons rs rss' =>
      set logs := (rs :: rss').map (recordsLogblock g) with hlogs
      have hlogslen : logs.length ≤ contigLimit := by rw [hlogs, List.length_map]; exact hlimit
      have hfour : contigLimit = 4 := rfl
      have hcollect : bufvecContigCollect g.volblocks buffers = (buffers, []) := by
        have hall : contigCollectLoop g.volblocks [] (logBuffers 0 logs) =
            (logBuffers 0 logs, []) :=
          contigCollectLoop_all logs [] (by simpa using hlogslen) (by simp; omega)
        rw [bufvecContigCollect_logBuffers (by omega)]
        exact hall
      have hhead : buffers.head?.map LogBuffer.index = some 0 := rfl
      have hne : buffers.isEmpty = false := rfl
      have hlen : buffers.length = rss'.length + 1 := by simp [buffers]
      have hloop := logmapIoLoop_chain segs h buffers (rs :: rss') (by simp [buffers])
        hfits hin []
      have hflush : flush = (logmapIoLoop g sb segs [] buffers).bind fun fl => .ok fl := by
        simp only [flush, hlen]
        rw [flushList]
        simp only [hne, hcollect, Bool.false_eq_true, if_false, logmapIo, hhead, if_true]
        cases logmapIoLoop g sb segs [] buffers with
        | error e => rfl
        | ok fl => simp [bind, Except.bind, flushList]
      rcases hloop with herr | ⟨fl, ws', hok, hwrites, hinv, hsame⟩
      · exact .inl (by rw [hflush, herr]; rfl)
      · refine .inr ⟨fl, by rw [hflush, hok]; rfl, ?_, hsame⟩
        rw [hwrites]
        exact hinv

/-- Over the limit, the second range does not start at index zero, and the assertion of
`tux3_logmap_io` fails. -/
theorem flushList_over_limit {g : Geometry} {logchain : Nat} {sb : LogSb}
    {ws : List (Nat × Logblock)} {rss rss' : List (List LogRecord)}
    (h : CycleInv g logchain sb ws rss) (hlimit : contigLimit < rss'.length)
    (hfits : ∀ rs ∈ rss', recordsSize rs ≤ g.logRoom)
    (hin : ∀ rs ∈ rss', ∀ r ∈ rs, r.InRange) (segs : List BlockSegment) :
    let buffers := logBuffers 0 (rss'.map (recordsLogblock g))
    let flush := flushList g (buffers.length + 1) { sb := sb, segs := segs, writes := [] } buffers
    flush = .error .balloc ∨ flush = .error .assertion := by
  intro buffers flush
  have hvol := g.volblocks_ge
  have hfour : contigLimit = 4 := rfl
  cases rss' with
  | nil => simp at hlimit
  | cons rs rss' =>
      set logs := (rs :: rss').map (recordsLogblock g) with hlogs
      have hlen : logs.length = rss'.length + 1 := by simp [hlogs]
      have hgt : contigLimit < logs.length := by simpa [hlogs] using hlimit
      have hcollect : bufvecContigCollect g.volblocks buffers =
          (logBuffers 0 (logs.take contigLimit), logBuffers contigLimit (logs.drop contigLimit)) := by
        have hall : contigCollectLoop g.volblocks [] (logBuffers 0 logs) =
            (logBuffers 0 (logs.take contigLimit),
              logBuffers contigLimit (logs.drop contigLimit)) :=
          contigCollectLoop_limit logs [] (by simp) (by simpa using hgt) (by omega)
        rw [bufvecContigCollect_logBuffers (by omega)]
        exact hall
      -- the first range is written, or the allocator has no answer
      have hfirst := logmapIoLoop_chain segs h
        (logBuffers 0 (logs.take contigLimit)) ((rs :: rss').take contigLimit)
        (by rw [logBuffers_map_log, hlogs, List.map_take])
        (fun rs hrs => hfits rs (List.mem_of_mem_take hrs))
        (fun rs hrs => hin rs (List.mem_of_mem_take hrs)) []
      -- the second range starts with the block of index `contigLimit`
      obtain ⟨log, rest, hrest⟩ : ∃ log rest, logs.drop contigLimit = log :: rest :=
        List.exists_cons_of_length_pos (by rw [List.length_drop]; omega)
      have hsecond : ∀ fl n, flushList g (n + 1) fl (logBuffers contigLimit (log :: rest)) =
          .error .assertion := by
        intro fl n
        obtain ⟨contig, rest', heq⟩ : ∃ contig rest', contigCollectLoop g.volblocks []
            (logBuffers contigLimit (log :: rest)) = (contig, rest') := ⟨_, _, rfl⟩
        have hidx := contigCollectLoop_head heq
        rw [flushList, bufvecContigCollect_logBuffers (by omega), heq]
        cases contig with
        | nil => simp at hidx
        | cons c cs =>
            have hc : c.index = contigLimit := by
              simp only [List.head?_cons, Option.some.injEq] at hidx
              rw [hidx]
            have hio : logmapIo g fl (c :: cs) = .error .assertion := by
              rw [logmapIo, if_neg (by simp [hc, hfour])]
            simp only [logBuffers, List.isEmpty_cons, Bool.false_eq_true, if_false, hio]
            rfl
      have hne : (logBuffers 0 (logs.take contigLimit)).isEmpty = false := by
        simp [hlogs, hfour, logBuffers]
      have hhead : (logBuffers 0 (logs.take contigLimit)).head?.map LogBuffer.index = some 0 :=
        logBuffers_head _ (by simp [hlogs, hfour])
      have hflush : flush = (logmapIoLoop g sb segs [] (logBuffers 0 (logs.take contigLimit))).bind
          fun _ => .error .assertion := by
        have hbuflen : buffers.length = rss'.length + 1 := by simp [buffers]
        have hbufne : buffers.isEmpty = false := rfl
        simp only [flush, hbuflen]
        rw [flushList]
        simp only [hbufne, hcollect, Bool.false_eq_true, if_false, hne, logmapIo, hhead, if_true,
          hrest]
        cases logmapIoLoop g sb segs [] (logBuffers 0 (logs.take contigLimit)) with
        | error e => rfl
        | ok fl => exact hsecond fl rss'.length
      rcases hfirst with herr | ⟨fl, ws', hok, -, -, -⟩
      · exact .inl (by rw [hflush, herr]; rfl)
      · exact .inr (by rw [hflush, hok]; rfl)

/-! ## A run of deltas -/

/-- Logging does not touch the log blocks written before. -/
theorem CycleInv.setLog {g : Geometry} {logchain : Nat} {sb : LogSb}
    {ws : List (Nat × Logblock)} {rss : List (List LogRecord)}
    (h : CycleInv g logchain sb ws rss) (log : LogState) :
    CycleInv g logchain { sb with log := log } ws rss :=
  ⟨h.chained, h.holds, h.disk, h.pinned, h.super, h.bits, h.apart⟩

/-- What the rest of the delta does leaves the log blocks of the cycle alone. -/
theorem CycleInv.environment {g : Geometry} {logchain : Nat} {sb : LogSb}
    {ws : List (Nat × Logblock)} {rss : List (List LogRecord)}
    (h : CycleInv g logchain sb ws rss) (d : Delta) :
    CycleInv g logchain (d.environment sb) ws rss := by
  have howns : ∀ seg ∈ sb.deunify ++ sb.defree, ∀ b ∈ seg.blocks, sb.owns b = true :=
    fun seg hseg b hb => List.any_eq_true.mpr ⟨seg, hseg, by simpa using hb⟩
  refine ⟨h.chained, h.holds, ?_, h.pinned, h.super, ?_, h.apart⟩
  · intro w hw
    obtain ⟨seg, hseg, hb⟩ := h.pinned w hw
    simp only [Delta.environment, howns seg (by simp [hseg]) w.1 hb, if_true]
    exact h.disk w hw
  · intro seg hseg b hb
    simp only [Delta.environment, howns seg hseg b hb, if_true]
    exact h.bits seg hseg b hb

/-- A unify starts an empty cycle: its blocks now wait for the commit. -/
theorem CycleInv.unify {g : Geometry} {logchain : Nat} {sb : LogSb}
    {ws : List (Nat × Logblock)} {rss : List (List LogRecord)}
    (h : CycleInv g logchain sb ws rss) (log : LogState) :
    CycleInv g sb.super.logchain
      { sb with
        log := log
        super := { sb.super with logcount := 0 }
        deunify := []
        defree := sb.defree ++ sb.deunify } [] [] := by
  refine ⟨trivial, .nil, by simp, by simp, rfl, ?_, by simp⟩
  intro seg hseg b hb
  refine h.bits seg ?_ b hb
  simp only [List.nil_append, List.mem_append] at hseg ⊢
  exact hseg.symm

/-- Freeing segments leaves the bits of all other blocks alone. -/
theorem clearBits_of_not_mem (segs : List BlockSegment) (bitmap : Nat → Bool) {b : Nat}
    (h : ∀ seg ∈ segs, b ∉ seg.blocks) :
    segs.foldl (fun bitmap seg => setBits bitmap seg false) bitmap b = bitmap b := by
  induction segs generalizing bitmap with
  | nil => rfl
  | cons seg segs ih =>
      rw [List.foldl_cons, ih _ fun seg' hseg' => h seg' (by simp [hseg'])]
      simp only [setBits, if_neg (h seg (by simp))]

/-- The commit frees only blocks that are not log blocks of the cycle. -/
theorem CycleInv.commit {g : Geometry} {logchain : Nat} {sb : LogSb}
    {ws : List (Nat × Logblock)} {rss : List (List LogRecord)}
    (h : CycleInv g logchain sb ws rss) :
    CycleInv g logchain (commitDelta sb) ws rss := by
  refine ⟨h.chained, h.holds, h.disk, h.pinned, h.super, ?_, by simp [commitDelta]⟩
  intro seg hseg b hb
  have hseg' : seg ∈ sb.deunify := by simpa [commitDelta] using hseg
  have hkept := clearBits_of_not_mem sb.defree sb.bitmap
    fun seg₂ hseg₂ => h.apart seg hseg' seg₂ hseg₂ b hb
  exact hkept.trans (h.bits seg (by simp [hseg']) b hb)

/-- Between two deltas: the volume has the log blocks of the cycle, nothing is being
logged, the super block is saved, and from the mark on the blocks hold `recs`. -/
structure RunInv (g : Geometry) (sb : LogSb) (ws : List (Nat × Logblock))
    (rss : List (List LogRecord)) (recs : List LogRecord) : Prop where
  cycle : ∃ logchain, CycleInv g logchain sb ws rss
  log : sb.log = { logmap := [], logbuf := none }
  saved : sb.saved = sb.super
  defree : sb.defree = []
  once : rss.flatten.countP (fun r => r.code = .unify) ≤ 1
  live : (fromUnify rss.flatten).getD rss.flatten = recs

theorem freshSb_inv (g : Geometry) (bitmap : Nat → Bool) (disk : Nat → Logblock) :
    RunInv g (freshSb bitmap disk) [] [] [] := by
  refine ⟨⟨0, ?_⟩, rfl, rfl, rfl, by simp, rfl⟩
  exact ⟨trivial, .nil, by simp, by simp, rfl, by simp [freshSb], by simp [freshSb]⟩

/-- Writing the log of a delta whose blocks hold `packs`. -/
theorem writeLog_chain {g : Geometry} {logchain : Nat} {sb : LogSb}
    {ws : List (Nat × Logblock)} {rss : List (List LogRecord)} {p : Packing}
    (h : CycleInv g logchain sb ws rss) (hlog : sb.log.Holds g p)
    (hin : ∀ rs ∈ p.blocks, ∀ r ∈ rs, r.InRange) (segs : List BlockSegment) :
    writeLog g sb segs = .error .balloc ∨
      (p.blocks.length ≤ contigLimit ∧ ∃ fl, writeLog g sb segs = .ok fl ∧
        CycleInv g logchain fl.sb (ws ++ fl.writes) (rss ++ p.blocks) ∧
        fl.sb.log = { logmap := [], logbuf := none } ∧ fl.sb.defree = sb.defree) ∨
      (contigLimit < p.blocks.length ∧ writeLog g sb segs = .error .assertion) := by
  obtain ⟨log, hfinish, hfinished⟩ := logFinish_holds hlog
  have hmap : log.logmap = p.blocks.map (recordsLogblock g) := hfinished.logmap
  have hclosed := h.setLog { logmap := [], logbuf := none }
  rw [writeLog, hfinish]
  simp only [hmap]
  by_cases hlimit : p.blocks.length ≤ contigLimit
  · rcases flushList_chain hclosed hlimit hlog.fits hin segs with herr | ⟨fl, hok, hinv, hsame⟩
    · exact .inl herr
    · exact .inr (.inl ⟨hlimit, fl, hok, hinv, hsame.log, hsame.defree⟩)
  · have hgt : contigLimit < p.blocks.length := by omega
    rcases flushList_over_limit hclosed hgt hlog.fits hin segs with herr | herr
    · exact .inl herr
    · exact .inr (.inr ⟨hgt, herr⟩)

/-- Step lemma: unless the allocator fails, a delta within the limit extends the cycle,
or starts a new one with a unify, and a delta over the limit fails an assertion. -/
theorem doCommit_inv {g : Geometry} {sb : LogSb} {ws : List (Nat × Logblock)}
    {rss : List (List LogRecord)} {recs : List LogRecord} (h : RunInv g sb ws rss recs)
    (d : Delta) :
    let packs := packRecords g.logRoom d.records
    doCommit g sb d = .error .balloc ∨
      (packs.length ≤ contigLimit ∧ ∃ sb' ws', doCommit g sb d = .ok (sb', ws') ∧
        RunInv g sb' (if d.after.isSome then ws' else ws ++ ws')
          (if d.after.isSome then packs else rss ++ packs)
          (match d.after with | none => recs ++ d.before | some after => .unify :: after)) ∨
      (contigLimit < packs.length ∧ doCommit g sb d = .error .assertion) := by
  intro packs
  obtain ⟨logchain, hcycle⟩ := h.cycle
  have henv := hcycle.environment d
  have hflat : packs.flatten = d.records := packRecords_flatten _ _
  have hpacksIn : ∀ rs ∈ packs, ∀ r ∈ rs, r.InRange := fun rs hrs r hr =>
    d.records_inRange r (hflat ▸ List.mem_flatten.mpr ⟨rs, hrs, hr⟩)
  have hempty : (d.environment sb).log.Holds g { full := [], cur := none } := by
    have hlog : (d.environment sb).log = { logmap := [], logbuf := none } := h.log
    rw [hlog]
    exact ⟨rfl, rfl, by simp [Packing.blocks]⟩
  have hbeforeIn : ∀ r ∈ d.before, r.InRange := fun r hr => d.inRange r (by simp [hr])
  have hbeforeNo : ∀ r ∈ d.before, r.code ≠ .unify := fun r hr => d.noMark r (by simp [hr])
  obtain ⟨log₁, hlogged₁, hholds₁⟩ := logRecords_holds d.before hempty hbeforeIn
  cases hafter : d.after with
  | none =>
      have hrecords : d.records = d.before := by simp [Delta.records, hafter]
      have hpacks : (d.before.foldl (Packing.add g.logRoom) { full := [], cur := none }).blocks =
          packs := by simp only [packs, packRecords, hrecords]
      have hwrite := writeLog_chain (henv.setLog log₁) hholds₁ (hpacks ▸ hpacksIn) d.segs
      rw [hpacks] at hwrite
      rw [doCommit]
      simp only [hlogged₁, hafter, bind, Except.bind, pure, Except.pure]
      rcases hwrite with herr | ⟨hle, fl, hok, hinv, hlog, hdefree⟩ | ⟨hgt, herr⟩
      · exact .inl (by rw [herr])
      · refine .inr (.inl ⟨hle, commitDelta fl.sb, fl.writes, by rw [hok], ?_⟩)
        have hcount : d.before.countP (fun r => r.code = .unify) = 0 :=
          List.countP_eq_zero.mpr fun r hr => by simpa using hbeforeNo r hr
        refine ⟨⟨logchain, hinv.commit⟩, hlog, rfl, rfl, ?_, ?_⟩
        · simpa [hflat, hrecords, hcount] using h.once
        · have hlive := h.live
          simp only [Option.isSome_none, Bool.false_eq_true, if_false, List.flatten_append,
            hflat, hrecords, fromUnify_append, fromUnify_eq_none hbeforeNo]
          rw [← hlive]
          cases fromUnify rss.flatten <;> rfl
      · exact .inr (.inr ⟨hgt, by rw [herr]⟩)
  | some after =>
      have hrecords : d.records = d.before ++ .unify :: after := by
        simp [Delta.records, hafter]
      have hafterIn : ∀ r ∈ .unify :: after, r.InRange := by
        intro r hr
        rcases List.mem_cons.mp hr with rfl | hr
        · trivial
        · exact d.inRange r (by simp [hafter, hr])
      have hafterNo : ∀ r ∈ after, r.code ≠ .unify := fun r hr =>
        d.noMark r (by simp [hafter, hr])
      obtain ⟨log₂, hlogged₂, hholds₂⟩ := logRecords_holds (.unify :: after) hholds₁ hafterIn
      have hpacks : ((LogRecord.unify :: after).foldl (Packing.add g.logRoom)
          (d.before.foldl (Packing.add g.logRoom) { full := [], cur := none })).blocks =
          packs := by
        simp only [packs, packRecords, hrecords, List.foldl_append]
      have hwrite := writeLog_chain ((henv.setLog log₁).unify log₂) hholds₂
        (hpacks ▸ hpacksIn) d.segs
      rw [hpacks] at hwrite
      rw [doCommit]
      simp only [hlogged₁, hafter, unifyLog, hlogged₂, bind, Except.bind, pure, Except.pure]
      rcases hwrite with herr | ⟨hle, fl, hok, hinv, hlog, hdefree⟩ | ⟨hgt, herr⟩
      · exact .inl (by rw [herr])
      · refine .inr (.inl ⟨hle, commitDelta fl.sb, fl.writes, by rw [hok], ?_⟩)
        have hcountBefore : d.before.countP (fun r => r.code = .unify) = 0 :=
          List.countP_eq_zero.mpr fun r hr => by simpa using hbeforeNo r hr
        have hcountAfter : after.countP (fun r => r.code = .unify) = 0 :=
          List.countP_eq_zero.mpr fun r hr => by simpa using hafterNo r hr
        refine ⟨⟨_, by simpa using hinv.commit⟩, hlog, rfl, rfl, ?_, ?_⟩
        · simp only [Option.isSome_some, if_true]
          rw [hflat, hrecords, List.countP_append, List.countP_cons, hcountBefore, hcountAfter]
          simp [LogRecord.code]
        · simp only [Option.isSome_some, if_true, hflat, hrecords, fromUnify_append,
            fromUnify_eq_none hbeforeNo]
          rfl
      · exact .inr (.inr ⟨hgt, by rw [herr]⟩)

/-! ## Stages that only look at records -/

/-- Records a stage does nothing with can be left out. -/
theorem applyRecords_filter {σ : Type} (apply : LogRecord → σ → Except ReplayError σ)
    {handles : LogCode → Bool}
    (hskip : ∀ r s, handles r.code = false → apply r s = .ok s) (rs : List LogRecord) (s : σ) :
    applyRecords apply (rs.filter fun r => handles r.code) s = applyRecords apply rs s := by
  induction rs generalizing s with
  | nil => rfl
  | cons r rs ih =>
      cases hr : handles r.code with
      | true =>
          rw [List.filter_cons_of_pos (by simpa using hr), applyRecords, applyRecords]
          exact congrArg (bind (apply r s)) (funext fun s' => ih s')
      | false =>
          rw [List.filter_cons_of_neg (by simp [hr]), applyRecords, hskip r s hr, ih]
          rfl

/-- A part of stage2 that does nothing for the addresses of the log blocks is the run over
the records since the mark. -/
theorem ReadsBack.stage2_records {g : Geometry} {ds : List Delta}
    {wss : List (List (Nat × Logblock))} {rp : Replay} (h : ReadsBack g ds wss rp) {σ : Type}
    (apply : LogRecord → σ → Except ReplayError σ)
    (hskip : ∀ r s, stage2Handles r.code = false → apply r s = .ok s) (s : σ) :
    replayLogblocks (replayLogStage2 (fun _ s => .ok s) apply rp) 0 rp.blocks s =
      applyRecords apply (cycleRecords [] ds) s := by
  have hlen : (rp.blocks.map Prod.fst).length =
      ((liveParts (cyclePacks g [] ds)).map
        fun rs => rs.filter fun r => stage2Handles r.code).length := by
    rw [List.length_map, List.length_map, liveParts_length, h.whole.length_eq]
  rw [h.stage2, applyBlocks_ok apply _ _ hlen, ← List.filter_flatten, h.parts,
    applyRecords_filter apply hskip]

end Tux3
