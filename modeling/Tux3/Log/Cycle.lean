/-
  Log/Cycle.lean --- the log over a unify cycle.

  A delta logs any records, may start a new cycle with `LOG_UNIFY` in the middle of
  them, writes its log blocks and commits the super block.  What replay must see is
  defined from the deltas alone: the records since the last mark (`cycleRecords`), the
  greedy packing of the cycle's records into blocks (`cyclePacks`) and, from the
  writes a run issued, the log blocks of the cycle (`cycleWrites`).

  `RunInv` says that the state is the end of such a cycle; `doCommit_inv` is its step
  lemma and `runDeltas_inv` its run lemma.  Between them and `replayLogblocks_parts`
  stands the limit of `bufvec_contig_collect`: a delta with more than
  `COMPRESSION_STRIDE_LEN` log blocks runs into the assertion of `tux3_logmap_io`
  (`flushList_over_limit`), so the log is read back only where every delta stays
  within the limit.
-/
import Tux3.Log.Chain

set_option autoImplicit false

namespace Tux3

open BigEndian

/-! ## Deltas -/

/-- A delta.  `before` are the records logged by staging it; with a unify, `after` are
those logged after the unify mark.  `segs` are the answers of `balloc_partial` for the
log blocks, and `bitmap` and `disk` are what the blocks that do not belong to the log
look like when the log is written.  Only `unify_log` logs the mark. -/
structure Delta where
  before : List LogRecord
  after : Option (List LogRecord)
  segs : List BlockSegment
  bitmap : Nat → Bool
  disk : Nat → Logblock
  inRange : ∀ r ∈ before ++ after.getD [], r.InRange
  noMark : ∀ r ∈ before ++ after.getD [], r.code ≠ .unify

/-- All records of a delta in the order they are logged. -/
def Delta.records (d : Delta) : List LogRecord :=
  match d.after with
  | none => d.before
  | some after => d.before ++ .unify :: after

theorem Delta.records_inRange (d : Delta) : ∀ r ∈ d.records, r.InRange := by
  intro r hr
  have hin := d.inRange r
  unfold Delta.records at hr
  cases hafter : d.after with
  | none => simp_all
  | some after =>
      simp only [hafter, List.mem_append, List.mem_cons] at hr
      rcases hr with h | rfl | h
      · exact hin (by simp [h])
      · trivial
      · exact hin (by simp [hafter, h])

/-- The block belongs to the log: it waits in one of the deferred free lists. -/
def LogSb.owns (sb : LogSb) (b : Nat) : Bool :=
  (sb.deunify ++ sb.defree).any fun seg => decide (b ∈ seg.blocks)

/-- Everything else the delta does to the volume. -/
def Delta.environment (d : Delta) (sb : LogSb) : LogSb :=
  { sb with
    bitmap := fun b => if sb.owns b then sb.bitmap b else d.bitmap b
    disk := fun b => if sb.owns b then sb.disk b else d.disk b }

/-- The log part of `unify_log`: restart the count, log the mark and the records that
follow it, and turn the blocks deferred to the unify into blocks deferred to the
commit. -/
def unifyLog (g : Geometry) (sb : LogSb) (after : List LogRecord) : Except CommitError LogSb :=
  match logRecords g sb.log (.unify :: after) with
  | none => .error .assertion
  | some log =>
      .ok { sb with
        log := log
        super := { sb.super with logcount := 0 }
        deunify := []
        defree := sb.defree ++ sb.deunify }

/-- `write_log`: finish the open block and flush the log map. -/
def writeLog (g : Geometry) (sb : LogSb) (segs : List BlockSegment) :
    Except CommitError LogFlush :=
  match logFinish g sb.log with
  | none => .error .assertion
  | some log => do
      let buffers := logBuffers 0 log.logmap
      let sb := { sb with log := { logmap := [], logbuf := none } }
      flushList g (buffers.length + 1) { sb := sb, segs := segs, writes := [] } buffers

/-- `commit_delta`: save the super block, then apply the deferred frees. -/
def commitDelta (sb : LogSb) : LogSb :=
  { sb with
    saved := sb.super
    bitmap := sb.defree.foldl (fun bitmap seg => setBits bitmap seg false) sb.bitmap
    defree := [] }

/-- `do_commit`, with the log block writes it issued. -/
def doCommit (g : Geometry) (sb : LogSb) (d : Delta) :
    Except CommitError (LogSb × List (Nat × Logblock)) :=
  let sb := d.environment sb
  match logRecords g sb.log d.before with
  | none => .error .assertion
  | some log => do
      let sb := { sb with log := log }
      let sb ← match d.after with
        | none => .ok sb
        | some after => unifyLog g sb after
      let fl ← writeLog g sb d.segs
      return (commitDelta fl.sb, fl.writes)

/-- A run of deltas, with the log block writes of each. -/
def runDeltas (g : Geometry) :
    LogSb → List Delta → Except CommitError (LogSb × List (List (Nat × Logblock)))
  | sb, [] => .ok (sb, [])
  | sb, d :: ds => do
      let (sb, ws) ← doCommit g sb d
      let (sb, wss) ← runDeltas g sb ds
      return (sb, ws :: wss)

/-- A fresh volume: no log yet. -/
def freshSb (bitmap : Nat → Bool) (disk : Nat → Logblock) : LogSb :=
  { log := { logmap := [], logbuf := none }
    super := { logchain := 0, logcount := 0 }
    saved := { logchain := 0, logcount := 0 }
    bitmap := bitmap
    deunify := []
    defree := []
    disk := disk }

/-! ## What replay must see -/

/-- The records since the latest unify mark, the mark included. -/
def cycleRecords : List LogRecord → List Delta → List LogRecord
  | rs, [] => rs
  | rs, d :: ds =>
      match d.after with
      | none => cycleRecords (rs ++ d.before) ds
      | some after => cycleRecords (.unify :: after) ds

/-- The packing of the records of all deltas since the one with the latest unify. -/
def cyclePacks (g : Geometry) : List (List LogRecord) → List Delta → List (List LogRecord)
  | rss, [] => rss
  | rss, d :: ds =>
      let packs := packRecords g.logRoom d.records
      cyclePacks g (if d.after.isSome then packs else rss ++ packs) ds

/-- The log blocks written by all deltas since the one with the latest unify. -/
def cycleWrites {β : Type} : List β → List Delta → List (List β) → List β
  | ws, d :: ds, ws' :: wss =>
      cycleWrites (if d.after.isSome then ws' else ws ++ ws') ds wss
  | ws, _, _ => ws

/-- Some record of the block is a unify mark. -/
def hasMark (rs : List LogRecord) : Bool := (fromUnify rs).isSome

/-- What is left of each block of a cycle when everything before the latest unify mark
is skipped. -/
def liveParts : List (List LogRecord) → List (List LogRecord)
  | [] => []
  | rs :: rss => (if rss.any hasMark then [] else (fromUnify rs).getD rs) :: liveParts rss

/-- A stage over log blocks given by their addresses and records: `mark` on the address
of a block, then `apply` on its records. -/
def applyBlocks {σ : Type} (mark : Nat → σ → Except ReplayError σ)
    (apply : LogRecord → σ → Except ReplayError σ) :
    List (Nat × List LogRecord) → σ → Except ReplayError σ
  | [], s => .ok s
  | (blocknr, rs) :: rest, s => do
      let s ← mark blocknr s
      let s ← applyRecords apply rs s
      applyBlocks mark apply rest s

/-- Replay reads the log back: it has loaded the log blocks of the cycle in write order,
each holding whole records only, it has found the mark of the latest unify, and the
two stages, whatever they do with a record, act on exactly the records from that mark
on that they handle, in order and with their arguments. -/
structure ReadsBack (g : Geometry) (ds : List Delta) (wss : List (List (Nat × Logblock)))
    (rp : Replay) : Prop where
  blocks : rp.blocks = cycleWrites [] ds wss
  whole : List.Forall₂ (HoldsRecords g) rp.blocks (cyclePacks g [] ds)
  mark : rp.unify.isSome ↔ ∃ d ∈ ds, d.after.isSome
  parts : (liveParts (cyclePacks g [] ds)).flatten = cycleRecords [] ds
  stage1 : ∀ {σ : Type} (apply : LogRecord → σ → Except ReplayError σ) (s : σ),
    replayLogblocks (replayLogStage1 apply rp) 0 rp.blocks s =
      applyRecords apply ((cycleRecords [] ds).filter fun r => stage1Handles r.code) s
  stage2 : ∀ {σ : Type} (mark : Nat → σ → Except ReplayError σ)
      (apply : LogRecord → σ → Except ReplayError σ) (s : σ),
    replayLogblocks (replayLogStage2 mark apply rp) 0 rp.blocks s =
      applyBlocks mark apply ((rp.blocks.map Prod.fst).zip
        ((liveParts (cyclePacks g [] ds)).map fun rs => rs.filter fun r => stage2Handles r.code)) s

/-! ## Marks -/

theorem fromUnify_append (rs rs' : List LogRecord) :
    fromUnify (rs ++ rs') =
      ((fromUnify rs).map fun suffix => suffix ++ rs').or (fromUnify rs') := by
  induction rs with
  | nil => rfl
  | cons r rs ih =>
      by_cases h : r.code = .unify
      · simp [fromUnify, h]
      · simp [fromUnify, h, ih]

theorem fromUnify_eq_none {rs : List LogRecord} (h : ∀ r ∈ rs, r.code ≠ .unify) :
    fromUnify rs = none := by
  induction rs with
  | nil => rfl
  | cons r rs ih =>
      rw [fromUnify, if_neg (h r (by simp)), ih fun r' hr' => h r' (by simp [hr'])]

theorem fromUnify_isSome_iff {rs : List LogRecord} :
    (fromUnify rs).isSome ↔ ∃ r ∈ rs, r.code = .unify := by
  induction rs with
  | nil => simp [fromUnify]
  | cons r rs ih =>
      by_cases h : r.code = .unify
      · simp [fromUnify, h]
      · simp [fromUnify, h, ih]

theorem fromUnify_suffix {rs suffix : List LogRecord} (h : fromUnify rs = some suffix) :
    suffix <:+ rs := by
  induction rs with
  | nil => simp [fromUnify] at h
  | cons r rs ih =>
      rw [fromUnify] at h
      split at h
      · obtain rfl := Option.some.inj h
        exact List.suffix_refl _
      · exact (ih h).trans (List.suffix_cons r rs)

/-- The blocks of a run of records with at most one mark: what is left of them are the
records from the mark on. -/
theorem liveParts_flatten (rss : List (List LogRecord))
    (h : rss.flatten.countP (fun r => r.code = .unify) ≤ 1) :
    (liveParts rss).flatten = (fromUnify rss.flatten).getD rss.flatten := by
  induction rss with
  | nil => rfl
  | cons rs rss ih =>
      rw [List.flatten_cons, List.countP_append] at h
      have ih' := ih (by omega)
      rw [liveParts, List.flatten_cons, List.flatten_cons, ih', fromUnify_append]
      by_cases hany : rss.any hasMark = true
      · -- a later block has the mark, so this one has none
        have hlater : (fromUnify rss.flatten).isSome = true := by
          obtain ⟨rs', hmem, hmark⟩ := List.any_eq_true.mp hany
          by_contra hnone
          have hno := fromUnify_isSome_iff.not.mp hnone
          obtain ⟨r, hr, hcode⟩ := fromUnify_isSome_iff.mp hmark
          exact hno ⟨r, List.mem_flatten.mpr ⟨rs', hmem, hr⟩, hcode⟩
        obtain ⟨r, hr, hcode⟩ := fromUnify_isSome_iff.mp hlater
        have hpos : 0 < rss.flatten.countP (fun r => r.code = .unify) :=
          List.countP_pos_iff.mpr ⟨r, hr, by simpa using hcode⟩
        have hzero : rs.countP (fun r => r.code = .unify) = 0 := by omega
        have hnone : fromUnify rs = none := by
          refine fromUnify_eq_none fun r hr hcode => ?_
          have := List.countP_eq_zero.mp hzero r hr
          simp [hcode] at this
        obtain ⟨suffix, hsuffix⟩ := Option.isSome_iff_exists.mp hlater
        simp [hany, hnone, hsuffix]
      · have hnone : fromUnify rss.flatten = none := by
          by_contra hsome
          obtain ⟨r, hr, hcode⟩ :=
            fromUnify_isSome_iff.mp (Option.isSome_iff_ne_none.mpr hsome)
          obtain ⟨rs', hmem, hr'⟩ := List.mem_flatten.mp hr
          exact hany (List.any_eq_true.mpr
            ⟨rs', hmem, fromUnify_isSome_iff.mpr ⟨r, hr', hcode⟩⟩)
        cases hrs : fromUnify rs <;> simp [hany, hnone]

end Tux3
