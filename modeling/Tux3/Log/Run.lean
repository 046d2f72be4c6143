/-
  Log/Run.lean --- every run of deltas is read back, exactly when no delta overruns
  the range limit of the log map.
-/
import Tux3.Log.ReadBack

set_option autoImplicit false

namespace Tux3

open BigEndian

/-! ## Runs -/

/-- Run lemma: unless the allocator fails, a run within the limit ends in the state its
deltas say, and a run with a delta over the limit fails an assertion. -/
theorem runDeltas_inv {g : Geometry} (ds : List Delta) {sb : LogSb}
    {ws : List (Nat × Logblock)} {rss : List (List LogRecord)} {recs : List LogRecord}
    (h : RunInv g sb ws rss recs) :
    runDeltas g sb ds = .error .balloc ∨
      ((∀ d ∈ ds, (packRecords g.logRoom d.records).length ≤ contigLimit) ∧
        ∃ sb' wss, runDeltas g sb ds = .ok (sb', wss) ∧
          RunInv g sb' (cycleWrites ws ds wss) (cyclePacks g rss ds) (cycleRecords recs ds)) ∨
      ((∃ d ∈ ds, contigLimit < (packRecords g.logRoom d.records).length) ∧
        runDeltas g sb ds = .error .assertion) := by
  induction ds generalizing sb ws rss recs with
  | nil => exact .inr (.inl ⟨by simp, sb, [], rfl, h⟩)
  | cons d ds ih =>
      rw [runDeltas]
      rcases doCommit_inv h d with herr | ⟨hle, sb₁, ws₁, hok, hinv⟩ | ⟨hgt, herr⟩
      · exact .inl (by simp [herr, bind, Except.bind])
      · rcases ih hinv with herr | ⟨hall, sb', wss, hrun, hinv'⟩ | ⟨⟨d', hd', hgt⟩, herr⟩
        · exact .inl (by simp [hok, herr, bind, Except.bind])
        · refine .inr (.inl ⟨?_, sb', ws₁ :: wss, ?_, ?_⟩)
          · intro d' hd'
            rcases List.mem_cons.mp hd' with rfl | hd'
            · exact hle
            · exact hall d' hd'
          · simp [hok, hrun, bind, Except.bind, pure, Except.pure]
          · cases hafter : d.after <;>
              simpa [cycleWrites, cyclePacks, cycleRecords, hafter] using hinv'
        · exact .inr (.inr ⟨⟨d', by simp [hd'], hgt⟩, by simp [hok, herr, bind, Except.bind]⟩)
      · exact .inr (.inr ⟨⟨d, by simp, hgt⟩, by simp [herr, bind, Except.bind]⟩)

/-- The cycle has a mark exactly when some delta had a unify. -/
theorem cyclePacks_mark (g : Geometry) (ds : List Delta) (rss : List (List LogRecord)) :
    (fromUnify (cyclePacks g rss ds).flatten).isSome ↔
      (fromUnify rss.flatten).isSome ∨ ∃ d ∈ ds, d.after.isSome := by
  induction ds generalizing rss with
  | nil => simp [cyclePacks]
  | cons d ds ih =>
      rw [cyclePacks, ih]
      cases hafter : d.after with
      | none =>
          have hnone : fromUnify d.before = none :=
            fromUnify_eq_none fun r hr => d.noMark r (by simp [hr])
          have hrecords : d.records = d.before := by simp [Delta.records, hafter]
          simp [hafter, packRecords_flatten, hrecords, fromUnify_append, hnone]
      | some after =>
          have hrecords : d.records = d.before ++ .unify :: after := by
            simp [Delta.records, hafter]
          have hmark : (fromUnify d.records).isSome :=
            fromUnify_isSome_iff.mpr ⟨.unify, by simp [hrecords], rfl⟩
          simp [hafter, packRecords_flatten, hmark]

/-- `replay_prepare` never loads more blocks than the super block counts. -/
theorem replayLoad_length {g : Geometry} {disk : Nat → Logblock} {n logchain : Nat}
    {rp rp' : Replay} (h : replayLoad g disk n logchain rp = .ok rp') :
    rp'.blocks.length = n + rp.blocks.length := by
  induction n generalizing logchain rp with
  | zero =>
      simp only [replayLoad, Except.ok.injEq] at h
      rw [← h, Nat.zero_add]
  | succ n ih =>
      rw [replayLoad] at h
      cases hcheck : replayCheckLog g rp n (disk logchain) with
      | error e => simp [hcheck, bind, Except.bind] at h
      | ok rp₁ =>
          simp only [hcheck, bind, Except.bind] at h
          have hblocks : rp₁.blocks = rp.blocks := by
            unfold replayCheckLog at hcheck
            split at hcheck
            · cases hcheck
            split at hcheck
            · cases hcheck
            simp only [bind, Except.bind] at hcheck
            split at hcheck
            · cases hcheck
            · simp only [pure, Except.pure, Except.ok.injEq] at hcheck
              rw [← hcheck]
          rw [ih h, List.length_cons, hblocks]
          omega

/-- At the end of a run the log is loaded back, unless its blocks overflow the count in
the super block. -/
theorem RunInv.replayPrepare {g : Geometry} {sb : LogSb} {ws : List (Nat × Logblock)}
    {rss : List (List LogRecord)} {recs : List LogRecord} (h : RunInv g sb ws rss recs)
    (hcount : rss.length < 2 ^ 32) :
    ∃ rp, replayPrepare g sb = .ok rp ∧ rp.blocks = ws ∧
      rp.unify = lastSome (markBytes g) rss ∧ List.Forall₂ (HoldsRecords g) ws rss := by
  obtain ⟨logchain, hcycle⟩ := h.cycle
  have hlen : ws.length % 2 ^ 32 = ws.length := by
    rw [hcycle.holds.length_eq]
    exact Nat.mod_eq_of_lt hcount
  refine ⟨{ blocks := ws, unify := lastSome (markBytes g) rss }, ?_, rfl, rfl, hcycle.holds⟩
  rw [Tux3.replayPrepare, h.saved, hcycle.super, hlen,
    replayLoad_chained hcycle.chained hcycle.disk hcycle.holds]
  simp

/-- What replay sees of a cycle whose blocks it has loaded. -/
theorem readsBack_of_run {g : Geometry} {ds : List Delta} {wss : List (List (Nat × Logblock))}
    {sb : LogSb} {rp : Replay}
    (h : RunInv g sb (cycleWrites [] ds wss) (cyclePacks g [] ds) (cycleRecords [] ds))
    (hblocks : rp.blocks = cycleWrites [] ds wss)
    (hunify : rp.unify = lastSome (markBytes g) (cyclePacks g [] ds))
    (hholds : List.Forall₂ (HoldsRecords g) (cycleWrites [] ds wss) (cyclePacks g [] ds)) :
    ReadsBack g ds wss rp := by
  have hparts : (liveParts (cyclePacks g [] ds)).flatten = cycleRecords [] ds := by
    rw [liveParts_flatten _ h.once, h.live]
  have hmark : MarkFrom g 0 (cyclePacks g [] ds) rp.unify := by
    unfold MarkFrom
    cases hlast : lastSome (markBytes g) (cyclePacks g [] ds) with
    | none => simp [hunify, hlast]
    | some m => simp [hunify, hlast]
  refine ⟨hblocks, hblocks ▸ hholds, ?_, hparts, ?_, ?_⟩
  · have hiff := cyclePacks_mark g ds []
    rw [hunify, lastSome_markBytes_isSome]
    simp only [List.flatten_nil, fromUnify, Option.isSome_none, Bool.false_eq_true,
      false_or] at hiff
    rw [← hiff, fromUnify_isSome_iff, List.any_eq_true]
    constructor
    · rintro ⟨rs, hrs, hr⟩
      obtain ⟨r, hr, hcode⟩ := fromUnify_isSome_iff.mp hr
      exact ⟨r, List.mem_flatten.mpr ⟨rs, hrs, hr⟩, hcode⟩
    · rintro ⟨r, hr, hcode⟩
      obtain ⟨rs, hrs, hr⟩ := List.mem_flatten.mp hr
      exact ⟨rs, hrs, fromUnify_isSome_iff.mpr ⟨r, hr, hcode⟩⟩
  · intro σ apply s
    have hrun := replayLogblocks_parts apply stage1Switch_decodes (fun _ s => .ok s) hholds
      hmark s
    have hlen : ((cycleWrites [] ds wss).map Prod.fst).length =
        ((liveParts (cyclePacks g [] ds)).map
          fun rs => rs.filter fun r => stage1Handles r.code).length := by
      rw [List.length_map, List.length_map, liveParts_length, hholds.length_eq]
    rw [applyBlocks_ok apply _ _ hlen, ← List.filter_flatten, hparts] at hrun
    rw [hblocks]
    exact hrun
  · intro σ mark apply s
    rw [hblocks]
    exact replayLogblocks_parts apply stage2Switch_decodes mark hholds hmark s

/-- For every run of deltas from a fresh volume in which the allocator always has an
answer: the run commits, and replay reads back exactly the log blocks of the cycle and
the records from the mark of the latest unify on, if and only if no delta needs more log
blocks than one collected range may hold and the blocks of the cycle fit the count in
the super block. -/
theorem runDeltas_readsBack_iff (g : Geometry) (bitmap : Nat → Bool) (disk : Nat → Logblock)
    (ds : List Delta) (hballoc : runDeltas g (freshSb bitmap disk) ds ≠ .error .balloc) :
    (∃ sb wss rp, runDeltas g (freshSb bitmap disk) ds = .ok (sb, wss) ∧
        replayPrepare g sb = .ok rp ∧ ReadsBack g ds wss rp) ↔
      (∀ d ∈ ds, (packRecords g.logRoom d.records).length ≤ compressionStrideLen) ∧
        (cyclePacks g [] ds).length < 2 ^ 32 := by
  rcases runDeltas_inv ds (freshSb_inv g bitmap disk) with
    herr | ⟨hall, sb, wss, hrun, hinv⟩ | ⟨⟨d, hd, hgt⟩, herr⟩
  · exact absurd herr hballoc
  · constructor
    · rintro ⟨sb', wss', rp, hrun', hprepare, hreads⟩
      obtain ⟨rfl, rfl⟩ : sb = sb' ∧ wss = wss' := by
        have heq := hrun.symm.trans hrun'
        simpa using heq
      refine ⟨hall, ?_⟩
      -- the blocks loaded are as many as the wrapped count says, so it did not wrap
      obtain ⟨logchain, hcycle⟩ := hinv.cycle
      have hloaded := replayLoad_length hprepare
      have hsaved : sb.saved.logcount = (cycleWrites [] ds wss).length % 2 ^ 32 := by
        rw [hinv.saved, hcycle.super]
      have hlength := hcycle.holds.length_eq
      rw [hreads.blocks, hsaved, List.length_nil, Nat.add_zero] at hloaded
      have hlt := Nat.mod_lt (cycleWrites [] ds wss).length (show 0 < 2 ^ 32 by decide)
      omega
    · rintro ⟨-, hcount⟩
      obtain ⟨rp, hprepare, hblocks, hunify, hholds⟩ := hinv.replayPrepare hcount
      exact ⟨sb, wss, rp, hrun, hprepare, readsBack_of_run hinv hblocks hunify hholds⟩
  · constructor
    · rintro ⟨sb, wss, rp, hrun, -, -⟩
      rw [herr] at hrun
      cases hrun
    · rintro ⟨hall, -⟩
      exact absurd (hall d hd) (Nat.not_le_of_lt hgt)

/-! ## A run that is read back, and one that is not -/

/-- A volume with 256 byte blocks. -/
def smallGeometry : Geometry :=
  { blockbits := 8, volblocks := 1024, blockbits_ge := by decide, blockbits_le := by decide
    volblocks_ge := by decide, volblocks_le := by decide }

/-- Two deltas, the second with a unify and two segments for its log blocks. -/
def shortRun : List Delta :=
  [{ before := [.delta, .balloc 40 2, .leafRedirect 8 42], after := none
     segs := [⟨100, 1⟩], bitmap := fun _ => false, disk := fun _ => default
     inRange := by decide, noMark := by decide },
   { before := .delta :: (List.range 22).map fun i => .balloc (200 + 2 * i) 1
     after := some [.freeblocks 900, .bfreeRelog 100 1, .delta]
     segs := [⟨101, 1⟩, ⟨110, 1⟩], bitmap := fun _ => false, disk := fun _ => default
     inRange := by decide, noMark := by decide }]

/-- The equivalence holds of a run whose log blocks come in pieces. -/
theorem runDeltas_readsBack_iff_shortRun :
    (∃ sb wss rp, runDeltas smallGeometry (freshSb (fun _ => false) fun _ => default) shortRun =
          .ok (sb, wss) ∧
        replayPrepare smallGeometry sb = .ok rp ∧ ReadsBack smallGeometry shortRun wss rp) ↔
      (∀ d ∈ shortRun, (packRecords smallGeometry.logRoom d.records).length ≤
          compressionStrideLen) ∧
        (cyclePacks smallGeometry [] shortRun).length < 2 ^ 32 := by
  refine runDeltas_readsBack_iff smallGeometry (fun _ => false) (fun _ => default) shortRun ?_
  have hok : (runDeltas smallGeometry (freshSb (fun _ => false) fun _ => default)
      shortRun).isOk = true := by decide +kernel
  intro herr
  rw [herr] at hok
  exact Bool.noConfusion hok

/-- A delta that allocates ninety separate extents, as a flush of small files on a
fragmented volume does: its log takes five blocks. -/
def fragmentedDelta : Delta :=
  { before := .delta :: (List.range 90).map fun i => .balloc (200 + 2 * i) 1, after := none
    segs := [⟨100, 4⟩, ⟨104, 1⟩], bitmap := fun _ => false, disk := fun _ => default
    inRange := by decide, noMark := by decide }

/-- That delta never commits, although the allocator answers every request: the fifth
log block is collected as a range of its own, and `tux3_logmap_io` asserts that a range
starts at index zero. -/
theorem fragmentedDelta_not_readBack :
    runDeltas smallGeometry (freshSb (fun _ => false) fun _ => default) [fragmentedDelta] ≠
        .error .balloc ∧
      ¬ ∃ sb wss rp,
        runDeltas smallGeometry (freshSb (fun _ => false) fun _ => default) [fragmentedDelta] =
            .ok (sb, wss) ∧
          replayPrepare smallGeometry sb = .ok rp ∧
            ReadsBack smallGeometry [fragmentedDelta] wss rp := by
  have hfail : (match runDeltas smallGeometry (freshSb (fun _ => false) fun _ => default)
      [fragmentedDelta] with
      | .error .assertion => true
      | _ => false) = true := by decide +kernel
  constructor
  · intro herr
    rw [herr] at hfail
    exact Bool.noConfusion hfail
  · rintro ⟨sb, wss, rp, hrun, -, -⟩
    rw [hrun] at hfail
    exact Bool.noConfusion hfail

end Tux3
