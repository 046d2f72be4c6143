/-
  Balloc/Longest.lean --- what the cyclic search misses.

  The searched sequence goes from `start` up to the end of the range, and on at block 0 behind
  the end of the volume.  The search finds a free run of the requested length whenever there is
  one.  In partial mode the longest free run that ended is taken; a run that the end of the range
  cuts off is not looked at.
-/
import Tux3.Balloc.Run

set_option autoImplicit false

namespace Tux3

open BitRange

/-! ## The searched sequence -/

/-- Where the part of the sequence ends that begins at block 0. -/
def wrappedEnd (volblocks start len : Nat) : Nat :=
  if volblocks ≤ start then len else start + len - volblocks

/-- Where the sequence ends. -/
def searchEnd (volblocks start len : Nat) : Nat :=
  if start + len ≤ volblocks then start + len else wrappedEnd volblocks start len

/-- A run that lies in one part of the sequence. -/
def Searched (volblocks start len : Nat) (seg : BlockSegment) : Prop :=
  (start ≤ seg.block ∧ seg.block + seg.count ≤ min (start + len) volblocks) ∨
    seg.block + seg.count ≤ wrappedEnd volblocks start len

/-- A run of free blocks of the sequence. -/
structure FreeRun (bits : Nat → Bool) (volblocks start len : Nat) (seg : BlockSegment) : Prop where
  pos : 0 < seg.count
  free : AllBits bits seg.block (seg.block + seg.count) false
  searched : Searched volblocks start len seg

/-- There is a run of the requested length. -/
def HasFullRun (bits : Nat → Bool) (volblocks start len blocks : Nat) : Prop :=
  ∃ seg, FreeRun bits volblocks start len seg ∧ seg.count = blocks

/-- A free run that the end of the sequence cuts off is not longer than all the others. -/
def EndCovered (bits : Nat → Bool) (volblocks start len : Nat) : Prop :=
  ∀ seg, FreeRun bits volblocks start len seg →
    seg.block + seg.count = searchEnd volblocks start len →
    ∃ other, FreeRun bits volblocks start len other ∧ seg.count ≤ other.count ∧
      other.block + other.count ≠ searchEnd volblocks start len

/-- What `balloc_from_range` has to return: the wanted run, or in partial mode the longest; no
space only if there is no such run, or in partial mode no free block. -/
structure RangeAllocated (sb : BitmapSb) (start len blocks : Nat) (orPart : Bool)
    (r : BitmapSb × Int × BlockSegment) : Prop where
  run : r.2.1 = 0 → FreeRun sb.bits sb.volblocks start len r.2.2
  whole : r.2.1 = 0 → orPart = false → r.2.2.count = blocks
  longest : r.2.1 = 0 → orPart = true → r.2.2.count = blocks ∨ r.2.2.count < blocks ∧
    ∀ seg, FreeRun sb.bits sb.volblocks start len seg → seg.count ≤ r.2.2.count
  noRun : r.2.1 = -enospc → orPart = false → ¬HasFullRun sb.bits sb.volblocks start len blocks
  noBlock : r.2.1 = -enospc → orPart = true →
    ∀ seg, ¬FreeRun sb.bits sb.volblocks start len seg

/-! ## What a scan has seen -/

section Seen

variable {bits : Nat → Bool} {volblocks blocks start total len : Nat}
  {unreadable : Bool → Nat → Bool} {s : Scan} {seg : BlockSegment}

/-- The runs among the blocks that a scan passed. -/
def Scan.Passed (volblocks start : Nat) (s : Scan) (seg : BlockSegment) : Prop :=
  (start ≤ seg.block ∧ seg.block + seg.count ≤ if s.wrapped then volblocks else s.pos) ∨
    s.wrapped = true ∧ seg.block + seg.count ≤ s.pos

/-- How much of the sequence is left to a scan. -/
def Scan.Left (volblocks start total : Nat) (s : Scan) (len : Nat) : Prop :=
  if s.wrapped then s.pos + len = wrappedEnd volblocks start total ∧ volblocks < start + total
  else s.pos + len = start + total ∧ start ≤ s.pos ∧ (s.pos ≤ volblocks ∨ s.pos = start)

/-- The best run of a scan ended before its position, and every other one that it passed is no
longer, or part of the run that it is in. -/
structure Scan.Sees (bits : Nat → Bool) (volblocks blocks start : Nat) (s : Scan) : Prop where
  run_lt : s.run < blocks
  run_le : s.run ≤ s.pos
  run_passed : s.wrapped = false → start + s.run ≤ s.pos
  run_free : AllBits bits (s.pos - s.run) s.pos false
  run_max : ∀ b, (s.wrapped = false → start ≤ b) → AllBits bits b s.pos false →
    s.pos - s.run ≤ b
  best : s.best.count = 0 ∨ AllBits bits s.best.block (s.best.block + s.best.count) false ∧
    s.best.count < blocks ∧ s.Passed volblocks start s.best ∧
    (s.wrapped = true ∧ start ≤ s.best.block ∨ s.best.block + s.best.count < s.pos)
  others : ∀ seg, 0 < seg.count → AllBits bits seg.block (seg.block + seg.count) false →
    s.Passed volblocks start seg →
    seg.count ≤ s.best.count ∨ s.pos - s.run ≤ seg.block ∧ seg.block + seg.count ≤ s.pos

theorem wrappedEnd_le (htotal : total ≤ volblocks) : wrappedEnd volblocks start total ≤ start := by
  unfold wrappedEnd
  split
  · rename_i hout
    exact Nat.le_trans htotal hout
  · omega

theorem count_saveSeg (seg : BlockSegment) (block count : Nat) :
    seg.count ≤ (saveSeg seg block count).count ∧ count ≤ (saveSeg seg block count).count := by
  unfold saveSeg
  split
  · rename_i hlt
    exact ⟨Nat.le_of_lt hlt, Nat.le_refl _⟩
  · rename_i hge
    exact ⟨Nat.le_refl _, Nat.not_lt.mp hge⟩

/-- At the start of a search. -/
theorem Scan.sees_start (hblocks : 0 < blocks) :
    Scan.Sees bits volblocks blocks start ⟨false, start, 0, ⟨0, 0⟩⟩ where
  run_lt := hblocks
  run_le := Nat.zero_le _
  run_passed := fun _ => Nat.le_refl _
  run_free := .empty (Nat.le_refl _)
  run_max := fun b hb _ => hb rfl
  best := .inl rfl
  others := by
    rintro seg hpos - (⟨hge, hle⟩ | ⟨hwrapped, -⟩)
    · have hle' : seg.block + seg.count ≤ start := hle
      omega
    · cases hwrapped

/-- A scan that has a part of the sequence left is before the end of the volume, or it is on its
first lap. -/
theorem Scan.Left.not_wrapped (h : s.Left volblocks start total len) (htotal : total ≤ volblocks)
    (hlen : len ≠ 0) (hout : volblocks ≤ s.pos) : s.wrapped = false := by
  cases hwrapped : s.wrapped with
  | false => rfl
  | true =>
      unfold Scan.Left wrappedEnd at h
      rw [if_pos hwrapped] at h
      obtain ⟨hend, -⟩ := h
      split at hend <;> omega

theorem Scan.Left.wrap (h : s.Left volblocks start total len) (htotal : total ≤ volblocks)
    (hlen : len ≠ 0) : (s.wrap volblocks).Left volblocks start total len := by
  unfold Scan.wrap
  split
  · rename_i hout
    have hwrapped := h.not_wrapped htotal hlen hout
    unfold Scan.Left at h
    rw [hwrapped, if_neg Bool.false_ne_true] at h
    obtain ⟨hend, hstart, hpos⟩ := h
    show 0 + len = wrappedEnd volblocks start total ∧ volblocks < start + total
    unfold wrappedEnd
    split <;> omega
  · exact h

/-- The run that ends at the end of the volume is looked at. -/
theorem Scan.Sees.wrap (h : s.Sees bits volblocks blocks start)
    (hleft : s.Left volblocks start total len) (htotal : total ≤ volblocks) (hlen : len ≠ 0) :
    (s.wrap volblocks).Sees bits volblocks blocks start := by
  unfold Scan.wrap
  split
  case isFalse => exact h
  case isTrue hout =>
    have hwrapped := hleft.not_wrapped htotal hlen hout
    have hpassed := h.run_passed hwrapped
    have hpos : s.run ≠ 0 → s.pos = volblocks := by
      unfold Scan.Left at hleft
      rw [hwrapped, if_neg Bool.false_ne_true] at hleft
      omega
    have hcounts := count_saveSeg s.best (volblocks - s.run) s.run
    have hold : ∀ seg, start ≤ seg.block → seg.block + seg.count ≤ volblocks →
        s.Passed volblocks start seg := by
      intro seg hge hle
      refine .inl ⟨hge, ?_⟩
      rw [hwrapped, if_neg Bool.false_ne_true]
      exact Nat.le_trans hle hout
    refine ⟨Nat.zero_lt_of_lt h.run_lt, Nat.le_refl _, fun hfalse => Bool.noConfusion hfalse,
      .empty (Nat.le_refl _), fun b _ _ => Nat.zero_le b, ?_, ?_⟩
    · dsimp only
      by_cases hlonger : s.best.count < s.run
      · have hend := hpos (Nat.ne_of_gt (Nat.zero_lt_of_lt hlonger))
        have hrun := h.run_le
        have hfree := h.run_free
        rw [hend] at hrun hfree hpassed
        unfold saveSeg
        rw [if_pos hlonger]
        refine .inr ⟨?_, h.run_lt, .inl ⟨?_, ?_⟩, .inl ⟨rfl, ?_⟩⟩
        · show AllBits bits (volblocks - s.run) (volblocks - s.run + s.run) false
          rwa [Nat.sub_add_cancel hrun]
        · exact Nat.le_sub_of_add_le hpassed
        · show volblocks - s.run + s.run ≤ volblocks
          exact Nat.le_of_eq (Nat.sub_add_cancel hrun)
        · exact Nat.le_sub_of_add_le hpassed
      · unfold saveSeg
        rw [if_neg hlonger]
        refine h.best.imp_right ?_
        rintro ⟨hfree, hlt, hpass, hend⟩
        rcases hpass with ⟨hge, hle⟩ | ⟨htrue, -⟩
        · rw [hwrapped, if_neg Bool.false_ne_true] at hle
          refine ⟨hfree, hlt, .inl ⟨hge, ?_⟩, .inl ⟨rfl, hge⟩⟩
          show s.best.block + s.best.count ≤ volblocks
          unfold Scan.Left at hleft
          rw [hwrapped, if_neg Bool.false_ne_true] at hleft
          rcases hleft.2.2 with hin | hstart
          · exact Nat.le_trans hle hin
          · rcases hend with ⟨htrue, -⟩ | hbefore
            · rw [hwrapped] at htrue
              cases htrue
            · omega
        · rw [hwrapped] at htrue
          cases htrue
    · rintro seg hcount hfree (⟨hge, hle⟩ | ⟨-, hle⟩)
      · left
        rcases h.others seg hcount hfree (hold seg hge hle) with hbest | ⟨hfrom, hto⟩
        · exact Nat.le_trans hbest hcounts.1
        · have hrun := h.run_le
          refine Nat.le_trans ?_ hcounts.2
          omega
      · have hle' : seg.block + seg.count ≤ 0 := hle
        omega

theorem Scan.Passed.mono {t : Scan} (h : s.Passed volblocks start seg) (hpos : s.pos ≤ t.pos)
    (hsame : t.wrapped = s.wrapped) : t.Passed volblocks start seg := by
  unfold Scan.Passed at h ⊢
  rw [hsame]
  rcases h with ⟨hge, hle⟩ | ⟨htrue, hle⟩
  · refine .inl ⟨hge, ?_⟩
    cases hwrapped : s.wrapped with
    | true =>
        rw [hwrapped] at hle
        exact hle
    | false =>
        rw [hwrapped] at hle
        exact Nat.le_trans hle hpos
  · exact .inr ⟨htrue, Nat.le_trans hle hpos⟩

/-- A run that ends before the next block. -/
theorem Scan.Passed.of_le {t : Scan} (h : t.Passed volblocks start seg)
    (hpos : t.pos = s.pos + 1) (hsame : t.wrapped = s.wrapped)
    (hend : seg.block + seg.count ≠ s.pos + 1) : s.Passed volblocks start seg := by
  unfold Scan.Passed at h ⊢
  rw [hsame, hpos] at h
  rcases h with ⟨hge, hle⟩ | ⟨htrue, hle⟩
  · refine .inl ⟨hge, ?_⟩
    cases hwrapped : s.wrapped with
    | true =>
        rw [hwrapped] at hle
        exact hle
    | false =>
        rw [hwrapped] at hle
        have hle' : seg.block + seg.count ≤ s.pos + 1 := hle
        show seg.block + seg.count ≤ s.pos
        omega
  · exact .inr ⟨htrue, by omega⟩

/-- The next block is taken: the run is looked at. -/
theorem Scan.Sees.taken (h : s.Sees bits volblocks blocks start) (hbit : bits s.pos = true) :
    s.taken.Sees bits volblocks blocks start := by
  have hcounts := count_saveSeg s.best (s.pos - s.run) s.run
  have hpass : ∀ seg, s.Passed volblocks start seg → s.taken.Passed volblocks start seg :=
    fun seg hseg => hseg.mono (Nat.le_succ _) rfl
  refine ⟨Nat.zero_lt_of_lt h.run_lt, Nat.zero_le _, fun hwrapped => ?_, .empty (Nat.le_refl _),
    fun b hb hfree => ?_, ?_, fun seg hcount hfree hseg => ?_⟩
  · have hrun := h.run_passed hwrapped
    show start + 0 ≤ s.pos + 1
    omega
  · show s.pos + 1 ≤ b
    by_contra hlt
    have hclear := hfree s.pos (by omega) (Nat.lt_succ_self _)
    rw [hbit] at hclear
    cases hclear
  · show (saveSeg s.best (s.pos - s.run) s.run).count = 0 ∨ _
    have hrun := h.run_le
    by_cases hlonger : s.best.count < s.run
    · have hsave : s.taken.best = ⟨s.pos - s.run, s.run⟩ := if_pos hlonger
      rw [hsave]
      refine .inr ⟨?_, h.run_lt, ?_, .inr ?_⟩
      · show AllBits bits (s.pos - s.run) (s.pos - s.run + s.run) false
        rw [Nat.sub_add_cancel hrun]
        exact h.run_free
      · unfold Scan.Passed Scan.taken
        dsimp only
        rw [Nat.sub_add_cancel hrun]
        cases hwrapped : s.wrapped with
        | false =>
            have hrun := h.run_passed hwrapped
            exact .inl ⟨by omega, Nat.le_succ _⟩
        | true => exact .inr ⟨rfl, Nat.le_succ _⟩
      · show s.pos - s.run + s.run < s.pos + 1
        rw [Nat.sub_add_cancel hrun]
        exact Nat.lt_succ_self _
    · have hsave : s.taken.best = s.best := if_neg hlonger
      have hsave' : saveSeg s.best (s.pos - s.run) s.run = s.best := if_neg hlonger
      rw [hsave', hsave]
      refine h.best.imp_right ?_
      rintro ⟨hfree, hlt, hseg, hend⟩
      exact ⟨hfree, hlt, hpass _ hseg, hend.imp_right fun hbefore => Nat.lt_succ_of_lt hbefore⟩
  · by_cases hend : seg.block + seg.count = s.pos + 1
    · have hclear := hfree s.pos (by omega) (by omega)
      rw [hbit] at hclear
      cases hclear
    · left
      rcases h.others seg hcount hfree (hseg.of_le rfl rfl hend) with hbest | ⟨hfrom, hto⟩
      · exact Nat.le_trans hbest hcounts.1
      · have hrun := h.run_le
        refine Nat.le_trans ?_ hcounts.2
        omega

/-- The next block is free: the run goes on. -/
theorem Scan.Sees.free_one (h : s.Sees bits volblocks blocks start) (hbit : bits s.pos = false)
    (hrun : s.run + 1 < blocks) : (s.free 1).Sees bits volblocks blocks start := by
  have hsub : s.pos + 1 - (s.run + 1) = s.pos - s.run := Nat.add_sub_add_right _ _ _
  have hrunle := h.run_le
  have hbefore : ∀ b, b ≤ s.pos → AllBits bits b (s.pos + 1) false → AllBits bits b s.pos false :=
    fun b _ hfree => hfree.mono (Nat.le_refl _) (Nat.le_succ _)
  refine ⟨hrun, Nat.succ_le_succ hrunle, fun hwrapped => ?_, ?_, fun b hb hfree => ?_, ?_,
    fun seg hcount hfree hseg => ?_⟩
  · exact Nat.succ_le_succ (h.run_passed hwrapped)
  · show AllBits bits (s.pos + 1 - (s.run + 1)) (s.pos + 1) false
    rw [hsub]
    refine h.run_free.append fun b hge hlt => ?_
    rwa [show b = s.pos by omega]
  · show s.pos + 1 - (s.run + 1) ≤ b
    rw [hsub]
    rcases Nat.lt_or_ge s.pos b with hlt | hge
    · omega
    · exact h.run_max b hb (hbefore b hge hfree)
  · refine h.best.imp_right ?_
    rintro ⟨hfree, hlt, hseg, hend⟩
    exact ⟨hfree, hlt, hseg.mono (Nat.le_succ _) rfl,
      hend.imp_right fun hpos => Nat.lt_succ_of_lt hpos⟩
  · show seg.count ≤ s.best.count ∨ s.pos + 1 - (s.run + 1) ≤ seg.block ∧ _ ≤ s.pos + 1
    rw [hsub]
    by_cases hend : seg.block + seg.count = s.pos + 1
    · -- the run that the scan is in is the longest that ends here
      by_cases hlap : s.wrapped = false → start ≤ seg.block
      · refine .inr ⟨h.run_max _ hlap ?_, Nat.le_of_eq hend⟩
        rw [hend] at hfree
        exact hbefore _ (by omega) hfree
      · have hwrapped : s.wrapped = false := by
          by_contra hne
          exact hlap fun hfalse => absurd hfalse hne
        refine absurd (fun _ => ?_) hlap
        rcases hseg with ⟨hge, -⟩ | ⟨htrue, -⟩
        · exact hge
        · have htrue' : s.wrapped = true := htrue
          rw [hwrapped] at htrue'
          cases htrue'
    · refine (h.others seg hcount hfree (hseg.of_le rfl rfl hend)).imp_right ?_
      rintro ⟨hfrom, hto⟩
      exact ⟨hfrom, Nat.le_succ_of_le hto⟩

theorem Scan.Left.step {t : Scan} (h : s.Left volblocks start total (len + 1))
    (hpos : t.pos = s.pos + 1) (hsame : t.wrapped = s.wrapped) (hlt : s.pos < volblocks) :
    t.Left volblocks start total len := by
  unfold Scan.Left at h ⊢
  rw [hsame, hpos]
  cases hwrapped : s.wrapped with
  | true =>
      rw [hwrapped, if_pos rfl] at h
      rw [if_pos rfl]
      exact ⟨by omega, h.2⟩
  | false =>
      rw [hwrapped, if_neg Bool.false_ne_true] at h
      rw [if_neg Bool.false_ne_true]
      exact ⟨by omega, by omega, .inl hlt⟩

/-- A run that is long enough. -/
theorem Scan.Sees.found (h : s.Sees bits volblocks blocks start)
    (hleft : s.Left volblocks start total (len + 1)) (hbit : bits s.pos = false)
    (hlt : s.pos < volblocks) (hrun : s.run + 1 = blocks) :
    FreeRun bits volblocks start total ⟨s.pos + 1 - blocks, blocks⟩ := by
  have hle := h.run_le
  have hend : s.pos + 1 - blocks + blocks = s.pos + 1 := by omega
  refine ⟨?_, ?_, ?_⟩
  · show 0 < blocks
    omega
  · show AllBits bits (s.pos + 1 - blocks) (s.pos + 1 - blocks + blocks) false
    rw [hend, ← hrun, Nat.add_sub_add_right]
    refine h.run_free.append fun b hge hlt => ?_
    rwa [show b = s.pos by omega]
  · unfold Searched
    dsimp only
    rw [hend]
    unfold Scan.Left at hleft
    cases hwrapped : s.wrapped with
    | false =>
        have hpassed := h.run_passed hwrapped
        rw [hwrapped, if_neg Bool.false_ne_true] at hleft
        exact .inl ⟨by omega, Nat.le_min.mpr ⟨by omega, hlt⟩⟩
    | true =>
        rw [hwrapped, if_pos rfl] at hleft
        exact .inr (by omega)

/-- What a search comes to. -/
theorem firstFit_sees (len : Nat) (h : s.Sees bits volblocks blocks start)
    (hleft : s.Left volblocks start total len) (htotal : total ≤ volblocks) :
    match firstFit bits volblocks blocks unreadable len s with
    | .unreadable => True
    | .found seg => FreeRun bits volblocks start total seg ∧ seg.count = blocks
    | .missing best => ∃ t : Scan, t.best = best ∧ t.Sees bits volblocks blocks start ∧
        t.Left volblocks start total 0 := by
  induction len generalizing s with
  | zero => exact ⟨s, rfl, h, hleft⟩
  | succ len ih =>
      have hwrap := h.wrap hleft htotal (Nat.succ_ne_zero _)
      have hleft' := hleft.wrap htotal (Nat.succ_ne_zero _)
      have hvol : 0 < volblocks := by
        unfold Scan.Left wrappedEnd at hleft
        by_contra hzero
        split at hleft
        · split at hleft <;> omega
        · omega
      have hpos := Scan.wrap_pos_lt hvol s
      unfold firstFit
      generalize s.wrap volblocks = w at hwrap hpos hleft'
      dsimp only
      by_cases hread : unreadable w.wrapped w.pos = true
      · simp only [hread, if_true]
      by_cases hbit : bits w.pos = true
      · simp only [hread, hbit, if_true]
        exact ih (hwrap.taken hbit) (hleft'.step rfl rfl hpos)
      have hclear : bits w.pos = false := by simpa using hbit
      by_cases hrun : w.run + 1 = blocks
      · simp only [hread, hbit, hrun, if_true]
        exact ⟨hwrap.found hleft' hclear hpos hrun, rfl⟩
      · simp only [hread, hbit, hrun, if_false]
        have hlt := hwrap.run_lt
        exact ih (hwrap.free_one hclear (by omega)) (hleft'.step rfl rfl hpos)

/-- The whole sequence was searched, and the best run that ended is `best`. -/
structure SearchedAll (bits : Nat → Bool) (volblocks start total blocks : Nat)
    (best : BlockSegment) : Prop where
  short : ∀ seg, FreeRun bits volblocks start total seg → seg.count < blocks
  longest : best.count ≠ 0 → FreeRun bits volblocks start total best
  covered : EndCovered bits volblocks start total ↔
    ∀ seg, FreeRun bits volblocks start total seg → seg.count ≤ best.count

theorem Scan.Left.searchEnd_eq (h : s.Left volblocks start total 0) (htotal : 0 < total) :
    searchEnd volblocks start total = s.pos := by
  unfold searchEnd
  unfold Scan.Left at h
  cases hwrapped : s.wrapped with
  | true =>
      rw [hwrapped, if_pos rfl] at h
      rw [if_neg (by omega)]
      exact h.1.symm
  | false =>
      rw [hwrapped, if_neg Bool.false_ne_true] at h
      rw [if_pos (by omega)]
      exact h.1.symm

/-- At the end of a search all of the sequence was passed. -/
theorem Scan.Left.passed_iff (h : s.Left volblocks start total 0) (htotal : 0 < total)
    (hcount : 0 < seg.count) :
    s.Passed volblocks start seg ↔ Searched volblocks start total seg := by
  unfold Scan.Passed Searched
  unfold Scan.Left at h
  cases hwrapped : s.wrapped with
  | true =>
      rw [hwrapped, if_pos rfl] at h
      obtain ⟨hpos, hout⟩ := h
      rw [if_pos rfl, Nat.min_eq_right (Nat.le_of_lt hout), ← hpos, Nat.add_zero]
      simp only [true_and]
  | false =>
      rw [hwrapped, if_neg Bool.false_ne_true] at h
      rw [if_neg Bool.false_ne_true, Nat.min_eq_left (by omega), ← h.1]
      have hnone : wrappedEnd volblocks start total = 0 := by
        unfold wrappedEnd
        split <;> omega
      rw [hnone]
      simp only [Bool.false_eq_true, false_and, or_false, Nat.add_zero]
      exact (or_iff_left (by omega)).symm

/-- The run that the end of the sequence cuts off. -/
theorem Scan.Sees.endRun (h : s.Sees bits volblocks blocks start)
    (hleft : s.Left volblocks start total 0) (htotal : 0 < total) (hrun : 0 < s.run) :
    FreeRun bits volblocks start total ⟨s.pos - s.run, s.run⟩ := by
  have hend : s.pos - s.run + s.run = s.pos := Nat.sub_add_cancel h.run_le
  refine ⟨hrun, ?_, (hleft.passed_iff htotal hrun).mp ?_⟩
  · show AllBits bits (s.pos - s.run) (s.pos - s.run + s.run) false
    rw [hend]
    exact h.run_free
  · unfold Scan.Passed
    dsimp only
    rw [hend]
    cases hwrapped : s.wrapped with
    | true => exact .inr ⟨rfl, Nat.le_refl _⟩
    | false =>
        have hpassed := h.run_passed hwrapped
        exact .inl ⟨Nat.le_sub_of_add_le hpassed, Nat.le_refl _⟩

theorem Scan.Sees.searchedAll (h : s.Sees bits volblocks blocks start)
    (hleft : s.Left volblocks start total 0) (htotal : 0 < total) (hle : total ≤ volblocks) :
    SearchedAll bits volblocks start total blocks s.best := by
  have hrunlt := h.run_lt
  have hrunle := h.run_le
  have hend := hleft.searchEnd_eq htotal
  have hothers : ∀ seg, FreeRun bits volblocks start total seg → seg.count ≤ s.best.count ∨
      s.pos - s.run ≤ seg.block ∧ seg.block + seg.count ≤ s.pos := fun seg hseg =>
    h.others seg hseg.pos hseg.free ((hleft.passed_iff htotal hseg.pos).mpr hseg.searched)
  have hbest : s.best.count ≠ 0 → FreeRun bits volblocks start total s.best ∧
      s.best.count < blocks ∧ s.best.block + s.best.count ≠ s.pos := by
    intro hne
    obtain ⟨hfree, hlt, hpass, hbefore⟩ := h.best.resolve_left hne
    have hpos := Nat.pos_of_ne_zero hne
    refine ⟨⟨hpos, hfree, (hleft.passed_iff htotal hpos).mp hpass⟩, hlt, ?_⟩
    rcases hbefore with ⟨hwrapped, hge⟩ | hlt
    · -- a run of the first lap is behind `start`, and the scan is not
      unfold Scan.Left at hleft
      rw [hwrapped, if_pos rfl] at hleft
      have hstart := @wrappedEnd_le volblocks start total hle
      omega
    · exact Nat.ne_of_lt hlt
  have hshort : s.best.count < blocks := by
    by_cases hzero : s.best.count = 0
    · omega
    · exact (hbest hzero).2.1
  refine ⟨fun seg hseg => ?_, fun hne => (hbest hne).1, fun hcovered seg hseg => ?_,
    fun hall seg hseg hlast => ?_⟩
  · rcases hothers seg hseg with hcount | ⟨hfrom, hto⟩
    · exact Nat.lt_of_le_of_lt hcount hshort
    · omega
  · rcases hothers seg hseg with hcount | ⟨hfrom, hto⟩
    · exact hcount
    -- the run at the end is covered by one that ended
    have hpos := hseg.pos
    have hrun : 0 < s.run := by omega
    obtain ⟨other, hother, hlonger, hne⟩ := hcovered _ (h.endRun hleft htotal hrun)
      (by rw [hend]; exact Nat.sub_add_cancel hrunle)
    rw [hend] at hne
    have hlonger' : s.run ≤ other.count := hlonger
    rcases hothers other hother with hcount | ⟨hfrom', hto'⟩ <;> omega
  · have hcount := hall seg hseg
    have hpos := hseg.pos
    obtain ⟨hrun, -, hne⟩ := hbest (by omega)
    rw [hend]
    exact ⟨s.best, hrun, hcount, hne⟩

theorem not_freeRun_zero : ¬FreeRun bits volblocks start 0 seg := by
  rintro ⟨hpos, -, hsearched⟩
  unfold Searched wrappedEnd at hsearched
  rcases hsearched with ⟨hge, hle⟩ | hle
  · have hmin := Nat.min_le_left (start + 0) volblocks
    omega
  · split at hle <;> omega

/-- What a search comes to, from `start` on. -/
theorem firstFit_searched (hblocks : 0 < blocks) (htotal : total ≤ volblocks) :
    match firstFit bits volblocks blocks unreadable total ⟨false, start, 0, ⟨0, 0⟩⟩ with
    | .unreadable => True
    | .found seg => FreeRun bits volblocks start total seg ∧ seg.count = blocks
    | .missing best => SearchedAll bits volblocks start total blocks best := by
  have hleft : Scan.Left volblocks start total ⟨false, start, 0, ⟨0, 0⟩⟩ total :=
    ⟨rfl, Nat.le_refl _, .inr rfl⟩
  have hsees := @firstFit_sees bits volblocks blocks start total unreadable _ total
    (Scan.sees_start hblocks) hleft htotal
  by_cases hzero : total = 0
  · subst hzero
    exact ⟨fun seg hseg => absurd hseg not_freeRun_zero, fun hne => absurd rfl hne,
      fun _ seg hseg => absurd hseg not_freeRun_zero,
      fun _ seg hseg _ => absurd hseg not_freeRun_zero⟩
  · generalize firstFit bits volblocks blocks unreadable total ⟨false, start, 0, ⟨0, 0⟩⟩ = fit
      at hsees
    cases fit with
    | unreadable => trivial
    | found seg => exact hsees
    | missing best =>
        obtain ⟨t, rfl, ht, htleft⟩ := hsees
        exact ht.searchedAll htleft (Nat.pos_of_ne_zero hzero) htotal

theorem firstFit_ne_unreadable (hread : ∀ wrapped b, unreadable wrapped b = false) :
    firstFit bits volblocks blocks unreadable len s ≠ .unreadable := by
  induction len generalizing s with
  | zero => exact fun heq => Fit.noConfusion heq
  | succ len ih =>
      unfold firstFit
      dsimp only
      rw [hread, if_neg Bool.false_ne_true]
      split
      · exact ih
      · split
        · exact fun heq => Fit.noConfusion heq
        · exact ih

end Seen

/-! ## The errors of a call -/

section Errors

variable {sb : BitmapSb} {io : BitmapIo} {r : BitmapSb × Int}

/-- `blockdirty` fails for want of memory, and not for want of space. -/
def BitmapIo.NotSpace (io : BitmapIo) : Prop := ∀ mapblock, io.dirtyErr mapblock ≠ -enospc

theorem zero_ne_enospc : (0 : Int) ≠ -enospc := by decide

theorem eio_ne_enospc : -eio ≠ -enospc := by decide

variable {P : Int → Prop}

theorem bitmapModifyBits_err {mapblock offset blocks : Nat} {set : Bool} (h0 : P 0)
    (hdirty : ∀ m, P (io.dirtyErr m))
    (h : bitmapModifyBits sb io mapblock offset blocks set = .ok r) : P r.2 := by
  unfold bitmapModifyBits at h
  obtain ⟨-, h⟩ := tuxAssert_bind_eq_ok h
  obtain ⟨-, h⟩ := tuxAssert_bind_eq_ok h
  split at h
  · obtain ⟨-, h⟩ := tuxAssert_bind_eq_ok h
    cases h
    exact hdirty mapblock
  · cases h
    exact h0

theorem bitmapModifyBlocks_err {test set : Bool} {n mapblock mapoffset blocks : Nat} (h0 : P 0)
    (heio : P (-eio)) (hdirty : ∀ m, P (io.dirtyErr m))
    (h : bitmapModifyBlocks test io set n sb mapblock mapoffset blocks = .ok r) : P r.2 := by
  induction n generalizing sb mapblock mapoffset blocks with
  | zero =>
      cases h
      exact h0
  | succ n ih =>
      unfold bitmapModifyBlocks at h
      split at h
      · cases h
        exact heio
      · dsimp only at h
        split at h
        · cases h
          exact heio
        · obtain ⟨⟨sb', err⟩, hbits, h⟩ := Outcome.bind_eq_ok.mp h
          dsimp only at h
          split at h
          · cases h
            exact bitmapModifyBits_err h0 hdirty hbits
          · exact ih h

theorem bitmapModify_err {start blocks : Nat} {set : Bool} (h0 : P 0) (heio : P (-eio))
    (hdirty : ∀ m, P (io.dirtyErr m)) (h : bitmapModify sb io start blocks set = .ok r) :
    P r.2 := by
  unfold bitmapModify bitmapModifyRange at h
  obtain ⟨-, h⟩ := tuxAssert_bind_eq_ok h
  obtain ⟨-, h⟩ := tuxAssert_bind_eq_ok h
  exact bitmapModifyBlocks_err h0 heio hdirty h

theorem foundRange_err {found mapblock blocks : Nat} (h0 : P 0) (heio : P (-eio))
    (hdirty : ∀ m, P (io.dirtyErr m)) (h : foundRange sb io found mapblock blocks = .ok r) :
    P r.2 := by
  unfold foundRange at h
  split at h
  · exact bitmapModifyBits_err h0 hdirty h
  · exact bitmapModify_err h0 heio hdirty h

theorem ballocFound_err {sb' : BitmapSb} {err : Int} {seg : BlockSegment} {found blocks : Nat}
    (h0 : P 0) (herr : P err) : P (ballocFound sb' err seg found blocks).2.1 := by
  unfold ballocFound
  split
  · exact herr
  · exact h0

/-- The errors that a call can return. -/
theorem ballocFromRange_errs {start len blocks : Nat} {orPart : Bool}
    {res : BitmapSb × Int × BlockSegment} (h0 : P 0) (heio : P (-eio)) (hspace : P (-enospc))
    (hdirty : ∀ m, P (io.dirtyErr m))
    (h : ballocFromRange sb io start len blocks orPart = .ok res) : P res.2.1 := by
  unfold ballocFromRange at h
  obtain ⟨-, h⟩ := tuxAssert_bind_eq_ok h
  obtain ⟨-, h⟩ := tuxAssert_bind_eq_ok h
  obtain ⟨search, -, h⟩ := Outcome.bind_eq_ok.mp h
  cases search with
  | readFailed seg =>
      cases h
      exact heio
  | found block mapblock seg =>
      obtain ⟨⟨sb', err⟩, hrange, h⟩ := Outcome.bind_eq_ok.mp h
      cases h
      exact ballocFound_err h0 (foundRange_err h0 heio hdirty hrange)
  | searched seg =>
      dsimp only at h
      split at h
      · obtain ⟨⟨sb', err⟩, hmodify, h⟩ := Outcome.bind_eq_ok.mp h
        cases h
        exact ballocFound_err h0 (bitmapModify_err h0 heio hdirty hmodify)
      · cases h
        exact hspace

/-- The error that a call returns, after what its search came to. -/
theorem ballocFromRange_err {start len blocks : Nat} {orPart : Bool}
    {res : BitmapSb × Int × BlockSegment} (hio : io.NotSpace) (hblocks : 0 < blocks)
    (hvol : 0 < sb.volblocks)
    (h : ballocFromRange sb io start len blocks orPart = .ok res) :
    match firstFit sb.bits sb.volblocks blocks (sb.unreadable io) len
      ⟨false, start, 0, ⟨0, 0⟩⟩ with
    | .unreadable => res.2.1 = -eio
    | .found _ => res.2.1 ≠ -enospc
    | .missing best => if (orPart && best.count != 0) = true then res.2.1 ≠ -enospc
        else res.2.1 = -enospc := by
  obtain ⟨search, hsearch, hfits⟩ := @searchRange_firstFit sb io blocks (len + 1) false start
    len blocks ⟨0, 0⟩ hblocks (Nat.le_refl _) (by omega) (Nat.lt_succ_self _) hvol (.inr rfl)
  rw [Nat.sub_self] at hfits
  unfold ballocFromRange at h
  obtain ⟨-, h⟩ := tuxAssert_bind_eq_ok h
  obtain ⟨-, h⟩ := tuxAssert_bind_eq_ok h
  obtain ⟨found, hfound, h⟩ := Outcome.bind_eq_ok.mp h
  obtain rfl := Except.ok.inj (hsearch.symm.trans hfound)
  generalize firstFit sb.bits sb.volblocks blocks (sb.unreadable io) len
    ⟨false, start, 0, ⟨0, 0⟩⟩ = fit at hfits ⊢
  cases search with
  | readFailed seg =>
      obtain rfl : fit = .unreadable := hfits
      cases h
      rfl
  | found block mapblock seg =>
      obtain ⟨rfl, -⟩ : fit = .found ⟨block, blocks⟩ ∧ _ := hfits
      obtain ⟨⟨sb', err⟩, hrange, h⟩ := Outcome.bind_eq_ok.mp h
      cases h
      have herr := @foundRange_err sb io _ (· ≠ -enospc) _ _ _ zero_ne_enospc eio_ne_enospc hio hrange
      exact @ballocFound_err (· ≠ -enospc) _ _ _ _ _ zero_ne_enospc herr
  | searched seg =>
      obtain rfl : fit = .missing seg := hfits
      dsimp only at h ⊢
      split at h
      · rename_i hpart
        rw [if_pos hpart]
        obtain ⟨⟨sb', err⟩, hmodify, h⟩ := Outcome.bind_eq_ok.mp h
        cases h
        have herr := @bitmapModify_err sb io _ (· ≠ -enospc) _ _ _ zero_ne_enospc eio_ne_enospc hio
          hmodify
        exact @ballocFound_err (· ≠ -enospc) _ _ _ _ _ zero_ne_enospc herr
      · rename_i hpart
        rw [if_neg hpart]
        cases h
        rfl

end Errors

/-! ## `balloc_from_range` -/

section Range

variable {sb : BitmapSb} {io : BitmapIo} {start len blocks : Nat} {orPart : Bool}
  {r : BitmapSb × Int × BlockSegment}

/-- A call that fails for another reason. -/
theorem RangeAllocated.of_failed (hok : r.2.1 ≠ 0) (hspace : r.2.1 ≠ -enospc) :
    RangeAllocated sb start len blocks orPart r :=
  ⟨fun h => absurd h hok, fun h => absurd h hok, fun h => absurd h hok,
    fun h => absurd h hspace, fun h => absurd h hspace⟩

/-- A call that found the requested run. -/
theorem RangeAllocated.of_found {seg : BlockSegment}
    (hseg : FreeRun sb.bits sb.volblocks start len seg) (hcount : seg.count = blocks)
    (hok : r.2.1 = 0 → r.2.2 = seg) (hspace : r.2.1 ≠ -enospc) :
    RangeAllocated sb start len blocks orPart r := by
  refine ⟨fun h => ?_, fun h _ => ?_, fun h _ => .inl ?_, fun h => absurd h hspace,
    fun h => absurd h hspace⟩
  · rw [hok h]
    exact hseg
  · rw [hok h, hcount]
  · rw [hok h, hcount]

/-- A call that searched all of the sequence. -/
theorem RangeAllocated.of_searched {best : BlockSegment}
    (h : SearchedAll sb.bits sb.volblocks start len blocks best)
    (hcovered : orPart = true → EndCovered sb.bits sb.volblocks start len)
    (hok : r.2.1 = 0 → (orPart && best.count != 0) = true ∧ r.2.2 = best)
    (hspace : r.2.1 = -enospc → (orPart && best.count != 0) = false) :
    RangeAllocated sb start len blocks orPart r := by
  have hpart : (orPart && best.count != 0) = true → orPart = true ∧ best.count ≠ 0 := by
    intro hand
    rwa [Bool.and_eq_true, bne_iff_ne] at hand
  refine ⟨fun h0 => ?_, fun h0 hfull => ?_, fun h0 hor => .inr ⟨?_, ?_⟩, fun hno _ => ?_,
    fun hno hor seg hseg => ?_⟩
  · obtain ⟨hand, heq⟩ := hok h0
    rw [heq]
    exact h.longest (hpart hand).2
  · have hor := (hpart (hok h0).1).1
    rw [hfull] at hor
    cases hor
  · obtain ⟨hand, heq⟩ := hok h0
    rw [heq]
    exact h.short best (h.longest (hpart hand).2)
  · rw [(hok h0).2]
    exact h.covered.mp (hcovered hor)
  · rintro ⟨seg, hseg, hcount⟩
    exact Nat.ne_of_lt (h.short seg hseg) hcount
  · have hnone := hspace hno
    rw [hor, Bool.true_and, bne_eq_false_iff_eq] at hnone
    have hcount := h.covered.mp (hcovered hor) seg hseg
    have hpos := hseg.pos
    omega

theorem ballocFromRange_empty (hblocks : 0 < blocks) :
    ballocFromRange sb io start 0 blocks orPart = .ok (sb, -enospc, ⟨0, 0⟩) := by
  unfold ballocFromRange searchRange
  rw [tuxAssert_of hblocks, tuxAssert_of (Nat.zero_le _)]
  show (if (orPart && (0 : Nat) != 0) = true then _ else _) = _
  rw [if_neg]
  · rfl
  · rw [bne_self_eq_false, Bool.and_false]
    exact Bool.false_ne_true

/-- A call returns what it has to, unless the end of the sequence cuts off the longest run. -/
theorem ballocFromRange_allocated (hio : io.NotSpace) (hblocks : 0 < blocks)
    (hlen : len ≤ sb.volblocks)
    (hcond : orPart = true → HasFullRun sb.bits sb.volblocks start len blocks ∨
      EndCovered sb.bits sb.volblocks start len) :
    ∃ r, ballocFromRange sb io start len blocks orPart = .ok r ∧
      RangeAllocated sb start len blocks orPart r := by
  by_cases hzero : len = 0
  · subst hzero
    have hne : -enospc ≠ 0 := by decide
    refine ⟨_, ballocFromRange_empty hblocks, fun h0 => absurd h0 hne, fun h0 => absurd h0 hne,
      fun h0 => absurd h0 hne, fun _ _ => ?_, fun _ _ seg => not_freeRun_zero⟩
    rintro ⟨seg, hseg, -⟩
    exact not_freeRun_zero hseg
  have hvol : 0 < sb.volblocks := Nat.lt_of_lt_of_le (Nat.pos_of_ne_zero hzero) hlen
  obtain ⟨r, hr, hres⟩ := @ballocFromRange_result sb io start len blocks orPart hblocks hlen hvol
  have herr := ballocFromRange_err hio hblocks hvol hr
  have hsearched := @firstFit_searched sb.bits sb.volblocks blocks start len
    (sb.unreadable io) hblocks hlen
  refine ⟨r, hr, ?_⟩
  unfold BallocCall.firstFitSeg at hres
  generalize firstFit sb.bits sb.volblocks blocks (sb.unreadable io) len
    ⟨false, start, 0, ⟨0, 0⟩⟩ = fit at hres herr hsearched
  cases fit with
  | unreadable =>
      have herr' : r.2.1 = -eio := herr
      refine .of_failed ?_ ?_
      · rw [herr']
        decide
      · rw [herr']
        decide
  | found seg => exact .of_found hsearched.1 hsearched.2 hres.2.2.1 herr
  | missing best =>
      have hall : SearchedAll sb.bits sb.volblocks start len blocks best := hsearched
      have hcovered : orPart = true → EndCovered sb.bits sb.volblocks start len := by
        intro hor
        refine (hcond hor).resolve_left ?_
        rintro ⟨seg, hseg, hcount⟩
        exact Nat.ne_of_lt (hall.short seg hseg) hcount
      dsimp only at hres herr
      by_cases hpart : (orPart && best.count != 0) = true
      · rw [if_pos hpart] at hres herr
        exact .of_searched hall hcovered (fun h0 => ⟨hpart, hres.2.2.1 h0⟩)
          fun hno => absurd hno herr
      · rw [if_neg hpart] at hres herr
        exact .of_searched hall hcovered (fun h0 => absurd h0 hres.2)
          fun _ => Bool.not_eq_true _ ▸ hpart

/-- `balloc_from_range` on a bitmap, a range and a number of blocks returns what it has to,
whatever the buffers of the bitmap do, if and only if it is not in partial mode, or there is a run
of the requested length, or the end of the range does not cut off the longest run. -/
theorem ballocFromRange_iff (sb : BitmapSb) (start len blocks : Nat) (orPart : Bool)
    (hblocks : 0 < blocks) (hlen : len ≤ sb.volblocks) :
    (∀ io : BitmapIo, io.NotSpace →
      ∃ r, ballocFromRange sb io start len blocks orPart = .ok r ∧
        RangeAllocated sb start len blocks orPart r) ↔
    (orPart = true → HasFullRun sb.bits sb.volblocks start len blocks ∨
      EndCovered sb.bits sb.volblocks start len) := by
  constructor
  · rintro hall rfl
    by_cases hzero : len = 0
    · subst hzero
      exact .inr fun seg hseg => absurd hseg not_freeRun_zero
    have hvol : 0 < sb.volblocks := Nat.lt_of_lt_of_le (Nat.pos_of_ne_zero hzero) hlen
    have hnot : ioOk.NotSpace := fun _ => zero_ne_enospc
    obtain ⟨r, hr, hallocated⟩ := hall ioOk hnot
    obtain ⟨r', hr', hres⟩ :=
      @ballocFromRange_result sb ioOk start len blocks true hblocks hlen hvol
    obtain rfl := Except.ok.inj (hr.symm.trans hr')
    have herr := ballocFromRange_err hnot hblocks hvol hr
    have hsearched := @firstFit_searched sb.bits sb.volblocks blocks start len
      (sb.unreadable ioOk) hblocks hlen
    have hread : firstFit sb.bits sb.volblocks blocks (sb.unreadable ioOk) len
        ⟨false, start, 0, ⟨0, 0⟩⟩ ≠ .unreadable := firstFit_ne_unreadable fun _ _ => rfl
    unfold BallocCall.firstFitSeg at hres
    generalize firstFit sb.bits sb.volblocks blocks (sb.unreadable ioOk) len
      ⟨false, start, 0, ⟨0, 0⟩⟩ = fit at hres herr hsearched hread
    cases fit with
    | unreadable => exact absurd rfl hread
    | found seg => exact .inl ⟨seg, hsearched⟩
    | missing best =>
        have hseen : SearchedAll sb.bits sb.volblocks start len blocks best := hsearched
        refine .inr (hseen.covered.mpr fun seg hseg => ?_)
        dsimp only at hres herr
        by_cases hzero : best.count = 0
        · have hpart : ¬(true && best.count != 0) = true := by
            rw [hzero]
            decide
          rw [if_neg hpart] at herr
          exact absurd hseg (hallocated.noBlock herr rfl seg)
        · have hpart : (true && best.count != 0) = true := by
            rw [Bool.true_and, bne_iff_ne]
            exact hzero
          rw [if_pos hpart] at hres
          obtain ⟨-, -, hok, mid, hchanged⟩ := hres
          have h0 : r.2.1 = 0 := by
            by_contra hne
            obtain ⟨m, -, hio | ⟨htest, -⟩⟩ := hchanged.fails_of_err hne
            · exact not_ioFails_ioOk m hio
            · cases htest
          rcases hallocated.longest h0 rfl with hfull | ⟨-, hlongest⟩
          · rw [hok h0] at hfull
            exact absurd hfull (Nat.ne_of_lt (hseen.short best (hseen.longest hzero)))
          · rw [hok h0] at hlongest
            exact hlongest seg hseg
  · exact fun hcond io hio => ballocFromRange_allocated hio hblocks hlen hcond

end Range

/-- A volume of 16 blocks of which the last two are free. -/
def twoFree : BitmapSb where
  blockbits := 6
  volblocks := 16
  bits b := decide (b < 14)
  freeblocks := 2
  nextblock := 0

/-- A search that starts between the two free blocks comes to both ends. -/
theorem ballocFromRange_iff_twoFree :
    ∃ r, ballocFromRange twoFree ioOk 15 16 4 true = .ok r ∧
      RangeAllocated twoFree 15 16 4 true r := by
  have hcovered : EndCovered twoFree.bits twoFree.volblocks 15 16 := by
    intro seg hseg hend
    have hend' : seg.block + seg.count = 15 := hend
    refine ⟨⟨15, 1⟩, ⟨by decide, fun b hge hlt => ?_, .inl ⟨by decide, by decide⟩⟩, ?_, by decide⟩
    · show decide (b < 14) = false
      have hge' : 15 ≤ b := hge
      exact decide_eq_false (by omega)
    · show seg.count ≤ 1
      by_contra hlong
      have htaken := hseg.free 13 (by omega) (by omega)
      cases htaken
  exact (ballocFromRange_iff twoFree 15 16 4 true (by decide) (by decide)).mpr
    (fun _ => .inr hcovered) ioOk fun _ => zero_ne_enospc

/-- A partial allocation from block 0 on reports that there is no space, with two blocks free. -/
theorem ballocFromRange_lastRun :
    ∃ r, ballocFromRange twoFree ioOk 0 16 4 true = .ok r ∧ r.2.1 = -enospc ∧
      ¬RangeAllocated twoFree 0 16 4 true r := by
  have hrun : ballocFromRange twoFree ioOk 0 16 4 true = .ok (twoFree, -enospc, ⟨0, 0⟩) := rfl
  refine ⟨_, hrun, rfl, fun hallocated => ?_⟩
  refine hallocated.noBlock rfl rfl ⟨14, 2⟩ ⟨by decide, fun b hge hlt => ?_, .inl (by decide)⟩
  show decide (b < 14) = false
  have hge' : 14 ≤ b := hge
  exact decide_eq_false (by omega)

end Tux3
