/-
  Dir/Readdir.lean --- listings that are continued after changes of the directory.

  `tux_readdir` means to go from the start of the block to the first record that is not before
  `f_pos` where the directory has changed; but it masks the offset with the mask of offsets, so that
  the walk starts at the offset itself and never moves.  A listing is right as long as there still
  is a record at `f_pos`.
-/
import Tux3.Dir.Run
import Tux3.Lib.Outcome

set_option autoImplicit false

namespace Tux3.Dir

open Tiling

/-! ## Revalidation -/

/-- The loop of the revalidation, from `p` on to the first record that is not before `entry`. -/
def revalidateLoop (data : DirBlock) (entry : Nat) : Nat → Nat → Except TuxError Nat
  | 0, _ => .error .fuel
  | fuel + 1, p =>
      if p < entry ∧ (data p).recLen ≠ 0 then revalidateLoop data entry fuel (p + (data p).len)
      else .ok p

/-- `f_pos` after the revalidation: `p` begins at `offset & sb->blockmask`. -/
def resumePos (dir : TuxDir) (revalidate : Bool) (pos : Nat) : Except TuxError Nat :=
  let block := pos / dir.blocksize
  let offset := pos % dir.blocksize
  if revalidate = true ∧ offset ≠ 0 then do
    let p ← revalidateLoop (dir.data block) offset (offset + 1) (offset % dir.blocksize)
    return block * dir.blocksize + p
  else return pos

/-- `tux_readdir` on a file; `revalidate` is whether its version is another one. -/
def tuxReaddirFile (dir : TuxDir) (io : DirIo) (revalidate : Bool) (pos room : Nat) :
    Except TuxError (List DirReport × Nat × Int) := do
  tuxAssert (dir.size % dir.blocksize = 0)
  let block := pos / dir.blocksize
  if dir.blocks ≤ block then return ([], pos, 0)
  else if io.readFails block then return ([], pos, -eio)
  else
    let pos ← resumePos dir revalidate pos
    readdirBlocks dir io (dir.blocks - block) block (pos - block * dir.blocksize) pos room

/-! ## Listings in several calls -/

/-- There is a record at a position, or it is the end of the directory. -/
def AtRecord (dir : TuxDir) (pos : Nat) : Prop :=
  dir.size ≤ pos ∨ ∃ offs, BlockTiled (dir.data (pos / dir.blocksize)) dir.blocksize offs ∧
    pos % dir.blocksize ∈ offs

/-- A listing of a directory: `f_pos`, what was reported, and which of the entries have been there
from its beginning on. -/
structure Iteration where
  s : DirState
  pos : Nat
  reports : List DirReport
  lasting : List DirReport

/-- `f_pos` is at the end, at the start of a block, or at an entry: the entry where the listing
stopped was not deleted, or there is another one in its place. -/
def Iteration.Kept (it : Iteration) : Prop :=
  it.s.dir.size ≤ it.pos ∨ it.pos % it.s.dir.blocksize = 0 ∨
    ∃ entry ∈ it.s.live, entry.pos = it.pos

/-- What may happen while a directory is listed: entries come and go, and the listing goes on where
`goesOn` holds. -/
inductive IterationStep (goesOn : Iteration → Prop) (it : Iteration) : Iteration → Prop where
  | change {io : DirIo} {call : DirCall} {s' : DirState} (hvalid : call.Valid it.s)
      (hfits : call.Fits it.s) (hexec : call.exec it.s io = .ok s') :
      IterationStep goesOn it
        { it with s := s', lasting := it.lasting.filter (· ∈ s'.live) }
  | readdir {io : DirIo} {revalidate : Bool} {room pos : Nat} {reports : List DirReport} {err : Int}
      (hgoes : goesOn it)
      (hcall : tuxReaddirFile it.s.dir io revalidate it.pos room = .ok (reports, pos, err)) :
      IterationStep goesOn it { it with pos := pos, reports := it.reports ++ reports }

/-- The listings of a directory. -/
def iterationSystem (goesOn : Iteration → Prop) : System Iteration where
  init it := dirSystem.Reachable it.s ∧ it.pos = 0 ∧ it.reports = [] ∧ it.lasting = it.s.live
  next := IterationStep goesOn

/-- A call resumes at a record of the blocks as they are, and reports only entries that are
there. -/
structure ContinuesRight (s : DirState) (io : DirIo) (revalidate : Bool) (pos room : Nat) :
    Prop where
  resumes : ∃ start, resumePos s.dir revalidate pos = .ok start ∧ AtRecord s.dir start
  reports : ∃ reports pos' err,
    tuxReaddirFile s.dir io revalidate pos room = .ok (reports, pos', err) ∧ reports ⊆ s.live

section

variable {dir : TuxDir} {layout : Nat → List Nat} {s : DirState} {it it' : Iteration} {io : DirIo}
  {pos room : Nat} {revalidate : Bool}

/-! ## The walk does not move -/

theorem resumePos_eq (dir : TuxDir) (revalidate : Bool) (pos : Nat) :
    resumePos dir revalidate pos = .ok pos := by
  unfold resumePos
  dsimp only
  split
  · unfold revalidateLoop
    rw [Nat.mod_mod, if_neg (fun h => Nat.lt_irrefl _ h.1)]
    show Except.ok _ = _
    rw [Nat.div_add_mod']
  · rfl

theorem tuxReaddirFile_eq (dir : TuxDir) (io : DirIo) (revalidate : Bool) (pos room : Nat) :
    tuxReaddirFile dir io revalidate pos room = tuxReaddir dir io pos room := by
  unfold tuxReaddirFile tuxReaddir
  congr 1
  funext _
  dsimp only
  split
  · rename_i hle
    rw [Nat.sub_eq_zero_of_le hle]
    rfl
  · rename_i hlt
    obtain ⟨n, hn⟩ := Nat.exists_eq_succ_of_ne_zero
      (Nat.sub_ne_zero_of_lt (Nat.not_le.mp hlt))
    split
    · rename_i hio
      rw [hn]
      unfold readdirBlocks
      rw [if_pos hio]
    · rw [resumePos_eq]
      show readdirBlocks dir io _ _ _ pos room = _
      congr 1
      have hdiv := Nat.div_add_mod' pos dir.blocksize
      omega

/-! ## Records and entries -/

/-- The records of a block are those of any tiling of it. -/
theorem DirTiled.offs_eq {block : Nat} {offs : List Nat} (h : DirTiled dir layout)
    (hb : block < dir.blocks) (ht : BlockTiled (dir.data block) dir.blocksize offs) :
    layout block = offs := (h.tiled block hb).tiles.unique ht.tiles

theorem DirTiled.size_le_iff (h : DirTiled dir layout) :
    dir.size ≤ pos ↔ dir.blocks ≤ pos / dir.blocksize := by
  rw [Nat.le_div_iff_mul_le dir.blocksize_pos, h.size_eq]

/-- A listing that resumes at a record stands somewhere in the whole listing. -/
theorem AtRecord.stands (h : AtRecord dir pos) (ht : DirTiled dir layout) (hlt : pos < dir.size) :
    ∃ all, Stands dir layout pos all := by
  rcases h with hend | ⟨offs, hblock, ho⟩
  · omega
  · have hb : pos / dir.blocksize < dir.blocks :=
      Nat.lt_of_not_le fun hle => absurd (ht.size_le_iff.mpr hle) (Nat.not_le.mpr hlt)
    obtain rfl := ht.offs_eq hb hblock
    obtain ⟨front, back, hoffs⟩ := List.append_of_mem ho
    have htiles := hblock.tiles
    rw [hoffs] at htiles
    have hrecord := @Stands.record dir layout _ (pos % dir.blocksize) back hb
      (hoffs ▸ List.suffix_append front _) ⟨rfl, (tiles_append_cons.1 htiles).2⟩
    rw [Nat.div_add_mod'] at hrecord
    exact ⟨_, hrecord⟩

/-- The blocks before, the block and the blocks after it. -/
theorem listing_split {block : Nat} (hb : block < dir.blocks) : listing dir layout =
    listingFrom dir layout 0 block ++ (blockReports (dir.data block) dir.blocksize block
      (layout block) ++ listingFrom dir layout (block + 1) (dir.blocks - (block + 1))) := by
  have hsplit : List.range' 0 dir.blocks = List.range' 0 block ++
      List.range' block (dir.blocks - (block + 1) + 1) := by
    have happend := @List.range'_append_1 0 block (dir.blocks - (block + 1) + 1)
    rw [Nat.zero_add] at happend
    rw [happend]
    congr 1
    omega
  rw [← listingFrom_succ]
  unfold listing listingFrom
  rw [hsplit, List.flatMap_append]

/-- What is left is an end of the whole listing. -/
theorem Stands.sublist {all : List DirReport} (hst : Stands dir layout pos all) :
    all.Sublist (listing dir layout) := by
  cases hst with
  | stop => exact List.nil_sublist _
  | record hb hos _ =>
      obtain ⟨front, hfront⟩ := hos
      rw [listing_split hb, ← hfront, blockReports_append]
      exact ((List.sublist_append_right _ _).append_right _).trans (List.sublist_append_right _ _)

/-- Nothing that is left is before `f_pos`. -/
theorem Stands.le {all : List DirReport} {entry : DirReport} (hst : Stands dir layout pos all)
    (ht : DirTiled dir layout) (hmem : entry ∈ all) : pos ≤ entry.pos := by
  cases hst with
  | stop => exact absurd hmem List.not_mem_nil
  | @record block o os hb hos htiles =>
      rcases List.mem_append.mp hmem with hblock | hrest
      · obtain ⟨o', ho', -, rfl⟩ := mem_blockReports.mp hblock
        exact Nat.add_le_add_left (htiles.mem ho').1 _
      · unfold listingFrom at hrest
        obtain ⟨b, hrange, hin⟩ := List.mem_flatMap.mp hrest
        obtain ⟨o', -, -, rfl⟩ := mem_blockReports.mp hin
        have hlt := (ht.tiled block hb).lt_blocksize (hos.subset List.mem_cons_self)
        have hle := Nat.mul_le_mul_right dir.blocksize (List.mem_range'_1.mp hrange).1
        rw [Nat.succ_mul] at hle
        show _ ≤ b * dir.blocksize + o'
        omega

/-- What is left are the entries from `f_pos` on. -/
theorem Stands.mem_iff {all : List DirReport} {entry : DirReport}
    (hst : Stands dir layout pos all) (ht : DirTiled dir layout)
    (hmem : entry ∈ listing dir layout) : entry ∈ all ↔ pos ≤ entry.pos := by
  refine ⟨hst.le ht, fun hle => ?_⟩
  obtain ⟨b, hb, o', ho', hlive, rfl⟩ := mem_listing.mp hmem
  have hlt' := (ht.tiled b hb).lt_blocksize ho'
  have hpos : (report (dir.data b) dir.blocksize b o').pos = b * dir.blocksize + o' := rfl
  rw [hpos] at hle
  cases hst with
  | stop =>
      have hmul := Nat.mul_le_mul_right dir.blocksize (Nat.succ_le_of_lt hb)
      rw [Nat.succ_mul] at hmul
      omega
  | @record block o os hblock hos _ =>
      rcases Nat.lt_trichotomy b block with hbefore | rfl | hafter
      · have hmul := Nat.mul_le_mul_right dir.blocksize (Nat.succ_le_of_lt hbefore)
        rw [Nat.succ_mul] at hmul
        omega
      · obtain ⟨front, hfront⟩ := hos
        have htiles := (ht.tiled b hb).tiles
        rw [← hfront] at ho' htiles
        refine List.mem_append_left _ (mem_blockReports.mpr ⟨o', ?_, hlive, rfl⟩)
        rcases List.mem_append.mp ho' with hin | hin
        · have hwithin := (tiles_append_cons.1 htiles).1.mem hin
          omega
        · exact hin
      · refine List.mem_append_right _ (List.mem_flatMap.mpr ⟨b, List.mem_range'_1.mpr ?_, ?_⟩)
        · omega
        · exact mem_blockReports.mpr ⟨o', ho', hlive, rfl⟩

/-! ## Where a listing may go on -/

/-- `f_pos` is at a record exactly if it is at the end, at the start of a block or at an entry. -/
theorem DirInv.atRecord_iff (h : DirInv it.s) : AtRecord it.s.dir it.pos ↔ it.Kept := by
  obtain ⟨layout, ht, hperm, -⟩ := h
  unfold AtRecord Iteration.Kept
  by_cases hend : it.s.dir.size ≤ it.pos
  · exact ⟨fun _ => .inl hend, fun _ => .inl hend⟩
  rw [or_iff_right hend, or_iff_right hend]
  have hb : it.pos / it.s.dir.blocksize < it.s.dir.blocks :=
    Nat.lt_of_not_le fun hle => hend (ht.size_le_iff.mpr hle)
  constructor
  · rintro ⟨offs, hblock, ho⟩
    obtain rfl := ht.offs_eq hb hblock
    by_cases hzero : it.pos % it.s.dir.blocksize = 0
    · exact .inl hzero
    · refine .inr ⟨_, hperm.mem_iff.mp
        (mem_listing.mpr ⟨_, hb, _, ho, hblock.live _ ho hzero, rfl⟩), ?_⟩
      exact Nat.div_add_mod' _ _
  · rintro (hzero | ⟨entry, hmem, heq⟩)
    · refine ⟨_, ht.tiled _ hb, ?_⟩
      have htiles := (ht.tiled _ hb).tiles
      rw [hzero]
      cases hoffs : layout (it.pos / it.s.dir.blocksize) with
      | nil =>
          rw [hoffs] at htiles
          exact absurd htiles (Nat.ne_of_lt it.s.dir.blocksize_pos)
      | cons c os =>
          rw [hoffs] at htiles
          obtain rfl : c = 0 := htiles.1
          exact List.mem_cons_self
    · obtain ⟨-, ho, -, -⟩ := ht.record_of_mem (hperm.mem_iff.mpr hmem)
      rw [heq] at ho
      exact ⟨_, ht.tiled _ hb, ho⟩

theorem DirInv.live_nodup (h : DirInv s) : s.live.Nodup := by
  obtain ⟨-, -, -, hnodup⟩ := h
  exact hnodup.of_map _

/-- A call that resumes at a record reports each entry between the two positions once, and nothing
else. -/
theorem DirInv.continues (h : DirInv s) (hrecord : AtRecord s.dir pos) (io : DirIo)
    (room : Nat) : ∃ reports pos' err, tuxReaddir s.dir io pos room = .ok (reports, pos', err) ∧
      reports ⊆ s.live ∧ ∀ entry ∈ s.live, (entry.pos < pos → entry.pos < pos') ∧
        reports.count entry = if pos ≤ entry.pos ∧ entry.pos < pos' then 1 else 0 := by
  have hnodup := h.live_nodup
  obtain ⟨layout, ht, hperm, -⟩ := h
  by_cases hend : s.dir.size ≤ pos
  · refine ⟨[], pos, 0, ?_, List.nil_subset _, fun entry _ => ?_⟩
    · rw [← tuxReaddirFile_eq s.dir io false]
      unfold tuxReaddirFile
      rw [Outcome.bind_of_ok (tuxAssert_of ht.aligned)]
      dsimp only
      rw [if_pos (ht.size_le_iff.mp hend)]
      rfl
    · refine ⟨id, ?_⟩
      rw [if_neg (by omega)]
      rfl
  obtain ⟨all, hst⟩ := hrecord.stands ht (Nat.not_le.mp hend)
  obtain ⟨⟨reports, pos', err⟩, hcall, hresult⟩ := tuxReaddir_spec io room ht hst
  obtain ⟨rest, rfl, hst'⟩ := hresult.stands
  have hall := (hperm.symm.nodup hnodup).sublist hst.sublist
  refine ⟨reports, pos', err, hcall, fun entry hmem => ?_, fun entry hmem => ?_⟩
  · exact hperm.mem_iff.mp (hst.sublist.subset (List.mem_append_left _ hmem))
  · have hlisted := hperm.mem_iff.mpr hmem
    have hin := hst.mem_iff ht hlisted
    have hrest := hst'.mem_iff ht hlisted
    rw [List.mem_append, hrest] at hin
    refine ⟨fun hlt => Nat.not_le.mp fun hle => ?_, ?_⟩
    · exact absurd (hin.mp (.inr hle)) (Nat.not_le.mpr hlt)
    rw [(List.nodup_append.mp hall).1.count]
    have hdisjoint : entry ∈ reports → ¬ pos' ≤ entry.pos := fun hrep hle =>
      (List.nodup_append.mp hall).2.2 entry hrep entry (hrest.mpr hle) rfl
    congr 1
    rw [eq_iff_iff]
    constructor
    · exact fun hrep => ⟨hin.mp (.inl hrep), Nat.not_le.mp (hdisjoint hrep)⟩
    · exact fun ⟨hle, hlt⟩ => (hin.mpr hle).resolve_right (Nat.not_le.mpr hlt)

/-! ## Runs -/

/-- An entry that was there all the time was reported once if `f_pos` is past it, and not yet
otherwise. -/
structure IterationInv (it : Iteration) : Prop where
  dir : DirInv it.s
  once : ∀ entry ∈ it.lasting, entry ∈ it.s.live ∧
    it.reports.count entry = if entry.pos < it.pos then 1 else 0

theorem IterationInv.step (h : IterationInv it) (hstep : IterationStep Iteration.Kept it it') :
    IterationInv it' := by
  cases hstep with
  | change hvalid hfits hexec =>
      obtain ⟨s'', heq, hinv⟩ := DirCall.exec_spec h.dir _ hvalid hfits
      rw [hexec] at heq
      obtain rfl := Except.ok.inj heq
      refine ⟨hinv, fun entry hmem => ?_⟩
      obtain ⟨hlasting, hlive⟩ := List.mem_filter.mp hmem
      exact ⟨of_decide_eq_true hlive, (h.once entry hlasting).2⟩
  | @readdir io revalidate room pos reports err hkept hcall =>
      obtain ⟨reports', pos', err', hcall', -, hcount⟩ :=
        h.dir.continues (h.dir.atRecord_iff.mpr hkept) io room
      rw [tuxReaddirFile_eq, hcall'] at hcall
      obtain ⟨rfl, hrest⟩ := Prod.mk.inj (Except.ok.inj hcall)
      obtain ⟨rfl, -⟩ := Prod.mk.inj hrest
      refine ⟨h.dir, fun entry hmem => ?_⟩
      obtain ⟨hlive, hbefore⟩ := h.once entry hmem
      refine ⟨hlive, ?_⟩
      show (it.reports ++ reports').count entry = if entry.pos < pos' then 1 else 0
      obtain ⟨hpast, hreports⟩ := hcount entry hlive
      rw [List.count_append, hbefore, hreports]
      by_cases hlt : entry.pos < it.pos
      · rw [if_pos hlt, if_neg (by omega), if_pos (hpast hlt)]
      · rw [if_neg hlt, Nat.zero_add]
        congr 1
        rw [eq_iff_iff]
        exact and_iff_right (Nat.not_lt.mp hlt)

theorem iterationSystem_inv (h : (iterationSystem Iteration.Kept).Reachable it) :
    IterationInv it := by
  refine h.invariant (I := IterationInv) ?_ fun _ _ => IterationInv.step
  intro it ⟨hdir, hpos, hreports, hlasting⟩
  refine ⟨dirSystem_inv hdir, fun entry hmem => ?_⟩
  rw [hlasting] at hmem
  rw [hreports, hpos, if_neg (Nat.not_lt_zero _)]
  exact ⟨hmem, rfl⟩

theorem DirInv.continuesRight_iff (h : DirInv it.s) :
    ContinuesRight it.s io revalidate it.pos room ↔ it.Kept := by
  rw [← h.atRecord_iff]
  constructor
  · rintro ⟨⟨start, hstart, hrecord⟩, -⟩
    rw [resumePos_eq] at hstart
    obtain rfl := Except.ok.inj hstart
    exact hrecord
  · intro hrecord
    obtain ⟨reports, pos', err, hcall, hsub, -⟩ := h.continues hrecord io room
    rw [← tuxReaddirFile_eq it.s.dir io revalidate] at hcall
    exact ⟨⟨_, resumePos_eq _ _ _, hrecord⟩, ⟨reports, pos', err, hcall, hsub⟩⟩

/-- In every run in which the listing goes on only where there still is an entry, or a block starts
or the directory ends, every entry that has been there all the time is reported once; and a call is
right exactly there. -/
theorem iterationSystem_continues (h : (iterationSystem Iteration.Kept).Reachable it) :
    (∀ io revalidate room, ContinuesRight it.s io revalidate it.pos room ↔ it.Kept) ∧
      (∀ entry ∈ it.lasting, it.reports.count entry ≤ 1) ∧
      (it.s.dir.size ≤ it.pos → ∀ entry ∈ it.lasting, it.reports.count entry = 1) := by
  have hinv := iterationSystem_inv h
  refine ⟨fun _ _ _ => hinv.dir.continuesRight_iff, fun entry hmem => ?_, fun hend entry hmem => ?_⟩
  · rw [(hinv.once entry hmem).2]
    split
    · exact Nat.le_refl 1
    · exact Nat.zero_le 1
  · obtain ⟨hlive, hcount⟩ := hinv.once entry hmem
    obtain ⟨layout, ht, hperm, -⟩ := hinv.dir
    obtain ⟨hb, -, -, -⟩ := ht.record_of_mem (hperm.mem_iff.mpr hlive)
    rw [hcount, if_pos]
    refine Nat.lt_of_lt_of_le ?_ hend
    rw [← ht.size_eq]
    exact (Nat.div_lt_iff_lt_mul it.s.dir.blocksize_pos).mp hb

end

/-! ## A deleted record -/

/-- The listing of two entries stopped at the second one, and a third one was created. -/
theorem iterationSystem_continues_stopped : ∃ it : Iteration, it.pos = 16 ∧
    it.lasting = [created [98] 6 0o100644 16, created [97] 5 0o40755 0] ∧
    (∀ io revalidate room, ContinuesRight it.s io revalidate it.pos room ↔ it.Kept) ∧
    (∀ entry ∈ it.lasting, it.reports.count entry ≤ 1) ∧
    (it.s.dir.size ≤ it.pos → ∀ entry ∈ it.lasting, it.reports.count entry = 1) := by
  have hinit : dirSystem.Reachable ⟨emptyDir 6, []⟩ := .init ⟨by decide, rfl, rfl⟩
  have hone := hinit.next ⟨goodIo, .create [97] 5 0o40755, by decide, by decide, rfl⟩
  have htwo := hone.next ⟨goodIo, .create [98] 6 0o100644, by decide, by decide, rfl⟩
  have hstart : (iterationSystem Iteration.Kept).Reachable ⟨_, 0, [], _⟩ :=
    .init ⟨htwo, rfl, rfl, rfl⟩
  have hread := hstart.next
    (@IterationStep.readdir _ _ goodIo false 1 16 _ 0 (.inr (.inl rfl)) rfl)
  have hchange := hread.next (@IterationStep.change _ _ goodIo (.create [99] 7 0o100644) _
    (by decide) (by decide) rfl)
  exact ⟨_, rfl, rfl, iterationSystem_continues hchange⟩

theorem not_kept_of_first {it : Iteration} (hpos : it.pos = 16) (hsize : it.s.dir.size = 64)
    (hblock : it.s.dir.blocksize = 64) (hlive : it.s.live = [created [97] 5 0o40755 0]) :
    ¬ it.Kept := by
  unfold Iteration.Kept
  rw [hpos, hsize, hblock, hlive]
  rintro (hend | hzero | ⟨entry, hmem, heq⟩)
  · exact absurd hend (by decide)
  · exact absurd hzero (by decide)
  · obtain rfl := List.mem_singleton.mp hmem
    exact absurd heq (by decide)

/-- The entry at which the listing stopped is deleted: there is no record any more at `f_pos`, and
the next call begins there all the same. -/
theorem readdir_insideRecord : ∃ it : Iteration, (iterationSystem Iteration.Kept).Reachable it ∧
    it.s.live = [created [97] 5 0o40755 0] ∧
    (∀ revalidate, resumePos it.s.dir revalidate it.pos = .ok 16) ∧ ¬ AtRecord it.s.dir 16 ∧
    ∀ io revalidate room, ¬ ContinuesRight it.s io revalidate it.pos room := by
  have hinit : dirSystem.Reachable ⟨emptyDir 6, []⟩ := .init ⟨by decide, rfl, rfl⟩
  have hone := hinit.next ⟨goodIo, .create [97] 5 0o40755, by decide, by decide, rfl⟩
  have htwo := hone.next ⟨goodIo, .create [98] 6 0o100644, by decide, by decide, rfl⟩
  have hstart : (iterationSystem Iteration.Kept).Reachable ⟨_, 0, [], _⟩ :=
    .init ⟨htwo, rfl, rfl, rfl⟩
  have hread := hstart.next
    (@IterationStep.readdir _ _ goodIo false 1 16 _ 0 (.inr (.inl rfl)) rfl)
  have hdelete := hread.next (@IterationStep.change _ _ goodIo
    (.delete (created [98] 6 0o100644 16)) _ (by decide) trivial rfl)
  have hinv := (iterationSystem_inv hdelete).dir
  exact ⟨_, hdelete, rfl, fun _ => resumePos_eq _ _ _, fun hrecord =>
    not_kept_of_first rfl rfl rfl rfl (hinv.atRecord_iff.mp hrecord), fun _ _ _ hright =>
    not_kept_of_first rfl rfl rfl rfl (hinv.continuesRight_iff.mp hright)⟩

end Tux3.Dir
