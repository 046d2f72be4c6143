/-
  Dir/Layout.lean --- the blocks of a directory, and what its operations make of them.

  A layout names the records of every block.  Creation and deletion each take one entry to
  or from what a listing is to report, and leave every other entry where it is; a failure
  leaves the directory as it was.
-/
import Mathlib.Data.List.Range
import Tux3.Dir.Block

set_option autoImplicit false

namespace Tux3.Dir

open Tiling

/-! ## Layouts -/

/-- The records of `layout` tile the blocks of the directory. -/
structure DirTiled (dir : TuxDir) (layout : Nat → List Nat) : Prop where
  blockbits_le : dir.blockbits ≤ 16
  aligned : dir.size % dir.blocksize = 0
  tiled : ∀ block < dir.blocks, BlockTiled (dir.data block) dir.blocksize (layout block)

/-- What a listing is to report of `n` blocks from `block` on. -/
def listingFrom (dir : TuxDir) (layout : Nat → List Nat) (block n : Nat) : List DirReport :=
  (List.range' block n).flatMap fun block =>
    blockReports (dir.data block) dir.blocksize block (layout block)

/-- What a listing is to report. -/
def listing (dir : TuxDir) (layout : Nat → List Nat) : List DirReport :=
  listingFrom dir layout 0 dir.blocks

theorem TuxDir.blocksize_pos (dir : TuxDir) : 0 < dir.blocksize := Nat.two_pow_pos _

theorem listingFrom_succ (dir : TuxDir) (layout : Nat → List Nat) (block n : Nat) :
    listingFrom dir layout block (n + 1) =
      blockReports (dir.data block) dir.blocksize block (layout block) ++
        listingFrom dir layout (block + 1) n := rfl

/-- An entry that one block has more is an entry that the blocks have more. -/
theorem flatMap_range'_perm {α : Type} {f g : Nat → List α} {a : α} {k block n : Nat}
    (hge : block ≤ k) (hlt : k < block + n) (hself : (f k).Perm (a :: g k))
    (hne : ∀ i, i ≠ k → f i = g i) :
    ((List.range' block n).flatMap f).Perm (a :: (List.range' block n).flatMap g) := by
  induction n generalizing block with
  | zero => omega
  | succ n ih =>
      rw [List.range'_succ, List.flatMap_cons, List.flatMap_cons]
      obtain rfl | hlt' := Nat.eq_or_lt_of_le hge
      · have hrest : (List.range' (block + 1) n).flatMap f =
            (List.range' (block + 1) n).flatMap g := by
          refine List.flatMap_congr fun i hi => hne i ?_
          have hmem := (List.mem_range'_1.1 hi).1
          omega
        rw [hrest]
        exact hself.append_right _
      · rw [hne block (Nat.ne_of_lt hlt')]
        exact ((ih hlt' (by omega)).append_left _).trans List.perm_middle

section

variable {dir dir' : TuxDir} {layout : Nat → List Nat} {offs : List Nat} {block : Nat}

theorem mem_listing {entry : DirReport} :
    entry ∈ listing dir layout ↔ ∃ block < dir.blocks, ∃ o ∈ layout block,
      (dir.data block o).isDeleted = false ∧
        report (dir.data block) dir.blocksize block o = entry := by
  unfold listing listingFrom
  simp only [List.mem_flatMap, List.mem_range'_1, mem_blockReports, Nat.zero_le, true_and,
    Nat.zero_add]

/-- One block of a directory changes. -/
structure OneBlock (dir dir' : TuxDir) (block : Nat) : Prop where
  blockbits_eq : dir'.blockbits = dir.blockbits
  size_eq : dir'.size = dir.size
  data_eq : ∀ b, b ≠ block → dir'.data b = dir.data b

theorem OneBlock.blocksize_eq (h : OneBlock dir dir' block) : dir'.blocksize = dir.blocksize := by
  unfold TuxDir.blocksize
  rw [h.blockbits_eq]

theorem OneBlock.blocks_eq (h : OneBlock dir dir' block) : dir'.blocks = dir.blocks := by
  unfold TuxDir.blocks
  rw [h.blocksize_eq, h.size_eq]

theorem oneBlock_write (dir : TuxDir) (block o : Nat) (entry : Dirent) :
    OneBlock dir (dir.write block o entry) block :=
  ⟨rfl, rfl, fun _ hne => Function.update_of_ne hne _ _⟩

theorem OneBlock.trans {dir'' : TuxDir} (h : OneBlock dir dir' block)
    (h' : OneBlock dir' dir'' block) : OneBlock dir dir'' block :=
  ⟨h'.blockbits_eq.trans h.blockbits_eq, h'.size_eq.trans h.size_eq,
    fun b hne => (h'.data_eq b hne).trans (h.data_eq b hne)⟩

theorem TuxDir.write_data_self (dir : TuxDir) (block o : Nat) (entry : Dirent) :
    (dir.write block o entry).data block = Function.update (dir.data block) o entry :=
  Function.update_self _ _ _

/-- The directory is tiled where the block that changes is. -/
theorem OneBlock.dirTiled (h : OneBlock dir dir' block) (ht : DirTiled dir layout)
    (hblock : BlockTiled (dir'.data block) dir.blocksize offs) :
    DirTiled dir' (Function.update layout block offs) := by
  refine ⟨by rw [h.blockbits_eq]; exact ht.blockbits_le,
    by rw [h.size_eq, h.blocksize_eq]; exact ht.aligned, fun b hb => ?_⟩
  rw [h.blocks_eq] at hb
  rw [h.blocksize_eq]
  obtain rfl | hne := eq_or_ne b block
  · rw [Function.update_self]
    exact hblock
  · rw [Function.update_of_ne hne, h.data_eq b hne]
    exact ht.tiled b hb

theorem OneBlock.blockReports_eq (h : OneBlock dir dir' block) {b : Nat} (hne : b ≠ block) :
    blockReports (dir'.data b) dir'.blocksize b (Function.update layout block offs b) =
      blockReports (dir.data b) dir.blocksize b (layout b) := by
  rw [Function.update_of_ne hne, h.data_eq b hne, h.blocksize_eq]

/-- A block gains an entry, and so does the directory. -/
theorem OneBlock.listing_insert {entry : DirReport} (h : OneBlock dir dir' block)
    (hb : block < dir.blocks)
    (hperm : (blockReports (dir'.data block) dir.blocksize block offs).Perm
      (entry :: blockReports (dir.data block) dir.blocksize block (layout block))) :
    (listing dir' (Function.update layout block offs)).Perm (entry :: listing dir layout) := by
  unfold listing listingFrom
  rw [h.blocks_eq]
  refine flatMap_range'_perm (Nat.zero_le block) (by omega) ?_ fun b hne => h.blockReports_eq hne
  rw [Function.update_self, h.blocksize_eq]
  exact hperm

/-- A block loses an entry, and so does the directory. -/
theorem OneBlock.listing_remove {entry : DirReport} (h : OneBlock dir dir' block)
    (hb : block < dir.blocks)
    (hperm : (blockReports (dir.data block) dir.blocksize block (layout block)).Perm
      (entry :: blockReports (dir'.data block) dir.blocksize block offs)) :
    (listing dir layout).Perm (entry :: listing dir' (Function.update layout block offs)) := by
  unfold listing listingFrom
  rw [h.blocks_eq]
  refine flatMap_range'_perm (Nat.zero_le block) (by omega) ?_
    fun b hne => (h.blockReports_eq hne).symm
  rw [Function.update_self, h.blocksize_eq]
  exact hperm

end

/-! ## Search -/

section

variable {dir : TuxDir} {layout : Nat → List Nat} {io : DirIo}

/-- What the search for room comes to. -/
inductive RoomFound (dir : TuxDir) (layout : Nat → List Nat) (io : DirIo) (reclen : Nat) :
    RoomSearch → Prop
  | failed {b : Nat} (hb : b < dir.blocks) (hio : io.readFails b = true) :
      RoomFound dir layout io reclen (.failed (-eio))
  | room {b o : Nat} (hb : b < dir.blocks) (ho : o ∈ layout b)
      (hroom : hasRoom (dir.data b) reclen o = true) :
      RoomFound dir layout io reclen
        (.room b o (tuxRecLen (dir.data b o).nameLen) (dir.data b o).len)
  | expand : RoomFound dir layout io reclen .expand

theorem roomSearch_spec {reclen n block : Nat} (h : DirTiled dir layout) (hpos : 0 < reclen)
    (hn : block + n = dir.blocks) :
    ∃ r, roomSearch dir io reclen n block = .ok r ∧ RoomFound dir layout io reclen r := by
  induction n generalizing block with
  | zero => exact ⟨_, rfl, .expand⟩
  | succ n ih =>
      have hb : block < dir.blocks := by omega
      unfold roomSearch
      cases hio : io.readFails block with
      | true => exact ⟨_, rfl, .failed hb hio⟩
      | false =>
          rw [if_neg Bool.false_ne_true, roomScan_eq (h.tiled block hb) hpos]
          cases hfind : (layout block).find? (hasRoom (dir.data block) reclen) with
          | none => exact ih (by omega)
          | some o =>
              exact ⟨_, rfl, .room hb (List.mem_of_find?_eq_some hfind)
                (List.find?_some hfind)⟩

/-- What the search for a name comes to. -/
inductive NameFound (dir : TuxDir) (layout : Nat → List Nat) (io : DirIo) (name : List UInt8)
    (block : Nat) : Found → Prop
  | failed {b : Nat} (hb : b < dir.blocks) (hio : io.readFails b = true) :
      NameFound dir layout io name block (.failed (-eio))
  | missing (h : ∀ b, block ≤ b → b < dir.blocks → ∀ o ∈ layout b,
      (dir.data b o).tuxMatch name = false) :
      NameFound dir layout io name block (.failed (-enoent))
  | entry {b o : Nat} (hb : b < dir.blocks) (ho : o ∈ layout b)
      (hmatch : (dir.data b o).tuxMatch name = true) :
      NameFound dir layout io name block (.entry b o)

theorem nameSearch_spec {name : List UInt8} {n block : Nat} (h : DirTiled dir layout)
    (hn : block + n = dir.blocks) :
    ∃ r, nameSearch dir io name n block = .ok r ∧ NameFound dir layout io name block r := by
  induction n generalizing block with
  | zero => exact ⟨_, rfl, .missing fun b hge hlt => by omega⟩
  | succ n ih =>
      have hb : block < dir.blocks := by omega
      unfold nameSearch
      cases hio : io.readFails block with
      | true => exact ⟨_, rfl, .failed hb hio⟩
      | false =>
          rw [if_neg Bool.false_ne_true, nameScan_eq (h.tiled block hb)]
          cases hfind : (layout block).find? fun o => (dir.data block o).tuxMatch name with
          | some o =>
              have hmatch := List.find?_some hfind
              exact ⟨_, rfl, .entry hb (List.mem_of_find?_eq_some hfind) hmatch⟩
          | none =>
              obtain ⟨r, heq, hr⟩ := @ih (block + 1) (by omega)
              refine ⟨r, heq, ?_⟩
              cases hr with
              | failed hb hio => exact .failed hb hio
              | entry hb ho hmatch => exact .entry hb ho hmatch
              | missing hmiss =>
                  refine .missing fun b hge hlt o ho => ?_
                  obtain rfl | hgt := Nat.eq_or_lt_of_le hge
                  · exact Bool.eq_false_iff.2 (List.find?_eq_none.1 hfind o ho)
                  · exact hmiss b hgt hlt o ho

end

/-! ## Creation -/

section

variable {dir : TuxDir} {layout : Nat → List Nat}

theorem recordOk_fill {entry : Dirent} {name : List UInt8} {inum mode : Nat}
    (halign : tuxDirAlign ∣ entry.len) (hfits : tuxRecLen name.length ≤ entry.len) :
    RecordOk (entry.fill name inum mode) := ⟨halign, hfits, rfl⟩

theorem isDeleted_fill {entry : Dirent} {name : List UInt8} {inum mode : Nat}
    (hname : 0 < name.length) : (entry.fill name inum mode).isDeleted = false :=
  beq_eq_false_iff_ne.2 (Nat.ne_of_gt hname)

/-- The entry of a create at a position. -/
def created (name : List UInt8) (inum mode pos : Nat) : DirReport :=
  ⟨name, pos, inum, filetype (tuxTypeByMode mode)⟩

/-- The directory took an entry. -/
structure Inserted (dir : TuxDir) (layout : Nat → List Nat) (dir' : TuxDir)
    (layout' : Nat → List Nat) (entry : DirReport) : Prop where
  tiled : DirTiled dir' layout'
  blockbits_eq : dir'.blockbits = dir.blockbits
  listing_perm : (listing dir' layout').Perm (entry :: listing dir layout)

theorem DirTiled.blocksize_le (h : DirTiled dir layout) : dir.blocksize ≤ 2 ^ 16 :=
  Nat.pow_le_pow_right (Nat.succ_pos 1) h.blockbits_le

/-- A block is aligned if it has room for a record at all. -/
theorem tuxDirAlign_dvd_blocksize {nameLen : Nat} (hfits : tuxRecLen nameLen ≤ dir.blocksize) :
    tuxDirAlign ∣ dir.blocksize := by
  have hlen := le_tuxRecLen nameLen
  unfold TuxDir.blocksize at hfits ⊢
  obtain hlt | hge := Nat.lt_or_ge dir.blockbits 3
  · have hpow : 2 ^ dir.blockbits < 2 ^ 3 := Nat.pow_lt_pow_right (Nat.lt_succ_self 1) hlt
    unfold tuxDirHead at hlen
    omega
  · exact Nat.pow_dvd_pow 2 hge

/-- A block took the entry. -/
theorem inserted_of_block {dir' : TuxDir} {b o : Nat} {offs : List Nat} {entry : DirReport}
    (h : DirTiled dir layout) (hone : OneBlock dir dir' b) (hb : b < dir.blocks)
    (hoffs : layout b = offs) (hentry : report (dir'.data b) dir.blocksize b o = entry)
    (hblock : ∃ offs', BlockTiled (dir'.data b) dir.blocksize offs' ∧
      (blockReports (dir'.data b) dir.blocksize b offs').Perm
        (report (dir'.data b) dir.blocksize b o ::
          blockReports (dir.data b) dir.blocksize b offs)) :
    ∃ layout', Inserted dir layout dir' layout' entry := by
  obtain ⟨offs', htiled, hperm⟩ := hblock
  rw [← hoffs, hentry] at hperm
  exact ⟨_, hone.dirTiled h htiled, hone.blockbits_eq, hone.listing_insert hb hperm⟩

theorem report_fillEntry (dir : TuxDir) (b o : Nat) (name : List UInt8) (inum mode : Nat) :
    report ((dir.fillEntry b o name inum mode).data b) dir.blocksize b o =
      created name inum mode (b * dir.blocksize + o) := by
  unfold report TuxDir.fillEntry
  rw [TuxDir.write_data_self, Function.update_self]
  rfl

theorem TuxDir.fillEntry_data_self (dir : TuxDir) (b o : Nat) (name : List UInt8)
    (inum mode : Nat) :
    (dir.fillEntry b o name inum mode).data b =
      Function.update (dir.data b) o ((dir.data b o).fill name inum mode) :=
  dir.write_data_self b o _

/-- Room is made at a record, and a new entry fills it. -/
theorem split_fillEntry {name : List UInt8} {b o : Nat} (inum mode : Nat)
    (h : DirTiled dir layout) (hname : 0 < name.length) (hb : b < dir.blocks) (ho : o ∈ layout b)
    (hroom : hasRoom (dir.data b) (tuxRecLen name.length) o = true) :
    ∃ dir' o',
      dir.split b o (tuxRecLen (dir.data b o).nameLen) (dir.data b o).len = .ok (dir', o') ∧
      ∃ layout', Inserted dir layout (dir'.fillEntry b o' name inum mode) layout'
        (created name inum mode (b * dir.blocksize + o')) := by
  have hblock := h.tiled b hb
  have hmem : o + (dir.data b o).len ≤ dir.blocksize := (hblock.tiles.mem ho).2.2
  have hbs := h.blocksize_le
  have hrec := hblock.recordOk o ho
  obtain ⟨front, back, hoffs⟩ := List.append_of_mem ho
  rw [hoffs] at hblock
  unfold TuxDir.split
  dsimp only
  cases hdel : (dir.data b o).isDeleted with
  | true =>
      refine ⟨dir, o, rfl, inserted_of_block h (oneBlock_write dir b o _) hb hoffs
        (report_fillEntry dir b o name inum mode) ⟨front ++ o :: back, ?_⟩⟩
      have hlen : ((dir.data b o).fill name inum mode).len = (dir.data b o).len := rfl
      exact hblock.reuse hdel hlen (recordOk_fill hrec.aligned (le_len_of_hasRoom hroom))
        (isDeleted_fill hname) (dir.fillEntry_data_self b o name inum mode)
  | false =>
      have hfits : tuxRecLen (dir.data b o).nameLen + tuxRecLen name.length ≤
          (dir.data b o).len := by
        unfold hasRoom at hroom
        rw [hdel, Bool.false_and, Bool.false_or, decide_eq_true_eq] at hroom
        exact hroom
      have hkeep := tuxDirAlign_dvd_tuxRecLen (dir.data b o).nameLen
      have hkeepPos := tuxRecLen_pos (dir.data b o).nameLen
      have hrest := Nat.dvd_sub hrec.aligned hkeep
      obtain ⟨dlen, heq, hdlen⟩ := tuxRecLenToDisk_eq hrest (by omega)
      obtain ⟨dkeep, hkeepEq, hdkeep⟩ := tuxRecLenToDisk_eq hkeep (by omega)
      have hne : o + tuxRecLen (dir.data b o).nameLen ≠ o := by omega
      rw [if_neg Bool.false_ne_true, heq, hkeepEq]
      refine ⟨_, _, rfl, inserted_of_block h (((oneBlock_write dir b _ _).trans
        (oneBlock_write _ b o _)).trans (oneBlock_write _ b _ _)) hb hoffs
        (report_fillEntry _ b _ name inum mode)
        ⟨front ++ o :: (o + tuxRecLen (dir.data b o).nameLen) :: back, ?_⟩⟩
      have hlen : (Dirent.fill { dir.data b (o + tuxRecLen (dir.data b o).nameLen) with
          recLen := dlen } name inum mode).len =
          (dir.data b o).len - tuxRecLen (dir.data b o).nameLen := hdlen
      have hnew : RecordOk (Dirent.fill { dir.data b (o + tuxRecLen (dir.data b o).nameLen) with
          recLen := dlen } name inum mode) :=
        ⟨hlen ▸ hrest, by rw [hlen]; exact Nat.le_sub_of_add_le' hfits, rfl⟩
      refine hblock.split hdel hdkeep hnew (isDeleted_fill hname) ?_ ?_
      · rw [hlen]
        omega
      · rw [TuxDir.fillEntry_data_self, TuxDir.write_data_self, TuxDir.write_data_self,
          Function.update_of_ne hne, Function.update_self, Function.update_comm hne,
          Function.update_idem]

/-- The directory grows by a block, and a new entry fills its only record. -/
theorem expand_fillEntry {name : List UInt8} (inum mode : Nat) (h : DirTiled dir layout)
    (hname : 0 < name.length) (hfits : tuxRecLen name.length ≤ dir.blocksize) :
    ∃ dir', dir.expand = .ok dir' ∧
      ∃ layout', Inserted dir layout (dir'.fillEntry dir.blocks 0 name inum mode) layout'
        (created name inum mode (dir.blocks * dir.blocksize)) := by
  obtain ⟨dlen, heq, hdlen⟩ := tuxRecLenToDisk_eq (tuxDirAlign_dvd_blocksize hfits) h.blocksize_le
  unfold TuxDir.expand
  rw [heq]
  refine ⟨_, rfl, Function.update layout dir.blocks [0], ?_⟩
  generalize hdir' : TuxDir.fillEntry _ dir.blocks 0 name inum mode = dir'
  have hbits : dir'.blockbits = dir.blockbits := by rw [← hdir']; rfl
  have hsize : dir'.size = dir.size + dir.blocksize := by rw [← hdir']; rfl
  have hbs : dir'.blocksize = dir.blocksize := by unfold TuxDir.blocksize; rw [hbits]
  have hblocks : dir'.blocks = dir.blocks + 1 := by
    unfold TuxDir.blocks
    rw [hbs, hsize, Nat.add_div_right _ dir.blocksize_pos]
  have hold : ∀ b < dir.blocks, dir'.data b = dir.data b := by
    intro b hb
    have hne := Nat.ne_of_lt hb
    rw [← hdir']
    unfold TuxDir.fillEntry TuxDir.write
    dsimp only
    rw [Function.update_of_ne hne, Function.update_of_ne hne, Function.update_of_ne hne]
  have hnew : dir'.data dir.blocks 0 =
      Dirent.fill { zeroDirent with recLen := dlen } name inum mode := by
    rw [← hdir', TuxDir.fillEntry_data_self, Function.update_self, TuxDir.write_data_self,
      Function.update_self]
  have hlen : (dir'.data dir.blocks 0).len = dir.blocksize := by rw [hnew]; exact hdlen
  have hlive : (dir'.data dir.blocks 0).isDeleted = false := by
    rw [hnew]
    exact isDeleted_fill hname
  have htiled : BlockTiled (dir'.data dir.blocks) dir'.blocksize [0] := by
    have hends : 0 + (dir'.data dir.blocks 0).len = dir'.blocksize :=
      (Nat.zero_add _).trans (hlen.trans hbs.symm)
    have hpos : 0 < (dir'.data dir.blocks 0).len := hlen ▸ dir.blocksize_pos
    refine ⟨⟨rfl, hpos, hends⟩, ?_, ?_⟩
    · intro o ho
      obtain rfl := List.mem_singleton.1 ho
      refine ⟨hlen ▸ tuxDirAlign_dvd_blocksize hfits, ?_, by rw [hnew]; rfl⟩
      rw [hlen, hnew]
      exact hfits
    · intro o ho hne
      exact absurd (List.mem_singleton.1 ho) hne
  refine ⟨⟨by rw [hbits]; exact h.blockbits_le, ?_, fun b hb => ?_⟩, hbits, ?_⟩
  · rw [hsize, hbs, Nat.add_mod_right]
    exact h.aligned
  · rw [hblocks] at hb
    obtain hlt | rfl := Nat.lt_succ_iff_lt_or_eq.1 hb
    · rw [Function.update_of_ne (Nat.ne_of_lt hlt), hold b hlt, hbs]
      exact h.tiled b hlt
    · rw [Function.update_self]
      exact htiled
  · unfold listing listingFrom
    rw [hblocks, List.range'_1_concat, List.flatMap_append, Nat.zero_add, List.flatMap_singleton,
      Function.update_self, blockReports_cons, hlive, if_neg Bool.false_ne_true]
    have hsame : ((List.range' 0 dir.blocks).flatMap fun b => blockReports (dir'.data b)
        dir'.blocksize b (Function.update layout dir.blocks [0] b)) =
        (List.range' 0 dir.blocks).flatMap fun b =>
          blockReports (dir.data b) dir.blocksize b (layout b) := by
      refine List.flatMap_congr fun b hb => ?_
      have hlt : b < dir.blocks := by
        have hmem := (List.mem_range'_1.1 hb).2
        omega
      rw [Function.update_of_ne (Nat.ne_of_lt hlt), hold b hlt, hbs]
    have hentry : report (dir'.data dir.blocks) dir'.blocksize dir.blocks 0 =
        created name inum mode (dir.blocks * dir.blocksize) := by
      unfold report
      rw [hnew, hbs]
      rfl
    rw [hsame, hentry]
    exact List.perm_append_comm

/-- What a create comes to: a failure, which leaves everything as it was, or a new entry. -/
inductive CreateResult (dir : TuxDir) (layout : Nat → List Nat) (io : DirIo)
    (name : List UInt8) (inum mode : Nat) : TuxDir × Int → Prop
  | readFailed {b : Nat} (hb : b < dir.blocks) (hio : io.readFails b = true) :
      CreateResult dir layout io name inum mode (dir, -eio)
  | dirtyFailed (hio : io.dirtyErr ≠ 0) :
      CreateResult dir layout io name inum mode (dir, -io.dirtyErr)
  | inserted {dir' : TuxDir} {layout' : Nat → List Nat} {pos : Nat}
      (h : Inserted dir layout dir' layout' (created name inum mode pos)) :
      CreateResult dir layout io name inum mode (dir', pos)

theorem tuxCreateEntry_spec (io : DirIo) {name : List UInt8} (inum mode : Nat)
    (h : DirTiled dir layout) (hname : 0 < name.length)
    (hfits : tuxRecLen name.length ≤ dir.blocksize) :
    ∃ r, tuxCreateEntry dir io name inum mode = .ok r ∧
      CreateResult dir layout io name inum mode r := by
  obtain ⟨r, heq, hr⟩ := @roomSearch_spec _ _ io _ _ _ h
    (tuxRecLen_pos name.length) (Nat.zero_add dir.blocks)
  unfold tuxCreateEntry
  rw [heq, tuxAssert_of io.dirtyErr_ne]
  cases hr with
  | failed hb hio => exact ⟨_, rfl, .readFailed hb hio⟩
  | room hb ho hroom =>
      obtain ⟨dir', o', hsplit, layout', hins⟩ := split_fillEntry inum mode h hname hb ho hroom
      by_cases hzero : io.dirtyErr = 0
      · refine ⟨_, ?_, .inserted hins⟩
        simp only [hzero, ne_eq, not_true_eq_false, if_false, bind, Except.bind, hsplit]
        rfl
      · refine ⟨_, ?_, .dirtyFailed hzero⟩
        simp only [hzero, ne_eq, not_false_eq_true, if_true]
        rfl
  | expand =>
      obtain ⟨dir', hexpand, layout', hins⟩ := expand_fillEntry inum mode h hname hfits
      by_cases hzero : io.dirtyErr = 0
      · refine ⟨_, ?_, .inserted hins⟩
        simp only [hzero, ne_eq, not_true_eq_false, if_false, bind, Except.bind, hexpand]
        rfl
      · refine ⟨_, ?_, .dirtyFailed hzero⟩
        simp only [hzero, ne_eq, not_false_eq_true, if_true]
        rfl

end

/-! ## Deletion -/

section

variable {dir : TuxDir} {layout : Nat → List Nat}

/-- The directory lost an entry. -/
structure Removed (dir : TuxDir) (layout : Nat → List Nat) (dir' : TuxDir)
    (layout' : Nat → List Nat) (entry : DirReport) : Prop where
  tiled : DirTiled dir' layout'
  blockbits_eq : dir'.blockbits = dir.blockbits
  listing_perm : (listing dir layout).Perm (entry :: listing dir' layout')

/-- A block lost the entry. -/
theorem removed_of_block {dir' : TuxDir} {b o : Nat} {offs : List Nat}
    (h : DirTiled dir layout) (hone : OneBlock dir dir' b) (hb : b < dir.blocks)
    (hoffs : layout b = offs)
    (hblock : ∃ offs', BlockTiled (dir'.data b) dir.blocksize offs' ∧
      (blockReports (dir.data b) dir.blocksize b offs).Perm
        (report (dir.data b) dir.blocksize b o ::
          blockReports (dir'.data b) dir.blocksize b offs')) :
    ∃ layout', Removed dir layout dir' layout' (report (dir.data b) dir.blocksize b o) := by
  obtain ⟨offs', htiled, hperm⟩ := hblock
  rw [← hoffs] at hperm
  exact ⟨_, hone.dirTiled h htiled, hone.blockbits_eq, hone.listing_remove hb hperm⟩

/-- What a delete comes to: a failure, which leaves everything as it was, or an entry less. -/
inductive DeleteResult (dir : TuxDir) (layout : Nat → List Nat) (io : DirIo)
    (entry : DirReport) : TuxDir × Int → Prop
  | dirtyFailed (hio : io.dirtyErr ≠ 0) :
      DeleteResult dir layout io entry (dir, -io.dirtyErr)
  | removed {dir' : TuxDir} {layout' : Nat → List Nat}
      (h : Removed dir layout dir' layout' entry) :
      DeleteResult dir layout io entry (dir', 0)

theorem tuxDeleteEntry_spec (io : DirIo) {b o : Nat} (h : DirTiled dir layout)
    (hb : b < dir.blocks) (ho : o ∈ layout b) (hlive : (dir.data b o).isDeleted = false) :
    ∃ r, tuxDeleteEntry dir io b o = .ok r ∧
      DeleteResult dir layout io (report (dir.data b) dir.blocksize b o) r := by
  have hblock := h.tiled b hb
  have hbs := h.blocksize_le
  obtain ⟨front, back, hoffs⟩ := List.append_of_mem ho
  rw [hoffs] at hblock
  unfold tuxDeleteEntry
  rw [prevScan_eq hblock, tuxAssert_of io.dirtyErr_ne]
  by_cases hzero : io.dirtyErr = 0
  swap
  · refine ⟨_, ?_, .dirtyFailed hzero⟩
    simp only [hzero, ne_eq, not_false_eq_true, if_true]
    rfl
  simp only [hzero, ne_eq, not_true_eq_false, if_false, bind, Except.bind]
  obtain rfl | ⟨front, p, rfl⟩ := List.eq_nil_or_concat front
  · obtain ⟨layout', hrem⟩ := removed_of_block (o := o) h (oneBlock_write dir b o _) hb hoffs
      ⟨o :: back, hblock.clear hlive (dir.write_data_self b o _)⟩
    exact ⟨_, rfl, .removed hrem⟩
  · rw [List.concat_append] at hblock hoffs
    have hp := tiles_append_cons.1 hblock.tiles
    have heq : o = p + (dir.data b p).len := hp.2.2.1
    have hpmem : p ∈ front ++ p :: o :: back := List.mem_append_right _ List.mem_cons_self
    have homem : o ∈ front ++ p :: o :: back :=
      List.mem_append_right _ (List.mem_cons_of_mem _ List.mem_cons_self)
    have hle : o + (dir.data b o).len ≤ dir.blocksize := (hblock.tiles.mem homem).2.2
    have hsum : o + (dir.data b o).len - p = (dir.data b p).len + (dir.data b o).len := by omega
    have halign : tuxDirAlign ∣ o + (dir.data b o).len - p := by
      rw [hsum]
      exact Nat.dvd_add (hblock.recordOk p hpmem).aligned (hblock.recordOk o homem).aligned
    obtain ⟨dlen, hdisk, hdlen⟩ := tuxRecLenToDisk_eq halign (by omega)
    obtain ⟨layout', hrem⟩ := removed_of_block (o := o) h ((oneBlock_write dir b p _).trans
      (oneBlock_write _ b o _)) hb hoffs
      ⟨front ++ p :: back, hblock.merge (hdlen.trans hsum) (by
        rw [TuxDir.write_data_self, TuxDir.write_data_self])⟩
    refine ⟨_, ?_, .removed hrem⟩
    rw [List.concat_eq_append, List.getLast?_concat]
    dsimp only
    rw [hdisk]
    rfl

end

end Tux3.Dir
