/-
  Dir/Run.lean --- listings, and runs of a directory.

  A listing may be read in many calls: each reports the entries from `f_pos` on, as many as
  `filldir` takes, and leaves `f_pos` at the next one, so that the calls together report every
  entry once.  A run creates and deletes entries.  The names must fit into a block: the code
  does not check that a block is at least as long as the record it puts there.
-/
import Mathlib.Data.List.Nodup
import Tux3.Dir.Layout
import Tux3.Lib.System

set_option autoImplicit false

namespace Tux3.Dir

open Tiling

/-! ## Listings -/

/-- `f_pos` stands at a record, or at the end, and `rest` is still to be reported. -/
inductive Stands (dir : TuxDir) (layout : Nat → List Nat) : Nat → List DirReport → Prop
  | stop : Stands dir layout (dir.blocks * dir.blocksize) []
  | record {block o : Nat} {os : List Nat} (hb : block < dir.blocks)
      (hos : o :: os <:+ layout block)
      (ht : Tiles (fun o => (dir.data block o).len) o (o :: os) dir.blocksize) :
      Stands dir layout (block * dir.blocksize + o)
        (blockReports (dir.data block) dir.blocksize block (o :: os) ++
          listingFrom dir layout (block + 1) (dir.blocks - (block + 1)))

/-- What a call of `tux_readdir` comes to: it reports all that is left, or what `filldir` takes of
that, or a block could not be read. -/
inductive ReaddirResult (dir : TuxDir) (layout : Nat → List Nat) (io : DirIo)
    (all : List DirReport) (room : Nat) : List DirReport × Nat × Int → Prop
  | done (hlen : all.length ≤ room) :
      ReaddirResult dir layout io all room (all, dir.blocks * dir.blocksize, 0)
  | lame {pos : Nat} (hlt : room < all.length) (hst : Stands dir layout pos (all.drop room)) :
      ReaddirResult dir layout io all room (all.take room, pos, 0)
  | failed {block pos : Nat} {reports rest : List DirReport} (hb : block < dir.blocks)
      (hio : io.readFails block = true) (hall : all = reports ++ rest)
      (hst : Stands dir layout pos rest) :
      ReaddirResult dir layout io all room (reports, pos, -eio)

section

variable {dir : TuxDir} {layout : Nat → List Nat} {io : DirIo}

theorem stands_block {block : Nat} (h : DirTiled dir layout) (hle : block ≤ dir.blocks) :
    Stands dir layout (block * dir.blocksize)
      (listingFrom dir layout block (dir.blocks - block)) := by
  obtain rfl | hlt := Nat.eq_or_lt_of_le hle
  · rw [Nat.sub_self]
    exact .stop
  · have hn : dir.blocks - block = dir.blocks - (block + 1) + 1 := by omega
    have ht := (h.tiled block hlt).tiles
    rw [hn, listingFrom_succ]
    cases hos : layout block with
    | nil =>
        rw [hos] at ht
        exact absurd ht (Nat.ne_of_lt dir.blocksize_pos)
    | cons c os =>
        rw [hos] at ht
        obtain rfl : c = 0 := ht.1
        exact .record hlt (hos ▸ List.suffix_refl _) ht

/-- `tux_readdir` on one block, and then on the blocks after it. -/
theorem readdirBlocks_step {block n lo pos room : Nat} {os : List Nat} (h : DirTiled dir layout)
    (hn : block + (n + 1) = dir.blocks) (hos : os <:+ layout block)
    (ht : Tiles (fun o => (dir.data block o).len) lo os dir.blocksize)
    (hpos : pos = block * dir.blocksize + lo)
    (hst : Stands dir layout pos (blockReports (dir.data block) dir.blocksize block os ++
      listingFrom dir layout (block + 1) n))
    (hrest : ∀ room, ∃ r,
      readdirBlocks dir io n (block + 1) 0 ((block + 1) * dir.blocksize) room = .ok r ∧
        ReaddirResult dir layout io (listingFrom dir layout (block + 1) n) room r) :
    ∃ r, readdirBlocks dir io (n + 1) block lo pos room = .ok r ∧
      ReaddirResult dir layout io (blockReports (dir.data block) dir.blocksize block os ++
        listingFrom dir layout (block + 1) n) room r := by
  have hb : block < dir.blocks := by omega
  have hsub : n = dir.blocks - (block + 1) := by omega
  have hblock := h.tiled block hb
  have hfuel : os.length < dir.blocksize + 1 :=
    Nat.lt_of_le_of_lt hos.length_le hblock.length_lt
  unfold readdirBlocks
  cases hio : io.readFails block with
  | true => exact ⟨_, rfl, .failed hb hio (List.nil_append _).symm hst⟩
  | false =>
      rw [if_neg Bool.false_ne_true]
      obtain ⟨hlen, heq⟩ | ⟨o, rest, hlt, hsuffix, htiles, hdrop, heq⟩ :=
        @readdirBlock_spec _ _ block _ os lo pos room (dir.blocksize + 1) hblock hos ht hpos hfuel
      · obtain ⟨⟨reports, pos', err⟩, hread, hres⟩ := hrest
          (room - (blockReports (dir.data block) dir.blocksize block os).length)
        refine ⟨(blockReports (dir.data block) dir.blocksize block os ++ reports, pos', err), ?_, ?_⟩
        · rw [heq]
          simp only [bind, Except.bind, hread]
          rfl
        · cases hres with
          | done hle =>
              refine .done ?_
              rw [List.length_append]
              omega
          | lame hlt hst' =>
              have htake : blockReports (dir.data block) dir.blocksize block os ++
                  (listingFrom dir layout (block + 1) n).take
                    (room - (blockReports (dir.data block) dir.blocksize block os).length) =
                  (blockReports (dir.data block) dir.blocksize block os ++
                    listingFrom dir layout (block + 1) n).take room := by
                rw [List.take_append, List.take_of_length_le hlen]
              rw [htake]
              refine .lame ?_ ?_
              · rw [List.length_append]
                omega
              · rw [List.drop_append, List.drop_of_length_le hlen, List.nil_append]
                exact hst'
          | failed hb' hio' hall hst' =>
              refine .failed hb' hio' ?_ hst'
              rw [hall, List.append_assoc]
      · rw [heq]
        refine ⟨_, rfl, ?_⟩
        rw [← List.take_append_of_le_length (Nat.le_of_lt hlt)]
        refine .lame ?_ ?_
        · rw [List.length_append]
          omega
        · rw [List.drop_append_of_le_length (Nat.le_of_lt hlt), ← hdrop, hsub]
          exact .record hb (hsuffix.trans hos) htiles

/-- `tux_readdir` from the beginning of a block on. -/
theorem readdirBlocks_spec {n block : Nat} (h : DirTiled dir layout)
    (hn : block + n = dir.blocks) (room : Nat) :
    ∃ r, readdirBlocks dir io n block 0 (block * dir.blocksize) room = .ok r ∧
      ReaddirResult dir layout io (listingFrom dir layout block n) room r := by
  induction n generalizing block room with
  | zero =>
      obtain rfl : block = dir.blocks := hn
      exact ⟨_, rfl, .done (Nat.zero_le room)⟩
  | succ n ih =>
      have hst := stands_block h (Nat.le_of_lt (show block < dir.blocks by omega))
      have hsub : dir.blocks - block = n + 1 := by omega
      rw [hsub, listingFrom_succ] at hst
      exact readdirBlocks_step h hn (List.suffix_refl _) (h.tiled block (by omega)).tiles rfl hst
        fun room => ih (by omega) room

/-- The block and the offset of a position. -/
theorem pos_div_mod {block o : Nat}
    (h : DirTiled dir layout) (hb : block < dir.blocks) (ho : o ∈ layout block) :
    (block * dir.blocksize + o) / dir.blocksize = block ∧
      (block * dir.blocksize + o) % dir.blocksize = o := by
  have hlt := (h.tiled block hb).lt_blocksize ho
  constructor
  · rw [Nat.mul_comm, Nat.mul_add_div dir.blocksize_pos, Nat.div_eq_of_lt hlt, Nat.add_zero]
  · rw [Nat.mul_comm, Nat.mul_add_mod, Nat.mod_eq_of_lt hlt]

theorem tuxReaddir_spec {pos : Nat} {all : List DirReport} (io : DirIo) (room : Nat)
    (h : DirTiled dir layout) (hst : Stands dir layout pos all) :
    ∃ r, tuxReaddir dir io pos room = .ok r ∧ ReaddirResult dir layout io all room r := by
  unfold tuxReaddir
  rw [tuxAssert_of h.aligned]
  have hbs := dir.blocksize_pos
  have hst' := hst
  cases hst with
  | stop =>
      refine ⟨([], dir.blocks * dir.blocksize, 0), ?_, .done (Nat.zero_le room)⟩
      simp only [bind, Except.bind]
      rw [Nat.mul_div_cancel _ hbs, Nat.sub_self]
      rfl
  | @record block o os hb hos ht =>
      obtain ⟨hdiv, hmod⟩ := pos_div_mod h hb (hos.subset List.mem_cons_self)
      have hn : dir.blocks - block = dir.blocks - (block + 1) + 1 := by omega
      simp only [bind, Except.bind]
      rw [hdiv, hmod, hn]
      exact readdirBlocks_step h (by omega) hos ht rfl hst'
        fun room => readdirBlocks_spec h (by omega) room

/-- Calls of `tux_readdir` one after the other, each from where the one before it left `f_pos`. -/
inductive ReaddirPass (dir : TuxDir) : Nat → List DirReport → Nat → Prop
  | stop (pos : Nat) : ReaddirPass dir pos [] pos
  | call {pos pos' pos'' room : Nat} {io : DirIo} {reports reports' : List DirReport} {err : Int}
      (hcall : tuxReaddir dir io pos room = .ok (reports, pos', err))
      (hrest : ReaddirPass dir pos' reports' pos'') :
      ReaddirPass dir pos (reports ++ reports') pos''

theorem ReaddirResult.stands {all reports : List DirReport} {room pos : Nat} {err : Int}
    (h : ReaddirResult dir layout io all room (reports, pos, err)) :
    ∃ rest, all = reports ++ rest ∧ Stands dir layout pos rest := by
  cases h with
  | done hlen => exact ⟨[], (List.append_nil _).symm, .stop⟩
  | lame hlt hst => exact ⟨all.drop room, (List.take_append_drop room all).symm, hst⟩
  | failed hb hio hall hst => exact ⟨_, hall, hst⟩

/-- The calls report the entries in turn. -/
theorem ReaddirPass.stands {pos pos' : Nat} {reports all : List DirReport}
    (hpass : ReaddirPass dir pos reports pos') (h : DirTiled dir layout)
    (hst : Stands dir layout pos all) :
    ∃ rest, all = reports ++ rest ∧ Stands dir layout pos' rest := by
  induction hpass generalizing all with
  | stop pos => exact ⟨all, rfl, hst⟩
  | @call pos _ _ room io _ reports' _ hcall _ ih =>
      obtain ⟨r, heq, hres⟩ := tuxReaddir_spec io room h hst
      rw [hcall] at heq
      cases heq
      obtain ⟨rest, rfl, hst'⟩ := hres.stands
      obtain ⟨rest', rfl, hst''⟩ := ih hst'
      exact ⟨rest', (List.append_assoc _ _ _).symm, hst''⟩

/-- Nothing is left to be reported at the end of the directory. -/
theorem Stands.eq_nil {pos : Nat} {rest : List DirReport} (hst : Stands dir layout pos rest)
    (h : DirTiled dir layout) (hpos : pos = dir.blocks * dir.blocksize) : rest = [] := by
  cases hst with
  | stop => rfl
  | @record block o os hb hos ht =>
      have ho := (h.tiled block hb).lt_blocksize (hos.subset List.mem_cons_self)
      have hle := Nat.mul_le_mul_right dir.blocksize (Nat.succ_le_of_lt hb)
      rw [Nat.succ_mul] at hle
      omega

end

/-! ## Runs -/

/-- A directory, and the entries that were created and not deleted. -/
structure DirState where
  dir : TuxDir
  live : List DirReport

/-- The calls that change a directory. -/
inductive DirCall where
  | create (name : List UInt8) (inum mode : Nat)
  | delete (entry : DirReport)

namespace DirCall

/-- A call, and what it makes of the entries. -/
def exec (s : DirState) (io : DirIo) : DirCall → Except TuxError DirState
  | .create name inum mode => do
      let (dir, pos) ← tuxCreateEntry s.dir io name inum mode
      return ⟨dir, if pos < 0 then s.live else created name inum mode pos.toNat :: s.live⟩
  | .delete entry => do
      let (dir, err) ← tuxDeleteEntry s.dir io (entry.pos / s.dir.blocksize)
        (entry.pos % s.dir.blocksize)
      return ⟨dir, if err = 0 then s.live.erase entry else s.live⟩

/-- A name is new and has 1 to 255 bytes; an entry that is deleted is there. -/
def Valid (s : DirState) : DirCall → Prop
  | .create name _ _ =>
      0 < name.length ∧ name.length ≤ 255 ∧ name ∉ s.live.map DirReport.name
  | .delete entry => entry ∈ s.live

/-- The record of a new name is not longer than a block. -/
def Fits (s : DirState) : DirCall → Prop
  | .create name _ _ => tuxRecLen name.length ≤ s.dir.blocksize
  | .delete _ => True

instance (s : DirState) : (call : DirCall) → Decidable (call.Valid s)
  | .create _ _ _ => inferInstanceAs (Decidable (_ ∧ _ ∧ _))
  | .delete _ => inferInstanceAs (Decidable (_ ∈ _))

instance (s : DirState) : (call : DirCall) → Decidable (call.Fits s)
  | .create _ _ _ => inferInstanceAs (Decidable (_ ≤ _))
  | .delete _ => inferInstanceAs (Decidable True)

end DirCall

/-- The runs of a directory, from an empty one on. -/
def dirSystem : System DirState where
  init s := s.dir.blockbits ≤ 16 ∧ s.dir.size = 0 ∧ s.live = []
  next s s' := ∃ (io : DirIo) (call : DirCall), call.Valid s ∧ call.Fits s ∧
    call.exec s io = .ok s'

/-- The invariant: a listing reports the live entries, and no two of them have one name. -/
def DirInv (s : DirState) : Prop :=
  ∃ layout, DirTiled s.dir layout ∧ (listing s.dir layout).Perm s.live ∧
    (s.live.map DirReport.name).Nodup

section

variable {s : DirState}

theorem dirInv_init (hbits : s.dir.blockbits ≤ 16) (hsize : s.dir.size = 0)
    (hlive : s.live = []) : DirInv s := by
  have hblocks : s.dir.blocks = 0 := by
    unfold TuxDir.blocks
    rw [hsize, Nat.zero_div]
  refine ⟨fun _ => [], ⟨hbits, ?_, fun b hb => ?_⟩, ?_, ?_⟩
  · rw [hsize, Nat.zero_mod]
  · rw [hblocks] at hb
    exact absurd hb (Nat.not_lt_zero b)
  · unfold listing
    rw [hblocks, hlive]
    exact List.Perm.refl _
  · rw [hlive]
    exact List.nodup_nil

/-- The record of a live entry. -/
theorem DirTiled.record_of_mem {layout : Nat → List Nat} {entry : DirReport}
    (h : DirTiled s.dir layout) (hmem : entry ∈ listing s.dir layout) :
    entry.pos / s.dir.blocksize < s.dir.blocks ∧
      entry.pos % s.dir.blocksize ∈ layout (entry.pos / s.dir.blocksize) ∧
      (s.dir.data (entry.pos / s.dir.blocksize)
        (entry.pos % s.dir.blocksize)).isDeleted = false ∧
      report (s.dir.data (entry.pos / s.dir.blocksize)) s.dir.blocksize
        (entry.pos / s.dir.blocksize) (entry.pos % s.dir.blocksize) = entry := by
  obtain ⟨block, hb, o, ho, hlive, rfl⟩ := mem_listing.1 hmem
  obtain ⟨hdiv, hmod⟩ := pos_div_mod h hb ho
  unfold report
  dsimp only
  rw [hdiv, hmod]
  exact ⟨hb, ho, hlive, rfl⟩

/-- A call fails no assert and keeps the invariant. -/
theorem DirCall.exec_spec (h : DirInv s) (io : DirIo) {call : DirCall} (hvalid : call.Valid s)
    (hfits : call.Fits s) : ∃ s', call.exec s io = .ok s' ∧ DirInv s' := by
  obtain ⟨layout, htiled, hperm, hnodup⟩ := h
  cases call with
  | create name inum mode =>
      obtain ⟨hpos, -, hnew⟩ := hvalid
      obtain ⟨r, heq, hr⟩ := tuxCreateEntry_spec io inum mode htiled hpos hfits
      unfold DirCall.exec
      dsimp only
      rw [heq]
      refine ⟨_, rfl, ?_⟩
      cases hr with
      | readFailed hb hio => exact ⟨layout, htiled, hperm, hnodup⟩
      | dirtyFailed hio =>
          have hneg : -(io.dirtyErr : Int) < 0 := by omega
          dsimp only
          rw [if_pos hneg]
          exact ⟨layout, htiled, hperm, hnodup⟩
      | @inserted dir' layout' pos hins =>
          have hnonneg : ¬(pos : Int) < 0 := by omega
          dsimp only
          rw [if_neg hnonneg, Int.toNat_natCast]
          exact ⟨layout', hins.tiled, hins.listing_perm.trans (hperm.cons _),
            List.nodup_cons.2 ⟨hnew, hnodup⟩⟩
  | delete entry =>
      have hmem : entry ∈ s.live := hvalid
      obtain ⟨hb, ho, hlive, hreport⟩ := htiled.record_of_mem (hperm.mem_iff.2 hmem)
      obtain ⟨r, heq, hr⟩ := tuxDeleteEntry_spec io htiled hb ho hlive
      rw [hreport] at hr
      unfold DirCall.exec
      dsimp only
      rw [heq]
      refine ⟨_, rfl, ?_⟩
      cases hr with
      | dirtyFailed hio =>
          have hne : ¬-(io.dirtyErr : Int) = 0 := by omega
          dsimp only
          rw [if_neg hne]
          exact ⟨layout, htiled, hperm, hnodup⟩
      | @removed dir' layout' hrem =>
          have hsplit : s.live.Perm (entry :: s.live.erase entry) := List.perm_cons_erase hmem
          refine ⟨layout', hrem.tiled, ?_, ?_⟩
          · exact (hrem.listing_perm.symm.trans (hperm.trans hsplit)).cons_inv
          · exact hnodup.sublist (List.erase_sublist.map _)

/-- What `tux_find_entry` comes to. -/
inductive FindResult (s : DirState) (io : DirIo) (name : List UInt8) : Found → Prop
  | failed {block : Nat} (hb : block < s.dir.blocks) (hio : io.readFails block = true) :
      FindResult s io name (.failed (-eio))
  | missing (h : name ∉ s.live.map DirReport.name) : FindResult s io name (.failed (-enoent))
  | found {entry : DirReport} (hmem : entry ∈ s.live) (hname : entry.name = name)
      (hinum : (s.dir.data (entry.pos / s.dir.blocksize)
        (entry.pos % s.dir.blocksize)).inum = entry.inum) :
      FindResult s io name
        (.entry (entry.pos / s.dir.blocksize) (entry.pos % s.dir.blocksize))

/-- What holds of a directory: its blocks are tiled by their records, every live entry is
where it was created, no call fails an assert, a name is found exactly while it is live, and
a listing reports every live entry once. -/
structure DirSound (s : DirState) : Prop where
  tiled : ∀ block < s.dir.blocks, ∃ offs, BlockTiled (s.dir.data block) s.dir.blocksize offs
  nodup : (s.live.map DirReport.name).Nodup
  stays : ∀ entry ∈ s.live, ∃ record,
    s.dir.data (entry.pos / s.dir.blocksize) (entry.pos % s.dir.blocksize) = record ∧
      record.isDeleted = false ∧ record.name = entry.name ∧ record.inum = entry.inum
  call : ∀ (io : DirIo) (call : DirCall), call.Valid s → call.Fits s →
    ∃ s', call.exec s io = .ok s'
  find : ∀ (io : DirIo) (name : List UInt8), ∃ found,
    tuxFindEntry s.dir io name = .ok found ∧ FindResult s io name found
  readdir : ∀ reports, ReaddirPass s.dir 0 reports s.dir.size → reports.Perm s.live
  readdir_all : ∀ (io : DirIo) (room : Nat), (∀ block, io.readFails block = false) →
    s.live.length ≤ room → ∃ reports, tuxReaddir s.dir io 0 room = .ok (reports, s.dir.size, 0)

theorem DirTiled.size_eq {dir : TuxDir} {layout : Nat → List Nat} (h : DirTiled dir layout) :
    dir.blocks * dir.blocksize = dir.size :=
  Nat.div_mul_cancel (Nat.dvd_of_mod_eq_zero h.aligned)

/-- A record matches a name exactly if it is live and has the name. -/
theorem RecordOk.tuxMatch_iff {record : Dirent} {name : List UInt8} (h : RecordOk record) :
    record.tuxMatch name = true ↔ record.isDeleted = false ∧ record.name = name := by
  unfold Dirent.tuxMatch
  simp only [Bool.and_eq_true, beq_iff_eq, Bool.not_eq_true']
  constructor
  · rintro ⟨⟨-, hlive⟩, rfl⟩
    exact ⟨hlive, rfl⟩
  · rintro ⟨hlive, rfl⟩
    exact ⟨⟨h.name_length, hlive⟩, rfl⟩

theorem DirInv.find (h : DirInv s) (io : DirIo) (name : List UInt8) :
    ∃ found, tuxFindEntry s.dir io name = .ok found ∧ FindResult s io name found := by
  obtain ⟨layout, htiled, hperm, -⟩ := h
  obtain ⟨found, heq, hfound⟩ := @nameSearch_spec _ _ io name _ _ htiled
    (Nat.zero_add s.dir.blocks)
  refine ⟨found, heq, ?_⟩
  cases hfound with
  | failed hb hio => exact .failed hb hio
  | missing hmiss =>
      refine .missing fun hname => ?_
      obtain ⟨entry, hmem, rfl⟩ := List.mem_map.1 hname
      obtain ⟨hb, ho, hlive, hreport⟩ := htiled.record_of_mem (hperm.mem_iff.2 hmem)
      have hmatch := ((htiled.tiled _ hb).recordOk _ ho).tuxMatch_iff.2
        ⟨hlive, congrArg DirReport.name hreport⟩
      rw [hmiss _ (Nat.zero_le _) hb _ ho] at hmatch
      exact Bool.false_ne_true hmatch
  | @entry b o hb ho hmatch =>
      obtain ⟨hlive, hname⟩ := ((htiled.tiled b hb).recordOk o ho).tuxMatch_iff.1 hmatch
      have hmem : report (s.dir.data b) s.dir.blocksize b o ∈ s.live :=
        hperm.mem_iff.1 (mem_listing.2 ⟨b, hb, o, ho, hlive, rfl⟩)
      obtain ⟨hdiv, hmod⟩ := pos_div_mod htiled hb ho
      have hfound := @FindResult.found s io _ _ hmem hname
      dsimp only [report] at hfound
      rw [hdiv, hmod] at hfound
      exact hfound rfl

theorem DirInv.readdir (h : DirInv s) {reports : List DirReport}
    (hpass : ReaddirPass s.dir 0 reports s.dir.size) : reports.Perm s.live := by
  obtain ⟨layout, htiled, hperm, -⟩ := h
  have hstart := stands_block htiled (Nat.zero_le s.dir.blocks)
  rw [Nat.zero_mul] at hstart
  obtain ⟨rest, hall, hst⟩ := hpass.stands htiled hstart
  rw [hst.eq_nil htiled htiled.size_eq.symm, List.append_nil] at hall
  rw [← hall]
  exact hperm

theorem DirInv.readdir_all (h : DirInv s) {io : DirIo} {room : Nat}
    (hio : ∀ block, io.readFails block = false) (hroom : s.live.length ≤ room) :
    ∃ reports, tuxReaddir s.dir io 0 room = .ok (reports, s.dir.size, 0) := by
  obtain ⟨layout, htiled, hperm, -⟩ := h
  have hstart := stands_block htiled (Nat.zero_le s.dir.blocks)
  rw [Nat.zero_mul] at hstart
  obtain ⟨r, heq, hr⟩ := tuxReaddir_spec io room htiled hstart
  have hlen : (listing s.dir layout).length = s.live.length := hperm.length_eq
  cases hr with
  | done hle =>
      rw [htiled.size_eq] at heq
      exact ⟨_, heq⟩
  | lame hlt hst =>
      unfold listing at hlen
      rw [Nat.sub_zero] at hlt
      omega
  | failed hb hfail hall hst =>
      rw [hio] at hfail
      exact absurd hfail Bool.false_ne_true

theorem DirInv.sound (h : DirInv s) : DirSound s := by
  have hinv := h
  obtain ⟨layout, htiled, hperm, hnodup⟩ := h
  refine ⟨fun b hb => ⟨_, htiled.tiled b hb⟩, hnodup, fun entry hmem => ?_,
    fun io call hvalid hfits => ?_, hinv.find, fun _ => hinv.readdir,
    fun _ _ => hinv.readdir_all⟩
  · obtain ⟨hb, ho, hlive, hreport⟩ := htiled.record_of_mem (hperm.mem_iff.2 hmem)
    exact ⟨_, rfl, hlive, congrArg DirReport.name hreport, congrArg DirReport.inum hreport⟩
  · obtain ⟨s', heq, -⟩ := DirCall.exec_spec hinv io hvalid hfits
    exact ⟨s', heq⟩

theorem dirSystem_inv (h : dirSystem.Reachable s) : DirInv s := by
  refine h.invariant (I := DirInv) ?_ ?_
  · intro s ⟨hbits, hsize, hlive⟩
    exact dirInv_init hbits hsize hlive
  · intro s s' hinv ⟨io, call, hvalid, hfits, hexec⟩
    obtain ⟨t, heq, ht⟩ := DirCall.exec_spec hinv io hvalid hfits
    rw [hexec, Except.ok.injEq] at heq
    rw [heq]
    exact ht

/-- In every run whose names fit into a block, the directory is sound. -/
theorem dirSystem_sound (h : dirSystem.Reachable s) : DirSound s := (dirSystem_inv h).sound

end

/-- Buffers that never fail. -/
def goodIo : DirIo := ⟨fun _ => false, 0, by decide⟩

/-- An empty directory. -/
def emptyDir (blockbits : Nat) : TuxDir := ⟨blockbits, 0, fun _ _ => zeroDirent⟩

/-- A directory with two entries, one of them deleted again. -/
theorem dirSystem_sound_deleted : ∃ s, s.live = [created [98] 6 0o100644 16] ∧ DirSound s := by
  have hinit : dirSystem.Reachable ⟨emptyDir 12, []⟩ := .init ⟨by decide, rfl, rfl⟩
  have hone := hinit.next ⟨goodIo, .create [97] 5 0o40755, by decide, by decide, rfl⟩
  have htwo := hone.next ⟨goodIo, .create [98] 6 0o100644, by decide, by decide, rfl⟩
  have hdel := htwo.next ⟨goodIo, .delete (created [97] 5 0o40755 0), by decide, trivial, rfl⟩
  exact ⟨_, rfl, dirSystem_sound hdel⟩

/-- A name of 255 bytes in a block of 256: the record is shorter than the name needs, and the
name is not found. -/
theorem tuxCreateEntry_longName :
    ∃ dir', tuxCreateEntry (emptyDir 8) goodIo (List.replicate 255 97) 5 0o100644 =
        .ok (dir', 0) ∧
      (dir'.data 0 0).nameLen = 255 ∧ (dir'.data 0 0).len = 256 ∧ tuxRecLen 255 = 272 ∧
      tuxFindEntry dir' goodIo (List.replicate 255 97) = .ok (.failed (-enoent)) := by
  have hlen : (List.replicate 255 (97 : UInt8)).length = 255 := List.length_replicate
  generalize List.replicate 255 (97 : UInt8) = name at hlen ⊢
  have hfind : ∀ dir : TuxDir, dir.blockbits = 8 → dir.size = 256 →
      tuxFindEntry dir goodIo name = .ok (.failed (-enoent)) := by
    intro dir hbits hsize
    have hbs : dir.blocksize = 256 := by
      unfold TuxDir.blocksize
      rw [hbits]
      rfl
    have hblocks : dir.blocks = 1 := by
      unfold TuxDir.blocks
      rw [hbs, hsize]
    unfold tuxFindEntry
    rw [hblocks]
    unfold nameSearch nameScan
    rw [hbs, hlen]
    rfl
  exact ⟨_, rfl, hlen, rfl, rfl, hfind _ rfl rfl⟩

end Tux3.Dir
