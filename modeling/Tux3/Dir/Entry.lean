/-
  Dir/Entry.lean --- directory entries.

  A directory is a file of blocks, each a chain of records that lead from one to the next by
  their `rec_len`.  A block is modelled by the record that stands at each offset; that
  records do not overlap is a part of what is proved.
-/
import Mathlib.Logic.Function.Basic
import Tux3.Volume

set_option autoImplicit false

namespace Tux3.Dir

/-! ## Records -/

/-- `tux_dirent`.  `recLen` is the 16 bit field of the disk; `name` is the `nameLen` bytes of the
name. -/
structure Dirent where
  inum : Nat
  recLen : Nat
  nameLen : Nat
  type : Nat
  name : List UInt8
  deriving DecidableEq, Repr

/-- A record of zeros. -/
def zeroDirent : Dirent := ⟨0, 0, 0, 0, []⟩

/-- `TUX_DIR_ALIGN`. -/
def tuxDirAlign : Nat := 8

/-- `TUX_DIR_HEAD`. -/
def tuxDirHead : Nat := 12

/-- `TUX_REC_LEN`. -/
def tuxRecLen (nameLen : Nat) : Nat :=
  (nameLen + tuxDirHead + (tuxDirAlign - 1)) / tuxDirAlign * tuxDirAlign

/-- `tux_rec_len_from_disk`. -/
def tuxRecLenFromDisk (dlen : Nat) : Nat := if dlen = 2 ^ 16 - 1 then 2 ^ 16 else dlen

/-- `tux_rec_len_to_disk`. -/
def tuxRecLenToDisk (len : Nat) : Except TuxError Nat := do
  tuxAssert (len ≤ 2 ^ 16)
  return if len = 2 ^ 16 then 2 ^ 16 - 1 else len % 2 ^ 16

/-- `is_deleted`. -/
def Dirent.isDeleted (entry : Dirent) : Bool := entry.nameLen == 0

/-- `tux_match`. -/
def Dirent.tuxMatch (entry : Dirent) (name : List UInt8) : Bool :=
  name.length == entry.nameLen && !entry.isDeleted && name == entry.name

/-- The length of a record. -/
def Dirent.len (entry : Dirent) : Nat := tuxRecLenFromDisk entry.recLen

/-- The file type bits of a mode, `(mode & S_IFMT) >> STAT_SHIFT`. -/
def statType (mode : Nat) : Nat := mode / 2 ^ 12 % 2 ^ 4

/-- `tux_type_by_mode`: TUX_FIFO, TUX_CHR, TUX_DIR, TUX_BLK, TUX_REG, TUX_LNK, TUX_SOCK, or
TUX_UNKNOWN. -/
def tuxTypeByMode (mode : Nat) : Nat :=
  match statType mode with
  | 1 => 5
  | 2 => 3
  | 4 => 2
  | 6 => 4
  | 8 => 1
  | 10 => 7
  | 12 => 6
  | _ => 0

/-- `filetype`: the DT_ type that `readdir` reports. -/
def filetype (type : Nat) : Nat :=
  match type with
  | 1 => 8
  | 2 => 4
  | 3 => 2
  | 4 => 6
  | 5 => 1
  | 6 => 12
  | 7 => 10
  | _ => 0

/-- `readdir` reports the type that an entry was created with, where that is one. -/
theorem filetype_tuxTypeByMode (mode : Nat) :
    filetype (tuxTypeByMode mode) = statType mode ∨ filetype (tuxTypeByMode mode) = 0 := by
  have hlt : statType mode < 16 := Nat.mod_lt _ (by decide)
  unfold tuxTypeByMode
  split <;> simp_all [filetype]

/-! ## Directories -/

/-- The data of a directory block: the record at an offset. -/
abbrev DirBlock := Nat → Dirent

/-- A directory: its `i_size`, and its blocks. -/
structure TuxDir where
  blockbits : Nat
  size : Nat
  data : Nat → DirBlock

/-- `sb->blocksize`. -/
def TuxDir.blocksize (dir : TuxDir) : Nat := 2 ^ dir.blockbits

/-- The number of blocks. -/
def TuxDir.blocks (dir : TuxDir) : Nat := dir.size / dir.blocksize

/-- The record at an offset of a block is written. -/
def TuxDir.write (dir : TuxDir) (block offset : Nat) (entry : Dirent) : TuxDir :=
  { dir with data :=
      Function.update dir.data block (Function.update (dir.data block) offset entry) }

/-- What the buffers of the directory do during a call: which `blockread` fails, and the
error of `blockdirty`, which is never `-EAGAIN` there. -/
structure DirIo where
  readFails : Nat → Bool
  dirtyErr : Nat
  dirtyErr_ne : (dirtyErr : Int) ≠ eagain

/-! ## Creation -/

/-- How the walk over a block ends: at its end, at a record without a length, or at a record
that has room. -/
inductive RoomScan where
  | full
  | zeroLen
  | room (offset nameLen recLen : Nat)

/-- The walk of `tux_create_entry` over a block. -/
def roomScan (data : DirBlock) (blocksize reclen : Nat) :
    Nat → Nat → Except TuxError RoomScan
  | 0, _ => .error .fuel
  | fuel + 1, offset =>
      if offset + reclen ≤ blocksize then
        let entry := data offset
        if entry.recLen = 0 then .ok .zeroLen
        else
          let nameLen := tuxRecLen entry.nameLen
          let recLen := entry.len
          if entry.isDeleted && decide (reclen ≤ recLen) then .ok (.room offset nameLen recLen)
          else if nameLen + reclen ≤ recLen then .ok (.room offset nameLen recLen)
          else roomScan data blocksize reclen fuel (offset + recLen)
      else .ok .full

/-- What `tux_create_entry` finds: a failure, a record that has room, or that the directory
has to grow. -/
inductive RoomSearch where
  | failed (err : Int)
  | room (block offset nameLen recLen : Nat)
  | expand

/-- The walk of `tux_create_entry` over the blocks. -/
def roomSearch (dir : TuxDir) (io : DirIo) (reclen : Nat) :
    Nat → Nat → Except TuxError RoomSearch
  | 0, _ => return .expand
  | n + 1, block => do
      if io.readFails block then return .failed (-eio)
      match ← roomScan (dir.data block) dir.blocksize reclen (dir.blocksize + 1) 0 with
      | .zeroLen => return .failed (-eio)
      | .room offset nameLen recLen => return .room block offset nameLen recLen
      | .full => roomSearch dir io reclen n (block + 1)

/-- The new block of a directory that grows. -/
def TuxDir.expand (dir : TuxDir) : Except TuxError TuxDir := do
  let recLen ← tuxRecLenToDisk dir.blocksize
  let dir' := { dir with
    data := Function.update dir.data dir.blocks fun _ => zeroDirent
    size := dir.size + dir.blocksize }
  return dir'.write dir.blocks 0 { zeroDirent with recLen := recLen }

/-- Room is made at a record: a live one keeps what its name needs, and the rest becomes a
record of its own. -/
def TuxDir.split (dir : TuxDir) (block offset nameLen recLen : Nat) :
    Except TuxError (TuxDir × Nat) := do
  let entry := dir.data block offset
  if entry.isDeleted then return (dir, offset)
  let newRecLen ← tuxRecLenToDisk (recLen - nameLen)
  let entRecLen ← tuxRecLenToDisk nameLen
  let newOffset := offset + nameLen
  let newent := { dir.data block newOffset with recLen := newRecLen }
  return ((dir.write block newOffset newent).write block offset
    { entry with recLen := entRecLen }, newOffset)

/-- The name is put into a record, with what `tux_update_entry` writes. -/
def Dirent.fill (entry : Dirent) (name : List UInt8) (inum mode : Nat) : Dirent :=
  { entry with nameLen := name.length, name := name, inum := inum, type := tuxTypeByMode mode }

/-- The record of a new entry is filled. -/
def TuxDir.fillEntry (dir : TuxDir) (block offset : Nat) (name : List UInt8) (inum mode : Nat) :
    TuxDir :=
  dir.write block offset ((dir.data block offset).fill name inum mode)

/-- `tux_create_entry`: the position of the entry, or an error. -/
def tuxCreateEntry (dir : TuxDir) (io : DirIo) (name : List UInt8) (inum mode : Nat) :
    Except TuxError (TuxDir × Int) := do
  match ← roomSearch dir io (tuxRecLen name.length) dir.blocks 0 with
  | .failed err => return (dir, err)
  | .expand =>
      tuxAssert ((io.dirtyErr : Int) ≠ eagain)
      if io.dirtyErr ≠ 0 then return (dir, -io.dirtyErr)
      let dir' ← dir.expand
      return (dir'.fillEntry dir.blocks 0 name inum mode, dir.blocks * dir.blocksize)
  | .room block offset nameLen recLen =>
      tuxAssert ((io.dirtyErr : Int) ≠ eagain)
      if io.dirtyErr ≠ 0 then return (dir, -io.dirtyErr)
      let (dir', offset) ← dir.split block offset nameLen recLen
      return (dir'.fillEntry block offset name inum mode, block * dir.blocksize + offset)

/-! ## Search -/

/-- How the search of a block ends. -/
inductive NameScan where
  | missing
  | zeroLen
  | found (offset : Nat)

/-- The walk of `tux_find_entry` over a block. -/
def nameScan (data : DirBlock) (blocksize : Nat) (name : List UInt8) :
    Nat → Nat → Except TuxError NameScan
  | 0, _ => .error .fuel
  | fuel + 1, offset =>
      if offset + tuxRecLen name.length ≤ blocksize then
        let entry := data offset
        if entry.recLen = 0 then .ok .zeroLen
        else if entry.tuxMatch name then .ok (.found offset)
        else nameScan data blocksize name fuel (offset + entry.len)
      else .ok .missing

/-- What `tux_find_entry` returns: an error, or a record of a block. -/
inductive Found where
  | failed (err : Int)
  | entry (block offset : Nat)
  deriving DecidableEq

/-- The walk of `tux_find_entry` over the blocks. -/
def nameSearch (dir : TuxDir) (io : DirIo) (name : List UInt8) :
    Nat → Nat → Except TuxError Found
  | 0, _ => return .failed (-enoent)
  | n + 1, block => do
      if io.readFails block then return .failed (-eio)
      match ← nameScan (dir.data block) dir.blocksize name (dir.blocksize + 1) 0 with
      | .zeroLen => return .failed (-eio)
      | .found offset => return .entry block offset
      | .missing => nameSearch dir io name n (block + 1)

/-- `tux_find_entry`. -/
def tuxFindEntry (dir : TuxDir) (io : DirIo) (name : List UInt8) : Except TuxError Found :=
  nameSearch dir io name dir.blocks 0

/-! ## Deletion -/

/-- The walk of `tux_delete_entry` to an entry: the record before it, unless there is a record
without a length on the way. -/
def prevScan (data : DirBlock) (entry : Nat) :
    Nat → Nat → Option Nat → Except TuxError (Option (Option Nat))
  | 0, _, _ => .error .fuel
  | fuel + 1, this, prev =>
      if this < entry then
        if (data this).recLen = 0 then .ok none
        else prevScan data entry fuel (this + (data this).len) (some this)
      else .ok (some prev)

/-- What `tux_delete_entry` makes of the entry. -/
def Dirent.clear (entry : Dirent) : Dirent :=
  { entry with inum := 0, nameLen := 0, type := 0, name := [] }

/-- `tux_delete_entry`. -/
def tuxDeleteEntry (dir : TuxDir) (io : DirIo) (block offset : Nat) :
    Except TuxError (TuxDir × Int) := do
  match ← prevScan (dir.data block) offset (offset + 1) 0 none with
  | none => return (dir, -eio)
  | some prev =>
      tuxAssert ((io.dirtyErr : Int) ≠ eagain)
      if io.dirtyErr ≠ 0 then return (dir, -io.dirtyErr)
      let entry := dir.data block offset
      let dir' ← match prev with
        | none => pure dir
        | some prev => do
            let recLen ← tuxRecLenToDisk (offset + entry.len - prev)
            pure (dir.write block prev { dir.data block prev with recLen := recLen })
      return (dir'.write block offset entry.clear, 0)

/-! ## Listing -/

/-- What `filldir` is given: the name, the position, the inode number and the type. -/
structure DirReport where
  name : List UInt8
  pos : Nat
  inum : Nat
  type : Nat
  deriving DecidableEq

/-- How the walk of `tux_readdir` over a block ends: at its end, where `filldir` takes no
more, or at a record without a length. -/
inductive ReaddirEnd where
  | next
  | lame
  | zeroLen
  deriving DecidableEq

/-- The walk of `tux_readdir` over a block; `filldir` takes `room` more entries.  Returns the
end, the reports, `f_pos` and the room that is left. -/
def readdirBlock (data : DirBlock) (blocksize block : Nat) :
    Nat → Nat → Nat → Nat → Except TuxError (ReaddirEnd × List DirReport × Nat × Nat)
  | 0, _, _, _ => .error .fuel
  | fuel + 1, offset, pos, room =>
      if offset + tuxRecLen 1 ≤ blocksize then
        let entry := data offset
        if entry.recLen = 0 then .ok (.zeroLen, [], pos, room)
        else if entry.isDeleted then
          readdirBlock data blocksize block fuel (offset + entry.len) (pos + entry.len) room
        else
          match room with
          | 0 => .ok (.lame, [], pos, 0)
          | room + 1 => do
              let (stop, reports, pos, room) ← readdirBlock data blocksize block fuel
                (offset + entry.len) (pos + entry.len) room
              return (stop,
                ⟨entry.name, block * blocksize + offset, entry.inum, filetype entry.type⟩ ::
                  reports, pos, room)
      else .ok (.next, [], pos, room)

/-- The walk of `tux_readdir` over the blocks: the reports, `f_pos` and the error. -/
def readdirBlocks (dir : TuxDir) (io : DirIo) :
    Nat → Nat → Nat → Nat → Nat → Except TuxError (List DirReport × Nat × Int)
  | 0, _, _, pos, _ => return ([], pos, 0)
  | n + 1, block, offset, pos, room => do
      if io.readFails block then return ([], pos, -eio)
      let (stop, reports, pos, room) ← readdirBlock (dir.data block) dir.blocksize block
        (dir.blocksize + 1) offset pos room
      match stop with
      | .zeroLen => return (reports, pos, -eio)
      | .lame => return (reports, pos, 0)
      | .next => do
          let (reports', pos, err) ← readdirBlocks dir io n (block + 1) 0 pos room
          return (reports ++ reports', pos, err)

/-- `tux_readdir` from `f_pos` on.  Where the directory changed since the last call the code
validates the offset, but begins that at the offset itself, so that it stays as it is. -/
def tuxReaddir (dir : TuxDir) (io : DirIo) (pos room : Nat) :
    Except TuxError (List DirReport × Nat × Int) := do
  tuxAssert (dir.size % dir.blocksize = 0)
  let block := pos / dir.blocksize
  readdirBlocks dir io (dir.blocks - block) block (pos % dir.blocksize) pos room

end Tux3.Dir
