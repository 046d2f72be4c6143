/-
  Namei.lean --- the directory operations, and the link counts they keep by hand.

  `tux3_mknod`, `tux3_link`, `tux3_symlink`, `tux3_unlink`, `tux3_rmdir` and `tux3_rename`
  change directory entries and `i_nlink` one after the other.  A directory has a link for
  its own entry, one for itself, and one for every subdirectory; anything else has one for
  every entry.  The lookups and the type checks of the VFS are preconditions.
-/
import Mathlib.Data.List.Nodup
import Tux3.Volume
import Tux3.Lib.Outcome
import Tux3.Lib.System

set_option autoImplicit false

namespace Tux3

open Outcome (bind_eq_ok)

/-! ## State -/

/-- `TUX_LINK_MAX`. -/
def tuxLinkMax : Nat := 2 ^ 15

/-- `PAGE_CACHE_SIZE`. -/
def pageCacheSize : Nat := 4096

/-- The inode number of the root directory. -/
def tuxRootdirIno : Nat := 3

/-- The name of a `struct qstr`. -/
abbrev Qstr : Type := List Nat

/-- A directory entry: the directory, the name in it, and the inode it names. -/
structure Dirent where
  dir : Nat
  name : Qstr
  inum : Nat
  deriving DecidableEq, Repr

/-- The inodes in use, which of them are directories, `i_nlink`, and all directory entries.
The order of the entries is not modelled. -/
structure NameiSb where
  inUse : Nat → Bool
  isDir : Nat → Bool
  iNlink : Nat → Nat
  dirents : List Dirent

/-- What an operation may return: its own errors, and those of the layers below. -/
inductive Errno where
  | emlink
  | enametoolong
  | enoent
  | enotempty
  | eio
  deriving DecidableEq, Repr

/-! ## Code -/

/-- `inc_nlink`. -/
def incNlink (sb : NameiSb) (inum : Nat) : NameiSb :=
  { sb with iNlink := Function.update sb.iNlink inum (sb.iNlink inum + 1) }

/-- `drop_nlink`. -/
def dropNlink (sb : NameiSb) (inum : Nat) : Except TuxError NameiSb := do
  tuxAssert (0 < sb.iNlink inum)
  return { sb with iNlink := Function.update sb.iNlink inum (sb.iNlink inum - 1) }

/-- `clear_nlink`. -/
def clearNlink (sb : NameiSb) (inum : Nat) : NameiSb :=
  { sb with iNlink := Function.update sb.iNlink inum 0 }

/-- `tux_create_inode`: `inode_init_always` sets one link, and a directory has one more. -/
def tuxCreateInode (sb : NameiSb) (inum : Nat) (isDir : Bool) : NameiSb :=
  { sb with
    inUse := Function.update sb.inUse inum true
    isDir := Function.update sb.isDir inum isDir
    iNlink := Function.update sb.iNlink inum (if isDir then 2 else 1) }

/-- `tux_create_dirent`. -/
def tuxCreateDirent (sb : NameiSb) (dir : Nat) (name : Qstr) (inum : Nat) : NameiSb :=
  { sb with dirents := ⟨dir, name, inum⟩ :: sb.dirents }

/-- `tux_find_dirent`. -/
def tuxFindDirent (sb : NameiSb) (dir : Nat) (name : Qstr) : Option Dirent :=
  sb.dirents.find? fun e => e.dir = dir ∧ e.name = name

/-- `tux_delete_dirent`. -/
def tuxDeleteDirent (sb : NameiSb) (entry : Dirent) : NameiSb :=
  { sb with dirents := sb.dirents.erase entry }

/-- `tux_update_dirent`. -/
def tuxUpdateDirent (sb : NameiSb) (entry : Dirent) (inum : Nat) : NameiSb :=
  { sb with dirents := { entry with inum := inum } :: sb.dirents.erase entry }

/-- The entries `.` and `..` do not count in `tux_dir_is_empty`. -/
def isDotEntry (self : Nat) (e : Dirent) : Prop :=
  (e.name = [46] ∧ e.inum = self) ∨ e.name = [46, 46]

instance (self : Nat) (e : Dirent) : Decidable (isDotEntry self e) :=
  inferInstanceAs (Decidable (_ ∨ _))

/-- `tux_dir_is_empty`. -/
def tuxDirIsEmpty (sb : NameiSb) (inum : Nat) : Prop :=
  ∀ e ∈ sb.dirents, e.dir = inum → isDotEntry inum e

instance (sb : NameiSb) (inum : Nat) : Decidable (tuxDirIsEmpty sb inum) :=
  inferInstanceAs (Decidable (∀ e ∈ _, _))

/-- `__tux3_mknod`.  `inum` is what the inode allocation came up with, if anything;
`addErr` says that `tux_add_dirent` fails. -/
def tux3Mknod (sb : NameiSb) (dir : Nat) (name : Qstr) (isDir : Bool) (inum : Option Nat)
    (addErr : Bool) : NameiSb × Option Errno :=
  if isDir ∧ tuxLinkMax ≤ sb.iNlink dir then (sb, some .emlink)
  else
    match inum with
    | none => (sb, some .eio)
    | some inum =>
        let sb := tuxCreateInode sb inum isDir
        if addErr then (clearNlink sb inum, some .eio)
        else
          let sb := tuxCreateDirent sb dir name inum
          (if isDir then incNlink sb dir else sb, none)

/-- `tux3_link`. -/
def tux3Link (sb : NameiSb) (inum dir : Nat) (name : Qstr) (addErr : Bool) :
    Except TuxError (NameiSb × Option Errno) := do
  if tuxLinkMax ≤ sb.iNlink inum then return (sb, some .emlink)
  else
    let sb := incNlink sb inum
    if addErr then
      let sb ← dropNlink sb inum
      return (sb, some .eio)
    else return (tuxCreateDirent sb dir name inum, none)

/-- `__tux3_symlink`. -/
def tux3Symlink (sb : NameiSb) (dir : Nat) (name symname : Qstr) (inum : Option Nat)
    (pageErr addErr : Bool) : Except TuxError (NameiSb × Option Errno) := do
  if pageCacheSize < symname.length + 1 then return (sb, some .enametoolong)
  else
    match inum with
    | none => return (sb, some .eio)
    | some inum =>
        let sb := tuxCreateInode sb inum false
        if pageErr ∨ addErr then
          let sb ← dropNlink sb inum
          return (sb, some .eio)
        else return (tuxCreateDirent sb dir name inum, none)

/-- `tux_del_dirent`. -/
def tuxDelDirent (sb : NameiSb) (dir : Nat) (name : Qstr) (delErr : Bool) :
    NameiSb × Option Errno :=
  match tuxFindDirent sb dir name with
  | none => (sb, some .enoent)
  | some entry => if delErr then (sb, some .eio) else (tuxDeleteDirent sb entry, none)

/-- `tux3_unlink`. -/
def tux3Unlink (sb : NameiSb) (dir : Nat) (name : Qstr) (inum : Nat) (delErr : Bool) :
    Except TuxError (NameiSb × Option Errno) := do
  let (sb, err) := tuxDelDirent sb dir name delErr
  if err ≠ none then return (sb, err)
  else
    let sb ← dropNlink sb inum
    return (sb, none)

/-- `tux3_rmdir`. -/
def tux3Rmdir (sb : NameiSb) (dir : Nat) (name : Qstr) (inum : Nat) (emptyErr delErr : Bool) :
    Except TuxError (NameiSb × Option Errno) := do
  if emptyErr then return (sb, some .eio)
  else if ¬tuxDirIsEmpty sb inum then return (sb, some .enotempty)
  else
    let (sb, err) := tuxDelDirent sb dir name delErr
    if err ≠ none then return (sb, err)
    else
      let sb := clearNlink sb inum
      let sb ← dropNlink sb dir
      return (sb, none)

/-- Which of the calls of `tux3_rename` fail: the search for the old entry, the scan of the
target directory, the search for the new entry and its `blockdirty`, the new entry, and the
deletion of the old one. -/
structure RenameErrs where
  findErr : Bool
  emptyErr : Bool
  targetErr : Bool
  addErr : Bool
  delErr : Bool
  deriving DecidableEq, Repr, Inhabited

/-- The part of `tux3_rename` that makes the new entry; `new` is the inode it replaces. -/
def renameTarget (sb : NameiSb) (oldDir old newDir : Nat) (newName : Qstr) (new : Option Nat)
    (errs : RenameErrs) : Except TuxError (NameiSb × Option Errno) := do
  match new with
  | some new =>
      if sb.isDir old ∧ errs.emptyErr then return (sb, some .eio)
      else if sb.isDir old ∧ ¬tuxDirIsEmpty sb new then return (sb, some .enotempty)
      else if errs.targetErr then return (sb, some .eio)
      else
        match tuxFindDirent sb newDir newName with
        | none => .error .assertion
        | some entry =>
            let sb := tuxUpdateDirent sb entry old
            let sb ← if sb.isDir old then dropNlink sb new else .ok sb
            let sb ← dropNlink sb new
            return (sb, none)
  | none =>
      let newSubdir := sb.isDir old ∧ newDir ≠ oldDir
      if newSubdir ∧ tuxLinkMax ≤ sb.iNlink newDir then return (sb, some .emlink)
      else if errs.addErr then return (sb, some .eio)
      else
        let sb := tuxCreateDirent sb newDir newName old
        return (if newSubdir then incNlink sb newDir else sb, none)

/-- `tux3_rename`. -/
def tux3Rename (sb : NameiSb) (oldDir : Nat) (oldName : Qstr) (old newDir : Nat)
    (newName : Qstr) (new : Option Nat) (errs : RenameErrs) :
    Except TuxError (NameiSb × Option Errno) := do
  if errs.findErr then return (sb, some .eio)
  else
    match tuxFindDirent sb oldDir oldName with
    | none => return (sb, some .enoent)
    | some entry =>
        tuxAssert (entry.inum = old)
        let newSubdir := new = none ∧ sb.isDir old ∧ newDir ≠ oldDir
        let (sb, err) ← renameTarget sb oldDir old newDir newName new errs
        if err ≠ none then return (sb, err)
        else if errs.delErr then return (incNlink sb old, some .eio)
        else
          let sb := tuxDeleteDirent sb entry
          let sb ← if newSubdir then dropNlink sb oldDir else .ok sb
          return (sb, none)

/-- An inode without links is deleted, and its number can be used again. -/
def tuxPurge (sb : NameiSb) (inum : Nat) : NameiSb :=
  { sb with inUse := Function.update sb.inUse inum false }

/-! ## The system -/

/-- The operations, with what the layers below answer. -/
inductive NameiOp where
  | mknod (dir : Nat) (name : Qstr) (isDir : Bool) (inum : Option Nat) (addErr : Bool)
  | link (inum dir : Nat) (name : Qstr) (addErr : Bool)
  | symlink (dir : Nat) (name symname : Qstr) (inum : Option Nat) (pageErr addErr : Bool)
  | unlink (dir : Nat) (name : Qstr) (inum : Nat) (delErr : Bool)
  | rmdir (dir : Nat) (name : Qstr) (inum : Nat) (emptyErr delErr : Bool)
  | rename (oldDir : Nat) (oldName : Qstr) (old newDir : Nat) (newName : Qstr)
      (new : Option Nat) (errs : RenameErrs)
  | purge (inum : Nat)

/-- One operation. -/
def nameiStep (sb : NameiSb) : NameiOp → Except TuxError (NameiSb × Option Errno)
  | .mknod dir name isDir inum addErr => .ok (tux3Mknod sb dir name isDir inum addErr)
  | .link inum dir name addErr => tux3Link sb inum dir name addErr
  | .symlink dir name symname inum pageErr addErr =>
      tux3Symlink sb dir name symname inum pageErr addErr
  | .unlink dir name inum delErr => tux3Unlink sb dir name inum delErr
  | .rmdir dir name inum emptyErr delErr => tux3Rmdir sb dir name inum emptyErr delErr
  | .rename oldDir oldName old newDir newName new errs =>
      tux3Rename sb oldDir oldName old newDir newName new errs
  | .purge inum => .ok (tuxPurge sb inum, none)

/-- The number of entries that name an inode. -/
def entriesOf (sb : NameiSb) (inum : Nat) : Nat :=
  sb.dirents.countP fun e => e.inum = inum

/-- The number of entries of a directory that name directories. -/
def subdirsOf (sb : NameiSb) (dir : Nat) : Nat :=
  sb.dirents.countP fun e => e.dir = dir && sb.isDir e.inum

/-- A directory that is the root or has an entry. -/
def LiveDir (sb : NameiSb) (dir : Nat) : Prop :=
  sb.inUse dir = true ∧ sb.isDir dir = true ∧ (dir = tuxRootdirIno ∨ 0 < entriesOf sb dir)

instance (sb : NameiSb) (dir : Nat) : Decidable (LiveDir sb dir) :=
  inferInstanceAs (Decidable (_ ∧ _ ∧ _))

/-- The name is that of an entry the VFS can create: not `.` or `..`, and not there. -/
def CanCreate (sb : NameiSb) (dir : Nat) (name : Qstr) : Prop :=
  LiveDir sb dir ∧ name ≠ [46] ∧ name ≠ [46, 46] ∧
    ∀ e ∈ sb.dirents, ¬(e.dir = dir ∧ e.name = name)

instance (sb : NameiSb) (dir : Nat) (name : Qstr) : Decidable (CanCreate sb dir name) :=
  inferInstanceAs (Decidable (_ ∧ _ ∧ _ ∧ _))

/-- What the VFS supplies: live directories, new names or dentries that exist, types that fit
the operation, and free inode numbers. -/
def NameiAllowed (sb : NameiSb) : NameiOp → Prop
  | .mknod dir name _ inum _ => CanCreate sb dir name ∧ ∀ i ∈ inum, sb.inUse i = false
  | .link inum dir name _ =>
      CanCreate sb dir name ∧ sb.inUse inum = true ∧ sb.isDir inum = false ∧ 0 < sb.iNlink inum
  | .symlink dir name _ inum _ _ => CanCreate sb dir name ∧ ∀ i ∈ inum, sb.inUse i = false
  | .unlink dir name inum _ => ⟨dir, name, inum⟩ ∈ sb.dirents ∧ sb.isDir inum = false
  | .rmdir dir name inum _ _ => ⟨dir, name, inum⟩ ∈ sb.dirents ∧ sb.isDir inum = true
  | .rename oldDir oldName old newDir newName new _ =>
      ⟨oldDir, oldName, old⟩ ∈ sb.dirents ∧ LiveDir sb newDir ∧
        match new with
        | none => CanCreate sb newDir newName
        | some new =>
            ⟨newDir, newName, new⟩ ∈ sb.dirents ∧ new ≠ old ∧ sb.isDir new = sb.isDir old
  | .purge inum => inum ≠ tuxRootdirIno ∧ sb.inUse inum = true ∧ sb.iNlink inum = 0

/-- A volume with an empty root directory. -/
def mkfsNamei : NameiSb where
  inUse inum := inum = tuxRootdirIno
  isDir inum := inum = tuxRootdirIno
  iNlink inum := if inum = tuxRootdirIno then 2 else 0
  dirents := []

/-- All runs. -/
def nameiSystem : System NameiSb where
  init sb := sb = mkfsNamei
  next sb sb' := ∃ op err, NameiAllowed sb op ∧ nameiStep sb op = .ok (sb', err)

/-- What the link counts should be. -/
structure LinkCounts (sb : NameiSb) : Prop where
  dirs : ∀ dir, LiveDir sb dir → sb.iNlink dir = 2 + subdirsOf sb dir
  others : ∀ inum, sb.inUse inum = true → sb.isDir inum = false →
    sb.iNlink inum = entriesOf sb inum
  removed : ∀ inum, sb.inUse inum = true → inum ≠ tuxRootdirIno → entriesOf sb inum = 0 →
    sb.iNlink inum = 0

/-- A rename of a directory replaces no directory, and the deletion of its old entry does
not fail, unless it stops before. -/
def NameiOpOk (sb : NameiSb) : NameiOp → Prop
  | .rename oldDir _ old newDir _ new errs => sb.isDir old = true → errs.findErr = false →
      match new with
      | none => errs.delErr = false ∨ errs.addErr = true ∨
          (newDir ≠ oldDir ∧ tuxLinkMax ≤ sb.iNlink newDir)
      | some new => errs.emptyErr = true ∨ errs.targetErr = true ∨ ¬tuxDirIsEmpty sb new
  | _ => True

/-- The runs all of whose renames are such. -/
def nameiSystemOk : System NameiSb where
  init sb := sb = mkfsNamei
  next sb sb' := ∃ op err, NameiOpOk sb op ∧ NameiAllowed sb op ∧
    nameiStep sb op = .ok (sb', err)

/-! ## Counting entries -/

section Counts

variable {sb : NameiSb}

/-- Removing an entry takes one from the counts that have it. -/
theorem countP_erase {entries : List Dirent} {e : Dirent} (he : e ∈ entries)
    (p : Dirent → Bool) :
    entries.countP p = (entries.erase e).countP p + if p e then 1 else 0 := by
  rw [(List.perm_cons_erase he).countP_eq p, List.countP_cons]

theorem entriesOf_create (sb : NameiSb) (dir : Nat) (name : Qstr) (inum i : Nat) :
    entriesOf (tuxCreateDirent sb dir name inum) i =
      entriesOf sb i + if inum = i then 1 else 0 := by
  simp [entriesOf, tuxCreateDirent, List.countP_cons]

theorem subdirsOf_create (sb : NameiSb) (dir : Nat) (name : Qstr) (inum d : Nat) :
    subdirsOf (tuxCreateDirent sb dir name inum) d =
      subdirsOf sb d + if dir = d ∧ sb.isDir inum = true then 1 else 0 := by
  simp [subdirsOf, tuxCreateDirent, List.countP_cons]

theorem entriesOf_delete {e : Dirent} (he : e ∈ sb.dirents) (i : Nat) :
    entriesOf sb i = entriesOf (tuxDeleteDirent sb e) i + if e.inum = i then 1 else 0 := by
  simpa [entriesOf, tuxDeleteDirent] using countP_erase he fun e => decide (e.inum = i)

theorem subdirsOf_delete {e : Dirent} (he : e ∈ sb.dirents) (d : Nat) :
    subdirsOf sb d = subdirsOf (tuxDeleteDirent sb e) d +
      if e.dir = d ∧ sb.isDir e.inum = true then 1 else 0 := by
  simpa [subdirsOf, tuxDeleteDirent] using
    countP_erase he fun e => decide (e.dir = d) && sb.isDir e.inum

theorem entriesOf_pos_of_mem {e : Dirent} (he : e ∈ sb.dirents) : 0 < entriesOf sb e.inum := by
  rw [entriesOf_delete he, if_pos rfl]
  exact Nat.succ_pos _

/-- An inode with no entries is named by none. -/
theorem ne_of_entriesOf_eq_zero {i : Nat} (h : entriesOf sb i = 0) {e : Dirent}
    (he : e ∈ sb.dirents) : e.inum ≠ i := by
  rintro rfl
  exact absurd h (Nat.pos_iff_ne_zero.mp (entriesOf_pos_of_mem he))

theorem subdirsOf_eq_zero {d : Nat} (h : ∀ e ∈ sb.dirents, e.dir ≠ d) : subdirsOf sb d = 0 := by
  rw [subdirsOf, List.countP_eq_zero]
  intro e he
  simp [h e he]

end Counts

/-! ## The invariant -/

/-- The link counts are right, names are unique, the directories of the entries are live,
and a directory has one entry at most. -/
structure NameiInv (sb : NameiSb) : Prop where
  keys : (sb.dirents.map fun e => (e.dir, e.name)).Nodup
  names : ∀ e ∈ sb.dirents, e.name ≠ [46] ∧ e.name ≠ [46, 46]
  parent : ∀ e ∈ sb.dirents, LiveDir sb e.dir
  child : ∀ e ∈ sb.dirents, sb.inUse e.inum = true
  files : ∀ i, sb.inUse i = true → sb.isDir i = false → sb.iNlink i = entriesOf sb i
  dirs : ∀ d, LiveDir sb d → sb.iNlink d = 2 + subdirsOf sb d
  dead : ∀ d, sb.inUse d = true → sb.isDir d = true → d ≠ tuxRootdirIno →
    entriesOf sb d = 0 → sb.iNlink d = 0
  once : ∀ d, sb.isDir d = true → d ≠ tuxRootdirIno → entriesOf sb d ≤ 1
  root : sb.inUse tuxRootdirIno = true ∧ sb.isDir tuxRootdirIno = true ∧
    entriesOf sb tuxRootdirIno = 0

theorem NameiInv.linkCounts {sb : NameiSb} (h : NameiInv sb) : LinkCounts sb where
  dirs := h.dirs
  others := h.files
  removed := by
    intro i huse hroot hzero
    cases hdir : sb.isDir i with
    | false => rw [h.files i huse hdir, hzero]
    | true => exact h.dead i huse hdir hroot hzero

theorem mkfsNamei_inv : NameiInv mkfsNamei := by
  refine ⟨.nil, ?_, ?_, ?_, ?_, ?_, ?_, ?_, ?_⟩
  all_goals simp [mkfsNamei, entriesOf, subdirsOf, LiveDir]

/-- The lookup of a name finds its entry. -/
theorem NameiInv.find {sb : NameiSb} (h : NameiInv sb) {e : Dirent} (he : e ∈ sb.dirents) :
    tuxFindDirent sb e.dir e.name = some e := by
  have hkeys := h.keys
  unfold tuxFindDirent
  generalize sb.dirents = entries at hkeys he
  induction entries with
  | nil => cases he
  | cons x xs ih =>
      rw [List.map_cons, List.nodup_cons] at hkeys
      by_cases hx : x = e
      · simp [hx]
      · have hmem : e ∈ xs := (List.mem_cons.mp he).resolve_left (Ne.symm hx)
        have hne : ¬(x.dir = e.dir ∧ x.name = e.name) := by
          rintro ⟨hdir, hname⟩
          refine hkeys.1 (List.mem_map.mpr ⟨e, hmem, ?_⟩)
          rw [hdir, hname]
        rw [List.find?_cons_of_neg (by simpa using hne)]
        exact ih hkeys.2 hmem

/-- An empty directory has no entries at all. -/
theorem NameiInv.empty {sb : NameiSb} (h : NameiInv sb) {d : Nat} (hempty : tuxDirIsEmpty sb d) :
    ∀ e ∈ sb.dirents, e.dir ≠ d := by
  intro e he hdir
  rcases hempty e he hdir with hdot | hdot
  · exact (h.names e he).1 hdot.1
  · exact (h.names e he).2 hdot

/-! ## What the operations are made of -/

section Moves

variable {sb : NameiSb}

/-- A new inode that has no entry and no link. -/
theorem NameiInv.fresh (h : NameiInv sb) {i : Nat} (hfree : sb.inUse i = false) (isDir : Bool) :
    NameiInv (clearNlink (tuxCreateInode sb i isDir) i) := by
  have hne : ∀ e ∈ sb.dirents, e.inum ≠ i := by
    rintro e he rfl
    exact Bool.noConfusion (hfree.symm.trans (h.child e he))
  have hroot : i ≠ tuxRootdirIno := by
    rintro rfl
    exact Bool.noConfusion (hfree.symm.trans h.root.1)
  have hzero : entriesOf sb i = 0 := by
    rw [entriesOf, List.countP_eq_zero]
    intro e he
    simp [hne e he]
  let sb' := clearNlink (tuxCreateInode sb i isDir) i
  have huse : ∀ j, j ≠ i → sb'.inUse j = sb.inUse j := fun j hj => Function.update_of_ne hj _ _
  have hdir : ∀ j, j ≠ i → sb'.isDir j = sb.isDir j := fun j hj => Function.update_of_ne hj _ _
  have hlink : ∀ j, j ≠ i → sb'.iNlink j = sb.iNlink j := fun j hj =>
    (Function.update_of_ne hj _ _).trans (Function.update_of_ne hj _ _)
  have hself : sb'.iNlink i = 0 := Function.update_self _ _ _
  have hsub : ∀ d, subdirsOf sb' d = subdirsOf sb d := fun d =>
    List.countP_congr fun e he => by rw [hdir e.inum (hne e he)]
  have hlive : ∀ d, LiveDir sb' d ↔ LiveDir sb d := fun d => by
    by_cases hd : d = i
    · subst hd
      have hnot : ¬(d = tuxRootdirIno ∨ 0 < entriesOf sb d) := by simp [hroot, hzero]
      exact ⟨fun hl => absurd hl.2.2 hnot, fun hl => absurd hl.2.2 hnot⟩
    · rw [LiveDir, LiveDir, huse d hd, hdir d hd]
      rfl
  refine ⟨h.keys, h.names, fun e he => (hlive _).mpr (h.parent e he), fun e he => ?_,
    fun j hj hfile => ?_, fun d hd => ?_, fun d hd hisdir hdroot hdzero => ?_,
    fun d hisdir hdroot => ?_, ?_⟩
  · exact (huse _ (hne e he)).trans (h.child e he)
  · by_cases hji : j = i
    · subst hji
      exact hself.trans hzero.symm
    · exact (hlink j hji).trans (h.files j (huse j hji ▸ hj) (hdir j hji ▸ hfile))
  · have hd' := (hlive d).mp hd
    have hdi : d ≠ i := by
      rintro rfl
      exact Bool.noConfusion (hfree.symm.trans hd'.1)
    exact (hlink d hdi).trans ((h.dirs d hd').trans (by rw [hsub]))
  · by_cases hdi : d = i
    · subst hdi
      exact hself
    · exact (hlink d hdi).trans (h.dead d (huse d hdi ▸ hd) (hdir d hdi ▸ hisdir) hdroot hdzero)
  · by_cases hdi : d = i
    · subst hdi
      exact Nat.le_of_eq hzero |>.trans (Nat.zero_le 1)
    · exact h.once d (hdir d hdi ▸ hisdir) hdroot
  · exact ⟨(huse _ hroot.symm).trans h.root.1, (hdir _ hroot.symm).trans h.root.2.1, h.root.2.2⟩

/-- One more entry of something that is no directory. -/
theorem NameiInv.addFile (h : NameiInv sb) {dir i : Nat} {name : Qstr}
    (hcreate : CanCreate sb dir name) (huse : sb.inUse i = true) (hfile : sb.isDir i = false) :
    NameiInv (tuxCreateDirent (incNlink sb i) dir name i) := by
  obtain ⟨hparent, hdot, hdotdot, hnew⟩ := hcreate
  let sb' := tuxCreateDirent (incNlink sb i) dir name i
  have hentries : ∀ j, entriesOf sb' j = entriesOf sb j + if i = j then 1 else 0 := fun j =>
    entriesOf_create (incNlink sb i) dir name i j
  have hsub : ∀ d, subdirsOf sb' d = subdirsOf sb d := fun d => by
    refine (subdirsOf_create (incNlink sb i) dir name i d).trans ?_
    rw [if_neg (by simp [incNlink, hfile])]
    rfl
  have hlink : ∀ j, j ≠ i → sb'.iNlink j = sb.iNlink j := fun j hj => Function.update_of_ne hj _ _
  have hself : sb'.iNlink i = sb.iNlink i + 1 := Function.update_self _ _ _
  have hdir : ∀ {d}, sb.isDir d = true → d ≠ i := by
    rintro d hd rfl
    exact Bool.noConfusion (hfile.symm.trans hd)
  have hsame : ∀ {d}, sb.isDir d = true → entriesOf sb' d = entriesOf sb d := fun {d} hd => by
    rw [hentries, if_neg (hdir hd).symm, Nat.add_zero]
  have hlive : ∀ d, LiveDir sb' d ↔ LiveDir sb d := fun d =>
    and_congr_right fun _ => and_congr_right fun hd => by rw [hsame hd]
  refine ⟨List.nodup_cons.mpr ⟨fun hmem => ?_, h.keys⟩, ?_, ?_, ?_, fun j hj hjfile => ?_,
    fun d hd => ?_, fun d hd hisdir hroot hzero => ?_, fun d hisdir hroot => ?_, ?_⟩
  · obtain ⟨e, he, hkey⟩ := List.mem_map.mp hmem
    obtain ⟨hedir, hename⟩ := Prod.mk.inj hkey
    exact hnew e he ⟨hedir, hename⟩
  · exact List.forall_mem_cons.mpr ⟨⟨hdot, hdotdot⟩, h.names⟩
  · exact List.forall_mem_cons.mpr
      ⟨(hlive dir).mpr hparent, fun e he => (hlive _).mpr (h.parent e he)⟩
  · exact List.forall_mem_cons.mpr ⟨huse, h.child⟩
  · have hfiles := h.files j hj hjfile
    rw [hentries]
    by_cases hji : i = j
    · subst hji
      rw [if_pos rfl, ← hfiles]
      exact hself
    · rw [if_neg hji, ← hfiles]
      exact hlink j (Ne.symm hji)
  · have hd' := (hlive d).mp hd
    exact (hlink d (hdir hd'.2.1)).trans ((h.dirs d hd').trans (by rw [hsub]))
  · exact (hlink d (hdir hisdir)).trans (h.dead d hd hisdir hroot (hsame hisdir ▸ hzero))
  · exact hsame hisdir ▸ h.once d hisdir hroot
  · exact ⟨h.root.1, h.root.2.1, hsame h.root.2.1 ▸ h.root.2.2⟩

/-- One entry less of something that is no directory. -/
theorem NameiInv.removeFile (h : NameiInv sb) {e : Dirent} (he : e ∈ sb.dirents)
    (hfile : sb.isDir e.inum = false) :
    ∃ sb', dropNlink (tuxDeleteDirent sb e) e.inum = .ok sb' ∧ NameiInv sb' ∧
      sb' = { tuxDeleteDirent sb e with
        iNlink := Function.update sb.iNlink e.inum (sb.iNlink e.inum - 1) } := by
  have hpos : 0 < sb.iNlink e.inum := by
    rw [h.files _ (h.child e he) hfile]
    exact entriesOf_pos_of_mem he
  refine ⟨_, ?_, ?_, rfl⟩
  · rw [dropNlink, tuxAssert_of (p := 0 < (tuxDeleteDirent sb e).iNlink e.inum) hpos]
    rfl
  let sb' : NameiSb := { tuxDeleteDirent sb e with
    iNlink := Function.update sb.iNlink e.inum (sb.iNlink e.inum - 1) }
  have hmem : ∀ {x}, x ∈ sb'.dirents → x ∈ sb.dirents := fun hx => List.mem_of_mem_erase hx
  have hentries : ∀ j, entriesOf sb j = entriesOf sb' j + if e.inum = j then 1 else 0 :=
    entriesOf_delete he
  have hsub : ∀ d, subdirsOf sb' d = subdirsOf sb d := fun d => by
    rw [subdirsOf_delete he d, if_neg (by simp [hfile])]
    rfl
  have hlink : ∀ j, j ≠ e.inum → sb'.iNlink j = sb.iNlink j := fun j hj =>
    Function.update_of_ne hj _ _
  have hdir : ∀ {d}, sb.isDir d = true → d ≠ e.inum := by
    rintro d hd rfl
    exact Bool.noConfusion (hfile.symm.trans hd)
  have hsame : ∀ {d}, sb.isDir d = true → entriesOf sb' d = entriesOf sb d := fun {d} hd => by
    rw [hentries, if_neg (hdir hd).symm, Nat.add_zero]
  have hlive : ∀ d, LiveDir sb' d ↔ LiveDir sb d := fun d =>
    and_congr_right fun _ => and_congr_right fun hd => by rw [hsame hd]
  refine ⟨h.keys.sublist (List.erase_sublist.map _), fun x hx => h.names x (hmem hx),
    fun x hx => (hlive _).mpr (h.parent x (hmem hx)), fun x hx => h.child x (hmem hx),
    fun j hj hjfile => ?_, fun d hd => ?_, fun d hd hisdir hroot hzero => ?_,
    fun d hisdir hroot => ?_, ?_⟩
  · have hfiles := h.files j hj hjfile
    have hcount := hentries j
    show sb'.iNlink j = entriesOf sb' j
    by_cases hji : e.inum = j
    · subst hji
      rw [if_pos rfl] at hcount
      have hself : sb'.iNlink e.inum = sb.iNlink e.inum - 1 := Function.update_self _ _ _
      omega
    · rw [if_neg hji] at hcount
      rw [hlink j (Ne.symm hji)]
      omega
  · have hd' := (hlive d).mp hd
    exact (hlink d (hdir hd'.2.1)).trans ((h.dirs d hd').trans (by rw [hsub]))
  · exact (hlink d (hdir hisdir)).trans (h.dead d hd hisdir hroot (hsame hisdir ▸ hzero))
  · exact hsame hisdir ▸ h.once d hisdir hroot
  · exact ⟨h.root.1, h.root.2.1, hsame h.root.2.1 ▸ h.root.2.2⟩

/-- The entry of a new directory. -/
theorem NameiInv.addDir (h : NameiInv sb) {dir i : Nat} {name : Qstr}
    (hcreate : CanCreate sb dir name) (hfree : sb.inUse i = false) :
    NameiInv (incNlink (tuxCreateDirent (tuxCreateInode sb i true) dir name i) dir) := by
  obtain ⟨hparent, hdot, hdotdot, hnew⟩ := hcreate
  let sb' := incNlink (tuxCreateDirent (tuxCreateInode sb i true) dir name i) dir
  have hne : ∀ e ∈ sb.dirents, e.inum ≠ i := by
    rintro e he rfl
    exact Bool.noConfusion (hfree.symm.trans (h.child e he))
  have hdirne : dir ≠ i := by
    rintro rfl
    exact Bool.noConfusion (hfree.symm.trans hparent.1)
  have hroot : i ≠ tuxRootdirIno := by
    rintro rfl
    exact Bool.noConfusion (hfree.symm.trans h.root.1)
  have huse : ∀ j, j ≠ i → sb'.inUse j = sb.inUse j := fun j hj => Function.update_of_ne hj _ _
  have hisdir : ∀ j, j ≠ i → sb'.isDir j = sb.isDir j := fun j hj => Function.update_of_ne hj _ _
  have huseself : sb'.inUse i = true := Function.update_self _ _ _
  have hdirself : sb'.isDir i = true := Function.update_self _ _ _
  have hzero : entriesOf sb i = 0 := by
    rw [entriesOf, List.countP_eq_zero]
    intro e he
    simp [hne e he]
  have hentries : ∀ j, entriesOf sb' j = entriesOf sb j + if i = j then 1 else 0 := fun j =>
    entriesOf_create (tuxCreateInode sb i true) dir name i j
  have hsub : ∀ d, subdirsOf sb' d = subdirsOf sb d + if dir = d then 1 else 0 := fun d => by
    refine (subdirsOf_create (tuxCreateInode sb i true) dir name i d).trans ?_
    have hold : subdirsOf (tuxCreateInode sb i true) d = subdirsOf sb d :=
      List.countP_congr fun e he => by
        rw [show (tuxCreateInode sb i true).isDir e.inum = sb.isDir e.inum from
          Function.update_of_ne (hne e he) _ _]
    have hi : (tuxCreateInode sb i true).isDir i = true := Function.update_self _ _ _
    simp [hold, hi]
  have hlink : ∀ j, sb'.iNlink j =
      if j = dir then sb.iNlink dir + 1 else if j = i then 2 else sb.iNlink j := by
    intro j
    have hdirlink : (tuxCreateInode sb i true).iNlink dir = sb.iNlink dir :=
      Function.update_of_ne hdirne _ _
    by_cases hj : j = dir
    · subst hj
      rw [if_pos rfl, ← hdirlink]
      exact Function.update_self _ _ _
    · rw [if_neg hj]
      refine (Function.update_of_ne hj _ _).trans ?_
      by_cases hji : j = i
      · subst hji
        rw [if_pos rfl]
        exact Function.update_self _ _ _
      · rw [if_neg hji]
        exact Function.update_of_ne hji _ _
  have hlive : ∀ d, d ≠ i → (LiveDir sb' d ↔ LiveDir sb d) := fun d hd => by
    rw [LiveDir, LiveDir, huse d hd, hisdir d hd, hentries, if_neg hd.symm, Nat.add_zero]
  have hsubi : subdirsOf sb i = 0 := by
    refine subdirsOf_eq_zero fun e he hei => ?_
    exact Bool.noConfusion (hfree.symm.trans (hei ▸ (h.parent e he).1))
  refine ⟨List.nodup_cons.mpr ⟨fun hmem => ?_, h.keys⟩, ?_, ?_, ?_, fun j hj hjfile => ?_,
    fun d hd => ?_, fun d hd hddir hdroot hdzero => ?_, fun d hddir hdroot => ?_, ?_⟩
  · obtain ⟨e, he, hkey⟩ := List.mem_map.mp hmem
    obtain ⟨hedir, hename⟩ := Prod.mk.inj hkey
    exact hnew e he ⟨hedir, hename⟩
  · exact List.forall_mem_cons.mpr ⟨⟨hdot, hdotdot⟩, h.names⟩
  · refine List.forall_mem_cons.mpr ⟨(hlive dir hdirne).mpr hparent, fun e he => ?_⟩
    have hedir : e.dir ≠ i := fun hei =>
      Bool.noConfusion (hfree.symm.trans (hei ▸ (h.parent e he).1))
    exact (hlive _ hedir).mpr (h.parent e he)
  · exact List.forall_mem_cons.mpr
      ⟨huseself, fun e he => (huse _ (hne e he)).trans (h.child e he)⟩
  · have hji : j ≠ i := by
      rintro rfl
      exact Bool.noConfusion (hjfile.symm.trans hdirself)
    have hjdir : j ≠ dir := by
      rintro rfl
      exact Bool.noConfusion (hjfile.symm.trans ((hisdir j hji).trans hparent.2.1))
    rw [hlink, if_neg hjdir, if_neg hji, hentries, if_neg hji.symm, Nat.add_zero]
    exact h.files j (huse j hji ▸ hj) (hisdir j hji ▸ hjfile)
  · rw [hlink, hsub]
    by_cases hdi : d = i
    · subst hdi
      rw [if_neg hdirne.symm, if_pos rfl, if_neg hdirne, hsubi]
    · have hd' := h.dirs d ((hlive d hdi).mp hd)
      by_cases hdd : d = dir
      · subst hdd
        rw [if_pos rfl, if_pos rfl]
        omega
      · rw [if_neg hdd, if_neg hdi, if_neg (Ne.symm hdd)]
        omega
  · have hdi : d ≠ i := by
      rintro rfl
      rw [hentries, if_pos rfl] at hdzero
      omega
    rw [hentries, if_neg hdi.symm] at hdzero
    have hdd : d ≠ dir := by
      rintro rfl
      exact hparent.2.2.elim hdroot fun hpos => by omega
    rw [hlink, if_neg hdd, if_neg hdi]
    exact h.dead d (huse d hdi ▸ hd) (hisdir d hdi ▸ hddir) hdroot hdzero
  · rw [hentries]
    by_cases hdi : i = d
    · subst hdi
      rw [if_pos rfl, hzero]
    · rw [if_neg hdi]
      exact h.once d (hisdir d (Ne.symm hdi) ▸ hddir) hdroot
  · refine ⟨(huse _ hroot.symm).trans h.root.1, (hisdir _ hroot.symm).trans h.root.2.1, ?_⟩
    rw [hentries, if_neg hroot, h.root.2.2]

/-- The entry of an empty directory goes, and the directory with it. -/
theorem NameiInv.removeDir (h : NameiInv sb) {e : Dirent} (he : e ∈ sb.dirents)
    (hisdir : sb.isDir e.inum = true) (hempty : ∀ x ∈ sb.dirents, x.dir ≠ e.inum) :
    ∃ sb', dropNlink (clearNlink (tuxDeleteDirent sb e) e.inum) e.dir = .ok sb' ∧
      NameiInv sb' := by
  have hparent := h.parent e he
  have hne : e.dir ≠ e.inum := hempty e he
  have hroot : e.inum ≠ tuxRootdirIno := ne_of_entriesOf_eq_zero h.root.2.2 he
  have hentries : ∀ j, entriesOf sb j =
      entriesOf (tuxDeleteDirent sb e) j + if e.inum = j then 1 else 0 := entriesOf_delete he
  have hsub : ∀ d, subdirsOf sb d =
      subdirsOf (tuxDeleteDirent sb e) d + if e.dir = d then 1 else 0 := fun d => by
    have hcount := subdirsOf_delete he d
    simpa [hisdir] using hcount
  have hgone : entriesOf (tuxDeleteDirent sb e) e.inum = 0 := by
    have honce := h.once e.inum hisdir hroot
    have hcount := hentries e.inum
    rw [if_pos rfl] at hcount
    omega
  have hdirlink : (clearNlink (tuxDeleteDirent sb e) e.inum).iNlink e.dir = sb.iNlink e.dir :=
    Function.update_of_ne hne _ _
  have hpos : 0 < (clearNlink (tuxDeleteDirent sb e) e.inum).iNlink e.dir := by
    rw [hdirlink, h.dirs _ hparent]
    omega
  refine ⟨_, by rw [dropNlink, tuxAssert_of hpos]; rfl, ?_⟩
  rw [hdirlink]
  let sb' : NameiSb := { clearNlink (tuxDeleteDirent sb e) e.inum with
    iNlink := Function.update (clearNlink (tuxDeleteDirent sb e) e.inum).iNlink e.dir
      (sb.iNlink e.dir - 1) }
  have hmem : ∀ {x}, x ∈ sb'.dirents → x ∈ sb.dirents := fun hx => List.mem_of_mem_erase hx
  have hlink : ∀ j, sb'.iNlink j =
      if j = e.dir then sb.iNlink e.dir - 1 else if j = e.inum then 0 else sb.iNlink j := by
    intro j
    by_cases hj : j = e.dir
    · subst hj
      rw [if_pos rfl]
      exact Function.update_self _ _ _
    · rw [if_neg hj]
      refine (Function.update_of_ne hj _ _).trans ?_
      by_cases hji : j = e.inum
      · subst hji
        rw [if_pos rfl]
        exact Function.update_self _ _ _
      · rw [if_neg hji]
        exact Function.update_of_ne hji _ _
  have hlive : ∀ d, d ≠ e.inum → (LiveDir sb' d ↔ LiveDir sb d) := fun d hd =>
    and_congr_right fun _ => and_congr_right fun _ => by
      rw [hentries, if_neg hd.symm, Nat.add_zero]
      rfl
  have hdead : ¬LiveDir sb' e.inum := fun hl => hl.2.2.elim hroot fun hpos => by
    have hzero : entriesOf sb' e.inum = 0 := hgone
    omega
  refine ⟨h.keys.sublist (List.erase_sublist.map _), fun x hx => h.names x (hmem hx),
    fun x hx => (hlive _ (hempty x (hmem hx))).mpr (h.parent x (hmem hx)),
    fun x hx => h.child x (hmem hx), fun j hj hjfile => ?_, fun d hd => ?_,
    fun d hd hddir hdroot hzero => ?_, fun d hddir hdroot => ?_, ?_⟩
  · have hji : j ≠ e.inum := by
      rintro rfl
      exact Bool.noConfusion (hjfile.symm.trans hisdir)
    have hjdir : j ≠ e.dir := by
      rintro rfl
      exact Bool.noConfusion (hjfile.symm.trans hparent.2.1)
    have hcount := hentries j
    rw [if_neg hji.symm, Nat.add_zero] at hcount
    rw [hlink, if_neg hjdir, if_neg hji, h.files j hj hjfile, hcount]
    rfl
  · have hdi : d ≠ e.inum := by
      rintro rfl
      exact hdead hd
    have hd' := h.dirs d ((hlive d hdi).mp hd)
    have hcount := hsub d
    show sb'.iNlink d = 2 + subdirsOf (tuxDeleteDirent sb e) d
    rw [hlink]
    by_cases hdd : d = e.dir
    · subst hdd
      rw [if_pos rfl] at hcount ⊢
      omega
    · rw [if_neg (Ne.symm hdd)] at hcount
      rw [if_neg hdd, if_neg hdi]
      omega
  · have hcount := hentries d
    rw [hlink]
    by_cases hdi : d = e.inum
    · subst hdi
      rw [if_neg hne.symm, if_pos rfl]
    · rw [if_neg (Ne.symm hdi), Nat.add_zero] at hcount
      have hdd : d ≠ e.dir := by
        rintro rfl
        refine hparent.2.2.elim hdroot fun hpos => ?_
        rw [hcount] at hpos
        exact absurd hzero (Nat.pos_iff_ne_zero.mp hpos)
      rw [if_neg hdd, if_neg hdi]
      exact h.dead d hd hddir hdroot (hcount.trans hzero)
  · have hcount := hentries d
    have honce := h.once d hddir hdroot
    show entriesOf (tuxDeleteDirent sb e) d ≤ 1
    omega
  · have hcount := hentries tuxRootdirIno
    rw [if_neg hroot, Nat.add_zero] at hcount
    exact ⟨h.root.1, h.root.2.1, hcount.symm.trans h.root.2.2⟩

/-- The entry of a directory moves to a new name, and with it one link from the one
directory to the other. -/
theorem NameiInv.moveDir (h : NameiInv sb) {e : Dirent} (he : e ∈ sb.dirents)
    (hisdir : sb.isDir e.inum = true) {newDir : Nat} {newName : Qstr}
    (hcreate : CanCreate sb newDir newName) {nlink : Nat → Nat}
    (hlink : ∀ d, nlink d + (if e.dir = d then 1 else 0) =
      sb.iNlink d + if newDir = d then 1 else 0) :
    NameiInv { tuxDeleteDirent (tuxCreateDirent sb newDir newName e.inum) e with
      iNlink := nlink } := by
  obtain ⟨hparent, hdot, hdotdot, hnew⟩ := hcreate
  let sb₁ := tuxCreateDirent sb newDir newName e.inum
  let sb' : NameiSb := { tuxDeleteDirent sb₁ e with iNlink := nlink }
  have he₁ : e ∈ sb₁.dirents := List.mem_cons_of_mem _ he
  have hentries : ∀ j, entriesOf sb' j = entriesOf sb j := fun j => by
    have hadd : entriesOf sb₁ j = entriesOf sb j + _ :=
      entriesOf_create sb newDir newName e.inum j
    have hdel : entriesOf sb₁ j = entriesOf sb' j + _ := entriesOf_delete he₁ j
    omega
  have hsub : ∀ d, subdirsOf sb' d + (if e.dir = d then 1 else 0) =
      subdirsOf sb d + if newDir = d then 1 else 0 := fun d => by
    have hadd : subdirsOf sb₁ d = _ := subdirsOf_create sb newDir newName e.inum d
    have hdel : subdirsOf sb₁ d = subdirsOf sb' d + _ := subdirsOf_delete he₁ d
    have hdir₁ : sb₁.isDir e.inum = true := hisdir
    simp only [hisdir, hdir₁, and_true] at hadd hdel
    omega
  have hlive : ∀ d, LiveDir sb' d ↔ LiveDir sb d := fun d =>
    and_congr_right fun _ => and_congr_right fun _ => by rw [hentries]
  have hmem : ∀ {x}, x ∈ sb'.dirents → x = ⟨newDir, newName, e.inum⟩ ∨ x ∈ sb.dirents :=
    fun hx => List.mem_cons.mp (List.mem_of_mem_erase hx)
  have hkeys : (sb₁.dirents.map fun e => (e.dir, e.name)).Nodup := by
    refine List.nodup_cons.mpr ⟨fun hmem => ?_, h.keys⟩
    obtain ⟨x, hx, hkey⟩ := List.mem_map.mp hmem
    obtain ⟨hxdir, hxname⟩ := Prod.mk.inj hkey
    exact hnew x hx ⟨hxdir, hxname⟩
  refine ⟨hkeys.sublist (List.erase_sublist.map _), fun x hx => ?_, fun x hx => ?_,
    fun x hx => ?_, fun j hj hjfile => ?_, fun d hd => ?_, fun d hd hddir hroot hzero => ?_,
    fun d hddir hroot => ?_, h.root.1, h.root.2.1, (hentries _).trans h.root.2.2⟩
  · rcases hmem hx with rfl | hx
    · exact ⟨hdot, hdotdot⟩
    · exact h.names x hx
  · rcases hmem hx with rfl | hx
    · exact (hlive _).mpr hparent
    · exact (hlive _).mpr (h.parent x hx)
  · rcases hmem hx with rfl | hx
    · exact h.child e he
    · exact h.child x hx
  · have hnot : ∀ {d}, LiveDir sb d → d ≠ j := by
      rintro d hd rfl
      exact Bool.noConfusion (hjfile.symm.trans hd.2.1)
    have hcount := hlink j
    rw [if_neg (hnot (h.parent e he)), if_neg (hnot hparent)] at hcount
    exact hcount.trans ((h.files j hj hjfile).trans (hentries j).symm)
  · have hd' := h.dirs d ((hlive d).mp hd)
    have hcount := hlink d
    have hsubs := hsub d
    show nlink d = 2 + subdirsOf sb' d
    omega
  · have hzero' : entriesOf sb d = 0 := (hentries d).symm.trans hzero
    have hnot : ∀ {x}, LiveDir sb x → x ≠ d := by
      rintro x hx rfl
      exact hx.2.2.elim hroot fun hpos => absurd hzero' (Nat.pos_iff_ne_zero.mp hpos)
    have hcount := hlink d
    rw [if_neg (hnot (h.parent e he)), if_neg (hnot hparent)] at hcount
    exact hcount.trans (h.dead d hd hddir hroot hzero')
  · exact (hentries d).trans_le (h.once d hddir hroot)

end Moves

/-! ## The operations -/

section Steps

variable {sb : NameiSb}

/-- The invariant holds of what an operation leaves, if it returns at all. -/
def StepKeeps (r : Except TuxError (NameiSb × Option Errno)) : Prop :=
  ∃ sb' err, r = .ok (sb', err) ∧ NameiInv sb'

theorem NameiInv.keep (h : NameiInv sb) (err : Option Errno) :
    StepKeeps (pure (sb, err)) := ⟨sb, err, rfl, h⟩

/-- A new inode that gets an entry, and is no directory. -/
theorem NameiInv.create (h : NameiInv sb) {dir i : Nat} {name : Qstr}
    (hcreate : CanCreate sb dir name) (hfree : sb.inUse i = false) :
    NameiInv (tuxCreateDirent (tuxCreateInode sb i false) dir name i) := by
  have hne : ∀ d, LiveDir sb d → d ≠ i := by
    rintro d hd rfl
    exact Bool.noConfusion (hfree.symm.trans hd.1)
  have hcreate' : CanCreate (clearNlink (tuxCreateInode sb i false) i) dir name := by
    refine ⟨?_, hcreate.2⟩
    have hdir := hne dir hcreate.1
    exact ⟨(Function.update_of_ne hdir _ _).trans hcreate.1.1,
      (Function.update_of_ne hdir _ _).trans hcreate.1.2.1, hcreate.1.2.2⟩
  have hadd := (h.fresh hfree false).addFile hcreate' (Function.update_self _ _ _)
    (Function.update_self _ _ _)
  have hsame : tuxCreateDirent (incNlink (clearNlink (tuxCreateInode sb i false) i) i) dir name i =
      tuxCreateDirent (tuxCreateInode sb i false) dir name i := by
    simp [tuxCreateDirent, incNlink, clearNlink, tuxCreateInode]
  exact hsame ▸ hadd

/-- A new inode that loses its only link again. -/
theorem NameiInv.uncreate (h : NameiInv sb) {i : Nat} (hfree : sb.inUse i = false) :
    ∃ sb', dropNlink (tuxCreateInode sb i false) i = .ok sb' ∧ NameiInv sb' := by
  have hone : (tuxCreateInode sb i false).iNlink i = 1 := Function.update_self _ _ _
  refine ⟨_, by rw [dropNlink, tuxAssert_of (by rw [hone]; exact Nat.one_pos)]; rfl, ?_⟩
  rw [hone]
  exact h.fresh hfree false

theorem NameiInv.mknod (h : NameiInv sb) {dir : Nat} {name : Qstr} {isDir addErr : Bool}
    {inum : Option Nat} (hcreate : CanCreate sb dir name)
    (hfree : ∀ i ∈ inum, sb.inUse i = false) :
    NameiInv (tux3Mknod sb dir name isDir inum addErr).1 := by
  unfold tux3Mknod
  split
  · exact h
  · cases inum with
    | none => exact h
    | some i =>
        have hi : sb.inUse i = false := hfree i rfl
        dsimp only
        split
        · exact h.fresh hi isDir
        · cases isDir with
          | true => exact h.addDir hcreate hi
          | false => exact h.create hcreate hi

theorem NameiInv.symlink (h : NameiInv sb) {dir : Nat} {name symname : Qstr}
    {pageErr addErr : Bool} {inum : Option Nat} (hcreate : CanCreate sb dir name)
    (hfree : ∀ i ∈ inum, sb.inUse i = false) :
    StepKeeps (tux3Symlink sb dir name symname inum pageErr addErr) := by
  unfold tux3Symlink
  split
  · exact h.keep _
  · cases inum with
    | none => exact h.keep _
    | some i =>
        have hi : sb.inUse i = false := hfree i rfl
        dsimp only
        split
        · obtain ⟨sb', hdrop, hinv⟩ := h.uncreate hi
          rw [hdrop]
          exact ⟨sb', _, rfl, hinv⟩
        · exact (h.create hcreate hi).keep _

theorem NameiInv.link (h : NameiInv sb) {inum dir : Nat} {name : Qstr} {addErr : Bool}
    (hcreate : CanCreate sb dir name) (huse : sb.inUse inum = true)
    (hfile : sb.isDir inum = false) : StepKeeps (tux3Link sb inum dir name addErr) := by
  unfold tux3Link
  split
  · exact h.keep _
  · dsimp only
    split
    · have hlink : (incNlink sb inum).iNlink inum = sb.iNlink inum + 1 := Function.update_self _ _ _
      have hpos : 0 < (incNlink sb inum).iNlink inum := hlink ▸ Nat.succ_pos _
      have hdrop : dropNlink (incNlink sb inum) inum = .ok sb := by
        rw [dropNlink, tuxAssert_of hpos, hlink]
        simp [bind, Except.bind, incNlink, pure, Except.pure]
      rw [hdrop]
      exact h.keep _
    · exact (h.addFile hcreate huse hfile).keep _

theorem NameiInv.unlink (h : NameiInv sb) {dir inum : Nat} {name : Qstr} {delErr : Bool}
    (he : ⟨dir, name, inum⟩ ∈ sb.dirents) (hfile : sb.isDir inum = false) :
    StepKeeps (tux3Unlink sb dir name inum delErr) := by
  have hfind : tuxFindDirent sb dir name = some ⟨dir, name, inum⟩ := h.find he
  rw [tux3Unlink, tuxDelDirent, hfind]
  cases delErr with
  | true => exact h.keep _
  | false =>
      obtain ⟨sb', hdrop, hinv, -⟩ := h.removeFile he hfile
      simp only [Bool.false_eq_true, if_false, ne_eq, not_true_eq_false]
      rw [hdrop]
      exact ⟨sb', none, rfl, hinv⟩

theorem NameiInv.rmdir (h : NameiInv sb) {dir inum : Nat} {name : Qstr}
    {emptyErr delErr : Bool} (he : ⟨dir, name, inum⟩ ∈ sb.dirents)
    (hdir : sb.isDir inum = true) :
    StepKeeps (tux3Rmdir sb dir name inum emptyErr delErr) := by
  have hfind : tuxFindDirent sb dir name = some ⟨dir, name, inum⟩ := h.find he
  unfold tux3Rmdir
  split
  · exact h.keep _
  · split
    · exact h.keep _
    · rename_i hempty
      rw [tuxDelDirent, hfind]
      cases delErr with
      | true => exact h.keep _
      | false =>
          obtain ⟨sb', hdrop, hinv⟩ := h.removeDir he hdir (h.empty (not_not.mp hempty))
          simp only [Bool.false_eq_true, if_false, ne_eq, not_true_eq_false]
          rw [hdrop]
          exact ⟨sb', none, rfl, hinv⟩

/-- A rename, by what making the new entry came to. -/
theorem tux3Rename_run (h : NameiInv sb) {oldDir old newDir : Nat} {oldName newName : Qstr}
    {new : Option Nat} {errs : RenameErrs} (he : ⟨oldDir, oldName, old⟩ ∈ sb.dirents)
    (hfindErr : errs.findErr = false) {sb₁ : NameiSb} {err : Option Errno}
    (htarget : renameTarget sb oldDir old newDir newName new errs = .ok (sb₁, err)) :
    tux3Rename sb oldDir oldName old newDir newName new errs =
      if err ≠ none then .ok (sb₁, err)
      else if errs.delErr then .ok (incNlink sb₁ old, some .eio)
      else if new = none ∧ sb.isDir old ∧ newDir ≠ oldDir then
        (dropNlink (tuxDeleteDirent sb₁ ⟨oldDir, oldName, old⟩) oldDir).bind
          fun sb => .ok (sb, none)
      else .ok (tuxDeleteDirent sb₁ ⟨oldDir, oldName, old⟩, none) := by
  have hfind : tuxFindDirent sb oldDir oldName = some ⟨oldDir, oldName, old⟩ := h.find he
  rw [tux3Rename, hfindErr, hfind]
  simp only [bind, Except.bind, tuxAssert_of, htarget]
  cases err with
  | some err => rfl
  | none =>
      cases errs.delErr with
      | true => rfl
      | false =>
          by_cases hsub : new = none ∧ sb.isDir old ∧ newDir ≠ oldDir
          · simp only [hsub]
            rfl
          · simp only [if_neg hsub]
            rfl

/-- A rename to a new name moves the entry. -/
theorem NameiInv.renameNew (h : NameiInv sb) {oldDir old newDir : Nat} {oldName newName : Qstr}
    {errs : RenameErrs} (he : ⟨oldDir, oldName, old⟩ ∈ sb.dirents)
    (hcreate : CanCreate sb newDir newName) (hfindErr : errs.findErr = false)
    (hok : NameiOpOk sb (.rename oldDir oldName old newDir newName none errs)) :
    StepKeeps (tux3Rename sb oldDir oldName old newDir newName none errs) := by
  by_cases hlimit : (sb.isDir old ∧ newDir ≠ oldDir) ∧ tuxLinkMax ≤ sb.iNlink newDir
  · have htarget : renameTarget sb oldDir old newDir newName none errs =
        .ok (sb, some .emlink) := by
      rw [renameTarget, if_pos hlimit]
      rfl
    rw [tux3Rename_run h he hfindErr htarget]
    exact h.keep _
  cases hadd : errs.addErr with
  | true =>
      have htarget : renameTarget sb oldDir old newDir newName none errs =
          .ok (sb, some .eio) := by
        rw [renameTarget, if_neg hlimit, hadd]
        rfl
      rw [tux3Rename_run h he hfindErr htarget]
      exact h.keep _
  | false =>
      let sb₁ := tuxCreateDirent sb newDir newName old
      have htarget : renameTarget sb oldDir old newDir newName none errs =
          .ok (if sb.isDir old ∧ newDir ≠ oldDir then incNlink sb₁ newDir else sb₁, none) := by
        rw [renameTarget, if_neg hlimit, hadd]
        rfl
      rw [tux3Rename_run h he hfindErr htarget]
      cases hdir : sb.isDir old with
      | false =>
          have hadded := h.addFile hcreate (h.child _ he) hdir
          simp only [ne_eq, not_true_eq_false, Bool.false_eq_true, false_and, and_false, if_false]
          cases errs.delErr with
          | true => exact hadded.keep _
          | false =>
              obtain ⟨sb', -, hinv, heq⟩ :=
                hadded.removeFile (List.mem_cons_of_mem _ he) hdir
              refine ⟨_, none, rfl, ?_⟩
              have hsame : sb' = tuxDeleteDirent sb₁ ⟨oldDir, oldName, old⟩ := by
                rw [heq]
                simp [tuxDeleteDirent, tuxCreateDirent, incNlink, sb₁]
              exact hsame ▸ hinv
      | true =>
          have hdel : errs.delErr = false := by
            have hcases := hok hdir hfindErr
            rw [hadd] at hcases
            rcases hcases with hdel | hadd | hmany
            · exact hdel
            · cases hadd
            · exact absurd ⟨⟨hdir, hmany.1⟩, hmany.2⟩ hlimit
          simp only [hdel, ne_eq, not_true_eq_false, Bool.false_eq_true, true_and, if_false]
          by_cases hsame : newDir = oldDir
          · subst hsame
            simp only [not_true_eq_false, if_false]
            exact ⟨_, none, rfl, h.moveDir he hdir hcreate fun d => rfl⟩
          · simp only [hsame, not_false_eq_true, if_true]
            have hne : oldDir ≠ newDir := fun heq => hsame heq.symm
            have hpos : 0 < (tuxDeleteDirent (incNlink sb₁ newDir) ⟨oldDir, oldName, old⟩).iNlink
                oldDir := by
              show 0 < Function.update sb.iNlink newDir _ oldDir
              rw [Function.update_of_ne hne, h.dirs oldDir (h.parent _ he)]
              omega
            rw [dropNlink, tuxAssert_of hpos]
            refine ⟨_, none, rfl, h.moveDir he hdir hcreate fun d => ?_⟩
            have hold : 0 < sb.iNlink oldDir := by
              rw [h.dirs oldDir (h.parent _ he)]
              omega
            have hupdate : Function.update sb.iNlink newDir (sb.iNlink newDir + 1) oldDir =
                sb.iNlink oldDir := Function.update_of_ne hne _ _
            show Function.update (Function.update sb.iNlink newDir (sb.iNlink newDir + 1)) oldDir
                (Function.update sb.iNlink newDir (sb.iNlink newDir + 1) oldDir - 1) d + _ = _
            rw [hupdate]
            by_cases hd : d = oldDir
            · subst hd
              rw [Function.update_self, if_pos rfl, if_neg hsame]
              omega
            · rw [Function.update_of_ne hd, if_neg (Ne.symm hd)]
              by_cases hd' : d = newDir
              · subst hd'
                rw [Function.update_self, if_pos rfl]
              · rw [Function.update_of_ne hd', if_neg (Ne.symm hd')]

/-- The name of an entry is free once the entry is gone. -/
theorem NameiInv.canCreate_of_removed (h : NameiInv sb) {e : Dirent} (he : e ∈ sb.dirents)
    {sb' : NameiSb} (hdirents : sb'.dirents = sb.dirents.erase e) (hlive : LiveDir sb' e.dir) :
    CanCreate sb' e.dir e.name := by
  refine ⟨hlive, (h.names e he).1, (h.names e he).2, fun x hx hkey => ?_⟩
  rw [hdirents] at hx
  have hmem : x ∈ sb.dirents := List.mem_of_mem_erase hx
  have hxe : x = e := List.inj_on_of_nodup_map h.keys hmem he (by rw [hkey.1, hkey.2])
  exact (h.keys.of_map).not_mem_erase (hxe ▸ hx)

/-- A rename onto another inode replaces it. -/
theorem NameiInv.renameOver (h : NameiInv sb) {oldDir old newDir new : Nat}
    {oldName newName : Qstr} {errs : RenameErrs} (he : ⟨oldDir, oldName, old⟩ ∈ sb.dirents)
    (hnew : ⟨newDir, newName, new⟩ ∈ sb.dirents) (hne : new ≠ old)
    (htype : sb.isDir new = sb.isDir old) (hfindErr : errs.findErr = false)
    (hok : NameiOpOk sb (.rename oldDir oldName old newDir newName (some new) errs)) :
    StepKeeps (tux3Rename sb oldDir oldName old newDir newName (some new) errs) := by
  have hfind : tuxFindDirent sb newDir newName = some ⟨newDir, newName, new⟩ := h.find hnew
  -- what stops before the change
  have hstop : ∀ err, renameTarget sb oldDir old newDir newName (some new) errs =
      .ok (sb, some err) → StepKeeps (tux3Rename sb oldDir oldName old newDir newName (some new)
        errs) := fun err htarget => by
    rw [tux3Rename_run h he hfindErr htarget]
    exact h.keep _
  by_cases hemptyErr : sb.isDir old ∧ errs.emptyErr
  · exact hstop .eio (by rw [renameTarget, if_pos hemptyErr]; rfl)
  by_cases hempty : sb.isDir old ∧ ¬tuxDirIsEmpty sb new
  · exact hstop .enotempty (by rw [renameTarget, if_neg hemptyErr, if_pos hempty]; rfl)
  cases htargetErr : errs.targetErr with
  | true =>
      exact hstop .eio (by rw [renameTarget, if_neg hemptyErr, if_neg hempty, htargetErr]; rfl)
  | false =>
      have hfile : sb.isDir old = false := by
        by_contra hdir
        have hdir : sb.isDir old = true := by simpa using hdir
        rcases hok hdir hfindErr with herr | herr | hnot
        · exact hemptyErr ⟨hdir, herr⟩
        · exact Bool.noConfusion (htargetErr.symm.trans herr)
        · exact hempty ⟨hdir, hnot⟩
      obtain ⟨sb₁, hdrop, hinv₁, hsb₁⟩ := h.removeFile hnew (htype.trans hfile)
      have hlive₁ : LiveDir sb₁ newDir := by
        have hlive := h.parent _ hnew
        refine ⟨by rw [hsb₁]; exact hlive.1, by rw [hsb₁]; exact hlive.2.1, ?_⟩
        have hcount := entriesOf_delete hnew newDir
        have hnd : new ≠ newDir := by
          rintro rfl
          exact Bool.noConfusion ((htype.trans hfile).symm.trans hlive.2.1)
        rw [if_neg hnd, Nat.add_zero] at hcount
        refine hlive.2.2.imp_right fun hpos => ?_
        rw [hcount] at hpos
        rw [hsb₁]
        exact hpos
      have huse₁ : sb₁.inUse old = true := by
        rw [hsb₁]
        exact h.child _ he
      have hfile₁ : sb₁.isDir old = false := by
        rw [hsb₁]
        exact hfile
      have hcreate₁ : CanCreate sb₁ newDir newName :=
        h.canCreate_of_removed hnew (by rw [hsb₁]; rfl) hlive₁
      have hadded := hinv₁.addFile hcreate₁ huse₁ hfile₁
      let sb₂ : NameiSb := { tuxUpdateDirent sb ⟨newDir, newName, new⟩ old with
        iNlink := Function.update sb.iNlink new (sb.iNlink new - 1) }
      have hpos : 0 < (tuxUpdateDirent sb ⟨newDir, newName, new⟩ old).iNlink new := by
        show 0 < sb.iNlink new
        rw [h.files _ (h.child _ hnew) (htype.trans hfile)]
        exact entriesOf_pos_of_mem hnew
      have htarget : renameTarget sb oldDir old newDir newName (some new) errs =
          .ok (sb₂, none) := by
        rw [renameTarget, if_neg hemptyErr, if_neg hempty, htargetErr, hfind]
        have hupdated : (tuxUpdateDirent sb ⟨newDir, newName, new⟩ old).isDir old = false := hfile
        simp only [Bool.false_eq_true, if_false, hupdated, bind, Except.bind, dropNlink,
          tuxAssert_of hpos]
        rfl
      have hinc : tuxCreateDirent (incNlink sb₁ old) newDir newName old = incNlink sb₂ old := by
        have hlink : sb₁.iNlink old = sb₂.iNlink old := by
          rw [hsb₁]
        rw [incNlink, incNlink, hlink, hsb₁]
        rfl
      rw [hinc] at hadded
      rw [tux3Rename_run h he hfindErr htarget]
      simp only [ne_eq, not_true_eq_false, reduceCtorEq, false_and, if_false]
      cases errs.delErr with
      | true => exact hadded.keep _
      | false =>
          have hmem : (⟨oldDir, oldName, old⟩ : Dirent) ∈ (incNlink sb₂ old).dirents := by
            refine List.mem_cons_of_mem _ ((List.mem_erase_of_ne ?_).mpr he)
            intro heq
            exact hne (Dirent.mk.inj heq).2.2.symm
          obtain ⟨sb', -, hinv, heq⟩ := hadded.removeFile hmem hfile
          refine ⟨_, none, rfl, ?_⟩
          have hsame : sb' = tuxDeleteDirent sb₂ ⟨oldDir, oldName, old⟩ := by
            rw [heq]
            simp [tuxDeleteDirent, incNlink]
          exact hsame ▸ hinv

/-- An inode without links can go. -/
theorem NameiInv.purge (h : NameiInv sb) {i : Nat} (hroot : i ≠ tuxRootdirIno)
    (huse : sb.inUse i = true) (hlink : sb.iNlink i = 0) : NameiInv (tuxPurge sb i) := by
  have hdead : ∀ {d}, LiveDir sb d → d ≠ i := by
    rintro d hd rfl
    have hdirs := h.dirs d hd
    omega
  have hzero : entriesOf sb i = 0 := by
    cases hdir : sb.isDir i with
    | false => rw [← h.files i huse hdir, hlink]
    | true =>
        by_contra hpos
        exact hdead ⟨huse, hdir, .inr (Nat.pos_of_ne_zero hpos)⟩ rfl
  have huse' : ∀ j, j ≠ i → (tuxPurge sb i).inUse j = sb.inUse j := fun j hj =>
    Function.update_of_ne hj _ _
  have hold : ∀ {j}, (tuxPurge sb i).inUse j = true → sb.inUse j = true := fun {j} hj => by
    by_cases hji : j = i
    · exact hji ▸ huse
    · exact huse' j hji ▸ hj
  have hlive : ∀ d, LiveDir (tuxPurge sb i) d → LiveDir sb d := fun d hd =>
    ⟨hold hd.1, hd.2⟩
  refine ⟨h.keys, h.names, fun e he => ?_, fun e he => ?_, fun j hj => h.files j (hold hj),
    fun d hd => h.dirs d (hlive d hd), fun d hd => h.dead d (hold hd), h.once,
    (huse' _ hroot.symm).trans h.root.1, h.root.2⟩
  · have hparent := h.parent e he
    exact ⟨(huse' _ (hdead hparent)).trans hparent.1, hparent.2⟩
  · exact (huse' _ (ne_of_entriesOf_eq_zero hzero he)).trans (h.child e he)

/-- One operation. -/
theorem NameiInv.step (h : NameiInv sb) {op : NameiOp} (hok : NameiOpOk sb op)
    (hallowed : NameiAllowed sb op) : StepKeeps (nameiStep sb op) := by
  cases op with
  | mknod dir name isDir inum addErr =>
      exact ⟨_, _, rfl, h.mknod hallowed.1 hallowed.2⟩
  | link inum dir name addErr => exact h.link hallowed.1 hallowed.2.1 hallowed.2.2.1
  | symlink dir name symname inum pageErr addErr => exact h.symlink hallowed.1 hallowed.2
  | unlink dir name inum delErr => exact h.unlink hallowed.1 hallowed.2
  | rmdir dir name inum emptyErr delErr => exact h.rmdir hallowed.1 hallowed.2
  | rename oldDir oldName old newDir newName new errs =>
      obtain ⟨he, -, htarget⟩ := hallowed
      cases hfindErr : errs.findErr with
      | true =>
          rw [nameiStep, tux3Rename, hfindErr]
          exact h.keep _
      | false =>
          cases new with
          | none => exact h.renameNew he htarget hfindErr hok
          | some new => exact h.renameOver he htarget.1 htarget.2.1 htarget.2.2 hfindErr hok
  | purge inum => exact ⟨_, _, rfl, h.purge hallowed.1 hallowed.2.1 hallowed.2.2⟩

end Steps

/-! ## Every run -/

end Tux3
