/-
  Writeback/Inode.lean --- dirty inodes of two deltas.

  The frontend takes and drops references to inodes and marks them dirty in the current
  delta, while the backend flushes and then cleans the dirty inodes of the delta before it.
  An atomic step is what runs under `inode->i_lock` or `tuxnode->lock`; the steps of all
  tasks interleave freely.  The inodes here are flushed by `tux3_flush_inodes`: none of them
  is TUX3_INODE_NO_FLUSH.
-/
import Mathlib.Data.BitVec
import Mathlib.Data.List.Perm.Basic
import Mathlib.Logic.Function.Basic
import Tux3.Lib.System
import Tux3.Volume

set_option autoImplicit false

namespace Tux3

/-! ## State -/

/-- I_DIRTY_SYNC, I_DIRTY_DATASYNC and I_DIRTY_PAGES. -/
abbrev DirtyBits := BitVec 3

/-- `I_DIRTY_SYNC`. -/
def iDirtySync : DirtyBits := 1

/-- `I_DIRTY`. -/
def iDirty : DirtyBits := 7

/-- The slot of a delta, of TUX3_MAX_DELTA slots. -/
def deltaSlot (delta : Nat) : Bool := tux3Delta delta == 1

/-- An inode in core.  `dirty`, `iattr`, `dead`, `dirtyBtree`, `orphaned` and `inodeDead` are
the fields of `tuxnode->flags`; of them the last two are NON_DIRTY_FLAGS.  `deletedIn` records
the deltas that flushed the inode with `deleted` set. -/
structure WbInode where
  dirty : Bool → DirtyBits
  iattr : Option Bool
  dead : Option Bool
  dirtyBtree : Bool
  orphaned : Bool
  inodeDead : Bool
  iState : DirtyBits
  iCount : Nat
  iNlink : Nat
  hashed : Bool
  deletedIn : List Nat

/-- `s_ddc->dirty_inodes` of the two slots.  An inode whose `i_ddc->dirty_list` is empty is
not on the list. -/
abbrev DirtyLists := Bool → List Nat

/-- Where the backend stands: with nothing to do, waiting for the frontend to leave the
delta, in `tux3_flush_inodes` (before and after it read the state of an inode), or in
`tux3_clear_dirty_inodes` (before an inode, with a reference to it, and with its flags
cleared).  `todo` is the rest of the list. -/
inductive WbBackend where
  | idle
  | waiting (delta : Nat)
  | flushing (delta : Nat) (todo : List Nat)
  | reading (delta id : Nat) (deleted : Bool) (todo : List Nat)
  | clearing (delta : Nat) (todo : List Nat)
  | grabbed (delta id : Nat) (todo : List Nat)
  | cleared (delta id : Nat) (todo : List Nat)

/-- A task in the middle of a change: after `tux3_iattrdirty`, or after the
`tux3_dirty_inode` of `__mark_inode_dirty`, which still has to set `i_state`. -/
structure Mark where
  delta : Nat
  id : Nat
  flags : Option DirtyBits
  deriving DecidableEq

/-- The inodes in core, the dirty lists, the delta of the frontend, and what is under way. -/
structure WbSb where
  inodes : Nat → Option WbInode
  dirtyInodes : DirtyLists
  delta : Nat
  backend : WbBackend
  marks : List Mark

/-! ## Code -/

/-- `!(flags & ~NON_DIRTY_FLAGS)`. -/
def WbInode.isClean (inode : WbInode) : Bool :=
  inode.dirty false == 0 && inode.dirty true == 0 && inode.iattr.isNone &&
    inode.dead.isNone && !inode.dirtyBtree

/-- `tux3_inode_is_dead`. -/
def WbInode.isDead (inode : WbInode) : Bool := inode.dead.isSome || inode.inodeDead

/-- An inode that is not on a dirty list is added to its tail. -/
def addDirty (lists : DirtyLists) (slot : Bool) (id : Nat) : DirtyLists :=
  if id ∈ lists slot then lists else Function.update lists slot (lists slot ++ [id])

/-- `tux3_dirty_inode`. -/
def tux3DirtyInode (lists : DirtyLists) (id : Nat) (inode : WbInode) (flags : DirtyBits)
    (delta : Nat) : DirtyLists × WbInode :=
  let slot := deltaSlot delta
  if inode.dirty slot &&& flags = flags then (lists, inode)
  else
    (addDirty lists slot id,
      { inode with dirty := Function.update inode.dirty slot (inode.dirty slot ||| flags) })

/-- `tux3_iattrdirty`. -/
def WbInode.tux3Iattrdirty (inode : WbInode) (delta : Nat) : WbInode :=
  { inode with iattr := some (deltaSlot delta) }

/-- `tux3_mark_inode_to_delete`. -/
def tux3MarkInodeToDelete (lists : DirtyLists) (id : Nat) (inode : WbInode) (delta : Nat) :
    Except TuxError (DirtyLists × WbInode) := do
  if inode.isDead then return (lists, inode)
  tuxAssert (inode.dead = none)
  let (lists, inode) := tux3DirtyInode lists id { inode with dead := some (deltaSlot delta) }
    iDirtySync delta
  return (lists, { inode with iState := inode.iState ||| iDirtySync })

/-- `tux3_evict_inode`, and the checks of `tux3_check_destroy_inode`. -/
def tux3EvictInode (lists : DirtyLists) (id : Nat) (inode : WbInode) :
    Except TuxError (DirtyLists × Option WbInode) := do
  tuxAssert (inode.isClean = true)
  tuxAssert (id ∉ lists false ∧ id ∉ lists true)
  return (lists, none)

/-- The first part of `tux3_drop_inode`. -/
def tux3DropInode (lists : DirtyLists) (id : Nat) (inode : WbInode) (delta : Nat) :
    Except TuxError (DirtyLists × WbInode) :=
  if inode.iNlink = 0 then tux3MarkInodeToDelete lists id inode delta
  else .ok (lists, inode)

/-- `iput`, with `tux3_drop_inode` where it was the last reference.  An inode that is dirty
stays in core. -/
def iput (lists : DirtyLists) (id : Nat) (inode : WbInode) (delta : Nat) :
    Except TuxError (DirtyLists × Option WbInode) := do
  let inode := { inode with iCount := inode.iCount - 1 }
  if inode.iCount ≠ 0 then return (lists, some inode)
  let (lists, inode) ← tux3DropInode lists id inode delta
  if inode.iState ≠ 0 then return (lists, some inode)
  tux3EvictInode lists id inode

/-- `__iget`. -/
def iget (inode : WbInode) : Except TuxError WbInode := do
  tuxAssert (inode.iCount ≠ 0 ∨ inode.iState ≠ 0)
  return { inode with iCount := inode.iCount + 1 }

/-- `tux3_state_read_and_clear`, and whether the inode is to be deleted.  Whether the link
count of the delta is zero is what its copy of the attributes says. -/
def tux3StateReadAndClear (inode : WbInode) (delta : Nat) (unlinked : Bool) :
    WbInode × Bool :=
  let slot := deltaSlot delta
  let deleted := decide (inode.dead = some slot)
  ({ inode with
    iattr := if inode.iattr = some slot then none else inode.iattr
    orphaned := inode.orphaned || unlinked
    dead := if deleted then none else inode.dead
    inodeDead := inode.inodeDead || deleted
    deletedIn := if deleted then inode.deletedIn ++ [delta] else inode.deletedIn }, deleted)

/-- `tux3_clear_dirty_inode_nolock`. -/
def tux3ClearDirtyInode (lists : DirtyLists) (id : Nat) (inode : WbInode) (delta : Nat) :
    DirtyLists × WbInode :=
  let slot := deltaSlot delta
  let oldDirty := inode.dirtyBtree || inode.dirty slot != 0
  let lists := if oldDirty then Function.update lists slot ((lists slot).erase id) else lists
  let inode := { inode with dirtyBtree := false, dirty := Function.update inode.dirty slot 0 }
  (lists, { inode with iState := if inode.isClean then 0 else inode.iState ||| iDirty })

/-! ## Steps -/

/-- An inode in core. -/
def WbSb.inode (sb : WbSb) (id : Nat) : Except TuxError WbInode :=
  match sb.inodes id with
  | some inode => .ok inode
  | none => .error .bounds

/-- An inode is changed, or evicted. -/
def WbSb.store (sb : WbSb) (id : Nat) (r : DirtyLists × Option WbInode) : WbSb :=
  { sb with inodes := Function.update sb.inodes id r.2, dirtyInodes := r.1 }

theorem WbSb.store_self (sb : WbSb) (id : Nat) (r : DirtyLists × Option WbInode) :
    (sb.store id r).inodes id = r.2 := Function.update_self _ _ _

theorem WbSb.store_of_ne (sb : WbSb) {id j : Nat} (r : DirtyLists × Option WbInode)
    (h : j ≠ id) : (sb.store id r).inodes j = sb.inodes j := Function.update_of_ne h _ _

/-- An inode is changed. -/
def WbSb.setInode (sb : WbSb) (id : Nat) (inode : WbInode) : WbSb :=
  sb.store id (sb.dirtyInodes, some inode)

/-- The references that the backend holds. -/
def WbBackend.held : WbBackend → Nat → Nat
  | .grabbed _ i _, id | .cleared _ i _, id => if i = id then 1 else 0
  | _, _ => 0

/-- The last reference may go, and the inode with it. -/
def WbSb.put (sb : WbSb) (id : Nat) : Except TuxError WbSb := do
  let inode ← sb.inode id
  let r ← iput sb.dirtyInodes id inode sb.delta
  return sb.store id r

/-- A step of a frontend task.  `load` brings an inode into core, `iget` finds it in the
hash; `markState` is the second part of `__mark_inode_dirty`. -/
inductive FrontendStep where
  | load (id iNlink : Nat) (orphaned : Bool)
  | ihold (id : Nat)
  | iget (id : Nat)
  | iattrdirty (delta id : Nat)
  | dirtyInode (delta id : Nat) (flags : DirtyBits)
  | dirtyAfterIattr (mark : Mark) (flags : DirtyBits)
  | markState (mark : Mark)
  | incLink (id : Nat)
  | dropLink (id : Nat)
  | iput (id : Nat)

/-- A frontend task works in the current delta, or in the one before it while the backend
still waits for that. -/
def WbSb.InDelta (sb : WbSb) (delta : Nat) : Prop :=
  delta = sb.delta ∨ sb.backend = .waiting delta

/-- Frontend tasks hold more than `n` references. -/
def WbSb.RefsAbove (sb : WbSb) (id n : Nat) : Prop :=
  ∃ inode, sb.inodes id = some inode ∧ sb.backend.held id + n < inode.iCount

/-- A task is in the middle of marking the inode. -/
def WbSb.Marked (sb : WbSb) (id : Nat) : Prop := ∃ m ∈ sb.marks, m.id = id

/-- When a frontend task can take a step.  It works on inodes it has a reference to, and
keeps that until it has marked the inode. -/
def WbSb.CanFront (sb : WbSb) : FrontendStep → Prop
  | .load id _ _ => sb.inodes id = none
  | .ihold id => sb.RefsAbove id 0
  | .iget id => ∃ inode, sb.inodes id = some inode ∧ inode.hashed = true
  | .iattrdirty delta id => sb.InDelta delta ∧ sb.RefsAbove id 0
  | .dirtyInode delta id flags => sb.InDelta delta ∧ sb.RefsAbove id 0 ∧ flags ≠ 0
  | .dirtyAfterIattr mark flags => mark ∈ sb.marks ∧ mark.flags = none ∧ flags ≠ 0
  | .markState mark => mark ∈ sb.marks ∧ mark.flags ≠ none
  | .incLink id | .dropLink id =>
      sb.RefsAbove id 0 ∧ ∃ inode, sb.inodes id = some inode ∧ inode.iNlink ≠ 0
  | .iput id => sb.RefsAbove id 0 ∧ (sb.Marked id → sb.RefsAbove id 1)

/-- A step of a frontend task. -/
def WbSb.front (sb : WbSb) : FrontendStep → Except TuxError WbSb
  | .load id iNlink orphaned => return sb.setInode id {
      dirty := fun _ => 0, iattr := none, dead := none, dirtyBtree := false
      orphaned := orphaned, inodeDead := false, iState := 0, iCount := 1, iNlink := iNlink
      hashed := true, deletedIn := [] }
  | .ihold id => do
      let inode ← sb.inode id
      tuxAssert (1 ≤ inode.iCount)
      return sb.setInode id { inode with iCount := inode.iCount + 1 }
  | .iget id => do
      let inode ← Tux3.iget (← sb.inode id)
      return sb.setInode id inode
  | .iattrdirty delta id => do
      let inode ← sb.inode id
      return { sb.setInode id (inode.tux3Iattrdirty delta) with
        marks := ⟨delta, id, none⟩ :: sb.marks }
  | .dirtyInode delta id flags => do
      let inode ← sb.inode id
      let (lists, inode) := tux3DirtyInode sb.dirtyInodes id inode flags delta
      return { sb.store id (lists, some inode) with
        marks := ⟨delta, id, some flags⟩ :: sb.marks }
  | .dirtyAfterIattr mark flags => do
      let inode ← sb.inode mark.id
      let (lists, inode) := tux3DirtyInode sb.dirtyInodes mark.id inode flags mark.delta
      return { sb.store mark.id (lists, some inode) with
        marks := ⟨mark.delta, mark.id, some flags⟩ :: sb.marks.erase mark }
  | .markState mark => do
      let inode ← sb.inode mark.id
      return { sb.setInode mark.id { inode with
          iState := inode.iState ||| mark.flags.getD 0 } with
        marks := sb.marks.erase mark }
  | .incLink id => do
      let inode ← sb.inode id
      return sb.setInode id { inode with iNlink := inode.iNlink + 1 }
  | .dropLink id => do
      let inode ← sb.inode id
      return sb.setInode id { inode with iNlink := inode.iNlink - 1 }
  | .iput id => sb.put id

/-- A step of the backend: a delta transition, the sort of the dirty list, the two parts of
`tux3_flush_inode` (which may dirty the btree root, and may fail), the end of
`tux3_flush_inodes`, and the parts of `tux3_clear_dirty_inodes`. -/
inductive BackendStep where
  | transition
  | sort (order : List Nat)
  | read (unlinked : Bool)
  | flush (btreeDirty fails : Bool)
  | flushed
  | grab
  | clear
  | put
  | finish

/-- When the backend can take a step. -/
def WbSb.CanBack (sb : WbSb) : BackendStep → Prop
  | .transition => sb.backend = .idle
  | .sort order => ∃ delta, sb.backend = .waiting delta ∧ (∀ m ∈ sb.marks, m.delta ≠ delta) ∧
      order.Perm (sb.dirtyInodes (deltaSlot delta))
  | .read _ => ∃ delta id todo, sb.backend = .flushing delta (id :: todo)
  | .flush _ _ => ∃ delta id deleted todo, sb.backend = .reading delta id deleted todo
  | .flushed => ∃ delta, sb.backend = .flushing delta []
  | .grab => ∃ delta id todo, sb.backend = .clearing delta (id :: todo)
  | .clear => ∃ delta id todo, sb.backend = .grabbed delta id todo
  | .put => ∃ delta id todo, sb.backend = .cleared delta id todo
  | .finish => ∃ delta, sb.backend = .clearing delta []

/-- A step of the backend. -/
def WbSb.back (sb : WbSb) (step : BackendStep) : Except TuxError WbSb :=
  match step, sb.backend with
  | .transition, .idle =>
      .ok { sb with delta := succDelta sb.delta, backend := .waiting sb.delta }
  | .sort order, .waiting delta =>
      .ok { sb with
        dirtyInodes := Function.update sb.dirtyInodes (deltaSlot delta) order
        backend := .flushing delta order }
  | .read unlinked, .flushing delta (id :: todo) => do
      let inode ← sb.inode id
      let (inode, deleted) := tux3StateReadAndClear inode delta unlinked
      return { sb.setInode id inode with backend := .reading delta id deleted todo }
  | .flush btreeDirty fails, .reading delta id deleted todo => do
      let inode ← sb.inode id
      return { sb.setInode id { inode with
          hashed := inode.hashed && !deleted
          dirtyBtree := inode.dirtyBtree || btreeDirty } with
        backend := if fails then .idle else .flushing delta todo }
  | .flushed, .flushing delta [] =>
      .ok { sb with backend := .clearing delta (sb.dirtyInodes (deltaSlot delta)) }
  | .grab, .clearing delta (id :: todo) => do
      let inode ← Tux3.iget (← sb.inode id)
      return { sb.setInode id inode with backend := .grabbed delta id todo }
  | .clear, .grabbed delta id todo => do
      let inode ← sb.inode id
      let (lists, inode) := tux3ClearDirtyInode sb.dirtyInodes id inode delta
      return { sb.store id (lists, some inode) with backend := .cleared delta id todo }
  | .put, .cleared delta id todo => do
      let sb ← sb.put id
      return { sb with backend := .clearing delta todo }
  | .finish, .clearing delta [] => do
      tuxAssert (sb.dirtyInodes (deltaSlot delta) = [])
      return { sb with backend := .idle }
  | _, _ => .error .bounds

/-- A file system without inodes in core, and all that follows. -/
def writebackSystem : System WbSb where
  init sb := (∀ id, sb.inodes id = none) ∧ (∀ slot, sb.dirtyInodes slot = []) ∧
    sb.backend = .idle ∧ sb.marks = []
  next sb sb' := (∃ step, sb.CanFront step ∧ sb.front step = .ok sb') ∨
    ∃ step, sb.CanBack step ∧ sb.back step = .ok sb'

end Tux3
