/-
  Orphan.lean --- orphan inodes: unlinked, still open, not yet destroyed.

  A flush of an inode that lost its last link puts it on `sb->orphan_add` and logs
  `LOG_ORPHAN_ADD`; the flush that destroys it takes it off again, or, when a unify has
  moved it to the orphan btree, puts its number on `sb->orphan_del`, and logs
  `LOG_ORPHAN_DEL`.  A unify applies both lists to the btree and starts a new log.

  The system interleaves flushes, unifies, commits and crashes in any order.
  `OrphanInv` says what the two lists and the btree mean for the inodes and that the
  log of the cycle replays to the two lists; it holds of the running state and of the
  committed one, and replay rebuilds from the committed log, btree and inodes exactly
  what `OrphansRebuilt` says.
-/
import Mathlib.Data.List.Nodup
import Mathlib.Logic.Function.Basic
import Mathlib.Data.List.Perm.Basic
import Tux3.Lib.System
import Tux3.Log.ReadBack

set_option autoImplicit false

namespace Tux3

/-! ## State -/

/-- An inode, as far as orphans go: its link count and the `TUX3_INODE_ORPHANED` flag.
`inOtree` is not in the source: it records that the last unify entered this inode, and
not an earlier one with the same number, into the orphan btree. -/
structure Inode where
  nlink : Nat
  orphaned : Bool
  inOtree : Bool
  deriving DecidableEq, Repr, Inhabited

/-- The orphan fields of the super block, the inodes, the numbers in the orphan btree
and the log records since the latest unify mark. -/
structure OrphanSb where
  version : Nat
  inodes : Nat → Option Inode
  orphanAdd : List Nat
  orphanDel : List Nat
  otree : List Nat
  log : List LogRecord

/-- The inode with this number replaced, or removed. -/
def OrphanSb.setInode (sb : OrphanSb) (inum : Nat) (inode : Option Inode) : OrphanSb :=
  { sb with inodes := Function.update sb.inodes inum inode }

/-- The inode is orphaned and not yet destroyed. -/
def IsOrphan (inodes : Nat → Option Inode) (inum : Nat) : Prop :=
  ∃ inode, inodes inum = some inode ∧ inode.nlink = 0

/-- The current inode of this number is the one the orphan btree has. -/
def InOtree (inodes : Nat → Option Inode) (inum : Nat) : Prop :=
  ∃ inode, inodes inum = some inode ∧ inode.inOtree = true

/-! ## Flushing inodes -/

/-- `tux3_make_orphan_add`. -/
def makeOrphanAdd (sb : OrphanSb) (inum : Nat) : Option OrphanSb :=
  -- assert(list_empty(&tuxnode->orphan_list))
  if inum ∈ sb.orphanAdd then none
  else some { sb with
    orphanAdd := inum :: sb.orphanAdd
    log := sb.log ++ [.orphanAdd sb.version inum] }

/-- `tux3_make_orphan_del`. -/
def makeOrphanDel (sb : OrphanSb) (inum : Nat) : OrphanSb :=
  if inum ∈ sb.orphanAdd then
    { sb with
      orphanAdd := sb.orphanAdd.erase inum
      log := sb.log ++ [.orphanDel sb.version inum] }
  else
    { sb with
      orphanDel := inum :: sb.orphanDel
      log := sb.log ++ [.orphanDel sb.version inum] }

/-- `tux3_flush_inode`: the inode has `nlink` links in this delta and is to be deleted or
not.  A number without an inode is the first flush of a new one. -/
def tux3FlushInode (sb : OrphanSb) (inum nlink : Nat) (deleted : Bool) : Option OrphanSb :=
  let inode := (sb.inodes inum).getD { nlink := nlink, orphaned := false, inOtree := false }
  let orphaned := nlink = 0 ∧ inode.orphaned = false
  if deleted then
    -- orphaned on a past delta: delete the orphan; then tux3_purge_inode()
    let sb := if orphaned then sb else makeOrphanDel sb inum
    some (sb.setInode inum none)
  else do
    let sb ← if orphaned then makeOrphanAdd sb inum else some sb
    return sb.setInode inum (some
      { inode with nlink := nlink, orphaned := inode.orphaned || decide (nlink = 0) })

/-- What the frontend can ask for: only an inode without links is deleted, and an inode
that lost its last link does not get a new one. -/
def FlushAllowed (sb : OrphanSb) (inum nlink : Nat) (deleted : Bool) : Prop :=
  (deleted = true → nlink = 0) ∧ (IsOrphan sb.inodes inum → nlink = 0)

/-! ## Unify -/

/-- `tux3_unify_orphan_del`: `btree_chop` of each number. -/
def tux3UnifyOrphanDel (otree : List Nat) : List Nat → List Nat
  | [] => otree
  | inum :: orphanDel => tux3UnifyOrphanDel (otree.filter (· ≠ inum)) orphanDel

/-- `tux3_unify_orphan_add`: `btree_write` of each number. -/
def tux3UnifyOrphanAdd (otree : List Nat) : List Nat → List Nat
  | [] => otree
  | inum :: orphanAdd => tux3UnifyOrphanAdd (otree.insert inum) orphanAdd

/-- The orphan part of `unify_log`: a new log, the deletions and then the additions
applied to the orphan btree. -/
def unifyOrphans (sb : OrphanSb) : OrphanSb :=
  { sb with
    inodes := fun i => (sb.inodes i).map fun inode =>
      { inode with inOtree := inode.inOtree || decide (i ∈ sb.orphanAdd) }
    orphanAdd := []
    orphanDel := []
    otree := tux3UnifyOrphanAdd (tux3UnifyOrphanDel sb.otree sb.orphanDel) sb.orphanAdd
    log := [.unify] }

/-! ## Replay -/

/-- The orphan fields of replay: the records not yet cancelled, and `sb->orphan_del`. -/
structure OrphanReplay where
  logOrphanAdd : List Nat
  orphanDel : List Nat
  deriving DecidableEq, Repr, Inhabited

/-- `replay_orphan_add`. -/
def replayOrphanAdd (sbVersion version inum : Nat) (rp : OrphanReplay) :
    Except ReplayError OrphanReplay :=
  if sbVersion ≠ version then .ok rp
  -- assert(!replay_find_orphan(&rp->log_orphan_add, inum))
  else if inum ∈ rp.logOrphanAdd then .error .assertion
  else .ok { rp with logOrphanAdd := inum :: rp.logOrphanAdd }

/-- `replay_orphan_del`. -/
def replayOrphanDel (sbVersion version inum : Nat) (rp : OrphanReplay) :
    Except ReplayError OrphanReplay :=
  if sbVersion ≠ version then .ok rp
  else if inum ∈ rp.logOrphanAdd then .ok { rp with logOrphanAdd := rp.logOrphanAdd.erase inum }
  else .ok { rp with orphanDel := inum :: rp.orphanDel }

/-- What `replay_log_stage2` does for orphans with a record. -/
def replayOrphanRecord (sbVersion : Nat) (r : LogRecord) (rp : OrphanReplay) :
    Except ReplayError OrphanReplay :=
  match r with
  | .orphanAdd version inum => replayOrphanAdd sbVersion version inum rp
  | .orphanDel version inum => replayOrphanDel sbVersion version inum rp
  | _ => .ok rp

/-- `load_orphan_inode`: the inode must exist and have no links. -/
def loadOrphanInode (inodes : Nat → Option Inode) (inum : Nat) (head : List Nat) :
    Except ReplayError (List Nat) :=
  match inodes inum with
  | none => .error .noInode
  | some inode => if inode.nlink = 0 then .ok (inum :: head) else .error .assertion

/-- The loop of `replay_load_orphan_inodes` over the records not cancelled. -/
def loadLogOrphans (inodes : Nat → Option Inode) :
    List Nat → List Nat → Except ReplayError (List Nat)
  | [], head => .ok head
  | inum :: rest, head => do loadLogOrphans inodes rest (← loadOrphanInode inodes inum head)

/-- `load_otree_orphan_inode`: the traversal with `load_enum_inode` on each entry. -/
def loadOtreeOrphans (inodes : Nat → Option Inode) (orphanDel : List Nat) :
    List Nat → List Nat → Except ReplayError (List Nat)
  | [], head => .ok head
  | inum :: rest, head =>
      if inum ∈ orphanDel then loadOtreeOrphans inodes orphanDel rest head
      else do loadOtreeOrphans inodes orphanDel rest (← loadOrphanInode inodes inum head)

/-- What replay leaves for the mount: the orphans not in the orphan btree, those in it,
and the dead numbers in it. -/
structure OrphansLoaded where
  orphanAdd : List Nat
  orphanInOtree : List Nat
  orphanDel : List Nat
  deriving DecidableEq, Repr, Inhabited

/-- `replay_load_orphan_inodes`. -/
def replayLoadOrphanInodes (inodes : Nat → Option Inode) (otree : List Nat)
    (rp : OrphanReplay) : Except ReplayError OrphansLoaded := do
  let orphanAdd ← loadLogOrphans inodes rp.logOrphanAdd []
  let orphanInOtree ← loadOtreeOrphans inodes rp.orphanDel otree []
  return { orphanAdd := orphanAdd, orphanInOtree := orphanInOtree, orphanDel := rp.orphanDel }

/-- The orphan part of a replay: stage2 over the records since the mark, then the load. -/
def replayOrphans (sb : OrphanSb) : Except ReplayError OrphansLoaded := do
  let rp ← applyRecords (replayOrphanRecord sb.version) sb.log
    { logOrphanAdd := [], orphanDel := [] }
  replayLoadOrphanInodes sb.inodes sb.otree rp

/-- The state after a mount: the inodes loaded as orphans are flagged, the others are
read without the flag. -/
def mountOrphans (sb : OrphanSb) (loaded : OrphansLoaded) : OrphanSb :=
  { sb with
    inodes := fun i => (sb.inodes i).map fun inode =>
      { inode with orphaned := decide (i ∈ loaded.orphanAdd ++ loaded.orphanInOtree) }
    orphanAdd := loaded.orphanAdd
    orphanDel := loaded.orphanDel }

/-- On the log blocks of a cycle that are read back, stage2 does with orphans what it does
with the records since the mark. -/
theorem replayLogStage2_orphans {g : Geometry} {ds : List Delta}
    {wss : List (List (Nat × Logblock))} {rp : Replay} (h : ReadsBack g ds wss rp)
    (sbVersion : Nat) (s : OrphanReplay) :
    replayLogblocks (replayLogStage2 (fun _ s => .ok s) (replayOrphanRecord sbVersion) rp) 0
        rp.blocks s =
      applyRecords (replayOrphanRecord sbVersion) (cycleRecords [] ds) s := by
  refine h.stage2_records _ (fun r s hskip => ?_) s
  cases r <;> simp_all [stage2Handles, LogRecord.code, replayOrphanRecord]

/-! ## The system -/

/-- The running state and the one the super block on disk stands for. -/
structure OrphanRun where
  cur : OrphanSb
  committed : OrphanSb

/-- A record that is neither about orphans nor the unify mark. -/
def OtherRecord (r : LogRecord) : Prop :=
  r.code ≠ .orphanAdd ∧ r.code ≠ .orphanDel ∧ r.code ≠ .unify

/-- A step: flush an inode, log something else, unify, commit, or crash and mount. -/
inductive OrphanStep : OrphanRun → OrphanRun → Prop where
  | flush {s : OrphanRun} {inum nlink : Nat} {deleted : Bool} {sb : OrphanSb}
      (hallowed : FlushAllowed s.cur inum nlink deleted)
      (hflush : tux3FlushInode s.cur inum nlink deleted = some sb) :
      OrphanStep s { s with cur := sb }
  | log {s : OrphanRun} {r : LogRecord} (hother : OtherRecord r) :
      OrphanStep s { s with cur := { s.cur with log := s.cur.log ++ [r] } }
  | unify {s : OrphanRun} : OrphanStep s { s with cur := unifyOrphans s.cur }
  | commit {s : OrphanRun} : OrphanStep s { s with committed := s.cur }
  | mount {s : OrphanRun} {loaded : OrphansLoaded}
      (hreplay : replayOrphans s.committed = .ok loaded) :
      OrphanStep s
        { cur := mountOrphans s.committed loaded
          committed := mountOrphans s.committed loaded }

/-- A fresh volume has no inodes and no orphans. -/
def mkfsOrphans (version : Nat) : OrphanSb :=
  { version := version, inodes := fun _ => none, orphanAdd := [], orphanDel := []
    otree := [], log := [] }

/-- The orphan protocol from a fresh volume on. -/
def orphanSystem : System OrphanRun where
  init s := ∃ version, s = { cur := mkfsOrphans version, committed := mkfsOrphans version }
  next := OrphanStep

/-! ## The invariant -/

/-- The log replays to these lists, up to their order. -/
def LogReplaysTo (version : Nat) (log : List LogRecord) (add del : List Nat) : Prop :=
  ∃ rp, applyRecords (replayOrphanRecord version) log
      { logOrphanAdd := [], orphanDel := [] } = .ok rp ∧
    rp.logOrphanAdd.Perm add ∧ rp.orphanDel.Perm del

/-- What the orphan state means: the add list has the orphans not yet in the btree, the
btree has the others and dead numbers, the delete list has the dead numbers, the flag
says which inodes are orphans, and the log of the cycle replays to the two lists. -/
structure OrphanInv (sb : OrphanSb) : Prop where
  flag : ∀ inum inode, sb.inodes inum = some inode →
    (inode.orphaned = true ↔ inode.nlink = 0)
  addNodup : sb.orphanAdd.Nodup
  add : ∀ inum, inum ∈ sb.orphanAdd ↔ IsOrphan sb.inodes inum ∧ ¬ InOtree sb.inodes inum
  delNodup : sb.orphanDel.Nodup
  del : ∀ inum, inum ∈ sb.orphanDel ↔ inum ∈ sb.otree ∧ ¬ InOtree sb.inodes inum
  otreeNodup : sb.otree.Nodup
  entered : ∀ inum, InOtree sb.inodes inum → inum ∈ sb.otree ∧ IsOrphan sb.inodes inum
  replay : LogReplaysTo sb.version sb.log sb.orphanAdd sb.orphanDel

/-- Replay rebuilds the orphan state of `sb`: every orphan is listed once, in
`orphan_add` or, when the orphan btree has it, in `orphan_in_otree`, and `orphan_del`
lists the dead numbers in the btree, each once. -/
structure OrphansRebuilt (sb : OrphanSb) (loaded : OrphansLoaded) : Prop where
  once : (loaded.orphanAdd ++ loaded.orphanInOtree).Nodup
  add : ∀ inum, inum ∈ loaded.orphanAdd ↔ IsOrphan sb.inodes inum ∧ ¬ InOtree sb.inodes inum
  inOtree : ∀ inum, inum ∈ loaded.orphanInOtree ↔
    IsOrphan sb.inodes inum ∧ InOtree sb.inodes inum ∧ inum ∈ sb.otree
  delNodup : loaded.orphanDel.Nodup
  del : ∀ inum, inum ∈ loaded.orphanDel ↔ inum ∈ sb.otree ∧ ¬ InOtree sb.inodes inum

theorem mkfsOrphans_inv (version : Nat) : OrphanInv (mkfsOrphans version) := by
  refine ⟨?_, .nil, ?_, .nil, ?_, .nil, ?_, ⟨_, rfl, .nil, .nil⟩⟩
  all_goals simp [mkfsOrphans, IsOrphan, InOtree]

/-! ## The log follows the lists -/

section LogReplaysTo

variable {version : Nat} {log : List LogRecord} {add del : List Nat}

/-- One more record. -/
theorem LogReplaysTo.concat (h : LogReplaysTo version log add del) {r : LogRecord}
    {add' del' : List Nat}
    (hr : ∀ rp : OrphanReplay, rp.logOrphanAdd.Perm add → rp.orphanDel.Perm del →
      ∃ rp', replayOrphanRecord version r rp = .ok rp' ∧
        rp'.logOrphanAdd.Perm add' ∧ rp'.orphanDel.Perm del') :
    LogReplaysTo version (log ++ [r]) add' del' := by
  obtain ⟨rp, hrun, hadd, hdel⟩ := h
  obtain ⟨rp', hstep, hadd', hdel'⟩ := hr rp hadd hdel
  refine ⟨rp', ?_, hadd', hdel'⟩
  rw [applyRecords_append, hrun]
  simp [applyRecords, hstep, bind, Except.bind]

theorem LogReplaysTo.orphanAdd (h : LogReplaysTo version log add del) {inum : Nat}
    (hnew : inum ∉ add) :
    LogReplaysTo version (log ++ [.orphanAdd version inum]) (inum :: add) del := by
  refine h.concat fun rp hadd hdel =>
    ⟨{ rp with logOrphanAdd := inum :: rp.logOrphanAdd }, ?_, hadd.cons inum, hdel⟩
  have hfind : inum ∉ rp.logOrphanAdd := fun hmem => hnew (hadd.mem_iff.mp hmem)
  simp [replayOrphanRecord, replayOrphanAdd, hfind]

theorem LogReplaysTo.orphanDel_listed (h : LogReplaysTo version log add del) {inum : Nat}
    (hlisted : inum ∈ add) :
    LogReplaysTo version (log ++ [.orphanDel version inum]) (add.erase inum) del := by
  refine h.concat fun rp hadd hdel =>
    ⟨{ rp with logOrphanAdd := rp.logOrphanAdd.erase inum }, ?_, hadd.erase inum, hdel⟩
  have hfind : inum ∈ rp.logOrphanAdd := hadd.mem_iff.mpr hlisted
  simp [replayOrphanRecord, replayOrphanDel, hfind]

theorem LogReplaysTo.orphanDel_unlisted (h : LogReplaysTo version log add del) {inum : Nat}
    (hunlisted : inum ∉ add) :
    LogReplaysTo version (log ++ [.orphanDel version inum]) add (inum :: del) := by
  refine h.concat fun rp hadd hdel =>
    ⟨{ rp with orphanDel := inum :: rp.orphanDel }, ?_, hadd, hdel.cons inum⟩
  have hfind : inum ∉ rp.logOrphanAdd := fun hmem => hunlisted (hadd.mem_iff.mp hmem)
  simp [replayOrphanRecord, replayOrphanDel, hfind]

theorem LogReplaysTo.other (h : LogReplaysTo version log add del) {r : LogRecord}
    (hother : OtherRecord r) : LogReplaysTo version (log ++ [r]) add del := by
  refine h.concat fun rp hadd hdel => ⟨rp, ?_, hadd, hdel⟩
  cases r with
  | orphanAdd => exact absurd rfl hother.1
  | orphanDel => exact absurd rfl hother.2.1
  | _ => rfl

end LogReplaysTo

/-! ## Flushes keep the invariant -/

section Flush

variable {sb : OrphanSb} {inum : Nat}

theorem isOrphan_setInode (inode : Option Inode) (i : Nat) :
    IsOrphan (sb.setInode inum inode).inodes i ↔
      if i = inum then ∃ n, inode = some n ∧ n.nlink = 0 else IsOrphan sb.inodes i := by
  by_cases h : i = inum
  · subst h
    simp [IsOrphan, OrphanSb.setInode]
  · simp [IsOrphan, OrphanSb.setInode, h]

theorem inOtree_setInode (inode : Option Inode) (i : Nat) :
    InOtree (sb.setInode inum inode).inodes i ↔
      if i = inum then ∃ n, inode = some n ∧ n.inOtree = true else InOtree sb.inodes i := by
  by_cases h : i = inum
  · subst h
    simp [InOtree, OrphanSb.setInode]
  · simp [InOtree, OrphanSb.setInode, h]

/-- The flags of the other inodes are as before. -/
theorem flag_setInode {inode : Option Inode}
    (hflag : ∀ i n, sb.inodes i = some n → (n.orphaned = true ↔ n.nlink = 0))
    (hnew : ∀ n, inode = some n → (n.orphaned = true ↔ n.nlink = 0)) (i : Nat) (n : Inode)
    (hn : (sb.setInode inum inode).inodes i = some n) : n.orphaned = true ↔ n.nlink = 0 := by
  by_cases h : i = inum
  · subst h
    exact hnew n (by simpa [OrphanSb.setInode] using hn)
  · exact hflag i n (by simpa [OrphanSb.setInode, h] using hn)

/-- The flag of an inode that was never flushed as an orphan. -/
theorem OrphanInv.isOrphan_iff_flag (h : OrphanInv sb) (inum : Nat) (dflt : Inode)
    (hdflt : dflt.orphaned = false) :
    IsOrphan sb.inodes inum ↔ ((sb.inodes inum).getD dflt).orphaned = true := by
  unfold IsOrphan
  cases hinode : sb.inodes inum with
  | none => simp [hdflt]
  | some inode => simpa using (h.flag inum inode hinode).symm

theorem inOtree_iff (sb : OrphanSb) (inum : Nat) (dflt : Inode)
    (hdflt : dflt.inOtree = false) :
    InOtree sb.inodes inum ↔ ((sb.inodes inum).getD dflt).inOtree = true := by
  unfold InOtree
  cases hinode : sb.inodes inum with
  | none => simp [hdflt]
  | some inode => simp

/-- The inodes enter the invariant only through the flags and who is an orphan and who
is in the btree. -/
theorem OrphanInv.setInode_of_same (h : OrphanInv sb) (inode : Option Inode)
    (hflag : ∀ n, inode = some n → (n.orphaned = true ↔ n.nlink = 0))
    (horphan : (∃ n, inode = some n ∧ n.nlink = 0) ↔ IsOrphan sb.inodes inum)
    (hotree : (∃ n, inode = some n ∧ n.inOtree = true) ↔ InOtree sb.inodes inum) :
    OrphanInv (sb.setInode inum inode) := by
  have horphan' : ∀ i, IsOrphan (sb.setInode inum inode).inodes i ↔ IsOrphan sb.inodes i := by
    intro i
    rw [isOrphan_setInode]
    split
    · rename_i heq
      rw [heq, horphan]
    · rfl
  have hotree' : ∀ i, InOtree (sb.setInode inum inode).inodes i ↔ InOtree sb.inodes i := by
    intro i
    rw [inOtree_setInode]
    split
    · rename_i heq
      rw [heq, hotree]
    · rfl
  refine ⟨?_, h.addNodup, ?_, h.delNodup, ?_, h.otreeNodup, ?_, h.replay⟩
  · exact flag_setInode h.flag hflag
  · intro i
    rw [horphan', hotree']
    exact h.add i
  · intro i
    rw [hotree']
    exact h.del i
  · intro i hi
    rw [horphan']
    exact h.entered i ((hotree' i).mp hi)

/-- An inode that loses its last link joins the add list. -/
theorem OrphanInv.makeOrphanAdd (h : OrphanInv sb) (hnot : ¬ IsOrphan sb.inodes inum) :
    ∃ sb', makeOrphanAdd sb inum = some sb' ∧
      OrphanInv (sb'.setInode inum (some { nlink := 0, orphaned := true, inOtree := false })) := by
  have hunlisted : inum ∉ sb.orphanAdd := fun hmem => hnot ((h.add inum).mp hmem).1
  have hout : ¬ InOtree sb.inodes inum := fun hin => hnot (h.entered inum hin).2
  refine ⟨_, by rw [Tux3.makeOrphanAdd, if_neg hunlisted], ?_⟩
  refine ⟨?_, ?_, ?_, h.delNodup, ?_, h.otreeNodup, ?_, h.replay.orphanAdd hunlisted⟩
  · refine flag_setInode h.flag fun n hn => ?_
    obtain rfl := Option.some.inj hn
    simp
  · exact List.nodup_cons.mpr ⟨hunlisted, h.addNodup⟩
  · intro i
    rw [isOrphan_setInode, inOtree_setInode]
    by_cases heq : i = inum
    · simp [heq, OrphanSb.setInode]
    · simpa [heq, OrphanSb.setInode] using h.add i
  · intro i
    rw [inOtree_setInode]
    by_cases heq : i = inum
    · have hdel := h.del inum
      simpa [heq, OrphanSb.setInode, hout] using hdel
    · simpa [heq, OrphanSb.setInode] using h.del i
  · intro i
    rw [isOrphan_setInode, inOtree_setInode]
    by_cases heq : i = inum
    · simp [heq]
    · simpa [heq, OrphanSb.setInode] using h.entered i

/-- A destroyed orphan leaves the add list, or its entry in the btree becomes dead. -/
theorem OrphanInv.makeOrphanDel (h : OrphanInv sb) (horphan : IsOrphan sb.inodes inum) :
    OrphanInv ((makeOrphanDel sb inum).setInode inum none) := by
  by_cases hlisted : inum ∈ sb.orphanAdd
  · have hout : ¬ InOtree sb.inodes inum := ((h.add inum).mp hlisted).2
    rw [Tux3.makeOrphanDel, if_pos hlisted]
    refine ⟨flag_setInode h.flag (by simp), h.addNodup.erase inum, ?_, h.delNodup, ?_, h.otreeNodup, ?_,
      h.replay.orphanDel_listed hlisted⟩
    · intro i
      rw [isOrphan_setInode, inOtree_setInode]
      by_cases heq : i = inum
      · simp [heq, OrphanSb.setInode, h.addNodup.mem_erase_iff]
      · simpa [heq, OrphanSb.setInode, h.addNodup.mem_erase_iff] using h.add i
    · intro i
      rw [inOtree_setInode]
      by_cases heq : i = inum
      · simpa [heq, OrphanSb.setInode, hout] using h.del inum
      · simpa [heq, OrphanSb.setInode] using h.del i
    · intro i
      rw [isOrphan_setInode, inOtree_setInode]
      by_cases heq : i = inum
      · simp [heq]
      · simpa [heq, OrphanSb.setInode] using h.entered i
  · have hin : InOtree sb.inodes inum := by
      by_contra hout
      exact hlisted ((h.add inum).mpr ⟨horphan, hout⟩)
    have halive : inum ∉ sb.orphanDel := fun hmem => ((h.del inum).mp hmem).2 hin
    rw [Tux3.makeOrphanDel, if_neg hlisted]
    refine ⟨flag_setInode h.flag (by simp), h.addNodup, ?_, List.nodup_cons.mpr ⟨halive, h.delNodup⟩, ?_,
      h.otreeNodup, ?_, h.replay.orphanDel_unlisted hlisted⟩
    · intro i
      rw [isOrphan_setInode, inOtree_setInode]
      by_cases heq : i = inum
      · simpa [heq, OrphanSb.setInode] using hlisted
      · simpa [heq, OrphanSb.setInode] using h.add i
    · intro i
      rw [inOtree_setInode]
      by_cases heq : i = inum
      · simpa [heq, OrphanSb.setInode] using (h.entered inum hin).1
      · simpa [heq, OrphanSb.setInode] using h.del i
    · intro i
      rw [isOrphan_setInode, inOtree_setInode]
      by_cases heq : i = inum
      · simp [heq]
      · simpa [heq, OrphanSb.setInode] using h.entered i

/-- Step lemma for a flush: it never fails its assertion and keeps the invariant. -/
theorem OrphanInv.flushInode (h : OrphanInv sb) {nlink : Nat} {deleted : Bool}
    (hallowed : FlushAllowed sb inum nlink deleted) :
    ∃ sb', tux3FlushInode sb inum nlink deleted = some sb' ∧ OrphanInv sb' := by
  set dflt : Inode := { nlink := nlink, orphaned := false, inOtree := false } with hdflt
  have hflag := h.isOrphan_iff_flag inum dflt rfl
  have hotree := inOtree_iff sb inum dflt rfl
  rw [tux3FlushInode]
  simp only [← hdflt]
  set inode := (sb.inodes inum).getD dflt with hinode
  by_cases horphan : IsOrphan sb.inodes inum
  · -- flagged on a past flush
    have hflagged : inode.orphaned = true := hflag.mp horphan
    have hnlink : nlink = 0 := hallowed.2 horphan
    cases deleted with
    | true => exact ⟨_, by simp [hflagged], h.makeOrphanDel horphan⟩
    | false =>
        refine ⟨_, by simp [hflagged]; rfl, h.setInode_of_same _ ?_ ?_ ?_⟩
        · simp [hnlink]
        · simp [hnlink, horphan]
        · simpa using hotree.symm
  · have hflagged : inode.orphaned = false := by
      cases hval : inode.orphaned with
      | false => rfl
      | true => exact absurd (hflag.mpr hval) horphan
    have hout : ¬ InOtree sb.inodes inum := fun hin => horphan (h.entered inum hin).2
    have hout' : inode.inOtree = false := by
      cases hval : inode.inOtree with
      | false => rfl
      | true => exact absurd (hotree.mpr hval) hout
    cases deleted with
    | true =>
        -- unlinked and destroyed within one delta: nothing to log
        have hnlink : nlink = 0 := hallowed.1 rfl
        refine ⟨sb.setInode inum none, by simp [hflagged, hnlink],
          h.setInode_of_same none ?_ ?_ ?_⟩
        · simp
        · simpa using horphan
        · simpa using hout
    | false =>
        by_cases hnlink : nlink = 0
        · obtain ⟨sb', hadd, hinv⟩ := h.makeOrphanAdd horphan
          refine ⟨_, by simp [hflagged, hnlink, hadd]; rfl, ?_⟩
          simpa [hout'] using hinv
        · refine ⟨_, by simp [hnlink]; rfl, h.setInode_of_same _ ?_ ?_ ?_⟩
          · simp [hflagged, hnlink]
          · simpa [hnlink] using horphan
          · simpa [hout'] using hout

end Flush

/-! ## Unify keeps the invariant -/

theorem mem_tux3UnifyOrphanDel (orphanDel otree : List Nat) (inum : Nat) :
    inum ∈ tux3UnifyOrphanDel otree orphanDel ↔ inum ∈ otree ∧ inum ∉ orphanDel := by
  induction orphanDel generalizing otree with
  | nil => simp [tux3UnifyOrphanDel]
  | cons i orphanDel ih => simp [tux3UnifyOrphanDel, ih, and_assoc]

theorem mem_tux3UnifyOrphanAdd (orphanAdd otree : List Nat) (inum : Nat) :
    inum ∈ tux3UnifyOrphanAdd otree orphanAdd ↔ inum ∈ otree ∨ inum ∈ orphanAdd := by
  induction orphanAdd generalizing otree with
  | nil => simp [tux3UnifyOrphanAdd]
  | cons i orphanAdd ih =>
      rw [tux3UnifyOrphanAdd, ih, List.mem_insert_iff, List.mem_cons]
      tauto

theorem tux3UnifyOrphanDel_nodup {orphanDel otree : List Nat} (h : otree.Nodup) :
    (tux3UnifyOrphanDel otree orphanDel).Nodup := by
  induction orphanDel generalizing otree with
  | nil => exact h
  | cons i orphanDel ih => exact ih (h.filter _)

theorem tux3UnifyOrphanAdd_nodup {orphanAdd otree : List Nat} (h : otree.Nodup) :
    (tux3UnifyOrphanAdd otree orphanAdd).Nodup := by
  induction orphanAdd generalizing otree with
  | nil => exact h
  | cons i orphanAdd ih => exact ih h.insert

/-- Step lemma for a unify: every entry of the btree is alive afterwards. -/
theorem OrphanInv.unify {sb : OrphanSb} (h : OrphanInv sb) : OrphanInv (unifyOrphans sb) := by
  have horphan : ∀ i, IsOrphan (unifyOrphans sb).inodes i ↔ IsOrphan sb.inodes i := by
    intro i
    cases hinode : sb.inodes i <;> simp [IsOrphan, unifyOrphans, hinode]
  have hlisted : ∀ i ∈ sb.orphanAdd, (sb.inodes i).isSome := by
    intro i hi
    obtain ⟨inode, hinode, -⟩ := ((h.add i).mp hi).1
    simp [hinode]
  have hotree : ∀ i, InOtree (unifyOrphans sb).inodes i ↔
      InOtree sb.inodes i ∨ i ∈ sb.orphanAdd := by
    intro i
    cases hinode : sb.inodes i with
    | none =>
        have hnot : i ∉ sb.orphanAdd := fun hi => by simpa [hinode] using hlisted i hi
        simp [InOtree, unifyOrphans, hinode, hnot]
    | some inode => simp [InOtree, unifyOrphans, hinode]
  have hmem : ∀ i, i ∈ (unifyOrphans sb).otree ↔ InOtree (unifyOrphans sb).inodes i := by
    intro i
    rw [hotree]
    have hdel := h.del i
    have hentered := h.entered i
    simp only [unifyOrphans, mem_tux3UnifyOrphanAdd, mem_tux3UnifyOrphanDel]
    tauto
  refine ⟨?_, .nil, ?_, .nil, ?_, ?_, ?_, ⟨_, rfl, .nil, .nil⟩⟩
  · intro i inode hinode
    simp only [unifyOrphans, Option.map_eq_some_iff] at hinode
    obtain ⟨old, hold, rfl⟩ := hinode
    exact h.flag i old hold
  · intro i
    have hadd := h.add i
    rw [horphan, hotree]
    simp only [unifyOrphans, List.not_mem_nil, false_iff]
    tauto
  · intro i
    rw [hmem]
    simp [unifyOrphans]
  · exact tux3UnifyOrphanAdd_nodup (tux3UnifyOrphanDel_nodup h.otreeNodup)
  · intro i hi
    refine ⟨(hmem i).mpr hi, (horphan i).mpr ?_⟩
    rcases (hotree i).mp hi with hin | hadd
    · exact (h.entered i hin).2
    · exact ((h.add i).mp hadd).1

/-! ## Replay rebuilds the state -/

theorem loadOrphanInode_ok {inodes : Nat → Option Inode} {inum : Nat} (head : List Nat)
    (h : IsOrphan inodes inum) : loadOrphanInode inodes inum head = .ok (inum :: head) := by
  obtain ⟨inode, hinode, hnlink⟩ := h
  simp [loadOrphanInode, hinode, hnlink]

theorem loadLogOrphans_ok {inodes : Nat → Option Inode} {l : List Nat} (head : List Nat)
    (h : ∀ i ∈ l, IsOrphan inodes i) : loadLogOrphans inodes l head = .ok (l.reverse ++ head) := by
  induction l generalizing head with
  | nil => rfl
  | cons i l ih =>
      rw [loadLogOrphans, loadOrphanInode_ok head (h i (by simp))]
      simpa [bind, Except.bind] using ih (i :: head) fun j hj => h j (by simp [hj])

theorem loadOtreeOrphans_ok {inodes : Nat → Option Inode} {orphanDel l : List Nat}
    (head : List Nat) (h : ∀ i ∈ l, i ∉ orphanDel → IsOrphan inodes i) :
    loadOtreeOrphans inodes orphanDel l head =
      .ok ((l.filter (· ∉ orphanDel)).reverse ++ head) := by
  induction l generalizing head with
  | nil => rfl
  | cons i l ih =>
      have hrest : ∀ j ∈ l, j ∉ orphanDel → IsOrphan inodes j := fun j hj => h j (by simp [hj])
      rw [loadOtreeOrphans]
      by_cases hdead : i ∈ orphanDel
      · simpa [hdead] using ih head hrest
      · rw [if_neg hdead, loadOrphanInode_ok head (h i (by simp) hdead)]
        simpa [hdead, bind, Except.bind] using ih (i :: head) hrest

/-- What a replay loads: the lists of the running state, up to their order, and the
entries of the btree that are not dead. -/
theorem OrphanInv.replayOrphans {sb : OrphanSb} (h : OrphanInv sb) :
    ∃ loaded, replayOrphans sb = .ok loaded ∧ loaded.orphanAdd.Perm sb.orphanAdd ∧
      loaded.orphanDel.Perm sb.orphanDel ∧ loaded.orphanInOtree.Nodup ∧
      (∀ i, i ∈ loaded.orphanInOtree ↔ InOtree sb.inodes i) ∧
      LogReplaysTo sb.version sb.log loaded.orphanAdd loaded.orphanDel := by
  obtain ⟨rp, hrun, hadd, hdel⟩ := h.replay
  have hdead : ∀ i, i ∈ rp.orphanDel ↔ i ∈ sb.otree ∧ ¬ InOtree sb.inodes i := fun i =>
    hdel.mem_iff.trans (h.del i)
  have halive : ∀ i, i ∈ sb.otree ∧ i ∉ rp.orphanDel ↔ InOtree sb.inodes i := by
    intro i
    have hentered := h.entered i
    rw [hdead]
    tauto
  have hlog := loadLogOrphans_ok [] fun i hi => ((h.add i).mp (hadd.mem_iff.mp hi)).1
  have hotree := loadOtreeOrphans_ok (l := sb.otree) []
    fun i hi hnot => (h.entered i ((halive i).mp ⟨hi, hnot⟩)).2
  refine ⟨⟨rp.logOrphanAdd.reverse, (sb.otree.filter (· ∉ rp.orphanDel)).reverse, rp.orphanDel⟩,
    ?_, (List.reverse_perm _).trans hadd, hdel, ?_, ?_, ?_⟩
  · rw [Tux3.replayOrphans, hrun]
    simp only [bind, Except.bind, replayLoadOrphanInodes, hlog, hotree, pure, Except.pure,
      List.append_nil]
  · exact List.nodup_reverse.mpr (h.otreeNodup.filter _)
  · intro i
    rw [← halive]
    simp
  · exact ⟨rp, hrun, (List.reverse_perm _).symm, .refl _⟩

/-- Replay rebuilds exactly the orphans of the state. -/
theorem OrphanInv.rebuilt {sb : OrphanSb} (h : OrphanInv sb) :
    ∃ loaded, Tux3.replayOrphans sb = .ok loaded ∧ OrphansRebuilt sb loaded := by
  obtain ⟨loaded, hok, hadd, hdel, hnodup, hin, -⟩ := h.replayOrphans
  have hadd' : ∀ i, i ∈ loaded.orphanAdd ↔ IsOrphan sb.inodes i ∧ ¬ InOtree sb.inodes i :=
    fun i => hadd.mem_iff.trans (h.add i)
  refine ⟨loaded, hok, ?_, hadd', ?_, hdel.nodup_iff.mpr h.delNodup, ?_⟩
  · refine (hadd.nodup_iff.mpr h.addNodup).append hnodup fun i hi hi' => ?_
    exact ((hadd' i).mp hi).2 ((hin i).mp hi')
  · intro i
    have hentered := h.entered i
    rw [hin]
    tauto
  · exact fun i => hdel.mem_iff.trans (h.del i)

/-- Step lemma for a crash: the mounted state is as good as the committed one. -/
theorem OrphanInv.mount {sb : OrphanSb} (h : OrphanInv sb) {loaded : OrphansLoaded}
    (hreplay : Tux3.replayOrphans sb = .ok loaded) : OrphanInv (mountOrphans sb loaded) := by
  obtain ⟨loaded', hok, hadd, hdel, -, hin, hlog⟩ := h.replayOrphans
  obtain rfl : loaded' = loaded := by
    rw [hok] at hreplay
    exact Except.ok.inj hreplay
  have horphan : ∀ i, IsOrphan (mountOrphans sb loaded').inodes i ↔ IsOrphan sb.inodes i := by
    intro i
    cases hinode : sb.inodes i <;> simp [IsOrphan, mountOrphans, hinode]
  have hotree : ∀ i, InOtree (mountOrphans sb loaded').inodes i ↔ InOtree sb.inodes i := by
    intro i
    cases hinode : sb.inodes i <;> simp [InOtree, mountOrphans, hinode]
  have hloaded : ∀ i, i ∈ loaded'.orphanAdd ++ loaded'.orphanInOtree ↔ IsOrphan sb.inodes i := by
    intro i
    have hentered := h.entered i
    have hadd' := hadd.mem_iff.trans (h.add i)
    rw [List.mem_append, hin, hadd']
    tauto
  refine ⟨?_, hadd.nodup_iff.mpr h.addNodup, ?_, hdel.nodup_iff.mpr h.delNodup, ?_,
    h.otreeNodup, ?_, hlog⟩
  · intro i inode hinode
    simp only [mountOrphans, Option.map_eq_some_iff] at hinode
    obtain ⟨old, hold, rfl⟩ := hinode
    simp only [decide_eq_true_eq, hloaded, IsOrphan, hold, Option.some.injEq, exists_eq_left']
  · intro i
    rw [horphan, hotree]
    exact hadd.mem_iff.trans (h.add i)
  · intro i
    rw [hotree]
    exact hdel.mem_iff.trans (h.del i)
  · intro i hi
    rw [horphan]
    exact h.entered i ((hotree i).mp hi)

/-! ## Every run -/

theorem OrphanInv.log {sb : OrphanSb} (h : OrphanInv sb) {r : LogRecord}
    (hother : OtherRecord r) : OrphanInv { sb with log := sb.log ++ [r] } :=
  ⟨h.flag, h.addNodup, h.add, h.delNodup, h.del, h.otreeNodup, h.entered, h.replay.other hother⟩

/-- The invariant holds of the running and of the committed state of every run. -/
theorem orphanSystem_inv {s : OrphanRun} (h : orphanSystem.Reachable s) :
    OrphanInv s.cur ∧ OrphanInv s.committed := by
  refine h.invariant (I := fun s => OrphanInv s.cur ∧ OrphanInv s.committed) ?_ ?_
  · rintro s ⟨version, rfl⟩
    exact ⟨mkfsOrphans_inv version, mkfsOrphans_inv version⟩
  · rintro s s' ⟨hcur, hcommitted⟩ hstep
    cases hstep with
    | flush hallowed hflush =>
        obtain ⟨sb, hok, hinv⟩ := hcur.flushInode hallowed
        obtain rfl := Option.some.inj (hok.symm.trans hflush)
        exact ⟨hinv, hcommitted⟩
    | log hother => exact ⟨hcur.log hother, hcommitted⟩
    | unify => exact ⟨hcur.unify, hcommitted⟩
    | commit => exact ⟨hcur, hcur⟩
    | mount hreplay => exact ⟨hcommitted.mount hreplay, hcommitted.mount hreplay⟩

/-- In every run, a flush the frontend can ask for never fails its assertion. -/
theorem tux3FlushInode_never_asserts {s : OrphanRun} (h : orphanSystem.Reachable s)
    {inum nlink : Nat} {deleted : Bool} (hallowed : FlushAllowed s.cur inum nlink deleted) :
    (tux3FlushInode s.cur inum nlink deleted).isSome := by
  obtain ⟨sb, hok, -⟩ := (orphanSystem_inv h).1.flushInode hallowed
  simp [hok]

/-- After a crash at any point of any run, replay of the committed log and orphan btree
fails no assertion and rebuilds exactly the orphans of the committed state. -/
theorem replayOrphans_rebuilds {s : OrphanRun} (h : orphanSystem.Reachable s) :
    ∃ loaded, replayOrphans s.committed = .ok loaded ∧ OrphansRebuilt s.committed loaded :=
  (orphanSystem_inv h).2.rebuilt

/-- A run that destroys an orphan the btree has and reuses its number for another orphan
before the next unify. -/
theorem reusedOrphan_reachable :
    ∃ s, orphanSystem.Reachable s ∧ s.committed.orphanAdd = [70] ∧
      s.committed.orphanDel = [70] ∧ s.committed.otree = [70] := by
  have hallowed : ∀ (sb : OrphanSb) (deleted : Bool), FlushAllowed sb 70 0 deleted :=
    fun _ _ => ⟨fun _ => rfl, fun _ => rfl⟩
  have h₀ : orphanSystem.Reachable ⟨mkfsOrphans 0, mkfsOrphans 0⟩ := .init ⟨0, rfl⟩
  have h₁ := h₀.next (.flush (hallowed _ false) rfl)
  have h₂ := h₁.next .unify
  have h₃ := h₂.next (.flush (hallowed _ true) rfl)
  have h₄ := h₃.next (.flush (hallowed _ false) rfl)
  exact ⟨_, h₄.next .commit, rfl, rfl, rfl⟩

/-- Replay tells the two apart. -/
theorem replayOrphans_rebuilds_reused :
    ∃ s, orphanSystem.Reachable s ∧ s.committed.orphanDel = [70] ∧
      ∃ loaded, replayOrphans s.committed = .ok loaded ∧ OrphansRebuilt s.committed loaded := by
  obtain ⟨s, h, -, hdel, -⟩ := reusedOrphan_reachable
  exact ⟨s, h, hdel, replayOrphans_rebuilds h⟩

end Tux3
