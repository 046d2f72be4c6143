/-
  Commit/Delta.lean --- delta references, delta transition and the flush of a delta.

  Any number of tasks take and drop references to the current delta (`change_begin`,
  `change_end`), start a transition to the next delta, and wait until a delta is committed
  (`sync_current_delta`).  The flusher, or any of these tasks where there is none, commits
  the delta before the current one.  Each task runs its code one atomic step after the
  other; the steps of different tasks interleave freely.

  An atomic step is one access to the shared state.  The stores of `delta_transition`,
  which only the owner of TUX3_COMMIT_RUNNING_BIT does, are one step.
-/
import Tux3.Lib.System
import Tux3.Lib.Tally
import Mathlib.Data.Fintype.Pi
import Mathlib.Data.BitVec

set_option autoImplicit false

namespace Tux3

/-! ## Shared state -/

/-- `TUX3_FLUSHER`: any task flushes, or a task of its own does. -/
inductive Flusher where
  | sync
  | asyncOwn
  deriving DecidableEq, Repr

/-- `enum unify_flags`. -/
inductive UnifyFlag where
  | noUnify
  | allowUnify
  | forceUnify
  deriving DecidableEq, Repr

/-- An index of `delta_refs[TUX3_MAX_DELTA]`. -/
abbrev DeltaSlot := Fin 2

/-- `struct delta_ref`. -/
structure DeltaRef where
  refcount : Nat
  delta : BitVec 32
  unifyFlag : UnifyFlag
  deriving DecidableEq, Repr

/-- What the super block has for deltas.  `lockReaders` and `lockWriter` are `delta_lock`,
which only the synchronous flusher uses; `running` and `pending` are the two bits of
`backend_state`. -/
structure DeltaSb where
  lockReaders : Nat
  lockWriter : Bool
  currentDelta : DeltaSlot
  deltaRefs : DeltaSlot → DeltaRef
  nextDelta : BitVec 32
  running : Bool
  pending : Bool
  pendingDelta : Option DeltaSlot
  marshalDelta : BitVec 32
  committedDelta : BitVec 32

/-- `delta_ref->refcount` is set. -/
def DeltaSb.setRefcount (sb : DeltaSb) (slot : DeltaSlot) (refcount : Nat) : DeltaSb :=
  { sb with deltaRefs :=
      Function.update sb.deltaRefs slot { sb.deltaRefs slot with refcount := refcount } }

/-- `delta_ref->unify_flag = flag`. -/
def DeltaSb.setUnifyFlag (sb : DeltaSb) (slot : DeltaSlot) (flag : UnifyFlag) : DeltaSb :=
  { sb with deltaRefs :=
      Function.update sb.deltaRefs slot { sb.deltaRefs slot with unifyFlag := flag } }

/-- `delta_after_eq`. -/
def deltaAfterEq (a b : BitVec 32) : Bool := decide (0 ≤ (a - b).toInt)

/-- `TUX3_INIT_DELTA`. -/
def tux3InitDelta : BitVec 32 := 0

/-- The `delta_ref` after a given one. -/
def nextRef (prev : DeltaSlot) : DeltaSlot := prev + 1

/-- The stores of `__delta_transition`. -/
def DeltaSb.openDelta (sb : DeltaSb) (slot : DeltaSlot) : DeltaSb :=
  { sb with
    deltaRefs := Function.update sb.deltaRefs slot
      { refcount := 1, delta := sb.nextDelta, unifyFlag := .allowUnify }
    nextDelta := sb.nextDelta + 1
    currentDelta := slot }

/-- `init_sb` and `__setup_sb`, on a super block that was zeroed. -/
def setupSb : DeltaSb :=
  DeltaSb.openDelta
    { lockReaders := 0
      lockWriter := false
      currentDelta := 0
      deltaRefs := fun _ => { refcount := 0, delta := 0, unifyFlag := .noUnify }
      nextDelta := tux3InitDelta
      running := false
      pending := false
      pendingDelta := none
      marshalDelta := tux3InitDelta - 1
      committedDelta := tux3InitDelta - 1 } 0

/-! ## Code -/

/-- The steps of a commit that can fail.  `unstashDeunify`, `flushBitmap`, `orphanDel` and
`orphanAdd` are the steps of `unify_log`. -/
inductive CommitStep where
  | flushInodes
  | flushAtable
  | unstashDeunify
  | flushBitmap
  | orphanDel
  | orphanAdd
  | writeBtree
  | writeLog
  | saveSb
  | defree
  deriving DecidableEq, Repr

/-- The next atomic step of a task: a place in the code and the local variables there. -/
inductive Instr where
  | downRead
  | upRead
  | downWrite
  | upWrite
  | changeEndAtomic
  | deltaGet (sync : Option UnifyFlag)
  | incNotZero (ref : DeltaSlot) (sync : Option UnifyFlag)
  | setUnifyFlag (ref : DeltaSlot) (flag : UnifyFlag)
  | readDelta (ref : DeltaSlot)
  | deltaPut (ref : DeltaSlot)
  | setPending
  | needDelta
  | tryDeltaTransition
  | deltaTransition
  | waitPending
  | tryTransitionUntil (delta : BitVec 32)
  | grabRunning (delta : BitVec 32)
  | recheckMarshal (delta : BitVec 32)
  | clearRunning
  | testMarshal (delta : BitVec 32)
  | waitTransition (delta : BitVec 32)
  | assertMarshal (delta : BitVec 32)
  | tryFlushUntil (delta : BitVec 32)
  | testCommitted (delta : BitVec 32)
  | waitCommit (delta : BitVec 32)
  | assertCommitted (delta : BitVec 32)
  | flushPending
  | takePending
  | flusherLoop
  | testPending
  | clearPending
  | flushDelta
  | doCommit (delta : BitVec 32) (flag : UnifyFlag)
  | commitStep (step : CommitStep) (delta marshal : BitVec 32) (flag : UnifyFlag)
  | unifyLog (delta marshal : BitVec 32) (flag : UnifyFlag)
  | endBackend (delta : BitVec 32)
  | flushEnd (delta : BitVec 32)
  deriving DecidableEq, Repr

/-- `current->journal_info`: a `delta_ref` of the frontend, or the super block under the
backend. -/
inductive JournalInfo where
  | deltaRef (ref : DeltaSlot)
  | sb
  deriving DecidableEq, Repr

/-- A task: its `journal_info`, the error it returns, and the rest of the code it runs. -/
structure TaskState where
  journalInfo : Option JournalInfo
  err : Int
  code : List Instr
  deriving DecidableEq, Repr

/-- The task goes on with these steps. -/
def TaskState.run (task : TaskState) (code : List Instr) : TaskState :=
  { task with code := code ++ task.code }

/-- What the task calls. -/
inductive DeltaCall where
  | changeBegin
  | changeBeginAtomic
  | changeEnd
  | changeEndAtomic
  | syncCurrentDelta (flag : UnifyFlag)
  deriving DecidableEq, Repr

/-- The code of a call.  `force_unify` and `force_delta` are `sync_current_delta`. -/
def DeltaCall.code (flusher : Flusher) : DeltaCall → List Instr
  | .changeBegin =>
    match flusher with
    | .sync => [.downRead, .deltaGet none]
    | .asyncOwn => [.deltaGet none]
  | .changeBeginAtomic => [.deltaGet none]
  | .changeEnd =>
    match flusher with
    | .sync => [.changeEndAtomic, .upRead, .downWrite, .needDelta, .flushPending, .upWrite]
    | .asyncOwn => [.changeEndAtomic, .needDelta]
  | .changeEndAtomic => [.changeEndAtomic]
  | .syncCurrentDelta flag =>
    match flusher with
    | .sync => [.downWrite, .deltaGet (some flag)]
    | .asyncOwn => [.deltaGet (some flag)]

/-- What a step depends on besides the state, where it does: the call that an idle task
makes, what `need_delta` or `need_unify` says (their counters are shared by all volumes),
what a lower layer returns, and whether a signal ends a killable wait or the flusher. -/
structure Choice where
  call : DeltaCall
  yes : Bool
  err : Int
  killed : Bool
  deriving DecidableEq, Repr

/-- `ERESTARTSYS`, which `wait_event_killable` returns. -/
def erestartsys : Int := 512

/-- Where `do_commit` goes after one of its steps returned `err`: `stage_delta` and the
orphans in `unify_log` stop it, all other errors are dropped. -/
def afterCommitStep (delta marshal : BitVec 32) (flag : UnifyFlag) (err : Int) :
    CommitStep → Option (List Instr)
  | .flushInodes =>
    if err = 0 then some [.commitStep .flushAtable delta marshal flag] else none
  | .flushAtable => if err = 0 then some [.unifyLog delta marshal flag] else none
  | .unstashDeunify => some [.commitStep .flushBitmap delta marshal flag]
  | .flushBitmap => some [.commitStep .orphanDel delta marshal flag]
  | .orphanDel => if err = 0 then some [.commitStep .orphanAdd delta marshal flag] else none
  | .orphanAdd => if err = 0 then some [.commitStep .writeBtree delta marshal flag] else none
  | .writeBtree => some [.commitStep .writeLog delta marshal flag]
  | .writeLog => some [.commitStep .saveSb delta marshal flag]
  | .saveSb =>
    if err = 0 then some [.commitStep .defree delta marshal flag] else some [.endBackend delta]
  | .defree => some [.endBackend delta]

/-- One atomic step of a task whose code after it is in `task`; there is none where the
task waits or an `assert` fails. -/
def execInstr (flusher : Flusher) (choice : Choice) (sb : DeltaSb) (task : TaskState) :
    Instr → Option (DeltaSb × TaskState)
  | .downRead =>
    if sb.lockWriter then none else some ({ sb with lockReaders := sb.lockReaders + 1 }, task)
  | .upRead => some ({ sb with lockReaders := sb.lockReaders - 1 }, task)
  | .downWrite =>
    if sb.lockWriter = true ∨ sb.lockReaders ≠ 0 then none
    else some ({ sb with lockWriter := true }, task)
  | .upWrite => some ({ sb with lockWriter := false }, task)
  | .changeEndAtomic =>
    match task.journalInfo with
    | some (.deltaRef ref) => some (sb, { task with journalInfo := none, err := 0 }.run
        [.deltaPut ref])
    | _ => none
  | .deltaGet sync => some (sb, task.run [.incNotZero sb.currentDelta sync])
  | .incNotZero ref sync =>
    let refcount := (sb.deltaRefs ref).refcount
    if refcount = 0 then some (sb, task.run [.deltaGet sync])
    else
      match sync with
      | none =>
        -- change_begin_atomic, with its assert that journal_info is not set
        if task.journalInfo = none then
          some (sb.setRefcount ref (refcount + 1),
            { task with journalInfo := some (.deltaRef ref) })
        else none
      | some flag => some (sb.setRefcount ref (refcount + 1), task.run [.setUnifyFlag ref flag])
  | .setUnifyFlag ref flag => some (sb.setUnifyFlag ref flag, task.run [.readDelta ref])
  | .readDelta ref =>
    some (sb, task.run [.deltaPut ref, .tryTransitionUntil (sb.deltaRefs ref).delta])
  | .deltaPut ref =>
    let refcount := (sb.deltaRefs ref).refcount
    some (sb.setRefcount ref (refcount - 1),
      if refcount = 1 then task.run [.setPending] else task)
  | .setPending => some ({ sb with pending := true }, task)
  | .needDelta =>
    some (sb, if choice.yes then task.run [.tryDeltaTransition] else task)
  | .tryDeltaTransition =>
    if sb.running then some (sb, task)
    else some ({ sb with running := true }, task.run [.deltaTransition])
  | .deltaTransition =>
    let prev := sb.currentDelta
    let ref := nextRef prev
    if (sb.deltaRefs ref).refcount = 0 then
      some ({ sb.openDelta ref with
          marshalDelta := (sb.deltaRefs prev).delta
          pendingDelta := some prev },
        task.run (match flusher with
          | .sync => [.deltaPut prev, .waitPending]
          | .asyncOwn => [.deltaPut prev]))
    else none
  | .waitPending => if sb.pending then some (sb, task) else none
  | .tryTransitionUntil delta =>
    if deltaAfterEq sb.marshalDelta delta then some (sb, task.run [.assertMarshal delta])
    else some (sb, task.run [.grabRunning delta])
  | .grabRunning delta =>
    if sb.running then some (sb, task.run [.testMarshal delta])
    else some ({ sb with running := true }, task.run [.recheckMarshal delta])
  | .recheckMarshal delta =>
    if deltaAfterEq sb.marshalDelta delta then
      some (sb, task.run [.clearRunning, .assertMarshal delta])
    else some (sb, task.run [.deltaTransition, .testMarshal delta])
  | .clearRunning => some ({ sb with running := false }, task)
  | .testMarshal delta =>
    if deltaAfterEq sb.marshalDelta delta then some (sb, task.run [.assertMarshal delta])
    else some (sb, task.run [.waitTransition delta])
  | .waitTransition delta =>
    -- killed, it returns without a release of delta_lock
    if choice.killed then some (sb, { task with err := -erestartsys })
    else some (sb, task.run [.tryTransitionUntil delta])
  | .assertMarshal delta =>
    if deltaAfterEq sb.marshalDelta delta then some (sb, task.run [.tryFlushUntil delta])
    else none
  | .tryFlushUntil delta =>
    match flusher with
    | .sync =>
      if deltaAfterEq sb.committedDelta delta then some (sb, task.run [.testCommitted delta])
      else some (sb, task.run [.flushPending, .testCommitted delta])
    | .asyncOwn => some (sb, task.run [.testCommitted delta])
  | .testCommitted delta =>
    if deltaAfterEq sb.committedDelta delta then some (sb, task.run [.assertCommitted delta])
    else some (sb, task.run [.waitCommit delta])
  | .waitCommit delta =>
    if choice.killed then
      some (sb, { task with err := -erestartsys }.run
        (match flusher with
          | .sync => [.upWrite]
          | .asyncOwn => []))
    else some (sb, task.run [.tryFlushUntil delta])
  | .assertCommitted delta =>
    if deltaAfterEq sb.committedDelta delta then
      some (sb, { task with err := 0 }.run
        (match flusher with
          | .sync => [.upWrite]
          | .asyncOwn => []))
    else none
  | .flushPending =>
    some (sb, if sb.pending then { task with err := 0 }.run [.takePending]
      else { task with err := 0 })
  | .takePending =>
    if sb.pending then some ({ sb with pending := false }, task.run [.flushDelta])
    else some (sb, task)
  | .flusherLoop => some (sb, if choice.killed then task else task.run [.testPending])
  | .testPending =>
    some (sb, if sb.pending then task.run [.clearPending] else task.run [.flusherLoop])
  | .clearPending =>
    some ({ sb with pending := false }, task.run [.flushDelta, .flusherLoop])
  | .flushDelta =>
    match sb.pendingDelta with
    | some ref => some ({ sb with pendingDelta := none },
        task.run [.doCommit sb.marshalDelta (sb.deltaRefs ref).unifyFlag])
    | none => none
  | .doCommit delta flag =>
    if task.journalInfo = none then
      some (sb, { task with journalInfo := some .sb }.run
        [.commitStep .flushInodes delta sb.marshalDelta flag])
    else none
  | .commitStep step delta marshal flag =>
    match afterCommitStep delta marshal flag choice.err step with
    | some code => some (sb, task.run code)
    -- here tux3_end_backend is not called
    | none => some (sb, { task with err := choice.err }.run [.flushEnd delta])
  | .unifyLog delta marshal flag =>
    if (flag = .allowUnify ∧ choice.yes = true) ∨ flag = .forceUnify then
      some (sb, task.run [.commitStep .unstashDeunify delta marshal flag])
    else some (sb, task.run [.commitStep .writeBtree delta marshal flag])
  | .endBackend delta =>
    match task.journalInfo with
    | some .sb => some (sb, { task with journalInfo := none, err := 0 }.run [.flushEnd delta])
    | _ => none
  | .flushEnd delta =>
    some ({ sb with committedDelta := delta }, task.run [.clearRunning])

/-! ## Runs -/

/-- What happened in a run: a step of the commit of a delta returned, a delta was taken for
committed, `sync_current_delta` for a delta returned 0. -/
inductive CommitEvent where
  | step (delta : Nat) (step : CommitStep) (err : Int)
  | committed (delta : Nat)
  | synced (delta : Nat)
  deriving DecidableEq, Repr

/-- The history of a run.  Here deltas are numbered from 0 and the numbers do not wrap:
`seq` has the number of the delta of each `delta_ref`, `requested` that of the delta a task
waits for in `sync_current_delta`.  `flushed` has what `flush_delta` was called for. -/
structure DeltaHistory (Task : Type) where
  seq : DeltaSlot → Nat
  requested : Task → Nat
  flushed : List (BitVec 32)
  events : List CommitEvent

/-- The super block, the tasks and the history. -/
structure DeltaRun (Task : Type) where
  sb : DeltaSb
  tasks : Task → TaskState
  history : DeltaHistory Task

variable {Task : Type} [DecidableEq Task]

/-- What a step adds to the history. -/
def DeltaHistory.record (h : DeltaHistory Task) (choice : Choice) (sb : DeltaSb) (t : Task) :
    Instr → DeltaHistory Task
  | .deltaTransition =>
    { h with seq :=
        Function.update h.seq (nextRef sb.currentDelta) (h.seq sb.currentDelta + 1) }
  | .readDelta ref => { h with requested := Function.update h.requested t (h.seq ref) }
  | .flushDelta => { h with flushed := h.flushed ++ [sb.marshalDelta] }
  | .commitStep step _ _ _ =>
    { h with events := h.events ++ [.step (h.flushed.length - 1) step choice.err] }
  | .flushEnd _ => { h with events := h.events ++ [.committed (h.flushed.length - 1)] }
  | .assertCommitted _ => { h with events := h.events ++ [.synced (h.requested t)] }
  | _ => h

/-- One step of the run: an idle task makes a call, or a task goes on. -/
def DeltaRun.step (flusher : Flusher) (s : DeltaRun Task) (t : Task) (choice : Choice) :
    Option (DeltaRun Task) :=
  match (s.tasks t).code with
  | [] =>
    some { s with
      tasks := Function.update s.tasks t
        { s.tasks t with code := choice.call.code flusher } }
  | instr :: rest =>
    (execInstr flusher choice s.sb { s.tasks t with code := rest } instr).map fun r =>
      { sb := r.1
        tasks := Function.update s.tasks t r.2
        history := s.history.record choice s.sb t instr }

/-- A task that does nothing yet. -/
def idleTask : TaskState := { journalInfo := none, err := 0, code := [] }

/-- `flush_delta_work`, where the flusher is a task of its own. -/
def flushTask : TaskState := { idleTask with code := [.flusherLoop] }

/-- The state after mount, with the task that would be the flusher. -/
def mounted (flusher : Flusher) (flushTaskOf : Task) : DeltaRun Task where
  sb := setupSb
  tasks t :=
    match flusher with
    | .sync => idleTask
    | .asyncOwn => if t = flushTaskOf then flushTask else idleTask
  history :=
    { seq := fun _ => 0
      requested := fun _ => 0
      flushed := []
      events := [] }

/-- The steps of a schedule, one after the other. -/
def DeltaRun.steps (flusher : Flusher) (s : DeltaRun Task) :
    List (Task × Choice) → Option (DeltaRun Task)
  | [] => some s
  | (t, choice) :: schedule =>
    match s.step flusher t choice with
    | some s' => s'.steps flusher schedule
    | none => none

/-- All runs. -/
def deltaSystem (Task : Type) [DecidableEq Task] (flusher : Flusher) : System (DeltaRun Task)
    where
  init s := ∃ flushTaskOf, s = mounted flusher flushTaskOf
  next s s' := ∃ t choice, s.step flusher t choice = some s'

/-- A schedule leads to a reachable state. -/
theorem DeltaRun.steps_reachable {flusher : Flusher} {schedule : List (Task × Choice)}
    {s s' : DeltaRun Task} (h : (deltaSystem Task flusher).Reachable s)
    (hsteps : s.steps flusher schedule = some s') :
    (deltaSystem Task flusher).Reachable s' := by
  induction schedule generalizing s with
  | nil =>
    cases hsteps
    exact h
  | cons move schedule ih =>
    obtain ⟨t, choice⟩ := move
    unfold DeltaRun.steps at hsteps
    split at hsteps
    · rename_i s₁ hstep
      exact ih (h.next ⟨t, choice, hstep⟩) hsteps
    · cases hsteps

end Tux3
