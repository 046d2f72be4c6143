/-
  Commit/Transition.lean --- every delta is flushed once, in order, and without references.

  The invariant counts tokens over all tasks: references to a slot, the ownership of
  TUX3_COMMIT_RUNNING_BIT before a transition and after a commit, and the stages between
  the last `delta_put` of a delta and the end of its flush.  TUX3_COMMIT_RUNNING_BIT is
  set exactly while there is one of these tokens, so there is never more than one.
-/
import Tux3.Basic
import Tux3.Commit.Delta

set_option autoImplicit false

namespace Tux3

open Tally

/-! ## The property -/

/-- A place inside `flush_delta`, after it took the delta it flushes. -/
def Instr.Flushes (delta : BitVec 32) : Instr → Prop
  | .doCommit d _ => d = delta
  | .commitStep _ d marshal _ => d = delta ∨ marshal = delta
  | .unifyLog d marshal _ => d = delta ∨ marshal = delta
  | .endBackend d => d = delta
  | .flushEnd d => d = delta
  | _ => False

/-- A place where the code holds a reference that is not in `journal_info`. -/
def Instr.Holds (slot : DeltaSlot) : Instr → Prop
  | .setUnifyFlag ref _ => ref = slot
  | .readDelta ref => ref = slot
  | .deltaPut ref => ref = slot
  | _ => False

/-- The task runs the commit of this delta. -/
def TaskState.Flushes (task : TaskState) (delta : BitVec 32) : Prop :=
  ∃ i ∈ task.code, i.Flushes delta

/-- The task holds a reference to the delta at this slot. -/
def TaskState.Holds (task : TaskState) (slot : DeltaSlot) : Prop :=
  task.journalInfo = some (.deltaRef slot) ∨ ∃ i ∈ task.code, i.Holds slot

/-- The current delta. -/
def DeltaSb.currentRef (sb : DeltaSb) : DeltaRef := sb.deltaRefs sb.currentDelta

/-- What holds at every moment of every interleaving.  Delta number `n` is the `n`th delta
since the mount, also where the unsigned counter of the code has wrapped. -/
structure DeltaRun.Ordered {Task : Type} (s : DeltaRun Task) : Prop where
  oneCommit : ∀ t t' delta delta', (s.tasks t).Flushes delta → (s.tasks t').Flushes delta' →
    t = t'
  nextFree : ∀ t, .deltaTransition ∈ (s.tasks t).code →
    (s.sb.deltaRefs (nextRef s.sb.currentDelta)).refcount = 0
  marshal : s.sb.marshalDelta = s.sb.committedDelta ∨
    s.sb.marshalDelta = s.sb.committedDelta + 1
  current : s.sb.currentRef.delta = s.sb.marshalDelta + 1
  flushedInOrder : s.history.flushed = (List.range s.history.flushed.length).map
    fun n => tux3InitDelta + BitVec.ofNat 32 n
  flushedAll : s.history.seq s.sb.currentDelta = s.history.flushed.length ∨
    s.history.seq s.sb.currentDelta = s.history.flushed.length + 1
  held : ∀ t slot, (s.tasks t).Holds slot →
    s.history.flushed.length ≤ s.history.seq slot ∧
      (s.sb.deltaRefs slot).delta = tux3InitDelta + BitVec.ofNat 32 (s.history.seq slot)
  flushing : ∀ t delta, (s.tasks t).Flushes delta →
    delta = s.sb.marshalDelta ∧
      s.history.flushed.length = s.history.seq s.sb.currentDelta ∧
      (s.sb.deltaRefs (nextRef s.sb.currentDelta)).refcount = 0 ∧
      tux3Delta delta.toNat ≠ tux3Delta s.sb.currentRef.delta.toNat

/-! ## Tokens -/

/-- What is counted: places that own TUX3_COMMIT_RUNNING_BIT before the transition (`pre`)
and just before it is cleared (`rel`), the last `delta_put` of the delta before the
current one (`put`), the flush before (`start`) and after (`commit`) it took its delta;
the place where the flusher task clears TUX3_COMMIT_PENDING_BIT and its other places, and
those of `flush_pending_delta`; and the references to a slot. -/
inductive Token where
  | pre
  | rel
  | put
  | start
  | commit
  | flusher
  | clear
  | flushPending
  | ref (slot : DeltaSlot)
  deriving DecidableEq

/-- The tokens of a place. -/
def Instr.held : Instr → List Token
  | .recheckMarshal _ | .deltaTransition => [.pre]
  | .clearRunning => [.rel]
  | .setPending => [.put]
  | .flushDelta => [.start]
  | .doCommit _ _ | .commitStep _ _ _ _ | .unifyLog _ _ _ | .endBackend _ | .flushEnd _ =>
    [.commit]
  | .flusherLoop | .testPending => [.flusher]
  | .clearPending => [.clear]
  | .flushPending | .takePending => [.flushPending]
  | .setUnifyFlag ref _ | .readDelta ref | .deltaPut ref => [.ref ref]
  | .downRead | .upRead | .downWrite | .upWrite | .changeEndAtomic | .deltaGet _
  | .incNotZero _ _ | .needDelta | .tryDeltaTransition | .waitPending | .tryTransitionUntil _
  | .grabRunning _ | .testMarshal _ | .waitTransition _ | .assertMarshal _ | .tryFlushUntil _
  | .testCommitted _ | .waitCommit _ | .assertCommitted _ => []

/-- The tokens of `journal_info`. -/
def journalHeld : Option JournalInfo → List Token
  | some (.deltaRef ref) => [.ref ref]
  | _ => []

/-- The tokens of a task. -/
def TaskState.held (task : TaskState) : List Token :=
  journalHeld task.journalInfo ++ task.code.flatMap Instr.held

/-- How many of its tokens are `k`. -/
def TaskState.tokens (k : Token) (task : TaskState) : Nat := task.held.count k

theorem TaskState.tokens_run (k : Token) (task : TaskState) (code : List Instr) :
    (task.run code).tokens k = (code.flatMap Instr.held).count k + task.tokens k := by
  simp only [TaskState.tokens, TaskState.held, TaskState.run, List.flatMap_append,
    List.count_append]
  omega

@[simp] theorem TaskState.tokens_err (k : Token) (task : TaskState) (err : Int) :
    ({ task with err := err } : TaskState).tokens k = task.tokens k := rfl

/-- The tokens of a task are those of `journal_info` and of its code. -/
theorem TaskState.tokens_journal (k : Token) (task : TaskState)
    (journalInfo : Option JournalInfo) (err : Int) :
    ({ task with journalInfo := journalInfo, err := err } : TaskState).tokens k +
      (journalHeld task.journalInfo).count k =
      task.tokens k + (journalHeld journalInfo).count k := by
  simp only [TaskState.tokens, TaskState.held, List.count_append]
  omega

/-- A place in the code of a task is counted. -/
theorem TaskState.tokens_of_mem {task : TaskState} {i : Instr} {k : Token}
    (h : i ∈ task.code) (hk : k ∈ i.held) : 0 < task.tokens k :=
  List.count_pos_iff.mpr (List.mem_append_right _ (List.mem_flatMap.mpr ⟨i, h, hk⟩))

theorem TaskState.tokens_of_flushes {task : TaskState} {delta : BitVec 32}
    (h : task.Flushes delta) : 0 < task.tokens .commit := by
  obtain ⟨i, hmem, hflush⟩ := h
  refine TaskState.tokens_of_mem hmem ?_
  cases i <;> first | exact List.mem_singleton_self _ | exact hflush.elim

theorem TaskState.tokens_of_holds {task : TaskState} {slot : DeltaSlot}
    (h : task.Holds slot) : 0 < task.tokens (.ref slot) := by
  rcases h with hjournal | ⟨i, hmem, hholds⟩
  · refine List.count_pos_iff.mpr (List.mem_append_left _ ?_)
    rw [hjournal]
    exact List.mem_singleton_self _
  · refine TaskState.tokens_of_mem hmem ?_
    cases i <;> first | exact hholds.elim | exact hholds ▸ List.mem_singleton_self _

/-! ## The invariant -/

theorem nextRef_nextRef (slot : DeltaSlot) : nextRef (nextRef slot) = slot := by
  revert slot
  decide

theorem nextRef_ne (slot : DeltaSlot) : nextRef slot ≠ slot := by
  revert slot
  decide

theorem eq_or_eq_nextRef (slot ref : DeltaSlot) : ref = slot ∨ ref = nextRef slot := by
  revert slot ref
  decide

theorem ofNat_succ (m : Nat) : BitVec.ofNat 32 (m + 1) = BitVec.ofNat 32 m + 1 :=
  BitVec.ofNat_add m 1

/-- One as long as the delta before the current one waits for its flush. -/
def DeltaSb.unflushed (sb : DeltaSb) (n : Token → Nat) : Nat :=
  min 1 (sb.deltaRefs (nextRef sb.currentDelta)).refcount + n .put + sb.pending.toNat +
    n .start

/-- The shared state and the history agree with the tokens `n` of all tasks. -/
structure DeltaCounts {Task : Type} (sb : DeltaSb) (h : DeltaHistory Task) (n : Token → Nat) :
    Prop where
  refCurrent : sb.currentRef.refcount = 1 + n (.ref sb.currentDelta)
  refPrev : (sb.deltaRefs (nextRef sb.currentDelta)).refcount = n (.ref (nextRef sb.currentDelta))
  running : sb.running.toNat = n .pre + n .rel + sb.unflushed n + n .commit
  seq : h.seq sb.currentDelta = h.flushed.length + sb.unflushed n
  commit : n .commit ≤ h.flushed.length
  committed : sb.committedDelta + 1 = BitVec.ofNat 32 (h.flushed.length - n .commit)
  pendingDelta : 0 < sb.unflushed n → sb.pendingDelta = some (nextRef sb.currentDelta)
  current : sb.currentRef.delta = BitVec.ofNat 32 (h.seq sb.currentDelta)
  next : sb.nextDelta = BitVec.ofNat 32 (h.seq sb.currentDelta + 1)
  marshal : sb.marshalDelta + 1 = BitVec.ofNat 32 (h.seq sb.currentDelta)
  prev : 0 < h.seq sb.currentDelta →
    h.seq (nextRef sb.currentDelta) + 1 = h.seq sb.currentDelta ∧
      (sb.deltaRefs (nextRef sb.currentDelta)).delta =
        BitVec.ofNat 32 (h.seq (nextRef sb.currentDelta))
  flushed : h.flushed = (List.range h.flushed.length).map (BitVec.ofNat 32)

/-- Only the flusher task clears TUX3_COMMIT_PENDING_BIT, or only `flush_pending_delta`. -/
structure FlusherCounts (flusher : Flusher) (sb : DeltaSb) (n : Token → Nat) : Prop where
  oneFlusher : n .flusher + n .clear ≤ 1
  asyncOwn : 0 < n .flusher + n .clear → flusher = .asyncOwn
  sync : 0 < n .flushPending → flusher = .sync
  clearPending : 0 < n .clear → sb.pending = true

/-- These tokens are given up and those taken. -/
def Moved (n n' : Token → Nat) (lost gained : List Token) : Prop :=
  ∀ k, n' k + lost.count k = n k + gained.count k

section Steps

variable {Task : Type} {sb : DeltaSb} {h : DeltaHistory Task} {n n' : Token → Nat}

theorem Moved.eq (hm : Moved n n' [] []) : n' = n := funext hm

/-- At most one token is out while TUX3_COMMIT_RUNNING_BIT is set. -/
theorem DeltaCounts.le_one (hc : DeltaCounts sb h n) :
    n .pre + n .rel + sb.unflushed n + n .commit ≤ 1 :=
  hc.running ▸ Bool.toNat_le sb.running

theorem DeltaCounts.setUnifyFlag (hc : DeltaCounts sb h n) (ref : DeltaSlot)
    (flag : UnifyFlag) : DeltaCounts (sb.setUnifyFlag ref flag) h n := by
  have hsame : ∀ slot,
      ((sb.setUnifyFlag ref flag).deltaRefs slot).refcount = (sb.deltaRefs slot).refcount ∧
        ((sb.setUnifyFlag ref flag).deltaRefs slot).delta = (sb.deltaRefs slot).delta := by
    intro slot
    unfold DeltaSb.setUnifyFlag
    by_cases heq : slot = ref
    · subst heq
      simp
    · simp [Function.update_of_ne heq]
  have hunflushed : (sb.setUnifyFlag ref flag).unflushed n = sb.unflushed n := by
    unfold DeltaSb.unflushed
    rw [(hsame _).1]
    rfl
  exact { hc with
    refCurrent := (hsame _).1.trans hc.refCurrent
    refPrev := (hsame _).1.trans hc.refPrev
    running := hunflushed ▸ hc.running
    seq := hunflushed ▸ hc.seq
    pendingDelta := hunflushed ▸ hc.pendingDelta
    current := (hsame _).2.trans hc.current
    prev := fun hpos => ⟨(hc.prev hpos).1, (hsame _).2.trans (hc.prev hpos).2⟩ }

/-- What a reference count has to do with the flush: only whether that of the delta before
the current one is zero. -/
theorem DeltaSb.unflushed_setRefcount (sb : DeltaSb) (n' : Token → Nat) (ref : DeltaSlot)
    (refcount : Nat) :
    (sb.setRefcount ref refcount).unflushed n' =
      min 1 (if ref = nextRef sb.currentDelta then refcount
        else (sb.deltaRefs (nextRef sb.currentDelta)).refcount) + n' .put + sb.pending.toNat +
        n' .start := by
  unfold DeltaSb.unflushed DeltaSb.setRefcount
  by_cases heq : ref = nextRef sb.currentDelta
  · rw [if_pos heq, heq]
    simp
  · rw [if_neg heq]
    simp [Function.update_of_ne (Ne.symm heq)]

/-- A reference count changes together with the references, and the delta before the
current one goes on waiting for its flush. -/
theorem DeltaCounts.setRefcount (hc : DeltaCounts sb h n) (ref : DeltaSlot) (refcount : Nat)
    (hcount : refcount + n (.ref ref) = (sb.deltaRefs ref).refcount + n' (.ref ref))
    (hother : n' (.ref (nextRef ref)) = n (.ref (nextRef ref)))
    (hunflushed : (sb.setRefcount ref refcount).unflushed n' = sb.unflushed n)
    (hpre : n' .pre = n .pre) (hrel : n' .rel = n .rel) (hcommit : n' .commit = n .commit) :
    DeltaCounts (sb.setRefcount ref refcount) h n' := by
  have hdelta : ∀ slot, ((sb.setRefcount ref refcount).deltaRefs slot).delta =
      (sb.deltaRefs slot).delta := by
    intro slot
    unfold DeltaSb.setRefcount
    by_cases heq : slot = ref
    · subst heq
      simp
    · simp [Function.update_of_ne heq]
  have hrefs : ∀ slot extra, (sb.deltaRefs slot).refcount = extra + n (.ref slot) →
      ((sb.setRefcount ref refcount).deltaRefs slot).refcount = extra + n' (.ref slot) := by
    intro slot extra heq
    unfold DeltaSb.setRefcount
    rcases eq_or_eq_nextRef ref slot with rfl | rfl
    · simp only [Function.update_self]
      omega
    · simp only [Function.update_of_ne (nextRef_ne ref)]
      rw [heq, hother]
  have hprev := hrefs (nextRef sb.currentDelta) 0 (by rw [hc.refPrev, Nat.zero_add])
  rw [Nat.zero_add] at hprev
  exact { hc with
    refCurrent := hrefs _ 1 hc.refCurrent
    refPrev := hprev
    running := by rw [hpre, hrel, hcommit, hunflushed]; exact hc.running
    seq := by rw [hunflushed]; exact hc.seq
    commit := hcommit ▸ hc.commit
    committed := hcommit ▸ hc.committed
    pendingDelta := by rw [hunflushed]; exact hc.pendingDelta
    current := (hdelta _).trans hc.current
    prev := fun hpos => ⟨(hc.prev hpos).1, (hdelta _).trans (hc.prev hpos).2⟩ }

/-- `delta_get` of a reference count that is not zero. -/
theorem DeltaCounts.grab (hc : DeltaCounts sb h n) {ref : DeltaSlot}
    (hpos : (sb.deltaRefs ref).refcount ≠ 0) (hm : Moved n n' [] [.ref ref]) :
    DeltaCounts (sb.setRefcount ref ((sb.deltaRefs ref).refcount + 1)) h n' := by
  have hput : n' .put = n .put := hm .put
  have hstart : n' .start = n .start := hm .start
  have href : n' (.ref ref) = n (.ref ref) + 1 := by simpa using hm (.ref ref)
  have hother : n' (.ref (nextRef ref)) = n (.ref (nextRef ref)) := by
    simpa [Ne.symm (nextRef_ne ref)] using hm (.ref (nextRef ref))
  refine hc.setRefcount ref _ (by omega) hother ?_ (hm .pre) (hm .rel) (hm .commit)
  rw [DeltaSb.unflushed_setRefcount]
  unfold DeltaSb.unflushed
  by_cases heq : ref = nextRef sb.currentDelta
  · rw [if_pos heq, ← heq]
    omega
  · rw [if_neg heq]
    omega

/-- `delta_put`; the last one of a delta is never that of the current delta. -/
theorem DeltaCounts.put (hc : DeltaCounts sb h n) {ref : DeltaSlot} (hmine : 0 < n (.ref ref))
    (hm : Moved n n' [.ref ref] (if (sb.deltaRefs ref).refcount = 1 then [.put] else [])) :
    DeltaCounts (sb.setRefcount ref ((sb.deltaRefs ref).refcount - 1)) h n' := by
  have hkey : ∀ k, n' k + [Token.ref ref].count k =
      n k + if (sb.deltaRefs ref).refcount = 1 then [Token.put].count k else 0 := by
    intro k
    have hk := hm k
    split at hk
    all_goals rename_i heq; simpa [heq] using hk
  have hput : n' .put = n .put + if (sb.deltaRefs ref).refcount = 1 then 1 else 0 := hkey .put
  have hstart : n' .start = n .start := by simpa using hkey .start
  have href : n' (.ref ref) + 1 = n (.ref ref) := by simpa using hkey (.ref ref)
  have hother : n' (.ref (nextRef ref)) = n (.ref (nextRef ref)) := by
    simpa [Ne.symm (nextRef_ne ref)] using hkey (.ref (nextRef ref))
  have hcurrent := hc.refCurrent
  have hprev := hc.refPrev
  unfold DeltaSb.currentRef at hcurrent
  have hpos : 0 < (sb.deltaRefs ref).refcount := by
    rcases eq_or_eq_nextRef sb.currentDelta ref with rfl | rfl <;> omega
  refine hc.setRefcount ref _ (by omega) hother ?_ (by simpa using hkey .pre)
    (by simpa using hkey .rel) (by simpa using hkey .commit)
  rw [DeltaSb.unflushed_setRefcount]
  unfold DeltaSb.unflushed
  rcases eq_or_eq_nextRef sb.currentDelta ref with rfl | rfl
  · rw [if_neg (Ne.symm (nextRef_ne _))]
    have hlast : (sb.deltaRefs sb.currentDelta).refcount ≠ 1 := by omega
    rw [if_neg hlast] at hput
    omega
  · rw [if_pos rfl]
    split at hput <;> omega

/-- The two bits of `backend_state` change together with their tokens. -/
theorem DeltaCounts.setBits (hc : DeltaCounts sb h n) (running pending : Bool)
    (hrefs : ∀ slot, n' (.ref slot) = n (.ref slot)) (hcommit : n' .commit = n .commit)
    (hunflushed : n' .put + pending.toNat + n' .start = n .put + sb.pending.toNat + n .start)
    (hrunning : running.toNat + n .pre + n .rel = sb.running.toNat + n' .pre + n' .rel) :
    DeltaCounts { sb with running := running, pending := pending } h n' := by
  have hsame : DeltaSb.unflushed { sb with running := running, pending := pending } n' =
      sb.unflushed n := by
    unfold DeltaSb.unflushed
    dsimp only
    omega
  have hold := hc.running
  exact { hc with
    refCurrent := hrefs _ ▸ hc.refCurrent
    refPrev := hrefs _ ▸ hc.refPrev
    running := by rw [hsame, hcommit]; dsimp only; omega
    seq := by rw [hsame]; exact hc.seq
    commit := hcommit ▸ hc.commit
    committed := hcommit ▸ hc.committed
    pendingDelta := by rw [hsame]; exact hc.pendingDelta }

/-- `test_and_set_bit(TUX3_COMMIT_RUNNING_BIT)` by a task that goes on to the transition. -/
theorem DeltaCounts.grabRunning (hc : DeltaCounts sb h n) (hclear : sb.running = false)
    (hm : Moved n n' [] [.pre]) : DeltaCounts { sb with running := true } h n' := by
  have hpre : n' .pre = n .pre + 1 := hm .pre
  have hrel : n' .rel = n .rel := hm .rel
  have hput : n' .put = n .put := hm .put
  have hstart : n' .start = n .start := hm .start
  refine hc.setBits true sb.pending (fun slot => hm (.ref slot)) (hm .commit) (by omega) ?_
  simp only [hclear, Bool.toNat_true, Bool.toNat_false]
  omega

/-- The owner gives TUX3_COMMIT_RUNNING_BIT up without a transition. -/
theorem DeltaCounts.giveUp (hc : DeltaCounts sb h n) (hm : Moved n n' [.pre] [.rel]) :
    DeltaCounts sb h n' := by
  have hpre : n' .pre + 1 = n .pre := hm .pre
  have hrel : n' .rel = n .rel + 1 := hm .rel
  have hput : n' .put = n .put := hm .put
  have hstart : n' .start = n .start := hm .start
  exact hc.setBits sb.running sb.pending (fun slot => hm (.ref slot)) (hm .commit) (by omega)
    (by omega)

/-- `clear_bit(TUX3_COMMIT_RUNNING_BIT)`. -/
theorem DeltaCounts.clearRunning (hc : DeltaCounts sb h n) (hm : Moved n n' [.rel] []) :
    DeltaCounts { sb with running := false } h n' := by
  have hpre : n' .pre = n .pre := hm .pre
  have hrel : n' .rel + 1 = n .rel := hm .rel
  have hput : n' .put = n .put := hm .put
  have hstart : n' .start = n .start := hm .start
  have hone := hc.le_one
  have hrunning := hc.running
  refine hc.setBits false sb.pending (fun slot => hm (.ref slot)) (hm .commit) (by omega) ?_
  rw [Bool.toNat_false]
  omega

/-- The last `delta_put` sets TUX3_COMMIT_PENDING_BIT, which was clear. -/
theorem DeltaCounts.setPending (hc : DeltaCounts sb h n) (hm : Moved n n' [.put] []) :
    DeltaCounts { sb with pending := true } h n' := by
  have hpre : n' .pre = n .pre := hm .pre
  have hrel : n' .rel = n .rel := hm .rel
  have hput : n' .put + 1 = n .put := hm .put
  have hstart : n' .start = n .start := hm .start
  have hone := hc.le_one
  unfold DeltaSb.unflushed at hone
  refine hc.setBits sb.running true (fun slot => hm (.ref slot)) (hm .commit) ?_ (by omega)
  rw [Bool.toNat_true]
  omega

/-- The flush takes TUX3_COMMIT_PENDING_BIT, which was set. -/
theorem DeltaCounts.clearPending (hc : DeltaCounts sb h n) (hset : sb.pending = true)
    (hrefs : ∀ slot, n' (.ref slot) = n (.ref slot)) (hpre : n' .pre = n .pre)
    (hrel : n' .rel = n .rel) (hput : n' .put = n .put) (hstart : n' .start = n .start + 1)
    (hcommit : n' .commit = n .commit) :
    DeltaCounts { sb with pending := false } h n' := by
  refine hc.setBits sb.running false hrefs hcommit ?_ (by omega)
  rw [hset, Bool.toNat_true, Bool.toNat_false]
  omega

/-- Tokens of the flusher and of `flush_pending_delta` do not count for the rest. -/
theorem DeltaCounts.flusher (hc : DeltaCounts sb h n)
    (hrefs : ∀ slot, n' (.ref slot) = n (.ref slot)) (hpre : n' .pre = n .pre)
    (hrel : n' .rel = n .rel) (hput : n' .put = n .put) (hstart : n' .start = n .start)
    (hcommit : n' .commit = n .commit) : DeltaCounts sb h n' :=
  hc.setBits sb.running sb.pending hrefs hcommit (by omega) (by omega)

/-- The stores of `delta_transition`, by the owner of TUX3_COMMIT_RUNNING_BIT. -/
theorem DeltaCounts.transition (hc : DeltaCounts sb h n)
    (hm : Moved n n' [.pre] [.ref sb.currentDelta]) :
    DeltaCounts { sb.openDelta (nextRef sb.currentDelta) with
        marshalDelta := sb.currentRef.delta
        pendingDelta := some sb.currentDelta }
      { h with
        seq := Function.update h.seq (nextRef sb.currentDelta) (h.seq sb.currentDelta + 1) }
      n' := by
  have hpre : n' .pre + 1 = n .pre := hm .pre
  have hrel : n' .rel = n .rel := hm .rel
  have hput : n' .put = n .put := hm .put
  have hstart : n' .start = n .start := hm .start
  have hcommit : n' .commit = n .commit := hm .commit
  have hprev : n' (.ref sb.currentDelta) = n (.ref sb.currentDelta) + 1 := by
    simpa using hm (.ref sb.currentDelta)
  have hnext : n' (.ref (nextRef sb.currentDelta)) = n (.ref (nextRef sb.currentDelta)) := by
    simpa [Ne.symm (nextRef_ne sb.currentDelta)] using hm (.ref (nextRef sb.currentDelta))
  have hone := hc.le_one
  have hrunning := hc.running
  have hcurrent := hc.refCurrent
  have hprevRef := hc.refPrev
  have hseq := hc.seq
  unfold DeltaSb.unflushed at hone hrunning hseq
  unfold DeltaSb.currentRef at hcurrent
  have hne := nextRef_ne sb.currentDelta
  have hunflushed : DeltaSb.unflushed { sb.openDelta (nextRef sb.currentDelta) with
      marshalDelta := sb.currentRef.delta
      pendingDelta := some sb.currentDelta } n' = 1 := by
    unfold DeltaSb.unflushed DeltaSb.openDelta
    simp only [nextRef_nextRef, Function.update_of_ne (Ne.symm hne)]
    omega
  refine ⟨?_, ?_, ?_, ?_, ?_, ?_, ?_, ?_, ?_, ?_, ?_, hc.flushed⟩
  · unfold DeltaSb.currentRef DeltaSb.openDelta
    simp only [Function.update_self]
    omega
  · unfold DeltaSb.openDelta
    simp only [nextRef_nextRef, Function.update_of_ne (Ne.symm hne)]
    omega
  · rw [hunflushed]
    simp only [DeltaSb.openDelta]
    omega
  · rw [hunflushed]
    simp only [DeltaSb.openDelta, Function.update_self]
    omega
  · simp only
    have := hc.commit
    omega
  · simp only [DeltaSb.openDelta, hcommit]
    exact hc.committed
  · intro _
    simp only [DeltaSb.openDelta, nextRef_nextRef]
  · unfold DeltaSb.currentRef DeltaSb.openDelta
    simp only [Function.update_self]
    exact hc.next
  · unfold DeltaSb.openDelta
    simp only [Function.update_self]
    rw [hc.next, ← ofNat_succ]
  · unfold DeltaSb.openDelta
    simp only [Function.update_self]
    rw [hc.current, ← ofNat_succ]
  · intro _
    unfold DeltaSb.openDelta
    simp only [nextRef_nextRef, Function.update_self, Function.update_of_ne (Ne.symm hne)]
    exact ⟨trivial, hc.current⟩

/-- `flush_delta` takes the delta before the current one. -/
theorem DeltaCounts.startFlush (hc : DeltaCounts sb h n)
    (hm : Moved n n' [.start] [.commit]) :
    DeltaCounts { sb with pendingDelta := none }
      { h with flushed := h.flushed ++ [sb.marshalDelta] } n' := by
  have hrefs : ∀ slot, n' (.ref slot) = n (.ref slot) := fun slot => hm (.ref slot)
  have hpre : n' .pre = n .pre := hm .pre
  have hrel : n' .rel = n .rel := hm .rel
  have hput : n' .put = n .put := hm .put
  have hstart : n' .start + 1 = n .start := hm .start
  have hcommit : n' .commit = n .commit + 1 := hm .commit
  have hone := hc.le_one
  have hrunning := hc.running
  have hseq := hc.seq
  have hle := hc.commit
  unfold DeltaSb.unflushed at hone hrunning hseq
  have hunflushed : DeltaSb.unflushed { sb with pendingDelta := none } n' = 0 := by
    unfold DeltaSb.unflushed
    dsimp only
    omega
  have hmarshal : sb.marshalDelta = BitVec.ofNat 32 h.flushed.length := by
    have hsucc := hc.marshal
    rw [show h.seq sb.currentDelta = h.flushed.length + 1 by omega, ofNat_succ] at hsucc
    exact add_right_cancel hsucc
  exact { hc with
    refCurrent := hrefs _ ▸ hc.refCurrent
    refPrev := hrefs _ ▸ hc.refPrev
    running := by rw [hunflushed]; dsimp only; omega
    seq := by rw [hunflushed, List.length_append, List.length_singleton]; dsimp only; omega
    commit := by rw [List.length_append, List.length_singleton]; omega
    committed := by
      rw [List.length_append, List.length_singleton,
        show h.flushed.length + 1 - n' .commit = h.flushed.length - n .commit by omega]
      exact hc.committed
    pendingDelta := fun hpos => by omega
    flushed := by
      rw [List.length_append, List.length_singleton, List.range_succ, List.map_append,
        ← hc.flushed, hmarshal]
      rfl }

/-- The end of `flush_delta`, of the delta it took. -/
theorem DeltaCounts.endFlush (hc : DeltaCounts sb h n) (hm : Moved n n' [.commit] [.rel])
    (events : List CommitEvent) :
    DeltaCounts { sb with committedDelta := sb.marshalDelta } { h with events := events } n' := by
  have hrefs : ∀ slot, n' (.ref slot) = n (.ref slot) := fun slot => hm (.ref slot)
  have hpre : n' .pre = n .pre := hm .pre
  have hrel : n' .rel = n .rel + 1 := hm .rel
  have hput : n' .put = n .put := hm .put
  have hstart : n' .start = n .start := hm .start
  have hcommit : n' .commit + 1 = n .commit := hm .commit
  have hone := hc.le_one
  have hrunning := hc.running
  have hle := hc.commit
  have hseq := hc.seq
  unfold DeltaSb.unflushed at hone hrunning hseq
  have hunflushed : DeltaSb.unflushed { sb with committedDelta := sb.marshalDelta } n' =
      sb.unflushed n := by
    unfold DeltaSb.unflushed
    dsimp only
    omega
  exact { hc with
    refCurrent := hrefs _ ▸ hc.refCurrent
    refPrev := hrefs _ ▸ hc.refPrev
    running := by rw [hunflushed]; unfold DeltaSb.unflushed; dsimp only; omega
    seq := by rw [hunflushed]; exact hc.seq
    commit := by dsimp only; omega
    committed := by
      dsimp only
      rw [hc.marshal, show h.flushed.length - n' .commit = h.seq sb.currentDelta by omega]
    pendingDelta := by rw [hunflushed]; exact hc.pendingDelta }

end Steps

/-! ## Steps of the code -/

section Exec

variable {Task : Type} {flusher : Flusher} {sb sb' : DeltaSb}
  {task task' : TaskState} {i : Instr} {choice : Choice} {h : DeltaHistory Task}
  {n n' : Token → Nat} {t : Task}

/-- What a task holds in a step, given how its own tokens change. -/
theorem moved_of_tokens {lost gained : List Token}
    (hn : ∀ k, n' k + (i.held.count k + task.tokens k) = n k + task'.tokens k)
    (htask : ∀ k, task'.tokens k + lost.count k =
      i.held.count k + task.tokens k + gained.count k) : Moved n n' lost gained := by
  intro k
  have hk := hn k
  have htk := htask k
  omega

/-- The task goes from one place to others. -/
theorem moved_run {task₁ : TaskState} {code : List Instr}
    (hn : ∀ k, n' k + (i.held.count k + task.tokens k) = n k + (task₁.run code).tokens k)
    (hsame : ∀ k, task₁.tokens k = task.tokens k) :
    Moved n n' i.held (code.flatMap Instr.held) :=
  moved_of_tokens hn fun k => by
    rw [TaskState.tokens_run, hsame]
    omega

/-- The task leaves a place and goes on after it. -/
theorem moved_leave (hn : ∀ k, n' k + (i.held.count k + task.tokens k) = n k + task.tokens k) :
    Moved n n' i.held [] :=
  moved_of_tokens hn fun k => by
    rw [List.count_nil]
    omega

theorem afterCommitStep_held {delta marshal : BitVec 32} {flag : UnifyFlag} {err : Int}
    {step : CommitStep} {code : List Instr}
    (h : afterCommitStep delta marshal flag err step = some code) :
    code.flatMap Instr.held = [.commit] := by
  cases step <;> simp only [afterCommitStep, Option.ite_none_right_eq_some, Option.some.injEq]
    at h
  case saveSb =>
    split at h <;> cases h <;> rfl
  all_goals
    first
    | subst h; rfl
    | obtain ⟨_, rfl⟩ := h; rfl

/-- What one step does to the shared state, to the history and to the tokens: `lost` are
given up and `gained` are taken.  Only where it `ends` a flush may it advance
`committed_delta`. -/
inductive DeltaChange (flusher : Flusher) (ends : Prop) (sb : DeltaSb)
    (h : DeltaHistory Task) : List Token → List Token → DeltaSb → DeltaHistory Task → Prop
    where
  | quiet (readers : Nat) (writer : Bool) (requested : Task → Nat) (events : List CommitEvent) :
      DeltaChange flusher ends sb h [] [] { sb with lockReaders := readers, lockWriter := writer }
        { h with requested := requested, events := events }
  | setUnifyFlag (ref : DeltaSlot) (flag : UnifyFlag) :
      DeltaChange flusher ends sb h [] [] (sb.setUnifyFlag ref flag) h
  | grab {ref : DeltaSlot} (hpos : (sb.deltaRefs ref).refcount ≠ 0) :
      DeltaChange flusher ends sb h [] [.ref ref]
        (sb.setRefcount ref ((sb.deltaRefs ref).refcount + 1)) h
  | put (ref : DeltaSlot) :
      DeltaChange flusher ends sb h [.ref ref]
        (if (sb.deltaRefs ref).refcount = 1 then [.put] else [])
        (sb.setRefcount ref ((sb.deltaRefs ref).refcount - 1)) h
  | setPending : DeltaChange flusher ends sb h [.put] [] { sb with pending := true } h
  | grabRunning (hclear : sb.running = false) :
      DeltaChange flusher ends sb h [] [.pre] { sb with running := true } h
  | giveUp : DeltaChange flusher ends sb h [.pre] [.rel] sb h
  | clearRunning : DeltaChange flusher ends sb h [.rel] [] { sb with running := false } h
  | transition :
      DeltaChange flusher ends sb h [.pre] [.ref sb.currentDelta]
        { sb.openDelta (nextRef sb.currentDelta) with
          marshalDelta := sb.currentRef.delta
          pendingDelta := some sb.currentDelta }
        { h with
          seq := Function.update h.seq (nextRef sb.currentDelta) (h.seq sb.currentDelta + 1) }
  | startFlush :
      DeltaChange flusher ends sb h [.start] [.commit] { sb with pendingDelta := none }
        { h with flushed := h.flushed ++ [sb.marshalDelta] }
  | endFlush (hends : ends) (events : List CommitEvent) :
      DeltaChange flusher ends sb h [.commit] [.rel] { sb with committedDelta := sb.marshalDelta }
        { h with events := events }
  | flushPending (hsync : flusher = .sync) : DeltaChange flusher ends sb h [] [.flushPending] sb h
  | flushNothing : DeltaChange flusher ends sb h [.flushPending] [] sb h
  | takePending (hset : sb.pending = true) :
      DeltaChange flusher ends sb h [.flushPending] [.start] { sb with pending := false } h
  | flusherStops : DeltaChange flusher ends sb h [.flusher] [] sb h
  | testPending (hset : sb.pending = true) : DeltaChange flusher ends sb h [.flusher] [.clear] sb h
  | clearPending :
      DeltaChange flusher ends sb h [.clear] [.start, .flusher] { sb with pending := false } h

/-- Nothing happens outside the task. -/
theorem DeltaChange.refl (flusher : Flusher) (ends : Prop) (sb : DeltaSb)
    (h : DeltaHistory Task) : DeltaChange flusher ends sb h [] [] sb h :=
  .quiet sb.lockReaders sb.lockWriter h.requested h.events

/-- The task goes to a place with the same tokens, which is no move at all. -/
theorem Moved.stay {held : List Token} (hm : Moved n n' held held) : Moved n n' [] [] :=
  fun k => Nat.add_right_cancel (hm k)

/-- The step changes the state as one of the kinds says, with tokens that the task holds. -/
def Changes (flusher : Flusher) (ends : Prop) (sb : DeltaSb) (h : DeltaHistory Task)
    (n n' : Token → Nat) (held : List Token) (sb' : DeltaSb) (h' : DeltaHistory Task) : Prop :=
  ∃ lost gained, lost.Sublist held ∧ Moved n n' lost gained ∧
    DeltaChange flusher ends sb h lost gained sb' h'

theorem Moved.changes {ends : Prop} {lost gained : List Token} {h' : DeltaHistory Task}
    {held : List Token} (hm : Moved n n' lost gained)
    (hchange : DeltaChange flusher ends sb h lost gained sb' h') (hheld : lost.Sublist held) :
    Changes flusher ends sb h n n' held sb' h' :=
  ⟨lost, gained, hheld, hm, hchange⟩

/-- What a step of the code does, place by place. -/
theorem execInstr_changes [DecidableEq Task] (hflush : ∀ delta, i.Flushes delta → delta = sb.marshalDelta)
    (hn : ∀ k, n' k + (i.held.count k + task.tokens k) = n k + task'.tokens k)
    (hexec : execInstr flusher choice sb task i = some (sb', task')) :
    Changes flusher (∃ delta, i = .flushEnd delta) sb h n n' i.held sb'
      (h.record choice sb t i) := by
  cases i <;> simp only [execInstr, DeltaHistory.record] at hexec ⊢
  case changeEndAtomic =>
    split at hexec
    · rename_i ref hjournal
      obtain ⟨rfl, rfl⟩ : _ ∧ _ := by simpa using hexec
      have hm : Moved n n' [] [] := moved_of_tokens hn fun k => by
        have hjournal := hjournal ▸ task.tokens_journal k none 0
        simp only [journalHeld] at hjournal
        rw [TaskState.tokens_run]
        simp only [Instr.held, List.flatMap_cons, List.flatMap_nil, List.append_nil]
        omega
      exact hm.changes (.refl _ _ _ _) (List.Sublist.refl _)
    · cases hexec
  case incNotZero ref sync =>
    split at hexec
    · obtain ⟨rfl, rfl⟩ : _ ∧ _ := by simpa using hexec
      exact (moved_run hn fun _ => rfl).changes (.refl _ _ _ _) (List.Sublist.refl _)
    · rename_i hpos
      cases sync with
      | none =>
        dsimp only at hexec
        split at hexec
        · rename_i hnone
          obtain ⟨rfl, rfl⟩ : _ ∧ _ := by simpa using hexec
          have hm : Moved n n' [] [.ref ref] := moved_of_tokens hn fun k => by
            have hjournal := task.tokens_journal k (some (.deltaRef ref)) task.err
            rw [hnone] at hjournal
            simp only [journalHeld, List.count_nil, Nat.add_zero] at hjournal
            simp only [Instr.held, List.count_nil, Nat.add_zero, Nat.zero_add]
            exact hjournal
          exact hm.changes (.grab hpos) (List.Sublist.refl _)
        · cases hexec
      | some flag =>
        obtain ⟨rfl, rfl⟩ : _ ∧ _ := by simpa using hexec
        exact (moved_run hn fun _ => rfl).changes (.grab hpos) (List.Sublist.refl _)
  case setUnifyFlag ref flag =>
    obtain ⟨rfl, rfl⟩ : _ ∧ _ := by simpa using hexec
    exact (moved_run hn fun _ => rfl).stay.changes (.setUnifyFlag ref flag) (List.nil_sublist _)
  case readDelta ref =>
    obtain ⟨rfl, rfl⟩ : _ ∧ _ := by simpa using hexec
    exact (moved_run hn fun _ => rfl).stay.changes (.quiet _ _ _ _) (List.nil_sublist _)
  case deltaPut ref =>
    obtain ⟨rfl, rfl⟩ : _ ∧ _ := by simpa using hexec
    have hm : Moved n n' [.ref ref] (if (sb.deltaRefs ref).refcount = 1 then [.put] else []) :=
      moved_of_tokens hn fun k => by
        split
        · rw [TaskState.tokens_run]
          simp only [Instr.held, List.flatMap_cons, List.flatMap_nil, List.append_nil]
          omega
        · simp only [Instr.held, List.count_nil]
          omega
    exact hm.changes (.put ref) (List.Sublist.refl _)
  case setPending =>
    obtain ⟨rfl, rfl⟩ : _ ∧ _ := by simpa using hexec
    exact (moved_leave hn).changes .setPending (List.Sublist.refl _)
  case needDelta =>
    split at hexec
    · obtain ⟨rfl, rfl⟩ : _ ∧ _ := by simpa using hexec
      exact (moved_run hn fun _ => rfl).changes (.refl _ _ _ _) (List.Sublist.refl _)
    · obtain ⟨rfl, rfl⟩ : _ ∧ _ := by simpa using hexec
      exact (moved_leave hn).changes (.refl _ _ _ _) (List.Sublist.refl _)
  case tryDeltaTransition =>
    split at hexec
    · obtain ⟨rfl, rfl⟩ : _ ∧ _ := by simpa using hexec
      exact (moved_leave hn).changes (.refl _ _ _ _) (List.Sublist.refl _)
    · rename_i hclear
      obtain ⟨rfl, rfl⟩ : _ ∧ _ := by simpa using hexec
      exact (moved_run hn fun _ => rfl).changes (.grabRunning (by simpa using hclear))
        (List.Sublist.refl _)
  case grabRunning delta =>
    split at hexec
    · obtain ⟨rfl, rfl⟩ : _ ∧ _ := by simpa using hexec
      exact (moved_run hn fun _ => rfl).changes (.refl _ _ _ _) (List.Sublist.refl _)
    · rename_i hclear
      obtain ⟨rfl, rfl⟩ : _ ∧ _ := by simpa using hexec
      exact (moved_run hn fun _ => rfl).changes (.grabRunning (by simpa using hclear))
        (List.Sublist.refl _)
  case recheckMarshal delta =>
    split at hexec
    · obtain ⟨rfl, rfl⟩ : _ ∧ _ := by simpa using hexec
      exact (moved_run hn fun _ => rfl).changes .giveUp (List.Sublist.refl _)
    · obtain ⟨rfl, rfl⟩ : _ ∧ _ := by simpa using hexec
      exact (moved_run hn fun _ => rfl).stay.changes (.refl _ _ _ _) (List.nil_sublist _)
  case deltaTransition =>
    split at hexec
    · obtain ⟨rfl, rfl⟩ : _ ∧ _ := by simpa using hexec
      have hm : Moved n n' [.pre] [.ref sb.currentDelta] := by
        cases flusher <;> exact moved_run hn fun _ => rfl
      exact hm.changes .transition (List.Sublist.refl _)
    · cases hexec
  case clearRunning =>
    obtain ⟨rfl, rfl⟩ : _ ∧ _ := by simpa using hexec
    exact (moved_leave hn).changes .clearRunning (List.Sublist.refl _)
  case tryFlushUntil delta =>
    cases flusher with
    | sync =>
      dsimp only at hexec
      split at hexec
      · obtain ⟨rfl, rfl⟩ : _ ∧ _ := by simpa using hexec
        exact (moved_run hn fun _ => rfl).changes (.refl _ _ _ _) (List.Sublist.refl _)
      · obtain ⟨rfl, rfl⟩ : _ ∧ _ := by simpa using hexec
        exact (moved_run hn fun _ => rfl).changes (.flushPending rfl) (List.Sublist.refl _)
    | asyncOwn =>
      obtain ⟨rfl, rfl⟩ : _ ∧ _ := by simpa using hexec
      exact (moved_run hn fun _ => rfl).changes (.refl _ _ _ _) (List.Sublist.refl _)
  case waitCommit delta =>
    split at hexec
    · obtain ⟨rfl, rfl⟩ : _ ∧ _ := by simpa using hexec
      have hm : Moved n n' [] [] := by
        cases flusher <;> exact moved_run hn fun _ => rfl
      exact hm.changes (.refl _ _ _ _) (List.Sublist.refl _)
    · obtain ⟨rfl, rfl⟩ : _ ∧ _ := by simpa using hexec
      exact (moved_run hn fun _ => rfl).changes (.refl _ _ _ _) (List.Sublist.refl _)
  case assertCommitted delta =>
    split at hexec
    · obtain ⟨rfl, rfl⟩ : _ ∧ _ := by simpa using hexec
      have hm : Moved n n' [] [] := by
        cases flusher <;> exact moved_run hn fun _ => rfl
      exact hm.changes (.quiet _ _ _ _) (List.Sublist.refl _)
    · cases hexec
  case flushPending =>
    split at hexec
    · obtain ⟨rfl, rfl⟩ : _ ∧ _ := by simpa using hexec
      exact (moved_run hn fun _ => rfl).stay.changes (.refl _ _ _ _) (List.nil_sublist _)
    · obtain ⟨rfl, rfl⟩ : _ ∧ _ := by simpa using hexec
      exact (moved_leave hn).changes .flushNothing (List.Sublist.refl _)
  case takePending =>
    split at hexec
    · rename_i hset
      obtain ⟨rfl, rfl⟩ : _ ∧ _ := by simpa using hexec
      exact (moved_run hn fun _ => rfl).changes (.takePending hset) (List.Sublist.refl _)
    · obtain ⟨rfl, rfl⟩ : _ ∧ _ := by simpa using hexec
      exact (moved_leave hn).changes .flushNothing (List.Sublist.refl _)
  case flusherLoop =>
    split at hexec
    · obtain ⟨rfl, rfl⟩ : _ ∧ _ := by simpa using hexec
      exact (moved_leave hn).changes .flusherStops (List.Sublist.refl _)
    · obtain ⟨rfl, rfl⟩ : _ ∧ _ := by simpa using hexec
      exact (moved_run hn fun _ => rfl).stay.changes (.refl _ _ _ _) (List.nil_sublist _)
  case testPending =>
    split at hexec
    · rename_i hset
      obtain ⟨rfl, rfl⟩ : _ ∧ _ := by simpa using hexec
      exact (moved_run hn fun _ => rfl).changes (.testPending hset) (List.Sublist.refl _)
    · obtain ⟨rfl, rfl⟩ : _ ∧ _ := by simpa using hexec
      exact (moved_run hn fun _ => rfl).stay.changes (.refl _ _ _ _) (List.nil_sublist _)
  case clearPending =>
    obtain ⟨rfl, rfl⟩ : _ ∧ _ := by simpa using hexec
    exact (moved_run hn fun _ => rfl).changes .clearPending (List.Sublist.refl _)
  case flushDelta =>
    split at hexec
    · obtain ⟨rfl, rfl⟩ : _ ∧ _ := by simpa using hexec
      exact (moved_run hn fun _ => rfl).changes .startFlush (List.Sublist.refl _)
    · cases hexec
  case doCommit delta flag =>
    split at hexec
    · rename_i hnone
      obtain ⟨rfl, rfl⟩ : _ ∧ _ := by simpa using hexec
      have hm := moved_run hn fun k => by
        have hjournal := task.tokens_journal k (some .sb) task.err
        rw [hnone] at hjournal
        exact hjournal
      exact hm.stay.changes (.refl _ _ _ _) (List.nil_sublist _)
    · cases hexec
  case commitStep step delta marshal flag =>
    have hm : Moved n n' [] [] := by
      split at hexec
      · rename_i code hcode
        obtain ⟨rfl, rfl⟩ : _ ∧ _ := by simpa using hexec
        have hm := moved_run hn fun _ => rfl
        rw [afterCommitStep_held hcode] at hm
        exact hm.stay
      · obtain ⟨rfl, rfl⟩ : _ ∧ _ := by simpa using hexec
        exact (moved_run hn fun _ => rfl).stay
    have hsb : sb' = sb := by
      split at hexec <;> (cases hexec; rfl)
    rw [hsb]
    exact hm.changes (.quiet _ _ _ _) (List.nil_sublist _)
  case unifyLog =>
    split at hexec
    all_goals
      obtain ⟨rfl, rfl⟩ : _ ∧ _ := by simpa using hexec
      exact (moved_run hn fun _ => rfl).stay.changes (.refl _ _ _ _) (List.nil_sublist _)
  case endBackend delta =>
    split at hexec
    · rename_i hjournal
      obtain ⟨rfl, rfl⟩ : _ ∧ _ := by simpa using hexec
      have hm := moved_run hn fun k => by
        have hjournal := hjournal ▸ task.tokens_journal k none 0
        exact hjournal
      exact hm.stay.changes (.refl _ _ _ _) (List.nil_sublist _)
    · cases hexec
  case flushEnd delta =>
    obtain ⟨rfl, rfl⟩ : _ ∧ _ := by simpa using hexec
    obtain rfl := hflush delta rfl
    exact (moved_run hn fun _ => rfl).changes (.endFlush ⟨_, rfl⟩ _) (List.Sublist.refl _)
  -- places without tokens, which change nothing but delta_lock
  all_goals
    try split at hexec
  all_goals
    simp only [Option.some.injEq, Prod.mk.injEq, reduceCtorEq] at hexec
  all_goals
    obtain ⟨rfl, rfl⟩ := hexec
    first
    | exact (moved_run hn fun _ => rfl).changes (.quiet _ _ _ _) (List.Sublist.refl _)
    | exact (moved_leave hn).changes (.quiet _ _ _ _) (List.Sublist.refl _)

/-- The counts agree after each kind of step. -/
theorem DeltaCounts.change {ends : Prop} {h' : DeltaHistory Task} {held : List Token}
    (hc : DeltaCounts sb h n) (hf : FlusherCounts flusher sb n)
    (hmine : ∀ k, held.count k ≤ n k)
    (hchanges : Changes flusher ends sb h n n' held sb' h') : DeltaCounts sb' h' n' := by
  obtain ⟨lost, gained, hheld, hm, hchange⟩ := hchanges
  have hlost : ∀ k, lost.count k ≤ n k := fun k => le_trans (hheld.count_le k) (hmine k)
  cases hchange with
  | quiet readers writer requested events =>
    rw [hm.eq]
    exact { hc with next := hc.next }
  | setUnifyFlag ref flag =>
    rw [hm.eq]
    exact hc.setUnifyFlag ref flag
  | grab hpos => exact hc.grab hpos hm
  | put ref =>
    have href := hlost (.ref ref)
    rw [List.count_singleton_self] at href
    exact hc.put href hm
  | setPending => exact hc.setPending hm
  | grabRunning hclear => exact hc.grabRunning hclear hm
  | giveUp => exact hc.giveUp hm
  | clearRunning => exact hc.clearRunning hm
  | transition => exact hc.transition hm
  | startFlush => exact hc.startFlush hm
  | endFlush _ events => exact hc.endFlush hm events
  | takePending hset =>
    exact hc.clearPending hset (fun slot => hm (.ref slot)) (hm .pre) (hm .rel) (hm .put)
      (hm .start) (hm .commit)
  | clearPending =>
    exact hc.clearPending (hf.clearPending (hlost .clear)) (fun slot => hm (.ref slot))
      (hm .pre) (hm .rel) (hm .put) (hm .start) (hm .commit)
  | flushPending | flushNothing | flusherStops | testPending =>
    exact hc.flusher (fun slot => hm (.ref slot)) (hm .pre) (hm .rel) (hm .put) (hm .start)
      (hm .commit)

theorem FlusherCounts.keep (hf : FlusherCounts flusher sb n)
    (hflusher : n' .flusher = n .flusher) (hclear : n' .clear = n .clear)
    (hflush : n' .flushPending = n .flushPending)
    (hpending : sb.pending = true → sb'.pending = true) : FlusherCounts flusher sb' n' where
  oneFlusher := by rw [hflusher, hclear]; exact hf.oneFlusher
  asyncOwn := by rw [hflusher, hclear]; exact hf.asyncOwn
  sync := hflush ▸ hf.sync
  clearPending := fun hpos => hpending (hf.clearPending (hclear ▸ hpos))

/-- `flush_pending_delta` is not for a flusher task. -/
theorem FlusherCounts.noFlusher (hf : FlusherCounts flusher sb n) (hpos : 0 < n .flushPending) :
    n .flusher + n .clear = 0 := by
  by_contra hne
  have hasync := hf.asyncOwn (Nat.pos_of_ne_zero hne)
  rw [hf.sync hpos] at hasync
  cases hasync

theorem FlusherCounts.change {ends : Prop} {h' : DeltaHistory Task} {held : List Token}
    (hf : FlusherCounts flusher sb n)
    (hchanges : Changes flusher ends sb h n n' held sb' h') : FlusherCounts flusher sb' n' := by
  obtain ⟨lost, gained, hheld, hm, hchange⟩ := hchanges
  have hone := hf.oneFlusher
  have hasync := hf.asyncOwn
  have hsync := hf.sync
  cases hchange with
  | put ref =>
    have hkey : ∀ k, k ≠ .ref ref → k ≠ .put → n' k = n k := by
      intro k href hput
      have hk := hm k
      split at hk <;> simpa [Ne.symm href, Ne.symm hput] using hk
    exact hf.keep (hkey _ nofun nofun) (hkey _ nofun nofun) (hkey _ nofun nofun) id
  | flushPending hflush =>
    have hflusher : n' .flusher = n .flusher := hm .flusher
    have hclear : n' .clear = n .clear := hm .clear
    exact {
      oneFlusher := by omega
      asyncOwn := fun hpos => hasync (by omega)
      sync := fun _ => hflush
      clearPending := fun hpos => hf.clearPending (by omega) }
  | flushNothing =>
    have hflusher : n' .flusher = n .flusher := hm .flusher
    have hclear : n' .clear = n .clear := hm .clear
    have hflush : n' .flushPending + 1 = n .flushPending := hm .flushPending
    exact {
      oneFlusher := by omega
      asyncOwn := fun hpos => hasync (by omega)
      sync := fun _ => hsync (by omega)
      clearPending := fun hpos => hf.clearPending (by omega) }
  | takePending hset =>
    have hflusher : n' .flusher = n .flusher := hm .flusher
    have hclear : n' .clear = n .clear := hm .clear
    have hflush : n' .flushPending + 1 = n .flushPending := hm .flushPending
    have hnone := hf.noFlusher (by omega)
    exact {
      oneFlusher := by omega
      asyncOwn := fun hpos => by omega
      sync := fun _ => hsync (by omega)
      clearPending := fun hpos => by omega }
  | flusherStops =>
    have hflusher : n' .flusher + 1 = n .flusher := hm .flusher
    have hclear : n' .clear = n .clear := hm .clear
    have hflush : n' .flushPending = n .flushPending := hm .flushPending
    exact {
      oneFlusher := by omega
      asyncOwn := fun hpos => hasync (by omega)
      sync := fun hpos => hsync (by omega)
      clearPending := fun hpos => by omega }
  | testPending hset =>
    have hflusher : n' .flusher + 1 = n .flusher := hm .flusher
    have hclear : n' .clear = n .clear + 1 := hm .clear
    have hflush : n' .flushPending = n .flushPending := hm .flushPending
    exact {
      oneFlusher := by omega
      asyncOwn := fun hpos => hasync (by omega)
      sync := fun hpos => hsync (by omega)
      clearPending := fun _ => hset }
  | clearPending =>
    have hflusher : n' .flusher = n .flusher + 1 := hm .flusher
    have hclear : n' .clear + 1 = n .clear := hm .clear
    have hflush : n' .flushPending = n .flushPending := hm .flushPending
    exact {
      oneFlusher := by omega
      asyncOwn := fun hpos => hasync (by omega)
      sync := fun hpos => hsync (by omega)
      clearPending := fun hpos => by omega }
  | setPending => exact hf.keep (hm .flusher) (hm .clear) (hm .flushPending) fun _ => rfl
  | _ => exact hf.keep (hm .flusher) (hm .clear) (hm .flushPending) id

end Exec

/-! ## Runs -/

theorem afterCommitStep_flushes {delta marshal d : BitVec 32} {flag : UnifyFlag} {err : Int}
    {step : CommitStep} {code : List Instr} {j : Instr}
    (h : afterCommitStep delta marshal flag err step = some code) (hj : j ∈ code)
    (hd : j.Flushes d) : (Instr.commitStep step delta marshal flag).Flushes d := by
  cases step <;> simp only [afterCommitStep, Option.ite_none_right_eq_some, Option.some.injEq]
    at h
  case saveSb =>
    split at h
    all_goals
      cases h
      obtain rfl := List.mem_singleton.mp hj
    · exact hd
    · exact Or.inl hd
  case defree =>
    subst h
    obtain rfl := List.mem_singleton.mp hj
    exact Or.inl hd
  all_goals
    first
    | subst h
    | obtain ⟨_, rfl⟩ := h
    obtain rfl := List.mem_singleton.mp hj
    exact hd

/-- A step puts places in front of the rest of the code, and a commit goes on with its
delta. -/
theorem execInstr_code {flusher : Flusher} {choice : Choice} {sb sb' : DeltaSb}
    {task task' : TaskState} {i : Instr}
    (hexec : execInstr flusher choice sb task i = some (sb', task')) :
    ∃ code, task'.code = code ++ task.code ∧
      ∀ j ∈ code, ∀ delta, j.Flushes delta → i.Flushes delta ∨ delta = sb.marshalDelta := by
  cases i <;> simp only [execInstr] at hexec
  case incNotZero ref sync =>
    split at hexec
    · obtain ⟨rfl, rfl⟩ : _ ∧ _ := by simpa using hexec
      exact ⟨_, rfl, by simp [Instr.Flushes]⟩
    · cases sync with
      | none =>
        dsimp only at hexec
        split at hexec
        · obtain ⟨rfl, rfl⟩ : _ ∧ _ := by simpa using hexec
          exact ⟨[], rfl, by simp⟩
        · cases hexec
      | some flag =>
        obtain ⟨rfl, rfl⟩ : _ ∧ _ := by simpa using hexec
        exact ⟨_, rfl, by simp [Instr.Flushes]⟩
  case tryFlushUntil delta =>
    cases flusher with
    | sync =>
      dsimp only at hexec
      split at hexec
      all_goals
        obtain ⟨rfl, rfl⟩ : _ ∧ _ := by simpa using hexec
        exact ⟨_, rfl, by simp [Instr.Flushes]⟩
    | asyncOwn =>
      obtain ⟨rfl, rfl⟩ : _ ∧ _ := by simpa using hexec
      exact ⟨_, rfl, by simp [Instr.Flushes]⟩
  case commitStep step delta marshal flag =>
    split at hexec
    · rename_i code hcode
      obtain ⟨-, rfl⟩ : _ ∧ _ := by simpa using hexec
      exact ⟨code, rfl, fun j hj d hd => Or.inl (afterCommitStep_flushes hcode hj hd)⟩
    · obtain ⟨-, rfl⟩ : _ ∧ _ := by simpa using hexec
      exact ⟨_, rfl, by simp +contextual [Instr.Flushes]⟩
  case deltaTransition | waitCommit | assertCommitted =>
    cases flusher
    all_goals
      split at hexec
      all_goals
        cases hexec
      all_goals
        refine ⟨_, rfl, ?_⟩
        simp [Instr.Flushes]
  all_goals
    try split at hexec
  all_goals
    simp only [Option.some.injEq, Prod.mk.injEq, reduceCtorEq] at hexec
  all_goals
    obtain ⟨-, rfl⟩ := hexec
    first
    | exact ⟨[], rfl, by simp⟩
    | exact ⟨_, rfl, by simp +contextual [Instr.Flushes, or_imp]⟩

/-- The delta to be flushed stays as long as a commit runs. -/
theorem Changes.marshal {Task : Type} {flusher : Flusher} {ends : Prop} {sb sb' : DeltaSb}
    {h h' : DeltaHistory Task} {n n' : Token → Nat} {held : List Token}
    (hchanges : Changes flusher ends sb h n n' held sb' h')
    (hmine : ∀ k, held.count k ≤ n k) (hone : n .pre + n .commit ≤ 1) (hcommit : 0 < n' .commit) :
    sb'.marshalDelta = sb.marshalDelta := by
  obtain ⟨lost, gained, hheld, hm, hchange⟩ := hchanges
  have hlost : ∀ k, lost.count k ≤ n k := fun k => le_trans (hheld.count_le k) (hmine k)
  cases hchange with
  | transition =>
    have hpre : 1 ≤ n .pre := hlost .pre
    have hsame : n' .commit = n .commit := hm .commit
    omega
  | _ => rfl

/-- The number of committed deltas stays unless the step ends a flush. -/
theorem Changes.committed {Task : Type} {flusher : Flusher} {ends : Prop} {sb sb' : DeltaSb}
    {h h' : DeltaHistory Task} {n n' : Token → Nat} {held : List Token}
    (hchanges : Changes flusher ends sb h n n' held sb' h') (hends : ¬ends) :
    h'.flushed.length - n' .commit = h.flushed.length - n .commit := by
  obtain ⟨lost, gained, -, hm, hchange⟩ := hchanges
  cases hchange with
  | startFlush =>
    have hcommit : n' .commit = n .commit + 1 := hm .commit
    simp only [List.length_append, List.length_singleton]
    omega
  | endFlush hends' => exact absurd hends' hends
  | put ref =>
    have hcommit : n' .commit = n .commit := by
      have hk := hm .commit
      split at hk <;> simpa using hk
    rw [hcommit]
  | _ =>
    have hcommit : n' .commit = n .commit := hm .commit
    simp only [hcommit]

/-- The tokens of a task are those of its next place and of the rest. -/
theorem TaskState.tokens_cons {task : TaskState} {i : Instr} {rest : List Instr}
    (hcode : task.code = i :: rest) (k : Token) :
    task.tokens k = i.held.count k + ({ task with code := rest } : TaskState).tokens k := by
  simp only [TaskState.tokens, TaskState.held, hcode, List.flatMap_cons, List.count_append]
  omega

theorem TaskState.tokens_call {task : TaskState} (hidle : task.code = []) (code : List Instr)
    (k : Token) :
    ({ task with code := code } : TaskState).tokens k =
      task.tokens k + (code.flatMap Instr.held).count k := by
  simp only [TaskState.tokens, TaskState.held, hidle, List.flatMap_nil, List.append_nil,
    List.count_append]

theorem DeltaCall.code_held (flusher : Flusher) (call : DeltaCall) :
    (call.code flusher).flatMap Instr.held = [] ∨
      (call.code flusher).flatMap Instr.held = [.flushPending] ∧ flusher = .sync := by
  cases flusher <;> cases call
  case sync.changeEnd => exact Or.inr ⟨rfl, rfl⟩
  all_goals exact Or.inl rfl

section Run

variable {Task : Type} [Fintype Task] {flusher : Flusher}

/-- The tokens of all tasks. -/
def DeltaRun.tokens (s : DeltaRun Task) (k : Token) : Nat :=
  tally (TaskState.tokens k) s.tasks

/-- The invariant of all runs. -/
structure DeltaRun.Inv (flusher : Flusher) (s : DeltaRun Task) : Prop where
  counts : DeltaCounts s.sb s.history s.tokens
  flusherCounts : FlusherCounts flusher s.sb s.tokens
  flushes : ∀ t delta, (s.tasks t).Flushes delta → delta = s.sb.marshalDelta

theorem DeltaRun.Inv.tokens_le_one {s : DeltaRun Task} (hinv : s.Inv flusher) :
    s.tokens .pre + s.tokens .rel + s.sb.unflushed s.tokens + s.tokens .commit ≤ 1 :=
  hinv.counts.le_one

/-- What a task holds is counted in the tokens of all. -/
theorem DeltaRun.tokens_pos {s : DeltaRun Task} {t : Task} {k : Token}
    (h : 0 < (s.tasks t).tokens k) : 0 < s.tokens k :=
  lt_of_lt_of_le h (le_tally (TaskState.tokens k) s.tasks t)

/-- The tokens that the task holds are there. -/
theorem DeltaRun.held_le {s : DeltaRun Task} {t : Task} {instr : Instr} {rest : List Instr}
    (hcode : (s.tasks t).code = instr :: rest) (k : Token) : instr.held.count k ≤ s.tokens k := by
  have hle := le_tally (TaskState.tokens k) s.tasks t
  rw [TaskState.tokens_cons hcode] at hle
  exact le_trans (Nat.le_add_right _ _) hle

/-- The number of a delta to which there is a reference. -/
theorem DeltaRun.Inv.held {s : DeltaRun Task} {t : Task} {slot : DeltaSlot}
    (hinv : s.Inv flusher) (hholds : (s.tasks t).Holds slot) :
    s.history.flushed.length ≤ s.history.seq slot ∧
      s.history.seq slot ≤ s.history.seq s.sb.currentDelta ∧
      (s.sb.deltaRefs slot).delta = BitVec.ofNat 32 (s.history.seq slot) := by
  have hc := hinv.counts
  have hone := hinv.tokens_le_one
  have hseq := hc.seq
  have hpos := DeltaRun.tokens_pos (TaskState.tokens_of_holds hholds)
  rcases eq_or_eq_nextRef s.sb.currentDelta slot with rfl | rfl
  · exact ⟨by omega, le_refl _, hc.current⟩
  · have hunflushed : s.sb.unflushed s.tokens = 1 := by
      have hprev := hc.refPrev
      unfold DeltaSb.unflushed at hone ⊢
      omega
    have ⟨hsucc, hdelta⟩ := hc.prev (by omega)
    exact ⟨by omega, by omega, hdelta⟩

variable [DecidableEq Task]

/-- The tokens before and after the move of one task. -/
theorem DeltaRun.tokens_update (s : DeltaRun Task) (sb : DeltaSb) (h : DeltaHistory Task)
    (t : Task) (task : TaskState) (k : Token) :
    DeltaRun.tokens ⟨sb, Function.update s.tasks t task, h⟩ k + (s.tasks t).tokens k =
      s.tokens k + task.tokens k :=
  tally_update (TaskState.tokens k) s.tasks t task

theorem DeltaCall.code_flushes {call : DeltaCall} {i : Instr} {delta : BitVec 32}
    (hi : i ∈ call.code flusher) : ¬i.Flushes delta := by
  cases flusher <;> cases call <;>
    simp only [DeltaCall.code, List.mem_cons, List.not_mem_nil, or_false] at hi
  case sync.changeEnd =>
    rcases hi with rfl | rfl | rfl | rfl | rfl | rfl <;> exact id
  case sync.changeBegin | sync.syncCurrentDelta | asyncOwn.changeEnd =>
    rcases hi with rfl | rfl <;> exact id
  all_goals
    subst hi
    exact id

theorem DeltaRun.tokens_call {s : DeltaRun Task} {t : Task} (hidle : (s.tasks t).code = [])
    (code : List Instr) (k : Token) :
    DeltaRun.tokens { s with
      tasks := Function.update s.tasks t { s.tasks t with code := code } } k =
      s.tokens k + (code.flatMap Instr.held).count k := by
  have hupdate := s.tokens_update s.sb s.history t { s.tasks t with code := code } k
  rw [TaskState.tokens_call hidle code] at hupdate
  dsimp only at hupdate ⊢
  omega

/-- A call of an idle task. -/
theorem DeltaRun.Inv.call {s : DeltaRun Task} {t : Task} (hinv : s.Inv flusher)
    (hidle : (s.tasks t).code = []) (call : DeltaCall) :
    DeltaRun.Inv flusher { s with
      tasks := Function.update s.tasks t
        { s.tasks t with code := call.code flusher } } := by
  have hn := DeltaRun.tokens_call hidle (call.code flusher)
  have hchanges : Changes flusher False s.sb s.history s.tokens
      (DeltaRun.tokens { s with
        tasks := Function.update s.tasks t { s.tasks t with code := call.code flusher } })
      [] s.sb s.history := by
    rcases call.code_held flusher with hheld | ⟨hheld, hsync⟩
    · exact Moved.changes (fun k => by rw [hn, hheld]; rfl) (.refl _ _ _ _)
        (List.nil_sublist _)
    · exact Moved.changes (fun k => by rw [hn, hheld]; rfl) (.flushPending hsync)
        (List.nil_sublist _)
  refine ⟨hinv.counts.change hinv.flusherCounts (fun _ => Nat.zero_le _) hchanges,
    hinv.flusherCounts.change hchanges, ?_⟩
  intro t' delta hflushes
  by_cases heq : t' = t
  · subst heq
    obtain ⟨i, hi, hd⟩ := hflushes
    simp only [Function.update_self] at hi
    exact absurd hd (DeltaCall.code_flushes hi)
  · simp only [Function.update_of_ne heq] at hflushes
    exact hinv.flushes t' delta hflushes

/-- What a step of a task in its code changes. -/
theorem DeltaRun.Inv.changes {s : DeltaRun Task} {t : Task} {choice : Choice} {sb' : DeltaSb}
    {task' : TaskState} {instr : Instr} {rest : List Instr} (hinv : s.Inv flusher)
    (hcode : (s.tasks t).code = instr :: rest)
    (hexec : execInstr flusher choice s.sb { s.tasks t with code := rest } instr =
      some (sb', task')) :
    Changes flusher (∃ delta, instr = .flushEnd delta) s.sb s.history s.tokens
      (DeltaRun.tokens
        { sb := sb'
          tasks := Function.update s.tasks t task'
          history := s.history.record choice s.sb t instr })
      instr.held sb' (s.history.record choice s.sb t instr) :=
  execInstr_changes (t := t) (h := s.history) (n := s.tokens)
    (fun delta hd => hinv.flushes t delta ⟨instr, hcode ▸ List.mem_cons_self, hd⟩)
    (fun k => TaskState.tokens_cons hcode k ▸ s.tokens_update sb'
      (s.history.record choice s.sb t instr) t task' k) hexec

/-- A step of a task in its code. -/
theorem DeltaRun.Inv.exec {s : DeltaRun Task} {t : Task} {choice : Choice} {sb' : DeltaSb}
    {task' : TaskState} {instr : Instr} {rest : List Instr} (hinv : s.Inv flusher)
    (hcode : (s.tasks t).code = instr :: rest)
    (hexec : execInstr flusher choice s.sb { s.tasks t with code := rest } instr =
      some (sb', task')) :
    DeltaRun.Inv flusher
      { sb := sb'
        tasks := Function.update s.tasks t task'
        history := s.history.record choice s.sb t instr } := by
  have hmine := DeltaRun.held_le hcode
  have hchanges := hinv.changes hcode hexec
  refine ⟨hinv.counts.change hinv.flusherCounts hmine hchanges,
    hinv.flusherCounts.change hchanges, ?_⟩
  intro t' delta hflushes
  have hone := hinv.tokens_le_one
  rw [hchanges.marshal hmine (by omega)
    (DeltaRun.tokens_pos (TaskState.tokens_of_flushes hflushes))]
  by_cases heq : t' = t
  · subst heq
    obtain ⟨j, hj, hd⟩ := hflushes
    obtain ⟨code, hcode', hpushed⟩ := execInstr_code hexec
    simp only [Function.update_self, hcode', List.mem_append] at hj
    rcases hj with hj | hj
    · rcases hpushed j hj delta hd with hinstr | hmarshal
      · exact hinv.flushes t' delta ⟨instr, hcode ▸ List.mem_cons_self, hinstr⟩
      · exact hmarshal
    · exact hinv.flushes t' delta ⟨j, hcode ▸ List.mem_cons_of_mem _ hj, hd⟩
  · simp only [Function.update_of_ne heq] at hflushes
    exact hinv.flushes t' delta hflushes

theorem DeltaRun.Inv.step {s s' : DeltaRun Task} {t : Task} {choice : Choice}
    (hinv : s.Inv flusher) (hstep : s.step flusher t choice = some s') : s'.Inv flusher := by
  unfold DeltaRun.step at hstep
  split at hstep
  · rename_i hidle
    cases hstep
    exact hinv.call hidle choice.call
  · rename_i instr rest hcode
    obtain ⟨⟨sb', task'⟩, hexec, rfl⟩ := Option.map_eq_some_iff.mp hstep
    exact hinv.exec hcode hexec

/-- After mount only the flusher task is there. -/
theorem mounted_tokens (flushTaskOf : Task) (k : Token) :
    (mounted flusher flushTaskOf).tokens k =
      match flusher with
      | .sync => 0
      | .asyncOwn => [Token.flusher].count k := by
  cases flusher with
  | sync => exact tally_eq_zero fun t => rfl
  | asyncOwn =>
    refine (tally_eq_single (t := flushTaskOf) fun t hne => ?_).trans ?_
    · simp only [mounted, if_neg hne]
      rfl
    · simp only [mounted, if_true]
      rfl

theorem mounted_inv (flushTaskOf : Task) : (mounted flusher flushTaskOf).Inv flusher := by
  have htokens : ∀ k, k ≠ .flusher → (mounted flusher flushTaskOf).tokens k = 0 := by
    intro k hne
    rw [mounted_tokens]
    cases flusher with
    | sync => rfl
    | asyncOwn => exact List.count_eq_zero.mpr fun hmem => hne (List.mem_singleton.mp hmem)
  have hunflushed : (mounted flusher flushTaskOf).sb.unflushed
      (mounted flusher flushTaskOf).tokens = 0 := by
    unfold DeltaSb.unflushed
    rw [htokens .put nofun, htokens .start nofun]
    rfl
  refine ⟨?_, ?_, ?_⟩
  · exact {
      refCurrent := by rw [htokens (.ref _) nofun]; rfl
      refPrev := by rw [htokens (.ref _) nofun]; rfl
      running := by
        rw [hunflushed, htokens .pre nofun, htokens .rel nofun, htokens .commit nofun]
        rfl
      seq := by rw [hunflushed]; rfl
      commit := by rw [htokens .commit nofun]; exact Nat.zero_le _
      committed := by
        rw [htokens .commit nofun]
        exact (by decide : tux3InitDelta - 1 + 1 = BitVec.ofNat 32 0)
      pendingDelta := fun hpos => by omega
      current := rfl
      next := rfl
      marshal := (by decide : tux3InitDelta - 1 + 1 = BitVec.ofNat 32 0)
      prev := fun hpos => absurd hpos (lt_irrefl 0)
      flushed := rfl }
  · have hflusher : (mounted flusher flushTaskOf).tokens .flusher = _ :=
      mounted_tokens flushTaskOf .flusher
    have hclear := htokens .clear nofun
    have hflush := htokens .flushPending nofun
    refine ⟨?_, ?_, fun hpos => by omega, fun hpos => by omega⟩
    · cases flusher <;> simp at hflusher <;> omega
    · intro hpos
      cases flusher with
      | sync => simp at hflusher; omega
      | asyncOwn => rfl
  · intro t delta hflushes
    have hpos := DeltaRun.tokens_pos (TaskState.tokens_of_flushes hflushes)
    rw [htokens .commit nofun] at hpos
    exact absurd hpos (lt_irrefl 0)

theorem deltaSystem_inv {s : DeltaRun Task} (h : (deltaSystem Task flusher).Reachable s) :
    s.Inv flusher := by
  refine h.invariant ?_ ?_
  · rintro _ ⟨flushTaskOf, rfl⟩
    exact mounted_inv flushTaskOf
  · rintro s s' hinv ⟨t, choice, hstep⟩
    exact hinv.step hstep

theorem tux3InitDelta_add (x : BitVec 32) : tux3InitDelta + x = x := BitVec.zero_add x

/-- In every reachable state of every interleaving, with either flusher: one commit at
most runs, each delta is flushed once and in order and only without references, and the
counters and slots of the code agree with this, also after they wrapped. -/
theorem deltaSystem_ordered {s : DeltaRun Task} (h : (deltaSystem Task flusher).Reachable s) :
    s.Ordered := by
  have hinv := deltaSystem_inv h
  have hc := hinv.counts
  have hone := hinv.tokens_le_one
  have hseq := hc.seq
  have hle := hc.commit
  have hprev : 0 < (s.sb.deltaRefs (nextRef s.sb.currentDelta)).refcount →
      s.sb.unflushed s.tokens = 1 := by
    intro hpos
    unfold DeltaSb.unflushed at hone ⊢
    omega
  have hmarshal : s.sb.marshalDelta + 1 =
      s.sb.committedDelta + 1 + BitVec.ofNat 32 (s.sb.unflushed s.tokens + s.tokens .commit) := by
    rw [hc.marshal, hc.committed, ← BitVec.ofNat_add, hseq]
    congr 1
    omega
  refine ⟨?_, ?_, ?_, ?_, ?_, by omega, ?_, ?_⟩
  · intro t t' delta delta' hflushes hflushes'
    have hle : tally (TaskState.tokens .commit) s.tasks ≤ 1 :=
      show s.tokens .commit ≤ 1 by omega
    exact eq_of_tally_le_one hle (TaskState.tokens_of_flushes hflushes)
      (TaskState.tokens_of_flushes hflushes')
  · intro t hmem
    have hpre : 0 < s.tokens .pre :=
      DeltaRun.tokens_pos (TaskState.tokens_of_mem hmem (List.mem_singleton_self _))
    by_contra hne
    have := hprev (Nat.pos_of_ne_zero hne)
    omega
  · rcases Nat.le_one_iff_eq_zero_or_eq_one.mp
      (show s.sb.unflushed s.tokens + s.tokens .commit ≤ 1 by omega) with hzero | hone
    · rw [hzero] at hmarshal
      exact Or.inl (add_right_cancel (hmarshal.trans (BitVec.add_zero _)))
    · rw [hone] at hmarshal
      exact Or.inr (add_right_cancel hmarshal)
  · rw [hc.current, hc.marshal]
  · exact hc.flushed.trans (List.map_congr_left fun n _ => (tux3InitDelta_add _).symm)
  · intro t slot hholds
    have ⟨hle, _, hdelta⟩ := hinv.held hholds
    exact ⟨hle, hdelta.trans (tux3InitDelta_add _).symm⟩
  · intro t delta hflushes
    have hpos := DeltaRun.tokens_pos (TaskState.tokens_of_flushes hflushes)
    have hdelta := hinv.flushes t delta hflushes
    refine ⟨hdelta, by omega, ?_, ?_⟩
    · by_contra hne
      have := hprev (Nat.pos_of_ne_zero hne)
      omega
    · rw [hc.current, ← hc.marshal, hdelta, BitVec.toNat_add]
      unfold tux3Delta
      have hlt := s.sb.marshalDelta.isLt
      have hone : (1 : BitVec 32).toNat = 1 := rfl
      omega

end Run

/-- A step in which nothing fails and nobody asks for a unify. -/
def syncChoice : Choice :=
  { call := .syncCurrentDelta .allowUnify, yes := false, err := 0, killed := false }

/-- Task 0 reads `current_delta` in `delta_get`, then task 1 syncs twice, and only then
task 0 tries to take its reference. -/
def lateRefSchedule : List (Fin 2 × Choice) :=
  [(⟨0, Nat.zero_lt_two⟩, { syncChoice with call := .changeBeginAtomic }),
      (⟨0, Nat.zero_lt_two⟩, syncChoice)] ++
    List.replicate 69 (⟨1, Nat.one_lt_two⟩, syncChoice) ++ [(⟨0, Nat.zero_lt_two⟩, syncChoice)]

/-- The `delta_ref` that task 0 read was recycled twice, and it gets a reference to the
delta that is current now. -/
theorem deltaSystem_ordered_lateRef :
    ∃ s, (mounted .sync 0).steps .sync lateRefSchedule = some s ∧
      (s.history.flushed = [0, 1] ∧ (s.tasks 0).journalInfo = some (.deltaRef 0) ∧
        (s.sb.deltaRefs 0).delta = 2) ∧ s.Ordered := by
  have hfacts : ((mounted .sync 0).steps .sync lateRefSchedule).map (fun s =>
      decide (s.history.flushed = [0, 1] ∧ (s.tasks 0).journalInfo = some (.deltaRef 0) ∧
        (s.sb.deltaRefs 0).delta = 2)) = some true := by
    decide +kernel
  obtain ⟨s, hs, hdecide⟩ := Option.map_eq_some_iff.mp hfacts
  exact ⟨s, hs, of_decide_eq_true hdecide,
    deltaSystem_ordered (DeltaRun.steps_reachable (.init ⟨0, rfl⟩) hs)⟩

end Tux3
