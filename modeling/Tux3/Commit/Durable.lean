/-
  Commit/Durable.lean --- what `sync_current_delta` promises when steps of a commit fail.

  `do_commit` drops the errors of `write_btree`, `write_log` and `commit_delta`, and
  `flush_delta` advances `committed_delta` whatever `do_commit` returned.  So what the
  events of a run should say holds in the runs in which no step of a commit fails.

  The proof annotates each place of the code with what its task knows there.  A step
  establishes what is known at the places it reaches (`execInstr_knows`), and no step of
  another task invalidates it (`Instr.Knows.mono`).
-/
import Tux3.Commit.Transition

set_option autoImplicit false

namespace Tux3

open Tally

/-! ## The property -/

/-- A step of the commit of this delta failed. -/
def CommitEvent.Fails (delta : Nat) : CommitEvent → Prop
  | .step d _ err => d = delta ∧ err ≠ 0
  | _ => False

/-- The steps that write the blocks of a delta. -/
def writeSteps : List CommitStep := [.flushInodes, .flushAtable, .writeBtree, .writeLog]

/-- All blocks of the delta were written. -/
def AllWritten (delta : Nat) (events : List CommitEvent) : Prop :=
  (∀ step ∈ writeSteps, .step delta step 0 ∈ events) ∧ ∀ e ∈ events, ¬e.Fails delta

/-- A super block that includes the delta was saved after all blocks of the delta were
written.  The super block of a delta includes all deltas before it. -/
def SavedAfterWrites (delta : Nat) (events : List CommitEvent) : Prop :=
  ∃ saved, delta ≤ saved ∧ ∃ before after,
    events = before ++ .step saved .saveSb 0 :: after ∧ AllWritten delta before

/-- The commit of the delta reached its end, and none of its steps failed. -/
def CommitSucceeded (delta : Nat) (events : List CommitEvent) : Prop :=
  .step delta .saveSb 0 ∈ events ∧ .step delta .defree 0 ∈ events ∧
    ∀ e ∈ events, ¬e.Fails delta

/-- What has to be before an event: `sync_current_delta` returns 0 for what is saved, the
super block is not saved after a failed step, and `committed_delta` is advanced past a
delta whose commit succeeded. -/
def CommitEvent.Justified (before : List CommitEvent) : CommitEvent → Prop
  | .synced delta => SavedAfterWrites delta before
  | .step delta .saveSb _ => ∀ e ∈ before, ¬e.Fails delta
  | .step _ _ _ => True
  | .committed delta => CommitSucceeded delta before

/-- Every event of a run is justified by those before it. -/
def CommitsDurable (events : List CommitEvent) : Prop :=
  ∀ before e after, events = before ++ e :: after → e.Justified before

/-- The runs in which no step of a commit fails. -/
def deltaSystemOk (Task : Type) [DecidableEq Task] (flusher : Flusher) : System (DeltaRun Task)
    where
  init s := ∃ flushTaskOf, s = mounted flusher flushTaskOf
  next s s' := ∃ t choice, choice.err = 0 ∧ s.step flusher t choice = some s'

/-! ## Annotations -/

/-- What the annotations of the places speak about: the number of the delta that is being
committed, the events so far, the number of the delta that a task waits for, and how many
deltas are committed. -/
structure CommitView where
  delta : Nat
  events : List CommitEvent
  requested : Nat
  committed : Nat

/-- These steps of the running commit succeeded. -/
def CommitView.Done (v : CommitView) (steps : List CommitStep) : Prop :=
  ∀ step ∈ steps, .step v.delta step 0 ∈ v.events

/-- The super block of the delta was saved, and before that its blocks were written. -/
def Saved (delta : Nat) (events : List CommitEvent) : Prop :=
  ∃ before after, events = before ++ .step delta .saveSb 0 :: after ∧
    ∀ step ∈ writeSteps, .step delta step 0 ∈ before

/-- The commit of the delta has nothing left to do. -/
def Finished (delta : Nat) (events : List CommitEvent) : Prop :=
  Saved delta events ∧ .step delta .defree 0 ∈ events

/-- The delta that a place waits for. -/
def CommitView.Waits (v : CommitView) (delta : BitVec 32) : Prop :=
  delta = BitVec.ofNat 32 v.requested ∧ v.requested ≤ v.committed + 1

/-- What is known before a step of a commit. -/
def CommitStep.Knows (v : CommitView) : CommitStep → Prop
  | .flushInodes => True
  | .flushAtable => v.Done [.flushInodes]
  | .unstashDeunify => v.Done [.flushInodes, .flushAtable]
  | .flushBitmap => v.Done [.flushInodes, .flushAtable]
  | .orphanDel => v.Done [.flushInodes, .flushAtable]
  | .orphanAdd => v.Done [.flushInodes, .flushAtable]
  | .writeBtree => v.Done [.flushInodes, .flushAtable]
  | .writeLog => v.Done [.flushInodes, .flushAtable, .writeBtree]
  | .saveSb => v.Done writeSteps
  | .defree => Saved v.delta v.events

/-- What is known at a place. -/
def Instr.Knows (v : CommitView) : Instr → Prop
  | .commitStep step _ _ _ => step.Knows v
  | .unifyLog _ _ _ => v.Done [.flushInodes, .flushAtable]
  | .endBackend _ | .flushEnd _ => Finished v.delta v.events
  | .tryTransitionUntil delta | .grabRunning delta | .recheckMarshal delta
  | .testMarshal delta | .waitTransition delta | .assertMarshal delta | .tryFlushUntil delta
  | .testCommitted delta | .waitCommit delta | .assertCommitted delta => v.Waits delta
  | _ => True

/-- The places of `sync_current_delta` from `delta_get` on. -/
def Instr.syncs : Instr → Bool
  | .deltaGet (some _) | .incNotZero _ (some _) | .setUnifyFlag _ _ | .readDelta _
  | .tryTransitionUntil _ | .grabRunning _ | .recheckMarshal _ | .testMarshal _
  | .waitTransition _ | .assertMarshal _ | .tryFlushUntil _ | .testCommitted _
  | .waitCommit _ | .assertCommitted _ => true
  | _ => false

/-- Later events, and more committed deltas. -/
structure CommitView.Later (v v' : CommitView) : Prop where
  events : v.events <+: v'.events
  committed : v.committed ≤ v'.committed

theorem Saved.mono {delta : Nat} {events events' : List CommitEvent} (h : Saved delta events)
    (hle : events <+: events') : Saved delta events' := by
  obtain ⟨before, after, rfl, hwritten⟩ := h
  obtain ⟨tail, rfl⟩ := hle
  exact ⟨before, after ++ tail, by simp, hwritten⟩

theorem Finished.mono {delta : Nat} {events events' : List CommitEvent}
    (h : Finished delta events) (hle : events <+: events') : Finished delta events' :=
  ⟨h.1.mono hle, hle.subset h.2⟩

theorem CommitView.Done.mono {v v' : CommitView} {steps : List CommitStep} (h : v.Done steps)
    (hlater : v.Later v') (hdelta : v'.delta = v.delta) : v'.Done steps := by
  intro step hstep
  rw [hdelta]
  exact hlater.events.subset (h step hstep)

theorem CommitView.Waits.mono {v v' : CommitView} {delta : BitVec 32} (h : v.Waits delta)
    (hlater : v.Later v') (hrequested : v'.requested = v.requested) : v'.Waits delta := by
  refine ⟨hrequested ▸ h.1, ?_⟩
  have hle := hlater.committed
  have hwait := h.2
  omega

/-- What is known stays known: of the running commit as long as it runs, and of a wait as
long as the task waits for the same delta. -/
theorem Instr.Knows.mono {v v' : CommitView} {i : Instr} (h : i.Knows v)
    (hlater : v.Later v') (hdelta : .commit ∈ i.held → v'.delta = v.delta)
    (hrequested : i.syncs = true → v'.requested = v.requested) : i.Knows v' := by
  cases i
  case commitStep step d m flag =>
    have hd := hdelta (List.mem_singleton_self _)
    cases step
    case flushInodes => trivial
    case defree =>
      show Saved v'.delta v'.events
      rw [hd]
      exact Saved.mono h hlater.events
    all_goals exact CommitView.Done.mono h hlater hd
  case unifyLog =>
    exact CommitView.Done.mono h hlater (hdelta (List.mem_singleton_self _))
  case endBackend | flushEnd =>
    show Finished v'.delta v'.events
    rw [hdelta (List.mem_singleton_self _)]
    exact Finished.mono h hlater.events
  all_goals
    first
    | trivial
    | exact CommitView.Waits.mono h hlater (hrequested rfl)

/-- A step of the commit that succeeded is done. -/
theorem CommitView.Done.step {v v' : CommitView} {steps : List CommitStep} {step : CommitStep}
    (h : v.Done steps) (hdelta : v'.delta = v.delta)
    (hevents : v'.events = v.events ++ [.step v.delta step 0]) : v'.Done (steps ++ [step]) := by
  intro st hst
  rw [hdelta, hevents]
  rcases List.mem_append.mp hst with hold | hnew
  · exact List.mem_append_left _ (h st hold)
  · rw [List.mem_singleton.mp hnew]
    exact List.mem_append_right _ (List.mem_singleton_self _)

/-- A step of a commit that succeeds establishes what is known at the next one. -/
theorem afterCommitStep_knows {v v' : CommitView} {delta marshal : BitVec 32}
    {flag : UnifyFlag} {step : CommitStep} {code : List Instr} (h : step.Knows v)
    (hcode : afterCommitStep delta marshal flag 0 step = some code)
    (hdelta : v'.delta = v.delta)
    (hevents : v'.events = v.events ++ [.step v.delta step 0]) :
    ∀ j ∈ code, j.Knows v' := by
  have hsub : v.events <+: v'.events := ⟨_, hevents.symm⟩
  have hnew : CommitEvent.step v.delta step 0 ∈ v'.events :=
    hevents ▸ List.mem_append_right _ (List.mem_singleton_self _)
  have hkeep : ∀ steps, v.Done steps → v'.Done steps := fun steps hdone st hst =>
    hdelta ▸ hsub.subset (hdone st hst)
  cases step <;> simp only [afterCommitStep, if_true, Option.some.injEq] at hcode <;>
    subst hcode <;> intro j hj <;> obtain rfl := List.mem_singleton.mp hj
  case flushInodes =>
    have hnone : v.Done [] := fun _ hmem => absurd hmem List.not_mem_nil
    exact hnone.step hdelta hevents
  case flushAtable => exact CommitView.Done.step h hdelta hevents
  case unstashDeunify | flushBitmap | orphanDel | orphanAdd => exact hkeep _ h
  case writeBtree => exact CommitView.Done.step h hdelta hevents
  case writeLog => exact CommitView.Done.step h hdelta hevents
  case saveSb =>
    show Saved v'.delta v'.events
    rw [hdelta, hevents]
    exact ⟨v.events, [], rfl, h⟩
  case defree => 
    show Finished v'.delta v'.events
    rw [hdelta]
    exact ⟨Saved.mono h hsub, hnew⟩

theorem afterCommitStep_syncs {delta marshal : BitVec 32} {flag : UnifyFlag} {err : Int}
    {step : CommitStep} {code : List Instr}
    (hcode : afterCommitStep delta marshal flag err step = some code) :
    code.countP Instr.syncs = 0 := by
  cases step <;> simp only [afterCommitStep, Option.ite_none_right_eq_some, Option.some.injEq]
    at hcode
  case saveSb =>
    split at hcode <;> cases hcode <;> rfl
  all_goals
    first
    | subst hcode; rfl
    | obtain ⟨_, rfl⟩ := hcode; rfl

/-- In a step that returns no error, a task knows at the places it reaches what the
annotations say. -/
theorem execInstr_knows {flusher : Flusher} {choice : Choice} {sb sb' : DeltaSb}
    {task task' : TaskState} {i : Instr} {v v' : CommitView} (hok : choice.err = 0)
    (hexec : execInstr flusher choice sb task i = some (sb', task')) (h : i.Knows v)
    (hlater : v.Later v') (hdelta : .commit ∈ i.held → v'.delta = v.delta)
    (hrequested : (∀ ref, i ≠ .readDelta ref) → v'.requested = v.requested)
    (hread : ∀ ref, i = .readDelta ref → v'.Waits (sb.deltaRefs ref).delta)
    (hevents : ∀ step delta marshal flag, i = .commitStep step delta marshal flag →
      v'.events = v.events ++ [.step v.delta step 0]) :
    ∃ code, task'.code = code ++ task.code ∧ (∀ j ∈ code, j.Knows v') ∧
      code.countP Instr.syncs ≤ [i].countP Instr.syncs := by
  have hwaits : (∀ ref, i ≠ .readDelta ref) → ∀ delta, v.Waits delta → v'.Waits delta :=
    fun hne delta hwait => hwait.mono hlater (hrequested hne)
  cases i <;> simp only [execInstr] at hexec
  case incNotZero ref sync =>
    split at hexec
    · obtain ⟨-, rfl⟩ : _ ∧ _ := by simpa using hexec
      cases sync <;> exact ⟨_, rfl, by simp [Instr.Knows], by simp [Instr.syncs]⟩
    · cases sync with
      | none =>
        dsimp only at hexec
        split at hexec
        · obtain ⟨-, rfl⟩ : _ ∧ _ := by simpa using hexec
          exact ⟨[], rfl, by simp, by simp⟩
        · cases hexec
      | some flag =>
        obtain ⟨-, rfl⟩ : _ ∧ _ := by simpa using hexec
        exact ⟨_, rfl, by simp [Instr.Knows], by simp [Instr.syncs]⟩
  case deltaGet sync =>
    obtain ⟨-, rfl⟩ : _ ∧ _ := by simpa using hexec
    cases sync <;> exact ⟨_, rfl, by simp [Instr.Knows], by simp [Instr.syncs]⟩
  case readDelta ref =>
    obtain ⟨-, rfl⟩ : _ ∧ _ := by simpa using hexec
    exact ⟨_, rfl, by simpa [Instr.Knows] using hread ref rfl, by simp [Instr.syncs]⟩
  case commitStep step delta marshal flag =>
    rw [hok] at hexec
    split at hexec
    · rename_i code hcode
      obtain ⟨-, rfl⟩ : _ ∧ _ := by simpa using hexec
      refine ⟨code, rfl, afterCommitStep_knows h hcode (hdelta (List.mem_singleton_self _))
        (hevents step delta marshal flag rfl), ?_⟩
      rw [afterCommitStep_syncs hcode]
      exact Nat.zero_le _
    · rename_i hcode
      cases step <;> simp [afterCommitStep] at hcode
  case unifyLog delta marshal flag =>
    have hdone : v'.Done [.flushInodes, .flushAtable] :=
      CommitView.Done.mono h hlater (hdelta (List.mem_singleton_self _))
    split at hexec
    all_goals
      obtain ⟨-, rfl⟩ : _ ∧ _ := by simpa using hexec
      exact ⟨_, rfl, by simpa [Instr.Knows, CommitStep.Knows] using hdone, by simp [Instr.syncs]⟩
  case endBackend delta =>
    have hfinished : (Instr.flushEnd delta).Knows v' :=
      Instr.Knows.mono h hlater hdelta fun _ => hrequested (by rintro _ ⟨⟩)
    split at hexec
    · obtain ⟨-, rfl⟩ : _ ∧ _ := by simpa using hexec
      exact ⟨_, rfl, by simpa using hfinished, by simp [Instr.syncs]⟩
    · cases hexec
  case tryFlushUntil delta =>
    cases flusher with
    | sync =>
      dsimp only at hexec
      split at hexec
      all_goals
        obtain ⟨-, rfl⟩ : _ ∧ _ := by simpa using hexec
        have hwait := hwaits (by rintro _ ⟨⟩) delta h
        exact ⟨_, rfl, by simpa [Instr.Knows] using hwait, by simp [Instr.syncs]⟩
    | asyncOwn =>
      obtain ⟨-, rfl⟩ : _ ∧ _ := by simpa using hexec
      have hwait := hwaits (by rintro _ ⟨⟩) delta h
      exact ⟨_, rfl, by simpa [Instr.Knows] using hwait, by simp [Instr.syncs]⟩
  case deltaTransition =>
    split at hexec
    · obtain ⟨-, rfl⟩ : _ ∧ _ := by simpa using hexec
      cases flusher <;> exact ⟨_, rfl, by simp [Instr.Knows], by simp [Instr.syncs]⟩
    · cases hexec
  case waitCommit delta =>
    split at hexec
    · obtain ⟨-, rfl⟩ : _ ∧ _ := by simpa using hexec
      cases flusher <;> exact ⟨_, rfl, by simp [Instr.Knows], by simp [Instr.syncs]⟩
    · obtain ⟨-, rfl⟩ : _ ∧ _ := by simpa using hexec
      have hwait := hwaits (by rintro _ ⟨⟩) delta h
      exact ⟨_, rfl, by simpa [Instr.Knows] using hwait, by simp [Instr.syncs]⟩
  case assertCommitted delta =>
    split at hexec
    · obtain ⟨-, rfl⟩ : _ ∧ _ := by simpa using hexec
      cases flusher <;> exact ⟨_, rfl, by simp [Instr.Knows], by simp [Instr.syncs]⟩
    · cases hexec
  case waitTransition delta =>
    split at hexec
    · obtain ⟨-, rfl⟩ : _ ∧ _ := by simpa using hexec
      exact ⟨[], rfl, by simp, by simp⟩
    · obtain ⟨-, rfl⟩ : _ ∧ _ := by simpa using hexec
      have hwait := hwaits (by rintro _ ⟨⟩) delta h
      exact ⟨_, rfl, by simpa [Instr.Knows] using hwait, by simp [Instr.syncs]⟩
  case assertMarshal delta =>
    split at hexec
    · obtain ⟨-, rfl⟩ : _ ∧ _ := by simpa using hexec
      have hwait := hwaits (by rintro _ ⟨⟩) delta h
      exact ⟨_, rfl, by simpa [Instr.Knows] using hwait, by simp [Instr.syncs]⟩
    · cases hexec
  case tryTransitionUntil delta | grabRunning delta | recheckMarshal delta | testMarshal delta
      | testCommitted delta =>
    split at hexec
    all_goals
      obtain ⟨-, rfl⟩ : _ ∧ _ := by simpa using hexec
      have hwait := hwaits (by rintro _ ⟨⟩) delta h
      exact ⟨_, rfl, by simpa [Instr.Knows] using hwait, by simp [Instr.syncs]⟩
  -- all other places lead to places where nothing has to be known
  all_goals
    try split at hexec
  all_goals
    simp only [Option.some.injEq, Prod.mk.injEq, reduceCtorEq] at hexec
  all_goals
    obtain ⟨-, rfl⟩ := hexec
    first
    | exact ⟨[], rfl, by simp, by simp⟩
    | exact ⟨_, rfl, by simp [Instr.Knows, CommitStep.Knows], by simp [Instr.syncs]⟩

/-! ## Runs -/

/-- A counter that is not more than two behind is at or after a delta if `delta_after_eq`
says so. -/
theorem lt_of_deltaAfterEq {committed requested : Nat} (hle : requested ≤ committed + 1)
    {a b : BitVec 32} (ha : a + 1 = BitVec.ofNat 32 committed)
    (hb : b = BitVec.ofNat 32 requested) (h : deltaAfterEq a b = true) :
    requested < committed := by
  by_contra hge
  rcases Nat.le_or_eq_of_le_succ hle with hlast | hlast
  · obtain rfl : requested = committed := by omega
    have hsub : a - b = -1 := by rw [hb, ← ha, sub_add_cancel_left]
    rw [deltaAfterEq, hsub] at h
    exact absurd h (by decide)
  · have hsub : a - b = -2 := by
      rw [hb, hlast, ofNat_succ, ← ha, add_assoc, sub_add_cancel_left]
      rfl
    rw [deltaAfterEq, hsub] at h
    exact absurd h (by decide)

theorem CommitsDurable.append {events : List CommitEvent} {e : CommitEvent}
    (h : CommitsDurable events) (he : e.Justified events) : CommitsDurable (events ++ [e]) := by
  intro before e' after heq
  rcases List.eq_nil_or_concat after with rfl | ⟨after', last, rfl⟩
  · obtain ⟨rfl, hlast⟩ := List.append_inj' heq rfl
    cases hlast
    exact he
  · rw [List.concat_eq_append, ← List.cons_append, ← List.append_assoc] at heq
    exact h before e' after' (List.append_inj' heq rfl).1

/-- The running commit keeps its number, and a task the delta it waits for. -/
theorem DeltaHistory.record_same {Task : Type} [DecidableEq Task] (h : DeltaHistory Task) (choice : Choice) (sb : DeltaSb)
    (t : Task) (instr : Instr) :
    (instr ≠ .flushDelta → (h.record choice sb t instr).flushed = h.flushed) ∧
      ∀ t', ((∀ ref, instr ≠ .readDelta ref) ∨ t' ≠ t) →
        (h.record choice sb t instr).requested t' = h.requested t' := by
  cases instr
  case readDelta ref =>
    refine ⟨fun _ => rfl, fun t' hne => ?_⟩
    rcases hne with hne | hne
    · exact absurd rfl (hne ref)
    · exact Function.update_of_ne hne _ _
  case flushDelta => exact ⟨fun hne => absurd rfl hne, fun _ _ => rfl⟩
  all_goals exact ⟨fun _ => rfl, fun _ _ => rfl⟩

section Run

variable {Task : Type} [Fintype Task] {flusher : Flusher}

/-- How many deltas are committed. -/
def DeltaRun.committedCount (s : DeltaRun Task) : Nat :=
  s.history.flushed.length - s.tokens .commit

/-- What the annotations of a task speak about. -/
def DeltaRun.view (s : DeltaRun Task) (t : Task) : CommitView where
  delta := s.history.flushed.length - 1
  events := s.history.events
  requested := s.history.requested t
  committed := s.committedCount

/-- The invariant of the runs in which nothing fails. -/
structure DeltaRun.DurableInv (flusher : Flusher) (s : DeltaRun Task) : Prop where
  inv : s.Inv flusher
  knows : ∀ t, ∀ i ∈ (s.tasks t).code, i.Knows (s.view t)
  oneSync : ∀ t, (s.tasks t).code.countP Instr.syncs ≤ 1
  clean : ∀ delta, ∀ e ∈ s.history.events, ¬e.Fails delta
  saved : ∀ delta < s.committedCount, Saved delta s.history.events
  durable : CommitsDurable s.history.events

theorem Saved.afterWrites {delta : Nat} {events : List CommitEvent} (h : Saved delta events)
    (hclean : ∀ e ∈ events, ¬e.Fails delta) : SavedAfterWrites delta events := by
  obtain ⟨before, after, rfl, hwritten⟩ := h
  exact ⟨delta, le_refl _, before, after, rfl, hwritten,
    fun e he => hclean e (List.mem_append_left _ he)⟩

theorem Finished.succeeded {delta : Nat} {events : List CommitEvent} (h : Finished delta events)
    (hclean : ∀ e ∈ events, ¬e.Fails delta) : CommitSucceeded delta events := by
  obtain ⟨⟨before, after, rfl, -⟩, hdefree⟩ := h
  exact ⟨List.mem_append_right _ List.mem_cons_self, hdefree, hclean⟩

variable [DecidableEq Task]

theorem DeltaCall.code_knows {call : DeltaCall} {v : CommitView} {i : Instr}
    (hi : i ∈ call.code flusher) : i.Knows v := by
  cases flusher <;> cases call <;>
    simp only [DeltaCall.code, List.mem_cons, List.not_mem_nil, or_false] at hi
  case sync.changeEnd =>
    rcases hi with rfl | rfl | rfl | rfl | rfl | rfl <;> trivial
  case sync.changeBegin | sync.syncCurrentDelta | asyncOwn.changeEnd =>
    rcases hi with rfl | rfl <;> trivial
  all_goals
    subst hi
    trivial

theorem DeltaCall.code_syncs (flusher : Flusher) (call : DeltaCall) :
    (call.code flusher).countP Instr.syncs ≤ 1 := by
  cases flusher <;> cases call <;> simp [DeltaCall.code, Instr.syncs]

theorem DeltaRun.DurableInv.call {s : DeltaRun Task} {t : Task} (h : s.DurableInv flusher)
    (hidle : (s.tasks t).code = []) (call : DeltaCall) :
    DeltaRun.DurableInv flusher { s with
      tasks := Function.update s.tasks t
        { s.tasks t with code := call.code flusher } } := by
  have hcommit : DeltaRun.tokens { s with
      tasks := Function.update s.tasks t { s.tasks t with code := call.code flusher } }
      .commit = s.tokens .commit := by
    rw [DeltaRun.tokens_call hidle]
    rcases call.code_held flusher with hheld | ⟨hheld, -⟩ <;> rw [hheld] <;> rfl
  have hview : ∀ t', DeltaRun.view { s with
      tasks := Function.update s.tasks t { s.tasks t with code := call.code flusher } } t' =
      s.view t' := by
    intro t'
    simp only [DeltaRun.view, DeltaRun.committedCount, hcommit]
  refine ⟨h.inv.call hidle call, ?_, ?_, h.clean, ?_, h.durable⟩
  · intro t' i hi
    rw [hview]
    by_cases heq : t' = t
    · subst heq
      simp only [Function.update_self] at hi
      exact DeltaCall.code_knows hi
    · simp only [Function.update_of_ne heq] at hi
      exact h.knows t' i hi
  · intro t'
    by_cases heq : t' = t
    · subst heq
      simp only [Function.update_self]
      exact call.code_syncs flusher
    · simp only [Function.update_of_ne heq]
      exact h.oneSync t'
  · intro delta hlt
    simp only [DeltaRun.committedCount, hcommit] at hlt
    exact h.saved delta hlt

/-- What a step adds to the events is justified, and is no failure. -/
theorem DeltaRun.DurableInv.event {s : DeltaRun Task} {t : Task} {choice : Choice}
    {sb' : DeltaSb} {task' : TaskState} {instr : Instr} {rest : List Instr}
    (h : s.DurableInv flusher) (hok : choice.err = 0)
    (hcode : (s.tasks t).code = instr :: rest)
    (hexec : execInstr flusher choice s.sb { s.tasks t with code := rest } instr =
      some (sb', task')) :
    (s.history.record choice s.sb t instr).events = s.history.events ∨
      ∃ e, (s.history.record choice s.sb t instr).events = s.history.events ++ [e] ∧
        e.Justified s.history.events ∧ ∀ delta, ¬e.Fails delta := by
  have hknows := h.knows t instr (hcode ▸ List.mem_cons_self)
  cases instr
  case commitStep step delta marshal flag =>
    refine Or.inr ⟨_, rfl, ?_, fun d hd => hd.2 hok⟩
    cases step <;> first
    | trivial
    | exact h.clean _
  case flushEnd delta =>
    exact Or.inr ⟨_, rfl, Finished.succeeded hknows (h.clean _), fun d => id⟩
  case assertCommitted delta =>
    refine Or.inr ⟨_, rfl, ?_, fun d => id⟩
    simp only [execInstr] at hexec
    split at hexec
    · rename_i hafter
      have hlt := lt_of_deltaAfterEq hknows.2 h.inv.counts.committed hknows.1 hafter
      exact (h.saved _ hlt).afterWrites (h.clean _)
    · cases hexec
  all_goals exact Or.inl rfl

/-- The number of committed deltas after a step: it advances at the end of a flush, by the
delta that was flushed. -/
theorem DeltaRun.DurableInv.committed {s : DeltaRun Task} {t : Task} {choice : Choice}
    {sb' : DeltaSb} {task' : TaskState} {instr : Instr} {rest : List Instr}
    (h : s.DurableInv flusher) (hcode : (s.tasks t).code = instr :: rest)
    (hexec : execInstr flusher choice s.sb { s.tasks t with code := rest } instr =
      some (sb', task')) :
    DeltaRun.committedCount
        { sb := sb'
          tasks := Function.update s.tasks t task'
          history := s.history.record choice s.sb t instr } = s.committedCount ∨
      (∃ delta, instr = .flushEnd delta) ∧
        DeltaRun.committedCount
          { sb := sb'
            tasks := Function.update s.tasks t task'
            history := s.history.record choice s.sb t instr } = s.history.flushed.length ∧
        s.committedCount + 1 = s.history.flushed.length := by
  have hchanges := h.inv.changes hcode hexec
  by_cases hends : ∃ delta, instr = .flushEnd delta
  · obtain ⟨delta, rfl⟩ := hends
    have hmine : 1 ≤ s.tokens .commit := DeltaRun.held_le hcode .commit
    have hone := h.inv.tokens_le_one
    have hle := h.inv.counts.commit
    have hafter := (h.inv.exec hcode hexec).tokens_le_one
    obtain ⟨rfl, rfl⟩ : _ ∧ _ := by simpa [execInstr] using hexec
    have hupdate := s.tokens_update { s.sb with committedDelta := delta }
      (s.history.record choice s.sb t (.flushEnd delta)) t
      ({ s.tasks t with code := rest }.run [.clearRunning]) .commit
    rw [TaskState.tokens_cons hcode, TaskState.tokens_run] at hupdate
    simp only [Instr.held, List.count_singleton_self, List.flatMap_cons, List.flatMap_nil,
      List.append_nil, List.count_singleton, reduceCtorEq, beq_iff_eq, if_false] at hupdate
    refine Or.inr ⟨⟨delta, rfl⟩, ?_, ?_⟩
    · unfold DeltaRun.committedCount
      dsimp only [DeltaHistory.record] at hupdate ⊢
      omega
    · unfold DeltaRun.committedCount
      omega
  · exact Or.inl (hchanges.committed hends)

theorem DeltaRun.DurableInv.exec {s : DeltaRun Task} {t : Task} {choice : Choice}
    {sb' : DeltaSb} {task' : TaskState} {instr : Instr} {rest : List Instr}
    (h : s.DurableInv flusher) (hok : choice.err = 0)
    (hcode : (s.tasks t).code = instr :: rest)
    (hexec : execInstr flusher choice s.sb { s.tasks t with code := rest } instr =
      some (sb', task')) :
    DeltaRun.DurableInv flusher
      { sb := sb'
        tasks := Function.update s.tasks t task'
        history := s.history.record choice s.sb t instr } := by
  have hinv := h.inv.exec hcode hexec
  have hevent := h.event hok hcode hexec
  have hcommitted := h.committed hcode hexec
  have hsame := s.history.record_same choice s.sb t instr
  have hinstr : instr ∈ (s.tasks t).code := hcode ▸ List.mem_cons_self
  set s' : DeltaRun Task :=
    { sb := sb'
      tasks := Function.update s.tasks t task'
      history := s.history.record choice s.sb t instr } with hs'
  have hgrows : s.history.events <+: s'.history.events := by
    rcases hevent with heq | ⟨e, heq, -, -⟩
    · exact heq ▸ List.prefix_refl _
    · exact heq ▸ List.prefix_append _ _
  have hlater : ∀ t', (s.view t').Later (s'.view t') := by
    intro t'
    refine ⟨hgrows, ?_⟩
    show s.committedCount ≤ s'.committedCount
    rcases hcommitted with heq | ⟨-, heq, hlast⟩ <;> omega
  -- a commit that runs keeps its number
  have hdelta : ∀ t' i, i ∈ (s.tasks t').code → .commit ∈ i.held →
      (s'.view t').delta = (s.view t').delta := by
    intro t' i hi hheld
    have hne : instr ≠ .flushDelta := by
      rintro rfl
      have hcommit := DeltaRun.tokens_pos (TaskState.tokens_of_mem hi hheld)
      have hstart := DeltaRun.tokens_pos
        (TaskState.tokens_of_mem hinstr (List.mem_singleton_self Token.start))
      have hone := h.inv.tokens_le_one
      unfold DeltaSb.unflushed at hone
      omega
    show s'.history.flushed.length - 1 = s.history.flushed.length - 1
    rw [show s'.history.flushed = s.history.flushed from hsame.1 hne]
  have hread : ∀ ref, instr = .readDelta ref → (s'.view t).Waits (s.sb.deltaRefs ref).delta := by
    rintro ref rfl
    have ⟨_, hle, hnumber⟩ := h.inv.held (Or.inr ⟨_, hinstr, rfl⟩)
    have hseq := h.inv.counts.seq
    have hone := h.inv.tokens_le_one
    have hcommit := h.inv.counts.commit
    have hrequested : (s'.view t).requested = s.history.seq ref := Function.update_self t _ _
    have hcount := (hlater t).committed
    refine ⟨hrequested ▸ hnumber, ?_⟩
    rw [hrequested]
    refine le_trans ?_ (Nat.succ_le_succ hcount)
    show s.history.seq ref ≤ s.history.flushed.length - s.tokens .commit + 1
    omega
  obtain ⟨code, hcode', hknows, hsyncs⟩ := execInstr_knows hok hexec (h.knows t instr hinstr)
    (hlater t) (hdelta t instr hinstr) (fun hne => hsame.2 t (Or.inl hne)) hread
    (by
      rintro step delta marshal flag rfl
      show s.history.events ++ [.step _ step choice.err] = _
      rw [hok]
      rfl)
  have hone := h.oneSync t
  rw [hcode, ← List.singleton_append, List.countP_append] at hone
  refine ⟨hinv, ?_, ?_, ?_, ?_, ?_⟩
  · intro t' j hj
    by_cases heq : t' = t
    · subst heq
      simp only [hs', Function.update_self, hcode', List.mem_append] at hj
      rcases hj with hj | hj
      · exact hknows j hj
      · have hold : j ∈ (s.tasks t').code := hcode ▸ List.mem_cons_of_mem _ hj
        refine (h.knows t' j hold).mono (hlater t') (hdelta t' j hold) fun hsync => ?_
        refine hsame.2 t' (Or.inl ?_)
        -- a task is in sync_current_delta once, so not before the delta it waits for
        rintro ref rfl
        have hpos : 0 < rest.countP Instr.syncs := List.countP_pos_iff.mpr ⟨j, hj, hsync⟩
        simp only [List.countP_singleton, Instr.syncs, if_true] at hone
        omega
    · simp only [hs', Function.update_of_ne heq] at hj
      exact (h.knows t' j hj).mono (hlater t') (hdelta t' j hj)
        fun _ => hsame.2 t' (Or.inr heq)
  · intro t'
    by_cases heq : t' = t
    · subst heq
      simp only [hs', Function.update_self, hcode', List.countP_append]
      omega
    · simp only [hs', Function.update_of_ne heq]
      exact h.oneSync t'
  · intro delta e he
    rcases hevent with heq | ⟨e', heq, -, hclean⟩
    · exact h.clean delta e (heq ▸ he)
    · rcases List.mem_append.mp (heq ▸ he) with hold | hnew
      · exact h.clean delta e hold
      · exact List.mem_singleton.mp hnew ▸ hclean delta
  · intro delta hlt
    rcases hcommitted with heq | ⟨⟨d, rfl⟩, heq, hlast⟩
    · exact (h.saved delta (heq ▸ hlt)).mono hgrows
    · by_cases hold : delta < s.committedCount
      · exact (h.saved delta hold).mono hgrows
      · obtain rfl : delta = s.history.flushed.length - 1 := by omega
        have hfinished : Finished (s.history.flushed.length - 1) s.history.events :=
          h.knows t _ hinstr
        exact hfinished.1.mono hgrows
  · rcases hevent with heq | ⟨e, heq, hjustified, -⟩
    · exact heq ▸ h.durable
    · exact heq ▸ h.durable.append hjustified

theorem mounted_durable (flushTaskOf : Task) :
    (mounted flusher flushTaskOf).DurableInv flusher := by
  have hcode : ∀ t, ((mounted flusher flushTaskOf).tasks t).code = [] ∨
      ((mounted flusher flushTaskOf).tasks t).code = [.flusherLoop] := by
    intro t
    unfold mounted
    cases flusher with
    | sync => exact Or.inl rfl
    | asyncOwn =>
      by_cases heq : t = flushTaskOf
      · exact Or.inr (by simp [heq, flushTask])
      · exact Or.inl (by simp [heq, idleTask])
  refine ⟨mounted_inv flushTaskOf, ?_, ?_, nofun, ?_, ?_⟩
  · intro t i hi
    rcases hcode t with heq | heq <;> rw [heq] at hi
    · cases hi
    · obtain rfl := List.mem_singleton.mp hi
      trivial
  · intro t
    rcases hcode t with heq | heq <;> rw [heq] <;> simp [Instr.syncs]
  · intro delta hlt
    exact absurd (lt_of_lt_of_le hlt (Nat.sub_le _ _)) (Nat.not_lt_zero _)
  · intro before e after heq
    simp [mounted] at heq

end Run

/-- A schedule in which nothing fails leads to a reachable state of these runs. -/
theorem DeltaRun.steps_reachableOk {Task : Type} [DecidableEq Task] {flusher : Flusher}
    {schedule : List (Task × Choice)} {s s' : DeltaRun Task}
    (hok : ∀ move ∈ schedule, move.2.err = 0) (h : (deltaSystemOk Task flusher).Reachable s)
    (hsteps : s.steps flusher schedule = some s') :
    (deltaSystemOk Task flusher).Reachable s' := by
  induction schedule generalizing s with
  | nil =>
    cases hsteps
    exact h
  | cons move schedule ih =>
    obtain ⟨t, choice⟩ := move
    unfold DeltaRun.steps at hsteps
    split at hsteps
    · rename_i s₁ hstep
      exact ih (fun move hmove => hok move (List.mem_cons_of_mem _ hmove))
        (h.next ⟨t, choice, hok _ List.mem_cons_self, hstep⟩) hsteps
    · cases hsteps

/-- One task calls `force_delta`, and `write_log` fails. -/
def writeLogFails : List (Unit × Choice) :=
  List.replicate 25 ((), { syncChoice with call := .syncCurrentDelta .noUnify }) ++
    [((), { syncChoice with err := -5 })] ++ List.replicate 8 ((), syncChoice)

/-- What happens then: the super block is saved, the delta is taken for committed, and
`force_delta` returns. -/
def writeLogFailsEvents : List CommitEvent :=
  [.step 0 .flushInodes 0, .step 0 .flushAtable 0, .step 0 .writeBtree 0,
    .step 0 .writeLog (-5), .step 0 .saveSb 0, .step 0 .defree 0, .committed 0, .synced 0]

end Tux3
