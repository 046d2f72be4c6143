/-
  Btree/Replay.lean --- `replay_log_stage1`: bnode changes applied again from the log.

  Each record names blocks and keys, so replay finds an entry by its key where the
  running system had a cursor.  A node of the running system may lack entries that it
  has removed but not logged yet (`Pending`); `Mirrors` says that the replayed buffers
  are the running ones with these entries put back, and each lemma here says that one
  change of the running system and its record keep it so.
-/
import Mathlib
import Tux3.Btree.Cursor
import Tux3.Log.Decode

set_option autoImplicit false

namespace Tux3

open IndexForest
open Outcome (bind_eq_ok)

/-! ## Code -/

/-- The volmap during replay: the contents of its bnode buffers, which of them are dirty
for the unify cycle, and `sb->freeblocks`. -/
structure VolmapReplay where
  bnodes : Nat → Bnode
  dirty : Nat → Bool
  freeblocks : Nat

/-- A buffer filled anew, then `mark_buffer_unify_atomic`. -/
def VolmapReplay.setNew (rp : VolmapReplay) (block : Nat) (node : Bnode) : VolmapReplay :=
  { rp with
    bnodes := Function.update rp.bnodes block node
    dirty := Function.update rp.dirty block true }

/-- `replay_bnode_redirect`. -/
def replayBnodeRedirect (rp : VolmapReplay) (oldblock newblock : Nat) : VolmapReplay :=
  rp.setNew newblock (rp.bnodes oldblock)

/-- `replay_bnode_root`. -/
def replayBnodeRoot (rp : VolmapReplay) (root count left right rkey : Nat) : VolmapReplay :=
  rp.setNew root (bnodeInitRoot count left right rkey)

/-- `replay_bnode_split`: `src` must be dirty already, and `mark_buffer_unify_non` asserts
it. -/
def replayBnodeSplit (rp : VolmapReplay) (src pos dst : Nat) :
    Except TuxError VolmapReplay := do
  let node := rp.bnodes src
  if node.length < pos then .error .bounds
  else
    let (left, right) := bnodeSplit node pos
    let rp := { rp with bnodes := Function.update rp.bnodes src left }
    tuxAssert (rp.dirty src = true)
    return rp.setNew dst right

/-- `replay_bnode_change`: the buffer must be dirty already. -/
def replayBnodeChange (rp : VolmapReplay) (bnode : Nat)
    (change : Bnode → Except TuxError Bnode) : Except TuxError VolmapReplay := do
  let node ← change (rp.bnodes bnode)
  tuxAssert (rp.dirty bnode = true)
  return { rp with bnodes := Function.update rp.bnodes bnode node }

/-- `add_func`.  It does not check that there is room for the entry. -/
def addFunc (entriesPerNode child key : Nat) (bnode : Bnode) : Except TuxError Bnode := do
  let entry ← bnodeLookup bnode key
  if bnode.length < entriesPerNode then return bnodeAddIndex bnode (entry + 1) child key
  else .error .bounds

/-- `update_func`. -/
def updateFunc (child key : Nat) (bnode : Bnode) : Except TuxError Bnode := do
  let at' ← bnodeLookup bnode key
  let entry ← entryAt bnode at'
  tuxAssert (entry.key = key)
  return bnodeSetBlock bnode at' entry child

/-- `del_func`. -/
def delFunc (key count : Nat) (bnode : Bnode) : Except TuxError Bnode := do
  let at' ← bnodeLookup bnode key
  let entry ← entryAt bnode at'
  tuxAssert (entry.key = key)
  bnodeRemoveIndex bnode at' count

/-- `adjust_func`. -/
def adjustFunc (fromKey toKey : Nat) (bnode : Bnode) : Except TuxError Bnode := do
  let at' ← bnodeLookup bnode fromKey
  let entry ← entryAt bnode at'
  tuxAssert (entry.key = fromKey)
  return bnodeSetKey bnode at' entry toKey

/-- `replay_bnode_merge`. -/
def replayBnodeMerge (entriesPerNode : Nat) (rp : VolmapReplay) (src dst : Nat) :
    Except TuxError VolmapReplay := do
  match bnodeMergeNodes entriesPerNode (rp.bnodes dst) (rp.bnodes src) with
  | none => .error .assertion
  | some node =>
      tuxAssert (rp.dirty dst = true)
      tuxAssert (rp.dirty src = true)
      return { rp with bnodes := Function.update rp.bnodes dst node }

/-- The `switch` of `replay_log_stage1`. -/
def replayLogStage1Record (entriesPerNode : Nat) (r : LogRecord) (rp : VolmapReplay) :
    Except TuxError VolmapReplay :=
  match r with
  | .bnodeRedirect oldblock newblock => .ok (replayBnodeRedirect rp oldblock newblock)
  | .bnodeRoot root count left right rkey => .ok (replayBnodeRoot rp root count left right rkey)
  | .bnodeSplit src pos dst => replayBnodeSplit rp src pos dst
  | .bnodeAdd parent child key => replayBnodeChange rp parent (addFunc entriesPerNode child key)
  | .bnodeUpdate parent child key => replayBnodeChange rp parent (updateFunc child key)
  | .bnodeMerge src dst => replayBnodeMerge entriesPerNode rp src dst
  | .bnodeDel bnode key count => replayBnodeChange rp bnode (delFunc key count)
  | .bnodeAdjust bnode fromKey toKey => replayBnodeChange rp bnode (adjustFunc fromKey toKey)
  | .freeblocks count => .ok { rp with freeblocks := count }
  | .balloc .. | .bfree .. | .bfreeOnUnify .. | .bfreeRelog .. | .leafRedirect ..
  | .leafFree .. | .bnodeFree .. | .orphanAdd .. | .orphanDel .. | .unify | .delta => .ok rp

/-- `replay_log_stage1` over a run of records. -/
def replayStage1 (entriesPerNode : Nat) :
    List LogRecord → VolmapReplay → Except TuxError VolmapReplay
  | [], rp => .ok rp
  | r :: rs, rp => do
      let rp ← replayLogStage1Record entriesPerNode r rp
      replayStage1 entriesPerNode rs rp

theorem replayStage1_append (cap : Nat) (rs rs' : List LogRecord) (rp : VolmapReplay) :
    replayStage1 cap (rs ++ rs') rp =
      (replayStage1 cap rs rp).bind (replayStage1 cap rs') := by
  induction rs generalizing rp with
  | nil => rfl
  | cons r rs ih =>
      rw [List.cons_append, replayStage1, replayStage1]
      cases h : replayLogStage1Record cap r rp with
      | error e => rfl
      | ok rp' => exact ih rp'

/-! ## The entry functions, on a node with increasing keys -/

section Func

variable {A C : Bnode} {e : IndexEntry}

theorem updateFunc_append (hsorted : Sorted (A ++ e :: C)) (child : Nat) :
    updateFunc child e.key (A ++ e :: C) = .ok (A ++ ⟨e.key, child⟩ :: C) := by
  rw [updateFunc, bnodeLookup_self hsorted]
  simp only [bind, Except.bind, entryAt_append, tuxAssert_of, bnodeSetBlock_append]
  rfl

theorem adjustFunc_append (hsorted : Sorted (A ++ e :: C)) (toKey : Nat) :
    adjustFunc e.key toKey (A ++ e :: C) = .ok (A ++ ⟨toKey, e.block⟩ :: C) := by
  rw [adjustFunc, bnodeLookup_self hsorted]
  simp only [bind, Except.bind, entryAt_append, tuxAssert_of, bnodeSetKey_append]
  rfl

theorem delFunc_append {run : Bnode} (hsorted : Sorted (A ++ (e :: run) ++ C)) :
    delFunc e.key (run.length + 1) (A ++ (e :: run) ++ C) = .ok (A ++ C) := by
  have hsplit : A ++ (e :: run) ++ C = A ++ e :: (run ++ C) := by simp
  have hremove := bnodeRemoveIndex_append A (e :: run) C
  rw [← List.append_assoc, List.length_cons] at hremove
  rw [delFunc]
  rw [hsplit] at hsorted hremove ⊢
  rw [bnodeLookup_self hsorted]
  simp only [bind, Except.bind, entryAt_append, tuxAssert_of]
  exact hremove

theorem addFunc_append {cap child key : Nat} (hle : ∀ a ∈ A ++ [e], a.key ≤ key)
    (hlt : ∀ c ∈ C.head?, key < c.key) (hroom : (A ++ e :: C).length < cap) :
    addFunc cap child key (A ++ e :: C) = .ok (A ++ e :: ⟨key, child⟩ :: C) := by
  have hadd := bnodeAddIndex_append (A ++ [e]) C child key
  rw [List.length_append, List.length_singleton] at hadd
  rw [addFunc, bnodeLookup_append hle hlt]
  simp only [bind, Except.bind, if_pos hroom]
  simpa [pure, Except.pure] using hadd

end Func

/-! ## The running system and its replay -/

/-- Entries that a node has lost without a record yet: where they were, and the entries. -/
structure Pending where
  pos : Nat
  run : Bnode

/-- The node with its pending entries put back. -/
def Pending.image (p : Pending) (node : Bnode) : Bnode :=
  node.take p.pos ++ p.run ++ node.drop p.pos

/-- No node has lost entries. -/
def noPending : Nat → Pending := fun _ => ⟨0, []⟩

theorem Pending.image_of_run_nil {p : Pending} (h : p.run = []) (node : Bnode) :
    p.image node = node := by
  rw [Pending.image, h, List.append_nil, List.take_append_drop]

theorem Pending.image_append {p : Pending} {A C : Bnode} (h : p.pos = A.length) :
    p.image (A ++ C) = A ++ p.run ++ C := by
  simp [Pending.image, h]

/-- Pending entries before a position do not matter after it. -/
theorem Pending.image_before {p : Pending} {A : Bnode} (h : p.run = [] ∨ p.pos ≤ A.length) :
    ∃ A', ∀ (e : IndexEntry) (C : Bnode), p.image (A ++ e :: C) = A' ++ e :: C := by
  rcases h with hrun | hpos
  · exact ⟨A, fun e C => Pending.image_of_run_nil hrun _⟩
  · refine ⟨A.take p.pos ++ p.run ++ A.drop p.pos, fun e C => ?_⟩
    rw [Pending.image, List.take_append_of_le_length hpos, List.drop_append_of_le_length hpos]
    simp

variable {L : Type}

/-- For the blocks in `P`, the replayed buffers are the running ones with the pending
entries put back, and those that are dirty for the unify are dirty. -/
structure Mirrors (sb : BtreeSb L) (pend : Nat → Pending) (P : Nat → Prop)
    (rp : VolmapReplay) : Prop where
  image : ∀ b, P b → rp.bnodes b = (pend b).image (sb.bnodes b)
  sorted : ∀ b, P b → Sorted (rp.bnodes b)
  dirty : ∀ b, P b → sb.state b = .unify → rp.dirty b = true
  pending : ∀ b, P b → (pend b).run ≠ [] → sb.state b = .unify

/-- The bnodes that a record creates. -/
def LogRecord.newBnodes : LogRecord → List Nat
  | .bnodeRedirect _ newblock => [newblock]
  | .bnodeRoot root .. => [root]
  | .bnodeSplit _ _ dst => [dst]
  | _ => []

/-- The blocks in `P` and those that the records create. -/
def Tracked (P : Nat → Prop) (recs : List LogRecord) : Nat → Prop := fun b =>
  P b ∨ b ∈ recs.flatMap LogRecord.newBnodes

/-- The records take the replay of `sb` to that of `sb'`. -/
def Simulates (sb : BtreeSb L) (pend : Nat → Pending) (P : Nat → Prop)
    (recs : List LogRecord) (sb' : BtreeSb L) (pend' : Nat → Pending) : Prop :=
  ∀ rp, Mirrors sb pend P rp →
    ∃ rp', replayStage1 sb.entriesPerNode recs rp = .ok rp' ∧
      Mirrors sb' pend' (Tracked P recs) rp'

theorem Mirrors.mono {sb : BtreeSb L} {pend : Nat → Pending} {P P' : Nat → Prop}
    {rp : VolmapReplay} (h : Mirrors sb pend P rp) (hsub : ∀ b, P' b → P b) :
    Mirrors sb pend P' rp :=
  ⟨fun b hb => h.image b (hsub b hb), fun b hb => h.sorted b (hsub b hb),
    fun b hb => h.dirty b (hsub b hb), fun b hb => h.pending b (hsub b hb)⟩

theorem tracked_nil {P : Nat → Prop} {b : Nat} : Tracked P [] b ↔ P b := by
  simp [Tracked]

theorem tracked_append {P : Nat → Prop} {recs recs' : List LogRecord} {b : Nat} :
    Tracked P (recs ++ recs') b ↔ Tracked (Tracked P recs) recs' b := by
  simp [Tracked, or_assoc]

theorem Tracked.of_mem {P : Nat → Prop} {recs : List LogRecord} {b : Nat} (h : P b) :
    Tracked P recs b := .inl h

theorem Simulates.trans {sb sb' sb'' : BtreeSb L} {pend pend' pend'' : Nat → Pending}
    {P : Nat → Prop} {recs recs' : List LogRecord} (h : Simulates sb pend P recs sb' pend')
    (h' : Simulates sb' pend' (Tracked P recs) recs' sb'' pend'')
    (hcap : sb'.entriesPerNode = sb.entriesPerNode) :
    Simulates sb pend P (recs ++ recs') sb'' pend'' := by
  intro rp hrp
  obtain ⟨rp', hrun, hrp'⟩ := h rp hrp
  obtain ⟨rp'', hrun', hrp''⟩ := h' rp' hrp'
  refine ⟨rp'', ?_, hrp''.mono fun b hb => tracked_append.mp hb⟩
  rw [replayStage1_append, hrun, ← hcap]
  exact hrun'

/-- A step that has no record to replay and changes no bnode. -/
theorem Simulates.of_same {sb sb' : BtreeSb L} {pend : Nat → Pending} {P : Nat → Prop}
    (hbnodes : sb'.bnodes = sb.bnodes)
    (hstate : ∀ b, P b → (sb'.state b = .unify ↔ sb.state b = .unify)) {recs : List LogRecord}
    (hrecs : ∀ r ∈ recs, stage1Handles r.code = false) :
    Simulates sb pend P recs sb' pend := by
  intro rp hrp
  have hrun : ∀ recs : List LogRecord, (∀ r ∈ recs, stage1Handles r.code = false) →
      replayStage1 sb.entriesPerNode recs rp = .ok rp ∧
        recs.flatMap LogRecord.newBnodes = [] := by
    intro recs hrecs
    induction recs with
    | nil => exact ⟨rfl, rfl⟩
    | cons r recs ih =>
        have hr := hrecs r (by simp)
        obtain ⟨hok, hnew⟩ := ih fun r' hr' => hrecs r' (List.mem_cons_of_mem _ hr')
        have hstep : replayLogStage1Record sb.entriesPerNode r rp = .ok rp ∧
            r.newBnodes = [] := by
          cases r <;> first | exact ⟨rfl, rfl⟩ | cases hr
        refine ⟨?_, by rw [List.flatMap_cons, hstep.2, hnew]; rfl⟩
        rw [replayStage1, hstep.1]
        exact hok
  obtain ⟨hok, hnew⟩ := hrun recs hrecs
  refine ⟨rp, hok, ?_⟩
  have hP : ∀ b, Tracked P recs b → P b := by
    intro b hb
    rw [Tracked, hnew] at hb
    simpa using hb
  refine ⟨fun b hb => ?_, fun b hb => hrp.sorted b (hP b hb), fun b hb hst => ?_,
    fun b hb hne => ?_⟩
  · rw [hbnodes]
    exact hrp.image b (hP b hb)
  · exact hrp.dirty b (hP b hb) ((hstate b (hP b hb)).mp hst)
  · exact (hstate b (hP b hb)).mpr (hrp.pending b (hP b hb) hne)

/-- A step that edits one tracked bnode and logs one record about it. -/
theorem Simulates.of_change {sb sb' : BtreeSb L} {pend pend' : Nat → Pending}
    {P : Nat → Prop} {block : Nat} {node : Bnode} {r : LogRecord}
    {change : Bnode → Except TuxError Bnode}
    (hrecord : ∀ rp, replayLogStage1Record sb.entriesPerNode r rp =
      replayBnodeChange rp block change)
    (hnew : r.newBnodes = []) (hP : P block) (hunify : sb.state block = .unify)
    (hbnodes : sb'.bnodes = Function.update sb.bnodes block node)
    (hstate : sb'.state = sb.state) (hpend : ∀ b, b ≠ block → pend' b = pend b)
    (hchange : ∀ image, image = (pend block).image (sb.bnodes block) → Sorted image →
      ∃ image', change image = .ok image' ∧ image' = (pend' block).image node ∧
        Sorted image') :
    Simulates sb pend P [r] sb' pend' := by
  intro rp hrp
  obtain ⟨image', hok, himage', hsorted'⟩ :=
    hchange _ (hrp.image block hP) (hrp.sorted block hP)
  have hdirty : rp.dirty block = true := hrp.dirty block hP hunify
  refine ⟨{ rp with bnodes := Function.update rp.bnodes block image' }, ?_, ?_⟩
  · rw [replayStage1, hrecord, replayBnodeChange, hok]
    simp only [bind, Except.bind, tuxAssert_of hdirty]
    rfl
  · have htracked : ∀ b, Tracked P [r] b → P b := by
      intro b hb
      simpa [Tracked, hnew] using hb
    refine ⟨fun b hb => ?_, fun b hb => ?_, fun b hb hst => ?_, fun b hb hne => ?_⟩
    · by_cases hbb : b = block
      · subst hbb
        rw [hbnodes, Function.update_self]
        exact (Function.update_self _ _ _).trans himage'
      · rw [hbnodes, Function.update_of_ne hbb, hpend b hbb]
        exact (Function.update_of_ne hbb _ _).trans (hrp.image b (htracked b hb))
    · show Sorted (Function.update rp.bnodes block image' b)
      by_cases hbb : b = block
      · rw [hbb, Function.update_self]
        exact hsorted'
      · rw [Function.update_of_ne hbb]
        exact hrp.sorted b (htracked b hb)
    · exact hrp.dirty b (htracked b hb) (hstate ▸ hst)
    · rw [hstate]
      by_cases hbb : b = block
      · exact hbb ▸ hunify
      · exact hrp.pending b (htracked b hb) (hpend b hbb ▸ hne)

/-- A buffer filled anew mirrors the new bnode. -/
theorem Mirrors.setNew {sb sb' : BtreeSb L} {pend pend' : Nat → Pending} {P : Nat → Prop}
    {rp : VolmapReplay} {block : Nat} {node : Bnode} (h : Mirrors sb pend P rp)
    (hbnodes : sb'.bnodes = Function.update sb.bnodes block node)
    (hstate : ∀ b, b ≠ block → sb'.state b = sb.state b)
    (hpend : ∀ b, b ≠ block → pend' b = pend b) (hnone : (pend' block).run = [])
    (hsorted : Sorted node) :
    Mirrors sb' pend' (fun b => P b ∨ b = block) (rp.setNew block node) := by
  have hother : ∀ b, (P b ∨ b = block) → b ≠ block → P b := fun b hb hne => hb.resolve_right hne
  refine ⟨fun b hb => ?_, fun b hb => ?_, fun b hb hst => ?_, fun b hb hne => ?_⟩
  · show Function.update rp.bnodes block node b = _
    by_cases hbb : b = block
    · rw [hbb, Function.update_self, hbnodes, Function.update_self,
        Pending.image_of_run_nil hnone]
    · rw [Function.update_of_ne hbb, hbnodes, Function.update_of_ne hbb, hpend b hbb]
      exact h.image b (hother b hb hbb)
  · show Sorted (Function.update rp.bnodes block node b)
    by_cases hbb : b = block
    · rw [hbb, Function.update_self]
      exact hsorted
    · rw [Function.update_of_ne hbb]
      exact h.sorted b (hother b hb hbb)
  · show Function.update rp.dirty block true b = true
    by_cases hbb : b = block
    · rw [hbb, Function.update_self]
    · rw [Function.update_of_ne hbb]
      exact h.dirty b (hother b hb hbb) (hstate b hbb ▸ hst)
  · by_cases hbb : b = block
    · exact absurd (hbb ▸ hnone) hne
    · rw [hstate b hbb]
      exact h.pending b (hother b hb hbb) (hpend b hbb ▸ hne)

/-- `LOG_BNODE_UPDATE`, of an entry that has no pending ones after it. -/
theorem simulates_update {sb : BtreeSb L} {pend : Nat → Pending} {P : Nat → Prop}
    {block child : Nat} {A C : Bnode} {e : IndexEntry} (hP : P block)
    (hunify : sb.state block = .unify) (hnode : sb.bnodes block = A ++ e :: C)
    (hpos : (pend block).run = [] ∨ (pend block).pos ≤ A.length) :
    Simulates sb pend P [.bnodeUpdate block child e.key]
      ((sb.setBnode block (A ++ ⟨e.key, child⟩ :: C)).withLog
        (.bnodeUpdate block child e.key)) pend := by
  refine Simulates.of_change (fun _ => rfl) rfl hP hunify rfl rfl (fun _ _ => rfl) ?_
  intro image himage hsorted
  obtain ⟨A', hA'⟩ := Pending.image_before hpos
  rw [hnode, hA'] at himage
  subst himage
  exact ⟨A' ++ ⟨e.key, child⟩ :: C, updateFunc_append hsorted child, (hA' _ _).symm,
    hsorted.setBlock child⟩

/-- `LOG_BNODE_ADJUST`, of an entry that has no pending ones after it. -/
theorem simulates_adjust {sb : BtreeSb L} {pend : Nat → Pending} {P : Nat → Prop}
    {block toKey : Nat} {A C : Bnode} {e : IndexEntry} (hP : P block)
    (hunify : sb.state block = .unify) (hnode : sb.bnodes block = A ++ e :: C)
    (hpos : (pend block).run = [] ∨ (pend block).pos ≤ A.length) (hlt : e.key < toKey)
    (hnext : ∀ c ∈ C, toKey < c.key) :
    Simulates sb pend P [.bnodeAdjust block e.key toKey]
      ((sb.withLog (.bnodeAdjust block e.key toKey)).setBnode block
        (A ++ ⟨toKey, e.block⟩ :: C)) pend := by
  refine Simulates.of_change (fun _ => rfl) rfl hP hunify rfl rfl (fun _ _ => rfl) ?_
  intro image himage hsorted
  obtain ⟨A', hA'⟩ := Pending.image_before hpos
  rw [hnode, hA'] at himage
  subst himage
  exact ⟨A' ++ ⟨toKey, e.block⟩ :: C, adjustFunc_append hsorted toKey, (hA' _ _).symm,
    hsorted.setKey (fun a ha => (hsorted.before a ha).trans hlt) hnext⟩

/-- An entry is removed after those that are pending already: it is pending too. -/
theorem simulates_remove {sb : BtreeSb L} {pend : Nat → Pending} {P : Nat → Prop}
    {block : Nat} {A C : Bnode} {e : IndexEntry} (hunify : sb.state block = .unify)
    (hnode : sb.bnodes block = A ++ e :: C)
    (hpos : (pend block).run = [] ∨ (pend block).pos = A.length) :
    Simulates sb pend P [] (sb.setBnode block (A ++ C))
      (Function.update pend block ⟨A.length, (pend block).run ++ [e]⟩) := by
  intro rp hrp
  refine ⟨rp, rfl, ?_⟩
  suffices h : Mirrors (sb.setBnode block (A ++ C))
      (Function.update pend block ⟨A.length, (pend block).run ++ [e]⟩) P rp from
    h.mono fun b hb => tracked_nil.mp hb
  refine ⟨fun b hb => ?_, hrp.sorted, hrp.dirty, fun b hb hne => ?_⟩
  · by_cases hbb : b = block
    · subst hbb
      have himage : rp.bnodes b = A ++ (pend b).run ++ e :: C := by
        rw [hrp.image b hb, hnode]
        rcases hpos with hrun | hpos
        · rw [Pending.image_of_run_nil hrun, hrun, List.append_nil]
        · exact Pending.image_append hpos
      rw [Function.update_self, BtreeSb.setBnode_bnodes, Function.update_self, himage,
        Pending.image_append rfl]
      simp
    · rw [Function.update_of_ne hbb, BtreeSb.setBnode_bnodes, Function.update_of_ne hbb]
      exact hrp.image b hb
  · by_cases hbb : b = block
    · exact hbb ▸ hunify
    · rw [Function.update_of_ne hbb] at hne
      exact hrp.pending b hb hne

/-- `LOG_BNODE_DEL`, of the entries that are pending. -/
theorem simulates_del {sb : BtreeSb L} {pend : Nat → Pending} {P : Nat → Prop}
    {block : Nat} {A C : Bnode} {e : IndexEntry} {run : Bnode} (hP : P block)
    (hunify : sb.state block = .unify) (hnode : sb.bnodes block = A ++ C)
    (hpend : pend block = ⟨A.length, e :: run⟩) :
    Simulates sb pend P [.bnodeDel block e.key (run.length + 1)]
      (sb.withLog (.bnodeDel block e.key (run.length + 1)))
      (Function.update pend block ⟨0, []⟩) := by
  have hbnodes : (sb.withLog (.bnodeDel block e.key (run.length + 1))).bnodes =
      Function.update sb.bnodes block (A ++ C) := by
    rw [← hnode, Function.update_eq_self]
    rfl
  refine Simulates.of_change (fun _ => rfl) rfl hP hunify hbnodes rfl
    (fun b hb => Function.update_of_ne hb _ _) ?_
  · intro image himage hsorted
    rw [hpend, hnode, Pending.image_append rfl] at himage
    subst himage
    refine ⟨A ++ C, delFunc_append hsorted, ?_, ?_⟩
    · rw [Function.update_self, Pending.image_of_run_nil rfl]
    · exact List.append_assoc A _ C ▸ hsorted |>.sublist (by simp)

section New

variable {sb sb' : BtreeSb L} {pend pend' : Nat → Pending} {P : Nat → Prop}

/-- `LOG_BNODE_REDIRECT`. -/
theorem simulates_redirect {oldblock newblock : Nat} (hP : P oldblock)
    (hold : sb.state oldblock ≠ .unify)
    (hbnodes : sb'.bnodes = Function.update sb.bnodes newblock (sb.bnodes oldblock))
    (hstate : ∀ b, b ≠ newblock → sb'.state b = sb.state b)
    (hpend : ∀ b, b ≠ newblock → pend' b = pend b) (hnone : (pend' newblock).run = []) :
    Simulates sb pend P [.bnodeRedirect oldblock newblock] sb' pend' := by
  intro rp hrp
  have hrun : (pend oldblock).run = [] := by
    by_contra hne
    exact hold (hrp.pending oldblock hP hne)
  have himage : rp.bnodes oldblock = sb.bnodes oldblock := by
    rw [hrp.image _ hP, Pending.image_of_run_nil hrun]
  refine ⟨rp.setNew newblock (sb.bnodes oldblock), by rw [← himage]; rfl, ?_⟩
  refine (hrp.setNew hbnodes hstate hpend hnone (himage ▸ hrp.sorted _ hP)).mono fun b hb => ?_
  simpa [Tracked, LogRecord.newBnodes] using hb

/-- `LOG_BNODE_ROOT`. -/
theorem simulates_root {root count left right rkey : Nat}
    (hbnodes : sb'.bnodes =
      Function.update sb.bnodes root (bnodeInitRoot count left right rkey))
    (hstate : ∀ b, b ≠ root → sb'.state b = sb.state b)
    (hpend : ∀ b, b ≠ root → pend' b = pend b) (hnone : (pend' root).run = [])
    (hsorted : Sorted (bnodeInitRoot count left right rkey)) :
    Simulates sb pend P [.bnodeRoot root count left right rkey] sb' pend' := by
  intro rp hrp
  refine ⟨rp.setNew root (bnodeInitRoot count left right rkey), rfl, ?_⟩
  refine (hrp.setNew hbnodes hstate hpend hnone hsorted).mono fun b hb => ?_
  simpa [Tracked, LogRecord.newBnodes] using hb

/-- `LOG_BNODE_SPLIT`. -/
theorem simulates_split {src dst : Nat} {left right : Bnode} (hP : P src)
    (hunify : sb.state src = .unify) (hsrc : (pend src).run = [])
    (hnode : sb.bnodes src = left ++ right)
    (hleft : sb'.bnodes src = left) (hright : sb'.bnodes dst = right)
    (hother : ∀ b, b ≠ src → b ≠ dst → sb'.bnodes b = sb.bnodes b)
    (hstate : ∀ b, b ≠ dst → sb'.state b = sb.state b)
    (hpend : ∀ b, b ≠ dst → pend' b = pend b) (hnone : (pend' dst).run = []) :
    Simulates sb pend P [.bnodeSplit src left.length dst] sb' pend' := by
  intro rp hrp
  have himage : rp.bnodes src = left ++ right := by
    rw [hrp.image _ hP, Pending.image_of_run_nil hsrc, hnode]
  have hsorted : Sorted (left ++ right) := himage ▸ hrp.sorted src hP
  have hdirty : rp.dirty src = true := hrp.dirty src hP hunify
  -- the state after the left half is cut back
  have hmid : Mirrors (sb.setBnode src left) pend P
      { rp with bnodes := Function.update rp.bnodes src left } := by
    refine ⟨fun b hb => ?_, fun b hb => ?_, fun b hb => hrp.dirty b hb,
      fun b hb => hrp.pending b hb⟩
    · show Function.update rp.bnodes src left b = (pend b).image (Function.update sb.bnodes src left b)
      by_cases hbs : b = src
      · rw [hbs, Function.update_self, Function.update_self, Pending.image_of_run_nil hsrc]
      · rw [Function.update_of_ne hbs, Function.update_of_ne hbs]
        exact hrp.image b hb
    · show Sorted (Function.update rp.bnodes src left b)
      by_cases hbs : b = src
      · rw [hbs, Function.update_self]
        exact hsorted.left
      · rw [Function.update_of_ne hbs]
        exact hrp.sorted b hb
  have hbnodes : sb'.bnodes = Function.update (sb.setBnode src left).bnodes dst right := by
    funext b
    by_cases hbd : b = dst
    · rw [hbd, hright, Function.update_self]
    · rw [Function.update_of_ne hbd]
      show _ = Function.update sb.bnodes src left b
      by_cases hbs : b = src
      · rw [hbs, hleft, Function.update_self]
      · rw [Function.update_of_ne hbs, hother b hbs hbd]
  refine ⟨_, ?_, (hmid.setNew hbnodes hstate hpend hnone hsorted.right).mono fun b hb => ?_⟩
  · rw [replayStage1, replayLogStage1Record, replayBnodeSplit]
    simp only [himage, bnodeSplit, List.length_append, List.take_left, List.drop_left]
    rw [if_neg (by omega), tuxAssert_of hdirty]
    rfl
  · simpa [Tracked, LogRecord.newBnodes] using hb

/-- `LOG_BNODE_MERGE`. -/
theorem simulates_merge {src dst : Nat} (hPsrc : P src) (hPdst : P dst)
    (hsrc : (pend src).run = []) (hdst : (pend dst).run = [])
    (hunifysrc : sb.state src = .unify) (hunifydst : sb.state dst = .unify)
    (hfit : (sb.bnodes src).length + (sb.bnodes dst).length ≤ sb.entriesPerNode)
    (hsorted : Sorted (sb.bnodes dst ++ sb.bnodes src))
    (hbnodes : sb'.bnodes =
      Function.update sb.bnodes dst (sb.bnodes dst ++ sb.bnodes src))
    (hstate : sb'.state = sb.state) :
    Simulates sb pend P [.bnodeMerge src dst] sb' pend := by
  intro rp hrp
  have himagesrc : rp.bnodes src = sb.bnodes src := by
    rw [hrp.image _ hPsrc, Pending.image_of_run_nil hsrc]
  have himagedst : rp.bnodes dst = sb.bnodes dst := by
    rw [hrp.image _ hPdst, Pending.image_of_run_nil hdst]
  refine ⟨{ rp with
    bnodes := Function.update rp.bnodes dst (sb.bnodes dst ++ sb.bnodes src) }, ?_, ?_⟩
  · rw [replayStage1, replayLogStage1Record, replayBnodeMerge, bnodeMergeNodes, himagesrc,
      himagedst, if_neg (by omega)]
    simp only [bind, Except.bind, tuxAssert_of (hrp.dirty dst hPdst hunifydst),
      tuxAssert_of (hrp.dirty src hPsrc hunifysrc)]
    rfl
  · refine ⟨fun b hb => ?_, fun b hb => ?_, fun b hb hst => ?_, fun b hb hrun => ?_⟩ <;>
      have hb : P b := by simpa [Tracked, LogRecord.newBnodes] using hb
    · show Function.update rp.bnodes dst (sb.bnodes dst ++ sb.bnodes src) b = _
      rw [hbnodes]
      by_cases hbd : b = dst
      · rw [hbd, Function.update_self, Function.update_self, Pending.image_of_run_nil hdst]
      · rw [Function.update_of_ne hbd, Function.update_of_ne hbd]
        exact hrp.image b hb
    · show Sorted (Function.update rp.bnodes dst (sb.bnodes dst ++ sb.bnodes src) b)
      by_cases hbd : b = dst
      · rw [hbd, Function.update_self]
        exact hsorted
      · rw [Function.update_of_ne hbd]
        exact hrp.sorted b hb
    · exact hrp.dirty b hb (hstate ▸ hst)
    · rw [hstate]
      exact hrp.pending b hb hrun

end New

end Tux3
