/-
  Btree/Chop.lean --- `btree_chop`: remove a range of keys, merging from right to left.

  One walk over the leaves of the range: every leaf is redirected, chopped, and merged
  into the leaf before it where that has room; a node whose entries are all behind the
  walk is popped, and merged into the node before it on its level.  An index that is
  removed is only counted (`ChoppedIndexInfo`), and logged when its node is popped.
-/
import Tux3.Btree.Redirect

set_option autoImplicit false

namespace Tux3

open IndexForest
open Outcome (Ensures bind_eq_ok)

/-! ## Leaves -/

/-- The leaf operations of `struct btree_ops` that `btree_chop` calls.  `leafChop` has the leaf
afterwards, if it changed, and the extents it freed; `leafMerge` has the left leaf afterwards, if
the leaves were merged. -/
structure LeafOps (L : Type) where
  leafChop : Nat → Nat → L → Except TuxError (Option (L × List BlockSegment))
  leafMerge : L → L → Except TuxError (Option L)

variable {L : Type}

/-! ## Code -/

/-- `struct chopped_index_info`. -/
structure ChoppedIndexInfo where
  start : Nat
  count : Nat
  deriving DecidableEq, Repr, Inhabited

/-- What `btree_chop` keeps between the leaves: the volume, `prev` and `cii` by level, and
`leafprev`. -/
structure ChopState (L : Type) where
  sb : BtreeSb L
  prev : Nat → Option Nat
  cii : Nat → ChoppedIndexInfo
  leafprev : Option Nat

/-- `adjust_parent_sep`, from the last node of the path up. -/
def adjustParentSep (sb : BtreeSb L) : List PathLevel → Nat → Except TuxError (BtreeSb L)
  | [], _ => .ok sb
  | s :: up, newsep => do
      let node := sb.bnodes s.block
      let parent ← entryBefore node s.next
      tuxAssert (0 < parent.key)
      tuxAssert (parent.key < newsep)
      let sb := sb.withLog (.bnodeAdjust s.block parent.key newsep)
      let sb := sb.setBnode s.block (bnodeSetKey node (s.next - 1) parent newsep)
      sb.markNon s.block
      if s.next - 1 ≠ 0 then return sb
      else adjustParentSep sb up newsep

/-- `remove_index`, of a cursor at the node `s`. -/
def removeIndex (sb : BtreeSb L) (cii : Nat → ChoppedIndexInfo) (s : PathLevel)
    (up : List PathLevel) :
    Except TuxError (BtreeSb L × (Nat → ChoppedIndexInfo) × PathLevel) := do
  let level := up.length
  let node := sb.bnodes s.block
  let entry ← entryBefore node s.next
  -- collect the chopped index, for logging later
  let start := if (cii level).count = 0 then entry.key else (cii level).start
  let cii := Function.update cii level { start := start, count := (cii level).count + 1 }
  let node ← bnodeRemoveIndex node (s.next - 1) 1
  let s := { s with next := s.next - 1 }
  let sb := sb.setBnode s.block node
  sb.markNon s.block
  -- the last entry and the root have no separator
  if level = 0 ∨ levelFinished sb s then return (sb, cii, s)
  else if s.next ≠ 0 then return (sb, cii, s)
  else
    let first ← entryAt node s.next
    let sb ← adjustParentSep sb up first.key
    return (sb, cii, s)

/-- `bfree` and the log record of a block that was redirected. -/
def freeRedirected (sb : BtreeSb L) (block : Nat) (r : LogRecord) : BtreeSb L :=
  { sb with toVolSb := (sb.toVolSb.bfree block).logRecord r }

/-- `blockput_free` or `blockput_free_unify` of a block that was freed. -/
def putFreed (sb : BtreeSb L) (block : Nat) : Except TuxError (BtreeSb L) := do
  let vol ← sb.toVolSb.blockputFree block
  return { sb with toVolSb := vol }

/-- `try_leaf_merge`. -/
def tryLeafMerge (ops : LeafOps L) (sb : BtreeSb L) (into src : Nat) :
    Except TuxError (Option (BtreeSb L)) := do
  match ← ops.leafMerge (sb.leaves into) (sb.leaves src) with
  | none => return none
  | some leaf => return some (freeRedirected (sb.setLeaf into leaf) src (.leafFree src))

/-- `try_bnode_merge`. -/
def tryBnodeMerge (sb : BtreeSb L) (into src : Nat) : Option (BtreeSb L) :=
  match bnodeMergeNodes sb.entriesPerNode (sb.bnodes into) (sb.bnodes src) with
  | none => none
  | some node => some (freeRedirected (sb.setBnode into node) src (.bnodeMerge src into))

/-- The `LOG_BNODE_DEL` of a node that is popped. -/
def logChopped (sb : BtreeSb L) (block : Nat) (ciil : ChoppedIndexInfo) : BtreeSb L :=
  if ciil.count = 0 then sb else sb.withLog (.bnodeDel block ciil.start ciil.count)

/-- The loop that pops the finished nodes.  The cursor is at `s` with `up` above it; the
result is the cursor it stops at, none where the root was popped. -/
def popNodes (done : Prop) [Decidable done] : List PathLevel → PathLevel → ChopState L →
    Except TuxError (ChopState L × Option (PathLevel × List PathLevel))
  | up, s, st => do
      if ¬(done ∨ levelFinished st.sb s) then return (st, some (s, up))
      else
        let level := up.length
        let sb := logChopped st.sb s.block (st.cii level)
        let cii := Function.update st.cii level { start := 0, count := 0 }
        let keep := { st with sb := sb, cii := cii, prev := Function.update st.prev level s.block }
        match up with
        | [] => do
            tuxAssert (st.prev level = none)
            return (keep, none)
        | t :: up =>
            match st.prev level with
            | none => popNodes done up t keep
            | some prev =>
                match tryBnodeMerge sb prev s.block with
                | none => popNodes done up t keep
                | some sb => do
                    let (sb, cii, t) ← removeIndex sb cii t up
                    sb.markNon prev
                    let sb ← putFreed sb s.block
                    popNodes done up t { st with sb := sb, cii := cii }

/-- The merge of a leaf with the one before it; `s` is the node above. -/
def mergeLeaf (ops : LeafOps L) (st : ChopState L) (leaf : Nat) (s : PathLevel)
    (up : List PathLevel) : Except TuxError (ChopState L × PathLevel) := do
  let keep := { st with leafprev := some leaf }
  match st.leafprev with
  | none => return (keep, s)
  | some leafprev =>
      match ← tryLeafMerge ops st.sb leafprev leaf with
      | none => return (keep, s)
      | some sb =>
          let (sb, cii, s) ← removeIndex sb st.cii s up
          sb.markNon leafprev
          let sb ← putFreed sb leaf
          return ({ st with sb := sb, cii := cii }, s)

/-- The extents that `leaf_chop` frees: deferred, and logged. -/
def freeSegments (sb : BtreeSb L) (segs : List BlockSegment) : BtreeSb L :=
  let free (vol : VolSb) (seg : BlockSegment) : VolSb :=
    (vol.deferDefree seg).logRecord (.bfree seg.block seg.count)
  { sb with toVolSb := segs.foldl free sb.toVolSb }

/-- `leaf_chop` of the leaf at `block`. -/
def chopLeaf (ops : LeafOps L) (sb : BtreeSb L) (block start len : Nat) :
    Except TuxError (BtreeSb L) := do
  match ← ops.leafChop start len (sb.leaves block) with
  | none => return sb
  | some (leaf, segs) =>
      let sb := freeSegments (sb.setLeaf block leaf) segs
      sb.markNon block
      return sb

/-- The walk over the leaves, of at most `fuel` turns. -/
def chopLeaves (ops : LeafOps L) (limit : Nat) :
    Nat → ChopState L → Root → Cursor → Nat → Nat → Except TuxError (ChopState L × Root)
  | 0, _, _, _, _, _ => .error .fuel
  | fuel + 1, st, root, cursor, start, len => do
      let (sb, root, cursor) ← cursorRedirect st.sb root cursor
      -- adjust start and len for this leaf
      let thisKey ← cursorThisKey sb cursor.path
      let len := if start < thisKey ∧ limit < tuxkeyLimit then len - (thisKey - start) else len
      let start := if start < thisKey then thisKey else start
      let sb ← chopLeaf ops sb cursor.leaf start len
      match cursor.path with
      | [] => .error .bounds
      | s :: up =>
          let (st, s) ← mergeLeaf ops { st with sb := sb } cursor.leaf s up
          let done := limit ≤ cursorNextKey st.sb (s :: up)
          let (st, rest) ← popNodes done up s st
          match rest with
          | none => return (st, root)
          | some (s, up) =>
              let cursor ← advanceToLeaf st.sb root (root.depth - 1 - up.length) s up
              chopLeaves ops limit fuel st root cursor start len

/-- The block of a buffer, where there is one. -/
def buffer : Option Nat → Except TuxError Nat
  | none => .error .bounds
  | some block => .ok block

/-- The loop at `chop_root`. -/
def chopRoot : Nat → BtreeSb L → (Nat → Option Nat) → Root → Except TuxError (BtreeSb L × Root)
  | 0, sb, _, root => .ok (sb, root)
  | depth + 1, sb, prev, root => do
      if root.depth ≤ 1 then return (sb, root)
      else
        let top ← buffer (prev 0)
        if (sb.bnodes top).length ≠ 1 then return (sb, root)
        else
          let block ← buffer (prev 1)
          let root := { block := block, depth := root.depth - 1 }
          let sb := freeRedirected sb top (.bnodeFree top)
          let sb ← putFreed sb top
          chopRoot depth sb (fun level => prev (level + 1)) root

/-- `btree_chop`, with the turns of its walk bounded by `fuel`. -/
def btreeChop (ops : LeafOps L) (fuel : Nat) (sb : BtreeSb L) (root : Root) (start len : Nat) :
    Except TuxError (BtreeSb L × Root) := do
  if ¬root.HasRoot then return (sb, root)
  else
    -- chop all the range if len >= TUXKEY_LIMIT
    let limit := if tuxkeyLimit ≤ len then tuxkeyLimit else (start + len) % 2 ^ 64
    let cursor ← btreeProbe sb root start
    let (st, root) ← chopLeaves ops limit fuel
      { sb := sb, prev := fun _ => none, cii := fun _ => { start := 0, count := 0 }
        leafprev := none } root cursor start len
    chopRoot root.depth st.sb st.prev root

/-! ## Separators -/

/-- What `adjust_parent_sep` does: the key of the entry `g` is `newsep` now, and so is the
key of every entry above whose node starts with it. -/
structure Adjusted (marks : Nat → Option Nat) (sb : BtreeSb L) (root : Root)
    (up : List PathLevel) (P : List IndexEntry) (g : IndexEntry) (Q : List IndexEntry)
    (sb' : BtreeSb L) (recs : List LogRecord) : Prop extends Edited sb sb' recs where
  trail : Trail sb'.bnodes root.entry marks up P g Q
  nodes : NodesOk sb.entriesPerNode sb'.bnodes root.entry up.length
  below : blocksBelow sb'.bnodes root.entry up.length =
    blocksBelow sb.bnodes root.entry up.length
  frame : ∀ b, b ∉ blocksBelow sb.bnodes root.entry up.length → sb'.bnodes b = sb.bnodes b
  simulates : ∀ pend T, (∀ s ∈ up, T s.block ∧ sb.state s.block = .unify ∧ PendingBefore pend s) →
    Simulates sb pend T recs sb' pend

theorem Adjusted.refl {marks : Nat → Option Nat} {sb : BtreeSb L} {root : Root}
    {up : List PathLevel} {P Q : List IndexEntry} {g : IndexEntry}
    (htrail : Trail sb.bnodes root.entry marks up P g Q)
    (hok : NodesOk sb.entriesPerNode sb.bnodes root.entry up.length) :
    Adjusted marks sb root up P g Q sb [] :=
  ⟨.refl sb, htrail, hok, rfl, fun _ _ => rfl,
    fun _ _ _ => Simulates.of_same rfl (fun _ _ => Iff.rfl) (by simp)⟩

/-- The entry of a path that is not the first of its level gets a greater key, as long as
that stays below the next one. -/
theorem adjustParentSep_spec {marks : Nat → Option Nat} {sb : BtreeSb L} {root : Root}
    {up : List PathLevel} {P Q : List IndexEntry} {g : IndexEntry} {newsep : Nat}
    (htrail : Trail sb.bnodes root.entry marks up P g Q)
    (hdistinct : Distinct sb.bnodes root.entry up.length)
    (hok : NodesOk sb.entriesPerNode sb.bnodes root.entry up.length)
    (hsorted : Sorted (P ++ g :: Q)) (hP : P ≠ []) (hlt : g.key < newsep)
    (hnext : ∀ q ∈ Q, newsep < q.key) (hdirty : ∀ s ∈ up, sb.state s.block ≠ .clean) :
    ∃ sb' recs, adjustParentSep sb up newsep = .ok sb' ∧
      Adjusted marks sb root up P ⟨newsep, g.block⟩ Q sb' recs := by
  induction up generalizing sb P g Q with
  | nil => exact absurd htrail.1 hP
  | cons s up ih =>
      have hsortedup : Sorted (level sb.bnodes root.entry up.length) :=
        sorted_level (htrail.located.level ▸ hsorted) hok (Nat.le_succ _)
      obtain ⟨P', f, Q', A, C, hup, hblock, hnode, hnext', rfl, rfl, hends, hfirst⟩ := htrail
      rw [hup.located.level] at hsortedup
      have hokup : NodesOk sb.entriesPerNode sb.bnodes root.entry up.length := fun m hm =>
        hok m (Nat.lt_succ_of_lt hm)
      have hrow : ∀ x ∈ P' ++ f :: Q', NodeOk sb.entriesPerNode sb.bnodes x := fun x hx =>
        hok up.length (Nat.lt_succ_self _) x (hup.located.level ▸ hx)
      obtain ⟨habove, hbeforef, hafterf⟩ := hup.located.fresh hdistinct.pred
      have hpos : 0 < g.key := by
        obtain ⟨p, hp⟩ := List.exists_mem_of_ne_nil _ hP
        exact Nat.zero_lt_of_lt (hsorted.before p hp)
      -- the node with the new key
      let r : LogRecord := .bnodeAdjust f.block g.key newsep
      let sb₁ : BtreeSb L := (sb.withLog r).setBnode f.block (A ++ ⟨newsep, g.block⟩ :: C)
      have hedited : Edited sb sb₁ [r] := ⟨rfl, rfl, rfl, rfl, rfl⟩
      have hother : ∀ b, b ≠ f.block → sb₁.bnodes b = sb.bnodes b := fun b hb =>
        Function.update_of_ne hb _ _
      have hself : sb₁.bnodes f.block = A ++ ⟨newsep, g.block⟩ :: C := Function.update_self _ _ _
      have hsim : ∀ pend T,
          (∀ t ∈ s :: up, T t.block ∧ sb.state t.block = .unify ∧ PendingBefore pend t) →
          Simulates sb pend T [r] sb₁ pend := fun pend T hpath => by
        obtain ⟨hT, hunify, hbefore⟩ := hpath s (by simp)
        rw [hblock] at hT hunify
        rw [PendingBefore, hblock, hnext', Nat.add_sub_cancel] at hbefore
        exact simulates_adjust hT hunify hnode hbefore hlt fun c hc => hnext c (by simp [hc])
      have hstep : adjustParentSep sb (s :: up) newsep =
          if A.length ≠ 0 then .ok sb₁ else adjustParentSep sb₁ up newsep := by
        have hdirtyf : sb₁.toVolSb.markNon f.block = .ok () :=
          tuxAssert_of (hblock ▸ hdirty s (by simp))
        rw [adjustParentSep, hblock, hnode, hnext', entryBefore_append]
        simp only [bind, Except.bind, tuxAssert_of hpos, tuxAssert_of hlt, Nat.add_sub_cancel,
          bnodeSetKey_append]
        rw [show ((sb.withLog r).setBnode f.block (A ++ ⟨newsep, g.block⟩ :: C)).toVolSb.markNon
          f.block = .ok () from hdirtyf]
        rfl
      have hlevels₁ : blocksBelow sb₁.bnodes root.entry up.length =
          blocksBelow sb.bnodes root.entry up.length :=
        blocksBelow_congr (n := up.length)
          (fun b hb => hother b fun hbf : b = f.block => habove (hbf ▸ hb)) (Nat.le_succ _)
      have htrail₁ : Trail sb₁.bnodes root.entry marks up P' f Q' :=
        hup.congr (fun b hb => hother b fun hbf : b = f.block => habove (hbf ▸ hb)) fun _ _ => rfl
      have hok₁ : NodesOk sb₁.entriesPerNode sb₁.bnodes root.entry up.length := fun m hm x hx => by
        rw [level_congr (fun b hb => hother b fun hbf : b = f.block => habove (hbf ▸ hb))
          (Nat.le_of_lt hm)] at hx
        exact (hokup m hm x hx).congr (hother _ fun hbf => habove
          (hbf ▸ mem_blocksBelow_of_mem_level hm hx))
      -- whatever happens to the entry above, this level is as it should be
      have hfinish : ∀ sb₂ recs f', Adjusted marks sb₁ root up P' f' Q' sb₂ recs →
          f'.block = f.block →
          (A ++ (⟨newsep, g.block⟩ : IndexEntry) :: C).head?.map Entry.key = some f'.key →
          Adjusted marks sb root (s :: up) (descend sb.bnodes P' ++ A) ⟨newsep, g.block⟩
            (C ++ descend sb.bnodes Q') sb₂ ([r] ++ recs) := by
        intro sb₂ recs f' ha hf' hhead
        have hnode₂ : sb₂.bnodes f'.block = A ++ ⟨newsep, g.block⟩ :: C := by
          rw [hf', ha.frame _ (hlevels₁ ▸ habove), hself]
        have hbeside : ∀ x ∈ P' ++ Q', NodeOk sb.entriesPerNode sb.bnodes x ∧
            sb₂.bnodes x.block = sb.bnodes x.block := by
          intro x hx
          refine ⟨hrow x (mem_append_cons_of_mem hx), (ha.frame _ ?_).trans (hother _ fun hxf => ?_)⟩
          · rw [hlevels₁]
            intro hmem
            refine (List.nodup_append.mp hdistinct.pred).2.2 _ hmem _ (List.mem_map_of_mem ?_) rfl
            exact hup.located.level ▸ mem_append_cons_of_mem hx
          · rcases List.mem_append.mp hx with hx | hx
            · exact hbeforef (hxf ▸ List.mem_map_of_mem hx)
            · exact hafterf (hxf ▸ List.mem_map_of_mem hx)
        have hbelow₂ : blocksBelow sb₂.bnodes root.entry up.length =
            blocksBelow sb.bnodes root.entry up.length := ha.below.trans hlevels₁
        refine ⟨hedited.trans ha.toEdited, ?_, ?_, ?_, fun b hb => ?_, fun pend T hpath => ?_⟩
        · exact ha.trail.down (hblock.trans hf'.symm) hnode₂ hnext' (fun x hx => (hbeside x hx).2)
            hends hfirst
        · refine NodesOk.down ha.nodes ha.trail.located.level hbeside
            ⟨hnode₂ ▸ hhead, hnode₂ ▸ ?_⟩
          have hlen := (hrow f (by simp)).length_le
          rw [hnode] at hlen
          simpa using hlen
        · rw [List.length_cons, blocksBelow, blocksBelow, hbelow₂, ha.trail.located.level,
            hup.located.level, List.map_append, List.map_append, List.map_cons, List.map_cons, hf']
        · rw [List.length_cons, blocksBelow, List.mem_append, not_or, hup.located.level] at hb
          refine (ha.frame b (hlevels₁ ▸ hb.1)).trans (hother b fun hbf : b = f.block => hb.2 ?_)
          rw [hbf]
          exact List.mem_map_of_mem (by simp)
        · refine (hsim pend T hpath).trans (ha.simulates pend _ fun t ht => ?_) rfl
          obtain ⟨hT, hunify, hbefore⟩ := hpath t (List.mem_cons_of_mem s ht)
          exact ⟨.of_mem hT, hunify, hbefore⟩
      cases A with
      | cons a A =>
          refine ⟨sb₁, [r] ++ [], by rw [hstep, if_pos (by simp)], ?_⟩
          refine hfinish sb₁ [] f (.refl htrail₁ hok₁) rfl ?_
          have hhead := (hrow f (by simp)).head
          rwa [hnode] at hhead
      | nil =>
          have hkey : g.key = f.key := by
            have hhead := (hrow f (by simp)).head
            rw [hnode] at hhead
            simpa using hhead
          have hP' : P' ≠ [] := fun hnil => hP (by rw [hnil]; rfl)
          have hnextf : ∀ q ∈ Q', newsep < q.key := fun q hq => by
            obtain ⟨a, as, hqnode, hqkey⟩ := (hrow q (by simp [hq])).cons
            rw [← hqkey]
            refine hnext a (List.mem_append_right _ (List.mem_flatMap.mpr ⟨q, hq, ?_⟩))
            rw [hqnode]
            exact List.mem_cons_self
          obtain ⟨sb₂, recs, hadjust, ha⟩ := ih htrail₁
            (by rw [Distinct, blocksBelow, hlevels₁, htrail₁.located.level, ← hup.located.level]
                exact hdistinct.pred)
            hok₁ hsortedup hP' (hkey ▸ hlt) hnextf fun t ht => hdirty t (List.mem_cons_of_mem s ht)
          refine ⟨sb₂, [r] ++ recs, ?_, hfinish sb₂ recs _ ha rfl rfl⟩
          rw [hstep, if_neg (by simp)]
          exact hadjust

end Tux3
