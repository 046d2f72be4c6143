/-
  Btree/Redirect.lean --- `cursor_redirect`: copy the clean buffers of a path.

  From the root down, every node of the path that is not dirty for the unify, and the
  leaf if it is clean, is copied to a new block, and the entry above it is pointed
  there.  The path keeps its place in the tree, with the same entries before and after it
  on every level (`redirectNodes_spec`).
-/
import Tux3.Btree.Tree
import Tux3.Btree.Alloc

set_option autoImplicit false

namespace Tux3

open IndexForest
open Outcome (Ensures bind_eq_ok)

variable {L : Type}

/-! ## Code -/

/-- The new block of a child goes into the entry above it, or into the root. -/
def redirectParent (sb : BtreeSb L) (root : Root) (up : List PathLevel)
    (oldblock newblock : Nat) : Except TuxError (BtreeSb L × Root) :=
  match up with
  | [] => do
      tuxAssert (oldblock = root.block)
      return (sb, { root with block := newblock })
  | s :: _ => do
      let parent := sb.bnodes s.block
      let entry ← entryBefore parent s.next
      let sb := sb.setBnode s.block (bnodeSetBlock parent (s.next - 1) entry newblock)
      return (sb.withLog (.bnodeUpdate s.block newblock entry.key), root)

/-- One turn of the loop of `cursor_redirect` at a bnode, with `up` above it. -/
def redirectBnode (sb : BtreeSb L) (root : Root) (up : List PathLevel) (oldblock : Nat) :
    Except TuxError (BtreeSb L × Root × Nat) := do
  -- bnode_need_redirect
  if sb.state oldblock = .unify then return (sb, root, oldblock)
  else
    let (sb, newblock) ← newBlock sb
    let sb := sb.setBnode newblock (sb.bnodes oldblock)
    let sb := { sb with toVolSb := sb.toVolSb.markAtomic .unify newblock }
    let sb := sb.withLog (.bnodeRedirect oldblock newblock)
    let sb := { sb with toVolSb := sb.toVolSb.deferDeunify ⟨oldblock, 1⟩ }
    let (sb, root) ← redirectParent sb root up oldblock newblock
    return (sb, root, newblock)

/-- The last turn of the loop of `cursor_redirect`, at the leaf. -/
def redirectLeaf (sb : BtreeSb L) (root : Root) (up : List PathLevel) (oldblock : Nat) :
    Except TuxError (BtreeSb L × Root × Nat) := do
  -- leaf_need_redirect
  if sb.state oldblock ≠ .clean then return (sb, root, oldblock)
  else
    let (sb, newblock) ← newBlock sb
    let sb := sb.setLeaf newblock (sb.leaves oldblock)
    let sb := { sb with toVolSb := sb.toVolSb.markAtomic .delta newblock }
    let sb := sb.withLog (.leafRedirect oldblock newblock)
    let sb := { sb with toVolSb := sb.toVolSb.deferDefree ⟨oldblock, 1⟩ }
    let (sb, root) ← redirectParent sb root up oldblock newblock
    return (sb, root, newblock)

/-- The turns of the loop of `cursor_redirect` at the bnodes of a path. -/
def redirectNodes (sb : BtreeSb L) (root : Root) :
    List PathLevel → Except TuxError (BtreeSb L × Root × List PathLevel)
  | [] => .ok (sb, root, [])
  | s :: up => do
      let (sb, root, up) ← redirectNodes sb root up
      let (sb, root, block) ← redirectBnode sb root up s.block
      return (sb, root, { s with block := block } :: up)

/-- `cursor_redirect`. -/
def cursorRedirect (sb : BtreeSb L) (root : Root) (cursor : Cursor) :
    Except TuxError (BtreeSb L × Root × Cursor) := do
  let (sb, root, path) ← redirectNodes sb root cursor.path
  let (sb, root, leaf) ← redirectLeaf sb root path cursor.leaf
  cursorCheck sb root path leaf
  return (sb, root, { leaf := leaf, path := path })

/-! ## The entry above -/

/-- The pending entries of a node on a path are before the entry of the path. -/
def PendingBefore (pend : Nat → Pending) (s : PathLevel) : Prop :=
  (pend s.block).run = [] ∨ (pend s.block).pos ≤ s.next - 1

/-- What pointing the entry of `f` to the block `newblock` changes. -/
structure Repointed (sb : BtreeSb L) (root : Root) (up : List PathLevel)
    (P : List IndexEntry) (f : IndexEntry) (Q : List IndexEntry) (newblock : Nat)
    (sb' : BtreeSb L) (root' : Root) (recs : List LogRecord) : Prop
    extends Edited sb sb' recs where
  trail : ∀ marks, Trail sb.bnodes root.entry marks up P f Q →
    Trail sb'.bnodes root'.entry marks up P ⟨f.key, newblock⟩ Q
  nodes : NodesOk sb.entriesPerNode sb.bnodes root.entry up.length →
    NodesOk sb.entriesPerNode sb'.bnodes root'.entry up.length
  below : blocksBelow sb'.bnodes root'.entry up.length =
    blocksBelow sb.bnodes root.entry up.length
  depth : root'.depth = root.depth
  frame : ∀ b, b ∉ blocksBelow sb.bnodes root.entry up.length → sb'.bnodes b = sb.bnodes b
  simulates : ∀ pend P, (∀ s ∈ up, P s.block ∧ sb.state s.block = .unify ∧ PendingBefore pend s) →
    Simulates sb pend P recs sb' pend

theorem redirectParent_spec {sb : BtreeSb L} {root : Root} {up : List PathLevel}
    {P Q : List IndexEntry} {f : IndexEntry} (hloc : Located sb.bnodes root.entry up P f Q)
    (hdistinct : Distinct sb.bnodes root.entry up.length) (newblock : Nat) :
    ∃ sb' root' recs, redirectParent sb root up f.block newblock = .ok (sb', root') ∧
      Repointed sb root up P f Q newblock sb' root' recs := by
  cases up with
  | nil =>
      obtain ⟨rfl, rfl, rfl⟩ := hloc
      refine ⟨sb, { root with block := newblock }, [], ?_, ?_⟩
      · rw [redirectParent, tuxAssert_of (p := root.entry.block = root.block) rfl]
        rfl
      · refine ⟨.refl sb, fun marks h => ⟨rfl, rfl, rfl, h.2.2.2⟩, ?_, rfl, rfl, fun _ _ => rfl,
          fun pend P _ => ?_⟩
        · exact fun _ m hm => absurd hm (Nat.not_lt_zero m)
        · exact Simulates.of_same rfl (fun _ _ => Iff.rfl) (by simp)
  | cons s up =>
      obtain ⟨P', g, Q', A, C, hup, hblock, hnode, hnext, rfl, rfl⟩ := hloc
      have hprev : s.next - 1 = A.length := by omega
      obtain ⟨hup', hlevels, hbelow, -, -, -⟩ := hup.edit hdistinct.pred (A ++ ⟨f.key, newblock⟩ :: C)
      have hmem : g.block ∈ blocksBelow sb.bnodes root.entry (up.length + 1) :=
        mem_blocksBelow_of_mem_level (Nat.lt_succ_self _) (by rw [hup.level]; simp)
      refine ⟨(sb.setBnode g.block (A ++ ⟨f.key, newblock⟩ :: C)).withLog
        (.bnodeUpdate g.block newblock f.key), root, [.bnodeUpdate g.block newblock f.key], ?_, ?_⟩
      · rw [redirectParent, hblock, hnode, hnext, entryBefore_append]
        simp only [bind, Except.bind, Nat.add_sub_cancel, bnodeSetBlock_append]
        rfl
      · refine ⟨⟨rfl, rfl, rfl, rfl, rfl⟩, fun marks htrail => ?_, fun hok => ?_, hbelow, rfl,
          fun b hb => ?_, fun pend P hpath => ?_⟩
        · obtain ⟨P₁, g₁, Q₁, A₁, C₁, -, hblock₁, hnode₁, hnext₁, -, -, hset⟩ :=
            htrail.setEntry hdistinct.pred
          have hg : g₁.block = g.block := hblock₁.symm.trans hblock
          have hA : A₁ = A ∧ C₁ = C := by
            rw [hg, hnode] at hnode₁
            have hlen : A.length = A₁.length := by omega
            obtain ⟨h₁, h₂⟩ := List.append_inj hnode₁ hlen
            exact ⟨h₁.symm, (List.cons_inj_right f).mp h₂.symm⟩
          obtain ⟨rfl, rfl⟩ := hA
          exact hg ▸ hset ⟨f.key, newblock⟩
        · have hrow : ∀ e ∈ P' ++ g :: Q', NodeOk sb.entriesPerNode sb.bnodes e := fun e he =>
            hok up.length (Nat.lt_succ_self _) e (hup.level ▸ he)
          have hg := hrow g (by simp)
          refine NodesOk.edit (fun m hm => hok m (Nat.lt_succ_of_lt hm)) hup hdistinct.pred
            (fun e he => hrow e (mem_append_cons_of_mem he)) ?_ ?_
          · rw [← hg.head, hnode]
            cases A <;> simp
          · have hlen := hg.length_le
            rw [hnode] at hlen
            simpa using hlen
        · exact Function.update_of_ne (fun hbg : b = g.block => hb (hbg ▸ hmem)) _ _
        · obtain ⟨hP, hunify, hbefore⟩ := hpath s (by simp)
          rw [hblock] at hP hunify
          rw [PendingBefore, hblock, hprev] at hbefore
          exact simulates_update hP hunify hnode hbefore

/-! ## One buffer -/

/-- What one turn of the loop does: the entry of `f` leads to `newblock` now. -/
structure Copied (sb : BtreeSb L) (root : Root) (up : List PathLevel)
    (P : List IndexEntry) (f : IndexEntry) (Q : List IndexEntry) (newblock : Nat)
    (sb' : BtreeSb L) (root' : Root) (recs : List LogRecord) : Prop where
  trail : ∀ marks, Trail sb.bnodes root.entry marks up P f Q →
    Trail sb'.bnodes root'.entry marks up P ⟨f.key, newblock⟩ Q
  nodes : NodesOk sb.entriesPerNode sb.bnodes root.entry up.length →
    NodesOk sb.entriesPerNode sb'.bnodes root'.entry up.length
  below : blocksBelow sb'.bnodes root'.entry up.length =
    blocksBelow sb.bnodes root.entry up.length
  depth : root'.depth = root.depth
  dirty : sb'.state newblock ≠ .clean
  grown : Grown sb sb' (recs.flatMap LogRecord.allocated)
  balance : (recs.flatMap LogRecord.redirected ++ [newblock]).Perm
    (recs.flatMap LogRecord.allocated ++ [f.block])
  freed : recs.flatMap LogRecord.freed = []
  frame : ∀ b, b ∉ blocksBelow sb.bnodes root.entry up.length →
    b ∉ recs.flatMap LogRecord.allocated → sb'.bnodes b = sb.bnodes b
  log_eq : sb'.toVolSb.log = sb.toVolSb.log ++ recs
  same_or_new : newblock = f.block ∨ newblock ∈ recs.flatMap LogRecord.allocated
  simulates : sb.FreeClean → ∀ pend P,
    (∀ s ∈ up, P s.block ∧ sb.state s.block = .unify ∧ PendingBefore pend s) →
    (recs.flatMap LogRecord.newBnodes ≠ [] → P f.block) →
    (∀ b, sb.bitmap b = false → (pend b).run = []) → Simulates sb pend P recs sb' pend

section Copy

variable {sb : BtreeSb L} {root : Root} {up : List PathLevel} {P Q : List IndexEntry}
  {f : IndexEntry}

/-- A buffer that needs no copy. -/
theorem Copied.refl (hdirty : sb.state f.block ≠ .clean) :
    Copied sb root up P f Q f.block sb root [] where
  trail := fun _ h => h
  nodes := fun h => h
  below := rfl
  depth := rfl
  dirty := hdirty
  grown := .refl sb
  balance := .refl _
  freed := rfl
  frame := fun _ _ _ => rfl
  log_eq := (List.append_nil _).symm
  same_or_new := .inl rfl
  simulates := fun _ _ _ _ _ _ => Simulates.of_same rfl (fun _ _ => Iff.rfl) (by simp)

/-- A copy in a new block, and the entry above pointed there. -/
theorem Copied.of_copy {sb₁ sb₂ : BtreeSb L} {root' : Root} {newblock : Nat}
    {r : LogRecord} {recs : List LogRecord}
    (halloc : ∀ b ∈ blocksBelow sb.bnodes root.entry (up.length + 1), sb.bitmap b = true)
    (hgrown : Grown sb sb₁ [newblock])
    (hbnodes : ∀ b, b ≠ newblock → sb₁.bnodes b = sb.bnodes b)
    (hlog : sb₁.toVolSb.log = sb.toVolSb.log ++ [r])
    (hallocated : r.allocated = [newblock]) (hredirected : r.redirected = [f.block])
    (hfreed : r.freed = [])
    (hsim : sb.FreeClean → ∀ (pend : Nat → Pending) (P : Nat → Prop),
      (r.newBnodes ≠ [] → P f.block) → (pend newblock).run = [] →
      Simulates sb pend P [r] sb₁ pend)
    (hparent : Repointed sb₁ root up P f Q newblock sb₂ root' recs) :
    Copied sb root up P f Q newblock sb₂ root' ([r] ++ recs) := by
  have hfree : sb.bitmap newblock = false := hgrown.free _ (by simp)
  have hne : ∀ b ∈ blocksBelow sb.bnodes root.entry (up.length + 1), b ≠ newblock := by
    rintro b hb rfl
    rw [halloc b hb] at hfree
    cases hfree
  have heq : ∀ b ∈ blocksBelow sb.bnodes root.entry up.length,
      sb₁.bnodes b = sb.bnodes b := fun b hb => hbnodes b (hne b (List.mem_append_left _ hb))
  have hbelow₁ : blocksBelow sb₁.bnodes root.entry up.length =
      blocksBelow sb.bnodes root.entry up.length := blocksBelow_congr heq (Nat.le_succ _)
  have hcap : sb₁.entriesPerNode = sb.entriesPerNode := hgrown.entriesPerNode_eq
  have hnew : ([r] ++ recs).flatMap LogRecord.allocated = [newblock] := by
    rw [List.flatMap_append, hparent.allocated]
    simp [hallocated]
  have hgrown₂ : Grown sb sb₂ [newblock] := by
    rw [hparent.same]
    exact ⟨hcap, hgrown.leaves_eq, hgrown.bfreed_eq, hgrown.free, hgrown.nodup,
      hgrown.bitmap_eq, hgrown.state_eq, hgrown.dirty⟩
  refine ⟨fun marks h => hparent.trail marks (h.congr heq fun _ _ => rfl), fun hok => ?_,
    hparent.below.trans hbelow₁, hparent.depth, hgrown₂.dirty _ (by simp), hnew ▸ hgrown₂, ?_, ?_,
    fun b hb hbnew => ?_, ?_, .inr (by rw [hnew]; exact List.mem_singleton_self _),
    fun hclean pend P' hpath hP hpend => ?_⟩
  · rw [← hcap]
    refine hparent.nodes fun m hm g hg => ?_
    rw [level_congr heq (by omega)] at hg
    rw [hcap]
    exact (hok m hm g hg).congr (heq _ (mem_blocksBelow_of_mem_level hm hg))
  · rw [hnew, List.flatMap_append, hparent.redirected]
    simpa [hredirected] using List.Perm.swap newblock f.block []
  · rw [List.flatMap_append, hparent.freed]
    simp [hfreed]
  · rw [hnew] at hbnew
    rw [hparent.frame b (hbelow₁ ▸ hb), hbnodes b (by simpa using hbnew)]
  · rw [hparent.log_eq, hlog, List.append_assoc]
  · have hPr : r.newBnodes ≠ [] → P' f.block := fun hne => hP (by simp [hne])
    refine (hsim hclean pend P' hPr (hpend _ hfree)).trans
      (hparent.simulates pend _ fun s hs => ?_) hcap
    obtain ⟨hPs, hunify, hbefore⟩ := hpath s hs
    exact ⟨.of_mem hPs, hgrown.unify_of_unify hclean hunify, hbefore⟩

/-- A bnode that is not dirty for the unify gets a new block. -/
theorem redirectBnode_spec (hloc : Located sb.bnodes root.entry up P f Q)
    (hdistinct : Distinct sb.bnodes root.entry up.length)
    (halloc : ∀ b ∈ blocksBelow sb.bnodes root.entry (up.length + 1), sb.bitmap b = true) :
    Ensures (· = .enospc) (redirectBnode sb root up f.block) fun (sb', root', newblock) =>
      ∃ recs, Copied sb root up P f Q newblock sb' root' recs ∧
        recs.flatMap LogRecord.allocated = recs.flatMap LogRecord.newBnodes ∧
        sb'.bnodes newblock = sb.bnodes f.block ∧
        (sb.FreeClean → sb'.state newblock = .unify) := by
  rw [redirectBnode]
  split
  case isTrue hunify =>
    exact ⟨[], Copied.refl (by rw [hunify]; decide), rfl, rfl, fun _ => hunify⟩
  case isFalse hneed =>
    refine (newBlock_spec sb (show BufState.unify ≠ .clean by decide)).bind ?_
    rintro ⟨sb₀, newblock⟩ ⟨hgrown, hbnodes, -, hlog, hunify⟩
    let sb₁ : BtreeSb L := { sb₀ with
      bnodes := Function.update sb₀.bnodes newblock (sb₀.bnodes f.block)
      toVolSb := ((sb₀.toVolSb.markAtomic .unify newblock).logRecord
        (.bnodeRedirect f.block newblock)).deferDeunify ⟨f.block, 1⟩ }
    have hgrown₁ : Grown sb sb₁ [newblock] := ((hgrown.setBnode _ _).withLog _).defer _ _
    have hbnodes₁ : sb₁.bnodes = Function.update sb.bnodes newblock (sb.bnodes f.block) := by
      show Function.update sb₀.bnodes newblock (sb₀.bnodes f.block) = _
      rw [hbnodes]
    have hlog₁ : sb₁.toVolSb.log = sb.toVolSb.log ++ [.bnodeRedirect f.block newblock] := by
      show (sb₀.toVolSb.markAtomic .unify newblock).log ++ _ = _
      rw [VolSb.markAtomic_log, hlog]
    have hfree : sb.bitmap newblock = false := hgrown.free _ (by simp)
    have hne : ∀ b ∈ blocksBelow sb.bnodes root.entry (up.length + 1), b ≠ newblock := by
      rintro b hb rfl
      rw [halloc b hb] at hfree
      cases hfree
    have heq : ∀ b ∈ blocksBelow sb.bnodes root.entry up.length,
        sb₁.bnodes b = sb.bnodes b := fun b hb => by
      rw [hbnodes₁, Function.update_of_ne (hne b (List.mem_append_left _ hb))]
    have hdistinct₁ : Distinct sb₁.bnodes root.entry up.length := by
      rw [Distinct, blocksBelow_congr heq (Nat.le_refl _)]
      exact hdistinct
    obtain ⟨sb₂, root', recs, hok, hparent⟩ :=
      redirectParent_spec (hloc.congr heq) hdistinct₁ newblock
    refine Ensures.bind_ok hok ⟨[.bnodeRedirect f.block newblock] ++ recs, ?_, ?_, ?_, ?_⟩
    · refine Copied.of_copy halloc hgrown₁ (fun b hb => ?_) hlog₁ rfl rfl rfl ?_ hparent
      · rw [hbnodes₁, Function.update_of_ne hb]
      · intro _ pend P' hP hrun
        exact simulates_redirect (hP (by simp [LogRecord.newBnodes])) hneed hbnodes₁
          (fun b hb => hgrown₁.state_eq b (by simpa using hb)) (fun _ _ => rfl) hrun
    · rw [List.flatMap_append, List.flatMap_append, hparent.allocated,
        newBnodes_nil_of_allocated_nil hparent.allocated]
      rfl
    · have hnot : newblock ∉ blocksBelow sb₁.bnodes root.entry up.length := by
        rw [blocksBelow_congr heq (Nat.le_succ _)]
        exact fun hmem => hne _ (List.mem_append_left _ hmem) rfl
      rw [hparent.frame _ hnot, hbnodes₁, Function.update_self]
    · intro hclean
      rw [hparent.same]
      exact hunify hclean

/-- A clean leaf gets a new block. -/
theorem redirectLeaf_spec (hloc : Located sb.bnodes root.entry up P f Q)
    (hdistinct : Distinct sb.bnodes root.entry up.length)
    (halloc : ∀ b ∈ blocksBelow sb.bnodes root.entry (up.length + 1), sb.bitmap b = true) :
    Ensures (· = .enospc) (redirectLeaf sb root up f.block) fun (sb', root', newblock) =>
      ∃ recs, Copied sb root up P f Q newblock sb' root' recs ∧
        recs.flatMap LogRecord.newBnodes = [] ∧ sb'.leaves newblock = sb.leaves f.block := by
  rw [redirectLeaf]
  split
  case isTrue hdirty => exact ⟨[], Copied.refl hdirty, rfl, rfl⟩
  case isFalse hneed =>
    refine (newBlock_spec sb (show BufState.delta ≠ .clean by decide)).bind ?_
    rintro ⟨sb₀, newblock⟩ ⟨hgrown, hbnodes, hleaves, hlog, hdelta⟩
    let sb₁ : BtreeSb L := { sb₀ with
      leaves := Function.update sb₀.leaves newblock (sb₀.leaves f.block)
      toVolSb := ((sb₀.toVolSb.markAtomic .delta newblock).logRecord
        (.leafRedirect f.block newblock)).deferDefree ⟨f.block, 1⟩ }
    have hgrown₁ : Grown sb sb₁ [newblock] :=
      ((hgrown.setLeaf (List.mem_singleton_self _) _).withLog _).defer _ _
    have hbnodes₁ : sb₁.bnodes = sb.bnodes := hbnodes
    have hlog₁ : sb₁.toVolSb.log = sb.toVolSb.log ++ [.leafRedirect f.block newblock] := by
      show (sb₀.toVolSb.markAtomic .delta newblock).log ++ _ = _
      rw [VolSb.markAtomic_log, hlog]
    have hfree : sb.bitmap newblock = false := hgrown.free _ (by simp)
    obtain ⟨sb₂, root', recs, hok, hparent⟩ :=
      redirectParent_spec (hbnodes₁ ▸ hloc) (hbnodes₁ ▸ hdistinct) newblock
    refine Ensures.bind_ok hok ⟨[.leafRedirect f.block newblock] ++ recs, ?_, ?_, ?_⟩
    · refine Copied.of_copy halloc hgrown₁ (fun b _ => by rw [hbnodes₁]) hlog₁ rfl rfl rfl ?_
        hparent
      intro hclean pend P' _ _
      refine Simulates.of_same hbnodes₁ (fun b _ => ?_) (by simp [stage1Handles, LogRecord.code])
      by_cases hb : b = newblock
      · subst hb
        have hnew : sb₁.state b = .delta := hdelta hclean
        rw [hnew, hclean b hfree]
        simp
      · rw [hgrown₁.state_eq b (by simpa using hb)]
    · rw [List.flatMap_append, newBnodes_nil_of_allocated_nil hparent.allocated]
      rfl
    · rw [hparent.same]
      show Function.update sb₀.leaves newblock (sb₀.leaves f.block) newblock = _
      rw [Function.update_self, hleaves]

end Copy

/-! ## All buffers of a path -/

/-- The same place in a node, or in a new copy of it. -/
def SameStep (new : List Nat) (s' s : PathLevel) : Prop :=
  s'.next = s.next ∧ (s'.block = s.block ∨ s'.block ∈ new)

/-- What the loop of `cursor_redirect` does to the bnodes of a path: the path goes through
the same entry. -/
structure Redirected (marks : Nat → Option Nat) (sb : BtreeSb L) (root : Root)
    (path : List PathLevel) (pre : List IndexEntry) (e : IndexEntry) (post : List IndexEntry)
    (sb' : BtreeSb L) (root' : Root) (path' : List PathLevel) (recs : List LogRecord) :
    Prop where
  trail : Trail sb'.bnodes root'.entry marks path' pre e post
  nodes : NodesOk sb.entriesPerNode sb.bnodes root.entry path.length →
    NodesOk sb.entriesPerNode sb'.bnodes root'.entry path'.length
  length : path'.length = path.length
  depth : root'.depth = root.depth
  dirty : ∀ s ∈ path', sb'.state s.block ≠ .clean
  unify : sb.FreeClean → ∀ s ∈ path', sb'.state s.block = .unify
  grown : Grown sb sb' (recs.flatMap LogRecord.allocated)
  balance : (recs.flatMap LogRecord.redirected ++
      blocksBelow sb'.bnodes root'.entry path'.length).Perm
    (recs.flatMap LogRecord.allocated ++ blocksBelow sb.bnodes root.entry path.length)
  freed : recs.flatMap LogRecord.freed = []
  bnodes : recs.flatMap LogRecord.allocated = recs.flatMap LogRecord.newBnodes
  frame : ∀ b, b ∉ blocksBelow sb.bnodes root.entry path.length →
    b ∉ recs.flatMap LogRecord.allocated → sb'.bnodes b = sb.bnodes b
  log_eq : sb'.toVolSb.log = sb.toVolSb.log ++ recs
  steps : List.Forall₂ (SameStep (recs.flatMap LogRecord.newBnodes)) path' path
  simulates : sb.FreeClean → ∀ pend P, (∀ s ∈ path, P s.block ∧ PendingBefore pend s) →
    (∀ b, sb.bitmap b = false → (pend b).run = []) → Simulates sb pend P recs sb' pend

theorem SameStep.mono {new new' : List Nat} {path' path : List PathLevel}
    (h : List.Forall₂ (SameStep new) path' path) (hsub : ∀ b ∈ new, b ∈ new') :
    List.Forall₂ (SameStep new') path' path :=
  h.imp fun _ _ hs => ⟨hs.1, hs.2.imp_right (hsub _)⟩

/-- The copies of tracked nodes are tracked, and nothing is pending in them. -/
theorem SameStep.tracked {recs : List LogRecord} {path' path : List PathLevel}
    {pend : Nat → Pending} {P : Nat → Prop}
    (h : List.Forall₂ (SameStep (recs.flatMap LogRecord.newBnodes)) path' path)
    (hpath : ∀ s ∈ path, P s.block ∧ PendingBefore pend s)
    (hnew : ∀ b ∈ recs.flatMap LogRecord.newBnodes, (pend b).run = []) :
    ∀ s ∈ path', Tracked P recs s.block ∧ PendingBefore pend s := by
  induction h with
  | nil => simp
  | @cons s' s path' path hs _ ih =>
      obtain ⟨hP, hbefore⟩ := hpath s (by simp)
      have hrest := ih fun t ht => hpath t (List.mem_cons_of_mem s ht)
      refine List.forall_mem_cons.mpr ⟨?_, hrest⟩
      rcases hs.2 with hsame | hmem
      · refine ⟨.inl (hsame ▸ hP), ?_⟩
        rw [PendingBefore, hsame, hs.1]
        exact hbefore
      · exact ⟨.inr hmem, .inl (hnew _ hmem)⟩

/-- Blocks that are replaced by new ones stay distinct. -/
theorem nodup_of_balance {old new below below' : List Nat}
    (hperm : (old ++ below').Perm (new ++ below)) (hnew : new.Nodup) (hbelow : below.Nodup)
    (hdisj : ∀ b ∈ new, b ∉ below) : below'.Nodup := by
  refine (List.nodup_append.mp (hperm.nodup_iff.mpr ?_)).2.1
  exact List.nodup_append.mpr ⟨hnew, hbelow, fun a ha b hb hab => hdisj a ha (hab ▸ hb)⟩

theorem mem_of_balance {old new below below' : List Nat}
    (hperm : (old ++ below').Perm (new ++ below)) {b : Nat} (hb : b ∈ below') :
    b ∈ new ∨ b ∈ below :=
  List.mem_append.mp (hperm.mem_iff.mp (List.mem_append_right _ hb))

theorem redirectNodes_spec {marks : Nat → Option Nat} {sb : BtreeSb L} {root : Root}
    {path : List PathLevel} {pre post : List IndexEntry} {e : IndexEntry}
    (htrail : Trail sb.bnodes root.entry marks path pre e post)
    (hdistinct : Distinct sb.bnodes root.entry path.length)
    (halloc : ∀ b ∈ blocksBelow sb.bnodes root.entry path.length, sb.bitmap b = true) :
    Ensures (· = .enospc) (redirectNodes sb root path) fun (sb', root', path') =>
      ∃ recs, Redirected marks sb root path pre e post sb' root' path' recs := by
  induction path generalizing pre e post with
  | nil =>
      refine ⟨[], htrail, fun h => h, rfl, rfl, by simp, by simp, .refl sb, .refl _, rfl, rfl,
        fun _ _ _ => rfl, (List.append_nil _).symm, .nil, fun _ pend P _ _ => ?_⟩
      exact Simulates.of_same rfl (fun _ _ => Iff.rfl) (by simp)
  | cons s up ih =>
      obtain ⟨P, f, Q, A, C, hup, hblock, hnode, hnext, rfl, rfl, hends, hfirst⟩ := htrail
      refine (ih hup hdistinct.pred fun b hb => halloc b (List.mem_append_left _ hb)).bind ?_
      rintro ⟨sb₁, root₁, up₁⟩ ⟨recs₁, h₁⟩
      have hloc₁ := h₁.trail.located
      -- the row of `f` is the same, and its blocks are none of the new ones
      have hrowmem : ∀ g ∈ P ++ f :: Q,
          g.block ∈ blocksBelow sb.bnodes root.entry (up.length + 1) := fun g hg =>
        mem_blocksBelow_of_mem_level (Nat.lt_succ_self _) (hup.located.level ▸ hg)
      have hnotnew : ∀ b ∈ blocksBelow sb.bnodes root.entry (up.length + 1),
          b ∉ recs₁.flatMap LogRecord.allocated := fun b hb => h₁.grown.not_new (halloc b hb)
      have hdistinct₁ : Distinct sb₁.bnodes root₁.entry up₁.length := by
        have hperm := h₁.balance.append_right ((P ++ f :: Q).map Entry.block)
        rw [List.append_assoc, List.append_assoc, ← hup.located.level] at hperm
        rw [Distinct, blocksBelow, hloc₁.level, ← hup.located.level]
        exact nodup_of_balance hperm h₁.grown.nodup hdistinct.pred
          fun b hb hmem => hnotnew b hmem hb
      have hset₁ : ∀ b ∈ blocksBelow sb.bnodes root.entry (up.length + 1), sb₁.bitmap b = true :=
        fun b hb => h₁.grown.set_of_set (halloc b hb)
      have halloc₁ : ∀ b ∈ blocksBelow sb₁.bnodes root₁.entry (up₁.length + 1),
          sb₁.bitmap b = true := by
        intro b hb
        rw [blocksBelow, hloc₁.level] at hb
        rcases List.mem_append.mp hb with hb | hb
        · rcases mem_of_balance h₁.balance hb with hb | hb
          · exact (h₁.grown.bitmap_eq b).mpr (.inr hb)
          · exact hset₁ b (List.mem_append_left _ hb)
        · obtain ⟨g, hg, rfl⟩ := List.mem_map.mp hb
          exact hset₁ _ (hrowmem g hg)
      rw [hblock]
      refine (redirectBnode_spec hloc₁ hdistinct₁ halloc₁).bind ?_
      rintro ⟨sb₂, root₂, newblock⟩ ⟨recs₂, hc, hbn, hcontent, hunify₂⟩
      have hrow : ∀ g ∈ P ++ f :: Q, sb₁.bnodes g.block = sb.bnodes g.block := by
        intro g hg
        refine h₁.frame _ (fun hmem => ?_) (hnotnew _ (hrowmem g hg))
        refine (List.nodup_append.mp hdistinct.pred).2.2 _ hmem _ (List.mem_map_of_mem ?_) rfl
        exact hup.located.level ▸ hg
      have hrow₂ : ∀ g ∈ P ++ f :: Q, sb₂.bnodes g.block = sb.bnodes g.block := by
        intro g hg
        refine (hc.frame _ (fun hmem => ?_) fun hnew => ?_).trans (hrow g hg)
        · refine (List.nodup_append.mp hdistinct₁).2.2 _ hmem _ (List.mem_map_of_mem ?_) rfl
          exact hloc₁.level ▸ hg
        · exact hc.grown.not_new (hset₁ _ (hrowmem g hg)) hnew
      have hP : descend sb₂.bnodes P = descend sb.bnodes P := descend_congr fun b hb => by
        obtain ⟨g, hg, rfl⟩ := List.mem_map.mp hb
        exact hrow₂ g (by simp [hg])
      have hQ : descend sb₂.bnodes Q = descend sb.bnodes Q := descend_congr fun b hb => by
        obtain ⟨g, hg, rfl⟩ := List.mem_map.mp hb
        exact hrow₂ g (by simp [hg])
      have hnew : sb₂.bnodes newblock = A ++ e :: C := by
        rw [hcontent, hrow f (by simp), hnode]
      have htrail₂ := hc.trail marks h₁.trail
      have hgrown : Grown sb sb₂ ((recs₁ ++ recs₂).flatMap LogRecord.allocated) := by
        rw [List.flatMap_append]
        exact h₁.grown.trans hc.grown
      refine ⟨recs₁ ++ recs₂, ?_, fun hok => ?_, by simp [h₁.length], hc.depth.trans h₁.depth,
        ?_, fun hclean => ?_, hgrown, ?_, ?_, ?_, fun b hb hbnew => ?_, ?_, ?_,
        fun hclean pend P' hpath hpend => ?_⟩
      · refine ⟨P, ⟨f.key, newblock⟩, Q, A, C, htrail₂, rfl, hnew, hnext, by rw [hP], by rw [hQ], ?_,
          ?_⟩
        · exact h₁.length ▸ hends
        · exact h₁.length ▸ hfirst
      · -- the nodes above are those of the parents; the row of `f` keeps its nodes
        have hok₁ := h₁.nodes fun m hm => hok m (Nat.lt_succ_of_lt hm)
        rw [← h₁.grown.entriesPerNode_eq] at hok₁
        have hok₂ := hc.nodes hok₁
        rw [h₁.grown.entriesPerNode_eq] at hok₂
        have hrowok : ∀ g ∈ P ++ f :: Q, NodeOk sb.entriesPerNode sb.bnodes g := fun g hg =>
          hok up.length (Nat.lt_succ_self _) g (hup.located.level ▸ hg)
        intro m hm g hg
        rcases Nat.lt_succ_iff_lt_or_eq.mp hm with hlt | rfl
        · exact hok₂ m hlt g hg
        · rw [htrail₂.located.level] at hg
          rcases List.mem_append.mp hg with hg | hg
          · exact (hrowok g (by simp [hg])).congr (hrow₂ g (by simp [hg]))
          · rcases List.mem_cons.mp hg with rfl | hg
            · have hf := hrowok f (by simp)
              have hsame : sb₂.bnodes newblock = sb.bnodes f.block := hnew.trans hnode.symm
              exact ⟨(congrArg (fun node : Bnode => node.head?.map Entry.key) hsame).trans hf.head,
                (congrArg List.length hsame).trans_le hf.length_le⟩
            · exact (hrowok g (by simp [hg])).congr (hrow₂ g (by simp [hg]))
      · intro s' hs'
        rcases List.mem_cons.mp hs' with rfl | hs'
        · exact hc.dirty
        · exact hc.grown.dirty_of_dirty (h₁.dirty s' hs')
      · intro s' hs'
        rcases List.mem_cons.mp hs' with rfl | hs'
        · exact hunify₂ (h₁.grown.freeClean hclean)
        · exact hc.grown.unify_of_unify (h₁.grown.freeClean hclean) (h₁.unify hclean s' hs')
      · have hrows : (level sb.bnodes root.entry up.length).map Entry.block =
            P.map Entry.block ++ f.block :: Q.map Entry.block := by
          rw [hup.located.level, List.map_append, List.map_cons]
        have hrows₂ : (level sb₂.bnodes root₂.entry up₁.length).map Entry.block =
            P.map Entry.block ++ newblock :: Q.map Entry.block := by
          rw [htrail₂.located.level, List.map_append, List.map_cons]
        rw [List.length_cons, List.length_cons, blocksBelow, blocksBelow, hrows, hrows₂, hc.below]
        rw [List.perm_iff_count]
        intro b
        have hb₁ := h₁.balance.count_eq b
        have hb₂ := hc.balance.count_eq b
        simp only [List.flatMap_append, List.count_append, List.count_cons, List.count_nil]
          at hb₁ hb₂ ⊢
        omega
      · rw [List.flatMap_append, h₁.freed, hc.freed]
        rfl
      · rw [List.flatMap_append, List.flatMap_append, h₁.bnodes, hbn]
      · rw [List.flatMap_append, List.mem_append, not_or] at hbnew
        rw [List.length_cons, blocksBelow, List.mem_append, not_or] at hb
        refine (hc.frame b (fun hmem => ?_) hbnew.2).trans (h₁.frame b hb.1 hbnew.1)
        rcases mem_of_balance h₁.balance hmem with hmem | hmem
        · exact hbnew.1 hmem
        · exact hb.1 hmem
      · rw [hc.log_eq, h₁.log_eq, List.append_assoc]
      · rw [List.flatMap_append, ← hbn]
        refine .cons ⟨rfl, ?_⟩ (SameStep.mono h₁.steps fun b hb => List.mem_append_left _ hb)
        exact (hblock ▸ hc.same_or_new).imp_right fun hnew => List.mem_append_right _ hnew
      · have hpath₁ := fun s' hs' => hpath s' (List.mem_cons_of_mem s hs')
        have hpend₁ : ∀ b, sb₁.bitmap b = false → (pend b).run = [] := fun b hb =>
          hpend b (h₁.grown.free_of_free hb)
        have htracked₁ := SameStep.tracked h₁.steps hpath₁
          fun b hb => hpend b (h₁.grown.free b (h₁.bnodes ▸ hb))
        have hPf : P' f.block := hblock ▸ (hpath s (by simp)).1
        have hsim₂ := hc.simulates (h₁.grown.freeClean hclean) pend (Tracked P' recs₁)
          (fun s' hs' => ⟨(htracked₁ s' hs').1, h₁.unify hclean s' hs', (htracked₁ s' hs').2⟩)
          (fun _ => .of_mem hPf) hpend₁
        exact (h₁.simulates hclean pend P' hpath₁ hpend).trans hsim₂ h₁.grown.entriesPerNode_eq

/-! ## `cursor_redirect` -/

/-- What `cursor_redirect` does: a tree with the same entries, of which that of the cursor
leads to a dirty copy of its leaf. -/
structure CursorRedirected (marks : Nat → Option Nat) (sb : BtreeSb L) (root : Root)
    (path : List PathLevel) (pre : List IndexEntry) (e : IndexEntry) (post : List IndexEntry)
    (sb' : BtreeSb L) (root' : Root) (cursor' : Cursor) (recs : List LogRecord) : Prop where
  wellFormed : WellFormed sb' root'
  trail : Trail sb'.bnodes root'.entry marks cursor'.path pre ⟨e.key, cursor'.leaf⟩ post
  length : cursor'.path.length = root'.depth
  depth : root'.depth = root.depth
  leaf : sb'.leaves cursor'.leaf = sb.leaves e.block
  leafDirty : sb'.state cursor'.leaf ≠ .clean
  dirty : ∀ s ∈ cursor'.path, sb'.state s.block ≠ .clean
  unify : sb.FreeClean → ∀ s ∈ cursor'.path, sb'.state s.block = .unify
  grown : Grown sb sb' (recs.flatMap LogRecord.allocated)
  balance : (recs.flatMap LogRecord.redirected ++ treeBlocks sb' root').Perm
    (recs.flatMap LogRecord.allocated ++ treeBlocks sb root)
  freed : recs.flatMap LogRecord.freed = []
  frame : ∀ b, b ∉ treeBnodes sb root → b ∉ recs.flatMap LogRecord.allocated →
    sb'.bnodes b = sb.bnodes b
  log_eq : sb'.toVolSb.log = sb.toVolSb.log ++ recs
  bnodes : ∀ b ∈ recs.flatMap LogRecord.newBnodes, sb.bitmap b = false
  steps : List.Forall₂ (SameStep (recs.flatMap LogRecord.newBnodes)) cursor'.path path
  simulates : sb.FreeClean → ∀ pend P, (∀ s ∈ path, P s.block ∧ PendingBefore pend s) →
    (∀ b, sb.bitmap b = false → (pend b).run = []) → Simulates sb pend P recs sb' pend

theorem cursorRedirect_spec {marks : Nat → Option Nat} {sb : BtreeSb L} {root : Root}
    {path : List PathLevel} {pre post : List IndexEntry} {e : IndexEntry}
    (hwf : WellFormed sb root) (htrail : Trail sb.bnodes root.entry marks path pre e post)
    (hlength : path.length = root.depth) :
    Ensures (· = .enospc) (cursorRedirect sb root ⟨e.block, path⟩) fun (sb', root', cursor') =>
      ∃ recs, CursorRedirected marks sb root path pre e post sb' root' cursor' recs := by
  have hdistinct : Distinct sb.bnodes root.entry path.length := hlength ▸ hwf.distinct
  have halloc : ∀ b ∈ blocksBelow sb.bnodes root.entry (path.length + 1), sb.bitmap b = true := by
    rw [hlength]
    exact hwf.allocated
  rw [cursorRedirect]
  refine (redirectNodes_spec htrail hdistinct
    fun b hb => halloc b (List.mem_append_left _ hb)).bind ?_
  rintro ⟨sb₁, root₁, path₁⟩ ⟨recs₁, h₁⟩
  have hlevel : level sb.bnodes root.entry path.length = pre ++ e :: post := htrail.located.level
  have hlevel₁ : level sb₁.bnodes root₁.entry path₁.length = pre ++ e :: post :=
    h₁.trail.located.level
  have hbalance₁ : (recs₁.flatMap LogRecord.redirected ++
      blocksBelow sb₁.bnodes root₁.entry (path₁.length + 1)).Perm
      (recs₁.flatMap LogRecord.allocated ++ blocksBelow sb.bnodes root.entry (path.length + 1)) := by
    rw [blocksBelow, blocksBelow, hlevel, hlevel₁, ← List.append_assoc, ← List.append_assoc]
    exact h₁.balance.append_right _
  have hdistinct₁ : Distinct sb₁.bnodes root₁.entry path₁.length :=
    nodup_of_balance hbalance₁ h₁.grown.nodup hdistinct
      fun b hb hmem => h₁.grown.not_new (halloc b hmem) hb
  have halloc₁ : ∀ b ∈ blocksBelow sb₁.bnodes root₁.entry (path₁.length + 1),
      sb₁.bitmap b = true := fun b hb => by
    rcases mem_of_balance hbalance₁ hb with hb | hb
    · exact (h₁.grown.bitmap_eq b).mpr (.inr hb)
    · exact h₁.grown.set_of_set (halloc b hb)
  refine (redirectLeaf_spec h₁.trail.located hdistinct₁ halloc₁).bind ?_
  rintro ⟨sb₂, root₂, newblock⟩ ⟨recs₂, hc, hbn, hleaf⟩
  have htrail₂ := hc.trail marks h₁.trail
  have hgrown : Grown sb sb₂ ((recs₁ ++ recs₂).flatMap LogRecord.allocated) := by
    rw [List.flatMap_append]
    exact h₁.grown.trans hc.grown
  have hdepth : root₂.depth = root.depth := hc.depth.trans h₁.depth
  have hlength₂ : path₁.length = root₂.depth := by rw [h₁.length, hlength, hdepth]
  have hlevel₂ : treeLeaves sb₂ root₂ = pre ++ ⟨e.key, newblock⟩ :: post := by
    rw [treeLeaves, ← hlength₂]
    exact htrail₂.located.level
  have hleaves : treeLeaves sb root = pre ++ e :: post := by rw [treeLeaves, ← hlength, hlevel]
  have hbalance : ((recs₁ ++ recs₂).flatMap LogRecord.redirected ++ treeBlocks sb₂ root₂).Perm
      ((recs₁ ++ recs₂).flatMap LogRecord.allocated ++ treeBlocks sb root) := by
    rw [treeBlocks, treeBlocks, ← hlength₂, ← hlength, blocksBelow, blocksBelow,
      htrail₂.located.level, hlevel, hc.below, List.perm_iff_count]
    intro b
    have hb₁ := h₁.balance.count_eq b
    have hb₂ := hc.balance.count_eq b
    simp only [List.flatMap_append, List.map_append, List.map_cons, List.count_append,
      List.count_cons, List.count_nil] at hb₁ hb₂ ⊢
    omega
  have hnodes : NodesOk sb₂.entriesPerNode sb₂.bnodes root₂.entry root₂.depth := by
    rw [hgrown.entriesPerNode_eq, ← h₁.grown.entriesPerNode_eq, ← hlength₂]
    refine hc.nodes ?_
    rw [h₁.grown.entriesPerNode_eq]
    exact h₁.nodes (hlength ▸ hwf.nodes)
  have hwf₂ : WellFormed sb₂ root₂ := by
    refine ⟨hdepth ▸ hwf.depth_pos, hnodes, ?_, fun g hg => ?_, ?_, fun b hb => ?_⟩
    · rw [hlevel₂]
      exact (hleaves ▸ hwf.sorted : Sorted (pre ++ e :: post)).setBlock newblock
    · rw [hlevel₂] at hg
      have hbounded : ∀ g ∈ pre ++ e :: post, g.key < tuxkeyLimit := hleaves ▸ hwf.bounded
      rcases List.mem_append.mp hg with hg | hg
      · exact hbounded g (by simp [hg])
      · rcases List.mem_cons.mp hg with rfl | hg
        · exact hbounded e (by simp)
        · exact hbounded g (by simp [hg])
    · exact nodup_of_balance hbalance hgrown.nodup hwf.distinct
        fun b hb hmem => hgrown.not_new (hwf.allocated b hmem) hb
    · exact (hgrown.bitmap_eq b).mpr ((mem_of_balance hbalance hb).symm.imp_left (hwf.allocated b))
  have hcheck : cursorCheck sb₂ root₂ path₁ newblock = .ok () :=
    cursorCheck_of_located htrail₂.located (hlength₂ ▸ hwf₂.nodes) (hlength₂ ▸ hwf₂.sorted) rfl
  refine Ensures.bind_ok hcheck ⟨recs₁ ++ recs₂, hwf₂, htrail₂, hlength₂, hdepth, ?_, hc.dirty,
    fun s hs => hc.grown.dirty_of_dirty (h₁.dirty s hs), fun hclean s hs => ?_, hgrown, hbalance, ?_,
    fun b hb hnew => ?_, ?_, fun b hb => ?_, ?_, fun hclean pend P hpath hpend => ?_⟩
  · have he : e.block ∈ blocksBelow sb.bnodes root.entry (path.length + 1) :=
      mem_blocksBelow_of_mem_level (Nat.lt_succ_self _) (by rw [hlevel]; simp)
    rw [hleaf, h₁.grown.leaves_eq _ (h₁.grown.not_new (halloc _ he))]
  · exact hc.grown.unify_of_unify (h₁.grown.freeClean hclean) (h₁.unify hclean s hs)
  · rw [List.flatMap_append, h₁.freed, hc.freed]
    rfl
  · rw [List.flatMap_append, List.mem_append, not_or] at hnew
    rw [treeBnodes, ← hlength] at hb
    refine (hc.frame b (fun hmem => ?_) hnew.2).trans (h₁.frame b hb hnew.1)
    rcases mem_of_balance h₁.balance hmem with hmem | hmem
    · exact hnew.1 hmem
    · exact hb hmem
  · rw [hc.log_eq, h₁.log_eq, List.append_assoc]
  · rw [List.flatMap_append, hbn, List.append_nil, ← h₁.bnodes] at hb
    exact h₁.grown.free b hb
  · exact SameStep.mono h₁.steps fun b hb => by
      rw [List.flatMap_append]
      exact List.mem_append_left _ hb
  · have htracked₁ := SameStep.tracked h₁.steps hpath
      fun b hb => hpend b (h₁.grown.free b (h₁.bnodes ▸ hb))
    have hsim₂ := hc.simulates (h₁.grown.freeClean hclean) pend (Tracked P recs₁)
      (fun s hs => ⟨(htracked₁ s hs).1, h₁.unify hclean s hs, (htracked₁ s hs).2⟩)
      (fun hne => absurd hbn hne) fun b hb => hpend b (h₁.grown.free_of_free hb)
    exact (h₁.simulates hclean pend P hpath hpend).trans hsim₂ h₁.grown.entriesPerNode_eq

end Tux3
