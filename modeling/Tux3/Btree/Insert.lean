/-
  Btree/Insert.lean --- `insert_leaf`: a new leaf after the cursor's, with node splits.

  The loop climbs the path with a pending child: it goes into the node there, or, where
  the node is full, into one of the halves the node is split in, and the new half is
  pending on the level above.  What is invariant from level to level is that the pending
  child stands right after the entry of the path (`insertLevels_spec`).
-/
import Tux3.Btree.Tree
import Tux3.Btree.Alloc

set_option autoImplicit false

namespace Tux3

open IndexForest
open Outcome (Ensures bind_eq_ok)

variable {L : Type}

/-! ## Code -/

/-- `bnode_add_index` at the cursor position, which moves on to the new entry where
`keep` is not set. -/
def insertIndex (sb : BtreeSb L) (s : PathLevel) (child : IndexEntry) (keep : Bool) :
    Except TuxError (BtreeSb L × PathLevel) := do
  let parent := sb.bnodes s.block
  let sb := sb.setBnode s.block (bnodeAddIndex parent s.next child.block child.key)
  let next := if keep then s.next else s.next + 1
  let sb := sb.withLog (.bnodeAdd s.block child.block child.key)
  sb.markNon s.block
  return (sb, { s with next := next })

/-- The split of a full node: the position of the cursor in one of the halves, the entry
for the new half, and whether the cursor is in the left one. -/
def splitNode (sb : BtreeSb L) (s : PathLevel) :
    Except TuxError (BtreeSb L × PathLevel × IndexEntry × Bool) := do
  let parent := sb.bnodes s.block
  let (sb, newblock) ← newNode sb
  let half := parent.length / 2
  let middle ← entryAt parent half
  let (src, dst) := bnodeSplit parent half
  let sb := (sb.setBnode s.block src).setBnode newblock dst
  let sb := sb.withLog (.bnodeSplit s.block half newblock)
  let childIsLeft := decide (s.next ≤ half)
  -- the node the child does not go to is done with
  sb.markNon (if childIsLeft then newblock else s.block)
  let s := if childIsLeft then s else { block := newblock, next := s.next - half }
  return (sb, s, { key := middle.key, block := newblock }, childIsLeft)

/-- A full node: it is split, and the child goes into one of the halves. -/
def insertSplit (sb : BtreeSb L) (s : PathLevel) (child : IndexEntry) (keep : Bool) :
    Except TuxError (BtreeSb L × PathLevel × IndexEntry × Bool) := do
  let (sb, s, split, childIsLeft) ← splitNode sb s
  let (sb, s) ← insertIndex sb s child keep
  return (sb, s, split, childIsLeft)

/-- A new root bnode over the old root and the pending child; `top` is the buffer of
`cursor->path[0]`. -/
def insertRoot (sb : BtreeSb L) (root : Root) (top : Nat) (child : IndexEntry) :
    Except TuxError (BtreeSb L × Root × PathLevel) := do
  let (sb, newroot) ← newNode sb
  let leftNode := decide (top ≠ child.block)
  let sb := sb.setBnode newroot (bnodeInitRoot 2 root.block child.block child.key)
  let next := 1 + if leftNode then 0 else 1
  let sb := sb.withLog (.bnodeRoot newroot 2 root.block child.block child.key)
  sb.markNon newroot
  return (sb, { block := newroot, depth := root.depth + 1 }, { block := newroot, next := next })

/-- The loop of `insert_leaf`, from the deepest node up; `top` is the node of the level
below. -/
def insertLevels (root : Root) :
    List PathLevel → BtreeSb L → Nat → IndexEntry → Bool →
      Except TuxError (BtreeSb L × Root × List PathLevel)
  | [], sb, top, child, _ => do
      let (sb, root, s) ← insertRoot sb root top child
      return (sb, root, [s])
  | s :: up, sb, _, child, keep =>
      if (sb.bnodes s.block).length < sb.entriesPerNode then do
        let (sb, s) ← insertIndex sb s child keep
        return (sb, root, s :: up)
      else do
        let (sb, s, split, childIsLeft) ← insertSplit sb s child keep
        -- where the child is in the left node, the cursor stays with that
        let (sb, root, up) ← insertLevels root up sb s.block split childIsLeft
        return (sb, root, s :: up)

/-- `insert_leaf`. -/
def insertLeaf (sb : BtreeSb L) (root : Root) (cursor : Cursor) (childkey leafblock : Nat)
    (keep : Bool) : Except TuxError (BtreeSb L × Root × Cursor) := do
  let leaf := if keep then cursor.leaf else leafblock
  let child := { key := childkey, block := leafblock }
  let (sb, root, path) ← insertLevels root cursor.path sb leaf child keep
  cursorCheck sb root path leaf
  return (sb, root, { leaf := leaf, path := path })

/-! ## Positions after an insertion -/

/-- What is before the cursor, once `child` stands after `e`. -/
def keepPre (keep : Bool) (pre : List IndexEntry) (e : IndexEntry) : List IndexEntry :=
  if keep then pre else pre ++ [e]

/-- Where the cursor is, once `child` stands after `e`. -/
def keepEntry (keep : Bool) (e child : IndexEntry) : IndexEntry := if keep then e else child

/-- What is after the cursor, once `child` stands after its old entry. -/
def keepPost (keep : Bool) (child : IndexEntry) (post : List IndexEntry) : List IndexEntry :=
  if keep then child :: post else post

theorem keepPre_append (keep : Bool) (B pre : List IndexEntry) (e : IndexEntry) :
    B ++ keepPre keep pre e = keepPre keep (B ++ pre) e := by
  cases keep <;> simp [keepPre]

theorem keepPost_append (keep : Bool) (child : IndexEntry) (post D : List IndexEntry) :
    keepPost keep child post ++ D = keepPost keep child (post ++ D) := by
  cases keep <;> simp [keepPost]

theorem keep_split (keep : Bool) (pre : List IndexEntry) (e child : IndexEntry)
    (post : List IndexEntry) :
    pre ++ e :: child :: post =
      keepPre keep pre e ++ keepEntry keep e child :: keepPost keep child post := by
  cases keep <;> simp [keepPre, keepEntry, keepPost]

/-! ## One level -/

theorem take_append_cons {α : Type} {A C : List α} {e : α} {n : Nat} (h : A.length < n) :
    (A ++ e :: C).take n = A ++ e :: C.take (n - A.length - 1) := by
  obtain ⟨m, rfl⟩ : ∃ m, n = A.length + (m + 1) := ⟨n - A.length - 1, by omega⟩
  rw [List.take_length_add_append, List.take_succ_cons]
  congr 3
  omega

theorem drop_append_cons {α : Type} {A C : List α} {e : α} {n : Nat} (h : A.length < n) :
    (A ++ e :: C).drop n = C.drop (n - A.length - 1) := by
  obtain ⟨m, rfl⟩ : ∃ m, n = A.length + (m + 1) := ⟨n - A.length - 1, by omega⟩
  rw [List.drop_length_add_append, List.drop_succ_cons]
  congr 1
  omega

section Step

variable {sb : BtreeSb L} {s : PathLevel} {A C : Bnode} {e child : IndexEntry}

theorem insertIndex_spec (hnode : sb.bnodes s.block = A ++ e :: C)
    (hnext : s.next = A.length + 1) (hdirty : sb.state s.block ≠ .clean) (keep : Bool) :
    insertIndex sb s child keep =
      .ok ((sb.setBnode s.block (A ++ e :: child :: C)).withLog
          (.bnodeAdd s.block child.block child.key),
        ⟨s.block, (keepPre keep A e).length + 1⟩) := by
  have hadd : bnodeAddIndex (A ++ e :: C) s.next child.block child.key = A ++ e :: child :: C := by
    have h := bnodeAddIndex_append (A ++ [e]) C child.block child.key
    rw [List.length_append, List.length_singleton, ← hnext] at h
    simpa using h
  have hmark : ((sb.setBnode s.block (A ++ e :: child :: C)).withLog
      (.bnodeAdd s.block child.block child.key)).markNon s.block = .ok () := tuxAssert_of hdirty
  rw [insertIndex, hnode, hadd]
  simp only [bind, Except.bind, hmark]
  cases keep <;> simp [keepPre, hnext, pure, Except.pure]

theorem insertIndex_simulates {P : Nat → Prop} (hnode : sb.bnodes s.block = A ++ e :: C)
    (hsorted : Sorted (A ++ e :: child :: C)) (hroom : (A ++ e :: C).length < sb.entriesPerNode)
    (hP : P s.block) (hunify : sb.state s.block = .unify) :
    Simulates sb noPending P [.bnodeAdd s.block child.block child.key]
      ((sb.setBnode s.block (A ++ e :: child :: C)).withLog
        (.bnodeAdd s.block child.block child.key)) noPending := by
  refine Simulates.of_change (fun _ => rfl) rfl hP hunify rfl rfl (fun _ _ => rfl) ?_
  intro image himage _
  have himage : image = A ++ e :: C := by
    rw [himage, Pending.image_of_run_nil rfl, hnode]
  have hlt : ∀ a ∈ A ++ [e], a.key ≤ child.key := by
    intro a ha
    refine Nat.le_of_lt ((Sorted.before (A := A ++ [e]) (C := C) ?_) a ha)
    simpa using hsorted
  have hgt : ∀ c ∈ C.head?, child.key < c.key := fun c hc =>
    List.rel_of_pairwise_cons hsorted.right.of_cons (List.mem_of_mem_head? hc)
  refine ⟨A ++ e :: child :: C, ?_, (Pending.image_of_run_nil rfl _).symm, hsorted⟩
  rw [himage]
  exact addFunc_append hlt hgt hroom

/-- The split of a full node: the halves, and the half the cursor is in. -/
theorem splitNode_spec (hnode : sb.bnodes s.block = A ++ e :: C)
    (hnext : s.next = A.length + 1) (hlen : 2 ≤ (A ++ e :: C).length)
    (hdirty : sb.state s.block ≠ .clean) (halloc : sb.bitmap s.block = true) :
    Ensures (· = .enospc) (splitNode sb s) fun (sb', s', split, childIsLeft) =>
      ∃ left right, A ++ e :: C = left ++ right ∧
        left.length = (A ++ e :: C).length / 2 ∧
        right.head?.map Entry.key = some split.key ∧ Grown sb sb' [split.block] ∧
        sb'.bnodes s.block = left ∧ sb'.bnodes split.block = right ∧
        (∀ b, b ≠ s.block → b ≠ split.block → sb'.bnodes b = sb.bnodes b) ∧
        sb'.toVolSb.log = sb.toVolSb.log ++
          [.bnodeSplit s.block ((A ++ e :: C).length / 2) split.block] ∧
        (sb.FreeClean → sb'.state split.block = .unify) ∧
        (childIsLeft = true ∧ s' = s ∧ (∃ C', left = A ++ e :: C' ∧ C = C' ++ right) ∨
          childIsLeft = false ∧
            ∃ A', s' = ⟨split.block, A'.length + 1⟩ ∧ A = left ++ A' ∧ right = A' ++ e :: C) := by
  generalize hN : A ++ e :: C = N at hnode hlen
  have hhalf : N.length / 2 < N.length := by omega
  refine (newNode_spec sb).bind fun ⟨sb', newblock⟩ ⟨hgrown, hbnodes, hlog, hnewunify⟩ => ?_
  have hlog : sb'.toVolSb.log = sb.toVolSb.log := hlog
  have hne : s.block ≠ newblock := by
    intro heq
    have hfree := hgrown.free newblock (by simp)
    rw [← heq, halloc] at hfree
    cases hfree
  have hentry : entryAt N (N.length / 2) = .ok N[N.length / 2] := by
    rw [entryAt_eq_ok, List.getElem?_eq_getElem hhalf]
  have hdirty' : ∀ b, b = newblock ∨ b = s.block → sb'.state b ≠ .clean := by
    rintro b (rfl | rfl)
    · exact hgrown.dirty _ (by simp)
    · exact hgrown.dirty_of_dirty hdirty
  have hmark : tuxAssert (sb'.state (if decide (s.next ≤ N.length / 2) then newblock
      else s.block) ≠ .clean) = .ok () := by
    refine tuxAssert_of (hdirty' _ ?_)
    split
    · exact .inl rfl
    · exact .inr rfl
  rw [hnode]
  refine Ensures.bind_ok hentry ?_
  refine Ensures.bind_ok (a := ()) hmark ?_
  refine ⟨N.take (N.length / 2), N.drop (N.length / 2), (List.take_append_drop ..).symm, ?_, ?_,
    ((hgrown.setBnode _ _).setBnode _ _).withLog _, ?_, ?_, ?_, ?_, hnewunify, ?_⟩
  · rw [List.length_take]
    omega
  · rw [List.head?_drop, List.getElem?_eq_getElem hhalf]
    rfl
  · simp [BtreeSb.withLog, BtreeSb.setBnode, Function.update_of_ne hne]
  · simp [BtreeSb.withLog, BtreeSb.setBnode]
  · intro b hb hb'
    simp only [BtreeSb.withLog, BtreeSb.setBnode]
    rw [Function.update_of_ne hb', Function.update_of_ne hb, hbnodes, Function.update_of_ne hb']
  · simp only [BtreeSb.withLog, BtreeSb.setBnode, VolSb.logRecord, hlog]
  · subst hN
    by_cases hleft : s.next ≤ (A ++ e :: C).length / 2
    · left
      refine ⟨decide_eq_true hleft, if_pos (decide_eq_true hleft),
        C.take ((A ++ e :: C).length / 2 - A.length - 1), ?_, ?_⟩
      · rw [take_append_cons (by omega)]
      · rw [drop_append_cons (by omega), List.take_append_drop]
    · right
      refine ⟨decide_eq_false hleft, A.drop ((A ++ e :: C).length / 2), ?_, ?_, ?_⟩
      · refine (if_neg (by simpa using hleft)).trans ?_
        rw [List.length_drop]
        congr 1
        omega
      · rw [List.take_append_of_le_length (by omega), List.take_append_drop]
      · rw [List.drop_append_of_le_length (by omega)]

/-- A full node takes the child into one of its halves. -/
theorem insertSplit_spec (hnode : sb.bnodes s.block = A ++ e :: C)
    (hnext : s.next = A.length + 1) (hcap : 2 ≤ sb.entriesPerNode)
    (hfull : (A ++ e :: C).length = sb.entriesPerNode)
    (hdirty : sb.state s.block ≠ .clean) (halloc : sb.bitmap s.block = true)
    (hsorted : Sorted (A ++ e :: child :: C)) (keep : Bool) :
    Ensures (· = .enospc) (insertSplit sb s child keep) fun (sb', s', split, childIsLeft) =>
      ∃ left right, A ++ e :: child :: C = left ++ right ∧
        left.length ≤ sb.entriesPerNode ∧ right.length ≤ sb.entriesPerNode ∧
        left.head?.map Entry.key = (A ++ e :: C).head?.map Entry.key ∧
        right.head?.map Entry.key = some split.key ∧
        (∃ a as, A ++ e :: C = a :: as ∧ ∃ m ∈ as, m.key = split.key) ∧
        Grown sb sb' [split.block] ∧
        sb'.bnodes s.block = left ∧ sb'.bnodes split.block = right ∧
        (∀ b, b ≠ s.block → b ≠ split.block → sb'.bnodes b = sb.bnodes b) ∧
        Replays sb sb' [.bnodeSplit s.block (sb.entriesPerNode / 2) split.block,
          .bnodeAdd s'.block child.block child.key] [s.block] ∧
        (childIsLeft = true ∧ s' = ⟨s.block, (keepPre keep A e).length + 1⟩ ∧
            (∃ C', left = A ++ e :: child :: C' ∧ C = C' ++ right) ∨
          childIsLeft = false ∧
            ∃ A', s' = ⟨split.block, (keepPre keep A' e).length + 1⟩ ∧ A = left ++ A' ∧
              right = A' ++ e :: child :: C) := by
  refine (splitNode_spec hnode hnext (hfull ▸ hcap) hdirty halloc).bind ?_
  rintro ⟨sb', s', split, childIsLeft⟩
    ⟨left, right, hsplit, hhalf, hhead, hgrown, hleft, hright, hother, hlog,
      hnewunify, hcases⟩
  have hne : s.block ≠ split.block := by
    intro heq
    have hfree := hgrown.free split.block (by simp)
    rw [← heq, halloc] at hfree
    cases hfree
  have hlens : left.length + right.length = sb.entriesPerNode := by
    rw [← hfull, hsplit, List.length_append]
  rw [hfull] at hhalf hlog
  have hpos : 0 < left.length := by omega
  have hnewstate : ∀ r : LogRecord, r.newBnodes = [] → sb.FreeClean →
      ∀ b ∈ [LogRecord.bnodeSplit s.block (sb.entriesPerNode / 2) split.block, r].flatMap
        LogRecord.newBnodes, sb'.state b = .unify := by
    intro r hr hclean b hb
    rw [List.flatMap_cons, List.flatMap_cons, hr] at hb
    obtain rfl : b = split.block := by simpa [LogRecord.newBnodes] using hb
    exact hnewunify hclean
  have hsim : sb.FreeClean → sb.state s.block = .unify → ∀ P : Nat → Prop, P s.block →
      Simulates sb noPending P [.bnodeSplit s.block (sb.entriesPerNode / 2) split.block] sb'
        noPending := by
    intro _ hunify P hP
    rw [← hhalf]
    exact simulates_split hP hunify rfl (hnode.trans hsplit) hleft hright hother
      (fun b hb => hgrown.state_eq b (by simpa using hb)) (fun _ _ => rfl) rfl
  -- the separator of the right half is not the first key of the node
  have hmiddle : ∃ a as, A ++ e :: C = a :: as ∧ ∃ m ∈ as, m.key = split.key := by
    cases left with
    | nil => simp at hpos
    | cons a as =>
        cases right with
        | nil => simp at hhead
        | cons m right => exact ⟨a, as ++ m :: right, hsplit, m, by simp, by simpa using hhead⟩
  rcases hcases with ⟨rfl, rfl, C', hA, hC⟩ | ⟨rfl, A', rfl, hA, hC⟩
  · refine Ensures.bind_ok
      (insertIndex_spec (hleft.trans hA) hnext (hgrown.dirty_of_dirty hdirty) keep) ?_
    refine ⟨A ++ e :: child :: C', right, by rw [hC]; simp, ?_, by omega, ?_, hhead, hmiddle,
      (hgrown.setBnode _ _).withLog _, ?_, ?_, ?_, ⟨?_, hnewstate _ rfl, fun hclean hunify P hP => ?_⟩,
      .inl ⟨rfl, rfl, C', rfl, hC⟩⟩
    · have hlen := congrArg List.length hA
      simp only [List.length_append, List.length_cons] at hlen ⊢
      omega
    · cases A <;> simp
    · simp [BtreeSb.withLog, BtreeSb.setBnode]
    · simpa [BtreeSb.withLog, BtreeSb.setBnode, Function.update_of_ne hne.symm] using hright
    · intro b hb hb'
      simpa [BtreeSb.withLog, BtreeSb.setBnode, Function.update_of_ne hb] using hother b hb hb'
    · simp [BtreeSb.withLog, BtreeSb.setBnode, VolSb.logRecord, hlog]
    · refine (hsim hclean (hunify _ (by simp)) P (hP _ (by simp))).trans
        (?_ : Simulates _ _ _ [.bnodeAdd s'.block child.block child.key] _ _)
        hgrown.entriesPerNode_eq
      refine insertIndex_simulates (hleft.trans hA) ?_ ?_ (.of_mem (hP _ (by simp)))
        (hgrown.unify_of_unify hclean (hunify _ (by simp)))
      · rw [hC] at hsorted
        have hassoc : A ++ e :: child :: (C' ++ right) = (A ++ e :: child :: C') ++ right := by
          simp
        exact (hassoc ▸ hsorted).left
      · rw [← hA, hgrown.entriesPerNode_eq]
        have : 0 < right.length := by
          cases right with
          | nil => simp at hhead
          | cons m right => simp
        omega
  · refine Ensures.bind_ok
      (insertIndex_spec (hright.trans hC) rfl (hgrown.dirty split.block (by simp)) keep) ?_
    refine ⟨left, A' ++ e :: child :: C, by rw [hA]; simp, by omega, ?_, ?_, ?_, hmiddle,
      (hgrown.setBnode _ _).withLog _, ?_, ?_, ?_, ⟨?_, hnewstate _ rfl, fun hclean hunify P hP => ?_⟩,
      .inr ⟨rfl, A', rfl, hA, rfl⟩⟩
    · have hlen := congrArg List.length hC
      simp only [List.length_append, List.length_cons] at hlen ⊢
      omega
    · rw [hsplit]
      cases left with
      | nil => simp at hpos
      | cons a as => simp
    · rw [hC] at hhead
      cases A' <;> simpa using hhead
    · simpa [BtreeSb.withLog, BtreeSb.setBnode, Function.update_of_ne hne] using hleft
    · simp [BtreeSb.withLog, BtreeSb.setBnode]
    · intro b hb hb'
      simpa [BtreeSb.withLog, BtreeSb.setBnode, Function.update_of_ne hb'] using hother b hb hb'
    · simp [BtreeSb.withLog, BtreeSb.setBnode, VolSb.logRecord, hlog]
    · refine (hsim hclean (hunify _ (by simp)) P (hP _ (by simp))).trans
        (?_ : Simulates _ _ _ [.bnodeAdd split.block child.block child.key] _ _)
        hgrown.entriesPerNode_eq
      refine insertIndex_simulates (s := ⟨split.block, A'.length + 1⟩) (hright.trans hC) ?_ ?_
        (.inr (by simp [LogRecord.newBnodes])) (hnewunify hclean)
      · rw [hA] at hsorted
        have hassoc : left ++ A' ++ e :: child :: C = left ++ (A' ++ e :: child :: C) := by simp
        exact (hassoc ▸ hsorted).right
      · rw [← hC, hgrown.entriesPerNode_eq]
        omega

/-- The new root has the old root and the child below it. -/
theorem insertRoot_spec {root : Root} {top : Nat} {keep : Bool}
    (hne : root.block ≠ child.block) (hsorted : Sorted [root.entry, child])
    (htop : top = (keepEntry keep root.entry child).block) :
    Ensures (· = .enospc) (insertRoot sb root top child) fun (sb', root', s') =>
      Grown sb sb' [root'.block] ∧ root'.depth = root.depth + 1 ∧
        s' = ⟨root'.block, (keepPre keep [] root.entry).length + 1⟩ ∧
        sb'.bnodes = Function.update sb.bnodes root'.block [root.entry, child] ∧
        Replays sb sb' [.bnodeRoot root'.block 2 root.block child.block child.key] [] := by
  refine (newNode_spec sb).bind fun ⟨sb', newroot⟩ ⟨hgrown, hbnodes, hlog, hnewunify⟩ => ?_
  refine Ensures.bind_ok (a := ()) (tuxAssert_of (hgrown.dirty newroot (by simp))) ?_
  have hbnodes : sb'.bnodes = Function.update sb.bnodes newroot [] := hbnodes
  have hlog : sb'.toVolSb.log = sb.toVolSb.log := hlog
  have hnewstate : sb.FreeClean → ∀ b ∈ [newroot], sb'.state b = .unify := by
    intro hclean b hb
    rw [List.mem_singleton.mp hb]
    exact hnewunify hclean
  have hresult : Function.update sb'.bnodes newroot
      (bnodeInitRoot 2 root.block child.block child.key) =
        Function.update sb.bnodes newroot [root.entry, child] := by
    rw [hbnodes, Function.update_idem]
    rfl
  refine ⟨(hgrown.setBnode _ _).withLog _, rfl, ?_, hresult, ?_, hnewstate, fun _ _ P _ => ?_⟩
  · cases keep with
    | true =>
        have htop : top ≠ child.block := htop ▸ hne
        simp [keepPre, htop]
    | false =>
        have htop : top = child.block := htop
        simp [keepPre, htop]
  · simp [BtreeSb.withLog, BtreeSb.setBnode, VolSb.logRecord, hlog]
  · exact simulates_root hresult (fun b hb => hgrown.state_eq b (by simpa using hb))
      (fun _ _ => rfl) rfl hsorted

end Step

/-! ## All levels -/

/-- What the loop of `insert_leaf` does for a path to `e` on the level above the pending
`child`: the child stands after `e`, and the rest of the level is as it was. -/
structure Inserted (sb : BtreeSb L) (root : Root) (path : List PathLevel)
    (pre : List IndexEntry) (e child : IndexEntry) (post : List IndexEntry) (keep : Bool)
    (sb' : BtreeSb L) (root' : Root) (path' : List PathLevel) : Prop where
  level_eq : level sb'.bnodes root'.entry path'.length = pre ++ e :: child :: post
  located : Located sb'.bnodes root'.entry path' (keepPre keep pre e) (keepEntry keep e child)
    (keepPost keep child post)
  nodes : NodesOk sb.entriesPerNode sb'.bnodes root'.entry path'.length
  depth : root'.depth + path.length = root.depth + path'.length
  dirty : ∀ s ∈ path', sb'.state s.block ≠ .clean
  unify : sb.FreeClean → (∀ s ∈ path, sb.state s.block = .unify) →
    ∀ s ∈ path', sb'.state s.block = .unify
  grown : ∃ recs new, Grown sb sb' new ∧
    (blocksBelow sb'.bnodes root'.entry path'.length).Perm
      (new ++ blocksBelow sb.bnodes root.entry path.length) ∧
    (∀ b, b ∉ blocksBelow sb.bnodes root.entry path.length → b ∉ new →
      sb'.bnodes b = sb.bnodes b) ∧
    new = recs.flatMap LogRecord.newBnodes ∧ Replays sb sb' recs (path.map Step.block)

/-- The separator of the half that splits off a node goes between those of the node and
of the next one. -/
theorem sorted_split {cap : Nat} {heap : Heap Nat Nat} {P Q : List IndexEntry}
    {f x a m : IndexEntry} {as : Bnode} (hrow : Sorted (descend heap (P ++ f :: Q)))
    (hok : ∀ g ∈ P ++ f :: Q, NodeOk cap heap g) (hnode : heap f.block = a :: as)
    (hm : m ∈ as) (hx : m.key = x.key) : Sorted (P ++ f :: x :: Q) := by
  have hsorted : Sorted (P ++ f :: Q) := hrow.of_descend hok
  have ha : a.key = f.key := by
    have hhead := (hok f (by simp)).head
    rw [hnode] at hhead
    simpa using hhead
  rw [descend_append, descend_cons, hnode, List.cons_append] at hrow
  have hfx : f.key < x.key := by
    rw [← ha, ← hx]
    exact hrow.after m (by simp [hm])
  have hxQ : ∀ q ∈ Q, x.key < q.key := by
    intro q hq
    obtain ⟨a', as', hnode', hkey'⟩ := (hok q (by simp [hq])).cons
    rw [← hx, ← hkey']
    refine (List.pairwise_append.mp hrow.right.of_cons).2.2 m hm a' ?_
    exact List.mem_flatMap.mpr ⟨q, hq, by simp [hnode']⟩
  refine List.pairwise_append.mpr ⟨hsorted.left, ?_, ?_⟩
  · refine List.pairwise_cons.mpr ⟨?_, List.pairwise_cons.mpr ⟨hxQ, hsorted.right.of_cons⟩⟩
    intro g hg
    rcases List.mem_cons.mp hg with rfl | hg
    · exact hfx
    · exact hsorted.after g hg
  · intro p hp g hg
    have hpf := hsorted.before p hp
    rcases List.mem_cons.mp hg with rfl | hg
    · exact hpf
    · rcases List.mem_cons.mp hg with rfl | hg
      · exact hpf.trans hfx
      · exact hpf.trans (hsorted.after g hg)

/-- After a split, the level above takes the new half as its pending child. -/
theorem Inserted.split {sb sb' sb'' : BtreeSb L} {root root' : Root} {up up' : List PathLevel}
    {P Q : List IndexEntry} {f e child x : IndexEntry} {A C left right : Bnode}
    {keep isLeft : Bool} {s s' : PathLevel} (hsblock : s.block = f.block)
    (hup : Located sb.bnodes root.entry up P f Q) (hnode : sb.bnodes f.block = A ++ e :: C)
    (hok : NodesOk sb.entriesPerNode sb.bnodes root.entry (up.length + 1))
    (hdistinct : Distinct sb.bnodes root.entry up.length)
    (halloc : ∀ b ∈ blocksBelow sb.bnodes root.entry (up.length + 1), sb.bitmap b = true)
    (hsplit : A ++ e :: child :: C = left ++ right) (hleft : left.length ≤ sb.entriesPerNode)
    (hright : right.length ≤ sb.entriesPerNode)
    (hleftkey : left.head?.map Entry.key = some f.key)
    (hrightkey : right.head?.map Entry.key = some x.key)
    (hgrown : Grown sb sb' [x.block]) (hf : sb'.bnodes f.block = left)
    (hx : sb'.bnodes x.block = right)
    (hother : ∀ b, b ≠ f.block → b ≠ x.block → sb'.bnodes b = sb.bnodes b)
    (hcursor : isLeft = true ∧ s' = ⟨f.block, (keepPre keep A e).length + 1⟩ ∧
          (∃ C', left = A ++ e :: child :: C' ∧ C = C' ++ right) ∨
        isLeft = false ∧ ∃ A', s' = ⟨x.block, (keepPre keep A' e).length + 1⟩ ∧
          A = left ++ A' ∧ right = A' ++ e :: child :: C)
    (hdirty : sb'.state f.block ≠ .clean) {recs : List LogRecord}
    (hnew : recs.flatMap LogRecord.newBnodes = [x.block])
    (hreplays : Replays sb sb' recs [f.block])
    (hrec : Inserted sb' root up P f x Q isLeft sb'' root' up') :
    Inserted sb root (s :: up) (descend sb.bnodes P ++ A) e child
      (C ++ descend sb.bnodes Q) keep sb'' root' (s' :: up') := by
  obtain ⟨hlevel, hloc, hnodes, hdepth, hdirty', hunify', recs', new, hgrown', hperm, hframe,
    hnew', hreplays'⟩ := hrec
  have hxfree : sb.bitmap x.block = false := hgrown.free _ (by simp)
  have hmemrow : ∀ g ∈ P ++ f :: Q, g.block ∈ blocksBelow sb.bnodes root.entry (up.length + 1) :=
    fun g hg => mem_blocksBelow_of_mem_level (Nat.lt_succ_self _) (hup.level ▸ hg)
  have hne : ∀ b ∈ blocksBelow sb.bnodes root.entry (up.length + 1), b ≠ x.block := by
    rintro b hb rfl
    rw [halloc _ hb] at hxfree
    cases hxfree
  obtain ⟨hfabove, hfpre, hfpost⟩ := hup.fresh hdistinct
  have habove : ∀ b ∈ blocksBelow sb.bnodes root.entry up.length,
      sb'.bnodes b = sb.bnodes b := fun b hb =>
    hother b (fun hbf => hfabove (hbf ▸ hb)) (hne b (List.mem_append_left _ hb))
  have hbelow : blocksBelow sb'.bnodes root.entry up.length =
      blocksBelow sb.bnodes root.entry up.length :=
    blocksBelow_congr habove (Nat.le_succ _)
  -- the level above changes no node on this level
  have hkept : ∀ b, b ∉ blocksBelow sb.bnodes root.entry up.length →
      sb'.bitmap b = true → sb''.bnodes b = sb'.bnodes b := by
    intro b hb hset
    refine hframe b (hbelow ▸ hb) fun hnew => ?_
    rw [hgrown'.free b hnew] at hset
    cases hset
  have hrowabove : ∀ g ∈ P ++ f :: Q, g.block ∉ blocksBelow sb.bnodes root.entry up.length := by
    intro g hg hmem
    rw [Distinct, blocksBelow] at hdistinct
    refine (List.nodup_append.mp hdistinct).2.2 _ hmem _ (List.mem_map_of_mem ?_) rfl
    exact hup.level ▸ hg
  have hrowset : ∀ g ∈ P ++ f :: Q, sb'.bitmap g.block = true := fun g hg =>
    (hgrown.bitmap_eq _).mpr (.inl (halloc _ (hmemrow g hg)))
  have hf'' : sb''.bnodes f.block = left :=
    (hkept _ (hrowabove f (by simp)) (hrowset f (by simp))).trans hf
  have hx'' : sb''.bnodes x.block = right := by
    refine (hkept _ (fun hmem => ?_) ((hgrown.bitmap_eq _).mpr (.inr (by simp)))).trans hx
    exact hne _ (List.mem_append_left _ hmem) rfl
  have hbeside : ∀ g ∈ P ++ Q, sb''.bnodes g.block = sb.bnodes g.block := by
    intro g hg
    have hrow : g ∈ P ++ f :: Q := mem_append_cons_of_mem hg
    refine (hkept _ (hrowabove g hrow) (hrowset g hrow)).trans
      (hother _ (fun heq => ?_) (hne _ (hmemrow g hrow)))
    rcases List.mem_append.mp hg with hg | hg
    · exact hfpre (heq ▸ List.mem_map_of_mem hg)
    · exact hfpost (heq ▸ List.mem_map_of_mem hg)
  have hP : descend sb''.bnodes P = descend sb.bnodes P := descend_congr fun b hb => by
    obtain ⟨g, hg, rfl⟩ := List.mem_map.mp hb
    exact hbeside g (by simp [hg])
  have hQ : descend sb''.bnodes Q = descend sb.bnodes Q := descend_congr fun b hb => by
    obtain ⟨g, hg, rfl⟩ := List.mem_map.mp hb
    exact hbeside g (by simp [hg])
  refine ⟨?_, ?_, ?_, by rw [List.length_cons, List.length_cons]; omega, ?_, ?_, ?_⟩
  · calc level sb''.bnodes root'.entry (up'.length + 1)
        _ = descend sb''.bnodes (P ++ f :: x :: Q) := congrArg (descend _) hlevel
        _ = descend sb.bnodes P ++ ((left ++ right) ++ descend sb.bnodes Q) := by
            simp [hf'', hx'', hP, hQ]
        _ = _ := by simp [← hsplit]
  · rcases hcursor with ⟨rfl, rfl, C', hl, hC⟩ | ⟨rfl, A', rfl, hA, hr⟩
    · refine ⟨P, f, x :: Q, keepPre keep A e, keepPost keep child C', hloc, rfl, ?_, rfl, ?_, ?_⟩
      · rw [hf'', hl, keep_split keep]
      · rw [hP, keepPre_append]
      · rw [descend_cons, hx'', hQ, keepPost_append, hC, List.append_assoc]
    · refine ⟨P ++ [f], x, Q, keepPre keep A' e, keepPost keep child C, hloc, rfl, ?_, rfl, ?_, ?_⟩
      · rw [hx'', hr, keep_split keep]
      · rw [descend_append, hP, descend_cons, descend_nil, hf'', keepPre_append, hA]
        simp
      · rw [hQ, keepPost_append]
  · intro m hm g hg
    rcases Nat.lt_succ_iff_lt_or_eq.mp hm with hlt | rfl
    · rw [← hgrown.entriesPerNode_eq]
      exact hnodes m hlt g hg
    · rw [hlevel] at hg
      have hcases : g = f ∨ g = x ∨ g ∈ P ++ Q := by
        rcases List.mem_append.mp hg with hg | hg
        · exact .inr (.inr (List.mem_append_left _ hg))
        · rcases List.mem_cons.mp hg with hg | hg
          · exact .inl hg
          · exact .inr ((List.mem_cons.mp hg).imp_right (List.mem_append_right _))
      rcases hcases with rfl | rfl | hg
      · exact ⟨by rw [hf'']; exact hleftkey, by rw [hf'']; exact hleft⟩
      · exact ⟨by rw [hx'']; exact hrightkey, by rw [hx'']; exact hright⟩
      · refine (hok up.length (Nat.lt_succ_self _) g ?_).congr (hbeside g hg)
        rw [hup.level]
        exact mem_append_cons_of_mem hg
  · intro s hs
    rcases List.mem_cons.mp hs with rfl | hs
    · rcases hcursor with ⟨-, rfl, -⟩ | ⟨-, A', rfl, -⟩
      · exact hgrown'.dirty_of_dirty hdirty
      · exact hgrown'.dirty_of_dirty (hgrown.dirty _ (by simp))
    · exact hdirty' s hs
  · intro hclean hunify t ht
    have hclean' := hgrown.freeClean hclean
    have hunifyf : sb.state f.block = .unify := hsblock ▸ hunify s (by simp)
    have hsame : ∀ b, sb.state b = .unify → sb'.state b = .unify := fun b =>
      hgrown.unify_of_unify hclean
    rcases List.mem_cons.mp ht with rfl | ht
    · rcases hcursor with ⟨-, rfl, -⟩ | ⟨-, A', rfl, -⟩
      · exact hgrown'.unify_of_unify hclean' (hsame _ hunifyf)
      · exact hgrown'.unify_of_unify hclean' (hreplays.unify hclean _ (by simp [hnew]))
    · exact hunify' hclean' (fun u hu => hsame _ (hunify u (by simp [hu]))) t ht
  · refine ⟨recs ++ recs', [x.block] ++ new, hgrown.trans hgrown', ?_, ?_, ?_, ?_⟩
    · rw [List.perm_iff_count]
      intro b
      have hcount := hperm.count_eq b
      simp only [List.length_cons, blocksBelow, hlevel, hup.level, hbelow, List.map_append,
        List.map_cons, List.count_append, List.count_cons, List.count_nil] at hcount ⊢
      omega
    · intro b hb hnew
      rw [List.mem_append, not_or] at hnew
      have hb' : b ∉ blocksBelow sb'.bnodes root.entry up.length := fun hmem =>
        hb (List.mem_append_left _ (hbelow ▸ hmem))
      rw [hframe b hb' hnew.2]
      refine hother b (fun hbf => hb ?_) (by simpa using hnew.1)
      exact hbf ▸ hmemrow f (by simp)
    · rw [List.flatMap_append, hnew, hnew']
    · refine hreplays.trans hreplays' hgrown hgrown' fun b hb => ?_
      rw [List.map_cons, hsblock]
      exact hb

theorem insertLevels_spec {root : Root} {path : List PathLevel} {sb : BtreeSb L}
    {pre post : List IndexEntry} {e child : IndexEntry} {keep : Bool} {top : Nat}
    (hcap : 2 ≤ sb.entriesPerNode)
    (hloc : Located sb.bnodes root.entry path pre e post)
    (hok : NodesOk sb.entriesPerNode sb.bnodes root.entry path.length)
    (hsorted : Sorted (pre ++ e :: child :: post))
    (hdistinct : Distinct sb.bnodes root.entry path.length)
    (halloc : ∀ b ∈ blocksBelow sb.bnodes root.entry (path.length + 1), sb.bitmap b = true)
    (hdirty : ∀ s ∈ path, sb.state s.block ≠ .clean)
    (hne : e.block ≠ child.block)
    (htop : top = (keepEntry keep e child).block) :
    Ensures (· = .enospc) (insertLevels root path sb top child keep) fun (sb', root', path') =>
      Inserted sb root path pre e child post keep sb' root' path' := by
  induction path generalizing sb pre e child post keep top with
  | nil =>
      obtain ⟨rfl, rfl, rfl⟩ := hloc
      refine (insertRoot_spec hne hsorted htop).bind ?_
      rintro ⟨sb', root', s'⟩ ⟨hgrown, hdepth, rfl, hbnodes, hreplays⟩
      have hnode : sb'.bnodes root'.block = [root.entry, child] := by
        rw [hbnodes, Function.update_self]
      have hlevel : level sb'.bnodes root'.entry 1 = [root.entry, child] := by
        rw [level, level, descend_cons, descend_nil, List.append_nil]
        exact hnode
      refine ⟨hlevel, ?_, ?_, by simpa using hdepth, ?_, ?_, _, [root'.block], hgrown, ?_, ?_,
        rfl, hreplays⟩
      · refine ⟨[], root'.entry, [], keepPre keep [] root.entry, keepPost keep child [],
          ⟨rfl, rfl, rfl⟩, rfl, ?_, rfl, rfl, ?_⟩
        · exact hnode.trans (keep_split keep [] root.entry child [])
        · simp
      · intro m hm g hg
        have hm : m = 0 := by simpa using hm
        subst hm
        have hg : g = root'.entry := by simpa [level] using hg
        subst hg
        refine ⟨?_, ?_⟩
        · exact (congrArg (fun n => n.head?.map Entry.key) hnode).trans rfl
        · exact (congrArg List.length hnode).trans_le hcap
      · intro s hs
        rw [List.mem_singleton.mp hs]
        exact hgrown.dirty _ (by simp)
      · intro hclean _ s hs
        rw [List.mem_singleton.mp hs]
        exact hreplays.unify hclean _ (by simp [LogRecord.newBnodes])
      · exact .refl _
      · intro b _ hb
        rw [hbnodes, Function.update_of_ne (by simpa using hb)]
  | cons s up ih =>
      obtain ⟨P, f, Q, A, C, hup, hblock, hnode, hnext, rfl, rfl⟩ := hloc
      obtain ⟨sblock, snext⟩ := s
      obtain rfl : sblock = f.block := hblock
      have hnext : snext = A.length + 1 := hnext
      have hokup : NodesOk sb.entriesPerNode sb.bnodes root.entry up.length := fun m hm =>
        hok m (Nat.lt_succ_of_lt hm)
      have hrow : ∀ g ∈ P ++ f :: Q, NodeOk sb.entriesPerNode sb.bnodes g := fun g hg =>
        hok up.length (Nat.lt_succ_self _) g (hup.level ▸ hg)
      have hbeside : ∀ g ∈ P ++ Q, NodeOk sb.entriesPerNode sb.bnodes g := fun g hg =>
        hrow g (mem_append_cons_of_mem hg)
      have hf : NodeOk sb.entriesPerNode sb.bnodes f := hrow f (by simp)
      have hdirtyf : sb.state f.block ≠ .clean := hdirty ⟨f.block, snext⟩ (by simp)
      have hmemf : f.block ∈ blocksBelow sb.bnodes root.entry (up.length + 1) :=
        mem_blocksBelow_of_mem_level (Nat.lt_succ_self _) (by rw [hup.level]; simp)
      have hallocf : sb.bitmap f.block = true :=
        halloc _ (List.mem_append_left _ hmemf)
      have hnodesorted : Sorted (A ++ e :: child :: C) := by
        have hassoc : descend sb.bnodes P ++ A ++ e :: child :: (C ++ descend sb.bnodes Q) =
            descend sb.bnodes P ++ ((A ++ e :: child :: C) ++ descend sb.bnodes Q) := by simp
        exact (hassoc ▸ hsorted).right.left
      rw [insertLevels]
      split
      case isTrue hroom =>
        refine Ensures.bind_ok (insertIndex_spec (s := ⟨f.block, snext⟩) hnode hnext hdirtyf keep) ?_
        obtain ⟨hup', -, hbelow, hP, hQ, hlevel⟩ := hup.edit hdistinct.pred (A ++ e :: child :: C)
        have hroom : (A ++ e :: C).length < sb.entriesPerNode := hnode ▸ hroom
        refine ⟨?_, ?_, ?_, rfl, ?_, ?_, [.bnodeAdd f.block child.block child.key], [],
          ((Grown.refl sb).setBnode _ _).withLog _, ?_, ?_, rfl, rfl,
          fun _ _ hb => absurd hb List.not_mem_nil, fun _ hunify P hP => ?_⟩
        · exact hlevel.trans (by simp)
        · refine ⟨P, f, Q, keepPre keep A e, keepPost keep child C, hup', rfl, ?_, rfl, ?_, ?_⟩
          · exact (Function.update_self _ _ _).trans (keep_split keep A e child C)
          · exact (keepPre_append ..).symm.trans (congrArg (· ++ keepPre keep A e) hP.symm)
          · exact (keepPost_append ..).symm.trans (congrArg (keepPost keep child C ++ ·) hQ.symm)
        · refine hokup.edit hup hdistinct.pred hbeside ?_ ?_
          · rw [← hf.head, hnode]
            cases A <;> simp
          · simp only [List.length_append, List.length_cons] at hroom ⊢
            omega
        · intro s hs
          rcases List.mem_cons.mp hs with rfl | hs
          · exact hdirtyf
          · exact hdirty s (List.mem_cons_of_mem _ hs)
        · intro _ hunify s hs
          rcases List.mem_cons.mp hs with rfl | hs
          · exact hunify ⟨f.block, snext⟩ (by simp)
          · exact hunify s (List.mem_cons_of_mem _ hs)
        · exact .of_eq hbelow
        · intro b hb _
          exact Function.update_of_ne (fun hbf => hb (by rw [hbf]; exact hmemf)) _ _
        · exact insertIndex_simulates (s := ⟨f.block, snext⟩) hnode hnodesorted hroom
            (hP f.block (by simp)) (hunify f.block (by simp))
      case isFalse hroom =>
        have hcapf := hf.length_le
        rw [hnode] at hcapf
        have hfull : (A ++ e :: C).length = sb.entriesPerNode := by
          have hroom : ¬(sb.bnodes f.block).length < sb.entriesPerNode := hroom
          rw [hnode] at hroom
          omega
        refine (insertSplit_spec (s := ⟨f.block, snext⟩) hnode hnext hcap hfull hdirtyf hallocf
          hnodesorted keep).bind ?_
        rintro ⟨sb', s', split, isLeft⟩ ⟨left, right, hsplit, hl, hr, hlkey, hrkey, hmiddle,
          hgrown, hbl, hbr, hother, hreplays, hcursor⟩
        have hhead := hf.head
        rw [hnode] at hhead
        have hfree : sb.bitmap split.block = false := hgrown.free _ (by simp)
        have hne : ∀ b ∈ blocksBelow sb.bnodes root.entry (up.length + 1), b ≠ split.block := by
          rintro b hb rfl
          rw [halloc _ (List.mem_append_left _ hb)] at hfree
          cases hfree
        have habove : ∀ b ∈ blocksBelow sb.bnodes root.entry up.length,
            sb'.bnodes b = sb.bnodes b := fun b hb =>
          hother b (fun hbf => (hup.fresh hdistinct.pred).1 ((show b = f.block from hbf) ▸ hb))
            (hne b (List.mem_append_left _ hb))
        have hbelow : blocksBelow sb'.bnodes root.entry (up.length + 1) =
            blocksBelow sb.bnodes root.entry (up.length + 1) :=
          blocksBelow_congr habove (Nat.le_refl _)
        have hrowsorted : Sorted (descend sb.bnodes (P ++ f :: Q)) := by
          rw [descend_append, descend_cons, hnode]
          refine List.Pairwise.sublist ?_ hsorted
          simp
        have hsep : Sorted (P ++ f :: split :: Q) := by
          obtain ⟨a, as, hcons, m, hm, hkey⟩ := hmiddle
          exact sorted_split hrowsorted hrow (hnode.trans hcons) hm hkey
        refine (ih ?_ (hup.congr habove) ?_ hsep ?_ ?_ ?_ (hne _ hmemf) ?_).bind ?_
        · rw [hgrown.entriesPerNode_eq]
          exact hcap
        · intro m hm g hg
          rw [level_congr habove (by omega)] at hg
          rw [hgrown.entriesPerNode_eq]
          exact (hokup m hm g hg).congr (habove _ (mem_blocksBelow_of_mem_level hm hg))
        · rw [Distinct, hbelow]
          exact hdistinct.pred
        · intro b hb
          rw [hbelow] at hb
          exact (hgrown.bitmap_eq b).mpr (.inl (halloc b (List.mem_append_left _ hb)))
        · exact fun s hs => hgrown.dirty_of_dirty (hdirty s (List.mem_cons_of_mem _ hs))
        · rcases hcursor with ⟨rfl, rfl, -⟩ | ⟨rfl, A', rfl, -⟩
          · rfl
          · rfl
        · rintro ⟨sb'', root', up'⟩ hrec
          exact Inserted.split rfl hup hnode hok hdistinct.pred
            (fun b hb => halloc b (List.mem_append_left _ hb)) hsplit hl hr (hlkey.trans hhead)
            hrkey hgrown hbl hbr hother hcursor (hgrown.dirty_of_dirty hdirtyf) rfl
            hreplays hrec

/-! ## The whole insertion -/

section Insert

variable {sb : BtreeSb L} {root : Root} {cursor : Cursor} {pre post : List IndexEntry}
  {e : IndexEntry} {childkey leafblock : Nat}

/-- The new leaf stands after the leaf of the cursor, in a well-formed tree. -/
theorem insertLeaf_spec (hwf : WellFormed sb root) (hcap : 2 ≤ sb.entriesPerNode)
    (hloc : Located sb.bnodes root.entry cursor.path pre e post)
    (hlevel : cursor.path.length = root.depth) (hleaf : cursor.leaf = e.block)
    (hthis : e.key < childkey) (hnext : childkey < headKey post)
    (hfresh : leafblock ∉ treeBlocks sb root) (halloc : sb.bitmap leafblock = true)
    (hdirty : ∀ s ∈ cursor.path, sb.state s.block ≠ .clean) (keep : Bool) :
    Ensures (· = .enospc) (insertLeaf sb root cursor childkey leafblock keep)
      fun (sb', root', cursor') =>
        Inserted sb root cursor.path pre e ⟨childkey, leafblock⟩ post keep sb' root' cursor'.path ∧
          WellFormed sb' root' ∧ cursor'.path.length = root'.depth ∧
          cursor'.leaf = (keepEntry keep e ⟨childkey, leafblock⟩).block ∧
          cursorCheck sb' root' cursor'.path cursor'.leaf = .ok () := by
  have hleaves : treeLeaves sb root = pre ++ e :: post := by
    rw [treeLeaves, ← hlevel, hloc.level]
  have hsortedold := hwf.sorted
  rw [hleaves] at hsortedold
  have hpost : ∀ q ∈ post, childkey < q.key := by
    intro q hq
    cases post with
    | nil => cases hq
    | cons q' post =>
        rcases List.mem_cons.mp hq with rfl | hq
        · exact hnext
        · exact hnext.trans (List.rel_of_pairwise_cons hsortedold.right.of_cons hq)
  have hlimit : childkey < tuxkeyLimit := by
    cases post with
    | nil => exact hnext
    | cons q post => exact hnext.trans (hwf.bounded q (by simp [hleaves]))
  have hsorted : Sorted (pre ++ e :: ⟨childkey, leafblock⟩ :: post) := by
    refine List.pairwise_append.mpr ⟨hsortedold.left, ?_, ?_⟩
    · refine List.pairwise_cons.mpr ⟨?_, List.pairwise_cons.mpr
        ⟨hpost, hsortedold.right.of_cons⟩⟩
      intro g hg
      rcases List.mem_cons.mp hg with rfl | hg
      · exact hthis
      · exact hsortedold.after g hg
    · intro p hp g hg
      have hpe := hsortedold.before p hp
      rcases List.mem_cons.mp hg with rfl | hg
      · exact hpe
      · rcases List.mem_cons.mp hg with rfl | hg
        · exact hpe.trans hthis
        · exact hpe.trans (hsortedold.after g hg)
  have hblocks : treeBlocks sb root = blocksBelow sb.bnodes root.entry (cursor.path.length + 1) := by
    rw [treeBlocks, hlevel]
  have hne : e.block ≠ leafblock := by
    rintro rfl
    refine hfresh (mem_blocksBelow_of_mem_level (Nat.lt_succ_self _) (e := e) ?_)
    exact (hleaves ▸ by simp : e ∈ treeLeaves sb root)
  have htop : (if keep then cursor.leaf else leafblock) =
      (keepEntry keep e ⟨childkey, leafblock⟩).block := by
    cases keep
    · rfl
    · exact hleaf
  refine (insertLevels_spec hcap hloc (hlevel ▸ hwf.nodes) hsorted
    (hlevel ▸ hwf.distinct) (hblocks ▸ hwf.allocated) hdirty hne htop).bind ?_
  rintro ⟨sb', root', path'⟩ hins
  obtain ⟨hlevel', hloc', hnodes', hdepth', hdirty', hunify', recs, new, hgrown, hperm, hrest⟩ :=
    hins
  have hdepth : path'.length = root'.depth := by
    have hdepth' : root'.depth + cursor.path.length = root.depth + path'.length := hdepth'
    omega
  have hcheck : cursorCheck sb' root' path' (if keep then cursor.leaf else leafblock) = .ok () := by
    refine cursorCheck_of_located hloc' ?_ (hlevel' ▸ hsorted) htop
    rw [hgrown.entriesPerNode_eq]
    exact hnodes'
  -- the blocks of the new tree
  have hperm' : (treeBlocks sb' root').Perm (new ++ leafblock :: treeBlocks sb root) := by
    rw [List.perm_iff_count]
    intro b
    have hcount := hperm.count_eq b
    simp only [treeBlocks, ← hdepth, ← hlevel, blocksBelow, hlevel', hloc.level, List.map_append,
      List.map_cons, List.count_append, List.count_cons] at hcount ⊢
    omega
  have hold : ∀ b ∈ leafblock :: treeBlocks sb root, sb.bitmap b = true := by
    intro b hb
    rcases List.mem_cons.mp hb with rfl | hb
    · exact halloc
    · exact hwf.allocated b hb
  refine Ensures.bind_ok hcheck ?_
  refine ⟨⟨hlevel', hloc', hnodes', hdepth', hdirty', hunify', recs, new, hgrown, hperm, hrest⟩,
    ⟨?_, ?_, ?_, ?_, ?_, ?_⟩, hdepth, htop, hcheck⟩
  · by_contra hzero
    have hpath : path'.length = 0 := by omega
    have hlen := congrArg List.length hlevel'
    rw [hpath, level] at hlen
    simp only [List.length_append, List.length_cons, List.length_nil] at hlen
    omega
  · rw [hgrown.entriesPerNode_eq, ← hdepth]
    exact hnodes'
  · rw [treeLeaves, ← hdepth]
    exact hlevel' ▸ hsorted
  · intro g hg
    rw [treeLeaves, ← hdepth] at hg
    have hg : g ∈ pre ++ e :: ⟨childkey, leafblock⟩ :: post := hlevel' ▸ hg
    rcases List.mem_append.mp hg with hg | hg
    · exact hwf.bounded g (by simp [hleaves, hg])
    · rcases List.mem_cons.mp hg with rfl | hg
      · exact hwf.bounded g (by simp [hleaves])
      · rcases List.mem_cons.mp hg with rfl | hg
        · exact hlimit
        · exact hwf.bounded g (by simp [hleaves, hg])
  · refine hperm'.nodup_iff.mpr (List.nodup_append.mpr ⟨hgrown.nodup, ?_, ?_⟩)
    · exact List.nodup_cons.mpr ⟨hfresh, hwf.distinct⟩
    · rintro a ha b hb rfl
      have hset := hold a hb
      rw [hgrown.free a ha] at hset
      cases hset
  · intro b hb
    rw [hgrown.bitmap_eq]
    rcases List.mem_append.mp (hperm'.mem_iff.mp hb) with hb | hb
    · exact .inr hb
    · exact .inl (hold b hb)

/-- `insert_leaf` puts the new leaf right after the leaf of the cursor, and the cursor
ends at the one or the other.  The nodes of the path are dirty, as after
`cursor_redirect`, and the new leaf is allocated, as after `new_leaf`. -/
theorem insertLeaf_inserts (hwf : WellFormed sb root) (hcap : 2 ≤ sb.entriesPerNode)
    (hcheck : cursorCheck sb root cursor.path cursor.leaf = .ok ())
    (hlevel : cursor.path.length = root.depth)
    (hthis : ∃ this, cursorThisKey sb cursor.path = .ok this ∧ this < childkey)
    (hnext : childkey < cursorNextKey sb cursor.path)
    (hfresh : leafblock ∉ treeBlocks sb root) (halloc : sb.bitmap leafblock = true)
    (hdirty : ∀ s ∈ cursor.path, sb.state s.block ≠ .clean) (keep : Bool)
    (hspace : insertLeaf sb root cursor childkey leafblock keep ≠ .error .enospc) :
    ∃ sb' root' cursor' pre e post,
      insertLeaf sb root cursor childkey leafblock keep = .ok (sb', root', cursor') ∧
        WellFormed sb' root' ∧
        treeLeaves sb root = pre ++ e :: post ∧ e.block = cursor.leaf ∧
        treeLeaves sb' root' = pre ++ e :: ⟨childkey, leafblock⟩ :: post ∧
        cursorCheck sb' root' cursor'.path cursor'.leaf = .ok () ∧
        cursor'.path.length = root'.depth ∧
        cursor'.leaf = (if keep then cursor.leaf else leafblock) := by
  obtain ⟨pre, e, post, hloc, hleaf⟩ := cursorCheck_located hcheck
  obtain ⟨this, hkey, hlt⟩ := hthis
  have hthis : e.key < childkey := by
    cases hpath : cursor.path with
    | nil => simp [hpath, cursorThisKey] at hkey
    | cons s up =>
        rw [hpath, cursorThisKey_of_located (hpath ▸ hloc)] at hkey
        cases hkey
        exact hlt
  rw [cursorNextKey_of_located hloc (hlevel ▸ hwf.nodes)] at hnext
  obtain ⟨⟨sb', root', cursor'⟩, hok, hins, hwf', hdepth, hleaf', hcheck'⟩ :=
    (insertLeaf_spec hwf hcap hloc hlevel hleaf hthis hnext hfresh halloc hdirty keep).exists_ok
      fun err herr => herr ▸ hspace
  refine ⟨sb', root', cursor', pre, e, post, hok, hwf', ?_, hleaf.symm, ?_, hcheck', hdepth, ?_⟩
  · rw [treeLeaves, ← hlevel, hloc.level]
  · rw [treeLeaves, ← hdepth, hins.level_eq]
  · rw [hleaf', hleaf]
    cases keep <;> rfl

/-- A volume with a full root bnode in block 1 over the leaves in blocks 2 and 3, and a
new leaf in block 4. -/
def fullRootSb : BtreeSb Unit where
  entriesPerNode := 2
  bnodes := fun b => if b = 1 then [⟨0, 2⟩, ⟨5, 3⟩] else []
  leaves := fun _ => ()
  bitmap := fun b => decide (b < 5)
  freeblocks := 10
  answers := [5, 6]
  bfreed := []
  state := fun b => if b = 1 then .unify else .delta
  defree := []
  deunify := []
  log := []

theorem fullRootSb_wellFormed : WellFormed fullRootSb ⟨1, 1⟩ where
  depth_pos := by decide
  nodes := by
    intro m hm e he
    obtain rfl : m = 0 := Nat.lt_one_iff.mp hm
    rw [List.mem_singleton.mp he]
    exact ⟨rfl, by decide⟩
  sorted := by
    unfold Sorted
    decide
  bounded := by decide
  distinct := by
    unfold Distinct
    decide
  allocated := by decide

/-- The root splits, and a new root goes over the halves. -/
theorem insertLeaf_inserts_fullRoot :
    ∃ sb' root' cursor' pre e post,
      insertLeaf fullRootSb ⟨1, 1⟩ ⟨2, [⟨1, 1⟩]⟩ 3 4 false = .ok (sb', root', cursor') ∧
        WellFormed sb' root' ∧
        treeLeaves fullRootSb ⟨1, 1⟩ = pre ++ e :: post ∧ e.block = 2 ∧
        treeLeaves sb' root' = pre ++ e :: ⟨3, 4⟩ :: post ∧
        cursorCheck sb' root' cursor'.path cursor'.leaf = .ok () ∧
        cursor'.path.length = root'.depth ∧
        cursor'.leaf = (if false then 2 else 4) := by
  have hok : (insertLeaf fullRootSb ⟨1, 1⟩ ⟨2, [⟨1, 1⟩]⟩ 3 4 false).isOk = true := by decide
  refine insertLeaf_inserts fullRootSb_wellFormed (by decide) rfl rfl ⟨0, rfl, by decide⟩ (by decide) (by decide) rfl
    (by decide) false fun herr => ?_
  rw [herr] at hok
  exact Bool.noConfusion hok

end Insert

end Tux3
