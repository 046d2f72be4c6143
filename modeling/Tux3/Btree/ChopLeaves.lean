/-
  Btree/ChopLeaves.lean --- the walk of `btree_chop` over the leaves.

  What the walk does to the leaves is what `chopRow` does to the list of them: every leaf of
  the range is chopped, and merged into the one before it where that has room.  The index
  follows: the tree is well formed again whenever the cursor is at a leaf
  (`chopLeaves_spec`).
-/
import Tux3.Btree.Account
import Tux3.Btree.ChopNodes
import Tux3.Btree.ChopRow

set_option autoImplicit false

namespace Tux3

open IndexForest
open Outcome (Ensures bind_eq_ok bind_of_ok)

variable {L : Type}

/-! ## The leaves of the tree -/

/-- The leaves that a sequence of entries points to, under their keys. -/
def leafRow (sb : BtreeSb L) (seq : List IndexEntry) : List (Nat × L) :=
  seq.map fun e => (e.key, sb.leaves e.block)

section

variable {sb sb' : BtreeSb L} {seq : List IndexEntry}

@[simp] theorem leafRow_nil (sb : BtreeSb L) : leafRow sb [] = [] := rfl

@[simp] theorem leafRow_cons (sb : BtreeSb L) (e : IndexEntry) (seq : List IndexEntry) :
    leafRow sb (e :: seq) = (e.key, sb.leaves e.block) :: leafRow sb seq := rfl

@[simp] theorem leafRow_append (sb : BtreeSb L) (seq seq' : List IndexEntry) :
    leafRow sb (seq ++ seq') = leafRow sb seq ++ leafRow sb seq' := List.map_append

theorem leafRow_congr (h : ∀ e ∈ seq, sb'.leaves e.block = sb.leaves e.block) :
    leafRow sb' seq = leafRow sb seq :=
  List.map_congr_left fun e he => congrArg (Prod.mk e.key) (h e he)

@[simp] theorem rowKey_leafRow (sb : BtreeSb L) (seq : List IndexEntry) :
    rowKey (leafRow sb seq) = headKey seq := by
  cases seq with
  | nil => rfl
  | cons e seq => rfl

end

/-! ## One leaf -/

section

variable {ops : LeafOps L} {sb : BtreeSb L} {root : Root} {marks : Nat → Option Nat}
  {s : PathLevel} {up : List PathLevel} {pre post : List IndexEntry} {e : IndexEntry}

theorem freeSegments_eq (sb : BtreeSb L) (segs : List BlockSegment) :
    freeSegments sb segs = { sb with
      toVolSb := { sb.toVolSb with
        defree := sb.defree ++ segs
        log := sb.toVolSb.log ++ segs.map fun seg => .bfree seg.block seg.count } } := by
  induction segs generalizing sb with
  | nil => simp [freeSegments]
  | cons seg segs ih =>
      have hcons : freeSegments sb (seg :: segs) = freeSegments { sb with
          toVolSb := (sb.toVolSb.deferDefree seg).logRecord (.bfree seg.block seg.count) } segs := rfl
      rw [hcons, ih]
      simp [VolSb.deferDefree, VolSb.logRecord]

/-- What `leaf_chop` changes: the leaf, and the extents that it frees are deferred. -/
structure LeafChopped (sb : BtreeSb L) (block : Nat) (leaf : L) (sb' : BtreeSb L) (root : Root)
    (recs : List LogRecord) : Prop extends Ledger sb root sb' root recs where
  leaves_eq : sb'.leaves = Function.update sb.leaves block leaf
  bnodes_eq : sb'.bnodes = sb.bnodes
  bitmap_eq : sb'.bitmap = sb.bitmap
  state_eq : sb'.state = sb.state

theorem chopLeaf_spec (root : Root) {block start len : Nat} {leaf : L} {segs : List BlockSegment}
    (hchop : leafAfterChop ops start len (sb.leaves block) = .ok (leaf, segs))
    (hdirty : sb.state block ≠ .clean) :
    ∃ sb' recs, chopLeaf ops sb block start len = .ok sb' ∧
      LeafChopped sb block leaf sb' root recs ∧ Accounted sb.toVolSb segs sb'.toVolSb := by
  obtain ⟨r, hr, hleaf⟩ := bind_eq_ok.mp hchop
  unfold chopLeaf
  rw [bind_of_ok hr]
  cases r with
  | none =>
      cases hleaf
      exact ⟨sb, [], rfl, ⟨.refl sb root, (Function.update_eq_self _ _).symm, rfl, rfl, rfl⟩,
        .refl _⟩
  | some changed =>
      cases hleaf
      have hnone : ∀ (own : LogRecord → List Nat), (∀ seg : BlockSegment,
          own (.bfree seg.block seg.count) = []) →
          (segs.map fun seg => LogRecord.bfree seg.block seg.count).flatMap own = [] := by
        intro own hown
        rw [List.flatMap_map, List.flatMap_eq_nil_iff]
        exact fun seg _ => hown seg
      refine ⟨freeSegments (sb.setLeaf block leaf) segs,
        segs.map fun seg => .bfree seg.block seg.count, ?_, ?_,
        freeSegments_accounted (sb.setLeaf block leaf) segs⟩
      · have hnon : (freeSegments (sb.setLeaf block leaf) segs).toVolSb.markNon block = .ok () := by
          rw [freeSegments_eq]
          exact tuxAssert_of hdirty
        dsimp only
        rw [bind_of_ok hnon]
        rfl
      · rw [freeSegments_eq]
        refine ⟨⟨rfl, ?_, ?_, rfl⟩, rfl, rfl, rfl, rfl⟩
        · rw [hnone _ fun _ => rfl, hnone _ fun _ => rfl, hnone _ fun _ => rfl]
          exact .refl _
        · rw [hnone _ fun _ => rfl, List.append_nil]
          rfl

/-- The volume with the cursor of `btree_chop` at a leaf, copied for writing. -/
structure ChopLeafAt (sb : BtreeSb L) (root : Root) (marks : Nat → Option Nat) (s : PathLevel)
    (up : List PathLevel) (pre : List IndexEntry) (e : IndexEntry) (post : List IndexEntry) :
    Prop where
  wellFormed : WellFormed sb root
  trail : Trail sb.bnodes root.entry marks (s :: up) pre e post
  depth_eq : root.depth = up.length + 1
  dirtyPath : ∀ t ∈ s :: up, sb.state t.block ≠ .clean
  dirtyLeaf : sb.state e.block ≠ .clean
  dirtyMarks : ∀ m ≤ root.depth, ∀ b, marks m = some b → sb.state b ≠ .clean

namespace ChopLeafAt

theorem treeLeaves_eq (h : ChopLeafAt sb root marks s up pre e post) :
    treeLeaves sb root = pre ++ e :: post := by
  rw [treeLeaves, h.depth_eq]
  exact h.trail.located.level

theorem sorted (h : ChopLeafAt sb root marks s up pre e post) : Sorted (pre ++ e :: post) :=
  h.treeLeaves_eq ▸ h.wellFormed.sorted

theorem nodes (h : ChopLeafAt sb root marks s up pre e post) :
    NodesOk sb.entriesPerNode sb.bnodes root.entry (up.length + 1) :=
  h.depth_eq ▸ h.wellFormed.nodes

theorem leaf_fresh (h : ChopLeafAt sb root marks s up pre e post) :
    e.block ∉ blocksBelow sb.bnodes root.entry root.depth ∧ e.block ∉ pre.map Entry.block ∧
      e.block ∉ post.map Entry.block := by
  have hdistinct := h.wellFormed.distinct
  rw [h.depth_eq] at hdistinct ⊢
  exact h.trail.located.fresh hdistinct

/-- The leaf before the cursor is no other one. -/
theorem before_ne {x : IndexEntry} (h : ChopLeafAt sb root marks s up (pre ++ [x]) e post) :
    ∀ y ∈ pre ++ post, y.block ≠ x.block := by
  have hdistinct := h.wellFormed.distinct
  rw [Distinct, blocksBelow, ← treeLeaves, h.treeLeaves_eq] at hdistinct
  have hrow := (List.nodup_append.mp hdistinct).2.1
  simp only [List.map_append, List.map_cons, List.append_assoc, List.singleton_append] at hrow
  have hrows := List.nodup_append.mp hrow
  intro y hy hyx
  rcases List.mem_append.mp hy with hy | hy
  · exact hrows.2.2 _ (List.mem_map_of_mem hy) x.block (by simp) hyx
  · refine (List.nodup_cons.mp hrows.2.1).1 (hyx ▸ ?_)
    exact List.mem_cons_of_mem _ (List.mem_map_of_mem hy)

/-- Only the contents of the leaf change. -/
theorem chopLeaf {sb' : BtreeSb L} {leaf : L} {recs : List LogRecord}
    (h : ChopLeafAt sb root marks s up pre e post)
    (hchopped : LeafChopped sb e.block leaf sb' root recs) :
    ChopLeafAt sb' root marks s up pre e post := by
  have hleaves : treeLeaves sb' root = treeLeaves sb root := by
    rw [treeLeaves, treeLeaves, hchopped.bnodes_eq]
  have hblocks : treeBlocks sb' root = treeBlocks sb root := by
    rw [treeBlocks, treeBlocks, hchopped.bnodes_eq]
  refine ⟨⟨h.wellFormed.depth_pos, ?_, hleaves ▸ h.wellFormed.sorted,
    hleaves ▸ h.wellFormed.bounded, ?_, fun b hb => ?_⟩, ?_, h.depth_eq, ?_, ?_, ?_⟩
  · rw [hchopped.bnodes_eq, hchopped.capacity]
    exact h.wellFormed.nodes
  · rw [hchopped.bnodes_eq]
    exact h.wellFormed.distinct
  · rw [hchopped.bitmap_eq]
    exact h.wellFormed.allocated b (hblocks ▸ hb)
  · rw [hchopped.bnodes_eq]
    exact h.trail
  all_goals rw [hchopped.state_eq]
  · exact h.dirtyPath
  · exact h.dirtyLeaf
  · exact h.dirtyMarks

/-- The leaf is passed, and marked. -/
theorem keep (h : ChopLeafAt sb root marks s up pre e post) (done : Prop) :
    ∃ P f Q A C, ChopOpen sb root (Function.update marks root.depth (some e.block)) 0 done s up
        P f Q (A ++ [e]) C ∧
      pre = descend sb.bnodes P ++ A ∧ post = C ++ descend sb.bnodes Q := by
  obtain ⟨P, f, Q, A, C, hgap, hpre, hpost⟩ := h.trail.pass h.nodes h.sorted
  have hseq : descend sb.bnodes P ++ (A ++ [e]) = pre ++ [e] := by rw [hpre, List.append_assoc]
  rw [← h.depth_eq] at hgap
  have hmark : Function.update marks root.depth (some e.block) (up.length + 1 + 0) =
      some e.block := by
    rw [Nat.add_zero, ← h.depth_eq]
    exact Function.update_self _ _ _
  refine ⟨P, f, Q, A, C, ⟨⟨hgap, fun i hi => absurd hi (Nat.not_lt_zero i), fun i hi => ?_,
    fun _ i hi => ?_⟩, h.depth_eq, h.wellFormed.sorted, h.wellFormed.bounded, h.wellFormed.distinct,
    h.wellFormed.allocated, h.dirtyPath, fun m hm b hb => ?_⟩, hpre, hpost⟩
  · obtain rfl := Nat.le_zero.mp hi
    exact ⟨e.block, hmark, List.mem_map_of_mem (by simp [descendN])⟩
  · obtain rfl := Nat.le_zero.mp hi
    intro b hb
    rw [hmark] at hb
    exact ⟨pre, e, hseq, Option.some.inj hb⟩
  · by_cases hlevel : m = root.depth
    · rw [hlevel, Function.update_self] at hb
      rw [← Option.some.inj hb]
      exact h.dirtyLeaf
    · rw [Function.update_of_ne hlevel] at hb
      exact h.dirtyMarks m hm b hb

/-- The leaf was merged into the marked one before it: its entry goes, and its block. -/
theorem merge (h : ChopLeafAt sb root marks s up pre e post) {prev : Nat}
    (hprev : marks root.depth = some prev) (leaf : L) (cii : Nat → ChoppedIndexInfo)
    (done : Prop) :
    ∃ sb₂ s' sb₃ recs P f Q A C,
      removeIndex (freeRedirected (sb.setLeaf prev leaf) e.block (.leafFree e.block)) cii s up =
        .ok (sb₂, collectIndex cii up.length e.key, s') ∧
      sb₂.toVolSb.markNon prev = .ok () ∧ putFreed sb₂ e.block = .ok sb₃ ∧
      ChopOpen sb₃ root marks 0 done s' up P f Q A C ∧
      pre = descend sb₃.bnodes P ++ A ∧ post = C ++ descend sb₃.bnodes Q ∧
      Ledger sb root sb₃ root recs ∧ sb₃.leaves = Function.update sb.leaves prev leaf := by
  have hdepth := h.depth_eq
  have hdistinct := h.wellFormed.distinct
  rw [hdepth] at hdistinct hprev
  let sb₁ : BtreeSb L := freeRedirected (sb.setLeaf prev leaf) e.block (.leafFree e.block)
  have htrail₁ : Trail sb₁.bnodes root.entry marks (s :: up) pre e post := h.trail
  have hnodes₁ : NodesOk sb₁.entriesPerNode sb₁.bnodes root.entry (up.length + 1) := h.nodes
  obtain ⟨sb₂, s', recs, hremove, hr⟩ := removeIndex_spec cii htrail₁ hnodes₁
    hdistinct.pred h.sorted (by rw [hprev]; exact Option.some_ne_none _) h.dirtyPath
  obtain ⟨P, f, Q, A, C, hgap, hpre, hpost⟩ := hr.gap
  have hvol : (sb.setLeaf prev leaf).toVolSb = sb.toVolSb := rfl
  obtain ⟨sb₃, hput, hfreed, hbnodes₃, hleaves₃⟩ := putFreed_spec hvol rfl hr.toEdited rfl rfl rfl
    h.dirtyLeaf
  rw [← hbnodes₃] at hgap hpre hpost
  obtain ⟨pre', p, hends, hp⟩ : ∃ pre' p, pre = pre' ++ [p] ∧ p.block = prev := by
    obtain ⟨_, _, _, _, _, -, -, -, -, -, -, hends, -⟩ := h.trail
    exact hends prev hprev
  have hopen : OpenForest sb.entriesPerNode sb₃.bnodes root.entry marks 0 done s' up P f Q A C := by
    refine ⟨hgap, fun i hi => absurd hi (Nat.not_lt_zero i), fun i hi => ?_, fun _ i hi => ?_⟩
    · obtain rfl := Nat.le_zero.mp hi
      rw [← hpre]
      refine ⟨prev, hprev, ?_⟩
      rw [← hp, hends]
      exact List.mem_map_of_mem (by simp [descendN])
    · obtain rfl := Nat.le_zero.mp hi
      rw [← hpre]
      exact fun b hb => ⟨pre', p, hends, hp.trans (Option.some.inj (hprev.symm.trans hb))⟩
  have hlevel : level sb₃.bnodes root.entry (up.length + 1) = pre ++ post := by
    rw [hgap.level, ← hpre, ← hpost]
  have hleaves : treeLeaves sb₃ root = pre ++ post := by rw [treeLeaves, hdepth, hlevel]
  have hperm : (e.block :: treeBlocks sb₃ root).Perm (treeBlocks sb root) := by
    have hold : treeBlocks sb root = blocksBelow sb.bnodes root.entry (up.length + 1) ++
        (pre ++ e :: post).map Entry.block := by
      rw [← h.treeLeaves_eq, treeLeaves, ← hdepth]
      rfl
    have hnew : treeBlocks sb₃ root = blocksBelow sb.bnodes root.entry (up.length + 1) ++
        (pre ++ post).map Entry.block := by
      rw [← hlevel, ← show blocksBelow sb₃.bnodes root.entry (up.length + 1) =
        blocksBelow sb.bnodes root.entry (up.length + 1) from hbnodes₃ ▸ hr.below, treeBlocks, hdepth]
      rfl
    rw [hold, hnew, List.map_append, List.map_append, List.map_cons, ← List.append_assoc,
      ← List.append_assoc]
    exact List.perm_middle.symm
  have hbounded : ∀ x ∈ pre ++ e :: post, x.key < tuxkeyLimit :=
    h.treeLeaves_eq ▸ h.wellFormed.bounded
  refine ⟨sb₂, s', sb₃, _, P, f, Q, A, C, hremove, ?_, hput, hfreed.chopOpen hperm hopen hdepth
    (hleaves ▸ h.sorted.remove) (fun x hx => hbounded x ?_) h.wellFormed.distinct
    h.wellFormed.allocated (fun t ht => ?_) h.dirtyMarks, hpre, hpost, hfreed.ledger hperm,
    hleaves₃.trans hr.leaves_eq⟩
  · refine tuxAssert_of ?_
    rw [hr.state_eq]
    exact h.dirtyMarks root.depth (Nat.le_refl _) prev (hdepth ▸ hprev)
  · exact mem_append_cons_of_mem (hleaves ▸ hx)
  · rcases List.mem_cons.mp ht with rfl | ht
    · rw [hr.block_eq]
      exact h.dirtyPath s (by simp)
    · exact h.dirtyPath t (by simp [ht])

end ChopLeafAt

/-- What `btree_chop` has after a leaf: the index is open behind what the leaf became. -/
structure LeafJoined (st : ChopState L) (root : Root) (done : Prop) (up : List PathLevel)
    (front out : List (Nat × L)) (cur : Nat × L) (post : List IndexEntry) (st' : ChopState L)
    (s' : PathLevel) : Prop where
  ledger : ∃ recs, Ledger st.sb root st'.sb root recs
  marked : st'.leafprev ≠ none
  place : ∃ P f Q A C, ChopOpen st'.sb root (st'.marks root.depth) 0 done s' up P f Q A C ∧
    post = C ++ descend st'.sb.bnodes Q ∧
    leafRow st'.sb (descend st'.sb.bnodes P ++ A) = front ++ (out ++ [cur])
  rest : leafRow st'.sb post = leafRow st.sb post

/-- The leaf stays. -/
theorem ChopLeafAt.joined_keep {st : ChopState L} {front : List (Nat × L)} {prev : Option (Nat × L)}
    (h : ChopLeafAt st.sb root (st.marks root.depth) s up pre e post)
    (hpre : leafRow st.sb pre = front ++ prev.toList) (done : Prop) :
    LeafJoined st root done up front prev.toList (e.key, st.sb.leaves e.block) post
      { st with leafprev := some e.block } s := by
  obtain ⟨P, f, Q, A, C, hopen, hP, hQ⟩ := h.keep done
  have hmarks : ({ st with leafprev := some e.block } : ChopState L).marks root.depth =
      Function.update (st.marks root.depth) root.depth (some e.block) :=
    (Function.update_idem _ _ _).symm
  refine ⟨⟨[], .refl _ _⟩, Option.some_ne_none _, ⟨P, f, Q, A ++ [e], C, ?_, hQ, ?_⟩, rfl⟩
  · rw [hmarks]
    exact hopen
  · rw [← List.append_assoc, ← hP, leafRow_append]
    show leafRow st.sb pre ++ _ = _
    rw [hpre, List.append_assoc]
    rfl

theorem mergeLeaf_spec {st : ChopState L} {front out : List (Nat × L)}
    {prev : Option (Nat × L)} {cur : Nat × L}
    (h : ChopLeafAt st.sb root (st.marks root.depth) s up pre e post)
    (hpre : leafRow st.sb pre = front ++ prev.toList) (hprev : prev = none ↔ st.leafprev = none)
    (hjoin : joinLeaf ops prev (e.key, st.sb.leaves e.block) = .ok (out, cur)) (done : Prop) :
    ∃ st' s', mergeLeaf ops st e.block s up = .ok (st', s') ∧
      LeafJoined st root done up front out cur post st' s' := by
  cases hleafprev : st.leafprev with
  | none =>
      obtain rfl := hprev.mpr hleafprev
      cases hjoin
      refine ⟨_, _, ?_, h.joined_keep hpre done⟩
      unfold mergeLeaf
      rw [hleafprev]
      rfl
  | some block =>
      have hmarkDepth : st.marks root.depth root.depth = some block :=
        (st.marks_depth root.depth).trans hleafprev
      obtain ⟨p, rfl⟩ := Option.ne_none_iff_exists'.mp fun hnil => by
        rw [hprev.mp hnil] at hleafprev
        cases hleafprev
      obtain ⟨pre', x, rfl, rfl⟩ : ∃ pre' x, pre = pre' ++ [x] ∧ x.block = block := by
        obtain ⟨_, _, _, _, _, -, -, -, -, -, -, hends, -⟩ := h.trail
        exact hends block (h.depth_eq ▸ hmarkDepth)
      have hsplit : leafRow st.sb pre' = front ∧ (x.key, st.sb.leaves x.block) = p := by
        rw [leafRow_append] at hpre
        obtain ⟨hfront, hlast⟩ := List.append_inj' hpre rfl
        exact ⟨hfront, List.head_eq_of_cons_eq hlast⟩
      obtain ⟨hfront, rfl⟩ := hsplit
      obtain ⟨merged, hmerge, hjoin⟩ := bind_eq_ok.mp hjoin
      have hmerge : ops.leafMerge (st.sb.leaves x.block) (st.sb.leaves e.block) = .ok merged :=
        hmerge
      cases merged with
      | none =>
          cases hjoin
          refine ⟨_, _, ?_, h.joined_keep hpre done⟩
          unfold mergeLeaf tryLeafMerge
          rw [hleafprev]
          dsimp only
          rw [hmerge]
          rfl
      | some leaf =>
          cases hjoin
          obtain ⟨sb₂, s', sb₃, recs, P, f, Q, A, C, hremove, hnon, hput, hopen, hP, hQ, hledger,
            hleaves⟩ := h.merge hmarkDepth leaf st.cii done
          let st' : ChopState L := { st with sb := sb₃, cii := collectIndex st.cii up.length e.key }
          have hother : ∀ y ∈ pre' ++ post, sb₃.leaves y.block = st.sb.leaves y.block := by
            intro y hy
            rw [hleaves]
            exact Function.update_of_ne (h.before_ne y hy) _ _
          refine ⟨st', s', ?_, ⟨⟨recs, hledger⟩, by rw [hleafprev]; exact Option.some_ne_none _,
            ⟨P, f, Q, A, C, hopen, hQ, ?_⟩, ?_⟩⟩
          · have htry : tryLeafMerge ops st.sb x.block e.block = .ok
                (some (freeRedirected (st.sb.setLeaf x.block leaf) e.block (.leafFree e.block))) := by
              unfold tryLeafMerge
              rw [bind_of_ok hmerge]
              rfl
            unfold mergeLeaf
            rw [hleafprev]
            dsimp only
            rw [bind_of_ok htry]
            dsimp only
            rw [bind_of_ok hremove]
            dsimp only
            rw [bind_of_ok hnon, bind_of_ok hput, ← hleafprev]
            rfl
          · rw [← hP, leafRow_append, leafRow_congr fun y hy => hother y (by simp [hy]), hfront]
            have hx : st'.sb.leaves x.block = leaf := by
              show sb₃.leaves x.block = leaf
              rw [hleaves, Function.update_self]
            simp [hx]
          · exact leafRow_congr fun y hy => hother y (by simp [hy])

/-! ## The next leaf -/

/-- The next key of an open path is that of the entry behind the place. -/
theorem ChopOpen.nextKey {n : Nat} {done : Prop} {P Q A C : List IndexEntry} {f : IndexEntry}
    (h : ChopOpen sb root marks n done s up P f Q A C) :
    cursorNextKey sb (s :: up) = headKey (C ++ descend sb.bnodes Q) := by
  have hget : (sb.bnodes s.block)[s.next]? = C.head? := by
    rw [h.block_eq, h.node_eq, h.next_eq, List.getElem?_append_right (Nat.le_refl _)]
    simp [List.head?_eq_getElem?]
  rw [cursorNextKey, hget]
  cases C with
  | nil =>
      simp only [List.head?_nil, List.nil_append]
      rw [cursorNextKey_of_located h.trail.located h.above,
        headKey_descend fun q hq => h.beside q (List.mem_append_right _ hq)]
  | cons c C => rfl

/-- Down the leftmost entries to the leaf behind the place, with the marks of the levels
passed. -/
theorem advanceToLeaf_trail {below : Nat} {P Q A C : List IndexEntry} {f c : IndexEntry}
    (hup : Trail sb.bnodes root.entry marks up P f Q) (hblock : s.block = f.block)
    (hnode : sb.bnodes f.block = A ++ c :: C) (hnext : s.next = A.length)
    (hfirst : A = [] → marks up.length ≠ none)
    (hok : NodesOk sb.entriesPerNode sb.bnodes root.entry (up.length + 1 + below))
    (hsorted : Sorted (level sb.bnodes root.entry (up.length + 1 + below)))
    (hends : EndsMarked sb.bnodes marks (up.length + 1) below (descend sb.bnodes P ++ A))
    (hmarked : ∀ i ≤ below, marks (up.length + 1 + i) ≠ none) :
    ∃ path e' post', advanceToLeaf sb root below s up = .ok ⟨e'.block, path⟩ ∧
      Trail sb.bnodes root.entry marks path
        (descendN sb.bnodes below (descend sb.bnodes P ++ A)) e' post' ∧
      path.length = up.length + 1 + below ∧
      e' :: post' = descendN sb.bnodes below (c :: C ++ descend sb.bnodes Q) := by
  induction below generalizing s up P f Q A c C with
  | zero =>
      obtain ⟨hdown, -⟩ := cursorAdvanceDown_of_located hup.located hblock hnode hnext hok hsorted
      refine ⟨⟨s.block, s.next + 1⟩ :: up, c, C ++ descend sb.bnodes Q, ?_,
        ⟨P, f, Q, A, C, hup, hblock, hnode, by simp only [hnext], rfl, rfl, hends 0 (Nat.le_refl 0),
          fun hA _ => hfirst hA⟩, rfl, rfl⟩
      unfold advanceToLeaf
      rw [bind_of_ok hdown]
      rfl
  | succ below ih =>
      have hokrow : NodesOk sb.entriesPerNode sb.bnodes root.entry (up.length + 1) :=
        fun m hm => hok m (by omega)
      obtain ⟨hdown, -⟩ := cursorAdvanceDown_of_located hup.located hblock hnode hnext hokrow
        (sorted_level hsorted hok (by omega))
      have hdowntrail : Trail sb.bnodes root.entry marks (⟨s.block, s.next + 1⟩ :: up)
          (descend sb.bnodes P ++ A) c (C ++ descend sb.bnodes Q) :=
        ⟨P, f, Q, A, C, hup, hblock, hnode, by simp only [hnext], rfl, rfl,
          hends 0 (Nat.zero_le _), fun hA _ => hfirst hA⟩
      have hchild : NodeOk sb.entriesPerNode sb.bnodes c := by
        refine hok (up.length + 1) (by omega) c ?_
        have hlevel := hdowntrail.located.level
        rw [List.length_cons] at hlevel
        simp [hlevel]
      obtain ⟨c', C', hnode', -⟩ := hchild.cons
      have hlen : (Step.mk s.block (s.next + 1) :: up).length + 1 + below =
          up.length + 1 + (below + 1) := by
        rw [List.length_cons]
        omega
      have hends' : EndsMarked sb.bnodes marks ((Step.mk s.block (s.next + 1) :: up).length + 1)
          below (descend sb.bnodes (descend sb.bnodes P ++ A) ++ []) := by
        intro i hi
        have hbelow := hends (i + 1) (Nat.succ_le_succ hi)
        rw [descendN] at hbelow
        rw [List.length_cons, List.append_nil, show up.length + 1 + 1 + i = up.length + 1 + (i + 1)
          by omega]
        exact hbelow
      obtain ⟨path, e', post', hleaf, htrail, hlength, hpost⟩ :=
        ih (s := ⟨c.block, 0⟩) (A := []) hdowntrail rfl hnode' rfl
          (fun _ => hmarked 0 (Nat.zero_le _)) (hlen ▸ hok) (hlen ▸ hsorted) hends' fun i hi => by
            have := hmarked (i + 1) (Nat.succ_le_succ hi)
            rwa [show up.length + 1 + (i + 1) = up.length + 1 + 1 + i by omega] at this
      refine ⟨path, e', post', ?_, ?_, hlength.trans hlen, ?_⟩
      · unfold advanceToLeaf
        rw [bind_of_ok hdown]
        exact hleaf
      · rw [List.append_nil] at htrail
        exact htrail
      · rw [hpost, descendN, List.cons_append, List.cons_append, descend_cons, hnode',
          List.cons_append]

/-- Where the climb stops, the next leaf is the first one behind the place. -/
theorem PoppedTo.nextLeaf {done : Prop} {before after : List IndexEntry} {st : ChopState L}
    (h : PoppedTo root done before after st s up) :
    ∃ path e' post', WellFormed st.sb root ∧
      (∀ m ≤ root.depth, ∀ b, st.marks root.depth m = some b → st.sb.state b ≠ .clean) ∧
      advanceToLeaf st.sb root (root.depth - 1 - up.length) s up = .ok ⟨e'.block, path⟩ ∧
      Trail st.sb.bnodes root.entry (st.marks root.depth) path before e' post' ∧
      path.length = root.depth ∧ e' :: post' = after := by
  obtain ⟨hnot, n, P, f, Q, A, c, C, hopen, rfl, rfl⟩ := h
  have hwf : WellFormed st.sb root := hopen.wellFormed (by simp)
  have hdown : root.depth - 1 - up.length = n := by
    rw [hopen.depth_eq]
    omega
  obtain ⟨path, e', post', hleaf, htrail, hlength, hpost⟩ := advanceToLeaf_trail
    hopen.trail hopen.block_eq hopen.node_eq hopen.next_eq hopen.first
    (hopen.depth_eq ▸ hwf.nodes) (hopen.depth_eq ▸ hwf.sorted) (hopen.ends hnot) fun i hi => by
      obtain ⟨b, hb, -⟩ := hopen.marked i hi
      rw [hb]
      exact Option.some_ne_none b
  exact ⟨path, e', post', hwf, hopen.dirtyMarks, hdown.symm ▸ hleaf, htrail,
    hlength.trans hopen.depth_eq.symm, hpost⟩

/-! ## The walk -/

theorem CursorRedirected.ledger {root' : Root} {sb' : BtreeSb L} {path : List PathLevel}
    {cursor' : Cursor} {recs : List LogRecord}
    (h : CursorRedirected marks sb root path pre e post sb' root' cursor' recs) :
    Ledger sb root sb' root' recs := by
  refine ⟨h.log_eq, ?_, ?_, h.grown.entriesPerNode_eq⟩
  · rw [h.freed, List.append_nil]
    exact h.balance
  · rw [h.freed, List.append_nil]
    exact h.grown.bfreed_eq

/-- The path to a leaf was copied and the leaf chopped: the other leaves are as before. -/
theorem CursorRedirected.chopLeafAt {marks : Nat → Option Nat} {root₁ : Root} {sb₁ sb₂ : BtreeSb L}
    {path : List PathLevel} {leaf : Nat} {leaf' : L} {recs₁ recs₂ : List LogRecord}
    (hwf : WellFormed sb root) (htrail : Trail sb.bnodes root.entry marks path pre e post)
    (hlength : path.length = root.depth)
    (hdirty : ∀ m ≤ root.depth, ∀ b, marks m = some b → sb.state b ≠ .clean)
    (h₁ : CursorRedirected marks sb root path pre e post sb₁ root₁ ⟨leaf, s :: up⟩ recs₁)
    (h₂ : LeafChopped sb₁ leaf leaf' sb₂ root₁ recs₂) :
    ChopLeafAt sb₂ root₁ marks s up pre ⟨e.key, leaf⟩ post ∧
      leafRow sb₂ pre = leafRow sb pre ∧ leafRow sb₂ post = leafRow sb post ∧
      sb₂.leaves leaf = leaf' := by
  have hat : ChopLeafAt sb₁ root₁ marks s up pre ⟨e.key, leaf⟩ post :=
    ⟨h₁.wellFormed, h₁.trail, h₁.length.symm, h₁.dirty, h₁.leafDirty,
      fun m hm b hb => h₁.grown.dirty_of_dirty (hdirty m (h₁.depth ▸ hm) b hb)⟩
  have hother : ∀ x ∈ pre ++ post, sb₂.leaves x.block = sb.leaves x.block := by
    intro x hx
    obtain ⟨-, hfreshPre, hfreshPost⟩ := hat.leaf_fresh
    have hleaves : treeLeaves sb root = pre ++ e :: post := by
      rw [treeLeaves, ← hlength]
      exact htrail.located.level
    have hold : x.block ∈ treeBlocks sb root :=
      mem_blocksBelow_of_mem_level (Nat.lt_succ_self _)
        (by rw [← treeLeaves, hleaves]; exact mem_append_cons_of_mem hx)
    have hne : x.block ≠ leaf := by
      rintro rfl
      rcases List.mem_append.mp hx with hx | hx
      · exact hfreshPre (List.mem_map.mpr ⟨x, hx, rfl⟩)
      · exact hfreshPost (List.mem_map.mpr ⟨x, hx, rfl⟩)
    rw [h₂.leaves_eq, Function.update_of_ne hne]
    exact h₁.grown.leaves_eq _ (h₁.grown.not_new (hwf.allocated _ hold))
  refine ⟨hat.chopLeaf h₂, leafRow_congr fun x hx => hother x (List.mem_append_left _ hx),
    leafRow_congr fun x hx => hother x (List.mem_append_right _ hx), ?_⟩
  rw [h₂.leaves_eq, Function.update_self]

/-- What the walk ends with: the leaves of the tree are `row`, and every level has a mark. -/
structure ChopWalked (sb : BtreeSb L) (root : Root) (row : List (Nat × L))
    (segs : List BlockSegment) (st' : ChopState L) (root' : Root) : Prop where
  wellFormed : WellFormed st'.sb root'
  depth : root'.depth = root.depth
  ledger : ∃ recs, Ledger sb root st'.sb root' recs
  marked : Marked st'.sb.bnodes (st'.marks root'.depth) 0 root'.depth [root'.entry]
  dirty : ∀ m ≤ root'.depth, ∀ b, st'.marks root'.depth m = some b → st'.sb.state b ≠ .clean
  row : leafRow st'.sb (treeLeaves st'.sb root') = row
  accounted : Accounted sb.toVolSb segs st'.sb.toVolSb

theorem ChopWalked.mono {sb₁ : BtreeSb L} {root₁ root' : Root} {row : List (Nat × L)}
    {segs segs' : List BlockSegment} {st' : ChopState L} {recs : List LogRecord}
    (h : ChopWalked sb₁ root₁ row segs' st' root') (hledger : Ledger sb root sb₁ root₁ recs)
    (hdepth : root₁.depth = root.depth) (haccounted : Accounted sb.toVolSb segs sb₁.toVolSb) :
    ChopWalked sb root row (segs ++ segs') st' root' := by
  obtain ⟨recs', hledger'⟩ := h.ledger
  exact ⟨h.wellFormed, h.depth.trans hdepth, ⟨_, hledger.trans hledger'⟩, h.marked, h.dirty, h.row,
    haccounted.trans h.accounted⟩

theorem chopLeaves_spec {limit fuel start len : Nat} {st : ChopState L} {path : List PathLevel}
    {front row : List (Nat × L)} {segs : List BlockSegment} {prev : Option (Nat × L)}
    (hwf : WellFormed st.sb root)
    (htrail : Trail st.sb.bnodes root.entry (st.marks root.depth) path pre e post)
    (hlength : path.length = root.depth)
    (hdirty : ∀ m ≤ root.depth, ∀ b, st.marks root.depth m = some b → st.sb.state b ≠ .clean)
    (hpre : leafRow st.sb pre = front ++ prev.toList) (hprev : prev = none ↔ st.leafprev = none)
    (hrow : chopRow ops limit (leafRow st.sb (e :: post)) prev start len = .ok (row, segs))
    (hfuel : post.length < fuel) :
    Ensures (· = .enospc) (chopLeaves ops limit fuel st root ⟨e.block, path⟩ start len)
      fun (st', root') => ChopWalked st.sb root (front ++ row) segs st' root' := by
  induction fuel generalizing st root path pre e post front row segs prev start len with
  | zero => exact absurd hfuel (Nat.not_lt_zero _)
  | succ fuel ih =>
      unfold chopLeaves
      refine (cursorRedirect_spec hwf htrail hlength).run.bind ?_
      rintro ⟨sb₁, root₁, leaf₁, path₁⟩ ⟨hredirect, recs₁, h₁⟩
      have hdepth := h₁.depth
      have hmarks : st.marks root.depth = st.marks root₁.depth := by rw [hdepth]
      cases path₁ with
      | nil => exact absurd h₁.wellFormed.depth_pos (by rw [← h₁.length]; simp)
      | cons s up =>
          refine Ensures.bind_ok (cursorThisKey_of_located h₁.trail.located) ?_
          dsimp only
          -- the leaf, chopped
          rw [leafRow_cons, chopRow] at hrow
          dsimp only at hrow
          obtain ⟨⟨leaf', segs₁⟩, hchopped, hrow⟩ := bind_eq_ok.mp hrow
          rw [← h₁.leaf] at hchopped
          obtain ⟨sb₂, recs₂, hchop, h₂, haccounted₂⟩ := chopLeaf_spec root₁ hchopped h₁.leafDirty
          refine Ensures.bind_ok hchop ?_
          obtain ⟨hat, hpreRow, hpostRow, hleaf⟩ :=
            CursorRedirected.chopLeafAt hwf htrail hlength hdirty h₁ h₂
          let st₂ : ChopState L := { st with sb := sb₂ }
          have hat₂ : ChopLeafAt st₂.sb root₁ (st₂.marks root₁.depth) s up pre ⟨e.key, leaf₁⟩ post :=
            hmarks ▸ hat
          have hpre₂ : leafRow st₂.sb pre = front ++ prev.toList := hpreRow.trans hpre
          have hpost₂ : leafRow st₂.sb post = leafRow st.sb post := hpostRow
          have hleaf₂ : st₂.sb.leaves leaf₁ = leaf' := hleaf
          -- merged into the one before it, or not
          dsimp only at hrow
          obtain ⟨⟨out, cur⟩, hjoin, hrow⟩ := bind_eq_ok.mp hrow
          obtain ⟨st₃, s', hmerge, h₃⟩ := mergeLeaf_spec hat₂ hpre₂ hprev
            (hleaf₂.symm ▸ hjoin) (limit ≤ headKey post)
          obtain ⟨recs₃, hledger₃⟩ := h₃.ledger
          obtain ⟨P, f, Q, A, C, hopen₃, hpost₃, hrow₃⟩ := h₃.place
          have hrest₃ := h₃.rest
          rw [hpost₂] at hrest₃
          refine Ensures.bind_ok hmerge ?_
          have hnext : cursorNextKey st₃.sb (s' :: up) = headKey post := by
            rw [hopen₃.nextKey, ← hpost₃]
          dsimp only
          rw [hnext]
          -- the nodes that are finished
          obtain ⟨st₄, place, recs₄, hpop, hclimbed, hleafprev, hplace⟩ := popNodes_spec hopen₃
          refine Ensures.bind_ok hpop ?_
          have hledger : Ledger st.sb root st₄.sb root₁ (recs₁ ++ (recs₂ ++ (recs₃ ++ recs₄))) :=
            h₁.ledger.trans (h₂.toLedger.trans (hledger₃.trans hclimbed.toLedger))
          have haccounted : Accounted st.sb.toVolSb segs₁ st₄.sb.toVolSb := by
            have hbefore := (cursorRedirect_accounted hredirect).trans haccounted₂
            have hmerged : Accounted sb₂.toVolSb [] st₃.sb.toVolSb := mergeLeaf_accounted hmerge
            have hall := hbefore.trans (hmerged.trans_nil (popNodes_accounted hpop))
            rwa [List.nil_append, List.append_nil] at hall
          have hleaves₄ : ∀ seq, leafRow st₄.sb seq = leafRow st₃.sb seq := fun seq =>
            leafRow_congr fun x _ => congrFun hclimbed.leaves_eq x.block
          simp only [descendN] at hplace
          rw [← hpost₃] at hplace
          rw [rowKey_leafRow] at hrow
          cases place with
          | none =>
              -- the root was popped
              have hsegs : segs = segs₁ ∧ row = out ++ cur :: leafRow st.sb post := by
                by_cases hdone : limit ≤ headKey post
                · rw [if_pos hdone] at hrow
                  cases hrow
                  exact ⟨rfl, rfl⟩
                · rw [if_neg hdone, hplace.finished hdone] at hrow
                  rw [hplace.finished hdone]
                  cases hrow
                  exact ⟨List.append_nil _, rfl⟩
              refine ⟨hplace.wellFormed, hdepth, ⟨_, hledger⟩, hplace.marked, hplace.dirty, ?_,
                hsegs.1 ▸ haccounted⟩
              rw [hclimbed.treeLeaves_eq, hleaves₄, hopen₃.treeLeaves_eq, descendN, descendN, ← hpost₃,
                leafRow_append, hrow₃, hrest₃, List.append_assoc, List.append_assoc, hsegs.2]
              rfl
          | some place =>
              -- back down to the next leaf
              obtain ⟨s₄, up₄⟩ := place
              rw [if_neg hplace.notDone] at hrow
              obtain ⟨⟨row', segs'⟩, hrow', hrow⟩ := bind_eq_ok.mp hrow
              cases hrow
              obtain ⟨path₅, e₅, post₅, hwf₄, hdirty₄, hadvance, htrail₅, hlength₅, hpost₅⟩ :=
                hplace.nextLeaf
              refine Ensures.bind_ok hadvance ?_
              have hpre₅ : leafRow st₄.sb (descend st₃.sb.bnodes P ++ A) =
                  (front ++ out) ++ (some cur).toList := by
                rw [hleaves₄, hrow₃, List.append_assoc]
                rfl
              have hprev₅ : some cur = none ↔ st₄.leafprev = none :=
                iff_of_false (Option.some_ne_none _) (hleafprev ▸ h₃.marked)
              have hfuel₅ : post₅.length < fuel := by
                have hlen := congrArg List.length hpost₅
                rw [List.length_cons] at hlen
                omega
              rw [← hrest₃, ← hleaves₄, ← hpost₅] at hrow'
              refine (ih hwf₄ htrail₅ hlength₅ hdirty₄ hpre₅ hprev₅ hrow' hfuel₅).mono
                fun r hr => ?_
              rw [List.append_assoc] at hr
              exact hr.mono hledger hdepth haccounted

end

end Tux3
