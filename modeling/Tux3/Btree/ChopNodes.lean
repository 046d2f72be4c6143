/-
  Btree/ChopNodes.lean --- the index while `btree_chop` climbs.

  `remove_index` takes the entry of a merged child out of its node, which may be empty then;
  the first entry of a node takes the separators above it along.
-/
import Tux3.Btree.Chop
import Tux3.Lib.ForestGap

set_option autoImplicit false

namespace Tux3

open IndexForest
open Outcome (Ensures bind_eq_ok bind_of_ok)

variable {L : Type}

/-! ## `remove_index` -/

/-- The indexes counted for a level, with one more whose key is `key`. -/
def collectIndex (cii : Nat → ChoppedIndexInfo) (level key : Nat) : Nat → ChoppedIndexInfo :=
  Function.update cii level
    { start := if (cii level).count = 0 then key else (cii level).start
      count := (cii level).count + 1 }

/-- What `remove_index` does: the path is open where its entry `e` was. -/
structure IndexRemoved (marks : Nat → Option Nat) (sb : BtreeSb L) (root : Root) (s : PathLevel)
    (up : List PathLevel) (pre : List IndexEntry) (e : IndexEntry) (post : List IndexEntry)
    (sb' : BtreeSb L) (s' : PathLevel) (recs : List LogRecord) : Prop
    extends Edited sb sb' recs where
  gap : ∃ P f Q A C, GapAt sb.entriesPerNode sb'.bnodes root.entry marks s' up P f Q A C ∧
    pre = descend sb'.bnodes P ++ A ∧ post = C ++ descend sb'.bnodes Q
  block_eq : s'.block = s.block
  below : blocksBelow sb'.bnodes root.entry (up.length + 1) =
    blocksBelow sb.bnodes root.entry (up.length + 1)
  frame : ∀ b, b ∉ blocksBelow sb.bnodes root.entry (up.length + 1) → sb'.bnodes b = sb.bnodes b
  simulates : ∀ pend T, (∀ t ∈ s :: up, T t.block ∧ sb.state t.block = .unify) →
    (∀ t ∈ up, PendingBefore pend t) →
    ((pend s.block).run = [] ∨ (pend s.block).pos = s.next - 1) →
    Simulates sb pend T recs sb'
      (Function.update pend s.block ⟨s.next - 1, (pend s.block).run ++ [e]⟩)

section

variable {marks : Nat → Option Nat} {sb : BtreeSb L} {root : Root} {s : PathLevel}
  {up : List PathLevel} {pre post : List IndexEntry} {e : IndexEntry}

/-- The path is behind the entry `e` of the node of `f`; the entries beside `f` on its level
are `P` and `Q`. -/
structure AtIndex (marks : Nat → Option Nat) (sb : BtreeSb L) (root : Root) (s : PathLevel)
    (up : List PathLevel) (P : List IndexEntry) (f : IndexEntry) (Q A : List IndexEntry)
    (e : IndexEntry) (C : List IndexEntry) : Prop where
  trail : Trail sb.bnodes root.entry marks up P f Q
  block_eq : s.block = f.block
  node_eq : sb.bnodes f.block = A ++ e :: C
  next_eq : s.next = A.length + 1
  first : A = [] → marks up.length ≠ none
  above : NodesOk sb.entriesPerNode sb.bnodes root.entry up.length
  nodes : ∀ x ∈ P ++ f :: Q, NodeOk sb.entriesPerNode sb.bnodes x
  row : Sorted (P ++ f :: Q)
  distinct : Distinct sb.bnodes root.entry up.length

theorem atIndex_of_trail (htrail : Trail sb.bnodes root.entry marks (s :: up) pre e post)
    (hok : NodesOk sb.entriesPerNode sb.bnodes root.entry (up.length + 1))
    (hdistinct : Distinct sb.bnodes root.entry up.length)
    (hsorted : Sorted (pre ++ e :: post)) (hmark : marks (up.length + 1) ≠ none) :
    ∃ P f Q A C, AtIndex marks sb root s up P f Q A e C ∧ pre = descend sb.bnodes P ++ A ∧
      post = C ++ descend sb.bnodes Q := by
  obtain ⟨P, f, Q, A, C, hup, hblock, hnode, hnext, rfl, rfl, hends, hfirst⟩ := htrail
  have hrow : ∀ x ∈ P ++ f :: Q, NodeOk sb.entriesPerNode sb.bnodes x := fun x hx =>
    hok up.length (Nat.lt_succ_self _) x (hup.located.level ▸ hx)
  have hrows : Sorted (descend sb.bnodes (P ++ f :: Q)) := by
    rw [descend_append, descend_cons, hnode]
    simpa using hsorted
  exact ⟨P, f, Q, A, C, ⟨hup, hblock, hnode, hnext, fun hA => hfirst hA hmark,
    fun m hm => hok m (Nat.lt_succ_of_lt hm), hrow, Sorted.of_descend hrows hrow, hdistinct⟩,
    rfl, rfl⟩

namespace AtIndex

variable {f : IndexEntry} {P Q A C : List IndexEntry}

/-- The index around the node does not change when the node does. -/
theorem setBnode_of_above (h : AtIndex marks sb root s up P f Q A e C) (node : Bnode) :
    ∀ b ∈ blocksBelow sb.bnodes root.entry up.length,
      (sb.setBnode f.block node).bnodes b = sb.bnodes b := fun b hb =>
  Function.update_of_ne (fun hbf : b = f.block =>
    (h.trail.located.fresh h.distinct).1 (hbf ▸ hb)) _ _

theorem setBnode_of_beside (h : AtIndex marks sb root s up P f Q A e C) (node : Bnode) :
    ∀ x ∈ P ++ Q, (sb.setBnode f.block node).bnodes x.block = sb.bnodes x.block := by
  obtain ⟨-, hbefore, hafter⟩ := h.trail.located.fresh h.distinct
  intro x hx
  refine Function.update_of_ne (fun hxf => ?_) _ _
  rcases List.mem_append.mp hx with hx | hx
  · exact hbefore (hxf ▸ List.mem_map_of_mem hx)
  · exact hafter (hxf ▸ List.mem_map_of_mem hx)

theorem setBnode_trail (h : AtIndex marks sb root s up P f Q A e C) (node : Bnode) :
    Trail (sb.setBnode f.block node).bnodes root.entry marks up P f Q :=
  h.trail.congr (h.setBnode_of_above node) fun _ _ => rfl

theorem setBnode_nodes (h : AtIndex marks sb root s up P f Q A e C) (node : Bnode) :
    NodesOk sb.entriesPerNode (sb.setBnode f.block node).bnodes root.entry up.length := by
  have habove := h.setBnode_of_above node
  intro m hm x hx
  rw [level_congr habove (Nat.le_of_lt hm)] at hx
  exact (h.above m hm x hx).congr (habove _ (mem_blocksBelow_of_mem_level hm hx))

theorem setBnode_below (h : AtIndex marks sb root s up P f Q A e C) (node : Bnode) :
    blocksBelow (sb.setBnode f.block node).bnodes root.entry (up.length + 1) =
      blocksBelow sb.bnodes root.entry (up.length + 1) :=
  blocksBelow_congr (h.setBnode_of_above node) (Nat.le_refl _)

theorem setBnode_frame (h : AtIndex marks sb root s up P f Q A e C) (node : Bnode) {b : Nat}
    (hb : b ∉ blocksBelow sb.bnodes root.entry (up.length + 1)) :
    (sb.setBnode f.block node).bnodes b = sb.bnodes b := by
  refine Function.update_of_ne (fun hbf : b = f.block => hb ?_) _ _
  rw [hbf]
  exact mem_blocksBelow_of_mem_level (Nat.lt_succ_self _) (by simp [h.trail.located.level])

/-- The log of the node is behind by the entry. -/
theorem simulates (h : AtIndex marks sb root s up P f Q A e C) {pend : Nat → Pending}
    {T : Nat → Prop} (hunify : sb.state s.block = .unify)
    (hpos : (pend s.block).run = [] ∨ (pend s.block).pos = s.next - 1) :
    Simulates sb pend T [] (sb.setBnode f.block (A ++ C))
      (Function.update pend s.block ⟨s.next - 1, (pend s.block).run ++ [e]⟩) := by
  rw [h.block_eq, h.next_eq, Nat.add_sub_cancel] at hpos ⊢
  exact simulates_remove (h.block_eq ▸ hunify) h.node_eq hpos

theorem removeIndex_eq (h : AtIndex marks sb root s up P f Q A e C)
    (cii : Nat → ChoppedIndexInfo) (hdirty : sb.state s.block ≠ .clean) :
    removeIndex sb cii s up =
      let sb₁ := sb.setBnode f.block (A ++ C)
      let s₁ : PathLevel := { block := f.block, next := A.length }
      if up.length = 0 ∨ levelFinished sb₁ s₁ then
        .ok (sb₁, collectIndex cii up.length e.key, s₁)
      else if A.length ≠ 0 then .ok (sb₁, collectIndex cii up.length e.key, s₁)
      else (entryAt (A ++ C) A.length).bind fun first =>
        (adjustParentSep sb₁ up first.key).bind fun sb₂ =>
          .ok (sb₂, collectIndex cii up.length e.key, s₁) := by
  have hentry : entryBefore (sb.bnodes s.block) s.next = .ok e := by
    rw [h.block_eq, h.node_eq, h.next_eq, entryBefore_append]
  have hremove : bnodeRemoveIndex (sb.bnodes s.block) (s.next - 1) 1 = .ok (A ++ C) := by
    rw [h.block_eq, h.node_eq, h.next_eq]
    exact bnodeRemoveIndex_append A [e] C
  have hnon : (sb.setBnode s.block (A ++ C)).toVolSb.markNon s.block = .ok () :=
    tuxAssert_of hdirty
  unfold removeIndex
  rw [bind_of_ok hentry]
  dsimp only
  rw [bind_of_ok hremove, bind_of_ok hnon, h.next_eq, h.block_eq]
  rfl

/-- The entries that are left keep the separators above them right. -/
theorem kept (h : AtIndex marks sb root s up P f Q A e C) (hempty : A = [] → C = []) :
    IndexRemoved marks sb root s up (descend sb.bnodes P ++ A) e (C ++ descend sb.bnodes Q)
      (sb.setBnode f.block (A ++ C)) { block := f.block, next := A.length } [] := by
  have hself : (sb.setBnode f.block (A ++ C)).bnodes f.block = A ++ C :=
    Function.update_self _ _ _
  have hbeside := h.setBnode_of_beside (A ++ C)
  refine ⟨⟨rfl, (List.append_nil _).symm, rfl, rfl, rfl⟩, ⟨P, f, Q, A, C,
    ⟨h.setBnode_trail _, rfl, hself, rfl, h.first, h.setBnode_nodes _, ?_, ?_, h.row⟩, ?_, ?_⟩,
    h.block_eq.symm, h.setBnode_below _, fun b hb => h.setBnode_frame _ hb,
    fun pend T hpath _ hpos => h.simulates (hpath s List.mem_cons_self).2 hpos⟩
  · exact fun x hx => (h.nodes x (mem_append_cons_of_mem hx)).congr (hbeside x hx)
  · intro hne
    have hf := h.nodes f (by simp)
    obtain ⟨a, A', rfl⟩ : ∃ a A', A = a :: A' :=
      List.exists_cons_of_ne_nil fun hA => hne (by simp [hA, hempty hA])
    have hhead := hf.head
    have hlen := hf.length_le
    rw [h.node_eq] at hhead hlen
    refine ⟨by rw [hself]; simpa using hhead, ?_⟩
    rw [hself]
    simp only [List.length_append, List.length_cons] at hlen ⊢
    omega
  · rw [descend_congr_of_mem fun x hx => hbeside x (List.mem_append_left _ hx)]
  · rw [descend_congr_of_mem fun x hx => hbeside x (List.mem_append_right _ hx)]

/-- The separators above the first entry that is left. -/
theorem separators {c : IndexEntry} (h : AtIndex marks sb root s up P f Q [] e (c :: C))
    (hsorted : Sorted (e :: c :: C ++ descend sb.bnodes Q)) :
    f.key < c.key ∧ ∀ q ∈ Q, c.key < q.key := by
  have hkey : e.key = f.key := by
    have hhead := (h.nodes f (by simp)).head
    rw [h.node_eq] at hhead
    simpa using hhead
  obtain ⟨hlt, htail⟩ := List.pairwise_cons.mp hsorted
  refine ⟨hkey ▸ hlt c (by simp), fun q hq => ?_⟩
  obtain ⟨a, as, hqnode, hqkey⟩ := (h.nodes q (by simp [hq])).cons
  rw [← hqkey]
  refine (List.pairwise_cons.mp htail).1 a (List.mem_append_right _ ?_)
  exact List.mem_flatMap.mpr ⟨q, hq, by simp [hqnode]⟩

/-- The separator of the node grows. -/
theorem adjusted {c : IndexEntry} {sb₂ : BtreeSb L} {recs : List LogRecord}
    (h : AtIndex marks sb root s up P f Q [] e (c :: C)) (hlt : f.key < c.key)
    (hnext : ∀ q ∈ Q, c.key < q.key)
    (ha : Adjusted marks (sb.setBnode f.block (c :: C)) root up P ⟨c.key, f.block⟩ Q sb₂ recs) :
    IndexRemoved marks sb root s up (descend sb.bnodes P ++ []) e
      (c :: C ++ descend sb.bnodes Q) sb₂ { block := f.block, next := 0 } recs := by
  have hlevel := h.trail.located.level
  have hbelow₁ : blocksBelow (sb.setBnode f.block (c :: C)).bnodes root.entry up.length =
      blocksBelow sb.bnodes root.entry up.length :=
    blocksBelow_congr (h.setBnode_of_above _) (Nat.le_succ _)
  have hbelow₂ : blocksBelow sb₂.bnodes root.entry up.length =
      blocksBelow sb.bnodes root.entry up.length := ha.below.trans hbelow₁
  have hframe : ∀ b, b ∉ blocksBelow sb.bnodes root.entry up.length →
      sb₂.bnodes b = (sb.setBnode f.block (c :: C)).bnodes b := fun b hb =>
    ha.frame b (hbelow₁ ▸ hb)
  have habove := (h.trail.located.fresh h.distinct).1
  have hself : sb₂.bnodes f.block = c :: C :=
    (hframe _ habove).trans (Function.update_self _ _ _)
  have hbeside : ∀ x ∈ P ++ Q, sb₂.bnodes x.block = sb.bnodes x.block := by
    intro x hx
    refine (hframe _ fun hmem => ?_).trans (h.setBnode_of_beside _ x hx)
    exact h.distinct.row (g := x) (hlevel ▸ mem_append_cons_of_mem hx) hmem
  refine ⟨⟨ha.same.trans rfl, ha.log_eq, ha.allocated, ha.redirected, ha.freed⟩,
    ⟨P, ⟨c.key, f.block⟩, Q, [], c :: C, ⟨ha.trail, rfl, hself, rfl, h.first, ha.nodes, ?_, ?_, ?_⟩,
      ?_, ?_⟩, h.block_eq.symm, ?_, fun b hb => ?_, fun pend T hpath hbefore hpos => ?_⟩
  · exact fun x hx => (h.nodes x (mem_append_cons_of_mem hx)).congr (hbeside x hx)
  · intro _
    have hlen := (h.nodes f (by simp)).length_le
    rw [h.node_eq] at hlen
    refine ⟨?_, ?_⟩
    · rw [show sb₂.bnodes (Entry.block ⟨c.key, f.block⟩) = c :: C from hself]
      rfl
    · rw [show sb₂.bnodes (Entry.block ⟨c.key, f.block⟩) = c :: C from hself]
      simp only [List.nil_append, List.length_cons] at hlen ⊢
      omega
  · exact h.row.setKey (fun p hp => (h.row.before p hp).trans hlt) hnext
  · rw [descend_congr_of_mem fun x hx => hbeside x (List.mem_append_left _ hx)]
  · rw [descend_congr_of_mem fun x hx => hbeside x (List.mem_append_right _ hx)]
  · rw [blocksBelow, blocksBelow, hbelow₂, ha.trail.located.level, hlevel]
    simp
  · have habove' := fun hmem => hb (List.mem_append_left _ hmem)
    exact (hframe b habove').trans (h.setBnode_frame _ hb)
  · rw [← List.nil_append recs]
    refine (h.simulates (hpath s List.mem_cons_self).2 hpos).trans
      (ha.simulates _ _ fun t ht => ?_) rfl
    obtain ⟨hT, hunify⟩ := hpath t (List.mem_cons_of_mem s ht)
    refine ⟨.of_mem hT, hunify, ?_⟩
    have hne : t.block ≠ s.block := fun htf => habove (by
      rw [← h.block_eq, ← htf]
      exact h.trail.located.step_mem t ht)
    rw [PendingBefore, Function.update_of_ne hne]
    exact hbefore t ht

end AtIndex

theorem removeIndex_spec (cii : Nat → ChoppedIndexInfo)
    (htrail : Trail sb.bnodes root.entry marks (s :: up) pre e post)
    (hok : NodesOk sb.entriesPerNode sb.bnodes root.entry (up.length + 1))
    (hdistinct : Distinct sb.bnodes root.entry up.length)
    (hsorted : Sorted (pre ++ e :: post)) (hmark : marks (up.length + 1) ≠ none)
    (hdirty : ∀ t ∈ s :: up, sb.state t.block ≠ .clean) :
    ∃ sb' s' recs, removeIndex sb cii s up = .ok (sb', collectIndex cii up.length e.key, s') ∧
      IndexRemoved marks sb root s up pre e post sb' s' recs := by
  obtain ⟨P, f, Q, A, C, h, rfl, rfl⟩ := atIndex_of_trail htrail hok hdistinct hsorted hmark
  have hstep := h.removeIndex_eq cii (hdirty s List.mem_cons_self)
  have hself : (sb.setBnode f.block (A ++ C)).bnodes f.block = A ++ C :=
    Function.update_self _ _ _
  dsimp only at hstep
  by_cases hfin : up.length = 0 ∨ levelFinished (sb.setBnode f.block (A ++ C))
      { block := f.block, next := A.length }
  · refine ⟨_, _, [], by rw [hstep, if_pos hfin], h.kept fun hA => ?_⟩
    rcases hfin with hroot | hfin
    · -- the root has no mark, so its first entry stays
      refine absurd ?_ (h.first hA)
      obtain rfl := List.eq_nil_of_length_eq_zero hroot
      exact h.trail.2.2.2
    · have hlen : A.length = ((sb.setBnode f.block (A ++ C)).bnodes f.block).length := hfin
      rw [hself, hA] at hlen
      simpa using hlen.symm
  · rw [if_neg hfin] at hstep
    by_cases hA : A = []
    swap
    · refine ⟨_, _, [], ?_, h.kept fun hnil => absurd hnil hA⟩
      rw [hstep, if_pos fun hlen => hA (List.eq_nil_of_length_eq_zero hlen)]
    · subst hA
      obtain ⟨c, C', rfl⟩ : ∃ c C', C = c :: C' := by
        refine List.exists_cons_of_ne_nil fun hC => hfin (.inr ?_)
        show 0 = ((sb.setBnode f.block ([] ++ C)).bnodes f.block).length
        rw [hself, hC]
        rfl
      obtain ⟨hlt, hnext⟩ := h.separators (Sorted.right (by simpa using hsorted))
      have hP : P ≠ [] := by
        rintro rfl
        cases up with
        | nil => exact hfin (.inl rfl)
        | cons t up =>
            obtain ⟨_, _, _, _, _, -, -, -, -, hnil, -, hends, -⟩ := h.trail
            obtain ⟨b, hb⟩ := Option.ne_none_iff_exists'.mp (h.first rfl)
            obtain ⟨_, _, hsplit, -⟩ := hends b hb
            exact absurd hsplit (by simp)
      have hbelow := h.setBnode_below (c :: C')
      obtain ⟨sb₂, recs, hadjust, ha⟩ := adjustParentSep_spec (h.setBnode_trail (c :: C'))
        (by rw [Distinct, hbelow]; exact hdistinct) (h.setBnode_nodes _) h.row hP hlt hnext
        fun t ht => hdirty t (List.mem_cons_of_mem s ht)
      refine ⟨sb₂, _, recs, ?_, h.adjusted hlt hnext ha⟩
      rw [hstep, if_neg (by simp)]
      show (adjustParentSep (sb.setBnode f.block (c :: C')) up c.key).bind _ = _
      rw [hadjust]
      rfl

end

/-! ## Blocks

Every block that was in the tree or was taken for it is in the tree, or was replaced by a copy,
or was freed. -/

/-- The blocks of the tree by the records between two states of the volume. -/
structure Ledger (sb : BtreeSb L) (root : Root) (sb' : BtreeSb L) (root' : Root)
    (recs : List LogRecord) : Prop where
  log_eq : sb'.toVolSb.log = sb.toVolSb.log ++ recs
  balance : (recs.flatMap LogRecord.redirected ++ recs.flatMap LogRecord.freed ++
    treeBlocks sb' root').Perm (recs.flatMap LogRecord.allocated ++ treeBlocks sb root)
  bfreed_eq : sb'.bfreed = sb.bfreed ++ recs.flatMap LogRecord.freed
  capacity : sb'.entriesPerNode = sb.entriesPerNode

theorem Ledger.refl (sb : BtreeSb L) (root : Root) : Ledger sb root sb root [] :=
  ⟨(List.append_nil _).symm, .refl _, (List.append_nil _).symm, rfl⟩

theorem Ledger.trans {sb sb' sb'' : BtreeSb L} {root root' root'' : Root}
    {recs recs' : List LogRecord} (h : Ledger sb root sb' root' recs)
    (h' : Ledger sb' root' sb'' root'' recs') : Ledger sb root sb'' root'' (recs ++ recs') where
  log_eq := by rw [h'.log_eq, h.log_eq, List.append_assoc]
  balance := by
    rw [List.perm_iff_count]
    intro b
    have hb := h.balance.count_eq b
    have hb' := h'.balance.count_eq b
    simp only [List.flatMap_append, List.count_append] at hb hb' ⊢
    omega
  bfreed_eq := by rw [h'.bfreed_eq, h.bfreed_eq, List.flatMap_append, List.append_assoc]
  capacity := h'.capacity.trans h.capacity

/-- A record about an index alone. -/
theorem Ledger.withLog (sb : BtreeSb L) (root : Root) {r : LogRecord} (hallocated : r.allocated = [])
    (hredirected : r.redirected = []) (hfreed : r.freed = []) :
    Ledger sb root (sb.withLog r) root [r] := by
  refine ⟨rfl, ?_, ?_, rfl⟩
  · simp only [List.flatMap_singleton, hallocated, hredirected, hfreed, List.nil_append]
    exact .refl _
  · simp only [List.flatMap_singleton, hfreed, List.append_nil]
    rfl

/-! ## The climb -/

/-- The marks of the walk by level, that of the leaves last. -/
def ChopState.marks (st : ChopState L) (depth : Nat) : Nat → Option Nat :=
  Function.update st.prev depth st.leafprev

theorem ChopState.marks_of_lt (st : ChopState L) {depth level : Nat} (h : level < depth) :
    st.marks depth level = st.prev level := Function.update_of_ne (Nat.ne_of_lt h) _ _

@[simp] theorem ChopState.marks_depth (st : ChopState L) (depth : Nat) :
    st.marks depth depth = st.leafprev := Function.update_self _ _ _

/-- The volume while `btree_chop` climbs: the index is open in the node of `f`, `n` levels of
nodes above the leaves. -/
structure ChopOpen (sb : BtreeSb L) (root : Root) (marks : Nat → Option Nat) (n : Nat)
    (done : Prop) (s : PathLevel) (up : List PathLevel) (P : List IndexEntry) (f : IndexEntry)
    (Q A C : List IndexEntry) : Prop
    extends OpenForest sb.entriesPerNode sb.bnodes root.entry marks n done s up P f Q A C where
  depth_eq : root.depth = up.length + 1 + n
  sorted : Sorted (treeLeaves sb root)
  bounded : ∀ e ∈ treeLeaves sb root, e.key < tuxkeyLimit
  distinct : Distinct sb.bnodes root.entry root.depth
  allocated : ∀ b ∈ treeBlocks sb root, sb.bitmap b = true
  dirtyPath : ∀ t ∈ s :: up, sb.state t.block ≠ .clean
  dirtyMarks : ∀ m ≤ root.depth, ∀ b, marks m = some b → sb.state b ≠ .clean

/-- What changes of the volume while the index is climbed. -/
structure Climbed (sb : BtreeSb L) (root : Root) (sb' : BtreeSb L) (recs : List LogRecord) : Prop
    extends Ledger sb root sb' root recs where
  leaves_eq : sb'.leaves = sb.leaves
  treeLeaves_eq : treeLeaves sb' root = treeLeaves sb root

theorem Climbed.refl (sb : BtreeSb L) (root : Root) : Climbed sb root sb [] :=
  ⟨.refl sb root, rfl, rfl⟩

theorem Climbed.trans {sb sb' sb'' : BtreeSb L} {root : Root} {recs recs' : List LogRecord}
    (h : Climbed sb root sb' recs) (h' : Climbed sb' root sb'' recs') :
    Climbed sb root sb'' (recs ++ recs') :=
  ⟨h.toLedger.trans h'.toLedger, h'.leaves_eq.trans h.leaves_eq,
    h'.treeLeaves_eq.trans h.treeLeaves_eq⟩

section

variable {sb sb₁ : BtreeSb L} {root : Root} {marks : Nat → Option Nat} {n : Nat} {done : Prop}
  {s t : PathLevel} {up : List PathLevel} {P Q A C : List IndexEntry} {f : IndexEntry}

/-- The `LOG_BNODE_DEL` of a popped node changes nothing else. -/
theorem logChopped_climbed (sb : BtreeSb L) (root : Root) (block : Nat) (ciil : ChoppedIndexInfo) :
    ∃ recs, Climbed sb root (logChopped sb block ciil) recs := by
  unfold logChopped
  split
  · exact ⟨[], .refl sb root⟩
  · exact ⟨_, .withLog sb root rfl rfl rfl, rfl, rfl⟩

@[simp] theorem logChopped_bnodes (sb : BtreeSb L) (block : Nat) (ciil : ChoppedIndexInfo) :
    (logChopped sb block ciil).bnodes = sb.bnodes := by
  unfold logChopped
  split <;> rfl

theorem tryBnodeMerge_eq_some {into src : Nat} : tryBnodeMerge sb into src = some sb₁ ↔
    (sb.bnodes src).length + (sb.bnodes into).length ≤ sb.entriesPerNode ∧
      sb₁ = freeRedirected (sb.setBnode into (sb.bnodes into ++ sb.bnodes src)) src
        (.bnodeMerge src into) := by
  unfold tryBnodeMerge bnodeMergeNodes
  by_cases hfit : (sb.bnodes src).length + (sb.bnodes into).length > sb.entriesPerNode
  · simp only [if_pos hfit, reduceCtorEq, false_iff]
    exact fun h => absurd hfit (Nat.not_lt_of_le h.1)
  · simp only [if_neg hfit, Option.some.injEq]
    exact ⟨fun h => ⟨Nat.le_of_not_lt hfit, h.symm⟩, fun h => h.2.symm⟩

/-- What freeing a block of the tree changes of the volume, but for the index. -/
structure BlockFreed (sb sb' : BtreeSb L) (block : Nat) (recs : List LogRecord) : Prop where
  bitmap_eq : sb'.bitmap = Function.update sb.bitmap block false
  state_eq : sb'.state = Function.update sb.state block .clean
  log_eq : sb'.toVolSb.log = sb.toVolSb.log ++ recs
  bfreed_eq : sb'.bfreed = sb.bfreed ++ [block]
  capacity : sb'.entriesPerNode = sb.entriesPerNode
  allocated : recs.flatMap LogRecord.allocated = []
  redirected : recs.flatMap LogRecord.redirected = []
  freed : recs.flatMap LogRecord.freed = [block]

/-- A merged block: freed, then its entry taken out, then put. -/
theorem putFreed_spec {sb₀ sb₂ : BtreeSb L} {block : Nat} {r : LogRecord} {recs : List LogRecord}
    (hvol : sb₀.toVolSb = sb.toVolSb) (hcap : sb₀.entriesPerNode = sb.entriesPerNode)
    (hedited : Edited (freeRedirected sb₀ block r) sb₂ recs) (hallocated : r.allocated = [])
    (hredirected : r.redirected = []) (hfreed : r.freed = [block])
    (hdirty : sb.state block ≠ .clean) :
    ∃ sb₃, putFreed sb₂ block = .ok sb₃ ∧ BlockFreed sb sb₃ block (r :: recs) ∧
      sb₃.bnodes = sb₂.bnodes ∧ sb₃.leaves = sb₂.leaves := by
  have hstate : sb₂.state = sb.state := by
    rw [hedited.state_eq, ← hvol]
    rfl
  refine ⟨{ sb₂ with
    toVolSb := { sb₂.toVolSb with state := Function.update sb₂.state block .clean } }, ?_,
    ⟨?_, ?_, ?_, ?_, ?_, ?_, ?_, ?_⟩, rfl, rfl⟩
  · unfold putFreed VolSb.blockputFree
    rw [tuxAssert_of (hstate ▸ hdirty)]
    rfl
  · exact hedited.bitmap_eq.trans (by rw [← hvol]; rfl)
  · rw [← hstate]
  · refine hedited.log_eq.trans ?_
    rw [← hvol, List.append_cons]
    rfl
  · exact hedited.bfreed_eq.trans (by rw [← hvol]; rfl)
  · exact hedited.entriesPerNode_eq.trans hcap
  · rw [List.flatMap_cons, hallocated, hedited.allocated]
    rfl
  · rw [List.flatMap_cons, hredirected, hedited.redirected]
    rfl
  · rw [List.flatMap_cons, hfreed, hedited.freed]
    rfl

theorem BlockFreed.ledger {sb' : BtreeSb L} {root' : Root} {block : Nat} {recs : List LogRecord}
    (h : BlockFreed sb sb' block recs)
    (hperm : (block :: treeBlocks sb' root').Perm (treeBlocks sb root)) :
    Ledger sb root sb' root' recs := by
  refine ⟨h.log_eq, ?_, ?_, h.capacity⟩
  · rw [h.allocated, h.redirected, h.freed]
    exact hperm
  · rw [h.freed]
    exact h.bfreed_eq

/-- What is left of the tree is as it should be. -/
theorem BlockFreed.chopOpen {sb' : BtreeSb L} {block : Nat} {recs : List LogRecord}
    (h : BlockFreed sb sb' block recs) (hperm : (block :: treeBlocks sb' root).Perm (treeBlocks sb root))
    (hopen : OpenForest sb.entriesPerNode sb'.bnodes root.entry marks n done s up P f Q A C)
    (hdepth : root.depth = up.length + 1 + n) (hsorted : Sorted (treeLeaves sb' root))
    (hbounded : ∀ e ∈ treeLeaves sb' root, e.key < tuxkeyLimit)
    (hdistinct : Distinct sb.bnodes root.entry root.depth)
    (hallocated : ∀ b ∈ treeBlocks sb root, sb.bitmap b = true)
    (hpath : ∀ t ∈ s :: up, sb.state t.block ≠ .clean)
    (hmarks : ∀ m ≤ root.depth, ∀ b, marks m = some b → sb.state b ≠ .clean) :
    ChopOpen sb' root marks n done s up P f Q A C := by
  have hnodup : (block :: treeBlocks sb' root).Nodup := hperm.nodup_iff.mpr hdistinct
  have hkept : ∀ b ∈ treeBlocks sb' root, b ≠ block := fun b hb hbf =>
    (List.nodup_cons.mp hnodup).1 (hbf ▸ hb)
  have hstate : ∀ b ∈ treeBlocks sb' root, sb'.state b = sb.state b := fun b hb => by
    rw [h.state_eq, Function.update_of_ne (hkept b hb)]
  refine ⟨h.capacity ▸ hopen, hdepth, hsorted, hbounded, (List.nodup_cons.mp hnodup).2,
    fun b hb => ?_, fun t ht => ?_, fun m hm b hb => ?_⟩
  · rw [h.bitmap_eq, Function.update_of_ne (hkept b hb)]
    exact hallocated b (hperm.subset (List.mem_cons_of_mem _ hb))
  · rw [hstate _ (by rw [treeBlocks, hdepth]; exact hopen.path_mem t ht)]
    exact hpath t ht
  · rw [hstate _ (by rw [treeBlocks, hdepth]; exact hopen.mark_mem (hdepth ▸ hm) hb)]
    exact hmarks m hm b hb

namespace ChopOpen

theorem logChopped (h : ChopOpen sb root marks n done s up P f Q A C) (block : Nat)
    (ciil : ChoppedIndexInfo) :
    ChopOpen (logChopped sb block ciil) root marks n done s up P f Q A C := by
  unfold Tux3.logChopped
  split
  · exact h
  · exact ⟨h.toOpenForest, h.depth_eq, h.sorted, h.bounded, h.distinct, h.allocated, h.dirtyPath,
      h.dirtyMarks⟩

theorem finished_iff (h : ChopOpen sb root marks n done s up P f Q A C) :
    levelFinished sb s ↔ C = [] := by
  rw [levelFinished, h.block_eq, h.node_eq, h.next_eq, List.length_append]
  simp

theorem treeLeaves_eq (h : ChopOpen sb root marks n done s up P f Q A C) :
    treeLeaves sb root = descendN sb.bnodes n (descend sb.bnodes P ++ A) ++
      descendN sb.bnodes n (C ++ descend sb.bnodes Q) := by
  rw [treeLeaves, h.depth_eq]
  exact h.leaves

/-- Where the node is not empty, the tree is well formed. -/
theorem wellFormed (h : ChopOpen sb root marks n done s up P f Q A C) (hne : A ++ C ≠ []) :
    WellFormed sb root := by
  refine ⟨?_, ?_, h.sorted, h.bounded, h.distinct, h.allocated⟩
  · rw [h.depth_eq, Nat.add_right_comm]
    exact Nat.succ_pos _
  · rw [h.depth_eq]
    exact h.allOk hne

/-- The node is passed. -/
theorem pass (h : ChopOpen sb root marks n done s (t :: up) P f Q A C) (hne : A ++ C ≠ [])
    (hend : ¬done → C = []) :
    ∃ P' f' Q' A' C', ChopOpen sb root
        (Function.update marks (up.length + 1) (some s.block)) (n + 1) done t up P' f' Q'
        (A' ++ [f]) C' ∧
      P = descend sb.bnodes P' ++ A' ∧ Q = C' ++ descend sb.bnodes Q' := by
  obtain ⟨P', f', Q', A', C', hopen, hP, hQ⟩ := h.toOpenForest.pass hne hend
  rw [← h.block_eq] at hopen
  refine ⟨P', f', Q', A', C', ⟨hopen, ?_, h.sorted, h.bounded, h.distinct, h.allocated,
    fun r hr => h.dirtyPath r (List.mem_cons_of_mem s hr), fun m hm b hb => ?_⟩, hP, hQ⟩
  · rw [h.depth_eq, List.length_cons]
    omega
  · by_cases hlevel : m = up.length + 1
    · rw [hlevel, Function.update_self] at hb
      rw [← Option.some.inj hb]
      exact h.dirtyPath s List.mem_cons_self
    · rw [Function.update_of_ne hlevel] at hb
      exact h.dirtyMarks m hm b hb

/-- The node is merged into the marked one before it, and its entry taken out. -/
theorem mergeNode (h : ChopOpen sb root marks n done s (t :: up) P f Q A C)
    (hend : ¬done → C = []) {prev : Nat} (hprev : marks (up.length + 1) = some prev)
    (hmerge : tryBnodeMerge sb prev s.block = some sb₁) (cii : Nat → ChoppedIndexInfo) :
    ∃ sb₂ t' sb₃ recs P' f' Q' A' C',
      removeIndex sb₁ cii t up = .ok (sb₂, collectIndex cii up.length f.key, t') ∧
      sb₂.toVolSb.markNon prev = .ok () ∧ putFreed sb₂ s.block = .ok sb₃ ∧
      ChopOpen sb₃ root marks (n + 1) done t' up P' f' Q' A' C' ∧
      descendN sb₃.bnodes (n + 1) (descend sb₃.bnodes P' ++ A') =
        descendN sb.bnodes n (descend sb.bnodes P ++ A ++ C) ∧
      descendN sb₃.bnodes (n + 1) (C' ++ descend sb₃.bnodes Q') =
        descendN sb.bnodes n (descend sb.bnodes Q) ∧
      Climbed sb root sb₃ recs := by
  obtain ⟨hfit, rfl⟩ := tryBnodeMerge_eq_some.mp hmerge
  rw [h.block_eq] at hfit ⊢
  rw [h.node_eq] at hfit
  have hdepth : root.depth = up.length + 1 + (n + 1) := by
    rw [h.depth_eq, List.length_cons]
    omega
  have hlevel : level sb.bnodes root.entry (up.length + 1) = P ++ f :: Q := h.trail.located.level
  have hdistinct : Distinct sb.bnodes root.entry (up.length + 1) := h.distinct.mono (by omega)
  have hf : f.block ∉ blocksBelow sb.bnodes root.entry (up.length + 1) :=
    hdistinct.row (hlevel ▸ by simp)
  have hp : prev ∉ blocksBelow sb.bnodes root.entry (up.length + 1) := by
    obtain ⟨_, _, _, _, _, -, -, -, -, -, -, hends, -⟩ := h.trail
    obtain ⟨P₀, p, rfl, rfl⟩ := hends prev hprev
    exact hdistinct.row (hlevel ▸ by simp)
  -- the entries of the node are in the one before it
  let sb₁ : BtreeSb L := freeRedirected (sb.setBnode prev (sb.bnodes prev ++ sb.bnodes f.block))
    f.block (.bnodeMerge f.block prev)
  have hother : ∀ b, b ≠ prev → sb₁.bnodes b = sb.bnodes b := fun b hb =>
    Function.update_of_ne hb _ _
  have habove : ∀ b ∈ blocksBelow sb.bnodes root.entry (up.length + 1),
      sb₁.bnodes b = sb.bnodes b := fun b hb => hother b fun hbp : b = prev => hp (hbp ▸ hb)
  have hbelow₁ : blocksBelow sb₁.bnodes root.entry (up.length + 1) =
      blocksBelow sb.bnodes root.entry (up.length + 1) := blocksBelow_congr habove (Nat.le_succ _)
  have htrail₁ : Trail sb₁.bnodes root.entry marks (t :: up) P f Q :=
    h.trail.congr habove fun _ _ => rfl
  have hok₁ : NodesOk sb₁.entriesPerNode sb₁.bnodes root.entry (up.length + 1) := by
    intro m hm x hx
    rw [level_congr habove (Nat.le_of_lt hm)] at hx
    exact (h.above m hm x hx).congr (habove _ (mem_blocksBelow_of_mem_level hm hx))
  have hdistinct₁ : Distinct sb₁.bnodes root.entry up.length := by
    rw [Distinct, hbelow₁]
    exact hdistinct.pred
  obtain ⟨sb₂, t', recs, hremove, hr⟩ := removeIndex_spec cii htrail₁ hok₁ hdistinct₁ h.row
    (by rw [hprev]; exact Option.some_ne_none _)
    fun r hr => h.dirtyPath r (List.mem_cons_of_mem s hr)
  obtain ⟨P', f', Q', A', C', hgap, hP, hQ⟩ := hr.gap
  have hstate : sb₂.state = sb.state := hr.state_eq
  have hframe : ∀ b, b ∉ blocksBelow sb.bnodes root.entry (up.length + 1) → b ≠ prev →
      sb₂.bnodes b = sb.bnodes b := fun b hb hne =>
    (hr.frame b (hbelow₁ ▸ hb)).trans (hother b hne)
  have hmerged : sb₂.bnodes prev = sb.bnodes prev ++ (A ++ C) := by
    rw [hr.frame prev (hbelow₁ ▸ hp), ← h.node_eq]
    exact Function.update_self _ _ _
  obtain ⟨hopen, hbefore, hafter, hblocks⟩ := h.toOpenForest.merge
    (by rw [← List.length_cons, ← h.depth_eq]; exact h.distinct) hprev hgap hP hQ
    (hr.below.trans hbelow₁) hmerged (by rw [List.length_append]; omega) hframe hend
  -- the node is freed
  have hvol : (sb.setBnode prev (sb.bnodes prev ++ sb.bnodes f.block)).toVolSb = sb.toVolSb := rfl
  obtain ⟨sb₃, hput, hfreed, hbnodes₃, hleaves₃⟩ := putFreed_spec hvol rfl hr.toEdited
    rfl rfl rfl (h.block_eq ▸ h.dirtyPath s List.mem_cons_self)
  rw [← hbnodes₃] at hopen hbefore hafter hblocks hP hQ
  have hperm : (f.block :: treeBlocks sb₃ root).Perm (treeBlocks sb root) := by
    have hold : treeBlocks sb root =
        blocksBelow sb.bnodes root.entry (up.length + 1 + 1 + n + 1) := by
      rw [treeBlocks, h.depth_eq, List.length_cons]
    rw [hold, treeBlocks, hdepth]
    exact hblocks
  have hleaves : treeLeaves sb₃ root = treeLeaves sb root := by
    have hnew := hopen.leaves
    rw [← hP, ← hQ, hbefore, hafter] at hnew
    rw [h.treeLeaves_eq, treeLeaves, hdepth]
    refine hnew.trans ?_
    simp only [descendN_append, List.append_assoc]
  refine ⟨sb₂, t', sb₃, _, P', f', Q', A', C', hremove, ?_, hput,
    hfreed.chopOpen hperm hopen hdepth (hleaves ▸ h.sorted) (hleaves ▸ h.bounded) h.distinct
      h.allocated (fun r hr' => ?_) h.dirtyMarks,
    hP ▸ hbefore, hQ ▸ hafter, hfreed.ledger hperm, hleaves₃.trans hr.leaves_eq, hleaves⟩
  · refine tuxAssert_of ?_
    rw [hstate]
    exact h.dirtyMarks (up.length + 1) (by omega) prev hprev
  · rcases List.mem_cons.mp hr' with rfl | hr'
    · rw [hr.block_eq]
      exact h.dirtyPath t (by simp)
    · exact h.dirtyPath r (by simp [hr'])

end ChopOpen

/-! ## `popNodes` -/

theorem marks_update {st : ChopState L} {depth level : Nat} (hlevel : level < depth)
    (block : Nat) {sb' : BtreeSb L} {cii : Nat → ChoppedIndexInfo} :
    ({ st with sb := sb', cii := cii, prev := Function.update st.prev level block } :
      ChopState L).marks depth = Function.update (st.marks depth) level (some block) :=
  Function.update_comm (Nat.ne_of_lt hlevel) _ _ _

/-- What the climb ends with: the finished nodes are passed or merged away, and the place
among the leaves is the same. -/
structure PoppedTo (root : Root) (done : Prop) (before after : List IndexEntry)
    (st' : ChopState L) (s' : PathLevel) (up' : List PathLevel) : Prop where
  notDone : ¬done
  place : ∃ n P f Q A c C, ChopOpen st'.sb root (st'.marks root.depth) n done s' up' P f Q A
      (c :: C) ∧
    descendN st'.sb.bnodes n (descend st'.sb.bnodes P ++ A) = before ∧
    descendN st'.sb.bnodes n (c :: C ++ descend st'.sb.bnodes Q) = after

/-- What the climb ends with when the root was popped. -/
structure PoppedRoot (root : Root) (done : Prop) (after : List IndexEntry) (st' : ChopState L) :
    Prop where
  wellFormed : WellFormed st'.sb root
  marked : Marked st'.sb.bnodes (st'.marks root.depth) 0 root.depth [root.entry]
  dirty : ∀ m ≤ root.depth, ∀ b, st'.marks root.depth m = some b → st'.sb.state b ≠ .clean
  finished : ¬done → after = []

theorem PoppedTo.congr {before before' after after' : List IndexEntry} {st' : ChopState L}
    {s' : PathLevel} {up' : List PathLevel} (h : PoppedTo root done before after st' s' up')
    (hbefore : ¬done → before = before') (hafter : ¬done → after = after') :
    PoppedTo root done before' after' st' s' up' :=
  hbefore h.notDone ▸ hafter h.notDone ▸ h

theorem PoppedRoot.congr {after after' : List IndexEntry} {st' : ChopState L}
    (h : PoppedRoot root done after st') (hafter : ¬done → after = after') :
    PoppedRoot root done after' st' :=
  ⟨h.wellFormed, h.marked, h.dirty, fun hnot => (hafter hnot).symm.trans (h.finished hnot)⟩

section

variable {st : ChopState L}

/-- What a turn of the climb leaves: the cursor is at `t`, at the same place among the leaves. -/
structure Climbing (root : Root) (done : Prop) (before after : List IndexEntry)
    (st : ChopState L) (t : PathLevel) (up : List PathLevel) (st' : ChopState L)
    (recs : List LogRecord) : Prop where
  climbed : Climbed st.sb root st'.sb recs
  leafprev_eq : st'.leafprev = st.leafprev
  place : ∃ n P f Q A C, ChopOpen st'.sb root (st'.marks root.depth) n done t up P f Q A C ∧
    (¬done → descendN st'.sb.bnodes n (descend st'.sb.bnodes P ++ A) = before) ∧
    (¬done → descendN st'.sb.bnodes n (C ++ descend st'.sb.bnodes Q) = after)

/-- The node stays, and is the mark of its level. -/
theorem popNodes_pass (h : ChopOpen st.sb root (st.marks root.depth) n done s (t :: up) P f Q A C)
    (hstop : done ∨ levelFinished st.sb s) (hne : A ++ C ≠ []) :
    ∃ recs, Climbing root done (descendN st.sb.bnodes n (descend st.sb.bnodes P ++ A))
      (descendN st.sb.bnodes n (C ++ descend st.sb.bnodes Q)) st t up
      { st with
        sb := logChopped st.sb s.block (st.cii (up.length + 1))
        cii := Function.update st.cii (up.length + 1) { start := 0, count := 0 }
        prev := Function.update st.prev (up.length + 1) s.block } recs := by
  have hend : ¬done → C = [] := fun hnot => h.finished_iff.mp (hstop.resolve_left hnot)
  have hlevel : up.length + 1 < root.depth := by
    rw [h.depth_eq, List.length_cons]
    omega
  have hsame := logChopped_bnodes st.sb s.block (st.cii (up.length + 1))
  have hlogged := h.logChopped s.block (st.cii (up.length + 1))
  obtain ⟨recs, hclimbed⟩ := logChopped_climbed st.sb root s.block (st.cii (up.length + 1))
  obtain ⟨P', f', Q', A', C', hopen, hP, hQ⟩ := hlogged.pass hne hend
  refine ⟨recs, hclimbed, rfl, n + 1, P', f', Q', A' ++ [f], C', ?_, fun hnot => ?_,
    fun hnot => ?_⟩
  · rw [marks_update hlevel s.block]
    exact hopen
  · dsimp only
    rw [← List.append_assoc, ← hP, descendN, descend_append, descend_cons, descend_nil,
      List.append_nil, hlogged.node_eq, hend hnot, List.append_nil, hsame]
  · dsimp only
    rw [← hQ, descendN, hend hnot, List.nil_append, hsame]

/-- The node is merged into the mark of its level. -/
theorem popNodes_merge (h : ChopOpen st.sb root (st.marks root.depth) n done s (t :: up) P f Q A C)
    (hstop : done ∨ levelFinished st.sb s) {prev : Nat}
    (hprev : st.marks root.depth (up.length + 1) = some prev)
    (hmerge : tryBnodeMerge (logChopped st.sb s.block (st.cii (up.length + 1))) prev s.block =
      some sb₁) (cii : Nat → ChoppedIndexInfo) :
    ∃ sb₂ t' sb₃ recs,
      removeIndex sb₁ cii t up = .ok (sb₂, collectIndex cii up.length f.key, t') ∧
      sb₂.toVolSb.markNon prev = .ok () ∧ putFreed sb₂ s.block = .ok sb₃ ∧
      Climbing root done (descendN st.sb.bnodes n (descend st.sb.bnodes P ++ A))
        (descendN st.sb.bnodes n (C ++ descend st.sb.bnodes Q)) st t' up
        { st with sb := sb₃, cii := collectIndex cii up.length f.key } recs := by
  have hend : ¬done → C = [] := fun hnot => h.finished_iff.mp (hstop.resolve_left hnot)
  have hsame := logChopped_bnodes st.sb s.block (st.cii (up.length + 1))
  have hlogged := h.logChopped s.block (st.cii (up.length + 1))
  obtain ⟨recs, hclimbed⟩ := logChopped_climbed st.sb root s.block (st.cii (up.length + 1))
  obtain ⟨sb₂, t', sb₃, recs', P', f', Q', A', C', hremove, hnon, hput, hopen, hbefore, hafter,
    hmerged⟩ := hlogged.mergeNode hend hprev hmerge cii
  refine ⟨sb₂, t', sb₃, recs ++ recs', hremove, hnon, hput, hclimbed.trans hmerged, rfl,
    n + 1, P', f', Q', A', C', hopen, fun hnot => ?_, fun hnot => ?_⟩
  · dsimp only
    rw [hbefore, hend hnot, List.append_nil, hsame]
  · dsimp only
    rw [hafter, hend hnot, List.nil_append, hsame]

variable [Decidable done]

/-- The climb stops at a node with an entry left. -/
theorem popNodes_stop (h : ChopOpen st.sb root (st.marks root.depth) n done s up P f Q A C)
    (hstop : ¬(done ∨ levelFinished st.sb s)) :
    popNodes done up s st = .ok (st, some (s, up)) ∧
      PoppedTo root done (descendN st.sb.bnodes n (descend st.sb.bnodes P ++ A))
        (descendN st.sb.bnodes n (C ++ descend st.sb.bnodes Q)) st s up := by
  obtain ⟨hnot, hopen⟩ := not_or.mp hstop
  obtain ⟨c, C, rfl⟩ := List.exists_cons_of_ne_nil fun hC => hopen (h.finished_iff.mpr hC)
  refine ⟨?_, hnot, n, P, f, Q, A, c, C, h, rfl, rfl⟩
  unfold popNodes
  cases up <;> exact if_pos hstop

/-- The root is popped: it has no mark yet, so it is not empty. -/
theorem popNodes_root (h : ChopOpen st.sb root (st.marks root.depth) n done s [] P f Q A C)
    (hstop : done ∨ levelFinished st.sb s) :
    ∃ st' recs, popNodes done [] s st = .ok (st', none) ∧ Climbed st.sb root st'.sb recs ∧
      st'.leafprev = st.leafprev ∧
      PoppedRoot root done (descendN st.sb.bnodes n (C ++ descend st.sb.bnodes Q)) st' := by
  obtain ⟨rfl, rfl, rfl, hnone⟩ := h.trail
  have hdepth : 0 < root.depth := by
    rw [h.depth_eq]
    omega
  have hprev : st.prev 0 = none := by
    rw [← hnone, st.marks_of_lt hdepth]
  have hne : A ++ C ≠ [] := fun hnil => h.first (List.append_eq_nil_iff.mp hnil).1 hnone
  obtain ⟨recs, hclimbed⟩ := logChopped_climbed st.sb root s.block (st.cii 0)
  have hlogged := h.logChopped s.block (st.cii 0)
  let st' : ChopState L := { st with
    sb := Tux3.logChopped st.sb s.block (st.cii 0)
    cii := Function.update st.cii 0 { start := 0, count := 0 }
    prev := Function.update st.prev 0 s.block }
  have hmarks : st'.marks root.depth =
      Function.update (st.marks root.depth) 0 (some s.block) := marks_update hdepth s.block
  refine ⟨st', recs, ?_, hclimbed, rfl, hlogged.wellFormed hne, ?_, fun m hm b hb => ?_,
    fun hnot => ?_⟩
  · unfold popNodes
    rw [if_neg (not_not_intro hstop)]
    simp only [List.length_nil]
    rw [bind_of_ok (tuxAssert_of hprev)]
    rfl
  · have hroot : descend st'.sb.bnodes [root.entry] = A ++ C := by
      rw [descend_cons, descend_nil, List.append_nil, hlogged.node_eq]
    have hlevels : root.depth = n + 1 := by
      rw [h.depth_eq, List.length_nil]
      omega
    have hbelow := hlogged.marked
    simp only [descend_nil, List.nil_append, List.append_nil, List.length_nil] at hbelow
    have hcons : Marked st'.sb.bnodes (st'.marks root.depth) 0 (n + 1) [root.entry] := by
      rw [hmarks]
      refine Marked.cons ?_ (Function.update_self _ _ _) (by simp [h.block_eq])
      rw [hroot]
      exact hbelow.congr (fun i _ => Function.update_of_ne (by omega) _ _) fun _ _ => rfl
    exact (congrArg (fun d => Marked _ (st'.marks root.depth) 0 d _) hlevels).mpr hcons
  · rw [hmarks] at hb
    by_cases hm0 : m = 0
    · rw [hm0, Function.update_self] at hb
      rw [← Option.some.inj hb]
      exact hlogged.dirtyPath s List.mem_cons_self
    · rw [Function.update_of_ne hm0] at hb
      exact hlogged.dirtyMarks m hm b hb
  · rw [h.finished_iff.mp (hstop.resolve_left hnot), descend_nil, List.append_nil, descendN_nil]

/-- A turn of the climb. -/
theorem popNodes_turn (h : ChopOpen st.sb root (st.marks root.depth) n done s (t :: up) P f Q A C)
    (hstop : done ∨ levelFinished st.sb s) :
    ∃ st' t' recs, popNodes done (t :: up) s st = popNodes done up t' st' ∧
      Climbing root done (descendN st.sb.bnodes n (descend st.sb.bnodes P ++ A))
        (descendN st.sb.bnodes n (C ++ descend st.sb.bnodes Q)) st t' up st' recs := by
  have hlevel : up.length + 1 < root.depth := by
    rw [h.depth_eq, List.length_cons]
    omega
  have hmark : st.marks root.depth (up.length + 1) = st.prev (up.length + 1) :=
    st.marks_of_lt hlevel
  have hrun := popNodes.eq_def done (t :: up) s st
  dsimp only at hrun
  rw [if_neg (not_not_intro hstop)] at hrun
  simp only [List.length_cons] at hrun
  cases hp : st.prev (up.length + 1) with
  | none =>
      rw [hp] at hrun
      obtain ⟨recs, hpass⟩ := popNodes_pass h hstop fun hnil =>
        h.first (List.append_eq_nil_iff.mp hnil).1 (hmark.trans hp)
      exact ⟨_, t, recs, hrun, hpass⟩
  | some prev =>
      have hprev := hmark.trans hp
      rw [hp] at hrun
      dsimp only at hrun
      cases hm : tryBnodeMerge (logChopped st.sb s.block (st.cii (up.length + 1))) prev s.block with
      | none =>
          rw [hm] at hrun
          obtain ⟨recs, hpass⟩ := popNodes_pass h hstop fun hnil => by
            -- an empty node fits
            have hlogged := h.logChopped s.block (st.cii (up.length + 1))
            obtain ⟨_, _, _, _, _, -, -, -, -, -, -, hends, -⟩ := hlogged.trail
            obtain ⟨P₀, p, rfl, rfl⟩ := hends prev hprev
            have hfit := (hlogged.beside p (by simp)).length_le
            have hempty : (logChopped st.sb s.block (st.cii (up.length + 1))).bnodes s.block = [] := by
              rw [logChopped_bnodes, h.block_eq, h.node_eq, hnil]
            rw [tryBnodeMerge_eq_some.mpr ⟨?_, rfl⟩] at hm
            · cases hm
            · rw [hempty, List.length_nil, Nat.zero_add]
              exact hfit
          exact ⟨_, t, recs, hrun, hpass⟩
      | some sb₁ =>
          rw [hm] at hrun
          obtain ⟨sb₂, t', sb₃, recs, hremove, hnon, hput, hmerged⟩ :=
            popNodes_merge h hstop hprev hm
              (Function.update st.cii (up.length + 1) { start := 0, count := 0 })
          dsimp only at hrun
          rw [bind_of_ok hremove] at hrun
          dsimp only at hrun
          rw [bind_of_ok hnon, bind_of_ok hput] at hrun
          exact ⟨_, t', recs, hrun, hmerged⟩

theorem popNodes_spec
    (h : ChopOpen st.sb root (st.marks root.depth) n done s up P f Q A C) :
    ∃ st' rest recs, popNodes done up s st = .ok (st', rest) ∧ Climbed st.sb root st'.sb recs ∧
      st'.leafprev = st.leafprev ∧
      match rest with
      | none => PoppedRoot root done (descendN st.sb.bnodes n (C ++ descend st.sb.bnodes Q)) st'
      | some (s', up') => PoppedTo root done
          (descendN st.sb.bnodes n (descend st.sb.bnodes P ++ A))
          (descendN st.sb.bnodes n (C ++ descend st.sb.bnodes Q)) st' s' up' := by
  induction up generalizing s st n P f Q A C with
  | nil =>
      by_cases hstop : done ∨ levelFinished st.sb s
      · obtain ⟨st', recs, hrun, hclimbed, hleafprev, hroot⟩ := popNodes_root h hstop
        exact ⟨st', none, recs, hrun, hclimbed, hleafprev, hroot⟩
      · obtain ⟨hrun, hplace⟩ := popNodes_stop h hstop
        exact ⟨st, some (s, []), [], hrun, .refl _ _, rfl, hplace⟩
  | cons t up ih =>
      by_cases hstop : done ∨ levelFinished st.sb s
      · obtain ⟨st₁, t₁, recs, hrun, hclimbed, hleafprev, n₁, P₁, f₁, Q₁, A₁, C₁, hopen, hbefore,
          hafter⟩ := popNodes_turn h hstop
        obtain ⟨st', rest, recs', hpop, hclimbed', hleafprev', hrest⟩ := ih hopen
        refine ⟨st', rest, recs ++ recs', hrun.trans hpop, hclimbed.trans hclimbed',
          hleafprev'.trans hleafprev, ?_⟩
        cases rest with
        | none => exact hrest.congr hafter
        | some place => exact hrest.congr hbefore hafter
      · obtain ⟨hrun, hplace⟩ := popNodes_stop h hstop
        exact ⟨st, some (s, t :: up), [], hrun, .refl _ _, rfl, hplace⟩

end

end

end Tux3
