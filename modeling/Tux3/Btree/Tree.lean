/-
  Btree/Tree.lean --- well-formed btrees, and where a cursor is in one.

  The levels of a tree are those of its index forest; the entries of level `depth` point
  to the leaves.  `cursor_check` accepts a cursor exactly where its path is `Located`
  (`cursorCheck_located`, `cursorCheck_of_located`), the next key of a cursor is the
  key of the entry after its own, and `btree_probe` ends at the leaf whose range has the
  key.
-/
import Tux3.Btree.Cursor

set_option autoImplicit false

namespace Tux3

open IndexForest
open Outcome (Ensures bind_eq_ok)

variable {L : Type}

/-! ## Well-formed trees -/

/-- The entries that point to the leaves, in the order of their keys. -/
def treeLeaves (sb : BtreeSb L) (root : Root) : List IndexEntry :=
  level sb.bnodes root.entry root.depth

/-- The blocks of the bnodes of a tree, root first. -/
def treeBnodes (sb : BtreeSb L) (root : Root) : List Nat :=
  blocksBelow sb.bnodes root.entry root.depth

/-- The blocks of the bnodes and the leaves of a tree. -/
def treeBlocks (sb : BtreeSb L) (root : Root) : List Nat :=
  blocksBelow sb.bnodes root.entry (root.depth + 1)

/-- A well-formed tree of uniform depth: every entry above the leaves points to a bnode of
1 to `entries_per_node` entries whose first key is the key of the entry, the keys of the
leaves strictly increase and have 48 bits, and the blocks are distinct and allocated. -/
structure WellFormed (sb : BtreeSb L) (root : Root) : Prop where
  depth_pos : 0 < root.depth
  nodes : NodesOk sb.entriesPerNode sb.bnodes root.entry root.depth
  sorted : Sorted (treeLeaves sb root)
  bounded : ∀ e ∈ treeLeaves sb root, e.key < tuxkeyLimit
  distinct : Distinct sb.bnodes root.entry root.depth
  allocated : ∀ b ∈ treeBlocks sb root, sb.bitmap b = true

/-! ## Sorted sequences -/

/-- The first key of a sequence, or the limit of all keys. -/
def headKey (seq : List IndexEntry) : Nat := (seq.head?.map Entry.key).getD tuxkeyLimit

@[simp] theorem headKey_nil : headKey [] = tuxkeyLimit := rfl

@[simp] theorem headKey_cons (e : IndexEntry) (seq : List IndexEntry) :
    headKey (e :: seq) = e.key := rfl

/-- The first key of the nodes under a sequence is that of the sequence. -/
theorem headKey_descend {cap : Nat} {heap : Heap Nat Nat} {seq : List IndexEntry}
    (hok : ∀ e ∈ seq, NodeOk cap heap e) : headKey (descend heap seq) = headKey seq := by
  cases seq with
  | nil => rfl
  | cons e seq =>
      obtain ⟨e', es, hnode, hkey⟩ := (hok e (by simp)).cons
      rw [descend_cons, hnode, List.cons_append, headKey_cons, headKey_cons, hkey]

/-! ## Cursors -/

section Cursor

variable {sb : BtreeSb L} {root : Root} {path : List PathLevel}
  {pre post : List IndexEntry} {e : IndexEntry}

/-- A path that `cursor_check` accepts goes through an entry of the tree. -/
theorem cursorCheckPath_located (h : cursorCheckPath sb root path = .ok e) :
    ∃ pre post, Located sb.bnodes root.entry path pre e post := by
  induction path generalizing e with
  | nil =>
      cases h
      exact ⟨[], [], rfl, rfl, rfl⟩
  | cons s up ih =>
      rw [cursorCheckPath] at h
      obtain ⟨f, hup, h⟩ := bind_eq_ok.mp h
      obtain ⟨P, Q, hloc⟩ := ih hup
      obtain ⟨_, hblock, h⟩ := bind_eq_ok.mp h
      obtain ⟨_, hpos, h⟩ := bind_eq_ok.mp h
      obtain ⟨_, hlt, h⟩ := bind_eq_ok.mp h
      obtain ⟨child, hchild, h⟩ := bind_eq_ok.mp h
      obtain ⟨_, hkey, h⟩ := bind_eq_ok.mp h
      cases h
      have hblock := tuxAssert_eq_ok.mp hblock
      have hpos := tuxAssert_eq_ok.mp hpos
      have hlt := tuxAssert_eq_ok.mp hlt
      obtain ⟨_, hget⟩ := List.getElem?_eq_some_iff.mp (entryAt_eq_ok.mp hchild)
      have hsplit : sb.bnodes f.block = (sb.bnodes s.block).take (s.next - 1) ++
          e :: (sb.bnodes s.block).drop (s.next - 1 + 1) := by
        rw [← hblock, ← hget]
        simp
      refine ⟨_, _, P, f, Q, _, _, hloc, hblock, hsplit, ?_, rfl, rfl⟩
      rw [List.length_take]
      omega

/-- The entry a path goes through is where its level says. -/
theorem cursorCheckPath_of_located
    (h : Located sb.bnodes root.entry path pre e post)
    (hok : NodesOk sb.entriesPerNode sb.bnodes root.entry path.length)
    (hsorted : Sorted (level sb.bnodes root.entry path.length)) :
    cursorCheckPath sb root path = .ok e := by
  induction path generalizing pre e post with
  | nil =>
      obtain ⟨rfl, rfl, rfl⟩ := h
      rfl
  | cons s up ih =>
      obtain ⟨P, f, Q, A, C, hup, hblock, hnode, hnext, rfl, rfl⟩ := h
      have hokup : NodesOk sb.entriesPerNode sb.bnodes root.entry up.length := fun m hm =>
        hok m (Nat.lt_succ_of_lt hm)
      have hlevel := hup.level
      have hf : NodeOk sb.entriesPerNode sb.bnodes f :=
        hok up.length (Nat.lt_succ_self _) f (by rw [hlevel]; simp)
      have hsortedup : Sorted (level sb.bnodes root.entry up.length) :=
        sorted_level hsorted hok (Nat.le_succ _)
      have hrow : Sorted (A ++ e :: C) := by
        rw [List.length_cons, level, hlevel, descend_append, descend_cons, hnode] at hsorted
        exact hsorted.right.left
      have hprev : s.next - 1 = A.length := by omega
      have hentry : entryAt (sb.bnodes s.block) (s.next - 1) = .ok e := by
        rw [hblock, hnode, hprev, entryAt_append]
      have hlt : s.next - 1 < (sb.bnodes s.block).length := by
        rw [hblock, hnode]
        simp
        omega
      have hhead := hf.head
      rw [hnode] at hhead
      have hkey : if s.next - 1 = 0 then e.key = f.key else f.key < e.key := by
        cases A with
        | nil =>
            rw [if_pos (by simp at hprev; omega)]
            simpa using hhead
        | cons a A =>
            rw [if_neg (by simp at hprev; omega)]
            have ha : a.key = f.key := by simpa using hhead
            exact ha ▸ hrow.before a (by simp)
      rw [cursorCheckPath, ih hup hokup hsortedup]
      simp only [bind, Except.bind, tuxAssert_of hblock,
        tuxAssert_of (show 0 < s.next by omega), tuxAssert_of hlt, hentry, tuxAssert_of hkey]
      rfl

/-- `cursor_check` accepts a located cursor. -/
theorem cursorCheck_of_located
    (h : Located sb.bnodes root.entry path pre e post)
    (hok : NodesOk sb.entriesPerNode sb.bnodes root.entry path.length)
    (hsorted : Sorted (level sb.bnodes root.entry path.length)) {block : Nat}
    (hblock : block = e.block) :
    cursorCheck sb root path block = .ok () := by
  rw [cursorCheck, cursorCheckPath_of_located h hok hsorted]
  exact tuxAssert_of hblock

/-- What `cursor_check` accepts is located. -/
theorem cursorCheck_located {block : Nat} (h : cursorCheck sb root path block = .ok ()) :
    ∃ pre e post, Located sb.bnodes root.entry path pre e post ∧ block = e.block := by
  rw [cursorCheck] at h
  obtain ⟨e, hpath, hblock⟩ := bind_eq_ok.mp h
  obtain ⟨pre, post, hloc⟩ := cursorCheckPath_located hpath
  exact ⟨pre, e, post, hloc, tuxAssert_eq_ok.mp hblock⟩

/-- The next key of a cursor is the key of the entry after its own. -/
theorem cursorNextKey_of_located (h : Located sb.bnodes root.entry path pre e post)
    (hok : NodesOk sb.entriesPerNode sb.bnodes root.entry path.length) :
    cursorNextKey sb path = headKey post := by
  induction path generalizing pre e post with
  | nil =>
      obtain ⟨rfl, rfl, rfl⟩ := h
      rfl
  | cons s up ih =>
      obtain ⟨P, f, Q, A, C, hup, hblock, hnode, hnext, rfl, rfl⟩ := h
      have hget : (sb.bnodes s.block)[s.next]? = C.head? := by
        rw [hblock, hnode, hnext, List.getElem?_append_right (by omega)]
        simp [List.head?_eq_getElem?]
      rw [cursorNextKey, hget]
      cases C with
      | nil =>
          have hQ : ∀ q ∈ Q, NodeOk sb.entriesPerNode sb.bnodes q := fun q hq =>
            hok up.length (Nat.lt_succ_self _) q (by rw [hup.level]; simp [hq])
          simp only [List.head?_nil, List.nil_append]
          rw [ih hup fun m hm => hok m (Nat.lt_succ_of_lt hm), headKey_descend hQ]
      | cons c C => rfl

/-- The key of a cursor is that of its entry. -/
theorem cursorThisKey_of_located {s : PathLevel} {up : List PathLevel}
    (h : Located sb.bnodes root.entry (s :: up) pre e post) :
    cursorThisKey sb (s :: up) = .ok e.key := by
  obtain ⟨P, f, Q, A, C, hup, hblock, hnode, hnext, rfl, rfl⟩ := h
  rw [cursorThisKey, hblock, hnode, hnext, entryBefore_append]
  rfl

end Cursor

/-! ## Probe -/

section Probe

variable {sb : BtreeSb L} {root : Root} {up : List PathLevel} {P Q : List IndexEntry}
  {f : IndexEntry} {key : Nat}

/-- One step down: the path through the next entry of a node is located. -/
theorem cursorAdvanceDown_of_located (hup : Located sb.bnodes root.entry up P f Q)
    {s : PathLevel} {A C : Bnode} {e : IndexEntry} (hblock : s.block = f.block)
    (hnode : sb.bnodes f.block = A ++ e :: C) (hnext : s.next = A.length)
    (hok : NodesOk sb.entriesPerNode sb.bnodes root.entry (up.length + 1))
    (hsorted : Sorted (level sb.bnodes root.entry (up.length + 1))) :
    cursorAdvanceDown sb root s up = .ok (⟨s.block, s.next + 1⟩ :: up, e.block) ∧
      Located sb.bnodes root.entry (⟨s.block, s.next + 1⟩ :: up)
        (descend sb.bnodes P ++ A) e (C ++ descend sb.bnodes Q) := by
  have hloc : Located sb.bnodes root.entry (⟨s.block, s.next + 1⟩ :: up)
      (descend sb.bnodes P ++ A) e (C ++ descend sb.bnodes Q) :=
    ⟨P, f, Q, A, C, hup, hblock, hnode, by simp only [hnext], rfl, rfl⟩
  have hcheck := cursorCheck_of_located hloc hok hsorted rfl
  have hentry : entryAt (sb.bnodes s.block) s.next = .ok e := by
    rw [hblock, hnode, hnext, entryAt_append]
  refine ⟨?_, hloc⟩
  rw [cursorAdvanceDown, hentry]
  simp only [bind, Except.bind, hcheck]
  rfl

/-- The lookup of the probe in a node: the last entry whose key is not above `key`. -/
theorem bnodeLookup_of_located (hup : Located sb.bnodes root.entry up P f Q)
    (hle : f.key ≤ key) (hlt : ∀ q ∈ Q.head?, key < q.key)
    (hok : NodesOk sb.entriesPerNode sb.bnodes root.entry (up.length + 1)) :
    ∃ A e C, sb.bnodes f.block = A ++ e :: C ∧
      bnodeLookup (sb.bnodes f.block) key = .ok A.length ∧ e.key ≤ key ∧
      ∀ q ∈ (C ++ descend sb.bnodes Q).head?, key < q.key := by
  have hmem : ∀ g ∈ P ++ f :: Q, NodeOk sb.entriesPerNode sb.bnodes g := fun g hg =>
    hok up.length (Nat.lt_succ_self _) g (hup.level ▸ hg)
  obtain ⟨a, as, hnode, hkey⟩ := (hmem f (by simp)).cons
  obtain ⟨A, e, C, hsplit, hindex, hekey, hC⟩ : ∃ A e C, a :: as = A ++ e :: C ∧ _ :=
    lookupIndex_split (hkey.trans_le hle)
  refine ⟨A, e, C, hnode.trans hsplit, ?_, hekey, ?_⟩
  · rw [hnode, bnodeLookup, tuxAssert_of (by simp), ← hindex]
    rfl
  · cases C with
    | cons c C => exact hC
    | nil =>
        cases Q with
        | nil => simp
        | cons q Q =>
            obtain ⟨a', as', hnode', hkey'⟩ := (hmem q (by simp)).cons
            intro q' hq'
            rw [List.nil_append, descend_cons, hnode', List.cons_append, List.head?_cons] at hq'
            cases hq'
            exact hkey' ▸ hlt q rfl

/-- The loop of the probe ends at the leaf whose range has the key. -/
theorem btreeProbeFrom_spec {below : Nat} (hup : Located sb.bnodes root.entry up P f Q)
    (hle : f.key ≤ key) (hlt : ∀ q ∈ Q.head?, key < q.key)
    (hok : NodesOk sb.entriesPerNode sb.bnodes root.entry (up.length + 1 + below))
    (hsorted : Sorted (level sb.bnodes root.entry (up.length + 1 + below))) :
    ∃ cursor pre e post, btreeProbeFrom sb root key below f.block up = .ok cursor ∧
      Located sb.bnodes root.entry cursor.path pre e post ∧ cursor.leaf = e.block ∧
      cursor.path.length = up.length + 1 + below ∧ e.key ≤ key ∧
      ∀ q ∈ post.head?, key < q.key := by
  induction below generalizing up P f Q with
  | zero =>
      obtain ⟨A, e, C, hnode, hlookup, hekey, hpost⟩ := bnodeLookup_of_located hup hle hlt hok
      obtain ⟨hdown, hloc⟩ := cursorAdvanceDown_of_located (s := ⟨f.block, A.length⟩) hup rfl hnode
        rfl hok hsorted
      refine ⟨⟨e.block, ⟨f.block, A.length + 1⟩ :: up⟩, _, e, _, ?_, hloc, rfl, rfl, hekey, hpost⟩
      rw [btreeProbeFrom, hlookup]
      simp only [bind, Except.bind, hdown]
      rfl
  | succ below ih =>
      have hokrow : NodesOk sb.entriesPerNode sb.bnodes root.entry (up.length + 1) :=
        fun m hm => hok m (by omega)
      obtain ⟨A, e, C, hnode, hlookup, hekey, hpost⟩ :=
        bnodeLookup_of_located hup hle hlt hokrow
      obtain ⟨hdown, hloc⟩ := cursorAdvanceDown_of_located (s := ⟨f.block, A.length⟩) hup rfl hnode
        rfl hokrow (sorted_level hsorted hok (by omega))
      have hlen : up.length + 1 + 1 + below = up.length + 1 + (below + 1) := by omega
      obtain ⟨cursor, pre, e', post, hprobe, hloc', hleaf, hlength, hekey', hpost'⟩ :=
        ih hloc hekey hpost (by rw [List.length_cons, hlen]; exact hok)
          (by rw [List.length_cons, hlen]; exact hsorted)
      refine ⟨cursor, pre, e', post, ?_, hloc', hleaf, by rw [hlength, List.length_cons, hlen],
        hekey', hpost'⟩
      rw [btreeProbeFrom, hlookup]
      simp only [bind, Except.bind, hdown]
      exact hprobe

/-- `btree_probe` ends at the leaf whose range has the key. -/
theorem btreeProbe_spec (h : WellFormed sb root) (key : Nat) :
    ∃ cursor pre e post, btreeProbe sb root key = .ok cursor ∧
      Located sb.bnodes root.entry cursor.path pre e post ∧ cursor.leaf = e.block ∧
      cursor.path.length = root.depth ∧ e.key ≤ key ∧ ∀ q ∈ post.head?, key < q.key := by
  have hdepth : 0 + 1 + (root.depth - 1) = root.depth := by
    have := h.depth_pos
    omega
  have hroot : Located sb.bnodes root.entry [] [] root.entry [] := ⟨rfl, rfl, rfl⟩
  have hnodes : NodesOk sb.entriesPerNode sb.bnodes root.entry
      (([] : List PathLevel).length + 1 + (root.depth - 1)) := by
    rw [List.length_nil, hdepth]
    exact h.nodes
  have hsorted : Sorted (level sb.bnodes root.entry
      (([] : List PathLevel).length + 1 + (root.depth - 1))) := by
    rw [List.length_nil, hdepth]
    exact h.sorted
  obtain ⟨cursor, pre, e, post, hprobe, hloc, hleaf, hlength, hkeys⟩ :=
    btreeProbeFrom_spec hroot (Nat.zero_le key) (by simp) hnodes hsorted
  refine ⟨cursor, pre, e, post, ?_, hloc, hleaf, by rw [hlength, List.length_nil, hdepth], hkeys⟩
  rw [btreeProbe, tuxAssert_of (.inr (Nat.pos_iff_ne_zero.mp h.depth_pos))]
  exact hprobe

end Probe

end Tux3
