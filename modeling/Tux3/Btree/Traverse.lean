/-
  Btree/Traverse.lean --- `btree_traverse`: the leaves of a range of keys, in their order.

  The cursor climbs to the first node that has a next entry, and goes down its leftmost entries to
  the leaf after its own.  The callback gets the interval of the leaf, and what is left of the range
  from there on; the calls of a traverse are those of the leaves that meet the range.
-/
import Tux3.Btree.Tree

set_option autoImplicit false

namespace Tux3

open IndexForest
open Outcome (bind_of_ok)

variable {L σ : Type}

/-! ## Code -/

/-- The first loop of `cursor_advance`, of a cursor whose leaf was popped: up to a node that has a
next entry, none where the root was popped. -/
def cursorClimb (sb : BtreeSb L) : List PathLevel → Option (PathLevel × List PathLevel)
  | [] => none
  | s :: up => if levelFinished sb s then cursorClimb sb up else some (s, up)

/-- `cursor_advance`: the cursor at the next leaf, none where the traverse is finished. -/
def cursorAdvance (sb : BtreeSb L) (root : Root) (cursor : Cursor) :
    Except TuxError (Option Cursor) :=
  match cursorClimb sb cursor.path with
  | none => return none
  | some (s, up) => do
      let cursor ← advanceToLeaf sb root (root.depth - 1 - up.length) s up
      return some cursor

/-- The arguments of a `btree_traverse_func_t`. -/
structure TraverseCall (L : Type) where
  bottom : Nat
  limit : Nat
  leaf : L
  key : Nat
  len : Nat

/-- `btree_traverse`, of at most `fuel` leaves: the cursor, what the callback has in its data, and
the value returned. -/
def btreeTraverse (sb : BtreeSb L) (root : Root) (func : TraverseCall L → σ → σ × Int) :
    Nat → Cursor → Nat → Nat → σ → Except TuxError (Option Cursor × σ × Int)
  | 0, _, _, _, _ => .error .fuel
  | fuel + 1, cursor, key, len, data => do
      let bottom ← cursorThisKey sb cursor.path
      let limit := cursorNextKey sb cursor.path
      let rest := if key < bottom then len - min len (bottom - key) else len
      if key < bottom ∧ rest = 0 then return (some cursor, data, 0)
      else
        let start := if key < bottom then bottom else key
        let (data, ret) := func ⟨bottom, limit, sb.leaves cursor.leaf, start, rest⟩ data
        if ret ≠ 0 then return (some cursor, data, ret)
        -- if the next key is out of range, done
        else if (start + rest) % 2 ^ 64 ≤ limit then return (some cursor, data, 0)
        else
          match ← cursorAdvance sb root cursor with
          | none => return (none, data, 0)
          | some cursor => btreeTraverse sb root func fuel cursor start rest data

/-! ## What is to be visited -/

/-- A leaf, and the interval of its keys. -/
structure LeafInterval (L : Type) where
  bottom : Nat
  limit : Nat
  leaf : L

/-- The leaves that a sequence of entries points to, each from its key to the next one. -/
def leafIntervals (sb : BtreeSb L) : List IndexEntry → List (LeafInterval L)
  | [] => []
  | e :: post => ⟨e.key, headKey post, sb.leaves e.block⟩ :: leafIntervals sb post

/-- There is a key of the interval in the range from `key` on of `len` keys. -/
def LeafInterval.Meets (key len : Nat) (i : LeafInterval L) : Prop :=
  max key i.bottom < min (key + len) i.limit

instance (key len : Nat) (i : LeafInterval L) : Decidable (i.Meets key len) :=
  inferInstanceAs (Decidable (_ < _))

/-- The range from the start of the interval on. -/
def LeafInterval.clip (key len : Nat) (i : LeafInterval L) : TraverseCall L :=
  ⟨i.bottom, i.limit, i.leaf, max key i.bottom, key + len - max key i.bottom⟩

/-- The calls for the range, in the order of the leaves. -/
def traverseCalls (key len : Nat) (leaves : List (LeafInterval L)) : List (TraverseCall L) :=
  (leaves.filter fun i => i.Meets key len).map (LeafInterval.clip key len)

/-- What a callback has in its data after a list of calls. -/
def afterCalls {C : Type} (func : C → σ → σ × Int) (calls : List C) (data : σ) : σ :=
  calls.foldl (fun data call => (func call data).1) data

/-- A cursor at the leaf of an entry of the tree. -/
structure CursorAt (sb : BtreeSb L) (root : Root) (cursor : Cursor) (pre : List IndexEntry)
    (e : IndexEntry) (post : List IndexEntry) : Prop where
  located : Located sb.bnodes root.entry cursor.path pre e post
  leaf_eq : cursor.leaf = e.block
  depth : cursor.path.length = root.depth

section

variable {sb : BtreeSb L} {root : Root} {cursor : Cursor} {path up : List PathLevel}
  {pre post P Q : List IndexEntry} {e f : IndexEntry} {key len : Nat}
  {func : TraverseCall L → σ → σ × Int}

theorem afterCalls_cons {C : Type} (func : C → σ → σ × Int) (call : C) (calls : List C)
    (data : σ) : afterCalls func (call :: calls) data =
      afterCalls func calls (func call data).1 := rfl

theorem afterCalls_append {C : Type} (func : C → σ → σ × Int) (calls calls' : List C)
    (data : σ) : afterCalls func (calls ++ calls') data =
      afterCalls func calls' (afterCalls func calls data) :=
  List.foldl_append

/-! ## The next leaf -/

/-- The climb stops at the node under which the next entry of the level is the leftmost one. -/
theorem cursorClimb_spec (h : Located sb.bnodes root.entry path pre e post) :
    match cursorClimb sb path with
    | none => post = []
    | some (s, up) => ∃ P f Q A c C, Located sb.bnodes root.entry up P f Q ∧
        s.block = f.block ∧ sb.bnodes f.block = A ++ c :: C ∧ s.next = A.length ∧
        up.length < path.length ∧
        descendN sb.bnodes (path.length - 1 - up.length) (c :: C ++ descend sb.bnodes Q) = post := by
  induction path generalizing pre e post with
  | nil =>
      obtain ⟨_, _, rfl⟩ := h
      rfl
  | cons s up ih =>
      obtain ⟨P, f, Q, A, C, hup, hblock, hnode, hnext, rfl, rfl⟩ := h
      have hlength : (sb.bnodes s.block).length = A.length + 1 + C.length := by
        rw [hblock, hnode, List.length_append, List.length_cons]
        omega
      unfold cursorClimb
      cases C with
      | nil =>
          have hfinished : levelFinished sb s := by
            unfold levelFinished
            rw [hlength, hnext]
            rfl
          rw [if_pos hfinished]
          have hclimb := ih hup
          cases hres : cursorClimb sb up with
          | none =>
              rw [hres] at hclimb
              have hQ : Q = [] := hclimb
              show [] ++ descend sb.bnodes Q = []
              rw [hQ]
              rfl
          | some p =>
              obtain ⟨s', up'⟩ := p
              rw [hres] at hclimb
              obtain ⟨P', f', Q', A', c, C', hup', hblock', hnode', hnext', hlt, hdescend⟩ := hclimb
              refine ⟨P', f', Q', A', c, C', hup', hblock', hnode', hnext',
                Nat.lt_succ_of_lt hlt, ?_⟩
              have hsteps : (s :: up).length - 1 - up'.length = up.length - 1 - up'.length + 1 := by
                rw [List.length_cons]
                omega
              rw [hsteps, descendN, descendN_descend, hdescend]
              rfl
      | cons c C =>
          have hopen : ¬ levelFinished sb s := by
            unfold levelFinished
            rw [hlength, hnext, List.length_cons]
            omega
          rw [if_neg hopen]
          refine ⟨P, f, Q, A ++ [e], c, C, hup, hblock, ?_, ?_, Nat.lt_succ_self _, ?_⟩
          · rw [hnode, List.append_assoc]
            rfl
          · rw [hnext, List.length_append]
            rfl
          · have hsteps : (s :: up).length - 1 - up.length = 0 := by
              rw [List.length_cons]
              omega
            rw [hsteps]
            rfl

/-- Down the leftmost entries to the first leaf under the next entry of a node. -/
theorem advanceToLeaf_spec {below : Nat} {s : PathLevel} {A C : Bnode} {c : IndexEntry}
    (hup : Located sb.bnodes root.entry up P f Q) (hblock : s.block = f.block)
    (hnode : sb.bnodes f.block = A ++ c :: C) (hnext : s.next = A.length)
    (hok : NodesOk sb.entriesPerNode sb.bnodes root.entry (up.length + 1 + below))
    (hsorted : Sorted (level sb.bnodes root.entry (up.length + 1 + below))) :
    ∃ cursor pre' e' post', advanceToLeaf sb root below s up = .ok cursor ∧
      Located sb.bnodes root.entry cursor.path pre' e' post' ∧ cursor.leaf = e'.block ∧
      cursor.path.length = up.length + 1 + below ∧
      e' :: post' = descendN sb.bnodes below (c :: C ++ descend sb.bnodes Q) := by
  induction below generalizing s up P f Q A c C with
  | zero =>
      obtain ⟨hdown, hloc⟩ := cursorAdvanceDown_of_located hup hblock hnode hnext hok hsorted
      refine ⟨⟨c.block, ⟨s.block, s.next + 1⟩ :: up⟩, _, c, _, ?_, hloc, rfl, rfl, rfl⟩
      unfold advanceToLeaf
      rw [bind_of_ok hdown]
      rfl
  | succ below ih =>
      have hokrow : NodesOk sb.entriesPerNode sb.bnodes root.entry (up.length + 1) :=
        fun m hm => hok m (by omega)
      obtain ⟨hdown, hloc⟩ := cursorAdvanceDown_of_located hup hblock hnode hnext hokrow
        (sorted_level hsorted hok (by omega))
      have hchild : NodeOk sb.entriesPerNode sb.bnodes c := by
        have hlt : up.length + 1 < up.length + 1 + (below + 1) := by omega
        refine hok _ hlt c ?_
        have hlevel := hloc.level
        rw [List.length_cons] at hlevel
        rw [hlevel]
        exact List.mem_append_right _ List.mem_cons_self
      obtain ⟨c', C', hnode', _⟩ := hchild.cons
      have hlen : up.length + 1 + 1 + below = up.length + 1 + (below + 1) := by omega
      obtain ⟨cursor, pre', e', post', hleaf, hloc', hblock', hlength, hpost⟩ :=
        ih (s := ⟨c.block, 0⟩) (A := []) hloc rfl hnode' rfl
          (by rw [List.length_cons, hlen]; exact hok)
          (by rw [List.length_cons, hlen]; exact hsorted)
      refine ⟨cursor, pre', e', post', ?_, hloc', hblock',
        by rw [hlength, List.length_cons, hlen], ?_⟩
      · unfold advanceToLeaf
        rw [bind_of_ok hdown]
        exact hleaf
      · rw [hpost, descendN, List.cons_append, List.cons_append, descend_cons, hnode',
          List.cons_append]

/-- The cursor goes to the leaf after its own; after the last one the traverse is finished. -/
theorem cursorAdvance_spec (h : WellFormed sb root) (hat : CursorAt sb root cursor pre e post) :
    match post with
    | [] => cursorAdvance sb root cursor = .ok none
    | e' :: post' => ∃ cursor' pre', cursorAdvance sb root cursor = .ok (some cursor') ∧
        CursorAt sb root cursor' pre' e' post' := by
  have hclimb := cursorClimb_spec hat.located
  cases hres : cursorClimb sb cursor.path with
  | none =>
      rw [hres] at hclimb
      have hpost : post = [] := hclimb
      subst hpost
      show cursorAdvance sb root cursor = .ok none
      unfold cursorAdvance
      rw [hres]
      rfl
  | some p =>
      obtain ⟨s, up⟩ := p
      rw [hres] at hclimb
      obtain ⟨P, f, Q, A, c, C, hup, hblock, hnode, hnext, hlt, hdescend⟩ := hclimb
      rw [hat.depth] at hlt hdescend
      have hlen : up.length + 1 + (root.depth - 1 - up.length) = root.depth := by omega
      obtain ⟨cursor', pre', e', post', hleaf, hloc', hblock', hlength, hpost⟩ :=
        advanceToLeaf_spec hup hblock hnode hnext
          (show NodesOk _ _ _ (up.length + 1 + (root.depth - 1 - up.length)) from
            hlen.symm ▸ h.nodes)
          (show Sorted (level _ _ (up.length + 1 + (root.depth - 1 - up.length))) from
            hlen.symm ▸ h.sorted)
      rw [hdescend] at hpost
      subst hpost
      refine ⟨cursor', pre', ?_, hloc', hblock', hlength.trans hlen⟩
      unfold cursorAdvance
      rw [hres]
      show (advanceToLeaf sb root (root.depth - 1 - up.length) s up >>= _) = _
      rw [bind_of_ok hleaf]
      rfl

/-! ## The traverse -/

theorem traverseCalls_nil_of_le {leaves : List (LeafInterval L)}
    (h : ∀ i ∈ leaves, key + len ≤ i.bottom) : traverseCalls key len leaves = [] := by
  unfold traverseCalls
  rw [List.filter_eq_nil_iff.mpr, List.map_nil]
  intro i hi hmeets
  have hmeets : max key i.bottom < min (key + len) i.limit := of_decide_eq_true hmeets
  have := h i hi
  omega

/-- The calls are the same from a later key on, where that is not behind the leaves. -/
theorem traverseCalls_congr {leaves : List (LeafInterval L)} {start rest : Nat}
    (hstart : key ≤ start) (hstop : start + rest = key + len)
    (h : ∀ i ∈ leaves, start ≤ i.bottom) :
    traverseCalls start rest leaves = traverseCalls key len leaves := by
  induction leaves with
  | nil => rfl
  | cons i leaves ih =>
      have hi : start ≤ i.bottom := h i List.mem_cons_self
      have hmax : max start i.bottom = max key i.bottom := by omega
      have hmeets : i.Meets start rest ↔ i.Meets key len := by
        unfold LeafInterval.Meets
        rw [hmax, hstop]
      have hclip : i.clip start rest = i.clip key len := by
        unfold LeafInterval.clip
        rw [hmax, hstop]
      have hrest := ih fun j hj => h j (List.mem_cons_of_mem i hj)
      unfold traverseCalls at hrest ⊢
      rw [List.filter_cons, List.filter_cons]
      by_cases hm : i.Meets key len
      · rw [if_pos (decide_eq_true (hmeets.mpr hm)), if_pos (decide_eq_true hm), List.map_cons,
          List.map_cons, hclip, hrest]
      · rw [if_neg (by simpa using mt hmeets.mp hm), if_neg (by simpa using hm), hrest]

theorem traverseCalls_cons_of_meets {i : LeafInterval L} {leaves : List (LeafInterval L)}
    (h : i.Meets key len) :
    traverseCalls key len (i :: leaves) = i.clip key len :: traverseCalls key len leaves := by
  unfold traverseCalls
  rw [List.filter_cons, if_pos (decide_eq_true h), List.map_cons]

theorem leafIntervals_bottom {seq : List IndexEntry} {i : LeafInterval L}
    (h : i ∈ leafIntervals sb seq) : ∃ e ∈ seq, i.bottom = e.key := by
  induction seq with
  | nil => exact absurd h List.not_mem_nil
  | cons e seq ih =>
      rcases List.mem_cons.mp h with rfl | h
      · exact ⟨e, List.mem_cons_self, rfl⟩
      · obtain ⟨e', he', hbottom⟩ := ih h
        exact ⟨e', List.mem_cons_of_mem e he', hbottom⟩

/-- The first key of a sorted sequence is the least. -/
theorem headKey_le {seq : List IndexEntry} (hsorted : Sorted seq) {e : IndexEntry}
    (he : e ∈ seq) : headKey seq ≤ e.key := by
  cases seq with
  | nil => exact absurd he List.not_mem_nil
  | cons a seq =>
      rcases List.mem_cons.mp he with rfl | he
      · exact Nat.le_refl _
      · exact Nat.le_of_lt ((List.pairwise_cons.mp hsorted).1 e he)

namespace CursorAt

theorem leaves_eq (hat : CursorAt sb root cursor pre e post) :
    treeLeaves sb root = pre ++ e :: post := by
  have hlevel := hat.located.level
  rwa [hat.depth] at hlevel

theorem nodes (h : WellFormed sb root) (hat : CursorAt sb root cursor pre e post) :
    NodesOk sb.entriesPerNode sb.bnodes root.entry cursor.path.length :=
  hat.depth.symm ▸ h.nodes

theorem sorted (h : WellFormed sb root) (hat : CursorAt sb root cursor pre e post) :
    Sorted (e :: post) :=
  (hat.leaves_eq ▸ h.sorted).right

/-- The interval of a leaf is not empty. -/
theorem key_lt (h : WellFormed sb root) (hat : CursorAt sb root cursor pre e post) :
    e.key < headKey post := by
  cases post with
  | nil =>
      refine h.bounded e ?_
      rw [hat.leaves_eq]
      exact List.mem_append_right _ List.mem_cons_self
  | cons e' post => exact (List.pairwise_cons.mp (hat.sorted h)).1 e' List.mem_cons_self

end CursorAt

/-- One leaf that meets the range: its call, and then the leaves after it. -/
theorem btreeTraverse_succ {fuel : Nat} {data : σ} (h : WellFormed sb root)
    (hat : CursorAt sb root cursor pre e post) (hret : ∀ call data, (func call data).2 = 0)
    (hbottom : e.key < key + len) (hpos : 0 < len) (hwrap : key + len < 2 ^ 64) :
    btreeTraverse sb root func (fuel + 1) cursor key len data =
      let data' := (func ⟨e.key, headKey post, sb.leaves e.block, max key e.key,
        key + len - max key e.key⟩ data).1
      if key + len ≤ headKey post then .ok (some cursor, data', 0)
      else cursorAdvance sb root cursor >>= fun
        | none => .ok (none, data', 0)
        | some cursor => btreeTraverse sb root func fuel cursor (max key e.key)
            (key + len - max key e.key) data' := by
  have hthis : cursorThisKey sb cursor.path = .ok e.key := by
    cases hpath : cursor.path with
    | nil =>
        have hdepth := hat.depth
        rw [hpath] at hdepth
        exact absurd h.depth_pos (hdepth ▸ Nat.lt_irrefl 0)
    | cons s up => exact cursorThisKey_of_located (hpath ▸ hat.located)
  have hnext := cursorNextKey_of_located hat.located (hat.nodes h)
  have hrest : (if key < e.key then len - min len (e.key - key) else len) =
      key + len - max key e.key := by
    split <;> omega
  have hstart : (if key < e.key then e.key else key) = max key e.key := by
    split <;> omega
  have hstop : (max key e.key + (key + len - max key e.key)) % 2 ^ 64 = key + len := by
    omega
  have hgo : ¬ (key < e.key ∧ key + len - max key e.key = 0) := by
    omega
  rw [btreeTraverse, bind_of_ok hthis]
  dsimp only
  rw [hrest, if_neg hgo, hstart, hnext, hat.leaf_eq, hret, if_neg (not_not_intro rfl), hstop]
  split
  · rfl
  · cases cursorAdvance sb root cursor with
    | error err => rfl
    | ok next => cases next <;> rfl

/-- The traverse from the leaf of a cursor on. -/
theorem btreeTraverse_from {fuel : Nat} {data : σ} (h : WellFormed sb root)
    (hat : CursorAt sb root cursor pre e post) (hret : ∀ call data, (func call data).2 = 0)
    (hbottom : e.key < key + len) (hlimit : key < headKey post) (hpos : 0 < len)
    (hwrap : key + len < 2 ^ 64) (hfuel : post.length < fuel) :
    ∃ cursor', btreeTraverse sb root func fuel cursor key len data =
      .ok (cursor', afterCalls func (traverseCalls key len (leafIntervals sb (e :: post))) data,
        0) := by
  induction post generalizing fuel cursor pre e key len data with
  | nil =>
      obtain ⟨fuel, rfl⟩ := Nat.exists_eq_succ_of_ne_zero (Nat.ne_of_gt (Nat.zero_lt_of_lt hfuel))
      have hkey := hat.key_lt h
      have hmeets : LeafInterval.Meets key len ⟨e.key, headKey [], sb.leaves e.block⟩ := by
        show max key e.key < min (key + len) (headKey [])
        omega
      have hadvance := cursorAdvance_spec h hat
      rw [btreeTraverse_succ h hat hret hbottom hpos hwrap]
      unfold leafIntervals
      rw [traverseCalls_cons_of_meets hmeets]
      dsimp only
      split
      · exact ⟨some cursor, rfl⟩
      · rw [bind_of_ok hadvance]
        exact ⟨none, rfl⟩
  | cons e' post ih =>
      obtain ⟨fuel, rfl⟩ := Nat.exists_eq_succ_of_ne_zero (Nat.ne_of_gt (Nat.zero_lt_of_lt hfuel))
      have hkey := hat.key_lt h
      have hsorted := hat.sorted h
      have hmeets : LeafInterval.Meets key len ⟨e.key, headKey (e' :: post), sb.leaves e.block⟩ := by
        show max key e.key < min (key + len) (headKey (e' :: post))
        omega
      obtain ⟨cursor', pre', hadvance, hat'⟩ := cursorAdvance_spec h hat
      have hbehind : ∀ i ∈ leafIntervals sb (e' :: post), e'.key ≤ i.bottom := by
        intro i hi
        obtain ⟨a, ha, hbottom⟩ := leafIntervals_bottom hi
        rw [hbottom]
        exact headKey_le hsorted.of_cons ha
      rw [btreeTraverse_succ h hat hret hbottom hpos hwrap]
      unfold leafIntervals
      rw [traverseCalls_cons_of_meets hmeets, afterCalls_cons]
      dsimp only
      rw [headKey_cons] at hlimit hkey ⊢
      split
      · next hdone =>
          -- the other leaves are behind the range
          rw [traverseCalls_nil_of_le fun i hi => Nat.le_trans hdone (hbehind i hi)]
          exact ⟨some cursor, rfl⟩
      · next hmore =>
          rw [bind_of_ok hadvance]
          have hbefore : max key e.key ≤ e'.key := by
            omega
          have hstop : max key e.key + (key + len - max key e.key) = key + len := by
            omega
          have hlimit' : max key e.key < headKey post := Nat.lt_of_le_of_lt hbefore (hat'.key_lt h)
          obtain ⟨cursor'', hrun⟩ := ih hat' (show e'.key < max key e.key +
            (key + len - max key e.key) by omega) hlimit' (by omega) (by omega)
            (Nat.lt_of_succ_lt_succ hfuel)
          rw [traverseCalls_congr (Nat.le_max_left key e.key) hstop fun i hi =>
            hbefore.trans (hbehind i hi)] at hrun
          exact ⟨cursor'', hrun⟩

/-- The leaves before that of the key do not meet the range. -/
theorem traverseCalls_skip (hsorted : Sorted (pre ++ e :: post)) (hkey : e.key ≤ key) :
    traverseCalls key len (leafIntervals sb (pre ++ e :: post)) =
      traverseCalls key len (leafIntervals sb (e :: post)) := by
  induction pre with
  | nil => rfl
  | cons a pre ih =>
      have hle : headKey (pre ++ e :: post) ≤ e.key :=
        headKey_le hsorted.of_cons (List.mem_append_right _ List.mem_cons_self)
      have hmeets : ¬ LeafInterval.Meets key len
          ⟨a.key, headKey (pre ++ e :: post), sb.leaves a.block⟩ := by
        show ¬ max key a.key < min (key + len) (headKey (pre ++ e :: post))
        omega
      rw [← ih hsorted.of_cons, List.cons_append, leafIntervals, traverseCalls, List.filter_cons,
        if_neg (by simpa using hmeets)]
      rfl

/-- `btree_traverse`, of a range that is not empty and does not wrap around: the callback is
called for the leaves of the range, in their order. -/
theorem btreeTraverse_spec {fuel : Nat} {data : σ} (h : WellFormed sb root)
    (hat : CursorAt sb root cursor pre e post) (hret : ∀ call data, (func call data).2 = 0)
    (hkey : e.key ≤ key) (hlimit : key < headKey post) (hpos : 0 < len)
    (hwrap : key + len < 2 ^ 64) (hfuel : (treeLeaves sb root).length ≤ fuel) :
    ∃ cursor', btreeTraverse sb root func fuel cursor key len data = .ok (cursor',
      afterCalls func (traverseCalls key len (leafIntervals sb (treeLeaves sb root))) data, 0) := by
  rw [hat.leaves_eq] at hfuel ⊢
  rw [traverseCalls_skip (hat.leaves_eq ▸ h.sorted) hkey]
  refine btreeTraverse_from h hat hret (by omega) hlimit hpos hwrap ?_
  rw [List.length_append, List.length_cons] at hfuel
  omega

end

end Tux3
