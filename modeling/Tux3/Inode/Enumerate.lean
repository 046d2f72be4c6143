/-
  Inode/Enumerate.lean --- `ileaf_enumerate`: the attributes of a range of inode numbers.

  The callback of the traverse walks the dictionary of a leaf with an offset of its own, and calls
  the callback of the user where the offset grows.  Over the leaves of a tree these calls are the
  inodes of the range, each once and in the order of the numbers.
-/
import Tux3.Btree.Traverse
import Tux3.Inode.IleafBlock

set_option autoImplicit false

namespace Tux3

open IndexForest

variable {σ : Type}

/-! ## Code -/

/-- The bytes of the table from an offset on. -/
def IleafBlock.bytes (leaf : IleafBlock) (offset size : Nat) : List UInt8 :=
  (List.range size).map fun i => leaf.table (offset + i)

/-- The loop of `ileaf_enumerate`, with `left` numbers to go from index `at` on. -/
def enumerateLoop (callback : Nat × List UInt8 → σ → σ × Int) (leaf : IleafBlock) :
    Nat → Nat → Nat → σ → σ × Int
  | 0, _, _, data => (data, 0)
  | left + 1, at_, offset, data =>
      let limit := leaf.atdict (at_ + 1)
      if limit ≤ offset then enumerateLoop callback leaf left (at_ + 1) offset data
      else
        let inum := (leaf.ibase + at_) % 2 ^ 64
        let (data, err) := callback (inum, leaf.bytes offset (limit - offset)) data
        if err ≠ 0 then (data, err)
        else enumerateLoop callback leaf left (at_ + 1) limit data

/-- `ileaf_enumerate`; the differences are unsigned of 64 bits. -/
def ileafEnumerate (callback : Nat × List UInt8 → σ → σ × Int) (call : TraverseCall IleafBlock)
    (data : σ) : σ × Int :=
  let leaf := call.leaf
  let at_ := (call.key + (2 ^ 64 - leaf.ibase)) % 2 ^ 64
  let count := min ((call.key + call.len + (2 ^ 64 - leaf.ibase)) % 2 ^ 64) leaf.icount
  if at_ < count then enumerateLoop callback leaf (count - at_) at_ (leaf.atdict at_) data
  else (data, 0)

/-! ## What is to be enumerated -/

/-- The inodes of a leaf with `n` indexes of the dictionary from `start` on. -/
def inodesFrom (leaf : IleafBlock) (start n : Nat) : List (Nat × List UInt8) :=
  ((List.range' start n).filter fun i => leaf.sizeAt i ≠ 0).map fun i =>
    (leaf.ibase + i, leaf.attrs i)

/-- The inodes of a leaf, each with the bytes of its attributes. -/
def leafInodes (leaf : IleafBlock) : List (Nat × List UInt8) := inodesFrom leaf 0 leaf.icount

/-- The inodes of a tree. -/
def treeInodes (sb : BtreeSb IleafBlock) (root : Root) : List (Nat × List UInt8) :=
  (treeLeaves sb root).flatMap fun e => leafInodes (sb.leaves e.block)

/-- The inodes with a number in the range. -/
def inodesInRange (key len : Nat) (inodes : List (Nat × List UInt8)) : List (Nat × List UInt8) :=
  inodes.filter fun inode => key ≤ inode.1 ∧ inode.1 < key + len

/-- A leaf of an inode tree under its interval: the offsets do not decrease and have 16 bits, and
the leaf has attributes of the numbers of the interval only. -/
structure InodeLeafOk (i : LeafInterval IleafBlock) : Prop where
  sorted : i.leaf.Sorted
  offsets : ∀ at_, at_ ≤ i.leaf.icount → i.leaf.atdict at_ < 2 ^ 16
  ibase_le : i.leaf.ibase ≤ i.bottom
  inside : ∀ inum, i.leaf.Has inum → i.bottom ≤ inum ∧ inum < i.limit

section

variable {callback : Nat × List UInt8 → σ → σ × Int} {i : LeafInterval IleafBlock}
  {leaf : IleafBlock} {start n m key len inum : Nat} {data : σ}

theorem inodesFrom_append (leaf : IleafBlock) (start m n : Nat) :
    inodesFrom leaf start (m + n) = inodesFrom leaf start m ++ inodesFrom leaf (start + m) n := by
  unfold inodesFrom
  rw [← List.range'_append_1, List.filter_append, List.map_append]

theorem mem_inodesFrom {inode : Nat × List UInt8} : inode ∈ inodesFrom leaf start n ↔
    ∃ at_, start ≤ at_ ∧ at_ < start + n ∧ leaf.sizeAt at_ ≠ 0 ∧
      inode = (leaf.ibase + at_, leaf.attrs at_) := by
  unfold inodesFrom
  rw [List.mem_map]
  constructor
  · intro ⟨at_, hmem, heq⟩
    obtain ⟨hrange, hsize⟩ := List.mem_filter.mp hmem
    obtain ⟨hle, hlt⟩ := List.mem_range'_1.mp hrange
    exact ⟨at_, hle, hlt, of_decide_eq_true hsize, heq.symm⟩
  · intro ⟨at_, hle, hlt, hsize, heq⟩
    exact ⟨at_, List.mem_filter.mpr ⟨List.mem_range'_1.mpr ⟨hle, hlt⟩, decide_eq_true hsize⟩,
      heq.symm⟩

theorem inodesInRange_nil (h : ∀ at_, start ≤ at_ → at_ < start + n → leaf.sizeAt at_ ≠ 0 →
    ¬ (key ≤ leaf.ibase + at_ ∧ leaf.ibase + at_ < key + len)) :
    inodesInRange key len (inodesFrom leaf start n) = [] := by
  unfold inodesInRange
  refine List.filter_eq_nil_iff.mpr fun inode hmem => ?_
  obtain ⟨at_, hle, hlt, hsize, rfl⟩ := mem_inodesFrom.mp hmem
  exact fun hin => h at_ hle hlt hsize (of_decide_eq_true hin)

theorem inodesInRange_self (h : ∀ at_, start ≤ at_ → at_ < start + n →
    key ≤ leaf.ibase + at_ ∧ leaf.ibase + at_ < key + len) :
    inodesInRange key len (inodesFrom leaf start n) = inodesFrom leaf start n := by
  unfold inodesInRange
  refine List.filter_eq_self.mpr fun inode hmem => ?_
  obtain ⟨at_, hle, hlt, _, rfl⟩ := mem_inodesFrom.mp hmem
  exact decide_eq_true (h at_ hle hlt)

theorem inodesInRange_append (xs ys : List (Nat × List UInt8)) :
    inodesInRange key len (xs ++ ys) = inodesInRange key len xs ++ inodesInRange key len ys :=
  List.filter_append _ _

namespace InodeLeafOk

theorem size_eq (h : InodeLeafOk i) {at_ : Nat} (hat : at_ < i.leaf.icount) :
    i.leaf.sizeAt at_ = i.leaf.atdict (at_ + 1) - i.leaf.atdict at_ :=
  Ileaf.sizeAt_of_le hat (h.sorted at_ hat) (h.offsets (at_ + 1) hat)

/-- Where there are attributes, the number is one of the interval. -/
theorem inside_of_size (h : InodeLeafOk i) {at_ : Nat} (hat : at_ < i.leaf.icount)
    (hsize : i.leaf.sizeAt at_ ≠ 0) :
    i.bottom ≤ i.leaf.ibase + at_ ∧ i.leaf.ibase + at_ < i.limit := by
  refine h.inside (i.leaf.ibase + at_) ⟨Nat.le_add_right _ _, Nat.add_lt_add_left hat _, ?_⟩
  rw [Nat.add_sub_cancel_left]
  rw [h.size_eq hat] at hsize
  omega

/-! ## One leaf -/

/-- The loop calls the callback for the inodes of the indexes that it walks over. -/
theorem loop (h : InodeLeafOk i) (hlimit : i.limit < 2 ^ 64)
    (hret : ∀ inode data, (callback inode data).2 = 0) (hn : start + n ≤ i.leaf.icount) :
    enumerateLoop callback i.leaf n start (i.leaf.atdict start) data =
      (afterCalls callback (inodesFrom i.leaf start n) data, 0) := by
  induction n generalizing start data with
  | zero => rfl
  | succ n ih =>
      have hlt : start < i.leaf.icount := by omega
      have hle := h.sorted start hlt
      have hsize := h.size_eq hlt
      have hcons : inodesFrom i.leaf start (n + 1) =
          inodesFrom i.leaf start 1 ++ inodesFrom i.leaf (start + 1) n := by
        rw [Nat.add_comm n 1, inodesFrom_append]
      rw [enumerateLoop, hcons, afterCalls_append]
      split
      · next hskip =>
          have heq : i.leaf.atdict start = i.leaf.atdict (start + 1) := Nat.le_antisymm hle hskip
          have hnone : inodesFrom i.leaf start 1 = [] := by
            unfold inodesFrom
            rw [List.range'_one, List.filter_cons, if_neg (by simp [hsize, heq])]
            rfl
          rw [hnone, heq, ih (by omega)]
          rfl
      · next hhas =>
          have hne : i.leaf.sizeAt start ≠ 0 := by omega
          have hinum := (h.inside_of_size hlt hne).2
          have hone : inodesFrom i.leaf start 1 =
              [(i.leaf.ibase + start, i.leaf.attrs start)] := by
            unfold inodesFrom
            rw [List.range'_one, List.filter_cons, if_pos (by simpa using hne)]
            rfl
          have hbytes : i.leaf.bytes (i.leaf.atdict start)
              (i.leaf.atdict (start + 1) - i.leaf.atdict start) = i.leaf.attrs start := by
            unfold IleafBlock.bytes IleafBlock.attrs
            rw [hsize]
          rw [hbytes, Nat.mod_eq_of_lt (Nat.lt_trans hinum hlimit)]
          dsimp only
          rw [hret, if_neg (not_not_intro rfl), ih (by omega), hone]
          rfl

/-- The indexes of the range, from that of its first key on. -/
theorem inRange_eq (h : InodeLeafOk i) {count : Nat}
    (hcount : count = min (key + len - i.leaf.ibase) i.leaf.icount) :
    let at_ := max key i.bottom - i.leaf.ibase
    inodesInRange key len (leafInodes i.leaf) = inodesFrom i.leaf at_ (count - at_) := by
  intro at_
  have hbase := h.ibase_le
  have hbefore : inodesInRange key len (inodesFrom i.leaf 0 (min at_ i.leaf.icount)) = [] := by
    refine inodesInRange_nil fun j _ hj hsize hin => ?_
    have hinside := h.inside_of_size (by omega) hsize
    omega
  have hafter : ∀ first n, count ≤ first → first + n ≤ i.leaf.icount →
      inodesInRange key len (inodesFrom i.leaf first n) = [] := by
    intro first n hfirst hn
    refine inodesInRange_nil fun j hle hj _ hin => ?_
    omega
  have hwithin : at_ + (count - at_) ≤ i.leaf.icount → inodesInRange key len
      (inodesFrom i.leaf at_ (count - at_)) = inodesFrom i.leaf at_ (count - at_) :=
    fun _ => inodesInRange_self fun j hle hj => by omega
  unfold leafInodes
  by_cases hat : at_ ≤ i.leaf.icount
  · have hsplit : i.leaf.icount = at_ + ((count - at_) + (i.leaf.icount - (at_ + (count - at_)))) := by
      omega
    rw [Nat.min_eq_left hat] at hbefore
    rw [hsplit, inodesFrom_append, inodesFrom_append, inodesInRange_append, inodesInRange_append,
      hbefore, Nat.zero_add, hwithin (by omega), hafter _ _ (by omega) (by omega), List.nil_append,
      List.append_nil]
  · rw [Nat.min_eq_right (by omega)] at hbefore
    have hnone : count - at_ = 0 := by
      omega
    rw [hbefore, hnone]
    rfl

/-- The callback gets the inodes of the leaf that are in the range. -/
theorem enumerate (h : InodeLeafOk i) (hlimit : i.limit < 2 ^ 64)
    (hret : ∀ inode data, (callback inode data).2 = 0) (hmeets : i.Meets key len)
    (hwrap : key + len < 2 ^ 64) :
    ileafEnumerate callback (i.clip key len) data =
      (afterCalls callback (inodesInRange key len (leafInodes i.leaf)) data, 0) := by
  have hmeets : max key i.bottom < min (key + len) i.limit := hmeets
  have hbase := h.ibase_le
  have hat : (max key i.bottom + (2 ^ 64 - i.leaf.ibase)) % 2 ^ 64 =
      max key i.bottom - i.leaf.ibase := by
    omega
  have hstop : (max key i.bottom + (key + len - max key i.bottom) + (2 ^ 64 - i.leaf.ibase)) %
      2 ^ 64 = key + len - i.leaf.ibase := by
    omega
  rw [h.inRange_eq rfl]
  unfold ileafEnumerate LeafInterval.clip
  dsimp only
  rw [hat, hstop]
  split
  · next hlt => exact h.loop hlimit hret (by omega)
  · next hge =>
      rw [Nat.sub_eq_zero_of_le (Nat.le_of_not_lt hge)]
      rfl

/-- A leaf that does not meet the range has no inode in it. -/
theorem none_of_not_meets (h : InodeLeafOk i) (hmeets : ¬ i.Meets key len) :
    inodesInRange key len (leafInodes i.leaf) = [] := by
  have hapart : ¬ max key i.bottom < min (key + len) i.limit := hmeets
  refine inodesInRange_nil fun j _ hj hsize hin => ?_
  have hinside := h.inside_of_size (by omega) hsize
  omega

end InodeLeafOk

/-! ## The leaves of a tree -/

theorem enumerateLoop_returns {offset : Nat} (hret : ∀ inode data, (callback inode data).2 = 0) :
    (enumerateLoop callback leaf n start offset data).2 = 0 := by
  induction n generalizing start offset data with
  | zero => rfl
  | succ n ih =>
      rw [enumerateLoop]
      dsimp only
      rw [hret, if_neg (not_not_intro rfl)]
      split
      · exact ih
      · exact ih

/-- The traverse goes on as long as the callback of the user lets it. -/
theorem ileafEnumerate_returns (hret : ∀ inode data, (callback inode data).2 = 0)
    (call : TraverseCall IleafBlock) (data : σ) : (ileafEnumerate callback call data).2 = 0 := by
  unfold ileafEnumerate
  dsimp only
  split
  · exact enumerateLoop_returns hret
  · rfl

theorem enumerate_calls {leaves : List (LeafInterval IleafBlock)}
    (hok : ∀ i ∈ leaves, InodeLeafOk i) (hlimit : ∀ i ∈ leaves, i.limit < 2 ^ 64)
    (hret : ∀ inode data, (callback inode data).2 = 0) (hwrap : key + len < 2 ^ 64) :
    afterCalls (ileafEnumerate callback) (traverseCalls key len leaves) data =
      afterCalls callback (inodesInRange key len (leaves.flatMap fun i => leafInodes i.leaf))
        data := by
  induction leaves generalizing data with
  | nil => rfl
  | cons i leaves ih =>
      have hi := hok i List.mem_cons_self
      have hrest := fun data => @ih data (fun j hj => hok j (List.mem_cons_of_mem i hj))
        fun j hj => hlimit j (List.mem_cons_of_mem i hj)
      rw [List.flatMap_cons, inodesInRange_append]
      by_cases hmeets : i.Meets key len
      · rw [traverseCalls_cons_of_meets hmeets, afterCalls_cons, afterCalls_append, hrest,
          hi.enumerate (hlimit i List.mem_cons_self) hret hmeets hwrap]
      · rw [hi.none_of_not_meets hmeets, List.nil_append, ← hrest, traverseCalls, List.filter_cons,
          if_neg (by simpa using hmeets)]
        rfl

theorem leafIntervals_flatMap (sb : BtreeSb IleafBlock) (seq : List IndexEntry) :
    (leafIntervals sb seq).flatMap (fun i => leafInodes i.leaf) =
      seq.flatMap fun e => leafInodes (sb.leaves e.block) := by
  induction seq with
  | nil => rfl
  | cons e seq ih => rw [leafIntervals, List.flatMap_cons, List.flatMap_cons, ih]

/-- No limit is above that of all keys. -/
theorem leafIntervals_limit {L : Type} {sb : BtreeSb L} {seq : List IndexEntry}
    (hbounded : ∀ e ∈ seq, e.key < tuxkeyLimit) {i : LeafInterval L}
    (h : i ∈ leafIntervals sb seq) : i.limit ≤ tuxkeyLimit := by
  induction seq with
  | nil => exact absurd h List.not_mem_nil
  | cons e seq ih =>
      rcases List.mem_cons.mp h with rfl | h
      · cases seq with
        | nil => exact Nat.le_refl _
        | cons e' seq => exact Nat.le_of_lt (hbounded e' (by simp))
      · exact ih (fun e he => hbounded e (List.mem_cons_of_mem _ he)) h

/-- The numbers of the inodes increase. -/
theorem inodes_increase {sb : BtreeSb IleafBlock} {seq : List IndexEntry} (hsorted : Sorted seq)
    (hok : ∀ i ∈ leafIntervals sb seq, InodeLeafOk i) :
    ((leafIntervals sb seq).flatMap fun i => leafInodes i.leaf).Pairwise fun inode inode' =>
      inode.1 < inode'.1 := by
  induction seq with
  | nil => exact List.Pairwise.nil
  | cons e seq ih =>
      have hrest := fun j hj => hok j (List.mem_cons_of_mem _ hj)
      have hi := hok _ List.mem_cons_self
      rw [leafIntervals, List.flatMap_cons, List.pairwise_append]
      refine ⟨?_, ih hsorted.of_cons hrest, fun inode hmem inode' hmem' => ?_⟩
      · unfold leafInodes inodesFrom
        refine List.pairwise_map.mpr (List.Pairwise.filter _ ?_)
        exact List.Pairwise.imp (fun hlt => Nat.add_lt_add_left hlt _) List.pairwise_lt_range'
      · obtain ⟨at_, _, hlt, hsize, rfl⟩ := mem_inodesFrom.mp hmem
        obtain ⟨j, hj, hmem'⟩ := List.mem_flatMap.mp hmem'
        obtain ⟨at', _, hlt', hsize', rfl⟩ := mem_inodesFrom.mp hmem'
        obtain ⟨a, ha, hbottom⟩ := leafIntervals_bottom hj
        have hbefore := (hi.inside_of_size (by omega) hsize).2
        have hafter := ((hrest j hj).inside_of_size (by omega) hsize').1
        have hle := headKey_le hsorted.of_cons ha
        dsimp only at hbefore ⊢
        omega

theorem mem_leafInodes (h : InodeLeafOk i) {bytes : List UInt8} :
    (inum, bytes) ∈ leafInodes i.leaf ↔ i.bottom ≤ inum ∧ inum < i.limit ∧
      ileafLookup i.leaf inum = .ok (some bytes) := by
  unfold leafInodes
  rw [mem_inodesFrom]
  constructor
  · intro ⟨at_, _, hlt, hsize, heq⟩
    obtain ⟨rfl, rfl⟩ := Prod.mk.inj heq
    obtain ⟨hle, hlt'⟩ := h.inside_of_size (by omega) hsize
    refine ⟨hle, hlt', ?_⟩
    rw [ileafLookup_of_le (Nat.le_add_right _ _), Nat.add_sub_cancel_left, if_neg hsize]
  · intro ⟨hle, _, hlookup⟩
    have hbase := Nat.le_trans h.ibase_le hle
    rw [ileafLookup_of_le hbase] at hlookup
    by_cases hsize : i.leaf.sizeAt (inum - i.leaf.ibase) = 0
    · rw [if_pos hsize] at hlookup
      exact nomatch hlookup
    · rw [if_neg hsize] at hlookup
      have hlt : inum - i.leaf.ibase < i.leaf.icount := by
        by_contra hge
        exact hsize (Ileaf.sizeAt_of_ge (Nat.le_of_not_lt hge))
      refine ⟨inum - i.leaf.ibase, Nat.zero_le _, by omega, hsize, ?_⟩
      rw [Nat.add_sub_cancel' hbase, ← Option.some.inj (Except.ok.inj hlookup)]

end

/-- A traverse that starts with the cursor on the leaf of its key, of a range that is not empty and
does not wrap around. -/
structure TraverseOk {L : Type} (sb : BtreeSb L) (root : Root) (cursor : Cursor) (key len : Nat) :
    Prop where
  wellFormed : WellFormed sb root
  at_leaf : ∃ pre e post, CursorAt sb root cursor pre e post ∧ e.key ≤ key ∧ key < headKey post
  not_empty : 0 < len
  no_wrap : key + len < 2 ^ 64

/-- `btree_traverse` calls its callback once for every leaf that meets the range, in the order of
the keys, with the interval of the leaf and the rest of the range; `ileaf_enumerate` so calls the
callback of the user once for every inode of the range, in the order of the numbers, with the
bytes that a lookup finds. -/
theorem btreeTraverse_visits :
    (∀ (L σ : Type) (sb : BtreeSb L) (root : Root) (cursor : Cursor) (key len fuel : Nat)
      (func : TraverseCall L → σ → σ × Int) (data : σ),
      TraverseOk sb root cursor key len → (∀ call data, (func call data).2 = 0) →
      (treeLeaves sb root).length ≤ fuel →
      ∃ cursor', btreeTraverse sb root func fuel cursor key len data = .ok (cursor',
        afterCalls func (traverseCalls key len (leafIntervals sb (treeLeaves sb root))) data, 0)) ∧
    (∀ (σ : Type) (sb : BtreeSb IleafBlock) (root : Root) (cursor : Cursor) (key len fuel : Nat)
      (callback : Nat × List UInt8 → σ → σ × Int) (data : σ),
      TraverseOk sb root cursor key len → (∀ inode data, (callback inode data).2 = 0) →
      (∀ i ∈ leafIntervals sb (treeLeaves sb root), InodeLeafOk i) →
      (treeLeaves sb root).length ≤ fuel →
      (∃ cursor', btreeTraverse sb root (ileafEnumerate callback) fuel cursor key len data =
        .ok (cursor', afterCalls callback (inodesInRange key len (treeInodes sb root)) data, 0)) ∧
      (treeInodes sb root).Pairwise (fun inode inode' => inode.1 < inode'.1) ∧
      ∀ inum bytes, (inum, bytes) ∈ treeInodes sb root ↔
        ∃ i ∈ leafIntervals sb (treeLeaves sb root), i.bottom ≤ inum ∧ inum < i.limit ∧
          ileafLookup i.leaf inum = .ok (some bytes)) := by
  refine ⟨fun L σ sb root cursor key len fuel func data htraverse hret hfuel => ?_,
    fun σ sb root cursor key len fuel callback data htraverse hret hok hfuel => ?_⟩
  · obtain ⟨pre, e, post, hat, hkey, hlimit⟩ := htraverse.at_leaf
    exact btreeTraverse_spec htraverse.wellFormed hat hret hkey hlimit htraverse.not_empty
      htraverse.no_wrap hfuel
  · obtain ⟨pre, e, post, hat, hkey, hlimit⟩ := htraverse.at_leaf
    have hinodes := leafIntervals_flatMap sb (treeLeaves sb root)
    have hbounds : ∀ i ∈ leafIntervals sb (treeLeaves sb root), i.limit < 2 ^ 64 := fun i hi =>
      Nat.lt_of_le_of_lt (leafIntervals_limit htraverse.wellFormed.bounded hi) (by decide)
    refine ⟨?_, ?_, fun inum bytes => ?_⟩
    · obtain ⟨cursor', hrun⟩ := btreeTraverse_spec htraverse.wellFormed hat
        (ileafEnumerate_returns hret) hkey hlimit htraverse.not_empty htraverse.no_wrap hfuel
      refine ⟨cursor', hrun.trans ?_⟩
      rw [enumerate_calls hok hbounds hret htraverse.no_wrap, hinodes]
      rfl
    · unfold treeInodes
      rw [← hinodes]
      exact inodes_increase htraverse.wellFormed.sorted hok
    · unfold treeInodes
      rw [← hinodes, List.mem_flatMap]
      constructor
      · intro ⟨i, hi, hmem⟩
        exact ⟨i, hi, (mem_leafInodes (hok i hi)).mp hmem⟩
      · intro ⟨i, hi, hfound⟩
        exact ⟨i, hi, (mem_leafInodes (hok i hi)).mpr hfound⟩

/-- Inode 3 with the bytes 7 and 8 in the leaf of block 2, inode 64 with the byte 9 in that of
block 3. -/
def twoIleavesSb : BtreeSb IleafBlock where
  entriesPerNode := 4
  bnodes := fun b => if b = 1 then [⟨0, 2⟩, ⟨64, 3⟩] else []
  leaves := fun b => if b = 2 then ⟨⟨0, [0, 0, 0, 2]⟩, fun i => if i = 0 then 7 else 8⟩
    else ⟨⟨64, [1]⟩, fun _ => 9⟩
  bitmap := fun b => decide (b < 4)
  freeblocks := 10
  answers := []
  bfreed := []
  state := fun _ => .clean
  defree := []
  deunify := []
  log := []

theorem twoIleavesSb_wellFormed : WellFormed twoIleavesSb ⟨1, 1⟩ where
  depth_pos := by decide
  nodes := by
    intro m hm e he
    obtain rfl : m = 0 := Nat.lt_one_iff.mp hm
    rw [List.mem_singleton.mp he]
    exact ⟨rfl, by decide⟩
  sorted := by
    unfold Sorted
    decide
  bounded := by decide
  distinct := by
    unfold Distinct
    decide
  allocated := by decide

/-- The cursor at the first leaf. -/
theorem twoIleavesSb_cursorAt :
    CursorAt twoIleavesSb ⟨1, 1⟩ ⟨2, [⟨1, 1⟩]⟩ [] ⟨0, 2⟩ [⟨64, 3⟩] :=
  ⟨⟨[], _, [], [], [⟨64, 3⟩], ⟨rfl, rfl, rfl⟩, rfl, rfl, rfl, rfl, rfl⟩, rfl, rfl⟩

theorem twoIleavesSb_leavesOk {i : LeafInterval IleafBlock}
    (h : i ∈ leafIntervals twoIleavesSb (treeLeaves twoIleavesSb ⟨1, 1⟩)) : InodeLeafOk i := by
  rcases List.mem_cons.mp h with rfl | h
  · exact ⟨by unfold Ileaf.Sorted; decide, by decide, by decide, fun inum ⟨_, hlt, _⟩ =>
      ⟨Nat.zero_le _, Nat.lt_trans hlt (by decide)⟩⟩
  · obtain rfl := List.mem_singleton.mp h
    exact ⟨by unfold Ileaf.Sorted; decide, by decide, by decide, fun inum ⟨hle, hlt, _⟩ =>
      ⟨hle, Nat.lt_trans hlt (by decide)⟩⟩

/-- Both inodes are enumerated from number 1 on. -/
theorem btreeTraverse_visits_twoIleaves :
    (∃ cursor', btreeTraverse twoIleavesSb ⟨1, 1⟩ (fun _ n => (n + 1, 0)) 2 ⟨2, [⟨1, 1⟩]⟩ 1 100 0 =
      .ok (cursor', 2, 0)) ∧
    ∃ cursor', btreeTraverse twoIleavesSb ⟨1, 1⟩
      (ileafEnumerate fun inode data => (data ++ [inode], 0)) 2 ⟨2, [⟨1, 1⟩]⟩ 1 100 [] =
      .ok (cursor', [(3, [7, 8]), (64, [9])], 0) := by
  have htraverse : TraverseOk twoIleavesSb ⟨1, 1⟩ ⟨2, [⟨1, 1⟩]⟩ 1 100 :=
    ⟨twoIleavesSb_wellFormed, ⟨_, _, _, twoIleavesSb_cursorAt, by decide, by decide⟩, by decide,
      by decide⟩
  have hinodes : afterCalls (fun inode data => (data ++ [inode], 0))
      (inodesInRange 1 100 (treeInodes twoIleavesSb ⟨1, 1⟩)) [] =
      [((3 : Nat), ([7, 8] : List UInt8)), (64, [9])] := by
    decide +kernel
  refine ⟨btreeTraverse_visits.1 _ _ _ _ _ 1 100 2 _ 0 htraverse (fun _ _ => rfl) (by decide), ?_⟩
  rw [← hinodes]
  exact (btreeTraverse_visits.2 _ _ _ _ 1 100 2 _ [] htraverse (fun _ _ => rfl)
    (fun i hi => twoIleavesSb_leavesOk hi) (by decide)).1

/-- A range of no keys has a call for the leaf of the cursor, and a range that wraps around has
none for the leaves after it. -/
theorem btreeTraverse_empty_and_wrapped :
    WellFormed twoIleavesSb ⟨1, 1⟩ ∧
    CursorAt twoIleavesSb ⟨1, 1⟩ ⟨2, [⟨1, 1⟩]⟩ [] ⟨0, 2⟩ [⟨64, 3⟩] ∧
    (btreeTraverse twoIleavesSb ⟨1, 1⟩ (fun _ n => (n + 1, 0)) 2 ⟨2, [⟨1, 1⟩]⟩ 1 0 0 =
      .ok (some ⟨2, [⟨1, 1⟩]⟩, 1, 0) ∧
      (traverseCalls 1 0 (leafIntervals twoIleavesSb
        (treeLeaves twoIleavesSb ⟨1, 1⟩))).length = 0) ∧
    btreeTraverse twoIleavesSb ⟨1, 1⟩ (fun _ n => (n + 1, 0)) 2 ⟨2, [⟨1, 1⟩]⟩ 1 (2 ^ 64 - 1) 0 =
      .ok (some ⟨2, [⟨1, 1⟩]⟩, 1, 0) ∧
    (traverseCalls 1 (2 ^ 64 - 1) (leafIntervals twoIleavesSb
      (treeLeaves twoIleavesSb ⟨1, 1⟩))).length = 2 :=
  ⟨twoIleavesSb_wellFormed, twoIleavesSb_cursorAt, ⟨rfl, rfl⟩, rfl, rfl⟩

end Tux3
