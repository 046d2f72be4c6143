/-
  Btree/ChopTree.lean --- `btree_chop` removes a range of keys from a tree.

  For every type of leaf whose operations do what they are there for (`LeafLaws`), the tree
  afterwards is well formed, a probe and a lookup in the leaf find what they found before
  outside the range and nothing inside it, and the blocks that were freed are those that are in
  the tree no longer (`btreeChop_chops`).
-/
import Tux3.Btree.ChopLeaves
import Tux3.Btree.Uleaf

set_option autoImplicit false

namespace Tux3

open IndexForest
open Outcome (Ensures bind_eq_ok bind_of_ok)

variable {L V : Type}

/-! ## `chop_root` -/

section Tree

variable {ops : LeafOps L} {sb : BtreeSb L} {root : Root}

/-- Under a root with a single entry, the levels are those under its child. -/
theorem level_of_single {heap : Heap Nat Nat} {r x : IndexEntry} (h : heap r.block = [x]) (m : Nat) :
    level heap r (m + 1) = level heap x m ∧
      blocksBelow heap r (m + 1) = r.block :: blocksBelow heap x m := by
  have hone : level heap r 1 = [x] := by
    rw [level, level, descend_cons, h]
    rfl
  have hlevel := level_add heap x 0 m
  have hblocks := blocksBelow_add heap x 0 m
  rw [Nat.zero_add] at hlevel hblocks
  refine ⟨?_, ?_⟩
  · rw [Nat.add_comm, level_add, hone, hlevel]
    rfl
  · rw [Nat.add_comm, blocksBelow_add, hone, hblocks]
    rfl

/-- What `chop_root` does: the root with a single child is freed, as often as there is one. -/
structure RootChopped (sb : BtreeSb L) (root : Root) (sb' : BtreeSb L) (root' : Root) : Prop where
  wellFormed : WellFormed sb' root'
  ledger : ∃ recs, Ledger sb root sb' root' recs
  leaves_eq : sb'.leaves = sb.leaves
  treeLeaves_eq : treeLeaves sb' root' = treeLeaves sb root

theorem RootChopped.refl (hwf : WellFormed sb root) : RootChopped sb root sb root :=
  ⟨hwf, ⟨[], .refl sb root⟩, rfl, rfl⟩

theorem RootChopped.trans {sb₁ sb₂ : BtreeSb L} {root₁ root₂ : Root}
    (h₁ : RootChopped sb root sb₁ root₁) (h₂ : RootChopped sb₁ root₁ sb₂ root₂) :
    RootChopped sb root sb₂ root₂ := by
  obtain ⟨recs₁, hledger₁⟩ := h₁.ledger
  obtain ⟨recs₂, hledger₂⟩ := h₂.ledger
  exact ⟨h₂.wellFormed, ⟨_, hledger₁.trans hledger₂⟩, h₂.leaves_eq.trans h₁.leaves_eq,
    h₂.treeLeaves_eq.trans h₁.treeLeaves_eq⟩

/-- The root is freed and its only child is the root; what is dirty below stays so. -/
theorem freeRoot_spec {x : IndexEntry} (hwf : WellFormed sb root)
    (hnode : sb.bnodes root.block = [x]) (hdepth : 1 < root.depth)
    (hdirty : sb.state root.block ≠ .clean) :
    ∃ sb', putFreed (freeRedirected sb root.block (.bnodeFree root.block)) root.block = .ok sb' ∧
      RootChopped sb root sb' ⟨x.block, root.depth - 1⟩ ∧
      ∀ m < root.depth - 1, ∀ b ∈ (level sb.bnodes root.entry (m + 1)).map Entry.block,
        sb.state b ≠ .clean →
        b ∈ (level sb'.bnodes (Root.entry ⟨x.block, root.depth - 1⟩) m).map Entry.block ∧
          sb'.state b ≠ .clean := by
  let root₁ : Root := { block := x.block, depth := root.depth - 1 }
  have hlevels := level_of_single (show sb.bnodes root.entry.block = [x] from hnode)
  have hentry : root₁.entry = x := by
    have hkey := (hwf.nodes 0 hwf.depth_pos root.entry (by simp [level])).head
    rw [show sb.bnodes root.entry.block = [x] from hnode] at hkey
    have hkey : x.key = 0 := by simpa [Root.entry] using hkey
    show (⟨0, x.block⟩ : IndexEntry) = x
    rw [← hkey]
  obtain ⟨d, hd⟩ : ∃ d, root.depth = d + 1 := ⟨root.depth - 1, by omega⟩
  have hd₁ : root₁.depth = d := by
    show root.depth - 1 = d
    omega
  obtain ⟨sb₁, hput, hfreed, hbnodes, hleaves⟩ := putFreed_spec (rfl : sb.toVolSb = sb.toVolSb) rfl
    (.refl (freeRedirected sb root.block (.bnodeFree root.block))) rfl rfl rfl hdirty
  have hbnodes : sb₁.bnodes = sb.bnodes := hbnodes
  have htree : treeLeaves sb₁ root₁ = treeLeaves sb root := by
    rw [treeLeaves, treeLeaves, hbnodes, hentry, hd₁, hd]
    exact (hlevels d).1.symm
  have hblocks : treeBlocks sb root = root.block :: treeBlocks sb₁ root₁ := by
    rw [treeBlocks, treeBlocks, hbnodes, hentry, hd₁, hd]
    exact (hlevels (d + 1)).2
  have hperm : (root.block :: treeBlocks sb₁ root₁).Perm (treeBlocks sb root) := by rw [hblocks]
  have hnodup : (root.block :: treeBlocks sb₁ root₁).Nodup := hperm.nodup_iff.mpr hwf.distinct
  have hne : ∀ b ∈ treeBlocks sb₁ root₁, b ≠ root.block := fun b hb hbr =>
    (List.nodup_cons.mp hnodup).1 (hbr ▸ hb)
  have hwf₁ : WellFormed sb₁ root₁ := by
    refine ⟨by omega, fun m hm y hy => ?_, htree ▸ hwf.sorted, htree ▸ hwf.bounded,
      (List.nodup_cons.mp hnodup).2, fun b hb => ?_⟩
    · rw [hbnodes, hentry, ← (hlevels m).1] at hy
      rw [hfreed.capacity, hbnodes]
      exact hwf.nodes (m + 1) (by omega) y hy
    · rw [hfreed.bitmap_eq, Function.update_of_ne (hne b hb)]
      exact hwf.allocated b (hperm.subset (List.mem_cons_of_mem _ hb))
  refine ⟨sb₁, hput, ⟨hwf₁, ⟨_, hfreed.ledger hperm⟩, hleaves, htree⟩,
    fun m hm b hmem hstate => ?_⟩
  have hmem₁ : b ∈ (level sb₁.bnodes root₁.entry m).map Entry.block := by
    rw [hbnodes, hentry, ← (hlevels m).1]
    exact hmem
  refine ⟨hmem₁, ?_⟩
  have hin : b ∈ treeBlocks sb₁ root₁ := by
    obtain ⟨y, hy, rfl⟩ := List.mem_map.mp hmem₁
    exact mem_blocksBelow_of_mem_level (by omega) hy
  rw [hfreed.state_eq, Function.update_of_ne (hne b hin)]
  exact hstate

theorem chopRoot_spec {depth : Nat} {prev : Nat → Option Nat} (hwf : WellFormed sb root)
    (hmarked : ∀ m < root.depth, ∃ b, prev m = some b ∧
      b ∈ (level sb.bnodes root.entry m).map Entry.block ∧ sb.state b ≠ .clean)
    (hdepth : root.depth ≤ depth) :
    ∃ sb' root', chopRoot depth sb prev root = .ok (sb', root') ∧ RootChopped sb root sb' root' ∧
      (root'.depth = 1 ∨ 1 < (sb'.bnodes root'.block).length) := by
  induction depth generalizing sb prev root with
  | zero => exact absurd hwf.depth_pos (by omega)
  | succ depth ih =>
      unfold chopRoot
      by_cases hone : root.depth ≤ 1
      · rw [if_pos hone]
        exact ⟨sb, root, rfl, .refl hwf, .inl (Nat.le_antisymm hone hwf.depth_pos)⟩
      rw [if_neg hone]
      -- the mark of the first level is the root
      obtain ⟨top, htop, hmem, hdirty⟩ := hmarked 0 hwf.depth_pos
      obtain rfl : top = root.block := by simpa [level, Root.entry] using hmem
      have hbuffer : buffer (prev 0) = .ok root.block := by
        rw [htop]
        rfl
      rw [bind_of_ok hbuffer]
      obtain ⟨x, xs, hnode, -⟩ := (hwf.nodes 0 hwf.depth_pos root.entry (by simp [level])).cons
      have hnode : sb.bnodes root.block = x :: xs := hnode
      by_cases hcount : (sb.bnodes root.block).length ≠ 1
      · rw [if_pos hcount]
        refine ⟨sb, root, rfl, .refl hwf, .inr ?_⟩
        rw [hnode, List.length_cons] at hcount ⊢
        omega
      rw [if_neg hcount]
      obtain rfl : xs = [] := by
        rw [hnode, List.length_cons] at hcount
        exact List.eq_nil_of_length_eq_zero (by omega)
      -- its only child is the mark of the second one
      obtain ⟨child, hchild, hmemChild, -⟩ := hmarked 1 (by omega)
      obtain rfl : child = x.block := by
        rw [(level_of_single (show sb.bnodes root.entry.block = [x] from hnode) 0).1] at hmemChild
        simpa [level] using hmemChild
      have hbuffer' : buffer (prev 1) = .ok x.block := by
        rw [hchild]
        rfl
      obtain ⟨sb₁, hput, hfreed, hbelow⟩ := freeRoot_spec hwf hnode (Nat.lt_of_not_le hone) hdirty
      have hmarked₁ : ∀ m < root.depth - 1, ∃ b, prev (m + 1) = some b ∧
          b ∈ (level sb₁.bnodes (Root.entry ⟨x.block, root.depth - 1⟩) m).map Entry.block ∧
            sb₁.state b ≠ .clean := by
        intro m hm
        obtain ⟨b, hb, hmem, hdirty⟩ := hmarked (m + 1) (by omega)
        exact ⟨b, hb, hbelow m hm b hmem hdirty⟩
      obtain ⟨sb', root', hchop, hchopped, hshape⟩ := ih hfreed.wellFormed hmarked₁
        (Nat.sub_le_of_le_add hdepth)
      refine ⟨sb', root', ?_, hfreed.trans hchopped, hshape⟩
      rw [bind_of_ok hbuffer']
      dsimp only
      rw [bind_of_ok hput]
      exact hchop

end Tree

/-! ## Lookup -/

/-- What the leaf has under a key that `btree_probe` finds for it. -/
def treeLookup (lookup : L → Nat → Option V) (sb : BtreeSb L) (root : Root) (key : Nat) :
    Except TuxError (Option V) := do
  let cursor ← btreeProbe sb root key
  return lookup (sb.leaves cursor.leaf) key

section Chop

variable {ops : LeafOps L} {lookup : L → Nat → Option V} {Valid : Nat → Nat → L → Prop}
  {Cut : L → Prop} {Lens : Nat → Prop} {sb : BtreeSb L} {root : Root} {start len fuel : Nat}

/-- The lookup finds what the leaves have. -/
theorem treeLookup_eq (laws : LeafLaws ops lookup Valid Cut Lens) (hwf : WellFormed sb root)
    (hrow : RowValid Valid (leafRow sb (treeLeaves sb root))) (key : Nat) :
    treeLookup lookup sb root key = .ok (rowLookup lookup (leafRow sb (treeLeaves sb root)) key) := by
  obtain ⟨cursor, pre, e, post, hprobe, hloc, hleaf, hlength, hlo, hhi⟩ := btreeProbe_spec hwf key
  have hleaves : treeLeaves sb root = pre ++ e :: post := by
    rw [treeLeaves, ← hlength]
    exact hloc.level
  have hbehind : leafRow sb post ≠ [] → key < rowKey (leafRow sb post) := by
    cases post with
    | nil => exact fun hne => absurd rfl hne
    | cons q post => exact fun _ => hhi q rfl
  rw [hleaves, leafRow_append, leafRow_cons] at hrow ⊢
  rw [treeLookup, bind_of_ok hprobe, hleaf, hrow.lookup_eq laws hlo hbehind]
  rfl

/-! ## `btree_chop` -/

/-- Where the range of `btree_chop` ends. -/
def chopLimit (start len : Nat) : Nat :=
  if tuxkeyLimit ≤ len then tuxkeyLimit else (start + len) % 2 ^ 64

theorem chopLimit_ends (len : Nat) (hstart : start < tuxkeyLimit) :
    RangeEnds (chopLimit start len) start len := by
  have hbits : tuxkeyLimit = 2 ^ 48 := by unfold tuxkeyLimit; rfl
  unfold chopLimit RangeEnds
  split <;> split <;> omega

/-- A tree whose leaves have become `row`, with the blocks and the extents accounted for that
were freed on the way. -/
structure TreeChopped (sb : BtreeSb L) (root : Root) (row : List (Nat × L))
    (segs : List BlockSegment) (sb' : BtreeSb L) (root' : Root) : Prop where
  wellFormed : WellFormed sb' root'
  row : leafRow sb' (treeLeaves sb' root') = row
  ledger : ∃ recs, Ledger sb root sb' root' recs
  accounted : Accounted sb.toVolSb segs sb'.toVolSb
  root_shape : root'.depth = 1 ∨ 1 < (sb'.bnodes root'.block).length

/-- `btree_chop` does to the leaves of the tree what `chopRow` does to the row of them, from the
leaf on that has the first key of the range; it fails only where no block can be allocated for
a copy. -/
theorem btreeChop_spec (hwf : WellFormed sb root) (hfuel : (treeLeaves sb root).length ≤ fuel) :
    ∃ pre e post, treeLeaves sb root = pre ++ e :: post ∧ e.key ≤ start ∧
      (∀ q ∈ post.head?, start < q.key) ∧
      ∀ row segs, chopRow ops (chopLimit start len) (leafRow sb (e :: post)) none start len =
          .ok (row, segs) →
        Ensures (· = .enospc) (btreeChop ops fuel sb root start len) fun (sb', root') =>
          TreeChopped sb root (leafRow sb pre ++ row) segs sb' root' := by
  obtain ⟨⟨leaf, path⟩, pre, e, post, hprobe, hloc, hleaf, hlength, hlo, hhi⟩ :=
    btreeProbe_spec hwf start
  dsimp only at hloc hleaf hlength
  subst hleaf
  have hleaves : treeLeaves sb root = pre ++ e :: post := by
    rw [treeLeaves, ← hlength]
    exact hloc.level
  refine ⟨pre, e, post, hleaves, hlo, hhi, fun row segs hrow => ?_⟩
  have hroot : ¬¬root.HasRoot := not_not_intro (.inr (Nat.pos_iff_ne_zero.mp hwf.depth_pos))
  let st : ChopState L :=
    { sb := sb, prev := fun _ => none, cii := fun _ => { start := 0, count := 0 }, leafprev := none }
  have hmarks : st.marks root.depth = fun _ => none := Function.update_eq_self root.depth st.prev
  have hpre : leafRow st.sb pre = leafRow sb pre ++ (none : Option (Nat × L)).toList :=
    (List.append_nil _).symm
  have hclean : ∀ m ≤ root.depth, ∀ b, st.marks root.depth m = some b → st.sb.state b ≠ .clean := by
    intro m _ b hb
    rw [hmarks] at hb
    cases hb
  have hturns : post.length < fuel := by
    have hlen := congrArg List.length hleaves
    rw [List.length_append, List.length_cons] at hlen
    omega
  unfold btreeChop
  rw [if_neg hroot]
  refine Ensures.bind_ok hprobe ?_
  refine (chopLeaves_spec (show WellFormed st.sb root from hwf) (hmarks ▸ hloc.trail) hlength hclean
    hpre ⟨fun _ => rfl, fun _ => rfl⟩ hrow hturns).bind ?_
  rintro ⟨st', root₁⟩ hwalked
  obtain ⟨recs, hledger⟩ := hwalked.ledger
  -- every level has a mark for `chop_root`
  have hmarked : ∀ m < root₁.depth, ∃ b, st'.prev m = some b ∧
      b ∈ (level st'.sb.bnodes root₁.entry m).map Entry.block ∧ st'.sb.state b ≠ .clean := by
    intro m hm
    obtain ⟨b, hb, hmem⟩ := hwalked.marked m (Nat.le_of_lt hm)
    have hlevel := level_add st'.sb.bnodes root₁.entry 0 m
    rw [Nat.zero_add] at hb hlevel
    exact ⟨b, (st'.marks_of_lt hm).symm.trans hb, hlevel ▸ hmem,
      hwalked.dirty m (Nat.le_of_lt hm) b hb⟩
  obtain ⟨sb', root', hroot', hrootChopped, hshape⟩ := chopRoot_spec hwalked.wellFormed hmarked
    (Nat.le_refl root₁.depth)
  obtain ⟨recs', hledger'⟩ := hrootChopped.ledger
  have haccounted := hwalked.accounted.trans (chopRoot_accounted hroot')
  rw [List.append_nil] at haccounted
  refine Ensures.ok hroot' ⟨hrootChopped.wellFormed, ?_, ⟨_, hledger.trans hledger'⟩, haccounted,
    hshape⟩
  rw [hrootChopped.treeLeaves_eq, ← hwalked.row]
  exact leafRow_congr fun x _ => congrFun hrootChopped.leaves_eq x.block

end Chop

/-- A volume with a root bnode in block 1 over the leaves in blocks 2 and 3, with two entries
each. -/
def uleafTreeSb : BtreeSb Uleaf where
  entriesPerNode := 4
  bnodes := fun b => if b = 1 then [⟨0, 2⟩, ⟨5, 3⟩] else []
  leaves := fun b => if b = 2 then [⟨1, 10⟩, ⟨3, 30⟩] else if b = 3 then [⟨5, 50⟩, ⟨9, 90⟩] else []
  bitmap := fun b => decide (b < 5)
  freeblocks := 10
  answers := [5, 6]
  bfreed := []
  state := fun b => if b = 1 then .unify else .delta
  defree := []
  deunify := []
  log := []

theorem uleafTreeSb_wellFormed : WellFormed uleafTreeSb ⟨1, 1⟩ where
  depth_pos := by decide
  nodes := by
    intro m hm e he
    obtain rfl : m = 0 := Nat.lt_one_iff.mp hm
    rw [List.mem_singleton.mp he]
    exact ⟨rfl, by decide⟩
  sorted := by
    unfold Sorted
    decide
  bounded := by decide
  distinct := by
    unfold Distinct
    decide
  allocated := by decide

theorem uleafTreeSb_valid :
    RowValid UleafOk (leafRow uleafTreeSb (treeLeaves uleafTreeSb ⟨1, 1⟩)) :=
  ⟨by decide, ⟨by decide, by decide, by decide⟩, by decide, ⟨by decide, by decide, by decide⟩,
    trivial⟩

theorem btreeChop_uleafTree :
    (btreeChop (uleafOps 4) 2 uleafTreeSb ⟨1, 1⟩ 3 4).toOption.map
      (fun (sb', root') => leafRow sb' (treeLeaves sb' root')) =
        some [(0, [⟨1, 10⟩, ⟨9, 90⟩])] := by
  decide

end Tux3
