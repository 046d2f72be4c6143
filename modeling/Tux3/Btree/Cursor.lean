/-
  Btree/Cursor.lean --- btrees, cursors, and the descent from the root to a leaf.

  A cursor is a leaf and the path of index nodes that leads to it, deepest node first;
  each step has the node and its `next` pointer as an index.  `cursor_check` accepts
  exactly the cursors whose path is `Located` in the tree.
-/
import Tux3.Btree.Node
import Tux3.Lib.Outcome

set_option autoImplicit false

namespace Tux3

open IndexForest (Step Located NodeOk NodesOk Sorted Distinct level descend blocksBelow)

/-! ## State -/

/-- `struct root`. -/
structure Root where
  block : Nat
  depth : Nat
  deriving DecidableEq, Repr, Inhabited

/-- `has_root`. -/
def Root.HasRoot (root : Root) : Prop := root.block ≠ 0 ∨ root.depth ≠ 0

instance (root : Root) : Decidable root.HasRoot :=
  inferInstanceAs (Decidable (_ ∨ _))

/-- The volume as the btree operations see it: the contents of the bnode buffers and of
the leaf buffers, by block, on top of the allocation state. -/
structure BtreeSb (L : Type) extends VolSb where
  entriesPerNode : Nat
  bnodes : Nat → Bnode
  leaves : Nat → L

/-- `struct path_level` of a bnode: its block, and `next` as an index. -/
abbrev PathLevel : Type := Step Nat

/-- `struct cursor`: the leaf, and the nodes above it, deepest first. -/
structure Cursor where
  leaf : Nat
  path : List PathLevel
  deriving DecidableEq, Repr, Inhabited

variable {L : Type}

/-- The contents of a bnode replaced. -/
def BtreeSb.setBnode (sb : BtreeSb L) (block : Nat) (node : Bnode) : BtreeSb L :=
  { sb with bnodes := Function.update sb.bnodes block node }

@[simp] theorem BtreeSb.setBnode_bnodes (sb : BtreeSb L) (block : Nat) (node : Bnode) :
    (sb.setBnode block node).bnodes = Function.update sb.bnodes block node := rfl

/-- The contents of a leaf replaced. -/
def BtreeSb.setLeaf (sb : BtreeSb L) (block : Nat) (leaf : L) : BtreeSb L :=
  { sb with leaves := Function.update sb.leaves block leaf }

/-- A log record of a btree operation. -/
def BtreeSb.withLog (sb : BtreeSb L) (r : LogRecord) : BtreeSb L :=
  { sb with toVolSb := sb.toVolSb.logRecord r }

/-- `new_block`. -/
def newBlock (sb : BtreeSb L) : Except TuxError (BtreeSb L × Nat) := do
  let (vol, block) ← sb.toVolSb.balloc
  return ({ sb with toVolSb := vol }, block)

/-- `new_node`: an empty bnode. -/
def newNode (sb : BtreeSb L) : Except TuxError (BtreeSb L × Nat) := do
  let (sb, block) ← newBlock sb
  let sb := sb.setBnode block []
  return ({ sb with toVolSb := sb.toVolSb.markAtomic .unify block }, block)

/-- `new_leaf`: a leaf as `leaf_init` leaves it. -/
def newLeaf (leafInit : L) (sb : BtreeSb L) : Except TuxError (BtreeSb L × Nat) := do
  let (sb, block) ← newBlock sb
  let sb := sb.setLeaf block leafInit
  return ({ sb with toVolSb := sb.toVolSb.markAtomic .delta block }, block)

/-- The root as an entry: the least key is below it. -/
def Root.entry (root : Root) : IndexEntry := ⟨0, root.block⟩

/-! ## Cursors -/

/-- `level_finished`: there is no next entry. -/
def levelFinished (sb : BtreeSb L) (s : PathLevel) : Prop :=
  s.next = (sb.bnodes s.block).length

instance (sb : BtreeSb L) (s : PathLevel) : Decidable (levelFinished sb s) :=
  inferInstanceAs (Decidable (_ = _))

/-- The walk of `cursor_check` over the nodes of a path: the block, and the lower bound
of the keys, that it expects under the last one. -/
def cursorCheckPath (sb : BtreeSb L) (root : Root) :
    List PathLevel → Except TuxError IndexEntry
  | [] => .ok root.entry
  | s :: up => do
      let entry ← cursorCheckPath sb root up
      tuxAssert (s.block = entry.block)
      let bnode := sb.bnodes s.block
      tuxAssert (0 < s.next)
      tuxAssert (s.next - 1 < bnode.length)
      let child ← entryAt bnode (s.next - 1)
      -- the most left entry has the key of its parent
      tuxAssert (if s.next - 1 = 0 then child.key = entry.key else entry.key < child.key)
      return child

/-- `cursor_check`, of a cursor whose last step is `block`, with `path` above it. -/
def cursorCheck (sb : BtreeSb L) (root : Root) (path : List PathLevel) (block : Nat) :
    Except TuxError Unit := do
  let entry ← cursorCheckPath sb root path
  tuxAssert (block = entry.block)

/-- `cursor_next_key` of a cursor at a leaf, and `cursor_level_next_key` of one at a
bnode: climb to the first node that has a next entry. -/
def cursorNextKey (sb : BtreeSb L) : List PathLevel → Nat
  | [] => tuxkeyLimit
  | s :: up =>
      match (sb.bnodes s.block)[s.next]? with
      | some entry => entry.key
      | none => cursorNextKey sb up

/-- `cursor_this_key` of a cursor at a leaf, and `cursor_level_this_key` of one at a
bnode. -/
def cursorThisKey (sb : BtreeSb L) : List PathLevel → Except TuxError Nat
  | [] => .error .bounds
  | s :: _ => do
      let entry ← entryBefore (sb.bnodes s.block) s.next
      return entry.key

/-- `cursor_advance_down`, of a cursor whose last node is `s`: the path with `next`
advanced, and the child. -/
def cursorAdvanceDown (sb : BtreeSb L) (root : Root) (s : PathLevel)
    (up : List PathLevel) : Except TuxError (List PathLevel × Nat) := do
  let child ← entryAt (sb.bnodes s.block) s.next
  let path := { s with next := s.next + 1 } :: up
  cursorCheck sb root path child.block
  return (path, child.block)

/-- The loop of `btree_probe`, with `below` more levels of nodes to go. -/
def btreeProbeFrom (sb : BtreeSb L) (root : Root) (key : Nat) :
    Nat → Nat → List PathLevel → Except TuxError Cursor
  | below, block, up => do
      -- cursor_bnode_lookup
      let next ← bnodeLookup (sb.bnodes block) key
      let (path, child) ← cursorAdvanceDown sb root { block := block, next := next } up
      match below with
      | 0 => return { leaf := child, path := path }
      | below + 1 => btreeProbeFrom sb root key below child path

/-- `btree_probe`. -/
def btreeProbe (sb : BtreeSb L) (root : Root) (key : Nat) : Except TuxError Cursor := do
  tuxAssert root.HasRoot
  btreeProbeFrom sb root key (root.depth - 1) root.block []

/-- Down the leftmost entries to a leaf, as the loops of `cursor_advance` and `btree_chop`
do it, with `below` more levels of nodes to go. -/
def advanceToLeaf (sb : BtreeSb L) (root : Root) :
    Nat → PathLevel → List PathLevel → Except TuxError Cursor
  | below, s, up => do
      let (path, child) ← cursorAdvanceDown sb root s up
      match below with
      | 0 => return { leaf := child, path := path }
      | below + 1 => advanceToLeaf sb root below { block := child, next := 0 } path

end Tux3
