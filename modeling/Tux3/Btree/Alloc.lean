/-
  Btree/Alloc.lean --- new blocks, and what the operations that take them leave alone.

  `Grown` relates two states of the volume between which blocks were allocated, none was
  freed and no buffer cleaned; `Replays` says that the log records between them replay.
  Both compose, so a loop over the levels of a tree carries them along.
-/
import Tux3.Btree.Replay
import Tux3.Lib.Outcome

set_option autoImplicit false

namespace Tux3

open IndexForest
open Outcome (Ensures bind_eq_ok)

variable {L : Type}

/-! ## Growth -/

/-- `sb'` is `sb` after some operations that allocated the blocks `new`, freed none and
cleaned no buffer. -/
structure Grown (sb sb' : BtreeSb L) (new : List Nat) : Prop where
  entriesPerNode_eq : sb'.entriesPerNode = sb.entriesPerNode
  leaves_eq : ∀ b, b ∉ new → sb'.leaves b = sb.leaves b
  bfreed_eq : sb'.bfreed = sb.bfreed
  free : ∀ b ∈ new, sb.bitmap b = false
  nodup : new.Nodup
  bitmap_eq : ∀ b, sb'.bitmap b = true ↔ sb.bitmap b = true ∨ b ∈ new
  state_eq : ∀ b, b ∉ new → sb'.state b = sb.state b
  dirty : ∀ b ∈ new, sb'.state b ≠ .clean

theorem Grown.refl (sb : BtreeSb L) : Grown sb sb [] where
  entriesPerNode_eq := rfl
  leaves_eq := fun _ _ => rfl
  bfreed_eq := rfl
  free := by simp
  nodup := .nil
  bitmap_eq := by simp
  state_eq := fun _ _ => rfl
  dirty := by simp

theorem Grown.freeClean {sb sb' : BtreeSb L} {new : List Nat} (h : Grown sb sb' new)
    (hclean : sb.FreeClean) : sb'.FreeClean := by
  intro b hb
  have hnot : ¬(sb.bitmap b = true ∨ b ∈ new) := fun hset => by
    rw [(h.bitmap_eq b).mpr hset] at hb
    cases hb
  rw [not_or] at hnot
  rw [h.state_eq b hnot.2]
  exact hclean b (by simpa using hnot.1)

theorem Grown.trans {sb sb' sb'' : BtreeSb L} {new new' : List Nat} (h : Grown sb sb' new)
    (h' : Grown sb' sb'' new') : Grown sb sb'' (new ++ new') where
  entriesPerNode_eq := h'.entriesPerNode_eq.trans h.entriesPerNode_eq
  leaves_eq := by
    intro b hb
    rw [List.mem_append, not_or] at hb
    rw [h'.leaves_eq b hb.2, h.leaves_eq b hb.1]
  bfreed_eq := h'.bfreed_eq.trans h.bfreed_eq
  free := by
    intro b hb
    rcases List.mem_append.mp hb with hb | hb
    · exact h.free b hb
    · by_contra hne
      have hset := (h.bitmap_eq b).mpr (.inl (by simpa using hne))
      rw [h'.free b hb] at hset
      cases hset
  nodup := by
    refine List.nodup_append.mpr ⟨h.nodup, h'.nodup, fun a ha b hb hab => ?_⟩
    have hset := (h.bitmap_eq a).mpr (.inr ha)
    rw [hab, h'.free b hb] at hset
    cases hset
  bitmap_eq := by
    intro b
    rw [h'.bitmap_eq, h.bitmap_eq, List.mem_append, or_assoc]
  state_eq := by
    intro b hb
    rw [List.mem_append, not_or] at hb
    rw [h'.state_eq b hb.2, h.state_eq b hb.1]
  dirty := by
    intro b hb
    by_cases hb' : b ∈ new'
    · exact h'.dirty b hb'
    · rw [h'.state_eq b hb']
      exact h.dirty b ((List.mem_append.mp hb).resolve_right hb')

/-- Allocated blocks are none of the new ones, and stay allocated. -/
theorem Grown.not_new {sb sb' : BtreeSb L} {new : List Nat} (h : Grown sb sb' new) {b : Nat}
    (hb : sb.bitmap b = true) : b ∉ new := fun hnew => by
  rw [h.free b hnew] at hb
  cases hb

theorem Grown.set_of_set {sb sb' : BtreeSb L} {new : List Nat} (h : Grown sb sb' new) {b : Nat}
    (hb : sb.bitmap b = true) : sb'.bitmap b = true := (h.bitmap_eq b).mpr (.inl hb)

theorem Grown.free_of_free {sb sb' : BtreeSb L} {new : List Nat} (h : Grown sb sb' new) {b : Nat}
    (hb : sb'.bitmap b = false) : sb.bitmap b = false := by
  by_contra hne
  rw [h.set_of_set (by simpa using hne)] at hb
  cases hb

theorem Grown.unify_of_unify {sb sb' : BtreeSb L} {new : List Nat} (h : Grown sb sb' new)
    (hclean : sb.FreeClean) {b : Nat} (hb : sb.state b = .unify) : sb'.state b = .unify := by
  have hnew : b ∉ new := fun hnew => by
    rw [hclean b (h.free b hnew)] at hb
    cases hb
  rw [h.state_eq b hnew]
  exact hb

theorem Grown.dirty_of_dirty {sb sb' : BtreeSb L} {new : List Nat} (h : Grown sb sb' new)
    {b : Nat} (hb : sb.state b ≠ .clean) : sb'.state b ≠ .clean := by
  by_cases hnew : b ∈ new
  · exact h.dirty b hnew
  · rw [h.state_eq b hnew]
    exact hb

theorem Grown.setBnode {sb sb' : BtreeSb L} {new : List Nat} (h : Grown sb sb' new)
    (block : Nat) (node : Bnode) : Grown sb (sb'.setBnode block node) new :=
  ⟨h.entriesPerNode_eq, h.leaves_eq, h.bfreed_eq, h.free, h.nodup, h.bitmap_eq, h.state_eq,
    h.dirty⟩

theorem Grown.withLog {sb sb' : BtreeSb L} {new : List Nat} (h : Grown sb sb' new)
    (r : LogRecord) : Grown sb (sb'.withLog r) new :=
  ⟨h.entriesPerNode_eq, h.leaves_eq, h.bfreed_eq, h.free, h.nodup, h.bitmap_eq, h.state_eq,
    h.dirty⟩

theorem Grown.setLeaf {sb sb' : BtreeSb L} {new : List Nat} (h : Grown sb sb' new)
    {block : Nat} (hnew : block ∈ new) (leaf : L) : Grown sb (sb'.setLeaf block leaf) new :=
  ⟨h.entriesPerNode_eq,
    fun b hb => (Function.update_of_ne (fun hbb : b = block => hb (hbb ▸ hnew)) _ _).trans
      (h.leaves_eq b hb),
    h.bfreed_eq, h.free, h.nodup, h.bitmap_eq, h.state_eq, h.dirty⟩

/-- Deferring a free changes nothing but the stashes. -/
theorem Grown.defer {sb sb' : BtreeSb L} {new : List Nat} (h : Grown sb sb' new)
    (defree deunify : List BlockSegment) :
    Grown sb { sb' with defree := defree, deunify := deunify } new :=
  ⟨h.entriesPerNode_eq, h.leaves_eq, h.bfreed_eq, h.free, h.nodup, h.bitmap_eq, h.state_eq,
    h.dirty⟩

/-- What `new_block` and the mark of the new buffer do. -/
theorem newBlock_spec (sb : BtreeSb L) {st : BufState} (hst : st ≠ .clean) :
    Ensures (· = .enospc) (newBlock sb) fun (sb', block) =>
      Grown sb { sb' with toVolSb := sb'.toVolSb.markAtomic st block } [block] ∧
        sb'.bnodes = sb.bnodes ∧ sb'.leaves = sb.leaves ∧ sb'.toVolSb.log = sb.toVolSb.log ∧
        (sb.FreeClean → (sb'.toVolSb.markAtomic st block).state block = st) := by
  cases halloc : sb.toVolSb.balloc with
  | error e =>
      rw [newBlock, halloc]
      exact VolSb.balloc_error _ halloc
  | ok r =>
      obtain ⟨vol, block⟩ := r
      obtain ⟨hfree, -, hvol⟩ := VolSb.balloc_spec _ halloc
      have hbitmap : vol.bitmap = Function.update sb.bitmap block true := by rw [hvol]
      have hstate : vol.state = sb.state := by rw [hvol]
      have hbfreed : vol.bfreed = sb.bfreed := by rw [hvol]
      have hlog : vol.log = sb.toVolSb.log := by rw [hvol]
      rw [newBlock, halloc]
      refine ⟨?_, rfl, rfl, hlog, fun hclean => ?_⟩
      · constructor
        case entriesPerNode_eq => rfl
        case leaves_eq => exact fun _ _ => rfl
        case bfreed_eq => simpa using hbfreed
        case free => simpa using hfree
        case nodup => simp
        case bitmap_eq =>
          intro b
          simp only [VolSb.markAtomic_bitmap, hbitmap, List.mem_singleton]
          by_cases hb : b = block <;> simp [hb]
        case state_eq =>
          intro b hb
          rw [← hstate]
          exact VolSb.markAtomic_state_of_ne _ _ _ (by simpa using hb)
        case dirty =>
          intro b hb
          rw [List.mem_singleton.mp hb]
          exact VolSb.markAtomic_dirty _ _ _ hst
      · refine VolSb.markAtomic_state_of_clean _ _ _ ?_
        rw [hstate]
        exact hclean block hfree

/-- A new node is empty, dirty, and was free. -/
theorem newNode_spec (sb : BtreeSb L) :
    Ensures (· = .enospc) (newNode sb) fun r =>
      Grown sb r.1 [r.2] ∧ r.1.bnodes = Function.update sb.bnodes r.2 [] ∧
        r.1.toVolSb.log = sb.toVolSb.log ∧ (sb.FreeClean → r.1.state r.2 = .unify) := by
  refine (newBlock_spec sb (show BufState.unify ≠ .clean by decide)).bind ?_
  rintro ⟨sb', block⟩ ⟨hgrown, hbnodes, -, hlog, hunify⟩
  refine ⟨hgrown.setBnode block [], ?_, ?_, hunify⟩
  · exact congrArg (fun bnodes => Function.update bnodes block []) hbnodes
  · exact (VolSb.markAtomic_log _ _ _).trans hlog

/-! ## Edits

Edits of bnodes that are in the tree already allocate and free nothing. -/

/-- The blocks that a record replaces. -/
def LogRecord.redirected : LogRecord → List Nat
  | .leafRedirect oldblock _ => [oldblock]
  | .bnodeRedirect oldblock _ => [oldblock]
  | _ => []

/-- The blocks that a record allocates for a btree. -/
def LogRecord.allocated : LogRecord → List Nat
  | .leafRedirect _ newblock => [newblock]
  | r => r.newBnodes

/-- The blocks that a record frees at once. -/
def LogRecord.freed : LogRecord → List Nat
  | .leafFree leaf => [leaf]
  | .bnodeMerge src _ => [src]
  | .bnodeFree bnode => [bnode]
  | _ => []

theorem newBnodes_nil_of_allocated_nil {recs : List LogRecord}
    (h : recs.flatMap LogRecord.allocated = []) : recs.flatMap LogRecord.newBnodes = [] := by
  rw [List.flatMap_eq_nil_iff] at h ⊢
  intro r hr
  have hnil := h r hr
  cases r <;> first | exact hnil | rfl

/-- Nothing changed but bnodes, and the log has the records about it. -/
structure Edited (sb sb' : BtreeSb L) (recs : List LogRecord) : Prop where
  same : sb' = { sb with
    bnodes := sb'.bnodes
    toVolSb := { sb.toVolSb with log := sb'.toVolSb.log } }
  log_eq : sb'.toVolSb.log = sb.toVolSb.log ++ recs
  allocated : recs.flatMap LogRecord.allocated = []
  redirected : recs.flatMap LogRecord.redirected = []
  freed : recs.flatMap LogRecord.freed = []

theorem Edited.refl (sb : BtreeSb L) : Edited sb sb [] :=
  ⟨rfl, (List.append_nil _).symm, rfl, rfl, rfl⟩

theorem Edited.trans {sb sb' sb'' : BtreeSb L} {recs recs' : List LogRecord}
    (h : Edited sb sb' recs) (h' : Edited sb' sb'' recs') : Edited sb sb'' (recs ++ recs') where
  same := by
    rw [h'.same, h.same]
  log_eq := by rw [h'.log_eq, h.log_eq, List.append_assoc]
  allocated := by rw [List.flatMap_append, h.allocated, h'.allocated]; rfl
  redirected := by rw [List.flatMap_append, h.redirected, h'.redirected]; rfl
  freed := by rw [List.flatMap_append, h.freed, h'.freed]; rfl

section Edited

variable {sb sb' : BtreeSb L} {recs : List LogRecord}

theorem Edited.entriesPerNode_eq (h : Edited sb sb' recs) :
    sb'.entriesPerNode = sb.entriesPerNode := by
  rw [h.same]

theorem Edited.leaves_eq (h : Edited sb sb' recs) : sb'.leaves = sb.leaves := by
  rw [h.same]

theorem Edited.state_eq (h : Edited sb sb' recs) : sb'.state = sb.state := by
  rw [h.same]

theorem Edited.bitmap_eq (h : Edited sb sb' recs) : sb'.bitmap = sb.bitmap := by
  rw [h.same]

theorem Edited.bfreed_eq (h : Edited sb sb' recs) : sb'.bfreed = sb.bfreed := by
  rw [h.same]

end Edited

/-! ## Records -/

/-- The records between two states of the volume, and that replaying them does to the
tracked bnodes what the running system did, given that those of `nodes` are dirty for
the unify. -/
structure Replays (sb sb' : BtreeSb L) (recs : List LogRecord) (nodes : List Nat) : Prop where
  log_eq : sb'.toVolSb.log = sb.toVolSb.log ++ recs
  unify : sb.FreeClean → ∀ b ∈ recs.flatMap LogRecord.newBnodes, sb'.state b = .unify
  simulates : sb.FreeClean → (∀ b ∈ nodes, sb.state b = .unify) → ∀ P : Nat → Prop,
    (∀ b ∈ nodes, P b) → Simulates sb noPending P recs sb' noPending

theorem Replays.trans {sb sb' sb'' : BtreeSb L} {recs recs' : List LogRecord}
    {nodes nodes' all new new' : List Nat} (h : Replays sb sb' recs nodes)
    (h' : Replays sb' sb'' recs' nodes') (hgrown : Grown sb sb' new)
    (hgrown' : Grown sb' sb'' new') (hsub : ∀ b ∈ nodes ++ nodes', b ∈ all) :
    Replays sb sb'' (recs ++ recs') all where
  log_eq := by rw [h'.log_eq, h.log_eq, List.append_assoc]
  unify := by
    intro hclean b hb
    rw [List.flatMap_append] at hb
    rcases List.mem_append.mp hb with hb | hb
    · exact hgrown'.unify_of_unify (hgrown.freeClean hclean) (h.unify hclean b hb)
    · exact h'.unify (hgrown.freeClean hclean) b hb
  simulates := by
    intro hclean hunify P hP
    have hfirst := h.simulates hclean (fun b hb => hunify b (hsub b (by simp [hb]))) P
      fun b hb => hP b (hsub b (by simp [hb]))
    refine hfirst.trans (h'.simulates (hgrown.freeClean hclean) ?_ _ ?_) hgrown.entriesPerNode_eq
    · exact fun b hb => hgrown.unify_of_unify hclean (hunify b (hsub b (by simp [hb])))
    · exact fun b hb => .of_mem (hP b (hsub b (by simp [hb])))

end Tux3
