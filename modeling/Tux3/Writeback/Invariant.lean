/-
  Writeback/Invariant.lean --- what holds of dirty inodes.

  `InodeOk` is what holds of one inode, `BackendOk` what the backend may rely on.  Every
  step changes one inode and its place on the dirty lists; `WbInv.update` carries the
  invariant over such a change.
-/
import Tux3.Writeback.Inode

set_option autoImplicit false

namespace Tux3

/-! ## Dirty lists -/

/-- An inode is on the lists of the slots it is dirty in. -/
structure Listed (lists : DirtyLists) (id : Nat) (dirty : Bool → DirtyBits) : Prop where
  nodup : ∀ slot, (lists slot).Nodup
  mem_iff : ∀ slot, id ∈ lists slot ↔ dirty slot ≠ 0

/-- Only the place of one inode changes. -/
def ListFrame (lists lists' : DirtyLists) (id : Nat) : Prop :=
  ∀ slot j, j ≠ id → (j ∈ lists' slot ↔ j ∈ lists slot)

theorem ListFrame.refl (lists : DirtyLists) (id : Nat) : ListFrame lists lists id :=
  fun _ _ _ => Iff.rfl

section AddDirty

variable {lists : DirtyLists} {slot : Bool} {id : Nat}

theorem addDirty_of_ne {slot' : Bool} (h : slot' ≠ slot) :
    addDirty lists slot id slot' = lists slot' := by
  unfold addDirty
  split
  · rfl
  · exact Function.update_of_ne h _ _

theorem mem_addDirty {j : Nat} : j ∈ addDirty lists slot id slot ↔ j ∈ lists slot ∨ j = id := by
  unfold addDirty
  split
  · rename_i hid
    constructor
    · exact .inl
    · rintro (hj | rfl)
      · exact hj
      · exact hid
  · rw [Function.update_self, List.mem_append, List.mem_singleton]

theorem nodup_addDirty (h : ∀ slot, (lists slot).Nodup) (slot' : Bool) :
    (addDirty lists slot id slot').Nodup := by
  by_cases hslot : slot' = slot
  · subst hslot
    unfold addDirty
    split
    · exact h _
    · rename_i hid
      rw [Function.update_self]
      refine List.nodup_append.mpr ⟨h _, List.nodup_singleton _, ?_⟩
      rintro a ha b hb rfl
      rw [List.mem_singleton] at hb
      exact hid (hb ▸ ha)
  · rw [addDirty_of_ne hslot]
    exact h _

theorem addDirty_frame : ListFrame lists (addDirty lists slot id) id := by
  intro slot' j hj
  by_cases hslot : slot' = slot
  · subst hslot
    rw [mem_addDirty]
    exact ⟨fun hor => hor.resolve_right hj, .inl⟩
  · rw [addDirty_of_ne hslot]

end AddDirty

section DirtyBits

theorem dirtyBits_ne_zero (a f : DirtyBits) (hf : f ≠ 0) (h : a &&& f = f) : a ≠ 0 := by
  revert a f
  decide

theorem dirtyBits_or_ne_zero (a f : DirtyBits) (h : a &&& f ≠ f) : a ||| f ≠ 0 := by
  revert a f
  decide

theorem dirtyBits_or_right (a f : DirtyBits) (h : f ≠ 0) : a ||| f ≠ 0 := by
  revert a f
  decide

theorem dirtyBits_and_or (a f : DirtyBits) : a &&& (a ||| f) = a := by
  revert a f
  decide

theorem dirtyBits_and_self (a : DirtyBits) : a &&& a = a := BitVec.and_self

end DirtyBits

/-! ## One inode -/

/-- What holds of an inode: `marked` if a task is in the middle of marking it, and with
`held` references of the backend. -/
structure InodeOk (marked : Prop) (held : Nat) (inode : WbInode) : Prop where
  state : inode.isClean = false → inode.iState ≠ 0 ∨ marked
  held_le : held ≤ inode.iCount
  marked_lt : marked → held < inode.iCount
  kept : inode.iCount = 0 → inode.iState ≠ 0
  gone : inode.iNlink = 0 → inode.iCount = 0 → inode.isDead = true
  dead_dirty : ∀ slot, inode.dead = some slot → inode.dirty slot ≠ 0
  dead_once : inode.inodeDead = true → inode.dead = none
  deleted : inode.deletedIn.length = if inode.inodeDead then 1 else 0

theorem WbInode.isClean_eq_false {inode : WbInode} :
    inode.isClean = false ↔ (∃ slot, inode.dirty slot ≠ 0) ∨ inode.iattr ≠ none ∨
      inode.dead ≠ none ∨ inode.dirtyBtree = true := by
  have hdirty : (∃ slot, inode.dirty slot ≠ 0) ↔
      (inode.dirty false ≠ 0 ∨ inode.dirty true ≠ 0) := by
    constructor
    · rintro ⟨slot, h⟩
      cases slot
      · exact .inl h
      · exact .inr h
    · rintro (h | h)
      · exact ⟨_, h⟩
      · exact ⟨_, h⟩
  rw [hdirty]
  unfold isClean
  cases hiattr : inode.iattr <;> cases hdead : inode.dead <;>
    cases hbtree : inode.dirtyBtree <;> simp [← not_and_or]

theorem WbInode.dirty_of_isClean {inode : WbInode} (h : inode.isClean = true) (slot : Bool) :
    inode.dirty slot = 0 := by
  by_contra hne
  have hdirty := WbInode.isClean_eq_false.mpr (.inl ⟨slot, hne⟩)
  rw [h] at hdirty
  cases hdirty

/-! ## Dirtying an inode -/

/-- What `tux3_dirty_inode` does. -/
structure Dirtied (lists lists' : DirtyLists) (id : Nat) (inode inode' : WbInode) (slot : Bool)
    (flags : DirtyBits) : Prop where
  listed : Listed lists' id inode'.dirty
  frame : ListFrame lists lists' id
  lists_eq : ∀ slot', slot' ≠ slot → lists' slot' = lists slot'
  dirty_eq : ∀ slot', slot' ≠ slot → inode'.dirty slot' = inode.dirty slot'
  grows : inode.dirty slot &&& inode'.dirty slot = inode.dirty slot
  dirty : flags ≠ 0 → inode'.dirty slot ≠ 0
  rest : inode' = { inode with dirty := inode'.dirty }

section Dirty

variable {lists : DirtyLists} {id : Nat} {inode : WbInode} {delta : Nat} {flags : DirtyBits}

theorem tux3DirtyInode_dirtied (h : Listed lists id inode.dirty) :
    Dirtied lists (tux3DirtyInode lists id inode flags delta).1 id inode
      (tux3DirtyInode lists id inode flags delta).2 (deltaSlot delta) flags := by
  unfold tux3DirtyInode
  dsimp only
  split
  · rename_i hhas
    exact {
      listed := h
      frame := .refl _ _
      lists_eq := fun _ _ => rfl
      dirty_eq := fun _ _ => rfl
      grows := dirtyBits_and_self _
      dirty := fun hf => dirtyBits_ne_zero _ _ hf hhas
      rest := rfl }
  · rename_i hnew
    have hne := dirtyBits_or_ne_zero _ _ hnew
    have hself : Function.update inode.dirty (deltaSlot delta)
        (inode.dirty (deltaSlot delta) ||| flags) (deltaSlot delta) =
          inode.dirty (deltaSlot delta) ||| flags := Function.update_self _ _ _
    have hother : ∀ slot', slot' ≠ deltaSlot delta →
        Function.update inode.dirty (deltaSlot delta)
          (inode.dirty (deltaSlot delta) ||| flags) slot' = inode.dirty slot' :=
      fun slot' hslot => Function.update_of_ne hslot _ _
    exact {
      listed := {
        nodup := nodup_addDirty h.nodup
        mem_iff := by
          intro slot'
          dsimp only
          by_cases hslot : slot' = deltaSlot delta
          · subst hslot
            rw [mem_addDirty, hself]
            exact ⟨fun _ => hne, fun _ => .inr rfl⟩
          · rw [addDirty_of_ne hslot, hother slot' hslot]
            exact h.mem_iff _ }
      frame := addDirty_frame
      lists_eq := fun slot' hslot => addDirty_of_ne hslot
      dirty_eq := hother
      grows := by
        dsimp only
        rw [hself]
        exact dirtyBits_and_or _ _
      dirty := fun _ => by
        dsimp only
        rw [hself]
        exact hne
      rest := rfl }

/-- What a delta's slot says about an inode is kept. -/
structure Kept (slot : Bool) (inode inode' : WbInode) : Prop where
  dirty : inode.dirty slot &&& inode'.dirty slot = inode.dirty slot
  iattr : inode.iattr = some slot → inode'.iattr = some slot
  dead : inode.dead = some slot → inode'.dead = some slot
  state : inode.iState ≠ 0 → inode'.iState ≠ 0

/-- What is true of an inode that is evicted. -/
structure Evictable (marked : Prop) (lists : DirtyLists) (id : Nat) (inode : WbInode) :
    Prop where
  iCount : inode.iCount = 1
  iState : inode.iState = 0
  isClean : inode.isClean = true
  not_mem : ∀ slot, id ∉ lists slot
  not_marked : ¬marked
  deleted : inode.iNlink = 0 → inode.deletedIn.length = 1

/-- What `iput` does. -/
structure PutResult (lists : DirtyLists) (id : Nat) (inode : WbInode) (slot : Bool)
    (marked : Prop) (held : Nat) (r : DirtyLists × Option WbInode) : Prop where
  frame : ListFrame lists r.1 id
  nodup : ∀ slot, (r.1 slot).Nodup
  mem_iff : ∀ slot', id ∈ r.1 slot' ↔ ∃ inode', r.2 = some inode' ∧ inode'.dirty slot' ≠ 0
  lists_eq : ∀ slot', slot' ≠ slot → r.1 slot' = lists slot'
  inodeOk : ∀ inode', r.2 = some inode' → InodeOk marked held inode'
  kept : ∀ inode', r.2 = some inode' → Kept slot inode inode'
  dead_eq : ∀ inode', r.2 = some inode' → ∀ slot', slot' ≠ slot → inode'.dead = some slot' →
    inode.dead = some slot'
  evicted : r.2 = none → Evictable marked lists id inode

theorem PutResult.some {slot : Bool} {marked : Prop} {held : Nat} {inode' : WbInode}
    (hl : Listed lists id inode'.dirty) (h : InodeOk marked held inode')
    (hkept : Kept slot inode inode')
    (hdead : ∀ slot', slot' ≠ slot → inode'.dead = some slot' → inode.dead = some slot') :
    PutResult lists id inode slot marked held (lists, some inode') where
  frame := .refl _ _
  nodup := hl.nodup
  mem_iff := by
    intro slot'
    rw [hl.mem_iff]
    constructor
    · intro hne
      exact ⟨_, rfl, hne⟩
    · rintro ⟨inode'', ⟨⟩, hne⟩
      exact hne
  lists_eq := fun _ _ => rfl
  inodeOk := by
    rintro inode'' ⟨⟩
    exact h
  kept := by
    rintro inode'' ⟨⟩
    exact hkept
  dead_eq := by
    rintro inode'' ⟨⟩
    exact hdead
  evicted := nofun

/-- The last reference to an inode that has its dead mark, where it needs one: the inode
stays while it is dirty, and is clean where it goes. -/
theorem dropInode_ok {slot : Bool} {marked : Prop} {held : Nat}
    (h : InodeOk marked held inode) (hl : Listed lists id inode.dirty)
    (hcount : inode.iCount = 1) (hmarked : ¬marked)
    (hdead : inode.iNlink = 0 → inode.isDead = true) :
    ∃ r, (if inode.iState ≠ 0 then .ok (lists, some { inode with iCount := 0 })
        else tux3EvictInode lists id { inode with iCount := 0 }) = .ok r ∧
      PutResult lists id inode slot marked 0 r := by
  by_cases hstate : inode.iState = 0
  · rw [if_neg (not_not.mpr hstate)]
    have hclean : inode.isClean = true := by
      by_contra hne
      rw [Bool.not_eq_true] at hne
      rcases h.state hne with hs | hm
      · exact hs hstate
      · exact hmarked hm
    have hnot : ∀ slot, id ∉ lists slot := by
      intro slot
      rw [hl.mem_iff, not_not]
      exact WbInode.dirty_of_isClean hclean slot
    have hclean' : WbInode.isClean { inode with iCount := 0 } = true := hclean
    refine ⟨(lists, none), ?_, ?_⟩
    · unfold tux3EvictInode
      rw [tuxAssert_of hclean', tuxAssert_of ⟨hnot false, hnot true⟩]
      rfl
    · exact {
        frame := .refl _ _
        nodup := hl.nodup
        mem_iff := fun slot' => ⟨fun hmem => absurd hmem (hnot slot'), nofun⟩
        lists_eq := fun _ _ => rfl
        inodeOk := nofun
        kept := nofun
        dead_eq := nofun
        evicted := fun _ => {
          iCount := hcount
          iState := hstate
          isClean := hclean
          not_mem := hnot
          not_marked := hmarked
          deleted := fun hlink => by
            have hd := hdead hlink
            have hnone : inode.dead = none := by
              by_contra hne
              have hfalse := WbInode.isClean_eq_false.mpr (.inr (.inr (.inl hne)))
              rw [hclean] at hfalse
              cases hfalse
            unfold WbInode.isDead at hd
            rw [hnone] at hd
            rw [h.deleted, if_pos (by simpa using hd)] } }
  · rw [if_pos hstate]
    refine ⟨_, rfl, .some hl ?_ ?_ fun _ _ hd => hd⟩
    · exact {
        state := fun _ => .inl hstate
        held_le := Nat.zero_le _
        marked_lt := fun hm => absurd hm hmarked
        kept := fun _ => hstate
        gone := fun hlink _ => hdead hlink
        dead_dirty := h.dead_dirty
        dead_once := h.dead_once
        deleted := h.deleted }
    · exact ⟨dirtyBits_and_self _, fun hi => hi, fun hd => hd, fun hs => hs⟩

/-- `iput` keeps what holds of an inode, and evicts it only where it is clean. -/
theorem iput_ok (delta : Nat) {marked : Prop} {held held' : Nat}
    (h : InodeOk marked held inode) (hl : Listed lists id inode.dirty) (hcount : held' < inode.iCount)
    (hmarked : marked → held' + 1 < inode.iCount) :
    ∃ r, iput lists id inode delta = .ok r ∧
      PutResult lists id inode (deltaSlot delta) marked held' r := by
  unfold iput
  dsimp only
  by_cases hlast : inode.iCount - 1 = 0
  · have hone : inode.iCount = 1 := by omega
    obtain rfl : held' = 0 := by omega
    have hnot : ¬marked := fun hm => absurd (hmarked hm) (by omega)
    rw [if_neg (not_not.mpr hlast)]
    rw [hlast]
    by_cases hdrop : inode.iNlink = 0 ∧ inode.isDead = false
    · -- the dead mark is set now, which keeps the inode in core
      obtain ⟨hlink, hdead⟩ := hdrop
      have hnone : inode.dead = none := by
        unfold WbInode.isDead at hdead
        simpa using (Bool.or_eq_false_iff.mp hdead).1
      have hfirst : inode.inodeDead = false := (Bool.or_eq_false_iff.mp hdead).2
      have hd := @tux3DirtyInode_dirtied lists id
        { inode with iCount := 0, dead := some (deltaSlot delta) } delta iDirtySync hl
      have hmark : tux3MarkInodeToDelete lists id { inode with iCount := 0 } delta =
          .ok ((tux3DirtyInode lists id
              { inode with iCount := 0, dead := some (deltaSlot delta) } iDirtySync delta).1,
            { (tux3DirtyInode lists id
              { inode with iCount := 0, dead := some (deltaSlot delta) } iDirtySync delta).2 with
              iState := (tux3DirtyInode lists id
                { inode with iCount := 0, dead := some (deltaSlot delta) } iDirtySync
                delta).2.iState ||| iDirtySync }) := by
        unfold tux3MarkInodeToDelete
        rw [if_neg (by
          show ¬inode.isDead = true
          rw [hdead]
          nofun), tuxAssert_of (show WbInode.dead { inode with iCount := 0 } = none from hnone)]
        rfl
      generalize tux3DirtyInode lists id
        { inode with iCount := 0, dead := some (deltaSlot delta) } iDirtySync delta = p
        at hd hmark
      obtain ⟨lists', inode'⟩ := p
      dsimp only at hd hmark
      rw [show tux3DropInode lists id { inode with iCount := 0 } delta =
        tux3MarkInodeToDelete lists id { inode with iCount := 0 } delta from if_pos hlink, hmark]
      have hrest := hd.rest
      have hstate : inode'.iState ||| iDirtySync ≠ 0 :=
        dirtyBits_or_right _ _ (by decide)
      refine ⟨(lists', some { inode' with iState := inode'.iState ||| iDirtySync }), ?_, ?_⟩
      · show (if inode'.iState ||| iDirtySync ≠ 0 then _ else _) = _
        rw [if_pos hstate]
        rfl
      have hok : InodeOk marked 0 { inode' with iState := inode'.iState ||| iDirtySync } := by
        exact {
          state := fun _ => .inl hstate
          held_le := Nat.zero_le _
          marked_lt := fun hm => absurd hm hnot
          kept := fun _ => hstate
          gone := fun _ _ => by
            rw [hrest]
            rfl
          dead_dirty := by
            intro slot hslot
            rw [hrest] at hslot
            obtain rfl : deltaSlot delta = slot := Option.some.inj hslot
            exact hd.dirty (by decide)
          dead_once := by
            intro hin
            rw [hrest] at hin
            rw [show inode.inodeDead = true from hin] at hfirst
            cases hfirst
          deleted := by
            rw [hrest]
            exact h.deleted }
      exact {
        frame := hd.frame
        nodup := hd.listed.nodup
        mem_iff := by
          intro slot'
          rw [hd.listed.mem_iff]
          constructor
          · intro hne
            exact ⟨_, rfl, hne⟩
          · rintro ⟨inode'', ⟨⟩, hne⟩
            exact hne
        lists_eq := hd.lists_eq
        inodeOk := by
          rintro inode'' ⟨⟩
          exact hok
        kept := by
          rintro inode'' ⟨⟩
          refine ⟨hd.grows, fun hi => ?_, fun hdd => ?_, fun _ => hstate⟩
          · rw [hrest]
            exact hi
          · rw [hnone] at hdd
            cases hdd
        dead_eq := by
          rintro inode'' ⟨⟩ slot' hslot hdd
          rw [hrest] at hdd
          exact absurd (Option.some.inj hdd).symm hslot
        evicted := nofun }
    · have hdead : inode.iNlink = 0 → inode.isDead = true := by
        intro hlink
        by_contra hne
        exact hdrop ⟨hlink, by simpa using hne⟩
      have hsame : tux3DropInode lists id { inode with iCount := 0 } delta =
          .ok (lists, { inode with iCount := 0 }) := by
        unfold tux3DropInode
        dsimp only
        split
        · rename_i hlink
          unfold tux3MarkInodeToDelete
          rw [if_pos (show WbInode.isDead { inode with iCount := 0 } = true from hdead hlink)]
          rfl
        · rfl
      rw [hsame]
      exact dropInode_ok h hl hone hnot hdead
  · rw [if_pos hlast]
    refine ⟨_, rfl, .some hl ?_ ⟨dirtyBits_and_self _, fun hi => hi, fun hd => hd, fun hs => hs⟩
      fun _ _ hd => hd⟩
    exact {
      state := h.state
      held_le := by
        show held' ≤ inode.iCount - 1
        omega
      marked_lt := fun hm => by
        have hlt := hmarked hm
        show held' < inode.iCount - 1
        omega
      kept := fun h0 => absurd h0 hlast
      gone := fun _ h0 => absurd h0 hlast
      dead_dirty := h.dead_dirty
      dead_once := h.dead_once
      deleted := h.deleted }

end Dirty

/-! ## The invariant -/

/-- Inodes with a dead mark for the slot are on `todo`. -/
def WbSb.DeadIn (sb : WbSb) (slot : Bool) (todo : List Nat) : Prop :=
  ∀ id inode, sb.inodes id = some inode → inode.dead = some slot → id ∈ todo

/-- What the backend relies on: the frontend is in another slot, the inodes that are still to
do are on its list, and once it has read an inode's state there is no dead mark left. -/
def WbSb.BackendOk (sb : WbSb) : Prop :=
  match sb.backend with
  | .idle => True
  | .waiting delta => deltaSlot delta ≠ deltaSlot sb.delta
  | .flushing delta todo => deltaSlot delta ≠ deltaSlot sb.delta ∧
      (∀ id ∈ todo, id ∈ sb.dirtyInodes (deltaSlot delta)) ∧ sb.DeadIn (deltaSlot delta) todo
  | .reading delta id _ todo => deltaSlot delta ≠ deltaSlot sb.delta ∧
      (∀ j ∈ id :: todo, j ∈ sb.dirtyInodes (deltaSlot delta)) ∧
      sb.DeadIn (deltaSlot delta) todo
  | .clearing delta todo => deltaSlot delta ≠ deltaSlot sb.delta ∧
      sb.dirtyInodes (deltaSlot delta) = todo ∧ sb.DeadIn (deltaSlot delta) []
  | .grabbed delta id todo => deltaSlot delta ≠ deltaSlot sb.delta ∧
      sb.dirtyInodes (deltaSlot delta) = id :: todo ∧ sb.DeadIn (deltaSlot delta) []
  | .cleared delta id todo => deltaSlot delta ≠ deltaSlot sb.delta ∧
      sb.dirtyInodes (deltaSlot delta) = todo ∧ sb.DeadIn (deltaSlot delta) [] ∧
      ∃ inode, sb.inodes id = some inode

/-- A mark that is under way. -/
structure WbSb.MarkOk (sb : WbSb) (m : Mark) : Prop where
  inDelta : sb.InDelta m.delta
  inCore : ∃ inode, sb.inodes m.id = some inode
  flags : m.flags ≠ some 0

/-- What holds in every state. -/
structure WbInv (sb : WbSb) : Prop where
  nodup : ∀ slot, (sb.dirtyInodes slot).Nodup
  listed : ∀ slot id, id ∈ sb.dirtyInodes slot ↔
    ∃ inode, sb.inodes id = some inode ∧ inode.dirty slot ≠ 0
  inodeOk : ∀ id inode, sb.inodes id = some inode →
    InodeOk (sb.Marked id) (sb.backend.held id) inode
  marks : ∀ m ∈ sb.marks, sb.MarkOk m
  backend : sb.BackendOk

section Inv

variable {sb sb' : WbSb} {id : Nat} {inode : WbInode}

theorem WbInv.listed_of (h : WbInv sb) (hid : sb.inodes id = some inode) :
    Listed sb.dirtyInodes id inode.dirty := by
  refine ⟨h.nodup, fun slot => ?_⟩
  rw [h.listed]
  constructor
  · rintro ⟨inode', hid', hne⟩
    rw [hid] at hid'
    cases hid'
    exact hne
  · intro hne
    exact ⟨inode, hid, hne⟩

theorem WbInv.not_listed (h : WbInv sb) (hid : sb.inodes id = none) (slot : Bool) :
    id ∉ sb.dirtyInodes slot := by
  rw [h.listed]
  rintro ⟨inode, hid', -⟩
  rw [hid] at hid'
  cases hid'

/-- A change of one inode, and of its place on the lists. -/
theorem WbInv.update {r : DirtyLists × Option WbInode} (h : WbInv sb)
    (hinodes : sb'.inodes = Function.update sb.inodes id r.2) (hlists : sb'.dirtyInodes = r.1)
    (hframe : ListFrame sb.dirtyInodes r.1 id) (hnodup : ∀ slot, (r.1 slot).Nodup)
    (hmem : ∀ slot, id ∈ r.1 slot ↔ ∃ inode, r.2 = some inode ∧ inode.dirty slot ≠ 0)
    (hmarked : ∀ j, j ≠ id → (sb'.Marked j ↔ sb.Marked j))
    (hheld : ∀ j, j ≠ id → sb'.backend.held j = sb.backend.held j)
    (hinode : ∀ inode, r.2 = some inode → InodeOk (sb'.Marked id) (sb'.backend.held id) inode)
    (hmarks : ∀ m ∈ sb'.marks, sb'.MarkOk m) (hbackend : sb'.BackendOk) : WbInv sb' where
  nodup := by
    rw [hlists]
    exact hnodup
  listed := by
    intro slot j
    rw [hlists, hinodes]
    by_cases hj : j = id
    · subst hj
      rw [Function.update_self]
      exact hmem slot
    · rw [Function.update_of_ne hj, hframe slot j hj]
      exact h.listed slot j
  inodeOk := by
    intro j inode hget
    rw [hinodes] at hget
    by_cases hj : j = id
    · subst hj
      rw [Function.update_self] at hget
      exact hinode inode hget
    · rw [Function.update_of_ne hj] at hget
      have hok := h.inodeOk j inode hget
      rw [hheld j hj]
      exact { hok with
        state := fun hc => (hok.state hc).imp (fun hs => hs) (hmarked j hj).mpr
        marked_lt := fun hm => hok.marked_lt ((hmarked j hj).mp hm) }
  marks := hmarks
  backend := hbackend

/-- What a step of the frontend does to one inode. -/
structure FrontChange (sb : WbSb) (id : Nat) (slot : Bool) (r : DirtyLists × Option WbInode) :
    Prop where
  frame : ListFrame sb.dirtyInodes r.1 id
  nodup : ∀ slot, (r.1 slot).Nodup
  mem_iff : ∀ slot, id ∈ r.1 slot ↔ ∃ inode, r.2 = some inode ∧ inode.dirty slot ≠ 0
  lists_eq : ∀ slot', slot' ≠ slot → r.1 slot' = sb.dirtyInodes slot'
  dead_eq : ∀ slot', slot' ≠ slot → ∀ inode', r.2 = some inode' → inode'.dead = some slot' →
    ∃ inode, sb.inodes id = some inode ∧ inode.dead = some slot'
  held : r.2 = none → sb.backend.held id = 0

theorem FrontChange.deadIn {slot slot' : Bool} {r : DirtyLists × Option WbInode}
    {todo : List Nat} (h : FrontChange sb id slot r) (hne : slot' ≠ slot)
    (hinodes : sb'.inodes = Function.update sb.inodes id r.2) (hdead : sb.DeadIn slot' todo) :
    sb'.DeadIn slot' todo := by
  intro j inode hget hd
  rw [hinodes] at hget
  by_cases hj : j = id
  · subst hj
    rw [Function.update_self] at hget
    obtain ⟨inode', hget', hd'⟩ := h.dead_eq slot' hne inode hget hd
    exact hdead j inode' hget' hd'
  · rw [Function.update_of_ne hj] at hget
    exact hdead j inode hget hd

/-- The backend does not notice a step of the frontend. -/
theorem FrontChange.backendOk {delta : Nat} {r : DirtyLists × Option WbInode}
    (h : FrontChange sb id (deltaSlot delta) r) (hdelta : sb.InDelta delta)
    (hok : sb.BackendOk) (hinodes : sb'.inodes = Function.update sb.inodes id r.2)
    (hlists : sb'.dirtyInodes = r.1) (hcur : sb'.delta = sb.delta)
    (hback : sb'.backend = sb.backend) : sb'.BackendOk := by
  unfold WbSb.BackendOk at hok ⊢
  rw [hback, hcur]
  rw [WbSb.InDelta] at hdelta
  -- where the backend works on a delta, the frontend is in the current one
  have hslot : ∀ d, sb.backend ≠ .waiting delta → deltaSlot d ≠ deltaSlot sb.delta →
      deltaSlot d ≠ deltaSlot delta := by
    intro d hnot hne
    rwa [hdelta.resolve_right hnot]
  have heq : ∀ d, deltaSlot d ≠ deltaSlot delta →
      sb'.dirtyInodes (deltaSlot d) = sb.dirtyInodes (deltaSlot d) := by
    intro d hne
    rw [hlists, h.lists_eq _ hne]
  cases hb : sb.backend with
  | idle => trivial
  | waiting d =>
      rw [hb] at hok
      exact hok
  | flushing d todo =>
      rw [hb] at hok hslot
      obtain ⟨hne, hmem, hdead⟩ := hok
      have hne' := hslot d nofun hne
      refine ⟨hne, ?_, h.deadIn hne' hinodes hdead⟩
      rw [heq d hne']
      exact hmem
  | reading d j deleted todo =>
      rw [hb] at hok hslot
      obtain ⟨hne, hmem, hdead⟩ := hok
      have hne' := hslot d nofun hne
      refine ⟨hne, ?_, h.deadIn hne' hinodes hdead⟩
      rw [heq d hne']
      exact hmem
  | clearing d todo =>
      rw [hb] at hok hslot
      obtain ⟨hne, hmem, hdead⟩ := hok
      have hne' := hslot d nofun hne
      exact ⟨hne, (heq d hne').trans hmem, h.deadIn hne' hinodes hdead⟩
  | grabbed d j todo =>
      rw [hb] at hok hslot
      obtain ⟨hne, hmem, hdead⟩ := hok
      have hne' := hslot d nofun hne
      exact ⟨hne, (heq d hne').trans hmem, h.deadIn hne' hinodes hdead⟩
  | cleared d j todo =>
      rw [hb] at hok hslot
      obtain ⟨hne, hmem, hdead, hcore⟩ := hok
      have hne' := hslot d nofun hne
      refine ⟨hne, (heq d hne').trans hmem, h.deadIn hne' hinodes hdead, ?_⟩
      rw [hinodes]
      by_cases hj : j = id
      · subst hj
        rw [Function.update_self]
        rw [← Option.isSome_iff_exists, Option.isSome_iff_ne_none]
        intro hnone
        have hheld := h.held hnone
        rw [hb] at hheld
        simp [WbBackend.held] at hheld
      · rw [Function.update_of_ne hj]
        exact hcore

/-- A step of the frontend keeps the invariant. -/
theorem WbInv.front (h : WbInv sb) {delta : Nat} {r : DirtyLists × Option WbInode}
    (marks' : List Mark) (hdelta : sb.InDelta delta) (hc : FrontChange sb id (deltaSlot delta) r)
    (hmarked : ∀ j, j ≠ id → ((∃ m ∈ marks', m.id = j) ↔ sb.Marked j))
    (hinode : ∀ inode, r.2 = some inode →
      InodeOk (∃ m ∈ marks', m.id = id) (sb.backend.held id) inode)
    (hmarks : ∀ m ∈ marks', sb.InDelta m.delta ∧ m.flags ≠ some 0 ∧
      (m.id = id → r.2 ≠ none) ∧ (m.id ≠ id → m ∈ sb.marks)) :
    WbInv { sb.store id r with marks := marks' } := by
  refine h.update rfl rfl hc.frame hc.nodup hc.mem_iff hmarked (fun _ _ => rfl) hinode
    ?_ (hc.backendOk hdelta h.backend rfl rfl rfl rfl)
  intro m hm
  obtain ⟨hin, hflags, hself, hother⟩ := hmarks m hm
  refine ⟨hin, ?_, hflags⟩
  by_cases hj : m.id = id
  · obtain ⟨inode, hsome⟩ := Option.ne_none_iff_exists'.mp (hself hj)
    exact ⟨inode, by rw [hj]; exact (Function.update_self _ _ _).trans hsome⟩
  · obtain ⟨inode, hsome⟩ := (h.marks m (hother hj)).inCore
    exact ⟨inode, (Function.update_of_ne hj _ _).trans hsome⟩

end Inv

end Tux3
