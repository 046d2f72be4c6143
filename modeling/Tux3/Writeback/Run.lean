/-
  Writeback/Run.lean --- every interleaving of frontend and backend.

  Each step that a task can take passes its asserts and keeps the invariant.  A step of the
  backend also keeps what the frontend changed in its delta.
-/
import Tux3.Writeback.Invariant

set_option autoImplicit false

namespace Tux3

section Inv

variable {sb sb' : WbSb} {id : Nat} {inode : WbInode}

/-! ## Steps of the frontend -/

/-- Only a clean inode leaves core. -/
def WbSb.Evicts (sb sb' : WbSb) : Prop :=
  ∀ id inode, sb.inodes id = some inode → sb'.inodes id = none →
    Evictable (sb.Marked id) sb.dirtyInodes id inode

theorem WbSb.Evicts.of_some {r : WbInode}
    (hinodes : sb'.inodes = Function.update sb.inodes id (some r)) : sb.Evicts sb' := by
  intro j inode hget hnone
  rw [hinodes] at hnone
  by_cases hj : j = id
  · subst hj
    rw [Function.update_self] at hnone
    cases hnone
  · rw [Function.update_of_ne hj, hget] at hnone
    cases hnone

theorem WbInv.held_eq_zero (h : WbInv sb) (hid : sb.inodes id = none) :
    sb.backend.held id = 0 := by
  have hok := h.backend
  have hnot := h.not_listed hid
  unfold WbSb.BackendOk at hok
  cases hb : sb.backend with
  | grabbed delta j todo =>
      rw [hb] at hok
      have hne : j ≠ id := by
        rintro rfl
        exact hnot (deltaSlot delta) (by rw [hok.2.1]; exact List.mem_cons_self)
      exact if_neg hne
  | cleared delta j todo =>
      rw [hb] at hok
      have hne : j ≠ id := by
        rintro rfl
        obtain ⟨inode, hsome⟩ := hok.2.2.2
        rw [hid] at hsome
        cases hsome
      exact if_neg hne
  | idle | waiting delta | flushing delta todo | clearing delta todo => rfl
  | reading delta j deleted todo => rfl

theorem WbInv.not_marked (h : WbInv sb) (hid : sb.inodes id = none) : ¬sb.Marked id := by
  rintro ⟨m, hm, rfl⟩
  obtain ⟨inode, hsome⟩ := (h.marks m hm).inCore
  rw [hid] at hsome
  cases hsome

/-- A change that leaves dirty bits and dead mark alone. -/
theorem FrontChange.quiet (h : WbInv sb) {inode' : WbInode} (slot : Bool)
    (hid : sb.inodes id = some inode) (hdirty : inode'.dirty = inode.dirty)
    (hdead : inode'.dead = inode.dead) :
    FrontChange sb id slot (sb.dirtyInodes, some inode') where
  frame := .refl _ _
  nodup := h.nodup
  mem_iff := by
    intro slot
    rw [(h.listed_of hid).mem_iff, ← hdirty]
    constructor
    · intro hne
      exact ⟨_, rfl, hne⟩
    · rintro ⟨inode'', ⟨⟩, hne⟩
      exact hne
  lists_eq := fun _ _ => rfl
  dead_eq := by
    rintro slot' - inode'' ⟨⟩ hd
    exact ⟨inode, hid, hdead ▸ hd⟩
  held := nofun

/-- An inode is marked dirty. -/
theorem FrontChange.dirty {slot : Bool} {inode' : WbInode} {lists : DirtyLists}
    {flags : DirtyBits} (hid : sb.inodes id = some inode)
    (hd : Dirtied sb.dirtyInodes lists id inode inode' slot flags) :
    FrontChange sb id slot (lists, some inode') where
  frame := hd.frame
  nodup := hd.listed.nodup
  mem_iff := by
    intro slot'
    rw [hd.listed.mem_iff]
    constructor
    · intro hne
      exact ⟨_, rfl, hne⟩
    · rintro ⟨inode'', ⟨⟩, hne⟩
      exact hne
  lists_eq := hd.lists_eq
  dead_eq := by
    rintro slot' - inode'' ⟨⟩ hdead
    rw [hd.rest] at hdead
    exact ⟨inode, hid, hdead⟩
  held := nofun

theorem dirtyBits_ne_zero_of_and {a b : DirtyBits} (h : a &&& b = a) (ha : a ≠ 0) : b ≠ 0 := by
  revert a b
  decide

theorem Dirtied.ne_zero {lists lists' : DirtyLists} {inode' : WbInode} {slot : Bool}
    {flags : DirtyBits} (hd : Dirtied lists lists' id inode inode' slot flags) {slot' : Bool}
    (h : inode.dirty slot' ≠ 0) : inode'.dirty slot' ≠ 0 := by
  by_cases hslot : slot' = slot
  · subst hslot
    exact dirtyBits_ne_zero_of_and hd.grows h
  · rwa [hd.dirty_eq slot' hslot]

theorem InodeOk.dirtied {lists lists' : DirtyLists} {inode' : WbInode} {slot : Bool}
    {flags : DirtyBits} {marked marked' : Prop} {held : Nat} (h : InodeOk marked held inode)
    (hd : Dirtied lists lists' id inode inode' slot flags) (hmarked : marked')
    (hlt : held < inode.iCount) : InodeOk marked' held inode' := by
  have hrest := hd.rest
  exact {
    state := fun _ => .inr hmarked
    held_le := by
      rw [hrest]
      exact h.held_le
    marked_lt := fun _ => by
      rw [hrest]
      exact hlt
    kept := by
      rw [hrest]
      exact h.kept
    gone := by
      rw [hrest]
      exact h.gone
    dead_dirty := by
      intro slot' hdead
      rw [hrest] at hdead
      exact hd.ne_zero (h.dead_dirty slot' hdead)
    dead_once := by
      rw [hrest]
      exact h.dead_once
    deleted := by
      rw [hrest]
      exact h.deleted }

theorem WbSb.inode_eq (hid : sb.inodes id = some inode) : sb.inode id = .ok inode := by
  unfold WbSb.inode
  rw [hid]

/-- A step that keeps the marks, the dirty bits and the dead mark. -/
theorem WbInv.setInode (h : WbInv sb) {inode' : WbInode} (hid : sb.inodes id = some inode)
    (hdirty : inode'.dirty = inode.dirty) (hdead : inode'.dead = inode.dead)
    (hok : InodeOk (sb.Marked id) (sb.backend.held id) inode') :
    WbInv (sb.setInode id inode') := by
  refine h.front sb.marks (.inl rfl)
    (.quiet h _ hid hdirty hdead) (fun _ _ => Iff.rfl) ?_ ?_
  · rintro inode'' ⟨⟩
    exact hok
  · intro m hm
    exact ⟨(h.marks m hm).inDelta, (h.marks m hm).flags, nofun, fun _ => hm⟩

/-- A step of `iput` in a frontend task. -/
theorem WbInv.iput_ok (h : WbInv sb) (hrefs : sb.RefsAbove id 0)
    (hmarked : sb.Marked id → sb.RefsAbove id 1) :
    ∃ sb', sb.put id = .ok sb' ∧ WbInv sb' ∧ sb.Evicts sb' := by
  obtain ⟨inode, hid, hlt⟩ := hrefs
  obtain ⟨r, hr, hput⟩ := Tux3.iput_ok sb.delta (h.inodeOk id inode hid)
    (h.listed_of hid) hlt (by
      intro hm
      obtain ⟨inode', hid', hlt'⟩ := hmarked hm
      rw [hid] at hid'
      cases hid'
      exact hlt')
  refine ⟨sb.store id r, ?_, ?_, ?_⟩
  · unfold WbSb.put
    rw [WbSb.inode_eq hid]
    show (do
      let r ← iput sb.dirtyInodes id inode sb.delta
      pure (sb.store id r)) = _
    rw [hr]
    rfl
  · refine h.front sb.marks (.inl rfl) ?_ (fun _ _ => Iff.rfl)
      hput.inodeOk ?_
    · exact {
        frame := hput.frame
        nodup := hput.nodup
        mem_iff := hput.mem_iff
        lists_eq := hput.lists_eq
        dead_eq := fun slot' hne inode' hsome hd =>
          ⟨inode, hid, hput.dead_eq inode' hsome slot' hne hd⟩
        held := fun hnone => by
          have hone := (hput.evicted hnone).iCount
          omega }
    · intro m hm
      refine ⟨(h.marks m hm).inDelta, (h.marks m hm).flags, fun hj hnone => ?_, fun _ => hm⟩
      exact (hput.evicted hnone).not_marked ⟨m, hm, hj⟩
  · intro j inode' hget hnone
    by_cases hj : j = id
    · subst hj
      rw [hid] at hget
      cases hget
      exact hput.evicted ((sb.store_self j r).symm.trans hnone)
    · have hsame : sb.inodes j = none := (sb.store_of_ne r hj).symm.trans hnone
      rw [hget] at hsame
      cases hsame

/-- A task begins to mark an inode, of the delta it works in. -/
theorem WbInv.beginMark (h : WbInv sb) {delta : Nat} {flags : Option DirtyBits}
    {r : DirtyLists × Option WbInode} (hdelta : sb.InDelta delta) (hflags : flags ≠ some 0)
    (hc : FrontChange sb id (deltaSlot delta) r) (hsome : r.2 ≠ none)
    (hinode : ∀ inode, r.2 = some inode → InodeOk True (sb.backend.held id) inode) :
    WbInv { sb.store id r with marks := ⟨delta, id, flags⟩ :: sb.marks } := by
  have hself : ∃ m ∈ (⟨delta, id, flags⟩ : Mark) :: sb.marks, m.id = id :=
    ⟨_, List.mem_cons_self, rfl⟩
  refine h.front _ hdelta hc ?_ ?_ ?_
  · intro j hj
    simp only [List.mem_cons, exists_eq_or_imp]
    constructor
    · rintro (hj' | hm)
      · exact absurd hj'.symm hj
      · exact hm
    · exact .inr
  · intro inode hget
    have hok := hinode inode hget
    exact { hok with
      state := fun _ => .inr hself
      marked_lt := fun _ => hok.marked_lt trivial }
  · intro m hm
    rcases List.mem_cons.mp hm with rfl | hm
    · exact ⟨hdelta, hflags, fun _ => hsome, fun hne => absurd rfl hne⟩
    · exact ⟨(h.marks m hm).inDelta, (h.marks m hm).flags, fun _ => hsome, fun _ => hm⟩

theorem exists_mark_erase {marks : List Mark} {mark : Mark} {j : Nat} (hj : j ≠ mark.id) :
    (∃ m ∈ marks.erase mark, m.id = j) ↔ ∃ m ∈ marks, m.id = j := by
  constructor
  · rintro ⟨m, hm, hid⟩
    exact ⟨m, List.mem_of_mem_erase hm, hid⟩
  · rintro ⟨m, hm, hid⟩
    refine ⟨m, (List.mem_erase_of_ne ?_).mpr hm, hid⟩
    rintro rfl
    exact hj hid.symm

/-- A task goes on from `tux3_iattrdirty` to `tux3_dirty_inode`. -/
theorem WbInv.dirtyAfterIattr_ok (h : WbInv sb) {mark : Mark} {flags : DirtyBits}
    (hmark : mark ∈ sb.marks) (hflags : flags ≠ 0) :
    ∃ sb', sb.front (.dirtyAfterIattr mark flags) = .ok sb' ∧ WbInv sb' ∧ sb.Evicts sb' := by
  obtain ⟨hdelta, ⟨inode, hid⟩, -⟩ := h.marks mark hmark
  have hok := h.inodeOk _ _ hid
  have hd := @tux3DirtyInode_dirtied sb.dirtyInodes mark.id inode mark.delta flags
    (h.listed_of hid)
  have hexec : sb.front (.dirtyAfterIattr mark flags) = .ok
      { sb.store mark.id
          ((tux3DirtyInode sb.dirtyInodes mark.id inode flags mark.delta).1,
            some (tux3DirtyInode sb.dirtyInodes mark.id inode flags mark.delta).2) with
        marks := ⟨mark.delta, mark.id, some flags⟩ :: sb.marks.erase mark } := by
    simp only [WbSb.front, WbSb.inode_eq hid]
    rfl
  refine ⟨_, hexec, ?_, .of_some rfl⟩
  have hself : ∃ m ∈ (⟨mark.delta, mark.id, some flags⟩ : Mark) :: sb.marks.erase mark,
      m.id = mark.id := ⟨_, List.mem_cons_self, rfl⟩
  refine h.front _ hdelta (.dirty hid hd) ?_ ?_ ?_
  · intro j hj
    simp only [List.mem_cons, exists_eq_or_imp]
    rw [exists_mark_erase hj]
    constructor
    · rintro (hj' | hm)
      · exact absurd hj'.symm hj
      · exact hm
    · exact .inr
  · rintro inode' ⟨⟩
    exact hok.dirtied hd hself (hok.marked_lt ⟨mark, hmark, rfl⟩)
  · intro m hm
    rcases List.mem_cons.mp hm with rfl | hm
    · exact ⟨hdelta, by simpa using hflags, fun _ => nofun, fun hne => absurd rfl hne⟩
    · have hm' := List.mem_of_mem_erase hm
      exact ⟨(h.marks m hm').inDelta, (h.marks m hm').flags, fun _ => nofun, fun _ => hm'⟩

/-- The second part of `__mark_inode_dirty`. -/
theorem WbInv.markState_ok (h : WbInv sb) {mark : Mark} (hmark : mark ∈ sb.marks)
    (hflags : mark.flags ≠ none) :
    ∃ sb', sb.front (.markState mark) = .ok sb' ∧ WbInv sb' ∧ sb.Evicts sb' := by
  obtain ⟨hdelta, ⟨inode, hid⟩, hzero⟩ := h.marks mark hmark
  have hok := h.inodeOk _ _ hid
  have hexec : sb.front (.markState mark) = .ok
      { sb.setInode mark.id { inode with iState := inode.iState ||| mark.flags.getD 0 } with
        marks := sb.marks.erase mark } := by
    simp only [WbSb.front, WbSb.inode_eq hid]
    rfl
  have hstate : inode.iState ||| mark.flags.getD 0 ≠ 0 := by
    obtain ⟨flags, hsome⟩ := Option.ne_none_iff_exists'.mp hflags
    rw [hsome] at hzero ⊢
    exact dirtyBits_or_right _ _ (by simpa using hzero)
  refine ⟨_, hexec, ?_, .of_some rfl⟩
  refine h.front _ hdelta (.quiet h _ hid rfl rfl) (fun j hj => exists_mark_erase hj) ?_ ?_
  · rintro inode' ⟨⟩
    exact {
      state := fun _ => .inl hstate
      held_le := hok.held_le
      marked_lt := fun ⟨m, hm, hj⟩ => hok.marked_lt ⟨m, List.mem_of_mem_erase hm, hj⟩
      kept := fun _ => hstate
      gone := hok.gone
      dead_dirty := hok.dead_dirty
      dead_once := hok.dead_once
      deleted := hok.deleted }
  · intro m hm
    have hm' := List.mem_of_mem_erase hm
    exact ⟨(h.marks m hm').inDelta, (h.marks m hm').flags, fun _ => nofun, fun _ => hm'⟩

/-- A fresh inode. -/
theorem WbInv.load_ok (h : WbInv sb) {iNlink : Nat} {orphaned : Bool}
    (hid : sb.inodes id = none) :
    ∃ sb', sb.front (.load id iNlink orphaned) = .ok sb' ∧ WbInv sb' ∧ sb.Evicts sb' := by
  have hheld := h.held_eq_zero hid
  have hnot := h.not_marked hid
  refine ⟨_, rfl, ?_, .of_some rfl⟩
  refine h.front sb.marks (.inl rfl) ?_ (fun _ _ => Iff.rfl) ?_ ?_
  · exact {
      frame := .refl _ _
      nodup := h.nodup
      mem_iff := fun slot => by
        constructor
        · exact fun hmem => absurd hmem (h.not_listed hid slot)
        · rintro ⟨inode, ⟨⟩, hne⟩
          exact absurd rfl hne
      lists_eq := fun _ _ => rfl
      dead_eq := by
        rintro slot' - inode ⟨⟩ hd
        cases hd
      held := nofun }
  · rintro inode ⟨⟩
    rw [hheld]
    exact {
      state := fun hc => by cases hc
      held_le := Nat.zero_le _
      marked_lt := fun hm => absurd hm hnot
      kept := nofun
      gone := fun _ h1 => by cases h1
      dead_dirty := nofun
      dead_once := nofun
      deleted := rfl }
  · intro m hm
    refine ⟨(h.marks m hm).inDelta, (h.marks m hm).flags, fun hj => ?_, fun _ => hm⟩
    exact absurd ⟨m, hm, hj⟩ hnot

/-- `__iget` finds a reference or a dirty inode, and takes a reference. -/
theorem InodeOk.iget_ok {marked : Prop} {held : Nat} (h : InodeOk marked held inode) :
    ∃ inode', (iget inode = .ok inode' ∧ inode' = { inode with iCount := inode.iCount + 1 }) ∧
      InodeOk marked held inode' := by
  have hassert : inode.iCount ≠ 0 ∨ inode.iState ≠ 0 := by
    by_cases h0 : inode.iCount = 0
    · exact .inr (h.kept h0)
    · exact .inl h0
  refine ⟨_, ⟨?_, rfl⟩, ?_⟩
  · unfold iget
    rw [tuxAssert_of hassert]
    rfl
  · exact { h with
      held_le := Nat.le_succ_of_le h.held_le
      marked_lt := fun hm => Nat.lt_succ_of_lt (h.marked_lt hm)
      kept := nofun
      gone := nofun }

/-- Every step that a frontend task can take passes its asserts, keeps the invariant, and
evicts only a clean inode. -/
theorem WbInv.front_ok (h : WbInv sb) {step : FrontendStep} (hstep : sb.CanFront step) :
    ∃ sb', sb.front step = .ok sb' ∧ WbInv sb' ∧ sb.Evicts sb' := by
  cases step with
  | load id iNlink orphaned => exact h.load_ok hstep
  | ihold id =>
      obtain ⟨inode, hid, hlt⟩ := hstep
      have hok := h.inodeOk _ _ hid
      have hpos : 1 ≤ inode.iCount := by omega
      refine ⟨sb.setInode id { inode with iCount := inode.iCount + 1 }, ?_,
        h.setInode hid rfl rfl ?_, .of_some rfl⟩
      · simp only [WbSb.front, WbSb.inode_eq hid]
        show (tuxAssert (1 ≤ inode.iCount) >>= fun _ => _) = _
        rw [tuxAssert_of hpos]
        rfl
      · exact { hok with
          held_le := Nat.le_succ_of_le hok.held_le
          marked_lt := fun hm => Nat.lt_succ_of_lt (hok.marked_lt hm)
          kept := nofun
          gone := nofun }
  | iget id =>
      obtain ⟨inode, hid, -⟩ := hstep
      obtain ⟨inode', hget, hok⟩ := (h.inodeOk _ _ hid).iget_ok
      refine ⟨sb.setInode id inode', ?_, ?_, .of_some rfl⟩
      · simp only [WbSb.front, WbSb.inode_eq hid]
        show (iget inode >>= fun _ => _) = _
        rw [hget.1]
        rfl
      · rw [hget.2] at hok ⊢
        exact h.setInode hid rfl rfl hok
  | iattrdirty delta id =>
      obtain ⟨hdelta, inode, hid, hlt⟩ := hstep
      have hok := h.inodeOk _ _ hid
      refine ⟨{ sb.setInode id (inode.tux3Iattrdirty delta) with
          marks := ⟨delta, id, none⟩ :: sb.marks }, ?_, ?_, .of_some rfl⟩
      · simp only [WbSb.front, WbSb.inode_eq hid]
        rfl
      · refine h.beginMark hdelta nofun (.quiet h _ hid rfl rfl) nofun ?_
        rintro inode' ⟨⟩
        exact { hok with
          state := fun _ => .inr trivial
          marked_lt := fun _ => hlt }
  | dirtyInode delta id flags =>
      obtain ⟨hdelta, ⟨inode, hid, hlt⟩, hflags⟩ := hstep
      have hok := h.inodeOk _ _ hid
      have hd := @tux3DirtyInode_dirtied sb.dirtyInodes id inode delta flags (h.listed_of hid)
      refine ⟨{ sb.store id ((tux3DirtyInode sb.dirtyInodes id inode flags delta).1,
            some (tux3DirtyInode sb.dirtyInodes id inode flags delta).2) with
          marks := ⟨delta, id, some flags⟩ :: sb.marks }, ?_, ?_, .of_some rfl⟩
      · simp only [WbSb.front, WbSb.inode_eq hid]
        rfl
      · refine h.beginMark hdelta (by simpa using hflags) (.dirty hid hd) nofun ?_
        rintro inode' ⟨⟩
        exact hok.dirtied hd trivial hlt
  | dirtyAfterIattr mark flags => exact h.dirtyAfterIattr_ok hstep.1 hstep.2.2
  | markState mark => exact h.markState_ok hstep.1 hstep.2
  | incLink id =>
      obtain ⟨⟨inode, hid, hlt⟩, -⟩ := hstep
      have hok := h.inodeOk _ _ hid
      refine ⟨sb.setInode id { inode with iNlink := inode.iNlink + 1 }, ?_,
        h.setInode hid rfl rfl { hok with gone := nofun }, .of_some rfl⟩
      simp only [WbSb.front, WbSb.inode_eq hid]
      rfl
  | dropLink id =>
      obtain ⟨⟨inode, hid, hlt⟩, -⟩ := hstep
      have hok := h.inodeOk _ _ hid
      refine ⟨sb.setInode id { inode with iNlink := inode.iNlink - 1 }, ?_,
        h.setInode hid rfl rfl { hok with gone := fun _ h0 => ?_ }, .of_some rfl⟩
      · simp only [WbSb.front, WbSb.inode_eq hid]
        rfl
      · have h0 : inode.iCount = 0 := h0
        omega
  | iput id => exact h.iput_ok hstep.1 hstep.2

/-! ## Steps of the backend -/

/-- What the frontend changed in its delta stays. -/
def WbSb.KeepsDelta (sb sb' : WbSb) : Prop :=
  ∀ id inode, sb.inodes id = some inode →
    (inode.dirty (deltaSlot sb.delta) ≠ 0 ∨ inode.iattr = some (deltaSlot sb.delta) ∨
      inode.dead = some (deltaSlot sb.delta)) →
    ∃ inode', sb'.inodes id = some inode' ∧ Kept (deltaSlot sb.delta) inode inode' ∧
      (id ∈ sb.dirtyInodes (deltaSlot sb.delta) → id ∈ sb'.dirtyInodes (deltaSlot sb.delta))

theorem Kept.refl (slot : Bool) (inode : WbInode) : Kept slot inode inode :=
  ⟨dirtyBits_and_self _, fun hi => hi, fun hd => hd, fun hs => hs⟩

theorem deltaSlot_succDelta (delta : Nat) : deltaSlot delta ≠ deltaSlot (succDelta delta) := by
  unfold deltaSlot tux3Delta succDelta
  intro h
  have hmod := Nat.mod_two_eq_zero_or_one delta
  rcases hmod with h0 | h1
  · have h1 : (delta + 1) % 2 ^ 32 % 2 = 1 := by omega
    rw [h0, h1] at h
    cases h
  · have h0 : (delta + 1) % 2 ^ 32 % 2 = 0 := by omega
    rw [h0, h1] at h
    cases h

/-- Only the backend changes. -/
theorem WbInv.backendOnly (h : WbInv sb) (hinodes : sb'.inodes = sb.inodes)
    (hlists : ∀ slot, (sb'.dirtyInodes slot).Perm (sb.dirtyInodes slot))
    (hmarks : sb'.marks = sb.marks) (hheld : sb'.backend.held = sb.backend.held)
    (hdelta : ∀ m ∈ sb.marks, sb'.InDelta m.delta) (hbackend : sb'.BackendOk) : WbInv sb' where
  nodup := fun slot => (hlists slot).nodup_iff.mpr (h.nodup slot)
  listed := fun slot id => by rw [(hlists slot).mem_iff, hinodes, h.listed]
  inodeOk := fun id inode hid => by
    unfold WbSb.Marked
    rw [hmarks, hheld]
    exact h.inodeOk id inode (hinodes ▸ hid)
  marks := fun m hm => by
    rw [hmarks] at hm
    obtain ⟨-, hcore, hflags⟩ := h.marks m hm
    exact ⟨hdelta m hm, hinodes ▸ hcore, hflags⟩
  backend := hbackend

theorem WbSb.Evicts.of_inodes (h : sb'.inodes = sb.inodes) : sb.Evicts sb' := by
  intro id inode hid hnone
  rw [h, hid] at hnone
  cases hnone

theorem WbSb.KeepsDelta.of_inodes (h : sb'.inodes = sb.inodes)
    (hlists : ∀ id, id ∈ sb.dirtyInodes (deltaSlot sb.delta) →
      id ∈ sb'.dirtyInodes (deltaSlot sb.delta)) : sb.KeepsDelta sb' :=
  fun id inode hid _ => ⟨inode, h ▸ hid, .refl _ _, hlists id⟩

/-- A step that changes one inode keeps the others. -/
theorem WbSb.KeepsDelta.of_update {r : DirtyLists × Option WbInode}
    (hinodes : sb'.inodes = Function.update sb.inodes id r.2) (hlists : sb'.dirtyInodes = r.1)
    (hframe : ListFrame sb.dirtyInodes r.1 id)
    (hself : ∀ inode, sb.inodes id = some inode →
      (inode.dirty (deltaSlot sb.delta) ≠ 0 ∨ inode.iattr = some (deltaSlot sb.delta) ∨
        inode.dead = some (deltaSlot sb.delta)) →
      ∃ inode', r.2 = some inode' ∧ Kept (deltaSlot sb.delta) inode inode' ∧
        (id ∈ sb.dirtyInodes (deltaSlot sb.delta) → id ∈ r.1 (deltaSlot sb.delta))) :
    sb.KeepsDelta sb' := by
  intro j inode hid hhas
  rw [hlists, hinodes]
  by_cases hj : j = id
  · subst hj
    rw [Function.update_self]
    exact hself inode hid hhas
  · rw [Function.update_of_ne hj]
    exact ⟨inode, hid, .refl _ _, (hframe _ j hj).mpr⟩

theorem WbInv.mark_current (h : WbInv sb) (hb : ∀ delta, sb.backend ≠ .waiting delta) :
    ∀ m ∈ sb.marks, m.delta = sb.delta :=
  fun m hm => (h.marks m hm).inDelta.resolve_right (hb m.delta)

theorem WbInv.transition_ok (h : WbInv sb) (hb : sb.backend = .idle) :
    ∃ sb', sb.back .transition = .ok sb' ∧ WbInv sb' ∧ sb.Evicts sb' ∧ sb.KeepsDelta sb' := by
  refine ⟨{ sb with delta := succDelta sb.delta, backend := .waiting sb.delta }, ?_, ?_,
    .of_inodes rfl, .of_inodes rfl fun _ hm => hm⟩
  · unfold WbSb.back
    rw [hb]
  · refine h.backendOnly rfl (fun _ => .refl _) rfl ?_ ?_ (deltaSlot_succDelta _)
    · rw [hb]
      rfl
    · intro m hm
      rw [h.mark_current (fun d => by rw [hb]; nofun) m hm]
      exact .inr rfl

theorem WbInv.sort_ok (h : WbInv sb) {delta : Nat} {order : List Nat}
    (hb : sb.backend = .waiting delta) (hmarks : ∀ m ∈ sb.marks, m.delta ≠ delta)
    (hperm : order.Perm (sb.dirtyInodes (deltaSlot delta))) :
    ∃ sb', sb.back (.sort order) = .ok sb' ∧ WbInv sb' ∧ sb.Evicts sb' ∧
      sb.KeepsDelta sb' := by
  have hslot := h.backend
  unfold WbSb.BackendOk at hslot
  rw [hb] at hslot
  have hlists : ∀ slot, (Function.update sb.dirtyInodes (deltaSlot delta) order slot).Perm
      (sb.dirtyInodes slot) := by
    intro slot
    by_cases hs : slot = deltaSlot delta
    · subst hs
      rwa [Function.update_self]
    · rw [Function.update_of_ne hs]
  refine ⟨{ sb with
    dirtyInodes := Function.update sb.dirtyInodes (deltaSlot delta) order
    backend := .flushing delta order }, ?_, ?_, .of_inodes rfl,
    .of_inodes rfl fun _ hm => (hlists _).mem_iff.mpr hm⟩
  · unfold WbSb.back
    rw [hb]
  · refine h.backendOnly rfl hlists rfl ?_ ?_ ⟨hslot, ?_, ?_⟩
    · rw [hb]
      rfl
    · intro m hm
      rcases (h.marks m hm).inDelta with hcur | hold
      · exact .inl hcur
      · rw [hb] at hold
        cases hold
        exact absurd rfl (hmarks m hm)
    · intro id hid
      dsimp only
      rwa [Function.update_self]
    · intro id inode hid hdead
      rw [hperm.mem_iff, h.listed]
      exact ⟨inode, hid, (h.inodeOk id inode hid).dead_dirty _ hdead⟩

/-- The state of an inode that is read is what `InodeOk` says, and its delta has no dead mark
left. -/
theorem InodeOk.read {marked : Prop} {held delta : Nat} (h : InodeOk marked held inode)
    (unlinked : Bool) : InodeOk marked held (tux3StateReadAndClear inode delta unlinked).1 := by
  unfold tux3StateReadAndClear
  dsimp only
  by_cases hdead : inode.dead = some (deltaSlot delta)
  · have hfirst : inode.inodeDead = false := by
      by_contra hne
      rw [Bool.not_eq_false] at hne
      rw [h.dead_once hne] at hdead
      cases hdead
    have hdel := h.deleted
    rw [hfirst] at hdel
    have hlen : inode.deletedIn.length = 0 := by simpa using hdel
    exact {
      state := fun _ => h.state (WbInode.isClean_eq_false.mpr (.inr (.inr (.inl (by
        rw [hdead]
        nofun)))))
      held_le := h.held_le
      marked_lt := h.marked_lt
      kept := h.kept
      gone := fun _ _ => by simp [WbInode.isDead, hdead]
      dead_dirty := by simp [hdead]
      dead_once := by simp [hdead]
      deleted := by simp [hdead, hlen] }
  · exact {
      state := fun hc => h.state (by
        rw [WbInode.isClean_eq_false] at hc ⊢
        simp only [hdead, decide_false, Bool.false_eq_true, if_false] at hc
        refine hc.imp_right fun hor => hor.imp_left fun hi => ?_
        intro hnone
        rw [hnone] at hi
        exact hi (by simp))
      held_le := h.held_le
      marked_lt := h.marked_lt
      kept := h.kept
      gone := fun hl h0 => by simpa [WbInode.isDead, hdead] using h.gone hl h0
      dead_dirty := by simpa [hdead] using h.dead_dirty
      dead_once := by simpa [hdead] using h.dead_once
      deleted := by simpa [hdead] using h.deleted }

/-- After an inode's state was read, its delta has no dead mark left. -/
theorem tux3StateReadAndClear_dead {delta : Nat} {unlinked : Bool} {slot : Bool} :
    (tux3StateReadAndClear inode delta unlinked).1.dead = some slot ↔
      inode.dead = some slot ∧ slot ≠ deltaSlot delta := by
  unfold tux3StateReadAndClear
  dsimp only
  by_cases hdead : inode.dead = some (deltaSlot delta)
  · rw [hdead]
    simp only [decide_true, if_true, reduceCtorEq, Option.some.injEq, false_iff, not_and,
      not_not]
    exact fun heq => heq.symm
  · simp only [hdead, decide_false, Bool.false_eq_true, if_false]
    constructor
    · intro hs
      refine ⟨hs, ?_⟩
      rintro rfl
      exact hdead hs
    · exact fun hs => hs.1

/-- A step of the backend that keeps an inode's dirty bits. -/
theorem WbInv.backQuiet (h : WbInv sb) {inode' : WbInode} (hid : sb.inodes id = some inode)
    (hb : ∀ delta, sb.backend ≠ .waiting delta)
    (hinodes : sb'.inodes = Function.update sb.inodes id (some inode'))
    (hlists : sb'.dirtyInodes = sb.dirtyInodes) (hdelta : sb'.delta = sb.delta)
    (hmarks : sb'.marks = sb.marks) (hdirty : inode'.dirty = inode.dirty)
    (hheld : ∀ j, j ≠ id → sb'.backend.held j = sb.backend.held j)
    (hok : InodeOk (sb.Marked id) (sb'.backend.held id) inode')
    (hkept : Kept (deltaSlot sb.delta) inode inode') (hbackend : sb'.BackendOk) :
    WbInv sb' ∧ sb.Evicts sb' ∧ sb.KeepsDelta sb' := by
  have hmarked : ∀ j, sb'.Marked j ↔ sb.Marked j := by
    intro j
    unfold WbSb.Marked
    rw [hmarks]
  refine ⟨?_, .of_some hinodes, ?_⟩
  · refine h.update (r := (sb.dirtyInodes, some inode')) hinodes hlists (.refl _ _) h.nodup ?_
      (fun j _ => hmarked j) hheld ?_ ?_ hbackend
    · intro slot
      rw [(h.listed_of hid).mem_iff, ← hdirty]
      constructor
      · intro hne
        exact ⟨_, rfl, hne⟩
      · rintro ⟨inode'', ⟨⟩, hne⟩
        exact hne
    · rintro inode'' ⟨⟩
      exact { hok with
        state := fun hc => (hok.state hc).imp_right (hmarked id).mpr
        marked_lt := fun hm => hok.marked_lt ((hmarked id).mp hm) }
    · intro m hm
      rw [hmarks] at hm
      obtain ⟨-, ⟨inode'', hcore⟩, hflags⟩ := h.marks m hm
      refine ⟨.inl ?_, ?_, hflags⟩
      · rw [hdelta, h.mark_current hb m hm]
      · rw [hinodes]
        by_cases hj : m.id = id
        · rw [hj, Function.update_self]
          exact ⟨_, rfl⟩
        · rw [Function.update_of_ne hj]
          exact ⟨inode'', hcore⟩
  · refine .of_update (r := (sb.dirtyInodes, some inode')) hinodes hlists (.refl _ _) ?_
    intro inode'' hid' _
    rw [hid] at hid'
    cases hid'
    exact ⟨inode', rfl, hkept, fun hm => hm⟩

/-- The dead marks of a slot, after one inode changed. -/
theorem WbSb.DeadIn.update {slot : Bool} {todo todo' : List Nat} {inode' : WbInode}
    (h : sb.DeadIn slot todo) (hinodes : sb'.inodes = Function.update sb.inodes id (some inode'))
    (hself : inode'.dead = some slot → id ∈ todo')
    (hother : ∀ j, j ≠ id → j ∈ todo → j ∈ todo') : sb'.DeadIn slot todo' := by
  intro j inode hget hdead
  rw [hinodes] at hget
  by_cases hj : j = id
  · subst hj
    rw [Function.update_self] at hget
    cases hget
    exact hself hdead
  · rw [Function.update_of_ne hj] at hget
    exact hother j hj (h j inode hget hdead)

theorem WbInv.read_ok (h : WbInv sb) {delta : Nat} {todo : List Nat} (unlinked : Bool)
    (hb : sb.backend = .flushing delta (id :: todo)) :
    ∃ sb', sb.back (.read unlinked) = .ok sb' ∧ WbInv sb' ∧ sb.Evicts sb' ∧
      sb.KeepsDelta sb' := by
  have hback := h.backend
  unfold WbSb.BackendOk at hback
  rw [hb] at hback
  obtain ⟨hslot, hmem, hdead⟩ := hback
  obtain ⟨inode, hid, -⟩ := (h.listed _ id).mp (hmem id List.mem_cons_self)
  have hok := h.inodeOk _ _ hid
  have hheld : ∀ j, sb.backend.held j = 0 := by
    rw [hb]
    exact fun _ => rfl
  refine ⟨{ sb.setInode id (tux3StateReadAndClear inode delta unlinked).1 with
    backend := .reading delta id (tux3StateReadAndClear inode delta unlinked).2 todo }, ?_, ?_⟩
  · unfold WbSb.back
    rw [hb]
    simp only [WbSb.inode_eq hid]
    rfl
  · refine h.backQuiet hid (fun d => by rw [hb]; nofun) rfl rfl rfl rfl rfl
      (fun j _ => (hheld j).symm) ?_ ?_ ⟨hslot, hmem, ?_⟩
    · rw [hheld id] at hok
      exact hok.read unlinked
    · refine ⟨dirtyBits_and_self _, fun hi => ?_, fun hd => ?_, fun hs => hs⟩
      · unfold tux3StateReadAndClear
        dsimp only
        rw [if_neg (by rw [hi]; exact fun he => hslot (Option.some.inj he).symm)]
        exact hi
      · exact tux3StateReadAndClear_dead.mpr ⟨hd, hslot.symm⟩
    · refine hdead.update rfl (fun hd => ?_) fun j hj hm => ?_
      · exact absurd rfl (tux3StateReadAndClear_dead.mp hd).2
      · exact (List.mem_cons.mp hm).resolve_left hj

theorem WbInv.flush_ok (h : WbInv sb) {delta : Nat} {deleted : Bool} {todo : List Nat}
    (btreeDirty fails : Bool) (hb : sb.backend = .reading delta id deleted todo) :
    ∃ sb', sb.back (.flush btreeDirty fails) = .ok sb' ∧ WbInv sb' ∧ sb.Evicts sb' ∧
      sb.KeepsDelta sb' := by
  have hback := h.backend
  unfold WbSb.BackendOk at hback
  rw [hb] at hback
  obtain ⟨hslot, hmem, hdead⟩ := hback
  obtain ⟨inode, hid, hdirty⟩ := (h.listed _ id).mp (hmem id List.mem_cons_self)
  have hok := h.inodeOk _ _ hid
  have hheld : ∀ j, sb.backend.held j = 0 := by
    rw [hb]
    exact fun _ => rfl
  refine ⟨{ sb.setInode id { inode with
      hashed := inode.hashed && !deleted
      dirtyBtree := inode.dirtyBtree || btreeDirty } with
    backend := if fails then .idle else .flushing delta todo }, ?_, ?_⟩
  · unfold WbSb.back
    rw [hb]
    simp only [WbSb.inode_eq hid]
    rfl
  · have hnew : ∀ j, (if fails then WbBackend.idle else .flushing delta todo).held j = 0 := by
      intro j
      cases fails <;> rfl
    refine h.backQuiet hid (fun d => by rw [hb]; nofun) rfl rfl rfl rfl rfl
      (fun j _ => (hnew j).trans (hheld j).symm) ?_
      ⟨dirtyBits_and_self _, fun hi => hi, fun hd => hd, fun hs => hs⟩ ?_
    · dsimp only
      rw [hheld id] at hok
      rw [hnew id]
      -- the inode is on the list, so it was dirty before
      exact { hok with
        state := fun _ => hok.state (WbInode.isClean_eq_false.mpr (.inl ⟨_, hdirty⟩)) }
    · cases fails with
      | true => trivial
      | false =>
          exact ⟨hslot, fun j hj => hmem j (List.mem_cons_of_mem _ hj),
            hdead.update rfl (fun hd => hdead id inode hid hd) fun _ _ hm => hm⟩

theorem WbInv.flushed_ok (h : WbInv sb) {delta : Nat} (hb : sb.backend = .flushing delta []) :
    ∃ sb', sb.back .flushed = .ok sb' ∧ WbInv sb' ∧ sb.Evicts sb' ∧ sb.KeepsDelta sb' := by
  have hback := h.backend
  unfold WbSb.BackendOk at hback
  rw [hb] at hback
  obtain ⟨hslot, -, hdead⟩ := hback
  refine ⟨{ sb with backend := .clearing delta (sb.dirtyInodes (deltaSlot delta)) }, ?_, ?_,
    .of_inodes rfl, .of_inodes rfl fun _ hm => hm⟩
  · unfold WbSb.back
    rw [hb]
  · refine h.backendOnly rfl (fun _ => .refl _) rfl ?_ ?_ ⟨hslot, rfl, hdead⟩
    · rw [hb]
      rfl
    · intro m hm
      exact .inl (h.mark_current (fun d => by rw [hb]; nofun) m hm)

theorem WbInv.grab_ok (h : WbInv sb) {delta : Nat} {todo : List Nat}
    (hb : sb.backend = .clearing delta (id :: todo)) :
    ∃ sb', sb.back .grab = .ok sb' ∧ WbInv sb' ∧ sb.Evicts sb' ∧ sb.KeepsDelta sb' := by
  have hback := h.backend
  unfold WbSb.BackendOk at hback
  rw [hb] at hback
  obtain ⟨hslot, hlist, hdead⟩ := hback
  obtain ⟨inode, hid, -⟩ := (h.listed (deltaSlot delta) id).mp (by
    rw [hlist]
    exact List.mem_cons_self)
  have hok := h.inodeOk _ _ hid
  have hheld : ∀ j, sb.backend.held j = 0 := by
    rw [hb]
    exact fun _ => rfl
  obtain ⟨inode', ⟨hget, rfl⟩, hok'⟩ := hok.iget_ok
  refine ⟨{ sb.setInode id { inode with iCount := inode.iCount + 1 } with
    backend := .grabbed delta id todo }, ?_, ?_⟩
  · unfold WbSb.back
    rw [hb]
    simp only [WbSb.inode_eq hid]
    show (do
      let inode ← (iget inode)
      pure { sb.setInode id inode with backend := WbBackend.grabbed delta id todo }) = _
    rw [hget]
    rfl
  · refine h.backQuiet hid (fun d => by rw [hb]; nofun) rfl rfl rfl rfl rfl ?_ ?_
      ⟨dirtyBits_and_self _, fun hi => hi, fun hd => hd, fun hs => hs⟩
      ⟨hslot, hlist, hdead.update rfl (fun hd => hdead id inode hid hd) fun _ _ hm => hm⟩
    · intro j hj
      rw [hheld j]
      exact if_neg (Ne.symm hj)
    · have hone : (WbBackend.grabbed delta id todo).held id = 1 := if_pos rfl
      dsimp only
      rw [hone]
      rw [hheld id] at hok
      exact { hok' with
        held_le := Nat.succ_le_succ (Nat.zero_le _)
        marked_lt := fun hm => Nat.succ_lt_succ (hok.marked_lt hm) }

/-- The flags of the delta are cleared, and the inode is taken from the list it is the first
of.  It stays marked dirty where any flag is left. -/
theorem tux3ClearDirtyInode_eq {lists : DirtyLists} {delta : Nat} {todo : List Nat}
    (hdirty : inode.dirty (deltaSlot delta) ≠ 0) (hlist : lists (deltaSlot delta) = id :: todo) :
    ∃ state, tux3ClearDirtyInode lists id inode delta =
      (Function.update lists (deltaSlot delta) todo,
        { inode with
          dirtyBtree := false
          dirty := Function.update inode.dirty (deltaSlot delta) 0
          iState := state }) ∧
      (WbInode.isClean { inode with
        dirtyBtree := false
        dirty := Function.update inode.dirty (deltaSlot delta) 0 } = false → state ≠ 0) := by
  refine ⟨if WbInode.isClean { inode with
      dirtyBtree := false
      dirty := Function.update inode.dirty (deltaSlot delta) 0 }
    then 0 else inode.iState ||| iDirty, ?_, ?_⟩
  · unfold tux3ClearDirtyInode
    dsimp only
    rw [if_pos (by rw [Bool.or_eq_true, bne_iff_ne]; exact .inr hdirty), hlist,
      List.erase_cons_head]
  · intro hc
    rw [hc, if_neg nofun]
    exact dirtyBits_or_right _ _ (by decide)

theorem WbInv.clear_ok (h : WbInv sb) {delta : Nat} {todo : List Nat}
    (hb : sb.backend = .grabbed delta id todo) :
    ∃ sb', sb.back .clear = .ok sb' ∧ WbInv sb' ∧ sb.Evicts sb' ∧ sb.KeepsDelta sb' := by
  have hback := h.backend
  unfold WbSb.BackendOk at hback
  rw [hb] at hback
  obtain ⟨hslot, hlist, hdead⟩ := hback
  obtain ⟨inode, hid, hdirty⟩ := (h.listed (deltaSlot delta) id).mp (by
    rw [hlist]
    exact List.mem_cons_self)
  have hok := h.inodeOk _ _ hid
  have hone : sb.backend.held id = 1 := by
    rw [hb]
    exact if_pos rfl
  have hzero : ∀ j, j ≠ id → sb.backend.held j = 0 := by
    intro j hj
    rw [hb]
    exact if_neg (Ne.symm hj)
  obtain ⟨state, hclear, hstate⟩ := tux3ClearDirtyInode_eq hdirty hlist
  have hne : ∀ slot, slot ≠ deltaSlot delta →
      Function.update inode.dirty (deltaSlot delta) 0 slot = inode.dirty slot :=
    fun slot hs => Function.update_of_ne hs _ _
  have hframe : ListFrame sb.dirtyInodes
      (Function.update sb.dirtyInodes (deltaSlot delta) todo) id := by
    intro slot j hj
    by_cases hs : slot = deltaSlot delta
    · subst hs
      rw [Function.update_self, hlist, List.mem_cons]
      exact ⟨.inr, fun hm => hm.resolve_left hj⟩
    · rw [Function.update_of_ne hs]
  have hnodup := h.nodup (deltaSlot delta)
  rw [hlist, List.nodup_cons] at hnodup
  refine ⟨{ sb.store id (Function.update sb.dirtyInodes (deltaSlot delta) todo,
      some { inode with
        dirtyBtree := false
        dirty := Function.update inode.dirty (deltaSlot delta) 0
        iState := state }) with
    backend := .cleared delta id todo }, ?_, ?_, .of_some rfl, ?_⟩
  · unfold WbSb.back
    rw [hb]
    simp only [WbSb.inode_eq hid]
    show (.ok { sb.store id ((tux3ClearDirtyInode sb.dirtyInodes id inode delta).1,
        some (tux3ClearDirtyInode sb.dirtyInodes id inode delta).2) with
      backend := .cleared delta id todo } : Except TuxError WbSb) = _
    rw [hclear]
  · refine h.update rfl rfl hframe ?_ ?_ (fun _ _ => Iff.rfl) ?_ ?_ ?_
      ⟨hslot, Function.update_self _ _ _, ?_, _, sb.store_self id _⟩
    · intro slot
      by_cases hs : slot = deltaSlot delta
      · subst hs
        dsimp only
        rw [Function.update_self]
        exact hnodup.2
      · dsimp only
        rw [Function.update_of_ne hs]
        exact h.nodup slot
    · intro slot
      dsimp only
      by_cases hs : slot = deltaSlot delta
      · subst hs
        rw [Function.update_self]
        constructor
        · exact fun hm => absurd hm hnodup.1
        · rintro ⟨inode', ⟨⟩, hdirty'⟩
          exact absurd (Function.update_self _ _ _) hdirty'
      · rw [Function.update_of_ne hs, (h.listed_of hid).mem_iff]
        constructor
        · intro hdirty'
          exact ⟨_, rfl, by
            dsimp only
            rwa [hne slot hs]⟩
        · rintro ⟨inode', ⟨⟩, hdirty'⟩
          dsimp only at hdirty'
          rwa [hne slot hs] at hdirty'
    · intro j hj
      rw [hzero j hj]
      exact if_neg (Ne.symm hj)
    · rintro inode' ⟨⟩
      rw [show (WbBackend.cleared delta id todo).held id = 1 from if_pos rfl]
      rw [hone] at hok
      have hle := hok.held_le
      exact {
        state := fun hc => .inl (hstate hc)
        held_le := hle
        marked_lt := hok.marked_lt
        kept := fun h0 => absurd h0 (by dsimp only; omega)
        gone := hok.gone
        dead_dirty := by
          intro slot hd
          have hs : slot ≠ deltaSlot delta := by
            rintro rfl
            cases hdead id inode hid hd
          dsimp only
          rw [hne slot hs]
          exact hok.dead_dirty slot hd
        dead_once := hok.dead_once
        deleted := hok.deleted }
    · intro m hm
      obtain ⟨-, ⟨inode', hcore⟩, hflags⟩ := h.marks m hm
      refine ⟨.inl (h.mark_current (fun d => by rw [hb]; nofun) m hm), ?_, hflags⟩
      by_cases hj : m.id = id
      · rw [hj]
        exact ⟨_, sb.store_self id _⟩
      · exact ⟨inode', (sb.store_of_ne _ hj).trans hcore⟩
    · exact hdead.update rfl (fun hd => hdead id inode hid hd) fun _ _ hm => hm
  · refine .of_update rfl rfl hframe ?_
    intro inode' hid' hhas
    rw [hid] at hid'
    cases hid'
    refine ⟨_, rfl, ?_, ?_⟩
    · refine ⟨?_, fun hi => hi, fun hd => hd, fun _ => hstate ?_⟩
      · dsimp only
        rw [hne _ hslot.symm]
        exact dirtyBits_and_self _
      · rw [WbInode.isClean_eq_false]
        rcases hhas with hd | hi | hd
        · exact .inl ⟨deltaSlot sb.delta, by
            dsimp only
            rwa [hne _ hslot.symm]⟩
        · exact .inr (.inl (by rw [hi]; nofun))
        · exact .inr (.inr (.inl (by rw [hd]; nofun)))
    · intro hm
      dsimp only
      rwa [Function.update_of_ne hslot.symm]

/-- The `iput` of `tux3_clear_dirty_inodes`, which may mark the inode dead in the delta of the
frontend. -/
theorem WbInv.put_ok (h : WbInv sb) {delta : Nat} {todo : List Nat}
    (hb : sb.backend = .cleared delta id todo) :
    ∃ sb', sb.back .put = .ok sb' ∧ WbInv sb' ∧ sb.Evicts sb' ∧ sb.KeepsDelta sb' := by
  have hback := h.backend
  unfold WbSb.BackendOk at hback
  rw [hb] at hback
  obtain ⟨hslot, hlist, hdead, inode, hid⟩ := hback
  have hok := h.inodeOk _ _ hid
  have hone : sb.backend.held id = 1 := by
    rw [hb]
    exact if_pos rfl
  rw [hone] at hok
  obtain ⟨r, hr, hput⟩ := @Tux3.iput_ok sb.dirtyInodes id inode sb.delta (sb.Marked id) 1 0 hok (h.listed_of hid)
    hok.held_le hok.marked_lt
  have hinodes : ({ sb.store id r with backend := .clearing delta todo } : WbSb).inodes =
      Function.update sb.inodes id r.2 := rfl
  refine ⟨{ sb.store id r with backend := .clearing delta todo }, ?_, ?_, ?_, ?_⟩
  · have hexec : sb.put id = .ok (sb.store id r) := by
      unfold WbSb.put
      rw [WbSb.inode_eq hid]
      show (do
        let r ← iput sb.dirtyInodes id inode sb.delta
        pure (sb.store id r)) = _
      rw [hr]
      rfl
    unfold WbSb.back
    rw [hb]
    simp only [hexec]
    rfl
  · refine h.update hinodes rfl hput.frame hput.nodup hput.mem_iff (fun _ _ => Iff.rfl) ?_
      hput.inodeOk ?_ ⟨hslot, (hput.lists_eq _ hslot).trans hlist, ?_⟩
    · intro j hj
      rw [hb]
      exact (if_neg (Ne.symm hj)).symm
    · intro m hm
      obtain ⟨-, ⟨inode', hcore⟩, hflags⟩ := h.marks m hm
      refine ⟨.inl (h.mark_current (fun d => by rw [hb]; nofun) m hm), ?_, hflags⟩
      by_cases hj : m.id = id
      · rw [hj]
        obtain ⟨inode'', hsome⟩ := Option.ne_none_iff_exists'.mp fun hnone =>
          (hput.evicted hnone).not_marked ⟨m, hm, hj⟩
        exact ⟨inode'', (sb.store_self id r).trans hsome⟩
      · exact ⟨inode', (sb.store_of_ne r hj).trans hcore⟩
    · intro j inode' hget hd
      by_cases hj : j = id
      · subst hj
        have hsome : r.2 = some inode' := (sb.store_self j r).symm.trans hget
        exact hdead j inode hid (hput.dead_eq inode' hsome _ hslot hd)
      · exact hdead j inode' ((sb.store_of_ne r hj).symm.trans hget) hd
  · intro j inode' hget hnone
    by_cases hj : j = id
    · subst hj
      rw [hid] at hget
      cases hget
      exact hput.evicted ((sb.store_self j r).symm.trans hnone)
    · have hsame : sb.inodes j = none := (sb.store_of_ne r hj).symm.trans hnone
      rw [hget] at hsame
      cases hsame
  · refine .of_update hinodes rfl hput.frame ?_
    intro inode' hid' hhas
    rw [hid] at hid'
    cases hid'
    have hdirty : inode.isClean = false := by
      rw [WbInode.isClean_eq_false]
      rcases hhas with hd | hi | hd
      · exact .inl ⟨_, hd⟩
      · exact .inr (.inl (by rw [hi]; nofun))
      · exact .inr (.inr (.inl (by rw [hd]; nofun)))
    obtain ⟨inode', hsome⟩ := Option.ne_none_iff_exists'.mp fun hnone => by
      have hclean := (hput.evicted hnone).isClean
      rw [hdirty] at hclean
      cases hclean
    refine ⟨inode', hsome, hput.kept inode' hsome, fun hm => ?_⟩
    rw [hput.mem_iff]
    rw [(h.listed_of hid).mem_iff] at hm
    exact ⟨inode', hsome, dirtyBits_ne_zero_of_and (hput.kept inode' hsome).dirty hm⟩

theorem WbInv.finish_ok (h : WbInv sb) {delta : Nat} (hb : sb.backend = .clearing delta []) :
    ∃ sb', sb.back .finish = .ok sb' ∧ WbInv sb' ∧ sb.Evicts sb' ∧ sb.KeepsDelta sb' := by
  have hback := h.backend
  unfold WbSb.BackendOk at hback
  rw [hb] at hback
  refine ⟨{ sb with backend := .idle }, ?_, ?_, .of_inodes rfl, .of_inodes rfl fun _ hm => hm⟩
  · unfold WbSb.back
    rw [hb]
    simp only [tuxAssert_of hback.2.1]
    rfl
  · refine h.backendOnly rfl (fun _ => .refl _) rfl ?_ ?_ trivial
    · rw [hb]
      rfl
    · intro m hm
      exact .inl (h.mark_current (fun d => by rw [hb]; nofun) m hm)

/-- Every step that the backend can take passes its asserts, keeps the invariant and what the
frontend changed, and evicts only a clean inode. -/
theorem WbInv.back_ok (h : WbInv sb) {step : BackendStep} (hstep : sb.CanBack step) :
    ∃ sb', sb.back step = .ok sb' ∧ WbInv sb' ∧ sb.Evicts sb' ∧ sb.KeepsDelta sb' := by
  cases step with
  | transition => exact h.transition_ok hstep
  | sort order =>
      obtain ⟨delta, hb, hmarks, hperm⟩ := hstep
      exact h.sort_ok hb hmarks hperm
  | read unlinked =>
      obtain ⟨delta, id, todo, hb⟩ := hstep
      exact h.read_ok unlinked hb
  | flush btreeDirty fails =>
      obtain ⟨delta, id, deleted, todo, hb⟩ := hstep
      exact h.flush_ok btreeDirty fails hb
  | flushed =>
      obtain ⟨delta, hb⟩ := hstep
      exact h.flushed_ok hb
  | grab =>
      obtain ⟨delta, id, todo, hb⟩ := hstep
      exact h.grab_ok hb
  | clear =>
      obtain ⟨delta, id, todo, hb⟩ := hstep
      exact h.clear_ok hb
  | put =>
      obtain ⟨delta, id, todo, hb⟩ := hstep
      exact h.put_ok hb
  | finish =>
      obtain ⟨delta, hb⟩ := hstep
      exact h.finish_ok hb

end Inv

/-! ## Every run -/

theorem writebackSystem_inv {sb : WbSb} (h : writebackSystem.Reachable sb) : WbInv sb := by
  refine h.invariant ?_ ?_
  · rintro sb ⟨hinodes, hlists, hb, hmarks⟩
    exact {
      nodup := fun slot => by
        rw [hlists]
        exact .nil
      listed := fun slot id => by
        rw [hlists, hinodes]
        exact ⟨nofun, nofun⟩
      inodeOk := fun id inode hid => by
        rw [hinodes] at hid
        cases hid
      marks := fun m hm => by
        rw [hmarks] at hm
        cases hm
      backend := by
        unfold WbSb.BackendOk
        rw [hb]
        trivial }
  · rintro sb sb' hinv (⟨step, hcan, hexec⟩ | ⟨step, hcan, hexec⟩)
    · obtain ⟨sb'', hexec', hinv', -⟩ := hinv.front_ok hcan
      obtain rfl : sb' = sb'' := by simpa [hexec] using hexec'
      exact hinv'
    · obtain ⟨sb'', hexec', hinv', -⟩ := hinv.back_ok hcan
      obtain rfl : sb' = sb'' := by simpa [hexec] using hexec'
      exact hinv'

/-- What the lists, the flags, `i_state` and the dead marks have to do with each other. -/
structure WbConsistent (sb : WbSb) : Prop where
  /-- An inode is on the list of a delta, once, exactly while it is dirty for it. -/
  nodup : ∀ slot, (sb.dirtyInodes slot).Nodup
  listed : ∀ slot id, id ∈ sb.dirtyInodes slot ↔
    ∃ inode, sb.inodes id = some inode ∧ inode.dirty slot ≠ 0
  /-- While it has any dirty, iattr, dead or btree flag, `i_state` is dirty, but for a task in
  the middle of marking it, which has a reference. -/
  state : ∀ id inode, sb.inodes id = some inode → inode.isClean = false →
    inode.iState ≠ 0 ∨ (sb.Marked id ∧ sb.backend.held id < inode.iCount)
  /-- An inode without links and references has its dead mark and is on the list of that
  delta, or was flushed as deleted. -/
  gone : ∀ id inode, sb.inodes id = some inode → inode.iNlink = 0 → inode.iCount = 0 →
    (inode.deletedIn = [] ∧ ∃ slot, inode.dead = some slot ∧ id ∈ sb.dirtyInodes slot) ∨
      (inode.dead = none ∧ inode.deletedIn.length = 1)
  /-- No inode is flushed as deleted twice. -/
  once : ∀ id inode, sb.inodes id = some inode → inode.deletedIn.length ≤ 1
  /-- After `tux3_flush_inodes` no dead mark of its delta is left. -/
  flushed : ∀ delta todo, sb.backend = .clearing delta todo → ∀ id inode,
    sb.inodes id = some inode → inode.dead ≠ some (deltaSlot delta)

theorem WbInv.consistent {sb : WbSb} (h : WbInv sb) : WbConsistent sb where
  nodup := h.nodup
  listed := h.listed
  state := fun id inode hid hc => by
    have hok := h.inodeOk id inode hid
    exact (hok.state hc).imp_right fun hm => ⟨hm, hok.marked_lt hm⟩
  gone := fun id inode hid hlink hcount => by
    have hok := h.inodeOk id inode hid
    have hdel := hok.deleted
    have hdead := hok.gone hlink hcount
    cases hin : inode.inodeDead with
    | true =>
        rw [hin] at hdel
        exact .inr ⟨hok.dead_once hin, hdel⟩
    | false =>
        rw [hin] at hdel
        unfold WbInode.isDead at hdead
        rw [hin, Bool.or_false, Option.isSome_iff_exists] at hdead
        obtain ⟨slot, hslot⟩ := hdead
        refine .inl ⟨List.length_eq_zero_iff.mp (by simpa using hdel), slot, hslot, ?_⟩
        rw [h.listed]
        exact ⟨inode, hid, hok.dead_dirty slot hslot⟩
  once := fun id inode hid => by
    rw [(h.inodeOk id inode hid).deleted]
    split
    · exact Nat.le_refl _
    · exact Nat.zero_le _
  flushed := fun delta todo hb id inode hid hdead => by
    have hback := h.backend
    unfold WbSb.BackendOk at hback
    rw [hb] at hback
    cases hback.2.2 id inode hid hdead

/-- Nothing in core, in the first delta. -/
def emptyCore : WbSb where
  inodes _ := none
  dirtyInodes _ := []
  delta := 0
  backend := .idle
  marks := []

/-- An inode in core with one link and one reference. -/
def oneInode : WbInode where
  dirty _ := 0
  iattr := none
  dead := none
  dirtyBtree := false
  orphaned := false
  inodeDead := false
  iState := 0
  iCount := 1
  iNlink := 1
  hashed := true
  deletedIn := []

/-- The inode, after the `tux3_dirty_inode` of a task that has yet to set `i_state`. -/
def dirtiedCore : WbSb where
  inodes := Function.update (Function.update (fun _ => none) 7 (some oneInode)) 7
    (some { oneInode with dirty := Function.update (fun _ => 0) false (0 ||| iDirtySync) })
  dirtyInodes := addDirty (fun _ => []) false 7
  delta := 0
  backend := .idle
  marks := [⟨0, 7, some iDirtySync⟩]

theorem dirtiedCore_reachable : writebackSystem.Reachable dirtiedCore := by
  have hinit : writebackSystem.Reachable emptyCore :=
    .init ⟨fun _ => rfl, fun _ => rfl, rfl, rfl⟩
  have hload : writebackSystem.Reachable (emptyCore.setInode 7 oneInode) :=
    .next hinit (.inl ⟨.load 7 1 false, rfl, rfl⟩)
  refine .next hload (.inl ⟨.dirtyInode 0 7 iDirtySync, ⟨.inl rfl, ⟨oneInode, rfl, ?_⟩, ?_⟩, rfl⟩)
  · exact Nat.zero_lt_one
  · decide

end Tux3
