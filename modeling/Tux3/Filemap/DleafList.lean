/-
  Filemap/DleafList.lean --- the edits of a leaf of the first format are edits of its list.

  All of them hold that an entry has one extent: a leaf whose entries have more passes the check,
  and cannot be cut.
-/
import Tux3.Filemap.DleafProbe
import Tux3.Filemap.DleafMerge

set_option autoImplicit false

namespace Tux3

open Outcome (bind_of_ok bind_of_error bind_eq_ok)

/-! ## Leaves and walks -/

/-- A leaf that passes the check, with one extent for each entry.  The check looks neither at the
header of a leaf without groups nor at whether the table and the index cross. -/
structure Dleaf.Sound (leaf : Dleaf) (blocksize : Nat) : Prop where
  check : dleafCheck leaf blocksize = .ok 0
  oneExtent : leaf.OneExtentPerEntry
  free : leaf.free = 8 + 8 * leaf.extents.length
  used : leaf.used + 4 * (leaf.groups + leaf.extents.length) = blocksize
  fits : leaf.free ≤ leaf.used
  blocksize_lt : blocksize < 2 ^ 16

/-- The walks over a leaf: a probe, and steps to both sides. -/
inductive Dleaf.Walks (leaf : Dleaf) : Dwalk → Prop
  | probe {key ret : Nat} {walk : Dwalk} (h : dwalkProbe leaf key = .ok (walk, ret)) :
      leaf.Walks walk
  | next {ret : Nat} {walk walk' : Dwalk} (h : leaf.Walks walk)
      (hstep : dwalkNext leaf walk = .ok (walk', ret)) : leaf.Walks walk'
  | back {ret : Nat} {walk walk' : Dwalk} (h : leaf.Walks walk)
      (hstep : dwalkBack leaf walk = .ok (walk', ret)) : leaf.Walks walk'

/-- The walk is where `dwalk_add` adds: behind the last entry and the last extent. -/
structure BehindLast (leaf : Dleaf) (walk : Dwalk) : Prop where
  group : walk.group = leaf.groups
  entry : walk.entry = leaf.groups + leaf.extents.length
  extent : walk.extent = leaf.extents.length
  exbase : walk.exbase + (if leaf.groups = 0 then 0 else (leaf.index leaf.groups).top) =
    leaf.extents.length

section Leaves

variable {leaf : Dleaf} {blocksize i : Nat} {gs : List LeafGroup} {walk : Dwalk}

theorem Dleaf.Stores.extents_eq (h : leaf.Stores blocksize gs) : leaf.extents = logicalOf gs :=
  h.lays.extents_eq h.formed

theorem Dleaf.Stores.length_extents (h : leaf.Stores blocksize gs) :
    leaf.extents.length = entryCount gs := by
  rw [h.extents_eq, length_logicalOf]

theorem Dleaf.Stores.sound (h : leaf.Stores blocksize gs) : leaf.Sound blocksize := by
  have hlen := h.length_extents
  refine ⟨h.lays.check h.formed h.fields, h.lays.oneExtent_sized h.formed.sized, ?_, ?_, h.fits,
    h.blocksize_lt⟩
  · rw [hlen]
    exact h.fields.free
  · rw [hlen, h.lays.groups]
    exact h.fields.used

/-- A sound leaf stores groups. -/
theorem Dleaf.Sound.exists_stores (h : leaf.Sound blocksize) :
    ∃ gs, leaf.Stores blocksize gs := by
  obtain ⟨gs, hformed, hlays, -⟩ := dleafCheck_lays h.check h.oneExtent
  have hlen : leaf.extents.length = entryCount gs := by
    rw [hlays.extents_eq hformed, length_logicalOf]
  have hfree := h.free
  have hused := h.used
  rw [hlen] at hfree hused
  rw [hlays.groups] at hused
  exact ⟨gs, hformed, hlays, ⟨hfree, hused⟩, h.fits, h.blocksize_lt⟩

/-- A walk is always at a position. -/
theorem Dleaf.Walks.pos (h : leaf.Stores blocksize gs) (hwalk : leaf.Walks walk) :
    WalkPos gs walk walk.extent := by
  have hpos : ∃ i, WalkPos gs walk i := by
    induction hwalk with
    | @probe key ret walk hprobe =>
        obtain ⟨walk', i, hright, hpos⟩ := @dwalkProbe_pos leaf gs key h.formed h.lays
        rw [hright] at hprobe
        obtain ⟨rfl, -⟩ := Prod.mk.inj (Except.ok.inj hprobe)
        exact ⟨i, hpos⟩
    | @next ret walk walk' hwalk hstep ih =>
        obtain ⟨i, hpos⟩ := ih
        rcases Nat.lt_or_ge i (entryCount gs) with hlt | hge
        · obtain ⟨walk'', hnext, hpos', -⟩ := hpos.step h.formed h.lays hlt
          rw [hnext] at hstep
          obtain ⟨rfl, -⟩ := Prod.mk.inj (Except.ok.inj hstep)
          exact ⟨i + 1, hpos'⟩
        · rw [dwalkNext_end (hpos.end_iff.2 (Nat.le_antisymm hpos.le hge))] at hstep
          obtain ⟨rfl, -⟩ := Prod.mk.inj (Except.ok.inj hstep)
          exact ⟨i, hpos⟩
    | @back ret walk walk' hwalk hstep ih =>
        obtain ⟨i, hpos⟩ := ih
        obtain ⟨walk'', ret', hback, hpos'⟩ := hpos.stepBack h.formed h.lays
        rw [hback] at hstep
        obtain ⟨rfl, -⟩ := Prod.mk.inj (Except.ok.inj hstep)
        exact ⟨i - 1, hpos'⟩
  obtain ⟨i, hpos⟩ := hpos
  rw [hpos.extent_eq]
  exact hpos

/-- Walks go to every position. -/
theorem Dleaf.Stores.exists_walk (h : leaf.Stores blocksize gs) (hi : i ≤ entryCount gs) :
    ∃ walk, leaf.Walks walk ∧ WalkPos gs walk i := by
  obtain ⟨walk, i0, hprobe, hpos⟩ := @dwalkProbe_pos leaf gs 0 h.formed h.lays
  have hzero (n : Nat) : ∃ walk, leaf.Walks walk ∧ WalkPos gs walk (i0 - n) := by
    induction n with
    | zero => exact ⟨walk, .probe hprobe, hpos⟩
    | succ n ih =>
        obtain ⟨walk', hwalk', hpos'⟩ := ih
        obtain ⟨walk'', ret, hback, hpos''⟩ := hpos'.stepBack h.formed h.lays
        exact ⟨walk'', .back hwalk' hback, hpos''⟩
  induction i with
  | zero =>
      obtain ⟨walk', hwalk', hpos'⟩ := hzero i0
      rw [Nat.sub_self] at hpos'
      exact ⟨walk', hwalk', hpos'⟩
  | succ i ih =>
      obtain ⟨walk', hwalk', hpos'⟩ := ih (Nat.le_of_succ_le hi)
      obtain ⟨walk'', hnext, hpos'', -⟩ := hpos'.step h.formed h.lays hi
      exact ⟨walk'', .next hwalk' hnext, hpos''⟩

/-- The number of extents in the last group, as `dwalk_add` finds it. -/
theorem Dleaf.Stores.last_top (h : leaf.Stores blocksize gs) :
    entryCount gs.dropLast + (if leaf.groups = 0 then 0 else (leaf.index leaf.groups).top) =
      entryCount gs := by
  rw [h.lays.groups]
  rcases List.eq_nil_or_concat gs with rfl | ⟨front, g, rfl⟩
  · rfl
  · rw [List.concat_eq_append] at h ⊢
    have htop := h.lays.group_top h.formed
    rw [List.length_append, List.length_singleton, if_neg (Nat.succ_ne_zero _), htop,
      List.dropLast_concat, entryCount_concat]

theorem AddPos.behindLast (h : leaf.Stores blocksize gs) (hpos : AddPos gs walk) :
    BehindLast leaf walk := by
  have hlen := h.length_extents
  refine ⟨hpos.group.trans h.lays.groups.symm, ?_, hpos.extent.trans hlen.symm, ?_⟩
  · rw [hpos.entry, h.lays.groups, hlen]
  · rw [hpos.exbase, hlen]
    exact h.last_top

theorem BehindLast.addPos (h : leaf.Stores blocksize gs) (hwalk : BehindLast leaf walk) :
    AddPos gs walk := by
  have hlen := h.length_extents
  have hlast := h.last_top
  have hexbase := hwalk.exbase
  refine ⟨hwalk.group.trans h.lays.groups, ?_, ?_, hwalk.extent.trans hlen⟩
  · rw [hwalk.entry, h.lays.groups, hlen]
  · omega

end Leaves

/-! ## The edits -/

/-- Copy, chop, add, split and merge are edits of the list of extents, and leave sound leaves. -/
structure ListEdits (leaf : Dleaf) (blocksize : Nat) : Prop where
  walks : ∀ walk, leaf.Walks walk → StandsOn leaf walk walk.extent ∧
    (dwalkEnd walk → BehindLast leaf walk)
  everywhere : ∀ i, i ≤ leaf.extents.length → ∃ walk, leaf.Walks walk ∧ walk.extent = i
  copy : ∀ walk dest, leaf.Walks walk → dest.Sound blocksize → dest.groups = 0 →
    ∃ dest', dwalkCopy leaf walk dest blocksize = .ok dest' ∧ dest'.Sound blocksize ∧
      dest'.extents = leaf.extents.drop walk.extent
  chop : ∀ walk, leaf.Walks walk →
    ∃ leaf' walk', dwalkChop leaf walk blocksize = .ok (leaf', walk') ∧ leaf'.Sound blocksize ∧
      leaf'.extents = leaf.extents.take walk.extent ∧ BehindLast leaf' walk'
  add : ∀ walk index extent, BehindLast leaf walk → index < 2 ^ 48 → extent.block ≠ 0 →
    (∀ e ∈ leaf.extents, e.1 < index) → leaf.free + addRoom leaf walk index ≤ leaf.used →
    ∃ leaf' walk', dwalkAdd leaf walk index extent blocksize = .ok (leaf', walk') ∧
      leaf'.Sound blocksize ∧ leaf'.extents = leaf.extents ++ [(index, extent)] ∧
      BehindLast leaf' walk'
  split : ∀ leaf2 split, split < leaf.extents.length →
    ∃ from_ into, dleafSplitAt leaf leaf2 split blocksize = .ok (into.groups, from_, into) ∧
      from_.Sound blocksize ∧ into.Sound blocksize ∧
      from_.extents = leaf.extents.take split ∧ into.extents = leaf.extents.drop split
  merge : ∀ from_ ret leaf', from_.Sound blocksize →
    dleafMerge leaf from_ blocksize = .ok (ret, leaf') →
    (ret = 1 ∧ leaf'.Sound blocksize ∧ leaf'.extents = leaf.extents ++ from_.extents) ∨
      (ret = 0 ∧ leaf' = leaf)
  merges : ∀ from_, from_.Sound blocksize → AllBelow leaf.extents from_.extents →
    ∃ r, dleafMerge leaf from_ blocksize = .ok r

section Edits

variable {leaf from_ : Dleaf} {blocksize : Nat} {gs : List LeafGroup}

theorem Dleaf.Stores.split_list (h : leaf.Stores blocksize gs) (leaf2 : Dleaf) {split : Nat}
    (hsplit : split < leaf.extents.length) :
    ∃ from_ into, dleafSplitAt leaf leaf2 split blocksize = .ok (into.groups, from_, into) ∧
      from_.Sound blocksize ∧ into.Sound blocksize ∧
      from_.extents = leaf.extents.take split ∧ into.extents = leaf.extents.drop split := by
  rw [h.length_extents] at hsplit
  obtain ⟨from_, into, gs1, gs2, hcut, hfrom, hinto, htake, hdrop⟩ :=
    dleafSplitAt_spec leaf2 h hsplit
  refine ⟨from_, into, ?_, hfrom.sound, hinto.sound, ?_, ?_⟩
  · rw [hinto.lays.groups]
    exact hcut
  · rw [hfrom.extents_eq, h.extents_eq, htake]
  · rw [hinto.extents_eq, h.extents_eq, hdrop]

theorem Dleaf.Stores.copy_list {walk : Dwalk} {dest : Dleaf} (h : leaf.Stores blocksize gs)
    (hwalk : leaf.Walks walk) (hdest : dest.Sound blocksize) (hempty : dest.groups = 0) :
    ∃ dest', dwalkCopy leaf walk dest blocksize = .ok dest' ∧ dest'.Sound blocksize ∧
      dest'.extents = leaf.extents.drop walk.extent := by
  obtain ⟨gs0, hstores⟩ := hdest.exists_stores
  have hnil : gs0 = [] := List.eq_nil_of_length_eq_zero (hstores.lays.groups.symm.trans hempty)
  subst hnil
  obtain ⟨dest', gs', hcopy, hstores', hdrop⟩ := dwalkCopy_spec h hstores (hwalk.pos h)
  refine ⟨dest', hcopy, hstores'.sound, ?_⟩
  rw [hstores'.extents_eq, h.extents_eq, hdrop]

theorem Dleaf.Stores.chop_list {walk : Dwalk} (h : leaf.Stores blocksize gs)
    (hwalk : leaf.Walks walk) :
    ∃ leaf' walk', dwalkChop leaf walk blocksize = .ok (leaf', walk') ∧ leaf'.Sound blocksize ∧
      leaf'.extents = leaf.extents.take walk.extent ∧ BehindLast leaf' walk' := by
  obtain ⟨leaf', walk', gs', hchop, hstores', htake, hend⟩ := dwalkChop_spec h (hwalk.pos h)
  refine ⟨leaf', walk', hchop, hstores'.sound, ?_, (hend.addPos rfl).behindLast hstores'⟩
  rw [hstores'.extents_eq, h.extents_eq, htake]

theorem Dleaf.Stores.add_list {walk : Dwalk} {index : Nat} {extent : LeafExtent}
    (h : leaf.Stores blocksize gs) (hwalk : BehindLast leaf walk) (hindex : index < 2 ^ 48)
    (hblock : extent.block ≠ 0) (hlast : ∀ e ∈ leaf.extents, e.1 < index)
    (hroom : leaf.free + addRoom leaf walk index ≤ leaf.used) :
    ∃ leaf' walk', dwalkAdd leaf walk index extent blocksize = .ok (leaf', walk') ∧
      leaf'.Sound blocksize ∧ leaf'.extents = leaf.extents ++ [(index, extent)] ∧
      BehindLast leaf' walk' := by
  rw [h.extents_eq] at hlast
  obtain ⟨leaf', walk', gs', hadd, hstores', hpos', happend⟩ :=
    dwalkAdd_spec h (hwalk.addPos h) hindex hblock hlast hroom
  refine ⟨leaf', walk', hadd, hstores'.sound, ?_, hpos'.behindLast hstores'⟩
  rw [hstores'.extents_eq, h.extents_eq, happend]

/-- The edits of a sound leaf are edits of its list. -/
theorem dleaf_listEdits (h : leaf.Sound blocksize) : ListEdits leaf blocksize := by
  obtain ⟨gs, hstores⟩ := h.exists_stores
  have hlen := hstores.length_extents
  refine ⟨fun walk hwalk => ?_, fun i hi => ?_, fun walk dest => hstores.copy_list,
    fun walk => hstores.chop_list, fun walk index extent => hstores.add_list,
    fun leaf2 split => hstores.split_list leaf2, fun from_ ret leaf' hfrom hmerge => ?_,
    fun from_ hfrom horder => ?_⟩
  · have hpos := hwalk.pos hstores
    exact ⟨hpos.standsOn hstores.formed hstores.lays,
      fun hend => (hpos.addPos (hpos.end_iff.1 hend)).behindLast hstores⟩
  · obtain ⟨walk, hwalk, hpos⟩ := hstores.exists_walk (i := i) (hlen ▸ hi)
    exact ⟨walk, hwalk, hpos.extent_eq⟩
  · obtain ⟨gs2, hstores2⟩ := hfrom.exists_stores
    rcases dleafMerge_spec hstores hstores2 hmerge with ⟨hret, gs', hstores', hconcat⟩ | hsame
    · refine .inl ⟨hret, hstores'.sound, ?_⟩
      rw [hstores'.extents_eq, hstores.extents_eq, hstores2.extents_eq, hconcat]
    · exact .inr hsame
  · obtain ⟨gs2, hstores2⟩ := hfrom.exists_stores
    rw [hstores.extents_eq, hstores2.extents_eq] at horder
    exact dleafMerge_returns hstores hstores2 horder

end Edits

/-- Two groups: the addresses 1 and 5, and 0x1000000. -/
def twoGroupLeaf : Dleaf where
  magic := 0x1eaf
  groups := 2
  free := 32
  used := 44
  index := fun p => [indexWord 2 0, indexWord 1 1, indexWord 1 1, indexWord 2 5].getD (p - 1)
    (indexWord 1 0)
  table := fun _ => { zeroExtent with block := 1000, block_lt := thousand_lt }

theorem dleaf_listEdits_twoGroupLeaf : ListEdits twoGroupLeaf 64 :=
  dleaf_listEdits ⟨rfl, ⟨⟨rfl, rfl, trivial⟩, ⟨rfl, trivial⟩, trivial⟩, rfl, rfl, by decide,
    by decide⟩

/-- One group of two entries: two extents at the address 0, and one at 7. -/
def pairedLeaf : Dleaf where
  magic := 0x1eaf
  groups := 1
  free := 32
  used := 52
  index := fun p => [indexWord 2 0, indexWord 2 0].getD (p - 1) (indexWord 3 7)
  table := fun _ => { zeroExtent with block := 1000, block_lt := thousand_lt }

/-- The probe stands on the extent at 7, and the chop steps back to an entry of two extents. -/
theorem dwalkChop_pairedLeaf :
    ¬ ∀ (leaf : Dleaf) (blocksize : Nat) (walk : Dwalk), dleafCheck leaf blocksize = .ok 0 →
      leaf.free = 8 + 8 * leaf.extents.length → leaf.free ≤ leaf.used → blocksize < 2 ^ 16 →
      leaf.Walks walk → ∃ leaf' walk', dwalkChop leaf walk blocksize = .ok (leaf', walk') ∧
        leaf'.extents = leaf.extents.take walk.extent := by
  intro h
  have hprobe : dwalkProbe pairedLeaf 7 = .ok (⟨1, 1, 0, 3, 3, 0, 2, 3⟩, 1) := rfl
  obtain ⟨leaf', walk', hchop, -⟩ := h pairedLeaf 64 _ rfl rfl (by decide) (by decide)
    (.probe hprobe)
  have hfails : dwalkChop pairedLeaf ⟨1, 1, 0, 3, 3, 0, 2, 3⟩ 64 = .error .assertion := rfl
  rw [hfails] at hchop
  cases hchop

end Tux3
