/-
  Version/Total.lean --- the edits of the version tree succeed.

  No assertion fails and no recursion goes too deep where the tree is as it should be; a new version
  is refused only where the table is full.
-/
import Tux3.Version.Edit

set_option autoImplicit false

namespace Tux3.Versions

open Outcome (bind_of_ok bind_eq_ok)
open Packed (Packs offset)
open ParentTree (IsTree OnPath ListsKids Below onPath_iff onPath_root onPath_congr)

/-- All versions of the table are in use. -/
def TableFull (sb : VersionSb) : Prop := ∀ v, v < maxVersions → Used sb v

section Total

variable {sb sb' : VersionSb} {In : Nat → Prop} {kids : Nat → List Nat} {depth : Nat → Nat}
  {parent child v tag root old : Nat}

/-- A tree with a version besides the origin has one below it. -/
theorem Shape.kids_zero (h : Shape sb In kids depth) (hin : In v) (hv : v ≠ 0) : kids 0 ≠ [] := by
  refine h.tree.induction (P := fun v => v ≠ 0 → kids 0 ≠ []) (fun hne => absurd rfl hne)
    (fun v hin hne ih _ => ?_) hin hv
  by_cases hp : getParent sb v = 0
  · exact List.ne_nil_of_mem ((h.lists.mem 0 v).2 ⟨hne, hin, hp⟩)
  · exact ih hp

theorem Shape.getRoot_ok (h : Shape sb In kids depth) (hin : In v) (hv : v ≠ 0) :
    ∃ r, getRoot sb = .ok r := by
  refine ⟨sb.children 0, bind_of_ok (tuxAssert_of ?_)⟩
  rw [h.count_eq h.tree.root_in]
  exact fun hlen => h.kids_zero hin hv (List.eq_nil_of_length_eq_zero hlen)

theorem Shape.orderRoot_ok (h : Shape sb In kids depth) (hin : In v) (hv : v ≠ 0) :
    ∃ sb', orderRoot sb = .ok sb' := by
  obtain ⟨r, hroot⟩ := h.getRoot_ok hin hv
  have hr : r ∈ kids 0 := by
    rw [getRoot_eq h hroot]
    exact List.mem_singleton_self r
  have hdepth := h.kids_depth hr
  rw [h.tree.depth_root, Nat.zero_add] at hdepth
  obtain ⟨o, ho⟩ := orderTree_ok h.reads (h.kids_in hr) (fun _ => h.depth_lt)
    (Nat.le_add_left maxVersions _) sb.ordmap
  rw [hdepth] at ho
  exact ⟨_, (bind_of_ok hroot).trans (bind_of_ok ho)⟩

theorem Shape.invalidateBelow_ok (h : Shape sb In kids depth) (hin : In v)
    (hused : ∀ u, In u → Used sb u) : ∃ sb', invalidateBelow sb v = .ok sb' := by
  obtain ⟨table, hinv⟩ := invalidatePath_ok h.reads hin (fun _ => h.depth_lt)
    (Nat.le_add_left maxVersions _) (fun u hu => Nat.lt_of_lt_of_le (h.in_lt u hu) h.count_le)
    hused
  exact ⟨_, bind_of_ok hinv⟩

theorem findChild_ok (h : Packs sb.children sb.childIndex sb.childCount sb.versionCount kids)
    (hp : parent < sb.versionCount) (hc : child ∈ kids parent) :
    ∃ p, findChild sb parent child = .ok p := by
  unfold findChild
  cases hfind : (List.range (sb.childCount parent)).find? fun i =>
      getChild sb parent i = child with
  | some i => exact ⟨_, rfl⟩
  | none =>
      have hread := h.read hp
      rw [← hread] at hc
      obtain ⟨i, hi, hchild⟩ := List.mem_map.1 hc
      exact absurd (decide_eq_true hchild) (List.find?_eq_none.1 hfind i hi)

/-- Only a full table has no room for another version. -/
theorem newVersion_ok (h : VersionTree sb kids)
    (hfresh : ∀ v, sb.versionCount ≤ v → sb.childCount v = 0) (hroom : ¬ TableFull sb)
    (parent tag : Nat) : ∃ r, newVersion sb parent tag = .ok r := by
  unfold newVersion pickVersion
  cases hunused : unusedVersion sb with
  | some u =>
      obtain ⟨hne, hlt, hnot⟩ := unusedVersion_spec hunused
      refine ⟨_, bind_of_ok (tuxAssert_of ?_)⟩
      show sb.childCount u = 0
      rw [h.shape.packs.count_eq u hlt, h.shape.kids_nil hnot]
      rfl
  | none =>
      have hlt : sb.versionCount < maxVersions := by
        by_contra hfull
        refine hroom fun v hv => ?_
        by_contra hnot
        have hv0 : v ≠ 0 := fun heq => hnot (heq ▸ h.shape.tree.root_in)
        have hmem : v ∈ List.range' 1 (sb.versionCount - 1) :=
          List.mem_range'_1.2 ⟨Nat.pos_of_ne_zero hv0, by omega⟩
        have hused := List.find?_eq_none.1 hunused v hmem
        unfold Used at hnot
        rw [Bool.not_eq_true] at hnot
        rw [hnot] at hused
        exact hused rfl
      unfold growTable
      rw [if_pos hlt]
      exact ⟨_, bind_of_ok (tuxAssert_of (hfresh _ (Nat.le_refl _)))⟩

/-- A full table has none. -/
theorem newVersion_full (h : VersionTree sb kids) (hfull : TableFull sb) (parent tag : Nat) :
    newVersion sb parent tag = .error .bounds := by
  have hcount : ¬ sb.versionCount < maxVersions := fun hlt =>
    Nat.lt_irrefl _ (h.shape.in_lt _ (hfull _ hlt))
  have hnone : unusedVersion sb = none := by
    cases hunused : unusedVersion sb with
    | none => rfl
    | some u =>
        obtain ⟨-, hlt, hnot⟩ := unusedVersion_spec hunused
        exact absurd (hfull u (Nat.lt_of_lt_of_le hlt h.shape.count_le)) hnot
  unfold newVersion pickVersion
  rw [hnone]
  dsimp only
  unfold growTable
  rw [if_neg hcount]
  rfl

theorem insertChild_ok (h : Shape sb In kids sb.ordmap) (hc : Cached sb In kids)
    (hp : In parent) (hnot : ¬ In child) (hne : child ≠ 0) (hlt : child < sb.versionCount)
    (htop : parent = 0 → kids 0 = []) (hpath : (sb.table child).pathmap = false)
    (hnear : (sb.table child).nearmap = false) :
    ∃ sb', insertChild sb parent child = .ok sb' := by
  obtain ⟨a, b, -, hshape, -⟩ := linkChild_leaf h hc hp hnot hne hlt htop hpath hnear
  exact hshape.orderRoot_ok (v := child) (.inr rfl) hne

/-- A version is put above the whole tree. -/
theorem Above.insert_ok (h : Above sb In kids root old) (hused : ∀ u, In u ∨ u = root → Used sb u) :
    ∃ sb2 sb3 sb', insertChild sb root old = .ok sb2 ∧
      invalidateBelow { sb2 with children := Function.update sb2.children 0 root } root = .ok sb3 ∧
      orderRoot sb3 = .ok sb' := by
  obtain ⟨hreads, hdepth, -⟩ := h.reads
  obtain ⟨hold0, holdin, -⟩ := h.old_spec
  have hlt (u : Nat) (hu : In u ∨ u = root) : Function.update sb.ordmap root 0 u < maxVersions := by
    by_cases hur : u = root
    · rw [hur, Function.update_self]
      exact Nat.lt_of_lt_of_le (Nat.zero_lt_of_lt h.lt) h.shape.count_le
    · rw [Function.update_of_ne hur]
      exact h.shape.depth_lt (hu.resolve_right hur)
  obtain ⟨o, ho⟩ := orderTree_ok hreads (.inl holdin) hlt (Nat.le_add_left maxVersions _) sb.ordmap
  rw [hdepth] at ho
  have hinsert : insertChild sb root old = .ok { linkChild sb root old with ordmap := o } :=
    (bind_of_ok h.getRoot_link).trans (bind_of_ok ho)
  have hshape := h.linked o
  have hroot : (fun v => In v ∨ v = root) root := .inr rfl
  obtain ⟨sb3, hinv⟩ := hshape.invalidateBelow_ok hroot fun u hu => by
    show (((linkChild sb root old).table u)).used = true
    rw [linkChild_table]
    exact hused u hu
  obtain ⟨table, rfl, hsame, -⟩ := invalidateBelow_spec hshape.reads hroot hinv
  obtain ⟨sb', horder⟩ := (hshape.same hsame).orderRoot_ok hroot (h.ne h.shape.tree.root_in).symm
  exact ⟨_, _, sb', hinsert, hinv, horder⟩

theorem removeChild_ok (h : Shape sb In kids depth) (hin : In child) (hne : child ≠ 0) :
    ∃ sb', removeChild sb child = .ok sb' := by
  obtain ⟨p, hp⟩ := findChild_ok h.packs (h.in_lt _ (h.tree.parent_in child hin hne))
    ((h.lists.mem _ child).2 ⟨hne, hin, rfl⟩)
  exact ⟨_, bind_of_ok hp⟩

/-- The only child of a version takes its place. -/
theorem promoteChild_ok (h : Shape sb In kids depth) (hin : In child) (hne : child ≠ 0)
    (hp : getParent sb child = parent) (hpar : parent ≠ 0) (hone : (kids parent).length = 1)
    (hused : ∀ u, In u → Used sb u) : ∃ sb', promoteChild sb child = .ok sb' := by
  subst hp
  have hparin := h.tree.parent_in child hin hne
  have htopin := h.tree.parent_in _ hparin hpar
  have hplt := h.in_lt _ hparin
  have htlt := h.in_lt _ htopin
  have hdepth := h.tree.depth_eq child hin hne
  have hdepth' := h.tree.depth_eq _ hparin hpar
  have htop_ne : getParent sb (getParent sb child) ≠ getParent sb child := by
    intro heq
    rw [heq] at hdepth'
    omega
  have hchild_ne : child ≠ getParent sb child := by
    intro heq
    rw [← heq] at hdepth
    omega
  have hcount : sb.childCount (getParent sb child) = 1 := (h.count_eq hparin).trans hone
  obtain ⟨q, hfind⟩ := findChild_ok h.packs hplt ((h.lists.mem _ child).2 ⟨hne, hin, rfl⟩)
  obtain ⟨a, b, hkids, hpos⟩ := findChild_spec h.packs hplt hfind
  have hremove : removeChild sb child = .ok (unlinkChild sb (getParent sb child) q) :=
    bind_of_ok hfind
  have hpacks := unlinkChild_packs h hplt hkids hpos
  have hparent : getParent (unlinkChild sb (getParent sb child) q) = getParent sb := by
    funext v
    unfold getParent
    rw [unlinkChild_table]
  have hkid : getParent sb child ∈
      Function.update kids (getParent sb child) (a ++ b) (getParent sb (getParent sb child)) := by
    rw [Function.update_of_ne htop_ne]
    exact (h.lists.mem _ _).2 ⟨hpar, hparin, rfl⟩
  obtain ⟨p, hfind'⟩ := findChild_ok hpacks htlt hkid
  have hreplace : ∃ sb2, replaceChild (unlinkChild sb (getParent sb child) q)
      (getParent sb child) child = .ok sb2 := by
    unfold replaceChild
    rw [hparent, bind_of_ok hfind']
    dsimp only
    refine ⟨_, bind_of_ok (bind_of_ok (tuxAssert_of ?_))⟩
    rw [modify_of_ne _ _ hchild_ne.symm]
    show ((unlinkChild sb (getParent sb child) q).table (getParent sb child)).used = true
    rw [unlinkChild_table]
    exact hused _ hparin
  obtain ⟨sb2, hreplace⟩ := hreplace
  obtain ⟨a1, b1, a', b', hkidsp, hkidst, hab, hpacks2, htable, hrest⟩ :=
    promoteChild_edits h hin hne rfl rfl hpar hcount hremove hreplace
  have hshape := promoted_shape h hin hne rfl rfl hpar hkidsp hkidst hab hpacks2 htable
    (by rw [hrest])
  obtain ⟨sb3, hinv⟩ := hshape.invalidateBelow_ok ⟨hin, hchild_ne⟩ fun u hu => by
    unfold Used
    rw [htable, promotedVersion_of_ne _ _ _ hu.2]
    exact hused u hu.1
  obtain ⟨table, rfl, hsame, -⟩ := invalidateBelow_spec hshape.reads ⟨hin, hchild_ne⟩ hinv
  obtain ⟨sb', horder⟩ := (hshape.same hsame).orderRoot_ok ⟨hin, hchild_ne⟩ hne
  refine ⟨sb', ?_⟩
  unfold promoteChild
  rw [bind_of_ok (tuxAssert_of hcount), bind_of_ok hremove, bind_of_ok hreplace, bind_of_ok hinv]
  exact horder

end Total

end Tux3.Versions
