/-
  Version/Run.lean --- runs of the operations on snapshots.

  A version that is freed was made a ghost before, so that `find_tag`, which does not ask whether a
  version is in use, finds only those that are.
-/
import Tux3.Lib.System
import Tux3.Version.Edit

set_option autoImplicit false

namespace Tux3.Versions

open Outcome (bind_of_ok bind_eq_ok)
open ParentTree (IsTree OnPath ListsKids)

/-! ## Edits of the elements -/

/-- Elements, chunks and their data are edited, and the flags that mark present elements. -/
structure ElementEdit (sb sb' : VersionSb) : Prop where
  rest : sb' = { sb with
    table := sb'.table
    brood := sb'.brood
    elements := sb'.elements
    snapdata := sb'.snapdata
    orgdata := sb'.orgdata
    allocmap := sb'.allocmap
    nextchunk := sb'.nextchunk }
  table : ∀ v, sb'.table v = { sb.table v with present := (sb'.table v).present }

section ElementEdits

variable {sb sb' sb'' : VersionSb} {kids : Nat → List Nat} {v : Nat}

theorem ElementEdit.refl (sb : VersionSb) : ElementEdit sb sb := ⟨rfl, fun _ => rfl⟩

theorem ElementEdit.trans (h : ElementEdit sb sb') (h' : ElementEdit sb' sb'') :
    ElementEdit sb sb'' := by
  refine ⟨?_, fun v => ?_⟩
  · rw [h'.rest, h.rest]
  · rw [h'.table v, h.table v]

theorem ElementEdit.sameTree (h : ElementEdit sb sb') : SameTree sb sb' := by
  refine ⟨⟨?_, ?_, ?_, ?_, ?_, fun v => ?_, fun v => ?_⟩, ?_, ?_, fun v => ?_, fun v => ?_⟩
  all_goals first | rw [h.table v] | rw [h.rest]

theorem ElementEdit.ghost (h : ElementEdit sb sb') (v : Nat) :
    (sb'.table v).ghost = (sb.table v).ghost := by rw [h.table v]

theorem elementEdit_present (sb : VersionSb) (v : Nat) (flag : Bool) :
    ElementEdit sb (sb.modify v fun v => { v with present := flag }) := by
  refine ⟨rfl, fun u => ?_⟩
  by_cases hu : u = v
  · rw [hu, modify_self]
  · rw [modify_of_ne sb _ hu]

theorem elementEdit_setPresent (sb : VersionSb) (flag : Bool) :
    ElementEdit sb (setPresent sb flag) := by
  refine ⟨rfl, fun v => ?_⟩
  have hfold (l : List Element) (table : Nat → Version)
      (htable : table v = { sb.table v with present := (table v).present }) :
      l.foldl (fun table e => Function.update table e.label
        { table e.label with present := flag }) table v =
      { sb.table v with present := (l.foldl (fun table e => Function.update table e.label
        { table e.label with present := flag }) table v).present } := by
    induction l generalizing table with
    | nil => exact htable
    | cons e l ih =>
        refine ih _ ?_
        dsimp only
        by_cases hv : v = e.label
        · rw [hv, Function.update_self, ← hv, htable]
        · rw [Function.update_of_ne hv]
          exact htable
  exact hfold sb.elements sb.table rfl

theorem freeChunk_edit {chunk : Nat} (h : freeChunk sb chunk = .ok sb') : ElementEdit sb sb' := by
  obtain ⟨⟨⟩, -, heq⟩ := bind_eq_ok.1 h
  obtain rfl := Except.ok.inj heq
  exact ⟨rfl, fun _ => rfl⟩

theorem freeElement_edit {e : Element} {save : Option Element}
    (h : freeElement sb e = .ok (save, sb')) : ElementEdit sb sb' := by
  obtain ⟨sb1, hfree, heq⟩ := bind_eq_ok.1 h
  obtain ⟨-, rfl⟩ := Prod.mk.inj (Except.ok.inj heq)
  exact (elementEdit_present sb _ false).trans (freeChunk_edit hfree)

theorem deleteElement_edit {kill : Option Nat} {target parent i : Nat} {e : Element}
    {save : Option Element} (h : deleteElement sb kill target parent i e = .ok (save, sb')) :
    ElementEdit sb sb' := by
  unfold deleteElement at h
  dsimp only at h
  split at h
  · exact freeElement_edit h
  split at h
  · split at h
    · exact freeElement_edit h
    split at h
    · obtain ⟨heirs, -, h⟩ := bind_eq_ok.1 h
      split at h
      · exact freeElement_edit h
      · obtain ⟨-, rfl⟩ := Prod.mk.inj (Except.ok.inj h)
        exact (elementEdit_present sb _ false).trans (elementEdit_present _ _ true)
    split at h
    · obtain ⟨heirs, -, h⟩ := bind_eq_ok.1 h
      split at h
      · exact freeElement_edit h
      · obtain ⟨-, rfl⟩ := Prod.mk.inj (Except.ok.inj h)
        exact .refl sb
    · obtain ⟨-, rfl⟩ := Prod.mk.inj (Except.ok.inj h)
      exact .refl sb
  · obtain ⟨-, rfl⟩ := Prod.mk.inj (Except.ok.inj h)
    exact .refl sb

theorem deleteLoop_edit {kill : Option Nat} {target parent i : Nat} {l saves : List Element}
    (h : deleteLoop kill target parent l i sb = .ok (saves, sb')) : ElementEdit sb sb' := by
  induction l generalizing i sb saves with
  | nil =>
      obtain ⟨-, rfl⟩ := Prod.mk.inj (Except.ok.inj h)
      exact .refl sb
  | cons e l ih =>
      obtain ⟨⟨save, sb1⟩, hone, h⟩ := bind_eq_ok.1 h
      obtain ⟨⟨saves', sb2⟩, hloop, h⟩ := bind_eq_ok.1 h
      obtain ⟨-, rfl⟩ := Prod.mk.inj (Except.ok.inj h)
      exact (deleteElement_edit hone).trans (ih hloop)

/-- `delete_elements` edits elements only, and says that a ghost is left with one child. -/
theorem deleteElements_edit {target parent : Nat} {alone : Bool}
    (h : deleteElements sb target parent = .ok (alone, sb')) :
    ElementEdit sb sb' ∧ (alone = true → parent ≠ 0 ∧ (sb.table parent).ghost = true ∧
      sb.childCount parent = 1) := by
  obtain ⟨kill, -, h⟩ := bind_eq_ok.1 h
  obtain ⟨⟨elements, sb1⟩, hloop, h⟩ := bind_eq_ok.1 h
  obtain ⟨halone, rfl⟩ := Prod.mk.inj (Except.ok.inj h)
  have hbrood : ElementEdit sb (countBrood sb) := ⟨rfl, fun _ => rfl⟩
  have hfirst := hbrood.trans (elementEdit_setPresent _ true)
  have hsaved : ElementEdit sb1 { sb1 with elements } := ⟨rfl, fun _ => rfl⟩
  have hclear (sb : VersionSb) : ElementEdit sb (clearBrood sb) := ⟨rfl, fun _ => rfl⟩
  have hlast := (hsaved.trans (elementEdit_setPresent _ false)).trans (hclear _)
  have hedit := (hfirst.trans (deleteLoop_edit hloop)).trans hlast
  refine ⟨hedit, fun htrue => ?_⟩
  rw [htrue] at halone
  obtain ⟨hne, hcount⟩ := of_decide_eq_true halone
  rw [hedit.sameTree.childCount] at hcount
  have hghost : isGhost (setPresent (countBrood sb) true) parent = true := by
    by_contra hnot
    rw [if_neg hnot] at hne
    exact hne rfl
  rw [if_pos hghost] at hne hcount
  exact ⟨hne, (hfirst.ghost parent).symm.trans hghost, hcount⟩

theorem newChunk_edit {data chunk : Nat} (h : newChunk sb data = .ok (chunk, sb')) :
    ElementEdit sb sb' := by
  unfold newChunk at h
  split at h
  · cases h
  · obtain ⟨-, rfl⟩ := Prod.mk.inj (Except.ok.inj h)
    exact ⟨rfl, fun _ => rfl⟩

theorem addElement_edit {label chunk : Nat} (h : addElement sb label chunk = .ok sb') :
    ElementEdit sb sb' := by
  obtain ⟨⟨⟩, -, heq⟩ := bind_eq_ok.1 h
  obtain rfl := Except.ok.inj heq
  exact ⟨rfl, fun _ => rfl⟩

theorem rewriteChunk_edit {found : Option Nat} {data : Nat}
    (h : rewriteChunk sb found data = .ok sb') : ElementEdit sb sb' := by
  unfold rewriteChunk at h
  split at h
  · obtain rfl := Except.ok.inj h
    exact ⟨rfl, fun _ => rfl⟩
  · cases h

end ElementEdits

/-! ## The operations keep the tree -/

/-- The versions in use are a tree, and the others are ghosts. -/
structure VersionInv (sb : VersionSb) : Prop where
  tree : ∃ kids, VersionTree sb kids
  freed : ∀ v, v < sb.versionCount → ¬ Used sb v → (sb.table v).ghost = true

section Operations

variable {sb sb' sb1 : VersionSb} {In : Nat → Prop} {kids : Nat → List Nat} {v : Nat}
  {tag parentTag data parent child target : Nat}

theorem VersionTree.of (h : Shape sb In kids sb.ordmap) (hc : Cached sb In kids)
    (hin : ∀ v, Used sb v ↔ In v) : VersionTree sb kids := by
  obtain rfl : Used sb = In := funext fun v => propext (hin v)
  exact ⟨h, hc⟩

/-- A live version with the tag, below the origin. -/
theorem findTag_spec (h : VersionInv sb) (hfind : findTag sb tag = .ok v) :
    v ≠ 0 ∧ Used sb v ∧ (sb.table v).ghost = false ∧ (sb.table v).tag = tag := by
  unfold findTag at hfind
  split at hfind
  · next u hfound =>
      obtain rfl := Except.ok.inj hfind
      have hmem := List.mem_range'_1.1 (List.mem_of_find?_eq_some hfound)
      have hghost : (!isGhost sb u) = true ∧ (sb.table u).tag = tag := by
        simpa only [decide_eq_true_eq] using List.find?_some hfound
      have hlive : (sb.table u).ghost = false := by
        unfold isGhost at hghost
        cases hcur : (sb.table u).ghost with
        | false => rfl
        | true =>
            rw [hcur] at hghost
            cases hghost.1
      refine ⟨by omega, ?_, hlive, hghost.2⟩
      by_contra hnot
      have hfreed := h.freed u (by omega) hnot
      rw [hlive] at hfreed
      cases hfreed
  · cases hfind

theorem VersionInv.edit (h : VersionInv sb) (hedit : ElementEdit sb sb') : VersionInv sb' := by
  obtain ⟨kids, htree⟩ := h.tree
  have hsame := hedit.sameTree
  refine ⟨⟨kids, htree.same hsame⟩, fun v hv hnot => ?_⟩
  rw [hedit.ghost]
  rw [hsame.versionCount] at hv
  rw [hsame.used_eq] at hnot
  exact h.freed v hv hnot

theorem VersionInv.loads (h : VersionInv sb) (hloads : Loads sb sb')
    (htree : VersionTree sb' kids) : VersionInv sb' := by
  refine ⟨⟨kids, htree⟩, fun v hv hnot => ?_⟩
  rw [hloads.sameShape.versionCount] at hv
  rw [hloads.sameShape.used_eq] at hnot
  rw [hloads.table v]
  exact h.freed v hv hnot

theorem VersionTree.loads (h : VersionTree sb kids) (hloads : Loads sb sb')
    (hc : Cached sb' (Used sb) kids) : VersionTree sb' kids := by
  refine ⟨?_, ?_⟩
  · rw [hloads.sameShape.used_eq, hloads.sameShape.ordmap]
    exact h.shape.same hloads.sameShape
  · rw [hloads.sameShape.used_eq]
    exact hc

theorem linkChild_used : Used (linkChild sb parent child) v ↔ Used sb v := by
  unfold Used
  rw [linkChild_table]

theorem linkChild_ghost (sb : VersionSb) (parent child v : Nat) :
    ((linkChild sb parent child).table v).ghost = (sb.table v).ghost := by
  rw [linkChild_table]

/-- A version was made: the others that are not in use are ghosts still. -/
theorem Made.freed (hmade : Made sb sb1 parent tag child) (h : VersionInv sb)
    (hcount : sb'.versionCount = sb1.versionCount) (hused : ∀ v, Used sb1 v → Used sb' v)
    (hghost : ∀ v, (sb1.table v).ghost = true → (sb'.table v).ghost = true)
    (hv : v < sb'.versionCount) (hnot : ¬ Used sb' v) : (sb'.table v).ghost = true := by
  have hnot1 : ¬ (Used sb v ∨ v = child) := fun hor =>
    hnot (hused v (hmade.used_iff.2 hor))
  have hne : v ≠ child := fun heq => hnot1 (.inr heq)
  rw [hcount] at hv
  refine hghost v ?_
  rw [hmade.table_of_ne hne]
  exact h.freed v (hmade.others_lt v hv hne) fun hu => hnot1 (.inl hu)

/-- A new version is linked below a version of the tree. -/
theorem newLeaf_inv {sb2 : VersionSb} (h : VersionInv sb) (hused : Used sb parent)
    (htop : parent = 0 → sb.childCount 0 = 0) (hnew : newVersion sb parent tag = .ok (child, sb1))
    (hinsert : insertChild sb1 parent child = .ok sb2) :
    VersionInv sb2 ∧ Made sb sb1 parent tag child ∧
      ∃ o, sb2 = { linkChild sb1 parent child with ordmap := o } := by
  obtain ⟨kids, htree⟩ := h.tree
  obtain ⟨hmade, hshape, hcached⟩ := newVersion_spec htree hnew
  have hchild := hmade.table_child
  have hnil (h0 : parent = 0) : kids 0 = [] := by
    have hcount := htop h0
    rw [htree.shape.count_eq htree.shape.tree.root_in] at hcount
    exact List.eq_nil_of_length_eq_zero hcount
  obtain ⟨a, b, o, -, heq, hshape2, hcached2⟩ := insertChild_leaf hshape hcached hused
    hmade.unused hmade.ne_zero hmade.lt hnil (by rw [hchild]; rfl) (by rw [hchild]; rfl) hinsert
  have hused2 {v : Nat} : Used sb2 v ↔ Used sb1 v := by
    rw [heq]
    exact linkChild_used
  refine ⟨⟨⟨_, .of hshape2 hcached2 fun v => hused2.trans hmade.used_iff⟩, fun v =>
    hmade.freed h (by rw [heq]; rfl) (fun v => hused2.2) fun v hg => ?_⟩, hmade, o, heq⟩
  rw [heq]
  exact (linkChild_ghost sb1 parent child v).trans hg

/-- Another numbering of the tree. -/
theorem VersionInv.reorder (h : VersionInv sb) (horder : orderRoot sb = .ok sb') :
    VersionInv sb' ∧ ∃ o, sb' = { sb with ordmap := o } := by
  obtain ⟨kids, htree⟩ := h.tree
  obtain ⟨hshape, hcached, -⟩ :=
    htree.shape.reorder htree.shape.tree.depth_root htree.cached horder
  obtain ⟨o, rfl, -⟩ := orderRoot_spec htree.shape htree.shape.tree.depth_root horder
  exact ⟨⟨⟨kids, hshape, hcached⟩, h.freed⟩, o, rfl⟩

theorem snapshotOfSnapshot_inv (h : VersionInv sb)
    (hop : snapshotOfSnapshot sb tag parentTag = .ok sb') : VersionInv sb' := by
  obtain ⟨parent, hfind, hop⟩ := bind_eq_ok.1 hop
  obtain ⟨⟨child, sb1⟩, hnew, hop⟩ := bind_eq_ok.1 hop
  obtain ⟨⟨⟩, -, hop⟩ := bind_eq_ok.1 hop
  obtain ⟨sb2, hinsert, horder⟩ := bind_eq_ok.1 hop
  obtain ⟨hpne, hpused, -⟩ := findTag_spec h hfind
  obtain ⟨hinv, -⟩ := newLeaf_inv h hpused (fun h0 => absurd h0 hpne) hnew hinsert
  exact (hinv.reorder horder).1

theorem snapshotOfOrigin_inv (h : VersionInv sb) (hop : snapshotOfOrigin sb tag = .ok sb') :
    VersionInv sb' := by
  obtain ⟨kids, htree⟩ := h.tree
  obtain ⟨⟨root, sb1⟩, hnew, hop⟩ := bind_eq_ok.1 hop
  obtain ⟨hmade, hshape, hcached⟩ := newVersion_spec htree hnew
  have hchild := hmade.table_child
  have h0 := hshape.tree.root_in
  dsimp only at hop
  split at hop
  · next hempty =>
      refine (newLeaf_inv h h0 (fun _ => ?_) hnew hop).1
      rw [hmade.rest] at hempty
      exact hempty
  · next hempty =>
      obtain ⟨old, tail, hold⟩ : ∃ old tail, kids 0 = old :: tail := by
        rw [hshape.count_eq h0] at hempty
        exact List.exists_cons_of_length_pos (Nat.pos_of_ne_zero hempty)
      obtain ⟨sb2, hinsert, hop⟩ := bind_eq_ok.1 hop
      obtain ⟨sb3, hinv, horder⟩ := bind_eq_ok.1 hop
      have hpar : getParent sb1 root = 0 := by
        unfold getParent
        rw [hchild]
      have hone := hshape.one
      rw [hold, List.length_cons] at hone
      obtain rfl : tail = [] := List.eq_nil_of_length_eq_zero (by omega)
      have habove : Above sb1 (Used sb) kids root old :=
        ⟨hshape, hmade.unused, hmade.lt, hold, hpar⟩
      rw [habove.getChild_eq] at hinsert
      obtain ⟨⟨children, table, o, heq, htable⟩, hshape2, hcached2⟩ :=
        insertChild_top habove hcached hinsert hinv horder
      have hused {v : Nat} : Used sb' v ↔ Used sb1 v := by
        have hlink := congrArg Version.used (htable v)
        rw [heq]
        show (table v).used = true ↔ _
        rw [hlink]
        exact linkChild_used
      refine ⟨⟨_, .of hshape2 hcached2 fun v => hused.trans hmade.used_iff⟩, fun v =>
        hmade.freed h (by rw [heq]; rfl) (fun v => hused.2) fun v hg => ?_⟩
      have hlink := congrArg Version.ghost (htable v)
      rw [heq]
      show (table v).ghost = true
      rw [hlink]
      exact (linkChild_ghost sb1 root old v).trans hg

theorem SameTree.ghosted (sb : VersionSb) (target : Nat) :
    SameTree sb (ghostVersion sb target) := by
  unfold ghostVersion
  refine ⟨⟨rfl, rfl, rfl, rfl, rfl, fun v => ?_, fun v => ?_⟩, rfl, rfl, fun v => ?_, fun v => ?_⟩
  all_goals
    by_cases hv : v = target
    · rw [hv, modify_self]
    · rw [modify_of_ne _ _ hv]

theorem ghostVersion_ghost (sb : VersionSb) (target v : Nat) :
    ((ghostVersion sb target).table v).ghost = (v = target || (sb.table v).ghost) := by
  unfold ghostVersion
  by_cases hv : v = target
  · rw [hv, modify_self]
    simp
  · rw [modify_of_ne _ _ hv]
    simp [hv]

theorem VersionInv.ghosted (h : VersionInv sb) (target : Nat) :
    VersionInv (ghostVersion sb target) := by
  obtain ⟨kids, htree⟩ := h.tree
  have hsame := SameTree.ghosted sb target
  refine ⟨⟨kids, htree.same hsame⟩, fun v hv hnot => ?_⟩
  rw [hsame.used_eq] at hnot
  rw [hsame.versionCount] at hv
  rw [ghostVersion_ghost, h.freed v hv hnot, Bool.or_true]

/-- While a version is deleted, the others outside the tree are ghosts. -/
structure Deleting (sb : VersionSb) (In : Nat → Prop) (kids : Nat → List Nat) (target : Nat) :
    Prop where
  shape : Shape sb In kids sb.ordmap
  cached : Cached sb In kids
  out : ¬ In target
  used : ∀ v, v ≠ target → (Used sb v ↔ In v)
  ghost : ∀ v, v < sb.versionCount → ¬ In v → (sb.table v).ghost = true

/-- What `promote_child` does to the versions. -/
theorem promoteChild_versions (h : Shape sb In kids sb.ordmap) (hc : Cached sb In kids)
    (hin : In child) (hne : child ≠ 0) (hp : getParent sb child = parent) (hpar : parent ≠ 0)
    (hpromote : promoteChild sb child = .ok sb') :
    (∃ kids', Shape sb' (fun v => In v ∧ v ≠ parent) kids' sb'.ordmap ∧
      Cached sb' (fun v => In v ∧ v ≠ parent) kids') ∧
    sb'.versionCount = sb.versionCount ∧ ∀ v, (Used sb' v ↔ Used sb v ∧ v ≠ parent) ∧
      (sb'.table v).ghost = (sb.table v).ghost := by
  obtain ⟨a, b, a', b', -, -, -, hshape, hcached, htable, hrest⟩ :=
    promoteChild_spec h h.tree.depth_root hc hin hne hp rfl hpar hpromote
  refine ⟨⟨_, hshape, hcached⟩, by rw [hrest], fun v => ⟨?_, ?_⟩⟩
  · have hused := congrArg Version.used (htable v)
    unfold promotedVersion at hused
    unfold Used
    rw [hused]
    by_cases hvp : v = parent
    · rw [if_pos hvp]
      exact iff_of_false Bool.false_ne_true fun hin => hin.2 hvp
    · rw [if_neg hvp]
      exact ⟨fun hin => ⟨hin, hvp⟩, fun hin => hin.1⟩
  · have hg := congrArg Version.ghost (htable v)
    unfold promotedVersion at hg
    rw [hg]
    by_cases hvp : v = parent
    · rw [if_pos hvp]
    · rw [if_neg hvp]

theorem deleteLeaf_inv (h : VersionInv sb) (hused : Used sb target) (hne : target ≠ 0)
    (hghost : (sb.table target).ghost = true) (hleaf : sb.childCount target = 0)
    (hop : deleteLeaf sb target (getParent sb target) = .ok sb') : VersionInv sb' := by
  obtain ⟨kids, htree⟩ := h.tree
  have hparused := htree.shape.tree.parent_in target hused hne
  rw [htree.shape.count_eq hused] at hleaf
  obtain ⟨sb2, hremove, hop⟩ := bind_eq_ok.1 hop
  obtain ⟨⟨alone, sb4⟩, hdelete, hop⟩ := bind_eq_ok.1 hop
  obtain ⟨sb5, hpromote, hfree⟩ := bind_eq_ok.1 hop
  obtain ⟨a, b, q, -, hsb2, hshape2, hcached2⟩ := removeChild_leaf htree.shape htree.cached hused
    hne (List.eq_nil_of_length_eq_zero hleaf) hremove
  obtain ⟨hshape3, hcached3⟩ := modify_outside hshape2 hcached2 (fun hin => hin.2 rfl)
    fun v => { v with parent := 0 }
  obtain ⟨hedit, halone⟩ := deleteElements_edit hdelete
  have hsame := hedit.sameTree
  have hshape4 := hshape3.same hsame.toSameShape
  have hcount4 : sb4.versionCount = sb.versionCount := by
    rw [hsame.versionCount, hsb2]
    rfl
  have hord4 : sb4.ordmap = sb.ordmap := by
    rw [hsame.ordmap, hsb2]
    rfl
  rw [← hord4] at hshape4
  -- the target has left the tree, and nothing else has changed
  have htable4 {v : Nat} : (sb4.table v).used = (sb.table v).used ∧
      (sb4.table v).ghost = (sb.table v).ghost := by
    rw [hedit.table v]
    by_cases hv : v = target
    · rw [hv, modify_self, hsb2, unlinkChild_table]
      exact ⟨rfl, rfl⟩
    · rw [modify_of_ne _ _ hv, hsb2, unlinkChild_table]
      exact ⟨rfl, rfl⟩
  have hdeleting : Deleting sb4 (fun v => Used sb v ∧ v ≠ target)
      (Function.update kids (getParent sb target) (a ++ b)) target := by
    refine ⟨hshape4, hcached3.same hsame, fun hin => hin.2 rfl, fun v hv => ?_, fun v hv hnot => ?_⟩
    · unfold Used
      rw [htable4.1]
      exact ⟨fun hu => ⟨hu, hv⟩, fun hu => hu.1⟩
    · rw [htable4.2]
      by_cases hvt : v = target
      · rw [hvt]
        exact hghost
      · exact h.freed v (hcount4 ▸ hv) fun hu => hnot ⟨hu, hvt⟩
  have hpromoted : ∃ In kids', Deleting sb5 In kids' target := by
    unfold promoteAlone at hpromote
    split at hpromote
    · next htrue =>
        obtain ⟨hpne, hpghost, hpone⟩ := halone htrue
        have hpt : getParent sb target ≠ target := by
          intro heq
          have hdepth := htree.shape.tree.depth_eq target hused hne
          rw [heq] at hdepth
          omega
        have hpin : Used sb (getParent sb target) ∧ getParent sb target ≠ target :=
          ⟨hparused, hpt⟩
        have hmem : getChild sb4 (getParent sb target) 0 ∈
            Function.update kids (getParent sb target) (a ++ b) (getParent sb target) := by
          have hread := hshape4.read_kids hpin
          rw [hsame.childCount, hpone] at hread
          rw [← hread]
          exact List.mem_singleton_self _
        obtain ⟨hcne, hcin, hcpar⟩ := (hshape4.lists.mem _ _).1 hmem
        obtain ⟨⟨kids', hshape5, hcached5⟩, hcount5, htable5⟩ := promoteChild_versions
          hdeleting.shape hdeleting.cached hcin hcne hcpar hpne hpromote
        refine ⟨_, kids', hshape5, hcached5, fun hin => hin.1.2 rfl, fun v hv => ?_,
          fun v hv hnot => ?_⟩
        · rw [(htable5 v).1, hdeleting.used v hv]
        · rw [hcount5] at hv
          rw [(htable5 v).2]
          by_cases hvp : v = getParent sb target
          · rw [hvp, hedit.ghost]
            exact hpghost
          · exact hdeleting.ghost v hv fun hin => hnot ⟨hin, hvp⟩
    · obtain rfl := Except.ok.inj hpromote
      exact ⟨_, _, hdeleting⟩
  obtain ⟨In, kids', hdone⟩ := hpromoted
  obtain ⟨⟨activeCount, hsb'⟩, hshape', hcached'⟩ :=
    freeVersion_spec hdone.shape hdone.cached hdone.out hfree
  have hord' : sb'.ordmap = sb5.ordmap := by
    rw [hsb']
    rfl
  rw [← hord'] at hshape'
  refine ⟨⟨_, .of hshape' hcached' fun v => ?_⟩, fun v hv hnot => ?_⟩
  · rw [hsb']
    unfold Used
    by_cases hv : v = target
    · dsimp only
      rw [hv, modify_self]
      exact iff_of_false Bool.false_ne_true hdone.out
    · dsimp only
      rw [modify_of_ne _ _ hv]
      exact hdone.used v hv
  · rw [hsb'] at hv hnot ⊢
    unfold Used at hnot
    dsimp only at hnot ⊢
    by_cases hvt : v = target
    · rw [hvt, modify_self]
      exact hdone.ghost target (hvt ▸ hv) hdone.out
    · rw [modify_of_ne _ _ hvt] at hnot ⊢
      exact hdone.ghost v hv fun hin => hnot ((hdone.used v hvt).2 hin)

theorem snapshotDelete_inv (h : VersionInv sb) (hop : snapshotDelete sb tag = .ok sb') :
    VersionInv sb' := by
  obtain ⟨target, hfind, hop⟩ := bind_eq_ok.1 hop
  obtain ⟨hne, hused, -⟩ := findTag_spec h hfind
  have hsame := SameTree.ghosted sb target
  have hghosted := h.ghosted target
  have hused1 : Used (ghostVersion sb target) target := by
    rw [hsame.used_eq]
    exact hused
  have hghost1 : ((ghostVersion sb target).table target).ghost = true := by
    rw [ghostVersion_ghost]
    simp
  unfold deleteGhost at hop
  dsimp only at hop
  split at hop
  · next hzero => exact deleteLeaf_inv hghosted hused1 hne hghost1 hzero hop
  · next hone =>
      obtain ⟨⟨alone, sb2⟩, hdelete, hop⟩ := bind_eq_ok.1 hop
      obtain ⟨hedit, -⟩ := deleteElements_edit hdelete
      obtain ⟨kids, htree⟩ := (hghosted.edit hedit).tree
      have hused2 : Used sb2 target := by
        rw [hedit.sameTree.used_eq]
        exact hused1
      have hmem : getChild sb2 target 0 ∈ kids target := by
        have hread := htree.shape.read_kids hused2
        rw [hedit.sameTree.childCount, hone] at hread
        rw [← hread]
        exact List.mem_singleton_self _
      obtain ⟨hcne, hcin, hcpar⟩ := (htree.shape.lists.mem _ _).1 hmem
      have hghost2 : (sb2.table target).ghost = true := by
        rw [hedit.ghost]
        exact hghost1
      obtain ⟨⟨kids', hshape, hcached⟩, hcount, htable⟩ := promoteChild_versions htree.shape
        htree.cached hcin hcne hcpar hne hop
      refine ⟨⟨kids', .of hshape hcached fun v => (htable v).1⟩, fun v hv hnot => ?_⟩
      rw [hcount] at hv
      rw [(htable v).1] at hnot
      rw [(htable v).2]
      by_cases hvt : v = target
      · rw [hvt]
        exact hghost2
      · exact (hghosted.edit hedit).freed v hv fun hu => hnot ⟨hu, hvt⟩
  · obtain ⟨⟨alone, sb2⟩, hdelete, hop⟩ := bind_eq_ok.1 hop
    obtain rfl := Except.ok.inj hop
    exact hghosted.edit (deleteElements_edit hdelete).1

theorem VersionInv.ghostSet (h : VersionInv sb) (target : Nat) :
    VersionInv (sb.modify target fun v => { v with ghost := true }) := by
  obtain ⟨kids, htree⟩ := h.tree
  have hsame : SameTree sb (sb.modify target fun v => { v with ghost := true }) := by
    refine ⟨⟨rfl, rfl, rfl, rfl, rfl, fun v => ?_, fun v => ?_⟩, rfl, rfl, fun v => ?_,
      fun v => ?_⟩
    all_goals
      by_cases hv : v = target
      · rw [hv, modify_self]
      · rw [modify_of_ne _ _ hv]
  refine ⟨⟨kids, htree.same hsame⟩, fun v hv hnot => ?_⟩
  by_cases hvt : v = target
  · rw [hvt, modify_self]
  · rw [hsame.used_eq] at hnot
    rw [modify_of_ne _ _ hvt]
    exact h.freed v hv hnot

theorem implicitVersion_inv (h : VersionInv sb) (hused : Used sb target) (hne : target ≠ 0)
    (hop : implicitVersion sb target tag = .ok (child, sb')) : VersionInv sb' := by
  unfold implicitVersion at hop
  split at hop
  · obtain ⟨⟨version, sb1⟩, hnew, hop⟩ := bind_eq_ok.1 hop
    obtain ⟨sb2, hinsert, hop⟩ := bind_eq_ok.1 hop
    obtain ⟨rfl, rfl⟩ := Prod.mk.inj (Except.ok.inj hop)
    exact (newLeaf_inv h hused (fun h0 => absurd h0 hne) hnew hinsert).1.ghostSet target
  · obtain ⟨-, rfl⟩ := Prod.mk.inj (Except.ok.inj hop)
    exact h

theorem snapshotWrite_inv (h : VersionInv sb) (hop : snapshotWrite sb tag data = .ok sb') :
    VersionInv sb' := by
  obtain ⟨kids, htree⟩ := h.tree
  obtain ⟨target, hfind, hop⟩ := bind_eq_ok.1 hop
  obtain ⟨⟨near, sb1⟩, hnear, hop⟩ := bind_eq_ok.1 hop
  obtain ⟨hne, hused, -⟩ := findTag_spec h hfind
  obtain ⟨⟨⟩, -, hnear⟩ := bind_eq_ok.1 hnear
  obtain ⟨-, rfl⟩ := Prod.mk.inj (Except.ok.inj hnear)
  obtain ⟨hloads, hcached, -⟩ := needNear_spec htree.shape htree.cached hused hne
  have hinv := h.loads hloads (htree.loads hloads hcached)
  have hused1 : Used (needNear sb target) target := by
    rw [hloads.sameShape.used_eq]
    exact hused
  dsimp only at hop
  split at hop
  · exact hinv.edit (rewriteChunk_edit hop)
  · obtain ⟨⟨version, sb2⟩, himplicit, hop⟩ := bind_eq_ok.1 hop
    obtain ⟨relabel, -, hop⟩ := bind_eq_ok.1 hop
    have hinv2 := (implicitVersion_inv hinv hused1 hne himplicit).edit
      ((elementEdit_setPresent sb2 true).trans (elementEdit_setPresent _ false))
    dsimp only at hop
    split at hop
    · split at hop
      · refine (hinv2.edit ?_).edit (rewriteChunk_edit hop)
        exact ⟨rfl, fun _ => rfl⟩
      · cases hop
    · obtain ⟨⟨chunk, sb3⟩, hchunk, hop⟩ := bind_eq_ok.1 hop
      exact (hinv2.edit (newChunk_edit hchunk)).edit (addElement_edit hop)

theorem originWrite_inv (h : VersionInv sb) (hop : originWrite sb data = .ok sb') :
    VersionInv sb' := by
  obtain ⟨⟨heirs, sb1⟩, hinherit, hop⟩ := bind_eq_ok.1 hop
  obtain ⟨sb2, hsave, hop⟩ := bind_eq_ok.1 hop
  obtain rfl := Except.ok.inj hop
  obtain ⟨n, -, hinherit⟩ := bind_eq_ok.1 hinherit
  obtain ⟨-, rfl⟩ := Prod.mk.inj (Except.ok.inj hinherit)
  have hinv1 := h.edit ((elementEdit_setPresent sb true).trans (elementEdit_setPresent _ false))
  have hdata (sb : VersionSb) : ElementEdit sb { sb with orgdata := data } := ⟨rfl, fun _ => rfl⟩
  unfold saveOrigin at hsave
  split at hsave
  · obtain ⟨root, -, hsave⟩ := bind_eq_ok.1 hsave
    obtain ⟨⟨chunk, sb3⟩, hchunk, hadd⟩ := bind_eq_ok.1 hsave
    exact ((hinv1.edit (newChunk_edit hchunk)).edit (addElement_edit hadd)).edit (hdata sb2)
  · obtain rfl := Except.ok.inj hsave
    exact hinv1.edit (hdata _)

theorem lookupElement_inv (h : VersionInv sb) (hused : Used sb v) {found : Option Nat}
    (hop : lookupElement sb v = .ok (found, sb')) : VersionInv sb' := by
  obtain ⟨kids, htree⟩ := h.tree
  obtain ⟨sb1, hlookup, hloads, hcached⟩ := lookupElement_spec htree.shape htree.cached hused
  rw [hlookup] at hop
  obtain ⟨-, rfl⟩ := Prod.mk.inj (Except.ok.inj hop)
  exact h.loads hloads (htree.loads hloads hcached)

theorem snapshotRead_inv (h : VersionInv sb) {value : Nat}
    (hop : snapshotRead sb tag = .ok (value, sb')) : VersionInv sb' := by
  obtain ⟨target, hfind, hop⟩ := bind_eq_ok.1 hop
  obtain ⟨⟨found, sb1⟩, hlookup, hop⟩ := bind_eq_ok.1 hop
  have hinv := lookupElement_inv h (findTag_spec h hfind).2.1 hlookup
  dsimp only at hop
  split at hop
  · obtain ⟨-, rfl⟩ := Prod.mk.inj (Except.ok.inj hop)
    exact hinv
  · obtain ⟨-, rfl⟩ := Prod.mk.inj (Except.ok.inj hop)
    exact hinv

theorem sameChunk_inv {v1 v2 : Nat} (h : VersionInv sb) (h1 : Used sb v1) (h2 : Used sb v2)
    {same : Bool} (hop : sameChunk sb v1 v2 = .ok (same, sb')) : VersionInv sb' := by
  obtain ⟨kids, htree⟩ := h.tree
  obtain ⟨sb1, hsame, hloads, hcached⟩ := sameChunk_spec htree.shape htree.cached h1 h2
  rw [hsame] at hop
  obtain ⟨-, rfl⟩ := Prod.mk.inj (Except.ok.inj hop)
  exact h.loads hloads (htree.loads hloads hcached)

end Operations

/-! ## Runs -/

/-- The version table that has just the origin. -/
def originSb : VersionSb :=
  { zeroSb with
    table := Function.update zeroSb.table 0 { zeroVersion with parent := 65535, used := true }
    childIndex := Function.update zeroSb.childIndex 0 0
    versionCount := 1
    activeCount := 1 }

theorem newVersion_origin : newVersion zeroSb 65535 0 = .ok (0, originSb) := rfl

/-- A step is any of the operations, on snapshots of any tag or versions in use. -/
inductive VersionStep (sb sb' : VersionSb) : Prop
  | ofOrigin {tag : Nat} (h : snapshotOfOrigin sb tag = .ok sb')
  | ofSnapshot {tag parentTag : Nat} (h : snapshotOfSnapshot sb tag parentTag = .ok sb')
  | write {tag data : Nat} (h : snapshotWrite sb tag data = .ok sb')
  | originWrite {data : Nat} (h : originWrite sb data = .ok sb')
  | delete {tag : Nat} (h : snapshotDelete sb tag = .ok sb')
  | read {tag value : Nat} (h : snapshotRead sb tag = .ok (value, sb'))
  | lookup {v : Nat} {found : Option Nat} (hv : Used sb v)
      (h : lookupElement sb v = .ok (found, sb'))
  | same {v1 v2 : Nat} {eq : Bool} (h1 : Used sb v1) (h2 : Used sb v2)
      (h : sameChunk sb v1 v2 = .ok (eq, sb'))

/-- The runs from the table that has just the origin. -/
def versionSystem : System VersionSb where
  init := fun sb => newVersion zeroSb 65535 0 = .ok (0, sb)
  next := VersionStep

theorem originSb_used {v : Nat} : Used originSb v ↔ v = 0 := by
  unfold Used originSb
  dsimp only
  by_cases hv : v = 0
  · rw [hv, Function.update_self]
    exact iff_of_true rfl rfl
  · rw [Function.update_of_ne hv]
    exact iff_of_false Bool.false_ne_true hv

theorem originSb_inv : VersionInv originSb := by
  have hflag {v : Nat} (hv : Used originSb v) : originSb.table v =
      { zeroVersion with parent := 65535, used := true } := by
    rw [originSb_used.1 hv]
    rfl
  refine ⟨⟨fun _ => [], ⟨⟨?_, ?_, ?_, fun v hv => ?_, ?_, Nat.zero_le 1⟩,
    ⟨fun v hv h => ?_, fun v hv h => ?_, ?_⟩⟩⟩, fun v hv hnot => ?_⟩
  · exact ⟨originSb_used.2 rfl, fun v hv hne => absurd (originSb_used.1 hv) hne, rfl,
      fun v hv hne => absurd (originSb_used.1 hv) hne⟩
  · refine ⟨fun v c => iff_of_false List.not_mem_nil fun hc => ?_, fun _ => List.nodup_nil⟩
    exact hc.1 (originSb_used.1 hc.2.1)
  · refine ⟨fun v hv => ?_, fun v _ => rfl, fun v _ => trivial⟩
    have hv0 : v = 0 := Nat.lt_one_iff.1 hv
    rw [hv0]
    rfl
  · rw [originSb_used.1 hv]
    exact Nat.one_pos
  · exact Nat.le_of_ble_eq_true rfl
  · rw [hflag hv] at h
    cases h
  · rw [hflag hv] at h
    cases h
  · rw [hflag (originSb_used.2 rfl)]
    rfl
  · exact absurd (originSb_used.2 (Nat.lt_one_iff.1 hv)) hnot

/-- Every step keeps the tree and what its caches hold. -/
theorem VersionStep.inv {sb sb' : VersionSb} (h : VersionInv sb) (hstep : VersionStep sb sb') :
    VersionInv sb' := by
  cases hstep with
  | ofOrigin hop => exact snapshotOfOrigin_inv h hop
  | ofSnapshot hop => exact snapshotOfSnapshot_inv h hop
  | write hop => exact snapshotWrite_inv h hop
  | originWrite hop => exact originWrite_inv h hop
  | delete hop => exact snapshotDelete_inv h hop
  | read hop => exact snapshotRead_inv h hop
  | lookup hv hop => exact lookupElement_inv h hv hop
  | same h1 h2 hop => exact sameChunk_inv h h1 h2 hop

theorem versionSystem_inv {sb : VersionSb} (h : versionSystem.Reachable sb) : VersionInv sb := by
  refine h.invariant (fun sb hinit => ?_) fun _ _ => VersionStep.inv
  obtain ⟨-, rfl⟩ := Prod.mk.inj (Except.ok.inj (newVersion_origin.symm.trans hinit))
  exact originSb_inv

/-- The number of steps up to the origin. -/
def depthLoop (sb : VersionSb) : Nat → Nat → Nat
  | 0, _ => 0
  | n + 1, v => if v = 0 then 0 else depthLoop sb n (getParent sb v) + 1

/-- The caches and the depth numbers are what the parents and the child index give, and the
elements are found accordingly. -/
structure CachesRight (sb : VersionSb) : Prop where
  path : ∀ v, Used sb v → (sb.table v).pathmap = true →
    pathLoop sb maxVersions v (fun _ => false) = .ok (sb.pathmap v)
  near : ∀ v, Used sb v → (sb.table v).nearmap = true → sb.nearmap v = nearBits sb v
  depth : ∀ v, Used sb v → sb.ordmap v = depthLoop sb maxVersions v
  lookup : ∀ v, Used sb v → ∃ sb',
    lookupElement sb v = .ok (nearestElement sb maxVersions v, sb')
  same : ∀ v1 v2, Used sb v1 → Used sb v2 → ∃ e1 e2 sb1 sb2 sb',
    lookupElement sb v1 = .ok (e1, sb1) ∧ lookupElement sb v2 = .ok (e2, sb2) ∧
      sameChunk sb v1 v2 = .ok (decide (e1 = e2), sb')

theorem depthLoop_eq {sb : VersionSb} {In : Nat → Prop} {n v : Nat}
    (h : IsTree 0 (getParent sb) In sb.ordmap) (hin : In v) (hn : sb.ordmap v < n) :
    depthLoop sb n v = sb.ordmap v := by
  induction n generalizing v with
  | zero => exact absurd hn (Nat.not_lt_zero _)
  | succ n ih =>
      rw [depthLoop]
      by_cases hv : v = 0
      · rw [if_pos hv, hv, h.depth_root]
      · have hdepth := h.depth_eq v hin hv
        rw [if_neg hv, ih (h.parent_in v hin hv) (by omega), hdepth]

/-- In every state that the operations lead to the caches are right. -/
theorem versionSystem_caches {sb : VersionSb} (h : versionSystem.Reachable sb) :
    CachesRight sb := by
  obtain ⟨kids, hshape, hcached⟩ := (versionSystem_inv h).tree
  refine ⟨fun v hv hflag => ?_, fun v hv hflag => ?_, fun v hv => ?_, fun v hv => ?_,
    fun v1 v2 h1 h2 => ?_⟩
  · obtain ⟨bits, hloop, hbits⟩ := pathLoop_spec hshape.tree hv (hshape.depth_lt hv) fun _ => false
    rw [hloop]
    refine congrArg Except.ok (funext fun i => Bool.eq_iff_iff.2 ?_)
    rw [hbits i, hcached.path v hv hflag i]
    exact ⟨fun hor => hor.resolve_left Bool.false_ne_true, .inr⟩
  · exact funext fun i => Bool.eq_iff_iff.2
      ((hcached.near v hv hflag i).trans (nearBits_spec hshape hv i).symm)
  · exact (depthLoop_eq hshape.tree hv (hshape.depth_lt hv)).symm
  · obtain ⟨sb', hlookup, -⟩ := lookupElement_spec hshape hcached hv
    exact ⟨sb', hlookup⟩
  · obtain ⟨sb1, hlookup1, -⟩ := lookupElement_spec hshape hcached h1
    obtain ⟨sb2, hlookup2, -⟩ := lookupElement_spec hshape hcached h2
    obtain ⟨sb', hsame, -⟩ := sameChunk_spec hshape hcached h1 h2
    exact ⟨_, _, sb1, sb2, sb', hlookup1, hlookup2, hsame⟩

/-- A snapshot, a write to the origin, a snapshot of the snapshot and a comparison. -/
theorem versionSystem_caches_snapshots : ∃ sb, versionSystem.Reachable sb ∧
    Used sb 2 ∧ (sb.table 2).pathmap = true ∧ sb.elements = [⟨1, 0⟩] ∧ CachesRight sb := by
  have hrun : ∃ sb1 sb2 sb3 sb4, snapshotOfOrigin originSb 1001 = .ok sb1 ∧
      originWrite sb1 5 = .ok sb2 ∧ snapshotOfSnapshot sb2 1002 1001 = .ok sb3 ∧
      sameChunk sb3 1 2 = .ok (true, sb4) ∧ Used sb3 1 ∧ Used sb3 2 ∧ Used sb4 2 ∧
      (sb4.table 2).pathmap = true ∧ sb4.elements = [⟨1, 0⟩] :=
    ⟨_, _, _, _, rfl, rfl, rfl, rfl, rfl, rfl, rfl, rfl, rfl⟩
  obtain ⟨sb1, sb2, sb3, sb4, h1, h2, h3, h4, hv1, hv2, hused, hflag, helements⟩ := hrun
  have hreach : versionSystem.Reachable sb4 :=
    .next (.next (.next (.next (.init newVersion_origin) (.ofOrigin h1)) (.originWrite h2))
      (.ofSnapshot h3)) (.same hv1 hv2 h4)
  exact ⟨sb4, hreach, hused, hflag, helements, versionSystem_caches hreach⟩

end Tux3.Versions
