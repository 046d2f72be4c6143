/-
  Version/Delete.lean --- deleting a snapshot.

  The snapshot becomes a ghost.  Its elements are pruned, and it leaves the tree unless it has more
  than one child; so does its parent, where that is a ghost and one child is left.  A version that
  leaves the tree owns nothing, so that the others inherit what they did.
-/
import Tux3.Version.Write

set_option autoImplicit false

namespace Tux3.Versions

open Outcome (bind_of_ok bind_eq_ok)
open ParentTree (IsTree OnPath ListsKids Inherits Heir)

/-- Versions left the tree, and no element or snapshot with them. -/
structure Shrunk (sb sb' : VersionSb) (In In' : Nat → Prop) : Prop where
  sub : ∀ v, In' v → In v
  stay : ∀ v, In v → isGhost sb v = false → In' v
  ghost : ∀ v, isGhost sb' v = isGhost sb v
  tag : ∀ v, (sb'.table v).tag = (sb.table v).tag
  present : ∀ v, isPresent sb' v = isPresent sb v
  has : ∀ v x, In' v → Has sb sb.elements v x → Has sb' sb.elements v x
  elements : sb'.elements = sb.elements
  snapdata : sb'.snapdata = sb.snapdata
  orgdata : sb'.orgdata = sb.orgdata
  allocmap : sb'.allocmap = sb.allocmap
  nextchunk : sb'.nextchunk = sb.nextchunk

section Shrinking

variable {sb sb' sb'' : VersionSb} {In In' In'' : Nat → Prop} {kids : Nat → List Nat}
  {depth : Nat → Nat} {child parent v t : Nat}

theorem Shrunk.refl (sb : VersionSb) (In : Nat → Prop) : Shrunk sb sb In In :=
  ⟨fun _ hv => hv, fun _ hv _ => hv, fun _ => rfl, fun _ => rfl, fun _ => rfl, fun _ _ _ hx => hx,
    rfl, rfl, rfl, rfl, rfl⟩

theorem Shrunk.trans (h : Shrunk sb sb' In In') (h' : Shrunk sb' sb'' In' In'') :
    Shrunk sb sb'' In In'' := by
  refine ⟨fun v hv => h.sub v (h'.sub v hv), fun v hv hg => h'.stay v (h.stay v hv hg)
    ((h.ghost v).trans hg), fun v => (h'.ghost v).trans (h.ghost v),
    fun v => (h'.tag v).trans (h.tag v), fun v => (h'.present v).trans (h.present v),
    fun v x hv hx => ?_, h'.elements.trans h.elements, h'.snapdata.trans h.snapdata,
    h'.orgdata.trans h.orgdata, h'.allocmap.trans h.allocmap, h'.nextchunk.trans h.nextchunk⟩
  have hmid := h.has v x (h'.sub v hv) hx
  rw [← h.elements] at hmid ⊢
  exact h'.has v x hv hmid

/-- `promote_child` leaves the numbers of the children of the other versions alone. -/
theorem promoteChild_childCount (h : promoteChild sb child = .ok sb')
    (hv : v ≠ getParent sb child) : sb'.childCount v = sb.childCount v := by
  obtain ⟨⟨⟩, -, h⟩ := bind_eq_ok.1 h
  obtain ⟨sb1, hremove, h⟩ := bind_eq_ok.1 h
  obtain ⟨sb2, hreplace, h⟩ := bind_eq_ok.1 h
  obtain ⟨sb3, hinv, h⟩ := bind_eq_ok.1 h
  obtain ⟨q, -, hremove⟩ := bind_eq_ok.1 hremove
  obtain ⟨q', -, hreplace⟩ := bind_eq_ok.1 hreplace
  obtain ⟨sb4, hfree, hreplace⟩ := bind_eq_ok.1 hreplace
  obtain ⟨⟨⟩, -, hfree⟩ := bind_eq_ok.1 hfree
  obtain ⟨table, -, hinv⟩ := bind_eq_ok.1 hinv
  obtain ⟨r, -, h⟩ := bind_eq_ok.1 h
  obtain ⟨o, -, h⟩ := bind_eq_ok.1 h
  rw [← Except.ok.inj h, ← Except.ok.inj hinv, ← Except.ok.inj hreplace, ← Except.ok.inj hfree,
    ← Except.ok.inj hremove]
  exact Function.update_of_ne hv _ _

/-- The only child of a ghost that owns nothing takes its place. -/
theorem promoteChild_shrunk (h : Shape sb In kids sb.ordmap) (hc : Cached sb In kids)
    (hin : In child) (hne : child ≠ 0) (hp : getParent sb child = parent) (hpar : parent ≠ 0)
    (hone : (kids parent).length = 1) (hused : ∀ u, In u → Used sb u)
    (hown : chunkOf sb.elements parent = none) (hghost : isGhost sb parent = true) :
    ∃ sb' kids', promoteChild sb child = .ok sb' ∧
      Shape sb' (fun v => In v ∧ v ≠ parent) kids' sb'.ordmap ∧
      Cached sb' (fun v => In v ∧ v ≠ parent) kids' ∧
      (∀ v, v ≠ parent → (kids' v).length = (kids v).length) ∧
      Shrunk sb sb' In (fun v => In v ∧ v ≠ parent) ∧
      (∀ v, Used sb' v ↔ Used sb v ∧ v ≠ parent) ∧ sb'.versionCount = sb.versionCount ∧
      ∀ v, v ≠ parent → sb'.childCount v = sb.childCount v := by
  obtain ⟨sb', hpromote⟩ := promoteChild_ok h hin hne hp hpar hone hused
  have hversions := (promoteChild_versions h hc hin hne hp hpar hpromote).2
  obtain ⟨a, b, a', b', hkidsp, hkidst, hab, hshape, hcached, htable, hrest⟩ :=
    promoteChild_spec h h.tree.depth_root hc hin hne hp rfl hpar hpromote
  have hdepth := h.tree.depth_eq child hin hne
  rw [hp] at hdepth
  have hparent {u : Nat} (hu : u ≠ parent) : getParent sb' u =
      if u = child then getParent sb parent else getParent sb u := by
    unfold getParent
    rw [htable u, promotedVersion_of_ne _ _ _ hu]
    rfl
  refine ⟨sb', _, hpromote, hshape, hcached, fun v hv => ?_, ⟨fun v hv => hv.1, fun v hv hg =>
    ⟨hv, ?_⟩, fun v => (hversions.2 v).2, fun v => ?_, fun v => ?_, fun v x hv hx => ?_, ?_, ?_, ?_,
    ?_, ?_⟩, fun v => (hversions.2 v).1, hversions.1, fun v hv =>
    promoteChild_childCount hpromote (hp.symm ▸ hv)⟩
  · by_cases hvt : v = getParent sb parent
    · have hlen := congrArg List.length hab
      rw [List.length_append, List.length_append] at hlen
      rw [hvt, Function.update_self, hkidst, List.length_append, List.length_append,
        List.length_cons, List.length_cons]
      omega
    · rw [Function.update_of_ne hvt, Function.update_of_ne hv]
  · rintro rfl
    exact Bool.false_ne_true (hg.symm.trans hghost)
  · rw [htable v]
    unfold promotedVersion
    split <;> rfl
  · unfold isPresent
    rw [htable v]
    unfold promotedVersion
    split <;> rfl
  · refine hx.promote h.tree hv.1 hv.2 hown hpar hp (fun u hu hu0 hup => ?_) ?_
      fun u hu _ hup huc => ?_
    · have hkid := (h.lists.mem parent u).2 ⟨hu0, hu, hup⟩
      rw [hkidsp] at hkid
      exact List.mem_singleton.1 hkid
    · rw [hparent, if_pos rfl]
      rintro rfl
      omega
    · rw [hparent hup, if_neg huc]
  all_goals rw [hrest]

/-- A version that is not part of the tree is freed. -/
theorem freeVersion_shrunk (h : Shape sb In kids depth) (hnot : ¬ In t) (hused : Used sb t) :
    ∃ sb', freeVersion sb t = .ok sb' ∧ Shrunk sb sb' In In ∧
      (∀ v, Used sb' v ↔ Used sb v ∧ v ≠ t) ∧ sb'.versionCount = sb.versionCount ∧
      sb'.childCount = sb.childCount := by
  have hother {v : Nat} (hv : v ≠ t) :
      (sb.modify t fun v => { v with parent := 0, used := false }).table v = sb.table v :=
    modify_of_ne sb _ hv
  refine ⟨_, bind_of_ok (tuxAssert_of hused), ⟨fun _ hv => hv, fun _ hv _ => hv, fun v => ?_,
    fun v => ?_, fun v => ?_, fun v x hv hx => ?_, rfl, rfl, rfl, rfl, rfl⟩, fun v => ?_, rfl, rfl⟩
  · unfold isGhost
    dsimp only
    by_cases hv : v = t
    · rw [hv, modify_self]
    · rw [hother hv]
  · dsimp only
    by_cases hv : v = t
    · rw [hv, modify_self]
    · rw [hother hv]
  · unfold isPresent
    dsimp only
    by_cases hv : v = t
    · rw [hv, modify_self]
    · rw [hother hv]
  · refine hx.congr h.tree hv fun u hu _ => ?_
    unfold getParent
    dsimp only
    rw [hother fun heq => hnot (heq ▸ hu)]
  · unfold Used
    dsimp only
    by_cases hv : v = t
    · rw [hv, modify_self]
      exact iff_of_false Bool.false_ne_true fun hand => hand.2 rfl
    · rw [hother hv]
      exact ⟨fun hand => ⟨hand, hv⟩, fun hand => hand.1⟩

end Shrinking

/-! ## The snapshot is a ghost -/

/-- The snapshot `t` is a ghost, and perhaps out of the tree; nothing else has changed. -/
structure Departed (sb sb' : VersionSb) (In : Nat → Prop) (t : Nat) : Prop where
  inside : ∀ v, v ≠ t → (In v ↔ Used sb v)
  ghost : ∀ v, isGhost sb' v = (v = t || isGhost sb v)
  tags : ∀ v, v ≠ t → (sb'.table v).tag = (sb.table v).tag
  has : ∀ v x, In v → Has sb sb.elements v x → Has sb' sb.elements v x
  elements : sb'.elements = sb.elements
  snapdata : sb'.snapdata = sb.snapdata
  orgdata : sb'.orgdata = sb.orgdata

/-- What the deletion of a snapshot comes to. -/
structure Deleted (sb sb' : VersionSb) (value : Nat → Nat) (t : Nat) : Prop where
  inv : SnapshotInv sb'
  values : Values sb' value
  visible : ∀ v, Visible sb' (Used sb') v ↔ Visible sb (Used sb) v ∧ v ≠ t
  tags : ∀ v, v ≠ t → (sb'.table v).tag = (sb.table v).tag

section Departing

variable {sb sb1 sb2 sb' : VersionSb} {In In' : Nat → Prop} {kids : Nat → List Nat}
  {depth : Nat → Nat} {value : Nat → Nat} {t v : Nat}

theorem Departed.visible_iff (hd : Departed sb sb1 In t) :
    Visible sb1 In v ↔ Visible sb (Used sb) v ∧ v ≠ t := by
  unfold Visible
  rw [hd.ghost v]
  by_cases hvt : v = t
  · rw [decide_eq_true hvt, Bool.true_or]
    exact iff_of_false (fun hand => Bool.false_ne_true hand.2.symm) fun hand => hand.2 hvt
  · rw [decide_eq_false hvt, Bool.false_or, hd.inside v hvt]
    exact ⟨fun hand => ⟨hand, hvt⟩, fun hand => hand.1⟩

/-- The ghosts whose elements had the snapshot as an heir have others, or it was the nearest. -/
theorem Departed.heirs (h : SnapshotInv sb) (hd : Departed sb sb1 In t) (ht : Used sb t)
    (ht0 : t ≠ 0) (hpar : In (getParent sb t)) :
    ∀ e ∈ sb1.elements, In e.label → isGhost sb1 e.label = true → e.label ≠ t →
      (∃ u, Visible sb1 In u ∧ Has sb1 sb1.elements u (some e.chunk)) ∨
        chunkOf sb1.elements t = none ∧ Has sb1 sb1.elements (getParent sb t) (some e.chunk) := by
  rw [hd.elements]
  intro e he _ hg hne
  rw [hd.ghost, decide_eq_false hne, Bool.false_or] at hg
  obtain ⟨u, hu, hhas⟩ := h.heirs e he hg
  by_cases hut : u = t
  · rw [hut] at hhas
    cases hhas with
    | own _ hown =>
        exact absurd (h.stored.ok.owner_unique ((chunkOf_eq_some h.stored.ok).2 he) hown) hne
    | up _ hnone hup => exact .inr ⟨hnone, hd.has _ _ hpar hup⟩
  · have hvis := hd.visible_iff.2 ⟨hu, hut⟩
    exact .inl ⟨u, hvis, hd.has u _ hvis.1 hhas⟩

/-- When the elements are pruned and the tree has shrunk, the table is as it should be. -/
theorem Departed.finish {parent : Nat} (h : SnapshotInv sb) (hv : Values sb value)
    (hd : Departed sb sb1 In t) (hp : Pruned sb1 In kids t parent sb2 sb2.elements [])
    (hclear : ∀ v, isPresent sb2 v = false) (hs : Shrunk sb2 sb' In In') (hinv : VersionInv sb')
    (ht0 : t ≠ 0) (hused : ∀ v, Used sb' v ↔ In' v) (howners : ∀ e ∈ sb2.elements, In' e.label)
    (hfresh : ∀ v, sb'.versionCount ≤ v → sb'.childCount v = 0)
    (hforks : ∀ v, Used sb' v → isGhost sb' v = true → 2 ≤ sb'.childCount v) :
    Deleted sb sb' value t := by
  have hghost2 (v : Nat) : isGhost sb2 v = isGhost sb1 v := hp.edit.ghost v
  have hghost (v : Nat) : isGhost sb' v = isGhost sb1 v := (hs.ghost v).trans (hghost2 v)
  have hvisible (v : Nat) : Visible sb' (Used sb') v ↔ Visible sb1 In v := by
    unfold Visible
    rw [hused v, hghost v]
    refine ⟨fun hand => ⟨hs.sub v hand.1, hand.2⟩, fun hand => ⟨hs.stay v hand.1 ?_, hand.2⟩⟩
    rw [hghost2]
    exact hand.2
  have hlist : sb2.elements ++ [] = sb2.elements := List.append_nil _
  have hhas {v : Nat} {x : Option Nat} (hv : In' v) (hx : Has sb1 sb2.elements v x) :
      Has sb' sb'.elements v x := by
    rw [hs.elements]
    refine hs.has v x hv ?_
    unfold Has
    rw [hp.edit.sameTree.getParent_eq]
    exact hx
  have hdata : dataOf sb' = dataOf sb := by
    funext x
    cases x with
    | none => exact hs.orgdata.trans (hp.orgdata.trans hd.orgdata)
    | some c => exact congrFun (hs.snapdata.trans (hp.snapdata.trans hd.snapdata)) c
  refine ⟨⟨hinv, hfresh, ?_, hforks, ⟨?_, fun c => ?_, fun c => ?_, ?_⟩, fun e he => ?_,
    fun v => (hs.present v).trans (hclear v), fun e he hg => ?_⟩, fun v hvis => ?_,
    fun v => (hvisible v).trans hd.visible_iff, fun v hvt => ?_⟩
  · rw [hghost, hd.ghost, decide_eq_false ht0.symm, Bool.false_or]
    exact h.origin
  · rw [hs.elements, ← hlist]
    exact hp.stored.ok
  · rw [hs.allocmap, hs.elements, ← hlist]
    exact hp.stored.alloc c
  · rw [hs.allocmap]
    exact hp.stored.alloc_lt c
  · rw [hs.nextchunk]
    exact hp.stored.next_le
  · rw [hs.elements] at he
    exact ⟨(hp.labels e (hlist.symm ▸ he)).1, (hused _).2 (howners e he)⟩
  · rw [hs.elements] at he
    rw [hghost] at hg
    obtain ⟨u, hu, hx⟩ := hp.heirs e he (hs.sub _ (howners e he)) hg
    rw [hlist] at hx
    have hu' := (hvisible u).2 hu
    exact ⟨u, hu', hhas ((hused u).1 hu'.1) hx⟩
  · have hu := (hvisible v).1 hvis
    obtain ⟨x, hx, hval⟩ := hv v (hd.visible_iff.1 hu).1
    have hx1 := hd.has v x hu.1 hx
    rw [← hd.elements] at hx1
    have hx2 := hp.keeps v x hu hx1
    rw [hlist] at hx2
    exact ⟨x, hhas ((hused v).1 hvis.1) hx2, hdata ▸ hval⟩
  · rw [hs.tag v, hp.edit.table v]
    exact hd.tags v hvt

/-- The snapshot is a ghost that has children: it is part of the tree still. -/
theorem ghostVersion_departed (htree : VersionTree sb kids) (t : Nat) :
    Departed sb (ghostVersion sb t) (Used sb) t := by
  refine ⟨fun _ _ => Iff.rfl, ghostVersion_ghost sb t, fun v hvt => ?_, fun v x hv hx => ?_, rfl,
    rfl, rfl⟩
  · unfold ghostVersion
    rw [modify_of_ne _ _ hvt]
  · refine hx.congr htree.shape.tree hv fun u _ _ => ?_
    rw [(SameTree.ghosted sb t).getParent_eq]

theorem ghostVersion_present (sb : VersionSb) (t v : Nat) :
    isPresent (ghostVersion sb t) v = isPresent sb v := by
  unfold isPresent ghostVersion
  by_cases hvt : v = t
  · rw [hvt, modify_self]
  · rw [modify_of_ne _ _ hvt]

theorem ghostVersion_prunable (h : SnapshotInv sb) (htree : VersionTree sb kids)
    (ht : Visible sb (Used sb) t) (ht0 : t ≠ 0) :
    Prunable (ghostVersion sb t) (Used sb) kids sb.ordmap t (getParent sb t) := by
  have hsame := SameTree.ghosted sb t
  have hpar := htree.shape.tree.parent_in t ht.1 ht0
  have hdepth := htree.shape.tree.depth_eq t ht.1 ht0
  have hpt : getParent sb t ≠ t := by
    intro heq
    rw [heq] at hdepth
    omega
  refine ⟨htree.shape.same hsame.toSameShape, ⟨h.stored.ok, h.stored.alloc, h.stored.alloc_lt,
    h.stored.next_le⟩, fun e he => ⟨(h.labels e he).1, .inl (h.labels e he).2⟩,
    fun v => (ghostVersion_present sb t v).trans (h.clear v), fun _ => rfl, ?_, ?_,
    htree.shape.in_lt t ht.1, hpar, fun hnot => absurd ht.1 hnot, fun s hs => ?_,
    fun s hg hkids => ?_⟩
  · show ((ghostVersion sb t).table 0).ghost = false
    rw [ghostVersion_ghost, decide_eq_false ht0.symm, Bool.false_or]
    exact h.origin
  · show ((ghostVersion sb t).table t).ghost = true
    rw [ghostVersion_ghost, decide_eq_true rfl, Bool.true_or]
  · rintro rfl
    have hkd := htree.shape.kids_depth hs
    omega
  · have hg : ((ghostVersion sb t).table (getParent sb t)).ghost = true := hg
    rw [ghostVersion_ghost, decide_eq_false hpt, Bool.false_or] at hg
    have hforks := h.forks _ hpar hg
    rw [htree.shape.count_eq hpar, hkids] at hforks
    exact absurd hforks (Nat.not_succ_le_self 1)

end Departing

/-! ## The three ways a snapshot goes -/

section Deleting

variable {sb sb' : VersionSb} {kids : Nat → List Nat} {value : Nat → Nat} {t v tag : Nat}

/-- A snapshot with several children stays in the tree as a ghost. -/
theorem deleteGhost_fork (h : SnapshotInv sb) (hv : Values sb value)
    (ht : Visible sb (Used sb) t) (ht0 : t ≠ 0)
    (hinv : ∀ sb', deleteGhost (ghostVersion sb t) t = .ok sb' → VersionInv sb')
    (hcount : 2 ≤ sb.childCount t) :
    ∃ sb', deleteGhost (ghostVersion sb t) t = .ok sb' ∧ Deleted sb sb' value t := by
  obtain ⟨kids, htree⟩ := h.tree
  have hsame := SameTree.ghosted sb t
  have hd := ghostVersion_departed htree t
  obtain ⟨sb2, hdelete, hp, hclear⟩ := deleteElements_spec (ghostVersion_prunable h htree ht ht0)
    (hd.heirs h ht.1 ht0 (htree.shape.tree.parent_in t ht.1 ht0))
  have hop : deleteGhost (ghostVersion sb t) t = .ok sb2 := by
    unfold deleteGhost
    rw [hsame.getParent_eq, hsame.childCount]
    split
    · omega
    · omega
    · exact bind_of_ok hdelete
  have hsame2 := hsame.trans hp.edit.sameTree
  refine ⟨sb2, hop, hd.finish h hv hp hclear (.refl sb2 (Used sb)) (hinv sb2 hop) ht0
    (fun v => by rw [hsame2.used_eq]) (fun e he => ?_) (fun v hvc => ?_) fun v hvu hg => ?_⟩
  · refine ((hp.labels e (by rw [List.append_nil]; exact he)).2).elim id fun heq => ?_
    rw [heq]
    exact ht.1
  · rw [hsame2.versionCount] at hvc
    rw [hsame2.childCount]
    exact h.fresh v hvc
  · rw [hsame2.used_eq] at hvu
    rw [hsame2.childCount]
    by_cases hvt : v = t
    · rw [hvt]
      exact hcount
    · have hg : (sb2.table v).ghost = true := hg
      rw [hp.edit.ghost, ghostVersion_ghost, decide_eq_false hvt, Bool.false_or] at hg
      exact h.forks v hvu hg

/-- A snapshot with one child makes room for it. -/
theorem deleteGhost_single (h : SnapshotInv sb) (hv : Values sb value)
    (ht : Visible sb (Used sb) t) (ht0 : t ≠ 0)
    (hinv : ∀ sb', deleteGhost (ghostVersion sb t) t = .ok sb' → VersionInv sb')
    (hcount : sb.childCount t = 1) :
    ∃ sb', deleteGhost (ghostVersion sb t) t = .ok sb' ∧ Deleted sb sb' value t := by
  obtain ⟨kids, htree⟩ := h.tree
  have hsame := SameTree.ghosted sb t
  have hd := ghostVersion_departed htree t
  obtain ⟨sb2, hdelete, hp, hclear⟩ := deleteElements_spec (ghostVersion_prunable h htree ht ht0)
    (hd.heirs h ht.1 ht0 (htree.shape.tree.parent_in t ht.1 ht0))
  have hlist : sb2.elements ++ [] = sb2.elements := List.append_nil _
  have hsame2 := hsame.trans hp.edit.sameTree
  have htree2 := htree.same hsame2
  have hlen : (kids t).length = 1 := (htree.shape.count_eq ht.1).symm.trans hcount
  obtain ⟨c, hkids⟩ := List.length_eq_one_iff.1 hlen
  have hchild : getChild sb2 t 0 = c := by
    have hread := (htree.shape.same hsame2.toSameShape).read_kids ht.1
    rw [hsame2.childCount, hcount, hkids] at hread
    exact List.singleton_injective hread
  obtain ⟨hc0, hcin, hcp⟩ := (htree2.shape.lists.mem t c).1 (hkids ▸ List.mem_singleton_self c)
  have hown : chunkOf sb2.elements t = none := by
    rw [chunkOf_eq_none, List.mem_map]
    rintro ⟨e, he, heq⟩
    exact hp.target_gone (Nat.le_of_eq hlen) e he heq
  have hghost : isGhost sb2 t = true := by
    show (sb2.table t).ghost = true
    rw [hp.edit.ghost, ghostVersion_ghost, decide_eq_true rfl, Bool.true_or]
  obtain ⟨sb', kids', hpromote, hshape', -, hkids', hs, hused', hvers', hcount'⟩ :=
    promoteChild_shrunk htree2.shape htree2.cached hcin hc0 hcp ht0 hlen (fun _ hu => hu) hown
      hghost
  have hop : deleteGhost (ghostVersion sb t) t = .ok sb' := by
    unfold deleteGhost
    rw [hsame.getParent_eq, hsame.childCount, hcount]
    dsimp only
    rw [bind_of_ok hdelete]
    dsimp only
    rw [hchild]
    exact hpromote
  rw [hsame2.used_eq] at hs
  refine ⟨sb', hop, hd.finish h hv hp hclear hs (hinv sb' hop) ht0 (fun v => ?_) (fun e he => ⟨?_,
    hp.target_gone (Nat.le_of_eq hlen) e he⟩) (fun v hvc => ?_) fun v hvu hg => ?_⟩
  · rw [hused' v, hsame2.used_eq]
  · refine ((hp.labels e (hlist.symm ▸ he)).2).elim id fun heq => ?_
    rw [heq]
    exact ht.1
  · rw [hvers', hsame2.versionCount] at hvc
    have hvt : v ≠ t := by
      rintro rfl
      exact absurd (htree.shape.in_lt v ht.1) (Nat.not_lt_of_le hvc)
    rw [hcount' v hvt, hsame2.childCount]
    exact h.fresh v hvc
  · obtain ⟨hvu2, hvt⟩ := (hused' v).1 hvu
    rw [hcount' v hvt, hsame2.childCount]
    rw [hsame2.used_eq] at hvu2
    rw [hs.ghost] at hg
    have hg : (sb2.table v).ghost = true := hg
    rw [hp.edit.ghost, ghostVersion_ghost, decide_eq_false hvt, Bool.false_or] at hg
    exact h.forks v hvu2 hg

/-- A snapshot without children leaves the tree. -/
theorem unlinked_departed (h : SnapshotInv sb) (htree : VersionTree sb kids)
    (ht : Visible sb (Used sb) t) (ht0 : t ≠ 0) (hnil : kids t = []) :
    ∃ q a b, removeChild (ghostVersion sb t) t =
        .ok (unlinkChild (ghostVersion sb t) (getParent sb t) q) ∧
      kids (getParent sb t) = a ++ t :: b ∧
      Departed sb ((unlinkChild (ghostVersion sb t) (getParent sb t) q).modify t
        fun v => { v with parent := 0 }) (fun v => Used sb v ∧ v ≠ t) t ∧
      Prunable ((unlinkChild (ghostVersion sb t) (getParent sb t) q).modify t
        fun v => { v with parent := 0 }) (fun v => Used sb v ∧ v ≠ t)
        (Function.update kids (getParent sb t) (a ++ b)) sb.ordmap t (getParent sb t) ∧
      Cached ((unlinkChild (ghostVersion sb t) (getParent sb t) q).modify t
        fun v => { v with parent := 0 }) (fun v => Used sb v ∧ v ≠ t)
        (Function.update kids (getParent sb t) (a ++ b)) := by
  have hsame := SameTree.ghosted sb t
  have hpar := htree.shape.tree.parent_in t ht.1 ht0
  have hdepth := htree.shape.tree.depth_eq t ht.1 ht0
  have hpt : getParent sb t ≠ t := by
    intro heq
    rw [heq] at hdepth
    omega
  have hshape0 := htree.shape.same hsame.toSameShape
  obtain ⟨sbr, hremove⟩ := removeChild_ok hshape0 ht.1 ht0
  obtain ⟨a, b, q, hkids, heq, hshaper, hcachedr⟩ := removeChild_leaf hshape0
    (htree.cached.same hsame) ht.1 ht0 hnil hremove
  rw [hsame.getParent_eq] at hkids heq hshaper hcachedr
  subst heq
  obtain ⟨hshape1, hcached1⟩ := modify_outside hshaper hcachedr (fun hin => hin.2 rfl)
    fun v => { v with parent := 0 }
  have hother {v : Nat} (hv : v ≠ t) :
      ((unlinkChild (ghostVersion sb t) (getParent sb t) q).modify t
        fun v => { v with parent := 0 }).table v =
      { sb.table v with
        nearmap := if v = getParent sb t then false else (sb.table v).nearmap } := by
    rw [modify_of_ne _ _ hv, unlinkChild_table]
    unfold ghostVersion
    rw [modify_of_ne _ _ hv]
  have hself : ((unlinkChild (ghostVersion sb t) (getParent sb t) q).modify t
        fun v => { v with parent := 0 }).table t =
      { sb.table t with parent := 0, tag := 0, ghost := true } := by
    rw [modify_self, unlinkChild_table, if_neg hpt.symm]
    unfold ghostVersion
    rw [modify_self]
  have hghost (v : Nat) : isGhost ((unlinkChild (ghostVersion sb t) (getParent sb t) q).modify t
      fun v => { v with parent := 0 }) v = (v = t || isGhost sb v) := by
    unfold isGhost
    by_cases hv : v = t
    · rw [hv, hself, decide_eq_true rfl, Bool.true_or]
    · rw [hother hv, decide_eq_false hv, Bool.false_or]
  refine ⟨q, a, b, hremove, hkids, ⟨fun v hv => ⟨fun hin => hin.1, fun hu => ⟨hu, hv⟩⟩, hghost,
    fun v hv => ?_, fun v x hv hx => ?_, rfl, rfl, rfl⟩, ⟨hshape1, ⟨h.stored.ok, h.stored.alloc,
      h.stored.alloc_lt, h.stored.next_le⟩, fun e he => ?_, fun v => ?_, fun _ => rfl, ?_, ?_,
    htree.shape.in_lt t ht.1, ⟨hpar, hpt⟩, fun _ => ?_, fun s hs => ?_, fun s _ hs => ?_⟩, hcached1⟩
  · rw [hother hv]
  · refine hx.congr (htree.shape.tree.removeLeaf ht0 fun u hu hu0 hup => ?_) hv fun u hu _ => ?_
    · have hkid := (htree.shape.lists.mem t u).2 ⟨hu0, hu, hup⟩
      rw [hnil] at hkid
      exact List.not_mem_nil hkid
    · exact (congrArg Version.parent (hother hu.2)).trans rfl
  · obtain ⟨he0, hused⟩ := h.labels e he
    refine ⟨he0, ?_⟩
    by_cases het : e.label = t
    · exact .inr het
    · exact .inl ⟨hused, het⟩
  · unfold isPresent
    by_cases hv : v = t
    · rw [hv, hself]
      exact h.clear t
    · rw [hother hv]
      exact h.clear v
  · rw [hghost, decide_eq_false ht0.symm, Bool.false_or]
    exact h.origin
  · rw [hghost, decide_eq_true rfl, Bool.true_or]
  · exact (congrArg Version.parent hself).trans rfl
  · rw [hshape1.kids_nil fun hin => hin.2 rfl] at hs
    exact absurd hs List.not_mem_nil
  · exact (hshape1.kids_in (hs ▸ List.mem_singleton_self s)).2

/-- After the leaf its parent may leave the tree, a ghost that has only one child then. -/
theorem promoteAlone_ok {sb2 : VersionSb} {In : Nat → Prop} {p : Nat}
    (hshape : Shape sb2 In kids sb2.ordmap) (hcached : Cached sb2 In kids) (hpin : In p)
    (hp0 : isGhost sb2 p = true → p ≠ 0) (hused : ∀ v, In v → Used sb2 v)
    (hown : isGhost sb2 p = true → (kids p).length ≤ 1 → chunkOf sb2.elements p = none) :
    ∃ sb' kids' In', promoteAlone sb2 (isGhost sb2 p && decide ((kids p).length = 1)) p = .ok sb' ∧
      Shape sb' In' kids' sb'.ordmap ∧ Shrunk sb2 sb' In In' ∧
      (∀ v, In' v ↔ In v ∧ (v = p → ¬ (isGhost sb2 p = true ∧ (kids p).length = 1))) ∧
      (∀ v, ¬ In v → (Used sb' v ↔ Used sb2 v)) ∧ (∀ v, In v → (Used sb' v ↔ In' v)) ∧
      sb'.versionCount = sb2.versionCount ∧ ∀ v, v ≠ p ∨ In' v → sb'.childCount v =
        sb2.childCount v := by
  by_cases halone : isGhost sb2 p = true ∧ (kids p).length = 1
  · obtain ⟨hg, hone⟩ := halone
    obtain ⟨c, hkids⟩ := List.length_eq_one_iff.1 hone
    have hchild : getChild sb2 p 0 = c := by
      have hread := hshape.read_kids hpin
      rw [hshape.count_eq hpin, hone, hkids] at hread
      exact List.singleton_injective hread
    obtain ⟨hc0, hcin, hcp⟩ := (hshape.lists.mem p c).1 (hkids ▸ List.mem_singleton_self c)
    obtain ⟨sb', kids', hpromote, hshape', -, -, hs, hused', hvers, hcount⟩ :=
      promoteChild_shrunk hshape hcached hcin hc0 hcp (hp0 hg) hone hused
        (hown hg (Nat.le_of_eq hone)) hg
    refine ⟨sb', kids', _, ?_, hshape', hs, fun v => and_congr_right fun _ => ?_, fun v hv => ?_,
      fun v hv => ?_, hvers, fun v hv => hcount v (hv.elim id fun hin => hin.2)⟩
    · unfold promoteAlone
      rw [hg, decide_eq_true hone, Bool.and_self, if_pos rfl, hchild]
      exact hpromote
    · exact ⟨fun hne heq => absurd heq hne, fun himp heq => himp heq ⟨hg, hone⟩⟩
    · rw [hused' v]
      exact ⟨fun hand => hand.1, fun hu => ⟨hu, fun heq => hv (heq ▸ hpin)⟩⟩
    · rw [hused' v]
      exact and_congr_left fun _ => iff_of_true (hused v hv) hv
  · refine ⟨sb2, kids, In, ?_, hshape, .refl sb2 In, fun v => ⟨fun hv => ⟨hv, fun _ => halone⟩,
      fun hand => hand.1⟩, fun _ _ => Iff.rfl, fun v hv => iff_of_true (hused v hv) hv, rfl,
      fun _ _ => rfl⟩
    unfold promoteAlone
    rw [if_neg]
    · rfl
    · rw [Bool.and_eq_true, decide_eq_true_iff]
      exact halone

/-- A snapshot without children leaves the tree, and its parent perhaps. -/
theorem deleteGhost_leaf (h : SnapshotInv sb) (hv : Values sb value)
    (ht : Visible sb (Used sb) t) (ht0 : t ≠ 0)
    (hinv : ∀ sb', deleteGhost (ghostVersion sb t) t = .ok sb' → VersionInv sb')
    (hcount : sb.childCount t = 0) :
    ∃ sb', deleteGhost (ghostVersion sb t) t = .ok sb' ∧ Deleted sb sb' value t := by
  obtain ⟨kids, htree⟩ := h.tree
  have hsame := SameTree.ghosted sb t
  have hnil : kids t = [] := by
    rw [htree.shape.count_eq ht.1] at hcount
    exact List.eq_nil_of_length_eq_zero hcount
  have hpar := htree.shape.tree.parent_in t ht.1 ht0
  obtain ⟨q, a, b, hremove, hkids, hd, hprune, hcached⟩ :=
    unlinked_departed h htree ht ht0 hnil
  have hcount1 (v : Nat) (hvp : v ≠ getParent sb t) :
      ((unlinkChild (ghostVersion sb t) (getParent sb t) q).modify t
        fun v => { v with parent := 0 }).childCount v = sb.childCount v :=
    Function.update_of_ne hvp _ _
  have hused1 (v : Nat) : Used ((unlinkChild (ghostVersion sb t) (getParent sb t) q).modify t
      fun v => { v with parent := 0 }) v ↔ Used sb v := by
    unfold Used
    by_cases hvt : v = t
    · rw [hvt, modify_self, unlinkChild_table, (SameTree.ghosted sb t).used]
    · rw [modify_of_ne _ _ hvt, unlinkChild_table, (SameTree.ghosted sb t).used]
  have hvers1 : ((unlinkChild (ghostVersion sb t) (getParent sb t) q).modify t
      fun v => { v with parent := 0 }).versionCount = sb.versionCount := rfl
  have hord1 : ((unlinkChild (ghostVersion sb t) (getParent sb t) q).modify t
      fun v => { v with parent := 0 }).ordmap = sb.ordmap := rfl
  generalize hsb1 : (unlinkChild (ghostVersion sb t) (getParent sb t) q).modify t
    (fun v => { v with parent := 0 }) = sb1 at *
  generalize hp : getParent sb t = p at *
  obtain ⟨sb2, hdelete, hpruned, hclear⟩ := deleteElements_spec hprune
    (hp ▸ hd.heirs h ht.1 ht0 (hp ▸ hprune.parent_in))
  have hsame2 := hpruned.edit.sameTree
  have hghost2 (v : Nat) : isGhost sb2 v = isGhost sb1 v := hpruned.edit.ghost v
  have hlist : sb2.elements ++ [] = sb2.elements := List.append_nil _
  have htgone := hpruned.target_gone (by
    rw [hprune.shape.kids_nil fun hin => hin.2 rfl]
    exact Nat.zero_le 1)
  have hshape2 : Shape sb2 (fun v => Used sb v ∧ v ≠ t)
      (Function.update kids p (a ++ b)) sb2.ordmap := by
    rw [hsame2.ordmap, hord1]
    exact hprune.shape.same hsame2.toSameShape
  obtain ⟨sb3, kids3, In3, hpromote, hshape3, hs3, hin3, hout3, hused3, hvers3, hcount3⟩ :=
    promoteAlone_ok hshape2 (hcached.same hsame2) hprune.parent_in (fun hg heq => by
      rw [hghost2, heq, hprune.origin] at hg
      cases hg) (fun v hv => by
      rw [hsame2.used_eq]
      exact (hused1 v).2 hv.1) fun hg hlen => by
      rw [chunkOf_eq_none, List.mem_map]
      rintro ⟨e, he, heq⟩
      rw [hghost2] at hg
      exact hpruned.parent_gone hg hlen e he heq
  have htout : ¬ (fun v => Used sb v ∧ v ≠ t) t := fun hin => hin.2 rfl
  have htused3 : Used sb3 t := by
    rw [hout3 t htout, hsame2.used_eq]
    exact (hused1 t).2 ht.1
  obtain ⟨sb', hfree, hs', hused', hvers', hcount'⟩ :=
    freeVersion_shrunk hshape3 (fun hin => htout (hs3.sub t hin)) htused3
  have hop : deleteGhost (ghostVersion sb t) t = .ok sb' := by
    unfold deleteGhost deleteLeaf
    rw [hsame.getParent_eq, hsame.childCount, hcount, hp]
    dsimp only
    rw [bind_of_ok hremove, hsb1, bind_of_ok hdelete]
    dsimp only
    rw [← hghost2 p, bind_of_ok hpromote]
    exact hfree
  have hvers : sb'.versionCount = sb.versionCount := by
    rw [hvers', hvers3, hsame2.versionCount, hvers1]
  have hin' (v : Nat) : Used sb' v ↔ In3 v := by
    rw [hused' v]
    by_cases hvt : v = t
    · rw [hvt]
      exact iff_of_false (fun hand => hand.2 rfl) fun hin => htout (hs3.sub t hin)
    · by_cases hvin : Used sb v
      · rw [hused3 v ⟨hvin, hvt⟩]
        exact ⟨fun hand => hand.1, fun hin => ⟨hin, hvt⟩⟩
      · refine iff_of_false (fun hand => hvin ?_) fun hin => hvin (hs3.sub v hin).1
        rw [hout3 v fun hin => hvin hin.1, hsame2.used_eq] at hand
        exact (hused1 v).1 hand.1
  refine ⟨sb', hop, hd.finish h hv hpruned hclear (hs3.trans hs') (hinv sb' hop) ht0 hin'
    (fun e he => ?_) (fun v hvc => ?_) fun v hvu hg => ?_⟩
  · have hin := ((hpruned.labels e (hlist.symm ▸ he)).2).resolve_right (htgone e he)
    refine (hin3 _).2 ⟨hin, fun heq halone => ?_⟩
    rw [hghost2] at halone
    exact hpruned.parent_gone halone.1 (Nat.le_of_eq halone.2) e he heq
  · rw [hvers] at hvc
    have hvp : v ≠ p := by
      rintro rfl
      exact absurd (htree.shape.in_lt v hpar) (Nat.not_lt_of_le hvc)
    rw [hcount', hcount3 v (.inl hvp), hsame2.childCount, hcount1 v hvp]
    exact h.fresh v hvc
  · have hv3 := (hin' v).1 hvu
    obtain ⟨hvin, hnot⟩ := (hin3 v).1 hv3
    rw [hs'.ghost, hs3.ghost, hghost2] at hg
    have hgv : isGhost sb v = true := by
      have hdg := hd.ghost v
      rw [decide_eq_false hvin.2, Bool.false_or] at hdg
      rw [← hdg]
      exact hg
    have hforks := h.forks v hvin.1 hgv
    rw [hcount', hcount3 v (.inr hv3), hsame2.childCount]
    by_cases hvp : v = p
    · subst hvp
      have hlen := hprune.shape.count_eq hvin
      rw [htree.shape.count_eq hvin.1, hkids, List.length_append, List.length_cons] at hforks
      have hne := hnot rfl
      rw [hghost2, Function.update_self] at hne
      rw [hlen, Function.update_self]
      have hsum : (a ++ b).length = a.length + b.length := List.length_append
      have hmany : (a ++ b).length ≠ 1 := fun heq => hne ⟨hg, heq⟩
      omega
    · rw [hcount1 v hvp]
      exact hforks

/-- `snapshot_delete` takes the snapshot away, and nothing else changes. -/
theorem snapshotDelete_ok (h : SnapshotInv sb) (hv : Values sb value)
    (hfind : findTag sb tag = .ok t) :
    ∃ sb', snapshotDelete sb tag = .ok sb' ∧ Deleted sb sb' value t := by
  obtain ⟨ht0, htused, htghost, -⟩ := findTag_spec h.toVersionInv hfind
  have hinv (sb' : VersionSb) (hop : deleteGhost (ghostVersion sb t) t = .ok sb') :
      VersionInv sb' := snapshotDelete_inv h.toVersionInv ((bind_of_ok hfind).trans hop)
  have hdelete : ∃ sb', deleteGhost (ghostVersion sb t) t = .ok sb' ∧ Deleted sb sb' value t := by
    rcases Nat.lt_trichotomy (sb.childCount t) 1 with hlt | heq | hgt
    · exact deleteGhost_leaf h hv ⟨htused, htghost⟩ ht0 hinv (Nat.lt_one_iff.1 hlt)
    · exact deleteGhost_single h hv ⟨htused, htghost⟩ ht0 hinv heq
    · exact deleteGhost_fork h hv ⟨htused, htghost⟩ ht0 hinv hgt
  obtain ⟨sb', hop, hdeleted⟩ := hdelete
  exact ⟨sb', (bind_of_ok hfind).trans hop, hdeleted⟩

end Deleting

end Tux3.Versions
