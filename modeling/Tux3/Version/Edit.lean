/-
  Version/Edit.lean --- edits of the version tree.

  Each edit leaves a tree with its child index; the numbering from the top then makes the depth
  numbers right, and the caches that the edit made wrong have their flags cleared.
-/
import Tux3.Version.Lookup

set_option autoImplicit false

namespace Tux3.Versions

open Outcome (bind_of_ok bind_eq_ok)
open Area (Holds holds_append holds_cons)
open Packed (Packs offset)
open ParentTree (IsTree OnPath ListsKids Below onPath_iff onPath_root onPath_congr)

/-! ## The packed children -/

section Children

variable {sb : VersionSb} {In : Nat → Prop} {kids : Nat → List Nat} {depth : Nat → Nat}
  {children : Nat → Nat} {parent child n p : Nat}

theorem childPosLoop_bounds : p ≤ childPosLoop children child n p ∧
    childPosLoop children child n p ≤ p + n := by
  induction n generalizing p with
  | zero => exact ⟨Nat.le_refl p, Nat.le_refl p⟩
  | succ n ih =>
      rw [childPosLoop]
      split
      · exact ⟨Nat.le_refl p, Nat.le_add_right _ _⟩
      · have hloop := @ih (p + 1)
        omega

/-- All children together are fewer than the versions. -/
theorem Shape.offset_lt (h : Shape sb In kids depth) :
    offset kids sb.versionCount < sb.versionCount := by
  have hpos := h.in_lt 0 h.tree.root_in
  have hnodup : ((List.range sb.versionCount).flatMap kids).Nodup := by
    refine List.nodup_flatMap.2 ⟨fun v _ => h.lists.nodup v, List.nodup_range.imp ?_⟩
    intro v w hne c hc hc'
    exact hne (((h.lists.mem v c).1 hc).2.2.symm.trans ((h.lists.mem w c).1 hc').2.2)
  have hsub : (List.range sb.versionCount).flatMap kids ⊆ List.range' 1 (sb.versionCount - 1) := by
    intro c hc
    obtain ⟨v, -, hcv⟩ := List.mem_flatMap.1 hc
    obtain ⟨hne, hin, -⟩ := (h.lists.mem v c).1 hcv
    have hlt := h.in_lt c hin
    exact List.mem_range'_1.2 ⟨Nat.pos_of_ne_zero hne, by omega⟩
  have hle := (hnodup.subperm hsub).length_le
  rw [List.length_range', ← Packed.offset_eq_length] at hle
  omega

/-- A child is linked: it stands among the children of its parent. -/
theorem linkChild_packs (h : Shape sb In kids depth) (hp : parent < sb.versionCount) :
    ∃ a b, kids parent = a ++ b ∧
      Packs (linkChild sb parent child).children (linkChild sb parent child).childIndex
        (linkChild sb parent child).childCount sb.versionCount
        (Function.update kids parent (a ++ child :: b)) := by
  have hbounds := @childPosLoop_bounds sb.children child (sb.childCount parent)
    (sb.childIndex parent)
  have hstart := h.packs.start_eq parent hp
  have hcount := h.packs.count_eq parent hp
  have hend := Packed.offset_end_le kids hp
  have hlt := h.offset_lt
  have htake : ((kids parent).take (findChildPos sb parent child (sb.childCount parent) -
      sb.childIndex parent)).length =
      findChildPos sb parent child (sb.childCount parent) - sb.childIndex parent := by
    rw [List.length_take]
    unfold findChildPos
    omega
  refine ⟨_, _, (List.take_append_drop (findChildPos sb parent child (sb.childCount parent) -
    sb.childIndex parent) (kids parent)).symm, ?_⟩
  refine h.packs.insert (List.take_append_drop _ _).symm ?_ ?_
  · rw [htake]
    unfold findChildPos
    omega
  · unfold findChildPos
    omega

/-- A child is found among the children of its parent. -/
theorem findChild_spec (h : Packs sb.children sb.childIndex sb.childCount sb.versionCount kids)
    (hp : parent < sb.versionCount) (hfind : findChild sb parent child = .ok p) :
    ∃ a b, kids parent = a ++ child :: b ∧ p = offset kids parent + a.length := by
  unfold findChild at hfind
  cases hfound : (List.range (sb.childCount parent)).find? fun i =>
      getChild sb parent i = child with
  | none =>
      rw [hfound] at hfind
      cases hfind
  | some i =>
      rw [hfound] at hfind
      have hmem := List.mem_range.1 (List.mem_of_find?_eq_some hfound)
      have hchild : getChild sb parent i = child := by
        simpa only [decide_eq_true_eq] using List.find?_some hfound
      rw [h.count_eq parent hp] at hmem
      have hcur : (kids parent)[i] = child := (h.get hp hmem).symm.trans hchild
      refine ⟨(kids parent).take i, (kids parent).drop (i + 1), ?_, ?_⟩
      · rw [← hcur, ← List.drop_eq_getElem_cons hmem, List.take_append_drop]
      · rw [List.length_take, Nat.min_eq_left (Nat.le_of_lt hmem), ← h.start_eq parent hp]
        exact (Except.ok.inj hfind).symm

/-- One child is exchanged for another one. -/
theorem exchangeChild_packs {old : Nat} (new : Nat) {a b : List Nat}
    (h : Packs sb.children sb.childIndex sb.childCount sb.versionCount kids)
    (hp : parent < sb.versionCount) (hkids : kids parent = a ++ old :: b)
    (hpos : p = offset kids parent + a.length) :
    ∃ a' b', a ++ b = a' ++ b' ∧
      Packs (exchangeChild sb parent p new).children sb.childIndex sb.childCount sb.versionCount
        (Function.update kids parent (a' ++ new :: b')) := by
  have hheld := h.holds parent hp
  have hlen : (kids parent).length = a.length + (b.length + 1) := by
    rw [hkids, List.length_append, List.length_cons]
  have hlen' : (a ++ b).length = a.length + b.length := List.length_append
  have hstart := h.start_eq parent hp
  have hcount := h.count_eq parent hp
  rw [hkids, holds_append, holds_cons] at hheld
  -- the other children, without a gap
  have hclosed : Holds (Area.copy sb.children p sb.children (p + 1)
      (sb.childIndex parent + sb.childCount parent - p - 1)) (offset kids parent) (a ++ b) := by
    rw [holds_append]
    exact ⟨hheld.1.copy_outside (.inl (by omega)),
      hheld.2.2.copied (by omega) (by omega) (by omega)⟩
  obtain ⟨q, hq⟩ : ∃ q, q = childPosLoop (Area.copy sb.children p sb.children (p + 1)
      (sb.childIndex parent + sb.childCount parent - p - 1)) new (sb.childCount parent - 1)
      (sb.childIndex parent) := ⟨_, rfl⟩
  have hbounds := @childPosLoop_bounds (Area.copy sb.children p sb.children (p + 1)
      (sb.childIndex parent + sb.childCount parent - p - 1)) new (sb.childCount parent - 1)
      (sb.childIndex parent)
  rw [← hq] at hbounds
  have htake : ((a ++ b).take (q - offset kids parent)).length = q - offset kids parent := by
    rw [List.length_take]
    omega
  have hdrop : ((a ++ b).drop (q - offset kids parent)).length =
      a.length + b.length - (q - offset kids parent) := by
    rw [List.length_drop, hlen']
  refine ⟨_, _, (List.take_append_drop (q - offset kids parent) (a ++ b)).symm, ?_⟩
  rw [← List.take_append_drop (q - offset kids parent) (a ++ b), holds_append] at hclosed
  refine h.replace ?_ (fun k hk => ?_) ?_
  · rw [List.length_append, List.length_cons, htake, hdrop]
    omega
  · show Function.update _ _ _ _ = _
    dsimp only [findChildPos]
    rw [← hq, Function.update_of_ne (by omega), Area.copy, if_neg (by omega), Area.copy,
      if_neg (by omega)]
  · show Holds (Function.update _ _ _) _ _
    dsimp only [findChildPos]
    rw [← hq, holds_append, holds_cons]
    refine ⟨?_, ?_, ?_⟩
    · exact (hclosed.1.copy_outside (.inl (by omega))).update_outside (.inr (by omega))
    · rw [htake, show offset kids parent + (q - offset kids parent) = q by omega]
      exact Function.update_self _ _ _
    · refine Holds.update_outside ?_ (.inl (by omega))
      exact hclosed.2.copied (by omega) (by omega) (by omega)

theorem unlinkChild_packs (h : Shape sb In kids depth) (hp : parent < sb.versionCount)
    {a b : List Nat} (hkids : kids parent = a ++ child :: b)
    (hpos : p = offset kids parent + a.length) :
    Packs (unlinkChild sb parent p).children (unlinkChild sb parent p).childIndex
      (unlinkChild sb parent p).childCount sb.versionCount
      (Function.update kids parent (a ++ b)) := by
  have hend := Packed.offset_end_le kids hp
  have hlt := h.offset_lt
  rw [hkids, List.length_append, List.length_cons] at hend
  exact h.packs.erase hkids hpos (by omega)

end Children

/-! ## A new version -/

/-- A version was made that is not yet part of the tree. -/
structure Made (sb sb' : VersionSb) (parent tag child : Nat) : Prop where
  ne_zero : child ≠ 0
  unused : ¬ Used sb child
  lt : child < sb'.versionCount
  count_le : sb.versionCount ≤ sb'.versionCount
  others_lt : ∀ v, v < sb'.versionCount → v ≠ child → v < sb.versionCount
  rest : sb' = { sb with
    table := Function.update sb.table child { zeroVersion with parent, tag, used := true }
    childIndex := sb'.childIndex
    versionCount := sb'.versionCount
    activeCount := sb'.activeCount }

section Making

variable {sb sb' : VersionSb} {kids : Nat → List Nat} {parent tag child v : Nat}

theorem Made.table_of_ne (h : Made sb sb' parent tag child) (hv : v ≠ child) :
    sb'.table v = sb.table v := by
  rw [h.rest]
  exact Function.update_of_ne hv _ _

theorem Made.table_child (h : Made sb sb' parent tag child) :
    sb'.table child = { zeroVersion with parent, tag, used := true } := by
  rw [h.rest]
  exact Function.update_self _ _ _

theorem Made.used_ne (h : Made sb sb' parent tag child) (hv : Used sb v) : v ≠ child :=
  fun heq => h.unused (heq ▸ hv)

theorem Made.used_iff (h : Made sb sb' parent tag child) :
    Used sb' v ↔ Used sb v ∨ v = child := by
  by_cases hv : v = child
  · unfold Used
    rw [hv, h.table_child]
    exact ⟨fun _ => .inr rfl, fun _ => rfl⟩
  · unfold Used
    rw [h.table_of_ne hv]
    exact ⟨.inl, fun hor => hor.resolve_right hv⟩

theorem Made.getParent_of_ne (h : Made sb sb' parent tag child) (hv : v ≠ child) :
    getParent sb' v = getParent sb v := congrArg Version.parent (h.table_of_ne hv)

/-- A path of the tree does not meet the new version. -/
theorem Made.onPath_iff (h : Made sb sb' parent tag child) (ht : VersionTree sb kids)
    (hv : Used sb v) (i : Nat) :
    OnPath 0 (getParent sb') v i ↔ OnPath 0 (getParent sb) v i :=
  onPath_congr fun _ hu => h.getParent_of_ne (h.used_ne (ht.shape.tree.onPath_in hv hu))

/-- The loop of `new_version` finds a version that is not in use. -/
theorem unusedVersion_spec (h : unusedVersion sb = some v) :
    v ≠ 0 ∧ v < sb.versionCount ∧ ¬ Used sb v := by
  have hmem := List.mem_range'_1.1 (List.mem_of_find?_eq_some h)
  have hfound := List.find?_some h
  refine ⟨by omega, by omega, fun hused => ?_⟩
  unfold Used at hused
  rw [hused] at hfound
  cases hfound

/-- `new_version`. -/
theorem newVersion_spec (h : VersionTree sb kids)
    (hnew : newVersion sb parent tag = .ok (child, sb')) :
    Made sb sb' parent tag child ∧ Shape sb' (Used sb) kids sb'.ordmap ∧
      Cached sb' (Used sb) kids := by
  obtain ⟨⟨version, sb1⟩, hpick, hnew⟩ := bind_eq_ok.1 hnew
  obtain ⟨⟨⟩, hempty, hnew⟩ := bind_eq_ok.1 hnew
  have hempty := tuxAssert_eq_ok.1 hempty
  obtain ⟨rfl, rfl⟩ := Prod.mk.inj (Except.ok.inj hnew)
  dsimp only [VersionSb.modify] at hempty ⊢
  have hpos := h.shape.in_lt 0 h.shape.tree.root_in
  -- what is made of the table before the version is written
  have hgrown : version ≠ 0 ∧ ¬ Used sb version ∧ version < sb1.versionCount ∧
      sb.versionCount ≤ sb1.versionCount ∧
      (∀ v, v < sb1.versionCount → v ≠ version → v < sb.versionCount) ∧
      sb1.versionCount ≤ maxVersions ∧
      sb1 = { sb with childIndex := sb1.childIndex, versionCount := sb1.versionCount } ∧
      Packs sb1.children sb1.childIndex sb1.childCount sb1.versionCount kids := by
    unfold pickVersion at hpick
    cases hunused : unusedVersion sb with
    | some u =>
        rw [hunused] at hpick
        obtain ⟨rfl, rfl⟩ := Prod.mk.inj (Except.ok.inj hpick)
        obtain ⟨hne, hlt, hnot⟩ := unusedVersion_spec hunused
        exact ⟨hne, hnot, hlt, Nat.le_refl _, fun _ hv _ => hv, h.shape.count_le, rfl,
          h.shape.packs⟩
    | none =>
        rw [hunused] at hpick
        obtain ⟨sb2, hgrow, hpick⟩ := bind_eq_ok.1 hpick
        obtain ⟨rfl, rfl⟩ := Prod.mk.inj (Except.ok.inj hpick)
        unfold growTable at hgrow
        split at hgrow
        · next hroom =>
            obtain rfl := Except.ok.inj hgrow
            have hnot : ¬ Used sb sb.versionCount := fun hused =>
              Nat.lt_irrefl _ (h.shape.in_lt _ hused)
            refine ⟨Nat.ne_of_gt hpos, hnot, Nat.lt_succ_self _, Nat.le_succ _,
              fun v hv hne => Nat.lt_of_le_of_ne (Nat.le_of_lt_succ hv) hne, hroom, rfl, ?_⟩
            refine h.shape.packs.extend (fun v hv => Function.update_of_ne (Nat.ne_of_lt hv) _ _)
              (h.shape.kids_nil hnot) ?_ hempty
            have hlast : sb.versionCount - 1 < sb.versionCount := Nat.sub_lt hpos Nat.one_pos
            have hend := Packed.offset_succ kids (sb.versionCount - 1)
            rw [Nat.sub_add_cancel hpos] at hend
            dsimp only
            rw [Function.update_self, if_neg (Nat.ne_of_gt hpos),
              h.shape.packs.start_eq _ hlast, h.shape.packs.count_eq _ hlast, hend]
        · cases hgrow
  obtain ⟨hne, hnot, hlt, hle, hothers, hmax, hsb1, hpacks⟩ := hgrown
  have htable : sb1.table = sb.table := by rw [hsb1]
  have hmade : Made sb
      { sb1 with
        table := Function.update sb1.table version { zeroVersion with parent, tag, used := true }
        activeCount := sb1.activeCount + 1 } parent tag version := by
    refine ⟨hne, hnot, hlt, hle, hothers, ?_⟩
    rw [hsb1]
  have hparent {u : Nat} (hu : Used sb u) := hmade.getParent_of_ne (hmade.used_ne hu)
  refine ⟨hmade, ⟨?_, ?_, hpacks, fun v hv => Nat.lt_of_lt_of_le (h.shape.in_lt v hv) hle, hmax,
    h.shape.one⟩, ⟨fun v hv hflag i => ?_, fun v hv hflag i => ?_, ?_⟩⟩
  · refine h.shape.tree.congr (fun _ => Iff.rfl) (fun v hv _ => hparent hv) fun v hv => ?_
    rw [hsb1]
  · refine h.shape.lists.congr (fun v c => ?_) fun _ => .inl rfl
    rw [h.shape.lists.mem]
    exact and_congr_right fun _ => and_congr_right fun hc => by rw [hparent hc]
  · rw [hmade.onPath_iff h hv]
    rw [hmade.table_of_ne (hmade.used_ne hv)] at hflag
    rw [hsb1]
    exact h.cached.path v hv hflag i
  · rw [hmade.table_of_ne (hmade.used_ne hv)] at hflag
    rw [hsb1]
    exact h.cached.near v hv hflag i
  · rw [hmade.table_of_ne hne.symm]
    exact h.cached.origin

end Making

/-! ## Linking a child -/

section Linking

variable {sb sb' : VersionSb} {In : Nat → Prop} {kids : Nat → List Nat} {depth : Nat → Nat}
  {parent child v : Nat}

theorem linkChild_table (sb : VersionSb) (parent child v : Nat) :
    (linkChild sb parent child).table v = { sb.table v with
      parent := if v = child then parent else (sb.table v).parent
      nearmap := if v = parent then false else (sb.table v).nearmap } := by
  dsimp only [linkChild, VersionSb.modify]
  by_cases hc : v = child
  · by_cases hp : v = parent
    · subst hc hp
      rw [Function.update_self, Function.update_self, if_pos rfl, if_pos rfl]
    · subst hc
      rw [Function.update_of_ne hp, Function.update_self, if_pos rfl, if_neg hp]
  · by_cases hp : v = parent
    · subst hp
      rw [Function.update_self, Function.update_of_ne hc, if_neg hc, if_pos rfl]
    · rw [Function.update_of_ne hp, Function.update_of_ne hc, if_neg hc, if_neg hp]

theorem linkChild_getParent (sb : VersionSb) (parent child : Nat) :
    getParent (linkChild sb parent child) = Function.update (getParent sb) child parent := by
  funext v
  unfold getParent
  rw [linkChild_table]
  by_cases hv : v = child
  · rw [hv, Function.update_self]
    exact if_pos rfl
  · rw [Function.update_of_ne hv]
    exact if_neg hv

/-- A version is linked below a version of the tree. -/
theorem linkChild_leaf (h : Shape sb In kids sb.ordmap) (hc : Cached sb In kids)
    (hp : In parent) (hnot : ¬ In child) (hne : child ≠ 0) (hlt : child < sb.versionCount)
    (htop : parent = 0 → kids 0 = []) (hpath : (sb.table child).pathmap = false)
    (hnear : (sb.table child).nearmap = false) :
    ∃ a b, kids parent = a ++ b ∧
      Shape (linkChild sb parent child) (fun v => In v ∨ v = child)
        (Function.update kids parent (a ++ child :: b))
        (Function.update sb.ordmap child (sb.ordmap parent + 1)) ∧
      Cached (linkChild sb parent child) (fun v => In v ∨ v = child)
        (Function.update kids parent (a ++ child :: b)) := by
  obtain ⟨a, b, hkids, hpacks⟩ := @linkChild_packs sb In kids sb.ordmap parent child h
    (h.in_lt parent hp)
  have hne_in {v : Nat} (hv : In v) : v ≠ child := fun heq => hnot (heq ▸ hv)
  have hparent := linkChild_getParent sb parent child
  have hpc : child ≠ parent := (hne_in hp).symm
  have hshape : Shape (linkChild sb parent child) (fun v => In v ∨ v = child)
      (Function.update kids parent (a ++ child :: b))
      (Function.update sb.ordmap child (sb.ordmap parent + 1)) := by
    refine ⟨?_, ⟨fun v c => ?_, fun v => ?_⟩, hpacks, ?_, h.count_le, ?_⟩
    · rw [hparent]
      exact h.tree.addLeaf hp hnot
    · rw [hparent]
      have hmem := h.lists.mem v c
      by_cases hcc : c = child
      · rw [hcc, Function.update_self]
        have hout : child ∉ kids v := fun hin => hnot (h.kids_in hin)
        by_cases hv : v = parent
        · rw [hv, Function.update_self]
          exact ⟨fun _ => ⟨hne, .inr rfl, rfl⟩,
            fun _ => List.mem_append_right _ List.mem_cons_self⟩
        · rw [Function.update_of_ne hv]
          exact ⟨fun hin => absurd hin hout, fun hin => absurd hin.2.2.symm hv⟩
      · have hsame : c ∈ Function.update kids parent (a ++ child :: b) v ↔ c ∈ kids v := by
          by_cases hv : v = parent
          · rw [hv, Function.update_self, hkids, List.mem_append, List.mem_append,
              List.mem_cons]
            exact or_congr_right ⟨fun hor => hor.resolve_left hcc, .inr⟩
          · rw [Function.update_of_ne hv]
        rw [hsame, hmem, Function.update_of_ne hcc]
        exact and_congr_right fun _ => and_congr_left fun _ =>
          ⟨.inl, fun hor => hor.resolve_right hcc⟩
    · by_cases hv : v = parent
      · have hnodup := h.lists.nodup parent
        have hout : child ∉ a ++ b := fun hin => hnot (h.kids_in (v := parent) (hkids ▸ hin))
        rw [hkids] at hnodup
        rw [hv, Function.update_self]
        exact List.nodup_middle.2 (List.nodup_cons.2 ⟨hout, hnodup⟩)
      · rw [Function.update_of_ne hv]
        exact h.lists.nodup v
    · rintro v (hv | rfl)
      · exact h.in_lt v hv
      · exact hlt
    · by_cases h0 : 0 = parent
      · have hnil := htop h0.symm
        rw [h0] at hnil
        rw [hnil] at hkids
        obtain ⟨rfl, rfl⟩ := List.append_eq_nil_iff.1 hkids.symm
        rw [h0, Function.update_self]
        exact Nat.le_refl 1
      · rw [Function.update_of_ne h0]
        exact h.one
  have hcached : Cached (linkChild sb parent child) (fun v => In v ∨ v = child)
      (Function.update kids parent (a ++ child :: b)) := by
    refine ⟨?_, ?_, ?_⟩
    · rintro v (hv | rfl) hflag i
      · rw [linkChild_table] at hflag
        rw [hparent]
        refine (hc.path v hv hflag i).trans (onPath_congr fun u hu => ?_).symm
        exact Function.update_of_ne (hne_in (h.tree.onPath_in hv hu)) _ _
      · rw [linkChild_table] at hflag
        rw [hpath] at hflag
        cases hflag
    · rintro v (hv | rfl) hflag i
      · rw [linkChild_table] at hflag
        by_cases hvp : v = parent
        · rw [if_pos hvp] at hflag
          cases hflag
        · rw [if_neg hvp] at hflag
          rw [Function.update_of_ne hvp]
          exact hc.near v hv hflag i
      · rw [linkChild_table, if_neg hpc] at hflag
        rw [hnear] at hflag
        cases hflag
    · rw [linkChild_table]
      by_cases h0 : 0 = parent
      · exact if_pos h0
      · exact (if_neg h0).trans hc.origin
  exact ⟨a, b, hkids, hshape, hcached⟩

/-- `insert_child` below a version of the tree. -/
theorem insertChild_leaf (h : Shape sb In kids sb.ordmap) (hc : Cached sb In kids)
    (hp : In parent) (hnot : ¬ In child) (hne : child ≠ 0) (hlt : child < sb.versionCount)
    (htop : parent = 0 → kids 0 = []) (hpath : (sb.table child).pathmap = false)
    (hnear : (sb.table child).nearmap = false)
    (hinsert : insertChild sb parent child = .ok sb') :
    ∃ a b o, kids parent = a ++ b ∧ sb' = { linkChild sb parent child with ordmap := o } ∧
      Shape sb' (fun v => In v ∨ v = child) (Function.update kids parent (a ++ child :: b))
        sb'.ordmap ∧
      Cached sb' (fun v => In v ∨ v = child)
        (Function.update kids parent (a ++ child :: b)) := by
  obtain ⟨a, b, hkids, hshape, hcached⟩ := linkChild_leaf h hc hp hnot hne hlt htop hpath hnear
  obtain ⟨o, rfl, ho⟩ := orderRoot_spec hshape h.tree.depth_root hinsert
  exact ⟨a, b, o, hkids, rfl, hshape.setOrd ho, ⟨hcached.path, hcached.near, hcached.origin⟩⟩

/-- A version that is not part of the tree yet is about to be put above the only child of the
origin. -/
structure Above (sb : VersionSb) (In : Nat → Prop) (kids : Nat → List Nat) (root old : Nat) :
    Prop where
  shape : Shape sb In kids sb.ordmap
  out : ¬ In root
  lt : root < sb.versionCount
  only : kids 0 = [old]
  parent : getParent sb root = 0

section Tops

variable {root old : Nat}

theorem Above.ne (h : Above sb In kids root old) (hv : In v) : v ≠ root := fun heq =>
  h.out (heq ▸ hv)

theorem Above.old_spec (h : Above sb In kids root old) : old ≠ 0 ∧ In old ∧ getParent sb old = 0 :=
  (h.shape.lists.mem 0 old).1 (h.only ▸ List.mem_singleton_self old)

theorem Above.getChild_eq (h : Above sb In kids root old) : getChild sb 0 0 = old := by
  have hget := h.shape.packs.get (h.shape.in_lt 0 h.shape.tree.root_in) (i := 0)
    (by rw [h.only]; exact Nat.one_pos)
  simp only [h.only, List.getElem_cons_zero] at hget
  exact hget

theorem Above.packs (h : Above sb In kids root old) :
    Packs (linkChild sb root old).children (linkChild sb root old).childIndex
      (linkChild sb root old).childCount sb.versionCount (Function.update kids root [old]) := by
  obtain ⟨a, b, hkids, hpacks⟩ := @linkChild_packs sb In kids sb.ordmap root old h.shape h.lt
  rw [h.shape.kids_nil h.out] at hkids
  obtain ⟨rfl, rfl⟩ := List.append_eq_nil_iff.1 hkids.symm
  exact hpacks

/-- What the first numbering, which begins below the new version, sees of the tree. -/
theorem Above.reads (h : Above sb In kids root old) :
    Reads (linkChild sb root old) (fun v => In v ∨ v = root) (Function.update kids root [old])
      (Function.update sb.ordmap root 0) ∧ Function.update sb.ordmap root 0 old = 1 ∧
      ∀ v c, c ∈ Function.update kids root [old] v → In c ∧ c ≠ 0 := by
  obtain ⟨hold0, holdin, holdpar⟩ := h.old_spec
  have hdepth := h.shape.tree.depth_eq old holdin hold0
  rw [holdpar, h.shape.tree.depth_root] at hdepth
  have hmem (v c : Nat) (hcv : c ∈ Function.update kids root [old] v) : In c ∧ c ≠ 0 := by
    by_cases hv : v = root
    · rw [hv, Function.update_self, List.mem_singleton] at hcv
      exact hcv ▸ ⟨holdin, hold0⟩
    · rw [Function.update_of_ne hv] at hcv
      exact ⟨h.shape.kids_in hcv, ((h.shape.lists.mem v c).1 hcv).1⟩
  refine ⟨⟨fun v hv => ?_, fun v c hcv => .inl (hmem v c hcv).1, fun v c hcv => ?_⟩, ?_, hmem⟩
  · exact h.packs.read (hv.elim (h.shape.in_lt v) fun heq => heq ▸ h.lt)
  · rw [Function.update_of_ne (h.ne (hmem v c hcv).1)]
    by_cases hv : v = root
    · rw [hv, Function.update_self, List.mem_singleton] at hcv
      rw [hv, Function.update_self, hcv, hdepth]
    · rw [Function.update_of_ne hv] at hcv ⊢
      exact h.shape.kids_depth hcv
  · rw [Function.update_of_ne (h.ne holdin), hdepth]

theorem Above.getRoot_link (h : Above sb In kids root old) :
    getRoot (linkChild sb root old) = .ok old := by
  have h0 := h.shape.in_lt 0 h.shape.tree.root_in
  have hzero : Function.update kids root [old] 0 = [old] := by
    rw [Function.update_of_ne (h.ne h.shape.tree.root_in), h.only]
  have hcount := h.packs.count_eq 0 h0
  have hget := h.packs.get h0 (i := 0) (by rw [hzero]; exact Nat.one_pos)
  rw [hzero] at hcount
  simp only [hzero, List.getElem_cons_zero] at hget
  rw [h.packs.start_eq 0 h0] at hget
  unfold getRoot
  rw [bind_of_ok (tuxAssert_of (by rw [hcount]; exact Nat.one_ne_zero))]
  exact congrArg Except.ok hget

/-- The first numbering leaves the origin alone. -/
theorem Above.numbered (h : Above sb In kids root old)
    (hinsert : insertChild sb root old = .ok sb') :
    ∃ o, sb' = { linkChild sb root old with ordmap := o } ∧ o 0 = 0 := by
  obtain ⟨hreads, hdepth, hmem⟩ := h.reads
  obtain ⟨hold0, holdin, -⟩ := h.old_spec
  obtain ⟨r, hr, horder⟩ := bind_eq_ok.1 hinsert
  obtain ⟨o, ho, heq⟩ := bind_eq_ok.1 horder
  rw [← Except.ok.inj (h.getRoot_link.symm.trans hr), ← hdepth] at ho
  refine ⟨o, (Except.ok.inj heq).symm, ?_⟩
  rw [((orderTree_spec hreads (.inl holdin) ho 0).2 fun hbelow => ?_)]
  · exact h.shape.tree.depth_root
  · rcases hbelow.eq_or_mem with heq | ⟨w, hw⟩
    · exact hold0 heq.symm
    · exact (hmem w 0 hw).2 rfl

/-- The new version takes the place of the old one below the origin. -/
theorem Above.linked (h : Above sb In kids root old) (o : Nat → Nat) :
    Shape { linkChild sb root old with
        ordmap := o
        children := Function.update (linkChild sb root old).children 0 root }
      (fun v => In v ∨ v = root) (Function.update (Function.update kids root [old]) 0 [root])
      (fun v => if v = 0 then 0 else if v = root then 1 else sb.ordmap v + 1) := by
  obtain ⟨hold0, holdin, holdpar⟩ := h.old_spec
  have hrne : root ≠ 0 := (h.ne h.shape.tree.root_in).symm
  have hparent := linkChild_getParent sb root old
  have hkids_root : Function.update (Function.update kids root [old]) 0 [root] root = [old] := by
    rw [Function.update_of_ne hrne, Function.update_self]
  have hkids_ne {v : Nat} (hv0 : v ≠ 0) (hvr : v ≠ root) :
      Function.update (Function.update kids root [old]) 0 [root] v = kids v := by
    rw [Function.update_of_ne hv0, Function.update_of_ne hvr]
  have htop := h.shape.tree.addTop h.out holdin fun v hv hv0 => by
    have hmem0 := h.shape.lists.mem 0 v
    rw [h.only, List.mem_singleton] at hmem0
    exact ⟨fun heq => hmem0.2 ⟨hv0, hv, heq⟩, fun heq => (hmem0.1 heq).2.2⟩
  have hupd : Function.update (getParent sb) root 0 = getParent sb :=
    Function.update_eq_self_iff.2 h.parent.symm
  rw [hupd] at htop
  refine ⟨?_, ⟨fun v c => ?_, fun v => ?_⟩, ?_, ?_, h.shape.count_le, ?_⟩
  · exact hparent ▸ htop
  · show _ ↔ c ≠ 0 ∧ (In c ∨ c = root) ∧ getParent (linkChild sb root old) c = v
    rw [hparent]
    have hmemv := h.shape.lists.mem v c
    by_cases hco : c = old
    · rw [hco, Function.update_self]
      by_cases hvr : v = root
      · rw [hvr, hkids_root]
        exact ⟨fun _ => ⟨hold0, .inl holdin, rfl⟩, fun _ => List.mem_singleton_self old⟩
      · refine ⟨fun hin => ?_, fun hin => absurd hin.2.2.symm hvr⟩
        by_cases hv0 : v = 0
        · rw [hv0, Function.update_self, List.mem_singleton] at hin
          exact absurd hin (h.ne holdin)
        · rw [hkids_ne hv0 hvr] at hin
          exact absurd (((h.shape.lists.mem v old).1 hin).2.2.symm.trans holdpar) hv0
    · rw [Function.update_of_ne hco]
      by_cases hv0 : v = 0
      · rw [hv0, Function.update_self, List.mem_singleton]
        refine ⟨fun heq => by rw [heq]; exact ⟨hrne, .inr rfl, h.parent⟩, fun hin => ?_⟩
        refine hin.2.1.resolve_left fun hc => hco ?_
        have hin0 := (h.shape.lists.mem 0 c).2 ⟨hin.1, hc, hin.2.2⟩
        rw [h.only] at hin0
        exact List.mem_singleton.1 hin0
      · by_cases hvr : v = root
        · rw [hvr, hkids_root, List.mem_singleton]
          refine ⟨fun heq => absurd heq hco, fun hin => ?_⟩
          rcases hin.2.1 with hc | rfl
          · exact absurd (hin.2.2 ▸ h.shape.tree.parent_in c hc hin.1) h.out
          · exact absurd (hin.2.2.symm.trans h.parent) hrne
        · rw [hkids_ne hv0 hvr, hmemv]
          refine and_congr_right fun hc0 => and_congr_left fun hcv => ?_
          refine ⟨.inl, fun hor => hor.resolve_right fun hcr => ?_⟩
          rw [hcr, h.parent] at hcv
          exact hv0 hcv.symm
  · by_cases hv0 : v = 0
    · rw [hv0, Function.update_self]
      exact List.nodup_singleton _
    · by_cases hvr : v = root
      · rw [hvr, hkids_root]
        exact List.nodup_singleton _
      · rw [hkids_ne hv0 hvr]
        exact h.shape.lists.nodup v
  · have hzero : Function.update kids root [old] 0 = [old] := by
      rw [Function.update_of_ne hrne.symm, h.only]
    have hfirst : Function.update (linkChild sb root old).children 0 root 0 = root :=
      Function.update_self _ _ _
    refine h.packs.replace ?_ (fun k hk => ?_) ⟨hfirst, trivial⟩
    · rw [hzero]
      rfl
    · rw [hzero] at hk
      refine Function.update_of_ne (fun hk0 => ?_) _ _
      rw [hk0] at hk
      exact hk.elim (fun hlt => absurd hlt (Nat.not_lt_zero _))
        fun hle => absurd hle (Nat.not_succ_le_zero 0)
  · rintro v (hv | rfl)
    · exact h.shape.in_lt v hv
    · exact h.lt
  · rw [Function.update_self]
    exact Nat.le_refl 1

end Tops

/-- A version is put above the whole tree.  Its first numbering begins below it. -/
theorem insertChild_top {sb2 sb3 : VersionSb} {root old : Nat} (h : Above sb In kids root old)
    (hc : Cached sb In kids) (hinsert : insertChild sb root old = .ok sb2)
    (hinv : invalidateBelow { sb2 with children := Function.update sb2.children 0 root } root =
      .ok sb3) (horder : orderRoot sb3 = .ok sb') :
    (∃ children table o, sb' = { linkChild sb root old with children, table, ordmap := o } ∧
      ∀ v, table v = { (linkChild sb root old).table v with pathmap := (table v).pathmap }) ∧
      Shape sb' (fun v => In v ∨ v = root)
        (Function.update (Function.update kids root [old]) 0 [root]) sb'.ordmap ∧
      Cached sb' (fun v => In v ∨ v = root)
        (Function.update (Function.update kids root [old]) 0 [root]) := by
  have h0 := h.shape.tree.root_in
  have hrne : root ≠ 0 := (h.ne h0).symm
  have hkids_ne {v : Nat} (hv0 : v ≠ 0) (hvr : v ≠ root) :
      Function.update (Function.update kids root [old]) 0 [root] v = kids v := by
    rw [Function.update_of_ne hv0, Function.update_of_ne hvr]
  obtain ⟨o2, rfl, ho20⟩ := h.numbered hinsert
  have hshape := h.linked o2
  have hroot_in : (fun v => In v ∨ v = root) root := .inr rfl
  obtain ⟨table, rfl, hsame, hrest, htable⟩ := invalidateBelow_spec hshape.reads hroot_in hinv
  have hbelow {v : Nat} (hv : In v ∨ v = root) (hv0 : v ≠ 0) :
      Below (Function.update (Function.update kids root [old]) 0 [root]) root v :=
    (ParentTree.below_top_iff hshape.tree hshape.lists (Function.update_self _ _ _)).2 ⟨hv, hv0⟩
  obtain ⟨o, rfl, ho⟩ := orderRoot_spec (hshape.same hsame) ho20 horder
  refine ⟨⟨_, table, o, rfl, hrest⟩, (hshape.same hsame).setOrd ho, ?_, ?_, ?_⟩
  · intro v hv hflag i
    show sb.pathmap v i = true ↔ _
    by_cases hv0 : v = 0
    · have hflag : (table v).pathmap = true := hflag
      have htop : ¬ Below (Function.update (Function.update kids root [old]) 0 [root]) root 0 :=
        fun hb => ((ParentTree.below_top_iff hshape.tree hshape.lists
          (Function.update_self _ _ _)).1 hb).2 rfl
      have hflag0 : (sb.table 0).pathmap = true := by
        rw [hv0, (htable 0).2 htop] at hflag
        have hsame := congrArg Version.pathmap (linkChild_table sb root old 0)
        exact hsame.symm.trans hflag
      rw [hv0, hc.path 0 h0 hflag0]
      exact iff_of_false onPath_root onPath_root
    · have hcleared := (htable v).1 (hbelow hv hv0)
      have hflag : (table v).pathmap = true := hflag
      rw [hcleared] at hflag
      cases hflag
  · intro v hv hflag i
    have hflag : (table v).nearmap = true := hflag
    rw [hrest v, linkChild_table] at hflag
    by_cases hvr : v = root
    · rw [if_pos hvr] at hflag
      cases hflag
    · rw [if_neg hvr] at hflag
      have hv0 : v ≠ 0 := by
        rintro rfl
        rw [hc.origin] at hflag
        cases hflag
      rw [hkids_ne hv0 hvr]
      exact hc.near v (hv.resolve_right hvr) hflag i
  · show (table 0).nearmap = false
    rw [hrest 0, linkChild_table, if_neg hrne.symm]
    exact hc.origin

end Linking

/-! ## Removing a version -/

section Removing

variable {sb sb' : VersionSb} {In : Nat → Prop} {kids : Nat → List Nat} {depth : Nat → Nat}
  {child parent top v p : Nat}

theorem unlinkChild_table (sb : VersionSb) (parent p v : Nat) :
    (unlinkChild sb parent p).table v =
      { sb.table v with nearmap := if v = parent then false else (sb.table v).nearmap } := by
  dsimp only [unlinkChild, VersionSb.modify]
  by_cases hp : v = parent
  · rw [hp, Function.update_self, if_pos rfl]
  · rw [Function.update_of_ne hp, if_neg hp]

/-- `remove_child` of a version without children. -/
theorem removeChild_leaf (h : Shape sb In kids depth) (hc : Cached sb In kids) (hin : In child)
    (hne : child ≠ 0) (hleaf : kids child = []) (hremove : removeChild sb child = .ok sb') :
    ∃ a b q, kids (getParent sb child) = a ++ child :: b ∧
      sb' = unlinkChild sb (getParent sb child) q ∧
      Shape sb' (fun v => In v ∧ v ≠ child)
        (Function.update kids (getParent sb child) (a ++ b)) depth ∧
      Cached sb' (fun v => In v ∧ v ≠ child)
        (Function.update kids (getParent sb child) (a ++ b)) := by
  obtain ⟨q, hfind, heq⟩ := bind_eq_ok.1 hremove
  obtain rfl := Except.ok.inj heq
  have hpar := h.tree.parent_in child hin hne
  have hplt := h.in_lt _ hpar
  obtain ⟨a, b, hkids, hpos⟩ := findChild_spec h.packs hplt hfind
  have hparent : getParent (unlinkChild sb (getParent sb child) q) = getParent sb := by
    funext v
    unfold getParent
    rw [unlinkChild_table]
  have hnodup := h.lists.nodup (getParent sb child)
  rw [hkids] at hnodup
  have hmem (v c : Nat) : c ∈ Function.update kids (getParent sb child) (a ++ b) v ↔
      c ∈ kids v ∧ c ≠ child := by
    by_cases hv : v = getParent sb child
    · rw [hv, Function.update_self, hkids]
      have hout := (List.nodup_cons.1 (List.nodup_middle.1 hnodup)).1
      rw [List.mem_append, List.mem_append, List.mem_cons]
      refine ⟨fun hor => ⟨hor.imp_right .inr, fun heq => ?_⟩, fun hor => ?_⟩
      · rw [heq] at hor
        exact hout (List.mem_append.2 hor)
      · exact hor.1.imp_right fun hin => hin.resolve_left hor.2
    · rw [Function.update_of_ne hv]
      refine ⟨fun hin => ⟨hin, fun heq => ?_⟩, fun hin => hin.1⟩
      rw [heq] at hin
      exact hv ((h.lists.mem v child).1 hin).2.2.symm
  refine ⟨a, b, q, hkids, rfl, ⟨?_, ⟨fun v c => ?_, fun v => ?_⟩,
    unlinkChild_packs h hplt hkids hpos, fun v hv => h.in_lt v hv.1, h.count_le, ?_⟩,
    ⟨fun v hv hflag i => ?_, fun v hv hflag i => ?_, ?_⟩⟩
  · rw [hparent]
    refine h.tree.removeLeaf hne fun v hv hv0 heq => ?_
    have hkid := (h.lists.mem child v).2 ⟨hv0, hv, heq⟩
    rw [hleaf] at hkid
    exact List.not_mem_nil hkid
  · rw [hparent, hmem, h.lists.mem]
    exact ⟨fun hin => ⟨hin.1.1, ⟨hin.1.2.1, hin.2⟩, hin.1.2.2⟩,
      fun hin => ⟨⟨hin.1, hin.2.1.1, hin.2.2⟩, hin.2.1.2⟩⟩
  · by_cases hv : v = getParent sb child
    · rw [hv, Function.update_self]
      exact (List.nodup_cons.1 (List.nodup_middle.1 hnodup)).2
    · rw [Function.update_of_ne hv]
      exact h.lists.nodup v
  · have hone := h.one
    by_cases hv : 0 = getParent sb child
    · rw [hv, hkids, List.length_append, List.length_cons] at hone
      rw [hv, Function.update_self, List.length_append]
      omega
    · rw [Function.update_of_ne hv]
      exact hone
  · rw [unlinkChild_table] at hflag
    rw [hparent]
    exact hc.path v hv.1 hflag i
  · rw [unlinkChild_table] at hflag
    by_cases hvp : v = getParent sb child
    · rw [if_pos hvp] at hflag
      cases hflag
    · rw [if_neg hvp] at hflag
      rw [Function.update_of_ne hvp]
      exact hc.near v hv.1 hflag i
  · rw [unlinkChild_table]
    by_cases h0 : 0 = getParent sb child
    · exact if_pos h0
    · exact (if_neg h0).trans hc.origin

/-- A version that is not part of the tree may be changed. -/
theorem modify_outside (h : Shape sb In kids depth) (hc : Cached sb In kids) (hnot : ¬ In v)
    (f : Version → Version) :
    Shape (sb.modify v f) In kids depth ∧ Cached (sb.modify v f) In kids := by
  have hne {u : Nat} (hu : In u) : u ≠ v := fun heq => hnot (heq ▸ hu)
  have hparent {u : Nat} (hu : In u) : getParent (sb.modify v f) u = getParent sb u :=
    congrArg Version.parent (modify_of_ne sb _ (hne hu))
  refine ⟨⟨?_, ?_, h.packs, h.in_lt, h.count_le, h.one⟩, ⟨fun u hu hflag i => ?_,
    fun u hu hflag i => ?_, ?_⟩⟩
  · exact h.tree.congr (fun _ => Iff.rfl) (fun u hu _ => hparent hu) fun _ _ => rfl
  · refine h.lists.congr (fun u c => ?_) fun _ => .inl rfl
    rw [h.lists.mem]
    exact and_congr_right fun _ => and_congr_right fun hu => by rw [hparent hu]
  · rw [modify_of_ne sb _ (hne hu)] at hflag
    refine (hc.path u hu hflag i).trans (onPath_congr fun w hw => ?_).symm
    exact hparent (h.tree.onPath_in hu hw)
  · rw [modify_of_ne sb _ (hne hu)] at hflag
    exact hc.near u hu hflag i
  · rw [modify_of_ne sb _ (hne h.tree.root_in)]
    exact hc.origin

/-- `free_version` of a version that is not part of the tree. -/
theorem freeVersion_spec (h : Shape sb In kids depth) (hc : Cached sb In kids) (hnot : ¬ In v)
    (hfree : freeVersion sb v = .ok sb') :
    (∃ activeCount, sb' = { sb.modify v fun v => { v with parent := 0, used := false } with
      activeCount }) ∧ Shape sb' In kids depth ∧ Cached sb' In kids := by
  obtain ⟨⟨⟩, -, heq⟩ := bind_eq_ok.1 hfree
  obtain rfl := Except.ok.inj heq
  obtain ⟨hshape, hcached⟩ :=
    modify_outside h hc hnot fun v => { v with parent := 0, used := false }
  exact ⟨⟨_, rfl⟩, ⟨hshape.tree, hshape.lists, hshape.packs, hshape.in_lt, hshape.count_le,
    hshape.one⟩, ⟨hcached.path, hcached.near, hcached.origin⟩⟩

/-- What `promote_child` has left of a version before the paths are invalidated. -/
def promotedVersion (sb : VersionSb) (child parent top v : Nat) : Version :=
  if v = parent then { sb.table v with parent := 0, used := false, nearmap := false }
  else { sb.table v with
    parent := if v = child then top else (sb.table v).parent
    nearmap := if v = top then false else (sb.table v).nearmap }

/-- The edits of `promote_child`, up to the caches and the numbering. -/
theorem promoteChild_edits {sb1 sb2 : VersionSb} (h : Shape sb In kids depth) (hin : In child)
    (hne : child ≠ 0) (hp : getParent sb child = parent) (ht : getParent sb parent = top)
    (hpar : parent ≠ 0) (hone : sb.childCount parent = 1)
    (hremove : removeChild sb child = .ok sb1)
    (hreplace : replaceChild sb1 parent child = .ok sb2) :
    ∃ a b a' b', kids parent = [child] ∧ kids top = a ++ parent :: b ∧ a ++ b = a' ++ b' ∧
      Packs sb2.children sb2.childIndex sb2.childCount sb2.versionCount
        (Function.update (Function.update kids parent []) top (a' ++ child :: b')) ∧
      sb2.table = promotedVersion sb child parent top ∧
      sb2 = { sb with
        children := sb2.children
        childIndex := sb2.childIndex
        childCount := sb2.childCount
        table := sb2.table
        activeCount := sb2.activeCount } := by
  subst hp ht
  have hparin := h.tree.parent_in child hin hne
  have htopin := h.tree.parent_in _ hparin hpar
  have hplt := h.in_lt _ hparin
  have htlt := h.in_lt _ htopin
  have hdepth := h.tree.depth_eq child hin hne
  have hdepth' := h.tree.depth_eq _ hparin hpar
  have htop_ne : getParent sb (getParent sb child) ≠ getParent sb child := by
    intro heq
    rw [heq] at hdepth'
    omega
  have hchild_ne : child ≠ getParent sb child := by
    intro heq
    rw [← heq] at hdepth
    omega
  have htop_child : getParent sb (getParent sb child) ≠ child := by
    intro heq
    rw [heq] at hdepth'
    omega
  obtain ⟨q, hfind, heq⟩ := bind_eq_ok.1 hremove
  obtain rfl := Except.ok.inj heq
  obtain ⟨a0, b0, hkids0, hpos0⟩ := findChild_spec h.packs hplt hfind
  have hlen := h.count_eq hparin
  rw [hone, hkids0, List.length_append, List.length_cons] at hlen
  obtain rfl : a0 = [] := List.eq_nil_of_length_eq_zero (by omega)
  obtain rfl : b0 = [] := List.eq_nil_of_length_eq_zero (by omega)
  have hpacks := unlinkChild_packs h hplt hkids0 hpos0
  have hparent : getParent (unlinkChild sb (getParent sb child) q) = getParent sb := by
    funext v
    unfold getParent
    rw [unlinkChild_table]
  obtain ⟨q', hfind', hrest⟩ := bind_eq_ok.1 hreplace
  rw [hparent] at hfind' hrest
  obtain ⟨sb3, hfree, heq⟩ := bind_eq_ok.1 hrest
  obtain rfl := Except.ok.inj heq
  obtain ⟨⟨⟩, -, heq⟩ := bind_eq_ok.1 hfree
  obtain rfl := Except.ok.inj heq
  obtain ⟨a, b, hkids, hpos⟩ := findChild_spec hpacks htlt hfind'
  obtain ⟨a', b', hab, hpacks'⟩ := exchangeChild_packs child hpacks htlt hkids hpos
  rw [Function.update_of_ne htop_ne] at hkids
  refine ⟨a, b, a', b', hkids0, hkids, hab, hpacks', ?_, rfl⟩
  funext v
  unfold promotedVersion
  dsimp only [VersionSb.modify, exchangeChild]
  by_cases hvt : v = getParent sb (getParent sb child)
  · rw [hvt, Function.update_self, Function.update_of_ne htop_ne,
      Function.update_of_ne htop_child, unlinkChild_table, if_neg htop_ne, if_neg htop_ne,
      if_neg htop_child, if_pos rfl]
  · rw [Function.update_of_ne hvt]
    by_cases hvp : v = getParent sb child
    · rw [hvp, Function.update_self, Function.update_of_ne hchild_ne.symm, unlinkChild_table,
        if_pos rfl, if_pos rfl]
    · rw [Function.update_of_ne hvp, if_neg hvp, if_neg hvt]
      by_cases hvc : v = child
      · rw [hvc, Function.update_self, unlinkChild_table, if_neg hchild_ne, if_pos rfl]
      · rw [Function.update_of_ne hvc, unlinkChild_table, if_neg hvp, if_neg hvc]

theorem promotedVersion_of_ne (sb : VersionSb) {parent v : Nat} (child top : Nat)
    (hv : v ≠ parent) : promotedVersion sb child parent top v = { sb.table v with
      parent := if v = child then top else (sb.table v).parent
      nearmap := if v = top then false else (sb.table v).nearmap } := if_neg hv

/-- The parents after `promote_child`. -/
theorem promoted_getParent {sb2 : VersionSb}
    (htable : sb2.table = promotedVersion sb child parent top) (hv : v ≠ parent) :
    getParent sb2 v = Function.update (getParent sb) child top v := by
  unfold getParent
  rw [htable, promotedVersion_of_ne sb child top hv]
  by_cases hvc : v = child
  · rw [hvc, Function.update_self]
    exact if_pos rfl
  · rw [Function.update_of_ne hvc]
    exact if_neg hvc

open Classical in
/-- The tree after the edits of `promote_child`. -/
theorem promoted_shape {sb2 : VersionSb} {a b a' b' : List Nat} (h : Shape sb In kids depth)
    (hin : In child) (hne : child ≠ 0) (hp : getParent sb child = parent)
    (ht : getParent sb parent = top) (hpar : parent ≠ 0) (hkidsp : kids parent = [child])
    (hkidst : kids top = a ++ parent :: b) (hab : a ++ b = a' ++ b')
    (hpacks : Packs sb2.children sb2.childIndex sb2.childCount sb2.versionCount
      (Function.update (Function.update kids parent []) top (a' ++ child :: b')))
    (htable : sb2.table = promotedVersion sb child parent top)
    (hcount : sb2.versionCount = sb.versionCount) :
    Shape sb2 (fun v => In v ∧ v ≠ parent)
      (Function.update (Function.update kids parent []) top (a' ++ child :: b'))
      (fun v => if OnPath 0 (getParent sb) v child then depth v - 1 else depth v) := by
  have hparin : In parent := hp ▸ h.tree.parent_in child hin hne
  have hdepth := h.tree.depth_eq child hin hne
  have hdepth' := h.tree.depth_eq _ hparin hpar
  rw [hp] at hdepth
  rw [ht] at hdepth'
  have htop_ne : top ≠ parent := by
    intro heq
    rw [heq] at hdepth'
    omega
  have hchild_ne : child ≠ parent := by
    intro heq
    rw [heq] at hdepth
    omega
  have hnodup := h.lists.nodup top
  rw [hkidst] at hnodup
  have hmem_top (c : Nat) : c ∈ a' ++ child :: b' ↔ c = child ∨ c ∈ kids top ∧ c ≠ parent := by
    have hout := (List.nodup_cons.1 (List.nodup_middle.1 hnodup)).1
    rw [List.perm_middle.mem_iff, List.mem_cons, ← hab, hkidst,
      List.perm_middle.mem_iff (a := c), List.mem_cons]
    refine or_congr_right ⟨fun hin => ⟨.inr hin, fun heq => hout (heq ▸ hin)⟩, fun hin =>
      hin.1.resolve_left hin.2⟩
  have hkids_parent : Function.update (Function.update kids parent []) top (a' ++ child :: b')
      parent = [] := by
    rw [Function.update_of_ne htop_ne.symm, Function.update_self]
  have hkids_ne {v : Nat} (hvp : v ≠ parent) (hvt : v ≠ top) :
      Function.update (Function.update kids parent []) top (a' ++ child :: b') v = kids v := by
    rw [Function.update_of_ne hvt, Function.update_of_ne hvp]
  have hpromoted := h.tree.promote hin hne (hp ▸ hpar) fun v hv hv0 heq => by
    have hkid := (h.lists.mem parent v).2 ⟨hv0, hv, heq.trans hp⟩
    rw [hkidsp] at hkid
    exact List.mem_singleton.1 hkid
  rw [hp, ht] at hpromoted
  refine ⟨hpromoted.congr (fun _ => Iff.rfl) (fun v hv _ => promoted_getParent htable hv.2)
      fun _ _ => rfl,
    ⟨fun v c => ?_, fun v => ?_⟩, hpacks, fun v hv => ?_, ?_, ?_⟩
  · by_cases hcp : c = parent
    · refine iff_of_false (fun hcv => ?_) fun hcv => hcv.2.1.2 hcp
      rw [hcp] at hcv
      by_cases hvt : v = top
      · rw [hvt, Function.update_self, hmem_top] at hcv
        exact hcv.elim hchild_ne.symm fun hin => hin.2 rfl
      · by_cases hvp : v = parent
        · rw [hvp, hkids_parent] at hcv
          exact List.not_mem_nil hcv
        · rw [hkids_ne hvp hvt] at hcv
          exact hvt (((h.lists.mem v parent).1 hcv).2.2.symm.trans ht)
    · rw [promoted_getParent htable hcp]
      by_cases hcc : c = child
      · rw [hcc, Function.update_self]
        by_cases hvt : v = top
        · rw [hvt, Function.update_self, hmem_top]
          exact ⟨fun _ => ⟨hne, ⟨hin, hchild_ne⟩, rfl⟩, fun _ => .inl rfl⟩
        · refine iff_of_false (fun hcv => ?_) fun hcv => hvt hcv.2.2.symm
          by_cases hvp : v = parent
          · rw [hvp, hkids_parent] at hcv
            exact List.not_mem_nil hcv
          · rw [hkids_ne hvp hvt] at hcv
            exact hvp (((h.lists.mem v child).1 hcv).2.2.symm.trans hp)
      · rw [Function.update_of_ne hcc]
        have hlist : c ∈ Function.update (Function.update kids parent []) top
            (a' ++ child :: b') v ↔ c ∈ kids v := by
          by_cases hvt : v = top
          · rw [hvt, Function.update_self, hmem_top]
            exact ⟨fun hor => (hor.resolve_left hcc).1, fun hin => .inr ⟨hin, hcp⟩⟩
          · by_cases hvp : v = parent
            · rw [hvp, hkids_parent, hkidsp, List.mem_singleton]
              exact iff_of_false List.not_mem_nil hcc
            · rw [hkids_ne hvp hvt]
        rw [hlist, h.lists.mem]
        exact and_congr_right fun _ => and_congr_left fun _ =>
          ⟨fun hin => ⟨hin, hcp⟩, fun hin => hin.1⟩
  · by_cases hvt : v = top
    · rw [hvt, Function.update_self]
      refine List.nodup_middle.2 (List.nodup_cons.2 ⟨fun hin => ?_, ?_⟩)
      · rw [← hab] at hin
        have hkid : child ∈ kids top := by
          rw [hkidst]
          exact List.perm_middle.mem_iff.2 (List.mem_cons_of_mem _ hin)
        exact htop_ne (((h.lists.mem top child).1 hkid).2.2.symm.trans hp)
      · rw [← hab]
        exact (List.nodup_cons.1 (List.nodup_middle.1 hnodup)).2
    · by_cases hvp : v = parent
      · rw [hvp, hkids_parent]
        exact List.nodup_nil
      · rw [hkids_ne hvp hvt]
        exact h.lists.nodup v
  · rw [hcount]
    exact h.in_lt v hv.1
  · rw [hcount]
    exact h.count_le
  · have hone := h.one
    by_cases h0 : 0 = top
    · have hlen := congrArg List.length hab
      rw [List.length_append, List.length_append] at hlen
      rw [h0, hkidst, List.length_append, List.length_cons] at hone
      rw [h0, Function.update_self, List.length_append, List.length_cons]
      omega
    · rw [hkids_ne hpar.symm h0]
      exact hone

/-- `promote_child`: the child takes the place of its parent, which is freed. -/
theorem promoteChild_spec (h : Shape sb In kids depth) (hzero : sb.ordmap 0 = 0)
    (hc : Cached sb In kids) (hin : In child) (hne : child ≠ 0)
    (hp : getParent sb child = parent) (ht : getParent sb parent = top) (hpar : parent ≠ 0)
    (hpromote : promoteChild sb child = .ok sb') :
    ∃ a b a' b', kids parent = [child] ∧ kids top = a ++ parent :: b ∧ a ++ b = a' ++ b' ∧
      Shape sb' (fun v => In v ∧ v ≠ parent)
        (Function.update (Function.update kids parent []) top (a' ++ child :: b')) sb'.ordmap ∧
      Cached sb' (fun v => In v ∧ v ≠ parent)
        (Function.update (Function.update kids parent []) top (a' ++ child :: b')) ∧
      (∀ v, sb'.table v = { promotedVersion sb child parent top v with
        pathmap := (sb'.table v).pathmap }) ∧
      sb' = { sb with
        children := sb'.children
        childIndex := sb'.childIndex
        childCount := sb'.childCount
        ordmap := sb'.ordmap
        table := sb'.table
        activeCount := sb'.activeCount } := by
  classical
  have hparin : In parent := hp ▸ h.tree.parent_in child hin hne
  have htopin : In top := ht ▸ h.tree.parent_in _ hparin hpar
  have hdepth := h.tree.depth_eq child hin hne
  have hdepth' := h.tree.depth_eq _ hparin hpar
  rw [hp] at hdepth
  rw [ht] at hdepth'
  have htop_ne : top ≠ parent := by
    intro heq
    rw [heq] at hdepth'
    omega
  have hchild_ne : child ≠ parent := by
    intro heq
    rw [heq] at hdepth
    omega
  obtain ⟨⟨⟩, hone, hpromote⟩ := bind_eq_ok.1 hpromote
  obtain ⟨sb1, hremove, hpromote⟩ := bind_eq_ok.1 hpromote
  obtain ⟨sb2, hreplace, hpromote⟩ := bind_eq_ok.1 hpromote
  obtain ⟨sb3, hinv, horder⟩ := bind_eq_ok.1 hpromote
  rw [hp] at hone hreplace
  obtain ⟨a, b, a', b', hkidsp, hkidst, hab, hpacks, htable, hrest⟩ :=
    promoteChild_edits h hin hne hp ht hpar (tuxAssert_eq_ok.1 hone) hremove hreplace
  have hcount : sb2.versionCount = sb.versionCount := by rw [hrest]
  have hkids_ne {v : Nat} (hvp : v ≠ parent) (hvt : v ≠ top) :
      Function.update (Function.update kids parent []) top (a' ++ child :: b') v = kids v := by
    rw [Function.update_of_ne hvt, Function.update_of_ne hvp]
  have hshape := promoted_shape h hin hne hp ht hpar hkidsp hkidst hab hpacks htable hcount
  obtain ⟨table, rfl, hsame, hrest3, hcleared⟩ :=
    invalidateBelow_spec hshape.reads ⟨hin, hchild_ne⟩ hinv
  have hzero2 : sb2.ordmap 0 = 0 := by
    rw [hrest]
    exact hzero
  obtain ⟨o, rfl, ho⟩ := orderRoot_spec (hshape.same hsame) hzero2 horder
  refine ⟨a, b, a', b', hkidsp, hkidst, hab, (hshape.same hsame).setOrd ho,
    ⟨fun v hv hflag i => ?_, fun v hv hflag i => ?_, ?_⟩, fun v => ?_, ?_⟩
  · have hflag : (table v).pathmap = true := hflag
    have hparent3 : getParent { sb2 with table, ordmap := o } = getParent sb2 :=
      hsame.getParent_eq
    have hnot : ¬ Below (Function.update (Function.update kids parent []) top
        (a' ++ child :: b')) child v := by
      intro hb
      rw [(hcleared v).1 hb] at hflag
      cases hflag
    rw [(hcleared v).2 hnot, htable, promotedVersion_of_ne sb child top hv.2] at hflag
    rw [ParentTree.below_iff hshape.tree hshape.lists ⟨hin, hchild_ne⟩ hne] at hnot
    have hmap : sb2.pathmap = sb.pathmap := by rw [hrest]
    rw [hparent3]
    show sb2.pathmap v i = true ↔ _
    rw [hmap]
    refine (hc.path v hv.1 hflag i).trans (onPath_congr fun u hu => ?_)
    rw [promoted_getParent htable (hshape.tree.onPath_in hv hu).2, Function.update_of_ne]
    rintro rfl
    exact hnot ⟨hv, hu⟩
  · have hflag : (table v).nearmap = true := hflag
    have hmap : sb2.nearmap = sb.nearmap := by rw [hrest]
    rw [hrest3, htable, promotedVersion_of_ne sb child top hv.2] at hflag
    by_cases hvt : v = top
    · rw [if_pos hvt] at hflag
      cases hflag
    · rw [if_neg hvt] at hflag
      rw [hkids_ne hv.2 hvt]
      show sb2.nearmap v i = true ↔ _
      rw [hmap]
      exact hc.near v hv.1 hflag i
  · show (table 0).nearmap = false
    rw [hrest3, htable, promotedVersion_of_ne sb child top hpar.symm]
    by_cases h0 : 0 = top
    · exact if_pos h0
    · exact (if_neg h0).trans hc.origin
  · show table v = { promotedVersion sb child parent top v with pathmap := (table v).pathmap }
    rw [← htable]
    exact hrest3 v
  · show { sb2 with table, ordmap := o } = _
    rw [hrest]

end Removing

end Tux3.Versions
