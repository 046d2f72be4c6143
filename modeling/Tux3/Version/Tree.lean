/-
  Version/Tree.lean --- the version tree, as its parent pointers have it.

  The child index lists the children, the depth numbers count the parents, and a cache whose flag
  is set holds what the parents and the child index give.  While a version is made or deleted, the
  versions of the tree are not just those in use: `In` says which they are.
-/
import Mathlib.Data.List.Perm.Subperm
import Tux3.Lib.Packed
import Tux3.Lib.ParentTree
import Tux3.Version.Snapshot

set_option autoImplicit false

namespace Tux3.Versions

open Outcome (bind_of_ok bind_eq_ok)
open Packed (Packs offset)
open ParentTree (IsTree OnPath ListsKids Below onPath_iff onPath_root onPath_congr)

/-- The tree, its depths and its child index. -/
structure Shape (sb : VersionSb) (In : Nat → Prop) (kids : Nat → List Nat) (depth : Nat → Nat) :
    Prop where
  tree : IsTree 0 (getParent sb) In depth
  lists : ListsKids 0 (getParent sb) In kids
  packs : Packs sb.children sb.childIndex sb.childCount sb.versionCount kids
  in_lt : ∀ v, In v → v < sb.versionCount
  count_le : sb.versionCount ≤ maxVersions
  one : (kids 0).length ≤ 1

/-- The child index gives these children, a level deeper. -/
structure Reads (sb : VersionSb) (In : Nat → Prop) (kids : Nat → List Nat) (depth : Nat → Nat) :
    Prop where
  read : ∀ v, In v → (List.range (sb.childCount v)).map (getChild sb v) = kids v
  kids_in : ∀ v c, c ∈ kids v → In c
  kids_depth : ∀ v c, c ∈ kids v → depth c = depth v + 1

/-- The caches that are flagged hold what they should.  The near versions of the origin are never
loaded. -/
structure Cached (sb : VersionSb) (In : Nat → Prop) (kids : Nat → List Nat) : Prop where
  path : ∀ v, In v → (sb.table v).pathmap = true →
    ∀ i, sb.pathmap v i = true ↔ OnPath 0 (getParent sb) v i
  near : ∀ v, In v → (sb.table v).nearmap = true →
    ∀ i, sb.nearmap v i = true ↔ i = v ∨ i ∈ kids v
  origin : (sb.table 0).nearmap = false

/-- The version is in use. -/
abbrev Used (sb : VersionSb) (v : Nat) : Prop := (sb.table v).used = true

/-- The versions in use are a tree, with the depth numbers and the caches that belong to it. -/
structure VersionTree (sb : VersionSb) (kids : Nat → List Nat) : Prop where
  shape : Shape sb (Used sb) kids sb.ordmap
  cached : Cached sb (Used sb) kids

section Trees

variable {sb sb' : VersionSb} {In In' : Nat → Prop} {kids : Nat → List Nat} {depth : Nat → Nat}
  {v c i n r target : Nat}

/-- Versions have fewer ancestors than the table has room for. -/
theorem Shape.depth_lt (h : Shape sb In kids depth) (hin : In v) : depth v < maxVersions := by
  obtain ⟨l, hlen, hnodup, hall⟩ := h.tree.exists_ancestors hin
  have hsub : l ⊆ List.range sb.versionCount := fun u hu =>
    List.mem_range.2 (h.in_lt u (hall u hu).1)
  have hle := (hnodup.subperm hsub).length_le
  rw [List.length_range, hlen] at hle
  exact Nat.lt_of_succ_le (Nat.le_trans hle h.count_le)

theorem Shape.kids_in (h : Shape sb In kids depth) (hc : c ∈ kids v) : In c :=
  ((h.lists.mem v c).1 hc).2.1

theorem Shape.kids_nil (h : Shape sb In kids depth) (hnot : ¬ In v) : kids v = [] :=
  List.eq_nil_iff_forall_not_mem.2 fun _ hc => hnot (h.lists.parent_in h.tree hc)

theorem Shape.kids_depth (h : Shape sb In kids depth) (hc : c ∈ kids v) :
    depth c = depth v + 1 := by
  obtain ⟨hne, hin, hpar⟩ := (h.lists.mem v c).1 hc
  rw [h.tree.depth_eq c hin hne, hpar]

theorem Shape.read_kids (h : Shape sb In kids depth) (hin : In v) :
    (List.range (sb.childCount v)).map (getChild sb v) = kids v :=
  h.packs.read (h.in_lt v hin)

theorem Shape.reads (h : Shape sb In kids depth) : Reads sb In kids depth :=
  ⟨fun _ hin => h.read_kids hin, fun _ _ => h.kids_in, fun _ _ => h.kids_depth⟩

theorem Reads.foldKids {σ : Type} {f : σ → Nat → Except TuxError σ} (h : Reads sb In kids depth)
    (hin : In v) (s : σ) :
    (List.range (sb.childCount v)).foldlM (fun s i => f s (getChild sb v i)) s =
      (kids v).foldlM f s := by
  rw [← h.read v hin, List.foldlM_map]

theorem Shape.count_eq (h : Shape sb In kids depth) (hin : In v) :
    sb.childCount v = (kids v).length := h.packs.count_eq v (h.in_lt v hin)

theorem Shape.start_zero (h : Shape sb In kids depth) : sb.childIndex 0 = 0 :=
  h.packs.start_eq 0 (h.in_lt 0 h.tree.root_in)

/-! ## Depth numbers -/

/-- `order_tree` is a walk. -/
theorem orderTree_eq_walk (h : Reads sb In kids depth) (hin : In v) (ordmap : Nat → Nat) :
    orderTree sb n v (depth v) ordmap =
      ParentTree.walk kids (fun v s => .ok (Function.update s v (depth v))) .fuel n v ordmap := by
  refine ParentTree.eq_walk (fun n v s => orderTree sb n v (depth v) s) In
    h.kids_in (fun _ _ => rfl) (fun n v s hv => ?_) n ordmap hin
  refine Eq.trans ?_ (bind_of_ok rfl).symm
  refine (h.foldKids (f := fun s c => orderTree sb n c (depth v + 1) s) hv _).trans ?_
  exact ParentTree.foldlM_congr (fun c hc s => by rw [h.kids_depth v c hc]) _

/-- `order_tree` numbers the versions below one by their depths. -/
theorem orderTree_spec (h : Reads sb In kids depth) (hin : In v) {ordmap ordmap' : Nat → Nat}
    (horder : orderTree sb n v (depth v) ordmap = .ok ordmap') (u : Nat) :
    (Below kids v u → ordmap' u = depth u) ∧ (¬ Below kids v u → ordmap' u = ordmap u) := by
  rw [orderTree_eq_walk h hin] at horder
  exact ParentTree.walk_spec (fun v _ => depth v)
    (fun v s s' hs => (Except.ok.inj hs).symm) (fun _ _ => rfl) horder u

theorem orderTree_ok (h : Reads sb In kids depth) (hin : In v)
    (hlt : ∀ u, In u → depth u < maxVersions) (hn : maxVersions ≤ depth v + n)
    (ordmap : Nat → Nat) : ∃ ordmap', orderTree sb n v (depth v) ordmap = .ok ordmap' := by
  rw [orderTree_eq_walk h hin]
  obtain ⟨ordmap', hwalk, -⟩ := ParentTree.walk_ok (I := fun _ => True)
    (fun v s _ _ => ⟨_, rfl, trivial⟩) h.kids_in h.kids_depth hlt hin hn trivial
  exact ⟨ordmap', hwalk⟩

/-- The depths may be counted anew, as long as they come out the same. -/
theorem Shape.setOrd {o : Nat → Nat} (h : Shape sb In kids depth)
    (ho : ∀ v, In v → o v = depth v) : Shape { sb with ordmap := o } In kids o :=
  ⟨h.tree.congr (fun _ => Iff.rfl) (fun _ _ _ => rfl) ho, h.lists, h.packs, h.in_lt, h.count_le,
    h.one⟩

theorem getRoot_eq (h : Shape sb In kids depth) (hroot : getRoot sb = .ok r) : kids 0 = [r] := by
  obtain ⟨⟨⟩, hne, hroot⟩ := bind_eq_ok.1 hroot
  have hne := tuxAssert_eq_ok.1 hne
  have hone := h.one
  rw [h.count_eq h.tree.root_in] at hne
  obtain ⟨r', hr'⟩ := List.length_eq_one_iff.1 (by omega : (kids 0).length = 1)
  have hlt : 0 < (kids 0).length := by omega
  have hget := h.packs.get (h.in_lt 0 h.tree.root_in) hlt
  rw [h.start_zero] at hget
  simp only [hr', List.getElem_cons_zero] at hget
  rw [hr', ← hget]
  exact congrArg (fun x => [x]) (Except.ok.inj hroot)

/-- The numbering from the top is right for all versions of the tree. -/
theorem orderRoot_spec (h : Shape sb In kids depth) (hzero : sb.ordmap 0 = 0)
    (horder : orderRoot sb = .ok sb') :
    ∃ o, sb' = { sb with ordmap := o } ∧ (∀ v, In v → o v = depth v) := by
  obtain ⟨r, hroot, horder⟩ := bind_eq_ok.1 horder
  obtain ⟨o, horder, heq⟩ := bind_eq_ok.1 horder
  have hr := getRoot_eq h hroot
  have hmem : r ∈ kids 0 := by
    rw [hr]
    exact List.mem_singleton_self r
  have hdepth := h.kids_depth hmem
  rw [h.tree.depth_root, Nat.zero_add] at hdepth
  rw [← hdepth] at horder
  refine ⟨o, (Except.ok.inj heq).symm, fun v hv => ?_⟩
  have hspec := orderTree_spec h.reads (h.kids_in hmem) horder v
  by_cases hv0 : v = 0
  · rw [hv0] at hspec ⊢
    rw [hspec.2 fun hb => ((ParentTree.below_top_iff h.tree h.lists hr).1 hb).2 rfl, hzero,
      h.tree.depth_root]
  · exact hspec.1 ((ParentTree.below_top_iff h.tree h.lists hr).2 ⟨hv, hv0⟩)

/-- A numbering of the tree as it is changes nothing. -/
theorem Shape.reorder (h : Shape sb In kids depth) (hzero : sb.ordmap 0 = 0)
    (hc : Cached sb In kids) (horder : orderRoot sb = .ok sb') :
    Shape sb' In kids sb'.ordmap ∧ Cached sb' In kids ∧ sb'.table = sb.table := by
  obtain ⟨o, rfl, ho⟩ := orderRoot_spec h hzero horder
  exact ⟨h.setOrd ho, ⟨hc.path, hc.near, hc.origin⟩, rfl⟩

/-! ## Caches -/

/-- A visit of `invalidate_path`. -/
def invalidateVisit (v : Nat) (table : Nat → Version) : Except TuxError (Nat → Version) := do
  tuxAssert (v < maxVersions)
  tuxAssert (table v).used
  return Function.update table v { table v with pathmap := false }

/-- `invalidate_path` is a walk. -/
theorem invalidatePath_eq_walk (h : Reads sb In kids depth) (hin : In v)
    (table : Nat → Version) : invalidatePath sb n v table =
      ParentTree.walk kids invalidateVisit .fuel n v table := by
  refine ParentTree.eq_walk (fun n v s => invalidatePath sb n v s) In
    h.kids_in (fun _ _ => rfl) (fun n v s hv => ?_) n table hin
  rw [invalidatePath, invalidateVisit]
  by_cases hlt : v < maxVersions
  · by_cases hused : (s v).used
    · rw [bind_of_ok (tuxAssert_of hlt), bind_of_ok (tuxAssert_of hused),
        bind_of_ok ((bind_of_ok (tuxAssert_of hlt)).trans (bind_of_ok (tuxAssert_of hused)))]
      exact h.foldKids (f := fun s c => invalidatePath sb n c s) hv _
    · rw [bind_of_ok (tuxAssert_of hlt), bind_of_ok (tuxAssert_of hlt),
        tuxAssert_of_not hused]
      rfl
  · rw [tuxAssert_of_not hlt]
    rfl

/-- `invalidate_path` clears the flags of a version and of those below it. -/
theorem invalidatePath_spec (h : Reads sb In kids depth) (hin : In v)
    {table table' : Nat → Version} (hinv : invalidatePath sb n v table = .ok table') (u : Nat) :
    (Below kids v u → table' u = { table u with pathmap := false }) ∧
      (¬ Below kids v u → table' u = table u) := by
  rw [invalidatePath_eq_walk h hin] at hinv
  refine ParentTree.walk_spec (fun _ x => { x with pathmap := false })
    (fun v s s' hs => ?_) (fun _ _ => rfl) hinv u
  obtain ⟨_, -, hs⟩ := bind_eq_ok.1 hs
  obtain ⟨_, -, hs⟩ := bind_eq_ok.1 hs
  exact (Except.ok.inj hs).symm

theorem invalidatePath_ok (h : Reads sb In kids depth) (hin : In v)
    (hlt : ∀ u, In u → depth u < maxVersions) (hn : maxVersions ≤ depth v + n)
    (hmax : ∀ u, In u → u < maxVersions) {table : Nat → Version}
    (hused : ∀ u, In u → (table u).used = true) :
    ∃ table', invalidatePath sb n v table = .ok table' := by
  have hvisit (v : Nat) (s : Nat → Version) (hv : In v) (hs : ∀ u, In u → (s u).used = true) :
      ∃ s', invalidateVisit v s = .ok s' ∧ ∀ u, In u → (s' u).used = true := by
    refine ⟨_, (bind_of_ok (tuxAssert_of (hmax v hv))).trans
      (bind_of_ok (tuxAssert_of (hs v hv))), fun u hu => ?_⟩
    by_cases huv : u = v
    · rw [huv, Function.update_self]
      exact hs v hv
    · rw [Function.update_of_ne huv]
      exact hs u hu
  rw [invalidatePath_eq_walk h hin]
  have hwalk : ∃ table', ParentTree.walk kids invalidateVisit TuxError.fuel n v table = .ok table' ∧
      ∀ u, In u → (table' u).used = true :=
    ParentTree.walk_ok hvisit h.kids_in h.kids_depth hlt hin hn hused
  obtain ⟨table', hwalk, -⟩ := hwalk
  exact ⟨table', hwalk⟩

/-- The loop of `need_path` sets the bits of the path. -/
theorem pathLoop_spec (h : IsTree 0 (getParent sb) In depth) (hin : In v) (hn : depth v < n)
    (bits : Nat → Bool) : ∃ bits', pathLoop sb n v bits = .ok bits' ∧
      ∀ i, bits' i = true ↔ bits i = true ∨ OnPath 0 (getParent sb) v i := by
  induction n generalizing v bits with
  | zero => exact absurd hn (Nat.not_lt_zero _)
  | succ n ih =>
      rw [pathLoop]
      by_cases hv : v = 0
      · refine ⟨bits, if_pos hv, fun i => ?_⟩
        rw [hv]
        exact ⟨.inl, fun hor => hor.resolve_right onPath_root⟩
      · have hdepth := h.depth_eq v hin hv
        obtain ⟨bits', hloop, hbits⟩ := ih (h.parent_in v hin hv) (by omega)
          (Function.update bits v true)
        refine ⟨bits', (if_neg hv).trans hloop, fun i => ?_⟩
        rw [hbits i, onPath_iff hv]
        by_cases hi : i = v
        · rw [hi, Function.update_self]
          exact ⟨fun _ => .inr (.inl rfl), fun _ => .inl rfl⟩
        · rw [Function.update_of_ne hi]
          exact or_congr_right ⟨.inr, fun hor => hor.resolve_left hi⟩

end Trees

/-! ## Frames -/

/-- The tree and its child index stay as they are. -/
structure SameShape (sb sb' : VersionSb) : Prop where
  children : sb'.children = sb.children
  childIndex : sb'.childIndex = sb.childIndex
  childCount : sb'.childCount = sb.childCount
  versionCount : sb'.versionCount = sb.versionCount
  ordmap : sb'.ordmap = sb.ordmap
  parent : ∀ v, (sb'.table v).parent = (sb.table v).parent
  used : ∀ v, (sb'.table v).used = (sb.table v).used

/-- The caches stay as well. -/
structure SameTree (sb sb' : VersionSb) : Prop extends SameShape sb sb' where
  pathmap : sb'.pathmap = sb.pathmap
  nearmap : sb'.nearmap = sb.nearmap
  pathFlag : ∀ v, (sb'.table v).pathmap = (sb.table v).pathmap
  nearFlag : ∀ v, (sb'.table v).nearmap = (sb.table v).nearmap

/-- Only caches are loaded. -/
structure Loads (sb sb' : VersionSb) : Prop where
  rest : sb' = { sb with table := sb'.table, pathmap := sb'.pathmap, nearmap := sb'.nearmap }
  table : ∀ v, sb'.table v =
    { sb.table v with pathmap := (sb'.table v).pathmap, nearmap := (sb'.table v).nearmap }

section Frames

variable {sb sb' sb'' : VersionSb} {In : Nat → Prop} {kids : Nat → List Nat} {depth : Nat → Nat}

theorem SameTree.refl (sb : VersionSb) : SameTree sb sb :=
  ⟨⟨rfl, rfl, rfl, rfl, rfl, fun _ => rfl, fun _ => rfl⟩, rfl, rfl, fun _ => rfl, fun _ => rfl⟩

theorem SameShape.trans (h : SameShape sb sb') (h' : SameShape sb' sb'') : SameShape sb sb'' :=
  ⟨h'.children.trans h.children, h'.childIndex.trans h.childIndex,
    h'.childCount.trans h.childCount, h'.versionCount.trans h.versionCount,
    h'.ordmap.trans h.ordmap, fun v => (h'.parent v).trans (h.parent v),
    fun v => (h'.used v).trans (h.used v)⟩

theorem SameTree.trans (h : SameTree sb sb') (h' : SameTree sb' sb'') : SameTree sb sb'' :=
  ⟨h.toSameShape.trans h'.toSameShape, h'.pathmap.trans h.pathmap, h'.nearmap.trans h.nearmap,
    fun v => (h'.pathFlag v).trans (h.pathFlag v), fun v => (h'.nearFlag v).trans (h.nearFlag v)⟩

theorem SameShape.getParent_eq (h : SameShape sb sb') : getParent sb' = getParent sb :=
  funext h.parent

theorem SameShape.used_eq (h : SameShape sb sb') : Used sb' = Used sb :=
  funext fun v => congrArg (· = true) (h.used v)

theorem Shape.same (h : Shape sb In kids depth) (hs : SameShape sb sb') :
    Shape sb' In kids depth := by
  refine ⟨?_, ?_, ?_, ?_, ?_, h.one⟩
  · rw [hs.getParent_eq]
    exact h.tree
  · rw [hs.getParent_eq]
    exact h.lists
  · rw [hs.children, hs.childIndex, hs.childCount, hs.versionCount]
    exact h.packs
  · rw [hs.versionCount]
    exact h.in_lt
  · rw [hs.versionCount]
    exact h.count_le

theorem Cached.same (h : Cached sb In kids) (hs : SameTree sb sb') : Cached sb' In kids := by
  refine ⟨fun v hv hflag => ?_, fun v hv hflag => ?_, ?_⟩
  · rw [hs.pathmap, hs.getParent_eq]
    exact h.path v hv (hs.pathFlag v ▸ hflag)
  · rw [hs.nearmap]
    exact h.near v hv (hs.nearFlag v ▸ hflag)
  · rw [hs.nearFlag]
    exact h.origin

theorem VersionTree.same (h : VersionTree sb kids) (hs : SameTree sb sb') :
    VersionTree sb' kids := by
  refine ⟨?_, ?_⟩
  · rw [hs.used_eq, hs.ordmap]
    exact h.shape.same hs.toSameShape
  · rw [hs.used_eq]
    exact h.cached.same hs

theorem Loads.refl (sb : VersionSb) : Loads sb sb := ⟨rfl, fun _ => rfl⟩

theorem Loads.trans (h : Loads sb sb') (h' : Loads sb' sb'') : Loads sb sb'' := by
  refine ⟨?_, fun v => ?_⟩
  · rw [h'.rest, h.rest]
  · rw [h'.table v, h.table v]

theorem Loads.sameShape (h : Loads sb sb') : SameShape sb sb' := by
  refine ⟨?_, ?_, ?_, ?_, ?_, fun v => ?_, fun v => ?_⟩
  · rw [h.rest]
  · rw [h.rest]
  · rw [h.rest]
  · rw [h.rest]
  · rw [h.rest]
  · rw [h.table v]
  · rw [h.table v]

/-- `invalidate_path(sb, version)` changes no more than flags of caches. -/
theorem invalidateBelow_spec {v : Nat} (h : Reads sb In kids depth) (hin : In v)
    (hinv : invalidateBelow sb v = .ok sb') :
    ∃ table, sb' = { sb with table } ∧ SameShape sb { sb with table } ∧
      (∀ u, table u = { sb.table u with pathmap := (table u).pathmap }) ∧
      ∀ u, (Below kids v u → table u = { sb.table u with pathmap := false }) ∧
        (¬ Below kids v u → table u = sb.table u) := by
  classical
  obtain ⟨table, hwalk, heq⟩ := bind_eq_ok.1 hinv
  have hcleared := invalidatePath_spec h hin hwalk
  have hrest (u : Nat) : table u = { sb.table u with pathmap := (table u).pathmap } := by
    by_cases hb : Below kids v u
    · rw [(hcleared u).1 hb]
    · rw [(hcleared u).2 hb]
  refine ⟨table, (Except.ok.inj heq).symm, ⟨rfl, rfl, rfl, rfl, rfl, fun u => ?_, fun u => ?_⟩,
    hrest, hcleared⟩
  · have hparent := congrArg Version.parent (hrest u)
    exact hparent
  · have hused := congrArg Version.used (hrest u)
    exact hused

theorem Loads.elements (h : Loads sb sb') : sb'.elements = sb.elements := by rw [h.rest]

end Frames

/-! ## Loading the caches -/

section Caches

variable {sb sb' : VersionSb} {In : Nat → Prop} {kids : Nat → List Nat} {depth : Nat → Nat}
  {v target : Nat}

/-- `need_path` leaves the path in the cache. -/
theorem needPath_spec (h : Shape sb In kids depth) (hc : Cached sb In kids) (hin : In target) :
    ∃ sb', needPath sb target = .ok sb' ∧ Loads sb sb' ∧ Cached sb' In kids ∧
      (sb'.table target).pathmap = true ∧
      ∀ v, (sb.table v).pathmap = true → (sb'.table v).pathmap = true := by
  unfold needPath
  by_cases hflag : (sb.table target).pathmap = true
  · exact ⟨sb, if_pos hflag, .refl sb, hc, hflag, fun _ hv => hv⟩
  · obtain ⟨bits, hloop, hbits⟩ := pathLoop_spec h.tree hin (h.depth_lt hin) fun _ => false
    rw [if_neg hflag, bind_of_ok hloop]
    refine ⟨_, rfl, ⟨rfl, fun v => ?_⟩, ⟨fun v hv hvflag i => ?_, fun v hv hvflag => ?_, ?_⟩, ?_,
      fun v hv => ?_⟩
    all_goals dsimp only [VersionSb.modify] at *
    · by_cases heq : v = target
      · rw [heq, Function.update_self]
      · rw [Function.update_of_ne heq]
    · have hparent : getParent (VersionSb.modify { sb with
          pathmap := Function.update sb.pathmap target bits } target
          fun v => { v with pathmap := true }) = getParent sb := by
        funext u
        dsimp only [VersionSb.modify, getParent]
        by_cases heq : u = target
        · rw [heq, Function.update_self]
        · rw [Function.update_of_ne heq]
      dsimp only [VersionSb.modify] at hparent
      rw [hparent]
      by_cases heq : v = target
      · rw [heq, Function.update_self, hbits i]
        exact ⟨fun hor => hor.resolve_left Bool.false_ne_true, .inr⟩
      · rw [Function.update_of_ne heq] at hvflag ⊢
        exact hc.path v hv hvflag i
    · by_cases heq : v = target
      · rw [heq, Function.update_self] at hvflag
        rw [heq]
        exact hc.near target hin hvflag
      · rw [Function.update_of_ne heq] at hvflag
        exact hc.near v hv hvflag
    · by_cases heq : 0 = target
      · rw [← heq, Function.update_self]
        exact hc.origin
      · rw [Function.update_of_ne heq]
        exact hc.origin
    · rw [Function.update_self]
    · by_cases heq : v = target
      · rw [heq, Function.update_self]
      · rw [Function.update_of_ne heq]
        exact hv

theorem nearBits_spec (h : Shape sb In kids depth) (hin : In target) (i : Nat) :
    nearBits sb target i = true ↔ i = target ∨ i ∈ kids target := by
  have hfold (l : List Nat) (bits : Nat → Bool) :
      l.foldl (fun bits c => Function.update bits c true) bits i = true ↔
        bits i = true ∨ i ∈ l := by
    induction l generalizing bits with
    | nil => exact ⟨.inl, fun hor => hor.resolve_right List.not_mem_nil⟩
    | cons c l ih =>
        rw [List.foldl_cons, ih, List.mem_cons]
        by_cases heq : i = c
        · rw [heq, Function.update_self]
          exact ⟨fun _ => .inr (.inl rfl), fun _ => .inl rfl⟩
        · rw [Function.update_of_ne heq]
          exact or_congr_right ⟨.inr, fun hor => hor.resolve_left heq⟩
  have hread := hfold (kids target) fun _ => false
  rw [← h.read_kids hin, List.foldl_map] at hread
  unfold nearBits
  by_cases heq : i = target
  · rw [heq, Function.update_self]
    exact ⟨fun _ => .inl rfl, fun _ => rfl⟩
  · rw [Function.update_of_ne heq, hread, h.read_kids hin]
    exact ⟨fun hor => .inr (hor.resolve_left Bool.false_ne_true),
      fun hor => .inr (hor.resolve_left heq)⟩

/-- `count_near` leaves the near versions in the cache. -/
theorem needNear_spec (h : Shape sb In kids depth) (hc : Cached sb In kids) (hin : In target)
    (hne : target ≠ 0) : Loads sb (needNear sb target) ∧ Cached (needNear sb target) In kids ∧
      ∀ i, (needNear sb target).nearmap target i = true ↔ i = target ∨ i ∈ kids target := by
  unfold needNear
  by_cases hflag : (sb.table target).nearmap = true
  · rw [if_pos hflag]
    exact ⟨.refl sb, hc, hc.near target hin hflag⟩
  · rw [if_neg hflag]
    have hnear : ∀ i, nearBits sb target i = true ↔ i = target ∨ i ∈ kids target :=
      nearBits_spec h hin
    have hloads : Loads sb (VersionSb.modify { sb with
        nearmap := Function.update sb.nearmap target (nearBits sb target) } target
        fun v => { v with nearmap := true }) := by
      refine ⟨rfl, fun v => ?_⟩
      dsimp only [VersionSb.modify]
      by_cases heq : v = target
      · rw [heq, Function.update_self]
      · rw [Function.update_of_ne heq]
    have hparent := hloads.sameShape.getParent_eq
    refine ⟨hloads, ⟨fun v hv hvflag => ?_, fun v hv hvflag i => ?_, ?_⟩, fun i => ?_⟩
    · rw [hparent]
      refine hc.path v hv ?_
      dsimp only [VersionSb.modify] at hvflag
      by_cases heq : v = target
      · rw [heq, Function.update_self] at hvflag
        rw [heq]
        exact hvflag
      · rw [Function.update_of_ne heq] at hvflag
        exact hvflag
    · dsimp only [VersionSb.modify] at hvflag ⊢
      by_cases heq : v = target
      · rw [heq, Function.update_self]
        exact hnear i
      · rw [Function.update_of_ne heq] at hvflag ⊢
        exact hc.near v hv hvflag i
    · dsimp only [VersionSb.modify]
      rw [Function.update_of_ne hne.symm]
      exact hc.origin
    · dsimp only [VersionSb.modify]
      rw [Function.update_self]
      exact hnear i

end Caches

end Tux3.Versions
