/-
  Version/Snapshots.lean --- runs of the operations, as the snapshots see them.

  To its users the version table is an origin with a value, and snapshots with a tag and a value
  each.  A snapshot starts with the value of its source, and keeps it until it is written itself.
-/
import Tux3.Version.Delete

set_option autoImplicit false

namespace Tux3.Versions

open Outcome (Ensures bind_of_ok bind_of_error bind_eq_ok)
open ParentTree (IsTree OnPath ListsKids Inherits)

/-! ## What a version reads -/

/-- The rest of `snapshot_read`, once it has the version. -/
def readVersion (sb : VersionSb) (target : Nat) : Except TuxError (Nat × VersionSb) := do
  let (found, sb) ← lookupElement sb target
  match found.bind fun i => sb.elements[i]? with
  | some e => return (sb.snapdata e.chunk, sb)
  | none => return (sb.orgdata, sb)

/-- The data of the nearest element, or that of the origin. -/
def valueOf (sb : VersionSb) (v : Nat) : Nat :=
  dataOf sb (((nearestElement sb maxVersions v).bind fun i => sb.elements[i]?).map Element.chunk)

section Reading

variable {sb sb' : VersionSb} {In : Nat → Prop} {depth value : Nat → Nat} {n v u tag : Nat}

theorem snapshotRead_eq (sb : VersionSb) (tag : Nat) :
    snapshotRead sb tag = findTag sb tag >>= readVersion sb := rfl

/-- The nearest element is the one that a version inherits. -/
theorem nearestElement_has (h : IsTree 0 (getParent sb) In depth) (hok : ElementsOk sb.elements)
    (hin : In v) (hn : depth v < n) :
    Has sb sb.elements v
      (((nearestElement sb n v).bind fun i => sb.elements[i]?).map Element.chunk) := by
  induction n generalizing v with
  | zero => exact absurd hn (Nat.not_lt_zero _)
  | succ n ih =>
      rw [nearestElement]
      by_cases hv : v = 0
      · rw [if_pos hv, hv]
        exact .root
      · have hdepth := h.depth_eq v hin hv
        rw [if_neg hv]
        cases hown : chunkOf sb.elements v with
        | some c =>
            obtain ⟨i, a, b, hfind, heq, hi⟩ := findElement_spec hok hown
            rw [hfind]
            have hget : sb.elements[i]? = some ⟨v, c⟩ := by
              rw [heq, ← hi, List.getElem?_append_right (Nat.le_refl _), Nat.sub_self]
              rfl
            dsimp only [Option.bind_some]
            rw [hget]
            exact .own hv hown
        | none =>
            have hfind : findElement sb v = none := by
              refine List.findIdx?_eq_none_iff.2 fun e he => decide_eq_false fun heq => ?_
              exact chunkOf_eq_none.1 hown (List.mem_map.2 ⟨e, he, heq⟩)
            rw [hfind]
            exact .up hv hown (ih (h.parent_in v hin hv) (by omega))

/-- The snapshots have values, those that are read. -/
theorem SnapshotInv.values (h : SnapshotInv sb) : Values sb (valueOf sb) := by
  obtain ⟨kids, htree⟩ := h.tree
  exact fun v hv => ⟨_, nearestElement_has htree.shape.tree h.stored.ok hv.1
    (htree.shape.depth_lt hv.1), rfl⟩

theorem Values.valueOf_eq (hv : Values sb value) (h : SnapshotInv sb)
    (hvis : Visible sb (Used sb) v) : valueOf sb v = value v := by
  obtain ⟨x, hhas, hdata⟩ := hv v hvis
  obtain ⟨y, hhas', hdata'⟩ := h.values v hvis
  rw [← hdata, ← hdata', hhas.unique hhas']

/-- A version of the tree is read, which may fill its cache. -/
theorem readVersion_spec (h : SnapshotInv sb) (hv : Used sb v) :
    ∃ sb', readVersion sb v = .ok (valueOf sb v, sb') ∧ Loads sb sb' ∧ SnapshotInv sb' := by
  obtain ⟨kids, htree⟩ := h.tree
  obtain ⟨sb', hlookup, hloads, hcached⟩ := lookupElement_spec htree.shape htree.cached hv
  refine ⟨sb', ?_, hloads, h.loads hloads
    (h.toVersionInv.loads hloads (htree.loads hloads hcached))⟩
  have hsnap : sb'.snapdata = sb.snapdata := by rw [hloads.rest]
  have horg : sb'.orgdata = sb.orgdata := by rw [hloads.rest]
  unfold readVersion valueOf
  rw [bind_of_ok hlookup]
  dsimp only
  rw [hloads.elements, hsnap, horg]
  cases (nearestElement sb maxVersions v).bind fun i => sb.elements[i]? with
  | none => rfl
  | some e => rfl

end Reading

/-! ## Snapshots, as their users see them -/

/-- The origin has a value, and the snapshots have a tag and a value. -/
@[ext] structure Snapshots where
  origin : Nat
  snaps : Nat → Option (Nat × Nat)

/-- The origin is all that there is. -/
def Snapshots.start (data : Nat) : Snapshots := ⟨data, fun _ => none⟩

/-- The snapshot that the tag names: the first one that has it. -/
def Snapshots.Named (s : Snapshots) (tag v x : Nat) : Prop :=
  s.snaps v = some (tag, x) ∧ ∀ u, u < v → ∀ y, s.snaps u ≠ some (tag, y)

/-- The operations. -/
inductive SnapshotOp where
  | ofOrigin (tag : Nat)
  | ofSnapshot (tag parentTag : Nat)
  | write (tag data : Nat)
  | originWrite (data : Nat)
  | delete (tag : Nat)
  | read (tag : Nat)

/-- The tag that an operation has to find. -/
def SnapshotOp.names : SnapshotOp → Option Nat
  | ofOrigin _ => none
  | ofSnapshot _ parentTag => some parentTag
  | write tag _ => some tag
  | originWrite _ => none
  | delete tag => some tag
  | read tag => some tag

/-- What an operation does to the snapshots.  It may move the one that it writes. -/
inductive SnapshotStep (s : Snapshots) : SnapshotOp → Snapshots → Prop
  | ofOrigin {tag v : Nat} (hv : s.snaps v = none) :
      SnapshotStep s (.ofOrigin tag)
        { s with snaps := Function.update s.snaps v (some (tag, s.origin)) }
  | ofSnapshot {tag parentTag p x v : Nat} (hp : s.Named parentTag p x) (hv : s.snaps v = none) :
      SnapshotStep s (.ofSnapshot tag parentTag)
        { s with snaps := Function.update s.snaps v (some (tag, x)) }
  | write {tag data v x w : Nat} (hv : s.Named tag v x) (hw : w = v ∨ s.snaps w = none) :
      SnapshotStep s (.write tag data)
        { s with
          snaps := Function.update (Function.update s.snaps v none) w (some (tag, data)) }
  | originWrite {data : Nat} : SnapshotStep s (.originWrite data) { s with origin := data }
  | delete {tag v x : Nat} (hv : s.Named tag v x) :
      SnapshotStep s (.delete tag) { s with snaps := Function.update s.snaps v none }
  | read {tag v x : Nat} (hv : s.Named tag v x) : SnapshotStep s (.read tag) s

/-- A sequence of operations. -/
inductive SnapshotRun : Snapshots → List SnapshotOp → Snapshots → Prop
  | nil {s : Snapshots} : SnapshotRun s [] s
  | cons {s s' s'' : Snapshots} {op : SnapshotOp} {ops : List SnapshotOp}
      (hstep : SnapshotStep s op s') (h : SnapshotRun s' ops s'') : SnapshotRun s (op :: ops) s''

/-- The operation on the version table. -/
def SnapshotOp.run (sb : VersionSb) : SnapshotOp → Except TuxError VersionSb
  | ofOrigin tag => snapshotOfOrigin sb tag
  | ofSnapshot tag parentTag => snapshotOfSnapshot sb tag parentTag
  | write tag data => snapshotWrite sb tag data
  | originWrite data => Tux3.Versions.originWrite sb data
  | delete tag => snapshotDelete sb tag
  | read tag => do
      let (_, sb) ← snapshotRead sb tag
      return sb

/-- The operations, on a table that has just the origin. -/
def runSnapshots (ops : List SnapshotOp) : Except TuxError VersionSb := do
  let (_, sb) ← newVersion zeroSb 65535 0
  ops.foldlM SnapshotOp.run sb

/-! ## One operation -/

/-- The snapshots of a version table, where these are their values. -/
def snapshotsWith (sb : VersionSb) (value : Nat → Nat) : Snapshots where
  origin := value 0
  snaps := fun v =>
    if v ≠ 0 ∧ Used sb v ∧ isGhost sb v = false then some ((sb.table v).tag, value v) else none

/-- The snapshots of a version table. -/
def snapshotsOf (sb : VersionSb) : Snapshots := snapshotsWith sb (valueOf sb)

section Steps

variable {sb sb' : VersionSb} {value value' : Nat → Nat} {v t w x data tag parentTag : Nat}

theorem snapshotsWith_snaps :
    (snapshotsWith sb value).snaps v = some (tag, x) ↔
      v ≠ 0 ∧ Visible sb (Used sb) v ∧ (sb.table v).tag = tag ∧ value v = x := by
  unfold snapshotsWith Visible
  dsimp only
  split
  · next hvis =>
      rw [Option.some_inj, Prod.mk.injEq]
      exact ⟨fun hand => ⟨hvis.1, hvis.2, hand⟩, fun hand => hand.2.2⟩
  · next hvis => exact iff_of_false nofun fun hand => hvis ⟨hand.1, hand.2.1⟩

theorem snapshotsWith_none (hv : ¬ Visible sb (Used sb) v) :
    (snapshotsWith sb value).snaps v = none := if_neg fun hand => hv hand.2

theorem Values.snapshotsOf_eq (hv : Values sb value) (h : SnapshotInv sb) :
    snapshotsOf sb = snapshotsWith sb value := by
  have h0 : Visible sb (Used sb) 0 := by
    obtain ⟨kids, htree⟩ := h.tree
    exact ⟨htree.shape.tree.root_in, h.origin⟩
  refine Snapshots.ext (hv.valueOf_eq h h0) (funext fun v => ?_)
  unfold snapshotsOf snapshotsWith
  dsimp only
  split
  · next hvis => rw [hv.valueOf_eq h hvis.2]
  · rfl

/-- `find_tag` finds the first snapshot that has the tag. -/
theorem findTag_named (h : SnapshotInv sb) (hfind : findTag sb tag = .ok v) :
    (snapshotsOf sb).Named tag v (valueOf sb v) := by
  obtain ⟨hv0, hused, hghost, htag⟩ := findTag_spec h.toVersionInv hfind
  refine ⟨snapshotsWith_snaps.2 ⟨hv0, ⟨hused, hghost⟩, htag, rfl⟩, fun u hu y hsnap => ?_⟩
  obtain ⟨hu0, huvis, hutag, -⟩ := snapshotsWith_snaps.1 hsnap
  unfold findTag at hfind
  split at hfind
  · next w hfound =>
      obtain rfl := Except.ok.inj hfind
      obtain ⟨-, -, hfirst⟩ := List.find?_range'_eq_some.1 hfound
      have hskip := hfirst u (Nat.pos_of_ne_zero hu0) hu
      rw [huvis.2, hutag] at hskip
      simp at hskip
  · cases hfind

/-- `find_tag` finds the tag of every snapshot. -/
theorem findTag_ok (h : SnapshotInv sb) (hsnap : (snapshotsOf sb).snaps v = some (tag, x)) :
    ∃ t, findTag sb tag = .ok t := by
  obtain ⟨kids, htree⟩ := h.tree
  obtain ⟨hv0, hvis, htag, -⟩ := snapshotsWith_snaps.1 hsnap
  have hlt := htree.shape.in_lt v hvis.1
  unfold findTag
  split
  · next t _ => exact ⟨t, rfl⟩
  · next hnone =>
      have hskip := List.find?_eq_none.1 hnone v (List.mem_range'_1.2
        ⟨Nat.pos_of_ne_zero hv0, by omega⟩)
      rw [hvis.2, htag] at hskip
      simp at hskip

theorem snapshotsWith_some (hv0 : v ≠ 0) (hv : Visible sb (Used sb) v) :
    (snapshotsWith sb value).snaps v = some ((sb.table v).tag, value v) := if_pos ⟨hv0, hv⟩

/-- A version that is left alone. -/
theorem snapshotsWith_congr (hvis : Visible sb' (Used sb') v ↔ Visible sb (Used sb) v)
    (htag : (sb'.table v).tag = (sb.table v).tag) (hval : value' v = value v) :
    (snapshotsWith sb' value').snaps v = (snapshotsWith sb value).snaps v := by
  unfold snapshotsWith
  dsimp only
  rw [htag, hval]
  exact if_congr (and_congr_right fun _ => hvis) rfl rfl

/-- Another numbering of the tree. -/
theorem Grown.reorder {parent child : Nat} (hg : Grown sb sb' tag parent child)
    (ordmap : Nat → Nat) : Grown sb { sb' with ordmap } tag parent child :=
  ⟨hg.ne_zero, hg.unused, hg.used, hg.ghost, hg.tags, hg.present, hg.child_eq, hg.count_le,
    hg.fresh, hg.has, hg.has_child, hg.elements, hg.snapdata, hg.orgdata, hg.allocmap, hg.nextchunk⟩

/-- The new version is a snapshot with the value of its parent. -/
theorem Grown.snapshots {parent child : Nat} (hg : Grown sb sb' tag parent child)
    (h : SnapshotInv sb) (h' : SnapshotInv sb') (hp : Visible sb (Used sb) parent) :
    (snapshotsOf sb).snaps child = none ∧
      snapshotsOf sb' = { snapshotsOf sb with
        snaps := Function.update (snapshotsOf sb).snaps child
          (some (tag, valueOf sb parent)) } := by
  have hchild := hg.visible_iff.2 (.inr rfl : Visible sb (Used sb) child ∨ child = child)
  refine ⟨snapshotsWith_none fun hvis => hg.unused hvis.1, ?_⟩
  rw [(hg.values h.values hp).snapshotsOf_eq h']
  refine Snapshots.ext (Function.update_of_ne hg.ne_zero.symm _ _) (funext fun v => ?_)
  dsimp only
  by_cases hv : v = child
  · rw [hv, Function.update_self, snapshotsWith_some hg.ne_zero hchild, hg.child_eq.2.1,
      Function.update_self]
  · rw [Function.update_of_ne hv]
    refine snapshotsWith_congr ?_ (hg.tags v hv) (Function.update_of_ne hv _ _)
    rw [hg.visible_iff]
    exact ⟨fun hor => hor.resolve_right hv, .inl⟩

/-- A snapshot of the origin. -/
theorem snapshotOfOrigin_spec (h : SnapshotInv sb) (tag : Nat) :
    Ensures (AtLimit sb) (snapshotOfOrigin sb tag) fun sb' =>
      SnapshotInv sb' ∧ SnapshotStep (snapshotsOf sb) (.ofOrigin tag) (snapshotsOf sb') := by
  obtain ⟨kids, htree⟩ := h.tree
  have h0 : Visible sb (Used sb) 0 := ⟨htree.shape.tree.root_in, h.origin⟩
  have hstep {sb' : VersionSb} {child : Nat} (hg : Grown sb sb' tag 0 child)
      (hinv : VersionInv sb') :
      SnapshotInv sb' ∧ SnapshotStep (snapshotsOf sb) (.ofOrigin tag) (snapshotsOf sb') := by
    obtain ⟨hnone, heq⟩ := hg.snapshots h (hg.inv h hinv) h0
    refine ⟨hg.inv h hinv, ?_⟩
    rw [heq]
    exact .ofOrigin hnone
  by_cases hroom : TableFull sb
  · exact .error (bind_of_error (newVersion_full htree hroom 0 tag)) (.inl ⟨rfl, hroom⟩)
  by_cases hempty : sb.childCount 0 = 0
  · obtain ⟨root, sb1, sb', hnew, -, hinsert, hinv, hg, -⟩ :=
      newLeaf_ok h h0.1 (fun _ => hempty) hroom tag
    have hcount : sb1.childCount 0 = 0 := by
      rw [(newVersion_spec htree hnew).1.rest]
      exact hempty
    refine .ok ?_ (hstep hg hinv)
    refine (bind_of_ok hnew).trans ?_
    dsimp only
    rw [if_pos hcount]
    exact hinsert
  · obtain ⟨root, sb1, sb2, sb3, sb', hnew, hinsert, hinvalid, horder, hg⟩ :=
      newTop_ok h hempty hroom tag
    have hcount : sb1.childCount 0 ≠ 0 := by
      rw [(newVersion_spec htree hnew).1.rest]
      exact hempty
    have hop : snapshotOfOrigin sb tag = .ok sb' := by
      refine (bind_of_ok hnew).trans ?_
      dsimp only
      rw [if_neg hcount, bind_of_ok hinsert, bind_of_ok hinvalid]
      exact horder
    exact .ok hop (hstep hg (snapshotOfOrigin_inv h.toVersionInv hop))

/-- A snapshot of a snapshot. -/
theorem snapshotOfSnapshot_spec (h : SnapshotInv sb) (hfind : findTag sb parentTag = .ok t)
    (tag : Nat) :
    Ensures (AtLimit sb) (snapshotOfSnapshot sb tag parentTag) fun sb' => SnapshotInv sb' ∧
      SnapshotStep (snapshotsOf sb) (.ofSnapshot tag parentTag) (snapshotsOf sb') := by
  obtain ⟨kids, htree⟩ := h.tree
  obtain ⟨ht0, htused, htghost, -⟩ := findTag_spec h.toVersionInv hfind
  unfold snapshotOfSnapshot
  rw [bind_of_ok hfind]
  by_cases hroom : TableFull sb
  · exact .error (bind_of_error (newVersion_full htree hroom t tag)) (.inl ⟨rfl, hroom⟩)
  obtain ⟨child, sb1, sb2, hnew, hempty, hinsert, hinv, hg, -⟩ :=
    newLeaf_ok h htused (fun heq => absurd heq ht0) hroom tag
  obtain ⟨kids2, htree2⟩ := hinv.tree
  have hchild := (hg.used child).2 (.inr rfl)
  obtain ⟨sb', horder⟩ := htree2.shape.orderRoot_ok hchild hg.ne_zero
  obtain ⟨hinv', ordmap, rfl⟩ := hinv.reorder horder
  have hg' := hg.reorder ordmap
  obtain ⟨hnone, heq⟩ := hg'.snapshots h (hg'.inv h hinv') ⟨htused, htghost⟩
  refine .ok ?_ ⟨hg'.inv h hinv', ?_⟩
  · refine (bind_of_ok hnew).trans ((bind_of_ok (tuxAssert_of hempty)).trans ?_)
    exact (bind_of_ok hinsert).trans horder
  · rw [heq]
    exact .ofSnapshot (findTag_named h hfind) hnone

theorem snapshotWrite_step (h : SnapshotInv sb) (hfind : findTag sb tag = .ok t) (data : Nat) :
    Ensures (AtLimit sb) (snapshotWrite sb tag data) fun sb' =>
      SnapshotInv sb' ∧ SnapshotStep (snapshotsOf sb) (.write tag data) (snapshotsOf sb') := by
  refine (snapshotWrite_spec h h.values hfind data).mono fun sb' hpost => ?_
  obtain ⟨h', w, value', hm, hv', hdata, hsame⟩ := hpost
  obtain ⟨ht0, htused, htghost, -⟩ := findTag_spec h.toVersionInv hfind
  have hw := (hm.visible w).2 (.inr rfl)
  have heq : snapshotsOf sb' = { snapshotsOf sb with
      snaps := Function.update (Function.update (snapshotsOf sb).snaps t none) w
        (some (tag, data)) } := by
    rw [hv'.snapshotsOf_eq h']
    refine Snapshots.ext (hsame 0 hm.ne_zero.symm) (funext fun v => ?_)
    dsimp only
    by_cases hvw : v = w
    · rw [hvw, Function.update_self, snapshotsWith_some hm.ne_zero hw, hm.tag_eq, hdata]
    rw [Function.update_of_ne hvw]
    by_cases hvt : v = t
    · rw [hvt, Function.update_self]
      refine snapshotsWith_none fun hvis => ?_
      exact ((hm.visible t).1 hvis).elim (fun hand => hand.2 rfl) fun htw => hvw (hvt.trans htw)
    · rw [Function.update_of_ne hvt]
      refine snapshotsWith_congr ?_ (hm.tags v hvw) (hsame v hvw)
      rw [hm.visible]
      exact ⟨fun hor => (hor.resolve_right hvw).1, fun hvis => .inl ⟨hvis, hvt⟩⟩
  refine ⟨h', ?_⟩
  rw [heq]
  exact .write (findTag_named h hfind)
    (hm.fresh.imp_right fun hnot => snapshotsWith_none fun hvis => hnot hvis.1)

theorem originWrite_step (h : SnapshotInv sb) (data : Nat) :
    Ensures (AtLimit sb) (originWrite sb data) fun sb' =>
      SnapshotInv sb' ∧ SnapshotStep (snapshotsOf sb) (.originWrite data) (snapshotsOf sb') := by
  refine (originWrite_spec h h.values data).mono fun sb' hpost => ?_
  obtain ⟨h', hedit, hv'⟩ := hpost
  have heq : snapshotsOf sb' = { snapshotsOf sb with origin := data } := by
    rw [hv'.snapshotsOf_eq h']
    have h0 : Function.update (valueOf sb) 0 data 0 = data := Function.update_self _ _ _
    refine Snapshots.ext h0 (funext fun v => ?_)
    by_cases hv0 : v = 0
    · rw [hv0]
      rfl
    · exact snapshotsWith_congr hedit.visible_iff (by rw [hedit.table v])
        (Function.update_of_ne hv0 _ _)
  refine ⟨h', ?_⟩
  rw [heq]
  exact .originWrite

theorem snapshotDelete_step (h : SnapshotInv sb) (hfind : findTag sb tag = .ok t) :
    ∃ sb', snapshotDelete sb tag = .ok sb' ∧ SnapshotInv sb' ∧
      SnapshotStep (snapshotsOf sb) (.delete tag) (snapshotsOf sb') := by
  obtain ⟨sb', hop, hd⟩ := snapshotDelete_ok h h.values hfind
  have heq : snapshotsOf sb' = { snapshotsOf sb with
      snaps := Function.update (snapshotsOf sb).snaps t none } := by
    rw [hd.values.snapshotsOf_eq hd.inv]
    refine Snapshots.ext rfl (funext fun v => ?_)
    dsimp only
    by_cases hvt : v = t
    · rw [hvt, Function.update_self]
      exact snapshotsWith_none fun hvis => ((hd.visible t).1 hvis).2 rfl
    · rw [Function.update_of_ne hvt]
      refine snapshotsWith_congr ?_ (hd.tags v hvt) rfl
      rw [hd.visible]
      exact ⟨fun hand => hand.1, fun hvis => ⟨hvis, hvt⟩⟩
  refine ⟨sb', hop, hd.inv, ?_⟩
  rw [heq]
  exact .delete (findTag_named h hfind)

/-- Caches that are filled do not change the snapshots. -/
theorem Loads.snapshots (hloads : Loads sb sb') (h : SnapshotInv sb) (h' : SnapshotInv sb') :
    snapshotsOf sb' = snapshotsOf sb := by
  rw [(h.values.loads hloads).snapshotsOf_eq h']
  refine Snapshots.ext rfl (funext fun v => ?_)
  exact snapshotsWith_congr hloads.visible_iff (by rw [hloads.table v]) rfl

/-- `snapshot_read` returns the value of the snapshot. -/
theorem snapshotRead_step (h : SnapshotInv sb) (hfind : findTag sb tag = .ok t) :
    ∃ sb', snapshotRead sb tag = .ok (valueOf sb t, sb') ∧ SnapshotInv sb' ∧
      snapshotsOf sb' = snapshotsOf sb := by
  obtain ⟨-, hused, -⟩ := findTag_spec h.toVersionInv hfind
  obtain ⟨sb', hread, hloads, h'⟩ := readVersion_spec h hused
  refine ⟨sb', ?_, h', hloads.snapshots h h'⟩
  rw [snapshotRead_eq, bind_of_ok hfind]
  exact hread

/-- Every operation that finds its snapshot does what it should, unless a limit is reached. -/
theorem SnapshotOp.run_spec (h : SnapshotInv sb) (op : SnapshotOp)
    (hfind : ∀ tag, op.names = some tag → ∃ t, findTag sb tag = .ok t) :
    Ensures (AtLimit sb) (op.run sb) fun sb' =>
      SnapshotInv sb' ∧ SnapshotStep (snapshotsOf sb) op (snapshotsOf sb') := by
  cases op with
  | ofOrigin tag => exact snapshotOfOrigin_spec h tag
  | ofSnapshot tag parentTag =>
      obtain ⟨t, ht⟩ := hfind parentTag rfl
      exact snapshotOfSnapshot_spec h ht tag
  | write tag data =>
      obtain ⟨t, ht⟩ := hfind tag rfl
      exact snapshotWrite_step h ht data
  | originWrite data => exact originWrite_step h data
  | delete tag =>
      obtain ⟨t, ht⟩ := hfind tag rfl
      obtain ⟨sb', hop, hpost⟩ := snapshotDelete_step h ht
      exact .ok hop hpost
  | read tag =>
      obtain ⟨t, ht⟩ := hfind tag rfl
      obtain ⟨sb', hop, h', heq⟩ := snapshotRead_step h ht
      refine .ok (bind_of_ok hop) ⟨h', ?_⟩
      rw [heq]
      exact .read (findTag_named h ht)

/-- An operation that succeeds has found its snapshot. -/
theorem SnapshotOp.names_found {op : SnapshotOp} (hop : op.run sb = .ok sb')
    (hnames : op.names = some tag) : ∃ t, findTag sb tag = .ok t := by
  cases op with
  | ofOrigin _ => cases hnames
  | originWrite _ => cases hnames
  | read _ =>
      obtain rfl := Option.some.inj hnames
      obtain ⟨r, hread, -⟩ := bind_eq_ok.1 hop
      obtain ⟨t, ht, -⟩ := bind_eq_ok.1 hread
      exact ⟨t, ht⟩
  | _ =>
      obtain rfl := Option.some.inj hnames
      obtain ⟨t, ht, -⟩ := bind_eq_ok.1 hop
      exact ⟨t, ht⟩

end Steps

/-! ## Runs -/

/-- The version table holds these snapshots: their versions read their values, and `snapshot_read`
does so by the tag. -/
structure Represents (sb : VersionSb) (s : Snapshots) : Prop where
  origin : sb.orgdata = s.origin
  reads : ∀ v tag x, s.snaps v = some (tag, x) ↔ v ≠ 0 ∧ Visible sb (Used sb) v ∧
    (sb.table v).tag = tag ∧ ∃ sb', readVersion sb v = .ok (x, sb')
  named : ∀ tag v x, s.Named tag v x → ∃ sb', snapshotRead sb tag = .ok (x, sb')

section Runs

variable {sb sb' : VersionSb} {v : Nat}

theorem SnapshotInv.represents (h : SnapshotInv sb) : Represents sb (snapshotsOf sb) := by
  obtain ⟨kids, htree⟩ := h.tree
  refine ⟨?_, fun v tag x => ?_, fun tag v x hnamed => ?_⟩
  · have h0 := nearestElement_has (n := maxVersions) htree.shape.tree h.stored.ok
      htree.shape.tree.root_in (htree.shape.depth_lt htree.shape.tree.root_in)
    show sb.orgdata = valueOf sb 0
    unfold valueOf
    rw [h0.root_eq]
    rfl
  · refine snapshotsWith_snaps.trans (and_congr_right fun _ => and_congr_right fun hvis =>
      and_congr_right fun _ => ?_)
    obtain ⟨sb1, hread, -⟩ := readVersion_spec h hvis.1
    constructor
    · rintro rfl
      exact ⟨sb1, hread⟩
    · rintro ⟨sb2, hread'⟩
      exact (Prod.mk.inj (Except.ok.inj (hread.symm.trans hread'))).1
  · obtain ⟨t, hfind⟩ := findTag_ok h hnamed.1
    obtain ⟨hsnap, hfirst⟩ := findTag_named h hfind
    obtain rfl : t = v := by
      rcases Nat.lt_trichotomy t v with hlt | heq | hgt
      · exact absurd hsnap (hnamed.2 t hlt _)
      · exact heq
      · exact absurd hnamed.1 (hfirst v hgt _)
    obtain ⟨sb', hread, -⟩ := snapshotRead_step h hfind
    have hx := hsnap.symm.trans hnamed.1
    rw [Option.some_inj, Prod.mk.injEq] at hx
    exact ⟨sb', hx.2 ▸ hread⟩

theorem originSb_snapshotInv : SnapshotInv originSb := by
  refine ⟨originSb_inv, fun _ _ => rfl, rfl, fun v hv hg => ?_, ⟨⟨List.nodup_nil, List.nodup_nil⟩,
    fun c => iff_of_false Bool.false_ne_true List.not_mem_nil, fun c hc => ?_, Nat.zero_le _⟩,
    fun e he => absurd he List.not_mem_nil, fun v => ?_, fun e he => absurd he List.not_mem_nil⟩
  · rw [originSb_used.1 hv] at hg
    cases hg
  · cases hc
  · unfold isPresent originSb
    dsimp only
    by_cases hv : v = 0
    · rw [hv, Function.update_self]
      rfl
    · rw [Function.update_of_ne hv]
      rfl

theorem originSb_snapshots : snapshotsOf originSb = .start 0x1234 := by
  refine Snapshots.ext rfl (funext fun v => ?_)
  by_cases hv : v = 0
  · rw [hv]
    rfl
  · exact snapshotsWith_none fun hvis => hv (originSb_used.1 hvis.1)

/-- One operation keeps the table as it should be. -/
theorem SnapshotOp.run_inv (op : SnapshotOp) (h : SnapshotInv sb) (hop : op.run sb = .ok sb') :
    SnapshotInv sb' ∧ SnapshotStep (snapshotsOf sb) op (snapshotsOf sb') :=
  (op.run_spec h fun _ => op.names_found hop).of_ok hop

/-- So do all of them. -/
theorem foldSnapshots_inv (h : SnapshotInv sb) {ops : List SnapshotOp}
    (hrun : ops.foldlM SnapshotOp.run sb = .ok sb') :
    SnapshotInv sb' ∧ SnapshotRun (snapshotsOf sb) ops (snapshotsOf sb') := by
  induction ops generalizing sb with
  | nil =>
      obtain rfl := Except.ok.inj hrun
      exact ⟨h, .nil⟩
  | cons op ops ih =>
      rw [List.foldlM_cons] at hrun
      obtain ⟨sb1, hop, hrun⟩ := bind_eq_ok.1 hrun
      obtain ⟨h1, hstep⟩ := op.run_inv h hop
      obtain ⟨h', hrest⟩ := ih h1 hrun
      exact ⟨h', .cons hstep hrest⟩

/-- The operations do to the version table what they do to the snapshots, and fail at the limits
only. -/
theorem runSnapshots_refines {ops : List SnapshotOp} (hrun : runSnapshots ops = .ok sb) :
    ∃ s, SnapshotRun (.start 0x1234) ops s ∧ Represents sb s ∧
      ∀ op : SnapshotOp, (∀ tag, op.names = some tag → ∃ v x, s.snaps v = some (tag, x)) →
        ∀ e, op.run sb = .error e → AtLimit sb e := by
  unfold runSnapshots at hrun
  rw [newVersion_origin] at hrun
  obtain ⟨h, hsnaps⟩ := foldSnapshots_inv originSb_snapshotInv hrun
  rw [originSb_snapshots] at hsnaps
  refine ⟨snapshotsOf sb, hsnaps, h.represents, fun op hlive e herr => ?_⟩
  have hspec := op.run_spec h fun tag hnames => by
    obtain ⟨v, x, hsnap⟩ := hlive tag hnames
    exact findTag_ok h hsnap
  rw [herr] at hspec
  exact hspec

/-- The origin and then the snapshot of it are written, and the snapshot is deleted; another one
of it keeps what it had. -/
theorem runSnapshots_refines_sharing : ∃ sb s sb', SnapshotRun (.start 0x1234)
    [.ofOrigin 1001, .originWrite 5, .ofSnapshot 1002 1001, .write 1001 7, .delete 1001] s ∧
    Represents sb s ∧ snapshotRead sb 1002 = .ok (0x1234, sb') := by
  have hrun : (do
      let sb ← runSnapshots
        [.ofOrigin 1001, .originWrite 5, .ofSnapshot 1002 1001, .write 1001 7, .delete 1001]
      let (x, _) ← snapshotRead sb 1002
      return x) = .ok 0x1234 := by decide +kernel
  obtain ⟨sb, hrun, hread⟩ := bind_eq_ok.1 hrun
  obtain ⟨⟨x, sb'⟩, hread, hx⟩ := bind_eq_ok.1 hread
  obtain rfl := Except.ok.inj hx
  obtain ⟨s, hsnaps, hrep, -⟩ := runSnapshots_refines hrun
  exact ⟨sb, s, sb', hsnaps, hrep, hread⟩

/-! ## The table in every state -/

/-- The version table is as it should be, in terms of what it holds. -/
structure TableRight (sb : VersionSb) : Prop where
  tree : ∃ depth, IsTree 0 (getParent sb) (Used sb) depth
  one : sb.childCount 0 ≤ 1
  start : 0 < sb.versionCount ∧ sb.childIndex 0 = 0
  next : ∀ v, v + 1 < sb.versionCount → sb.childIndex (v + 1) = sb.childIndex v + sb.childCount v
  used_lt : ∀ v, Used sb v → v < sb.versionCount
  unused : ∀ v, ¬ Used sb v → sb.childCount v = 0
  children : ∀ v, Used sb v → ((List.range (sb.childCount v)).map (getChild sb v)).Nodup ∧
    ∀ c, c ∈ (List.range (sb.childCount v)).map (getChild sb v) ↔
      c ≠ 0 ∧ Used sb c ∧ getParent sb c = v
  forks : ∀ v, Used sb v → isGhost sb v = true → 2 ≤ sb.childCount v
  labels : (sb.elements.map Element.label).Nodup ∧ ∀ e ∈ sb.elements, e.label ≠ 0 ∧ Used sb e.label
  heirs : ∀ e ∈ sb.elements, isGhost sb e.label = true → ∃ u i sb', Used sb u ∧
    isGhost sb u = false ∧ lookupElement sb u = .ok (some i, sb') ∧ sb.elements[i]? = some e
  chunks : (sb.elements.map Element.chunk).Nodup ∧
    ∀ c, sb.allocmap c = true ↔ c ∈ sb.elements.map Element.chunk
  clear : ∀ v, isPresent sb v = false

theorem SnapshotInv.right (h : SnapshotInv sb) : TableRight sb := by
  obtain ⟨kids, htree⟩ := h.tree
  have hshape := htree.shape
  refine ⟨⟨_, hshape.tree⟩, ?_, ⟨?_, ?_⟩, fun v hv => ?_, hshape.in_lt, fun v hv => ?_,
    fun v hv => ?_, h.forks, ⟨h.stored.ok.labels, h.labels⟩, fun e he hg => ?_,
    ⟨h.stored.ok.chunks, h.stored.alloc⟩, h.clear⟩
  · rw [hshape.count_eq hshape.tree.root_in]
    exact hshape.one
  · exact hshape.in_lt 0 hshape.tree.root_in
  · rw [hshape.packs.start_eq 0 (hshape.in_lt 0 hshape.tree.root_in)]
    rfl
  · have hv' := Nat.lt_of_succ_lt hv
    rw [hshape.packs.start_eq _ hv, hshape.packs.start_eq v hv', hshape.packs.count_eq v hv',
      Packed.offset_succ]
  · by_cases hlt : v < sb.versionCount
    · rw [hshape.packs.count_eq v hlt, hshape.kids_nil hv]
      rfl
    · exact h.fresh v (Nat.le_of_not_lt hlt)
  · have hread := hshape.read_kids hv
    rw [hread]
    exact ⟨hshape.lists.nodup v, hshape.lists.mem v⟩
  · obtain ⟨u, hu, hhas⟩ := h.heirs e he hg
    obtain ⟨sb', hlookup, -⟩ := lookupElement_spec hshape htree.cached hu.1
    have hnear := nearestElement_has (n := maxVersions) hshape.tree h.stored.ok hu.1
      (hshape.depth_lt hu.1)
    have heq := hnear.unique hhas
    obtain ⟨e', hbind, hchunk⟩ := Option.map_eq_some_iff.1 heq
    obtain ⟨i, hi, hget⟩ := Option.bind_eq_some_iff.1 hbind
    obtain rfl : e' = e := List.inj_on_of_nodup_map h.stored.ok.chunks
      (List.mem_of_getElem? hget) he hchunk
    rw [hi] at hlookup
    exact ⟨u, i, sb', hu.1, hu.2, hlookup, hget⟩

theorem VersionStep.snapshotInv (h : SnapshotInv sb) (hstep : VersionStep sb sb') :
    SnapshotInv sb' := by
  cases hstep with
  | ofOrigin hop => exact (SnapshotOp.run_inv (.ofOrigin _) h hop).1
  | ofSnapshot hop => exact (SnapshotOp.run_inv (.ofSnapshot _ _) h hop).1
  | write hop => exact (SnapshotOp.run_inv (.write _ _) h hop).1
  | originWrite hop => exact (SnapshotOp.run_inv (.originWrite _) h hop).1
  | delete hop => exact (SnapshotOp.run_inv (.delete _) h hop).1
  | read hop => exact (SnapshotOp.run_inv (.read _) h (bind_of_ok hop)).1
  | lookup hv hop =>
      obtain ⟨kids, htree⟩ := h.tree
      obtain ⟨sb1, hlookup, hloads, -⟩ := lookupElement_spec htree.shape htree.cached hv
      obtain ⟨-, rfl⟩ := Prod.mk.inj (Except.ok.inj (hlookup.symm.trans hop))
      exact h.loads hloads (lookupElement_inv h.toVersionInv hv hop)
  | same h1 h2 hop =>
      obtain ⟨kids, htree⟩ := h.tree
      obtain ⟨sb1, hsame, hloads, -⟩ := sameChunk_spec htree.shape htree.cached h1 h2
      obtain ⟨-, rfl⟩ := Prod.mk.inj (Except.ok.inj (hsame.symm.trans hop))
      exact h.loads hloads (sameChunk_inv h.toVersionInv h1 h2 hop)

/-- In every state that the operations lead to the version table is right. -/
theorem versionSystem_right (h : versionSystem.Reachable sb) : TableRight sb := by
  have hinv : SnapshotInv sb := by
    refine h.invariant (fun sb hinit => ?_) fun _ _ => VersionStep.snapshotInv
    obtain ⟨-, rfl⟩ := Prod.mk.inj (Except.ok.inj (newVersion_origin.symm.trans hinit))
    exact originSb_snapshotInv
  exact hinv.right

/-- A snapshot that has two children is deleted, and its element stays for the heirs. -/
theorem versionSystem_right_ghost : ∃ sb, versionSystem.Reachable sb ∧ isGhost sb 1 = true ∧
    sb.elements = [⟨1, 0⟩] ∧ TableRight sb := by
  have hrun : (do
      let sb1 ← snapshotOfOrigin originSb 1001
      let sb2 ← originWrite sb1 5
      let sb3 ← snapshotOfSnapshot sb2 1002 1001
      let sb4 ← snapshotOfSnapshot sb3 1003 1001
      let sb5 ← snapshotDelete sb4 1001
      return (isGhost sb5 1, sb5.elements)) = .ok (true, [⟨1, 0⟩]) := by decide +kernel
  obtain ⟨sb1, h1, hrun⟩ := bind_eq_ok.1 hrun
  obtain ⟨sb2, h2, hrun⟩ := bind_eq_ok.1 hrun
  obtain ⟨sb3, h3, hrun⟩ := bind_eq_ok.1 hrun
  obtain ⟨sb4, h4, hrun⟩ := bind_eq_ok.1 hrun
  obtain ⟨sb5, h5, hrun⟩ := bind_eq_ok.1 hrun
  obtain ⟨hghost, helements⟩ := Prod.mk.inj (Except.ok.inj hrun)
  have hreach : versionSystem.Reachable sb5 :=
    .next (.next (.next (.next (.next (.init newVersion_origin) (.ofOrigin h1)) (.originWrite h2))
      (.ofSnapshot h3)) (.ofSnapshot h4)) (.delete h5)
  exact ⟨sb5, hreach, hghost, helements, versionSystem_right hreach⟩

end Runs

end Tux3.Versions
