/-
  Version/Values.lean --- what the snapshots read.

  A version reads the chunk that it inherits, or the origin.  In a state of the version table that
  is as it should be, ghosts fork and their elements have heirs, the elements and the chunks in use
  agree, and no present flag is set.
-/
import Tux3.Version.Prune
import Tux3.Version.Total

set_option autoImplicit false

namespace Tux3.Versions

open Outcome (bind_of_ok bind_eq_ok)
open ParentTree (IsTree OnPath ListsKids Inherits Heir heir_iff heir_root_iff)

/-- The data of a chunk, or that of the origin. -/
def dataOf (sb : VersionSb) : Option Nat → Nat
  | none => sb.orgdata
  | some chunk => sb.snapdata chunk

/-- The version table between two operations. -/
structure SnapshotInv (sb : VersionSb) : Prop extends VersionInv sb where
  fresh : ∀ v, sb.versionCount ≤ v → sb.childCount v = 0
  origin : isGhost sb 0 = false
  forks : ∀ v, Used sb v → isGhost sb v = true → 2 ≤ sb.childCount v
  stored : Stored sb sb.elements
  labels : ∀ e ∈ sb.elements, e.label ≠ 0 ∧ Used sb e.label
  clear : ∀ v, isPresent sb v = false
  heirs : ∀ e ∈ sb.elements, isGhost sb e.label = true →
    ∃ u, Visible sb (Used sb) u ∧ Has sb sb.elements u (some e.chunk)

/-- These are the values of the snapshots, and of the origin. -/
def Values (sb : VersionSb) (value : Nat → Nat) : Prop :=
  ∀ v, Visible sb (Used sb) v → ∃ x, Has sb sb.elements v x ∧ dataOf sb x = value v

/-! ## A new version -/

/-- The tree got another version, which owns nothing and has what `parent` has. -/
structure Grown (sb sb' : VersionSb) (tag parent child : Nat) : Prop where
  ne_zero : child ≠ 0
  unused : ¬ Used sb child
  used : ∀ v, Used sb' v ↔ Used sb v ∨ v = child
  ghost : ∀ v, v ≠ child → isGhost sb' v = isGhost sb v
  tags : ∀ v, v ≠ child → (sb'.table v).tag = (sb.table v).tag
  present : ∀ v, v ≠ child → isPresent sb' v = isPresent sb v
  child_eq : isGhost sb' child = false ∧ (sb'.table child).tag = tag ∧ isPresent sb' child = false
  count_le : ∀ v, sb.childCount v ≤ sb'.childCount v
  fresh : ∀ v, sb'.versionCount ≤ v → sb.versionCount ≤ v ∧ sb'.childCount v = sb.childCount v
  has : ∀ v x, Used sb v → Has sb sb.elements v x → Has sb' sb.elements v x
  has_child : ∀ x, Has sb sb.elements parent x → Has sb' sb.elements child x
  elements : sb'.elements = sb.elements
  snapdata : sb'.snapdata = sb.snapdata
  orgdata : sb'.orgdata = sb.orgdata
  allocmap : sb'.allocmap = sb.allocmap
  nextchunk : sb'.nextchunk = sb.nextchunk

section Growing

variable {sb sb' : VersionSb} {tag parent child v : Nat} {value : Nat → Nat}

theorem SnapshotInv.unowned (h : SnapshotInv sb) (hv : ¬ Used sb v) :
    chunkOf sb.elements v = none := by
  rw [chunkOf_eq_none]
  intro hin
  obtain ⟨e, he, rfl⟩ := List.mem_map.1 hin
  exact hv (h.labels e he).2

theorem Grown.visible (hg : Grown sb sb' tag parent child) (hv : Visible sb (Used sb) v) :
    Visible sb' (Used sb') v := by
  refine ⟨(hg.used v).2 (.inl hv.1), ?_⟩
  rw [hg.ghost v fun heq => hg.unused (heq ▸ hv.1)]
  exact hv.2

theorem Grown.visible_iff (hg : Grown sb sb' tag parent child) :
    Visible sb' (Used sb') v ↔ Visible sb (Used sb) v ∨ v = child := by
  constructor
  · rintro ⟨hused, hghost⟩
    by_cases hvc : v = child
    · exact .inr hvc
    · rw [hg.ghost v hvc] at hghost
      exact .inl ⟨((hg.used v).1 hused).resolve_right hvc, hghost⟩
  · rintro (hv | rfl)
    · exact hg.visible hv
    · exact ⟨(hg.used v).2 (.inr rfl), hg.child_eq.1⟩

theorem Grown.inv (h : SnapshotInv sb) (hinv : VersionInv sb')
    (hg : Grown sb sb' tag parent child) : SnapshotInv sb' := by
  have hold {v : Nat} (hv : Used sb v) : v ≠ child := fun heq => hg.unused (heq ▸ hv)
  refine ⟨hinv, fun v hv => ?_, ?_, fun v hv hghost => ?_,
    ⟨?_, fun c => ?_, fun c => ?_, ?_⟩, fun e he => ?_,
    fun v => ?_, fun e he hghost => ?_⟩
  · obtain ⟨hle, hcount⟩ := hg.fresh v hv
    rw [hcount, h.fresh v hle]
  · rw [hg.ghost 0 hg.ne_zero.symm]
    exact h.origin
  · by_cases hvc : v = child
    · rw [hvc, hg.child_eq.1] at hghost
      cases hghost
    · rw [hg.ghost v hvc] at hghost
      have hforks := h.forks v (((hg.used v).1 hv).resolve_right hvc) hghost
      exact Nat.le_trans hforks (hg.count_le v)
  · rw [hg.elements]
    exact h.stored.ok
  · rw [hg.allocmap, hg.elements]
    exact h.stored.alloc c
  · rw [hg.allocmap]
    exact h.stored.alloc_lt c
  · rw [hg.nextchunk]
    exact h.stored.next_le
  · rw [hg.elements] at he
    obtain ⟨h0, hused⟩ := h.labels e he
    exact ⟨h0, (hg.used _).2 (.inl hused)⟩
  · by_cases hvc : v = child
    · rw [hvc]
      exact hg.child_eq.2.2
    · rw [hg.present v hvc]
      exact h.clear v
  · rw [hg.elements] at he ⊢
    rw [hg.ghost _ (hold (h.labels e he).2)] at hghost
    obtain ⟨u, hu, hhas⟩ := h.heirs e he hghost
    exact ⟨u, hg.visible hu, hg.has u _ hu.1 hhas⟩

theorem Grown.dataOf_eq (hg : Grown sb sb' tag parent child) : dataOf sb' = dataOf sb := by
  funext x
  cases x with
  | none => exact hg.orgdata
  | some c => exact congrFun hg.snapdata c

theorem Grown.values (hg : Grown sb sb' tag parent child) (hv : Values sb value)
    (hp : Visible sb (Used sb) parent) :
    Values sb' (Function.update value child (value parent)) := by
  intro v hvis
  rw [hg.elements, hg.dataOf_eq]
  by_cases hvc : v = child
  · obtain ⟨x, hhas, hdata⟩ := hv parent hp
    rw [hvc, Function.update_self]
    exact ⟨x, hg.has_child x hhas, hdata⟩
  · have hold := (hg.visible_iff.1 hvis).resolve_right hvc
    obtain ⟨x, hhas, hdata⟩ := hv v hold
    rw [Function.update_of_ne hvc]
    exact ⟨x, hg.has v x hold.1 hhas, hdata⟩

theorem newVersion_count {r : Nat × VersionSb} (h : newVersion sb parent tag = .ok r) :
    r.2.childCount r.1 = 0 := by
  obtain ⟨⟨version, sb1⟩, -, h⟩ := bind_eq_ok.1 h
  obtain ⟨⟨⟩, hempty, h⟩ := bind_eq_ok.1 h
  obtain rfl := Except.ok.inj h
  exact tuxAssert_eq_ok.1 hempty

/-- A new version below a version of the tree. -/
theorem newLeaf_ok (h : SnapshotInv sb) (hused : Used sb parent)
    (htop : parent = 0 → sb.childCount 0 = 0) (hroom : ¬ TableFull sb) (tag : Nat) :
    ∃ child sb1 sb2, newVersion sb parent tag = .ok (child, sb1) ∧ sb1.childCount child = 0 ∧
      insertChild sb1 parent child = .ok sb2 ∧ VersionInv sb2 ∧
      Grown sb sb2 tag parent child ∧
      sb2.childCount = Function.update sb.childCount parent (sb.childCount parent + 1) ∧
      getParent sb2 child = parent := by
  obtain ⟨kids, htree⟩ := h.tree
  obtain ⟨⟨child, sb1⟩, hnew⟩ := newVersion_ok htree h.fresh hroom parent tag
  obtain ⟨hmade, hshape, hcached⟩ := newVersion_spec htree hnew
  have hchild := hmade.table_child
  have hnil (h0 : parent = 0) : kids 0 = [] := by
    have hcount := htop h0
    rw [htree.shape.count_eq htree.shape.tree.root_in] at hcount
    exact List.eq_nil_of_length_eq_zero hcount
  obtain ⟨sb2, hinsert⟩ := insertChild_ok hshape hcached hused hmade.unused hmade.ne_zero hmade.lt
    hnil (by rw [hchild]; rfl) (by rw [hchild]; rfl)
  obtain ⟨hinv, -, o, hsb2⟩ := newLeaf_inv h.toVersionInv hused htop hnew hinsert
  have htable (v : Nat) : sb2.table v = (linkChild sb1 parent child).table v := by rw [hsb2]
  have hparent : getParent sb2 = Function.update (getParent sb1) child parent := by
    rw [← linkChild_getParent, hsb2]
    rfl
  have hpchild : getParent sb2 child = parent := by rw [hparent, Function.update_self]
  have hcount1 : sb1.childCount = sb.childCount := by rw [hmade.rest]
  have hcount : sb2.childCount =
      Function.update sb.childCount parent (sb.childCount parent + 1) := by
    rw [hsb2, ← hcount1]
    rfl
  have hvers : sb2.versionCount = sb1.versionCount := by
    rw [hsb2]
    rfl
  have hsame {v : Nat} (hv : v ≠ child) : sb2.table v =
      { sb.table v with
        parent := (sb2.table v).parent
        nearmap := (sb2.table v).nearmap } := by
    rw [htable, linkChild_table, hmade.table_of_ne hv]
  have hnewt : sb2.table child =
      { zeroVersion with parent, tag, used := true, nearmap := (sb2.table child).nearmap } := by
    rw [htable, linkChild_table, hchild, if_pos rfl]
  have hhas (v : Nat) (x : Option Nat) (hv : Used sb v) (hx : Has sb sb.elements v x) :
      Has sb2 sb.elements v x := by
    refine hx.congr htree.shape.tree hv fun u hu _ => ?_
    have hne := hmade.used_ne hu
    rw [hparent, Function.update_of_ne hne, hmade.getParent_of_ne hne]
  refine ⟨child, sb1, sb2, hnew, newVersion_count hnew, hinsert, hinv,
    ⟨hmade.ne_zero, hmade.unused, fun v => ?_, fun v hv => ?_, fun v hv => ?_, fun v hv => ?_,
      ⟨?_, ?_, ?_⟩, fun v => ?_, fun v hv => ?_, hhas, fun x hx => ?_, ?_, ?_, ?_, ?_, ?_⟩, hcount,
    hpchild⟩
  · refine Iff.trans ?_ hmade.used_iff
    have hlink : Used (linkChild sb1 parent child) v ↔ Used sb1 v := linkChild_used
    unfold Used at hlink ⊢
    rw [htable]
    exact hlink
  · unfold isGhost
    rw [hsame hv]
  · rw [hsame hv]
  · unfold isPresent
    rw [hsame hv]
  · unfold isGhost
    rw [hnewt]
    rfl
  · rw [hnewt]
  · unfold isPresent
    rw [hnewt]
    rfl
  · rw [hcount]
    by_cases hvp : v = parent
    · rw [hvp, Function.update_self]
      exact Nat.le_succ _
    · rw [Function.update_of_ne hvp]
  · have hle : sb.versionCount ≤ v := Nat.le_trans hmade.count_le (hvers ▸ hv)
    have hvp : v ≠ parent := by
      rintro rfl
      exact absurd (htree.shape.in_lt v hused) (Nat.not_lt_of_le hle)
    exact ⟨hle, by rw [hcount, Function.update_of_ne hvp]⟩
  · refine .up hmade.ne_zero (h.unowned hmade.unused) ?_
    rw [hpchild]
    exact hhas parent x hused hx
  all_goals
    rw [hsb2, hmade.rest]
    rfl

/-- A new version above the whole tree. -/
theorem newTop_ok (h : SnapshotInv sb) (hne : sb.childCount 0 ≠ 0) (hroom : ¬ TableFull sb)
    (tag : Nat) :
    ∃ root sb1 sb2 sb3 sb', newVersion sb 0 tag = .ok (root, sb1) ∧
      insertChild sb1 root (getChild sb1 0 0) = .ok sb2 ∧
      invalidateBelow { sb2 with children := Function.update sb2.children 0 root } root = .ok sb3 ∧
      orderRoot sb3 = .ok sb' ∧ Grown sb sb' tag 0 root := by
  obtain ⟨kids, htree⟩ := h.tree
  obtain ⟨⟨root, sb1⟩, hnew⟩ := newVersion_ok htree h.fresh hroom 0 tag
  obtain ⟨hmade, hshape, hcached⟩ := newVersion_spec htree hnew
  have hchild := hmade.table_child
  have hrne := hmade.ne_zero
  obtain ⟨old, hold⟩ : ∃ old, kids 0 = [old] := by
    have hone := htree.shape.one
    rw [htree.shape.count_eq htree.shape.tree.root_in] at hne
    exact List.length_eq_one_iff.1 (by omega)
  have habove : Above sb1 (Used sb) kids root old := by
    refine ⟨hshape, hmade.unused, hmade.lt, hold, ?_⟩
    unfold getParent
    rw [hchild]
  obtain ⟨sb2, sb3, sb', hinsert, hinv, horder⟩ := habove.insert_ok fun u hu => hmade.used_iff.2 hu
  obtain ⟨⟨children, table, o, hsb', htable⟩, -⟩ :=
    insertChild_top habove hcached hinsert hinv horder
  obtain ⟨hold0, holdin, holdpar⟩ := habove.old_spec
  rw [← habove.getChild_eq] at hinsert
  refine ⟨root, sb1, sb2, sb3, sb', hnew, hinsert, hinv, horder, ?_⟩
  have htable' (v : Nat) : sb'.table v =
      { (linkChild sb1 root old).table v with pathmap := (sb'.table v).pathmap } := by
    rw [hsb']
    exact htable v
  have hparent : getParent sb' = Function.update (getParent sb1) old root := by
    rw [← linkChild_getParent]
    funext v
    unfold getParent
    rw [htable' v]
  have hcount1 : sb1.childCount = sb.childCount := by rw [hmade.rest]
  have hcount : sb'.childCount = Function.update sb.childCount root (sb.childCount root + 1) := by
    rw [hsb', ← hcount1]
    rfl
  have hvers : sb'.versionCount = sb1.versionCount := by
    rw [hsb']
    rfl
  have hsame {v : Nat} (hv : v ≠ root) : sb'.table v =
      { sb.table v with
        parent := (sb'.table v).parent
        pathmap := (sb'.table v).pathmap
        nearmap := (sb'.table v).nearmap } := by
    rw [htable', linkChild_table, hmade.table_of_ne hv]
  have hnewt : sb'.table root =
      { zeroVersion with
        parent := (sb'.table root).parent
        tag
        used := true
        pathmap := (sb'.table root).pathmap
        nearmap := (sb'.table root).nearmap } := by
    rw [htable', linkChild_table, hchild]
  have hpar {u : Nat} (hu : Used sb u) (hne : u ≠ old) : getParent sb' u = getParent sb u := by
    rw [hparent, Function.update_of_ne hne, hmade.getParent_of_ne (hmade.used_ne hu)]
  have hproot : getParent sb' root = 0 := by
    rw [hparent, Function.update_of_ne (habove.ne holdin).symm, habove.parent]
  have hpold : getParent sb old = 0 := by
    rw [← hmade.getParent_of_ne (hmade.used_ne holdin)]
    exact holdpar
  refine ⟨hrne, hmade.unused, fun v => ?_, fun v hv => ?_, fun v hv => ?_, fun v hv => ?_,
    ⟨?_, ?_, ?_⟩, fun v => ?_, fun v hv => ?_, fun v x hv hx => ?_, fun x hx => ?_, ?_, ?_, ?_, ?_,
    ?_⟩
  · refine Iff.trans ?_ hmade.used_iff
    have hlink : Used (linkChild sb1 root old) v ↔ Used sb1 v := linkChild_used
    unfold Used at hlink ⊢
    rw [htable']
    exact hlink
  · unfold isGhost
    rw [hsame hv]
  · rw [hsame hv]
  · unfold isPresent
    rw [hsame hv]
  · unfold isGhost
    rw [hnewt]
    rfl
  · rw [hnewt]
  · unfold isPresent
    rw [hnewt]
    rfl
  · rw [hcount]
    by_cases hvr : v = root
    · rw [hvr, Function.update_self]
      exact Nat.le_succ _
    · rw [Function.update_of_ne hvr]
  · have hvr : v ≠ root := by
      rintro rfl
      exact absurd hmade.lt (Nat.not_lt_of_le (hvers ▸ hv))
    exact ⟨Nat.le_trans hmade.count_le (hvers ▸ hv), by rw [hcount, Function.update_of_ne hvr]⟩
  · refine hx.addTop htree.shape.tree hv hrne (h.unowned hmade.unused) hproot ?_ hpold
      fun u hu _ hne => hpar hu hne
    rw [hparent, Function.update_self]
  · rw [hx.root_eq]
    refine .up hrne (h.unowned hmade.unused) ?_
    rw [hproot]
    exact .root
  all_goals
    rw [hsb', hmade.rest]
    rfl

end Growing

end Tux3.Versions
