/-
  Btree/Account.lean --- the deferred frees of a tree update, and the log.

  Whatever an update of a tree defers to `sb->defree` or to `sb->deunify` it also logs, and in
  the same order: the two lists can be read off the records (`Accounted`).  Of the steps of
  `btree_chop`, only `leaf_chop` frees extents that leaves point to.
-/
import Tux3.Btree.Chop

set_option autoImplicit false

namespace Tux3

open Outcome (bind_eq_ok)

variable {L : Type}

/-! ## Records -/

/-- The extents that a record stands for in `sb->defree`. -/
def LogRecord.defreed : LogRecord → List BlockSegment
  | .bfree block count => [⟨block, count⟩]
  | .leafRedirect oldblock _ => [⟨oldblock, 1⟩]
  | _ => []

/-- The extents that a record stands for in `sb->deunify`. -/
def LogRecord.deunified : LogRecord → List BlockSegment
  | .bnodeRedirect oldblock _ => [⟨oldblock, 1⟩]
  | _ => []

/-- The extents of data that a record frees. -/
def LogRecord.dataFreed : LogRecord → List BlockSegment
  | .bfree block count => [⟨block, count⟩]
  | _ => []

/-- The records between two states of the volume are those of the frees that were deferred, and
the data among them is `segs`. -/
def Accounted (vol : VolSb) (segs : List BlockSegment) (vol' : VolSb) : Prop :=
  ∃ recs : List LogRecord, vol'.log = vol.log ++ recs ∧
    vol'.defree = vol.defree ++ recs.flatMap LogRecord.defreed ∧
    vol'.deunify = vol.deunify ++ recs.flatMap LogRecord.deunified ∧
    recs.flatMap LogRecord.dataFreed = segs

namespace Accounted

variable {vol vol' vol'' : VolSb} {segs segs' : List BlockSegment}

theorem of_same (hlog : vol'.log = vol.log) (hdefree : vol'.defree = vol.defree)
    (hdeunify : vol'.deunify = vol.deunify) : Accounted vol [] vol' :=
  ⟨[], by simp [hlog], by simp [hdefree], by simp [hdeunify], rfl⟩

theorem refl (vol : VolSb) : Accounted vol [] vol := of_same rfl rfl rfl

theorem trans (h : Accounted vol segs vol') (h' : Accounted vol' segs' vol'') :
    Accounted vol (segs ++ segs') vol'' := by
  obtain ⟨recs, hlog, hdefree, hdeunify, hsegs⟩ := h
  obtain ⟨recs', hlog', hdefree', hdeunify', hsegs'⟩ := h'
  refine ⟨recs ++ recs', ?_, ?_, ?_, ?_⟩
  · rw [hlog', hlog, List.append_assoc]
  · rw [hdefree', hdefree, List.flatMap_append, List.append_assoc]
  · rw [hdeunify', hdeunify, List.flatMap_append, List.append_assoc]
  · rw [List.flatMap_append, hsegs, hsegs']

theorem trans_nil (h : Accounted vol [] vol') (h' : Accounted vol' [] vol'') :
    Accounted vol [] vol'' := h.trans h'

/-- A record that frees nothing later on. -/
theorem record {r : LogRecord} (hdefree : r.defreed = []) (hdeunify : r.deunified = [])
    (hdata : r.dataFreed = []) (hlog : vol'.log = vol.log ++ [r])
    (hdefree' : vol'.defree = vol.defree) (hdeunify' : vol'.deunify = vol.deunify) :
    Accounted vol [] vol' :=
  ⟨[r], hlog, by simp [hdefree', hdefree], by simp [hdeunify', hdeunify], by simp [hdata]⟩

end Accounted

/-! ## `cursor_redirect` -/

section Redirect

variable {sb sb' : BtreeSb L} {root root' : Root} {up path path' : List PathLevel}
  {oldblock newblock block : Nat}

theorem newBlock_accounted (h : newBlock sb = .ok (sb', block)) :
    Accounted sb.toVolSb [] sb'.toVolSb := by
  obtain ⟨⟨vol, b⟩, hballoc, h⟩ := bind_eq_ok.mp h
  cases h
  unfold VolSb.balloc at hballoc
  split at hballoc
  · cases hballoc
  · split at hballoc
    · cases hballoc
    · cases hballoc
      exact .of_same rfl rfl rfl

theorem redirectParent_accounted
    (h : redirectParent sb root up oldblock newblock = .ok (sb', root')) :
    Accounted sb.toVolSb [] sb'.toVolSb := by
  cases up with
  | nil =>
      obtain ⟨_, -, h⟩ := bind_eq_ok.mp h
      cases h
      exact .refl _
  | cons s up =>
      obtain ⟨entry, -, h⟩ := bind_eq_ok.mp h
      cases h
      exact .record rfl rfl rfl rfl rfl rfl

theorem markAtomic_accounted (vol : VolSb) (st : BufState) (block : Nat) :
    Accounted vol [] (vol.markAtomic st block) := by
  unfold VolSb.markAtomic
  split
  · exact .of_same rfl rfl rfl
  · exact .refl vol

theorem redirectBnode_accounted
    (h : redirectBnode sb root up oldblock = .ok (sb', root', newblock)) :
    Accounted sb.toVolSb [] sb'.toVolSb := by
  unfold redirectBnode at h
  split at h
  · cases h
    exact .refl _
  · obtain ⟨⟨sb₁, new⟩, hnew, h⟩ := bind_eq_ok.mp h
    obtain ⟨⟨sb₂, root₂⟩, hparent, h⟩ := bind_eq_ok.mp h
    cases h
    refine (newBlock_accounted hnew).trans_nil (((markAtomic_accounted _ .unify newblock).trans_nil
      ⟨[.bnodeRedirect oldblock newblock], rfl, ?_, rfl, rfl⟩).trans_nil
        (redirectParent_accounted hparent))
    exact (List.append_nil _).symm

theorem redirectLeaf_accounted
    (h : redirectLeaf sb root up oldblock = .ok (sb', root', newblock)) :
    Accounted sb.toVolSb [] sb'.toVolSb := by
  unfold redirectLeaf at h
  split at h
  · cases h
    exact .refl _
  · obtain ⟨⟨sb₁, new⟩, hnew, h⟩ := bind_eq_ok.mp h
    obtain ⟨⟨sb₂, root₂⟩, hparent, h⟩ := bind_eq_ok.mp h
    cases h
    refine (newBlock_accounted hnew).trans_nil (((markAtomic_accounted _ .delta newblock).trans_nil
      ⟨[.leafRedirect oldblock newblock], rfl, rfl, ?_, rfl⟩).trans_nil
        (redirectParent_accounted hparent))
    exact (List.append_nil _).symm

theorem redirectNodes_accounted (h : redirectNodes sb root path = .ok (sb', root', path')) :
    Accounted sb.toVolSb [] sb'.toVolSb := by
  induction path generalizing sb' root' path' with
  | nil =>
      cases h
      exact .refl _
  | cons s up ih =>
      obtain ⟨⟨sb₁, root₁, up₁⟩, hup, h⟩ := bind_eq_ok.mp h
      obtain ⟨⟨sb₂, root₂, block⟩, hnode, h⟩ := bind_eq_ok.mp h
      cases h
      exact (ih hup).trans_nil (redirectBnode_accounted hnode)

theorem cursorRedirect_accounted {cursor cursor' : Cursor}
    (h : cursorRedirect sb root cursor = .ok (sb', root', cursor')) :
    Accounted sb.toVolSb [] sb'.toVolSb := by
  obtain ⟨⟨sb₁, root₁, path₁⟩, hnodes, h⟩ := bind_eq_ok.mp h
  obtain ⟨⟨sb₂, root₂, leaf⟩, hleaf, h⟩ := bind_eq_ok.mp h
  obtain ⟨_, -, h⟩ := bind_eq_ok.mp h
  cases h
  exact (redirectNodes_accounted hnodes).trans_nil (redirectLeaf_accounted hleaf)

end Redirect

/-! ## `btree_chop` -/

section Chop

variable {ops : LeafOps L} {sb sb' : BtreeSb L} {st st' : ChopState L} {root root' : Root}
  {s s' : PathLevel} {up : List PathLevel} {cii cii' : Nat → ChoppedIndexInfo} {block : Nat}

theorem adjustParentSep_accounted {newsep : Nat} (h : adjustParentSep sb up newsep = .ok sb') :
    Accounted sb.toVolSb [] sb'.toVolSb := by
  induction up generalizing sb with
  | nil =>
      cases h
      exact .refl _
  | cons s up ih =>
      obtain ⟨parent, -, h⟩ := bind_eq_ok.mp h
      obtain ⟨_, -, h⟩ := bind_eq_ok.mp h
      obtain ⟨_, -, h⟩ := bind_eq_ok.mp h
      obtain ⟨_, -, h⟩ := bind_eq_ok.mp h
      have hone : Accounted sb.toVolSb [] (sb.withLog (.bnodeAdjust s.block parent.key newsep)).toVolSb :=
        .record rfl rfl rfl rfl rfl rfl
      split at h
      · cases h
        exact hone
      · have hrest := ih h
        exact hone.trans_nil hrest

theorem removeIndex_accounted (h : removeIndex sb cii s up = .ok (sb', cii', s')) :
    Accounted sb.toVolSb [] sb'.toVolSb := by
  obtain ⟨entry, -, h⟩ := bind_eq_ok.mp h
  obtain ⟨node, -, h⟩ := bind_eq_ok.mp h
  obtain ⟨_, -, h⟩ := bind_eq_ok.mp h
  dsimp only at h
  split at h
  · cases h
    exact .refl _
  · split at h
    · cases h
      exact .refl _
    · obtain ⟨first, -, h⟩ := bind_eq_ok.mp h
      obtain ⟨sb₁, hadjust, h⟩ := bind_eq_ok.mp h
      cases h
      have hrest := adjustParentSep_accounted hadjust
      exact hrest

theorem putFreed_accounted (h : putFreed sb block = .ok sb') :
    Accounted sb.toVolSb [] sb'.toVolSb := by
  obtain ⟨vol, hput, h⟩ := bind_eq_ok.mp h
  cases h
  obtain ⟨_, -, hput⟩ := bind_eq_ok.mp hput
  cases hput
  exact .of_same rfl rfl rfl

theorem logChopped_accounted (sb : BtreeSb L) (block : Nat) (ciil : ChoppedIndexInfo) :
    Accounted sb.toVolSb [] (logChopped sb block ciil).toVolSb := by
  unfold logChopped
  split
  · exact .refl _
  · exact .record rfl rfl rfl rfl rfl rfl

theorem popNodes_accounted {done : Prop} [Decidable done]
    {place : Option (PathLevel × List PathLevel)} (h : popNodes done up s st = .ok (st', place)) :
    Accounted st.sb.toVolSb [] st'.sb.toVolSb := by
  induction up generalizing s st with
  | nil =>
      unfold popNodes at h
      split at h
      · cases h
        exact .refl _
      · obtain ⟨_, -, h⟩ := bind_eq_ok.mp h
        cases h
        exact logChopped_accounted _ _ _
  | cons t up ih =>
      unfold popNodes at h
      split at h
      · cases h
        exact .refl _
      · have hlog := logChopped_accounted st.sb s.block (st.cii (t :: up).length)
        dsimp only at h
        split at h
        · exact hlog.trans_nil (ih h)
        · split at h
          · exact hlog.trans_nil (ih h)
          · rename_i prev hprev sb₁ hmerge
            obtain ⟨⟨sb₂, cii₂, t₂⟩, hremove, h⟩ := bind_eq_ok.mp h
            obtain ⟨_, -, h⟩ := bind_eq_ok.mp h
            obtain ⟨sb₃, hput, h⟩ := bind_eq_ok.mp h
            have hmerged : Accounted (logChopped st.sb s.block (st.cii (t :: up).length)).toVolSb []
                sb₁.toVolSb := by
              unfold tryBnodeMerge at hmerge
              split at hmerge
              · cases hmerge
              · cases hmerge
                exact .record rfl rfl rfl rfl rfl rfl
            exact hlog.trans_nil (hmerged.trans_nil ((removeIndex_accounted hremove).trans_nil
              ((putFreed_accounted hput).trans_nil (ih h))))

theorem mergeLeaf_accounted {leaf : Nat} (h : mergeLeaf ops st leaf s up = .ok (st', s')) :
    Accounted st.sb.toVolSb [] st'.sb.toVolSb := by
  unfold mergeLeaf at h
  dsimp only at h
  split at h
  · cases h
    exact .refl _
  · rename_i leafprev hprev
    obtain ⟨merged, hmerge, h⟩ := bind_eq_ok.mp h
    cases merged with
    | none =>
        cases h
        exact .refl _
    | some sb₁ =>
        obtain ⟨⟨sb₂, cii₂, s₂⟩, hremove, h⟩ := bind_eq_ok.mp h
        obtain ⟨_, -, h⟩ := bind_eq_ok.mp h
        obtain ⟨sb₃, hput, h⟩ := bind_eq_ok.mp h
        cases h
        have hmerged : Accounted st.sb.toVolSb [] sb₁.toVolSb := by
          obtain ⟨leaf', -, hmerge⟩ := bind_eq_ok.mp hmerge
          cases leaf' with
          | none => cases hmerge
          | some leaf' =>
              cases hmerge
              exact .record rfl rfl rfl rfl rfl rfl
        exact hmerged.trans_nil ((removeIndex_accounted hremove).trans_nil (putFreed_accounted hput))

theorem freeSegments_accounted (sb : BtreeSb L) (segs : List BlockSegment) :
    Accounted sb.toVolSb segs (freeSegments sb segs).toVolSb := by
  induction segs generalizing sb with
  | nil => exact .refl _
  | cons seg segs ih =>
      have hone : Accounted sb.toVolSb [seg]
          ((sb.toVolSb.deferDefree seg).logRecord (.bfree seg.block seg.count)) :=
        ⟨[.bfree seg.block seg.count], rfl, rfl, (List.append_nil _).symm, rfl⟩
      exact hone.trans (ih { sb with
        toVolSb := (sb.toVolSb.deferDefree seg).logRecord (.bfree seg.block seg.count) })

theorem chopRoot_accounted {depth : Nat} {prev : Nat → Option Nat}
    (h : chopRoot depth sb prev root = .ok (sb', root')) :
    Accounted sb.toVolSb [] sb'.toVolSb := by
  induction depth generalizing sb prev root with
  | zero =>
      cases h
      exact .refl _
  | succ depth ih =>
      unfold chopRoot at h
      split at h
      · cases h
        exact .refl _
      · obtain ⟨top, -, h⟩ := bind_eq_ok.mp h
        dsimp only at h
        split at h
        · cases h
          exact .refl _
        · obtain ⟨block, -, h⟩ := bind_eq_ok.mp h
          obtain ⟨sb₁, hput, h⟩ := bind_eq_ok.mp h
          have hfree : Accounted sb.toVolSb [] (freeRedirected sb top (.bnodeFree top)).toVolSb :=
            .record rfl rfl rfl rfl rfl rfl
          exact hfree.trans_nil ((putFreed_accounted hput).trans_nil (ih h))

end Chop

end Tux3
