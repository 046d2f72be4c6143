/-
  Inode/IattrFork.lean --- the copy-on-write of inode attributes between two deltas.

  The frontend changes the attributes of an inode in the current delta while the backend
  may still have to flush the delta before.  `tux3_iattrdirty` keeps what the backend needs
  in the slot of its delta; `tux3_iattr_read_and_clear` takes the inode itself, or that
  slot.  Which of the two is right is decided by the iattr state in the inode's flags.
-/
import Tux3.Volume
import Tux3.Lib.Outcome
import Tux3.Lib.System

set_option autoImplicit false

namespace Tux3

/-! ## Code -/

/-- `TUX3_INVALID_PRESENT`. -/
def tux3InvalidPresent : Nat := 2 ^ 32 - 1

/-- `struct tux3_iattr_data`. -/
structure IattrData where
  present : Nat
  iMode : Nat
  iUid : Nat
  iGid : Nat
  iNlink : Nat
  iRdev : Nat
  iSize : Nat
  iMtime : Nat
  iCtime : Nat
  iVersion : Nat
  deriving DecidableEq, Repr, Inhabited

/-- `S_ISREG`. -/
def sIsreg (mode : Nat) : Prop := mode &&& 0o170000 = 0o100000

instance (mode : Nat) : Decidable (sIsreg mode) := inferInstanceAs (Decidable (_ = _))

/-- What the iattr fork is about in an inode: its attributes, the iattr state in its flags,
and `i_ddc[..].idata` by slot. -/
structure IattrInode where
  iattr : IattrData
  iattrsta : Nat
  idata : Nat → IattrData

/-- `tux3_iattrsta_has_delta`. -/
def iattrstaHasDelta (sta : Nat) : Prop := 1 ≤ sta

instance (sta : Nat) : Decidable (iattrstaHasDelta sta) := inferInstanceAs (Decidable (_ ≤ _))

/-- `tux3_iattrsta_get_delta`. -/
def iattrstaGetDelta (sta : Nat) : Nat := sta - 1

/-- `tux3_iattrsta_delta`. -/
def iattrstaDelta (delta : Nat) : Nat := 1 + tux3Delta delta

/-- `tux3_iattrdirty`, in the frontend delta `delta`. -/
def tux3Iattrdirty (inode : IattrInode) (delta : Nat) : IattrInode :=
  let sta := inode.iattrsta
  if iattrstaHasDelta sta ∧ iattrstaGetDelta sta = tux3Delta delta then inode
  else
    let inode :=
      if sIsreg inode.iattr.iMode ∨ iattrstaHasDelta sta then
        let oldDelta :=
          if sIsreg inode.iattr.iMode ∧ ¬iattrstaHasDelta sta then tux3Delta (predDelta delta)
          else iattrstaGetDelta sta
        if oldDelta ≠ tux3Delta delta then
          { inode with idata := Function.update inode.idata oldDelta inode.iattr }
        else inode
      else inode
    { inode with iattrsta := iattrstaDelta delta }

/-- The read slot is made invalid, for debugging. -/
def invalidateIdata (inode : IattrInode) (delta : Nat) : IattrInode :=
  let idata := { inode.idata (tux3Delta delta) with present := tux3InvalidPresent }
  { inode with idata := Function.update inode.idata (tux3Delta delta) idata }

/-- `tux3_iattr_read_and_clear`, for the flush of `delta`. -/
def tux3IattrReadAndClear (inode : IattrInode) (delta : Nat) :
    Except TuxError (IattrInode × IattrData) := do
  let sta := inode.iattrsta
  if ¬iattrstaHasDelta sta ∨ iattrstaGetDelta sta = tux3Delta delta then
    -- clean, or not forked
    return (invalidateIdata { inode with iattrsta := 0 } delta, inode.iattr)
  else
    let idata := inode.idata (tux3Delta delta)
    tuxAssert (idata.present ≠ tux3InvalidPresent)
    return (invalidateIdata inode delta, idata)

/-! ## The system -/

/-- An inode between the frontend and the backend.  `dirtied` says that the frontend called
`tux3_iattrdirty` in the current delta, `listed` has the dirty lists by slot, `flushing` says
that the delta before the current one is not flushed yet, and `atEnd` has the attributes at
the end of that delta. -/
structure IattrRun where
  inode : IattrInode
  delta : Nat
  dirtied : Bool
  listed : Nat → Bool
  flushing : Bool
  atEnd : IattrData

/-- What the frontend and the backend do: `tux3_iattrdirty`, a change of the attributes, an
entry into the dirty list of the current delta (for whatever reason), the delta
transition; and the flush of the inode, and the end of the flush of its delta. -/
inductive IattrOp where
  | iattrdirty
  | change (iattr : IattrData)
  | markDirty
  | deltaTransition
  | flush
  | flushed

/-- The inode waits for the flush of the delta before the current one. -/
def IattrRun.Waiting (s : IattrRun) : Prop :=
  s.flushing = true ∧ s.listed (tux3Delta (predDelta s.delta)) = true

/-- The frontend changes attributes only after `tux3_iattrdirty` in the same delta, and never
the type of the file.  A delta ends only after the one before it is flushed. -/
inductive IattrStep : IattrRun → IattrOp → IattrRun → Prop where
  | iattrdirty {s : IattrRun} : IattrStep s .iattrdirty
      { s with inode := tux3Iattrdirty s.inode s.delta, dirtied := true }
  | change {s : IattrRun} {iattr : IattrData} (hdirtied : s.dirtied = true)
      (hpresent : iattr.present ≠ tux3InvalidPresent)
      (htype : sIsreg iattr.iMode ↔ sIsreg s.inode.iattr.iMode) :
      IattrStep s (.change iattr) { s with inode := { s.inode with iattr := iattr } }
  | markDirty {s : IattrRun} : IattrStep s .markDirty
      { s with listed := Function.update s.listed (tux3Delta s.delta) true }
  | deltaTransition {s : IattrRun} (hidle : s.flushing = false) : IattrStep s .deltaTransition
      { s with delta := succDelta s.delta, dirtied := false, flushing := true
               atEnd := s.inode.iattr }
  | flush {s : IattrRun} {inode : IattrInode} {idata : IattrData} (hwaiting : s.Waiting)
      (hread : tux3IattrReadAndClear s.inode (predDelta s.delta) = .ok (inode, idata)) :
      IattrStep s .flush { s with
        inode := inode
        listed := Function.update s.listed (tux3Delta (predDelta s.delta)) false }
  | flushed {s : IattrRun} (hflushing : s.flushing = true) (hdone : ¬s.Waiting) :
      IattrStep s .flushed { s with flushing := false }

/-- An inode that was just read in: clean, on no list, and no slot is valid. -/
def IattrRun.Fresh (s : IattrRun) : Prop :=
  s.inode.iattrsta = 0 ∧ s.inode.iattr.present ≠ tux3InvalidPresent ∧ s.delta < 2 ^ 32 ∧
    (∀ slot, (s.inode.idata slot).present = tux3InvalidPresent) ∧ s.dirtied = false ∧
    (∀ slot, s.listed slot = false) ∧ s.flushing = false ∧ s.atEnd = s.inode.iattr

/-- All runs. -/
def iattrSystem : System IattrRun where
  init := IattrRun.Fresh
  next s s' := ∃ op, IattrStep s op s'

/-- The backend gets the attributes at the end of the delta it flushes. -/
def IattrRun.FlushesRight (s : IattrRun) : Prop :=
  s.Waiting → ∃ inode, tux3IattrReadAndClear s.inode (predDelta s.delta) = .ok (inode, s.atEnd)

/-- The steps that leave nothing out: the first `tux3_iattrdirty` of a delta on an inode that
waits for the flush of the delta before finds the iattrs dirtied in that delta, or a
regular file with clean ones; and a delta does not end with the inode on its list while
the iattr state is still that of an older delta. -/
def IattrRun.OpOk (s : IattrRun) : IattrOp → Prop
  | .iattrdirty => s.Waiting → s.dirtied = false → ¬iattrstaHasDelta s.inode.iattrsta →
      sIsreg s.inode.iattr.iMode
  | .deltaTransition => s.listed (tux3Delta s.delta) = true →
      iattrstaHasDelta s.inode.iattrsta →
      iattrstaGetDelta s.inode.iattrsta = tux3Delta s.delta
  | _ => True

/-- The runs all of whose steps are such. -/
def iattrSystemOk : System IattrRun where
  init := IattrRun.Fresh
  next s s' := ∃ op, s.OpOk op ∧ IattrStep s op s'

/-! ## The invariant -/

/-- Where the backend will look, it finds what it needs. -/
structure IattrInv (s : IattrRun) : Prop where
  delta : s.delta < 2 ^ 32
  present : s.inode.iattr.present ≠ tux3InvalidPresent
  dirtied : s.dirtied = true → s.inode.iattrsta = iattrstaDelta s.delta
  unchanged : s.dirtied = false → s.inode.iattr = s.atEnd
  endPresent : s.atEnd.present ≠ tux3InvalidPresent
  saved : s.Waiting → s.dirtied = true →
    s.inode.idata (tux3Delta (predDelta s.delta)) = s.atEnd
  stable : s.Waiting → s.dirtied = false → iattrstaHasDelta s.inode.iattrsta →
    iattrstaGetDelta s.inode.iattrsta = tux3Delta (predDelta s.delta)
  idle : s.flushing = false → s.listed (tux3Delta (predDelta s.delta)) = false

theorem IattrRun.Fresh.inv {s : IattrRun} (h : s.Fresh) : IattrInv s := by
  obtain ⟨hsta, hpresent, hdelta, -, hdirtied, hlisted, hflushing, hend⟩ := h
  refine ⟨hdelta, hpresent, ?_, fun _ => hend.symm, hend ▸ hpresent, ?_, ?_, fun _ => hlisted _⟩
  · simp [hdirtied]
  · simp [hdirtied]
  · intro hwaiting
    exact absurd hwaiting.1 (by simp [hflushing])

theorem iattrsta_of_iattrdirty (inode : IattrInode) (delta : Nat) :
    (tux3Iattrdirty inode delta).iattrsta = iattrstaDelta delta := by
  unfold tux3Iattrdirty
  dsimp only
  split
  · rename_i h
    unfold iattrstaHasDelta iattrstaGetDelta at h
    unfold iattrstaDelta
    omega
  · rfl

/-- `tux3_iattrdirty` changes no attribute. -/
theorem iattr_of_iattrdirty (inode : IattrInode) (delta : Nat) :
    (tux3Iattrdirty inode delta).iattr = inode.iattr := by
  unfold tux3Iattrdirty
  dsimp only
  split
  · rfl
  · repeat' split
    all_goals rfl

/-- Attributes that were last dirtied in the delta before, or a clean regular file, are
copied to the slot of that delta. -/
theorem idata_of_iattrdirty {inode : IattrInode} {delta : Nat}
    (hold : iattrstaHasDelta inode.iattrsta →
      iattrstaGetDelta inode.iattrsta = tux3Delta (predDelta delta))
    (hclean : ¬iattrstaHasDelta inode.iattrsta → sIsreg inode.iattr.iMode) :
    (tux3Iattrdirty inode delta).idata (tux3Delta (predDelta delta)) = inode.iattr := by
  have hne := tux3Delta_predDelta delta
  unfold tux3Iattrdirty
  by_cases hsta : iattrstaHasDelta inode.iattrsta
  · simp [hsta, hold hsta, hne]
  · simp [hsta, hclean hsta, hne]

/-- The state of the delta before, or none, sends the backend to the inode. -/
theorem readAndClear_live {inode : IattrInode} {delta : Nat}
    (h : iattrstaHasDelta inode.iattrsta → iattrstaGetDelta inode.iattrsta = tux3Delta delta) :
    ∃ inode', tux3IattrReadAndClear inode delta = .ok (inode', inode.iattr) := by
  have hlive : ¬iattrstaHasDelta inode.iattrsta ∨
      iattrstaGetDelta inode.iattrsta = tux3Delta delta := not_or_of_imp h
  exact ⟨_, by rw [tux3IattrReadAndClear, if_pos hlive]; rfl⟩

/-- The state of the next delta sends it to the slot. -/
theorem readAndClear_forked {inode : IattrInode} {delta : Nat}
    (hsta : inode.iattrsta = iattrstaDelta delta)
    (hpresent : (inode.idata (tux3Delta (predDelta delta))).present ≠ tux3InvalidPresent) :
    tux3IattrReadAndClear inode (predDelta delta) =
      .ok (invalidateIdata inode (predDelta delta), inode.idata (tux3Delta (predDelta delta))) := by
  have hforked : ¬(¬iattrstaHasDelta inode.iattrsta ∨
      iattrstaGetDelta inode.iattrsta = tux3Delta (predDelta delta)) := by
    have hne := tux3Delta_predDelta delta
    rw [hsta, iattrstaHasDelta, iattrstaGetDelta, iattrstaDelta]
    omega
  rw [tux3IattrReadAndClear, if_neg hforked]
  simp only [bind, Except.bind, tuxAssert_of hpresent]
  rfl

/-- A slot that was not filled fails the assertion. -/
theorem readAndClear_invalid {inode : IattrInode} {delta : Nat}
    (hsta : iattrstaHasDelta inode.iattrsta)
    (hother : iattrstaGetDelta inode.iattrsta ≠ tux3Delta delta)
    (hinvalid : (inode.idata (tux3Delta delta)).present = tux3InvalidPresent) :
    tux3IattrReadAndClear inode delta = .error .assertion := by
  have hforked : ¬(¬iattrstaHasDelta inode.iattrsta ∨
      iattrstaGetDelta inode.iattrsta = tux3Delta delta) := by
    rw [not_or, not_not]
    exact ⟨hsta, hother⟩
  have hassert : tuxAssert ((inode.idata (tux3Delta delta)).present ≠ tux3InvalidPresent) =
      .error .assertion := if_neg (not_not.mpr hinvalid)
  rw [tux3IattrReadAndClear, if_neg hforked]
  simp only [bind, Except.bind, hassert]

theorem iattr_of_readAndClear {inode inode' : IattrInode} {idata : IattrData} {delta : Nat}
    (h : tux3IattrReadAndClear inode delta = .ok (inode', idata)) :
    inode'.iattr = inode.iattr := by
  unfold tux3IattrReadAndClear at h
  dsimp only at h
  split at h
  · cases h
    rfl
  · obtain ⟨_, -, h⟩ := Outcome.bind_eq_ok.mp h
    cases h
    rfl

theorem IattrInv.flushesRight {s : IattrRun} (h : IattrInv s) : s.FlushesRight := by
  intro hwaiting
  cases hdirtied : s.dirtied with
  | false =>
      rw [← h.unchanged hdirtied]
      exact readAndClear_live (h.stable hwaiting hdirtied)
  | true =>
      have hsaved := h.saved hwaiting hdirtied
      have hread := readAndClear_forked (h.dirtied hdirtied) (hsaved ▸ h.endPresent)
      exact ⟨_, hsaved ▸ hread⟩

/-- One step of a run. -/
theorem IattrInv.step {s s' : IattrRun} {op : IattrOp} (h : IattrInv s) (hok : s.OpOk op)
    (hstep : IattrStep s op s') : IattrInv s' := by
  cases hstep with
  | iattrdirty =>
      refine ⟨h.delta, ?_, fun _ => iattrsta_of_iattrdirty _ _, by simp, h.endPresent,
        fun hwaiting _ => ?_, by simp, h.idle⟩
      · exact (iattr_of_iattrdirty _ _).symm ▸ h.present
      · cases hdirtied : s.dirtied with
        | true =>
            -- nothing to do
            have hsta := h.dirtied hdirtied
            have hsame : tux3Iattrdirty s.inode s.delta = s.inode := by
              rw [tux3Iattrdirty, if_pos]
              rw [hsta, iattrstaHasDelta, iattrstaGetDelta, iattrstaDelta]
              omega
            rw [hsame]
            exact h.saved hwaiting hdirtied
        | false =>
            rw [← h.unchanged hdirtied]
            exact idata_of_iattrdirty (h.stable hwaiting hdirtied) (hok hwaiting hdirtied)
  | change hdirtied hpresent _ =>
      exact ⟨h.delta, hpresent, h.dirtied, fun hnot => Bool.noConfusion (hdirtied.symm.trans hnot),
        h.endPresent, h.saved, h.stable, h.idle⟩
  | markDirty =>
      have hlisted : Function.update s.listed (tux3Delta s.delta) true
          (tux3Delta (predDelta s.delta)) = s.listed (tux3Delta (predDelta s.delta)) :=
        Function.update_of_ne (tux3Delta_predDelta s.delta) _ _
      exact ⟨h.delta, h.present, h.dirtied, h.unchanged, h.endPresent,
        fun hw => h.saved ⟨hw.1, hlisted.symm.trans hw.2⟩,
        fun hw => h.stable ⟨hw.1, hlisted.symm.trans hw.2⟩,
        fun hidle => hlisted.trans (h.idle hidle)⟩
  | deltaTransition hidle =>
      refine ⟨succDelta_lt _, h.present, by simp, fun _ => rfl, h.present, by simp, ?_, by simp⟩
      intro hwaiting _ hsta
      have hprev : tux3Delta (predDelta (succDelta s.delta)) = tux3Delta s.delta := by
        rw [predDelta_succDelta h.delta]
      rw [hprev]
      refine hok ?_ hsta
      have hlisted := hwaiting.2
      rwa [hprev] at hlisted
  | @flush inode idata hwaiting hread =>
      have hattr := iattr_of_readAndClear hread
      have hdone : ¬(s.flushing = true ∧
          Function.update s.listed (tux3Delta (predDelta s.delta)) false
            (tux3Delta (predDelta s.delta)) = true) := by simp
      refine ⟨h.delta, hattr ▸ h.present, fun hdirtied => ?_, fun hdirtied => ?_, h.endPresent,
        fun hw => absurd hw hdone, fun hw => absurd hw hdone, fun _ => Function.update_self ..⟩
      · have hsaved := h.saved hwaiting hdirtied
        rw [readAndClear_forked (h.dirtied hdirtied) (hsaved ▸ h.endPresent)] at hread
        cases hread
        exact h.dirtied hdirtied
      · exact hattr.trans (h.unchanged hdirtied)
  | flushed hflushing hdone =>
      have hlisted : s.listed (tux3Delta (predDelta s.delta)) = false := by
        by_contra hne
        exact hdone ⟨hflushing, by simpa using hne⟩
      have hidle : ∀ {p : Prop}, false = true ∧
          s.listed (tux3Delta (predDelta s.delta)) = true → p := fun hw => absurd hw.1 (by simp)
      exact ⟨h.delta, h.present, h.dirtied, h.unchanged, h.endPresent, fun hw => hidle hw,
        fun hw => hidle hw, fun _ => hlisted⟩

/-! ## Every run -/

/-- In every run whose steps leave nothing out, the flush of a delta gets the attributes at
the end of that delta, and no assertion fails. -/
theorem tux3IattrReadAndClear_atEnd {s : IattrRun} (h : iattrSystemOk.Reachable s) :
    s.FlushesRight := by
  refine (h.invariant (I := IattrInv) (fun _ hfresh => IattrRun.Fresh.inv hfresh) ?_).flushesRight
  rintro s s' hinv ⟨op, hok, hstep⟩
  exact hinv.step hok hstep

/-! ## Two runs -/

/-- Attributes of a mode, with `mtime`. -/
def iattrOfMode (mode mtime : Nat) : IattrData :=
  { (default : IattrData) with present := 1, iMode := mode, iMtime := mtime }

/-- An inode of a mode that was just read in. -/
def freshIattrRun (mode : Nat) : IattrRun where
  inode := { iattr := iattrOfMode mode 0, iattrsta := 0
             idata := fun _ => { (default : IattrData) with present := tux3InvalidPresent } }
  delta := 0
  dirtied := false
  listed := fun _ => false
  flushing := false
  atEnd := iattrOfMode mode 0

theorem freshIattrRun_fresh (mode : Nat) : (freshIattrRun mode).Fresh :=
  ⟨rfl, (by decide : 1 ≠ tux3InvalidPresent), (by decide : 0 < 2 ^ 32), fun _ => rfl, rfl,
    fun _ => rfl, rfl, rfl⟩

/-- A directory whose xattrs are set in one delta, and whose attributes change in the next
one before the flush: the slot that the backend looks into was never filled. -/
theorem xattrThenIattr_asserts : ∃ s : IattrRun, iattrSystem.Reachable s ∧ s.Waiting ∧
    tux3IattrReadAndClear s.inode (predDelta s.delta) = .error .assertion := by
  have h₀ : iattrSystem.Reachable (freshIattrRun 0o040755) := .init (freshIattrRun_fresh _)
  have h₁ := h₀.next ⟨.markDirty, .markDirty⟩
  have h₂ := h₁.next ⟨.deltaTransition, .deltaTransition rfl⟩
  have h₃ := h₂.next ⟨.iattrdirty, .iattrdirty⟩
  have h₄ := h₃.next ⟨.change (iattrOfMode 0o040700 1), .change rfl (by decide)
    (by decide +kernel)⟩
  refine ⟨_, h₄, ⟨rfl, by decide +kernel⟩, readAndClear_invalid ?_ ?_ ?_⟩
  · decide +kernel
  · decide +kernel
  · decide +kernel

/-- A regular file that is written in one delta, and whose attributes change in the next one
before the flush: the backend gets the attributes of the first. -/
theorem tux3IattrReadAndClear_atEnd_forked : ∃ s : IattrRun, iattrSystemOk.Reachable s ∧
    s.Waiting ∧ s.inode.iattr.iMtime = 2 ∧ s.atEnd.iMtime = 1 ∧ s.FlushesRight := by
  have h₀ : iattrSystemOk.Reachable (freshIattrRun 0o100644) := .init (freshIattrRun_fresh _)
  have h₁ := h₀.next ⟨.iattrdirty, fun _ _ _ => by decide, .iattrdirty⟩
  have h₂ := h₁.next ⟨.change (iattrOfMode 0o100644 1), trivial, .change rfl (by decide)
    (by decide +kernel)⟩
  have h₃ := h₂.next ⟨.markDirty, trivial, .markDirty⟩
  have h₄ := h₃.next ⟨.deltaTransition, fun _ _ => by decide +kernel, .deltaTransition rfl⟩
  have h₅ := h₄.next ⟨.iattrdirty, fun _ _ _ => by decide +kernel, .iattrdirty⟩
  have h₆ := h₅.next ⟨.change (iattrOfMode 0o100644 2), trivial, .change rfl (by decide)
    (by decide +kernel)⟩
  exact ⟨_, h₆, ⟨rfl, by decide +kernel⟩, rfl, rfl, tux3IattrReadAndClear_atEnd h₆⟩

end Tux3
