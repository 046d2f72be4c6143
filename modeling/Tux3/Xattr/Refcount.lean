/-
  Xattr/Refcount.lean --- the table of atoms, and its counts of references.

  A count has 32 bits, the low and the high 16 of them in tables of their own.  `atomref` writes
  the low half first, cut to 16 bits, and looks at the high one only if the low one came to 0 or
  left its 16 bits.  An atom without references goes to the head of the list of free atoms, and its
  name out of the dictionary.
-/
import Tux3.Xattr.Update
import Tux3.Lib.System

set_option autoImplicit false

namespace Tux3.Xattr

open BigEndian Dir Outcome

/-! ## The table -/

/-- The names that are live, and the atoms that are free: every atom that was handed out is one of
either, a live one has its name in the dictionary and its position in the reverse map, and the free
ones are a list through the reverse map. -/
structure AtomTable (sb : AtomSb) (live : List DirReport) (free : List Nat) : Prop where
  dir : DirInv ⟨sb.dict, live⟩
  linked : Linked sb.nextFree 0 sb.freeatom free
  nodup : (free ++ live.map DirReport.inum).Nodup
  handed : ∀ atom, atom ∈ free ++ live.map DirReport.inum ↔ 1 ≤ atom ∧ atom < sb.atomgen
  atomgen_pos : 1 ≤ sb.atomgen
  atomgen_lt : sb.atomgen < 2 ^ 32
  magic : ∀ atom ∈ free, isFreeUnatom (sb.unatom atom) = true
  pos : ∀ entry ∈ live, sb.unatom entry.inum = entry.pos
  unatom_nonneg : ∀ atom, 0 ≤ sb.unatom atom

/-- The count of references of an atom. -/
def AtomSb.refcount (sb : AtomSb) (atom : Nat) : Nat := sb.low atom + 2 ^ 16 * sb.high atom

/-- Both halves of the counts fit their 16 bits. -/
structure HalvesOk (sb : AtomSb) : Prop where
  low_lt : ∀ atom, sb.low atom < 2 ^ 16
  high_lt : ∀ atom, sb.high atom < 2 ^ 16

/-- The halves of the count of an atom are set to those of a total. -/
def AtomSb.setCount (sb : AtomSb) (atom total : Nat) : AtomSb :=
  { sb with
    low := Function.update sb.low atom (total % 2 ^ 16)
    high := Function.update sb.high atom (total / 2 ^ 16) }

section

variable {sb sb' : AtomSb} {live : List DirReport} {free : List Nat} {entry : DirReport}
  {atom total : Nat} {use err : Int}

theorem AtomSb.refcount_setCount (sb : AtomSb) (atom total : Nat) :
    (sb.setCount atom total).refcount = Function.update sb.refcount atom total := by
  funext a
  unfold AtomSb.refcount AtomSb.setCount
  by_cases ha : a = atom
  · subst ha
    simp only [Function.update_self]
    exact Nat.mod_add_div total (2 ^ 16)
  · simp only [Function.update_of_ne ha]

theorem HalvesOk.setCount (h : HalvesOk sb) (htotal : total < 2 ^ 32) :
    HalvesOk (sb.setCount atom total) := by
  have hhigh : total / 2 ^ 16 < 2 ^ 16 := by omega
  refine ⟨?_, ?_⟩
  · apply (Function.forall_update_iff sb.low fun _ n => n < 2 ^ 16).mpr
    exact ⟨Nat.mod_lt total (Nat.two_pow_pos 16), fun a _ => h.low_lt a⟩
  · apply (Function.forall_update_iff sb.high fun _ n => n < 2 ^ 16).mpr
    exact ⟨hhigh, fun a _ => h.high_lt a⟩

theorem AtomTable.setCount (h : AtomTable sb live free) :
    AtomTable (sb.setCount atom total) live free :=
  ⟨h.dir, h.linked, h.nodup, h.handed, h.atomgen_pos, h.atomgen_lt, h.magic, h.pos,
    h.unatom_nonneg⟩

theorem AtomTable.mem_iff (h : AtomTable sb live free) :
    atom ∈ free ↔ (1 ≤ atom ∧ atom < sb.atomgen) ∧ atom ∉ live.map DirReport.inum := by
  rw [← h.handed, List.mem_append]
  have hdisj := (List.nodup_append.mp h.nodup).2.2
  constructor
  · intro hfree
    exact ⟨.inl hfree, fun hlive => hdisj atom hfree atom hlive rfl⟩
  · rintro ⟨hfree | hlive, hnot⟩
    · exact hfree
    · exact absurd hlive hnot

theorem AtomTable.live_handed (h : AtomTable sb live free) (hmem : entry ∈ live) :
    1 ≤ entry.inum ∧ entry.inum < sb.atomgen :=
  (h.handed _).mp (List.mem_append_right _ (List.mem_map_of_mem hmem))

theorem AtomTable.freeatom_lt (h : AtomTable sb live free) : sb.freeatom < 2 ^ 32 := by
  rcases h.linked.head_mem with hzero | hmem
  · rw [hzero]
    exact Nat.two_pow_pos 32
  · exact Nat.lt_trans (h.mem_iff.mp hmem).1.2 h.atomgen_lt

/-- The entry of a live name stands where the reverse map says. -/
theorem AtomTable.entry_atom (h : AtomTable sb live free) (hmem : entry ∈ live) :
    (sb.dict.data (entry.pos / sb.dict.blocksize) (entry.pos % sb.dict.blocksize)).inum % 2 ^ 32 =
      entry.inum := by
  obtain ⟨layout, htiled, hperm, -⟩ := h.dir
  obtain ⟨-, -, -, hreport⟩ :=
    @DirTiled.record_of_mem ⟨sb.dict, live⟩ _ _ htiled (hperm.mem_iff.mpr hmem)
  have hinum := congrArg DirReport.inum hreport
  have hlt := Nat.lt_trans (h.live_handed hmem).2 h.atomgen_lt
  dsimp only [report] at hinum
  rw [hinum, Nat.mod_eq_of_lt hlt]

/-! ## Freeing an atom -/

/-- An atom was freed: it is the head of the list of free atoms, marked as free and linked to the
head before, and its entry is out of the dictionary. -/
structure Freed (sb : AtomSb) (live : List DirReport) (entry : DirReport) (sb' : AtomSb) :
    Prop where
  freeatom : sb'.freeatom = entry.inum
  next : sb'.nextFree entry.inum = sb.freeatom
  magic : isFreeUnatom (sb'.unatom entry.inum) = true
  dir : DirInv ⟨sb'.dict, live.erase entry⟩
  unatom : ∀ atom, atom ≠ entry.inum → sb'.unatom atom = sb.unatom atom
  unatom_nonneg : 0 ≤ sb'.unatom entry.inum
  atomgen : sb'.atomgen = sb.atomgen
  low : sb'.low = sb.low
  high : sb'.high = sb.high
  blocksize : sb'.dict.blocksize = sb.dict.blocksize

theorem isFreeUnatom_magic {freeatom : Nat} (h : freeatom < 2 ^ 32) :
    isFreeUnatom (unatomFreeMagic + freeatom) = true := by
  unfold isFreeUnatom unatomFreeMagic
  rw [beq_iff_eq]
  omega

theorem nextFree_magic {freeatom : Nat} (hfree : freeatom < 2 ^ 32)
    (h : sb.unatom atom = unatomFreeMagic + freeatom) : sb.nextFree atom = freeatom := by
  unfold AtomSb.nextFree
  rw [h]
  unfold unatomFreeMagic
  omega

/-- Freeing a live atom keeps the table. -/
theorem Freed.table (hfreed : Freed sb live entry sb') (h : AtomTable sb live free)
    (hmem : entry ∈ live) : AtomTable sb' (live.erase entry) (entry.inum :: free) := by
  have hsplit : (live.map DirReport.inum).Perm
      (entry.inum :: (live.erase entry).map DirReport.inum) :=
    (List.perm_cons_erase hmem).map DirReport.inum
  have hperm : (free ++ live.map DirReport.inum).Perm
      (entry.inum :: free ++ (live.erase entry).map DirReport.inum) :=
    (hsplit.append_left free).trans List.perm_middle
  have hnotfree : ∀ a ∈ free, a ≠ entry.inum := by
    rintro a ha rfl
    exact (h.mem_iff.mp ha).2 (List.mem_map_of_mem hmem)
  refine ⟨hfreed.dir, ?_, hperm.nodup_iff.mp h.nodup, fun atom => ?_, ?_, ?_, ?_, ?_, ?_⟩
  · rw [hfreed.freeatom]
    refine ⟨rfl, Nat.ne_of_gt (h.live_handed hmem).1, ?_⟩
    rw [hfreed.next]
    refine h.linked.congr fun a ha => ?_
    unfold AtomSb.nextFree
    rw [hfreed.unatom a (hnotfree a ha)]
  · rw [← hperm.mem_iff, h.handed, hfreed.atomgen]
  · rw [hfreed.atomgen]
    exact h.atomgen_pos
  · rw [hfreed.atomgen]
    exact h.atomgen_lt
  · intro a ha
    rcases List.mem_cons.mp ha with rfl | ha
    · exact hfreed.magic
    · rw [hfreed.unatom a (hnotfree a ha)]
      exact h.magic a ha
  · intro e he
    have hnodup := (List.nodup_append.mp h.nodup).2.1
    have hne : e.inum ≠ entry.inum := by
      intro heq
      refine (List.nodup_cons.mp (hsplit.nodup_iff.mp hnodup)).1 ?_
      rw [← heq]
      exact List.mem_map_of_mem he
    rw [hfreed.unatom _ hne]
    exact h.pos e (List.mem_of_mem_erase he)
  · intro a
    by_cases ha : a = entry.inum
    · rw [ha]
      exact hfreed.unatom_nonneg
    · rw [hfreed.unatom a ha]
      exact h.unatom_nonneg a

/-- The buffers of `atomref` behind that of the low half do not fail. -/
structure RefIo.Whole (io : RefIo) : Prop where
  high_read : io.high.readFails = false
  high_dirty : io.high.dirtyErr = 0
  unatom_read : io.unatom.readFails = false
  unatom_dirty : io.unatom.dirtyErr = 0
  entry : io.entryFails = false
  delete : io.delete.dirtyErr = 0

/-- `atomref` frees a live atom, or there is an error. -/
theorem killAtom_spec (h : AtomTable sb live free) (hmem : entry ∈ live) (io : RefIo) :
    ∃ sb' err, killAtom sb io entry.inum = .ok (sb', err) ∧
      (err = 0 → Freed sb live entry sb') ∧ (io.Whole → err = 0) := by
  have hpos := h.pos entry hmem
  have hfree := h.freeatom_lt
  unfold killAtom
  obtain ⟨hio, err, hwrite, hneg⟩ | ⟨hio, hwrite⟩ :=
    unatomDictWrite_cases sb io.unatom entry.inum (unatomFreeMagic + sb.freeatom)
  · rw [bind_of_ok hwrite]
    dsimp only
    rw [if_pos hneg]
    refine ⟨_, _, rfl, fun hzero => absurd hzero (by decide), fun hwhole => ?_⟩
    rcases hio with hread | hdirty
    · exact absurd (hwhole.unatom_read.symm.trans hread) Bool.false_ne_true
    · exact absurd hwhole.unatom_dirty hdirty
  · rw [bind_of_ok hwrite]
    dsimp only
    rw [hpos, if_neg (Int.not_lt.mpr (Int.natCast_nonneg _)), Int.toNat_natCast]
    cases hentry : io.entryFails with
    | true =>
        refine ⟨_, _, rfl, fun hzero => absurd hzero (by decide), fun hwhole => ?_⟩
        exact absurd (hwhole.entry.symm.trans hentry) Bool.false_ne_true
    | false =>
        rw [if_neg Bool.false_ne_true, if_pos (h.entry_atom hmem)]
        obtain ⟨layout, htiled, hperm, hnodup⟩ := h.dir
        obtain ⟨hb, ho, hlive, hreport⟩ :=
          @DirTiled.record_of_mem ⟨sb.dict, live⟩ _ _ htiled (hperm.mem_iff.mpr hmem)
        obtain ⟨r, heq, hr⟩ := tuxDeleteEntry_spec io.delete htiled hb ho hlive
        rw [bind_of_ok heq]
        dsimp only at hreport
        rw [hreport] at hr
        cases hr with
        | dirtyFailed hdirty =>
            refine ⟨_, _, rfl, fun hzero => ?_, fun hwhole => absurd hwhole.delete hdirty⟩
            omega
        | @removed dict' layout' hrem =>
            refine ⟨_, _, rfl, fun _ => ?_, fun _ => rfl⟩
            have hself : Function.update sb.unatom entry.inum (unatomFreeMagic + sb.freeatom)
                entry.inum = unatomFreeMagic + sb.freeatom := Function.update_self ..
            have hsplit : live.Perm (entry :: live.erase entry) := List.perm_cons_erase hmem
            refine ⟨rfl, nextFree_magic hfree hself, ?_, ⟨layout', hrem.tiled, ?_, ?_⟩,
              fun a ha => Function.update_of_ne ha _ _, ?_, rfl, rfl, rfl, ?_⟩
            · dsimp only
              rw [hself]
              exact isFreeUnatom_magic hfree
            · exact (hrem.listing_perm.symm.trans (hperm.trans hsplit)).cons_inv
            · exact hnodup.sublist (List.erase_sublist.map _)
            · dsimp only
              rw [hself]
              unfold unatomFreeMagic
              omega
            · unfold TuxDir.blocksize
              dsimp only
              rw [hrem.blockbits_eq]

/-! ## Counting -/

/-- What `atomref` comes to, where `total` is the new count: nothing is changed, the count is
`total`, or it is zero and the atom is freed; or there is an error behind the low half. -/
inductive RefResult (sb : AtomSb) (live : List DirReport) (io : RefIo) (entry : DirReport)
    (total : Nat) : AtomSb × Int → Prop
  | untouched {err : Int} (hio : io.low.readFails = true ∨ io.low.dirtyErr ≠ 0) (hne : err ≠ 0) :
      RefResult sb live io entry total (sb, err)
  | counted (hne : total ≠ 0) :
      RefResult sb live io entry total (sb.setCount entry.inum total, 0)
  | freed {sb' : AtomSb} (hzero : total = 0)
      (hfreed : Freed (sb.setCount entry.inum 0) live entry sb') :
      RefResult sb live io entry total (sb', 0)
  | torn {sb' : AtomSb} {err : Int} (hio : ¬ io.Whole) (hne : err ≠ 0) :
      RefResult sb live io entry total (sb', err)

/-- The high half stays as it is. -/
theorem AtomSb.setLow_eq {low : Int} (htotal : (total : Int) = low + 2 ^ 16 * sb.high atom)
    (hlow : 0 ≤ low ∧ low < 2 ^ 16) :
    { sb with low := Function.update sb.low atom (low % 2 ^ 16).toNat } =
      sb.setCount atom total := by
  have hhigh : total / 2 ^ 16 = sb.high atom := by omega
  have hmod : (low % 2 ^ 16).toNat = total % 2 ^ 16 := by omega
  unfold AtomSb.setCount
  rw [hhigh, Function.update_eq_self, hmod]

/-- `atomref` behind the low half. -/
theorem atomrefCarry_spec (h : AtomTable sb live free) (hmem : entry ∈ live) {low : Int}
    (hsum : (total : Int) = low + 2 ^ 16 * sb.high entry.inum)
    (hlt : total < 2 ^ 32) (hlow : -2 ^ 16 < low) (io : RefIo) :
    ∃ r, atomrefCarry
        { sb with low := Function.update sb.low entry.inum (low % 2 ^ 16).toNat } io entry.inum
        low = .ok r ∧ RefResult sb live io entry total r := by
  unfold atomrefCarry
  cases hread : io.high.readFails with
  | true =>
      refine ⟨_, rfl, .torn (fun hwhole => ?_) (by decide)⟩
      exact absurd (hwhole.high_read.symm.trans hread) Bool.false_ne_true
  | false =>
      rw [if_neg Bool.false_ne_true]
      by_cases hzero : low = 0
      · have hrange : 0 ≤ low ∧ low < 2 ^ 16 := by omega
        rw [if_pos hzero, AtomSb.setLow_eq hsum hrange]
        have hhigh : (sb.setCount entry.inum total).high entry.inum = total / 2 ^ 16 :=
          Function.update_self ..
        rw [hhigh]
        by_cases hkill : total / 2 ^ 16 = 0
        · obtain rfl : total = 0 := by omega
          rw [if_pos hkill]
          obtain ⟨sb', err, heq, hfreed, hwhole⟩ :=
            killAtom_spec (@AtomTable.setCount sb live free entry.inum 0 h) hmem io
          rw [heq]
          refine ⟨_, rfl, ?_⟩
          by_cases herr : err = 0
          · subst herr
            exact .freed rfl (hfreed rfl)
          · exact .torn (fun hio => herr (hwhole hio)) herr
        · rw [if_neg hkill]
          exact ⟨_, rfl, .counted (by omega)⟩
      · have hhigh : 0 ≤ (sb.high entry.inum : Int) + low / 2 ^ 16 := by omega
        have herr : updateRefcount io.high = .ok (-io.high.dirtyErr) := by
          unfold updateRefcount
          rw [bind_of_ok (tuxAssert_of io.high.dirtyErr_ne)]
          rfl
        rw [if_neg hzero, bind_of_ok (tuxAssert_of hhigh), bind_of_ok herr]
        by_cases hdirty : io.high.dirtyErr = 0
        · rw [hdirty, if_neg (by decide)]
          have hset : { sb with
              low := Function.update sb.low entry.inum (low % 2 ^ 16).toNat
              high := Function.update sb.high entry.inum
                (((sb.high entry.inum : Int) + low / 2 ^ 16) % 2 ^ 16).toNat } =
              sb.setCount entry.inum total := by
            have hmod : (low % 2 ^ 16).toNat = total % 2 ^ 16 := by omega
            have hdiv : (((sb.high entry.inum : Int) + low / 2 ^ 16) % 2 ^ 16).toNat =
                total / 2 ^ 16 := by omega
            unfold AtomSb.setCount
            rw [hmod, hdiv]
          rw [hset]
          exact ⟨_, rfl, .counted (by omega)⟩
        · have hne : -(io.high.dirtyErr : Int) ≠ 0 := by omega
          rw [if_pos hne]
          exact ⟨_, rfl, .torn (fun hwhole => hdirty hwhole.high_dirty) hne⟩

/-- `atomref` fails no assert, and counts exactly. -/
theorem atomref_spec (h : AtomTable sb live free) (hhalves : HalvesOk sb) (hmem : entry ∈ live)
    (huse : -2 ^ 15 ≤ use ∧ use ≤ 2 ^ 15) (htotal : (total : Int) = sb.refcount entry.inum + use)
    (hlt : total < 2 ^ 32) (io : RefIo) :
    ∃ r, atomref sb io entry.inum use = .ok r ∧ RefResult sb live io entry total r := by
  have hlow := hhalves.low_lt entry.inum
  have hhigh := hhalves.high_lt entry.inum
  obtain ⟨low, hdef⟩ : ∃ low : Int, low = sb.low entry.inum + use := ⟨_, rfl⟩
  have hsum : (total : Int) = low + 2 ^ 16 * sb.high entry.inum := by
    unfold AtomSb.refcount at htotal
    omega
  unfold atomref
  cases hread : io.low.readFails with
  | true => exact ⟨_, rfl, .untouched (.inl hread) (by decide)⟩
  | false =>
      rw [if_neg Bool.false_ne_true]
      dsimp only
      have herr : updateRefcount io.low = .ok (-io.low.dirtyErr) := by
        unfold updateRefcount
        rw [bind_of_ok (tuxAssert_of io.low.dirtyErr_ne)]
        rfl
      rw [bind_of_ok herr, ← hdef]
      by_cases hdirty : io.low.dirtyErr = 0
      · rw [hdirty, if_neg (by decide)]
        by_cases hcarry : low = 0 ∨ low / 2 ^ 16 ≠ 0
        · rw [if_pos hcarry]
          exact atomrefCarry_spec h hmem hsum hlt (by omega) io
        · rw [if_neg hcarry]
          have hrange : 0 ≤ low ∧ low < 2 ^ 16 := by omega
          rw [AtomSb.setLow_eq hsum hrange]
          exact ⟨_, rfl, .counted (by omega)⟩
      · have hne : -(io.low.dirtyErr : Int) ≠ 0 := by omega
        rw [if_pos hne]
        exact ⟨_, rfl, .untouched (.inr hdirty) hne⟩

/-! ## Handing out atoms -/

/-- The atom of a name that was entered, where it stands, and what is still free. -/
structure Entered (sb : AtomSb) (live : List DirReport) (name : Bytes) (atom : Nat)
    (sb' : AtomSb) : Prop where
  dir : DirInv ⟨sb'.dict, created name atom 0 (sb'.unatom atom).toNat :: live⟩
  unatom_nonneg : 0 ≤ sb'.unatom atom
  unatom : ∀ a, a ≠ atom → sb'.unatom a = sb.unatom a
  atomgen : sb'.atomgen = sb.atomgen
  freeatom : sb'.freeatom = sb.freeatom
  low : sb'.low = sb.low
  high : sb'.high = sb.high
  blocksize : sb'.dict.blocksize = sb.dict.blocksize

/-- What `find_atom` comes to in a table. -/
theorem AtomTable.findAtom_cases (h : AtomTable sb live free) (io : DirIo) (name : Bytes) :
    (∃ err, findAtom sb io name = .ok (err, 0) ∧ err ≠ 0 ∧ err ≠ -enodata) ∨
    (findAtom sb io name = .ok (-enodata, 0) ∧ name ∉ live.map DirReport.name) ∨
    ∃ entry ∈ live, findAtom sb io name = .ok (0, entry.inum) ∧ entry.name = name := by
  obtain ⟨found, heq, hfound⟩ := h.dir.find io name
  unfold findAtom
  rw [bind_of_ok heq]
  cases hfound with
  | failed hb hio => exact .inl ⟨_, rfl, by decide, by decide⟩
  | missing hmiss => exact .inr (.inl ⟨rfl, hmiss⟩)
  | @found entry hmem hname hinum =>
      refine .inr (.inr ⟨entry, hmem, ?_, hname⟩)
      dsimp only
      rw [h.entry_atom hmem]
      rfl

/-- The number that a new name gets, and what the table becomes. -/
theorem AtomTable.enter (h : AtomTable sb live free) (hroom : sb.atomgen + 1 < 2 ^ 32)
    (hget : FreeatomResult sb (sb', 0, atom)) {sb'' : AtomSb} {name : Bytes}
    (hent : Entered sb' live name atom sb'') :
    ∃ free', AtomTable sb'' (created name atom 0 (sb''.unatom atom).toNat :: live) free' := by
  have hpos := h.atomgen_pos
  -- the atoms that are left, and the table without the new one
  obtain ⟨free', hlinked, hnodup, hhanded, hgen, hmagic, hunatom⟩ : ∃ free',
      Linked sb.nextFree 0 sb'.freeatom free' ∧
      (free' ++ atom :: live.map DirReport.inum).Nodup ∧
      (∀ a, a ∈ free' ++ atom :: live.map DirReport.inum ↔ 1 ≤ a ∧ a < sb'.atomgen) ∧
      (1 ≤ sb'.atomgen ∧ sb'.atomgen < 2 ^ 32) ∧
      (∀ a ∈ free', isFreeUnatom (sb.unatom a) = true) ∧ sb'.unatom = sb.unatom := by
    cases hget with
    | failed hne => exact absurd rfl hne
    | fresh hzero =>
        have hnil : free = [] := by
          have hlinked := h.linked
          rw [hzero] at hlinked
          exact hlinked.eq_nil
        have hnodup := h.nodup
        have hhanded := h.handed
        rw [hnil, List.nil_append] at hnodup hhanded
        have hmod : (sb.atomgen + 1) % 2 ^ 32 = sb.atomgen + 1 := Nat.mod_eq_of_lt hroom
        refine ⟨[], hzero, ?_, fun a => ?_, ⟨?_, ?_⟩, ?_, rfl⟩
        · refine List.nodup_cons.mpr ⟨fun hmem => ?_, hnodup⟩
          exact Nat.lt_irrefl _ ((hhanded _).mp hmem).2
        · dsimp only
          rw [hmod, List.nil_append, List.mem_cons, hhanded]
          omega
        · dsimp only
          omega
        · dsimp only
          omega
        · exact fun a ha => absurd ha List.not_mem_nil
    | head hne =>
        obtain ⟨rest, rfl, hrest⟩ := h.linked.exists_cons hne
        have hperm : (rest ++ sb.freeatom :: live.map DirReport.inum).Perm
            (sb.freeatom :: rest ++ live.map DirReport.inum) := List.perm_middle
        refine ⟨rest, hrest, hperm.nodup_iff.mpr h.nodup, fun a => ?_,
          ⟨h.atomgen_pos, h.atomgen_lt⟩, fun a ha => h.magic a (List.mem_cons_of_mem _ ha), rfl⟩
        rw [hperm.mem_iff, h.handed]
  have hdisj := (List.nodup_append.mp hnodup).2.2
  have hnew := (List.nodup_cons.mp (List.nodup_append.mp hnodup).2.1).1
  have hnotfree : ∀ a ∈ free', a ≠ atom := fun a ha => hdisj a ha atom List.mem_cons_self
  have hsame : ∀ a, a ≠ atom → sb''.unatom a = sb.unatom a := by
    intro a ha
    rw [hent.unatom a ha, hunatom]
  refine ⟨free', hent.dir, ?_, hnodup, ?_, ?_, ?_, ?_, ?_, ?_⟩
  · rw [hent.freeatom]
    refine hlinked.congr fun a ha => ?_
    unfold AtomSb.nextFree
    rw [hsame a (hnotfree a ha)]
  · rw [hent.atomgen]
    exact hhanded
  · rw [hent.atomgen]
    exact hgen.1
  · rw [hent.atomgen]
    exact hgen.2
  · intro a ha
    rw [hsame a (hnotfree a ha)]
    exact hmagic a ha
  · intro e he
    rcases List.mem_cons.mp he with rfl | hold
    · exact (Int.toNat_of_nonneg hent.unatom_nonneg).symm
    · have hne : e.inum ≠ atom := by
        rintro rfl
        exact hnew (List.mem_map_of_mem hold)
      rw [hsame _ hne]
      exact h.pos e hold
  · intro a
    by_cases ha : a = atom
    · rw [ha]
      exact hent.unatom_nonneg
    · rw [hsame a ha]
      exact h.unatom_nonneg a

/-- A new name is entered, or there is an error. -/
theorem enterAtom_entered {layout : Nat → List Nat} {name : Bytes} {io : AtomIo} {made : Nat}
    (htiled : DirTiled sb.dict layout) (hperm : (listing sb.dict layout).Perm live)
    (hnodup : (live.map DirReport.name).Nodup) (hnew : name ∉ live.map DirReport.name)
    (hname : 0 < name.length) (hfits : tuxRecLen name.length ≤ sb.dict.blocksize)
    (hcall : enterAtom sb io name atom = .ok (sb', 0, made)) :
    made = atom ∧ Entered sb live name atom sb' := by
  unfold enterAtom at hcall
  obtain ⟨r, heq, hr⟩ := tuxCreateEntry_spec io.create atom 0 htiled hname hfits
  rw [bind_of_ok heq] at hcall
  cases hr with
  | readFailed hb hio =>
      exact absurd (Prod.mk.inj (Prod.mk.inj (Except.ok.inj hcall)).2).1 (by decide)
  | dirtyFailed hio =>
      dsimp only at hcall
      rw [if_pos (by omega)] at hcall
      have herr := (Prod.mk.inj (Prod.mk.inj (Except.ok.inj hcall)).2).1
      omega
  | @inserted dict' layout' p hins =>
      dsimp only at hcall
      rw [if_neg (Int.not_lt.mpr (Int.natCast_nonneg p))] at hcall
      obtain ⟨hio, err, hwrite, hneg⟩ | ⟨hio, hwrite⟩ :=
        unatomDictWrite_cases { sb with dict := dict' } io.unatom atom p
      · rw [bind_of_ok hwrite] at hcall
        dsimp only at hcall
        rw [if_pos hneg] at hcall
        have herr := (Prod.mk.inj (Prod.mk.inj (Except.ok.inj hcall)).2).1
        omega
      · rw [bind_of_ok hwrite] at hcall
        dsimp only at hcall
        split at hcall
        · rename_i hneg
          have herr := (Prod.mk.inj (Prod.mk.inj (Except.ok.inj hcall)).2).1
          omega
        · obtain ⟨rfl, hmade⟩ := Prod.mk.inj (Except.ok.inj hcall)
          have hself : Function.update sb.unatom atom (p : Int) atom = p := Function.update_self ..
          refine ⟨(Prod.mk.inj hmade).2.symm, ⟨layout', hins.tiled, ?_, ?_⟩, ?_,
            fun a ha => Function.update_of_ne ha _ _, rfl, rfl, rfl, rfl, ?_⟩
          · dsimp only
            rw [hself, Int.toNat_natCast]
            exact hins.listing_perm.trans (hperm.cons _)
          · exact List.nodup_cons.mpr ⟨hnew, hnodup⟩
          · dsimp only
            rw [hself]
            exact Int.natCast_nonneg p
          · unfold TuxDir.blocksize
            dsimp only
            rw [hins.blockbits_eq]

/-- `make_atom` returns the atom of a live name, or enters the name. -/
inductive MakeResult (sb : AtomSb) (live : List DirReport) (name : Bytes) : AtomSb → Nat → Prop
  | found {entry : DirReport} (hmem : entry ∈ live) (hname : entry.name = name) :
      MakeResult sb live name sb entry.inum
  | entered {sb' : AtomSb} {atom : Nat} {free' : List Nat} (hnew : name ∉ live.map DirReport.name)
      (htable : AtomTable sb' (created name atom 0 (sb'.unatom atom).toNat :: live) free')
      (hlow : sb'.low = sb.low) (hhigh : sb'.high = sb.high)
      (hblocksize : sb'.dict.blocksize = sb.dict.blocksize) : MakeResult sb live name sb' atom

theorem makeAtom_spec (h : AtomTable sb live free) (hroom : sb.atomgen + 1 < 2 ^ 32)
    {name : Bytes} (hname : 0 < name.length) (hfits : tuxRecLen name.length ≤ sb.dict.blocksize)
    {io : AtomIo} (hcall : makeAtom sb io name = .ok (sb', 0, atom)) :
    MakeResult sb live name sb' atom := by
  obtain ⟨err, hfind, hne, hdata⟩ | ⟨hfind, hnew⟩ | ⟨entry, hmem, hfind, hentry⟩ :=
    h.findAtom_cases io.find name
  · rw [makeAtom_failed hfind hne hdata] at hcall
    exact absurd (Prod.mk.inj (Prod.mk.inj (Except.ok.inj hcall)).2).1 hne
  · obtain ⟨sb₁, gerr, made, hget⟩ : ∃ sb₁ gerr made,
        getFreeatom sb io.freeFails = (sb₁, gerr, made) := ⟨_, _, _, rfl⟩
    rw [makeAtom_new hfind hget] at hcall
    split at hcall
    · rename_i hgerr
      exact absurd (Prod.mk.inj (Prod.mk.inj (Except.ok.inj hcall)).2).1 hgerr
    · rename_i hgerr
      obtain rfl := not_not.mp hgerr
      have hresult := hget ▸ getFreeatom_spec sb io.freeFails
      have hdict : sb₁.dict = sb.dict := hresult.dict_eq
      obtain ⟨layout, htiled, hperm, hnodup⟩ := h.dir
      rw [← hdict] at hfits
      obtain ⟨rfl, hent⟩ := enterAtom_entered (hdict.symm ▸ htiled) (hdict.symm ▸ hperm) hnodup hnew
        hname hfits hcall
      obtain ⟨free', htable⟩ := h.enter hroom hresult hent
      refine .entered hnew htable ?_ ?_ ?_
      · rw [hent.low]
        cases hresult <;> rfl
      · rw [hent.high]
        cases hresult <;> rfl
      · rw [hent.blocksize, hdict]
  · rw [makeAtom_found hfind] at hcall
    obtain ⟨rfl, hmade⟩ := Prod.mk.inj (Except.ok.inj hcall)
    obtain rfl := (Prod.mk.inj hmade).2
    exact .found hmem hentry

end

/-! ## Runs -/

/-- The atoms, the names that are live, and the sums of what the counts were changed by. -/
structure RefState where
  sb : AtomSb
  live : List DirReport
  sum : Nat → Nat

/-- A name gets an atom, or a live atom is counted.  A call that fails before it has changed
anything is no step; what a failure further on leaves is not a count. -/
inductive RefStep : RefState → RefState → Prop
  | make {s : RefState} {io : AtomIo} {name : Bytes} {sb' : AtomSb} {atom : Nat}
      (hname : 0 < name.length) (hfits : tuxRecLen name.length ≤ s.sb.dict.blocksize)
      (hroom : s.sb.atomgen + 1 < 2 ^ 32) (hcall : makeAtom s.sb io name = .ok (sb', 0, atom)) :
      RefStep s ⟨sb', if name ∈ s.live.map DirReport.name then s.live
        else created name atom 0 (sb'.unatom atom).toNat :: s.live, s.sum⟩
  | ref {s : RefState} {io : RefIo} {entry : DirReport} {use : Int} {total : Nat} {sb' : AtomSb}
      (hmem : entry ∈ s.live) (huse : -2 ^ 15 ≤ use ∧ use ≤ 2 ^ 15)
      (htotal : (total : Int) = s.sum entry.inum + use) (hlt : total < 2 ^ 32)
      (hcall : atomref s.sb io entry.inum use = .ok (sb', 0)) :
      RefStep s ⟨sb', if total = 0 then s.live.erase entry else s.live,
        Function.update s.sum entry.inum total⟩

/-- The runs of the counts, from an empty table on. -/
def refSystem : System RefState where
  init s := s.sb.dict.blockbits ≤ 16 ∧ s.sb.dict.size = 0 ∧ s.live = [] ∧ s.sb.atomgen = 1 ∧
    s.sb.freeatom = 0 ∧ (∀ atom, s.sb.unatom atom = 0) ∧
    (∀ atom, s.sb.low atom = 0 ∧ s.sb.high atom = 0) ∧ ∀ atom, s.sum atom = 0
  next := RefStep

/-- The invariant. -/
structure RefInv (s : RefState) : Prop where
  table : ∃ free, AtomTable s.sb s.live free
  halves : HalvesOk s.sb
  count : s.sb.refcount = s.sum

/-- What holds of the counts: the two halves make up the sum, the free atoms are all that were
handed out and have no name, and a call counts exactly, and frees the atom exactly if the sum comes
to zero. -/
structure RefSound (s : RefState) : Prop where
  halves : ∀ atom, s.sb.low atom < 2 ^ 16 ∧ s.sb.high atom < 2 ^ 16
  count : ∀ atom, s.sb.low atom + 2 ^ 16 * s.sb.high atom = s.sum atom
  dir : DirInv ⟨s.sb.dict, s.live⟩
  free : ∃ free, Linked s.sb.nextFree 0 s.sb.freeatom free ∧ free.Nodup ∧ ∀ atom,
    atom ∈ free ↔ (1 ≤ atom ∧ atom < s.sb.atomgen) ∧ atom ∉ s.live.map DirReport.inum
  call : ∀ entry ∈ s.live, ∀ (io : RefIo) (use : Int) (total : Nat),
    -2 ^ 15 ≤ use ∧ use ≤ 2 ^ 15 → (total : Int) = s.sum entry.inum + use → total < 2 ^ 32 →
    ∃ sb' err, atomref s.sb io entry.inum use = .ok (sb', err) ∧
      (io.low.readFails = false → io.low.dirtyErr = 0 → io.Whole → err = 0) ∧
      (err = 0 → (total ≠ 0 → sb' = s.sb.setCount entry.inum total) ∧
        (total = 0 → Freed (s.sb.setCount entry.inum 0) s.live entry sb'))

section

variable {s s' : RefState}

theorem refInv_init (h : refSystem.init s) : RefInv s := by
  obtain ⟨hbits, hsize, hlive, hgen, hfree, hunatom, hzero, hsum⟩ := h
  refine ⟨⟨[], dirInv_init hbits hsize hlive, hfree, ?_, fun atom => ?_, ?_, ?_, ?_, ?_, ?_⟩,
    ⟨fun atom => ?_, fun atom => ?_⟩, ?_⟩
  · rw [hlive]
    exact List.nodup_nil
  · rw [hlive, hgen]
    constructor
    · intro hmem
      exact absurd hmem List.not_mem_nil
    · omega
  · omega
  · omega
  · exact fun a ha => absurd ha List.not_mem_nil
  · intro e he
    rw [hlive] at he
    exact absurd he List.not_mem_nil
  · intro a
    rw [hunatom]
  · rw [(hzero atom).1]
    exact Nat.two_pow_pos 16
  · rw [(hzero atom).2]
    exact Nat.two_pow_pos 16
  · funext atom
    unfold AtomSb.refcount
    rw [(hzero atom).1, (hzero atom).2, hsum, Nat.mul_zero]

/-- A step keeps the invariant. -/
theorem RefInv.step (h : RefInv s) (hstep : RefStep s s') : RefInv s' := by
  obtain ⟨⟨free, htable⟩, hhalves, hcount⟩ := h
  cases hstep with
  | make hname hfits hroom hcall =>
      cases makeAtom_spec htable hroom hname hfits hcall with
      | @found entry hmem hentry =>
          rw [if_pos (hentry ▸ List.mem_map_of_mem hmem)]
          exact ⟨⟨free, htable⟩, hhalves, hcount⟩
      | @entered _ _ free' hnew htable' hlow hhigh _ =>
          rw [if_neg hnew]
          refine ⟨⟨free', htable'⟩, ⟨?_, ?_⟩, ?_⟩
          · rw [hlow]
            exact hhalves.low_lt
          · rw [hhigh]
            exact hhalves.high_lt
          · rw [← hcount]
            unfold AtomSb.refcount
            rw [hlow, hhigh]
  | @ref io entry use total sb' hmem huse htotal hlt hcall =>
      rw [← hcount] at htotal
      obtain ⟨r, heq, hr⟩ := atomref_spec htable hhalves hmem huse htotal hlt io
      obtain rfl := Except.ok.inj (hcall.symm.trans heq)
      have hset := s.sb.refcount_setCount entry.inum total
      rw [hcount] at hset
      cases hr with
      | untouched _ hne => exact absurd rfl hne
      | counted hne =>
          rw [if_neg hne]
          exact ⟨⟨free, htable.setCount⟩, hhalves.setCount hlt, hset⟩
      | freed hzero hfreed =>
          subst hzero
          rw [if_pos rfl]
          have hhalves' := @HalvesOk.setCount s.sb entry.inum 0 hhalves hlt
          refine ⟨⟨_, hfreed.table htable.setCount hmem⟩, ⟨?_, ?_⟩, ?_⟩
          · rw [hfreed.low]
            exact hhalves'.low_lt
          · rw [hfreed.high]
            exact hhalves'.high_lt
          · rw [← hset]
            unfold AtomSb.refcount
            rw [hfreed.low, hfreed.high]
      | torn _ hne => exact absurd rfl hne

theorem RefInv.sound (h : RefInv s) : RefSound s := by
  obtain ⟨⟨free, htable⟩, hhalves, hcount⟩ := h
  refine ⟨fun atom => ⟨hhalves.low_lt atom, hhalves.high_lt atom⟩, fun atom => congrFun hcount atom,
    htable.dir,
    ⟨free, htable.linked, (List.nodup_append.mp htable.nodup).1, fun _ => htable.mem_iff⟩,
    fun entry hmem io use total huse htotal hlt => ?_⟩
  rw [← hcount] at htotal
  obtain ⟨⟨sb', err⟩, heq, hr⟩ := atomref_spec htable hhalves hmem huse htotal hlt io
  refine ⟨sb', err, heq, ?_, ?_⟩
  · intro hread hdirty hwhole
    cases hr with
    | untouched hio hne =>
        rcases hio with hfail | hfail
        · exact absurd (hread.symm.trans hfail) Bool.false_ne_true
        · exact absurd hdirty hfail
    | counted _ => rfl
    | freed _ _ => rfl
    | torn hio _ => exact absurd hwhole hio
  · intro hzero
    cases hr with
    | untouched _ hne => exact absurd hzero hne
    | counted hne => exact ⟨fun _ => rfl, fun htotal => absurd htotal hne⟩
    | freed htotal hfreed => exact ⟨fun hne => absurd htotal hne, fun _ => hfreed⟩
    | torn _ hne => exact absurd hzero hne

/-- In every run the halves of a count make up its sum, and an atom is freed exactly when the sum
comes to zero. -/
theorem refSystem_sound (h : refSystem.Reachable s) : RefSound s := by
  refine RefInv.sound (h.invariant (I := RefInv) ?_ ?_)
  · intro s hinit
    exact refInv_init hinit
  · intro s s' hinv hstep
    exact hinv.step hstep

end

/-- An empty table. -/
def emptyAtoms : AtomSb where
  dict := emptyDir 6
  atomgen := 1
  freeatom := 0
  unatom := fun _ => 0
  low := fun _ => 0
  high := fun _ => 0

/-- A name that is used once and then not any more: its atom is free. -/
theorem refSystem_sound_freed : ∃ s, s.sb.freeatom = 1 ∧ s.live = [] ∧ RefSound s := by
  have hinit : refSystem.Reachable ⟨emptyAtoms, [], fun _ => 0⟩ :=
    .init ⟨by decide, rfl, rfl, rfl, rfl, fun _ => rfl, fun _ => ⟨rfl, rfl⟩, fun _ => rfl⟩
  have hmake := hinit.next (@RefStep.make _ quietIo.atom [97] _ _ (by decide) (by decide)
    (by decide) rfl)
  have hused := hmake.next (@RefStep.ref _ quietIo.ref _ 1 1 _ List.mem_cons_self (by decide)
    (by decide) (by decide) rfl)
  have hfreed := hused.next (@RefStep.ref _ quietIo.ref _ (-1) 0 _ List.mem_cons_self (by decide)
    (by decide) (by decide) rfl)
  exact ⟨_, rfl, rfl, refSystem_sound hfreed⟩

end Tux3.Xattr
