/-
  Inode/IleafResize.lean --- more or less room for the attributes of an inode, and the split of a
  leaf.

  `ileaf_resize` moves the attributes that follow and adds the difference to their offsets; for a
  number past the dictionary it extends that first.  The size that it then compares with the free
  bytes is an `int`, and for the largest sizes their sum with the new entries is negative.
-/
import Tux3.Inode.IleafBlock

set_option autoImplicit false

namespace Tux3

/-! ## Resizing -/

/-- The dictionary reaches index `at`. -/
def extendedLeaf (leaf : IleafBlock) (at_ : Nat) : IleafBlock :=
  { leaf with
    dict := leaf.dict ++
      List.replicate (at_ + 1 - leaf.icount) (leaf.atdict leaf.icount) }

/-- The attributes at index `at`, of `size` bytes from `offset` on, get `newsize` bytes. -/
def resizedLeaf (leaf : IleafBlock) (at_ offset size newsize : Nat) : IleafBlock :=
  if newsize = size then leaf
  else
    let limit := leaf.atdict leaf.icount
    { leaf with
      table := copyTo leaf.table (offset + newsize) (fun i => leaf.table (offset + size + i))
        (limit - offset - size)
      dict := shiftDict leaf.dict at_ (newsize - size) }

/-- `ileaf_resize`, and the offset of the attributes if there is space for them. -/
def ileafResize (g : Geometry) (leaf : IleafBlock) (inum newsize : Nat) :
    Except TuxError (IleafBlock × Option Nat) := do
  let count := leaf.icount
  let at_ := inum - leaf.ibase
  tuxAssert (leaf.ibase ≤ inum)
  if count < at_ + 1 then
    if g.blocksize ≤ (at_ + 1) * 2 then return (leaf, none)
    else
      let extendDict := (at_ + 1 - count) * 2
      let offset := leaf.atdict count
      if ileafFree g leaf.toIleaf < int32 (newsize + extendDict) then return (leaf, none)
      -- the dictionary would be extended into the attributes
      else if ileafFree g leaf.toIleaf < extendDict then .error .bounds
      else return (resizedLeaf (extendedLeaf leaf at_) at_ offset 0 newsize, some offset)
  else
    let offset := leaf.atdict at_
    let size := leaf.atdict (at_ + 1) - offset
    if ileafFree g leaf.toIleaf < int32 ((newsize : Int) - size) then return (leaf, none)
    else return (resizedLeaf leaf at_ offset size newsize, some offset)

/-! ## Splitting -/

/-- `btree->entries_per_leaf`, of `ileaf_btree_init`. -/
def ileafEntriesPerLeaf (g : Geometry) : Nat := 2 ^ (g.blockbits - 6)

/-- `dest->ibase`. -/
def splitIbase (g : Geometry) (leaf : Ileaf) (hint : Nat) : Nat :=
  let round := hint / ileafEntriesPerLeaf g * ileafEntriesPerLeaf g
  if leaf.ibase + leaf.icount < round then round else hint

/-- `into` after the split. -/
def splitDest (g : Geometry) (leaf into : IleafBlock) (hint at_ : Nat) : IleafBlock :=
  let split := leaf.atdict at_
  let free := leaf.atdict leaf.icount
  { ibase := splitIbase g leaf.toIleaf hint
    dict := (leaf.dict.drop at_).map (addIdict · (-(split : Int)))
    table := copyTo into.table 0 (fun i => leaf.table (split + i)) (free - split) }

/-- The first leaf after the split, before it is trimmed. -/
def splitFrom (g : Geometry) (leaf : IleafBlock) (at_ : Nat) : IleafBlock :=
  let split := leaf.atdict at_
  { leaf with
    dict := leaf.dict.take at_
    table := copyTo leaf.table split (fun _ => 0) (g.blocksize - at_ * 2 - ileafHeader - split) }

/-- `ileaf_split`: both leaves, and the base of the second one; the numbers are of 64 bits. -/
def ileafSplit (g : Geometry) (hint : Nat) (leaf into : IleafBlock) :
    Except TuxError (IleafBlock × IleafBlock × Nat) := do
  let hint := if hint = leaf.ibase then hint + 1 else hint
  let at_ := min ((hint + 2 ^ 64 - leaf.ibase) % 2 ^ 64) leaf.icount
  tuxAssert (leaf.atdict at_ ≤ leaf.atdict leaf.icount)
  let dest := splitDest g leaf into hint at_
  return (ileafTrim (splitFrom g leaf at_), dest, dest.ibase)

/-! ## What they are for -/

/-- There is room for the attributes of an inode with a size. -/
def ResizeFits (g : Geometry) (leaf : Ileaf) (inum newsize : Nat) : Prop :=
  leaf.atdict leaf.icount - leaf.sizeAt (inum - leaf.ibase) + newsize +
    max leaf.icount (inum - leaf.ibase + 1) * 2 + ileafHeader ≤ g.blocksize

/-- The inode has attributes of the new size, that are its old ones up to the smaller one of both
sizes, and all other inodes have what they had. -/
structure Resized (g : Geometry) (leaf : IleafBlock) (inum newsize offset : Nat)
    (leaf' : IleafBlock) : Prop where
  ibase_eq : leaf'.ibase = leaf.ibase
  size : (leaf'.attrs (inum - leaf.ibase)).length = newsize
  kept : (leaf'.attrs (inum - leaf.ibase)).take (leaf.sizeAt (inum - leaf.ibase)) =
    (leaf.attrs (inum - leaf.ibase)).take newsize
  place : leaf'.atdict (inum - leaf.ibase) = offset
  others : ∀ inum', inum' ≠ inum → ileafLookup leaf' inum' = ileafLookup leaf inum'
  formed : IleafFormed g leaf'.toIleaf

/-- What `ileaf_resize` should come to. -/
inductive ResizeRight (g : Geometry) (leaf : IleafBlock) (inum newsize : Nat) :
    Except TuxError (IleafBlock × Option Nat) → Prop where
  | full (h : ¬ ResizeFits g leaf.toIleaf inum newsize) :
      ResizeRight g leaf inum newsize (.ok (leaf, none))
  | resized {leaf' : IleafBlock} {offset : Nat} (h : Resized g leaf inum newsize offset leaf') :
      ResizeRight g leaf inum newsize (.ok (leaf', some offset))

/-- The size and the bytes of the new entries are an `int`, if the leaf is not too small for the
entries alone. -/
def ResizeSound (g : Geometry) (leaf : Ileaf) (inum newsize : Nat) : Prop :=
  inum - leaf.ibase < leaf.icount ∨ g.blocksize ≤ (inum - leaf.ibase + 1) * 2 ∨
    newsize + (inum - leaf.ibase + 1 - leaf.icount) * 2 < 2 ^ 31

/-- The second leaf has the inodes from its base on, and the first one those below. -/
structure Split (g : Geometry) (leaf : IleafBlock) (leaf' dest : IleafBlock) (ibase : Nat) :
    Prop where
  ibase_eq : dest.ibase = ibase
  after : leaf.ibase < ibase
  below : ∀ inum, inum < ibase → ileafLookup leaf' inum = ileafLookup leaf inum
  above : ∀ inum, ibase ≤ inum → ileafLookup dest inum = ileafLookup leaf inum
  moved : ∀ inum, ibase ≤ inum → ileafLookup leaf' inum = .ok none
  formed : IleafFormed g leaf'.toIleaf
  formed_dest : IleafFormed g dest.toIleaf

section

variable {g : Geometry} {leaf into : IleafBlock} {i at_ offset size newsize inum hint : Nat}

/-! ## Extended dictionaries -/

theorem extendedLeaf_icount (h : leaf.icount ≤ at_ + 1) :
    (extendedLeaf leaf at_).icount = at_ + 1 := by
  unfold extendedLeaf Ileaf.icount at *
  rw [List.length_append, List.length_replicate]
  omega

/-- The new entries are all the last offset. -/
theorem extendedLeaf_atdict (hi : i ≤ at_ + 1) :
    (extendedLeaf leaf at_).atdict i = leaf.atdict (min i leaf.icount) := by
  have hcount : leaf.icount = leaf.dict.length := rfl
  by_cases hle : i ≤ leaf.icount
  · rw [Nat.min_eq_left hle]
    unfold extendedLeaf Ileaf.atdict
    split
    · rfl
    · rw [List.getD_append _ _ _ _ (by omega)]
  · rw [Nat.min_eq_right (by omega)]
    have hlt : i - 1 - leaf.dict.length < at_ + 1 - leaf.icount := by omega
    unfold extendedLeaf
    show (if i = 0 then 0 else (leaf.dict ++ _).getD (i - 1) 0) = _
    rw [if_neg (by omega), List.getD_append_right _ _ _ _ (by omega), List.getD_eq_getElem?_getD,
      List.getElem?_replicate_of_lt hlt]
    rfl

theorem extendedLeaf_sorted (h : leaf.Sorted) (hcount : leaf.icount ≤ at_ + 1) :
    (extendedLeaf leaf at_).Sorted := by
  intro i hi
  rw [extendedLeaf_icount hcount] at hi
  rw [extendedLeaf_atdict (Nat.le_of_lt hi), extendedLeaf_atdict hi]
  exact h.mono (by omega) (Nat.min_le_right _ _)

theorem extendedLeaf_need (hcount : leaf.icount ≤ at_ + 1) :
    ileafNeed (extendedLeaf leaf at_).toIleaf =
      ileafNeed leaf.toIleaf + (at_ + 1 - leaf.icount) * 2 := by
  unfold ileafNeed
  rw [extendedLeaf_icount hcount, extendedLeaf_atdict (Nat.le_refl _), Nat.min_eq_right hcount]
  omega

/-- The new numbers have no attributes. -/
theorem extendedLeaf_attrs (hcount : leaf.icount ≤ at_ + 1) (i : Nat) :
    (extendedLeaf leaf at_).attrs i = leaf.attrs i := by
  by_cases hi : i < leaf.icount
  · have hlow := @extendedLeaf_atdict leaf i at_ (by omega)
    have hhigh := @extendedLeaf_atdict leaf (i + 1) at_ (by omega)
    rw [Nat.min_eq_left (by omega)] at hlow hhigh
    have hsize : (extendedLeaf leaf at_).sizeAt i = leaf.sizeAt i := by
      unfold Ileaf.sizeAt
      rw [extendedLeaf_icount hcount, if_pos (by omega), if_pos hi, hlow, hhigh]
    unfold IleafBlock.attrs
    rw [hsize, hlow]
    rfl
  · have hsize : (extendedLeaf leaf at_).sizeAt i = 0 := by
      unfold Ileaf.sizeAt
      rw [extendedLeaf_icount hcount]
      split
      · rename_i hlt
        rw [extendedLeaf_atdict (by omega), extendedLeaf_atdict (by omega),
          Nat.min_eq_right (by omega), Nat.min_eq_right (by omega)]
        omega
      · rfl
    rw [IleafBlock.attrs_of_size hsize,
      IleafBlock.attrs_of_size (Ileaf.sizeAt_of_ge (Nat.not_lt.mp hi))]

/-! ## The attributes that follow -/

section

theorem resizedLeaf_icount : (resizedLeaf leaf at_ offset size newsize).icount = leaf.icount := by
  unfold resizedLeaf
  split
  · rfl
  · exact shiftDict_length _ _ _

variable (h : IleafFormed g leaf.toIleaf) (hat : at_ < leaf.icount)
  (hroom : ileafNeed leaf.toIleaf + newsize + ileafHeader ≤ g.blocksize + leaf.sizeAt at_)

include h hat hroom

/-- The offsets after the attributes are moved by the difference of the sizes. -/
theorem resizedLeaf_atdict (hi : i ≤ leaf.icount) :
    (resizedLeaf leaf at_ (leaf.atdict at_) (leaf.sizeAt at_) newsize).atdict i =
      if i ≤ at_ then leaf.atdict i else leaf.atdict i + newsize - leaf.sizeAt at_ := by
  have hsize := h.sizeAt hat
  have hstep := h.sorted at_ hat
  unfold resizedLeaf
  split
  · rename_i heq
    rw [heq, Nat.add_sub_cancel, ite_self]
  · rw [@shiftDict_atdict i leaf.toIleaf _ _ at_ rfl hi]
    split
    · rfl
    · have hle := h.sorted.mono (show at_ + 1 ≤ i by omega) hi
      have hlast := h.sorted.mono hi (Nat.le_refl _)
      have hblock := g.blocksize_le
      unfold ileafNeed ileafHeader at hroom
      unfold addIdict
      omega

theorem resizedLeaf_formed :
    IleafFormed g (resizedLeaf leaf at_ (leaf.atdict at_) (leaf.sizeAt at_) newsize).toIleaf := by
  have hsize := h.sizeAt hat
  have hcount := @resizedLeaf_icount leaf at_ (leaf.atdict at_) (leaf.sizeAt at_) newsize
  constructor
  · intro i hi
    rw [hcount] at hi
    have hstep := h.sorted i hi
    rw [resizedLeaf_atdict h hat hroom (Nat.le_of_lt hi),
      resizedLeaf_atdict h hat hroom (show i + 1 ≤ leaf.icount from hi)]
    rcases Nat.lt_trichotomy i at_ with hlt | rfl | hgt
    · rw [if_pos (by omega), if_pos (by omega)]
      exact hstep
    · rw [if_pos (by omega), if_neg (by omega)]
      omega
    · have hle := h.sorted.mono (show at_ + 1 ≤ i from hgt) (Nat.le_of_lt hi)
      rw [if_neg (by omega), if_neg (by omega)]
      omega
  · have hle := h.sorted.mono (show at_ + 1 ≤ leaf.icount from hat) (Nat.le_refl _)
    have hlast := resizedLeaf_atdict h hat hroom (Nat.le_refl _)
    rw [if_neg (by omega)] at hlast
    unfold ileafNeed at hroom ⊢
    rw [hcount, hlast]
    omega

/-- Only the size at the index changes. -/
theorem resizedLeaf_sizeAt :
    (resizedLeaf leaf at_ (leaf.atdict at_) (leaf.sizeAt at_) newsize).sizeAt i =
      if i = at_ then newsize else leaf.sizeAt i := by
  have hsize := h.sizeAt hat
  have hcount := @resizedLeaf_icount leaf at_ (leaf.atdict at_) (leaf.sizeAt at_) newsize
  have hformed := resizedLeaf_formed h hat hroom
  by_cases hi : i < leaf.icount
  · have hstep := h.sorted i hi
    have hold := h.sizeAt hi
    rw [hformed.sizeAt (hcount ▸ hi), resizedLeaf_atdict h hat hroom (Nat.le_of_lt hi),
      resizedLeaf_atdict h hat hroom (show i + 1 ≤ leaf.icount from hi)]
    rcases Nat.lt_trichotomy i at_ with hlt | rfl | hgt
    · rw [if_pos (by omega), if_pos (by omega), if_neg (by omega)]
      exact hold.symm
    · rw [if_pos (Nat.le_refl _), if_neg (by omega), if_pos rfl]
      omega
    · have hle := h.sorted.mono (show at_ + 1 ≤ i from hgt) (Nat.le_of_lt hi)
      rw [if_neg (by omega), if_neg (by omega), if_neg (by omega)]
      omega
  · rw [Ileaf.sizeAt_of_ge (hcount ▸ Nat.not_lt.mp hi), if_neg (by omega),
      Ileaf.sizeAt_of_ge (Nat.not_lt.mp hi)]

/-- The other attributes stay, at their new place. -/
theorem resizedLeaf_attrs_other (hne : i ≠ at_) :
    (resizedLeaf leaf at_ (leaf.atdict at_) (leaf.sizeAt at_) newsize).attrs i =
      leaf.attrs i := by
  by_cases hi : i < leaf.icount
  · have hsize := h.sizeAt hat
    have hold := h.sizeAt hi
    have hplace := resizedLeaf_atdict h hat hroom (Nat.le_of_lt hi)
    have hend := h.sorted.mono (show i + 1 ≤ leaf.icount from hi) (Nat.le_refl _)
    unfold IleafBlock.attrs
    rw [resizedLeaf_sizeAt h hat hroom, if_neg hne, hplace]
    refine List.map_congr_left fun k hk => ?_
    rw [List.mem_range, hold] at hk
    unfold resizedLeaf
    split
    · rename_i heq
      rw [heq, Nat.add_sub_cancel, ite_self]
    · unfold copyTo
      dsimp only
      by_cases hle : i ≤ at_
      · have hbefore := h.sorted.mono (show i + 1 ≤ at_ by omega) (Nat.le_of_lt hat)
        rw [if_pos hle, if_neg (by omega)]
      · have hafter := h.sorted.mono (show at_ + 1 ≤ i by omega) (Nat.le_of_lt hi)
        have hstep := h.sorted at_ hat
        rw [if_neg hle, if_pos (by omega)]
        congr 1
        omega
  · have hcount := @resizedLeaf_icount leaf at_ (leaf.atdict at_) (leaf.sizeAt at_) newsize
    rw [IleafBlock.attrs_of_size (Ileaf.sizeAt_of_ge (hcount ▸ Nat.not_lt.mp hi)),
      IleafBlock.attrs_of_size (Ileaf.sizeAt_of_ge (Nat.not_lt.mp hi))]

/-- The attributes themselves stay up to the smaller one of both sizes. -/
theorem resizedLeaf_attrs_self :
    ((resizedLeaf leaf at_ (leaf.atdict at_) (leaf.sizeAt at_) newsize).attrs at_).take
      (leaf.sizeAt at_) = (leaf.attrs at_).take newsize := by
  have hplace := resizedLeaf_atdict h hat hroom (Nat.le_of_lt hat)
  rw [if_pos (Nat.le_refl _)] at hplace
  unfold IleafBlock.attrs
  rw [resizedLeaf_sizeAt h hat hroom, if_pos rfl, hplace, ← List.map_take, ← List.map_take,
    List.take_range, List.take_range, Nat.min_comm]
  refine List.map_congr_left fun k hk => ?_
  rw [List.mem_range] at hk
  unfold resizedLeaf
  split
  · rfl
  · unfold copyTo
    exact if_neg (by omega)

theorem resizedLeaf_resized (hinum : leaf.ibase ≤ inum) (hat_eq : inum - leaf.ibase = at_) :
    Resized g leaf inum newsize (leaf.atdict at_)
      (resizedLeaf leaf at_ (leaf.atdict at_) (leaf.sizeAt at_) newsize) := by
  have hbase : (resizedLeaf leaf at_ (leaf.atdict at_) (leaf.sizeAt at_) newsize).ibase =
      leaf.ibase := by
    unfold resizedLeaf
    split <;> rfl
  refine ⟨hbase, ?_, ?_, ?_, fun inum' hne => ?_, resizedLeaf_formed h hat hroom⟩
  · rw [hat_eq, IleafBlock.attrs_length, resizedLeaf_sizeAt h hat hroom, if_pos rfl]
  · rw [hat_eq]
    exact resizedLeaf_attrs_self h hat hroom
  · rw [hat_eq, resizedLeaf_atdict h hat hroom (Nat.le_of_lt hat), if_pos (Nat.le_refl _)]
  · refine ileafLookup_congr hbase fun hle => resizedLeaf_attrs_other h hat hroom ?_
    omega

end

/-- An extension of the dictionary is not seen by lookups. -/
theorem Resized.of_extended {leaf' : IleafBlock} {offset : Nat} (hcount : leaf.icount ≤ at_ + 1)
    (h : Resized g (extendedLeaf leaf at_) inum newsize offset leaf') :
    Resized g leaf inum newsize offset leaf' := by
  obtain ⟨hbase, hsize, hkept, hplace, hothers, hformed⟩ := h
  refine ⟨hbase, hsize, ?_, hplace, fun inum' hne => ?_, hformed⟩
  · have hattrs := extendedLeaf_attrs hcount (inum - leaf.ibase)
    rw [← IleafBlock.attrs_length, ← hattrs, IleafBlock.attrs_length]
    exact hkept
  · rw [hothers inum' hne]
    exact ileafLookup_congr rfl fun _ => extendedLeaf_attrs hcount _

/-! ## Where the resize is right -/

theorem int32_of_lt {x : Int} (hneg : -2 ^ 31 ≤ x) (hlt : x < 2 ^ 31) : int32 x = x := by
  unfold int32
  omega

theorem int32_wraps {x : Nat} (hge : 2 ^ 31 ≤ x) (hlt : x < 2 ^ 32) : int32 x < 0 := by
  unfold int32
  omega

theorem ResizeRight.of_some {leaf' : IleafBlock}
    (h : ResizeRight g leaf inum newsize (.ok (leaf', some offset))) :
    Resized g leaf inum newsize offset leaf' := by
  generalize hresult : (.ok (leaf', some offset) : Except TuxError _) = result at h
  cases h with
  | full _ =>
      have hsome := congrArg Prod.snd (Except.ok.inj hresult)
      cases hsome
  | resized hresized =>
      obtain ⟨hleaf, hplace⟩ := Prod.mk.inj (Except.ok.inj hresult)
      rw [hleaf, Option.some.inj hplace]
      exact hresized

/-- A size that is not that of the attributes after the difference was added in 16 bits. -/
theorem not_resized_of_large {dict : IleafBlock} (hat : at_ < dict.icount)
    (hlow : dict.atdict at_ < 2 ^ 16) (hsize : 2 ^ 16 ≤ newsize) (hnew : newsize < 2 ^ 31)
    (heq : inum - leaf.ibase = at_) :
    ¬ Resized g leaf inum newsize offset (resizedLeaf dict at_ offset 0 newsize) := by
  intro hresized
  have hlength := hresized.size
  have hne : newsize ≠ 0 := by omega
  have hatdict : ∀ i, i ≤ dict.icount → (resizedLeaf dict at_ offset 0 newsize).atdict i =
      if i ≤ at_ then dict.atdict i else addIdict (dict.atdict i) (newsize - (0 : Nat)) := by
    intro i hi
    unfold resizedLeaf
    rw [if_neg hne]
    exact @shiftDict_atdict i dict.toIleaf _ _ at_ rfl hi
  have hstart := hatdict at_ (Nat.le_of_lt hat)
  have hend := hatdict (at_ + 1) hat
  rw [if_pos (Nat.le_refl _)] at hstart
  rw [if_neg (by omega)] at hend
  have hentry : addIdict (dict.atdict (at_ + 1)) (newsize - (0 : Nat)) < 2 ^ 16 := by
    unfold addIdict
    omega
  rw [heq, IleafBlock.attrs_length] at hlength
  unfold Ileaf.sizeAt at hlength
  rw [resizedLeaf_icount, if_pos hat, hstart, hend] at hlength
  omega

/-- `ileaf_resize` of a number in the dictionary. -/
theorem ileafResize_inside (h : IleafFormed g leaf.toIleaf) (hinum : leaf.ibase ≤ inum)
    (hnew : newsize < 2 ^ 31) (hin : inum - leaf.ibase < leaf.icount) :
    ResizeRight g leaf inum newsize (ileafResize g leaf inum newsize) := by
  have hsize := h.sizeAt hin
  have hlt := h.atdict_lt (show inum - leaf.ibase + 1 ≤ leaf.icount from hin)
  have hstep := h.sorted _ hin
  have hend := h.sorted.mono (show inum - leaf.ibase + 1 ≤ leaf.icount from hin) (Nat.le_refl _)
  unfold ileafResize
  dsimp only
  rw [Outcome.bind_of_ok (tuxAssert_of hinum), if_neg (by omega), ← hsize,
    int32_of_lt (by omega) (by omega)]
  split
  · rename_i hfull
    refine .full fun hfits => ?_
    unfold ResizeFits at hfits
    unfold ileafFree ileafNeed at hfull
    omega
  · rename_i hroom
    refine .resized (resizedLeaf_resized h hin ?_ hinum rfl)
    unfold ileafFree at hroom
    omega

/-- `ileaf_resize` of a number past the dictionary. -/
theorem ileafResize_outside (h : IleafFormed g leaf.toIleaf) (hinum : leaf.ibase ≤ inum)
    (hnew : newsize < 2 ^ 31) (hout : leaf.icount ≤ inum - leaf.ibase)
    (hblock : (inum - leaf.ibase + 1) * 2 < g.blocksize) :
    ResizeRight g leaf inum newsize (ileafResize g leaf inum newsize) ↔
      newsize + (inum - leaf.ibase + 1 - leaf.icount) * 2 < 2 ^ 31 := by
  have hlimit := g.blocksize_le
  have hfits := h.fits
  have hcount : leaf.icount ≤ inum - leaf.ibase + 1 := Nat.le_succ_of_le hout
  have hzero := Ileaf.sizeAt_of_ge hout
  have hicount := extendedLeaf_icount hcount
  have hoffset := @extendedLeaf_atdict leaf (inum - leaf.ibase) (inum - leaf.ibase)
    (Nat.le_succ _)
  rw [Nat.min_eq_right hout] at hoffset
  unfold ileafResize
  dsimp only
  rw [Outcome.bind_of_ok (tuxAssert_of hinum), if_pos (by omega), if_neg (by omega)]
  by_cases hint : newsize + (inum - leaf.ibase + 1 - leaf.icount) * 2 < 2 ^ 31
  · refine ⟨fun _ => hint, fun _ => ?_⟩
    rw [int32_of_lt (by omega) (by omega)]
    split
    · rename_i hfull
      refine .full fun hroom => ?_
      unfold ResizeFits at hroom
      unfold ileafFree ileafNeed at hfull
      omega
    · rename_i hroom
      rw [if_neg (by omega)]
      have hneed := extendedLeaf_need hcount
      have hformed : IleafFormed g (extendedLeaf leaf (inum - leaf.ibase)).toIleaf := by
        refine ⟨extendedLeaf_sorted h.sorted hcount, ?_⟩
        unfold ileafFree at hroom
        omega
      have hsize : (extendedLeaf leaf (inum - leaf.ibase)).sizeAt (inum - leaf.ibase) = 0 := by
        rw [← IleafBlock.attrs_length, extendedLeaf_attrs hcount, IleafBlock.attrs_length, hzero]
      have hspace : ileafNeed (extendedLeaf leaf (inum - leaf.ibase)).toIleaf + newsize +
          ileafHeader ≤ g.blocksize +
            (extendedLeaf leaf (inum - leaf.ibase)).sizeAt (inum - leaf.ibase) := by
        unfold ileafFree at hroom
        omega
      have hin : inum - leaf.ibase < (extendedLeaf leaf (inum - leaf.ibase)).icount := by
        rw [hicount]
        exact Nat.lt_succ_self _
      have hresized := resizedLeaf_resized hformed hin hspace hinum rfl
      rw [hoffset, hsize] at hresized
      exact .resized (hresized.of_extended hcount)
  · refine ⟨fun hright => ?_, fun hlt => absurd hlt hint⟩
    have hwrap := int32_wraps (x := newsize + (inum - leaf.ibase + 1 - leaf.icount) * 2)
      (Nat.not_lt.mp hint) (by omega)
    have hfree : 0 ≤ ileafFree g leaf.toIleaf := by
      unfold ileafFree
      omega
    rw [← Int.natCast_add, if_neg (Int.not_lt.mpr (Int.le_trans (Int.le_of_lt hwrap) hfree))]
      at hright
    split at hright
    · cases hright
    · have hlow := h.atdict_lt (Nat.le_refl leaf.icount)
      rw [← hoffset] at hlow
      exact absurd hright.of_some (not_resized_of_large (by omega) hlow (by omega) hnew rfl)

theorem ileafResize_right_iff (h : IleafFormed g leaf.toIleaf) (hinum : leaf.ibase ≤ inum)
    (hnew : newsize < 2 ^ 31) : ResizeRight g leaf inum newsize (ileafResize g leaf inum newsize) ↔
      ResizeSound g leaf.toIleaf inum newsize := by
  unfold ResizeSound
  by_cases hin : inum - leaf.ibase < leaf.icount
  · exact ⟨fun _ => .inl hin, fun _ => ileafResize_inside h hinum hnew hin⟩
  rw [or_iff_right hin]
  by_cases hblock : g.blocksize ≤ (inum - leaf.ibase + 1) * 2
  · refine ⟨fun _ => .inl hblock, fun _ => ?_⟩
    unfold ileafResize
    dsimp only
    rw [Outcome.bind_of_ok (tuxAssert_of hinum), if_pos (by omega), if_pos hblock]
    refine .full fun hfits => ?_
    unfold ResizeFits ileafHeader at hfits
    omega
  · rw [or_iff_right hblock]
    exact ileafResize_outside h hinum hnew (Nat.not_lt.mp hin) (Nat.not_le.mp hblock)

/-! ## The two leaves of a split -/

theorem splitDest_icount : (splitDest g leaf into hint at_).icount = leaf.icount - at_ := by
  unfold splitDest Ileaf.icount
  rw [List.length_map, List.length_drop]

theorem splitFrom_icount (hat : at_ ≤ leaf.icount) : (splitFrom g leaf at_).icount = at_ := by
  unfold splitFrom Ileaf.icount
  rw [List.length_take]
  exact Nat.min_eq_left hat

section

variable (h : IleafFormed g leaf.toIleaf) (hat : at_ ≤ leaf.icount)
include h hat

theorem splitDest_atdict (hi : i ≤ leaf.icount - at_) :
    (splitDest g leaf into hint at_).atdict i = leaf.atdict (at_ + i) - leaf.atdict at_ := by
  have hcount : leaf.icount = leaf.dict.length := rfl
  by_cases hzero : i = 0
  · rw [hzero, Nat.add_zero, Nat.sub_self]
    rfl
  · have hlt := h.atdict_lt (show at_ + i ≤ leaf.icount by omega)
    have hle := h.sorted.mono (Nat.le_add_right at_ i) (show at_ + i ≤ leaf.icount by omega)
    rw [← addIdict_neg hlt hle]
    unfold splitDest
    show (if i = 0 then 0 else List.getD _ (i - 1) 0) =
      addIdict (if at_ + i = 0 then 0 else leaf.dict.getD (at_ + i - 1) 0) _
    rw [if_neg hzero, if_neg (by omega), List.getD_eq_getElem?_getD, List.getElem?_map,
      List.getElem?_drop, List.getD_eq_getElem _ _ (show at_ + i - 1 < leaf.dict.length by omega),
      show at_ + (i - 1) = at_ + i - 1 by omega,
      List.getElem?_eq_getElem (show at_ + i - 1 < leaf.dict.length by omega)]
    rfl

theorem splitDest_formed : IleafFormed g (splitDest g leaf into hint at_).toIleaf := by
  constructor
  · intro i hi
    rw [splitDest_icount] at hi
    have hstep := h.sorted (at_ + i) (by omega)
    rw [splitDest_atdict h hat (Nat.le_of_lt hi),
      splitDest_atdict h hat (show i + 1 ≤ leaf.icount - at_ from hi), ← Nat.add_assoc]
    omega
  · have hfits := h.fits
    have hlast := @splitDest_atdict g leaf into _ at_ hint h hat (Nat.le_refl _)
    rw [Nat.add_sub_cancel' hat] at hlast
    unfold ileafNeed at hfits ⊢
    rw [splitDest_icount, hlast]
    omega

/-- The second leaf has the attributes from the index on. -/
theorem splitDest_attrs (i : Nat) :
    (splitDest g leaf into hint at_).attrs i = leaf.attrs (at_ + i) := by
  by_cases hi : i < leaf.icount - at_
  · have hformed := @splitDest_formed g leaf into at_ hint h hat
    have hlow := @splitDest_atdict g leaf into i at_ hint h hat (Nat.le_of_lt hi)
    have hhigh := @splitDest_atdict g leaf into (i + 1) at_ hint h hat hi
    have hstart := h.sorted.mono (Nat.le_add_right at_ i) (show at_ + i ≤ leaf.icount by omega)
    have hstep := h.sorted (at_ + i) (by omega)
    have hold := h.sizeAt (show at_ + i < leaf.icount by omega)
    have hsize : (splitDest g leaf into hint at_).sizeAt i = leaf.sizeAt (at_ + i) := by
      rw [hformed.sizeAt (by rwa [splitDest_icount]), hold, hlow, hhigh, ← Nat.add_assoc]
      omega
    unfold IleafBlock.attrs
    rw [hsize, hlow]
    refine List.map_congr_left fun k hk => ?_
    rw [List.mem_range, hold] at hk
    have hend := h.sorted.mono (show at_ + i + 1 ≤ leaf.icount by omega) (Nat.le_refl _)
    unfold splitDest copyTo
    dsimp only
    rw [if_pos (by omega)]
    congr 1
    omega
  · rw [IleafBlock.attrs_of_size (Ileaf.sizeAt_of_ge (by rw [splitDest_icount]; omega)),
      IleafBlock.attrs_of_size (Ileaf.sizeAt_of_ge (by omega))]

theorem splitFrom_formed : IleafFormed g (splitFrom g leaf at_).toIleaf := by
  have hcount := @splitFrom_icount g leaf at_ hat
  have hatdict : ∀ i, i ≤ at_ → (splitFrom g leaf at_).atdict i = leaf.atdict i :=
    fun i hi => @Ileaf.atdict_take i (splitFrom g leaf at_).toIleaf _ _ rfl hi
  constructor
  · intro i hi
    rw [hcount] at hi
    rw [hatdict i (Nat.le_of_lt hi), hatdict (i + 1) hi]
    exact h.sorted i (Nat.lt_of_lt_of_le hi hat)
  · have hfits := h.fits
    have hmono := h.sorted.mono hat (Nat.le_refl _)
    unfold ileafNeed at hfits ⊢
    rw [hcount, hatdict at_ (Nat.le_refl _)]
    omega

/-- The first leaf keeps the attributes before the index. -/
theorem splitFrom_attrs (i : Nat) :
    (splitFrom g leaf at_).attrs i = if i < at_ then leaf.attrs i else [] := by
  have hcount := @splitFrom_icount g leaf at_ hat
  have hatdict : ∀ i, i ≤ at_ → (splitFrom g leaf at_).atdict i = leaf.atdict i :=
    fun i hi => @Ileaf.atdict_take i (splitFrom g leaf at_).toIleaf _ _ rfl hi
  split
  · rename_i hi
    have hlt : i < leaf.icount := Nat.lt_of_lt_of_le hi hat
    have hsize : (splitFrom g leaf at_).sizeAt i = leaf.sizeAt i := by
      unfold Ileaf.sizeAt
      rw [hcount, if_pos hi, if_pos hlt, hatdict i (Nat.le_of_lt hi), hatdict (i + 1) hi]
    have hend := h.sorted.mono (show i + 1 ≤ at_ from hi) hat
    unfold IleafBlock.attrs
    rw [hsize, hatdict i (Nat.le_of_lt hi)]
    refine List.map_congr_left fun k hk => ?_
    rw [List.mem_range, h.sizeAt hlt] at hk
    unfold splitFrom copyTo
    exact if_neg (by omega)
  · rename_i hi
    refine IleafBlock.attrs_of_size (Ileaf.sizeAt_of_ge ?_)
    rw [hcount]
    exact Nat.not_lt.mp hi

end

/-! ## Where the split is right -/

theorem splitIbase_cases {leaf : Ileaf} : splitIbase g leaf hint = hint ∨
    (leaf.ibase + leaf.icount < splitIbase g leaf hint ∧ splitIbase g leaf hint ≤ hint) := by
  unfold splitIbase
  dsimp only
  split
  · rename_i hlt
    exact .inr ⟨hlt, Nat.div_mul_le_self _ _⟩
  · exact .inl rfl

theorem ileafTrim_formed (h : IleafFormed g leaf.toIleaf) :
    IleafFormed g (ileafTrim leaf).toIleaf := by
  have hneed := ileafTrim_need leaf
  have hfits := h.fits
  exact ⟨ileafTrim_sorted h.sorted, by omega⟩

/-- `ileaf_split` moves the inodes from the base that it returns on. -/
theorem ileafSplit_split (h : IleafFormed g leaf.toIleaf) (hlow : leaf.ibase < hint)
    (hhigh : hint < tuxkeyLimit) : ∃ leaf' dest ibase,
      ileafSplit g hint leaf into = .ok (leaf', dest, ibase) ∧
      Split g leaf leaf' dest ibase := by
  have hlimit : tuxkeyLimit = 2 ^ 48 := rfl
  have hdist : (hint + 2 ^ 64 - leaf.ibase) % 2 ^ 64 = hint - leaf.ibase := by omega
  have hcases := @splitIbase_cases g hint leaf.toIleaf
  obtain ⟨at_, hat⟩ : ∃ at_, at_ = min (hint - leaf.ibase) leaf.icount := ⟨_, rfl⟩
  have hle : at_ ≤ leaf.icount := by omega
  refine ⟨ileafTrim (splitFrom g leaf at_), splitDest g leaf into hint at_,
    splitIbase g leaf.toIleaf hint, ?_, rfl, by omega, fun inum hlt => ?_, fun inum hge => ?_,
    fun inum hge => ?_, ileafTrim_formed (splitFrom_formed h hle), splitDest_formed h hle⟩
  · unfold ileafSplit
    dsimp only
    rw [if_neg (by omega), hdist, ← hat,
      Outcome.bind_of_ok (tuxAssert_of (h.sorted.mono hle (Nat.le_refl _)))]
    rfl
  · refine ileafLookup_congr rfl fun hbase => ?_
    rw [ileafTrim_attrs, splitFrom_attrs h hle]
    split
    · rfl
    · exact (IleafBlock.attrs_of_size (Ileaf.sizeAt_of_ge (by omega))).symm
  · have hbase : (splitDest g leaf into hint at_).ibase = splitIbase g leaf.toIleaf hint := rfl
    rw [ileafLookup_eq_iff (by omega) (hbase ▸ hge), hbase, splitDest_attrs h hle]
    by_cases hin : hint - leaf.ibase ≤ leaf.icount
    · congr 1
      omega
    · rw [IleafBlock.attrs_of_size (Ileaf.sizeAt_of_ge (by omega)),
        IleafBlock.attrs_of_size (Ileaf.sizeAt_of_ge (by omega))]
  · have hbase : leaf.ibase ≤ inum := by omega
    rw [ileafLookup_eq_none (show (ileafTrim (splitFrom g leaf at_)).ibase ≤ inum from hbase),
      ← IleafBlock.attrs_length, ileafTrim_attrs, splitFrom_attrs h hle]
    show (if inum - leaf.ibase < at_ then leaf.attrs (inum - leaf.ibase) else []).length = 0
    rw [if_neg (by omega)]
    rfl

/-- `ileaf_resize` is right exactly if the new size with its entries is an `int`, and
`ileaf_split` always is. -/
theorem ileafResizeSplit_iff (h : IleafFormed g leaf.toIleaf) :
    (∀ inum newsize, leaf.ibase ≤ inum → inum < tuxkeyLimit → newsize < 2 ^ 31 →
      (ResizeRight g leaf inum newsize (ileafResize g leaf inum newsize) ↔
        ResizeSound g leaf.toIleaf inum newsize)) ∧
      ∀ into hint, leaf.ibase < hint → hint < tuxkeyLimit → ∃ leaf' dest ibase,
        ileafSplit g hint leaf into = .ok (leaf', dest, ibase) ∧
        Split g leaf leaf' dest ibase :=
  ⟨fun _ _ hinum _ hnew => ileafResize_right_iff h hinum hnew,
    fun _ _ hlow hhigh => ileafSplit_split h hlow hhigh⟩

end

/-! ## A resize that is not right -/

theorem ileafResizeSplit_iff_three : ResizeRight smallBlocks threeInodes 10 3
      (ileafResize smallBlocks threeInodes 10 3) ∧
    ∃ leaf' dest ibase, ileafSplit smallBlocks 10 threeInodes threeInodes =
      .ok (leaf', dest, ibase) ∧ Split smallBlocks threeInodes leaf' dest ibase :=
  ⟨((ileafResizeSplit_iff threeInodes_ok.formed).1 10 3 (by decide) (by decide)
      (by decide)).mpr (.inl (by decide)),
    (ileafResizeSplit_iff threeInodes_ok.formed).2 threeInodes 10 (by decide) (by decide)⟩

/-- A number past the dictionary and the largest `int`: the sum with the new entry is negative, and
the new offset is below the one before. -/
theorem ileafResize_wrapped : IleafFormed smallBlocks threeInodes.toIleaf ∧
    (∃ leaf', ileafResize smallBlocks threeInodes 12 (2 ^ 31 - 1) = .ok (leaf', some 6) ∧
      leaf'.dict = [2, 5, 5, 6, 5]) ∧
    ¬ ResizeRight smallBlocks threeInodes 12 (2 ^ 31 - 1)
      (ileafResize smallBlocks threeInodes 12 (2 ^ 31 - 1)) := by
  have hformed := threeInodes_ok.formed
  have hresize : ileafResize smallBlocks threeInodes 12 (2 ^ 31 - 1) =
      .ok (resizedLeaf (extendedLeaf threeInodes 4) 4 6 0 (2 ^ 31 - 1), some 6) := by
    unfold ileafResize
    rw [Outcome.bind_of_ok (tuxAssert_of (by decide))]
    dsimp only
    rw [if_pos (by decide), if_neg (by decide), if_neg (by decide +kernel), if_neg (by decide)]
    rfl
  refine ⟨hformed, ⟨_, hresize, by decide +kernel⟩, fun hright => ?_⟩
  rw [ileafResize_right_iff hformed (by decide) (by decide)] at hright
  rcases hright with hin | hblock | hint
  · exact absurd hin (by decide)
  · exact absurd hblock (by decide)
  · exact absurd hint (by decide)

end Tux3
