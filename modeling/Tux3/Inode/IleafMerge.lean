/-
  Inode/IleafMerge.lean --- the merge of two leaves of an inode btree.

  `ileaf_merge` adds the count of the leaf it merges into to the size of the hole where it should
  take it off, and adds the size of the data that was there to the entries that were there instead
  of those that it copies.
-/
import Tux3.Inode.IleafBlock

set_option autoImplicit false

namespace Tux3

/-- `hole`. -/
def mergeHole (into from_ : Ileaf) : Int := int32 (from_.ibase - into.ibase + into.icount)

/-- `need_size`. -/
def mergeNeed (into from_ : Ileaf) : Int := int32 (mergeHole into from_ * 2 + ileafNeed from_)

/-- The dictionary of `into` with its hole filled, and the entries that the copied ones should
have been. -/
def mergeFill (into from_ : Ileaf) : List Nat :=
  let limit := into.atdict into.icount
  let dict := into.dict ++ List.replicate (mergeHole into from_).toNat limit
  if limit = 0 then dict
  else (dict.take from_.icount).map (addIdict · limit) ++ dict.drop from_.icount

/-- `into` after the merge. -/
def mergedLeaf (into from_ : IleafBlock) : IleafBlock :=
  { into with
    table := copyTo into.table (into.atdict into.icount) from_.table (from_.atdict from_.icount)
    dict := mergeFill into.toIleaf from_.toIleaf ++ from_.dict }

/-- `ileaf_merge`, and whether it merged. -/
def ileafMerge (g : Geometry) (into from_ : IleafBlock) : Except TuxError (IleafBlock × Nat) :=
  if from_.icount = 0 then return (into, 1)
  else do
    tuxAssert (into.ibase < from_.ibase)
    if ileafFree g into.toIleaf < mergeNeed into.toIleaf from_.toIleaf then return (into, 0)
    -- a hole that is negative is filled until the counter has wrapped
    else if mergeHole into.toIleaf from_.toIleaf < 0 then .error .bounds
    else if (g.blocksize : Int) < ileafHeader + into.atdict into.icount +
        from_.atdict from_.icount +
        (into.icount + mergeHole into.toIleaf from_.toIleaf + from_.icount) * 2 then
      .error .bounds
    else return (mergedLeaf into from_, 1)

/-! ## What a merge is for -/

/-- The attributes and the dictionary of both leaves fit into one. -/
def UnionFits (g : Geometry) (into from_ : Ileaf) : Prop :=
  ileafHeader + into.atdict into.icount + from_.atdict from_.icount +
    (from_.ibase - into.ibase + from_.icount) * 2 ≤ g.blocksize

/-- The merged leaf has what the leaf it was merged into had below the base of the other one, and
what that one had from there on. -/
structure Merged (g : Geometry) (into from_ into' : IleafBlock) : Prop where
  below : ∀ inum, inum < from_.ibase → ileafLookup into' inum = ileafLookup into inum
  above : ∀ inum, from_.ibase ≤ inum → ileafLookup into' inum = ileafLookup from_ inum
  sorted : into'.Sorted
  fits : ileafNeed into'.toIleaf + ileafHeader ≤ g.blocksize

/-- What `ileaf_merge` should come to. -/
inductive MergeRight (g : Geometry) (into from_ : IleafBlock) :
    Except TuxError (IleafBlock × Nat) → Prop where
  | merged {into' : IleafBlock} (h : Merged g into from_ into') :
      MergeRight g into from_ (.ok (into', 1))
  | full (hfrom : from_.icount ≠ 0) (h : ¬ UnionFits g into.toIleaf from_.toIleaf) :
      MergeRight g into from_ (.ok (into, 0))

/-- The size that `ileaf_merge` asks for, as an `int`, is more than there is. -/
def MergeRefused (g : Geometry) (into from_ : Ileaf) : Prop :=
  ileafFree g into <
    int32 (2 * ((from_.ibase - into.ibase : Nat) + into.icount) + ileafNeed from_)

/-- When `ileaf_merge` is right: the second leaf is empty; or the first one is, and both fit; or
they do not fit, and the size that it asks for is too large as an `int` as well. -/
def MergeSound (g : Geometry) (into from_ : Ileaf) : Prop :=
  from_.icount = 0 ∨ into.ibase < from_.ibase ∧
    (into.icount = 0 ∧ UnionFits g into from_ ∨
      ¬ UnionFits g into from_ ∧ MergeRefused g into from_)

section

variable {g : Geometry} {into from_ : IleafBlock} {i inum : Nat}

theorem mergeNeed_eq {into from_ : Ileaf} (h : into.ibase < from_.ibase) : mergeNeed into from_ =
    int32 (2 * ((from_.ibase - into.ibase : Nat) + into.icount) + ileafNeed from_) := by
  unfold mergeNeed mergeHole int32
  omega

theorem mergeFill_length {into from_ : Ileaf} :
    (mergeFill into from_).length = into.icount + (mergeHole into from_).toNat := by
  unfold mergeFill Ileaf.icount
  dsimp only
  split
  · rw [List.length_append, List.length_replicate]
  · rw [List.length_append, List.length_map, ← List.length_append, List.take_append_drop,
      List.length_append, List.length_replicate]

theorem mergedLeaf_icount : (mergedLeaf into from_).icount =
    into.icount + (mergeHole into.toIleaf from_.toIleaf).toNat + from_.icount := by
  unfold mergedLeaf
  show (mergeFill into.toIleaf from_.toIleaf ++ from_.dict).length = _
  rw [List.length_append, mergeFill_length]
  rfl

/-- The entries of the second leaf are copied as they are. -/
theorem mergedLeaf_atdict_above (hi : i ≠ 0) : (mergedLeaf into from_).atdict
    (into.icount + (mergeHole into.toIleaf from_.toIleaf).toNat + i) = from_.atdict i := by
  unfold mergedLeaf Ileaf.atdict
  dsimp only
  rw [if_neg (by omega), if_neg hi, List.getD_eq_getElem?_getD, List.getD_eq_getElem?_getD,
    List.getElem?_append_right (by rw [mergeFill_length]; omega), mergeFill_length]
  congr 2
  omega

/-- Where the first leaf has no data, all the entries before those of the second one are zero. -/
theorem mergedLeaf_atdict_zero (hzero : into.icount = 0)
    (hi : i ≤ into.icount + (mergeHole into.toIleaf from_.toIleaf).toNat) :
    (mergedLeaf into from_).atdict i = 0 := by
  have hnil : into.dict = [] := List.eq_nil_of_length_eq_zero hzero
  have hlimit : into.atdict into.icount = 0 := by
    rw [hzero]
    rfl
  unfold mergedLeaf Ileaf.atdict
  dsimp only
  split
  · rfl
  · have hlt : i - 1 < (mergeHole into.toIleaf from_.toIleaf).toNat := by omega
    unfold mergeFill
    dsimp only
    rw [if_pos hlimit, hlimit, hnil, List.nil_append, List.getD_eq_getElem?_getD,
      List.getElem?_append_left (by rwa [List.length_replicate]),
      List.getElem?_replicate_of_lt hlt]
    rfl

/-- An entry of the hole that is not in the place of a copied one, or the last one before it. -/
theorem mergedLeaf_atdict_hole (hle : into.icount ≤ i) (hgt : from_.icount < i)
    (hi : i ≤ into.icount + (mergeHole into.toIleaf from_.toIleaf).toNat) :
    (mergedLeaf into from_).atdict i = into.atdict into.icount := by
  have hfill : (into.dict ++ List.replicate (mergeHole into.toIleaf from_.toIleaf).toNat
      (into.atdict into.icount)).getD (i - 1) 0 = into.atdict into.icount := by
    have hcount : into.icount = into.dict.length := rfl
    rw [List.getD_eq_getElem?_getD]
    rcases Nat.eq_or_lt_of_le hle with heq | hlt
    · rw [List.getElem?_append_left (by omega)]
      unfold Ileaf.atdict
      rw [if_neg (by omega), List.getD_eq_getElem?_getD, ← heq]
    · rw [List.getElem?_append_right (by omega), List.getElem?_replicate_of_lt (by omega)]
      rfl
  unfold mergedLeaf
  show (if i = 0 then 0 else (mergeFill into.toIleaf from_.toIleaf ++ from_.dict).getD (i - 1) 0) = _
  have hlen := @mergeFill_length into.toIleaf from_.toIleaf
  rw [if_neg (by omega), List.getD_eq_getElem?_getD, List.getElem?_append_left (by omega)]
  unfold mergeFill
  dsimp only
  split
  · rw [← List.getD_eq_getElem?_getD]
    exact hfill
  · rw [List.getElem?_append_right (by rw [List.length_map, List.length_take]; omega),
      List.getElem?_drop, List.length_map, List.length_take]
    have hlen' : from_.icount ≤ (into.dict ++ List.replicate
        (mergeHole into.toIleaf from_.toIleaf).toNat (into.atdict into.icount)).length := by
      rw [List.length_append, List.length_replicate]
      have hcount : into.icount = into.dict.length := rfl
      omega
    rw [Nat.min_eq_left hlen', show from_.icount + (i - 1 - from_.icount) = i - 1 by omega,
      ← List.getD_eq_getElem?_getD]
    exact hfill

/-! ## A merge into an empty leaf -/

/-- The attributes of the second leaf, at their distance from the base of the first one. -/
theorem mergedLeaf_attrs (hzero : into.icount = 0) (hfrom : IleafOk g from_.toIleaf) (i : Nat) :
    (mergedLeaf into from_).attrs i = if i < (mergeHole into.toIleaf from_.toIleaf).toNat then []
      else from_.attrs (i - (mergeHole into.toIleaf from_.toIleaf).toNat) := by
  have hcount := @mergedLeaf_icount into from_
  rw [hzero, Nat.zero_add] at hcount
  have habove : ∀ k, (mergedLeaf into from_).atdict
      ((mergeHole into.toIleaf from_.toIleaf).toNat + k) = from_.atdict k := by
    intro k
    by_cases hk : k = 0
    · rw [hk]
      exact mergedLeaf_atdict_zero hzero (Nat.le_add_left _ _)
    · have heq := @mergedLeaf_atdict_above into from_ k hk
      rwa [hzero, Nat.zero_add] at heq
  by_cases hi : i < (mergeHole into.toIleaf from_.toIleaf).toNat
  · rw [if_pos hi]
    refine IleafBlock.attrs_of_size ?_
    unfold Ileaf.sizeAt
    rw [mergedLeaf_atdict_zero hzero (by omega), mergedLeaf_atdict_zero hzero (by omega)]
    split <;> rfl
  · rw [if_neg hi]
    obtain ⟨k, rfl⟩ := Nat.exists_eq_add_of_le (Nat.not_lt.mp hi)
    rw [Nat.add_sub_cancel_left]
    have hsize : (mergedLeaf into from_).sizeAt
        ((mergeHole into.toIleaf from_.toIleaf).toNat + k) = from_.sizeAt k := by
      unfold Ileaf.sizeAt
      rw [hcount, Nat.add_assoc, habove, habove]
      simp only [Nat.add_lt_add_iff_left]
    unfold IleafBlock.attrs
    rw [hsize, habove]
    refine List.map_congr_left fun b hb => ?_
    rw [List.mem_range] at hb
    have hlimit : into.atdict into.icount = 0 := by
      rw [hzero]
      rfl
    have hk : k < from_.icount := by
      by_contra hge
      rw [Ileaf.sizeAt_of_ge (Nat.not_lt.mp hge)] at hb
      exact absurd hb (Nat.not_lt_zero _)
    rw [hfrom.sizeAt hk] at hb
    have hle := hfrom.sorted.mono (show k + 1 ≤ from_.icount from hk) (Nat.le_refl _)
    unfold mergedLeaf copyTo
    dsimp only
    rw [hlimit, if_pos (by omega), Nat.sub_zero]

/-- The hole that is left for the second leaf is the right one if the first one is empty. -/
theorem mergedLeaf_merged (hzero : into.icount = 0) (hfrom : IleafOk g from_.toIleaf)
    (hle : into.ibase ≤ from_.ibase)
    (hhole : (mergeHole into.toIleaf from_.toIleaf).toNat = from_.ibase - into.ibase)
    (hfits : UnionFits g into.toIleaf from_.toIleaf) :
    Merged g into from_ (mergedLeaf into from_) := by
  have hattrs := mergedLeaf_attrs hzero hfrom
  have hcount := @mergedLeaf_icount into from_
  rw [hzero, Nat.zero_add, hhole] at hcount
  rw [hhole] at hattrs
  have hlast : (mergedLeaf into from_).atdict (from_.ibase - into.ibase + from_.icount) =
      from_.atdict from_.icount := by
    by_cases hnil : from_.icount = 0
    · rw [hnil]
      exact mergedLeaf_atdict_zero hzero (by omega)
    · have heq := @mergedLeaf_atdict_above into from_ from_.icount hnil
      rwa [hzero, Nat.zero_add, hhole] at heq
  constructor
  · intro inum hlt
    refine ileafLookup_congr rfl fun hbase => ?_
    rw [hattrs, if_pos (by omega),
      IleafBlock.attrs_of_size (Ileaf.sizeAt_of_ge (hzero ▸ Nat.zero_le _))]
  · intro inum hge
    have hbase : (mergedLeaf into from_).ibase = into.ibase := rfl
    rw [ileafLookup_eq_iff hge (by omega), hattrs, if_neg (by omega)]
    congr 1
    omega
  · intro i hi
    rw [hcount] at hi
    by_cases hlt : i < from_.ibase - into.ibase
    · rw [mergedLeaf_atdict_zero hzero (by omega)]
      exact Nat.zero_le _
    · obtain ⟨k, rfl⟩ := Nat.exists_eq_add_of_le (Nat.not_lt.mp hlt)
      have hnext := @mergedLeaf_atdict_above into from_ (k + 1) (Nat.succ_ne_zero k)
      rw [hzero, Nat.zero_add, hhole, ← Nat.add_assoc] at hnext
      rw [hnext]
      by_cases hk : k = 0
      · rw [hk, mergedLeaf_atdict_zero hzero (by omega)]
        exact Nat.zero_le _
      · have hthis := @mergedLeaf_atdict_above into from_ k hk
        rw [hzero, Nat.zero_add, hhole] at hthis
        rw [hthis]
        exact hfrom.sorted k (by omega)
  · unfold UnionFits at hfits
    unfold ileafNeed
    rw [hcount, hlast]
    have hlimit : into.atdict into.icount = 0 := by
      rw [hzero]
      rfl
    omega

/-! ## A merge that is not right -/

/-- The size at an index between two offsets. -/
theorem Ileaf.sizeAt_of_lt {leaf : Ileaf} (hi : i < leaf.icount) {low high : Nat}
    (hlow : leaf.atdict i = low) (hhigh : leaf.atdict (i + 1) = high) :
    leaf.sizeAt i = (high + 2 ^ 32 - low) % 2 ^ 32 := by
  unfold Ileaf.sizeAt
  rw [if_pos hi, hlow, hhigh]

/-- The second leaf is at its place in the merged one. -/
theorem Merged.place (hinto : IleafOk g into.toIleaf) (hfrom : IleafOk g from_.toIleaf)
    (habove : into.ibase + into.icount ≤ from_.ibase) (hcount : from_.icount ≠ 0)
    (hroom : ileafHeader + into.atdict into.icount + from_.atdict from_.icount ≤ g.blocksize)
    (h : Merged g into from_ (mergedLeaf into from_)) :
    from_.ibase - into.ibase =
      into.icount + (mergeHole into.toIleaf from_.toIleaf).toNat := by
  have hmerged := @mergedLeaf_icount into from_
  have hatdict := fun i => @mergedLeaf_atdict_above into from_ i
  have hhole := fun i => @mergedLeaf_atdict_hole into from_ i
  have hempty := fun i hzero => @mergedLeaf_atdict_zero into from_ i hzero
  have hfits := h.fits
  have hblock := g.blocksize_le
  have hend := hatdict from_.icount hcount
  unfold ileafNeed ileafHeader at hfits
  rw [hmerged, hend] at hfits
  generalize hm : into.icount + (mergeHole into.toIleaf from_.toIleaf).toNat = m at hmerged hatdict hhole hempty hfits hend ⊢
  generalize hd : from_.ibase - into.ibase = d
  -- the lookups, by their places in the two dictionaries
  have hattrs : ∀ i, d ≤ i → (mergedLeaf into from_).sizeAt i = from_.sizeAt (i - d) := by
    intro i hi
    have hlookup := h.above (into.ibase + i) (by omega)
    have hbase : (mergedLeaf into from_).ibase = into.ibase := rfl
    rw [ileafLookup_eq_iff (by omega) (by omega), hbase, Nat.add_sub_cancel_left] at hlookup
    rw [← IleafBlock.attrs_length, ← IleafBlock.attrs_length, hlookup]
    congr 2
    omega
  have hlast : from_.sizeAt (from_.icount - 1) ≠ 0 := by
    have hne := hfrom.trimmed hcount
    rw [Ne, hfrom.sizeAt_eq_zero (by omega), Nat.sub_add_cancel (by omega)]
    exact fun heq => hne heq.symm
  have hle : d ≤ m := by
    by_contra hgt
    have hsize := hattrs (d + (from_.icount - 1)) (Nat.le_add_right _ _)
    rw [Nat.add_sub_cancel_left, Ileaf.sizeAt_of_ge (by omega)] at hsize
    exact hlast hsize.symm
  rcases Nat.eq_or_lt_of_le hle with heq | hlt
  · exact heq
  exfalso
  by_cases hone : from_.icount = 1
  · -- the only number of the second leaf is in the hole
    have hsize := hattrs d (Nat.le_refl d)
    rw [Nat.sub_self] at hsize
    rw [hone] at hlast hfits hend hroom
    have hfsize := hfrom.sizeAt (show 0 < from_.icount by omega)
    have hzero : from_.atdict 0 = 0 := rfl
    rw [hzero, Nat.zero_add, Nat.sub_zero] at hfsize
    rw [hfsize] at hsize
    have hpos : from_.atdict 1 ≠ 0 := hfsize ▸ hlast
    by_cases hcnt : into.icount = 0
    · rw [Ileaf.sizeAt_of_lt (by omega) (hempty d hcnt (by omega))
        (hempty (d + 1) hcnt (by omega))] at hsize
      omega
    · have hnext := hhole (d + 1) (by omega) (by omega) (by omega)
      by_cases hd1 : d = 1
      · subst hd1
        -- its entry got the size of the data of the first leaf
        have hicount : into.icount = 1 := by omega
        have hfirst : (mergedLeaf into from_).atdict 1 =
            if into.atdict 1 = 0 then into.atdict 1
            else addIdict (into.atdict 1) (into.atdict 1) := by
          obtain ⟨e, hdict⟩ := List.length_eq_one_iff.mp hicount
          have hentry : into.atdict 1 = e := by
            unfold Ileaf.atdict
            rw [if_neg Nat.one_ne_zero, hdict]
            rfl
          unfold mergedLeaf
          show (mergeFill into.toIleaf from_.toIleaf ++ from_.dict).getD 0 0 = _
          unfold mergeFill
          rw [hicount, hentry, hone, hdict]
          dsimp only
          split <;> rfl
        rw [hicount] at hnext
        have hlimit := hinto.atdict_lt (show 1 ≤ into.icount by omega)
        rw [Ileaf.sizeAt_of_lt (by omega) hfirst hnext] at hsize
        rw [hicount] at hroom
        unfold ileafHeader at hroom
        unfold addIdict at hsize
        split at hsize <;> omega
      · have hthis := hhole d (by omega) (by omega) (by omega)
        rw [Ileaf.sizeAt_of_lt (by omega) hthis hnext] at hsize
        omega
  · -- the last number of the second leaf is past the end of its dictionary
    have hsize := hattrs (m + from_.icount - 1) (by omega)
    rw [Ileaf.sizeAt_of_ge (show from_.icount ≤ m + from_.icount - 1 - d by omega)] at hsize
    have hlow := hatdict (from_.icount - 1) (by omega)
    rw [← Nat.add_sub_assoc (by omega)] at hlow
    have hhigh : (mergedLeaf into from_).atdict (m + from_.icount - 1 + 1) =
        from_.atdict from_.icount := by
      rw [Nat.sub_add_cancel (by omega)]
      exact hend
    rw [Ileaf.sizeAt_of_lt (by omega) hlow hhigh] at hsize
    have hne := hfrom.trimmed hcount
    have hmono := hfrom.sorted.mono (Nat.sub_le from_.icount 1) (Nat.le_refl _)
    have hbound := hfrom.atdict_lt (Nat.le_refl from_.icount)
    omega

/-! ## When the merge is right -/

theorem Merged.refl (hinto : IleafOk g into.toIleaf)
    (habove : into.ibase + into.icount ≤ from_.ibase) (hzero : from_.icount = 0) :
    Merged g into from_ into := by
  refine ⟨fun _ _ => rfl, fun inum hle => ?_, hinto.sorted, hinto.fits⟩
  rw [ileafLookup_eq_iff hle (by omega),
    IleafBlock.attrs_of_size (Ileaf.sizeAt_of_ge (by omega)),
    IleafBlock.attrs_of_size (Ileaf.sizeAt_of_ge (hzero ▸ Nat.zero_le _))]

theorem MergeRight.of_merged {into' : IleafBlock} (h : MergeRight g into from_ (.ok (into', 1))) :
    Merged g into from_ into' := by
  generalize hresult : (.ok (into', 1) : Except TuxError (IleafBlock × Nat)) = result at h
  cases h with
  | merged hmerged =>
      have heq : into' = _ := congrArg Prod.fst (Except.ok.inj hresult)
      rw [heq]
      exact hmerged
  | full _ _ => exact absurd (congrArg Prod.snd (Except.ok.inj hresult)) Nat.one_ne_zero

/-- Below the limits of an `int`, the hole is the distance and the count. -/
theorem mergeHole_of_lt {into from_ : Ileaf} (hle : into.ibase ≤ from_.ibase)
    (hlt : from_.ibase - into.ibase + into.icount < 2 ^ 31) :
    mergeHole into from_ = from_.ibase - into.ibase + into.icount := by
  unfold mergeHole int32
  omega

/-- The hole is the distance only if the first leaf is empty. -/
theorem icount_of_mergeHole {into from_ : Ileaf} (hle : into.ibase ≤ from_.ibase)
    (hcount : into.icount < 2 ^ 16) (hhole : 0 ≤ mergeHole into from_)
    (heq : from_.ibase - into.ibase = into.icount + (mergeHole into from_).toNat) :
    into.icount = 0 := by
  unfold mergeHole int32 at hhole heq
  omega

theorem IleafOk.icount_lt {leaf : Ileaf} (h : IleafOk g leaf) : leaf.icount < 2 ^ 16 := by
  have hfits := h.fits
  have hblock := g.blocksize_le
  unfold ileafNeed ileafHeader at hfits
  omega

/-- If both leaves fit into an empty one, they are merged. -/
theorem ileafMerge_empty (hfrom : IleafOk g from_.toIleaf)
    (hlt : into.ibase < from_.ibase) (hcount : from_.icount ≠ 0) (hzero : into.icount = 0)
    (hfits : UnionFits g into.toIleaf from_.toIleaf) :
    ileafMerge g into from_ = .ok (mergedLeaf into from_, 1) ∧
      Merged g into from_ (mergedLeaf into from_) := by
  have hblock := g.blocksize_le
  have hlimit : into.atdict into.icount = 0 := by
    rw [hzero]
    rfl
  have hunion := hfits
  unfold UnionFits ileafHeader at hunion
  have hhole := mergeHole_of_lt (Nat.le_of_lt hlt) (show _ < 2 ^ 31 by omega)
  have hneed : mergeNeed into.toIleaf from_.toIleaf =
      mergeHole into.toIleaf from_.toIleaf * 2 + ileafNeed from_.toIleaf := by
    unfold mergeNeed int32 ileafNeed
    omega
  have hdist : (mergeHole into.toIleaf from_.toIleaf).toNat = from_.ibase - into.ibase := by omega
  refine ⟨?_, mergedLeaf_merged hzero hfrom (Nat.le_of_lt hlt) hdist hfits⟩
  unfold ileafMerge
  rw [if_neg hcount, Outcome.bind_of_ok (tuxAssert_of hlt), if_neg, if_neg, if_neg]
  · rfl
  · rw [hlimit, hzero]
    unfold ileafHeader
    omega
  · omega
  · rw [hneed]
    unfold ileafFree ileafNeed ileafHeader
    omega

/-- `ileaf_merge` is right exactly if the second leaf is empty, or if the first one is empty and
they fit into one, or if they do not fit and it comes to a size that is more than there is. -/
theorem ileafMerge_iff (hinto : IleafOk g into.toIleaf) (hfrom : IleafOk g from_.toIleaf)
    (habove : into.ibase + into.icount ≤ from_.ibase) :
    MergeRight g into from_ (ileafMerge g into from_) ↔
      MergeSound g into.toIleaf from_.toIleaf := by
  by_cases hnil : from_.icount = 0
  · have heq : ileafMerge g into from_ = .ok (into, 1) := by
      unfold ileafMerge
      exact if_pos hnil
    rw [heq]
    exact ⟨fun _ => .inl hnil, fun _ => .merged (Merged.refl hinto habove hnil)⟩
  by_cases hlt : into.ibase < from_.ibase
  · have hneed := mergeNeed_eq hlt
    by_cases hrefused : ileafFree g into.toIleaf < mergeNeed into.toIleaf from_.toIleaf
    · have heq : ileafMerge g into from_ = .ok (into, 0) := by
        unfold ileafMerge
        rw [if_neg hnil, Outcome.bind_of_ok (tuxAssert_of hlt), if_pos hrefused]
        rfl
      rw [heq]
      constructor
      · intro hright
        cases hright with
        | full _ hfull =>
            rw [hneed] at hrefused
            exact .inr ⟨hlt, .inr ⟨hfull, hrefused⟩⟩
      · rintro (hzero | ⟨-, ⟨hzero, hfits⟩ | ⟨hfull, -⟩⟩)
        · exact absurd hzero hnil
        · have hmerge := (ileafMerge_empty hfrom hlt hnil hzero hfits).1
          rw [heq] at hmerge
          have hone := congrArg Prod.snd (Except.ok.inj hmerge)
          exact absurd hone Nat.zero_ne_one
        · exact .full hnil hfull
    · have hsound : MergeSound g into.toIleaf from_.toIleaf ↔
          into.icount = 0 ∧ UnionFits g into.toIleaf from_.toIleaf := by
        unfold MergeSound MergeRefused
        rw [← hneed]
        constructor
        · rintro (hzero | ⟨-, hand | ⟨-, hfalse⟩⟩)
          · exact absurd hzero hnil
          · exact hand
          · exact absurd hfalse hrefused
        · exact fun hand => .inr ⟨hlt, .inl hand⟩
      rw [hsound]
      constructor
      · intro hright
        unfold ileafMerge at hright
        rw [if_neg hnil, Outcome.bind_of_ok (tuxAssert_of hlt), if_neg hrefused] at hright
        split at hright
        · cases hright
        rename_i hhole
        split at hright
        · cases hright
        rename_i hroom
        have hmerged := MergeRight.of_merged hright
        have hplace := hmerged.place hinto hfrom habove hnil (by omega)
        have hzero := icount_of_mergeHole (Nat.le_of_lt hlt) hinto.icount_lt
          (Int.not_lt.mp hhole) hplace
        refine ⟨hzero, ?_⟩
        unfold UnionFits
        omega
      · rintro ⟨hzero, hfits⟩
        obtain ⟨heq, hmerged⟩ := ileafMerge_empty hfrom hlt hnil hzero hfits
        rw [heq]
        exact .merged hmerged
  · have heq : ileafMerge g into from_ = .error .assertion := by
      unfold ileafMerge
      rw [if_neg hnil, Outcome.bind_of_error (tuxAssert_of_not hlt)]
    rw [heq]
    constructor
    · intro hright
      cases hright
    · rintro (hzero | ⟨hlt', -⟩)
      · exact absurd hzero hnil
      · exact absurd hlt' hlt

end

/-! ## Two merges -/

/-- A leaf with the attributes of one inode, of four bytes. -/
def oneInodeLeaf (ibase : Nat) : IleafBlock := ⟨⟨ibase, [4]⟩, fun i => UInt8.ofNat i⟩

/-- An empty leaf. -/
def noInode : IleafBlock := ⟨⟨0, []⟩, fun _ => 0⟩

theorem oneInodeLeaf_ok (ibase : Nat) : IleafOk smallBlocks (oneInodeLeaf ibase).toIleaf := by
  refine ⟨fun i hi => ?_, fun _ => ?_, ?_⟩
  · have hzero : i = 0 := Nat.lt_one_iff.mp hi
    rw [hzero]
    exact Nat.zero_le _
  · exact (by decide : (0 : Nat) ≠ 4)
  · exact (by decide : 4 + 1 * 2 + 16 ≤ 64)

theorem noInode_ok : IleafOk smallBlocks noInode.toIleaf :=
  ⟨fun i hi => absurd hi (Nat.not_lt_zero i), fun hne => absurd rfl hne, by decide⟩

theorem ileafMerge_iff_empty : MergeSound smallBlocks noInode.toIleaf (oneInodeLeaf 3).toIleaf ∧
    (MergeRight smallBlocks noInode (oneInodeLeaf 3) (ileafMerge smallBlocks noInode (oneInodeLeaf 3)) ↔
      MergeSound smallBlocks noInode.toIleaf (oneInodeLeaf 3).toIleaf) := by
  refine ⟨.inr ⟨by decide, .inl ⟨rfl, ?_⟩⟩,
    ileafMerge_iff noInode_ok (oneInodeLeaf_ok 3) (by decide)⟩
  unfold UnionFits
  decide

/-- The merge of the leaves of inodes 0 and 1: it succeeds, and there is nothing of inode 1. -/
theorem ileafMerge_shifted : IleafOk smallBlocks (oneInodeLeaf 0).toIleaf ∧
    IleafOk smallBlocks (oneInodeLeaf 1).toIleaf ∧
    ileafMerge smallBlocks (oneInodeLeaf 0) (oneInodeLeaf 1) =
      .ok (mergedLeaf (oneInodeLeaf 0) (oneInodeLeaf 1), 1) ∧
    (mergedLeaf (oneInodeLeaf 0) (oneInodeLeaf 1)).dict = [8, 4, 4, 4] ∧
    ileafLookup (mergedLeaf (oneInodeLeaf 0) (oneInodeLeaf 1)) 3 = .ok none ∧
    ¬ MergeRight smallBlocks (oneInodeLeaf 0) (oneInodeLeaf 1)
      (ileafMerge smallBlocks (oneInodeLeaf 0) (oneInodeLeaf 1)) := by
  have hmerge : ileafMerge smallBlocks (oneInodeLeaf 0) (oneInodeLeaf 1) =
      .ok (mergedLeaf (oneInodeLeaf 0) (oneInodeLeaf 1), 1) := rfl
  refine ⟨oneInodeLeaf_ok 0, oneInodeLeaf_ok 1, hmerge, by decide +kernel, by decide +kernel, ?_⟩
  rw [hmerge]
  intro hright
  have hsorted := hright.of_merged.sorted 1 (by decide +kernel)
  exact absurd hsorted (by decide +kernel)

end Tux3
