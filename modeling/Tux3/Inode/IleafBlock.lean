/-
  Inode/IleafBlock.lean --- the attributes in a leaf of an inode btree, and their removal.

  The attributes of the inodes follow each other in a table; the offset of the end of each one is
  in the dictionary, which grows down from the end of the block.  `ileaf_chop` lowers the offsets
  after the removed attributes by one amount, also those within the removed range.
-/
import Mathlib.Algebra.Order.BigOperators.Group.List
import Tux3.Inode.Ileaf
import Tux3.Lib.Outcome

set_option autoImplicit false

namespace Tux3

/-! ## Leaves with their attributes -/

/-- `struct ileaf` with the bytes of its table. -/
structure IleafBlock extends Ileaf where
  table : Nat → UInt8

/-- `sizeof(struct ileaf)`. -/
def ileafHeader : Nat := 16

/-- `ileaf_need`. -/
def ileafNeed (leaf : Ileaf) : Nat := leaf.atdict leaf.icount + leaf.icount * 2

/-- `ileaf_free`. -/
def ileafFree (g : Geometry) (leaf : Ileaf) : Int := (g.blocksize : Int) - ileafNeed leaf - ileafHeader

/-- `add_idict`, of 16 bits. -/
def addIdict (entry : Nat) (n : Int) : Nat := ((entry + n) % 2 ^ 16).toNat

/-- The size of the attributes at an index of the dictionary; unsigned of 32 bits. -/
@[irreducible] def Ileaf.sizeAt (leaf : Ileaf) (at_ : Nat) : Nat :=
  if at_ < leaf.icount then (leaf.atdict (at_ + 1) + 2 ^ 32 - leaf.atdict at_) % 2 ^ 32 else 0

/-- The bytes of the attributes at an index of the dictionary. -/
def IleafBlock.attrs (leaf : IleafBlock) (at_ : Nat) : List UInt8 :=
  (List.range (leaf.sizeAt at_)).map fun i => leaf.table (leaf.atdict at_ + i)

/-- `ileaf_lookup`. -/
def ileafLookup (leaf : IleafBlock) (inum : Nat) : Except TuxError (Option (List UInt8)) := do
  tuxAssert (leaf.ibase ≤ inum)
  return if leaf.sizeAt (inum - leaf.ibase) = 0 then none
    else some (leaf.attrs (inum - leaf.ibase))

/-- The count that `ileaf_trim` comes to. -/
def trimCount (leaf : Ileaf) : Nat → Nat
  | 0 => 0
  | 1 => if leaf.atdict 1 = 0 then 0 else 1
  | count + 2 =>
      if leaf.atdict (count + 2) = leaf.atdict (count + 1) then trimCount leaf (count + 1)
      else count + 2

/-- `ileaf_trim`. -/
def ileafTrim (leaf : IleafBlock) : IleafBlock :=
  { leaf with dict := leaf.dict.take (trimCount leaf.toIleaf leaf.icount) }

/-- The offsets after `diff` was added to those from index `at` on. -/
def shiftDict (dict : List Nat) (at_ : Nat) (diff : Int) : List Nat :=
  dict.take at_ ++ (dict.drop at_).map (addIdict · diff)

/-- The offsets after `ileaf_chop` has lowered those from index `at` on. -/
def chopDict (leaf : Ileaf) (at_ size : Nat) : List Nat :=
  leaf.dict.take at_ ++ (leaf.dict.drop at_).map (addIdict · (-(size : Int)))

/-- `memmove` of `len` bytes from `from` down to `to`. -/
def moveDown (table : Nat → UInt8) (to_ from_ len : Nat) : Nat → UInt8 := fun i =>
  if to_ ≤ i ∧ i < to_ + len then table (i + (from_ - to_)) else table i

/-- `memcpy` of `len` bytes to `to`. -/
def copyTo (table : Nat → UInt8) (to_ : Nat) (src : Nat → UInt8) (len : Nat) : Nat → UInt8 :=
  fun i => if to_ ≤ i ∧ i < to_ + len then src (i - to_) else table i

/-- `ileaf_chop`, of a start that is not below `ibase`, and whether it changed the leaf. -/
def ileafChop (leaf : IleafBlock) (start len : Nat) : IleafBlock × Nat :=
  let count := leaf.icount
  let at_ := start - leaf.ibase
  if count < at_ + 1 then (leaf, 0)
  else
    let len := min len (count - at_)
    let startp := leaf.atdict at_
    let endp := leaf.atdict (at_ + len)
    if startp = endp then (leaf, 0)
    else
      let tailp := leaf.atdict count
      (ileafTrim { leaf with
        table := moveDown leaf.table startp endp (tailp - endp)
        dict := chopDict leaf.toIleaf at_ (endp - startp) }, 1)

/-! ## Well-formed leaves -/

/-- The offsets do not decrease. -/
def Ileaf.Sorted (leaf : Ileaf) : Prop :=
  ∀ i, i < leaf.icount → leaf.atdict i ≤ leaf.atdict (i + 1)

/-- The last number of the dictionary has attributes. -/
def Ileaf.Trimmed (leaf : Ileaf) : Prop :=
  leaf.icount ≠ 0 → leaf.atdict (leaf.icount - 1) ≠ leaf.atdict leaf.icount

/-- `ileaf_check`, of a leaf whose attributes and dictionary do not overlap. -/
structure IleafFormed (g : Geometry) (leaf : Ileaf) : Prop where
  sorted : leaf.Sorted
  fits : ileafNeed leaf + ileafHeader ≤ g.blocksize

/-- A leaf that is well-formed: `ileaf_check`, trimmed, and within its block. -/
structure IleafOk (g : Geometry) (leaf : Ileaf) : Prop where
  sorted : leaf.Sorted
  trimmed : leaf.Trimmed
  fits : ileafNeed leaf + ileafHeader ≤ g.blocksize

section

variable {g : Geometry} {leaf leaf' : IleafBlock} {i j start len inum size : Nat}

theorem Ileaf.Sorted.mono {leaf : Ileaf} (h : leaf.Sorted) (hle : i ≤ j) (hj : j ≤ leaf.icount) :
    leaf.atdict i ≤ leaf.atdict j := by
  induction j, hle using Nat.le_induction with
  | base => exact Nat.le_refl _
  | succ j hle ih => exact Nat.le_trans (ih (Nat.le_of_succ_le hj)) (h j hj)

theorem IleafOk.formed {leaf : Ileaf} (h : IleafOk g leaf) : IleafFormed g leaf :=
  ⟨h.sorted, h.fits⟩

theorem IleafFormed.atdict_lt {leaf : Ileaf} (h : IleafFormed g leaf) (hi : i ≤ leaf.icount) :
    leaf.atdict i < 2 ^ 16 := by
  have hle := h.sorted.mono hi (Nat.le_refl _)
  have hfits := h.fits
  have hblock := g.blocksize_le
  unfold ileafNeed ileafHeader at hfits
  omega

theorem IleafOk.atdict_lt {leaf : Ileaf} (h : IleafOk g leaf) (hi : i ≤ leaf.icount) :
    leaf.atdict i < 2 ^ 16 := h.formed.atdict_lt hi

theorem Ileaf.sizeAt_of_le {leaf : Ileaf} (hi : i < leaf.icount)
    (hle : leaf.atdict i ≤ leaf.atdict (i + 1)) (hlt : leaf.atdict (i + 1) < 2 ^ 16) :
    leaf.sizeAt i = leaf.atdict (i + 1) - leaf.atdict i := by
  unfold Ileaf.sizeAt
  rw [if_pos hi]
  omega

theorem IleafFormed.sizeAt {leaf : Ileaf} (h : IleafFormed g leaf) (hi : i < leaf.icount) :
    leaf.sizeAt i = leaf.atdict (i + 1) - leaf.atdict i :=
  Ileaf.sizeAt_of_le hi (h.sorted i hi) (h.atdict_lt hi)

theorem IleafOk.sizeAt {leaf : Ileaf} (h : IleafOk g leaf) (hi : i < leaf.icount) :
    leaf.sizeAt i = leaf.atdict (i + 1) - leaf.atdict i := h.formed.sizeAt hi

theorem IleafBlock.attrs_length (leaf : IleafBlock) (i : Nat) :
    (leaf.attrs i).length = leaf.sizeAt i := by
  unfold IleafBlock.attrs
  rw [List.length_map, List.length_range]

theorem IleafBlock.attrs_of_size (h : leaf.sizeAt i = 0) : leaf.attrs i = [] :=
  List.eq_nil_of_length_eq_zero (by rw [leaf.attrs_length, h])

/-! ## Lookups -/

theorem ileafLookup_of_le (h : leaf.ibase ≤ inum) : ileafLookup leaf inum =
    .ok (if leaf.sizeAt (inum - leaf.ibase) = 0 then none
      else some (leaf.attrs (inum - leaf.ibase))) := by
  unfold ileafLookup
  rw [Outcome.bind_of_ok (tuxAssert_of h)]
  rfl

/-- What a lookup finds is what the attributes are. -/
theorem ileafLookup_eq_iff (h : leaf.ibase ≤ inum) (h' : leaf'.ibase ≤ inum) :
    ileafLookup leaf' inum = ileafLookup leaf inum ↔
      leaf'.attrs (inum - leaf'.ibase) = leaf.attrs (inum - leaf.ibase) := by
  rw [ileafLookup_of_le h, ileafLookup_of_le h', Except.ok.injEq, ← leaf.attrs_length,
    ← leaf'.attrs_length]
  generalize leaf.attrs (inum - leaf.ibase) = attrs
  generalize leaf'.attrs (inum - leaf'.ibase) = attrs'
  cases attrs <;> cases attrs' <;> simp

theorem ileafLookup_eq_none (h : leaf.ibase ≤ inum) :
    ileafLookup leaf inum = .ok none ↔ leaf.sizeAt (inum - leaf.ibase) = 0 := by
  rw [ileafLookup_of_le h, Except.ok.injEq]
  constructor
  · intro heq
    by_contra hne
    rw [if_neg hne] at heq
    exact nomatch heq
  · exact fun heq => if_pos heq

/-- Leaves with the same attributes at all places. -/
theorem ileafLookup_congr (hbase : leaf'.ibase = leaf.ibase)
    (hattrs : leaf.ibase ≤ inum →
      leaf'.attrs (inum - leaf.ibase) = leaf.attrs (inum - leaf.ibase)) :
    ileafLookup leaf' inum = ileafLookup leaf inum := by
  by_cases hle : leaf.ibase ≤ inum
  · rw [ileafLookup_eq_iff hle (hbase ▸ hle), hbase]
    exact hattrs hle
  · have hle' : ¬ leaf'.ibase ≤ inum := hbase ▸ hle
    unfold ileafLookup
    rw [Outcome.bind_of_error (tuxAssert_of_not hle),
      Outcome.bind_of_error (tuxAssert_of_not hle')]

/-! ## Trimming -/

theorem trimCount_spec (leaf : Ileaf) (n : Nat) : trimCount leaf n ≤ n ∧
    (∀ i, trimCount leaf n ≤ i → i ≤ n → leaf.atdict i = leaf.atdict (trimCount leaf n)) ∧
    (trimCount leaf n ≠ 0 →
      leaf.atdict (trimCount leaf n - 1) ≠ leaf.atdict (trimCount leaf n)) := by
  induction n using trimCount.induct leaf with
  | case1 =>
      refine ⟨Nat.le_refl _, fun i _ hi => ?_, fun hne => absurd rfl hne⟩
      rw [Nat.le_zero.mp hi]
      rfl
  | case2 hzero =>
      unfold trimCount
      rw [if_pos hzero]
      refine ⟨Nat.zero_le _, fun i _ hi => ?_, fun hne => absurd rfl hne⟩
      rcases Nat.le_one_iff_eq_zero_or_eq_one.mp hi with rfl | rfl
      · rfl
      · exact hzero
  | case3 hne =>
      unfold trimCount
      rw [if_neg hne]
      exact ⟨Nat.le_refl _, fun i hle hle' => by rw [Nat.le_antisymm hle' hle],
        fun _ heq => hne heq.symm⟩
  | case4 n heq ih =>
      obtain ⟨hle, hsame, hlast⟩ := ih
      unfold trimCount
      rw [if_pos heq]
      refine ⟨Nat.le_succ_of_le hle, fun i hi hi' => ?_, hlast⟩
      rcases Nat.le_succ_iff.mp hi' with hi' | rfl
      · exact hsame i hi hi'
      · rw [Nat.succ_eq_add_one, heq]
        exact hsame (n + 1) hle (Nat.le_refl _)
  | case5 n hne =>
      unfold trimCount
      rw [if_neg hne]
      exact ⟨Nat.le_refl _, fun i hle hle' => by rw [Nat.le_antisymm hle' hle],
        fun _ heq => hne heq.symm⟩

theorem ileafTrim_icount (leaf : IleafBlock) :
    (ileafTrim leaf).icount = trimCount leaf.toIleaf leaf.icount := by
  unfold ileafTrim Ileaf.icount
  dsimp only
  rw [List.length_take]
  exact Nat.min_eq_left (trimCount_spec leaf.toIleaf _).1

theorem Ileaf.atdict_take {leaf : Ileaf} {dict : List Nat} {n : Nat}
    (h : leaf.dict = dict.take n) (hi : i ≤ n) :
    leaf.atdict i = Ileaf.atdict ⟨leaf.ibase, dict⟩ i := by
  unfold Ileaf.atdict
  split
  · rfl
  · rename_i hne
    rw [h, List.getD_eq_getElem?_getD, List.getD_eq_getElem?_getD, List.getElem?_take_of_lt]
    omega

theorem ileafTrim_atdict (leaf : IleafBlock) (hi : i ≤ trimCount leaf.toIleaf leaf.icount) :
    (ileafTrim leaf).atdict i = leaf.atdict i := Ileaf.atdict_take rfl hi

/-- What is trimmed are numbers without attributes. -/
theorem ileafTrim_attrs (leaf : IleafBlock) (i : Nat) :
    (ileafTrim leaf).attrs i = leaf.attrs i := by
  obtain ⟨hle, hsame, -⟩ := trimCount_spec leaf.toIleaf leaf.icount
  by_cases hi : i < trimCount leaf.toIleaf leaf.icount
  · have hsize : (ileafTrim leaf).sizeAt i = leaf.sizeAt i := by
      unfold Ileaf.sizeAt
      rw [ileafTrim_icount, if_pos hi, if_pos (Nat.lt_of_lt_of_le hi hle),
        ileafTrim_atdict leaf hi, ileafTrim_atdict leaf (Nat.le_of_lt hi)]
    unfold IleafBlock.attrs
    rw [hsize, ileafTrim_atdict leaf (Nat.le_of_lt hi)]
    rfl
  · have hnew : (ileafTrim leaf).sizeAt i = 0 := by
      unfold Ileaf.sizeAt
      rw [ileafTrim_icount, if_neg hi]
    have hold : leaf.sizeAt i = 0 := by
      unfold Ileaf.sizeAt
      split
      · rename_i hlt
        rw [hsame (i + 1) (by omega) hlt, hsame i (Nat.not_lt.mp hi) (Nat.le_of_lt hlt)]
        omega
      · rfl
    rw [IleafBlock.attrs_of_size hnew, IleafBlock.attrs_of_size hold]

theorem ileafTrim_sorted (h : leaf.Sorted) : (ileafTrim leaf).Sorted := by
  intro i hi
  rw [ileafTrim_icount] at hi
  rw [ileafTrim_atdict leaf (Nat.le_of_lt hi), ileafTrim_atdict leaf hi]
  exact h i (Nat.lt_of_lt_of_le hi (trimCount_spec leaf.toIleaf _).1)

theorem ileafTrim_trimmed (leaf : IleafBlock) : (ileafTrim leaf).Trimmed := by
  intro hne
  rw [ileafTrim_icount] at hne ⊢
  rw [ileafTrim_atdict leaf (Nat.sub_le _ _), ileafTrim_atdict leaf (Nat.le_refl _)]
  exact (trimCount_spec leaf.toIleaf leaf.icount).2.2 hne

/-- Trimming frees the entries of the dictionary that it takes away. -/
theorem ileafTrim_need (leaf : IleafBlock) : ileafNeed (ileafTrim leaf).toIleaf +
    (leaf.icount - (ileafTrim leaf).icount) * 2 = ileafNeed leaf.toIleaf := by
  obtain ⟨hle, hsame, -⟩ := trimCount_spec leaf.toIleaf leaf.icount
  unfold ileafNeed
  rw [ileafTrim_icount, ileafTrim_atdict leaf (Nat.le_refl _),
    ← hsame leaf.icount hle (Nat.le_refl _)]
  omega

/-! ## Shifted dictionaries -/

theorem shiftDict_length (dict : List Nat) (at_ : Nat) (diff : Int) :
    (shiftDict dict at_ diff).length = dict.length := by
  unfold shiftDict
  rw [List.length_append, List.length_map, ← List.length_append, List.take_append_drop]

/-- The offsets up to the start of the attributes at the index stay. -/
theorem shiftDict_atdict {leaf leaf' : Ileaf} {diff : Int} {at_ : Nat}
    (h : leaf'.dict = shiftDict leaf.dict at_ diff) (hi : i ≤ leaf.icount) : leaf'.atdict i =
      if i ≤ at_ then leaf.atdict i else addIdict (leaf.atdict i) diff := by
  have hcount : leaf.icount = leaf.dict.length := rfl
  unfold Ileaf.atdict
  by_cases hzero : i = 0
  · rw [if_pos hzero, if_pos (by omega), if_pos hzero]
  · have hlt : i - 1 < leaf.dict.length := by omega
    rw [if_neg hzero, if_neg hzero, h, List.getD_eq_getElem?_getD, List.getD_eq_getElem _ _ hlt]
    unfold shiftDict
    by_cases hle : i ≤ at_
    · rw [if_pos hle, List.getElem?_append_left (by rw [List.length_take]; omega),
        List.getElem?_take_of_lt (by omega), List.getElem?_eq_getElem hlt]
      rfl
    · rw [if_neg hle, List.getElem?_append_right (by rw [List.length_take]; omega),
        List.length_take, List.getElem?_map, List.getElem?_drop,
        show at_ + (i - 1 - min at_ leaf.dict.length) = i - 1 by omega,
        List.getElem?_eq_getElem hlt]
      rfl

/-! ## Chopping -/

/-- The leaf of a chop before it is trimmed. -/
def choppedLeaf (leaf : IleafBlock) (at_ len : Nat) : IleafBlock :=
  { leaf with
    table := moveDown leaf.table (leaf.atdict at_) (leaf.atdict (at_ + len))
      (leaf.atdict leaf.icount - leaf.atdict (at_ + len))
    dict := chopDict leaf.toIleaf at_ (leaf.atdict (at_ + len) - leaf.atdict at_) }

theorem choppedLeaf_icount {at_ : Nat} : (choppedLeaf leaf at_ len).icount = leaf.icount :=
  shiftDict_length _ _ _

/-- The offsets up to the first number that is removed stay, those after it are lowered. -/
theorem choppedLeaf_atdict {at_ : Nat} (hi : i ≤ leaf.icount) :
    (choppedLeaf leaf at_ len).atdict i = if i ≤ at_ then leaf.atdict i
      else addIdict (leaf.atdict i) (-((leaf.atdict (at_ + len) - leaf.atdict at_ : Nat) : Int)) :=
  @shiftDict_atdict i leaf.toIleaf _ _ at_ rfl hi

theorem addIdict_neg {entry : Nat} (hlt : entry < 2 ^ 16) (hle : size ≤ entry) :
    addIdict entry (-(size : Int)) = entry - size := by
  unfold addIdict
  omega

theorem addIdict_wrap {entry : Nat} (hlt : entry < size) (hsize : size < 2 ^ 16) :
    addIdict entry (-(size : Int)) = entry + 2 ^ 16 - size := by
  unfold addIdict
  omega

/-- The bytes of the attributes of the numbers in a range. -/
def removedBytes (leaf : IleafBlock) (start len : Nat) : Nat :=
  ((List.range len).map fun i => leaf.sizeAt (start - leaf.ibase + i)).sum

/-- What a chop is for: it removes the attributes of the numbers in the range and nothing else, and
frees their bytes and the entries of the dictionary that are trimmed. -/
structure ChopRight (g : Geometry) (leaf : IleafBlock) (start len : Nat) (leaf' : IleafBlock) :
    Prop where
  kept : ∀ inum, ¬ (start ≤ inum ∧ inum < start + len) →
    ileafLookup leaf' inum = ileafLookup leaf inum
  removed : ∀ inum, start ≤ inum → inum < start + len → ileafLookup leaf' inum = .ok none
  sorted : leaf'.Sorted
  trimmed : leaf'.Trimmed
  free : ileafFree g leaf'.toIleaf = ileafFree g leaf.toIleaf + removedBytes leaf start len +
    2 * ((leaf.icount : Int) - leaf'.icount)

/-- No number in the range has attributes. -/
def NoAttrs (leaf : IleafBlock) (start len : Nat) : Prop :=
  ∀ i, i < len → leaf.sizeAt (start - leaf.ibase + i) = 0

theorem removedBytes_of_noAttrs (h : NoAttrs leaf start len) : removedBytes leaf start len = 0 := by
  unfold removedBytes
  refine List.sum_eq_zero fun size hsize => ?_
  obtain ⟨i, hi, rfl⟩ := List.mem_map.mp hsize
  exact h i (List.mem_range.mp hi)

theorem ChopRight.unchanged (h : IleafOk g leaf.toIleaf) (hstart : leaf.ibase ≤ start)
    (hno : NoAttrs leaf start len) : ChopRight g leaf start len leaf := by
  refine ⟨fun _ _ => rfl, fun inum hle hlt => ?_, h.sorted, h.trimmed, ?_⟩
  · rw [ileafLookup_eq_none (Nat.le_trans hstart hle)]
    have hsize := hno (inum - start) (by omega)
    rwa [show start - leaf.ibase + (inum - start) = inum - leaf.ibase by omega] at hsize
  · rw [removedBytes_of_noAttrs hno]
    omega

/-- Past the dictionary there are no attributes. -/
theorem Ileaf.sizeAt_of_ge {leaf : Ileaf} (h : leaf.icount ≤ i) : leaf.sizeAt i = 0 := by
  unfold Ileaf.sizeAt
  exact if_neg (Nat.not_lt.mpr h)

theorem IleafOk.sizeAt_eq_zero {leaf : Ileaf} (h : IleafOk g leaf) (hi : i < leaf.icount) :
    leaf.sizeAt i = 0 ↔ leaf.atdict (i + 1) = leaf.atdict i := by
  have hle := h.sorted i hi
  rw [h.sizeAt hi]
  omega

/-- Equal offsets are those of numbers without attributes. -/
theorem IleafOk.sizeAt_between {leaf : Ileaf} {n : Nat} (h : IleafOk g leaf)
    (heq : leaf.atdict i = leaf.atdict n) (hn : n ≤ leaf.icount) (hi : i ≤ j) (hj : j < n) :
    leaf.sizeAt j = 0 := by
  have hlt : j < leaf.icount := Nat.lt_of_lt_of_le hj hn
  have hlow := h.sorted.mono hi (Nat.le_of_lt hlt)
  have hmid := h.sorted j hlt
  have hhigh := h.sorted.mono (show j + 1 ≤ n from hj) hn
  rw [h.sizeAt_eq_zero hlt]
  omega

/-- And the other way round. -/
theorem IleafOk.atdict_eq {leaf : Ileaf} {n : Nat} (h : IleafOk g leaf) (hle : i ≤ n)
    (hn : n ≤ leaf.icount) (hno : ∀ j, i ≤ j → j < n → leaf.sizeAt j = 0) :
    leaf.atdict i = leaf.atdict n := by
  induction n, hle using Nat.le_induction with
  | base => rfl
  | succ n hle ih =>
      rw [(h.sizeAt_eq_zero hn).mp (hno n hle (Nat.lt_succ_self n))]
      exact ih (Nat.le_of_succ_le hn) fun j hj hlt => hno j hj (Nat.lt_succ_of_lt hlt)

/-- The sizes of the attributes of a range add up to the bytes between its ends. -/
theorem IleafOk.sum_sizes (h : IleafOk g leaf.toIleaf) (hle : i ≤ leaf.icount) :
    ((List.range len).map fun k => leaf.sizeAt (i + k)).sum =
      leaf.atdict (min (i + len) leaf.icount) - leaf.atdict i := by
  induction len with
  | zero =>
      rw [List.range_zero, List.map_nil, List.sum_nil, Nat.add_zero, Nat.min_eq_left hle,
        Nat.sub_self]
  | succ len ih =>
      rw [List.range_succ, List.map_append, List.sum_append, ih, List.map_singleton,
        List.sum_singleton]
      have hmono := h.sorted.mono (Nat.le_min.mpr ⟨Nat.le_add_right i len, hle⟩)
        (Nat.min_le_right _ _)
      by_cases hlt : i + len < leaf.icount
      · have hnext := h.sorted (i + len) hlt
        rw [Nat.min_eq_left (Nat.le_of_lt hlt)] at hmono
        rw [h.sizeAt hlt, Nat.min_eq_left (Nat.le_of_lt hlt), ← Nat.add_assoc,
          Nat.min_eq_left (show i + len + 1 ≤ leaf.icount from hlt)]
        omega
      · rw [Ileaf.sizeAt_of_ge (Nat.not_lt.mp hlt), Nat.min_eq_right (Nat.not_lt.mp hlt),
          Nat.min_eq_right (by omega), Nat.add_zero]

/-! ## Where the chop is right -/

section

variable {at_ : Nat}

/-- All the bytes that are removed are those of the first number of the range. -/
structure FirstOnly (leaf : Ileaf) (at_ len : Nat) : Prop where
  pos : 0 < len
  inside : at_ + len ≤ leaf.icount
  first : leaf.atdict (at_ + 1) = leaf.atdict (at_ + len)

variable (h : IleafOk g leaf.toIleaf) (hfirst : FirstOnly leaf.toIleaf at_ len)
include h hfirst

theorem FirstOnly.atdict (hi : i ≤ leaf.icount) : (choppedLeaf leaf at_ len).atdict i =
    if i ≤ at_ then leaf.atdict i
    else leaf.atdict i - (leaf.atdict (at_ + len) - leaf.atdict at_) := by
  have hinside := hfirst.inside
  rw [choppedLeaf_atdict hi]
  split
  · rfl
  · rename_i hgt
    refine addIdict_neg (h.atdict_lt hi) ?_
    have hle := h.sorted.mono (show at_ + 1 ≤ i by omega) hi
    rw [hfirst.first] at hle
    omega

theorem FirstOnly.sorted : (choppedLeaf leaf at_ len).Sorted := by
  have hinside := hfirst.inside
  have hpos := hfirst.pos
  intro i hi
  rw [choppedLeaf_icount] at hi
  rw [hfirst.atdict h (Nat.le_of_lt hi), hfirst.atdict h (show i + 1 ≤ leaf.icount from hi)]
  have hstep := h.sorted i hi
  have hstart := h.sorted.mono (Nat.le_add_right at_ len) hinside
  rcases Nat.lt_trichotomy i at_ with hlt | rfl | hgt
  · rw [if_pos (by omega), if_pos (by omega)]
    exact hstep
  · rw [if_pos (by omega), if_neg (by omega), hfirst.first]
    omega
  · rw [if_neg (by omega), if_neg (by omega)]
    omega

/-- The numbers of the range lose their attributes, the others keep theirs. -/
theorem FirstOnly.attrs (i : Nat) : (choppedLeaf leaf at_ len).attrs i =
    if at_ ≤ i ∧ i < at_ + len then [] else leaf.attrs i := by
  have hinside := hfirst.inside
  have hpos := hfirst.pos
  have hcount : (choppedLeaf leaf at_ len).icount = leaf.icount := choppedLeaf_icount
  have hstart := h.sorted.mono (Nat.le_add_right at_ len) hinside
  by_cases hi : i < leaf.icount
  · have hlow := hfirst.atdict h (Nat.le_of_lt hi)
    have hhigh := hfirst.atdict h (show i + 1 ≤ leaf.icount from hi)
    have hstep := h.sorted i hi
    have hsize : (choppedLeaf leaf at_ len).sizeAt i =
        (choppedLeaf leaf at_ len).atdict (i + 1) - (choppedLeaf leaf at_ len).atdict i := by
      refine Ileaf.sizeAt_of_le (hcount ▸ hi) (hfirst.sorted h i (hcount ▸ hi)) ?_
      have hlt := h.atdict_lt (show i + 1 ≤ leaf.icount from hi)
      rw [hhigh]
      split <;> omega
    have hold := h.sizeAt hi
    by_cases hrange : at_ ≤ i ∧ i < at_ + len
    · rw [if_pos hrange]
      refine IleafBlock.attrs_of_size ?_
      -- all the offsets of the range are that of its start
      have hge := h.sorted.mono (show at_ + 1 ≤ i + 1 by omega) hi
      have hle := h.sorted.mono (show i + 1 ≤ at_ + len by omega) hinside
      rw [hfirst.first] at hge
      rw [hsize, hlow, hhigh, if_neg (by omega)]
      split
      · have heq : i = at_ := by omega
        rw [heq] at hge hle ⊢
        omega
      · have hmid := h.sorted.mono (show at_ + 1 ≤ i by omega) (Nat.le_of_lt hi)
        rw [hfirst.first] at hmid
        omega
    · rw [if_neg hrange]
      have hmove : ∀ k, k < leaf.atdict (i + 1) - leaf.atdict i →
          (choppedLeaf leaf at_ len).table ((choppedLeaf leaf at_ len).atdict i + k) =
            leaf.table (leaf.atdict i + k) := by
        intro k hk
        rw [hlow]
        unfold choppedLeaf moveDown
        dsimp only
        by_cases hbefore : i < at_
        · have hend := h.sorted.mono (show i + 1 ≤ at_ by omega) (by omega)
          rw [if_pos (show i ≤ at_ by omega), if_neg (by omega)]
        · have hafter := h.sorted.mono (show at_ + len ≤ i by omega) (Nat.le_of_lt hi)
          have hend := h.sorted.mono (show i + 1 ≤ leaf.icount from hi) (Nat.le_refl _)
          rw [if_neg (show ¬ i ≤ at_ by omega), if_pos (by omega)]
          congr 1
          omega
      have hsame : (choppedLeaf leaf at_ len).sizeAt i = leaf.sizeAt i := by
        rw [hsize, hold, hlow, hhigh]
        by_cases hbefore : i < at_
        · rw [if_pos (by omega), if_pos (by omega)]
        · have hafter := h.sorted.mono (show at_ + len ≤ i by omega) (Nat.le_of_lt hi)
          rw [if_neg (by omega), if_neg (by omega)]
          omega
      unfold IleafBlock.attrs
      rw [hsame]
      refine List.map_congr_left fun k hk => hmove k ?_
      rw [List.mem_range, hold] at hk
      exact hk
  · have hge := Nat.not_lt.mp hi
    rw [if_neg (by omega), IleafBlock.attrs_of_size (Ileaf.sizeAt_of_ge (hcount ▸ hge)),
      IleafBlock.attrs_of_size (Ileaf.sizeAt_of_ge hge)]

end

/-- If all bytes that are removed are those of the first number, the chop is right. -/
theorem FirstOnly.chopRight (h : IleafOk g leaf.toIleaf) (hstart : leaf.ibase ≤ start)
    {n : Nat} (hn : n = min len (leaf.icount - (start - leaf.ibase)))
    (hfirst : FirstOnly leaf.toIleaf (start - leaf.ibase) n) :
    ChopRight g leaf start len (ileafTrim (choppedLeaf leaf (start - leaf.ibase) n)) := by
  have hinside := hfirst.inside
  have hattrs : ∀ i, (ileafTrim (choppedLeaf leaf (start - leaf.ibase) n)).attrs i =
      if start - leaf.ibase ≤ i ∧ i < start - leaf.ibase + n then [] else leaf.attrs i :=
    fun i => (ileafTrim_attrs _ i).trans (hfirst.attrs h i)
  constructor
  · intro inum hout
    refine ileafLookup_congr rfl fun hle => ?_
    rw [hattrs, if_neg (by omega)]
  · intro inum hle hlt
    have hbase : leaf.ibase ≤ inum := Nat.le_trans hstart hle
    rw [ileafLookup_eq_none (show (ileafTrim (choppedLeaf leaf _ n)).ibase ≤ inum from hbase),
      ← IleafBlock.attrs_length]
    show ((ileafTrim (choppedLeaf leaf (start - leaf.ibase) n)).attrs
      (inum - leaf.ibase)).length = 0
    rw [hattrs]
    split
    · rfl
    · rw [IleafBlock.attrs_length]
      exact Ileaf.sizeAt_of_ge (by omega)
  · exact ileafTrim_sorted (hfirst.sorted h)
  · exact ileafTrim_trimmed _
  · have hneed := ileafTrim_need (choppedLeaf leaf (start - leaf.ibase) n)
    have hcount : (choppedLeaf leaf (start - leaf.ibase) n).icount = leaf.icount :=
      choppedLeaf_icount
    have htrim : (ileafTrim (choppedLeaf leaf (start - leaf.ibase) n)).icount ≤ leaf.icount := by
      rw [ileafTrim_icount, ← hcount]
      exact (trimCount_spec _ _).1
    have hend := hfirst.atdict h (Nat.le_refl leaf.icount)
    have hmono := h.sorted.mono (Nat.le_add_right (start - leaf.ibase) n) hinside
    have htail := h.sorted.mono hinside (Nat.le_refl _)
    have hsum : removedBytes leaf start len = leaf.atdict (start - leaf.ibase + n) -
        leaf.atdict (start - leaf.ibase) := by
      unfold removedBytes
      rw [h.sum_sizes (by omega)]
      congr 2
      omega
    have hpos := hfirst.pos
    rw [if_neg (by omega)] at hend
    unfold ileafNeed at hneed
    rw [hcount, hend] at hneed
    unfold ileafFree ileafNeed
    rw [hsum]
    omega

/-- `ileaf_chop` removes the attributes of the numbers in the range and nothing else, exactly if no
number of the range but the first one has attributes. -/
theorem ileafChop_iff (h : IleafOk g leaf.toIleaf) (hstart : leaf.ibase ≤ start) (hlen : 1 ≤ len) :
    ChopRight g leaf start len (ileafChop leaf start len).1 ↔
      ∀ inum, start < inum → inum < start + len → ileafLookup leaf inum = .ok none := by
  -- the condition is about the numbers of the range as they stand in the dictionary
  have hcond : (∀ inum, start < inum → inum < start + len → ileafLookup leaf inum = .ok none) ↔
      ∀ i, start - leaf.ibase < i → i < start - leaf.ibase + len → leaf.sizeAt i = 0 := by
    constructor
    · intro hnone i hi hi'
      have hsize := hnone (leaf.ibase + i) (by omega) (by omega)
      rwa [ileafLookup_eq_none (Nat.le_add_right _ _), Nat.add_sub_cancel_left] at hsize
    · intro hzero inum hlt hlt'
      rw [ileafLookup_eq_none (by omega)]
      exact hzero _ (by omega) (by omega)
  rw [hcond]
  unfold ileafChop
  dsimp only
  split
  · rename_i hcount
    have hzero : ∀ i, start - leaf.ibase ≤ i → leaf.sizeAt i = 0 :=
      fun i hi => Ileaf.sizeAt_of_ge (by omega)
    exact ⟨fun _ i hi _ => hzero i (Nat.le_of_lt hi), fun _ =>
      ChopRight.unchanged h hstart fun i _ => hzero _ (Nat.le_add_right _ _)⟩
  rename_i hcount
  have hbelow : start - leaf.ibase + min len (leaf.icount - (start - leaf.ibase)) ≤ leaf.icount := by
    omega
  have hpast : ∀ i, start - leaf.ibase + min len (leaf.icount - (start - leaf.ibase)) ≤ i →
      i < start - leaf.ibase + len → leaf.sizeAt i = 0 :=
    fun i hi hi' => Ileaf.sizeAt_of_ge (by omega)
  generalize hn : min len (leaf.icount - (start - leaf.ibase)) = n at hbelow hpast
  generalize hat : start - leaf.ibase = at_ at hbelow hpast hcount hn
  split
  · rename_i heq
    have hzero : ∀ i, at_ ≤ i → i < at_ + len → leaf.sizeAt i = 0 := by
      intro i hi hi'
      rcases Nat.lt_or_ge i (at_ + n) with hlt | hge
      · exact h.sizeAt_between heq hbelow hi hlt
      · exact hpast i hge hi'
    refine ⟨fun _ i hi hi' => hzero i (Nat.le_of_lt hi) hi', fun _ =>
      ChopRight.unchanged h hstart fun i hi => ?_⟩
    rw [hat]
    exact hzero _ (Nat.le_add_right _ _) (Nat.add_lt_add_left hi _)
  rename_i hne
  constructor
  · intro hright
    -- the entry after the start is lowered to the offset of the start
    have hremoved : ileafLookup (ileafTrim (choppedLeaf leaf at_ n)) start = .ok none :=
      hright.removed start (Nat.le_refl _) (by omega)
    rw [ileafLookup_eq_none (show (ileafTrim (choppedLeaf leaf at_ n)).ibase ≤ start from hstart),
      ← IleafBlock.attrs_length, ileafTrim_attrs, IleafBlock.attrs_length] at hremoved
    have hbase : (ileafTrim (choppedLeaf leaf at_ n)).ibase = leaf.ibase := rfl
    rw [hbase, hat] at hremoved
    have hcount' : (choppedLeaf leaf at_ n).icount = leaf.icount := choppedLeaf_icount
    have hlow := @choppedLeaf_atdict leaf at_ n at_ (by omega)
    have hhigh := @choppedLeaf_atdict leaf (at_ + 1) n at_ (by omega)
    rw [if_pos (Nat.le_refl _)] at hlow
    rw [if_neg (by omega)] at hhigh
    unfold Ileaf.sizeAt at hremoved
    rw [if_pos (by omega), hlow, hhigh] at hremoved
    have hlt := h.atdict_lt (show at_ ≤ leaf.icount by omega)
    have hlt' := h.atdict_lt (show at_ + 1 ≤ leaf.icount by omega)
    have hlt'' := h.atdict_lt hbelow
    have hmono := h.sorted.mono (Nat.le_add_right at_ n) hbelow
    have hentry : leaf.atdict (at_ + 1) = leaf.atdict (at_ + n) := by
      rcases Nat.lt_or_ge (leaf.atdict (at_ + 1)) (leaf.atdict (at_ + n) - leaf.atdict at_) with
        hwrap | hfit
      · rw [addIdict_wrap hwrap (by omega)] at hremoved
        omega
      · rw [addIdict_neg hlt' hfit] at hremoved
        omega
    intro i hi hi'
    rcases Nat.lt_or_ge i (at_ + n) with hin | hge
    · exact h.sizeAt_between hentry hbelow hi hin
    · exact hpast i hge hi'
  · intro hzero
    have hfirst : FirstOnly leaf.toIleaf at_ n :=
      ⟨by omega, hbelow, h.atdict_eq (by omega) hbelow fun j hj hj' => hzero j hj (by omega)⟩
    subst hat
    exact hfirst.chopRight h hstart hn.symm

end

/-! ## Two chops -/

/-- Numbers 8, 9 and 11 have attributes of two, three and one bytes. -/
def threeInodes : IleafBlock := ⟨⟨8, [2, 5, 5, 6]⟩, fun i => UInt8.ofNat i⟩

theorem sixBits_ge : 6 ≤ 6 := Nat.le_refl 6

theorem sixBits_le : 6 ≤ 16 := by decide

/-- Blocks of 64 bytes. -/
def smallBlocks : Geometry := ⟨6, 5, sixBits_ge, sixBits_le, by decide, by decide⟩

theorem threeInodes_ok : IleafOk smallBlocks threeInodes.toIleaf :=
  ⟨by unfold Ileaf.Sorted; decide, by unfold Ileaf.Trimmed; decide, by decide⟩

theorem ileafChop_iff_one : (ileafChop threeInodes 9 2).1.dict = [2, 2, 2, 3] ∧
    (ChopRight smallBlocks threeInodes 9 2 (ileafChop threeInodes 9 2).1 ↔
      ∀ inum, 9 < inum → inum < 9 + 2 → ileafLookup threeInodes inum = .ok none) :=
  ⟨by decide +kernel, ileafChop_iff threeInodes_ok (by decide) (by decide)⟩

/-- A chop of 8 and 9: the entry of 8 is lowered by the bytes of both, and wraps. -/
theorem ileafChop_two : IleafOk smallBlocks threeInodes.toIleaf ∧
    (ileafChop threeInodes 8 2).1.dict = [2 ^ 16 - 3, 0, 0, 1] ∧
    ¬ ChopRight smallBlocks threeInodes 8 2 (ileafChop threeInodes 8 2).1 := by
  refine ⟨threeInodes_ok, by decide +kernel, fun hright => ?_⟩
  have hsorted := hright.sorted 1 (by decide +kernel)
  exact absurd hsorted (by decide +kernel)

end Tux3
