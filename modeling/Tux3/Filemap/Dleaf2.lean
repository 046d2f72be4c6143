/-
  Filemap/Dleaf2.lean --- the leaves of the file index.

  An entry holds from its logical address up to that of the next one; physical address zero is a
  hole, and the last entry of a leaf is one.  A leaf without entries is a hole.
-/
import Tux3.Filemap.SegRange
import Tux3.Lib.StepTable

set_option autoImplicit false

namespace Tux3

open Outcome (bind_of_ok bind_of_error bind_eq_ok)
open StepTable (Ascending lastAt)

/-! ## Entries -/

/-- `struct diskextent2`, less the versions: two addresses of 48 bits. -/
@[ext] structure DiskExtent where
  logical : Nat
  physical : Nat
  logical_lt : logical < 2 ^ 48
  physical_lt : physical < 2 ^ 48
  deriving Repr

instance : DecidableEq DiskExtent := fun a b =>
  decidable_of_iff (a.logical = b.logical ∧ a.physical = b.physical) DiskExtent.ext_iff.symm

/-- The entry that `put_extent` leaves: what is above the 48 bits goes to the version. -/
def diskExtent (logical physical : Nat) : DiskExtent where
  logical := logical % 2 ^ 48
  physical := physical % 2 ^ 48
  logical_lt := Nat.mod_lt _ (by decide)
  physical_lt := Nat.mod_lt _ (by decide)

theorem diskExtent_logical {logical : Nat} (physical : Nat) (h : logical < 2 ^ 48) :
    (diskExtent logical physical).logical = logical := Nat.mod_eq_of_lt h

theorem diskExtent_physical {physical : Nat} (logical : Nat) (h : physical < 2 ^ 48) :
    (diskExtent logical physical).physical = physical := Nat.mod_eq_of_lt h

@[simp] theorem diskExtent_hole (logical : Nat) : (diskExtent logical 0).physical = 0 := rfl

theorem diskExtent_self (ex : DiskExtent) : diskExtent ex.logical ex.physical = ex :=
  DiskExtent.ext (diskExtent_logical _ ex.logical_lt) (diskExtent_physical _ ex.physical_lt)

/-- `struct dleaf2`: `count` entries are in use of the memory of `table[]`. -/
structure Dleaf2 where
  count : Nat
  table : List DiskExtent
  deriving DecidableEq, Repr

/-- `get_extent`. -/
def getExtent (table : List DiskExtent) (i : Nat) : Except TuxError DiskExtent :=
  match table[i]? with
  | some ex => .ok ex
  | none => .error .bounds

/-- `put_extent`. -/
def putExtent (table : List DiskExtent) (i logical physical : Nat) :
    Except TuxError (List DiskExtent) :=
  if i < table.length then .ok (table.set i (diskExtent logical physical)) else .error .bounds

/-- `memcpy(&table[dst], &source[src], size)`, of a number of entries. -/
def memcpyExtents (table : List DiskExtent) (dst : Nat) (source : List DiskExtent)
    (src size : Nat) : Except TuxError (List DiskExtent) :=
  if dst + size ≤ table.length ∧ src + size ≤ source.length
  then .ok (table.take dst ++ (source.drop src).take size ++ table.drop (dst + size))
  else .error .bounds

/-- `memmove(&table[dst], &table[src], size)`. -/
def memmoveExtents (table : List DiskExtent) (dst src size : Nat) :
    Except TuxError (List DiskExtent) :=
  memcpyExtents table dst table src size

/-! ## The code -/

/-- `dleaf2_init`. -/
def dleaf2Init (leaf : Dleaf2) : Dleaf2 := { leaf with count := 0 }

/-- The loop of `dleaf2_lookup_index`, and what follows it. -/
def lookupIndexLoop (leaf : Dleaf2) (index : Nat) : Nat → Nat → Except TuxError Nat
  | 0, _ => .error .fuel
  | fuel + 1, dex =>
      if dex < leaf.count then do
        let ex ← getExtent leaf.table dex
        if index = ex.logical then return dex
        else if index < ex.logical then do
          tuxAssert (0 < dex)
          return dex - 1
        else lookupIndexLoop leaf index fuel (dex + 1)
      else if leaf.count = 0 then return dex
      else do
        let ex ← getExtent leaf.table (dex - 1)
        tuxAssert (ex.physical = 0)
        return dex

/-- `dleaf2_lookup_index`. -/
def dleaf2LookupIndex (leaf : Dleaf2) (index : Nat) : Except TuxError Nat :=
  lookupIndexLoop leaf index (leaf.count + 1) 0

/-- `dleaf2_split`. -/
def dleaf2Split (hint : Nat) (vfrom vinto : Dleaf2) : Except TuxError (Nat × Dleaf2 × Dleaf2) := do
  tuxAssert (3 ≤ vfrom.count)
  let dex ← dleaf2LookupIndex vfrom hint
  if dex = vfrom.count then do
    let ex ← getExtent vfrom.table (dex - 1)
    tuxAssert (ex.physical = 0)
    return (ex.logical, vfrom, vinto)
  else do
    let copied ← memcpyExtents vinto.table 0 vfrom.table dex (vfrom.count - dex)
    let ex ← getExtent vfrom.table dex
    let table ← putExtent vfrom.table dex ex.logical 0
    return (ex.logical, ⟨dex + 1, table⟩, ⟨vfrom.count - dex, copied⟩)

/-- `dleaf2_merge`. -/
def dleaf2Merge (entriesPerLeaf : Nat) (vinto vfrom : Dleaf2) :
    Except TuxError (Nat × Dleaf2 × Dleaf2) :=
  if vfrom.count ≤ 1 then return (1, vinto, vfrom)
  else if vinto.count = 0 then do
    let table ← memcpyExtents vinto.table 0 vfrom.table 0 vfrom.count
    return (1, ⟨vfrom.count, table⟩, ⟨0, vfrom.table⟩)
  else do
    let intoEx ← getExtent vinto.table (vinto.count - 1)
    let fromEx ← getExtent vfrom.table 0
    tuxAssert (intoEx.logical ≤ fromEx.logical)
    tuxAssert (intoEx.physical = 0)
    let canMerge := if fromEx.physical = 0 ∨ intoEx.logical = fromEx.logical then 1 else 0
    if entriesPerLeaf < vinto.count + vfrom.count - canMerge then return (0, vinto, vfrom)
    else do
      let table ←
        if fromEx.physical = 0 then
          memcpyExtents vinto.table vinto.count vfrom.table 1 (vfrom.count - canMerge)
        else if intoEx.logical = fromEx.logical then
          memcpyExtents vinto.table (vinto.count - 1) vfrom.table 0 vfrom.count
        else memcpyExtents vinto.table vinto.count vfrom.table 0 vfrom.count
      return (1, ⟨vinto.count + vfrom.count - canMerge, table⟩, ⟨0, vfrom.table⟩)

/-! ## The map of a leaf -/

/-- The entries in use. -/
def Dleaf2.entries (leaf : Dleaf2) : List DiskExtent := leaf.table.take leaf.count

/-- The physical block of a logical one, if it has one. -/
def extentMap (entries : List DiskExtent) (x : Nat) : Option Nat :=
  (lastAt DiskExtent.logical entries x).bind fun ex =>
    if ex.physical = 0 then none else some (ex.physical + (x - ex.logical))

/-- A leaf for the keys from `bottom` up to `limit`: there is an entry for the bottom, and the last
one is a hole. -/
structure Dleaf2.Ok (leaf : Dleaf2) (entriesPerLeaf bottom limit : Nat) : Prop where
  memory : leaf.table.length = entriesPerLeaf
  count_le : leaf.count ≤ entriesPerLeaf
  ascending : Ascending DiskExtent.logical leaf.entries
  first : ∀ ex, leaf.entries.head? = some ex → ex.logical ≤ bottom
  last : ∀ ex, leaf.entries.getLast? = some ex → ex.physical = 0 ∧ ex.logical ≤ limit

section

variable {leaf : Dleaf2} {table front back junk entries : List DiskExtent} {ex next : DiskExtent}
  {i x index entriesPerLeaf bottom limit : Nat}

theorem getExtent_append (hi : i = front.length) : getExtent (front ++ ex :: back) i = .ok ex := by
  subst hi
  unfold getExtent
  rw [List.getElem?_append_right (Nat.le_refl _), Nat.sub_self]
  rfl

theorem putExtent_append {logical physical : Nat} (hi : i = front.length) :
    putExtent (front ++ ex :: back) i logical physical =
      .ok (front ++ diskExtent logical physical :: back) := by
  subst hi
  unfold putExtent
  rw [if_pos, List.set_append_right _ _ (Nat.le_refl _), Nat.sub_self, List.set_cons_zero]
  rw [List.length_append, List.length_cons]
  omega

/-! ## The map -/

/-- An entry holds for the blocks from its address on. -/
theorem extentMap_split (hle : ex.logical ≤ x) (hback : ∀ b ∈ back, x < b.logical) :
    extentMap (front ++ ex :: back) x =
      if ex.physical = 0 then none else some (ex.physical + (x - ex.logical)) := by
  unfold extentMap
  rw [StepTable.lastAt_split hle hback]
  rfl

/-- There is nothing in front of the first entry. -/
theorem extentMap_of_lt (h : ∀ ex ∈ entries, x < ex.logical) : extentMap entries x = none := by
  unfold extentMap
  rw [StepTable.lastAt_of_lt h]
  rfl

theorem extentMap_append_of_lt (h : ∀ ex ∈ back, x < ex.logical) :
    extentMap (front ++ back) x = extentMap front x := by
  unfold extentMap
  rw [StepTable.lastAt_append_of_lt h]

theorem extentMap_append_of_le (h : ∃ ex ∈ back, ex.logical ≤ x) :
    extentMap (front ++ back) x = extentMap back x := by
  unfold extentMap
  rw [StepTable.lastAt_append_of_le h]

/-- There is nothing behind a sentinel. -/
theorem extentMap_sentinel (hle : ex.logical ≤ x) (hhole : ex.physical = 0) :
    extentMap (front ++ [ex]) x = none := by
  rw [extentMap_split hle fun b hb => absurd hb List.not_mem_nil, if_pos hhole]

/-! ## Leaves -/

theorem getExtent_of_entries (h : leaf.entries = front ++ ex :: back) (hi : i = front.length) :
    getExtent leaf.table i = .ok ex := by
  have htable : leaf.table = front ++ ex :: (back ++ leaf.table.drop leaf.count) := by
    have happend := List.take_append_drop leaf.count leaf.table
    unfold Dleaf2.entries at h
    rw [h, List.append_assoc, List.cons_append] at happend
    exact happend.symm
  rw [htable]
  exact getExtent_append hi

theorem entries_of_table {n : Nat} (htable : table = front ++ junk) (hn : n = front.length) :
    (Dleaf2.mk n table).entries = front := by
  unfold Dleaf2.entries
  rw [htable, hn, List.take_left]

namespace Dleaf2.Ok

theorem entries_length (h : leaf.Ok entriesPerLeaf bottom limit) :
    leaf.entries.length = leaf.count := by
  unfold Dleaf2.entries
  rw [List.length_take, h.memory, Nat.min_eq_left h.count_le]

/-- The memory of a leaf. -/
theorem table_eq (h : leaf.Ok entriesPerLeaf bottom limit) :
    ∃ junk, leaf.table = leaf.entries ++ junk ∧ leaf.count + junk.length = entriesPerLeaf := by
  refine ⟨leaf.table.drop leaf.count, (List.take_append_drop _ _).symm, ?_⟩
  rw [List.length_drop, h.memory]
  exact Nat.add_sub_cancel' h.count_le

theorem eq_nil (h : leaf.Ok entriesPerLeaf bottom limit) (hcount : leaf.count = 0) :
    leaf.entries = [] :=
  List.eq_nil_of_length_eq_zero (h.entries_length.trans hcount)

/-- The entries end with the sentinel. -/
theorem exists_sentinel (h : leaf.Ok entriesPerLeaf bottom limit) (hcount : leaf.count ≠ 0) :
    ∃ front ex, leaf.entries = front ++ [ex] ∧ ex.physical = 0 ∧ ex.logical ≤ limit ∧
      leaf.count = front.length + 1 := by
  have hlength := h.entries_length
  rcases List.eq_nil_or_concat leaf.entries with hnil | ⟨front, ex, hentries⟩
  · rw [hnil] at hlength
    exact absurd hlength.symm hcount
  · rw [List.concat_eq_append] at hentries
    have hlast : leaf.entries.getLast? = some ex := by
      rw [hentries, List.getLast?_append]
      rfl
    obtain ⟨hhole, hle⟩ := h.last ex hlast
    rw [hentries, List.length_append] at hlength
    exact ⟨front, ex, hentries, hhole, hle, hlength.symm⟩

theorem le_limit (h : leaf.Ok entriesPerLeaf bottom limit) :
    ∀ ex ∈ leaf.entries, ex.logical ≤ limit := by
  intro ex hex
  by_cases hcount : leaf.count = 0
  · rw [h.eq_nil hcount] at hex
    exact absurd hex List.not_mem_nil
  obtain ⟨front, sentinel, hentries, -, hlimit, -⟩ := h.exists_sentinel hcount
  have hasc := h.ascending
  rw [hentries] at hex hasc
  rcases List.mem_append.mp hex with hin | hin
  · exact Nat.le_trans (Nat.le_of_lt (hasc.before ex hin)) hlimit
  · exact List.mem_singleton.mp hin ▸ hlimit

/-- There is an entry for each address that is not below the first one. -/
theorem exists_at (h : leaf.Ok entriesPerLeaf bottom limit) (hcount : leaf.count ≠ 0)
    (hfirst : ∀ ex, leaf.entries.head? = some ex → ex.logical ≤ index) :
    ∃ front ex back, leaf.entries = front ++ ex :: back ∧ ex.logical ≤ index ∧
      ∀ b ∈ back, index < b.logical := by
  refine StepTable.exists_split ?_
  have hlength := h.entries_length
  cases hentries : leaf.entries with
  | nil =>
      rw [hentries] at hlength
      exact absurd hlength.symm hcount
  | cons ex rest => exact ⟨ex, List.mem_cons_self, hfirst ex (by rw [hentries]; rfl)⟩

end Dleaf2.Ok

/-! ## `dleaf2_lookup_index` -/

/-- The entries below the index are passed over. -/
theorem lookupIndexLoop_skip (fuel : Nat) {rest : List DiskExtent}
    (hentries : leaf.entries = front ++ (back ++ rest)) (hcount : leaf.entries.length = leaf.count)
    (hback : ∀ b ∈ back, b.logical < index) :
    lookupIndexLoop leaf index (fuel + back.length) front.length =
      lookupIndexLoop leaf index fuel (front.length + back.length) := by
  induction back generalizing front with
  | nil => rfl
  | cons ex back ih =>
      obtain ⟨hex, hrest⟩ := List.forall_mem_cons.mp hback
      have hlt : front.length < leaf.count := by
        rw [← hcount, hentries, List.length_append, List.cons_append, List.length_cons]
        omega
      have hmove : leaf.entries = (front ++ [ex]) ++ (back ++ rest) := by
        rw [hentries]
        simp
      have hturn : lookupIndexLoop leaf index (fuel + back.length + 1) front.length =
          lookupIndexLoop leaf index (fuel + back.length) (front.length + 1) := by
        rw [lookupIndexLoop, if_pos hlt, bind_of_ok (getExtent_of_entries hentries rfl),
          if_neg (Nat.ne_of_gt hex), if_neg (Nat.not_lt_of_lt hex)]
      have hnext := ih hmove hrest
      rw [List.length_append, List.length_singleton] at hnext
      rw [List.length_cons, ← Nat.add_assoc, hturn, hnext, Nat.add_assoc _ 1, Nat.add_comm 1]

section Lookup

variable (hentries : leaf.entries = front ++ ex :: back)
  (hcount : leaf.entries.length = leaf.count)
  (hasc : Ascending DiskExtent.logical leaf.entries)
include hentries hcount hasc

/-- The address of an entry. -/
theorem dleaf2LookupIndex_eq (heq : ex.logical = index) :
    dleaf2LookupIndex leaf index = .ok front.length := by
  have hlength : leaf.count = front.length + (back.length + 1) := by
    rw [← hcount, hentries, List.length_append, List.length_cons]
  have hfront : ∀ b ∈ front, b.logical < index := fun b hb => by
    rw [hentries] at hasc
    exact heq ▸ hasc.before b hb
  have hskip := @lookupIndexLoop_skip leaf [] front index (back.length + 2) _ hentries hcount hfront
  have hfuel : leaf.count + 1 = back.length + 2 + front.length := by omega
  unfold dleaf2LookupIndex
  rw [hfuel]
  refine hskip.trans ?_
  rw [List.length_nil, Nat.zero_add, lookupIndexLoop, if_pos (by omega),
    bind_of_ok (getExtent_of_entries hentries rfl), if_pos heq.symm]
  rfl

/-- Between two entries. -/
theorem dleaf2LookupIndex_between (hne : back ≠ []) (hle : ex.logical ≤ index)
    (hback : ∀ b ∈ back, index < b.logical) :
    dleaf2LookupIndex leaf index = .ok front.length := by
  rcases Nat.eq_or_lt_of_le hle with heq | hlt
  · exact dleaf2LookupIndex_eq hentries hcount hasc heq
  cases back with
  | nil => exact absurd rfl hne
  | cons next back =>
      have hnext := hback next List.mem_cons_self
      have hlength : leaf.count = front.length + (back.length + 2) := by
        rw [← hcount, hentries, List.length_append, List.length_cons, List.length_cons]
      have hmove : leaf.entries = (front ++ [ex]) ++ next :: back := by
        rw [hentries]
        simp
      have hfront : ∀ b ∈ front ++ [ex], b.logical < index := by
        intro b hb
        rcases List.mem_append.mp hb with hin | hin
        · rw [hentries] at hasc
          exact Nat.lt_trans (hasc.before b hin) hlt
        · exact List.mem_singleton.mp hin ▸ hlt
      have hskip := @lookupIndexLoop_skip leaf [] (front ++ [ex]) index (back.length + 2) _ hmove
        hcount hfront
      rw [List.length_append, List.length_singleton] at hskip
      have hfuel : leaf.count + 1 = back.length + 2 + (front.length + 1) := by omega
      unfold dleaf2LookupIndex
      rw [hfuel]
      refine hskip.trans ?_
      rw [List.length_nil, Nat.zero_add, lookupIndexLoop, if_pos (by omega),
        bind_of_ok (getExtent_of_entries hmove (by rw [List.length_append]; rfl)),
        if_neg (Nat.ne_of_lt hnext), if_pos hnext, bind_of_ok (tuxAssert_of (Nat.succ_pos _))]
      rfl

/-- Behind the sentinel. -/
theorem dleaf2LookupIndex_behind (hnil : back = []) (hlt : ex.logical < index)
    (hhole : ex.physical = 0) : dleaf2LookupIndex leaf index = .ok leaf.count := by
  subst hnil
  have hlength : leaf.count = front.length + 1 := by
    rw [← hcount, hentries, List.length_append]
    rfl
  have hfront : ∀ b ∈ front ++ [ex], b.logical < index := by
    intro b hb
    rcases List.mem_append.mp hb with hin | hin
    · rw [hentries] at hasc
      exact Nat.lt_trans (hasc.before b hin) hlt
    · exact List.mem_singleton.mp hin ▸ hlt
  have hmove : leaf.entries = [] ++ ((front ++ [ex]) ++ []) := by
    rw [hentries]
    simp
  have hskip := lookupIndexLoop_skip 1 hmove hcount hfront
  rw [List.length_append, List.length_singleton] at hskip
  have hfuel : leaf.count + 1 = 1 + (front.length + 1) := by omega
  have hread : getExtent leaf.table (0 + (front.length + 1) - 1) = .ok ex :=
    getExtent_of_entries hentries (by omega)
  unfold dleaf2LookupIndex
  rw [hfuel]
  refine hskip.trans ?_
  rw [List.length_nil, lookupIndexLoop, if_neg (by omega), if_neg (by omega), bind_of_ok hread,
    bind_of_ok (tuxAssert_of hhole), hlength, Nat.zero_add]
  rfl

end Lookup

/-- Below the first entry there is none. -/
theorem dleaf2LookupIndex_below (hentries : leaf.entries = ex :: back)
    (hcount : leaf.entries.length = leaf.count) (hlt : index < ex.logical) :
    dleaf2LookupIndex leaf index = .error .assertion := by
  have hpos : 0 < leaf.count := by
    rw [← hcount, hentries]
    exact Nat.succ_pos _
  have hread : getExtent leaf.table 0 = .ok ex := @getExtent_of_entries leaf [] back ex 0 hentries rfl
  unfold dleaf2LookupIndex
  rw [lookupIndexLoop, if_pos hpos, bind_of_ok hread, if_neg (Nat.ne_of_lt hlt), if_pos hlt,
    bind_of_error (tuxAssert_of_not (Nat.lt_irrefl 0))]

/-- A leaf without entries. -/
theorem dleaf2LookupIndex_empty (hcount : leaf.count = 0) :
    dleaf2LookupIndex leaf index = .ok 0 := by
  unfold dleaf2LookupIndex
  rw [lookupIndexLoop, if_neg (by omega), if_pos hcount]
  rfl

end

end Tux3
