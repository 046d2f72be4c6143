/-
  Filemap/Dleaf.lean --- the leaves of the file index in their first format.

  A table of extents grows up from the header.  The index grows down from the end of the block:
  the groups first, then the entries of all groups, each a word of 32 bits.  A pointer into the
  index is the number of words from the end of the block down to it, so that `p--` is `p + 1`
  here; a pointer into the table is the number of extents before it.
-/
import Tux3.Volume
import Tux3.Lib.Area
import Tux3.Lib.Outcome

set_option autoImplicit false

namespace Tux3

open Outcome (bind_of_ok bind_of_error bind_eq_ok)
open Area (Holds holds_nil holds_cons holds_append)

/-! ## Words and extents -/

/-- `struct group` and `struct entry`: eight bits on top of 24.  `group_count` and
`entry_limit` are `top`, `group_keyhi` and `entry_keylo` are `key`. -/
@[ext] structure IndexWord where
  top : Nat
  key : Nat
  top_lt : top < 2 ^ 8
  key_lt : key < 2 ^ 24
  deriving DecidableEq, Repr

/-- The word of eight and of 24 bits. -/
def indexWord (top key : Nat) : IndexWord where
  top := top % 2 ^ 8
  key := key % 2 ^ 24
  top_lt := Nat.mod_lt _ (by decide)
  key_lt := Nat.mod_lt _ (by decide)

theorem indexWord_top {top : Nat} (key : Nat) (h : top < 2 ^ 8) : (indexWord top key).top = top :=
  Nat.mod_eq_of_lt h

theorem indexWord_key {key : Nat} (top : Nat) (h : key < 2 ^ 24) : (indexWord top key).key = key :=
  Nat.mod_eq_of_lt h

theorem indexWord_self (w : IndexWord) : indexWord w.top w.key = w :=
  IndexWord.ext (indexWord_top _ w.top_lt) (indexWord_key _ w.key_lt)

/-- `struct diskextent`: `version:10, count:6, block:48`, where the count is stored less one. -/
@[ext] structure LeafExtent where
  block : Nat
  count : Nat
  version : Nat
  block_lt : block < 2 ^ 48
  count_pos : 0 < count
  count_le : count ≤ 2 ^ 6
  version_lt : version < 2 ^ 10
  deriving DecidableEq, Repr

/-- `MAX_GROUP_ENTRIES`. -/
def maxGroupEntries : Nat := 255

/-- `struct dleaf`.  `index p` is the word at the pointer `p`. -/
structure Dleaf where
  magic : Nat
  groups : Nat
  free : Nat
  used : Nat
  index : Nat → IndexWord
  table : Nat → LeafExtent

/-- `get_index`. -/
def getIndex (group entry : IndexWord) : Nat := group.key <<< 24 ||| entry.key

theorem getIndex_eq (group entry : IndexWord) :
    getIndex group entry = group.key * 2 ^ 24 + entry.key := by
  unfold getIndex
  rw [← Nat.shiftLeft_add_eq_or_of_lt entry.key_lt, Nat.shiftLeft_eq]

/-! ## The check -/

/-- The loop of `dleaf_check` over the entries of a group. -/
def checkEntries (leaf : Dleaf) : Nat → Nat → Nat → Int → Except TuxError Unit
  | 0, _, _, _ => return ()
  | n + 1, entry, limit, keylo => do
      let word := leaf.index (entry + 1)
      tuxAssert (keylo < word.key)
      tuxAssert (limit < word.top)
      checkEntries leaf n (entry + 1) word.top word.key

/-- The loop of `dleaf_check` over the extents of a group: `block` stays zero. -/
def checkExtents (leaf : Dleaf) : Nat → Nat → Except TuxError Unit
  | 0, _ => return ()
  | n + 1, exbase => do
      tuxAssert ((leaf.table exbase).block ≠ 0)
      checkExtents leaf n (exbase + 1)

/-- The loop of `dleaf_check` over the groups, which counts the extents and the entries. -/
def checkGroups (leaf : Dleaf) :
    Nat → Nat → Nat → Nat → Nat → Nat → Nat → Except TuxError (Nat × Nat)
  | 0, _, _, _, _, excount, encount => return (excount, encount)
  | n + 1, group, estop, exbase, keyhi, excount, encount => do
      let word := leaf.index (group + 1)
      tuxAssert (keyhi ≤ word.key)
      tuxAssert (0 < word.top)
      tuxAssert (word.top ≤ maxGroupEntries)
      checkEntries leaf word.top estop 0 (-1)
      let limit := (leaf.index (estop + word.top)).top
      checkExtents leaf limit exbase
      checkGroups leaf n (group + 1) (estop + word.top) (exbase + limit) word.key
        (excount + limit) (encount + word.top)

/-- The loop of `dleaf_free2`: the last entry and the end of the extents. -/
def free2Loop (leaf : Dleaf) : Nat → Nat → Nat → Nat → Nat × Nat
  | 0, _, entry, extents => (entry, extents)
  | n + 1, group, entry, extents =>
      let entry := entry + (leaf.index (group + 1)).top
      free2Loop leaf n (group + 1) entry (extents + (leaf.index entry).top)

/-- `dleaf_free2`. -/
def dleafFree2 (leaf : Dleaf) (blocksize : Nat) : Int :=
  let (entry, extents) := free2Loop leaf leaf.groups 0 leaf.groups 0
  (blocksize - 4 * entry) - (8 + 8 * extents)

/-- `dleaf_check`. -/
def dleafCheck (leaf : Dleaf) (blocksize : Nat) : Except TuxError Int :=
  if leaf.groups = 0 then return 0
  else do
    let (excount, encount) ← checkGroups leaf leaf.groups 0 leaf.groups 0 0 0 0
    if (leaf.used : Int) ≠ blocksize - 4 * (leaf.groups + encount) then return -1
    else if leaf.free ≠ 8 + 8 * excount then return -1
    else if (leaf.used : Int) - leaf.free ≠ dleafFree2 leaf blocksize then return -1
    else return 0

/-! ## What a leaf lists -/

/-- The extents of an entry: from the limit of the one before it up to its own. -/
def entryExtents (leaf : Dleaf) (group entry : IndexWord) (exbase prev : Nat) :
    List (Nat × LeafExtent) :=
  (List.range' (exbase + prev) (entry.top - prev)).map fun i =>
    (getIndex group entry, leaf.table i)

/-- The extents of the entries of a group, with their logical addresses. -/
def groupExtents (leaf : Dleaf) (group : IndexWord) (exbase : Nat) :
    Nat → Nat → Nat → List (Nat × LeafExtent)
  | 0, _, _ => []
  | n + 1, entry, prev =>
      let word := leaf.index (entry + 1)
      entryExtents leaf group word exbase prev ++
        groupExtents leaf group exbase n (entry + 1) word.top

/-- The extents of the groups. -/
def extentsFrom (leaf : Dleaf) : Nat → Nat → Nat → Nat → List (Nat × LeafExtent)
  | 0, _, _, _ => []
  | n + 1, group, entry, exbase =>
      let word := leaf.index (group + 1)
      groupExtents leaf word exbase word.top entry 0 ++
        extentsFrom leaf n (group + 1) (entry + word.top)
          (exbase + (leaf.index (entry + word.top)).top)

/-- The extents of a leaf, each with the logical address that it begins at. -/
def Dleaf.extents (leaf : Dleaf) : List (Nat × LeafExtent) :=
  extentsFrom leaf leaf.groups 0 leaf.groups 0

/-- The limits of the entries of a group count one extent for each. -/
def limitsCount (leaf : Dleaf) : Nat → Nat → Nat → Prop
  | 0, _, _ => True
  | n + 1, entry, limit =>
      (leaf.index (entry + 1)).top = limit + 1 ∧ limitsCount leaf n (entry + 1) (limit + 1)

/-- The groups have one extent for each entry. -/
def oneExtentFrom (leaf : Dleaf) : Nat → Nat → Nat → Prop
  | 0, _, _ => True
  | n + 1, group, entry =>
      limitsCount leaf (leaf.index (group + 1)).top entry 0 ∧
        oneExtentFrom leaf n (group + 1) (entry + (leaf.index (group + 1)).top)

/-- What `dwalk_check` asserts of each entry that it meets: it has only one extent. -/
def Dleaf.OneExtentPerEntry (leaf : Dleaf) : Prop :=
  oneExtentFrom leaf leaf.groups 0 leaf.groups

/-! ## Groups as lists -/

/-- A group of entries that have one extent each, with the low bits of their addresses. -/
structure LeafGroup where
  keyhi : Nat
  entries : List (Nat × LeafExtent)
  deriving DecidableEq, Repr

/-- The word of a group. -/
def LeafGroup.word (g : LeafGroup) : IndexWord := indexWord g.entries.length g.keyhi

/-- The words of entries that `limit` extents of their group come before. -/
def entryWords : Nat → List (Nat × LeafExtent) → List IndexWord
  | _, [] => []
  | limit, e :: entries => indexWord (limit + 1) e.1 :: entryWords (limit + 1) entries

@[simp] theorem length_entryWords (limit : Nat) (entries : List (Nat × LeafExtent)) :
    (entryWords limit entries).length = entries.length := by
  induction entries generalizing limit with
  | nil => rfl
  | cons e entries ih => rw [entryWords, List.length_cons, List.length_cons, ih]

theorem entryWords_append (limit : Nat) (front back : List (Nat × LeafExtent)) :
    entryWords limit (front ++ back) =
      entryWords limit front ++ entryWords (limit + front.length) back := by
  induction front generalizing limit with
  | nil => rfl
  | cons e front ih =>
      rw [List.cons_append, entryWords, entryWords, ih, List.cons_append, List.length_cons,
        Nat.add_right_comm, Nat.add_assoc]

theorem getElem_entryWords (limit : Nat) (entries : List (Nat × LeafExtent)) {k : Nat}
    (hk : k < (entryWords limit entries).length) :
    (entryWords limit entries)[k] =
      indexWord (limit + k + 1) (entries.get ⟨k, length_entryWords limit entries ▸ hk⟩).1 := by
  induction entries generalizing limit k with
  | nil => exact absurd hk (Nat.not_lt_zero k)
  | cons e entries ih =>
      cases k with
      | zero => rfl
      | succ k =>
          have hval := ih (limit + 1) (Nat.lt_of_succ_lt_succ hk)
          rw [show limit + (k + 1) = limit + 1 + k by omega]
          exact hval

/-- The words of the entries of some groups. -/
def indexWords (gs : List LeafGroup) : List IndexWord :=
  gs.flatMap fun g => entryWords 0 g.entries

/-- The extents of some groups, in order. -/
def tableOf (gs : List LeafGroup) : List LeafExtent :=
  gs.flatMap fun g => g.entries.map Prod.snd

/-- The extents of some groups with their logical addresses. -/
def logicalOf (gs : List LeafGroup) : List (Nat × LeafExtent) :=
  gs.flatMap fun g => g.entries.map fun e => (g.keyhi * 2 ^ 24 + e.1, e.2)

/-- The number of entries of some groups. -/
def entryCount (gs : List LeafGroup) : Nat := (gs.map fun g => g.entries.length).sum

section Lists

variable (g : LeafGroup) (gs gs' : List LeafGroup)

@[simp] theorem entryCount_nil : entryCount [] = 0 := rfl

@[simp] theorem entryCount_cons : entryCount (g :: gs) = g.entries.length + entryCount gs := by
  unfold entryCount
  rw [List.map_cons, List.sum_cons]

@[simp] theorem entryCount_append : entryCount (gs ++ gs') = entryCount gs + entryCount gs' := by
  unfold entryCount
  rw [List.map_append, List.sum_append]

theorem entryCount_concat : entryCount (gs ++ [g]) = entryCount gs + g.entries.length := by
  rw [entryCount_append, entryCount_cons, entryCount_nil, Nat.add_zero]

theorem indexWords_cons : indexWords (g :: gs) = entryWords 0 g.entries ++ indexWords gs := rfl

theorem indexWords_append : indexWords (gs ++ gs') = indexWords gs ++ indexWords gs' :=
  List.flatMap_append

theorem tableOf_cons : tableOf (g :: gs) = g.entries.map Prod.snd ++ tableOf gs := rfl

theorem tableOf_append : tableOf (gs ++ gs') = tableOf gs ++ tableOf gs' := List.flatMap_append

/-- The extents of a group with their logical addresses. -/
def LeafGroup.logical : List (Nat × LeafExtent) :=
  g.entries.map fun e => (g.keyhi * 2 ^ 24 + e.1, e.2)

theorem logicalOf_cons : logicalOf (g :: gs) = g.logical ++ logicalOf gs := rfl

theorem logicalOf_append : logicalOf (gs ++ gs') = logicalOf gs ++ logicalOf gs' :=
  List.flatMap_append

@[simp] theorem LeafGroup.length_logical : g.logical.length = g.entries.length :=
  List.length_map _

@[simp] theorem length_indexWords : (indexWords gs).length = entryCount gs := by
  induction gs with
  | nil => rfl
  | cons g gs ih =>
      rw [indexWords_cons, List.length_append, ih, length_entryWords, entryCount_cons]

@[simp] theorem length_tableOf : (tableOf gs).length = entryCount gs := by
  induction gs with
  | nil => rfl
  | cons g gs ih => rw [tableOf_cons, List.length_append, ih, List.length_map, entryCount_cons]

@[simp] theorem length_logicalOf : (logicalOf gs).length = entryCount gs := by
  induction gs with
  | nil => rfl
  | cons g gs ih =>
      rw [logicalOf_cons, List.length_append, ih, LeafGroup.length_logical, entryCount_cons]

end Lists

/-- The entries of a group, read from a leaf. -/
def readEntries (leaf : Dleaf) : Nat → Nat → Nat → List (Nat × LeafExtent)
  | 0, _, _ => []
  | n + 1, entry, exbase =>
      ((leaf.index (entry + 1)).key, leaf.table exbase) ::
        readEntries leaf n (entry + 1) (exbase + 1)

/-- The groups, read from a leaf. -/
def readGroups (leaf : Dleaf) : Nat → Nat → Nat → Nat → List LeafGroup
  | 0, _, _, _ => []
  | n + 1, group, entry, exbase =>
      let word := leaf.index (group + 1)
      ⟨word.key, readEntries leaf word.top entry exbase⟩ ::
        readGroups leaf n (group + 1) (entry + word.top) (exbase + word.top)

@[simp] theorem length_readEntries (leaf : Dleaf) (n entry exbase : Nat) :
    (readEntries leaf n entry exbase).length = n := by
  induction n generalizing entry exbase with
  | zero => rfl
  | succ n ih => rw [readEntries, List.length_cons, ih]

@[simp] theorem length_readGroups (leaf : Dleaf) (n group entry exbase : Nat) :
    (readGroups leaf n group entry exbase).length = n := by
  induction n generalizing group entry exbase with
  | zero => rfl
  | succ n ih => rw [readGroups, List.length_cons, ih]

/-! ## Groups as the check wants them -/

/-- The values of a group fit its words. -/
structure LeafGroup.Sized (g : LeafGroup) : Prop where
  keyhi_lt : g.keyhi < 2 ^ 24
  nonempty : g.entries ≠ []
  length_le : g.entries.length ≤ maxGroupEntries
  keylo_lt : ∀ e ∈ g.entries, e.1 < 2 ^ 24

/-- A group as the check wants it. -/
structure LeafGroup.Formed (g : LeafGroup) : Prop extends g.Sized where
  ascending : g.entries.Pairwise fun e e' => e.1 < e'.1
  block_ne : ∀ e ∈ g.entries, e.2.block ≠ 0

/-- Groups as the check wants them. -/
structure GroupsFormed (gs : List LeafGroup) : Prop where
  each : ∀ g ∈ gs, g.Formed
  keyhi_le : gs.Pairwise fun g g' => g.keyhi ≤ g'.keyhi

/-- The leaf has the groups in its index, and their extents in its table. -/
structure Dleaf.Lays (leaf : Dleaf) (gs : List LeafGroup) : Prop where
  groups : leaf.groups = gs.length
  words : Holds leaf.index 1 (gs.map LeafGroup.word)
  entries : Holds leaf.index (gs.length + 1) (indexWords gs)
  table : Holds leaf.table 0 (tableOf gs)

/-- The header says where the table and the index end. -/
structure Dleaf.Fields (leaf : Dleaf) (blocksize : Nat) (gs : List LeafGroup) : Prop where
  free : leaf.free = 8 + 8 * entryCount gs
  used : leaf.used + 4 * (gs.length + entryCount gs) = blocksize

theorem LeafGroup.Sized.word_top {g : LeafGroup} (h : g.Sized) :
    g.word.top = g.entries.length :=
  indexWord_top _ (Nat.lt_succ_of_le h.length_le)

theorem LeafGroup.Sized.word_key {g : LeafGroup} (h : g.Sized) : g.word.key = g.keyhi :=
  indexWord_key _ h.keyhi_lt

theorem LeafGroup.Sized.length_pos {g : LeafGroup} (h : g.Sized) : 0 < g.entries.length :=
  List.length_pos_of_ne_nil h.nonempty

theorem GroupsFormed.tail {g : LeafGroup} {gs : List LeafGroup} (h : GroupsFormed (g :: gs)) :
    GroupsFormed gs where
  each g' hg' := h.each g' (List.mem_cons_of_mem _ hg')
  keyhi_le := (List.pairwise_cons.1 h.keyhi_le).2

/-! ## What the check makes sure of -/

section Check

variable {leaf : Dleaf} {blocksize n group estop entry exbase limit keyhi excount encount : Nat}
  {keylo : Int} {entries : List (Nat × LeafExtent)} {g : LeafGroup} {gs : List LeafGroup}

/-- The words of the entries that were read. -/
theorem holds_readEntries (h : limitsCount leaf n entry limit) :
    Holds leaf.index (entry + 1) (entryWords limit (readEntries leaf n entry exbase)) := by
  induction n generalizing entry limit exbase with
  | zero => trivial
  | succ n ih =>
      obtain ⟨htop, hrest⟩ := h
      refine ⟨?_, ih hrest⟩
      rw [← htop]
      exact (indexWord_self _).symm

/-- The extents of the entries that were read. -/
theorem holds_readEntries_table :
    Holds leaf.table exbase ((readEntries leaf n entry exbase).map Prod.snd) := by
  induction n generalizing entry exbase with
  | zero => trivial
  | succ n ih => exact ⟨rfl, ih⟩

/-- The last limit of a group of one extent each. -/
theorem limitsCount_last (h : limitsCount leaf (n + 1) entry limit) :
    (leaf.index (entry + (n + 1))).top = limit + (n + 1) := by
  induction n generalizing entry limit with
  | zero => exact h.1
  | succ n ih =>
      have hlast := ih h.2
      rw [show entry + (n + 1 + 1) = entry + 1 + (n + 1) by omega, hlast]
      omega

/-- The entries pass the check in the order of their keys. -/
theorem checkEntries_keys (h : checkEntries leaf n entry limit keylo = .ok ()) :
    (∀ e ∈ readEntries leaf n entry exbase, keylo < e.1 ∧ e.1 < 2 ^ 24) ∧
      (readEntries leaf n entry exbase).Pairwise fun e e' => e.1 < e'.1 := by
  induction n generalizing entry limit keylo exbase with
  | zero => exact ⟨fun e he => absurd he List.not_mem_nil, List.Pairwise.nil⟩
  | succ n ih =>
      unfold checkEntries at h
      obtain ⟨_, hkey, h⟩ := bind_eq_ok.1 h
      obtain ⟨-, -, h⟩ := bind_eq_ok.1 h
      obtain ⟨hall, hpair⟩ := @ih (entry + 1) (exbase + 1) _ _ h
      have hlt := tuxAssert_eq_ok.1 hkey
      constructor
      · intro e he
        rcases List.mem_cons.1 he with rfl | hmem
        · exact ⟨hlt, (leaf.index (entry + 1)).key_lt⟩
        · exact ⟨hlt.trans (hall e hmem).1, (hall e hmem).2⟩
      · refine List.Pairwise.cons (fun e he => ?_) hpair
        exact Int.ofNat_lt.1 (hall e he).1

/-- The extents pass the check with their blocks. -/
theorem checkExtents_blocks (h : checkExtents leaf n exbase = .ok ()) :
    ∀ e ∈ readEntries leaf n entry exbase, e.2.block ≠ 0 := by
  induction n generalizing entry exbase with
  | zero => exact fun e he => absurd he List.not_mem_nil
  | succ n ih =>
      unfold checkExtents at h
      obtain ⟨_, hblock, h⟩ := bind_eq_ok.1 h
      intro e he
      rcases List.mem_cons.1 he with rfl | hmem
      · exact tuxAssert_eq_ok.1 hblock
      · exact ih h e hmem

/-- What the check of the groups makes sure of, and what it counts. -/
theorem checkGroups_read {r : Nat × Nat}
    (h : checkGroups leaf n group estop exbase keyhi excount encount = .ok r)
    (hone : oneExtentFrom leaf n group estop) :
    let gs := readGroups leaf n group estop exbase
    GroupsFormed gs ∧ (∀ g ∈ gs, keyhi ≤ g.keyhi) ∧
      Holds leaf.index (group + 1) (gs.map LeafGroup.word) ∧
      Holds leaf.index (estop + 1) (indexWords gs) ∧ Holds leaf.table exbase (tableOf gs) ∧
      r = (excount + entryCount gs, encount + entryCount gs) := by
  induction n generalizing group estop exbase keyhi excount encount with
  | zero =>
      obtain rfl : (excount, encount) = r := Except.ok.inj h
      exact ⟨⟨fun g hg => absurd hg List.not_mem_nil, List.Pairwise.nil⟩,
        fun g hg => absurd hg List.not_mem_nil, trivial, trivial, trivial, rfl⟩
  | succ n ih =>
      obtain ⟨hlimits, hrest⟩ := hone
      unfold checkGroups at h
      obtain ⟨_, hkeyhi, h⟩ := bind_eq_ok.1 h
      obtain ⟨_, hpos, h⟩ := bind_eq_ok.1 h
      obtain ⟨_, hmax, h⟩ := bind_eq_ok.1 h
      obtain ⟨⟨⟩, hentries, h⟩ := bind_eq_ok.1 h
      obtain ⟨⟨⟩, hextents, h⟩ := bind_eq_ok.1 h
      have hle := tuxAssert_eq_ok.1 hkeyhi
      have hcount := tuxAssert_eq_ok.1 hpos
      have hlast : (leaf.index (estop + (leaf.index (group + 1)).top)).top =
          (leaf.index (group + 1)).top := by
        obtain ⟨m, hm⟩ := Nat.exists_eq_succ_of_ne_zero (Nat.ne_of_gt hcount)
        rw [hm] at hlimits ⊢
        rw [limitsCount_last hlimits, Nat.zero_add]
      rw [hlast] at h hextents
      obtain ⟨hformed, hkeys, hwords, hindex, htable, hr⟩ := ih h hrest
      obtain ⟨hbounds, hasc⟩ := @checkEntries_keys leaf _ _ exbase _ _ hentries
      have hword : LeafGroup.word ⟨(leaf.index (group + 1)).key,
          readEntries leaf (leaf.index (group + 1)).top estop exbase⟩ =
          leaf.index (group + 1) := by
        unfold LeafGroup.word
        rw [length_readEntries]
        exact indexWord_self _
      have hg : LeafGroup.Formed ⟨(leaf.index (group + 1)).key,
          readEntries leaf (leaf.index (group + 1)).top estop exbase⟩ :=
        { keyhi_lt := (leaf.index (group + 1)).key_lt
          nonempty := List.ne_nil_of_length_pos (by rw [length_readEntries]; exact hcount)
          length_le := by rw [length_readEntries]; exact tuxAssert_eq_ok.1 hmax
          keylo_lt := fun e he => (hbounds e he).2
          ascending := hasc
          block_ne := checkExtents_blocks hextents }
      refine ⟨⟨?_, List.Pairwise.cons hkeys hformed.keyhi_le⟩, ?_, ⟨hword.symm, hwords⟩, ?_, ?_, ?_⟩
      · intro g hmem
        rcases List.mem_cons.1 hmem with rfl | hmem
        · exact hg
        · exact hformed.each g hmem
      · intro g hmem
        rcases List.mem_cons.1 hmem with rfl | hmem
        · exact hle
        · exact hle.trans (hkeys g hmem)
      · refine holds_append.2 ⟨holds_readEntries hlimits, ?_⟩
        rw [length_entryWords, length_readEntries, Nat.add_right_comm]
        exact hindex
      · refine holds_append.2 ⟨holds_readEntries_table, ?_⟩
        rw [List.length_map, length_readEntries]
        exact htable
      · rw [hr, readGroups, entryCount_cons, length_readEntries, Nat.add_assoc, Nat.add_assoc]

/-- A leaf that passes the check and has one extent for each entry lays some groups. -/
theorem dleafCheck_lays (h : dleafCheck leaf blocksize = .ok 0)
    (hone : leaf.OneExtentPerEntry) :
    ∃ gs, GroupsFormed gs ∧ leaf.Lays gs ∧ (gs ≠ [] → leaf.Fields blocksize gs) := by
  unfold dleafCheck at h
  refine ⟨readGroups leaf leaf.groups 0 leaf.groups 0, ?_⟩
  split at h
  · next hzero =>
      rw [hzero]
      exact ⟨⟨fun g hg => absurd hg List.not_mem_nil, List.Pairwise.nil⟩,
        ⟨hzero, trivial, trivial, trivial⟩, fun hne => absurd rfl hne⟩
  · obtain ⟨⟨excount, encount⟩, hgroups, h⟩ := bind_eq_ok.1 h
    obtain ⟨hformed, -, hwords, hindex, htable, hr⟩ := checkGroups_read hgroups hone
    obtain ⟨rfl, rfl⟩ := Prod.mk.inj hr
    dsimp only at h
    split_ifs at h with hused hfree hfree2
    · exact absurd (Except.ok.inj h) (by decide)
    · exact absurd (Except.ok.inj h) (by decide)
    · exact absurd (Except.ok.inj h) (by decide)
    · refine ⟨hformed, ⟨(length_readGroups _ _ _ _ _).symm, hwords, ?_, htable⟩, fun _ => ⟨?_, ?_⟩⟩
      · rw [length_readGroups]
        exact hindex
      · omega
      · rw [length_readGroups]
        omega

end Check

/-! ## What a leaf lists, from its groups -/

section Lists

variable {leaf : Dleaf} {group entry exbase limit : Nat} {entries : List (Nat × LeafExtent)}
  {word : IndexWord} {gs : List LeafGroup}

/-- The limits of the words of entries count them. -/
theorem limitsCount_entryWords (hwords : Holds leaf.index (entry + 1) (entryWords limit entries))
    (hlen : limit + entries.length ≤ maxGroupEntries) :
    limitsCount leaf entries.length entry limit := by
  induction entries generalizing entry limit with
  | nil => trivial
  | cons e entries ih =>
      obtain ⟨hword, hwords⟩ := hwords
      have hmax : maxGroupEntries = 255 := rfl
      rw [List.length_cons] at hlen
      refine ⟨?_, ih hwords (by omega)⟩
      rw [hword]
      exact indexWord_top _ (by omega)

/-- The entries of a group are listed. -/
theorem groupExtents_eq (hwords : Holds leaf.index (entry + 1) (entryWords limit entries))
    (htable : Holds leaf.table (exbase + limit) (entries.map Prod.snd))
    (hlen : limit + entries.length ≤ maxGroupEntries) (hkeys : ∀ e ∈ entries, e.1 < 2 ^ 24) :
    groupExtents leaf word exbase entries.length entry limit =
      entries.map (fun e => (word.key * 2 ^ 24 + e.1, e.2)) := by
  induction entries generalizing entry limit with
  | nil => rfl
  | cons e entries ih =>
      obtain ⟨hword, hwords⟩ := hwords
      obtain ⟨hext, htable⟩ := htable
      have hmax : maxGroupEntries = 255 := rfl
      rw [List.length_cons] at hlen
      have htop : (leaf.index (entry + 1)).top = limit + 1 := by
        rw [hword]
        exact indexWord_top _ (by omega)
      have hkey : (leaf.index (entry + 1)).key = e.1 := by
        rw [hword]
        exact indexWord_key _ (hkeys e List.mem_cons_self)
      have hlist := ih hwords htable (by omega)
        fun e' he' => hkeys e' (List.mem_cons_of_mem _ he')
      rw [List.length_cons, groupExtents, htop, hlist, entryExtents, htop,
        Nat.add_sub_cancel_left, List.range'_one, List.map_singleton, getIndex_eq, hkey, hext,
        List.map_cons, List.singleton_append]

/-- The last limit of a group is the number of its extents. -/
theorem LeafGroup.Sized.last_limit {g : LeafGroup} (h : g.Sized)
    (hcount : limitsCount leaf g.entries.length entry 0) :
    (leaf.index (entry + g.entries.length)).top = g.entries.length := by
  obtain ⟨m, hm⟩ := Nat.exists_eq_succ_of_ne_zero (Nat.ne_of_gt h.length_pos)
  rw [hm] at hcount ⊢
  rw [limitsCount_last hcount, Nat.zero_add]

/-- The groups are listed, and they have one extent for each entry. -/
theorem extentsFrom_eq (hsized : ∀ g ∈ gs, g.Sized)
    (hwords : Holds leaf.index (group + 1) (gs.map LeafGroup.word))
    (hentries : Holds leaf.index (entry + 1) (indexWords gs))
    (htable : Holds leaf.table exbase (tableOf gs)) :
    extentsFrom leaf gs.length group entry exbase = logicalOf gs ∧
      oneExtentFrom leaf gs.length group entry := by
  induction gs generalizing group entry exbase with
  | nil => exact ⟨rfl, trivial⟩
  | cons g gs ih =>
      have hg := hsized g List.mem_cons_self
      obtain ⟨hword, hwords⟩ := hwords
      obtain ⟨hfront, hback⟩ := holds_append.1 hentries
      obtain ⟨htfront, htback⟩ := holds_append.1 htable
      rw [length_entryWords, Nat.add_right_comm] at hback
      rw [List.length_map] at htback
      have hlen : 0 + g.entries.length ≤ maxGroupEntries := by
        rw [Nat.zero_add]
        exact hg.length_le
      have hlist := @groupExtents_eq leaf entry exbase 0 g.entries g.word hfront htfront hlen
        hg.keylo_lt
      have hcount := limitsCount_entryWords hfront hlen
      obtain ⟨hrest, hone⟩ := ih (fun g' hg' => hsized g' (List.mem_cons_of_mem _ hg')) hwords
        hback htback
      rw [List.length_cons, extentsFrom, oneExtentFrom, hword, hg.word_top,
        hg.last_limit hcount, hlist, hrest, hg.word_key]
      exact ⟨rfl, hcount, hone⟩

section Sized

variable (hsized : ∀ g ∈ gs, g.Sized) (hlays : leaf.Lays gs)

include hsized hlays

/-- The extents of a leaf are those of its groups. -/
theorem Dleaf.Lays.extents_sized : leaf.extents = logicalOf gs := by
  unfold Dleaf.extents
  rw [hlays.groups]
  exact (extentsFrom_eq hsized hlays.words hlays.entries hlays.table).1

theorem Dleaf.Lays.oneExtent_sized : leaf.OneExtentPerEntry := by
  unfold Dleaf.OneExtentPerEntry
  rw [hlays.groups]
  exact (extentsFrom_eq hsized hlays.words hlays.entries hlays.table).2

end Sized

theorem GroupsFormed.sized (h : GroupsFormed gs) : ∀ g ∈ gs, g.Sized :=
  fun g hg => (h.each g hg).toSized

theorem Dleaf.Lays.extents_eq (hformed : GroupsFormed gs) (hlays : leaf.Lays gs) :
    leaf.extents = logicalOf gs :=
  hlays.extents_sized hformed.sized

end Lists

/-! ## The check, from the groups -/

section Passes

variable {leaf : Dleaf} {blocksize group estop exbase keyhi limit excount encount : Nat}
  {keylo : Int} {entries : List (Nat × LeafExtent)} {gs : List LeafGroup}

theorem checkEntries_ok (hwords : Holds leaf.index (estop + 1) (entryWords limit entries))
    (hlen : limit + entries.length ≤ maxGroupEntries) (hkeys : ∀ e ∈ entries, e.1 < 2 ^ 24)
    (hasc : entries.Pairwise fun e e' => e.1 < e'.1) (hlow : ∀ e ∈ entries, keylo < e.1) :
    checkEntries leaf entries.length estop limit keylo = .ok () := by
  induction entries generalizing estop limit keylo with
  | nil => rfl
  | cons e entries ih =>
      obtain ⟨hword, hwords⟩ := hwords
      obtain ⟨hnext, hasc⟩ := List.pairwise_cons.1 hasc
      have hmax : maxGroupEntries = 255 := rfl
      rw [List.length_cons] at hlen
      have htop : (leaf.index (estop + 1)).top = limit + 1 := by
        rw [hword]
        exact indexWord_top _ (by omega)
      have hkey : (leaf.index (estop + 1)).key = e.1 := by
        rw [hword]
        exact indexWord_key _ (hkeys e List.mem_cons_self)
      rw [List.length_cons, checkEntries]
      rw [htop, hkey, bind_of_ok (tuxAssert_of (hlow e List.mem_cons_self)),
        bind_of_ok (tuxAssert_of (Nat.lt_succ_self limit))]
      exact ih hwords (by omega) (fun e' he' => hkeys e' (List.mem_cons_of_mem _ he')) hasc
        fun e' he' => Int.ofNat_lt.2 (hnext e' he')

theorem checkExtents_ok (htable : Holds leaf.table exbase (entries.map Prod.snd))
    (hblock : ∀ e ∈ entries, e.2.block ≠ 0) :
    checkExtents leaf entries.length exbase = .ok () := by
  induction entries generalizing exbase with
  | nil => rfl
  | cons e entries ih =>
      obtain ⟨hext, htable⟩ := htable
      rw [List.length_cons, checkExtents, hext,
        bind_of_ok (tuxAssert_of (hblock e List.mem_cons_self))]
      exact ih htable fun e' he' => hblock e' (List.mem_cons_of_mem _ he')

theorem checkGroups_ok (hformed : GroupsFormed gs)
    (hwords : Holds leaf.index (group + 1) (gs.map LeafGroup.word))
    (hentries : Holds leaf.index (estop + 1) (indexWords gs))
    (htable : Holds leaf.table exbase (tableOf gs)) (hkeyhi : ∀ g ∈ gs, keyhi ≤ g.keyhi) :
    checkGroups leaf gs.length group estop exbase keyhi excount encount =
      .ok (excount + entryCount gs, encount + entryCount gs) := by
  induction gs generalizing group estop exbase keyhi excount encount with
  | nil => rfl
  | cons g gs ih =>
      have hg := hformed.each g List.mem_cons_self
      obtain ⟨hword, hwords⟩ := hwords
      obtain ⟨hfront, hback⟩ := holds_append.1 hentries
      obtain ⟨htfront, htback⟩ := holds_append.1 htable
      rw [length_entryWords, Nat.add_right_comm] at hback
      rw [List.length_map] at htback
      have hlen : 0 + g.entries.length ≤ maxGroupEntries := by
        rw [Nat.zero_add]
        exact hg.length_le
      have hcount := limitsCount_entryWords hfront hlen
      rw [List.length_cons, checkGroups]
      dsimp only
      rw [hword, hg.word_key, hg.word_top, hg.last_limit hcount,
        bind_of_ok (tuxAssert_of (hkeyhi g List.mem_cons_self)),
        bind_of_ok (tuxAssert_of hg.length_pos), bind_of_ok (tuxAssert_of hg.length_le),
        bind_of_ok (checkEntries_ok hfront hlen hg.keylo_lt hg.ascending fun e _ => by omega),
        bind_of_ok (checkExtents_ok htfront hg.block_ne),
        ih hformed.tail hwords hback htback (List.pairwise_cons.1 hformed.keyhi_le).1,
        entryCount_cons, Nat.add_assoc, Nat.add_assoc]

theorem free2Loop_eq (hsized : ∀ g ∈ gs, g.Sized)
    (hwords : Holds leaf.index (group + 1) (gs.map LeafGroup.word))
    (hentries : Holds leaf.index (estop + 1) (indexWords gs)) :
    free2Loop leaf gs.length group estop exbase =
      (estop + entryCount gs, exbase + entryCount gs) := by
  induction gs generalizing group estop exbase with
  | nil => rfl
  | cons g gs ih =>
      have hg := hsized g List.mem_cons_self
      obtain ⟨hword, hwords⟩ := hwords
      obtain ⟨hfront, hback⟩ := holds_append.1 hentries
      rw [length_entryWords, Nat.add_right_comm] at hback
      have hcount := limitsCount_entryWords hfront
        (by rw [Nat.zero_add]; exact hg.length_le)
      rw [List.length_cons, free2Loop]
      rw [hword, hg.word_top, hg.last_limit hcount,
        ih (fun g' hg' => hsized g' (List.mem_cons_of_mem _ hg')) hwords hback, entryCount_cons, Nat.add_assoc, Nat.add_assoc]

/-- A leaf that lays formed groups passes the check. -/
theorem Dleaf.Lays.check (hlays : leaf.Lays gs) (hformed : GroupsFormed gs)
    (hfields : leaf.Fields blocksize gs) : dleafCheck leaf blocksize = .ok 0 := by
  have hgroups := hlays.groups
  have hused := hfields.used
  have hfree := hfields.free
  unfold dleafCheck dleafFree2
  split
  · rfl
  · rw [hgroups, bind_of_ok (checkGroups_ok hformed hlays.words hlays.entries hlays.table
      fun g _ => Nat.zero_le _), free2Loop_eq hformed.sized hlays.words
      hlays.entries]
    dsimp only
    rw [if_neg (by omega), if_neg (by omega), if_neg (by omega)]
    rfl

end Passes

end Tux3
