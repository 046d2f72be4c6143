/-
  Filemap/DleafEdit.lean --- a walk copies, chops and adds.

  A leaf is cut within a group: the entries that move on are numbered anew from the first extent
  of their new group, and the group word gets its new count.
-/
import Tux3.Filemap.DleafWalk

set_option autoImplicit false

namespace Tux3

open Outcome (bind_of_ok bind_of_error bind_eq_ok)
open Area (Holds holds_nil holds_cons holds_append)

/-! ## The code -/

/-- `cpu_to_be16`. -/
def cpuToBe16 (x : Int) : Nat := (x % 2 ^ 16).toNat

/-- `inc_group_count` and `inc_entry_limit`. -/
def IndexWord.inc (w : IndexWord) (n : Int) : IndexWord :=
  indexWord ((w.top + n) % 2 ^ 8).toNat w.key

/-- `set_group_count`. -/
def IndexWord.setCount (w : IndexWord) (n : Nat) : IndexWord := indexWord n w.key

/-- A loop of `inc_entry_limit` over the `n` entries that follow the pointer `edict`. -/
def incEntryLimits (index : Nat → IndexWord) (edict n : Nat) (adjust : Int) : Nat → IndexWord :=
  fun p => if edict < p ∧ p ≤ edict + n then (index p).inc adjust else index p

/-- `veccopy` and `vecmove` of `n` words of an index: the words from a pointer on are those at
its number and at the smaller ones. -/
def veccopy (dst : Nat → IndexWord) (into : Nat) (src : Nat → IndexWord) (source n : Nat) :
    Nat → IndexWord :=
  Area.copy dst (into + 1 - n) src (source + 1 - n) n

/-- `make_group`. -/
def makeGroup (keyhi count : Nat) : IndexWord :=
  indexWord ((keyhi ||| count <<< 24) % 2 ^ 32 / 2 ^ 24) (keyhi ||| count <<< 24)

/-- `make_entry`. -/
def makeEntry (keylo limit : Nat) : IndexWord :=
  indexWord ((keylo ||| limit <<< 24) % 2 ^ 32 / 2 ^ 24) (keylo ||| limit <<< 24)

/-- `assert(!dleaf_check(leaf, blocksize))`. -/
def assertChecked (leaf : Dleaf) (blocksize : Nat) : Except TuxError Unit := do
  let ret ← dleafCheck leaf blocksize
  tuxAssert (ret = 0)

/-- The pointer to the last entry: `(void *)leaf + be16_to_cpu(leaf->used)`. -/
def Dleaf.ebase (leaf : Dleaf) (blocksize : Nat) : Nat := (blocksize - leaf.used) / 4

/-- The end of the extents: `(void *)leaf + be16_to_cpu(leaf->free)`. -/
def Dleaf.exend (leaf : Dleaf) : Nat := (leaf.free - 8) / 8

/-- The limit of the entry before, in the same group. -/
def limitBefore (leaf : Dleaf) (walk : Dwalk) : Nat :=
  if firstOfGroup leaf walk then 0 else (leaf.index (walk.entry - 1)).top

/-- The words of the last `groups2` groups and of the last `entries` entries, put into another
index. -/
def copiedIndex (dst src : Nat → IndexWord) (gstop groups2 ebase entries : Nat) :
    Nat → IndexWord :=
  veccopy (veccopy dst groups2 src gstop groups2) (groups2 + entries) src ebase entries

/-- What `dwalk_copy` writes, from an extent that is not the first one. -/
def copiedLeaf (leaf : Dleaf) (walk : Dwalk) (dest : Dleaf) (blocksize : Nat) : Dleaf :=
  let groups2 := walk.gstop + 1 - walk.group
  let ebase := leaf.ebase blocksize
  let entries := ebase + 1 - walk.entry
  let limitAdjust := limitBefore leaf walk
  let entryExbase := walk.exbase + limitAdjust
  let extents := leaf.exend - entryExbase
  let index := copiedIndex dest.index leaf.index walk.gstop groups2 ebase entries
  let gcount2 := walk.estop + 1 - walk.entry
  let index := Function.update index 1 ((index 1).setCount gcount2)
  { dest with
    groups := cpuToBe16 groups2
    free := cpuToBe16 (8 + 8 * extents)
    used := cpuToBe16 (blocksize - 4 * (groups2 + entries))
    index := incEntryLimits index groups2 gcount2 (-limitAdjust)
    table := Area.copy dest.table 0 leaf.table entryExbase extents }

/-- `dwalk_copy`. -/
def dwalkCopy (leaf : Dleaf) (walk : Dwalk) (dest : Dleaf) (blocksize : Nat) :
    Except TuxError Dleaf := do
  tuxAssert (dest.groups = 0)
  if dwalkEnd walk then return dest
  else if dwalkFirst walk then return leaf
  else
    let dest := copiedLeaf leaf walk dest blocksize
    assertChecked dest blocksize
    return dest

/-- What `dwalk_chop` leaves, the walk being on the last extent that stays. -/
def choppedDleaf (leaf : Dleaf) (walk : Dwalk) (blocksize : Nat) : Dleaf × Dwalk :=
  let ebase := walk.estop - (leaf.index walk.group).top
  let index := Function.update leaf.index walk.group
    ((leaf.index walk.group).setCount (walk.entry - ebase))
  let entry := walk.entry - (walk.gstop - walk.group)
  let index := veccopy index entry index walk.entry (walk.entry - walk.gstop)
  let exstop := walk.exbase + (index entry).top
  ({ leaf with
      groups := cpuToBe16 (walk.group - walk.gdict : Nat)
      free := cpuToBe16 (8 + 8 * exstop)
      used := cpuToBe16 (blocksize - 4 * entry)
      index },
    { walk with
      estop := entry
      entry := entry
      gstop := walk.group
      exstop := exstop
      extent := exstop })

/-- `dwalk_chop`. -/
def dwalkChop (leaf : Dleaf) (walk : Dwalk) (blocksize : Nat) :
    Except TuxError (Dleaf × Dwalk) := do
  if dwalkEnd walk then return (leaf, walk)
  else if dwalkFirst walk then
    let leaf := { leaf with groups := 0, free := cpuToBe16 8, used := cpuToBe16 blocksize }
    let (walk, _) ← dwalkProbe leaf 0
    return (leaf, walk)
  else
    let (walk, _) ← dwalkBack leaf walk
    let (leaf, walk) := choppedDleaf leaf walk blocksize
    dwalkCheck leaf walk
    assertChecked leaf blocksize
    return (leaf, walk)

/-- `used - sizeof(struct entry)`, of the type `size_t`. -/
def lessEntry (used : Nat) : Nat := (used + (2 ^ 64 - 4)) % 2 ^ 64

/-- `dwalk_add` adds a group for the entry: the entries move by a word. -/
def addGroup (leaf : Dleaf) (walk : Dwalk) (keyhi used : Nat) :
    Except TuxError (Dleaf × Dwalk × Nat) := do
  tuxAssert (leaf.free ≤ lessEntry used)
  let index := veccopy leaf.index (walk.entry + 1) leaf.index walk.entry
    (walk.entry - walk.group)
  let walk :=
    { walk with
      entry := walk.entry + 1
      exbase := walk.exbase + if leaf.groups = 0 then 0 else (index (walk.entry + 1)).top
      group := walk.group + 1 }
  let leaf :=
    { leaf with
      groups := cpuToBe16 (leaf.groups + 1 : Nat)
      index := Function.update index walk.group (makeGroup keyhi 0) }
  return (leaf, walk, lessEntry used % 2 ^ 32)

/-- `dwalk_add` adds the entry to the last group, and its extent. -/
def addEntry (leaf : Dleaf) (walk : Dwalk) (used keylo : Nat) (extent : LeafExtent) :
    Except TuxError (Dleaf × Dwalk) := do
  tuxAssert (leaf.free ≤ lessEntry used)
  let used := lessEntry used % 2 ^ 32
  let entry := walk.entry + 1
  let index := Function.update leaf.index entry (makeEntry keylo (walk.extent - walk.exbase))
  let index := Function.update index walk.group ((index walk.group).inc 1)
  tuxAssert (leaf.free + 8 ≤ used)
  let leaf :=
    { leaf with
      free := cpuToBe16 (leaf.free + 8 : Nat)
      used := cpuToBe16 used
      index := Function.update index entry ((index entry).inc 1)
      table := Function.update leaf.table walk.extent extent }
  return (leaf, { walk with entry := entry, extent := walk.extent + 1 })

/-- `dwalk_add` needs a new group. -/
abbrev needsGroup (leaf : Dleaf) (walk : Dwalk) (keyhi : Nat) : Prop :=
  leaf.groups = 0 ∨ (leaf.index walk.group).key ≠ keyhi ∨
    maxGroupEntries ≤ (leaf.index walk.group).top

/-- `dwalk_add`.  The first assert makes the second test for a new entry true. -/
def dwalkAdd (leaf : Dleaf) (walk : Dwalk) (index : Nat) (extent : LeafExtent) (blocksize : Nat) :
    Except TuxError (Dleaf × Dwalk) := do
  tuxAssert (leaf.groups = 0 ∨ dwalkIndex leaf walk ≠ index)
  tuxAssert (0 < extent.block ∧ 0 < extent.count)
  let keylo := index % 2 ^ 24
  let keyhi := index / 2 ^ 24 % 2 ^ 32
  let (leaf, walk, used) ←
    if needsGroup leaf walk keyhi then addGroup leaf walk keyhi leaf.used
    else pure (leaf, walk, leaf.used)
  let (leaf, walk) ← addEntry leaf walk used keylo extent
  assertChecked leaf blocksize
  return (leaf, walk)

/-! ## Words that are numbered anew -/

section Words

variable {index : Nat → IndexWord} {a b edict off n : Nat} {adjust : Int}
  {entries : List (Nat × LeafExtent)} {l : List IndexWord}

theorem indexWord_inc (key : Nat) (h : (b : Int) + adjust = a) :
    (indexWord b key).inc adjust = indexWord a key := by
  unfold IndexWord.inc indexWord
  ext
  · dsimp only
    omega
  · exact Nat.mod_mod _ _

theorem IndexWord.setCount_indexWord (m key : Nat) :
    (indexWord m key).setCount n = indexWord n key := by
  unfold IndexWord.setCount indexWord
  ext
  · rfl
  · exact Nat.mod_mod _ _

/-- The limits of entries are counted from another extent on. -/
theorem holds_incEntryLimits (h : Holds index (edict + 1) (entryWords b entries))
    (hadjust : (b : Int) + adjust = a) (hlen : entries.length ≤ n) :
    Holds (incEntryLimits index edict n adjust) (edict + 1) (entryWords a entries) := by
  suffices hgen : ∀ (off a b : Nat), (b : Int) + adjust = a → edict ≤ off →
      off + entries.length ≤ edict + n → Holds index (off + 1) (entryWords b entries) →
      Holds (incEntryLimits index edict n adjust) (off + 1) (entryWords a entries) from
    hgen edict a b hadjust (Nat.le_refl _) (by omega) h
  clear h hadjust hlen
  induction entries with
  | nil => exact fun _ _ _ _ _ _ _ => trivial
  | cons e entries ih =>
      intro off a b hadjust hoff hlen h
      rw [List.length_cons] at hlen
      refine ⟨?_, ih (off + 1) (a + 1) (b + 1) (by omega) (by omega) (by omega) h.2⟩
      unfold incEntryLimits
      rw [if_pos (by omega), h.1]
      exact indexWord_inc e.1 (by omega)

/-- Words outside of the loop stay. -/
theorem holds_incEntryLimits_outside (h : Holds index off l)
    (hout : off + l.length ≤ edict + 1 ∨ edict + n < off) :
    Holds (incEntryLimits index edict n adjust) off l := by
  refine h.congr fun k hk => ?_
  unfold incEntryLimits
  rw [if_neg (by omega)]

end Words

/-! ## Cut groups -/

/-- The entries of a group in front of a number. -/
def LeafGroup.take (g : LeafGroup) (k : Nat) : LeafGroup := ⟨g.keyhi, g.entries.take k⟩

/-- The entries of a group from a number on. -/
def LeafGroup.drop (g : LeafGroup) (k : Nat) : LeafGroup := ⟨g.keyhi, g.entries.drop k⟩

section Cuts

variable {front back : List LeafGroup} {g : LeafGroup} {k : Nat}

theorem LeafGroup.logical_take : (g.take k).logical = g.logical.take k := List.map_take

theorem LeafGroup.logical_drop : (g.drop k).logical = g.logical.drop k := List.map_drop

theorem logicalOf_take (hk : k ≤ g.entries.length) :
    (logicalOf (front ++ g :: back)).take (entryCount front + k) =
      logicalOf (front ++ [g.take k]) := by
  rw [logicalOf_append, logicalOf_append, logicalOf_cons, logicalOf_cons, ← length_logicalOf,
    List.take_length_add_append, LeafGroup.logical_take,
    List.take_append_of_le_length (by rw [LeafGroup.length_logical]; exact hk)]
  exact congrArg _ (List.append_nil _).symm

theorem logicalOf_drop (hk : k ≤ g.entries.length) :
    (logicalOf (front ++ g :: back)).drop (entryCount front + k) =
      logicalOf (g.drop k :: back) := by
  rw [logicalOf_append, logicalOf_cons, logicalOf_cons, ← length_logicalOf,
    List.drop_length_add_append, LeafGroup.logical_drop,
    List.drop_append_of_le_length (by rw [LeafGroup.length_logical]; exact hk)]

theorem LeafGroup.Formed.take (h : g.Formed) (hpos : 0 < k) : (g.take k).Formed where
  keyhi_lt := h.keyhi_lt
  nonempty := by
    have hlen := h.length_pos
    refine List.ne_nil_of_length_pos ?_
    unfold LeafGroup.take
    rw [List.length_take]
    omega
  length_le := by
    have hle := h.length_le
    unfold LeafGroup.take
    rw [List.length_take]
    omega
  keylo_lt e he := h.keylo_lt e (List.mem_of_mem_take he)
  ascending := h.ascending.sublist (List.take_sublist k _)
  block_ne e he := h.block_ne e (List.mem_of_mem_take he)

theorem LeafGroup.Formed.drop (h : g.Formed) (hk : k < g.entries.length) : (g.drop k).Formed where
  keyhi_lt := h.keyhi_lt
  nonempty := by
    refine List.ne_nil_of_length_pos ?_
    unfold LeafGroup.drop
    rw [List.length_drop]
    omega
  length_le := by
    have hle := h.length_le
    unfold LeafGroup.drop
    rw [List.length_drop]
    omega
  keylo_lt e he := h.keylo_lt e (List.mem_of_mem_drop he)
  ascending := h.ascending.sublist (List.drop_sublist k _)
  block_ne e he := h.block_ne e (List.mem_of_mem_drop he)

theorem GroupsFormed.take (h : GroupsFormed (front ++ g :: back)) (hpos : 0 < k) :
    GroupsFormed (front ++ [g.take k]) := by
  have hkeys := List.pairwise_append.1 h.keyhi_le
  refine ⟨fun g' hg' => ?_, List.pairwise_append.2 ⟨hkeys.1, List.pairwise_singleton _ _, ?_⟩⟩
  · rcases List.mem_append.1 hg' with hin | hin
    · exact h.each g' (List.mem_append_left _ hin)
    · rw [List.mem_singleton.1 hin]
      exact (h.each g (List.mem_append_right _ List.mem_cons_self)).take hpos
  · intro g' hg' g'' hg''
    rw [List.mem_singleton.1 hg'']
    exact hkeys.2.2 g' hg' g List.mem_cons_self

theorem GroupsFormed.drop (h : GroupsFormed (front ++ g :: back)) (hk : k < g.entries.length) :
    GroupsFormed (g.drop k :: back) := by
  have hkeys := (List.pairwise_append.1 h.keyhi_le).2.1
  refine ⟨fun g' hg' => ?_, List.pairwise_cons.2 (List.pairwise_cons.1 hkeys)⟩
  rcases List.mem_cons.1 hg' with rfl | hin
  · exact (h.each g (List.mem_append_right _ List.mem_cons_self)).drop hk
  · exact h.each g' (List.mem_append_right _ (List.mem_cons_of_mem _ hin))

end Cuts

/-- A leaf that stores formed groups: the header is right, and the table does not reach into the
index.  Blocks of 64 KiB are too large for the fields of the header. -/
structure Dleaf.Stores (leaf : Dleaf) (blocksize : Nat) (gs : List LeafGroup) : Prop where
  formed : GroupsFormed gs
  lays : leaf.Lays gs
  fields : leaf.Fields blocksize gs
  fits : leaf.free ≤ leaf.used
  blocksize_lt : blocksize < 2 ^ 16

section Stored

variable {leaf : Dleaf} {blocksize k i : Nat} {gs front back : List LeafGroup} {g : LeafGroup}
  {walk : Dwalk}

theorem cpuToBe16_eq {x : Int} {n : Nat} (hx : x = n) (hn : n < 2 ^ 16) : cpuToBe16 x = n := by
  unfold cpuToBe16
  omega

theorem Dleaf.Stores.checked (h : leaf.Stores blocksize gs) :
    assertChecked leaf blocksize = .ok () := by
  unfold assertChecked
  rw [bind_of_ok (h.lays.check h.formed h.fields)]
  exact tuxAssert_of rfl

theorem Dleaf.Stores.ebase_eq (h : leaf.Stores blocksize gs) :
    leaf.ebase blocksize = gs.length + entryCount gs := by
  have hused := h.fields.used
  unfold Dleaf.ebase
  omega

theorem Dleaf.Stores.exend_eq (h : leaf.Stores blocksize gs) : leaf.exend = entryCount gs := by
  have hfree := h.fields.free
  unfold Dleaf.exend
  omega

theorem firstOfGroup_walkAt (h : leaf.Stores blocksize (front ++ g :: back))
    (groups : Nat) : firstOfGroup leaf (walkAt groups front g k) ↔ k = 0 := by
  have hword := h.lays.group_top h.formed
  dsimp only [firstOfGroup, walkAt]
  rw [hword]
  omega

/-- The limit of the entry before is the number of extents of the group in front. -/
theorem limitBefore_walkAt (h : leaf.Stores blocksize (front ++ g :: back))
    (hk : k < g.entries.length) :
    limitBefore leaf (walkAt (front ++ g :: back).length front g k) = k := by
  unfold limitBefore
  cases k with
  | zero => exact if_pos ((firstOfGroup_walkAt h _).2 rfl)
  | succ k =>
      refine (if_neg (mt (firstOfGroup_walkAt h _).1 (Nat.succ_ne_zero k))).trans ?_
      exact h.lays.entry_top h.formed (Nat.lt_of_succ_lt hk)

/-- The entries of a leaf from one of them on. -/
theorem Dleaf.Lays.entries_from (h : leaf.Lays (front ++ g :: back)) (hk : k ≤ g.entries.length) :
    Holds leaf.index ((front ++ g :: back).length + entryCount front + (k + 1))
      (entryWords k (g.entries.drop k) ++ indexWords back) := by
  have hentries := h.entries
  rw [indexWords_append, indexWords_cons, holds_append, length_indexWords] at hentries
  have hsplit : entryWords 0 g.entries =
      entryWords 0 (g.entries.take k) ++ entryWords k (g.entries.drop k) := by
    have happ := entryWords_append 0 (g.entries.take k) (g.entries.drop k)
    rw [List.take_append_drop, List.length_take, Nat.min_eq_left hk, Nat.zero_add] at happ
    exact happ
  rw [hsplit, List.append_assoc, holds_append, length_entryWords, List.length_take,
    Nat.min_eq_left hk] at hentries
  rw [show (front ++ g :: back).length + entryCount front + (k + 1) =
    (front ++ g :: back).length + 1 + entryCount front + k by omega]
  exact hentries.2.2

/-- The extents of a leaf from one of them on. -/
theorem Dleaf.Lays.table_from (h : leaf.Lays (front ++ g :: back)) (hk : k ≤ g.entries.length) :
    Holds leaf.table (entryCount front + k) (tableOf (g.drop k :: back)) := by
  have htable := h.table
  rw [tableOf_append, tableOf_cons, holds_append, length_tableOf, Nat.zero_add] at htable
  have hsplit : g.entries.map Prod.snd =
      (g.entries.take k).map Prod.snd ++ (g.entries.drop k).map Prod.snd := by
    rw [← List.map_append, List.take_append_drop]
  rw [hsplit, List.append_assoc, holds_append, List.length_map, List.length_take,
    Nat.min_eq_left hk] at htable
  exact htable.2.2

/-- The extents of a leaf up to one of them. -/
theorem Dleaf.Lays.table_upto (h : leaf.Lays (front ++ g :: back)) :
    Holds leaf.table 0 (tableOf (front ++ [g.take k])) := by
  have htable := h.table
  have hsplit : g.entries.map Prod.snd =
      (g.take k).entries.map Prod.snd ++ (g.entries.drop k).map Prod.snd := by
    rw [← List.map_append]
    exact congrArg _ (List.take_append_drop k g.entries).symm
  rw [tableOf_append, tableOf_cons, hsplit, List.append_assoc, ← List.append_assoc,
    holds_append] at htable
  rw [tableOf_append, tableOf_cons, show tableOf [] = [] from rfl, List.append_nil]
  exact htable.1

/-- The groups of a leaf from one of them on. -/
theorem Dleaf.Lays.words_from (h : leaf.Lays (front ++ g :: back)) :
    Holds leaf.index (front.length + 1) ((g :: back).map LeafGroup.word) := by
  have hwords := h.words
  rw [List.map_append, holds_append, List.length_map, Nat.add_comm] at hwords
  exact hwords.2

/-- The copied words: the groups from one on, and the entries from one on. -/
theorem copiedIndex_words (dst : Nat → IndexWord) {groups2 entries : Nat}
    (h : leaf.Lays (front ++ g :: back)) (hk : k ≤ g.entries.length)
    (hgroups : groups2 = back.length + 1)
    (hentries : entries = g.entries.length - k + entryCount back) :
    Holds (copiedIndex dst leaf.index (front ++ g :: back).length groups2
        ((front ++ g :: back).length + entryCount (front ++ g :: back)) entries) 1
        ((g :: back).map LeafGroup.word) ∧
      Holds (copiedIndex dst leaf.index (front ++ g :: back).length groups2
        ((front ++ g :: back).length + entryCount (front ++ g :: back)) entries) (groups2 + 1)
        (entryWords k (g.entries.drop k) ++ indexWords back) := by
  have hlen : (front ++ g :: back).length = front.length + groups2 := by
    rw [List.length_append, List.length_cons, hgroups]
  have hcount : entryCount (front ++ g :: back) =
      entryCount front + (g.entries.length + entryCount back) := by
    rw [entryCount_append, entryCount_cons]
  have hwords : Holds (veccopy dst groups2 leaf.index (front ++ g :: back).length groups2) 1
      ((g :: back).map LeafGroup.word) := by
    refine h.words_from.copied ?_ ?_ ?_
    · omega
    · rw [List.length_map, List.length_cons]
      omega
    · omega
  constructor
  · refine hwords.copy_outside (Or.inl ?_)
    rw [List.length_map, List.length_cons]
    omega
  · refine (h.entries_from hk).copied ?_ ?_ ?_
    · omega
    · have hmoved : (entryWords k (g.entries.drop k) ++ indexWords back).length = entries := by
        rw [List.length_append, length_entryWords, length_indexWords, List.length_drop, hentries]
      omega
    · omega

/-- The words of a leaf that begins within a group: the count of the group is set, and its entries
are numbered anew. -/
theorem cut_words {index : Nat → IndexWord} {groups2 : Nat} (hgroups : groups2 = back.length + 1)
    (hwords : Holds index 1 ((g :: back).map LeafGroup.word))
    (hentries : Holds index (groups2 + 1) (entryWords k (g.entries.drop k) ++ indexWords back)) :
    let cut := incEntryLimits (Function.update index 1
      ((index 1).setCount (g.entries.length - k))) groups2 (g.entries.length - k) (-(k : Nat))
    Holds cut 1 ((g.drop k :: back).map LeafGroup.word) ∧
      Holds cut (groups2 + 1) (indexWords (g.drop k :: back)) := by
  intro cut
  have hdrop : (g.drop k).entries.length = g.entries.length - k := List.length_drop
  have hwords' : Holds (Function.update index 1 ((index 1).setCount (g.entries.length - k))) 1
      ((g.drop k :: back).map LeafGroup.word) := by
    refine ⟨?_, hwords.2.update_outside (Or.inl (Nat.lt_succ_self 1))⟩
    have hhead : index 1 = indexWord g.entries.length g.keyhi := hwords.1
    refine (Function.update_self _ _ _).trans ?_
    rw [hhead, IndexWord.setCount_indexWord]
    unfold LeafGroup.word
    rw [hdrop]
    rfl
  have hentries' : Holds (Function.update index 1 ((index 1).setCount (g.entries.length - k)))
      (groups2 + 1) (entryWords k (g.entries.drop k) ++ indexWords back) :=
    hentries.update_outside (Or.inl (by omega))
  obtain ⟨hfirst, hrest⟩ := holds_append.1 hentries'
  rw [length_entryWords, List.length_drop] at hrest
  constructor
  · refine holds_incEntryLimits_outside hwords' (Or.inl ?_)
    rw [List.length_map, List.length_cons]
    omega
  · rw [indexWords_cons, holds_append, length_entryWords, hdrop]
    refine ⟨holds_incEntryLimits hfirst (by omega) ?_,
      holds_incEntryLimits_outside hrest (Or.inr (by omega))⟩
    exact Nat.le_of_eq hdrop

/-- What `dwalk_copy` writes stores the groups from the extent on. -/
theorem copiedLeaf_stores (dest : Dleaf) (h : leaf.Stores blocksize (front ++ g :: back))
    (hk : k < g.entries.length) :
    (copiedLeaf leaf (walkAt (front ++ g :: back).length front g k) dest blocksize).Stores
      blocksize (g.drop k :: back) := by
  have hused := h.fields.used
  have hfree := h.fields.free
  have hfits := h.fits
  have hlt := h.blocksize_lt
  have hlen : (front ++ g :: back).length = front.length + (back.length + 1) := by
    rw [List.length_append, List.length_cons]
  have hcount : entryCount (front ++ g :: back) =
      entryCount front + (g.entries.length + entryCount back) := by
    rw [entryCount_append, entryCount_cons]
  have hdrop : entryCount (g.drop k :: back) = g.entries.length - k + entryCount back := by
    rw [entryCount_cons]
    exact congrArg (· + _) List.length_drop
  have hgroups2 : (walkAt (front ++ g :: back).length front g k).gstop + 1 -
      (walkAt (front ++ g :: back).length front g k).group = back.length + 1 := by
    dsimp only [walkAt]
    omega
  have hentries : leaf.ebase blocksize + 1 -
      (walkAt (front ++ g :: back).length front g k).entry =
      g.entries.length - k + entryCount back := by
    rw [h.ebase_eq]
    dsimp only [walkAt]
    omega
  have hextents : leaf.exend -
      ((walkAt (front ++ g :: back).length front g k).exbase + k) =
      g.entries.length - k + entryCount back := by
    rw [h.exend_eq]
    dsimp only [walkAt]
    omega
  have hgcount2 : (walkAt (front ++ g :: back).length front g k).estop + 1 -
      (walkAt (front ++ g :: back).length front g k).entry = g.entries.length - k := by
    dsimp only [walkAt]
    omega
  obtain ⟨hcopied, hcopiedEntries⟩ :=
    copiedIndex_words dest.index h.lays (Nat.le_of_lt hk) rfl rfl
  obtain ⟨hwords, hindex⟩ := cut_words rfl hcopied hcopiedEntries
  unfold copiedLeaf
  dsimp only
  rw [limitBefore_walkAt h hk, hgroups2, hentries, hextents, hgcount2, h.ebase_eq]
  have hgroups16 : cpuToBe16 ((back.length + 1 : Nat) : Int) = back.length + 1 :=
    cpuToBe16_eq rfl (by omega)
  have hfree16 : cpuToBe16 (8 + 8 * ((g.entries.length - k + entryCount back : Nat) : Int)) =
      8 + 8 * (g.entries.length - k + entryCount back) :=
    cpuToBe16_eq (by omega) (by omega)
  have hused16 : cpuToBe16 (blocksize - 4 * (((back.length + 1 : Nat) : Int) +
      ((g.entries.length - k + entryCount back : Nat) : Int))) =
      blocksize - 4 * (back.length + 1 + (g.entries.length - k + entryCount back)) :=
    cpuToBe16_eq (by omega) (by omega)
  refine ⟨h.formed.drop hk, ⟨hgroups16, hwords, hindex, ?_⟩, ⟨?_, ?_⟩, ?_, hlt⟩
  · refine (h.lays.table_from (Nat.le_of_lt hk)).copied (Nat.le_refl _) ?_ ?_
    · rw [length_tableOf, hdrop]
      exact Nat.le_refl _
    · dsimp only [walkAt]
      omega
  · rw [hdrop]
    exact hfree16
  · rw [hdrop, List.length_cons]
    dsimp only
    rw [hused16]
    omega
  · dsimp only
    rw [hused16, hfree16]
    omega

/-- `dwalk_copy` yields a leaf with the extents from the position on. -/
theorem dwalkCopy_spec {dest : Dleaf} (h : leaf.Stores blocksize gs)
    (hdest : dest.Stores blocksize []) (hpos : WalkPos gs walk i) :
    ∃ dest' gs', dwalkCopy leaf walk dest blocksize = .ok dest' ∧ dest'.Stores blocksize gs' ∧
      logicalOf gs' = (logicalOf gs).drop i := by
  have hgroups : dest.groups = 0 := hdest.lays.groups
  have hend := hpos.end_iff
  have hextent := hpos.extent_eq
  unfold dwalkCopy
  rw [bind_of_ok (tuxAssert_of hgroups)]
  split
  · next hatEnd =>
      refine ⟨dest, [], rfl, hdest, ?_⟩
      rw [hend.1 hatEnd, ← length_logicalOf, List.drop_length]
      rfl
  · next hatEnd =>
      split
      · next hfirst =>
          refine ⟨leaf, gs, rfl, h, ?_⟩
          rw [← hextent, hfirst, List.drop_zero]
      · next hfirst =>
          cases hpos with
          | inside front g back k heq hk =>
              subst heq
              have hstores := copiedLeaf_stores dest h hk
              refine ⟨_, _, (bind_of_ok hstores.checked).trans rfl, hstores, ?_⟩
              exact (logicalOf_drop (Nat.le_of_lt hk)).symm
          | atEnd front g heq => exact absurd rfl hatEnd
          | empty heq => exact absurd rfl hatEnd

/-- `dwalk_back` comes to the extent before. -/
theorem WalkPos.before (hpos : WalkPos gs walk i) (hformed : GroupsFormed gs)
    (hlays : leaf.Lays gs) (hi : i ≠ 0) :
    ∃ front g back k, gs = front ++ g :: back ∧ k < g.entries.length ∧
      i = entryCount front + (k + 1) ∧
      dwalkBack leaf walk = .ok (walkAt gs.length front g k, 1) := by
  cases hpos with
  | inside front g back k heq hk =>
      subst heq
      cases k with
      | succ k =>
          exact ⟨front, g, back, k, rfl, Nat.lt_of_succ_lt hk, rfl,
            dwalkBack_entry hformed hlays hk⟩
      | zero =>
          cases hlast : front.getLast? with
          | none =>
              rw [List.getLast?_eq_none_iff.1 hlast] at hi
              exact absurd rfl hi
          | some g0 =>
              obtain ⟨front0, rfl⟩ := List.getLast?_eq_some_iff.1 hlast
              have heq : (front0 ++ [g0]) ++ g :: back = front0 ++ g0 :: g :: back :=
                (List.append_cons _ _ _).symm
              rw [heq] at hformed hlays ⊢
              have hpos0 := (hformed.each g0
                (List.mem_append_right _ List.mem_cons_self)).length_pos
              have hk0 : g0.entries.length - 1 + 1 = g0.entries.length := by omega
              refine ⟨front0, g0, g :: back, g0.entries.length - 1, rfl, by omega, ?_,
                dwalkBack_group hformed hlays hk0 rfl⟩
              rw [entryCount_concat]
              omega
  | atEnd front g heq =>
      subst heq
      have hpos0 := (hformed.each g (List.mem_append_right _ List.mem_cons_self)).length_pos
      have hk0 : g.entries.length - 1 + 1 = g.entries.length := by omega
      refine ⟨front, g, [], g.entries.length - 1, rfl, by omega, ?_,
        dwalkBack_walkEnd hformed hlays hk0⟩
      rw [entryCount_concat]
      omega
  | empty heq => exact absurd rfl hi

/-- The words that `dwalk_chop` leaves: the groups up to one, and the entries up to one. -/
theorem chopped_words (h : leaf.Lays (front ++ g :: back)) (hk : k < g.entries.length) :
    let chopped := Function.update leaf.index (front.length + 1)
      ((leaf.index (front.length + 1)).setCount (k + 1))
    let chopped := veccopy chopped (front.length + 1 + (entryCount front + (k + 1))) chopped
      ((front ++ g :: back).length + entryCount front + (k + 1)) (entryCount front + (k + 1))
    Holds chopped 1 ((front ++ [g.take (k + 1)]).map LeafGroup.word) ∧
      Holds chopped (front.length + 1 + 1) (indexWords (front ++ [g.take (k + 1)])) := by
  intro chopped1 chopped2
  have hlen : (front ++ g :: back).length = front.length + (back.length + 1) := by
    rw [List.length_append, List.length_cons]
  have htake : (g.take (k + 1)).entries.length = k + 1 := by
    unfold LeafGroup.take
    rw [List.length_take]
    omega
  have hwords := h.words
  rw [List.map_append, holds_append, List.length_map, Nat.add_comm] at hwords
  have hwords1 : Holds chopped1 1 ((front ++ [g.take (k + 1)]).map LeafGroup.word) := by
    rw [List.map_append, holds_append, List.length_map, Nat.add_comm]
    refine ⟨hwords.1.update_outside (Or.inr ?_), ?_, trivial⟩
    · rw [List.length_map]
      omega
    · have hhead : leaf.index (front.length + 1) = indexWord g.entries.length g.keyhi := hwords.2.1
      refine (Function.update_self _ _ _).trans ?_
      rw [hhead, IndexWord.setCount_indexWord]
      unfold LeafGroup.word
      rw [htake]
      rfl
  have hentries := h.entries
  have hsplit : entryWords 0 g.entries =
      entryWords 0 (g.take (k + 1)).entries ++ entryWords (k + 1) (g.entries.drop (k + 1)) := by
    have happ := entryWords_append 0 (g.entries.take (k + 1)) (g.entries.drop (k + 1))
    rw [List.take_append_drop, List.length_take, Nat.min_eq_left hk, Nat.zero_add] at happ
    exact happ
  rw [indexWords_append, indexWords_cons, hsplit, List.append_assoc, ← List.append_assoc,
    holds_append] at hentries
  have hkept : indexWords (front ++ [g.take (k + 1)]) =
      indexWords front ++ entryWords 0 (g.take (k + 1)).entries := by
    rw [indexWords_append, indexWords_cons]
    exact congrArg _ (List.append_nil _)
  have hkeptLen : (indexWords (front ++ [g.take (k + 1)])).length =
      entryCount front + (k + 1) := by
    rw [length_indexWords, entryCount_concat, htake]
  have hentries1 : Holds chopped1 ((front ++ g :: back).length + 1)
      (indexWords (front ++ [g.take (k + 1)])) := by
    rw [hkept]
    exact hentries.1.update_outside (Or.inl (by omega))
  constructor
  · refine hwords1.copy_outside (Or.inl ?_)
    rw [List.length_map, List.length_append, List.length_singleton]
    omega
  · refine hentries1.copied ?_ ?_ ?_
    · omega
    · rw [hkeptLen]
      omega
    · omega

/-- What `dwalk_chop` leaves stores the groups up to the extent, and the walk is at their end. -/
theorem choppedDleaf_stores (h : leaf.Stores blocksize (front ++ g :: back))
    (hk : k < g.entries.length) :
    ∃ leaf', choppedDleaf leaf (walkAt (front ++ g :: back).length front g k) blocksize =
        (leaf', walkEnd (front ++ [g.take (k + 1)]).length front (g.take (k + 1))) ∧
      leaf'.Stores blocksize (front ++ [g.take (k + 1)]) := by
  have hused := h.fields.used
  have hfree := h.fields.free
  have hfits := h.fits
  have hlt := h.blocksize_lt
  have hword := h.lays.group_top h.formed
  have hformed := h.formed.take (Nat.succ_pos k)
  have hlen : (front ++ g :: back).length = front.length + (back.length + 1) := by
    rw [List.length_append, List.length_cons]
  have hcount : entryCount (front ++ g :: back) =
      entryCount front + (g.entries.length + entryCount back) := by
    rw [entryCount_append, entryCount_cons]
  have htake : (g.take (k + 1)).entries.length = k + 1 := by
    unfold LeafGroup.take
    rw [List.length_take]
    omega
  have hcount' : entryCount (front ++ [g.take (k + 1)]) = entryCount front + (k + 1) := by
    rw [entryCount_concat, htake]
  have hlen' : (front ++ [g.take (k + 1)]).length = front.length + 1 := by
    rw [List.length_append, List.length_singleton]
  obtain ⟨hwords, hindex⟩ := chopped_words h.lays hk
  have hgcount : (walkAt (front ++ g :: back).length front g k).entry -
      ((walkAt (front ++ g :: back).length front g k).estop -
        (leaf.index (walkAt (front ++ g :: back).length front g k).group).top) = k + 1 := by
    dsimp only [walkAt]
    rw [hword]
    omega
  have hentry : (walkAt (front ++ g :: back).length front g k).entry -
      ((walkAt (front ++ g :: back).length front g k).gstop -
        (walkAt (front ++ g :: back).length front g k).group) =
      front.length + 1 + (entryCount front + (k + 1)) := by
    dsimp only [walkAt]
    omega
  have hsize : (walkAt (front ++ g :: back).length front g k).entry -
      (walkAt (front ++ g :: back).length front g k).gstop = entryCount front + (k + 1) := by
    dsimp only [walkAt]
    omega
  unfold choppedDleaf
  dsimp only
  rw [hgcount, hentry, hsize]
  have hlays : Dleaf.Lays
      { leaf with
        groups := cpuToBe16 ((front.length + 1 : Nat) : Int)
        index := veccopy (Function.update leaf.index (front.length + 1)
          ((leaf.index (front.length + 1)).setCount (k + 1)))
          (front.length + 1 + (entryCount front + (k + 1)))
          (Function.update leaf.index (front.length + 1)
            ((leaf.index (front.length + 1)).setCount (k + 1)))
          ((front ++ g :: back).length + entryCount front + (k + 1))
          (entryCount front + (k + 1)) } (front ++ [g.take (k + 1)]) := by
    refine ⟨?_, hwords, ?_, ?_⟩
    · rw [hlen']
      exact cpuToBe16_eq rfl (by omega)
    · rw [hlen']
      exact hindex
    · exact h.lays.table_upto
  have htop := hlays.stop_top hformed
  rw [hlen', htake, Nat.add_assoc (front.length + 1)] at htop
  have hfree16 : cpuToBe16 (8 + 8 * ((entryCount front + (k + 1) : Nat) : Int)) =
      8 + 8 * (entryCount front + (k + 1)) := cpuToBe16_eq (by omega) (by omega)
  have hused16 : cpuToBe16 (blocksize -
      4 * ((front.length + 1 + (entryCount front + (k + 1)) : Nat) : Int)) =
      blocksize - 4 * (front.length + 1 + (entryCount front + (k + 1))) :=
    cpuToBe16_eq (by omega) (by omega)
  dsimp only [walkAt, walkEnd] at htop ⊢
  rw [htop, Nat.sub_zero, hlen', htake, Nat.add_assoc (front.length + 1)]
  refine ⟨_, rfl, hformed, ⟨hlays.groups, hlays.words, hlays.entries, hlays.table⟩,
    ⟨?_, ?_⟩, ?_, hlt⟩
  · rw [hcount']
    exact hfree16
  · rw [hcount', hlen']
    dsimp only
    rw [hused16]
    omega
  · dsimp only
    rw [hfree16, hused16]
    omega

/-- `dwalk_chop` leaves the extents in front of the position, and the walk at their end. -/
theorem dwalkChop_spec (h : leaf.Stores blocksize gs) (hpos : WalkPos gs walk i) :
    ∃ leaf' walk' gs', dwalkChop leaf walk blocksize = .ok (leaf', walk') ∧
      leaf'.Stores blocksize gs' ∧ logicalOf gs' = (logicalOf gs).take i ∧
      WalkPos gs' walk' (entryCount gs') := by
  have hend := hpos.end_iff
  have hextent := hpos.extent_eq
  have hlt := h.blocksize_lt
  have hused := h.fields.used
  have hfree := h.fields.free
  have hfits := h.fits
  unfold dwalkChop
  split
  · next hatEnd =>
      have hi := hend.1 hatEnd
      refine ⟨leaf, walk, gs, rfl, h, ?_, hi ▸ hpos⟩
      rw [hi, ← length_logicalOf, List.take_length]
  · next hatEnd =>
      split
      · next hfirst =>
          have h8 : cpuToBe16 8 = 8 := rfl
          have hsize : cpuToBe16 (blocksize : Nat) = blocksize := cpuToBe16_eq rfl hlt
          refine ⟨_, dwalkStart 0, [], rfl, ⟨⟨?_, List.Pairwise.nil⟩,
            ⟨rfl, trivial, trivial, trivial⟩, ⟨h8, hsize⟩, ?_, hlt⟩, ?_, .empty rfl⟩
          · exact fun g hg => absurd hg List.not_mem_nil
          · dsimp only
            rw [h8, hsize]
            omega
          · rw [← hextent, hfirst, List.take_zero]
            rfl
      · next hfirst =>
          obtain ⟨front, g, back, k, rfl, hk, rfl, hback⟩ :=
            hpos.before h.formed h.lays fun hzero => hfirst (hextent.trans hzero)
          obtain ⟨leaf', hchop, hstores⟩ := choppedDleaf_stores h hk
          rw [bind_of_ok hback]
          dsimp only
          rw [hchop]
          dsimp only
          rw [bind_of_ok (dwalkCheck_walkEnd hstores.formed hstores.lays rfl),
            bind_of_ok hstores.checked]
          exact ⟨leaf', _, _, rfl, hstores, (logicalOf_take hk).symm, .atEnd front _ rfl⟩

end Stored

/-! ## Adding at the end -/

/-- The walk is where `dwalk_add` adds: behind the last entry and the last extent. -/
structure AddPos (gs : List LeafGroup) (walk : Dwalk) : Prop where
  group : walk.group = gs.length
  entry : walk.entry = gs.length + entryCount gs
  exbase : walk.exbase = entryCount gs.dropLast
  extent : walk.extent = entryCount gs

/-- A group without entries. -/
def emptyGroup (keyhi : Nat) : LeafGroup := ⟨keyhi, []⟩

/-- The group with one more entry. -/
def LeafGroup.add (g : LeafGroup) (keylo : Nat) (extent : LeafExtent) : LeafGroup :=
  ⟨g.keyhi, g.entries ++ [(keylo, extent)]⟩

section Adding

variable {leaf : Dleaf} {blocksize used keyhi keylo limit : Nat} {gs front : List LeafGroup}
  {g : LeafGroup} {walk : Dwalk} {extent : LeafExtent}

theorem WalkPos.addPos {i : Nat} (h : WalkPos gs walk i) (hi : i = entryCount gs) :
    AddPos gs walk := by
  have hend := h.end_iff.2 hi
  cases h with
  | inside front g back k heq hk => exact absurd hend (Nat.ne_of_lt (Nat.lt_succ_self _))
  | atEnd front g heq =>
      subst heq
      refine ⟨?_, ?_, ?_, ?_⟩
      · rw [List.length_append, List.length_singleton]
        rfl
      · rw [entryCount_concat, ← Nat.add_assoc]
        rfl
      · rw [List.dropLast_concat]
        rfl
      · rw [entryCount_concat]
        rfl
  | empty heq =>
      subst heq
      exact ⟨rfl, rfl, rfl, rfl⟩

theorem makeGroup_zero (h : keyhi < 2 ^ 24) : makeGroup keyhi 0 = indexWord 0 keyhi := by
  have hor : keyhi ||| 0 <<< 24 = keyhi := by
    rw [Nat.zero_shiftLeft, Nat.or_zero]
  unfold makeGroup
  rw [hor]
  congr 1
  omega

theorem makeEntry_eq (hkeylo : keylo < 2 ^ 24) :
    makeEntry keylo limit = indexWord limit keylo := by
  have hor : keylo ||| limit <<< 24 = limit * 2 ^ 24 + keylo := by
    rw [Nat.or_comm, ← Nat.shiftLeft_add_eq_or_of_lt hkeylo, Nat.shiftLeft_eq]
  unfold makeEntry indexWord
  rw [hor]
  ext
  · dsimp only
    omega
  · dsimp only
    omega

theorem lessEntry_eq (h : 4 ≤ used) (hlt : used < 2 ^ 16) : lessEntry used = used - 4 := by
  unfold lessEntry
  omega

/-- The words of the entries end with the number of extents of the last group. -/
theorem last_limit {index : Nat → IndexWord} {off : Nat} (hg : g.Formed)
    (hindex : Holds index off (indexWords (front ++ [g]))) :
    (index (off + entryCount (front ++ [g]) - 1)).top = g.entries.length := by
  have hpos := hg.length_pos
  have hle := hg.length_le
  have hmax : maxGroupEntries = 255 := rfl
  have hlt : g.entries.length - 1 < (entryWords 0 g.entries).length := by
    rw [length_entryWords]
    omega
  rw [indexWords_append, holds_append, length_indexWords] at hindex
  have hwords : Holds index (off + entryCount front) (entryWords 0 g.entries) :=
    (holds_append.1 hindex.2).1
  have hval := hwords.eq_getElem hlt
  rw [getElem_entryWords] at hval
  rw [entryCount_concat, show off + (entryCount front + g.entries.length) - 1 =
    off + entryCount front + (g.entries.length - 1) by omega, hval, indexWord_top _ (by omega)]
  omega

/-- A new group without entries. -/
theorem addGroup_spec (hlays : leaf.Lays gs) (hformed : GroupsFormed gs) (hpos : AddPos gs walk)
    (hkeyhi : keyhi < 2 ^ 24) (hgs : gs.length + 1 < 2 ^ 16) (hused : used < 2 ^ 16)
    (hroom : leaf.free + 4 ≤ used) :
    ∃ leaf' walk', addGroup leaf walk keyhi used = .ok (leaf', walk', used - 4) ∧
      leaf'.Lays (gs ++ [emptyGroup keyhi]) ∧ AddPos (gs ++ [emptyGroup keyhi]) walk' ∧
      leaf'.free = leaf.free := by
  have hcount : entryCount (gs ++ [emptyGroup keyhi]) = entryCount gs := entryCount_concat _ _
  have hlen : (gs ++ [emptyGroup keyhi]).length = gs.length + 1 := by
    rw [List.length_append, List.length_singleton]
  have hless := lessEntry_eq (by omega) hused
  have hgroup := hpos.group
  have hentry := hpos.entry
  have hindex : Holds (veccopy leaf.index (walk.entry + 1) leaf.index walk.entry
      (walk.entry - walk.group)) (gs.length + 1 + 1) (indexWords gs) := by
    refine hlays.entries.copied ?_ ?_ ?_
    · omega
    · rw [length_indexWords]
      omega
    · omega
  have hwords : Holds (veccopy leaf.index (walk.entry + 1) leaf.index walk.entry
      (walk.entry - walk.group)) 1 (gs.map LeafGroup.word) := by
    refine hlays.words.copy_outside (Or.inl ?_)
    rw [List.length_map]
    omega
  have hlimit : walk.exbase + (if leaf.groups = 0 then 0
      else (veccopy leaf.index (walk.entry + 1) leaf.index walk.entry
        (walk.entry - walk.group) (walk.entry + 1)).top) = entryCount gs := by
    rw [hpos.exbase, hlays.groups]
    cases hlast : gs.getLast? with
    | none =>
        rw [List.getLast?_eq_none_iff.1 hlast]
        rfl
    | some g =>
        obtain ⟨front, rfl⟩ := List.getLast?_eq_some_iff.1 hlast
        have hg := hformed.each g (List.mem_append_right _ (List.mem_singleton_self g))
        have hne : (front ++ [g]).length ≠ 0 := by
          rw [List.length_append, List.length_singleton]
          omega
        have htop := last_limit hg hindex
        rw [show (front ++ [g]).length + 1 + 1 + entryCount (front ++ [g]) - 1 =
          walk.entry + 1 by omega] at htop
        rw [List.dropLast_concat, if_neg hne, htop, entryCount_concat]
  unfold addGroup
  rw [hless, bind_of_ok (tuxAssert_of (by omega))]
  dsimp only
  rw [hlimit, show (used - 4) % 2 ^ 32 = used - 4 by omega]
  refine ⟨_, _, rfl, ⟨?_, ?_, ?_, ?_⟩, ⟨?_, ?_, ?_, ?_⟩, rfl⟩
  · rw [hlen, hlays.groups]
    exact cpuToBe16_eq rfl hgs
  · rw [List.map_append, holds_append, List.length_map]
    refine ⟨hwords.update_outside (Or.inr ?_), ?_, trivial⟩
    · rw [List.length_map]
      omega
    · rw [hgroup, Nat.add_comm 1 gs.length]
      exact (Function.update_self _ _ _).trans (makeGroup_zero hkeyhi)
  · rw [indexWords_append, hlen]
    refine holds_append.2 ⟨hindex.update_outside (Or.inl (by omega)), trivial⟩
  · rw [tableOf_append]
    exact holds_append.2 ⟨hlays.table, trivial⟩
  · rw [hlen]
    exact congrArg (· + 1) hgroup
  · rw [hlen, hcount]
    dsimp only
    omega
  · rw [List.dropLast_concat]
  · rw [hcount]
    exact hpos.extent

/-- One more entry in the last group, and its extent. -/
theorem addEntry_spec (hlays : leaf.Lays (front ++ [g])) (hpos : AddPos (front ++ [g]) walk)
    (hkeylo : keylo < 2 ^ 24) (hlen : g.entries.length < maxGroupEntries) (hused : used < 2 ^ 16)
    (hroom : leaf.free + 12 ≤ used) :
    ∃ leaf' walk', addEntry leaf walk used keylo extent = .ok (leaf', walk') ∧
      leaf'.Lays (front ++ [g.add keylo extent]) ∧
      AddPos (front ++ [g.add keylo extent]) walk' ∧
      leaf'.free = leaf.free + 8 ∧ leaf'.used = used - 4 := by
  have hmax : maxGroupEntries = 255 := rfl
  have hless := lessEntry_eq (by omega) hused
  have hwalkGroup := hpos.group
  have hwalkEntry := hpos.entry
  have hwalkExtent := hpos.extent
  have hwalkExbase := hpos.exbase
  rw [List.dropLast_concat] at hwalkExbase
  rw [entryCount_concat] at hwalkEntry hwalkExtent
  have hadd : (g.add keylo extent).entries.length = g.entries.length + 1 := by
    unfold LeafGroup.add
    rw [List.length_append, List.length_singleton]
  have hcount : entryCount (front ++ [g.add keylo extent]) =
      entryCount front + g.entries.length + 1 := by
    rw [entryCount_concat, hadd, Nat.add_assoc]
  have hN : (front ++ [g]).length = front.length + 1 := by
    rw [List.length_append, List.length_singleton]
  have hN' : (front ++ [g.add keylo extent]).length = front.length + 1 := by
    rw [List.length_append, List.length_singleton]
  rw [hN] at hwalkGroup hwalkEntry
  have hentries := hlays.entries
  rw [hN] at hentries
  have hwords := hlays.words
  rw [List.map_append, holds_append, List.length_map, Nat.add_comm] at hwords
  have hword : leaf.index (front.length + 1) = indexWord g.entries.length g.keyhi := hwords.2.1
  have hlimit : walk.extent - walk.exbase = g.entries.length := by omega
  have hne : walk.group ≠ walk.entry + 1 := by omega
  have hgroupWord : (Function.update leaf.index (walk.entry + 1)
      (makeEntry keylo (walk.extent - walk.exbase)) walk.group).inc 1 =
      (g.add keylo extent).word := by
    rw [Function.update_of_ne hne, hwalkGroup, hword]
    unfold LeafGroup.word
    rw [hadd]
    exact indexWord_inc g.keyhi (Int.natCast_succ _).symm
  have hentryWord : (Function.update (Function.update leaf.index (walk.entry + 1)
      (makeEntry keylo (walk.extent - walk.exbase))) walk.group (g.add keylo extent).word
      (walk.entry + 1)).inc 1 = indexWord (g.entries.length + 1) keylo := by
    rw [Function.update_of_ne hne.symm, Function.update_self, hlimit, makeEntry_eq hkeylo]
    exact indexWord_inc keylo (Int.natCast_succ _).symm
  unfold addEntry
  dsimp only
  rw [hless, bind_of_ok (tuxAssert_of (by omega)), show (used - 4) % 2 ^ 32 = used - 4 by omega,
    bind_of_ok (tuxAssert_of (by omega)), hgroupWord, hentryWord]
  refine ⟨_, _, rfl, ⟨?_, ?_, ?_, ?_⟩, ⟨?_, ?_, ?_, ?_⟩, cpuToBe16_eq rfl (by omega),
    cpuToBe16_eq rfl (by omega)⟩
  · rw [hN', ← hN]
    exact hlays.groups
  · rw [List.map_append, holds_append, List.length_map, Nat.add_comm 1 front.length]
    refine ⟨?_, ?_, trivial⟩
    · refine ((hwords.1.update_outside (Or.inr ?_)).update_outside (Or.inr ?_)).update_outside
        (Or.inr ?_)
      all_goals
        rw [List.length_map]
        omega
    · rw [← hwalkGroup]
      exact (Function.update_of_ne hne _ _).trans (Function.update_self _ _ _)
  · rw [hN']
    have hsplit : indexWords (front ++ [g.add keylo extent]) =
        indexWords (front ++ [g]) ++ [indexWord (g.entries.length + 1) keylo] := by
      unfold LeafGroup.add
      rw [indexWords_append, indexWords_append, indexWords_cons, indexWords_cons,
        entryWords_append, Nat.zero_add, List.append_assoc, List.append_assoc,
        List.append_assoc]
      rfl
    rw [hsplit, holds_append, length_indexWords, entryCount_concat]
    refine ⟨?_, ?_, trivial⟩
    · refine ((hentries.update_outside (Or.inr ?_)).update_outside (Or.inl ?_)).update_outside
        (Or.inr ?_)
      · rw [length_indexWords, entryCount_concat]
        omega
      · omega
      · rw [length_indexWords, entryCount_concat]
        omega
    · rw [show front.length + 1 + 1 + (entryCount front + g.entries.length) = walk.entry + 1 by
        omega]
      exact Function.update_self _ _ _
  · have hsplit : tableOf (front ++ [g.add keylo extent]) = tableOf (front ++ [g]) ++ [extent] := by
      unfold LeafGroup.add
      rw [tableOf_append, tableOf_append, tableOf_cons, tableOf_cons, List.map_append,
        List.append_assoc, List.append_assoc, List.append_assoc]
      rfl
    rw [hsplit, holds_append, length_tableOf, entryCount_concat, Nat.zero_add]
    refine ⟨hlays.table.update_outside (Or.inr ?_), ?_, trivial⟩
    · rw [length_tableOf, entryCount_concat]
      omega
    · rw [← hwalkExtent]
      exact Function.update_self _ _ _
  · rw [hN']
    exact hwalkGroup
  · rw [hN', hcount]
    dsimp only
    omega
  · rw [List.dropLast_concat]
    exact hwalkExbase
  · rw [hcount]
    dsimp only
    omega

/-- The last address of a group without entries, or with smaller ones. -/
theorem LeafGroup.add_formed (hkeyhi : g.keyhi < 2 ^ 24) (hkeylo : keylo < 2 ^ 24)
    (hlen : g.entries.length < maxGroupEntries) (hblock : extent.block ≠ 0)
    (hg : g.entries ≠ [] → g.Formed) (hlast : ∀ e ∈ g.entries, e.1 < keylo) :
    (g.add keylo extent).Formed where
  keyhi_lt := hkeyhi
  nonempty := List.append_ne_nil_of_right_ne_nil _ (List.cons_ne_nil _ _)
  length_le := by
    unfold LeafGroup.add
    rw [List.length_append, List.length_singleton]
    exact hlen
  keylo_lt e he := by
    rcases List.mem_append.1 he with hin | hin
    · exact (hg (List.ne_nil_of_mem hin)).keylo_lt e hin
    · rw [List.mem_singleton.1 hin]
      exact hkeylo
  ascending := by
    refine List.pairwise_append.2 ⟨?_, List.pairwise_singleton _ _, fun e he e' he' => ?_⟩
    · cases hentries : g.entries with
      | nil => exact List.Pairwise.nil
      | cons e es =>
          rw [← hentries]
          exact (hg (by rw [hentries]; exact List.cons_ne_nil e es)).ascending
    · rw [List.mem_singleton.1 he']
      exact hlast e he
  block_ne e he := by
    rcases List.mem_append.1 he with hin | hin
    · exact (hg (List.ne_nil_of_mem hin)).block_ne e hin
    · rw [List.mem_singleton.1 hin]
      exact hblock

theorem logicalOf_add :
    logicalOf (front ++ [g.add keylo extent]) =
      logicalOf (front ++ [g]) ++ [(g.keyhi * 2 ^ 24 + keylo, extent)] := by
  unfold LeafGroup.add
  rw [logicalOf_append, logicalOf_append, logicalOf_cons, logicalOf_cons]
  unfold LeafGroup.logical
  rw [List.map_append, List.append_assoc, List.append_assoc, List.append_assoc]
  rfl

/-- What `dwalk_add` needs: a new group takes a word more. -/
def addRoom (leaf : Dleaf) (walk : Dwalk) (index : Nat) : Nat :=
  if needsGroup leaf walk (index / 2 ^ 24 % 2 ^ 32) then 16 else 12

/-- The walk that adds reads the last address. -/
theorem AddPos.index_mem (hpos : AddPos (front ++ [g]) walk) (hlays : leaf.Lays (front ++ [g]))
    (hformed : GroupsFormed (front ++ [g])) :
    ∃ ext, (dwalkIndex leaf walk, ext) ∈ logicalOf (front ++ [g]) := by
  have hg := hformed.each g (List.mem_append_right _ (List.mem_singleton_self g))
  have hpos0 := hg.length_pos
  have hlt : g.entries.length - 1 < g.entries.length := by omega
  have hkey := hlays.group_key hformed
  have hentry := hlays.entry_key hformed hlt
  have hgroup := hpos.group
  have hwalk := hpos.entry
  rw [entryCount_concat] at hwalk
  rw [List.length_append, List.length_singleton] at hgroup
  rw [show (front ++ [g]).length + entryCount front + (g.entries.length - 1 + 1) = walk.entry by
    omega] at hentry
  refine ⟨g.entries[g.entries.length - 1].2, List.mem_of_getElem? (i := entryCount front +
    (g.entries.length - 1)) ?_⟩
  rw [logicalOf_getElem hlt]
  unfold dwalkIndex
  rw [getIndex_eq, hgroup, hkey, hentry]

/-- An entry that is added to the last group of a leaf, which may be new. -/
theorem addEntry_stores {index : Nat} (hlays : leaf.Lays (front ++ [g]))
    (hpos : AddPos (front ++ [g]) walk) (hindex : index < 2 ^ 48) (hblock : extent.block ≠ 0)
    (hkeyhi : g.keyhi = index / 2 ^ 24) (hlen : g.entries.length < maxGroupEntries)
    (hformed : GroupsFormed front) (hg : g.entries ≠ [] → g.Formed)
    (hlast : ∀ e ∈ logicalOf (front ++ [g]), e.1 < index) (hblocksize : blocksize < 2 ^ 16)
    (hfree : leaf.free = 8 + 8 * entryCount (front ++ [g]))
    (hused : used + 4 * ((front ++ [g]).length + entryCount (front ++ [g])) = blocksize)
    (hroom : leaf.free + 12 ≤ used) :
    ∃ leaf' walk', addEntry leaf walk used (index % 2 ^ 24) extent = .ok (leaf', walk') ∧
      leaf'.Stores blocksize (front ++ [g.add (index % 2 ^ 24) extent]) ∧
      AddPos (front ++ [g.add (index % 2 ^ 24) extent]) walk' := by
  have hkeylo : index % 2 ^ 24 < 2 ^ 24 := Nat.mod_lt _ (by decide)
  have hkeyhi' : g.keyhi < 2 ^ 24 := by omega
  obtain ⟨leaf', walk', hadd, hlays', hpos', hfree', hused'⟩ :=
    @addEntry_spec leaf used (index % 2 ^ 24) front g walk extent hlays hpos hkeylo hlen
      (by omega) hroom
  have hcount : entryCount (front ++ [g.add (index % 2 ^ 24) extent]) =
      entryCount (front ++ [g]) + 1 := by
    rw [entryCount_concat, entryCount_concat]
    unfold LeafGroup.add
    rw [List.length_append, List.length_singleton, Nat.add_assoc]
  have hlength : (front ++ [g.add (index % 2 ^ 24) extent]).length = (front ++ [g]).length := by
    rw [List.length_append, List.length_append]
    rfl
  refine ⟨leaf', walk', hadd, ⟨⟨fun g' hg' => ?_, ?_⟩, hlays', ⟨?_, ?_⟩, ?_, hblocksize⟩, hpos'⟩
  · rcases List.mem_append.1 hg' with hin | hin
    · exact hformed.each g' hin
    · rw [List.mem_singleton.1 hin]
      refine LeafGroup.add_formed hkeyhi' hkeylo hlen hblock hg fun e he => ?_
      have hlow := hlast (g.keyhi * 2 ^ 24 + e.1, e.2) (by
        rw [logicalOf_append, logicalOf_cons]
        exact List.mem_append_right _ (List.mem_append_left _ (List.mem_map_of_mem he)))
      dsimp only at hlow
      omega
  · refine List.pairwise_append.2 ⟨hformed.keyhi_le, List.pairwise_singleton _ _,
      fun g' hg' g'' hg'' => ?_⟩
    rw [List.mem_singleton.1 hg'']
    obtain ⟨e, he⟩ := List.exists_mem_of_ne_nil _ (hformed.each g' hg').nonempty
    have hlow := hlast (g'.keyhi * 2 ^ 24 + e.1, e.2) (by
      rw [logicalOf_append]
      exact List.mem_append_left _ (List.mem_flatMap.2 ⟨g', hg', List.mem_map_of_mem he⟩))
    dsimp only at hlow
    rw [show (g.add (index % 2 ^ 24) extent).keyhi = index / 2 ^ 24 from hkeyhi]
    omega
  · rw [hfree', hfree, hcount]
    omega
  · rw [hused', hcount, hlength]
    omega
  · rw [hfree', hused']
    omega

/-- `dwalk_add` at the end appends an extent behind the others, where there is room for it. -/
theorem dwalkAdd_spec {index : Nat} (h : leaf.Stores blocksize gs) (hpos : AddPos gs walk)
    (hindex : index < 2 ^ 48) (hblock : extent.block ≠ 0)
    (hlast : ∀ e ∈ logicalOf gs, e.1 < index)
    (hroom : leaf.free + addRoom leaf walk index ≤ leaf.used) :
    ∃ leaf' walk' gs', dwalkAdd leaf walk index extent blocksize = .ok (leaf', walk') ∧
      leaf'.Stores blocksize gs' ∧ AddPos gs' walk' ∧
      logicalOf gs' = logicalOf gs ++ [(index, extent)] := by
  have hused := h.fields.used
  have hfree := h.fields.free
  have hlt := h.blocksize_lt
  have hgroups := h.lays.groups
  have hkeyhi : index / 2 ^ 24 % 2 ^ 32 = index / 2 ^ 24 := by omega
  have hsum : index / 2 ^ 24 * 2 ^ 24 + index % 2 ^ 24 = index := Nat.div_add_mod' _ _
  have hassert : leaf.groups = 0 ∨ dwalkIndex leaf walk ≠ index := by
    cases hend : gs.getLast? with
    | none =>
        left
        rw [hgroups, List.getLast?_eq_none_iff.1 hend]
        rfl
    | some g =>
        right
        obtain ⟨front, rfl⟩ := List.getLast?_eq_some_iff.1 hend
        obtain ⟨ext, hmem⟩ := hpos.index_mem h.lays h.formed
        exact Nat.ne_of_lt (hlast _ hmem)
  unfold dwalkAdd
  rw [bind_of_ok (tuxAssert_of hassert),
    bind_of_ok (tuxAssert_of ⟨Nat.pos_of_ne_zero hblock, extent.count_pos⟩), hkeyhi]
  dsimp only
  unfold addRoom at hroom
  rw [hkeyhi] at hroom
  split
  · next hneeds =>
      rw [if_pos hneeds] at hroom
      obtain ⟨leaf1, walk1, hgroup, hlays1, hpos1, hfree1⟩ := addGroup_spec h.lays h.formed hpos
        (show index / 2 ^ 24 < 2 ^ 24 by omega) (by omega) (show leaf.used < 2 ^ 16 by omega)
        (by omega)
      have hcount : entryCount (gs ++ [emptyGroup (index / 2 ^ 24)]) = entryCount gs :=
        entryCount_concat _ _
      have hlen : (gs ++ [emptyGroup (index / 2 ^ 24)]).length = gs.length + 1 := by
        rw [List.length_append, List.length_singleton]
      have hlogical : logicalOf (gs ++ [emptyGroup (index / 2 ^ 24)]) = logicalOf gs := by
        rw [logicalOf_append]
        exact List.append_nil _
      have hempty : (emptyGroup (index / 2 ^ 24)).entries.length < maxGroupEntries :=
        Nat.succ_pos 254
      obtain ⟨leaf2, walk2, hentry, hstores, hpos2⟩ := @addEntry_stores leaf1 blocksize
        (leaf.used - 4) gs (emptyGroup (index / 2 ^ 24)) walk1 extent index hlays1 hpos1 hindex
        hblock rfl hempty h.formed (fun hne => absurd rfl hne) (by rw [hlogical]; exact hlast) hlt
        (by rw [hfree1, hcount, hfree]) (by rw [hcount, hlen]; omega) (by omega)
      refine ⟨leaf2, walk2, _, ?_, hstores, hpos2, ?_⟩
      · rw [bind_of_ok hgroup]
        dsimp only
        rw [bind_of_ok hentry]
        dsimp only
        rw [bind_of_ok hstores.checked]
        rfl
      · rw [logicalOf_add, hlogical]
        exact congrArg (fun a => _ ++ [(a, extent)]) hsum
  · next hneeds =>
      rw [if_neg hneeds] at hroom
      obtain ⟨hne, hkey, htop⟩ := not_or.1 hneeds |>.imp_right not_or.1
      cases hend : gs.getLast? with
      | none =>
          rw [hgroups, List.getLast?_eq_none_iff.1 hend] at hne
          exact absurd rfl hne
      | some g =>
          obtain ⟨front, rfl⟩ := List.getLast?_eq_some_iff.1 hend
          have hg := h.formed.each g (List.mem_append_right _ (List.mem_singleton_self g))
          have hwalk : walk.group = front.length + 1 := by
            rw [hpos.group, List.length_append, List.length_singleton]
          have hfront : GroupsFormed front :=
            ⟨fun g' hg' => h.formed.each g' (List.mem_append_left _ hg'),
              (List.pairwise_append.1 h.formed.keyhi_le).1⟩
          rw [hwalk, h.lays.group_key h.formed] at hkey
          rw [hwalk, h.lays.group_top h.formed] at htop
          obtain ⟨leaf2, walk2, hentry, hstores, hpos2⟩ := @addEntry_stores leaf blocksize
            leaf.used front g walk extent index h.lays hpos hindex hblock (not_not.1 hkey)
            (Nat.lt_of_not_le htop) hfront (fun _ => hg) hlast hlt hfree hused hroom
          refine ⟨leaf2, walk2, _, ?_, hstores, hpos2, ?_⟩
          · refine (bind_of_ok rfl).trans ?_
            dsimp only
            rw [bind_of_ok hentry]
            dsimp only
            rw [bind_of_ok hstores.checked]
            rfl
          · rw [logicalOf_add, not_not.1 hkey, hsum]

end Adding

end Tux3
