/-
  Filemap/DleafMerge.lean --- the split and the merge of leaves of the first format.

  A split may cut a group; a merge may join the last group of one leaf with the first group of the
  other, as far as the count of a group goes, and numbers the entries of both parts anew.
-/
import Tux3.Filemap.DleafEdit

set_option autoImplicit false

namespace Tux3

open Outcome (bind_of_ok bind_of_error bind_eq_ok)
open Area (Holds holds_nil holds_cons holds_append)

/-! ## The code -/

/-- The loop of `dleaf_split_at`, which goes over the groups that stay whole. -/
def splitLoop (leaf : Dleaf) (split : Nat) : Nat → Nat → Nat → Nat → Nat → Nat × Nat × Nat × Nat
  | 0, grsplit, edict, exsplit, recount => (grsplit, edict, exsplit, recount)
  | n + 1, grsplit, edict, exsplit, recount =>
      let count := (leaf.index (grsplit + 1)).top
      if split < recount + count then (grsplit, edict, exsplit, recount)
      else splitLoop leaf split n (grsplit + 1) (edict + count)
        (exsplit + (leaf.index (edict + count)).top) (recount + count)

/-- An extent of zero bytes. -/
def zeroExtent : LeafExtent := ⟨0, 1, 0, by decide, by decide, by decide, by decide⟩

/-- `memset` of what lies between the table and the index. -/
def clearGap (leaf : Dleaf) (blocksize : Nat) : Dleaf :=
  { leaf with
    index := fun p =>
      if leaf.free + 4 * p ≤ blocksize ∧ blocksize + 4 ≤ leaf.used + 4 * p then indexWord 0 0
      else leaf.index p
    table := fun i =>
      if leaf.free ≤ 8 + 8 * i ∧ 8 + 8 * (i + 1) ≤ leaf.used then zeroExtent
      else leaf.table i }

/-- What `dleaf_split_at` writes into the other leaf. -/
def dleafSplitInto (leaf leaf2 : Dleaf) (blocksize split grsplit exsplit cut : Nat) : Dleaf :=
  let groups2 := leaf.groups - grsplit
  let encopy := leaf.ebase blocksize - leaf.groups - split
  let extents := leaf.exend - exsplit
  let index := veccopy leaf2.index groups2 leaf.index leaf.groups groups2
  let index := Function.update index 1 ((index 1).inc (-cut))
  let index := veccopy index (groups2 + encopy) leaf.index (leaf.ebase blocksize) encopy
  { leaf2 with
    groups := cpuToBe16 groups2
    free := cpuToBe16 (8 + 8 * extents)
    used := cpuToBe16 (blocksize - 4 * (groups2 + encopy))
    index :=
      if cut = 0 then index
      else incEntryLimits index groups2 (index 1).top
        (-((leaf.index (leaf.groups + split)).top : Nat))
    table := Area.copy leaf2.table 0 leaf.table exsplit extents }

/-- What `dleaf_split_at` leaves in the leaf. -/
def dleafSplitFrom (leaf : Dleaf) (blocksize split grsplit exsplit cut : Nat) : Dleaf :=
  let groups := grsplit + if cut = 0 then 0 else 1
  let index :=
    if cut = 0 then leaf.index
    else Function.update leaf.index groups ((leaf.index groups).setCount cut)
  let index := veccopy index (groups + split) index (leaf.groups + split) split
  let leaf :=
    { leaf with
      groups := cpuToBe16 groups
      free := cpuToBe16 (8 + 8 * exsplit)
      used := cpuToBe16 (blocksize - 4 * (groups + split))
      index }
  clearGap leaf blocksize

/-- `dleaf_split_at`.  The assert about `used` holds by what `entries` is. -/
def dleafSplitAt (leaf leaf2 : Dleaf) (split blocksize : Nat) :
    Except TuxError (Nat × Dleaf × Dleaf) := do
  if leaf.groups = 0 then return (0, leaf, leaf2)
  else
    let entries := leaf.ebase blocksize - leaf.groups
    tuxAssert (split < entries)
    let (grsplit, edict, exsplit, recount) := splitLoop leaf split leaf.groups 0 leaf.groups 0 0
    let cut := split - recount
    let exsplit := if cut = 0 then exsplit else exsplit + (leaf.index (edict + cut)).top
    let leaf2 := dleafSplitInto leaf leaf2 blocksize split grsplit exsplit cut
    let from_ := dleafSplitFrom leaf blocksize split grsplit exsplit cut
    assertChecked from_ blocksize
    assertChecked leaf2 blocksize
    return (leaf.groups - grsplit, from_, leaf2)

/-- `dleaf_free`. -/
def dleafFree (leaf : Dleaf) : Nat := (((leaf.used : Int) - leaf.free) % 2 ^ 32).toNat

/-- `dleaf_need`. -/
def dleafNeed (leaf : Dleaf) (blocksize : Nat) : Nat :=
  (((blocksize : Int) - dleafFree leaf - 8) % 2 ^ 32).toNat

/-- How `dleaf_merge` joins the last group with the first one of the other leaf: the entries that
move to the last group, those that stay in a group of their own, and whether none do. -/
structure MergePlan where
  mergeGcount : Nat
  restGcount : Nat
  canMergeGroup : Nat
  deriving DecidableEq, Repr

/-- The plan of `dleaf_merge`. -/
def mergePlan (leaf from_ : Dleaf) : MergePlan :=
  let gstop := leaf.index leaf.groups
  let group2 := from_.index 1
  if gstop.key = group2.key ∧ gstop.top < maxGroupEntries then
    let room := maxGroupEntries - gstop.top
    if room < group2.top then ⟨room, group2.top - room, 0⟩ else ⟨group2.top, 0, 1⟩
  else ⟨0, 0, 0⟩

/-- The index of `dleaf_merge` before any group is joined: the groups and the entries of the
other leaf are appended. -/
def appendedIndex (leaf from_ : Dleaf) (blocksize addgroups : Nat) : Nat → IndexWord :=
  let ebase := leaf.ebase blocksize
  let entries2 := from_.ebase blocksize - from_.groups
  let index := veccopy leaf.index (ebase + addgroups) leaf.index ebase (ebase - leaf.groups)
  let index := veccopy index (leaf.groups + addgroups) from_.index from_.groups addgroups
  veccopy index (ebase + addgroups + entries2) from_.index (from_.ebase blocksize) entries2

/-- `dleaf_merge` joins the groups: `gstop` is the last group, `ebase` its last entry, and
`adjust` the limit of the last entry of the other leaf that moves. -/
def joinedIndex (index : Nat → IndexWord) (plan : MergePlan) (gstop ebase adjust : Nat) :
    Nat → IndexWord :=
  if plan.mergeGcount = 0 then index
  else
    let limitAdjust := (index ebase).top
    let index := Function.update index gstop ((index gstop).inc plan.mergeGcount)
    let index := incEntryLimits index ebase plan.mergeGcount limitAdjust
    if plan.restGcount = 0 then index
    else
      let index := Function.update index (gstop + 1)
        ((index (gstop + 1)).setCount plan.restGcount)
      incEntryLimits index (ebase + plan.mergeGcount) plan.restGcount (-adjust)

/-- What `dleaf_merge` leaves of two leaves with groups. -/
def joinedLeaf (leaf from_ : Dleaf) (blocksize : Nat) : Dleaf :=
  let plan := mergePlan leaf from_
  let addgroups := from_.groups - plan.canMergeGroup
  let ebase := leaf.ebase blocksize + addgroups
  let entries2 := from_.ebase blocksize - from_.groups
  { leaf with
    groups := cpuToBe16 (leaf.groups + addgroups : Nat)
    free := cpuToBe16 (leaf.free + (from_.free - 8))
    used := cpuToBe16 (blocksize - 4 * (ebase + entries2))
    index := joinedIndex (appendedIndex leaf from_ blocksize addgroups) plan leaf.groups ebase
      (from_.index (from_.groups + plan.mergeGcount)).top
    table := Area.copy leaf.table leaf.exend from_.table 0 from_.exend }

/-- What `dleaf_merge` copies into a leaf without groups: the header with the extents, and the
index. -/
def copiedWhole (leaf from_ : Dleaf) (blocksize : Nat) : Dleaf :=
  { from_ with
    index := veccopy leaf.index (from_.ebase blocksize) from_.index (from_.ebase blocksize)
      (from_.ebase blocksize)
    table := Area.copy leaf.table 0 from_.table 0 from_.exend }

/-- `dleaf_merge`. -/
def dleafMerge (leaf from_ : Dleaf) (blocksize : Nat) : Except TuxError (Nat × Dleaf) := do
  if from_.groups = 0 then return (1, leaf)
  else if leaf.groups = 0 then return (1, copiedWhole leaf from_ blocksize)
  else if dleafFree leaf < dleafNeed from_ blocksize then return (0, leaf)
  else
    let leaf := joinedLeaf leaf from_ blocksize
    assertChecked leaf blocksize
    return (1, leaf)

/-! ## The split -/

section Split

variable {leaf leaf2 : Dleaf} {blocksize split k : Nat} {gs front back : List LeafGroup}
  {g : LeafGroup}

/-- The loop of the split stops at the group that has the entry. -/
theorem splitLoop_eq {done mid : List LeafGroup} (hfront : front = done ++ mid)
    (hlays : leaf.Lays (front ++ g :: back)) (hformed : GroupsFormed (front ++ g :: back))
    (hk : k < g.entries.length) :
    splitLoop leaf (entryCount front + k) (mid ++ g :: back).length done.length
      (leaf.groups + entryCount done) (entryCount done) (entryCount done) =
      (front.length, leaf.groups + entryCount front, entryCount front, entryCount front) := by
  induction mid generalizing done with
  | nil =>
      rw [List.append_nil] at hfront
      subst hfront
      rw [List.nil_append, List.length_cons, splitLoop, hlays.group_top hformed]
      exact if_pos (Nat.add_lt_add_left hk _)
  | cons m mid ih =>
      have heq : front ++ g :: back = done ++ m :: (mid ++ g :: back) := by
        rw [hfront, List.append_assoc, List.cons_append]
      have hlays' := hlays
      have hformed' := hformed
      rw [heq] at hlays' hformed'
      have hcount : entryCount front = entryCount done + (m.entries.length + entryCount mid) := by
        rw [hfront, entryCount_append, entryCount_cons]
      have hstop := hlays'.stop_top hformed'
      rw [← hlays'.groups] at hstop
      have hlen : (done ++ [m]).length = done.length + 1 := by
        rw [List.length_append, List.length_singleton]
      have hstep := @ih (done ++ [m]) (by rw [hfront, List.append_cons])
      rw [entryCount_concat, hlen, ← Nat.add_assoc] at hstep
      rw [List.cons_append, List.length_cons, splitLoop, hlays'.group_top hformed', hstop]
      exact (if_neg (by omega)).trans hstep

theorem inc_setCount {w : IndexWord} {n m : Nat} (h : w.top = n) (hm : m ≤ n) :
    w.inc (-(m : Nat)) = w.setCount (n - m) := by
  have hlt := w.top_lt
  unfold IndexWord.inc IndexWord.setCount indexWord
  ext
  · dsimp only
    omega
  · rfl

theorem incEntryLimits_zero (index : Nat → IndexWord) (edict n : Nat) :
    incEntryLimits index edict n 0 = index := by
  funext p
  have hlt := (index p).top_lt
  unfold incEntryLimits
  split
  · have hval : ((((index p).top : Int) + 0) % 2 ^ 8).toNat = (index p).top := by omega
    unfold IndexWord.inc
    rw [hval]
    exact indexWord_self _
  · rfl

/-- A word in front of the copied ones is changed before or after the copy. -/
theorem veccopy_update {dst src : Nat → IndexWord} {into source n p : Nat} {w : IndexWord}
    (hp : p + n < into + 1) :
    veccopy (Function.update dst p w) into src source n =
      Function.update (veccopy dst into src source n) p w := by
  funext q
  rcases Decidable.eq_or_ne q p with rfl | hne
  · refine (if_neg (by omega)).trans ?_
    rw [Function.update_self, Function.update_self]
  · rw [Function.update_of_ne hne]
    unfold veccopy Area.copy
    rw [Function.update_of_ne hne]

theorem veccopy_outside {dst src : Nat → IndexWord} {into source n p : Nat}
    (hp : p + n < into + 1) : veccopy dst into src source n p = dst p := by
  unfold veccopy Area.copy
  rw [if_neg (by omega)]

/-- What `dleaf_split_at` writes into the other leaf stores the groups from the entry on. -/
theorem dleafSplitInto_stores (leaf2 : Dleaf) (h : leaf.Stores blocksize (front ++ g :: back))
    (hk : k < g.entries.length) :
    (dleafSplitInto leaf leaf2 blocksize (entryCount front + k) front.length (entryCount front + k)
      k).Stores blocksize (g.drop k :: back) := by
  have hused := h.fields.used
  have hfree := h.fields.free
  have hfits := h.fits
  have hlt := h.blocksize_lt
  have hlen : (front ++ g :: back).length = front.length + (back.length + 1) := by
    rw [List.length_append, List.length_cons]
  have hcount : entryCount (front ++ g :: back) =
      entryCount front + (g.entries.length + entryCount back) := by
    rw [entryCount_append, entryCount_cons]
  have hdrop : entryCount (g.drop k :: back) = g.entries.length - k + entryCount back := by
    rw [entryCount_cons]
    exact congrArg (· + _) List.length_drop
  have hgroups2 : leaf.groups - front.length = back.length + 1 := by
    rw [h.lays.groups]
    omega
  have hencopy : leaf.ebase blocksize - leaf.groups - (entryCount front + k) =
      g.entries.length - k + entryCount back := by
    rw [h.ebase_eq, h.lays.groups]
    omega
  have hextents : leaf.exend - (entryCount front + k) =
      g.entries.length - k + entryCount back := by
    rw [h.exend_eq]
    omega
  have hg := h.formed.each g (List.mem_append_right _ List.mem_cons_self)
  obtain ⟨hcopied, hcopiedEntries⟩ :=
    copiedIndex_words leaf2.index h.lays (Nat.le_of_lt hk) rfl rfl
  obtain ⟨hwords, hindex⟩ := cut_words rfl hcopied hcopiedEntries
  have hinc : g.word.inc (-(k : Nat)) = g.word.setCount (g.entries.length - k) :=
    inc_setCount hg.word_top (Nat.le_of_lt hk)
  have hword : copiedIndex leaf2.index leaf.index (front ++ g :: back).length (back.length + 1)
      ((front ++ g :: back).length + entryCount (front ++ g :: back))
      (g.entries.length - k + entryCount back) 1 = g.word := hcopied.1
  have hword1 := hword
  unfold copiedIndex at hword1
  rw [veccopy_outside (by omega)] at hword1
  have htop : (g.word.setCount (g.entries.length - k)).top = g.entries.length - k := by
    have hle := hg.length_le
    have hmax : maxGroupEntries = 255 := rfl
    exact indexWord_top _ (by omega)
  rw [hword] at hwords hindex
  unfold dleafSplitInto
  dsimp only
  rw [hgroups2, hencopy, hextents, h.lays.groups, h.ebase_eq, hword1, veccopy_update (by omega),
    hinc, Function.update_self, htop]
  rw [← copiedIndex]
  have hlimit : ∀ index : Nat → IndexWord, (if k = 0 then index else
      incEntryLimits index (back.length + 1) (g.entries.length - k)
        (-((leaf.index ((front ++ g :: back).length + (entryCount front + k))).top : Nat))) =
      incEntryLimits index (back.length + 1) (g.entries.length - k) (-(k : Nat)) := by
    intro index
    cases k with
    | zero => exact (incEntryLimits_zero _ _ _).symm
    | succ k =>
        rw [if_neg (Nat.succ_ne_zero k), ← Nat.add_assoc,
          h.lays.entry_top h.formed (Nat.lt_of_succ_lt hk)]
  rw [hlimit]
  have hgroups16 : cpuToBe16 ((back.length + 1 : Nat) : Int) = back.length + 1 :=
    cpuToBe16_eq rfl (by omega)
  have hfree16 : cpuToBe16 (8 + 8 * ((g.entries.length - k + entryCount back : Nat) : Int)) =
      8 + 8 * (g.entries.length - k + entryCount back) :=
    cpuToBe16_eq (by omega) (by omega)
  have hused16 : cpuToBe16 (blocksize - 4 * (((back.length + 1 : Nat) : Int) +
      ((g.entries.length - k + entryCount back : Nat) : Int))) =
      blocksize - 4 * (back.length + 1 + (g.entries.length - k + entryCount back)) :=
    cpuToBe16_eq (by omega) (by omega)
  refine ⟨h.formed.drop hk, ⟨hgroups16, hwords, hindex, ?_⟩, ⟨?_, ?_⟩, ?_, hlt⟩
  · refine (h.lays.table_from (Nat.le_of_lt hk)).copied (Nat.le_refl _) ?_ ?_
    · rw [length_tableOf, hdrop]
    · omega
  · rw [hdrop]
    exact hfree16
  · rw [hdrop, List.length_cons]
    dsimp only
    rw [hused16]
    omega
  · dsimp only
    rw [hused16, hfree16]
    omega

/-- What lies between the table and the index is not part of the leaf. -/
theorem Dleaf.Stores.clearGap (h : leaf.Stores blocksize gs) :
    (clearGap leaf blocksize).Stores blocksize gs := by
  have hused := h.fields.used
  have hfree := h.fields.free
  refine ⟨h.formed, ⟨h.lays.groups, ?_, ?_, ?_⟩, ⟨hfree, hused⟩, h.fits, h.blocksize_lt⟩
  · refine h.lays.words.congr fun p hp => ?_
    rw [List.length_map] at hp
    exact if_neg (by omega)
  · refine h.lays.entries.congr fun p hp => ?_
    rw [length_indexWords] at hp
    exact if_neg (by omega)
  · refine h.lays.table.congr fun p hp => ?_
    rw [length_tableOf] at hp
    exact if_neg (by omega)

/-- The groups in front of an entry. -/
def groupsBefore (front : List LeafGroup) (g : LeafGroup) (k : Nat) : List LeafGroup :=
  if k = 0 then front else front ++ [g.take k]

theorem logicalOf_groupsBefore (hk : k ≤ g.entries.length) :
    logicalOf (groupsBefore front g k) =
      (logicalOf (front ++ g :: back)).take (entryCount front + k) := by
  unfold groupsBefore
  split
  · next hzero =>
      rw [hzero, Nat.add_zero, logicalOf_append, ← length_logicalOf, List.take_left]
  · exact (logicalOf_take hk).symm

/-- The words of whole groups after the split. -/
theorem kept_words (h : leaf.Lays (front ++ g :: back)) :
    let kept := veccopy leaf.index (front.length + entryCount front) leaf.index
      ((front ++ g :: back).length + entryCount front) (entryCount front)
    Holds kept 1 (front.map LeafGroup.word) ∧
      Holds kept (front.length + 1) (indexWords front) := by
  intro kept
  have hlen : (front ++ g :: back).length = front.length + (back.length + 1) := by
    rw [List.length_append, List.length_cons]
  have hwords := h.words
  have hentries := h.entries
  rw [List.map_append, holds_append] at hwords
  rw [indexWords_append, holds_append] at hentries
  constructor
  · refine hwords.1.copy_outside (Or.inl ?_)
    rw [List.length_map]
    omega
  · refine hentries.1.copied ?_ ?_ ?_
    · omega
    · rw [length_indexWords]
      omega
    · omega

/-- What `dleaf_split_at` leaves in the leaf stores the groups in front of the entry. -/
theorem dleafSplitFrom_stores (h : leaf.Stores blocksize (front ++ g :: back))
    (hk : k < g.entries.length) :
    (dleafSplitFrom leaf blocksize (entryCount front + k) front.length (entryCount front + k)
      k).Stores blocksize (groupsBefore front g k) := by
  have hused := h.fields.used
  have hfree := h.fields.free
  have hfits := h.fits
  have hlt := h.blocksize_lt
  have hlen : (front ++ g :: back).length = front.length + (back.length + 1) := by
    rw [List.length_append, List.length_cons]
  have hcount : entryCount (front ++ g :: back) =
      entryCount front + (g.entries.length + entryCount back) := by
    rw [entryCount_append, entryCount_cons]
  unfold dleafSplitFrom
  dsimp only
  rw [h.lays.groups]
  refine Dleaf.Stores.clearGap ?_
  have hfree16 : cpuToBe16 (8 + 8 * ((entryCount front + k : Nat) : Int)) =
      8 + 8 * (entryCount front + k) := cpuToBe16_eq (by omega) (by omega)
  cases k with
  | zero =>
      obtain ⟨hwords, hindex⟩ := kept_words h.lays
      have htable : Holds leaf.table 0 (tableOf front) := by
        have hall := h.lays.table
        rw [tableOf_append, holds_append] at hall
        exact hall.1
      have hgroups16 : cpuToBe16 ((front.length : Nat) : Int) = front.length :=
        cpuToBe16_eq rfl (by omega)
      have hused16 : cpuToBe16 (blocksize - 4 * (((front.length : Nat) : Int) +
          ((entryCount front : Nat) : Int))) =
          blocksize - 4 * (front.length + entryCount front) :=
        cpuToBe16_eq (by omega) (by omega)
      refine ⟨⟨fun g' hg' => h.formed.each g' (List.mem_append_left _ hg'),
        (List.pairwise_append.1 h.formed.keyhi_le).1⟩, ⟨hgroups16, hwords, hindex, htable⟩,
        ⟨hfree16, ?_⟩, ?_, hlt⟩
      · refine (congrArg (· + _) hused16).trans ?_
        unfold groupsBefore
        rw [if_pos rfl]
        omega
      · refine hfree16.trans_le (Nat.le_trans ?_ hused16.ge)
        omega
  | succ k =>
      obtain ⟨hwords, hindex⟩ := chopped_words h.lays (Nat.lt_of_succ_lt hk)
      have htake : (g.take (k + 1)).entries.length = k + 1 := by
        unfold LeafGroup.take
        rw [List.length_take]
        omega
      have hkept : groupsBefore front g (k + 1) = front ++ [g.take (k + 1)] :=
        if_neg (Nat.succ_ne_zero k)
      have hcount' : entryCount (front ++ [g.take (k + 1)]) = entryCount front + (k + 1) := by
        rw [entryCount_concat, htake]
      have hlen' : (front ++ [g.take (k + 1)]).length = front.length + 1 := by
        rw [List.length_append, List.length_singleton]
      have hgroups16 : cpuToBe16 ((front.length + 1 : Nat) : Int) = front.length + 1 :=
        cpuToBe16_eq rfl (by omega)
      have hused16 : cpuToBe16 (blocksize - 4 * (((front.length + 1 : Nat) : Int) +
          ((entryCount front + (k + 1) : Nat) : Int))) =
          blocksize - 4 * (front.length + 1 + (entryCount front + (k + 1))) :=
        cpuToBe16_eq (by omega) (by omega)
      simp only [if_neg (Nat.succ_ne_zero k), ← Nat.add_assoc (front ++ g :: back).length]
      rw [hkept]
      refine ⟨h.formed.take (Nat.succ_pos k), ⟨hgroups16.trans hlen'.symm, hwords, ?_,
        h.lays.table_upto⟩, ⟨?_, ?_⟩, ?_, hlt⟩
      · rw [hlen']
        exact hindex
      · rw [hcount']
        exact hfree16
      · rw [hcount', hlen']
        refine (congrArg (· + _) hused16).trans ?_
        omega
      · refine hfree16.trans_le (Nat.le_trans ?_ hused16.ge)
        omega

/-- Each number of an entry is one within a group. -/
theorem exists_entry {i : Nat} (hi : i < entryCount gs) :
    ∃ front g back k, gs = front ++ g :: back ∧ k < g.entries.length ∧
      i = entryCount front + k := by
  induction gs generalizing i with
  | nil => exact absurd hi (Nat.not_lt_zero i)
  | cons g gs ih =>
      rw [entryCount_cons] at hi
      rcases Nat.lt_or_ge i g.entries.length with hlt | hge
      · exact ⟨[], g, gs, i, rfl, hlt, by rw [entryCount_nil, Nat.zero_add]⟩
      · obtain ⟨front, g', back, k, rfl, hk, heq⟩ := @ih (i - g.entries.length) (by omega)
        refine ⟨g :: front, g', back, k, rfl, hk, ?_⟩
        rw [entryCount_cons]
        omega

/-- `dleaf_split_at` cuts the list at an entry. -/
theorem dleafSplitAt_spec (leaf2 : Dleaf) (h : leaf.Stores blocksize gs)
    (hsplit : split < entryCount gs) :
    ∃ leaf' leaf2' gs1 gs2,
      dleafSplitAt leaf leaf2 split blocksize = .ok (gs2.length, leaf', leaf2') ∧
      leaf'.Stores blocksize gs1 ∧ leaf2'.Stores blocksize gs2 ∧
      logicalOf gs1 = (logicalOf gs).take split ∧ logicalOf gs2 = (logicalOf gs).drop split := by
  obtain ⟨front, g, back, k, rfl, hk, rfl⟩ := exists_entry hsplit
  have hfrom := dleafSplitFrom_stores h hk
  have hinto := dleafSplitInto_stores leaf2 h hk
  have hgroups : leaf.groups ≠ 0 := by
    rw [h.lays.groups, List.length_append, List.length_cons]
    omega
  have hlen : leaf.groups - front.length = (g.drop k :: back).length := by
    rw [h.lays.groups, List.length_append, List.length_cons, List.length_cons]
    omega
  have hassert : entryCount front + k < leaf.ebase blocksize - leaf.groups := by
    rw [h.ebase_eq, h.lays.groups]
    omega
  have hloop := @splitLoop_eq leaf k front back g [] front rfl h.lays h.formed hk
  rw [← h.lays.groups, entryCount_nil, Nat.add_zero] at hloop
  have hexsplit : (if k = 0 then entryCount front
      else entryCount front + (leaf.index (leaf.groups + entryCount front + k)).top) =
      entryCount front + k := by
    cases k with
    | zero => rfl
    | succ k =>
        rw [if_neg (Nat.succ_ne_zero k), h.lays.groups,
          h.lays.entry_top h.formed (Nat.lt_of_succ_lt hk)]
  unfold dleafSplitAt
  rw [if_neg hgroups, bind_of_ok (tuxAssert_of hassert)]
  refine ⟨_, _, groupsBefore front g k, g.drop k :: back, ?_, hfrom, hinto,
    logicalOf_groupsBefore (Nat.le_of_lt hk), (logicalOf_drop (Nat.le_of_lt hk)).symm⟩
  rw [show ([] : List LeafGroup).length = 0 from rfl] at hloop
  rw [hloop]
  dsimp only
  rw [Nat.add_sub_cancel_left, hexsplit, bind_of_ok hfrom.checked, bind_of_ok hinto.checked, hlen]
  rfl

end Split

/-! ## The words of a merge -/

section Words

variable {leaf from_ : Dleaf} {blocksize : Nat} {gs front back : List LeafGroup}
  {g g2 : LeafGroup} {index : Nat → IndexWord} {off edict : Nat} {ws rest : List IndexWord}
  {moved : List (Nat × LeafExtent)}

/-- The index with the groups and the entries of the other leaf appended; `gone` is the group
that is joined as a whole, if there is one. -/
theorem appendedIndex_words {gone stay : List LeafGroup} {addgroups : Nat}
    (h : leaf.Lays gs) (h2 : from_.Lays (gone ++ stay)) (hadd : addgroups = stay.length)
    (hebase : leaf.ebase blocksize = gs.length + entryCount gs)
    (hebase2 : from_.ebase blocksize = (gone ++ stay).length + entryCount (gone ++ stay)) :
    Holds (appendedIndex leaf from_ blocksize addgroups) 1
        (gs.map LeafGroup.word ++ stay.map LeafGroup.word) ∧
      Holds (appendedIndex leaf from_ blocksize addgroups) (gs.length + addgroups + 1)
        (indexWords gs ++ indexWords (gone ++ stay)) := by
  have hlen2 : (gone ++ stay).length = gone.length + stay.length := List.length_append
  have hgroups := h.groups
  have hgroups2 := h2.groups
  have hstay := h2.words
  rw [List.map_append, holds_append, List.length_map] at hstay
  unfold appendedIndex
  dsimp only
  have hwords1 : Holds (veccopy leaf.index (leaf.ebase blocksize + addgroups) leaf.index
      (leaf.ebase blocksize) (leaf.ebase blocksize - leaf.groups)) 1 (gs.map LeafGroup.word) := by
    refine h.words.copy_outside (Or.inl ?_)
    rw [List.length_map]
    omega
  have hentries1 : Holds (veccopy leaf.index (leaf.ebase blocksize + addgroups) leaf.index
      (leaf.ebase blocksize) (leaf.ebase blocksize - leaf.groups)) (gs.length + addgroups + 1)
      (indexWords gs) := by
    refine h.entries.copied ?_ ?_ ?_
    · omega
    · rw [length_indexWords]
      omega
    · omega
  generalize veccopy leaf.index (leaf.ebase blocksize + addgroups) leaf.index
    (leaf.ebase blocksize) (leaf.ebase blocksize - leaf.groups) = index1 at *
  have hwords2 : Holds (veccopy index1 (leaf.groups + addgroups) from_.index from_.groups
      addgroups) 1 (gs.map LeafGroup.word ++ stay.map LeafGroup.word) := by
    refine holds_append.2 ⟨hwords1.copy_outside (Or.inl ?_), hstay.2.copied ?_ ?_ ?_⟩
    · rw [List.length_map]
      omega
    · omega
    · rw [List.length_map]
      omega
    · rw [List.length_map]
      omega
  have hentries2 : Holds (veccopy index1 (leaf.groups + addgroups) from_.index from_.groups
      addgroups) (gs.length + addgroups + 1) (indexWords gs) :=
    hentries1.copy_outside (Or.inr (by omega))
  generalize veccopy index1 (leaf.groups + addgroups) from_.index from_.groups addgroups =
    index2 at *
  constructor
  · refine hwords2.copy_outside (Or.inl ?_)
    rw [List.length_append, List.length_map, List.length_map]
    omega
  · refine holds_append.2 ⟨hentries2.copy_outside (Or.inl ?_), h2.entries.copied ?_ ?_ ?_⟩
    · rw [length_indexWords]
      omega
    · omega
    · rw [length_indexWords]
      omega
    · rw [length_indexWords]
      omega

/-- Entries move from the group that follows to the last one of the leaf. -/
theorem joined_first {m : Nat} (hm : m = moved.length)
    (hwords : Holds index 1 (front.map LeafGroup.word ++ g.word :: ws))
    (hentries : Holds index off (indexWords front ++ (entryWords 0 g.entries ++
      (entryWords 0 moved ++ rest))))
    (hedict : edict + 1 = off + entryCount front + g.entries.length)
    (hoff : front.length + 1 + ws.length < off) :
    let joined := incEntryLimits (Function.update index (front.length + 1)
      ((index (front.length + 1)).inc m)) edict m (g.entries.length : Nat)
    Holds joined 1 (front.map LeafGroup.word ++
        LeafGroup.word ⟨g.keyhi, g.entries ++ moved⟩ :: ws) ∧
      Holds joined off (indexWords front ++ (entryWords 0 (g.entries ++ moved) ++ rest)) := by
  intro joined
  obtain ⟨hfront, hword, hws⟩ := holds_append.1 hwords
  obtain ⟨hfrontEntries, hback⟩ := holds_append.1 hentries
  obtain ⟨hg, hback⟩ := holds_append.1 hback
  obtain ⟨hmoved, hrest⟩ := holds_append.1 hback
  rw [length_indexWords] at hg hmoved hrest
  rw [length_entryWords] at hmoved hrest
  rw [length_entryWords] at hrest
  rw [List.length_map, Nat.add_comm 1 front.length] at hword hws
  constructor
  · refine holds_append.2 ⟨?_, ?_, ?_⟩
    · refine holds_incEntryLimits_outside (hfront.update_outside (Or.inr ?_)) (Or.inl ?_)
      · rw [List.length_map]
        omega
      · rw [List.length_map]
        omega
    · rw [List.length_map, Nat.add_comm 1 front.length]
      refine (if_neg (by omega)).trans ?_
      rw [Function.update_self, hword]
      unfold LeafGroup.word
      rw [List.length_append, ← hm]
      exact indexWord_inc g.keyhi (Int.natCast_add _ _).symm
    · rw [List.length_map, Nat.add_comm 1 front.length]
      exact holds_incEntryLimits_outside (hws.update_outside (Or.inl (Nat.lt_succ_self _)))
        (Or.inl (by omega))
  · rw [entryWords_append, List.append_assoc, Nat.zero_add]
    refine holds_append.2 ⟨?_, holds_append.2 ⟨?_, holds_append.2 ⟨?_, ?_⟩⟩⟩
    · refine holds_incEntryLimits_outside
        (hfrontEntries.update_outside (Or.inl (by omega))) (Or.inl ?_)
      rw [length_indexWords]
      omega
    · rw [length_indexWords]
      refine holds_incEntryLimits_outside (hg.update_outside (Or.inl (by omega))) (Or.inl ?_)
      rw [length_entryWords]
      omega
    · rw [length_indexWords, length_entryWords, ← hedict]
      refine holds_incEntryLimits ?_ (Int.zero_add _) (Nat.le_of_eq hm.symm)
      rw [hedict]
      refine hmoved.update_outside (Or.inl ?_)
      omega
    · rw [length_indexWords, length_entryWords, length_entryWords]
      refine holds_incEntryLimits_outside (hrest.update_outside (Or.inl ?_)) (Or.inr ?_)
      · omega
      · omega

/-- The entries that do not move stay in a group of their own. -/
theorem joined_second {m : Nat} {fs l : List IndexWord}
    (hwords : Holds index 1 (fs ++ g2.word :: ws))
    (hentries : Holds index off (l ++ (entryWords m (g2.entries.drop m) ++ rest)))
    (hedict : edict + 1 = off + l.length) (hoff : fs.length + 1 + ws.length < off) :
    let joined := incEntryLimits (Function.update index (fs.length + 1)
      ((index (fs.length + 1)).setCount (g2.entries.length - m))) edict
      (g2.entries.length - m) (-(m : Nat))
    Holds joined 1 (fs ++ (g2.drop m).word :: ws) ∧
      Holds joined off (l ++ (entryWords 0 (g2.drop m).entries ++ rest)) := by
  intro joined
  have hdrop : (g2.drop m).entries.length = g2.entries.length - m := List.length_drop
  obtain ⟨hfront, hword, hws⟩ := holds_append.1 hwords
  obtain ⟨hl, hback⟩ := holds_append.1 hentries
  obtain ⟨hstay, hrest⟩ := holds_append.1 hback
  rw [length_entryWords, List.length_drop] at hrest
  rw [Nat.add_comm 1 fs.length] at hword hws
  constructor
  · refine holds_append.2 ⟨?_, ?_, ?_⟩
    · exact holds_incEntryLimits_outside (hfront.update_outside (Or.inr (by omega)))
        (Or.inl (by omega))
    · rw [Nat.add_comm 1 fs.length]
      refine (if_neg (by omega)).trans ?_
      rw [Function.update_self, hword]
      refine (IndexWord.setCount_indexWord _ _).trans ?_
      unfold LeafGroup.word
      rw [hdrop]
      rfl
    · rw [Nat.add_comm 1 fs.length]
      exact holds_incEntryLimits_outside (hws.update_outside (Or.inl (Nat.lt_succ_self _)))
        (Or.inl (by omega))
  · refine holds_append.2 ⟨?_, holds_append.2 ⟨?_, ?_⟩⟩
    · exact holds_incEntryLimits_outside (hl.update_outside (Or.inl (by omega)))
        (Or.inl (by omega))
    · rw [← hedict]
      refine holds_incEntryLimits ?_ (Int.add_right_neg _) (Nat.le_of_eq hdrop)
      rw [hedict]
      refine hstay.update_outside (Or.inl ?_)
      omega
    · rw [length_entryWords, hdrop]
      refine holds_incEntryLimits_outside (hrest.update_outside (Or.inl ?_)) (Or.inr ?_)
      · omega
      · omega

end Words

/-! ## The merge -/

section Merge

variable {leaf from_ : Dleaf} {blocksize : Nat} {gs gs2 front back : List LeafGroup}
  {g g2 : LeafGroup}

/-- The groups of a merge: the entries that the plan says move to the last group. -/
def mergedGroups (front : List LeafGroup) (g g2 : LeafGroup) (back : List LeafGroup)
    (plan : MergePlan) : List LeafGroup :=
  if plan.mergeGcount = 0 then front ++ g :: g2 :: back
  else if plan.restGcount = 0 then front ++ ⟨g.keyhi, g.entries ++ g2.entries⟩ :: back
  else front ++ ⟨g.keyhi, g.entries ++ g2.entries.take plan.mergeGcount⟩ ::
    g2.drop plan.mergeGcount :: back

/-- What the plan is. -/
inductive PlanIs (g g2 : LeafGroup) : MergePlan → Prop
  | apart : PlanIs g g2 ⟨0, 0, 0⟩
  | whole (hkeyhi : g.keyhi = g2.keyhi)
      (hle : g.entries.length + g2.entries.length ≤ maxGroupEntries) :
      PlanIs g g2 ⟨g2.entries.length, 0, 1⟩
  | part (hkeyhi : g.keyhi = g2.keyhi) (hlt : g.entries.length < maxGroupEntries)
      (hgt : maxGroupEntries < g.entries.length + g2.entries.length) :
      PlanIs g g2 ⟨maxGroupEntries - g.entries.length,
        g2.entries.length - (maxGroupEntries - g.entries.length), 0⟩

theorem mergePlan_is (hword : leaf.index leaf.groups = g.word) (hword2 : from_.index 1 = g2.word)
    (hg : g.Sized) (hg2 : g2.Sized) : PlanIs g g2 (mergePlan leaf from_) := by
  unfold mergePlan
  dsimp only
  rw [hword, hword2, hg.word_key, hg2.word_key, hg.word_top, hg2.word_top]
  split
  · next hjoins =>
      split
      · next hroom => exact .part hjoins.1 hjoins.2 (by omega)
      · next hroom => exact .whole hjoins.1 (by omega)
  · exact .apart

theorem logicalOf_concat : logicalOf (front ++ [g]) = logicalOf front ++ g.logical := by
  rw [logicalOf_append]
  exact congrArg _ (List.append_nil _)

/-- The merged groups list the extents of both leaves. -/
theorem logicalOf_mergedGroups {plan : MergePlan} (hplan : PlanIs g g2 plan) :
    logicalOf (mergedGroups front g g2 back plan) =
      logicalOf (front ++ [g]) ++ logicalOf (g2 :: back) := by
  have happend (moved : List (Nat × LeafExtent)) :
      LeafGroup.logical ⟨g.keyhi, g.entries ++ moved⟩ =
        g.logical ++ LeafGroup.logical ⟨g.keyhi, moved⟩ := List.map_append
  have hapart : logicalOf (front ++ g :: g2 :: back) =
      logicalOf (front ++ [g]) ++ logicalOf (g2 :: back) := by
    rw [List.append_cons, logicalOf_append]
  unfold mergedGroups
  cases hplan with
  | apart => exact hapart
  | whole hkeyhi hle =>
      split
      · exact hapart
      · rw [if_pos rfl, logicalOf_append, logicalOf_concat, logicalOf_cons, logicalOf_cons, happend,
          hkeyhi, List.append_assoc, List.append_assoc]
  | part hkeyhi hlt hgt =>
      have htake : LeafGroup.logical ⟨g2.keyhi, g2.entries.take
          (maxGroupEntries - g.entries.length)⟩ =
          g2.logical.take (maxGroupEntries - g.entries.length) := LeafGroup.logical_take
      rw [if_neg (by dsimp only; omega), if_neg (by dsimp only; omega), logicalOf_append,
        logicalOf_concat, logicalOf_cons, logicalOf_cons, logicalOf_cons, happend,
        LeafGroup.logical_drop, hkeyhi, htake, List.append_assoc, List.append_assoc,
        ← List.append_assoc (g2.logical.take _), List.take_append_drop]

theorem LeafGroup.Sized.drop {m : Nat} (h : g.Sized) (hm : m < g.entries.length) :
    (g.drop m).Sized where
  keyhi_lt := h.keyhi_lt
  nonempty := by
    refine List.ne_nil_of_length_pos ?_
    unfold LeafGroup.drop
    rw [List.length_drop]
    omega
  length_le := by
    have hle := h.length_le
    unfold LeafGroup.drop
    rw [List.length_drop]
    omega
  keylo_lt e he := h.keylo_lt e (List.mem_of_mem_drop he)

theorem LeafGroup.Sized.join {moved : List (Nat × LeafExtent)} (h : g.Sized) (h2 : g2.Sized)
    (hsub : ∀ e ∈ moved, e ∈ g2.entries)
    (hle : g.entries.length + moved.length ≤ maxGroupEntries) :
    LeafGroup.Sized ⟨g.keyhi, g.entries ++ moved⟩ where
  keyhi_lt := h.keyhi_lt
  nonempty := List.append_ne_nil_of_left_ne_nil h.nonempty _
  length_le := by
    rw [List.length_append]
    exact hle
  keylo_lt e he := by
    rcases List.mem_append.1 he with hin | hin
    · exact h.keylo_lt e hin
    · exact h2.keylo_lt e (hsub e hin)

/-- The values of the merged groups fit their words. -/
theorem mergedGroups_sized {plan : MergePlan} (hplan : PlanIs g g2 plan)
    (hgs : ∀ g' ∈ front ++ [g], g'.Sized) (hgs2 : ∀ g' ∈ g2 :: back, g'.Sized) :
    ∀ g' ∈ mergedGroups front g g2 back plan, g'.Sized := by
  have hg := hgs g (List.mem_append_right _ (List.mem_singleton_self g))
  have hg2 := hgs2 g2 List.mem_cons_self
  have hfront : ∀ g' ∈ front, g'.Sized := fun g' hg' => hgs g' (List.mem_append_left _ hg')
  have hback : ∀ g' ∈ back, g'.Sized := fun g' hg' => hgs2 g' (List.mem_cons_of_mem _ hg')
  have hapart : ∀ g' ∈ front ++ g :: g2 :: back, g'.Sized := by
    intro g' hg'
    rw [List.append_cons, List.mem_append] at hg'
    exact hg'.elim (hgs g') (hgs2 g')
  unfold mergedGroups
  cases hplan with
  | apart => exact hapart
  | whole hkeyhi hle =>
      split
      · exact hapart
      · rw [if_pos rfl]
        intro g' hg'
        rcases List.mem_append.1 hg' with hin | hin
        · exact hfront g' hin
        · rcases List.mem_cons.1 hin with rfl | hin
          · exact hg.join hg2 (fun e he => he) hle
          · exact hback g' hin
  | part hkeyhi hlt hgt =>
      rw [if_neg (by dsimp only; omega), if_neg (by dsimp only; omega)]
      intro g' hg'
      rcases List.mem_append.1 hg' with hin | hin
      · exact hfront g' hin
      · rcases List.mem_cons.1 hin with rfl | hin
        · refine hg.join hg2 (fun e he => List.mem_of_mem_take he) ?_
          dsimp only
          rw [List.length_take]
          omega
        · rcases List.mem_cons.1 hin with rfl | hin
          · exact hg2.drop (by dsimp only; omega)
          · exact hback g' hin

theorem entryCount_mergedGroups {plan : MergePlan} (hplan : PlanIs g g2 plan) :
    entryCount (mergedGroups front g g2 back plan) =
      entryCount (front ++ [g]) + entryCount (g2 :: back) := by
  have hlen := congrArg List.length (@logicalOf_mergedGroups front back g g2 plan hplan)
  rw [List.length_append, length_logicalOf, length_logicalOf, length_logicalOf] at hlen
  exact hlen

theorem length_mergedGroups {plan : MergePlan} (hplan : PlanIs g g2 plan) (hg2 : g2.entries ≠ []) :
    (mergedGroups front g g2 back plan).length + plan.canMergeGroup =
      front.length + 1 + (back.length + 1) := by
  have hpos := List.length_pos_of_ne_nil hg2
  unfold mergedGroups
  cases hplan with
  | apart =>
      rw [if_pos rfl, List.length_append, List.length_cons, List.length_cons]
      dsimp only
      omega
  | whole hkeyhi hle =>
      rw [if_neg (Nat.ne_of_gt hpos), if_pos rfl, List.length_append, List.length_cons]
      dsimp only
      omega
  | part hkeyhi hlt hgt =>
      rw [if_neg (by dsimp only; omega), if_neg (by dsimp only; omega), List.length_append,
        List.length_cons, List.length_cons]
      dsimp only
      omega

/-- The index of a merge has the words of the merged groups. -/
theorem joinedIndex_words {plan : MergePlan} (hplan : PlanIs g g2 plan)
    (h : leaf.Stores blocksize (front ++ [g])) (h2 : from_.Stores blocksize (g2 :: back)) :
    let index := joinedIndex
      (appendedIndex leaf from_ blocksize (from_.groups - plan.canMergeGroup)) plan leaf.groups
      (leaf.ebase blocksize + (from_.groups - plan.canMergeGroup))
      (from_.index (from_.groups + plan.mergeGcount)).top
    Holds index 1 ((mergedGroups front g g2 back plan).map LeafGroup.word) ∧
      Holds index ((mergedGroups front g g2 back plan).length + 1)
        (indexWords (mergedGroups front g g2 back plan)) := by
  have hg := h.formed.each g (List.mem_append_right _ (List.mem_singleton_self g))
  have hg2 := h2.formed.each g2 List.mem_cons_self
  have hpos2 := hg2.length_pos
  have hlen : (front ++ [g]).length = front.length + 1 := by
    rw [List.length_append, List.length_singleton]
  have hlen2 : (g2 :: back).length = back.length + 1 := List.length_cons
  have hgroups := h.lays.groups
  have hgroups2 := h2.lays.groups
  have hebase := h.ebase_eq
  have hebase2 := h2.ebase_eq
  rw [entryCount_concat] at hebase
  rw [hlen] at hgroups hebase
  rw [hlen2] at hgroups2
  have hsplit : indexWords (front ++ [g]) ++ indexWords (g2 :: back) =
      indexWords front ++ (entryWords 0 g.entries ++
        (entryWords 0 g2.entries ++ indexWords back)) := by
    rw [indexWords_append, indexWords_cons, indexWords_cons]
    simp only [List.append_assoc]
    rfl
  have hlast {index : Nat → IndexWord} {addgroups : Nat}
      (hentries : Holds index ((front ++ [g]).length + addgroups + 1)
        (indexWords (front ++ [g]) ++ indexWords (g2 :: back))) :
      (index (leaf.ebase blocksize + addgroups)).top = g.entries.length := by
    have htop := last_limit hg (holds_append.1 hentries).1
    rw [entryCount_concat, hlen, show front.length + 1 + addgroups + 1 +
      (entryCount front + g.entries.length) - 1 = leaf.ebase blocksize + addgroups by omega] at htop
    exact htop
  have hapart : (front ++ [g]).map LeafGroup.word ++ (g2 :: back).map LeafGroup.word =
      front.map LeafGroup.word ++ g.word :: g2.word :: back.map LeafGroup.word := by
    rw [List.map_append, List.append_assoc]
    rfl
  have hwhole : (front ++ [g]).map LeafGroup.word ++ back.map LeafGroup.word =
      front.map LeafGroup.word ++ g.word :: back.map LeafGroup.word := by
    rw [List.map_append, List.append_assoc]
    rfl
  unfold joinedIndex mergedGroups
  cases hplan with
  | apart =>
      dsimp only
      rw [if_pos rfl, if_pos rfl, Nat.sub_zero]
      obtain ⟨hwords, hentries⟩ := @appendedIndex_words leaf from_ blocksize (front ++ [g]) []
        (g2 :: back) from_.groups h.lays h2.lays h2.lays.groups h.ebase_eq h2.ebase_eq
      have hlength : (front ++ g :: g2 :: back).length = (front ++ [g]).length + from_.groups := by
        rw [hgroups2, hlen, List.length_append, List.length_cons, List.length_cons]
        omega
      have happ : front ++ g :: g2 :: back = (front ++ [g]) ++ g2 :: back :=
        List.append_cons _ _ _
      constructor
      · rw [happ, List.map_append]
        exact hwords
      · rw [hlength, happ, indexWords_append]
        exact hentries
  | whole hkeyhi hle =>
      dsimp only
      rw [if_neg (Nat.ne_of_gt hpos2), if_pos rfl, if_neg (Nat.ne_of_gt hpos2), if_pos rfl]
      obtain ⟨hwords, hentries⟩ := @appendedIndex_words leaf from_ blocksize (front ++ [g]) [g2]
        back (from_.groups - 1) h.lays h2.lays (by omega) h.ebase_eq h2.ebase_eq
      rw [hlast hentries, hgroups]
      rw [hwhole] at hwords
      rw [List.singleton_append, hsplit, hlen] at hentries
      have hlength : (front ++ ⟨g.keyhi, g.entries ++ g2.entries⟩ :: back).length + 1 =
          front.length + 1 + (from_.groups - 1) + 1 := by
        rw [List.length_append, List.length_cons]
        omega
      have hedict : leaf.ebase blocksize + (from_.groups - 1) + 1 =
          front.length + 1 + (from_.groups - 1) + 1 + entryCount front + g.entries.length := by
        omega
      obtain ⟨hwords', hentries'⟩ := joined_first rfl hwords hentries hedict
        (by rw [List.length_map]; omega)
      constructor
      · rw [List.map_append, List.map_cons]
        exact hwords'
      · rw [hlength, indexWords_append, indexWords_cons]
        exact hentries'
  | part hkeyhi hlt hgt =>
      generalize hm : maxGroupEntries - g.entries.length = m
      have hm0 : m ≠ 0 := by omega
      have hrest0 : g2.entries.length - m ≠ 0 := by omega
      have hle : m ≤ g2.entries.length := by omega
      have htake : (g2.entries.take m).length = m := by
        rw [List.length_take]
        exact Nat.min_eq_left hle
      have hadjust : (from_.index (from_.groups + m)).top = m := by
        obtain ⟨m', rfl⟩ := Nat.exists_eq_succ_of_ne_zero hm0
        have htop := @Dleaf.Lays.entry_top from_ [] back g2 m' h2.formed h2.lays (by omega)
        rw [entryCount_nil, Nat.add_zero] at htop
        rw [h2.lays.groups]
        exact htop
      dsimp only
      rw [if_neg hm0, if_neg hrest0, if_neg hm0, if_neg hrest0, Nat.sub_zero]
      obtain ⟨hwords, hentries⟩ := @appendedIndex_words leaf from_ blocksize (front ++ [g]) []
        (g2 :: back) from_.groups h.lays h2.lays h2.lays.groups h.ebase_eq h2.ebase_eq
      rw [List.nil_append] at hentries
      rw [hlast hentries, hgroups, hadjust]
      have hcut : entryWords 0 g2.entries =
          entryWords 0 (g2.entries.take m) ++ entryWords m (g2.entries.drop m) := by
        have happ := entryWords_append 0 (g2.entries.take m) (g2.entries.drop m)
        rw [List.take_append_drop, htake, Nat.zero_add] at happ
        exact happ
      rw [hapart] at hwords
      rw [hsplit, hlen, hcut, List.append_assoc (entryWords 0 (g2.entries.take m))] at hentries
      have hedict : leaf.ebase blocksize + from_.groups + 1 =
          front.length + 1 + from_.groups + 1 + entryCount front + g.entries.length := by
        omega
      obtain ⟨hwords', hentries'⟩ := joined_first htake.symm hwords hentries hedict
        (by rw [List.length_cons, List.length_map]; omega)
      have hfs : (front.map LeafGroup.word ++
          [LeafGroup.word ⟨g.keyhi, g.entries ++ g2.entries.take m⟩]).length =
          front.length + 1 := by
        rw [List.length_append, List.length_map, List.length_singleton]
      rw [List.append_cons] at hwords'
      rw [← List.append_assoc] at hentries'
      have hedict' : leaf.ebase blocksize + from_.groups + m + 1 =
          front.length + 1 + from_.groups + 1 +
            (indexWords front ++ entryWords 0 (g.entries ++ g2.entries.take m)).length := by
        rw [List.length_append, length_indexWords, length_entryWords, List.length_append, htake]
        omega
      obtain ⟨hwords'', hentries''⟩ := joined_second hwords' hentries' hedict'
        (by rw [hfs, List.length_map]; omega)
      rw [hfs] at hwords'' hentries''
      have hlength : (front ++ ⟨g.keyhi, g.entries ++ g2.entries.take m⟩ :: g2.drop m ::
          back).length + 1 = front.length + 1 + from_.groups + 1 := by
        rw [List.length_append, List.length_cons, List.length_cons]
        omega
      constructor
      · rw [List.map_append, List.map_cons, List.map_cons, List.append_cons]
        exact hwords''
      · rw [hlength, indexWords_append, indexWords_cons, indexWords_cons, ← List.append_assoc]
        exact hentries''

theorem tableOf_eq (gs : List LeafGroup) : tableOf gs = (logicalOf gs).map Prod.snd := by
  induction gs with
  | nil => rfl
  | cons g gs ih =>
      rw [tableOf_cons, logicalOf_cons, List.map_append, ih]
      congr 1
      unfold LeafGroup.logical
      rw [List.map_map]
      rfl

/-- What fits: the bytes of the other leaf less its header. -/
theorem room_of_need (h : leaf.Stores blocksize gs) (h2 : from_.Stores blocksize gs2)
    (hneed : ¬ dleafFree leaf < dleafNeed from_ blocksize) :
    leaf.free + 4 * (gs2.length + entryCount gs2) + 8 * entryCount gs2 ≤ leaf.used := by
  have hused := h.fields.used
  have hused2 := h2.fields.used
  have hfree := h.fields.free
  have hfree2 := h2.fields.free
  have hfits := h.fits
  have hfits2 := h2.fits
  have hlt := h.blocksize_lt
  have hmine : dleafFree leaf = leaf.used - leaf.free := by
    unfold dleafFree
    omega
  have htheirs : dleafFree from_ = from_.used - from_.free := by
    unfold dleafFree
    omega
  have hneeds : dleafNeed from_ blocksize = blocksize - (from_.used - from_.free) - 8 := by
    unfold dleafNeed
    rw [htheirs]
    omega
  omega

/-- The merged leaf has the merged groups, and its header says so. -/
theorem joinedLeaf_lays (h : leaf.Stores blocksize (front ++ [g]))
    (h2 : from_.Stores blocksize (g2 :: back))
    (hneed : ¬ dleafFree leaf < dleafNeed from_ blocksize) :
    (joinedLeaf leaf from_ blocksize).Lays
        (mergedGroups front g g2 back (mergePlan leaf from_)) ∧
      (joinedLeaf leaf from_ blocksize).Fields blocksize
        (mergedGroups front g g2 back (mergePlan leaf from_)) ∧
      (joinedLeaf leaf from_ blocksize).free ≤ (joinedLeaf leaf from_ blocksize).used ∧
      PlanIs g g2 (mergePlan leaf from_) := by
  have hg := h.formed.each g (List.mem_append_right _ (List.mem_singleton_self g))
  have hg2 := h2.formed.each g2 List.mem_cons_self
  have hlen : (front ++ [g]).length = front.length + 1 := by
    rw [List.length_append, List.length_singleton]
  have hlen2 : (g2 :: back).length = back.length + 1 := List.length_cons
  have hgroups := h.lays.groups
  have hgroups2 := h2.lays.groups
  have hused := h.fields.used
  have hfree := h.fields.free
  have hfree2 := h2.fields.free
  have hlt := h.blocksize_lt
  have hroom := room_of_need h h2 hneed
  have hword : leaf.index leaf.groups = g.word := by
    rw [hgroups, hlen]
    exact h.lays.word_eq
  have hword2 : from_.index 1 = g2.word := h2.lays.words.1
  have hplan := mergePlan_is hword hword2 hg.toSized hg2.toSized
  have hcount := @entryCount_mergedGroups front back g g2 _ hplan
  have hlength := @length_mergedGroups front back g g2 _ hplan hg2.nonempty
  obtain ⟨hwords, hentries⟩ := joinedIndex_words hplan h h2
  have hcan : (mergePlan leaf from_).canMergeGroup ≤ 1 := by
    generalize mergePlan leaf from_ = plan at hplan
    cases hplan with
    | apart => exact Nat.zero_le 1
    | whole hkeyhi hle => exact Nat.le_refl 1
    | part hkeyhi hlt hgt => exact Nat.zero_le 1
  have hgroups' : leaf.groups + (from_.groups - (mergePlan leaf from_).canMergeGroup) =
      (mergedGroups front g g2 back (mergePlan leaf from_)).length := by
    omega
  have hentries2 : from_.ebase blocksize - from_.groups = entryCount (g2 :: back) := by
    rw [h2.ebase_eq, hgroups2]
    omega
  have hfree16 : cpuToBe16 ((leaf.free : Int) + ((from_.free : Int) - 8)) =
      8 + 8 * entryCount (mergedGroups front g g2 back (mergePlan leaf from_)) :=
    cpuToBe16_eq (by omega) (by omega)
  have hused16 : cpuToBe16 (blocksize - 4 * (((leaf.ebase blocksize +
      (from_.groups - (mergePlan leaf from_).canMergeGroup) : Nat) : Int) +
      ((from_.ebase blocksize - from_.groups : Nat) : Int))) = blocksize -
      4 * ((mergedGroups front g g2 back (mergePlan leaf from_)).length +
        entryCount (mergedGroups front g g2 back (mergePlan leaf from_))) := by
    have hebase := h.ebase_eq
    refine cpuToBe16_eq ?_ ?_
    · omega
    · omega
  unfold joinedLeaf
  dsimp only
  refine ⟨⟨?_, hwords, hentries, ?_⟩, ⟨hfree16, ?_⟩, ?_, hplan⟩
  · dsimp only
    rw [← hgroups']
    exact cpuToBe16_eq rfl (by omega)
  · dsimp only
    have hexend := h.exend_eq
    have hexend2 := h2.exend_eq
    rw [tableOf_eq, logicalOf_mergedGroups hplan, List.map_append, ← tableOf_eq, ← tableOf_eq]
    refine holds_append.2 ⟨h.lays.table.copy_outside (Or.inl ?_), h2.lays.table.copied ?_ ?_ ?_⟩
    · rw [length_tableOf]
      omega
    · omega
    · rw [length_tableOf]
      omega
    · rw [length_tableOf]
      omega
  · dsimp only
    rw [hused16]
    omega
  · rw [hfree16, hused16]
    omega

theorem copiedWhole_stores (leaf : Dleaf) (h2 : from_.Stores blocksize gs2) :
    (copiedWhole leaf from_ blocksize).Stores blocksize gs2 := by
  have hebase := h2.ebase_eq
  have hexend := h2.exend_eq
  refine ⟨h2.formed, ⟨h2.lays.groups, ?_, ?_, ?_⟩, ⟨h2.fields.free, h2.fields.used⟩, h2.fits,
    h2.blocksize_lt⟩
  · refine h2.lays.words.copied ?_ ?_ ?_
    · omega
    · rw [List.length_map]
      omega
    · omega
  · refine h2.lays.entries.copied ?_ ?_ ?_
    · omega
    · rw [length_indexWords]
      omega
    · omega
  · refine h2.lays.table.copied (Nat.le_refl _) ?_ rfl
    rw [length_tableOf, hexend]

/-- Each address of the one list is below each of the other. -/
abbrev AllBelow (l l' : List (Nat × LeafExtent)) : Prop := ∀ e ∈ l, ∀ e' ∈ l', e.1 < e'.1

/-- Groups of leaves that follow each other merge into groups as the check wants them. -/
theorem mergedGroups_formed {plan : MergePlan} (hplan : PlanIs g g2 plan)
    (hgs : GroupsFormed (front ++ [g])) (hgs2 : GroupsFormed (g2 :: back))
    (horder : AllBelow (logicalOf (front ++ [g])) (logicalOf (g2 :: back))) :
    GroupsFormed (mergedGroups front g g2 back plan) := by
  have hsized := mergedGroups_sized hplan hgs.sized hgs2.sized
  have hg := hgs.each g (List.mem_append_right _ (List.mem_singleton_self g))
  have hg2 := hgs2.each g2 List.mem_cons_self
  have hmem {e : Nat × LeafExtent} (he : e ∈ g.entries) :
      (g.keyhi * 2 ^ 24 + e.1, e.2) ∈ logicalOf (front ++ [g]) := by
    rw [logicalOf_concat]
    exact List.mem_append_right _ (List.mem_map_of_mem he)
  have hmem2 {e : Nat × LeafExtent} (he : e ∈ g2.entries) :
      (g2.keyhi * 2 ^ 24 + e.1, e.2) ∈ logicalOf (g2 :: back) := by
    rw [logicalOf_cons]
    exact List.mem_append_left _ (List.mem_map_of_mem he)
  have hle : g.keyhi ≤ g2.keyhi := by
    obtain ⟨e, he⟩ := List.exists_mem_of_ne_nil _ hg.nonempty
    obtain ⟨e2, he2⟩ := List.exists_mem_of_ne_nil _ hg2.nonempty
    have hlt := horder _ (hmem he) _ (hmem2 he2)
    have hkey2 := hg2.keylo_lt e2 he2
    dsimp only at hlt
    omega
  have hkeys := List.pairwise_append.1 hgs.keyhi_le
  have hkeys2 := List.pairwise_cons.1 hgs2.keyhi_le
  have hjoined (moved : List (Nat × LeafExtent)) (hsub : moved.Sublist g2.entries)
      (hkeyhi : g.keyhi = g2.keyhi)
      (hsize : LeafGroup.Sized ⟨g.keyhi, g.entries ++ moved⟩) :
      LeafGroup.Formed ⟨g.keyhi, g.entries ++ moved⟩ := by
    refine ⟨hsize, ?_, fun e he => ?_⟩
    · refine List.pairwise_append.2 ⟨hg.ascending, hg2.ascending.sublist hsub,
        fun e he e' he' => ?_⟩
      have hlt := horder _ (hmem he) _ (hmem2 (hsub.subset he'))
      dsimp only at hlt
      omega
    · rcases List.mem_append.1 he with hin | hin
      · exact hg.block_ne e hin
      · exact hg2.block_ne e (hsub.subset hin)
  have hfront : ∀ g' ∈ front, g'.keyhi ≤ g.keyhi := fun g' hg' =>
    hkeys.2.2 g' hg' g (List.mem_singleton_self g)
  have hback : ∀ g' ∈ back, g2.keyhi ≤ g'.keyhi := fun g' hg' => hkeys2.1 g' hg'
  have hapart : GroupsFormed (front ++ g :: g2 :: back) := by
    rw [List.append_cons]
    refine ⟨fun g' hg' => ?_, List.pairwise_append.2 ⟨hgs.keyhi_le, hgs2.keyhi_le, ?_⟩⟩
    · exact (List.mem_append.1 hg').elim (hgs.each g') (hgs2.each g')
    · intro g' hg' g'' hg''
      have hleft : g'.keyhi ≤ g.keyhi := by
        rcases List.mem_append.1 hg' with hin | hin
        · exact hfront g' hin
        · rw [List.mem_singleton.1 hin]
      have hright : g2.keyhi ≤ g''.keyhi := by
        rcases List.mem_cons.1 hg'' with rfl | hin
        · exact Nat.le_refl _
        · exact hback g'' hin
      exact hleft.trans (hle.trans hright)
  unfold mergedGroups at hsized ⊢
  cases hplan with
  | apart => exact hapart
  | whole hkeyhi hlen =>
      rw [if_neg (Nat.ne_of_gt hg2.length_pos), if_pos rfl] at hsized ⊢
      refine ⟨fun g' hg' => ?_, List.pairwise_append.2 ⟨hkeys.1, List.pairwise_cons.2
        ⟨fun g' hg' => hle.trans (hback g' hg'), hkeys2.2⟩, fun g' hg' g'' hg'' => ?_⟩⟩
      · rcases List.mem_append.1 hg' with hin | hin
        · exact hgs.each g' (List.mem_append_left _ hin)
        · rcases List.mem_cons.1 hin with rfl | hin
          · exact hjoined g2.entries (List.Sublist.refl _) hkeyhi
              (hsized _ (List.mem_append_right _ List.mem_cons_self))
          · exact hgs2.each g' (List.mem_cons_of_mem _ hin)
      · rcases List.mem_cons.1 hg'' with rfl | hin
        · exact hfront g' hg'
        · exact (hfront g' hg').trans (hle.trans (hback g'' hin))
  | part hkeyhi hlt hgt =>
      dsimp only at hsized ⊢
      rw [if_neg (by omega), if_neg (by omega)] at hsized ⊢
      have hdrop := hg2.drop (k := maxGroupEntries - g.entries.length) (by omega)
      refine ⟨fun g' hg' => ?_, List.pairwise_append.2 ⟨hkeys.1, List.pairwise_cons.2
        ⟨fun g' hg' => ?_, List.pairwise_cons.2 ⟨fun g' hg' => hback g' hg', hkeys2.2⟩⟩,
        fun g' hg' g'' hg'' => ?_⟩⟩
      · rcases List.mem_append.1 hg' with hin | hin
        · exact hgs.each g' (List.mem_append_left _ hin)
        · rcases List.mem_cons.1 hin with rfl | hin
          · exact hjoined _ (List.take_sublist _ _) hkeyhi
              (hsized _ (List.mem_append_right _ List.mem_cons_self))
          · rcases List.mem_cons.1 hin with rfl | hin
            · exact hdrop
            · exact hgs2.each g' (List.mem_cons_of_mem _ hin)
      · rcases List.mem_cons.1 hg' with rfl | hin
        · exact hle
        · exact hle.trans (hback g' hin)
      · rcases List.mem_cons.1 hg'' with rfl | hin
        · exact hfront g' hg'
        · rcases List.mem_cons.1 hin with rfl | hin
          · exact (hfront g' hg').trans hle
          · exact (hfront g' hg').trans (hle.trans (hback g'' hin))

/-- A leaf without groups, or one with a last group and one with a first group. -/
theorem merge_cases (h : leaf.Stores blocksize gs) (h2 : from_.Stores blocksize gs2) :
    (from_.groups = 0 ∧ gs2 = []) ∨ (from_.groups ≠ 0 ∧ leaf.groups = 0 ∧ gs = []) ∨
      (from_.groups ≠ 0 ∧ leaf.groups ≠ 0 ∧
        ∃ front g g2 back, gs = front ++ [g] ∧ gs2 = g2 :: back) := by
  rw [h.lays.groups, h2.lays.groups]
  cases gs2 with
  | nil => exact Or.inl ⟨rfl, rfl⟩
  | cons g2 back =>
      right
      cases hlast : gs.getLast? with
      | none =>
          rw [List.getLast?_eq_none_iff.1 hlast]
          exact Or.inl ⟨Nat.succ_ne_zero _, rfl, rfl⟩
      | some g =>
          obtain ⟨front, rfl⟩ := List.getLast?_eq_some_iff.1 hlast
          refine Or.inr ⟨Nat.succ_ne_zero _, ?_, front, g, g2, back, rfl, rfl⟩
          rw [List.length_append, List.length_singleton]
          exact Nat.succ_ne_zero _

/-- When `dleaf_merge` returns 1, the lists are concatenated; else it has done nothing. -/
theorem dleafMerge_spec {ret : Nat} {leaf' : Dleaf} (h : leaf.Stores blocksize gs)
    (h2 : from_.Stores blocksize gs2)
    (hmerge : dleafMerge leaf from_ blocksize = .ok (ret, leaf')) :
    (ret = 1 ∧ ∃ gs', leaf'.Stores blocksize gs' ∧
      logicalOf gs' = logicalOf gs ++ logicalOf gs2) ∨ (ret = 0 ∧ leaf' = leaf) := by
  unfold dleafMerge at hmerge
  rcases merge_cases h h2 with ⟨hzero2, rfl⟩ | ⟨hne2, hzero, rfl⟩ |
    ⟨hne2, hne, front, g, g2, back, rfl, rfl⟩
  · rw [if_pos hzero2] at hmerge
    obtain ⟨rfl, rfl⟩ := Prod.mk.inj (Except.ok.inj hmerge)
    exact Or.inl ⟨rfl, gs, h, (List.append_nil _).symm⟩
  · rw [if_neg hne2, if_pos hzero] at hmerge
    obtain ⟨rfl, rfl⟩ := Prod.mk.inj (Except.ok.inj hmerge)
    exact Or.inl ⟨rfl, gs2, copiedWhole_stores leaf h2, rfl⟩
  · rw [if_neg hne2, if_neg hne] at hmerge
    split at hmerge
    · obtain ⟨rfl, rfl⟩ := Prod.mk.inj (Except.ok.inj hmerge)
      exact Or.inr ⟨rfl, rfl⟩
    · next hneed =>
        obtain ⟨⟨⟩, hchecked, hret⟩ := bind_eq_ok.1 hmerge
        obtain ⟨rfl, rfl⟩ := Prod.mk.inj (Except.ok.inj hret)
        obtain ⟨hlays, hfields, hfits, hplan⟩ := joinedLeaf_lays h h2 hneed
        have hsized := mergedGroups_sized hplan h.formed.sized h2.formed.sized
        obtain ⟨r, hcheck, hassert⟩ := bind_eq_ok.1 hchecked
        rw [tuxAssert_eq_ok.1 hassert] at hcheck
        obtain ⟨gs', hformed', hlays', hfields'⟩ :=
          dleafCheck_lays hcheck (hlays.oneExtent_sized hsized)
        have hlogical : logicalOf gs' = logicalOf (front ++ [g]) ++ logicalOf (g2 :: back) := by
          rw [← hlays'.extents_eq hformed', hlays.extents_sized hsized,
            logicalOf_mergedGroups hplan]
        have hne' : gs' ≠ [] := by
          rintro rfl
          have hzero := hlays'.groups
          have hlength := @length_mergedGroups front back g g2 _ hplan
            (h2.formed.each g2 List.mem_cons_self).nonempty
          have hgroups := hlays.groups
          rw [hzero, List.length_nil] at hgroups
          generalize mergePlan leaf from_ = plan at hplan hlength hgroups
          cases hplan with
          | apart =>
              dsimp only at hlength
              omega
          | whole hkeyhi hle =>
              dsimp only at hlength
              omega
          | part hkeyhi hlt hgt =>
              dsimp only at hlength
              omega
        exact Or.inl ⟨rfl, gs', ⟨hformed', hlays', hfields' hne', hfits, h.blocksize_lt⟩, hlogical⟩

/-- A merge with a leaf that follows passes its asserts. -/
theorem dleafMerge_returns (h : leaf.Stores blocksize gs) (h2 : from_.Stores blocksize gs2)
    (horder : AllBelow (logicalOf gs) (logicalOf gs2)) :
    ∃ r, dleafMerge leaf from_ blocksize = .ok r := by
  unfold dleafMerge
  rcases merge_cases h h2 with ⟨hzero2, rfl⟩ | ⟨hne2, hzero, rfl⟩ |
    ⟨hne2, hne, front, g, g2, back, rfl, rfl⟩
  · rw [if_pos hzero2]
    exact ⟨_, rfl⟩
  · rw [if_neg hne2, if_pos hzero]
    exact ⟨_, rfl⟩
  · rw [if_neg hne2, if_neg hne]
    split
    · exact ⟨_, rfl⟩
    · next hneed =>
        obtain ⟨hlays, hfields, hfits, hplan⟩ := joinedLeaf_lays h h2 hneed
        have hstores : (joinedLeaf leaf from_ blocksize).Stores blocksize _ :=
          ⟨mergedGroups_formed hplan h.formed h2.formed horder, hlays, hfields, hfits,
            h.blocksize_lt⟩
        exact ⟨_, bind_of_ok hstores.checked⟩

end Merge

end Tux3
