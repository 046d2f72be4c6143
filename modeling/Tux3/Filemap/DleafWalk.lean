/-
  Filemap/DleafWalk.lean --- the cursor of the first leaf format.

  A walk goes from extent to extent.  Its probe looks only into the last group whose high bits are
  those of the key, so that an extent that begins in an earlier group and reaches over the key is
  passed.
-/
import Tux3.Filemap.Dleaf

set_option autoImplicit false

namespace Tux3

open Outcome (bind_of_ok bind_of_error bind_eq_ok)
open Area (Holds holds_nil holds_cons holds_append)

/-! ## The code -/

/-- `struct dwalk`, less the leaf and the plan of `dwalk_mock`. -/
structure Dwalk where
  group : Nat
  gstop : Nat
  gdict : Nat
  entry : Nat
  estop : Nat
  exbase : Nat
  extent : Nat
  exstop : Nat
  deriving DecidableEq, Repr

/-- `dwalk_first`. -/
abbrev dwalkFirst (walk : Dwalk) : Prop := walk.extent = 0

/-- `dwalk_end`. -/
abbrev dwalkEnd (walk : Dwalk) : Prop := walk.extent = walk.exstop

/-- `dwalk_index`. -/
def dwalkIndex (leaf : Dleaf) (walk : Dwalk) : Nat :=
  getIndex (leaf.index walk.group) (leaf.index walk.entry)

/-- `dwalk_block`. -/
def dwalkBlock (leaf : Dleaf) (walk : Dwalk) : Nat := (leaf.table walk.extent).block

/-- `dwalk_count`. -/
def dwalkCount (leaf : Dleaf) (walk : Dwalk) : Nat := (leaf.table walk.extent).count

/-- `walk->entry + 1 == walk->estop + group_count(walk->group)`: the entry is the first one of
its group. -/
abbrev firstOfGroup (leaf : Dleaf) (walk : Dwalk) : Prop :=
  walk.entry + (leaf.index walk.group).top = walk.estop + 1

/-- `dwalk_check`. -/
def dwalkCheck (leaf : Dleaf) (walk : Dwalk) : Except TuxError Unit :=
  if leaf.groups = 0 then do
    tuxAssert (walk.group = walk.gstop)
    tuxAssert (walk.entry = walk.estop)
    tuxAssert (walk.exbase = walk.extent)
    tuxAssert (walk.extent = walk.exstop)
    tuxAssert (0 = walk.exstop)
  else if dwalkEnd walk then do
    tuxAssert (walk.group = walk.gstop)
    tuxAssert (walk.entry = walk.estop)
    tuxAssert (walk.exbase < walk.extent)
    tuxAssert (walk.extent = walk.exstop)
  else do
    tuxAssert (walk.group ≤ walk.gstop)
    tuxAssert (walk.entry ≤ walk.estop)
    tuxAssert (walk.exbase ≤ walk.extent)
    tuxAssert (walk.extent < walk.exstop)
    if firstOfGroup leaf walk then tuxAssert ((leaf.index walk.entry).top = 1)
    else tuxAssert ((leaf.index walk.entry).top = (leaf.index (walk.entry - 1)).top + 1)

/-- `dwalk_next` goes to the next group when the entry is the last one of its group. -/
def nextGroup (leaf : Dleaf) (walk : Dwalk) : Dwalk :=
  if walk.entry = walk.estop then
    { walk with
      group := walk.group + 1
      exbase := walk.exbase + (leaf.index walk.estop).top
      estop := walk.estop + (leaf.index (walk.group + 1)).top }
  else walk

/-- `dwalk_next` goes to the next entry. -/
def nextEntry (leaf : Dleaf) (walk : Dwalk) : Dwalk :=
  { walk with
    entry := walk.entry + 1
    exstop := walk.exbase + (leaf.index (walk.entry + 1)).top }

/-- `dwalk_next`. -/
def dwalkNext (leaf : Dleaf) (walk : Dwalk) : Except TuxError (Dwalk × Nat) :=
  if dwalkEnd walk then return (walk, 0)
  else
    let walk := { walk with extent := walk.extent + 1 }
    if walk.extent = walk.exstop then
      if walk.entry = walk.estop ∧ walk.group = walk.gstop then return (walk, 0)
      else do
        let walk := nextEntry leaf (nextGroup leaf walk)
        dwalkCheck leaf walk
        return (walk, 1)
    else do
      dwalkCheck leaf walk
      return (walk, 1)

/-- `dwalk_back` goes to the group before when the extent is in front of its group. -/
def backGroup (leaf : Dleaf) (walk : Dwalk) : Dwalk :=
  if walk.extent < walk.exbase then
    { walk with
      group := walk.group - 1
      estop := walk.entry - 1
      exbase := walk.exbase - (leaf.index (walk.entry - 1)).top }
  else walk

/-- `dwalk_back` goes to the entry before. -/
def backEntry (leaf : Dleaf) (walk : Dwalk) : Dwalk :=
  { walk with
    entry := walk.entry - 1
    exstop := walk.exbase + (leaf.index (walk.entry - 1)).top }

/-- `dwalk_back`. -/
def dwalkBack (leaf : Dleaf) (walk : Dwalk) : Except TuxError (Dwalk × Nat) :=
  if dwalkFirst walk then return (walk, 0)
  else
    let entryExbase :=
      if firstOfGroup leaf walk then walk.exbase
      else walk.exbase + (leaf.index (walk.entry - 1)).top
    let walk := { walk with extent := walk.extent - 1 }
    if walk.extent < entryExbase then
      if walk.extent < walk.exbase ∧ walk.group = walk.gdict then return (walk, 1)
      else do
        let walk := backEntry leaf (backGroup leaf walk)
        dwalkCheck leaf walk
        return (walk, 1)
    else do
      dwalkCheck leaf walk
      return (walk, 1)

/-- Where the loop of `dwalk_probe` over the groups goes to. -/
inductive ProbeStop
  | noGroup
  | probeEntry
  | passed
  deriving DecidableEq, Repr

/-- The loop of `dwalk_probe` over the groups. -/
def probeGroups (leaf : Dleaf) (keyhi keylo : Nat) : Nat → Dwalk → ProbeStop × Dwalk
  | 0, walk => (.passed, walk)
  | n + 1, walk =>
      if walk.group < walk.gstop then
        let word := leaf.index (walk.group + 1)
        let walk := { walk with
          group := walk.group + 1
          entry := walk.estop + 1
          estop := walk.estop + word.top }
        if keyhi < word.key then (.noGroup, walk)
        else if word.key = keyhi ∧ keylo < (leaf.index walk.entry).key then (.noGroup, walk)
        else if word.key = keyhi ∧ (walk.group = walk.gstop ∨
            keyhi < (leaf.index (walk.group + 1)).key ∨
            keylo < (leaf.index (walk.estop + 1)).key) then (.probeEntry, walk)
        else probeGroups leaf keyhi keylo n
          { walk with exbase := walk.exbase + (leaf.index walk.estop).top }
      else (.passed, walk)

/-- The loop of `dwalk_probe` over the entries of a group. -/
def probeEntries (leaf : Dleaf) (keylo : Nat) : Nat → Dwalk → Dwalk
  | 0, walk => walk
  | n + 1, walk =>
      if walk.entry < walk.estop then
        if keylo < (leaf.index (walk.entry + 1)).key then walk
        else probeEntries leaf keylo n
          { walk with
            entry := walk.entry + 1
            extent := walk.exstop
            exstop := walk.exbase + (leaf.index (walk.entry + 1)).top }
      else walk

/-- The end of `dwalk_probe`: the entry has the extent of the key, or the next one is taken. -/
def probeExtent (leaf : Dleaf) (key : Nat) (walk : Dwalk) : Except TuxError (Dwalk × Nat) :=
  if key < dwalkIndex leaf walk + dwalkCount leaf walk then return (walk, 1)
  else do
    let (walk, _) ← dwalkNext leaf walk
    return (walk, if dwalkEnd walk then 0 else 1)

/-- The walk that `dwalk_probe` begins with, in a leaf of so many groups. -/
def dwalkStart (groups : Nat) : Dwalk where
  group := 0
  gstop := groups
  gdict := 0
  entry := groups
  estop := groups
  exbase := 0
  extent := 0
  exstop := 0

/-- `dwalk_probe`.  The keys are of 64 bits, and `keyhi` of 32. -/
def dwalkProbe (leaf : Dleaf) (key : Nat) : Except TuxError (Dwalk × Nat) :=
  let keylo := key % 2 ^ 24
  let keyhi := key / 2 ^ 24 % 2 ^ 32
  let walk := dwalkStart leaf.groups
  if leaf.groups = 0 then do
    dwalkCheck leaf walk
    return (walk, 0)
  else
    match probeGroups leaf keyhi keylo leaf.groups walk with
    | (.passed, walk) => do
        let walk := { walk with
          entry := walk.estop
          exstop := walk.exbase
          extent := walk.exbase
          exbase := walk.exbase - (leaf.index walk.estop).top }
        dwalkCheck leaf walk
        return (walk, 0)
    | (.noGroup, walk) => do
        let walk := { walk with
          extent := walk.exbase
          exstop := walk.exbase + (leaf.index walk.entry).top }
        dwalkCheck leaf walk
        return (walk, 1)
    | (.probeEntry, walk) =>
        probeExtent leaf key <| probeEntries leaf keylo (walk.estop - walk.entry)
          { walk with
            extent := walk.exbase
            exstop := walk.exbase + (leaf.index walk.entry).top }

/-! ## Positions -/

theorem logicalOf_getElem {front back : List LeafGroup} {g : LeafGroup} {k : Nat}
    (hk : k < g.entries.length) :
    (logicalOf (front ++ g :: back))[entryCount front + k]? =
      some (g.keyhi * 2 ^ 24 + g.entries[k].1, g.entries[k].2) := by
  have hle : (logicalOf front).length ≤ entryCount front + k := by
    rw [length_logicalOf]
    exact Nat.le_add_right _ _
  rw [logicalOf_append, logicalOf_cons, List.getElem?_append_right hle, length_logicalOf,
    Nat.add_sub_cancel_left, List.getElem?_append_left (by rw [LeafGroup.length_logical]; exact hk)]
  unfold LeafGroup.logical
  rw [List.getElem?_map, List.getElem?_eq_getElem hk]
  rfl

/-- The walk on the entry `k` of the group that follows `front`. -/
def walkAt (groups : Nat) (front : List LeafGroup) (g : LeafGroup) (k : Nat) : Dwalk where
  group := front.length + 1
  gstop := groups
  gdict := 0
  entry := groups + entryCount front + (k + 1)
  estop := groups + entryCount front + g.entries.length
  exbase := entryCount front
  extent := entryCount front + k
  exstop := entryCount front + (k + 1)

/-- The walk at the end of the leaf, whose last group is `g`. -/
def walkEnd (groups : Nat) (front : List LeafGroup) (g : LeafGroup) : Dwalk where
  group := front.length + 1
  gstop := groups
  gdict := 0
  entry := groups + entryCount front + g.entries.length
  estop := groups + entryCount front + g.entries.length
  exbase := entryCount front
  extent := entryCount front + g.entries.length
  exstop := entryCount front + g.entries.length

/-- The walk is at position `i`: on the extent of this number, or at the end. -/
inductive WalkPos (gs : List LeafGroup) : Dwalk → Nat → Prop
  | inside (front : List LeafGroup) (g : LeafGroup) (back : List LeafGroup) (k : Nat)
      (heq : gs = front ++ g :: back) (hk : k < g.entries.length) :
      WalkPos gs (walkAt gs.length front g k) (entryCount front + k)
  | atEnd (front : List LeafGroup) (g : LeafGroup) (heq : gs = front ++ [g]) :
      WalkPos gs (walkEnd gs.length front g) (entryCount gs)
  | empty (heq : gs = []) : WalkPos gs (dwalkStart 0) 0

section Positions

variable {leaf : Dleaf} {gs front back : List LeafGroup} {g : LeafGroup} {k i : Nat} {walk : Dwalk}

variable (hformed : GroupsFormed (front ++ g :: back)) (hlays : leaf.Lays (front ++ g :: back))

include hlays

theorem Dleaf.Lays.word_eq : leaf.index (front.length + 1) = g.word := by
  have hwords := hlays.words
  rw [List.map_append, List.map_cons, holds_append, List.length_map] at hwords
  rw [Nat.add_comm]
  exact hwords.2.1

theorem Dleaf.Lays.entries_of :
    Holds leaf.index ((front ++ g :: back).length + entryCount front + 1)
      (entryWords 0 g.entries) := by
  have hentries := hlays.entries
  rw [indexWords_append, indexWords_cons, holds_append, holds_append, length_indexWords,
    Nat.add_right_comm] at hentries
  exact hentries.2.1

theorem Dleaf.Lays.table_of : Holds leaf.table (entryCount front) (g.entries.map Prod.snd) := by
  have htable := hlays.table
  rw [tableOf_append, tableOf_cons, holds_append, holds_append, length_tableOf,
    Nat.zero_add] at htable
  exact htable.2.1

theorem Dleaf.Lays.table_eq (hk : k < g.entries.length) :
    leaf.table (entryCount front + k) = g.entries[k].2 := by
  have hval := hlays.table_of.eq_getElem (k := k) (by rw [List.length_map]; exact hk)
  rw [hval, List.getElem_map]

include hformed

/-- The word of an entry holds the number of extents of its group up to its own. -/
theorem Dleaf.Lays.entry_top (hk : k < g.entries.length) :
    (leaf.index ((front ++ g :: back).length + entryCount front + (k + 1))).top = k + 1 := by
  have hg := hformed.each g (List.mem_append_right _ List.mem_cons_self)
  have hmax : maxGroupEntries = 255 := rfl
  have hle := hg.length_le
  have hval := hlays.entries_of.eq_getElem (k := k) (by rw [length_entryWords]; exact hk)
  rw [Nat.add_assoc _ 1 k, Nat.add_comm 1 k] at hval
  rw [hval, getElem_entryWords, indexWord_top _ (by omega), Nat.zero_add]

theorem Dleaf.Lays.entry_key (hk : k < g.entries.length) :
    (leaf.index ((front ++ g :: back).length + entryCount front + (k + 1))).key =
      g.entries[k].1 := by
  have hg := hformed.each g (List.mem_append_right _ List.mem_cons_self)
  have hval := hlays.entries_of.eq_getElem (k := k) (by rw [length_entryWords]; exact hk)
  rw [Nat.add_assoc _ 1 k, Nat.add_comm 1 k] at hval
  rw [hval, getElem_entryWords, indexWord_key _ (hg.keylo_lt _ (List.get_mem _ _))]
  rfl

theorem Dleaf.Lays.group_top : (leaf.index (front.length + 1)).top = g.entries.length := by
  rw [hlays.word_eq]
  exact (hformed.each g (List.mem_append_right _ List.mem_cons_self)).word_top

theorem Dleaf.Lays.group_key : (leaf.index (front.length + 1)).key = g.keyhi := by
  rw [hlays.word_eq]
  exact (hformed.each g (List.mem_append_right _ List.mem_cons_self)).word_key

/-- The last limit of a group. -/
theorem Dleaf.Lays.stop_top :
    (leaf.index ((front ++ g :: back).length + entryCount front + g.entries.length)).top =
      g.entries.length := by
  have hg := hformed.each g (List.mem_append_right _ List.mem_cons_self)
  obtain ⟨m, hm⟩ := Nat.exists_eq_succ_of_ne_zero (Nat.ne_of_gt hg.length_pos)
  have htop := hlays.entry_top hformed (k := m) (by omega)
  rw [hm]
  exact htop

/-- The asserts of `dwalk_check` hold on an extent. -/
theorem dwalkCheck_walkAt (hk : k < g.entries.length) :
    dwalkCheck leaf (walkAt (front ++ g :: back).length front g k) = .ok () := by
  have hgroups : leaf.groups ≠ 0 := by
    rw [hlays.groups, List.length_append, List.length_cons]
    omega
  have htop := hlays.entry_top hformed hk
  have hlen : front.length + 1 ≤ (front ++ g :: back).length := by
    rw [List.length_append, List.length_cons]
    omega
  have hend : ¬ dwalkEnd (walkAt (front ++ g :: back).length front g k) := by
    unfold dwalkEnd walkAt
    dsimp only
    omega
  unfold dwalkCheck
  rw [if_neg hgroups, if_neg hend]
  refine (bind_of_ok (tuxAssert_of hlen)).trans ?_
  refine (bind_of_ok (tuxAssert_of (Nat.add_le_add_left hk _))).trans ?_
  refine (bind_of_ok (tuxAssert_of (Nat.le_add_right _ k))).trans ?_
  refine (bind_of_ok (tuxAssert_of (Nat.lt_succ_self _))).trans ?_
  unfold firstOfGroup
  split
  · next hfirst =>
      refine tuxAssert_of ?_
      dsimp only [walkAt] at hfirst ⊢
      rw [hlays.group_top hformed] at hfirst
      rw [htop]
      omega
  · next hfirst =>
      refine tuxAssert_of ?_
      dsimp only [walkAt] at hfirst ⊢
      rw [hlays.group_top hformed] at hfirst
      cases k with
      | zero => omega
      | succ k =>
          have hprev := hlays.entry_top hformed (k := k) (by omega)
          rw [htop, show (front ++ g :: back).length + entryCount front + (k + 1 + 1) - 1 =
            (front ++ g :: back).length + entryCount front + (k + 1) by omega, hprev]

/-- The asserts of `dwalk_check` hold at the end. -/
theorem dwalkCheck_walkEnd (hback : back = []) :
    dwalkCheck leaf (walkEnd (front ++ g :: back).length front g) = .ok () := by
  have hg := hformed.each g (List.mem_append_right _ List.mem_cons_self)
  have hpos := hg.length_pos
  have hgroups : leaf.groups ≠ 0 := by
    rw [hlays.groups, List.length_append, List.length_cons]
    omega
  have hlen : front.length + 1 = (front ++ g :: back).length := by
    rw [hback, List.length_append, List.length_singleton]
  have hend : dwalkEnd (walkEnd (front ++ g :: back).length front g) := rfl
  unfold dwalkCheck
  rw [if_neg hgroups, if_pos hend]
  refine (bind_of_ok (tuxAssert_of hlen)).trans ?_
  refine (bind_of_ok (tuxAssert_of rfl)).trans ?_
  refine (bind_of_ok (tuxAssert_of (Nat.lt_add_of_pos_right hpos))).trans ?_
  exact tuxAssert_of rfl

omit hlays hformed in
/-- `dwalk_next` goes on to another entry. -/
theorem dwalkNext_of {walk' : Dwalk} (hend : ¬ dwalkEnd walk) (hstop : walk.extent + 1 = walk.exstop)
    (hlast : ¬(walk.entry = walk.estop ∧ walk.group = walk.gstop))
    (hmoved : nextEntry leaf (nextGroup leaf { walk with extent := walk.extent + 1 }) = walk')
    (hcheck : dwalkCheck leaf walk' = .ok ()) : dwalkNext leaf walk = .ok (walk', 1) := by
  unfold dwalkNext
  rw [if_neg hend]
  dsimp only
  rw [if_pos hstop, if_neg hlast, hmoved, bind_of_ok hcheck]
  rfl

omit hlays hformed in
/-- `dwalk_back` goes back to another entry. -/
theorem dwalkBack_of {walk' : Dwalk} {entryExbase : Nat} (hfirst : ¬ dwalkFirst walk)
    (hbase : (if firstOfGroup leaf walk then walk.exbase
      else walk.exbase + (leaf.index (walk.entry - 1)).top) = entryExbase)
    (hlt : walk.extent - 1 < entryExbase)
    (hdict : ¬(walk.extent - 1 < walk.exbase ∧ walk.group = walk.gdict))
    (hmoved : backEntry leaf (backGroup leaf { walk with extent := walk.extent - 1 }) = walk')
    (hcheck : dwalkCheck leaf walk' = .ok ()) : dwalkBack leaf walk = .ok (walk', 1) := by
  unfold dwalkBack
  rw [if_neg hfirst, hbase]
  dsimp only
  rw [if_pos hlt, if_neg hdict, hmoved, bind_of_ok hcheck]
  rfl

/-- `dwalk_next` within a group. -/
theorem dwalkNext_entry (hk : k + 1 < g.entries.length) :
    dwalkNext leaf (walkAt (front ++ g :: back).length front g k) =
      .ok (walkAt (front ++ g :: back).length front g (k + 1), 1) := by
  have htop := hlays.entry_top hformed hk
  have hestop : (front ++ g :: back).length + entryCount front + (k + 1) ≠
      (front ++ g :: back).length + entryCount front + g.entries.length := by
    omega
  refine dwalkNext_of ?_ rfl (fun h => hestop h.1) ?_ (dwalkCheck_walkAt hformed hlays hk)
  · exact Nat.ne_of_lt (Nat.lt_succ_self _)
  · dsimp only [nextEntry, nextGroup, walkAt]
    rw [if_neg hestop, Nat.add_assoc _ (k + 1) 1, htop]
    rfl

/-- `dwalk_next` to the next group. -/
theorem dwalkNext_group {g' : LeafGroup} {rest : List LeafGroup}
    (hk : k + 1 = g.entries.length) (hback : back = g' :: rest) :
    dwalkNext leaf (walkAt (front ++ g :: back).length front g k) =
      .ok (walkAt (front ++ g :: back).length (front ++ [g]) g' 0, 1) := by
  subst hback
  have hstop := hlays.stop_top hformed
  have heq : front ++ g :: g' :: rest = (front ++ [g]) ++ g' :: rest := List.append_cons _ _ _
  have hcount : entryCount (front ++ [g]) = entryCount front + g.entries.length := by
    rw [entryCount_concat]
  generalize hlen : (front ++ g :: g' :: rest).length = groups at *
  rw [heq] at hformed hlays hlen
  have hpos := (hformed.each g' (List.mem_append_right _ List.mem_cons_self)).length_pos
  have hword := hlays.group_top hformed
  have htop := hlays.entry_top hformed hpos
  rw [hlen, hcount] at htop
  rw [List.length_append, List.length_singleton] at hword
  have hlt : front.length + 1 < groups := by
    rw [← hlen, List.length_append, List.length_append, List.length_singleton, List.length_cons]
    omega
  refine dwalkNext_of ?_ rfl (fun h => Nat.ne_of_lt hlt h.2) ?_ ?_
  · exact Nat.ne_of_lt (Nat.lt_succ_self _)
  · dsimp only [nextEntry, nextGroup, walkAt]
    rw [hk, if_pos rfl, hstop, hword, hcount, List.length_append, List.length_singleton]
    simp only [Nat.add_assoc] at htop ⊢
    rw [htop, hk]
    rfl
  · have hcheck := dwalkCheck_walkAt hformed hlays hpos
    rw [hlen] at hcheck
    exact hcheck

omit hlays hformed in
/-- `dwalk_next` at the last extent. -/
theorem dwalkNext_last (hk : k + 1 = g.entries.length) (hback : back = []) :
    dwalkNext leaf (walkAt (front ++ g :: back).length front g k) =
      .ok (walkEnd (front ++ g :: back).length front g, 0) := by
  have hlen : front.length + 1 = (front ++ g :: back).length := by
    rw [hback, List.length_append, List.length_singleton]
  have hend : ¬ dwalkEnd (walkAt (front ++ g :: back).length front g k) :=
    Nat.ne_of_lt (Nat.lt_succ_self _)
  have hstop : entryCount front + k + 1 = entryCount front + (k + 1) := rfl
  unfold dwalkNext
  rw [if_neg hend]
  refine (if_pos hstop).trans ((if_pos ⟨?_, hlen⟩).trans ?_)
  · dsimp only [walkAt, walkEnd]
    rw [hstop, hk]
    rfl
  · dsimp only [walkAt]
    rw [hk]

omit hlays hformed in
/-- `dwalk_next` does nothing at the end. -/
theorem dwalkNext_end (hend : dwalkEnd walk) : dwalkNext leaf walk = .ok (walk, 0) := by
  unfold dwalkNext
  exact if_pos hend

/-- `dwalk_back` within a group. -/
theorem dwalkBack_entry (hk : k + 1 < g.entries.length) :
    dwalkBack leaf (walkAt (front ++ g :: back).length front g (k + 1)) =
      .ok (walkAt (front ++ g :: back).length front g k, 1) := by
  have htop := hlays.entry_top hformed (Nat.lt_of_succ_lt hk)
  have hword := hlays.group_top hformed
  have hgroup : ¬ firstOfGroup leaf (walkAt (front ++ g :: back).length front g (k + 1)) := by
    dsimp only [firstOfGroup, walkAt]
    rw [hword]
    omega
  refine dwalkBack_of ?_ (if_neg hgroup) ?_ ?_ ?_
    (dwalkCheck_walkAt hformed hlays (Nat.lt_of_succ_lt hk))
  · exact Nat.succ_ne_zero _
  · dsimp only [walkAt]
    rw [show (front ++ g :: back).length + entryCount front + (k + 1 + 1) - 1 =
      (front ++ g :: back).length + entryCount front + (k + 1) from rfl, htop]
    omega
  · dsimp only [walkAt]
    omega
  · dsimp only [backEntry, backGroup, walkAt]
    rw [if_neg (show ¬ entryCount front + (k + 1) - 1 < entryCount front by omega),
      show (front ++ g :: back).length + entryCount front + (k + 1 + 1) - 1 =
      (front ++ g :: back).length + entryCount front + (k + 1) from rfl, htop]
    rfl

/-- `dwalk_back` to the group before. -/
theorem dwalkBack_group {g' : LeafGroup} {rest : List LeafGroup}
    (hk : k + 1 = g.entries.length) (hback : back = g' :: rest) :
    dwalkBack leaf (walkAt (front ++ g :: back).length (front ++ [g]) g' 0) =
      .ok (walkAt (front ++ g :: back).length front g k, 1) := by
  have hcheck := dwalkCheck_walkAt hformed hlays (Nat.lt_of_succ_le (Nat.le_of_eq hk))
  subst hback
  have hstop := hlays.stop_top hformed
  have heq : front ++ g :: g' :: rest = (front ++ [g]) ++ g' :: rest := List.append_cons _ _ _
  have hcount : entryCount (front ++ [g]) = entryCount front + g.entries.length := by
    rw [entryCount_concat]
  generalize hlen : (front ++ g :: g' :: rest).length = groups at *
  rw [heq] at hformed hlays
  have hword := hlays.group_top hformed
  have hgroup : firstOfGroup leaf (walkAt groups (front ++ [g]) g' 0) := by
    dsimp only [firstOfGroup, walkAt]
    rw [hword]
    omega
  refine dwalkBack_of ?_ (if_pos hgroup) ?_ ?_ ?_ hcheck
  · dsimp only [dwalkFirst, walkAt]
    omega
  · dsimp only [walkAt]
    omega
  · dsimp only [walkAt]
    exact fun h => Nat.succ_ne_zero _ h.2
  · dsimp only [backEntry, backGroup, walkAt]
    rw [if_pos (show entryCount (front ++ [g]) + 0 - 1 < entryCount (front ++ [g]) by omega),
      hcount, List.length_append, List.length_singleton]
    dsimp only
    rw [show groups + (entryCount front + g.entries.length) + (0 + 1) - 1 =
      groups + entryCount front + g.entries.length by omega, hstop]
    simp only [Nat.add_sub_cancel, Nat.add_zero]
    rw [← hk]
    rfl

/-- `dwalk_back` from the end. -/
theorem dwalkBack_walkEnd (hk : k + 1 = g.entries.length) :
    dwalkBack leaf (walkEnd (front ++ g :: back).length front g) =
      .ok (walkAt (front ++ g :: back).length front g k, 1) := by
  have hword := hlays.group_top hformed
  have hcheck := dwalkCheck_walkAt hformed hlays (Nat.lt_of_succ_le (Nat.le_of_eq hk))
  have hfirst : ¬ dwalkFirst (walkEnd (front ++ g :: back).length front g) := by
    dsimp only [dwalkFirst, walkEnd]
    omega
  have hmoved : { walkEnd (front ++ g :: back).length front g with
      extent := entryCount front + g.entries.length - 1 } =
      walkAt (front ++ g :: back).length front g k := by
    dsimp only [walkEnd, walkAt]
    rw [← hk]
    rfl
  have hbase : ¬ entryCount front + g.entries.length - 1 <
      (if firstOfGroup leaf (walkEnd (front ++ g :: back).length front g)
        then (walkEnd (front ++ g :: back).length front g).exbase
        else (walkEnd (front ++ g :: back).length front g).exbase +
          (leaf.index ((walkEnd (front ++ g :: back).length front g).entry - 1)).top) := by
    split
    · dsimp only [walkEnd]
      omega
    · next hgroup =>
        dsimp only [firstOfGroup, walkEnd] at hgroup ⊢
        rw [hword] at hgroup
        cases k with
        | zero => omega
        | succ k =>
            have htop := hlays.entry_top hformed (k := k) (by omega)
            rw [show (front ++ g :: back).length + entryCount front + g.entries.length - 1 =
              (front ++ g :: back).length + entryCount front + (k + 1) by omega, htop]
            omega
  unfold dwalkBack
  rw [if_neg hfirst]
  refine (if_neg hbase).trans ?_
  refine (congrArg (fun walk => do dwalkCheck leaf walk; return (walk, 1)) hmoved).trans ?_
  exact bind_of_ok hcheck

end Positions

section Steps

variable {leaf : Dleaf} {gs : List LeafGroup} {i : Nat} {walk : Dwalk}

theorem WalkPos.extent_eq (h : WalkPos gs walk i) : walk.extent = i := by
  cases h with
  | inside front g back k heq hk => rfl
  | atEnd front g heq =>
      rw [heq, entryCount_concat]
      rfl
  | empty heq => rfl

theorem WalkPos.end_iff (h : WalkPos gs walk i) : dwalkEnd walk ↔ i = entryCount gs := by
  cases h with
  | inside front g back k heq hk =>
      rw [heq, entryCount_append, entryCount_cons]
      exact iff_of_false (Nat.ne_of_lt (Nat.lt_succ_self _)) (by omega)
  | atEnd front g heq => exact iff_of_true rfl rfl
  | empty heq =>
      rw [heq]
      exact iff_of_true rfl rfl

theorem WalkPos.le (h : WalkPos gs walk i) : i ≤ entryCount gs := by
  cases h with
  | inside front g back k heq hk =>
      rw [heq, entryCount_append, entryCount_cons]
      omega
  | atEnd front g heq => exact Nat.le_refl _
  | empty heq => exact Nat.zero_le _

variable (hformed : GroupsFormed gs) (hlays : leaf.Lays gs)

include hformed hlays

/-- The walk reads the extent that it is on. -/
theorem WalkPos.reads (h : WalkPos gs walk i) (hi : i < entryCount gs) :
    (logicalOf gs)[i]? = some (dwalkIndex leaf walk, leaf.table walk.extent) := by
  cases h with
  | inside front g back k heq hk =>
      subst heq
      have hkey := hlays.group_key hformed
      have hentry := hlays.entry_key hformed hk
      have htable := hlays.table_eq hk
      rw [logicalOf_getElem hk]
      unfold dwalkIndex
      rw [getIndex_eq]
      dsimp only [walkAt]
      rw [hkey, hentry, htable]
  | atEnd front g heq => exact absurd hi (Nat.lt_irrefl _)
  | empty heq =>
      rw [heq] at hi
      exact absurd hi (Nat.lt_irrefl 0)

/-- `dwalk_next` goes to the next position, and `dwalk_back` comes back from there. -/
theorem WalkPos.step (h : WalkPos gs walk i) (hi : i < entryCount gs) :
    ∃ walk', dwalkNext leaf walk = .ok (walk', if i + 1 < entryCount gs then 1 else 0) ∧
      WalkPos gs walk' (i + 1) ∧ dwalkBack leaf walk' = .ok (walk, 1) := by
  cases h with
  | inside front g back k heq hk =>
      subst heq
      have hcount : entryCount (front ++ g :: back) =
          entryCount front + (g.entries.length + entryCount back) := by
        rw [entryCount_append, entryCount_cons]
      rcases Nat.lt_or_ge (k + 1) g.entries.length with hlt | hge
      · refine ⟨_, ?_, .inside front g back (k + 1) rfl hlt, dwalkBack_entry hformed hlays hlt⟩
        rw [if_pos (by omega)]
        exact dwalkNext_entry hformed hlays hlt
      have hlast : k + 1 = g.entries.length := Nat.le_antisymm hk hge
      cases hback : back with
      | nil =>
          rw [hback, entryCount_nil] at hcount
          subst hback
          refine ⟨walkEnd (front ++ [g]).length front g, ?_, ?_,
            dwalkBack_walkEnd hformed hlays hlast⟩
          · rw [if_neg (by omega)]
            exact dwalkNext_last hlast rfl
          · rw [show entryCount front + k + 1 = entryCount (front ++ [g]) by omega]
            exact .atEnd front g rfl
      | cons g' rest =>
          subst hback
          have hpos := (hformed.each g' (List.mem_append_right _
            (List.mem_cons_of_mem _ List.mem_cons_self))).length_pos
          have hfront : entryCount (front ++ [g]) = entryCount front + k + 1 := by
            rw [entryCount_concat]
            omega
          refine ⟨_, ?_, ?_, dwalkBack_group hformed hlays hlast rfl⟩
          · rw [entryCount_cons] at hcount
            rw [if_pos (by omega)]
            exact dwalkNext_group hformed hlays hlast rfl
          · rw [← hfront]
            exact .inside (front ++ [g]) g' rest 0 (List.append_cons _ _ _) hpos
  | atEnd front g heq => exact absurd hi (Nat.lt_irrefl _)
  | empty heq =>
      rw [heq] at hi
      exact absurd hi (Nat.lt_irrefl 0)

/-- `dwalk_back` goes to the position before, and stays at the first one. -/
theorem WalkPos.stepBack (h : WalkPos gs walk i) :
    ∃ walk' ret, dwalkBack leaf walk = .ok (walk', ret) ∧ WalkPos gs walk' (i - 1) := by
  have hextent := h.extent_eq
  rcases Nat.eq_zero_or_pos i with rfl | hi
  · refine ⟨walk, 0, ?_, h⟩
    unfold dwalkBack
    exact if_pos hextent
  · cases h with
    | inside front g back k heq hk =>
        subst heq
        cases k with
        | succ k =>
            exact ⟨_, 1, dwalkBack_entry hformed hlays hk,
              .inside front g back k rfl (Nat.lt_of_succ_lt hk)⟩
        | zero =>
            rcases List.eq_nil_or_concat front with rfl | ⟨front', g', rfl⟩
            · exact absurd hi (Nat.lt_irrefl 0)
            · rw [List.concat_eq_append] at hformed hlays ⊢
              rw [← List.append_cons] at hformed hlays ⊢
              have hpos := (hformed.each g' (List.mem_append_right _ List.mem_cons_self)).length_pos
              refine ⟨_, 1, dwalkBack_group hformed hlays (Nat.sub_add_cancel hpos) rfl, ?_⟩
              rw [entryCount_concat, Nat.add_zero, Nat.add_sub_assoc hpos]
              exact .inside front' g' (g :: back) _ rfl (Nat.sub_lt hpos Nat.one_pos)
    | atEnd front g heq =>
        subst heq
        have hpos := (hformed.each g (List.mem_append_right _ (List.mem_singleton_self g))).length_pos
        refine ⟨_, 1, dwalkBack_walkEnd hformed hlays (Nat.sub_add_cancel hpos), ?_⟩
        rw [entryCount_concat, Nat.add_sub_assoc hpos]
        exact .inside front g [] _ rfl (Nat.sub_lt hpos Nat.one_pos)
    | empty heq => exact absurd hi (Nat.lt_irrefl 0)

end Steps

end Tux3
