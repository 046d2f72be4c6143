/-
  Filemap/Dleaf2Merge.lean --- splits and merges of the leaves of the file index.

  A split is at the last entry that is not behind the hint, which can be the one at the bottom.  A
  merge drops the sentinel of the left leaf or the hole at the start of the right one where there
  are both, but it makes no sentinel for a left leaf without entries.
-/
import Tux3.Btree.Node
import Tux3.Filemap.Dleaf2Read

set_option autoImplicit false

namespace Tux3

open Outcome (bind_of_ok bind_of_error bind_eq_ok)
open StepTable (Ascending lastAt)

section

variable {leaf into : Dleaf2} {front back rest entries : List DiskExtent} {ex first sentinel : DiskExtent}
  {entriesPerLeaf bottom mid limit hint : Nat}

/-! ## Leaves that are built -/

/-- A leaf whose entries are known. -/
theorem Dleaf2.Ok.of_entries (hentries : leaf.entries = front ++ [sentinel])
    (hmemory : leaf.table.length = entriesPerLeaf) (hcount : leaf.count ≤ entriesPerLeaf)
    (hasc : Ascending DiskExtent.logical (front ++ [sentinel]))
    (hfirst : ∀ ex, (front ++ [sentinel]).head? = some ex → ex.logical ≤ bottom)
    (hhole : sentinel.physical = 0) (hlimit : sentinel.logical ≤ limit) :
    leaf.Ok entriesPerLeaf bottom limit := by
  refine ⟨hmemory, hcount, hentries ▸ hasc, hentries ▸ hfirst, fun ex hex => ?_⟩
  rw [hentries, List.getLast?_append] at hex
  obtain rfl := Option.some.inj hex
  exact ⟨hhole, hlimit⟩

/-- A leaf without entries. -/
theorem Dleaf2.Ok.of_empty (hcount : leaf.count = 0) (hmemory : leaf.table.length = entriesPerLeaf) :
    leaf.Ok entriesPerLeaf bottom limit := by
  have hnil : leaf.entries = [] := by
    unfold Dleaf2.entries
    rw [hcount, List.take_zero]
  refine ⟨hmemory, hcount ▸ Nat.zero_le _, hnil ▸ List.Pairwise.nil, fun ex hex => ?_,
    fun ex hex => ?_⟩
  · rw [hnil] at hex
    exact absurd hex.symm (Option.some_ne_none _)
  · rw [hnil] at hex
    exact absurd hex.symm (Option.some_ne_none _)

/-- A part of one table is copied behind the first entries of another one. -/
theorem memcpyExtents_spec {table source : List DiskExtent} {dst src size : Nat}
    (hdst : dst + size ≤ table.length) (hsrc : src + size ≤ source.length) :
    ∃ copied, memcpyExtents table dst source src size = .ok copied ∧
      copied.length = table.length ∧
      copied.take (dst + size) = table.take dst ++ (source.drop src).take size := by
  refine ⟨_, if_pos ⟨hdst, hsrc⟩, ?_, ?_⟩
  · rw [List.length_append, List.length_append, List.length_take, List.length_take,
      List.length_drop, List.length_drop]
    omega
  · refine List.take_left' ?_
    rw [List.length_append, List.length_take, List.length_take, List.length_drop]
    omega

/-! ## `dleaf2_split` -/

/-- What a split is to do: the key is inside the range, and the leaves read like the one that was
split on both sides of it. -/
def SplitsRight (leaf into : Dleaf2) (entriesPerLeaf bottom limit hint : Nat) : Prop :=
  ∃ key left right, dleaf2Split hint leaf into = .ok (key, left, right) ∧
    bottom < key ∧ key < limit ∧
    left.Ok entriesPerLeaf bottom key ∧ left.Reads bottom key (extentMap leaf.entries) ∧
    right.Ok entriesPerLeaf key limit ∧ right.Reads key limit (extentMap leaf.entries)

/-- The condition: the last entry that is not behind the hint is inside the range. -/
def SplitInside (entries : List DiskExtent) (bottom limit hint : Nat) : Prop :=
  ∃ ex, lastAt DiskExtent.logical entries hint = some ex ∧ bottom < ex.logical ∧
    ex.logical < limit

section Split

variable (h : leaf.Ok entriesPerLeaf bottom limit) (hcount : 3 ≤ leaf.count)
include h hcount

/-- The two leaves of a split. -/
theorem dleaf2Split_at (hinto : into.Ok entriesPerLeaf bottom limit) (hempty : into.count = 0)
    (hentries : leaf.entries = front ++ ex :: back) (hle : ex.logical ≤ hint)
    (hback : ∀ b ∈ back, hint < b.logical) :
    ∃ left right, dleaf2Split hint leaf into = .ok (ex.logical, left, right) ∧
      left.entries = front ++ [diskExtent ex.logical 0] ∧
      left.table.length = entriesPerLeaf ∧ left.count ≤ entriesPerLeaf ∧
      right.table.length = entriesPerLeaf ∧ right.count ≤ entriesPerLeaf ∧
      (right.entries = ex :: back ∨ back = [] ∧ right.count = 0) := by
  have hlength := h.entries_length
  have hmax := h.count_le
  have hend : leaf.count = front.length + (back.length + 1) := by
    rw [← hlength, hentries, List.length_append, List.length_cons]
  unfold dleaf2Split
  rw [bind_of_ok (tuxAssert_of hcount)]
  by_cases hbehind : back = [] ∧ ex.logical < hint
  · obtain ⟨hnil, hlt⟩ := hbehind
    have hlast : leaf.entries.getLast? = some ex := by
      rw [hentries, hnil, List.getLast?_append]
      rfl
    have hhole := (h.last ex hlast).1
    have hself : diskExtent ex.logical 0 = ex := by
      rw [← hhole]
      exact diskExtent_self ex
    refine ⟨leaf, into, ?_, ?_, h.memory, hmax, hinto.memory, hinto.count_le, .inr ⟨hnil, hempty⟩⟩
    · rw [bind_of_ok (dleaf2LookupIndex_behind hentries hlength h.ascending hnil hlt hhole),
        if_pos rfl, bind_of_ok (getExtent_of_entries hentries (by rw [hend, hnil]; rfl)),
        bind_of_ok (tuxAssert_of hhole)]
      rfl
    · rw [hself, hentries, hnil]
  · have hlookup : dleaf2LookupIndex leaf hint = .ok front.length := by
      by_cases hnil : back = []
      · have heq : ex.logical = hint := by
          have := not_and.mp hbehind hnil
          omega
        exact dleaf2LookupIndex_eq hentries hlength h.ascending heq
      · exact dleaf2LookupIndex_between hentries hlength h.ascending hnil hle hback
    obtain ⟨copied, hcopy, hcopied, htake⟩ := @memcpyExtents_spec into.table leaf.table 0
      front.length (leaf.count - front.length) (by rw [hinto.memory]; omega)
      (by rw [h.memory]; omega)
    obtain ⟨junk, htable, -⟩ := h.table_eq
    rw [hentries, List.append_assoc] at htable
    have hput : putExtent leaf.table front.length ex.logical 0 =
        .ok (front ++ diskExtent ex.logical 0 :: (back ++ junk)) := by
      rw [htable]
      exact putExtent_append rfl
    refine ⟨⟨front.length + 1, front ++ diskExtent ex.logical 0 :: (back ++ junk)⟩,
      ⟨leaf.count - front.length, copied⟩, ?_, ?_, ?_, ?_, hcopied.trans hinto.memory, ?_, .inl ?_⟩
    · rw [bind_of_ok hlookup, if_neg (by omega), bind_of_ok hcopy,
        bind_of_ok (getExtent_of_entries hentries rfl), bind_of_ok hput]
      rfl
    · refine @entries_of_table _ _ (back ++ junk) _ (by simp) ?_
      rw [List.length_append]
      rfl
    · have hmemory := h.memory
      rw [htable] at hmemory
      rw [← hmemory, List.length_append, List.length_append]
      rfl
    · show front.length + 1 ≤ entriesPerLeaf
      omega
    · show leaf.count - front.length ≤ entriesPerLeaf
      omega
    · have hdrop : (leaf.table.drop front.length).take (leaf.count - front.length) =
          leaf.entries.drop front.length := List.drop_take.symm
      rw [Nat.zero_add, hdrop, hentries, List.drop_left] at htake
      exact htake

/-- A split is right if and only if the last entry that is not behind the hint is inside the
range. -/
theorem dleaf2Split_iff (hinto : into.Ok entriesPerLeaf bottom limit) (hempty : into.count = 0) :
    SplitsRight leaf into entriesPerLeaf bottom limit hint ↔
      SplitInside leaf.entries bottom limit hint := by
  have hasc := h.ascending
  have hnonempty : leaf.count ≠ 0 := by omega
  constructor
  · rintro ⟨key, left, right, hrun, hbottom, hlimit, -⟩
    cases hentries : leaf.entries with
    | nil => exact absurd (h.entries_length.symm.trans (congrArg List.length hentries)) hnonempty
    | cons first rest =>
        by_cases hfirst : first.logical ≤ hint
        · obtain ⟨front, ex, back, hsplit, hle, hback⟩ := StepTable.exists_split
            ⟨first, List.mem_cons_self, hfirst⟩
          obtain ⟨left', right', hrun', -⟩ := dleaf2Split_at h hcount hinto hempty
            (hentries.trans hsplit) hle hback
          obtain ⟨hkey, -⟩ := Prod.mk.inj (Except.ok.inj (hrun.symm.trans hrun'))
          subst hkey
          exact ⟨ex, by rw [hsplit, StepTable.lastAt_split hle hback], hbottom, hlimit⟩
        · unfold dleaf2Split at hrun
          rw [bind_of_ok (tuxAssert_of hcount), bind_of_error (dleaf2LookupIndex_below hentries
            h.entries_length (Nat.lt_of_not_le hfirst))] at hrun
          cases hrun
  · rintro ⟨last, hlast, hbottom, hlimit⟩
    obtain ⟨front, ex, back, hentries, hle, hback⟩ := StepTable.exists_split
      ⟨last, StepTable.lastAt_eq_some hlast⟩
    rw [hentries, StepTable.lastAt_split hle hback] at hlast
    obtain rfl := Option.some.inj hlast
    obtain ⟨left, right, hrun, hleft, hleftmem, hleftcount, hrightmem, hrightcount, hright⟩ :=
      dleaf2Split_at h hcount hinto hempty hentries hle hback
    have hkey : (diskExtent ex.logical 0).logical = ex.logical :=
      diskExtent_logical 0 ex.logical_lt
    rw [hentries] at hasc
    have hleftok : left.Ok entriesPerLeaf bottom ex.logical := by
      refine .of_entries hleft hleftmem hleftcount ?_ ?_ rfl (Nat.le_of_eq hkey)
      · refine hasc.left.append (List.pairwise_singleton _ _) fun a ha b hb => ?_
        rw [List.mem_singleton.mp hb, hkey]
        exact hasc.before a ha
      · intro e he
        cases front with
        | nil =>
            have hfirst := h.first ex (by rw [hentries]; rfl)
            omega
        | cons f front => exact h.first e (by rw [hentries]; exact he)
    refine ⟨ex.logical, left, right, hrun, hbottom, hlimit, hleftok, ?_, ?_⟩
    · refine hleftok.reads_iff.mpr fun x _ hx => ?_
      rw [hleft, hentries, extentMap_append_of_lt, extentMap_append_of_lt]
      · exact List.forall_mem_cons.mpr ⟨hx, fun b hb => Nat.lt_trans hx (hasc.after b hb)⟩
      · exact fun b hb => by rw [List.mem_singleton.mp hb, hkey]; exact hx
    · rcases hright with hright | ⟨hnil, hzero⟩
      · have hrightok : right.Ok entriesPerLeaf ex.logical limit := by
          refine ⟨hrightmem, hrightcount, hright ▸ hasc.right, fun e he => ?_, fun e he => ?_⟩
          · rw [hright] at he
            exact Nat.le_of_eq (congrArg _ (Option.some.inj he).symm)
          · refine h.last e ?_
            rw [hentries, List.getLast?_append, ← hright, he]
            rfl
        refine ⟨hrightok, hrightok.reads_iff.mpr fun x hx _ => ?_⟩
        rw [hright, hentries, extentMap_append_of_le ⟨ex, List.mem_cons_self, hx⟩]
      · have hrightok : right.Ok entriesPerLeaf ex.logical limit := .of_empty hzero hrightmem
        refine ⟨hrightok, hrightok.reads_iff.mpr fun x hx _ => ?_⟩
        have hhole : ex.physical = 0 := by
          refine (h.last ex ?_).1
          rw [hentries, hnil, List.getLast?_append]
          rfl
        rw [hrightok.eq_nil hzero, hentries, hnil, extentMap_sentinel hx hhole]
        rfl

end Split

/-! ## `dleaf2_merge` -/

/-- The map of two leaves side by side. -/
def sideBySide (mid : Nat) (map map' : Nat → Option Nat) (x : Nat) : Option Nat :=
  if x < mid then map x else map' x

/-- The entries that two leaves need in one: the sentinel of the first one and a hole, or an entry
at the same address, are one. -/
def unionCount (entries entries' : List DiskExtent) : Nat :=
  match entries.getLast?, entries'.head? with
  | some sentinel, some first => entries.length + entries'.length -
      if first.physical = 0 ∨ sentinel.logical = first.logical then 1 else 0
  | _, _ => entries.length + entries'.length

/-- What a merge is to do. -/
def MergesRight (into vfrom : Dleaf2) (entriesPerLeaf bottom mid limit : Nat) : Prop :=
  ∃ ret out left, dleaf2Merge entriesPerLeaf into vfrom = .ok (ret, out, left) ∧
    (ret = 0 ∨ ret = 1) ∧
    (ret = 1 → out.Ok entriesPerLeaf bottom limit ∧ out.Reads bottom limit
      (sideBySide mid (extentMap into.entries) (extentMap vfrom.entries))) ∧
    (ret = 0 → out = into ∧ left = vfrom ∧
      entriesPerLeaf < unionCount into.entries vfrom.entries)

/-- The condition: where there is something to merge, the first entry of the right leaf is not below
the sentinel of the left one, or below its bottom where it has none; and what is merged has no
blocks below the right leaf. -/
structure MergeMeets (into vfrom : Dleaf2) (entriesPerLeaf bottom mid : Nat) : Prop where
  first : into.count = 0 → ∀ first, vfrom.entries.head? = some first → first.logical ≤ bottom
  sentinel : ∀ sentinel first, into.entries.getLast? = some sentinel →
    vfrom.entries.head? = some first → sentinel.logical ≤ first.logical
  nothing : entriesPerLeaf < unionCount into.entries vfrom.entries ∨
    ∀ x, bottom ≤ x → x < mid → extentMap vfrom.entries x = none

/-- A leaf that has no more than a sentinel. -/
theorem extentMap_few (h : leaf.Ok entriesPerLeaf bottom limit) (hcount : leaf.count ≤ 1) (x : Nat) :
    extentMap leaf.entries x = none := by
  by_cases hzero : leaf.count = 0
  · rw [h.eq_nil hzero]
    rfl
  obtain ⟨front, sentinel, hentries, hhole, -, hend⟩ := h.exists_sentinel hzero
  obtain rfl : front = [] := List.eq_nil_of_length_eq_zero (by omega)
  rw [hentries]
  rcases Nat.lt_or_ge x sentinel.logical with hlt | hge
  · exact extentMap_of_lt fun ex hex => List.mem_singleton.mp hex ▸ hlt
  · exact extentMap_sentinel hge hhole

theorem Dleaf2.Ok.mono (h : leaf.Ok entriesPerLeaf bottom mid) (hle : mid ≤ limit) :
    leaf.Ok entriesPerLeaf bottom limit :=
  ⟨h.memory, h.count_le, h.ascending, h.first, fun ex hex =>
    ⟨(h.last ex hex).1, Nat.le_trans (h.last ex hex).2 hle⟩⟩

/-! ### The merged entries -/

/-- The entries of a merged leaf. -/
def mergedEntries (front : List DiskExtent) (sentinel first : DiskExtent)
    (rest : List DiskExtent) : List DiskExtent :=
  if first.physical = 0 then front ++ sentinel :: rest
  else if sentinel.logical = first.logical then front ++ first :: rest
  else front ++ sentinel :: first :: rest

section Merged

variable (hasc : Ascending DiskExtent.logical (front ++ [sentinel]))
  (hasc' : Ascending DiskExtent.logical (first :: rest))
  (hle : sentinel.logical ≤ first.logical)

include hasc' hle

/-- Up to the first entry of the right leaf it is the left one that holds. -/
theorem extentMap_merged (hhole : sentinel.physical = 0) (x : Nat) :
    extentMap (mergedEntries front sentinel first rest) x =
      if x < first.logical then extentMap (front ++ [sentinel]) x
      else extentMap (first :: rest) x := by
  have hafter := (List.pairwise_cons.mp hasc').1
  have hbelow : x < first.logical → ∀ ex ∈ first :: rest, x < ex.logical := fun hlt =>
    List.forall_mem_cons.mpr ⟨hlt, fun ex hex => Nat.lt_trans hlt (hafter ex hex)⟩
  unfold mergedEntries
  by_cases hfirst : first.physical = 0
  · rw [if_pos hfirst, List.append_cons]
    by_cases hlt : x < first.logical
    · rw [if_pos hlt, extentMap_append_of_lt (List.forall_mem_cons.mp (hbelow hlt)).2]
    rw [if_neg hlt]
    by_cases hbehind : ∃ ex ∈ rest, ex.logical ≤ x
    · rw [extentMap_append_of_le hbehind]
      exact (@extentMap_append_of_le [first] _ _ hbehind).symm
    · have hrest : ∀ ex ∈ rest, x < ex.logical := fun ex hex =>
        Nat.lt_of_not_le fun hge => hbehind ⟨ex, hex, hge⟩
      have hnone := @extentMap_split [] rest first x (Nat.le_of_not_lt hlt) hrest
      rw [if_pos hfirst] at hnone
      rw [extentMap_append_of_lt hrest,
        extentMap_sentinel (Nat.le_trans hle (Nat.le_of_not_lt hlt)) hhole]
      exact hnone.symm
  rw [if_neg hfirst]
  by_cases hlt : x < first.logical
  · rw [if_pos hlt]
    split
    · rename_i heq
      rw [extentMap_append_of_lt (hbelow hlt), extentMap_append_of_lt]
      exact fun ex hex => List.mem_singleton.mp hex ▸ heq ▸ hlt
    · rw [List.append_cons, extentMap_append_of_lt (hbelow hlt)]
  · have hge : ∃ ex ∈ first :: rest, ex.logical ≤ x :=
      ⟨first, List.mem_cons_self, Nat.le_of_not_lt hlt⟩
    rw [if_neg hlt]
    split
    · exact extentMap_append_of_le hge
    · rw [List.append_cons, extentMap_append_of_le hge]

include hasc

theorem mergedEntries_ascending :
    Ascending DiskExtent.logical (mergedEntries front sentinel first rest) := by
  obtain ⟨hafter, hrest⟩ := List.pairwise_cons.mp hasc'
  have hbefore := hasc.before
  unfold mergedEntries
  split
  · rw [List.append_cons]
    refine hasc.append hrest fun a ha b hb => ?_
    have hb := hafter b hb
    rcases List.mem_append.mp ha with hin | hin
    · have := hbefore a hin
      omega
    · rw [List.mem_singleton.mp hin]
      omega
  split
  · refine hasc.left.append hasc' fun a ha b hb => ?_
    have ha := hbefore a ha
    rcases List.mem_cons.mp hb with rfl | hin
    · omega
    · have := hafter b hin
      omega
  · rename_i hne
    rw [List.append_cons]
    refine hasc.append hasc' fun a ha b hb => ?_
    have ha : a.logical < first.logical := by
      rcases List.mem_append.mp ha with hin | hin
      · have := hbefore a hin
        omega
      · rw [List.mem_singleton.mp hin]
        omega
    rcases List.mem_cons.mp hb with rfl | hin
    · exact ha
    · exact Nat.lt_trans ha (hafter b hin)

end Merged

/-- The first entry is the one of the left leaf, or at the same address. -/
theorem mergedEntries_head {ex : DiskExtent}
    (h : (mergedEntries front sentinel first rest).head? = some ex) :
    ∃ ex', (front ++ [sentinel]).head? = some ex' ∧ ex.logical = ex'.logical := by
  unfold mergedEntries at h
  cases front with
  | nil =>
      split_ifs at h with hfirst heq
      · exact ⟨ex, h, rfl⟩
      · obtain rfl := Option.some.inj h
        exact ⟨sentinel, rfl, heq.symm⟩
      · exact ⟨ex, h, rfl⟩
  | cons f front => split_ifs at h <;> exact ⟨ex, h, rfl⟩

/-- The last entry is the sentinel of the right leaf. -/
theorem mergedEntries_last (hrest : rest ≠ []) :
    (mergedEntries front sentinel first rest).getLast? = (first :: rest).getLast? := by
  obtain ⟨next, rest, rfl⟩ := List.exists_cons_of_ne_nil hrest
  have hsome : ∃ last, (next :: rest).getLast? = some last :=
    ⟨_, List.getLast?_eq_some_getLast (List.cons_ne_nil _ _)⟩
  obtain ⟨last, hlast⟩ := hsome
  unfold mergedEntries
  split_ifs <;> simp [List.getLast?_append, List.getLast?_cons_cons, hlast]

theorem unionCount_eq : unionCount (front ++ [sentinel]) (first :: rest) =
    front.length + 1 + (rest.length + 1) -
      if first.physical = 0 ∨ sentinel.logical = first.logical then 1 else 0 := by
  unfold unionCount
  rw [List.getLast?_append, List.length_append, List.length_cons]
  rfl

section Merge

variable {vfrom : Dleaf2} (hinto : into.Ok entriesPerLeaf bottom mid)
  (hfrom : vfrom.Ok entriesPerLeaf mid limit)
include hinto hfrom

/-- There is nothing to merge. -/
theorem mergesRight_few (hlimit : mid ≤ limit) (hcount : vfrom.count ≤ 1) :
    MergesRight into vfrom entriesPerLeaf bottom mid limit := by
  have hok := hinto.mono hlimit
  refine ⟨1, into, vfrom, if_pos hcount, .inr rfl, fun _ => ⟨hok, ?_⟩, fun hzero =>
    absurd hzero Nat.one_ne_zero⟩
  refine hok.reads_iff.mpr fun x _ _ => ?_
  unfold sideBySide
  split
  · rfl
  · rename_i hge
    rw [extentMap_few hfrom hcount, extentMap_behind hinto fun e he =>
      Nat.le_trans (hinto.le_limit e he) (Nat.le_of_not_lt hge)]

/-- The left leaf has no entries: those of the right one are copied. -/
theorem dleaf2Merge_empty (hmany : ¬vfrom.count ≤ 1) (hempty : into.count = 0) :
    ∃ out left, dleaf2Merge entriesPerLeaf into vfrom = .ok (1, out, left) ∧
      out.entries = vfrom.entries ∧ out.table.length = entriesPerLeaf ∧
      out.count ≤ entriesPerLeaf := by
  have hmax := hfrom.count_le
  obtain ⟨copied, hcopy, hlength, htake⟩ := @memcpyExtents_spec into.table vfrom.table 0 0
    vfrom.count (by rw [hinto.memory]; omega) (by rw [hfrom.memory]; omega)
  refine ⟨⟨vfrom.count, copied⟩, ⟨0, vfrom.table⟩, ?_, ?_, hlength.trans hinto.memory, hmax⟩
  · unfold dleaf2Merge
    rw [if_neg hmany, if_pos hempty, bind_of_ok hcopy]
    rfl
  · rw [Nat.zero_add] at htake
    exact htake

section Both

variable {sentinel : DiskExtent} (hmany : ¬vfrom.count ≤ 1)
  (hentries : into.entries = front ++ [sentinel]) (hrest : vfrom.entries = first :: rest)

include hmany hentries hrest

omit hfrom in
/-- Up to the copies. -/
theorem dleaf2Merge_both : dleaf2Merge entriesPerLeaf into vfrom = do
    tuxAssert (sentinel.logical ≤ first.logical)
    let canMerge := if first.physical = 0 ∨ sentinel.logical = first.logical then 1 else 0
    if entriesPerLeaf < into.count + vfrom.count - canMerge then return (0, into, vfrom)
    else do
      let table ←
        if first.physical = 0 then
          memcpyExtents into.table into.count vfrom.table 1 (vfrom.count - canMerge)
        else if sentinel.logical = first.logical then
          memcpyExtents into.table (into.count - 1) vfrom.table 0 vfrom.count
        else memcpyExtents into.table into.count vfrom.table 0 vfrom.count
      return (1, ⟨into.count + vfrom.count - canMerge, table⟩, ⟨0, vfrom.table⟩) := by
  have hend : into.count = front.length + 1 := by
    rw [← hinto.entries_length, hentries, List.length_append]
    rfl
  have hhole : sentinel.physical = 0 := by
    refine (hinto.last sentinel ?_).1
    rw [hentries, List.getLast?_append]
    rfl
  unfold dleaf2Merge
  rw [if_neg hmany, if_neg (by omega), bind_of_ok (getExtent_of_entries hentries (by omega)),
    bind_of_ok (@getExtent_of_entries vfrom [] rest first 0 hrest rfl)]
  cases htest : tuxAssert (sentinel.logical ≤ first.logical) with
  | error e => rfl
  | ok u =>
      show (tuxAssert (sentinel.physical = 0) >>= _) = _
      rw [bind_of_ok (tuxAssert_of hhole)]
      rfl

omit hfrom in
/-- The right leaf begins below the sentinel of the left one. -/
theorem dleaf2Merge_below (hlt : first.logical < sentinel.logical) :
    dleaf2Merge entriesPerLeaf into vfrom = .error .assertion := by
  rw [dleaf2Merge_both hinto hmany hentries hrest,
    bind_of_error (tuxAssert_of_not (Nat.not_le_of_lt hlt))]

omit hmany in
/-- The numbers of entries. -/
theorem merge_counts : into.count = front.length + 1 ∧ vfrom.count = rest.length + 1 ∧
    unionCount into.entries vfrom.entries = into.count + vfrom.count -
      if first.physical = 0 ∨ sentinel.logical = first.logical then 1 else 0 := by
  have hend : into.count = front.length + 1 := by
    rw [← hinto.entries_length, hentries, List.length_append]
    rfl
  have hend' : vfrom.count = rest.length + 1 := by
    rw [← hfrom.entries_length, hrest]
    rfl
  refine ⟨hend, hend', ?_⟩
  rw [hentries, hrest, unionCount_eq, hend, hend']

/-- The leaves do not fit in one. -/
theorem dleaf2Merge_full (hle : sentinel.logical ≤ first.logical)
    (hfull : entriesPerLeaf < unionCount into.entries vfrom.entries) :
    dleaf2Merge entriesPerLeaf into vfrom = .ok (0, into, vfrom) := by
  obtain ⟨-, -, hunion⟩ := merge_counts hinto hfrom hentries hrest
  rw [hunion] at hfull
  rw [dleaf2Merge_both hinto hmany hentries hrest, bind_of_ok (tuxAssert_of hle)]
  exact if_pos hfull

/-- The leaves fit in one. -/
theorem dleaf2Merge_copy (hle : sentinel.logical ≤ first.logical)
    (hfit : ¬entriesPerLeaf < unionCount into.entries vfrom.entries) :
    ∃ out left, dleaf2Merge entriesPerLeaf into vfrom = .ok (1, out, left) ∧
      out.entries = mergedEntries front sentinel first rest ∧
      out.table.length = entriesPerLeaf ∧ out.count ≤ entriesPerLeaf := by
  obtain ⟨hend, hend', hunion⟩ := merge_counts hinto hfrom hentries hrest
  have hmemory := hinto.memory
  have hmemory' := hfrom.memory
  have hmax := hfrom.count_le
  rw [hunion] at hfit
  rw [dleaf2Merge_both hinto hmany hentries hrest, bind_of_ok (tuxAssert_of hle)]
  dsimp only
  rw [if_neg hfit]
  unfold mergedEntries
  by_cases hfirst : first.physical = 0
  · have hone : first.physical = 0 ∨ sentinel.logical = first.logical := .inl hfirst
    simp only [if_pos hone] at hfit ⊢
    obtain ⟨copied, hcopy, hlength, htake⟩ := @memcpyExtents_spec into.table vfrom.table
      into.count 1 (vfrom.count - 1) (by omega) (by omega)
    have hpart : (vfrom.table.drop 1).take (vfrom.count - 1) = rest := by
      have hdrop : vfrom.entries.drop 1 = _ := List.drop_take
      rw [hrest] at hdrop
      exact hdrop.symm
    refine ⟨⟨into.count + vfrom.count - 1, copied⟩, ⟨0, vfrom.table⟩, ?_, ?_,
      hlength.trans hmemory, Nat.le_of_not_lt hfit⟩
    · rw [if_pos hfirst, bind_of_ok hcopy]
      rfl
    · rw [hpart, ← Nat.add_sub_assoc (by omega)] at htake
      rw [if_pos hfirst, List.append_cons, ← hentries]
      exact htake
  by_cases heq : sentinel.logical = first.logical
  · have hone : first.physical = 0 ∨ sentinel.logical = first.logical := .inr heq
    simp only [if_pos hone] at hfit ⊢
    obtain ⟨copied, hcopy, hlength, htake⟩ := @memcpyExtents_spec into.table vfrom.table
      (into.count - 1) 0 vfrom.count (by omega) (by omega)
    have hfront : into.table.take (into.count - 1) = front := by
      have htaken : (into.table.take into.count).take (into.count - 1) = front := by
        have hall : into.table.take into.count = front ++ [sentinel] := hentries
        rw [hall, hend, Nat.add_sub_cancel, List.take_left]
      rw [← htaken, List.take_take, Nat.min_eq_left (Nat.sub_le _ _)]
    refine ⟨⟨into.count + vfrom.count - 1, copied⟩, ⟨0, vfrom.table⟩, ?_, ?_,
      hlength.trans hmemory, Nat.le_of_not_lt hfit⟩
    · rw [if_neg hfirst, if_pos heq, bind_of_ok hcopy]
      rfl
    · have hsum : into.count - 1 + vfrom.count = into.count + vfrom.count - 1 := by omega
      rw [hfront, hsum] at htake
      rw [if_neg hfirst, if_pos heq, ← hrest]
      exact htake
  · have hneither : ¬(first.physical = 0 ∨ sentinel.logical = first.logical) := not_or.mpr
      ⟨hfirst, heq⟩
    simp only [if_neg hneither] at hfit ⊢
    obtain ⟨copied, hcopy, hlength, htake⟩ := @memcpyExtents_spec into.table vfrom.table
      into.count 0 vfrom.count (by omega) (by omega)
    refine ⟨⟨into.count + vfrom.count - 0, copied⟩, ⟨0, vfrom.table⟩, ?_, ?_,
      hlength.trans hmemory, Nat.le_of_not_lt hfit⟩
    · rw [if_neg hfirst, if_neg heq, bind_of_ok hcopy]
      rfl
    · rw [if_neg hfirst, if_neg heq, List.append_cons, ← hentries, ← hrest]
      exact htake

end Both

/-- A merge is right if and only if the leaves meet. -/
theorem dleaf2Merge_iff (hlimit : mid ≤ limit) :
    MergesRight into vfrom entriesPerLeaf bottom mid limit ↔
      vfrom.count ≤ 1 ∨ MergeMeets into vfrom entriesPerLeaf bottom mid := by
  by_cases hfew : vfrom.count ≤ 1
  · exact ⟨fun _ => .inl hfew, fun _ => mergesRight_few hinto hfrom hlimit hfew⟩
  rw [or_iff_right hfew]
  by_cases hempty : into.count = 0
  · have hnil := hinto.eq_nil hempty
    obtain ⟨out, left, hrun, hout, hmemory, hcount⟩ := dleaf2Merge_empty hinto hfrom hfew hempty
    constructor
    · rintro ⟨ret, out', left', hrun', -, hmerged, -⟩
      obtain ⟨hret, hsame⟩ := Prod.mk.inj (Except.ok.inj (hrun'.symm.trans hrun))
      obtain ⟨rfl, -⟩ := Prod.mk.inj hsame
      obtain ⟨hok, hreads⟩ := hmerged hret
      refine ⟨fun _ f hf => hok.first f (by rw [hout]; exact hf), fun s f hs => ?_,
        .inr fun x hx hlt => ?_⟩
      · rw [hnil] at hs
        exact absurd hs.symm (Option.some_ne_none _)
      · have hmap := hok.reads_iff.mp hreads x hx (Nat.lt_of_lt_of_le hlt hlimit)
        unfold sideBySide at hmap
        rw [hout, if_pos hlt, hnil] at hmap
        exact hmap
    · intro hmeets
      have hok : out.Ok entriesPerLeaf bottom limit := by
        refine ⟨hmemory, hcount, hout ▸ hfrom.ascending, ?_, hout ▸ hfrom.last⟩
        rw [hout]
        exact hmeets.first hempty
      have hnothing := hmeets.nothing.resolve_left fun hfull => by
        have hall : unionCount into.entries vfrom.entries = 0 + vfrom.entries.length := by
          rw [hnil]
          rfl
        have hmax := hfrom.count_le
        rw [hall, hfrom.entries_length] at hfull
        omega
      refine ⟨1, out, left, hrun, .inr rfl, fun _ => ⟨hok, hok.reads_iff.mpr fun x hx _ => ?_⟩,
        fun hzero => absurd hzero Nat.one_ne_zero⟩
      unfold sideBySide
      rw [hout]
      split
      · rename_i hlt
        rw [hnothing x hx hlt, hnil]
        rfl
      · rfl
  obtain ⟨front, sentinel, hentries, hhole, -, -⟩ := hinto.exists_sentinel hempty
  obtain ⟨first, rest, hrest, hne⟩ : ∃ first rest, vfrom.entries = first :: rest ∧ rest ≠ [] := by
    have hlength := hfrom.entries_length
    match hcases : vfrom.entries with
    | [] =>
        rw [hcases, List.length_nil] at hlength
        omega
    | [first] =>
        rw [hcases, List.length_singleton] at hlength
        omega
    | first :: next :: rest => exact ⟨first, next :: rest, rfl, List.cons_ne_nil _ _⟩
  have hsentinel : into.entries.getLast? = some sentinel := by
    rw [hentries, List.getLast?_append]
    rfl
  have hfirst : vfrom.entries.head? = some first := by
    rw [hrest]
    rfl
  by_cases hle : sentinel.logical ≤ first.logical
  swap
  · have hrun := dleaf2Merge_below hinto hfew hentries hrest (Nat.lt_of_not_le hle)
    refine ⟨fun hright => ?_, fun hmeets => absurd (hmeets.sentinel _ _ hsentinel hfirst) hle⟩
    obtain ⟨ret, out, left, hrun', -⟩ := hright
    rw [hrun] at hrun'
    cases hrun'
  have hmeet : ∀ s f, into.entries.getLast? = some s → vfrom.entries.head? = some f →
      s.logical ≤ f.logical := by
    intro s f hs hf
    rw [hsentinel] at hs
    rw [hfirst] at hf
    obtain rfl := Option.some.inj hs
    obtain rfl := Option.some.inj hf
    exact hle
  by_cases hfull : entriesPerLeaf < unionCount into.entries vfrom.entries
  · refine ⟨fun _ => ⟨fun hzero => absurd hzero hempty, hmeet, .inl hfull⟩, fun _ => ?_⟩
    exact ⟨0, into, vfrom, dleaf2Merge_full hinto hfrom hfew hentries hrest hle hfull, .inl rfl,
      fun hone => absurd hone Nat.zero_ne_one, fun _ => ⟨rfl, rfl, hfull⟩⟩
  obtain ⟨out, left, hrun, hout, hmemory, hcount⟩ :=
    dleaf2Merge_copy hinto hfrom hfew hentries hrest hle hfull
  have hasc := hentries ▸ hinto.ascending
  have hasc' := hrest ▸ hfrom.ascending
  have hmap := @extentMap_merged front rest first sentinel hasc' hle hhole
  rw [← hentries, ← hrest, ← hout] at hmap
  have hbehind : ∀ x, first.logical ≤ x → extentMap into.entries x = none := by
    intro x hx
    rw [hentries]
    exact extentMap_sentinel (Nat.le_trans hle hx) hhole
  have hok : out.Ok entriesPerLeaf bottom limit := by
    refine ⟨hmemory, hcount, hout ▸ mergedEntries_ascending hasc hasc' hle, fun ex hex => ?_,
      fun ex hex => ?_⟩
    · rw [hout] at hex
      obtain ⟨ex', hex', heq⟩ := mergedEntries_head hex
      rw [heq]
      exact hinto.first ex' (by rw [hentries]; exact hex')
    · rw [hout, mergedEntries_last hne, ← hrest] at hex
      exact hfrom.last ex hex
  constructor
  · rintro ⟨ret, out', left', hrun', -, hmerged, -⟩
    obtain ⟨hret, hsame⟩ := Prod.mk.inj (Except.ok.inj (hrun'.symm.trans hrun))
    obtain ⟨rfl, -⟩ := Prod.mk.inj hsame
    refine ⟨fun hzero => absurd hzero hempty, hmeet, .inr fun x hx hlt => ?_⟩
    have hread := hok.reads_iff.mp (hmerged hret).2 x hx (Nat.lt_of_lt_of_le hlt hlimit)
    unfold sideBySide at hread
    rw [hmap, if_pos hlt] at hread
    rcases Nat.lt_or_ge x first.logical with hbelow | hge
    · rw [hrest]
      exact extentMap_of_lt (List.forall_mem_cons.mpr ⟨hbelow, fun ex hex =>
        Nat.lt_trans hbelow ((List.pairwise_cons.mp hasc').1 ex hex)⟩)
    · rw [if_neg (Nat.not_lt_of_le hge), hbehind x hge] at hread
      exact hread
  · intro hmeets
    have hnothing := hmeets.nothing.resolve_left hfull
    refine ⟨1, out, left, hrun, .inr rfl, fun _ => ⟨hok, hok.reads_iff.mpr fun x hx _ => ?_⟩,
      fun hzero => absurd hzero Nat.one_ne_zero⟩
    unfold sideBySide
    rw [hmap]
    by_cases hlt : x < mid
    · rw [if_pos hlt]
      split
      · rfl
      · rename_i hge
        rw [hnothing x hx hlt, hbehind x (Nat.le_of_not_lt hge)]
    · have hbottom := hfrom.first first hfirst
      rw [if_neg hlt, if_neg (by omega)]

end Merge

/-- A split and a merge are right if and only if their conditions hold. -/
theorem dleaf2SplitMerge_iff {left right : Dleaf2} {keyBottom keyLimit : Nat}
    (h : leaf.Ok entriesPerLeaf keyBottom keyLimit) (hcount : 3 ≤ leaf.count)
    (hinto : into.Ok entriesPerLeaf keyBottom keyLimit) (hempty : into.count = 0)
    (hleft : left.Ok entriesPerLeaf bottom mid) (hright : right.Ok entriesPerLeaf mid limit)
    (hlimit : mid ≤ limit) :
    (SplitsRight leaf into entriesPerLeaf keyBottom keyLimit hint ↔
      SplitInside leaf.entries keyBottom keyLimit hint) ∧
    (MergesRight left right entriesPerLeaf bottom mid limit ↔
      right.count ≤ 1 ∨ MergeMeets left right entriesPerLeaf bottom mid) :=
  ⟨dleaf2Split_iff h hcount hinto hempty, dleaf2Merge_iff hleft hright hlimit⟩

end

/-- A leaf of up to six entries. -/
def sampleLeaf (entries : List DiskExtent) : Dleaf2 :=
  ⟨entries.length, entries ++ List.replicate (6 - entries.length) (diskExtent 0 0)⟩

/-- Two extents up to 8, and one from there on. -/
def leafAt0 : Dleaf2 := sampleLeaf [diskExtent 0 5, diskExtent 4 9, diskExtent 6 0]

def leafAt8 : Dleaf2 := sampleLeaf [diskExtent 8 40, diskExtent 12 0]

theorem leafAt0_ok : leafAt0.Ok 6 0 8 := by
  refine ⟨rfl, by decide, by unfold Ascending; decide, fun ex hex => ?_, fun ex hex => ?_⟩
  · obtain rfl := Option.some.inj hex
    decide
  · obtain rfl := Option.some.inj hex
    decide

theorem leafAt8_ok : leafAt8.Ok 6 8 16 := by
  refine ⟨rfl, by decide, by unfold Ascending; decide, fun ex hex => ?_, fun ex hex => ?_⟩
  · obtain rfl := Option.some.inj hex
    decide
  · obtain rfl := Option.some.inj hex
    decide

theorem emptyLeaf_ok (bottom limit : Nat) : (sampleLeaf []).Ok 6 bottom limit := .of_empty rfl rfl

theorem dleaf2SplitMerge_iff_sample :
    (SplitsRight leafAt0 (sampleLeaf []) 6 0 8 5 ∧ ¬SplitsRight leafAt0 (sampleLeaf []) 6 0 8 3) ∧
      MergesRight leafAt0 leafAt8 6 0 8 16 := by
  have hgood := @dleaf2SplitMerge_iff leafAt0 (sampleLeaf []) 6 0 8 16 5 leafAt0 leafAt8 0 8
    leafAt0_ok (by decide) (emptyLeaf_ok 0 8) rfl leafAt0_ok leafAt8_ok (by decide)
  have hbad := @dleaf2SplitMerge_iff leafAt0 (sampleLeaf []) 6 0 8 16 3 leafAt0 leafAt8 0 8
    leafAt0_ok (by decide) (emptyLeaf_ok 0 8) rfl leafAt0_ok leafAt8_ok (by decide)
  refine ⟨⟨hgood.1.mpr ⟨diskExtent 4 9, rfl, by decide⟩, fun hright => ?_⟩, hgood.2.mpr (.inr ?_)⟩
  · obtain ⟨ex, hex, hbottom, -⟩ := hbad.1.mp hright
    obtain rfl := Option.some.inj hex
    exact absurd hbottom (by decide)
  · refine ⟨fun hzero => absurd hzero (by decide), fun s f hs hf => ?_, .inr fun x _ hx => ?_⟩
    · obtain rfl := Option.some.inj hs
      obtain rfl := Option.some.inj hf
      decide
    · refine extentMap_of_lt fun ex hex => ?_
      have hmem : ex ∈ [diskExtent 8 40, diskExtent 12 0] := hex
      have hge : ∀ ex ∈ [diskExtent 8 40, diskExtent 12 0], 8 ≤ ex.logical := by decide
      exact Nat.lt_of_lt_of_le hx (hge ex hmem)

/-- A left leaf without entries gets those of the right one: there is none for its bottom, and a
read from there fails. -/
theorem dleaf2Merge_hidden : (sampleLeaf []).Ok 6 0 8 ∧ leafAt8.Ok 6 8 16 ∧
    dleaf2Merge 6 (sampleLeaf []) leafAt8 = .ok (1, leafAt8, { leafAt8 with count := 0 }) ∧
    dleaf2Read 16 leafAt8 ⟨0, 1, 1, [⟨0, 0, 0⟩]⟩ ⟨0, 4⟩ = .error .assertion ∧
    ¬MergesRight (sampleLeaf []) leafAt8 6 0 8 16 := by
  have hrun : dleaf2Merge 6 (sampleLeaf []) leafAt8 =
      .ok (1, leafAt8, { leafAt8 with count := 0 }) := rfl
  refine ⟨emptyLeaf_ok 0 8, leafAt8_ok, hrun, rfl, ?_⟩
  rintro ⟨ret, out, left, hrun', -, hmerged, -⟩
  obtain ⟨hret, hsame⟩ := Prod.mk.inj (Except.ok.inj (hrun'.symm.trans hrun))
  obtain ⟨rfl, -⟩ := Prod.mk.inj hsame
  have hfirst := (hmerged hret).1.first (diskExtent 8 40) rfl
  exact absurd hfirst (by decide)

end Tux3
