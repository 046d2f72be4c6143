/-
  Filemap/Truncate.lean --- the truncate of a file: `btree_chop` on the index of its extents.

  The leaves do what `btree_chop` takes them for, as far as a truncate asks for it: the range
  has no end, and the leaves behind the first one are chopped from their first key on
  (`dtree2Ops_laws`).  So the file keeps the blocks in front of the cut, has none behind it,
  and the extents that are deferred and logged are the blocks it had there
  (`tux3TruncateBlocks_truncates`).
-/
import Tux3.Btree.ChopTree
import Tux3.Filemap.Dleaf2Chop
import Tux3.Filemap.Dleaf2Merge

set_option autoImplicit false

namespace Tux3

open Outcome (Ensures bind_eq_ok bind_of_ok)
open StepTable (Ascending)

/-! ## Code -/

/-- `dtree2_ops`, with what `btree_chop` calls.  What `dleaf2_chop` defers it logs as well. -/
def dtree2Ops (entriesPerLeaf : Nat) : LeafOps Dleaf2 where
  leafChop start len leaf := do
    let (ret, leaf, defree, _) ← dleaf2Chop leaf start len
    if ret = 0 then return none else return some (leaf, defree)
  leafMerge into from_ := do
    let (ret, into, _) ← dleaf2Merge entriesPerLeaf into from_
    if ret = 0 then return none else return some into

/-- `tux3_truncate_blocks`, for blocks of `blocksize` bytes. -/
def tux3TruncateBlocks (entriesPerLeaf blockbits fuel : Nat) (sb : BtreeSb Dleaf2) (root : Root)
    (newsize : Nat) : Except TuxError (BtreeSb Dleaf2 × Root) :=
  let index := (newsize + (2 ^ blockbits - 1)) / 2 ^ blockbits
  btreeChop (dtree2Ops entriesPerLeaf) fuel sb root index tuxkeyLimit

/-! ## The leaves -/

/-- A leaf of the index of a file: its first entry is at its first key, and the extents are
such that a segment can have one. -/
structure DleafValid (entriesPerLeaf lo hi : Nat) (leaf : Dleaf2) : Prop where
  ok : leaf.Ok entriesPerLeaf lo hi
  short : ShortExtents leaf.entries
  first : ∀ ex, leaf.entries.head? = some ex → lo ≤ ex.logical

/-- The block of a logical address in a leaf. -/
def dleafMap (leaf : Dleaf2) (x : Nat) : Option Nat := extentMap leaf.entries x

section

variable {leaf out : Dleaf2} {front back entries : List DiskExtent} {ex : DiskExtent}
  {entriesPerLeaf lo mid hi start ret x : Nat} {frees log : List BlockSegment}

/-- The blocks of a leaf are those of its keys. -/
theorem DleafValid.bounds (h : DleafValid entriesPerLeaf lo hi leaf) (hx : dleafMap leaf x ≠ none) :
    lo ≤ x ∧ x < hi := by
  constructor
  · refine Nat.le_of_not_lt fun hlt => hx (extentMap_of_lt fun e he => ?_)
    have hasc := h.ok.ascending
    cases hentries : leaf.entries with
    | nil =>
        rw [hentries] at he
        exact absurd he List.not_mem_nil
    | cons first rest =>
        have hfirst := h.first first (by rw [hentries]; rfl)
        rw [hentries] at hasc he
        rcases List.mem_cons.mp he with rfl | hrest
        · omega
        · have := (List.pairwise_cons.mp hasc).1 e hrest
          omega
  · refine Nat.lt_of_not_le fun hge => hx (extentMap_behind h.ok fun e he => ?_)
    exact Nat.le_trans (h.ok.le_limit e he) hge

theorem shortExtents_append : ShortExtents (front ++ back) ↔ ShortExtents front ∧
    ShortExtents back ∧ ∀ ex ∈ front.getLast?, ∀ next ∈ back.head?,
      ex.physical = 0 ∨ next.logical - ex.logical < 2 ^ 32 := List.isChain_append

/-- What a chop keeps: extents as short as they were, from the first entry on. -/
def KeepsExtents (entries out : List DiskExtent) : Prop :=
  ShortExtents out ∧ out.head?.map DiskExtent.logical = entries.head?.map DiskExtent.logical

/-- Some of the entries are kept. -/
theorem KeepsExtents.of_front (hne : front ≠ []) (hshort : ShortExtents (front ++ back)) :
    KeepsExtents (front ++ back) front := by
  refine ⟨(shortExtents_append.mp hshort).1, ?_⟩
  cases front with
  | nil => exact absurd rfl hne
  | cons f front => rfl

/-- An entry is cut off at the start, and is a hole from there on. -/
theorem KeepsExtents.of_cut {next sentinel : DiskExtent}
    (hshort : ShortExtents (front ++ ex :: next :: back)) (hle : ex.logical ≤ sentinel.logical)
    (hlt : sentinel.logical < next.logical) :
    KeepsExtents (front ++ ex :: next :: back) (front ++ [ex, sentinel]) := by
  obtain ⟨hfront, hback, hjoin⟩ := shortExtents_append.mp hshort
  refine ⟨shortExtents_append.mpr ⟨hfront, ?_, hjoin⟩, by cases front <;> rfl⟩
  refine List.isChain_pair.mpr ?_
  rcases (List.isChain_cons_cons.mp hback).1 with hhole | hcount
  · exact .inl hhole
  · exact .inr (by omega)

/-- The entry at the start becomes a hole. -/
theorem KeepsExtents.of_hole {sentinel : DiskExtent} (hshort : ShortExtents (front ++ ex :: back))
    (heq : sentinel.logical = ex.logical) :
    KeepsExtents (front ++ ex :: back) (front ++ [sentinel]) := by
  obtain ⟨hfront, -, hjoin⟩ := shortExtents_append.mp hshort
  refine ⟨shortExtents_append.mpr ⟨hfront, List.isChain_singleton _, fun last hlast next hnext => ?_⟩,
    ?_⟩
  · cases hnext
    rw [heq]
    exact hjoin last hlast ex rfl
  · cases front with
    | nil => simp [heq]
    | cons f front => rfl

theorem dleaf2Chop_keeps (h : leaf.Ok entriesPerLeaf lo hi) (hshort : ShortExtents leaf.entries)
    (hfirst : ∀ ex, leaf.entries.head? = some ex → ex.logical ≤ start)
    (hrun : dleaf2Chop leaf start tuxkeyLimit = .ok (ret, out, frees, log)) :
    KeepsExtents leaf.entries out.entries := by
  have hsame : KeepsExtents leaf.entries leaf.entries := ⟨hshort, rfl⟩
  by_cases hcount : leaf.count = 0
  · unfold dleaf2Chop at hrun
    rw [bind_of_ok (tuxAssert_of rfl), if_pos hcount] at hrun
    cases hrun
    exact hsame
  obtain ⟨front, ex, back, hentries, hle, hback⟩ := h.exists_at hcount hfirst
  cases back with
  | nil =>
      rw [dleaf2Chop_behind h hentries hle] at hrun
      cases hrun
      exact hsame
  | cons next back =>
      obtain ⟨junk, htable, hlen, -⟩ := table_at h hentries
      have hnext := hback next List.mem_cons_self
      rw [hentries] at hshort ⊢
      rw [dleaf2Chop_inside h hentries hle hback] at hrun
      have hstart : (diskExtent start 0).logical = start :=
        diskExtent_logical 0 (Nat.lt_trans hnext next.logical_lt)
      have hlength : (front ++ [ex]).length = front.length + 1 := List.length_append
      have hmove : front ++ (ex :: next :: back ++ junk) =
          (front ++ [ex]) ++ (next :: back ++ junk) := by simp
      have hrest : leaf.count = (front ++ [ex]).length + (next :: back).length := by
        rw [hlength, hlen, List.length_cons]
        omega
      have hkept : front ++ ex :: next :: back = (front ++ [ex]) ++ next :: back := by simp
      split at hrun
      · rename_i heq
        obtain ⟨prev, hprev, hrun⟩ := bind_eq_ok.mp hrun
        split at hrun
        · -- the hole in front is the sentinel
          rename_i hhole
          have hpos : 0 < front.length := by
            refine Nat.pos_of_ne_zero fun hzero => ?_
            rw [hzero] at hprev
            cases hprev
            exact Bool.false_ne_true hhole
          have hdex : front.length - 1 + 1 = front.length := by omega
          rw [chopFrom_kept htable hdex hlen] at hrun
          cases hrun
          rw [entries_of_table htable hdex]
          exact .of_front (List.ne_nil_of_length_pos hpos) hshort
        · -- a sentinel in place of the entry
          obtain ⟨table, hput, hrun⟩ := bind_eq_ok.mp hrun
          rw [htable] at hput
          rw [show putExtent (front ++ (ex :: next :: back ++ junk)) front.length start 0 = .ok
            (front ++ diskExtent start 0 :: (next :: back ++ junk)) from putExtent_append rfl] at hput
          cases hput
          have hmove' : front ++ diskExtent start 0 :: (next :: back ++ junk) =
              (front ++ [diskExtent start 0]) ++ (next :: back ++ junk) := by simp
          have hlength' : (front ++ [diskExtent start 0]).length = front.length + 1 :=
            List.length_append
          rw [chopFrom_kept hmove' hlength'.symm (by rw [hlength', ← hlength]; exact hrest)] at hrun
          cases hrun
          rw [entries_of_table hmove' hlength'.symm]
          exact .of_hole hshort (hstart.trans ‹_›)
      · split at hrun
        · -- the hole at the start is the sentinel
          rw [chopFrom_kept (htable.trans hmove) hlength.symm hrest] at hrun
          cases hrun
          rw [entries_of_table (htable.trans hmove) hlength.symm, hkept]
          rw [hkept] at hshort
          exact .of_front (by simp) hshort
        · -- the extent is cut
          rw [chopFrom_put (htable.trans hmove) hlength.symm hrest] at hrun
          cases hrun
          have hput : (front ++ [ex]) ++ diskExtent start 0 :: (back ++ junk) =
              (front ++ [ex, diskExtent start 0]) ++ (back ++ junk) := by simp
          rw [entries_of_table hput (by simp)]
          exact .of_cut hshort (hstart.symm ▸ hle) (hstart.symm ▸ hnext)

/-- A leaf whose first and last entries are at one address has at most a sentinel. -/
theorem Dleaf2.Ok.few (h : leaf.Ok entriesPerLeaf lo hi)
    (hfirst : ∀ ex, leaf.entries.head? = some ex → lo ≤ ex.logical)
    (hlast : ∀ ex, leaf.entries.getLast? = some ex → ex.logical ≤ lo) : leaf.count ≤ 1 := by
  have hasc := h.ascending
  rw [← h.entries_length]
  cases hentries : leaf.entries with
  | nil => exact Nat.zero_le _
  | cons first rest =>
      cases rest with
      | nil => exact Nat.le_refl _
      | cons second rest =>
          obtain ⟨last, hmem⟩ : ∃ last, (second :: rest).getLast? = some last :=
            Option.ne_none_iff_exists'.mp (by simp)
          rw [hentries] at hfirst hlast hasc
          have hge := hfirst first rfl
          have hle := hlast last (by rw [List.getLast?_cons_cons]; exact hmem)
          have hlt := (List.pairwise_cons.mp hasc).1 last (List.mem_of_getLast? hmem)
          omega

/-- A leaf that is chopped from one of its keys on has none of the blocks there, which are freed. -/
theorem dtree2Chop_spec (h : DleafValid entriesPerLeaf lo hi leaf) (hlo : lo ≤ start) :
    ∃ out segs, leafAfterChop (dtree2Ops entriesPerLeaf) start tuxkeyLimit leaf = .ok (out, segs) ∧
      DleafValid entriesPerLeaf lo hi out ∧ (start = lo → out.count ≤ 1) ∧
      (∀ x, dleafMap out x = if x < start then dleafMap leaf x else none) ∧
      segs.flatMap BlockSegment.blocks = mappedFrom leaf.entries start := by
  have hfirst : ∀ ex, leaf.entries.head? = some ex → ex.logical ≤ start := fun ex hex =>
    Nat.le_trans (h.ok.first ex hex) hlo
  obtain ⟨ret, out, frees, hrun, hchopped⟩ := dleaf2Chop_right h.ok h.short hfirst
  obtain ⟨hshort, hhead⟩ := dleaf2Chop_keeps h.ok h.short hfirst hrun
  have hfirst' : ∀ ex, out.entries.head? = some ex → lo ≤ ex.logical := by
    intro ex hex
    rw [hex] at hhead
    obtain ⟨ex', hex', heq⟩ := Option.map_eq_some_iff.mp hhead.symm
    exact heq ▸ h.first ex' hex'
  have hvalid : DleafValid entriesPerLeaf lo hi out := ⟨hchopped.ok, hshort, hfirst'⟩
  have hcut : start = lo → out.count ≤ 1 := by
    rintro rfl
    refine hchopped.ok.few hfirst' fun last hlast => ?_
    by_cases hcount : leaf.count = 0
    · rw [h.ok.eq_nil hcount, List.head?_nil, Option.map_none, Option.map_eq_none_iff,
        List.head?_eq_none_iff] at hhead
      rw [hhead] at hlast
      cases hlast
    · obtain ⟨ex, hex, -, hle⟩ := hchopped.sentinel hcount
      rw [hlast] at hex
      exact Option.some.inj hex ▸ hle
  by_cases hret : ret = 0
  · obtain ⟨rfl, hnone⟩ := hchopped.same hret
    refine ⟨out, [], ?_, hvalid, hcut, hchopped.map, (mappedFrom_eq_nil hnone).symm⟩
    have hops : (dtree2Ops entriesPerLeaf).leafChop start tuxkeyLimit out = .ok none := by
      show (dleaf2Chop out start tuxkeyLimit >>= _) = _
      rw [bind_of_ok hrun]
      exact if_pos hret
    rw [leafAfterChop, bind_of_ok hops]
    rfl
  · refine ⟨out, frees, ?_, hvalid, hcut, hchopped.map, hchopped.freed⟩
    have hops : (dtree2Ops entriesPerLeaf).leafChop start tuxkeyLimit leaf =
        .ok (some (out, frees)) := by
      show (dleaf2Chop leaf start tuxkeyLimit >>= _) = _
      rw [bind_of_ok hrun]
      exact if_neg hret
    rw [leafAfterChop, bind_of_ok hops]
    rfl

/-- A leaf with no more than a sentinel goes into the one before it, which stays as it is. -/
theorem dtree2Merge_few {into from_ : Dleaf2} (hfew : from_.count ≤ 1) :
    (dtree2Ops entriesPerLeaf).leafMerge into from_ = .ok (some into) := by
  show (dleaf2Merge entriesPerLeaf into from_ >>= _) = _
  rw [bind_of_ok (show dleaf2Merge entriesPerLeaf into from_ = .ok (1, into, from_) from
    if_pos hfew)]
  rfl

theorem DleafValid.mono (h : DleafValid entriesPerLeaf lo mid leaf) (hle : mid ≤ hi) :
    DleafValid entriesPerLeaf lo hi leaf := ⟨h.ok.mono hle, h.short, h.first⟩

/-- The leaves do what `btree_chop` takes them for, where it truncates. -/
theorem dtree2Ops_laws (entriesPerLeaf : Nat) :
    LeafLaws (dtree2Ops entriesPerLeaf) dleafMap (DleafValid entriesPerLeaf)
      (fun leaf => leaf.count ≤ 1) (· = tuxkeyLimit) where
  bounds := fun h hx => h.bounds hx
  lens := fun hlen hlt => absurd hlt (Nat.not_lt.mpr (Nat.le_of_eq hlen.symm))
  chop := by
    rintro lo hi start len leaf h rfl hlo -
    obtain ⟨out, segs, hrun, hvalid, hcut, hmap, -⟩ := dtree2Chop_spec h hlo
    refine ⟨out, segs, hrun, hvalid, hcut, fun x => ?_⟩
    rw [hmap]
    by_cases hlt : x < start
    · rw [if_pos hlt, if_neg fun hin : start ≤ x ∧ x < start + tuxkeyLimit =>
        Nat.not_le_of_lt hlt hin.1]
    · rw [if_neg hlt]
      split
      · rfl
      · rename_i hout
        refine (extentMap_behind h.ok fun e _ => ?_).symm
        have := e.logical_lt
        have hbits : tuxkeyLimit = 2 ^ 48 := by unfold tuxkeyLimit; rfl
        omega
  merge := by
    intro lo mid hi into from_ hinto hfrom hcut _ hhi
    refine ⟨some into, dtree2Merge_few hcut, ?_⟩
    rintro leaf ⟨⟩
    refine ⟨hinto.mono (Nat.le_of_lt hhi), fun x => ?_⟩
    rw [show dleafMap from_ x = none from extentMap_few hfrom.ok hcut x, Option.or_none]

end

/-! ## The truncate of a row -/

section

variable {leaf : Dleaf2} {rest row : List (Nat × Dleaf2)} {entriesPerLeaf key start s : Nat}

/-- The blocks that a row of leaves has from a logical address on. -/
def rowBlocks (row : List (Nat × Dleaf2)) (start : Nat) : List Nat :=
  (List.range' start (tuxkeyLimit - start)).filterMap (rowLookup dleafMap row)

/-- The blocks of a row are those of its first leaf, and those of the others. -/
theorem rowBlocks_cons (h : RowValid (DleafValid entriesPerLeaf) ((key, leaf) :: rest))
    (hlt : s < rowKey rest) :
    rowBlocks ((key, leaf) :: rest) s = mappedFrom leaf.entries s ++ rowBlocks rest (rowKey rest) := by
  have hlimit := h.tail.rowKey_le
  have hsplit : List.range' s (tuxkeyLimit - s) =
      List.range' s (rowKey rest - s) ++ List.range' (rowKey rest) (tuxkeyLimit - rowKey rest) := by
    have hmid : s + (rowKey rest - s) = rowKey rest := by omega
    have hsum : rowKey rest - s + (tuxkeyLimit - rowKey rest) = tuxkeyLimit - s := by omega
    rw [← hsum, ← List.range'_append_1, hmid]
  have hleaf : ∀ x, rowKey rest ≤ x → dleafMap leaf x = none := fun x hx =>
    Classical.not_not.mp fun hne => Nat.not_le_of_lt (h.2.1.bounds hne).2 hx
  have hrest : ∀ x, x < rowKey rest → rowLookup dleafMap rest x = none := fun x hx =>
    Classical.not_not.mp fun hne =>
      Nat.not_le_of_lt hx (h.tail.rowKey_le_of_has (dtree2Ops_laws entriesPerLeaf) hne)
  have hown : mappedFrom leaf.entries s =
      (List.range' s (rowKey rest - s)).filterMap (dleafMap leaf) := by
    have hnone : (List.range' (rowKey rest) (tuxkeyLimit - rowKey rest)).filterMap
        (dleafMap leaf) = [] :=
      List.filterMap_eq_nil_iff.mpr fun x hx => hleaf x (List.mem_range'_1.mp hx).1
    show (List.range' s (tuxkeyLimit - s)).filterMap (dleafMap leaf) = _
    rw [hsplit, List.filterMap_append, hnone, List.append_nil]
  rw [hown, rowBlocks, rowBlocks, hsplit, List.filterMap_append]
  refine congrArg₂ (· ++ ·) (List.filterMap_congr fun x hx => ?_) (List.filterMap_congr fun x hx => ?_)
  · have hx := (List.mem_range'_1.mp hx).2
    rw [rowLookup_cons, hrest x (by omega), Option.or_none]
  · rw [rowLookup_cons, hleaf x (List.mem_range'_1.mp hx).1, Option.none_or]

/-- In a row that is valid, leaves begin before the limit. -/
theorem rowKey_lt_limit (h : RowValid (DleafValid entriesPerLeaf) row) (hne : row ≠ []) :
    rowKey row < tuxkeyLimit := by
  cases row with
  | nil => exact absurd rfl hne
  | cons p row => exact Nat.lt_of_lt_of_le h.1 h.tail.rowKey_le

/-- The leaves behind the cut lose all of their blocks, and go into the leaf before them. -/
theorem chopRow_behind (prev : Nat × Dleaf2) (h : RowValid (DleafValid entriesPerLeaf) rest)
    (hstart : start ≤ rowKey rest) :
    ∃ segs, chopRow (dtree2Ops entriesPerLeaf) tuxkeyLimit rest (some prev) start tuxkeyLimit =
        .ok ([prev], segs) ∧
      segs.flatMap BlockSegment.blocks = rowBlocks rest (rowKey rest) := by
  induction rest generalizing start with
  | nil =>
      refine ⟨[], rfl, ?_⟩
      rw [rowBlocks, rowKey_nil, Nat.sub_self]
      rfl
  | cons p rest ih =>
      obtain ⟨key, leaf⟩ := p
      have hclip : clipStart start key = key := by
        rw [rowKey_cons] at hstart
        unfold clipStart
        split <;> omega
      have hlen : clipLen tuxkeyLimit start tuxkeyLimit key = tuxkeyLimit :=
        if_neg fun hclip => Nat.lt_irrefl _ hclip.2
      obtain ⟨leaf', segs, hrun, -, hfew, -, hfreed⟩ := dtree2Chop_spec h.2.1 (Nat.le_refl key)
      have hjoin : joinLeaf (dtree2Ops entriesPerLeaf) (some prev) (key, leaf') = .ok ([], prev) := by
        unfold joinLeaf
        dsimp only
        rw [bind_of_ok (dtree2Merge_few (hfew rfl))]
        rfl
      rw [rowKey_cons, rowBlocks_cons h h.1, chopRow_cons (by rw [hclip, hlen]; exact hrun) hjoin,
        hclip, hlen]
      by_cases hdone : tuxkeyLimit ≤ rowKey rest
      · obtain rfl : rest = [] := Classical.not_not.mp fun hne =>
          Nat.not_le_of_lt (rowKey_lt_limit h.tail hne) hdone
        rw [if_pos hdone]
        refine ⟨segs, rfl, ?_⟩
        rw [hfreed, rowBlocks, rowKey_nil, Nat.sub_self]
        exact (List.append_nil _).symm
      · rw [if_neg hdone]
        obtain ⟨segs', hrest, hfreed'⟩ := ih h.tail (Nat.le_of_lt h.1)
        rw [hrest]
        refine ⟨segs ++ segs', rfl, ?_⟩
        rw [List.flatMap_append, hfreed, hfreed']

/-- What a truncate leaves of a row: the leaf with the cut, without the blocks behind it. -/
theorem chopRow_truncates (h : RowValid (DleafValid entriesPerLeaf) ((key, leaf) :: rest))
    (hlo : key ≤ start) (hhi : start < rowKey rest) :
    ∃ leaf' segs, chopRow (dtree2Ops entriesPerLeaf) tuxkeyLimit ((key, leaf) :: rest) none start
        tuxkeyLimit = .ok ([(key, leaf')], segs) ∧
      (start = key → leaf'.count ≤ 1) ∧
      segs.flatMap BlockSegment.blocks = rowBlocks ((key, leaf) :: rest) start := by
  have hclip : clipStart start key = start := if_neg (Nat.not_lt_of_le hlo)
  have hlen : clipLen tuxkeyLimit start tuxkeyLimit key = tuxkeyLimit :=
    if_neg fun hclip => Nat.lt_irrefl _ hclip.2
  obtain ⟨leaf', segs, hrun, -, hfew, -, hfreed⟩ := dtree2Chop_spec h.2.1 hlo
  have hjoin : joinLeaf (dtree2Ops entriesPerLeaf) none (key, leaf') = .ok ([], (key, leaf')) := rfl
  rw [rowBlocks_cons h hhi, chopRow_cons (by rw [hclip, hlen]; exact hrun) hjoin, hclip, hlen]
  by_cases hdone : tuxkeyLimit ≤ rowKey rest
  · obtain rfl : rest = [] := Classical.not_not.mp fun hne =>
      Nat.not_le_of_lt (rowKey_lt_limit h.tail hne) hdone
    rw [if_pos hdone]
    refine ⟨leaf', segs, rfl, hfew, ?_⟩
    rw [hfreed, rowBlocks, rowKey_nil, Nat.sub_self]
    exact (List.append_nil _).symm
  · rw [if_neg hdone]
    obtain ⟨segs', hrest, hfreed'⟩ := chopRow_behind (key, leaf') h.tail (Nat.le_of_lt hhi)
    rw [hrest]
    refine ⟨leaf', segs ++ segs', rfl, hfew, ?_⟩
    rw [List.flatMap_append, hfreed, hfreed']

end

/-! ## The truncate of a file -/

/-- The block of a logical address of a file, as `btree_probe` and the leaf have it. -/
def fileMap (sb : BtreeSb Dleaf2) (root : Root) (x : Nat) : Except TuxError (Option Nat) :=
  treeLookup dleafMap sb root x

/-- The blocks of a file from a logical address on. -/
def fileBlocks (sb : BtreeSb Dleaf2) (root : Root) (start : Nat) : List Nat :=
  (List.range' start (tuxkeyLimit - start)).filterMap fun x => (fileMap sb root x).toOption.join

/-- A well-formed index of a file. -/
structure FileOk (entriesPerLeaf : Nat) (sb : BtreeSb Dleaf2) (root : Root) : Prop where
  wellFormed : WellFormed sb root
  leaves : RowValid (DleafValid entriesPerLeaf) (leafRow sb (treeLeaves sb root))

section

variable {sb : BtreeSb Dleaf2} {root : Root} {entriesPerLeaf fuel start : Nat}

theorem FileOk.fileMap_eq (h : FileOk entriesPerLeaf sb root) (x : Nat) :
    fileMap sb root x = .ok (rowLookup dleafMap (leafRow sb (treeLeaves sb root)) x) :=
  treeLookup_eq (dtree2Ops_laws entriesPerLeaf) h.wellFormed h.leaves x

/-- The blocks of a file are those of the leaves that are not before the address. -/
theorem FileOk.fileBlocks_eq (h : FileOk entriesPerLeaf sb root) {pre row : List (Nat × Dleaf2)}
    (hrow : leafRow sb (treeLeaves sb root) = pre ++ row) (hstart : rowKey row ≤ start) :
    fileBlocks sb root start = rowBlocks row start := by
  refine List.filterMap_congr fun x hx => ?_
  have hleaves := h.leaves
  rw [hrow] at hleaves
  have hpre : rowLookup dleafMap pre x = none := Classical.not_not.mp fun hne => by
    have hlt := hleaves.front_lt (dtree2Ops_laws entriesPerLeaf) hne
    have hge := (List.mem_range'_1.mp hx).1
    omega
  rw [h.fileMap_eq, hrow, rowLookup_append, hpre, Option.none_or]
  rfl

/-- A chop of a file to its end. -/
theorem btreeChop_truncates (h : FileOk entriesPerLeaf sb root) (hstart : start < tuxkeyLimit)
    (hfuel : (treeLeaves sb root).length ≤ fuel) :
    Ensures (· = .enospc) (btreeChop (dtree2Ops entriesPerLeaf) fuel sb root start tuxkeyLimit)
      fun (sb', root') =>
        FileOk entriesPerLeaf sb' root' ∧
        (∀ x, ∃ b, fileMap sb root x = .ok b ∧
          fileMap sb' root' x = .ok (if start ≤ x then none else b)) ∧
        ∃ pre e post leaf segs, treeLeaves sb root = pre ++ e :: post ∧ e.key ≤ start ∧
          (start = e.key → leaf.count ≤ 1) ∧
          TreeChopped sb root (leafRow sb pre ++ [(e.key, leaf)]) segs sb' root' ∧
          segs.flatMap BlockSegment.blocks = fileBlocks sb root start := by
  have laws := dtree2Ops_laws entriesPerLeaf
  obtain ⟨pre, e, post, hleaves, hlo, hhi, hchops⟩ := btreeChop_spec h.wellFormed hfuel
  have hsplit : leafRow sb (treeLeaves sb root) = leafRow sb pre ++ leafRow sb (e :: post) := by
    rw [hleaves, leafRow_append]
  have hrow := h.leaves
  rw [hsplit] at hrow
  have hnext : start < rowKey (leafRow sb post) := by
    cases post with
    | nil =>
        rw [leafRow_nil, rowKey_nil]
        exact hstart
    | cons q post => exact hhi q rfl
  have hlimit : chopLimit start tuxkeyLimit = tuxkeyLimit := if_pos (Nat.le_refl _)
  have hpast : start < e.key → e.key < tuxkeyLimit := fun hlt =>
    absurd hlo (Nat.not_le_of_lt hlt)
  have hends : RangeEnds tuxkeyLimit start tuxkeyLimit := by
    have := chopLimit_ends tuxkeyLimit hstart
    rwa [hlimit] at this
  obtain ⟨leaf, segs, hchopRow, hfew, hfreed⟩ := chopRow_truncates hrow.right hlo hnext
  obtain ⟨row', segs', hchopRow', hchopped⟩ := chopRow_spec laws
    (show RowValid (DleafValid entriesPerLeaf)
      ((none : Option (Nat × Dleaf2)).toList ++ (e.key, sb.leaves e.block) :: leafRow sb post) from
        hrow.right)
    (Eq.refl tuxkeyLimit) hnext (fun hne => absurd rfl hne) hpast hends
  obtain ⟨rfl, rfl⟩ := Prod.mk.inj (Except.ok.inj (hchopRow.symm.trans hchopRow'))
  refine (hchops _ segs (hlimit.symm ▸ hchopRow)).mono ?_
  rintro ⟨sb', root'⟩ htree
  have hok : FileOk entriesPerLeaf sb' root' := by
    refine ⟨htree.wellFormed, ?_⟩
    rw [htree.row]
    exact hrow.replace hchopped.valid hchopped.first
  refine ⟨hok, fun x => ⟨_, h.fileMap_eq x, ?_⟩, pre, e, post, leaf, segs, hleaves, hlo, hfew, htree,
    ?_⟩
  · rw [hok.fileMap_eq, htree.row, hchopped.lookup_front laws hrow hlo hends, ← hsplit]
    refine congrArg Except.ok ?_
    by_cases hnone : rowLookup dleafMap (leafRow sb (treeLeaves sb root)) x = none
    · rw [hnone, ite_self, ite_self]
    · have hx := h.leaves.lt_limit laws hnone
      have hin : (start ≤ x ∧ x < start + tuxkeyLimit) ↔ start ≤ x := by omega
      simp only [hin]
  · rw [hfreed, h.fileBlocks_eq hsplit hlo]
    rfl

end

/-- A file with a root bnode in block 1 over the leaves in blocks 2 and 3. -/
def smallFileSb : BtreeSb Dleaf2 where
  entriesPerNode := 4
  bnodes := fun b => if b = 1 then [⟨0, 2⟩, ⟨8, 3⟩] else []
  leaves := fun b => if b = 2 then leafAt0 else leafAt8
  bitmap := fun b => decide (b < 4)
  freeblocks := 10
  answers := [6, 7, 8]
  bfreed := []
  state := fun _ => .clean
  defree := []
  deunify := []
  log := []

theorem smallFileSb_wellFormed : WellFormed smallFileSb ⟨1, 1⟩ where
  depth_pos := by decide
  nodes := by
    intro m hm e he
    obtain rfl : m = 0 := Nat.lt_one_iff.mp hm
    rw [List.mem_singleton.mp he]
    exact ⟨rfl, by decide⟩
  sorted := by
    unfold IndexForest.Sorted
    decide
  bounded := by decide
  distinct := by
    unfold IndexForest.Distinct
    decide
  allocated := by decide

theorem smallFileSb_leaves :
    leafRow smallFileSb (treeLeaves smallFileSb ⟨1, 1⟩) = [(0, leafAt0), (8, leafAt8)] := rfl

theorem leafAt0_valid : DleafValid 6 0 8 leafAt0 where
  ok := leafAt0_ok
  short := by
    unfold ShortExtents
    decide
  first := by
    rintro ex ⟨⟩
    decide

theorem leafAt8_valid : DleafValid 6 8 tuxkeyLimit leafAt8 where
  ok := leafAt8_ok.mono (by unfold tuxkeyLimit; decide)
  short := by
    unfold ShortExtents
    decide
  first := by
    rintro ex ⟨⟩
    decide

theorem smallFileSb_ok : FileOk 6 smallFileSb ⟨1, 1⟩ where
  wellFormed := smallFileSb_wellFormed
  leaves := by
    have hlast : 8 < tuxkeyLimit := by unfold tuxkeyLimit; decide
    rw [smallFileSb_leaves]
    refine ⟨Nat.succ_pos 7, leafAt0_valid, ?_, ?_, trivial⟩
    · rw [rowKey_nil]
      exact hlast
    · rw [rowKey_nil]
      exact leafAt8_valid

theorem tux3TruncateBlocks_smallFile :
    (tux3TruncateBlocks 6 12 2 smallFileSb ⟨1, 1⟩ 18000).toOption.map
      (fun (sb', _) => sb'.defree) = some [⟨2, 1⟩, ⟨10, 1⟩, ⟨3, 1⟩, ⟨40, 4⟩] := by
  decide +kernel

end Tux3
