/-
  Filemap/Dleaf2Chop.lean --- the truncate of a leaf of the file index.

  A chop makes the entry at its start the sentinel, or puts one there, and frees the extents behind
  it.  The number of blocks of an extent is taken in 32 bits, which is what a segment can have.
-/
import Mathlib.Data.List.Chain
import Tux3.Btree.Node
import Tux3.Filemap.Dleaf2Read

set_option autoImplicit false

namespace Tux3

open Outcome (bind_of_ok)
open StepTable (Ascending)

/-! ## The code -/

/-- The variables of the loop of `dleaf2_chop`, with what went to `defer_bfree` and `log_bfree`. -/
structure LeafChop where
  table : List DiskExtent
  needSentinel : Bool
  start : Nat
  block : Nat
  defree : List BlockSegment
  log : List BlockSegment

/-- The blocks that are freed in front of an entry; their number is unsigned. -/
def chopFree (start block : Nat) (ex : DiskExtent) : List BlockSegment :=
  let count := (ex.logical + 2 ^ 64 - start) % 2 ^ 32
  if block ≠ 0 ∧ count ≠ 0 then [⟨block, count⟩] else []

/-- The new sentinel of `dleaf2_chop`, if there is to be one. -/
def putSentinel (table : List DiskExtent) (needSentinel : Bool) (dex start : Nat) :
    Except TuxError (List DiskExtent) :=
  if needSentinel then putExtent table dex start 0 else .ok table

/-- The loop of `dleaf2_chop`. -/
def chopLoop (dexLimit : Nat) : Nat → Nat → LeafChop → Except TuxError LeafChop
  | 0, _, _ => .error .fuel
  | fuel + 1, dex, s =>
      if dex < dexLimit then do
        let ex ← getExtent s.table dex
        let freed := chopFree s.start s.block ex
        let table ← putSentinel s.table s.needSentinel dex s.start
        chopLoop dexLimit fuel (dex + 1)
          ⟨table, false, ex.logical, ex.physical, s.defree ++ freed, s.log ++ freed⟩
      else return s

/-- The end of `dleaf2_chop`: `dex` is the last entry that is kept in front of a new sentinel. -/
def chopFrom (leaf : Dleaf2) (table : List DiskExtent) (dex : Nat) (needSentinel : Bool)
    (start block : Nat) : Except TuxError (Nat × Dleaf2 × List BlockSegment × List BlockSegment) := do
  let s ← chopLoop leaf.count (leaf.count + 1) (dex + 1) ⟨table, needSentinel, start, block, [], []⟩
  return (1, ⟨dex + 1 + (if needSentinel then 1 else 0), s.table⟩, s.defree, s.log)

/-- Whether the entry in front of another one is a hole. -/
def prevIsHole (table : List DiskExtent) (dex : Nat) : Except TuxError Bool :=
  if 0 < dex then do
    let prev ← getExtent table (dex - 1)
    return decide (prev.physical = 0)
  else return false

/-- `dleaf2_chop`: the result, the leaf, and what went to `defer_bfree` and `log_bfree`. -/
def dleaf2Chop (leaf : Dleaf2) (start len : Nat) :
    Except TuxError (Nat × Dleaf2 × List BlockSegment × List BlockSegment) := do
  tuxAssert (len = tuxkeyLimit)
  if leaf.count = 0 then return (0, leaf, [], [])
  else do
    let dex ← dleaf2LookupIndex leaf start
    if leaf.count ≤ dex + 1 then return (0, leaf, [], [])
    else do
      let ex ← getExtent leaf.table dex
      if start = ex.logical then do
        let prev ← prevIsHole leaf.table dex
        if prev then chopFrom leaf leaf.table (dex - 1) false start ex.physical
        else do
          let table ← putExtent leaf.table dex start 0
          chopFrom leaf table dex false start ex.physical
      else if ex.physical = 0 then chopFrom leaf leaf.table dex false ex.logical ex.physical
      else chopFrom leaf leaf.table dex true start (ex.physical + (start - ex.logical))

/-! ## What a chop is to do -/

/-- The blocks from a logical address on. -/
def mappedFrom (entries : List DiskExtent) (start : Nat) : List Nat :=
  (List.range' start (tuxkeyLimit - start)).filterMap (extentMap entries)

/-- The result of a chop: the blocks from its start on are freed, and are not in the leaf. -/
structure Chopped (leaf : Dleaf2) (entriesPerLeaf bottom limit start ret : Nat) (out : Dleaf2)
    (frees : List BlockSegment) : Prop where
  ok : out.Ok entriesPerLeaf bottom limit
  sentinel : leaf.count ≠ 0 →
    ∃ ex, out.entries.getLast? = some ex ∧ ex.physical = 0 ∧ ex.logical ≤ start
  map : ∀ x, extentMap out.entries x = if x < start then extentMap leaf.entries x else none
  freed : frees.flatMap BlockSegment.blocks = mappedFrom leaf.entries start
  counts : ∀ seg ∈ frees, 0 < seg.count ∧ seg.count < 2 ^ 32
  result : ret = 0 ∨ ret = 1
  same : ret = 0 → out = leaf ∧ ∀ x, start ≤ x → extentMap leaf.entries x = none

/-- The extents have less than `2 ^ 32` blocks, which is what a segment can have. -/
def ShortExtents (entries : List DiskExtent) : Prop :=
  entries.IsChain fun ex next => ex.physical = 0 ∨ next.logical - ex.logical < 2 ^ 32

section

variable {leaf : Dleaf2} {front back rest junk entries : List DiskExtent} {ex next : DiskExtent}
  {entriesPerLeaf bottom limit start block : Nat}

/-! ## The loop -/

/-- What the loop frees. -/
def freedExtents : Nat → Nat → List DiskExtent → List BlockSegment
  | _, _, [] => []
  | start, block, ex :: rest => chopFree start block ex ++ freedExtents ex.logical ex.physical rest

/-- The loop goes over the rest of the entries. -/
theorem chopLoop_rest (fuel : Nat) (defree log : List BlockSegment) (hfuel : rest.length < fuel) :
    ∃ s, chopLoop (front.length + rest.length) fuel front.length
        ⟨front ++ (rest ++ junk), false, start, block, defree, log⟩ = .ok s ∧
      s.table = front ++ (rest ++ junk) ∧ s.defree = defree ++ freedExtents start block rest ∧
      s.log = log ++ freedExtents start block rest := by
  induction rest generalizing front fuel start block defree log with
  | nil =>
      obtain ⟨fuel, rfl⟩ := Nat.exists_eq_add_of_lt hfuel
      have hend : ¬front.length < front.length + ([] : List DiskExtent).length := Nat.lt_irrefl _
      rw [chopLoop, if_neg hend]
      exact ⟨_, rfl, rfl, (List.append_nil _).symm, (List.append_nil _).symm⟩
  | cons ex rest ih =>
      cases fuel with
      | zero => exact absurd hfuel (Nat.not_lt_zero _)
      | succ fuel =>
          have hmove : front ++ (ex :: rest ++ junk) = (front ++ [ex]) ++ (rest ++ junk) := by simp
          have hlimit : front.length + (ex :: rest).length = (front ++ [ex]).length + rest.length := by
            rw [List.length_append, List.length_cons, List.length_singleton]
            omega
          have hread : getExtent (front ++ (ex :: rest ++ junk)) front.length = .ok ex :=
            getExtent_append rfl
          have hlength : (front ++ [ex]).length = front.length + 1 := List.length_append
          have hlt : front.length < front.length + (ex :: rest).length :=
            Nat.lt_add_of_pos_right (Nat.succ_pos _)
          obtain ⟨s, hrun, htable, hdefree, hlog⟩ := @ih (front ++ [ex]) ex.logical ex.physical fuel
            (defree ++ chopFree start block ex) (log ++ chopFree start block ex)
            (Nat.lt_of_succ_lt_succ hfuel)
          refine ⟨s, ?_, ?_, ?_, ?_⟩
          · rw [chopLoop, if_pos hlt, bind_of_ok hread]
            show chopLoop _ fuel (front.length + 1) ⟨front ++ (ex :: rest ++ junk), _, _, _, _, _⟩ =
              .ok s
            rw [hmove, hlimit, ← hlength]
            exact hrun
          · rw [htable, hmove]
          · rw [hdefree, List.append_assoc]
            rfl
          · rw [hlog, List.append_assoc]
            rfl

/-- In front of an entry nothing is freed behind a hole, or without blocks. -/
theorem freedExtents_skip (h : block = 0 ∨ start = ex.logical) :
    freedExtents start block (ex :: rest) = freedExtents ex.logical ex.physical rest := by
  have hnone : chopFree start block ex = [] := by
    unfold chopFree
    dsimp only
    rw [if_neg]
    intro hboth
    rcases h with hzero | heq
    · exact hboth.1 hzero
    · refine hboth.2 ?_
      rw [heq, Nat.add_sub_cancel_left]
      rfl
  exact congrArg (· ++ _) hnone

theorem freedExtents_counts (start block : Nat) (rest : List DiskExtent) :
    ∀ seg ∈ freedExtents start block rest, 0 < seg.count ∧ seg.count < 2 ^ 32 := by
  induction rest generalizing start block with
  | nil => exact fun seg hseg => absurd hseg List.not_mem_nil
  | cons ex rest ih =>
      intro seg hseg
      rcases List.mem_append.mp hseg with hin | hin
      · unfold chopFree at hin
        dsimp only at hin
        split at hin
        · rename_i hfree
          rw [List.mem_singleton.mp hin]
          exact ⟨Nat.pos_of_ne_zero hfree.2, Nat.mod_lt _ (by decide)⟩
        · exact absurd hin List.not_mem_nil
      · exact ih _ _ seg hin

/-! ## The blocks -/

/-- The blocks of an entry up to the next one. -/
theorem chopFree_blocks (hle : ex.logical ≤ start) (hnext : start ≤ next.logical)
    (hrest : ∀ b ∈ rest, next.logical < b.logical)
    (hshort : ex.physical = 0 ∨ next.logical - ex.logical < 2 ^ 32) :
    (chopFree start (ex.blockAt start) next).flatMap BlockSegment.blocks =
      (List.range' start (next.logical - start)).filterMap (extentMap (ex :: next :: rest)) := by
  have hmap : ∀ x ∈ List.range' start (next.logical - start), extentMap (ex :: next :: rest) x =
      if ex.physical = 0 then none else some (ex.physical + (x - ex.logical)) := by
    intro x hx
    obtain ⟨hge, hlt⟩ := List.mem_range'_1.mp hx
    refine @extentMap_split [] (next :: rest) ex x (Nat.le_trans hle hge)
      (List.forall_mem_cons.mpr ⟨by omega, fun b hb => ?_⟩)
    have hb := hrest b hb
    omega
  rw [List.filterMap_congr hmap]
  unfold chopFree DiskExtent.blockAt
  by_cases hhole : ex.physical = 0
  · simp [hhole]
  have hcount : (next.logical + 2 ^ 64 - start) % 2 ^ 32 = next.logical - start := by
    have hshort := hshort.resolve_left hhole
    omega
  simp only [hhole, if_false, hcount]
  rw [List.filterMap_eq_map', List.range'_eq_map_range, List.map_map]
  split
  · rw [List.flatMap_singleton]
    unfold BlockSegment.blocks
    refine List.map_congr_left fun i _ => ?_
    show ex.physical + (start - ex.logical) + i = ex.physical + (start + i - ex.logical)
    omega
  · rename_i hnone
    have hzero : next.logical - start = 0 := by omega
    rw [hzero]
    rfl

/-- What the loop frees are the blocks from its start on. -/
theorem freedExtents_blocks (hasc : Ascending DiskExtent.logical (ex :: rest))
    (hshort : ShortExtents (ex :: rest)) (hle : ex.logical ≤ start)
    (hrest : ∀ b ∈ rest, start ≤ b.logical)
    (hlast : ∀ l, (ex :: rest).getLast? = some l → l.physical = 0) :
    (freedExtents start (ex.blockAt start) rest).flatMap BlockSegment.blocks =
      mappedFrom (ex :: rest) start := by
  unfold mappedFrom
  induction rest generalizing ex start with
  | nil =>
      symm
      refine List.filterMap_eq_nil_iff.mpr fun x hx => ?_
      exact @extentMap_sentinel [] _ _ (Nat.le_trans hle (List.mem_range'_1.mp hx).1)
        (hlast ex rfl)
  | cons next rest ih =>
      obtain ⟨hfirst, hasc'⟩ := List.pairwise_cons.mp hasc
      obtain ⟨hpair, hshort'⟩ := List.isChain_cons_cons.mp hshort
      have hnext := hrest next List.mem_cons_self
      have hafter := (List.pairwise_cons.mp hasc').1
      have hlt : next.logical < tuxkeyLimit := next.logical_lt
      have hih := ih hasc' hshort' (Nat.le_refl _) (fun b hb => Nat.le_of_lt (hafter b hb))
        fun l hl => hlast l (by rw [List.getLast?_cons_cons]; exact hl)
      rw [next.blockAt_logical] at hih
      have hsum : tuxkeyLimit - start =
          (next.logical - start) + (tuxkeyLimit - next.logical) := by omega
      have hmid : start + (next.logical - start) = next.logical := Nat.add_sub_cancel' hnext
      have hbehind : ∀ x ∈ List.range' next.logical (tuxkeyLimit - next.logical),
          extentMap (ex :: next :: rest) x = extentMap (next :: rest) x := by
        intro x hx
        exact @extentMap_append_of_le [ex] _ _
          ⟨next, List.mem_cons_self, (List.mem_range'_1.mp hx).1⟩
      unfold freedExtents
      rw [List.flatMap_append, chopFree_blocks hle hnext hafter hpair, hih, hsum,
        ← List.range'_append_1, hmid, List.filterMap_append, List.filterMap_congr hbehind]

/-- The entries in front of the one at the start do not count. -/
theorem mappedFrom_append (hle : ex.logical ≤ start) :
    mappedFrom (front ++ ex :: back) start = mappedFrom (ex :: back) start := by
  unfold mappedFrom
  refine List.filterMap_congr fun x hx => ?_
  exact extentMap_append_of_le
    ⟨ex, List.mem_cons_self, Nat.le_trans hle (List.mem_range'_1.mp hx).1⟩

theorem mappedFrom_eq_nil (h : ∀ x, start ≤ x → extentMap entries x = none) :
    mappedFrom entries start = [] := by
  unfold mappedFrom
  exact List.filterMap_eq_nil_iff.mpr fun x hx => h x (List.mem_range'_1.mp hx).1

/-! ## The cases of `dleaf2_chop` -/

/-- The last entry that is kept is the sentinel. -/
theorem chopFrom_kept {table : List DiskExtent} {dex : Nat}
    (htable : table = front ++ (rest ++ junk)) (hdex : dex + 1 = front.length)
    (hcount : leaf.count = front.length + rest.length) :
    chopFrom leaf table dex false start block = .ok (1, ⟨dex + 1, table⟩,
      freedExtents start block rest, freedExtents start block rest) := by
  obtain ⟨s, hrun, hs, hdefree, hlog⟩ := @chopLoop_rest front rest junk start block
    (leaf.count + 1) [] [] (by omega)
  rw [← hcount, ← hdex, ← htable] at hrun
  rw [← htable] at hs
  unfold chopFrom
  rw [bind_of_ok hrun, hs, hdefree, hlog, List.nil_append]
  rfl

/-- The sentinel is put behind the last entry that is kept. -/
theorem chopFrom_put {table : List DiskExtent} {dex : Nat}
    (htable : table = front ++ (next :: rest ++ junk)) (hdex : dex + 1 = front.length)
    (hcount : leaf.count = front.length + (next :: rest).length) :
    chopFrom leaf table dex true start block =
      .ok (1, ⟨dex + 2, front ++ diskExtent start 0 :: (rest ++ junk)⟩,
        freedExtents start block (next :: rest), freedExtents start block (next :: rest)) := by
  have hread : getExtent (front ++ (next :: rest ++ junk)) front.length = .ok next :=
    getExtent_append rfl
  have hput : putExtent (front ++ (next :: rest ++ junk)) front.length start 0 =
      .ok (front ++ diskExtent start 0 :: (rest ++ junk)) := putExtent_append rfl
  have hmove : front ++ diskExtent start 0 :: (rest ++ junk) =
      (front ++ [diskExtent start 0]) ++ (rest ++ junk) := by simp
  have hlength : (front ++ [diskExtent start 0]).length = front.length + 1 := List.length_append
  have hlimit : leaf.count = (front ++ [diskExtent start 0]).length + rest.length := by
    rw [hcount, hlength, List.length_cons]
    omega
  have hlt : front.length < leaf.count := by omega
  obtain ⟨s, hrun, hs, hdefree, hlog⟩ := @chopLoop_rest (front ++ [diskExtent start 0]) rest junk
    next.logical next.physical leaf.count (chopFree start block next) (chopFree start block next)
    (by omega)
  have hturn : chopLoop leaf.count (leaf.count + 1) (dex + 1)
      ⟨front ++ (next :: rest ++ junk), true, start, block, [], []⟩ = .ok s := by
    rw [hdex, chopLoop, if_pos hlt, bind_of_ok hread]
    show (putExtent (front ++ (next :: rest ++ junk)) front.length start 0 >>= _) = _
    rw [bind_of_ok hput, hmove, ← hlength]
    rw [← hlimit] at hrun
    exact hrun
  unfold chopFrom
  rw [htable, bind_of_ok hturn, hs, hdefree, hlog, ← hmove]
  rfl

theorem prevIsHole_append {table : List DiskExtent} {prev : DiskExtent} {dex : Nat}
    (htable : table = front ++ prev :: back) (hdex : dex = front.length + 1) :
    prevIsHole table dex = .ok (decide (prev.physical = 0)) := by
  have hread : getExtent table (dex - 1) = .ok prev := by
    rw [htable]
    exact getExtent_append (by omega)
  unfold prevIsHole
  rw [if_pos (by omega), bind_of_ok hread]
  rfl

/-- A chop that keeps some entries, with a hole behind them. -/
theorem Chopped.of_kept {out : Dleaf2} {kept : List DiskExtent} {sentinel : DiskExtent}
    {frees : List BlockSegment} (h : leaf.Ok entriesPerLeaf bottom limit)
    (hshort : ShortExtents leaf.entries) (hentries : leaf.entries = front ++ ex :: back)
    (hle : ex.logical ≤ start) (hback : ∀ b ∈ back, start < b.logical)
    (hout : out.entries = kept ++ [sentinel]) (hmemory : out.table.length = entriesPerLeaf)
    (hcount : out.count ≤ entriesPerLeaf)
    (hfirst : ∀ e, out.entries.head? = some e → e.logical ≤ bottom)
    (hhole : sentinel.physical = 0) (hsentinel : sentinel.logical ≤ start)
    (hlimit : sentinel.logical ≤ limit)
    (hasc : Ascending DiskExtent.logical (kept ++ [sentinel]))
    (hbelow : ∀ x, x < sentinel.logical → extentMap leaf.entries x = extentMap kept x)
    (hnone : ∀ x, sentinel.logical ≤ x → x < start → extentMap leaf.entries x = none)
    (hfrees : frees = freedExtents start (ex.blockAt start) back) :
    Chopped leaf entriesPerLeaf bottom limit start 1 out frees where
  ok := by
    refine ⟨hmemory, hcount, hout ▸ hasc, hfirst, fun e he => ?_⟩
    rw [hout, List.getLast?_append] at he
    obtain rfl := Option.some.inj he
    exact ⟨hhole, hlimit⟩
  sentinel := by
    refine fun _ => ⟨sentinel, ?_, hhole, hsentinel⟩
    rw [hout, List.getLast?_append]
    rfl
  map := by
    intro x
    rw [hout]
    rcases Nat.lt_or_ge x sentinel.logical with hlt | hge
    · rw [if_pos (Nat.lt_of_lt_of_le hlt hsentinel), hbelow x hlt]
      exact extentMap_append_of_lt fun e he => List.mem_singleton.mp he ▸ hlt
    · rw [extentMap_sentinel hge hhole]
      split
      · rename_i hlt
        exact (hnone x hge hlt).symm
      · rfl
  freed := by
    have hasc' := h.ascending
    have hchain := hshort
    unfold ShortExtents at hchain
    rw [hentries] at hasc' hchain
    rw [hfrees, hentries, mappedFrom_append hle]
    refine freedExtents_blocks hasc'.right hchain.right_of_append hle
      (fun b hb => Nat.le_of_lt (hback b hb)) fun l hl => (h.last l ?_).1
    rw [hentries, List.getLast?_append, hl]
    rfl
  counts := hfrees ▸ freedExtents_counts _ _ _
  result := .inr rfl
  same := fun hzero => absurd hzero Nat.one_ne_zero

/-- There is nothing at or behind the start. -/
theorem Chopped.unchanged (h : leaf.Ok entriesPerLeaf bottom limit)
    (hnone : ∀ x, start ≤ x → extentMap leaf.entries x = none)
    (hsentinel : leaf.count ≠ 0 →
      ∃ ex, leaf.entries.getLast? = some ex ∧ ex.physical = 0 ∧ ex.logical ≤ start) :
    Chopped leaf entriesPerLeaf bottom limit start 0 leaf [] where
  ok := h
  sentinel := hsentinel
  map := by
    intro x
    split
    · rfl
    · rename_i hge
      exact hnone x (Nat.le_of_not_lt hge)
  freed := (mappedFrom_eq_nil hnone).symm
  counts := fun seg hseg => absurd hseg List.not_mem_nil
  result := .inl rfl
  same := fun _ => ⟨rfl, hnone⟩

/-- What a chop is to do. -/
def ChopsRight (leaf : Dleaf2) (entriesPerLeaf bottom limit start : Nat) : Prop :=
  ∃ ret out frees, dleaf2Chop leaf start tuxkeyLimit = .ok (ret, out, frees, frees) ∧
    Chopped leaf entriesPerLeaf bottom limit start ret out frees

/-- At or behind the sentinel, nothing is chopped. -/
theorem dleaf2Chop_behind (h : leaf.Ok entriesPerLeaf bottom limit)
    (hentries : leaf.entries = front ++ [ex]) (hle : ex.logical ≤ start) :
    dleaf2Chop leaf start tuxkeyLimit = .ok (0, leaf, [], []) := by
  have hlength := h.entries_length
  have hcount : leaf.count = front.length + 1 := by
    rw [← hlength, hentries, List.length_append]
    rfl
  have hhole := (h.last ex (by rw [hentries, List.getLast?_append]; rfl)).1
  have hlookup : ∃ dex, dleaf2LookupIndex leaf start = .ok dex ∧ leaf.count ≤ dex + 1 := by
    rcases Nat.eq_or_lt_of_le hle with heq | hlt
    · exact ⟨_, dleaf2LookupIndex_eq hentries hlength h.ascending heq, Nat.le_of_eq hcount⟩
    · exact ⟨_, dleaf2LookupIndex_behind hentries hlength h.ascending rfl hlt hhole,
        Nat.le_succ _⟩
  obtain ⟨dex, hdex, hend⟩ := hlookup
  unfold dleaf2Chop
  rw [bind_of_ok (tuxAssert_of rfl), if_neg (by omega), bind_of_ok hdex, if_pos hend]
  rfl

/-- The start is at or behind the sentinel. -/
theorem chopsRight_behind (h : leaf.Ok entriesPerLeaf bottom limit)
    (hentries : leaf.entries = front ++ [ex]) (hle : ex.logical ≤ start) :
    ChopsRight leaf entriesPerLeaf bottom limit start := by
  have hlast : leaf.entries.getLast? = some ex := by
    rw [hentries, List.getLast?_append]
    rfl
  have hhole := (h.last ex hlast).1
  have hnone : ∀ x, start ≤ x → extentMap leaf.entries x = none := by
    intro x hx
    rw [hentries]
    exact extentMap_sentinel (Nat.le_trans hle hx) hhole
  exact ⟨0, leaf, [], dleaf2Chop_behind h hentries hle,
    .unchanged h hnone fun _ => ⟨ex, hlast, hhole, hle⟩⟩

section Inside

variable {out : Dleaf2} (h : leaf.Ok entriesPerLeaf bottom limit)
  (hshort : ShortExtents leaf.entries) (hentries : leaf.entries = front ++ ex :: next :: back)
  (hle : ex.logical ≤ start) (hback : ∀ b ∈ next :: back, start < b.logical)
include h hentries

/-- The memory of a leaf, at one of its entries. -/
theorem table_at : ∃ junk, leaf.table = front ++ (ex :: next :: back ++ junk) ∧
    leaf.count = front.length + (back.length + 2) ∧
    leaf.count + junk.length = entriesPerLeaf := by
  obtain ⟨junk, htable, hjunk⟩ := h.table_eq
  have hlength := h.entries_length
  rw [hentries, List.length_append, List.length_cons, List.length_cons] at hlength
  refine ⟨junk, ?_, hlength.symm, hjunk⟩
  rw [htable, hentries, List.append_assoc]

include hle hback

/-- Up to the tests on the entry of the start. -/
theorem dleaf2Chop_inside : dleaf2Chop leaf start tuxkeyLimit =
    if start = ex.logical then do
      let prev ← prevIsHole leaf.table front.length
      if prev then chopFrom leaf leaf.table (front.length - 1) false start ex.physical
      else do
        let table ← putExtent leaf.table front.length start 0
        chopFrom leaf table front.length false start ex.physical
    else if ex.physical = 0 then
      chopFrom leaf leaf.table front.length false ex.logical ex.physical
    else chopFrom leaf leaf.table front.length true start
      (ex.physical + (start - ex.logical)) := by
  obtain ⟨junk, -, hcount, -⟩ := table_at h hentries
  have hlookup := dleaf2LookupIndex_between hentries h.entries_length h.ascending
    (List.cons_ne_nil _ _) hle hback
  unfold dleaf2Chop
  rw [bind_of_ok (tuxAssert_of rfl), if_neg (by omega), bind_of_ok hlookup, if_neg (by omega),
    bind_of_ok (getExtent_of_entries hentries rfl)]

include hshort

/-- The start is an entry behind a hole: the hole is the sentinel. -/
theorem chopsRight_prev {before : List DiskExtent} {prev : DiskExtent}
    (hfront : front = before ++ [prev]) (hprev : prev.physical = 0) (heq : start = ex.logical) :
    ChopsRight leaf entriesPerLeaf bottom limit start := by
  obtain ⟨junk, htable, hcount, hjunk⟩ := table_at h hentries
  subst hfront
  have hlength : (before ++ [prev]).length = before.length + 1 := List.length_append
  have hdex : (before ++ [prev]).length - 1 + 1 = (before ++ [prev]).length := by omega
  have hmove : leaf.entries = before ++ prev :: ex :: next :: back := by
    rw [hentries]
    simp
  have hasc := h.ascending
  rw [hmove] at hasc
  have hprevlt : prev.logical < ex.logical := hasc.after ex List.mem_cons_self
  have hhole : prevIsHole leaf.table (before ++ [prev]).length = .ok true := by
    rw [@prevIsHole_append before (ex :: next :: back ++ junk) leaf.table prev _
      (by rw [htable]; simp) hlength, decide_eq_true hprev]
  have hrun := @chopFrom_kept leaf (before ++ [prev]) (ex :: next :: back) junk start ex.physical
    leaf.table _ htable hdex hcount
  have hfrees : freedExtents start ex.physical (ex :: next :: back) =
      freedExtents start (ex.blockAt start) (next :: back) := by
    rw [freedExtents_skip (.inr heq), heq, ex.blockAt_logical]
  have hout : (Dleaf2.mk ((before ++ [prev]).length - 1 + 1) leaf.table).entries =
      before ++ [prev] := entries_of_table htable hdex
  refine ⟨1, _, _, ?_, .of_kept h hshort hentries hle hback hout h.memory (by dsimp only; omega)
    (fun e he => h.first e ?_) hprev (by omega) ?_ ?_ ?_ ?_ hfrees⟩
  · rw [dleaf2Chop_inside h hentries hle hback, if_pos heq, bind_of_ok hhole, if_pos rfl]
    exact hrun
  · rw [hout] at he
    rw [hentries, List.append_assoc]
    cases before <;> exact he
  · exact h.le_limit prev (hmove ▸ List.mem_append_right _ List.mem_cons_self)
  · exact (List.append_cons before prev _ ▸ hasc).left
  · intro x hx
    rw [hmove]
    exact extentMap_append_of_lt (List.forall_mem_cons.mpr ⟨hx, fun b hb =>
      Nat.lt_trans hx (hasc.after b hb)⟩)
  · intro x hge hlt
    rw [hmove, extentMap_split hge fun b hb => ?_, if_pos hprev]
    rcases List.mem_cons.mp hb with rfl | hin
    · omega
    · have := hback b hin
      omega

/-- The start is an entry that is not behind a hole: the sentinel takes its place. -/
theorem chopsRight_here (hprev : prevIsHole leaf.table front.length = .ok false)
    (heq : start = ex.logical) : ChopsRight leaf entriesPerLeaf bottom limit start := by
  obtain ⟨junk, htable, hcount, hjunk⟩ := table_at h hentries
  have hasc := h.ascending
  rw [hentries] at hasc
  have hstart : (diskExtent start 0).logical = start :=
    diskExtent_logical 0 (heq ▸ ex.logical_lt)
  have hput : putExtent leaf.table front.length start 0 =
      .ok (front ++ diskExtent start 0 :: (next :: back ++ junk)) := by
    rw [htable]
    exact putExtent_append rfl
  have hmove : front ++ diskExtent start 0 :: (next :: back ++ junk) =
      (front ++ [diskExtent start 0]) ++ (next :: back ++ junk) := by simp
  have hlength : (front ++ [diskExtent start 0]).length = front.length + 1 := List.length_append
  have hrun := @chopFrom_kept leaf (front ++ [diskExtent start 0]) (next :: back) junk start
    ex.physical _ front.length hmove hlength.symm (by rw [hlength, hcount, List.length_cons]; omega)
  have hfrees : freedExtents start ex.physical (next :: back) =
      freedExtents start (ex.blockAt start) (next :: back) := by
    rw [heq, ex.blockAt_logical]
  have hout := entries_of_table hmove hlength.symm
  refine ⟨1, _, _, ?_, .of_kept h hshort hentries hle hback hout ?_ (by dsimp only; omega)
    (fun e he => ?_) rfl (Nat.le_of_eq hstart) ?_ ?_ ?_ ?_ hfrees⟩
  · rw [dleaf2Chop_inside h hentries hle hback, if_pos heq, bind_of_ok hprev,
      if_neg Bool.false_ne_true, bind_of_ok hput]
    exact hrun
  · have hmemory := h.memory
    rw [htable, List.length_append] at hmemory
    rw [List.length_append]
    exact hmemory
  · rw [hout] at he
    cases front with
    | nil =>
        obtain rfl := Option.some.inj he
        rw [hstart, heq]
        exact h.first ex (by rw [hentries]; rfl)
    | cons f front => exact h.first e (by rw [hentries]; exact he)
  · rw [hstart, heq]
    exact h.le_limit ex (hentries ▸ List.mem_append_right _ List.mem_cons_self)
  · refine hasc.left.append (List.pairwise_singleton _ _) fun a ha b hb => ?_
    rw [List.mem_singleton.mp hb, hstart, heq]
    exact hasc.before a ha
  · intro x hx
    rw [hstart] at hx
    rw [hentries]
    exact extentMap_append_of_lt (List.forall_mem_cons.mpr ⟨heq ▸ hx, fun b hb =>
      Nat.lt_trans hx (hback b hb)⟩)
  · intro x hge hlt
    omega

/-- The start is inside a hole, which is the sentinel. -/
theorem chopsRight_hole (hhole : ex.physical = 0) (hne : start ≠ ex.logical) :
    ChopsRight leaf entriesPerLeaf bottom limit start := by
  obtain ⟨junk, htable, hcount, hjunk⟩ := table_at h hentries
  have hasc := h.ascending
  rw [hentries] at hasc
  have hmove : leaf.table = (front ++ [ex]) ++ (next :: back ++ junk) := by
    rw [htable]
    simp
  have hlength : (front ++ [ex]).length = front.length + 1 := List.length_append
  have hrun := @chopFrom_kept leaf (front ++ [ex]) (next :: back) junk ex.logical ex.physical _
    front.length hmove hlength.symm (by rw [hlength, hcount, List.length_cons]; omega)
  have hfrees : freedExtents ex.logical ex.physical (next :: back) =
      freedExtents start (ex.blockAt start) (next :: back) := by
    have hzero : ex.blockAt start = 0 := if_pos hhole
    rw [freedExtents_skip (.inl hhole), hzero, freedExtents_skip (.inl rfl)]
  have hout := entries_of_table hmove hlength.symm
  refine ⟨1, _, _, ?_, .of_kept h hshort hentries hle hback hout h.memory (by dsimp only; omega)
    (fun e he => h.first e ?_) hhole hle ?_ ?_ ?_ ?_ hfrees⟩
  · rw [dleaf2Chop_inside h hentries hle hback, if_neg hne, if_pos hhole]
    exact hrun
  · rw [hout] at he
    rw [hentries]
    cases front <;> exact he
  · exact h.le_limit ex (hentries ▸ List.mem_append_right _ List.mem_cons_self)
  · exact (List.append_cons front ex _ ▸ hasc).left
  · intro x hx
    rw [hentries]
    exact extentMap_append_of_lt (List.forall_mem_cons.mpr ⟨hx, fun b hb =>
      Nat.lt_trans hx (hasc.after b hb)⟩)
  · intro x hge hlt
    rw [hentries, extentMap_split hge fun b hb => Nat.lt_trans hlt (hback b hb), if_pos hhole]

/-- The start is inside an extent: the sentinel is put behind what is left of it. -/
theorem chopsRight_data (hdata : ex.physical ≠ 0) (hne : start ≠ ex.logical) :
    ChopsRight leaf entriesPerLeaf bottom limit start := by
  obtain ⟨junk, htable, hcount, hjunk⟩ := table_at h hentries
  have hasc := h.ascending
  rw [hentries] at hasc
  have hnext := hback next List.mem_cons_self
  have hstart : (diskExtent start 0).logical = start :=
    diskExtent_logical 0 (Nat.lt_trans hnext next.logical_lt)
  have hmove : leaf.table = (front ++ [ex]) ++ (next :: back ++ junk) := by
    rw [htable]
    simp
  have hlength : (front ++ [ex]).length = front.length + 1 := List.length_append
  have hrun := @chopFrom_put leaf (front ++ [ex]) back junk next start
    (ex.physical + (start - ex.logical)) _ front.length hmove hlength.symm
    (by rw [hlength, hcount, List.length_cons]; omega)
  have hfrees : freedExtents start (ex.physical + (start - ex.logical)) (next :: back) =
      freedExtents start (ex.blockAt start) (next :: back) := by
    have hblock : ex.blockAt start = ex.physical + (start - ex.logical) := if_neg hdata
    rw [hblock]
  have hput : (front ++ [ex]) ++ diskExtent start 0 :: (back ++ junk) =
      ((front ++ [ex]) ++ [diskExtent start 0]) ++ (back ++ junk) := by simp
  have hout := @entries_of_table _ _ _ (front.length + 2) hput
    (by rw [List.length_append, hlength]; rfl)
  have hkept : Ascending DiskExtent.logical (front ++ [ex]) :=
    (List.append_cons front ex _ ▸ hasc).left
  refine ⟨1, _, _, ?_, .of_kept h hshort hentries hle hback hout ?_ (by dsimp only; omega)
    (fun e he => h.first e ?_) rfl (Nat.le_of_eq hstart) ?_ ?_ ?_ ?_ hfrees⟩
  · rw [dleaf2Chop_inside h hentries hle hback, if_neg hne, if_neg hdata]
    exact hrun
  · have hmemory := h.memory
    rw [hmove, List.length_append] at hmemory
    rw [List.length_append]
    exact hmemory
  · rw [hout, List.append_assoc] at he
    rw [hentries]
    cases front <;> exact he
  · have hlimit := h.le_limit next
      (hentries ▸ List.mem_append_right _ (List.mem_cons_of_mem _ List.mem_cons_self))
    omega
  · refine hkept.append (List.pairwise_singleton _ _) fun a ha b hb => ?_
    rw [List.mem_singleton.mp hb, hstart]
    rcases List.mem_append.mp ha with hin | hin
    · have := hasc.before a hin
      omega
    · rw [List.mem_singleton.mp hin]
      omega
  · intro x hx
    rw [hstart] at hx
    rw [hentries, List.append_cons]
    exact extentMap_append_of_lt fun b hb => Nat.lt_trans hx (hback b hb)
  · intro x hge hlt
    omega

end Inside

/-- A chop frees the blocks from its start on, if the extents have less than `2 ^ 32` of them. -/
theorem dleaf2Chop_right (h : leaf.Ok entriesPerLeaf bottom limit)
    (hshort : ShortExtents leaf.entries)
    (hfirst : ∀ ex, leaf.entries.head? = some ex → ex.logical ≤ start) :
    ChopsRight leaf entriesPerLeaf bottom limit start := by
  by_cases hcount : leaf.count = 0
  · have hnone : ∀ x, start ≤ x → extentMap leaf.entries x = none := by
      intro x _
      rw [h.eq_nil hcount]
      rfl
    refine ⟨0, leaf, [], ?_, .unchanged h hnone fun hne => absurd hcount hne⟩
    unfold dleaf2Chop
    rw [bind_of_ok (tuxAssert_of rfl), if_pos hcount]
    rfl
  obtain ⟨front, ex, back, hentries, hle, hback⟩ := h.exists_at hcount hfirst
  cases back with
  | nil => exact chopsRight_behind h hentries hle
  | cons next back =>
      by_cases heq : start = ex.logical
      · rcases List.eq_nil_or_concat front with rfl | ⟨before, prev, hfront⟩
        · exact chopsRight_here h hshort hentries hle hback rfl heq
        rw [List.concat_eq_append] at hfront
        by_cases hprev : prev.physical = 0
        · exact chopsRight_prev h hshort hentries hle hback hfront hprev heq
        · obtain ⟨junk, htable, -, -⟩ := table_at h hentries
          refine chopsRight_here h hshort hentries hle hback ?_ heq
          have hmove : leaf.table = before ++ prev :: (ex :: next :: back ++ junk) := by
            rw [htable, hfront]
            simp
          rw [prevIsHole_append hmove (by rw [hfront, List.length_append]; rfl),
            decide_eq_false hprev]
      · by_cases hhole : ex.physical = 0
        · exact chopsRight_hole h hshort hentries hle hback hhole heq
        · exact chopsRight_data h hshort hentries hle hback hhole heq

end

/-- Two extents, one at block 5 and one behind a hole. -/
def twoExtents : Dleaf2 where
  count := 4
  table := [diskExtent 0 5, diskExtent 4 0, diskExtent 6 9, diskExtent 8 0]

theorem twoExtents_ok : twoExtents.Ok 4 0 tuxkeyLimit := by
  refine ⟨rfl, Nat.le_refl _, by unfold StepTable.Ascending; decide, ?_, ?_⟩
  · intro ex hex
    obtain rfl := Option.some.inj hex
    decide
  · intro ex hex
    obtain rfl := Option.some.inj hex
    decide

theorem dleaf2Chop_right_twoExtents :
    dleaf2Chop twoExtents 2 tuxkeyLimit =
      .ok (1, ⟨2, [diskExtent 0 5, diskExtent 2 0, diskExtent 6 9, diskExtent 8 0]⟩,
        [⟨7, 2⟩, ⟨9, 2⟩], [⟨7, 2⟩, ⟨9, 2⟩]) ∧
      ChopsRight twoExtents 4 0 tuxkeyLimit 2 := by
  refine ⟨rfl, dleaf2Chop_right twoExtents_ok (by unfold ShortExtents; decide) fun ex hex => ?_⟩
  obtain rfl := Option.some.inj hex
  decide

/-- One extent of `2 ^ 32` blocks. -/
def wideExtent : Dleaf2 where
  count := 2
  table := [diskExtent 0 1, diskExtent (2 ^ 32) 0]

/-- The number of its blocks is taken as zero: none of them is freed. -/
theorem dleaf2Chop_wide : wideExtent.Ok 2 0 tuxkeyLimit ∧
    (∀ ex, wideExtent.entries.head? = some ex → ex.logical ≤ 0) ∧
    ¬ChopsRight wideExtent 2 0 tuxkeyLimit 0 := by
  refine ⟨⟨rfl, Nat.le_refl _, by unfold StepTable.Ascending; decide, ?_, ?_⟩, ?_, ?_⟩
  · intro ex hex
    obtain rfl := Option.some.inj hex
    decide
  · intro ex hex
    obtain rfl := Option.some.inj hex
    decide
  · intro ex hex
    obtain rfl := Option.some.inj hex
    decide
  · rintro ⟨ret, out, frees, hrun, hout⟩
    have hchop : dleaf2Chop wideExtent 0 tuxkeyLimit =
        .ok (1, ⟨1, [diskExtent 0 0, diskExtent (2 ^ 32) 0]⟩, [], []) := rfl
    have hnone : frees = [] := congrArg (fun r => r.2.2.1) (Except.ok.inj (hrun.symm.trans hchop))
    have hfreed := hout.freed
    rw [hnone] at hfreed
    have hmem : 1 ∈ mappedFrom wideExtent.entries 0 := by
      refine List.mem_filterMap.mpr ⟨0, List.mem_range'_1.mpr ⟨Nat.le_refl _, by decide⟩, rfl⟩
    rw [← hfreed] at hmem
    exact absurd hmem List.not_mem_nil

end Tux3
