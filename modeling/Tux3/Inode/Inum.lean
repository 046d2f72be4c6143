/-
  Inode/Inum.lean --- the allocation of inode numbers.

  A number is taken if it is in the inode btree, or on the hash of the inodes in memory: an inode
  that was created goes into the btree only when it is saved.  `freeinodes` is changed where an
  inode is created or purged, `usedinodes` where it is saved or purged.
-/
import Mathlib.Data.List.Nodup
import Mathlib.Order.Interval.Finset.Nat
import Tux3.Inode.Ileaf
import Tux3.Lib.Outcome
import Tux3.Lib.System

set_option autoImplicit false

namespace Tux3

/-! ## The search -/

/-- `find_free_inum`; there is no btree before the first inode of a new volume is saved. -/
def findFreeInum (itree : Option Leaves) (goal : Nat) : Except TuxError Nat :=
  match itree with
  | none => return goal
  | some leaves => do
      let (found, cursor) ← traverseFindFree (probeLeaves leaves goal) goal tuxkeyLimit
      match found with
      | some inum => return inum
      | none =>
          if tuxNormalIno < goal then
            let (found, _) ← traverseFindFree cursor tuxNormalIno (goal - tuxNormalIno)
            match found with
            | some inum => return inum
            | none => .error .enospc
          else .error .enospc

/-- `while (find_defer_alloc_inum(sb, goal)) goal++`. -/
def skipHashed (hashed : List Nat) : Nat → Nat → Nat
  | 0, goal => goal
  | fuel + 1, goal => if goal ∈ hashed then skipHashed hashed fuel (goal + 1) else goal

/-- The loop of `alloc_inum`. -/
def allocLoop (itree : Option Leaves) (hashed : List Nat) : Nat → Nat → Except TuxError Nat
  | 0, _ => .error .fuel
  | fuel + 1, goal => do
      let goal ← findFreeInum itree goal
      -- `insert_inode_locked4` comes back with an error
      if goal ∈ hashed then
        allocLoop itree hashed fuel (skipHashed hashed hashed.length (goal + 1))
      else return goal

/-! ## The inodes of a volume -/

/-- The parts of `struct sb` that are about inode numbers: the inode btree, the numbers of the
inodes on the hash, and those of `sb->alloc_inodes`.  `live` records which numbers were saved and
not purged. -/
structure InumSb where
  itree : Option Leaves
  hashed : List Nat
  deferred : List Nat
  live : List Nat
  freeinodes : Nat
  usedinodes : Nat
  nextinum : Nat

/-- `struct ialloc_policy`. -/
inductive IallocPolicy where
  | linear
  | specific (inum : Nat)
  deriving DecidableEq, Repr

/-- `ialloc_linear_goal` and `ialloc_specific_goal`. -/
def IallocPolicy.goal (sb : InumSb) : IallocPolicy → Nat
  | .linear => sb.nextinum
  | .specific inum => inum

/-- `ialloc_linear_update` and `ialloc_noop_update`. -/
def IallocPolicy.update (nextinum inum : Nat) : IallocPolicy → Nat
  | .linear => if maxInodes ≤ inum + 1 then tuxNormalIno else inum + 1
  | .specific _ => nextinum

namespace InumSb

/-- `alloc_inum`. -/
def allocInum (sb : InumSb) (policy : IallocPolicy) : Except TuxError (InumSb × Nat) := do
  let goal ← allocLoop sb.itree sb.hashed (sb.hashed.length + 1) (policy.goal sb)
  let sb := { sb with
    hashed := goal :: sb.hashed
    deferred := sb.deferred ++ [goal]
    nextinum := policy.update sb.nextinum goal }
  if tuxNormalIno ≤ goal then
    tuxAssert (tuxNormalIno < sb.freeinodes)
    return ({ sb with freeinodes := sb.freeinodes - 1 }, goal)
  else return (sb, goal)

/-- The leaves of the inode btree after `alloc_empty_btree`, if there was none. -/
def leaves (sb : InumSb) : Leaves := sb.itree.getD [(0, ⟨0, []⟩)]

/-- `ileaf_lookup` in the leaf of a probe. -/
def lookup (leaves : Leaves) (inum : Nat) : Bool :=
  match probeLeaves leaves inum with
  | [] => false
  | (_, leaf) :: _ => leaf.Has inum

/-- `save_inode`: `written` are the leaves after `btree_write`, which fails unless `ok`. -/
def saveInode (sb : InumSb) (inum : Nat) (written : Leaves) (ok : Bool) :
    Except TuxError InumSb := do
  -- paranoia check
  tuxAssert (inum ∈ sb.deferred ∨ lookup sb.leaves inum = true)
  let sb := { sb with itree := some written }
  if ok = false then return sb
  else if inum ∈ sb.deferred then
    let sb := { sb with deferred := sb.deferred.erase inum, live := inum :: sb.live }
    if tuxNormalIno ≤ inum then
      tuxAssert (sb.usedinodes < maxInodes)
      return { sb with usedinodes := sb.usedinodes + 1 }
    else return sb
  else return sb

/-- `purge_inode` counts a number that is not reserved as free. -/
def purgeFree (sb : InumSb) (inum : Nat) : Except TuxError InumSb :=
  if tuxNormalIno ≤ inum then do
    tuxAssert (sb.freeinodes < maxInodes)
    return { sb with freeinodes := sb.freeinodes + 1 }
  else return sb

/-- It does not count it as used any more. -/
def purgeUsed (sb : InumSb) (inum : Nat) : Except TuxError InumSb :=
  if tuxNormalIno ≤ inum then do
    tuxAssert (tuxNormalIno < sb.usedinodes)
    return { sb with usedinodes := sb.usedinodes - 1 }
  else return sb

/-- `purge_inode`, of an inode that `tux3_flush_inode` took from the hash: `chopped` are the leaves
after `btree_chop`. -/
def purgeInode (sb : InumSb) (inum : Nat) (chopped : Leaves) : Except TuxError InumSb := do
  let sb := { sb with hashed := sb.hashed.filter (· ≠ inum) }
  let sb ← sb.purgeFree inum
  if inum ∈ sb.deferred then return { sb with deferred := sb.deferred.erase inum }
  else
    let sb ← ({ sb with live := sb.live.erase inum } : InumSb).purgeUsed inum
    return { sb with itree := some chopped }

end InumSb

/-! ## Runs -/

/-- What happens to inodes: they are created, saved, purged, read again from the btree and, once
they are saved and clean, dropped from memory. -/
inductive InumEvent where
  | create (policy : IallocPolicy)
  | save (inum : Nat) (written : Leaves) (ok : Bool)
  | purge (inum : Nat) (chopped : Leaves) (ok : Bool)
  | iget (inum : Nat)
  | drop (inum : Nat)

/-- The leaves of an inode btree: the first key is 0. -/
structure TreeOk (leaves : Leaves) : Prop where
  ordered : LeavesOk leaves
  first : nextKey leaves = 0

/-- A number is in the leaves, if there are any. -/
def InItree (itree : Option Leaves) (inum : Nat) : Prop :=
  ∃ leaves, itree = some leaves ∧ InLeaves leaves inum

namespace InumSb

/-- A number is in the inode btree. -/
def InTree (sb : InumSb) (inum : Nat) : Prop := InItree sb.itree inum

/-- A step; a creation that fails leaves everything as it was. -/
def step (sb : InumSb) : InumEvent → Except TuxError InumSb
  | .create policy => do
      let (sb, _) ← sb.allocInum policy
      return sb
  | .save inum written ok => sb.saveInode inum written ok
  | .purge inum chopped _ => sb.purgeInode inum chopped
  | .iget inum => return { sb with hashed := inum :: sb.hashed }
  | .drop inum => return { sb with hashed := sb.hashed.filter (· ≠ inum) }

/-- What a step is called for: `btree_write` and `btree_chop` are about the one number, and change
it if they succeed. -/
def Allowed (sb : InumSb) : InumEvent → Prop
  | .create policy => policy.goal sb < maxInodes
  | .save inum written ok => (inum ∈ sb.deferred ∨ inum ∈ sb.live ∧ inum ∈ sb.hashed) ∧
      TreeOk written ∧
      (∀ n, n ≠ inum → (InLeaves written n ↔ sb.InTree n)) ∧ (ok = true → InLeaves written inum) ∧
      (sb.InTree inum → InLeaves written inum)
  | .purge inum chopped ok => (inum ∈ sb.deferred ∨ inum ∈ sb.live ∧ inum ∈ sb.hashed) ∧
      TreeOk chopped ∧
      (∀ n, n ≠ inum → (InLeaves chopped n ↔ sb.InTree n)) ∧
      (ok = true → ¬ InLeaves chopped inum)
  | .iget inum => inum ∈ sb.live ∧ inum ∉ sb.hashed
  | .drop inum => inum ∉ sb.deferred

end InumSb

/-! ## What the search finds -/

section

variable {sb sb' : InumSb} {leaves : Leaves} {itree : Option Leaves} {hashed : List Nat}
  {goal inum n : Nat}

theorem inItree_some : InItree (some leaves) inum ↔ InLeaves leaves inum := by
  constructor
  · rintro ⟨leaves', heq, hin⟩
    cases heq
    exact hin
  · exact fun hin => ⟨leaves, rfl, hin⟩

theorem not_inItree_none : ¬ InItree none inum := by
  rintro ⟨leaves, heq, -⟩
  exact nomatch heq

/-- The first pass of the search. -/
theorem probe_traverse (h : TreeOk leaves) (hgoal : goal < maxInodes) :
    ∃ found cursor, traverseFindFree (probeLeaves leaves goal) goal tuxkeyLimit =
        .ok (found, cursor) ∧ FoundFree (InLeaves leaves) goal maxInodes found ∧
      (found = none → 0 < goal → cursor = []) := by
  have hfirst : nextKey leaves ≤ goal := h.first ▸ Nat.zero_le goal
  obtain ⟨bottom, leaf, rest, hprobe, hle, hkey, hok, hin⟩ :=
    probeLeaves_spec h.ordered hfirst hgoal
  have htraversed : Traversed ((bottom, leaf) :: rest) goal (goal + tuxkeyLimit) _ :=
    traverseFindFree_spec hok hle hkey
  obtain ⟨found, cursor, htrav, hfound, hpop⟩ := htraversed
  have hmin : min tuxkeyLimit (goal + tuxkeyLimit) = maxInodes :=
    Nat.min_eq_left (Nat.le_add_left _ _)
  rw [hmin] at hfound
  rw [hprobe]
  refine ⟨found, cursor, htrav, ?_, fun hnone hpos => hpop hnone ?_⟩
  · exact hfound.congr fun m hm _ => (hin m hm).symm
  · exact Nat.lt_add_of_pos_left hpos

/-- If there is a free number at or above the goal, the search finds the first one. -/
theorem findFreeInum_of_free (h : ∀ leaves, itree = some leaves → TreeOk leaves)
    (hn : FoundFree (InItree itree) goal maxInodes (some n)) : findFreeInum itree goal = .ok n := by
  obtain ⟨hle, hlt, hfree, hused⟩ := hn
  cases itree with
  | none =>
      have heq : goal = n := by
        rcases Nat.eq_or_lt_of_le hle with heq | hlt'
        · exact heq
        · exact absurd (hused goal (Nat.le_refl _) hlt') not_inItree_none
      exact congrArg Except.ok heq
  | some leaves =>
      obtain ⟨found, cursor, htrav, hfound, -⟩ :=
        probe_traverse (h leaves rfl) (Nat.lt_of_le_of_lt hle hlt)
      unfold findFreeInum
      dsimp only
      rw [Outcome.bind_of_ok htrav]
      simp only [inItree_some] at hfree hused
      cases found with
      | none => exact absurd (hfound n hle hlt) hfree
      | some m =>
          obtain ⟨hle', hlt', hfree', hused'⟩ := hfound
          rcases Nat.lt_trichotomy m n with hmn | rfl | hmn
          · exact absurd (hused m hle' hmn) hfree'
          · rfl
          · exact absurd (hused' n hle hmn) hfree

/-- If there is none, the search does not go on from the first pass. -/
theorem findFreeInum_of_full (h : ∀ leaves, itree = some leaves → TreeOk leaves)
    (hgoal : goal < maxInodes) (hfull : FoundFree (InItree itree) goal maxInodes none) :
    findFreeInum itree goal = .error (if tuxNormalIno < goal then .assertion else .enospc) := by
  cases itree with
  | none => exact absurd (hfull goal (Nat.le_refl _) hgoal) not_inItree_none
  | some leaves =>
      obtain ⟨found, cursor, htrav, hfound, hpop⟩ := probe_traverse (h leaves rfl) hgoal
      unfold findFreeInum
      dsimp only
      rw [Outcome.bind_of_ok htrav]
      simp only [FoundFree, inItree_some] at hfull
      cases found with
      | some m => exact absurd (hfull m hfound.1 hfound.2.1) hfound.2.2.1
      | none =>
          dsimp only
          by_cases hnormal : tuxNormalIno < goal
          · rw [if_pos hnormal, if_pos hnormal, hpop rfl (Nat.zero_lt_of_lt hnormal)]
            rfl
          · rw [if_neg hnormal, if_neg hnormal]

/-- What `find_free_inum` is for: the first free number at or above the goal, else the first one
from `TUX_NORMAL_INO` up to the goal, and `-ENOSPC` if there is neither. -/
def FindsFree (used : Nat → Prop) (goal : Nat) : Except TuxError Nat → Prop
  | .ok n => FoundFree used goal maxInodes (some n) ∨
      FoundFree used goal maxInodes none ∧ FoundFree used tuxNormalIno goal (some n)
  | .error .enospc => FoundFree used goal maxInodes none ∧ FoundFree used tuxNormalIno goal none
  | .error _ => False

open Classical in
/-- A search of all the numbers finds the first one, if there is one. -/
theorem foundFree_exists (used : Nat → Prop) (goal limit : Nat) :
    (∃ n, FoundFree used goal limit (some n)) ∨ FoundFree used goal limit none := by
  by_cases hfree : ∃ n, goal ≤ n ∧ n < limit ∧ ¬ used n
  · obtain ⟨hle, hlt, hn⟩ := Nat.find_spec hfree
    refine .inl ⟨Nat.find hfree, hle, hlt, hn, fun m hm hm' => ?_⟩
    by_contra hused
    exact Nat.find_min hfree hm' ⟨hm, Nat.lt_trans hm' hlt, hused⟩
  · refine .inr fun m hm hm' => ?_
    by_contra hused
    exact hfree ⟨m, hm, hm', hused⟩

/-- The search does what it is for if there is a free number at or above the goal, or if the goal
is not above `TUX_NORMAL_INO`, and otherwise it does not. -/
theorem findsFree_iff (h : ∀ leaves, itree = some leaves → TreeOk leaves)
    (hgoal : goal < maxInodes) : FindsFree (InItree itree) goal (findFreeInum itree goal) ↔
      (∃ n, goal ≤ n ∧ n < maxInodes ∧ ¬ InItree itree n) ∨ goal ≤ tuxNormalIno := by
  rcases foundFree_exists (InItree itree) goal maxInodes with ⟨n, hn⟩ | hfull
  · rw [findFreeInum_of_free h hn]
    exact ⟨fun _ => .inl ⟨n, hn.1, hn.2.1, hn.2.2.1⟩, fun _ => .inl hn⟩
  · rw [findFreeInum_of_full h hgoal hfull]
    split
    · rename_i hnormal
      refine ⟨fun hfalse => hfalse.elim, ?_⟩
      rintro (⟨n, hle, hlt, hn⟩ | hle)
      · exact absurd (hfull n hle hlt) hn
      · exact absurd hnormal (Nat.not_lt.mpr hle)
    · rename_i hnormal
      refine ⟨fun _ => .inr (Nat.not_lt.mp hnormal), fun _ => ⟨hfull, fun m hm hm' => ?_⟩⟩
      exact absurd (Nat.lt_of_le_of_lt hm hm') hnormal

/-! ## The loop of `alloc_inum` -/

/-- The loop skips only numbers that are on the hash. -/
theorem skipHashed_le (fuel : Nat) (h : n ∉ hashed) (hle : goal ≤ n) :
    goal ≤ skipHashed hashed fuel goal ∧ skipHashed hashed fuel goal ≤ n := by
  induction fuel generalizing goal with
  | zero => exact ⟨Nat.le_refl _, hle⟩
  | succ fuel ih =>
      unfold skipHashed
      split
      · rename_i hmem
        have hne : goal ≠ n := fun heq => h (heq ▸ hmem)
        obtain ⟨hge, hle'⟩ := ih (Nat.lt_of_le_of_ne hle hne)
        exact ⟨Nat.le_of_succ_le hge, hle'⟩
      · exact ⟨Nat.le_refl _, hle⟩

/-- How many numbers on the hash a loop from `goal` on may meet. -/
def hashedFrom (hashed : List Nat) (goal : Nat) : Nat := hashed.countP (goal ≤ ·)

theorem hashedFrom_lt (hmem : goal ∈ hashed) : hashedFrom hashed (goal + 1) <
    hashedFrom hashed goal := by
  unfold hashedFrom
  induction hashed with
  | nil => exact absurd hmem List.not_mem_nil
  | cons m hashed ih =>
      have hmono : hashed.countP (goal + 1 ≤ ·) ≤ hashed.countP (goal ≤ ·) :=
        List.countP_mono_left fun x _ hx =>
          decide_eq_true (Nat.le_of_succ_le (of_decide_eq_true hx))
      rw [List.countP_cons, List.countP_cons]
      rcases List.mem_cons.mp hmem with rfl | hmem
      · simp only [decide_eq_true_eq, Nat.not_succ_le_self, if_false, Nat.le_refl, if_true]
        exact Nat.lt_succ_of_le hmono
      · have hlt := ih hmem
        simp only [decide_eq_true_eq]
        split
        · rw [if_pos (by omega)]
          omega
        · omega

theorem hashedFrom_mono (hle : goal ≤ n) : hashedFrom hashed n ≤ hashedFrom hashed goal :=
  List.countP_mono_left fun _ _ hx => decide_eq_true (Nat.le_trans hle (of_decide_eq_true hx))

/-- A number that is neither in the btree nor on the hash is free. -/
def Taken (itree : Option Leaves) (hashed : List Nat) (inum : Nat) : Prop :=
  InItree itree inum ∨ inum ∈ hashed

/-- If there is a free number at or above the goal, the loop ends with the first one. -/
theorem allocLoop_of_free (h : ∀ leaves, itree = some leaves → TreeOk leaves) (fuel : Nat)
    (hn : FoundFree (Taken itree hashed) goal maxInodes (some n))
    (hfuel : hashedFrom hashed goal < fuel) : allocLoop itree hashed fuel goal = .ok n := by
  induction fuel generalizing goal with
  | zero => exact absurd hfuel (Nat.not_lt_zero _)
  | succ fuel ih =>
      obtain ⟨hle, hlt, hfree, hused⟩ := hn
      obtain ⟨hntree, hnhash⟩ := not_or.mp hfree
      unfold allocLoop
      rcases foundFree_exists (InItree itree) goal maxInodes with ⟨m, hm⟩ | hfull
      · rw [Outcome.bind_of_ok (findFreeInum_of_free h hm)]
        obtain ⟨hle', hlt', hmfree, hmused⟩ := hm
        have hmn : m ≤ n := by
          by_contra hgt
          exact hntree (hmused n hle (Nat.not_le.mp hgt))
        by_cases hmem : m ∈ hashed
        · have hne : m ≠ n := fun heq => hnhash (heq ▸ hmem)
          have hnext : m + 1 ≤ n := Nat.lt_of_le_of_ne hmn hne
          obtain ⟨hge, hskip⟩ := skipHashed_le hashed.length hnhash hnext
          rw [if_pos hmem]
          refine ih ⟨hskip, hlt, hfree, fun k hk hk' => hused k (by omega) hk'⟩ ?_
          have hcount := hashedFrom_lt hmem
          have hskipped := @hashedFrom_mono hashed _ _ hge
          have hfrom := @hashedFrom_mono hashed _ _ hle'
          omega
        · rw [if_neg hmem]
          have heq : m = n := by
            rcases Nat.eq_or_lt_of_le hmn with heq | hlt''
            · exact heq
            · rcases hused m hle' hlt'' with htree | hhash
              · exact absurd htree hmfree
              · exact absurd hhash hmem
          rw [heq]
          rfl
      · exact absurd (hfull n hle hlt) hntree

/-- All numbers from the goal on are taken, and those from some `last` on, that is not above
`TUX_NORMAL_INO` and at which the loop arrives, are all in the btree. -/
def NoSpace (itree : Option Leaves) (hashed : List Nat) (goal : Nat) : Prop :=
  FoundFree (Taken itree hashed) goal maxInodes none ∧
    ∃ last, goal ≤ last ∧ last ≤ tuxNormalIno ∧ FoundFree (InItree itree) last maxInodes none ∧
      (last = goal ∨ last ∉ hashed)

/-- If there is no space, the loop says so. -/
theorem allocLoop_of_noSpace (h : ∀ leaves, itree = some leaves → TreeOk leaves) (fuel : Nat)
    (hno : NoSpace itree hashed goal) (hfuel : hashedFrom hashed goal < fuel) :
    allocLoop itree hashed fuel goal = .error .enospc := by
  induction fuel generalizing goal with
  | zero => exact absurd hfuel (Nat.not_lt_zero _)
  | succ fuel ih =>
      obtain ⟨htaken, last, hle, hnormal, hfull, hlast⟩ := hno
      have hlimit : last < maxInodes := Nat.lt_of_le_of_lt hnormal (by decide)
      unfold allocLoop
      rcases foundFree_exists (InItree itree) goal maxInodes with ⟨m, hm⟩ | hnone
      · rw [Outcome.bind_of_ok (findFreeInum_of_free h hm)]
        obtain ⟨hle', hlt', hmfree, -⟩ := hm
        have hmlast : m + 1 ≤ last := by
          by_contra hge
          exact hmfree (hfull m (Nat.not_lt.mp hge) hlt')
        have hmem : m ∈ hashed := (htaken m hle' hlt').resolve_left hmfree
        have hnhash : last ∉ hashed :=
          hlast.resolve_left fun heq => absurd hmlast (Nat.not_lt.mpr (heq ▸ hle'))
        obtain ⟨hge, hskip⟩ := skipHashed_le hashed.length hnhash hmlast
        rw [if_pos hmem]
        refine ih ⟨fun k hk hk' => htaken k (by omega) hk', last, hskip, hnormal, hfull,
          .inr hnhash⟩ ?_
        have hcount := hashedFrom_lt hmem
        have hskipped := @hashedFrom_mono hashed _ _ hge
        have hfrom := @hashedFrom_mono hashed _ _ hle'
        omega
      · rw [findFreeInum_of_full h (Nat.lt_of_le_of_lt hle hlimit) hnone,
          if_neg (Nat.not_lt.mpr (Nat.le_trans hle hnormal))]
        rfl

/-! ## The invariant -/

/-- The numbers that are not reserved. -/
def normalCount (inums : List Nat) : Nat := inums.countP (tuxNormalIno ≤ ·)

theorem normalCount_cons (inums : List Nat) :
    normalCount (inum :: inums) = normalCount inums + if tuxNormalIno ≤ inum then 1 else 0 := by
  unfold normalCount
  rw [List.countP_cons]
  simp only [decide_eq_true_eq]

theorem normalCount_append (inums : List Nat) :
    normalCount (inums ++ [inum]) = normalCount inums + if tuxNormalIno ≤ inum then 1 else 0 := by
  unfold normalCount
  rw [List.countP_append, List.countP_singleton]
  simp only [decide_eq_true_eq]

theorem normalCount_erase {inums : List Nat} (hmem : inum ∈ inums) :
    normalCount inums = normalCount (inums.erase inum) + if tuxNormalIno ≤ inum then 1 else 0 := by
  rw [← normalCount_cons]
  exact (List.perm_cons_erase hmem).countP_eq _

/-- What holds of the inode numbers at all times. -/
structure InumOk (sb : InumSb) : Prop where
  tree : ∀ leaves, sb.itree = some leaves → TreeOk leaves
  live_inTree : ∀ n ∈ sb.live, sb.InTree n
  deferred_hashed : ∀ n ∈ sb.deferred, n ∈ sb.hashed
  deferred_nodup : sb.deferred.Nodup
  live_nodup : sb.live.Nodup
  disjoint : ∀ n ∈ sb.deferred, n ∉ sb.live
  used : sb.usedinodes = tuxNormalIno + normalCount sb.live
  free : sb.freeinodes + sb.usedinodes + normalCount sb.deferred = maxInodes
  next : sb.nextinum < maxInodes

/-- A creation has a number to take: there is a free one at or above the goal, and either the
first of them is reserved or there are free inodes beyond those that are counted for the reserved
numbers.  Or there is no space. -/
def CreateFits (sb : InumSb) (policy : IallocPolicy) : Prop :=
  (∃ n, FoundFree (Taken sb.itree sb.hashed) (policy.goal sb) maxInodes (some n) ∧
    (n < tuxNormalIno ∨ tuxNormalIno < sb.freeinodes)) ∨
  NoSpace sb.itree sb.hashed (policy.goal sb)

/-- The loop of a creation, with the fuel it has. -/
theorem hashedFrom_le : hashedFrom hashed goal < hashed.length + 1 :=
  Nat.lt_succ_of_le List.countP_le_length

/-! ## Steps -/

/-- A number that `alloc_inum` returns was free. -/
def Created (sb : InumSb) (result : Except TuxError (InumSb × Nat)) : Prop :=
  Outcome.Ensures (· = TuxError.enospc) result fun r =>
    InumOk r.1 ∧ ¬ sb.InTree r.2 ∧ r.2 ∉ sb.deferred

theorem IallocPolicy.update_lt (policy : IallocPolicy) (h : sb.nextinum < maxInodes) :
    policy.update sb.nextinum inum < maxInodes := by
  cases policy with
  | specific m => exact h
  | linear =>
      unfold IallocPolicy.update
      dsimp only
      split
      · decide
      · rename_i hlt
        exact Nat.not_le.mp hlt

theorem InumOk.allocInum (h : InumOk sb) {policy : IallocPolicy} (hfits : CreateFits sb policy) :
    Created sb (sb.allocInum policy) := by
  unfold InumSb.allocInum
  rcases hfits with ⟨n, hn, hroom⟩ | hno
  · rw [Outcome.bind_of_ok (allocLoop_of_free h.tree _ hn hashedFrom_le)]
    obtain ⟨hntree, hnhash⟩ := not_or.mp hn.2.2.1
    have hndef : n ∉ sb.deferred := fun hmem => hnhash (h.deferred_hashed n hmem)
    have hnlive : n ∉ sb.live := fun hmem => hntree (h.live_inTree n hmem)
    have hok : ∀ free, (if tuxNormalIno ≤ n then free + 1 else free) = sb.freeinodes →
        InumOk { sb with
          hashed := n :: sb.hashed
          deferred := sb.deferred ++ [n]
          nextinum := policy.update sb.nextinum n
          freeinodes := free } := by
      intro free hfree
      constructor
      · exact h.tree
      · exact h.live_inTree
      · intro m hm
        rcases List.mem_append.mp hm with hm | hm
        · exact List.mem_cons_of_mem _ (h.deferred_hashed m hm)
        · rw [List.mem_singleton.mp hm]
          exact List.mem_cons_self
      · refine List.nodup_append'.mpr ⟨h.deferred_nodup, List.nodup_singleton n, ?_⟩
        exact fun m hm hm' => hndef (List.mem_singleton.mp hm' ▸ hm)
      · exact h.live_nodup
      · intro m hm
        rcases List.mem_append.mp hm with hm | hm
        · exact h.disjoint m hm
        · rw [List.mem_singleton.mp hm]
          exact hnlive
      · exact h.used
      · have hcount := h.free
        show free + sb.usedinodes + normalCount (sb.deferred ++ [n]) = maxInodes
        rw [normalCount_append]
        split at hfree
        · rename_i hnormal
          rw [if_pos hnormal]
          omega
        · rename_i hnormal
          rw [if_neg hnormal]
          omega
      · exact policy.update_lt h.next
    dsimp only
    split
    · rename_i hnormal
      have hlt : tuxNormalIno < sb.freeinodes := hroom.resolve_left (Nat.not_lt.mpr hnormal)
      rw [Outcome.bind_of_ok (tuxAssert_of hlt)]
      refine ⟨hok (sb.freeinodes - 1) ?_, hntree, hndef⟩
      rw [if_pos hnormal]
      exact Nat.sub_add_cancel (Nat.zero_lt_of_lt hlt)
    · rename_i hnormal
      exact ⟨hok sb.freeinodes (if_neg hnormal), hntree, hndef⟩
  · rw [allocLoop_of_noSpace h.tree _ hno hashedFrom_le]
    exact rfl

/-- The paranoia check of `save_inode`. -/
theorem lookup_of_inTree (h : TreeOk leaves) (hin : InLeaves leaves inum) :
    InumSb.lookup leaves inum = true := by
  have hlt : inum < tuxkeyLimit := hin.lt h.ordered
  obtain ⟨bottom, leaf, rest, hprobe, -, hkey, hok, hiff⟩ :=
    probeLeaves_spec h.ordered (h.first ▸ Nat.zero_le inum) hlt
  unfold InumSb.lookup
  rw [hprobe]
  exact decide_eq_true ((inLeaves_iff_has hok hkey).mp ((hiff inum (Nat.le_refl _)).mp hin))

theorem InumOk.lookup (h : InumOk sb) (hin : sb.InTree inum) :
    InumSb.lookup sb.leaves inum = true := by
  obtain ⟨leaves, heq, hin⟩ := hin
  unfold InumSb.leaves
  rw [heq]
  exact lookup_of_inTree (h.tree _ heq) hin

theorem InumOk.saveInode (h : InumOk sb) {written : Leaves} {ok : Bool}
    (hallowed : sb.Allowed (.save inum written ok)) :
    Outcome.Ensures (· = TuxError.enospc) (sb.saveInode inum written ok) InumOk := by
  obtain ⟨hdirty, htree, hothers, hwrote, hkept⟩ := hallowed
  have hparanoia : inum ∈ sb.deferred ∨ InumSb.lookup sb.leaves inum = true :=
    hdirty.imp id fun hlive => h.lookup (h.live_inTree _ hlive.1)
  have hlive : ∀ n ∈ sb.live, InItree (some written) n := by
    intro n hn
    rw [inItree_some]
    by_cases heq : n = inum
    · rw [heq] at hn ⊢
      exact hkept (h.live_inTree _ hn)
    · exact (hothers n heq).mpr (h.live_inTree n hn)
  have htree' : ∀ leaves, some written = some leaves → TreeOk leaves := by
    intro leaves heq
    cases heq
    exact htree
  have hsame : InumOk { sb with itree := some written } :=
    ⟨htree', hlive, h.deferred_hashed, h.deferred_nodup, h.live_nodup, h.disjoint, h.used, h.free,
      h.next⟩
  unfold InumSb.saveInode
  rw [Outcome.bind_of_ok (tuxAssert_of hparanoia)]
  dsimp only
  split
  · exact hsame
  rename_i hok
  split
  · rename_i hdef
    have hcount := normalCount_erase hdef
    have hused : ∀ used, used = tuxNormalIno + normalCount (inum :: sb.live) → InumOk { sb with
        itree := some written
        deferred := sb.deferred.erase inum
        live := inum :: sb.live
        usedinodes := used } := by
      intro used hused
      have hmem : ∀ n, n ∈ sb.deferred.erase inum ↔ n ≠ inum ∧ n ∈ sb.deferred :=
        fun n => h.deferred_nodup.mem_erase_iff
      constructor
      · exact htree'
      · intro n hn
        rcases List.mem_cons.mp hn with rfl | hn
        · exact inItree_some.mpr (hwrote (Bool.of_not_eq_false hok))
        · exact hlive n hn
      · exact fun n hn => h.deferred_hashed n ((hmem n).mp hn).2
      · exact h.deferred_nodup.erase _
      · exact List.nodup_cons.mpr ⟨h.disjoint inum hdef, h.live_nodup⟩
      · intro n hn hlive'
        obtain ⟨hne, hn⟩ := (hmem n).mp hn
        rcases List.mem_cons.mp hlive' with heq | hlive'
        · exact hne heq
        · exact h.disjoint n hn hlive'
      · exact hused
      · have hfree := h.free
        have hbefore := h.used
        rw [normalCount_cons] at hused
        show sb.freeinodes + used + normalCount (sb.deferred.erase inum) = maxInodes
        omega
      · exact h.next
    split
    · rename_i hnormal
      have hfree := h.free
      rw [if_pos hnormal] at hcount
      rw [Outcome.bind_of_ok (tuxAssert_of (by omega))]
      refine hused _ ?_
      rw [normalCount_cons, if_pos hnormal, h.used]
      rfl
    · rename_i hnormal
      refine hused sb.usedinodes ?_
      rw [normalCount_cons, if_neg hnormal]
      exact h.used
  · exact hsame

theorem InumSb.purgeFree_eq (h : sb.freeinodes < maxInodes) : sb.purgeFree inum =
    .ok { sb with freeinodes := sb.freeinodes + if tuxNormalIno ≤ inum then 1 else 0 } := by
  unfold InumSb.purgeFree
  split
  · rw [Outcome.bind_of_ok (tuxAssert_of h)]
    rfl
  · rfl

theorem InumSb.purgeUsed_eq (h : tuxNormalIno ≤ inum → tuxNormalIno < sb.usedinodes) :
    sb.purgeUsed inum =
      .ok { sb with usedinodes := sb.usedinodes - if tuxNormalIno ≤ inum then 1 else 0 } := by
  unfold InumSb.purgeUsed
  split
  · rename_i hnormal
    rw [Outcome.bind_of_ok (tuxAssert_of (h hnormal))]
    rfl
  · rfl

theorem InumOk.purgeInode (h : InumOk sb) {chopped : Leaves} {ok : Bool}
    (hallowed : sb.Allowed (.purge inum chopped ok)) :
    Outcome.Ensures (· = TuxError.enospc) (sb.purgeInode inum chopped) InumOk := by
  obtain ⟨hdirty, htree, hothers, -⟩ := hallowed
  have hfree := h.free
  have hused := h.used
  have hlt : sb.freeinodes < maxInodes := by
    have hpos : 0 < tuxNormalIno := by decide
    omega
  unfold InumSb.purgeInode
  dsimp only
  rw [Outcome.bind_of_ok (@InumSb.purgeFree_eq
    { sb with hashed := sb.hashed.filter (· ≠ inum) } inum hlt)]
  dsimp only
  have hhashed : ∀ n ∈ sb.deferred, n ≠ inum → n ∈ sb.hashed.filter (· ≠ inum) :=
    fun n hn hne => List.mem_filter.mpr ⟨h.deferred_hashed n hn, decide_eq_true hne⟩
  by_cases hdef : inum ∈ sb.deferred
  · rw [if_pos hdef]
    have hmem : ∀ n, n ∈ sb.deferred.erase inum ↔ n ≠ inum ∧ n ∈ sb.deferred :=
      fun n => h.deferred_nodup.mem_erase_iff
    refine ⟨h.tree, h.live_inTree, fun n hn => ?_, h.deferred_nodup.erase _, h.live_nodup,
      fun n hn => h.disjoint n ((hmem n).mp hn).2, hused, ?_, h.next⟩
    · exact hhashed n ((hmem n).mp hn).2 ((hmem n).mp hn).1
    · have hcount := normalCount_erase hdef
      show sb.freeinodes + _ + sb.usedinodes + normalCount (sb.deferred.erase inum) = maxInodes
      omega
  · rw [if_neg hdef]
    have hlive : inum ∈ sb.live := (hdirty.resolve_left hdef).1
    have hcount := normalCount_erase hlive
    have hroom : tuxNormalIno ≤ inum → tuxNormalIno < sb.usedinodes := by
      intro hnormal
      rw [if_pos hnormal] at hcount
      omega
    rw [Outcome.bind_of_ok (@InumSb.purgeUsed_eq { sb with
      hashed := sb.hashed.filter (· ≠ inum)
      freeinodes := sb.freeinodes + if tuxNormalIno ≤ inum then 1 else 0
      live := sb.live.erase inum } inum hroom)]
    have hmem : ∀ n, n ∈ sb.live.erase inum ↔ n ≠ inum ∧ n ∈ sb.live :=
      fun n => h.live_nodup.mem_erase_iff
    have hne : ∀ n ∈ sb.deferred, n ≠ inum := fun n hn heq => hdef (heq ▸ hn)
    have hlast : (if tuxNormalIno ≤ inum then 1 else 0) ≤ sb.usedinodes := by
      split
      · rename_i hnormal
        exact Nat.le_trans (by decide) (Nat.le_of_lt (hroom hnormal))
      · exact Nat.zero_le _
    refine ⟨fun leaves heq => ?_, fun n hn => ?_, fun n hn => hhashed n hn (hne n hn),
      h.deferred_nodup, h.live_nodup.erase _, fun n hn hn' => ?_, ?_, ?_, h.next⟩
    · cases heq
      exact htree
    · obtain ⟨hne', hn⟩ := (hmem n).mp hn
      exact inItree_some.mpr ((hothers n hne').mpr (h.live_inTree n hn))
    · exact h.disjoint n hn ((hmem n).mp hn').2
    · show sb.usedinodes - _ = tuxNormalIno + normalCount (sb.live.erase inum)
      omega
    · show sb.freeinodes + _ + (sb.usedinodes - _) + normalCount sb.deferred = maxInodes
      omega

/-- A creation has a number to take. -/
def InumEvent.Fits (sb : InumSb) : InumEvent → Prop
  | .create policy => CreateFits sb policy
  | _ => True

theorem InumOk.step (h : InumOk sb) {event : InumEvent} (hallowed : sb.Allowed event)
    (hfits : event.Fits sb) : Outcome.Ensures (· = TuxError.enospc) (sb.step event) InumOk := by
  cases event with
  | create policy =>
      exact Outcome.Ensures.bind (h.allocInum hfits) fun r hr => hr.1
  | save inum written ok => exact h.saveInode hallowed
  | purge inum chopped ok => exact h.purgeInode hallowed
  | iget inum =>
      exact ⟨h.tree, h.live_inTree, fun n hn => List.mem_cons_of_mem _ (h.deferred_hashed n hn),
        h.deferred_nodup, h.live_nodup, h.disjoint, h.used, h.free, h.next⟩
  | drop inum =>
      refine ⟨h.tree, h.live_inTree, fun n hn => ?_, h.deferred_nodup, h.live_nodup, h.disjoint,
        h.used, h.free, h.next⟩
      refine List.mem_filter.mpr ⟨h.deferred_hashed n hn, decide_eq_true fun heq => ?_⟩
      exact hallowed (heq ▸ hn)

/-! ## Runs -/

/-- A volume that is made or mounted: the inodes of the btree are counted in `usedinodes`, on the
hash there are at most those that have no entry in the btree. -/
structure InumInit (sb : InumSb) : Prop where
  tree : ∀ leaves, sb.itree = some leaves → TreeOk leaves
  live : ∀ n, n ∈ sb.live ↔ sb.InTree n
  live_nodup : sb.live.Nodup
  hashed : ∀ n ∈ sb.hashed, n = tuxVolmapIno ∨ n = tuxLogmapIno
  deferred : sb.deferred = []
  used : sb.usedinodes = tuxNormalIno + normalCount sb.live
  free : sb.freeinodes = maxInodes - sb.usedinodes
  next : sb.nextinum = tuxNormalIno

/-- There are not more inodes than numbers. -/
theorem normalCount_le {inums : List Nat} (hnodup : inums.Nodup) (h : ∀ n ∈ inums, n < maxInodes) :
    tuxNormalIno + normalCount inums ≤ maxInodes := by
  have hcard : (inums.filter (tuxNormalIno ≤ ·)).toFinset.card ≤
      (Finset.Ico tuxNormalIno maxInodes).card := by
    refine Finset.card_le_card fun n hn => ?_
    obtain ⟨hmem, hnormal⟩ := List.mem_filter.mp (List.mem_toFinset.mp hn)
    exact Finset.mem_Ico.mpr ⟨of_decide_eq_true hnormal, h n hmem⟩
  rw [List.toFinset_card_of_nodup (hnodup.filter _), ← List.countP_eq_length_filter,
    Nat.card_Ico] at hcard
  unfold normalCount
  have hle : tuxNormalIno ≤ maxInodes := by decide
  omega

theorem InumInit.ok (h : InumInit sb) : InumOk sb := by
  have hlt : ∀ n ∈ sb.live, n < maxInodes := by
    intro n hn
    obtain ⟨leaves, heq, hin⟩ := (h.live n).mp hn
    exact hin.lt (h.tree leaves heq).ordered
  have hle := normalCount_le h.live_nodup hlt
  refine ⟨h.tree, fun n hn => (h.live n).mp hn, ?_, ?_, h.live_nodup, ?_, h.used, ?_, ?_⟩
  · rw [h.deferred]
    exact fun n hn => absurd hn List.not_mem_nil
  · rw [h.deferred]
    exact List.nodup_nil
  · rw [h.deferred]
    exact fun n hn => absurd hn List.not_mem_nil
  · rw [h.deferred, h.free, h.used]
    exact Nat.sub_add_cancel hle
  · rw [h.next]
    decide

/-- The runs in which every creation has a number to take. -/
def inumSystem : System InumSb where
  init := InumInit
  next sb sb' := ∃ event : InumEvent, sb.Allowed event ∧ event.Fits sb ∧
    (sb.step event = .ok sb' ∨ sb.step event = .error .enospc ∧ sb' = sb)

theorem inumSystem_ok (h : inumSystem.Reachable sb) : InumOk sb := by
  refine System.Reachable.invariant (I := InumOk) (fun _ hinit => InumInit.ok hinit) ?_ h
  rintro sb sb' hok ⟨event, hallowed, hfits, hstep | ⟨-, rfl⟩⟩
  · exact (hok.step hallowed hfits).of_ok hstep
  · exact hok

/-- What the inode numbers of a volume have to keep. -/
structure InumSound (sb : InumSb) : Prop where
  counters : sb.freeinodes = maxInodes - sb.usedinodes - normalCount sb.deferred
  search : ∀ goal, goal < maxInodes →
    (FindsFree sb.InTree goal (findFreeInum sb.itree goal) ↔
      (∃ n, goal ≤ n ∧ n < maxInodes ∧ ¬ sb.InTree n) ∨ goal ≤ tuxNormalIno)
  created : ∀ policy, CreateFits sb policy → ∀ sb' n, sb.allocInum policy = .ok (sb', n) →
    ¬ sb.InTree n ∧ n ∉ sb.deferred
  asserts : ∀ event : InumEvent, sb.Allowed event → event.Fits sb →
    ∀ error, sb.step event = .error error → error = .enospc

theorem inumSystem_sound (h : inumSystem.Reachable sb) : InumSound sb := by
  have hok := inumSystem_ok h
  constructor
  · have hfree := hok.free
    omega
  · exact fun goal hgoal => findsFree_iff hok.tree hgoal
  · intro policy hfits sb' n halloc
    exact ((hok.allocInum hfits).of_ok halloc).2
  · intro event hallowed hfits error herror
    have hstep := hok.step hallowed hfits
    rw [herror] at hstep
    exact hstep

end

/-! ## A run -/

/-- The last inode number. -/
def lastInum : Nat := maxInodes - 1

/-- A volume that is made. -/
def newVolume : InumSb :=
  ⟨none, [tuxVolmapIno, tuxLogmapIno], [], [], maxInodes - tuxNormalIno, tuxNormalIno,
    tuxNormalIno⟩

/-- The inode with the last number was created. -/
def lastCreated : InumSb :=
  ⟨none, [lastInum, tuxVolmapIno, tuxLogmapIno], [lastInum], [], maxInodes - tuxNormalIno - 1,
    tuxNormalIno, tuxNormalIno⟩

/-- An inode btree with the last number only. -/
def lastLeaves : Leaves := [(0, ⟨0, []⟩), (lastInum, ⟨lastInum, [16]⟩)]

/-- And it was saved. -/
def lastSaved : InumSb :=
  ⟨some lastLeaves, [lastInum, tuxVolmapIno, tuxLogmapIno], [], [lastInum],
    maxInodes - tuxNormalIno - 1, tuxNormalIno + 1, tuxNormalIno⟩

theorem inLeaves_lastLeaves {n : Nat} : InLeaves lastLeaves n ↔ n = lastInum := by
  unfold lastLeaves
  rw [inLeaves_cons, inLeaves_cons]
  constructor
  · rintro (⟨-, hlt, -⟩ | ⟨hle, hlt, -⟩ | ⟨p, hp, -⟩)
    · exact absurd hlt (Nat.not_lt_zero n)
    · exact Nat.le_antisymm (Nat.le_of_lt_succ hlt) hle
    · exact absurd hp List.not_mem_nil
  · rintro rfl
    exact .inr (.inl (by decide +kernel))

theorem lastInum_lt : lastInum < maxInodes := by decide

theorem lastLeaves_ok : TreeOk lastLeaves :=
  ⟨⟨⟨by decide, by decide, .inl rfl⟩, ⟨by decide, by decide, .inr (by decide)⟩, trivial⟩, rfl⟩

theorem lastSaved_reachable : inumSystem.Reachable lastSaved := by
  have hnew : inumSystem.Reachable newVolume := by
    refine .init ⟨nofun, fun n => ?_, List.nodup_nil, ?_, rfl, rfl, rfl, rfl⟩
    · exact ⟨fun hn => absurd hn List.not_mem_nil, fun hn => absurd hn not_inItree_none⟩
    · intro n hn
      simpa only [newVolume, List.mem_cons, List.not_mem_nil, or_false] using hn
  have hcreated : inumSystem.Reachable lastCreated := by
    refine .next hnew ⟨.create (.specific lastInum), lastInum_lt, .inl ⟨lastInum, ?_, ?_⟩, .inl ?_⟩
    · refine ⟨Nat.le_refl _, by decide, ?_, fun m hm hm' => absurd hm (Nat.not_le.mpr hm')⟩
      rintro (htree | hhash)
      · exact not_inItree_none htree
      · exact absurd hhash (by decide)
    · exact .inr (by decide)
    · rfl
  refine .next hcreated ⟨.save lastInum lastLeaves true, ⟨.inl List.mem_cons_self, lastLeaves_ok,
    fun n hn => ?_, fun _ => inLeaves_lastLeaves.mpr rfl, fun hin => ?_⟩, trivial, .inl rfl⟩
  · exact ⟨fun hin => absurd (inLeaves_lastLeaves.mp hin) hn,
      fun hin => absurd hin not_inItree_none⟩
  · exact absurd hin not_inItree_none

theorem inumSystem_sound_lastSaved : InumSound lastSaved ∧ lastSaved.freeinodes = 2 ^ 48 - 65 ∧
    lastSaved.usedinodes = 65 :=
  ⟨inumSystem_sound lastSaved_reachable, rfl, rfl⟩

/-- The same number again: all numbers from 64 on but the last one are free, but the second pass of
the search starts with a cursor whose root was popped. -/
theorem create_wrapped : inumSystem.Reachable lastSaved ∧
    lastSaved.Allowed (.create (.specific lastInum)) ∧ ¬ lastSaved.InTree tuxNormalIno ∧
    tuxNormalIno ∉ lastSaved.hashed ∧
    findFreeInum lastSaved.itree lastInum = .error .assertion ∧
    lastSaved.step (.create (.specific lastInum)) = .error .assertion := by
  refine ⟨lastSaved_reachable, lastInum_lt, fun hin => ?_, by decide, by decide +kernel, ?_⟩
  · rw [InumSb.InTree, lastSaved, inItree_some, inLeaves_lastLeaves] at hin
    exact absurd hin (by decide)
  · have hloop : allocLoop lastSaved.itree lastSaved.hashed (lastSaved.hashed.length + 1)
        lastInum = .error .assertion := by decide +kernel
    unfold InumSb.step InumSb.allocInum
    show (allocLoop lastSaved.itree lastSaved.hashed (lastSaved.hashed.length + 1) lastInum >>= _)
      >>= _ = _
    rw [hloop]
    rfl

end Tux3
