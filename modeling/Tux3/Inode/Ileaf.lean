/-
  Inode/Ileaf.lean --- the search for a free inode number in the leaves of the inode btree.

  A leaf has a vector of offsets, indexed by the inode number less that of the leaf; a number
  whose attributes have no bytes is free.  The leaves are taken in the order of the traverse, each
  under its key; a cursor is what is left of them, and nothing once the root was popped.
-/
import Mathlib.Data.List.GetD
import Tux3.Btree.Node
import Tux3.Volume

set_option autoImplicit false

namespace Tux3

/-! ## Leaves -/

/-- `struct ileaf`: `dict` are the offsets of the ends of the attributes. -/
structure Ileaf where
  ibase : Nat
  dict : List Nat
  deriving DecidableEq, Repr, Inhabited

/-- `icount`. -/
def Ileaf.icount (leaf : Ileaf) : Nat := leaf.dict.length

/-- `atdict`. -/
def Ileaf.atdict (leaf : Ileaf) (at_ : Nat) : Nat :=
  if at_ = 0 then 0 else leaf.dict.getD (at_ - 1) 0

/-- The leaf has attributes of the inode. -/
def Ileaf.Has (leaf : Ileaf) (inum : Nat) : Prop :=
  leaf.ibase ≤ inum ∧ inum < leaf.ibase + leaf.icount ∧
    leaf.atdict (inum - leaf.ibase) ≠ leaf.atdict (inum - leaf.ibase + 1)

instance (leaf : Ileaf) (inum : Nat) : Decidable (leaf.Has inum) :=
  inferInstanceAs (Decidable (_ ∧ _ ∧ _))

/-- The loop of `ileaf_find_free`, over the offsets of `dict` from `at` on. -/
def findFreeLoop : List Nat → Nat → Nat → Nat
  | [], _, at_ => at_
  | limit :: limits, offset, at_ =>
      if offset = limit then at_ else findFreeLoop limits limit (at_ + 1)

/-- The number that `ileaf_find_free` compares with the limit; all are unsigned of 64 bits. -/
def Ileaf.freeInum (leaf : Ileaf) (key : Nat) : Nat :=
  let at_ := (key + (2 ^ 64 - leaf.ibase)) % 2 ^ 64
  let at_ := if at_ < leaf.icount then
      findFreeLoop (leaf.dict.drop at_) (leaf.atdict at_) at_
    else at_
  (leaf.ibase + at_) % 2 ^ 64

/-- `ileaf_find_free`. -/
def ileafFindFree (keyLimit : Nat) (leaf : Ileaf) (key len : Nat) : Option Nat :=
  let keyLimit := min keyLimit (key + len)
  if leaf.freeInum key < keyLimit then some (leaf.freeInum key) else none

/-! ## The traverse -/

/-- The leaves from a cursor on, each with its key. -/
abbrev Leaves : Type := List (Nat × Ileaf)

/-- `cursor_next_key`, of the leaves after that of the cursor. -/
def nextKey : Leaves → Nat
  | [] => tuxkeyLimit
  | (key, _) :: _ => key

/-- `btree_probe`: the last leaf with a key that is not above `key`, or the first one. -/
def probeLeaves : Leaves → Nat → Leaves
  | leaf :: (key', leaf') :: rest, key =>
      if key' ≤ key then probeLeaves ((key', leaf') :: rest) key
      else leaf :: (key', leaf') :: rest
  | leaves, _ => leaves

/-- `btree_traverse` with `ileaf_find_free`: the number, if it was found, and the cursor. -/
def traverseFindFree : Leaves → Nat → Nat → Except TuxError (Option Nat × Leaves)
  -- the root was popped: the assert of `cursor_this_key`
  | [], _, _ => .error .assertion
  | (bottom, leaf) :: rest, key, len =>
      let len := if key < bottom then len - min len (bottom - key) else len
      let stop : Bool := key < bottom ∧ len = 0
      let key := if key < bottom then bottom else key
      if stop = true then return (none, (bottom, leaf) :: rest)
      else
        match ileafFindFree (nextKey rest) leaf key len with
        | some inum => return (some inum, (bottom, leaf) :: rest)
        | none =>
            if key + len ≤ nextKey rest then return (none, (bottom, leaf) :: rest)
            else
              match rest with
              | [] => return (none, [])
              | next :: rest => traverseFindFree (next :: rest) key len

/-! ## What is in the leaves -/

/-- A leaf under its key, and below the next key. -/
structure LeafOk (bottom limit : Nat) (leaf : Ileaf) : Prop where
  key_lt : bottom < limit
  ibase_lt : leaf.ibase < 2 ^ 48
  inside : leaf.icount = 0 ∨ (bottom ≤ leaf.ibase ∧ leaf.ibase + leaf.icount ≤ limit)

/-- The leaves are in order. -/
def LeavesOk : Leaves → Prop
  | [] => True
  | (bottom, leaf) :: rest => LeafOk bottom (nextKey rest) leaf ∧ LeavesOk rest

/-- An inode is in the leaves. -/
def InLeaves (leaves : Leaves) (inum : Nat) : Prop := ∃ p ∈ leaves, p.2.Has inum

section

variable {leaf : Ileaf} {leaves rest : Leaves} {bottom key len inum : Nat}

theorem Ileaf.atdict_succ (leaf : Ileaf) {i : Nat} (h : i < leaf.icount) :
    leaf.atdict (i + 1) = leaf.dict.get ⟨i, h⟩ := by
  unfold Ileaf.atdict
  rw [if_neg (Nat.succ_ne_zero i), Nat.add_sub_cancel]
  exact (List.getD_eq_getElem _ _ h)

/-- The loop stops at the first offset that is the one before. -/
theorem findFreeLoop_spec (leaf : Ileaf) (at_ : Nat) (h : at_ ≤ leaf.icount) :
    let found := findFreeLoop (leaf.dict.drop at_) (leaf.atdict at_) at_
    at_ ≤ found ∧ found ≤ leaf.icount ∧
      (∀ i, at_ ≤ i → i < found → leaf.atdict i ≠ leaf.atdict (i + 1)) ∧
      (found < leaf.icount → leaf.atdict found = leaf.atdict (found + 1)) := by
  generalize hn : leaf.icount - at_ = n
  induction n generalizing at_ with
  | zero =>
      have heq : at_ = leaf.icount := by omega
      have hnil : leaf.dict.drop at_ = [] := List.drop_eq_nil_of_le (Nat.le_of_eq heq.symm)
      rw [hnil]
      unfold findFreeLoop
      exact ⟨Nat.le_refl _, h, fun i hle hlt => absurd hlt (Nat.not_lt.mpr hle),
        fun hlt => absurd hlt (by omega)⟩
  | succ n ih =>
      have hlt : at_ < leaf.icount := by omega
      have hcons : leaf.dict.drop at_ = leaf.atdict (at_ + 1) :: leaf.dict.drop (at_ + 1) := by
        rw [leaf.atdict_succ hlt]
        exact List.drop_eq_getElem_cons hlt
      rw [hcons]
      unfold findFreeLoop
      by_cases heq : leaf.atdict at_ = leaf.atdict (at_ + 1)
      · dsimp only
        rw [if_pos heq]
        exact ⟨Nat.le_refl _, h, fun i hle hlt => absurd hlt (Nat.not_lt.mpr hle), fun _ => heq⟩
      · dsimp only
        rw [if_neg heq]
        obtain ⟨hle, hcount, hused, hfree⟩ := ih (at_ + 1) hlt (by omega)
        refine ⟨by omega, hcount, fun i hi hlt' => ?_, hfree⟩
        rcases Nat.eq_or_lt_of_le hi with rfl | hi
        · exact heq
        · exact hused i hi hlt'

theorem freeInum_of_outside (hbase : leaf.ibase < 2 ^ 48) (hkey : key < 2 ^ 63)
    (hout : leaf.icount ≤ (key + (2 ^ 64 - leaf.ibase)) % 2 ^ 64) : leaf.freeInum key = key := by
  unfold Ileaf.freeInum
  dsimp only
  rw [if_neg (Nat.not_lt.mpr hout)]
  omega

/-- The number is the first from `key` on that the leaf does not have. -/
theorem freeInum_spec {limit : Nat} (h : LeafOk bottom limit leaf) (hlimit : limit ≤ 2 ^ 48)
    (hlt : key < 2 ^ 63) : key ≤ leaf.freeInum key ∧ ¬ leaf.Has (leaf.freeInum key) ∧
      ∀ m, key ≤ m → m < leaf.freeInum key → leaf.Has m := by
  have hbase := h.ibase_lt
  by_cases hin : leaf.ibase ≤ key ∧ key < leaf.ibase + leaf.icount
  · have hat : (key + (2 ^ 64 - leaf.ibase)) % 2 ^ 64 = key - leaf.ibase := by omega
    have hcount : leaf.ibase + leaf.icount ≤ limit := by
      rcases h.inside with hzero | ⟨-, hle⟩
      · omega
      · exact hle
    obtain ⟨hle, hfound, hused, hfree⟩ := findFreeLoop_spec leaf (key - leaf.ibase) (by omega)
    have heq : leaf.freeInum key = leaf.ibase + findFreeLoop (leaf.dict.drop (key - leaf.ibase))
        (leaf.atdict (key - leaf.ibase)) (key - leaf.ibase) := by
      unfold Ileaf.freeInum
      dsimp only
      rw [hat, if_pos (by omega)]
      omega
    rw [heq]
    generalize findFreeLoop (leaf.dict.drop (key - leaf.ibase)) (leaf.atdict (key - leaf.ibase))
      (key - leaf.ibase) = found at hle hfound hused hfree
    refine ⟨by omega, ?_, fun m hm hm' => ?_⟩
    · rintro ⟨-, hlt', hne⟩
      rw [Nat.add_sub_cancel_left] at hne
      exact hne (hfree (by omega))
    · refine ⟨by omega, by omega, ?_⟩
      exact hused (m - leaf.ibase) (by omega) (by omega)
  · have hself : leaf.freeInum key = key := by
      refine freeInum_of_outside hbase hlt ?_
      rcases h.inside with hzero | ⟨-, hle⟩
      · omega
      · omega
    rw [hself]
    refine ⟨Nat.le_refl _, ?_, fun m hm hm' => absurd hm (Nat.not_le.mpr hm')⟩
    rintro ⟨hle, hlt', -⟩
    exact hin ⟨hle, hlt'⟩

/-- What a search found: the first number from `key` on that is not used, or nothing where all the
numbers of the range are used. -/
def FoundFree (used : Nat → Prop) (key limit : Nat) : Option Nat → Prop
  | some inum => key ≤ inum ∧ inum < limit ∧ ¬ used inum ∧ ∀ m, key ≤ m → m < inum → used m
  | none => ∀ m, key ≤ m → m < limit → used m

theorem ileafFindFree_spec {limit : Nat} (h : LeafOk bottom limit leaf) (hlimit : limit ≤ 2 ^ 48)
    (hlt : key < 2 ^ 63) :
    FoundFree leaf.Has key (min limit (key + len)) (ileafFindFree limit leaf key len) := by
  obtain ⟨hle, hfree, hused⟩ := freeInum_spec h hlimit hlt
  unfold ileafFindFree
  dsimp only
  split
  · rename_i hin
    exact ⟨hle, hin, hfree, hused⟩
  · rename_i hin
    exact fun m hm hm' => hused m hm (by omega)

theorem FoundFree.congr {used used' : Nat → Prop} {limit : Nat} {found : Option Nat}
    (h : FoundFree used key limit found)
    (heq : ∀ m, key ≤ m → m < limit → (used m ↔ used' m)) : FoundFree used' key limit found := by
  cases found with
  | none => exact fun m hle hlt => (heq m hle hlt).mp (h m hle hlt)
  | some n =>
      obtain ⟨hle, hlt, hfree, hused⟩ := h
      refine ⟨hle, hlt, fun hn => hfree ((heq n hle hlt).mpr hn), fun m hm hm' => ?_⟩
      exact (heq m hm (Nat.lt_trans hm' hlt)).mp (hused m hm hm')

/-- A search that goes on where all the numbers up to there are used. -/
theorem FoundFree.extend {used : Nat → Prop} {mid limit : Nat} {found : Option Nat}
    (h : FoundFree used mid limit found) (hle : key ≤ mid)
    (hused : ∀ m, key ≤ m → m < mid → used m) : FoundFree used key limit found := by
  have hall : ∀ {top}, (∀ m, mid ≤ m → m < top → used m) → ∀ m, key ≤ m → m < top → used m := by
    intro top htop m hm hm'
    rcases Nat.lt_or_ge m mid with hlt | hge
    · exact hused m hm hlt
    · exact htop m hge hm'
  cases found with
  | none => exact hall h
  | some n =>
      obtain ⟨hmid, hlt, hfree, hbelow⟩ := h
      exact ⟨Nat.le_trans hle hmid, hlt, hfree, hall hbelow⟩

/-- A search that found something stays right if the limit is put up. -/
theorem FoundFree.raise {used : Nat → Prop} {limit limit' n : Nat}
    (h : FoundFree used key limit (some n)) (hle : limit ≤ limit') :
    FoundFree used key limit' (some n) :=
  ⟨h.1, Nat.lt_of_lt_of_le h.2.1 hle, h.2.2⟩

/-! ## Cursors -/

theorem LeavesOk.nextKey_le (h : LeavesOk leaves) : nextKey leaves ≤ tuxkeyLimit := by
  induction leaves with
  | nil => exact Nat.le_refl _
  | cons p rest ih =>
      obtain ⟨bottom, leaf⟩ := p
      obtain ⟨hleaf, hrest⟩ := h
      exact Nat.le_trans (Nat.le_of_lt hleaf.key_lt) (ih hrest)

theorem LeafOk.has_bounds {limit : Nat} (h : LeafOk bottom limit leaf) (hhas : leaf.Has inum) :
    bottom ≤ inum ∧ inum < limit := by
  obtain ⟨hle, hlt, -⟩ := hhas
  rcases h.inside with hzero | ⟨hbottom, hlimit⟩
  · omega
  · omega

/-- The numbers of the leaves are not below their first key. -/
theorem InLeaves.nextKey_le (h : LeavesOk leaves) (hin : InLeaves leaves inum) :
    nextKey leaves ≤ inum := by
  induction leaves with
  | nil =>
      obtain ⟨p, hp, -⟩ := hin
      exact absurd hp List.not_mem_nil
  | cons p rest ih =>
      obtain ⟨bottom, leaf⟩ := p
      obtain ⟨hleaf, hrest⟩ := h
      obtain ⟨q, hq, hhas⟩ := hin
      rcases List.mem_cons.mp hq with rfl | hq
      · exact (hleaf.has_bounds hhas).1
      · exact Nat.le_trans (Nat.le_of_lt hleaf.key_lt) (ih hrest ⟨q, hq, hhas⟩)

theorem InLeaves.lt (h : LeavesOk leaves) (hin : InLeaves leaves inum) : inum < tuxkeyLimit := by
  induction leaves with
  | nil =>
      obtain ⟨p, hp, -⟩ := hin
      exact absurd hp List.not_mem_nil
  | cons p rest ih =>
      obtain ⟨bottom, leaf⟩ := p
      obtain ⟨hleaf, hrest⟩ := h
      obtain ⟨q, hq, hhas⟩ := hin
      rcases List.mem_cons.mp hq with rfl | hq
      · exact Nat.lt_of_lt_of_le (hleaf.has_bounds hhas).2 hrest.nextKey_le
      · exact ih hrest ⟨q, hq, hhas⟩

theorem inLeaves_cons : InLeaves ((bottom, leaf) :: rest) inum ↔ leaf.Has inum ∨
    InLeaves rest inum := by
  unfold InLeaves
  simp only [List.mem_cons, exists_eq_or_imp]

/-- Below the next key, the leaf of the cursor has what there is. -/
theorem inLeaves_iff_has (h : LeavesOk ((bottom, leaf) :: rest)) (hlt : inum < nextKey rest) :
    InLeaves ((bottom, leaf) :: rest) inum ↔ leaf.Has inum := by
  rw [inLeaves_cons]
  exact or_iff_left fun hin => absurd (hin.nextKey_le h.2) (Nat.not_le.mpr hlt)

/-- From the next key on, the leaf of the cursor has nothing. -/
theorem inLeaves_iff_rest (h : LeavesOk ((bottom, leaf) :: rest)) (hle : nextKey rest ≤ inum) :
    InLeaves ((bottom, leaf) :: rest) inum ↔ InLeaves rest inum := by
  rw [inLeaves_cons]
  exact or_iff_right fun hhas => absurd (h.1.has_bounds hhas).2 (Nat.not_lt.mpr hle)

/-- The cursor of a probe: the key is below the next one, and the numbers from the key on are
those of the leaves that are left. -/
theorem probeLeaves_spec (h : LeavesOk leaves) (hfirst : nextKey leaves ≤ key)
    (hkey : key < tuxkeyLimit) :
    ∃ bottom leaf rest, probeLeaves leaves key = (bottom, leaf) :: rest ∧ bottom ≤ key ∧
      key < nextKey rest ∧ LeavesOk ((bottom, leaf) :: rest) ∧
      ∀ n, key ≤ n → (InLeaves leaves n ↔ InLeaves ((bottom, leaf) :: rest) n) := by
  induction leaves with
  | nil => exact absurd hfirst (Nat.not_le.mpr hkey)
  | cons p rest ih =>
      obtain ⟨bottom, leaf⟩ := p
      cases rest with
      | nil => exact ⟨bottom, leaf, [], rfl, hfirst, hkey, h, fun n _ => Iff.rfl⟩
      | cons q rest =>
          obtain ⟨bottom', leaf'⟩ := q
          unfold probeLeaves
          by_cases hle : bottom' ≤ key
          · rw [if_pos hle]
            obtain ⟨b, l, r, hprobe, hb, hr, hok, hin⟩ := ih h.2 hle
            refine ⟨b, l, r, hprobe, hb, hr, hok, fun n hn => ?_⟩
            exact (inLeaves_iff_rest h (Nat.le_trans hle hn)).trans (hin n hn)
          · rw [if_neg hle]
            exact ⟨bottom, leaf, _, rfl, hfirst, Nat.not_le.mp hle, h, fun n _ => Iff.rfl⟩

/-! ## The search over the leaves -/

/-- What the search of one leaf says of all of them. -/
theorem FoundFree.ofLeaf {found : Option Nat} (h : LeavesOk ((bottom, leaf) :: rest))
    (hfound : FoundFree leaf.Has key (min (nextKey rest) (key + len)) found) :
    FoundFree (InLeaves ((bottom, leaf) :: rest)) key (min (nextKey rest) (key + len)) found :=
  hfound.congr fun _ _ hlt =>
    (inLeaves_iff_has h (Nat.lt_of_lt_of_le hlt (Nat.min_le_left _ _))).symm

/-- The traverse of the leaves after the cursor. -/
def traverseRest (rest : Leaves) (key len : Nat) : Except TuxError (Option Nat × Leaves) :=
  match rest with
  | [] => return (none, [])
  | next :: rest => traverseFindFree (next :: rest) key len

/-- What a traverse from a cursor over `leaves` comes to, for the range from `key` to `top`. -/
def Traversed (leaves : Leaves) (key top : Nat)
    (result : Except TuxError (Option Nat × Leaves)) : Prop :=
  ∃ found cursor, result = .ok (found, cursor) ∧
    FoundFree (InLeaves leaves) key (min tuxkeyLimit top) found ∧
    -- the root was popped
    (found = none → tuxkeyLimit < top → cursor = [])

/-- One leaf of the traverse, for a range that does not start before it. -/
theorem traverseFindFree_leaf (h : LeavesOk ((bottom, leaf) :: rest)) (hle : bottom ≤ key)
    (hkey : key < nextKey rest)
    (hrest : nextKey rest < key + len →
      Traversed rest (nextKey rest) (key + len) (traverseRest rest key len)) :
    Traversed ((bottom, leaf) :: rest) key (key + len)
      (traverseFindFree ((bottom, leaf) :: rest) key len) := by
  have hlimit : nextKey rest ≤ tuxkeyLimit := h.2.nextKey_le
  have hlt : key < 2 ^ 63 :=
    Nat.lt_of_lt_of_le (Nat.lt_of_lt_of_le hkey hlimit) (by unfold tuxkeyLimit; decide)
  have hspec : FoundFree leaf.Has key (min (nextKey rest) (key + len)) _ :=
    ileafFindFree_spec h.1 hlimit hlt
  have hleaf := hspec.ofLeaf h
  unfold traverseFindFree
  dsimp only
  rw [if_neg (Nat.not_lt.mpr hle), if_neg (Nat.not_lt.mpr hle), if_neg]
  · generalize ileafFindFree (nextKey rest) leaf key len = found at hleaf
    cases found with
    | some n =>
        refine ⟨some n, _, rfl, hleaf.raise ?_, fun hnone => nomatch hnone⟩
        omega
    | none =>
        dsimp only
        by_cases hend : key + len ≤ nextKey rest
        · rw [if_pos hend]
          refine ⟨none, _, rfl, fun m hm hm' => hleaf m hm ?_, fun _ hover => ?_⟩
          · omega
          · exact absurd hover (by omega)
        · rw [if_neg hend]
          obtain ⟨found, cursor, htrav, hfound, hpop⟩ := hrest (Nat.not_le.mp hend)
          refine ⟨found, cursor, ?_, ?_, hpop⟩
          · rw [← htrav]
            unfold traverseRest
            cases rest <;> rfl
          · refine FoundFree.extend ?_ (Nat.le_of_lt hkey) fun m hm hm' => hleaf m hm (by omega)
            exact hfound.congr fun m hm _ => (inLeaves_iff_rest h hm).symm
  · simp only [decide_eq_true_eq]
    omega

/-- A range that starts before the first leaf. -/
theorem traverseFindFree_before (hlt : key < bottom) (hgt : bottom < key + len) :
    traverseFindFree ((bottom, leaf) :: rest) key len =
      traverseFindFree ((bottom, leaf) :: rest) bottom (key + len - bottom) := by
  have hlen : len - min len (bottom - key) = key + len - bottom := by omega
  have hstop : ¬ decide (key < bottom ∧ key + len - bottom = 0) = true := by
    rw [decide_eq_true_eq]
    omega
  have hstop' : ¬ decide (bottom < bottom ∧ key + len - bottom = 0) = true := by
    rw [decide_eq_true_eq]
    omega
  unfold traverseFindFree
  dsimp only
  rw [if_pos hlt, if_pos hlt, if_neg (Nat.lt_irrefl bottom), if_neg (Nat.lt_irrefl bottom), hlen,
    if_neg hstop, if_neg hstop']

/-- The traverse finds the first number of the range that is not in the leaves; if there is none
and the range does not end before the last leaf, the root was popped. -/
theorem traverseFindFree_spec (h : LeavesOk ((bottom, leaf) :: rest)) (hle : bottom ≤ key)
    (hkey : key < nextKey rest) :
    Traversed ((bottom, leaf) :: rest) key (key + len)
      (traverseFindFree ((bottom, leaf) :: rest) key len) := by
  induction rest generalizing bottom leaf key len with
  | nil =>
      refine traverseFindFree_leaf h hle hkey fun _ => ⟨none, [], rfl, fun m hm hm' => ?_, ?_⟩
      · exact absurd hm' (Nat.not_lt.mpr (Nat.le_trans (Nat.min_le_left _ _) hm))
      · exact fun _ _ => rfl
  | cons next rest ih =>
      obtain ⟨bottom', leaf'⟩ := next
      refine traverseFindFree_leaf h hle hkey fun hmore => ?_
      have hnext : Traversed _ bottom' (bottom' + (key + len - bottom')) _ :=
        ih h.2 (Nat.le_refl _) h.2.1.key_lt
      show Traversed _ bottom' _ (traverseFindFree ((bottom', leaf') :: rest) key len)
      have hlt : key < bottom' := hkey
      rw [traverseFindFree_before hlt hmore]
      have htop : bottom' + (key + len - bottom') = key + len :=
        Nat.add_sub_cancel' (Nat.le_of_lt hmore)
      rw [htop] at hnext
      exact hnext

end

end Tux3
