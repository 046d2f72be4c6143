/-
  Btree/ChopRow.lean --- what `btree_chop` is for: a range of keys taken out of a row of leaves.

  The tree but for its index is a list of leaves under their keys.  `chopRow` goes over that
  list as `btree_chop` goes over the leaves; where the operations of the leaves do what they
  are there for (`LeafLaws`), it removes exactly the keys of the range (`chopRow_spec`).
-/
import Tux3.Btree.Chop

set_option autoImplicit false

namespace Tux3

open Outcome (bind_of_ok)

variable {L V : Type}

/-! ## The walk over a row -/

/-- The first key of a row, or the limit of all keys. -/
def rowKey (row : List (Nat × L)) : Nat := (row.head?.map Prod.fst).getD tuxkeyLimit

/-- A leaf after `leaf_chop`, and the extents that were freed. -/
def leafAfterChop (ops : LeafOps L) (start len : Nat) (leaf : L) :
    Except TuxError (L × List BlockSegment) := do
  match ← ops.leafChop start len leaf with
  | none => return (leaf, [])
  | some chopped => return chopped

/-- The leaf before and the one at hand: as they are, or merged. -/
def joinLeaf (ops : LeafOps L) :
    Option (Nat × L) → Nat × L → Except TuxError (List (Nat × L) × (Nat × L))
  | none, cur => .ok ([], cur)
  | some prev, cur => do
      match ← ops.leafMerge prev.2 cur.2 with
      | none => return ([prev], cur)
      | some leaf => return ([], (prev.1, leaf))

/-- A range chopped from a row of leaves, up to the first leaf that starts at `limit` or after
it; `prev` is the leaf before.  The second part is the extents that were freed. -/
def chopRow (ops : LeafOps L) (limit : Nat) :
    List (Nat × L) → Option (Nat × L) → Nat → Nat →
      Except TuxError (List (Nat × L) × List BlockSegment)
  | [], prev, _, _ => .ok (prev.toList, [])
  | (key, leaf) :: rest, prev, start, len => do
      let len := if start < key ∧ limit < tuxkeyLimit then len - (key - start) else len
      let start := if start < key then key else start
      let (leaf, segs) ← leafAfterChop ops start len leaf
      let (out, cur) ← joinLeaf ops prev (key, leaf)
      if limit ≤ rowKey rest then return (out ++ cur :: rest, segs)
      else
        let (row, segs') ← chopRow ops limit rest (some cur) start len
        return (out ++ row, segs ++ segs')

/-! ## Leaves that are as they should be -/

/-- The operations of a type of leaf, on leaves that are `Valid` for an interval of keys: a
lookup finds keys of the interval, `leaf_chop` removes those of the range, and a merge, where it
is made, has the keys of both leaves.  A range may have a length of `Lens`; `Cut` is what is
known of a leaf that was chopped from its first key on, as every leaf was that is merged. -/
structure LeafLaws (ops : LeafOps L) (lookup : L → Nat → Option V) (Valid : Nat → Nat → L → Prop)
    (Cut : L → Prop) (Lens : Nat → Prop) : Prop where
  bounds : ∀ {lo hi key : Nat} {leaf : L}, Valid lo hi leaf → lookup leaf key ≠ none →
    lo ≤ key ∧ key < hi
  lens : ∀ {len n : Nat}, Lens len → len < tuxkeyLimit → n ≤ len → Lens n
  chop : ∀ {lo hi start len : Nat} {leaf : L}, Valid lo hi leaf → Lens len → lo ≤ start →
    start < hi → ∃ leaf' segs, leafAfterChop ops start len leaf = .ok (leaf', segs) ∧
      Valid lo hi leaf' ∧ (start = lo → Cut leaf') ∧
      ∀ key, lookup leaf' key =
        if start ≤ key ∧ key < start + len then none else lookup leaf key
  merge : ∀ {lo mid hi : Nat} {into from_ : L}, Valid lo mid into → Valid mid hi from_ →
    Cut from_ → lo < mid → mid < hi → ∃ merged, ops.leafMerge into from_ = .ok merged ∧
      ∀ leaf ∈ merged, Valid lo hi leaf ∧
        ∀ key, lookup leaf key = (lookup into key).or (lookup from_ key)

/-- The leaves of a row are valid for the intervals between their keys. -/
def RowValid (Valid : Nat → Nat → L → Prop) : List (Nat × L) → Prop
  | [] => True
  | (key, leaf) :: rest => key < rowKey rest ∧ Valid key (rowKey rest) leaf ∧ RowValid Valid rest

/-- What the leaves of a row have under a key. -/
def rowLookup (lookup : L → Nat → Option V) (row : List (Nat × L)) (key : Nat) : Option V :=
  row.findSome? fun p => lookup p.2 key

section Row

variable {ops : LeafOps L} {lookup : L → Nat → Option V} {Valid : Nat → Nat → L → Prop}
  {Cut : L → Prop} {Lens : Nat → Prop} {row rest : List (Nat × L)} {prev : Option (Nat × L)}
  {key k start len limit : Nat} {leaf : L}

@[simp] theorem rowKey_nil : rowKey ([] : List (Nat × L)) = tuxkeyLimit := by
  unfold rowKey
  rw [List.head?_nil, Option.map_none, Option.getD_none]

@[simp] theorem rowKey_cons (p : Nat × L) (row : List (Nat × L)) : rowKey (p :: row) = p.1 := rfl

theorem rowKey_append (row rest : List (Nat × L)) :
    rowKey (row ++ rest) = if row = [] then rowKey rest else rowKey row := by
  cases row <;> simp

@[simp] theorem rowLookup_nil : rowLookup lookup [] k = none := rfl

theorem rowLookup_cons {p : Nat × L} :
    rowLookup lookup (p :: row) k = (lookup p.2 k).or (rowLookup lookup row k) := by
  rw [rowLookup, List.findSome?_cons]
  cases lookup p.2 k <;> rfl

theorem rowLookup_append :
    rowLookup lookup (row ++ rest) k = (rowLookup lookup row k).or (rowLookup lookup rest k) :=
  List.findSome?_append

@[simp] theorem rowLookup_single {p : Nat × L} : rowLookup lookup [p] k = lookup p.2 k := by
  rw [rowLookup_cons, rowLookup_nil, Option.or_none]

theorem RowValid.tail {p : Nat × L} (h : RowValid Valid (p :: row)) : RowValid Valid row := h.2.2

theorem RowValid.right (h : RowValid Valid (row ++ rest)) : RowValid Valid rest := by
  induction row with
  | nil => exact h
  | cons p row ih => exact ih h.tail

/-- The keys of a row increase. -/
theorem RowValid.rowKey_append_le (h : RowValid Valid (row ++ rest)) :
    rowKey (row ++ rest) ≤ rowKey rest := by
  induction row with
  | nil => exact Nat.le_refl _
  | cons p row ih =>
      obtain ⟨hlt, -, htail⟩ := h
      exact Nat.le_trans (Nat.le_of_lt hlt) (ih htail)

theorem RowValid.rowKey_le (h : RowValid Valid row) : rowKey row ≤ tuxkeyLimit := by
  have happend : RowValid Valid (row ++ []) := by rwa [List.append_nil]
  have hle := happend.rowKey_append_le
  rwa [List.append_nil, rowKey_nil] at hle

/-- The keys in the leaves in front are before the first key behind. -/
theorem RowValid.front_lt (laws : LeafLaws ops lookup Valid Cut Lens)
    (h : RowValid Valid (row ++ rest)) (hhas : rowLookup lookup row k ≠ none) :
    k < rowKey rest := by
  induction row with
  | nil => exact absurd rfl hhas
  | cons p row ih =>
      obtain ⟨-, hvalid, htail⟩ := h
      rw [rowLookup_cons, Ne, Option.or_eq_none_iff, not_and_or] at hhas
      rcases hhas with hleaf | hrest
      · exact Nat.lt_of_lt_of_le (laws.bounds hvalid hleaf).2 htail.rowKey_append_le
      · exact ih htail hrest

theorem RowValid.lt_limit (laws : LeafLaws ops lookup Valid Cut Lens) (h : RowValid Valid row)
    (hhas : rowLookup lookup row k ≠ none) : k < tuxkeyLimit := by
  have happend : RowValid Valid (row ++ []) := by rwa [List.append_nil]
  have hlt := happend.front_lt laws hhas
  rwa [rowKey_nil] at hlt

/-- The keys in the leaves of a row are from its first key on. -/
theorem RowValid.rowKey_le_of_has (laws : LeafLaws ops lookup Valid Cut Lens)
    (h : RowValid Valid row) (hhas : rowLookup lookup row k ≠ none) : rowKey row ≤ k := by
  induction row with
  | nil => exact absurd rfl hhas
  | cons p row ih =>
      obtain ⟨hlt, hvalid, htail⟩ := h
      rw [rowLookup_cons, Ne, Option.or_eq_none_iff, not_and_or] at hhas
      rcases hhas with hleaf | hrest
      · exact (laws.bounds hvalid hleaf).1
      · exact Nat.le_trans (Nat.le_of_lt hlt) (ih htail hrest)

/-- A row has under a key what the leaf has that the keys of the row say. -/
theorem RowValid.lookup_eq (laws : LeafLaws ops lookup Valid Cut Lens)
    (h : RowValid Valid (row ++ (key, leaf) :: rest)) (hlo : key ≤ k)
    (hhi : rest ≠ [] → k < rowKey rest) :
    rowLookup lookup (row ++ (key, leaf) :: rest) k = lookup leaf k := by
  have hfront : rowLookup lookup row k = none :=
    Classical.not_not.mp fun hhas => Nat.not_lt_of_le hlo (h.front_lt laws hhas)
  have hbehind : rowLookup lookup rest k = none :=
    Classical.not_not.mp fun hhas => by
      have hne : rest ≠ [] := by
        rintro rfl
        exact hhas rfl
      exact Nat.not_le_of_lt (hhi hne) (h.right.tail.rowKey_le_of_has laws hhas)
  rw [rowLookup_append, rowLookup_cons, hfront, hbehind, Option.or_none, Option.none_or]

/-- Leaves in front of a row that begins at the same key. -/
theorem RowValid.replace {front rest' : List (Nat × L)} (h : RowValid Valid (front ++ rest))
    (hrest : RowValid Valid rest') (hkey : rowKey rest' = rowKey rest) :
    RowValid Valid (front ++ rest') := by
  induction front with
  | nil => exact hrest
  | cons p front ih =>
      obtain ⟨hlt, hvalid, htail⟩ := h
      have hsame : rowKey (front ++ rest') = rowKey (front ++ rest) := by
        rw [rowKey_append, rowKey_append, hkey]
      exact ⟨hsame ▸ hlt, hsame ▸ hvalid, ih htail⟩

/-- The leaf before and the one at hand have the same keys after the merge, if one was made. -/
theorem joinLeaf_spec (laws : LeafLaws ops lookup Valid Cut Lens)
    (h : RowValid Valid (prev.toList ++ (key, leaf) :: rest)) (hcut : prev ≠ none → Cut leaf) :
    ∃ out cur, joinLeaf ops prev (key, leaf) = .ok (out, cur) ∧ RowValid Valid (out ++ cur :: rest) ∧
      rowKey (out ++ cur :: rest) = rowKey (prev.toList ++ (key, leaf) :: rest) ∧
      ∀ k, rowLookup lookup (out ++ [cur]) k =
        (rowLookup lookup prev.toList k).or (lookup leaf k) := by
  have hapart : ∀ k, rowLookup lookup (prev.toList ++ [(key, leaf)]) k =
      (rowLookup lookup prev.toList k).or (lookup leaf k) := fun k => by
    rw [rowLookup_append, rowLookup_single]
  cases prev with
  | none => exact ⟨[], (key, leaf), rfl, h, rfl, hapart⟩
  | some p =>
      obtain ⟨pkey, pleaf⟩ := p
      have hchain := h
      obtain ⟨hlt, hprev, hlt', hleaf, hrest⟩ := hchain
      obtain ⟨merged, hmerge, hmerged⟩ := laws.merge hprev hleaf (hcut (Option.some_ne_none _)) hlt
        hlt'
      cases merged with
      | none =>
          refine ⟨[(pkey, pleaf)], (key, leaf), ?_, h, rfl, hapart⟩
          unfold joinLeaf
          dsimp only
          rw [bind_of_ok hmerge]
          rfl
      | some merged =>
          obtain ⟨hvalid, hlookup⟩ := hmerged merged rfl
          refine ⟨[], (pkey, merged), ?_, ⟨Nat.lt_trans hlt hlt', hvalid, hrest⟩, rfl, fun k => ?_⟩
          · unfold joinLeaf
            dsimp only
            rw [bind_of_ok hmerge]
            rfl
          · rw [List.nil_append, rowLookup_single, Option.toList_some, rowLookup_single]
            exact hlookup k

/-- What a range from `start` on, which ends at `limit`, takes out of a row. -/
structure RowChopped (lookup : L → Nat → Option V) (Valid : Nat → Nat → L → Prop)
    (prev : Option (Nat × L)) (row : List (Nat × L)) (start limit : Nat) (row' : List (Nat × L)) :
    Prop where
  valid : RowValid Valid row'
  first : rowKey row' = rowKey (prev.toList ++ row)
  lookup : ∀ k, rowLookup lookup row' k = (rowLookup lookup prev.toList k).or
    (if start ≤ k ∧ k < limit then none else rowLookup lookup row k)

/-- The start of the range in a leaf. -/
def clipStart (start key : Nat) : Nat := if start < key then key else start

/-- The length of the range in a leaf. -/
def clipLen (limit start len key : Nat) : Nat :=
  if start < key ∧ limit < tuxkeyLimit then len - (key - start) else len

/-- Where a range ends that `btree_chop` has a limit for. -/
def RangeEnds (limit start len : Nat) : Prop :=
  if limit < tuxkeyLimit then start + len = limit else tuxkeyLimit ≤ start + len

/-- The range of a leaf ends where the whole range does. -/
theorem RangeEnds.clip (h : RangeEnds limit start len) (hkey : start < key → key < limit) :
    RangeEnds limit (clipStart start key) (clipLen limit start len key) := by
  unfold RangeEnds clipStart clipLen at *
  by_cases hlimit : limit < tuxkeyLimit
  · rw [if_pos hlimit] at h ⊢
    by_cases hlt : start < key
    · have := hkey hlt
      rw [if_pos hlt, if_pos ⟨hlt, hlimit⟩]
      omega
    · rw [if_neg hlt, if_neg fun h => hlt h.1]
      exact h
  · rw [if_neg hlimit] at h ⊢
    rw [if_neg (fun h : start < key ∧ limit < tuxkeyLimit => hlimit h.2)]
    split <;> omega

theorem RangeEnds.mem_iff (h : RangeEnds limit start len) (hk : k < tuxkeyLimit) :
    (start ≤ k ∧ k < start + len) ↔ (start ≤ k ∧ k < limit) := by
  unfold RangeEnds at h
  split at h <;> omega

theorem clipLen_lens (laws : LeafLaws ops lookup Valid Cut Lens) (hlens : Lens len)
    (h : RangeEnds limit start len) : Lens (clipLen limit start len key) := by
  unfold clipLen
  split
  · rename_i hclip
    rw [RangeEnds, if_pos hclip.2] at h
    exact laws.lens hlens (by omega) (Nat.sub_le _ _)
  · exact hlens

theorem chopRow_cons {out : List (Nat × L)} {cur : Nat × L} {leaf' : L} {segs : List BlockSegment}
    (hchop : leafAfterChop ops (clipStart start key) (clipLen limit start len key) leaf =
      .ok (leaf', segs))
    (hjoin : joinLeaf ops prev (key, leaf') = .ok (out, cur)) :
    chopRow ops limit ((key, leaf) :: rest) prev start len =
      if limit ≤ rowKey rest then .ok (out ++ cur :: rest, segs)
      else (chopRow ops limit rest (some cur) (clipStart start key)
        (clipLen limit start len key)).bind fun r => .ok (out ++ r.1, segs ++ r.2) := by
  have hchop' : leafAfterChop ops (if start < key then key else start)
      (if start < key ∧ limit < tuxkeyLimit then len - (key - start) else len) leaf =
        .ok (leaf', segs) := hchop
  rw [chopRow]
  dsimp only
  rw [bind_of_ok hchop']
  dsimp only
  rw [bind_of_ok hjoin]
  rfl

/-- One leaf of the walk. -/
theorem chopRow_step (laws : LeafLaws ops lookup Valid Cut Lens)
    (h : RowValid Valid (prev.toList ++ (key, leaf) :: rest)) (hlens : Lens len)
    (hstart : start < rowKey rest) (hprev : prev ≠ none → start ≤ key)
    (hkey : start < key → key < limit) (hend : RangeEnds limit start len) :
    ∃ leaf' segs out cur,
      leafAfterChop ops (clipStart start key) (clipLen limit start len key) leaf =
        .ok (leaf', segs) ∧
      joinLeaf ops prev (key, leaf') = .ok (out, cur) ∧ RowValid Valid (out ++ cur :: rest) ∧
      rowKey (out ++ cur :: rest) = rowKey (prev.toList ++ (key, leaf) :: rest) ∧
      ∀ k, rowLookup lookup (out ++ [cur]) k = (rowLookup lookup prev.toList k).or
        (if start ≤ k ∧ k < limit then none else lookup leaf k) := by
  obtain ⟨hlt, hvalid, hrest⟩ := h.right
  have hclip : key ≤ clipStart start key ∧ clipStart start key < rowKey rest := by
    unfold clipStart
    split <;> omega
  obtain ⟨leaf', segs, hchop, hvalid', hcut, hlookup⟩ := laws.chop hvalid
    (clipLen_lens laws hlens hend) hclip.1 hclip.2
  have hnew : RowValid Valid (prev.toList ++ (key, leaf') :: rest) :=
    h.replace ⟨hlt, hvalid', hrest⟩ rfl
  have hcut' : prev ≠ none → Cut leaf' := fun hne => hcut <| by
    have := hprev hne
    unfold clipStart
    split <;> omega
  obtain ⟨out, cur, hjoin, hout, hfirst, hjoined⟩ := joinLeaf_spec laws hnew hcut'
  have hsame : rowKey (prev.toList ++ (key, leaf') :: rest) =
      rowKey (prev.toList ++ (key, leaf) :: rest) := by
    rw [rowKey_append, rowKey_append]
    rfl
  refine ⟨leaf', segs, out, cur, hchop, hjoin, hout, hfirst.trans hsame, fun k => ?_⟩
  rw [hjoined, hlookup]
  refine congrArg (Option.or _) ?_
  -- the key is not in the leaf, or in both ranges, or in none
  by_cases hnone : lookup leaf k = none
  · simp [hnone]
  · obtain ⟨hlo, hhi⟩ := laws.bounds hvalid hnone
    have hrange := (hend.clip hkey).mem_iff (Nat.lt_of_lt_of_le hhi hrest.rowKey_le)
    have hsame : clipStart start key ≤ k ∧ k < limit ↔ start ≤ k ∧ k < limit := by
      unfold clipStart
      split <;> omega
    simp only [hrange, hsame]

/-- The walk stops where no leaf behind has keys of the range. -/
theorem RowChopped.of_done {out : List (Nat × L)} {cur : Nat × L}
    (hvalid : RowValid Valid (out ++ cur :: rest))
    (hfirst : rowKey (out ++ cur :: rest) = rowKey (prev.toList ++ (key, leaf) :: rest))
    (hjoined : ∀ k, rowLookup lookup (out ++ [cur]) k = (rowLookup lookup prev.toList k).or
      (if start ≤ k ∧ k < limit then none else lookup leaf k))
    (hrest : ∀ k, rowLookup lookup rest k ≠ none → ¬(start ≤ k ∧ k < limit)) :
    RowChopped lookup Valid prev ((key, leaf) :: rest) start limit (out ++ cur :: rest) := by
  refine ⟨hvalid, hfirst, fun k => ?_⟩
  rw [List.append_cons, rowLookup_append, hjoined, rowLookup_cons, Option.or_assoc]
  by_cases hin : start ≤ k ∧ k < limit
  · have hnone : rowLookup lookup rest k = none := Classical.not_not.mp fun hhas => hrest k hhas hin
    rw [if_pos hin, if_pos hin, hnone, Option.or_none]
  · rw [if_neg hin, if_neg hin]

/-- The walk over a row removes exactly the keys of the range. -/
theorem chopRow_spec (laws : LeafLaws ops lookup Valid Cut Lens)
    (h : RowValid Valid (prev.toList ++ (key, leaf) :: rest)) (hlens : Lens len)
    (hstart : start < rowKey rest) (hprev : prev ≠ none → start ≤ key)
    (hkey : start < key → key < limit) (hend : RangeEnds limit start len) :
    ∃ row' segs, chopRow ops limit ((key, leaf) :: rest) prev start len = .ok (row', segs) ∧
      RowChopped lookup Valid prev ((key, leaf) :: rest) start limit row' := by
  induction rest generalizing prev key leaf start len with
  | nil =>
      obtain ⟨leaf', segs, out, cur, hchop, hjoin, hvalid, hfirst, hjoined⟩ :=
        chopRow_step laws h hlens hstart hprev hkey hend
      refine ⟨out ++ [cur], segs, ?_, .of_done hvalid hfirst hjoined fun k hk => ?_⟩
      · rw [chopRow_cons hchop hjoin]
        split
        · rfl
        · show Except.ok (out ++ [cur], segs ++ []) = _
          rw [List.append_nil]
      · exact absurd rfl hk
  | cons p rest ih =>
      obtain ⟨next, nextLeaf⟩ := p
      obtain ⟨leaf', segs, out, cur, hchop, hjoin, hvalid, hfirst, hjoined⟩ :=
        chopRow_step laws h hlens hstart hprev hkey hend
      rw [chopRow_cons hchop hjoin, rowKey_cons]
      obtain ⟨hltKey, -, hrest⟩ := h.right
      have hbehind : ∀ k, rowLookup lookup ((next, nextLeaf) :: rest) k ≠ none → next ≤ k :=
        fun k hk => hrest.rowKey_le_of_has laws hk
      rw [rowKey_cons] at hltKey hstart
      by_cases hdone : limit ≤ next
      · rw [if_pos hdone]
        refine ⟨_, _, rfl, .of_done hvalid hfirst hjoined fun k hk hrange => ?_⟩
        have := hbehind k hk
        omega
      · rw [if_neg hdone]
        have hclip : clipStart start key < next := by
          unfold clipStart
          split <;> omega
        have hnext : RowValid Valid ((some cur).toList ++ (next, nextLeaf) :: rest) := hvalid.right
        obtain ⟨row', segs', hrow, hchopped⟩ := ih hnext (clipLen_lens laws hlens hend)
          (Nat.lt_trans hclip hrest.1) (fun _ => Nat.le_of_lt hclip)
          (fun _ => Nat.lt_of_not_le hdone) (hend.clip hkey)
        rw [hrow]
        refine ⟨out ++ row', segs ++ segs', rfl, ?_, ?_, fun k => ?_⟩
        · exact hvalid.replace hchopped.valid hchopped.first
        · rw [← hfirst, rowKey_append, rowKey_append, hchopped.first]
          rfl
        · -- behind the leaf, both ranges have the same keys
          have hsplit : (if clipStart start key ≤ k ∧ k < limit then none
              else rowLookup lookup ((next, nextLeaf) :: rest) k) =
              if start ≤ k ∧ k < limit then none
              else rowLookup lookup ((next, nextLeaf) :: rest) k := by
            by_cases hnone : rowLookup lookup ((next, nextLeaf) :: rest) k = none
            · rw [hnone, ite_self, ite_self]
            · have hsame : clipStart start key ≤ k ∧ k < limit ↔ start ≤ k ∧ k < limit := by
                have := hbehind k hnone
                omega
              simp only [hsame]
          rw [rowLookup_append, hchopped.lookup, hsplit, ← Option.or_assoc, ← rowLookup_append]
          show (rowLookup lookup (out ++ [cur]) k).or _ = _
          rw [hjoined, Option.or_assoc]
          refine congrArg (Option.or _) ?_
          by_cases hin : start ≤ k ∧ k < limit
          · rw [if_pos hin, if_pos hin, if_pos hin, Option.or_none]
          · have hhead : rowLookup lookup ((key, leaf) :: (next, nextLeaf) :: rest) k =
                (lookup leaf k).or (rowLookup lookup ((next, nextLeaf) :: rest) k) := rowLookup_cons
            rw [if_neg hin, if_neg hin, if_neg hin, hhead]

/-- Behind leaves that end before the range, the row loses the keys from `start` on that are
less than `start + len`. -/
theorem RowChopped.lookup_front {front row row' : List (Nat × L)}
    (laws : LeafLaws ops lookup Valid Cut Lens) (hrow : RowValid Valid (front ++ row))
    (h : RowChopped lookup Valid none row start limit row') (hlo : rowKey row ≤ start)
    (hend : RangeEnds limit start len) :
    rowLookup lookup (front ++ row') k =
      if start ≤ k ∧ k < start + len then none else rowLookup lookup (front ++ row) k := by
  rw [rowLookup_append, rowLookup_append, h.lookup, Option.toList_none, rowLookup_nil,
    Option.none_or]
  by_cases hfront : rowLookup lookup front k = none
  · rw [hfront, Option.none_or, Option.none_or]
    by_cases hnone : rowLookup lookup row k = none
    · rw [hnone, ite_self, ite_self]
    · have hrange := hend.mem_iff (hrow.right.lt_limit laws hnone)
      simp only [hrange]
  · obtain ⟨v, hv⟩ := Option.ne_none_iff_exists'.mp hfront
    have hlt := Nat.lt_of_lt_of_le (hrow.front_lt laws hfront) hlo
    rw [if_neg fun hin : start ≤ k ∧ k < start + len => Nat.not_le_of_lt hlt hin.1, hv,
      Option.some_or, Option.some_or]

end Row

end Tux3
