/-
  Shard/Normalize.lean --- `normalize`: the fifo of a shard without its deletes.

  The words of the fifo are sorted, so that the deletes of a pair stand before its inserts; a walk
  over them counts the deletes and cancels as many inserts.  Where every delete of a pair has an
  insert, the inserts that are left over remain, in order.
-/
import Tux3.Lib.CombSort
import Tux3.Shard.Table

set_option autoImplicit false

namespace Tux3

/-! ## Words -/

/-- `fentry_block`. -/
def fentryBlock (word : Nat) : Nat := word / 2 % 2 ^ 23

/-- `fentry_is_insert`. -/
def fentryIsInsert (word : Nat) : Prop := word % 2 = 1

instance (word : Nat) : Decidable (fentryIsInsert word) := inferInstanceAs (Decidable (_ = _))

/-- `fentry_key`. -/
def fentryKey (word : Nat) : Nat := word / 2 ^ 24 % 2 ^ 32

/-! ## Code -/

/-- The labels of `normalize`, with `last` and `balance` where they are in use; at `deletes` and at
`cancels` the entry that was counted is behind. -/
inductive NormalizeLabel where
  | creates
  | deletes (last balance : Nat)
  | cancels (last balance : Nat)

/-- `if (!--balance) goto cancelled`. -/
def cancelOne (last balance : Nat) : NormalizeLabel :=
  if balance - 1 = 0 then .creates else .cancels last (balance - 1)

/-- The walk over the sorted words: those that `head` has passed, and whether it ended in `done`. -/
def normalizeLoop : NormalizeLabel → List Nat → List Nat → List Nat × Bool
  | .creates, kept, [] => (kept, true)
  | .creates, kept, word :: words =>
      if fentryIsInsert word then normalizeLoop .creates (kept ++ [word]) words
      else normalizeLoop (.deletes (fentryBlock word) 1) kept words
  | .deletes _ _, kept, [] => (kept, false)
  | .deletes last balance, kept, word :: words =>
      if fentryBlock word ≠ last then (kept, false)
      else if fentryIsInsert word then normalizeLoop (cancelOne last balance) kept words
      else normalizeLoop (.deletes last (balance + 1)) kept words
  | .cancels _ _, kept, [] => (kept, false)
  | .cancels last balance, kept, word :: words =>
      if fentryBlock word ≠ last then (kept, false)
      else normalizeLoop (cancelOne last balance) kept words

/-- The passes that suffice for the sort. -/
def sortFuel (count : Nat) : Nat := count + count * count

/-- `normalize`, of at least one word: the words of the fifo afterwards, and the count of those that
are kept unless it failed. -/
def normalize (words : List Nat) : Except TuxError (List Nat × Option Nat) :=
  match CombSort.sort (sortFuel words.length) words.length words with
  | none => .error .fuel
  | some sorted =>
      let (kept, done) := normalizeLoop .creates [] sorted
      .ok (kept ++ sorted.drop kept.length, if done then some kept.length else none)

/-! ## The walk -/

section

variable {words kept rest : List Nat} {v n d i last balance : Nat}

theorem fentryIsInsert_insert (v : Nat) : fentryIsInsert (2 * v + 1) := by
  unfold fentryIsInsert
  omega

theorem not_fentryIsInsert_delete (v : Nat) : ¬ fentryIsInsert (2 * v) := by
  unfold fentryIsInsert
  omega

/-- A delete and an insert of a pair have the same block. -/
theorem fentryBlock_insert (v : Nat) : fentryBlock (2 * v + 1) = fentryBlock (2 * v) := by
  unfold fentryBlock
  congr 1
  omega

/-- Inserts are kept. -/
theorem normalizeLoop_keep (v n : Nat) (kept rest : List Nat) :
    normalizeLoop .creates kept (List.replicate n (2 * v + 1) ++ rest) =
      normalizeLoop .creates (kept ++ List.replicate n (2 * v + 1)) rest := by
  induction n generalizing kept with
  | zero => rw [List.replicate_zero, List.nil_append, List.append_nil]
  | succ n ih =>
      rw [List.replicate_succ, List.cons_append, normalizeLoop, if_pos (fentryIsInsert_insert v), ih,
        List.append_assoc]
      rfl

/-- Deletes of one pair are counted. -/
theorem normalizeLoop_count (v n balance : Nat) (kept rest : List Nat) :
    normalizeLoop (.deletes (fentryBlock (2 * v)) balance) kept (List.replicate n (2 * v) ++ rest) =
      normalizeLoop (.deletes (fentryBlock (2 * v)) (balance + n)) kept rest := by
  induction n generalizing balance with
  | zero => rfl
  | succ n ih =>
      rw [List.replicate_succ, List.cons_append, normalizeLoop, if_neg (not_not_intro rfl),
        if_neg (not_fentryIsInsert_delete v), ih]
      congr 2
      omega

/-- The inserts that are to be cancelled are passed over. -/
theorem normalizeLoop_cancel (v n : Nat) (kept rest : List Nat) :
    normalizeLoop (.cancels (fentryBlock (2 * v)) (n + 1)) kept
        (List.replicate (n + 1) (2 * v + 1) ++ rest) =
      normalizeLoop .creates kept rest := by
  induction n with
  | zero =>
      rw [List.replicate_succ, List.cons_append, normalizeLoop,
        if_neg (not_not_intro (fentryBlock_insert v))]
      rfl
  | succ n ih =>
      rw [List.replicate_succ, List.cons_append, normalizeLoop,
        if_neg (not_not_intro (fentryBlock_insert v)), cancelOne, if_neg (by omega)]
      exact ih

/-- The words of one pair, with no more deletes than inserts: the rest of the inserts is kept. -/
theorem normalizeLoop_pair (v : Nat) (hle : d ≤ i) (kept rest : List Nat) :
    normalizeLoop .creates kept
        (List.replicate d (2 * v) ++ (List.replicate i (2 * v + 1) ++ rest)) =
      normalizeLoop .creates (kept ++ List.replicate (i - d) (2 * v + 1)) rest := by
  cases d with
  | zero => exact normalizeLoop_keep v i kept rest
  | succ d =>
      have hsplit : List.replicate i (2 * v + 1) =
          (2 * v + 1) :: (List.replicate d (2 * v + 1) ++ List.replicate (i - (d + 1)) (2 * v + 1)) := by
        rw [← List.replicate_add, ← List.replicate_succ]
        congr 1
        omega
      rw [List.replicate_succ, List.cons_append, normalizeLoop,
        if_neg (not_fentryIsInsert_delete v), normalizeLoop_count, hsplit, List.cons_append,
        normalizeLoop, if_neg (not_not_intro (fentryBlock_insert v)),
        if_pos (fentryIsInsert_insert v), List.append_assoc, ← normalizeLoop_keep]
      unfold cancelOne
      cases d with
      | zero => rfl
      | succ d =>
          rw [if_neg (by omega), show 1 + (d + 1) - 1 = d + 1 by omega]
          exact normalizeLoop_cancel v d kept _

/-! ## Sorted words -/

/-- Every delete of a pair has an insert. -/
def Cancelled (words : List Nat) : Prop := ∀ v, words.count (2 * v) ≤ words.count (2 * v + 1)

/-- The words of later pairs. -/
def later (v : Nat) (words : List Nat) : List Nat := words.filter fun w => 2 * v + 1 < w

theorem count_later {a : Nat} (h : 2 * v + 1 < a) : (later v words).count a = words.count a :=
  List.count_filter (p := fun w => decide (2 * v + 1 < w)) (decide_eq_true h)

theorem count_later_zero {a : Nat} (h : a ≤ 2 * v + 1) : (later v words).count a = 0 :=
  List.count_eq_zero.mpr fun hmem =>
    absurd (of_decide_eq_true (List.mem_filter.mp hmem).2) (Nat.not_lt.mpr h)

theorem Cancelled.later (h : Cancelled words) (v : Nat) : Cancelled (later v words) := by
  intro v'
  by_cases hlater : v < v'
  · rw [count_later (by omega), count_later (by omega)]
    exact h v'
  · rw [count_later_zero (by omega)]
    exact Nat.zero_le _

/-- Sorted words from one pair on: its deletes, its inserts, and the words of later pairs. -/
theorem sorted_first (hsorted : words.Pairwise (· ≤ ·)) (hfirst : ∀ w ∈ words, 2 * v ≤ w) :
    words = List.replicate (words.count (2 * v)) (2 * v) ++
      (List.replicate (words.count (2 * v + 1)) (2 * v + 1) ++ later v words) := by
  refine List.Perm.eq_of_pairwise (fun a b _ _ hab hba => Nat.le_antisymm hab hba) hsorted ?_ ?_
  · refine List.pairwise_append.mpr ⟨List.pairwise_replicate.mpr (.inr (Nat.le_refl _)),
      List.pairwise_append.mpr ⟨List.pairwise_replicate.mpr (.inr (Nat.le_refl _)),
        hsorted.filter _, fun a ha b hb => ?_⟩, fun a ha b hb => ?_⟩
    · rw [List.eq_of_mem_replicate ha]
      exact Nat.le_of_lt (of_decide_eq_true (List.mem_filter.mp hb).2)
    · rw [List.eq_of_mem_replicate ha]
      rcases List.mem_append.mp hb with hb | hb
      · rw [List.eq_of_mem_replicate hb]
        exact Nat.le_succ _
      · exact hfirst b (List.mem_filter.mp hb).1
  · refine List.perm_iff_count.mpr fun a => ?_
    rw [List.count_append, List.count_append, List.count_replicate, List.count_replicate]
    by_cases hlater : 2 * v + 1 < a
    · rw [count_later hlater, if_neg (by simp; omega), if_neg (by simp; omega), Nat.zero_add, Nat.zero_add]
    · rw [count_later_zero (Nat.le_of_not_lt hlater)]
      by_cases hdelete : 2 * v = a
      · rw [if_pos (by simp [hdelete]), if_neg (by simp; omega), hdelete]
        rfl
      · by_cases hinsert : 2 * v + 1 = a
        · rw [if_neg (by simp; omega), if_pos (by simp [hinsert]), hinsert, Nat.zero_add]
          rfl
        · have habsent : words.count a = 0 :=
            List.count_eq_zero.mpr fun hmem => absurd (hfirst a hmem) (by omega)
          rw [if_neg (by simp; omega), if_neg (by simp; omega), habsent]

/-- The walk over sorted words keeps, in order, the inserts that no delete cancels. -/
theorem normalizeLoop_sorted (hsorted : words.Pairwise (· ≤ ·)) (hcancelled : Cancelled words)
    (kept : List Nat) :
    ∃ kept', normalizeLoop .creates kept words = (kept ++ kept', true) ∧
      kept'.Sublist words ∧ ∀ v, kept'.count (2 * v) = 0 ∧
        kept'.count (2 * v + 1) + words.count (2 * v) = words.count (2 * v + 1) := by
  generalize hn : words.length = n
  induction n using Nat.strong_induction_on generalizing words kept with
  | h n ih =>
    cases hwords : words with
    | nil =>
        exact ⟨[], by rw [normalizeLoop, List.append_nil], List.Sublist.refl _, fun v => ⟨rfl, rfl⟩⟩
    | cons word tail =>
        rw [← hwords]
        let v := word / 2
        have hfirst : ∀ w ∈ words, 2 * v ≤ w := by
          intro w hw
          have hle : word ≤ w := by
            rw [hwords] at hw hsorted
            rcases List.mem_cons.mp hw with rfl | hw
            · exact Nat.le_refl _
            · exact (List.pairwise_cons.mp hsorted).1 w hw
          omega
        have hsplit := sorted_first hsorted hfirst
        have hcount := hcancelled v
        have hshort : (later v words).length < n := by
          rw [← hn]
          refine List.length_filter_lt_length_iff_exists.mpr ⟨word, ?_, ?_⟩
          · rw [hwords]
            exact List.mem_cons_self
          · have hnot : ¬ 2 * v + 1 < word := by omega
            simpa using hnot
        obtain ⟨kept'', hloop, hsub, hcounts⟩ := ih _ hshort
          (show (later v words).Pairwise (· ≤ ·) from hsorted.filter _) (hcancelled.later v)
          (kept ++ List.replicate (words.count (2 * v + 1) - words.count (2 * v)) (2 * v + 1)) rfl
        refine ⟨List.replicate (words.count (2 * v + 1) - words.count (2 * v)) (2 * v + 1) ++ kept'',
          ?_, ?_, fun v' => ?_⟩
        · rw [hsplit, normalizeLoop_pair v hcount, ← hsplit, ← List.append_assoc]
          exact hloop
        · have hparts := ((List.replicate_sublist_replicate (2 * v + 1)).mpr
            (Nat.sub_le (words.count (2 * v + 1)) (words.count (2 * v)))).append hsub
          have hwhole := hparts.trans (List.sublist_append_right
            (List.replicate (words.count (2 * v)) (2 * v)) _)
          rwa [← hsplit] at hwhole
        · obtain ⟨hnone, hsum⟩ := hcounts v'
          rw [List.count_append, List.count_append, List.count_replicate, List.count_replicate,
            hnone, if_neg (by simp; omega)]
          refine ⟨rfl, ?_⟩
          rcases Nat.lt_trichotomy v' v with hlt | rfl | hgt
          · have habsent : ∀ a, a < 2 * v → words.count a = 0 := fun a ha =>
              List.count_eq_zero.mpr fun hmem => absurd (hfirst a hmem) (Nat.not_le.mpr ha)
            rw [count_later_zero (by omega), count_later_zero (by omega)] at hsum
            rw [if_neg (by simp; omega), habsent _ (by omega), habsent _ (by omega)]
            omega
          · rw [count_later_zero (by omega), count_later_zero (by omega)] at hsum
            rw [if_pos (by simp)]
            omega
          · rw [count_later (by omega), count_later (by omega)] at hsum
            rw [if_neg (by simp; omega), Nat.zero_add]
            exact hsum

/-! ## The fifo -/

/-- `normalize` of words with an insert for every delete: what is kept are the inserts that no delete
cancels, in order. -/
theorem normalize_spec (hpos : 0 < words.length) (hlt : words.length < 2 ^ 28)
    (hcancelled : Cancelled words) :
    ∃ kept rest, normalize words = .ok (kept ++ rest, some kept.length) ∧
      kept.length ≤ words.length ∧ kept.Pairwise (· ≤ ·) ∧ ∀ v, kept.count (2 * v) = 0 ∧
        kept.count (2 * v + 1) + words.count (2 * v) = words.count (2 * v + 1) := by
  obtain ⟨sorted, hsort, hperm, hsorted⟩ := CombSort.sort_spec hpos hlt
    (Nat.le_refl (words.length + words.length * words.length))
  have hcounts : Cancelled sorted := fun v => by
    rw [hperm.count_eq, hperm.count_eq]
    exact hcancelled v
  obtain ⟨kept, hloop, hsub, hkept⟩ := normalizeLoop_sorted hsorted hcounts []
  rw [List.nil_append] at hloop
  refine ⟨kept, sorted.drop kept.length, ?_, hperm.length_eq ▸ hsub.length_le,
    hsorted.sublist hsub, fun v => ?_⟩
  · unfold normalize sortFuel
    rw [hsort]
    dsimp only
    rw [hloop]
    rfl
  · have hcount := hkept v
    rwa [hperm.count_eq, hperm.count_eq] at hcount

end

end Tux3
