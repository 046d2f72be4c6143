/-
  Btree/Uleaf.lean --- the leaf type that the btree is tested with.

  A leaf is an array of keys with a value each, in the order of the keys.  Its operations are
  what `btree_chop` takes them for (`uleafOps_laws`).
-/
import Tux3.Btree.ChopRow

set_option autoImplicit false

namespace Tux3

/-! ## Code -/

/-- `struct uentry`. -/
structure Uentry where
  key : Nat
  val : Nat
  deriving DecidableEq, Repr, Inhabited

/-- `struct uleaf`: its entries. -/
abbrev Uleaf : Type := List Uentry

/-- `uleaf_seek`. -/
def uleafSeek (key : Nat) (leaf : Uleaf) : Nat :=
  (leaf.takeWhile fun e => decide (e.key < key)).length

/-- `uleaf_chop`, which returns 1 always. -/
def uleafChop (start len : Nat) (leaf : Uleaf) : Uleaf :=
  let stop := if tuxkeyLimit ≤ len then tuxkeyLimit else (start + len) % 2 ^ 64
  leaf.take (uleafSeek start leaf) ++ leaf.drop (uleafSeek stop leaf)

/-- `uleaf_merge`: `into` afterwards, where the entries fit. -/
def uleafMerge (entriesPerLeaf : Nat) (into from_ : Uleaf) : Option Uleaf :=
  if into.length + from_.length > entriesPerLeaf then none else some (into ++ from_)

/-- `uleaf_lookup`. -/
def uleafLookup (leaf : Uleaf) (key : Nat) : Option Uentry := leaf.find? fun e => e.key = key

/-- `ops` of the tests, with what `btree_chop` calls. -/
def uleafOps (entriesPerLeaf : Nat) : LeafOps Uleaf where
  leafChop start len leaf := .ok (some (uleafChop start len leaf, []))
  leafMerge into from_ := .ok (uleafMerge entriesPerLeaf into from_)

/-! ## The laws -/

/-- The keys of a leaf increase, and are in an interval. -/
structure UleafOk (lo hi : Nat) (leaf : Uleaf) : Prop where
  sorted : leaf.Pairwise fun e e' => e.key < e'.key
  bounds : ∀ e ∈ leaf, lo ≤ e.key ∧ e.key < hi
  limit : hi ≤ tuxkeyLimit

section

variable {lo mid hi start len key entriesPerLeaf : Nat} {leaf into from_ : Uleaf} {e : Uentry}

/-- The entry of a key, if there is one. -/
theorem uleafLookup_eq_some (h : leaf.Pairwise fun e e' => e.key < e'.key) :
    uleafLookup leaf key = some e ↔ e ∈ leaf ∧ e.key = key := by
  induction leaf with
  | nil => simp [uleafLookup]
  | cons a leaf ih =>
      obtain ⟨ha, htail⟩ := List.pairwise_cons.mp h
      have hih := ih htail
      unfold uleafLookup at hih ⊢
      by_cases heq : a.key = key
      · rw [List.find?_cons_of_pos (by simp [heq]), Option.some.injEq, List.mem_cons]
        constructor
        · rintro rfl
          exact ⟨.inl rfl, heq⟩
        · rintro ⟨rfl | hmem, hkey⟩
          · rfl
          · have := ha e hmem
            omega
      · rw [List.find?_cons_of_neg (by simp [heq]), hih, List.mem_cons]
        constructor
        · exact fun hmem => ⟨.inr hmem.1, hmem.2⟩
        · rintro ⟨rfl | hmem, hkey⟩
          · exact absurd hkey heq
          · exact ⟨hmem, hkey⟩

theorem mem_take_uleafSeek (h : leaf.Pairwise fun e e' => e.key < e'.key) :
    e ∈ leaf.take (uleafSeek key leaf) ↔ e ∈ leaf ∧ e.key < key := by
  induction leaf with
  | nil => simp
  | cons a leaf ih =>
      obtain ⟨ha, htail⟩ := List.pairwise_cons.mp h
      by_cases hlt : a.key < key
      · simp only [uleafSeek, List.takeWhile_cons, hlt, decide_true, if_true, List.length_cons,
          List.take_succ_cons, List.mem_cons]
        have hih := ih htail
        rw [uleafSeek] at hih
        rw [hih]
        constructor
        · rintro (rfl | ⟨hmem, hkey⟩)
          · exact ⟨.inl rfl, hlt⟩
          · exact ⟨.inr hmem, hkey⟩
        · rintro ⟨rfl | hmem, hkey⟩
          · exact .inl rfl
          · exact .inr ⟨hmem, hkey⟩
      · have hseek : uleafSeek key (a :: leaf) = 0 := by simp [uleafSeek, hlt]
        rw [hseek]
        simp only [List.take_zero, List.not_mem_nil, false_iff, not_and, List.mem_cons]
        rintro (rfl | hmem)
        · exact hlt
        · have := ha e hmem
          omega

theorem mem_drop_uleafSeek (h : leaf.Pairwise fun e e' => e.key < e'.key) :
    e ∈ leaf.drop (uleafSeek key leaf) ↔ e ∈ leaf ∧ key ≤ e.key := by
  induction leaf with
  | nil => simp
  | cons a leaf ih =>
      obtain ⟨ha, htail⟩ := List.pairwise_cons.mp h
      by_cases hlt : a.key < key
      · simp only [uleafSeek, List.takeWhile_cons, hlt, decide_true, if_true, List.length_cons,
          List.drop_succ_cons, List.mem_cons]
        have hih := ih htail
        rw [uleafSeek] at hih
        rw [hih]
        constructor
        · exact fun hmem => ⟨.inr hmem.1, hmem.2⟩
        · rintro ⟨rfl | hmem, hkey⟩
          · omega
          · exact ⟨hmem, hkey⟩
      · have hseek : uleafSeek key (a :: leaf) = 0 := by simp [uleafSeek, hlt]
        rw [hseek]
        simp only [List.drop_zero, List.mem_cons]
        refine ⟨fun hmem => ⟨hmem, ?_⟩, fun hmem => hmem.1⟩
        rcases hmem with rfl | hmem
        · omega
        · have := ha e hmem
          omega

/-- `uleaf_chop` keeps the entries outside the range. -/
theorem mem_uleafChop (h : UleafOk lo hi leaf) :
    e ∈ uleafChop start len leaf ↔ e ∈ leaf ∧ ¬(start ≤ e.key ∧ e.key < start + len) := by
  unfold uleafChop
  rw [List.mem_append, mem_take_uleafSeek h.sorted, mem_drop_uleafSeek h.sorted, ← and_or_left]
  refine and_congr_right fun hmem => ?_
  have hlimit := h.limit
  have hkey := (h.bounds e hmem).2
  have hbits : tuxkeyLimit = 2 ^ 48 := rfl
  split <;> omega

theorem uleafChop_sorted (h : UleafOk lo hi leaf) (hstart : start < hi) :
    (uleafChop start len leaf).Pairwise fun e e' => e.key < e'.key := by
  unfold uleafChop
  refine List.pairwise_append.mpr ⟨h.sorted.sublist (List.take_sublist _ _),
    h.sorted.sublist (List.drop_sublist _ _), fun a ha b hb => ?_⟩
  have hbefore := ((mem_take_uleafSeek h.sorted).mp ha).2
  have hbehind := ((mem_drop_uleafSeek h.sorted).mp hb).2
  have hlimit := h.limit
  have hbits : tuxkeyLimit = 2 ^ 48 := rfl
  split at hbehind <;> omega

theorem uleafOps_laws (entriesPerLeaf : Nat) :
    LeafLaws (uleafOps entriesPerLeaf) uleafLookup UleafOk (fun _ => True) fun _ => True where
  bounds := by
    intro lo hi key leaf h hlookup
    obtain ⟨e, he⟩ := Option.ne_none_iff_exists'.mp hlookup
    obtain ⟨hmem, rfl⟩ := (uleafLookup_eq_some h.sorted).mp he
    exact h.bounds e hmem
  lens := fun _ _ _ => trivial
  chop := by
    intro lo hi start len leaf h _ hlo hhi
    have hsorted : (uleafChop start len leaf).Pairwise fun e e' => e.key < e'.key :=
      uleafChop_sorted h hhi
    refine ⟨uleafChop start len leaf, [], rfl, ⟨hsorted, fun e he => ?_, h.limit⟩,
      fun _ => trivial, fun key => ?_⟩
    · exact h.bounds e ((mem_uleafChop h).mp he).1
    · refine Option.ext fun e => ?_
      rw [uleafLookup_eq_some hsorted, mem_uleafChop h]
      split
      · rename_i hin
        refine iff_of_false ?_ (Option.some_ne_none e).symm
        rintro ⟨⟨-, hout⟩, rfl⟩
        exact hout hin
      · rename_i hout
        rw [uleafLookup_eq_some h.sorted]
        refine ⟨fun he => ⟨he.1.1, he.2⟩, ?_⟩
        rintro ⟨hmem, rfl⟩
        exact ⟨⟨hmem, hout⟩, rfl⟩
  merge := by
    intro lo mid hi into from_ hinto hfrom _ hlo hhi
    refine ⟨uleafMerge entriesPerLeaf into from_, rfl, fun leaf hmerge => ?_⟩
    rw [Option.mem_def, uleafMerge] at hmerge
    split at hmerge
    · cases hmerge
    · cases hmerge
      refine ⟨⟨List.pairwise_append.mpr ⟨hinto.sorted, hfrom.sorted, fun a ha b hb => ?_⟩,
        fun e he => ?_, hfrom.limit⟩, fun key => List.find?_append⟩
      · have := hinto.bounds a ha
        have := hfrom.bounds b hb
        omega
      · rcases List.mem_append.mp he with he | he
        · have := hinto.bounds e he
          omega
        · have := hfrom.bounds e he
          omega

end

end Tux3
