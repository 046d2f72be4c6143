/-
  Btree/Node.lean --- index nodes: `struct bnode` and the operations on one node.

  A node is its entries; `bcount` is the length of the list.
-/
import Tux3.Volume
import Tux3.Lib.IndexForest

set_option autoImplicit false

namespace Tux3

/-- `TUXKEY_LIMIT`: keys have 48 bits. -/
def tuxkeyLimit : Nat := 2 ^ 48

/-- `struct index_entry`. -/
abbrev IndexEntry : Type := IndexForest.Entry Nat Nat

/-- `struct bnode`. -/
abbrev Bnode : Type := List IndexEntry

/-! ## Operations -/

/-- The walk of `bnode_lookup`: past the entries after the first one, up to the first
key above `key`. -/
def lookupIndex (node : Bnode) (key : Nat) : Nat :=
  (node.tail.takeWhile fun e => decide (e.key ≤ key)).length

/-- `bnode_lookup`. -/
def bnodeLookup (node : Bnode) (key : Nat) : Except TuxError Nat := do
  tuxAssert (0 < node.length)
  return lookupIndex node key

/-- `bnode_init_root`, on a node of zeros. -/
def bnodeInitRoot (count left right rkey : Nat) : Bnode :=
  [⟨0, left⟩, ⟨rkey, right⟩].take count

/-- `bnode_add_index`. -/
def bnodeAddIndex (node : Bnode) (p child childkey : Nat) : Bnode :=
  node.take p ++ ⟨childkey, child⟩ :: node.drop p

/-- `bnode_split`: what stays in `src`, and `dst`. -/
def bnodeSplit (src : Bnode) (pos : Nat) : Bnode × Bnode :=
  (src.take pos, src.drop pos)

/-- `bnode_remove_index`. -/
def bnodeRemoveIndex (node : Bnode) (p count : Nat) : Except TuxError Bnode :=
  if p + count ≤ node.length then .ok (node.take p ++ node.drop (p + count))
  else .error .bounds

/-- `bnode_merge_nodes`: `into` afterwards, where the entries fit. -/
def bnodeMergeNodes (entriesPerNode : Nat) (into src : Bnode) : Option Bnode :=
  if src.length + into.length > entriesPerNode then none else some (into ++ src)

/-- `entry->block = block`. -/
def bnodeSetBlock (node : Bnode) (p : Nat) (entry : IndexEntry) (block : Nat) : Bnode :=
  node.set p { entry with block := block }

/-- `entry->key = key`. -/
def bnodeSetKey (node : Bnode) (p : Nat) (entry : IndexEntry) (key : Nat) : Bnode :=
  node.set p { entry with key := key }

/-! ## Positions -/

theorem mem_append_cons_of_mem {α : Type} {A C : List α} {e x : α} (h : x ∈ A ++ C) :
    x ∈ A ++ e :: C := by
  rcases List.mem_append.mp h with h | h
  · exact List.mem_append_left _ h
  · exact List.mem_append_right _ (List.mem_cons_of_mem e h)

theorem set_append_cons {α : Type} (A : List α) (e x : α) (C : List α) :
    (A ++ e :: C).set A.length x = A ++ x :: C := by
  simp

@[simp] theorem bnodeSetBlock_append (A : Bnode) (e : IndexEntry) (C : Bnode) (block : Nat) :
    bnodeSetBlock (A ++ e :: C) A.length e block = A ++ { e with block := block } :: C :=
  set_append_cons A e _ C

@[simp] theorem bnodeSetKey_append (A : Bnode) (e : IndexEntry) (C : Bnode) (key : Nat) :
    bnodeSetKey (A ++ e :: C) A.length e key = A ++ { e with key := key } :: C :=
  set_append_cons A e _ C

theorem bnodeAddIndex_append (A C : Bnode) (child childkey : Nat) :
    bnodeAddIndex (A ++ C) A.length child childkey = A ++ ⟨childkey, child⟩ :: C := by
  simp [bnodeAddIndex]

theorem bnodeRemoveIndex_append (A run C : Bnode) :
    bnodeRemoveIndex (A ++ (run ++ C)) A.length run.length = .ok (A ++ C) := by
  have hdrop : (A ++ (run ++ C)).drop (A.length + run.length) = C := by
    rw [List.drop_append]
    simp
  rw [bnodeRemoveIndex, if_pos (by simp), hdrop]
  simp

/-- The lookup finds the last entry whose key is not above `key`. -/
theorem lookupIndex_append {A : Bnode} {e : IndexEntry} {C : Bnode} {key : Nat}
    (hle : ∀ a ∈ A ++ [e], a.key ≤ key) (hlt : ∀ c ∈ C.head?, key < c.key) :
    lookupIndex (A ++ e :: C) key = A.length := by
  have hC : C.takeWhile (fun c => decide (c.key ≤ key)) = [] := by
    cases C with
    | nil => rfl
    | cons c C =>
        have hc := hlt c rfl
        rw [List.takeWhile_cons_of_neg]
        simpa using hc
  cases A with
  | nil => simp [lookupIndex, hC]
  | cons a A =>
      have hall : ∀ x ∈ A ++ [e], decide (x.key ≤ key) = true := fun x hx =>
        decide_eq_true (hle x (List.mem_cons_of_mem a hx))
      have hsplit : A ++ e :: C = (A ++ [e]) ++ C := by simp
      rw [lookupIndex, List.cons_append, List.tail_cons, hsplit,
        List.takeWhile_append_of_pos hall, hC]
      simp

theorem bnodeLookup_append {A : Bnode} {e : IndexEntry} {C : Bnode} {key : Nat}
    (hle : ∀ a ∈ A ++ [e], a.key ≤ key) (hlt : ∀ c ∈ C.head?, key < c.key) :
    bnodeLookup (A ++ e :: C) key = .ok A.length := by
  have hpos : 0 < (A ++ e :: C).length := by simp
  rw [bnodeLookup, tuxAssert_of hpos, ← lookupIndex_append hle hlt]
  rfl

/-- The lookup of a key that is not below the first one splits the node there. -/
theorem lookupIndex_split {a : IndexEntry} {as : Bnode} {key : Nat} (hle : a.key ≤ key) :
    ∃ A e C, a :: as = A ++ e :: C ∧ lookupIndex (a :: as) key = A.length ∧ e.key ≤ key ∧
      ∀ c ∈ C.head?, key < c.key := by
  unfold lookupIndex
  rw [List.tail_cons]
  induction as generalizing a with
  | nil => exact ⟨[], a, [], rfl, rfl, hle, by simp⟩
  | cons b bs ih =>
      by_cases hb : b.key ≤ key
      · obtain ⟨A, e, C, hsplit, hlen, he, hC⟩ := ih hb
        refine ⟨a :: A, e, C, by rw [hsplit, List.cons_append], ?_, he, hC⟩
        rw [List.takeWhile_cons_of_pos (by simpa using hb), List.length_cons, hlen,
          List.length_cons]
      · refine ⟨[], a, b :: bs, rfl, ?_, hle, ?_⟩
        · rw [List.takeWhile_cons_of_neg (by simpa using hb)]
        · intro c hc
          cases hc
          exact Nat.lt_of_not_le hb

/-- In a node whose keys increase, the lookup of an entry's own key finds it. -/
theorem bnodeLookup_self {A : Bnode} {e : IndexEntry} {C : Bnode}
    (hsorted : IndexForest.Sorted (A ++ e :: C)) :
    bnodeLookup (A ++ e :: C) e.key = .ok A.length := by
  have hsplit := List.pairwise_append.mp hsorted
  refine bnodeLookup_append (fun a ha => ?_) fun c hc => ?_
  · rcases List.mem_append.mp ha with ha | ha
    · exact Nat.le_of_lt (hsplit.2.2 a ha e (by simp))
    · rw [List.mem_singleton.mp ha]
  · exact List.rel_of_pairwise_cons hsplit.2.1 (List.mem_of_mem_head? hc)

end Tux3
