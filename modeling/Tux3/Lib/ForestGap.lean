/-
  Lib/ForestGap.lean --- a place between two entries of an index forest.

  An algorithm that takes entries out of nodes while it climbs a path stops at places
  where the path is open: the entry it went through was passed, or is gone, and its node
  may even be empty.  `GapAt` is such a place, with the marks of the levels above it;
  `RowsOk`, `rowsBelow` and `Marked` say what the levels below it are like, from the
  sequence of entries there.
-/
import Tux3.Lib.IndexForest

set_option autoImplicit false

namespace IndexForest

variable {κ β : Type}

/-! ## The levels under a sequence -/

/-- The blocks of a sequence and of the levels under it, `n` levels in all. -/
def rowsBelow (heap : Heap κ β) : Nat → List (Entry κ β) → List β
  | 0, _ => []
  | n + 1, seq => seq.map Entry.block ++ rowsBelow heap n (descend heap seq)

/-- The entries of the first `n` levels point to well-formed nodes. -/
def RowsOk (cap : Nat) (heap : Heap κ β) (n : Nat) (seq : List (Entry κ β)) : Prop :=
  ∀ i < n, ∀ e ∈ descendN heap i seq, NodeOk cap heap e

section Rows

variable {cap m n : Nat} {heap heap' : Heap κ β} {root e : Entry κ β} {seq : List (Entry κ β)}

theorem level_add (heap : Heap κ β) (root : Entry κ β) (m n : Nat) :
    level heap root (m + n) = descendN heap n (level heap root m) := by
  induction n with
  | zero => rfl
  | succ n ih =>
      rw [descendN, descendN_descend, ← ih]
      rfl

theorem blocksBelow_add (heap : Heap κ β) (root : Entry κ β) (m n : Nat) :
    blocksBelow heap root (m + n) =
      blocksBelow heap root m ++ rowsBelow heap n (level heap root m) := by
  induction n generalizing m with
  | zero => simp [rowsBelow]
  | succ n ih =>
      rw [← Nat.add_assoc, Nat.add_right_comm, ih, blocksBelow, level, rowsBelow, List.append_assoc]

theorem mem_rowsBelow {i : Nat} (h : i < n) (he : e ∈ descendN heap i seq) :
    e.block ∈ rowsBelow heap n seq := by
  induction n generalizing i seq with
  | zero => exact absurd h (Nat.not_lt_zero i)
  | succ n ih =>
      cases i with
      | zero => exact List.mem_append_left _ (List.mem_map_of_mem he)
      | succ i => exact List.mem_append_right _ (ih (Nat.lt_of_succ_lt_succ h) he)

theorem rowsBelow_subset (h : m ≤ n) : rowsBelow heap m seq ⊆ rowsBelow heap n seq := by
  induction m generalizing n seq with
  | zero => exact List.nil_subset _
  | succ m ih =>
      obtain ⟨n, rfl⟩ := Nat.exists_eq_succ_of_ne_zero (Nat.ne_of_gt (Nat.zero_lt_of_lt h))
      intro b hb
      rcases List.mem_append.mp hb with hb | hb
      · exact List.mem_append_left _ hb
      · exact List.mem_append_right _ (ih (Nat.le_of_succ_le_succ h) hb)

theorem mem_rowsBelow_append {seq' : List (Entry κ β)} {b : β} :
    b ∈ rowsBelow heap n (seq ++ seq') ↔ b ∈ rowsBelow heap n seq ∨ b ∈ rowsBelow heap n seq' := by
  induction n generalizing seq seq' with
  | zero => simp [rowsBelow]
  | succ n ih =>
      simp only [rowsBelow, List.map_append, descend_append, List.mem_append, ih]
      exact or_or_or_comm

/-- The levels depend only on the nodes above them. -/
theorem descendN_congr (h : ∀ b ∈ rowsBelow heap n seq, heap' b = heap b) :
    descendN heap' n seq = descendN heap n seq := by
  induction n generalizing seq with
  | zero => rfl
  | succ n ih =>
      have hseq : descend heap' seq = descend heap seq :=
        descend_congr fun b hb => h b (List.mem_append_left _ hb)
      rw [descendN, descendN, hseq]
      exact ih fun b hb => h b (List.mem_append_right _ hb)

theorem rowsBelow_congr (h : ∀ b ∈ rowsBelow heap n seq, heap' b = heap b) :
    rowsBelow heap' (n + 1) seq = rowsBelow heap (n + 1) seq := by
  induction n generalizing seq with
  | zero => rfl
  | succ n ih =>
      have hseq : descend heap' seq = descend heap seq :=
        descend_congr fun b hb => h b (List.mem_append_left _ hb)
      have hrows := ih fun b hb => h b (List.mem_append_right _ hb)
      calc rowsBelow heap' (n + 1 + 1) seq
          = seq.map Entry.block ++ rowsBelow heap' (n + 1) (descend heap' seq) := rfl
        _ = seq.map Entry.block ++ rowsBelow heap (n + 1) (descend heap seq) := by rw [hseq, hrows]

theorem rowsOk_succ : RowsOk cap heap (n + 1) seq ↔
    (∀ e ∈ seq, NodeOk cap heap e) ∧ RowsOk cap heap n (descend heap seq) := by
  constructor
  · exact fun h => ⟨h 0 (Nat.succ_pos n), fun i hi => h (i + 1) (Nat.succ_lt_succ hi)⟩
  · rintro ⟨hseq, hrows⟩ i hi
    cases i with
    | zero => exact hseq
    | succ i => exact hrows i (Nat.lt_of_succ_lt_succ hi)

theorem RowsOk.congr (h : RowsOk cap heap n seq)
    (heq : ∀ b ∈ rowsBelow heap n seq, heap' b = heap b) : RowsOk cap heap' n seq := by
  induction n generalizing seq with
  | zero => exact fun i hi => absurd hi (Nat.not_lt_zero i)
  | succ n ih =>
      obtain ⟨hseq, hrows⟩ := rowsOk_succ.mp h
      have hdescend : descend heap' seq = descend heap seq :=
        descend_congr fun b hb => heq b (List.mem_append_left _ hb)
      refine rowsOk_succ.mpr ⟨fun e he => (hseq e he).congr (heq _ ?_), ?_⟩
      · exact List.mem_append_left _ (List.mem_map_of_mem he)
      · rw [hdescend]
        exact ih hrows fun b hb => heq b (List.mem_append_right _ hb)

theorem nodesOk_add : NodesOk cap heap root (m + n) ↔
    NodesOk cap heap root m ∧ RowsOk cap heap n (level heap root m) := by
  constructor
  · intro h
    refine ⟨fun i hi => h i (Nat.lt_add_right n hi), fun i hi e he => ?_⟩
    rw [← level_add] at he
    exact h (m + i) (Nat.add_lt_add_left hi m) e he
  · rintro ⟨hnodes, hrows⟩ i hi e he
    by_cases him : i < m
    · exact hnodes i him e he
    · obtain ⟨k, rfl⟩ := Nat.exists_eq_add_of_le (Nat.le_of_not_lt him)
      rw [level_add] at he
      exact hrows k (Nat.lt_of_add_lt_add_left hi) e he

theorem Distinct.mono (h : Distinct heap root n) (hm : m ≤ n) : Distinct heap root m := by
  obtain ⟨k, rfl⟩ := Nat.exists_eq_add_of_le hm
  rw [Distinct, Nat.add_right_comm, blocksBelow_add] at h
  exact (List.nodup_append.mp h).1

end Rows

/-! ## Marks under a sequence -/

/-- Each of the `n + 1` levels from level `m` on, that of `seq`, has a marked block. -/
def Marked (heap : Heap κ β) (marks : Nat → Option β) (m n : Nat) (seq : List (Entry κ β)) :
    Prop :=
  ∀ i ≤ n, ∃ b, marks (m + i) = some b ∧ b ∈ (descendN heap i seq).map Entry.block

/-- The marks of the `n + 1` levels from level `m` on are at their ends. -/
def EndsMarked (heap : Heap κ β) (marks : Nat → Option β) (m n : Nat)
    (seq : List (Entry κ β)) : Prop :=
  ∀ i ≤ n, EndsAt (marks (m + i)) (descendN heap i seq)

section Marks

variable {heap heap' : Heap κ β} {root e : Entry κ β} {marks marks' : Nat → Option β} {m n : Nat}
  {seq path' pre post : List (Entry κ β)} {path : List (Step β)}

theorem EndsAt.mem {mark : Option β} {b : β} (h : EndsAt mark seq) (hb : mark = some b) :
    b ∈ seq.map Entry.block := by
  obtain ⟨seq', p, rfl, rfl⟩ := h b hb
  exact List.mem_map_of_mem (List.mem_append_right _ (List.mem_singleton_self p))

theorem Marked.congr (h : Marked heap marks m n seq)
    (hmarks : ∀ i ≤ n, marks' (m + i) = marks (m + i))
    (heq : ∀ b ∈ rowsBelow heap n seq, heap' b = heap b) : Marked heap' marks' m n seq := by
  intro i hi
  obtain ⟨b, hb, hmem⟩ := h i hi
  refine ⟨b, (hmarks i hi).trans hb, ?_⟩
  rwa [descendN_congr fun c hc => heq c (rowsBelow_subset hi hc)]

theorem EndsMarked.congr (h : EndsMarked heap marks m n seq)
    (hmarks : ∀ i ≤ n, marks' (m + i) = marks (m + i))
    (heq : ∀ b ∈ rowsBelow heap n seq, heap' b = heap b) : EndsMarked heap' marks' m n seq := by
  intro i hi
  rw [hmarks i hi, descendN_congr fun c hc => heq c (rowsBelow_subset hi hc)]
  exact h i hi

/-- One more level on top. -/
theorem Marked.cons (h : Marked heap marks (m + 1) n (descend heap seq)) {b : β}
    (hb : marks m = some b) (hmem : b ∈ seq.map Entry.block) : Marked heap marks m (n + 1) seq := by
  intro i hi
  cases i with
  | zero => exact ⟨b, hb, hmem⟩
  | succ i =>
      obtain ⟨c, hc, hmemc⟩ := h i (Nat.le_of_succ_le_succ hi)
      refine ⟨c, ?_, hmemc⟩
      rw [← hc]
      exact congrArg marks (by omega)

theorem EndsMarked.cons (h : EndsMarked heap marks (m + 1) n (descend heap seq))
    (hends : EndsAt (marks m) seq) : EndsMarked heap marks m (n + 1) seq := by
  intro i hi
  cases i with
  | zero => exact hends
  | succ i =>
      have := h i (Nat.le_of_succ_le_succ hi)
      rwa [show m + 1 + i = m + (i + 1) by omega] at this

/-- The marks of a trail are blocks of its levels. -/
theorem Trail.mark_mem (h : Trail heap root marks path pre e post) {b : β}
    (hm : m ≤ path.length) (hb : marks m = some b) :
    b ∈ blocksBelow heap root (path.length + 1) := by
  induction path generalizing pre e post with
  | nil =>
      obtain ⟨-, -, -, hnone⟩ := h
      obtain rfl : m = 0 := Nat.le_zero.mp hm
      rw [hnone] at hb
      cases hb
  | cons s up ih =>
      have hlevel := h.located.level
      obtain ⟨P, f, Q, A, C, hup, -, -, -, rfl, rfl, hends, -⟩ := h
      rcases Nat.eq_or_lt_of_le hm with rfl | hm
      · rw [blocksBelow, hlevel]
        refine List.mem_append_right _ ?_
        rw [List.map_append]
        exact List.mem_append_left _ (hends.mem hb)
      · exact List.mem_append_left _ (ih hup (Nat.le_of_lt_succ hm))

end Marks

/-! ## Joined nodes -/

section Join

variable {cap n : Nat} {heap heap' : Heap κ β} {P₀ Q A C : List (Entry κ β)} {p : Entry κ β}

/-- The node of `p` has the entries `A ++ C` of the node behind it as well; `P₀` and `Q` are the
other entries of its level, whose nodes are the same, as are the `n` levels below. -/
structure NodeJoined (heap heap' : Heap κ β) (n : Nat) (P₀ : List (Entry κ β)) (p : Entry κ β)
    (Q A C : List (Entry κ β)) : Prop where
  node_eq : heap' p.block = heap p.block ++ (A ++ C)
  beside : ∀ x ∈ P₀ ++ Q, heap' x.block = heap x.block
  below : ∀ b ∈ rowsBelow heap n ((descend heap (P₀ ++ [p]) ++ A) ++ (C ++ descend heap Q)),
    heap' b = heap b

namespace NodeJoined

theorem descend_before (h : NodeJoined heap heap' n P₀ p Q A C) :
    descend heap' (P₀ ++ [p]) = descend heap (P₀ ++ [p]) ++ A ++ C := by
  rw [descend_append, descend_append, descend_cons, descend_cons, h.node_eq, descend_nil,
    descend_nil, descend_congr_of_mem fun x hx => h.beside x (List.mem_append_left _ hx)]
  simp

theorem descend_after (h : NodeJoined heap heap' n P₀ p Q A C) :
    descend heap' Q = descend heap Q :=
  descend_congr_of_mem fun x hx => h.beside x (List.mem_append_right _ hx)

/-- The level below is the same. -/
theorem descend_row (h : NodeJoined heap heap' n P₀ p Q A C) :
    descend heap' (P₀ ++ [p] ++ Q) =
      (descend heap (P₀ ++ [p]) ++ A) ++ (C ++ descend heap Q) := by
  rw [descend_append, h.descend_before, h.descend_after, List.append_assoc, List.append_assoc]

theorem descendN_before (h : NodeJoined heap heap' n P₀ p Q A C) :
    descendN heap' (n + 1) (P₀ ++ [p]) =
      descendN heap n (descend heap (P₀ ++ [p]) ++ A ++ C) := by
  rw [descendN, h.descend_before]
  refine descendN_congr fun b hb => h.below b ?_
  rw [← List.append_assoc]
  exact mem_rowsBelow_append.mpr (.inl hb)

theorem descendN_after (h : NodeJoined heap heap' n P₀ p Q A C) :
    descendN heap' (n + 1) Q = descendN heap n (descend heap Q) := by
  rw [descendN, h.descend_after]
  refine descendN_congr fun b hb => h.below b ?_
  rw [← List.append_assoc]
  exact mem_rowsBelow_append.mpr (.inr hb)

theorem rowsOk (h : NodeJoined heap heap' n P₀ p Q A C)
    (hrows : RowsOk cap heap n ((descend heap (P₀ ++ [p]) ++ A) ++ (C ++ descend heap Q)))
    (hnodes : ∀ x ∈ P₀ ++ [p] ++ Q, NodeOk cap heap x)
    (hfit : (heap p.block ++ (A ++ C)).length ≤ cap) :
    RowsOk cap heap' (n + 1) (P₀ ++ [p] ++ Q) := by
  refine rowsOk_succ.mpr ⟨fun x hx => ?_, h.descend_row ▸ hrows.congr h.below⟩
  have hcases : x = p ∨ x ∈ P₀ ++ Q := by
    simp only [List.mem_append, List.mem_singleton] at hx ⊢
    exact hx.elim (fun hx => hx.elim (fun hx => .inr (.inl hx)) .inl) fun hx => .inr (.inr hx)
  rcases hcases with rfl | hother
  · obtain ⟨a, as, hnode, hkey⟩ := (hnodes x hx).cons
    refine ⟨?_, h.node_eq ▸ hfit⟩
    rw [h.node_eq, hnode]
    simpa using hkey
  · exact (hnodes x hx).congr (h.beside x hother)

end NodeJoined

end Join

/-! ## Open paths -/

section Gap

variable [LT κ]

/-- The path ends in the node of `f` between `A` and `C`; the entries beside `f` on its
level are `P` and `Q`.  Only the node of `f` may be empty. -/
structure GapAt (cap : Nat) (heap : Heap κ β) (root : Entry κ β) (marks : Nat → Option β)
    (s : Step β) (up : List (Step β)) (P : List (Entry κ β)) (f : Entry κ β)
    (Q A C : List (Entry κ β)) : Prop where
  trail : Trail heap root marks up P f Q
  block_eq : s.block = f.block
  node_eq : heap f.block = A ++ C
  next_eq : s.next = A.length
  first : A = [] → marks up.length ≠ none
  above : NodesOk cap heap root up.length
  beside : ∀ x ∈ P ++ Q, NodeOk cap heap x
  node : A ++ C ≠ [] → NodeOk cap heap f
  row : Sorted (P ++ f :: Q)

variable {cap : Nat} {heap heap' : Heap κ β} {root e f : Entry κ β} {marks : Nat → Option β}
  {s t : Step β} {up : List (Step β)} {pre post P Q A C : List (Entry κ β)}

/-- The entry of a trail is passed: the path ends behind it in the node above. -/
theorem Trail.pass (h : Trail heap root marks (s :: up) pre e post)
    (hok : NodesOk cap heap root (up.length + 1)) (hsorted : Sorted (pre ++ e :: post)) :
    ∃ P f Q A C, GapAt cap heap root (Function.update marks (up.length + 1) (some e.block)) s up
        P f Q (A ++ [e]) C ∧
      pre = descend heap P ++ A ∧ post = C ++ descend heap Q := by
  obtain ⟨P, f, Q, A, C, hup, hblock, hnode, hnext, rfl, rfl, -, -⟩ := h
  have hrow : ∀ x ∈ P ++ f :: Q, NodeOk cap heap x := fun x hx =>
    hok up.length (Nat.lt_succ_self _) x (hup.located.level ▸ hx)
  refine ⟨P, f, Q, A, C, ⟨?_, hblock, ?_, ?_, ?_, ?_, ?_, ?_, ?_⟩, rfl, rfl⟩
  · refine hup.congr (fun _ _ => rfl) fun m hm => ?_
    exact Function.update_of_ne (Nat.ne_of_lt (Nat.lt_succ_of_le hm)) _ _
  · simp [hnode]
  · simp [hnext]
  · simp
  · exact fun m hm => hok m (Nat.lt_succ_of_lt hm)
  · intro x hx
    refine hrow x ?_
    rcases List.mem_append.mp hx with hx | hx
    · exact List.mem_append_left _ hx
    · exact List.mem_append_right _ (List.mem_cons_of_mem f hx)
  · exact fun _ => hrow f (by simp)
  · have hrows : Sorted (descend heap (P ++ f :: Q)) := by
      rw [descend_append, descend_cons, hnode]
      simpa using hsorted
    exact Sorted.of_descend hrows hrow

namespace GapAt

theorem level (h : GapAt cap heap root marks s up P f Q A C) :
    IndexForest.level heap root (up.length + 1) = (descend heap P ++ A) ++ (C ++ descend heap Q) := by
  rw [IndexForest.level, h.trail.located.level, descend_append, descend_cons, h.node_eq]
  simp

theorem rowOk (h : GapAt cap heap root marks s up P f Q A C) (hne : A ++ C ≠ []) :
    ∀ x ∈ P ++ f :: Q, NodeOk cap heap x := by
  intro x hx
  rcases List.mem_append.mp hx with hx | hx
  · exact h.beside x (List.mem_append_left _ hx)
  · rcases List.mem_cons.mp hx with rfl | hx
    · exact h.node hne
    · exact h.beside x (List.mem_append_right _ hx)

/-- Where the node is not empty, the levels are well formed down to it. -/
theorem nodesOk (h : GapAt cap heap root marks s up P f Q A C) (hne : A ++ C ≠ []) :
    NodesOk cap heap root (up.length + 1) := by
  refine nodesOk_add.mpr ⟨h.above, rowsOk_succ.mpr ⟨?_, fun i hi => absurd hi (Nat.not_lt_zero i)⟩⟩
  rw [h.trail.located.level]
  exact h.rowOk hne

end GapAt

/-! ## Open forests -/

/-- An open path, with `n` more levels of nodes under the sequence it ends in.  While the
walk is not `done`, the marks are at the ends of what is before the place. -/
structure OpenForest (cap : Nat) (heap : Heap κ β) (root : Entry κ β) (marks : Nat → Option β)
    (n : Nat) (done : Prop) (s : Step β) (up : List (Step β)) (P : List (Entry κ β))
    (f : Entry κ β) (Q A C : List (Entry κ β)) : Prop
    extends GapAt cap heap root marks s up P f Q A C where
  rows : RowsOk cap heap n ((descend heap P ++ A) ++ (C ++ descend heap Q))
  marked : Marked heap marks (up.length + 1) n ((descend heap P ++ A) ++ (C ++ descend heap Q))
  ends : ¬done → EndsMarked heap marks (up.length + 1) n (descend heap P ++ A)

variable {n : Nat} {done : Prop}

namespace OpenForest

/-- The entries of the last level. -/
theorem leaves (h : OpenForest cap heap root marks n done s up P f Q A C) :
    IndexForest.level heap root (up.length + 1 + n) =
      descendN heap n (descend heap P ++ A) ++ descendN heap n (C ++ descend heap Q) := by
  rw [level_add, h.level, descendN_append]

theorem blocks (h : OpenForest cap heap root marks n done s up P f Q A C) :
    blocksBelow heap root (up.length + 1 + n + 1) = blocksBelow heap root up.length ++
      ((P ++ f :: Q).map Entry.block ++
        rowsBelow heap (n + 1) ((descend heap P ++ A) ++ (C ++ descend heap Q))) := by
  rw [Nat.add_assoc, blocksBelow_add, h.level, blocksBelow, h.trail.located.level,
    List.append_assoc]

/-- Where the node is not empty, all levels are well formed. -/
theorem allOk (h : OpenForest cap heap root marks n done s up P f Q A C) (hne : A ++ C ≠ []) :
    NodesOk cap heap root (up.length + 1 + n) :=
  nodesOk_add.mpr ⟨h.nodesOk hne, h.toGapAt.level ▸ h.rows⟩

/-- All marks are blocks of the forest. -/
theorem mark_mem (h : OpenForest cap heap root marks n done s up P f Q A C) {m : Nat} {b : β}
    (hm : m ≤ up.length + 1 + n) (hb : marks m = some b) :
    b ∈ blocksBelow heap root (up.length + 1 + n + 1) := by
  by_cases hmu : m ≤ up.length
  · exact blocksBelow_subset (by omega) (h.trail.mark_mem hmu hb)
  · obtain ⟨i, rfl⟩ := Nat.exists_eq_add_of_le (Nat.lt_of_not_le hmu)
    have hi : i ≤ n := Nat.le_of_add_le_add_left hm
    obtain ⟨c, hc, hmem⟩ := h.marked i hi
    obtain rfl : b = c := Option.some.inj (hb.symm.trans hc)
    obtain ⟨e, he, rfl⟩ := List.mem_map.mp hmem
    rw [h.blocks]
    exact List.mem_append_right _
      (List.mem_append_right _ (mem_rowsBelow (Nat.lt_succ_of_le hi) he))

/-- The nodes of the path are blocks of the forest. -/
theorem path_mem (h : OpenForest cap heap root marks n done s up P f Q A C) :
    ∀ r ∈ s :: up, r.block ∈ blocksBelow heap root (up.length + 1 + n + 1) := by
  intro r hr
  refine blocksBelow_subset (m := up.length + 1) (by omega) ?_
  rcases List.mem_cons.mp hr with rfl | hr
  · rw [h.block_eq]
    exact mem_blocksBelow_of_mem_level (Nat.lt_succ_self _) (by simp [h.trail.located.level])
  · exact List.mem_append_left _ (h.trail.located.step_mem r hr)

/-- The node is passed, and is the mark of its level. -/
theorem pass (h : OpenForest cap heap root marks n done s (t :: up) P f Q A C)
    (hne : A ++ C ≠ []) (hend : ¬done → C = []) :
    ∃ P' f' Q' A' C', OpenForest cap heap root
        (Function.update marks (up.length + 1) (some f.block)) (n + 1) done t up P' f' Q'
        (A' ++ [f]) C' ∧
      P = descend heap P' ++ A' ∧ Q = C' ++ descend heap Q' := by
  obtain ⟨P', f', Q', A', C', hgap, hP, hQ⟩ := h.trail.pass h.above h.row
  have hpre : descend heap P' ++ (A' ++ [f]) = P ++ [f] := by rw [hP, List.append_assoc]
  have hmarks : ∀ i ≤ n, Function.update marks (up.length + 1) (some f.block)
      (up.length + 1 + 1 + i) = marks (up.length + 1 + 1 + i) := fun i _ =>
    Function.update_of_ne (by omega) _ _
  have hdescend : descend heap (P ++ [f]) = descend heap P ++ A ++ C := by
    rw [descend_append, descend_cons, h.node_eq, descend_nil, List.append_nil, List.append_assoc]
  refine ⟨P', f', Q', A', C', ⟨hgap, ?_, ?_, fun hnot => ?_⟩, hP, hQ⟩
  · rw [hpre, ← hQ]
    refine rowsOk_succ.mpr ⟨fun e he => h.rowOk hne e (by simpa using he), ?_⟩
    rw [descend_append, hdescend, List.append_assoc]
    exact h.rows
  · rw [hpre, ← hQ]
    refine Marked.cons ?_ (Function.update_self _ _ _) (by simp)
    rw [descend_append, hdescend, List.append_assoc]
    exact h.marked.congr hmarks fun _ _ => rfl
  · rw [hpre]
    refine EndsMarked.cons ?_ fun b hb => ⟨P, f, rfl, ?_⟩
    · rw [hdescend, hend hnot, List.append_nil]
      exact (h.ends hnot).congr hmarks fun _ _ => rfl
    · rw [Function.update_self] at hb
      exact Option.some.inj hb

end OpenForest

section Joined

variable {P₀ : List (Entry κ β)} {p : Entry κ β}

/-- In a forest, the blocks beside the node and below are others than the changed ones. -/
theorem OpenForest.nodeJoined
    (h : OpenForest cap heap root marks n done s (t :: up) (P₀ ++ [p]) f Q A C)
    (hdistinct : Distinct heap root (up.length + 1 + 1 + n))
    (hmerged : heap' p.block = heap p.block ++ (A ++ C))
    (hframe : ∀ b, b ∉ blocksBelow heap root (up.length + 1) → b ≠ p.block → heap' b = heap b) :
    NodeJoined heap heap' n P₀ p Q A C := by
  rw [Distinct, show up.length + 1 + 1 + n + 1 = (t :: up).length + 1 + n + 1 from rfl,
    h.blocks] at hdistinct
  obtain ⟨-, hrest, hupper⟩ := List.nodup_append.mp hdistinct
  obtain ⟨hrow, -, hlower⟩ := List.nodup_append.mp hrest
  refine ⟨hmerged, fun x hx => hframe _ (fun hmem => ?_) fun heq => ?_, fun b hb => ?_⟩
  · refine hupper _ hmem _ (List.mem_append_left _ (List.mem_map_of_mem (a := x) ?_)) rfl
    simp only [List.mem_append, List.mem_cons] at hx ⊢
    exact hx.elim (fun hx => .inl (.inl hx)) fun hx => .inr (.inr hx)
  · simp only [List.map_append, List.map_cons, List.map_nil, List.append_assoc] at hrow
    have hsplit := List.nodup_append.mp hrow
    rcases List.mem_append.mp hx with hx | hx
    · exact hsplit.2.2 _ (List.mem_map_of_mem hx) p.block (by simp) heq
    · refine (List.nodup_cons.mp hsplit.2.1).1 (heq ▸ ?_)
      exact List.mem_append_right _ (List.mem_cons_of_mem _ (List.mem_map_of_mem hx))
  · have hb := rowsBelow_subset (Nat.le_succ n) hb
    refine hframe b (fun hmem => hupper b hmem b (List.mem_append_right _ hb) rfl) fun heq => ?_
    exact hlower p.block (List.mem_map_of_mem (by simp)) b hb heq.symm

/-- All blocks of the forest are still there but that of the joined node. -/
theorem OpenForest.joined_blocks
    (h : OpenForest cap heap root marks n done s (t :: up) (P₀ ++ [p]) f Q A C)
    (hjoined : NodeJoined heap heap' n P₀ p Q A C)
    (hlevel : level heap' root (up.length + 1) = P₀ ++ [p] ++ Q)
    (hbelow : blocksBelow heap' root (up.length + 1) = blocksBelow heap root (up.length + 1)) :
    (f.block :: blocksBelow heap' root (up.length + 1 + (n + 1) + 1)).Perm
      (blocksBelow heap root (up.length + 1 + 1 + n + 1)) := by
  have hrows : rowsBelow heap' (n + 1) (descend heap' (P₀ ++ [p] ++ Q)) =
      rowsBelow heap (n + 1) ((descend heap (P₀ ++ [p]) ++ A) ++ (C ++ descend heap Q)) := by
    rw [hjoined.descend_row]
    exact rowsBelow_congr hjoined.below
  rw [show up.length + 1 + 1 + n + 1 = (t :: up).length + 1 + n + 1 from rfl, h.blocks,
    Nat.add_assoc (up.length + 1), blocksBelow_add, hlevel, hbelow, rowsBelow, hrows]
  have hmiddle : (f.block :: ((blocksBelow heap root (up.length + 1) ++
      (P₀ ++ [p]).map Entry.block) ++ (Q.map Entry.block ++ rowsBelow heap (n + 1)
        ((descend heap (P₀ ++ [p]) ++ A) ++ (C ++ descend heap Q))))).Perm _ :=
    List.perm_middle.symm
  simpa only [List.length_cons, List.map_append, List.map_cons, List.map_nil, List.append_assoc,
    List.cons_append, List.nil_append] using hmiddle

/-- The node was appended to the one before it on its level, which is marked, and its entry
taken out of the node above. -/
theorem OpenForest.merge {f' : Entry κ β} {t' : Step β} {P' Q' A' C' : List (Entry κ β)} {prev : β}
    (h : OpenForest cap heap root marks n done s (t :: up) P f Q A C)
    (hdistinct : Distinct heap root (up.length + 1 + 1 + n))
    (hprev : marks (up.length + 1) = some prev)
    (hgap : GapAt cap heap' root marks t' up P' f' Q' A' C')
    (hP : P = descend heap' P' ++ A') (hQ : Q = C' ++ descend heap' Q')
    (hbelow : blocksBelow heap' root (up.length + 1) = blocksBelow heap root (up.length + 1))
    (hmerged : heap' prev = heap prev ++ (A ++ C)) (hfit : (heap prev ++ (A ++ C)).length ≤ cap)
    (hframe : ∀ b, b ∉ blocksBelow heap root (up.length + 1) → b ≠ prev → heap' b = heap b)
    (hend : ¬done → C = []) :
    OpenForest cap heap' root marks (n + 1) done t' up P' f' Q' A' C' ∧
      descendN heap' (n + 1) P = descendN heap n (descend heap P ++ A ++ C) ∧
      descendN heap' (n + 1) Q = descendN heap n (descend heap Q) ∧
      (f.block :: blocksBelow heap' root (up.length + 1 + (n + 1) + 1)).Perm
        (blocksBelow heap root (up.length + 1 + 1 + n + 1)) := by
  obtain ⟨P₀, p, rfl, rfl⟩ : ∃ P₀ p, P = P₀ ++ [p] ∧ p.block = prev := by
    obtain ⟨_, _, _, _, _, -, -, -, -, -, -, hends, -⟩ := h.trail
    exact hends prev hprev
  have hjoined := h.nodeJoined hdistinct hmerged hframe
  have hlevel : level heap' root (up.length + 1) = P₀ ++ [p] ++ Q := by
    rw [hgap.level, ← hP, ← hQ]
  refine ⟨⟨hgap, ?_, ?_, fun hnot => ?_⟩, hjoined.descendN_before, hjoined.descendN_after,
    h.joined_blocks hjoined hlevel hbelow⟩
  · rw [← hP, ← hQ]
    exact hjoined.rowsOk h.rows h.beside hfit
  · rw [← hP, ← hQ]
    refine Marked.cons ?_ hprev (by simp)
    rw [hjoined.descend_row]
    exact h.marked.congr (fun _ _ => rfl) hjoined.below
  · rw [← hP]
    refine EndsMarked.cons ?_ fun b hb => ⟨P₀, p, rfl, Option.some.inj (hprev.symm.trans hb)⟩
    rw [hjoined.descend_before, hend hnot, List.append_nil]
    exact (h.ends hnot).congr (fun _ _ => rfl) fun b hb =>
      hjoined.below b (mem_rowsBelow_append.mpr (.inl hb))

end Joined

end Gap

end IndexForest
