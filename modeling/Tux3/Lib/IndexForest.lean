/-
  Lib/IndexForest.lean --- multi-level indexes stored in a heap of nodes.

  An index node is a list of entries, each with a key and the block of a child, and a
  heap gives every block its node.  From a root entry the levels of the index unfold
  one from the other: level `n + 1` is the concatenation of the nodes that the entries
  of level `n` point to (`level`).  A tree of depth `d` is well formed when every entry
  above level `d` points to a node whose first key is the entry's key (`NodeOk`) and
  the blocks of all levels are distinct (`Distinct`); the entries of level `d` are its
  leaves.

  A path is a list of (block, next) pairs, deepest first.  `Located` says that the
  entry before `next` in the deepest node is `e`, with `pre` and `post` before and
  after it on its level.  An algorithm that climbs a path edits one node after the
  other; `Located.edit` says what such an edit does to the levels.
-/
import Mathlib.Data.List.Nodup
import Mathlib.Logic.Function.Basic

set_option autoImplicit false

namespace IndexForest

/-- An entry of an index node: the smallest key under a child, and the child's block. -/
structure Entry (κ β : Type) where
  key : κ
  block : β
  deriving DecidableEq, Repr, Inhabited

/-- The nodes, by block. -/
abbrev Heap (κ β : Type) : Type := β → List (Entry κ β)

variable {κ β : Type}

/-! ## Levels -/

/-- The entries of the nodes a sequence of entries points to. -/
def descend (heap : Heap κ β) (seq : List (Entry κ β)) : List (Entry κ β) :=
  seq.flatMap fun e => heap e.block

@[simp] theorem descend_nil (heap : Heap κ β) : descend heap [] = [] := rfl

@[simp] theorem descend_cons (heap : Heap κ β) (e : Entry κ β) (seq : List (Entry κ β)) :
    descend heap (e :: seq) = heap e.block ++ descend heap seq := rfl

@[simp] theorem descend_append (heap : Heap κ β) (seq seq' : List (Entry κ β)) :
    descend heap (seq ++ seq') = descend heap seq ++ descend heap seq' :=
  List.flatMap_append

/-- Only the nodes of the sequence matter. -/
theorem descend_congr {heap heap' : Heap κ β} {seq : List (Entry κ β)}
    (h : ∀ b ∈ seq.map Entry.block, heap' b = heap b) :
    descend heap' seq = descend heap seq := by
  induction seq with
  | nil => rfl
  | cons e seq ih =>
      rw [descend_cons, descend_cons, h e.block (by simp),
        ih fun b hb => h b (by simp only [List.map_cons, List.mem_cons]; exact .inr hb)]

theorem descend_congr_of_mem {heap heap' : Heap κ β} {seq : List (Entry κ β)}
    (h : ∀ e ∈ seq, heap' e.block = heap e.block) : descend heap' seq = descend heap seq :=
  descend_congr fun b hb => by
    obtain ⟨e, he, rfl⟩ := List.mem_map.mp hb
    exact h e he

/-- The entries of level `n` under a root entry. -/
def level (heap : Heap κ β) (root : Entry κ β) : Nat → List (Entry κ β)
  | 0 => [root]
  | n + 1 => descend heap (level heap root n)

/-- The blocks of all levels above `n`. -/
def blocksBelow (heap : Heap κ β) (root : Entry κ β) : Nat → List β
  | 0 => []
  | n + 1 => blocksBelow heap root n ++ (level heap root n).map Entry.block

/-- The blocks of the levels up to `n` are distinct. -/
def Distinct (heap : Heap κ β) (root : Entry κ β) (n : Nat) : Prop :=
  (blocksBelow heap root (n + 1)).Nodup

theorem Distinct.pred {heap : Heap κ β} {root : Entry κ β} {n : Nat}
    (h : Distinct heap root (n + 1)) : Distinct heap root n :=
  (List.nodup_append.mp h).1

theorem blocksBelow_subset {heap : Heap κ β} {root : Entry κ β} {m n : Nat} (h : m ≤ n) :
    blocksBelow heap root m ⊆ blocksBelow heap root n := by
  induction h with
  | refl => exact fun b hb => hb
  | step _ ih => exact fun b hb => List.mem_append_left _ (ih hb)

/-- The blocks of a level are among the blocks above any deeper one. -/
theorem mem_blocksBelow_of_mem_level {heap : Heap κ β} {root e : Entry κ β} {m n : Nat}
    (h : m < n) (he : e ∈ level heap root m) : e.block ∈ blocksBelow heap root n :=
  blocksBelow_subset h (List.mem_append_right _ (List.mem_map_of_mem he))

/-- The levels up to `n` depend only on the nodes above level `n`. -/
theorem level_congr {heap heap' : Heap κ β} {root : Entry κ β} {n : Nat}
    (h : ∀ b ∈ blocksBelow heap root n, heap' b = heap b) {m : Nat} (hm : m ≤ n) :
    level heap' root m = level heap root m := by
  induction m with
  | zero => rfl
  | succ m ih =>
      rw [level, level, ih (by omega)]
      refine descend_congr fun b hb => h b ?_
      exact blocksBelow_subset hm (List.mem_append_right _ hb)

theorem blocksBelow_congr {heap heap' : Heap κ β} {root : Entry κ β} {n : Nat}
    (h : ∀ b ∈ blocksBelow heap root n, heap' b = heap b) {m : Nat} (hm : m ≤ n + 1) :
    blocksBelow heap' root m = blocksBelow heap root m := by
  induction m with
  | zero => rfl
  | succ m ih => rw [blocksBelow, blocksBelow, ih (by omega), level_congr h (by omega)]

/-- The entries `j` levels under a sequence of entries. -/
def descendN (heap : Heap κ β) : Nat → List (Entry κ β) → List (Entry κ β)
  | 0, seq => seq
  | j + 1, seq => descendN heap j (descend heap seq)

@[simp] theorem descendN_nil (heap : Heap κ β) (j : Nat) : descendN heap j [] = [] := by
  induction j with
  | zero => rfl
  | succ j ih => rw [descendN, descend_nil, ih]

@[simp] theorem descendN_append (heap : Heap κ β) (j : Nat) (seq seq' : List (Entry κ β)) :
    descendN heap j (seq ++ seq') = descendN heap j seq ++ descendN heap j seq' := by
  induction j generalizing seq seq' with
  | zero => rfl
  | succ j ih => rw [descendN, descend_append, ih, descendN, descendN]

theorem descendN_descend (heap : Heap κ β) (j : Nat) (seq : List (Entry κ β)) :
    descendN heap j (descend heap seq) = descend heap (descendN heap j seq) := by
  induction j generalizing seq with
  | zero => rfl
  | succ j ih => rw [descendN, ih, descendN]

/-! ## Well-formed nodes -/

/-- The entry points to a node of at most `cap` entries that starts with its key. -/
structure NodeOk (cap : Nat) (heap : Heap κ β) (e : Entry κ β) : Prop where
  head : (heap e.block).head?.map Entry.key = some e.key
  length_le : (heap e.block).length ≤ cap

theorem NodeOk.congr {cap : Nat} {heap heap' : Heap κ β} {e : Entry κ β}
    (h : NodeOk cap heap e) (heq : heap' e.block = heap e.block) : NodeOk cap heap' e :=
  ⟨heq ▸ h.head, heq ▸ h.length_le⟩

/-- A well-formed node is its first entry and the rest. -/
theorem NodeOk.cons {cap : Nat} {heap : Heap κ β} {e : Entry κ β} (h : NodeOk cap heap e) :
    ∃ e' es, heap e.block = e' :: es ∧ e'.key = e.key := by
  have hhead := h.head
  cases hnode : heap e.block with
  | nil => simp [hnode] at hhead
  | cons e' es => exact ⟨e', es, rfl, by simpa [hnode] using hhead⟩

/-- All entries above level `n` are well formed. -/
def NodesOk (cap : Nat) (heap : Heap κ β) (root : Entry κ β) (n : Nat) : Prop :=
  ∀ m < n, ∀ e ∈ level heap root m, NodeOk cap heap e

/-- One more level of well-formed nodes, of which only that of one entry is not as before. -/
theorem NodesOk.down {cap : Nat} {heap heap' : Heap κ β} {root f : Entry κ β} {n : Nat}
    {P Q : List (Entry κ β)} (hok : NodesOk cap heap' root n)
    (hlevel : level heap' root n = P ++ f :: Q)
    (hbeside : ∀ x ∈ P ++ Q, NodeOk cap heap x ∧ heap' x.block = heap x.block)
    (hf : NodeOk cap heap' f) : NodesOk cap heap' root (n + 1) := by
  intro m hm x hx
  rcases Nat.lt_succ_iff_lt_or_eq.mp hm with hlt | rfl
  · exact hok m hlt x hx
  · rw [hlevel] at hx
    have hx : x ∈ P ++ Q ∨ x = f := by
      rcases List.mem_append.mp hx with hx | hx
      · exact .inl (List.mem_append_left _ hx)
      · exact (List.mem_cons.mp hx).symm.imp_left (List.mem_append_right _)
    rcases hx with hx | rfl
    · exact (hbeside x hx).1.congr (hbeside x hx).2
    · exact hf

section Sorted

variable [LT κ]

/-- The keys of a sequence strictly increase. -/
def Sorted (seq : List (Entry κ β)) : Prop := seq.Pairwise fun e e' => e.key < e'.key

section Split

variable {A C : List (Entry κ β)} {e : Entry κ β}

theorem Sorted.left (h : Sorted (A ++ C)) : Sorted A := (List.pairwise_append.mp h).1

theorem Sorted.right (h : Sorted (A ++ C)) : Sorted C := (List.pairwise_append.mp h).2.1

theorem Sorted.before (h : Sorted (A ++ e :: C)) : ∀ a ∈ A, a.key < e.key := fun a ha =>
  (List.pairwise_append.mp h).2.2 a ha e (by simp)

theorem Sorted.after (h : Sorted (A ++ e :: C)) : ∀ c ∈ C, e.key < c.key := fun _ hc =>
  List.rel_of_pairwise_cons (List.pairwise_append.mp h).2.1 hc

/-- Only the keys matter. -/
theorem Sorted.setBlock (h : Sorted (A ++ e :: C)) (block : β) :
    Sorted (A ++ ⟨e.key, block⟩ :: C) := by
  unfold Sorted at h ⊢
  simpa only [List.pairwise_append, List.pairwise_cons, List.mem_cons, forall_eq_or_imp] using h

/-- A key may grow up to the next one. -/
theorem Sorted.setKey {key : κ} (h : Sorted (A ++ e :: C))
    (hbefore : ∀ a ∈ A, a.key < key) (hafter : ∀ c ∈ C, key < c.key) :
    Sorted (A ++ ⟨key, e.block⟩ :: C) := by
  have hsplit := List.pairwise_append.mp h
  refine List.pairwise_append.mpr ⟨hsplit.1, ?_, fun a ha c hc => ?_⟩
  · exact List.pairwise_cons.mpr ⟨hafter, (List.pairwise_cons.mp hsplit.2.1).2⟩
  · rcases List.mem_cons.mp hc with rfl | hc
    · exact hbefore a ha
    · exact hsplit.2.2 a ha c (List.mem_cons_of_mem e hc)

/-- An entry may go. -/
theorem Sorted.remove (h : Sorted (A ++ e :: C)) : Sorted (A ++ C) :=
  h.sublist ((List.sublist_cons_self e C).append_left A)

end Split

/-- Where the nodes are sorted as a whole, so are the entries that point to them. -/
theorem Sorted.of_descend {cap : Nat} {heap : Heap κ β} {seq : List (Entry κ β)}
    (h : Sorted (descend heap seq)) (hok : ∀ e ∈ seq, NodeOk cap heap e) : Sorted seq := by
  induction seq with
  | nil => exact .nil
  | cons e seq ih =>
      rw [descend_cons] at h
      have hsplit := List.pairwise_append.mp h
      refine List.pairwise_cons.mpr ⟨?_, ih hsplit.2.1 fun e' he' => hok e' (by simp [he'])⟩
      intro e' he'
      obtain ⟨a, as, hnode, hkey⟩ := (hok e (by simp)).cons
      obtain ⟨a', as', hnode', hkey'⟩ := (hok e' (by simp [he'])).cons
      rw [← hkey, ← hkey']
      refine hsplit.2.2 a (by simp [hnode]) a' ?_
      exact List.mem_flatMap.mpr ⟨e', he', by simp [hnode']⟩

/-- Where a level is sorted, so are all levels above it. -/
theorem sorted_level {cap : Nat} {heap : Heap κ β} {root : Entry κ β} {n : Nat}
    (h : Sorted (level heap root n)) (hok : NodesOk cap heap root n) {m : Nat} (hm : m ≤ n) :
    Sorted (level heap root m) := by
  induction hm with
  | refl => exact h
  | @step n _ ih =>
      exact ih (Sorted.of_descend h (hok n (Nat.lt_succ_self n)))
        fun k hk => hok k (Nat.lt_succ_of_lt hk)

end Sorted

/-! ## Paths -/

/-- A step of a path: the block of a node, and the index of the entry after the one
the path goes through. -/
structure Step (β : Type) where
  block : β
  next : Nat
  deriving DecidableEq, Repr, Inhabited

/-- The path, deepest step first, goes through `e`, which has `pre` before it and `post`
after it on its level. -/
def Located (heap : Heap κ β) (root : Entry κ β) :
    List (Step β) → List (Entry κ β) → Entry κ β → List (Entry κ β) → Prop
  | [], pre, e, post => pre = [] ∧ e = root ∧ post = []
  | s :: up, pre, e, post =>
      ∃ P f Q A C, Located heap root up P f Q ∧ s.block = f.block ∧
        heap f.block = A ++ e :: C ∧ s.next = A.length + 1 ∧
        pre = descend heap P ++ A ∧ post = C ++ descend heap Q

section Located

variable {heap : Heap κ β} {root e : Entry κ β} {path : List (Step β)}
  {pre post : List (Entry κ β)}

/-- The level of the entry a path goes through. -/
theorem Located.level (h : Located heap root path pre e post) :
    level heap root path.length = pre ++ e :: post := by
  induction path generalizing pre e post with
  | nil =>
      obtain ⟨rfl, rfl, rfl⟩ := h
      rfl
  | cons s up ih =>
      obtain ⟨P, f, Q, A, C, hup, -, hnode, -, rfl, rfl⟩ := h
      rw [List.length_cons, IndexForest.level, ih hup, descend_append, descend_cons, hnode]
      simp

/-- A path depends only on the nodes above its entry. -/
theorem Located.congr {heap' : Heap κ β} (h : Located heap root path pre e post)
    (heq : ∀ b ∈ blocksBelow heap root path.length, heap' b = heap b) :
    Located heap' root path pre e post := by
  induction path generalizing pre e post with
  | nil => exact h
  | cons s up ih =>
      obtain ⟨P, f, Q, A, C, hup, hblock, hnode, hnext, rfl, rfl⟩ := h
      have hlevel := hup.level
      have hmem : ∀ g ∈ P ++ f :: Q, heap' g.block = heap g.block := fun g hg =>
        heq _ (mem_blocksBelow_of_mem_level (Nat.lt_succ_self up.length) (hlevel ▸ hg))
      have hP : descend heap' P = descend heap P := descend_congr fun b hb => by
        obtain ⟨g, hg, rfl⟩ := List.mem_map.mp hb
        exact hmem g (by simp [hg])
      have hQ : descend heap' Q = descend heap Q := descend_congr fun b hb => by
        obtain ⟨g, hg, rfl⟩ := List.mem_map.mp hb
        exact hmem g (by simp [hg])
      refine ⟨P, f, Q, A, C, ih hup fun b hb => heq b (List.mem_append_left _ hb), hblock, ?_,
        hnext, ?_, ?_⟩
      · rw [hmem f (by simp), hnode]
      · rw [hP]
      · rw [hQ]

/-- The block a path leads to is none of those above it or beside it. -/
theorem Located.fresh (h : Located heap root path pre e post)
    (hd : Distinct heap root path.length) :
    e.block ∉ blocksBelow heap root path.length ∧ e.block ∉ pre.map Entry.block ∧
      e.block ∉ post.map Entry.block := by
  have hlevel := h.level
  rw [Distinct, blocksBelow, hlevel, List.map_append, List.map_cons] at hd
  have hsplit := List.nodup_append.mp hd
  have hrow := List.nodup_append.mp hsplit.2.1
  have hcons := List.nodup_cons.mp hrow.2.1
  refine ⟨fun hmem => ?_, fun hmem => ?_, hcons.1⟩
  · exact hsplit.2.2 _ hmem e.block (by simp) rfl
  · exact hrow.2.2 _ hmem e.block (by simp) rfl

variable [DecidableEq β]

/-- Editing the node a path leads to replaces it on the level below and changes nothing
above. -/
theorem Located.edit (h : Located heap root path pre e post)
    (hd : Distinct heap root path.length) (es : List (Entry κ β)) :
    let heap' := Function.update heap e.block es
    Located heap' root path pre e post ∧
      (∀ m ≤ path.length, IndexForest.level heap' root m = IndexForest.level heap root m) ∧
      blocksBelow heap' root (path.length + 1) = blocksBelow heap root (path.length + 1) ∧
      descend heap' pre = descend heap pre ∧ descend heap' post = descend heap post ∧
      IndexForest.level heap' root (path.length + 1) =
        descend heap pre ++ es ++ descend heap post := by
  intro heap'
  obtain ⟨habove, hpre, hpost⟩ := h.fresh hd
  have hother : ∀ b, b ≠ e.block → heap' b = heap b := fun b hb =>
    Function.update_of_ne hb _ _
  have heq : ∀ b ∈ blocksBelow heap root path.length, heap' b = heap b := fun b hb =>
    hother b fun hbe => habove (hbe ▸ hb)
  have hdpre : descend heap' pre = descend heap pre :=
    descend_congr fun b hb => hother b fun hbe => hpre (hbe ▸ hb)
  have hdpost : descend heap' post = descend heap post :=
    descend_congr fun b hb => hother b fun hbe => hpost (hbe ▸ hb)
  have hself : heap' e.block = es := Function.update_self _ _ _
  refine ⟨h.congr heq, fun m hm => level_congr heq hm, blocksBelow_congr heq (Nat.le_refl _),
    hdpre, hdpost, ?_⟩
  rw [IndexForest.level, level_congr heq (Nat.le_refl _), h.level, descend_append, descend_cons,
    hdpre, hdpost, hself, List.append_assoc]

/-- Editing a node so that it still starts with its separator and fits keeps the nodes
well formed. -/
theorem NodesOk.edit {cap : Nat} (hok : NodesOk cap heap root path.length)
    (h : Located heap root path pre e post) (hd : Distinct heap root path.length)
    (hbeside : ∀ g ∈ pre ++ post, NodeOk cap heap g) {es : List (Entry κ β)}
    (hhead : es.head?.map Entry.key = some e.key) (hlen : es.length ≤ cap) :
    NodesOk cap (Function.update heap e.block es) root (path.length + 1) := by
  obtain ⟨habove, hpre, hpost⟩ := h.fresh hd
  obtain ⟨hloc, hlevels, -, -, -, -⟩ := h.edit hd es
  have hother : ∀ b, b ≠ e.block → Function.update heap e.block es b = heap b := fun b hb =>
    Function.update_of_ne hb _ _
  intro m hm g hg
  rw [hlevels m (by omega)] at hg
  rcases Nat.lt_succ_iff_lt_or_eq.mp hm with hlt | rfl
  · refine (hok m hlt g hg).congr (hother _ fun hbe => habove (hbe ▸ ?_))
    exact mem_blocksBelow_of_mem_level hlt hg
  · rw [h.level] at hg
    rcases List.mem_append.mp hg with hg | hg
    · refine (hbeside g (by simp [hg])).congr (hother _ fun hbe => hpre (hbe ▸ ?_))
      exact List.mem_map_of_mem hg
    · rcases List.mem_cons.mp hg with rfl | hg
      · exact ⟨by rw [Function.update_self]; exact hhead,
          by rw [Function.update_self]; exact hlen⟩
      · refine (hbeside g (by simp [hg])).congr (hother _ fun hbe => hpost (hbe ▸ ?_))
        exact List.mem_map_of_mem hg

end Located

/-! ## Renamed blocks

A copy of some nodes to other blocks, with the entries pointed there, is the same index
under other names of blocks. -/

/-- An entry with its block renamed. -/
def Entry.rename (r : β → β) (e : Entry κ β) : Entry κ β := ⟨e.key, r e.block⟩

/-- The nodes above level `n` are in `heap'` under other names. -/
def Renamed (r : β → β) (heap heap' : Heap κ β) (root : Entry κ β) (n : Nat) : Prop :=
  ∀ b ∈ blocksBelow heap root n, heap' (r b) = (heap b).map (Entry.rename r)

section Renamed

variable {r : β → β} {heap heap' : Heap κ β} {root e : Entry κ β} {n : Nat}

/-- The levels are the same but for the names. -/
theorem Renamed.level (h : Renamed r heap heap' root n) {m : Nat} (hm : m ≤ n) :
    level heap' (root.rename r) m = (level heap root m).map (Entry.rename r) := by
  induction m with
  | zero => rfl
  | succ m ih =>
      rw [IndexForest.level, IndexForest.level, ih (Nat.le_of_succ_le hm), descend, descend,
        List.flatMap_map, List.map_flatMap]
      refine List.flatMap_congr fun g hg => ?_
      exact h _ (mem_blocksBelow_of_mem_level hm hg)

/-- The blocks of the children of the nodes above a level are above the next one. -/
theorem mem_blocksBelow_of_child {b : β} (hb : b ∈ blocksBelow heap root n) {c : Entry κ β}
    (hc : c ∈ heap b) : c.block ∈ blocksBelow heap root (n + 1) := by
  induction n with
  | zero => exact absurd hb List.not_mem_nil
  | succ n ih =>
      rw [blocksBelow] at hb
      rcases List.mem_append.mp hb with hb | hb
      · exact List.mem_append_left _ (ih hb)
      · obtain ⟨g, hg, rfl⟩ := List.mem_map.mp hb
        refine List.mem_append_right _ (List.mem_map_of_mem ?_)
        exact List.mem_flatMap.mpr ⟨g, hg, hc⟩

/-- The blocks of a level are none of those above it. -/
theorem Distinct.row (h : Distinct heap root n) {g : Entry κ β} (hg : g ∈ level heap root n) :
    g.block ∉ blocksBelow heap root n := fun hmem =>
  (List.nodup_append.mp h).2.2 _ hmem _ (List.mem_map_of_mem hg) rfl

variable {path : List (Step β)} {pre post : List (Entry κ β)}

/-- The nodes of a path are above the entry it goes through. -/
theorem Located.step_mem (h : Located heap root path pre e post) :
    ∀ s ∈ path, s.block ∈ blocksBelow heap root path.length := by
  induction path generalizing pre e post with
  | nil => exact fun s hs => absurd hs List.not_mem_nil
  | cons s up ih =>
      obtain ⟨P, f, Q, A, C, hup, hblock, -, -, -, -⟩ := h
      intro t ht
      rcases List.mem_cons.mp ht with rfl | ht
      · rw [hblock]
        exact mem_blocksBelow_of_mem_level (Nat.lt_succ_self _) (by rw [hup.level]; simp)
      · exact List.mem_append_left _ (ih hup t ht)

/-- Only the node right above it has an entry with the block a path leads to. -/
theorem Located.child_ne {s : Step β} {up : List (Step β)}
    (h : Located heap root (s :: up) pre e post) (hd : Distinct heap root (up.length + 1)) {b : β}
    (hb : b ∈ blocksBelow heap root (up.length + 1)) (hne : b ≠ s.block) :
    ∀ c ∈ heap b, c.block ≠ e.block := by
  obtain ⟨habove, hpre, hpost⟩ := h.fresh hd
  obtain ⟨P, f, Q, A, C, hup, hblock, hnode, -, rfl, rfl⟩ := h
  intro c hc heq
  rw [blocksBelow] at hb
  rcases List.mem_append.mp hb with hb | hb
  · exact habove (heq ▸ mem_blocksBelow_of_child hb hc)
  · obtain ⟨g, hg, rfl⟩ := List.mem_map.mp hb
    rw [hup.level] at hg
    rcases List.mem_append.mp hg with hg | hg
    · refine hpre (heq ▸ List.mem_map_of_mem (List.mem_append_left _ ?_))
      exact List.mem_flatMap.mpr ⟨g, hg, hc⟩
    · rcases List.mem_cons.mp hg with rfl | hg
      · exact hne hblock.symm
      · refine hpost (heq ▸ List.mem_map_of_mem (List.mem_append_right _ ?_))
        exact List.mem_flatMap.mpr ⟨g, hg, hc⟩

end Renamed

/-! ## Marked paths

A walk over the leaves from left to right remembers, for each level, the block it has
left last.  `Trail` is a path with such marks: the block of a level is the one right
before the path, and a node whose first entry the path goes through has a mark where the
level below has one. -/

/-- The sequence ends at the marked block, where there is a mark. -/
def EndsAt (mark : Option β) (pre : List (Entry κ β)) : Prop :=
  ∀ b, mark = some b → ∃ pre' p, pre = pre' ++ [p] ∧ p.block = b

/-- A `Located` path with the marks of the levels it goes through. -/
def Trail (heap : Heap κ β) (root : Entry κ β) (marks : Nat → Option β) :
    List (Step β) → List (Entry κ β) → Entry κ β → List (Entry κ β) → Prop
  | [], pre, e, post => pre = [] ∧ e = root ∧ post = [] ∧ marks 0 = none
  | s :: up, pre, e, post =>
      ∃ P f Q A C, Trail heap root marks up P f Q ∧ s.block = f.block ∧
        heap f.block = A ++ e :: C ∧ s.next = A.length + 1 ∧
        pre = descend heap P ++ A ∧ post = C ++ descend heap Q ∧
        EndsAt (marks (up.length + 1)) pre ∧
        (A = [] → marks (up.length + 1) ≠ none → marks up.length ≠ none)

section Trail

variable {heap : Heap κ β} {root e : Entry κ β} {marks : Nat → Option β}
  {path : List (Step β)} {pre post : List (Entry κ β)}

theorem Trail.located (h : Trail heap root marks path pre e post) :
    Located heap root path pre e post := by
  induction path generalizing pre e post with
  | nil => exact ⟨h.1, h.2.1, h.2.2.1⟩
  | cons s up ih =>
      obtain ⟨P, f, Q, A, C, hup, hblock, hnode, hnext, hpre, hpost, -, -⟩ := h
      exact ⟨P, f, Q, A, C, ih hup, hblock, hnode, hnext, hpre, hpost⟩

/-- Without marks any path will do. -/
theorem Located.trail (h : Located heap root path pre e post) :
    Trail heap root (fun _ => none) path pre e post := by
  induction path generalizing pre e post with
  | nil => exact ⟨h.1, h.2.1, h.2.2, rfl⟩
  | cons s up ih =>
      obtain ⟨P, f, Q, A, C, hup, hblock, hnode, hnext, hpre, hpost⟩ := h
      exact ⟨P, f, Q, A, C, ih hup, hblock, hnode, hnext, hpre, hpost, by simp [EndsAt], by simp⟩

/-- A trail depends only on the nodes above its entry, and on the marks down to it. -/
theorem Trail.congr {heap' : Heap κ β} {marks' : Nat → Option β}
    (h : Trail heap root marks path pre e post)
    (heq : ∀ b ∈ blocksBelow heap root path.length, heap' b = heap b)
    (hmarks : ∀ m ≤ path.length, marks' m = marks m) :
    Trail heap' root marks' path pre e post := by
  induction path generalizing pre e post with
  | nil => exact ⟨h.1, h.2.1, h.2.2.1, (hmarks 0 (Nat.le_refl _)).trans h.2.2.2⟩
  | cons s up ih =>
      obtain ⟨P, f, Q, A, C, hup, hblock, hnode, hnext, rfl, rfl, hends, hfirst⟩ := h
      have hup' := ih hup (fun b hb => heq b (List.mem_append_left _ hb)) fun m hm =>
        hmarks m (Nat.le_succ_of_le hm)
      have hmem : ∀ g ∈ P ++ f :: Q, heap' g.block = heap g.block := fun g hg =>
        heq _ (mem_blocksBelow_of_mem_level (Nat.lt_succ_self up.length)
          (hup.located.level ▸ hg))
      have hP : descend heap' P = descend heap P := descend_congr fun b hb => by
        obtain ⟨g, hg, rfl⟩ := List.mem_map.mp hb
        exact hmem g (by simp [hg])
      have hQ : descend heap' Q = descend heap Q := descend_congr fun b hb => by
        obtain ⟨g, hg, rfl⟩ := List.mem_map.mp hb
        exact hmem g (by simp [hg])
      have hhere : marks' (up.length + 1) = marks (up.length + 1) := hmarks _ (Nat.le_refl _)
      have habove : marks' up.length = marks up.length := hmarks _ (Nat.le_succ _)
      refine ⟨P, f, Q, A, C, hup', hblock, by rw [hmem f (by simp), hnode], hnext, by rw [hP],
        by rw [hQ], ?_, ?_⟩
      · rw [hhere]
        exact hends
      · rw [hhere, habove]
        exact hfirst

/-- A trail one level down, in a heap where the nodes beside its node are as before. -/
theorem Trail.down {heap' : Heap κ β} {s : Step β} {up : List (Step β)}
    {P Q A C : List (Entry κ β)} {f e' : Entry κ β}
    (hup : Trail heap' root marks up P f Q) (hblock : s.block = f.block)
    (hnode : heap' f.block = A ++ e' :: C) (hnext : s.next = A.length + 1)
    (hrow : ∀ x ∈ P ++ Q, heap' x.block = heap x.block)
    (hends : EndsAt (marks (up.length + 1)) (descend heap P ++ A))
    (hfirst : A = [] → marks (up.length + 1) ≠ none → marks up.length ≠ none) :
    Trail heap' root marks (s :: up) (descend heap P ++ A) e' (C ++ descend heap Q) := by
  have hP : descend heap' P = descend heap P := descend_congr_of_mem fun x hx => hrow x (by simp [hx])
  have hQ : descend heap' Q = descend heap Q := descend_congr_of_mem fun x hx => hrow x (by simp [hx])
  exact ⟨P, f, Q, A, C, hup, hblock, hnode, hnext, by rw [hP], by rw [hQ], hends, hfirst⟩

variable [DecidableEq β]

/-- Replacing the entry a trail goes through, in the node above it. -/
theorem Trail.setEntry {s : Step β} {up : List (Step β)}
    (h : Trail heap root marks (s :: up) pre e post) (hd : Distinct heap root up.length) :
    ∃ P f Q A C, Trail heap root marks up P f Q ∧ s.block = f.block ∧
      heap f.block = A ++ e :: C ∧ s.next = A.length + 1 ∧
      pre = descend heap P ++ A ∧ post = C ++ descend heap Q ∧
      ∀ e', Trail (Function.update heap f.block (A ++ e' :: C)) root marks (s :: up) pre e' post := by
  obtain ⟨P, f, Q, A, C, hup, hblock, hnode, hnext, rfl, rfl, hends, hfirst⟩ := h
  refine ⟨P, f, Q, A, C, hup, hblock, hnode, hnext, rfl, rfl, fun e' => ?_⟩
  obtain ⟨-, -, -, hP, hQ, -⟩ := hup.located.edit hd (A ++ e' :: C)
  have hup' : Trail (Function.update heap f.block (A ++ e' :: C)) root marks up P f Q :=
    hup.congr (fun b hb => Function.update_of_ne
      (fun hbf => (hup.located.fresh hd).1 ((show b = f.block from hbf) ▸ hb)) _ _) fun _ _ => rfl
  exact ⟨P, f, Q, A, C, hup', hblock, Function.update_self _ _ _, hnext, by rw [hP], by rw [hQ],
    hends, hfirst⟩

end Trail

end IndexForest
