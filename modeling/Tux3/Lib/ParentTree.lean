/-
  Lib/ParentTree.lean --- trees of parent pointers.

  A set of nodes is a tree when each of them but the root has a parent in the set and depths are
  one more than those of the parents.  Edits of the pointers (`addLeaf`, `removeLeaf`, `addTop`,
  `promote`) keep it a tree.  A walk over lists of children visits just the nodes below the one
  that it begins with.
-/
import Mathlib.Data.List.Nodup
import Mathlib.Data.List.Range
import Mathlib.Logic.Function.Basic
import Tux3.Lib.Outcome

set_option autoImplicit false

namespace ParentTree

open Outcome (bind_eq_ok bind_of_ok)

variable {V : Type}

/-- `i` is on the path from `v` up to the root, which is not part of it. -/
inductive OnPath (root : V) (parent : V → V) : V → V → Prop
  | self {v : V} (hv : v ≠ root) : OnPath root parent v v
  | up {v i : V} (hv : v ≠ root) (h : OnPath root parent (parent v) i) : OnPath root parent v i

/-- The nodes are a tree of these depths. -/
structure IsTree (root : V) (parent : V → V) (In : V → Prop) (depth : V → Nat) : Prop where
  root_in : In root
  parent_in : ∀ v, In v → v ≠ root → In (parent v)
  depth_root : depth root = 0
  depth_eq : ∀ v, In v → v ≠ root → depth v = depth (parent v) + 1

section Trees

variable {root v i p c r old : V} {parent parent' : V → V} {In In' : V → Prop}
  {depth depth' : V → Nat}

/-! ## Paths -/

theorem OnPath.ne_root (h : OnPath root parent v i) : i ≠ root := by
  induction h with
  | self hv => exact hv
  | up _ _ ih => exact ih

theorem OnPath.start_ne (h : OnPath root parent v i) : v ≠ root := by
  cases h with
  | self hv => exact hv
  | up hv _ => exact hv

/-- The path goes on from a node that is on it. -/
theorem OnPath.extend (h : OnPath root parent v i) (hi : parent i ≠ root) :
    OnPath root parent v (parent i) := by
  induction h with
  | self hv => exact .up hv (.self hi)
  | up hv _ ih => exact .up hv (ih hi)

/-- A path is a matter of the parents on it. -/
theorem OnPath.congr (h : OnPath root parent v i)
    (heq : ∀ u, OnPath root parent v u → parent' u = parent u) : OnPath root parent' v i := by
  induction h with
  | self hv => exact .self hv
  | @up v i hv _ ih =>
      refine .up hv ?_
      rw [heq v (.self hv)]
      exact ih fun u hu => heq u (.up hv hu)

theorem onPath_congr (heq : ∀ u, OnPath root parent v u → parent' u = parent u) :
    OnPath root parent' v i ↔ OnPath root parent v i := by
  refine ⟨fun h => ?_, fun h => h.congr heq⟩
  induction h with
  | self hv => exact .self hv
  | @up v i hv _ ih =>
      have hparent := heq v (.self hv)
      rw [hparent] at ih
      exact .up hv (ih fun u hu => heq u (.up hv hu))

theorem onPath_root : ¬ OnPath root parent root i := fun h => h.start_ne rfl

theorem onPath_iff (hv : v ≠ root) :
    OnPath root parent v i ↔ i = v ∨ OnPath root parent (parent v) i := by
  constructor
  · intro h
    cases h with
    | self => exact .inl rfl
    | up _ h => exact .inr h
  · rintro (rfl | h)
    · exact .self hv
    · exact .up hv h

/-! ## Trees -/

variable (h : IsTree root parent In depth)

include h

theorem IsTree.depth_pos (hin : In v) (hv : v ≠ root) : 0 < depth v := by
  rw [h.depth_eq v hin hv]
  exact Nat.succ_pos _

/-- What holds of the root and goes down from parents holds of each node. -/
theorem IsTree.induction {P : V → Prop} (hroot : P root)
    (hstep : ∀ v, In v → v ≠ root → P (parent v) → P v) (hin : In v) : P v := by
  generalize hd : depth v = d
  induction d generalizing v with
  | zero =>
      by_cases hv : v = root
      · exact hv ▸ hroot
      · exact absurd hd (Nat.ne_of_gt (h.depth_pos hin hv))
  | succ d ih =>
      by_cases hv : v = root
      · exact hv ▸ hroot
      · refine hstep v hin hv (ih (h.parent_in v hin hv) ?_)
        have hdepth := h.depth_eq v hin hv
        omega

theorem IsTree.onPath_in (hin : In v) (hi : OnPath root parent v i) : In i := by
  induction hi with
  | self _ => exact hin
  | up hv _ ih => exact ih (h.parent_in _ hin hv)

theorem IsTree.onPath_depth_le (hin : In v) (hi : OnPath root parent v i) : depth i ≤ depth v := by
  induction hi with
  | self _ => exact Nat.le_refl _
  | @up v i hv _ ih =>
      have hle := ih (h.parent_in v hin hv)
      have hdepth := h.depth_eq v hin hv
      omega

/-- The path from the parent does not come back. -/
theorem IsTree.not_onPath_parent (hin : In v) (hv : v ≠ root) :
    ¬ OnPath root parent (parent v) v := by
  intro hup
  have hle := h.onPath_depth_le (h.parent_in v hin hv) hup
  have hdepth := h.depth_eq v hin hv
  omega

/-- The nodes of a path have different depths. -/
theorem IsTree.eq_of_depth_le (hin : In v) (hi : OnPath root parent v i)
    (hle : depth v ≤ depth i) : i = v := by
  cases hi with
  | self _ => rfl
  | up hv hup =>
      have hpath := h.onPath_depth_le (h.parent_in v hin hv) hup
      have hdepth := h.depth_eq v hin hv
      omega

theorem IsTree.congr (hin : ∀ v, In' v ↔ In v)
    (hparent : ∀ v, In v → v ≠ root → parent' v = parent v) (hdepth : ∀ v, In v → depth' v = depth v) :
    IsTree root parent' In' depth' := by
  refine ⟨(hin root).2 h.root_in, fun v hv hne => ?_, ?_, fun v hv hne => ?_⟩
  · rw [hparent v ((hin v).1 hv) hne]
    exact (hin _).2 (h.parent_in v ((hin v).1 hv) hne)
  · rw [hdepth root h.root_in]
    exact h.depth_root
  · have hv' := (hin v).1 hv
    rw [hparent v hv' hne, hdepth v hv', hdepth _ (h.parent_in v hv' hne)]
    exact h.depth_eq v hv' hne

/-- There is only one way to count the depths. -/
theorem IsTree.depth_unique (h' : IsTree root parent In depth') (hin : In v) :
    depth' v = depth v := by
  refine h.induction (P := fun v => depth' v = depth v) ?_ (fun v hv hne ih => ?_) hin
  · rw [h.depth_root, h'.depth_root]
  · rw [h.depth_eq v hv hne, h'.depth_eq v hv hne, ih]

/-- A path has as many nodes as its length says, all different. -/
theorem IsTree.exists_ancestors (hin : In v) :
    ∃ l : List V, l.length = depth v + 1 ∧ l.Nodup ∧ ∀ u ∈ l, In u ∧ depth u ≤ depth v := by
  refine h.induction (P := fun v => ∃ l : List V, l.length = depth v + 1 ∧ l.Nodup ∧
    ∀ u ∈ l, In u ∧ depth u ≤ depth v) ?_ (fun v hv hne ih => ?_) hin
  · refine ⟨[root], by rw [h.depth_root]; rfl, List.nodup_singleton _, fun u hu => ?_⟩
    rw [List.mem_singleton.1 hu]
    exact ⟨h.root_in, Nat.le_refl _⟩
  · obtain ⟨l, hlen, hnodup, hall⟩ := ih
    have hdepth := h.depth_eq v hv hne
    refine ⟨v :: l, by rw [List.length_cons, hlen, hdepth], List.nodup_cons.2 ⟨fun hmem => ?_,
      hnodup⟩, fun u hu => ?_⟩
    · have hle := (hall v hmem).2
      omega
    · rcases List.mem_cons.1 hu with rfl | hu
      · exact ⟨hv, Nat.le_refl _⟩
      · have hu' := hall u hu
        exact ⟨hu'.1, by omega⟩

/-! ## Edits -/

theorem IsTree.removeLeaf (hc : c ≠ root) (hleaf : ∀ v, In v → v ≠ root → parent v ≠ c) :
    IsTree root parent (fun v => In v ∧ v ≠ c) depth :=
  ⟨⟨h.root_in, hc.symm⟩, fun v hv hne => ⟨h.parent_in v hv.1 hne, hleaf v hv.1 hne⟩,
    h.depth_root, fun v hv hne => h.depth_eq v hv.1 hne⟩

section Edits

variable [DecidableEq V]

theorem IsTree.addLeaf (hp : In p) (hc : ¬ In c) :
    IsTree root (Function.update parent c p) (fun v => In v ∨ v = c)
      (Function.update depth c (depth p + 1)) := by
  have hne {v : V} (hv : In v) : v ≠ c := fun heq => hc (heq ▸ hv)
  refine ⟨.inl h.root_in, ?_, ?_, ?_⟩
  · rintro v (hv | rfl) hroot
    · rw [Function.update_of_ne (hne hv)]
      exact .inl (h.parent_in v hv hroot)
    · rw [Function.update_self]
      exact .inl hp
  · rw [Function.update_of_ne (hne h.root_in)]
    exact h.depth_root
  · rintro v (hv | rfl) hroot
    · rw [Function.update_of_ne (hne hv), Function.update_of_ne (hne hv),
        Function.update_of_ne (hne (h.parent_in v hv hroot))]
      exact h.depth_eq v hv hroot
    · rw [Function.update_self, Function.update_self, Function.update_of_ne (hne hp)]

/-- A node is put between the root and its only child. -/
theorem IsTree.addTop (hr : ¬ In r) (hold : In old)
    (honly : ∀ v, In v → v ≠ root → (parent v = root ↔ v = old)) :
    IsTree root (Function.update (Function.update parent r root) old r)
      (fun v => In v ∨ v = r) (fun v => if v = root then 0 else if v = r then 1 else depth v + 1) := by
  have hne {v : V} (hv : In v) : v ≠ r := fun heq => hr (heq ▸ hv)
  have hrroot : r ≠ root := (hne h.root_in).symm
  have hrold : r ≠ old := (hne hold).symm
  refine ⟨.inl h.root_in, ?_, if_pos rfl, ?_⟩
  · rintro v (hv | rfl) hroot
    · by_cases heq : v = old
      · rw [heq, Function.update_self]
        exact .inr rfl
      · rw [Function.update_of_ne heq, Function.update_of_ne (hne hv)]
        exact .inl (h.parent_in v hv hroot)
    · rw [Function.update_of_ne hrold, Function.update_self]
      exact .inl h.root_in
  · rintro v (hv | rfl) hroot
    · by_cases heq : v = old
      · have hdepth := h.depth_eq v hv hroot
        rw [(honly v hv hroot).2 heq, h.depth_root] at hdepth
        rw [if_neg hroot, if_neg (hne hv), hdepth, heq, Function.update_self, if_neg hrroot,
          if_pos rfl]
      · rw [Function.update_of_ne heq, Function.update_of_ne (hne hv), if_neg hroot,
          if_neg (hne hv), if_neg (fun hp => heq ((honly v hv hroot).1 hp)),
          if_neg (hne (h.parent_in v hv hroot)), h.depth_eq v hv hroot]
    · rw [if_neg hroot, if_pos rfl, Function.update_of_ne hrold, Function.update_self, if_pos rfl]

open Classical in
/-- A node takes the place of its parent, whose only child it is. -/
theorem IsTree.promote (hc : In c) (hcroot : c ≠ root) (hproot : parent c ≠ root)
    (honly : ∀ v, In v → v ≠ root → parent v = parent c → v = c) :
    IsTree root (Function.update parent c (parent (parent c))) (fun v => In v ∧ v ≠ parent c)
      (fun v => if OnPath root parent v c then depth v - 1 else depth v) := by
  have hp := h.parent_in c hc hcroot
  have hpc : parent c ≠ parent (parent c) := by
    intro heq
    have hdepth := h.depth_eq _ hp hproot
    rw [← heq] at hdepth
    omega
  have hoff : ¬ OnPath root parent (parent c) c := h.not_onPath_parent hc hcroot
  have hoff' : ¬ OnPath root parent (parent (parent c)) c := fun hup => hoff (.up hproot hup)
  refine ⟨⟨h.root_in, hproot.symm⟩, ?_, ?_, ?_⟩
  · rintro v ⟨hv, hne⟩ hroot
    by_cases heq : v = c
    · rw [heq, Function.update_self]
      exact ⟨h.parent_in _ hp hproot, hpc.symm⟩
    · rw [Function.update_of_ne heq]
      exact ⟨h.parent_in v hv hroot, fun hpar => heq (honly v hv hroot hpar)⟩
  · rw [if_neg onPath_root]
    exact h.depth_root
  · rintro v ⟨hv, hne⟩ hroot
    have hdepth := h.depth_eq v hv hroot
    by_cases heq : v = c
    · have hdepthp := h.depth_eq _ hp hproot
      rw [heq] at hdepth ⊢
      rw [Function.update_self, if_pos (.self hcroot), if_neg hoff']
      omega
    · rw [Function.update_of_ne heq]
      by_cases hbelow : OnPath root parent (parent v) c
      · have hpos := h.depth_pos (h.parent_in v hv hroot) hbelow.start_ne
        rw [if_pos (.up hroot hbelow), if_pos hbelow]
        omega
      · have hbelow' : ¬ OnPath root parent v c := by
          rw [onPath_iff hroot]
          rintro (rfl | hup)
          · exact heq rfl
          · exact hbelow hup
        rw [if_neg hbelow', if_neg hbelow, hdepth]

end Edits

end Trees

/-! ## Children -/

/-- The lists of the children of each node. -/
structure ListsKids (root : V) (parent : V → V) (In : V → Prop) (kids : V → List V) : Prop where
  mem : ∀ v c, c ∈ kids v ↔ c ≠ root ∧ In c ∧ parent c = v
  nodup : ∀ v, (kids v).Nodup

/-- `u` is `v`, or lies below it. -/
inductive Below (kids : V → List V) : V → V → Prop
  | self (v : V) : Below kids v v
  | step {v c u : V} (hc : c ∈ kids v) (h : Below kids c u) : Below kids v u

section Kids

variable {root v u c r : V} {parent : V → V} {In : V → Prop} {depth : V → Nat}
  {kids : V → List V}

theorem Below.tail (h : Below kids v u) (hc : c ∈ kids u) : Below kids v c := by
  induction h with
  | self v => exact .step hc (.self c)
  | step hmem _ ih => exact .step hmem (ih hc)

theorem Below.eq_or_mem (h : Below kids v u) : u = v ∨ ∃ w, u ∈ kids w := by
  induction h with
  | self v => exact .inl rfl
  | @step v c u hc _ ih =>
      rcases ih with rfl | hmem
      · exact .inr ⟨v, hc⟩
      · exact .inr hmem

theorem ListsKids.parent_in (hkids : ListsKids root parent In kids)
    (h : IsTree root parent In depth) (hc : c ∈ kids v) : In v := by
  obtain ⟨hroot, hin, rfl⟩ := (hkids.mem v c).1 hc
  exact h.parent_in c hin hroot

theorem ListsKids.congr {parent' : V → V} {In' : V → Prop} {kids' : V → List V}
    (hkids : ListsKids root parent In kids)
    (hmem : ∀ v c, c ∈ kids' v ↔ c ≠ root ∧ In' c ∧ parent' c = v)
    (hnodup : ∀ v, kids' v = kids v ∨ (kids' v).Nodup) : ListsKids root parent' In' kids' :=
  ⟨hmem, fun v => (hnodup v).elim (fun heq => heq ▸ hkids.nodup v) id⟩

/-- What lies below a node has the node on its path. -/
theorem below_iff (h : IsTree root parent In depth) (hkids : ListsKids root parent In kids)
    (hin : In v) (hv : v ≠ root) : Below kids v u ↔ In u ∧ OnPath root parent u v := by
  constructor
  · intro hbelow
    induction hbelow with
    | self v => exact ⟨hin, .self hv⟩
    | step hc _ ih =>
        obtain ⟨hroot, hinc, hpar⟩ := (hkids.mem _ _).1 hc
        obtain ⟨hinu, hpath⟩ := ih hinc hroot
        exact ⟨hinu, hpar ▸ hpath.extend (hpar ▸ hv)⟩
  · rintro ⟨hinu, hpath⟩
    induction hpath with
    | @self u hu => exact .self u
    | @up u i hu hpath ih =>
        have hparin := h.parent_in u hinu hu
        exact (ih hin hv hparin).tail ((hkids.mem _ _).2 ⟨hu, hinu, rfl⟩)

/-- All nodes but the root lie below its only child. -/
theorem below_top_iff (h : IsTree root parent In depth) (hkids : ListsKids root parent In kids)
    (honly : kids root = [r]) : Below kids r u ↔ In u ∧ u ≠ root := by
  obtain ⟨hr, hrin, -⟩ := (hkids.mem root r).1 (by rw [honly]; exact List.mem_singleton_self r)
  rw [below_iff h hkids hrin hr]
  refine ⟨fun hu => ⟨hu.1, hu.2.start_ne⟩, fun hu => ⟨hu.1, ?_⟩⟩
  refine h.induction (P := fun u => u ≠ root → OnPath root parent u r)
    (fun hne => absurd rfl hne) (fun u hin hne ih _ => ?_) hu.1 hu.2
  by_cases hpar : parent u = root
  · have hmem := (hkids.mem root u).2 ⟨hne, hin, hpar⟩
    rw [honly, List.mem_singleton] at hmem
    exact hmem ▸ .self hne
  · exact .up hne (ih hpar)

end Kids

/-! ## Walks -/

section Walks

variable {ε σ β : Type} {v : V} {kids : V → List V}

/-- A walk over a node and all below it, not more levels deep than given. -/
def walk (kids : V → List V) (visit : V → σ → Except ε σ) (deep : ε) :
    Nat → V → σ → Except ε σ
  | 0, _, _ => .error deep
  | n + 1, v, s => do
      let s ← visit v s
      (kids v).foldlM (fun s c => walk kids visit deep n c s) s

theorem foldlM_congr {f g : σ → V → Except ε σ} {l : List V}
    (h : ∀ c ∈ l, ∀ s, f s c = g s c) (s : σ) : l.foldlM f s = l.foldlM g s := by
  induction l generalizing s with
  | nil => rfl
  | cons c l ih =>
      rw [List.foldlM_cons, List.foldlM_cons, h c List.mem_cons_self]
      exact congrArg _ (funext fun s' => ih (fun c' hc' => h c' (List.mem_cons_of_mem _ hc')) s')

/-- A recursion that visits a node and then goes on with its children is a walk. -/
theorem eq_walk {visit : V → σ → Except ε σ} {deep : ε} (F : Nat → V → σ → Except ε σ)
    (In : V → Prop) (hkids : ∀ v c, c ∈ kids v → In c) (hzero : ∀ v s, F 0 v s = .error deep)
    (hsucc : ∀ n v s, In v → F (n + 1) v s =
      (visit v s >>= fun s => (kids v).foldlM (fun s c => F n c s) s))
    (n : Nat) (s : σ) (hin : In v) : F n v s = walk kids visit deep n v s := by
  induction n generalizing v s with
  | zero => exact hzero v s
  | succ n ih =>
      rw [hsucc n v s hin, walk]
      exact congrArg _ (funext (foldlM_congr fun c hc s' => ih s' (hkids v c hc)))

/-- A walk ends well where all visits do and the tree is not deeper than it goes. -/
theorem walk_ok {In : V → Prop} {depth : V → Nat} {visit : V → σ → Except ε σ} {deep : ε}
    {I : σ → Prop} {m n : Nat} (hvisit : ∀ v s, In v → I s → ∃ s', visit v s = .ok s' ∧ I s')
    (hkids : ∀ v c, c ∈ kids v → In c) (hdepth : ∀ v c, c ∈ kids v → depth c = depth v + 1)
    (hlt : ∀ v, In v → depth v < m) (hin : In v) (hn : m ≤ depth v + n) {s : σ} (hs : I s) :
    ∃ s', walk kids visit deep n v s = .ok s' ∧ I s' := by
  induction n generalizing v s with
  | zero => exact absurd (hlt v hin) (Nat.not_lt_of_le hn)
  | succ n ih =>
      have hloop (l : List V) (hl : l ⊆ kids v) (s : σ) (hs : I s) :
          ∃ s', l.foldlM (fun s c => walk kids visit deep n c s) s = .ok s' ∧ I s' := by
        induction l generalizing s with
        | nil => exact ⟨s, rfl, hs⟩
        | cons c l ihl =>
            obtain ⟨hc, hl⟩ := List.cons_subset.1 hl
            have hcd := hdepth v c hc
            obtain ⟨mid, hmid, hImid⟩ := ih (hkids v c hc) (by omega) hs
            obtain ⟨s', hs', hI'⟩ := ihl hl mid hImid
            refine ⟨s', ?_, hI'⟩
            rw [List.foldlM_cons, bind_of_ok hmid]
            exact hs'
      obtain ⟨mid, hmid, hImid⟩ := hvisit v s hin hs
      obtain ⟨s', hs', hI'⟩ := hloop (kids v) (List.Subset.refl _) mid hImid
      exact ⟨s', (bind_of_ok hmid).trans hs', hI'⟩

variable [DecidableEq V] {visit : V → (V → β) → Except ε (V → β)} {deep : ε}

/-- A walk whose visits set the value of the node, once and for all, sets those of all nodes below
and no others. -/
theorem walk_spec (set : V → β → β)
    (hvisit : ∀ v s s', visit v s = .ok s' → s' = Function.update s v (set v (s v)))
    (hset : ∀ v x, set v (set v x) = set v x) {n : Nat} {s s' : V → β}
    (hwalk : walk kids visit deep n v s = .ok s') (u : V) :
    (Below kids v u → s' u = set u (s u)) ∧ (¬ Below kids v u → s' u = s u) := by
  induction n generalizing v s s' with
  | zero => cases hwalk
  | succ n ih =>
      -- the nodes below the first children of the list are done
      have hloop (l : List V) (s s' : V → β)
          (hl : l.foldlM (fun s c => walk kids visit deep n c s) s = .ok s') :
          ((∃ c ∈ l, Below kids c u) → s' u = set u (s u)) ∧
          ((¬ ∃ c ∈ l, Below kids c u) → s' u = s u) := by
        induction l generalizing s with
        | nil =>
            obtain rfl : s = s' := Except.ok.inj hl
            exact ⟨fun ⟨c, hc, _⟩ => absurd hc List.not_mem_nil, fun _ => rfl⟩
        | cons c l ihl =>
            rw [List.foldlM_cons] at hl
            obtain ⟨mid, hc, hl⟩ := bind_eq_ok.1 hl
            obtain ⟨hin, hout⟩ := ih hc
            obtain ⟨hinl, houtl⟩ := ihl mid hl
            constructor
            · rintro ⟨c', hc', hbelow⟩
              by_cases hhere : Below kids c u
              · by_cases hthere : ∃ c ∈ l, Below kids c u
                · rw [hinl hthere, hin hhere, hset]
                · rw [houtl hthere, hin hhere]
              · rcases List.mem_cons.1 hc' with rfl | hmem
                · exact absurd hbelow hhere
                · rw [hinl ⟨c', hmem, hbelow⟩, hout hhere]
            · intro hnot
              rw [houtl fun ⟨c', hc', hb⟩ => hnot ⟨c', List.mem_cons_of_mem _ hc', hb⟩,
                hout fun hb => hnot ⟨c, List.mem_cons_self, hb⟩]
      obtain ⟨mid, hmid, hfold⟩ := bind_eq_ok.1 hwalk
      obtain rfl := hvisit v s mid hmid
      obtain ⟨hin, hout⟩ := hloop (kids v) _ s' hfold
      by_cases hbelow : ∃ c ∈ kids v, Below kids c u
      · obtain ⟨c, hc, hcu⟩ := hbelow
        refine ⟨fun _ => ?_, fun hnot => absurd (.step hc hcu) hnot⟩
        rw [hin ⟨c, hc, hcu⟩]
        by_cases heq : u = v
        · rw [heq, Function.update_self, hset]
        · rw [Function.update_of_ne heq]
      · rw [hout hbelow]
        constructor
        · intro hb
          cases hb with
          | self => rw [Function.update_self]
          | step hc hcu => exact absurd ⟨_, hc, hcu⟩ hbelow
        · intro hb
          have hne : u ≠ v := fun heq => hb (by rw [heq]; exact .self v)
          exact Function.update_of_ne hne _ _

end Walks

end ParentTree
