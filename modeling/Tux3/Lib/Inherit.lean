/-
  Lib/Inherit.lean --- what the nodes of a parent tree inherit.

  Some nodes own a value.  A node without one has that of its nearest ancestor that owns one, and
  none where not any does.  The heirs of a node are those below it, down to the next ones that own
  a value.  An edit of the tree or of what is owned leaves alone what the other nodes inherit.
-/
import Tux3.Lib.ParentTree

set_option autoImplicit false

namespace ParentTree

variable {V C : Type}

/-- The value that a node has: its own, or that of the nearest ancestor that owns one. -/
inductive Inherits (root : V) (parent : V → V) (own : V → Option C) : V → Option C → Prop
  | root : Inherits root parent own root none
  | own {v : V} {c : C} (hv : v ≠ root) (h : own v = some c) : Inherits root parent own v (some c)
  | up {v : V} {x : Option C} (hv : v ≠ root) (h : own v = none)
      (hup : Inherits root parent own (parent v) x) : Inherits root parent own v x

/-- `u` inherits what `v` has. -/
inductive Heir (root : V) (parent : V → V) (own : V → Option C) (v : V) : V → Prop
  | child {u : V} (hu : u ≠ root) (h : own u = none) (hp : parent u = v) : Heir root parent own v u
  | up {u : V} (hu : u ≠ root) (h : own u = none) (hup : Heir root parent own v (parent u)) :
      Heir root parent own v u

section Inherits

variable {root v u w a s t p c r old : V} {parent parent' : V → V} {own own' : V → Option C}
  {In : V → Prop} {depth : V → Nat} {x y : Option C} {d : C}

theorem Inherits.unique (h : Inherits root parent own v x) (h' : Inherits root parent own v y) :
    x = y := by
  induction h with
  | root =>
      cases h' with
      | root => rfl
      | own hv _ => exact absurd rfl hv
      | up hv _ _ => exact absurd rfl hv
  | own hv hown =>
      cases h' with
      | root => exact absurd rfl hv
      | own _ hown' => exact hown.symm.trans hown'
      | up _ hown' _ => rw [hown] at hown'; cases hown'
  | up hv hown _ ih =>
      cases h' with
      | root => exact absurd rfl hv
      | own _ hown' => rw [hown] at hown'; cases hown'
      | up _ _ hup' => exact ih hup'

theorem IsTree.exists_inherits (h : IsTree root parent In depth) (own : V → Option C) (hin : In v) :
    ∃ x, Inherits root parent own v x := by
  refine h.induction (P := fun v => ∃ x, Inherits root parent own v x) ⟨none, .root⟩
    (fun v _ hv ih => ?_) hin
  cases hown : own v with
  | some d => exact ⟨some d, .own hv hown⟩
  | none =>
      obtain ⟨x, hup⟩ := ih
      exact ⟨x, .up hv hown hup⟩

theorem Inherits.root_eq (h : Inherits root parent own root x) : x = none := h.unique .root

theorem Inherits.own_eq (h : Inherits root parent own v x) (hv : v ≠ root) (hown : own v = some d) :
    x = some d := h.unique (.own hv hown)

/-- A value comes from a node of the tree that owns it. -/
theorem IsTree.owner_in (h : IsTree root parent In depth) (hin : In v)
    (hx : Inherits root parent own v (some d)) : ∃ u, In u ∧ u ≠ root ∧ own u = some d := by
  generalize heq : some d = x at hx
  induction hx with
  | root => cases heq
  | own hv hown =>
      cases heq
      exact ⟨_, hin, hv, hown⟩
  | up hv _ _ ih => exact ih (h.parent_in _ hin hv) heq

/-! ## Heirs -/

theorem Heir.own_none (h : Heir root parent own v u) : own u = none := by
  cases h with
  | child _ h _ => exact h
  | up _ h _ => exact h

theorem Heir.ne_root (h : Heir root parent own v u) : u ≠ root := by
  cases h with
  | child hu _ _ => exact hu
  | up hu _ _ => exact hu

theorem Heir.trans (h : Heir root parent own v u) (h' : Heir root parent own u w) :
    Heir root parent own v w := by
  induction h' with
  | child hw hown hp => exact .up hw hown (hp ▸ h)
  | up hw hown _ ih => exact .up hw hown ih

theorem Heir.inherits (h : Heir root parent own v u) (hv : Inherits root parent own v x) :
    Inherits root parent own u x := by
  induction h with
  | child hu hown hp => exact .up hu hown (hp ▸ hv)
  | up hu hown _ ih => exact .up hu hown ih

/-- The heirs of an owner are those that have its value, besides itself. -/
theorem heir_iff (hv : v ≠ root) (hown : own v = some d)
    (honly : ∀ u, own u = some d → u = v) :
    Heir root parent own v u ↔ Inherits root parent own u (some d) ∧ u ≠ v := by
  constructor
  · intro h
    refine ⟨h.inherits (.own hv hown), fun heq => ?_⟩
    have hnone := h.own_none
    rw [heq, hown] at hnone
    cases hnone
  · rintro ⟨h, hne⟩
    generalize heq : some d = x at h
    induction h with
    | root => cases heq
    | own hu hown' =>
        cases heq
        exact absurd (honly _ hown') hne
    | @up u x hu hnone _ ih =>
        by_cases hp : parent u = v
        · exact .child hu hnone hp
        · exact .up hu hnone (ih hp heq)

theorem heir_root_iff :
    Heir root parent own root u ↔ Inherits root parent own u none ∧ u ≠ root := by
  constructor
  · exact fun h => ⟨h.inherits .root, h.ne_root⟩
  · rintro ⟨h, hne⟩
    generalize heq : (none : Option C) = x at h
    induction h with
    | root => exact absurd rfl hne
    | own hu _ => cases heq
    | @up u x hu hnone _ ih =>
        by_cases hp : parent u = root
        · exact .child hu hnone hp
        · exact .up hu hnone (ih hp heq)

/-- An heir lies below a child that owns nothing. -/
theorem IsTree.heir_child (h : IsTree root parent In depth) (hin : In u)
    (hu : Heir root parent own v u) : ∃ c, In c ∧ c ≠ root ∧ parent c = v ∧ own c = none ∧
      (u = c ∨ Heir root parent own c u) := by
  induction hu with
  | child hroot hown hp => exact ⟨_, hin, hroot, hp, hown, .inl rfl⟩
  | up hroot hown _ ih =>
      obtain ⟨c, hc, hc0, hcp, hcown, hor⟩ := ih (h.parent_in _ hin hroot)
      refine ⟨c, hc, hc0, hcp, hcown, .inr ?_⟩
      rcases hor with heq | hheir
      · exact .child hroot hown heq
      · exact .up hroot hown hheir

theorem Heir.onPath (h : Heir root parent own v u) (hv : v ≠ root) :
    OnPath root parent u v := by
  induction h with
  | child hu _ hp =>
      refine .up hu ?_
      rw [hp]
      exact .self hv
  | up hu _ _ ih => exact .up hu ih

/-- Two nodes of a path that are at one depth are the same. -/
theorem IsTree.eq_of_depth_eq (h : IsTree root parent In depth) (hin : In u)
    (hv : OnPath root parent u v) (hw : OnPath root parent u w) (heq : depth v = depth w) :
    v = w := by
  induction hv with
  | self hu => exact (h.eq_of_depth_le hin hw (Nat.le_of_eq heq)).symm
  | @up u v hu hup ih =>
      cases hw with
      | self _ => exact h.eq_of_depth_le hin (.up hu hup) (Nat.le_of_eq heq.symm)
      | up _ hwup => exact ih (h.parent_in u hin hu) hwup heq

end Inherits

/-! ## Edits of what is owned -/

section Owning

variable [DecidableEq V] {root v a s t r : V} {parent : V → V} {own : V → Option C}
  {In : V → Prop} {depth : V → Nat} {x : Option C} {d : C}

/-- A value is dropped: those that do not inherit it notice nothing. -/
theorem Inherits.drop (h : Inherits root parent own v x) (hown : own a = some d)
    (hne : x ≠ some d) : Inherits root parent (Function.update own a none) v x := by
  induction h with
  | root => exact .root
  | @own v c hv h =>
      refine .own hv ?_
      rw [Function.update_of_ne, h]
      rintro rfl
      exact hne (h.symm.trans hown)
  | @up v x hv h _ ih =>
      refine .up hv ?_ (ih hne)
      rw [Function.update_of_ne, h]
      rintro rfl
      rw [hown] at h
      cases h

/-- A value is handed down to the only child, which owns none: all others inherit what they did. -/
theorem Inherits.handDown (h : Inherits root parent own v x) (htree : IsTree root parent In depth)
    (hin : In v) (hva : v ≠ a) (hown : own a = some d) (ha : a ≠ root) (hs : own s = none)
    (honly : ∀ u, In u → u ≠ root → parent u = a → u = s) (hps : parent s = a) :
    Inherits root parent (Function.update (Function.update own a none) s (some d)) v x := by
  induction h with
  | root => exact .root
  | @own v c hv h =>
      refine .own hv ?_
      rw [Function.update_of_ne, Function.update_of_ne hva, h]
      rintro rfl
      rw [hs] at h
      cases h
  | @up v x hv h hup ih =>
      by_cases hvs : v = s
      · rw [hvs, hps] at hup
        rw [hup.own_eq ha hown]
        exact .own hv (by rw [hvs, Function.update_self])
      · refine .up hv ?_ (ih (htree.parent_in v hin hv) fun hp => hvs (honly v hin hv hp))
        rw [Function.update_of_ne hvs, Function.update_of_ne hva, h]

/-- A leaf gets a value of its own. -/
theorem Inherits.addLeafOwn (h : Inherits root parent own v x)
    (htree : IsTree root parent In depth) (hin : In v) (hvt : v ≠ t)
    (hleaf : ∀ u, In u → u ≠ root → parent u ≠ t) (y : Option C) :
    Inherits root parent (Function.update own t y) v x := by
  induction h with
  | root => exact .root
  | own hv h => exact .own hv (by rw [Function.update_of_ne hvt, h])
  | @up v x hv h _ ih =>
      refine .up hv (by rw [Function.update_of_ne hvt, h]) ?_
      exact ih (htree.parent_in v hin hv) (hleaf v hin hv)

/-- The only child of the root gets a value: it is inherited where there was none. -/
theorem Inherits.addTopOwn (h : Inherits root parent own v x)
    (htree : IsTree root parent In depth) (hin : In v) (hv : v ≠ root) (hr : own r = none)
    (hpr : parent r = root) (honly : ∀ u, In u → u ≠ root → parent u = root → u = r) :
    Inherits root parent (Function.update own r (some d)) v (some (x.getD d)) := by
  induction h with
  | root => exact absurd rfl hv
  | @own v c hv h =>
      refine .own hv ?_
      rw [Function.update_of_ne, h]
      · rfl
      · rintro rfl
        rw [hr] at h
        cases h
  | @up v x hv h hup ih =>
      by_cases hp : parent v = root
      · rw [hp] at hup
        rw [hup.root_eq, honly v hin hv hp]
        exact .own (honly v hin hv hp ▸ hv) (by rw [Function.update_self]; rfl)
      · refine .up hv ?_ (ih (htree.parent_in v hin hv) hp)
        rw [Function.update_of_ne, h]
        rintro rfl
        exact hp hpr

end Owning

/-! ## Edits of the tree -/

section Edits

variable {root v c p r old : V} {parent parent' : V → V} {own : V → Option C}
  {In : V → Prop} {depth : V → Nat} {x : Option C}

/-- What a node inherits is a matter of the parents in the tree. -/
theorem Inherits.congr (h : Inherits root parent own v x) (htree : IsTree root parent In depth)
    (hin : In v) (heq : ∀ u, In u → u ≠ root → parent' u = parent u) :
    Inherits root parent' own v x := by
  induction h with
  | root => exact .root
  | own hv h => exact .own hv h
  | @up v x hv h _ ih =>
      refine .up hv h ?_
      rw [heq v hin hv]
      exact ih (htree.parent_in v hin hv)

/-- A node that owns nothing is put between the root and its only child. -/
theorem Inherits.addTop (h : Inherits root parent own v x) (htree : IsTree root parent In depth)
    (hin : In v) (hr : r ≠ root) (hrown : own r = none) (hpr : parent' r = root)
    (hold : parent' old = r) (hpold : parent old = root)
    (heq : ∀ u, In u → u ≠ root → u ≠ old → parent' u = parent u) :
    Inherits root parent' own v x := by
  induction h with
  | root => exact .root
  | own hv h => exact .own hv h
  | @up v x hv h hup ih =>
      refine .up hv h ?_
      by_cases hvo : v = old
      · rw [hvo, hpold] at hup
        rw [hup.root_eq, hvo, hold]
        refine .up hr hrown ?_
        rw [hpr]
        exact .root
      · rw [heq v hin hv hvo]
        exact ih (htree.parent_in v hin hv)

/-- A node takes the place of its parent, which owns nothing and has no other children. -/
theorem Inherits.promote (h : Inherits root parent own v x) (htree : IsTree root parent In depth)
    (hin : In v) (hvp : v ≠ p) (hpown : own p = none) (hp : p ≠ root) (hpc : parent c = p)
    (honly : ∀ u, In u → u ≠ root → parent u = p → u = c) (hc : parent' c = parent p)
    (heq : ∀ u, In u → u ≠ root → u ≠ p → u ≠ c → parent' u = parent u) :
    Inherits root parent' own v x := by
  -- for the parent itself, its own parent inherits what it did
  suffices hboth : (v ≠ p → Inherits root parent' own v x) ∧
      (v = p → Inherits root parent' own (parent p) x) from hboth.1 hvp
  clear hvp
  induction h with
  | root => exact ⟨fun _ => .root, fun heq => absurd heq.symm hp⟩
  | own hv h =>
      refine ⟨fun _ => .own hv h, fun heq => ?_⟩
      rw [heq, hpown] at h
      cases h
  | @up v x hv h _ ih =>
      have hup := ih (htree.parent_in v hin hv)
      constructor
      · intro hvp
        refine .up hv h ?_
        by_cases hvc : v = c
        · rw [hvc, hc]
          exact hup.2 (by rw [hvc, hpc])
        · rw [heq v hin hv hvp hvc]
          exact hup.1 fun hpar => hvc (honly v hin hv hpar)
      · rintro rfl
        refine hup.1 fun hself => ?_
        have hdepth := htree.depth_eq v hin hv
        rw [hself] at hdepth
        omega

end Edits

end ParentTree
