/-
  Version/Prune.lean --- `delete_elements` takes nothing from a snapshot.

  An element is freed only where no snapshot inherits it, and it goes from a ghost to the only
  child only where that one owns none: each snapshot inherits the chunk that it did.  Whether an
  element has heirs does not depend on which of the others are gone already, as these had none.
-/
import Tux3.Version.Heirs

set_option autoImplicit false

namespace Tux3.Versions

open Outcome (bind_of_ok bind_eq_ok)
open ParentTree (IsTree OnPath ListsKids Inherits Heir heir_iff heir_root_iff)

/-! ## The element list while it is pruned -/

/-- A version of the tree that is no ghost. -/
abbrev Visible (sb : VersionSb) (In : Nat → Prop) (v : Nat) : Prop := In v ∧ isGhost sb v = false

/-- What a version has of a list of elements. -/
abbrev Has (sb : VersionSb) (elements : List Element) : Nat → Option Nat → Prop :=
  Inherits 0 (getParent sb) (chunkOf elements)

/-- No snapshot has the chunk. -/
def Unread (sb : VersionSb) (In : Nat → Prop) (elements : List Element) (c : Nat) : Prop :=
  ∀ u, Visible sb In u → ¬ Has sb elements u (some c)

/-- The elements and the chunks in use agree. -/
structure Stored (sb : VersionSb) (elements : List Element) : Prop where
  ok : ElementsOk elements
  alloc : ∀ c, sb.allocmap c = true ↔ c ∈ elements.map Element.chunk
  alloc_lt : ∀ c, sb.allocmap c = true → c < maxVersions
  next_le : sb.nextchunk ≤ maxVersions

/-- A target that is about to lose its elements: it is a ghost, and it has left the tree or is a
child of `parent`. -/
structure Prunable (sb : VersionSb) (In : Nat → Prop) (kids : Nat → List Nat) (depth : Nat → Nat)
    (target parent : Nat) : Prop where
  shape : Shape sb In kids depth
  stored : Stored sb sb.elements
  labels : ∀ e ∈ sb.elements, e.label ≠ 0 ∧ (In e.label ∨ e.label = target)
  clear : ∀ v, isPresent sb v = false
  brood : ∀ v, sb.brood v = 0
  origin : isGhost sb 0 = false
  ghost : isGhost sb target = true
  target_lt : target < sb.versionCount
  parent_in : In parent
  out : ¬ In target → getParent sb target = 0
  target_kid : ∀ s, s ∈ kids target → s ≠ parent
  parent_kid : ∀ s, isGhost sb parent = true → kids parent = [s] → s ≠ target

/-- The first elements have been looked at, of a list that was pruned so far. -/
structure Pruned (sb : VersionSb) (In : Nat → Prop) (kids : Nat → List Nat) (target parent : Nat)
    (sb' : VersionSb) (done rest : List Element) : Prop where
  edit : ElementEdit sb sb'
  snapdata : sb'.snapdata = sb.snapdata
  orgdata : sb'.orgdata = sb.orgdata
  stored : Stored sb' (done ++ rest)
  labels : ∀ e ∈ done ++ rest, e.label ≠ 0 ∧ (In e.label ∨ e.label = target)
  keeps : ∀ u x, Visible sb In u → Has sb sb.elements u x → Has sb (done ++ rest) u x
  heirs : ∀ e ∈ done, In e.label → isGhost sb e.label = true →
    ∃ u, Visible sb In u ∧ Has sb (done ++ rest) u (some e.chunk)
  target_gone : (kids target).length ≤ 1 → ∀ e ∈ done, e.label ≠ target
  parent_gone : isGhost sb parent = true → (kids parent).length ≤ 1 →
    ∀ e ∈ done, e.label ≠ parent

section Unread

variable {sb sb' : VersionSb} {In : Nat → Prop} {kids : Nat → List Nat} {depth : Nat → Nat}
  {l : List Element} {e : Element}

/-- The chunk of a ghost is read by the heirs of the ghost. -/
theorem unread_iff (hok : ElementsOk l) (he : e ∈ l) (h0 : e.label ≠ 0)
    (hg : isGhost sb e.label = true) : Unread sb In l e.chunk ↔
      ∀ u, Visible sb In u → ¬ Heir 0 (getParent sb) (chunkOf l) e.label u := by
  have hown : chunkOf l e.label = some e.chunk := (chunkOf_eq_some hok).2 he
  have hiff (u : Nat) : Heir 0 (getParent sb) (chunkOf l) e.label u ↔
      Has sb l u (some e.chunk) ∧ u ≠ e.label :=
    heir_iff h0 hown fun v hv => hok.owner_unique hv hown
  refine forall_congr' fun u => forall_congr' fun hu => not_congr ?_
  rw [hiff]
  refine ⟨fun hhas => ⟨hhas, ?_⟩, fun hand => hand.1⟩
  rintro rfl
  exact Bool.false_ne_true (hu.2.symm.trans hg)

/-- `count_heirs` of a ghost tells whether its chunk is read. -/
theorem countHeirs_ghost (h : Shape sb In kids depth) (hedit : ElementEdit sb sb')
    (hok : ElementsOk l) (hmarks : MarksOwners sb' (chunkOf l)) (he : e ∈ l) (h0 : e.label ≠ 0)
    (hin : In e.label) (hg : isGhost sb e.label = true) :
    ∃ n, countHeirs sb' maxVersions e.label = .ok n ∧ (n = 0 ↔ Unread sb In l e.chunk) := by
  obtain ⟨heirs, hcount, -, hmem⟩ := countHeirs_spec (h.same hedit.sameTree.toSameShape) hmarks
    hin (Nat.le_add_left _ _)
  rw [hedit.sameTree.getParent_eq] at hmem
  refine ⟨heirs.length, hcount, ?_⟩
  rw [List.length_eq_zero_iff, List.eq_nil_iff_forall_not_mem, unread_iff hok he h0 hg]
  refine forall_congr' fun u => ?_
  rw [hmem u, show isGhost sb' u = isGhost sb u from hedit.ghost u]
  exact ⟨fun hnot hu hheir => hnot ⟨hu.1, hu.2, hheir⟩, fun hnot hand =>
    hnot ⟨hand.1, hand.2.1⟩ hand.2.2⟩

end Unread

section Pruning

variable {sb sb' : VersionSb} {In : Nat → Prop} {kids : Nat → List Nat} {depth : Nat → Nat}
  {target parent u v c : Nat} {done rest : List Element} {e : Element}

/-- Which chunks are read does not change. -/
theorem Pruned.unread (h : Pruned sb In kids target parent sb' done rest)
    (htree : IsTree 0 (getParent sb) In depth) (hc : Unread sb In sb.elements c) :
    Unread sb In (done ++ rest) c := by
  intro u hu hhas
  obtain ⟨x, hx⟩ := htree.exists_inherits (chunkOf sb.elements) hu.1
  have hkept := h.keeps u x hu hx
  rw [hkept.unique hhas] at hx
  exact hc u hu hx

/-- An element is kept. -/
theorem Pruned.keep (h : Pruned sb In kids target parent sb' done (e :: rest))
    (hheir : In e.label → isGhost sb e.label = true →
      ∃ u, Visible sb In u ∧ Has sb (done ++ e :: rest) u (some e.chunk))
    (htarget : (kids target).length ≤ 1 → e.label ≠ target)
    (hparent : isGhost sb parent = true → (kids parent).length ≤ 1 → e.label ≠ parent) :
    Pruned sb In kids target parent sb' (done ++ [e]) rest := by
  have hlist : (done ++ [e]) ++ rest = done ++ e :: rest := by
    rw [List.append_assoc, List.singleton_append]
  have hmem {P : Element → Prop} (hdone : ∀ e ∈ done, P e) (he : P e) :
      ∀ e' ∈ done ++ [e], P e' := by
    intro e' he'
    rcases List.mem_append.1 he' with he' | he'
    · exact hdone e' he'
    · exact List.mem_singleton.1 he' ▸ he
  refine ⟨h.edit, h.snapdata, h.orgdata, hlist ▸ h.stored, hlist ▸ h.labels, hlist ▸ h.keeps, ?_,
    fun hlen => hmem (h.target_gone hlen) (htarget hlen),
    fun hg hlen => hmem (h.parent_gone hg hlen) (hparent hg hlen)⟩
  rw [hlist]
  exact hmem h.heirs hheir

/-- An element that no snapshot has is freed. -/
theorem Pruned.free (h : Pruned sb In kids target parent sb' done (e :: rest))
    (hmarks : MarksOwners sb' (chunkOf (done ++ e :: rest)))
    (hunread : Unread sb In (done ++ e :: rest) e.chunk) :
    ∃ sb'', freeElement sb' e = .ok (none, sb'') ∧ sb''.brood = sb'.brood ∧
      MarksOwners sb'' (chunkOf (done ++ rest)) ∧
      Pruned sb In kids target parent sb'' done rest := by
  have hok := h.stored.ok
  have hdrop := chunkOf_drop hok
  have hown : chunkOf (done ++ e :: rest) e.label = some e.chunk :=
    (chunkOf_eq_some hok).2 (List.mem_append_right _ List.mem_cons_self)
  have halloc : sb'.allocmap e.chunk = true :=
    (h.stored.alloc e.chunk).2 (List.mem_map_of_mem (List.mem_append_right _ List.mem_cons_self))
  have hkeep {u : Nat} {x : Option Nat} (hu : Visible sb In u)
      (hx : Has sb (done ++ e :: rest) u x) : Has sb (done ++ rest) u x := by
    show Inherits 0 (getParent sb) (chunkOf (done ++ rest)) u x
    rw [hdrop]
    refine hx.drop hown fun heq => ?_
    rw [heq] at hx
    exact hunread u hu hx
  have hsub {e' : Element} (he' : e' ∈ done ++ rest) : e' ∈ done ++ e :: rest := by
    rw [List.mem_append] at he' ⊢
    exact he'.imp_right (List.mem_cons_of_mem _)
  have hfree : ∃ sb'', freeElement sb' e = .ok (none, sb'') ∧
      sb'' = { sb'.modify e.label fun v => { v with present := false } with
        allocmap := Function.update sb'.allocmap e.chunk false } :=
    ⟨_, bind_of_ok (a := { sb'.modify e.label fun v => { v with present := false } with
      allocmap := Function.update sb'.allocmap e.chunk false }) (bind_of_ok (tuxAssert_of halloc)),
      rfl⟩
  obtain ⟨sb'', hfree, hsb''⟩ := hfree
  have hedit := freeElement_edit hfree
  subst hsb''
  refine ⟨_, hfree, rfl, fun v => ?_, h.edit.trans hedit, h.snapdata, h.orgdata,
    ⟨hok.middle.2.2, fun c => ?_, fun c hc => ?_, h.stored.next_le⟩,
    fun e' he' => h.labels e' (hsub he'),
    fun u x hu hx => hkeep hu (h.keeps u x hu hx), fun e' he' hin hg => ?_, h.target_gone,
    h.parent_gone⟩
  · rw [hdrop]
    by_cases hv : v = e.label
    · rw [hv, Function.update_self]
      refine iff_of_false ?_ fun hne => hne rfl
      unfold isPresent
      dsimp only
      rw [modify_self]
      exact Bool.false_ne_true
    · rw [Function.update_of_ne hv]
      unfold isPresent
      dsimp only
      rw [modify_of_ne _ _ hv]
      exact hmarks v
  · dsimp only [VersionSb.modify]
    by_cases hc : c = e.chunk
    · rw [hc, Function.update_self]
      exact iff_of_false Bool.false_ne_true hok.middle.2.1
    · rw [Function.update_of_ne hc, h.stored.alloc c, List.map_append, List.map_append,
        List.map_cons, List.mem_append, List.mem_append, List.mem_cons]
      exact or_congr_right ⟨fun hor => hor.resolve_left hc, .inr⟩
  · dsimp only [VersionSb.modify] at hc
    by_cases heq : c = e.chunk
    · rw [heq, Function.update_self] at hc
      cases hc
    · rw [Function.update_of_ne heq] at hc
      exact h.stored.alloc_lt c hc
  · obtain ⟨u, hu, hx⟩ := h.heirs e' he' hin hg
    exact ⟨u, hu, hkeep hu hx⟩

/-- An element goes from a ghost to its only child, which owns none. -/
theorem Pruned.relabel {s : Nat} (h : Pruned sb In kids target parent sb' done (e :: rest))
    (hshape : Shape sb In kids depth) (hmarks : MarksOwners sb' (chunkOf (done ++ e :: rest)))
    (hg : isGhost sb e.label = true) (hkids : kids e.label = [s])
    (hs : chunkOf (done ++ e :: rest) s = none)
    (hheir : ∃ u, Visible sb In u ∧ Has sb (done ++ e :: rest) u (some e.chunk))
    (hst : s ≠ target) (hsp : s ≠ parent) :
    MarksOwners ((sb'.modify e.label fun v => { v with present := false }).modify s
        fun v => { v with present := true }) (chunkOf (done ++ [{ e with label := s }] ++ rest)) ∧
      Pruned sb In kids target parent
        ((sb'.modify e.label fun v => { v with present := false }).modify s
          fun v => { v with present := true }) (done ++ [{ e with label := s }]) rest := by
  have hok := h.stored.ok
  have hlist : done ++ [{ e with label := s }] ++ rest = done ++ { e with label := s } :: rest := by
    rw [List.append_assoc, List.singleton_append]
  obtain ⟨hok', hown'⟩ := chunkOf_relabel hok hs
  have hown : chunkOf (done ++ e :: rest) e.label = some e.chunk :=
    (chunkOf_eq_some hok).2 (List.mem_append_right _ List.mem_cons_self)
  have hmemk : s ∈ kids e.label := hkids ▸ List.mem_singleton_self s
  obtain ⟨hs0, hsin, hps⟩ := (hshape.lists.mem _ _).1 hmemk
  have he := h.labels e (List.mem_append_right _ List.mem_cons_self)
  have hse : s ≠ e.label := by
    rintro heq
    rw [heq, hown] at hs
    cases hs
  have hkeep {u : Nat} {x : Option Nat} (hu : Visible sb In u)
      (hx : Has sb (done ++ e :: rest) u x) :
      Has sb (done ++ { e with label := s } :: rest) u x := by
    show Inherits 0 (getParent sb) (chunkOf (done ++ { e with label := s } :: rest)) u x
    rw [hown']
    refine hx.handDown hshape.tree hu.1 ?_ hown he.1 hs (fun w hw hw0 hpw => ?_) hps
    · rintro rfl
      exact Bool.false_ne_true (hu.2.symm.trans hg)
    · have hwk := (hshape.lists.mem e.label w).2 ⟨hw0, hw, hpw⟩
      rw [hkids] at hwk
      exact List.mem_singleton.1 hwk
  have hmem {P : Element → Prop} (hdone : ∀ e ∈ done, P e) (he : P { e with label := s }) :
      ∀ e' ∈ done ++ [{ e with label := s }], P e' := by
    intro e' he'
    rcases List.mem_append.1 he' with he' | he'
    · exact hdone e' he'
    · exact List.mem_singleton.1 he' ▸ he
  constructor
  · intro v
    rw [hlist, hown']
    unfold isPresent
    by_cases hvs : v = s
    · rw [hvs, modify_self, Function.update_self]
      exact iff_of_true rfl fun hnone => nomatch hnone
    · rw [modify_of_ne _ _ hvs, Function.update_of_ne hvs]
      by_cases hve : v = e.label
      · rw [hve, modify_self, Function.update_self]
        exact iff_of_false Bool.false_ne_true fun hne => hne rfl
      · rw [modify_of_ne _ _ hve, Function.update_of_ne hve]
        exact hmarks v
  · refine ⟨(h.edit.trans (elementEdit_present sb' e.label false)).trans
      (elementEdit_present _ s true), h.snapdata, h.orgdata, ?_, ?_, ?_, ?_,
      fun hlen => hmem (h.target_gone hlen) hst, fun hg hlen => hmem (h.parent_gone hg hlen) hsp⟩
    · rw [hlist]
      refine ⟨hok', fun c => (h.stored.alloc c).trans ?_, h.stored.alloc_lt, h.stored.next_le⟩
      rw [List.map_append, List.map_append, List.map_cons, List.map_cons]
    · rw [hlist]
      intro e' he'
      rcases List.mem_append.1 he' with he' | he'
      · exact h.labels e' (List.mem_append_left _ he')
      · rcases List.mem_cons.1 he' with rfl | he'
        · exact ⟨hs0, .inl hsin⟩
        · exact h.labels e' (List.mem_append_right _ (List.mem_cons_of_mem _ he'))
    · rw [hlist]
      exact fun u x hu hx => hkeep hu (h.keeps u x hu hx)
    · rw [hlist]
      have hmoved {c : Nat} (hex : ∃ u, Visible sb In u ∧ Has sb (done ++ e :: rest) u (some c)) :
          ∃ u, Visible sb In u ∧ Has sb (done ++ { e with label := s } :: rest) u (some c) := by
        obtain ⟨u, hu, hx⟩ := hex
        exact ⟨u, hu, hkeep hu hx⟩
      exact hmem (fun e' he' hin hg => hmoved (h.heirs e' he' hin hg)) fun _ _ => hmoved hheir

end Pruning

/-! ## Brood -/

section Brood

variable {sb : VersionSb} {In : Nat → Prop} {kids : Nat → List Nat} {depth : Nat → Nat}
  {target parent label u : Nat}

theorem countBrood_brood (sb : VersionSb) (p : Nat) : (countBrood sb).brood p =
    sb.brood p + (sb.elements.map Element.label).countP fun v => getParent sb v = p := by
  have hfold (l : List Element) (brood : Nat → Nat) :
      l.foldl (fun brood e => Function.update brood (getParent sb e.label)
        (brood (getParent sb e.label) + 1)) brood p =
      brood p + (l.map Element.label).countP fun v => getParent sb v = p := by
    induction l generalizing brood with
    | nil => rfl
    | cons e l ih =>
        rw [List.foldl_cons, ih, List.map_cons, List.countP_cons]
        by_cases hp : p = getParent sb e.label
        · rw [hp, Function.update_self, if_pos (decide_eq_true rfl)]
          omega
        · rw [Function.update_of_ne hp, if_neg (fun h => hp (of_decide_eq_true h).symm)]
          rfl
  exact hfold sb.elements sb.brood

/-- The brood of a version are its children that own an element. -/
theorem Prunable.brood_spec (h : Prunable sb In kids depth target parent) (hne : label ≠ 0) :
    ∃ ls : List Nat, (countBrood sb).brood label = ls.length ∧ ls.Nodup ∧ ls ⊆ kids label ∧
      ∀ v ∈ ls, chunkOf sb.elements v ≠ none := by
  refine ⟨(sb.elements.map Element.label).filter fun v => getParent sb v = label, ?_,
    h.stored.ok.labels.filter _, fun v hv => ?_, fun v hv => ?_⟩
  · rw [countBrood_brood, h.brood, Nat.zero_add, List.countP_eq_length_filter]
  · obtain ⟨hv, hpar⟩ := List.mem_filter.1 hv
    have hpar := of_decide_eq_true hpar
    obtain ⟨e, he, rfl⟩ := List.mem_map.1 hv
    obtain ⟨h0, hin⟩ := h.labels e he
    refine (h.shape.lists.mem _ _).2 ⟨h0, ?_, hpar⟩
    refine hin.elim id fun heq => ?_
    by_contra hnot
    rw [heq] at hnot hpar
    exact hne (hpar.symm.trans (h.out hnot))
  · exact chunkOf_ne_none.2 (List.mem_filter.1 hv).1

/-- All children own elements: nothing is inherited from the version. -/
theorem Prunable.unread_of_brood (h : Prunable sb In kids depth target parent) {e : Element}
    (he : e ∈ sb.elements) (hg : isGhost sb e.label = true)
    (hcount : (kids e.label).length = (countBrood sb).brood e.label) :
    Unread sb In sb.elements e.chunk := by
  obtain ⟨h0, -⟩ := h.labels e he
  obtain ⟨ls, hlen, hnodup, hsub, hown⟩ := h.brood_spec h0
  have hperm := (hnodup.subperm hsub).perm_of_length_le (by rw [hcount, hlen])
  refine (unread_iff h.stored.ok he h0 hg).2 fun u hu hheir => ?_
  obtain ⟨c, hc, hc0, hcp, hnone, -⟩ := h.shape.tree.heir_child hu.1 hheir
  exact hown c (hperm.mem_iff.2 ((h.shape.lists.mem _ _).2 ⟨hc0, hc, hcp⟩)) hnone

end Brood

/-! ## The second loop -/

section Loop

variable {sb cur : VersionSb} {In : Nat → Prop} {kids : Nat → List Nat} {depth : Nat → Nat}
  {target parent i : Nat} {done rest : List Element} {e : Element} {kill : Option Nat}

/-- The parent that `delete_elements` looks at is a ghost. -/
theorem ghostParent_eq (h0 : e.label ≠ 0)
    (heq : e.label = if isGhost sb parent then parent else 0) :
    isGhost sb parent = true ∧ e.label = parent := by
  by_cases hg : isGhost sb parent = true
  · rw [if_pos hg] at heq
    exact ⟨hg, heq⟩
  · rw [if_neg hg] at heq
    exact absurd heq h0

theorem Prunable.label_lt (h : Prunable sb In kids depth target parent) (he : e ∈ sb.elements) :
    e.label < sb.versionCount := by
  rcases (h.labels e he).2 with hin | heq
  · exact h.shape.in_lt _ hin
  · exact heq ▸ h.target_lt

/-- A round of the loop for the element of a ghost whose children are left in the tree. -/
theorem deleteElement_ghost (h : Prunable sb In kids depth target parent)
    (hp : Pruned sb In kids target parent cur done (e :: rest))
    (hmarks : MarksOwners cur (chunkOf (done ++ e :: rest)))
    (hbrood : cur.brood = (countBrood sb).brood) (he : e ∈ sb.elements)
    (hg : isGhost sb e.label = true)
    (hor : e.label = target ∨ isGhost sb parent = true ∧ e.label = parent) :
    ∃ save cur', (if cur.childCount e.label = cur.brood e.label then freeElement cur e
      else if cur.childCount e.label = 1 then do
        let heirs ← countHeirs cur maxVersions e.label
        if heirs = 0 then freeElement cur e
        else
          let child := getChild cur e.label 0
          let cur := cur.modify e.label fun v => { v with present := false }
          let cur := cur.modify child fun v => { v with present := true }
          return (some { e with label := child }, cur)
      else if 1 < cur.childCount e.label then do
        let heirs ← countHeirs cur maxVersions e.label
        if heirs = 0 then freeElement cur e else return (some e, cur)
      else return (some e, cur)) = .ok (save, cur') ∧ cur'.brood = (countBrood sb).brood ∧
      MarksOwners cur' (chunkOf (done ++ save.toList ++ rest)) ∧
      Pruned sb In kids target parent cur' (done ++ save.toList) rest := by
  have htree := h.shape.tree
  have hok := hp.stored.ok
  have hmem : e ∈ done ++ e :: rest := List.mem_append_right _ List.mem_cons_self
  have h0 := (h.labels e he).1
  have hsame := hp.edit.sameTree
  have hcount : cur.childCount e.label = (kids e.label).length := by
    rw [hsame.childCount]
    exact h.shape.packs.count_eq _ (h.label_lt he)
  have hlist : done ++ [e] ++ rest = done ++ e :: rest := by
    rw [List.append_assoc, List.singleton_append]
  -- an element without heirs is freed in all cases
  have hfree (hunread : Unread sb In (done ++ e :: rest) e.chunk) :
      ∃ save cur', freeElement cur e = .ok (save, cur') ∧ cur'.brood = (countBrood sb).brood ∧
        MarksOwners cur' (chunkOf (done ++ save.toList ++ rest)) ∧
        Pruned sb In kids target parent cur' (done ++ save.toList) rest := by
    obtain ⟨cur', heq, hb, hm, hpruned⟩ := hp.free hmarks hunread
    refine ⟨none, cur', heq, hb.trans hbrood, ?_, ?_⟩
    · rw [Option.toList_none, List.append_nil]
      exact hm
    · rw [Option.toList_none, List.append_nil]
      exact hpruned
  by_cases hall : cur.childCount e.label = cur.brood e.label
  · rw [if_pos hall]
    refine hfree (hp.unread htree (h.unread_of_brood he hg ?_))
    rw [← hcount, hall, hbrood]
  · rw [if_neg hall]
    have hkids : kids e.label ≠ [] := by
      intro hnil
      obtain ⟨ls, hlen, -, hsub, -⟩ := h.brood_spec h0
      rw [hnil] at hsub
      rw [hcount, hbrood, hlen, hnil, List.subset_nil.1 hsub] at hall
      exact hall rfl
    have hin : In e.label := by
      by_contra hnot
      exact hkids (h.shape.kids_nil hnot)
    obtain ⟨n, hheirs, hzero⟩ :=
      countHeirs_ghost h.shape hp.edit hok hmarks hmem h0 hin hg
    have hread (hn : n ≠ 0) : ∃ u, Visible sb In u ∧
        Heir 0 (getParent sb) (chunkOf (done ++ e :: rest)) e.label u := by
      by_contra hnot
      refine hn (hzero.2 ((unread_iff hok hmem h0 hg).2 fun u hu hheir => hnot ⟨u, hu, hheir⟩))
    have hown : chunkOf (done ++ e :: rest) e.label = some e.chunk := (chunkOf_eq_some hok).2 hmem
    by_cases hone : cur.childCount e.label = 1
    · rw [if_pos hone, bind_of_ok hheirs]
      by_cases hn : n = 0
      · rw [if_pos hn]
        exact hfree (hzero.1 hn)
      · rw [if_neg hn]
        obtain ⟨u, hu, hheir⟩ := hread hn
        obtain ⟨s, hs⟩ := List.length_eq_one_iff.1 (hcount.symm.trans hone)
        have hchild : getChild cur e.label 0 = s := by
          have hreadk := (h.shape.same hsame.toSameShape).read_kids hin
          rw [hone, hs] at hreadk
          exact List.singleton_injective hreadk
        have hsk : s ∈ kids e.label := hs ▸ List.mem_singleton_self s
        obtain ⟨hs0, hsin, hsp⟩ := (h.shape.lists.mem _ _).1 hsk
        obtain ⟨c, hc, hc0, hcp, hnone, -⟩ := htree.heir_child hu.1 hheir
        have hcs : c ∈ kids e.label := (h.shape.lists.mem _ _).2 ⟨hc0, hc, hcp⟩
        rw [hs, List.mem_singleton] at hcs
        rw [hcs] at hnone
        have hne : s ≠ e.label := by
          intro heq
          have hdepth := h.shape.kids_depth hsk
          rw [heq] at hdepth
          omega
        have hst : s ≠ target := by
          rcases hor with heq | ⟨hpg, heq⟩
          · exact heq ▸ hne
          · exact h.parent_kid s hpg (heq ▸ hs)
        have hspar : s ≠ parent := by
          rcases hor with heq | ⟨-, heq⟩
          · exact h.target_kid s (heq ▸ hsk)
          · exact heq ▸ hne
        rw [hchild]
        obtain ⟨hm, hpruned⟩ := hp.relabel h.shape hmarks hg hs hnone
          ⟨u, hu, hheir.inherits (.own h0 hown)⟩ hst hspar
        exact ⟨_, _, rfl, hbrood, hm, hpruned⟩
    · rw [if_neg hone]
      have hmany : 1 < cur.childCount e.label := by
        have hpos := List.length_pos_iff.2 hkids
        omega
      rw [if_pos hmany, bind_of_ok hheirs]
      by_cases hn : n = 0
      · rw [if_pos hn]
        exact hfree (hzero.1 hn)
      · rw [if_neg hn]
        obtain ⟨u, hu, hheir⟩ := hread hn
        refine ⟨some e, cur, rfl, hbrood, ?_, hp.keep (fun _ _ => ⟨u, hu,
          hheir.inherits (.own h0 hown)⟩) (fun hlen heq => ?_) fun _ hlen heq => ?_⟩
        · rw [Option.toList_some, hlist]
          exact hmarks
        · rw [heq] at hcount hmany
          omega
        · rw [heq] at hcount hmany
          omega

/-- A round of the loop. -/
theorem deleteElement_spec (h : Prunable sb In kids depth target parent)
    (hp : Pruned sb In kids target parent cur done (e :: rest))
    (hmarks : MarksOwners cur (chunkOf (done ++ e :: rest)))
    (hbrood : cur.brood = (countBrood sb).brood) (he : e ∈ sb.elements)
    (hkill : kill = some i → Unread sb In sb.elements e.chunk)
    (hsafe : kill ≠ some i → In e.label → isGhost sb e.label = true → e.label ≠ target →
      ∃ u, Visible sb In u ∧ Has sb sb.elements u (some e.chunk)) :
    ∃ save cur', deleteElement cur kill target (if isGhost sb parent then parent else 0) i e =
        .ok (save, cur') ∧ cur'.brood = (countBrood sb).brood ∧
      MarksOwners cur' (chunkOf (done ++ save.toList ++ rest)) ∧
      Pruned sb In kids target parent cur' (done ++ save.toList) rest := by
  have h0 := (h.labels e he).1
  have hlist : done ++ [e] ++ rest = done ++ e :: rest := by
    rw [List.append_assoc, List.singleton_append]
  unfold deleteElement
  by_cases hk : kill = some i
  · rw [if_pos hk]
    obtain ⟨cur', heq, hb, hm, hpruned⟩ := hp.free hmarks (hp.unread h.shape.tree (hkill hk))
    refine ⟨none, cur', heq, hb.trans hbrood, ?_, ?_⟩
    · rw [Option.toList_none, List.append_nil]
      exact hm
    · rw [Option.toList_none, List.append_nil]
      exact hpruned
  · rw [if_neg hk]
    by_cases hor : e.label = target ∨ e.label = if isGhost sb parent then parent else 0
    · rw [if_pos hor]
      have hor' : e.label = target ∨ isGhost sb parent = true ∧ e.label = parent :=
        hor.imp_right (ghostParent_eq h0)
      have hg : isGhost sb e.label = true := by
        rcases hor' with heq | ⟨hg, heq⟩
        · exact heq ▸ h.ghost
        · exact heq ▸ hg
      exact deleteElement_ghost h hp hmarks hbrood he hg hor'
    · rw [if_neg hor]
      refine ⟨some e, cur, rfl, hbrood, ?_, hp.keep (fun hin hg => ?_)
        (fun _ heq => hor (.inl heq)) fun hg _ heq => hor (.inr ?_)⟩
      · rw [Option.toList_some, hlist]
        exact hmarks
      · obtain ⟨u, hu, hhas⟩ := hsafe hk hin hg fun heq => hor (.inl heq)
        exact ⟨u, hu, hp.keeps u _ hu hhas⟩
      · rw [if_pos hg, heq]

/-- What the loop needs to know of the orphan: no snapshot reads it, and all other ghosts but the
target have heirs. -/
structure Orphan (sb : VersionSb) (In : Nat → Prop) (target : Nat) (kill : Option Nat) : Prop where
  killed : ∀ i e, kill = some i → sb.elements[i]? = some e → Unread sb In sb.elements e.chunk
  spared : ∀ i e, sb.elements[i]? = some e → kill ≠ some i → In e.label →
    isGhost sb e.label = true → e.label ≠ target →
    ∃ u, Visible sb In u ∧ Has sb sb.elements u (some e.chunk)

theorem deleteLoop_spec {pre : List Element} (h : Prunable sb In kids depth target parent)
    (ho : Orphan sb In target kill) (hp : Pruned sb In kids target parent cur done rest)
    (hmarks : MarksOwners cur (chunkOf (done ++ rest)))
    (hbrood : cur.brood = (countBrood sb).brood) (hrest : sb.elements = pre ++ rest)
    (hi : pre.length = i) :
    ∃ saves cur', deleteLoop kill target (if isGhost sb parent then parent else 0) rest i cur =
        .ok (saves, cur') ∧ MarksOwners cur' (chunkOf (done ++ saves)) ∧
      Pruned sb In kids target parent cur' (done ++ saves) [] := by
  induction rest generalizing pre i cur done with
  | nil =>
      rw [List.append_nil] at hmarks
      refine ⟨[], cur, rfl, ?_, ?_⟩
      · rw [List.append_nil]
        exact hmarks
      · rw [List.append_nil]
        exact hp
  | cons e rest ih =>
      have hget : sb.elements[i]? = some e := by
        rw [hrest, ← hi, List.getElem?_append_right (Nat.le_refl _), Nat.sub_self]
        rfl
      obtain ⟨save, mid, hone, hb, hm, hpruned⟩ := deleteElement_spec h hp hmarks hbrood
        (List.mem_of_getElem? hget) (fun hk => ho.killed i e hk hget) (ho.spared i e hget)
      have hsplit : sb.elements = (pre ++ [e]) ++ rest := by
        rw [List.append_assoc, List.singleton_append, hrest]
      have hlen : (pre ++ [e]).length = i + 1 := by
        rw [List.length_append, hi]
        rfl
      obtain ⟨saves, cur', hloop, hm', hpruned'⟩ := ih hpruned hm hb hsplit hlen
      rw [List.append_assoc] at hm' hpruned'
      refine ⟨save.toList ++ saves, cur', ?_, hm', hpruned'⟩
      rw [deleteLoop, bind_of_ok hone]
      dsimp only
      rw [bind_of_ok hloop]
      rfl

/-- `delete_elements` kills the element of the only ghost that the target was the last heir of. -/
theorem orphanElement_spec (h : Prunable sb In kids depth target parent)
    (hedit : ElementEdit sb cur) (helements : cur.elements = sb.elements)
    (hmarks : MarksOwners cur (chunkOf sb.elements))
    (hheirs : ∀ e ∈ sb.elements, In e.label → isGhost sb e.label = true → e.label ≠ target →
      (∃ u, Visible sb In u ∧ Has sb sb.elements u (some e.chunk)) ∨
        chunkOf sb.elements target = none ∧ Has sb sb.elements parent (some e.chunk)) :
    ∃ kill, orphanElement cur target parent = .ok kill ∧ Orphan sb In target kill := by
  have hok := h.stored.ok
  have hsame := hedit.sameTree
  have hghost (v : Nat) : isGhost cur v = isGhost sb v := hedit.ghost v
  unfold orphanElement
  by_cases hpres : isPresent cur target = true
  · rw [if_pos hpres]
    refine ⟨none, rfl, fun i e hk => (nomatch hk), fun i e hget _ hin hg hne => ?_⟩
    refine (hheirs e (List.mem_of_getElem? hget) hin hg hne).resolve_right fun hand => ?_
    exact (hmarks target).1 hpres hand.1
  · rw [if_neg hpres]
    obtain ⟨a, hancestor, hain, hstop, hup⟩ := presentAncestor_spec (n := maxVersions)
      (h.shape.same hsame.toSameShape) hmarks h.parent_in (h.shape.depth_lt h.parent_in)
    rw [hsame.getParent_eq] at hup
    rw [bind_of_ok hancestor]
    by_cases ha : a ≠ 0 ∧ isGhost cur a = true ∧ isPresent cur a = true
    · obtain ⟨ha0, hag, hap⟩ := ha
      rw [hghost] at hag
      obtain ⟨c, hown⟩ := Option.ne_none_iff_exists'.1 ((hmarks a).1 hap)
      have hmem := (chunkOf_eq_some hok).1 hown
      obtain ⟨n, hcount, hzero⟩ :=
        countHeirs_ghost h.shape hedit hok hmarks hmem ha0 hain hag
      -- the target can have been the heir of this ghost only
      have hself {e : Element} (he : e ∈ sb.elements)
          (hhas : Has sb sb.elements parent (some e.chunk)) : e = ⟨a, c⟩ := by
        have hc := (hup _ hhas).own_eq ha0 hown
        exact List.inj_on_of_nodup_map hok.chunks he hmem (Option.some.inj hc)
      rw [if_pos ⟨ha0, (hghost a).trans hag, hap⟩, bind_of_ok hcount]
      by_cases hn : n = 0
      · have hok' : ElementsOk cur.elements := helements ▸ hok
        obtain ⟨i, b1, b2, hfind, hlist, hlen⟩ := findElement_spec hok' (helements ▸ hown)
        rw [helements] at hlist
        have hget : sb.elements[i]? = some ⟨a, c⟩ := by
          rw [hlist, ← hlen, List.getElem?_append_right (Nat.le_refl _), Nat.sub_self]
          rfl
        rw [if_pos hn, hfind]
        refine ⟨some i, rfl, fun j e hk hj => ?_, fun j e hj hk hin hg hne => ?_⟩
        · obtain rfl := Option.some.inj hk
          obtain rfl := Option.some.inj (hget.symm.trans hj)
          exact hzero.1 hn
        · refine (hheirs e (List.mem_of_getElem? hj) hin hg hne).resolve_right fun hand => ?_
          have heq := hself (List.mem_of_getElem? hj) hand.2
          rw [heq] at hj
          have hnodup : sb.elements.Nodup := hok.labels.of_map
          obtain ⟨hi', hgi⟩ := List.getElem?_eq_some_iff.1 hget
          obtain ⟨hj', hgj⟩ := List.getElem?_eq_some_iff.1 hj
          exact hk (congrArg some (hnodup.getElem_inj_iff.1 (hgi.trans hgj.symm)))
      · rw [if_neg hn]
        refine ⟨none, rfl, fun i e hk => (nomatch hk), fun i e hget _ hin hg hne => ?_⟩
        refine (hheirs e (List.mem_of_getElem? hget) hin hg hne).elim id fun hand => ?_
        rw [hself (List.mem_of_getElem? hget) hand.2]
        by_contra hnot
        exact hn (hzero.2 fun u hu hhas => hnot ⟨u, hu, hhas⟩)
    · rw [if_neg ha]
      refine ⟨none, rfl, fun i e hk => (nomatch hk), fun i e hget _ hin hg hne => ?_⟩
      have he := List.mem_of_getElem? hget
      refine (hheirs e he hin hg hne).resolve_right fun hand => ?_
      have hhas := hup _ hand.2
      have ha0 : a ≠ 0 := by
        rintro rfl
        cases hhas.root_eq
      have hpresent := hstop.resolve_left ha0
      obtain ⟨c, hown⟩ := Option.ne_none_iff_exists'.1 hpresent
      have hc := Option.some.inj (hhas.own_eq ha0 hown)
      have hlabel := hok.owner_unique ((chunkOf_eq_some hok).2 he) (hc ▸ hown)
      exact ha ⟨ha0, (hghost a).trans (hlabel ▸ hg), (hmarks a).2 hpresent⟩

/-- `delete_elements`: all snapshots have what they had, and a version that is going to leave the
tree owns nothing. -/
theorem deleteElements_spec (h : Prunable sb In kids depth target parent)
    (hheirs : ∀ e ∈ sb.elements, In e.label → isGhost sb e.label = true → e.label ≠ target →
      (∃ u, Visible sb In u ∧ Has sb sb.elements u (some e.chunk)) ∨
        chunkOf sb.elements target = none ∧ Has sb sb.elements parent (some e.chunk)) :
    ∃ sb', deleteElements sb target parent =
        .ok (isGhost sb parent && decide ((kids parent).length = 1), sb') ∧
      Pruned sb In kids target parent sb' sb'.elements [] ∧ ∀ v, isPresent sb' v = false := by
  have hbroods : ElementEdit sb (countBrood sb) := ⟨rfl, fun _ => rfl⟩
  have hedit := hbroods.trans (elementEdit_setPresent (countBrood sb) true)
  have hmarks : MarksOwners (setPresent (countBrood sb) true) (chunkOf sb.elements) :=
    setPresent_marks h.clear
  have hghost (v : Nat) : isGhost (setPresent (countBrood sb) true) v = isGhost sb v :=
    hedit.ghost v
  obtain ⟨kill, hkill, ho⟩ := orphanElement_spec h hedit rfl hmarks hheirs
  have hstart : Pruned sb In kids target parent (setPresent (countBrood sb) true) []
      sb.elements :=
    ⟨hedit, rfl, rfl, ⟨h.stored.ok, h.stored.alloc, h.stored.alloc_lt, h.stored.next_le⟩,
      h.labels, fun _ _ _ hx => hx,
      fun e he => absurd he List.not_mem_nil, fun _ e he => absurd he List.not_mem_nil,
      fun _ _ e he => absurd he List.not_mem_nil⟩
  obtain ⟨saves, cur, hloop, hmarks', hp⟩ := deleteLoop_spec h ho hstart hmarks rfl
    (List.nil_append _).symm rfl
  rw [List.nil_append] at hmarks' hp
  have hsaved : ElementEdit cur { cur with elements := saves } := ⟨rfl, fun _ => rfl⟩
  have hcleared := hsaved.trans (elementEdit_setPresent { cur with elements := saves } false)
  have hbrood : ElementEdit (setPresent { cur with elements := saves } false)
      (clearBrood (setPresent { cur with elements := saves } false)) := ⟨rfl, fun _ => rfl⟩
  have hclear (v : Nat) : isPresent (setPresent { cur with elements := saves } false) v = false :=
    setPresent_clear hmarks' v
  refine ⟨clearBrood (setPresent { cur with elements := saves } false), ?_,
    ⟨(hp.edit.trans hcleared).trans hbrood, hp.snapdata, hp.orgdata,
      ⟨hp.stored.ok, hp.stored.alloc, hp.stored.alloc_lt, hp.stored.next_le⟩, hp.labels, hp.keeps,
      hp.heirs, hp.target_gone, hp.parent_gone⟩, hclear⟩
  unfold deleteElements
  dsimp only
  rw [bind_of_ok hkill, hghost parent]
  refine (bind_of_ok hloop).trans (congrArg Except.ok (Prod.ext (Bool.eq_iff_iff.2 ?_) rfl))
  have hcount : (clearBrood (setPresent { cur with elements := saves } false)).childCount parent =
      (kids parent).length := by
    rw [((hp.edit.trans hcleared).trans hbrood).sameTree.childCount]
    exact h.shape.count_eq h.parent_in
  rw [Bool.and_eq_true, decide_eq_true_iff, decide_eq_true_iff, ← hcount]
  by_cases hg : isGhost sb parent = true
  · rw [if_pos hg]
    refine and_congr_left fun _ => iff_of_true ?_ hg
    rintro rfl
    exact Bool.false_ne_true (h.origin.symm.trans hg)
  · rw [if_neg hg]
    exact iff_of_false (fun hand => hand.1 rfl) fun hand => hg hand.1

end Loop

end Tux3.Versions
