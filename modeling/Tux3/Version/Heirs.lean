/-
  Version/Heirs.lean --- the element list as what versions own, and who inherits it.

  The labels of the elements are pairwise different, and so are their chunks: an element is known
  by its chunk, and a version owns one chunk at most.  Where the present flags mark the owners,
  `count_heirs` counts the snapshots that inherit from a version.
-/
import Tux3.Lib.Inherit
import Tux3.Version.Run

set_option autoImplicit false

namespace Tux3.Versions

open Outcome (bind_of_ok bind_eq_ok)
open ParentTree (IsTree OnPath ListsKids Inherits Heir heir_iff heir_root_iff)

/-! ## Owners -/

/-- The chunk of the element that a version owns. -/
def chunkOf (elements : List Element) (v : Nat) : Option Nat :=
  (elements.find? fun e => e.label = v).map Element.chunk

/-- Labels and chunks are pairwise different. -/
structure ElementsOk (elements : List Element) : Prop where
  labels : (elements.map Element.label).Nodup
  chunks : (elements.map Element.chunk).Nodup

section Owners

variable {l a b : List Element} {e : Element} {u v c : Nat}

theorem chunkOf_eq_some (h : ElementsOk l) : chunkOf l v = some c ↔ ⟨v, c⟩ ∈ l := by
  unfold chunkOf
  constructor
  · intro hfind
    obtain ⟨e, he, rfl⟩ := Option.map_eq_some_iff.1 hfind
    obtain rfl : e.label = v := by simpa only [decide_eq_true_eq] using List.find?_some he
    exact List.mem_of_find?_eq_some he
  · intro hmem
    cases hfind : l.find? fun e => e.label = v with
    | none =>
        have hnone := List.find?_eq_none.1 hfind _ hmem
        exact absurd (decide_eq_true rfl) hnone
    | some e =>
        have hlabel : e.label = v := by
          simpa only [decide_eq_true_eq] using List.find?_some hfind
        have heq := List.inj_on_of_nodup_map h.labels (List.mem_of_find?_eq_some hfind) hmem hlabel
        rw [heq]
        rfl

theorem chunkOf_eq_none : chunkOf l v = none ↔ v ∉ l.map Element.label := by
  unfold chunkOf
  rw [Option.map_eq_none_iff, List.find?_eq_none, List.mem_map]
  constructor
  · rintro hall ⟨e, he, hlabel⟩
    exact hall e he (decide_eq_true hlabel)
  · exact fun hnot e he hlabel => hnot ⟨e, he, of_decide_eq_true hlabel⟩

theorem chunkOf_ne_none : chunkOf l v ≠ none ↔ v ∈ l.map Element.label := by
  rw [Ne, chunkOf_eq_none, Decidable.not_not]

/-- A chunk belongs to one version. -/
theorem ElementsOk.owner_unique (h : ElementsOk l) (hu : chunkOf l u = some c)
    (hv : chunkOf l v = some c) : u = v := by
  rw [chunkOf_eq_some h] at hu hv
  exact congrArg Element.label (List.inj_on_of_nodup_map h.chunks hu hv rfl)

theorem ElementsOk.middle (h : ElementsOk (a ++ e :: b)) :
    e.label ∉ (a ++ b).map Element.label ∧ e.chunk ∉ (a ++ b).map Element.chunk ∧
      ElementsOk (a ++ b) := by
  obtain ⟨hl, hc⟩ := h
  rw [List.map_append, List.map_cons] at hl hc
  obtain ⟨hlout, hlrest⟩ := List.nodup_cons.1 (List.nodup_middle.1 hl)
  obtain ⟨hcout, hcrest⟩ := List.nodup_cons.1 (List.nodup_middle.1 hc)
  rw [← List.map_append] at hlout hlrest hcout hcrest
  exact ⟨hlout, hcout, hlrest, hcrest⟩

theorem ElementsOk.insert (h : ElementsOk (a ++ b)) (hl : e.label ∉ (a ++ b).map Element.label)
    (hc : e.chunk ∉ (a ++ b).map Element.chunk) : ElementsOk (a ++ e :: b) := by
  obtain ⟨hlrest, hcrest⟩ := h
  rw [List.map_append] at hl hc hlrest hcrest
  constructor
  · rw [List.map_append, List.map_cons]
    exact List.nodup_middle.2 (List.nodup_cons.2 ⟨hl, hlrest⟩)
  · rw [List.map_append, List.map_cons]
    exact List.nodup_middle.2 (List.nodup_cons.2 ⟨hc, hcrest⟩)

/-- An element among others gives its chunk to its version. -/
theorem chunkOf_insert (h : ElementsOk (a ++ e :: b)) :
    chunkOf (a ++ e :: b) = Function.update (chunkOf (a ++ b)) e.label (some e.chunk) := by
  funext v
  by_cases hv : v = e.label
  · rw [hv, Function.update_self, chunkOf_eq_some h]
    exact List.mem_append_right _ List.mem_cons_self
  · rw [Function.update_of_ne hv]
    refine Option.ext fun c => ?_
    rw [chunkOf_eq_some h, chunkOf_eq_some h.middle.2.2, List.mem_append, List.mem_append,
      List.mem_cons]
    refine or_congr_right ⟨fun hor => hor.resolve_left fun heq => hv ?_, .inr⟩
    exact congrArg Element.label heq

/-- The element is taken out. -/
theorem chunkOf_drop (h : ElementsOk (a ++ e :: b)) :
    chunkOf (a ++ b) = Function.update (chunkOf (a ++ e :: b)) e.label none := by
  rw [chunkOf_insert h, Function.update_idem]
  exact (Function.update_eq_self_iff.2 (chunkOf_eq_none.2 h.middle.1).symm).symm

/-- The element gets another label, one that no element has. -/
theorem chunkOf_relabel {s : Nat} (h : ElementsOk (a ++ e :: b))
    (hs : chunkOf (a ++ e :: b) s = none) :
    ElementsOk (a ++ { e with label := s } :: b) ∧
      chunkOf (a ++ { e with label := s } :: b) =
        Function.update (Function.update (chunkOf (a ++ e :: b)) e.label none) s
          (some e.chunk) := by
  obtain ⟨hlabel, hchunk, hrest⟩ := h.middle
  have hout : s ∉ (a ++ b).map Element.label := by
    rw [chunkOf_eq_none, List.map_append, List.map_cons] at hs
    rw [List.map_append]
    exact fun hin => hs (List.perm_middle.mem_iff.2 (List.mem_cons_of_mem _ hin))
  have hok : ElementsOk (a ++ { e with label := s } :: b) := hrest.insert hout hchunk
  exact ⟨hok, by rw [chunkOf_insert hok, chunkOf_drop h]⟩

/-- `find_element` finds the element of an owner. -/
theorem findElement_spec {sb : VersionSb} (h : ElementsOk sb.elements)
    (hown : chunkOf sb.elements v = some c) :
    ∃ i a b, findElement sb v = some i ∧ sb.elements = a ++ ⟨v, c⟩ :: b ∧ a.length = i := by
  have hmem := (chunkOf_eq_some h).1 hown
  cases hfind : findElement sb v with
  | none =>
      have hnone := List.findIdx?_eq_none_iff.1 hfind _ hmem
      exact absurd rfl (of_decide_eq_false hnone)
  | some i =>
      obtain ⟨hi, hlabel, -⟩ := List.findIdx?_eq_some_iff_getElem.1 hfind
      have hlabel := of_decide_eq_true hlabel
      have heq := List.inj_on_of_nodup_map h.labels (List.getElem_mem hi) hmem hlabel
      refine ⟨i, sb.elements.take i, sb.elements.drop (i + 1), rfl, ?_, ?_⟩
      · rw [← heq, ← List.drop_eq_getElem_cons hi, List.take_append_drop]
      · rw [List.length_take, Nat.min_eq_left (Nat.le_of_lt hi)]

end Owners

/-! ## Present flags -/

section Present

variable {sb : VersionSb} {flag : Bool} {v : Nat}

/-- `set_present` sets the flags of the owners. -/
theorem isPresent_setPresent (sb : VersionSb) (flag : Bool) (v : Nat) :
    isPresent (setPresent sb flag) v =
      if chunkOf sb.elements v = none then isPresent sb v else flag := by
  have hfold (l : List Element) (table : Nat → Version) :
      (l.foldl (fun table e => Function.update table e.label
        { table e.label with present := flag }) table v).present =
      if v ∈ l.map Element.label then flag else (table v).present := by
    induction l generalizing table with
    | nil => rfl
    | cons e l ih =>
        rw [List.foldl_cons, ih, List.map_cons]
        by_cases hv : v = e.label
        · rw [hv, Function.update_self, if_pos List.mem_cons_self]
          exact ite_id _
        · rw [Function.update_of_ne hv]
          refine if_congr ⟨List.mem_cons_of_mem _, fun hin => ?_⟩ rfl rfl
          exact (List.mem_cons.1 hin).resolve_left hv
  refine (hfold sb.elements sb.table).trans ?_
  by_cases hin : chunkOf sb.elements v = none
  · rw [if_pos hin, if_neg (chunkOf_eq_none.1 hin)]
    rfl
  · rw [if_neg hin, if_pos (chunkOf_ne_none.1 hin)]

/-- The present flags mark the owners. -/
def MarksOwners (sb : VersionSb) (own : Nat → Option Nat) : Prop :=
  ∀ v, isPresent sb v = true ↔ own v ≠ none

theorem setPresent_marks (hclear : ∀ v, isPresent sb v = false) :
    MarksOwners (setPresent sb true) (chunkOf sb.elements) := by
  intro v
  rw [isPresent_setPresent, hclear v]
  by_cases hin : chunkOf sb.elements v = none
  · rw [if_pos hin]
    exact iff_of_false Bool.false_ne_true fun hne => hne hin
  · rw [if_neg hin]
    exact iff_of_true rfl hin

theorem setPresent_clear (hmarks : MarksOwners sb (chunkOf sb.elements)) (v : Nat) :
    isPresent (setPresent sb false) v = false := by
  rw [isPresent_setPresent]
  by_cases hin : chunkOf sb.elements v = none
  · rw [if_pos hin]
    exact Bool.eq_false_iff.2 fun htrue => (hmarks v).1 htrue hin
  · rw [if_neg hin]

theorem MarksOwners.not_present {own : Nat → Option Nat} (h : MarksOwners sb own) :
    isPresent sb v = false ↔ own v = none := by
  rw [← Bool.not_eq_true, h v, Decidable.not_not]

end Present

/-! ## Heirs -/

section Heirs

variable {sb : VersionSb} {In : Nat → Prop} {kids : Nat → List Nat} {depth : Nat → Nat}
  {own : Nat → Option Nat} {v u n c : Nat}

/-- A node below two children of one parent lies below the same. -/
theorem Shape.sibling_eq (h : Shape sb In kids depth) (hin : In u) {c' : Nat} (hc : c ∈ kids v)
    (hc' : c' ∈ kids v) (hu : u = c ∨ Heir 0 (getParent sb) own c u)
    (hu' : u = c' ∨ Heir 0 (getParent sb) own c' u) : c = c' := by
  have hpath {w : Nat} (hw : w ∈ kids v) (hor : u = w ∨ Heir 0 (getParent sb) own w u) :
      OnPath 0 (getParent sb) u w := by
    obtain ⟨hne, -⟩ := (h.lists.mem v w).1 hw
    rcases hor with rfl | hheir
    · exact .self hne
    · exact hheir.onPath hne
  refine h.tree.eq_of_depth_eq hin (hpath hc hu) (hpath hc' hu') ?_
  rw [h.kids_depth hc, h.kids_depth hc']

/-- No version is its own heir. -/
theorem Shape.heir_ne (h : Shape sb In kids depth) (hin : In u) (hv : v ≠ 0)
    (hu : Heir 0 (getParent sb) own v u) : u ≠ v := by
  rintro rfl
  have hpath : OnPath 0 (getParent sb) (getParent sb u) u := by
    cases hu with
    | child _ _ hp =>
        rw [hp]
        exact .self hv
    | up _ _ hup => exact hup.onPath hv
  exact h.tree.not_onPath_parent hin hv hpath

/-- `count_heirs` counts the snapshots that inherit what a version has. -/
theorem countHeirs_spec (h : Shape sb In kids depth) (hmarks : MarksOwners sb own) (hin : In v)
    (hn : maxVersions ≤ depth v + n) :
    ∃ l : List Nat, countHeirs sb n v = .ok l.length ∧ l.Nodup ∧
      ∀ u, u ∈ l ↔ In u ∧ isGhost sb u = false ∧ Heir 0 (getParent sb) own v u := by
  induction n generalizing v with
  | zero => exact absurd (h.depth_lt hin) (Nat.not_lt_of_le hn)
  | succ n ih =>
      -- the heirs below some of the children
      have hloop (ks : List Nat) (hks : ks ⊆ kids v) (hnodup : ks.Nodup) (k : Nat) :
          ∃ l : List Nat, ks.foldlM (fun heirs child =>
              if isPresent sb child then return heirs
              else do
                let below ← countHeirs sb n child
                return heirs + (below + if isGhost sb child then 0 else 1)) k =
              (.ok (k + l.length) : Except TuxError Nat) ∧ l.Nodup ∧
            ∀ u, u ∈ l ↔ In u ∧ isGhost sb u = false ∧ ∃ c ∈ ks, own c = none ∧
              (u = c ∨ Heir 0 (getParent sb) own c u) := by
        induction ks generalizing k with
        | nil =>
            refine ⟨[], rfl, List.nodup_nil, fun u => iff_of_false List.not_mem_nil ?_⟩
            rintro ⟨-, -, c, hc, -⟩
            exact List.not_mem_nil hc
        | cons c ks ihks =>
            obtain ⟨hcks, hrest⟩ := List.cons_subset.1 hks
            obtain ⟨hout, hnodup⟩ := List.nodup_cons.1 hnodup
            obtain ⟨hc0, hcin, hcp⟩ := (h.lists.mem v c).1 hcks
            rw [List.foldlM_cons]
            by_cases hpres : isPresent sb c = true
            · obtain ⟨l, hfold, hl, hmem⟩ := ihks hrest hnodup k
              rw [if_pos hpres]
              refine ⟨l, (bind_of_ok rfl).trans hfold, hl, fun u => (hmem u).trans ?_⟩
              refine and_congr_right fun _ => and_congr_right fun _ => ?_
              rw [List.exists_mem_cons_iff]
              exact ⟨.inr, fun hor => hor.resolve_left fun hc => (hmarks c).1 hpres hc.1⟩
            · have hnone := hmarks.not_present.1 (Bool.not_eq_true _ ▸ hpres)
              have hcd := h.kids_depth hcks
              obtain ⟨below, hbelow, hbnodup, hbmem⟩ := ih hcin (by omega)
              obtain ⟨here, hhere⟩ : ∃ here, here = if isGhost sb c then [] else [c] := ⟨_, rfl⟩
              have hlen : here.length = if isGhost sb c then 0 else 1 := by
                rw [hhere]
                split <;> rfl
              have hhmem (u : Nat) : u ∈ here ↔ isGhost sb u = false ∧ u = c := by
                rw [hhere]
                by_cases hg : isGhost sb c = true
                · rw [if_pos hg]
                  refine iff_of_false List.not_mem_nil ?_
                  rintro ⟨hfalse, rfl⟩
                  exact Bool.false_ne_true (hfalse.symm.trans hg)
                · rw [if_neg hg, List.mem_singleton]
                  refine ⟨fun heq => ⟨heq ▸ Bool.not_eq_true _ ▸ hg, heq⟩, fun hu => hu.2⟩
              obtain ⟨l, hfold, hl, hmem⟩ := ihks hrest hnodup (k + (below.length + here.length))
              rw [if_neg hpres]
              refine ⟨here ++ below ++ l, ?_, ?_, fun u => ?_⟩
              · have hone : (do
                    let below ← countHeirs sb n c
                    return k + (below + if isGhost sb c then 0 else 1) : Except TuxError Nat) =
                    .ok (k + (below.length + here.length)) := by
                  rw [bind_of_ok hbelow, hlen]
                  rfl
                refine (bind_of_ok hone).trans (hfold.trans ?_)
                rw [List.length_append, List.length_append]
                exact congrArg Except.ok (by omega)
              · have hhnodup : here.Nodup := by
                  rw [hhere]
                  split
                  · exact List.nodup_nil
                  · exact List.nodup_singleton c
                refine (hhnodup.append hbnodup fun u hu hub => ?_).append hl fun u hu hul => ?_
                · obtain ⟨hin, -, hheir⟩ := (hbmem u).1 hub
                  exact h.heir_ne hin hc0 hheir ((hhmem u).1 hu).2
                · obtain ⟨hin, -, c', hc', -, hor'⟩ := (hmem u).1 hul
                  have hor : u = c ∨ Heir 0 (getParent sb) own c u := by
                    rcases List.mem_append.1 hu with hu | hu
                    · exact .inl ((hhmem u).1 hu).2
                    · exact .inr ((hbmem u).1 hu).2.2
                  exact hout (h.sibling_eq hin hcks (hrest hc') hor hor' ▸ hc')
              · rw [List.mem_append, List.mem_append, hhmem, hbmem, hmem, List.exists_mem_cons_iff]
                constructor
                · rintro ((⟨hg, rfl⟩ | ⟨hin, hg, hheir⟩) | ⟨hin, hg, hex⟩)
                  · exact ⟨hcin, hg, .inl ⟨hnone, .inl rfl⟩⟩
                  · exact ⟨hin, hg, .inl ⟨hnone, .inr hheir⟩⟩
                  · exact ⟨hin, hg, .inr hex⟩
                · rintro ⟨hin, hg, ⟨-, rfl | hheir⟩ | hex⟩
                  · exact .inl (.inl ⟨hg, rfl⟩)
                  · exact .inl (.inr ⟨hin, hg, hheir⟩)
                  · exact .inr ⟨hin, hg, hex⟩
      obtain ⟨l, hfold, hnodup, hmem⟩ := hloop (kids v) (List.Subset.refl _) (h.lists.nodup v) 0
      rw [Nat.zero_add] at hfold
      refine ⟨l, (h.reads.foldKids hin 0).trans hfold, hnodup, fun u => (hmem u).trans ?_⟩
      refine and_congr_right fun hu => and_congr_right fun _ => ⟨?_, fun hheir => ?_⟩
      · rintro ⟨c, hc, hnone, hor⟩
        obtain ⟨hc0, -, hcp⟩ := (h.lists.mem v c).1 hc
        have hchild : Heir 0 (getParent sb) own v c := .child hc0 hnone hcp
        rcases hor with rfl | hbelow
        · exact hchild
        · exact hchild.trans hbelow
      · obtain ⟨c, hc, hc0, hcp, hnone, hor⟩ := h.tree.heir_child hu hheir
        exact ⟨c, (h.lists.mem v c).2 ⟨hc0, hc, hcp⟩, hnone, hor⟩

/-- `delete_elements` gets to the ancestor whose element a version inherits. -/
theorem presentAncestor_spec (h : Shape sb In kids depth) (hmarks : MarksOwners sb own)
    (hin : In v) (hn : depth v < n) :
    ∃ a, presentAncestor sb n v = .ok a ∧ In a ∧ (a = 0 ∨ own a ≠ none) ∧
      ∀ x, Inherits 0 (getParent sb) own v x → Inherits 0 (getParent sb) own a x := by
  induction n generalizing v with
  | zero => exact absurd hn (Nat.not_lt_zero _)
  | succ n ih =>
      rw [presentAncestor]
      by_cases hv : v = 0
      · rw [if_neg fun hand => hand.2 hv]
        exact ⟨v, rfl, hin, .inl hv, fun _ hx => hx⟩
      · by_cases hown : own v = none
        · have hdepth := h.tree.depth_eq v hin hv
          obtain ⟨a, ha, hain, hstop, hup⟩ := ih (h.tree.parent_in v hin hv) (by omega)
          rw [if_pos ⟨by rw [hmarks.not_present.2 hown]; rfl, hv⟩]
          refine ⟨a, ha, hain, hstop, fun x hx => hup x ?_⟩
          cases hx with
          | root => exact absurd rfl hv
          | own _ hsome => rw [hown] at hsome; cases hsome
          | up _ _ hup => exact hup
        · have hpres := (hmarks v).2 hown
          rw [if_neg fun hand => by rw [hpres] at hand; cases hand.1]
          exact ⟨v, rfl, hin, .inr hown, fun _ hx => hx⟩

/-- `snapshot_write` gets to the ancestor whose element a version inherits, unless a snapshot
inherits it first. -/
theorem solidAncestor_spec (h : Shape sb In kids depth) (hmarks : MarksOwners sb own)
    (hroot : isGhost sb 0 = false) (hin : In v) (hn : depth v < n) :
    ∃ a, solidAncestor sb n v = .ok a ∧ In a ∧ depth a ≤ depth v ∧
      (isGhost sb a = false ∨ own a ≠ none) ∧
      ∀ x, Inherits 0 (getParent sb) own v x → Inherits 0 (getParent sb) own a x := by
  induction n generalizing v with
  | zero => exact absurd hn (Nat.not_lt_zero _)
  | succ n ih =>
      rw [solidAncestor]
      by_cases hghost : isGhost sb v = true
      · by_cases hown : own v = none
        · have hv : v ≠ 0 := by
            rintro rfl
            rw [hroot] at hghost
            cases hghost
          have hdepth := h.tree.depth_eq v hin hv
          obtain ⟨a, ha, hain, hle, hstop, hup⟩ := ih (h.tree.parent_in v hin hv) (by omega)
          rw [if_pos ⟨by rw [hmarks.not_present.2 hown]; rfl, hghost⟩]
          refine ⟨a, ha, hain, by omega, hstop, fun x hx => hup x ?_⟩
          cases hx with
          | root => exact absurd rfl hv
          | own _ hsome => rw [hown] at hsome; cases hsome
          | up _ _ hup => exact hup
        · have hpres := (hmarks v).2 hown
          rw [if_neg fun hand => by rw [hpres] at hand; cases hand.1]
          exact ⟨v, rfl, hin, Nat.le_refl _, .inr hown, fun _ hx => hx⟩
      · rw [if_neg fun hand => hghost hand.2]
        exact ⟨v, rfl, hin, Nat.le_refl _, .inl (Bool.not_eq_true _ ▸ hghost), fun _ hx => hx⟩

end Heirs

end Tux3.Versions
