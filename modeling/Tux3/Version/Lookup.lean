/-
  Version/Lookup.lean --- which element a version inherits.

  The element with the highest depth number on the path of a version is that of its nearest
  ancestor, or itself, that owns one, as the versions of a path all have different depths.
-/
import Tux3.Version.Tree

set_option autoImplicit false

namespace Tux3.Versions

open Outcome (bind_of_ok bind_eq_ok)
open ParentTree (IsTree OnPath ListsKids onPath_iff onPath_root)

/-- The element of the nearest version, from `version` up to below the origin, that owns one. -/
def nearestElement (sb : VersionSb) : Nat → Nat → Option Nat
  | 0, _ => none
  | n + 1, version =>
      if version = 0 then none
      else match findElement sb version with
        | some i => some i
        | none => nearestElement sb n (getParent sb version)

section Loops

variable {path path' : Nat → Bool} {ordmap : Nat → Nat} {l : List Element} {i k high v : Nat}
  {found : Option Nat}

theorem lookupLoop_congr (h : ∀ e ∈ l, path e.label = path' e.label) :
    lookupLoop path ordmap l i high found = lookupLoop path' ordmap l i high found := by
  induction l generalizing i high found with
  | nil => rfl
  | cons e l ih =>
      have htail := fun e' he' => h e' (List.mem_cons_of_mem _ he')
      rw [lookupLoop, lookupLoop, h e List.mem_cons_self, ih htail, ih htail]

/-- No element of the rest lies deeper. -/
theorem lookupLoop_done (h : ∀ e ∈ l, path e.label = true → ordmap e.label ≤ high) :
    lookupLoop path ordmap l i high found = found := by
  induction l generalizing i with
  | nil => rfl
  | cons e l ih =>
      rw [lookupLoop, if_neg fun hin => Nat.not_lt_of_le (h e List.mem_cons_self hin.1) hin.2]
      exact ih fun e' he' => h e' (List.mem_cons_of_mem _ he')

/-- The first element of a version that lies deeper than all the others of the path is found. -/
theorem lookupLoop_top (hon : path v = true)
    (hmax : ∀ e ∈ l, path e.label = true → e.label ≠ v → ordmap e.label < ordmap v)
    (hhigh : high < ordmap v) (hfind : l.findIdx? (fun e => e.label = v) = some k) :
    lookupLoop path ordmap l i high found = some (i + k) := by
  induction l generalizing i high found k with
  | nil => cases hfind
  | cons e l ih =>
      have htail := fun e' he' => hmax e' (List.mem_cons_of_mem _ he')
      rw [List.findIdx?_cons] at hfind
      by_cases heq : e.label = v
      · rw [if_pos (by rw [heq]; exact decide_eq_true rfl)] at hfind
        obtain rfl := Option.some.inj hfind
        rw [lookupLoop, heq, if_pos ⟨hon, hhigh⟩]
        refine lookupLoop_done fun e' he' hpath => ?_
        by_cases hsame : e'.label = v
        · rw [hsame]
        · exact Nat.le_of_lt (htail e' he' hpath hsame)
      · rw [if_neg (fun hd => heq (of_decide_eq_true hd))] at hfind
        obtain ⟨k', hk', rfl⟩ := Option.map_eq_some_iff.1 hfind
        rw [lookupLoop, show i + (k' + 1) = i + 1 + k' by omega]
        split
        · next hin => exact ih htail (hmax e List.mem_cons_self hin.1 heq) hk'
        · exact ih htail hhigh hk'

theorem sameLoop_eq {path1 path2 : Nat → Bool} {high1 high2 : Nat} {e1 e2 : Option Nat} :
    sameLoop path1 path2 ordmap l i high1 high2 e1 e2 =
      (lookupLoop path1 ordmap l i high1 e1, lookupLoop path2 ordmap l i high2 e2) := by
  induction l generalizing i high1 high2 e1 e2 with
  | nil => rfl
  | cons e l ih =>
      rw [sameLoop, lookupLoop, lookupLoop]
      by_cases h1 : path1 e.label = true ∧ high1 < ordmap e.label
      all_goals by_cases h2 : path2 e.label = true ∧ high2 < ordmap e.label
      all_goals simp only [h1, h2, if_false]
      all_goals exact ih

end Loops

section Lookup

variable {sb : VersionSb} {In : Nat → Prop} {kids : Nat → List Nat} {v v1 v2 target n : Nat}
  {path : Nat → Bool}

/-- On the bits of a path the loop finds the nearest element. -/
theorem lookupLoop_nearest (h : IsTree 0 (getParent sb) In sb.ordmap) (hin : In v)
    (hpath : ∀ i, path i = true ↔ OnPath 0 (getParent sb) v i) (hn : sb.ordmap v < n) :
    lookupLoop path sb.ordmap sb.elements 0 0 none = nearestElement sb n v := by
  classical
  induction n generalizing v path with
  | zero => exact absurd hn (Nat.not_lt_zero _)
  | succ n ih =>
      rw [nearestElement]
      by_cases hv : v = 0
      · rw [if_pos hv]
        refine lookupLoop_done fun e _ hon => ?_
        rw [hpath, hv] at hon
        exact absurd hon onPath_root
      · have hdepth := h.depth_eq v hin hv
        have hpar := h.parent_in v hin hv
        rw [if_neg hv]
        cases hfind : findElement sb v with
        | some k =>
            dsimp only
            rw [lookupLoop_top ((hpath v).2 (.self hv)) (fun e _ hon hne => ?_)
              (h.depth_pos hin hv) hfind, Nat.zero_add]
            have hon' := (hpath _).1 hon
            exact Nat.lt_of_not_le fun hle => hne (h.eq_of_depth_le hin hon' hle)
        | none =>
            dsimp only
            have hup := @ih (getParent sb v)
              (fun i => decide (OnPath 0 (getParent sb) (getParent sb v) i)) hpar
              (fun i => decide_eq_true_iff) (by omega)
            rw [← hup]
            refine lookupLoop_congr fun e he => Bool.eq_iff_iff.2 ?_
            have hne : e.label ≠ v := by
              have hnone := List.findIdx?_eq_none_iff.1 hfind e he
              exact fun heq => of_decide_eq_false hnone heq
            rw [hpath, decide_eq_true_iff, onPath_iff hv]
            exact ⟨fun hor => hor.resolve_left hne, .inr⟩

/-- `lookup_element` finds the nearest element. -/
theorem lookupElement_spec (h : Shape sb In kids sb.ordmap) (hc : Cached sb In kids)
    (hin : In target) :
    ∃ sb', lookupElement sb target = .ok (nearestElement sb maxVersions target, sb') ∧
      Loads sb sb' ∧ Cached sb' In kids := by
  obtain ⟨sb', hpath, hloads, hc', hflag, -⟩ := needPath_spec h hc hin
  refine ⟨sb', ?_, hloads, hc'⟩
  have hbits := hc'.path target hin hflag
  rw [hloads.sameShape.getParent_eq] at hbits
  unfold lookupElement
  rw [bind_of_ok hpath, hloads.elements, hloads.sameShape.ordmap,
    lookupLoop_nearest h.tree hin hbits (h.depth_lt hin)]
  rfl

/-- `same_chunk` compares what `lookup_element` finds. -/
theorem sameChunk_spec (h : Shape sb In kids sb.ordmap) (hc : Cached sb In kids) (h1 : In v1)
    (h2 : In v2) :
    ∃ sb', sameChunk sb v1 v2 = .ok (decide
        (nearestElement sb maxVersions v1 = nearestElement sb maxVersions v2), sb') ∧
      Loads sb sb' ∧ Cached sb' In kids := by
  obtain ⟨sb1, hpath1, hloads1, hc1, hflag1, -⟩ := needPath_spec h hc h1
  obtain ⟨sb2, hpath2, hloads2, hc2, hflag2, hmono⟩ :=
    needPath_spec (h.same hloads1.sameShape) hc1 h2
  have hloads := hloads1.trans hloads2
  have hbits1 := hc2.path v1 h1 (hmono v1 hflag1)
  have hbits2 := hc2.path v2 h2 hflag2
  rw [hloads.sameShape.getParent_eq] at hbits1 hbits2
  refine ⟨sb2, ?_, hloads, hc2⟩
  unfold sameChunk
  rw [bind_of_ok hpath1, bind_of_ok hpath2, sameLoop_eq, hloads.elements,
    hloads.sameShape.ordmap, lookupLoop_nearest h.tree h1 hbits1 (h.depth_lt h1),
    lookupLoop_nearest h.tree h2 hbits2 (h.depth_lt h2)]
  rfl

end Lookup

end Tux3.Versions
