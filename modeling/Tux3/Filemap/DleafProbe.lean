/-
  Filemap/DleafProbe.lean --- where the probe of the first leaf format ends.

  The loop over the groups finds the group of the key's high bits that the key falls into, and the
  loop over its entries the last one that begins at or below the key.  What the probe misses is
  an extent of an earlier group that reaches over the key.
-/
import Tux3.Filemap.DleafWalk

set_option autoImplicit false

namespace Tux3

open Outcome (bind_of_ok bind_of_error bind_eq_ok)

/-! ## The loops of the probe -/

/-- The logical address of the first entry of a group. -/
def LeafGroup.first (g : LeafGroup) : Nat :=
  g.keyhi * 2 ^ 24 + (g.entries.head?.map Prod.fst).getD 0

theorem LeafGroup.Formed.exists_first {g : LeafGroup} (h : g.Formed) :
    ∃ e es, g.entries = e :: es ∧ g.first = g.keyhi * 2 ^ 24 + e.1 := by
  cases hentries : g.entries with
  | nil => exact absurd hentries h.nonempty
  | cons e es =>
      refine ⟨e, es, rfl, ?_⟩
      unfold LeafGroup.first
      rw [hentries]
      rfl

/-- The addresses of a list ascend. -/
abbrev AddressesAscend (l : List (Nat × LeafExtent)) : Prop := l.Pairwise fun e e' => e.1 < e'.1

/-- What begins above a point, when the first of it does. -/
theorem above_of_first {g : LeafGroup} {back : List LeafGroup} {low : Nat} (hg : g.Formed)
    (hsorted : AddressesAscend (logicalOf (g :: back))) (hlow : low < g.first) :
    ∀ e ∈ logicalOf (g :: back), low < e.1 := by
  obtain ⟨e, es, hentries, hfirst⟩ := hg.exists_first
  have hcons : logicalOf (g :: back) = (g.keyhi * 2 ^ 24 + e.1, e.2) ::
      (es.map (fun e => (g.keyhi * 2 ^ 24 + e.1, e.2)) ++ logicalOf back) := by
    rw [logicalOf_cons, LeafGroup.logical, hentries]
    rfl
  rw [hcons] at hsorted ⊢
  intro e' he'
  rw [hfirst] at hlow
  rcases List.mem_cons.1 he' with rfl | hmem
  · exact hlow
  · exact hlow.trans ((List.pairwise_cons.1 hsorted).1 e' hmem)

/-- What begins in a group begins below the next one. -/
theorem below_next {g g' : LeafGroup} {back : List LeafGroup} (hg' : g'.Formed)
    (hsorted : AddressesAscend (logicalOf (g :: g' :: back))) :
    ∀ e ∈ g.logical, e.1 < g'.first := by
  obtain ⟨e', es, hentries, hfirst⟩ := hg'.exists_first
  intro e he
  have hmem : (g'.keyhi * 2 ^ 24 + e'.1, e'.2) ∈ logicalOf (g' :: back) := by
    rw [logicalOf_cons, LeafGroup.logical, hentries]
    exact List.mem_append_left _ List.mem_cons_self
  rw [hfirst]
  exact (List.pairwise_append.1 hsorted).2.2 e he _ hmem

/-- The walk at the head of the loop over the groups, `front` being done. -/
def groupHead (groups : Nat) (front : List LeafGroup) (entry extent exstop : Nat) : Dwalk where
  group := front.length
  gstop := groups
  gdict := 0
  entry := entry
  estop := groups + entryCount front
  exbase := entryCount front
  extent := extent
  exstop := exstop

/-- The walk that the loop over the groups leaves at a group. -/
def groupWalk (groups : Nat) (front : List LeafGroup) (g : LeafGroup) (extent exstop : Nat) :
    Dwalk where
  group := front.length + 1
  gstop := groups
  gdict := 0
  entry := groups + entryCount front + 1
  estop := groups + entryCount front + g.entries.length
  exbase := entryCount front
  extent := extent
  exstop := exstop

/-- The loop has passed the groups: none of them holds the key, as far as it can tell. -/
structure Passed (front : List LeafGroup) (low : Nat) : Prop where
  below : ∀ e ∈ logicalOf front, e.1 ≤ low
  last : ∀ g ∈ front.getLast?, g.keyhi ≠ low / 2 ^ 24

/-- What the loop of the probe over the groups finds. -/
inductive ProbeResult (gs : List LeafGroup) (low extent exstop : Nat) :
    ProbeStop × Dwalk → Prop
  | noGroup (front : List LeafGroup) (g : LeafGroup) (back : List LeafGroup)
      (heq : gs = front ++ g :: back) (hpassed : Passed front low) (hlow : low < g.first) :
      ProbeResult gs low extent exstop (.noGroup, groupWalk gs.length front g extent exstop)
  | probeEntry (front : List LeafGroup) (g : LeafGroup) (back : List LeafGroup)
      (heq : gs = front ++ g :: back) (hbelow : ∀ e ∈ logicalOf front, e.1 ≤ low)
      (hkeyhi : g.keyhi = low / 2 ^ 24) (hlow : g.first ≤ low)
      (habove : ∀ e ∈ logicalOf back, low < e.1) :
      ProbeResult gs low extent exstop (.probeEntry, groupWalk gs.length front g extent exstop)
  | passed (entry : Nat) (hpassed : Passed gs low) :
      ProbeResult gs low extent exstop (.passed, groupHead gs.length gs entry extent exstop)

section Probe

variable {leaf : Dleaf} {gs : List LeafGroup} {low : Nat}

variable (hformed : GroupsFormed gs) (hlays : leaf.Lays gs)
  (hsorted : AddressesAscend (logicalOf gs))

include hformed hlays hsorted

omit hformed hlays hsorted in
/-- One round of the loop of the probe over the groups. -/
theorem probeGroups_succ {front : List LeafGroup} {g : LeafGroup}
    {keyhi keylo k0 n groups entry extent exstop : Nat} (hlt : front.length < groups)
    (htop : (leaf.index (front.length + 1)).top = g.entries.length)
    (hkey : (leaf.index (front.length + 1)).key = g.keyhi)
    (hentry : (leaf.index (groups + entryCount front + 1)).key = k0)
    (hstop : (leaf.index (groups + entryCount front + g.entries.length)).top =
      g.entries.length) :
    probeGroups leaf keyhi keylo (n + 1) (groupHead groups front entry extent exstop) =
      if keyhi < g.keyhi then (.noGroup, groupWalk groups front g extent exstop)
      else if g.keyhi = keyhi ∧ keylo < k0 then
        (.noGroup, groupWalk groups front g extent exstop)
      else if g.keyhi = keyhi ∧ (front.length + 1 = groups ∨
          keyhi < (leaf.index (front.length + 1 + 1)).key ∨
          keylo < (leaf.index (groups + entryCount front + g.entries.length + 1)).key) then
        (.probeEntry, groupWalk groups front g extent exstop)
      else probeGroups leaf keyhi keylo n (groupHead groups (front ++ [g])
        (groups + entryCount front + 1) extent exstop) := by
  have hhead : groupHead groups (front ++ [g]) (groups + entryCount front + 1) extent exstop =
      { groupWalk groups front g extent exstop with
        exbase := entryCount front + g.entries.length } := by
    dsimp only [groupHead, groupWalk]
    rw [entryCount_concat, List.length_append, List.length_singleton, ← Nat.add_assoc groups]
  rw [probeGroups, hhead]
  refine (if_pos hlt).trans ?_
  simp only [groupHead, groupWalk, htop, hkey, hentry, hstop]

/-- What the loop of the probe over the groups finds, `front` being done. -/
theorem probeGroups_result {front back : List LeafGroup} {entry extent exstop : Nat}
    (heq : gs = front ++ back) (hbelow : ∀ e ∈ logicalOf front, e.1 ≤ low)
    (hlast : ∀ g ∈ front.getLast?, g.keyhi = low / 2 ^ 24 →
      ∃ g' back', back = g' :: back' ∧ g'.first ≤ low) :
    ProbeResult gs low extent exstop (probeGroups leaf (low / 2 ^ 24) (low % 2 ^ 24) back.length
      (groupHead gs.length front entry extent exstop)) := by
  induction back generalizing front entry with
  | nil =>
      rw [List.append_nil] at heq
      subst heq
      refine .passed entry ⟨hbelow, fun g hg hkey => ?_⟩
      obtain ⟨g', back', hnil, -⟩ := hlast g hg hkey
      cases hnil
  | cons g back ih =>
      subst heq
      have hg := hformed.each g (List.mem_append_right _ List.mem_cons_self)
      obtain ⟨e, es, hentries, hfirst⟩ := hg.exists_first
      have hkeylo := hg.keylo_lt e (by rw [hentries]; exact List.mem_cons_self)
      have htop := hlays.group_top hformed
      have hkey := hlays.group_key hformed
      have hentry := hlays.entry_key hformed hg.length_pos
      simp only [hentries, List.getElem_cons_zero, Nat.zero_add] at hentry
      have hsuffix : AddressesAscend (logicalOf (g :: back)) := by
        rw [logicalOf_append] at hsorted
        exact (List.pairwise_append.1 hsorted).2.1
      have hpassed (hlt : low < g.first) : Passed front low := by
        refine ⟨hbelow, fun g0 hg0 hkey0 => ?_⟩
        obtain ⟨g', back', hcons, hle⟩ := hlast g0 hg0 hkey0
        obtain ⟨rfl, -⟩ := List.cons.inj hcons
        omega
      have hlt : front.length < (front ++ g :: back).length := by
        rw [List.length_append, List.length_cons]
        omega
      rw [List.length_cons, probeGroups_succ hlt htop hkey hentry (hlays.stop_top hformed)]
      split
      · exact .noGroup front g back rfl (hpassed (by omega)) (by omega)
      next hhi =>
      split
      · exact .noGroup front g back rfl (hpassed (by omega)) (by omega)
      next hlo =>
      have heq : front ++ g :: back = (front ++ [g]) ++ back := List.append_cons _ _ _
      have hmore (hg' : ∀ e ∈ g.logical, e.1 ≤ low) :
          ∀ e ∈ logicalOf (front ++ [g]), e.1 ≤ low := by
        intro e' he'
        rw [logicalOf_append, List.mem_append, logicalOf_cons, List.mem_append] at he'
        rcases he' with hin | hin | hin
        · exact hbelow e' hin
        · exact hg' e' hin
        · exact absurd hin List.not_mem_nil
      have hlower (hne : g.keyhi ≠ low / 2 ^ 24) : ∀ e ∈ g.logical, e.1 ≤ low := by
        intro e' he'
        obtain ⟨e0, he0, rfl⟩ := List.mem_map.1 he'
        have hlt0 := hg.keylo_lt e0 he0
        dsimp only
        omega
      cases back with
      | nil =>
          split
          · next hprobe =>
              exact .probeEntry front g [] rfl hbelow hprobe.1 (by omega)
                fun e he => absurd he List.not_mem_nil
          · next hprobe =>
              have hne : g.keyhi ≠ low / 2 ^ 24 := fun hkeq =>
                hprobe ⟨hkeq, .inl (by rw [List.length_append, List.length_singleton])⟩
              refine ih heq (hmore (hlower hne)) fun g0 hg0 hkey0 => ?_
              rw [List.getLast?_concat, Option.mem_some_iff] at hg0
              exact absurd (hg0 ▸ hkey0) hne
      | cons g' back =>
          have hg' := hformed.each g' (List.mem_append_right _
            (List.mem_cons_of_mem _ List.mem_cons_self))
          have hkeyhi : g.keyhi ≤ g'.keyhi :=
            (List.pairwise_cons.1 (List.pairwise_append.1 hformed.keyhi_le).2.1).1 g'
              List.mem_cons_self
          obtain ⟨e', es', hentries', hfirst'⟩ := hg'.exists_first
          have hkeylo' := hg'.keylo_lt e' (by rw [hentries']; exact List.mem_cons_self)
          have hlays' := hlays
          have hformed' := hformed
          rw [heq] at hlays' hformed'
          have hkey' := hlays'.group_key hformed'
          have hentry' := hlays'.entry_key hformed' hg'.length_pos
          rw [← heq, entryCount_concat, ← Nat.add_assoc _ 0 1, ← Nat.add_assoc, Nat.add_zero]
            at hentry'
          simp only [hentries', List.getElem_cons_zero] at hentry'
          rw [List.length_append, List.length_singleton] at hkey'
          rw [hkey', hentry']
          split
          · next hprobe =>
              refine .probeEntry front g (g' :: back) rfl hbelow hprobe.1 (by omega) ?_
              have htail : AddressesAscend (logicalOf (g' :: back)) := by
                rw [logicalOf_cons] at hsuffix
                exact (List.pairwise_append.1 hsuffix).2.1
              refine above_of_first hg' htail ?_
              rcases hprobe.2 with hlen | hhi' | hlo'
              · rw [List.length_append, List.length_cons, List.length_cons] at hlen
                omega
              · omega
              · omega
          · next hprobe =>
              rcases Nat.lt_or_ge low g'.first with hlow' | hlow'
              · have hne : g.keyhi ≠ low / 2 ^ 24 := fun hkeq =>
                  hprobe ⟨hkeq, .inr (by omega)⟩
                refine ih heq (hmore (hlower hne)) fun g0 hg0 hkey0 => ?_
                rw [List.getLast?_concat, Option.mem_some_iff] at hg0
                exact absurd (hg0 ▸ hkey0) hne
              · refine ih heq (hmore fun e' he' => ?_) fun g0 hg0 hkey0 => ⟨g', back, rfl, hlow'⟩
                exact Nat.le_of_lt ((below_next hg' hsuffix e' he').trans_le hlow')

omit hsorted in
/-- In leaves of any order the loop of the probe over the groups stops at one of them, or passes
them all. -/
theorem probeGroups_stops {front back : List LeafGroup} {keyhi keylo entry extent exstop : Nat}
    (heq : gs = front ++ back) :
    (∃ front' g back', gs = front' ++ g :: back' ∧ ∃ stop, stop ≠ .passed ∧
      probeGroups leaf keyhi keylo back.length (groupHead gs.length front entry extent exstop) =
        (stop, groupWalk gs.length front' g extent exstop)) ∨
    ∃ entry',
      probeGroups leaf keyhi keylo back.length (groupHead gs.length front entry extent exstop) =
        (.passed, groupHead gs.length gs entry' extent exstop) := by
  induction back generalizing front entry with
  | nil =>
      rw [List.append_nil] at heq
      subst heq
      exact .inr ⟨entry, rfl⟩
  | cons g back ih =>
      subst heq
      have hg := hformed.each g (List.mem_append_right _ List.mem_cons_self)
      have hlt : front.length < (front ++ g :: back).length := by
        rw [List.length_append, List.length_cons]
        omega
      rw [List.length_cons, probeGroups_succ hlt (hlays.group_top hformed)
        (hlays.group_key hformed) rfl (hlays.stop_top hformed)]
      split
      · exact .inl ⟨front, g, back, rfl, .noGroup, by decide, rfl⟩
      split
      · exact .inl ⟨front, g, back, rfl, .noGroup, by decide, rfl⟩
      split
      · exact .inl ⟨front, g, back, rfl, .probeEntry, by decide, rfl⟩
      · exact ih (List.append_cons _ _ _)

omit hsorted in
/-- The loop of the probe over the entries stops at the last one that begins at or below the
key. -/
theorem probeEntries_result {front back : List LeafGroup} {g : LeafGroup} {k n keylo : Nat}
    (heq : gs = front ++ g :: back) (hk : k + (n + 1) = g.entries.length) :
    ∃ k', k ≤ k' ∧ k' < g.entries.length ∧
      probeEntries leaf keylo n (walkAt gs.length front g k) = walkAt gs.length front g k' ∧
      (∀ j (h : j < g.entries.length), k < j → j ≤ k' → g.entries[j].1 ≤ keylo) ∧
      ∀ h : k' + 1 < g.entries.length, keylo < g.entries[k' + 1].1 := by
  subst heq
  induction n generalizing k with
  | zero =>
      refine ⟨k, Nat.le_refl k, by omega, rfl, fun j _ hlt hle => ?_, fun h => ?_⟩
      · exact absurd hlt (Nat.not_lt_of_le hle)
      · omega
  | succ n ih =>
      have hlt : k + 1 < g.entries.length := by omega
      have hkey := hlays.entry_key hformed hlt
      have htop := hlays.entry_top hformed hlt
      have hstep : probeEntries leaf keylo (n + 1)
          (walkAt (front ++ g :: back).length front g k) =
          if keylo < g.entries[k + 1].1 then walkAt (front ++ g :: back).length front g k
          else probeEntries leaf keylo n
            (walkAt (front ++ g :: back).length front g (k + 1)) := by
        have hwalk : walkAt (front ++ g :: back).length front g (k + 1) =
            { walkAt (front ++ g :: back).length front g k with
              entry := (front ++ g :: back).length + entryCount front + (k + 1 + 1)
              extent := entryCount front + (k + 1)
              exstop := entryCount front + (k + 1 + 1) } := rfl
        rw [probeEntries, hwalk]
        refine (if_pos (Nat.add_lt_add_left hlt _)).trans ?_
        simp only [Nat.add_assoc] at hkey htop
        simp only [walkAt, Nat.add_assoc, hkey, htop]
      rw [hstep]
      split
      · next hstop =>
          refine ⟨k, Nat.le_refl k, by omega, rfl, fun j _ hlt hle => ?_, fun _ => hstop⟩
          exact absurd hlt (Nat.not_lt_of_le hle)
      · next hstop =>
          obtain ⟨k', hle, hlt', heq, hbelow, hnext⟩ := ih (k := k + 1) (by omega)
          refine ⟨k', Nat.le_of_succ_le hle, hlt', heq, fun j hj hkj hjk => ?_, hnext⟩
          rcases Nat.eq_or_lt_of_le hkj with rfl | hgt
          · exact Nat.le_of_not_lt hstop
          · exact hbelow j hj hgt hjk

end Probe

/-- Where the probe for a key ends: what begins at or below the key is passed, but for the extent
with the key's own high bits that holds the key. -/
structure ProbeAt (l : List (Nat × LeafExtent)) (key i : Nat) : Prop where
  below : ∀ e ∈ l.take i, e.1 ≤ key % 2 ^ 56
  here : ∀ e, l[i]? = some e → key % 2 ^ 56 < e.1 ∨
    e.1 ≤ key % 2 ^ 56 ∧ e.1 / 2 ^ 24 = key % 2 ^ 56 / 2 ^ 24 ∧ key < e.1 + e.2.count
  before : ∀ j e, j + 1 = i → l[j]? = some e → (∀ e', l[i]? = some e' → key % 2 ^ 56 < e'.1) →
    e.1 / 2 ^ 24 = key % 2 ^ 56 / 2 ^ 24 → e.1 + e.2.count ≤ key

section Probed

variable {leaf : Dleaf} {gs front back : List LeafGroup} {g : LeafGroup} {key k : Nat}

/-- The probe passes the groups of `front`. -/
theorem probeAt_passed (hfront : Passed front (key % 2 ^ 56))
    (hback : ∀ e ∈ logicalOf back, key % 2 ^ 56 < e.1)
    (hformed : GroupsFormed front) :
    ProbeAt (logicalOf (front ++ back)) key (entryCount front) := by
  have hlen := length_logicalOf front
  refine ⟨?_, ?_, ?_⟩
  · rw [logicalOf_append, ← hlen, List.take_left]
    exact hfront.below
  · intro e he
    rw [logicalOf_append, List.getElem?_append_right (Nat.le_of_eq hlen)] at he
    exact Or.inl (hback e (List.mem_of_getElem? he))
  · intro j e hj he _ hhi
    exfalso
    cases hlast : front.getLast? with
    | none =>
        rw [List.getLast?_eq_none_iff.1 hlast, entryCount_nil] at hj
        omega
    | some g =>
        obtain ⟨front', rfl⟩ := List.getLast?_eq_some_iff.1 hlast
        have hg := hformed.each g (List.mem_append_right _ (List.mem_singleton_self g))
        have hpos := hg.length_pos
        have hlt : g.entries.length - 1 < g.entries.length := by omega
        rw [entryCount_concat] at hj
        rw [List.append_assoc, List.singleton_append,
          show j = entryCount front' + (g.entries.length - 1) by omega,
          logicalOf_getElem hlt] at he
        have hkeylo := hg.keylo_lt _ (List.getElem_mem hlt)
        refine hfront.last g hlast ?_
        rw [← Option.some.inj he] at hhi
        dsimp only at hhi
        omega

/-- The probe finds the key's place in the group of its high bits. -/
theorem probeAt_inside (hg : g.Formed) (hbelow : ∀ e ∈ logicalOf front, e.1 ≤ key % 2 ^ 56)
    (hback : ∀ e ∈ logicalOf back, key % 2 ^ 56 < e.1)
    (hkeyhi : g.keyhi = key % 2 ^ 56 / 2 ^ 24) (hk : k < g.entries.length)
    (hle : ∀ j (h : j < g.entries.length), j ≤ k → g.entries[j].1 ≤ key % 2 ^ 24)
    (hnext : ∀ h : k + 1 < g.entries.length, key % 2 ^ 24 < g.entries[k + 1].1) :
    ProbeAt (logicalOf (front ++ g :: back)) key
      (if key < g.keyhi * 2 ^ 24 + g.entries[k].1 + g.entries[k].2.count then entryCount front + k
      else entryCount front + k + 1) := by
  have hat : ∀ j (h : j < g.entries.length), j ≤ k →
      g.keyhi * 2 ^ 24 + g.entries[j].1 ≤ key % 2 ^ 56 := by
    intro j h hjk
    have hkey := hle j h hjk
    omega
  have hbelow' : ∀ i, i ≤ entryCount front + k + 1 →
      ∀ e ∈ (logicalOf (front ++ g :: back)).take i, e.1 ≤ key % 2 ^ 56 := by
    intro i hi e he
    obtain ⟨j, hj⟩ := List.getElem?_of_mem he
    rcases Nat.lt_or_ge j i with hlt | hge
    · rw [List.getElem?_take_of_lt hlt] at hj
      rcases Nat.lt_or_ge j (entryCount front) with hjf | hjf
      · rw [logicalOf_append, List.getElem?_append_left (by rw [length_logicalOf]; exact hjf)] at hj
        exact hbelow e (List.mem_of_getElem? hj)
      · have hlen : j - entryCount front < g.entries.length := by omega
        rw [show j = entryCount front + (j - entryCount front) by omega,
          logicalOf_getElem hlen] at hj
        rw [← Option.some.inj hj]
        exact hat _ hlen (by omega)
    · rw [List.getElem?_eq_none (by rw [List.length_take]; omega)] at hj
      cases hj
  split
  · next hholds =>
      refine ⟨hbelow' _ (Nat.le_succ _), fun e he => Or.inr ?_, fun j e hj he habove => ?_⟩
      · rw [logicalOf_getElem hk] at he
        rw [← Option.some.inj he]
        have hkeylo := hg.keylo_lt _ (List.getElem_mem hk)
        exact ⟨hat k hk (Nat.le_refl k), by dsimp only; omega, hholds⟩
      · exact absurd (habove _ (logicalOf_getElem hk)) (Nat.not_lt_of_le (hat k hk (Nat.le_refl k)))
  · next hholds =>
      refine ⟨hbelow' _ (Nat.le_refl _), fun e he => Or.inl ?_, fun j e hj he _ _ => ?_⟩
      · rcases Nat.lt_or_ge (k + 1) g.entries.length with hlt | hge
        · rw [Nat.add_assoc, logicalOf_getElem hlt] at he
          rw [← Option.some.inj he]
          have hkey := hnext hlt
          dsimp only
          omega
        · have hcount : (logicalOf (front ++ [g])).length = entryCount front + k + 1 := by
            rw [length_logicalOf, entryCount_concat]
            omega
          rw [List.append_cons, logicalOf_append,
            List.getElem?_append_right (Nat.le_of_eq hcount)] at he
          exact hback e (List.mem_of_getElem? he)
      · obtain rfl : j = entryCount front + k := Nat.succ.inj hj
        rw [logicalOf_getElem hk] at he
        rw [← Option.some.inj he]
        exact Nat.le_of_not_lt hholds

end Probed

section Found

variable {leaf : Dleaf} {gs front back : List LeafGroup} {g : LeafGroup} {key entry : Nat}

theorem dwalkProbe_empty (hlays : leaf.Lays []) :
    dwalkProbe leaf key = .ok (dwalkStart 0, 0) := by
  have hgroups : leaf.groups = 0 := hlays.groups
  unfold dwalkProbe
  dsimp only
  rw [if_pos hgroups, hgroups]
  unfold dwalkCheck
  rw [if_pos hgroups]
  rfl

variable (hformed : GroupsFormed gs) (hlays : leaf.Lays gs)

include hformed hlays

theorem dwalkProbe_noGroup (heq : gs = front ++ g :: back)
    (hprobe : probeGroups leaf (key / 2 ^ 24 % 2 ^ 32) (key % 2 ^ 24) gs.length
      (dwalkStart gs.length) = (.noGroup, groupWalk gs.length front g 0 0)) :
    dwalkProbe leaf key = .ok (walkAt gs.length front g 0, 1) := by
  subst heq
  have hg := hformed.each g (List.mem_append_right _ List.mem_cons_self)
  have hgroups : leaf.groups ≠ 0 := by
    rw [hlays.groups, List.length_append, List.length_cons]
    omega
  have htop := hlays.entry_top hformed hg.length_pos
  have hwalk : ({ groupWalk (front ++ g :: back).length front g 0 0 with
      extent := entryCount front
      exstop := entryCount front +
        (leaf.index ((front ++ g :: back).length + entryCount front + (0 + 1))).top } :
        Dwalk) = walkAt (front ++ g :: back).length front g 0 := by
    rw [htop]
    rfl
  unfold dwalkProbe
  dsimp only
  rw [if_neg hgroups, hlays.groups, hprobe]
  refine (congrArg (fun walk => do dwalkCheck leaf walk; return (walk, 1)) hwalk).trans ?_
  exact bind_of_ok (dwalkCheck_walkAt hformed hlays hg.length_pos)

theorem dwalkProbe_passed (heq : gs = front ++ [g])
    (hprobe : probeGroups leaf (key / 2 ^ 24 % 2 ^ 32) (key % 2 ^ 24) gs.length
      (dwalkStart gs.length) = (.passed, groupHead gs.length gs entry 0 0)) :
    dwalkProbe leaf key = .ok (walkEnd gs.length front g, 0) := by
  subst heq
  have hgroups : leaf.groups ≠ 0 := by
    rw [hlays.groups, List.length_append, List.length_singleton]
    omega
  have hstop := hlays.stop_top hformed
  have hwalk : ({ groupHead (front ++ [g]).length (front ++ [g]) entry 0 0 with
      entry := (front ++ [g]).length + entryCount (front ++ [g])
      exstop := entryCount (front ++ [g])
      extent := entryCount (front ++ [g])
      exbase := entryCount (front ++ [g]) - (leaf.index
        ((front ++ [g]).length + entryCount (front ++ [g]))).top } : Dwalk) =
      walkEnd (front ++ [g]).length front g := by
    dsimp only [groupHead, walkEnd]
    rw [entryCount_concat, ← Nat.add_assoc, hstop, Nat.add_sub_cancel,
      List.length_append, List.length_singleton]
  unfold dwalkProbe
  dsimp only
  rw [if_neg hgroups, hlays.groups, hprobe]
  refine (congrArg (fun walk => do dwalkCheck leaf walk; return (walk, 0)) hwalk).trans ?_
  exact bind_of_ok (dwalkCheck_walkEnd hformed hlays rfl)

/-- The probe stops at an entry: the walk is on its extent, or on the next one when this ends at or
below the key. -/
theorem dwalkProbe_probeEntry (heq : gs = front ++ g :: back)
    (hprobe : probeGroups leaf (key / 2 ^ 24 % 2 ^ 32) (key % 2 ^ 24) gs.length
      (dwalkStart gs.length) = (.probeEntry, groupWalk gs.length front g 0 0)) :
    ∃ k, ∃ hk : k < g.entries.length,
      (∀ j (h : j < g.entries.length), 0 < j → j ≤ k → g.entries[j].1 ≤ key % 2 ^ 24) ∧
      (∀ h : k + 1 < g.entries.length, key % 2 ^ 24 < g.entries[k + 1].1) ∧
      ∃ walk i, i = (if key < g.keyhi * 2 ^ 24 + g.entries[k].1 + g.entries[k].2.count
          then entryCount front + k else entryCount front + k + 1) ∧
        dwalkProbe leaf key = .ok (walk, if i < entryCount gs then 1 else 0) ∧
        WalkPos gs walk i := by
  have hg := hformed.each g (by rw [heq]; exact List.mem_append_right _ List.mem_cons_self)
  obtain ⟨e, es, hentries, hfirst⟩ := hg.exists_first
  have hlen : 0 + (es.length + 1) = g.entries.length := by
    rw [hentries, List.length_cons, Nat.zero_add]
  have hgroups : leaf.groups ≠ 0 := by
    rw [hlays.groups, heq, List.length_append, List.length_cons]
    omega
  obtain ⟨k, -, hk, hentry, hle, hnext⟩ :=
    @probeEntries_result leaf gs hformed hlays front back g 0 es.length (key % 2 ^ 24) heq hlen
  have hpos : WalkPos gs (walkAt gs.length front g k) (entryCount front + k) :=
    .inside front g back k heq hk
  have hcount : entryCount gs = entryCount front + (g.entries.length + entryCount back) := by
    rw [heq, entryCount_append, entryCount_cons]
  have hlt : entryCount front + k < entryCount gs := by omega
  have hread := hpos.reads hformed hlays hlt
  have hget := @logicalOf_getElem front back g k hk
  rw [← heq, hread] at hget
  obtain ⟨hindex, htable⟩ := Prod.mk.inj (Option.some.inj hget)
  have htop : (leaf.index (gs.length + entryCount front + (0 + 1))).top = 0 + 1 := by
    subst heq
    exact hlays.entry_top hformed hg.length_pos
  have hwalk : probeEntries leaf (key % 2 ^ 24)
      ((groupWalk gs.length front g 0 0).estop - (groupWalk gs.length front g 0 0).entry)
      { groupWalk gs.length front g 0 0 with
        extent := entryCount front
        exstop := entryCount front +
          (leaf.index (gs.length + entryCount front + (0 + 1))).top } =
      walkAt gs.length front g k := by
    have hfuel : (groupWalk gs.length front g 0 0).estop -
        (groupWalk gs.length front g 0 0).entry = es.length := by
      dsimp only [groupWalk]
      omega
    rw [hfuel, htop]
    exact hentry
  obtain ⟨walk', hmoved, hpos', -⟩ := hpos.step hformed hlays hlt
  have hprobed : dwalkIndex leaf (walkAt gs.length front g k) +
      dwalkCount leaf (walkAt gs.length front g k) =
      g.keyhi * 2 ^ 24 + g.entries[k].1 + g.entries[k].2.count := by
    unfold dwalkCount
    rw [hindex, htable]
  have hprobe' : dwalkProbe leaf key = probeExtent leaf key (walkAt gs.length front g k) := by
    unfold dwalkProbe
    dsimp only
    rw [if_neg hgroups, hlays.groups, hprobe]
    exact congrArg (probeExtent leaf key) hwalk
  refine ⟨k, hk, hle, hnext, ?_⟩
  rw [hprobe']
  unfold probeExtent
  rw [hprobed]
  split
  · exact ⟨_, _, rfl, by rw [if_pos hlt]; rfl, hpos⟩
  · refine ⟨_, _, rfl, ?_, hpos'⟩
    rw [bind_of_ok hmoved]
    have hend := hpos'.end_iff
    have hle := hpos'.le
    dsimp only
    rcases Nat.lt_or_ge (entryCount front + k + 1) (entryCount gs) with hmore | hlast
    · rw [if_pos hmore, if_neg (mt hend.1 (Nat.ne_of_lt hmore))]
      rfl
    · rw [if_neg (Nat.not_lt_of_le hlast), if_pos (hend.2 (Nat.le_antisymm hle hlast))]
      rfl

/-- What `dwalk_probe` finds. -/
theorem dwalkProbe_result (hsorted : AddressesAscend (logicalOf gs)) :
    ∃ walk i, dwalkProbe leaf key = .ok (walk, if i < entryCount gs then 1 else 0) ∧
      WalkPos gs walk i ∧ ProbeAt (logicalOf gs) key i := by
  rcases List.eq_nil_or_concat gs with rfl | ⟨front, g, rfl⟩
  · refine ⟨dwalkStart 0, 0, dwalkProbe_empty hlays, .empty rfl, ⟨?_, ?_, ?_⟩⟩
    · exact fun e he => absurd he List.not_mem_nil
    · intro e he
      cases he
    · intro j e hj
      omega
  · rw [List.concat_eq_append] at hformed hlays hsorted ⊢
    generalize hgs : front ++ [g] = gs at hformed hlays hsorted ⊢
    have hresult := @probeGroups_result leaf gs (key % 2 ^ 56) hformed hlays hsorted [] gs
      gs.length 0 0 rfl (fun e he => absurd he List.not_mem_nil) (fun g hg => by cases hg)
    rw [show key % 2 ^ 56 / 2 ^ 24 = key / 2 ^ 24 % 2 ^ 32 by omega,
      show key % 2 ^ 56 % 2 ^ 24 = key % 2 ^ 24 by omega,
      show groupHead gs.length [] gs.length 0 0 = dwalkStart gs.length from rfl] at hresult
    generalize hprobe : probeGroups leaf (key / 2 ^ 24 % 2 ^ 32) (key % 2 ^ 24) gs.length
      (dwalkStart gs.length) = r at hresult
    cases hresult with
    | noGroup front' g' back heq hpassed hlow =>
        have hg' := hformed.each g' (by rw [heq]; exact List.mem_append_right _ List.mem_cons_self)
        have hpos := hg'.length_pos
        refine ⟨_, entryCount front' + 0, ?_, .inside front' g' back 0 heq hpos, ?_⟩
        · rw [if_pos (by rw [heq, entryCount_append, entryCount_cons]; omega)]
          exact dwalkProbe_noGroup hformed hlays heq hprobe
        · subst heq
          have hfront : GroupsFormed front' :=
            ⟨fun g'' hin => hformed.each g'' (List.mem_append_left _ hin),
              (List.pairwise_append.1 hformed.keyhi_le).1⟩
          have hsuffix : AddressesAscend (logicalOf (g' :: back)) := by
            rw [logicalOf_append] at hsorted
            exact (List.pairwise_append.1 hsorted).2.1
          exact probeAt_passed hpassed (above_of_first hg' hsuffix hlow) hfront
    | probeEntry front' g' back heq hbelow hkeyhi hlow habove =>
        have hg' := hformed.each g' (by rw [heq]; exact List.mem_append_right _ List.mem_cons_self)
        obtain ⟨e, es, hentries, hfirst⟩ := hg'.exists_first
        have hkeylo := hg'.keylo_lt e (by rw [hentries]; exact List.mem_cons_self)
        obtain ⟨k, hk, hle, hnext, walk, i, rfl, hright, hpos⟩ :=
          dwalkProbe_probeEntry hformed hlays heq hprobe
        refine ⟨walk, _, hright, hpos, ?_⟩
        subst heq
        refine probeAt_inside hg' hbelow habove hkeyhi hk (fun j hj hjk => ?_) hnext
        rcases Nat.eq_zero_or_pos j with rfl | hpos
        · simp only [hentries, List.getElem_cons_zero]
          omega
        · exact hle j hj hpos hjk
    | passed entry hpassed =>
        refine ⟨_, _, ?_, .atEnd front g hgs.symm, ?_⟩
        · rw [if_neg (Nat.lt_irrefl _)]
          exact dwalkProbe_passed hformed hlays hgs.symm hprobe
        · have hat := @probeAt_passed gs [] key hpassed
            (fun e he => absurd he List.not_mem_nil) hformed
          rw [List.append_nil] at hat
          exact hat

/-- The probe leaves a walk at a position, whether or not the addresses ascend. -/
theorem dwalkProbe_pos :
    ∃ walk i, dwalkProbe leaf key = .ok (walk, if i < entryCount gs then 1 else 0) ∧
      WalkPos gs walk i := by
  rcases List.eq_nil_or_concat gs with rfl | ⟨front, g, rfl⟩
  · exact ⟨dwalkStart 0, 0, dwalkProbe_empty hlays, .empty rfl⟩
  · rw [List.concat_eq_append] at hformed hlays ⊢
    generalize hgs : front ++ [g] = gs at hformed hlays ⊢
    rcases @probeGroups_stops leaf gs hformed hlays [] gs (key / 2 ^ 24 % 2 ^ 32) (key % 2 ^ 24)
      gs.length 0 0 rfl with ⟨front', g', back, heq, stop, hne, hprobe⟩ | ⟨entry, hprobe⟩
    · cases stop with
      | noGroup =>
          have hpos := (hformed.each g' (by
            rw [heq]
            exact List.mem_append_right _ List.mem_cons_self)).length_pos
          refine ⟨_, entryCount front' + 0, ?_, .inside front' g' back 0 heq hpos⟩
          rw [if_pos (by rw [heq, entryCount_append, entryCount_cons]; omega)]
          exact dwalkProbe_noGroup hformed hlays heq hprobe
      | probeEntry =>
          obtain ⟨k, hk, -, -, walk, i, -, hright, hpos⟩ :=
            dwalkProbe_probeEntry hformed hlays heq hprobe
          exact ⟨walk, i, hright, hpos⟩
      | passed => exact absurd rfl hne
    · refine ⟨_, _, ?_, .atEnd front g hgs.symm⟩
      rw [if_neg (Nat.lt_irrefl _)]
      exact dwalkProbe_passed hformed hlays hgs.symm hprobe

end Found

/-! ## The first extent that ends above the key -/

/-- The extent ends above the key. -/
abbrev endsAbove (key : Nat) (e : Nat × LeafExtent) : Prop := key < e.1 + e.2.count

/-- The number of the first extent whose end lies above the key. -/
def Dleaf.firstAbove (leaf : Dleaf) (key : Nat) : Nat :=
  leaf.extents.findIdx fun e => decide (endsAbove key e)

/-- The extents are in order, and none reaches over the next one's begin. -/
def Dleaf.NonOverlapping (leaf : Dleaf) : Prop :=
  leaf.extents.Pairwise fun e e' => e.1 + e.2.count ≤ e'.1

/-- No extent of an earlier group reaches over the key, and a key of more than 56 bits does not
look like one that some extent follows. -/
structure Dleaf.ProbeSees (leaf : Dleaf) (key : Nat) : Prop where
  own : ∀ e ∈ leaf.extents, e.1 ≤ key → endsAbove key e → e.1 / 2 ^ 24 = key / 2 ^ 24
  wide : 2 ^ 56 ≤ key → ∀ e ∈ leaf.extents, e.1 ≤ key % 2 ^ 56

section FirstAbove

variable {l : List (Nat × LeafExtent)} {key i : Nat}

/-- The number of the first one that a test holds of. -/
theorem findIdx_eq_iff {α : Type} {p : α → Bool} {l : List α} {i : Nat} (hi : i ≤ l.length) :
    l.findIdx p = i ↔
      (∀ j a, j < i → l[j]? = some a → p a = false) ∧ ∀ a, l[i]? = some a → p a = true := by
  rcases Nat.eq_or_lt_of_le hi with rfl | hlt
  · rw [List.findIdx_eq_length]
    constructor
    · intro h
      refine ⟨fun j a _ ha => h a (List.mem_of_getElem? ha), fun a ha => ?_⟩
      rw [List.getElem?_eq_none (Nat.le_refl _)] at ha
      cases ha
    · rintro ⟨h, -⟩ a ha
      obtain ⟨j, hj, rfl⟩ := List.getElem_of_mem ha
      exact h j _ hj (List.getElem?_eq_getElem hj)
  · rw [List.findIdx_eq hlt]
    constructor
    · rintro ⟨hat, hbefore⟩
      refine ⟨fun j a hj ha => ?_, fun a ha => ?_⟩
      · obtain ⟨_, rfl⟩ := List.getElem?_eq_some_iff.1 ha
        exact hbefore j hj
      · obtain ⟨_, rfl⟩ := List.getElem?_eq_some_iff.1 ha
        exact hat
    · rintro ⟨hbefore, hat⟩
      exact ⟨hat _ (List.getElem?_eq_getElem hlt), fun j hj =>
        hbefore j _ hj (List.getElem?_eq_getElem (hj.trans hlt))⟩

/-- Of two extents the one in front ends where the other begins, or before. -/
theorem end_le_of_lt {e e' : Nat × LeafExtent} {j j' : Nat}
    (hdisj : l.Pairwise fun e e' => e.1 + e.2.count ≤ e'.1) (hj : l[j]? = some e)
    (hj' : l[j']? = some e') (hlt : j < j') : e.1 + e.2.count ≤ e'.1 := by
  obtain ⟨h, rfl⟩ := List.getElem?_eq_some_iff.1 hj
  obtain ⟨h', rfl⟩ := List.getElem?_eq_some_iff.1 hj'
  exact List.pairwise_iff_getElem.1 hdisj j j' h h' hlt

/-- The probe finds the first extent that ends above the key, if none of an earlier group does. -/
theorem ProbeAt.findIdx_iff (hat : ProbeAt l key i) (hi : i ≤ l.length)
    (hdisj : l.Pairwise fun e e' => e.1 + e.2.count ≤ e'.1) (hbound : ∀ e ∈ l, e.1 < 2 ^ 48) :
    (l.findIdx fun e => decide (endsAbove key e)) = i ↔
      (∀ e ∈ l, e.1 ≤ key → endsAbove key e → e.1 / 2 ^ 24 = key / 2 ^ 24) ∧
        (2 ^ 56 ≤ key → ∀ e ∈ l, e.1 ≤ key % 2 ^ 56) := by
  have hend : ∀ e ∈ l, e.1 + e.2.count ≤ 2 ^ 48 + 2 ^ 6 := by
    intro e he
    have hlt := hbound e he
    have hle := e.2.count_le
    omega
  have hbelow : ∀ j e, j < i → l[j]? = some e → e.1 ≤ key % 2 ^ 56 := by
    intro j e hj he
    refine hat.below e (List.mem_of_getElem? (i := j) ?_)
    rw [List.getElem?_take_of_lt hj]
    exact he
  rw [findIdx_eq_iff hi]
  simp only [decide_eq_false_iff_not, decide_eq_true_eq]
  constructor
  · rintro ⟨hbefore, hfound⟩
    constructor
    · intro e he hle habove
      have hmax := hend e he
      have hkey : key % 2 ^ 56 = key := Nat.mod_eq_of_lt (by unfold endsAbove at habove; omega)
      obtain ⟨j, hj⟩ := List.getElem?_of_mem he
      rcases Nat.lt_trichotomy j i with hlt | rfl | hgt
      · exact absurd habove (hbefore j e hlt hj)
      · rcases hat.here e hj with hlow | ⟨-, hhi, -⟩
        · omega
        · rw [hhi, hkey]
      · have hlen : i < l.length := hgt.trans (List.getElem?_eq_some_iff.1 hj).1
        have hthere := List.getElem?_eq_getElem hlen
        have hends := hfound _ hthere
        have hnext := end_le_of_lt hdisj hthere hj hgt
        unfold endsAbove at hends
        omega
    · intro hwide e he
      obtain ⟨j, hj⟩ := List.getElem?_of_mem he
      rcases Nat.lt_or_ge j i with hlt | hge
      · exact hbelow j e hlt hj
      · have hlen : i < l.length := Nat.lt_of_le_of_lt hge (List.getElem?_eq_some_iff.1 hj).1
        have hends := hfound _ (List.getElem?_eq_getElem hlen)
        have hmax := hend _ (List.getElem_mem hlen)
        unfold endsAbove at hends
        omega
  · rintro ⟨hown, hwide⟩
    constructor
    · intro j e hj he habove
      have hmem := List.mem_of_getElem? he
      have hmax := hend e hmem
      have hle := hbelow j e hj he
      unfold endsAbove at habove
      have hkey : key % 2 ^ 56 = key := Nat.mod_eq_of_lt (by omega)
      have hhi := hown e hmem (by omega) habove
      rcases Nat.eq_or_lt_of_le hj with heq | hlt
      · have hends := hat.before j e heq he
          (fun e' he' => by
            have hnext := end_le_of_lt hdisj he he' hj
            omega)
          (by rw [hkey]; exact hhi)
        omega
      · have hlen : j + 1 < l.length := by omega
        have hthere := List.getElem?_eq_getElem hlen
        have hnext := end_le_of_lt hdisj he hthere (Nat.lt_succ_self j)
        have hlow := hbelow (j + 1) _ hlt hthere
        omega
    · intro e he
      have hmem := List.mem_of_getElem? he
      have hpos := e.2.count_pos
      unfold endsAbove
      rcases hat.here e he with hlow | ⟨-, -, hends⟩
      · rcases Nat.lt_or_ge key (2 ^ 56) with hnarrow | hge
        · omega
        · have hle := hwide hge e hmem
          omega
      · exact hends

end FirstAbove

/-! ## The claim -/

/-- The walk stands on the extent of a number, or at the end. -/
structure StandsOn (leaf : Dleaf) (walk : Dwalk) (i : Nat) : Prop where
  extent : walk.extent = i
  atEnd : dwalkEnd walk ↔ i = leaf.extents.length
  reads : ∀ e, leaf.extents[i]? = some e → e = (dwalkIndex leaf walk, leaf.table walk.extent)

/-- The walk after some calls of `dwalk_next`. -/
def nextSteps (leaf : Dleaf) : Nat → Dwalk → Except TuxError Dwalk
  | 0, walk => return walk
  | n + 1, walk => do
      let (walk, _) ← dwalkNext leaf walk
      nextSteps leaf n walk

/-- At a position `dwalk_next` goes to the next one, where `dwalk_back` comes back from; at the end
it does nothing. -/
structure NextAndBack (leaf : Dleaf) (walk : Dwalk) (i : Nat) : Prop where
  next : i < leaf.extents.length → ∃ walk',
    dwalkNext leaf walk = .ok (walk', if i + 1 < leaf.extents.length then 1 else 0) ∧
      StandsOn leaf walk' (i + 1) ∧ dwalkBack leaf walk' = .ok (walk, 1)
  atEnd : i = leaf.extents.length → dwalkNext leaf walk = .ok (walk, 0)

/-- The probe stands on the first extent whose end lies above the key, or at the end, and returns
accordingly; the walk goes on from there over the other extents. -/
def ProbeRight (leaf : Dleaf) (key : Nat) : Prop :=
  ∃ walk ret, dwalkProbe leaf key = .ok (walk, ret) ∧
    ret = (if leaf.firstAbove key < leaf.extents.length then 1 else 0) ∧
    ∀ j, leaf.firstAbove key + j ≤ leaf.extents.length → ∃ walk', nextSteps leaf j walk = .ok walk' ∧
      StandsOn leaf walk' (leaf.firstAbove key + j) ∧
      NextAndBack leaf walk' (leaf.firstAbove key + j)

section Walks

variable {leaf : Dleaf} {gs : List LeafGroup} {i n blocksize key : Nat} {walk : Dwalk}

section Positions

variable (hformed : GroupsFormed gs) (hlays : leaf.Lays gs)

include hformed hlays

theorem WalkPos.standsOn (h : WalkPos gs walk i) : StandsOn leaf walk i := by
  have hext := hlays.extents_eq hformed
  have hend := h.end_iff
  refine ⟨h.extent_eq, ?_, fun e he => ?_⟩
  · rw [hext, length_logicalOf]
    exact hend
  · rw [hext] at he
    have hlt := (List.getElem?_eq_some_iff.1 he).1
    rw [length_logicalOf] at hlt
    rw [h.reads hformed hlays hlt] at he
    exact (Option.some.inj he).symm

theorem WalkPos.nextAndBack (h : WalkPos gs walk i) : NextAndBack leaf walk i := by
  have hlen : leaf.extents.length = entryCount gs := by
    rw [hlays.extents_eq hformed, length_logicalOf]
  refine ⟨fun hlt => ?_, fun heq => ?_⟩
  · rw [hlen] at hlt ⊢
    obtain ⟨walk', hnext, hpos, hback⟩ := h.step hformed hlays hlt
    exact ⟨walk', hnext, hpos.standsOn hformed hlays, hback⟩
  · exact dwalkNext_end (h.end_iff.2 (heq.trans hlen))

/-- A run of `dwalk_next` visits the positions one after the other. -/
theorem WalkPos.steps (h : WalkPos gs walk i) (hle : i + n ≤ entryCount gs) :
    ∃ walk', nextSteps leaf n walk = .ok walk' ∧ WalkPos gs walk' (i + n) := by
  induction n generalizing i walk with
  | zero => exact ⟨walk, rfl, h⟩
  | succ n ih =>
      obtain ⟨walk', hnext, hpos, -⟩ := h.step hformed hlays (by omega)
      obtain ⟨walk'', hsteps, hpos'⟩ := ih hpos (by omega)
      refine ⟨walk'', (bind_of_ok hnext).trans hsteps, ?_⟩
      rw [show i + (n + 1) = i + 1 + n by omega]
      exact hpos'

end Positions

/-- The addresses of formed groups have 48 bits. -/
theorem GroupsFormed.address_lt (hformed : GroupsFormed gs) : ∀ e ∈ logicalOf gs, e.1 < 2 ^ 48 := by
  intro e he
  obtain ⟨g, hg, he⟩ := List.mem_flatMap.1 he
  obtain ⟨e0, he0, rfl⟩ := List.mem_map.1 he
  have hhi := (hformed.each g hg).keyhi_lt
  have hlo := (hformed.each g hg).keylo_lt e0 he0
  dsimp only
  omega

/-- In a leaf that passes the check, with one extent for each entry and extents that do not
overlap, the probe is right just where no extent of an earlier group reaches over the key. -/
theorem dwalkProbe_iff (hcheck : dleafCheck leaf blocksize = .ok 0)
    (hone : leaf.OneExtentPerEntry) (hdisj : leaf.NonOverlapping) :
    ProbeRight leaf key ↔ leaf.ProbeSees key := by
  obtain ⟨gs, hformed, hlays, -⟩ := dleafCheck_lays hcheck hone
  have hext := hlays.extents_eq hformed
  have hlen : leaf.extents.length = entryCount gs := by
    rw [hext, length_logicalOf]
  unfold Dleaf.NonOverlapping at hdisj
  rw [hext] at hdisj
  have hsorted : AddressesAscend (logicalOf gs) := hdisj.imp fun {e e'} hle => by
    have hpos := e.2.count_pos
    omega
  obtain ⟨walk, i, hprobe, hpos, hat⟩ := @dwalkProbe_result leaf gs key hformed hlays hsorted
  have hi : i ≤ (logicalOf gs).length := by
    rw [length_logicalOf]
    exact hpos.le
  have hfind : leaf.firstAbove key = i ↔ leaf.ProbeSees key := by
    unfold Dleaf.firstAbove
    rw [hext, hat.findIdx_iff hi hdisj hformed.address_lt]
    constructor
    · rintro ⟨hown, hwide⟩
      exact ⟨by rw [hext]; exact hown, by rw [hext]; exact hwide⟩
    · rintro ⟨hown, hwide⟩
      rw [hext] at hown hwide
      exact ⟨hown, hwide⟩
  rw [← hfind]
  constructor
  · rintro ⟨walk', ret, hright, -, hwalks⟩
    rw [hprobe] at hright
    obtain ⟨rfl, -⟩ := Prod.mk.inj (Except.ok.inj hright)
    obtain ⟨walk'', hsteps, hstands, -⟩ := hwalks 0 List.findIdx_le_length
    obtain rfl : walk = walk'' := Except.ok.inj hsteps
    exact hstands.extent.symm.trans hpos.extent_eq
  · intro hfirst
    refine ⟨walk, _, hprobe, ?_, fun j hj => ?_⟩
    · rw [hfirst, hlen]
    · rw [hfirst] at hj ⊢
      obtain ⟨walk', hsteps, hpos'⟩ := hpos.steps hformed hlays (n := j) (hlen ▸ hj)
      exact ⟨walk', hsteps, hpos'.standsOn hformed hlays, hpos'.nextAndBack hformed hlays⟩

end Walks

theorem thousand_lt : 1000 < 2 ^ 48 := by decide

theorem versionZero_lt : 0 < 2 ^ 10 := by decide

/-- One group of one entry: ten blocks at the last address with these high bits. -/
def reachingLeaf : Dleaf where
  magic := 0x1eaf
  groups := 1
  free := 16
  used := 4088
  index := fun p => if p = 1 then indexWord 1 0 else indexWord 1 0xffffff
  table := fun _ => ⟨1000, 10, 0, thousand_lt, by decide, by decide, versionZero_lt⟩

theorem dwalkProbe_iff_reachingLeaf :
    ProbeRight reachingLeaf 0xffffff ↔ reachingLeaf.ProbeSees 0xffffff :=
  @dwalkProbe_iff reachingLeaf 4096 0xffffff rfl ⟨⟨rfl, trivial⟩, trivial⟩
    (List.pairwise_singleton _ _)

/-- The probe passes the extent of the first group that holds the key 0x1000005. -/
theorem dwalkProbe_reaching :
    ¬ ∀ (leaf : Dleaf) (blocksize key : Nat), dleafCheck leaf blocksize = .ok 0 →
      leaf.OneExtentPerEntry → leaf.NonOverlapping → ProbeRight leaf key := by
  intro h
  obtain ⟨walk, ret, hprobe, hret, -⟩ := h reachingLeaf 4096 0x1000005 rfl
    ⟨⟨rfl, trivial⟩, trivial⟩ (List.pairwise_singleton _ _)
  have hzero : dwalkProbe reachingLeaf 0x1000005 =
      .ok (walkEnd 1 [] ⟨0, [(0xffffff, reachingLeaf.table 0)]⟩, 0) := rfl
  rw [hzero] at hprobe
  obtain ⟨-, rfl⟩ := Prod.mk.inj (Except.ok.inj hprobe)
  have hfirst : reachingLeaf.firstAbove 0x1000005 < reachingLeaf.extents.length := by decide
  rw [if_pos hfirst] at hret
  cases hret

end Tux3
