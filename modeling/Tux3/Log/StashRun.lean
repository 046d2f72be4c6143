/-
  Log/StashRun.lean --- the stashes in a run.

  A walk presents the values of a stash in order, whatever the actor does with the memory of the
  pages, as long as the pages that are still to come are kept.  `unstash` frees each page behind
  itself, and `relog_as_bfree` may get it right then for the other stash.
-/
import Tux3.Lib.System
import Tux3.Log.Stash

set_option autoImplicit false

namespace Tux3

/-! ## Presenting the values -/

section Present

variable {τ : Type} {actor : Nat → PageMem × τ → (PageMem × τ) × Int} {stash : Stash}
  {keep front done vals : List Nat} {st : PageMem × τ} {page tail n : Nat}

/-- An actor that succeeds: each value that it gets goes behind those that it has got, and the pages
that are still to come are kept. -/
def ActorOk (actor : Nat → PageMem × τ → (PageMem × τ) × Int)
    (Inv : List Nat → List Nat → PageMem × τ → Prop) : Prop :=
  ∀ keep done val st, (∀ page ∈ keep, page ∈ st.1.used) → Inv keep done st →
    ∃ st', actor val st = (st', 0) ∧ Inv keep (done ++ [val]) st' ∧ KeepPages keep st.1 st'.1

variable {Inv : List Nat → List Nat → PageMem × τ → Prop}

/-- The values of a page are presented in order. -/
theorem presentEntries_spec {i : Nat} (hactor : ActorOk actor Inv) (hpage : page ∈ keep)
    (hused : ∀ page ∈ keep, page ∈ st.1.used) (hinv : Inv keep done st)
    (hle : i + n ≤ pageEntries) :
    ∃ st', presentEntries actor n (pageAddress page + i) st = (st', 0) ∧
      Inv keep (done ++ (List.range' i n).map fun j => st.1.data (pageAddress page + j)) st' ∧
      KeepPages keep st.1 st'.1 := by
  induction n generalizing i st done with
  | zero =>
      refine ⟨st, rfl, ?_, KeepPages.refl _ _⟩
      rw [List.range'_zero, List.map_nil, List.append_nil]
      exact hinv
  | succ n ih =>
      obtain ⟨st', hact, hinv', hkeep⟩ :=
        hactor keep done (st.1.data (pageAddress page + i)) st hused hinv
      have hused' : ∀ page ∈ keep, page ∈ st'.1.used := fun p hp => (hkeep p hp (hused p hp)).1
      obtain ⟨st'', hrun, hinv'', hkeep'⟩ := @ih _ st' (i + 1) hused' hinv' (by omega)
      refine ⟨st'', ?_, ?_, hkeep.trans hkeep'⟩
      · rw [presentEntries, hact]
        exact hrun
      · rw [List.range'_succ, List.map_cons]
        have hdata : (List.range' (i + 1) n).map (fun j => st'.1.data (pageAddress page + j)) =
            (List.range' (i + 1) n).map fun j => st.1.data (pageAddress page + j) :=
          List.map_congr_left fun j hj => (hkeep page hpage (hused page hpage)).2.2 j (by
            have hlt := (List.mem_range'_1.mp hj).2
            omega)
        rw [hdata, List.append_assoc] at hinv''
        exact hinv''

/-- The end of a page of a ring. -/
theorem pageTop_of_ne (htop : stash.top = pageAddress tail + pageEntries) (hne : page ≠ tail) :
    pageTop stash page = pageAddress page + pageEntries := by
  unfold pageTop
  dsimp only
  rw [if_neg fun heq => pageAddress_ne hne (by omega)]

theorem pageTop_tail (htop : stash.top = pageAddress tail + pageEntries) :
    pageTop stash tail = stash.pos := by
  unfold pageTop
  dsimp only
  rw [if_pos htop.symm]

/-- The values of a page that is not the last one. -/
theorem presentEntries_full (hactor : ActorOk actor Inv)
    (htop : stash.top = pageAddress tail + pageEntries) (hne : page ≠ tail) (hpage : page ∈ keep)
    (hused : ∀ page ∈ keep, page ∈ st.1.used) (hinv : Inv keep done st) :
    ∃ st', presentEntries actor (pageTop stash page - pageAddress page) (pageAddress page) st =
        (st', 0) ∧
      Inv keep (done ++ pageVals st.1 pageEntries page) st' ∧ KeepPages keep st.1 st'.1 := by
  rw [pageTop_of_ne htop hne, Nat.add_sub_cancel_left]
  exact presentEntries_spec hactor hpage hused hinv (Nat.le_of_eq (Nat.zero_add _))

/-- The values of the last page. -/
theorem presentEntries_tail (hactor : ActorOk actor Inv)
    (htop : stash.top = pageAddress tail + pageEntries) (hle : stash.pos ≤ stash.top)
    (hpage : tail ∈ keep) (hused : ∀ page ∈ keep, page ∈ st.1.used) (hinv : Inv keep done st) :
    ∃ st', presentEntries actor (pageTop stash tail - pageAddress tail) (pageAddress tail) st =
        (st', 0) ∧
      Inv keep (done ++ pageVals st.1 (stash.pos - pageAddress tail) tail) st' ∧
      KeepPages keep st.1 st'.1 := by
  have hfits : 0 + (stash.pos - pageAddress tail) ≤ pageEntries := by omega
  rw [pageTop_tail htop]
  exact presentEntries_spec hactor hpage hused hinv hfits

/-! ## `unstash` -/

/-- What an actor relies on is kept where a page that has been presented is freed. -/
def DelOk (Inv : List Nat → List Nat → PageMem × τ → Prop) : Prop :=
  ∀ keep tail done st, tail ∈ keep → st.1.next tail ∉ keep → Inv (st.1.next tail :: keep) done st →
    Inv keep done (delPage st.1 tail, st.2)

/-- The values of other pages stay, where the page after the tail is freed. -/
theorem delPage_keep {mem : PageMem} (htail : tail ∉ keep) (hpage : mem.next tail ∉ keep) :
    KeepPages keep mem (delPage mem tail) := by
  intro p hp hused
  have hne : p ≠ mem.next tail := fun heq => hpage (heq ▸ hp)
  have hne' : p ≠ tail := fun heq => htail (heq ▸ hp)
  exact ⟨(List.mem_erase_of_ne hne).mpr hused, Function.update_of_ne hne' _ _, fun _ _ => rfl⟩

/-- The loop of `unstash` presents all the values, and the last page is left. -/
theorem unstashLoop_spec {fuel : Nat} (hactor : ActorOk actor Inv) (hdel : DelOk Inv)
    (hlinked : Linked st.1.next tail (st.1.next tail) front) (hnodup : front.Nodup)
    (hused : ∀ page ∈ front ++ [tail], page ∈ st.1.used)
    (htop : stash.top = pageAddress tail + pageEntries) (hle : stash.pos ≤ stash.top)
    (hfuel : front.length < fuel) (hinv : Inv (front ++ [tail]) done st) :
    ∃ st', unstashLoop actor tail stash fuel st =
        .ok (st', { stash with pos := pageAddress tail }, 0) ∧
      Inv [tail] (done ++ (front.flatMap (pageVals st.1 pageEntries) ++
        pageVals st.1 (stash.pos - pageAddress tail) tail)) st' ∧
      st'.1.next tail = tail ∧ tail ∈ st'.1.used := by
  induction front generalizing fuel done st with
  | nil =>
      cases fuel with
      | zero => cases hfuel
      | succ fuel =>
          have hnext : st.1.next tail = tail := hlinked
          obtain ⟨st', hrun, hinv', hkeep⟩ :=
            presentEntries_tail hactor htop hle List.mem_cons_self hused hinv
          have htail := hkeep tail List.mem_cons_self (hused tail List.mem_cons_self)
          refine ⟨st', ?_, hinv', htail.2.1.trans hnext, htail.1⟩
          rw [unstashLoop, hnext, hrun]
          exact if_pos (htail.2.1.trans hnext)
  | cons page front ih =>
      cases fuel with
      | zero => cases hfuel
      | succ fuel =>
          obtain ⟨hpage, hne, hrest⟩ := hlinked
          rw [List.nodup_cons] at hnodup
          have htailmem : tail ∈ page :: front ++ [tail] :=
            List.mem_append_right _ List.mem_cons_self
          obtain ⟨st', hrun, hinv', hkeep⟩ :=
            @presentEntries_full _ actor stash _ _ _ page tail _ hactor htop hne
              (List.mem_cons_self : page ∈ page :: front ++ [tail]) hused hinv
          have hkept : ∀ p ∈ page :: front ++ [tail], p ∈ st'.1.used ∧
              st'.1.next p = st.1.next p ∧ ∀ i < pageEntries,
                st'.1.data (pageAddress p + i) = st.1.data (pageAddress p + i) :=
            fun p hp => hkeep p hp (hused p hp)
          have hnext : st'.1.next tail = page := ((hkept tail htailmem).2.1).trans hpage
          have hsecond : (delPage st'.1 tail).next tail = st.1.next page := by
            have hself : (delPage st'.1 tail).next tail = st'.1.next (st'.1.next tail) :=
              Function.update_self _ _ _
            rw [hself, hnext]
            exact (hkept page List.mem_cons_self).2.1
          have hpagerest : page ∉ front ++ [tail] := fun hmem =>
            (List.mem_append.mp hmem).elim hnodup.1 fun hmem => hne (List.mem_singleton.mp hmem)
          have hdata : ∀ p ∈ front ++ [tail], ∀ i < pageEntries,
              (delPage st'.1 tail).data (pageAddress p + i) = st.1.data (pageAddress p + i) :=
            fun p hp => (hkept p (List.mem_cons_of_mem _ hp)).2.2
          have hlinked' : Linked (delPage st'.1 tail).next tail ((delPage st'.1 tail).next tail)
              front := by
            rw [hsecond]
            refine hrest.congr fun p hp => ?_
            refine (Function.update_of_ne ?_ _ _).trans
              (hkept p (List.mem_cons_of_mem _ (List.mem_append_left _ hp))).2.1
            exact fun heq => hrest.stop_not_mem (heq ▸ hp)
          have hused' : ∀ p ∈ front ++ [tail], p ∈ (delPage st'.1 tail).used := by
            intro p hp
            refine (List.mem_erase_of_ne ?_).mpr (hkept p (List.mem_cons_of_mem _ hp)).1
            rw [hnext]
            exact fun heq => hpagerest (heq ▸ hp)
          have hinv'' : Inv (front ++ [tail]) (done ++ pageVals st.1 pageEntries page)
              (delPage st'.1 tail, st'.2) := by
            refine hdel _ tail _ st' (List.mem_append_right _ List.mem_cons_self) ?_ ?_
            · rw [hnext]
              exact hpagerest
            · rw [hnext]
              exact hinv'
          obtain ⟨last, hloop, hlast, hring, hin⟩ := @ih _ (delPage st'.1 tail, st'.2) fuel hlinked'
            hnodup.2 hused' (Nat.lt_of_succ_lt_succ hfuel) hinv''
          refine ⟨last, ?_, ?_, hring, hin⟩
          · rw [unstashLoop, hpage, hrun]
            dsimp only
            rw [if_neg (not_not_intro rfl), if_neg (by rw [hnext]; exact hne)]
            exact hloop
          · have hfront : front.flatMap (pageVals (delPage st'.1 tail) pageEntries) =
                front.flatMap (pageVals st.1 pageEntries) := List.flatMap_congr fun p hp =>
              pageVals_congr (Nat.le_refl _) (hdata p (List.mem_append_left _ hp))
            have hvals : pageVals (delPage st'.1 tail) (stash.pos - pageAddress tail) tail =
                pageVals st.1 (stash.pos - pageAddress tail) tail :=
              pageVals_congr (by omega) (hdata tail (List.mem_append_right _ List.mem_cons_self))
            dsimp only at hlast
            rw [hfront, hvals] at hlast
            rw [List.flatMap_cons, List.append_assoc, ← List.append_assoc done]
            exact hlast

/-- A ring has no more pages than are in use. -/
theorem Stash.Ring.length_le {mem : PageMem} (h : stash.Ring mem front tail vals) :
    front.length < mem.used.length := by
  have hnodup : (front ++ [tail]).Nodup := List.nodup_append.mpr
    ⟨h.nodup, List.nodup_singleton _, fun a ha b hb => by
      rw [List.mem_singleton.mp hb]
      exact fun heq => h.linked.stop_not_mem (heq ▸ ha)⟩
  have hle := (List.subperm_of_subset hnodup h.used).length_le
  rw [List.length_append, List.length_singleton] at hle
  exact hle

/-- `unstash` presents all the values in order, and the stash is empty then, with one page at most. -/
theorem unstash_spec {pages : List Nat} (hactor : ActorOk actor Inv) (hdel : DelOk Inv)
    (h : stash.Holds st.1 pages vals) (hinv : Inv pages done st) :
    ∃ st' stash' pages', unstash actor stash st = .ok (st', stash', 0) ∧
      stash'.Holds st'.1 pages' [] ∧ Inv pages' (done ++ vals) st' := by
  obtain ⟨rfl, rfl, rfl⟩ | ⟨front, tail, rfl, hring⟩ := h
  · exact ⟨st, stashInit, [], rfl, stashInit_holds _, by rw [List.append_nil]; exact hinv⟩
  · obtain ⟨st', hrun, hinv', hnext, hin⟩ := unstashLoop_spec hactor hdel hring.linked hring.nodup
      hring.used hring.top_eq hring.pos_le (Nat.lt_succ_of_lt hring.length_le) hinv
    refine ⟨st', { stash with pos := pageAddress tail }, [tail], ?_, Or.inr ⟨[], tail, rfl, ?_⟩,
      hring.vals_eq ▸ hinv'⟩
    · unfold unstash
      rw [hring.tail_eq] at hrun ⊢
      exact hrun
    · refine ⟨hring.tail_eq, hnext, List.nodup_nil, ?_, hring.top_eq, Nat.le_refl _, ?_, ?_⟩
      · exact fun p hp => (List.mem_singleton.mp hp) ▸ hin
      · exact Nat.le_trans hring.pos_ge hring.pos_le
      · change [] = [] ++ pageVals _ (pageAddress tail - pageAddress tail) tail
        rw [Nat.sub_self]
        rfl

/-! ## `stash_walk` -/

/-- The loop of `stash_walk` goes on from a page over the rest of the ring. -/
theorem stashWalkLoop_spec {fuel first link : Nat} {rest : List Nat} (hactor : ActorOk actor Inv)
    (hlinked : Linked st.1.next tail link rest) (hfirst : st.1.next tail = first)
    (hnotin : first ∉ (rest ++ [tail]).tail) (hrest : ∀ page ∈ rest ++ [tail], page ∈ keep)
    (hused : ∀ page ∈ keep, page ∈ st.1.used)
    (htop : stash.top = pageAddress tail + pageEntries) (hle : stash.pos ≤ stash.top)
    (hfuel : rest.length < fuel) (hinv : Inv keep done st) :
    ∃ st', stashWalkLoop actor stash first fuel link st = .ok (st', 0) ∧
      Inv keep (done ++ (rest.flatMap (pageVals st.1 pageEntries) ++
        pageVals st.1 (stash.pos - pageAddress tail) tail)) st' ∧ KeepPages keep st.1 st'.1 := by
  induction rest generalizing fuel link done st with
  | nil =>
      cases fuel with
      | zero => cases hfuel
      | succ fuel =>
          obtain rfl : link = tail := hlinked
          have hmem := hrest link List.mem_cons_self
          obtain ⟨st', hrun, hinv', hkeep⟩ :=
            presentEntries_tail hactor htop hle hmem hused hinv
          refine ⟨st', ?_, hinv', hkeep⟩
          rw [stashWalkLoop, hrun]
          dsimp only
          rw [if_neg (not_not_intro rfl), if_neg (not_not_intro
            ((hkeep link hmem (hused link hmem)).2.1.trans hfirst))]
  | cons page rest ih =>
      cases fuel with
      | zero => cases hfuel
      | succ fuel =>
          obtain ⟨rfl, hne, hlink⟩ := hlinked
          have hmem := hrest link List.mem_cons_self
          have hrest' : ∀ p ∈ rest ++ [tail], p ∈ keep := fun p hp =>
            hrest p (List.mem_cons_of_mem _ hp)
          obtain ⟨st', hrun, hinv', hkeep⟩ :=
            presentEntries_full hactor htop hne hmem hused hinv
          have hkept : ∀ p ∈ keep, p ∈ st'.1.used ∧ st'.1.next p = st.1.next p ∧
              ∀ i < pageEntries, st'.1.data (pageAddress p + i) = st.1.data (pageAddress p + i) :=
            fun p hp => hkeep p hp (hused p hp)
          have htail := hrest' tail (List.mem_append_right _ List.mem_cons_self)
          have hnext := (hkept link hmem).2.1
          have hlinked' : Linked st'.1.next tail (st'.1.next link) rest := by
            rw [hnext]
            exact hlink.congr fun p hp => (hkept p (hrest' p (List.mem_append_left _ hp))).2.1
          have hgoes : st'.1.next link ≠ first := by
            rintro rfl
            have hin : st'.1.next link ∈ rest ++ [tail] := hlinked'.head_mem.elim
              (fun heq => heq ▸ List.mem_append_right _ List.mem_cons_self)
              fun hp => List.mem_append_left _ hp
            exact hnotin hin
          have hnotin' : first ∉ (rest ++ [tail]).tail := fun hp => hnotin (List.mem_of_mem_tail hp)
          obtain ⟨last, hloop, hlast, hkeep'⟩ := @ih _ st' fuel _ hlinked'
            ((hkept tail htail).2.1.trans hfirst) hnotin' hrest' (fun p hp => (hkept p hp).1)
            (Nat.lt_of_succ_lt_succ hfuel) hinv'
          refine ⟨last, ?_, ?_, hkeep.trans hkeep'⟩
          · rw [stashWalkLoop, hrun]
            dsimp only
            rw [if_neg (not_not_intro rfl), if_pos hgoes]
            exact hloop
          · have hfront : rest.flatMap (pageVals st'.1 pageEntries) =
                rest.flatMap (pageVals st.1 pageEntries) := List.flatMap_congr fun p hp =>
              pageVals_congr (Nat.le_refl _) (hkept p (hrest' p (List.mem_append_left _ hp))).2.2
            have hvals : pageVals st'.1 (stash.pos - pageAddress tail) tail =
                pageVals st.1 (stash.pos - pageAddress tail) tail :=
              pageVals_congr (by omega) (hkept tail htail).2.2
            rw [hfront, hvals] at hlast
            rw [List.flatMap_cons, List.append_assoc, ← List.append_assoc done]
            exact hlast

/-- `stash_walk` presents all the values in order, and the stash keeps them. -/
theorem stashWalk_spec {pages : List Nat} (hactor : ActorOk actor Inv)
    (h : stash.Holds st.1 pages vals) (hinv : Inv pages done st) :
    ∃ st', stashWalk actor stash st = .ok (st', 0) ∧ stash.Holds st'.1 pages vals ∧
      Inv pages (done ++ vals) st' := by
  obtain ⟨rfl, rfl, rfl⟩ | ⟨front, tail, rfl, hring⟩ := id h
  · exact ⟨st, rfl, stashInit_holds _, by rw [List.append_nil]; exact hinv⟩
  · have hnotin : st.1.next tail ∉ (front ++ [tail]).tail := by
      intro hmem
      have hlinked := hring.linked
      cases front with
      | nil => exact absurd hmem List.not_mem_nil
      | cons page front =>
          obtain ⟨hpage, hne, -⟩ := hlinked
          rw [hpage] at hmem
          exact (List.mem_append.mp hmem).elim (List.nodup_cons.mp hring.nodup).1
            fun hmem => hne (List.mem_singleton.mp hmem)
    obtain ⟨st', hrun, hinv', hkeep⟩ := stashWalkLoop_spec hactor hring.linked rfl hnotin
      (fun _ hp => hp) hring.used hring.top_eq hring.pos_le (Nat.lt_succ_of_lt hring.length_le) hinv
    refine ⟨st', ?_, h.keep hkeep, hring.vals_eq ▸ hinv'⟩
    unfold stashWalk
    rw [hring.tail_eq]
    exact hrun

end Present

/-! ## The stashes of a volume -/

/-- `sb->defree` and `sb->deunify`. -/
inductive StashName where
  | defree
  | deunify
  deriving DecidableEq, Repr

/-- The stashes of a volume, and the memory of their pages. -/
structure StashSb where
  mem : PageMem
  stash : StashName → Stash

/-- An actor that does not use the memory of the pages, and succeeds. -/
def plainActor {τ : Type} (f : Nat → τ → τ) (val : Nat) (st : PageMem × τ) :
    (PageMem × τ) × Int :=
  ((st.1, f val st.2), 0)

/-- `relog_as_bfree`: the record is logged, and the value goes to `sb->defree`. -/
def relogAsBfree (alloc : List Nat → Option Nat) (val : Nat)
    (st : PageMem × Stash × List BlockSegment) : (PageMem × Stash × List BlockSegment) × Int :=
  let ((mem, defree), err) := stashValue alloc st.1 st.2.1 val
  ((mem, defree, st.2.2 ++ [valSegment val]), err)

/-- What the stashes do, with the blocks that are in them. -/
inductive StashStep : StashSb × (StashName → List Nat) → StashSb × (StashName → List Nat) → Prop
  | deferBfree {sb : StashSb} {queued : StashName → List Nat} {name : StashName}
      {alloc : List Nat → Option Nat} {block count left : Nat} {mem' : PageMem} {stash' : Stash}
      {err : Int} (halloc : AllocFresh alloc)
      (hblocks : ∀ b ∈ BlockSegment.blocks ⟨block, count⟩, b < 2 ^ 48)
      (h : Tux3.deferBfree alloc sb.mem (sb.stash name) block count =
        .ok ((mem', stash'), err, left)) :
      StashStep (sb, queued) (⟨mem', Function.update sb.stash name stash'⟩,
        Function.update queued name
          (queued name ++ BlockSegment.blocks ⟨block, count - left⟩))
  | stashWalk {sb : StashSb} {queued : StashName → List Nat} {name : StashName} {τ : Type}
      {f : Nat → τ → τ} {t t' : τ} {mem' : PageMem}
      (h : Tux3.stashWalk (plainActor f) (sb.stash name) (sb.mem, t) = .ok ((mem', t'), 0)) :
      StashStep (sb, queued) (⟨mem', sb.stash⟩, queued)
  | unstash {sb : StashSb} {queued : StashName → List Nat} {name : StashName} {τ : Type}
      {f : Nat → τ → τ} {t t' : τ} {mem' : PageMem} {stash' : Stash}
      (h : Tux3.unstash (plainActor f) (sb.stash name) (sb.mem, t) =
        .ok ((mem', t'), stash', 0)) :
      StashStep (sb, queued) (⟨mem', Function.update sb.stash name stash'⟩,
        Function.update queued name [])
  | relog {sb : StashSb} {queued : StashName → List Nat} {alloc : List Nat → Option Nat}
      {log log' : List BlockSegment} {mem' : PageMem} {stash' defree' : Stash}
      (halloc : AllocFresh alloc) (hpages : ∀ used, alloc used ≠ none)
      (h : Tux3.unstash (relogAsBfree alloc) (sb.stash .deunify) (sb.mem, sb.stash .defree, log) =
        .ok ((mem', defree', log'), stash', 0)) :
      StashStep (sb, queued)
        (⟨mem', Function.update (Function.update sb.stash .deunify stash') .defree defree'⟩,
          Function.update (Function.update queued .deunify []) .defree
            (queued .defree ++ queued .deunify))

/-- The stashes of a volume, which are empty at first. -/
def stashSystem : System (StashSb × (StashName → List Nat)) where
  init := fun st => (st.1.stash = fun _ => stashInit) ∧ st.2 = fun _ => []
  next := StashStep

/-- Both stashes hold some values on pages of their own. -/
structure StashSb.HoldsAll (sb : StashSb) (pages vals : StashName → List Nat) : Prop where
  holds : ∀ name, (sb.stash name).Holds sb.mem (pages name) (vals name)
  apart : ∀ name name', name ≠ name' → ∀ p ∈ pages name, p ∉ pages name'

/-- The records of some blocks are in the stashes. -/
def StashSb.Queued (sb : StashSb) (queued : StashName → List Nat) : Prop :=
  ∃ pages vals, sb.HoldsAll pages vals ∧
    ∀ name, RecordsOk (vals name) ∧ valBlocks (vals name) = queued name

section Volume

variable {sb : StashSb} {queued pages vals : StashName → List Nat} {name : StashName} {τ : Type}
  {f : Nat → τ → τ} {t : τ}

/-- One stash gets other values, and the other one stays. -/
theorem StashSb.HoldsAll.update {mem' : PageMem} {stash' : Stash} {pages' vals' : List Nat}
    (hholds : stash'.Holds mem' pages' vals')
    (hother : ∀ name', name' ≠ name → (sb.stash name').Holds mem' (pages name') (vals name'))
    (hapart : ∀ name', name' ≠ name → ∀ p ∈ pages name', p ∉ pages')
    (h : sb.HoldsAll pages vals) :
    StashSb.HoldsAll ⟨mem', Function.update sb.stash name stash'⟩
      (Function.update pages name pages') (Function.update vals name vals') := by
  constructor
  · intro name'
    obtain rfl | hne := eq_or_ne name' name
    · simp only [Function.update_self]
      exact hholds
    · simp only [Function.update_of_ne hne]
      exact hother name' hne
  · intro name₁ name₂ hne p hp
    obtain rfl | hne₁ := eq_or_ne name₁ name
    · rw [Function.update_self] at hp
      rw [Function.update_of_ne hne.symm]
      exact fun hp' => hapart name₂ hne.symm p hp' hp
    · rw [Function.update_of_ne hne₁] at hp
      obtain rfl | hne₂ := eq_or_ne name₂ name
      · rw [Function.update_self]
        exact hapart name₁ hne₁ p hp
      · rw [Function.update_of_ne hne₂]
        exact h.apart name₁ name₂ hne p hp

/-- `defer_bfree` of 48 bit blocks. -/
theorem deferBfree_spec {alloc : List Nat → Option Nat} {mem : PageMem} {stash : Stash}
    {pages vals : List Nat} {block count : Nat} (halloc : AllocFresh alloc)
    (h : stash.Holds mem pages vals)
    (hblocks : ∀ b ∈ BlockSegment.blocks ⟨block, count⟩, b < 2 ^ 48) :
    ∃ mem' stash' err left pages' more,
      deferBfree alloc mem stash block count = .ok ((mem', stash'), err, left) ∧
        Stash.Added mem pages vals more mem' stash' pages' ∧ RecordsOk more ∧ left ≤ count ∧
        valBlocks more = BlockSegment.blocks ⟨block, count - left⟩ ∧
        (err = 0 ∧ left = 0 ∨ err = -enomem ∧ ∃ used, alloc used = none) := by
  refine deferLoop_spec halloc h ?_ (by omega)
  obtain rfl | hcount := eq_or_ne count 0
  · exact Or.inl rfl
  · have hlast := hblocks (block + (count - 1))
      (BlockSegment.mem_blocks.mpr ⟨Nat.le_add_right _ _, by dsimp only; omega⟩)
    exact Or.inr (by omega)

/-- A walk with an actor that leaves the pages alone. -/
theorem stashWalk_plain {mem : PageMem} {stash : Stash} {pages vals : List Nat}
    (h : stash.Holds mem pages vals) :
    stashWalk (plainActor f) stash (mem, t) =
      .ok ((mem, vals.foldl (fun t val => f val t) t), 0) := by
  have hactor : ActorOk (plainActor f) fun _ done st =>
      st.1 = mem ∧ st.2 = done.foldl (fun t val => f val t) t := by
    intro keep done val st _ hinv
    refine ⟨(st.1, f val st.2), rfl, ⟨hinv.1, ?_⟩, KeepPages.refl _ _⟩
    rw [List.foldl_append, hinv.2]
    rfl
  obtain ⟨⟨mem', t'⟩, hrun, -, rfl, rfl⟩ := @stashWalk_spec _ _ _ [] vals (mem, t) _ _ hactor h
    ⟨rfl, rfl⟩
  exact hrun

/-- `unstash` with an actor that leaves the pages alone, beside the stash that is not walked. -/
theorem unstash_plain (h : sb.HoldsAll pages vals) :
    ∃ mem' stash' pages', unstash (plainActor f) (sb.stash name) (sb.mem, t) =
        .ok ((mem', (vals name).foldl (fun t val => f val t) t), stash', 0) ∧
      StashSb.HoldsAll ⟨mem', Function.update sb.stash name stash'⟩
        (Function.update pages name pages') (Function.update vals name []) := by
  have hactor : ActorOk (plainActor f) fun keep done st =>
      st.2 = done.foldl (fun t val => f val t) t ∧ ∀ name', name' ≠ name →
        (sb.stash name').Holds st.1 (pages name') (vals name') ∧ ∀ p ∈ pages name', p ∉ keep := by
    intro keep done val st _ hinv
    refine ⟨(st.1, f val st.2), rfl, ⟨?_, hinv.2⟩, KeepPages.refl _ _⟩
    rw [List.foldl_append, hinv.1]
    rfl
  have hdel : DelOk fun keep done (st : PageMem × τ) =>
      st.2 = done.foldl (fun t val => f val t) t ∧ ∀ name', name' ≠ name →
        (sb.stash name').Holds st.1 (pages name') (vals name') ∧ ∀ p ∈ pages name', p ∉ keep := by
    intro keep tail done st htail _ hinv
    refine ⟨hinv.1, fun name' hne => ?_⟩
    obtain ⟨hholds, hapart⟩ := hinv.2 name' hne
    refine ⟨hholds.keep (delPage_keep ?_ ?_), fun p hp hmem => ?_⟩
    · exact fun hp => hapart tail hp (List.mem_cons_of_mem _ htail)
    · exact fun hp => hapart _ hp List.mem_cons_self
    · exact hapart p hp (List.mem_cons_of_mem _ hmem)
  obtain ⟨⟨mem', t'⟩, stash', pages', hrun, hholds, rfl, hother⟩ :=
    @unstash_spec _ _ _ [] _ (sb.mem, t) _ _ hactor hdel (h.holds name) ⟨rfl, fun name' hne =>
      ⟨h.holds name', h.apart name' name hne⟩⟩
  exact ⟨mem', stash', pages', hrun, h.update hholds (fun name' hne => (hother name' hne).1)
    fun name' hne => (hother name' hne).2⟩

/-- `unstash` of `sb->deunify` with `relog_as_bfree`: the values go to `sb->defree` in order, and
each is logged. -/
theorem unstash_relog {alloc : List Nat → Option Nat} {log : List BlockSegment}
    (halloc : AllocFresh alloc) (hpages : ∀ used, alloc used ≠ none) (h : sb.HoldsAll pages vals) :
    ∃ mem' defree' stash' pagesDefree pagesDeunify,
      unstash (relogAsBfree alloc) (sb.stash .deunify) (sb.mem, sb.stash .defree, log) =
        .ok ((mem', defree', log ++ (vals .deunify).map valSegment), stash', 0) ∧
      StashSb.HoldsAll
        ⟨mem', Function.update (Function.update sb.stash .deunify stash') .defree defree'⟩
        (Function.update (Function.update pages .deunify pagesDeunify) .defree pagesDefree)
        (Function.update (Function.update vals .deunify []) .defree
          (vals .defree ++ vals .deunify)) := by
  have hactor : ActorOk (relogAsBfree alloc) fun keep done st =>
      st.2.2 = log ++ done.map valSegment ∧ ∃ defreePages,
        st.2.1.Holds st.1 defreePages (vals .defree ++ done) ∧ ∀ p ∈ defreePages, p ∉ keep := by
    intro keep done val st hused hinv
    obtain ⟨hlog, defreePages, hholds, hapart⟩ := hinv
    obtain ⟨hnone, -⟩ | ⟨mem', defree', pages', heq, hadded⟩ :=
      @stashValue_spec st.1 st.2.1 defreePages _ alloc val halloc hholds
    · exact absurd hnone (hpages _)
    · refine ⟨(mem', defree', st.2.2 ++ [valSegment val]), ?_, ⟨?_, pages', ?_, ?_⟩,
        hadded.keep fun p hp hmem => hapart p hmem hp⟩
      · unfold relogAsBfree
        rw [heq]
      · rw [hlog, List.map_append, List.append_assoc]
        rfl
      · rw [← List.append_assoc]
        exact hadded.holds
      · exact fun p hp hmem =>
          (hadded.others p (hused p hmem) fun hp' => hapart p hp' hmem).1 hp
  have hdel : DelOk fun keep done (st : PageMem × Stash × List BlockSegment) =>
      st.2.2 = log ++ done.map valSegment ∧ ∃ defreePages,
        st.2.1.Holds st.1 defreePages (vals .defree ++ done) ∧ ∀ p ∈ defreePages, p ∉ keep := by
    intro keep tail done st htail _ hinv
    obtain ⟨hlog, defreePages, hholds, hapart⟩ := hinv
    refine ⟨hlog, defreePages, hholds.keep (delPage_keep ?_ ?_), fun p hp hmem => ?_⟩
    · exact fun hp => hapart tail hp (List.mem_cons_of_mem _ htail)
    · exact fun hp => hapart _ hp List.mem_cons_self
    · exact hapart p hp (List.mem_cons_of_mem _ hmem)
  have hstart : (sb.stash .defree).Holds sb.mem (pages .defree) (vals .defree ++ []) := by
    rw [List.append_nil]
    exact h.holds .defree
  obtain ⟨⟨mem', defree', log'⟩, stash', pagesDeunify, hrun, hholds, rfl, pagesDefree, hdefree,
    hapart⟩ := @unstash_spec _ _ _ [] _ (sb.mem, sb.stash .defree, log) _ _ hactor hdel
      (h.holds .deunify)
      ⟨(List.append_nil _).symm, pages .defree, hstart, h.apart .defree .deunify (by decide)⟩
  refine ⟨mem', defree', stash', pagesDefree, pagesDeunify, hrun, fun name => ?_,
    fun name₁ name₂ hne p hp hmem => ?_⟩
  · cases name with
    | defree => exact hdefree
    | deunify => exact hholds
  · cases name₁ with
    | defree =>
        cases name₂ with
        | defree => exact hne rfl
        | deunify => exact hapart p hp hmem
    | deunify =>
        cases name₂ with
        | defree => exact hapart p hmem hp
        | deunify => exact hne rfl

/-- A step keeps the records of the blocks. -/
theorem StashSb.Queued.step {st st' : StashSb × (StashName → List Nat)} (h : st.1.Queued st.2)
    (hstep : StashStep st st') : st'.1.Queued st'.2 := by
  obtain ⟨pages, vals, hall, hrecords⟩ := h
  cases hstep with
  | @deferBfree sb queued name alloc block count left mem' stash' err halloc hblocks hrun =>
      obtain ⟨mem'', stash'', err', left', pages', more, hrun', hadded, hmore, -, hblocks', -⟩ :=
        deferBfree_spec halloc (hall.holds name) hblocks
      obtain ⟨⟨rfl, rfl⟩, rfl, rfl⟩ : (mem'' = mem' ∧ stash'' = stash') ∧ err' = err ∧
          left' = left := by
        simpa only [Except.ok.injEq, Prod.mk.injEq] using hrun'.symm.trans hrun
      refine ⟨_, _, hall.update hadded.holds (fun name' hne => (hall.holds name').keep
        (hadded.keep (hall.apart name' name hne))) (fun name' hne p hp =>
          (hadded.others p ((hall.holds name').used p hp) (hall.apart name' name hne p hp)).1),
        fun name' => ?_⟩
      obtain rfl | hne := eq_or_ne name' name
      · simp only [Function.update_self]
        refine ⟨List.forall_mem_append.mpr ⟨(hrecords name').1, hmore⟩, ?_⟩
        rw [valBlocks_append, (hrecords name').2, hblocks']
      · simp only [Function.update_of_ne hne]
        exact hrecords name'
  | @stashWalk sb queued name τ f t t' mem' hrun =>
      have hmem : sb.mem = mem' := by
        have hok := Except.ok.inj ((stashWalk_plain (hall.holds name)).symm.trans hrun)
        exact (Prod.mk.inj (Prod.mk.inj hok).1).1
      obtain rfl := hmem
      exact ⟨pages, vals, hall, hrecords⟩
  | @unstash sb queued name τ f t t' mem' stash' hrun =>
      obtain ⟨mem'', stash'', pages', hrun', hall'⟩ := @unstash_plain sb pages vals name τ f t hall
      obtain ⟨⟨rfl, -⟩, rfl⟩ : (mem'' = mem' ∧ _ = t') ∧ stash'' = stash' := by
        simpa only [Except.ok.injEq, Prod.mk.injEq, and_true] using hrun'.symm.trans hrun
      refine ⟨_, _, hall', fun name' => ?_⟩
      obtain rfl | hne := eq_or_ne name' name
      · simp only [Function.update_self]
        exact ⟨fun _ hv => absurd hv List.not_mem_nil, rfl⟩
      · simp only [Function.update_of_ne hne]
        exact hrecords name'
  | @relog sb queued alloc log log' mem' stash' defree' halloc hpages hrun =>
      obtain ⟨mem'', defree'', stash'', pagesDefree, pagesDeunify, hrun', hall'⟩ :=
        @unstash_relog sb pages vals alloc log halloc hpages hall
      obtain ⟨⟨rfl, rfl, -⟩, rfl⟩ : (mem'' = mem' ∧ defree'' = defree' ∧ _ = log') ∧
          stash'' = stash' := by
        simpa only [Except.ok.injEq, Prod.mk.injEq, and_true] using hrun'.symm.trans hrun
      refine ⟨_, _, hall', fun name' => ?_⟩
      cases name' with
      | defree =>
          refine ⟨List.forall_mem_append.mpr ⟨(hrecords .defree).1, (hrecords .deunify).1⟩, ?_⟩
          exact (valBlocks_append _ _).trans
            (congrArg₂ (· ++ ·) (hrecords .defree).2 (hrecords .deunify).2)
      | deunify => exact ⟨fun _ hv => absurd hv List.not_mem_nil, rfl⟩

/-- In every run the stashes hold the records of the blocks. -/
theorem queued_of_reachable {st : StashSb × (StashName → List Nat)}
    (h : stashSystem.Reachable st) : st.1.Queued st.2 := by
  refine System.Reachable.invariant (I := fun st => st.1.Queued st.2) ?_ ?_ h
  · intro st hinit
    obtain ⟨hstash, hqueued⟩ := hinit
    refine ⟨fun _ => [], fun _ => [], ⟨fun name => ?_, fun _ _ _ p hp => absurd hp List.not_mem_nil⟩,
      fun name => ⟨fun _ hv => absurd hv List.not_mem_nil, ?_⟩⟩
    · rw [hstash]
      exact stashInit_holds _
    · rw [hqueued]
      rfl
  · exact fun st st' hqueued hstep => hqueued.step hstep

end Volume

/-- In every run, the records of a stash are those of the blocks that have been deferred since the
last `unstash`, in order, and each has from 1 to 65535 blocks.  `stash_walk` presents them and
changes nothing, `unstash` presents them, also where the actor puts them into the other stash, and
`defer_bfree` ends, with all the blocks if there is memory. -/
theorem stash_run {st : StashSb × (StashName → List Nat)} (h : stashSystem.Reachable st)
    (name : StashName) :
    ∃ vals, RecordsOk vals ∧ valBlocks vals = st.2 name ∧
      (∀ (τ : Type) (f : Nat → τ → τ) (t : τ),
        stashWalk (plainActor f) (st.1.stash name) (st.1.mem, t) =
          .ok ((st.1.mem, vals.foldl (fun t val => f val t) t), 0)) ∧
      (∀ (τ : Type) (f : Nat → τ → τ) (t : τ), ∃ mem' stash',
        unstash (plainActor f) (st.1.stash name) (st.1.mem, t) =
          .ok ((mem', vals.foldl (fun t val => f val t) t), stash', 0)) ∧
      (name = .deunify → ∀ alloc log, AllocFresh alloc → (∀ used, alloc used ≠ none) →
        ∃ mem' defree' stash', unstash (relogAsBfree alloc) (st.1.stash .deunify)
            (st.1.mem, st.1.stash .defree, log) =
          .ok ((mem', defree', log ++ vals.map valSegment), stash', 0)) ∧
      ∀ alloc, AllocFresh alloc → ∀ block count,
        (∀ b ∈ BlockSegment.blocks ⟨block, count⟩, b < 2 ^ 48) →
        ∃ mem' stash' err left, deferBfree alloc st.1.mem (st.1.stash name) block count =
            .ok ((mem', stash'), err, left) ∧
          (err = 0 ∧ left = 0 ∨ err = -enomem ∧ ∃ used, alloc used = none) := by
  obtain ⟨pages, vals, hall, hrecords⟩ := queued_of_reachable h
  refine ⟨vals name, (hrecords name).1, (hrecords name).2,
    fun τ f t => stashWalk_plain (hall.holds name), fun τ f t => ?_, ?_, ?_⟩
  · obtain ⟨mem', stash', -, hrun, -⟩ := @unstash_plain st.1 pages vals name τ f t hall
    exact ⟨mem', stash', hrun⟩
  · rintro rfl alloc log halloc hpages
    obtain ⟨mem', defree', stash', -, -, hrun, -⟩ :=
      @unstash_relog st.1 pages vals alloc log halloc hpages hall
    exact ⟨mem', defree', stash', hrun⟩
  · intro alloc halloc block count hblocks
    obtain ⟨mem', stash', err, left, -, -, hrun, -, -, -, -, herr⟩ :=
      deferBfree_spec halloc (hall.holds name) hblocks
    exact ⟨mem', stash', err, left, hrun, herr⟩

/-- Three blocks are deferred in a fresh stash, with page 1. -/
theorem stash_run_deferred : ∃ st, stashSystem.Reachable st ∧ st.2 .defree = [5, 6, 7] ∧
    ∃ vals, RecordsOk vals ∧ valBlocks vals = [5, 6, 7] := by
  have halloc : AllocFresh fun used => if used = [] then some 1 else none := by
    intro used page h
    dsimp only at h
    split at h
    · rename_i hnil
      rw [hnil]
      exact List.not_mem_nil
    · cases h
  have hblocks : ∀ b ∈ BlockSegment.blocks ⟨5, 3⟩, b < 2 ^ 48 := by decide
  have hinit : stashSystem.Reachable
      (⟨⟨fun _ => 0, fun _ => 0, []⟩, fun _ => stashInit⟩, fun _ => []) := .init ⟨rfl, rfl⟩
  have hreach := hinit.next
    (@StashStep.deferBfree _ _ .defree _ _ _ _ _ _ _ halloc hblocks rfl)
  obtain ⟨vals, hok, hvals, -⟩ := stash_run hreach .defree
  exact ⟨_, hreach, rfl, vals, hok, hvals⟩

end Tux3
