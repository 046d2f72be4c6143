/-
  Log/Stash.lean --- the queues of deferred frees.

  A stash is a ring of pages with 64 bit values; `pos` and `top` are where the next value goes in
  the last page, and where that page ends.  A walk knows the last page by its end.  `unstash` frees
  all pages but the last one, which it keeps for the values to come.  The two stashes of a volume
  take their pages from the same memory, and the actor of one walk may be what fills the other.
-/
import Mathlib.Logic.Function.Basic
import Tux3.Lib.Linked
import Tux3.Volume

set_option autoImplicit false

namespace Tux3

/-! ## Pages -/

/-- The values of a page: `PAGE_SIZE` is `1 << 6`. -/
def pageEntries : Nat := 8

/-- `page_address`, in values. -/
def pageAddress (page : Nat) : Nat := page * pageEntries

/-- The memory of the pages: the link in `page->private`, the values, and the pages in use. -/
structure PageMem where
  next : Nat → Nat
  data : Nat → Nat
  used : List Nat

/-- `struct stash`; the head is the tail of its ring. -/
structure Stash where
  tail : Option Nat
  pos : Nat
  top : Nat
  deriving DecidableEq, Repr

/-- `stash_init`. -/
def stashInit : Stash := ⟨none, 0, 0⟩

/-- `alloc_page` and `flink_add`, or `flink_first_add`, whose assert is what the branch is for. -/
def addPage (mem : PageMem) (stash : Stash) (page : Nat) : PageMem × Stash :=
  let next :=
    match stash.tail with
    | some tail => Function.update (Function.update mem.next page (mem.next tail)) tail page
    | none => Function.update mem.next page page
  ({ mem with next := next, used := page :: mem.used },
    { tail := some page, pos := pageAddress page, top := pageAddress page + pageEntries })

/-- `*stash->pos++ = value`. -/
def putValue (mem : PageMem) (stash : Stash) (value : Nat) : PageMem × Stash :=
  ({ mem with data := Function.update mem.data stash.pos value },
    { stash with pos := stash.pos + 1 })

/-- `stash_value`.  What `alloc_page` returns depends on the pages in use. -/
def stashValue (alloc : List Nat → Option Nat) (mem : PageMem) (stash : Stash) (value : Nat) :
    (PageMem × Stash) × Int :=
  if stash.pos = stash.top then
    match alloc mem.used with
    | none => ((mem, stash), -enomem)
    | some page =>
        let (mem, stash) := addPage mem stash page
        (putValue mem stash value, 0)
  else (putValue mem stash value, 0)

/-- The loop of `defer_bfree`: 65535 is what the 16 bits of a count can have.  The last result is the
count that is left. -/
def deferLoop (alloc : List Nat → Option Nat) :
    Nat → Nat → Nat → PageMem × Stash → Except TuxError ((PageMem × Stash) × Int × Nat)
  | 0, _, _, _ => .error .fuel
  | fuel + 1, block, count, (mem, stash) =>
      if count ≠ 0 then
        let c := min count 65535
        let (st, err) := stashValue alloc mem stash ((c * 2 ^ 48 + block) % 2 ^ 64)
        if err ≠ 0 then .ok (st, err, count)
        else deferLoop alloc fuel (block + c) (count - c) st
      else .ok ((mem, stash), 0, 0)

/-- `defer_bfree`. -/
def deferBfree (alloc : List Nat → Option Nat) (mem : PageMem) (stash : Stash) (block count : Nat) :
    Except TuxError ((PageMem × Stash) × Int × Nat) :=
  deferLoop alloc (count / 65535 + 2) block count (mem, stash)

/-! ## Walks -/

section Walk

variable {τ : Type}

/-- The loop over `n` values of a page from `vec` on.  An actor may use the memory of the pages. -/
def presentEntries (actor : Nat → PageMem × τ → (PageMem × τ) × Int) :
    Nat → Nat → PageMem × τ → (PageMem × τ) × Int
  | 0, _, st => (st, 0)
  | n + 1, vec, st =>
      let (st', err) := actor (st.1.data vec) st
      if err ≠ 0 then (st', err) else presentEntries actor n (vec + 1) st'

/-- `top` of a page in `unstash` and `stash_walk`. -/
def pageTop (stash : Stash) (page : Nat) : Nat :=
  let top := pageAddress page + pageEntries
  if top = stash.top then stash.pos else top

/-- `flink_del_next` and `__free_page`, of the page after the tail. -/
def delPage (mem : PageMem) (tail : Nat) : PageMem :=
  { mem with
    next := Function.update mem.next tail (mem.next (mem.next tail))
    used := mem.used.erase (mem.next tail) }

/-- The loop of `unstash`. -/
def unstashLoop (actor : Nat → PageMem × τ → (PageMem × τ) × Int) (tail : Nat) (stash : Stash) :
    Nat → PageMem × τ → Except TuxError ((PageMem × τ) × Stash × Int)
  | 0, _ => .error .fuel
  | fuel + 1, st =>
      let page := st.1.next tail
      let (st', err) :=
        presentEntries actor (pageTop stash page - pageAddress page) (pageAddress page) st
      if err ≠ 0 then .ok (st', stash, err)
      else if st'.1.next tail = tail then .ok (st', { stash with pos := pageAddress page }, 0)
      else unstashLoop actor tail stash fuel (delPage st'.1 tail, st'.2)

/-- `unstash`. -/
def unstash (actor : Nat → PageMem × τ → (PageMem × τ) × Int) (stash : Stash) (st : PageMem × τ) :
    Except TuxError ((PageMem × τ) × Stash × Int) :=
  match stash.tail with
  | none => .ok (st, stash, 0)
  | some tail => unstashLoop actor tail stash (st.1.used.length + 1) st

/-- The loop of `stash_walk`. -/
def stashWalkLoop (actor : Nat → PageMem × τ → (PageMem × τ) × Int) (stash : Stash) (first : Nat) :
    Nat → Nat → PageMem × τ → Except TuxError ((PageMem × τ) × Int)
  | 0, _, _ => .error .fuel
  | fuel + 1, link, st =>
      let (st', err) :=
        presentEntries actor (pageTop stash link - pageAddress link) (pageAddress link) st
      if err ≠ 0 then .ok (st', err)
      else
        let link := st'.1.next link
        if link ≠ first then stashWalkLoop actor stash first fuel link st' else .ok (st', 0)

/-- `stash_walk`. -/
def stashWalk (actor : Nat → PageMem × τ → (PageMem × τ) × Int) (stash : Stash)
    (st : PageMem × τ) : Except TuxError ((PageMem × τ) × Int) :=
  match stash.tail with
  | none => .ok (st, 0)
  | some tail =>
      stashWalkLoop actor stash (st.1.next tail) (st.1.used.length + 1) (st.1.next tail) st

end Walk

/-! ## What a stash holds -/

/-- The first `n` values of a page. -/
def pageVals (mem : PageMem) (n page : Nat) : List Nat :=
  (List.range' 0 n).map fun i => mem.data (pageAddress page + i)

/-- Some pages stay in use with what they have. -/
def KeepPages (pages : List Nat) (mem mem' : PageMem) : Prop :=
  ∀ page ∈ pages, page ∈ mem.used → page ∈ mem'.used ∧ mem'.next page = mem.next page ∧
    ∀ i < pageEntries, mem'.data (pageAddress page + i) = mem.data (pageAddress page + i)

/-- A ring of pages, the last of which is `tail`, and the values in them. -/
structure Stash.Ring (mem : PageMem) (stash : Stash) (front : List Nat) (tail : Nat)
    (vals : List Nat) : Prop where
  tail_eq : stash.tail = some tail
  linked : Linked mem.next tail (mem.next tail) front
  nodup : front.Nodup
  used : ∀ page ∈ front ++ [tail], page ∈ mem.used
  top_eq : stash.top = pageAddress tail + pageEntries
  pos_ge : pageAddress tail ≤ stash.pos
  pos_le : stash.pos ≤ stash.top
  vals_eq : vals = front.flatMap (pageVals mem pageEntries) ++
    pageVals mem (stash.pos - pageAddress tail) tail

/-- A stash on some pages, with some values: it is empty, or has a ring. -/
def Stash.Holds (mem : PageMem) (stash : Stash) (pages vals : List Nat) : Prop :=
  (stash = stashInit ∧ pages = [] ∧ vals = []) ∨
    ∃ front tail, pages = front ++ [tail] ∧ stash.Ring mem front tail vals

section Holds

variable {mem mem' mem'' : PageMem} {stash : Stash} {pages front vals : List Nat}
  {page tail n : Nat}

theorem pageEntries_pos : 0 < pageEntries := Nat.succ_pos 7

theorem pageAddress_ne {page' : Nat} (hne : page ≠ page') : pageAddress page ≠ pageAddress page' := by
  unfold pageAddress
  exact fun heq => hne (Nat.eq_of_mul_eq_mul_right pageEntries_pos heq)

/-- A value belongs to one page. -/
theorem pageAddress_add_ne {page' i j : Nat} (hne : page ≠ page') (hi : i < pageEntries)
    (hj : j < pageEntries) : pageAddress page + i ≠ pageAddress page' + j := by
  unfold pageAddress
  intro heq
  have hdiv : (page * pageEntries + i) / pageEntries = (page' * pageEntries + j) / pageEntries := by
    rw [heq]
  rw [Nat.mul_comm page, Nat.mul_comm page', Nat.mul_add_div pageEntries_pos,
    Nat.mul_add_div pageEntries_pos, Nat.div_eq_of_lt hi, Nat.div_eq_of_lt hj] at hdiv
  exact hne hdiv

theorem KeepPages.refl (pages : List Nat) (mem : PageMem) : KeepPages pages mem mem :=
  fun _ _ hused => ⟨hused, rfl, fun _ _ => rfl⟩

theorem KeepPages.trans (h : KeepPages pages mem mem') (h' : KeepPages pages mem' mem'') :
    KeepPages pages mem mem'' := by
  intro page hpage hused
  obtain ⟨hused', hnext, hdata⟩ := h page hpage hused
  obtain ⟨hused'', hnext', hdata'⟩ := h' page hpage hused'
  exact ⟨hused'', hnext'.trans hnext, fun i hi => (hdata' i hi).trans (hdata i hi)⟩

theorem KeepPages.subset {more : List Nat} (h : KeepPages more mem mem')
    (hsub : ∀ page ∈ pages, page ∈ more) : KeepPages pages mem mem' :=
  fun page hpage hused => h page (hsub page hpage) hused

theorem pageVals_congr (hle : n ≤ pageEntries)
    (hdata : ∀ i < pageEntries, mem'.data (pageAddress page + i) = mem.data (pageAddress page + i)) :
    pageVals mem' n page = pageVals mem n page := by
  refine List.map_congr_left fun i hi => hdata i ?_
  have hlt := (List.mem_range'_1.mp hi).2
  omega

/-- A ring depends on its own pages only. -/
theorem Stash.Ring.keep (h : stash.Ring mem front tail vals)
    (hkeep : KeepPages (front ++ [tail]) mem mem') : stash.Ring mem' front tail vals := by
  have hkept : ∀ page ∈ front ++ [tail], page ∈ mem'.used ∧ mem'.next page = mem.next page ∧
      ∀ i < pageEntries, mem'.data (pageAddress page + i) = mem.data (pageAddress page + i) :=
    fun page hpage => hkeep page hpage (h.used page hpage)
  have htail := hkept tail (List.mem_append_right _ List.mem_cons_self)
  have hpos := h.pos_le
  rw [h.top_eq] at hpos
  refine ⟨h.tail_eq, ?_, h.nodup, fun page hpage => (hkept page hpage).1, h.top_eq, h.pos_ge,
    h.pos_le, ?_⟩
  · rw [htail.2.1]
    exact h.linked.congr fun page hpage => (hkept page (List.mem_append_left _ hpage)).2.1
  · rw [h.vals_eq, pageVals_congr (by omega) htail.2.2]
    congr 1
    exact List.flatMap_congr fun page hpage =>
      (pageVals_congr (Nat.le_refl _) (hkept page (List.mem_append_left _ hpage)).2.2).symm

theorem Stash.Holds.keep (h : stash.Holds mem pages vals) (hkeep : KeepPages pages mem mem') :
    stash.Holds mem' pages vals := by
  obtain hempty | ⟨front, tail, rfl, hring⟩ := h
  · exact Or.inl hempty
  · exact Or.inr ⟨front, tail, rfl, hring.keep hkeep⟩

theorem Stash.Holds.used (h : stash.Holds mem pages vals) : ∀ page ∈ pages, page ∈ mem.used := by
  obtain ⟨-, rfl, -⟩ | ⟨front, tail, rfl, hring⟩ := h
  · exact fun page hpage => absurd hpage List.not_mem_nil
  · exact hring.used

theorem stashInit_holds (mem : PageMem) : stashInit.Holds mem [] [] := Or.inl ⟨rfl, rfl, rfl⟩

/-! ## Adding a value -/

theorem pageVals_succ (mem : PageMem) (n page : Nat) :
    pageVals mem (n + 1) page = pageVals mem n page ++ [mem.data (pageAddress page + n)] := by
  unfold pageVals
  rw [List.range'_1_concat, List.map_append, List.map_singleton, Nat.zero_add]

/-- A store at `pos` leaves alone every place that is not it. -/
theorem putValue_data (mem : PageMem) (stash : Stash) (value : Nat) {addr : Nat}
    (hne : addr ≠ stash.pos) : (putValue mem stash value).1.data addr = mem.data addr :=
  Function.update_of_ne hne _ _

/-- A value is added where the last page has room. -/
theorem putValue_ring {value : Nat} (h : stash.Ring mem front tail vals)
    (hlt : stash.pos < stash.top) :
    (putValue mem stash value).2.Ring (putValue mem stash value).1 front tail (vals ++ [value]) := by
  have hpos := h.pos_ge
  have htop := h.top_eq
  obtain ⟨n, hn⟩ := Nat.exists_eq_add_of_le hpos
  have hlen : n < pageEntries := by omega
  have hfront : ∀ page ∈ front, pageVals (putValue mem stash value).1 pageEntries page =
      pageVals mem pageEntries page := by
    intro page hpage
    refine pageVals_congr (Nat.le_refl _) fun i hi => putValue_data mem stash value ?_
    rw [hn]
    exact pageAddress_add_ne (fun heq => h.linked.stop_not_mem (heq ▸ hpage)) hi hlen
  have htail : pageVals (putValue mem stash value).1 n tail = pageVals mem n tail := by
    refine List.map_congr_left fun i hi => putValue_data mem stash value ?_
    have hi' := (List.mem_range'_1.mp hi).2
    omega
  refine ⟨h.tail_eq, h.linked, h.nodup, h.used, htop, Nat.le_succ_of_le hpos, hlt, ?_⟩
  have hsub : (putValue mem stash value).2.pos - pageAddress tail = n + 1 := by
    change stash.pos + 1 - pageAddress tail = n + 1
    omega
  have hself : (putValue mem stash value).1.data (pageAddress tail + n) = value := by
    rw [← hn]
    exact Function.update_self _ _ _
  rw [hsub, pageVals_succ, hself, htail, List.flatMap_congr hfront, h.vals_eq, hn,
    Nat.add_sub_cancel_left, List.append_assoc]

/-- A new page has no values yet. -/
theorem addPage_ring (h : stash.Holds mem pages vals) (hfull : stash.pos = stash.top)
    (hfresh : page ∉ mem.used) :
    (addPage mem stash page).2.Ring (addPage mem stash page).1 pages page vals := by
  have hnone : pageVals (addPage mem stash page).1
      ((addPage mem stash page).2.pos - pageAddress page) page = [] := by
    change pageVals _ (pageAddress page - pageAddress page) page = []
    rw [Nat.sub_self]
    rfl
  obtain ⟨rfl, rfl, rfl⟩ | ⟨front, tail, rfl, hring⟩ := h
  · refine ⟨rfl, Function.update_self _ _ _, List.nodup_nil, fun p hp => ?_, rfl, Nat.le_refl _,
      Nat.le_add_right _ _, hnone.symm⟩
    exact List.mem_append_left _ hp
  · have hne : tail ≠ page := by
      rintro rfl
      exact hfresh (hring.used tail (List.mem_append_right _ List.mem_cons_self))
    have hnotin : page ∉ front := fun hp => hfresh (hring.used page (List.mem_append_left _ hp))
    have htail : (addPage mem stash page).1.next tail = page := by
      unfold addPage
      rw [hring.tail_eq]
      exact Function.update_self _ _ _
    have hpage : (addPage mem stash page).1.next page = mem.next tail := by
      unfold addPage
      rw [hring.tail_eq]
      exact (Function.update_of_ne hne.symm _ _).trans (Function.update_self _ _ _)
    have hrest : ∀ p, p ≠ tail → p ≠ page → (addPage mem stash page).1.next p = mem.next p := by
      intro p htp hpp
      unfold addPage
      rw [hring.tail_eq]
      exact (Function.update_of_ne htp _ _).trans (Function.update_of_ne hpp _ _)
    have hin : ∀ p ∈ front, p ≠ tail ∧ p ≠ page := fun p hp =>
      ⟨fun heq => hring.linked.stop_not_mem (heq ▸ hp), fun heq => hnotin (heq ▸ hp)⟩
    refine ⟨rfl, ?_, ?_, fun p hp => ?_, rfl, Nat.le_refl _, Nat.le_add_right _ _, ?_⟩
    · rw [hpage]
      exact hring.linked.snoc hnotin hne htail fun p hp => hrest p (hin p hp).1 (hin p hp).2
    · exact List.nodup_append.mpr ⟨hring.nodup, List.nodup_singleton _, fun a ha b hb => by
        rw [List.mem_singleton.mp hb]
        exact (hin a ha).1⟩
    · obtain hp | hp := List.mem_append.mp hp
      · exact List.mem_cons_of_mem _ (hring.used p hp)
      · exact List.mem_cons.mpr (Or.inl (List.mem_singleton.mp hp))
    · have hcount : stash.pos - pageAddress tail = pageEntries := by
        rw [hfull, hring.top_eq, Nat.add_sub_cancel_left]
      rw [hnone, List.append_nil, List.flatMap_append, hring.vals_eq, hcount, List.flatMap_singleton]
      rfl

/-- The pages of others are kept where a stash gets a page. -/
theorem addPage_keep {keep : List Nat} (h : stash.Holds mem pages vals) (hfresh : page ∉ mem.used)
    (hkeep : ∀ p ∈ keep, p ∉ pages) : KeepPages keep mem (addPage mem stash page).1 := by
  intro p hp hused
  have hpage : p ≠ page := fun heq => hfresh (heq ▸ hused)
  refine ⟨List.mem_cons_of_mem _ hused, ?_, fun _ _ => rfl⟩
  obtain ⟨rfl, -, -⟩ | ⟨front, tail, rfl, hring⟩ := h
  · exact Function.update_of_ne hpage _ _
  · have htail : p ≠ tail := fun heq =>
      hkeep p hp (heq ▸ List.mem_append_right _ List.mem_cons_self)
    unfold addPage
    rw [hring.tail_eq]
    exact (Function.update_of_ne htail _ _).trans (Function.update_of_ne hpage _ _)

theorem putValue_keep {keep : List Nat} {value : Nat} (h : stash.Ring mem front tail vals)
    (hlt : stash.pos < stash.top) (hkeep : tail ∉ keep) :
    KeepPages keep mem (putValue mem stash value).1 := by
  intro p hp hused
  refine ⟨hused, rfl, fun i hi => putValue_data mem stash value ?_⟩
  have hpos := h.pos_ge
  have htop := h.top_eq
  obtain ⟨n, hn⟩ := Nat.exists_eq_add_of_le hpos
  rw [hn]
  exact pageAddress_add_ne (fun heq => hkeep (heq ▸ hp)) hi (by omega)

/-- What an operation on a stash leaves: a value more, and the pages of others as they were. -/
structure Stash.Added (mem : PageMem) (pages vals more : List Nat) (mem' : PageMem) (stash' : Stash)
    (pages' : List Nat) : Prop where
  holds : stash'.Holds mem' pages' (vals ++ more)
  others : ∀ p ∈ mem.used, p ∉ pages → p ∉ pages' ∧ KeepPages [p] mem mem'

theorem Stash.Added.keep {more pages' keep : List Nat} {stash' : Stash}
    (h : Stash.Added mem pages vals more mem' stash' pages') (hkeep : ∀ p ∈ keep, p ∉ pages) :
    KeepPages keep mem mem' := fun p hp hused =>
  (h.others p hused (hkeep p hp)).2 p List.mem_cons_self hused

theorem Stash.Added.trans {more more' pages' pages'' : List Nat} {stash' stash'' : Stash}
    (h : Stash.Added mem pages vals more mem' stash' pages')
    (h' : Stash.Added mem' pages' (vals ++ more) more' mem'' stash'' pages'') :
    Stash.Added mem pages vals (more ++ more') mem'' stash'' pages'' := by
  refine ⟨by rw [← List.append_assoc]; exact h'.holds, fun p hused hp => ?_⟩
  obtain ⟨hp', hkeep⟩ := h.others p hused hp
  obtain ⟨hp'', hkeep'⟩ := h'.others p (hkeep p List.mem_cons_self hused).1 hp'
  exact ⟨hp'', hkeep.trans hkeep'⟩

/-- `alloc_page` returns pages that are not in use. -/
def AllocFresh (alloc : List Nat → Option Nat) : Prop :=
  ∀ used page, alloc used = some page → page ∉ used

/-- `stash_value` adds the value, or finds no page and changes nothing. -/
theorem stashValue_spec {alloc : List Nat → Option Nat} {value : Nat} (halloc : AllocFresh alloc)
    (h : stash.Holds mem pages vals) :
    (alloc mem.used = none ∧ stashValue alloc mem stash value = ((mem, stash), -enomem)) ∨
      ∃ mem' stash' pages', stashValue alloc mem stash value = ((mem', stash'), 0) ∧
        Stash.Added mem pages vals [value] mem' stash' pages' := by
  unfold stashValue
  obtain hfull | hroom := eq_or_ne stash.pos stash.top
  · rw [if_pos hfull]
    cases halloc' : alloc mem.used with
    | none => exact Or.inl ⟨rfl, rfl⟩
    | some page =>
        right
        have hfresh := halloc _ _ halloc'
        have hring := addPage_ring h hfull hfresh
        have hlt : (addPage mem stash page).2.pos < (addPage mem stash page).2.top :=
          Nat.lt_add_of_pos_right pageEntries_pos
        refine ⟨_, _, pages ++ [page], rfl, ⟨Or.inr ⟨_, _, rfl, putValue_ring hring hlt⟩, ?_⟩⟩
        intro p hused hp
        have hne : page ∉ [p] := fun heq => hfresh ((List.mem_singleton.mp heq) ▸ hused)
        refine ⟨fun hmem => ?_, (addPage_keep h hfresh fun p' hp' =>
          (List.mem_singleton.mp hp') ▸ hp).trans (putValue_keep hring hlt hne)⟩
        obtain hmem | hmem := List.mem_append.mp hmem
        · exact hp hmem
        · exact hfresh ((List.mem_singleton.mp hmem) ▸ hused)
  · rw [if_neg hroom]
    right
    obtain ⟨rfl, -, -⟩ | ⟨front, tail, rfl, hring⟩ := h
    · exact absurd rfl hroom
    · have hlt := Nat.lt_of_le_of_ne hring.pos_le hroom
      refine ⟨_, _, front ++ [tail], rfl, ⟨Or.inr ⟨_, _, rfl, putValue_ring hring hlt⟩, ?_⟩⟩
      exact fun p _ hp => ⟨hp, putValue_keep hring hlt fun hmem =>
        hp (List.mem_append_right _ (List.mem_singleton.mp hmem ▸ List.mem_cons_self))⟩

/-! ## Deferred frees -/

/-- The extent of a value: its low 48 bits and its high 16 bits. -/
def valSegment (val : Nat) : BlockSegment := ⟨val % 2 ^ 48, val / 2 ^ 48⟩

/-- The blocks of some values. -/
def valBlocks (vals : List Nat) : List Nat := vals.flatMap fun val => (valSegment val).blocks

theorem valBlocks_append (vals more : List Nat) :
    valBlocks (vals ++ more) = valBlocks vals ++ valBlocks more := List.flatMap_append

/-- The records of deferred frees: none is empty, and none has more than its bits can say. -/
def RecordsOk (vals : List Nat) : Prop :=
  ∀ val ∈ vals, val < 2 ^ 64 ∧ 1 ≤ (valSegment val).count ∧ (valSegment val).count ≤ 65535

/-- The blocks of an extent in two parts. -/
theorem blocks_append (block count count' : Nat) :
    BlockSegment.blocks ⟨block, count⟩ ++ BlockSegment.blocks ⟨block + count, count'⟩ =
      BlockSegment.blocks ⟨block, count + count'⟩ := by
  unfold BlockSegment.blocks
  dsimp only
  rw [List.range_add, List.map_append, List.map_map]
  congr 1
  exact List.map_congr_left fun i _ => Nat.add_assoc block count i

/-- The value of a part of an extent. -/
theorem valSegment_eq {block c : Nat} (hblock : block < 2 ^ 48) (hc : c ≤ 65535) :
    (c * 2 ^ 48 + block) % 2 ^ 64 < 2 ^ 64 ∧
      valSegment ((c * 2 ^ 48 + block) % 2 ^ 64) = ⟨block, c⟩ := by
  have hlt : c * 2 ^ 48 + block < 2 ^ 64 := by omega
  rw [Nat.mod_eq_of_lt hlt]
  refine ⟨hlt, ?_⟩
  unfold valSegment
  congr 1 <;> omega

/-- The loop of `defer_bfree` adds records of the blocks from `block` on, of all of them where it
finds the pages. -/
theorem deferLoop_spec {alloc : List Nat → Option Nat} {fuel block count : Nat}
    (halloc : AllocFresh alloc) (h : stash.Holds mem pages vals)
    (hblock : count = 0 ∨ block + count ≤ 2 ^ 48) (hfuel : count ≤ 65535 * fuel) :
    ∃ mem' stash' err left pages' more,
      deferLoop alloc (fuel + 1) block count (mem, stash) = .ok ((mem', stash'), err, left) ∧
        Stash.Added mem pages vals more mem' stash' pages' ∧ RecordsOk more ∧ left ≤ count ∧
        valBlocks more = BlockSegment.blocks ⟨block, count - left⟩ ∧
        (err = 0 ∧ left = 0 ∨ err = -enomem ∧ ∃ used, alloc used = none) := by
  have hnone : Stash.Added mem pages vals [] mem stash pages :=
    ⟨by rw [List.append_nil]; exact h, fun p _ hp => ⟨hp, KeepPages.refl _ _⟩⟩
  induction fuel generalizing mem stash pages vals block count with
  | zero =>
      obtain rfl : count = 0 := by omega
      exact ⟨mem, stash, 0, 0, pages, [], rfl, hnone, fun _ hv => absurd hv List.not_mem_nil,
        Nat.le_refl _, rfl, Or.inl ⟨rfl, rfl⟩⟩
  | succ fuel ih =>
      obtain rfl | hcount := eq_or_ne count 0
      · exact ⟨mem, stash, 0, 0, pages, [], rfl, hnone, fun _ hv => absurd hv List.not_mem_nil,
          Nat.le_refl _, rfl, Or.inl ⟨rfl, rfl⟩⟩
      have hle := hblock.resolve_left hcount
      rw [deferLoop, if_pos hcount]
      dsimp only
      generalize hc : min count 65535 = c
      have hcle : c ≤ 65535 := hc ▸ Nat.min_le_right _ _
      have hcc : c ≤ count := hc ▸ Nat.min_le_left _ _
      have hpos : 1 ≤ c := by omega
      obtain ⟨hlt, hseg⟩ := @valSegment_eq block c (by omega) hcle
      generalize (c * 2 ^ 48 + block) % 2 ^ 64 = val at hlt hseg ⊢
      obtain ⟨hnopage, heq⟩ | ⟨mem', stash', pages', heq, hadded⟩ :=
        @stashValue_spec mem stash pages vals alloc val halloc h
      · rw [heq]
        exact ⟨mem, stash, -enomem, count, pages, [], rfl, hnone,
          fun _ hv => absurd hv List.not_mem_nil, Nat.le_refl _, by rw [Nat.sub_self]; rfl,
          Or.inr ⟨rfl, _, hnopage⟩⟩
      · rw [heq]
        obtain ⟨mem'', stash'', err, left, pages'', more, hrun, hmore, hrecords, hleft, hblocks,
          herr⟩ := @ih mem' stash' pages' (vals ++ [val]) (block + c) (count - c) hadded.holds
            (Or.inr (by omega)) (by omega)
            ⟨by rw [List.append_nil]; exact hadded.holds, fun p _ hp => ⟨hp, KeepPages.refl _ _⟩⟩
        refine ⟨mem'', stash'', err, left, pages'', [val] ++ more, hrun, hadded.trans hmore, ?_,
          by omega, ?_, herr⟩
        · refine List.forall_mem_cons.mpr ⟨⟨hlt, ?_, ?_⟩, hrecords⟩
          · rw [hseg]
            exact hpos
          · rw [hseg]
            exact hcle
        · have hsum : c + (count - c - left) = count - left := by omega
          rw [valBlocks_append, hblocks, ← hsum, ← blocks_append]
          unfold valBlocks
          rw [List.flatMap_singleton, hseg]

end Holds

end Tux3
