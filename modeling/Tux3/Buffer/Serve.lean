/-
  Buffer/Serve.lean --- what the operations on a block leave of the pool, at any debug level.
-/
import Tux3.Buffer.Evict

set_option autoImplicit false

namespace Tux3.Reclaim

open BufferPool (bufferHash buckets bucketOf)
open Outcome (bind_of_ok)

variable {α : Type} {debug : Nat} {pool pool' : BufferPool α} {pins pins' : Nat → Nat}
  {id map block : Nat} {buffer : BufferHead α}

/-! ## What is kept -/

/-- A buffer has the block that it had. -/
def SameBlock (buffer buffer' : BufferHead α) : Prop :=
  buffer'.map = buffer.map ∧ buffer'.index = buffer.index

/-- Who holds a buffer still has its block, and a dirty buffer that is not `cleaned` is as it
was. -/
structure Kept (pool pool' : BufferPool α) (pins pins' : Nat → Nat) (cleaned : Nat → Prop) :
    Prop where
  held : ∀ j, 0 < pins j → 0 < pins' j → SameBlock (pool.buffers j) (pool'.buffers j)
  dirty : ∀ j, (pool.buffers j).isDirty = true → ¬ cleaned j →
    SameBlock (pool.buffers j) (pool'.buffers j) ∧ (pool'.buffers j).state = (pool.buffers j).state
  maxBuffers : pool'.maxBuffers = pool.maxBuffers

theorem CacheOk.idle (h : CacheOk pool pins) (hcan : CanReclaim (pool.buffers id)) :
    pins id = 0 := by
  have hrefs := (h.head id).refs
  rw [hcan.1, ownRefs_of_hashed hcan.2.2] at hrefs
  omega

/-- Some buffers are gone, and then one is changed. -/
theorem Kept.change {pool₁ : BufferPool α} {cleaned : Nat → Prop} (h : CacheOk pool pins)
    (hspared : Spared pool pool₁) (hchanged : Changed pool₁ pool' id buffer)
    (hheld : 0 < pins id → 0 < pins' id → SameBlock (pool.buffers id) buffer)
    (hdirty : (pool.buffers id).isDirty = true → ¬ cleaned id →
      SameBlock (pool.buffers id) buffer ∧ buffer.state = (pool.buffers id).state) :
    Kept pool pool' pins pins' cleaned := by
  refine ⟨fun j hpin hpin' => ?_, fun j hj hnot => ?_, hchanged.maxBuffers.trans
    hspared.maxBuffers⟩
  · rcases hchanged.cases j with ⟨rfl, heq⟩ | ⟨-, heq⟩
    · rw [heq]
      exact hheld hpin hpin'
    · rw [heq, hspared.of_not fun hcan => absurd (h.idle hcan) (Nat.ne_of_gt hpin)]
      exact ⟨rfl, rfl⟩
  · rcases hchanged.cases j with ⟨rfl, heq⟩ | ⟨-, heq⟩
    · rw [heq]
      exact hdirty hj hnot
    · rw [heq, hspared.of_not fun hcan => Bool.false_ne_true (hcan.2.1.symm.trans hj)]
      exact ⟨⟨rfl, rfl⟩, rfl⟩

theorem Spared.kept {cleaned : Nat → Prop} (h : CacheOk pool pins) (hspared : Spared pool pool') :
    Kept pool pool' pins pins' cleaned := by
  refine ⟨fun j hpin _ => ?_, fun j hj _ => ?_, hspared.maxBuffers⟩
  · rw [hspared.of_not fun hcan => absurd (h.idle hcan) (Nat.ne_of_gt hpin)]
    exact ⟨rfl, rfl⟩
  · rw [hspared.of_not fun hcan => Bool.false_ne_true (hcan.2.1.symm.trans hj)]
    exact ⟨⟨rfl, rfl⟩, rfl⟩

/-- One buffer is changed that stays the one of its block. -/
theorem Kept.one {cleaned : Nat → Prop} (hchanged : Changed pool pool' id buffer)
    (hsame : SameBlock (pool.buffers id) buffer)
    (hstate : (pool.buffers id).isDirty = true → ¬ cleaned id →
      buffer.state = (pool.buffers id).state) : Kept pool pool' pins pins' cleaned := by
  refine ⟨fun j _ _ => ?_, fun j hj hnot => ?_, hchanged.maxBuffers⟩
  · rcases hchanged.cases j with ⟨rfl, heq⟩ | ⟨-, heq⟩
    · rw [heq]
      exact hsame
    · rw [heq]
      exact ⟨rfl, rfl⟩
  · rcases hchanged.cases j with ⟨rfl, heq⟩ | ⟨-, heq⟩
    · rw [heq]
      exact ⟨hsame, hstate hj hnot⟩
    · rw [heq]
      exact ⟨⟨rfl, rfl⟩, rfl⟩

theorem isDirty_congr {buffer' : BufferHead α} (h : buffer'.state = buffer.state) :
    buffer'.isDirty = buffer.isDirty := by
  unfold BufferHead.isDirty
  rw [h]

/-- Two steps, the second of which has the same holders before and after it. -/
theorem Kept.trans {pool₁ : BufferPool α} {cleaned : Nat → Prop}
    (h : Kept pool pool₁ pins pins' cleaned) (h' : Kept pool₁ pool' pins' pins' cleaned) :
    Kept pool pool' pins pins' cleaned := by
  refine ⟨fun j hpin hpin' => ?_, fun j hj hnot => ?_, h'.maxBuffers.trans h.maxBuffers⟩
  · obtain ⟨hmap, hindex⟩ := h.held j hpin hpin'
    obtain ⟨hmap', hindex'⟩ := h'.held j hpin' hpin'
    exact ⟨hmap'.trans hmap, hindex'.trans hindex⟩
  · obtain ⟨⟨hmap, hindex⟩, hstate⟩ := h.dirty j hj hnot
    obtain ⟨⟨hmap', hindex'⟩, hstate'⟩ := h'.dirty j ((isDirty_congr hstate).trans hj) hnot
    exact ⟨⟨hmap'.trans hmap, hindex'.trans hindex⟩, hstate'.trans hstate⟩

/-- A free buffer was in use by no one. -/
theorem Spared.free (h : CacheOk pool pins) (hspared : Spared pool pool')
    (hfreed : (pool'.buffers id).state = bufferFreed) :
    pins id = 0 ∧ (pool.buffers id).isDirty = false := by
  rcases hspared.buffers id with heq | ⟨hcan, -⟩
  · rw [heq] at hfreed
    refine ⟨((h.head id).freed_refs hfreed).2, isDirty_of_lt ?_⟩
    rw [hfreed]
    decide
  · exact ⟨h.idle hcan, hcan.2.1⟩

/-- A free buffer is handed out. -/
theorem Kept.fresh {pool₁ : BufferPool α} {cleaned : Nat → Prop} (h : CacheOk pool pins)
    (hspared : Spared pool pool₁) (hfreed : (pool₁.buffers id).state = bufferFreed)
    (hchanged : Changed pool₁ pool' id buffer) : Kept pool pool' pins pins' cleaned := by
  obtain ⟨hpin, hclean⟩ := hspared.free h hfreed
  refine .change h hspared hchanged (fun hpos => absurd hpin (Nat.ne_of_gt hpos)) fun hdirty => ?_
  exact absurd (hclean.symm.trans hdirty) Bool.false_ne_true

/-! ## Lookups -/

/-- A lookup finds the buffer of the block, which is the only one. -/
theorem CacheOk.find_iff (h : CacheOk pool pins) (hbucket : bufferHash block < buckets) :
    pool.find map block = .ok (some id) ↔ (pool.buffers id).hashed = true ∧
      (pool.buffers id).map = some map ∧ (pool.buffers id).index = block := by
  constructor
  · intro hfind
    obtain ⟨hmem, hindex, -⟩ := find_some hfind
    obtain ⟨hhashed, hmap, -⟩ := (h.mem_hash _ _ _).1 hmem
    exact ⟨hhashed, hmap, hindex⟩
  · rintro ⟨hhashed, hmap, hindex⟩
    have hmem : id ∈ pool.hash map (bufferHash block) :=
      (h.mem_hash _ _ _).2 ⟨hhashed, hmap, by rw [hindex]⟩
    rw [find_eq hbucket]
    cases hfound : (pool.hash map (bufferHash block)).find? fun j =>
        (pool.buffers j).index = block with
    | none => exact absurd (decide_eq_true hindex) (List.find?_eq_none.1 hfound id hmem)
    | some j =>
        have hsome := List.find?_some hfound
        have hjindex : (pool.buffers j).index = block := of_decide_eq_true hsome
        obtain ⟨hj, hjmap, -⟩ := (h.mem_hash _ _ _).1 (List.mem_of_find?_eq_some hfound)
        rw [h.unique j id hj hhashed (hjmap.trans hmap.symm) (hjindex.trans hindex.symm)]

/-- No buffer has the block. -/
def Absent (pool : BufferPool α) (map block : Nat) : Prop :=
  ∀ j, (pool.buffers j).hashed = true → (pool.buffers j).map = some map →
    (pool.buffers j).index ≠ block

theorem CacheOk.absent (h : CacheOk pool pins) (hfind : pool.find map block = .ok none) :
    Absent pool map block := by
  intro j hj hmap hindex
  refine (find_none hfind).1 j ((h.mem_hash _ _ _).2 ⟨hj, hmap, ?_⟩) hindex
  rw [hindex]

theorem find_bounds {error : TuxError} (hfind : pool.find map block = .error error) :
    error = .bounds ∧ buckets ≤ bufferHash block := by
  refine ⟨find_error hfind, Nat.le_of_not_lt fun hlt => ?_⟩
  rw [find_eq hlt] at hfind
  cases hfind

/-- What is hashed after some buffers are gone was so before. -/
theorem Spared.hashed (h : Spared pool pool') (hhashed : (pool'.buffers id).hashed = true) :
    pool'.buffers id = pool.buffers id := by
  rcases h.buffers id with heq | ⟨-, heq⟩
  · exact heq
  · rw [heq] at hhashed
    cases hhashed

/-- The order of `lru_buffers` is free. -/
theorem CacheOk.touch (h : CacheOk pool pins) (hhashed : (pool.buffers id).hashed = true) :
    CacheOk { pool with lru := pool.lru.filter (· ≠ id) ++ [id] } pins := by
  refine { h with mem_lru := fun j => ?_, lru_nodup := ?_ }
  · rw [List.mem_append, List.mem_filter, List.mem_singleton, h.mem_lru]
    constructor
    · rintro (⟨hj, -⟩ | rfl)
      · exact hj
      · exact hhashed
    · intro hj
      by_cases heq : j = id
      · exact .inr heq
      · exact .inl ⟨hj, decide_eq_true heq⟩
  · refine List.nodup_append.2 ⟨h.lru_nodup.filter _, List.nodup_singleton id,
      fun a ha b hb heq => ?_⟩
    exact of_decide_eq_true (List.mem_filter.1 ha).2 (heq.trans (List.mem_singleton.1 hb))

/-- A buffer goes on the hash. -/
theorem CacheOk.insertHash (h : CacheOk pool pins)
    (hlive : (pool.buffers id).state ≠ bufferFreed) (hmap : (pool.buffers id).map = some map)
    (hunhashed : (pool.buffers id).hashed = false) (hclean : (pool.buffers id).isDirty = false)
    (hbucket : bufferHash (pool.buffers id).index < buckets)
    (habsent : Absent pool map (pool.buffers id).index) :
    ∃ pool', pool.insertHash map id = .ok pool' ∧ Changed pool pool' id
      { pool.buffers id with hashed := true, count := (pool.buffers id).count + 1 } ∧
      CacheOk pool' pins := by
  have hhead := h.head id
  have hrefs := hhead.refs
  obtain ⟨pool₁, hget, hset, -⟩ := h.getBh hlive
  have hbucketOf : bucketOf (pool.buffers id).index = .ok (bufferHash (pool.buffers id).index) :=
    if_pos hbucket
  have hself : pool₁.buffers id =
      { pool.buffers id with count := (pool.buffers id).count + 1 } := by
    rw [hset, BufferPool.set_self]
  have hinsert : pool.insertHash map id = .ok ({ pool₁ with
      hash := fun m b => if m = map ∧ b = bufferHash (pool.buffers id).index then
        id :: pool₁.hash m b else pool₁.hash m b
      lru := pool₁.lru ++ [id] }.set id { pool₁.buffers id with hashed := true }) := by
    unfold BufferPool.insertHash
    rw [bind_of_ok hbucketOf, bind_of_ok hget]
    rfl
  have hlru : id ∉ pool.lru := by
    rw [h.mem_lru, hunhashed]
    exact Bool.false_ne_true
  have hhash (m b : Nat) : id ∉ pool.hash m b := by
    rw [h.mem_hash, hunhashed]
    exact fun hand => Bool.false_ne_true hand.1
  rw [hself] at hinsert
  have hchanged : Changed pool ({ pool₁ with
      hash := fun m b => if m = map ∧ b = bufferHash (pool.buffers id).index then
        id :: pool₁.hash m b else pool₁.hash m b
      lru := pool₁.lru ++ [id] }.set id { pool.buffers id with
        count := (pool.buffers id).count + 1, hashed := true }) id
      { pool.buffers id with hashed := true, count := (pool.buffers id).count + 1 } := by
    rw [hset]
    refine ⟨?_, rfl, rfl⟩
    simp only [BufferPool.set, Function.update_idem]
  refine ⟨_, hinsert, hchanged, ?_⟩
  subst hset
  refine h.replace hchanged ⟨fun j hj => ?_, h.freed_nodup, ?_, fun j hj => ?_, ?_,
    fun m b => ?_, fun m b j hj => ?_, fun m b => ?_⟩ (h.lt_allocated hlive) ?_ (fun _ _ => rfl)
    (fun _ j hj hjh hjmap => habsent j hjh (hjmap.trans hmap)) ?_ h.room
  · exact .inr ⟨fun heq => h.not_mem_freed hlive (heq ▸ hj), hj⟩
  · exact iff_of_true (List.mem_append_right _ (List.mem_singleton_self id)) rfl
  · refine List.mem_append.trans (or_iff_left fun hmem => ?_)
    exact hj (List.mem_singleton.1 hmem)
  · exact List.nodup_append.2 ⟨h.lru_nodup, List.nodup_singleton id, fun a ha b hb heq =>
      hlru (List.mem_singleton.1 hb ▸ heq ▸ ha)⟩
  · show id ∈ (if m = map ∧ b = bufferHash (pool.buffers id).index then id :: pool.hash m b
      else pool.hash m b) ↔ _
    split
    · next hand => exact iff_of_true List.mem_cons_self ⟨rfl, hand.1 ▸ hmap, hand.2⟩
    · next hnot =>
        refine iff_of_false (hhash m b) fun hand => hnot ⟨?_, hand.2.2⟩
        exact Option.some.inj (hand.2.1.symm.trans hmap)
  · show j ∈ (if m = map ∧ b = bufferHash (pool.buffers id).index then id :: pool.hash m b
      else pool.hash m b) ↔ _
    split
    · exact List.mem_cons.trans (or_iff_right hj)
    · rfl
  · show (if m = map ∧ b = bufferHash (pool.buffers id).index then id :: pool.hash m b
      else pool.hash m b).Nodup
    split
    · exact List.nodup_cons.2 ⟨hhash m b, h.hash_nodup m b⟩
    · exact h.hash_nodup m b
  · refine ⟨?_, iff_of_false hlive (Nat.succ_ne_zero _), hhead.state_lt, hhead.map_some,
      fun _ => hbucket⟩
    have hown : BufferHead.ownRefs { pool.buffers id with
        hashed := true, count := (pool.buffers id).count + 1 } = 1 := ownRefs_of_hashed rfl
    rw [ownRefs_of_clean hclean hunhashed] at hrefs
    rw [hown]
    show (pool.buffers id).count + 1 = _
    omega
  · rfl

/-- The buffer of a block. -/
def Cached (pool : BufferPool α) (map block id : Nat) : Prop :=
  (pool.buffers id).hashed = true ∧ (pool.buffers id).map = some map ∧
    (pool.buffers id).index = block

/-- What a lookup returns: no buffer, because there is none or no room for one, or the buffer of
the block, which it holds. -/
inductive Looked (pool : BufferPool α) (pins : Nat → Nat) (map block : Nat) (malloc : Bool) :
    Except TuxError (BufferPool α × Option Nat) → Prop where
  | bounds : buckets ≤ bufferHash block → Looked pool pins map block malloc (.error .bounds)
  | none {pool' : BufferPool α} : CacheOk pool' pins → Kept pool pool' pins pins (fun _ => False) →
      (∀ j, ¬ Cached pool map block j) → (malloc = true → ∀ j, ¬ CanReclaim (pool.buffers j)) →
      Looked pool pins map block malloc (.ok (pool', none))
  | some {pool' : BufferPool α} {id : Nat} :
      CacheOk pool' (Function.update pins id (pins id + 1)) →
      Kept pool pool' pins (Function.update pins id (pins id + 1)) (fun _ => False) →
      Cached pool' map block id → (∀ j, Cached pool map block j → j = id) →
      Looked pool pins map block malloc (.ok (pool', some id))

theorem Absent.not_cached (h : Absent pool map block) (j : Nat) : ¬ Cached pool map block j :=
  fun hj => h j hj.1 hj.2.1 hj.2.2

/-- The buffer of the block is there, and gets another holder. -/
theorem CacheOk.found (h : CacheOk pool pins) (malloc : Bool)
    (hfind : pool.find map block = .ok (some id)) :
    ∃ pool', pool.getBh id = .ok pool' ∧
      Looked pool pins map block malloc (.ok (pool', some id)) := by
  have hcached := (h.find_iff (find_some hfind).2.2).1 hfind
  have hchanged := Changed.set pool id
    { pool.buffers id with count := (pool.buffers id).count + 1 }
  obtain ⟨pool', hget, rfl, hok⟩ := h.getBh (h.live_of_hashed hcached.1)
  refine ⟨_, hget, .some hok (.one hchanged ⟨rfl, rfl⟩ fun _ _ => rfl) ?_ fun j hj => ?_⟩
  · unfold Cached
    rw [BufferPool.set_self]
    exact hcached
  · exact h.unique j id hj.1 hcached.1 (hj.2.1.trans hcached.2.1.symm)
      (hj.2.2.trans hcached.2.2.symm)

theorem CacheOk.peekblk (h : CacheOk pool pins) (map block : Nat) :
    Looked pool pins map block false (pool.peekblk map block) := by
  unfold BufferPool.peekblk
  cases hfind : pool.find map block with
  | error error =>
      obtain ⟨rfl, hbucket⟩ := find_bounds hfind
      exact .bounds hbucket
  | ok found =>
      cases found with
      | none =>
          exact .none h ((Spared.refl pool).kept h) (h.absent hfind).not_cached
            fun hfalse => absurd hfalse Bool.false_ne_true
      | some id =>
          obtain ⟨pool', hget, hlooked⟩ := h.found false hfind
          simp only [hget, bind, Except.bind, pure, Except.pure]
          exact hlooked

/-- A new buffer with its block and contents. -/
def filledHead (map block : Nat) (data : α) : BufferHead α :=
  ⟨some map, false, 1, bufferEmpty, block, data⟩

/-- A new buffer gets its block and contents. -/
theorem CacheOk.fill {pool₁ pool₂ : BufferPool α} (h : CacheOk pool₂ pins)
    (hchanged : Changed pool₁ pool₂ id (newHead map (pool₁.buffers id)))
    (hunhashed : (pool₁.buffers id).hashed = false) (block : Nat) (data : α) :
    ∃ pool₃, pool₂.set id { pool₂.buffers id with index := block, data := data } = pool₃ ∧
      Changed pool₁ pool₃ id (filledHead map block data) ∧ CacheOk pool₃ pins := by
  have hself := hchanged.self
  have hlive : (pool₂.buffers id).state ≠ bufferFreed := by
    rw [hself]
    exact (by decide : bufferEmpty ≠ bufferFreed)
  have hindex : (pool₂.buffers id).hashed = true → block = (pool₂.buffers id).index := by
    rw [hself]
    exact fun hh => absurd (hunhashed.symm.trans hh) Bool.false_ne_true
  refine ⟨_, rfl, ?_, h.setData hlive hindex data⟩
  have hfilled : { pool₂.buffers id with index := block, data := data } =
      filledHead map block data := by
    rw [hself]
    unfold newHead filledHead
    rw [hunhashed]
  rw [hfilled]
  exact hchanged.trans (.set pool₂ id _)

/-- It goes on the hash. -/
theorem CacheOk.insertFilled {data : α} (h : CacheOk pool pins)
    (hself : pool.buffers id = filledHead map block data) (hbucket : bufferHash block < buckets)
    (habsent : Absent pool map block) :
    ∃ pool', pool.insertHash map id = .ok pool' ∧
      Changed pool pool' id ⟨some map, true, 2, bufferEmpty, block, data⟩ ∧
      CacheOk pool' pins := by
  have hinsert := @CacheOk.insertHash _ _ _ id map h
  rw [hself] at hinsert
  exact hinsert (by decide : bufferEmpty ≠ bufferFreed) rfl rfl (isDirty_of_lt (by decide :
    bufferEmpty < bufferDirty)) hbucket habsent

/-- The block has no buffer. -/
theorem CacheOk.insertNew (h : CacheOk pool pins) (malloc : Bool)
    (hfind : pool.find map block = .ok none) :
    Looked pool pins map block malloc (insertNew debug pool map block malloc) := by
  have habsent := h.absent hfind
  have hnew := @CacheOk.newBuffer _ debug _ _ h map malloc
  unfold Reclaim.insertNew
  generalize Reclaim.newBuffer debug pool map malloc = result at hnew ⊢
  cases hnew with
  | full hspared hok hfull => exact .none hok (hspared.kept h) habsent.not_cached hfull
  | @fresh pool₁ pool₂ id hspared hfreed hunhashed hchanged hok =>
      obtain ⟨pool₃, hset, hchanged₃, hok₃⟩ :=
        hok.fill hchanged hunhashed block (pool₂.buffers id).data
      have habsent₃ : Absent pool₃ map block := by
        intro j hj hmap
        rcases hchanged₃.cases j with ⟨rfl, heq⟩ | ⟨-, heq⟩
        · rw [heq] at hj
          cases hj
        · rw [heq] at hj hmap ⊢
          have hsame := hspared.hashed hj
          rw [hsame] at hj hmap ⊢
          exact habsent j hj hmap
      obtain ⟨pool₄, hinsert, hchanged₄, hok₄⟩ :=
        hok₃.insertFilled hchanged₃.self (find_none hfind).2 habsent₃
      rw [← hset] at hinsert
      rw [bind_of_ok rfl]
      dsimp only
      rw [bind_of_ok hinsert]
      refine .some hok₄ (.fresh h hspared hfreed (hchanged₃.trans hchanged₄)) ?_
        fun j hj => absurd hj (habsent.not_cached j)
      unfold Cached
      rw [hchanged₄.self]
      exact ⟨rfl, rfl, rfl⟩

theorem CacheOk.blockget (h : CacheOk pool pins) (map block : Nat) (malloc : Bool) :
    Looked pool pins map block malloc (blockget debug pool map block malloc) := by
  unfold Reclaim.blockget
  cases hfind : pool.find map block with
  | error error =>
      obtain ⟨rfl, hbucket⟩ := find_bounds hfind
      exact .bounds hbucket
  | ok found =>
      cases found with
      | none => exact h.insertNew malloc hfind
      | some id =>
          have hcached := (h.find_iff (find_some hfind).2.2).1 hfind
          obtain ⟨pool', hget, hlooked⟩ := (h.touch hcached.1).found malloc hfind
          simp only [hget, bind, Except.bind, pure, Except.pure]
          cases hlooked with
          | some hok hkept hcached' hfound =>
              exact .some hok ⟨hkept.held, hkept.dirty, hkept.maxBuffers⟩ hcached' hfound

/-- A successful read makes an empty buffer clean, which its holder keeps from being reclaimed. -/
theorem CacheOk.blockread (h : CacheOk pool pins) (map block : Nat) (malloc : Bool) (data : α) :
    Looked pool pins map block malloc (blockread debug pool map block malloc data) := by
  have hlooked := @CacheOk.blockget _ debug _ _ h map block malloc
  unfold Reclaim.blockread
  generalize Reclaim.blockget debug pool map block malloc = result at hlooked ⊢
  cases hlooked with
  | bounds hbucket => exact .bounds hbucket
  | none hok hkept habsent hfull => exact .none hok hkept habsent hfull
  | @some pool₁ id hok hkept hcached hfound =>
      rw [bind_of_ok rfl]
      dsimp only
      split
      · next hempty =>
          have hlive : (pool₁.buffers id).state ≠ bufferFreed := by
            rw [hempty]
            decide
          have hok₂ := hok.setData hlive (fun _ => rfl) data
          have hset := Changed.set pool₁ id { pool₁.buffers id with data := data }
          have hself := hset.self
          obtain ⟨pool', hclean, hchanged, hok'⟩ := @CacheOk.setClean _ debug _ _ id hok₂
            (by rw [hself]; exact hlive)
            (by rw [hself]; show (pool₁.buffers id).state ≠ bufferClean; rw [hempty]; decide)
          have hrefs := (hok.head id).refs
          have hnot : ¬ CanReclaim
              { pool₁.buffers id with data := data, state := bufferClean } := by
            rintro ⟨hone, -⟩
            have hone' : (pool₁.buffers id).count = 1 := hone
            rw [ownRefs_of_hashed hcached.1, Function.update_self] at hrefs
            omega
          rw [hself, settledBuffer, if_neg fun hand => hnot hand.2] at hchanged
          rw [hself, clearedPins, if_neg fun hand => ?_] at hok'
          · rw [bind_of_ok hclean]
            refine .some hok' (hkept.trans (.one (hset.trans hchanged) ⟨rfl, rfl⟩
              fun hdirty => ?_)) ?_ hfound
            · have hundirty : (pool₁.buffers id).isDirty = false := isDirty_of_lt (by
                rw [hempty]
                decide)
              exact absurd (hundirty.symm.trans hdirty) Bool.false_ne_true
            · unfold Cached
              rw [hchanged.self]
              exact hcached
          · exact Bool.false_ne_true (hand.2.symm.trans hcached.1)
      · exact .some hok hkept hcached hfound

/-! ## Dirty buffers -/

/-- What `blockdirty` returns: no buffer, because there is no room for a clone, or a buffer of the
same block that is dirty for the delta. -/
inductive Dirtied (pool : BufferPool α) (pins : Nat → Nat) (id newdelta : Nat) (malloc : Bool) :
    Except TuxError (BufferPool α × Option Nat) → Prop where
  | none {pool' : BufferPool α} : CacheOk pool' pins → Kept pool pool' pins pins (fun _ => False) →
      (malloc = true → ∀ j, ¬ CanReclaim (pool.buffers j)) →
      Dirtied pool pins id newdelta malloc (.ok (pool', none))
  | same {pool' : BufferPool α} : CacheOk pool' pins →
      Kept pool pool' pins pins (fun _ => False) →
      (pool'.buffers id).hashed = true → SameBlock (pool.buffers id) (pool'.buffers id) →
      (pool'.buffers id).state = bufferDirty + tux3Delta newdelta →
      Dirtied pool pins id newdelta malloc (.ok (pool', some id))
  | forked {pool' : BufferPool α} {clone : Nat} : clone ≠ id →
      CacheOk pool' (Function.update (Function.update pins id (pins id - 1)) clone
        (pins clone + 1)) →
      Kept pool pool' pins (Function.update (Function.update pins id (pins id - 1)) clone
        (pins clone + 1)) (fun _ => False) →
      (pool'.buffers clone).hashed = true → SameBlock (pool.buffers id) (pool'.buffers clone) →
      (pool'.buffers clone).state = bufferDirty + tux3Delta newdelta →
      (pool'.buffers id).hashed = false →
      Dirtied pool pins id newdelta malloc (.ok (pool', some clone))

/-- A dirty buffer is taken off the hash; the reference of its holder becomes that of the delta. -/
theorem CacheOk.forkOff (h : CacheOk pool pins) (hhashed : (pool.buffers id).hashed = true)
    (hdirty : (pool.buffers id).isDirty = true) (hpin : 0 < pins id) :
    ∃ pool', removeHash debug pool id = .ok pool' ∧ Changed pool pool' id
      { pool.buffers id with hashed := false, count := (pool.buffers id).count - 1 } ∧
      CacheOk pool' (Function.update pins id (pins id - 1)) := by
  have hrefs := (h.head id).refs
  rw [ownRefs_of_hashed hhashed] at hrefs
  have hun := h.unhash hhashed
  rw [if_pos hdirty] at hun
  have hself := (@unhash_changed _ pool id).self
  obtain ⟨pool', hput, hchanged, hok⟩ := @CacheOk.blockput _ debug _ _ id hun hpin
  have hnot : ¬ CanReclaim { pool.buffers id with
      hashed := false, count := (pool.buffers id).count - 1 } := fun hcan => nomatch hcan.2.2
  have hzero : ¬ (pool.buffers id).count - 1 = 0 := by omega
  rw [hself, putBuffer, if_neg hzero, settledBuffer, if_neg fun hand => hnot hand.2] at hchanged
  exact ⟨pool', hput, unhash_changed.trans hchanged, hok⟩

theorem CacheOk.forkBuffer (h : CacheOk pool pins) (hhashed : (pool.buffers id).hashed = true)
    (hmap : (pool.buffers id).map = some map) (hdirty : (pool.buffers id).isDirty = true)
    (hpin : 0 < pins id) (newdelta : Nat) (malloc : Bool) :
    Dirtied pool pins id newdelta malloc (forkBuffer debug pool map id newdelta malloc) := by
  have hnew := @CacheOk.newBuffer _ debug _ _ h map malloc
  unfold Reclaim.forkBuffer
  generalize Reclaim.newBuffer debug pool map malloc = result at hnew ⊢
  cases hnew with
  | full hspared hok hfull => exact .none hok (hspared.kept h) hfull
  | @fresh pool₁ pool₂ clone hspared hfreed hunhashed hchanged hok =>
      have hfree := hspared.free h hfreed
      have hne : clone ≠ id := by
        rintro rfl
        exact Bool.false_ne_true (hfree.2.symm.trans hdirty)
      have hid : pool₁.buffers id = pool.buffers id :=
        hspared.of_not fun hcan => Bool.false_ne_true (hcan.2.1.symm.trans hdirty)
      have hid₂ : pool₂.buffers id = pool.buffers id := (hchanged.other hne.symm).trans hid
      obtain ⟨pool₃, hset, hchanged₃, hok₃⟩ :=
        hok.fill hchanged hunhashed (pool₂.buffers id).index (pool₂.buffers id).data
      have hid₃ : pool₃.buffers id = pool.buffers id := (hchanged₃.other hne.symm).trans hid
      rw [hid₂] at hchanged₃
      obtain ⟨pool₄, hremove, hchanged₄, hok₄⟩ := @CacheOk.forkOff _ debug _ _ id hok₃
        (hid₃ ▸ hhashed) (hid₃ ▸ hdirty) (by rw [Function.update_of_ne hne.symm]; exact hpin)
      have hclone₄ := (hchanged₄.other hne).trans hchanged₃.self
      have habsent : Absent pool₄ map (pool.buffers id).index := by
        intro j hj hjmap hjindex
        rcases hchanged₄.cases j with ⟨rfl, heq⟩ | ⟨hjid, heq⟩
        · rw [heq] at hj
          cases hj
        · rcases hchanged₃.cases j with ⟨rfl, heq₃⟩ | ⟨-, heq₃⟩
          · rw [heq, heq₃] at hj
            cases hj
          · rw [heq, heq₃] at hj hjmap hjindex
            have hsame := hspared.hashed hj
            rw [hsame] at hj hjmap hjindex
            exact hjid (h.unique j id hj hhashed (hjmap.trans hmap.symm) hjindex)
      obtain ⟨pool₅, hinsert, hchanged₅, hok₅⟩ :=
        hok₄.insertFilled hclone₄ ((h.head id).bucket_lt hhashed) habsent
      obtain ⟨pool₆, hmark, hchanged₆, hok₆⟩ :=
        @CacheOk.markDirty _ debug _ _ clone map hok₅ newdelta (by rw [hchanged₅.self])
      have hundirty : BufferHead.isDirty ⟨some map, true, 2, bufferEmpty, (pool.buffers id).index,
          (pool.buffers id).data⟩ = false := isDirty_of_lt (by decide : bufferEmpty < bufferDirty)
      rw [hchanged₅.self, hundirty, if_neg Bool.false_ne_true] at hchanged₆
      rw [Function.update_of_ne hne.symm, Function.update_comm hne] at hok₆
      have hkept : Kept pool pool₆ pins (Function.update (Function.update pins id (pins id - 1))
          clone (pins clone + 1)) fun _ => False := by
        have hkept₃ := @Kept.fresh _ _ _ pins (Function.update (Function.update pins id
          (pins id - 1)) clone (pins clone + 1)) _ _ _ (fun _ => False) h hspared hfreed hchanged₃
        refine (hkept₃.trans (.one hchanged₄ ⟨rfl, rfl⟩ fun _ _ => rfl)).trans
          (.one (hchanged₅.trans hchanged₆) ?_ ?_)
        · rw [hclone₄]
          exact ⟨rfl, rfl⟩
        · rw [hclone₄]
          exact fun hfalse => absurd (hundirty.symm.trans hfalse) Bool.false_ne_true
      have hid₆ : (pool₆.buffers id).hashed = false := by
        rw [hchanged₆.other hne.symm, hchanged₅.other hne.symm, hchanged₄.self]
      rw [← hset] at hremove
      rw [bind_of_ok rfl]
      dsimp only
      rw [bind_of_ok hremove, bind_of_ok hinsert, bind_of_ok hmark]
      refine .forked hne hok₆ hkept ?_ ?_ ?_ hid₆
      · rw [hchanged₆.self]
      · rw [hchanged₆.self]
        exact ⟨hmap.symm, rfl⟩
      · rw [hchanged₆.self]

/-- `blockdirty` of a buffer that is cached. -/
theorem CacheOk.blockdirty (h : CacheOk pool pins) (hhashed : (pool.buffers id).hashed = true)
    (hpin : 0 < pins id) (newdelta : Nat) (malloc : Bool) :
    Dirtied pool pins id newdelta malloc (blockdirty debug pool id newdelta malloc) := by
  have hhead := h.head id
  obtain ⟨map, hmap⟩ := hhead.map_some (h.live_of_hashed hhashed)
  unfold Reclaim.blockdirty
  rw [bind_of_ok (tuxAssert_of hhead.state_lt), hmap]
  dsimp only
  split
  · next hdirty =>
      split
      · next halready =>
          have hstate : (pool.buffers id).state = bufferDirty + tux3Delta newdelta := by
            unfold BufferHead.alreadyDirty at halready
            rw [Bool.and_eq_true, beq_iff_eq] at halready
            have hge := isDirty_iff.1 hdirty
            omega
          exact .same h ((Spared.refl pool).kept h) hhashed ⟨rfl, rfl⟩ hstate
      · exact h.forkBuffer hhashed hmap hdirty hpin newdelta malloc
  · next hclean =>
      obtain ⟨pool', hmark, hchanged, hok⟩ :=
        @CacheOk.markDirty _ debug _ _ id map h newdelta hhashed
      rw [if_neg hclean] at hchanged
      rw [bind_of_ok hmark]
      refine .same hok (.one hchanged ⟨rfl, rfl⟩ fun hdirty => absurd hdirty hclean) ?_ ?_ ?_
      · rw [hchanged.self]
        exact hhashed
      · rw [hchanged.self]
        exact ⟨rfl, rfl⟩
      · rw [hchanged.self]

/-! ## Holders and the end of an I/O -/

theorem settledBuffer_of_not (h : ¬ CanReclaim buffer) : settledBuffer debug buffer = buffer :=
  if_neg fun hand => h hand.2

/-- The references of a dirty buffer: one is that of the hash, or of the delta. -/
theorem ownRefs_of_dirty (hdirty : buffer.isDirty = true) : buffer.ownRefs = 1 := by
  cases hhashed : buffer.hashed with
  | true => exact ownRefs_of_hashed hhashed
  | false => exact ownRefs_of_forked hdirty hhashed

theorem CacheOk.hold (h : CacheOk pool pins) (hpin : 0 < pins id) :
    ∃ pool', pool.getBh id = .ok pool' ∧ CacheOk pool' (Function.update pins id (pins id + 1)) ∧
      Kept pool pool' pins (Function.update pins id (pins id + 1)) fun _ => False := by
  obtain ⟨pool', hget, rfl, hok⟩ := h.getBh (h.live_of_pin hpin)
  exact ⟨_, hget, hok, .one (.set pool id _) ⟨rfl, rfl⟩ fun _ _ => rfl⟩

/-- What a put leaves of a buffer that someone else holds, or that is dirty. -/
theorem putBuffer_of_used (h : CacheOk pool pins) (hpin : 0 < pins id)
    (hused : 1 < pins id ∨ (pool.buffers id).isDirty = true) :
    putBuffer debug (pool.buffers id) =
      { pool.buffers id with count := (pool.buffers id).count - 1 } := by
  have hrefs := (h.head id).refs
  have hcount : ¬ (pool.buffers id).count - 1 = 0 := by
    rcases hused with hmany | hdirty
    · omega
    · rw [ownRefs_of_dirty hdirty] at hrefs
      omega
  unfold putBuffer
  rw [if_neg hcount]
  refine settledBuffer_of_not fun hcan => ?_
  have hone : (pool.buffers id).count - 1 = 1 := hcan.1
  rcases hused with hmany | hdirty
  · have hhashed : (pool.buffers id).hashed = true := hcan.2.2
    rw [ownRefs_of_hashed hhashed] at hrefs
    omega
  · exact Bool.false_ne_true (hcan.2.1.symm.trans hdirty)

theorem CacheOk.put (h : CacheOk pool pins) (hpin : 0 < pins id) :
    ∃ pool', Reclaim.blockput debug pool id = .ok pool' ∧
      CacheOk pool' (Function.update pins id (pins id - 1)) ∧
      Kept pool pool' pins (Function.update pins id (pins id - 1)) fun _ => False := by
  obtain ⟨pool', hput, hchanged, hok⟩ := @CacheOk.blockput _ debug _ _ id h hpin
  refine ⟨pool', hput, hok, .change h (.refl pool) hchanged (fun _ hpos => ?_) fun hdirty _ => ?_⟩
  · rw [Function.update_self] at hpos
    rw [putBuffer_of_used h hpin (.inl (by omega))]
    exact ⟨rfl, rfl⟩
  · rw [putBuffer_of_used h hpin (.inr hdirty)]
    exact ⟨⟨rfl, rfl⟩, rfl⟩

/-- The delta that has written a buffer gives it up. -/
theorem CacheOk.endio (h : CacheOk pool pins) (hdirty : (pool.buffers id).isDirty = true) :
    ∃ pool', endio debug pool id = .ok pool' ∧ CacheOk pool' pins ∧
      Kept pool pool' pins pins (· = id) := by
  have hge := isDirty_iff.1 hdirty
  have hlive : (pool.buffers id).state ≠ bufferFreed := fun heq => by
    rw [heq] at hge
    exact absurd hge (by decide)
  have hne : (pool.buffers id).state ≠ bufferClean := fun heq => by
    rw [heq] at hge
    exact absurd hge (by decide)
  have hrefs := (h.head id).refs
  rw [ownRefs_of_dirty hdirty] at hrefs
  obtain ⟨pool₁, hclean, hchanged, hok⟩ := @CacheOk.setClean _ debug _ _ id h hlive hne
  unfold Reclaim.endio
  dsimp only
  rw [bind_of_ok hclean]
  cases hhashed : (pool.buffers id).hashed with
  | true =>
      rw [clearedPins, if_neg fun hand => Bool.false_ne_true (hand.2.symm.trans hhashed)] at hok
      rw [if_neg (Bool.false_ne_true ∘ Eq.symm)]
      refine ⟨pool₁, rfl, hok, .change h (.refl pool) hchanged (fun hpin _ => ?_)
        fun _ hnot => absurd rfl hnot⟩
      rw [settledBuffer_of_not fun hcan => ?_]
      · exact ⟨rfl, rfl⟩
      · have hone : (pool.buffers id).count = 1 := hcan.1
        omega
  | false =>
      rw [clearedPins, if_pos ⟨hdirty, hhashed⟩] at hok
      have hnot : ¬ CanReclaim { pool.buffers id with state := bufferClean } :=
        fun hcan => Bool.false_ne_true (hhashed.symm.trans hcan.2.2)
      rw [settledBuffer_of_not hnot] at hchanged
      obtain ⟨pool', hput, hchanged', hok'⟩ := @CacheOk.blockput _ debug _ _ id hok (by
        rw [Function.update_self]
        exact Nat.succ_pos _)
      rw [Function.update_self, Nat.add_sub_cancel, Function.update_idem,
        Function.update_eq_self] at hok'
      rw [if_pos rfl]
      refine ⟨pool', hput, hok', .change h (.refl pool) (hchanged.trans hchanged')
        (fun hpin _ => ?_) fun _ hnot => absurd rfl hnot⟩
      rw [putBuffer_of_used hok (by rw [Function.update_self]; exact Nat.succ_pos _)
        (.inl (by rw [Function.update_self]; omega)), hchanged.self]
      exact ⟨rfl, rfl⟩

end Tux3.Reclaim
