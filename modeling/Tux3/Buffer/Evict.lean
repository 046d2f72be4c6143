/-
  Buffer/Evict.lean --- putting, reclaiming and evicting buffers.

  At any debug level a buffer goes away only with its last reference: within a put, within a change
  of its state, or when `new_buffer` looks for room.
-/
import Tux3.Buffer.Cached

set_option autoImplicit false

namespace Tux3.Reclaim

open BufferPool (bufferHash buckets)
open Outcome (bind_of_ok)

variable {α : Type} {debug : Nat} {pool pool' : BufferPool α} {pins pins' : Nat → Nat}
  {id map : Nat} {buffer : BufferHead α}

/-! ## Putting -/

/-- What `reclaim_buffer_early` makes of a buffer. -/
def settledBuffer (debug : Nat) (buffer : BufferHead α) : BufferHead α :=
  if 2 ≤ debug ∧ CanReclaim buffer then goneBuffer buffer else buffer

/-- What `blockput` makes of a buffer. -/
def putBuffer (debug : Nat) (buffer : BufferHead α) : BufferHead α :=
  if buffer.count - 1 = 0 then goneBuffer buffer
  else settledBuffer debug { buffer with count := buffer.count - 1 }

theorem freeBuffer_changed (hunhashed : (pool.buffers id).hashed = false)
    (hcount : (pool.buffers id).count = 0) :
    Changed pool (freeBuffer debug pool id) id (goneBuffer (pool.buffers id)) := by
  have hgone : { pool.buffers id with state := bufferFreed, map := none } =
      goneBuffer (pool.buffers id) := by
    unfold goneBuffer
    rw [← hunhashed, ← hcount]
  unfold freeBuffer
  split
  · exact ⟨congrArg (Function.update pool.buffers id) hgone, rfl, rfl⟩
  · unfold BufferPool.freeBuffer BufferPool.setState
    rw [if_pos rfl]
    refine ⟨?_, rfl, rfl⟩
    simp only [BufferPool.set, BufferPool.unlink, Function.update_self, Function.update_idem]
    exact congrArg (Function.update pool.buffers id) hgone

/-- `free_buffer` of a buffer that is not on the free list. -/
theorem freeBuffer_lists (hmem : id ∉ pool.freed) :
    (freeBuffer debug pool id).lru = pool.lru ∧ (freeBuffer debug pool id).hash = pool.hash ∧
      (freeBuffer debug pool id).bufferCount = pool.bufferCount - 1 ∧
      ((freeBuffer debug pool id).freed = pool.freed ∨
        (freeBuffer debug pool id).freed = pool.freed ++ [id]) := by
  have hfilter := filter_ne_of_not_mem hmem
  unfold freeBuffer
  split
  · exact ⟨rfl, rfl, rfl, .inl hfilter⟩
  · unfold BufferPool.freeBuffer BufferPool.setState
    rw [if_pos rfl]
    exact ⟨rfl, rfl, rfl, .inr (congrArg (· ++ [id]) hfilter)⟩

/-- The last reference is put. -/
theorem CacheOk.putLast (h : CacheOk pool pins) (hpin : 0 < pins id)
    (hcount : (pool.buffers id).count = 1) (n : Nat) :
    ∃ pool', blockputLoop debug (n + 1) pool id = .ok pool' ∧
      Changed pool pool' id (goneBuffer (pool.buffers id)) ∧
      CacheOk pool' (Function.update pins id (pins id - 1)) := by
  have hrefs := (h.head id).refs
  have hunhashed : (pool.buffers id).hashed = false := by
    cases hhashed : (pool.buffers id).hashed with
    | false => rfl
    | true =>
        rw [ownRefs_of_hashed hhashed] at hrefs
        omega
  have hclean : (pool.buffers id).isDirty = false := by
    cases hdirty : (pool.buffers id).isDirty with
    | false => rfl
    | true =>
        rw [ownRefs_of_forked hdirty hunhashed] at hrefs
        omega
  have hlru : id ∉ pool.lru := by
    rw [h.mem_lru, hunhashed]
    exact Bool.false_ne_true
  have hfreed := h.not_mem_freed (h.live_of_pin hpin)
  have hput : blockputLoop debug (n + 1) pool id = .ok (freeBuffer debug
      (pool.set id { pool.buffers id with count := (pool.buffers id).count - 1 }) id) := by
    have hlru' : id ∉ (pool.set id { pool.buffers id with
      count := (pool.buffers id).count - 1 }).lru := hlru
    unfold blockputLoop
    dsimp only
    rw [bind_of_ok (tuxAssert_of (hcount ▸ Nat.one_pos : 0 < (pool.buffers id).count)),
      if_pos (Nat.sub_eq_zero_of_le (Nat.le_of_eq hcount)), bind_of_ok (tuxAssert_of hclean),
      bind_of_ok (tuxAssert_of hunhashed), bind_of_ok (tuxAssert_of hlru')]
    rfl
  generalize hset : pool.set id { pool.buffers id with count := (pool.buffers id).count - 1 } =
    pool₁ at hput
  have hid : pool₁.buffers id =
      { pool.buffers id with count := (pool.buffers id).count - 1 } := by
    rw [← hset, BufferPool.set_self]
  have hset' : Changed pool pool₁ id
      { pool.buffers id with count := (pool.buffers id).count - 1 } := by
    rw [← hset]
    exact .set pool id _
  have hfree : Changed pool₁ (freeBuffer debug pool₁ id) id (goneBuffer (pool₁.buffers id)) :=
    freeBuffer_changed (by rw [hid]; exact hunhashed) (by rw [hid, hcount])
  obtain ⟨hl1, hl2, hl3, hl4⟩ := @freeBuffer_lists _ debug pool₁ id (by rw [← hset]; exact hfreed)
  have hchanged : Changed pool (freeBuffer debug pool₁ id) id (goneBuffer (pool.buffers id)) := by
    have hgone : goneBuffer (pool₁.buffers id) = goneBuffer (pool.buffers id) := by
      rw [hid]
      rfl
    exact hgone ▸ hset'.trans hfree
  rw [← hset] at hl1 hl2 hl3 hl4 hchanged hput
  exact ⟨_, hput, hchanged, h.gone hchanged hcount hpin hl1 hl2 hl3 hl4⟩

/-- A reference is put that is not the last one. -/
theorem CacheOk.putOne (h : CacheOk pool pins) (hpin : 0 < pins id)
    (hcount : (pool.buffers id).count - 1 ≠ 0) :
    CacheOk (pool.set id { pool.buffers id with count := (pool.buffers id).count - 1 })
      (Function.update pins id (pins id - 1)) := by
  have hlive := h.live_of_pin hpin
  have hhead := h.head id
  have hrefs := hhead.refs
  refine h.update ⟨rfl, rfl, rfl⟩ ⟨rfl, rfl, rfl, rfl⟩ hlive rfl rfl (fun _ => rfl)
    ⟨?_, iff_of_false hlive hcount, hhead.state_lt, hhead.map_some, hhead.bucket_lt⟩ hlive
    fun j hj => Function.update_of_ne hj _ _
  rw [Function.update_self]
  show (pool.buffers id).count - 1 = (pool.buffers id).ownRefs + _
  omega

/-- A buffer that may be reclaimed is taken off the hash, and put. -/
theorem CacheOk.dropHash (h : CacheOk pool pins) (hcan : CanReclaim (pool.buffers id)) (n : Nat) :
    ∃ pool', blockputLoop debug (n + 1) (Reclaim.unhash pool id) id = .ok pool' ∧
      Changed pool pool' id (goneBuffer (pool.buffers id)) ∧ CacheOk pool' pins := by
  obtain ⟨hcount, hclean, hhashed⟩ := hcan
  have hun := h.unhash hhashed
  rw [hclean, if_neg Bool.false_ne_true] at hun
  have hself := (@unhash_changed _ pool id).self
  obtain ⟨pool', hput, hchanged, hok⟩ := @CacheOk.putLast _ debug _ _ id hun
    (by rw [Function.update_self]; exact Nat.succ_pos _) (by rw [hself]; exact hcount) n
  rw [hself] at hchanged
  rw [Function.update_self, Nat.add_sub_cancel, Function.update_idem,
    Function.update_eq_self] at hok
  exact ⟨pool', hput, unhash_changed.trans hchanged, hok⟩

theorem CacheOk.blockput (h : CacheOk pool pins) (hpin : 0 < pins id) :
    ∃ pool', blockput debug pool id = .ok pool' ∧
      Changed pool pool' id (putBuffer debug (pool.buffers id)) ∧
      CacheOk pool' (Function.update pins id (pins id - 1)) := by
  have hrefs := (h.head id).refs
  have hpos : 0 < (pool.buffers id).count := by omega
  unfold Reclaim.blockput putBuffer
  by_cases hzero : (pool.buffers id).count - 1 = 0
  · rw [if_pos hzero]
    exact h.putLast hpin (by omega) 1
  · have hone := h.putOne hpin hzero
    have hself := BufferPool.set_self pool id
      { pool.buffers id with count := (pool.buffers id).count - 1 }
    unfold blockputLoop settledBuffer
    dsimp only
    rw [bind_of_ok (tuxAssert_of hpos), if_neg hzero, if_neg hzero, hself]
    split
    · next hearly =>
        obtain ⟨pool', hput, hchanged, hok⟩ :=
          @CacheOk.dropHash _ debug _ _ id hone (by rw [hself]; exact hearly.2) 0
        rw [hself] at hchanged
        exact ⟨pool', hput, (Changed.set pool id _).trans hchanged, hok⟩
    · exact ⟨_, rfl, ⟨rfl, rfl, rfl⟩, hone⟩

/-! ## Reclaiming -/

/-- A buffer that is dirty, or that someone holds, is not reclaimed. -/
theorem CacheOk.reclaim (h : CacheOk pool pins) (id : Nat) :
    ∃ pool', reclaim debug pool id = .ok (pool', decide (CanReclaim (pool.buffers id))) ∧
      Changed pool pool' id (if CanReclaim (pool.buffers id) then goneBuffer (pool.buffers id)
        else pool.buffers id) ∧ CacheOk pool' pins := by
  unfold Reclaim.reclaim
  by_cases hcan : CanReclaim (pool.buffers id)
  · rw [if_pos hcan, if_pos hcan, decide_eq_true hcan]
    obtain ⟨pool', hput, hchanged, hok⟩ := @CacheOk.dropHash _ debug _ _ _ h hcan 1
    have hremove : removeHash debug pool id = .ok pool' := hput
    exact ⟨pool', bind_of_ok hremove, hchanged, hok⟩
  · rw [if_neg hcan, if_neg hcan, decide_eq_false hcan]
    exact ⟨pool, rfl, .refl pool id, h⟩

theorem CacheOk.reclaimEarly (h : CacheOk pool pins) (id : Nat) :
    ∃ pool', reclaimEarly debug pool id = .ok pool' ∧
      Changed pool pool' id (settledBuffer debug (pool.buffers id)) ∧ CacheOk pool' pins := by
  unfold Reclaim.reclaimEarly settledBuffer
  by_cases hdebug : 2 ≤ debug
  · obtain ⟨pool', hreclaim, hchanged, hok⟩ := @CacheOk.reclaim _ debug _ _ h id
    rw [if_pos hdebug, bind_of_ok hreclaim]
    refine ⟨pool', rfl, ?_, hok⟩
    rw [if_congr (and_iff_right hdebug) rfl rfl]
    exact hchanged
  · rw [if_neg hdebug, if_neg fun hand => hdebug hand.1]
    exact ⟨pool, rfl, .refl pool id, h⟩

/-- The state of a buffer changes, after which it may be reclaimed. -/
theorem CacheOk.changeState (h : CacheOk pool pins) (hlive : (pool.buffers id).state ≠ bufferFreed)
    {state : Nat} (hne : state ≠ bufferFreed) (hlt : state < bufferDirty) :
    ∃ pool', Reclaim.reclaimEarly debug (pool.setState id state) id = .ok pool' ∧
      Changed pool pool' id (settledBuffer debug { pool.buffers id with state := state }) ∧
      CacheOk pool' (clearedPins (pool.buffers id) pins id) := by
  have hset := @setState_changed _ pool id _ hne
  obtain ⟨pool', hearly, hchanged, hok⟩ :=
    @CacheOk.reclaimEarly _ debug _ _ (h.setState hlive hne hlt) id
  rw [hset.self] at hchanged
  exact ⟨pool', hearly, hset.trans hchanged, hok⟩

theorem CacheOk.setClean (h : CacheOk pool pins) (hlive : (pool.buffers id).state ≠ bufferFreed)
    (hne : (pool.buffers id).state ≠ bufferClean) :
    ∃ pool', setClean debug pool id = .ok pool' ∧
      Changed pool pool' id (settledBuffer debug { pool.buffers id with state := bufferClean }) ∧
      CacheOk pool' (clearedPins (pool.buffers id) pins id) := by
  unfold Reclaim.setClean
  rw [bind_of_ok (tuxAssert_of hne)]
  exact h.changeState hlive (by decide) (by decide)

theorem CacheOk.setEmpty (h : CacheOk pool pins) (hlive : (pool.buffers id).state ≠ bufferFreed)
    (hne : (pool.buffers id).state ≠ bufferEmpty) :
    ∃ pool', setEmpty debug pool id = .ok pool' ∧
      Changed pool pool' id (settledBuffer debug { pool.buffers id with state := bufferEmpty }) ∧
      CacheOk pool' (clearedPins (pool.buffers id) pins id) := by
  unfold Reclaim.setEmpty
  rw [bind_of_ok (tuxAssert_of hne)]
  exact h.changeState hlive (by decide) (by decide)

/-- A dirty buffer is not reclaimed by the change of its state. -/
theorem CacheOk.markDirty (h : CacheOk pool pins) (delta : Nat)
    (hhashed : (pool.buffers id).hashed = true) :
    ∃ pool', markDirty debug pool map id delta = .ok pool' ∧
      Changed pool pool' id (if (pool.buffers id).isDirty = true then pool.buffers id
        else { pool.buffers id with state := bufferDirty + tux3Delta delta }) ∧
      CacheOk pool' pins := by
  unfold Reclaim.markDirty
  by_cases hdirty : (pool.buffers id).isDirty = true
  · rw [if_pos hdirty, if_pos hdirty]
    exact ⟨pool, rfl, .refl pool id, h⟩
  · rw [if_neg hdirty, if_neg hdirty]
    have hset : Changed pool (pool.setDirty map id delta) id
        { pool.buffers id with state := bufferDirty + tux3Delta delta } := ⟨rfl, rfl, rfl⟩
    have hnot : ¬ CanReclaim { pool.buffers id with state := bufferDirty + tux3Delta delta } :=
      fun hcan => Bool.false_ne_true (hcan.2.1.symm.trans (decide_eq_true (Nat.le_add_right _ _)))
    obtain ⟨pool', hearly, hchanged, hok⟩ :=
      @CacheOk.reclaimEarly _ debug _ _ (@CacheOk.setDirty _ _ _ _ map h delta hhashed) id
    rw [hset.self, settledBuffer, if_neg fun hand => hnot hand.2] at hchanged
    exact ⟨pool', hearly, hset.trans hchanged, hok⟩

/-! ## Making room -/

/-- Some buffers of `pool` that were clean or empty, and that no one held, are gone. -/
structure Spared (pool pool' : BufferPool α) : Prop where
  buffers : ∀ j, pool'.buffers j = pool.buffers j ∨
    (CanReclaim (pool.buffers j) ∧ pool'.buffers j = goneBuffer (pool.buffers j))
  maxBuffers : pool'.maxBuffers = pool.maxBuffers

theorem Spared.refl (pool : BufferPool α) : Spared pool pool := ⟨fun _ => .inl rfl, rfl⟩

theorem Spared.trans {pool'' : BufferPool α} (h : Spared pool pool') (h' : Spared pool' pool'') :
    Spared pool pool'' := by
  refine ⟨fun j => ?_, h'.maxBuffers.trans h.maxBuffers⟩
  rcases h.buffers j with heq | ⟨hcan, heq⟩
  · rcases h'.buffers j with heq' | ⟨hcan', heq'⟩
    · exact .inl (heq'.trans heq)
    · rw [heq] at hcan' heq'
      exact .inr ⟨hcan', heq'⟩
  · rcases h'.buffers j with heq' | ⟨hcan', -⟩
    · exact .inr ⟨hcan, heq'.trans heq⟩
    · rw [heq] at hcan'
      cases hcan'.1

/-- A buffer that is dirty, or that someone holds, is spared. -/
theorem Spared.of_not (h : Spared pool pool') (hnot : ¬ CanReclaim (pool.buffers id)) :
    pool'.buffers id = pool.buffers id :=
  (h.buffers id).resolve_right fun hand => hnot hand.1

theorem Changed.spared (h : Changed pool pool' id (if CanReclaim (pool.buffers id)
    then goneBuffer (pool.buffers id) else pool.buffers id)) : Spared pool pool' := by
  refine ⟨fun j => ?_, h.maxBuffers⟩
  rcases h.cases j with ⟨rfl, heq⟩ | ⟨-, heq⟩
  · by_cases hcan : CanReclaim (pool.buffers j)
    · rw [if_pos hcan] at heq
      exact .inr ⟨hcan, heq⟩
    · rw [if_neg hcan] at heq
      exact .inl heq
  · exact .inl heq

/-- A buffer that was reclaimed is not in use any more. -/
theorem CacheOk.reclaimed (h : CacheOk pool pins) (h' : CacheOk pool' pins')
    (hchanged : Changed pool pool' id (goneBuffer (pool.buffers id)))
    (hlive : (pool.buffers id).state ≠ bufferFreed) : pool'.bufferCount + 1 = pool.bufferCount := by
  have huse := hchanged.inUse (h.lt_allocated hlive)
  rw [live_of_ne hlive, not_live_of_eq rfl] at huse
  rw [h.used, h'.used]
  exact huse

theorem CacheOk.evictLoop (h : CacheOk pool pins) (victims : List Nat) (count : Nat) :
    ∃ pool', evictLoop debug victims count pool = .ok pool' ∧ Spared pool pool' ∧
      CacheOk pool' pins ∧ pool'.bufferCount ≤ pool.bufferCount ∧
      ((∃ victim ∈ victims, CanReclaim (pool.buffers victim)) →
        pool'.bufferCount < pool.bufferCount) := by
  induction victims generalizing pool count with
  | nil =>
      refine ⟨pool, rfl, .refl pool, h, Nat.le_refl _, ?_⟩
      rintro ⟨victim, hmem, -⟩
      cases hmem
  | cons victim victims ih =>
      obtain ⟨pool₁, hreclaim, hchanged, hok⟩ := @CacheOk.reclaim _ debug _ _ h victim
      have hspared := hchanged.spared
      unfold Reclaim.evictLoop
      rw [bind_of_ok hreclaim]
      by_cases hcan : CanReclaim (pool.buffers victim)
      · rw [if_pos hcan] at hchanged
        have hless := h.reclaimed hok hchanged (h.live_of_hashed hcan.2.2)
        dsimp only
        rw [if_pos (decide_eq_true hcan)]
        split
        · exact ⟨pool₁, rfl, hspared, hok, by omega, fun _ => by omega⟩
        · obtain ⟨pool₂, hloop, hspared₂, hok₂, hle, -⟩ := ih hok (count + 1)
          exact ⟨pool₂, hloop, hspared.trans hspared₂, hok₂, by omega, fun _ => by omega⟩
      · rw [if_neg hcan] at hchanged
        have hsame : pool₁.buffers = pool.buffers := by
          rw [hchanged.buffers, Function.update_eq_self]
        have hcount : pool₁.bufferCount = pool.bufferCount := by
          rw [h.used, hok.used]
          unfold inUse
          rw [hsame, hchanged.allocated]
        obtain ⟨pool₂, hloop, hspared₂, hok₂, hle, hlt⟩ := ih hok count
        dsimp only
        rw [if_neg fun htrue => hcan (of_decide_eq_true htrue)]
        refine ⟨pool₂, hloop, hspared.trans hspared₂, hok₂, hcount ▸ hle, ?_⟩
        rintro ⟨v, hmem, hv⟩
        rcases List.mem_cons.1 hmem with rfl | hmem
        · exact absurd hv hcan
        · rw [← hcount]
          exact hlt ⟨v, hmem, hsame.symm ▸ hv⟩

/-- There is room afterwards, unless no buffer may be reclaimed. -/
theorem CacheOk.makeRoom (h : CacheOk pool pins) :
    ∃ pool', makeRoom debug pool = .ok pool' ∧ Spared pool pool' ∧ CacheOk pool' pins ∧
      (pool'.bufferCount = pool'.maxBuffers → ∀ j, ¬ CanReclaim (pool.buffers j)) := by
  have hroom := h.room
  unfold Reclaim.makeRoom
  split
  · obtain ⟨pool', hloop, hspared, hok, -, hlt⟩ :=
      @CacheOk.evictLoop _ debug _ _ h pool.lru 0
    refine ⟨pool', hloop, hspared, hok, fun hfull j hcan => ?_⟩
    have := hlt ⟨j, (h.mem_lru j).2 hcan.2.2, hcan⟩
    rw [hfull, hspared.maxBuffers] at this
    omega
  · next hless => exact ⟨pool, rfl, .refl pool, h, fun hfull => absurd hfull.ge hless⟩

/-! ## New buffers -/

theorem reclaimEarly_unhashed (h : (pool.buffers id).hashed = false) :
    Reclaim.reclaimEarly debug pool id = .ok pool := by
  have hnot : ¬ CanReclaim (pool.buffers id) :=
    fun hcan => Bool.false_ne_true (h.symm.trans hcan.2.2)
  unfold Reclaim.reclaimEarly Reclaim.reclaim
  rw [if_neg hnot]
  split <;> rfl

/-- An empty buffer of `map` that only its caller holds. -/
def newHead (map : Nat) (buffer : BufferHead α) : BufferHead α :=
  { buffer with map := some map, count := 1, state := bufferEmpty }

/-- A free buffer gets its holder. -/
theorem CacheOk.haveBuffer (h : CacheOk pool pins) (map : Nat)
    (hfreed : (pool.buffers id).state = bufferFreed) (hid : id < pool.allocated)
    (hroom : pool.bufferCount + 1 + (pool.freed.filter (· ≠ id)).length ≤ pool.maxBuffers) :
    ∃ pool', haveBuffer debug pool map id = .ok (pool', some id) ∧
      Changed pool pool' id (newHead map (pool.buffers id)) ∧
      CacheOk pool' (Function.update pins id (pins id + 1)) := by
  have hhead := h.head id
  have hcount := hhead.freed_iff.1 hfreed
  obtain ⟨hunhashed, hpin⟩ := hhead.freed_refs hfreed
  generalize hset : pool.set id { pool.buffers id with map := some map, count := 1 } = pool₁
  have hself : pool₁.buffers id = { pool.buffers id with map := some map, count := 1 } := by
    rw [← hset, BufferPool.set_self]
  have hne : (pool₁.buffers id).state ≠ bufferEmpty := by
    rw [hself]
    show (pool.buffers id).state ≠ bufferEmpty
    rw [hfreed]
    decide
  have hstate := @setState_changed _ pool₁ id bufferEmpty (by decide)
  have hempty : Reclaim.setEmpty debug pool₁ id = .ok (pool₁.setState id bufferEmpty) := by
    unfold Reclaim.setEmpty
    rw [bind_of_ok (tuxAssert_of hne)]
    refine reclaimEarly_unhashed ?_
    rw [hstate.self, hself]
    exact hunhashed
  have hhave : Reclaim.haveBuffer debug pool map id = .ok ({ pool₁.setState id bufferEmpty with
      bufferCount := (pool₁.setState id bufferEmpty).bufferCount + 1 }, some id) := by
    unfold Reclaim.haveBuffer
    dsimp only
    rw [bind_of_ok (tuxAssert_of hcount), bind_of_ok (tuxAssert_of hfreed), hset, bind_of_ok hempty]
    rfl
  have hchanged : Changed pool { pool₁.setState id bufferEmpty with
      bufferCount := (pool₁.setState id bufferEmpty).bufferCount + 1 } id
      (newHead map (pool.buffers id)) := by
    rw [hself] at hstate
    subst hset
    obtain ⟨hb, ha, hm⟩ := (Changed.set pool id _).trans hstate
    exact ⟨hb, ha, hm⟩
  refine ⟨_, hhave, hchanged, ?_⟩
  subst hset
  refine h.replace hchanged ⟨fun j hj => ?_, h.freed_nodup.filter _, ?_, fun j _ => Iff.rfl,
    h.lru_nodup, fun m bucket => ?_, fun m bucket j _ => Iff.rfl, h.hash_nodup⟩ hid ?_
    (fun j hj => Function.update_of_ne hj _ _)
    (fun hh => absurd (hunhashed.symm.trans hh) Bool.false_ne_true) ?_ ?_
  · obtain ⟨hmem, hj'⟩ := List.mem_filter.1 hj
    exact .inr ⟨of_decide_eq_true hj', hmem⟩
  · exact h.mem_lru id
  · refine (h.mem_hash m bucket id).trans (iff_of_false (fun hand => ?_) fun hand => ?_) <;>
      exact Bool.false_ne_true (hunhashed.symm.trans hand.1)
  · rw [Function.update_self, hpin]
    refine ⟨?_, iff_of_false (by decide : bufferEmpty ≠ bufferFreed) (Nat.one_ne_zero),
      (by decide : bufferEmpty < bufferStates), fun _ => ⟨map, rfl⟩, fun hh => ?_⟩
    · have hown : BufferHead.ownRefs (newHead map (pool.buffers id)) = 0 :=
        ownRefs_of_clean rfl hunhashed
      rw [hown]
      rfl
    · exact absurd (hunhashed.symm.trans hh) Bool.false_ne_true
  · rw [not_live_of_eq hfreed]
    rfl
  · exact hroom

/-- What `new_buffer` returns. -/
inductive NewOk (pool : BufferPool α) (pins : Nat → Nat) (map : Nat) (malloc : Bool) :
    Except TuxError (BufferPool α × Option Nat) → Prop where
  | full {pool' : BufferPool α} : Spared pool pool' → CacheOk pool' pins →
      (malloc = true → ∀ j, ¬ CanReclaim (pool.buffers j)) →
      NewOk pool pins map malloc (.ok (pool', none))
  | fresh {pool₁ pool' : BufferPool α} {id : Nat} : Spared pool pool₁ →
      (pool₁.buffers id).state = bufferFreed → (pool₁.buffers id).hashed = false →
      Changed pool₁ pool' id (newHead map (pool₁.buffers id)) →
      CacheOk pool' (Function.update pins id (pins id + 1)) →
      NewOk pool pins map malloc (.ok (pool', some id))

/-- The first free buffer is taken. -/
theorem CacheOk.takeFreed {pool₁ : BufferPool α} (h : CacheOk pool₁ pins)
    (hspared : Spared pool pool₁) (map : Nat) (malloc : Bool) {rest : List Nat}
    (hfreed : pool₁.freed = id :: rest) :
    NewOk pool pins map malloc (Reclaim.haveBuffer debug pool₁ map id) := by
  have hmem : id ∈ pool₁.freed := by
    rw [hfreed]
    exact List.mem_cons_self
  obtain ⟨hid, hstate⟩ := h.mem_freed id hmem
  have hroom := h.room
  have hnodup := h.freed_nodup
  rw [hfreed, List.length_cons] at hroom
  rw [hfreed] at hnodup
  have hfilter : pool₁.freed.filter (· ≠ id) = rest := by
    rw [hfreed]
    refine (List.filter_cons_of_neg fun hne => ?_).trans
      (filter_ne_of_not_mem (List.nodup_cons.1 hnodup).1)
    exact of_decide_eq_true hne rfl
  obtain ⟨pool', hhave, hchanged, hok⟩ := @CacheOk.haveBuffer _ debug _ _ _ h map hstate hid
    (by rw [hfilter]; omega)
  rw [hhave]
  exact .fresh hspared hstate ((h.head id).freed_refs hstate).1 hchanged hok

/-- More memory for buffers. -/
theorem CacheOk.expand (h : CacheOk pool pins) :
    CacheOk { pool with allocated := pool.allocated + 1 } pins := by
  refine { h with fresh := fun id hid => ?_, mem_freed := fun id hid => ?_, used := ?_ }
  · exact h.fresh id (Nat.le_of_succ_le hid)
  · exact ⟨Nat.lt_succ_of_lt (h.mem_freed id hid).1, (h.mem_freed id hid).2⟩
  · rw [h.used]
    unfold inUse
    have hlast := not_live_of_eq (h.fresh pool.allocated (Nat.le_refl _))
    rw [List.range_succ, List.countP_append, List.countP_singleton, hlast]
    rfl

theorem CacheOk.expandPool {pool₁ : BufferPool α} (h : CacheOk pool₁ pins)
    (hspared : Spared pool pool₁) (map : Nat) (malloc : Bool) (hfreed : pool₁.freed = [])
    (hfull : pool₁.bufferCount = pool₁.maxBuffers → ∀ j, ¬ CanReclaim (pool.buffers j)) :
    NewOk pool pins map malloc (expandPool debug pool₁ map malloc) := by
  have hroom := h.room
  unfold Reclaim.expandPool
  by_cases hfail : pool₁.bufferCount = pool₁.maxBuffers ∨ malloc = false
  · rw [if_pos hfail]
    refine .full hspared h fun hmalloc => hfull (hfail.resolve_right fun hfalse => ?_)
    exact Bool.false_ne_true (hfalse.symm.trans hmalloc)
  · rw [if_neg hfail]
    have hstate := h.fresh pool₁.allocated (Nat.le_refl _)
    obtain ⟨pool', hhave, hchanged, hok⟩ := @CacheOk.haveBuffer _ debug _ _ _ h.expand map hstate
      (Nat.lt_succ_self _) (by
        dsimp only
        rw [hfreed] at hroom ⊢
        rw [List.length_nil] at hroom
        rw [List.filter_nil, List.length_nil]
        omega)
    have hspared' : Spared pool { pool₁ with allocated := pool₁.allocated + 1 } :=
      ⟨hspared.buffers, hspared.maxBuffers⟩
    rw [hhave]
    exact .fresh hspared' hstate ((h.head _).freed_refs hstate).1 hchanged hok

theorem CacheOk.newBuffer (h : CacheOk pool pins) (map : Nat) (malloc : Bool) :
    NewOk pool pins map malloc (newBuffer debug pool map malloc) := by
  unfold Reclaim.newBuffer
  split
  · next id rest hfreed => exact h.takeFreed (.refl pool) map malloc hfreed
  · obtain ⟨pool₁, hroom, hspared, hok, hfull⟩ := @CacheOk.makeRoom _ debug _ _ h
    rw [bind_of_ok hroom]
    split
    · next id rest hfreed => exact hok.takeFreed hspared map malloc hfreed
    · next hfreed => exact hok.expandPool hspared map malloc hfreed hfull

end Tux3.Reclaim
