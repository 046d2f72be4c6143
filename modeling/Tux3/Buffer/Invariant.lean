/-
  Buffer/Invariant.lean --- the lists and counts of the buffers.

  `PoolOk pool pins` ties the lists of a buffer to its state, and its count to who needs it: the
  hash, the delta that has still to write a forked buffer, and the holders `pins`.
-/
import Mathlib.Data.List.Nodup
import Tux3.Buffer.Pool
import Tux3.Lib.Outcome

set_option autoImplicit false

namespace Tux3

open BufferPool Outcome

variable {α : Type}

/-- The references of a buffer that no one holds: that of the hash, and that of the delta which
has to write a forked buffer. -/
def BufferHead.ownRefs (buffer : BufferHead α) : Nat :=
  (if buffer.hashed = true then 1 else 0) +
    (if buffer.isDirty = true ∧ buffer.hashed = false then 1 else 0)

/-- The buffers, their lists and their references agree. -/
structure PoolOk (pool : BufferPool α) (pins : Nat → Nat) : Prop where
  count : ∀ id, (pool.buffers id).count = (pool.buffers id).ownRefs + pins id
  freed_iff : ∀ id, (pool.buffers id).state = bufferFreed ↔ (pool.buffers id).count = 0
  state_lt : ∀ id, (pool.buffers id).state < bufferStates
  map_some : ∀ id, (pool.buffers id).state ≠ bufferFreed → ∃ map, (pool.buffers id).map = some map
  fresh : ∀ id, pool.allocated ≤ id → (pool.buffers id).state = bufferFreed
  mem_freed : ∀ id ∈ pool.freed, id < pool.allocated ∧ (pool.buffers id).state = bufferFreed
  mem_lru : ∀ id, id ∈ pool.lru ↔ (pool.buffers id).hashed = true
  mem_hash : ∀ map bucket, ∀ id ∈ pool.hash map bucket,
    (pool.buffers id).hashed = true ∧ (pool.buffers id).map = some map
  mem_dirty : ∀ map slot id, id ∈ pool.dirty map slot ↔
    (pool.buffers id).map = some map ∧ (pool.buffers id).state = bufferDirty + slot
  dirty_nodup : ∀ map slot, (pool.dirty map slot).Nodup

section

variable {pool : BufferPool α} {pins : Nat → Nat} {id : Nat}

theorem isDirty_iff {buffer : BufferHead α} :
    buffer.isDirty = true ↔ bufferDirty ≤ buffer.state := by
  unfold BufferHead.isDirty
  rw [decide_eq_true_iff]

/-! ## Single buffers -/

/-- One more holder. -/
theorem PoolOk.getBh (h : PoolOk pool pins) (hlive : (pool.buffers id).state ≠ bufferFreed) :
    ∃ pool', pool.getBh id = .ok pool' ∧
      pool' = pool.set id { pool.buffers id with count := (pool.buffers id).count + 1 } ∧
      PoolOk pool' (Function.update pins id (pins id + 1)) := by
  have hcount := h.count id
  have hpos : 1 ≤ (pool.buffers id).count := by
    have hfreed := h.freed_iff id
    omega
  unfold BufferPool.getBh
  simp only [tuxAssert_of hpos, bind, Except.bind]
  refine ⟨_, rfl, rfl, ?_⟩
  obtain ⟨h1, h2, h3, h4, h5, h6, h7, h8, h9, h10⟩ := h
  constructor <;> simp only [BufferPool.set, Function.update_apply] <;>
    grind [BufferHead.ownRefs, BufferHead.isDirty]

/-- The contents and the number of the block are free. -/
theorem PoolOk.setData (h : PoolOk pool pins) (index : Nat) (data : α) :
    PoolOk (pool.set id { pool.buffers id with index := index, data := data }) pins := by
  obtain ⟨h1, h2, h3, h4, h5, h6, h7, h8, h9, h10⟩ := h
  constructor <;> simp only [BufferPool.set, Function.update_apply] <;>
    grind [BufferHead.ownRefs, BufferHead.isDirty]

/-- A buffer is not dirty any more: the reference of a forked one is held by who cleans it. -/
theorem PoolOk.setState (h : PoolOk pool pins) (hlive : (pool.buffers id).state ≠ bufferFreed)
    {state : Nat} (hstate : state = bufferEmpty ∨ state = bufferClean) :
    PoolOk (pool.setState id state) (if (pool.buffers id).isDirty = true ∧
      (pool.buffers id).hashed = false then Function.update pins id (pins id + 1) else pins) := by
  have hne : state ≠ bufferFreed ∧ state < bufferDirty := by
    rcases hstate with rfl | rfl <;> decide
  obtain ⟨h1, h2, h3, h4, h5, h6, h7, h8, h9, h10⟩ := h
  unfold BufferPool.setState
  rw [if_neg hne.1]
  constructor <;> simp only [BufferPool.set, BufferPool.unlink, Function.update_apply] <;>
    grind [BufferHead.ownRefs, BufferHead.isDirty, bufferStates, bufferDirty]

theorem PoolOk.setClean (h : PoolOk pool pins) (hlive : (pool.buffers id).state ≠ bufferFreed)
    (hne : (pool.buffers id).state ≠ bufferClean) :
    ∃ pool', pool.setClean id = .ok pool' ∧ pool'.buffers = Function.update pool.buffers id
        { pool.buffers id with state := bufferClean } ∧ pool'.hash = pool.hash ∧
      PoolOk pool' (if (pool.buffers id).isDirty = true ∧ (pool.buffers id).hashed = false
        then Function.update pins id (pins id + 1) else pins) := by
  unfold BufferPool.setClean
  simp only [tuxAssert_of hne, bind, Except.bind, pure, Except.pure]
  refine ⟨_, rfl, ?_, ?_, h.setState hlive (Or.inr rfl)⟩
  · unfold BufferPool.setState
    rw [if_neg (by decide)]
    rfl
  · unfold BufferPool.setState
    rw [if_neg (by decide)]
    rfl

/-- A buffer on the hash becomes dirty. -/
theorem PoolOk.setDirty (h : PoolOk pool pins) {map delta : Nat}
    (hmap : (pool.buffers id).map = some map) (hhashed : (pool.buffers id).hashed = true)
    (hclean : (pool.buffers id).isDirty = false) :
    PoolOk (pool.setDirty map id delta) pins := by
  have hslot : tux3Delta delta < 2 := Nat.mod_lt _ (by decide)
  obtain ⟨h1, h2, h3, h4, h5, h6, h7, h8, h9, h10⟩ := h
  unfold BufferPool.setDirty
  constructor <;> simp only [BufferPool.set, BufferPool.unlink, Function.update_apply] <;>
    grind [BufferHead.ownRefs, BufferHead.isDirty, bufferStates, bufferDirty, bufferFreed]

/-- What `blockput` leaves of a buffer. -/
def BufferHead.put (buffer : BufferHead α) : BufferHead α :=
  if buffer.count - 1 = 0 then { buffer with count := 0, state := bufferFreed, map := none }
  else { buffer with count := buffer.count - 1 }

theorem BufferHead.put_cases (buffer : BufferHead α) :
    buffer.put = { buffer with count := buffer.count - 1 } ∨ (buffer.count - 1 = 0 ∧
      buffer.put = { buffer with count := 0, state := bufferFreed, map := none }) := by
  unfold BufferHead.put
  split
  · rename_i hzero
    exact Or.inr ⟨hzero, rfl⟩
  · exact Or.inl rfl

/-- One holder less. -/
theorem PoolOk.blockput (h : PoolOk pool pins) (hpin : 0 < pins id) :
    ∃ pool', pool.blockput id = .ok pool' ∧
      pool'.buffers = Function.update pool.buffers id (pool.buffers id).put ∧
      pool'.hash = pool.hash ∧ PoolOk pool' (Function.update pins id (pins id - 1)) := by
  have hcount := h.count id
  have hpos : 0 < (pool.buffers id).count := by omega
  unfold BufferPool.blockput
  simp only [tuxAssert_of hpos, bind, Except.bind]
  by_cases hzero : (pool.buffers id).count - 1 = 0
  · have hown : (pool.buffers id).ownRefs = 0 := by omega
    have hhashed : (pool.buffers id).hashed = false := by
      grind [BufferHead.ownRefs]
    have hclean : (pool.buffers id).isDirty = false := by
      grind [BufferHead.ownRefs]
    have hlru : id ∉ pool.lru := by
      rw [h.mem_lru, hhashed]
      exact Bool.false_ne_true
    have hlru' : id ∉ (pool.set id { pool.buffers id with
      count := (pool.buffers id).count - 1 }).lru := hlru
    rw [if_pos hzero]
    simp only [tuxAssert_of hclean, tuxAssert_of hhashed, tuxAssert_of hlru']
    refine ⟨_, rfl, ?_, rfl, ?_⟩
    · unfold BufferPool.freeBuffer BufferPool.setState BufferHead.put
      rw [if_pos rfl, if_pos hzero]
      simp only [BufferPool.set, BufferPool.unlink, Function.update_self, Function.update_idem,
        hzero]
    · obtain ⟨h1, h2, h3, h4, h5, h6, h7, h8, h9, h10⟩ := h
      unfold BufferPool.freeBuffer BufferPool.setState
      rw [if_pos rfl]
      constructor <;> simp only [BufferPool.set, BufferPool.unlink, Function.update_apply] <;>
        grind [BufferHead.ownRefs, BufferHead.isDirty, bufferStates, bufferDirty, bufferFreed]
  · rw [if_neg hzero]
    refine ⟨_, rfl, ?_, rfl, ?_⟩
    · unfold BufferHead.put
      rw [if_neg hzero]
      rfl
    · obtain ⟨h1, h2, h3, h4, h5, h6, h7, h8, h9, h10⟩ := h
      constructor <;> simp only [BufferPool.set, Function.update_apply] <;>
        grind [BufferHead.ownRefs, BufferHead.isDirty]

/-! ## The hash -/

/-- A dirty buffer taken off the hash is forked; the reference of a clean one is dropped by who
takes it off. -/
theorem PoolOk.unhash (h : PoolOk pool pins) (hhashed : (pool.buffers id).hashed = true) :
    PoolOk ({ pool with
        lru := pool.lru.filter (· ≠ id)
        hash := fun map bucket => (pool.hash map bucket).filter (· ≠ id) }.set id
        { pool.buffers id with hashed := false })
      (if (pool.buffers id).isDirty = true then pins
        else Function.update pins id (pins id + 1)) := by
  obtain ⟨h1, h2, h3, h4, h5, h6, h7, h8, h9, h10⟩ := h
  constructor <;> simp only [BufferPool.set, Function.update_apply] <;>
    grind [BufferHead.ownRefs, BufferHead.isDirty]

theorem PoolOk.removeHash (h : PoolOk pool pins) (hhashed : (pool.buffers id).hashed = true)
    (hpin : (pool.buffers id).isDirty = true → 0 < pins id) :
    ∃ pool', pool.removeHash id = .ok pool' ∧
      pool'.buffers = Function.update pool.buffers id { pool.buffers id with hashed := false }.put ∧
      (∀ map bucket j, j ∈ pool'.hash map bucket ↔ j ∈ pool.hash map bucket ∧ j ≠ id) ∧
      PoolOk pool' (if (pool.buffers id).isDirty = true then Function.update pins id (pins id - 1)
        else pins) := by
  have hun := h.unhash hhashed
  have hpin' : 0 < (if (pool.buffers id).isDirty = true then pins
      else Function.update pins id (pins id + 1)) id := by
    split
    · rename_i hdirty
      exact hpin hdirty
    · rw [Function.update_self]
      omega
  obtain ⟨pool', hput, hbuffers, hhash, hok⟩ := hun.blockput hpin'
  unfold BufferPool.removeHash
  refine ⟨pool', hput, ?_, ?_, ?_⟩
  · rw [hbuffers]
    simp only [BufferPool.set, Function.update_self, Function.update_idem]
  · intro map bucket j
    rw [hhash]
    simp only [BufferPool.set, List.mem_filter, decide_eq_true_eq]
  · revert hok
    split
    · exact fun hok => hok
    · intro hok
      rw [Function.update_self, Nat.add_sub_cancel, Function.update_idem,
        Function.update_eq_self] at hok
      exact hok

theorem PoolOk.insertHash (h : PoolOk pool pins) {map : Nat}
    (hlive : (pool.buffers id).state ≠ bufferFreed) (hmap : (pool.buffers id).map = some map)
    (hhashed : (pool.buffers id).hashed = false) (hclean : (pool.buffers id).isDirty = false)
    (hbucket : bufferHash (pool.buffers id).index < buckets) :
    ∃ pool', pool.insertHash map id = .ok pool' ∧
      pool'.buffers = Function.update pool.buffers id
        { pool.buffers id with hashed := true, count := (pool.buffers id).count + 1 } ∧
      (∀ m bucket j, j ∈ pool'.hash m bucket ↔ j ∈ pool.hash m bucket ∨
        (j = id ∧ m = map ∧ bucket = bufferHash (pool.buffers id).index)) ∧
      PoolOk pool' pins := by
  obtain ⟨pool', hget, rfl, -⟩ := h.getBh hlive
  unfold BufferPool.insertHash bucketOf
  rw [if_pos hbucket]
  simp only [hget, bind, Except.bind, pure, Except.pure]
  refine ⟨_, rfl, ?_, ?_, ?_⟩
  · simp only [BufferPool.set, Function.update_self, Function.update_idem]
  · intro m bucket j
    simp only [BufferPool.set]
    grind
  · obtain ⟨h1, h2, h3, h4, h5, h6, h7, h8, h9, h10⟩ := h
    constructor <;> simp only [BufferPool.set, Function.update_apply] <;>
      grind [BufferHead.ownRefs, BufferHead.isDirty]

/-! ## New buffers -/

/-- Some clean buffers of `pool` that no one held went back to the free list. -/
structure Evicted (pool pool' : BufferPool α) : Prop where
  buffers : ∀ j, pool'.buffers j = pool.buffers j ∨
    ((pool.buffers j).hashed = true ∧ (pool.buffers j).isDirty = false ∧
      (pool.buffers j).count = 1 ∧
      pool'.buffers j = { pool.buffers j with
        hashed := false, count := 0, state := bufferFreed, map := none })
  mem_hash : ∀ map bucket j, j ∈ pool'.hash map bucket ↔
    j ∈ pool.hash map bucket ∧ pool'.buffers j = pool.buffers j

theorem Evicted.refl (pool : BufferPool α) : Evicted pool pool :=
  ⟨fun _ => Or.inl rfl, fun _ _ _ => ⟨fun h => ⟨h, rfl⟩, fun h => h.1⟩⟩

theorem Evicted.trans {pool₁ pool₂ pool₃ : BufferPool α} (h : Evicted pool₁ pool₂)
    (h' : Evicted pool₂ pool₃) : Evicted pool₁ pool₃ := by
  obtain ⟨hbuffers, hmem⟩ := h
  obtain ⟨hbuffers', hmem'⟩ := h'
  constructor
  · intro j
    rcases hbuffers j with heq | ⟨_, _, _, heq⟩
    · rw [← heq]
      exact hbuffers' j
    · rcases hbuffers' j with heq' | ⟨hhashed, -⟩
      · rw [heq']
        exact hbuffers j
      · rw [heq] at hhashed
        exact absurd hhashed Bool.false_ne_true
  · intro map bucket j
    rw [hmem', hmem]
    grind

theorem PoolOk.reclaim (h : PoolOk pool pins) (id : Nat) :
    ∃ pool' reclaimed, pool.reclaim id = .ok (pool', reclaimed) ∧ Evicted pool pool' ∧
      PoolOk pool' pins := by
  unfold BufferPool.reclaim
  dsimp only
  split
  · rename_i hcond
    obtain ⟨hcount, hclean, hhashed⟩ := hcond
    obtain ⟨pool', hremove, hbuffers, hhash, hok⟩ :=
      h.removeHash hhashed fun hdirty => absurd (hclean.symm.trans hdirty) Bool.false_ne_true
    rw [hclean, if_neg Bool.false_ne_true] at hok
    simp only [hremove, bind, Except.bind, pure, Except.pure]
    refine ⟨pool', true, rfl, ⟨?_, ?_⟩, hok⟩
    · intro j
      rw [hbuffers, Function.update_apply]
      grind [BufferHead.put]
    · intro map bucket j
      rw [hhash, hbuffers, Function.update_apply]
      grind [BufferHead.put]
  · exact ⟨pool, false, rfl, Evicted.refl pool, h⟩

theorem PoolOk.evictLoop (h : PoolOk pool pins) (victims : List Nat) (count : Nat) :
    ∃ pool', pool.evictLoop victims count = .ok pool' ∧ Evicted pool pool' ∧
      PoolOk pool' pins := by
  induction victims generalizing pool count with
  | nil => exact ⟨pool, rfl, Evicted.refl pool, h⟩
  | cons victim victims ih =>
      obtain ⟨pool₁, reclaimed, hreclaim, hevicted, hok⟩ := h.reclaim victim
      unfold BufferPool.evictLoop
      simp only [hreclaim, bind, Except.bind]
      split
      · split
        · exact ⟨pool₁, rfl, hevicted, hok⟩
        · obtain ⟨pool₂, hloop, hevicted₂, hok₂⟩ := ih hok (count + 1)
          exact ⟨pool₂, hloop, hevicted.trans hevicted₂, hok₂⟩
      · obtain ⟨pool₂, hloop, hevicted₂, hok₂⟩ := ih hok count
        exact ⟨pool₂, hloop, hevicted.trans hevicted₂, hok₂⟩

/-- A free buffer gets its holder. -/
theorem PoolOk.haveBuffer (h : PoolOk pool pins) (map : Nat)
    (hfreed : (pool.buffers id).state = bufferFreed) (hallocated : id < pool.allocated) :
    ∃ pool', pool.haveBuffer map id = .ok pool' ∧
      pool'.buffers = Function.update pool.buffers id
        { pool.buffers id with map := some map, count := 1, state := bufferEmpty } ∧
      pool'.hash = pool.hash ∧ PoolOk pool' (Function.update pins id (pins id + 1)) := by
  have hcount : (pool.buffers id).count = 0 := (h.freed_iff id).mp hfreed
  unfold BufferPool.haveBuffer BufferPool.setEmpty
  simp only [tuxAssert_of hcount, tuxAssert_of hfreed, bind, Except.bind]
  have hstate : ((pool.set id { pool.buffers id with map := some map, count := 1 }).buffers
      id).state ≠ bufferEmpty := by
    simp only [BufferPool.set, Function.update_self, hfreed]
    decide
  simp only [tuxAssert_of hstate, pure, Except.pure]
  refine ⟨_, rfl, ?_, rfl, ?_⟩
  · unfold BufferPool.setState
    rw [if_neg (by decide)]
    simp only [BufferPool.set, BufferPool.unlink, Function.update_self, Function.update_idem]
  · have hown : (pool.buffers id).ownRefs = 0 ∧ pins id = 0 := by
      have := h.count id
      omega
    obtain ⟨h1, h2, h3, h4, h5, h6, h7, h8, h9, h10⟩ := h
    unfold BufferPool.setState
    rw [if_neg (by decide)]
    constructor <;> simp only [BufferPool.set, BufferPool.unlink, Function.update_apply] <;>
      grind [BufferHead.ownRefs, BufferHead.isDirty, bufferStates, bufferDirty, bufferFreed,
        bufferEmpty]

theorem PoolOk.freed_unhashed (h : PoolOk pool pins)
    (hfreed : (pool.buffers id).state = bufferFreed) : (pool.buffers id).hashed = false := by
  have hcount := h.count id
  rw [(h.freed_iff id).mp hfreed, BufferHead.ownRefs] at hcount
  revert hcount
  cases (pool.buffers id).hashed
  · exact fun _ => rfl
  · rw [if_pos rfl]
    omega

/-- `pool'` has a new empty buffer of `map`, which only its caller holds. -/
def Fresh (pool pool' : BufferPool α) (map id : Nat) : Prop :=
  ∃ pool₁, Evicted pool pool₁ ∧ (pool₁.buffers id).state = bufferFreed ∧
    (pool₁.buffers id).hashed = false ∧ pool'.buffers = Function.update pool₁.buffers id
      { pool₁.buffers id with map := some map, count := 1, state := bufferEmpty } ∧
    pool'.hash = pool₁.hash

/-- What `new_buffer` returns. -/
def NewBufferOk (pool : BufferPool α) (pins : Nat → Nat) (map : Nat)
    (result : Except TuxError (BufferPool α × Option Nat)) : Prop :=
  (∃ pool', result = .ok (pool', none) ∧ Evicted pool pool' ∧ PoolOk pool' pins) ∨
    ∃ pool' id, result = .ok (pool', some id) ∧ Fresh pool pool' map id ∧
      PoolOk pool' (Function.update pins id (pins id + 1))

theorem NewBufferOk.of_evicted {pool₁ : BufferPool α} {map : Nat}
    {result : Except TuxError (BufferPool α × Option Nat)} (hevicted : Evicted pool pool₁)
    (h : NewBufferOk pool₁ pins map result) : NewBufferOk pool pins map result := by
  rcases h with ⟨pool', heq, hevicted', hok⟩ | ⟨pool', id, heq, ⟨pool₂, hevicted', hrest⟩, hok⟩
  · exact Or.inl ⟨pool', heq, hevicted.trans hevicted', hok⟩
  · exact Or.inr ⟨pool', id, heq, ⟨pool₂, hevicted.trans hevicted', hrest⟩, hok⟩

theorem PoolOk.takeFreed (h : PoolOk pool pins) (map : Nat) :
    NewBufferOk pool pins map (pool.takeFreed map) := by
  unfold BufferPool.takeFreed
  split
  · exact Or.inl ⟨pool, rfl, Evicted.refl pool, h⟩
  · rename_i id _ hfreed
    obtain ⟨hallocated, hstate⟩ := h.mem_freed id (by rw [hfreed]; exact List.mem_cons_self)
    obtain ⟨pool', hhave, hbuffers, hhash, hok⟩ := h.haveBuffer map hstate hallocated
    simp only [hhave, bind, Except.bind, pure, Except.pure]
    exact Or.inr ⟨pool', id, rfl, ⟨pool, Evicted.refl pool, hstate, h.freed_unhashed hstate,
      hbuffers, hhash⟩, hok⟩

/-- More memory for buffers. -/
theorem PoolOk.expand (h : PoolOk pool pins) :
    PoolOk { pool with allocated := pool.allocated + 1 } pins := by
  obtain ⟨h1, h2, h3, h4, h5, h6, h7, h8, h9, h10⟩ := h
  exact ⟨h1, h2, h3, h4, fun id hid => h5 id (by dsimp only at hid; omega),
    fun id hid => ⟨Nat.lt_succ_of_lt (h6 id hid).1, (h6 id hid).2⟩, h7, h8, h9, h10⟩

theorem PoolOk.expandPool (h : PoolOk pool pins) (map : Nat) (malloc : Bool) :
    NewBufferOk pool pins map (pool.expandPool map malloc) := by
  unfold BufferPool.expandPool
  split
  · exact Or.inl ⟨pool, rfl, Evicted.refl pool, h⟩
  · have hstate := h.fresh pool.allocated (Nat.le_refl _)
    obtain ⟨pool', hhave, hbuffers, hhash, hok⟩ :=
      h.expand.haveBuffer map hstate (Nat.lt_succ_self _)
    simp only [hhave, bind, Except.bind, pure, Except.pure]
    exact Or.inr ⟨pool', _, rfl, ⟨pool, Evicted.refl pool, hstate, h.freed_unhashed hstate,
      hbuffers, hhash⟩, hok⟩

theorem PoolOk.newBuffer (h : PoolOk pool pins) (map : Nat) (malloc : Bool) :
    NewBufferOk pool pins map (pool.newBuffer map malloc) := by
  unfold BufferPool.newBuffer
  split
  · exact h.takeFreed map
  · split
    · obtain ⟨pool₁, hloop, hevicted, hok⟩ := h.evictLoop pool.lru 0
      simp only [hloop, bind, Except.bind]
      refine NewBufferOk.of_evicted hevicted ?_
      split
      · exact hok.takeFreed map
      · exact hok.expandPool map malloc
    · simp only [pure, bind, Except.bind, Except.pure]
      split
      · exact h.takeFreed map
      · exact h.expandPool map malloc

/-! ## Lookups -/

theorem bucketOf_cases (block : Nat) : bucketOf block = .error .bounds ∨
    (bufferHash block < buckets ∧ bucketOf block = .ok (bufferHash block)) := by
  unfold bucketOf
  split
  · rename_i hlt
    exact Or.inr ⟨hlt, rfl⟩
  · exact Or.inl rfl

theorem find_eq {map block : Nat} (hbucket : bufferHash block < buckets) :
    pool.find map block = .ok ((pool.hash map (bufferHash block)).find? fun id =>
      (pool.buffers id).index = block) := by
  unfold BufferPool.find bucketOf
  rw [if_pos hbucket]
  rfl

theorem find_error {map block : Nat} {error : TuxError}
    (h : pool.find map block = .error error) : error = .bounds := by
  unfold BufferPool.find at h
  rcases bucketOf_cases block with herr | ⟨-, hok⟩
  · rw [herr] at h
    exact (Except.error.inj h).symm
  · rw [hok] at h
    exact nomatch h

theorem find_some {map block : Nat} (h : pool.find map block = .ok (some id)) :
    id ∈ pool.hash map (bufferHash block) ∧ (pool.buffers id).index = block ∧
      bufferHash block < buckets := by
  rcases bucketOf_cases block with herr | ⟨hbucket, -⟩
  · unfold BufferPool.find at h
    rw [herr] at h
    exact nomatch h
  · rw [find_eq hbucket, Except.ok.injEq] at h
    have hindex := List.find?_some h
    exact ⟨List.mem_of_find?_eq_some h, of_decide_eq_true hindex, hbucket⟩

theorem find_none {map block : Nat} (h : pool.find map block = .ok none) :
    (∀ id ∈ pool.hash map (bufferHash block), (pool.buffers id).index ≠ block) ∧
      bufferHash block < buckets := by
  rcases bucketOf_cases block with herr | ⟨hbucket, -⟩
  · unfold BufferPool.find at h
    rw [herr] at h
    exact nomatch h
  · rw [find_eq hbucket, Except.ok.injEq, List.find?_eq_none] at h
    exact ⟨fun id hid heq => h id hid (decide_eq_true heq), hbucket⟩

theorem PoolOk.find_live (h : PoolOk pool pins) {map block : Nat}
    (hfind : pool.find map block = .ok (some id)) :
    (pool.buffers id).hashed = true ∧ (pool.buffers id).map = some map ∧
      (pool.buffers id).state ≠ bufferFreed := by
  obtain ⟨hhashed, hmap⟩ := h.mem_hash _ _ _ (find_some hfind).1
  refine ⟨hhashed, hmap, fun hfreed => ?_⟩
  rw [h.freed_unhashed hfreed] at hhashed
  exact Bool.false_ne_true hhashed

/-- `pool'` has a new buffer of a block on the hash. -/
def NewlyHashed (pool pool' : BufferPool α) (map block id : Nat) : Prop :=
  ∃ pool₁, Fresh pool pool₁ map id ∧ (∃ pins, PoolOk pool₁ pins) ∧
    (pool₁.buffers id).hashed = false ∧ pool'.buffers = Function.update pool₁.buffers id
      { pool₁.buffers id with index := block, hashed := true, count := 2 } ∧
    ∀ m bucket j, j ∈ pool'.hash m bucket ↔ j ∈ pool₁.hash m bucket ∨
      (j = id ∧ m = map ∧ bucket = bufferHash block)

theorem PoolOk.hashFresh {pool₁ : BufferPool α} {map block : Nat} {pins' : Nat → Nat}
    (h : PoolOk pool₁ pins') (hfresh : Fresh pool pool₁ map id)
    (hbucket : bufferHash block < buckets) :
    ∃ pool', (pool₁.set id { pool₁.buffers id with index := block }).insertHash map id = .ok pool' ∧
      NewlyHashed pool pool' map block id ∧ PoolOk pool' pins' := by
  obtain ⟨pool₀, hevicted, hfreed, hunhashed, hbuffers, hhash⟩ := hfresh
  have hid : pool₁.buffers id = { pool₀.buffers id with
      map := some map, count := 1, state := bufferEmpty } := by
    rw [hbuffers, Function.update_self]
  have hhashed : (pool₁.buffers id).hashed = false := by
    rw [hid]
    exact hunhashed
  have hset := @PoolOk.setData _ _ _ id h block (pool₁.buffers id).data
  obtain ⟨pool', hinsert, hbuffers', hhash', hok⟩ := @PoolOk.insertHash _ _ _ id hset map
    (by rw [set_self, hid]; exact Nat.one_ne_zero) (by rw [set_self, hid])
    (by rw [set_self]; exact hhashed)
    (by rw [set_self, hid]; rfl) (by rw [set_self]; exact hbucket)
  refine ⟨pool', hinsert, ⟨pool₁, ⟨pool₀, hevicted, hfreed, hunhashed, hbuffers, hhash⟩, ⟨pins', h⟩,
    hhashed, ?_, ?_⟩, hok⟩
  · rw [hbuffers']
    simp only [BufferPool.set, Function.update_self, Function.update_idem, hid]
  · intro m bucket j
    rw [hhash', set_self]
    exact Iff.rfl

/-- What a lookup returns: no buffer, a buffer that was there, or a new one. -/
inductive Got (pool : BufferPool α) (pins : Nat → Nat) (map block : Nat) :
    Except TuxError (BufferPool α × Option Nat) → Prop where
  | bounds : Got pool pins map block (.error .bounds)
  | none {pool' : BufferPool α} : Evicted pool pool' → PoolOk pool' pins →
      Got pool pins map block (.ok (pool', none))
  | found {pool' : BufferPool α} {id : Nat} : pool.find map block = .ok (some id) →
      pool'.buffers = Function.update pool.buffers id
        { pool.buffers id with count := (pool.buffers id).count + 1 } →
      pool'.hash = pool.hash → PoolOk pool' (Function.update pins id (pins id + 1)) →
      Got pool pins map block (.ok (pool', some id))
  | inserted {pool' : BufferPool α} {id : Nat} : pool.find map block = .ok none →
      NewlyHashed pool pool' map block id → PoolOk pool' (Function.update pins id (pins id + 1)) →
      Got pool pins map block (.ok (pool', some id))

theorem PoolOk.peekblk (h : PoolOk pool pins) (map block : Nat) :
    Got pool pins map block (pool.peekblk map block) := by
  unfold BufferPool.peekblk
  cases hfind : pool.find map block with
  | error error =>
      rw [find_error hfind]
      exact .bounds
  | ok found =>
      cases found with
      | none => exact .none (Evicted.refl pool) h
      | some id =>
          obtain ⟨pool', hget, hset, hok⟩ := h.getBh (h.find_live hfind).2.2
          simp only [hget, bind, Except.bind, pure, Except.pure]
          exact .found hfind (by rw [hset]; rfl) (by rw [hset]; rfl) hok

/-- The order of `lru_buffers` is free. -/
theorem PoolOk.touch (h : PoolOk pool pins) (hhashed : (pool.buffers id).hashed = true) :
    PoolOk { pool with lru := pool.lru.filter (· ≠ id) ++ [id] } pins := by
  obtain ⟨h1, h2, h3, h4, h5, h6, h7, h8, h9, h10⟩ := h
  constructor <;> grind

theorem PoolOk.insertNew (h : PoolOk pool pins) {map block : Nat} (malloc : Bool)
    (hfind : pool.find map block = .ok none) :
    Got pool pins map block (pool.insertNew map block malloc) := by
  unfold BufferPool.insertNew
  rcases h.newBuffer map malloc with ⟨pool', hnew, hevicted, hok⟩ | ⟨pool₁, id, hnew, hfresh, hok⟩
  · rw [hnew]
    exact .none hevicted hok
  · obtain ⟨pool', hinsert, hinserted, hok'⟩ := hok.hashFresh hfresh (find_none hfind).2
    rw [bind_of_ok hnew]
    dsimp only
    rw [bind_of_ok hinsert]
    exact .inserted hfind hinserted hok'

theorem PoolOk.blockget (h : PoolOk pool pins) (map block : Nat) (malloc : Bool) :
    Got pool pins map block (pool.blockget map block malloc) := by
  unfold BufferPool.blockget
  cases hfind : pool.find map block with
  | error error =>
      rw [find_error hfind]
      exact .bounds
  | ok found =>
      cases found with
      | some id =>
          obtain ⟨hhashed, -, hlive⟩ := h.find_live hfind
          obtain ⟨pool', hget, hset, hok⟩ := (h.touch hhashed).getBh hlive
          simp only [hget, bind, Except.bind, pure, Except.pure]
          exact .found hfind (by rw [hset]; rfl) (by rw [hset]; rfl) hok
      | none => exact h.insertNew malloc hfind

/-- What `blockread` returns. -/
inductive Read (pool : BufferPool α) (pins : Nat → Nat) (map block : Nat) (stored : Option α) :
    Except TuxError (BufferPool α × Option Nat) → Prop where
  | bounds : Read pool pins map block stored (.error .bounds)
  | none {pool' : BufferPool α} : Got pool pins map block (.ok (pool', none)) →
      Read pool pins map block stored (.ok (pool', none))
  | cached {pool' : BufferPool α} {id : Nat} : Got pool pins map block (.ok (pool', some id)) →
      (pool'.buffers id).state ≠ bufferEmpty →
      Read pool pins map block stored (.ok (pool', some id))
  | failed {pool₁ pool' : BufferPool α} {id : Nat} :
      Got pool pins map block (.ok (pool₁, some id)) →
      pool'.buffers = Function.update pool₁.buffers id (pool₁.buffers id).put →
      pool'.hash = pool₁.hash → PoolOk pool' pins →
      Read pool pins map block stored (.ok (pool', none))
  | loaded {pool₁ pool' : BufferPool α} {id : Nat} {data : α} :
      Got pool pins map block (.ok (pool₁, some id)) →
      (pool₁.buffers id).state = bufferEmpty → stored = some data →
      pool'.buffers = Function.update pool₁.buffers id
        { pool₁.buffers id with data := data, state := bufferClean } →
      pool'.hash = pool₁.hash → PoolOk pool' (Function.update pins id (pins id + 1)) →
      Read pool pins map block stored (.ok (pool', some id))

theorem Got.poolOk {map block : Nat} {pool' : BufferPool α}
    (h : Got pool pins map block (.ok (pool', some id))) :
    PoolOk pool' (Function.update pins id (pins id + 1)) := by
  cases h with
  | found _ _ _ hok => exact hok
  | inserted _ _ hok => exact hok

theorem PoolOk.blockread (h : PoolOk pool pins) (map block : Nat) (malloc : Bool)
    (stored : Option α) :
    Read pool pins map block stored (pool.blockread map block malloc stored) := by
  have hgot := h.blockget map block malloc
  unfold BufferPool.blockread
  revert hgot
  generalize pool.blockget map block malloc = result
  intro hgot
  cases result with
  | error error =>
      cases hgot
      exact .bounds
  | ok result =>
      obtain ⟨pool₁, buffer⟩ := result
      cases buffer with
      | none => exact .none hgot
      | some id =>
          have hok := hgot.poolOk
          simp only [bind, Except.bind]
          split
          · rename_i hempty
            cases stored with
            | none =>
                have hpin : 0 < Function.update pins id (pins id + 1) id := by
                  rw [Function.update_self]
                  omega
                obtain ⟨pool', hput, hbuffers, hhash, hok'⟩ := hok.blockput hpin
                simp only [hput, pure, Except.pure]
                rw [Function.update_self, Function.update_idem, Nat.add_sub_cancel,
                  Function.update_eq_self] at hok'
                exact .failed hgot hbuffers hhash hok'
            | some data =>
                have hset := @PoolOk.setData _ _ _ id hok (pool₁.buffers id).index data
                obtain ⟨pool', hclean, hbuffers, hhash, hok'⟩ := @PoolOk.setClean _ _ _ id hset
                  (by rw [set_self, hempty]; exact Nat.one_ne_zero)
                  (by rw [set_self, hempty]; exact Nat.succ_ne_self 1 ∘ Eq.symm)
                rw [if_neg] at hok'
                · simp only [hclean, pure, Except.pure]
                  refine .loaded hgot hempty rfl ?_ hhash hok'
                  rw [hbuffers]
                  simp only [BufferPool.set, Function.update_self, Function.update_idem]
                · rw [set_self]
                  intro hforked
                  have hdirty := isDirty_iff.mp hforked.1
                  rw [hempty] at hdirty
                  exact absurd hdirty (by decide)
          · rename_i hempty
            exact .cached hgot hempty

/-! ## Dirty buffers -/

/-- What `blockdirty` returns: no buffer, the same one, or the clone of a buffer that the delta
before has still to write. -/
inductive BlockDirtied (pool : BufferPool α) (pins : Nat → Nat) (map id delta : Nat) :
    Except TuxError (BufferPool α × Option Nat) → Prop where
  | bounds : BlockDirtied pool pins map id delta (.error .bounds)
  | none {pool' : BufferPool α} : Evicted pool pool' → PoolOk pool' pins →
      BlockDirtied pool pins map id delta (.ok (pool', none))
  | same {pool' : BufferPool α} : ((pool.buffers id).isDirty = true →
        (pool.buffers id).state = bufferDirty + tux3Delta delta) →
      pool'.buffers = Function.update pool.buffers id
        { pool.buffers id with state := bufferDirty + tux3Delta delta } →
      pool'.hash = pool.hash → PoolOk pool' pins →
      BlockDirtied pool pins map id delta (.ok (pool', some id))
  | forked {pool₁ pool' : BufferPool α} {clone : Nat} : (pool.buffers id).isDirty = true →
      (pool.buffers id).state ≠ bufferDirty + tux3Delta delta →
      Evicted pool pool₁ → (pool₁.buffers clone).state = bufferFreed →
      (pool₁.buffers clone).hashed = false → clone ≠ id →
      pool₁.buffers id = pool.buffers id →
      bufferHash (pool.buffers id).index < buckets →
      pool'.buffers = Function.update (Function.update pool₁.buffers id
          { pool.buffers id with hashed := false, count := (pool.buffers id).count - 1 }) clone
        ⟨some map, true, 2, bufferDirty + tux3Delta delta, (pool.buffers id).index,
          (pool.buffers id).data⟩ →
      (∀ m bucket j, j ∈ pool'.hash m bucket ↔ (j ∈ pool₁.hash m bucket ∧ j ≠ id) ∨
        (j = clone ∧ m = map ∧ bucket = bufferHash (pool.buffers id).index)) →
      PoolOk pool' (Function.update (Function.update pins id (pins id - 1)) clone
        (pins clone + 1)) →
      BlockDirtied pool pins map id delta (.ok (pool', some clone))

theorem Evicted.dirty {pool₁ : BufferPool α} (h : Evicted pool pool₁)
    (hdirty : (pool.buffers id).isDirty = true) : pool₁.buffers id = pool.buffers id := by
  rcases h.buffers id with heq | ⟨-, hclean, -⟩
  · exact heq
  · rw [hdirty] at hclean
    exact absurd hclean.symm Bool.false_ne_true

/-- The fork, after the clone was allocated. -/
theorem PoolOk.fork {pool₁ pool₂ : BufferPool α} {map clone : Nat} (delta : Nat)
    (h : PoolOk pool₂ (Function.update pins clone (pins clone + 1)))
    (hevicted : Evicted pool pool₁) (hfreed : (pool₁.buffers clone).state = bufferFreed)
    (hunhashed : (pool₁.buffers clone).hashed = false)
    (hbuffers : pool₂.buffers = Function.update pool₁.buffers clone
      { pool₁.buffers clone with map := some map, count := 1, state := bufferEmpty })
    (hhash : pool₂.hash = pool₁.hash) (hpin : 0 < pins id)
    (hdirty : (pool.buffers id).isDirty = true)
    (hne : (pool.buffers id).state ≠ bufferDirty + tux3Delta delta)
    (hhashed : (pool.buffers id).hashed = true) :
    BlockDirtied pool pins map id delta (do
      let pool := pool₂.set clone { pool₂.buffers clone with
        data := (pool₂.buffers id).data, index := (pool₂.buffers id).index }
      let pool ← pool.removeHash id
      let pool ← pool.insertHash map clone
      return (pool.markDirty map clone delta, some clone)) := by
  have hsame := hevicted.dirty hdirty
  have hclone : clone ≠ id := by
    rintro rfl
    rw [hsame] at hfreed
    rw [isDirty_iff, hfreed] at hdirty
    exact absurd hdirty (by decide)
  have hid : pool₂.buffers id = pool.buffers id := by
    rw [hbuffers, Function.update_of_ne hclone.symm, hsame]
  have hset := @PoolOk.setData _ _ _ clone h (pool₂.buffers id).index (pool₂.buffers id).data
  generalize hpool₃ : pool₂.set clone { pool₂.buffers clone with
    index := (pool₂.buffers id).index, data := (pool₂.buffers id).data } = pool₃ at hset
  have hbuffers₃ : pool₃.buffers = Function.update pool₁.buffers clone
      ⟨some map, false, 1, bufferEmpty, (pool.buffers id).index, (pool.buffers id).data⟩ := by
    rw [← hpool₃, hid, BufferPool.set, hbuffers]
    simp only [Function.update_self, Function.update_idem, hunhashed]
  have hid₃ : pool₃.buffers id = pool.buffers id := by
    rw [hbuffers₃, Function.update_of_ne hclone.symm, hsame]
  obtain ⟨pool₄, hremove, hbuffers₄, hhash₄, hok₄⟩ := @PoolOk.removeHash _ _ _ id hset
    (by rw [hid₃]; exact hhashed)
    (fun _ => by rw [Function.update_of_ne hclone.symm]; exact hpin)
  rw [hid₃, if_pos hdirty, Function.update_of_ne hclone.symm,
    Function.update_comm hclone] at hok₄
  have hcount : (pool.buffers id).count - 1 ≠ 0 := by
    have hrefs := h.count id
    rw [hid, Function.update_of_ne hclone.symm, BufferHead.ownRefs, if_pos hhashed] at hrefs
    omega
  have hput : BufferHead.put { pool.buffers id with hashed := false } =
      { pool.buffers id with hashed := false, count := (pool.buffers id).count - 1 } := by
    unfold BufferHead.put
    rw [if_neg hcount]
  rw [hid₃, hput] at hbuffers₄
  have hclone₄ : pool₄.buffers clone =
      ⟨some map, false, 1, bufferEmpty, (pool.buffers id).index, (pool.buffers id).data⟩ := by
    rw [hbuffers₄, Function.update_of_ne hclone, hbuffers₃, Function.update_self]
  dsimp only
  rw [bind_of_ok hremove]
  rcases bucketOf_cases (pool.buffers id).index with herr | ⟨hbucket, -⟩
  · have hinsert : pool₄.insertHash map clone = .error .bounds := by
      unfold BufferPool.insertHash
      rw [hclone₄, herr]
      rfl
    rw [hinsert]
    exact .bounds
  · obtain ⟨pool₅, hinsert, hbuffers₅, hhash₅, hok₅⟩ := @PoolOk.insertHash _ _ _ clone hok₄ map
      (by rw [hclone₄]; exact Nat.one_ne_zero) (by rw [hclone₄]) (by rw [hclone₄])
      (by rw [hclone₄]; rfl) (by rw [hclone₄]; exact hbucket)
    rw [bind_of_ok hinsert]
    rw [hclone₄] at hbuffers₅ hhash₅
    have hclone₅ : pool₅.buffers clone =
        ⟨some map, true, 2, bufferEmpty, (pool.buffers id).index, (pool.buffers id).data⟩ := by
      rw [hbuffers₅, Function.update_self]
    have hclean : (pool₅.buffers clone).isDirty = false := by
      rw [hclone₅]
      rfl
    have hmark : pool₅.markDirty map clone delta = pool₅.setDirty map clone delta := by
      unfold BufferPool.markDirty
      rw [hclean, if_neg Bool.false_ne_true]
    rw [hmark]
    refine .forked hdirty hne hevicted hfreed hunhashed hclone hsame hbucket ?_ ?_
      (hok₅.setDirty (by rw [hclone₅]) (by rw [hclone₅]) hclean)
    · unfold BufferPool.setDirty
      simp only [BufferPool.set, BufferPool.unlink, hclone₅]
      rw [hbuffers₅, Function.update_idem, hbuffers₄, hbuffers₃,
        Function.update_comm hclone.symm, Function.update_idem,
        Function.update_comm hclone]
    · intro m bucket j
      unfold BufferPool.setDirty
      simp only [BufferPool.set, BufferPool.unlink, hhash₅, hhash₄, ← hpool₃, hhash]

theorem PoolOk.blockdirty (h : PoolOk pool pins) {map : Nat} (hpin : 0 < pins id)
    (hhashed : (pool.buffers id).hashed = true) (hmap : (pool.buffers id).map = some map)
    (delta : Nat) (malloc : Bool) :
    BlockDirtied pool pins map id delta (pool.blockdirty id delta malloc) := by
  have hslot : tux3Delta delta < 2 := Nat.mod_lt _ (by decide)
  have hstate := h.state_lt id
  unfold BufferPool.blockdirty
  rw [bind_of_ok (tuxAssert_of hstate), hmap]
  dsimp only
  split
  · rename_i hdirty
    have hge := isDirty_iff.mp hdirty
    split
    · rename_i halready
      have heq : (pool.buffers id).state = bufferDirty + tux3Delta delta := by
        unfold BufferHead.alreadyDirty at halready
        rw [Bool.and_eq_true, beq_iff_eq] at halready
        omega
      refine .same (fun _ => heq) ?_ rfl h
      rw [← heq]
      exact (Function.update_eq_self _ _).symm
    · rename_i halready
      have hne : (pool.buffers id).state ≠ bufferDirty + tux3Delta delta := by
        intro heq
        unfold BufferHead.alreadyDirty at halready
        rw [hdirty, heq, Nat.add_sub_cancel_left, beq_self_eq_true] at halready
        exact halready rfl
      rcases h.newBuffer map malloc with ⟨pool', hnew, hevicted, hok⟩ |
        ⟨pool₂, clone, hnew, ⟨pool₁, hevicted, hfreed, hunhashed, hbuffers, hhash⟩, hok⟩
      · rw [bind_of_ok hnew]
        exact .none hevicted hok
      · rw [bind_of_ok hnew]
        have hsame := hevicted.dirty hdirty
        exact hok.fork delta hevicted hfreed hunhashed hbuffers hhash hpin hdirty hne hhashed
  · rename_i hclean
    rw [Bool.not_eq_true] at hclean
    have hmark : pool.markDirty map id delta = pool.setDirty map id delta := by
      unfold BufferPool.markDirty
      rw [hclean, if_neg Bool.false_ne_true]
    rw [hmark]
    refine .same (fun hdirty => ?_) rfl rfl (h.setDirty hmap hhashed hclean)
    rw [hclean] at hdirty
    exact absurd hdirty Bool.false_ne_true

/-- What the end of the I/O leaves of a buffer. -/
def BufferHead.ended (buffer : BufferHead α) : BufferHead α :=
  if buffer.hashed = true then { buffer with state := bufferClean }
  else BufferHead.put { buffer with state := bufferClean }

/-- A forked buffer is given up by the delta that has written it. -/
theorem PoolOk.endio (h : PoolOk pool pins) (hdirty : (pool.buffers id).isDirty = true) :
    ∃ pool', pool.endio id = .ok pool' ∧
      pool'.buffers = Function.update pool.buffers id (pool.buffers id).ended ∧
      pool'.hash = pool.hash ∧ PoolOk pool' pins := by
  have hge := isDirty_iff.mp hdirty
  have hne : (pool.buffers id).state ≠ bufferClean := by
    intro heq
    rw [heq] at hge
    exact absurd hge (by decide)
  have hlive : (pool.buffers id).state ≠ bufferFreed := by
    intro heq
    rw [heq] at hge
    exact absurd hge (by decide)
  obtain ⟨pool₁, hclean, hbuffers, hhash, hok⟩ := h.setClean hlive hne
  unfold BufferPool.endio BufferHead.ended
  dsimp only
  rw [bind_of_ok hclean]
  cases hhashed : (pool.buffers id).hashed with
  | true =>
      rw [if_neg (by rintro ⟨-, hfalse⟩; exact Bool.false_ne_true (hfalse.symm.trans hhashed))]
        at hok
      rw [if_neg (Bool.false_ne_true ∘ Eq.symm), if_pos rfl]
      refine ⟨pool₁, rfl, ?_, hhash, hok⟩
      rw [hbuffers, ← hhashed]
  | false =>
      rw [if_pos ⟨hdirty, hhashed⟩] at hok
      have hpin : 0 < Function.update pins id (pins id + 1) id := by
        rw [Function.update_self]
        omega
      obtain ⟨pool', hput, hbuffers', hhash', hok'⟩ := hok.blockput hpin
      rw [if_pos rfl, if_neg Bool.false_ne_true]
      refine ⟨pool', hput, ?_, hhash'.trans hhash, ?_⟩
      · rw [hbuffers', hbuffers, Function.update_self, Function.update_idem, ← hhashed]
      · rw [Function.update_self, Function.update_idem, Nat.add_sub_cancel,
          Function.update_eq_self] at hok'
        exact hok'

end

end Tux3
