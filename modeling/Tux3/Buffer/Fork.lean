/-
  Buffer/Fork.lean --- the buffers of one map, between the deltas.

  `MapOk` is what holds of the buffers of a map as long as they were not compressed: a block has
  at most one buffer on the hash and at most one for the delta that ended, the buffer on the hash
  has the newest contents, and the one of the delta that ended has those of its end.
-/
import Tux3.Buffer.Flush
import Tux3.Buffer.Invariant

set_option autoImplicit false

namespace Tux3

open BufferPool

variable {α : Type}

/-- The blocks of one map: those of the volume, the newest contents, those at the end of the delta
before, and the blocks that were outside of `i_size` when they should have been written. -/
structure MapBlocks (α : Type) where
  disk : Nat → α
  newest : Nat → α
  ended : Nat → α
  cut : Nat → Bool

/-- The buffers of `map` in the delta `delta`. -/
structure MapOk (pool : BufferPool α) (map delta : Nat) (blocks : MapBlocks α) : Prop where
  mem_hash : ∀ bucket i, i ∈ pool.hash map bucket ↔ (pool.buffers i).hashed = true ∧
    (pool.buffers i).map = some map ∧ bucket = bufferHash (pool.buffers i).index
  bucket_lt : ∀ i, (pool.buffers i).hashed = true → (pool.buffers i).map = some map →
    bufferHash (pool.buffers i).index < buckets
  unique : ∀ i j, (pool.buffers i).hashed = true → (pool.buffers i).map = some map →
    (pool.buffers j).hashed = true → (pool.buffers j).map = some map →
    (pool.buffers i).index = (pool.buffers j).index → i = j
  current_hashed : ∀ i, (pool.buffers i).map = some map →
    (pool.buffers i).state = bufferDirty + tux3Delta delta → (pool.buffers i).hashed = true
  ready_data : ∀ i, (pool.buffers i).map = some map →
    (pool.buffers i).state = bufferDirty + tux3Delta (succDelta delta) →
    (pool.buffers i).data = blocks.ended (pool.buffers i).index
  ready_unique : ∀ i j, (pool.buffers i).map = some map →
    (pool.buffers i).state = bufferDirty + tux3Delta (succDelta delta) →
    (pool.buffers j).map = some map →
    (pool.buffers j).state = bufferDirty + tux3Delta (succDelta delta) →
    (pool.buffers i).index = (pool.buffers j).index → i = j
  ready_forked : ∀ i, (pool.buffers i).map = some map →
    (pool.buffers i).state = bufferDirty + tux3Delta (succDelta delta) →
    (pool.buffers i).hashed = false → ∃ j, (pool.buffers j).map = some map ∧
      (pool.buffers j).state = bufferDirty + tux3Delta delta ∧
      (pool.buffers j).index = (pool.buffers i).index
  cached : ∀ i, (pool.buffers i).hashed = true → (pool.buffers i).map = some map →
    (pool.buffers i).state ≠ bufferEmpty →
    (pool.buffers i).data = blocks.newest (pool.buffers i).index
  newest_eq : ∀ block, blocks.cut block = false → (∀ i, (pool.buffers i).map = some map →
    (pool.buffers i).state = bufferDirty + tux3Delta delta → (pool.buffers i).index ≠ block) →
    blocks.newest block = blocks.ended block
  disk_eq : ∀ block, blocks.cut block = false → (∀ i, (pool.buffers i).map = some map →
    (pool.buffers i).state = bufferDirty + tux3Delta (succDelta delta) →
    (pool.buffers i).index ≠ block) → blocks.disk block = blocks.ended block

/-- Nothing happened to the cached and dirty buffers of `map`, except that clean ones may have
been taken off the hash. -/
structure Quiet (map : Nat) (pool pool' : BufferPool α) : Prop where
  buffers : ∀ j, ((pool'.buffers j).hashed = (pool.buffers j).hashed ∧
      (pool'.buffers j).map = (pool.buffers j).map ∧
      (pool'.buffers j).state = (pool.buffers j).state ∧
      (pool'.buffers j).index = (pool.buffers j).index ∧
      (pool'.buffers j).data = (pool.buffers j).data) ∨
    (((pool.buffers j).map = some map → (pool.buffers j).isDirty = false) ∧
      ((pool'.buffers j).map = some map →
        (pool'.buffers j).hashed = false ∧ (pool'.buffers j).isDirty = false))
  mem_hash : ∀ bucket j, j ∈ pool'.hash map bucket ↔ j ∈ pool.hash map bucket ∧
    (pool'.buffers j).hashed = true ∧ (pool'.buffers j).map = some map

section

variable {pool pool' : BufferPool α} {pins : Nat → Nat} {map delta id : Nat}
  {blocks : MapBlocks α}

theorem tux3Delta_succDelta (delta : Nat) : tux3Delta (succDelta delta) ≠ tux3Delta delta := by
  unfold tux3Delta succDelta
  omega

theorem tux3Delta_succDelta_succDelta (delta : Nat) :
    tux3Delta (succDelta (succDelta delta)) = tux3Delta delta := by
  unfold tux3Delta succDelta
  omega

theorem MapOk.of_quiet (h : MapOk pool map delta blocks) (hquiet : Quiet map pool pool') :
    MapOk pool' map delta blocks := by
  obtain ⟨h1, h2, h3, h4, h5, h6, h7, h8, h9, h10⟩ := h
  obtain ⟨hb, hm⟩ := hquiet
  constructor <;> grind [BufferHead.isDirty]

/-! ## Other steps -/

theorem buffers_apply {buffer : BufferHead α}
    (h : pool'.buffers = Function.update pool.buffers id buffer) (j : Nat) :
    pool'.buffers j = if j = id then buffer else pool.buffers j := by
  rw [h, Function.update_apply]

theorem Quiet.refl (h : PoolOk pool pins) (map : Nat) : Quiet map pool pool :=
  ⟨fun _ => Or.inl ⟨rfl, rfl, rfl, rfl, rfl⟩,
    fun bucket j => ⟨fun hj => ⟨hj, h.mem_hash map bucket j hj⟩, fun hj => hj.1⟩⟩

theorem Quiet.trans {pool₁ : BufferPool α} (h : Quiet map pool pool₁) (h' : Quiet map pool₁ pool') :
    Quiet map pool pool' := by
  obtain ⟨hb, hm⟩ := h
  obtain ⟨hb', hm'⟩ := h'
  constructor
  · grind [BufferHead.isDirty]
  · grind

theorem Evicted.quiet (h : PoolOk pool pins) (hevicted : Evicted pool pool') (map : Nat) :
    Quiet map pool pool' := by
  obtain ⟨hb, hm⟩ := hevicted
  have hmem := h.mem_hash
  constructor
  · grind [BufferHead.isDirty, bufferDirty, bufferFreed]
  · grind

/-- Another reference. -/
theorem Quiet.count (h : PoolOk pool pins) (map : Nat) {count : Nat}
    (hbuffers : pool'.buffers = Function.update pool.buffers id
      { pool.buffers id with count := count })
    (hhash : pool'.hash = pool.hash) : Quiet map pool pool' := by
  have hmem := h.mem_hash
  have happly := buffers_apply hbuffers
  constructor
  · grind
  · simp only [hhash]
    grind

/-- A reference less. -/
theorem Quiet.put (h : PoolOk pool pins) (map : Nat) (hpin : 0 < pins id)
    (hbuffers : pool'.buffers = Function.update pool.buffers id (pool.buffers id).put)
    (hhash : pool'.hash = pool.hash) : Quiet map pool pool' := by
  have hmem := h.mem_hash
  have hcount := h.count id
  unfold BufferHead.ownRefs at hcount
  have happly := buffers_apply hbuffers
  rcases (pool.buffers id).put_cases with hput | ⟨hzero, hput⟩
  · exact Quiet.count h map (hput ▸ hbuffers) hhash
  · rw [hput] at happly
    constructor
    · grind
    · simp only [hhash]
      grind

/-- What happens to the buffers of another map. -/
theorem Quiet.other {map' : Nat} (h : PoolOk pool pins) (hne : map' ≠ map)
    {buffer : BufferHead α} (hold : (pool.buffers id).map = some map →
      (pool.buffers id).isDirty = false ∧ (pool.buffers id).hashed = false)
    (hnew : buffer.map = some map')
    (hbuffers : pool'.buffers = Function.update pool.buffers id buffer)
    (hhash : ∀ bucket j, j ≠ id → (j ∈ pool'.hash map bucket ↔ j ∈ pool.hash map bucket))
    (hid : ∀ bucket, id ∉ pool'.hash map bucket) : Quiet map pool pool' := by
  have hmem := h.mem_hash
  have happly := buffers_apply hbuffers
  constructor
  · grind
  · grind

/-- A fork of a buffer of another map. -/
theorem Quiet.fork {map' clone : Nat} {old new : BufferHead α} {blocks : MapBlocks α}
    (h : MapOk pool map delta blocks) (hne : map' ≠ map)
    (hmap : (pool.buffers id).map = some map') (hfreed : (pool.buffers clone).state = bufferFreed)
    (hunhashed : (pool.buffers clone).hashed = false) (hold : old.map = some map')
    (hnew : new.map = some map')
    (happly : ∀ j, pool'.buffers j =
      if j = clone then new else if j = id then old else pool.buffers j)
    (hhash : ∀ bucket j, j ∈ pool'.hash map bucket ↔ j ∈ pool.hash map bucket ∧ j ≠ id) :
    Quiet map pool pool' := by
  have hmem := h.mem_hash
  constructor
  · grind [BufferHead.isDirty, bufferDirty, bufferFreed]
  · grind

/-- A free buffer that is not on the hash. -/
theorem Quiet.fresh {map' : Nat} (h : PoolOk pool pins) (hfresh : Fresh pool pool' map' id) :
    Quiet map pool pool' := by
  obtain ⟨pool₁, hevicted, hfreed, hunhashed, hbuffers, hhash⟩ := hfresh
  refine (hevicted.quiet h map).trans ?_
  have hmem := hevicted.mem_hash
  have hmem' := h.mem_hash
  have happly := buffers_apply hbuffers
  constructor
  · grind [BufferHead.isDirty, bufferDirty, bufferFreed, bufferEmpty]
  · simp only [hhash]
    grind

/-! ## Steps of the map -/

theorem MapOk.find_some {block : Nat} (h : MapOk pool map delta blocks)
    (hfind : pool.find map block = .ok (some id)) : (pool.buffers id).hashed = true ∧
      (pool.buffers id).map = some map ∧ (pool.buffers id).index = block := by
  obtain ⟨hmem, hindex, -⟩ := Tux3.find_some hfind
  obtain ⟨hhashed, hmap, -⟩ := (h.mem_hash _ _).mp hmem
  exact ⟨hhashed, hmap, hindex⟩

/-- A block on the hash is found. -/
theorem MapOk.find_eq {block : Nat} (h : MapOk pool map delta blocks)
    (hhashed : (pool.buffers id).hashed = true) (hmap : (pool.buffers id).map = some map)
    (hindex : (pool.buffers id).index = block) : pool.find map block = .ok (some id) := by
  subst hindex
  have hbucket := h.bucket_lt id hhashed hmap
  have hmem := (h.mem_hash _ id).mpr ⟨hhashed, hmap, rfl⟩
  cases hfind : pool.find map (pool.buffers id).index with
  | error error =>
      rw [Tux3.find_eq hbucket] at hfind
      exact nomatch hfind
  | ok found =>
      cases found with
      | none => exact absurd rfl ((find_none hfind).1 id hmem)
      | some j =>
          obtain ⟨hhashed', hmap', hindex'⟩ := h.find_some hfind
          rw [h.unique id j hhashed hmap hhashed' hmap' hindex'.symm]

/-- A new empty buffer on the hash. -/
theorem MapOk.insert (h : MapOk pool map delta blocks) {block : Nat} {buffer : BufferHead α}
    (hempty : (pool.buffers id).state = bufferEmpty) (hunhashed : (pool.buffers id).hashed = false)
    (hnew : ∀ i ∈ pool.hash map (bufferHash block), (pool.buffers i).index ≠ block)
    (hbucket : bufferHash block < buckets)
    (hmap : buffer.map = some map) (hhashed : buffer.hashed = true)
    (hstate : buffer.state = bufferEmpty) (hindex : buffer.index = block)
    (hbuffers : pool'.buffers = Function.update pool.buffers id buffer)
    (hhash : ∀ bucket j, j ∈ pool'.hash map bucket ↔ j ∈ pool.hash map bucket ∨
      (j = id ∧ bucket = bufferHash block)) :
    MapOk pool' map delta blocks := by
  have happly := buffers_apply hbuffers
  obtain ⟨h1, h2, h3, h4, h5, h6, h7, h8, h9, h10⟩ := h
  constructor <;> grind [bufferEmpty, bufferDirty]

theorem MapOk.inserted {map' block : Nat} (h : MapOk pool map delta blocks)
    (hok : PoolOk pool pins) (hfind : pool.find map' block = .ok none)
    (hinserted : NewlyHashed pool pool' map' block id) : MapOk pool' map delta blocks := by
  obtain ⟨pool₁, hfresh, ⟨pins₁, hok₁⟩, hunhashed, hbuffers, hhash⟩ := hinserted
  obtain ⟨hnone, hbucket⟩ := find_none hfind
  have h₁ : MapOk pool₁ map delta blocks := h.of_quiet (Quiet.fresh hok hfresh)
  obtain ⟨pool₀, hevicted, hfreed, -, hbuffers₁, hhash₁⟩ := hfresh
  have hid : pool₁.buffers id = { pool₀.buffers id with
      map := some map', count := 1, state := bufferEmpty } := by
    rw [hbuffers₁, Function.update_self]
  by_cases hne : map' = map
  · subst hne
    have hhash' : ∀ bucket j, j ∈ pool'.hash map' bucket ↔ j ∈ pool₁.hash map' bucket ∨
        (j = id ∧ bucket = bufferHash block) := by
      intro bucket j
      rw [hhash]
      simp only [true_and]
    refine h₁.insert ?_ hunhashed ?_ hbucket ?_ rfl ?_ rfl hbuffers hhash'
    · rw [hid]
    · intro i hi
      have hi' := hi
      rw [hhash₁, hevicted.mem_hash] at hi
      have hne : i ≠ id := by
        rintro rfl
        rw [((h₁.mem_hash _ i).mp hi').1] at hunhashed
        exact Bool.false_ne_true hunhashed.symm
      rw [hbuffers₁, Function.update_of_ne hne, hi.2]
      exact hnone i hi.1
    · rw [hid]
    · rw [hid]
  · refine h₁.of_quiet (Quiet.other hok₁ hne ?_ ?_ hbuffers ?_ ?_)
    · rw [hid]
      exact fun heq => absurd (Option.some.inj heq) hne
    · rw [hid]
    · intro bucket j hj
      rw [hhash]
      exact ⟨fun hor => hor.resolve_right fun hand => hj hand.1, Or.inl⟩
    · intro bucket hmem
      rcases (hhash map bucket id).mp hmem with hmem | ⟨-, heq, -⟩
      · rw [((h₁.mem_hash _ id).mp hmem).1] at hunhashed
        exact Bool.false_ne_true hunhashed.symm
      · exact hne heq.symm

/-- A lookup makes at most a new empty buffer. -/
theorem MapOk.got {map' block : Nat} {buffer : Option Nat} (h : MapOk pool map delta blocks)
    (hok : PoolOk pool pins) (hgot : Got pool pins map' block (.ok (pool', buffer))) :
    MapOk pool' map delta blocks := by
  cases hgot with
  | none hevicted _ => exact h.of_quiet (hevicted.quiet hok map)
  | found _ hbuffers hhash _ => exact h.of_quiet (Quiet.count hok map hbuffers hhash)
  | inserted hfind hinserted _ => exact h.inserted hok hfind hinserted

/-- A block was read into an empty buffer. -/
def MapBlocks.load (blocks : MapBlocks α) (block : Nat) : MapBlocks α :=
  if blocks.cut block = true then
    { blocks with newest := Function.update blocks.newest block (blocks.disk block) }
  else blocks

theorem MapOk.load (h : MapOk pool map delta blocks) {block : Nat} {buffer : BufferHead α}
    (hold : (pool.buffers id).hashed = true ∧ (pool.buffers id).map = some map ∧
      (pool.buffers id).state = bufferEmpty ∧ (pool.buffers id).index = block)
    (hnew : buffer = { pool.buffers id with data := blocks.disk block, state := bufferClean })
    (hbuffers : pool'.buffers = Function.update pool.buffers id buffer)
    (hhash : pool'.hash = pool.hash) : MapOk pool' map delta (blocks.load block) := by
  have happly := buffers_apply hbuffers
  obtain ⟨h1, h2, h3, h4, h5, h6, h7, h8, h9, h10⟩ := h
  unfold MapBlocks.load
  split
  all_goals constructor <;> try simp only [hhash, Function.update_apply]
  all_goals grind [bufferEmpty, bufferDirty, bufferClean]

/-- A buffer is changed that the delta has already. -/
theorem MapOk.modify (h : MapOk pool map delta blocks) {data : α} {buffer : BufferHead α}
    (hhashed : (pool.buffers id).hashed = true) (hmap : (pool.buffers id).map = some map)
    (hdirty : (pool.buffers id).isDirty = true →
      (pool.buffers id).state = bufferDirty + tux3Delta delta)
    (hnew : buffer = { pool.buffers id with
      state := bufferDirty + tux3Delta delta, data := data, count := buffer.count })
    (hbuffers : pool'.buffers = Function.update pool.buffers id buffer)
    (hhash : pool'.hash = pool.hash) : MapOk pool' map delta { blocks with
      newest := Function.update blocks.newest (pool.buffers id).index data } := by
  have happly := buffers_apply hbuffers
  have hslot := tux3Delta_succDelta delta
  obtain ⟨h1, h2, h3, h4, h5, h6, h7, h8, h9, h10⟩ := h
  constructor <;> try simp only [hhash, Function.update_apply]
  all_goals grind [BufferHead.isDirty, bufferEmpty, bufferDirty]

/-- A dirty buffer is of this delta or of the one before. -/
theorem PoolOk.state_ready (h : PoolOk pool pins) (hdirty : (pool.buffers id).isDirty = true)
    (hne : (pool.buffers id).state ≠ bufferDirty + tux3Delta delta) :
    (pool.buffers id).state = bufferDirty + tux3Delta (succDelta delta) := by
  have hlt := h.state_lt id
  have hge := isDirty_iff.mp hdirty
  have hslot := tux3Delta_succDelta delta
  unfold tux3Delta bufferDirty bufferStates at *
  omega

/-- The clone takes the place of a buffer of the delta before. -/
theorem MapOk.fork (h : MapOk pool map delta blocks) {clone : Nat} {old new : BufferHead α}
    (hhashed : (pool.buffers id).hashed = true) (hmap : (pool.buffers id).map = some map)
    (hready : (pool.buffers id).state = bufferDirty + tux3Delta (succDelta delta))
    (hne : clone ≠ id) (hfreed : (pool.buffers clone).state = bufferFreed)
    (hunhashed : (pool.buffers clone).hashed = false)
    (hold : old = { pool.buffers id with hashed := false, count := old.count })
    (hnew : new = ⟨some map, true, new.count, bufferDirty + tux3Delta delta,
      (pool.buffers id).index, (pool.buffers id).data⟩)
    (hbuffers : pool'.buffers = Function.update (Function.update pool.buffers id old) clone new)
    (hhash : ∀ bucket j, j ∈ pool'.hash map bucket ↔ (j ∈ pool.hash map bucket ∧ j ≠ id) ∨
      (j = clone ∧ bucket = bufferHash (pool.buffers id).index)) :
    MapOk pool' map delta blocks := by
  have happly : ∀ j, pool'.buffers j =
      if j = clone then new else if j = id then old else pool.buffers j := by
    intro j
    rw [hbuffers, Function.update_apply, Function.update_apply]
  have hslot := tux3Delta_succDelta delta
  obtain ⟨h1, h2, h3, h4, h5, h6, h7, h8, h9, h10⟩ := h
  constructor <;> grind [bufferEmpty, bufferDirty, bufferFreed]

/-- The next delta begins: all the buffers of the delta before are written. -/
theorem MapOk.deltaChange (h : MapOk pool map delta blocks)
    (hready : ∀ i, (pool.buffers i).map = some map →
      (pool.buffers i).state ≠ bufferDirty + tux3Delta (succDelta delta)) :
    MapOk pool map (succDelta delta) { blocks with ended := blocks.newest } := by
  have hslot := tux3Delta_succDelta_succDelta delta
  obtain ⟨h1, h2, h3, h4, h5, h6, h7, h8, h9, h10⟩ := h
  constructor <;> try simp only [hslot]
  all_goals grind [bufferEmpty, bufferDirty]

end

end Tux3
