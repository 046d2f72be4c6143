/-
  Buffer/Run.lean --- the buffers of a map in any run.

  As long as no flush of the map compresses its buffers, the flush of a delta writes the contents
  that the blocks had at the end of it, whatever the next delta changes meanwhile, and a lookup
  finds the newest contents.
-/
import Mathlib.Tactic.IntervalCases
import Tux3.Buffer.Endio
import Tux3.Lib.System

set_option autoImplicit false

namespace Tux3

open BufferPool Outcome

variable {α : Type}

/-! ## The invariant -/

/-- The blocks of a map. -/
def ForkState.blocks (s : ForkState α) (map : Nat) : MapBlocks α :=
  ⟨s.disk map, s.newest map, s.ended map, s.cut map⟩

/-- The buffers of all maps, and those of `map`. -/
structure ForkOk (s : ForkState α) (map : Nat) : Prop where
  pool : PoolOk s.pool s.pins
  map : MapOk s.pool map (s.delta map) (s.blocks map)

/-- A flush of `map` does not come to `compress_stride`. -/
def ForkEvent.Plain (env : ForkEnv α) (s : ForkState α) (map : Nat) : ForkEvent α → Prop
  | .flush map' iSize => map' = map → env.inum map < tuxNormalIno ∨
      ∀ i ∈ s.ready map, env.outsideBlock iSize ≤ (s.pool.buffers i).index
  | _ => True

section

variable {env : ForkEnv α} {s : ForkState α} {map map' block id : Nat}

/-! ## Lookups -/

theorem Got.ensures {pool : BufferPool α} {pins : Nat → Nat}
    {result : Except TuxError (BufferPool α × Option Nat)} (h : Got pool pins map block result) :
    Ensures (· = TuxError.bounds) result fun r => Got pool pins map block (.ok r) := by
  cases result with
  | ok r => exact h
  | error error =>
      cases h
      exact rfl

theorem ForkOk.got {r : BufferPool α × Option Nat} (h : ForkOk s map)
    (hgot : Got s.pool s.pins map' block (.ok r)) : ForkOk (s.hold r) map := by
  obtain ⟨pool, buffer⟩ := r
  have hmap := h.map.got h.pool hgot
  cases buffer with
  | none =>
      cases hgot with
      | none _ hok => exact ⟨hok, hmap⟩
  | some id => exact ⟨hgot.poolOk, hmap⟩

theorem ForkOk.peek (h : ForkOk s map) :
    Ensures (· = TuxError.bounds) (s.step env (.peek map' block)) (ForkOk · map) :=
  Ensures.bind (h.pool.peekblk map' block).ensures fun _ hgot => h.got hgot

theorem ForkOk.get (h : ForkOk s map) (malloc : Bool) :
    Ensures (· = TuxError.bounds) (s.step env (.get map' block malloc)) (ForkOk · map) :=
  Ensures.bind (h.pool.blockget map' block malloc).ensures fun _ hgot => h.got hgot

/-- `blockread` has to read the block, exactly if it gets an empty buffer. -/
theorem Got.isCached {pool' : BufferPool α}
    (hgot : Got s.pool s.pins map block (.ok (pool', some id))) :
    s.isCached map block = true ↔ (pool'.buffers id).state ≠ bufferEmpty := by
  unfold ForkState.isCached
  cases hgot with
  | found hfind hbuffers _ _ =>
      rw [hfind, hbuffers, Function.update_self]
      unfold BufferPool.isRead
      rw [decide_eq_true_iff]
  | inserted hfind hinserted _ =>
      obtain ⟨pool₁, ⟨pool₀, -, -, -, hbuffers₁, -⟩, -, -, hbuffers, -⟩ := hinserted
      rw [hfind, hbuffers, Function.update_self, hbuffers₁, Function.update_self]
      unfold BufferPool.isRead
      exact ⟨fun hfalse => absurd hfalse Bool.false_ne_true, fun hne => absurd rfl hne⟩

/-- The buffer of a block, after a lookup. -/
theorem Got.buffer {pool' : BufferPool α} (hok : PoolOk s.pool s.pins)
    (hgot : Got s.pool s.pins map block (.ok (pool', some id))) :
    (pool'.buffers id).hashed = true ∧ (pool'.buffers id).map = some map ∧
      (pool'.buffers id).index = block := by
  cases hgot with
  | found hfind hbuffers _ _ =>
      obtain ⟨hhashed, hmap, -⟩ := hok.find_live hfind
      rw [hbuffers, Function.update_self]
      exact ⟨hhashed, hmap, (find_some hfind).2.1⟩
  | inserted hfind hinserted _ =>
      obtain ⟨pool₁, ⟨pool₀, -, -, -, hbuffers₁, -⟩, -, -, hbuffers, -⟩ := hinserted
      rw [hbuffers, Function.update_self, hbuffers₁, Function.update_self]
      exact ⟨rfl, rfl, rfl⟩

theorem ForkState.blocks_loaded (s : ForkState α) (map block : Nat) :
    (s.loaded map block).blocks map = (s.blocks map).load block := by
  unfold ForkState.loaded MapBlocks.load ForkState.blocks
  dsimp only
  split
  · simp only [Function.update_self]
  · rfl

theorem ForkState.blocks_loaded_of_ne (s : ForkState α) (hne : map' ≠ map) (block : Nat) :
    (s.loaded map' block).blocks map = s.blocks map := by
  unfold ForkState.loaded ForkState.blocks
  split
  · simp only [Function.update_of_ne hne.symm]
  · rfl

theorem ForkState.loaded_delta (s : ForkState α) (map block : Nat) :
    (s.loaded map block).delta = s.delta := by
  unfold ForkState.loaded
  split <;> rfl

theorem ForkState.loaded_pins (s : ForkState α) (map block : Nat) :
    (s.loaded map block).pins = s.pins := by
  unfold ForkState.loaded
  split <;> rfl

/-- The invariant after the contents of a block were read. -/
theorem ForkOk.load (h : ForkOk s map) {pool₁ pool' : BufferPool α}
    (hgot : Got s.pool s.pins map' block (.ok (pool₁, some id)))
    (hempty : (pool₁.buffers id).state = bufferEmpty)
    (hbuffers : pool'.buffers = Function.update pool₁.buffers id
      { pool₁.buffers id with data := s.disk map' block, state := bufferClean })
    (hhash : pool'.hash = pool₁.hash)
    (hok : PoolOk pool' (Function.update s.pins id (s.pins id + 1))) :
    ForkOk ((s.loaded map' block).hold (pool', some id)) map := by
  obtain ⟨hhashed, hmap, hindex⟩ := hgot.buffer h.pool
  have h₁ := h.map.got h.pool hgot
  constructor
  · unfold ForkState.hold
    dsimp only
    rw [ForkState.loaded_pins]
    exact hok
  · unfold ForkState.hold
    dsimp only
    rw [ForkState.loaded_delta]
    by_cases hne : map' = map
    · subst hne
      have hload := h₁.load ⟨hhashed, hmap, hempty, hindex⟩ rfl hbuffers hhash
      rw [← ForkState.blocks_loaded] at hload
      exact hload
    · have hblocks := s.blocks_loaded_of_ne hne block
      have hquiet : Quiet map pool₁ pool' := by
        refine Quiet.other hgot.poolOk hne ?_ ?_ hbuffers ?_ ?_
        · rw [hmap]
          exact fun heq => absurd (Option.some.inj heq) hne
        · exact hmap
        · intro bucket j _
          rw [hhash]
        · intro bucket hmem
          rw [hhash] at hmem
          have hmap' := (hgot.poolOk.mem_hash _ _ _ hmem).2
          rw [hmap] at hmap'
          exact hne (Option.some.inj hmap')
      have hload := h₁.of_quiet hquiet
      rw [← hblocks] at hload
      exact hload

theorem ForkOk.read (h : ForkOk s map) (malloc readable : Bool) :
    Ensures (· = TuxError.bounds) (s.step env (.read map' block malloc readable))
      (ForkOk · map) := by
  have hread := h.pool.blockread map' block malloc
    (if readable = true then some (s.disk map' block) else none)
  unfold ForkState.step ForkState.read
  dsimp only
  revert hread
  generalize s.pool.blockread map' block malloc _ = result
  intro hread
  cases result with
  | error error =>
      cases hread
      exact rfl
  | ok result =>
      obtain ⟨pool', buffer⟩ := result
      cases buffer with
      | none =>
          cases hread with
          | none hgot => exact h.got hgot
          | failed hgot hbuffers hhash hok =>
              refine ⟨hok, (h.map.got h.pool hgot).of_quiet ?_⟩
              refine Quiet.put hgot.poolOk map ?_ hbuffers hhash
              rw [Function.update_self]
              exact Nat.succ_pos _
      | some id =>
          cases hread with
          | cached hgot hread =>
              have hcached := hgot.isCached.mpr hread
              show ForkOk (ForkState.hold (if s.isCached map' block = true then s
                else s.loaded map' block) (pool', some id)) map
              rw [if_pos hcached]
              exact h.got hgot
          | loaded hgot hempty hstored hbuffers hhash hok =>
              rename_i pool₁ data
              have hcached : ¬ s.isCached map' block = true := by
                rw [hgot.isCached]
                exact fun hne => hne hempty
              show ForkOk (ForkState.hold (if s.isCached map' block = true then s
                else s.loaded map' block) (pool', some id)) map
              rw [if_neg hcached]
              have hdata : s.disk map' block = data := by
                cases readable with
                | false => exact nomatch hstored
                | true => exact Option.some.inj hstored
              rw [← hdata] at hbuffers
              exact h.load hgot hempty hbuffers hhash hok

/-! ## Changes -/

theorem ForkOk.put (h : ForkOk s map) (hpin : 0 < s.pins id) :
    Ensures (· = TuxError.bounds) (s.step env (.put id)) (ForkOk · map) := by
  obtain ⟨pool', hput, hbuffers, hhash, hok⟩ := h.pool.blockput hpin
  unfold ForkState.step
  dsimp only
  rw [bind_of_ok hput]
  exact ⟨hok, h.map.of_quiet (Quiet.put h.pool map hpin hbuffers hhash)⟩

/-- The state after a change of a buffer that `blockdirty` returned. -/
def ForkState.changed (s : ForkState α) (map id clone : Nat) (pool : BufferPool α)
    (data : α) : ForkState α :=
  { s with
    pool := pool.set clone { pool.buffers clone with data := data }
    pins := Function.update (Function.update s.pins id (s.pins id - 1)) clone
      (Function.update s.pins id (s.pins id - 1) clone + 1)
    newest := Function.update s.newest map
      (Function.update (s.newest map) (pool.buffers clone).index data) }

theorem ForkState.modify_of_some {pool : BufferPool α} {clone : Nat} {malloc : Bool}
    {change : α → α}
    (h : s.pool.blockdirty id (s.delta map) malloc = .ok (pool, some clone)) :
    s.modify map id malloc change =
      .ok (s.changed map id clone pool (change (pool.buffers clone).data)) := by
  unfold ForkState.modify ForkState.changed
  rw [bind_of_ok h]
  rfl

theorem ForkState.changed_blocks (s : ForkState α) (map id clone : Nat) (pool : BufferPool α)
    (data : α) : (s.changed map id clone pool data).blocks map = { s.blocks map with
      newest := Function.update (s.newest map) (pool.buffers clone).index data } := by
  unfold ForkState.blocks ForkState.changed
  simp only [Function.update_self]

theorem ForkState.changed_blocks_of_ne (s : ForkState α) (hne : map' ≠ map) (id clone : Nat)
    (pool : BufferPool α) (data : α) :
    (s.changed map' id clone pool data).blocks map = s.blocks map := by
  unfold ForkState.blocks ForkState.changed
  simp only [Function.update_of_ne hne.symm]

/-- A change without a fork. -/
theorem ForkOk.modify_same (h : ForkOk s map) {pool' : BufferPool α} (data : α)
    (hpin : 0 < s.pins id) (hhashed : (s.pool.buffers id).hashed = true)
    (hmap : (s.pool.buffers id).map = some map')
    (hdirty : (s.pool.buffers id).isDirty = true →
      (s.pool.buffers id).state = bufferDirty + tux3Delta (s.delta map'))
    (hbuffers : pool'.buffers = Function.update s.pool.buffers id
      { s.pool.buffers id with state := bufferDirty + tux3Delta (s.delta map') })
    (hhash : pool'.hash = s.pool.hash) (hok : PoolOk pool' s.pins) :
    ForkOk (s.changed map' id id pool' data) map := by
  have hbuffers' : (pool'.set id { pool'.buffers id with data := data }).buffers =
      Function.update s.pool.buffers id { s.pool.buffers id with
        state := bufferDirty + tux3Delta (s.delta map'), data := data } := by
    rw [BufferPool.set, hbuffers]
    simp only [Function.update_self, Function.update_idem]
  have hindex : (pool'.buffers id).index = (s.pool.buffers id).index := by
    rw [hbuffers, Function.update_self]
  constructor
  · have hpins : Function.update (Function.update s.pins id (s.pins id - 1)) id
        (Function.update s.pins id (s.pins id - 1) id + 1) = s.pins := by
      rw [Function.update_self, Function.update_idem, Nat.sub_add_cancel hpin,
        Function.update_eq_self]
    show PoolOk _ (Function.update (Function.update s.pins id (s.pins id - 1)) id _)
    rw [hpins]
    exact @PoolOk.setData _ _ _ id hok (pool'.buffers id).index data
  · by_cases hne : map' = map
    · subst hne
      rw [s.changed_blocks map' id id pool' data, hindex]
      exact h.map.modify hhashed hmap hdirty rfl hbuffers' hhash
    · rw [s.changed_blocks_of_ne hne]
      have hnew : BufferHead.map { s.pool.buffers id with
          state := bufferDirty + tux3Delta (s.delta map'), data := data } = some map' := hmap
      refine h.map.of_quiet (Quiet.other h.pool hne ?_ hnew hbuffers' ?_ ?_)
      · rw [hmap]
        exact fun heq => absurd (Option.some.inj heq) hne
      · intro bucket j _
        show j ∈ pool'.hash map bucket ↔ _
        rw [hhash]
      · intro bucket hmem
        have hmem' : id ∈ s.pool.hash map bucket := hhash ▸ hmem
        have hmap' := (h.pool.mem_hash _ _ _ hmem').2
        rw [hmap] at hmap'
        exact hne (Option.some.inj hmap')

/-- A change of a clone. -/
theorem ForkOk.modify_forked (h : ForkOk s map) {pool₁ pool' : BufferPool α} {clone : Nat}
    (data : α)
    (hhashed : (s.pool.buffers id).hashed = true) (hmap : (s.pool.buffers id).map = some map')
    (hdirty : (s.pool.buffers id).isDirty = true)
    (hstate : (s.pool.buffers id).state ≠ bufferDirty + tux3Delta (s.delta map'))
    (hevicted : Evicted s.pool pool₁) (hfreed : (pool₁.buffers clone).state = bufferFreed)
    (hunhashed : (pool₁.buffers clone).hashed = false)
    (hclone : clone ≠ id) (hsame : pool₁.buffers id = s.pool.buffers id)
    (hbuffers : pool'.buffers = Function.update (Function.update pool₁.buffers id
        { s.pool.buffers id with hashed := false, count := (s.pool.buffers id).count - 1 }) clone
      ⟨some map', true, 2, bufferDirty + tux3Delta (s.delta map'), (s.pool.buffers id).index,
        (s.pool.buffers id).data⟩)
    (hhash : ∀ m bucket j, j ∈ pool'.hash m bucket ↔ (j ∈ pool₁.hash m bucket ∧ j ≠ id) ∨
      (j = clone ∧ m = map' ∧ bucket = bufferHash (s.pool.buffers id).index))
    (hok : PoolOk pool' (Function.update (Function.update s.pins id (s.pins id - 1)) clone
      (s.pins clone + 1))) :
    ForkOk (s.changed map' id clone pool' data) map := by
  have h₁ := h.map.of_quiet (hevicted.quiet h.pool map)
  have hnew : pool'.buffers clone = ⟨some map', true, 2, bufferDirty + tux3Delta (s.delta map'),
      (s.pool.buffers id).index, (s.pool.buffers id).data⟩ := by
    rw [hbuffers, Function.update_self]
  constructor
  · show PoolOk _ (Function.update (Function.update s.pins id (s.pins id - 1)) clone _)
    rw [Function.update_of_ne hclone]
    exact @PoolOk.setData _ _ _ clone hok (pool'.buffers clone).index data
  · by_cases hne : map' = map
    · subst hne
      rw [s.changed_blocks map' id clone pool' data]
      have hready := h.pool.state_ready hdirty hstate
      have hfork : MapOk pool' map' (s.delta map') (s.blocks map') := by
        rw [← hsame] at hhashed hmap hready hbuffers
        refine h₁.fork hhashed hmap hready hclone hfreed hunhashed rfl rfl hbuffers ?_
        intro bucket j
        rw [hhash, hsame]
        simp only [true_and]
      refine hfork.modify ?_ ?_ ?_ ?_ rfl rfl
      · rw [hnew]
      · rw [hnew]
      · exact fun _ => by rw [hnew]
      · rw [hnew]
    · rw [s.changed_blocks_of_ne hne]
      have happly : ∀ j, (pool'.set clone { pool'.buffers clone with data := data }).buffers j =
          if j = clone then { pool'.buffers clone with data := data }
          else if j = id then { s.pool.buffers id with
            hashed := false, count := (s.pool.buffers id).count - 1 }
          else pool₁.buffers j := by
        intro j
        rw [BufferPool.set]
        dsimp only
        rw [Function.update_apply]
        split
        · rfl
        · rename_i hj
          rw [hbuffers, Function.update_of_ne hj, Function.update_apply]
      have hhash' : ∀ bucket j, j ∈ (pool'.set clone
          { pool'.buffers clone with data := data }).hash map bucket ↔
          j ∈ pool₁.hash map bucket ∧ j ≠ id := by
        intro bucket j
        show j ∈ pool'.hash map bucket ↔ _
        rw [hhash]
        exact ⟨fun hor => hor.resolve_right fun hand => hne hand.2.1.symm, Or.inl⟩
      rw [← hsame] at hmap
      refine h₁.of_quiet (Quiet.fork h₁ hne hmap hfreed hunhashed ?_ ?_ happly hhash')
      · rw [← hsame]
        exact hmap
      · rw [hnew]

theorem ForkOk.modify (h : ForkOk s map) (malloc : Bool) (change : α → α)
    (hallowed : s.Allowed (.modify map' id malloc change)) :
    Ensures (· = TuxError.bounds) (s.step env (.modify map' id malloc change)) (ForkOk · map) := by
  obtain ⟨hpin, hhashed, hmap⟩ := hallowed
  have hdirtied := h.pool.blockdirty hpin hhashed hmap (s.delta map') malloc
  unfold ForkState.step
  dsimp only
  generalize hresult : s.pool.blockdirty id (s.delta map') malloc = result at hdirtied
  cases hdirtied with
  | bounds =>
      unfold ForkState.modify
      rw [hresult]
      exact rfl
  | none hevicted hok =>
      unfold ForkState.modify
      rw [hresult]
      exact ⟨hok, h.map.of_quiet (hevicted.quiet h.pool map)⟩
  | same hdirty hbuffers hhash hok =>
      rw [ForkState.modify_of_some hresult]
      exact h.modify_same _ hpin hhashed hmap hdirty hbuffers hhash hok
  | forked hdirty hne hevicted hfreed hunhashed hclone hsame _ hbuffers hhash hok =>
      rw [ForkState.modify_of_some hresult]
      exact h.modify_forked _ hhashed hmap hdirty hne hevicted hfreed hunhashed hclone hsame
        hbuffers hhash hok

/-! ## Deltas -/

theorem ForkOk.mem_ready (h : ForkOk s map) (map' i : Nat) : i ∈ s.ready map' ↔
    (s.pool.buffers i).map = some map' ∧
      (s.pool.buffers i).state = bufferDirty + tux3Delta (succDelta (s.delta map')) :=
  h.pool.mem_dirty _ _ _

theorem ForkOk.deltaChange (h : ForkOk s map) (hallowed : s.Allowed (.deltaChange map')) :
    Ensures (· = TuxError.bounds) (s.step env (.deltaChange map')) (ForkOk · map) := by
  refine ⟨h.pool, ?_⟩
  by_cases hne : map' = map
  · subst hne
    have hnext := h.map.deltaChange fun i hmap hstate => by
      have hi := (h.mem_ready map' i).mpr ⟨hmap, hstate⟩
      rw [show s.ready map' = [] from hallowed] at hi
      exact List.not_mem_nil hi
    unfold ForkState.blocks at hnext ⊢
    simp only [Function.update_self]
    exact hnext
  · have hmap := h.map
    unfold ForkState.blocks at hmap ⊢
    simp only [Function.update_of_ne (Ne.symm hne)]
    exact hmap

/-! ## Flushes -/

/-- The state after a flush. -/
def ForkState.flushed (s : ForkState α) (map outside : Nat) (pool : BufferPool α)
    (disk : Nat → α) : ForkState α :=
  { s with
    pool := pool
    disk := Function.update s.disk map disk
    cut := Function.update s.cut map fun block =>
      if (s.ready map).any fun id => (s.pool.buffers id).index = block then outside ≤ block
      else s.cut map block }

theorem ForkState.flush_of_ok {iSize : Nat} {pool : BufferPool α} {disk : Nat → α}
    (h : BufferPool.flushList env.lzo (tuxNormalIno ≤ env.inum map) (env.outsideBlock iSize) s.pool
      (s.disk map) (s.ready map) = .ok (pool, disk)) :
    s.flush env map iSize = .ok (s.flushed map (env.outsideBlock iSize) pool disk) := by
  unfold ForkState.flush ForkState.flushed
  dsimp only
  rw [bind_of_ok h]
  rfl

theorem sorted_perm (pool : BufferPool α) (ids : List Nat) : (pool.sorted ids).Perm ids :=
  List.perm_insertionSort _ _

theorem sorted_pairwise (pool : BufferPool α) (ids : List Nat) :
    (pool.sorted ids).Pairwise fun i j => (pool.buffers i).index ≤ (pool.buffers j).index := by
  have htotal : Std.Total fun i j => (pool.buffers i).index ≤ (pool.buffers j).index :=
    ⟨fun i j => Nat.le_total _ _⟩
  have htrans : IsTrans Nat fun i j => (pool.buffers i).index ≤ (pool.buffers j).index :=
    ⟨fun _ _ _ => Nat.le_trans⟩
  exact List.pairwise_insertionSort _ ids

/-- Where all the buffers are outside of `i_size`, none is compressed. -/
theorem flushLoop_outside (lzo : List α → List α × α) {outside : Nat} (fuel : Nat)
    (pool : BufferPool α) (disk : Nat → α) {head : List Nat}
    (hout : ∀ i ∈ head, outside ≤ (pool.buffers i).index) (compress : Bool) :
    flushLoop lzo compress outside fuel pool disk 0 head =
      flushLoop lzo false outside fuel pool disk 0 head := by
  cases head with
  | nil => cases fuel <;> rfl
  | cons id ids =>
      cases fuel with
      | zero => rfl
      | succ fuel =>
          unfold flushLoop contigCollect
          dsimp only
          rw [if_pos (hout id List.mem_cons_self)]
          rfl

/-- A flush of the map that does not compress its buffers. -/
theorem ForkOk.flushList_plain (h : ForkOk s map) {iSize : Nat}
    (hplain : ForkEvent.Plain env s map (.flush map iSize)) :
    ∃ pool', BufferPool.flushList env.lzo (tuxNormalIno ≤ env.inum map)
        (env.outsideBlock iSize) s.pool (s.disk map) (s.ready map) = .ok (pool', s.pool.writeBlocks (s.disk map)
          (insideBlocks s.pool (env.outsideBlock iSize) (s.pool.sorted (s.ready map)))) ∧
      Flushed s.pool pool' (s.ready map) ∧ PoolOk pool' s.pins := by
  have hperm := sorted_perm s.pool (s.ready map)
  have hdirty : ∀ i ∈ s.pool.sorted (s.ready map), (s.pool.buffers i).isDirty = true := by
    intro i hi
    have hstate := ((h.mem_ready map i).mp (hperm.mem_iff.mp hi)).2
    rw [isDirty_iff, hstate]
    exact Nat.le_add_right _ _
  have hnodup := hperm.nodup_iff.mpr (h.pool.dirty_nodup map _)
  obtain ⟨pool', hloop, hflushed, hok⟩ := flushLoop_plain env.lzo (env.outsideBlock iSize)
    (s.ready map).length s.pool (s.disk map) 0 _ h.pool hdirty hnodup
    (sorted_pairwise s.pool (s.ready map)) (Nat.le_of_eq hperm.length_eq)
  refine ⟨pool', ?_, hflushed.of_perm hperm, hok⟩
  unfold BufferPool.flushList
  rw [← hloop]
  rcases hplain rfl with hinum | hout
  · rw [decide_eq_false (Nat.not_le.mpr hinum)]
  · exact flushLoop_outside _ _ _ _ (fun i hi => hout i (hperm.mem_iff.mp hi)) _

theorem ForkState.flushed_cut (s : ForkState α) (outside : Nat) (pool : BufferPool α)
    (disk : Nat → α) : (s.flushed map outside pool disk).cut map block =
      if ∃ i ∈ s.ready map, (s.pool.buffers i).index = block then decide (outside ≤ block)
      else s.cut map block := by
  unfold ForkState.flushed
  simp only [Function.update_self, List.any_eq_true, decide_eq_true_eq]

/-- The blocks of the flush: what is inside of `i_size` is written. -/
theorem ForkOk.written (h : ForkOk s map) {outside i : Nat} (hi : i ∈ s.ready map)
    (hin : (s.pool.buffers i).index < outside) :
    s.pool.writeBlocks (s.disk map) (insideBlocks s.pool outside (s.pool.sorted (s.ready map)))
      (s.pool.buffers i).index = (s.pool.buffers i).data := by
  have hperm := sorted_perm s.pool (s.ready map)
  refine writeBlocks_self _ ?_ ?_
  · exact List.mem_filter.mpr ⟨hperm.mem_iff.mpr hi, decide_eq_true hin⟩
  · intro j hj hindex
    have hj' := hperm.mem_iff.mp (List.mem_filter.mp hj).1
    obtain ⟨hmap, hstate⟩ := (h.mem_ready map i).mp hi
    obtain ⟨hmap', hstate'⟩ := (h.mem_ready map j).mp hj'
    exact h.map.ready_unique j i hmap' hstate' hmap hstate hindex

theorem ForkState.notWritten (s : ForkState α) {outside : Nat}
    (hne : ∀ i ∈ s.ready map, (s.pool.buffers i).index < outside →
      (s.pool.buffers i).index ≠ block) :
    s.pool.writeBlocks (s.disk map) (insideBlocks s.pool outside (s.pool.sorted (s.ready map)))
      block = s.disk map block := by
  have hperm := sorted_perm s.pool (s.ready map)
  refine writeBlocks_other _ fun i hi => ?_
  obtain ⟨hi, hin⟩ := List.mem_filter.mp hi
  exact hne i (hperm.mem_iff.mp hi) (of_decide_eq_true hin)

theorem ForkOk.flushed (h : ForkOk s map) {outside : Nat} {pool' : BufferPool α} {disk : Nat → α}
    (hok : PoolOk pool' s.pins) (hflushed : Flushed s.pool pool' (s.ready map))
    (hin : ∀ i ∈ s.ready map, (s.pool.buffers i).index < outside →
      disk (s.pool.buffers i).index = (s.pool.buffers i).data)
    (hout : ∀ block, (∀ i ∈ s.ready map, (s.pool.buffers i).index ≠ block) →
      disk block = s.disk map block) : ForkOk (s.flushed map outside pool' disk) map := by
  have hdisk : (s.flushed map outside pool' disk).disk map = disk := Function.update_self ..
  refine ⟨hok, h.map.flush (h.mem_ready map) hflushed rfl rfl ?_ ?_⟩
  · intro i hi hcut
    refine (congrFun hdisk _).trans (hin i hi ?_)
    have hcut' := (s.flushed_cut outside pool' disk).symm.trans hcut
    rw [if_pos ⟨i, hi, rfl⟩, decide_eq_false_iff_not] at hcut'
    exact Nat.not_le.mp hcut'
  · intro block hne
    refine ⟨(congrFun hdisk _).trans (hout block hne), ?_⟩
    refine (s.flushed_cut outside pool' disk).trans (if_neg ?_)
    rintro ⟨i, hi, heq⟩
    exact hne i hi heq

theorem ForkOk.flush_plain (h : ForkOk s map) {iSize : Nat}
    (hplain : ForkEvent.Plain env s map (.flush map iSize)) :
    Ensures (· = TuxError.bounds) (s.step env (.flush map iSize)) (ForkOk · map) := by
  obtain ⟨pool', hlist, hflushed, hok⟩ := h.flushList_plain hplain
  unfold ForkState.step
  dsimp only
  rw [ForkState.flush_of_ok hlist]
  exact h.flushed hok hflushed (fun i hi hin => h.written hi hin)
    fun block hne => s.notWritten fun i hi _ => hne i hi

/-- A flush of another map. -/
theorem ForkOk.flush_other (h : ForkOk s map) (hne : map' ≠ map) (iSize : Nat) :
    Ensures (· = TuxError.bounds) (s.step env (.flush map' iSize)) (ForkOk · map) := by
  have hperm := sorted_perm s.pool (s.ready map')
  have hdirty : ∀ i ∈ s.pool.sorted (s.ready map'), (s.pool.buffers i).isDirty = true := by
    intro i hi
    have hstate := ((h.mem_ready map' i).mp (hperm.mem_iff.mp hi)).2
    rw [isDirty_iff, hstate]
    exact Nat.le_add_right _ _
  have hnodup := hperm.nodup_iff.mpr (h.pool.dirty_nodup map' _)
  have hlist : Ensures (· = TuxError.bounds) (BufferPool.flushList env.lzo
      (tuxNormalIno ≤ env.inum map') (env.outsideBlock iSize) s.pool (s.disk map') (s.ready map')) fun result =>
      Ended s.pool result.1 (s.ready map') ∧ PoolOk result.1 s.pins := by
    unfold BufferPool.flushList
    cases decide (tuxNormalIno ≤ env.inum map') with
    | true =>
        refine Ensures.mono (flushLoop_ends env.lzo _ _ _ _ _ _ h.pool hdirty hnodup
          (Nat.le_of_eq hperm.length_eq)) fun result hresult => ?_
        exact ⟨hresult.1.of_perm hperm, hresult.2⟩
    | false =>
        obtain ⟨pool', hloop, hflushed, hok⟩ := flushLoop_plain env.lzo (env.outsideBlock iSize)
          (s.ready map').length s.pool (s.disk map') 0 _ h.pool hdirty hnodup
          (sorted_pairwise s.pool (s.ready map')) (Nat.le_of_eq hperm.length_eq)
        rw [hloop]
        exact ⟨hflushed.ended.of_perm hperm, hok⟩
  unfold ForkState.step ForkState.flush
  dsimp only
  refine Ensures.bind hlist ?_
  rintro ⟨pool', disk⟩ ⟨hended, hok⟩
  dsimp only at hended hok
  refine ⟨hok, ?_⟩
  have hquiet : Quiet map s.pool pool' := by
    have hmem := h.pool.mem_hash
    have hready := h.mem_ready map'
    obtain ⟨h1, h2, h3, h4⟩ := hended
    constructor
    · grind
    · simp only [h4]
      grind
  have hmap := h.map.of_quiet hquiet
  unfold ForkState.blocks at hmap ⊢
  simp only [Function.update_of_ne hne.symm]
  exact hmap

/-! ## Runs -/

theorem ForkOk.step (h : ForkOk s map) {event : ForkEvent α} (hallowed : s.Allowed event)
    (hplain : event.Plain env s map) :
    Ensures (· = TuxError.bounds) (s.step env event) (ForkOk · map) := by
  cases event with
  | peek map' block => exact h.peek
  | get map' block malloc => exact h.get malloc
  | read map' block malloc readable => exact h.read malloc readable
  | put id => exact h.put hallowed
  | modify map' id malloc change => exact h.modify malloc change hallowed
  | deltaChange map' => exact h.deltaChange hallowed
  | flush map' iSize =>
      by_cases hne : map' = map
      · subst hne
        exact h.flush_plain hplain
      · exact h.flush_other hne iSize

end

/-- The buffers after `init_buffers`: all are free. -/
def initBuffers (poolsize maxEvict : Nat) (data : α) : BufferPool α where
  buffers := fun _ => ⟨none, false, 0, bufferFreed, 0, data⟩
  allocated := poolsize
  freed := List.range poolsize
  lru := []
  bufferCount := 0
  maxBuffers := poolsize
  maxEvict := maxEvict
  hash := fun _ _ => []
  dirty := fun _ _ => []

/-- A run begins with any contents of the volume and no buffer. -/
def initState (poolsize maxEvict : Nat) (data : α) (delta : Nat → Nat) (disk : Nat → Nat → α) :
    ForkState α where
  pool := initBuffers poolsize maxEvict data
  delta := delta
  disk := disk
  pins := fun _ => 0
  newest := disk
  ended := disk
  cut := fun _ _ => false

/-- The runs in which the buffers of `map` are not compressed. -/
def forkSystem (env : ForkEnv α) (map : Nat) : System (ForkState α) where
  init s := ∃ poolsize maxEvict data delta disk,
    s = initState poolsize maxEvict data delta disk
  next s s' := ∃ event : ForkEvent α, s.Allowed event ∧ event.Plain env s map ∧
    s.step env event = .ok s'

theorem initState_ok (poolsize maxEvict : Nat) (data : α) (delta : Nat → Nat)
    (disk : Nat → Nat → α) (map : Nat) :
    ForkOk (initState poolsize maxEvict data delta disk) map := by
  unfold initState initBuffers
  constructor
  · constructor <;> simp [BufferHead.ownRefs, BufferHead.isDirty, bufferFreed, bufferDirty,
      bufferStates]
  · constructor <;> simp [bufferFreed, bufferDirty, ForkState.blocks]

theorem forkSystem_ok {env : ForkEnv α} {s : ForkState α} {map : Nat}
    (h : (forkSystem env map).Reachable s) : ForkOk s map := by
  refine System.Reachable.invariant (I := fun s => ForkOk s map) ?_ ?_ h
  · rintro s ⟨poolsize, maxEvict, data, delta, disk, rfl⟩
    exact initState_ok poolsize maxEvict data delta disk map
  · rintro s s' hok ⟨event, hallowed, hplain, hstep⟩
    exact (hok.step hallowed hplain).of_ok hstep

/-! ## What holds in every state -/

/-- What a flush of the map leaves. -/
structure FlushSound (env : ForkEnv α) (s s' : ForkState α) (map iSize : Nat) : Prop where
  written : ∀ i ∈ s.ready map, (s.pool.buffers i).index < env.outsideBlock iSize →
    s'.disk map (s.pool.buffers i).index = s.ended map (s.pool.buffers i).index
  others : ∀ block, (∀ i ∈ s.ready map, (s.pool.buffers i).index ≠ block) →
    s'.disk map block = s.disk map block
  empty : s'.ready map = []
  forked : ∀ i ∈ s.ready map, (s.pool.buffers i).hashed = false →
    (∀ map' bucket, i ∉ s'.pool.hash map' bucket) ∧
      (∀ map' slot, i ∉ s'.pool.dirty map' slot) ∧
      (s.pins i = 0 → (s'.pool.buffers i).state = bufferFreed)
  unforked : ∀ i ∈ s.ready map, (s.pool.buffers i).hashed = true →
    s'.pool.find map (s.pool.buffers i).index = .ok (some i) ∧
      (s'.pool.buffers i).state = bufferClean ∧
      (s'.pool.buffers i).data = s.newest map (s.pool.buffers i).index

/-- The buffers of a map, in a state of a run. -/
structure ForkSound (env : ForkEnv α) (s : ForkState α) (map : Nat) : Prop where
  once : ∀ slot, (s.pool.dirty map slot).Nodup ∧ ∀ i ∈ s.pool.dirty map slot,
    ∀ j ∈ s.pool.dirty map slot, (s.pool.buffers i).index = (s.pool.buffers j).index → i = j
  lookup : ∀ block i, s.pool.find map block = .ok (some i) →
    (s.pool.buffers i).state ≠ bufferEmpty → (s.pool.buffers i).data = s.newest map block
  changed : ∀ i ∈ s.pool.dirty map (tux3Delta (s.delta map)),
    s.pool.find map (s.pool.buffers i).index = .ok (some i)
  read : ∀ block malloc pool' i, s.cut map block = false →
    s.pool.blockread map block malloc (some (s.disk map block)) = .ok (pool', some i) →
    (pool'.buffers i).data = s.newest map block
  ready : ∀ i ∈ s.ready map, (s.pool.buffers i).data = s.ended map (s.pool.buffers i).index
  flush : ∀ iSize s', ForkEvent.Plain env s map (.flush map iSize) →
    s.flush env map iSize = .ok s' → FlushSound env s s' map iSize
  noAssert : ∀ event : ForkEvent α, s.Allowed event → event.Plain env s map →
    ∀ error, s.step env event = .error error → error = .bounds

section

variable {env : ForkEnv α} {s : ForkState α} {map : Nat}

theorem ForkOk.once (h : ForkOk s map) {slot i j : Nat} (hi : i ∈ s.pool.dirty map slot)
    (hj : j ∈ s.pool.dirty map slot)
    (hindex : (s.pool.buffers i).index = (s.pool.buffers j).index) : i = j := by
  obtain ⟨hmap, hstate⟩ := (h.pool.mem_dirty map slot i).mp hi
  obtain ⟨hmap', hstate'⟩ := (h.pool.mem_dirty map slot j).mp hj
  by_cases hslot : slot = tux3Delta (s.delta map)
  · subst hslot
    exact h.map.unique i j (h.map.current_hashed i hmap hstate) hmap
      (h.map.current_hashed j hmap' hstate') hmap' hindex
  · have hready : slot = tux3Delta (succDelta (s.delta map)) := by
      have hlt := h.pool.state_lt i
      have hne := tux3Delta_succDelta (s.delta map)
      rw [hstate] at hlt
      unfold tux3Delta bufferDirty bufferStates at *
      omega
    subst hready
    exact h.map.ready_unique i j hmap hstate hmap' hstate' hindex

/-- `blockread` returns the newest contents. -/
theorem ForkOk.read_data (h : ForkOk s map) {block i : Nat} {malloc : Bool} {pool' : BufferPool α}
    (hcut : s.cut map block = false)
    (hread : s.pool.blockread map block malloc (some (s.disk map block)) = .ok (pool', some i)) :
    (pool'.buffers i).data = s.newest map block := by
  have hspec := h.pool.blockread map block malloc (some (s.disk map block))
  rw [hread] at hspec
  cases hspec with
  | cached hgot hne =>
      obtain ⟨hhashed, hmap, hindex⟩ := hgot.buffer h.pool
      have hdata := (h.map.got h.pool hgot).cached i hhashed hmap hne
      rwa [hindex] at hdata
  | loaded hgot hempty hstored hbuffers hhash hok =>
      obtain ⟨hhashed, hmap, hindex⟩ := hgot.buffer h.pool
      rw [← Option.some.inj hstored] at hbuffers
      have hload := h.load hgot hempty hbuffers hhash hok
      have hsame : s.loaded map block = s := by
        unfold ForkState.loaded
        rw [if_neg (by rw [hcut]; exact Bool.false_ne_true)]
      rw [hsame] at hload
      have hid : pool'.buffers i = _ := (congrFun hbuffers i).trans (Function.update_self ..)
      have hfields : (pool'.buffers i).hashed = true ∧ (pool'.buffers i).map = some map ∧
          (pool'.buffers i).state ≠ bufferEmpty ∧ (pool'.buffers i).index = block := by
        rw [hid]
        exact ⟨hhashed, hmap, (by decide : bufferClean ≠ bufferEmpty), hindex⟩
      obtain ⟨hhashed', hmap', hne', hindex'⟩ := hfields
      have hdata : (pool'.buffers i).data = s.newest map (pool'.buffers i).index :=
        hload.map.cached i hhashed' hmap' hne'
      rw [hdata, hindex']

theorem ForkOk.flushSound (h : ForkOk s map) {iSize : Nat} {s' : ForkState α}
    (hplain : ForkEvent.Plain env s map (.flush map iSize))
    (hflush : s.flush env map iSize = .ok s') : FlushSound env s s' map iSize := by
  obtain ⟨pool', hlist, hflushed, hok⟩ := h.flushList_plain hplain
  have hflush' := ForkState.flush_of_ok hlist
  have hs' := Except.ok.inj (hflush'.symm.trans hflush)
  have hok' : ForkOk s' map := (h.flush_plain hplain).of_ok hflush
  have hpool : s'.pool = pool' := by rw [← hs']; rfl
  have hpins : s'.pins = s.pins := by rw [← hs']; rfl
  have hdisk : ∀ block, s'.disk map block = s.pool.writeBlocks (s.disk map)
      (insideBlocks s.pool (env.outsideBlock iSize) (s.pool.sorted (s.ready map))) block := by
    intro block
    rw [← hs']
    exact congrFun (Function.update_self ..) block
  have hclean : ∀ i ∈ s.ready map, (s'.pool.buffers i).isDirty = false := by
    intro i hi
    rw [hpool]
    exact hflushed.ended.clean i hi
  constructor
  · intro i hi hin
    rw [hdisk, h.written hi hin]
    obtain ⟨hmap, hstate⟩ := (h.mem_ready map i).mp hi
    exact h.map.ready_data i hmap hstate
  · intro block hne
    rw [hdisk]
    exact s.notWritten fun i hi _ => hne i hi
  · refine List.eq_nil_iff_forall_not_mem.mpr fun i hi => ?_
    have hdelta : s'.delta = s.delta := by rw [← hs']; rfl
    obtain ⟨hmap, hstate⟩ := (hok'.mem_ready map i).mp hi
    by_cases hi' : i ∈ s.ready map
    · have hdirty := hclean i hi'
      unfold BufferHead.isDirty at hdirty
      rw [hstate, decide_eq_false_iff_not] at hdirty
      exact hdirty (Nat.le_add_right _ _)
    · rw [hpool, hflushed.buffers, if_neg hi'] at hmap hstate
      rw [hdelta] at hstate
      exact hi' ((h.mem_ready map i).mpr ⟨hmap, hstate⟩)
  · intro i hi hhashed
    have hunhashed : (s'.pool.buffers i).hashed = false := by
      rw [hpool, hflushed.buffers, if_pos hi, BufferHead.ended_hashed]
      exact hhashed
    refine ⟨fun map' bucket hmem => ?_, fun map' slot hmem => ?_, fun hpin => ?_⟩
    · rw [(hok'.pool.mem_hash map' bucket i hmem).1] at hunhashed
      exact Bool.false_ne_true hunhashed.symm
    · have hdirty := hclean i hi
      unfold BufferHead.isDirty at hdirty
      rw [((hok'.pool.mem_dirty map' slot i).mp hmem).2, decide_eq_false_iff_not] at hdirty
      exact hdirty (Nat.le_add_right _ _)
    · rw [hok'.pool.freed_iff, hok'.pool.count, hpins, hpin, BufferHead.ownRefs, hunhashed,
        hclean i hi]
      rfl
  · intro i hi hhashed
    obtain ⟨hmap, hstate⟩ := (h.mem_ready map i).mp hi
    have hended : s'.pool.buffers i = { s.pool.buffers i with state := bufferClean } := by
      rw [hpool, hflushed.buffers, if_pos hi, BufferHead.ended, if_pos hhashed]
    refine ⟨hok'.map.find_eq ?_ ?_ ?_, ?_, ?_⟩
    · rw [hended]
      exact hhashed
    · rw [hended]
      exact hmap
    · rw [hended]
    · rw [hended]
    · rw [hended]
      refine h.map.cached i hhashed hmap ?_
      rw [hstate]
      unfold bufferDirty bufferEmpty
      omega

end

/-! ## Two runs -/

/-- The state after a step. -/
def ForkState.next (env : ForkEnv α) (s : ForkState α) (event : ForkEvent α) : ForkState α :=
  match s.step env event with
  | .ok s' => s'
  | .error _ => s

theorem ForkState.step_next {env : ForkEnv α} {s : ForkState α} {event : ForkEvent α}
    (h : (s.step env event).isOk = true) : s.step env event = .ok (s.next env event) := by
  unfold ForkState.next
  cases hstep : s.step env event with
  | ok s' => rfl
  | error error =>
      rw [hstep] at h
      exact nomatch h

theorem forkSystem_next {env : ForkEnv α} {map : Nat} {s : ForkState α}
    (h : (forkSystem env map).Reachable s) (event : ForkEvent α) (hallowed : s.Allowed event)
    (hplain : event.Plain env s map) (hok : (s.step env event).isOk = true) :
    (forkSystem env map).Reachable (s.next env event) :=
  .next h ⟨event, hallowed, hplain, ForkState.step_next hok⟩

/-- A volume with two maps: that of the bitmap and that of a file. -/
def twoMaps : ForkEnv Nat where
  inum := fun map => if map = 0 then 0 else 64
  blockbits := 12
  lzo := fun blocks => ([], blocks.sum + 1)

/-- A block of a map is read and changed, and the delta ends. -/
def changedOnce (map block : Nat) : ForkState Nat :=
  let s := initState 8 1 0 (fun _ => 0) fun _ _ => 0
  let s := s.next twoMaps (.read map block true true)
  let s := s.next twoMaps (.modify map 0 true fun _ => 5)
  s.next twoMaps (.deltaChange map)

theorem changedOnce_reachable (map block : Nat) (hmap : map < 2) (hblock : block < 2) :
    (forkSystem twoMaps 0).Reachable (changedOnce map block) := by
  have hinit : (forkSystem twoMaps 0).Reachable
      (initState 8 1 0 (fun _ => 0) fun _ _ => 0) := .init ⟨8, 1, 0, _, _, rfl⟩
  have hread := forkSystem_next hinit (.read map block true true) trivial trivial
    (by interval_cases map <;> interval_cases block <;> decide +kernel)
  have hmodify := forkSystem_next hread (.modify map 0 true fun _ => 5)
    (by interval_cases map <;> interval_cases block <;>
      exact ⟨by decide +kernel, by decide +kernel, by decide +kernel⟩)
    trivial (by interval_cases map <;> interval_cases block <;> decide +kernel)
  exact forkSystem_next hmodify (.deltaChange map)
    (by show _ = _; interval_cases map <;> interval_cases block <;> decide +kernel) trivial
    (by interval_cases map <;> interval_cases block <;> decide +kernel)

/-- The runs with any flushes. -/
def allRuns (env : ForkEnv α) : System (ForkState α) where
  init s := ∃ poolsize maxEvict data delta disk,
    s = initState poolsize maxEvict data delta disk
  next s s' := ∃ event : ForkEvent α, s.Allowed event ∧ s.step env event = .ok s'

theorem forkSystem_allRuns {env : ForkEnv α} {map : Nat} {s : ForkState α}
    (h : (forkSystem env map).Reachable s) : (allRuns env).Reachable s := by
  induction h with
  | init hinit => exact .init hinit
  | next _ hstep ih =>
      obtain ⟨event, hallowed, -, hok⟩ := hstep
      exact .next ih ⟨event, hallowed, hok⟩

end Tux3
