/-
  Buffer/Flush.lean --- the flush of the dirty buffers of a delta, and the steps of a run.

  `flush_list` writes the dirty buffers of a map in the order of their blocks, a contiguous range
  at a time, and ends their I/O.  Buffers outside of `i_size` are not written, and those of
  inodes other than the metadata of the volume go through `compress_stride` before.
-/
import Mathlib.Data.List.Sort
import Tux3.Buffer.Pool
import Tux3.Log.Chain

set_option autoImplicit false

namespace Tux3

/-! ## Contiguous ranges -/

/-- What `bufvec_contig_collect` makes of the dirty buffers. -/
structure Collected where
  contig : List Nat
  cancelled : List Nat
  rest : List Nat

namespace BufferPool

variable {α : Type}

/-- The loop of `bufvec_contig_collect` after a buffer of block `last`. -/
def contigMore (pool : BufferPool α) (outside : Nat) : Nat → Nat → List Nat → Collected
  | _, _, [] => ⟨[], [], []⟩
  | room, last, id :: ids =>
      if outside ≤ (pool.buffers id).index then ⟨[], id :: ids, []⟩
      else if last + 1 ≠ (pool.buffers id).index ∨ room = 0 then ⟨[], [], id :: ids⟩
      else
        let more := pool.contigMore outside (room - 1) (pool.buffers id).index ids
        { more with contig := id :: more.contig }

/-- `bufvec_contig_collect`, before the compression. -/
def contigCollect (pool : BufferPool α) (outside : Nat) : List Nat → Collected
  | [] => ⟨[], [], []⟩
  | id :: ids =>
      if outside ≤ (pool.buffers id).index then ⟨[], id :: ids, []⟩
      else
        let more := pool.contigMore outside (contigLimit - 1) (pool.buffers id).index ids
        { more with contig := id :: more.contig }

/-- The end of the I/O of some buffers. -/
def endioAll (pool : BufferPool α) : List Nat → Except TuxError (BufferPool α)
  | [] => return pool
  | id :: ids => do
      let pool ← pool.endio id
      pool.endioAll ids

/-! ## Compression -/

/-- The compressed blocks are put into the buffers, with new numbers of their blocks. -/
def storeBlocks (pool : BufferPool α) : Nat → List Nat → List α → BufferPool α
  | globalIndex, id :: ids, data :: blocks =>
      (pool.set id { pool.buffers id with index := globalIndex, data := data }).storeBlocks
        (globalIndex + 1) ids blocks
  | _, _, _ => pool

/-- `compress_stride`: `lzo` gives the whole blocks of the output and the last one, filled up with
zeros.  The buffers that are not needed for it stay on `bufvec->compress`. -/
def compressStride (lzo : List α → List α × α) (pool : BufferPool α) (globalIndex : Nat)
    (contig : List Nat) : Except TuxError (BufferPool α × List Nat × List Nat × Nat) :=
  let (whole, last) := lzo (contig.map fun id => (pool.buffers id).data)
  let out := whole ++ [last]
  if contig.length < out.length then .error .bounds
  else return (pool.storeBlocks globalIndex contig out, contig.take out.length,
    contig.drop out.length, globalIndex + out.length)

/-! ## The flush -/

/-- A lookup found a buffer that has been read. -/
def isRead (pool : BufferPool α) : Except TuxError (Option Nat) → Bool
  | .ok (some id) => (pool.buffers id).state ≠ bufferEmpty
  | _ => false

/-- `map->io`: the data of the buffers are written to their blocks. -/
def writeBlocks (pool : BufferPool α) (disk : Nat → α) : List Nat → Nat → α
  | [] => disk
  | id :: ids => pool.writeBlocks
      (Function.update disk (pool.buffers id).index (pool.buffers id).data) ids

/-- The loop of `flush_list`; `compress` is that the inode is not of the metadata. -/
def flushLoop (lzo : List α → List α × α) (compress : Bool) (outside : Nat) :
    Nat → BufferPool α → (Nat → α) → Nat → List Nat → Except TuxError (BufferPool α × (Nat → α))
  | _, pool, disk, _, [] => return (pool, disk)
  | 0, _, _, _, _ :: _ => .error .fuel
  | fuel + 1, pool, disk, globalIndex, head => do
      let collected := pool.contigCollect outside head
      let pool ← pool.endioAll collected.cancelled
      if collected.contig = [] then return (pool, disk)
      else if compress = true then
        let (pool, contig, unused, globalIndex) ←
          compressStride lzo pool globalIndex collected.contig
        let disk := pool.writeBlocks disk contig
        let pool ← pool.endioAll contig
        let pool ← pool.endioAll unused
        flushLoop lzo compress outside fuel pool disk globalIndex collected.rest
      else
        let disk := pool.writeBlocks disk collected.contig
        let pool ← pool.endioAll collected.contig
        flushLoop lzo compress outside fuel pool disk globalIndex collected.rest

/-- `list_sort` with `buffer_index_cmp`. -/
def sorted (pool : BufferPool α) (ids : List Nat) : List Nat :=
  ids.insertionSort fun a b => (pool.buffers a).index ≤ (pool.buffers b).index

/-- `flush_list`. -/
def flushList (lzo : List α → List α × α) (compress : Bool) (outside : Nat)
    (pool : BufferPool α) (disk : Nat → α) (head : List Nat) :
    Except TuxError (BufferPool α × (Nat → α)) :=
  flushLoop lzo compress outside head.length pool disk 0 (pool.sorted head)

end BufferPool

/-! ## Runs -/

/-- What does not change: the inode numbers of the maps, the block size and the compression. -/
structure ForkEnv (α : Type) where
  inum : Nat → Nat
  blockbits : Nat
  lzo : List α → List α × α

/-- `outside_block`: the first block that is fully outside of `i_size`. -/
def ForkEnv.outsideBlock {α : Type} (env : ForkEnv α) (iSize : Nat) : Nat :=
  (iSize + (2 ^ env.blockbits - 1)) / 2 ^ env.blockbits

/-- The state of a run: the buffers, the delta of each map (for the bitmap it is the unify cycle)
and the blocks of the volume.  The rest is for the statements: who holds a buffer, the newest
contents of a block, those at the end of the delta before, and the blocks that were outside of
`i_size` when they should have been written. -/
structure ForkState (α : Type) where
  pool : BufferPool α
  delta : Nat → Nat
  disk : Nat → Nat → α
  pins : Nat → Nat
  newest : Nat → Nat → α
  ended : Nat → Nat → α
  cut : Nat → Nat → Bool

/-- The steps of a run; `malloc` and `readable` are what the system does. -/
inductive ForkEvent (α : Type) where
  | peek (map block : Nat)
  | get (map block : Nat) (malloc : Bool)
  | read (map block : Nat) (malloc readable : Bool)
  | put (id : Nat)
  | modify (map id : Nat) (malloc : Bool) (change : α → α)
  | deltaChange (map : Nat)
  | flush (map iSize : Nat)

namespace ForkState

variable {α : Type}

/-- The caller holds the buffer that it got, if it got one. -/
def hold (s : ForkState α) : BufferPool α × Option Nat → ForkState α
  | (pool, none) => { s with pool := pool }
  | (pool, some id) => { s with pool := pool, pins := Function.update s.pins id (s.pins id + 1) }

/-- A block was read whose last change had not been written. -/
def loaded (s : ForkState α) (map block : Nat) : ForkState α :=
  if s.cut map block = true then
    let newest := Function.update (s.newest map) block (s.disk map block)
    { s with newest := Function.update s.newest map newest }
  else s

/-- `blockread` finds the block in a buffer. -/
def isCached (s : ForkState α) (map block : Nat) : Bool :=
  s.pool.isRead (s.pool.find map block)

/-- `blockread`. -/
def read (s : ForkState α) (map block : Nat) (malloc readable : Bool) :
    Except TuxError (ForkState α) := do
  let stored := if readable = true then some (s.disk map block) else none
  let (pool, buffer) ← s.pool.blockread map block malloc stored
  match buffer with
  | none => return { s with pool := pool }
  | some id =>
      let s' := if s.isCached map block = true then s else s.loaded map block
      return s'.hold (pool, some id)

/-- `blockdirty`, and a change of the data of the buffer that it returns. -/
def modify (s : ForkState α) (map id : Nat) (malloc : Bool) (change : α → α) :
    Except TuxError (ForkState α) := do
  let (pool, buffer) ← s.pool.blockdirty id (s.delta map) malloc
  match buffer with
  | none => return { s with pool := pool }
  | some clone =>
      let data := change (pool.buffers clone).data
      let s := { s with pins := Function.update s.pins id (s.pins id - 1) }
      return { s with
        pool := pool.set clone { pool.buffers clone with data := data }
        pins := Function.update s.pins clone (s.pins clone + 1)
        newest := Function.update s.newest map
          (Function.update (s.newest map) (pool.buffers clone).index data) }

/-- The buffers of the delta that ended. -/
def ready (s : ForkState α) (map : Nat) : List Nat :=
  s.pool.dirty map (tux3Delta (succDelta (s.delta map)))

/-- `flush_list` of the buffers of the delta that ended. -/
def flush (env : ForkEnv α) (s : ForkState α) (map iSize : Nat) :
    Except TuxError (ForkState α) := do
  let outside := env.outsideBlock iSize
  let (pool, disk) ← BufferPool.flushList env.lzo (tuxNormalIno ≤ env.inum map) outside s.pool
    (s.disk map) (s.ready map)
  return { s with
    pool := pool
    disk := Function.update s.disk map disk
    cut := Function.update s.cut map fun block =>
      if (s.ready map).any fun id => (s.pool.buffers id).index = block then outside ≤ block
      else s.cut map block }

/-- A step. -/
def step (env : ForkEnv α) (s : ForkState α) : ForkEvent α → Except TuxError (ForkState α)
  | .peek map block => return s.hold (← s.pool.peekblk map block)
  | .get map block malloc => return s.hold (← s.pool.blockget map block malloc)
  | .read map block malloc readable => s.read map block malloc readable
  | .put id => do
      let pool ← s.pool.blockput id
      return { s with pool := pool, pins := Function.update s.pins id (s.pins id - 1) }
  | .modify map id malloc change => s.modify map id malloc change
  | .deltaChange map => return { s with
      delta := Function.update s.delta map (succDelta (s.delta map))
      ended := Function.update s.ended map (s.newest map) }
  | .flush map iSize => s.flush env map iSize

/-- What the callers see to: only who holds a buffer puts it; a buffer is changed by who holds it
and as long as it was not forked (`buffer_forked`); and a delta ends after the flush of the one
before. -/
def Allowed (s : ForkState α) : ForkEvent α → Prop
  | .put id => 0 < s.pins id
  | .modify map id _ _ => 0 < s.pins id ∧ (s.pool.buffers id).hashed = true ∧
      (s.pool.buffers id).map = some map
  | .deltaChange map => s.ready map = []
  | _ => True

end ForkState

end Tux3
