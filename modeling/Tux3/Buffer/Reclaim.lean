/-
  Buffer/Reclaim.lean --- the buffer pool with its debug levels.

  From level 1 on a buffer that nobody needs goes back to the system and not on the free list.
  At level 2 it is reclaimed as soon as its state or its count allows it, within the change of the
  state or the last put; at the other levels `new_buffer` evicts buffers when it finds no room.
-/
import Tux3.Buffer.Pool

set_option autoImplicit false

namespace Tux3.Reclaim

variable {α : Type}

/-! ## Putting and reclaiming -/

/-- `free_buffer`.  The number of a buffer that went back to the system is not used again. -/
def freeBuffer (debug : Nat) (pool : BufferPool α) (id : Nat) : BufferPool α :=
  if debug ≠ 0 then
    let pool := pool.unlink id
    { pool.set id { pool.buffers id with state := bufferFreed, map := none } with
      bufferCount := pool.bufferCount - 1 }
  else pool.freeBuffer id

/-- `remove_buffer_hash` takes the buffer from the two lists. -/
def unhash (pool : BufferPool α) (id : Nat) : BufferPool α :=
  { pool with
    lru := pool.lru.filter (· ≠ id)
    hash := fun map bucket => (pool.hash map bucket).filter (· ≠ id) }.set id
    { pool.buffers id with hashed := false }

/-- `reclaim_buffer` may take it. -/
def CanReclaim (buffer : BufferHead α) : Prop :=
  buffer.count = 1 ∧ buffer.isDirty = false ∧ buffer.hashed = true

instance (buffer : BufferHead α) : Decidable (CanReclaim buffer) :=
  inferInstanceAs (Decidable (_ ∧ _ ∧ _))

/-- `blockput`, with `reclaim_buffer_early` and `reclaim_buffer` inlined, which come back to
`blockput`. -/
def blockputLoop (debug : Nat) : Nat → BufferPool α → Nat → Except TuxError (BufferPool α)
  | 0, _, _ => .error .fuel
  | n + 1, pool, id => do
      let buffer := pool.buffers id
      tuxAssert (0 < buffer.count)
      let pool := pool.set id { buffer with count := buffer.count - 1 }
      if buffer.count - 1 = 0 then
        tuxAssert (buffer.isDirty = false)
        tuxAssert (buffer.hashed = false)
        tuxAssert (id ∉ pool.lru)
        return freeBuffer debug pool id
      else if 2 ≤ debug ∧ CanReclaim (pool.buffers id) then
        blockputLoop debug n (unhash pool id) id
      else return pool

/-- `blockput`: the buffer that is reclaimed in it has one reference, so the second round is the
last one. -/
def blockput (debug : Nat) (pool : BufferPool α) (id : Nat) : Except TuxError (BufferPool α) :=
  blockputLoop debug 2 pool id

/-- `remove_buffer_hash`. -/
def removeHash (debug : Nat) (pool : BufferPool α) (id : Nat) :
    Except TuxError (BufferPool α) := blockput debug (unhash pool id) id

/-- `reclaim_buffer`. -/
def reclaim (debug : Nat) (pool : BufferPool α) (id : Nat) :
    Except TuxError (BufferPool α × Bool) :=
  if CanReclaim (pool.buffers id) then do
    let pool ← removeHash debug pool id
    return (pool, true)
  else return (pool, false)

/-- `reclaim_buffer_early`. -/
def reclaimEarly (debug : Nat) (pool : BufferPool α) (id : Nat) :
    Except TuxError (BufferPool α) :=
  if 2 ≤ debug then do
    let (pool, _) ← reclaim debug pool id
    return pool
  else return pool

/-- `set_buffer_clean`. -/
def setClean (debug : Nat) (pool : BufferPool α) (id : Nat) :
    Except TuxError (BufferPool α) := do
  tuxAssert ((pool.buffers id).state ≠ bufferClean)
  reclaimEarly debug (pool.setState id bufferClean) id

/-- `set_buffer_empty`. -/
def setEmpty (debug : Nat) (pool : BufferPool α) (id : Nat) :
    Except TuxError (BufferPool α) := do
  tuxAssert ((pool.buffers id).state ≠ bufferEmpty)
  reclaimEarly debug (pool.setState id bufferEmpty) id

/-- `tux3_set_buffer_dirty`. -/
def setDirty (debug : Nat) (pool : BufferPool α) (map id delta : Nat) :
    Except TuxError (BufferPool α) := reclaimEarly debug (pool.setDirty map id delta) id

/-! ## New buffers -/

/-- The loop of `new_buffer` over `lru_buffers`. -/
def evictLoop (debug : Nat) :
    List Nat → Nat → BufferPool α → Except TuxError (BufferPool α)
  | [], _, pool => return pool
  | victim :: victims, count, pool => do
      let (pool, reclaimed) ← reclaim debug pool victim
      if reclaimed = true then
        if count + 1 = pool.maxEvict then return pool
        else evictLoop debug victims (count + 1) pool
      else evictLoop debug victims count pool

/-- `new_buffer` evicts buffers if there is no room. -/
def makeRoom (debug : Nat) (pool : BufferPool α) : Except TuxError (BufferPool α) :=
  if pool.bufferCount ≥ pool.maxBuffers then evictLoop debug pool.lru 0 pool else return pool

/-- `new_buffer` from `have_buffer` on. -/
def haveBuffer (debug : Nat) (pool : BufferPool α) (map id : Nat) :
    Except TuxError (BufferPool α × Option Nat) := do
  let buffer := pool.buffers id
  tuxAssert (buffer.count = 0)
  tuxAssert (buffer.state = bufferFreed)
  let pool := pool.set id { buffer with map := some map, count := 1 }
  let pool ← setEmpty debug pool id
  return ({ pool with bufferCount := pool.bufferCount + 1 }, some id)

/-- `new_buffer` where there is no free buffer, after `expand buffer pool`. -/
def expandPool (debug : Nat) (pool : BufferPool α) (map : Nat) (malloc : Bool) :
    Except TuxError (BufferPool α × Option Nat) :=
  if pool.bufferCount = pool.maxBuffers ∨ malloc = false then return (pool, none)
  else haveBuffer debug { pool with allocated := pool.allocated + 1 } map pool.allocated

/-- `new_buffer`; `none` is `-ENOMEM`, `malloc` tells whether there is memory for more buffers. -/
def newBuffer (debug : Nat) (pool : BufferPool α) (map : Nat) (malloc : Bool) :
    Except TuxError (BufferPool α × Option Nat) :=
  match pool.freed with
  | id :: _ => haveBuffer debug pool map id
  | [] => do
      let pool ← makeRoom debug pool
      match pool.freed with
      | id :: _ => haveBuffer debug pool map id
      | [] => expandPool debug pool map malloc

/-! ## Blocks -/

/-- `blockget` of a block that has no buffer. -/
def insertNew (debug : Nat) (pool : BufferPool α) (map block : Nat) (malloc : Bool) :
    Except TuxError (BufferPool α × Option Nat) := do
  let (pool, buffer) ← newBuffer debug pool map malloc
  match buffer with
  | none => return (pool, none)
  | some id =>
      let pool := pool.set id { pool.buffers id with index := block }
      let pool ← pool.insertHash map id
      return (pool, some id)

/-- `blockget`. -/
def blockget (debug : Nat) (pool : BufferPool α) (map block : Nat) (malloc : Bool) :
    Except TuxError (BufferPool α × Option Nat) := do
  match ← pool.find map block with
  | some id =>
      let pool := { pool with lru := pool.lru.filter (· ≠ id) ++ [id] }
      let pool ← pool.getBh id
      return (pool, some id)
  | none => insertNew debug pool map block malloc

/-- `blockread` that succeeds: `data` is what the map has at this block. -/
def blockread (debug : Nat) (pool : BufferPool α) (map block : Nat) (malloc : Bool) (data : α) :
    Except TuxError (BufferPool α × Option Nat) := do
  let (pool, buffer) ← blockget debug pool map block malloc
  match buffer with
  | none => return (pool, none)
  | some id =>
      if (pool.buffers id).state = bufferEmpty then
        let pool := pool.set id { pool.buffers id with data := data }
        let pool ← setClean debug pool id
        return (pool, some id)
      else return (pool, some id)

/-- `__tux3_mark_buffer_dirty`. -/
def markDirty (debug : Nat) (pool : BufferPool α) (map id delta : Nat) :
    Except TuxError (BufferPool α) :=
  if (pool.buffers id).isDirty = true then return pool else setDirty debug pool map id delta

/-- `blockdirty` forks the buffer. -/
def forkBuffer (debug : Nat) (pool : BufferPool α) (map id newdelta : Nat) (malloc : Bool) :
    Except TuxError (BufferPool α × Option Nat) := do
  let (pool, buffer) ← newBuffer debug pool map malloc
  match buffer with
  | none => return (pool, none)
  | some clone =>
      let pool := pool.set clone { pool.buffers clone with
        data := (pool.buffers id).data, index := (pool.buffers id).index }
      let pool ← removeHash debug pool id
      let pool ← pool.insertHash map clone
      let pool ← markDirty debug pool map clone newdelta
      return (pool, some clone)

/-- `blockdirty`; `none` is the error of `new_buffer`. -/
def blockdirty (debug : Nat) (pool : BufferPool α) (id newdelta : Nat) (malloc : Bool) :
    Except TuxError (BufferPool α × Option Nat) := do
  tuxAssert ((pool.buffers id).state < bufferStates)
  match (pool.buffers id).map with
  | none => .error .bounds
  | some map =>
      if (pool.buffers id).isDirty = true then
        if (pool.buffers id).alreadyDirty newdelta = true then return (pool, some id)
        else forkBuffer debug pool map id newdelta malloc
      else do
        let pool ← markDirty debug pool map id newdelta
        return (pool, some id)

/-- `clear_buffer_dirty_for_endio`, of an I/O without an error.  That of the volume map does not
look for a fork, and there is none. -/
def endio (debug : Nat) (pool : BufferPool α) (id : Nat) : Except TuxError (BufferPool α) := do
  let forked := (pool.buffers id).hashed = false
  let pool ← setClean debug pool id
  if forked then blockput debug pool id else return pool

/-! ## Truncation -/

/-- `buffer_can_modify`. -/
def canModify (buffer : BufferHead α) (delta : Nat) : Bool :=
  !buffer.isDirty || buffer.state - bufferDirty == tux3Delta delta

/-- What `truncate_buffers_range` was called with, `start` and `last` being the blocks that are
wholly in the range; `clear` is the `memset` from `part` on. -/
structure Range (α : Type) where
  start : Nat
  last : Nat
  part : Nat
  clear : Nat → α → α
  delta : Nat

/-- `truncate_buffers_range` clears the end of the block that is only partly in the range. -/
def clearPart (range : Range α) (pool : BufferPool α) (id : Nat) : BufferPool α :=
  if range.part ≠ 0 ∧ (pool.buffers id).index = range.start - 1 then
    pool.set id { pool.buffers id with data := range.clear range.part (pool.buffers id).data }
  else pool

/-- `tux3_invalidate_buffer`, unless the buffer is empty. -/
def invalidateBuffer (debug : Nat) (range : Range α) (pool : BufferPool α) (id : Nat) :
    Except TuxError (BufferPool α) :=
  if (pool.buffers id).state ≠ bufferEmpty then do
    tuxAssert (canModify (pool.buffers id) range.delta)
    setEmpty debug pool id
  else return pool

/-- `truncate_buffers_range` invalidates a buffer; the first check is that of
`bufferfork_to_invalidate`. -/
def truncateWhole (debug : Nat) (range : Range α) (pool : BufferPool α) (id : Nat) :
    Except TuxError (BufferPool α) := do
  tuxAssert (canModify (pool.buffers id) range.delta)
  let pool ← invalidateBuffer debug range pool id
  if debug < 2 then do
    let (pool, _) ← reclaim debug pool id
    return pool
  else return pool

/-- The body of the loop of `truncate_buffers_range`. -/
def truncateBuffer (debug : Nat) (range : Range α) (pool : BufferPool α) (id : Nat) :
    Except TuxError (BufferPool α) :=
  let pool := clearPart range pool id
  if (pool.buffers id).index < range.start ∨ range.last < (pool.buffers id).index then return pool
  else truncateWhole debug range pool id

/-- `truncate_buffers_range`.  A buffer that is reclaimed is not looked at again, and the others
stay where they are, so a bucket is gone through as it was found. -/
@[irreducible] def truncateBuffersRange (debug : Nat) (range : Range α) (pool : BufferPool α)
    (map : Nat) : Except TuxError (BufferPool α) :=
  (List.range BufferPool.buckets).foldlM
    (fun pool bucket => (pool.hash map bucket).foldlM (truncateBuffer debug range) pool) pool

/-- The blocks of the bytes from `lstart` to `lend`. -/
def rangeOf (blockbits lstart lend : Nat) (clear : Nat → α → α) (delta : Nat) : Range α where
  start := (lstart + (2 ^ blockbits - 1)) / 2 ^ blockbits
  last := lend / 2 ^ blockbits
  part := lstart % 2 ^ blockbits
  clear := clear
  delta := delta

/-- `init_buffers`, without buffers allocated in advance. -/
def initPool (bits poolsize : Nat) (data : α) : BufferPool α where
  buffers := fun _ => ⟨none, false, 0, bufferFreed, 0, data⟩
  allocated := 0
  freed := []
  lru := []
  bufferCount := 0
  maxBuffers := max (poolsize / 2 ^ bits) 100
  maxEvict := poolsize / 2 ^ bits / 10
  hash := fun _ _ => []
  dirty := fun _ _ => []

end Tux3.Reclaim
