/-
  Buffer/Pool.lean --- the buffers of the user space volume.

  A buffer is on the hash of its map while a block is cached in it, and on a dirty list of the
  map while a delta has still to write it.  `blockdirty` forks a buffer that another delta has
  to write: the clone takes its place on the hash, and the old one stays on its list.
-/
import Mathlib.Logic.Function.Basic
import Tux3.Volume

set_option autoImplicit false

namespace Tux3

/-! ## Buffers -/

/-- `BUFFER_FREED`. -/
def bufferFreed : Nat := 0

/-- `BUFFER_EMPTY`. -/
def bufferEmpty : Nat := 1

/-- `BUFFER_CLEAN`. -/
def bufferClean : Nat := 2

/-- `BUFFER_DIRTY`: the state of a dirty buffer is this and the slot of its delta. -/
def bufferDirty : Nat := 3

/-- `BUFFER_STATES`. -/
def bufferStates : Nat := 5

/-- `struct buffer_head`: `hashed` is that `hashlink` is on a list; the data are of any type. -/
structure BufferHead (α : Type) where
  map : Option Nat
  hashed : Bool
  count : Nat
  state : Nat
  index : Nat
  data : α

/-- `buffer_dirty`. -/
def BufferHead.isDirty {α : Type} (buffer : BufferHead α) : Bool := bufferDirty ≤ buffer.state

/-- `buffer_already_dirty`. -/
def BufferHead.alreadyDirty {α : Type} (buffer : BufferHead α) (delta : Nat) : Bool :=
  buffer.isDirty && buffer.state - bufferDirty == tux3Delta delta

/-- The buffers, with their lists; a buffer is its number, `allocated` are the numbers in use,
`dirty` are `tux3_dirty_buffers` of the map and the slot of a delta. -/
structure BufferPool (α : Type) where
  buffers : Nat → BufferHead α
  allocated : Nat
  freed : List Nat
  lru : List Nat
  bufferCount : Nat
  maxBuffers : Nat
  maxEvict : Nat
  hash : Nat → Nat → List Nat
  dirty : Nat → Nat → List Nat

namespace BufferPool

variable {α : Type}

/-- A store to a buffer. -/
def set (pool : BufferPool α) (id : Nat) (buffer : BufferHead α) : BufferPool α :=
  { pool with buffers := Function.update pool.buffers id buffer }

@[simp] theorem set_self (pool : BufferPool α) (id : Nat) (buffer : BufferHead α) :
    (pool.set id buffer).buffers id = buffer := Function.update_self ..

/-- `list_del` of `buffer->link`, from the list that it is on. -/
def unlink (pool : BufferPool α) (id : Nat) : BufferPool α :=
  { pool with
    freed := pool.freed.filter (· ≠ id)
    dirty := fun map slot => (pool.dirty map slot).filter (· ≠ id) }

/-- `set_buffer_state`; the lists of empty and clean buffers are not looked at. -/
def setState (pool : BufferPool α) (id state : Nat) : BufferPool α :=
  let pool := (pool.unlink id).set id { pool.buffers id with state := state }
  if state = bufferFreed then { pool with freed := pool.freed ++ [id] } else pool

/-- `tux3_set_buffer_dirty`. -/
def setDirty (pool : BufferPool α) (map id delta : Nat) : BufferPool α :=
  let pool := pool.unlink id
  let pool := { pool with
    dirty := fun m slot =>
      if m = map ∧ slot = tux3Delta delta then pool.dirty m slot ++ [id] else pool.dirty m slot }
  pool.set id { pool.buffers id with state := bufferDirty + tux3Delta delta }

/-- `set_buffer_clean`. -/
def setClean (pool : BufferPool α) (id : Nat) : Except TuxError (BufferPool α) := do
  tuxAssert ((pool.buffers id).state ≠ bufferClean)
  return pool.setState id bufferClean

/-- `set_buffer_empty`. -/
def setEmpty (pool : BufferPool α) (id : Nat) : Except TuxError (BufferPool α) := do
  tuxAssert ((pool.buffers id).state ≠ bufferEmpty)
  return pool.setState id bufferEmpty

/-- `free_buffer`. -/
def freeBuffer (pool : BufferPool α) (id : Nat) : BufferPool α :=
  let pool := pool.setState id bufferFreed
  { pool.set id { pool.buffers id with map := none } with bufferCount := pool.bufferCount - 1 }

/-- `get_bh`. -/
def getBh (pool : BufferPool α) (id : Nat) : Except TuxError (BufferPool α) := do
  let buffer := pool.buffers id
  tuxAssert (1 ≤ buffer.count)
  return pool.set id { buffer with count := buffer.count + 1 }

/-- `blockput`. -/
def blockput (pool : BufferPool α) (id : Nat) : Except TuxError (BufferPool α) := do
  let buffer := pool.buffers id
  tuxAssert (0 < buffer.count)
  let pool := pool.set id { buffer with count := buffer.count - 1 }
  if buffer.count - 1 = 0 then
    tuxAssert (buffer.isDirty = false)
    tuxAssert (buffer.hashed = false)
    tuxAssert (id ∉ pool.lru)
    return pool.freeBuffer id
  else return pool

/-! ## The hash -/

/-- `BUFFER_BUCKETS`. -/
def buckets : Nat := 999

/-- `buffer_hash`: the product and its remainder are signed. -/
@[irreducible] def bufferHash (block : Nat) : Nat :=
  let product := (((block / 2 ^ 32 ^^^ block : Nat) : Int) * 978317583).bmod (2 ^ 64)
  (product.tmod buckets % 2 ^ 32).toNat

/-- The bucket of a block; one beyond the table is not memory of the map. -/
def bucketOf (block : Nat) : Except TuxError Nat :=
  if bufferHash block < buckets then .ok (bufferHash block) else .error .bounds

/-- `insert_buffer_hash`. -/
def insertHash (pool : BufferPool α) (map id : Nat) : Except TuxError (BufferPool α) := do
  let bucket ← bucketOf (pool.buffers id).index
  let pool ← pool.getBh id
  let pool := { pool with
    hash := fun m b => if m = map ∧ b = bucket then id :: pool.hash m b else pool.hash m b
    lru := pool.lru ++ [id] }
  return pool.set id { pool.buffers id with hashed := true }

/-- `remove_buffer_hash`. -/
def removeHash (pool : BufferPool α) (id : Nat) : Except TuxError (BufferPool α) :=
  let pool := { pool with
    lru := pool.lru.filter (· ≠ id)
    hash := fun map bucket => (pool.hash map bucket).filter (· ≠ id) }
  let pool := pool.set id { pool.buffers id with hashed := false }
  pool.blockput id

/-- `reclaim_buffer`. -/
def reclaim (pool : BufferPool α) (id : Nat) : Except TuxError (BufferPool α × Bool) := do
  let buffer := pool.buffers id
  if buffer.count = 1 ∧ buffer.isDirty = false ∧ buffer.hashed = true then
    let pool ← pool.removeHash id
    return (pool, true)
  else return (pool, false)

/-- The loop of `new_buffer` over `lru_buffers`. -/
def evictLoop (pool : BufferPool α) : List Nat → Nat → Except TuxError (BufferPool α)
  | [], _ => return pool
  | victim :: victims, count => do
      let (pool, reclaimed) ← pool.reclaim victim
      if reclaimed = true then
        if count + 1 = pool.maxEvict then return pool
        else pool.evictLoop victims (count + 1)
      else pool.evictLoop victims count

/-- `new_buffer` from `have_buffer` on. -/
def haveBuffer (pool : BufferPool α) (map id : Nat) : Except TuxError (BufferPool α) := do
  let buffer := pool.buffers id
  tuxAssert (buffer.count = 0)
  tuxAssert (buffer.state = bufferFreed)
  let pool := pool.set id { buffer with map := some map, count := 1 }
  let pool ← pool.setEmpty id
  return { pool with bufferCount := pool.bufferCount + 1 }

/-- The free buffer that `new_buffer` takes, if there is one. -/
def takeFreed (pool : BufferPool α) (map : Nat) :
    Except TuxError (BufferPool α × Option Nat) :=
  match pool.freed with
  | [] => return (pool, none)
  | id :: _ => do
      let pool ← pool.haveBuffer map id
      return (pool, some id)

/-- `new_buffer` where there is no free buffer, after `expand buffer pool`. -/
def expandPool (pool : BufferPool α) (map : Nat) (malloc : Bool) :
    Except TuxError (BufferPool α × Option Nat) :=
  if pool.bufferCount = pool.maxBuffers ∨ malloc = false then return (pool, none)
  else do
    let id := pool.allocated
    let pool ← { pool with allocated := pool.allocated + 1 }.haveBuffer map id
    return (pool, some id)

/-- `new_buffer`; `none` is `-ENOMEM`, `malloc` tells whether there is memory for more buffers. -/
def newBuffer (pool : BufferPool α) (map : Nat) (malloc : Bool) :
    Except TuxError (BufferPool α × Option Nat) := do
  if pool.freed ≠ [] then pool.takeFreed map
  else
    let pool ← if pool.bufferCount ≥ pool.maxBuffers then pool.evictLoop pool.lru 0
      else pure pool
    if pool.freed ≠ [] then pool.takeFreed map else pool.expandPool map malloc

/-- The buffer of a block on the hash. -/
def find (pool : BufferPool α) (map block : Nat) : Except TuxError (Option Nat) := do
  let bucket ← bucketOf block
  return (pool.hash map bucket).find? fun id => (pool.buffers id).index = block

/-- `peekblk`. -/
def peekblk (pool : BufferPool α) (map block : Nat) :
    Except TuxError (BufferPool α × Option Nat) := do
  match ← pool.find map block with
  | none => return (pool, none)
  | some id =>
      let pool ← pool.getBh id
      return (pool, some id)

/-- `blockget` of a block that has no buffer. -/
def insertNew (pool : BufferPool α) (map block : Nat) (malloc : Bool) :
    Except TuxError (BufferPool α × Option Nat) := do
  let (pool, buffer) ← pool.newBuffer map malloc
  match buffer with
  | none => return (pool, none)
  | some id =>
      let pool := pool.set id { pool.buffers id with index := block }
      let pool ← pool.insertHash map id
      return (pool, some id)

/-- `blockget`. -/
def blockget (pool : BufferPool α) (map block : Nat) (malloc : Bool) :
    Except TuxError (BufferPool α × Option Nat) := do
  match ← pool.find map block with
  | some id =>
      let pool := { pool with lru := pool.lru.filter (· ≠ id) ++ [id] }
      let pool ← pool.getBh id
      return (pool, some id)
  | none => pool.insertNew map block malloc

/-- `blockread`: `block` is what the volume has at this block, `none` that it cannot be read. -/
def blockread (pool : BufferPool α) (map block : Nat) (malloc : Bool) (stored : Option α) :
    Except TuxError (BufferPool α × Option Nat) := do
  let (pool, buffer) ← pool.blockget map block malloc
  match buffer with
  | none => return (pool, none)
  | some id =>
      if (pool.buffers id).state = bufferEmpty then
        match stored with
        | none =>
            let pool ← pool.blockput id
            return (pool, none)
        | some data =>
            let pool := pool.set id { pool.buffers id with data := data }
            let pool ← pool.setClean id
            return (pool, some id)
      else return (pool, some id)

/-! ## Dirty buffers -/

/-- `__tux3_mark_buffer_dirty`. -/
def markDirty (pool : BufferPool α) (map id delta : Nat) : BufferPool α :=
  if (pool.buffers id).isDirty = true then pool else pool.setDirty map id delta

/-- `blockdirty`; `none` is the error of `new_buffer`. -/
def blockdirty (pool : BufferPool α) (id newdelta : Nat) (malloc : Bool) :
    Except TuxError (BufferPool α × Option Nat) := do
  tuxAssert ((pool.buffers id).state < bufferStates)
  match (pool.buffers id).map with
  | none => .error .bounds
  | some map =>
      if (pool.buffers id).isDirty = true then
        if (pool.buffers id).alreadyDirty newdelta = true then return (pool, some id)
        else
          let (pool, buffer) ← pool.newBuffer map malloc
          match buffer with
          | none => return (pool, none)
          | some clone =>
              let pool := pool.set clone { pool.buffers clone with
                data := (pool.buffers id).data, index := (pool.buffers id).index }
              let pool ← pool.removeHash id
              let pool ← pool.insertHash map clone
              return (pool.markDirty map clone newdelta, some clone)
      else return (pool.markDirty map id newdelta, some id)

/-- `clear_buffer_dirty_for_endio`, of an I/O without an error. -/
def endio (pool : BufferPool α) (id : Nat) : Except TuxError (BufferPool α) := do
  let forked := (pool.buffers id).hashed = false
  let pool ← pool.setClean id
  if forked then pool.blockput id else return pool

end BufferPool

end Tux3
