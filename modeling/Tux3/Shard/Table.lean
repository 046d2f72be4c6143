/-
  Shard/Table.lean --- a shard of the directory index.

  A shard is a hash table whose buckets are the first entries of the table themselves; an entry
  packs the low bits of its key, a block and the link to the next entry of its bucket.  Each
  change also goes to the fifo of the shard, which is mapped one window at a time.
-/
import Mathlib.Logic.Function.Basic
import Tux3.Volume

set_option autoImplicit false

namespace Tux3

/-! ## Entries -/

/-- `keybits`. -/
def keybits : Nat := 32

/-- `SHARD_NEXTBITS`. -/
def shardNextbits : Nat := 24

/-- `endlist`. -/
def endlist : Nat := 0

/-- `noentry`: the link of an empty bucket. -/
def noentry : Nat := 2 ^ shardNextbits - 1

/-- `-1`, as the block that `shard_probe` returns. -/
def noblock : Nat := 2 ^ 32 - 1

/-- `struct shard`: `size` is in entries, `head` and `fence` in bytes of the fifo, `fifoTail` and
`fifoTop` in entries of its window; `fifo` are the entries that were appended. -/
structure Shard where
  size : Nat
  head : Nat
  fence : Nat
  count : Nat
  bucketbits : Nat
  lowbits : Nat
  used : Nat
  free : Nat
  fifoTail : Nat
  fifoTop : Nat
  fifo : List Nat
  table : Nat → Nat

/-- `shard_buckets`. -/
def Shard.buckets (shard : Shard) : Nat := 2 ^ shard.bucketbits

/-- `blockbits`. -/
def Shard.blockbits (shard : Shard) : Nat := keybits - shard.lowbits

/-- The bucket of a key. -/
def Shard.bucket (shard : Shard) (key : Nat) : Nat := key / 2 ^ shard.lowbits

/-- The bits of a key that its entry holds: those of `lowmask`. -/
def Shard.lowkey (shard : Shard) (key : Nat) : Nat := key % 2 ^ shard.lowbits

/-- `entry_key`. -/
def Shard.entryKey (shard : Shard) (entry : Nat) : Nat :=
  entry / 2 ^ (shard.blockbits + shardNextbits)

/-- `entry_block`. -/
def Shard.entryBlock (shard : Shard) (entry : Nat) : Nat :=
  entry / 2 ^ shardNextbits % 2 ^ shard.blockbits

/-- `entry_next`. -/
def entryNext (entry : Nat) : Nat := entry % 2 ^ shardNextbits

/-- The word of `set_entry`. -/
def Shard.setEntry (shard : Shard) (lowkey block next : Nat) : Nat :=
  (lowkey * 2 ^ shard.blockbits ||| block) * 2 ^ shardNextbits ||| next

/-- The word of `set_entry_next`. -/
def setEntryNext (entry next : Nat) : Nat :=
  entry / 2 ^ shardNextbits * 2 ^ shardNextbits ||| next

section

variable {shard : Shard} {lowkey block next entry : Nat}

theorem setEntryNext_eq (hnext : next < 2 ^ shardNextbits) :
    setEntryNext entry next = entry / 2 ^ shardNextbits * 2 ^ shardNextbits + next := by
  unfold setEntryNext
  rw [← Nat.shiftLeft_eq, ← Nat.shiftLeft_add_eq_or_of_lt hnext]

theorem setEntry_eq (hblock : block < 2 ^ shard.blockbits) (hnext : next < 2 ^ shardNextbits) :
    shard.setEntry lowkey block next =
      (lowkey * 2 ^ shard.blockbits + block) * 2 ^ shardNextbits + next := by
  unfold Shard.setEntry
  rw [← Nat.shiftLeft_eq lowkey, ← Nat.shiftLeft_add_eq_or_of_lt hblock, ← Nat.shiftLeft_eq,
    ← Nat.shiftLeft_add_eq_or_of_lt hnext]

theorem mul_add_div {a m b : Nat} (h : b < m) : (a * m + b) / m = a := by
  rw [Nat.mul_comm, Nat.mul_add_div (Nat.zero_lt_of_lt h), Nat.div_eq_of_lt h, Nat.add_zero]

theorem entryNext_setEntry (hblock : block < 2 ^ shard.blockbits)
    (hnext : next < 2 ^ shardNextbits) :
    entryNext (shard.setEntry lowkey block next) = next := by
  unfold entryNext
  rw [setEntry_eq hblock hnext, Nat.mul_add_mod', Nat.mod_eq_of_lt hnext]

theorem entryBlock_setEntry (hblock : block < 2 ^ shard.blockbits)
    (hnext : next < 2 ^ shardNextbits) :
    shard.entryBlock (shard.setEntry lowkey block next) = block := by
  unfold Shard.entryBlock
  rw [setEntry_eq hblock hnext, mul_add_div hnext, Nat.mul_add_mod', Nat.mod_eq_of_lt hblock]

theorem entryKey_setEntry (hblock : block < 2 ^ shard.blockbits)
    (hnext : next < 2 ^ shardNextbits) :
    shard.entryKey (shard.setEntry lowkey block next) = lowkey := by
  unfold Shard.entryKey
  rw [setEntry_eq hblock hnext, Nat.add_comm shard.blockbits, Nat.pow_add,
    ← Nat.div_div_eq_div_mul, mul_add_div hnext, mul_add_div hblock]

theorem entryNext_setEntryNext (hnext : next < 2 ^ shardNextbits) :
    entryNext (setEntryNext entry next) = next := by
  unfold entryNext
  rw [setEntryNext_eq hnext, Nat.mul_add_mod', Nat.mod_eq_of_lt hnext]

theorem entryBlock_setEntryNext (hnext : next < 2 ^ shardNextbits) :
    shard.entryBlock (setEntryNext entry next) = shard.entryBlock entry := by
  unfold Shard.entryBlock
  rw [setEntryNext_eq hnext, mul_add_div hnext]

theorem entryKey_setEntryNext (hnext : next < 2 ^ shardNextbits) :
    shard.entryKey (setEntryNext entry next) = shard.entryKey entry := by
  unfold Shard.entryKey
  rw [Nat.add_comm shard.blockbits, Nat.pow_add, ← Nat.div_div_eq_div_mul, setEntryNext_eq hnext,
    mul_add_div hnext, Nat.div_div_eq_div_mul]

end

/-! ## Operations -/

/-- `*shard_entry`, within the memory of the shard. -/
def Shard.entry (shard : Shard) (i : Nat) : Except TuxError Nat :=
  if i < shard.size then .ok (shard.table i) else .error .bounds

/-- A store to `*shard_entry`. -/
def Shard.putEntry (shard : Shard) (i entry : Nat) : Except TuxError Shard :=
  if i < shard.size then .ok { shard with table := Function.update shard.table i entry }
  else .error .bounds

/-- The loop of `shard_probe`: the block that is returned and `*next`. -/
def shardProbeLoop (shard : Shard) (lowkey next : Nat) : Nat → Nat → Except TuxError (Nat × Nat)
  | 0, _ => .error .fuel
  | fuel + 1, link => do
      let entry ← shard.entry link
      if shard.entryKey entry = lowkey then return (shard.entryBlock entry, entryNext entry)
      else if entryNext entry ≠ endlist then
        shardProbeLoop shard lowkey next fuel (entryNext entry)
      else return (noblock, next)

/-- `shard_probe`. -/
def shardProbe (shard : Shard) (key next : Nat) : Except TuxError (Nat × Nat) := do
  tuxAssert (shard.bucket key < shard.buckets)
  let head ← shard.entry (shard.bucket key)
  if entryNext head = noentry then return (noblock, next)
  else
    shardProbeLoop shard (shard.lowkey key) next (shard.size + 1)
      (if next ≠ 0 then next else shard.bucket key)

/-- `entry_free`. -/
def entryFree (shard : Shard) (free : Nat) : Except TuxError Shard := do
  tuxAssert (shard.buckets ≤ free)
  let entry ← shard.entry free
  let shard ← shard.putEntry free (setEntryNext entry shard.free)
  return { shard with free := free }

/-- The bytes of the fifo that are mapped. -/
def fifoWindow : Nat := 2 ^ 13

/-- `fifo_advance`. -/
def fifoAdvance (shard : Shard) : Except TuxError Shard := do
  let head := shard.head + fifoWindow
  tuxAssert (head < shard.fence)
  return { shard with head := head, fifoTail := 0, fifoTop := fifoWindow / 8 }

/-- The word of `set_fentry`. -/
def setFentry (block insert key : Nat) : Nat := ((key * 2 ^ 23 ||| block) * 2 ||| insert) % 2 ^ 64

/-- `fifo_append`. -/
def fifoAppend (shard : Shard) (key block insert : Nat) : Except TuxError Shard := do
  tuxAssert (shard.fifoTail < shard.fifoTop)
  return { shard with
    fifoTail := shard.fifoTail + 1, fifo := shard.fifo ++ [setFentry block insert key] }

/-- The entry that `shard_insert_no_fifo` moves the head of a bucket to: a free entry or an
unused one.  `none` is a shard that is out of entries. -/
def takeEntry (shard : Shard) : Except TuxError (Option (Shard × Nat)) :=
  if shard.free ≠ 0 then do
    let entry ← shard.entry shard.free
    return some ({ shard with free := entryNext entry }, shard.free)
  else if shard.used = shard.size then return none
  else return some ({ shard with used := shard.used + 1 }, shard.used)

/-- `shard_insert_no_fifo`. -/
def shardInsertNoFifo (shard : Shard) (key block : Nat) : Except TuxError (Shard × Nat) := do
  tuxAssert ((block + 1) % 2 ^ 32 < 2 ^ shard.blockbits)
  let bucket := shard.bucket key
  tuxAssert (bucket < shard.buckets)
  let head ← shard.entry bucket
  if entryNext head = noentry then
    let shard ← shard.putEntry bucket (shard.setEntry (shard.lowkey key) block endlist)
    return (shard, 0)
  else
    match ← takeEntry shard with
    | none => return (shard, 1)
    | some (shard, next) =>
        let shard ← shard.putEntry next head
        let shard ← shard.putEntry bucket (shard.setEntry (shard.lowkey key) block next)
        return (shard, 0)

/-- The window of the fifo is advanced at its end. -/
def fifoRoom (shard : Shard) : Except TuxError Shard :=
  if shard.fifoTail = shard.fifoTop then fifoAdvance shard else return shard

/-- `shard_insert`, which does not look at the result of `shard_insert_no_fifo`. -/
def shardInsert (shard : Shard) (key block : Nat) : Except TuxError (Shard × Nat) := do
  let shard ← fifoRoom shard
  let (shard, _) ← shardInsertNoFifo shard key block
  let shard ← fifoAppend shard key block 1
  return ({ shard with count := shard.count + 1 }, 0)

/-- The loop of `shard_delete`, up to `append`; `none` is an entry that was not found. -/
def shardDeleteLoop (shard : Shard) (lowkey block : Nat) :
    Nat → Nat → Option Nat → Except TuxError (Option Shard)
  | 0, _, _ => .error .fuel
  | fuel + 1, link, prev => do
      let entry ← shard.entry link
      if shard.entryKey entry = lowkey ∧ shard.entryBlock entry = block then
        match prev with
        | none =>
            let kill := entryNext entry
            if kill = endlist then
              let shard ← shard.putEntry link (shard.setEntry 0 0 noentry)
              return some shard
            else
              let second ← shard.entry kill
              let shard ← shard.putEntry link second
              let shard ← entryFree shard kill
              return some shard
        | some prev =>
            let before ← shard.entry prev
            let kill := entryNext before
            let shard ← shard.putEntry prev (setEntryNext before (entryNext entry))
            let shard ← entryFree shard kill
            return some shard
      else if entryNext entry = endlist then return none
      else shardDeleteLoop shard lowkey block fuel (entryNext entry) (some link)

/-- `shard_delete`. -/
def shardDelete (shard : Shard) (key block : Nat) : Except TuxError (Shard × Nat) := do
  tuxAssert (shard.bucket key < shard.buckets)
  let head ← shard.entry (shard.bucket key)
  if entryNext head = noentry then return (shard, 1)
  else
    match ← shardDeleteLoop shard (shard.lowkey key) block (shard.size + 1) (shard.bucket key)
      none with
    | none => return (shard, 1)
    | some shard =>
        let shard ← fifoRoom shard
        let shard ← fifoAppend shard key block 0
        return ({ shard with count := shard.count - 1 }, 0)

/-- `new_shard`; `junk` is what the memory has beyond the buckets. -/
def newShard (junk : Nat → Nat) (size fence bucketbits lowbits : Nat) : Shard :=
  let shard : Shard := ⟨size, 0, fence, 0, bucketbits, lowbits, 2 ^ bucketbits, 0, 0, 0, [], junk⟩
  { shard with
    table := fun i => if i < shard.buckets then shard.setEntry 0 0 noentry else junk i }

/-- `shard_mmap_window`, of a new shard. -/
def mapWindow (shard : Shard) : Shard :=
  { shard with fifoTail := 0, fifoTop := fifoWindow / 8 }

end Tux3
