/-
  Shard/Directory.lean --- the directory over the shards.

  The hash of a name leads to the blocks that may have its record, and each is searched for it.
  A new record goes behind the last one.
-/
import Tux3.Shard.Dirent
import Tux3.Shard.Map

set_option autoImplicit false

namespace Tux3

/-! ## The file -/

/-- A directory: its map, `map->base`, `dir_tail`, and the blocks of its file below the base. -/
structure HashDir where
  map : Shardmap
  base : Nat
  tail : Nat
  data : Nat → DirBuffer

/-- The block at the offset that `get_block` computes in 32 bits. -/
def mappedBlock (block : Nat) : Nat := block * dirBlocksize % 2 ^ 32 / dirBlocksize

/-- `get_block`. -/
def HashDir.getBlock (dir : HashDir) (block : Nat) : DirBuffer := dir.data (mappedBlock block)

/-- A store to the block that `get_block` maps. -/
def HashDir.putBlock (dir : HashDir) (block : Nat) (buffer : DirBuffer) : HashDir :=
  { dir with data := Function.update dir.data (mappedBlock block) buffer }

/-- The directory with its map changed. -/
def HashDir.withMap (dir : HashDir) (map : Shardmap) : HashDir := { dir with map := map }

/-- Where the records of a block begin: those of the first one are behind the head. -/
def dirStart (block : Nat) : Nat := if block = 0 then dirheadSize else 0

/-- `find_dirent`. -/
def findDirent (dir : HashDir) (block : Nat) (name : List UInt8) :
    Except TuxError (Option Nat) := do
  tuxAssert (name.length ≤ 255)
  findDirentLoop (dir.getBlock block) name (dirBlocksize + 1) (dirStart block)

/-! ## Operations -/

/-- The key of a name, within `map_keymask`. -/
def HashDir.key (siphash : List UInt8 → Nat) (dir : HashDir) (name : List UInt8) : Nat :=
  siphash name % 2 ^ (dir.map.mapbits + dir.map.shardbits)

/-- The paranoia limit of the loops over `shard_probe`. -/
def probeLimit : Nat := 9999

/-- The loop over `shard_probe`: the block of the record that is found, and its place there. -/
def direntProbe (dir : HashDir) (shard : Shard) (key : Nat) (name : List UInt8) :
    Nat → Nat → Except TuxError (Option (Nat × Nat))
  | 0, _ => return none
  | n + 1, next => do
      let (block, next) ← shardProbe shard key next
      if block = noblock then return none
      else
        match ← findDirent dir block name with
        | some p => return some (block, p)
        | none => if next = 0 then return none else direntProbe dir shard key name n next

/-- The search for a name that all operations begin with. -/
def direntSearch (dir : HashDir) (key : Nat) (name : List UInt8) :
    Except TuxError (HashDir × Shard × Option (Nat × Nat)) := do
  let (map, shard) ← mapShard dir.map (key / 2 ^ dir.map.shardbits)
  let found ← direntProbe (dir.withMap map) shard (key % 2 ^ dir.map.shardbits) name probeLimit 0
  return (dir.withMap map, shard, found)

/-- The block of the next record: a new one where the last has no room. -/
def HashDir.makeRoom (dir : HashDir) (need : Nat) : HashDir × Nat :=
  let lastBlock := dir.tail / dirBlocksize % 2 ^ 32
  let room := ((dirBlocksize : Int) - (dir.tail - (lastBlock * dirBlocksize % 2 ^ 32 : Nat))) %
    2 ^ 32
  if (need : Int) > room then
    let lastBlock := (lastBlock + 1) % 2 ^ 32
    let dir := dir.putBlock lastBlock fun _ => 0
    ({ dir with tail := lastBlock * dirBlocksize % 2 ^ 32 }, lastBlock)
  else (dir, lastBlock)

/-- A record is appended; the number is that of its block. -/
def HashDir.append (dir : HashDir) (name : List UInt8) (ino : Nat) : HashDir × Nat :=
  let need := direntSize + name.length
  let (dir, lastBlock) := dir.makeRoom need
  let buffer := writeText (dir.getBlock lastBlock) (dir.tail % dirBlocksize) (direntBytes ino name)
  let dir := dir.putBlock lastBlock buffer
  ({ dir with tail := dir.tail + need }, lastBlock)

/-- `entry_create`; the number is the `errno` with which it exits, or 0. -/
def entryCreate (siphash : List UInt8 → Nat) (dir : HashDir) (name : List UInt8) (ino : Nat) :
    Except TuxError (HashDir × Int) := do
  let key := dir.key siphash name
  let (dir, _, found) ← direntSearch dir key name
  match found with
  | some _ => return (dir, eexist)
  | none =>
      let (dir, lastBlock) := dir.append name ino
      let (map, _) ← mapInsert dir.map key lastBlock
      return (dir.withMap map, 0)

/-- `entry_delete`; the number is the `errno` with which it exits, or 0. -/
def entryDelete (siphash : List UInt8 → Nat) (dir : HashDir) (name : List UInt8) :
    Except TuxError (HashDir × Int) := do
  let key := dir.key siphash name
  let (dir, shard, found) ← direntSearch dir key name
  match found with
  | none => return (dir, enoent)
  | some (block, p) =>
      let (shard, _) ← shardDelete shard (key % 2 ^ dir.map.shardbits) block
      let buffer := writeText (dir.getBlock block) (p + direntSize) [0]
      let dir := dir.putBlock block buffer
      return (dir.withMap (dir.map.putShard (key / 2 ^ dir.map.shardbits) shard), 0)

/-- `entry_lookup`, whose key is a 32 bit number; `none` is an exit with `ENOENT`. -/
def entryLookup (siphash : List UInt8 → Nat) (dir : HashDir) (name : List UInt8) :
    Except TuxError (HashDir × Option Nat) := do
  let key := dir.key siphash name % 2 ^ 32
  let (dir, _, found) ← direntSearch dir key name
  match found with
  | none => return (dir, none)
  | some (block, p) => return (dir, some (direntIno (dir.getBlock block) p))

/-! ## The search -/

section

open Outcome (bind_of_ok)

variable {dir : HashDir} {shard : Shard} {key : Nat} {name : List UInt8}

theorem mappedBlock_of_lt {block : Nat} (h : block < 2 ^ 20) : mappedBlock block = block := by
  unfold mappedBlock dirBlocksize
  omega

/-- The first of some blocks with a record of the name. -/
def firstDirent (find : Nat → Option Nat) : List Nat → Option (Nat × Nat)
  | [] => none
  | block :: blocks =>
      match find block with
      | some p => some (block, p)
      | none => firstDirent find blocks

/-- The loop goes over the blocks of the key, up to its limit. -/
theorem direntProbe_eq {find : Nat → Option Nat} {blocks : List Nat} {fuel next n : Nat}
    (hprobe : probeAll shard key fuel next = .ok blocks) (hlen : blocks.length ≤ n)
    (hfind : ∀ block ∈ blocks, findDirent dir block name = .ok (find block)) :
    direntProbe dir shard key name n next = .ok (firstDirent find blocks) := by
  induction fuel generalizing next n blocks with
  | zero => exact nomatch hprobe
  | succ fuel ih =>
      rw [probeAll] at hprobe
      obtain ⟨⟨block, next'⟩, hone, hprobe⟩ := Outcome.bind_eq_ok.mp hprobe
      dsimp only at hprobe
      cases n with
      | zero =>
          obtain rfl := List.eq_nil_of_length_eq_zero (Nat.le_zero.mp hlen)
          rfl
      | succ n =>
          rw [direntProbe, bind_of_ok hone]
          dsimp only
          by_cases hnone : block = noblock
          · rw [if_pos hnone] at hprobe ⊢
            obtain rfl := Except.ok.inj hprobe
            rfl
          · rw [if_neg hnone] at hprobe ⊢
            by_cases hlast : next' = 0
            · rw [if_pos hlast] at hprobe
              obtain rfl := Except.ok.inj hprobe
              rw [bind_of_ok (hfind block List.mem_cons_self), firstDirent]
              cases find block with
              | some p => rfl
              | none =>
                  dsimp only
                  rw [if_pos hlast]
                  rfl
            · rw [if_neg hlast] at hprobe
              obtain ⟨rest, hrest, hprobe⟩ := Outcome.bind_eq_ok.mp hprobe
              obtain rfl := Except.ok.inj hprobe
              rw [bind_of_ok (hfind block List.mem_cons_self), firstDirent]
              cases find block with
              | some p => rfl
              | none =>
                  dsimp only
                  rw [if_neg hlast]
                  exact ih hrest (Nat.le_of_succ_le_succ hlen)
                    fun b hb => hfind b (List.mem_cons_of_mem _ hb)

theorem firstDirent_eq_none {find : Nat → Option Nat} {blocks : List Nat}
    (h : ∀ block ∈ blocks, find block = none) : firstDirent find blocks = none := by
  induction blocks with
  | nil => rfl
  | cons block blocks ih =>
      rw [firstDirent, h block List.mem_cons_self]
      exact ih fun b hb => h b (List.mem_cons_of_mem _ hb)

/-- Only one block has a record of the name. -/
theorem firstDirent_eq_some {find : Nat → Option Nat} {blocks : List Nat} {block p : Nat}
    (hmem : block ∈ blocks) (hfound : find block = some p)
    (hother : ∀ b ∈ blocks, b ≠ block → find b = none) :
    firstDirent find blocks = some (block, p) := by
  induction blocks with
  | nil => exact absurd hmem List.not_mem_nil
  | cons b blocks ih =>
      by_cases hb : b = block
      · rw [firstDirent, hb, hfound]
      · rw [firstDirent, hother b List.mem_cons_self hb]
        refine ih ?_ fun c hc => hother c (List.mem_cons_of_mem _ hc)
        exact (List.mem_cons.mp hmem).resolve_left (Ne.symm hb)

end

end Tux3
