/-
  Shard/Map.lean --- the map of the shards.

  The high bits of a key select the shard, which is made when it is first needed.  As long as no
  insert meets a shard without an entry for it and no fifo comes to its fence, the map holds
  exactly the pairs that were inserted and not deleted.
-/
import Mathlib.Tactic.IntervalCases
import Tux3.Lib.System
import Tux3.Shard.Spec

set_option autoImplicit false

namespace Tux3

/-! ## Operations -/

/-- `struct shardmap`; `junk` is what the memory of a new shard has. -/
structure Shardmap where
  mapbits : Nat
  shardbits : Nat
  lowbits : Nat
  junk : Nat → Nat
  table : Nat → Option Shard

/-- `align`, of unsigned numbers. -/
def align (n maskbits : Nat) : Nat := (n + (2 ^ 32 - n) % 2 ^ maskbits) % 2 ^ 32

/-- `map->fencebits`. -/
def Shardmap.fencebits (map : Shardmap) : Nat := max 13 (map.shardbits - map.lowbits + 6)

/-- The entries of a new shard. -/
def Shardmap.shardSize (map : Shardmap) : Nat :=
  align (8 * 2 ^ (map.shardbits - map.lowbits + 1) % 2 ^ 32) 9

/-- `map_populate`. -/
def mapPopulate (map : Shardmap) (i : Nat) : Except TuxError (Shardmap × Shard) := do
  tuxAssert (map.table i = none)
  tuxAssert (map.shardSize ≤ 2 ^ map.fencebits)
  let shard := newShard map.junk map.shardSize (2 ^ map.fencebits) (map.shardbits - map.lowbits)
    map.lowbits
  return ({ map with table := Function.update map.table i (some shard) }, shard)

/-- `populate_and_map`. -/
def populateAndMap (map : Shardmap) (i : Nat) : Except TuxError (Shardmap × Shard) := do
  let (map, shard) ← mapPopulate map i
  let shard := mapWindow shard
  return ({ map with table := Function.update map.table i (some shard) }, shard)

/-- The shard of a key, which is made if there is none. -/
def mapShard (map : Shardmap) (i : Nat) : Except TuxError (Shardmap × Shard) :=
  match map.table i with
  | none => populateAndMap map i
  | some shard => return (map, shard)

/-- `map_probe`. -/
def mapProbe (map : Shardmap) (key next : Nat) : Except TuxError (Shardmap × Nat × Nat) := do
  tuxAssert (key < 2 ^ (map.mapbits + map.shardbits))
  let (map, shard) ← mapShard map (key / 2 ^ map.shardbits)
  let (block, next) ← shardProbe shard (key % 2 ^ map.shardbits) next
  return (map, block, next)

/-- `map_insert`. -/
def mapInsert (map : Shardmap) (key block : Nat) : Except TuxError (Shardmap × Nat) := do
  tuxAssert (key < 2 ^ (map.mapbits + map.shardbits))
  let i := key / 2 ^ map.shardbits
  let (map, shard) ← mapShard map i
  let k := key % 2 ^ map.shardbits
  let (shard, fail) ← shardInsert shard k block
  if fail = 0 then return ({ map with table := Function.update map.table i (some shard) }, 0)
  else
    -- the shard is moved to a larger memory, but has its old size in the insert
    let newsize := shard.size * 2
    let (shard, fail) ← shardInsert shard k block
    tuxAssert (fail = 0)
    let shard := { shard with size := newsize }
    return ({ map with table := Function.update map.table i (some shard) }, 0)

/-- `map_delete`. -/
def mapDelete (map : Shardmap) (key block : Nat) : Except TuxError (Shardmap × Nat) := do
  tuxAssert (key < 2 ^ (map.mapbits + map.shardbits))
  let i := key / 2 ^ map.shardbits
  let (map, shard) ← mapShard map i
  let (shard, fail) ← shardDelete shard (key % 2 ^ map.shardbits) block
  return ({ map with table := Function.update map.table i (some shard) }, fail)

/-! ## New shards -/

/-- The bits of a key: a shard has at most `SHARD_NEXTSIZE` buckets. -/
structure Shardmap.BitsOk (map : Shardmap) : Prop where
  lowbits_le : map.lowbits ≤ map.shardbits
  shardbits_lt : map.shardbits < keybits
  bucketbits_le : map.shardbits - map.lowbits ≤ shardNextbits

section

variable {map : Shardmap} {key block i : Nat} {live : List (Nat × Nat)}

/-- A new shard has an entry for each bucket, and its fifo has a place for each entry. -/
theorem Shardmap.BitsOk.shardSize_bounds (h : map.BitsOk) :
    2 ^ (map.shardbits - map.lowbits) ≤ map.shardSize ∧ map.shardSize ≤ 2 ^ map.fencebits := by
  have hle := h.bucketbits_le
  unfold Shardmap.shardSize Shardmap.fencebits align
  unfold shardNextbits at hle
  generalize map.shardbits - map.lowbits = bits at hle ⊢
  interval_cases bits <;> decide

/-- The shards of a map: their bits are those of the map, and their fifo has its first window. -/
structure Shardmap.Shaped (map : Shardmap) (shard : Shard) : Prop where
  bucketbits : shard.bucketbits = map.shardbits - map.lowbits
  lowbits : shard.lowbits = map.lowbits

theorem Shardmap.Shaped.bucket_lt {shard : Shard} (h : map.Shaped shard) (hbits : map.BitsOk)
    (key : Nat) : shard.bucket (key % 2 ^ map.shardbits) < shard.buckets := by
  unfold Shard.bucket Shard.buckets
  rw [h.bucketbits, h.lowbits]
  refine Nat.div_lt_of_lt_mul ?_
  rw [← Nat.pow_add, Nat.add_sub_cancel' hbits.lowbits_le]
  exact Nat.mod_lt _ (Nat.two_pow_pos _)

theorem newShard_next {junk : Nat → Nat} {size fence bucketbits lowbits bucket : Nat}
    (hbucket : bucket < 2 ^ bucketbits) :
    (newShard junk size fence bucketbits lowbits).next bucket = noentry := by
  have hread : (newShard junk size fence bucketbits lowbits).table bucket =
      Shard.setEntry ⟨size, 0, fence, 0, bucketbits, lowbits, 2 ^ bucketbits, 0, 0, 0, [], junk⟩
        0 0 noentry := if_pos hbucket
  unfold Shard.next
  rw [hread]
  exact entryNext_setEntry (Nat.two_pow_pos _) (by decide)

/-- A new shard holds nothing. -/
theorem newShard_ok {junk : Nat → Nat} {size fence bucketbits lowbits : Nat}
    (hsize : 2 ^ bucketbits ≤ size) :
    ShardOk (newShard junk size fence bucketbits lowbits) (fun _ => []) [] [] where
  buckets_le := Nat.le_refl _
  used_le := hsize
  index_lt := fun i hle hlt => absurd (Nat.lt_of_le_of_lt hle hlt) (Nat.lt_irrefl _)
  chain := fun bucket hbucket => .inl ⟨rfl, newShard_next hbucket⟩
  free := rfl
  cover := by
    have hzero : (newShard junk size fence bucketbits lowbits).used -
        (newShard junk size fence bucketbits lowbits).buckets = 0 := Nat.sub_self _
    have hnil : ((List.range (newShard junk size fence bucketbits lowbits).buckets).flatMap
        fun _ => ([] : List Nat).tail) = [] := List.flatMap_eq_nil_iff.mpr fun _ _ => rfl
    rw [hzero, hnil]
    exact List.Perm.refl []
  holds := fun _ _ => List.Perm.refl []
  bucket_lt := fun pair hpair => absurd hpair List.not_mem_nil

/-! ## Runs -/

/-- The pairs of a shard, with their keys in it. -/
def Shardmap.part (map : Shardmap) (live : List (Nat × Nat)) (i : Nat) : List (Nat × Nat) :=
  (live.filter fun pair => pair.1 / 2 ^ map.shardbits = i).map fun pair =>
    (pair.1 % 2 ^ map.shardbits, pair.2)

/-- The map holds the pairs `live`, each in the shard of its key. -/
structure MapHolds (map : Shardmap) (live : List (Nat × Nat)) : Prop where
  bits : map.BitsOk
  shards : ∀ i shard, map.table i = some shard →
    map.Shaped shard ∧ shard.Holds (map.part live i)
  others : ∀ i, map.table i = none → map.part live i = []

theorem part_cons_self :
    map.part ((key, block) :: live) (key / 2 ^ map.shardbits) =
      (key % 2 ^ map.shardbits, block) :: map.part live (key / 2 ^ map.shardbits) := by
  unfold Shardmap.part
  rw [List.filter_cons_of_pos (by simp), List.map_cons]

theorem part_cons_ne (hne : i ≠ key / 2 ^ map.shardbits) :
    map.part ((key, block) :: live) i = map.part live i := by
  unfold Shardmap.part
  rw [List.filter_cons_of_neg (by simpa using Ne.symm hne)]

theorem part_perm {live' : List (Nat × Nat)} (h : live.Perm live') :
    (map.part live i).Perm (map.part live' i) :=
  (h.filter _).map _

/-- A pair of the map is one of its shard. -/
theorem mem_part_iff :
    (key % 2 ^ map.shardbits, block) ∈ map.part live (key / 2 ^ map.shardbits) ↔
      (key, block) ∈ live := by
  unfold Shardmap.part
  simp only [List.mem_map, List.mem_filter, Prod.mk.injEq, decide_eq_true_eq, Prod.exists]
  constructor
  · rintro ⟨k, b, ⟨hmem, hdiv⟩, hmod, rfl⟩
    have hk := Nat.div_add_mod k (2 ^ map.shardbits)
    rw [hdiv, hmod, Nat.div_add_mod] at hk
    rw [hk]
    exact hmem
  · intro hmem
    exact ⟨key, block, ⟨hmem, rfl⟩, rfl, rfl⟩

theorem blocksOf_part :
    blocksOf (map.part live (key / 2 ^ map.shardbits)) (key % 2 ^ map.shardbits) =
      blocksOf live key := by
  unfold blocksOf Shardmap.part
  rw [List.filter_map, List.map_map, List.filter_filter]
  refine congrArg₂ List.map rfl (List.filter_congr fun pair _ => ?_)
  have hk := Nat.div_add_mod pair.1 (2 ^ map.shardbits)
  have hk' := Nat.div_add_mod key (2 ^ map.shardbits)
  rw [Function.comp_apply, ← Bool.decide_and]
  refine decide_eq_decide.mpr ⟨fun heq => ?_, fun heq => ?_⟩
  · have hmod : pair.1 % 2 ^ map.shardbits = key % 2 ^ map.shardbits := heq.1
    rw [hmod, heq.2, hk'] at hk
    exact hk.symm
  · rw [heq]
    exact ⟨rfl, rfl⟩

/-- A map with one of its shards replaced. -/
def Shardmap.putShard (map : Shardmap) (i : Nat) (shard : Shard) : Shardmap :=
  { map with table := Function.update map.table i (some shard) }

theorem Shardmap.putShard_self (map : Shardmap) (i : Nat) (shard : Shard) :
    (map.putShard i shard).table i = some shard := by
  unfold Shardmap.putShard
  dsimp only
  rw [Function.update_self]

theorem MapHolds.putShard {live' : List (Nat × Nat)} {shard : Shard} (h : MapHolds map live)
    (hshaped : map.Shaped shard) (hholds : shard.Holds (map.part live' i))
    (hlive : ∀ j, j ≠ i → (map.part live' j).Perm (map.part live j)) :
    MapHolds (map.putShard i shard) live' := by
  obtain ⟨hlow, hshard, hbucket⟩ := h.bits
  refine ⟨⟨hlow, hshard, hbucket⟩, fun j s hs => ?_, fun j hj => ?_⟩
  · by_cases hij : j = i
    · subst hij
      have hself := map.putShard_self j shard
      obtain rfl := Option.some.inj (hself.symm.trans hs)
      exact ⟨⟨hshaped.bucketbits, hshaped.lowbits⟩, hholds⟩
    · have hother : (map.putShard i shard).table j = map.table j := Function.update_of_ne hij _ _
      rw [hother] at hs
      obtain ⟨hshaped', hholds'⟩ := h.shards j s hs
      exact ⟨⟨hshaped'.bucketbits, hshaped'.lowbits⟩, hholds'.perm (hlive j hij).symm⟩
  · by_cases hij : j = i
    · subst hij
      have hself := map.putShard_self j shard
      rw [hself] at hj
      exact absurd hj (Option.some_ne_none shard)
    · have hother : (map.putShard i shard).table j = map.table j := Function.update_of_ne hij _ _
      rw [hother] at hj
      have hperm := hlive j hij
      rw [h.others j hj] at hperm
      exact hperm.eq_nil

/-- The shard of a key holds the pairs of the map that are its own; a new one has room. -/
theorem mapShard_spec (h : MapHolds map live) (i : Nat) :
    ∃ shard, mapShard map i = .ok (map.putShard i shard, shard) ∧ map.Shaped shard ∧
      shard.Holds (map.part live i) ∧
      (map.table i = some shard ∨ map.table i = none ∧ shard.FifoRoom ∧
        ∀ key, shard.bucket key < shard.buckets → shard.HasRoom key) := by
  unfold mapShard
  cases htable : map.table i with
  | some shard =>
      obtain ⟨hshaped, hholds⟩ := h.shards i shard htable
      have hsame : Function.update map.table i (some shard) = map.table := by
        rw [← htable, Function.update_eq_self]
      refine ⟨shard, ?_, hshaped, hholds, .inl rfl⟩
      unfold Shardmap.putShard
      rw [hsame]
      rfl
  | none =>
      obtain ⟨hbuckets, hfence⟩ := h.bits.shardSize_bounds
      have hok := @newShard_ok map.junk map.shardSize (2 ^ map.fencebits)
        (map.shardbits - map.lowbits) map.lowbits hbuckets
      refine ⟨mapWindow (newShard map.junk map.shardSize (2 ^ map.fencebits)
        (map.shardbits - map.lowbits) map.lowbits), ?_, ⟨rfl, rfl⟩,
        ⟨⟨fun _ => [], [], ?_⟩, ?_, ?_, ⟨Nat.zero_le _, rfl⟩⟩, .inr ⟨rfl, .inl ?_, fun key hkey => .inl ?_⟩⟩
      · unfold populateAndMap mapPopulate Shardmap.putShard
        simp only [tuxAssert_of htable, tuxAssert_of hfence, bind, Except.bind, pure, Except.pure,
          Function.update_idem]
      · rw [h.others i htable]
        exact hok.congr ⟨rfl, rfl, rfl⟩ rfl rfl rfl
      · rw [h.others i htable]
        rfl
      · rw [h.others i htable]
        exact fun pair hpair => absurd hpair List.not_mem_nil
      · have hwindow : 0 ≠ fifoWindow / 8 := by decide
        exact hwindow
      · exact newShard_next hkey

/-- The keys of a map. -/
def Shardmap.KeyOk (map : Shardmap) (key : Nat) : Prop := key < 2 ^ (map.mapbits + map.shardbits)

/-- The blocks that an entry can hold. -/
def Shardmap.BlockOk (map : Shardmap) (block : Nat) : Prop :=
  block + 1 < 2 ^ (keybits - map.lowbits)

instance (map : Shardmap) (key : Nat) : Decidable (map.KeyOk key) :=
  inferInstanceAs (Decidable (_ < _))

instance (map : Shardmap) (block : Nat) : Decidable (map.BlockOk block) :=
  inferInstanceAs (Decidable (_ < _))

/-- The insert meets a shard that has an entry for it, and whose fifo is not at its fence. -/
def InsertFits (map : Shardmap) (key : Nat) : Prop :=
  ∀ shard, map.table (key / 2 ^ map.shardbits) = some shard →
    shard.HasRoom (key % 2 ^ map.shardbits) ∧ shard.FifoRoom

/-- A delete of a pair meets a shard whose fifo is not at its fence. -/
def DeleteFits (map : Shardmap) (live : List (Nat × Nat)) (key block : Nat) : Prop :=
  (key, block) ∈ live → ∀ shard, map.table (key / 2 ^ map.shardbits) = some shard →
    shard.FifoRoom

/-- An insert that fits adds its pair. -/
theorem mapInsert_spec (h : MapHolds map live) (hkey : map.KeyOk key) (hblock : map.BlockOk block)
    (hfits : InsertFits map key) :
    ∃ map', mapInsert map key block = .ok (map', 0) ∧ MapHolds map' ((key, block) :: live) := by
  obtain ⟨shard, hshard, hshaped, hholds, hnew⟩ := mapShard_spec h (key / 2 ^ map.shardbits)
  have hbucket := hshaped.bucket_lt h.bits key
  have hroom : shard.HasRoom (key % 2 ^ map.shardbits) ∧ shard.FifoRoom := by
    rcases hnew with htable | ⟨-, hfifo, hroom⟩
    · exact hfits shard htable
    · exact ⟨hroom _ hbucket, hfifo⟩
  have hblk : block + 1 < 2 ^ shard.blockbits := by
    unfold Shard.blockbits
    rw [hshaped.lowbits]
    exact hblock
  obtain ⟨shard', hinsert, hsame, -, hholds'⟩ :=
    shardInsert_spec hholds hbucket hblk hroom.1 hroom.2
  have hput : (map.putShard (key / 2 ^ map.shardbits) shard).putShard (key / 2 ^ map.shardbits)
      shard' = map.putShard (key / 2 ^ map.shardbits) shard' := by
    unfold Shardmap.putShard
    rw [Function.update_idem]
  refine ⟨map.putShard (key / 2 ^ map.shardbits) shard', ?_, h.putShard ?_ ?_ fun j hj => ?_⟩
  · have hkeys : key < 2 ^ (map.mapbits + map.shardbits) := hkey
    rw [← hput]
    unfold mapInsert
    simp only [tuxAssert_of hkeys, hshard, bind, Except.bind]
    have hbits : (map.putShard (key / 2 ^ map.shardbits) shard).shardbits = map.shardbits := rfl
    rw [hbits, hinsert]
    rfl
  · exact ⟨hsame.bucketbits.trans hshaped.bucketbits, hsame.lowbits.trans hshaped.lowbits⟩
  · rw [part_cons_self]
    exact hholds'
  · rw [part_cons_ne hj]

/-- A delete that fits takes one pair out, if it is there. -/
theorem mapDelete_spec (h : MapHolds map live) (hkey : map.KeyOk key)
    (hfits : DeleteFits map live key block) :
    ∃ map', mapDelete map key block = .ok (map', if (key, block) ∈ live then 0 else 1) ∧
      MapHolds map' (live.erase (key, block)) := by
  obtain ⟨shard, hshard, hshaped, hholds, hnew⟩ := mapShard_spec h (key / 2 ^ map.shardbits)
  have hbucket := hshaped.bucket_lt h.bits key
  have hroom : (key % 2 ^ map.shardbits, block) ∈ map.part live (key / 2 ^ map.shardbits) →
      shard.FifoRoom := by
    intro hmem
    rcases hnew with htable | ⟨-, hfifo, -⟩
    · exact hfits (mem_part_iff.mp hmem) shard htable
    · exact hfifo
  obtain ⟨shard', hdelete, hsame, -, hholds'⟩ := shardDelete_spec hholds hbucket hroom
  have hput : (map.putShard (key / 2 ^ map.shardbits) shard).putShard (key / 2 ^ map.shardbits)
      shard' = map.putShard (key / 2 ^ map.shardbits) shard' := by
    unfold Shardmap.putShard
    rw [Function.update_idem]
  refine ⟨map.putShard (key / 2 ^ map.shardbits) shard', ?_, h.putShard ?_ ?_ fun j hj => ?_⟩
  · have hkeys : key < 2 ^ (map.mapbits + map.shardbits) := hkey
    rw [← hput]
    unfold mapDelete
    simp only [tuxAssert_of hkeys, hshard, bind, Except.bind]
    have hbits : (map.putShard (key / 2 ^ map.shardbits) shard).shardbits = map.shardbits := rfl
    rw [hbits, hdelete]
    simp only [mem_part_iff]
    rfl
  · exact ⟨hsame.bucketbits.trans hshaped.bucketbits, hsame.lowbits.trans hshaped.lowbits⟩
  · by_cases hmem : (key, block) ∈ live
    · have hperm := @part_perm map (key / 2 ^ map.shardbits) _ _
        (List.perm_cons_erase hmem)
      rw [part_cons_self] at hperm
      have herase := hperm.erase (key % 2 ^ map.shardbits, block)
      rw [List.erase_cons_head] at herase
      exact hholds'.perm herase
    · have hpart : (key % 2 ^ map.shardbits, block) ∉
          map.part live (key / 2 ^ map.shardbits) := fun hpart => hmem (mem_part_iff.mp hpart)
      rw [List.erase_of_not_mem hpart] at hholds'
      rw [List.erase_of_not_mem hmem]
      exact hholds'
  · by_cases hmem : (key, block) ∈ live
    · have hperm := @part_perm map j _ _ (List.perm_cons_erase hmem)
      rw [part_cons_ne hj] at hperm
      exact hperm.symm
    · rw [List.erase_of_not_mem hmem]

/-- `shard_probe` of the shard of a key again and again, until there is no next entry. -/
def mapProbeAll (map : Shardmap) (key : Nat) : Except TuxError (List Nat) := do
  tuxAssert (key < 2 ^ (map.mapbits + map.shardbits))
  let (map, shard) ← mapShard map (key / 2 ^ map.shardbits)
  probeAll shard (key % 2 ^ map.shardbits) (shard.size + 1) 0

theorem mapProbeAll_spec (h : MapHolds map live) (hkey : map.KeyOk key) :
    ∃ blocks, mapProbeAll map key = .ok blocks ∧ blocks.Perm (blocksOf live key) := by
  obtain ⟨shard, hshard, hshaped, hholds, -⟩ := mapShard_spec h (key / 2 ^ map.shardbits)
  have hkeys : key < 2 ^ (map.mapbits + map.shardbits) := hkey
  obtain ⟨⟨cells, frees, hok⟩, -, hblocks, -⟩ := hholds
  obtain ⟨blocks, hprobe, hperm⟩ := shardProbe_spec hok hblocks (hshaped.bucket_lt h.bits key)
  rw [blocksOf_part] at hperm
  refine ⟨blocks, ?_, hperm⟩
  unfold mapProbeAll
  simp only [tuxAssert_of hkeys, hshard, bind, Except.bind]
  exact hprobe

end

/-- An insert into a full shard returns as if it had put its pair there. -/
theorem mapInsert_full {map : Shardmap} {key block : Nat} {live : List (Nat × Nat)} {shard : Shard}
    (h : MapHolds map live) (hkey : map.KeyOk key) (hblock : map.BlockOk block)
    (htable : map.table (key / 2 ^ map.shardbits) = some shard)
    (hfull : shard.Full (key % 2 ^ map.shardbits)) (hfifo : shard.FifoRoom) :
    ∃ map' shard', mapInsert map key block = .ok (map', 0) ∧
      map'.table (key / 2 ^ map.shardbits) = some shard' ∧ shard'.size = shard.size ∧
      shard'.count = shard.count + 1 ∧
      ∃ blocks, mapProbeAll map' key = .ok blocks ∧ blocks.Perm (blocksOf live key) := by
  obtain ⟨hshaped, hholds⟩ := h.shards _ _ htable
  have hbucket := hshaped.bucket_lt h.bits key
  have hkeys : key < 2 ^ (map.mapbits + map.shardbits) := hkey
  have hblk : block + 1 < 2 ^ shard.blockbits := by
    unfold Shard.blockbits
    rw [hshaped.lowbits]
    exact hblock
  obtain ⟨shard', hinsert, hsame, hcount, cells, frees, hok⟩ :=
    shardInsert_full hholds hbucket hblk hfull hfifo
  have hself := map.putShard_self (key / 2 ^ map.shardbits) shard'
  have hbucket' : shard'.bucket (key % 2 ^ map.shardbits) < shard'.buckets := by
    unfold Shard.bucket Shard.buckets
    rw [hsame.lowbits, hsame.bucketbits]
    exact hbucket
  have hblocks : ∀ pair ∈ map.part live (key / 2 ^ map.shardbits),
      pair.2 + 1 < 2 ^ shard'.blockbits := by
    unfold Shard.blockbits
    rw [hsame.lowbits]
    exact hholds.blocks
  obtain ⟨blocks, hprobe, hperm⟩ := shardProbe_spec hok hblocks hbucket'
  rw [blocksOf_part] at hperm
  refine ⟨map.putShard (key / 2 ^ map.shardbits) shard', shard', ?_, hself, hsame.size, ?_, blocks,
    ?_, hperm⟩
  · unfold mapInsert mapShard
    simp only [tuxAssert_of hkeys, htable, pure, Except.pure, bind, Except.bind, hinsert]
    rfl
  · rw [hcount, hholds.count]
  · have hbits : (map.putShard (key / 2 ^ map.shardbits) shard').shardbits = map.shardbits := rfl
    have hkeys' : key < 2 ^ ((map.putShard (key / 2 ^ map.shardbits) shard').mapbits +
      map.shardbits) := hkey
    unfold mapProbeAll mapShard
    simp only [tuxAssert_of hkeys', hbits, hself, pure, Except.pure, bind, Except.bind]
    exact hprobe

/-- A map in use, with the pairs that were inserted and not deleted. -/
structure MapRun where
  map : Shardmap
  live : List (Nat × Nat)

/-- The calls of a map. -/
inductive MapCall where
  | insert (key block : Nat)
  | delete (key block : Nat)

/-- The key and the block are in range. -/
def MapCall.Valid (map : Shardmap) : MapCall → Prop
  | .insert key block => map.KeyOk key ∧ map.BlockOk block
  | .delete key block => map.KeyOk key ∧ map.BlockOk block

/-- The call meets a shard with an entry for an insert, and with room in its fifo. -/
def MapCall.Fits (s : MapRun) : MapCall → Prop
  | .insert key _ => InsertFits s.map key
  | .delete key block => DeleteFits s.map s.live key block

/-- The pairs after a call. -/
def MapCall.live (live : List (Nat × Nat)) : MapCall → List (Nat × Nat)
  | .insert key block => (key, block) :: live
  | .delete key block => live.erase (key, block)

/-- What a call returns: a delete of a pair that is not there fails. -/
def MapCall.result (live : List (Nat × Nat)) : MapCall → Nat
  | .insert _ _ => 0
  | .delete key block => if (key, block) ∈ live then 0 else 1

/-- A call. -/
def MapCall.exec (map : Shardmap) : MapCall → Except TuxError (Shardmap × Nat)
  | .insert key block => mapInsert map key block
  | .delete key block => mapDelete map key block

/-- The runs of a map whose calls fit. -/
def mapSystem : System MapRun where
  init s := s.map.BitsOk ∧ (∀ i, s.map.table i = none) ∧ s.live = []
  next s s' := ∃ call ret, call.Valid s.map ∧ MapCall.Fits s call ∧
    call.exec s.map = .ok (s'.map, ret) ∧ s'.live = call.live s.live

/-- A map that holds its pairs: each key is probed for its blocks, the chains and the free entries
of a shard are disjoint and have all its entries, its count is that of its pairs, and the calls
that fit return. -/
structure MapSound (s : MapRun) : Prop where
  probe : ∀ key, s.map.KeyOk key →
    ∃ blocks, mapProbeAll s.map key = .ok blocks ∧ blocks.Perm (blocksOf s.live key)
  chains : ∀ i shard, s.map.table i = some shard →
    ∃ cells frees, ShardOk shard cells frees (s.map.part s.live i)
  count : ∀ i shard, s.map.table i = some shard →
    shard.count = (s.live.filter fun pair => pair.1 / 2 ^ s.map.shardbits = i).length
  calls : ∀ call, MapCall.Valid s.map call → MapCall.Fits s call →
    ∃ map', call.exec s.map = .ok (map', call.result s.live)

theorem MapCall.exec_spec {s : MapRun} {call : MapCall} (h : MapHolds s.map s.live)
    (hvalid : call.Valid s.map) (hfits : call.Fits s) :
    ∃ map', call.exec s.map = .ok (map', call.result s.live) ∧ MapHolds map' (call.live s.live) := by
  cases call with
  | insert key block => exact mapInsert_spec h hvalid.1 hvalid.2 hfits
  | delete key block => exact mapDelete_spec h hvalid.1 hfits

theorem mapSystem_holds {s : MapRun} (h : mapSystem.Reachable s) : MapHolds s.map s.live := by
  refine h.invariant (I := fun s => MapHolds s.map s.live) ?_ ?_
  · rintro s ⟨hbits, htable, hlive⟩
    refine ⟨hbits, fun i shard hi => ?_, fun i _ => ?_⟩
    · rw [htable i] at hi
      exact absurd hi.symm (Option.some_ne_none shard)
    · rw [hlive]
      rfl
  · rintro s s' hholds ⟨call, ret, hvalid, hfits, hexec, hlive⟩
    obtain ⟨map', heq, hholds'⟩ := MapCall.exec_spec hholds hvalid hfits
    rw [hexec] at heq
    obtain ⟨hmap, -⟩ := Prod.mk.inj (Except.ok.inj heq)
    rw [hlive, hmap]
    exact hholds'

/-- In every run whose calls fit, the map holds exactly the pairs that were inserted and not
deleted. -/
theorem mapSystem_sound {s : MapRun} (h : mapSystem.Reachable s) : MapSound s := by
  have hholds := mapSystem_holds h
  refine ⟨fun key hkey => mapProbeAll_spec hholds hkey, fun i shard hi => ?_,
    fun i shard hi => ?_, fun call hvalid hfits => ?_⟩
  · exact (hholds.shards i shard hi).2.chains
  · have hcount := (hholds.shards i shard hi).2.count
    unfold Shardmap.part at hcount
    rw [List.length_map] at hcount
    exact hcount
  · obtain ⟨map', heq, -⟩ := MapCall.exec_spec hholds hvalid hfits
    exact ⟨map', heq⟩

/-- A map without any shard yet. -/
def newMap (mapbits shardbits lowbits : Nat) : Shardmap :=
  ⟨mapbits, shardbits, lowbits, fun _ => 0, fun _ => none⟩

/-- A map with two pairs in two buckets, one of them deleted again. -/
theorem mapSystem_sound_deleted : ∃ s, s.live = [(64, 9)] ∧ MapSound s := by
  have hinit : mapSystem.Reachable ⟨newMap 0 7 6, []⟩ :=
    .init ⟨⟨by decide, by decide, by decide⟩, fun _ => rfl, rfl⟩
  have hone : mapSystem.Reachable ⟨_, [(0, 5)]⟩ := hinit.next ⟨.insert 0 5, 0,
    ⟨by decide, by decide⟩, fun shard hs => absurd hs.symm (Option.some_ne_none shard), rfl, rfl⟩
  have htwo : mapSystem.Reachable ⟨_, [(64, 9), (0, 5)]⟩ := hone.next ⟨.insert 64 9, 0,
    ⟨by decide, by decide⟩, fun shard hs => ?_, rfl, rfl⟩
  · have hdel : mapSystem.Reachable ⟨_, [(64, 9)]⟩ := htwo.next ⟨.delete 0 5, 0,
      ⟨by decide, by decide⟩, fun _ shard hs => ?_, rfl, rfl⟩
    · exact ⟨_, rfl, mapSystem_sound hdel⟩
    · obtain rfl := Option.some.inj hs
      exact .inl (by decide)
  · obtain rfl := Option.some.inj hs
    exact ⟨.inl rfl, .inl (by decide)⟩

/-- A shard with one bucket, all of whose entries have the same key. -/
structure Stacked (shard : Shard) (n : Nat) : Prop where
  size : shard.size = 512
  count : shard.count = n
  bucketbits : shard.bucketbits = 0
  lowbits : shard.lowbits = 6
  used : shard.used = n
  free : shard.free = 0
  fifoTail : shard.fifoTail = n
  fifoTop : shard.fifoTop = 1024
  bucket : shard.next 0 ≠ noentry

theorem Stacked.insert {shard : Shard} {n : Nat} (h : Stacked shard n) (hn : n < 512) :
    ∃ shard', shardInsert shard 0 0 = .ok (shard', 0) ∧ Stacked shard' (n + 1) := by
  have hfifo : ¬shard.fifoTail = shard.fifoTop := by
    rw [h.fifoTail, h.fifoTop]
    omega
  have htail : shard.fifoTail < shard.fifoTop := by
    rw [h.fifoTail, h.fifoTop]
    omega
  have hblock : (0 + 1) % 2 ^ 32 < 2 ^ shard.blockbits := by
    unfold Shard.blockbits
    rw [h.lowbits]
    decide
  have hbucket : shard.bucket 0 = 0 := Nat.zero_div _
  have hzero : 0 < shard.size := by
    rw [h.size]
    decide
  have hnonempty : ¬entryNext (shard.table 0) = noentry := h.bucket
  have hfree : ¬shard.free ≠ 0 := fun hne => hne h.free
  have hused : ¬shard.used = shard.size := by
    rw [h.used, h.size]
    omega
  have hsize : shard.used < shard.size := by
    rw [h.used, h.size]
    exact hn
  unfold shardInsert fifoRoom shardInsertNoFifo takeEntry fifoAppend
  simp only [if_neg hfifo, hbucket, tuxAssert_of hblock, tuxAssert_of shard.buckets_pos,
    entry_eq hzero, if_neg hnonempty, if_neg hfree, if_neg hused, Shard.putEntry, if_pos hsize,
    if_pos hzero, tuxAssert_of htail, pure, Except.pure, bind, Except.bind]
  refine ⟨_, rfl, h.size, congrArg (· + 1) h.count, h.bucketbits, h.lowbits, congrArg (· + 1) h.used, h.free,
    congrArg (· + 1) h.fifoTail, h.fifoTop, ?_⟩
  unfold Shard.next
  dsimp only
  rw [Function.update_self]
  have hnext : shard.used < 2 ^ shardNextbits := by
    rw [h.used]
    exact Nat.lt_trans hn (by decide)
  have hword := @entryNext_setEntry { shard with used := shard.used + 1 } (shard.lowkey 0) 0
    shard.used (Nat.two_pow_pos _) hnext
  intro heq
  have hlink : shard.used = noentry := hword.symm.trans heq
  rw [h.used] at hlink
  unfold noentry shardNextbits at hlink
  omega

/-- The shard of one bucket takes 512 pairs of one key. -/
theorem stacked_run (n : Nat) (hn : n < 512) :
    ∃ s shard, mapSystem.Reachable s ∧ s.live = List.replicate (n + 1) (0, 0) ∧
      s.map.mapbits = 0 ∧ s.map.shardbits = 6 ∧ s.map.lowbits = 6 ∧
      s.map.table 0 = some shard ∧ Stacked shard (n + 1) := by
  induction n with
  | zero =>
      have hinit : mapSystem.Reachable ⟨newMap 0 6 6, []⟩ :=
        .init ⟨⟨by decide, by decide, by decide⟩, fun _ => rfl, rfl⟩
      have hone : mapSystem.Reachable ⟨_, [(0, 0)]⟩ := hinit.next ⟨.insert 0 0, 0,
        ⟨by decide, by decide⟩, fun shard hs => absurd hs.symm (Option.some_ne_none shard), rfl,
        rfl⟩
      exact ⟨_, _, hone, rfl, rfl, rfl, rfl, rfl, rfl, rfl, rfl, rfl, rfl, rfl, rfl, rfl, by decide⟩
  | succ n ih =>
      obtain ⟨s, shard, hreach, hlive, hmapbits, hshardbits, hlowbits, htable, hstacked⟩ :=
        ih (Nat.lt_of_succ_lt hn)
      obtain ⟨shard', hinsert, hstacked'⟩ := hstacked.insert hn
      have hkey : 0 < 2 ^ (s.map.mapbits + s.map.shardbits) := Nat.two_pow_pos _
      have hdiv : 0 / 2 ^ s.map.shardbits = 0 := Nat.zero_div _
      have hmod : 0 % 2 ^ s.map.shardbits = 0 := Nat.zero_mod _
      have hblock : s.map.BlockOk 0 := by
        unfold Shardmap.BlockOk
        rw [hlowbits]
        decide
      have hfits : InsertFits s.map 0 := by
        intro shard₀ hs
        rw [hdiv, htable] at hs
        obtain rfl := Option.some.inj hs
        refine ⟨.inr (.inr ⟨?_, ?_⟩), .inl ?_⟩
        · rw [hstacked.used, hstacked.size]
          omega
        · rw [hstacked.used]
          exact Nat.lt_trans hn (by decide)
        · rw [hstacked.fifoTail, hstacked.fifoTop]
          omega
      have hexec : mapInsert s.map 0 0 = .ok (s.map.putShard 0 shard', 0) := by
        unfold mapInsert mapShard
        simp only [tuxAssert_of hkey, hdiv, hmod, htable, pure, Except.pure, bind, Except.bind,
          hinsert]
        rfl
      have hself := s.map.putShard_self 0 shard'
      refine ⟨⟨s.map.putShard 0 shard', (0, 0) :: s.live⟩, shard', hreach.next
        ⟨.insert 0 0, 0, ⟨hkey, hblock⟩, hfits, hexec, rfl⟩, ?_, hmapbits, hshardbits, hlowbits,
        hself, hstacked'⟩
      rw [hlive]
      rfl

/-- The 513th pair of that shard is lost: the insert returns 0, the shard has not grown and
counts a pair that no probe finds. -/
theorem mapInsert_lost : ∃ s map' shard, mapSystem.Reachable s ∧ s.map.KeyOk 0 ∧
    s.map.BlockOk 1 ∧ mapInsert s.map 0 1 = .ok (map', 0) ∧ map'.table 0 = some shard ∧
    shard.size = 512 ∧ shard.count = 513 ∧
    ∃ blocks, mapProbeAll map' 0 = .ok blocks ∧ blocks.length = 512 ∧ 1 ∉ blocks := by
  obtain ⟨s, shard, hreach, hlive, hmapbits, hshardbits, hlowbits, htable, hstacked⟩ :=
    stacked_run 511 (by decide)
  have hholds := mapSystem_holds hreach
  have hkey : s.map.KeyOk 0 := Nat.two_pow_pos _
  have hdiv : 0 / 2 ^ s.map.shardbits = 0 := Nat.zero_div _
  have hblock : s.map.BlockOk 1 := by
    unfold Shardmap.BlockOk
    rw [hlowbits]
    decide
  have hfull : shard.Full (0 % 2 ^ s.map.shardbits) := by
    refine ⟨?_, hstacked.free, hstacked.used.trans hstacked.size.symm⟩
    unfold Shard.bucket
    rw [Nat.zero_mod, Nat.zero_div]
    exact hstacked.bucket
  have hfifo : shard.FifoRoom := by
    left
    rw [hstacked.fifoTail, hstacked.fifoTop]
    decide
  have htable' : s.map.table (0 / 2 ^ s.map.shardbits) = some shard := by
    rw [hdiv]
    exact htable
  obtain ⟨map', shard', hinsert, hself, hsize, hcount, blocks, hprobe, hperm⟩ :=
    mapInsert_full hholds hkey hblock htable' hfull hfifo
  rw [hdiv] at hself
  rw [hlive] at hperm
  refine ⟨s, map', shard', hreach, hkey, hblock, hinsert, hself, hsize.trans hstacked.size, ?_,
    blocks, hprobe, ?_, fun hmem => ?_⟩
  · rw [hcount, hstacked.count]
  · rw [hperm.length_eq]
    unfold blocksOf
    rw [List.filter_replicate_of_pos (by decide), List.map_replicate, List.length_replicate]
  · have hmem' := hperm.mem_iff.mp hmem
    unfold blocksOf at hmem'
    rw [List.filter_replicate_of_pos (by decide), List.map_replicate] at hmem'
    exact absurd (List.eq_of_mem_replicate hmem') (by decide)

end Tux3
