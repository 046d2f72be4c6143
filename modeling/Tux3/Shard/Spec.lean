/-
  Shard/Spec.lean --- what the operations on a shard do.

  An insert that finds an entry adds its pair, a delete takes one out if there is one, and
  probing a key again and again goes over the blocks of that key.
-/
import Tux3.Shard.Chain

set_option autoImplicit false

namespace Tux3

section

variable {shard : Shard} {cells : Nat → List Nat} {frees : List Nat} {live : List (Nat × Nat)}
  {key block : Nat}

/-! ## The table -/

theorem entry_eq {i : Nat} (h : i < shard.size) : shard.entry i = .ok (shard.table i) := if_pos h

theorem putEntry_eq {i entry : Nat} (h : i < shard.size) :
    shard.putEntry i entry = .ok { shard with table := Function.update shard.table i entry } :=
  if_pos h

/-- The other fields of a shard say nothing about its chains. -/
theorem ShardOk.congr {shard' : Shard} (h : ShardOk shard cells frees live)
    (hsame : shard'.SameBits shard) (hused : shard'.used = shard.used)
    (hfree : shard'.free = shard.free) (htable : shard'.table = shard.table) :
    ShardOk shard' cells frees live := by
  obtain ⟨size, head, fence, count, bucketbits, lowbits, used, free, tail, top, fifo, table⟩ :=
    shard'
  obtain ⟨rfl, rfl, rfl⟩ := hsame
  dsimp only at hused hfree htable
  subst hused hfree htable
  exact ⟨h.buckets_le, h.used_le, h.index_lt, h.chain, h.free, h.cover, h.holds, h.bucket_lt⟩

theorem ShardOk.bucket_size (h : ShardOk shard cells frees live) {bucket : Nat}
    (hbucket : bucket < shard.buckets) : bucket < shard.size :=
  Nat.lt_of_lt_of_le hbucket (Nat.le_trans h.buckets_le h.used_le)

/-! ## Insert -/

/-- An insert finds an entry: its bucket is empty, or there is a free entry, or an unused one
that a link can hold. -/
def Shard.HasRoom (shard : Shard) (key : Nat) : Prop :=
  shard.next (shard.bucket key) = noentry ∨ shard.free ≠ 0 ∨
    shard.used ≠ shard.size ∧ shard.used < noentry

/-- The parts of a shard that an insert into its table changes. -/
def Shard.withTable (shard : Shard) (used free : Nat) (table : Nat → Nat) : Shard :=
  { shard with used := used, free := free, table := table }

theorem withTable_sameBits (used free : Nat) (table : Nat → Nat) :
    (shard.withTable used free table).SameBits shard := ⟨rfl, rfl, rfl⟩

theorem shardInsertNoFifo_spec (h : ShardOk shard cells frees live)
    (hkey : shard.bucket key < shard.buckets) (hblock : block + 1 < 2 ^ shard.blockbits)
    (hroom : shard.HasRoom key) :
    ∃ used free table cells' frees',
      shardInsertNoFifo shard key block = .ok (shard.withTable used free table, 0) ∧
      ShardOk (shard.withTable used free table) cells' frees' ((key, block) :: live) := by
  have hwrap : (block + 1) % 2 ^ 32 = block + 1 := by
    refine Nat.mod_eq_of_lt (Nat.lt_of_lt_of_le hblock ?_)
    exact Nat.pow_le_pow_right (by decide) (Nat.sub_le _ _)
  have hblk : block < 2 ^ shard.blockbits := Nat.lt_of_succ_lt hblock
  have hbucket := h.bucket_size hkey
  have hassert : (block + 1) % 2 ^ 32 < 2 ^ shard.blockbits := hwrap.symm ▸ hblock
  unfold shardInsertNoFifo
  simp only [tuxAssert_of hassert, tuxAssert_of hkey, entry_eq hbucket, bind, Except.bind,
    putEntry_eq hbucket]
  by_cases hempty : entryNext (shard.table (shard.bucket key)) = noentry
  · rw [if_pos hempty]
    have hok := h.insertEmpty hkey hblk hempty (withTable_sameBits shard.used shard.free
      (Function.update shard.table (shard.bucket key)
        (shard.setEntry (shard.lowkey key) block endlist))) rfl rfl rfl
    exact ⟨_, _, _, _, _, rfl, hok⟩
  · rw [if_neg hempty]
    unfold takeEntry
    by_cases hfree : shard.free ≠ 0
    · obtain ⟨frees', rfl, hlinked⟩ := h.free.exists_cons hfree
      obtain ⟨hle, hlt⟩ := h.free_mem List.mem_cons_self
      have hsize := Nat.lt_of_lt_of_le hlt h.used_le
      rw [if_pos hfree, entry_eq hsize]
      have hcover : (frees' ++ [shard.free] ++ (List.range shard.buckets).flatMap fun b =>
          (cells b).tail).Perm (List.range' shard.buckets (shard.used - shard.buckets)) := by
        refine List.Perm.trans ?_ h.cover
        exact List.perm_append_comm.append_right _
      obtain ⟨cells', hok⟩ := h.insertMoved hkey hblk hempty
        (withTable_sameBits shard.used (shard.next shard.free) _) (Nat.le_refl _) h.used_le
        (fun i hi hi' => absurd (Nat.lt_of_le_of_lt hi hi') (Nat.lt_irrefl _)) hle
        (h.index_lt _ hle hlt) hlinked hcover rfl
      refine ⟨_, _, _, cells', frees', ?_, hok⟩
      simp only [bind, Except.bind, pure, Except.pure, Shard.putEntry, if_pos hsize,
        if_pos hbucket]
      rfl
    · obtain ⟨hne, hlt⟩ : shard.used ≠ shard.size ∧ shard.used < noentry := by
        rcases hroom with hroom | hroom | hroom
        · exact absurd hroom hempty
        · exact absurd hroom hfree
        · exact hroom
      have hsize := Nat.lt_of_le_of_ne h.used_le hne
      rw [if_neg hfree, if_neg hne]
      have hcover : (frees ++ [shard.used] ++ (List.range shard.buckets).flatMap fun b =>
          (cells b).tail).Perm
          (List.range' shard.buckets (shard.used + 1 - shard.buckets)) := by
        have hrange : List.range' shard.buckets (shard.used + 1 - shard.buckets) =
            List.range' shard.buckets (shard.used - shard.buckets) ++ [shard.used] := by
          have hle := h.buckets_le
          rw [show shard.used + 1 - shard.buckets = shard.used - shard.buckets + 1 by omega,
            List.range'_1_concat]
          congr 2
          omega
        rw [hrange, List.append_assoc]
        refine List.Perm.trans ?_ (h.cover.append_right [shard.used])
        rw [List.append_assoc]
        exact List.perm_append_comm.append_left frees
      obtain ⟨cells', hok⟩ := h.insertMoved hkey hblk hempty
        (withTable_sameBits (shard.used + 1) shard.free _) (Nat.le_succ _) hsize
        (fun i hi hi' => Nat.lt_of_le_of_lt (Nat.le_of_lt_succ hi') hlt) h.buckets_le hlt h.free
        hcover rfl
      refine ⟨_, _, _, cells', frees, ?_, hok⟩
      simp only [pure, Except.pure, Shard.putEntry, if_pos hsize, if_pos hbucket]
      rfl

/-- An insert does not find an entry. -/
structure Shard.Full (shard : Shard) (key : Nat) : Prop where
  bucket : shard.next (shard.bucket key) ≠ noentry
  free : shard.free = 0
  used : shard.used = shard.size

theorem shardInsertNoFifo_full (h : ShardOk shard cells frees live)
    (hkey : shard.bucket key < shard.buckets) (hblock : block + 1 < 2 ^ shard.blockbits)
    (hfull : shard.Full key) : shardInsertNoFifo shard key block = .ok (shard, 1) := by
  have hwrap : (block + 1) % 2 ^ 32 = block + 1 := by
    refine Nat.mod_eq_of_lt (Nat.lt_of_lt_of_le hblock ?_)
    exact Nat.pow_le_pow_right (by decide) (Nat.sub_le _ _)
  have hassert : (block + 1) % 2 ^ 32 < 2 ^ shard.blockbits := hwrap.symm ▸ hblock
  have hempty : ¬entryNext (shard.table (shard.bucket key)) = noentry := hfull.bucket
  have hfree : ¬shard.free ≠ 0 := fun hne => hne hfull.free
  unfold shardInsertNoFifo takeEntry
  simp only [tuxAssert_of hassert, tuxAssert_of hkey, entry_eq (h.bucket_size hkey), bind,
    Except.bind]
  rw [if_neg hempty, if_neg hfree, if_pos hfull.used]
  rfl

/-- The window of the fifo has room, or there is one after it. -/
def Shard.FifoRoom (shard : Shard) : Prop :=
  shard.fifoTail ≠ shard.fifoTop ∨ shard.head + fifoWindow < shard.fence

/-- The fifo has a window, and the tail is in it. -/
structure Shard.FifoOk (shard : Shard) : Prop where
  tail_le : shard.fifoTail ≤ shard.fifoTop
  top_eq : shard.fifoTop = fifoWindow / 8

theorem fifoRoom_spec (hfifo : shard.FifoOk) (hroom : shard.FifoRoom) :
    ∃ head tail, fifoRoom shard = .ok { shard with head := head, fifoTail := tail } ∧
      tail < shard.fifoTop := by
  unfold fifoRoom
  by_cases hend : shard.fifoTail = shard.fifoTop
  · have hfence : shard.head + fifoWindow < shard.fence :=
      hroom.resolve_left fun hne => hne hend
    rw [if_pos hend]
    unfold fifoAdvance
    simp only [tuxAssert_of hfence, bind, Except.bind]
    refine ⟨shard.head + fifoWindow, 0, ?_, ?_⟩
    · rw [← hfifo.top_eq]
      rfl
    · rw [hfifo.top_eq]
      decide
  · rw [if_neg hend]
    exact ⟨shard.head, shard.fifoTail, rfl, Nat.lt_of_le_of_ne hfifo.tail_le hend⟩

/-- A shard holds some pairs, and its count is theirs. -/
structure Shard.Holds (shard : Shard) (live : List (Nat × Nat)) : Prop where
  chains : ∃ cells frees, ShardOk shard cells frees live
  count : shard.count = live.length
  blocks : ∀ pair ∈ live, pair.2 + 1 < 2 ^ shard.blockbits
  fifo : shard.FifoOk

/-- The order of the pairs does not matter. -/
theorem ShardOk.perm {live' : List (Nat × Nat)} (h : ShardOk shard cells frees live)
    (hperm : live'.Perm live) : ShardOk shard cells frees live' :=
  ⟨h.buckets_le, h.used_le, h.index_lt, h.chain, h.free, h.cover,
    fun bucket hbucket => (h.holds bucket hbucket).trans (hperm.symm.filter _),
    fun pair hpair => h.bucket_lt pair (hperm.mem_iff.mp hpair)⟩

theorem Shard.Holds.perm {live' : List (Nat × Nat)} (h : shard.Holds live)
    (hperm : live.Perm live') : shard.Holds live' := by
  obtain ⟨⟨cells, frees, hok⟩, hcount, hblocks, hfifo⟩ := h
  refine ⟨⟨cells, frees, hok.perm hperm.symm⟩, ?_, fun pair hpair => ?_, hfifo⟩
  · exact hcount.trans hperm.length_eq
  · exact hblocks pair (hperm.mem_iff.mpr hpair)

/-- An insert that finds an entry adds its pair. -/
theorem shardInsert_spec (h : shard.Holds live) (hkey : shard.bucket key < shard.buckets)
    (hblock : block + 1 < 2 ^ shard.blockbits) (hroom : shard.HasRoom key)
    (hfifo : shard.FifoRoom) :
    ∃ shard', shardInsert shard key block = .ok (shard', 0) ∧ shard'.SameBits shard ∧
      shard'.fence = shard.fence ∧ shard'.Holds ((key, block) :: live) := by
  obtain ⟨⟨cells, frees, hok⟩, hcount, hblocks, hfifoOk⟩ := h
  obtain ⟨head, tail, hadvance, htail⟩ := fifoRoom_spec hfifoOk hfifo
  have hok' : ShardOk { shard with head := head, fifoTail := tail } cells frees live :=
    hok.congr ⟨rfl, rfl, rfl⟩ rfl rfl rfl
  obtain ⟨used, free, table, cells', frees', hinsert, hnew⟩ :=
    shardInsertNoFifo_spec hok' hkey hblock hroom
  unfold shardInsert
  simp only [hadvance, bind, Except.bind, hinsert, fifoAppend, Shard.withTable,
    tuxAssert_of htail]
  refine ⟨_, rfl, ⟨rfl, rfl, rfl⟩, rfl, ⟨cells', frees', ?_⟩, ?_, fun pair hpair => ?_,
    ⟨htail, hfifoOk.top_eq⟩⟩
  · exact hnew.congr ⟨rfl, rfl, rfl⟩ rfl rfl rfl
  · exact congrArg (· + 1) hcount
  · rcases List.mem_cons.mp hpair with rfl | hpair
    · exact hblock
    · exact hblocks pair hpair

/-- An insert that does not find an entry counts a pair that the shard does not hold. -/
theorem shardInsert_full (h : shard.Holds live) (hkey : shard.bucket key < shard.buckets)
    (hblock : block + 1 < 2 ^ shard.blockbits) (hfull : shard.Full key)
    (hfifo : shard.FifoRoom) :
    ∃ shard', shardInsert shard key block = .ok (shard', 0) ∧ shard'.SameBits shard ∧
      shard'.count = live.length + 1 ∧ ∃ cells frees, ShardOk shard' cells frees live := by
  obtain ⟨⟨cells, frees, hok⟩, hcount, hblocks, hfifoOk⟩ := h
  obtain ⟨head, tail, hadvance, htail⟩ := fifoRoom_spec hfifoOk hfifo
  have hok' : ShardOk { shard with head := head, fifoTail := tail } cells frees live :=
    hok.congr ⟨rfl, rfl, rfl⟩ rfl rfl rfl
  have hinsert := shardInsertNoFifo_full hok' hkey hblock ⟨hfull.bucket, hfull.free, hfull.used⟩
  unfold shardInsert
  simp only [hadvance, bind, Except.bind, hinsert, fifoAppend, tuxAssert_of htail]
  refine ⟨_, rfl, ⟨rfl, rfl, rfl⟩, congrArg (· + 1) hcount, cells, frees, ?_⟩
  exact hok.congr ⟨rfl, rfl, rfl⟩ rfl rfl rfl

/-! ## Probe -/

/-- The entries of a chain whose key has the low bits of `key`. -/
def Shard.matching (shard : Shard) (key : Nat) (items : List Nat) : List Nat :=
  (items.filter fun i => shard.entryKey (shard.table i) = shard.lowkey key).map fun i =>
    shard.entryBlock (shard.table i)

/-- The loop of `shard_probe` stops at the first entry with the key. -/
theorem shardProbeLoop_spec {link next fuel : Nat} {items : List Nat}
    (hlinked : Linked shard.next endlist (shard.next link) items)
    (hsize : ∀ i ∈ link :: items, i < shard.size) (hfuel : items.length < fuel) :
    (shardProbeLoop shard (shard.lowkey key) next fuel link = .ok (noblock, next) ∧
      shard.matching key (link :: items) = []) ∨
    ∃ i ∈ link :: items, ∃ rest, shardProbeLoop shard (shard.lowkey key) next fuel link =
        .ok (shard.entryBlock (shard.table i), shard.next i) ∧
      Linked shard.next endlist (shard.next i) rest ∧ rest <:+ items ∧
      shard.matching key (link :: items) =
        shard.entryBlock (shard.table i) :: shard.matching key rest := by
  induction items generalizing link fuel with
  | nil =>
      obtain ⟨fuel, rfl⟩ := Nat.exists_eq_add_of_lt hfuel
      have hend : entryNext (shard.table link) = endlist := hlinked
      unfold shardProbeLoop Shard.matching
      rw [entry_eq (hsize link List.mem_cons_self)]
      simp only [bind, Except.bind]
      by_cases hmatch : shard.entryKey (shard.table link) = shard.lowkey key
      · right
        rw [if_pos hmatch, List.filter_cons_of_pos (by simpa using hmatch)]
        exact ⟨link, List.mem_cons_self, [], rfl, hlinked, List.suffix_refl _, rfl⟩
      · left
        rw [if_neg hmatch, if_neg (fun hne => hne hend),
          List.filter_cons_of_neg (by simpa using hmatch)]
        exact ⟨rfl, rfl⟩
  | cons item items ih =>
      obtain ⟨fuel, rfl⟩ := Nat.exists_eq_add_of_lt hfuel
      obtain ⟨hitem, hne, hrest⟩ := hlinked
      unfold shardProbeLoop
      rw [entry_eq (hsize link List.mem_cons_self)]
      simp only [bind, Except.bind]
      by_cases hmatch : shard.entryKey (shard.table link) = shard.lowkey key
      · right
        rw [if_pos hmatch]
        refine ⟨link, List.mem_cons_self, item :: items, rfl, ⟨hitem, hne, hrest⟩, List.suffix_refl _, ?_⟩
        unfold Shard.matching
        rw [List.filter_cons_of_pos (by simpa using hmatch)]
        rfl
      · have hnext : entryNext (shard.table link) = item := hitem
        have hskip : shard.matching key (link :: item :: items) =
            shard.matching key (item :: items) := by
          unfold Shard.matching
          rw [List.filter_cons_of_neg (by simpa using hmatch)]
        rw [if_neg hmatch, hnext, if_pos hne, hskip]
        have hlen : items.length < (item :: items).length + fuel := by
          rw [List.length_cons]
          omega
        have hloop := @ih item _ hrest (fun i hi => hsize i (List.mem_cons_of_mem _ hi)) hlen
        refine hloop.imp_right ?_
        rintro ⟨i, hi, rest, heq, hlink, hsuffix, hmatching⟩
        exact ⟨i, List.mem_cons_of_mem _ hi, rest, heq, hlink,
          hsuffix.trans (List.suffix_cons _ _), hmatching⟩

/-- `shard_probe` again and again, from the entry `next` on: the blocks that it returned. -/
def probeAll (shard : Shard) (key : Nat) : Nat → Nat → Except TuxError (List Nat)
  | 0, _ => .error .fuel
  | fuel + 1, next => do
      let (block, next) ← shardProbe shard key next
      if block = noblock then return []
      else if next = 0 then return [block]
      else
        let blocks ← probeAll shard key fuel next
        return block :: blocks

/-- The blocks of a key. -/
def blocksOf (live : List (Nat × Nat)) (key : Nat) : List Nat :=
  (live.filter fun pair => pair.1 = key).map Prod.snd

theorem ShardOk.tail_length (h : ShardOk shard cells frees live) {bucket : Nat}
    (hbucket : bucket < shard.buckets) : (cells bucket).tail.length ≤ shard.size := by
  have hsub : (cells bucket).tail ⊆ List.range shard.size := by
    intro i hi
    exact List.mem_range.mpr (Nat.lt_of_lt_of_le (h.tail_mem hbucket hi).2 h.used_le)
  have hle := (List.subperm_of_subset (h.tail_nodup hbucket) hsub).length_le
  rwa [List.length_range] at hle

/-- Probing from an entry of a chain on goes over the blocks of the key from there on. -/
theorem probeAll_spec (hok : ShardOk shard cells frees live)
    (hkey : shard.bucket key < shard.buckets)
    (hempty : shard.next (shard.bucket key) ≠ noentry) {link next fuel : Nat} {items : List Nat}
    (hlink : link = if next ≠ 0 then next else shard.bucket key)
    (hlinked : Linked shard.next endlist (shard.next link) items)
    (hsize : ∀ i ∈ link :: items, i < shard.size) (hlen : items.length ≤ shard.size)
    (hblocks : ∀ i ∈ link :: items, shard.entryBlock (shard.table i) ≠ noblock)
    (hfuel : items.length < fuel) :
    probeAll shard key fuel next = .ok (shard.matching key (link :: items)) := by
  induction fuel generalizing link next items with
  | zero => exact absurd hfuel (Nat.not_lt_zero _)
  | succ fuel ih =>
      have hnonempty : ¬entryNext (shard.table (shard.bucket key)) = noentry := hempty
      unfold probeAll shardProbe
      simp only [tuxAssert_of hkey, entry_eq (hok.bucket_size hkey), bind, Except.bind]
      rw [if_neg hnonempty, ← hlink]
      have hloop := @shardProbeLoop_spec shard key link next (shard.size + 1) items hlinked hsize
        (Nat.lt_succ_of_le hlen)
      rcases hloop with ⟨heq, hnil⟩ | ⟨i, hi, rest, heq, hrest, hsuffix, hcons⟩
      · rw [heq, hnil]
        rfl
      · have hmem : ∀ j ∈ rest, j ∈ link :: items :=
          fun j hj => List.mem_cons_of_mem _ (hsuffix.subset hj)
        rw [heq, hcons]
        dsimp only
        rw [if_neg (hblocks i hi)]
        by_cases hend : shard.next i = 0
        · rw [if_pos hend]
          rw [hend] at hrest
          rw [hrest.eq_nil]
          rfl
        · rw [if_neg hend]
          obtain ⟨rest', rfl, hlinked'⟩ := hrest.exists_cons hend
          have hle := hsuffix.length_le
          rw [List.length_cons] at hle
          have hrec := @ih (shard.next i) (shard.next i) rest' (if_pos hend).symm hlinked'
            (fun j hj => hsize j (hmem j hj)) (by omega) (fun j hj => hblocks j (hmem j hj))
            (by omega)
          rw [hrec]
          rfl

/-- The entries of a chain that match a key have the blocks of the pairs with that key. -/
theorem matching_eq_blocksOf (items : List Nat) :
    shard.matching key items = blocksOf (items.map (shard.pair (shard.bucket key))) key := by
  unfold Shard.matching blocksOf
  rw [List.filter_map, List.map_map]
  refine congrArg₂ List.map rfl (List.filter_congr fun i _ => ?_)
  have hsplit := Nat.div_add_mod' key (2 ^ shard.lowbits)
  unfold Shard.lowkey
  simp only [Function.comp_apply, Shard.pair, Shard.bucket]
  refine decide_eq_decide.mpr ⟨fun heq => ?_, fun heq => ?_⟩
  · rw [heq, hsplit]
  · omega

theorem blocksOf_perm {live' : List (Nat × Nat)} (h : live.Perm live') :
    (blocksOf live key).Perm (blocksOf live' key) :=
  (h.filter _).map _

theorem blocksOf_inBucket :
    blocksOf (shard.inBucket live (shard.bucket key)) key = blocksOf live key := by
  unfold blocksOf Shard.inBucket
  rw [List.filter_filter]
  refine congrArg _ (List.filter_congr fun pair _ => ?_)
  by_cases hkey : pair.1 = key
  · simp [hkey]
  · simp [hkey]

/-- Probing a key until it has no next entry goes over the blocks of that key. -/
theorem shardProbe_spec (hok : ShardOk shard cells frees live)
    (hblocks : ∀ pair ∈ live, pair.2 + 1 < 2 ^ shard.blockbits)
    (hkey : shard.bucket key < shard.buckets) :
    ∃ blocks, probeAll shard key (shard.size + 1) 0 = .ok blocks ∧
      blocks.Perm (blocksOf live key) := by
  have hbucket := hok.bucket_size hkey
  have hholds := hok.holds _ hkey
  have hperm : (shard.matching key (cells (shard.bucket key))).Perm (blocksOf live key) := by
    rw [matching_eq_blocksOf, ← @blocksOf_inBucket shard live key]
    exact blocksOf_perm hholds
  rcases hok.chain _ hkey with ⟨hnil, hnone⟩ | ⟨rest, hcons, hlinked⟩
  · have hempty : entryNext (shard.table (shard.bucket key)) = noentry := hnone
    rw [hnil] at hperm
    refine ⟨[], ?_, hperm⟩
    unfold probeAll shardProbe
    simp only [tuxAssert_of hkey, entry_eq hbucket, bind, Except.bind]
    rw [if_pos hempty]
    rfl
  · have htail := hok.tail_length hkey
    have hmem : ∀ i ∈ shard.bucket key :: rest, i < shard.size := by
      intro i hi
      rcases List.mem_cons.mp hi with rfl | hi
      · exact hbucket
      · have htl : i ∈ (cells (shard.bucket key)).tail := by
          rw [hcons]
          exact hi
        exact Nat.lt_of_lt_of_le (hok.tail_mem hkey htl).2 hok.used_le
    have hnonempty : shard.next (shard.bucket key) ≠ noentry := by
      intro hempty
      rw [hok.cells_of_empty hkey hempty] at hcons
      exact absurd hcons.symm (List.cons_ne_nil _ _)
    rw [hcons] at hperm htail hholds
    refine ⟨_, probeAll_spec hok hkey hnonempty rfl hlinked hmem htail ?_
      (Nat.lt_succ_of_le htail), hperm⟩
    intro i hi hnoblock
    have hpair := hholds.mem_iff.mp (List.mem_map_of_mem hi)
    have hlt := hblocks _ (List.mem_of_mem_filter hpair)
    have hle : 2 ^ shard.blockbits ≤ 2 ^ 32 := Nat.pow_le_pow_right (by decide) (Nat.sub_le _ _)
    have hblock : (shard.pair (shard.bucket key) i).2 = 2 ^ 32 - 1 := hnoblock
    omega

/-! ## Delete -/

/-- An entry matches if it has the pair. -/
theorem pair_eq_iff {i : Nat} :
    shard.pair (shard.bucket key) i = (key, block) ↔
      shard.entryKey (shard.table i) = shard.lowkey key ∧
        shard.entryBlock (shard.table i) = block := by
  have hsplit := Nat.div_add_mod' key (2 ^ shard.lowbits)
  unfold Shard.pair Shard.lowkey Shard.bucket
  rw [Prod.mk.injEq]
  refine and_congr_left fun _ => ⟨fun heq => ?_, fun heq => ?_⟩
  · omega
  · rw [heq, hsplit]

/-- The pairs of a bucket are those that its entries have. -/
theorem ShardOk.mem_live_iff (h : ShardOk shard cells frees live)
    (hkey : shard.bucket key < shard.buckets) :
    (key, block) ∈ live ↔
      ∃ i ∈ cells (shard.bucket key), shard.pair (shard.bucket key) i = (key, block) := by
  rw [← List.mem_map, (h.holds _ hkey).mem_iff]
  unfold Shard.inBucket
  rw [List.mem_filter]
  simp

theorem ShardOk.cell_lt (h : ShardOk shard cells frees live) {bucket i : Nat}
    (hbucket : bucket < shard.buckets) (hi : i ∈ cells bucket) : i < shard.size := by
  rcases h.chain bucket hbucket with ⟨hnil, -⟩ | ⟨rest, hcons, -⟩
  · rw [hnil] at hi
    exact absurd hi List.not_mem_nil
  · have htail : (cells bucket).tail = rest := by
      rw [hcons]
      rfl
    rw [hcons] at hi
    rcases List.mem_cons.mp hi with rfl | hi
    · exact h.bucket_size hbucket
    · rw [← htail] at hi
      exact Nat.lt_of_lt_of_le (h.tail_mem hbucket hi).2 h.used_le

/-- An entry is freed after a store to another one. -/
theorem entryFree_update {i j word : Nat} (hle : shard.buckets ≤ i) (hsize : i < shard.size)
    (hne : i ≠ j) :
    entryFree { shard with table := Function.update shard.table j word } i =
      .ok (shard.withTable shard.used i (Function.update (Function.update shard.table j word) i
        (setEntryNext (shard.table i) shard.free))) := by
  have hread : Function.update shard.table j word i = shard.table i :=
    Function.update_of_ne hne _ _
  have hassert : Shard.buckets { shard with table := Function.update shard.table j word } ≤ i := hle
  unfold entryFree Shard.entry Shard.putEntry
  simp only [tuxAssert_of hassert, if_pos hsize, hread, bind, Except.bind]
  rfl

theorem ShardOk.cell_nodup (h : ShardOk shard cells frees live) {bucket : Nat}
    (hbucket : bucket < shard.buckets) : (cells bucket).Nodup := by
  rcases h.chain bucket hbucket with ⟨hnil, -⟩ | ⟨rest, hcons, -⟩
  · rw [hnil]
    exact List.nodup_nil
  · have htail : (cells bucket).tail = rest := by
      rw [hcons]
      rfl
    have hnodup := h.tail_nodup hbucket
    rw [hcons, List.nodup_cons]
    rw [htail] at hnodup
    refine ⟨fun hmem => ?_, hnodup⟩
    rw [← htail] at hmem
    exact absurd (h.tail_mem hbucket hmem).1 (Nat.not_le_of_lt hbucket)

/-- The entry at which the loop of `shard_delete` stops is taken out. -/
theorem shardDeleteLoop_match {link fuel : Nat} {items front : List Nat} {prev : Option Nat}
    (hok : ShardOk shard cells frees live) (hkey : shard.bucket key < shard.buckets)
    (hcell : cells (shard.bucket key) = front ++ link :: items)
    (hprev : prev = front.getLast?) (hnext : ∀ p, prev = some p → shard.next p = link)
    (hlinked : Linked shard.next endlist (shard.next link) items)
    (hmatch : shard.pair (shard.bucket key) link = (key, block)) :
    ∃ used free table cells' frees',
      shardDeleteLoop shard (shard.lowkey key) block (fuel + 1) link prev =
        .ok (some (shard.withTable used free table)) ∧
      ShardOk (shard.withTable used free table) cells' frees' (live.erase (key, block)) := by
  have hlink : link ∈ cells (shard.bucket key) := by
    rw [hcell]
    exact List.mem_append_right _ List.mem_cons_self
  have hmem : (key, block) ∈ live := (hok.mem_live_iff hkey).mpr ⟨link, hlink, hmatch⟩
  have hsize := hok.cell_lt hkey hlink
  unfold shardDeleteLoop
  rw [entry_eq hsize]
  simp only [bind, Except.bind]
  rw [if_pos (pair_eq_iff.mp hmatch)]
  have hnonempty : shard.next (shard.bucket key) ≠ noentry := by
    intro hempty
    rw [hok.cells_of_empty hkey hempty] at hcell
    exact absurd hcell.symm (List.append_ne_nil_of_right_ne_nil _ (List.cons_ne_nil _ _))
  obtain ⟨rest, hcons, -⟩ := hok.cells_of_not_empty hkey hnonempty
  have htail : (cells (shard.bucket key)).tail = rest := by
    rw [hcons]
    rfl
  rcases List.eq_nil_or_concat front with rfl | ⟨front, p, rfl⟩
  · obtain rfl : prev = none := hprev
    rw [List.nil_append, hcons] at hcell
    obtain ⟨rfl, rfl⟩ := List.cons.inj hcell
    cases rest with
    | nil =>
        have hend : entryNext (shard.table (shard.bucket key)) = endlist := hlinked
        have hok' := hok.deleteOnly hkey hmem hcons hmatch
          (withTable_sameBits shard.used shard.free (Function.update shard.table
            (shard.bucket key) (shard.setEntry 0 0 noentry))) rfl rfl rfl
        refine ⟨_, _, _, _, _, ?_, hok'⟩
        dsimp only
        rw [if_pos hend, putEntry_eq hsize]
        rfl
    | cons i rest =>
        have hkill : entryNext (shard.table (shard.bucket key)) = i := hlinked.1
        have hne : i ≠ endlist := hlinked.2.1
        have hmemTail : i ∈ (cells (shard.bucket key)).tail := by
          rw [htail]
          exact List.mem_cons_self
        obtain ⟨hle, hlt⟩ := hok.tail_mem hkey hmemTail
        have hisize := Nat.lt_of_lt_of_le hlt hok.used_le
        have hneb : i ≠ shard.bucket key := Nat.ne_of_gt (Nat.lt_of_lt_of_le hkey hle)
        obtain ⟨cells', hok'⟩ := hok.deleteHead hkey hmem hcons hlinked hmatch
          (withTable_sameBits shard.used i (Function.update
            (Function.update shard.table (shard.bucket key) (shard.table i)) i
            (setEntryNext (shard.table i) shard.free))) rfl rfl rfl
        refine ⟨_, _, _, cells', _, ?_, hok'⟩
        dsimp only
        rw [hkill, if_neg hne, entry_eq hisize]
        dsimp only
        rw [putEntry_eq hsize]
        dsimp only
        rw [entryFree_update hle hisize hneb]
        rfl
  · rw [List.concat_eq_append] at hcell hprev
    rw [List.getLast?_append, List.getLast?_singleton, Option.some_or] at hprev
    subst hprev
    have hkill : entryNext (shard.table p) = link := hnext p rfl
    rw [List.append_assoc, List.singleton_append] at hcell
    have hp : p ∈ cells (shard.bucket key) := by
      rw [hcell]
      exact List.mem_append_right _ List.mem_cons_self
    have hpsize := hok.cell_lt hkey hp
    have hmemTail : link ∈ (cells (shard.bucket key)).tail := by
      rw [hcell]
      cases front with
      | nil => exact List.mem_cons_self
      | cons b front =>
          exact List.mem_append_right _ (List.mem_cons_of_mem _ List.mem_cons_self)
    obtain ⟨hle, hlt⟩ := hok.tail_mem hkey hmemTail
    have hne : link ≠ p := by
      rintro rfl
      have hnodup := hok.cell_nodup hkey
      rw [hcell] at hnodup
      exact (List.nodup_cons.mp (List.nodup_append.mp hnodup).2.1).1 List.mem_cons_self
    obtain ⟨cells', hok'⟩ := hok.deleteLater hkey hmem hcell hmatch
      (withTable_sameBits shard.used link (Function.update
        (Function.update shard.table p (setEntryNext (shard.table p) (shard.next link))) link
        (setEntryNext (shard.table link) shard.free))) rfl rfl rfl
    refine ⟨_, _, _, cells', _, ?_, hok'⟩
    dsimp only
    rw [entry_eq hpsize]
    dsimp only
    rw [hkill, putEntry_eq hpsize]
    dsimp only
    rw [entryFree_update hle hsize hne]
    rfl

theorem shardDeleteLoop_skip {link fuel : Nat} {prev : Option Nat} (hlink : link < shard.size)
    (hne : shard.pair (shard.bucket key) link ≠ (key, block)) :
    shardDeleteLoop shard (shard.lowkey key) block (fuel + 1) link prev =
      if shard.next link = endlist then .ok none
      else shardDeleteLoop shard (shard.lowkey key) block fuel (shard.next link) (some link) := by
  conv_lhs => unfold shardDeleteLoop
  rw [entry_eq hlink]
  simp only [bind, Except.bind]
  rw [if_neg fun hpair => hne (pair_eq_iff.mpr hpair)]
  rfl

/-- The loop of `shard_delete` from an entry on that comes after entries without the pair. -/
theorem shardDeleteLoop_spec {link fuel : Nat} {items front : List Nat} {prev : Option Nat}
    (hok : ShardOk shard cells frees live) (hkey : shard.bucket key < shard.buckets)
    (hcell : cells (shard.bucket key) = front ++ link :: items)
    (hprev : prev = front.getLast?) (hnext : ∀ p, prev = some p → shard.next p = link)
    (hlinked : Linked shard.next endlist (shard.next link) items)
    (hnot : ∀ i ∈ front, shard.pair (shard.bucket key) i ≠ (key, block)) :
    shardDeleteLoop shard (shard.lowkey key) block (items.length + fuel + 1) link prev = .ok none ∧
      (key, block) ∉ live ∨
    (key, block) ∈ live ∧ ∃ used free table cells' frees',
      shardDeleteLoop shard (shard.lowkey key) block (items.length + fuel + 1) link prev =
        .ok (some (shard.withTable used free table)) ∧
      ShardOk (shard.withTable used free table) cells' frees' (live.erase (key, block)) := by
  induction items generalizing link front prev with
  | nil =>
      have hlink : link ∈ cells (shard.bucket key) := by
        rw [hcell]
        exact List.mem_append_right _ List.mem_cons_self
      by_cases hmatch : shard.pair (shard.bucket key) link = (key, block)
      · exact .inr ⟨(hok.mem_live_iff hkey).mpr ⟨link, hlink, hmatch⟩,
          shardDeleteLoop_match hok hkey hcell hprev hnext hlinked hmatch⟩
      · left
        have hend : shard.next link = endlist := hlinked
        rw [shardDeleteLoop_skip (hok.cell_lt hkey hlink) hmatch, if_pos hend]
        refine ⟨rfl, fun hmem => ?_⟩
        obtain ⟨i, hi, hpair⟩ := (hok.mem_live_iff hkey).mp hmem
        rw [hcell] at hi
        rcases List.mem_append.mp hi with hi | hi
        · exact hnot i hi hpair
        · rw [List.mem_singleton.mp hi] at hpair
          exact hmatch hpair
  | cons item items ih =>
      have hlink : link ∈ cells (shard.bucket key) := by
        rw [hcell]
        exact List.mem_append_right _ List.mem_cons_self
      by_cases hmatch : shard.pair (shard.bucket key) link = (key, block)
      · exact .inr ⟨(hok.mem_live_iff hkey).mpr ⟨link, hlink, hmatch⟩,
          shardDeleteLoop_match hok hkey hcell hprev hnext hlinked hmatch⟩
      · obtain ⟨hitem, hne, hrest⟩ := hlinked
        have hfuel : (item :: items).length + fuel = items.length + fuel + 1 := by
          rw [List.length_cons]
          omega
        rw [shardDeleteLoop_skip (hok.cell_lt hkey hlink) hmatch, hitem, if_neg hne, hfuel]
        refine @ih item (front ++ [link]) (some link) ?_ ?_ ?_ hrest ?_
        · rw [hcell, List.append_assoc]
          rfl
        · rw [List.getLast?_append, List.getLast?_singleton, Option.some_or]
        · intro p hp
          rw [← Option.some.inj hp]
          exact hitem
        · intro i hi
          rcases List.mem_append.mp hi with hi | hi
          · exact hnot i hi
          · rw [List.mem_singleton.mp hi]
            exact hmatch

/-- A delete takes one pair out, and finds it if there is one. -/
theorem shardDelete_spec (h : shard.Holds live) (hkey : shard.bucket key < shard.buckets)
    (hfifo : (key, block) ∈ live → shard.FifoRoom) :
    ∃ shard', shardDelete shard key block =
        .ok (shard', if (key, block) ∈ live then 0 else 1) ∧ shard'.SameBits shard ∧
      shard'.fence = shard.fence ∧ shard'.Holds (live.erase (key, block)) := by
  have hh := h
  obtain ⟨⟨cells, frees, hok⟩, hcount, hblocks, hfifoOk⟩ := h
  have hbucket := hok.bucket_size hkey
  unfold shardDelete
  simp only [tuxAssert_of hkey, entry_eq hbucket, bind, Except.bind]
  have hmissing : (key, block) ∉ live → shard.Holds (live.erase (key, block)) := by
    intro hmem
    rw [List.erase_of_not_mem hmem]
    exact hh
  rcases hok.chain _ hkey with ⟨hnil, hnone⟩ | ⟨rest, hcons, hlinked⟩
  · have hempty : entryNext (shard.table (shard.bucket key)) = noentry := hnone
    have hmem : (key, block) ∉ live := by
      intro hmem
      obtain ⟨i, hi, -⟩ := (hok.mem_live_iff hkey).mp hmem
      rw [hnil] at hi
      exact List.not_mem_nil hi
    rw [if_pos hempty, if_neg hmem]
    exact ⟨shard, rfl, ⟨rfl, rfl, rfl⟩, rfl, hmissing hmem⟩
  · have hnonempty : ¬entryNext (shard.table (shard.bucket key)) = noentry := by
      intro hempty
      rw [hok.cells_of_empty hkey hempty] at hcons
      exact absurd hcons.symm (List.cons_ne_nil _ _)
    have hlen := hok.tail_length hkey
    rw [hcons] at hlen
    obtain ⟨fuel, hfuel⟩ := Nat.exists_eq_add_of_le hlen
    rw [List.tail_cons] at hfuel
    rw [if_neg hnonempty, hfuel]
    rcases @shardDeleteLoop_spec _ _ _ _ _ block _ fuel rest [] none hok hkey hcons rfl
      (fun p hp => absurd hp (Option.some_ne_none p).symm) hlinked
      (fun i hi => absurd hi List.not_mem_nil) with
      ⟨heq, hmem⟩ | ⟨hmem, used, free, table, cells', frees', heq, hnew⟩
    · rw [heq, if_neg hmem]
      exact ⟨shard, rfl, ⟨rfl, rfl, rfl⟩, rfl, hmissing hmem⟩
    · rw [heq, if_pos hmem]
      have hfifoOk' : (shard.withTable used free table).FifoOk := ⟨hfifoOk.tail_le, hfifoOk.top_eq⟩
      have hroom : (shard.withTable used free table).FifoRoom := hfifo hmem
      obtain ⟨head, tail, hadvance, htail⟩ := fifoRoom_spec hfifoOk' hroom
      simp only [hadvance, fifoAppend, tuxAssert_of htail, bind, Except.bind]
      refine ⟨_, rfl, ⟨rfl, rfl, rfl⟩, rfl, ⟨cells', frees', ?_⟩, ?_, fun pair hpair => ?_,
        ⟨htail, hfifoOk.top_eq⟩⟩
      · exact hnew.congr ⟨rfl, rfl, rfl⟩ rfl rfl rfl
      · rw [List.length_erase_of_mem hmem]
        exact congrArg (· - 1) hcount
      · exact hblocks pair (List.mem_of_mem_erase hpair)

end

end Tux3
