/-
  Shard/Lookup.lean --- what `entry_lookup` finds.

  As long as only the last record of a block is deleted and nothing is appended behind a deleted
  one, a lookup finds exactly the names that were created and not deleted.
-/
import Tux3.Shard.Directory

set_option autoImplicit false

namespace Tux3

/-! ## Runs -/

/-- A directory in use: the records that are not deleted in the order of their creation, the blocks
with a deleted one, and what a name stands for. -/
structure HashDirRun where
  dir : HashDir
  live : List ShardDirent
  holed : Nat → Prop
  names : List UInt8 → Option Nat

/-- The records of a block. -/
def recordsOf (live : List ShardDirent) (block : Nat) : List ShardDirent :=
  live.filter fun entry => entry.block = block

/-- The pairs of the records, which the map holds. -/
def HashDir.pairs (siphash : List UInt8 → Nat) (dir : HashDir) (live : List ShardDirent) :
    List (Nat × Nat) :=
  live.map fun entry => (dir.key siphash entry.name, entry.block)

/-- The block of the next record, and its place there. -/
def HashDir.place (dir : HashDir) (name : List UInt8) : Nat × Nat :=
  if dirBlocksize < dir.tail % dirBlocksize + (direntSize + name.length) then
    (dir.tail / dirBlocksize + 1, 0)
  else (dir.tail / dirBlocksize, dir.tail % dirBlocksize)

/-- A create after which its record is found: the map takes its pair, and the record goes to a
place below the map where a search comes to. -/
structure HashCreateFits (siphash : List UInt8 → Nat) (s : HashDirRun) (name : List UInt8) :
    Prop where
  nameOk : DirNameOk name
  key_lt : s.dir.key siphash name < 2 ^ 32
  few : (blocksOf (s.dir.pairs siphash s.live) (s.dir.key siphash name)).length < probeLimit
  insert : InsertFits s.dir.map (s.dir.key siphash name)
  block : s.dir.map.BlockOk (s.dir.place name).1
  mapped : (s.dir.place name).1 < 2 ^ 20
  below : ((s.dir.place name).1 + 1) * dirBlocksize ≤ s.dir.base
  seen : (s.dir.place name).2 + direntSize + 1 < dirBlocksize
  holed : ¬ s.holed (s.dir.place name).1

/-- A delete that hides no other record: that of the name is the last one of its block. -/
structure HashDeleteFits (siphash : List UInt8 → Nat) (s : HashDirRun) (name : List UInt8) :
    Prop where
  last : ∀ entry ∈ s.live, entry.name = name →
    (recordsOf s.live entry.block).getLast? = some entry
  fifo : ∀ shard, s.dir.map.table (s.dir.key siphash name / 2 ^ s.dir.map.shardbits) = some shard →
    shard.FifoRoom

/-- The calls of a directory. -/
inductive HashDirCall where
  | create (name : List UInt8) (ino : Nat)
  | delete (name : List UInt8)
  | lookup (name : List UInt8)

namespace HashDirCall

/-- A name that is created is absent, one that is deleted is there. -/
def Valid (s : HashDirRun) : HashDirCall → Prop
  | .create name ino => s.names name = none ∧ ino < 2 ^ 32
  | .delete name => s.names name ≠ none
  | .lookup name => name.length ≤ 255

/-- The record of the call, and all others, are found after it. -/
def Fits (siphash : List UInt8 → Nat) (s : HashDirRun) : HashDirCall → Prop
  | .create name _ => HashCreateFits siphash s name
  | .delete name => HashDeleteFits siphash s name
  | .lookup _ => True

/-- A call returns, with what it makes of the directory. -/
def Returns (siphash : List UInt8 → Nat) (dir dir' : HashDir) : HashDirCall → Prop
  | .create name ino => entryCreate siphash dir name ino = .ok (dir', 0)
  | .delete name => entryDelete siphash dir name = .ok (dir', 0)
  | .lookup name => ∃ found, entryLookup siphash dir name = .ok (dir', found)

/-- The directory in use after a call that leaves `dir`. -/
def after (s : HashDirRun) (dir : HashDir) : HashDirCall → HashDirRun
  | .create name ino =>
      { dir := dir
        live := s.live ++ [⟨name, ino, (s.dir.place name).1⟩]
        holed := s.holed
        names := Function.update s.names name (some ino) }
  | .delete name =>
      { dir := dir
        live := s.live.filter fun entry => entry.name ≠ name
        holed := fun block => s.holed block ∨ ∃ entry ∈ s.live, entry.name = name ∧
          entry.block = block
        names := Function.update s.names name none }
  | .lookup _ => { s with dir := dir }

end HashDirCall

/-- A new map on an empty file. -/
structure HashDir.New (dir : HashDir) : Prop where
  bits : dir.map.BitsOk
  table : ∀ i, dir.map.table i = none
  tail : dir.tail = dirheadSize
  zero : ∀ block i, dirheadSize ≤ block * dirBlocksize + i → dir.data block i = 0

/-- The runs of a directory whose calls fit. -/
def hashDirSystem (siphash : List UInt8 → Nat) : System HashDirRun where
  init s := s.dir.New ∧ s.live = [] ∧ (∀ block, ¬ s.holed block) ∧ ∀ name, s.names name = none
  next s s' := ∃ call dir, HashDirCall.Valid s call ∧ call.Fits siphash s ∧
    call.Returns siphash s.dir dir ∧ s' = call.after s dir

/-! ## The invariant -/

/-- A search of a block goes over its records: they stand one after the other, and it stops behind
them. -/
structure BlockLaid (buffer : DirBuffer) (start : Nat) (records : List ShardDirent) : Prop where
  laid : Laid buffer start records
  stops : Stops buffer (direntsEnd start records)

/-- The records of a directory: what the names stand for, and where the records are. -/
structure HashDirInv (siphash : List UInt8 → Nat) (s : HashDirRun) : Prop where
  map : MapHolds s.dir.map (s.dir.pairs siphash s.live)
  names : ∀ name ino, s.names name = some ino ↔ ∃ entry ∈ s.live, entry.name = name ∧
    entry.ino = ino
  nodup : (s.live.map ShardDirent.name).Nodup
  key_lt : ∀ entry ∈ s.live, s.dir.key siphash entry.name < 2 ^ 32
  few : ∀ key, (blocksOf (s.dir.pairs siphash s.live) key).length ≤ probeLimit
  block_le : ∀ entry ∈ s.live, entry.block ≤ s.dir.tail / dirBlocksize
  mapped : ∀ entry ∈ s.live, entry.block < 2 ^ 20
  laid : ∀ block, block < 2 ^ 20 →
    BlockLaid (s.dir.data block) (dirStart block) (recordsOf s.live block)
  zero : ∀ block i, s.dir.tail ≤ block * dirBlocksize + i → s.dir.data block i = 0
  tail_eq : ∀ block, block = s.dir.tail / dirBlocksize → ¬ s.holed block →
    direntsEnd (dirStart block) (recordsOf s.live block) = s.dir.tail % dirBlocksize
  fresh : ∀ block, s.dir.tail / dirBlocksize < block → ¬ s.holed block

section

open Outcome (bind_of_ok bind_eq_ok)

variable {siphash : List UInt8 → Nat} {s : HashDirRun} {live : List ShardDirent}
  {name : List UInt8} {block key : Nat} {buffer : DirBuffer} {records : List ShardDirent}

/-! ## Maps -/

theorem MapHolds.perm {map : Shardmap} {pairs pairs' : List (Nat × Nat)} (h : MapHolds map pairs)
    (hperm : pairs.Perm pairs') : MapHolds map pairs' := by
  refine ⟨h.bits, fun i shard hi => ?_, fun i hi => ?_⟩
  · obtain ⟨hshaped, hholds⟩ := h.shards i shard hi
    exact ⟨hshaped, hholds.perm (part_perm hperm)⟩
  · have hnil := (@part_perm map i _ _ hperm).symm
    rw [h.others i hi] at hnil
    exact hnil.eq_nil

/-- The bits of the keys. -/
structure Shardmap.SameBits (map map' : Shardmap) : Prop where
  mapbits : map.mapbits = map'.mapbits
  shardbits : map.shardbits = map'.shardbits

theorem mapShard_sameBits {map map' : Shardmap} {i : Nat} {shard : Shard}
    (h : mapShard map i = .ok (map', shard)) : map'.SameBits map := by
  unfold mapShard at h
  split at h
  · unfold populateAndMap mapPopulate at h
    obtain ⟨⟨map₁, shard₁⟩, hmake, h⟩ := bind_eq_ok.mp h
    obtain ⟨_, _, hmake⟩ := bind_eq_ok.mp hmake
    obtain ⟨_, _, hmake⟩ := bind_eq_ok.mp hmake
    obtain ⟨rfl, _⟩ := Prod.mk.inj (Except.ok.inj hmake)
    obtain ⟨rfl, _⟩ := Prod.mk.inj (Except.ok.inj h)
    exact ⟨rfl, rfl⟩
  · obtain ⟨rfl, _⟩ := Prod.mk.inj (Except.ok.inj h)
    exact ⟨rfl, rfl⟩

theorem mapInsert_sameBits {map map' : Shardmap} {fail : Nat}
    (h : mapInsert map key block = .ok (map', fail)) : map'.SameBits map := by
  unfold mapInsert at h
  obtain ⟨_, _, h⟩ := bind_eq_ok.mp h
  obtain ⟨⟨map₁, shard₁⟩, hshard, h⟩ := bind_eq_ok.mp h
  obtain ⟨⟨shard₂, fail₂⟩, _, h⟩ := bind_eq_ok.mp h
  have hsame := mapShard_sameBits hshard
  dsimp only at h
  split at h
  · obtain ⟨rfl, _⟩ := Prod.mk.inj (Except.ok.inj h)
    exact ⟨hsame.mapbits, hsame.shardbits⟩
  · obtain ⟨⟨shard₃, fail₃⟩, _, h⟩ := bind_eq_ok.mp h
    obtain ⟨_, _, h⟩ := bind_eq_ok.mp h
    obtain ⟨rfl, _⟩ := Prod.mk.inj (Except.ok.inj h)
    exact ⟨hsame.mapbits, hsame.shardbits⟩

theorem pairs_congr {dir dir' : HashDir} (h : dir'.map.SameBits dir.map) (live : List ShardDirent) :
    dir'.pairs siphash live = dir.pairs siphash live := by
  unfold HashDir.pairs HashDir.key
  rw [h.mapbits, h.shardbits]

/-! ## Names -/

/-- The records that are not deleted have different names. -/
theorem eq_of_name (hnodup : (live.map ShardDirent.name).Nodup) {entry entry' : ShardDirent}
    (hmem : entry ∈ live) (hmem' : entry' ∈ live) (hname : entry.name = entry'.name) :
    entry = entry' :=
  List.inj_on_of_nodup_map hnodup hmem hmem' hname

theorem mem_recordsOf {entry : ShardDirent} :
    entry ∈ recordsOf live block ↔ entry ∈ live ∧ entry.block = block := by
  unfold recordsOf
  rw [List.mem_filter, decide_eq_true_eq]

theorem HashDirInv.names_eq_none (h : HashDirInv siphash s) :
    s.names name = none ↔ ∀ entry ∈ s.live, entry.name ≠ name := by
  constructor
  · intro hnone entry hmem hname
    have hsome := (h.names name entry.ino).mpr ⟨entry, hmem, hname, rfl⟩
    rw [hnone] at hsome
    exact nomatch hsome
  · intro hne
    cases hnames : s.names name with
    | none => rfl
    | some ino =>
        obtain ⟨entry, hmem, hname, _⟩ := (h.names name ino).mp hnames
        exact absurd hname (hne entry hmem)

/-! ## Blocks -/

/-- `find_dirent` finds the first record of a name. -/
theorem BlockLaid.findDirent {dir : HashDir} (hlen : name.length ≤ 255) (hblock : block < 2 ^ 20)
    (h : BlockLaid (dir.data block) (dirStart block) records) :
    findDirent dir block name = .ok (direntOffset name (dirStart block) records) := by
  have hstart : dirStart block ≤ dirBlocksize := by
    unfold dirStart dirheadSize dirBlocksize
    split <;> omega
  have hend := h.laid.end_le hstart
  have hcount := h.laid.length_le
  unfold Tux3.findDirent HashDir.getBlock
  rw [bind_of_ok (tuxAssert_of hlen), mappedBlock_of_lt hblock]
  exact findDirentLoop_spec h.laid h.stops (by omega)

/-- The record that is found is one of the name. -/
theorem direntOffset_eq_some {start p : Nat} (h : direntOffset name start records = some p) :
    ∃ front entry rest, records = front ++ entry :: rest ∧ entry.name = name ∧
      p = direntsEnd start front := by
  induction records generalizing start with
  | nil => exact nomatch h
  | cons entry records ih =>
      rw [direntOffset] at h
      by_cases hname : entry.name = name
      · rw [if_pos hname] at h
        exact ⟨[], entry, records, rfl, hname, (Option.some.inj h).symm⟩
      · rw [if_neg hname] at h
        obtain ⟨front, entry', rest, hrecords, hname', hp⟩ := ih h
        exact ⟨entry :: front, entry', rest, congrArg (entry :: ·) hrecords, hname', hp⟩

theorem direntOffset_isSome {start : Nat} {entry : ShardDirent} (hmem : entry ∈ records)
    (hname : entry.name = name) : ∃ p, direntOffset name start records = some p := by
  induction records generalizing start with
  | nil => exact absurd hmem List.not_mem_nil
  | cons first records ih =>
      by_cases hfirst : first.name = name
      · exact ⟨start, if_pos hfirst⟩
      · rw [direntOffset, if_neg hfirst]
        refine ih ((List.mem_cons.mp hmem).resolve_left ?_)
        rintro rfl
        exact hfirst hname

theorem HashDirInv.find (h : HashDirInv siphash s) (hlen : name.length ≤ 255) {block : Nat}
    (hblock : block ∈ blocksOf (s.dir.pairs siphash s.live) key) :
    findDirent s.dir block name =
      .ok (direntOffset name (dirStart block) (recordsOf s.live block)) := by
  unfold blocksOf at hblock
  obtain ⟨pair, hpair, rfl⟩ := List.mem_map.mp hblock
  obtain ⟨entry, hentry, rfl⟩ := List.mem_map.mp (List.mem_of_mem_filter hpair)
  have hmapped := h.mapped entry hentry
  exact (h.laid _ hmapped).findDirent hlen hmapped

/-- What the search for a name finds. -/
structure NameSearched (siphash : List UInt8 → Nat) (s : HashDirRun) (key : Nat) (name : List UInt8)
    (map : Shardmap) (shard : Shard) (found : Option (Nat × Nat)) : Prop where
  table : map = s.dir.map.putShard (key / 2 ^ s.dir.map.shardbits) shard
  holds : MapHolds map (s.dir.pairs siphash s.live)
  insert : InsertFits s.dir.map key → InsertFits map key
  fifo : (∀ shard', s.dir.map.table (key / 2 ^ s.dir.map.shardbits) = some shard' →
    shard'.FifoRoom) → shard.FifoRoom
  absent : (∀ entry ∈ s.live, entry.name ≠ name) → found = none
  present : ∀ entry ∈ s.live, entry.name = name → ∃ p, found = some (entry.block, p) ∧
    direntOffset name (dirStart entry.block) (recordsOf s.live entry.block) = some p

/-- The search with the key of a name finds its record. -/
theorem direntSearch_spec (h : HashDirInv siphash s) (hlen : name.length ≤ 255)
    (hkey : ∀ entry ∈ s.live, entry.name = name → s.dir.key siphash name = key) :
    ∃ map shard found, direntSearch s.dir key name = .ok (s.dir.withMap map, shard, found) ∧
      NameSearched siphash s key name map shard found := by
  obtain ⟨shard, hshard, hshaped, hholds, hnew⟩ :=
    mapShard_spec h.map (key / 2 ^ s.dir.map.shardbits)
  have hbucket := hshaped.bucket_lt h.map.bits key
  obtain ⟨cells, frees, hok⟩ := hholds.chains
  obtain ⟨blocks, hprobe, hperm⟩ := shardProbe_spec hok hholds.blocks hbucket
  rw [blocksOf_part] at hperm
  have hfew : blocks.length ≤ probeLimit := by
    rw [hperm.length_eq]
    exact h.few key
  let find : Nat → Option Nat := fun block =>
    direntOffset name (dirStart block) (recordsOf s.live block)
  have hfind : ∀ block ∈ blocks, findDirent
      (s.dir.withMap (s.dir.map.putShard (key / 2 ^ s.dir.map.shardbits) shard)) block name =
        .ok (find block) := fun block hblock => h.find hlen (hperm.mem_iff.mp hblock)
  have hloop := direntProbe_eq hprobe hfew hfind
  refine ⟨_, shard, firstDirent find blocks, ?_, rfl, ?_, fun hfits shard' hs => ?_, fun hfifo => ?_,
    fun hne => ?_, fun entry hmem hname => ?_⟩
  · unfold direntSearch
    rw [bind_of_ok hshard]
    dsimp only
    rw [bind_of_ok hloop]
    rfl
  · exact h.map.putShard hshaped hholds fun j _ => List.Perm.refl _
  · have hself := s.dir.map.putShard_self (key / 2 ^ s.dir.map.shardbits) shard
    obtain rfl := Option.some.inj (hself.symm.trans hs)
    rcases hnew with htable | ⟨_, hroom, hall⟩
    · exact hfits shard htable
    · exact ⟨hall _ hbucket, hroom⟩
  · rcases hnew with htable | ⟨_, hroom, _⟩
    · exact hfifo shard htable
    · exact hroom
  · refine firstDirent_eq_none fun block _ => direntOffset_eq_none fun entry hmem => ?_
    exact hne entry (mem_recordsOf.mp hmem).1
  · obtain ⟨p, hp⟩ := @direntOffset_isSome name _ (dirStart entry.block) entry
      (mem_recordsOf.mpr ⟨hmem, rfl⟩) hname
    refine ⟨p, firstDirent_eq_some ?_ hp fun b _ hb => ?_, hp⟩
    · refine hperm.mem_iff.mpr (List.mem_map.mpr ⟨(s.dir.key siphash entry.name, entry.block), ?_, rfl⟩)
      refine List.mem_filter.mpr ⟨List.mem_map.mpr ⟨entry, hmem, rfl⟩, ?_⟩
      rw [hname, hkey entry hmem hname]
      exact decide_eq_true rfl
    · refine direntOffset_eq_none fun other hother hname' => hb ?_
      obtain ⟨hmem', rfl⟩ := mem_recordsOf.mp hother
      rw [eq_of_name h.nodup hmem' hmem (hname'.trans hname.symm)]

/-! ## Lookups -/

theorem key_congr {map : Shardmap} (hsame : map.SameBits s.dir.map) :
    (s.dir.withMap map).key siphash name = s.dir.key siphash name := by
  unfold HashDir.key HashDir.withMap
  rw [hsame.mapbits, hsame.shardbits]

theorem HashDirInv.withMap (h : HashDirInv siphash s) {map : Shardmap}
    (hholds : MapHolds map (s.dir.pairs siphash s.live)) (hsame : map.SameBits s.dir.map) :
    HashDirInv siphash { s with dir := s.dir.withMap map } := by
  have hpairs : (s.dir.withMap map).pairs siphash s.live = s.dir.pairs siphash s.live :=
    pairs_congr hsame s.live
  refine ⟨?_, h.names, h.nodup, fun entry hmem => ?_, fun key => ?_, h.block_le, h.mapped, h.laid,
    h.zero, h.tail_eq, h.fresh⟩
  · rw [hpairs]
    exact hholds
  · rw [key_congr hsame]
    exact h.key_lt entry hmem
  · rw [hpairs]
    exact h.few key

theorem NameSearched.sameBits {map : Shardmap} {shard : Shard} {found : Option (Nat × Nat)}
    (h : NameSearched siphash s key name map shard found) : map.SameBits s.dir.map := by
  rw [h.table]
  exact ⟨rfl, rfl⟩

/-- The record at the place where a name is found. -/
theorem HashDirInv.recordAt (h : HashDirInv siphash s) {entry : ShardDirent} {p : Nat}
    (hmem : entry ∈ s.live)
    (hp : direntOffset entry.name (dirStart entry.block) (recordsOf s.live entry.block) = some p) :
    ∃ front rest, recordsOf s.live entry.block = front ++ entry :: rest ∧
      p = direntsEnd (dirStart entry.block) front ∧
      Laid (s.dir.data entry.block) (dirStart entry.block) front ∧
      RecordAt (s.dir.data entry.block) p entry := by
  obtain ⟨front, entry', rest, hrecords, hname, rfl⟩ := direntOffset_eq_some hp
  have hmem' : entry' ∈ recordsOf s.live entry.block := by
    rw [hrecords]
    exact List.mem_append_right _ List.mem_cons_self
  obtain rfl := eq_of_name h.nodup (mem_recordsOf.mp hmem').1 hmem hname
  have hlaid := (h.laid _ (h.mapped _ hmem)).laid
  rw [hrecords, laid_append] at hlaid
  exact ⟨front, rest, hrecords, rfl, hlaid.1, hlaid.2.1⟩

/-- A lookup finds what the name stands for. -/
theorem entryLookup_spec (h : HashDirInv siphash s) (hlen : name.length ≤ 255) :
    ∃ dir, entryLookup siphash s.dir name = .ok (dir, s.names name) ∧
      HashDirInv siphash { s with dir := dir } := by
  have hkey : ∀ entry ∈ s.live, entry.name = name →
      s.dir.key siphash name = s.dir.key siphash name % 2 ^ 32 := by
    rintro entry hmem rfl
    exact (Nat.mod_eq_of_lt (h.key_lt entry hmem)).symm
  obtain ⟨map, shard, found, hsearch, hfound⟩ := direntSearch_spec h hlen hkey
  refine ⟨s.dir.withMap map, ?_, h.withMap hfound.holds hfound.sameBits⟩
  unfold entryLookup
  rw [bind_of_ok hsearch]
  dsimp only
  cases hnames : s.names name with
  | none =>
      rw [hfound.absent (h.names_eq_none.mp hnames)]
      rfl
  | some ino =>
      obtain ⟨entry, hmem, rfl, rfl⟩ := (h.names name ino).mp hnames
      obtain ⟨p, hp, hoffset⟩ := hfound.present entry hmem rfl
      obtain ⟨_, _, _, _, _, hrecord⟩ := h.recordAt hmem hoffset
      have hblock : (s.dir.withMap map).getBlock entry.block = s.dir.data entry.block := by
        unfold HashDir.getBlock
        rw [mappedBlock_of_lt (h.mapped entry hmem)]
        rfl
      rw [hp]
      dsimp only
      rw [hblock, hrecord.fields.1]
      rfl

/-! ## Creates -/

/-- The directory with a record appended. -/
def HashDir.appended (dir : HashDir) (name : List UInt8) (ino : Nat) : HashDir :=
  { dir with
    tail := (dir.place name).1 * dirBlocksize + (dir.place name).2 + (direntSize + name.length)
    data := Function.update dir.data (dir.place name).1
      (writeText (dir.data (dir.place name).1) (dir.place name).2 (direntBytes ino name)) }

theorem appended_data_self (dir : HashDir) (name : List UInt8) (ino : Nat) :
    (dir.appended name ino).data (dir.place name).1 =
      writeText (dir.data (dir.place name).1) (dir.place name).2 (direntBytes ino name) :=
  Function.update_self _ _ _

theorem appended_data_ne {dir : HashDir} (ino : Nat) (h : block ≠ (dir.place name).1) :
    (dir.appended name ino).data block = dir.data block := Function.update_of_ne h _ _

theorem tail_le_place (dir : HashDir) (name : List UInt8) :
    dir.tail ≤ (dir.place name).1 * dirBlocksize + (dir.place name).2 := by
  unfold HashDir.place dirBlocksize
  split
  · dsimp only
    omega
  · dsimp only
    omega

/-- A record of a name with 1 to 255 bytes goes within its block. -/
theorem place_inside (dir : HashDir) (hname : name.length ≤ 255) :
    (dir.place name).2 + (direntSize + name.length) ≤ dirBlocksize := by
  unfold HashDir.place
  split
  · dsimp only
    unfold direntSize dirBlocksize
    omega
  · dsimp only
    omega

/-- The record goes to its place. -/
theorem append_eq {dir : HashDir} {ino : Nat}
    (hzero : ∀ block i, dir.tail ≤ block * dirBlocksize + i → dir.data block i = 0)
    (hmapped : (dir.place name).1 < 2 ^ 20) :
    dir.append name ino = (dir.appended name ino, (dir.place name).1) := by
  have hlast : dir.tail / dirBlocksize < 2 ^ 20 := by
    refine Nat.lt_of_le_of_lt ?_ hmapped
    unfold HashDir.place
    split
    · exact Nat.le_succ _
    · exact Nat.le_refl _
  have htail : dir.tail / dirBlocksize % 2 ^ 32 = dir.tail / dirBlocksize :=
    Nat.mod_eq_of_lt (Nat.lt_trans hlast (by decide))
  have hstart : dir.tail / dirBlocksize * dirBlocksize % 2 ^ 32 =
      dir.tail / dirBlocksize * dirBlocksize := by
    unfold dirBlocksize at hlast ⊢
    omega
  have hroom : ((dirBlocksize : Int) - (dir.tail -
      (dir.tail / dirBlocksize * dirBlocksize : Nat))) % 2 ^ 32 =
        (dirBlocksize - dir.tail % dirBlocksize : Nat) := by
    unfold dirBlocksize
    omega
  unfold HashDir.append HashDir.makeRoom HashDir.appended
  dsimp only
  rw [htail, hstart, hroom]
  by_cases hfull : dirBlocksize < dir.tail % dirBlocksize + (direntSize + name.length)
  · have hneed : ((direntSize + name.length : Nat) : Int) >
        (dirBlocksize - dir.tail % dirBlocksize : Nat) := by
      unfold dirBlocksize at hfull ⊢
      omega
    have hplace : dir.place name = (dir.tail / dirBlocksize + 1, 0) := if_pos hfull
    rw [hplace] at hmapped ⊢
    dsimp only at hmapped ⊢
    have hnext : (dir.tail / dirBlocksize + 1) % 2 ^ 32 = dir.tail / dirBlocksize + 1 :=
      Nat.mod_eq_of_lt (Nat.lt_trans hmapped (by decide))
    have hnewTail : (dir.tail / dirBlocksize + 1) * dirBlocksize % 2 ^ 32 =
        (dir.tail / dirBlocksize + 1) * dirBlocksize := by
      unfold dirBlocksize at hmapped ⊢
      omega
    have hblank : dir.data (dir.tail / dirBlocksize + 1) = fun _ => 0 := by
      funext i
      refine hzero _ i ?_
      unfold dirBlocksize
      omega
    rw [if_pos hneed, hnext, hnewTail]
    unfold HashDir.putBlock HashDir.getBlock
    rw [mappedBlock_of_lt hmapped, hblank]
    dsimp only
    rw [Function.update_idem, Function.update_self, Nat.mul_mod_left,
      Nat.add_zero ((dir.tail / dirBlocksize + 1) * dirBlocksize)]
  · have hneed : ¬((direntSize + name.length : Nat) : Int) >
        (dirBlocksize - dir.tail % dirBlocksize : Nat) := by
      unfold dirBlocksize at hfull ⊢
      omega
    have hplace : dir.place name = (dir.tail / dirBlocksize, dir.tail % dirBlocksize) :=
      if_neg hfull
    rw [hplace, if_neg hneed]
    unfold HashDir.putBlock HashDir.getBlock
    dsimp only
    rw [mappedBlock_of_lt hlast, Nat.div_add_mod']

theorem recordsOf_append (entry : ShardDirent) :
    recordsOf (live ++ [entry]) block =
      recordsOf live block ++ if entry.block = block then [entry] else [] := by
  unfold recordsOf
  rw [List.filter_append]
  refine congrArg _ ?_
  by_cases h : entry.block = block
  · rw [if_pos h, List.filter_cons_of_pos (by simpa using h), List.filter_nil]
  · rw [if_neg h, List.filter_cons_of_neg (by simpa using h), List.filter_nil]

theorem dirStart_succ (block : Nat) : dirStart (block + 1) = 0 := if_neg (Nat.succ_ne_zero block)

/-- The records of the block of the next record end at its place. -/
theorem HashDirInv.place_end (h : HashDirInv siphash s)
    (hholed : ¬ s.holed (s.dir.place name).1) :
    direntsEnd (dirStart (s.dir.place name).1) (recordsOf s.live (s.dir.place name).1) =
      (s.dir.place name).2 := by
  unfold HashDir.place at hholed ⊢
  split
  · next hfull =>
    rw [if_pos hfull] at hholed
    have hnil : recordsOf s.live (s.dir.tail / dirBlocksize + 1) = [] := by
      refine List.eq_nil_iff_forall_not_mem.mpr fun entry hmem => ?_
      obtain ⟨hlive, hblock⟩ := mem_recordsOf.mp hmem
      have hle := h.block_le entry hlive
      omega
    dsimp only
    rw [hnil]
    exact dirStart_succ _
  · next hfits =>
    rw [if_neg hfits] at hholed
    exact h.tail_eq _ rfl hholed

/-- The place of the next record is not behind what is zero. -/
theorem HashDirInv.place_zero (h : HashDirInv siphash s) {i : Nat}
    (hi : (s.dir.place name).2 ≤ i) : s.dir.data (s.dir.place name).1 i = 0 := by
  refine h.zero _ i (Nat.le_trans (tail_le_place s.dir name) ?_)
  exact Nat.add_le_add_left hi _

/-- The appended record stands behind the records of its block. -/
theorem HashDirInv.append_laid (h : HashDirInv siphash s) (hfits : HashCreateFits siphash s name)
    {ino : Nat} (hino : ino < 2 ^ 32) :
    BlockLaid ((s.dir.appended name ino).data (s.dir.place name).1)
      (dirStart (s.dir.place name).1)
      (recordsOf s.live (s.dir.place name).1 ++ [⟨name, ino, (s.dir.place name).1⟩]) := by
  have hend := h.place_end hfits.holed
  have hinside := place_inside s.dir hfits.nameOk.le
  have hold := (h.laid _ hfits.mapped).laid
  have hlength := direntBytes_length ino name
  rw [appended_data_self]
  refine ⟨laid_append.mpr ⟨hold.congr fun i hi => ?_, ?_, trivial⟩, stops_of_zero fun i hi => ?_⟩
  · rw [hend] at hi
    exact writeText_of_lt hi
  · rw [hend]
    refine ⟨hfits.nameOk, hino, ?_, hfits.seen, hinside⟩
    have hread := @textAt_writeText (s.dir.data (s.dir.place name).1) (s.dir.place name).2
      (direntBytes ino name)
    rw [hlength] at hread
    exact hread
  · rw [direntsEnd_append, hend] at hi
    have hpast : (s.dir.place name).2 + (direntBytes ino name).length ≤ i := by
      rw [hlength]
      exact hi
    rw [writeText_of_ge hpast]
    exact h.place_zero (by omega)

theorem pairs_append {dir : HashDir} (entry : ShardDirent) :
    dir.pairs siphash (live ++ [entry]) =
      dir.pairs siphash live ++ [(dir.key siphash entry.name, entry.block)] := by
  unfold HashDir.pairs
  rw [List.map_append]
  rfl

/-- What the names stand for after a create. -/
theorem HashDirInv.create_names (h : HashDirInv siphash s)
    (hne : ∀ entry ∈ s.live, entry.name ≠ name) (ino block : Nat) (name' : List UInt8) (ino' : Nat) :
    Function.update s.names name (some ino) name' = some ino' ↔
      ∃ entry ∈ s.live ++ [⟨name, ino, block⟩], entry.name = name' ∧ entry.ino = ino' := by
  simp only [List.mem_append, List.mem_singleton, or_and_right, exists_or, exists_eq_left]
  by_cases hname : name' = name
  · subst hname
    rw [Function.update_self]
    constructor
    · intro heq
      exact .inr ⟨rfl, Option.some.inj heq⟩
    · rintro (⟨entry, hmem, hentry, _⟩ | ⟨_, heq⟩)
      · exact absurd hentry (hne entry hmem)
      · exact congrArg some heq
  · rw [Function.update_of_ne hname, h.names]
    exact ⟨.inl, fun hor => hor.resolve_right fun hnew => hname hnew.1.symm⟩

/-- A key has at most as many pairs as the loops probe. -/
theorem HashDirInv.create_few (h : HashDirInv siphash s) (hfits : HashCreateFits siphash s name)
    (key block : Nat) :
    (blocksOf ((s.dir.key siphash name, block) :: s.dir.pairs siphash s.live) key).length ≤
      probeLimit := by
  have hfew := h.few key
  have hlt := hfits.few
  unfold blocksOf at hfew hlt ⊢
  by_cases hkey : s.dir.key siphash name = key
  · rw [hkey] at hlt
    rw [List.filter_cons_of_pos (by simpa using hkey), List.map_cons, List.length_cons]
    exact hlt
  · rw [List.filter_cons_of_neg (by simpa using hkey)]
    exact hfew

/-- What is behind the appended record is zero. -/
theorem HashDirInv.append_zero (h : HashDirInv siphash s) (ino : Nat) {i : Nat}
    (hi : (s.dir.appended name ino).tail ≤ block * dirBlocksize + i) :
    (s.dir.appended name ino).data block i = 0 := by
  by_cases hblock : block = (s.dir.place name).1
  · subst hblock
    have hpast : (s.dir.place name).2 + (direntBytes ino name).length ≤ i := by
      have hi' : (s.dir.place name).1 * dirBlocksize + (s.dir.place name).2 +
        (direntSize + name.length) ≤ (s.dir.place name).1 * dirBlocksize + i := hi
      rw [direntBytes_length]
      omega
    rw [appended_data_self, writeText_of_ge hpast]
    exact h.place_zero (by omega)
  · rw [appended_data_ne ino hblock]
    refine h.zero block i ?_
    exact Nat.le_trans (Nat.le_trans (tail_le_place s.dir name) (Nat.le_add_right _ _)) hi

/-- The records of the last block end at the tail. -/
theorem HashDirInv.append_tail (h : HashDirInv siphash s) (hfits : HashCreateFits siphash s name)
    (ino : Nat) (hblock : block = (s.dir.appended name ino).tail / dirBlocksize) :
    direntsEnd (dirStart block) (recordsOf (s.live ++ [⟨name, ino, (s.dir.place name).1⟩]) block) =
      (s.dir.appended name ino).tail % dirBlocksize := by
  have hend := h.place_end hfits.holed
  have hinside := place_inside s.dir hfits.nameOk.le
  have htail := tail_le_place s.dir name
  have hnew : (s.dir.appended name ino).tail = (s.dir.place name).1 * dirBlocksize +
    ((s.dir.place name).2 + (direntSize + name.length)) := Nat.add_assoc _ _ _
  rw [recordsOf_append]
  rcases Nat.lt_or_eq_of_le hinside with hlt | heq
  · have hsame : (s.dir.place name).1 = block := by
      rw [hblock, hnew, Nat.mul_comm, Nat.mul_add_div (by decide), Nat.div_eq_of_lt hlt,
        Nat.add_zero]
    subst hsame
    rw [if_pos rfl, direntsEnd_append, hend, hnew, Nat.mul_add_mod', Nat.mod_eq_of_lt hlt]
    rfl
  · -- the record fills its block, and the next one has none
    have hnext : block = (s.dir.place name).1 + 1 := by
      rw [hblock, hnew, heq, Nat.mul_comm, Nat.mul_add_div (by decide), Nat.div_self (by decide)]
    have hnil : recordsOf s.live block = [] := by
      refine List.eq_nil_iff_forall_not_mem.mpr fun entry hmem => ?_
      obtain ⟨hlive, hentry⟩ := mem_recordsOf.mp hmem
      have hle := h.block_le entry hlive
      have hsmall : (s.dir.place name).2 < dirBlocksize := by
        unfold direntSize at heq
        omega
      have hplace : s.dir.tail / dirBlocksize ≤ (s.dir.place name).1 := by
        refine Nat.le_of_lt_succ ((Nat.div_lt_iff_lt_mul (by decide)).mpr ?_)
        rw [Nat.succ_mul]
        omega
      omega
    have hother : (s.dir.place name).1 ≠ block := by omega
    rw [if_neg hother, hnil, hnew, heq, Nat.mul_add_mod', Nat.mod_self, hnext]
    exact dirStart_succ _

/-- A create that fits keeps the invariant. -/
theorem HashDirInv.create (h : HashDirInv siphash s) (hfits : HashCreateFits siphash s name)
    (habsent : s.names name = none) {ino : Nat} (hino : ino < 2 ^ 32) {map : Shardmap}
    (hsame : map.SameBits s.dir.map)
    (hholds : MapHolds map
      ((s.dir.key siphash name, (s.dir.place name).1) :: s.dir.pairs siphash s.live)) :
    HashDirInv siphash ((HashDirCall.create name ino).after s
      ((s.dir.appended name ino).withMap map)) := by
  have hne := h.names_eq_none.mp habsent
  have hle : s.dir.tail / dirBlocksize ≤ (s.dir.appended name ino).tail / dirBlocksize :=
    Nat.div_le_div_right (Nat.le_trans (tail_le_place s.dir name) (Nat.le_add_right _ _))
  have hblock : (s.dir.place name).1 ≤ (s.dir.appended name ino).tail / dirBlocksize := by
    refine (Nat.le_div_iff_mul_le (by decide)).mpr ?_
    rw [HashDir.appended, Nat.add_assoc]
    exact Nat.le_add_right _ _
  have hkeys : ∀ name', ((s.dir.appended name ino).withMap map).key siphash name' =
      s.dir.key siphash name' := fun name' => key_congr hsame
  have hpairs : ((s.dir.appended name ino).withMap map).pairs siphash
      (s.live ++ [⟨name, ino, (s.dir.place name).1⟩]) = s.dir.pairs siphash s.live ++
        [(s.dir.key siphash name, (s.dir.place name).1)] := by
    rw [pairs_append, hkeys]
    exact congrArg (· ++ _) (@pairs_congr siphash s.dir _ hsame s.live)
  have hperm := (List.perm_append_singleton (s.dir.key siphash name, (s.dir.place name).1)
    (s.dir.pairs siphash s.live)).symm
  refine ⟨?_, h.create_names hne ino _, ?_, ?_, fun key => ?_, ?_, ?_, fun b hb => ?_,
    fun b i hi => h.append_zero ino hi, fun b hb _ => h.append_tail hfits ino hb,
    fun b hb => h.fresh b (Nat.lt_of_le_of_lt hle hb)⟩
  · exact hpairs.symm ▸ hholds.perm hperm
  · unfold HashDirCall.after
    dsimp only
    rw [List.map_append]
    refine List.nodup_append.mpr ⟨h.nodup, List.nodup_singleton _, ?_⟩
    rintro n hn n' hn' rfl
    obtain ⟨entry, hmem, rfl⟩ := List.mem_map.mp hn
    exact hne entry hmem (List.mem_singleton.mp hn')
  · intro entry hmem
    refine (hkeys entry.name).symm ▸ ?_
    rcases List.mem_append.mp hmem with hmem | hmem
    · exact h.key_lt entry hmem
    · rw [List.mem_singleton.mp hmem]
      exact hfits.key_lt
  · refine hpairs.symm ▸ ?_
    rw [(blocksOf_perm hperm.symm).length_eq]
    exact h.create_few hfits key _
  · intro entry hmem
    rcases List.mem_append.mp hmem with hmem | hmem
    · exact Nat.le_trans (h.block_le entry hmem) hle
    · rw [List.mem_singleton.mp hmem]
      exact hblock
  · intro entry hmem
    rcases List.mem_append.mp hmem with hmem | hmem
    · exact h.mapped entry hmem
    · rw [List.mem_singleton.mp hmem]
      exact hfits.mapped
  · unfold HashDirCall.after HashDir.withMap
    dsimp only
    rw [recordsOf_append]
    by_cases hb' : b = (s.dir.place name).1
    · rw [hb', if_pos rfl]
      exact h.append_laid hfits hino
    · rw [if_neg (Ne.symm hb'), List.append_nil, appended_data_ne ino hb']
      exact h.laid b hb

/-- A create that fits returns, and keeps the invariant. -/
theorem entryCreate_spec (h : HashDirInv siphash s) (hfits : HashCreateFits siphash s name)
    (habsent : s.names name = none) {ino : Nat} (hino : ino < 2 ^ 32) :
    ∃ dir, entryCreate siphash s.dir name ino = .ok (dir, 0) ∧
      HashDirInv siphash ((HashDirCall.create name ino).after s dir) := by
  obtain ⟨map, shard, found, hsearch, hfound⟩ :=
    direntSearch_spec h hfits.nameOk.le fun _ _ _ => rfl
  have hsame := hfound.sameBits
  have hkey : map.KeyOk (s.dir.key siphash name) := by
    unfold Shardmap.KeyOk
    rw [hsame.mapbits, hsame.shardbits]
    exact Nat.mod_lt _ (Nat.two_pow_pos _)
  have hblock : map.BlockOk (s.dir.place name).1 := by
    rw [hfound.table]
    exact hfits.block
  obtain ⟨map', hinsert, hholds⟩ :=
    mapInsert_spec hfound.holds hkey hblock (hfound.insert hfits.insert)
  have hsame' := mapInsert_sameBits hinsert
  have happend := @append_eq name (s.dir.withMap map) ino h.zero hfits.mapped
  refine ⟨(s.dir.appended name ino).withMap map', ?_, h.create hfits habsent hino
    ⟨hsame'.mapbits.trans hsame.mapbits, hsame'.shardbits.trans hsame.shardbits⟩ hholds⟩
  unfold entryCreate
  rw [bind_of_ok hsearch]
  dsimp only
  rw [hfound.absent (h.names_eq_none.mp habsent)]
  dsimp only
  rw [happend]
  dsimp only
  exact bind_of_ok hinsert

/-! ## Deletes -/

/-- The directory after the name at a place of a block was cleared. -/
def HashDir.cleared (dir : HashDir) (block p : Nat) : HashDir :=
  { dir with
    data := Function.update dir.data block
      (writeText (dir.data block) (p + direntSize) [0]) }

/-- The records of the other blocks are still there. -/
theorem recordsOf_filter_ne (hnodup : (live.map ShardDirent.name).Nodup) {entry : ShardDirent}
    (hmem : entry ∈ live) (hblock : block ≠ entry.block) :
    recordsOf (live.filter fun e => e.name ≠ entry.name) block = recordsOf live block := by
  unfold recordsOf
  rw [List.filter_filter]
  refine List.filter_congr fun e he => ?_
  by_cases heq : e.block = block
  · have hne : e.name ≠ entry.name := by
      intro hname
      obtain rfl := eq_of_name hnodup he hmem hname
      exact hblock heq.symm
    simp [heq, hne]
  · simp [heq]

/-- The other records of a block have other names. -/
theorem name_ne_of_last (hnodup : (live.map ShardDirent.name).Nodup) {entry : ShardDirent}
    {front : List ShardDirent} (hfront : recordsOf live entry.block = front ++ [entry]) :
    ∀ e ∈ front, e.name ≠ entry.name := by
  intro e he hname
  have hnames : ((front ++ [entry]).map ShardDirent.name).Nodup := by
    rw [← hfront]
    exact hnodup.sublist (List.filter_sublist.map _)
  rw [List.map_append] at hnames
  exact (List.nodup_append.mp hnames).2.2 _ (List.mem_map_of_mem he) _ List.mem_cons_self hname

/-- The records of the block but the last one are still there. -/
theorem recordsOf_filter_last (hnodup : (live.map ShardDirent.name).Nodup) {entry : ShardDirent}
    {front : List ShardDirent}
    (hfront : recordsOf live entry.block = front ++ [entry]) :
    recordsOf (live.filter fun e => e.name ≠ entry.name) entry.block = front := by
  have hswap : recordsOf (live.filter fun e => e.name ≠ entry.name) entry.block =
      (recordsOf live entry.block).filter fun e => e.name ≠ entry.name := by
    unfold recordsOf
    rw [List.filter_filter, List.filter_filter]
    exact List.filter_congr fun e _ => Bool.and_comm _ _
  have hlast : [entry].filter (fun e => e.name ≠ entry.name) = [] :=
    List.filter_eq_nil_iff.mpr fun e he => by
      rw [List.mem_singleton.mp he]
      simp
  have hall : front.filter (fun e => e.name ≠ entry.name) = front :=
    List.filter_eq_self.mpr fun e he => decide_eq_true (name_ne_of_last hnodup hfront e he)
  rw [hswap, hfront, List.filter_append, hlast, hall, List.append_nil]

/-- The pairs without that of a record. -/
theorem pairs_erase {dir : HashDir} (hnodup : (live.map ShardDirent.name).Nodup)
    {entry : ShardDirent} (hmem : entry ∈ live) :
    ((dir.pairs siphash live).erase (dir.key siphash entry.name, entry.block)).Perm
      (dir.pairs siphash (live.filter fun e => e.name ≠ entry.name)) := by
  obtain ⟨front, rest, rfl⟩ := List.append_of_mem hmem
  have hperm : (front ++ entry :: rest).Perm (entry :: (front ++ rest)) := List.perm_middle
  have hnames := (hperm.map ShardDirent.name).nodup_iff.mp hnodup
  rw [List.map_cons, List.nodup_cons] at hnames
  have hrest : (entry :: (front ++ rest)).filter (fun e => e.name ≠ entry.name) = front ++ rest := by
    rw [List.filter_cons_of_neg (by simp)]
    refine List.filter_eq_self.mpr fun e he => decide_eq_true fun hname => ?_
    exact hnames.1 (hname ▸ List.mem_map_of_mem he)
  have hfilter := hperm.filter fun e => e.name ≠ entry.name
  rw [hrest] at hfilter
  refine List.Perm.trans ((hperm.map _).erase _) ?_
  rw [List.map_cons, List.erase_cons_head]
  exact (hfilter.map _).symm

/-- A block whose last record is cleared. -/
theorem BlockLaid.clear {entry : ShardDirent} {start : Nat} {front : List ShardDirent}
    (hlaid : Laid buffer start front) (hrecord : RecordAt buffer (direntsEnd start front) entry) :
    BlockLaid (writeText buffer (direntsEnd start front + direntSize) [0]) start front := by
  refine ⟨hlaid.congr fun i hi => writeText_of_lt (by omega), fun _ => ⟨?_, ?_⟩⟩
  · have hbefore : direntsEnd start front + 4 < direntsEnd start front + direntSize := by
      unfold direntSize
      omega
    unfold direntLen
    rw [writeText_of_lt hbefore, Nat.add_assoc]
    have hlen : (buffer (direntsEnd start front + 4)).toNat = entry.name.length :=
      hrecord.fields.2.1
    rw [hlen]
    exact hrecord.inside
  · unfold writeText
    rw [if_pos (Nat.le_refl _), Nat.sub_self]
    rfl

/-- A delete that fits keeps the invariant. -/
theorem HashDirInv.delete (h : HashDirInv siphash s) {entry : ShardDirent} (hmem : entry ∈ s.live)
    {front : List ShardDirent} (hfront : recordsOf s.live entry.block = front ++ [entry])
    {map : Shardmap} (hsame : map.SameBits s.dir.map)
    (hholds : MapHolds map ((s.dir.pairs siphash s.live).erase
      (s.dir.key siphash entry.name, entry.block))) :
    HashDirInv siphash ((HashDirCall.delete entry.name).after s
      ((s.dir.cleared entry.block (direntsEnd (dirStart entry.block) front)).withMap map)) := by
  have hlaid := (h.laid _ (h.mapped _ hmem)).laid
  rw [hfront, laid_append] at hlaid
  have hpairs : ((s.dir.cleared entry.block
      (direntsEnd (dirStart entry.block) front)).withMap map).pairs siphash
        (s.live.filter fun e => e.name ≠ entry.name) =
          s.dir.pairs siphash (s.live.filter fun e => e.name ≠ entry.name) :=
    @pairs_congr siphash s.dir _ hsame _
  have hperm := @pairs_erase siphash _ s.dir h.nodup entry hmem
  refine ⟨?_, fun name ino => ?_, ?_, fun e he => ?_, fun key => ?_, fun e he => ?_, fun e he => ?_,
    fun b hb => ?_, fun b i hi => ?_, fun b hb hholed => ?_, fun b hb => ?_⟩
  · exact hpairs.symm ▸ hholds.perm hperm
  · unfold HashDirCall.after
    dsimp only
    simp only [List.mem_filter, decide_eq_true_eq]
    by_cases hname : name = entry.name
    · rw [hname, Function.update_self]
      constructor
      · exact fun heq => nomatch heq
      · rintro ⟨e, ⟨_, hne⟩, heq, _⟩
        exact absurd heq hne
    · rw [Function.update_of_ne hname, h.names]
      constructor
      · rintro ⟨e, he, rfl, hino⟩
        exact ⟨e, ⟨he, hname⟩, rfl, hino⟩
      · rintro ⟨e, ⟨he, _⟩, heq, hino⟩
        exact ⟨e, he, heq, hino⟩
  · exact h.nodup.sublist (List.filter_sublist.map _)
  · exact (@key_congr siphash s e.name _ hsame).symm ▸ h.key_lt e (List.mem_of_mem_filter he)
  · refine hpairs.symm ▸ Nat.le_trans ?_ (h.few key)
    rw [← (blocksOf_perm hperm).length_eq]
    unfold blocksOf
    rw [List.length_map, List.length_map]
    have hsub : ((s.dir.pairs siphash s.live).erase
        (s.dir.key siphash entry.name, entry.block)).Sublist (s.dir.pairs siphash s.live) :=
      List.erase_sublist
    exact (hsub.filter _).length_le
  · exact h.block_le e (List.mem_of_mem_filter he)
  · exact h.mapped e (List.mem_of_mem_filter he)
  · unfold HashDirCall.after HashDir.withMap HashDir.cleared
    dsimp only
    by_cases hblock : b = entry.block
    · subst hblock
      rw [Function.update_self, recordsOf_filter_last h.nodup hfront]
      exact BlockLaid.clear hlaid.1 hlaid.2.1
    · rw [Function.update_of_ne hblock, recordsOf_filter_ne h.nodup hmem hblock]
      exact h.laid b hb
  · unfold HashDirCall.after HashDir.withMap HashDir.cleared
    dsimp only
    have hold := h.zero b i hi
    by_cases hblock : b = entry.block
    · subst hblock
      rw [Function.update_self]
      rcases Nat.lt_trichotomy i (direntsEnd (dirStart entry.block) front + direntSize) with
        hlt | heq | hgt
      · rw [writeText_of_lt hlt]
        exact hold
      · unfold writeText
        rw [if_pos (Nat.le_of_eq heq.symm), heq, Nat.sub_self]
        rfl
      · rw [writeText_of_ge (by exact hgt)]
        exact hold
    · rw [Function.update_of_ne hblock]
      exact hold
  · have hne : b ≠ entry.block := by
      rintro rfl
      exact hholed (.inr ⟨entry, hmem, rfl, rfl⟩)
    unfold HashDirCall.after
    dsimp only
    rw [recordsOf_filter_ne h.nodup hmem hne]
    exact h.tail_eq b hb fun hold => hholed (.inl hold)
  · rintro (hold | ⟨e, he, _, rfl⟩)
    · exact h.fresh b hb hold
    · exact absurd (h.block_le e he) (Nat.not_le_of_lt hb)

/-- A delete changes only the shard of its key. -/
theorem mapDelete_inv {map map' : Shardmap} {shard : Shard} {fail : Nat}
    (hself : map.table (key / 2 ^ map.shardbits) = some shard)
    (h : mapDelete map key block = .ok (map', fail)) :
    ∃ shard', shardDelete shard (key % 2 ^ map.shardbits) block = .ok (shard', fail) ∧
      map' = map.putShard (key / 2 ^ map.shardbits) shard' := by
  unfold mapDelete mapShard at h
  dsimp only at h
  rw [hself] at h
  obtain ⟨_, _, h⟩ := bind_eq_ok.mp h
  obtain ⟨⟨map₁, shard₁⟩, hshard, h⟩ := bind_eq_ok.mp h
  obtain ⟨rfl, rfl⟩ := Prod.mk.inj (Except.ok.inj hshard)
  obtain ⟨⟨shard', fail'⟩, hdelete, h⟩ := bind_eq_ok.mp h
  obtain ⟨rfl, rfl⟩ := Prod.mk.inj (Except.ok.inj h)
  exact ⟨shard', hdelete, rfl⟩

/-- A delete that fits returns, and keeps the invariant. -/
theorem entryDelete_spec (h : HashDirInv siphash s) (hfits : HashDeleteFits siphash s name)
    (hthere : s.names name ≠ none) :
    ∃ dir, entryDelete siphash s.dir name = .ok (dir, 0) ∧
      HashDirInv siphash ((HashDirCall.delete name).after s dir) := by
  obtain ⟨ino, hino⟩ := Option.ne_none_iff_exists'.mp hthere
  obtain ⟨entry, hmem, rfl, _⟩ := (h.names name ino).mp hino
  have hmapped := h.mapped entry hmem
  obtain ⟨front, hfront⟩ := List.getLast?_eq_some_iff.mp (hfits.last entry hmem rfl)
  have hplace : direntOffset entry.name (dirStart entry.block) (recordsOf s.live entry.block) =
      some (direntsEnd (dirStart entry.block) front) := by
    rw [hfront]
    exact direntOffset_append (name_ne_of_last h.nodup hfront) rfl
  obtain ⟨_, _, _, _, _, hrecord⟩ := h.recordAt hmem hplace
  obtain ⟨map, shard, found, hsearch, hfound⟩ :=
    direntSearch_spec h hrecord.name.le fun _ _ _ => rfl
  obtain ⟨p, hp, hoffset⟩ := hfound.present entry hmem rfl
  obtain rfl := Option.some.inj (hplace.symm.trans hoffset)
  have hsame := hfound.sameBits
  have hself : map.table (s.dir.key siphash entry.name / 2 ^ map.shardbits) = some shard := by
    rw [hfound.table]
    exact s.dir.map.putShard_self _ shard
  have hkey : map.KeyOk (s.dir.key siphash entry.name) := by
    unfold Shardmap.KeyOk
    rw [hsame.mapbits, hsame.shardbits]
    exact Nat.mod_lt _ (Nat.two_pow_pos _)
  have hroom : DeleteFits map (s.dir.pairs siphash s.live) (s.dir.key siphash entry.name)
      entry.block := fun _ shard' hs => by
    obtain rfl := Option.some.inj (hself.symm.trans hs)
    exact hfound.fifo hfits.fifo
  obtain ⟨map', hdelete, hholds⟩ := mapDelete_spec hfound.holds hkey hroom
  obtain ⟨shard', hshard, rfl⟩ := mapDelete_inv hself hdelete
  refine ⟨(s.dir.cleared entry.block (direntsEnd (dirStart entry.block) front)).withMap
    (map.putShard (s.dir.key siphash entry.name / 2 ^ map.shardbits) shard'), ?_,
    h.delete hmem hfront ⟨hsame.mapbits, hsame.shardbits⟩ hholds⟩
  unfold entryDelete
  rw [bind_of_ok hsearch]
  dsimp only
  rw [hp]
  dsimp only
  have hshard' : shardDelete shard (s.dir.key siphash entry.name %
      2 ^ (s.dir.withMap map).map.shardbits) entry.block = _ := hshard
  rw [bind_of_ok hshard']
  unfold HashDir.putBlock HashDir.getBlock
  rw [mappedBlock_of_lt hmapped]
  rfl

/-! ## Runs -/

theorem HashDirInv.step (h : HashDirInv siphash s) {call : HashDirCall} (hvalid : call.Valid s)
    (hfits : call.Fits siphash s) :
    ∃ dir, call.Returns siphash s.dir dir ∧ HashDirInv siphash (call.after s dir) := by
  cases call with
  | create name ino => exact entryCreate_spec h hfits hvalid.1 hvalid.2
  | delete name => exact entryDelete_spec h hfits hvalid
  | lookup name =>
      obtain ⟨dir, hlookup, hinv⟩ := entryLookup_spec h hvalid
      exact ⟨dir, ⟨_, hlookup⟩, hinv⟩

theorem returns_unique {call : HashDirCall} {dir dir₁ dir₂ : HashDir}
    (h₁ : call.Returns siphash dir dir₁) (h₂ : call.Returns siphash dir dir₂) : dir₁ = dir₂ := by
  cases call with
  | create name ino => exact (Prod.mk.inj (Except.ok.inj (h₁.symm.trans h₂))).1
  | delete name => exact (Prod.mk.inj (Except.ok.inj (h₁.symm.trans h₂))).1
  | lookup name =>
      obtain ⟨_, h₁⟩ := h₁
      obtain ⟨_, h₂⟩ := h₂
      exact (Prod.mk.inj (Except.ok.inj (h₁.symm.trans h₂))).1

theorem hashDirInv_init (hnew : s.dir.New) (hlive : s.live = [])
    (hholed : ∀ block, ¬ s.holed block) (hnames : ∀ name, s.names name = none) :
    HashDirInv siphash s := by
  have hrecords : ∀ block, recordsOf s.live block = [] := fun block => by
    rw [hlive]
    rfl
  have hnone : ∀ entry, entry ∉ s.live := fun entry => by
    rw [hlive]
    exact List.not_mem_nil
  have hpairs : s.dir.pairs siphash s.live = [] := by
    rw [hlive]
    rfl
  refine ⟨⟨hnew.bits, fun i shard hi => ?_, fun i _ => ?_⟩, fun name ino => ?_, ?_,
    fun entry hmem => absurd hmem (hnone entry), fun key => ?_,
    fun entry hmem => absurd hmem (hnone entry), fun entry hmem => absurd hmem (hnone entry),
    fun block _ => ?_, fun block i hi => ?_, fun block hblock _ => ?_, fun block _ => hholed block⟩
  · rw [hnew.table i] at hi
    exact nomatch hi
  · rw [hpairs]
    rfl
  · rw [hnames]
    constructor
    · exact fun heq => nomatch heq
    · exact fun ⟨entry, hmem, _⟩ => absurd hmem (hnone entry)
  · rw [hlive]
    exact List.nodup_nil
  · rw [hpairs]
    exact Nat.zero_le _
  · rw [hrecords]
    refine ⟨trivial, stops_of_zero fun i hi => hnew.zero block i ?_⟩
    have hstart : dirStart block ≤ i := hi
    unfold dirStart at hstart
    split at hstart
    · omega
    · unfold dirheadSize dirBlocksize
      omega
  · rw [hnew.tail] at hi
    exact hnew.zero block i hi
  · rw [hnew.tail] at hblock ⊢
    rw [hrecords, hblock]
    rfl

theorem hashDirSystem_inv (h : (hashDirSystem siphash).Reachable s) : HashDirInv siphash s := by
  refine h.invariant (I := HashDirInv siphash) ?_ ?_
  · rintro s ⟨hnew, hlive, hholed, hnames⟩
    exact hashDirInv_init hnew hlive hholed hnames
  · rintro s s' hinv ⟨call, dir, hvalid, hfits, hreturns, rfl⟩
    obtain ⟨dir', hreturns', hinv'⟩ := hinv.step hvalid hfits
    obtain rfl := returns_unique hreturns hreturns'
    exact hinv'

/-- A directory whose lookups are right, and whose calls that fit return. -/
structure HashDirSound (siphash : List UInt8 → Nat) (s : HashDirRun) : Prop where
  lookup : ∀ name, name.length ≤ 255 →
    ∃ dir, entryLookup siphash s.dir name = .ok (dir, s.names name)
  calls : ∀ call : HashDirCall, call.Valid s → call.Fits siphash s →
    ∃ dir, call.Returns siphash s.dir dir

/-- In every run whose calls fit, a lookup finds the number of the last create of its name, and
nothing where there is none or the name was deleted since. -/
theorem hashDirSystem_sound (h : (hashDirSystem siphash).Reachable s) :
    HashDirSound siphash s := by
  have hinv := hashDirSystem_inv h
  refine ⟨fun name hlen => ?_, fun call hvalid hfits => ?_⟩
  · obtain ⟨dir, hlookup, _⟩ := entryLookup_spec hinv hlen
    exact ⟨dir, hlookup⟩
  · obtain ⟨dir, hreturns, _⟩ := hinv.step hvalid hfits
    exact ⟨dir, hreturns⟩

end

/-- A directory on an empty file, with a map of two buckets. -/
def emptyHashDir : HashDir := ⟨newMap 0 7 6, 2 ^ 30, dirheadSize, fun _ _ => 0⟩

theorem emptyHashDir_new : emptyHashDir.New :=
  ⟨⟨by decide, by decide, by decide⟩, fun _ => rfl, rfl, fun _ _ _ => rfl⟩

/-- A directory in which the second of two names was deleted again. -/
theorem hashDirSystem_sound_deleted : ∃ s, s.names [97] = some 1 ∧ s.names [98] = none ∧
    HashDirSound (fun _ => 0) s := by
  have hinit : (hashDirSystem fun _ => 0).Reachable
      ⟨emptyHashDir, [], fun _ => False, fun _ => none⟩ :=
    .init ⟨emptyHashDir_new, rfl, fun _ => not_false, fun _ => rfl⟩
  have hfirst := hinit.next ⟨.create [97] 1, _, ⟨rfl, by decide⟩,
    ⟨⟨by decide, by decide, by decide⟩, by decide, by decide,
      fun shard hs => absurd hs.symm (Option.some_ne_none shard), by decide, by decide, by decide,
      by decide, not_false⟩, rfl, rfl⟩
  have hsecond := hfirst.next ⟨.create [98] 2, _, ⟨rfl, by decide⟩,
    ⟨⟨by decide, by decide, by decide⟩, by decide, by decide, fun shard hs => ?_, by decide,
      by decide, by decide, by decide, not_false⟩, rfl, rfl⟩
  · have hdeleted := hsecond.next ⟨.delete [98], _, Option.some_ne_none (2 : Nat),
      ⟨fun entry hmem hname => ?_, fun shard hs => ?_⟩, rfl, rfl⟩
    · exact ⟨_, rfl, rfl, hashDirSystem_sound hdeleted⟩
    · have hmem' : entry ∈ [(⟨[97], 1, 0⟩ : ShardDirent), ⟨[98], 2, 0⟩] := hmem
      have hlast : (recordsOf [⟨[97], 1, 0⟩, ⟨[98], 2, 0⟩] 0).getLast? = some ⟨[98], 2, 0⟩ := by
        decide
      have hentry : entry = ⟨[98], 2, 0⟩ := by
        rcases List.mem_cons.mp hmem' with rfl | hlast
        · exact absurd hname (by decide)
        · exact List.mem_singleton.mp hlast
      subst hentry
      exact hlast
    · obtain rfl := Option.some.inj hs
      exact .inl (by decide)
  · obtain rfl := Option.some.inj hs
    exact ⟨.inr (.inr ⟨by decide, by decide⟩), .inl (by decide)⟩

/-- The second of two names is hidden once the first is deleted. -/
theorem entryLookup_hidden : emptyHashDir.New ∧
    (do
      let (dir, made) ← entryCreate (fun _ => 0) emptyHashDir [97] 1
      let (dir, made') ← entryCreate (fun _ => 0) dir [98] 2
      let (dir, gone) ← entryDelete (fun _ => 0) dir [97]
      let (_, found) ← entryLookup (fun _ => 0) dir [98]
      return (made, made', gone, found)) = .ok (0, 0, 0, none) :=
  ⟨emptyHashDir_new, by rfl⟩

end Tux3
