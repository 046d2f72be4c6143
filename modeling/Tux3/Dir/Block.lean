/-
  Dir/Block.lean --- the records of a directory block.

  A block is tiled by its records from its start to its end (`BlockTiled`).  The walks over
  a block find the first record that they look for, and creation and deletion keep the
  block tiled: a live record is split, a deleted first record is used again, and an entry
  that goes leaves its room to the record before it.
-/
import Mathlib.Data.List.Perm.Basic
import Tux3.Dir.Entry
import Tux3.Lib.Tiling

set_option autoImplicit false

namespace Tux3.Dir

open Tiling

/-! ## Lengths -/

theorem tuxDirAlign_dvd_tuxRecLen (nameLen : Nat) : tuxDirAlign ∣ tuxRecLen nameLen :=
  Nat.dvd_mul_left _ _

/-- A record has room for its head and its name. -/
theorem le_tuxRecLen (nameLen : Nat) : nameLen + tuxDirHead ≤ tuxRecLen nameLen := by
  unfold tuxRecLen tuxDirHead tuxDirAlign
  omega

theorem tuxRecLen_pos (nameLen : Nat) : 0 < tuxRecLen nameLen :=
  Nat.lt_of_lt_of_le (Nat.succ_pos _) (le_tuxRecLen nameLen)

/-- No record is shorter than one for a name of one byte. -/
theorem tuxRecLen_one_le (nameLen : Nat) : tuxRecLen 1 ≤ tuxRecLen nameLen := by
  unfold tuxRecLen tuxDirHead tuxDirAlign
  omega

/-- An aligned length comes back from the disk, also the one that has no room there. -/
theorem tuxRecLenToDisk_eq {len : Nat} (halign : tuxDirAlign ∣ len) (hle : len ≤ 2 ^ 16) :
    ∃ dlen, tuxRecLenToDisk len = .ok dlen ∧ tuxRecLenFromDisk dlen = len := by
  unfold tuxRecLenToDisk
  rw [tuxAssert_of hle]
  refine ⟨_, rfl, ?_⟩
  unfold tuxRecLenFromDisk
  unfold tuxDirAlign at halign
  split <;> split <;> omega

theorem len_eq_zero_of_recLen {entry : Dirent} (h : entry.recLen = 0) : entry.len = 0 := by
  unfold Dirent.len tuxRecLenFromDisk
  rw [h]
  rfl

/-! ## Tiled blocks -/

/-- A record is aligned, and at least as long as its name needs. -/
structure RecordOk (entry : Dirent) : Prop where
  aligned : tuxDirAlign ∣ entry.len
  fits : tuxRecLen entry.nameLen ≤ entry.len
  name_length : entry.name.length = entry.nameLen

/-- The records at `offs` tile the block, and only the first of the block may be deleted. -/
structure BlockTiled (data : DirBlock) (blocksize : Nat) (offs : List Nat) : Prop where
  tiles : Tiles (fun o => (data o).len) 0 offs blocksize
  recordOk : ∀ o ∈ offs, RecordOk (data o)
  live : ∀ o ∈ offs, o ≠ 0 → (data o).isDeleted = false

/-- What `tux_readdir` is to report of a record. -/
def report (data : DirBlock) (blocksize block offset : Nat) : DirReport :=
  ⟨(data offset).name, block * blocksize + offset, (data offset).inum,
    filetype (data offset).type⟩

/-- What `tux_readdir` is to report of some records of a block. -/
def blockReports (data : DirBlock) (blocksize block : Nat) (offs : List Nat) : List DirReport :=
  (offs.filter fun o => !(data o).isDeleted).map (report data blocksize block)

section

variable {data data' : DirBlock} {blocksize block : Nat} {offs front back : List Nat} {o : Nat}

theorem blockReports_append (data : DirBlock) (front back : List Nat) :
    blockReports data blocksize block (front ++ back) =
      blockReports data blocksize block front ++ blockReports data blocksize block back := by
  simp [blockReports]

theorem blockReports_cons (data : DirBlock) (o : Nat) (offs : List Nat) :
    blockReports data blocksize block (o :: offs) =
      (if (data o).isDeleted then [] else [report data blocksize block o]) ++
        blockReports data blocksize block offs := by
  unfold blockReports
  cases hdel : (data o).isDeleted <;> simp [hdel]

/-- What a record reports does not depend on its length. -/
theorem blockReports_congr (h : ∀ o ∈ offs, ∃ recLen, data' o = { data o with recLen := recLen }) :
    blockReports data' blocksize block offs = blockReports data blocksize block offs := by
  induction offs with
  | nil => rfl
  | cons o offs ih =>
      obtain ⟨recLen, heq⟩ := h o List.mem_cons_self
      rw [blockReports_cons, blockReports_cons, ih fun o ho => h o (List.mem_cons_of_mem _ ho)]
      unfold report
      rw [heq]
      rfl

/-- A live record reports one entry more. -/
theorem blockReports_insert (data : DirBlock) (front back : List Nat) (hlive : (data' o).isDeleted = false)
    (h : ∀ o ∈ front ++ back, ∃ recLen, data' o = { data o with recLen := recLen }) :
    (blockReports data' blocksize block (front ++ o :: back)).Perm
      (report data' blocksize block o :: blockReports data blocksize block (front ++ back)) := by
  rw [← blockReports_congr h, blockReports_append, blockReports_cons, hlive,
    if_neg Bool.false_ne_true, blockReports_append]
  exact List.perm_middle

theorem mem_blockReports {entry : DirReport} :
    entry ∈ blockReports data blocksize block offs ↔
      ∃ o ∈ offs, (data o).isDeleted = false ∧ report data blocksize block o = entry := by
  simp [blockReports, and_assoc]

theorem BlockTiled.recLen_ne (h : BlockTiled data blocksize offs) (ho : o ∈ offs) :
    (data o).recLen ≠ 0 := by
  intro hzero
  have hpos : 0 < (data o).len := (h.tiles.mem ho).2.1
  rw [len_eq_zero_of_recLen hzero] at hpos
  exact Nat.lt_irrefl 0 hpos

theorem BlockTiled.length_lt (h : BlockTiled data blocksize offs) :
    offs.length < blocksize + 1 := by
  have hle := h.tiles.length_le
  omega

theorem BlockTiled.lt_blocksize (h : BlockTiled data blocksize offs) (ho : o ∈ offs) :
    o < blocksize := by
  have hpos : 0 < (data o).len := (h.tiles.mem ho).2.1
  have hle : o + (data o).len ≤ blocksize := (h.tiles.mem ho).2.2
  omega

/-! ## Walks -/

/-- A record has room for a record of `reclen` bytes. -/
def hasRoom (data : DirBlock) (reclen o : Nat) : Bool :=
  ((data o).isDeleted && decide (reclen ≤ (data o).len)) ||
    decide (tuxRecLen (data o).nameLen + reclen ≤ (data o).len)

theorem le_len_of_hasRoom {reclen : Nat} (h : hasRoom data reclen o = true) :
    reclen ≤ (data o).len := by
  unfold hasRoom at h
  simp only [Bool.or_eq_true, Bool.and_eq_true, decide_eq_true_eq] at h
  omega

/-- The walk of `tux_create_entry` finds the first record of the block that has room. -/
theorem roomScan_eq {reclen : Nat} (h : BlockTiled data blocksize offs) (hpos : 0 < reclen) :
    roomScan data blocksize reclen (blocksize + 1) 0 =
      (offs.find? (hasRoom data reclen)).elim (.ok .full) fun o =>
        .ok (.room o (tuxRecLen (data o).nameLen) (data o).len) := by
  refine h.tiles.walk (f := roomScan data blocksize reclen) hpos
    (fun fuel o hno => if_neg hno) ?_ ?_ (fun o _ hp => le_len_of_hasRoom hp) h.length_lt
  · intro fuel o ho hroom hp
    unfold roomScan
    rw [if_pos hroom]
    dsimp only
    rw [if_neg (h.recLen_ne ho)]
    unfold hasRoom at hp
    rw [Bool.or_eq_true, decide_eq_true_eq] at hp
    split
    · rfl
    · rename_i hno
      rw [if_pos (hp.resolve_left hno)]
  · intro fuel o ho hroom hp
    conv_lhs => unfold roomScan
    rw [if_pos hroom]
    dsimp only
    rw [if_neg (h.recLen_ne ho)]
    unfold hasRoom at hp
    rw [Bool.or_eq_false_iff, decide_eq_false_iff_not] at hp
    rw [if_neg (Bool.eq_false_iff.1 hp.1), if_neg hp.2]

/-- A record is long enough for the name that it matches. -/
theorem le_len_of_tuxMatch {name : List UInt8} (hok : RecordOk (data o))
    (h : (data o).tuxMatch name = true) : tuxRecLen name.length ≤ (data o).len := by
  unfold Dirent.tuxMatch at h
  simp only [Bool.and_eq_true, beq_iff_eq] at h
  rw [h.1.1]
  exact hok.fits

/-- The walk of `tux_find_entry` finds the first record of the block that has the name. -/
theorem nameScan_eq {name : List UInt8} (h : BlockTiled data blocksize offs) :
    nameScan data blocksize name (blocksize + 1) 0 =
      (offs.find? fun o => (data o).tuxMatch name).elim (.ok .missing) fun o =>
        .ok (.found o) := by
  refine h.tiles.walk (f := nameScan data blocksize name) (tuxRecLen_pos name.length)
    (fun fuel o hno => if_neg hno) ?_ ?_ (fun o ho hp => le_len_of_tuxMatch (h.recordOk o ho) hp)
    h.length_lt
  · intro fuel o ho hroom hp
    unfold nameScan
    rw [if_pos hroom]
    dsimp only
    rw [if_neg (h.recLen_ne ho), if_pos hp]
  · intro fuel o ho hroom hp
    conv_lhs => unfold nameScan
    rw [if_pos hroom]
    dsimp only
    rw [if_neg (h.recLen_ne ho), if_neg (Bool.eq_false_iff.1 hp)]

/-- The walk of `tux_delete_entry` from a record on. -/
theorem prevScan_tiles {lo fuel : Nat} {prev : Option Nat}
    (h : Tiles (fun o => (data o).len) lo front o) (hne : ∀ o ∈ front, (data o).recLen ≠ 0)
    (hfuel : front.length < fuel) :
    prevScan data o fuel lo prev = .ok (some (front.getLast?.or prev)) := by
  induction front generalizing lo fuel prev with
  | nil =>
      obtain ⟨fuel, rfl⟩ := Nat.exists_eq_add_one_of_ne_zero (Nat.ne_of_gt hfuel)
      obtain rfl : lo = o := h
      exact if_neg (Nat.lt_irrefl lo)
  | cons c front ih =>
      obtain ⟨fuel, rfl⟩ := Nat.exists_eq_add_one_of_ne_zero (Nat.ne_of_gt (Nat.zero_lt_of_lt hfuel))
      obtain ⟨rfl, hpos, hrest⟩ := h
      have hle := hrest.le
      unfold prevScan
      rw [if_pos (by omega), if_neg (hne c List.mem_cons_self),
        ih hrest (fun o ho => hne o (List.mem_cons_of_mem _ ho)) (Nat.lt_of_succ_lt_succ hfuel),
        List.getLast?_cons]
      cases front.getLast? <;> rfl

/-- The walk of `tux_delete_entry` finds the record before the entry. -/
theorem prevScan_eq (h : BlockTiled data blocksize (front ++ o :: back)) :
    prevScan data o (o + 1) 0 none = .ok (some front.getLast?) := by
  have hfront := (tiles_append_cons.1 h.tiles).1
  have hlen := hfront.length_le
  rw [prevScan_tiles hfront (fun o ho => h.recLen_ne (List.mem_append_left _ ho)) (by omega),
    Option.or_none]

/-- The walk of `tux_readdir` from a record on reports all that is left of the block, or as
much of it as `filldir` takes, and then stands before the next. -/
theorem readdirBlock_spec {os : List Nat} {lo pos room fuel : Nat}
    (h : BlockTiled data blocksize offs) (hos : os <:+ offs)
    (ht : Tiles (fun o => (data o).len) lo os blocksize) (hpos : pos = block * blocksize + lo)
    (hfuel : os.length < fuel) :
    ((blockReports data blocksize block os).length ≤ room ∧
      readdirBlock data blocksize block fuel lo pos room =
        .ok (.next, blockReports data blocksize block os, (block + 1) * blocksize,
          room - (blockReports data blocksize block os).length)) ∨
    ∃ o rest, room < (blockReports data blocksize block os).length ∧ o :: rest <:+ os ∧
      Tiles (fun o => (data o).len) o (o :: rest) blocksize ∧
      blockReports data blocksize block (o :: rest) =
        (blockReports data blocksize block os).drop room ∧
      readdirBlock data blocksize block fuel lo pos room =
        .ok (.lame, (blockReports data blocksize block os).take room,
          block * blocksize + o, 0) := by
  induction os generalizing lo pos room fuel with
  | nil =>
      obtain ⟨fuel, rfl⟩ := Nat.exists_eq_add_one_of_ne_zero (Nat.ne_of_gt hfuel)
      obtain rfl : lo = blocksize := ht
      refine Or.inl ⟨Nat.zero_le _, ?_⟩
      unfold readdirBlock
      have hlen := tuxRecLen_pos 1
      rw [if_neg (by omega), hpos, Nat.succ_mul]
      rfl
  | cons c os ih =>
      obtain ⟨fuel, rfl⟩ := Nat.exists_eq_add_one_of_ne_zero (Nat.ne_of_gt (Nat.zero_lt_of_lt hfuel))
      have ht' := ht
      obtain ⟨rfl, -, hrest⟩ := ht
      have hc : c ∈ offs := hos.subset List.mem_cons_self
      have hle : c + (data c).len ≤ blocksize := hrest.le
      have hfits := (h.recordOk c hc).fits
      have hone := tuxRecLen_one_le (data c).nameLen
      have hstep := fun room => @ih (c + (data c).len) (pos + (data c).len) room fuel
        ((List.suffix_cons c os).trans hos) hrest
        (by rw [hpos, Nat.add_assoc]) (Nat.lt_of_succ_lt_succ hfuel)
      unfold readdirBlock
      rw [if_pos (by omega)]
      dsimp only
      rw [if_neg (h.recLen_ne hc), blockReports_cons]
      cases hdel : (data c).isDeleted with
      | true =>
          rw [if_pos rfl, if_pos rfl, List.nil_append]
          obtain hall | ⟨o, rest, hlt, hsuffix, hrest'⟩ := hstep room
          · exact Or.inl hall
          · exact Or.inr ⟨o, rest, hlt, hsuffix.trans (List.suffix_cons c os), hrest'⟩
      | false =>
          rw [if_neg Bool.false_ne_true, if_neg Bool.false_ne_true, List.singleton_append]
          cases room with
          | zero =>
              refine Or.inr ⟨c, os, Nat.succ_pos _, List.suffix_refl _, ht', ?_, ?_⟩
              · rw [blockReports_cons, hdel, if_neg Bool.false_ne_true]
                rfl
              · rw [hpos]
                rfl
          | succ room =>
              obtain ⟨hall, heq⟩ | ⟨o, rest, hlt, hsuffix, htiles, hdrop, heq⟩ := hstep room
              · refine Or.inl ⟨Nat.succ_le_succ hall, ?_⟩
                dsimp only
                rw [heq, List.length_cons, Nat.add_sub_add_right]
                rfl
              · refine Or.inr ⟨o, rest, Nat.succ_lt_succ hlt,
                  hsuffix.trans (List.suffix_cons c os), htiles, hdrop, ?_⟩
                dsimp only
                rw [heq]
                rfl

/-! ## Updates -/

/-- A record gets another length. -/
theorem RecordOk.setRecLen {entry : Dirent} {recLen : Nat} (h : RecordOk entry)
    (halign : tuxDirAlign ∣ tuxRecLenFromDisk recLen)
    (hfits : tuxRecLen entry.nameLen ≤ tuxRecLenFromDisk recLen) :
    RecordOk { entry with recLen := recLen } :=
  ⟨halign, hfits, h.name_length⟩

/-- A block stays tiled where each record is the one from before or a good one. -/
theorem BlockTiled.update {offs' : List Nat} (h : BlockTiled data blocksize offs)
    (ht : Tiles (fun o => (data' o).len) 0 offs' blocksize)
    (hrec : ∀ o ∈ offs', (o ∈ offs ∧ data' o = data o) ∨
      (RecordOk (data' o) ∧ (o ≠ 0 → (data' o).isDeleted = false))) :
    BlockTiled data' blocksize offs' := by
  refine ⟨ht, fun o ho => ?_, fun o ho hne => ?_⟩
  · obtain ⟨hmem, heq⟩ | ⟨hok, -⟩ := hrec o ho
    · rw [heq]
      exact h.recordOk o hmem
    · exact hok
  · obtain ⟨hmem, heq⟩ | ⟨-, hlive⟩ := hrec o ho
    · rw [heq]
      exact h.live o hmem hne
    · exact hlive hne

/-- A live record is split: it keeps what its name needs, and the rest becomes the record of a
new entry. -/
theorem BlockTiled.split {new : Dirent} {recLen : Nat}
    (h : BlockTiled data blocksize (front ++ o :: back)) (hlive : (data o).isDeleted = false)
    (hrecLen : tuxRecLenFromDisk recLen = tuxRecLen (data o).nameLen)
    (hnew : RecordOk new) (hnewLive : new.isDeleted = false)
    (hsum : tuxRecLen (data o).nameLen + new.len = (data o).len)
    (hdata : data' = Function.update (Function.update data o { data o with recLen := recLen })
      (o + tuxRecLen (data o).nameLen) new) :
    BlockTiled data' blocksize (front ++ o :: (o + tuxRecLen (data o).nameLen) :: back) ∧
      (blockReports data' blocksize block
          (front ++ o :: (o + tuxRecLen (data o).nameLen) :: back)).Perm
        (report data' blocksize block (o + tuxRecLen (data o).nameLen) ::
          blockReports data blocksize block (front ++ o :: back)) := by
  have hkeep := tuxRecLen_pos (data o).nameLen
  have hrest : 0 < new.len := Nat.lt_of_lt_of_le (tuxRecLen_pos _) hnew.fits
  have hcNew : data' (o + tuxRecLen (data o).nameLen) = new := by
    rw [hdata, Function.update_self]
  have hcOld : data' o = { data o with recLen := recLen } := by
    rw [hdata, Function.update_of_ne (by omega), Function.update_self]
  have hothers : ∀ o' ∈ front ++ back, data' o' = data o' := by
    intro o' ho'
    have hdisj : o' < o ∨ o + (data o).len ≤ o' := h.tiles.disjoint ho'
    rw [hdata, Function.update_of_ne (by omega), Function.update_of_ne (by omega)]
  refine ⟨h.update ?_ fun o' ho' => ?_, ?_⟩
  · refine h.tiles.split hkeep hrest hsum ?_ ?_ fun o' ho' => by rw [hothers o' ho']
    · rw [hcOld]
      exact hrecLen
    · rw [hcNew]
  · simp only [List.mem_append, List.mem_cons] at ho'
    obtain hmem | rfl | rfl | hmem := ho'
    · exact Or.inl ⟨List.mem_append_left _ hmem, hothers o' (List.mem_append_left _ hmem)⟩
    · rw [hcOld]
      refine Or.inr ⟨(h.recordOk o' (List.mem_append_right _ List.mem_cons_self)).setRecLen ?_ ?_,
        fun _ => hlive⟩
      · rw [hrecLen]
        exact tuxDirAlign_dvd_tuxRecLen _
      · rw [hrecLen]
    · rw [hcNew]
      exact Or.inr ⟨hnew, fun _ => hnewLive⟩
    · exact Or.inl ⟨List.mem_append_right _ (List.mem_cons_of_mem _ hmem),
        hothers o' (List.mem_append_right _ hmem)⟩
  · have hinsert : (blockReports data' blocksize block
          ((front ++ [o]) ++ (o + tuxRecLen (data o).nameLen) :: back)).Perm
        (report data' blocksize block (o + tuxRecLen (data o).nameLen) ::
          blockReports data blocksize block ((front ++ [o]) ++ back)) := by
      refine blockReports_insert data (front ++ [o]) back (hcNew ▸ hnewLive) fun o' ho' => ?_
      simp only [List.mem_append, List.mem_singleton] at ho'
      obtain (hmem | rfl) | hmem := ho'
      · exact ⟨_, hothers o' (List.mem_append_left _ hmem)⟩
      · exact ⟨recLen, hcOld⟩
      · exact ⟨_, hothers o' (List.mem_append_right _ hmem)⟩
    simpa using hinsert

/-- One record of a block is written and keeps its length. -/
theorem BlockTiled.set {entry : Dirent} (h : BlockTiled data blocksize (front ++ o :: back))
    (hlen : entry.len = (data o).len) (hok : RecordOk entry)
    (hlive : o ≠ 0 → entry.isDeleted = false)
    (hdata : data' = Function.update data o entry) :
    data' o = entry ∧ (∀ o' ∈ front ++ back, data' o' = data o') ∧
      BlockTiled data' blocksize (front ++ o :: back) := by
  have hself : data' o = entry := by rw [hdata, Function.update_self]
  have hothers : ∀ o' ∈ front ++ back, data' o' = data o' := by
    intro o' ho'
    have hdisj : o' < o ∨ o + (data o).len ≤ o' := h.tiles.disjoint ho'
    have hpos : 0 < (data o).len := (tiles_append_cons.1 h.tiles).2.1
    rw [hdata, Function.update_of_ne (by omega)]
  refine ⟨hself, hothers, h.update (h.tiles.congr fun o' ho' => ?_) fun o' ho' => ?_⟩
  · simp only [List.mem_append, List.mem_cons] at ho'
    obtain hmem | rfl | hmem := ho'
    · rw [hothers o' (List.mem_append_left _ hmem)]
    · rw [hself]
      exact hlen
    · rw [hothers o' (List.mem_append_right _ hmem)]
  · have hmem := ho'
    simp only [List.mem_append, List.mem_cons] at ho'
    obtain hfront | rfl | hback := ho'
    · exact Or.inl ⟨hmem, hothers o' (List.mem_append_left _ hfront)⟩
    · rw [hself]
      exact Or.inr ⟨hok, hlive⟩
    · exact Or.inl ⟨hmem, hothers o' (List.mem_append_right _ hback)⟩

/-- The deleted first record of a block becomes the record of a new entry. -/
theorem BlockTiled.reuse {new : Dirent} (h : BlockTiled data blocksize (front ++ o :: back))
    (hdel : (data o).isDeleted = true) (hlen : new.len = (data o).len) (hnew : RecordOk new)
    (hnewLive : new.isDeleted = false) (hdata : data' = Function.update data o new) :
    BlockTiled data' blocksize (front ++ o :: back) ∧
      (blockReports data' blocksize block (front ++ o :: back)).Perm
        (report data' blocksize block o ::
          blockReports data blocksize block (front ++ o :: back)) := by
  obtain ⟨hself, hothers, htiled⟩ := h.set hlen hnew (fun _ => hnewLive) hdata
  refine ⟨htiled, ?_⟩
  have hskip : blockReports data blocksize block (front ++ o :: back) =
      blockReports data blocksize block (front ++ back) := by
    rw [blockReports_append, blockReports_cons, hdel, if_pos rfl, List.nil_append,
      ← blockReports_append]
  rw [hskip]
  exact blockReports_insert data front back (hself ▸ hnewLive)
    fun o' ho' => ⟨_, hothers o' ho'⟩

theorem isDeleted_clear (entry : Dirent) : entry.clear.isDeleted = true := rfl

theorem RecordOk.cleared {entry : Dirent} (h : RecordOk entry) : RecordOk entry.clear := by
  refine ⟨h.aligned, Nat.le_trans ?_ h.fits, rfl⟩
  unfold tuxRecLen tuxDirHead tuxDirAlign
  simp only [Dirent.clear]
  omega

/-- The first entry of a block is deleted: its record stays. -/
theorem BlockTiled.clear (h : BlockTiled data blocksize (o :: back))
    (hlive : (data o).isDeleted = false)
    (hdata : data' = Function.update data o (data o).clear) :
    BlockTiled data' blocksize (o :: back) ∧
      (blockReports data blocksize block (o :: back)).Perm
        (report data blocksize block o :: blockReports data' blocksize block (o :: back)) := by
  have hzero : o = 0 := h.tiles.1
  have h' : BlockTiled data blocksize ([] ++ o :: back) := h
  have hlen : (data o).clear.len = (data o).len := rfl
  obtain ⟨hself, hothers, htiled⟩ := h'.set hlen
    (h.recordOk o List.mem_cons_self).cleared (fun hne => absurd hzero hne) hdata
  refine ⟨htiled, ?_⟩
  rw [blockReports_cons data' o, hself, isDeleted_clear, if_pos rfl]
  exact blockReports_insert data' [] back hlive fun o' ho' => ⟨_, (hothers o' ho').symm⟩

/-- Another entry is deleted: its record is merged into the one before it. -/
theorem BlockTiled.merge {p recLen : Nat}
    (h : BlockTiled data blocksize (front ++ p :: o :: back))
    (hrecLen : tuxRecLenFromDisk recLen = (data p).len + (data o).len)
    (hdata : data' = Function.update (Function.update data p { data p with recLen := recLen }) o
      (data o).clear) :
    BlockTiled data' blocksize (front ++ p :: back) ∧
      (blockReports data blocksize block (front ++ p :: o :: back)).Perm
        (report data blocksize block o ::
          blockReports data' blocksize block (front ++ p :: back)) := by
  have hpcell := tiles_append_cons.1 h.tiles
  have hppos : 0 < (data p).len := hpcell.2.1
  have ho : o = p + (data p).len := hpcell.2.2.1
  have hopos : 0 < (data o).len := hpcell.2.2.2.1
  have hp : data' p = { data p with recLen := recLen } := by
    rw [hdata, Function.update_of_ne (by omega), Function.update_self]
  have hassoc : front ++ p :: o :: back = (front ++ [p]) ++ o :: back := by simp
  have hothers : ∀ o' ∈ front ++ back, data' o' = data o' := by
    intro o' ho'
    have hdisjp : o' < p ∨ p + (data p).len ≤ o' := by
      refine h.tiles.disjoint ?_
      simp only [List.mem_append, List.mem_cons] at ho' ⊢
      exact ho'.imp_right Or.inr
    have hdisjo : o' < o ∨ o + (data o).len ≤ o' := by
      refine (hassoc ▸ h.tiles).disjoint ?_
      simp only [List.mem_append, List.mem_cons] at ho' ⊢
      exact ho'.imp_left Or.inl
    rw [hdata, Function.update_of_ne (by omega), Function.update_of_ne (by omega)]
  have hpmem : p ∈ front ++ p :: o :: back := List.mem_append_right _ List.mem_cons_self
  have homem : o ∈ front ++ p :: o :: back :=
    List.mem_append_right _ (List.mem_cons_of_mem _ List.mem_cons_self)
  have hpok := h.recordOk p hpmem
  refine ⟨h.update ?_ fun o' ho' => ?_, ?_⟩
  · refine h.tiles.merge ?_ fun o' ho' => by rw [hothers o' ho']
    rw [hp]
    exact hrecLen
  · simp only [List.mem_append, List.mem_cons] at ho'
    obtain hmem | rfl | hmem := ho'
    · exact Or.inl ⟨List.mem_append_left _ hmem, hothers o' (List.mem_append_left _ hmem)⟩
    · rw [hp]
      refine Or.inr ⟨hpok.setRecLen ?_ ?_, h.live o' hpmem⟩
      · rw [hrecLen]
        exact Nat.dvd_add hpok.aligned (h.recordOk o homem).aligned
      · rw [hrecLen]
        exact Nat.le_trans hpok.fits (Nat.le_add_right _ _)
    · exact Or.inl ⟨List.mem_append_right _ (List.mem_cons_of_mem _ (List.mem_cons_of_mem _ hmem)),
        hothers o' (List.mem_append_right _ hmem)⟩
  · have holive : (data o).isDeleted = false := h.live o homem (by omega)
    have hinsert : (blockReports data blocksize block ((front ++ [p]) ++ o :: back)).Perm
        (report data blocksize block o ::
          blockReports data' blocksize block ((front ++ [p]) ++ back)) := by
      refine blockReports_insert data' (front ++ [p]) back holive fun o' ho' => ?_
      simp only [List.mem_append, List.mem_singleton] at ho'
      obtain (hmem | rfl) | hmem := ho'
      · exact ⟨_, (hothers o' (List.mem_append_left _ hmem)).symm⟩
      · exact ⟨(data o').recLen, by rw [hp]⟩
      · exact ⟨_, (hothers o' (List.mem_append_right _ hmem)).symm⟩
    simpa using hinsert

end

end Tux3.Dir
