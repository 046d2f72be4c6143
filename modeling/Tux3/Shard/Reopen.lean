/-
  Shard/Reopen.lean --- `dir_open`: a shard that is rebuilt from its fifo.

  A history of a shard leaves in its fifo a word for each insert and for each delete.  What
  `normalize` makes of them are the words of the live pairs, and the shard that is rebuilt from those
  is probed for the same blocks.  But it does not count its pairs, and the window of its fifo is mapped
  before the head is known.
-/
import Mathlib.Algebra.Order.BigOperators.Group.List
import Tux3.Lib.Outcome
import Tux3.Shard.Map
import Tux3.Shard.Normalize

set_option autoImplicit false

namespace Tux3

/-! ## Code -/

/-- The loop of `dir_open` over the words of a normalized fifo. -/
def rebuild : List Nat → Shard → Except TuxError Shard
  | [], shard => return shard
  | word :: words, shard => do
      tuxAssert (fentryIsInsert word)
      let (shard, _) ← shardInsertNoFifo shard (fentryKey word) (fentryBlock word)
      rebuild words shard

/-- A shard of `dir_open`: the entry of `tailmap`, and the place in the fifo that the window of its
shard is mapped from. -/
structure OpenShard where
  shard : Shard
  tailmap : Nat
  mapped : Nat

/-- `dir_open`, of the shard `i` whose fifo has the words up to its entry of `tailmap`; a shard
without words is not made. -/
def dirOpenShard (map : Shardmap) (i : Nat) (words : List Nat) :
    Except TuxError (Option OpenShard) :=
  if words.length = 0 then return none
  else do
    let (_, shard) ← mapPopulate map i
    let (data, newcount) ← normalize words
    let count := newcount.getD words.length
    let shard ← rebuild (data.take count) shard
    -- the window is mapped at the head of the new shard
    let mapped := shard.head
    let tail := count * 8 % 2 ^ 32
    let shard := { shard with
      head := tail / 2 ^ 12 * 2 ^ 12
      fifoTail := tail % 2 ^ 12 / 8
      fifoTop := fifoWindow / 8
      fifo := data.take count }
    return some ⟨shard, count, mapped⟩

/-- `fifo_tail`. -/
def fifoTailOf (shard : Shard) : Nat := shard.head / 8 + shard.fifoTail

/-! ## Histories -/

/-- A shard of a map that is in use, with the pairs that were inserted and not deleted. -/
structure ShardRun where
  map : Shardmap
  id : Nat
  shard : Shard
  live : List (Nat × Nat)

/-- The calls on a shard. -/
inductive ShardCall where
  | insert (key block : Nat)
  | delete (key block : Nat)

/-- The key and the block are in range, and a delete is of a live pair. -/
def ShardCall.Valid (s : ShardRun) : ShardCall → Prop
  | .insert key block => key < 2 ^ s.map.shardbits ∧ s.map.BlockOk block
  | .delete key block => (key, block) ∈ s.live

/-- The shard has an entry for an insert, and its fifo is not at its fence. -/
def ShardCall.Fits (s : ShardRun) : ShardCall → Prop
  | .insert key _ => s.shard.HasRoom key ∧ s.shard.FifoRoom
  | .delete _ _ => s.shard.FifoRoom

/-- A call. -/
def ShardCall.exec (shard : Shard) : ShardCall → Except TuxError (Shard × Nat)
  | .insert key block => shardInsert shard key block
  | .delete key block => shardDelete shard key block

/-- The pairs after a call. -/
def ShardCall.live (live : List (Nat × Nat)) : ShardCall → List (Nat × Nat)
  | .insert key block => (key, block) :: live
  | .delete key block => live.erase (key, block)

/-- The histories of a shard whose calls fit. -/
def shardSystem : System ShardRun where
  init s := s.map.BitsOk ∧ s.map.table s.id = none ∧ s.live = [] ∧
    ∃ map', populateAndMap s.map s.id = .ok (map', s.shard)
  next s s' := s'.map = s.map ∧ s'.id = s.id ∧ ∃ call ret, call.Valid s ∧ ShardCall.Fits s call ∧
    call.exec s.shard = .ok (s'.shard, ret) ∧ s'.live = call.live s.live

/-! ## The fifo of a history -/

/-- The word of the insert of a pair. -/
def insertWord (pair : Nat × Nat) : Nat := setFentry pair.2 1 pair.1

/-- The word of its delete. -/
def deleteWord (pair : Nat × Nat) : Nat := setFentry pair.2 0 pair.1

/-- The words of the inserts are those of the deletes and of the live pairs, and all of them are at
their places. -/
structure FifoHolds (shard : Shard) (live : List (Nat × Nat)) : Prop where
  words : ∀ v, shard.fifo.count (2 * v + 1) =
    shard.fifo.count (2 * v) + (live.map insertWord).count (2 * v + 1)
  length_eq : shard.fifo.length = fifoTailOf shard
  head_dvd : 8 ∣ shard.head
  head_lt : shard.head < shard.fence

section

open Outcome (bind_eq_ok bind_of_ok)

variable {shard shard' : Shard} {live rest : List (Nat × Nat)} {key block : Nat} {pair : Nat × Nat}

theorem insertWord_eq (pair : Nat × Nat) :
    insertWord pair = 2 * (deleteWord pair / 2) + 1 ∧ deleteWord pair = 2 * (deleteWord pair / 2) := by
  unfold insertWord deleteWord setFentry
  generalize pair.1 * 2 ^ 23 ||| pair.2 = word
  have hone : word * 2 ||| 1 = word * 2 + 1 := by
    rw [show word * 2 = word <<< 1 by rw [Nat.shiftLeft_eq], ← Nat.shiftLeft_add_eq_or_of_lt (by decide)]
  have hzero : word * 2 ||| 0 = word * 2 := Nat.or_zero _
  rw [hone, hzero]
  omega

/-- The words of a pair that fits say which pair it is. -/
theorem fentry_insertWord (hkey : pair.1 < 2 ^ 32) (hblock : pair.2 < 2 ^ 23) :
    fentryKey (insertWord pair) = pair.1 ∧ fentryBlock (insertWord pair) = pair.2 := by
  have hword : pair.1 * 2 ^ 23 ||| pair.2 = pair.1 * 2 ^ 23 + pair.2 := by
    rw [← Nat.shiftLeft_eq, ← Nat.shiftLeft_add_eq_or_of_lt hblock, Nat.shiftLeft_eq]
  have hone : ∀ word : Nat, word * 2 ||| 1 = word * 2 + 1 := fun word => by
    rw [show word * 2 = word <<< 1 by rw [Nat.shiftLeft_eq], ← Nat.shiftLeft_add_eq_or_of_lt (by decide)]
  unfold fentryKey fentryBlock insertWord setFentry
  rw [hword, hone]
  omega

/-! ## What a call does to the fifo -/

/-- Two states of a shard with the same fifo and the same count. -/
structure Shard.SameFifo (shard' shard : Shard) : Prop where
  fifo : shard'.fifo = shard.fifo
  head : shard'.head = shard.head
  fence : shard'.fence = shard.fence
  fifoTail : shard'.fifoTail = shard.fifoTail
  fifoTop : shard'.fifoTop = shard.fifoTop
  count : shard'.count = shard.count

theorem Shard.SameFifo.refl (shard : Shard) : shard.SameFifo shard :=
  ⟨rfl, rfl, rfl, rfl, rfl, rfl⟩

theorem Shard.SameFifo.trans {shard₁ shard₂ shard₃ : Shard} (h : shard₃.SameFifo shard₂)
    (h' : shard₂.SameFifo shard₁) : shard₃.SameFifo shard₁ :=
  ⟨h.fifo.trans h'.fifo, h.head.trans h'.head, h.fence.trans h'.fence,
    h.fifoTail.trans h'.fifoTail, h.fifoTop.trans h'.fifoTop, h.count.trans h'.count⟩

theorem putEntry_sameFifo {i entry : Nat} (h : shard.putEntry i entry = .ok shard') :
    shard'.SameFifo shard := by
  unfold Shard.putEntry at h
  split at h
  · obtain rfl := Except.ok.inj h
    exact ⟨rfl, rfl, rfl, rfl, rfl, rfl⟩
  · exact nomatch h

theorem entryFree_sameFifo {free : Nat} (h : entryFree shard free = .ok shard') :
    shard'.SameFifo shard := by
  unfold entryFree at h
  obtain ⟨_, _, h⟩ := bind_eq_ok.mp h
  obtain ⟨entry, _, h⟩ := bind_eq_ok.mp h
  obtain ⟨shard₁, hput, h⟩ := bind_eq_ok.mp h
  obtain rfl := Except.ok.inj h
  obtain ⟨hfifo, hhead, hfence, htail, htop, hcount⟩ := putEntry_sameFifo hput
  exact ⟨hfifo, hhead, hfence, htail, htop, hcount⟩

theorem takeEntry_sameFifo {next : Nat} (h : takeEntry shard = .ok (some (shard', next))) :
    shard'.SameFifo shard := by
  unfold takeEntry at h
  split at h
  · obtain ⟨entry, _, h⟩ := bind_eq_ok.mp h
    obtain ⟨rfl, _⟩ := Prod.mk.inj (Option.some.inj (Except.ok.inj h))
    exact ⟨rfl, rfl, rfl, rfl, rfl, rfl⟩
  · split at h
    · exact nomatch h
    · obtain ⟨rfl, _⟩ := Prod.mk.inj (Option.some.inj (Except.ok.inj h))
      exact ⟨rfl, rfl, rfl, rfl, rfl, rfl⟩

theorem shardInsertNoFifo_sameFifo {ret : Nat}
    (h : shardInsertNoFifo shard key block = .ok (shard', ret)) : shard'.SameFifo shard := by
  unfold shardInsertNoFifo at h
  obtain ⟨_, _, h⟩ := bind_eq_ok.mp h
  obtain ⟨_, _, h⟩ := bind_eq_ok.mp h
  obtain ⟨head, _, h⟩ := bind_eq_ok.mp h
  split at h
  · obtain ⟨shard₁, hput, h⟩ := bind_eq_ok.mp h
    obtain ⟨rfl, _⟩ := Prod.mk.inj (Except.ok.inj h)
    exact putEntry_sameFifo hput
  · obtain ⟨taken, htake, h⟩ := bind_eq_ok.mp h
    cases taken with
    | none =>
        obtain ⟨rfl, _⟩ := Prod.mk.inj (Except.ok.inj h)
        exact .refl shard
    | some p =>
        obtain ⟨shard₁, next⟩ := p
        obtain ⟨shard₂, hput, h⟩ := bind_eq_ok.mp h
        obtain ⟨shard₃, hput', h⟩ := bind_eq_ok.mp h
        obtain ⟨rfl, _⟩ := Prod.mk.inj (Except.ok.inj h)
        exact (putEntry_sameFifo hput').trans ((putEntry_sameFifo hput).trans
          (takeEntry_sameFifo htake))

theorem shardDeleteLoop_sameFifo {lowkey fuel link : Nat} {prev : Option Nat}
    (h : shardDeleteLoop shard lowkey block fuel link prev = .ok (some shard')) :
    shard'.SameFifo shard := by
  induction fuel generalizing link prev with
  | zero => cases h
  | succ fuel ih =>
      unfold shardDeleteLoop at h
      obtain ⟨entry, _, h⟩ := bind_eq_ok.mp h
      split at h
      · cases prev with
        | none =>
            dsimp only at h
            split at h
            · obtain ⟨shard₁, hput, h⟩ := bind_eq_ok.mp h
              obtain rfl := Option.some.inj (Except.ok.inj h)
              exact putEntry_sameFifo hput
            · obtain ⟨second, _, h⟩ := bind_eq_ok.mp h
              obtain ⟨shard₁, hput, h⟩ := bind_eq_ok.mp h
              obtain ⟨shard₂, hfree, h⟩ := bind_eq_ok.mp h
              obtain rfl := Option.some.inj (Except.ok.inj h)
              exact (entryFree_sameFifo hfree).trans (putEntry_sameFifo hput)
        | some p =>
            obtain ⟨before, _, h⟩ := bind_eq_ok.mp h
            obtain ⟨shard₁, hput, h⟩ := bind_eq_ok.mp h
            obtain ⟨shard₂, hfree, h⟩ := bind_eq_ok.mp h
            obtain rfl := Option.some.inj (Except.ok.inj h)
            exact (entryFree_sameFifo hfree).trans (putEntry_sameFifo hput)
      · split at h
        · cases h
        · exact ih h

/-- What `fifo_append` leaves, after the window was advanced if it was full. -/
structure Appended (shard : Shard) (word : Nat) (shard' : Shard) : Prop where
  fifo : shard'.fifo = shard.fifo ++ [word]
  tail : fifoTailOf shard' = fifoTailOf shard + 1
  head_dvd : 8 ∣ shard.head → 8 ∣ shard'.head
  head_lt : shard.head < shard.fence → shard'.head < shard'.fence

theorem fifoRoom_tail (hok : shard.FifoOk) (h : fifoRoom shard = .ok shard') :
    shard'.fifo = shard.fifo ∧ fifoTailOf shard' = fifoTailOf shard ∧
      (8 ∣ shard.head → 8 ∣ shard'.head) ∧ (shard.head < shard.fence → shard'.head < shard'.fence) := by
  unfold fifoRoom at h
  split at h
  · next hfull =>
      unfold fifoAdvance at h
      obtain ⟨_, hassert, h⟩ := bind_eq_ok.mp h
      obtain rfl := Except.ok.inj h
      have hfence := tuxAssert_eq_ok.mp hassert
      have htop := hok.top_eq
      unfold fifoTailOf
      unfold fifoWindow at hfence htop ⊢
      refine ⟨rfl, ?_, fun hdvd => ?_, fun _ => hfence⟩
      · dsimp only
        omega
      · dsimp only
        omega
  · obtain rfl := Except.ok.inj h
    exact ⟨rfl, rfl, id, id⟩

theorem Appended.of_append {shard₁ shard₂ : Shard} {insert : Nat} (hok : shard.FifoOk)
    (hroom : fifoRoom shard = .ok shard₁) (hsame : shard₂.SameFifo shard₁)
    (happend : fifoAppend shard₂ key block insert = .ok shard') :
    Appended shard (setFentry block insert key) shard' := by
  obtain ⟨hfifo, htail, hdvd, hlt⟩ := fifoRoom_tail hok hroom
  unfold fifoAppend at happend
  obtain ⟨_, _, h⟩ := bind_eq_ok.mp happend
  obtain rfl := Except.ok.inj h
  refine ⟨?_, ?_, fun h => ?_, fun h => ?_⟩
  · dsimp only
    rw [hsame.fifo, hfifo]
  · rw [← htail]
    unfold fifoTailOf
    dsimp only
    rw [hsame.head, hsame.fifoTail, Nat.add_assoc]
  · dsimp only
    rw [hsame.head]
    exact hdvd h
  · dsimp only
    rw [hsame.head, hsame.fence]
    exact hlt h

theorem shardInsert_appended {ret : Nat} (hok : shard.FifoOk)
    (h : shardInsert shard key block = .ok (shard', ret)) :
    Appended shard (insertWord (key, block)) shard' := by
  unfold shardInsert at h
  obtain ⟨shard₁, hroom, h⟩ := bind_eq_ok.mp h
  obtain ⟨⟨shard₂, _⟩, hinsert, h⟩ := bind_eq_ok.mp h
  obtain ⟨shard₃, happend, h⟩ := bind_eq_ok.mp h
  obtain ⟨rfl, _⟩ := Prod.mk.inj (Except.ok.inj h)
  obtain ⟨hfifo, htail, hdvd, hlt⟩ :=
    Appended.of_append hok hroom (shardInsertNoFifo_sameFifo hinsert) happend
  exact ⟨hfifo, htail, hdvd, hlt⟩

theorem shardDelete_appended (hok : shard.FifoOk)
    (h : shardDelete shard key block = .ok (shard', 0)) :
    Appended shard (deleteWord (key, block)) shard' := by
  unfold shardDelete at h
  obtain ⟨_, _, h⟩ := bind_eq_ok.mp h
  obtain ⟨head, _, h⟩ := bind_eq_ok.mp h
  split at h
  · exact absurd (Prod.mk.inj (Except.ok.inj h)).2 (by decide)
  · obtain ⟨found, hloop, h⟩ := bind_eq_ok.mp h
    cases found with
    | none => exact absurd (Prod.mk.inj (Except.ok.inj h)).2 (by decide)
    | some shard₁ =>
        have hsame := shardDeleteLoop_sameFifo hloop
        obtain ⟨shard₂, hroom, h⟩ := bind_eq_ok.mp h
        obtain ⟨shard₃, happend, h⟩ := bind_eq_ok.mp h
        obtain ⟨rfl, _⟩ := Prod.mk.inj (Except.ok.inj h)
        have hok₁ : shard₁.FifoOk :=
          ⟨by rw [hsame.fifoTail, hsame.fifoTop]; exact hok.tail_le, hsame.fifoTop.trans hok.top_eq⟩
        obtain ⟨hfifo, htail, hdvd, hlt⟩ := Appended.of_append hok₁ hroom (.refl shard₂) happend
        refine ⟨by rw [← hsame.fifo]; exact hfifo, ?_, ?_, ?_⟩
        · have hplace : fifoTailOf shard₁ = fifoTailOf shard := by
            unfold fifoTailOf
            rw [hsame.head, hsame.fifoTail]
          rw [← hplace]
          exact htail
        · rw [← hsame.head]
          exact hdvd
        · rw [← hsame.head, ← hsame.fence]
          exact hlt

theorem FifoHolds.insert (h : FifoHolds shard live)
    (happended : Appended shard (insertWord pair) shard') : FifoHolds shard' (pair :: live) := by
  obtain ⟨hinsert, hdelete⟩ := insertWord_eq pair
  refine ⟨fun v => ?_, ?_, happended.head_dvd h.head_dvd, happended.head_lt h.head_lt⟩
  · have hwords := h.words v
    have hodd : (insertWord pair == 2 * v) = false := beq_eq_false_iff_ne.mpr (by omega)
    rw [happended.fifo, List.count_append, List.count_append, List.count_singleton,
      List.count_singleton, List.map_cons, List.count_cons, hodd, if_neg Bool.false_ne_true, hwords]
    omega
  · rw [happended.fifo, List.length_append, happended.tail, h.length_eq]
    rfl

theorem FifoHolds.delete (h : FifoHolds shard live) (hmem : pair ∈ live)
    (happended : Appended shard (deleteWord pair) shard') :
    FifoHolds shard' (live.erase pair) := by
  obtain ⟨hinsert, hdelete⟩ := insertWord_eq pair
  refine ⟨fun v => ?_, ?_, happended.head_dvd h.head_dvd, happended.head_lt h.head_lt⟩
  · have hwords := h.words v
    have heven : deleteWord pair ≠ 2 * v + 1 := by omega
    have hperm := (List.perm_cons_erase hmem).map insertWord
    rw [hperm.count_eq, List.map_cons, List.count_cons] at hwords
    have hsame : (insertWord pair == 2 * v + 1) = (deleteWord pair == 2 * v) := by
      rw [Bool.eq_iff_iff, beq_iff_eq, beq_iff_eq]
      omega
    rw [happended.fifo, List.count_append, List.count_append, List.count_singleton,
      List.count_singleton, if_neg (by simpa using heven), hwords, hsame]
    omega
  · rw [happended.fifo, List.length_append, happended.tail, h.length_eq]
    rfl

/-! ## Every history -/

/-- What holds after every history whose calls fit. -/
structure ShardInv (s : ShardRun) : Prop where
  bits : s.map.BitsOk
  none : s.map.table s.id = none
  shaped : s.map.Shaped s.shard
  size : s.shard.size = s.map.shardSize
  fence : s.shard.fence = 2 ^ s.map.fencebits
  holds : s.shard.Holds s.live
  fifo : FifoHolds s.shard s.live

theorem ShardInv.bucket_lt {s : ShardRun} (h : ShardInv s) (hkey : key < 2 ^ s.map.shardbits) :
    s.shard.bucket key < s.shard.buckets := by
  have hbucket := h.shaped.bucket_lt h.bits key
  rwa [Nat.mod_eq_of_lt hkey] at hbucket

theorem ShardInv.init {s : ShardRun} (h : shardSystem.init s) : ShardInv s := by
  obtain ⟨hbits, hnone, hlive, map', hpopulate⟩ := h
  obtain ⟨hbuckets, hfence⟩ := hbits.shardSize_bounds
  unfold populateAndMap mapPopulate at hpopulate
  obtain ⟨⟨map₁, shard₁⟩, hmake, hpopulate⟩ := bind_eq_ok.mp hpopulate
  obtain ⟨_, _, hmake⟩ := bind_eq_ok.mp hmake
  obtain ⟨_, _, hmake⟩ := bind_eq_ok.mp hmake
  obtain ⟨rfl, rfl⟩ := Prod.mk.inj (Except.ok.inj hmake)
  have hshard := (Prod.mk.inj (Except.ok.inj hpopulate)).2
  have hok := @newShard_ok s.map.junk s.map.shardSize (2 ^ s.map.fencebits)
    (s.map.shardbits - s.map.lowbits) s.map.lowbits hbuckets
  refine ⟨hbits, hnone, ?_, ?_, ?_, ?_, ?_⟩
  · rw [← hshard]
    exact ⟨rfl, rfl⟩
  · rw [← hshard]
    rfl
  · rw [← hshard]
    rfl
  · rw [← hshard, hlive]
    exact ⟨⟨_, _, hok.congr ⟨rfl, rfl, rfl⟩ rfl rfl rfl⟩, rfl,
      fun pair hpair => absurd hpair List.not_mem_nil, ⟨Nat.zero_le _, rfl⟩⟩
  · rw [← hshard, hlive]
    exact ⟨fun _ => rfl, (Nat.zero_div 8).symm, Nat.dvd_zero 8, Nat.two_pow_pos _⟩

theorem ShardInv.step {s s' : ShardRun} (h : ShardInv s) (hstep : shardSystem.next s s') :
    ShardInv s' := by
  obtain ⟨map, id, shard, live⟩ := s
  obtain ⟨map', id', shard', live'⟩ := s'
  obtain ⟨hmap, hid, call, ret, hvalid, hfits, hexec, hlive⟩ := hstep
  dsimp only at hmap hid hexec hlive
  subst hmap hid hlive
  cases call with
  | insert key block =>
      obtain ⟨hkey, hblock⟩ := hvalid
      have hblk : block + 1 < 2 ^ shard.blockbits := by
        unfold Shard.blockbits
        rw [h.shaped.lowbits]
        exact hblock
      obtain ⟨shard'', hinsert, hsame, hfence, hholds⟩ :=
        shardInsert_spec h.holds (h.bucket_lt hkey) hblk hfits.1 hfits.2
      have hrun : shardInsert shard key block = .ok (shard', ret) := hexec
      have happended := shardInsert_appended h.holds.fifo hrun
      rw [hinsert] at hrun
      obtain ⟨rfl, _⟩ := Prod.mk.inj (Except.ok.inj hrun)
      exact ⟨h.bits, h.none, ⟨hsame.bucketbits.trans h.shaped.bucketbits,
        hsame.lowbits.trans h.shaped.lowbits⟩, hsame.size.trans h.size, hfence.trans h.fence, hholds,
        h.fifo.insert happended⟩
  | delete key block =>
      have hmem : (key, block) ∈ live := hvalid
      obtain ⟨cells, frees, hok⟩ := h.holds.chains
      obtain ⟨shard'', hdelete, hsame, hfence, hholds⟩ :=
        @shardDelete_spec _ _ key block h.holds (hok.bucket_lt _ hmem) fun _ => hfits
      rw [if_pos hmem] at hdelete
      have happended := shardDelete_appended h.holds.fifo hdelete
      have hrun : shardDelete shard key block = .ok (shard', ret) := hexec
      rw [hdelete] at hrun
      obtain ⟨rfl, _⟩ := Prod.mk.inj (Except.ok.inj hrun)
      exact ⟨h.bits, h.none, ⟨hsame.bucketbits.trans h.shaped.bucketbits,
        hsame.lowbits.trans h.shaped.lowbits⟩, hsame.size.trans h.size, hfence.trans h.fence, hholds,
        h.fifo.delete hmem happended⟩

theorem shardSystem_inv {s : ShardRun} (h : shardSystem.Reachable s) : ShardInv s :=
  h.invariant (I := ShardInv) (fun _ hinit => .init hinit) fun _ _ hinv hstep => hinv.step hstep

/-! ## Room for the pairs -/

/-- The entries beyond the buckets that the pairs take. -/
def Shard.movedCount (shard : Shard) (live : List (Nat × Nat)) : Nat :=
  ((List.range shard.buckets).map fun bucket => (shard.inBucket live bucket).length - 1).sum

theorem ShardOk.used_eq {cells : Nat → List Nat} {frees : List Nat}
    (h : ShardOk shard cells frees live) :
    frees.length + shard.movedCount live = shard.used - shard.buckets := by
  have hlength := h.cover.length_eq
  rw [List.length_append, List.length_range', List.length_flatMap] at hlength
  rw [← hlength]
  unfold Shard.movedCount
  congr 2
  refine List.map_congr_left fun bucket hbucket => ?_
  have hholds := (h.holds bucket (List.mem_range.mp hbucket)).length_eq
  rw [List.length_map] at hholds
  rw [List.length_tail, hholds]

/-- With one more pair in a bucket that is not empty there are more entries taken. -/
theorem movedCount_lt {done : List (Nat × Nat)} (hperm : live.Perm (done ++ pair :: rest))
    (hbucket : shard.bucket pair.1 < shard.buckets)
    (hnonempty : shard.inBucket done (shard.bucket pair.1) ≠ []) :
    shard.movedCount done < shard.movedCount live := by
  have hlength : ∀ bucket, (shard.inBucket live bucket).length =
      (shard.inBucket done bucket).length + (shard.inBucket (pair :: rest) bucket).length := by
    intro bucket
    unfold Shard.inBucket
    rw [(hperm.filter _).length_eq, List.filter_append, List.length_append]
  unfold Shard.movedCount
  refine List.sum_lt_sum _ _ (fun bucket _ => ?_) ⟨shard.bucket pair.1, List.mem_range.mpr hbucket, ?_⟩
  · rw [hlength]
    omega
  · have hpos := List.length_pos_iff.mpr hnonempty
    have hmore : 0 < (shard.inBucket (pair :: rest) (shard.bucket pair.1)).length := by
      unfold Shard.inBucket
      rw [List.filter_cons_of_pos (by simp)]
      exact Nat.succ_pos _
    rw [hlength]
    omega

/-- A shard of the same size that has some of the pairs of another one has room for the next. -/
theorem ShardOk.hasRoom {old : Shard} {cells cells' : Nat → List Nat} {frees frees' : List Nat}
    {done : List (Nat × Nat)} (h : ShardOk shard cells frees done)
    (hold : ShardOk old cells' frees' live) (hsame : old.SameBits shard)
    (hperm : live.Perm (done ++ pair :: rest)) (hbucket : shard.bucket pair.1 < shard.buckets) :
    shard.HasRoom pair.1 := by
  obtain ⟨hsize, hbucketbits, hlowbits⟩ := hsame
  have hbuckets : old.buckets = shard.buckets := congrArg (2 ^ ·) hbucketbits
  have hmoved : old.movedCount live = shard.movedCount live := by
    unfold Shard.movedCount Shard.inBucket Shard.bucket
    rw [hbuckets, hlowbits]
  by_cases hempty : shard.next (shard.bucket pair.1) = noentry
  · exact .inl hempty
  · by_cases hfree : shard.free ≠ 0
    · exact .inr (.inl hfree)
    · have hfrees : frees = [] := by
        have hlinked := h.free
        rw [Nat.eq_zero_of_not_pos fun hpos => hfree (Nat.ne_of_gt hpos)] at hlinked
        exact hlinked.eq_nil
      have hnonempty : shard.inBucket done (shard.bucket pair.1) ≠ [] := by
        obtain ⟨tail, hcells, _⟩ := h.cells_of_not_empty hbucket hempty
        intro hnil
        have hholds := (h.holds _ hbucket).length_eq
        rw [hnil, hcells, List.length_map] at hholds
        exact absurd hholds (Nat.succ_ne_zero _)
      have hless := movedCount_lt hperm hbucket hnonempty
      have hused := h.used_eq
      have hused' := hold.used_eq
      rw [hfrees, List.length_nil] at hused
      rw [hmoved, hbuckets] at hused'
      have hle := h.buckets_le
      have hle' := hold.used_le
      rw [hsize] at hle'
      have hlast := hold.index_lt (old.used - 1) (by omega) (by omega)
      exact .inr (.inr ⟨by omega, by omega⟩)

/-! ## The rebuilt shard -/

/-- The pair of a word. -/
def fentryPair (word : Nat) : Nat × Nat := (fentryKey word, fentryBlock word)

/-- The words of the pairs of another shard make a shard of its size that holds them. -/
theorem rebuild_spec {old : Shard} {cells cells' : Nat → List Nat} {frees frees' : List Nat}
    {done : List (Nat × Nat)} {words : List Nat} (hold : ShardOk old cells' frees' live)
    (hblocks : ∀ pair ∈ live, pair.2 + 1 < 2 ^ old.blockbits)
    (h : ShardOk shard cells frees done) (hsame : old.SameBits shard)
    (hinsert : ∀ word ∈ words, fentryIsInsert word)
    (hperm : live.Perm (done ++ words.map fentryPair)) :
    ∃ shard', rebuild words shard = .ok shard' ∧ shard'.SameBits shard ∧
      ∃ cells frees, ShardOk shard' cells frees live := by
  induction words generalizing shard cells frees done with
  | nil =>
      refine ⟨shard, rfl, ⟨rfl, rfl, rfl⟩, cells, frees, ?_⟩
      rw [List.map_nil, List.append_nil] at hperm
      exact h.perm hperm
  | cons word words ih =>
      obtain ⟨hsize, hbucketbits, hlowbits⟩ := hsame
      rw [List.map_cons] at hperm
      have hmem : fentryPair word ∈ live := by
        refine hperm.mem_iff.mpr (List.mem_append_right _ List.mem_cons_self)
      have hbucket : shard.bucket (fentryPair word).1 < shard.buckets := by
        have hlt := hold.bucket_lt _ hmem
        unfold Shard.bucket Shard.buckets at hlt ⊢
        rwa [hlowbits, hbucketbits] at hlt
      have hblock : (fentryPair word).2 + 1 < 2 ^ shard.blockbits := by
        have hlt := hblocks _ hmem
        unfold Shard.blockbits at hlt ⊢
        rwa [hlowbits] at hlt
      obtain ⟨used, free, table, cells₁, frees₁, hstep, hok⟩ := shardInsertNoFifo_spec h hbucket
        hblock (h.hasRoom hold ⟨hsize, hbucketbits, hlowbits⟩ hperm hbucket)
      obtain ⟨shard', hrun, hsame', hholds⟩ := ih hok ⟨hsize, hbucketbits, hlowbits⟩
        (fun w hw => hinsert w (List.mem_cons_of_mem _ hw))
        (hperm.trans List.perm_middle)
      refine ⟨shard', ?_, ⟨hsame'.size, hsame'.bucketbits, hsame'.lowbits⟩, hholds⟩
      have hassert : tuxAssert (fentryIsInsert word) = .ok () :=
        tuxAssert_of (hinsert word List.mem_cons_self)
      have hstep' : shardInsertNoFifo shard (fentryKey word) (fentryBlock word) = _ := hstep
      rw [rebuild, bind_of_ok hassert, bind_of_ok hstep']
      exact hrun

/-- The inserts do not count. -/
theorem rebuild_sameFifo {words : List Nat} (h : rebuild words shard = .ok shard') :
    shard'.SameFifo shard := by
  induction words generalizing shard with
  | nil =>
      obtain rfl := Except.ok.inj h
      exact .refl shard
  | cons word words ih =>
      rw [rebuild] at h
      obtain ⟨_, _, h⟩ := bind_eq_ok.mp h
      obtain ⟨⟨shard₁, _⟩, hinsert, h⟩ := bind_eq_ok.mp h
      exact (ih h).trans (shardInsertNoFifo_sameFifo hinsert)

/-- What `normalize` keeps of a history are the words of the live pairs. -/
theorem FifoHolds.kept_perm {kept : List Nat} (h : FifoHolds shard live)
    (hkept : ∀ v, kept.count (2 * v) = 0 ∧
      kept.count (2 * v + 1) + shard.fifo.count (2 * v) = shard.fifo.count (2 * v + 1)) :
    kept.Perm (live.map insertWord) := by
  refine List.perm_iff_count.mpr fun word => ?_
  obtain ⟨v, rfl | rfl⟩ : ∃ v, word = 2 * v ∨ word = 2 * v + 1 := ⟨word / 2, by omega⟩
  · have hnone : (live.map insertWord).count (2 * v) = 0 := by
      refine List.count_eq_zero.mpr fun hmem => ?_
      obtain ⟨pair, _, hword⟩ := List.mem_map.mp hmem
      have hodd := (insertWord_eq pair).1
      omega
    rw [hnone]
    exact (hkept v).1
  · have hsum := (hkept v).2
    have hwords := h.words v
    omega

theorem map_fentryPair (hkeys : ∀ pair ∈ live, pair.1 < 2 ^ 32)
    (hblocks : ∀ pair ∈ live, pair.2 < 2 ^ 23) : (live.map insertWord).map fentryPair = live := by
  rw [List.map_map]
  refine (List.map_congr_left fun pair hpair => ?_).trans (List.map_id live)
  obtain ⟨hkey, hblock⟩ := fentry_insertWord (hkeys pair hpair) (hblocks pair hpair)
  exact Prod.ext hkey hblock

end

/-! ## Reopened shards -/

/-- `normalize` succeeds, and keeps the words of the live pairs in order. -/
def NormalizesTo (words : List Nat) (live : List (Nat × Nat)) : Prop :=
  ∃ kept rest, normalize words = .ok (kept ++ rest, some kept.length) ∧ kept.Pairwise (· ≤ ·) ∧
    (∀ word ∈ kept, fentryIsInsert word) ∧ (kept.map fentryPair).Perm live

/-- A key is probed for the same blocks. -/
def SameProbes (bits : Nat) (shard shard' : Shard) : Prop :=
  ∀ key, key < 2 ^ bits → ∃ blocks blocks', probeAll shard key (shard.size + 1) 0 = .ok blocks ∧
    probeAll shard' key (shard'.size + 1) 0 = .ok blocks' ∧ blocks'.Perm blocks

/-- The tail of the fifo is in the window at the place of its entry. -/
def OpenShard.TailInPlace (opened : OpenShard) : Prop :=
  opened.mapped + 8 * opened.shard.fifoTail = 8 * fifoTailOf opened.shard

/-- The tail is behind the words of the live pairs, in `tailmap` and in the shard. -/
def OpenShard.TailBehind (opened : OpenShard) (live : List (Nat × Nat)) : Prop :=
  opened.tailmap = live.length ∧ fifoTailOf opened.shard = live.length

/-- The shard that is made from the fifo of a history is as the one of the history; without words
there is none, and nothing is live. -/
def ReopensRight (s : ShardRun) : Prop :=
  match dirOpenShard s.map s.id s.shard.fifo with
  | .ok none => s.live = []
  | .ok (some opened) => NormalizesTo s.shard.fifo s.live ∧
      SameProbes s.map.shardbits s.shard opened.shard ∧ opened.TailBehind s.live ∧
      opened.TailInPlace ∧ opened.shard.count = s.live.length
  | .error _ => False

section

open Outcome (bind_eq_ok bind_of_ok)

variable {s : ShardRun}

theorem ShardInv.fifo_lt (h : ShardInv s) : s.shard.fifo.length < 2 ^ 28 := by
  have htail := h.holds.fifo.tail_le
  have htop := h.holds.fifo.top_eq
  have hhead := h.fifo.head_lt
  have hbits := h.bits.bucketbits_le
  have hfence : 2 ^ s.map.fencebits ≤ 2 ^ 30 := by
    refine Nat.pow_le_pow_right (by decide) ?_
    unfold Shardmap.fencebits
    unfold shardNextbits at hbits
    omega
  rw [h.fence] at hhead
  rw [h.fifo.length_eq]
  unfold fifoTailOf
  unfold fifoWindow at htop
  omega

theorem ShardInv.key_lt (h : ShardInv s) {pair : Nat × Nat} (hpair : pair ∈ s.live) :
    pair.1 < 2 ^ 32 := by
  obtain ⟨cells, frees, hok⟩ := h.holds.chains
  have hbucket := hok.bucket_lt pair hpair
  unfold Shard.bucket Shard.buckets at hbucket
  rw [h.shaped.bucketbits, h.shaped.lowbits] at hbucket
  have hlt := Nat.lt_mul_of_div_lt hbucket (Nat.two_pow_pos _)
  rw [← Nat.pow_add, Nat.sub_add_cancel h.bits.lowbits_le] at hlt
  have hbits := h.bits.shardbits_lt
  unfold keybits at hbits
  exact Nat.lt_of_lt_of_le hlt (Nat.pow_le_pow_right (by decide) (by omega))

/-- What `dir_open` makes of the fifo of a history with words. -/
theorem ShardInv.opened (h : ShardInv s) (hblocks : ∀ pair ∈ s.live, pair.2 < 2 ^ 23)
    (hwords : s.shard.fifo ≠ []) :
    NormalizesTo s.shard.fifo s.live ∧
      ∃ opened, dirOpenShard s.map s.id s.shard.fifo = .ok (some opened) ∧
        SameProbes s.map.shardbits s.shard opened.shard ∧ opened.TailBehind s.live ∧
        (opened.TailInPlace ↔ s.live.length < 512) := by
  have hlength := List.length_pos_iff.mpr hwords
  have hcancelled : Cancelled s.shard.fifo := fun v => by
    rw [h.fifo.words v]
    exact Nat.le_add_right _ _
  obtain ⟨kept, rest, hnorm, hshort, hsorted, hkept⟩ :=
    normalize_spec hlength h.fifo_lt hcancelled
  have hperm := h.fifo.kept_perm hkept
  have hinsert : ∀ word ∈ kept, fentryIsInsert word := fun word hword => by
    obtain ⟨pair, _, rfl⟩ := List.mem_map.mp (hperm.mem_iff.mp hword)
    rw [(insertWord_eq pair).1]
    exact fentryIsInsert_insert _
  have hpairs : (kept.map fentryPair).Perm s.live :=
    (hperm.map fentryPair).trans (.of_eq (map_fentryPair (fun pair hp => h.key_lt hp) hblocks))
  have hcount : kept.length = s.live.length := by
    rw [← hpairs.length_eq, List.length_map]
  refine ⟨⟨kept, rest, hnorm, hsorted, hinsert, hpairs⟩, ?_⟩
  -- the new shard of the words
  obtain ⟨hbuckets, hfence⟩ := h.bits.shardSize_bounds
  let shard := newShard s.map.junk s.map.shardSize (2 ^ s.map.fencebits)
    (s.map.shardbits - s.map.lowbits) s.map.lowbits
  have hmake : mapPopulate s.map s.id =
      .ok ({ s.map with table := Function.update s.map.table s.id (some shard) }, shard) := by
    unfold mapPopulate
    rw [bind_of_ok (tuxAssert_of h.none), bind_of_ok (tuxAssert_of hfence)]
    rfl
  obtain ⟨cells, frees, hok⟩ := h.holds.chains
  have hsame : s.shard.SameBits shard := ⟨h.size, h.shaped.bucketbits, h.shaped.lowbits⟩
  obtain ⟨shard', hrebuild, hsame', cells', frees', hok'⟩ := rebuild_spec hok h.holds.blocks
    (newShard_ok hbuckets) hsame hinsert hpairs.symm
  have hhead : shard'.head = 0 := (rebuild_sameFifo hrebuild).head
  have htake : (kept ++ rest).take kept.length = kept := List.take_left
  have htail : kept.length * 8 % 2 ^ 32 = kept.length * 8 := by
    refine Nat.mod_eq_of_lt ?_
    have := h.fifo_lt
    omega
  refine ⟨⟨{ shard' with
      head := kept.length * 8 / 2 ^ 12 * 2 ^ 12
      fifoTail := kept.length * 8 % 2 ^ 12 / 8
      fifoTop := fifoWindow / 8
      fifo := kept }, kept.length, 0⟩, ?_, fun key hkey => ?_, ⟨hcount, ?_⟩, ?_⟩
  · unfold dirOpenShard
    rw [if_neg (Nat.ne_of_gt hlength), bind_of_ok hmake]
    dsimp only
    rw [bind_of_ok hnorm]
    dsimp only
    rw [Option.getD_some, htake, bind_of_ok hrebuild, htail, hhead]
    rfl
  · have hlow : shard'.lowbits = s.shard.lowbits := hsame'.lowbits.trans hsame.lowbits.symm
    have hbucketbits : shard'.bucketbits = s.shard.bucketbits :=
      hsame'.bucketbits.trans hsame.bucketbits.symm
    have hbucket := h.bucket_lt hkey
    obtain ⟨blocks, hprobe, hblocks⟩ := shardProbe_spec hok h.holds.blocks hbucket
    have hopened : ShardOk { shard' with
        head := kept.length * 8 / 2 ^ 12 * 2 ^ 12
        fifoTail := kept.length * 8 % 2 ^ 12 / 8
        fifoTop := fifoWindow / 8
        fifo := kept } cells' frees' s.live := hok'.congr ⟨rfl, rfl, rfl⟩ rfl rfl rfl
    obtain ⟨blocks', hprobe', hblocks'⟩ := @shardProbe_spec _ _ _ _ key hopened
      (by unfold Shard.blockbits; dsimp only; rw [hlow]; exact h.holds.blocks)
      (by unfold Shard.bucket Shard.buckets at hbucket ⊢; dsimp only; rw [hlow, hbucketbits]; exact hbucket)
    exact ⟨blocks, blocks', hprobe, hprobe', hblocks'.trans hblocks.symm⟩
  · rw [← hcount]
    unfold fifoTailOf
    dsimp only
    omega
  · rw [← hcount]
    unfold OpenShard.TailInPlace fifoTailOf
    dsimp only
    omega

/-- The shard that `dir_open` makes has a count of zero. -/
theorem dirOpenShard_count {map : Shardmap} {i : Nat} {words : List Nat} {opened : OpenShard}
    (h : dirOpenShard map i words = .ok (some opened)) : opened.shard.count = 0 := by
  unfold dirOpenShard at h
  split at h
  · exact nomatch h
  · obtain ⟨⟨map', shard⟩, hpopulate, h⟩ := bind_eq_ok.mp h
    obtain ⟨⟨data, newcount⟩, _, h⟩ := bind_eq_ok.mp h
    obtain ⟨shard', hrebuild, h⟩ := bind_eq_ok.mp h
    obtain rfl := Option.some.inj (Except.ok.inj h)
    unfold mapPopulate at hpopulate
    obtain ⟨_, _, hpopulate⟩ := bind_eq_ok.mp hpopulate
    obtain ⟨_, _, hpopulate⟩ := bind_eq_ok.mp hpopulate
    obtain ⟨_, rfl⟩ := Prod.mk.inj (Except.ok.inj hpopulate)
    exact (rebuild_sameFifo hrebuild).count

theorem ReopensRight.live_nil (h : ReopensRight s) : s.live = [] := by
  unfold ReopensRight at h
  split at h
  · exact h
  · next opened hopen =>
      obtain ⟨_, _, _, _, hcount⟩ := h
      rw [dirOpenShard_count hopen] at hcount
      exact List.eq_nil_of_length_eq_zero hcount.symm
  · exact h.elim

/-- What `dir_open` makes of the fifo of a history is right if and only if nothing is live: the shard
does not count its pairs.  `normalize` and the probes are right on every history; the window of the
fifo is the one of the tail as long as that is in the first block. -/
theorem dirOpenShard_iff (h : shardSystem.Reachable s) :
    (ReopensRight s ↔ s.live = []) ∧
      ((∀ pair ∈ s.live, pair.2 < 2 ^ 23) → s.shard.fifo ≠ [] →
        NormalizesTo s.shard.fifo s.live ∧
        ∃ opened, dirOpenShard s.map s.id s.shard.fifo = .ok (some opened) ∧
          SameProbes s.map.shardbits s.shard opened.shard ∧ opened.TailBehind s.live ∧
          (opened.TailInPlace ↔ s.live.length < 512) ∧ opened.shard.count = 0) := by
  have hinv := shardSystem_inv h
  refine ⟨⟨ReopensRight.live_nil, fun hlive => ?_⟩, fun hblocks hwords => ?_⟩
  · by_cases hwords : s.shard.fifo = []
    · unfold ReopensRight dirOpenShard
      rw [hwords]
      exact hlive
    · obtain ⟨hnorm, opened, hopen, hprobes, hbehind, hplace⟩ :=
        hinv.opened (fun pair hpair => absurd (hlive ▸ hpair) List.not_mem_nil) hwords
      have hnone : s.live.length = 0 := congrArg List.length hlive
      unfold ReopensRight
      rw [hopen]
      refine ⟨hnorm, hprobes, hbehind, hplace.mpr (by omega), ?_⟩
      rw [dirOpenShard_count hopen, hnone]
  · obtain ⟨hnorm, opened, hopen, hprobes, hbehind, hplace⟩ := hinv.opened hblocks hwords
    exact ⟨hnorm, opened, hopen, hprobes, hbehind, hplace, dirOpenShard_count hopen⟩

end

/-- The shard of a map of two buckets, before its first insert. -/
def emptyShard : Shard :=
  mapWindow (newShard (fun _ => 0) (newMap 0 7 6).shardSize (2 ^ (newMap 0 7 6).fencebits) 1 6)

/-- A shard with one pair. -/
theorem onePair_reachable : ∃ s, shardSystem.Reachable s ∧ s.live = [(64, 9)] ∧
    s.shard.fifo = [setFentry 9 1 64] ∧ s.shard.FifoRoom := by
  have hbits : (newMap 0 7 6).BitsOk := ⟨by decide, by decide, by decide⟩
  have hinit : shardSystem.Reachable ⟨newMap 0 7 6, 0, emptyShard, []⟩ :=
    .init ⟨hbits, rfl, rfl, _, rfl⟩
  have hone : shardSystem.Reachable ⟨newMap 0 7 6, 0, _, [(64, 9)]⟩ := hinit.next
    ⟨rfl, rfl, .insert 64 9, 0, ⟨by decide, by decide⟩, ⟨.inl (by decide), .inl (by decide)⟩, rfl,
      rfl⟩
  exact ⟨_, hone, rfl, rfl, .inl (by decide)⟩

/-- Its fifo is normalized to its pair; once that is deleted the shard is opened right. -/
theorem dirOpenShard_iff_onePair : ∃ s s' : ShardRun, s.live = [(64, 9)] ∧
    NormalizesTo s.shard.fifo s.live ∧ s'.live = [] ∧ s'.shard.fifo ≠ [] ∧ ReopensRight s' := by
  obtain ⟨⟨map, id, shard, live⟩, hreach, hlive, hfifo, hroom⟩ := onePair_reachable
  dsimp only at hlive hfifo hroom
  subst hlive
  have hinv := shardSystem_inv hreach
  have hmem : ((64, 9) : Nat × Nat) ∈ [((64, 9) : Nat × Nat)] := List.mem_cons_self
  obtain ⟨cells, frees, hok⟩ := hinv.holds.chains
  obtain ⟨shard', hdelete, _⟩ :=
    @shardDelete_spec _ _ 64 9 hinv.holds (hok.bucket_lt _ hmem) fun _ => hroom
  rw [if_pos hmem] at hdelete
  have hdeleted : shardSystem.Reachable ⟨map, id, shard', []⟩ := hreach.next
    ⟨rfl, rfl, .delete 64 9, 0, hmem, hroom, hdelete, rfl⟩
  have happended := (shardDelete_appended hinv.holds.fifo hdelete).fifo
  refine ⟨_, _, rfl, ((dirOpenShard_iff hreach).2 ?_ ?_).1, rfl, ?_,
    (dirOpenShard_iff hdeleted).1.mpr rfl⟩
  · intro pair hpair
    rw [List.mem_singleton.mp hpair]
    decide
  · rw [hfifo]
    exact List.cons_ne_nil _ _
  · rw [happended]
    exact List.append_ne_nil_of_right_ne_nil _ (List.cons_ne_nil _ _)

/-- The shard with one pair is opened with a count of zero. -/
theorem dirOpenShard_miscounts : ∃ s, shardSystem.Reachable s ∧ s.live = [(64, 9)] ∧
    ¬ ReopensRight s := by
  obtain ⟨s, hreach, hlive, _, _⟩ := onePair_reachable
  refine ⟨s, hreach, hlive, fun hright => ?_⟩
  exact absurd (hlive.symm.trans hright.live_nil) (List.cons_ne_nil _ _)

end Tux3
