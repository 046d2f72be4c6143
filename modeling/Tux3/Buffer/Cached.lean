/-
  Buffer/Cached.lean --- the counts and the lists of the buffers, at any debug level.

  `CacheOk pool pins` ties the references of a buffer to the hash, to the delta that has still to
  write it, and to its holders `pins`.  A primitive changes one buffer and the lists with it, which
  is `CacheOk.replace`.
-/
import Mathlib.Data.List.Nodup
import Tux3.Buffer.Invariant
import Tux3.Buffer.Reclaim

set_option autoImplicit false

namespace Tux3.Reclaim

open BufferPool (bufferHash buckets)
open Outcome (bind_of_ok)

variable {α : Type} {debug : Nat} {pool pool' : BufferPool α} {pins pins' : Nat → Nat}
  {id map : Nat} {buffer : BufferHead α}

/-! ## Buffers in use -/

/-- A buffer in use. -/
def live (buffer : BufferHead α) : Bool := buffer.state ≠ bufferFreed

theorem live_of_ne (h : buffer.state ≠ bufferFreed) : live buffer = true := decide_eq_true h

theorem not_live_of_eq (h : buffer.state = bufferFreed) : live buffer = false :=
  decide_eq_false fun hne => hne h

/-- The number of buffers in use. -/
def inUse (pool : BufferPool α) : Nat :=
  (List.range pool.allocated).countP fun id => live (pool.buffers id)

/-- One buffer more or less is in use. -/
theorem countP_range_change {n : Nat} {p q : Nat → Bool} (hother : ∀ j, j ≠ id → q j = p j)
    (hid : id < n) : (List.range n).countP q + (p id).toNat =
      (List.range n).countP p + (q id).toNat := by
  induction n with
  | zero => exact absurd hid (Nat.not_lt_zero _)
  | succ n ih =>
      rw [List.range_succ, List.countP_append, List.countP_append, List.countP_singleton,
        List.countP_singleton]
      rcases Nat.eq_or_lt_of_le (Nat.le_of_lt_succ hid) with rfl | hlt
      · have hsame : (List.range id).countP q = (List.range id).countP p :=
          List.countP_congr fun j hj => by rw [hother j (Nat.ne_of_lt (List.mem_range.1 hj))]
        rw [hsame]
        cases p id <;> cases q id <;> simp
      · have hn := hother n (Nat.ne_of_gt hlt)
        have := ih hlt
        rw [hn]
        omega

/-! ## The invariant -/

theorem ownRefs_of_hashed (h : buffer.hashed = true) : buffer.ownRefs = 1 := by
  unfold BufferHead.ownRefs
  rw [if_pos h, if_neg fun hand => Bool.false_ne_true (hand.2.symm.trans h)]

theorem ownRefs_of_forked (hdirty : buffer.isDirty = true) (hhashed : buffer.hashed = false) :
    buffer.ownRefs = 1 := by
  unfold BufferHead.ownRefs
  rw [hhashed, if_neg Bool.false_ne_true, if_pos ⟨hdirty, rfl⟩]

theorem ownRefs_of_clean (hclean : buffer.isDirty = false) (hhashed : buffer.hashed = false) :
    buffer.ownRefs = 0 := by
  unfold BufferHead.ownRefs
  rw [hhashed, hclean, if_neg Bool.false_ne_true, if_neg fun hand => Bool.false_ne_true hand.1]

/-- The fields of a buffer that has `pins` holders agree. -/
structure HeadOk (buffer : BufferHead α) (pins : Nat) : Prop where
  refs : buffer.count = buffer.ownRefs + pins
  freed_iff : buffer.state = bufferFreed ↔ buffer.count = 0
  state_lt : buffer.state < bufferStates
  map_some : buffer.state ≠ bufferFreed → ∃ map, buffer.map = some map
  bucket_lt : buffer.hashed = true → bufferHash buffer.index < buckets

/-- The buffers, their lists and their references agree. -/
structure CacheOk (pool : BufferPool α) (pins : Nat → Nat) : Prop where
  head : ∀ id, HeadOk (pool.buffers id) (pins id)
  fresh : ∀ id, pool.allocated ≤ id → (pool.buffers id).state = bufferFreed
  mem_freed : ∀ id ∈ pool.freed, id < pool.allocated ∧ (pool.buffers id).state = bufferFreed
  freed_nodup : pool.freed.Nodup
  mem_lru : ∀ id, id ∈ pool.lru ↔ (pool.buffers id).hashed = true
  lru_nodup : pool.lru.Nodup
  mem_hash : ∀ map bucket id, id ∈ pool.hash map bucket ↔ (pool.buffers id).hashed = true ∧
    (pool.buffers id).map = some map ∧ bucket = bufferHash (pool.buffers id).index
  hash_nodup : ∀ map bucket, (pool.hash map bucket).Nodup
  unique : ∀ i j, (pool.buffers i).hashed = true → (pool.buffers j).hashed = true →
    (pool.buffers i).map = (pool.buffers j).map →
    (pool.buffers i).index = (pool.buffers j).index → i = j
  used : pool.bufferCount = inUse pool
  room : pool.bufferCount + pool.freed.length ≤ pool.maxBuffers

theorem HeadOk.count_ne_zero {pins : Nat} (h : HeadOk buffer pins)
    (hlive : buffer.state ≠ bufferFreed) : buffer.count ≠ 0 :=
  fun hzero => hlive (h.freed_iff.2 hzero)

theorem HeadOk.freed_refs {pins : Nat} (h : HeadOk buffer pins)
    (hfreed : buffer.state = bufferFreed) : buffer.hashed = false ∧ pins = 0 := by
  have hrefs := h.refs
  rw [h.freed_iff.1 hfreed] at hrefs
  cases hhashed : buffer.hashed with
  | false => exact ⟨rfl, by omega⟩
  | true =>
      rw [ownRefs_of_hashed hhashed] at hrefs
      omega

theorem CacheOk.lt_allocated (h : CacheOk pool pins)
    (hlive : (pool.buffers id).state ≠ bufferFreed) : id < pool.allocated :=
  Nat.lt_of_not_le fun hle => hlive (h.fresh id hle)

theorem CacheOk.live_of_pin (h : CacheOk pool pins) (hpin : 0 < pins id) :
    (pool.buffers id).state ≠ bufferFreed :=
  fun hfreed => absurd ((h.head id).freed_refs hfreed).2 (Nat.ne_of_gt hpin)

theorem CacheOk.live_of_hashed (h : CacheOk pool pins) (hhashed : (pool.buffers id).hashed = true) :
    (pool.buffers id).state ≠ bufferFreed := by
  intro hfreed
  rw [((h.head id).freed_refs hfreed).1] at hhashed
  cases hhashed

theorem CacheOk.not_mem_freed (h : CacheOk pool pins)
    (hlive : (pool.buffers id).state ≠ bufferFreed) : id ∉ pool.freed :=
  fun hmem => hlive (h.mem_freed id hmem).2

/-! ## A change of one buffer -/

/-- One buffer is changed. -/
structure Changed (pool pool' : BufferPool α) (id : Nat) (buffer : BufferHead α) : Prop where
  buffers : pool'.buffers = Function.update pool.buffers id buffer
  allocated : pool'.allocated = pool.allocated
  maxBuffers : pool'.maxBuffers = pool.maxBuffers

theorem Changed.set (pool : BufferPool α) (id : Nat) (buffer : BufferHead α) :
    Changed pool (pool.set id buffer) id buffer := ⟨rfl, rfl, rfl⟩

theorem Changed.self (h : Changed pool pool' id buffer) : pool'.buffers id = buffer := by
  rw [h.buffers, Function.update_self]

theorem Changed.other (h : Changed pool pool' id buffer) {j : Nat} (hj : j ≠ id) :
    pool'.buffers j = pool.buffers j := by rw [h.buffers, Function.update_of_ne hj]

theorem Changed.refl (pool : BufferPool α) (id : Nat) : Changed pool pool id (pool.buffers id) :=
  ⟨(Function.update_eq_self id _).symm, rfl, rfl⟩

theorem Changed.trans {pool'' : BufferPool α} {buffer' : BufferHead α}
    (h : Changed pool pool' id buffer) (h' : Changed pool' pool'' id buffer') :
    Changed pool pool'' id buffer' := by
  refine ⟨?_, h'.allocated.trans h.allocated, h'.maxBuffers.trans h.maxBuffers⟩
  rw [h'.buffers, h.buffers, Function.update_idem]

theorem Changed.cases (h : Changed pool pool' id buffer) (j : Nat) :
    (j = id ∧ pool'.buffers j = buffer) ∨ (j ≠ id ∧ pool'.buffers j = pool.buffers j) := by
  by_cases hj : j = id
  · exact .inl ⟨hj, hj ▸ h.self⟩
  · exact .inr ⟨hj, h.other hj⟩

theorem Changed.inUse (h : Changed pool pool' id buffer) (hid : id < pool.allocated) :
    inUse pool' + (live (pool.buffers id)).toNat = inUse pool + (live buffer).toNat := by
  have hstep := countP_range_change (p := fun j => live (pool.buffers j))
    (q := fun j => live (pool'.buffers j)) (fun j hj => by rw [h.other hj]) hid
  rw [h.self] at hstep
  unfold Reclaim.inUse
  rw [h.allocated]
  exact hstep

/-- The lists after `id` became `buffer`. -/
structure Placed (pool pool' : BufferPool α) (id : Nat) (buffer : BufferHead α) : Prop where
  freed : ∀ j ∈ pool'.freed, j = id ∧ buffer.state = bufferFreed ∨ j ≠ id ∧ j ∈ pool.freed
  freed_nodup : pool'.freed.Nodup
  lru_self : id ∈ pool'.lru ↔ buffer.hashed = true
  lru : ∀ j, j ≠ id → (j ∈ pool'.lru ↔ j ∈ pool.lru)
  lru_nodup : pool'.lru.Nodup
  hash_self : ∀ map bucket, id ∈ pool'.hash map bucket ↔ buffer.hashed = true ∧
    buffer.map = some map ∧ bucket = bufferHash buffer.index
  hash : ∀ map bucket j, j ≠ id → (j ∈ pool'.hash map bucket ↔ j ∈ pool.hash map bucket)
  hash_nodup : ∀ map bucket, (pool'.hash map bucket).Nodup

theorem CacheOk.replace (h : CacheOk pool pins) (hchanged : Changed pool pool' id buffer)
    (hplaced : Placed pool pool' id buffer) (hid : id < pool.allocated)
    (hhead : HeadOk buffer (pins' id)) (hpins : ∀ j, j ≠ id → pins' j = pins j)
    (hunique : buffer.hashed = true → ∀ j, j ≠ id → (pool.buffers j).hashed = true →
      (pool.buffers j).map = buffer.map → (pool.buffers j).index ≠ buffer.index)
    (hused : pool'.bufferCount + (live (pool.buffers id)).toNat =
      pool.bufferCount + (live buffer).toNat)
    (hroom : pool'.bufferCount + pool'.freed.length ≤ pool.maxBuffers) : CacheOk pool' pins' := by
  refine ⟨fun j => ?_, fun j hj => ?_, fun j hj => ?_, hplaced.freed_nodup, fun j => ?_,
    hplaced.lru_nodup, fun map bucket j => ?_, hplaced.hash_nodup,
    fun i j hi hj hmap hindex => ?_, ?_, ?_⟩
  · rcases hchanged.cases j with ⟨rfl, heq⟩ | ⟨hne, heq⟩
    · rw [heq]
      exact hhead
    · rw [heq, hpins j hne]
      exact h.head j
  · rw [hchanged.allocated] at hj
    rw [hchanged.other (Nat.ne_of_gt (Nat.lt_of_lt_of_le hid hj))]
    exact h.fresh j hj
  · rw [hchanged.allocated]
    rcases hplaced.freed j hj with ⟨rfl, hstate⟩ | ⟨hne, hmem⟩
    · rw [hchanged.self]
      exact ⟨hid, hstate⟩
    · rw [hchanged.other hne]
      exact h.mem_freed j hmem
  · rcases hchanged.cases j with ⟨rfl, heq⟩ | ⟨hne, heq⟩
    · rw [heq]
      exact hplaced.lru_self
    · rw [heq, hplaced.lru j hne]
      exact h.mem_lru j
  · rcases hchanged.cases j with ⟨rfl, heq⟩ | ⟨hne, heq⟩
    · rw [heq]
      exact hplaced.hash_self map bucket
    · rw [heq, hplaced.hash map bucket j hne]
      exact h.mem_hash map bucket j
  · rcases hchanged.cases i with ⟨rfl, hieq⟩ | ⟨hine, hieq⟩ <;>
      rcases hchanged.cases j with ⟨rfl, hjeq⟩ | ⟨hjne, hjeq⟩
    · rfl
    · rw [hieq] at hi hmap hindex
      rw [hjeq] at hj hmap hindex
      exact absurd hindex.symm (hunique hi j hjne hj hmap.symm)
    · rw [hieq] at hi hmap hindex
      rw [hjeq] at hj hmap hindex
      exact absurd hindex (hunique hj i hine hi hmap)
    · rw [hieq] at hi hmap hindex
      rw [hjeq] at hj hmap hindex
      exact h.unique i j hi hj hmap hindex
  · have huse := hchanged.inUse hid
    have hold := h.used
    omega
  · rw [hchanged.maxBuffers]
    exact hroom

/-- Nothing but the buffers has changed. -/
structure SameLists (pool pool' : BufferPool α) : Prop where
  freed : pool'.freed = pool.freed
  lru : pool'.lru = pool.lru
  hash : pool'.hash = pool.hash
  bufferCount : pool'.bufferCount = pool.bufferCount

/-- A buffer in use is changed that stays where it is. -/
theorem CacheOk.update (h : CacheOk pool pins) (hchanged : Changed pool pool' id buffer)
    (hsame : SameLists pool pool') (hlive : (pool.buffers id).state ≠ bufferFreed)
    (hmap : buffer.map = (pool.buffers id).map) (hhashed : buffer.hashed = (pool.buffers id).hashed)
    (hindex : buffer.hashed = true → buffer.index = (pool.buffers id).index)
    (hhead : HeadOk buffer (pins' id)) (hlive' : buffer.state ≠ bufferFreed)
    (hpins : ∀ j, j ≠ id → pins' j = pins j) : CacheOk pool' pins' := by
  refine h.replace hchanged ?_ (h.lt_allocated hlive) hhead hpins ?_ ?_ ?_
  · constructor
    · intro j hj
      rw [hsame.freed] at hj
      exact .inr ⟨fun heq => h.not_mem_freed hlive (heq ▸ hj), hj⟩
    · rw [hsame.freed]
      exact h.freed_nodup
    · rw [hsame.lru, hhashed]
      exact h.mem_lru id
    · intro j _
      rw [hsame.lru]
    · rw [hsame.lru]
      exact h.lru_nodup
    · intro map bucket
      rw [hsame.hash, h.mem_hash, hhashed, hmap]
      refine and_congr_right fun hh => ?_
      rw [hindex (hhashed.trans hh)]
    · intro map bucket j _
      rw [hsame.hash]
    · rw [hsame.hash]
      exact h.hash_nodup
  · intro hh j hj hjh hjmap hjindex
    rw [hindex hh] at hjindex
    exact hj (h.unique j id hjh (hhashed.symm.trans hh) (hjmap.trans hmap) hjindex)
  · rw [hsame.bufferCount, live_of_ne hlive, live_of_ne hlive']
  · rw [hsame.bufferCount, hsame.freed]
    exact h.room

/-! ## Single buffers -/

/-- Another holder. -/
theorem CacheOk.getBh (h : CacheOk pool pins) (hlive : (pool.buffers id).state ≠ bufferFreed) :
    ∃ pool', pool.getBh id = .ok pool' ∧
      pool' = pool.set id { pool.buffers id with count := (pool.buffers id).count + 1 } ∧
      CacheOk pool' (Function.update pins id (pins id + 1)) := by
  have hhead := h.head id
  have hrefs := hhead.refs
  refine ⟨_, bind_of_ok (tuxAssert_of (Nat.one_le_iff_ne_zero.2 (hhead.count_ne_zero hlive))), rfl,
    ?_⟩
  refine h.update ⟨rfl, rfl, rfl⟩ ⟨rfl, rfl, rfl, rfl⟩ hlive rfl rfl (fun _ => rfl)
    ⟨?_, ?_, hhead.state_lt, hhead.map_some, hhead.bucket_lt⟩ hlive
    fun j hj => Function.update_of_ne hj _ _
  · rw [Function.update_self]
    show (pool.buffers id).count + 1 = (pool.buffers id).ownRefs + _
    omega
  · exact iff_of_false hlive (Nat.succ_ne_zero _)

/-- The contents are free, and so is the number of the block while the buffer is not hashed. -/
theorem CacheOk.setData (h : CacheOk pool pins) (hlive : (pool.buffers id).state ≠ bufferFreed)
    {index : Nat} (hindex : (pool.buffers id).hashed = true → index = (pool.buffers id).index)
    (data : α) :
    CacheOk (pool.set id { pool.buffers id with index := index, data := data }) pins := by
  have hhead := h.head id
  refine h.update ⟨rfl, rfl, rfl⟩ ⟨rfl, rfl, rfl, rfl⟩ hlive rfl rfl hindex
    ⟨hhead.refs, hhead.freed_iff, hhead.state_lt, hhead.map_some, fun hh => ?_⟩ hlive
    fun _ _ => rfl
  show bufferHash index < buckets
  rw [hindex hh]
  exact hhead.bucket_lt hh

theorem filter_ne_of_not_mem {l : List Nat} (h : id ∉ l) : l.filter (· ≠ id) = l :=
  List.filter_eq_self.2 fun _ hj => decide_eq_true fun heq => h (heq ▸ hj)

/-- The delta of a forked buffer has a reference, which it leaves to who ends its state. -/
def clearedPins (buffer : BufferHead α) (pins : Nat → Nat) (id : Nat) : Nat → Nat :=
  if buffer.isDirty = true ∧ buffer.hashed = false then Function.update pins id (pins id + 1)
  else pins

theorem isDirty_of_lt {buffer : BufferHead α} (h : buffer.state < bufferDirty) :
    buffer.isDirty = false := decide_eq_false (Nat.not_le_of_lt h)

theorem setState_changed {state : Nat} (hne : state ≠ bufferFreed) :
    Changed pool (pool.setState id state) id { pool.buffers id with state := state } := by
  unfold BufferPool.setState
  rw [if_neg hne]
  exact ⟨rfl, rfl, rfl⟩

/-- A buffer in use takes another state, which moves it between the lists of the states. -/
theorem CacheOk.setState (h : CacheOk pool pins) (hlive : (pool.buffers id).state ≠ bufferFreed)
    {state : Nat} (hne : state ≠ bufferFreed) (hlt : state < bufferDirty) :
    CacheOk (pool.setState id state) (clearedPins (pool.buffers id) pins id) := by
  have hhead := h.head id
  have hrefs := hhead.refs
  have hclean : BufferHead.isDirty { pool.buffers id with state := state } = false :=
    isDirty_of_lt hlt
  refine h.update (setState_changed hne) ?_ hlive rfl rfl (fun _ => rfl)
    ⟨?_, ?_, Nat.lt_trans hlt (by decide), fun _ => hhead.map_some hlive, hhead.bucket_lt⟩ hne ?_
  · unfold BufferPool.setState
    rw [if_neg hne]
    exact ⟨filter_ne_of_not_mem (h.not_mem_freed hlive), rfl, rfl, rfl⟩
  · show (pool.buffers id).count = BufferHead.ownRefs { pool.buffers id with state := state } + _
    unfold clearedPins
    cases hhashed : (pool.buffers id).hashed with
    | true =>
        have hown : BufferHead.ownRefs { pool.buffers id with state := state } = 1 :=
          ownRefs_of_hashed hhashed
        rw [ownRefs_of_hashed hhashed] at hrefs
        rw [hown, if_neg fun hand => nomatch hand.2]
        exact hrefs
    | false =>
        have hown : BufferHead.ownRefs { pool.buffers id with state := state } = 0 :=
          ownRefs_of_clean hclean hhashed
        rw [hown]
        cases hdirty : (pool.buffers id).isDirty with
        | true =>
            rw [ownRefs_of_forked hdirty hhashed] at hrefs
            rw [if_pos ⟨rfl, rfl⟩, Function.update_self]
            omega
        | false =>
            rw [ownRefs_of_clean hdirty hhashed] at hrefs
            rw [if_neg fun hand => nomatch hand.1]
            exact hrefs
  · exact iff_of_false hne (hhead.count_ne_zero hlive)
  · intro j hj
    unfold clearedPins
    split
    · exact Function.update_of_ne hj _ _
    · rfl

/-- A buffer on the hash becomes dirty. -/
theorem CacheOk.setDirty (h : CacheOk pool pins) (delta : Nat)
    (hhashed : (pool.buffers id).hashed = true) : CacheOk (pool.setDirty map id delta) pins := by
  have hslot : tux3Delta delta < 2 := Nat.mod_lt _ (by decide)
  have hlive := h.live_of_hashed hhashed
  have hhead := h.head id
  have hrefs := hhead.refs
  have hne : bufferDirty + tux3Delta delta ≠ bufferFreed := by
    unfold bufferDirty bufferFreed
    omega
  unfold BufferPool.setDirty
  refine h.update ⟨rfl, rfl, rfl⟩ ⟨filter_ne_of_not_mem (h.not_mem_freed hlive), rfl, rfl, rfl⟩
    hlive rfl rfl (fun _ => rfl) ⟨?_, iff_of_false hne (hhead.count_ne_zero hlive), ?_,
      fun _ => hhead.map_some hlive, hhead.bucket_lt⟩ hne fun _ _ => rfl
  · have hown : BufferHead.ownRefs { pool.buffers id with
        state := bufferDirty + tux3Delta delta } = 1 := ownRefs_of_hashed hhashed
    rw [ownRefs_of_hashed hhashed] at hrefs
    exact hrefs.trans (congrArg (· + pins id) hown.symm)
  · show bufferDirty + tux3Delta delta < bufferStates
    unfold bufferDirty bufferStates
    omega

/-! ## Taking a buffer away -/

/-- What is left of a buffer that is freed. -/
def goneBuffer (buffer : BufferHead α) : BufferHead α :=
  { buffer with map := none, hashed := false, count := 0, state := bufferFreed }

theorem goneBuffer_ok (buffer : BufferHead α) : HeadOk (goneBuffer buffer) 0 :=
  ⟨rfl, iff_of_true rfl rfl, (by decide : bufferFreed < bufferStates),
    fun hne => absurd rfl hne, fun hh => nomatch hh⟩

/-- A buffer that had one reference and was on no list is freed. -/
theorem CacheOk.gone (h : CacheOk pool pins)
    (hchanged : Changed pool pool' id (goneBuffer (pool.buffers id)))
    (hcount : (pool.buffers id).count = 1) (hpin : 0 < pins id) (hlru : pool'.lru = pool.lru)
    (hhash : pool'.hash = pool.hash) (hused : pool'.bufferCount = pool.bufferCount - 1)
    (hfreed : pool'.freed = pool.freed ∨ pool'.freed = pool.freed ++ [id]) :
    CacheOk pool' (Function.update pins id (pins id - 1)) := by
  have hlive := h.live_of_pin hpin
  have hid := h.lt_allocated hlive
  have hmem := h.not_mem_freed hlive
  have hrefs := (h.head id).refs
  have hunhashed : (pool.buffers id).hashed = false := by
    cases hhashed : (pool.buffers id).hashed with
    | false => rfl
    | true =>
        rw [ownRefs_of_hashed hhashed] at hrefs
        omega
  have hpos : 0 < pool.bufferCount := by
    have hall : 0 < inUse pool := List.countP_pos_iff.2 ⟨id, List.mem_range.2 hid, live_of_ne hlive⟩
    rw [h.used]
    exact hall
  have hlru' : id ∉ pool.lru := by
    rw [h.mem_lru, hunhashed]
    exact Bool.false_ne_true
  have hhash' (map bucket : Nat) : id ∉ pool.hash map bucket := by
    rw [h.mem_hash, hunhashed]
    exact fun hand => Bool.false_ne_true hand.1
  refine h.replace hchanged ⟨fun j hj => ?_, ?_, ?_, fun j _ => by rw [hlru], ?_,
    fun map bucket => ?_, fun map bucket j _ => by rw [hhash], ?_⟩ hid ?_
    (fun j hj => Function.update_of_ne hj _ _) (fun hh => nomatch hh) ?_ ?_
  · by_cases hj' : j = id
    · exact .inl ⟨hj', rfl⟩
    · refine .inr ⟨hj', ?_⟩
      rcases hfreed with hf | hf
      · exact hf ▸ hj
      · rw [hf] at hj
        exact (List.mem_append.1 hj).elim (fun hold => hold) fun hnew =>
          absurd (List.mem_singleton.1 hnew) hj'
  · rcases hfreed with hf | hf
    · rw [hf]
      exact h.freed_nodup
    · rw [hf]
      exact List.nodup_append.2 ⟨h.freed_nodup, List.nodup_singleton id, fun a ha b hb heq =>
        hmem (List.mem_singleton.1 hb ▸ heq ▸ ha)⟩
  · rw [hlru]
    exact iff_of_false hlru' Bool.false_ne_true
  · rw [hlru]
    exact h.lru_nodup
  · rw [hhash]
    exact iff_of_false (hhash' map bucket) fun hand => Bool.false_ne_true hand.1
  · rw [hhash]
    exact h.hash_nodup
  · rw [Function.update_self]
    have hone : pins id - 1 = 0 := by omega
    rw [hone]
    exact goneBuffer_ok _
  · rw [hused, live_of_ne hlive, @not_live_of_eq _ (goneBuffer _) rfl]
    show pool.bufferCount - 1 + 1 = pool.bufferCount + 0
    omega
  · have hroom := h.room
    rw [hused]
    rcases hfreed with hf | hf
    · rw [hf]
      omega
    · rw [hf, List.length_append, List.length_singleton]
      omega

theorem unhash_changed :
    Changed pool (unhash pool id) id { pool.buffers id with hashed := false } := ⟨rfl, rfl, rfl⟩

/-- A buffer is taken off the two lists; the reference of a clean one is dropped by who does that,
that of a dirty one becomes the one of the delta. -/
theorem CacheOk.unhash (h : CacheOk pool pins) (hhashed : (pool.buffers id).hashed = true) :
    CacheOk (Reclaim.unhash pool id) (if (pool.buffers id).isDirty = true then pins
      else Function.update pins id (pins id + 1)) := by
  have hlive := h.live_of_hashed hhashed
  have hhead := h.head id
  have hrefs := hhead.refs
  refine h.replace unhash_changed ⟨fun j hj => ?_, h.freed_nodup, ?_, fun j hj => ?_,
    h.lru_nodup.filter _, fun map bucket => ?_, fun map bucket j hj => ?_,
    fun map bucket => (h.hash_nodup map bucket).filter _⟩ (h.lt_allocated hlive)
    ⟨?_, hhead.freed_iff, hhead.state_lt, hhead.map_some, fun hh => nomatch hh⟩ ?_
    (fun hh => nomatch hh) ?_ h.room
  · exact .inr ⟨fun heq => h.not_mem_freed hlive (heq ▸ hj), hj⟩
  · exact iff_of_false (fun hmem => of_decide_eq_true (List.mem_filter.1 hmem).2 rfl)
      Bool.false_ne_true
  · exact List.mem_filter.trans (and_iff_left (decide_eq_true hj))
  · exact iff_of_false (fun hmem => of_decide_eq_true (List.mem_filter.1 hmem).2 rfl)
      fun hand => Bool.false_ne_true hand.1
  · exact List.mem_filter.trans (and_iff_left (decide_eq_true hj))
  · rw [ownRefs_of_hashed hhashed] at hrefs
    show (pool.buffers id).count = BufferHead.ownRefs { pool.buffers id with hashed := false } + _
    cases hdirty : (pool.buffers id).isDirty with
    | true =>
        have hown : BufferHead.ownRefs { pool.buffers id with hashed := false } = 1 :=
          ownRefs_of_forked hdirty rfl
        rw [hown, if_pos rfl]
        exact hrefs
    | false =>
        have hown : BufferHead.ownRefs { pool.buffers id with hashed := false } = 0 :=
          ownRefs_of_clean hdirty rfl
        rw [hown, if_neg Bool.false_ne_true, Function.update_self]
        omega
  · intro j hj
    split
    · rfl
    · exact Function.update_of_ne hj _ _
  · rfl

end Tux3.Reclaim
