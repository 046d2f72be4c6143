/-
  Buffer/CacheRun.lean --- the buffer pool in any run, at any debug level.

  A run looks blocks up and reads them, holds and puts buffers, dirties them, ends their I/O and
  truncates maps.  Every step keeps `CacheOk`, and the blocks and states that it has no business
  with.
-/
import Tux3.Buffer.Serve
import Tux3.Lib.System

set_option autoImplicit false

namespace Tux3.Reclaim

open BufferPool (bufferHash buckets)
open Outcome

variable {α : Type} {debug : Nat} {pool pool₀ pool' : BufferPool α} {pins : Nat → Nat}
  {id map : Nat} {buffer : BufferHead α} {range : Range α}

/-! ## Truncation -/

/-- The truncation invalidates a buffer. -/
def Truncated (range : Range α) (pool : BufferPool α) (map id : Nat) : Prop :=
  (pool.buffers id).hashed = true ∧ (pool.buffers id).map = some map ∧
    range.start ≤ (pool.buffers id).index ∧ (pool.buffers id).index ≤ range.last

/-- A truncation of `map` has come from `pool₀` to `pool`. -/
structure Truncating (range : Range α) (pool₀ pool : BufferPool α) (pins : Nat → Nat)
    (map : Nat) : Prop where
  ok : CacheOk pool pins
  kept : Kept pool₀ pool pins pins (Truncated range pool₀ map)
  remains : ∀ j, (pool.buffers j).hashed = true →
    (pool₀.buffers j).hashed = true ∧ SameBlock (pool₀.buffers j) (pool.buffers j)

theorem Truncating.truncated (h : Truncating range pool₀ pool pins map)
    (hid : Truncated range pool map id) : Truncated range pool₀ map id := by
  obtain ⟨hhashed, hmap, hstart, hlast⟩ := hid
  obtain ⟨hold, hsame, hindex⟩ := h.remains id hhashed
  rw [hindex] at hstart hlast
  exact ⟨hold, hsame.symm.trans hmap, hstart, hlast⟩

/-- The truncation changes a buffer. -/
theorem Truncating.change (h : Truncating range pool₀ pool pins map)
    (hchanged : Changed pool pool' id buffer) (hok : CacheOk pool' pins)
    (hsame : SameBlock (pool.buffers id) buffer)
    (hhashed : buffer.hashed = (pool.buffers id).hashed)
    (hstate : buffer.state = (pool.buffers id).state ∨ Truncated range pool map id) :
    Truncating range pool₀ pool' pins map := by
  refine ⟨hok, h.kept.trans (.one hchanged hsame fun _ hnot => ?_), fun j hj => ?_⟩
  · exact hstate.resolve_right fun htrunc => hnot (h.truncated htrunc)
  · rcases hchanged.cases j with ⟨rfl, heq⟩ | ⟨-, heq⟩
    · rw [heq] at hj ⊢
      obtain ⟨hold, hmap, hindex⟩ := h.remains j (hhashed.symm.trans hj)
      exact ⟨hold, hsame.1.trans hmap, hsame.2.trans hindex⟩
    · rw [heq] at hj ⊢
      exact h.remains j hj

/-- The truncation has emptied a buffer, which is gone. -/
theorem Truncating.gone (h : Truncating range pool₀ pool pins map)
    (hchanged : Changed pool pool' id (goneBuffer buffer)) (hok : CacheOk pool' pins)
    (hpin : pins id = 0) (hclean : (pool.buffers id).isDirty = false ∨
      Truncated range pool map id) : Truncating range pool₀ pool' pins map := by
  have hkept : Kept pool pool' pins pins (Truncated range pool₀ map) := by
    refine .change h.ok (.refl pool) hchanged (fun hpos => absurd hpin (Nat.ne_of_gt hpos))
      fun hdirty hnot => ?_
    rcases hclean with hfalse | htrunc
    · exact absurd (hfalse.symm.trans hdirty) Bool.false_ne_true
    · exact absurd (h.truncated htrunc) hnot
  refine ⟨hok, h.kept.trans hkept, fun j hj => ?_⟩
  rcases hchanged.cases j with ⟨rfl, heq⟩ | ⟨-, heq⟩
  · rw [heq] at hj
    cases hj
  · rw [heq] at hj ⊢
    exact h.remains j hj

/-- What a part of the truncation that looks at `id` leaves. -/
def Shrunk (range : Range α) (pool₀ pool : BufferPool α) (pins : Nat → Nat) (map id : Nat)
    (pool' : BufferPool α) : Prop :=
  Truncating range pool₀ pool' pins map ∧ ∀ j, j ≠ id → pool'.buffers j = pool.buffers j

theorem Truncating.reclaim (h : Truncating range pool₀ pool pins map) :
    Ensures (· = TuxError.assertion) (do
      let (pool, _) ← Reclaim.reclaim debug pool id
      return pool) (Shrunk range pool₀ pool pins map id) := by
  obtain ⟨pool', hreclaim, hchanged, hok⟩ := @CacheOk.reclaim _ debug _ _ h.ok id
  rw [bind_of_ok hreclaim]
  refine ⟨?_, fun j hj => hchanged.other hj⟩
  by_cases hcan : CanReclaim (pool.buffers id)
  · rw [if_pos hcan] at hchanged
    exact h.gone hchanged hok (h.ok.idle hcan) (.inl hcan.2.1)
  · rw [if_neg hcan] at hchanged
    exact h.change hchanged hok ⟨rfl, rfl⟩ rfl (.inl rfl)

theorem Truncating.invalidateBuffer (h : Truncating range pool₀ pool pins map)
    (hid : Truncated range pool map id) :
    Ensures (· = TuxError.assertion) (invalidateBuffer debug range pool id)
      (Shrunk range pool₀ pool pins map id) := by
  unfold Reclaim.invalidateBuffer
  split
  · next hne =>
      by_cases hmodify : canModify (pool.buffers id) range.delta = true
      · obtain ⟨pool', hempty, hchanged, hok⟩ :=
          @CacheOk.setEmpty _ debug _ _ id h.ok (h.ok.live_of_hashed hid.1) hne
        rw [clearedPins, if_neg fun hand => Bool.false_ne_true (hand.2.symm.trans hid.1)] at hok
        rw [bind_of_ok (tuxAssert_of hmodify), hempty]
        refine ⟨?_, fun j hj => hchanged.other hj⟩
        unfold settledBuffer at hchanged
        split at hchanged
        · next hcan =>
            refine h.gone hchanged hok ?_ (.inr hid)
            have hrefs := (h.ok.head id).refs
            have hone : (pool.buffers id).count = 1 := hcan.2.1
            rw [ownRefs_of_hashed hid.1] at hrefs
            omega
        · exact h.change hchanged hok ⟨rfl, rfl⟩ rfl (.inr hid)
      · rw [tuxAssert_of_not hmodify]
        exact rfl
  · exact ⟨h, fun _ _ => rfl⟩

theorem Truncating.truncateWhole (h : Truncating range pool₀ pool pins map)
    (hid : Truncated range pool map id) :
    Ensures (· = TuxError.assertion) (truncateWhole debug range pool id)
      (Shrunk range pool₀ pool pins map id) := by
  unfold Reclaim.truncateWhole
  by_cases hmodify : canModify (pool.buffers id) range.delta = true
  · rw [bind_of_ok (tuxAssert_of hmodify)]
    refine (h.invalidateBuffer hid).bind fun pool₁ hshrunk => ?_
    split
    · refine (@Truncating.reclaim _ debug _ _ _ id _ _ hshrunk.1).mono fun pool' hlast => ?_
      exact ⟨hlast.1, fun j hj => (hlast.2 j hj).trans (hshrunk.2 j hj)⟩
    · exact hshrunk
  · rw [tuxAssert_of_not hmodify]
    exact rfl

theorem Truncating.clearPart (h : Truncating range pool₀ pool pins map)
    (hlive : (pool.buffers id).state ≠ bufferFreed) : ∃ data,
    Changed pool (clearPart range pool id) id { pool.buffers id with data := data } ∧
      CacheOk (Reclaim.clearPart range pool id) pins := by
  unfold Reclaim.clearPart
  split
  · exact ⟨_, .set pool id _, h.ok.setData hlive (fun _ => rfl) _⟩
  · exact ⟨(pool.buffers id).data, .refl pool id, h.ok⟩

theorem Truncating.truncateBuffer (h : Truncating range pool₀ pool pins map)
    (hhashed : (pool.buffers id).hashed = true) (hmap : (pool.buffers id).map = some map) :
    Ensures (· = TuxError.assertion) (truncateBuffer debug range pool id)
      (Shrunk range pool₀ pool pins map id) := by
  obtain ⟨data, hchanged, hok⟩ := h.clearPart (h.ok.live_of_hashed hhashed)
  have h₁ := h.change hchanged hok ⟨rfl, rfl⟩ rfl (.inl rfl)
  unfold Reclaim.truncateBuffer
  dsimp only
  split
  · exact ⟨h₁, fun j hj => hchanged.other hj⟩
  · next hin =>
      rw [not_or, Nat.not_lt, Nat.not_lt] at hin
      have hid : Truncated range (Reclaim.clearPart range pool id) map id := by
        refine ⟨?_, ?_, hin⟩ <;> rw [hchanged.self]
        · exact hhashed
        · exact hmap
      refine (h₁.truncateWhole hid).mono fun pool' hshrunk => ?_
      exact ⟨hshrunk.1, fun j hj => (hshrunk.2 j hj).trans (hchanged.other hj)⟩

/-- The buffers of a bucket, each of which is there until it is looked at. -/
theorem Truncating.bucket (ids : List Nat) (h : Truncating range pool₀ pool pins map)
    (hnodup : ids.Nodup) (hids : ∀ j ∈ ids, (pool.buffers j).hashed = true ∧
      (pool.buffers j).map = some map) :
    Ensures (· = TuxError.assertion) (ids.foldlM (Reclaim.truncateBuffer debug range) pool)
      fun pool' => Truncating range pool₀ pool' pins map := by
  induction ids generalizing pool with
  | nil => exact h
  | cons id ids ih =>
      obtain ⟨hid, hmap⟩ := hids id List.mem_cons_self
      obtain ⟨hnot, hnodup'⟩ := List.nodup_cons.1 hnodup
      rw [List.foldlM_cons]
      refine (h.truncateBuffer hid hmap).bind fun pool₁ hshrunk => ih hshrunk.1 hnodup' ?_
      intro j hj
      rw [hshrunk.2 j fun heq => hnot (heq ▸ hj)]
      exact hids j (List.mem_cons_of_mem id hj)

theorem Truncating.buckets (bs : List Nat) (h : Truncating range pool₀ pool pins map) :
    Ensures (· = TuxError.assertion) (bs.foldlM (fun pool bucket =>
      (pool.hash map bucket).foldlM (Reclaim.truncateBuffer debug range) pool) pool)
      fun pool' => Truncating range pool₀ pool' pins map := by
  induction bs generalizing pool with
  | nil => exact h
  | cons bucket bs ih =>
      rw [List.foldlM_cons]
      refine (h.bucket _ (h.ok.hash_nodup map bucket) fun j hj => ?_).bind fun pool₁ h₁ => ih h₁
      obtain ⟨hhashed, hmap, -⟩ := (h.ok.mem_hash map bucket j).1 hj
      exact ⟨hhashed, hmap⟩

theorem CacheOk.truncate (h : CacheOk pool pins) (range : Range α) (map : Nat) :
    Ensures (· = TuxError.assertion) (truncateBuffersRange debug range pool map)
      fun pool' => CacheOk pool' pins ∧ Kept pool pool' pins pins (Truncated range pool map) := by
  have hstart : Truncating range pool pool pins map :=
    ⟨h, (Spared.refl pool).kept h, fun _ hj => ⟨hj, rfl, rfl⟩⟩
  unfold truncateBuffersRange
  generalize List.range BufferPool.buckets = bs
  exact (hstart.buckets _).mono fun _ hlast => ⟨hlast.ok, hlast.kept⟩

/-! ## Runs -/

/-- The state of a run: the buffers, and who holds them. -/
structure CacheState (α : Type) where
  pool : BufferPool α
  pins : Nat → Nat

/-- The steps of a run; `malloc` and the `data` that are read are what the system does. -/
inductive CacheEvent (α : Type) where
  | peek (map block : Nat)
  | get (map block : Nat) (malloc : Bool)
  | read (map block : Nat) (malloc : Bool) (data : α)
  | hold (id : Nat)
  | put (id : Nat)
  | dirty (id newdelta : Nat) (malloc : Bool)
  | endio (id : Nat)
  | truncate (map blockbits lstart lend : Nat) (clear : Nat → α → α) (delta : Nat)

namespace CacheState

/-- The caller holds the buffer that it got, if it got one. -/
def lookup (s : CacheState α) : BufferPool α × Option Nat → CacheState α
  | (pool, none) => ⟨pool, s.pins⟩
  | (pool, some id) => ⟨pool, Function.update s.pins id (s.pins id + 1)⟩

/-- The holder of `id` holds the clone instead, if there is one. -/
def forked (s : CacheState α) (id : Nat) : BufferPool α × Option Nat → CacheState α
  | (pool, none) => ⟨pool, s.pins⟩
  | (pool, some clone) =>
      if clone = id then ⟨pool, s.pins⟩
      else ⟨pool, Function.update (Function.update s.pins id (s.pins id - 1)) clone
        (s.pins clone + 1)⟩

/-- A step. -/
def step (debug : Nat) (s : CacheState α) : CacheEvent α → Except TuxError (CacheState α)
  | .peek map block => return s.lookup (← s.pool.peekblk map block)
  | .get map block malloc => return s.lookup (← blockget debug s.pool map block malloc)
  | .read map block malloc data =>
      return s.lookup (← blockread debug s.pool map block malloc data)
  | .hold id => return ⟨← s.pool.getBh id, Function.update s.pins id (s.pins id + 1)⟩
  | .put id => return ⟨← blockput debug s.pool id, Function.update s.pins id (s.pins id - 1)⟩
  | .dirty id newdelta malloc => return s.forked id (← blockdirty debug s.pool id newdelta malloc)
  | .endio id => return ⟨← Reclaim.endio debug s.pool id, s.pins⟩
  | .truncate map blockbits lstart lend clear delta => do
      tuxAssert (lend % 2 ^ blockbits = 2 ^ blockbits - 1)
      let range := rangeOf blockbits lstart lend clear delta
      return ⟨← truncateBuffersRange debug range s.pool map, s.pins⟩

/-- What the callers see to: only who holds a buffer gets another reference or puts it; a buffer
is dirtied by who holds it and as long as it was not forked (`buffer_forked`); and only what a delta
writes comes to the end of an I/O. -/
def Allowed (s : CacheState α) : CacheEvent α → Prop
  | .hold id => 0 < s.pins id
  | .put id => 0 < s.pins id
  | .dirty id _ _ => 0 < s.pins id ∧ (s.pool.buffers id).hashed = true
  | .endio id => (s.pool.buffers id).isDirty = true
  | _ => True

/-- The buffers that a step makes clean or empty. -/
def Cleaned (s : CacheState α) : CacheEvent α → Nat → Prop
  | .endio id => (· = id)
  | .truncate map blockbits lstart lend clear delta =>
      Truncated (rangeOf blockbits lstart lend clear delta) s.pool map
  | _ => fun _ => False

end CacheState

/-- A lookup fails for a block whose hash is not in the table, and a truncation where the range or
a buffer is not what it has to be. -/
def CacheEvent.MayFail : CacheEvent α → TuxError → Prop
  | .peek _ block => fun error => error = .bounds ∧ buckets ≤ bufferHash block
  | .get _ block _ => fun error => error = .bounds ∧ buckets ≤ bufferHash block
  | .read _ block _ _ => fun error => error = .bounds ∧ buckets ≤ bufferHash block
  | .truncate .. => (· = .assertion)
  | _ => fun _ => False

/-- `init_buffers`, and any steps after it. -/
def cacheSystem (debug bits poolsize : Nat) (data : α) : System (CacheState α) where
  init s := s = ⟨initPool bits poolsize data, fun _ => 0⟩
  next s s' := ∃ event, s.Allowed event ∧ s.step debug event = .ok s'

section

variable {s s' : CacheState α} {event : CacheEvent α} {block : Nat}

/-- What a step is sure to do. -/
def Sound (s : CacheState α) (cleaned : Nat → Prop) (s' : CacheState α) : Prop :=
  CacheOk s'.pool s'.pins ∧ Kept s.pool s'.pool s.pins s'.pins cleaned

theorem Looked.sound {malloc : Bool} {result : Except TuxError (BufferPool α × Option Nat)}
    (h : Looked s.pool s.pins map block malloc result) :
    Ensures (fun error => error = .bounds ∧ buckets ≤ bufferHash block)
      (do return s.lookup (← result)) (Sound s fun _ => False) := by
  cases h with
  | bounds hbucket => exact ⟨rfl, hbucket⟩
  | none hok hkept _ _ => exact ⟨hok, hkept⟩
  | some hok hkept _ _ => exact ⟨hok, hkept⟩

theorem Dirtied.sound {newdelta : Nat} {malloc : Bool}
    {result : Except TuxError (BufferPool α × Option Nat)}
    (h : Dirtied s.pool s.pins id newdelta malloc result) :
    Ensures (fun _ => False) (do return s.forked id (← result)) (Sound s fun _ => False) := by
  cases h with
  | none hok hkept _ => exact ⟨hok, hkept⟩
  | same hok hkept _ _ _ =>
      show Sound s _ (s.forked id (_, some id))
      unfold CacheState.forked
      dsimp only
      rw [if_pos rfl]
      exact ⟨hok, hkept⟩
  | @forked pool' clone hne hok hkept _ _ _ _ =>
      show Sound s _ (s.forked id (_, some clone))
      unfold CacheState.forked
      dsimp only
      rw [if_neg hne]
      exact ⟨hok, hkept⟩

/-- Every step keeps the invariant, and what it has no business with. -/
theorem CacheOk.step (h : CacheOk s.pool s.pins) (hallowed : s.Allowed event) :
    Ensures event.MayFail (s.step debug event) (Sound s (s.Cleaned event)) := by
  cases event with
  | peek map block => exact (h.peekblk map block).sound
  | get map block malloc => exact (h.blockget map block malloc).sound
  | read map block malloc data => exact (h.blockread map block malloc data).sound
  | hold id =>
      obtain ⟨pool', hget, hok, hkept⟩ := h.hold hallowed
      exact Ensures.bind_ok hget ⟨hok, hkept⟩
  | put id =>
      obtain ⟨pool', hput, hok, hkept⟩ := @CacheOk.put _ debug _ _ id h hallowed
      exact Ensures.bind_ok hput ⟨hok, hkept⟩
  | dirty id newdelta malloc =>
      exact (h.blockdirty hallowed.2 hallowed.1 newdelta malloc).sound
  | endio id =>
      obtain ⟨pool', hend, hok, hkept⟩ := @CacheOk.endio _ debug _ _ id h hallowed
      exact Ensures.bind_ok hend ⟨hok, hkept⟩
  | truncate map blockbits lstart lend clear delta =>
      unfold CacheState.step
      dsimp only
      by_cases haligned : lend % 2 ^ blockbits = 2 ^ blockbits - 1
      · rw [bind_of_ok (tuxAssert_of haligned)]
        have hlast := @CacheOk.truncate _ debug _ _ h
          (rangeOf blockbits lstart lend clear delta) map
        exact hlast.bind fun pool' hend => hend
      · rw [tuxAssert_of_not haligned]
        exact rfl

theorem initPool_ok (bits poolsize : Nat) (data : α) :
    CacheOk (initPool bits poolsize data) fun _ => 0 := by
  have hunhashed (id : Nat) : ((initPool bits poolsize data).buffers id).hashed = false := rfl
  have hhead (id : Nat) : HeadOk ((initPool bits poolsize data).buffers id) 0 :=
    ⟨rfl, iff_of_true rfl rfl, (by decide : bufferFreed < bufferStates),
      fun hne => absurd rfl hne, fun hh => nomatch hh⟩
  refine ⟨hhead, fun _ _ => rfl, fun id hid => absurd hid List.not_mem_nil, List.nodup_nil,
    fun id => ?_, List.nodup_nil, fun map bucket id => ?_, fun _ _ => List.nodup_nil,
    fun i j hi => ?_, rfl, Nat.zero_le _⟩
  · exact iff_of_false List.not_mem_nil (fun hh => nomatch hh)
  · exact iff_of_false List.not_mem_nil fun hand => nomatch hand.1
  · rw [hunhashed] at hi
    cases hi

/-- The invariant of every run. -/
theorem cacheSystem_ok {bits poolsize : Nat} {data : α}
    (h : (cacheSystem debug bits poolsize data).Reachable s) :
    CacheOk s.pool s.pins ∧ s.pool.maxBuffers = max (poolsize / 2 ^ bits) 100 := by
  refine h.invariant (I := fun s => CacheOk s.pool s.pins ∧
    s.pool.maxBuffers = max (poolsize / 2 ^ bits) 100) ?_ ?_
  · rintro s rfl
    exact ⟨initPool_ok bits poolsize data, rfl⟩
  · rintro s s' ⟨hok, hmax⟩ ⟨event, hallowed, hstep⟩
    obtain ⟨hok', hkept⟩ := (hok.step hallowed).of_ok hstep
    exact ⟨hok', hkept.maxBuffers.trans hmax⟩

/-- What holds in every state of a run, whose pool has room for `maxBuffers`. -/
structure CacheSound (debug maxBuffers : Nat) (s : CacheState α) : Prop where
  hash : ∀ map bucket id, id ∈ s.pool.hash map bucket ↔ (s.pool.buffers id).hashed = true ∧
    (s.pool.buffers id).map = some map ∧ bucket = bufferHash (s.pool.buffers id).index
  once : ∀ map block i j, Cached s.pool map block i → Cached s.pool map block j → i = j
  peek : ∀ map block id, Cached s.pool map block id →
    ∃ pool', s.pool.peekblk map block = .ok (pool', some id)
  get : ∀ map block malloc id, Cached s.pool map block id →
    ∃ pool', blockget debug s.pool map block malloc = .ok (pool', some id)
  count : ∀ id, (s.pool.buffers id).count = s.pins id +
    (if (s.pool.buffers id).hashed = true ∨ (s.pool.buffers id).isDirty = true then 1 else 0)
  live : ∀ id, 0 < s.pins id ∨ (s.pool.buffers id).isDirty = true →
    (s.pool.buffers id).state ≠ bufferFreed ∧ id ∉ s.pool.freed
  lru : s.pool.lru.Nodup ∧ ∀ id, id ∈ s.pool.lru ↔ (s.pool.buffers id).hashed = true
  used : s.pool.bufferCount = inUse s.pool ∧ s.pool.bufferCount ≤ maxBuffers
  full : ∀ map block pool', blockget debug s.pool map block true = .ok (pool', none) →
    ∀ id, (s.pool.buffers id).hashed = true →
      (s.pool.buffers id).isDirty = true ∨ 0 < s.pins id
  kept : ∀ event s', s.Allowed event → s.step debug event = .ok s' →
    Kept s.pool s'.pool s.pins s'.pins (s.Cleaned event)
  fails : ∀ event error, s.Allowed event → s.step debug event = .error error →
    event.MayFail error

theorem CacheOk.count (h : CacheOk pool pins) (id : Nat) : (pool.buffers id).count = pins id +
    (if (pool.buffers id).hashed = true ∨ (pool.buffers id).isDirty = true then 1 else 0) := by
  have hrefs := (h.head id).refs
  rw [Nat.add_comm] at hrefs
  rw [hrefs]
  cases hhashed : (pool.buffers id).hashed with
  | true => rw [ownRefs_of_hashed hhashed, if_pos (.inl rfl)]
  | false =>
      cases hdirty : (pool.buffers id).isDirty with
      | true => rw [ownRefs_of_forked hdirty hhashed, if_pos (.inr rfl)]
      | false =>
          rw [ownRefs_of_clean hdirty hhashed, if_neg]
          rintro (hfalse | hfalse) <;> cases hfalse

theorem CacheOk.live (h : CacheOk pool pins)
    (hid : 0 < pins id ∨ (pool.buffers id).isDirty = true) :
    (pool.buffers id).state ≠ bufferFreed ∧ id ∉ pool.freed := by
  have hlive : (pool.buffers id).state ≠ bufferFreed := by
    rcases hid with hpin | hdirty
    · exact h.live_of_pin hpin
    · intro heq
      have hge := isDirty_iff.1 hdirty
      rw [heq] at hge
      exact absurd hge (by decide)
  exact ⟨hlive, h.not_mem_freed hlive⟩

/-- `blockget` fails only where no buffer on the hash is clean or empty, and not held. -/
theorem CacheOk.full (h : CacheOk pool pins) {block : Nat}
    (hget : Reclaim.blockget debug pool map block true = .ok (pool', none))
    (hhashed : (pool.buffers id).hashed = true) :
    (pool.buffers id).isDirty = true ∨ 0 < pins id := by
  have hlooked := @CacheOk.blockget _ debug _ _ h map block true
  rw [hget] at hlooked
  cases hlooked with
  | none _ _ _ hfull =>
      by_contra hno
      rw [not_or, Bool.not_eq_true, Nat.not_lt, Nat.le_zero] at hno
      have hrefs := (h.head id).refs
      rw [ownRefs_of_hashed hhashed, hno.2] at hrefs
      exact hfull rfl id ⟨hrefs, hno.1, hhashed⟩

/-- A lookup returns the buffer of the block. -/
theorem Looked.of_cached {malloc : Bool} {result : Except TuxError (BufferPool α × Option Nat)}
    (h : CacheOk pool pins) (hlooked : Looked pool pins map block malloc result)
    (hid : Cached pool map block id) : ∃ pool', result = .ok (pool', Option.some id) := by
  cases hlooked with
  | bounds hbucket =>
      have hlt := (h.head id).bucket_lt hid.1
      rw [hid.2.2] at hlt
      exact absurd hbucket (Nat.not_le_of_lt hlt)
  | none _ _ habsent _ => exact absurd hid (habsent id)
  | some _ _ _ hfound =>
      rw [hfound id hid]
      exact ⟨_, rfl⟩

/-- The state after a step. -/
def CacheState.next (debug : Nat) (s : CacheState α) (event : CacheEvent α) : CacheState α :=
  match s.step debug event with
  | .ok s' => s'
  | .error _ => s

theorem CacheState.step_next (h : (s.step debug event).isOk = true) :
    s.step debug event = .ok (s.next debug event) := by
  unfold CacheState.next
  cases hstep : s.step debug event with
  | ok s' => rfl
  | error error =>
      rw [hstep] at h
      exact nomatch h

theorem cacheSystem_next {bits poolsize : Nat} {data : α}
    (h : (cacheSystem debug bits poolsize data).Reachable s) (event : CacheEvent α)
    (hallowed : s.Allowed event) (hok : (s.step debug event).isOk = true) :
    (cacheSystem debug bits poolsize data).Reachable (s.next debug event) :=
  .next h ⟨event, hallowed, CacheState.step_next hok⟩

end

end Tux3.Reclaim
