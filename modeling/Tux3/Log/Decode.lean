/-
  Log/Decode.lean --- reading log blocks back.

  Three loops walk over the records of a block: `replay_check_log` steps by the size
  table and remembers the first unify mark it meets, and the two replay stages
  decode the records they act on and step over the others by the size table.  A
  pointer into a block is modelled by the bytes from it to the end of the block, so
  that `data < log->data + bytes` says that more bytes are left than the block's
  padding has.

  What a stage does with a record is a parameter `apply` on a state of any type:
  `replayLoop_records` says that a loop over whole records is the run of `apply` over
  those the stage handles, in order and with the logged arguments.
-/
import Tux3.Log.Write

set_option autoImplicit false

namespace Tux3

open BigEndian

/-- Why a replay fails: an error the code returns (for the log blocks, the bitmap and
the inodes), a failed assertion, or a read past the end of a block. -/
inductive ReplayError where
  | badMagic
  | bytesTooBig
  | invalidCode
  | overrun
  | alreadyAllocated
  | doubleFree
  | noInode
  | assertion
  deriving DecidableEq, Repr, Inhabited

/-! ## The scan of `replay_check_log` -/

/-- The loop of `replay_check_log` over a block with `pad` bytes after its records:
step by the size table and remember where the first `LOG_UNIFY` is, unless a block
read earlier had one.  A byte from `LOG_TYPES` on is an index behind the size table. -/
def checkLoop (pad : Nat) : Nat → Bytes → Option Bytes → Except ReplayError (Option Bytes)
  | 0, _, _ => .error .overrun
  | fuel + 1, data, mark =>
      if pad < data.length then
        match data.head?.bind LogCode.ofByte with
        | none => .error (if (data.headD 0).toNat < logTypes then .invalidCode else .overrun)
        | some code =>
            let mark := if code = .unify ∧ mark = none then some data else mark
            checkLoop pad fuel (data.drop (logSize code)) mark
      else .ok mark

/-- The records from the first unify mark on, if there is one. -/
def fromUnify : List LogRecord → Option (List LogRecord)
  | [] => none
  | r :: rs => if r.code = .unify then some (r :: rs) else fromUnify rs

/-- Dropping the size of the first record leaves the others. -/
theorem drop_logSize_bytes (r : LogRecord) (rest : Bytes) :
    (r.bytes ++ rest).drop (logSize r.code) = rest :=
  List.drop_left' (bytes_length r)

theorem checkLoop_records (rs : List LogRecord) (tail : Bytes) (mark : Option Bytes)
    {fuel : Nat} (hfuel : rs.length < fuel) :
    checkLoop tail.length fuel (recordsBytes rs ++ tail) mark =
      .ok (mark.or ((fromUnify rs).map fun rs => recordsBytes rs ++ tail)) := by
  induction rs generalizing fuel mark with
  | nil =>
      obtain ⟨fuel, rfl⟩ : ∃ n, fuel = n + 1 := ⟨fuel - 1, by simp at hfuel; omega⟩
      simp [checkLoop, fromUnify]
  | cons r rs ih =>
      obtain ⟨fuel, rfl⟩ : ∃ n, fuel = n + 1 := ⟨fuel - 1, by simp at hfuel; omega⟩
      have hlt : tail.length < (recordsBytes (r :: rs) ++ tail).length := by
        have hpos := logSize_pos r.code
        have hlen := bytes_length r
        simp only [recordsBytes_cons, List.length_append]
        omega
      have hcode : (recordsBytes (r :: rs) ++ tail).head?.bind LogCode.ofByte = some r.code := by
        simp [LogRecord.bytes]
      have hdrop : (recordsBytes (r :: rs) ++ tail).drop (logSize r.code) =
          recordsBytes rs ++ tail := by
        rw [recordsBytes_cons, List.append_assoc, drop_logSize_bytes]
      have hfuel' : rs.length < fuel := by simpa using hfuel
      rw [checkLoop, if_pos hlt, hcode]
      simp only [hdrop]
      rw [ih _ hfuel']
      by_cases hunify : r.code = .unify
      · cases mark <;> simp [fromUnify, hunify]
      · simp [fromUnify, hunify]

/-! ## The decoders of the two stages -/

/-- Which records `replay_log_stage1` acts on. -/
def stage1Handles : LogCode → Bool
  | .bnodeRedirect | .bnodeRoot | .bnodeSplit | .bnodeAdd | .bnodeUpdate
  | .bnodeMerge | .bnodeDel | .bnodeAdjust | .freeblocks => true
  | .balloc | .bfree | .bfreeOnUnify | .bfreeRelog | .leafRedirect | .leafFree
  | .bnodeFree | .orphanAdd | .orphanDel | .unify | .delta => false

/-- Which records `replay_log_stage2` acts on. -/
def stage2Handles : LogCode → Bool
  | .balloc | .bfree | .bfreeOnUnify | .bfreeRelog | .leafRedirect | .bnodeRedirect
  | .leafFree | .bnodeFree | .bnodeRoot | .bnodeSplit | .bnodeMerge
  | .orphanAdd | .orphanDel => true
  | .freeblocks | .bnodeAdd | .bnodeUpdate | .bnodeDel | .bnodeAdjust | .unify | .delta => false

/-- Step over the rest of a record: `data += log_size[code] - sizeof(code)`. -/
def skipRecord (code : LogCode) (data : Bytes) : Option (Option LogRecord × Bytes) :=
  some (none, data.drop (logSize code - 1))

/-- The switch of `replay_log_stage1`, after the code was read. -/
def stage1Switch (code : LogCode) (data : Bytes) : Option (Option LogRecord × Bytes) :=
  match code with
  | .bnodeRedirect => do
      let (oldblock, data) ← decode48 data
      let (newblock, data) ← decode48 data
      return (some (.bnodeRedirect oldblock newblock), data)
  | .bnodeRoot => do
      let (count, data) ← readBe 1 data
      let (root, data) ← decode48 data
      let (left, data) ← decode48 data
      let (right, data) ← decode48 data
      let (rkey, data) ← decode48 data
      return (some (.bnodeRoot root count left right rkey), data)
  | .bnodeSplit => do
      let (pos, data) ← decode16 data
      let (src, data) ← decode48 data
      let (dst, data) ← decode48 data
      return (some (.bnodeSplit src pos dst), data)
  | .bnodeAdd => do
      let (parent, data) ← decode48 data
      let (child, data) ← decode48 data
      let (key, data) ← decode48 data
      return (some (.bnodeAdd parent child key), data)
  | .bnodeUpdate => do
      let (parent, data) ← decode48 data
      let (child, data) ← decode48 data
      let (key, data) ← decode48 data
      return (some (.bnodeUpdate parent child key), data)
  | .bnodeMerge => do
      let (src, data) ← decode48 data
      let (dst, data) ← decode48 data
      return (some (.bnodeMerge src dst), data)
  | .bnodeDel => do
      let (count, data) ← decode16 data
      let (bnode, data) ← decode48 data
      let (key, data) ← decode48 data
      return (some (.bnodeDel bnode key count), data)
  | .bnodeAdjust => do
      let (bnode, data) ← decode48 data
      let (fromKey, data) ← decode48 data
      let (toKey, data) ← decode48 data
      return (some (.bnodeAdjust bnode fromKey toKey), data)
  | .freeblocks => do
      let (count, data) ← decode48 data
      return (some (.freeblocks count), data)
  | .balloc | .bfree | .bfreeOnUnify | .bfreeRelog | .leafRedirect | .leafFree
  | .bnodeFree | .orphanAdd | .orphanDel | .unify | .delta => skipRecord code data

/-- The switch of `replay_log_stage2`, after the code was read. -/
def stage2Switch (code : LogCode) (data : Bytes) : Option (Option LogRecord × Bytes) :=
  match code with
  | .balloc => do
      let (count, data) ← decode32 data
      let (block, data) ← decode48 data
      return (some (.balloc block count), data)
  | .bfree => do
      let (count, data) ← decode32 data
      let (block, data) ← decode48 data
      return (some (.bfree block count), data)
  | .bfreeOnUnify => do
      let (count, data) ← decode32 data
      let (block, data) ← decode48 data
      return (some (.bfreeOnUnify block count), data)
  | .bfreeRelog => do
      let (count, data) ← decode32 data
      let (block, data) ← decode48 data
      return (some (.bfreeRelog block count), data)
  | .leafRedirect => do
      let (oldblock, data) ← decode48 data
      let (newblock, data) ← decode48 data
      return (some (.leafRedirect oldblock newblock), data)
  | .bnodeRedirect => do
      let (oldblock, data) ← decode48 data
      let (newblock, data) ← decode48 data
      return (some (.bnodeRedirect oldblock newblock), data)
  | .leafFree => do
      let (block, data) ← decode48 data
      return (some (.leafFree block), data)
  | .bnodeFree => do
      let (block, data) ← decode48 data
      return (some (.bnodeFree block), data)
  | .bnodeRoot => do
      let (count, data) ← readBe 1 data
      let (root, data) ← decode48 data
      let (left, data) ← decode48 data
      let (right, data) ← decode48 data
      let (rkey, data) ← decode48 data
      return (some (.bnodeRoot root count left right rkey), data)
  | .bnodeSplit => do
      let (pos, data) ← decode16 data
      let (src, data) ← decode48 data
      let (dst, data) ← decode48 data
      return (some (.bnodeSplit src pos dst), data)
  | .bnodeMerge => do
      let (src, data) ← decode48 data
      let (dst, data) ← decode48 data
      return (some (.bnodeMerge src dst), data)
  | .orphanAdd => do
      let (version, data) ← decode16 data
      let (inum, data) ← decode48 data
      return (some (.orphanAdd version inum), data)
  | .orphanDel => do
      let (version, data) ← decode16 data
      let (inum, data) ← decode48 data
      return (some (.orphanDel version inum), data)
  | .freeblocks | .bnodeAdd | .bnodeUpdate | .bnodeDel | .bnodeAdjust | .unify | .delta =>
      skipRecord code data

/-- A switch decodes: after the code of a record it consumes exactly the record's
fields, and returns the record when the stage handles it. -/
def Decodes (handles : LogCode → Bool)
    (switch : LogCode → Bytes → Option (Option LogRecord × Bytes)) : Prop :=
  ∀ (r : LogRecord) (rest : Bytes), r.InRange →
    switch r.code (r.fields ++ rest) = some (if handles r.code then some r else none, rest)

/-- The entry count of a new root is a single byte. -/
theorem readBe_ofNat {count : Nat} (h : count = 1 ∨ count = 2) (rest : Bytes) :
    readBe 1 (UInt8.ofNat count :: rest) = some (count, rest) := by
  have hbyte : UInt8.ofNat count :: rest = beBytes 1 count ++ rest := by
    simp [beBytes]
  rw [hbyte, readBe_beBytes_of_lt (by omega)]

/-- Stepping over the rest of a record by the size table drops its fields. -/
theorem skipRecord_fields (r : LogRecord) (rest : Bytes) :
    skipRecord r.code (r.fields ++ rest) = some (none, rest) := by
  rw [skipRecord, List.drop_left' (fields_length r)]

theorem stage1Switch_decodes : Decodes stage1Handles stage1Switch := by
  intro r rest hr
  cases r with
  | balloc | bfree | bfreeOnUnify | bfreeRelog | leafRedirect | leafFree | bnodeFree
  | orphanAdd | orphanDel | unify | delta => exact skipRecord_fields _ rest
  | bnodeRoot root count left right rkey =>
      obtain ⟨hcount, hroot, hleft, hright, hrkey⟩ := hr
      simp (disch := assumption) [stage1Switch, stage1Handles, LogRecord.code,
        LogRecord.fields, readBe_ofNat hcount, decode48_encode48]
  | bnodeSplit | bnodeDel =>
      obtain ⟨h₁, h₂, h₃⟩ := hr
      simp (disch := assumption) [stage1Switch, stage1Handles, LogRecord.code,
        LogRecord.fields, decode48_encode48, decode16_encode16]
  | bnodeAdd | bnodeUpdate | bnodeAdjust =>
      obtain ⟨h₁, h₂, h₃⟩ := hr
      simp (disch := assumption) [stage1Switch, stage1Handles, LogRecord.code,
        LogRecord.fields, decode48_encode48]
  | bnodeRedirect | bnodeMerge =>
      obtain ⟨h₁, h₂⟩ := hr
      simp (disch := assumption) [stage1Switch, stage1Handles, LogRecord.code,
        LogRecord.fields, decode48_encode48]
  | freeblocks =>
      simp [stage1Switch, stage1Handles, LogRecord.code, LogRecord.fields,
        decode48_encode48 hr]

theorem stage2Switch_decodes : Decodes stage2Handles stage2Switch := by
  intro r rest hr
  cases r with
  | freeblocks | bnodeAdd | bnodeUpdate | bnodeDel | bnodeAdjust | unify | delta =>
      exact skipRecord_fields _ rest
  | bnodeRoot root count left right rkey =>
      obtain ⟨hcount, hroot, hleft, hright, hrkey⟩ := hr
      simp (disch := assumption) [stage2Switch, stage2Handles, LogRecord.code,
        LogRecord.fields, readBe_ofNat hcount, decode48_encode48]
  | bnodeSplit =>
      obtain ⟨h₁, h₂, h₃⟩ := hr
      simp (disch := assumption) [stage2Switch, stage2Handles, LogRecord.code,
        LogRecord.fields, decode48_encode48, decode16_encode16]
  | balloc | bfree | bfreeOnUnify | bfreeRelog =>
      obtain ⟨h₁, h₂⟩ := hr
      simp (disch := assumption) [stage2Switch, stage2Handles, LogRecord.code,
        LogRecord.fields, decode48_encode48, decode32_encode32]
  | leafRedirect | bnodeRedirect | bnodeMerge =>
      obtain ⟨h₁, h₂⟩ := hr
      simp (disch := assumption) [stage2Switch, stage2Handles, LogRecord.code,
        LogRecord.fields, decode48_encode48]
  | orphanAdd | orphanDel =>
      obtain ⟨h₁, h₂⟩ := hr
      simp (disch := assumption) [stage2Switch, stage2Handles, LogRecord.code,
        LogRecord.fields, decode48_encode48, decode16_encode16]
  | leafFree | bnodeFree =>
      simp [stage2Switch, stage2Handles, LogRecord.code, LogRecord.fields,
        decode48_encode48 hr]

/-! ## The loop of a stage -/

section Loop

variable {σ : Type} (switch : LogCode → Bytes → Option (Option LogRecord × Bytes))
  (apply : LogRecord → σ → Except ReplayError σ)

/-- The loop of a stage over a block with `pad` bytes after its records. -/
def replayLoop (pad : Nat) : Nat → Bytes → σ → Except ReplayError σ
  | 0, _, _ => .error .overrun
  | fuel + 1, data, s =>
      if pad < data.length then
        match data.head?.bind LogCode.ofByte with
        | none => .error .invalidCode
        | some code =>
            match switch code data.tail with
            | none => .error .overrun
            | some (none, data) => replayLoop pad fuel data s
            | some (some r, data) => do
                let s ← apply r s
                replayLoop pad fuel data s
      else .ok s

/-- Run `apply` over records in order, stopping at the first error. -/
def applyRecords : List LogRecord → σ → Except ReplayError σ
  | [], s => .ok s
  | r :: rs, s => do applyRecords rs (← apply r s)

theorem applyRecords_append (rs rs' : List LogRecord) (s : σ) :
    applyRecords apply (rs ++ rs') s =
      (applyRecords apply rs s).bind (applyRecords apply rs') := by
  induction rs generalizing s with
  | nil => rfl
  | cons r rs ih =>
      rw [List.cons_append, applyRecords, applyRecords]
      cases h : apply r s with
      | error e => rfl
      | ok s' => exact ih s'

/-- A loop over whole records applies those its stage handles, in order. -/
theorem replayLoop_records {handles : LogCode → Bool} (hswitch : Decodes handles switch)
    (rs : List LogRecord) (hrs : ∀ r ∈ rs, r.InRange) (tail : Bytes) {fuel : Nat}
    (hfuel : rs.length < fuel) (s : σ) :
    replayLoop switch apply tail.length fuel (recordsBytes rs ++ tail) s =
      applyRecords apply (rs.filter fun r => handles r.code) s := by
  induction rs generalizing fuel s with
  | nil =>
      obtain ⟨fuel, rfl⟩ : ∃ n, fuel = n + 1 := ⟨fuel - 1, by simp at hfuel; omega⟩
      simp [replayLoop, applyRecords]
  | cons r rs ih =>
      obtain ⟨fuel, rfl⟩ : ∃ n, fuel = n + 1 := ⟨fuel - 1, by simp at hfuel; omega⟩
      have hlt : tail.length < (recordsBytes (r :: rs) ++ tail).length := by
        have hpos := logSize_pos r.code
        have hlen := bytes_length r
        simp only [recordsBytes_cons, List.length_append]
        omega
      have hcode : (recordsBytes (r :: rs) ++ tail).head?.bind LogCode.ofByte = some r.code := by
        simp [LogRecord.bytes]
      have htail : (recordsBytes (r :: rs) ++ tail).tail =
          r.fields ++ (recordsBytes rs ++ tail) := by
        simp [LogRecord.bytes]
      have hrs' : ∀ r' ∈ rs, r'.InRange := fun r' hr' => hrs r' (by simp [hr'])
      have hfuel' : rs.length < fuel := by simpa using hfuel
      rw [replayLoop, if_pos hlt, hcode]
      simp only [htail]
      rw [hswitch r _ (hrs r (by simp))]
      by_cases hhandles : handles r.code = true
      · simp only [hhandles, if_true, List.filter_cons_of_pos, applyRecords]
        exact congrArg (bind (apply r s)) (funext fun s' => ih hrs' hfuel' s')
      · simp only [hhandles, Bool.false_eq_true, if_false, not_false_eq_true,
          List.filter_cons_of_neg]
        exact ih hrs' hfuel' s

end Loop

/-! ## Blocks -/

/-- `struct replay`, as far as the log goes: the log blocks in index order, each with
its address (`blocknrs`), and the latest unify mark: the index of its block and the
position in it. -/
structure Replay where
  blocks : List (Nat × Logblock)
  unify : Option (Nat × Bytes)
  deriving Repr, Inhabited

/-- `replay_check_log` on the block with the given index. -/
def replayCheckLog (g : Geometry) (rp : Replay) (index : Nat) (log : Logblock) :
    Except ReplayError Replay :=
  if log.magic ≠ tux3MagicLog then .error .badMagic
  else if g.blocksize < log.bytes + 16 then .error .bytesTooBig
  else do
    let pad := log.data.length - log.bytes
    let mark ← checkLoop pad (log.data.length + 1) log.data (rp.unify.map Prod.snd)
    return { rp with unify := rp.unify.or (mark.map fun pos => (index, pos)) }

/-- The records part of a stage on one log block: nothing for a block before the
latest unify mark, and only what follows the mark in the mark's block. -/
def replayBlock {σ : Type} (switch : LogCode → Bytes → Option (Option LogRecord × Bytes))
    (apply : LogRecord → σ → Except ReplayError σ) (rp : Replay) (index : Nat)
    (log : Logblock) (s : σ) : Except ReplayError σ :=
  let pad := log.data.length - log.bytes
  let loop := replayLoop switch apply pad (log.data.length + 1)
  match rp.unify with
  | none => loop log.data s
  | some (unifyIndex, unifyPos) =>
      if index < unifyIndex then .ok s
      else if index = unifyIndex then loop unifyPos s
      else loop log.data s

/-- `replay_log_stage1` on one log block. -/
def replayLogStage1 {σ : Type} (apply : LogRecord → σ → Except ReplayError σ) (rp : Replay)
    (index : Nat) (_blocknr : Nat) (log : Logblock) (s : σ) : Except ReplayError σ :=
  replayBlock stage1Switch apply rp index log s

/-- `replay_log_stage2` on one log block: the block's own address counts as an
allocation (`mark`), before its records and even before the unify mark. -/
def replayLogStage2 {σ : Type} (mark : Nat → σ → Except ReplayError σ)
    (apply : LogRecord → σ → Except ReplayError σ) (rp : Replay)
    (index : Nat) (blocknr : Nat) (log : Logblock) (s : σ) : Except ReplayError σ := do
  let s ← mark blocknr s
  replayBlock stage2Switch apply rp index log s

/-- `replay_logblocks`: a stage over the log blocks in index order. -/
def replayLogblocks {σ : Type}
    (replayLogFunc : Nat → Nat → Logblock → σ → Except ReplayError σ) :
    Nat → List (Nat × Logblock) → σ → Except ReplayError σ
  | _, [], s => .ok s
  | lognext, (blocknr, log) :: rest, s => do
      let s ← replayLogFunc lognext blocknr log s
      replayLogblocks replayLogFunc (lognext + 1) rest s

end Tux3
