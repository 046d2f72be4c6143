/-
  Log/Write.lean --- filling log blocks.

  `log_begin` makes room for a record and opens a new log block when the record
  does not fit in what is left of the current one; the encoders append the bytes
  and `log_finish` closes a block.  The blocks so filled are exactly the greedy
  packing of the records by their sizes (`packRecords`), so every block holds whole
  records only (`logRecords_holds`).
-/
import Tux3.Basic
import Tux3.Log.Record

set_option autoImplicit false

namespace Tux3

open BigEndian

/-! ## Log blocks -/

/-- `TUX3_MAGIC_LOG`. -/
def tux3MagicLog : Nat := 0x10ad

/-- `struct logblock`, with its header fields as numbers. -/
structure Logblock where
  magic : Nat
  bytes : Nat
  logchain : Nat
  data : Bytes
  deriving DecidableEq, Repr, Inhabited

/-- The bytes of a log block after its 16 byte header. -/
def Geometry.logRoom (g : Geometry) : Nat := g.blocksize - 16

theorem Geometry.logRoom_ge (g : Geometry) : 26 ≤ g.logRoom := by
  have h := g.blocksize_ge
  unfold Geometry.logRoom
  omega

theorem Geometry.logRoom_lt (g : Geometry) : g.logRoom < 65536 := by
  have h := g.blocksize_le
  have h' := g.blocksize_ge
  unfold Geometry.logRoom
  omega

/-- The log fields of the super block in memory.  `logmap` holds the finished
blocks of this delta in index order; `logbuf` is the block being filled, given by
the bytes between `log->data` and `sb->logpos`. -/
structure LogState where
  logmap : List Logblock
  logbuf : Option Bytes
  deriving DecidableEq, Repr, Inhabited

/-- `log_finish`: store the byte count, clear the rest of the block and drop it. -/
def logFinish (g : Geometry) (st : LogState) : Option LogState :=
  match st.logbuf with
  | none => some st
  | some payload =>
      -- assert(sb->logtop >= sb->logpos)
      if payload.length ≤ g.logRoom then
        let log : Logblock :=
          { magic := tux3MagicLog, bytes := payload.length % 2 ^ 16, logchain := 0
            data := payload ++ List.replicate (g.logRoom - payload.length) 0 }
        some { logmap := st.logmap ++ [log], logbuf := none }
      else none

/-- `log_begin`: with no open block both `logpos` and `logtop` are null, so that a
new block is opened as well. -/
def logBegin (g : Geometry) (st : LogState) (bytes : Nat) : Option LogState :=
  let full := match st.logbuf with
    | none => true
    | some payload => decide (g.logRoom < payload.length + bytes)
  if full then do
    let st ← logFinish g st
    return { st with logbuf := some [] }
  else some st

/-- `log_end`: advance `logpos` over the bytes just written. -/
def logEnd (st : LogState) (data : Bytes) : LogState :=
  { st with logbuf := st.logbuf.map (· ++ data) }

/-! ## Encoders -/

section Encoders

variable (g : Geometry) (st : LogState)

/-- `log_intent`. -/
def logIntent (intent : LogCode) : Option LogState := do
  let st ← logBegin g st 1
  return logEnd st [intent.toByte]

/-- `log_u48`. -/
def logU48 (intent : LogCode) (v1 : Nat) : Option LogState := do
  let st ← logBegin g st (logSize intent)
  return logEnd st (intent.toByte :: encode48 v1)

/-- `log_u16_u48`. -/
def logU16U48 (intent : LogCode) (v1 v2 : Nat) : Option LogState := do
  let st ← logBegin g st (logSize intent)
  return logEnd st (intent.toByte :: (encode16 v1 ++ encode48 v2))

/-- `log_u32_u48`. -/
def logU32U48 (intent : LogCode) (v1 v2 : Nat) : Option LogState := do
  let st ← logBegin g st (logSize intent)
  return logEnd st (intent.toByte :: (encode32 v1 ++ encode48 v2))

/-- `log_u48_u48`. -/
def logU48U48 (intent : LogCode) (v1 v2 : Nat) : Option LogState := do
  let st ← logBegin g st (logSize intent)
  return logEnd st (intent.toByte :: (encode48 v1 ++ encode48 v2))

/-- `log_u16_u48_u48`. -/
def logU16U48U48 (intent : LogCode) (v1 v2 v3 : Nat) : Option LogState := do
  let st ← logBegin g st (logSize intent)
  return logEnd st (intent.toByte :: (encode16 v1 ++ (encode48 v2 ++ encode48 v3)))

/-- `log_u48_u48_u48`. -/
def logU48U48U48 (intent : LogCode) (v1 v2 v3 : Nat) : Option LogState := do
  let st ← logBegin g st (logSize intent)
  return logEnd st (intent.toByte :: (encode48 v1 ++ (encode48 v2 ++ encode48 v3)))

/-- `log_balloc`. -/
def logBalloc (block count : Nat) := logU32U48 g st .balloc count block

/-- `log_bfree`. -/
def logBfree (block count : Nat) := logU32U48 g st .bfree count block

/-- `log_bfree_on_unify`. -/
def logBfreeOnUnify (block count : Nat) := logU32U48 g st .bfreeOnUnify count block

/-- `log_bfree_relog`. -/
def logBfreeRelog (block count : Nat) := logU32U48 g st .bfreeRelog count block

/-- `log_leaf_redirect`. -/
def logLeafRedirect (oldblock newblock : Nat) := logU48U48 g st .leafRedirect oldblock newblock

/-- `log_leaf_free`. -/
def logLeafFree (leaf : Nat) := logU48 g st .leafFree leaf

/-- `log_bnode_redirect`. -/
def logBnodeRedirect (oldblock newblock : Nat) := logU48U48 g st .bnodeRedirect oldblock newblock

/-- `log_bnode_root`. -/
def logBnodeRoot (root count left right rkey : Nat) : Option LogState := do
  let st ← logBegin g st (logSize .bnodeRoot)
  if count = 1 ∨ count = 2 then
    return logEnd st (LogCode.bnodeRoot.toByte :: UInt8.ofNat count ::
      (encode48 root ++ (encode48 left ++ (encode48 right ++ encode48 rkey))))
  else none

/-- `log_bnode_split`. -/
def logBnodeSplit (src pos dst : Nat) := logU16U48U48 g st .bnodeSplit pos src dst

/-- `log_bnode_add`. -/
def logBnodeAdd (parent child key : Nat) := logU48U48U48 g st .bnodeAdd parent child key

/-- `log_bnode_update`. -/
def logBnodeUpdate (parent child key : Nat) := logU48U48U48 g st .bnodeUpdate parent child key

/-- `log_bnode_merge`. -/
def logBnodeMerge (src dst : Nat) := logU48U48 g st .bnodeMerge src dst

/-- `log_bnode_del`. -/
def logBnodeDel (bnode key count : Nat) := logU16U48U48 g st .bnodeDel count bnode key

/-- `log_bnode_adjust`. -/
def logBnodeAdjust (bnode fromKey toKey : Nat) :=
  logU48U48U48 g st .bnodeAdjust bnode fromKey toKey

/-- `log_bnode_free`. -/
def logBnodeFree (bnode : Nat) := logU48 g st .bnodeFree bnode

/-- `log_orphan_add`. -/
def logOrphanAdd (version inum : Nat) := logU16U48 g st .orphanAdd version inum

/-- `log_orphan_del`. -/
def logOrphanDel (version inum : Nat) := logU16U48 g st .orphanDel version inum

/-- `log_freeblocks`. -/
def logFreeblocks (freeblocks : Nat) := logU48 g st .freeblocks freeblocks

/-- `log_unify`. -/
def logUnify := logIntent g st .unify

/-- `log_delta`. -/
def logDelta := logIntent g st .delta

/-- The call that logs a record. -/
def logRecord : LogRecord → Option LogState
  | .balloc block count => logBalloc g st block count
  | .bfree block count => logBfree g st block count
  | .bfreeOnUnify block count => logBfreeOnUnify g st block count
  | .bfreeRelog block count => logBfreeRelog g st block count
  | .leafRedirect oldblock newblock => logLeafRedirect g st oldblock newblock
  | .leafFree leaf => logLeafFree g st leaf
  | .bnodeRedirect oldblock newblock => logBnodeRedirect g st oldblock newblock
  | .bnodeRoot root count left right rkey => logBnodeRoot g st root count left right rkey
  | .bnodeSplit src pos dst => logBnodeSplit g st src pos dst
  | .bnodeAdd parent child key => logBnodeAdd g st parent child key
  | .bnodeUpdate parent child key => logBnodeUpdate g st parent child key
  | .bnodeMerge src dst => logBnodeMerge g st src dst
  | .bnodeDel bnode key count => logBnodeDel g st bnode key count
  | .bnodeAdjust bnode fromKey toKey => logBnodeAdjust g st bnode fromKey toKey
  | .bnodeFree bnode => logBnodeFree g st bnode
  | .orphanAdd version inum => logOrphanAdd g st version inum
  | .orphanDel version inum => logOrphanDel g st version inum
  | .freeblocks count => logFreeblocks g st count
  | .unify => logUnify g st
  | .delta => logDelta g st

end Encoders

/-- Log a run of records. -/
def logRecords (g : Geometry) : LogState → List LogRecord → Option LogState
  | st, [] => some st
  | st, r :: rs => do logRecords g (← logRecord g st r) rs

/-- Every `log_*` function makes room for the size of its record in the table and
appends the record's bytes. -/
theorem logRecord_eq (g : Geometry) (st : LogState) {r : LogRecord} (hr : r.InRange) :
    logRecord g st r = (logBegin g st (logSize r.code)).map (logEnd · r.bytes) := by
  rw [Option.map_eq_bind]
  cases r with
  | bnodeRoot root count left right rkey =>
      have hcount : count = 1 ∨ count = 2 := hr.1
      simp only [logRecord, logBnodeRoot, if_pos hcount]
      rfl
  | _ => rfl

/-! ## Packing -/

/-- The room a run of records takes. -/
def recordsSize (rs : List LogRecord) : Nat := (rs.map fun r => logSize r.code).sum

theorem recordsBytes_length (rs : List LogRecord) :
    (recordsBytes rs).length = recordsSize rs := by
  induction rs with
  | nil => rfl
  | cons r rs ih =>
      rw [recordsBytes_cons, List.length_append, bytes_length, ih]
      simp [recordsSize]

/-- A distribution of records over blocks: the blocks that are full and the one
being filled. -/
structure Packing where
  full : List (List LogRecord)
  cur : Option (List LogRecord)
  deriving DecidableEq, Repr, Inhabited

/-- Put a record in the block being filled, or in a new one when it does not fit. -/
def Packing.add (room : Nat) (p : Packing) (r : LogRecord) : Packing :=
  match p.cur with
  | none => { p with cur := some [r] }
  | some rs =>
      if recordsSize rs + logSize r.code ≤ room then { p with cur := some (rs ++ [r]) }
      else { full := p.full ++ [rs], cur := some [r] }

/-- The blocks of a packing, the one being filled last. -/
def Packing.blocks (p : Packing) : List (List LogRecord) := p.full ++ p.cur.toList

/-- The greedy distribution of a delta's records over blocks of the given room. -/
def packRecords (room : Nat) (rs : List LogRecord) : List (List LogRecord) :=
  (rs.foldl (Packing.add room) { full := [], cur := none }).blocks

/-- Adding a record appends it to the records packed so far. -/
theorem Packing.add_flatten (room : Nat) (p : Packing) (r : LogRecord) :
    (p.add room r).blocks.flatten = p.blocks.flatten ++ [r] := by
  unfold Packing.add Packing.blocks
  cases hcur : p.cur with
  | none => simp
  | some rs => by_cases hfit : recordsSize rs + logSize r.code ≤ room <;> simp [hfit]

theorem Packing.foldl_add_flatten (room : Nat) (p : Packing) (rs : List LogRecord) :
    (rs.foldl (Packing.add room) p).blocks.flatten = p.blocks.flatten ++ rs := by
  induction rs generalizing p with
  | nil => simp
  | cons r rs ih => rw [List.foldl_cons, ih, Packing.add_flatten, List.append_assoc]; rfl

/-- The blocks hold the records in order. -/
theorem packRecords_flatten (room : Nat) (rs : List LogRecord) :
    (packRecords room rs).flatten = rs := by
  rw [packRecords, Packing.foldl_add_flatten]
  rfl

/-! ## The blocks filled are the packing -/

/-- The log block, not yet chained, that holds a run of records. -/
def recordsLogblock (g : Geometry) (rs : List LogRecord) : Logblock :=
  { magic := tux3MagicLog, bytes := recordsSize rs, logchain := 0
    data := recordsBytes rs ++ List.replicate (g.logRoom - recordsSize rs) 0 }

/-- The log state holds a packing: its finished blocks are the full ones, the open
block has the bytes of the one being filled, and every block fits. -/
structure LogState.Holds (g : Geometry) (st : LogState) (p : Packing) : Prop where
  logmap : st.logmap = p.full.map (recordsLogblock g)
  logbuf : st.logbuf = p.cur.map recordsBytes
  fits : ∀ rs ∈ p.blocks, recordsSize rs ≤ g.logRoom

/-- `log_finish` moves the open block to the finished ones. -/
theorem logFinish_holds {g : Geometry} {st : LogState} {p : Packing} (h : st.Holds g p) :
    ∃ st', logFinish g st = some st' ∧ st'.Holds g { full := p.blocks, cur := none } := by
  cases hcur : p.cur with
  | none =>
      have hbuf : st.logbuf = none := by rw [h.logbuf, hcur]; rfl
      refine ⟨st, by rw [logFinish, hbuf], ?_, hbuf, ?_⟩
      · simpa [Packing.blocks, hcur] using h.logmap
      · simpa [Packing.blocks, hcur] using h.fits
  | some rs =>
      have hbuf : st.logbuf = some (recordsBytes rs) := by rw [h.logbuf, hcur]; rfl
      have hfit : recordsSize rs ≤ g.logRoom := h.fits rs (by simp [Packing.blocks, hcur])
      have hlt := g.logRoom_lt
      have hmod : recordsSize rs % 2 ^ 16 = recordsSize rs := Nat.mod_eq_of_lt (by omega)
      have hlog : (⟨tux3MagicLog, (recordsBytes rs).length % 2 ^ 16, 0,
          recordsBytes rs ++ List.replicate (g.logRoom - (recordsBytes rs).length) 0⟩ :
            Logblock) = recordsLogblock g rs := by
        rw [recordsBytes_length, hmod, recordsLogblock]
      refine ⟨⟨st.logmap ++ [recordsLogblock g rs], none⟩, ?_, ?_, rfl, ?_⟩
      · have hfit' : (recordsBytes rs).length ≤ g.logRoom := by rwa [recordsBytes_length]
        simp only [logFinish, hbuf, if_pos hfit', hlog]
      · simp [Packing.blocks, hcur, h.logmap]
      · simpa [Packing.blocks] using h.fits

/-- One `log_*` call adds its record to the packing. -/
theorem logRecord_holds {g : Geometry} {st : LogState} {p : Packing} {r : LogRecord}
    (h : st.Holds g p) (hr : r.InRange) :
    ∃ st', logRecord g st r = some st' ∧ st'.Holds g (p.add g.logRoom r) := by
  have hroom : logSize r.code ≤ g.logRoom := (logSize_le r.code).trans g.logRoom_ge
  have hone : recordsSize [r] = logSize r.code := by simp [recordsSize]
  rw [logRecord_eq g st hr]
  -- the record goes to the open block exactly when it fits there
  by_cases hopen : ∃ rs, p.cur = some rs ∧ recordsSize rs + logSize r.code ≤ g.logRoom
  · obtain ⟨rs, hcur, hfit⟩ := hopen
    have hbuf : st.logbuf = some (recordsBytes rs) := by rw [h.logbuf, hcur]; rfl
    have hbegin : logBegin g st (logSize r.code) = some st := by
      have hnot : ¬ g.logRoom < recordsSize rs + logSize r.code := by omega
      simp [logBegin, hbuf, recordsBytes_length, hnot]
    refine ⟨logEnd st r.bytes, by rw [hbegin]; rfl, ?_, ?_, ?_⟩
    · simpa [Packing.add, hcur, hfit, logEnd] using h.logmap
    · simp [Packing.add, hcur, hfit, logEnd, hbuf]
    · intro rs' hrs'
      simp only [Packing.blocks, Packing.add, hcur, if_pos hfit, Option.toList_some,
        List.mem_append, List.mem_singleton] at hrs'
      rcases hrs' with hfull | rfl
      · exact h.fits rs' (by simp [Packing.blocks, hfull])
      · simpa [recordsSize] using hfit
  · obtain ⟨st₁, hfinish, h₁⟩ := logFinish_holds h
    have hbegin : logBegin g st (logSize r.code) = some { st₁ with logbuf := some [] } := by
      cases hcur : p.cur with
      | none =>
          have hbuf : st.logbuf = none := by rw [h.logbuf, hcur]; rfl
          simp [logBegin, hbuf, hfinish]
      | some rs =>
          have hbuf : st.logbuf = some (recordsBytes rs) := by rw [h.logbuf, hcur]; rfl
          have hlt : g.logRoom < recordsSize rs + logSize r.code := by
            by_contra hle
            exact hopen ⟨rs, hcur, by omega⟩
          simp [logBegin, hbuf, recordsBytes_length, hlt, hfinish]
    have hadd : p.add g.logRoom r = { full := p.blocks, cur := some [r] } := by
      unfold Packing.add Packing.blocks
      cases hcur : p.cur with
      | none =>
          simp
      | some rs =>
          have hnot : ¬ recordsSize rs + logSize r.code ≤ g.logRoom :=
            fun hle => hopen ⟨rs, hcur, hle⟩
          simp [hnot]
    rw [hadd, hbegin]
    refine ⟨_, rfl, ?_, ?_, ?_⟩
    · exact h₁.logmap
    · simp [logEnd]
    · intro rs' hrs'
      simp only [Packing.blocks, Option.toList_some, List.mem_append,
        List.mem_singleton] at hrs'
      rcases hrs' with hold | rfl
      · exact h₁.fits rs' (by simpa [Packing.blocks] using hold)
      · rw [hone]; exact hroom

/-- A run of `log_*` calls never fails and adds its records to the packing. -/
theorem logRecords_holds {g : Geometry} (rs : List LogRecord) {st : LogState} {p : Packing}
    (h : st.Holds g p) (hrs : ∀ r ∈ rs, r.InRange) :
    ∃ st', logRecords g st rs = some st' ∧
      st'.Holds g (rs.foldl (Packing.add g.logRoom) p) := by
  induction rs generalizing st p with
  | nil => exact ⟨st, rfl, h⟩
  | cons r rs ih =>
      obtain ⟨st₁, hlog, h₁⟩ := logRecord_holds h (hrs r (by simp))
      obtain ⟨st₂, hlogs, h₂⟩ := ih h₁ fun r' hr' => hrs r' (by simp [hr'])
      exact ⟨st₂, by simp [logRecords, hlog, hlogs], h₂⟩

end Tux3
