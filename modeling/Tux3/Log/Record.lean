/-
  Log/Record.lean --- the records of the log and their bytes.

  A log block is a header and a run of variable sized records.  Each record starts
  with a one byte code that implies its length (`logSize`), and its fields are
  big endian and byte aligned.  The encoders of `kernel/log.c` come in seven
  shapes; every `log_*` function is one of them at its own code and fields, and
  `LogRecord.bytes` says which bytes it appends.
-/
import Tux3.Lib.BigEndian

set_option autoImplicit false

namespace Tux3

open BigEndian

/-! ## Codes -/

/-- The record codes, in the order of the enumeration in `kernel/tux3.h`. -/
inductive LogCode where
  | balloc | bfree | bfreeOnUnify | bfreeRelog
  | leafRedirect | leafFree
  | bnodeRedirect | bnodeRoot | bnodeSplit | bnodeAdd | bnodeUpdate
  | bnodeMerge | bnodeDel | bnodeAdjust | bnodeFree
  | orphanAdd | orphanDel
  | freeblocks | unify | delta
  deriving DecidableEq, Repr, Inhabited

/-- The byte that stands for a code: the enumeration starts at `0x33`. -/
def LogCode.toByte : LogCode → UInt8
  | .balloc => 0x33
  | .bfree => 0x34
  | .bfreeOnUnify => 0x35
  | .bfreeRelog => 0x36
  | .leafRedirect => 0x37
  | .leafFree => 0x38
  | .bnodeRedirect => 0x39
  | .bnodeRoot => 0x3a
  | .bnodeSplit => 0x3b
  | .bnodeAdd => 0x3c
  | .bnodeUpdate => 0x3d
  | .bnodeMerge => 0x3e
  | .bnodeDel => 0x3f
  | .bnodeAdjust => 0x40
  | .bnodeFree => 0x41
  | .orphanAdd => 0x42
  | .orphanDel => 0x43
  | .freeblocks => 0x44
  | .unify => 0x45
  | .delta => 0x46

/-- The code a byte stands for; `none` is the `default:` branch of the decoders. -/
def LogCode.ofByte (b : UInt8) : Option LogCode :=
  if b = 0x33 then some .balloc
  else if b = 0x34 then some .bfree
  else if b = 0x35 then some .bfreeOnUnify
  else if b = 0x36 then some .bfreeRelog
  else if b = 0x37 then some .leafRedirect
  else if b = 0x38 then some .leafFree
  else if b = 0x39 then some .bnodeRedirect
  else if b = 0x3a then some .bnodeRoot
  else if b = 0x3b then some .bnodeSplit
  else if b = 0x3c then some .bnodeAdd
  else if b = 0x3d then some .bnodeUpdate
  else if b = 0x3e then some .bnodeMerge
  else if b = 0x3f then some .bnodeDel
  else if b = 0x40 then some .bnodeAdjust
  else if b = 0x41 then some .bnodeFree
  else if b = 0x42 then some .orphanAdd
  else if b = 0x43 then some .orphanDel
  else if b = 0x44 then some .freeblocks
  else if b = 0x45 then some .unify
  else if b = 0x46 then some .delta
  else none

@[simp] theorem LogCode.ofByte_toByte (c : LogCode) : LogCode.ofByte c.toByte = some c := by
  cases c <;> rfl

/-- `LOG_TYPES`: the length of the array `log_size[]`. -/
def logTypes : Nat := 0x47

/-- `log_size[]`: the length of a record, its code included; the array has 0 below the first code. -/
def logSize : LogCode → Nat
  | .balloc => 11
  | .bfree => 11
  | .bfreeOnUnify => 11
  | .bfreeRelog => 11
  | .leafRedirect => 13
  | .leafFree => 7
  | .bnodeRedirect => 13
  | .bnodeRoot => 26
  | .bnodeSplit => 15
  | .bnodeAdd => 19
  | .bnodeUpdate => 19
  | .bnodeMerge => 13
  | .bnodeDel => 15
  | .bnodeAdjust => 19
  | .bnodeFree => 7
  | .orphanAdd => 9
  | .orphanDel => 9
  | .freeblocks => 7
  | .unify => 1
  | .delta => 1

theorem logSize_pos (c : LogCode) : 0 < logSize c := by
  cases c <;> decide

/-- No record is longer than `LOG_BNODE_ROOT`. -/
theorem logSize_le (c : LogCode) : logSize c ≤ 26 := by
  cases c <;> decide

/-! ## Fields -/

/-- `encode16`. -/
def encode16 (val : Nat) : Bytes := beBytes 2 val

/-- `encode32`. -/
def encode32 (val : Nat) : Bytes := beBytes 4 val

/-- `encode48`: the high 16 bits, then the low 32. -/
def encode48 (val : Nat) : Bytes := encode16 (val / 2 ^ 32) ++ encode32 val

/-- `decode16`. -/
def decode16 (data : Bytes) : Option (Nat × Bytes) := readBe 2 data

/-- `decode32`. -/
def decode32 (data : Bytes) : Option (Nat × Bytes) := readBe 4 data

/-- `decode48`. -/
def decode48 (data : Bytes) : Option (Nat × Bytes) := do
  let (part1, data) ← decode16 data
  let (part2, data) ← decode32 data
  return (part1 * 2 ^ 32 + part2, data)

@[simp] theorem encode16_length (val : Nat) : (encode16 val).length = 2 := beBytes_length 2 val

@[simp] theorem encode32_length (val : Nat) : (encode32 val).length = 4 := beBytes_length 4 val

@[simp] theorem encode48_length (val : Nat) : (encode48 val).length = 6 := by
  simp [encode48]

theorem decode16_reads : ReadsExactly 2 decode16 := readsExactly_readBe 2

theorem decode32_reads : ReadsExactly 4 decode32 := readsExactly_readBe 4

theorem decode48_reads : ReadsExactly 6 decode48 :=
  decode16_reads.bind fun part1 => decode32_reads.bind fun part2 =>
    readsExactly_some (part1 * 2 ^ 32 + part2)

theorem decode16_encode16 {val : Nat} (h : val < 2 ^ 16) (rest : Bytes) :
    decode16 (encode16 val ++ rest) = some (val, rest) :=
  readBe_beBytes_of_lt (by omega) rest

theorem decode32_encode32 {val : Nat} (h : val < 2 ^ 32) (rest : Bytes) :
    decode32 (encode32 val ++ rest) = some (val, rest) :=
  readBe_beBytes_of_lt (by omega) rest

theorem decode48_encode48 {val : Nat} (h : val < 2 ^ 48) (rest : Bytes) :
    decode48 (encode48 val ++ rest) = some (val, rest) := by
  have hhigh : decode16 (encode16 (val / 2 ^ 32) ++ (encode32 val ++ rest)) =
      some (val / 2 ^ 32, encode32 val ++ rest) :=
    decode16_encode16 (by omega) _
  have hlow : decode32 (encode32 val ++ rest) = some (val % 2 ^ 32, rest) := by
    rw [decode32, encode32, readBe_beBytes]
    rfl
  rw [decode48, encode48, List.append_assoc, hhigh]
  simp only [Option.bind_eq_bind, Option.bind_some, hlow, Option.pure_def]
  have hval : val / 2 ^ 32 * 2 ^ 32 + val % 2 ^ 32 = val := Nat.div_add_mod' val (2 ^ 32)
  rw [hval]

/-! ## Records -/

/-- A log record with its arguments, one constructor for each `log_*` function of
`kernel/log.c`, with the arguments in the order the function takes them. -/
inductive LogRecord where
  | balloc (block count : Nat)
  | bfree (block count : Nat)
  | bfreeOnUnify (block count : Nat)
  | bfreeRelog (block count : Nat)
  | leafRedirect (oldblock newblock : Nat)
  | leafFree (leaf : Nat)
  | bnodeRedirect (oldblock newblock : Nat)
  | bnodeRoot (root count left right rkey : Nat)
  | bnodeSplit (src pos dst : Nat)
  | bnodeAdd (parent child key : Nat)
  | bnodeUpdate (parent child key : Nat)
  | bnodeMerge (src dst : Nat)
  | bnodeDel (bnode key count : Nat)
  | bnodeAdjust (bnode fromKey toKey : Nat)
  | bnodeFree (bnode : Nat)
  | orphanAdd (version inum : Nat)
  | orphanDel (version inum : Nat)
  | freeblocks (count : Nat)
  | unify
  | delta
  deriving DecidableEq, Repr, Inhabited

/-- The code of a record. -/
def LogRecord.code : LogRecord → LogCode
  | .balloc .. => .balloc
  | .bfree .. => .bfree
  | .bfreeOnUnify .. => .bfreeOnUnify
  | .bfreeRelog .. => .bfreeRelog
  | .leafRedirect .. => .leafRedirect
  | .leafFree .. => .leafFree
  | .bnodeRedirect .. => .bnodeRedirect
  | .bnodeRoot .. => .bnodeRoot
  | .bnodeSplit .. => .bnodeSplit
  | .bnodeAdd .. => .bnodeAdd
  | .bnodeUpdate .. => .bnodeUpdate
  | .bnodeMerge .. => .bnodeMerge
  | .bnodeDel .. => .bnodeDel
  | .bnodeAdjust .. => .bnodeAdjust
  | .bnodeFree .. => .bnodeFree
  | .orphanAdd .. => .orphanAdd
  | .orphanDel .. => .orphanDel
  | .freeblocks .. => .freeblocks
  | .unify => .unify
  | .delta => .delta

/-- The arguments fit their fields: 48 bits for blocks, keys and inode numbers,
32 bits for extent counts, 16 bits for positions, index counts and versions; a new
root has one or two entries (`log_bnode_root` asserts it). -/
def LogRecord.InRange : LogRecord → Prop
  | .balloc block count => block < 2 ^ 48 ∧ count < 2 ^ 32
  | .bfree block count => block < 2 ^ 48 ∧ count < 2 ^ 32
  | .bfreeOnUnify block count => block < 2 ^ 48 ∧ count < 2 ^ 32
  | .bfreeRelog block count => block < 2 ^ 48 ∧ count < 2 ^ 32
  | .leafRedirect oldblock newblock => oldblock < 2 ^ 48 ∧ newblock < 2 ^ 48
  | .leafFree leaf => leaf < 2 ^ 48
  | .bnodeRedirect oldblock newblock => oldblock < 2 ^ 48 ∧ newblock < 2 ^ 48
  | .bnodeRoot root count left right rkey =>
      (count = 1 ∨ count = 2) ∧
        root < 2 ^ 48 ∧ left < 2 ^ 48 ∧ right < 2 ^ 48 ∧ rkey < 2 ^ 48
  | .bnodeSplit src pos dst => src < 2 ^ 48 ∧ pos < 2 ^ 16 ∧ dst < 2 ^ 48
  | .bnodeAdd parent child key => parent < 2 ^ 48 ∧ child < 2 ^ 48 ∧ key < 2 ^ 48
  | .bnodeUpdate parent child key => parent < 2 ^ 48 ∧ child < 2 ^ 48 ∧ key < 2 ^ 48
  | .bnodeMerge src dst => src < 2 ^ 48 ∧ dst < 2 ^ 48
  | .bnodeDel bnode key count => bnode < 2 ^ 48 ∧ key < 2 ^ 48 ∧ count < 2 ^ 16
  | .bnodeAdjust bnode fromKey toKey =>
      bnode < 2 ^ 48 ∧ fromKey < 2 ^ 48 ∧ toKey < 2 ^ 48
  | .bnodeFree bnode => bnode < 2 ^ 48
  | .orphanAdd version inum => version < 2 ^ 16 ∧ inum < 2 ^ 48
  | .orphanDel version inum => version < 2 ^ 16 ∧ inum < 2 ^ 48
  | .freeblocks count => count < 2 ^ 48
  | .unify => True
  | .delta => True

instance (r : LogRecord) : Decidable r.InRange := by
  cases r <;> unfold LogRecord.InRange <;> infer_instance

/-- The fields of a record, in the order its encoder writes them. -/
def LogRecord.fields : LogRecord → Bytes
  | .balloc block count => encode32 count ++ encode48 block
  | .bfree block count => encode32 count ++ encode48 block
  | .bfreeOnUnify block count => encode32 count ++ encode48 block
  | .bfreeRelog block count => encode32 count ++ encode48 block
  | .leafRedirect oldblock newblock => encode48 oldblock ++ encode48 newblock
  | .leafFree leaf => encode48 leaf
  | .bnodeRedirect oldblock newblock => encode48 oldblock ++ encode48 newblock
  | .bnodeRoot root count left right rkey =>
      UInt8.ofNat count ::
        (encode48 root ++ (encode48 left ++ (encode48 right ++ encode48 rkey)))
  | .bnodeSplit src pos dst => encode16 pos ++ (encode48 src ++ encode48 dst)
  | .bnodeAdd parent child key => encode48 parent ++ (encode48 child ++ encode48 key)
  | .bnodeUpdate parent child key => encode48 parent ++ (encode48 child ++ encode48 key)
  | .bnodeMerge src dst => encode48 src ++ encode48 dst
  | .bnodeDel bnode key count => encode16 count ++ (encode48 bnode ++ encode48 key)
  | .bnodeAdjust bnode fromKey toKey =>
      encode48 bnode ++ (encode48 fromKey ++ encode48 toKey)
  | .bnodeFree bnode => encode48 bnode
  | .orphanAdd version inum => encode16 version ++ encode48 inum
  | .orphanDel version inum => encode16 version ++ encode48 inum
  | .freeblocks count => encode48 count
  | .unify => []
  | .delta => []

/-- The bytes a record is logged as: its code, then its fields. -/
def LogRecord.bytes (r : LogRecord) : Bytes := r.code.toByte :: r.fields

/-- The fields of a record take the rest of the room its code stands for. -/
theorem fields_length (r : LogRecord) : r.fields.length = logSize r.code - 1 := by
  cases r <;> simp [LogRecord.fields, LogRecord.code, logSize]

/-- Every record takes exactly the room its code stands for in `log_size[]`. -/
theorem bytes_length (r : LogRecord) : r.bytes.length = logSize r.code := by
  have hpos := logSize_pos r.code
  rw [LogRecord.bytes, List.length_cons, fields_length]
  omega

/-- The bytes of a run of records. -/
def recordsBytes (rs : List LogRecord) : Bytes := rs.flatMap LogRecord.bytes

@[simp] theorem recordsBytes_nil : recordsBytes [] = [] := rfl

@[simp] theorem recordsBytes_cons (r : LogRecord) (rs : List LogRecord) :
    recordsBytes (r :: rs) = r.bytes ++ recordsBytes rs := rfl

@[simp] theorem recordsBytes_append (rs rs' : List LogRecord) :
    recordsBytes (rs ++ rs') = recordsBytes rs ++ recordsBytes rs' :=
  List.flatMap_append

end Tux3
