/-
  Shard/Dirent.lean --- the records of a directory block.

  A block is a row of packed records.  A record is deleted by a zero at the start of its name, and
  that is also what `find_dirent` takes for the end of the records: it does not see those behind.
-/
import Tux3.Lib.BigEndian
import Tux3.Lib.Outcome
import Tux3.Volume

set_option autoImplicit false

namespace Tux3

open BigEndian (beBytes ofBe)

/-! ## Bytes -/

/-- The bytes of a block. -/
abbrev DirBuffer := Nat → UInt8

/-- `blocksize`. -/
def dirBlocksize : Nat := 2 ^ 12

/-- `sizeof(struct dirent)`: an inode number of four bytes, and the length of the name. -/
def direntSize : Nat := 5

/-- `sizeof(struct dirhead)`. -/
def dirheadSize : Nat := 24

/-- `len` bytes from `p` on. -/
def textAt (buffer : DirBuffer) (p len : Nat) : List UInt8 :=
  (List.range len).map fun i => buffer (p + i)

/-- A copy of `bytes` to `p`. -/
def writeText (buffer : DirBuffer) (p : Nat) (bytes : List UInt8) : DirBuffer :=
  fun i => if p ≤ i then bytes[i - p]?.getD (buffer i) else buffer i

/-- `struct dirent` with its text; the inode number is in the order of the host. -/
def direntBytes (ino : Nat) (name : List UInt8) : List UInt8 :=
  (beBytes 4 ino).reverse ++ UInt8.ofNat name.length :: name

/-- `entry->ino`. -/
def direntIno (buffer : DirBuffer) (p : Nat) : Nat := ofBe (textAt buffer p 4).reverse

/-- `entry->len`. -/
def direntLen (buffer : DirBuffer) (p : Nat) : Nat := (buffer (p + 4)).toNat

/-- The loop of `find_dirent`. -/
def findDirentLoop (buffer : DirBuffer) (name : List UInt8) :
    Nat → Nat → Except TuxError (Option Nat)
  | 0, _ => .error .fuel
  | fuel + 1, p =>
      if p + direntSize + 1 < dirBlocksize then do
        let len := direntLen buffer p
        tuxAssert (p + direntSize + len ≤ dirBlocksize)
        -- a hole at the end of the block
        if buffer (p + direntSize) = 0 then return none
        else if name.length = len ∧ textAt buffer (p + direntSize) len = name then return some p
        else findDirentLoop buffer name fuel (p + direntSize + len)
      else return none

section

variable {buffer buffer' : DirBuffer} {p len : Nat} {bytes : List UInt8}

@[simp] theorem textAt_length : (textAt buffer p len).length = len := by
  unfold textAt
  rw [List.length_map, List.length_range]

theorem textAt_add (a b : Nat) :
    textAt buffer p (a + b) = textAt buffer p a ++ textAt buffer (p + a) b := by
  unfold textAt
  rw [List.range_add, List.map_append, List.map_map]
  refine congrArg _ (List.map_congr_left fun i _ => ?_)
  rw [Function.comp_apply, Nat.add_assoc]

theorem textAt_congr (h : ∀ i, p ≤ i → i < p + len → buffer' i = buffer i) :
    textAt buffer' p len = textAt buffer p len := by
  unfold textAt
  refine List.map_congr_left fun i hi => h _ (Nat.le_add_right _ _) ?_
  exact Nat.add_lt_add_left (List.mem_range.mp hi) p

theorem writeText_of_lt {i : Nat} (h : i < p) : writeText buffer p bytes i = buffer i :=
  if_neg (Nat.not_le_of_lt h)

theorem writeText_of_ge {i : Nat} (h : p + bytes.length ≤ i) :
    writeText buffer p bytes i = buffer i := by
  have hle : p ≤ i := by omega
  have hout : bytes.length ≤ i - p := by omega
  unfold writeText
  rw [if_pos hle, List.getElem?_eq_none hout]
  rfl

/-- What was written is read back. -/
theorem textAt_writeText : textAt (writeText buffer p bytes) p bytes.length = bytes := by
  unfold textAt writeText
  refine List.ext_getElem (by rw [List.length_map, List.length_range]) fun i hi hi' => ?_
  rw [List.getElem_map, List.getElem_range, if_pos (Nat.le_add_right p i), Nat.add_sub_cancel_left,
    List.getElem?_eq_getElem hi']
  rfl

theorem direntBytes_length (ino : Nat) (name : List UInt8) :
    (direntBytes ino name).length = direntSize + name.length := by
  unfold direntBytes direntSize
  rw [List.length_append, List.length_reverse, BigEndian.beBytes_length, List.length_cons]
  omega

end

/-! ## Records -/

/-- A record that is not deleted, and its block. -/
structure ShardDirent where
  name : List UInt8
  ino : Nat
  block : Nat
  deriving DecidableEq, Repr

namespace ShardDirent

/-- The bytes of a record. -/
def bytes (entry : ShardDirent) : List UInt8 := direntBytes entry.ino entry.name

/-- The length of a record. -/
def size (entry : ShardDirent) : Nat := direntSize + entry.name.length

end ShardDirent

/-- A name has 1 to 255 bytes, and does not begin with the byte of a deleted one. -/
structure DirNameOk (name : List UInt8) : Prop where
  pos : 0 < name.length
  le : name.length ≤ 255
  head : name.head? ≠ some 0

/-- A record stands at `p`, where `find_dirent` still looks for one. -/
structure RecordAt (buffer : DirBuffer) (p : Nat) (entry : ShardDirent) : Prop where
  name : DirNameOk entry.name
  ino_lt : entry.ino < 2 ^ 32
  bytes : textAt buffer p entry.size = entry.bytes
  seen : p + direntSize + 1 < dirBlocksize
  inside : p + entry.size ≤ dirBlocksize

/-- Where the records that begin at `p` end. -/
def direntsEnd : Nat → List ShardDirent → Nat
  | p, [] => p
  | p, entry :: rest => direntsEnd (p + entry.size) rest

/-- The records stand one after the other from `p` on. -/
def Laid (buffer : DirBuffer) : Nat → List ShardDirent → Prop
  | _, [] => True
  | p, entry :: rest => RecordAt buffer p entry ∧ Laid buffer (p + entry.size) rest

/-- The place of the record of a name. -/
def direntOffset (name : List UInt8) : Nat → List ShardDirent → Option Nat
  | _, [] => none
  | p, entry :: rest =>
      if entry.name = name then some p else direntOffset name (p + entry.size) rest

/-- `find_dirent` ends here: at the end of the block, or at a zero. -/
def Stops (buffer : DirBuffer) (p : Nat) : Prop :=
  p + direntSize + 1 < dirBlocksize →
    p + direntSize + direntLen buffer p ≤ dirBlocksize ∧ buffer (p + direntSize) = 0

section

variable {buffer buffer' : DirBuffer} {p : Nat} {entry : ShardDirent}
  {rest rest' : List ShardDirent} {name : List UInt8}

/-- The fields of a record. -/
theorem RecordAt.fields (h : RecordAt buffer p entry) :
    direntIno buffer p = entry.ino ∧ direntLen buffer p = entry.name.length ∧
      textAt buffer (p + direntSize) entry.name.length = entry.name := by
  have hbytes := h.bytes
  have hsplit : entry.size = 4 + (1 + entry.name.length) := by
    unfold ShardDirent.size direntSize
    omega
  unfold ShardDirent.bytes direntBytes at hbytes
  rw [hsplit, textAt_add, textAt_add] at hbytes
  have hlength : (textAt buffer p 4).length = (beBytes 4 entry.ino).reverse.length := by
    rw [textAt_length, List.length_reverse, BigEndian.beBytes_length]
  obtain ⟨hino, htext⟩ := List.append_inj hbytes hlength
  obtain ⟨hlen, htext⟩ := List.cons.inj htext
  refine ⟨?_, ?_, htext⟩
  · unfold direntIno
    rw [hino, List.reverse_reverse, BigEndian.ofBe_beBytes]
    exact Nat.mod_eq_of_lt h.ino_lt
  · have hle := h.name.le
    unfold direntLen
    rw [show buffer (p + 4) = UInt8.ofNat entry.name.length from hlen, UInt8.toNat_ofNat']
    exact Nat.mod_eq_of_lt (by omega)

/-- The name of a record does not begin with a zero. -/
theorem RecordAt.text_ne (h : RecordAt buffer p entry) : buffer (p + direntSize) ≠ 0 := by
  intro hzero
  obtain ⟨n, hn⟩ := Nat.exists_eq_succ_of_ne_zero (Nat.ne_of_gt h.name.pos)
  obtain ⟨_, _, htext⟩ := h.fields
  refine h.name.head ?_
  rw [← htext, hn, ← hzero]
  unfold textAt
  rw [List.head?_map, List.head?_range, if_neg (Nat.succ_ne_zero n)]
  rfl

theorem RecordAt.congr (h : RecordAt buffer p entry)
    (hsame : ∀ i, i < p + entry.size → buffer' i = buffer i) : RecordAt buffer' p entry :=
  ⟨h.name, h.ino_lt, (textAt_congr fun i _ hi => hsame i hi).trans h.bytes, h.seen, h.inside⟩

theorem le_direntsEnd (p : Nat) (rest : List ShardDirent) : p ≤ direntsEnd p rest := by
  induction rest generalizing p with
  | nil => exact Nat.le_refl p
  | cons entry rest ih => exact Nat.le_trans (Nat.le_add_right _ _) (ih _)

theorem direntsEnd_append (p : Nat) (rest rest' : List ShardDirent) :
    direntsEnd p (rest ++ rest') = direntsEnd (direntsEnd p rest) rest' := by
  induction rest generalizing p with
  | nil => rfl
  | cons entry rest ih => exact ih _

theorem laid_append :
    Laid buffer p (rest ++ rest') ↔
      Laid buffer p rest ∧ Laid buffer (direntsEnd p rest) rest' := by
  induction rest generalizing p with
  | nil => exact ⟨fun h => ⟨trivial, h⟩, fun h => h.2⟩
  | cons entry rest ih =>
      rw [List.cons_append, Laid, Laid, direntsEnd, ih, and_assoc]

theorem Laid.congr (h : Laid buffer p rest)
    (hsame : ∀ i, i < direntsEnd p rest → buffer' i = buffer i) : Laid buffer' p rest := by
  induction rest generalizing p with
  | nil => trivial
  | cons entry rest ih =>
      refine ⟨h.1.congr fun i hi => hsame i ?_, ih h.2 hsame⟩
      exact Nat.lt_of_lt_of_le hi (le_direntsEnd _ _)

theorem Laid.end_le (h : Laid buffer p rest) (hp : p ≤ dirBlocksize) :
    direntsEnd p rest ≤ dirBlocksize := by
  induction rest generalizing p with
  | nil => exact hp
  | cons entry rest ih => exact ih h.2 h.1.inside

/-- There are fewer records than bytes. -/
theorem Laid.length_le (h : Laid buffer p rest) : p + rest.length ≤ direntsEnd p rest := by
  induction rest generalizing p with
  | nil => exact Nat.le_refl _
  | cons entry rest ih =>
      have hle := ih h.2
      unfold ShardDirent.size direntSize at hle
      rw [List.length_cons]
      unfold direntsEnd ShardDirent.size direntSize
      omega

theorem Stops.congr (h : Stops buffer p)
    (hsame : ∀ i, p ≤ i → i < dirBlocksize → buffer' i = buffer i) : Stops buffer' p := by
  intro hp
  have hlen : direntLen buffer' p = direntLen buffer p := by
    unfold direntLen
    rw [hsame (p + 4) (by omega) (by unfold direntSize at hp; omega)]
  rw [hlen, hsame (p + direntSize) (by omega) (by omega)]
  exact h hp

/-- The search stops where the bytes are zero. -/
theorem stops_of_zero (h : ∀ i, p ≤ i → buffer i = 0) : Stops buffer p := by
  intro hp
  have hlen : direntLen buffer p = 0 := by
    unfold direntLen
    rw [h (p + 4) (by omega)]
    rfl
  rw [hlen]
  exact ⟨by omega, h (p + direntSize) (by omega)⟩

/-- A turn of the search that goes on. -/
theorem findDirentLoop_skip {fuel : Nat} (h : RecordAt buffer p entry) (hne : entry.name ≠ name) :
    findDirentLoop buffer name (fuel + 1) p =
      findDirentLoop buffer name fuel (p + entry.size) := by
  obtain ⟨_, hlen, htext⟩ := h.fields
  have hinside : p + direntSize + direntLen buffer p ≤ dirBlocksize := by
    rw [hlen, Nat.add_assoc]
    exact h.inside
  have hother : ¬(name.length = direntLen buffer p ∧
      textAt buffer (p + direntSize) (direntLen buffer p) = name) := by
    rw [hlen, htext]
    exact fun heq => hne heq.2
  rw [findDirentLoop, if_pos h.seen, Outcome.bind_of_ok (tuxAssert_of hinside), if_neg h.text_ne,
    if_neg hother, hlen, Nat.add_assoc]
  rfl

/-- The search finds the first record of a name among those before its end. -/
theorem findDirentLoop_spec {fuel : Nat} (hlaid : Laid buffer p rest)
    (hstops : Stops buffer (direntsEnd p rest)) (hfuel : rest.length < fuel) :
    findDirentLoop buffer name fuel p = .ok (direntOffset name p rest) := by
  induction rest generalizing p fuel with
  | nil =>
      obtain ⟨fuel, rfl⟩ := Nat.exists_eq_add_of_lt hfuel
      by_cases hp : p + direntSize + 1 < dirBlocksize
      · obtain ⟨hinside, hzero⟩ := hstops hp
        rw [findDirentLoop, if_pos hp]
        dsimp only [direntsEnd] at hinside hzero
        rw [Outcome.bind_of_ok (tuxAssert_of hinside), if_pos hzero]
        rfl
      · rw [findDirentLoop, if_neg hp]
        rfl
  | cons entry rest ih =>
      obtain ⟨fuel, rfl⟩ := Nat.exists_eq_add_of_lt hfuel
      obtain ⟨hrecord, hrest⟩ := hlaid
      by_cases hname : entry.name = name
      · obtain ⟨_, hlen, htext⟩ := hrecord.fields
        have hinside : p + direntSize + direntLen buffer p ≤ dirBlocksize := by
          rw [hlen, Nat.add_assoc]
          exact hrecord.inside
        have hmatch : name.length = direntLen buffer p ∧
            textAt buffer (p + direntSize) (direntLen buffer p) = name := by
          rw [hlen, htext, hname]
          exact ⟨rfl, rfl⟩
        rw [findDirentLoop, if_pos hrecord.seen, Outcome.bind_of_ok (tuxAssert_of hinside),
          if_neg hrecord.text_ne, if_pos hmatch, direntOffset, if_pos hname]
        rfl
      · rw [findDirentLoop_skip hrecord hname, direntOffset, if_neg hname]
        have hlt : rest.length < (entry :: rest).length + fuel := by
          rw [List.length_cons]
          omega
        exact ih hrest hstops hlt

theorem direntOffset_eq_none (h : ∀ entry ∈ rest, entry.name ≠ name) :
    direntOffset name p rest = none := by
  induction rest generalizing p with
  | nil => rfl
  | cons entry rest ih =>
      rw [direntOffset, if_neg (h entry List.mem_cons_self)]
      exact ih fun e he => h e (List.mem_cons_of_mem _ he)

/-- The place of a record behind records with other names. -/
theorem direntOffset_append (h : ∀ entry ∈ rest, entry.name ≠ name) (hname : entry.name = name) :
    direntOffset name p (rest ++ entry :: rest') = some (direntsEnd p rest) := by
  induction rest generalizing p with
  | nil => exact if_pos hname
  | cons first rest ih =>
      rw [List.cons_append, direntOffset, if_neg (h first List.mem_cons_self)]
      exact ih fun e he => h e (List.mem_cons_of_mem _ he)

end

end Tux3
