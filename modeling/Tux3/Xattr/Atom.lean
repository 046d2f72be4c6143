/-
  Xattr/Atom.lean --- the atoms of extended attribute names.

  A name is a directory entry of the atom table, and its number is its atom.  The reverse
  map has the position of the entry for each atom in use, and links the free atoms.
  Reference counts are kept in two tables, of their low and of their high 16 bits.
-/
import Tux3.Dir.Run

set_option autoImplicit false

namespace Tux3.Xattr

open Dir

/-! ## State -/

/-- The part of `struct sb` about atoms, with the data of the atom table.  `sb->atomdictsize` is
the size of `dict`; `unatom`, `low` and `high` are what stands in the reverse map and in the
tables of reference counts for an atom. -/
structure AtomSb where
  dict : TuxDir
  atomgen : Nat
  freeatom : Nat
  unatom : Nat → Int
  low : Nat → Nat
  high : Nat → Nat

/-- What the buffer of a table does: whether `blockread` fails, and the error of `blockdirty`,
which is never `-EAGAIN` there. -/
structure BlockIo where
  readFails : Bool
  dirtyErr : Nat
  dirtyErr_ne : (dirtyErr : Int) ≠ eagain

/-- The first block of the tables of reference counts, where `1U << (ATOM_DICT_BITS -
blockbits)` is defined. -/
def atomrefBase (blockbits : Nat) : Nat := 2 ^ (40 - blockbits)

/-- The first block of the reverse map. -/
def unatomBase (blockbits : Nat) : Nat := atomrefBase blockbits + 2 ^ (34 - blockbits)

/-- The block with the low 16 bits of a reference count; that with the high ones is the next. -/
def atomrefBlock (blockbits atom : Nat) : Nat :=
  atomrefBase blockbits + 2 * (atom / 2 ^ (blockbits - 1))

/-- The block of the reverse map for an atom. -/
def unatomBlock (blockbits atom : Nat) : Nat :=
  unatomBase blockbits + atom / 2 ^ (blockbits - 3)

/-- The tables of reference counts end where the reverse map begins, for every atom. -/
theorem atomrefBlock_lt_unatomBase {blockbits atom : Nat} (hpos : 0 < blockbits)
    (hbits : blockbits ≤ 16) (hatom : atom < 2 ^ 32) :
    atomrefBlock blockbits atom + 1 < unatomBase blockbits := by
  have hdiv : atom / 2 ^ (blockbits - 1) < 2 ^ (33 - blockbits) := by
    rw [Nat.div_lt_iff_lt_mul (Nat.two_pow_pos _), ← Nat.pow_add]
    have hexp : 33 - blockbits + (blockbits - 1) = 32 := by omega
    rw [hexp]
    exact hatom
  have hdouble : 2 ^ (34 - blockbits) = 2 * 2 ^ (33 - blockbits) := by
    have hexp : 34 - blockbits = 33 - blockbits + 1 := by omega
    rw [hexp, Nat.pow_succ, Nat.mul_comm]
  unfold unatomBase atomrefBlock
  omega

/-! ## The reverse map -/

/-- `unatom_dict_read`. -/
def unatomDictRead (sb : AtomSb) (readFails : Bool) (atom : Nat) : Int :=
  if readFails then -eio else sb.unatom atom

/-- `unatom_dict_write`: what stood there, or an error. -/
def unatomDictWrite (sb : AtomSb) (io : BlockIo) (atom : Nat) (pos : Int) :
    Except TuxError (AtomSb × Int) := do
  if io.readFails then return (sb, -eio)
  tuxAssert ((io.dirtyErr : Int) ≠ eagain)
  if io.dirtyErr ≠ 0 then return (sb, -io.dirtyErr)
  return ({ sb with unatom := Function.update sb.unatom atom pos }, sb.unatom atom)

/-- `UNATOM_FREE_MAGIC`. -/
def unatomFreeMagic : Int := 0x6eadfcee * 2 ^ 32

/-- `is_free_unatom`. -/
def isFreeUnatom (pos : Int) : Bool := pos / 2 ^ 32 * 2 ^ 32 == unatomFreeMagic

/-- `unatom`: the length of the name and what is copied of it, or an error. -/
def unatom (sb : AtomSb) (mapFails entryFails : Bool) (atom size : Nat) :
    Int × List UInt8 :=
  let pos := unatomDictRead sb mapFails atom
  if pos < 0 then (pos, [])
  else if entryFails then (-eio, [])
  else
    let entry := sb.dict.data (pos.toNat / sb.dict.blocksize) (pos.toNat % sb.dict.blocksize)
    if entry.inum % 2 ^ 32 ≠ atom then (-eio, [])
    else if size ≠ 0 then
      if entry.nameLen > size then (-erange, []) else (entry.nameLen, entry.name)
    else (entry.nameLen, [])

/-! ## Making atoms -/

/-- `find_atom`: an error, or 0 and the atom. -/
def findAtom (sb : AtomSb) (io : DirIo) (name : List UInt8) : Except TuxError (Int × Nat) := do
  match ← tuxFindEntry sb.dict io name with
  | .failed err => return (if err = -enoent then -enodata else err, 0)
  | .entry block offset => return (0, (sb.dict.data block offset).inum % 2 ^ 32)

/-- `get_freeatom`: an error, or 0 and the atom. -/
def getFreeatom (sb : AtomSb) (readFails : Bool) : AtomSb × Int × Nat :=
  if sb.freeatom = 0 then
    ({ sb with atomgen := (sb.atomgen + 1) % 2 ^ 32 }, 0, sb.atomgen)
  else
    let next := unatomDictRead sb readFails sb.freeatom
    if next < 0 then (sb, next, 0)
    else if isFreeUnatom next then
      ({ sb with freeatom := (next % 2 ^ 32).toNat }, 0, sb.freeatom)
    else (sb, -eio, 0)

/-- What the buffers do while `make_atom` runs. -/
structure AtomIo where
  find : DirIo
  freeFails : Bool
  create : DirIo
  unatom : BlockIo

/-- A new atom gets its directory entry and goes into the reverse map. -/
def enterAtom (sb : AtomSb) (io : AtomIo) (name : List UInt8) (atom : Nat) :
    Except TuxError (AtomSb × Int × Nat) := do
  let (dict, pos) ← tuxCreateEntry sb.dict io.create name atom 0
  if pos < 0 then return ({ sb with dict := dict }, pos, 0)
  let (sb', old) ← unatomDictWrite { sb with dict := dict } io.unatom atom pos
  return if old < 0 then (sb', old, 0) else (sb', 0, atom)

/-- `make_atom`: an error, or 0 and the atom. -/
def makeAtom (sb : AtomSb) (io : AtomIo) (name : List UInt8) :
    Except TuxError (AtomSb × Int × Nat) := do
  let (err, atom) ← findAtom sb io.find name
  if err = 0 then return (sb, 0, atom)
  if err ≠ -enodata then return (sb, err, 0)
  let (sb', err, atom) := getFreeatom sb io.freeFails
  if err ≠ 0 then return (sb', err, 0)
  enterAtom sb' io name atom

/-! ## Reference counts -/

/-- What the buffers do while `atomref` runs. -/
structure RefIo where
  low : BlockIo
  high : BlockIo
  unatom : BlockIo
  entryFails : Bool
  delete : DirIo

/-- The error of `update_refcount`. -/
def updateRefcount (io : BlockIo) : Except TuxError Int := do
  tuxAssert ((io.dirtyErr : Int) ≠ eagain)
  return -io.dirtyErr

/-- `atomref` frees an atom: it goes to the head of the free list, and its directory entry is
deleted. -/
def killAtom (sb : AtomSb) (io : RefIo) (atom : Nat) : Except TuxError (AtomSb × Int) := do
  let (sb', pos) ← unatomDictWrite sb io.unatom atom (unatomFreeMagic + sb.freeatom)
  if pos < 0 then return (sb', -eio)
  let sb' := { sb' with freeatom := atom }
  if io.entryFails then return (sb', -eio)
  let block := pos.toNat / sb'.dict.blocksize
  let offset := pos.toNat % sb'.dict.blocksize
  if (sb'.dict.data block offset).inum % 2 ^ 32 = atom then
    let (dict, err) ← tuxDeleteEntry sb'.dict io.delete block offset
    return ({ sb' with dict := dict }, err)
  else return (sb', -eio)

/-- `atomref` carries into the high 16 bits, and frees an atom without references. -/
def atomrefCarry (sb : AtomSb) (io : RefIo) (atom : Nat) (low : Int) :
    Except TuxError (AtomSb × Int) := do
  if io.high.readFails then return (sb, -eio)
  if low = 0 then
    if sb.high atom = 0 then killAtom sb io atom else return (sb, 0)
  else
    let high := sb.high atom + low / 2 ^ 16
    tuxAssert (0 ≤ high)
    let err ← updateRefcount io.high
    if err ≠ 0 then return (sb, err)
    return ({ sb with high := Function.update sb.high atom (high % 2 ^ 16).toNat }, 0)

/-- `atomref`. -/
def atomref (sb : AtomSb) (io : RefIo) (atom : Nat) (use : Int) :
    Except TuxError (AtomSb × Int) := do
  if io.low.readFails then return (sb, -eio)
  let low := sb.low atom + use
  let err ← updateRefcount io.low
  if err ≠ 0 then return (sb, err)
  let sb' := { sb with low := Function.update sb.low atom (low % 2 ^ 16).toNat }
  if low = 0 ∨ low / 2 ^ 16 ≠ 0 then atomrefCarry sb' io atom low else return (sb', 0)

end Tux3.Xattr
