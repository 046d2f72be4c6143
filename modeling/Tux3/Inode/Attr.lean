/-
  Inode/Attr.lean --- the attributes of an inode on disk.

  An inode is stored as a sequence of attributes, each with a head that has its kind and
  version.  The size, the encoding and the decoding are separate loops, with limits of their
  own; that they agree is a round trip over the attributes as a list of items.
-/
import Mathlib.Tactic.Linarith
import Tux3.Btree.Cursor
import Tux3.Xattr.Cache

set_option autoImplicit false

namespace Tux3

open BigEndian

/-! ## Kinds -/

/-- `RDEV_ATTR`. -/
def rdevAttr : Nat := 0

/-- `MODE_OWNER_ATTR`. -/
def modeOwnerAttr : Nat := 1

/-- `DATA_BTREE_ATTR`. -/
def dataBtreeAttr : Nat := 2

/-- `CTIME_SIZE_ATTR`. -/
def ctimeSizeAttr : Nat := 3

/-- `LINK_COUNT_ATTR`. -/
def linkCountAttr : Nat := 4

/-- `MTIME_ATTR`. -/
def mtimeAttr : Nat := 5

/-- `VAR_ATTRS`: the kinds of fixed size are those below. -/
def varAttrs : Nat := 11

/-- `IDATA_ATTR`. -/
def idataAttr : Nat := 11

/-- `XATTR_ATTR`. -/
def xattrAttr : Nat := 12

/-- `atsize`. -/
def atsize (kind : Nat) : Nat :=
  match kind with
  | 0 => 8
  | 1 => 12
  | 2 => 8
  | 3 => 16
  | 4 => 4
  | 5 => 8
  | 11 => 2
  | 12 => 4
  | _ => 0

/-! ## Values -/

/-- `struct timespec`. -/
structure Timespec where
  tvSec : Nat
  tvNsec : Nat
  deriving DecidableEq, Repr, Inhabited

/-- `billionths`. -/
def billionths (val : Nat) : Nat := (val % 2 ^ 32 * 1000000000 + 0x80000000) / 2 ^ 32

/-- `spectime`. -/
def spectime (time : Nat) : Timespec := ⟨time / 2 ^ 32, billionths time⟩

/-- The nanoseconds of `tuxtime`, in fixed point; the factor is `(1ULL << 63) / 1000000000ULL`. -/
def tuxtimeFrac (nsec : Nat) : Nat := (nsec * 9223372036 + 3 * 2 ^ 29) / 2 ^ 31

/-- `tuxtime`. -/
def tuxtime (ts : Timespec) : Nat := (ts.tvSec * 2 ^ 32 + tuxtimeFrac ts.tvNsec) % 2 ^ 64

theorem tuxtimeFrac_lt {nsec : Nat} (h : nsec < 1000000000) : tuxtimeFrac nsec < 2 ^ 32 := by
  unfold tuxtimeFrac
  rw [Nat.div_lt_iff_lt_mul (Nat.two_pow_pos 31)]
  omega

/-- The fraction is close enough to round to the same nanosecond. -/
theorem tuxtimeFrac_round {nsec : Nat} (h : nsec < 1000000000) :
    (tuxtimeFrac nsec * 1000000000 + 0x80000000) / 2 ^ 32 = nsec := by
  have hle := Nat.div_mul_le_self (nsec * 9223372036 + 3 * 2 ^ 29) (2 ^ 31)
  have hlt := Nat.lt_mul_div_succ (nsec * 9223372036 + 3 * 2 ^ 29) (Nat.two_pow_pos 31)
  unfold tuxtimeFrac
  refine Nat.div_eq_of_lt_le ?_ ?_
  · linarith
  · linarith

/-- The fixed point form of a time loses nothing. -/
theorem spectime_tuxtime {ts : Timespec} (hsec : ts.tvSec < 2 ^ 32)
    (hnsec : ts.tvNsec < 1000000000) : spectime (tuxtime ts) = ts := by
  obtain ⟨sec, nsec⟩ := ts
  dsimp only at hsec hnsec
  have hfrac := tuxtimeFrac_lt hnsec
  have hround := tuxtimeFrac_round hnsec
  unfold spectime billionths tuxtime
  dsimp only
  generalize tuxtimeFrac nsec = frac at hfrac hround ⊢
  have hval : (sec * 2 ^ 32 + frac) % 2 ^ 64 = sec * 2 ^ 32 + frac := by
    have hsucc := Nat.succ_le_of_lt hsec
    exact Nat.mod_eq_of_lt (by linarith)
  have hmod : (sec * 2 ^ 32 + frac) % 2 ^ 32 = frac := by
    rw [Nat.mul_add_mod', Nat.mod_eq_of_lt hfrac]
  have hdiv : (sec * 2 ^ 32 + frac) / 2 ^ 32 = sec := by
    rw [Nat.mul_comm, Nat.mul_add_div (Nat.two_pow_pos 32), Nat.div_eq_of_lt hfrac, Nat.add_zero]
  rw [hval, hmod, hdiv, hround]

/-- `huge_encode_dev`. -/
def hugeEncodeDev (dev : Nat) : Nat :=
  let major := dev / 2 ^ 20
  let minor := dev % 2 ^ 20
  minor % 2 ^ 8 + major * 2 ^ 8 + minor / 2 ^ 8 * 2 ^ 20

/-- `huge_decode_dev`. -/
def hugeDecodeDev (dev : Nat) : Nat :=
  let major := dev / 2 ^ 8 % 2 ^ 12
  let minor := dev % 2 ^ 8 + dev / 2 ^ 20 % 2 ^ 12 * 2 ^ 8
  major * 2 ^ 20 + minor

theorem hugeEncodeDev_lt {dev : Nat} (h : dev < 2 ^ 32) : hugeEncodeDev dev < 2 ^ 32 := by
  unfold hugeEncodeDev
  dsimp only
  omega

theorem hugeDecodeDev_hugeEncodeDev {dev : Nat} (h : dev < 2 ^ 32) :
    hugeDecodeDev (hugeEncodeDev dev) = dev := by
  have hmajor : dev / 2 ^ 20 < 2 ^ 12 := by omega
  have hhigh : dev % 2 ^ 20 / 2 ^ 8 < 2 ^ 12 := by omega
  have hlow : dev % 2 ^ 20 % 2 ^ 8 < 2 ^ 8 := by omega
  have hdev : dev / 2 ^ 20 * 2 ^ 20 + (dev % 2 ^ 20 % 2 ^ 8 + dev % 2 ^ 20 / 2 ^ 8 * 2 ^ 8) =
      dev := by omega
  unfold hugeDecodeDev hugeEncodeDev
  dsimp only
  generalize dev / 2 ^ 20 = major at hmajor hdev ⊢
  generalize dev % 2 ^ 20 / 2 ^ 8 = high at hhigh hdev ⊢
  generalize dev % 2 ^ 20 % 2 ^ 8 = low at hlow hdev ⊢
  have hmajor' : (low + major * 2 ^ 8 + high * 2 ^ 20) / 2 ^ 8 % 2 ^ 12 = major := by omega
  have hlow' : (low + major * 2 ^ 8 + high * 2 ^ 20) % 2 ^ 8 = low := by omega
  have hhigh' : (low + major * 2 ^ 8 + high * 2 ^ 20) / 2 ^ 20 % 2 ^ 12 = high := by
    rw [Nat.add_mul_div_right _ _ (Nat.two_pow_pos 20), Nat.div_eq_of_lt (by omega),
      Nat.zero_add, Nat.mod_eq_of_lt hhigh]
  rw [hmajor', hlow', hhigh', hdev]

/-- `no_root`. -/
def noRoot : Root := ⟨0, 0⟩

/-- `pack_root`. -/
def packRoot (root : Root) : Nat := root.depth * 2 ^ 48 ||| root.block

/-- `unpack_root`. -/
def unpackRoot (v : Nat) : Root := ⟨v % 2 ^ 48, v / 2 ^ 48⟩

theorem packRoot_eq {root : Root} (hblock : root.block < 2 ^ 48) :
    packRoot root = root.depth * 2 ^ 48 + root.block := by
  unfold packRoot
  rw [← Nat.shiftLeft_eq, ← Nat.shiftLeft_add_eq_or_of_lt hblock]

theorem unpackRoot_packRoot {root : Root} (hblock : root.block < 2 ^ 48) :
    unpackRoot (packRoot root) = root := by
  obtain ⟨block, depth⟩ := root
  dsimp only at hblock
  rw [packRoot_eq hblock]
  unfold unpackRoot
  dsimp only
  have hmod : (depth * 2 ^ 48 + block) % 2 ^ 48 = block := by omega
  have hdiv : (depth * 2 ^ 48 + block) / 2 ^ 48 = depth := by omega
  rw [hmod, hdiv]

/-! ## Encoding -/

/-- What is stored of an inode: the attributes of `struct tux3_iattr_data`, the root of the data
btree and the extended attributes.  The numbers are those of the bits of their types. -/
structure InodeAttrs where
  present : Nat
  iRdev : Nat
  iMode : Nat
  iUid : Nat
  iGid : Nat
  iCtime : Timespec
  iSize : Nat
  root : Root
  iNlink : Nat
  iMtime : Timespec
  xcache : Option Xcache
  deriving DecidableEq, Repr

/-- `encode64`. -/
def encode64 (val : Nat) : Bytes := beBytes 8 val

/-- `encode_kind`. -/
def encodeKind (kind version : Nat) : Bytes := encode16 (kind * 2 ^ 12 ||| version)

/-- `encode_asize`: the kinds are those below `VAR_ATTRS`. -/
def encodeAsize (bits : Nat) : Nat :=
  (((List.range varAttrs).filter bits.testBit).map fun kind => atsize kind + 2).sum

/-- The value of an attribute in the loop of `encode_attrs`. -/
def attrBody (inode : InodeAttrs) (kind : Nat) : Bytes :=
  match kind with
  | 0 => encode64 (hugeEncodeDev inode.iRdev)
  | 1 => encode32 inode.iMode ++ encode32 inode.iUid ++ encode32 inode.iGid
  | 2 => encode64 (packRoot inode.root)
  | 3 => encode64 (tuxtime inode.iCtime) ++ encode64 inode.iSize
  | 4 => encode32 inode.iNlink
  | 5 => encode64 (tuxtime inode.iMtime)
  | _ => []

/-- An attribute in the loop of `encode_attrs`. -/
def encodeAttr (version : Nat) (inode : InodeAttrs) (kind : Nat) : Bytes :=
  encodeKind kind version ++ attrBody inode kind

/-- The loop of `encode_attrs`, with the bytes that it wrote. -/
def encodeAttrsLoop (version size : Nat) (inode : InodeAttrs) : List Nat → Bytes → Bytes
  | [], attrs => attrs
  | kind :: kinds, attrs =>
      if inode.present.testBit kind then
        if size ≤ attrs.length + 3 then attrs
        else encodeAttrsLoop version size inode kinds (attrs ++ encodeAttr version inode kind)
      else encodeAttrsLoop version size inode kinds attrs

/-- `encode_attrs`. -/
def encodeAttrs (version size : Nat) (inode : InodeAttrs) : Bytes :=
  encodeAttrsLoop version size inode (List.range varAttrs) []

/-- `encode_xsize`. -/
def encodeXsize (xcache : Option Xcache) : Except TuxError Nat :=
  match xcache with
  | none => return 0
  | some xcache =>
      walkEntries xcache.size
        (fun xattr size => return size + (2 + atsize xattrAttr + xattr.body.length))
        xcache.xattrs 0 0

/-- An extended attribute in the loop of `encode_xattrs`. -/
def encodeXattr (version : Nat) (xattr : XcacheEntry) : Bytes :=
  encodeKind xattrAttr version ++ encode16 (xattr.body.length + 2) ++ encode16 xattr.atom ++
    xattr.body

/-- The loop of `encode_xattrs`, with the bytes that it wrote. -/
def encodeXattrsLoop (version size xlimit : Nat) :
    List XcacheEntry → Nat → Bytes → Except TuxError Bytes
  | [], pos, attrs => if pos < xlimit then .error .bounds else .ok attrs
  | xattr :: xattrs, pos, attrs =>
      if pos < xlimit then
        if size ≤ attrs.length + 3 then .ok attrs
        else encodeXattrsLoop version size xlimit xattrs (pos + xattr.len)
          (attrs ++ encodeXattr version xattr)
      else .ok attrs

/-- `encode_xattrs`. -/
def encodeXattrs (version size : Nat) (xcache : Option Xcache) : Except TuxError Bytes :=
  match xcache with
  | none => .ok []
  | some xcache => encodeXattrsLoop version size xcache.size xcache.xattrs 0 []

/-- `iattr_encoded_size`. -/
def iattrEncodedSize (inode : InodeAttrs) : Except TuxError Nat := do
  let xsize ← encodeXsize inode.xcache
  return encodeAsize inode.present + xsize

/-- `iattr_encode`. -/
def iattrEncode (version size : Nat) (inode : InodeAttrs) : Except TuxError Bytes := do
  let attrs := encodeAttrs version size inode
  let xattrs ← encodeXattrs version (size - attrs.length) inode.xcache
  tuxAssert ((attrs ++ xattrs).length = size)
  return attrs ++ xattrs

/-! ## Decoding -/

/-- `decode64`. -/
def decode64 (data : Bytes) : Option (Nat × Bytes) := readBe 8 data

/-- `decode_kind`: the kind and the version. -/
def decodeKind (data : Bytes) : Option ((Nat × Nat) × Bytes) := do
  let (head, data) ← decode16 data
  return ((head / 2 ^ 12, head % 2 ^ 12), data)

/-- A read of attributes, which C does not check. -/
def decoded {α : Type} (r : Option α) : Except TuxError α :=
  match r with
  | some a => .ok a
  | none => .error .bounds

/-- `new_xcache`. -/
def newXcache (size : Nat) : Xcache := ⟨0, size % 2 ^ 16, []⟩

/-- The loop of `decode_xsize`. -/
def decodeXsizeLoop (version : Nat) : Nat → Bytes → Nat → Except TuxError Nat
  | 0, _, _ => .error .fuel
  | fuel + 1, attrs, total =>
      if 1 < attrs.length then do
        let ((kind, ver), attrs) ← decoded (decodeKind attrs)
        if kind = xattrAttr ∨ kind = idataAttr then
          let (bytes, attrs) ← decoded (decode16 attrs)
          decodeXsizeLoop version fuel (attrs.drop bytes)
            (if ver = version then total + (4 + bytes - 2) else total)
        else decodeXsizeLoop version fuel (attrs.drop (atsize kind)) total
      else return total

/-- `decode_xsize`. -/
def decodeXsize (version : Nat) (attrs : Bytes) : Except TuxError Nat :=
  decodeXsizeLoop version (attrs.length + 1) attrs 0

/-- `decode_xattr`. -/
def decodeXattr (inode : InodeAttrs) (attrs : Bytes) : Except TuxError (InodeAttrs × Bytes) := do
  let xcache ← decoded inode.xcache
  let (bytes, attrs) ← decoded (decode16 attrs)
  let (atom, attrs) ← decoded (decode16 attrs)
  tuxAssert (xcache.size + 4 ≤ xcache.maxsize)
  let size := bytes - 2
  tuxAssert (xcache.size + (4 + size) ≤ xcache.maxsize)
  return ({ inode with
    xcache := some { xcache with
      size := xcache.size + (4 + size)
      xattrs := xcache.xattrs ++ [⟨atom, attrs.take size⟩] } }, attrs.drop size)

/-- An attribute in the loop of `decode_attrs`; `none` is the unknown kind, where it returns. -/
def decodeAttr (inode : InodeAttrs) (root : Root) (kind : Nat) (attrs : Bytes) :
    Except TuxError (Option (InodeAttrs × Root × Bytes)) := do
  match kind with
  | 0 =>
      let (v64, attrs) ← decoded (decode64 attrs)
      return some ({ inode with
        iRdev := hugeDecodeDev v64, present := inode.present ||| 2 ^ kind }, root, attrs)
  | 1 =>
      let (mode, attrs) ← decoded (decode32 attrs)
      let (uid, attrs) ← decoded (decode32 attrs)
      let (gid, attrs) ← decoded (decode32 attrs)
      return some ({ inode with
        iMode := mode % 2 ^ 16, iUid := uid, iGid := gid,
        present := inode.present ||| 2 ^ kind },
        root, attrs)
  | 2 =>
      let (v64, attrs) ← decoded (decode64 attrs)
      return some (inode, unpackRoot v64, attrs)
  | 3 =>
      let (ctime, attrs) ← decoded (decode64 attrs)
      let (size, attrs) ← decoded (decode64 attrs)
      return some ({ inode with
        iCtime := spectime ctime, iSize := size, present := inode.present ||| 2 ^ kind },
        root, attrs)
  | 4 =>
      let (nlink, attrs) ← decoded (decode32 attrs)
      return some ({ inode with
        iNlink := nlink, present := inode.present ||| 2 ^ kind }, root, attrs)
  | 5 =>
      let (mtime, attrs) ← decoded (decode64 attrs)
      return some ({ inode with
        iMtime := spectime mtime, present := inode.present ||| 2 ^ kind }, root, attrs)
  | 12 =>
      let (inode, attrs) ← decodeXattr inode attrs
      return some ({ inode with present := inode.present ||| 2 ^ kind }, root, attrs)
  | _ => return none

/-- The loop of `decode_attrs`. -/
def decodeAttrsLoop (version : Nat) :
    Nat → Bytes → InodeAttrs → Root → Except TuxError InodeAttrs
  | 0, _, _, _ => .error .fuel
  | fuel + 1, attrs, inode, root =>
      if 1 < attrs.length then do
        let ((kind, ver), attrs) ← decoded (decodeKind attrs)
        if ver ≠ version then decodeAttrsLoop version fuel (attrs.drop (atsize kind)) inode root
        else
          match ← decodeAttr inode root kind attrs with
          | none => return inode
          | some (inode, root, attrs) => decodeAttrsLoop version fuel attrs inode root
      else return { inode with root := root }

/-- `iattr_decode`, where there is memory for the cache. -/
def iattrDecode (version : Nat) (inode : InodeAttrs) (attrs : Bytes) :
    Except TuxError InodeAttrs := do
  let xsize ← decodeXsize version attrs
  let inode := if xsize ≠ 0 then { inode with xcache := some (newXcache xsize) } else inode
  decodeAttrsLoop version (attrs.length + 1) attrs inode noRoot

end Tux3
