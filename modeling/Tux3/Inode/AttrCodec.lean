/-
  Inode/AttrCodec.lean --- the stored attributes of an inode are read back.

  Each attribute is read back whatever follows it (`decodeAttr_attrBody`,
  `decodeXattr_encodeXattr`), and the loops go over a list of them.  What the size table says
  is what the encoder writes, so that neither its limit nor the limits of the cache cut
  anything off.
-/
import Mathlib.Tactic.IntervalCases
import Tux3.Inode.Attr

set_option autoImplicit false

namespace Tux3

open BigEndian

/-! ## States of an inode -/

/-- The extended attributes of an inode. -/
def InodeAttrs.xattrs (inode : InodeAttrs) : List XcacheEntry :=
  match inode.xcache with
  | none => []
  | some xcache => xcache.xattrs

/-- The values fit their types, the block of the root is one of a volume, and the kinds of
fixed size that are present are those there are. -/
structure InodeAttrs.WellTyped (inode : InodeAttrs) : Prop where
  present : ∀ kind, mtimeAttr < kind → kind < varAttrs → inode.present.testBit kind = false
  iRdev : inode.iRdev < 2 ^ 32
  iMode : inode.iMode < 2 ^ 16
  iUid : inode.iUid < 2 ^ 32
  iGid : inode.iGid < 2 ^ 32
  ctimeSec : inode.iCtime.tvSec < 2 ^ 32
  ctimeNsec : inode.iCtime.tvNsec < 1000000000
  iSize : inode.iSize < 2 ^ 64
  rootBlock : inode.root.block < 2 ^ 48
  rootDepth : inode.root.depth < 2 ^ 16
  iNlink : inode.iNlink < 2 ^ 32
  mtimeSec : inode.iMtime.tvSec < 2 ^ 32
  mtimeNsec : inode.iMtime.tvNsec < 1000000000
  xcache : ∀ xcache, inode.xcache = some xcache → xcache.Ok

/-- A fresh inode. -/
def freshInode : InodeAttrs :=
  ⟨0, 0, 0, 0, 0, ⟨0, 0⟩, 0, noRoot, 0, ⟨0, 0⟩, none⟩

/-- What decoding an attribute of fixed size does to an inode. -/
def applyAttr (src : InodeAttrs) (st : InodeAttrs × Root) (kind : Nat) : InodeAttrs × Root :=
  match kind with
  | 0 => ({ st.1 with iRdev := src.iRdev, present := st.1.present ||| 2 ^ kind }, st.2)
  | 1 =>
      ({ st.1 with
        iMode := src.iMode, iUid := src.iUid, iGid := src.iGid,
        present := st.1.present ||| 2 ^ kind }, st.2)
  | 2 => (st.1, src.root)
  | 3 =>
      ({ st.1 with
        iCtime := src.iCtime, iSize := src.iSize, present := st.1.present ||| 2 ^ kind }, st.2)
  | 4 => ({ st.1 with iNlink := src.iNlink, present := st.1.present ||| 2 ^ kind }, st.2)
  | 5 => ({ st.1 with iMtime := src.iMtime, present := st.1.present ||| 2 ^ kind }, st.2)
  | _ => st

/-! ## Single attributes -/

section

variable {version size fuel : Nat} {inode src : InodeAttrs} {root : Root} {kind : Nat}
  {rest : Bytes} {xattr : XcacheEntry}

theorem decodeKind_encodeKind (hkind : kind < 2 ^ 4) (hversion : version < 2 ^ 12)
    (rest : Bytes) : decodeKind (encodeKind kind version ++ rest) = some ((kind, version), rest) := by
  have hor : kind * 2 ^ 12 ||| version = kind * 2 ^ 12 + version := by
    rw [← Nat.shiftLeft_eq, ← Nat.shiftLeft_add_eq_or_of_lt hversion]
  unfold decodeKind encodeKind
  rw [hor, decode16_encode16 (by omega)]
  have hdiv : (kind * 2 ^ 12 + version) / 2 ^ 12 = kind := by omega
  have hmod : (kind * 2 ^ 12 + version) % 2 ^ 12 = version := by omega
  simp only [Option.bind_eq_bind, Option.bind_some, hdiv, hmod]
  rfl

theorem decode64_encode64 {val : Nat} (h : val < 2 ^ 64) (rest : Bytes) :
    decode64 (encode64 val ++ rest) = some (val, rest) :=
  readBe_beBytes_of_lt (by norm_num; exact h) rest

theorem encode64_length (val : Nat) : (encode64 val).length = 8 := beBytes_length 8 val

theorem encodeKind_length (kind version : Nat) : (encodeKind kind version).length = 2 :=
  encode16_length _

/-- An attribute is as long as the table of sizes has it. -/
theorem encodeAttr_length (hkind : kind ≤ mtimeAttr) :
    (encodeAttr version inode kind).length = atsize kind + 2 := by
  unfold mtimeAttr at hkind
  unfold encodeAttr
  rw [List.length_append, encodeKind_length]
  unfold attrBody
  interval_cases kind <;> simp [atsize, encode64_length]

theorem attrBody_length (hkind : kind ≤ mtimeAttr) :
    (attrBody inode kind).length = atsize kind := by
  have hlen := @encodeAttr_length 0 inode kind hkind
  unfold encodeAttr at hlen
  rw [List.length_append, encodeKind_length] at hlen
  omega

theorem encodeXattr_length :
    (encodeXattr version xattr).length = 2 + atsize xattrAttr + xattr.body.length := by
  unfold encodeXattr
  rw [List.length_append, List.length_append, List.length_append, encodeKind_length,
    encode16_length, encode16_length]
  rfl

/-- An attribute of fixed size is read back. -/
theorem decodeAttr_attrBody (h : src.WellTyped) (hkind : kind ≤ mtimeAttr) :
    decodeAttr inode root kind (attrBody src kind ++ rest) =
      .ok (some ((applyAttr src (inode, root) kind).1, (applyAttr src (inode, root) kind).2,
        rest)) := by
  unfold mtimeAttr at hkind
  unfold attrBody
  interval_cases kind
  · have hdev : hugeEncodeDev src.iRdev < 2 ^ 64 :=
      Nat.lt_trans (hugeEncodeDev_lt h.iRdev) (by norm_num)
    simp only [decodeAttr, decode64_encode64 hdev, decoded, bind, Except.bind,
      hugeDecodeDev_hugeEncodeDev h.iRdev]
    rfl
  · have hmode : src.iMode < 2 ^ 32 := Nat.lt_trans h.iMode (by norm_num)
    simp only [decodeAttr, List.append_assoc, decode32_encode32 hmode, decode32_encode32 h.iUid,
      decode32_encode32 h.iGid, decoded, bind, Except.bind, Nat.mod_eq_of_lt h.iMode]
    rfl
  · have hroot : packRoot src.root < 2 ^ 64 := by
      have hblock := h.rootBlock
      have hdepth := Nat.succ_le_of_lt h.rootDepth
      rw [packRoot_eq hblock]
      linarith
    simp only [decodeAttr, decode64_encode64 hroot, decoded, bind, Except.bind,
      unpackRoot_packRoot h.rootBlock]
    rfl
  · have htime : tuxtime src.iCtime < 2 ^ 64 := Nat.mod_lt _ (Nat.two_pow_pos 64)
    simp only [decodeAttr, List.append_assoc, decode64_encode64 htime,
      decode64_encode64 h.iSize, decoded, bind, Except.bind,
      spectime_tuxtime h.ctimeSec h.ctimeNsec]
    rfl
  · simp only [decodeAttr, decode32_encode32 h.iNlink]
    rfl
  · have htime : tuxtime src.iMtime < 2 ^ 64 := Nat.mod_lt _ (Nat.two_pow_pos 64)
    simp only [decodeAttr, decode64_encode64 htime, decoded, bind, Except.bind,
      spectime_tuxtime h.mtimeSec h.mtimeNsec]
    rfl

/-- An extended attribute is read back into a cache that has room for it. -/
theorem decodeXattr_encodeXattr {xcache : Xcache} (hcache : inode.xcache = some xcache)
    (hroom : xcache.size + xattr.len ≤ xcache.maxsize) (hmax : xcache.maxsize < 2 ^ 16)
    (hatom : xattr.atom < 2 ^ 16) :
    decodeXattr inode (encode16 (xattr.body.length + 2) ++ (encode16 xattr.atom ++
      (xattr.body ++ rest))) =
      .ok ({ inode with xcache := some { xcache with
        size := xcache.size + xattr.len, xattrs := xcache.xattrs ++ [xattr] } }, rest) := by
  unfold XcacheEntry.len at hroom ⊢
  have hsize : xattr.body.length + 2 < 2 ^ 16 := by omega
  have hhead : xcache.size + 4 ≤ xcache.maxsize := by omega
  unfold decodeXattr
  simp only [hcache, decode16_encode16 hsize, decode16_encode16 hatom, decoded, bind,
    Except.bind, tuxAssert_of hhead, Nat.add_sub_cancel, tuxAssert_of hroom, List.take_left',
    List.drop_left']
  rfl

/-! ## The loops -/

/-- The encoded attributes of fixed size. -/
def attrsBytes (version : Nat) (src : InodeAttrs) (kinds : List Nat) : Bytes :=
  kinds.flatMap (encodeAttr version src)

/-- The encoded extended attributes. -/
def xattrsBytes (version : Nat) (xattrs : List XcacheEntry) : Bytes :=
  xattrs.flatMap (encodeXattr version)

/-- The kinds of fixed size that are present. -/
def presentKinds (bits : Nat) : List Nat := (List.range varAttrs).filter bits.testBit

theorem attrsBytes_length {kinds : List Nat} (h : ∀ kind ∈ kinds, kind ≤ mtimeAttr) :
    (attrsBytes version src kinds).length = (kinds.map fun kind => atsize kind + 2).sum := by
  unfold attrsBytes
  rw [List.length_flatMap]
  refine congrArg List.sum (List.map_congr_left fun kind hk => ?_)
  exact encodeAttr_length (h kind hk)

theorem xattrsBytes_length (xattrs : List XcacheEntry) :
    (xattrsBytes version xattrs).length =
      (xattrs.map fun xattr => 2 + atsize xattrAttr + xattr.body.length).sum := by
  unfold xattrsBytes
  rw [List.length_flatMap]
  exact congrArg List.sum (List.map_congr_left fun xattr _ => encodeXattr_length)

/-- The limit of `encode_attrs` cuts nothing off. -/
theorem encodeAttrsLoop_eq {kinds : List Nat} {attrs : Bytes}
    (hkinds : ∀ kind ∈ kinds, src.present.testBit kind = true → kind ≤ mtimeAttr)
    (hsize : (attrs ++ attrsBytes version src (kinds.filter src.present.testBit)).length ≤ size) :
    encodeAttrsLoop version size src kinds attrs =
      attrs ++ attrsBytes version src (kinds.filter src.present.testBit) := by
  induction kinds generalizing attrs with
  | nil => exact (List.append_nil attrs).symm
  | cons kind kinds ih =>
      have htail := fun k hk => hkinds k (List.mem_cons_of_mem _ hk)
      unfold encodeAttrsLoop
      cases hbit : src.present.testBit kind with
      | false =>
          rw [List.filter_cons_of_neg (by simp [hbit])] at hsize ⊢
          rw [if_neg Bool.false_ne_true]
          exact ih htail hsize
      | true =>
          have hlen := @encodeAttr_length version src kind (hkinds kind List.mem_cons_self hbit)
          rw [List.filter_cons_of_pos hbit, attrsBytes, List.flatMap_cons, ← List.append_assoc]
            at hsize ⊢
          have hroom : ¬size ≤ attrs.length + 3 := by
            have hpos : 2 ≤ atsize kind := by
              have hle := hkinds kind List.mem_cons_self hbit
              unfold mtimeAttr at hle
              interval_cases kind <;> decide
            rw [List.length_append, List.length_append] at hsize
            omega
          rw [if_pos rfl, if_neg hroom]
          exact ih htail hsize

/-- The limit of `encode_xattrs` cuts nothing off. -/
theorem encodeXattrsLoop_eq {xlimit pos : Nat} {xattrs : List XcacheEntry} {attrs : Bytes}
    (hlimit : pos + entriesLen xattrs = xlimit)
    (hsize : (attrs ++ xattrsBytes version xattrs).length ≤ size) :
    encodeXattrsLoop version size xlimit xattrs pos attrs =
      .ok (attrs ++ xattrsBytes version xattrs) := by
  induction xattrs generalizing pos attrs with
  | nil =>
      obtain rfl : pos = xlimit := hlimit
      unfold encodeXattrsLoop
      rw [if_neg (Nat.lt_irrefl pos), xattrsBytes, List.flatMap_nil, List.append_nil]
  | cons xattr xattrs ih =>
      have hlen := @encodeXattr_length version xattr
      rw [entriesLen_cons] at hlimit
      rw [xattrsBytes, List.flatMap_cons, ← List.append_assoc] at hsize ⊢
      have hpos : pos < xlimit := by
        have hentry : 0 < xattr.len := Nat.add_pos_left (Nat.succ_pos 3) _
        omega
      have hroom : ¬size ≤ attrs.length + 3 := by
        rw [List.length_append, List.length_append, hlen] at hsize
        have hxat : atsize xattrAttr = 4 := rfl
        omega
      unfold encodeXattrsLoop
      rw [if_pos hpos, if_neg hroom]
      exact ih (by omega) hsize

/-- `encode_xsize` is what the extended attributes take. -/
theorem encodeXsize_eq {xcache : Option Xcache} (h : ∀ xc, xcache = some xc → xc.Ok)
    (hinode : inode.xcache = xcache) :
    encodeXsize xcache = .ok (xattrsBytes version inode.xattrs).length := by
  rw [xattrsBytes_length]
  unfold InodeAttrs.xattrs
  rw [hinode]
  cases xcache with
  | none => rfl
  | some xc =>
      have hsum : ∀ (xattrs : List XcacheEntry) (size : Nat),
          xattrs.foldl (fun size xattr => size + (2 + atsize xattrAttr + xattr.body.length)) size =
          size + (xattrs.map fun xattr => 2 + atsize xattrAttr + xattr.body.length).sum := by
        intro xattrs
        induction xattrs with
        | nil => exact fun size => rfl
        | cons xattr xattrs ih =>
            intro size
            rw [List.foldl_cons, ih, List.map_cons, List.sum_cons, Nat.add_assoc]
      unfold encodeXsize
      dsimp only
      rw [walkEntries_eq ((Nat.zero_add _).trans (h xc rfl).size_eq.symm), List.foldlM_pure, hsum,
        Nat.zero_add]
      rfl

/-- `decode_xsize` steps over the attributes of fixed size. -/
theorem decodeXsizeLoop_attrs {kinds : List Nat} {total : Nat} (hversion : version < 2 ^ 12)
    (hkinds : ∀ kind ∈ kinds, kind ≤ mtimeAttr) :
    decodeXsizeLoop version (kinds.length + fuel) (attrsBytes version src kinds ++ rest) total =
      decodeXsizeLoop version fuel rest total := by
  induction kinds with
  | nil =>
      rw [List.length_nil, Nat.zero_add]
      rfl
  | cons kind kinds ih =>
      have hle := hkinds kind List.mem_cons_self
      have hhead : kind < 2 ^ 4 := Nat.lt_of_le_of_lt hle (by decide)
      have hne : ¬(kind = xattrAttr ∨ kind = idataAttr) := by
        unfold mtimeAttr at hle
        unfold xattrAttr idataAttr
        omega
      have hfuel : (kind :: kinds).length + fuel = kinds.length + fuel + 1 := by
        rw [List.length_cons]
        omega
      rw [hfuel, attrsBytes, List.flatMap_cons, encodeAttr, List.append_assoc, List.append_assoc]
      conv_lhs => unfold decodeXsizeLoop
      rw [if_pos (by rw [List.length_append, encodeKind_length]; omega),
        decodeKind_encodeKind hhead hversion]
      simp only [decoded, bind, Except.bind]
      rw [if_neg hne, List.drop_left' (attrBody_length hle)]
      exact ih fun k hk => hkinds k (List.mem_cons_of_mem _ hk)

/-- `decode_xsize` adds up what the extended attributes need in memory. -/
theorem decodeXsizeLoop_xattrs {xattrs : List XcacheEntry} {total : Nat}
    (hversion : version < 2 ^ 12) (hlen : entriesLen xattrs < 2 ^ 16) :
    decodeXsizeLoop version (xattrs.length + 1 + fuel) (xattrsBytes version xattrs) total =
      .ok (total + entriesLen xattrs) := by
  induction xattrs generalizing total with
  | nil =>
      rw [List.length_nil, Nat.add_right_comm]
      rfl
  | cons xattr xattrs ih =>
      rw [entriesLen_cons, XcacheEntry.len] at hlen
      have hbody : xattr.body.length + 2 < 2 ^ 16 := by omega
      rw [List.length_cons, Nat.add_right_comm, xattrsBytes, List.flatMap_cons, encodeXattr,
        List.append_assoc, List.append_assoc, List.append_assoc]
      conv_lhs => unfold decodeXsizeLoop
      rw [if_pos (by rw [List.length_append, encodeKind_length]; omega),
        decodeKind_encodeKind (by decide) hversion]
      simp only [decoded, bind, Except.bind, if_true, true_or,
        decode16_encode16 hbody, ← List.append_assoc (encode16 xattr.atom)]
      rw [List.drop_left' (by rw [List.length_append, encode16_length, Nat.add_comm])]
      have hrest := @ih (total + (4 + (xattr.body.length + 2) - 2)) (by omega)
      rw [entriesLen_cons, XcacheEntry.len]
      unfold xattrsBytes at hrest
      rw [hrest]
      congr 1
      omega

/-- `decode_attrs` reads the attributes of fixed size. -/
theorem decodeAttrsLoop_attrs {kinds : List Nat} (h : src.WellTyped) (hversion : version < 2 ^ 12)
    (hkinds : ∀ kind ∈ kinds, kind ≤ mtimeAttr) :
    decodeAttrsLoop version (kinds.length + fuel) (attrsBytes version src kinds ++ rest) inode
        root =
      decodeAttrsLoop version fuel rest (kinds.foldl (applyAttr src) (inode, root)).1
        (kinds.foldl (applyAttr src) (inode, root)).2 := by
  induction kinds generalizing inode root with
  | nil =>
      rw [List.length_nil, Nat.zero_add]
      rfl
  | cons kind kinds ih =>
      have hle := hkinds kind List.mem_cons_self
      have hhead : kind < 2 ^ 4 := Nat.lt_of_le_of_lt hle (by decide)
      have hfuel : (kind :: kinds).length + fuel = kinds.length + fuel + 1 := by
        rw [List.length_cons]
        omega
      rw [hfuel, attrsBytes, List.flatMap_cons, encodeAttr, List.append_assoc, List.append_assoc]
      conv_lhs => unfold decodeAttrsLoop
      rw [if_pos (by rw [List.length_append, encodeKind_length]; omega),
        decodeKind_encodeKind hhead hversion]
      simp only [decoded, bind, Except.bind]
      rw [if_neg (fun hne => hne rfl), decodeAttr_attrBody h hle]
      exact ih fun k hk => hkinds k (List.mem_cons_of_mem _ hk)

/-- `decode_attrs` reads the extended attributes into a cache that has room for them. -/
theorem decodeAttrsLoop_xattrs {xattrs : List XcacheEntry} {xcache : Xcache}
    (hversion : version < 2 ^ 12) (hcache : inode.xcache = some xcache)
    (hroom : xcache.size + entriesLen xattrs ≤ xcache.maxsize) (hmax : xcache.maxsize < 2 ^ 16)
    (hatoms : ∀ xattr ∈ xattrs, xattr.atom < 2 ^ 16) :
    decodeAttrsLoop version (xattrs.length + 1 + fuel) (xattrsBytes version xattrs) inode root =
      .ok { inode with
        root := root
        present := if xattrs = [] then inode.present else inode.present ||| 2 ^ xattrAttr
        xcache := some { xcache with
          size := xcache.size + entriesLen xattrs
          xattrs := xcache.xattrs ++ xattrs } } := by
  induction xattrs generalizing inode xcache with
  | nil =>
      have hsame : some { xcache with
          size := xcache.size + entriesLen [], xattrs := xcache.xattrs ++ [] } =
          inode.xcache := by
        rw [hcache, List.append_nil]
        rfl
      rw [hsame, if_pos rfl, List.length_nil, Nat.add_right_comm]
      rfl
  | cons xattr xattrs ih =>
      rw [entriesLen_cons, ← Nat.add_assoc] at hroom
      have hentry : xcache.size + xattr.len ≤ xcache.maxsize :=
        Nat.le_trans (Nat.le_add_right _ _) hroom
      rw [List.length_cons, Nat.add_right_comm, xattrsBytes, List.flatMap_cons, encodeXattr,
        List.append_assoc, List.append_assoc, List.append_assoc]
      conv_lhs => unfold decodeAttrsLoop
      rw [if_pos (by rw [List.length_append, encodeKind_length]; omega),
        decodeKind_encodeKind (by decide) hversion]
      simp only [decoded, bind, Except.bind]
      rw [if_neg (fun hne => hne rfl)]
      have hdecode := @decodeXattr_encodeXattr inode (xattrsBytes version xattrs) xattr xcache
        hcache hentry hmax (hatoms xattr List.mem_cons_self)
      unfold xattrsBytes at hdecode
      simp only [decodeAttr, xattrAttr, hdecode, bind, Except.bind]
      have hrest := @ih { inode with
        present := inode.present ||| 2 ^ xattrAttr
        xcache := some { xcache with
          size := xcache.size + xattr.len, xattrs := xcache.xattrs ++ [xattr] } } _ rfl hroom hmax
        fun e he => hatoms e (List.mem_cons_of_mem _ he)
      refine hrest.trans ?_
      rw [List.append_assoc, List.singleton_append, entriesLen_cons, ← Nat.add_assoc,
        if_neg (List.cons_ne_nil xattr xattrs), Nat.or_assoc, Nat.or_self, ite_self]
      rfl

/-! ## The round trip -/

/-- What the attributes of fixed size leave in an inode. -/
structure Applied (src : InodeAttrs) (st : InodeAttrs × Root) (kinds : List Nat)
    (r : InodeAttrs × Root) : Prop where
  present : ∀ k, r.1.present.testBit k =
    (st.1.present.testBit k || (decide (k ∈ kinds) && decide (k ≠ dataBtreeAttr)))
  iRdev : r.1.iRdev = if rdevAttr ∈ kinds then src.iRdev else st.1.iRdev
  iMode : r.1.iMode = if modeOwnerAttr ∈ kinds then src.iMode else st.1.iMode
  iUid : r.1.iUid = if modeOwnerAttr ∈ kinds then src.iUid else st.1.iUid
  iGid : r.1.iGid = if modeOwnerAttr ∈ kinds then src.iGid else st.1.iGid
  root : r.2 = if dataBtreeAttr ∈ kinds then src.root else st.2
  iCtime : r.1.iCtime = if ctimeSizeAttr ∈ kinds then src.iCtime else st.1.iCtime
  iSize : r.1.iSize = if ctimeSizeAttr ∈ kinds then src.iSize else st.1.iSize
  iNlink : r.1.iNlink = if linkCountAttr ∈ kinds then src.iNlink else st.1.iNlink
  iMtime : r.1.iMtime = if mtimeAttr ∈ kinds then src.iMtime else st.1.iMtime
  xcache : r.1.xcache = st.1.xcache

/-- Decoding an attribute sets its bit, but for the root of the btree. -/
theorem applyAttr_present {st : InodeAttrs × Root} (hkind : kind ≤ mtimeAttr) (k : Nat) :
    (applyAttr src st kind).1.present.testBit k =
      (st.1.present.testBit k || (decide (k = kind) && decide (k ≠ dataBtreeAttr))) := by
  have hset : kind ≠ dataBtreeAttr → (st.1.present ||| 2 ^ kind).testBit k =
      (st.1.present.testBit k || (decide (k = kind) && decide (k ≠ dataBtreeAttr))) := by
    intro hne
    rw [Nat.testBit_or, Nat.testBit_two_pow]
    grind
  unfold mtimeAttr at hkind
  interval_cases kind
  · exact hset (by decide)
  · exact hset (by decide)
  · unfold dataBtreeAttr
    simp only [applyAttr]
    grind
  · exact hset (by decide)
  · exact hset (by decide)
  · exact hset (by decide)

theorem applied_foldl {kinds : List Nat} {st : InodeAttrs × Root}
    (hkinds : ∀ kind ∈ kinds, kind ≤ mtimeAttr) :
    Applied src st kinds (kinds.foldl (applyAttr src) st) := by
  induction kinds generalizing st with
  | nil => constructor <;> simp
  | cons kind kinds ih =>
      have hle := hkinds kind List.mem_cons_self
      have hrest := @ih (applyAttr src st kind) fun k hk => hkinds k (List.mem_cons_of_mem _ hk)
      have hpresent : ∀ k, _ := @applyAttr_present src kind st hle
      unfold mtimeAttr at hle
      rw [List.foldl_cons]
      constructor
      · intro k
        rw [hrest.present, hpresent]
        grind
      · rw [hrest.iRdev]
        interval_cases kind <;> grind [applyAttr, rdevAttr]
      · rw [hrest.iMode]
        interval_cases kind <;> grind [applyAttr, modeOwnerAttr]
      · rw [hrest.iUid]
        interval_cases kind <;> grind [applyAttr, modeOwnerAttr]
      · rw [hrest.iGid]
        interval_cases kind <;> grind [applyAttr, modeOwnerAttr]
      · rw [hrest.root]
        interval_cases kind <;> grind [applyAttr, dataBtreeAttr]
      · rw [hrest.iCtime]
        interval_cases kind <;> grind [applyAttr, ctimeSizeAttr]
      · rw [hrest.iSize]
        interval_cases kind <;> grind [applyAttr, ctimeSizeAttr]
      · rw [hrest.iNlink]
        interval_cases kind <;> grind [applyAttr, linkCountAttr]
      · rw [hrest.iMtime]
        interval_cases kind <;> grind [applyAttr, mtimeAttr]
      · rw [hrest.xcache]
        interval_cases kind <;> rfl

theorem mem_presentKinds {bits k : Nat} :
    k ∈ presentKinds bits ↔ k < varAttrs ∧ bits.testBit k = true := by
  unfold presentKinds
  rw [List.mem_filter, List.mem_range]

/-- Only kinds with a size are present. -/
theorem InodeAttrs.WellTyped.kinds_le (h : src.WellTyped) :
    ∀ k ∈ presentKinds src.present, k ≤ mtimeAttr := by
  intro k hk
  obtain ⟨hlt, hbit⟩ := mem_presentKinds.mp hk
  refine Nat.le_of_not_lt fun hgt => ?_
  rw [h.present k hgt hlt] at hbit
  exact Bool.false_ne_true hbit

theorem encodeAsize_eq (h : src.WellTyped) :
    encodeAsize src.present = (attrsBytes version src (presentKinds src.present)).length :=
  (attrsBytes_length h.kinds_le).symm

/-- The bytes of an inode. -/
def inodeBytes (version : Nat) (src : InodeAttrs) : Bytes :=
  attrsBytes version src (presentKinds src.present) ++ xattrsBytes version src.xattrs

/-- `iattr_encoded_size` is what the attributes take. -/
theorem iattrEncodedSize_eq (h : src.WellTyped) :
    iattrEncodedSize src = .ok (inodeBytes version src).length := by
  unfold iattrEncodedSize inodeBytes
  rw [@encodeXsize_eq version src _ h.xcache rfl, @encodeAsize_eq version src h,
    List.length_append]
  rfl

theorem encodeXattrs_eq (h : ∀ xc, inode.xcache = some xc → xc.Ok) :
    encodeXattrs version (xattrsBytes version inode.xattrs).length inode.xcache =
      .ok (xattrsBytes version inode.xattrs) := by
  unfold encodeXattrs InodeAttrs.xattrs
  cases hcache : inode.xcache with
  | none => rfl
  | some xc =>
      have hlimit : 0 + entriesLen xc.xattrs = xc.size :=
        (Nat.zero_add _).trans (h xc hcache).size_eq.symm
      exact encodeXattrsLoop_eq hlimit (Nat.le_refl _)

/-- `iattr_encode` writes all the attributes, and its assert holds. -/
theorem iattrEncode_eq (h : src.WellTyped) :
    iattrEncode version (inodeBytes version src).length src = .ok (inodeBytes version src) := by
  have hattrs : encodeAttrs version (inodeBytes version src).length src =
      attrsBytes version src (presentKinds src.present) := by
    refine encodeAttrsLoop_eq (fun k hk hbit => ?_) ?_
    · exact h.kinds_le k (mem_presentKinds.mpr ⟨List.mem_range.mp hk, hbit⟩)
    · unfold inodeBytes
      rw [List.nil_append, List.length_append]
      exact Nat.le_add_right (attrsBytes version src (presentKinds src.present)).length _
  have hrest : (inodeBytes version src).length -
      (attrsBytes version src (presentKinds src.present)).length =
      (xattrsBytes version src.xattrs).length := by
    unfold inodeBytes
    rw [List.length_append, Nat.add_sub_cancel_left]
  unfold iattrEncode
  simp only [hattrs, hrest, encodeXattrs_eq h.xcache, bind, Except.bind]
  exact congrArg (· >>= fun _ => Except.ok (inodeBytes version src)) (tuxAssert_of rfl)

theorem length_le_flatMap {α : Type} {f : α → Bytes} (hf : ∀ a, 0 < (f a).length)
    (items : List α) : items.length ≤ (items.flatMap f).length := by
  induction items with
  | nil => exact Nat.le_refl 0
  | cons item items ih =>
      have hitem := hf item
      rw [List.flatMap_cons, List.length_append, List.length_cons]
      omega

/-- No attribute is empty, so that the fuel covers all of them. -/
theorem inodeBytes_fuel :
    ∃ extra, (inodeBytes version src).length + 1 =
      (presentKinds src.present).length + (src.xattrs.length + 1 + extra) := by
  have hkind : ∀ kind, 0 < (encodeAttr version src kind).length := by
    intro kind
    unfold encodeAttr
    rw [List.length_append, encodeKind_length]
    omega
  have hxattr : ∀ xattr, 0 < (encodeXattr version xattr).length := by
    intro xattr
    rw [encodeXattr_length]
    omega
  have hkinds := length_le_flatMap hkind (presentKinds src.present)
  have hxattrs := length_le_flatMap hxattr src.xattrs
  obtain ⟨moreKinds, hkinds⟩ := Nat.exists_eq_add_of_le hkinds
  obtain ⟨moreXattrs, hxattrs⟩ := Nat.exists_eq_add_of_le hxattrs
  unfold inodeBytes attrsBytes xattrsBytes
  rw [List.length_append, hkinds, hxattrs]
  exact ⟨moreKinds + moreXattrs, by omega⟩

/-- `decode_xsize` is the memory that the extended attributes need. -/
theorem decodeXsize_inodeBytes (h : src.WellTyped) (hversion : version < 2 ^ 12)
    (hlen : entriesLen src.xattrs < 2 ^ 16) :
    decodeXsize version (inodeBytes version src) = .ok (entriesLen src.xattrs) := by
  obtain ⟨extra, hfuel⟩ := @inodeBytes_fuel version src
  unfold decodeXsize
  rw [hfuel]
  unfold inodeBytes
  rw [decodeXsizeLoop_attrs hversion h.kinds_le, decodeXsizeLoop_xattrs hversion hlen,
    Nat.zero_add]

/-- The entries of a cache fit its 16 bit size. -/
theorem InodeAttrs.WellTyped.entriesLen_lt (h : src.WellTyped) :
    entriesLen src.xattrs < 2 ^ 16 := by
  unfold InodeAttrs.xattrs
  cases hcache : src.xcache with
  | none => exact Nat.two_pow_pos 16
  | some xc =>
      have hok := h.xcache xc hcache
      exact Nat.lt_of_le_of_lt (hok.size_eq ▸ hok.size_le) hok.maxsize_lt

/-- What an inode has after its attributes were read: the values of those that are present, and
all the extended attributes.  The bit of the btree is never set, that of the extended attributes
is set if there are any. -/
structure Restored (src inode : InodeAttrs) : Prop where
  present : ∀ k, inode.present.testBit k =
    if k = xattrAttr then decide (src.xattrs ≠ [])
    else decide (k < varAttrs) && src.present.testBit k && decide (k ≠ dataBtreeAttr)
  iRdev : inode.iRdev = if src.present.testBit rdevAttr then src.iRdev else 0
  iMode : inode.iMode = if src.present.testBit modeOwnerAttr then src.iMode else 0
  iUid : inode.iUid = if src.present.testBit modeOwnerAttr then src.iUid else 0
  iGid : inode.iGid = if src.present.testBit modeOwnerAttr then src.iGid else 0
  root : inode.root = if src.present.testBit dataBtreeAttr then src.root else noRoot
  iCtime : inode.iCtime = if src.present.testBit ctimeSizeAttr then src.iCtime else ⟨0, 0⟩
  iSize : inode.iSize = if src.present.testBit ctimeSizeAttr then src.iSize else 0
  iNlink : inode.iNlink = if src.present.testBit linkCountAttr then src.iNlink else 0
  iMtime : inode.iMtime = if src.present.testBit mtimeAttr then src.iMtime else ⟨0, 0⟩
  xattrs : inode.xattrs = src.xattrs

/-- The attributes of fixed size, read into a fresh inode, and the others after them restore the
inode. -/
theorem Applied.restored {start xcache : Option Xcache} {r : InodeAttrs × Root}
    (h : Applied src ({ freshInode with xcache := start }, noRoot) (presentKinds src.present) r)
    (hxattrs : { r.1 with xcache := xcache }.xattrs = src.xattrs) :
    Restored src { r.1 with
      root := r.2
      present := if src.xattrs = [] then r.1.present else r.1.present ||| 2 ^ xattrAttr
      xcache := xcache } := by
  have hmem : ∀ k, k < varAttrs →
      (k ∈ presentKinds src.present ↔ src.present.testBit k = true) := by
    intro k hk
    rw [mem_presentKinds]
    exact and_iff_right hk
  refine ⟨fun k => ?_, h.iRdev.trans ?_, h.iMode.trans ?_, h.iUid.trans ?_, h.iGid.trans ?_,
    h.root.trans ?_, h.iCtime.trans ?_, h.iSize.trans ?_, h.iNlink.trans ?_, h.iMtime.trans ?_,
    hxattrs⟩
  · have hbits := h.present k
    have hzero : freshInode.present.testBit k = false := Nat.zero_testBit k
    dsimp only at hbits ⊢
    rw [hzero, Bool.false_or] at hbits
    have hsmall : k = xattrAttr → k ∉ presentKinds src.present := by
      rintro rfl hk
      exact absurd (mem_presentKinds.mp hk).1 (by decide)
    have hval : r.1.present.testBit k = (decide (k < varAttrs) && src.present.testBit k &&
        decide (k ≠ dataBtreeAttr)) := by
      rw [hbits, decide_eq_decide.mpr mem_presentKinds, Bool.decide_and, Bool.decide_eq_true]
    by_cases hnil : src.xattrs = []
    · rw [if_pos hnil]
      split
      next hk => simp [hbits, hsmall hk, hnil]
      next => exact hval
    · rw [if_neg hnil, Nat.testBit_or, Nat.testBit_two_pow, hval]
      split
      next hk => simp [hk, hnil]
      next hk => simp [Ne.symm hk]
  · simp only [hmem rdevAttr (by decide)]
    rfl
  · simp only [hmem modeOwnerAttr (by decide)]
    rfl
  · simp only [hmem modeOwnerAttr (by decide)]
    rfl
  · simp only [hmem modeOwnerAttr (by decide)]
    rfl
  · simp only [hmem dataBtreeAttr (by decide)]
  · simp only [hmem ctimeSizeAttr (by decide)]
    rfl
  · simp only [hmem ctimeSizeAttr (by decide)]
    rfl
  · simp only [hmem linkCountAttr (by decide)]
    rfl
  · simp only [hmem mtimeAttr (by decide)]
    rfl

/-- What `iattr_encode` writes is as long as `iattr_encoded_size` says, and `iattr_decode`
restores the inode from it. -/
theorem iattr_roundTrip (h : src.WellTyped) (hversion : version < 2 ^ 12) :
    ∃ bytes, iattrEncodedSize src = .ok bytes.length ∧
      iattrEncode version bytes.length src = .ok bytes ∧
      ∃ inode, iattrDecode version freshInode bytes = .ok inode ∧ Restored src inode := by
  refine ⟨inodeBytes version src, iattrEncodedSize_eq h, iattrEncode_eq h, ?_⟩
  obtain ⟨extra, hfuel⟩ := @inodeBytes_fuel version src
  have hlen := h.entriesLen_lt
  have hmod : entriesLen src.xattrs % 2 ^ 16 = entriesLen src.xattrs := Nat.mod_eq_of_lt hlen
  have hatoms : ∀ xattr ∈ src.xattrs, xattr.atom < 2 ^ 16 := by
    intro xattr hx
    unfold InodeAttrs.xattrs at hx
    cases hcache : src.xcache with
    | none =>
        rw [hcache] at hx
        exact absurd hx List.not_mem_nil
    | some xc =>
        rw [hcache] at hx
        exact (h.xcache xc hcache).atom_lt xattr hx
  have hloop : ∀ inode, decodeAttrsLoop version ((inodeBytes version src).length + 1)
      (inodeBytes version src) inode noRoot =
      decodeAttrsLoop version (src.xattrs.length + 1 + extra) (xattrsBytes version src.xattrs)
        ((presentKinds src.present).foldl (applyAttr src) (inode, noRoot)).1
        ((presentKinds src.present).foldl (applyAttr src) (inode, noRoot)).2 := by
    intro inode
    rw [hfuel]
    exact decodeAttrsLoop_attrs h hversion h.kinds_le
  unfold iattrDecode
  simp only [decodeXsize_inodeBytes h hversion hlen, bind, Except.bind, hloop]
  by_cases hnil : src.xattrs = []
  · have hnone : ¬entriesLen src.xattrs ≠ 0 := by
      rw [hnil]
      exact fun hne => hne rfl
    have happly := @applied_foldl src (presentKinds src.present) (freshInode, noRoot) h.kinds_le
    rw [if_neg hnone, hnil, List.length_nil, Nat.add_right_comm]
    refine ⟨_, rfl, ?_⟩
    have hxattrs : InodeAttrs.xattrs { ((presentKinds src.present).foldl (applyAttr src)
        (freshInode, noRoot)).1 with xcache := none } = src.xattrs := hnil.symm
    have hrestored := @Applied.restored src none none _ happly hxattrs
    rw [if_pos hnil, ← show _ = none from happly.xcache] at hrestored
    exact hrestored
  · have hsome : entriesLen src.xattrs ≠ 0 := by
      obtain ⟨xattr, xattrs, hcons⟩ := List.exists_cons_of_ne_nil hnil
      rw [hcons, entriesLen_cons]
      unfold XcacheEntry.len
      omega
    rw [if_pos hsome]
    have happly := @applied_foldl src (presentKinds src.present)
      ({ freshInode with xcache := some (newXcache (entriesLen src.xattrs)) }, noRoot) h.kinds_le
    have hroom : (newXcache (entriesLen src.xattrs)).size + entriesLen src.xattrs ≤
        (newXcache (entriesLen src.xattrs)).maxsize := by
      unfold newXcache
      dsimp only
      omega
    have hmax : (newXcache (entriesLen src.xattrs)).maxsize < 2 ^ 16 :=
      Nat.mod_lt _ (Nat.two_pow_pos 16)
    rw [decodeAttrsLoop_xattrs hversion happly.xcache hroom hmax hatoms]
    refine ⟨_, rfl, happly.restored ?_⟩
    rfl

end

/-- A regular file with an owner and one extended attribute. -/
def xattrInode : InodeAttrs :=
  { freshInode with
    present := 2 ^ modeOwnerAttr
    iMode := 0x81a4
    xcache := some ⟨5, 128, [⟨1, [7]⟩]⟩ }

theorem xattrInode_wellTyped : xattrInode.WellTyped where
  present := by
    intro kind hlow hhigh
    unfold mtimeAttr at hlow
    unfold varAttrs at hhigh
    interval_cases kind <;> rfl
  iRdev := by decide
  iMode := by decide
  iUid := by decide
  iGid := by decide
  ctimeSec := by decide
  ctimeNsec := by decide
  iSize := by decide
  rootBlock := by decide
  rootDepth := by decide
  iNlink := by decide
  mtimeSec := by decide
  mtimeNsec := by decide
  xcache := by
    intro xcache hcache
    obtain rfl := Option.some.inj hcache
    refine ⟨rfl, by decide, by decide, ?_⟩
    intro xattr hx
    obtain rfl := List.mem_singleton.mp hx
    decide

theorem iattr_roundTrip_xattrInode : xattrInode.WellTyped ∧ 0 < 2 ^ 12 ∧
    ∃ bytes, iattrEncodedSize xattrInode = .ok bytes.length ∧
      iattrEncode 0 bytes.length xattrInode = .ok bytes ∧
      ∃ inode, iattrDecode 0 freshInode bytes = .ok inode ∧ Restored xattrInode inode :=
  ⟨xattrInode_wellTyped, by decide, iattr_roundTrip xattrInode_wellTyped (by decide)⟩

/-- Decoding an extended attribute sets a bit that the inode did not have. -/
theorem iattrDecode_xattrBit : xattrInode.WellTyped ∧
    ∃ bytes inode, iattrEncode 0 bytes.length xattrInode = .ok bytes ∧
      iattrDecode 0 freshInode bytes = .ok inode ∧
      xattrInode.present.testBit xattrAttr = false ∧ inode.present.testBit xattrAttr = true :=
  ⟨xattrInode_wellTyped, inodeBytes 0 xattrInode, _, rfl, rfl, rfl, rfl⟩

end Tux3
