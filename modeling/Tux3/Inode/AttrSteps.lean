/-
  Inode/AttrSteps.lean --- the steps of the two loops that read attributes.

  `decode_xsize` finds the room that the extended attributes need, and `decode_attrs` fills it.
  Each steps from attribute to attribute on its own.  The first skips the data of any attribute; the
  second skips an attribute of another version by its size in the table, which leaves out the data
  of those of variable size, and ends at an attribute of a kind that it does not know.
-/
import Tux3.Inode.AttrCodec
import Tux3.Lib.Outcome

set_option autoImplicit false

namespace Tux3

open BigEndian Outcome

/-! ## Attributes on disk -/

/-- An attribute of a kind of fixed size, immediate data, or an extended attribute. -/
inductive DiskAttr where
  | fixed (kind version : Nat) (body : Bytes)
  | idata (version : Nat) (data : Bytes)
  | xattr (version atom : Nat) (body : Bytes)
  deriving DecidableEq, Repr

/-- The fields have the values that their bits allow, and the body has the size of its kind; a
reserved kind has none. -/
def DiskAttr.Ok : DiskAttr → Prop
  | .fixed kind version body =>
      kind < 2 ^ 4 ∧ kind ≠ idataAttr ∧ kind ≠ xattrAttr ∧ version < 2 ^ 12 ∧
        body.length = atsize kind
  | .idata version data => version < 2 ^ 12 ∧ data.length < 2 ^ 16
  | .xattr version atom body => version < 2 ^ 12 ∧ atom < 2 ^ 16 ∧ body.length + 2 < 2 ^ 16

/-- The kind in the head. -/
def DiskAttr.kind : DiskAttr → Nat
  | .fixed kind _ _ => kind
  | .idata _ _ => idataAttr
  | .xattr _ _ _ => xattrAttr

/-- The version in the head. -/
def DiskAttr.version : DiskAttr → Nat
  | .fixed _ version _ => version
  | .idata version _ => version
  | .xattr version _ _ => version

/-- What stands behind the head. -/
def DiskAttr.payload : DiskAttr → Bytes
  | .fixed _ _ body => body
  | .idata _ data => encode16 data.length ++ data
  | .xattr _ atom body => encode16 (body.length + 2) ++ (encode16 atom ++ body)

/-- The bytes of an attribute. -/
def DiskAttr.encode (item : DiskAttr) : Bytes :=
  encodeKind item.kind item.version ++ item.payload

/-- The bytes of some attributes. -/
def attrBytes (items : List DiskAttr) : Bytes := items.flatMap DiskAttr.encode

/-- The bytes that are left at each boundary of some attributes, with the end. -/
def attrBounds : List DiskAttr → List Nat
  | [] => [0]
  | item :: items => (attrBytes (item :: items)).length :: attrBounds items

/-- What `decode_xsize` adds for an attribute. -/
def DiskAttr.xsize (version : Nat) : DiskAttr → Nat
  | .fixed _ _ _ => 0
  | .idata ver data => if ver = version then 4 + data.length - 2 else 0
  | .xattr ver _ body => if ver = version then 4 + body.length else 0

theorem DiskAttr.xsize_idata (version ver : Nat) (data : Bytes) :
    (DiskAttr.idata ver data).xsize version =
      if ver = version then 4 + data.length - 2 else 0 := rfl

theorem DiskAttr.xsize_xattr (version ver atom : Nat) (body : Bytes) :
    (DiskAttr.xattr ver atom body).xsize version =
      if ver = version then 4 + body.length else 0 := rfl

/-- What `decode_xsize` adds up. -/
def attrsXsize (version : Nat) (items : List DiskAttr) : Nat :=
  (items.map (DiskAttr.xsize version)).sum

/-- An attribute that `decode_attrs` steps over as `decode_xsize` does: one of another version has no
data beyond its size in the table, and one of this version has a kind that is decoded. -/
def DiskAttr.SameStep (version : Nat) : DiskAttr → Prop
  | .fixed kind ver _ => ver = version → kind ≤ mtimeAttr
  | .idata ver data => ver ≠ version ∧ data = []
  | .xattr ver _ body => ver ≠ version → body = []

/-! ## The loops with their boundaries -/

/-- The loop of `decode_xsize`, with the bytes that are left at each turn and at the end. -/
def decodeXsizeTrace (version : Nat) : Nat → Bytes → Nat → Except TuxError (Nat × List Nat)
  | 0, _, _ => .error .fuel
  | fuel + 1, attrs, total =>
      if 1 < attrs.length then do
        let ((kind, ver), attrs') ← decoded (decodeKind attrs)
        if kind = xattrAttr ∨ kind = idataAttr then
          let (bytes, attrs') ← decoded (decode16 attrs')
          let (total, lefts) ← decodeXsizeTrace version fuel (attrs'.drop bytes)
            (if ver = version then total + (4 + bytes - 2) else total)
          return (total, attrs.length :: lefts)
        else
          let (total, lefts) ← decodeXsizeTrace version fuel (attrs'.drop (atsize kind)) total
          return (total, attrs.length :: lefts)
      else return (total, [attrs.length])

/-- The loop of `decode_attrs`, with the bytes that are left at each turn and at the end, which a
`return NULL` does not reach. -/
def decodeAttrsTrace (version : Nat) :
    Nat → Bytes → InodeAttrs → Root → Except TuxError (InodeAttrs × List Nat)
  | 0, _, _, _ => .error .fuel
  | fuel + 1, attrs, inode, root =>
      if 1 < attrs.length then do
        let ((kind, ver), attrs') ← decoded (decodeKind attrs)
        if ver ≠ version then
          let (inode, lefts) ←
            decodeAttrsTrace version fuel (attrs'.drop (atsize kind)) inode root
          return (inode, attrs.length :: lefts)
        else
          match ← decodeAttr inode root kind attrs' with
          | none => return (inode, [attrs.length])
          | some (inode, root, attrs') =>
              let (inode, lefts) ← decodeAttrsTrace version fuel attrs' inode root
              return (inode, attrs.length :: lefts)
      else return ({ inode with root := root }, [attrs.length])

section Trace

variable {version fuel total total' : Nat} {attrs rest : Bytes} {inode inode' : InodeAttrs}
  {root : Root} {lefts : List Nat}

/-- The loop of `decode_xsize`, without what is recorded. -/
theorem decodeXsizeTrace_loop
    (h : decodeXsizeTrace version fuel attrs total = .ok (total', lefts)) :
    decodeXsizeLoop version fuel attrs total = .ok total' := by
  induction fuel generalizing attrs total lefts with
  | zero => cases h
  | succ fuel ih =>
      unfold decodeXsizeTrace at h
      unfold decodeXsizeLoop
      split at h
      · rename_i hmore
        rw [if_pos hmore]
        obtain ⟨⟨⟨kind, ver⟩, attrs'⟩, hkind, h⟩ := bind_eq_ok.mp h
        rw [bind_of_ok hkind]
        dsimp only at h ⊢
        split at h
        · rename_i hvar
          rw [if_pos hvar]
          obtain ⟨⟨bytes, attrs''⟩, hbytes, h⟩ := bind_eq_ok.mp h
          rw [bind_of_ok hbytes]
          obtain ⟨⟨sum, more⟩, hrest, h⟩ := bind_eq_ok.mp h
          obtain ⟨rfl, -⟩ := Prod.mk.inj (Except.ok.inj h)
          exact ih hrest
        · rename_i hvar
          rw [if_neg hvar]
          obtain ⟨⟨sum, more⟩, hrest, h⟩ := bind_eq_ok.mp h
          obtain ⟨rfl, -⟩ := Prod.mk.inj (Except.ok.inj h)
          exact ih hrest
      · rename_i hend
        rw [if_neg hend]
        obtain ⟨rfl, -⟩ := Prod.mk.inj (Except.ok.inj h)
        rfl

/-- The loop of `decode_attrs`, without what is recorded. -/
theorem decodeAttrsTrace_loop
    (h : decodeAttrsTrace version fuel attrs inode root = .ok (inode', lefts)) :
    decodeAttrsLoop version fuel attrs inode root = .ok inode' := by
  induction fuel generalizing attrs inode root lefts with
  | zero => cases h
  | succ fuel ih =>
      unfold decodeAttrsTrace at h
      unfold decodeAttrsLoop
      split at h
      · rename_i hmore
        rw [if_pos hmore]
        obtain ⟨⟨⟨kind, ver⟩, attrs'⟩, hkind, h⟩ := bind_eq_ok.mp h
        rw [bind_of_ok hkind]
        dsimp only at h ⊢
        split at h
        · rename_i hver
          rw [if_pos hver]
          obtain ⟨⟨last, more⟩, hrest, h⟩ := bind_eq_ok.mp h
          obtain ⟨rfl, -⟩ := Prod.mk.inj (Except.ok.inj h)
          exact ih hrest
        · rename_i hver
          rw [if_neg hver]
          obtain ⟨next, hattr, h⟩ := bind_eq_ok.mp h
          rw [bind_of_ok hattr]
          cases next with
          | none =>
              obtain ⟨rfl, -⟩ := Prod.mk.inj (Except.ok.inj h)
              rfl
          | some next =>
              obtain ⟨⟨last, more⟩, hrest, h⟩ := bind_eq_ok.mp h
              obtain ⟨rfl, -⟩ := Prod.mk.inj (Except.ok.inj h)
              exact ih hrest
      · rename_i hend
        rw [if_neg hend]
        obtain ⟨rfl, -⟩ := Prod.mk.inj (Except.ok.inj h)
        rfl

/-- The first boundary is where the loop begins. -/
theorem decodeAttrsTrace_head
    (h : decodeAttrsTrace version fuel attrs inode root = .ok (inode', lefts)) :
    ∃ more, lefts = attrs.length :: more := by
  cases fuel with
  | zero => cases h
  | succ fuel =>
      unfold decodeAttrsTrace at h
      split at h
      · obtain ⟨⟨⟨kind, ver⟩, attrs'⟩, -, h⟩ := bind_eq_ok.mp h
        dsimp only at h
        split at h
        · obtain ⟨⟨last, more⟩, -, h⟩ := bind_eq_ok.mp h
          exact ⟨more, (Prod.mk.inj (Except.ok.inj h)).2.symm⟩
        · obtain ⟨next, -, h⟩ := bind_eq_ok.mp h
          cases next with
          | none => exact ⟨[], (Prod.mk.inj (Except.ok.inj h)).2.symm⟩
          | some next =>
              obtain ⟨⟨last, more⟩, -, h⟩ := bind_eq_ok.mp h
              exact ⟨more, (Prod.mk.inj (Except.ok.inj h)).2.symm⟩
      · exact ⟨[], (Prod.mk.inj (Except.ok.inj h)).2.symm⟩

end Trace

/-! ## The boundaries of the attributes -/

section Bounds

variable {version : Nat} {item : DiskAttr} {items : List DiskAttr}

theorem attrBytes_cons (item : DiskAttr) (items : List DiskAttr) :
    attrBytes (item :: items) = item.encode ++ attrBytes items := rfl

theorem attrsXsize_cons (version : Nat) (item : DiskAttr) (items : List DiskAttr) :
    attrsXsize version (item :: items) = item.xsize version + attrsXsize version items := rfl

theorem DiskAttr.length_encode (item : DiskAttr) :
    item.encode.length = 2 + item.payload.length := by
  unfold DiskAttr.encode
  rw [List.length_append, encodeKind_length]

theorem DiskAttr.two_le_length (item : DiskAttr) : 2 ≤ item.encode.length := by
  rw [item.length_encode]
  exact Nat.le_add_right 2 _

/-- The loops go on where an attribute is left. -/
theorem DiskAttr.more (item : DiskAttr) (rest : Bytes) : 1 < (item.encode ++ rest).length := by
  have hlen := item.two_le_length
  rw [List.length_append]
  omega

/-- The head of an attribute is read back. -/
theorem DiskAttr.decodeKind_encode (hok : item.Ok) (rest : Bytes) :
    decoded (decodeKind (item.encode ++ rest)) =
      .ok ((item.kind, item.version), item.payload ++ rest) := by
  have hbits : item.kind < 2 ^ 4 ∧ item.version < 2 ^ 12 := by
    cases item with
    | fixed kind ver body => exact ⟨hok.1, hok.2.2.2.1⟩
    | idata ver data => exact ⟨(by decide : idataAttr < 2 ^ 4), hok.1⟩
    | xattr ver atom body => exact ⟨(by decide : xattrAttr < 2 ^ 4), hok.1⟩
  unfold DiskAttr.encode
  rw [List.append_assoc, decodeKind_encodeKind hbits.1 hbits.2]
  rfl

theorem attrBounds_ne_nil (items : List DiskAttr) : attrBounds items ≠ [] := by
  cases items <;> exact List.cons_ne_nil _ _

/-- The boundaries begin with all that is left. -/
theorem attrBounds_head (items : List DiskAttr) :
    ∃ more, attrBounds items = (attrBytes items).length :: more := by
  cases items with
  | nil => exact ⟨[], rfl⟩
  | cons item items => exact ⟨_, rfl⟩

theorem length_le_attrBytes (items : List DiskAttr) : items.length ≤ (attrBytes items).length := by
  induction items with
  | nil => exact Nat.le_refl 0
  | cons item items ih =>
      have hitem := item.two_le_length
      rw [attrBytes_cons, List.length_cons, List.length_append]
      omega

/-- An attribute takes no less room on disk than in memory. -/
theorem attrsXsize_le (version : Nat) (items : List DiskAttr) :
    attrsXsize version items ≤ (attrBytes items).length := by
  induction items with
  | nil => exact Nat.le_refl 0
  | cons item items ih =>
      have hitem : item.xsize version ≤ item.encode.length := by
        rw [item.length_encode]
        cases item with
        | fixed kind ver body => exact Nat.zero_le _
        | idata ver data =>
            unfold DiskAttr.payload
            rw [DiskAttr.xsize_idata, List.length_append, encode16_length]
            split <;> omega
        | xattr ver atom body =>
            unfold DiskAttr.payload
            rw [DiskAttr.xsize_xattr, List.length_append, List.length_append, encode16_length,
              encode16_length]
            split <;> omega
      rw [attrBytes_cons, attrsXsize_cons, List.length_append]
      omega

end Bounds

/-! ## `decode_xsize` -/

section Xsize

variable {version fuel total : Nat} {item : DiskAttr} {items : List DiskAttr} {rest : Bytes}

/-- `decode_xsize` steps over a whole attribute. -/
theorem decodeXsizeTrace_item (hok : item.Ok) :
    decodeXsizeTrace version (fuel + 1) (item.encode ++ rest) total = (do
      let (total, lefts) ← decodeXsizeTrace version fuel rest (total + item.xsize version)
      return (total, (item.encode ++ rest).length :: lefts)) := by
  rw [decodeXsizeTrace, if_pos (item.more rest), bind_of_ok (DiskAttr.decodeKind_encode hok rest)]
  cases item with
  | fixed kind ver body =>
      obtain ⟨-, hidata, hxattr, -, hbody⟩ := hok
      unfold DiskAttr.kind DiskAttr.payload
      dsimp only
      rw [if_neg (not_or.mpr ⟨hxattr, hidata⟩), List.drop_left' hbody]
      rfl
  | idata ver data =>
      have hsize : decoded (decode16 (encode16 data.length ++ data ++ rest)) =
          .ok (data.length, data ++ rest) := by
        rw [List.append_assoc, decode16_encode16 hok.2]
        rfl
      unfold DiskAttr.kind DiskAttr.payload DiskAttr.version
      dsimp only
      rw [if_pos (Or.inr rfl), bind_of_ok hsize]
      dsimp only
      rw [List.drop_left, DiskAttr.xsize_idata]
      obtain rfl | hne := eq_or_ne ver version
      · rw [if_pos rfl, if_pos rfl]
      · rw [if_neg hne, if_neg hne, Nat.add_zero]
  | xattr ver atom body =>
      have hsize : decoded (decode16 (encode16 (body.length + 2) ++ (encode16 atom ++ body) ++
          rest)) = .ok (body.length + 2, encode16 atom ++ body ++ rest) := by
        rw [List.append_assoc, decode16_encode16 hok.2.2]
        rfl
      unfold DiskAttr.kind DiskAttr.payload DiskAttr.version
      dsimp only
      rw [if_pos (Or.inl rfl), bind_of_ok hsize]
      dsimp only
      rw [List.drop_left' (by rw [List.length_append, encode16_length, Nat.add_comm]),
        DiskAttr.xsize_xattr]
      obtain rfl | hne := eq_or_ne ver version
      · rw [if_pos rfl, if_pos rfl]
        rfl
      · rw [if_neg hne, if_neg hne, Nat.add_zero]

/-- `decode_xsize` finds all the boundaries, and adds up the attributes of its version. -/
theorem decodeXsizeTrace_items (hok : ∀ item ∈ items, item.Ok) (hfuel : items.length < fuel) :
    decodeXsizeTrace version fuel (attrBytes items) total =
      .ok (total + attrsXsize version items, attrBounds items) := by
  induction items generalizing fuel total with
  | nil =>
      cases fuel with
      | zero => cases hfuel
      | succ fuel => rfl
  | cons item items ih =>
      cases fuel with
      | zero => cases hfuel
      | succ fuel =>
          rw [attrBytes_cons, decodeXsizeTrace_item (hok item (List.mem_cons_self ..)),
            bind_of_ok (ih (fun x hx => hok x (List.mem_cons_of_mem _ hx))
              (Nat.lt_of_succ_lt_succ hfuel)), attrsXsize_cons, ← Nat.add_assoc]
          rfl

end Xsize

/-! ## `decode_attrs` -/

/-- The bytes of the cache that are in use. -/
def xcacheUsed (inode : InodeAttrs) : Nat :=
  match inode.xcache with
  | none => 0
  | some xcache => xcache.size

/-- The cache has room for some more bytes. -/
def XcacheRoom (inode : InodeAttrs) (more : Nat) : Prop :=
  more = 0 ∨ ∃ xcache, inode.xcache = some xcache ∧ xcache.size + more ≤ xcache.maxsize ∧
    xcache.maxsize < 2 ^ 16

section Attrs

variable {version fuel kind : Nat} {inode inode' : InodeAttrs} {root : Root} {item : DiskAttr}
  {items : List DiskAttr} {attrs body rest : Bytes} {lefts : List Nat}

theorem decoded_readBe {w : Nat} (h : w ≤ attrs.length) :
    decoded (readBe w attrs) = .ok (ofBe (attrs.take w), attrs.drop w) := by
  unfold readBe
  rw [if_pos h]
  rfl

/-- A value of fixed size is decoded, and the cache is left alone. -/
theorem decodeAttr_fixed (hkind : kind ≤ mtimeAttr) (hbody : body.length = atsize kind) :
    ∃ inode' root', decodeAttr inode root kind (body ++ rest) = .ok (some (inode', root', rest)) ∧
      inode'.xcache = inode.xcache := by
  have hdrop : (body ++ rest).drop (atsize kind) = rest := List.drop_left' hbody
  have hle : atsize kind ≤ (body ++ rest).length := by
    rw [List.length_append]
    omega
  generalize body ++ rest = attrs at hdrop hle
  subst hdrop
  have h64 : ∀ n, n + 8 ≤ attrs.length → decoded (decode64 (attrs.drop n)) =
      .ok (ofBe ((attrs.drop n).take 8), attrs.drop (n + 8)) := by
    intro n hn
    rw [← List.drop_drop]
    exact decoded_readBe (by rw [List.length_drop]; omega)
  have h32 : ∀ n, n + 4 ≤ attrs.length → decoded (decode32 (attrs.drop n)) =
      .ok (ofBe ((attrs.drop n).take 4), attrs.drop (n + 4)) := by
    intro n hn
    rw [← List.drop_drop]
    exact decoded_readBe (by rw [List.length_drop]; omega)
  unfold mtimeAttr at hkind
  obtain rfl | rfl | rfl | rfl | rfl | rfl : kind = 0 ∨ kind = 1 ∨ kind = 2 ∨ kind = 3 ∨
    kind = 4 ∨ kind = 5 := by omega
  · refine ⟨_, _, bind_of_ok (h64 0 hle), ?_⟩
    rfl
  · refine ⟨_, _, (bind_of_ok (h32 0 (by exact Nat.le_trans (by decide) hle))).trans
      ((bind_of_ok (h32 4 (Nat.le_trans (by decide) hle))).trans (bind_of_ok (h32 8 hle))), ?_⟩
    rfl
  · refine ⟨_, _, bind_of_ok (h64 0 hle), ?_⟩
    rfl
  · refine ⟨_, _, (bind_of_ok (h64 0 (Nat.le_trans (by decide) hle))).trans
      (bind_of_ok (h64 8 hle)), ?_⟩
    rfl
  · refine ⟨_, _, bind_of_ok (h32 0 hle), ?_⟩
    rfl
  · refine ⟨_, _, bind_of_ok (h64 0 hle), ?_⟩
    rfl

/-- An attribute of another version is skipped by its size in the table. -/
theorem decodeAttrsTrace_foreign (hok : item.Ok) (hne : item.version ≠ version) :
    decodeAttrsTrace version (fuel + 1) (item.encode ++ rest) inode root = (do
      let (last, lefts) ← decodeAttrsTrace version fuel
        ((item.payload ++ rest).drop (atsize item.kind)) inode root
      return (last, (item.encode ++ rest).length :: lefts)) := by
  rw [decodeAttrsTrace, if_pos (item.more rest), bind_of_ok (DiskAttr.decodeKind_encode hok rest)]
  exact if_pos hne

/-- An attribute of this version is decoded. -/
theorem decodeAttrsTrace_own (hok : item.Ok) (heq : item.version = version)
    {inode' : InodeAttrs} {root' : Root} {attrs' : Bytes}
    (hattr : decodeAttr inode root item.kind (item.payload ++ rest) =
      .ok (some (inode', root', attrs'))) :
    decodeAttrsTrace version (fuel + 1) (item.encode ++ rest) inode root = (do
      let (last, lefts) ← decodeAttrsTrace version fuel attrs' inode' root'
      return (last, (item.encode ++ rest).length :: lefts)) := by
  rw [decodeAttrsTrace, if_pos (item.more rest), bind_of_ok (DiskAttr.decodeKind_encode hok rest)]
  dsimp only
  rw [if_neg (not_not_intro heq), bind_of_ok hattr]

/-- At an attribute of this version that it does not know, `decode_attrs` ends. -/
theorem decodeAttrsTrace_unknown (hok : item.Ok) (heq : item.version = version)
    (hattr : decodeAttr inode root item.kind (item.payload ++ rest) = .ok none) :
    decodeAttrsTrace version (fuel + 1) (item.encode ++ rest) inode root =
      .ok (inode, [(item.encode ++ rest).length]) := by
  rw [decodeAttrsTrace, if_pos (item.more rest), bind_of_ok (DiskAttr.decodeKind_encode hok rest)]
  dsimp only
  rw [if_neg (not_not_intro heq), bind_of_ok hattr]
  rfl

theorem XcacheRoom.of_add {n more : Nat} (h : XcacheRoom inode (n + more)) :
    XcacheRoom inode more := by
  obtain hzero | ⟨xcache, hcache, hroom, hmax⟩ := h
  · exact Or.inl (Nat.eq_zero_of_add_eq_zero_left hzero)
  · exact Or.inr ⟨xcache, hcache, by omega, hmax⟩

/-- `decode_attrs` steps over a whole attribute that it knows, and uses what `decode_xsize` has
found for it. -/
theorem decodeAttrsTrace_item {more : Nat} (hok : item.Ok) (hsame : item.SameStep version)
    (hroom : XcacheRoom inode (item.xsize version + more)) :
    ∃ inode' root', decodeAttrsTrace version (fuel + 1) (item.encode ++ rest) inode root = (do
      let (last, lefts) ← decodeAttrsTrace version fuel rest inode' root'
      return (last, (item.encode ++ rest).length :: lefts)) ∧
      XcacheRoom inode' more ∧ xcacheUsed inode' = xcacheUsed inode + item.xsize version := by
  cases item with
  | fixed kind ver body =>
      obtain ⟨-, -, -, -, hbody⟩ := id hok
      obtain rfl | hne := eq_or_ne ver version
      · obtain ⟨inode', root', hattr, hcache⟩ :=
          @decodeAttr_fixed kind inode root body rest (hsame rfl) hbody
        refine ⟨inode', root', decodeAttrsTrace_own hok rfl hattr, ?_, ?_⟩
        · unfold XcacheRoom
          rw [hcache]
          exact hroom.of_add
        · unfold xcacheUsed
          rw [hcache]
          rfl
      · refine ⟨inode, root, ?_, hroom.of_add, rfl⟩
        rw [decodeAttrsTrace_foreign hok hne]
        unfold DiskAttr.payload DiskAttr.kind
        dsimp only
        rw [List.drop_left' hbody]
  | idata ver data =>
      obtain ⟨hne, rfl⟩ := hsame
      refine ⟨inode, root, ?_, hroom.of_add, by rw [DiskAttr.xsize_idata, if_neg hne]; rfl⟩
      rw [decodeAttrsTrace_foreign hok hne]
      rfl
  | xattr ver atom body =>
      obtain rfl | hne := eq_or_ne ver version
      · rw [DiskAttr.xsize_xattr, if_pos rfl] at hroom ⊢
        obtain ⟨-, hatom, -⟩ := id hok
        obtain hzero | ⟨xcache, hcache, hle, hmax⟩ := hroom
        · omega
        obtain ⟨inode', hattr, hcache'⟩ : ∃ inode', decodeXattr inode
            (encode16 (body.length + 2) ++ (encode16 atom ++ (body ++ rest))) = .ok (inode', rest) ∧
            inode'.xcache = some { xcache with
              size := xcache.size + (4 + body.length)
              xattrs := xcache.xattrs ++ [⟨atom, body⟩] } :=
          ⟨_, @decodeXattr_encodeXattr inode rest ⟨atom, body⟩ xcache hcache
            (by unfold XcacheEntry.len; dsimp only; omega) hmax hatom, rfl⟩
        have hdecode : decodeAttr inode root (DiskAttr.xattr ver atom body).kind
            ((DiskAttr.xattr ver atom body).payload ++ rest) = .ok (some ({ inode' with
              present := inode'.present ||| 2 ^ xattrAttr }, root, rest)) := by
          unfold DiskAttr.payload
          dsimp only
          rw [List.append_assoc, List.append_assoc]
          exact bind_of_ok hattr
        refine ⟨_, _, decodeAttrsTrace_own hok rfl hdecode, Or.inr ⟨_, hcache', ?_, hmax⟩, ?_⟩
        · dsimp only
          omega
        · unfold xcacheUsed
          rw [hcache, hcache']
      · obtain rfl := hsame hne
        refine ⟨inode, root, ?_, hroom.of_add, by rw [DiskAttr.xsize_xattr, if_neg hne]; rfl⟩
        rw [decodeAttrsTrace_foreign hok hne]
        rfl

/-- `decode_attrs` finds all the boundaries, and fills what `decode_xsize` has found. -/
theorem decodeAttrsTrace_items (hok : ∀ item ∈ items, item.Ok)
    (hsame : ∀ item ∈ items, item.SameStep version) (hfuel : items.length < fuel)
    (hroom : XcacheRoom inode (attrsXsize version items)) :
    ∃ inode', decodeAttrsTrace version fuel (attrBytes items) inode root =
        .ok (inode', attrBounds items) ∧
      xcacheUsed inode' = xcacheUsed inode + attrsXsize version items := by
  induction items generalizing fuel inode root with
  | nil =>
      cases fuel with
      | zero => cases hfuel
      | succ fuel => exact ⟨{ inode with root := root }, rfl, rfl⟩
  | cons item items ih =>
      cases fuel with
      | zero => cases hfuel
      | succ fuel =>
          rw [attrsXsize_cons] at hroom ⊢
          obtain ⟨inode', root', hstep, hroom', hused⟩ :=
            @decodeAttrsTrace_item version fuel inode root item (attrBytes items) _
              (hok item (List.mem_cons_self ..)) (hsame item (List.mem_cons_self ..)) hroom
          obtain ⟨last, hrest, hlast⟩ := @ih fuel inode' root'
            (fun x hx => hok x (List.mem_cons_of_mem _ hx))
            (fun x hx => hsame x (List.mem_cons_of_mem _ hx))
            (Nat.lt_of_succ_lt_succ hfuel) hroom'
          refine ⟨last, ?_, by rw [hlast, hused, Nat.add_assoc]⟩
          rw [attrBytes_cons, hstep, bind_of_ok hrest]
          rfl

/-- Where `decode_attrs` skips less than the payload, it goes on at no boundary. -/
theorem decodeAttrsTrace_short (hok : item.Ok) (hne : item.version ≠ version) {data : Bytes}
    (hdrop : (item.payload ++ attrBytes items).drop (atsize item.kind) = data ++ attrBytes items)
    (h : decodeAttrsTrace version (fuel + 1) (item.encode ++ attrBytes items) inode root =
      .ok (inode', attrBounds (item :: items))) : data = [] := by
  rw [decodeAttrsTrace_foreign hok hne, hdrop] at h
  obtain ⟨⟨last, lefts⟩, hrest, h⟩ := bind_eq_ok.mp h
  obtain ⟨more, rfl⟩ := decodeAttrsTrace_head hrest
  obtain ⟨more', hbounds⟩ := attrBounds_head items
  have htail := (List.cons.inj (Prod.mk.inj (Except.ok.inj h)).2).2
  rw [hbounds] at htail
  have hlength := (List.cons.inj htail).1
  rw [List.length_append] at hlength
  exact List.eq_nil_of_length_eq_zero (by omega)

/-- At an attribute that `decode_attrs` does not know, it misses the boundaries that follow. -/
theorem decodeAttrsTrace_ne_bounds (hok : item.Ok) (heq : item.version = version)
    (hattr : decodeAttr inode root item.kind (item.payload ++ attrBytes items) = .ok none) :
    decodeAttrsTrace version (fuel + 1) (item.encode ++ attrBytes items) inode root ≠
      .ok (inode', attrBounds (item :: items)) := by
  rw [decodeAttrsTrace_unknown hok heq hattr]
  intro h
  have htail := (List.cons.inj (Prod.mk.inj (Except.ok.inj h)).2).2
  exact attrBounds_ne_nil items htail.symm

/-- An attribute with the right boundaries behind it is one that `decode_attrs` steps over. -/
theorem sameStep_of_trace (hok : item.Ok)
    (h : decodeAttrsTrace version (fuel + 1) (item.encode ++ attrBytes items) inode root =
      .ok (inode', attrBounds (item :: items))) : item.SameStep version := by
  cases item with
  | fixed kind ver body =>
      obtain ⟨hbits, hidata, hxattr, -, -⟩ := id hok
      intro hver
      by_contra hkind
      refine decodeAttrsTrace_ne_bounds hok hver ?_ h
      unfold mtimeAttr at hkind
      unfold idataAttr at hidata
      unfold xattrAttr at hxattr
      obtain rfl | rfl | rfl | rfl | rfl | rfl | rfl | rfl : kind = 6 ∨ kind = 7 ∨ kind = 8 ∨
        kind = 9 ∨ kind = 10 ∨ kind = 13 ∨ kind = 14 ∨ kind = 15 := by omega
      all_goals rfl
  | idata ver data =>
      have hne : ver ≠ version := fun hver => decodeAttrsTrace_ne_bounds hok hver rfl h
      exact ⟨hne, decodeAttrsTrace_short hok hne rfl h⟩
  | xattr ver atom body =>
      exact fun hne => decodeAttrsTrace_short hok hne rfl h

/-- Where `decode_attrs` finds all the boundaries, it steps over each attribute. -/
theorem sameSteps_of_trace (hok : ∀ item ∈ items, item.Ok)
    (hroom : XcacheRoom inode (attrsXsize version items))
    (h : decodeAttrsTrace version fuel (attrBytes items) inode root =
      .ok (inode', attrBounds items)) : ∀ item ∈ items, item.SameStep version := by
  induction items generalizing fuel inode root with
  | nil => exact fun item hitem => absurd hitem List.not_mem_nil
  | cons item items ih =>
      cases fuel with
      | zero => cases h
      | succ fuel =>
          have hitem := hok item (List.mem_cons_self ..)
          have hsame := sameStep_of_trace hitem h
          rw [attrsXsize_cons] at hroom
          obtain ⟨next, root', hstep, hroom', -⟩ :=
            @decodeAttrsTrace_item version fuel inode root item (attrBytes items) _
              hitem hsame hroom
          rw [attrBytes_cons, hstep] at h
          obtain ⟨⟨last, lefts⟩, hrest, h⟩ := bind_eq_ok.mp h
          obtain ⟨rfl, hlefts⟩ := Prod.mk.inj (Except.ok.inj h)
          obtain rfl := (List.cons.inj hlefts).2
          exact List.forall_mem_cons.mpr
            ⟨hsame, ih (fun x hx => hok x (List.mem_cons_of_mem _ hx)) hroom' hrest⟩

end Attrs

/-! ## Both passes -/

/-- The inode as `iattr_decode` gives it to `decode_attrs`. -/
def decodeStart (inode : InodeAttrs) (xsize : Nat) : InodeAttrs :=
  if xsize ≠ 0 then { inode with xcache := some (newXcache xsize) } else inode

/-- Both passes step over the boundaries of the attributes up to the end, and `decode_attrs` uses as
much of the cache as `decode_xsize` has found. -/
def StepsAgree (version : Nat) (inode : InodeAttrs) (items : List DiskAttr) : Prop :=
  ∃ xsize inode',
    decodeXsizeTrace version ((attrBytes items).length + 1) (attrBytes items) 0 =
      .ok (xsize, attrBounds items) ∧
    decodeAttrsTrace version ((attrBytes items).length + 1) (attrBytes items)
      (decodeStart inode xsize) noRoot = .ok (inode', attrBounds items) ∧
    xcacheUsed inode' = xcacheUsed (decodeStart inode xsize) + xsize

/-- The passes are those of `iattr_decode`. -/
theorem StepsAgree.iattrDecode {version : Nat} {inode : InodeAttrs} {items : List DiskAttr}
    (h : StepsAgree version inode items) :
    ∃ xsize inode', decodeXsize version (attrBytes items) = .ok xsize ∧
      iattrDecode version inode (attrBytes items) = .ok inode' ∧
      xcacheUsed inode' = xcacheUsed (decodeStart inode xsize) + xsize := by
  obtain ⟨xsize, inode', hsize, hattrs, hused⟩ := h
  have hxsize : decodeXsize version (attrBytes items) = .ok xsize := decodeXsizeTrace_loop hsize
  refine ⟨xsize, inode', hxsize, ?_, hused⟩
  unfold Tux3.iattrDecode
  rw [bind_of_ok hxsize]
  exact decodeAttrsTrace_loop hattrs

/-- The two passes agree on the attributes of an inode if those of variable size that have another
version are empty, and those of this version are all of kinds that are decoded; and only then. -/
theorem stepsAgree_iff (version : Nat) (inode : InodeAttrs) (items : List DiskAttr)
    (hok : ∀ item ∈ items, item.Ok) (hlen : (attrBytes items).length < 2 ^ 16) :
    StepsAgree version inode items ↔ ∀ item ∈ items, item.SameStep version := by
  have hfuel := Nat.lt_succ_of_le (length_le_attrBytes items)
  have hsize := @decodeXsizeTrace_items version _ 0 items hok hfuel
  rw [Nat.zero_add] at hsize
  have hle := attrsXsize_le version items
  have hroom : XcacheRoom (decodeStart inode (attrsXsize version items))
      (attrsXsize version items) := by
    unfold decodeStart
    obtain hzero | hne := eq_or_ne (attrsXsize version items) 0
    · exact Or.inl hzero
    · rw [if_pos hne]
      refine Or.inr ⟨newXcache (attrsXsize version items), rfl, ?_, Nat.mod_lt _ (by decide)⟩
      unfold newXcache
      dsimp only
      rw [Nat.mod_eq_of_lt (by omega), Nat.zero_add]
  constructor
  · intro h
    obtain ⟨xsize, inode', hxsize, hattrs, -⟩ := h
    obtain rfl := (Prod.mk.inj (Except.ok.inj (hsize.symm.trans hxsize))).1
    exact sameSteps_of_trace hok hroom hattrs
  · intro hsame
    obtain ⟨inode', hattrs, hused⟩ := @decodeAttrsTrace_items version _ _ noRoot items hok hsame
      hfuel hroom
    exact ⟨_, inode', hsize, hattrs, hused⟩

/-- A mode and owner of this version, an empty attribute of another, and one of this version. -/
theorem stepsAgree_iff_mixed : StepsAgree 1 freshInode
    [.fixed modeOwnerAttr 1 (List.replicate 12 0), .xattr 2 7 [], .xattr 1 5 [9, 9]] := by
  refine (stepsAgree_iff 1 freshInode _ ?_ (by decide)).mpr ?_
  · refine List.forall_mem_cons.mpr ⟨⟨by decide, by decide, by decide, by decide, by decide⟩, ?_⟩
    refine List.forall_mem_cons.mpr ⟨⟨by decide, by decide, by decide⟩, ?_⟩
    exact List.forall_mem_cons.mpr ⟨⟨by decide, by decide, by decide⟩, fun _ h => nomatch h⟩
  · refine List.forall_mem_cons.mpr ⟨fun _ => by decide, ?_⟩
    refine List.forall_mem_cons.mpr ⟨fun _ => rfl, ?_⟩
    exact List.forall_mem_cons.mpr ⟨fun h => absurd rfl h, fun _ h => nomatch h⟩

set_option maxRecDepth 2000 in
/-- An extended attribute of version 2 with two bytes: `decode_attrs` of version 1 takes them for
the head of another attribute. -/
theorem stepsAgree_foreign :
    DiskAttr.Ok (.xattr 2 7 [0x10, 1]) ∧
      decodeXsizeTrace 1 9 (attrBytes [.xattr 2 7 [0x10, 1]]) 0 = .ok (0, [8, 0]) ∧
      decodeAttrsTrace 1 9 (attrBytes [.xattr 2 7 [0x10, 1]]) freshInode noRoot =
        .error .bounds ∧
      ¬ StepsAgree 1 freshInode [.xattr 2 7 [0x10, 1]] := by
  refine ⟨⟨by decide, by decide, by decide⟩, rfl, rfl, fun h => ?_⟩
  obtain ⟨xsize, inode', hsize, hattrs, -⟩ := h
  have hxsize : decodeXsizeTrace 1 9 (attrBytes [.xattr 2 7 [0x10, 1]]) 0 = .ok (0, [8, 0]) := rfl
  obtain rfl := (Prod.mk.inj (Except.ok.inj (hxsize.symm.trans hsize))).1
  have hrun : decodeAttrsTrace 1 9 (attrBytes [.xattr 2 7 [0x10, 1]]) freshInode noRoot =
    .error .bounds := rfl
  cases hrun.symm.trans hattrs

end Tux3
