/-
  Xattr/List.lean --- `list_xattr`.

  The names go into the buffer one after the other, each with a zero behind it.  A name that fills
  what is left of the buffer is refused, so that the zero has its place; but where nothing is left,
  `unatom` takes its size of zero as a question for the length, and the zero goes behind the end of
  the buffer.  An inode without extended attributes keeps the lock of the atom table.
-/
import Tux3.Xattr.Atom
import Tux3.Xattr.Cache
import Tux3.Lib.Outcome

set_option autoImplicit false

namespace Tux3.Xattr

open BigEndian Dir Outcome

/-! ## The loop of `list_xattr` -/

/-- Whether the reads of `unatom` fail. -/
structure UnatomIo where
  mapFails : Bool
  entryFails : Bool
  deriving DecidableEq, Repr

/-- No read fails. -/
def UnatomIo.none : UnatomIo := ⟨false, false⟩

/-- Some bytes are stored in the buffer. -/
def storeBytes (text : Bytes) (offset : Nat) (bytes : Bytes) : Except TuxError Bytes :=
  if offset + bytes.length ≤ text.length then
    .ok (text.take offset ++ bytes ++ text.drop (offset + bytes.length))
  else .error .bounds

/-- A turn of the loop: an error, or the place of the next name, and the buffer. -/
def listName (sb : AtomSb) (io : UnatomIo) (atom size offset : Nat) (text : Bytes) :
    Except TuxError (Int × Nat × Bytes) := do
  if size ≠ 0 then
    let tail := int32 ((size - offset : Nat) : Int)
    let (len, name) := unatom sb io.mapFails io.entryFails atom (tail % 2 ^ 32).toNat
    if len < 0 then return (len, offset, text)
    let text' ← storeBytes text offset name
    if len = tail then return (-erange, offset, text')
    let text' ← storeBytes text' (offset + len.toNat) [0]
    return (0, offset + len.toNat + 1, text')
  else
    let (len, _) := unatom sb io.mapFails io.entryFails atom 0
    if len < 0 then return (len, offset, text)
    return (0, offset + len.toNat + 1, text)

/-- The loop of `list_xattr`, with the assert behind it.  The entry at `pos` of the cache is read
with `io pos`. -/
def listLoop (sb : AtomSb) (io : Nat → UnatomIo) (xlimit size : Nat) :
    List XcacheEntry → Nat → Nat → Bytes → Except TuxError (Int × Bytes)
  | [], pos, offset, text =>
      if pos < xlimit then .error .bounds
      else do
        tuxAssert (pos = xlimit)
        return (int32 offset, text)
  | xattr :: xattrs, pos, offset, text =>
      if pos < xlimit then do
        let (err, offset', text') ← listName sb (io pos) xattr.atom size offset text
        if err < 0 then return (err, text')
        if xlimit < pos + xattr.len then return (-eio, text')
        listLoop sb io xlimit size xattrs (pos + xattr.len) offset' text'
      else do
        tuxAssert (pos = xlimit)
        return (int32 offset, text)

/-- What `list_xattr` returns and leaves: the buffer, and whether the lock of the atom table is
still held. -/
structure Listed where
  ret : Int
  text : Bytes
  mutexHeld : Bool
  deriving DecidableEq, Repr

/-- `list_xattr`. -/
def listXattr (sb : AtomSb) (io : Nat → UnatomIo) (xcache : Option Xcache) (text : Bytes)
    (size : Nat) : Except TuxError Listed :=
  match xcache with
  | none => return ⟨0, text, true⟩
  | some xcache => do
      let (ret, text') ← listLoop sb io xcache.size size xcache.xattrs 0 0 text
      return ⟨ret, text', false⟩

/-! ## Names -/

/-- The directory entry of an atom. -/
def AtomSb.entry (sb : AtomSb) (atom : Nat) : Dir.Dirent :=
  sb.dict.data ((sb.unatom atom).toNat / sb.dict.blocksize)
    ((sb.unatom atom).toNat % sb.dict.blocksize)

/-- The name of an atom. -/
def AtomSb.name (sb : AtomSb) (atom : Nat) : Bytes := (sb.entry atom).name

/-- The reverse map leads to the entry of the atom. -/
structure AtomSb.Named (sb : AtomSb) (atom : Nat) : Prop where
  pos_ge : 0 ≤ sb.unatom atom
  inum_eq : (sb.entry atom).inum % 2 ^ 32 = atom
  name_length : (sb.name atom).length = (sb.entry atom).nameLen
  name_le : (sb.name atom).length ≤ 255

/-- The names of some entries, each with a zero behind it. -/
def listedNames (sb : AtomSb) (xattrs : List XcacheEntry) : Bytes :=
  xattrs.flatMap fun xattr => sb.name xattr.atom ++ [0]

theorem listedNames_cons (sb : AtomSb) (xattr : XcacheEntry) (xattrs : List XcacheEntry) :
    listedNames sb (xattr :: xattrs) = sb.name xattr.atom ++ [0] ++ listedNames sb xattrs := rfl

theorem length_listedNames_cons (sb : AtomSb) (xattr : XcacheEntry) (xattrs : List XcacheEntry) :
    (listedNames sb (xattr :: xattrs)).length =
      (sb.name xattr.atom).length + 1 + (listedNames sb xattrs).length := by
  rw [listedNames_cons, List.length_append, List.length_append, List.length_singleton]

/-- The names of a cache are some megabytes at most. -/
theorem length_listedNames_le {sb : AtomSb} {xattrs : List XcacheEntry}
    (hnamed : ∀ xattr ∈ xattrs, sb.Named xattr.atom) :
    (listedNames sb xattrs).length ≤ 64 * entriesLen xattrs := by
  induction xattrs with
  | nil => exact Nat.le_refl 0
  | cons xattr xattrs ih =>
      have hrest := ih fun x hx => hnamed x (List.mem_cons_of_mem _ hx)
      have hname := (hnamed xattr (List.mem_cons_self ..)).name_le
      have hlen : 4 ≤ xattr.len := Nat.le_add_right 4 _
      rw [length_listedNames_cons, entriesLen_cons]
      omega

/-! ## What `unatom` returns -/

section Unatom

variable {sb : AtomSb} {atom size : Nat}

/-- The length of a name, and the name where it is asked for and has room. -/
theorem unatom_named (hnamed : sb.Named atom) :
    unatom sb false false atom size =
      if size = 0 then (((sb.name atom).length : Int), [])
      else if size < (sb.name atom).length then (-erange, [])
      else (((sb.name atom).length : Int), sb.name atom) := by
  unfold unatom unatomDictRead
  have hinum := hnamed.inum_eq
  have hlength := hnamed.name_length
  unfold AtomSb.entry at hinum hlength
  dsimp only
  rw [if_neg Bool.false_ne_true, if_neg (not_lt.mpr hnamed.pos_ge), if_neg Bool.false_ne_true,
    if_neg (not_not_intro hinum), hlength]
  obtain rfl | hsize := eq_or_ne size 0
  · rw [if_neg (not_not_intro rfl), if_pos rfl]
  · rw [if_pos hsize, if_neg hsize]
    rfl

/-- A read that fails is the only difference that the buffers make. -/
theorem unatom_io (io : UnatomIo) :
    unatom sb io.mapFails io.entryFails atom size = unatom sb false false atom size ∨
      ∃ err : Int, err < 0 ∧ unatom sb io.mapFails io.entryFails atom size = (err, []) := by
  obtain ⟨mapFails, entryFails⟩ := io
  cases mapFails with
  | true => exact Or.inr ⟨-eio, by decide, rfl⟩
  | false =>
      cases entryFails with
      | false => exact Or.inl rfl
      | true =>
          right
          unfold unatom
          dsimp only
          by_cases hpos : unatomDictRead sb false atom < 0
          · exact ⟨_, hpos, if_pos hpos⟩
          · exact ⟨-eio, by decide, by rw [if_neg hpos, if_pos rfl]⟩

end Unatom

/-! ## What a turn stores -/

section Store

variable {text text' : Bytes} {offset : Nat} {bytes pre post : Bytes}

/-- What a store in the buffer leaves alone. -/
structure Kept (offset : Nat) (text text' : Bytes) : Prop where
  length_eq : text'.length = text.length
  getElem_eq : ∀ i < offset, text'[i]? = text[i]?

theorem Kept.rfl : Kept offset text text := ⟨Eq.refl _, fun _ _ => Eq.refl _⟩

theorem Kept.trans {text'' : Bytes} {offset' : Nat} (h : Kept offset text text')
    (h' : Kept offset' text' text'') (hle : offset ≤ offset') : Kept offset text text'' :=
  ⟨h'.length_eq.trans h.length_eq, fun i hi =>
    (h'.getElem_eq i (Nat.lt_of_lt_of_le hi hle)).trans (h.getElem_eq i hi)⟩

theorem storeBytes_kept (h : storeBytes text offset bytes = .ok text') :
    Kept offset text text' := by
  unfold storeBytes at h
  split at h
  · rename_i hle
    obtain rfl := Except.ok.inj h
    refine ⟨?_, fun i hi => ?_⟩
    · rw [List.length_append, List.length_append, List.length_take, List.length_drop]
      omega
    · rw [List.append_assoc, List.getElem?_append_left (by rw [List.length_take]; omega),
        List.getElem?_take_of_lt hi]
  · cases h

/-- A store behind what is there already. -/
theorem storeBytes_append (hle : bytes.length ≤ post.length) :
    storeBytes (pre ++ post) pre.length bytes =
      .ok (pre ++ bytes ++ post.drop bytes.length) := by
  unfold storeBytes
  rw [if_pos (by rw [List.length_append]; omega), List.take_left, List.drop_append,
    List.drop_of_length_le (Nat.le_add_right _ _), Nat.add_sub_cancel_left, List.nil_append]

end Store

section Turn

variable {sb : AtomSb} {io : UnatomIo} {atom size offset offset' : Nat} {text text' : Bytes}
  {err : Int}

/-- A turn keeps what is in the buffer before its name. -/
theorem listName_kept (h : listName sb io atom size offset text = .ok (err, offset', text')) :
    offset ≤ offset' ∧ Kept offset text text' := by
  unfold listName at h
  split at h
  · generalize unatom sb io.mapFails io.entryFails atom
      (int32 ((size - offset : Nat) : Int) % 2 ^ 32).toNat = r at h
    obtain ⟨len, name⟩ := r
    dsimp only at h
    split at h
    · obtain ⟨-, rfl, rfl⟩ := h
      exact ⟨Nat.le_refl _, Kept.rfl⟩
    · obtain ⟨mid, hmid, h⟩ := bind_eq_ok.mp h
      split at h
      · obtain ⟨-, rfl, rfl⟩ := h
        exact ⟨Nat.le_refl _, storeBytes_kept hmid⟩
      · obtain ⟨last, hlast, h⟩ := bind_eq_ok.mp h
        obtain ⟨-, rfl, rfl⟩ := h
        exact ⟨by omega,
          (storeBytes_kept hmid).trans (storeBytes_kept hlast) (Nat.le_add_right _ _)⟩
  · generalize unatom sb io.mapFails io.entryFails atom 0 = r at h
    obtain ⟨len, name⟩ := r
    dsimp only at h
    split at h
    · obtain ⟨-, rfl, rfl⟩ := h
      exact ⟨Nat.le_refl _, Kept.rfl⟩
    · obtain ⟨-, rfl, rfl⟩ := h
      exact ⟨by omega, Kept.rfl⟩

/-- Where a read fails, the turn ends with its error and stores nothing. -/
theorem listName_io (sb : AtomSb) (io : UnatomIo) (atom size offset : Nat) (text : Bytes) :
    listName sb io atom size offset text = listName sb UnatomIo.none atom size offset text ∨
      ∃ err : Int, err < 0 ∧
        listName sb io atom size offset text = .ok (err, offset, text) := by
  unfold listName
  obtain rfl | hsize := eq_or_ne size 0
  · rw [if_neg (not_not_intro rfl), if_neg (not_not_intro rfl)]
    obtain heq | ⟨err, hneg, heq⟩ := @unatom_io sb atom 0 io
    · exact Or.inl (by rw [heq]; rfl)
    · refine Or.inr ⟨err, hneg, ?_⟩
      rw [heq]
      exact if_pos hneg
  · rw [if_pos hsize, if_pos hsize]
    dsimp only
    obtain heq | ⟨err, hneg, heq⟩ := @unatom_io sb atom
      (int32 ((size - offset : Nat) : Int) % 2 ^ 32).toNat io
    · exact Or.inl (by rw [heq]; rfl)
    · refine Or.inr ⟨err, hneg, ?_⟩
      rw [heq]
      exact if_pos hneg

/-- The size that `unatom` gets is what is left, modulo the range of `unsigned`. -/
theorem tail_mod (rest : Nat) : (int32 (rest : Int) % 2 ^ 32).toNat = rest % 2 ^ 32 := by
  unfold int32
  split <;> omega

theorem eq_tail_iff {len rest : Nat} (hlen : len < 2 ^ 31) :
    (len : Int) = int32 (rest : Int) ↔ rest % 2 ^ 32 = len := by
  unfold int32
  split <;> omega

variable {pre post : Bytes}

/-- Without a buffer the place of the next name is counted. -/
theorem listName_query (hnamed : sb.Named atom) :
    listName sb UnatomIo.none atom 0 offset text =
      .ok (0, offset + (sb.name atom).length + 1, text) := by
  unfold listName UnatomIo.none
  rw [if_neg (not_not_intro rfl)]
  dsimp only
  rw [unatom_named hnamed, if_pos rfl]
  dsimp only
  rw [if_neg (by omega)]
  rfl

/-- The setup of a turn with a buffer. -/
theorem listName_eq (hnamed : sb.Named atom) (hsize : pre.length + post.length = size)
    (hne : size ≠ 0) :
    listName sb UnatomIo.none atom size pre.length (pre ++ post) = do
      let (len, name) :=
        if post.length % 2 ^ 32 = 0 then (((sb.name atom).length : Int), [])
        else if post.length % 2 ^ 32 < (sb.name atom).length then (-erange, [])
        else (((sb.name atom).length : Int), sb.name atom)
      if len < 0 then return (len, pre.length, pre ++ post)
      let text' ← storeBytes (pre ++ post) pre.length name
      if len = int32 (post.length : Int) then return (-erange, pre.length, text')
      let text' ← storeBytes text' (pre.length + len.toNat) [0]
      return (0, pre.length + len.toNat + 1, text') := by
  have hrest : size - pre.length = post.length := by omega
  unfold listName UnatomIo.none
  rw [if_pos hne, hrest]
  dsimp only
  rw [tail_mod, unatom_named hnamed]

/-- A name with room for its zero is stored. -/
theorem listName_fits (hnamed : sb.Named atom) (hsize : pre.length + post.length = size)
    (hlt : (sb.name atom).length < post.length % 2 ^ 32) :
    listName sb UnatomIo.none atom size pre.length (pre ++ post) =
      .ok (0, (pre ++ (sb.name atom ++ [0])).length,
        pre ++ (sb.name atom ++ [0]) ++ post.drop (sb.name atom ++ [0]).length) := by
  have hle := Nat.mod_le post.length (2 ^ 32)
  have hlen := hnamed.name_le
  rw [listName_eq hnamed hsize (by omega), if_neg (by omega), if_neg (by omega)]
  dsimp only
  rw [if_neg (by omega), bind_of_ok (storeBytes_append (by omega)),
    if_neg (by rw [eq_tail_iff (by omega)]; omega), Int.toNat_natCast]
  have hstore := @storeBytes_append [0] (pre ++ sb.name atom)
    (post.drop (sb.name atom).length) (by rw [List.length_drop, List.length_singleton]; omega)
  rw [List.length_append] at hstore
  rw [bind_of_ok hstore]
  simp only [List.length_append, List.length_singleton, List.append_assoc, List.drop_drop]
  rfl

/-- A name that is as long as what is left, or longer, is refused. -/
theorem listName_refused (hnamed : sb.Named atom) (hsize : pre.length + post.length = size)
    (hne : size ≠ 0) (hle : post.length % 2 ^ 32 ≤ (sb.name atom).length)
    (hzero : post.length % 2 ^ 32 = 0 → sb.name atom = []) :
    ∃ text', listName sb UnatomIo.none atom size pre.length (pre ++ post) =
      .ok (-erange, pre.length, text') := by
  have hmod := Nat.mod_le post.length (2 ^ 32)
  have hlen := hnamed.name_le
  rw [listName_eq hnamed hsize hne]
  by_cases hnone : post.length % 2 ^ 32 = 0
  · rw [if_pos hnone, hzero hnone]
    dsimp only
    rw [if_neg (by decide), bind_of_ok (storeBytes_append (Nat.zero_le _)),
      if_pos ((@eq_tail_iff ([] : Bytes).length _ (by decide)).mpr hnone)]
    exact ⟨_, rfl⟩
  · rw [if_neg hnone]
    by_cases hlt : post.length % 2 ^ 32 < (sb.name atom).length
    · rw [if_pos hlt]
      dsimp only
      rw [if_pos (by decide)]
      exact ⟨_, rfl⟩
    · rw [if_neg hlt]
      dsimp only
      rw [if_neg (by omega), bind_of_ok (storeBytes_append (by omega)),
        if_pos ((eq_tail_iff (by omega)).mpr (by omega))]
      exact ⟨_, rfl⟩

/-- Where nothing is left, the zero of another name goes behind the end of the buffer. -/
theorem listName_overrun (hnamed : sb.Named atom) (hsize : pre.length = size) (hne : size ≠ 0)
    (hname : sb.name atom ≠ []) :
    listName sb UnatomIo.none atom size pre.length (pre ++ []) = .error .bounds := by
  have hpos := List.length_pos_iff.mpr hname
  have hlen := hnamed.name_le
  have hsize' : pre.length + ([] : Bytes).length = size := hsize
  rw [listName_eq hnamed hsize' hne, if_pos (show ([] : Bytes).length % 2 ^ 32 = 0 from rfl)]
  dsimp only
  rw [if_neg (by omega), bind_of_ok (@storeBytes_append [] pre [] (Nat.le_refl 0)),
    if_neg (by rw [eq_tail_iff (by omega)]; exact Nat.ne_of_lt hpos), bind_of_error]
  unfold storeBytes
  rw [if_neg]
  simp only [List.length_append, List.length_nil, List.length_singleton, List.drop_nil,
    Int.toNat_natCast]
  omega

/-- Where a multiple of the range of `unsigned` is left, the name is not copied. -/
theorem listName_skips (hnamed : sb.Named atom) (hsize : pre.length + post.length = size)
    (hne : post ≠ []) (hzero : post.length % 2 ^ 32 = 0) (hname : sb.name atom ≠ []) :
    ∃ text', listName sb UnatomIo.none atom size pre.length (pre ++ post) =
      .ok (0, pre.length + (sb.name atom).length + 1, text') ∧
        Kept (pre.length + (sb.name atom).length) (pre ++ post) text' := by
  have hpos := List.length_pos_iff.mpr hname
  have hrest := List.length_pos_iff.mpr hne
  have hlen := hnamed.name_le
  rw [listName_eq hnamed hsize (by omega), if_pos hzero]
  dsimp only
  rw [if_neg (by omega), bind_of_ok (storeBytes_append (Nat.zero_le _)),
    if_neg (by rw [eq_tail_iff (by omega)]; omega), Int.toNat_natCast]
  rw [List.append_nil, List.length_nil, List.drop_zero]
  have hstore : storeBytes (pre ++ post) (pre.length + (sb.name atom).length) [0] = .ok _ :=
    if_pos (by rw [List.length_append, List.length_singleton]; omega)
  exact ⟨_, by rw [bind_of_ok hstore]; rfl, storeBytes_kept hstore⟩

end Turn

/-! ## The whole list -/

section Run

variable {sb : AtomSb} {io : Nat → UnatomIo} {xlimit size pos offset : Nat} {text text' : Bytes}
  {xattr : XcacheEntry} {xattrs : List XcacheEntry} {ret : Int}

theorem listLoop_nil (hlimit : pos + entriesLen [] = xlimit) :
    listLoop sb io xlimit size [] pos offset text = .ok (int32 offset, text) := by
  obtain rfl : pos = xlimit := hlimit
  unfold listLoop
  rw [if_neg (Nat.lt_irrefl pos), bind_of_ok (tuxAssert_of rfl)]
  rfl

theorem listLoop_cons (hlimit : pos + entriesLen (xattr :: xattrs) = xlimit) :
    listLoop sb io xlimit size (xattr :: xattrs) pos offset text = (do
      let (err, offset', text') ← listName sb (io pos) xattr.atom size offset text
      if err < 0 then return (err, text')
      listLoop sb io xlimit size xattrs (pos + xattr.len) offset' text') := by
  rw [entriesLen_cons] at hlimit
  have hlen : 0 < xattr.len := Nat.add_pos_left (Nat.succ_pos 3) _
  rw [listLoop, if_pos (by omega)]
  congr 1
  funext ⟨err, offset', text'⟩
  dsimp only
  rw [if_neg (show ¬ xlimit < pos + xattr.len by omega)]

theorem limit_next (hlimit : pos + entriesLen (xattr :: xattrs) = xlimit) :
    pos + xattr.len + entriesLen xattrs = xlimit := by
  rw [entriesLen_cons] at hlimit
  omega

/-- The loop keeps what is in the buffer before its names. -/
theorem listLoop_kept (hlimit : pos + entriesLen xattrs = xlimit)
    (h : listLoop sb io xlimit size xattrs pos offset text = .ok (ret, text')) :
    Kept offset text text' := by
  induction xattrs generalizing pos offset text with
  | nil =>
      rw [listLoop_nil hlimit] at h
      obtain rfl := (Prod.mk.inj (Except.ok.inj h)).2
      exact Kept.rfl
  | cons xattr xattrs ih =>
      rw [listLoop_cons hlimit] at h
      obtain ⟨⟨err, offset', mid⟩, hname, h⟩ := bind_eq_ok.mp h
      obtain ⟨hle, hkept⟩ := listName_kept hname
      dsimp only at h
      split at h
      · obtain ⟨-, rfl⟩ := h
        exact hkept
      · exact hkept.trans (ih (limit_next hlimit) h) hle

/-- Reads that fail only end the loop earlier. -/
theorem listLoop_io {r : Int × Bytes} (hlimit : pos + entriesLen xattrs = xlimit)
    (h : listLoop sb (fun _ => UnatomIo.none) xlimit size xattrs pos offset text = .ok r) :
    ∃ r', listLoop sb io xlimit size xattrs pos offset text = .ok r' := by
  induction xattrs generalizing pos offset text with
  | nil => exact ⟨_, listLoop_nil hlimit⟩
  | cons xattr xattrs ih =>
      rw [listLoop_cons hlimit] at h ⊢
      obtain ⟨⟨err, offset', mid⟩, hname, h⟩ := bind_eq_ok.mp h
      dsimp only at h
      obtain heq | ⟨err', hneg, heq⟩ := listName_io sb (io pos) xattr.atom size offset text
      · rw [bind_of_ok (heq.trans hname)]
        dsimp only
        split at h
        · rename_i hneg
          exact ⟨_, if_pos hneg⟩
        · rename_i hneg
          rw [if_neg hneg]
          exact ih (limit_next hlimit) h
      · rw [bind_of_ok heq]
        exact ⟨_, if_pos hneg⟩

/-- Without a buffer the loop counts the bytes of the names. -/
theorem listLoop_query (hlimit : pos + entriesLen xattrs = xlimit)
    (hnamed : ∀ xattr ∈ xattrs, sb.Named xattr.atom) :
    listLoop sb (fun _ => UnatomIo.none) xlimit 0 xattrs pos offset text =
      .ok (int32 (offset + (listedNames sb xattrs).length : Nat), text) := by
  induction xattrs generalizing pos offset with
  | nil => exact listLoop_nil hlimit
  | cons xattr xattrs ih =>
      rw [listLoop_cons hlimit, bind_of_ok (listName_query (hnamed xattr (List.mem_cons_self ..)))]
      dsimp only
      rw [if_neg (Int.lt_irrefl 0),
        ih (limit_next hlimit) fun x hx => hnamed x (List.mem_cons_of_mem _ hx),
        length_listedNames_cons, Nat.add_assoc offset, Nat.add_assoc offset]

/-- The names from `offset` on find what is left of the buffer such that it is used up only by a
zero that is the last one, and that it is no multiple of the range of `unsigned`, or too little
above one. -/
def ListFits (size : Nat) : Nat → List Bytes → Prop
  | _, [] => True
  | offset, name :: names =>
      offset ≤ size →
        (size - offset = 0 → name = []) ∧
        (2 ^ 32 ≤ size - offset → name.length < (size - offset) % 2 ^ 32) ∧
        ListFits size (offset + name.length + 1) names

/-- The names of some entries. -/
def xattrNames (sb : AtomSb) (xattrs : List XcacheEntry) : List Bytes :=
  xattrs.map fun xattr => sb.name xattr.atom

/-- The loop does what it should with the names behind `pre`, whatever the buffer has there. -/
def ListsFrom (sb : AtomSb) (xlimit size : Nat) (xattrs : List XcacheEntry) (pos : Nat)
    (pre : Bytes) : Prop :=
  ∀ post, pre.length + post.length = size →
    ∃ ret text', listLoop sb (fun _ => UnatomIo.none) xlimit size xattrs pos pre.length
        (pre ++ post) = .ok (ret, text') ∧
      ((listedNames sb xattrs).length ≤ post.length →
        ret = (pre.length + (listedNames sb xattrs).length : Nat) ∧
        text' = pre ++ listedNames sb xattrs ++ post.drop (listedNames sb xattrs).length) ∧
      (post.length < (listedNames sb xattrs).length → ret = -erange)

theorem listFits_of_lt {names : List Bytes} (hlt : size < offset) :
    ListFits size offset names := by
  cases names with
  | nil => trivial
  | cons name names => exact fun hle => absurd hle (Nat.not_le.mpr hlt)

variable {pre : Bytes}

/-- What the loop does behind a name that is stored. -/
theorem listsFrom_fits (hlimit : pos + entriesLen (xattr :: xattrs) = xlimit)
    (hnamed : sb.Named xattr.atom)
    (hlt : (sb.name xattr.atom).length < (size - pre.length) % 2 ^ 32) :
    ListsFrom sb xlimit size (xattr :: xattrs) pos pre ↔
      ListsFrom sb xlimit size xattrs (pos + xattr.len) (pre ++ (sb.name xattr.atom ++ [0])) := by
  have hmod := Nat.mod_le (size - pre.length) (2 ^ 32)
  have hrun : ∀ post, pre.length + post.length = size →
      listLoop sb (fun _ => UnatomIo.none) xlimit size (xattr :: xattrs) pos pre.length
          (pre ++ post) =
        listLoop sb (fun _ => UnatomIo.none) xlimit size xattrs (pos + xattr.len)
          (pre ++ (sb.name xattr.atom ++ [0])).length
          (pre ++ (sb.name xattr.atom ++ [0]) ++
            post.drop (sb.name xattr.atom ++ [0]).length) := by
    intro post hsize
    rw [listLoop_cons hlimit, bind_of_ok (listName_fits hnamed hsize
      (by rwa [show post.length = size - pre.length by omega]))]
    exact if_neg (Int.lt_irrefl 0)
  have hnames : listedNames sb (xattr :: xattrs) =
      sb.name xattr.atom ++ [0] ++ listedNames sb xattrs := listedNames_cons ..
  generalize hname : sb.name xattr.atom ++ [0] = name at *
  have hlen : name.length = (sb.name xattr.atom).length + 1 := by
    rw [← hname, List.length_append, List.length_singleton]
  constructor
  · intro h post hsize
    rw [List.length_append] at hsize
    obtain ⟨ret, text', heq, hroom, hshort⟩ := h (name ++ post)
      (by rw [List.length_append]; omega)
    rw [hrun _ (by rw [List.length_append]; omega), List.drop_left] at heq
    refine ⟨ret, text', heq, fun hle => ?_, fun hgt => hshort ?_⟩
    · obtain ⟨hret, htext⟩ := hroom (by rw [hnames, List.length_append, List.length_append]; omega)
      rw [hret, htext, hnames, List.length_append, List.length_append, Nat.add_assoc,
        List.drop_append, List.drop_of_length_le (Nat.le_add_right _ _), Nat.add_sub_cancel_left]
      exact ⟨rfl, by simp only [List.append_assoc, List.nil_append]⟩
    · rw [hnames, List.length_append, List.length_append]
      omega
  · intro h post hsize
    obtain ⟨ret, text', heq, hroom, hshort⟩ := h (post.drop name.length)
      (by rw [List.length_append, List.length_drop]; omega)
    rw [List.length_drop] at hroom hshort
    refine ⟨ret, text', (hrun post hsize).trans heq, fun hle => ?_, fun hgt => hshort ?_⟩
    · rw [hnames, List.length_append] at hle
      obtain ⟨hret, htext⟩ := hroom (by omega)
      rw [hret, htext, hnames, List.length_append, List.length_append, Nat.add_assoc,
        List.drop_drop]
      exact ⟨rfl, by simp only [List.append_assoc]⟩
    · rw [hnames, List.length_append] at hgt
      omega

/-- The loop lists what it should, just if the names fit. -/
theorem listsFrom_iff (hlimit : pos + entriesLen xattrs = xlimit)
    (hnamed : ∀ xattr ∈ xattrs, sb.Named xattr.atom) (hne : size ≠ 0)
    (hsmall : pre.length + (listedNames sb xattrs).length < 2 ^ 31) :
    ListsFrom sb xlimit size xattrs pos pre ↔
      ListFits size pre.length (xattrNames sb xattrs) := by
  induction xattrs generalizing pos pre with
  | nil =>
      refine iff_of_true (fun post _ => ⟨_, _, listLoop_nil hlimit, fun _ => ⟨?_, ?_⟩, ?_⟩) trivial
      · rw [int32, if_pos (by change _ + 0 < _ at hsmall; omega)]
        change _ + 0 < _ at hsmall
        change _ = ((pre.length + 0 : Nat) : Int)
        omega
      · change _ = pre ++ [] ++ post.drop 0
        rw [List.append_nil, List.drop_zero]
      · exact fun hlt => absurd hlt (Nat.not_lt_zero _)
  | cons xattr xattrs ih =>
      have hname := hnamed xattr (List.mem_cons_self ..)
      have hlen := hname.name_le
      have hnext := length_listedNames_cons sb xattr xattrs
      obtain hover | hle := Nat.lt_or_ge size pre.length
      · exact iff_of_true (fun post hsize => absurd hsize (by omega)) (listFits_of_lt hover)
      have hmod := Nat.mod_le (size - pre.length) (2 ^ 32)
      have hfits : ListFits size pre.length (xattrNames sb (xattr :: xattrs)) ↔
          (size - pre.length = 0 → sb.name xattr.atom = []) ∧
          (2 ^ 32 ≤ size - pre.length →
            (sb.name xattr.atom).length < (size - pre.length) % 2 ^ 32) ∧
          ListFits size (pre.length + (sb.name xattr.atom).length + 1)
            (xattrNames sb xattrs) := ⟨fun h => h hle, fun h _ => h⟩
      rw [hfits]
      obtain hlt | hge := Nat.lt_or_ge (sb.name xattr.atom).length
        ((size - pre.length) % 2 ^ 32)
      · -- The name and its zero are stored.
        rw [listsFrom_fits hlimit hname hlt,
          ih (limit_next hlimit) (fun x hx => hnamed x (List.mem_cons_of_mem _ hx))
            (by simp only [List.length_append, List.length_singleton]; omega)]
        simp only [List.length_append, List.length_singleton, ← Nat.add_assoc]
        exact ⟨fun h => ⟨fun hz => absurd hz (by omega), fun _ => hlt, h⟩, fun h => h.2.2⟩
      obtain hrefused | hcopied := Classical.em
        ((size - pre.length) % 2 ^ 32 = 0 → sb.name xattr.atom = [])
      · -- The name is refused, which is right where less than the range of `unsigned` is left.
        have hrun : ∀ post, pre.length + post.length = size → ∃ text',
            listLoop sb (fun _ => UnatomIo.none) xlimit size (xattr :: xattrs) pos pre.length
              (pre ++ post) = .ok (-erange, text') := by
          intro post hsize
          have hrest : post.length = size - pre.length := by omega
          obtain ⟨text', heq⟩ := listName_refused hname hsize hne (by rwa [hrest])
            (by rwa [hrest])
          exact ⟨text', by rw [listLoop_cons hlimit, bind_of_ok heq]; exact if_pos (by decide)⟩
        obtain hsmaller | hlarge := Nat.lt_or_ge (size - pre.length) (2 ^ 32)
        · rw [Nat.mod_eq_of_lt hsmaller] at hge hrefused
          refine iff_of_true (fun post hsize => ?_)
            ⟨hrefused, fun hl => absurd hl (by omega), listFits_of_lt (by omega)⟩
          obtain ⟨text', heq⟩ := hrun post hsize
          exact ⟨_, _, heq, fun hroom => absurd hroom (by omega), fun _ => rfl⟩
        · refine iff_of_false (fun h => ?_) fun h => absurd (h.2.1 hlarge) (by omega)
          obtain ⟨ret, text', heq, hroom, -⟩ := h (List.replicate (size - pre.length) 0)
            (by rw [List.length_replicate]; omega)
          obtain ⟨text'', heq'⟩ := hrun (List.replicate (size - pre.length) 0)
            (by rw [List.length_replicate]; omega)
          obtain ⟨rfl, -⟩ := Prod.mk.inj (Except.ok.inj (heq.symm.trans heq'))
          have hret := (hroom (by rw [List.length_replicate]; omega)).1
          have herange : -erange < 0 := by decide
          omega
      · obtain ⟨hzero, hnonempty⟩ := Classical.not_imp.mp hcopied
        have hpos := List.length_pos_iff.mpr hnonempty
        obtain hnone | hsome := Nat.eq_zero_or_pos (size - pre.length)
        · -- Nothing is left, and the zero goes behind the end.
          refine iff_of_false (fun h => ?_) fun h => hnonempty (h.1 hnone)
          obtain ⟨ret, text', heq, -⟩ := h [] (by rw [List.length_nil]; omega)
          rw [listLoop_cons hlimit,
            bind_of_error (listName_overrun hname (by omega) hne hnonempty)] at heq
          cases heq
        · -- A multiple of the range of `unsigned` is left, and the name is not copied.
          refine iff_of_false (fun h => ?_) fun h => absurd (h.2.1 (by omega)) (by omega)
          obtain ⟨first, more, hcons⟩ := List.exists_cons_of_ne_nil hnonempty
          have hreplicate : (List.replicate (size - pre.length) (first + 1)).length =
            size - pre.length := List.length_replicate
          obtain ⟨ret, text', heq, hroom, -⟩ := h
            (List.replicate (size - pre.length) (first + 1)) (by omega)
          obtain ⟨mid, hmid, hkept⟩ := @listName_skips sb xattr.atom size pre
            (List.replicate (size - pre.length) (first + 1)) hname (by omega)
            (List.ne_nil_of_length_pos (by omega)) (by rw [hreplicate]; exact hzero) hnonempty
          rw [listLoop_cons hlimit, bind_of_ok hmid] at heq
          dsimp only at heq
          rw [if_neg (Int.lt_irrefl 0)] at heq
          have hkept' := hkept.trans (listLoop_kept (limit_next hlimit) heq) (by omega)
          have hat := hkept'.getElem_eq pre.length (by omega)
          rw [(hroom (by omega)).2, listedNames_cons, hcons, List.append_assoc,
            List.getElem?_append_right (Nat.le_refl _),
            List.getElem?_append_right (Nat.le_refl _), Nat.sub_self,
            List.getElem?_replicate_of_lt hsome] at hat
          have hbyte := congrArg UInt8.toNat (Option.some.inj hat)
          rw [UInt8.toNat_add, UInt8.toNat_one] at hbyte
          omega

end Run

/-! ## `list_xattr` -/

/-- The extended attributes of an inode. -/
def cacheEntries : Option Xcache → List XcacheEntry
  | none => []
  | some xcache => xcache.xattrs

/-- What `list_xattr` is to do with a buffer of `size` bytes: whatever the reads do, it releases the
lock and stores nothing outside of the buffer; and where none fails, it asks for the length of the
list, or stores the list, or finds that it has no room. -/
def ListsRight (sb : AtomSb) (xcache : Option Xcache) (size : Nat) : Prop :=
  ∀ io text, text.length = size → ∃ listed, listXattr sb io xcache text size = .ok listed ∧
    listed.mutexHeld = false ∧ listed.text.length = size ∧
    ((∀ pos, io pos = UnatomIo.none) →
      (size = 0 → listed.ret = (listedNames sb (cacheEntries xcache)).length) ∧
      (size ≠ 0 → (listedNames sb (cacheEntries xcache)).length ≤ size →
        listed.ret = (listedNames sb (cacheEntries xcache)).length ∧
        listed.text = listedNames sb (cacheEntries xcache) ++
          text.drop (listedNames sb (cacheEntries xcache)).length) ∧
      (size ≠ 0 → size < (listedNames sb (cacheEntries xcache)).length →
        listed.ret = -erange))

section ListXattr

variable {sb : AtomSb} {xcache : Xcache} {size : Nat}

theorem listXattr_of_loop {io : Nat → UnatomIo} {text : Bytes} {r : Int × Bytes}
    (h : listLoop sb io xcache.size size xcache.xattrs 0 0 text = .ok r) :
    listXattr sb io (some xcache) text size = .ok ⟨r.1, r.2, false⟩ := by
  unfold listXattr
  exact bind_of_ok h

/-- The loop decides: what it does without failing reads is all that counts. -/
theorem listsRight_iff_loop (hlimit : 0 + entriesLen xcache.xattrs = xcache.size) :
    ListsRight sb (some xcache) size ↔ ∀ text : Bytes, text.length = size → ∃ ret text',
      listLoop sb (fun _ => UnatomIo.none) xcache.size size xcache.xattrs 0 0 text =
        .ok (ret, text') ∧
      (size = 0 → ret = (listedNames sb xcache.xattrs).length) ∧
      (size ≠ 0 → (listedNames sb xcache.xattrs).length ≤ size →
        ret = (listedNames sb xcache.xattrs).length ∧
        text' = listedNames sb xcache.xattrs ++
          text.drop (listedNames sb xcache.xattrs).length) ∧
      (size ≠ 0 → size < (listedNames sb xcache.xattrs).length → ret = -erange) := by
  constructor
  · intro h text hsize
    obtain ⟨listed, heq, -, -, hright⟩ := h (fun _ => UnatomIo.none) text hsize
    unfold listXattr at heq
    obtain ⟨⟨ret, text'⟩, hloop, hlisted⟩ := bind_eq_ok.mp heq
    obtain rfl := Except.ok.inj hlisted
    exact ⟨ret, text', hloop, hright fun _ => rfl⟩
  · intro h io text hsize
    obtain ⟨ret, text', hloop, hright⟩ := h text hsize
    obtain ⟨⟨ret', text''⟩, hloop'⟩ := @listLoop_io sb io _ _ _ _ _ _ _ hlimit hloop
    refine ⟨_, listXattr_of_loop hloop', rfl, (listLoop_kept hlimit hloop').length_eq.trans hsize,
      fun hnone => ?_⟩
    obtain rfl : io = fun _ => UnatomIo.none := funext hnone
    obtain ⟨rfl, rfl⟩ := Prod.mk.inj (Except.ok.inj (hloop'.symm.trans hloop))
    exact hright

/-- `list_xattr` does what it is to do for an inode that has a cache and a buffer that its names fit
in, and for no other. -/
theorem listXattr_iff (sb : AtomSb) (xcache : Option Xcache) (size : Nat)
    (hok : ∀ xc, xcache = some xc → xc.Ok ∧ ∀ xattr ∈ xc.xattrs, sb.Named xattr.atom) :
    ListsRight sb xcache size ↔
      ∃ xc, xcache = some xc ∧ (size = 0 ∨ ListFits size 0 (xattrNames sb xc.xattrs)) := by
  cases xcache with
  | none =>
      refine iff_of_false (fun h => ?_) ?_
      · obtain ⟨listed, heq, hheld, -⟩ := h (fun _ => UnatomIo.none) (List.replicate size 0)
          List.length_replicate
        obtain rfl := Except.ok.inj heq
        cases hheld
      · rintro ⟨xc, hxc, -⟩
        cases hxc
  | some xcache =>
      obtain ⟨hcache, hnamed⟩ := hok xcache rfl
      have hlimit : 0 + entriesLen xcache.xattrs = xcache.size := by
        rw [Nat.zero_add, hcache.size_eq]
      have hsmall : (listedNames sb xcache.xattrs).length < 2 ^ 31 := by
        have hle := length_listedNames_le hnamed
        have hsize := hcache.size_le
        have hmax := hcache.maxsize_lt
        omega
      rw [listsRight_iff_loop hlimit]
      obtain rfl | hne := eq_or_ne size 0
      · refine iff_of_true (fun text _ => ⟨_, _, listLoop_query hlimit hnamed, fun _ => ?_,
          fun hne => absurd rfl hne, fun hne => absurd rfl hne⟩) ⟨xcache, rfl, Or.inl rfl⟩
        unfold int32
        rw [if_pos (by omega)]
        omega
      · have hfrom := @listsFrom_iff sb xcache.size size 0 xcache.xattrs [] hlimit hnamed hne
          (by rw [List.length_nil, Nat.zero_add]; exact hsmall)
        constructor
        · intro h
          refine ⟨xcache, rfl, Or.inr (hfrom.mp fun post hsize => ?_)⟩
          rw [List.length_nil, Nat.zero_add] at hsize
          obtain ⟨ret, text', heq, -, hroom, hshort⟩ := h post hsize
          refine ⟨ret, text', heq, fun hle => ?_, fun hlt => hshort hne (hsize ▸ hlt)⟩
          rw [List.length_nil, Nat.zero_add, List.nil_append]
          exact hroom hne (hsize ▸ hle)
        · rintro ⟨xc, hxc, hzero | hfits⟩ text hsize
          · exact absurd hzero hne
          · obtain rfl := Option.some.inj hxc
            obtain ⟨ret, text', heq, hroom, hshort⟩ := hfrom.mpr hfits text
              ((Nat.zero_add _).trans hsize)
            rw [List.length_nil, Nat.zero_add, List.nil_append] at hroom
            exact ⟨ret, text', heq, fun hz => absurd hz hne, fun _ hle => hroom (hsize ▸ hle),
              fun _ hlt => hshort (hsize ▸ hlt)⟩

end ListXattr

/-- An atom table with the names `a`, of atom 1, and `b`. -/
def abAtoms : AtomSb where
  dict :=
    { blockbits := 6
      size := 64
      data := fun _ offset =>
        if offset = 0 then ⟨1, 16, 1, 0, [97]⟩ else ⟨2, 48, 1, 0, [98]⟩ }
  atomgen := 3
  freeatom := 0
  unatom := fun atom => if atom = 1 then 0 else 16
  low := fun _ => 1
  high := fun _ => 0

/-- An inode with both of them. -/
def abCache : Xcache := ⟨8, 64, [⟨1, []⟩, ⟨2, []⟩]⟩

/-- Four bytes are enough for both names. -/
theorem listXattr_iff_ab : ListsRight abAtoms (some abCache) 4 := by
  refine (listXattr_iff abAtoms (some abCache) 4 ?_).mpr
    ⟨abCache, rfl, Or.inr fun _ => ⟨by decide, by decide, fun _ => ⟨by decide, by decide, trivial⟩⟩⟩
  intro xc hxc
  obtain rfl := Option.some.inj hxc
  refine ⟨⟨rfl, by decide, by decide, by decide⟩, fun xattr hx => ?_⟩
  obtain rfl | rfl : xattr = ⟨1, []⟩ ∨ xattr = ⟨2, []⟩ :=
    (List.mem_cons.mp hx).imp_right List.mem_singleton.mp
  · exact ⟨by decide, by decide, by decide, by decide⟩
  · exact ⟨by decide, by decide, by decide, by decide⟩

/-- In a buffer of two bytes the zero of the second name goes behind the end; and an inode without
a cache keeps the lock. -/
theorem listXattr_overrun :
    listXattr abAtoms (fun _ => UnatomIo.none) (some abCache) [0, 0] 2 = .error .bounds ∧
      listXattr abAtoms (fun _ => UnatomIo.none) none [0, 0] 2 = .ok ⟨0, [0, 0], true⟩ ∧
      ¬ ListsRight abAtoms (some abCache) 2 ∧ ¬ ListsRight abAtoms none 2 := by
  refine ⟨rfl, rfl, fun h => ?_, fun h => ?_⟩
  · obtain ⟨listed, heq, -⟩ := h (fun _ => UnatomIo.none) [0, 0] rfl
    have hrun : listXattr abAtoms (fun _ => UnatomIo.none) (some abCache) [0, 0] 2 =
      .error .bounds := rfl
    rw [hrun] at heq
    cases heq
  · obtain ⟨listed, heq, hheld, -⟩ := h (fun _ => UnatomIo.none) [0, 0] rfl
    obtain rfl := Except.ok.inj heq
    cases hheld

end Tux3.Xattr
