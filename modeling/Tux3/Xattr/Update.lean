/-
  Xattr/Update.lean --- setting and deleting an extended attribute, and what a failure leaves.

  `set_xattr` makes the atom of the name before it looks at the flags, and takes the old value out
  of the cache before it has memory for the new one; nothing of that is taken back on an error.
  `del_xattr` does not fail once it has changed something.
-/
import Tux3.Xattr.Atom
import Tux3.Xattr.Cache
import Tux3.Lib.Linked
import Tux3.Lib.Outcome

set_option autoImplicit false

namespace Tux3.Xattr

open BigEndian Dir Outcome

/-! ## The cache -/

/-- `XATTR_CREATE`. -/
def xattrCreate : Nat := 1

/-- `XATTR_REPLACE`. -/
def xattrReplace : Nat := 2

/-- `ENOATTR`. -/
def enoattr : Int := enodata

/-- The value does not fit behind the others; all is unsigned of 32 bits. -/
def noRoom (xcache : Option Xcache) (more : Nat) : Bool :=
  xcache.all fun xcache => xcache.maxsize < (xcache.size + more) % 2 ^ 32

/-- `expand_xcache` with `MIN_ALLOC_SIZE`, of unsigned sizes; `noMem` is whether `malloc` fails. -/
def expandXcache (old : Option Xcache) (noMem : Bool) (size : Nat) :
    Except TuxError (Option Xcache × Int) := do
  tuxAssert (old.all fun xcache => xcache.maxsize < size)
  let size := match old with
    | some xcache => max (xcache.maxsize * 2) size
    | none => (size + 127) % 2 ^ 32 / 128 * 128
  tuxAssert (size ≠ 0)
  tuxAssert (size ≤ 2 ^ 16 - 1)
  if noMem then return (old, -enomem)
  match old with
  | some xcache => return (some { xcache with maxsize := size }, 0)
  | none => return (some ⟨0, size, []⟩, 0)

/-- What `xcache_lookup` returns: an error, or the entry at an index. -/
inductive XattrLookup where
  | failed (err : Int)
  | found (i : Nat)
  deriving DecidableEq

/-- The walk of `xcache_lookup`; `i` entries of `pos` bytes were passed. -/
def lookupLoop (xlimit atom : Nat) : List XcacheEntry → Nat → Nat → Except TuxError XattrLookup
  | [], _, pos =>
      if pos < xlimit then .error .bounds
      else do
        tuxAssert (pos = xlimit)
        return .failed (-enoattr)
  | xattr :: xattrs, i, pos =>
      if pos < xlimit then
        if xattr.atom = atom then return .found i
        else if xlimit < pos + xattr.len then return .failed (-einval)
        else lookupLoop xlimit atom xattrs (i + 1) (pos + xattr.len)
      else do
        tuxAssert (pos = xlimit)
        return .failed (-enoattr)

/-- `xcache_lookup`. -/
def xcacheLookup (xcache : Option Xcache) (atom : Nat) : Except TuxError XattrLookup :=
  match xcache with
  | some xcache => lookupLoop xcache.size atom xcache.xattrs 0 0
  | none => return .failed (-enoattr)

/-- `remove_old`. -/
def removeOld (i : Nat) (xcache : Xcache) : Xcache :=
  { xcache with
    size := xcache.size - xcache.xattrs[i]?.elim 0 XcacheEntry.len
    xattrs := xcache.xattrs.eraseIdx i }

/-! ## Setting and deleting -/

/-- The atoms, and the cache of an inode. -/
structure XattrSt where
  atoms : AtomSb
  xcache : Option Xcache

/-- What the buffers and `malloc` do during a call. -/
structure XattrIo where
  atom : AtomIo
  ref : RefIo
  noMem : Bool

/-- `xcache_update` makes room for `more` bytes. -/
def makeRoom (xcache : Option Xcache) (noMem : Bool) (more : Nat) :
    Except TuxError (Option Xcache × Int) :=
  if noRoom xcache more then
    expandXcache xcache noMem ((xcache.elim 0 Xcache.size + more) % 2 ^ 32)
  else return (xcache, 0)

/-- `xcache_update` inserts the new value; `use` is what the count of the atom changes by.  The
error of `atomref` is not looked at. -/
def insertNew (st : XattrSt) (io : XattrIo) (atom : Nat) (data : Bytes) (use : Int) :
    Except TuxError (XattrSt × Int) := do
  let more := (4 + data.length) % 2 ^ 32
  let (xcache, err) ← makeRoom st.xcache io.noMem more
  if err ≠ 0 then return ({ st with xcache := xcache }, err)
  match xcache with
  | none => .error .bounds
  | some xcache =>
      -- the value is cut to 16 bits where its length is
      if 2 ^ 16 ≤ data.length then .error .bounds
      else
        let xcache := { xcache with
          size := xcache.size + more
          xattrs := xcache.xattrs ++ [⟨atom % 2 ^ 16, data⟩] }
        let use := use + 1
        if use = 0 then return (⟨st.atoms, some xcache⟩, 0)
        else
          let (atoms, _) ← atomref st.atoms io.ref atom use
          return (⟨atoms, some xcache⟩, 0)

/-- `xcache_update`. -/
def xcacheUpdate (st : XattrSt) (io : XattrIo) (atom : Nat) (data : Bytes) (flags : Nat) :
    Except TuxError (XattrSt × Int) := do
  match ← xcacheLookup st.xcache atom with
  | .failed err =>
      if err ≠ -enoattr ∨ flags &&& xattrReplace ≠ 0 then return (st, err)
      else insertNew st io atom data 0
  | .found i =>
      if flags &&& xattrCreate ≠ 0 then return (st, -eexist)
      else insertNew { st with xcache := st.xcache.map (removeOld i) } io atom data (-1)

/-- `set_xattr`. -/
def setXattr (st : XattrSt) (io : XattrIo) (name data : Bytes) (flags : Nat) :
    Except TuxError (XattrSt × Int) := do
  let (atoms, err, atom) ← makeAtom st.atoms io.atom name
  if err ≠ 0 then return ({ st with atoms := atoms }, err)
  else xcacheUpdate { st with atoms := atoms } io atom data flags

/-- `del_xattr`. -/
def delXattr (st : XattrSt) (io : XattrIo) (name : Bytes) : Except TuxError (XattrSt × Int) := do
  let (err, atom) ← findAtom st.atoms io.atom.find name
  if err ≠ 0 then return (st, err)
  else
    match ← xcacheLookup st.xcache atom with
    | .failed err => return (st, err)
    | .found i =>
        let (atoms, _) ← atomref st.atoms io.ref atom (-1)
        return (⟨atoms, st.xcache.map (removeOld i)⟩, 0)

/-! ## What a failure is to leave -/

/-- The attributes of the inode. -/
def XattrSt.xattrs (st : XattrSt) : List XcacheEntry := st.xcache.elim [] Xcache.xattrs

/-- The attributes, the counts of the atoms, the dictionary and the list of free atoms are the
same. -/
structure Unchanged (st st' : XattrSt) : Prop where
  xattrs : st'.xattrs = st.xattrs
  low : st'.atoms.low = st.atoms.low
  high : st'.atoms.high = st.atoms.high
  dict : st'.atoms.dict = st.atoms.dict
  freeatom : st'.atoms.freeatom = st.atoms.freeatom
  unatom : st'.atoms.unatom = st.atoms.unatom

/-- A call that fails changes nothing. -/
def FailureKeeps (st : XattrSt) (result : Except TuxError (XattrSt × Int)) : Prop :=
  ∀ st' err, result = .ok (st', err) → err ≠ 0 → Unchanged st st'

/-- The atom after one in the list of free atoms. -/
def AtomSb.nextFree (sb : AtomSb) (atom : Nat) : Nat := (sb.unatom atom % 2 ^ 32).toNat

/-- The dictionary is a directory, the free atoms are a list, and there is no error in the reverse
map. -/
structure AtomsOk (sb : AtomSb) : Prop where
  tiled : ∃ layout, DirTiled sb.dict layout
  free : ∃ atoms, Linked sb.nextFree 0 sb.freeatom atoms ∧ atoms.Nodup
  unatom_nonneg : ∀ atom, 0 ≤ sb.unatom atom

/-- There is no memory for a value of `len` bytes that the cache has no room for. -/
structure ExpandFails (xcache : Option Xcache) (noMem : Bool) (len : Nat) : Prop where
  noRoom : noRoom xcache ((4 + len) % 2 ^ 32) = true
  noMem : noMem = true
  size_ok : ∃ xcache' err, expandXcache xcache true
    ((xcache.elim 0 Xcache.size + (4 + len) % 2 ^ 32) % 2 ^ 32) = .ok (xcache', err)

/-- The value cannot be put into the cache. -/
def UpdateFails (xcache : Option Xcache) (noMem : Bool) (atom len flags : Nat) : Prop :=
  ∃ lookup, xcacheLookup xcache atom = .ok lookup ∧
    match lookup with
    | .failed err => (err ≠ -enoattr ∨ flags &&& xattrReplace ≠ 0) ∨ ExpandFails xcache noMem len
    | .found i =>
        flags &&& xattrCreate ≠ 0 ∨ ExpandFails (xcache.map (removeOld i)) noMem len

/-- The entry of a name cannot be written. -/
def CreateFails (sb : AtomSb) (io : DirIo) (name : Bytes) (atom : Nat) : Prop :=
  ∃ dict pos, tuxCreateEntry sb.dict io name atom 0 = .ok (dict, pos) ∧ pos < 0

/-- Where `set_xattr` fails after it has changed something. -/
inductive SetLoses (st : XattrSt) (io : XattrIo) (name : Bytes) (len flags : Nat) : Prop
  /-- The old value is taken out, and there is no memory for the new one. -/
  | value {atom i : Nat} (hfind : findAtom st.atoms io.atom.find name = .ok (0, atom))
      (hattr : xcacheLookup st.xcache atom = .ok (.found i)) (hflag : flags &&& xattrCreate = 0)
      (hfull : ExpandFails (st.xcache.map (removeOld i)) io.noMem len)
  /-- A free atom is taken for a new name, and the name cannot be entered. -/
  | freeatom {atom : Nat} {sb : AtomSb}
      (hfind : ∃ a, findAtom st.atoms io.atom.find name = .ok (-enodata, a))
      (hget : getFreeatom st.atoms io.atom.freeFails = (sb, 0, atom))
      (hfree : st.atoms.freeatom ≠ 0) (hcreate : CreateFails st.atoms io.atom.create name atom)
  /-- A new name is entered, and cannot be put into the reverse map. -/
  | reverse {atom : Nat} {sb : AtomSb}
      (hfind : ∃ a, findAtom st.atoms io.atom.find name = .ok (-enodata, a))
      (hget : getFreeatom st.atoms io.atom.freeFails = (sb, 0, atom))
      (hcreate : ¬ CreateFails st.atoms io.atom.create name atom)
      (hio : io.atom.unatom.readFails = true ∨ io.atom.unatom.dirtyErr ≠ 0)
  /-- A new name is entered, and the value cannot be put into the cache. -/
  | name {atom : Nat} {sb : AtomSb}
      (hfind : ∃ a, findAtom st.atoms io.atom.find name = .ok (-enodata, a))
      (hget : getFreeatom st.atoms io.atom.freeFails = (sb, 0, atom))
      (hcreate : ¬ CreateFails st.atoms io.atom.create name atom)
      (hio : io.atom.unatom.readFails = false ∧ io.atom.unatom.dirtyErr = 0)
      (hupdate : UpdateFails st.xcache io.noMem atom len flags)

section

variable {st st' : XattrSt} {io : XattrIo} {xcache : Option Xcache} {name data : Bytes}
  {atom len flags i j pos xlimit : Nat} {use err : Int}

/-! ## Failures of the cache -/

/-- The only error of `expand_xcache`. -/
theorem expandXcache_failed {noMem : Bool} {size : Nat} {xcache' : Option Xcache}
    (h : expandXcache xcache noMem size = .ok (xcache', err)) :
    (err = 0 ∧ noMem = false) ∨ (err = -enomem ∧ noMem = true ∧ xcache' = xcache) := by
  unfold expandXcache at h
  obtain ⟨_, -, h⟩ := bind_eq_ok.mp h
  obtain ⟨_, -, h⟩ := bind_eq_ok.mp h
  obtain ⟨_, -, h⟩ := bind_eq_ok.mp h
  cases noMem with
  | true =>
      obtain ⟨hcache, herr⟩ := Prod.mk.inj (Except.ok.inj h)
      exact .inr ⟨herr.symm, rfl, hcache.symm⟩
  | false =>
      cases xcache with
      | none => exact .inl ⟨(Prod.mk.inj (Except.ok.inj h)).2.symm, rfl⟩
      | some _ => exact .inl ⟨(Prod.mk.inj (Except.ok.inj h)).2.symm, rfl⟩

theorem insertNew_fails (h : ExpandFails st.xcache io.noMem data.length) :
    insertNew st io atom data use = .ok (st, -enomem) := by
  obtain ⟨hroom, hmem, xcache', err, hexpand⟩ := h
  obtain ⟨-, hfalse⟩ | ⟨rfl, -, rfl⟩ := expandXcache_failed hexpand
  · exact absurd hfalse (by decide)
  have hmake : makeRoom st.xcache io.noMem ((4 + data.length) % 2 ^ 32) =
      .ok (st.xcache, -enomem) := by
    unfold makeRoom
    rw [if_pos hroom, hmem]
    exact hexpand
  unfold insertNew
  dsimp only
  rw [bind_of_ok hmake]
  rfl

theorem insertNew_failed (h : insertNew st io atom data use = .ok (st', err)) (hne : err ≠ 0) :
    ExpandFails st.xcache io.noMem data.length ∧ st' = st := by
  unfold insertNew at h
  obtain ⟨⟨xcache', err'⟩, hexpand, h⟩ := bind_eq_ok.mp h
  unfold makeRoom at hexpand
  dsimp only at h
  by_cases herr : err' = 0
  · -- nothing fails after the room was made
    exfalso
    rw [if_neg (not_not_intro herr)] at h
    cases xcache' with
    | none => cases h
    | some xc =>
        dsimp only at h
        split at h
        · cases h
        · split at h
          · exact hne (Prod.mk.inj (Except.ok.inj h)).2.symm
          · obtain ⟨_, -, h⟩ := bind_eq_ok.mp h
            exact hne (Prod.mk.inj (Except.ok.inj h)).2.symm
  · rw [if_pos herr] at h
    split at hexpand
    · rename_i hroom
      obtain ⟨hzero, -⟩ | ⟨-, hmem, rfl⟩ := expandXcache_failed hexpand
      · exact absurd hzero herr
      · rw [hmem] at hexpand
        exact ⟨⟨hroom, hmem, _, _, hexpand⟩, (Prod.mk.inj (Except.ok.inj h)).1.symm⟩
    · exact absurd (Prod.mk.inj (Except.ok.inj hexpand)).2.symm herr

theorem enoattr_ne_zero : -enoattr ≠ 0 := by decide

/-- An error of a lookup is not zero, and an entry that it finds is one of those of the cache. -/
theorem lookupLoop_result {xattrs : List XcacheEntry} {lookup : XattrLookup}
    (h : lookupLoop xlimit atom xattrs i pos = .ok lookup) :
    (∃ err, lookup = .failed err ∧ err ≠ 0) ∨ ∃ j, lookup = .found j ∧ j < i + xattrs.length := by
  induction xattrs generalizing i pos with
  | nil =>
      unfold lookupLoop at h
      split at h
      · cases h
      · obtain ⟨_, -, h⟩ := bind_eq_ok.mp h
        exact .inl ⟨_, (Except.ok.inj h).symm, enoattr_ne_zero⟩
  | cons xattr xattrs ih =>
      rw [List.length_cons]
      unfold lookupLoop at h
      split at h
      · split at h
        · exact .inr ⟨i, (Except.ok.inj h).symm, by omega⟩
        · split at h
          · exact .inl ⟨_, (Except.ok.inj h).symm, by decide⟩
          · obtain hfailed | ⟨j, hfound, hlt⟩ := ih h
            · exact .inl hfailed
            · exact .inr ⟨j, hfound, by omega⟩
      · obtain ⟨_, -, h⟩ := bind_eq_ok.mp h
        exact .inl ⟨_, (Except.ok.inj h).symm, enoattr_ne_zero⟩

theorem xcacheLookup_failed (h : xcacheLookup xcache atom = .ok (.failed err)) : err ≠ 0 := by
  cases xcache with
  | none =>
      obtain rfl := XattrLookup.failed.inj (Except.ok.inj h)
      exact enoattr_ne_zero
  | some xcache =>
      obtain ⟨err', heq, hne⟩ | ⟨j, heq, -⟩ := lookupLoop_result h
      · rw [XattrLookup.failed.inj heq]
        exact hne
      · cases heq

/-- Removing an attribute that was found changes the list of them. -/
theorem removeOld_xattrs (h : xcacheLookup st.xcache atom = .ok (.found i)) :
    XattrSt.xattrs ⟨st.atoms, st.xcache.map (removeOld i)⟩ ≠ st.xattrs := by
  intro heq
  have hlength := congrArg List.length heq
  obtain ⟨atoms, xcache⟩ := st
  cases xcache with
  | none => cases h
  | some xcache =>
      obtain ⟨err, hfailed, -⟩ | ⟨j, hfound, hlt⟩ := lookupLoop_result h
      · cases hfailed
      · obtain rfl := XattrLookup.found.inj hfound
        rw [Nat.zero_add] at hlt
        have herase : (xcache.xattrs.eraseIdx i).length = xcache.xattrs.length := hlength
        rw [List.length_eraseIdx_of_lt hlt] at herase
        omega

/-! ## Failures of the update -/

/-- Only one failure of `xcache_update` changes the cache. -/
theorem xcacheUpdate_failed (h : xcacheUpdate st io atom data flags = .ok (st', err))
    (hne : err ≠ 0) : UpdateFails st.xcache io.noMem atom data.length flags ∧
      st'.atoms = st.atoms ∧ (st' = st ∨ ∃ i, xcacheLookup st.xcache atom = .ok (.found i) ∧
        flags &&& xattrCreate = 0 ∧
        ExpandFails (st.xcache.map (removeOld i)) io.noMem data.length) := by
  unfold xcacheUpdate at h
  obtain ⟨lookup, hlookup, h⟩ := bind_eq_ok.mp h
  cases lookup with
  | failed e =>
      dsimp only at h
      split at h
      · rename_i hflag
        obtain rfl := (Prod.mk.inj (Except.ok.inj h)).1
        exact ⟨⟨_, hlookup, .inl hflag⟩, rfl, .inl rfl⟩
      · obtain ⟨hfull, rfl⟩ := insertNew_failed h hne
        exact ⟨⟨_, hlookup, .inr hfull⟩, rfl, .inl rfl⟩
  | found i =>
      dsimp only at h
      split at h
      · rename_i hflag
        obtain rfl := (Prod.mk.inj (Except.ok.inj h)).1
        exact ⟨⟨_, hlookup, .inl hflag⟩, rfl, .inl rfl⟩
      · rename_i hflag
        obtain ⟨hfull, rfl⟩ := insertNew_failed h hne
        exact ⟨⟨_, hlookup, .inr hfull⟩, rfl, .inr ⟨i, hlookup, not_not.mp hflag, hfull⟩⟩

theorem xcacheUpdate_fails (h : UpdateFails st.xcache io.noMem atom data.length flags) :
    ∃ st' err, xcacheUpdate st io atom data flags = .ok (st', err) ∧ err ≠ 0 ∧
      st'.atoms = st.atoms := by
  obtain ⟨lookup, hlookup, h⟩ := h
  unfold xcacheUpdate
  rw [bind_of_ok hlookup]
  cases lookup with
  | failed e =>
      dsimp only
      split
      · exact ⟨_, _, rfl, xcacheLookup_failed hlookup, rfl⟩
      · rename_i hflag
        exact ⟨_, _, insertNew_fails (h.resolve_left hflag), by decide, rfl⟩
  | found i =>
      dsimp only
      split
      · exact ⟨_, _, rfl, by decide, rfl⟩
      · rename_i hflag
        exact ⟨_, _, insertNew_fails (h.resolve_left hflag), by decide, rfl⟩

/-- An old value is lost. -/
theorem xcacheUpdate_loses (hlookup : xcacheLookup st.xcache atom = .ok (.found i))
    (hflag : flags &&& xattrCreate = 0)
    (hfull : ExpandFails (st.xcache.map (removeOld i)) io.noMem data.length) :
    xcacheUpdate st io atom data flags =
      .ok (⟨st.atoms, st.xcache.map (removeOld i)⟩, -enomem) := by
  unfold xcacheUpdate
  rw [bind_of_ok hlookup]
  dsimp only
  rw [if_neg (not_not_intro hflag)]
  exact insertNew_fails hfull

/-! ## Failures of the atom -/

variable {sb sb' : AtomSb} {layout : Nat → List Nat} {dir : DirIo} {a : Nat}

theorem findAtom_missing (ht : DirTiled sb.dict layout)
    (h : findAtom sb dir name = .ok (-enodata, a)) :
    tuxFindEntry sb.dict dir name = .ok (.failed (-enoent)) := by
  obtain ⟨found, heq, hfound⟩ := @nameSearch_spec _ _ dir name _ _ ht (Nat.zero_add sb.dict.blocks)
  have hfind : tuxFindEntry sb.dict dir name = .ok found := heq
  unfold findAtom at h
  rw [bind_of_ok hfind] at h
  cases hfound with
  | failed _ _ => exact absurd (Prod.mk.inj (Except.ok.inj h)).1 (by decide)
  | missing _ => exact hfind
  | entry _ _ _ => exact absurd (Prod.mk.inj (Except.ok.inj h)).1 (by decide)

/-- A new entry changes the dictionary: a search finds it. -/
theorem dict_ne_of_inserted {dict dict' : TuxDir} {layout' : Nat → List Nat} {p : Nat}
    (hfind : tuxFindEntry dict dir name = .ok (.failed (-enoent)))
    (hins : Dir.Inserted dict layout dict' layout' (created name atom 0 p)) : dict' ≠ dict := by
  rintro rfl
  obtain ⟨found, heq, hfound⟩ :=
    @nameSearch_spec _ _ dir name _ _ hins.tiled (Nat.zero_add dict'.blocks)
  have hmem : created name atom 0 p ∈ listing dict' layout' :=
    hins.listing_perm.mem_iff.mpr List.mem_cons_self
  obtain ⟨b, hb, o, ho, hlive, hreport⟩ := mem_listing.mp hmem
  have hentry : (dict'.data b o).name = name := congrArg DirReport.name hreport
  have hlength := ((hins.tiled.tiled b hb).recordOk o ho).name_length
  unfold tuxFindEntry at hfind
  rw [heq] at hfind
  obtain rfl := Except.ok.inj hfind
  generalize hend : Found.failed (-enoent) = found at hfound
  cases hfound with
  | failed _ _ => exact absurd (Found.failed.inj hend) (by decide)
  | missing hmissing =>
      have hmatch := hmissing b (Nat.zero_le b) hb o ho
      unfold Dir.Dirent.tuxMatch at hmatch
      rw [← hlength, hentry, hlive] at hmatch
      simp at hmatch
  | entry _ _ _ => cases hend

theorem create_cases (ht : DirTiled sb.dict layout) (hname : 0 < name.length)
    (hfits : tuxRecLen name.length ≤ sb.dict.blocksize) (io : DirIo) (atom : Nat)
    (hfind : tuxFindEntry sb.dict dir name = .ok (.failed (-enoent))) :
    (∃ err, tuxCreateEntry sb.dict io name atom 0 = .ok (sb.dict, err) ∧ err < 0) ∨
      ∃ dict' p, tuxCreateEntry sb.dict io name atom 0 = .ok (dict', p) ∧ 0 ≤ p ∧
        dict' ≠ sb.dict := by
  obtain ⟨r, heq, hr⟩ := tuxCreateEntry_spec io atom 0 ht hname hfits
  cases hr with
  | readFailed _ _ => exact .inl ⟨_, heq, by decide⟩
  | dirtyFailed hio => exact .inl ⟨_, heq, by omega⟩
  | inserted hins =>
      exact .inr ⟨_, _, heq, Int.natCast_nonneg _, dict_ne_of_inserted hfind hins⟩

theorem not_createFails {dict' : TuxDir} {p : Int} {io : DirIo}
    (h : tuxCreateEntry sb.dict io name atom 0 = .ok (dict', p)) (hp : 0 ≤ p) :
    ¬ CreateFails sb io name atom := by
  rintro ⟨_, _, heq, hneg⟩
  rw [h] at heq
  obtain rfl := (Prod.mk.inj (Except.ok.inj heq)).2
  omega

/-- What `get_freeatom` comes to: an error, a number that was never used, or the head of the list of
free atoms. -/
inductive FreeatomResult (sb : AtomSb) : AtomSb × Int × Nat → Prop where
  | failed {err : Int} {atom : Nat} (hne : err ≠ 0) : FreeatomResult sb (sb, err, atom)
  | fresh (hzero : sb.freeatom = 0) :
      FreeatomResult sb ({ sb with atomgen := (sb.atomgen + 1) % 2 ^ 32 }, 0, sb.atomgen)
  | head (hne : sb.freeatom ≠ 0) :
      FreeatomResult sb ({ sb with freeatom := sb.nextFree sb.freeatom }, 0, sb.freeatom)

theorem getFreeatom_spec (sb : AtomSb) (readFails : Bool) :
    FreeatomResult sb (getFreeatom sb readFails) := by
  unfold getFreeatom
  split
  · rename_i hzero
    exact .fresh hzero
  · rename_i hne
    dsimp only
    split
    · rename_i hneg
      exact .failed (Int.ne_of_lt hneg)
    · rename_i hpos
      split
      · have hread : unatomDictRead sb readFails sb.freeatom = sb.unatom sb.freeatom := by
          unfold unatomDictRead at hpos ⊢
          split
          · rename_i hio
            rw [if_pos hio] at hpos
            exact absurd (by decide) hpos
          · rfl
        rw [hread]
        exact .head hne
      · exact .failed (by decide)

theorem FreeatomResult.dict_eq {r : AtomSb × Int × Nat} (h : FreeatomResult sb r) :
    r.1.dict = sb.dict := by
  cases h <;> rfl

theorem FreeatomResult.unatom_eq {r : AtomSb × Int × Nat} (h : FreeatomResult sb r) :
    r.1.unatom = sb.unatom := by
  cases h <;> rfl

/-- The list of free atoms does not come back to its head. -/
theorem AtomsOk.nextFree_ne (h : AtomsOk sb) (hne : sb.freeatom ≠ 0) :
    sb.nextFree sb.freeatom ≠ sb.freeatom := by
  obtain ⟨atoms, hlinked, hnodup⟩ := h.free
  obtain ⟨rest, rfl, hrest⟩ := hlinked.exists_cons hne
  intro heq
  rw [heq] at hrest
  rcases hrest.head_mem with hzero | hmem
  · exact hne hzero
  · exact (List.nodup_cons.mp hnodup).1 hmem

/-! ## Entering a name -/

/-- The reverse map takes a position, or there is an error and nothing is changed. -/
theorem unatomDictWrite_cases (sb : AtomSb) (io : BlockIo) (atom : Nat) (p : Int) :
    ((io.readFails = true ∨ io.dirtyErr ≠ 0) ∧
      ∃ err, unatomDictWrite sb io atom p = .ok (sb, err) ∧ err < 0) ∨
    ((io.readFails = false ∧ io.dirtyErr = 0) ∧ unatomDictWrite sb io atom p =
      .ok ({ sb with unatom := Function.update sb.unatom atom p }, sb.unatom atom)) := by
  unfold unatomDictWrite
  cases hread : io.readFails with
  | true => exact .inl ⟨.inl rfl, _, rfl, by decide⟩
  | false =>
      rw [if_neg Bool.false_ne_true, bind_of_ok (tuxAssert_of io.dirtyErr_ne)]
      by_cases hdirty : io.dirtyErr = 0
      · rw [if_neg (not_not_intro hdirty)]
        exact .inr ⟨⟨rfl, hdirty⟩, rfl⟩
      · rw [if_pos hdirty]
        exact .inl ⟨.inr hdirty, _, rfl, by omega⟩

/-- What `make_atom` comes to for a new name, after it has a number. -/
inductive EnterResult (sb : AtomSb) (io : AtomIo) (name : Bytes) (atom : Nat) :
    AtomSb × Int × Nat → Prop where
  | createFailed {err : Int} (hcreate : CreateFails sb io.create name atom) (hneg : err < 0) :
      EnterResult sb io name atom (sb, err, 0)
  | unatomFailed {dict : TuxDir} {err : Int} (hcreate : ¬ CreateFails sb io.create name atom)
      (hio : io.unatom.readFails = true ∨ io.unatom.dirtyErr ≠ 0) (hne : dict ≠ sb.dict)
      (hneg : err < 0) : EnterResult sb io name atom ({ sb with dict := dict }, err, 0)
  | entered {sb' : AtomSb} (hcreate : ¬ CreateFails sb io.create name atom)
      (hio : io.unatom.readFails = false ∧ io.unatom.dirtyErr = 0) (hne : sb'.dict ≠ sb.dict) :
      EnterResult sb io name atom (sb', 0, atom)

theorem enterAtom_spec (ht : DirTiled sb.dict layout) (hname : 0 < name.length)
    (hfits : tuxRecLen name.length ≤ sb.dict.blocksize) (io : AtomIo)
    (hpos : 0 ≤ sb.unatom atom)
    (hfind : tuxFindEntry sb.dict dir name = .ok (.failed (-enoent))) :
    ∃ r, enterAtom sb io name atom = .ok r ∧ EnterResult sb io name atom r := by
  unfold enterAtom
  obtain ⟨err, hcreate, hneg⟩ | ⟨dict', p, hcreate, hp, hne⟩ :=
    create_cases ht hname hfits io.create atom hfind
  · rw [bind_of_ok hcreate]
    dsimp only
    rw [if_pos hneg]
    exact ⟨_, rfl, .createFailed ⟨_, _, hcreate, hneg⟩ hneg⟩
  · rw [bind_of_ok hcreate]
    dsimp only
    rw [if_neg (Int.not_lt.mpr hp)]
    have hok := not_createFails hcreate hp
    obtain ⟨hio, err, hwrite, hneg⟩ | ⟨hio, hwrite⟩ :=
      unatomDictWrite_cases { sb with dict := dict' } io.unatom atom p
    · rw [bind_of_ok hwrite]
      dsimp only
      rw [if_pos hneg]
      exact ⟨_, rfl, .unatomFailed hok hio hne hneg⟩
    · rw [bind_of_ok hwrite]
      dsimp only
      rw [if_neg (Int.not_lt.mpr hpos)]
      exact ⟨_, rfl, .entered hok hio hne⟩

/-- `make_atom` of a name that is there. -/
theorem makeAtom_found {io : AtomIo} (h : findAtom sb io.find name = .ok (0, atom)) :
    makeAtom sb io name = .ok (sb, 0, atom) := by
  unfold makeAtom
  rw [bind_of_ok h]
  rfl

theorem makeAtom_failed {io : AtomIo} (h : findAtom sb io.find name = .ok (err, atom))
    (hne : err ≠ 0) (hdata : err ≠ -enodata) : makeAtom sb io name = .ok (sb, err, 0) := by
  unfold makeAtom
  rw [bind_of_ok h]
  dsimp only
  rw [if_neg hne, if_pos hdata]
  rfl

theorem makeAtom_new {io : AtomIo} (h : findAtom sb io.find name = .ok (-enodata, a))
    (hget : getFreeatom sb io.freeFails = (sb', err, atom)) : makeAtom sb io name =
      if err ≠ 0 then .ok (sb', err, 0) else enterAtom sb' io name atom := by
  unfold makeAtom
  rw [bind_of_ok h]
  dsimp only
  rw [if_neg (by decide), if_neg (by decide), hget]
  rfl

/-! ## What is lost -/

theorem setXattr_of_made {atoms : AtomSb}
    (h : makeAtom st.atoms io.atom name = .ok (atoms, 0, atom)) :
    setXattr st io name data flags = xcacheUpdate { st with atoms := atoms } io atom data flags := by
  unfold setXattr
  rw [bind_of_ok h]
  rfl

theorem setXattr_of_failed {atoms : AtomSb}
    (h : makeAtom st.atoms io.atom name = .ok (atoms, err, atom)) (hne : err ≠ 0) :
    setXattr st io name data flags = .ok ({ st with atoms := atoms }, err) := by
  unfold setXattr
  rw [bind_of_ok h]
  dsimp only
  rw [if_pos hne]
  rfl

theorem createFails_congr {io : DirIo} (hdict : sb'.dict = sb.dict) :
    CreateFails sb' io name atom ↔ CreateFails sb io name atom := by
  unfold CreateFails
  rw [hdict]

/-- `make_atom` of a new name that got a number. -/
theorem makeAtom_enter {io : AtomIo} (h : AtomsOk sb) (hname : 0 < name.length)
    (hfits : tuxRecLen name.length ≤ sb.dict.blocksize)
    (hfind : findAtom sb io.find name = .ok (-enodata, a))
    (hget : getFreeatom sb io.freeFails = (sb', 0, atom)) :
    ∃ r, makeAtom sb io name = .ok r ∧ EnterResult sb' io name atom r := by
  obtain ⟨layout, ht⟩ := h.tiled
  have hresult := hget ▸ getFreeatom_spec sb io.freeFails
  have hdict : sb'.dict = sb.dict := hresult.dict_eq
  have hmissing := findAtom_missing ht hfind
  rw [← hdict] at ht hfits hmissing
  have hpos : 0 ≤ sb'.unatom atom := by
    have hunatom : sb'.unatom = sb.unatom := hresult.unatom_eq
    rw [hunatom]
    exact h.unatom_nonneg atom
  obtain ⟨r, hr, hentered⟩ := enterAtom_spec ht hname hfits io hpos hmissing
  refine ⟨r, ?_, hentered⟩
  rw [makeAtom_new hfind hget, if_neg (not_not_intro rfl)]
  exact hr

variable (h : AtomsOk st.atoms) (hname : 0 < name.length)
  (hfits : tuxRecLen name.length ≤ st.atoms.dict.blocksize)

include h hname hfits

/-- A failure after something was changed is not taken back. -/
theorem SetLoses.not_keeps (hloses : SetLoses st io name data.length flags) :
    ¬ FailureKeeps st (setXattr st io name data flags) := by
  intro hkeeps
  cases hloses with
  | value hfind hattr hflag hfull =>
      have hrun : setXattr st io name data flags = _ := setXattr_of_made (makeAtom_found hfind)
      rw [xcacheUpdate_loses hattr hflag hfull] at hrun
      exact removeOld_xattrs hattr (hkeeps _ _ hrun (by decide)).xattrs
  | freeatom hfind hget hfree hcreate =>
      obtain ⟨a, hfind⟩ := hfind
      obtain ⟨r, hmake, hr⟩ := makeAtom_enter h hname hfits hfind hget
      have hresult := hget ▸ getFreeatom_spec st.atoms io.atom.freeFails
      rw [← createFails_congr hresult.dict_eq] at hcreate
      cases hr with
      | createFailed _ hneg =>
          have hrun : setXattr st io name data flags = _ :=
            setXattr_of_failed hmake (Int.ne_of_lt hneg)
          have hsame := (hkeeps _ _ hrun (Int.ne_of_lt hneg)).freeatom
          cases hresult with
          | failed hne => exact hne rfl
          | fresh hzero => exact hfree hzero
          | head _ => exact h.nextFree_ne hfree hsame
      | unatomFailed hok _ _ _ => exact hok hcreate
      | entered hok _ _ => exact hok hcreate
  | reverse hfind hget hcreate hio =>
      obtain ⟨a, hfind⟩ := hfind
      obtain ⟨r, hmake, hr⟩ := makeAtom_enter h hname hfits hfind hget
      have hdict := (hget ▸ getFreeatom_spec st.atoms io.atom.freeFails).dict_eq
      rw [← createFails_congr hdict] at hcreate
      cases hr with
      | createFailed hfailed _ => exact hcreate hfailed
      | unatomFailed _ _ hne hneg =>
          have hrun : setXattr st io name data flags = _ :=
            setXattr_of_failed hmake (Int.ne_of_lt hneg)
          exact hne ((hkeeps _ _ hrun (Int.ne_of_lt hneg)).dict.trans hdict.symm)
      | entered _ hok _ =>
          rcases hio with hread | hdirty
          · exact Bool.false_ne_true (hok.1.symm.trans hread)
          · exact hdirty hok.2
  | name hfind hget hcreate hio hupdate =>
      obtain ⟨a, hfind⟩ := hfind
      obtain ⟨r, hmake, hr⟩ := makeAtom_enter h hname hfits hfind hget
      have hdict := (hget ▸ getFreeatom_spec st.atoms io.atom.freeFails).dict_eq
      rw [← createFails_congr hdict] at hcreate
      cases hr with
      | createFailed hfailed _ => exact hcreate hfailed
      | unatomFailed _ hbad _ _ =>
          rcases hbad with hread | hdirty
          · exact Bool.false_ne_true (hio.1.symm.trans hread)
          · exact hdirty hio.2
      | @entered sb'' _ _ hne =>
          have hrun : setXattr st io name data flags = _ := setXattr_of_made hmake
          obtain ⟨st', err, hfail, herr, hatoms⟩ :=
            @xcacheUpdate_fails { st with atoms := sb'' } io data _ flags hupdate
          rw [hfail] at hrun
          have hsame := (hkeeps _ _ hrun herr).dict
          rw [hatoms] at hsame
          exact hne (hsame.trans hdict.symm)

/-- Every other failure changes nothing. -/
theorem setXattr_keeps (hkept : ¬ SetLoses st io name data.length flags) :
    FailureKeeps st (setXattr st io name data flags) := by
  intro st' err hrun hne
  have hfound := hrun
  unfold setXattr at hfound
  obtain ⟨made, hmade, -⟩ := bind_eq_ok.mp hfound
  unfold makeAtom at hmade
  obtain ⟨⟨ferr, a⟩, hfind, -⟩ := bind_eq_ok.mp hmade
  by_cases hzero : ferr = 0
  · rw [hzero] at hfind
    rw [setXattr_of_made (makeAtom_found hfind)] at hrun
    obtain ⟨-, -, rfl | ⟨i, hlookup, hflag, hfull⟩⟩ := xcacheUpdate_failed hrun hne
    · exact ⟨rfl, rfl, rfl, rfl, rfl, rfl⟩
    · exact absurd (.value hfind hlookup hflag hfull) hkept
  by_cases hdata : ferr = -enodata
  swap
  · rw [setXattr_of_failed (makeAtom_failed hfind hzero hdata) hzero] at hrun
    obtain rfl := (Prod.mk.inj (Except.ok.inj hrun)).1
    exact ⟨rfl, rfl, rfl, rfl, rfl, rfl⟩
  rw [hdata] at hfind
  obtain ⟨sb', gerr, atom, hget⟩ : ∃ sb' gerr atom,
      getFreeatom st.atoms io.atom.freeFails = (sb', gerr, atom) := ⟨_, _, _, rfl⟩
  have hresult := hget ▸ getFreeatom_spec st.atoms io.atom.freeFails
  by_cases hgerr : gerr = 0
  swap
  · have hmake := makeAtom_new hfind hget
    rw [if_pos hgerr] at hmake
    rw [setXattr_of_failed hmake hgerr] at hrun
    obtain rfl := (Prod.mk.inj (Except.ok.inj hrun)).1
    cases hresult with
    | failed _ => exact ⟨rfl, rfl, rfl, rfl, rfl, rfl⟩
    | fresh _ => exact absurd rfl hgerr
    | head _ => exact absurd rfl hgerr
  rw [hgerr] at hget hresult
  have hdict : sb'.dict = st.atoms.dict := hresult.dict_eq
  obtain ⟨r, hmake, hr⟩ := makeAtom_enter h hname hfits hfind hget
  cases hr with
  | createFailed hcreate hneg =>
      rw [setXattr_of_failed hmake (Int.ne_of_lt hneg)] at hrun
      obtain rfl := (Prod.mk.inj (Except.ok.inj hrun)).1
      rw [createFails_congr hdict] at hcreate
      cases hresult with
      | failed hbad => exact absurd rfl hbad
      | fresh _ => exact ⟨rfl, rfl, rfl, rfl, rfl, rfl⟩
      | head hfree => exact absurd (.freeatom ⟨a, hfind⟩ hget hfree hcreate) hkept
  | unatomFailed hcreate hio _ _ =>
      rw [createFails_congr hdict] at hcreate
      exact absurd (.reverse ⟨a, hfind⟩ hget hcreate hio) hkept
  | @entered sb'' hcreate hio _ =>
      rw [createFails_congr hdict] at hcreate
      rw [setXattr_of_made hmake] at hrun
      obtain ⟨hupdate, -, -⟩ := xcacheUpdate_failed hrun hne
      exact absurd (.name ⟨a, hfind⟩ hget hcreate hio hupdate) hkept

omit h hname hfits in
/-- `del_xattr` fails before it changes anything. -/
theorem delXattr_keeps : FailureKeeps st (delXattr st io name) := by
  intro st' err hrun hne
  unfold delXattr at hrun
  obtain ⟨⟨ferr, atom⟩, -, hrun⟩ := bind_eq_ok.mp hrun
  dsimp only at hrun
  split at hrun
  · obtain rfl := (Prod.mk.inj (Except.ok.inj hrun)).1
    exact ⟨rfl, rfl, rfl, rfl, rfl, rfl⟩
  · obtain ⟨lookup, -, hrun⟩ := bind_eq_ok.mp hrun
    cases lookup with
    | failed e =>
        obtain rfl := (Prod.mk.inj (Except.ok.inj hrun)).1
        exact ⟨rfl, rfl, rfl, rfl, rfl, rfl⟩
    | found i =>
        obtain ⟨_, -, hrun⟩ := bind_eq_ok.mp hrun
        exact absurd (Prod.mk.inj (Except.ok.inj hrun)).2.symm hne

/-- A failure of `set_xattr` changes nothing exactly if it comes before the old value is taken out
and before a new name is entered; a failure of `del_xattr` never does. -/
theorem failureKeeps_iff : (FailureKeeps st (setXattr st io name data flags) ↔
      ¬ SetLoses st io name data.length flags) ∧ FailureKeeps st (delXattr st io name) :=
  ⟨⟨fun hkeeps hloses => hloses.not_keeps h hname hfits hkeeps, setXattr_keeps h hname hfits⟩,
    delXattr_keeps⟩

end

/-! ## A new name with `XATTR_REPLACE` -/

/-- A table that does not fail. -/
def quietBlock : BlockIo := ⟨false, 0, goodIo.dirtyErr_ne⟩

/-- Nothing fails. -/
def quietIo : XattrIo :=
  ⟨⟨goodIo, false, goodIo, quietBlock⟩, ⟨quietBlock, quietBlock, quietBlock, false, goodIo⟩, false⟩

/-- The name `a` has atom 1, and the inode has no attributes. -/
def oneAtom : XattrSt where
  atoms :=
    { dict := ⟨6, 64, fun _ _ => ⟨1, 64, 1, 0, [97]⟩⟩
      atomgen := 2
      freeatom := 0
      unatom := fun _ => 0
      low := fun _ => 0
      high := fun _ => 0 }
  xcache := none

theorem oneAtom_ok : AtomsOk oneAtom.atoms := by
  have hlen : (Dir.Dirent.mk 1 64 1 0 [97]).len = 64 := rfl
  refine ⟨⟨fun _ => [0], by decide, by decide, fun block _ => ⟨⟨rfl, ?_, rfl⟩, ?_, ?_⟩⟩,
    ⟨[], rfl, List.nodup_nil⟩, fun _ => Int.le_refl 0⟩
  · show 0 < (Dir.Dirent.mk 1 64 1 0 [97]).len
    decide
  · intro o _
    refine ⟨⟨8, hlen⟩, ?_, rfl⟩
    show tuxRecLen 1 ≤ (Dir.Dirent.mk 1 64 1 0 [97]).len
    decide
  · intro o ho hne
    exact absurd (List.mem_singleton.mp ho) hne

theorem failureKeeps_iff_oneAtom :
    (FailureKeeps oneAtom (setXattr oneAtom quietIo [98] [7] xattrReplace) ↔
      ¬ SetLoses oneAtom quietIo [98] 1 xattrReplace) ∧
    FailureKeeps oneAtom (delXattr oneAtom quietIo [98]) :=
  @failureKeeps_iff oneAtom quietIo [98] [7] xattrReplace oneAtom_ok (by decide) (by decide)

/-- `b` is to be replaced and is not there: it stays in the dictionary, with an atom that nothing
refers to. -/
theorem setXattr_replace : (∃ st', setXattr oneAtom quietIo [98] [7] xattrReplace =
      .ok (st', -enodata) ∧ findAtom oneAtom.atoms goodIo [98] = .ok (-enodata, 0) ∧
        findAtom st'.atoms goodIo [98] = .ok (0, 2) ∧ st'.atoms.low 2 = 0) ∧
    ¬ FailureKeeps oneAtom (setXattr oneAtom quietIo [98] [7] xattrReplace) := by
  refine ⟨⟨_, rfl, rfl, rfl, rfl⟩, @SetLoses.not_keeps oneAtom quietIo [98] [7] xattrReplace
    oneAtom_ok (by decide) (by decide) ?_⟩
  have hcreate : ¬ CreateFails oneAtom.atoms quietIo.atom.create [98] 2 :=
    not_createFails rfl (by decide)
  exact .name ⟨0, rfl⟩ rfl hcreate ⟨rfl, rfl⟩ ⟨.failed (-enoattr), rfl, .inl (.inr (by decide))⟩

end Tux3.Xattr
