/-
  Xattr/Runs.lean --- runs of the calls on extended attributes, over any number of inodes.

  An atom is in use as long as the cache of some inode has an entry with it: its count of
  references is the number of these entries.  To its users an inode has a value for each name; a
  call that sets, deletes or purges changes what it should, `get_xattr` returns what is there, and
  `list_xattr` lists its names.
-/
import Tux3.Lib.Tally
import Tux3.Xattr.Calls
import Tux3.Xattr.List

set_option autoImplicit false

namespace Tux3.Xattr

open BigEndian Dir Outcome
open Tally

/-! ## Runs -/

/-- The atoms, the caches of the inodes, and the values that the inodes have to their users. -/
structure AttrState (Inode : Type) where
  atoms : AtomSb
  xcache : Inode → Option Xcache
  attrs : Inode → Bytes → Option Bytes

variable {Inode : Type} [DecidableEq Inode]

/-- A call changed the atoms, and the cache and the values of an inode. -/
def AttrState.call (s : AttrState Inode) (i : Inode) (st : XattrSt)
    (attrs : Bytes → Option Bytes) : AttrState Inode where
  atoms := st.atoms
  xcache := Function.update s.xcache i st.xcache
  attrs := Function.update s.attrs i attrs

/-- The calls on the attributes of an inode, and what they do to its users; an error of `set_xattr`
or `del_xattr` is to change nothing.  An inode is saved and read again at any time. -/
inductive AttrStep (s : AttrState Inode) : AttrState Inode → Prop
  | set {i : Inode} {io : XattrIo} {name data : Bytes} {flags : Nat} {st : XattrSt} {err : Int}
      (hname : 0 < name.length) (hlen : name.length ≤ 255)
      (hfits : tuxRecLen name.length ≤ s.atoms.dict.blocksize)
      (hsafe : SetSafe ⟨s.atoms, s.xcache i⟩ io name data.length flags)
      (hcall : setXattr ⟨s.atoms, s.xcache i⟩ io name data flags = .ok (st, err)) :
      AttrStep s (s.call i st
        (if err = 0 then Function.update (s.attrs i) name (some data) else s.attrs i))
  | del {i : Inode} {io : XattrIo} {name : Bytes} {st : XattrSt} {err : Int} (hio : io.ref.Quiet)
      (hcall : delXattr ⟨s.atoms, s.xcache i⟩ io name = .ok (st, err)) :
      AttrStep s (s.call i st
        (if err = 0 then Function.update (s.attrs i) name none else s.attrs i))
  | purge {i : Inode} {io : Nat → RefIo} {st : XattrSt}
      (hcall : xcacheRemoveAll ⟨s.atoms, s.xcache i⟩ io = .ok (st, 0)) :
      AttrStep s (s.call i st fun _ => none)
  | reload {i : Inode} {src inode : InodeAttrs} {version size : Nat} {bytes : Bytes}
      (hsrc : src.xcache = s.xcache i) (htyped : src.WellTyped) (hversion : version < 2 ^ 12)
      (hsize : iattrEncodedSize src = .ok size)
      (hsave : iattrEncode version size src = .ok bytes)
      (hload : iattrDecode version freshInode bytes = .ok inode) :
      AttrStep s (s.call i ⟨s.atoms, inode.xcache⟩ (s.attrs i))

/-- The runs from an empty atom table on, where no inode has attributes. -/
def attrSystem (Inode : Type) [DecidableEq Inode] : System (AttrState Inode) where
  init s := s.atoms.dict.blockbits ≤ 16 ∧ s.atoms.dict.size = 0 ∧ s.atoms.atomgen = 1 ∧
    s.atoms.freeatom = 0 ∧ (∀ atom, s.atoms.unatom atom = 0) ∧
    (∀ atom, s.atoms.low atom = 0 ∧ s.atoms.high atom = 0) ∧ (∀ i, s.xcache i = none) ∧
    ∀ i name, s.attrs i name = none
  next := AttrStep

variable [Fintype Inode]

/-- The invariant: the counts are those of the entries of all caches. -/
structure AttrInv (s : AttrState Inode) (live : List DirReport) : Prop where
  atoms : AtomsInv s.atoms live none
  cache : ∀ i, CacheOk (s.xcache i)
  count : ∀ atom, s.atoms.refcount atom = tally (usesOf atom) s.xcache
  stores : ∀ i, Stores live (s.xcache i) (s.attrs i)

section Run

variable {s s' : AttrState Inode} {live live' : List DirReport} {i : Inode} {st : XattrSt}
  {attrs : Bytes → Option Bytes} {atom : Nat}

omit [DecidableEq Inode] in
theorem AttrInv.uses_le (h : AttrInv s live) (i : Inode) (atom : Nat) :
    usesOf atom (s.xcache i) ≤ s.atoms.refcount atom := by
  rw [h.count]
  exact le_tally (usesOf atom) s.xcache i

omit [DecidableEq Inode] in
theorem AttrInv.used (h : AttrInv s live) (i : Inode) :
    ∀ atom ∈ atomsOf (s.xcache i), s.atoms.refcount atom ≠ 0 := by
  intro atom hmem
  have hpos : 0 < usesOf atom (s.xcache i) := List.count_pos_iff.mpr hmem
  have hle := h.uses_le i atom
  omega

omit [DecidableEq Inode] in
/-- An inode uses an atom once at most. -/
theorem AttrInv.refcount_le (h : AttrInv s live) (atom : Nat) :
    s.atoms.refcount atom ≤ Fintype.card Inode := by
  rw [h.count]
  exact tally_le_card fun i => List.nodup_iff_count_le_one.mp (h.cache i).nodup atom

theorem attrInv_init (h : (attrSystem Inode).init s) : AttrInv s [] := by
  obtain ⟨hbits, hsize, hgen, hfree, hunatom, hzero, hcache, hattrs⟩ := h
  have hcount : ∀ atom, s.atoms.refcount atom = 0 := by
    intro atom
    unfold AtomSb.refcount
    rw [(hzero atom).1, (hzero atom).2, Nat.mul_zero]
  have hinit : RefInv ⟨s.atoms, [], fun _ => 0⟩ :=
    refInv_init ⟨hbits, hsize, rfl, hgen, hfree, hunatom, hzero, fun _ => rfl⟩
  refine ⟨⟨hinit.table, hinit.halves, fun atom => ?_, ?_, ?_⟩, fun i => ?_, fun atom => ?_,
    fun i name value => ?_⟩
  · rw [hcount]
    exact iff_of_false List.not_mem_nil
      (not_or.mpr ⟨not_not_intro rfl, (Option.some_ne_none atom).symm⟩)
  · rw [hgen]
    exact Nat.one_le_two_pow
  · exact fun entry hmem => absurd hmem List.not_mem_nil
  · rw [hcache]
    exact cacheOk_none
  · rw [hcount]
    refine (tally_eq_zero fun i => ?_).symm
    rw [hcache]
    rfl
  · rw [hattrs, hcache]
    refine iff_of_false (by rintro ⟨⟩) ?_
    rintro ⟨entry, hmem, -⟩
    exact absurd hmem List.not_mem_nil

/-- A call on one inode keeps the invariant of all. -/
theorem AttrInv.call (h : AttrInv s live)
    (heffect : CallEffect s.atoms live (s.xcache i) st.atoms live' st.xcache)
    (hstores : Stores live' st.xcache attrs) : AttrInv (s.call i st attrs) live' := by
  have hcount : ∀ atom, st.atoms.refcount atom =
      tally (usesOf atom) (Function.update s.xcache i st.xcache) := by
    intro atom
    have hmove := tally_update (usesOf atom) s.xcache i st.xcache
    have heq := heffect.count atom
    have hold := h.count atom
    omega
  refine ⟨heffect.atoms, ?_, hcount, fun j => ?_⟩
  · exact (Function.forall_update_iff s.xcache fun _ c => CacheOk c).mpr
      ⟨heffect.cache, fun j _ => h.cache j⟩
  · unfold AttrState.call
    dsimp only
    by_cases hj : j = i
    · subst hj
      rw [Function.update_self, Function.update_self]
      exact hstores
    · rw [Function.update_of_ne hj, Function.update_of_ne hj]
      -- the atoms of the other inodes are in use before and behind the call
      refine (h.stores j).congr fun e hmem => heffect.kept e (h.used j _ hmem) ?_
      have hle := le_tally (usesOf e.inum) (Function.update s.xcache i st.xcache) j
      rw [Function.update_of_ne hj, ← hcount] at hle
      have hpos : 0 < usesOf e.inum (s.xcache j) := List.count_pos_iff.mpr hmem
      omega

theorem AttrInv.step (hcard : Fintype.card Inode + 1 < 2 ^ 32) (h : AttrInv s live)
    (hstep : AttrStep s s') : ∃ live', AttrInv s' live' := by
  cases hstep with
  | @set i io name data flags st err hname hlen hfits hsafe hcall =>
      have hlt : ∀ atom, s.atoms.refcount atom + 1 < 2 ^ 32 := by
        intro atom
        have hle := h.refcount_le atom
        omega
      obtain ⟨live', heffect, hstores⟩ := setXattr_effect h.atoms (h.cache i) (h.stores i)
        (h.used i) hlt hname hlen hfits hsafe hcall
      exact ⟨live', h.call heffect hstores⟩
  | @del i io name st err hio hcall =>
      obtain ⟨live', heffect, hstores⟩ :=
        delXattr_effect h.atoms (h.cache i) (h.stores i) (h.used i) hio hcall
      exact ⟨live', h.call heffect hstores⟩
  | @purge i io st hcall =>
      obtain ⟨live', heffect, hstores⟩ :=
        xcacheRemoveAll_effect h.atoms (h.cache i) (h.uses_le i) hcall
      exact ⟨live', h.call heffect hstores⟩
  | @reload i src inode version size bytes hsrc htyped hversion hsize hsave hload =>
      obtain ⟨heffect, hsame⟩ := reload_effect h.atoms (hsrc ▸ h.cache i) htyped hversion hsize
        hsave hload
      rw [hsrc] at heffect hsame
      refine ⟨live, h.call heffect ?_⟩
      intro name value
      rw [hsame]
      exact h.stores i name value

theorem attrSystem_inv (hcard : Fintype.card Inode + 1 < 2 ^ 32)
    (h : (attrSystem Inode).Reachable s) : ∃ live, AttrInv s live := by
  refine h.invariant (I := fun s => ∃ live, AttrInv s live) ?_ ?_
  · intro s hinit
    exact ⟨[], attrInv_init hinit⟩
  · rintro s s' ⟨live, hinv⟩ hstep
    exact hinv.step hcard hstep

end Run

/-! ## What holds in every run -/

/-- What holds of the atoms: a count is the number of inodes that have an attribute of that name,
the free atoms are those handed out that no inode has, an atom that an inode has leads to its name
and back, and no other name is found. -/
structure AtomsSound (s : AttrState Inode) : Prop where
  count : ∀ atom, s.atoms.low atom + 2 ^ 16 * s.atoms.high atom =
    (Finset.univ.filter fun i => atom ∈ atomsOf (s.xcache i)).card
  free : ∃ free, Linked s.atoms.nextFree 0 s.atoms.freeatom free ∧ free.Nodup ∧ ∀ atom,
    atom ∈ free ↔ (1 ≤ atom ∧ atom < s.atoms.atomgen) ∧ ∀ i, atom ∉ atomsOf (s.xcache i)
  named : ∀ i, ∀ atom ∈ atomsOf (s.xcache i),
    (1 ≤ atom ∧ atom < s.atoms.atomgen) ∧ s.atoms.Named atom
  find : ∀ (io : DirIo) (name : Bytes) (atom : Nat), (∀ block, io.readFails block = false) →
    (findAtom s.atoms io name = .ok (0, atom) ↔
      s.atoms.name atom = name ∧ ∃ i, atom ∈ atomsOf (s.xcache i))

/-- Names, each with a zero behind it. -/
def zeroEnded (names : List Bytes) : Bytes := names.flatMap (· ++ [0])

/-- What `list_xattr` does for an inode that has a cache: it says how long the names of all its
values are, and with room for them it lists them. -/
def ListSound (s : AttrState Inode) : Prop :=
  ∀ i xcache, s.xcache i = some xcache → ∃ names : List Bytes, names.Nodup ∧
    (∀ name, name ∈ names ↔ ∃ value, s.attrs i name = some value) ∧
    (∀ text, listXattr s.atoms (fun _ => UnatomIo.none) (s.xcache i) text 0 =
      .ok ⟨(zeroEnded names).length, text, false⟩) ∧
    ∀ text : Bytes, text ≠ [] → (zeroEnded names).length ≤ text.length → text.length < 2 ^ 32 →
      listXattr s.atoms (fun _ => UnatomIo.none) (s.xcache i) text text.length =
        .ok ⟨(zeroEnded names).length, zeroEnded names ++ text.drop (zeroEnded names).length,
          false⟩

section Sound

variable {s : AttrState Inode} {live : List DirReport} {entry : DirReport} {atom : Nat}
  {sb : AtomSb} {xattrs : List XcacheEntry} {offset size : Nat} {names : List Bytes}

/-- The reverse map leads to the entry of a live atom. -/
theorem AtomsInv.named (h : AtomsInv sb live none) (hmem : entry ∈ live) :
    sb.Named entry.inum ∧ sb.name entry.inum = entry.name := by
  obtain ⟨free, htable⟩ := h.table
  obtain ⟨layout, htiled, hperm, -⟩ := htable.dir
  obtain ⟨hb, ho, -, hreport⟩ :=
    @DirTiled.record_of_mem ⟨sb.dict, live⟩ _ _ htiled (hperm.mem_iff.mpr hmem)
  have hlength := ((htiled.tiled _ hb).recordOk _ ho).name_length
  have hentry : sb.entry entry.inum = sb.dict.data (entry.pos / sb.dict.blocksize)
      (entry.pos % sb.dict.blocksize) := by
    unfold AtomSb.entry
    rw [htable.pos entry hmem, Int.toNat_natCast]
  have hname : sb.name entry.inum = entry.name := by
    unfold AtomSb.name
    rw [hentry]
    exact congrArg DirReport.name hreport
  refine ⟨⟨htable.unatom_nonneg _, ?_, ?_, ?_⟩, hname⟩
  · rw [hentry]
    exact htable.entry_atom hmem
  · unfold AtomSb.name
    rw [hentry]
    exact hlength
  · rw [hname]
    exact h.name_le entry hmem

omit [DecidableEq Inode] in
/-- The live atoms are those that inodes have. -/
theorem AttrInv.live_iff (h : AttrInv s live) :
    atom ∈ live.map DirReport.inum ↔ ∃ i, atom ∈ atomsOf (s.xcache i) := by
  rw [h.atoms.used, or_iff_left (Option.some_ne_none atom).symm, h.count]
  constructor
  · intro hne
    by_contra hnone
    refine hne (tally_eq_zero fun i => List.count_eq_zero_of_not_mem fun hmem => ?_)
    exact hnone ⟨i, hmem⟩
  · rintro ⟨i, hmem⟩
    rw [← h.count]
    exact h.used i atom hmem

omit [DecidableEq Inode] in
theorem AttrInv.sound (h : AttrInv s live) : AtomsSound s := by
  obtain ⟨free, htable⟩ := h.atoms.table
  refine ⟨fun atom => ?_, ⟨free, htable.linked, (List.nodup_append.mp htable.nodup).1,
    fun atom => ?_⟩, fun i atom hmem => ?_, fun io name atom hio => ?_⟩
  · refine (h.count atom).trans (tally_eq_card fun i => ?_)
    unfold usesOf
    rw [List.Nodup.count (h.cache i).nodup]
  · rw [htable.mem_iff, h.live_iff, not_exists]
  · obtain ⟨entry, hentry, rfl⟩ := List.mem_map.mp (h.live_iff.mpr ⟨i, hmem⟩)
    exact ⟨htable.live_handed hentry, (h.atoms.named hentry).1⟩
  · rw [← h.live_iff]
    obtain ⟨found, heq, hfound⟩ := htable.dir.find io name
    unfold findAtom
    rw [bind_of_ok heq]
    cases hfound with
    | failed _ hfail => exact absurd ((hio _).symm.trans hfail) Bool.false_ne_true
    | missing hmiss =>
        refine iff_of_false (fun hok => ?_) ?_
        · exact absurd (Prod.mk.inj (Except.ok.inj hok)).1 (by decide)
        · rintro ⟨hname, hlive⟩
          obtain ⟨entry, hmem, rfl⟩ := List.mem_map.mp hlive
          rw [(h.atoms.named hmem).2] at hname
          exact hmiss (hname ▸ List.mem_map_of_mem hmem)
    | @found entry hmem hname hinum =>
        have hatom := htable.entry_atom hmem
        dsimp only at hatom ⊢
        rw [hatom]
        constructor
        · intro hok
          obtain rfl := (Prod.mk.inj (Except.ok.inj hok)).2
          exact ⟨(h.atoms.named hmem).2.trans hname, List.mem_map_of_mem hmem⟩
        · rintro ⟨hsame, hlive⟩
          obtain ⟨e, he, rfl⟩ := List.mem_map.mp hlive
          rw [(h.atoms.named he).2] at hsame
          rw [h.atoms.eq_of_name hmem he (hname.trans hsame.symm)]
          rfl

/-- Names fit a buffer that is long enough for all of them. -/
theorem listFits_zeroEnded (hle : offset + (zeroEnded names).length ≤ size)
    (hlt : size < 2 ^ 32) : ListFits size offset names := by
  induction names generalizing offset with
  | nil => trivial
  | cons name names ih =>
      have hsplit : zeroEnded (name :: names) = name ++ [0] ++ zeroEnded names := rfl
      rw [hsplit, List.length_append, List.length_append, List.length_singleton] at hle
      refine fun _ => ⟨fun hzero => absurd hzero (by omega), fun hlarge => ?_, ih (by omega)⟩
      omega

theorem listedNames_eq (sb : AtomSb) (xattrs : List XcacheEntry) :
    listedNames sb xattrs = zeroEnded (xattrNames sb xattrs) := by
  unfold listedNames zeroEnded xattrNames
  rw [List.flatMap_map]

omit [DecidableEq Inode] in
theorem AttrInv.list (h : AttrInv s live) : ListSound s := by
  intro i xcache hxcache
  have hok := (h.cache i).ok xcache hxcache
  have hnodup := (h.cache i).nodup
  have hstores := h.stores i
  have hlive : ∀ x ∈ xcache.xattrs, ∃ entry ∈ live, entry.inum = x.atom := by
    intro x hx
    have hmem : x.atom ∈ atomsOf (s.xcache i) := by
      rw [hxcache]
      exact List.mem_map_of_mem hx
    exact List.mem_map.mp (h.live_iff.mpr ⟨i, hmem⟩)
  rw [hxcache] at hnodup hstores ⊢
  have hnamed : ∀ x ∈ xcache.xattrs, s.atoms.Named x.atom := by
    intro x hx
    obtain ⟨entry, hmem, hinum⟩ := hlive x hx
    rw [← hinum]
    exact (h.atoms.named hmem).1
  have hlimit : 0 + entriesLen xcache.xattrs = xcache.size := by
    rw [hok.size_eq, Nat.zero_add]
  have hsmall : (listedNames s.atoms xcache.xattrs).length < 2 ^ 31 := by
    have hle := length_listedNames_le hnamed
    have hsize := hok.size_le
    have hmax := hok.maxsize_lt
    have heq := hok.size_eq
    omega
  have hint : ∀ n : Nat, n < 2 ^ 31 → int32 n = n := by
    intro n hn
    unfold int32
    rw [if_pos (by omega)]
    omega
  refine ⟨xattrNames s.atoms xcache.xattrs, ?_, fun name => ?_, fun text => ?_,
    fun text hne hle hlt => ?_⟩
  · -- different atoms have different names
    refine List.Nodup.map_on (fun x hx y hy heq => ?_) (List.Nodup.of_map _ hnodup)
    obtain ⟨e, he, hinum⟩ := hlive x hx
    obtain ⟨e', he', hinum'⟩ := hlive y hy
    rw [← hinum, ← hinum', (h.atoms.named he).2, (h.atoms.named he').2] at heq
    have hatom : x.atom = y.atom := by
      rw [← hinum, ← hinum', h.atoms.eq_of_name he he' heq]
    exact List.inj_on_of_nodup_map hnodup hx hy hatom
  · unfold xattrNames
    rw [List.mem_map]
    constructor
    · rintro ⟨x, hx, rfl⟩
      obtain ⟨entry, hmem, hinum⟩ := hlive x hx
      refine ⟨x.body, (hstores _ _).mpr ⟨entry, hmem, ?_, ?_⟩⟩
      · rw [← hinum]
        exact (h.atoms.named hmem).2.symm
      · rw [hinum]
        exact hx
    · rintro ⟨value, hsome⟩
      obtain ⟨entry, hmem, hname, hx⟩ := (hstores name value).mp hsome
      exact ⟨_, hx, (h.atoms.named hmem).2.trans hname⟩
  · rw [← listedNames_eq, listXattr_of_loop (listLoop_query hlimit hnamed), Nat.zero_add,
      hint _ hsmall]
  · rw [← listedNames_eq] at hle ⊢
    have hfits : ListFits text.length 0 (xattrNames s.atoms xcache.xattrs) := by
      refine listFits_zeroEnded ?_ hlt
      rw [Nat.zero_add, ← listedNames_eq]
      exact hle
    obtain ⟨ret, text', hloop, hroom, -⟩ :=
      (@listsFrom_iff s.atoms xcache.size text.length 0 xcache.xattrs [] hlimit hnamed
        (List.length_pos_iff.mpr hne).ne' (by rwa [List.length_nil, Nat.zero_add])).mpr hfits
        text (Nat.zero_add _)
    obtain ⟨rfl, rfl⟩ := hroom hle
    rw [List.length_nil, List.nil_append, Nat.zero_add] at hloop
    exact listXattr_of_loop hloop

end Sound

/-- A call without flags that nothing fails for, where no atom is free. -/
theorem SetSafe.of_quiet {st : XattrSt} {io : XattrIo} {name : Bytes} {len : Nat}
    (hcache : CacheOk st.xcache) (hmem : io.noMem = false) (hquiet : io.ref.Quiet)
    (hunatom : io.atom.unatom.readFails = false ∧ io.atom.unatom.dirtyErr = 0)
    (hfree : st.atoms.freeatom = 0) (hgen : st.atoms.atomgen < 2 ^ 16)
    (hcreate : ¬ CreateFails st.atoms io.atom.create name st.atoms.atomgen) :
    SetSafe st io name len 0 := by
  have hroom : ∀ xcache, ¬ ExpandFails xcache io.noMem len := fun _ hfull =>
    Bool.false_ne_true (hmem.symm.trans hfull.noMem)
  refine ⟨fun hloses => ?_, hquiet, fun _ _ => ⟨hgen, hcreate⟩⟩
  cases hloses with
  | value _ _ _ hfull => exact hroom _ hfull
  | freeatom _ _ hne _ => exact hne hfree
  | reverse _ _ _ hio =>
      rcases hio with hread | hdirty
      · exact Bool.false_ne_true (hunatom.1.symm.trans hread)
      · exact hdirty hunatom.2
  | @name atom _ _ _ _ _ hupdate =>
      obtain ⟨lookup, hlookup, hfails⟩ := hupdate
      obtain ⟨hmiss, -⟩ | ⟨c, a, x, b, -, -, -, hfound⟩ := xcacheLookup_spec hcache atom
      · obtain rfl := Except.ok.inj (hlookup.symm.trans hmiss)
        rcases hfails with (hne | hflag) | hfull
        · exact hne rfl
        · exact hflag (Nat.zero_and _)
        · exact hroom _ hfull
      · obtain rfl := Except.ok.inj (hlookup.symm.trans hfound)
        rcases hfails with hflag | hfull
        · exact hflag (Nat.zero_and _)
        · exact hroom _ hfull

theorem quietIo_quiet : quietIo.ref.Quiet := ⟨rfl, rfl, ⟨rfl, rfl, rfl, rfl, rfl, rfl⟩⟩

/-- The name `a` gets the value 7 in one inode. -/
theorem attrSystem_set : ∃ s : AttrState Bool, (attrSystem Bool).Reachable s ∧
    s.attrs true [97] = some [7] ∧ s.atoms.low 1 = 1 ∧ (s.xcache true).isSome = true := by
  have hinit : (attrSystem Bool).Reachable ⟨emptyAtoms, fun _ => none, fun _ _ => none⟩ :=
    .init ⟨by decide, rfl, rfl, rfl, fun _ => rfl, fun _ => ⟨rfl, rfl⟩, fun _ => rfl,
      fun _ _ => rfl⟩
  have hsafe : SetSafe ⟨emptyAtoms, none⟩ quietIo [97] 1 0 :=
    .of_quiet cacheOk_none rfl quietIo_quiet ⟨rfl, rfl⟩ rfl (by decide)
      (not_createFails rfl (by decide))
  have hset := hinit.next (@AttrStep.set Bool _ _ true quietIo [97] [7] 0 _ _ (by decide)
    (by decide) (by decide) hsafe rfl)
  exact ⟨_, hset, rfl, rfl, rfl⟩

end Tux3.Xattr
