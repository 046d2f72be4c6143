/-
  Xattr/Calls.lean --- what the calls on extended attributes do to an inode.

  The values of an inode are the entries of its cache, under the names of their atoms.  A call
  changes the cache and the counts of the atoms alike (`CallEffect`): what an atom is counted for
  beyond the entries of this inode, it is counted for still.
-/
import Tux3.Inode.AttrCodec
import Tux3.Xattr.Refcount

set_option autoImplicit false

namespace Tux3.Xattr

open BigEndian Dir Outcome

/-! ## Reading and purging -/

/-- `get_xattr`: what it returns, and what it copies. -/
def getXattr (st : XattrSt) (io : DirIo) (name : Bytes) (size : Nat) :
    Except TuxError (Int × Bytes) := do
  let (err, atom) ← findAtom st.atoms io name
  if err ≠ 0 then return (err, [])
  else
    match ← xcacheLookup st.xcache atom with
    | .failed err => return (err, [])
    | .found i =>
        match st.xattrs[i]? with
        | none => .error .bounds
        | some xattr =>
            if xattr.body.length ≤ size then return (xattr.body.length, xattr.body)
            else if size ≠ 0 then return (-erange, [])
            else return (xattr.body.length, [])

/-- The loop of `xcache_remove_all`, with the assert behind it.  The atom of the entry at `pos` is
counted with `io pos`. -/
def removeLoop (io : Nat → RefIo) (xlimit : Nat) :
    List XcacheEntry → Nat → AtomSb → Except TuxError (AtomSb × Int)
  | [], pos, sb =>
      if pos < xlimit then .error .bounds
      else do
        tuxAssert (pos = xlimit)
        return (sb, 0)
  | xattr :: xattrs, pos, sb =>
      if pos < xlimit then do
        let (sb, err) ← atomref sb (io pos) xattr.atom (-1)
        if err ≠ 0 then return (sb, err)
        else removeLoop io xlimit xattrs (pos + xattr.len) sb
      else do
        tuxAssert (pos = xlimit)
        return (sb, 0)

/-- `xcache_remove_all`. -/
def xcacheRemoveAll (st : XattrSt) (io : Nat → RefIo) : Except TuxError (XattrSt × Int) :=
  match st.xcache with
  | none => return (st, 0)
  | some xcache => do
      let (atoms, err) ← removeLoop io xcache.size xcache.xattrs 0 st.atoms
      if err ≠ 0 then return ({ st with atoms := atoms }, err)
      else return (⟨atoms, none⟩, 0)

/-! ## The cache -/

/-- The entries of a cache. -/
def entriesOf (xcache : Option Xcache) : List XcacheEntry := xcache.elim [] Xcache.xattrs

/-- The atoms of a cache. -/
def atomsOf (xcache : Option Xcache) : List Nat := (entriesOf xcache).map XcacheEntry.atom

/-- The sizes are right, and the atoms of the entries are pairwise different. -/
structure CacheOk (xcache : Option Xcache) : Prop where
  ok : ∀ c, xcache = some c → c.Ok
  nodup : (atomsOf xcache).Nodup

section Cache

variable {sb : AtomSb} {st st' : XattrSt} {io : XattrIo} {xcache : Option Xcache} {c : Xcache}
  {a b l : List XcacheEntry} {x : XcacheEntry} {data : Bytes}
  {atom more i pos xlimit : Nat} {use err : Int}

theorem cacheOk_none : CacheOk none := ⟨(fun _ h => nomatch h), List.nodup_nil⟩

theorem CacheOk.entriesLen_lt (h : CacheOk xcache) : entriesLen (entriesOf xcache) < 2 ^ 16 := by
  cases xcache with
  | none => exact Nat.two_pow_pos 16
  | some c =>
      obtain ⟨heq, hle, hlt, -⟩ := h.ok c rfl
      have hsize : entriesLen (entriesOf (some c)) = c.size := heq.symm
      omega

/-- The walk of a lookup finds the entry of the atom, if there is one. -/
theorem lookupLoop_spec (hlimit : pos + entriesLen l = xlimit) :
    (lookupLoop xlimit atom l i pos = .ok (.failed (-enoattr)) ∧
      atom ∉ l.map XcacheEntry.atom) ∨
    ∃ a x b, l = a ++ x :: b ∧ x.atom = atom ∧
      lookupLoop xlimit atom l i pos = .ok (.found (i + a.length)) := by
  induction l generalizing i pos with
  | nil =>
      obtain rfl : pos = xlimit := hlimit
      refine .inl ⟨?_, List.not_mem_nil⟩
      unfold lookupLoop
      rw [if_neg (Nat.lt_irrefl pos), bind_of_ok (tuxAssert_of rfl)]
      rfl
  | cons x l ih =>
      rw [entriesLen_cons] at hlimit
      have hlen : 0 < x.len := Nat.add_pos_left (Nat.succ_pos 3) _
      unfold lookupLoop
      rw [if_pos (by omega)]
      by_cases hx : x.atom = atom
      · rw [if_pos hx]
        exact .inr ⟨[], x, l, rfl, hx, rfl⟩
      · rw [if_neg hx, if_neg (by omega)]
        obtain ⟨hfail, hnot⟩ | ⟨a, y, b, rfl, hy, hfound⟩ :=
          ih (i := i + 1) (show pos + x.len + entriesLen l = xlimit by omega)
        · refine .inl ⟨hfail, ?_⟩
          rw [List.map_cons, List.mem_cons]
          exact fun hor => hor.elim (fun heq => hx heq.symm) hnot
        · refine .inr ⟨x :: a, y, b, rfl, hy, ?_⟩
          rw [hfound, List.length_cons, Nat.add_assoc, Nat.add_comm 1]

theorem xcacheLookup_spec (h : CacheOk xcache) (atom : Nat) :
    (xcacheLookup xcache atom = .ok (.failed (-enoattr)) ∧ atom ∉ atomsOf xcache) ∨
    ∃ c a x b, xcache = some c ∧ c.xattrs = a ++ x :: b ∧ x.atom = atom ∧
      xcacheLookup xcache atom = .ok (.found a.length) := by
  cases xcache with
  | none => exact .inl ⟨rfl, List.not_mem_nil⟩
  | some c =>
      have hsize : 0 + entriesLen c.xattrs = c.size := by
        rw [(h.ok c rfl).size_eq, Nat.zero_add]
      obtain hmiss | ⟨a, x, b, hl, hx, hfound⟩ := @lookupLoop_spec c.xattrs atom 0 0 c.size hsize
      · exact .inl hmiss
      · rw [Nat.zero_add] at hfound
        exact .inr ⟨c, a, x, b, rfl, hl, hx, hfound⟩

/-- An entry is taken out. -/
theorem removeOld_spec (h : CacheOk (some c)) (hl : c.xattrs = a ++ x :: b) :
    CacheOk (some (removeOld a.length c)) ∧ (removeOld a.length c).xattrs = a ++ b := by
  have hok := h.ok c rfl
  have hget : c.xattrs[a.length]? = some x := by
    rw [hl, List.getElem?_append_right (Nat.le_refl _), Nat.sub_self]
    rfl
  have herase : c.xattrs.eraseIdx a.length = a ++ b := by
    rw [hl, List.eraseIdx_append_of_length_le (Nat.le_refl _), Nat.sub_self]
    rfl
  have hsize : (removeOld a.length c).size = entriesLen (a ++ b) := by
    unfold removeOld
    dsimp only
    rw [hget, hok.size_eq, hl, entriesLen_append, entriesLen_append, entriesLen_cons]
    dsimp only [Option.elim]
    omega
  refine ⟨⟨?_, ?_⟩, herase⟩
  · rintro _ ⟨⟩
    refine ⟨?_, ?_, hok.maxsize_lt, fun y hy => hok.atom_lt y ?_⟩
    · rw [hsize]
      exact congrArg entriesLen herase.symm
    · exact Nat.le_trans (Nat.sub_le _ _) hok.size_le
    · exact (List.eraseIdx_sublist _ _).mem hy
  · exact h.nodup.sublist ((List.eraseIdx_sublist _ _).map _)

/-- Room is made without a change of the entries. -/
theorem makeRoom_ok {noMem : Bool} {xcache' : Option Xcache} (h : CacheOk xcache)
    (hmore : more < 2 ^ 17) (hpos : 0 < more)
    (hcall : makeRoom xcache noMem more = .ok (xcache', 0)) :
    ∃ c, xcache' = some c ∧ c.size = entriesLen c.xattrs ∧ c.xattrs = entriesOf xcache ∧
      c.size + more ≤ c.maxsize ∧ c.maxsize < 2 ^ 16 := by
  unfold makeRoom at hcall
  split at hcall
  · rename_i hroom
    unfold expandXcache at hcall
    obtain ⟨_, hmax, hcall⟩ := bind_eq_ok.mp hcall
    obtain ⟨_, -, hcall⟩ := bind_eq_ok.mp hcall
    obtain ⟨_, hsize, hcall⟩ := bind_eq_ok.mp hcall
    have hle := tuxAssert_eq_ok.mp hsize
    split at hcall
    · exact absurd (Prod.mk.inj (Except.ok.inj hcall)).2 (by decide)
    · cases xcache with
      | none =>
          obtain rfl := (Prod.mk.inj (Except.ok.inj hcall)).1
          refine ⟨_, rfl, rfl, rfl, ?_, ?_⟩ <;> dsimp only [Option.elim] at hle ⊢ <;> omega
      | some c =>
          obtain ⟨heq, hfit, hlt, -⟩ := h.ok c rfl
          obtain rfl := (Prod.mk.inj (Except.ok.inj hcall)).1
          refine ⟨_, rfl, heq, rfl, ?_, ?_⟩ <;> dsimp only [Option.elim] at hle ⊢ <;> omega
  · rename_i hroom
    obtain rfl := (Prod.mk.inj (Except.ok.inj hcall)).1
    cases xcache with
    | none => exact absurd rfl hroom
    | some c =>
        obtain ⟨heq, hfit, hlt, -⟩ := h.ok c rfl
        have hnot : ¬ c.maxsize < (c.size + more) % 2 ^ 32 := fun hlt => hroom (decide_eq_true hlt)
        exact ⟨c, rfl, heq, rfl, by omega, hlt⟩

/-- A value goes behind the others, and its atom is counted. -/
theorem insertNew_ok (h : CacheOk st.xcache) (hatom : atom < 2 ^ 16)
    (hnew : atom ∉ atomsOf st.xcache)
    (hcall : insertNew st io atom data use = .ok (st', 0)) :
    CacheOk st'.xcache ∧ entriesOf st'.xcache = entriesOf st.xcache ++ [⟨atom, data⟩] ∧
      (use + 1 = 0 → st'.atoms = st.atoms) ∧
      (use + 1 ≠ 0 → ∃ err, atomref st.atoms io.ref atom (use + 1) = .ok (st'.atoms, err)) := by
  unfold insertNew at hcall
  obtain ⟨⟨xcache', err'⟩, hroom, hcall⟩ := bind_eq_ok.mp hcall
  dsimp only at hcall
  split at hcall
  · rename_i hne
    exact absurd (Prod.mk.inj (Except.ok.inj hcall)).2 hne
  rename_i hzero
  obtain rfl := not_not.mp hzero
  cases xcache' with
  | none => cases hcall
  | some c' =>
      dsimp only at hcall
      split at hcall
      · cases hcall
      rename_i hlen
      have hmod : (4 + data.length) % 2 ^ 32 = 4 + data.length := Nat.mod_eq_of_lt (by omega)
      rw [hmod] at hroom
      obtain ⟨_, ⟨⟩, hsize, hsame, hfit, hmax⟩ := makeRoom_ok h (by omega) (by omega) hroom
      -- the cache with the new entry
      have hok : CacheOk (some { c' with
          size := c'.size + (4 + data.length) % 2 ^ 32
          xattrs := c'.xattrs ++ [⟨atom % 2 ^ 16, data⟩] }) := by
        rw [hmod, Nat.mod_eq_of_lt hatom]
        refine ⟨?_, ?_⟩
        · rintro _ ⟨⟩
          refine ⟨?_, hfit, hmax, fun y hy => ?_⟩
          · dsimp only
            rw [entriesLen_append, hsize]
            rfl
          · rcases List.mem_append.mp hy with hold | hlast
            · rw [hsame] at hold
              cases hst : st.xcache with
              | none =>
                  rw [hst] at hold
                  exact absurd hold List.not_mem_nil
              | some c =>
                  rw [hst] at hold
                  exact (h.ok c hst).atom_lt y hold
            · rw [List.mem_singleton.mp hlast]
              exact hatom
        · show ((c'.xattrs ++ [(⟨atom, data⟩ : XcacheEntry)]).map XcacheEntry.atom).Nodup
          rw [hsame, List.map_append]
          refine List.nodup_append.mpr ⟨h.nodup, List.nodup_singleton _, ?_⟩
          rintro y hy z hz rfl
          have heq : y = atom := List.mem_singleton.mp hz
          exact hnew (heq ▸ hy)
      have hentries : c'.xattrs ++ [⟨atom % 2 ^ 16, data⟩] =
          entriesOf st.xcache ++ [⟨atom, data⟩] := by
        rw [hsame, Nat.mod_eq_of_lt hatom]
      split at hcall
      · rename_i huse
        obtain rfl := (Prod.mk.inj (Except.ok.inj hcall)).1
        exact ⟨hok, hentries, fun _ => rfl, fun hne => absurd huse hne⟩
      · rename_i huse
        obtain ⟨⟨atoms, err'⟩, href, hcall⟩ := bind_eq_ok.mp hcall
        obtain rfl := (Prod.mk.inj (Except.ok.inj hcall)).1
        exact ⟨hok, hentries, fun hzero => absurd hzero huse, fun _ => ⟨_, href⟩⟩

end Cache

/-! ## The table -/

/-- The atoms, with the names that are live: an atom is live as long as it is counted, but for one
that was just made. -/
structure AtomsInv (sb : AtomSb) (live : List DirReport) (fresh : Option Nat) : Prop where
  table : ∃ free, AtomTable sb live free
  halves : HalvesOk sb
  used : ∀ atom, atom ∈ live.map DirReport.inum ↔ sb.refcount atom ≠ 0 ∨ fresh = some atom
  atomgen_le : sb.atomgen ≤ 2 ^ 16
  name_le : ∀ entry ∈ live, entry.name.length ≤ 255

/-- Nothing fails when an atom is counted. -/
structure RefIo.Quiet (io : RefIo) : Prop where
  low_read : io.low.readFails = false
  low_dirty : io.low.dirtyErr = 0
  whole : io.Whole

section Table

variable {sb sb' : AtomSb} {live : List DirReport} {fresh : Option Nat} {entry e : DirReport}
  {atom total : Nat} {use err : Int}

theorem AtomTable.nodup_live {free : List Nat} (h : AtomTable sb live free) :
    (live.map DirReport.inum).Nodup := (List.nodup_append.mp h.nodup).2.1

/-- A live entry has its own atom. -/
theorem AtomsInv.eq_of_inum (h : AtomsInv sb live fresh) (hmem : entry ∈ live) (hmem' : e ∈ live)
    (heq : entry.inum = e.inum) : entry = e := by
  obtain ⟨free, htable⟩ := h.table
  exact List.inj_on_of_nodup_map htable.nodup_live hmem hmem' heq

theorem AtomsInv.eq_of_name (h : AtomsInv sb live fresh) (hmem : entry ∈ live) (hmem' : e ∈ live)
    (heq : entry.name = e.name) : entry = e := by
  obtain ⟨free, htable⟩ := h.table
  obtain ⟨-, -, -, hnodup⟩ := htable.dir
  exact List.inj_on_of_nodup_map hnodup hmem hmem' heq

theorem AtomsInv.atom_lt (h : AtomsInv sb live fresh) (hmem : entry ∈ live) :
    entry.inum < 2 ^ 16 := by
  obtain ⟨free, htable⟩ := h.table
  exact Nat.lt_of_lt_of_le (htable.live_handed hmem).2 h.atomgen_le

theorem AtomsInv.exists_entry (h : AtomsInv sb live fresh) (hne : sb.refcount atom ≠ 0) :
    ∃ entry ∈ live, entry.inum = atom :=
  List.mem_map.mp ((h.used atom).mpr (.inl hne))

theorem HalvesOk.refcount_lt (h : HalvesOk sb) (atom : Nat) : sb.refcount atom < 2 ^ 32 := by
  have hlow := h.low_lt atom
  have hhigh := h.high_lt atom
  unfold AtomSb.refcount
  omega

/-- A live atom is counted: it is freed if its count comes to zero. -/
theorem AtomsInv.ref {io : RefIo} (h : AtomsInv sb live fresh) (hmem : entry ∈ live)
    (hfresh : ∀ atom, fresh = some atom → atom = entry.inum) (hlt : total < 2 ^ 32)
    (hr : RefResult sb live io entry total (sb', 0)) :
    AtomsInv sb' (if total = 0 then live.erase entry else live) none ∧
      sb'.refcount = Function.update sb.refcount entry.inum total := by
  obtain ⟨free, htable⟩ := h.table
  have hset := sb.refcount_setCount entry.inum total
  have hothers : ∀ atom, atom ≠ entry.inum →
      (atom ∈ live.map DirReport.inum ↔ sb.refcount atom ≠ 0) := by
    intro atom hne
    rw [h.used]
    exact or_iff_left fun heq => hne (hfresh atom heq)
  cases hr with
  | untouched _ hne => exact absurd rfl hne
  | counted hne =>
      rw [if_neg hne]
      refine ⟨⟨⟨free, htable.setCount⟩, h.halves.setCount hlt, fun atom => ?_, h.atomgen_le,
        h.name_le⟩, hset⟩
      rw [hset, or_iff_left (Option.some_ne_none atom).symm]
      by_cases hatom : atom = entry.inum
      · subst hatom
        rw [Function.update_self]
        exact iff_of_true (List.mem_map_of_mem hmem) hne
      · rw [Function.update_of_ne hatom]
        exact hothers atom hatom
  | freed hzero hfreed =>
      subst hzero
      rw [if_pos rfl]
      have hhalves := @HalvesOk.setCount sb entry.inum 0 h.halves hlt
      have hcount : sb'.refcount = Function.update sb.refcount entry.inum 0 := by
        rw [← hset]
        unfold AtomSb.refcount
        rw [hfreed.low, hfreed.high]
      have htable' := hfreed.table htable.setCount hmem
      have hperm : (live.map DirReport.inum).Perm
          (entry.inum :: (live.erase entry).map DirReport.inum) :=
        (List.perm_cons_erase hmem).map DirReport.inum
      refine ⟨⟨⟨_, htable'⟩, ⟨?_, ?_⟩, fun atom => ?_, ?_, fun e he => ?_⟩, hcount⟩
      · rw [hfreed.low]
        exact hhalves.low_lt
      · rw [hfreed.high]
        exact hhalves.high_lt
      · rw [hcount, or_iff_left (Option.some_ne_none atom).symm]
        by_cases hatom : atom = entry.inum
        · subst hatom
          rw [Function.update_self]
          have hnodup := hperm.nodup_iff.mp htable.nodup_live
          exact iff_of_false (List.nodup_cons.mp hnodup).1 (not_not_intro rfl)
        · rw [Function.update_of_ne hatom, ← hothers atom hatom, hperm.mem_iff, List.mem_cons,
            or_iff_right hatom]
      · rw [hfreed.atomgen]
        exact h.atomgen_le
      · exact h.name_le e (List.mem_of_mem_erase he)
  | torn _ hne => exact absurd rfl hne

/-- Where nothing fails, there is no error. -/
theorem RefResult.quiet {io : RefIo} {r : AtomSb × Int} (hr : RefResult sb live io entry total r)
    (hio : io.Quiet) : r.2 = 0 := by
  cases hr with
  | untouched hfail _ =>
      rcases hfail with hread | hdirty
      · exact absurd (hio.low_read.symm.trans hread) Bool.false_ne_true
      · exact absurd hio.low_dirty hdirty
  | counted _ => rfl
  | freed _ _ => rfl
  | torn hnot _ => exact absurd hio.whole hnot

/-- A use is taken back. -/
theorem AtomsInv.release {io : RefIo} (h : AtomsInv sb live none) (hne : sb.refcount atom ≠ 0)
    (hcall : atomref sb io atom (-1) = .ok (sb', err)) (hzero : err = 0 ∨ io.Quiet) :
    ∃ live', AtomsInv sb' live' none ∧
      (∀ a, sb'.refcount a + [atom].count a = sb.refcount a) ∧
      ∀ e, sb'.refcount e.inum ≠ 0 → (e ∈ live' ↔ e ∈ live) := by
  obtain ⟨entry, hmem, rfl⟩ := h.exists_entry hne
  obtain ⟨free, htable⟩ := h.table
  have hlt := h.halves.refcount_lt entry.inum
  obtain ⟨r, heq, hr⟩ := @atomref_spec sb live free entry (sb.refcount entry.inum - 1) (-1) htable
    h.halves hmem (by decide) (by omega) (by omega) io
  obtain rfl := Except.ok.inj (hcall.symm.trans heq)
  obtain rfl : err = 0 := hzero.elim id fun hio => hr.quiet hio
  obtain ⟨hinv, hcount⟩ := h.ref hmem (fun _ hnone => nomatch hnone) (by omega) hr
  refine ⟨_, hinv, fun a => ?_, fun e hcounted => ?_⟩
  · rw [hcount]
    by_cases ha : a = entry.inum
    · rw [ha, Function.update_self, List.count_singleton_self]
      omega
    · rw [Function.update_of_ne ha, List.count_eq_zero_of_not_mem
        (fun hmem => ha (List.mem_singleton.mp hmem)), Nat.add_zero]
  · split
    · rename_i htotal
      refine ⟨List.mem_of_mem_erase, fun he => ?_⟩
      refine (List.mem_erase_of_ne ?_).mpr he
      rintro rfl
      rw [hcount, Function.update_self] at hcounted
      exact hcounted htotal
    · exact Iff.rfl

/-- An atom is used once more. -/
theorem AtomsInv.acquire {io : RefIo} (h : AtomsInv sb live fresh) (hmem : entry ∈ live)
    (hfresh : ∀ atom, fresh = some atom → atom = entry.inum)
    (hlt : sb.refcount entry.inum + 1 < 2 ^ 32)
    (hcall : atomref sb io entry.inum 1 = .ok (sb', err)) (hio : io.Quiet) :
    AtomsInv sb' live none ∧
      ∀ a, sb'.refcount a = sb.refcount a + [entry.inum].count a := by
  obtain ⟨free, htable⟩ := h.table
  obtain ⟨r, heq, hr⟩ := @atomref_spec sb live free entry (sb.refcount entry.inum + 1) 1 htable
    h.halves hmem (by decide) (by omega) hlt io
  obtain rfl := Except.ok.inj (hcall.symm.trans heq)
  obtain rfl : err = 0 := hr.quiet hio
  obtain ⟨hinv, hcount⟩ := h.ref hmem hfresh hlt hr
  rw [if_neg (Nat.succ_ne_zero _)] at hinv
  refine ⟨hinv, fun a => ?_⟩
  rw [hcount]
  by_cases ha : a = entry.inum
  · rw [ha, Function.update_self, List.count_singleton_self]
  · rw [Function.update_of_ne ha, List.count_eq_zero_of_not_mem
      (fun hmem => ha (List.mem_singleton.mp hmem)), Nat.add_zero]

/-- A new name gets an atom that nothing is counted for. -/
theorem AtomsInv.make {io : AtomIo} {name : Bytes} {sb₁ : AtomSb} {made : Nat}
    (h : AtomsInv sb live none) (hname : 0 < name.length) (hlen : name.length ≤ 255)
    (hfits : tuxRecLen name.length ≤ sb.dict.blocksize) (hnew : name ∉ live.map DirReport.name)
    (hget : getFreeatom sb io.freeFails = (sb₁, 0, atom))
    (hroom : sb.freeatom = 0 → sb.atomgen < 2 ^ 16)
    (hcall : enterAtom sb₁ io name atom = .ok (sb', 0, made)) :
    made = atom ∧ sb'.refcount = sb.refcount ∧ sb.refcount atom = 0 ∧ ∃ pos,
      AtomsInv sb' (created name atom 0 pos :: live) (some atom) := by
  obtain ⟨free, htable⟩ := h.table
  obtain ⟨layout, htiled, hperm, hnodup⟩ := htable.dir
  have hresult := hget ▸ getFreeatom_spec sb io.freeFails
  have hdict : sb₁.dict = sb.dict := hresult.dict_eq
  have hgen := h.atomgen_le
  rw [← hdict] at hfits
  obtain ⟨rfl, hent⟩ := enterAtom_entered (hdict.symm ▸ htiled) (hdict.symm ▸ hperm) hnodup hnew
    hname hfits hcall
  obtain ⟨free', htable'⟩ := htable.enter (by omega) hresult hent
  have hcount : sb'.refcount = sb.refcount := by
    unfold AtomSb.refcount
    rw [hent.low, hent.high]
    cases hresult <;> rfl
  have hnotlive : made ∉ live.map DirReport.inum := (List.nodup_cons.mp htable'.nodup_live).1
  have hzero : sb.refcount made = 0 := by
    by_contra hne
    exact hnotlive ((h.used made).mpr (.inl hne))
  refine ⟨rfl, hcount, hzero, _, ⟨free', htable'⟩, ⟨?_, ?_⟩, fun atom => ?_, ?_, fun e he => ?_⟩
  · rw [hent.low]
    cases hresult <;> exact h.halves.low_lt
  · rw [hent.high]
    cases hresult <;> exact h.halves.high_lt
  · rw [hcount, List.map_cons, List.mem_cons, h.used, or_iff_left (Option.some_ne_none atom).symm,
      or_comm, Option.some_inj]
    exact or_congr_right eq_comm
  · rw [hent.atomgen]
    cases hresult with
    | failed hne => exact absurd rfl hne
    | fresh hfree =>
        have hlt := hroom hfree
        dsimp only
        rw [Nat.mod_eq_of_lt (by omega)]
        exact hlt
    | head _ => exact hgen
  · rcases List.mem_cons.mp he with rfl | hold
    · exact hlen
    · exact h.name_le e hold

theorem AtomTable.atomsOk {free : List Nat} (h : AtomTable sb live free) : AtomsOk sb := by
  obtain ⟨layout, htiled, -, -⟩ := h.dir
  exact ⟨⟨layout, htiled⟩, ⟨free, h.linked, (List.nodup_append.mp h.nodup).1⟩, h.unatom_nonneg⟩

end Table

/-! ## What a call does to the attributes of an inode -/

/-- How often an atom stands in a cache. -/
def usesOf (atom : Nat) (xcache : Option Xcache) : Nat := (atomsOf xcache).count atom

/-- The values of an inode are the entries of its cache, under the names of their atoms. -/
def Stores (live : List DirReport) (xcache : Option Xcache) (attrs : Bytes → Option Bytes) :
    Prop :=
  ∀ name value, attrs name = some value ↔
    ∃ entry ∈ live, entry.name = name ∧ ⟨entry.inum, value⟩ ∈ entriesOf xcache

/-- A call changed the atoms, and the cache of an inode: what the counts come to is that of the
entries, and an atom that stays in use keeps its name. -/
structure CallEffect (sb : AtomSb) (live : List DirReport) (xcache : Option Xcache)
    (sb' : AtomSb) (live' : List DirReport) (xcache' : Option Xcache) : Prop where
  atoms : AtomsInv sb' live' none
  cache : CacheOk xcache'
  count : ∀ atom, sb'.refcount atom + usesOf atom xcache = sb.refcount atom + usesOf atom xcache'
  kept : ∀ e : DirReport, sb.refcount e.inum ≠ 0 → sb'.refcount e.inum ≠ 0 →
    (e ∈ live' ↔ e ∈ live)

section Effect

variable {sb sb' : AtomSb} {live live' : List DirReport} {xcache xcache' : Option Xcache}
  {attrs : Bytes → Option Bytes} {entry : DirReport} {name data : Bytes} {atom : Nat} {err : Int}
  {a b : List XcacheEntry} {x : XcacheEntry}

theorem mem_atomsOf {value : Bytes} (h : ⟨atom, value⟩ ∈ entriesOf xcache) :
    atom ∈ atomsOf xcache := List.mem_map_of_mem (f := XcacheEntry.atom) h

theorem CallEffect.refl (hinv : AtomsInv sb live none) (hcache : CacheOk xcache) :
    CallEffect sb live xcache sb live xcache :=
  ⟨hinv, hcache, fun _ => rfl, fun _ _ _ => Iff.rfl⟩

/-- The names that matter to a cache are those of its atoms. -/
theorem Stores.congr (h : Stores live xcache attrs)
    (hlive : ∀ e : DirReport, e.inum ∈ atomsOf xcache → (e ∈ live' ↔ e ∈ live)) :
    Stores live' xcache attrs := by
  intro name value
  rw [h name value]
  constructor
  · rintro ⟨e, he, hname, hmem⟩
    exact ⟨e, (hlive e (mem_atomsOf hmem)).mpr he, hname, hmem⟩
  · rintro ⟨e, he, hname, hmem⟩
    exact ⟨e, (hlive e (mem_atomsOf hmem)).mp he, hname, hmem⟩

/-- The values without that of a name. -/
theorem Stores.removed (hinv : AtomsInv sb live none) (h : Stores live xcache attrs)
    (hmem : entry ∈ live) (hxcache : entriesOf xcache = a ++ x :: b) (hx : x.atom = entry.inum)
    (hxcache' : entriesOf xcache' = a ++ b) (hnodup : (atomsOf xcache).Nodup) :
    Stores live xcache' (Function.update attrs entry.name none) := by
  have hout : entry.inum ∉ atomsOf xcache' := by
    unfold atomsOf at hnodup ⊢
    rw [hxcache, List.map_append, List.map_cons, hx] at hnodup
    rw [hxcache', List.map_append]
    exact (List.nodup_middle.mp hnodup).notMem
  intro name value
  by_cases hname : name = entry.name
  · subst hname
    rw [Function.update_self]
    refine iff_of_false (by rintro ⟨⟩) ?_
    rintro ⟨e, he, heq, hmem'⟩
    obtain rfl := hinv.eq_of_name he hmem heq
    exact hout (mem_atomsOf hmem')
  · rw [Function.update_of_ne hname, h name value]
    refine exists_congr fun e => and_congr_right fun he => and_congr_right fun heq => ?_
    have hne : (⟨e.inum, value⟩ : XcacheEntry) ≠ x := by
      rintro rfl
      exact hname (heq ▸ congrArg DirReport.name (hinv.eq_of_inum he hmem hx))
    rw [hxcache, hxcache', List.mem_append, List.mem_append, List.mem_cons, or_iff_right hne]

/-- The values with a new one. -/
theorem Stores.added {fresh : Option Nat} (hinv : AtomsInv sb live fresh)
    (h : Stores live xcache attrs) (hmem : entry ∈ live) (hnone : attrs entry.name = none)
    (hxcache' : entriesOf xcache' = entriesOf xcache ++ [⟨entry.inum, data⟩]) :
    Stores live xcache' (Function.update attrs entry.name (some data)) := by
  intro name value
  rw [hxcache']
  by_cases hname : name = entry.name
  · subst hname
    rw [Function.update_self]
    constructor
    · rintro ⟨⟩
      exact ⟨entry, hmem, rfl, List.mem_append_right _ List.mem_cons_self⟩
    · rintro ⟨e, he, heq, hmem'⟩
      rcases List.mem_append.mp hmem' with hold | hlast
      · have hsome := (h entry.name value).mpr ⟨e, he, heq, hold⟩
        rw [hnone] at hsome
        cases hsome
      · rw [(XcacheEntry.mk.inj (List.mem_singleton.mp hlast)).2]
  · rw [Function.update_of_ne hname, h name value]
    refine exists_congr fun e => and_congr_right fun he => and_congr_right fun heq => ?_
    rw [List.mem_append, List.mem_singleton, or_iff_left]
    intro hlast
    have hinum := (XcacheEntry.mk.inj hlast).1
    exact hname (heq ▸ congrArg DirReport.name (hinv.eq_of_inum he hmem hinum))

end Effect

/-! ## The calls -/

/-- A call of `set_xattr` that cannot lose anything when it fails, whose buffers do not fail where
errors are not looked at, and that does not come to an atom of more than 16 bits. -/
structure SetSafe (st : XattrSt) (io : XattrIo) (name : Bytes) (len flags : Nat) : Prop where
  keeps : ¬ SetLoses st io name len flags
  quiet : io.ref.Quiet
  fresh : (∃ a, findAtom st.atoms io.atom.find name = .ok (-enodata, a)) →
    st.atoms.freeatom = 0 →
    st.atoms.atomgen < 2 ^ 16 ∧ ¬ CreateFails st.atoms io.atom.create name st.atoms.atomgen

/-- What `get_xattr` is to return for a value, and for none. -/
def xattrReply (value : Option Bytes) (size : Nat) : Int × Bytes :=
  match value with
  | none => (-enodata, [])
  | some value =>
      if value.length ≤ size then (value.length, value)
      else if size ≠ 0 then (-erange, [])
      else (value.length, [])

section Calls

variable {sb : AtomSb} {live : List DirReport} {xcache : Option Xcache} {st' : XattrSt}
  {attrs : Bytes → Option Bytes} {entry : DirReport} {name data : Bytes} {io : XattrIo}
  {atom flags : Nat} {err : Int}

/-- `xcache_update` for a live atom, where it succeeds. -/
theorem xcacheUpdate_effect {fresh : Option Nat} (hinv : AtomsInv sb live fresh)
    (hcache : CacheOk xcache) (hstores : Stores live xcache attrs) (hmem : entry ∈ live)
    (hfresh : ∀ atom, fresh = some atom → atom = entry.inum ∧ atom ∉ atomsOf xcache)
    (hlt : sb.refcount entry.inum + 1 < 2 ^ 32) (hio : io.ref.Quiet)
    (hcall : xcacheUpdate ⟨sb, xcache⟩ io entry.inum data flags = .ok (st', 0)) :
    AtomsInv st'.atoms live none ∧ CacheOk st'.xcache ∧
      (∀ a, st'.atoms.refcount a + usesOf a xcache = sb.refcount a + usesOf a st'.xcache) ∧
      Stores live st'.xcache (Function.update attrs entry.name (some data)) := by
  unfold xcacheUpdate at hcall
  obtain ⟨lookup, hlookup, hcall⟩ := bind_eq_ok.mp hcall
  obtain ⟨hmiss, hnot⟩ | ⟨c, a, x, b, rfl, hsplit, hx, hfound⟩ :=
    xcacheLookup_spec hcache entry.inum
  · obtain rfl := Except.ok.inj (hlookup.symm.trans hmiss)
    dsimp only at hcall
    split at hcall
    · exact absurd (Prod.mk.inj (Except.ok.inj hcall)).2 enoattr_ne_zero
    · obtain ⟨hok, hentries, -, href⟩ :=
        @insertNew_ok ⟨sb, xcache⟩ st' io data _ 0 hcache (hinv.atom_lt hmem) hnot hcall
      obtain ⟨err, href⟩ := href (by decide)
      obtain ⟨hinv', hcount⟩ :=
        hinv.acquire hmem (fun atom heq => (hfresh atom heq).1) hlt href hio
      have hnone : attrs entry.name = none := by
        rw [Option.eq_none_iff_forall_ne_some]
        intro value hsome
        obtain ⟨e, he, hname, hstored⟩ := (hstores entry.name value).mp hsome
        obtain rfl := hinv.eq_of_name he hmem hname
        exact hnot (mem_atomsOf hstored)
      refine ⟨hinv', hok, fun a => ?_, hstores.added hinv hmem hnone hentries⟩
      have huses : usesOf a st'.xcache = usesOf a xcache + [entry.inum].count a := by
        unfold usesOf atomsOf
        rw [hentries, List.map_append, List.count_append]
        rfl
      rw [hcount, huses]
      omega
  · obtain rfl := Except.ok.inj (hlookup.symm.trans hfound)
    dsimp only at hcall
    have hxmem : x ∈ c.xattrs := by
      rw [hsplit]
      exact List.mem_append_right _ List.mem_cons_self
    have hin : entry.inum ∈ atomsOf (some c) := List.mem_map.mpr ⟨x, hxmem, hx⟩
    have hnofresh : fresh = none := by
      rw [Option.eq_none_iff_forall_ne_some]
      rintro atom heq
      obtain ⟨rfl, hnot⟩ := hfresh atom heq
      exact hnot hin
    subst hnofresh
    split at hcall
    · exact absurd (Prod.mk.inj (Except.ok.inj hcall)).2 (by decide)
    · obtain ⟨hremoved, hrest⟩ := removeOld_spec hcache hsplit
      have hentries' : entriesOf (some (removeOld a.length c)) = a ++ b := hrest
      have hout : entry.inum ∉ atomsOf (some (removeOld a.length c)) := by
        have hnodup := hcache.nodup
        unfold atomsOf at hnodup ⊢
        rw [hentries', List.map_append]
        rw [show entriesOf (some c) = a ++ x :: b from hsplit, List.map_append, List.map_cons,
          hx] at hnodup
        exact (List.nodup_middle.mp hnodup).notMem
      obtain ⟨hok, hentries, hsame, -⟩ := @insertNew_ok ⟨sb, (some c).map (removeOld a.length)⟩
        st' io data _ (-1) hremoved (hinv.atom_lt hmem) hout hcall
      rw [hsame (by decide)]
      have hwithout := hstores.removed hinv hmem hsplit hx hentries' hcache.nodup
      have hadded := hwithout.added hinv hmem (Function.update_self ..) hentries
      rw [Function.update_idem] at hadded
      refine ⟨hinv, hok, fun atom => ?_, hadded⟩
      have huses : usesOf atom st'.xcache = usesOf atom (some c) := by
        unfold usesOf atomsOf
        rw [hentries, show entriesOf ((some c).map (removeOld a.length)) = a ++ b from hentries',
          show entriesOf (some c) = a ++ x :: b from hsplit]
        simp only [List.map_append, List.map_cons, List.map_nil, List.count_append,
          List.count_cons, List.count_nil, hx]
        omega
      rw [huses]

/-- `set_xattr` sets the value, or fails and changes nothing. -/
theorem setXattr_effect (hinv : AtomsInv sb live none) (hcache : CacheOk xcache)
    (hstores : Stores live xcache attrs) (hused : ∀ a ∈ atomsOf xcache, sb.refcount a ≠ 0)
    (hlt : ∀ a, sb.refcount a + 1 < 2 ^ 32) (hname : 0 < name.length) (hlen : name.length ≤ 255)
    (hfits : tuxRecLen name.length ≤ sb.dict.blocksize)
    (hsafe : SetSafe ⟨sb, xcache⟩ io name data.length flags)
    (hcall : setXattr ⟨sb, xcache⟩ io name data flags = .ok (st', err)) :
    ∃ live', CallEffect sb live xcache st'.atoms live' st'.xcache ∧
      Stores live' st'.xcache
        (if err = 0 then Function.update attrs name (some data) else attrs) := by
  obtain ⟨free, htable⟩ := hinv.table
  have hsame : err ≠ 0 → st' = ⟨sb, xcache⟩ → ∃ live',
      CallEffect sb live xcache st'.atoms live' st'.xcache ∧ Stores live' st'.xcache
        (if err = 0 then Function.update attrs name (some data) else attrs) := by
    rintro hne rfl
    rw [if_neg hne]
    exact ⟨live, .refl hinv hcache, hstores⟩
  obtain ⟨ferr, hfind, hne, hdata⟩ | ⟨hfind, hnew⟩ | ⟨entry, hmem, hfind, rfl⟩ :=
    htable.findAtom_cases io.atom.find name
  · rw [setXattr_of_failed (makeAtom_failed hfind hne hdata) hne] at hcall
    obtain ⟨rfl, rfl⟩ := Prod.mk.inj (Except.ok.inj hcall)
    exact hsame hne rfl
  · obtain ⟨sb₁, gerr, atom, hget⟩ : ∃ sb₁ gerr atom,
        getFreeatom sb io.atom.freeFails = (sb₁, gerr, atom) := ⟨_, _, _, rfl⟩
    have hresult := hget ▸ getFreeatom_spec sb io.atom.freeFails
    by_cases hgerr : gerr = 0
    swap
    · have hmake := makeAtom_new hfind hget
      rw [if_pos hgerr] at hmake
      rw [setXattr_of_failed hmake hgerr] at hcall
      obtain ⟨rfl, rfl⟩ := Prod.mk.inj (Except.ok.inj hcall)
      cases hresult with
      | failed _ => exact hsame hgerr rfl
      | fresh _ => exact absurd rfl hgerr
      | head _ => exact absurd rfl hgerr
    subst hgerr
    have hdict : sb₁.dict = sb.dict := hresult.dict_eq
    obtain ⟨r, hmake, hr⟩ := makeAtom_enter htable.atomsOk hname hfits hfind hget
    have hsafe' := hsafe.fresh ⟨0, hfind⟩
    cases hr with
    | createFailed hcreate _ =>
        -- no number is lost
        rw [createFails_congr hdict] at hcreate
        cases hresult with
        | failed hbad => exact absurd rfl hbad
        | fresh hzero => exact absurd hcreate (hsafe' hzero).2
        | head hfree => exact absurd (.freeatom ⟨0, hfind⟩ hget hfree hcreate) hsafe.keeps
    | unatomFailed hcreate hio _ _ =>
        rw [createFails_congr hdict] at hcreate
        exact absurd (.reverse ⟨0, hfind⟩ hget hcreate hio) hsafe.keeps
    | @entered sb' hcreate hio _ =>
        rw [createFails_congr hdict] at hcreate
        rw [setXattr_of_made hmake] at hcall
        by_cases herr : err = 0
        swap
        · obtain ⟨hupdate, -, -⟩ := xcacheUpdate_failed hcall herr
          exact absurd (.name ⟨0, hfind⟩ hget hcreate hio hupdate) hsafe.keeps
        subst herr
        rw [makeAtom_new hfind hget, if_neg (not_not_intro rfl)] at hmake
        obtain ⟨-, hcount, hzero, pos, hinv'⟩ := hinv.make hname hlen hfits hnew hget
          (fun hfree => (hsafe' hfree).1) hmake
        have hout : atom ∉ atomsOf xcache := fun hatom => hused atom hatom hzero
        have hstores' : Stores (created name atom 0 pos :: live) xcache attrs := by
          refine hstores.congr fun e he => ?_
          rw [List.mem_cons, or_iff_right]
          rintro rfl
          exact hout he
        have hfresh : ∀ a, some atom = some a → a = (created name atom 0 pos).inum ∧
            a ∉ atomsOf xcache := by
          rintro a ⟨⟩
          exact ⟨rfl, hout⟩
        have hcount' : sb'.refcount (created name atom 0 pos).inum + 1 < 2 ^ 32 := by
          rw [hcount]
          exact hlt _
        obtain ⟨hatoms, hok, hsum, hset⟩ := @xcacheUpdate_effect sb' _ xcache st' attrs _ data io
          flags _ hinv' hcache hstores' List.mem_cons_self hfresh hcount' hsafe.quiet hcall
        refine ⟨_, ⟨hatoms, hok, fun a => ?_, fun e hold _ => ?_⟩, hset⟩
        · rw [← hcount]
          exact hsum a
        · rw [List.mem_cons, or_iff_right]
          rintro rfl
          exact hold hzero
  · rw [setXattr_of_made (makeAtom_found hfind)] at hcall
    by_cases herr : err = 0
    · subst herr
      obtain ⟨hatoms, hok, hsum, hset⟩ := xcacheUpdate_effect hinv hcache hstores hmem
        (fun _ hnone => nomatch hnone) (hlt _) hsafe.quiet hcall
      exact ⟨live, ⟨hatoms, hok, hsum, fun _ _ _ => Iff.rfl⟩, hset⟩
    · obtain ⟨-, -, hkept | ⟨i, hlookup, hflag, hfull⟩⟩ := xcacheUpdate_failed hcall herr
      · exact hsame herr hkept
      · exact absurd (.value hfind hlookup hflag hfull) hsafe.keeps

/-- `del_xattr` takes the value of the name out, and frees its atom if nothing else uses it. -/
theorem delXattr_effect (hinv : AtomsInv sb live none) (hcache : CacheOk xcache)
    (hstores : Stores live xcache attrs) (hused : ∀ a ∈ atomsOf xcache, sb.refcount a ≠ 0)
    (hio : io.ref.Quiet) (hcall : delXattr ⟨sb, xcache⟩ io name = .ok (st', err)) :
    ∃ live', CallEffect sb live xcache st'.atoms live' st'.xcache ∧
      Stores live' st'.xcache (if err = 0 then Function.update attrs name none else attrs) := by
  obtain ⟨free, htable⟩ := hinv.table
  unfold delXattr at hcall
  have hsame : err ≠ 0 → st' = ⟨sb, xcache⟩ → ∃ live',
      CallEffect sb live xcache st'.atoms live' st'.xcache ∧
      Stores live' st'.xcache (if err = 0 then Function.update attrs name none else attrs) := by
    rintro hne rfl
    rw [if_neg hne]
    exact ⟨live, .refl hinv hcache, hstores⟩
  have herror : ∀ ferr, findAtom sb io.atom.find name = .ok (ferr, 0) → ferr ≠ 0 → ∃ live',
      CallEffect sb live xcache st'.atoms live' st'.xcache ∧
      Stores live' st'.xcache (if err = 0 then Function.update attrs name none else attrs) := by
    intro ferr hfind hne
    rw [bind_of_ok hfind] at hcall
    dsimp only at hcall
    rw [if_pos hne] at hcall
    obtain ⟨rfl, rfl⟩ := Prod.mk.inj (Except.ok.inj hcall)
    exact hsame hne rfl
  obtain ⟨ferr, hfind, hne, -⟩ | ⟨hfind, -⟩ | ⟨entry, hmem, hfind, rfl⟩ :=
    htable.findAtom_cases io.atom.find name
  · exact herror ferr hfind hne
  · exact herror _ hfind (by decide)
  rw [bind_of_ok hfind] at hcall
  dsimp only at hcall
  rw [if_neg (not_not_intro rfl)] at hcall
  obtain ⟨hmiss, -⟩ | ⟨c, a, x, b, rfl, hsplit, hx, hfound⟩ :=
    xcacheLookup_spec hcache entry.inum
  · rw [bind_of_ok hmiss] at hcall
    obtain ⟨rfl, rfl⟩ := Prod.mk.inj (Except.ok.inj hcall)
    exact hsame enoattr_ne_zero rfl
  · rw [bind_of_ok hfound] at hcall
    obtain ⟨⟨atoms, rerr⟩, href, hcall⟩ := bind_eq_ok.mp hcall
    obtain ⟨rfl, rfl⟩ := Prod.mk.inj (Except.ok.inj hcall)
    obtain ⟨hremoved, hrest⟩ := removeOld_spec hcache hsplit
    have hxmem : x ∈ c.xattrs := by
      rw [hsplit]
      exact List.mem_append_right _ List.mem_cons_self
    have hne := hused entry.inum (List.mem_map.mpr ⟨x, hxmem, hx⟩)
    obtain ⟨live', hinv', hcount, hlive⟩ := hinv.release hne href (.inr hio)
    have hentries' : entriesOf (some (removeOld a.length c)) = a ++ b := hrest
    have hgone := hstores.removed hinv hmem hsplit hx hentries' hcache.nodup
    have huses : ∀ atom, usesOf atom (some c) =
        usesOf atom (some (removeOld a.length c)) + [entry.inum].count atom := by
      intro atom
      unfold usesOf atomsOf
      rw [show entriesOf (some (removeOld a.length c)) = a ++ b from hrest,
        show entriesOf (some c) = a ++ x :: b from hsplit]
      simp only [List.map_append, List.map_cons, List.count_append, List.count_cons,
        List.count_nil, hx]
      omega
    refine ⟨live', ⟨hinv', hremoved, fun atom => ?_, fun e _ he => hlive e he⟩, ?_⟩
    · show atoms.refcount atom + usesOf atom (some c) =
        sb.refcount atom + usesOf atom (some (removeOld a.length c))
      rw [huses, ← hcount atom]
      omega
    · rw [if_pos rfl]
      refine hgone.congr fun e he => hlive e ?_
      have hpos : 0 < usesOf e.inum (some (removeOld a.length c)) := List.count_pos_iff.mpr he
      have hone := List.nodup_iff_count_le_one.mp hcache.nodup e.inum
      have htotal := huses e.inum
      have hkept := hcount e.inum
      have hold := hused e.inum (List.count_pos_iff.mp (by
        show 0 < usesOf e.inum (some c)
        omega))
      show atoms.refcount e.inum ≠ 0
      unfold usesOf at htotal hpos
      omega

/-- The loop of `xcache_remove_all` takes back a use of the atom of each entry. -/
theorem removeLoop_spec {rio : Nat → RefIo} {xlimit pos : Nat} {l : List XcacheEntry}
    {sb' : AtomSb} (hinv : AtomsInv sb live none) (hlimit : pos + entriesLen l = xlimit)
    (hused : ∀ a, (l.map XcacheEntry.atom).count a ≤ sb.refcount a)
    (hcall : removeLoop rio xlimit l pos sb = .ok (sb', 0)) :
    ∃ live', AtomsInv sb' live' none ∧
      (∀ a, sb'.refcount a + (l.map XcacheEntry.atom).count a = sb.refcount a) ∧
      ∀ e : DirReport, sb'.refcount e.inum ≠ 0 → (e ∈ live' ↔ e ∈ live) := by
  induction l generalizing sb live pos with
  | nil =>
      obtain rfl : pos = xlimit := hlimit
      unfold removeLoop at hcall
      rw [if_neg (Nat.lt_irrefl pos), bind_of_ok (tuxAssert_of rfl)] at hcall
      obtain rfl := (Prod.mk.inj (Except.ok.inj hcall)).1
      exact ⟨live, hinv, fun _ => rfl, fun _ _ => Iff.rfl⟩
  | cons x l ih =>
      rw [entriesLen_cons] at hlimit
      have hlen : 0 < x.len := Nat.add_pos_left (Nat.succ_pos 3) _
      unfold removeLoop at hcall
      rw [if_pos (by omega)] at hcall
      obtain ⟨⟨sb₁, err⟩, href, hcall⟩ := bind_eq_ok.mp hcall
      dsimp only at hcall
      split at hcall
      · rename_i hne
        exact absurd (Prod.mk.inj (Except.ok.inj hcall)).2 hne
      rename_i herr
      have hsplit : ∀ a, ((x :: l).map XcacheEntry.atom).count a =
          (l.map XcacheEntry.atom).count a + [x.atom].count a := by
        intro a
        rw [List.map_cons, List.count_cons, List.count_singleton]
      have hne : sb.refcount x.atom ≠ 0 := by
        have hle := hused x.atom
        rw [hsplit, List.count_singleton_self] at hle
        omega
      obtain ⟨live₁, hinv₁, hcount₁, hlive₁⟩ :=
        hinv.release hne href (.inl (not_not.mp herr))
      obtain ⟨live', hinv', hcount, hlive⟩ := ih hinv₁ (by omega) (fun a => by
        have hle := hused a
        rw [hsplit] at hle
        have heq := hcount₁ a
        omega) hcall
      refine ⟨live', hinv', fun a => ?_, fun e he => ?_⟩
      · rw [hsplit, ← hcount₁ a, ← hcount a]
        omega
      · refine (hlive e he).trans (hlive₁ e ?_)
        have heq := hcount e.inum
        omega

/-- `xcache_remove_all` takes all the values of an inode out. -/
theorem xcacheRemoveAll_effect {rio : Nat → RefIo} (hinv : AtomsInv sb live none)
    (hcache : CacheOk xcache) (hused : ∀ a, usesOf a xcache ≤ sb.refcount a)
    (hcall : xcacheRemoveAll ⟨sb, xcache⟩ rio = .ok (st', 0)) :
    ∃ live', CallEffect sb live xcache st'.atoms live' st'.xcache ∧
      Stores live' st'.xcache fun _ => none := by
  have hempty : ∀ l, Stores l none fun _ => none := by
    intro l name value
    refine iff_of_false (by rintro ⟨⟩) ?_
    rintro ⟨e, -, -, hmem⟩
    exact absurd hmem List.not_mem_nil
  unfold xcacheRemoveAll at hcall
  cases xcache with
  | none =>
      obtain rfl := (Prod.mk.inj (Except.ok.inj hcall)).1
      exact ⟨live, .refl hinv hcache, hempty live⟩
  | some c =>
      obtain ⟨⟨atoms, err⟩, hloop, hcall⟩ := bind_eq_ok.mp hcall
      dsimp only at hcall hloop
      split at hcall
      · rename_i hne
        exact absurd (Prod.mk.inj (Except.ok.inj hcall)).2 hne
      rename_i herr
      obtain rfl := not_not.mp herr
      obtain rfl := (Prod.mk.inj (Except.ok.inj hcall)).1
      have hlimit : 0 + entriesLen c.xattrs = c.size := by
        rw [(hcache.ok c rfl).size_eq, Nat.zero_add]
      obtain ⟨live', hinv', hcount, hlive⟩ := removeLoop_spec hinv hlimit hused hloop
      exact ⟨live', ⟨hinv', cacheOk_none, fun a => hcount a, fun e _ he => hlive e he⟩,
        hempty live'⟩

/-- `get_xattr` returns the value of the name. -/
theorem getXattr_eq (hinv : AtomsInv sb live none) (hcache : CacheOk xcache)
    (hstores : Stores live xcache attrs) {dio : DirIo} (hio : ∀ block, dio.readFails block = false)
    (name : Bytes) (size : Nat) :
    getXattr ⟨sb, xcache⟩ dio name size = .ok (xattrReply (attrs name) size) := by
  obtain ⟨free, htable⟩ := hinv.table
  have hmissing : (∀ entry ∈ live, entry.name = name → entry.inum ∉ atomsOf xcache) →
      attrs name = none := by
    intro hnot
    rw [Option.eq_none_iff_forall_ne_some]
    intro value hsome
    obtain ⟨e, he, hname, hmem⟩ := (hstores name value).mp hsome
    exact hnot e he hname (mem_atomsOf hmem)
  obtain ⟨found, heq, hfound⟩ := htable.dir.find dio name
  unfold getXattr findAtom
  rw [bind_of_ok heq]
  cases hfound with
  | failed hb hfail => exact absurd ((hio _).symm.trans hfail) Bool.false_ne_true
  | missing hmiss =>
      rw [hmissing fun entry hmem hname => absurd (hname ▸ List.mem_map_of_mem hmem) hmiss]
      rfl
  | @found entry hmem hname hinum =>
      have hatom := htable.entry_atom hmem
      dsimp only at hinum ⊢
      rw [hatom]
      dsimp only [bind, Except.bind, pure, Except.pure]
      rw [if_neg (not_not_intro rfl)]
      obtain ⟨hmiss, hnot⟩ | ⟨c, a, x, b, rfl, hsplit, hx, hlookup⟩ :=
        xcacheLookup_spec hcache entry.inum
      · rw [hmiss, hmissing fun e he hsame => by
          rw [hinv.eq_of_name he hmem (hsame.trans hname.symm)]
          exact hnot]
        rfl
      · have hxmem : x ∈ entriesOf (some c) := by
          rw [show entriesOf (some c) = a ++ x :: b from hsplit]
          exact List.mem_append_right _ List.mem_cons_self
        have hsome : attrs name = some x.body :=
          (hstores name x.body).mpr ⟨entry, hmem, hname, by rw [← hx]; exact hxmem⟩
        have hget : XattrSt.xattrs ⟨sb, some c⟩ = a ++ x :: b := hsplit
        have hat : (a ++ x :: b)[a.length]? = some x := by
          rw [List.getElem?_append_right (Nat.le_refl _), Nat.sub_self]
          rfl
        rw [hlookup, hsome]
        dsimp only
        rw [hget, hat]
        unfold xattrReply
        dsimp only
        split
        · rfl
        · split <;> rfl

end Calls

/-! ## Saving and loading an inode -/

/-- The cache of an inode that was read. -/
theorem iattrDecode_xcache {src : InodeAttrs} {version : Nat} (h : src.WellTyped)
    (hversion : version < 2 ^ 12) :
    ∃ inode, iattrDecode version freshInode (inodeBytes version src) = .ok inode ∧
      inode.xcache = if src.xattrs = [] then none
        else some ⟨entriesLen src.xattrs, entriesLen src.xattrs, src.xattrs⟩ := by
  obtain ⟨extra, hfuel⟩ := @inodeBytes_fuel version src
  have hlen := h.entriesLen_lt
  have hmod : entriesLen src.xattrs % 2 ^ 16 = entriesLen src.xattrs := Nat.mod_eq_of_lt hlen
  have hatoms : ∀ xattr ∈ src.xattrs, xattr.atom < 2 ^ 16 := by
    intro xattr hx
    unfold InodeAttrs.xattrs at hx
    cases hcache : src.xcache with
    | none =>
        rw [hcache] at hx
        exact absurd hx List.not_mem_nil
    | some xc =>
        rw [hcache] at hx
        exact (h.xcache xc hcache).atom_lt xattr hx
  have hloop : ∀ inode, decodeAttrsLoop version ((inodeBytes version src).length + 1)
      (inodeBytes version src) inode noRoot =
      decodeAttrsLoop version (src.xattrs.length + 1 + extra) (xattrsBytes version src.xattrs)
        ((presentKinds src.present).foldl (applyAttr src) (inode, noRoot)).1
        ((presentKinds src.present).foldl (applyAttr src) (inode, noRoot)).2 := by
    intro inode
    rw [hfuel]
    exact decodeAttrsLoop_attrs h hversion h.kinds_le
  unfold iattrDecode
  rw [bind_of_ok (decodeXsize_inodeBytes h hversion hlen)]
  dsimp only
  rw [hloop]
  by_cases hnil : src.xattrs = []
  · have hnone : ¬entriesLen src.xattrs ≠ 0 := by
      rw [hnil]
      exact fun hne => hne rfl
    have happly := @applied_foldl src (presentKinds src.present) (freshInode, noRoot) h.kinds_le
    rw [if_neg hnone, if_pos hnil, hnil, List.length_nil, Nat.add_right_comm]
    exact ⟨_, rfl, happly.xcache⟩
  · have hsome : entriesLen src.xattrs ≠ 0 := by
      obtain ⟨xattr, xattrs, hcons⟩ := List.exists_cons_of_ne_nil hnil
      rw [hcons, entriesLen_cons]
      unfold XcacheEntry.len
      omega
    have happly := @applied_foldl src (presentKinds src.present)
      ({ freshInode with xcache := some (newXcache (entriesLen src.xattrs)) }, noRoot) h.kinds_le
    have hroom : (newXcache (entriesLen src.xattrs)).size + entriesLen src.xattrs ≤
        (newXcache (entriesLen src.xattrs)).maxsize := by
      unfold newXcache
      dsimp only
      omega
    have hmax : (newXcache (entriesLen src.xattrs)).maxsize < 2 ^ 16 :=
      Nat.mod_lt _ (Nat.two_pow_pos 16)
    rw [if_pos hsome, if_neg hnil,
      decodeAttrsLoop_xattrs hversion happly.xcache hroom hmax hatoms]
    refine ⟨_, rfl, ?_⟩
    unfold newXcache
    dsimp only
    rw [hmod, Nat.zero_add, List.nil_append]

/-- Saving an inode and reading it again keeps its entries. -/
theorem reload_effect {sb : AtomSb} {live : List DirReport} {src inode : InodeAttrs}
    {version size : Nat} {bytes : Bytes} (hinv : AtomsInv sb live none)
    (hcache : CacheOk src.xcache) (h : src.WellTyped) (hversion : version < 2 ^ 12)
    (hsize : iattrEncodedSize src = .ok size) (hsave : iattrEncode version size src = .ok bytes)
    (hload : iattrDecode version freshInode bytes = .ok inode) :
    CallEffect sb live src.xcache sb live inode.xcache ∧
      entriesOf inode.xcache = entriesOf src.xcache := by
  obtain rfl := Except.ok.inj (hsize.symm.trans (@iattrEncodedSize_eq version src h))
  obtain rfl := Except.ok.inj (hsave.symm.trans (iattrEncode_eq h))
  obtain ⟨inode', hread, hxcache⟩ := iattrDecode_xcache h hversion
  obtain rfl := Except.ok.inj (hload.symm.trans hread)
  have hsrc : src.xattrs = entriesOf src.xcache := by
    unfold InodeAttrs.xattrs
    cases src.xcache <;> rfl
  have hsame : entriesOf inode.xcache = entriesOf src.xcache := by
    rw [hxcache, ← hsrc]
    split
    · rename_i hnil
      exact hnil.symm
    · rfl
  have hatoms : atomsOf inode.xcache = atomsOf src.xcache :=
    congrArg (List.map XcacheEntry.atom) hsame
  refine ⟨⟨hinv, ⟨fun c hc => ?_, ?_⟩, fun a => ?_, fun _ _ _ => Iff.rfl⟩, hsame⟩
  · rw [hxcache] at hc
    split at hc
    · cases hc
    · obtain rfl := Option.some.inj hc
      refine ⟨rfl, Nat.le_refl _, h.entriesLen_lt, fun x hx => ?_⟩
      dsimp only at hx
      rw [hsrc] at hx
      cases hcached : src.xcache with
      | none =>
          rw [hcached] at hx
          exact absurd hx List.not_mem_nil
      | some c =>
          rw [hcached] at hx
          exact (hcache.ok c hcached).atom_lt x hx
  · rw [hatoms]
    exact hcache.nodup
  · unfold usesOf
    rw [hatoms]

end Tux3.Xattr
