/-
  Filemap/StrideMap.lean --- the lengths of the strides, which a read of the file index notes.

  A read from logical address zero of a leaf puts the addresses of its entries through
  `add_stride`, and a compressed read takes `em.num[k]` for the length of stride `k`.  The
  difference is to the number noted before and not to the address before, so that only the first
  two lengths are right.
-/
import Tux3.Filemap.Dleaf2Read

set_option autoImplicit false

namespace Tux3

open Outcome (bind_of_ok bind_of_error bind_eq_ok)
open StepTable (Ascending)

/-! ## The code -/

/-- `struct stride_map`, of a `num[100]`. -/
structure StrideMap where
  num : Nat → UInt32
  count : Nat

/-- `init_stride`. -/
def initStride (em : StrideMap) : StrideMap := { em with count := 0 }

/-- What `add_stride` stores, and where. -/
def StrideMap.push (em : StrideMap) (i : Nat) : StrideMap where
  num := Function.update em.num em.count
    (if em.count = 0 then UInt32.ofNat i else UInt32.ofNat i - em.num (em.count - 1))
  count := em.count + 1

/-- `add_stride`; there is no place behind the end of `num[]`. -/
def addStride (em : StrideMap) (i : Nat) : Except TuxError StrideMap :=
  if em.count < 100 then .ok (em.push i) else .error .bounds

/-- `dleaf2_read` notes an address if `is_first` is set. -/
def noteStride (isFirst : Bool) (em : StrideMap) (logical : Nat) : Except TuxError StrideMap :=
  if isFirst then addStride em logical else .ok em

/-- The loop of `dleaf2_read`, with the stride map. -/
def readLoopStride (leaf : Dleaf2) (isFirst : Bool) :
    Nat → Nat → Nat → DleafReq → BtreeKeyRange → StrideMap →
      Except TuxError (DleafReq × BtreeKeyRange × StrideMap)
  | 0, _, _, _, _, _ => .error .fuel
  | fuel + 1, dex, physical, rq, key, em => do
      let next ← getExtent leaf.table dex
      let em ← noteStride isFirst em next.logical
      let (rq, key) ← fillSeg rq key physical
        (min key.len ((next.logical + 2 ^ 64 - key.start) % 2 ^ 64))
      if key.len ≠ 0 ∧ rq.segIdx < rq.segMax ∧ dex + 1 < leaf.count
      then readLoopStride leaf isFirst fuel (dex + 1) next.physical rq key em
      else return (rq, key, em)

/-- `dleaf2_read`, with the stride map; `is_first` is about the low 32 bits of the start. -/
def dleaf2ReadStride (keyLimit : Nat) (leaf : Dleaf2) (rq : DleafReq) (key : BtreeKeyRange)
    (em : StrideMap) : Except TuxError (DleafReq × BtreeKeyRange × StrideMap) :=
  if rq.segMax ≤ rq.segIdx then return (rq, key, em)
  else do
    let dex ← dleaf2LookupIndex leaf key.start
    if leaf.count ≤ dex + 1 then do
      let () ← checkSentinel leaf dex
      let (rq, key) ← fillLast keyLimit rq key
      return (rq, key, em)
    else do
      let ex ← getExtent leaf.table dex
      let isFirst := key.start % 2 ^ 32 == 0
      let em ← noteStride isFirst (if isFirst then initStride em else em) ex.logical
      let (rq, key, em) ←
        readLoopStride leaf isFirst leaf.count (dex + 1) (ex.blockAt key.start) rq key em
      let (rq, key) ← fillLast keyLimit rq key
      return (rq, key, em)

section

variable {leaf : Dleaf2} {front back rest entries visited : List DiskExtent}
  {ex next a b c d : DiskExtent}
  {entriesPerLeaf limit dex physical count k : Nat} {rq rq' : DleafReq} {key key' : BtreeKeyRange}
  {em em' : StrideMap} {isFirst : Bool}

/-! ## The read -/

theorem readLoopStride_read (fuel : Nat)
    (h : readLoopStride leaf isFirst fuel dex physical rq key em = .ok (rq', key', em')) :
    readLoop leaf fuel dex physical rq key = .ok (rq', key') := by
  induction fuel generalizing dex physical rq key em with
  | zero => cases h
  | succ fuel ih =>
      rw [readLoopStride] at h
      obtain ⟨next, hnext, h⟩ := bind_eq_ok.mp h
      obtain ⟨em₁, -, h⟩ := bind_eq_ok.mp h
      obtain ⟨⟨rq₁, key₁⟩, hfill, h⟩ := bind_eq_ok.mp h
      rw [readLoop, bind_of_ok hnext, bind_of_ok hfill]
      dsimp only at h ⊢
      split at h
      · rename_i hmore
        rw [if_pos hmore]
        exact ih h
      · rename_i hmore
        rw [if_neg hmore]
        obtain ⟨rfl, hkey⟩ := Prod.mk.inj (Except.ok.inj h)
        rw [(Prod.mk.inj hkey).1]
        rfl

/-- The stride map changes nothing of what a read returns. -/
theorem dleaf2ReadStride_read
    (h : dleaf2ReadStride limit leaf rq key em = .ok (rq', key', em')) :
    dleaf2Read limit leaf rq key = .ok (rq', key') := by
  unfold dleaf2ReadStride at h
  unfold dleaf2Read
  split at h
  · rename_i hfull
    rw [if_pos hfull]
    obtain ⟨rfl, hkey⟩ := Prod.mk.inj (Except.ok.inj h)
    rw [(Prod.mk.inj hkey).1]
    rfl
  · rename_i hfull
    rw [if_neg hfull]
    obtain ⟨dex, hdex, h⟩ := bind_eq_ok.mp h
    rw [bind_of_ok hdex]
    split at h
    · rename_i hend
      rw [if_pos hend]
      obtain ⟨_, hcheck, h⟩ := bind_eq_ok.mp h
      obtain ⟨⟨rq₁, key₁⟩, hlast, h⟩ := bind_eq_ok.mp h
      obtain ⟨rfl, hkey⟩ := Prod.mk.inj (Except.ok.inj h)
      rw [bind_of_ok hcheck, hlast, (Prod.mk.inj hkey).1]
    · rename_i hend
      rw [if_neg hend]
      obtain ⟨ex, hex, h⟩ := bind_eq_ok.mp h
      obtain ⟨em₁, -, h⟩ := bind_eq_ok.mp h
      obtain ⟨⟨rq₁, key₁, em₂⟩, hloop, h⟩ := bind_eq_ok.mp h
      obtain ⟨⟨rq₂, key₂⟩, hlast, h⟩ := bind_eq_ok.mp h
      obtain ⟨rfl, hkey⟩ := Prod.mk.inj (Except.ok.inj h)
      rw [bind_of_ok hex, bind_of_ok (readLoopStride_read _ hloop)]
      dsimp only at hlast ⊢
      rw [hlast, (Prod.mk.inj hkey).1]

/-! ## What is noted -/

/-- Addresses are noted one after the other. -/
def StrideMap.pushAll (em : StrideMap) (entries : List DiskExtent) : StrideMap :=
  entries.foldl (fun em ex => em.push ex.logical) em

theorem StrideMap.pushAll_cons (em : StrideMap) (ex : DiskExtent) (entries : List DiskExtent) :
    em.pushAll (ex :: entries) = (em.push ex.logical).pushAll entries := rfl

theorem StrideMap.pushAll_count (em : StrideMap) (entries : List DiskExtent) :
    (em.pushAll entries).count = em.count + entries.length := by
  induction entries generalizing em with
  | nil => rfl
  | cons ex entries ih =>
      have hpush : (em.push ex.logical).count = em.count + 1 := rfl
      rw [pushAll_cons, ih, hpush, List.length_cons, Nat.add_assoc, Nat.add_comm 1]

/-- What was noted stays. -/
theorem StrideMap.pushAll_num (entries : List DiskExtent) (hk : k < em.count) :
    (em.pushAll entries).num k = em.num k := by
  induction entries generalizing em with
  | nil => rfl
  | cons ex entries ih =>
      rw [pushAll_cons, ih (Nat.lt_succ_of_lt hk)]
      exact Function.update_of_ne (Nat.ne_of_lt hk) _ _

/-- The range and `seg[]` reach to the last of some entries. -/
def Covers (rq : DleafReq) (key : BtreeKeyRange) (entries : List DiskExtent) : Prop :=
  rq.segIdx + entries.length ≤ rq.segMax ∧
    ∀ e ∈ entries.dropLast, e.logical < key.start + key.len

/-- The loop notes the entries up to the last one that it comes to. -/
structure Visits (rq : DleafReq) (key : BtreeKeyRange) (em : StrideMap)
    (entries visited : List DiskExtent) (em' : StrideMap) : Prop where
  noted : em' = em.pushAll visited
  initial : visited <+: entries
  all : visited = entries ↔ Covers rq key entries

theorem fillSeg_of (hroom : rq.segIdx < rq.seg.length) : fillSeg rq key physical count =
    .ok ({ rq with
        segIdx := rq.segIdx + 1
        seg := rq.seg.set rq.segIdx ⟨physical, count, if physical = 0 then blockSegHole else 0⟩ },
      ⟨key.start + count, key.len - count⟩) := by
  unfold fillSeg writeSeg
  rw [if_pos hroom]
  rfl

/-- The loop, from the entry in front of `next` on. -/
theorem readLoopStride_visits (fuel : Nat) (hentries : leaf.entries = front ++ ex :: next :: rest)
    (hcount : leaf.entries.length = leaf.count)
    (hasc : Ascending DiskExtent.logical leaf.entries) (hfuel : rest.length < fuel)
    (hlt : key.start < next.logical) (hlen : 0 < key.len)
    (hroom : rq.segIdx < rq.segMax) (hmemory : rq.seg.length = rq.segMax) :
    (∀ rq' key' em', readLoopStride leaf true fuel (front.length + 1) physical rq key em =
        .ok (rq', key', em') → ∃ visited, Visits rq key em (next :: rest) visited em') ∧
      (em.count + (rest.length + 1) ≤ 100 → ∃ r,
        readLoopStride leaf true fuel (front.length + 1) physical rq key em = .ok r) := by
  induction fuel generalizing front ex next rest rq key em physical with
  | zero => exact absurd hfuel (Nat.not_lt_zero _)
  | succ fuel ih =>
      have hmove : leaf.entries = (front ++ [ex]) ++ next :: rest := by
        rw [hentries]
        simp
      have hlength : (front ++ [ex]).length = front.length + 1 := List.length_append
      have hend : leaf.count = front.length + (rest.length + 2) := by
        rw [← hcount, hentries, List.length_append, List.length_cons, List.length_cons]
      have hdistance : (next.logical + 2 ^ 64 - key.start) % 2 ^ 64 = next.logical - key.start := by
        have := next.logical_lt
        omega
      have hfill := @fillSeg_of physical (min key.len (next.logical - key.start)) rq key
        (hmemory ▸ hroom)
      have hturn : readLoopStride leaf true (fuel + 1) (front.length + 1) physical rq key em =
          (addStride em next.logical >>= fun em => do
            let (rq, key) ← fillSeg rq key physical (min key.len (next.logical - key.start))
            if key.len ≠ 0 ∧ rq.segIdx < rq.segMax ∧ front.length + 1 + 1 < leaf.count
            then readLoopStride leaf true fuel (front.length + 1 + 1) next.physical rq key em
            else return (rq, key, em)) := by
        rw [readLoopStride, bind_of_ok (getExtent_of_entries hmove hlength.symm), hdistance]
        rfl
      rw [hturn]
      by_cases hplace : em.count < 100
      · have hadd : addStride em next.logical = .ok (em.push next.logical) := if_pos hplace
        rw [bind_of_ok hadd, bind_of_ok hfill]
        dsimp only
        by_cases hmore : key.len - min key.len (next.logical - key.start) ≠ 0 ∧
            rq.segIdx + 1 < rq.segMax ∧ front.length + 1 + 1 < leaf.count
        · rw [if_pos hmore]
          obtain ⟨hlenpos, hroom', hinside⟩ := hmore
          cases rest with
          | nil =>
              rw [List.length_nil] at hend
              omega
          | cons after rest =>
              have hafter : next.logical < after.logical := by
                rw [hmove] at hasc
                exact hasc.after after List.mem_cons_self
              have hmin : min key.len (next.logical - key.start) = next.logical - key.start := by
                omega
              rw [hmin] at hlenpos ⊢
              obtain ⟨hvisits, hok⟩ := @ih (front ++ [ex]) rest next after next.physical
                { rq with
                  segIdx := rq.segIdx + 1
                  seg := rq.seg.set rq.segIdx ⟨physical, next.logical - key.start,
                    if physical = 0 then blockSegHole else 0⟩ }
                ⟨key.start + (next.logical - key.start), key.len - (next.logical - key.start)⟩
                (em.push next.logical) hmove (Nat.lt_of_succ_lt_succ hfuel)
                (by dsimp only; omega) (Nat.pos_of_ne_zero hlenpos) hroom'
                (List.length_set.trans hmemory)
              rw [hlength] at hvisits hok
              refine ⟨fun rq' key' em' hrun => ?_, fun hbound => hok ?_⟩
              · obtain ⟨visited, hnoted, hinitial, hall⟩ := hvisits rq' key' em' hrun
                refine ⟨next :: visited, hnoted, List.cons_prefix_cons.mpr ⟨rfl, hinitial⟩, ?_⟩
                rw [List.cons_inj_right, hall]
                unfold Covers
                dsimp only
                rw [List.dropLast_cons_of_ne_nil (List.cons_ne_nil after rest),
                  List.forall_mem_cons, List.length_cons, List.length_cons, List.length_cons]
                have hsum : key.start + (next.logical - key.start) +
                    (key.len - (next.logical - key.start)) = key.start + key.len := by omega
                rw [hsum]
                constructor
                · rintro ⟨hidx, hbelow⟩
                  exact ⟨by omega, by omega, hbelow⟩
                · rintro ⟨hidx, -, hbelow⟩
                  exact ⟨by omega, hbelow⟩
              · rw [List.length_cons] at hbound
                unfold StrideMap.push
                dsimp only
                omega
        · rw [if_neg hmore]
          refine ⟨fun rq' key' em' hrun => ⟨[next], ?_, ?_, ?_⟩, fun _ => ⟨_, rfl⟩⟩
          · exact (Prod.mk.inj (Prod.mk.inj (Except.ok.inj hrun)).2).2.symm
          · exact List.cons_prefix_cons.mpr ⟨rfl, List.nil_prefix⟩
          · unfold Covers
            cases rest with
            | nil =>
                refine ⟨fun _ => ⟨hroom, fun e he => absurd he List.not_mem_nil⟩, fun _ => rfl⟩
            | cons after rest =>
                rw [List.dropLast_cons_of_ne_nil (List.cons_ne_nil after rest),
                  List.forall_mem_cons, List.length_cons, List.length_cons]
                rw [List.length_cons] at hend
                constructor
                · intro heq
                  cases heq
                · rintro ⟨hidx, hbelow, -⟩
                  omega
      · have hadd : addStride em next.logical = .error .bounds := if_neg hplace
        rw [bind_of_error hadd]
        refine ⟨(fun rq' key' em' hrun => nomatch hrun), fun hbound => ?_⟩
        omega

/-- A read from address zero of a leaf with an extent. -/
theorem dleaf2ReadStride_visits (h : leaf.Ok entriesPerLeaf 0 limit)
    (hentries : leaf.entries = a :: next :: rest) (hstart : key.start = 0) (hlen : 0 < key.len)
    (hroom : rq.segIdx < rq.segMax) (hmemory : rq.seg.length = rq.segMax) :
    (∀ rq' key' em', dleaf2ReadStride limit leaf rq key em = .ok (rq', key', em') →
        ∃ visited, Visits rq key ((initStride em).push a.logical) (next :: rest) visited em') ∧
      (rest.length + 2 ≤ 100 → ∃ r, dleaf2ReadStride limit leaf rq key em = .ok r) := by
  have hlength := h.entries_length
  have hasc := h.ascending
  have hzero : a.logical = 0 := Nat.le_zero.mp (h.first a (by rw [hentries]; rfl))
  have hend : leaf.count = rest.length + 2 := by
    rw [← hlength, hentries, List.length_cons, List.length_cons]
  have hlt : key.start < next.logical := by
    rw [hentries] at hasc
    have hafter := @Ascending.after _ _ _ _ [] _ _ hasc next List.mem_cons_self
    omega
  have hlookup : dleaf2LookupIndex leaf key.start = .ok 0 :=
    @dleaf2LookupIndex_eq leaf [] (next :: rest) a _ hentries hlength h.ascending
      (hzero.trans hstart.symm)
  obtain ⟨hvisits, hok⟩ := @readLoopStride_visits leaf [] rest a next (a.blockAt key.start) rq key
    ((initStride em).push a.logical) leaf.count hentries hlength h.ascending (by omega) hlt hlen
    hroom hmemory
  obtain ⟨out, key', segs, hrun, hpart, hmax, ⟨e, he, hbelow⟩, hstop⟩ :=
    @readLoop_part leaf [] rest a next rq key leaf.count hentries hlength h.ascending (by omega)
      (by omega) hlt hlen hroom hmemory
  obtain ⟨out', key'', segs', hlast, -⟩ :=
    fillLast_ok h hpart hmemory hmax (Nat.le_trans hbelow (h.le_limit e he)) hstop
  have hread : getExtent leaf.table 0 = .ok a :=
    getExtent_of_entries (show leaf.entries = [] ++ a :: next :: rest from hentries) rfl
  have hnote : noteStride true (initStride em) a.logical =
      .ok ((initStride em).push a.logical) := by
    unfold noteStride addStride
    rw [if_pos rfl, if_pos (show (initStride em).count < 100 from Nat.succ_pos 99)]
  have hturn : dleaf2ReadStride limit leaf rq key em =
      (readLoopStride leaf true leaf.count (([] : List DiskExtent).length + 1) (a.blockAt key.start)
        rq key ((initStride em).push a.logical) >>= fun r => do
          let (rq, key) ← fillLast limit r.1 r.2.1
          return (rq, key, r.2.2)) := by
    unfold dleaf2ReadStride
    have hfirst : (key.start % 2 ^ 32 == 0) = true := by
      rw [hstart]
      rfl
    rw [if_neg (Nat.not_le_of_lt hroom), bind_of_ok hlookup, if_neg (by omega), bind_of_ok hread]
    dsimp only
    rw [hfirst, if_pos rfl, bind_of_ok hnote]
    rfl
  rw [hturn]
  constructor
  · intro rq' key₁ em' heq
    obtain ⟨⟨rq₁, key₂, em₁⟩, hloop, heq⟩ := bind_eq_ok.mp heq
    obtain ⟨⟨rq₂, key₃⟩, -, heq⟩ := bind_eq_ok.mp heq
    obtain rfl : em₁ = em' := (Prod.mk.inj (Prod.mk.inj (Except.ok.inj heq)).2).2
    exact hvisits _ _ _ hloop
  · intro hbound
    have hcount : ((initStride em).push a.logical).count = 1 := rfl
    obtain ⟨⟨rq₁, key₂, em₁⟩, hloop⟩ := hok (by omega)
    have hsame := (readLoopStride_read _ hloop).symm.trans hrun
    obtain ⟨rfl, rfl⟩ := Prod.mk.inj (Except.ok.inj hsame)
    rw [bind_of_ok hloop]
    dsimp only
    rw [bind_of_ok hlast]
    exact ⟨_, rfl⟩

/-! ## The lengths -/

/-- The lengths of the strides are noted, and how many addresses there are. -/
def StrideRight (leaf : Dleaf2)
    (result : Except TuxError (DleafReq × BtreeKeyRange × StrideMap)) : Prop :=
  ∃ rq key em, result = .ok (rq, key, em) ∧ em.count = leaf.count ∧
    ∀ front a b back, leaf.entries = front ++ a :: b :: back →
      (em.num (front.length + 1)).toNat = b.logical - a.logical

/-- There are one or two extents, the read reaches to the last one, and their lengths fit 32 bits;
or there is no extent, and the count was that already. -/
def StrideFits (leaf : Dleaf2) (rq : DleafReq) (key : BtreeKeyRange) (em : StrideMap) : Prop :=
  (leaf.count = 1 ∧ em.count = 1) ∨
  (2 ≤ leaf.count ∧ leaf.count ≤ 3 ∧ Covers rq key leaf.entries.tail ∧
    ∀ front a b back, leaf.entries = front ++ a :: b :: back → b.logical - a.logical < 2 ^ 32)

/-- The numbers that are noted of the first four addresses. -/
theorem StrideMap.pushAll_first (em : StrideMap) (a b c d : DiskExtent)
    (rest : List DiskExtent) :
    (((initStride em).push a.logical).pushAll (b :: rest)).num 1 =
        UInt32.ofNat b.logical - UInt32.ofNat a.logical ∧
    (((initStride em).push a.logical).pushAll (b :: c :: rest)).num 2 =
        UInt32.ofNat c.logical - (UInt32.ofNat b.logical - UInt32.ofNat a.logical) ∧
    (((initStride em).push a.logical).pushAll (b :: c :: d :: rest)).num 3 =
        UInt32.ofNat d.logical - (UInt32.ofNat c.logical -
          (UInt32.ofNat b.logical - UInt32.ofNat a.logical)) := by
  refine ⟨?_, ?_, ?_⟩
  · rw [pushAll_cons, pushAll_num]
    · rfl
    · exact Nat.lt_succ_self 1
  · rw [pushAll_cons, pushAll_cons, pushAll_num]
    · rfl
    · exact Nat.lt_succ_self 2
  · rw [pushAll_cons, pushAll_cons, pushAll_cons, pushAll_num]
    · rfl
    · exact Nat.lt_succ_self 3

/-- Three lengths in a row cannot all be right. -/
theorem three_lengths {a b c d : DiskExtent} (hzero : a.logical = 0) (hb : 0 < b.logical)
    (hbc : b.logical < c.logical) (hcd : c.logical < d.logical)
    (h1 : (UInt32.ofNat b.logical - UInt32.ofNat a.logical).toNat = b.logical - a.logical)
    (h2 : (UInt32.ofNat c.logical - (UInt32.ofNat b.logical - UInt32.ofNat a.logical)).toNat =
      c.logical - b.logical) :
    (UInt32.ofNat d.logical - (UInt32.ofNat c.logical -
      (UInt32.ofNat b.logical - UInt32.ofNat a.logical))).toNat ≠ d.logical - c.logical := by
  intro h3
  have hlt1 := (UInt32.ofNat b.logical - UInt32.ofNat a.logical).toNat_lt
  have hlt2 := (UInt32.ofNat c.logical -
    (UInt32.ofNat b.logical - UInt32.ofNat a.logical)).toNat_lt
  rw [h1] at hlt1
  rw [h2] at hlt2
  -- the second length is taken off the fourth address, and not the third address
  rw [UInt32.toNat_sub, h2, UInt32.toNat_ofNat'] at h3
  rw [UInt32.toNat_sub, h1, UInt32.toNat_ofNat'] at h2
  omega

theorem one_length {a b : DiskExtent} (hzero : a.logical = 0)
    (hlt : b.logical - a.logical < 2 ^ 32) :
    (UInt32.ofNat b.logical - UInt32.ofNat a.logical).toNat = b.logical - a.logical := by
  rw [UInt32.toNat_sub, UInt32.toNat_ofNat', UInt32.toNat_ofNat', hzero]
  omega

theorem two_lengths {a b c : DiskExtent} (hzero : a.logical = 0)
    (h1 : (UInt32.ofNat b.logical - UInt32.ofNat a.logical).toNat = b.logical - a.logical)
    (hbc : b.logical < c.logical) (hlt : c.logical - b.logical < 2 ^ 32) :
    (UInt32.ofNat c.logical - (UInt32.ofNat b.logical - UInt32.ofNat a.logical)).toNat =
      c.logical - b.logical := by
  have hb := (UInt32.ofNat b.logical - UInt32.ofNat a.logical).toNat_lt
  rw [UInt32.toNat_sub, h1, UInt32.toNat_ofNat']
  omega

/-- The places of two neighbours among two and among three entries. -/
theorem split_two {a b x y : DiskExtent} (h : [a, b] = front ++ x :: y :: rest) :
    front = [] ∧ x = a ∧ y = b := by
  cases front with
  | nil =>
      obtain ⟨rfl, htail⟩ := List.cons.inj h
      exact ⟨rfl, rfl, (List.cons.inj htail).1.symm⟩
  | cons z front =>
      have hlength := congrArg List.length h
      simp only [List.length_cons, List.length_append, List.length_nil] at hlength
      omega

theorem split_three {a b c x y : DiskExtent} (h : [a, b, c] = front ++ x :: y :: rest) :
    (front = [] ∧ x = a ∧ y = b) ∨ (front = [a] ∧ x = b ∧ y = c) := by
  cases front with
  | nil =>
      obtain ⟨rfl, htail⟩ := List.cons.inj h
      exact .inl ⟨rfl, rfl, (List.cons.inj htail).1.symm⟩
  | cons z front =>
      obtain ⟨rfl, htail⟩ := List.cons.inj h
      obtain ⟨rfl, rfl, rfl⟩ := split_two htail
      exact .inr ⟨rfl, rfl, rfl⟩

/-- A leaf without extents. -/
theorem dleaf2ReadStride_sentinel (h : leaf.Ok entriesPerLeaf 0 limit)
    (hentries : leaf.entries = [a]) (hstart : key.start = 0) (hroom : rq.segIdx < rq.segMax)
    (hmemory : rq.seg.length = rq.segMax) :
    ∃ rq' key', dleaf2ReadStride limit leaf rq key em = .ok (rq', key', em) := by
  have hlength := h.entries_length
  have hcount : leaf.count = 1 := by
    rw [← hlength, hentries]
    rfl
  have hzero : a.logical = 0 := Nat.le_zero.mp (h.first a (by rw [hentries]; rfl))
  have hlookup : dleaf2LookupIndex leaf key.start = .ok 0 :=
    @dleaf2LookupIndex_eq leaf [] [] a _ hentries hlength h.ascending (hzero.trans hstart.symm)
  have hread : getExtent leaf.table 0 = .ok a :=
    getExtent_of_entries (show leaf.entries = [] ++ a :: [] from hentries) rfl
  have hhole := (h.last a (by rw [hentries]; rfl)).1
  have hcheck : checkSentinel leaf 0 = .ok () := by
    unfold checkSentinel
    rw [if_pos (by omega), hcount, bind_of_ok hread, tuxAssert_of hhole]
  obtain ⟨rq', key', hlast⟩ : ∃ rq' key', fillLast limit rq key = .ok (rq', key') := by
    unfold fillLast
    split
    · exact ⟨_, _, fillSeg_of (hmemory ▸ hroom)⟩
    · exact ⟨_, _, rfl⟩
  refine ⟨rq', key', ?_⟩
  unfold dleaf2ReadStride
  rw [if_neg (Nat.not_le_of_lt hroom), bind_of_ok hlookup, if_pos (by omega), bind_of_ok hcheck,
    bind_of_ok hlast]
  rfl

/-- A read from address zero notes the lengths of the strides exactly if there are no more than
two. -/
theorem dleaf2ReadStride_iff (h : leaf.Ok entriesPerLeaf 0 limit) (hcount : 0 < leaf.count)
    (hstart : key.start = 0) (hlen : 0 < key.len) (hroom : rq.segIdx < rq.segMax)
    (hmemory : rq.seg.length = rq.segMax) :
    StrideRight leaf (dleaf2ReadStride limit leaf rq key em) ↔ StrideFits leaf rq key em := by
  have hlength := h.entries_length
  have hasc := h.ascending
  unfold StrideRight StrideFits
  cases hentries : leaf.entries with
  | nil =>
      rw [hentries] at hlength
      exact absurd hlength (Nat.ne_of_lt hcount)
  | cons a tail =>
  have hzero : a.logical = 0 := Nat.le_zero.mp (h.first a (by rw [hentries]; rfl))
  rw [hentries] at hlength hasc
  rw [List.length_cons] at hlength
  cases tail with
  | nil =>
      obtain ⟨rq', key', hrun⟩ :=
        @dleaf2ReadStride_sentinel _ _ _ _ _ _ em h hentries hstart hroom hmemory
      rw [hrun]
      constructor
      · rintro ⟨_, _, _, heq, hem, -⟩
        obtain ⟨-, heq⟩ := Prod.mk.inj (Except.ok.inj heq)
        rw [← (Prod.mk.inj heq).2] at hem
        exact .inl ⟨hlength.symm, hem.trans hlength.symm⟩
      · rintro (⟨hone, hem⟩ | ⟨htwo, -⟩)
        · refine ⟨_, _, _, rfl, hem.trans hone.symm, fun front a b back hsplit => ?_⟩
          have hlen := congrArg List.length hsplit
          simp only [List.length_cons, List.length_append, List.length_nil] at hlen
          omega
        · rw [List.length_nil] at hlength
          omega
  | cons b rest =>
  rw [List.length_cons] at hlength
  obtain ⟨hvisits, hok⟩ :=
    @dleaf2ReadStride_visits _ _ _ _ _ _ _ _ em h hentries hstart hlen hroom hmemory
  have hfirst : ((initStride em).push a.logical).count = 1 := rfl
  have hb : 0 < b.logical := by
    have hafter := @Ascending.after _ _ _ _ [] _ _ hasc b List.mem_cons_self
    omega
  constructor
  · rintro ⟨rq', key', em', hrun, hem, hnum⟩
    obtain ⟨visited, hnoted, hinitial, hall⟩ := hvisits _ _ _ hrun
    have hvisited : visited = b :: rest := by
      apply hinitial.eq_of_length
      rw [hnoted, StrideMap.pushAll_count, hfirst] at hem
      rw [List.length_cons]
      omega
    have hcovers := hall.mp hvisited
    subst hvisited
    subst hnoted
    have hdiff : ∀ front a' b' back, a :: b :: rest = front ++ a' :: b' :: back →
        b'.logical - a'.logical < 2 ^ 32 := by
      intro front a' b' back hsplit
      rw [← hnum front a' b' back hsplit]
      exact UInt32.toNat_lt _
    refine .inr ⟨by omega, ?_, hcovers, hdiff⟩
    by_contra hmany
    obtain ⟨c, d, more, rfl⟩ : ∃ c d more, rest = c :: d :: more := by
      match rest, hlength with
      | [], hlength => exact absurd hlength (by rw [List.length_nil]; omega)
      | [c], hlength => exact absurd hlength (by rw [List.length_singleton]; omega)
      | c :: d :: more, _ => exact ⟨c, d, more, rfl⟩
    obtain ⟨hone, -, -⟩ := StrideMap.pushAll_first em a b c d (c :: d :: more)
    obtain ⟨-, htwo, -⟩ := StrideMap.pushAll_first em a b c d (d :: more)
    obtain ⟨-, -, hthree⟩ := StrideMap.pushAll_first em a b c d more
    have h1 := hnum [] a b (c :: d :: more) rfl
    have h2 := hnum [a] b c (d :: more) rfl
    have h3 := hnum [a, b] c d more rfl
    have hbc := @Ascending.after _ _ _ _ [a] _ _ hasc c List.mem_cons_self
    have hcd := @Ascending.after _ _ _ _ [a, b] _ _ hasc d List.mem_cons_self
    exact three_lengths hzero hb hbc hcd (hone ▸ h1) (htwo ▸ h2) (hthree ▸ h3)
  · rintro (⟨hone, -⟩ | ⟨-, hthree, hcovers, hdiff⟩)
    · omega
    obtain ⟨⟨rq', key', em'⟩, hrun⟩ := hok (by omega)
    obtain ⟨visited, hnoted, -, hall⟩ := hvisits _ _ _ hrun
    obtain rfl := hall.mpr hcovers
    subst hnoted
    refine ⟨rq', key', _, hrun, ?_, fun front x y back hsplit => ?_⟩
    · rw [StrideMap.pushAll_count, hfirst, List.length_cons]
      omega
    · have h1 := one_length hzero (hdiff [] a b rest rfl)
      match rest, hlength with
      | [], _ =>
          obtain ⟨rfl, rfl, rfl⟩ := split_two hsplit
          rw [List.length_nil, (StrideMap.pushAll_first em x y y y []).1]
          exact h1
      | [c], _ =>
          have hbc := @Ascending.after _ _ _ _ [a] _ _ hasc c List.mem_cons_self
          have h2 := two_lengths hzero h1 hbc (hdiff [a] b c [] rfl)
          obtain ⟨rfl, rfl, rfl⟩ | ⟨rfl, rfl, rfl⟩ := split_three hsplit
          · rw [List.length_nil, (StrideMap.pushAll_first em x y c c [c]).1]
            exact h1
          · rw [List.length_singleton, (StrideMap.pushAll_first em a x y y []).2.1]
            exact h2
      | c :: d :: more, hlength =>
          rw [List.length_cons, List.length_cons] at hlength
          omega

end

/-! ## Three extents -/

/-- Three extents of ten blocks. -/
def threeExtents : Dleaf2 :=
  ⟨4, [diskExtent 0 100, diskExtent 10 200, diskExtent 20 300, diskExtent 30 0]⟩

theorem threeExtents_ok : threeExtents.Ok 4 0 30 where
  memory := rfl
  count_le := Nat.le_refl 4
  ascending := by
    unfold Ascending
    decide
  first := by
    rintro _ ⟨⟩
    exact Nat.le_refl 0
  last := by
    rintro _ ⟨⟩
    exact ⟨rfl, Nat.le_refl 30⟩

/-- A read of 30 blocks with room for ten segments. -/
def threeExtentsReq : DleafReq := ⟨0, 0, 10, List.replicate 10 ⟨0, 0, 0⟩⟩

theorem dleaf2ReadStride_iff_threeExtents :
    StrideRight threeExtents
        (dleaf2ReadStride 30 threeExtents threeExtentsReq ⟨0, 30⟩ ⟨fun _ => 0, 0⟩) ↔
      StrideFits threeExtents threeExtentsReq ⟨0, 30⟩ ⟨fun _ => 0, 0⟩ :=
  dleaf2ReadStride_iff threeExtents_ok (by decide) rfl (by decide) (by decide) rfl

/-- The third extent is noted with 20 blocks, and has 10. -/
theorem dleaf2ReadStride_third :
    (∃ rq key em, dleaf2ReadStride 30 threeExtents threeExtentsReq ⟨0, 30⟩ ⟨fun _ => 0, 0⟩ =
        .ok (rq, key, em) ∧ em.num 3 = 20) ∧
      ¬ StrideRight threeExtents
        (dleaf2ReadStride 30 threeExtents threeExtentsReq ⟨0, 30⟩ ⟨fun _ => 0, 0⟩) := by
  obtain ⟨hvisits, hok⟩ := @dleaf2ReadStride_visits threeExtents _ _ _ 4 30 threeExtentsReq ⟨0, 30⟩
    ⟨fun _ => 0, 0⟩ threeExtents_ok rfl rfl (by decide) (by decide) rfl
  obtain ⟨⟨rq, key, em⟩, hrun⟩ := hok (by decide)
  obtain ⟨visited, rfl, -, hall⟩ := hvisits _ _ _ hrun
  have hcovers : Covers threeExtentsReq ⟨0, 30⟩
      [diskExtent 10 200, diskExtent 20 300, diskExtent 30 0] := by
    unfold Covers
    decide
  obtain rfl := hall.mpr hcovers
  refine ⟨⟨rq, key, _, hrun, rfl⟩, ?_⟩
  rintro ⟨rq', key', em', hrun', -, hnum⟩
  obtain ⟨-, hem⟩ := Prod.mk.inj (Prod.mk.inj (Except.ok.inj (hrun.symm.trans hrun'))).2
  have hright := hnum [diskExtent 0 100, diskExtent 10 200] _ _ [] rfl
  rw [← hem] at hright
  exact absurd hright (by decide)

end Tux3
