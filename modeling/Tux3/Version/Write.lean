/-
  Version/Write.lean --- writes to the origin and to snapshots.

  A write gives the written version a chunk that no other one reads: the one that it owns, if all
  its children own one as well, that of a ghost with no other heirs, or a new one.  A snapshot with
  children is written in an implicit version below it, and stays behind as a ghost.
-/
import Tux3.Version.Values

set_option autoImplicit false

namespace Tux3.Versions

open Outcome (Ensures bind_of_ok bind_of_error bind_eq_ok)
open ParentTree (IsTree OnPath ListsKids Inherits Heir heir_iff heir_root_iff)

/-- All chunks are in use. -/
def ChunksFull (sb : VersionSb) : Prop := ∀ c, c < maxVersions → sb.allocmap c = true

/-- The errors of a table that is full. -/
def AtLimit (sb : VersionSb) (e : TuxError) : Prop :=
  e = .bounds ∧ TableFull sb ∨ e = .enospc ∧ ChunksFull sb

/-! ## Chunks -/

section Chunks

variable {sb sb' : VersionSb} {allocmap : Nat → Bool} {n p c t data : Nat}

/-- `new_chunk` goes on with the first chunk behind the last one. -/
theorem wrapChunk_eq (hp : p ≤ maxVersions) :
    (if p = maxVersions then 0 else p) = p % maxVersions := by
  split
  · next heq => rw [heq, Nat.mod_self]
  · exact (Nat.mod_eq_of_lt (by omega)).symm

theorem newChunkLoop_some (hp : p ≤ maxVersions) (h : newChunkLoop allocmap n p = some c) :
    allocmap c = false ∧ c < maxVersions := by
  induction n generalizing p with
  | zero => cases h
  | succ n ih =>
      have hmod : p % maxVersions < maxVersions := Nat.mod_lt _ (Nat.succ_pos 255)
      rw [newChunkLoop, wrapChunk_eq hp] at h
      split at h
      · exact ih hmod h
      · next hfree =>
          obtain rfl := Option.some.inj h
          exact ⟨Bool.not_eq_true _ ▸ hfree, hmod⟩

/-- The loop comes by all chunks. -/
theorem newChunkLoop_none (hp : p ≤ maxVersions) (h : newChunkLoop allocmap n p = none) {k : Nat}
    (hk : k < n) : allocmap ((p + k) % maxVersions) = true := by
  induction n generalizing p k with
  | zero => exact absurd hk (Nat.not_lt_zero _)
  | succ n ih =>
      have hmod : p % maxVersions < maxVersions := Nat.mod_lt _ (Nat.succ_pos 255)
      rw [newChunkLoop, wrapChunk_eq hp] at h
      split at h
      · next hused =>
          cases k with
          | zero => exact hused
          | succ k =>
              have hnext := ih (p := p % maxVersions + 1) hmod h (Nat.lt_of_succ_lt_succ hk)
              rw [Nat.add_assoc, Nat.mod_add_mod, Nat.add_comm 1 k] at hnext
              exact hnext
      · cases h

/-- `new_chunk` takes a free chunk. -/
theorem newChunk_ok (hnext : sb.nextchunk ≤ maxVersions) (hroom : ¬ ChunksFull sb) (data : Nat) :
    ∃ chunk, sb.allocmap chunk = false ∧ chunk < maxVersions ∧
      newChunk sb data = .ok (chunk, { sb with
        allocmap := Function.update sb.allocmap chunk true
        snapdata := Function.update sb.snapdata chunk data
        nextchunk := chunk + 1 }) := by
  unfold newChunk
  cases hloop : newChunkLoop sb.allocmap maxVersions sb.nextchunk with
  | some chunk =>
      obtain ⟨hfree, hlt⟩ := newChunkLoop_some hnext hloop
      exact ⟨chunk, hfree, hlt, rfl⟩
  | none =>
      refine absurd (fun c hc => ?_) hroom
      have hused := newChunkLoop_none hnext hloop (k := (c + (maxVersions - sb.nextchunk)) %
        maxVersions) (Nat.mod_lt _ (Nat.succ_pos 255))
      rw [Nat.add_mod_mod, Nat.add_left_comm, Nat.add_sub_cancel' hnext, Nat.add_mod_right,
        Nat.mod_eq_of_lt hc] at hused
      exact hused

theorem newChunk_full (hnext : sb.nextchunk ≤ maxVersions) (hfull : ChunksFull sb) (data : Nat) :
    newChunk sb data = .error .enospc := by
  unfold newChunk
  cases hloop : newChunkLoop sb.allocmap maxVersions sb.nextchunk with
  | none => rfl
  | some chunk =>
      obtain ⟨hfree, hlt⟩ := newChunkLoop_some hnext hloop
      exact absurd ((hfull chunk hlt).symm.trans hfree) Bool.noConfusion

/-- A version that owns none gets an element with a new chunk. -/
theorem storeElement_ok (h : Stored sb sb.elements) (hroom : ¬ ChunksFull sb)
    (ht : chunkOf sb.elements t = none) (data : Nat) :
    ∃ chunk sb1 sb', newChunk sb data = .ok (chunk, sb1) ∧ addElement sb1 t chunk = .ok sb' ∧
      sb.allocmap chunk = false ∧ ElementEdit sb sb' ∧ sb'.table = sb.table ∧
      sb'.elements = sb.elements ++ [⟨t, chunk⟩] ∧
      sb'.snapdata = Function.update sb.snapdata chunk data ∧ sb'.orgdata = sb.orgdata ∧
      Stored sb' sb'.elements ∧
      chunkOf sb'.elements = Function.update (chunkOf sb.elements) t (some chunk) := by
  obtain ⟨chunk, hfree, hlt, hnew⟩ := newChunk_ok h.next_le hroom data
  have hout : chunk ∉ sb.elements.map Element.chunk := by
    rw [← h.alloc, hfree]
    exact Bool.false_ne_true
  have hlen : sb.elements.length < maxVersions := by
    have hnodup : (chunk :: sb.elements.map Element.chunk).Nodup :=
      List.nodup_cons.2 ⟨hout, h.ok.chunks⟩
    have hsub : chunk :: sb.elements.map Element.chunk ⊆ List.range maxVersions := by
      intro c hc
      rw [List.mem_range]
      rcases List.mem_cons.1 hc with rfl | hc
      · exact hlt
      · exact h.alloc_lt c ((h.alloc c).2 hc)
    have hle := (hnodup.subperm hsub).length_le
    rw [List.length_cons, List.length_map, List.length_range] at hle
    exact hle
  have hok : ElementsOk (sb.elements ++ ⟨t, chunk⟩ :: []) := by
    have hrest : ElementsOk (sb.elements ++ []) := by
      rw [List.append_nil]
      exact h.ok
    refine hrest.insert ?_ ?_
    · rw [List.append_nil]
      exact chunkOf_eq_none.1 ht
    · rw [List.append_nil]
      exact hout
  have hadd : addElement { sb with
      allocmap := Function.update sb.allocmap chunk true
      snapdata := Function.update sb.snapdata chunk data
      nextchunk := chunk + 1 } t chunk = .ok { sb with
      allocmap := Function.update sb.allocmap chunk true
      snapdata := Function.update sb.snapdata chunk data
      nextchunk := chunk + 1
      elements := sb.elements ++ [⟨t, chunk⟩] } := bind_of_ok (tuxAssert_of hlen)
  refine ⟨chunk, _, _, hnew, hadd, hfree, ⟨rfl, fun _ => rfl⟩, rfl, rfl, rfl, rfl,
    ⟨hok, fun c => ?_, fun c hc => ?_, Nat.succ_le_of_lt hlt⟩, ?_⟩
  · dsimp only
    rw [List.map_append, List.mem_append, List.map_singleton, List.mem_singleton]
    by_cases hc : c = chunk
    · rw [hc, Function.update_self]
      exact iff_of_true rfl (.inr rfl)
    · rw [Function.update_of_ne hc, h.alloc]
      exact ⟨.inl, fun hor => hor.resolve_right hc⟩
  · dsimp only at hc
    by_cases hcc : c = chunk
    · exact hcc ▸ hlt
    · rw [Function.update_of_ne hcc] at hc
      exact h.alloc_lt c hc
  · refine (chunkOf_insert hok).trans ?_
    rw [List.append_nil]

end Chunks

/-! ## Other elements in the same tree -/

section Elements

variable {sb sb' : VersionSb} {value value' : Nat → Nat} {v u c : Nat}

theorem ElementEdit.visible_iff (hedit : ElementEdit sb sb') :
    Visible sb' (Used sb') v ↔ Visible sb (Used sb) v := by
  unfold Visible
  rw [hedit.sameTree.used_eq, show isGhost sb' v = isGhost sb v from hedit.ghost v]

theorem SnapshotInv.edit (h : SnapshotInv sb) (hedit : ElementEdit sb sb')
    (hstored : Stored sb' sb'.elements)
    (hlabels : ∀ e ∈ sb'.elements, e.label ≠ 0 ∧ Used sb e.label)
    (hclear : ∀ v, isPresent sb' v = false)
    (hheirs : ∀ e ∈ sb'.elements, isGhost sb e.label = true →
      ∃ u, Visible sb (Used sb) u ∧ Has sb sb'.elements u (some e.chunk)) : SnapshotInv sb' := by
  have hsame := hedit.sameTree
  have hghost (v : Nat) : isGhost sb' v = isGhost sb v := hedit.ghost v
  refine ⟨h.toVersionInv.edit hedit, fun v hv => ?_, (hghost 0).trans h.origin,
    fun v hv hg => ?_, hstored, fun e he => ?_, hclear, fun e he hg => ?_⟩
  · rw [hsame.versionCount] at hv
    rw [hsame.childCount]
    exact h.fresh v hv
  · rw [hsame.used_eq] at hv
    rw [hghost] at hg
    rw [hsame.childCount]
    exact h.forks v hv hg
  · rw [hsame.used_eq]
    exact hlabels e he
  · rw [hghost] at hg
    obtain ⟨u, hu, hhas⟩ := hheirs e he hg
    refine ⟨u, hedit.visible_iff.2 hu, ?_⟩
    unfold Has
    rw [hsame.getParent_eq]
    exact hhas

theorem Values.edit (hedit : ElementEdit sb sb')
    (h : ∀ v, Visible sb (Used sb) v → ∃ x, Has sb sb'.elements v x ∧ dataOf sb' x = value' v) :
    Values sb' value' := by
  intro v hv
  obtain ⟨x, hhas, hdata⟩ := h v (hedit.visible_iff.1 hv)
  refine ⟨x, ?_, hdata⟩
  unfold Has
  rw [hedit.sameTree.getParent_eq]
  exact hhas

/-- The chunk that a version has is in use. -/
theorem SnapshotInv.has_alloc (h : SnapshotInv sb) (hv : Used sb v)
    (hhas : Has sb sb.elements v (some c)) : sb.allocmap c = true := by
  obtain ⟨kids, htree⟩ := h.tree
  obtain ⟨u, -, -, hown⟩ := htree.shape.tree.owner_in hv hhas
  exact (h.stored.alloc c).2 (List.mem_map_of_mem ((chunkOf_eq_some h.stored.ok).1 hown))

/-- Both runs over the element list together change nothing. -/
theorem setPresent_twice (hclear : ∀ v, isPresent sb v = false) :
    setPresent (setPresent sb true) false = sb := by
  have hedit := (elementEdit_setPresent sb true).trans (elementEdit_setPresent _ false)
  have hlast (v : Nat) : isPresent (setPresent (setPresent sb true) false) v = false :=
    setPresent_clear (setPresent_marks hclear) v
  have htable : (setPresent (setPresent sb true) false).table = sb.table := by
    funext v
    have hflag : ((setPresent (setPresent sb true) false).table v).present =
        (sb.table v).present := (hlast v).trans (hclear v).symm
    rw [hedit.table v, hflag]
  have heq : setPresent (setPresent sb true) false =
      { sb with table := (setPresent (setPresent sb true) false).table } := rfl
  rw [heq, htable]

end Elements

/-! ## Writes to the origin -/

section Origin

variable {sb sb' : VersionSb} {value : Nat → Nat} {v data : Nat}

/-- `inherited(sb, 0)` counts the snapshots that read the origin. -/
theorem inherited_origin (h : SnapshotInv sb) :
    ∃ l : List Nat, inherited sb 0 = .ok (l.length, sb) ∧ ∀ u, u ∈ l ↔ Used sb u ∧
      isGhost sb u = false ∧ Heir 0 (getParent sb) (chunkOf sb.elements) 0 u := by
  obtain ⟨kids, htree⟩ := h.tree
  have hedit := elementEdit_setPresent sb true
  have hsame := hedit.sameTree
  obtain ⟨l, hcount, -, hmem⟩ := countHeirs_spec (htree.shape.same hsame.toSameShape)
    (setPresent_marks h.clear) htree.shape.tree.root_in (Nat.le_add_left maxVersions _)
  refine ⟨l, ?_, fun u => ?_⟩
  · refine (bind_of_ok hcount).trans ?_
    rw [setPresent_twice h.clear]
    rfl
  · rw [hmem u, hsame.getParent_eq, show isGhost (setPresent sb true) u = isGhost sb u from
      hedit.ghost u]

/-- The origin is written: those that read it get what it held before. -/
theorem originWrite_spec (h : SnapshotInv sb) (hv : Values sb value) (data : Nat) :
    Ensures (AtLimit sb) (originWrite sb data) fun sb' => SnapshotInv sb' ∧ ElementEdit sb sb' ∧
      Values sb' (Function.update value 0 data) := by
  obtain ⟨kids, htree⟩ := h.tree
  obtain ⟨l, hinherit, hmem⟩ := inherited_origin h
  unfold originWrite saveOrigin
  rw [bind_of_ok hinherit]
  dsimp only
  by_cases hheirs : l.length = 0
  · have hnone (v : Nat) (hvis : Visible sb (Used sb) v) (hv0 : v ≠ 0) :
        ¬ Has sb sb.elements v none := by
      intro hhas
      have hin := (hmem v).2 ⟨hvis.1, hvis.2, heir_root_iff.2 ⟨hhas, hv0⟩⟩
      rw [List.eq_nil_of_length_eq_zero hheirs] at hin
      exact List.not_mem_nil hin
    have hedit : ElementEdit sb { sb with orgdata := data } := ⟨rfl, fun _ => rfl⟩
    rw [if_neg fun hne => hne hheirs]
    refine .ok rfl ⟨h.edit hedit ⟨h.stored.ok, h.stored.alloc, h.stored.alloc_lt,
      h.stored.next_le⟩ h.labels h.clear h.heirs, hedit, .edit hedit fun v hvis => ?_⟩
    by_cases hv0 : v = 0
    · rw [hv0, Function.update_self]
      exact ⟨none, .root, rfl⟩
    · obtain ⟨x, hhas, hdata⟩ := hv v hvis
      rw [Function.update_of_ne hv0, ← hdata]
      cases x with
      | none => exact absurd hhas (hnone v hvis hv0)
      | some c => exact ⟨some c, hhas, rfl⟩
  · obtain ⟨w, hw⟩ := List.exists_mem_of_length_pos (Nat.pos_of_ne_zero hheirs)
    obtain ⟨hwused, hwghost, hwheir⟩ := (hmem w).1 hw
    obtain ⟨r, hroot⟩ := htree.shape.getRoot_ok hwused hwheir.ne_root
    have hkids := getRoot_eq htree.shape hroot
    obtain ⟨hr0, hrused, hrp⟩ := (htree.shape.lists.mem 0 r).1
      (hkids ▸ List.mem_singleton_self r)
    have honly (u : Nat) (hu : Used sb u) (hu0 : u ≠ 0) (hup : getParent sb u = 0) : u = r := by
      have hkid := (htree.shape.lists.mem 0 u).2 ⟨hu0, hu, hup⟩
      rw [hkids] at hkid
      exact List.mem_singleton.1 hkid
    have hrown : chunkOf sb.elements r = none := by
      obtain ⟨c, hc, hc0, hcp, hnone, -⟩ := htree.shape.tree.heir_child hwused hwheir
      exact honly c hc hc0 hcp ▸ hnone
    rw [if_pos hheirs]
    by_cases hroom : ChunksFull sb
    · refine .error ?_ (.inr ⟨rfl, hroom⟩)
      exact bind_of_error ((bind_of_ok hroot).trans (bind_of_error
        (newChunk_full h.stored.next_le hroom sb.orgdata)))
    obtain ⟨chunk, sb1, sb2, hnew, hadd, hfree, hedit2, htable, helements, hsnap, horg, hstored,
      hown⟩ := storeElement_ok h.stored hroom hrown sb.orgdata
    have hedit : ElementEdit sb { sb2 with orgdata := data } := hedit2.trans ⟨rfl, fun _ => rfl⟩
    have hhas' {u : Nat} {x : Option Nat} (hu : Used sb u) (hu0 : u ≠ 0)
        (hx : Has sb sb.elements u x) : Has sb sb2.elements u (some (x.getD chunk)) := by
      unfold Has
      rw [hown]
      exact hx.addTopOwn htree.shape.tree hu hu0 hrown hrp honly
    refine .ok (bind_of_ok ((bind_of_ok hroot).trans ((bind_of_ok hnew).trans hadd))) ⟨h.edit hedit
      ⟨hstored.ok, hstored.alloc, hstored.alloc_lt, hstored.next_le⟩ (fun e he => ?_) (fun v => ?_)
      (fun e he hg => ?_), hedit, .edit hedit fun v hvis => ?_⟩
    · rcases List.mem_append.1 (helements ▸ he) with he | he
      · exact h.labels e he
      · rw [List.mem_singleton.1 he]
        exact ⟨hr0, hrused⟩
    · show (sb2.table v).present = false
      rw [htable]
      exact h.clear v
    · rcases List.mem_append.1 (helements ▸ he) with he | he
      · obtain ⟨u, hu, hhas⟩ := h.heirs e he hg
        refine ⟨u, hu, hhas' hu.1 ?_ hhas⟩
        rintro rfl
        cases hhas.root_eq
      · rw [List.mem_singleton.1 he]
        exact ⟨w, ⟨hwused, hwghost⟩,
          hhas' hwused hwheir.ne_root (hwheir.inherits .root)⟩
    · by_cases hv0 : v = 0
      · rw [hv0, Function.update_self]
        exact ⟨none, .root, rfl⟩
      · obtain ⟨x, hhas, hdata⟩ := hv v hvis
        rw [Function.update_of_ne hv0, ← hdata]
        refine ⟨_, hhas' hvis.1 hv0 hhas, ?_⟩
        show sb2.snapdata (x.getD chunk) = dataOf sb x
        rw [hsnap]
        cases x with
        | none => exact Function.update_self _ _ _
        | some c =>
            refine Function.update_of_ne (fun heq => ?_) _ _
            rw [← heq, Option.getD_some, h.has_alloc hvis.1 hhas] at hfree
            cases hfree

end Origin

/-! ## Writes to a version that owns all it needs -/

section Near

variable {sb sb' : VersionSb} {value : Nat → Nat} {kids : Nat → List Nat} {t v c data : Nat}

theorem Loads.visible_iff (hloads : Loads sb sb') :
    Visible sb' (Used sb') v ↔ Visible sb (Used sb) v := by
  unfold Visible isGhost
  rw [hloads.sameShape.used_eq, hloads.table v]

theorem SnapshotInv.loads (h : SnapshotInv sb) (hloads : Loads sb sb') (hinv : VersionInv sb') :
    SnapshotInv sb' := by
  have hsame := hloads.sameShape
  have hghost (v : Nat) : isGhost sb' v = isGhost sb v := by
    unfold isGhost
    rw [hloads.table v]
  have halloc : sb'.allocmap = sb.allocmap := by rw [hloads.rest]
  have hnext : sb'.nextchunk = sb.nextchunk := by rw [hloads.rest]
  refine ⟨hinv, fun v hv => ?_, (hghost 0).trans h.origin, fun v hv hg => ?_,
    ⟨?_, fun c => ?_, fun c => ?_, ?_⟩, fun e he => ?_, fun v => ?_, fun e he hg => ?_⟩
  · rw [hsame.versionCount] at hv
    rw [hsame.childCount]
    exact h.fresh v hv
  · rw [hsame.used_eq] at hv
    rw [hghost] at hg
    rw [hsame.childCount]
    exact h.forks v hv hg
  · rw [hloads.elements]
    exact h.stored.ok
  · rw [halloc, hloads.elements]
    exact h.stored.alloc c
  · rw [halloc]
    exact h.stored.alloc_lt c
  · rw [hnext]
    exact h.stored.next_le
  · rw [hloads.elements] at he
    rw [hsame.used_eq]
    exact h.labels e he
  · unfold isPresent
    rw [hloads.table v]
    exact h.clear v
  · rw [hloads.elements] at he
    rw [hghost] at hg
    obtain ⟨u, hu, hhas⟩ := h.heirs e he hg
    refine ⟨u, hloads.visible_iff.2 hu, ?_⟩
    unfold Has
    rw [hsame.getParent_eq, hloads.elements]
    exact hhas

theorem Values.loads (hv : Values sb value) (hloads : Loads sb sb') : Values sb' value := by
  intro v hvis
  obtain ⟨x, hhas, hdata⟩ := hv v (hloads.visible_iff.1 hvis)
  refine ⟨x, ?_, ?_⟩
  · unfold Has
    rw [hloads.sameShape.getParent_eq, hloads.elements]
    exact hhas
  · rw [← hdata, hloads.rest]
    cases x <;> rfl

/-- `count_near` tells whether a version and all its children own elements. -/
theorem countNear_ok (h : SnapshotInv sb) (htree : VersionTree sb kids) (ht : Used sb t)
    (ht0 : t ≠ 0) :
    ∃ near, countNear sb t = .ok (near, needNear sb t) ∧
      (near = sb.childCount t + 1 → ∀ u, u = t ∨ u ∈ kids t → chunkOf sb.elements u ≠ none) ∧
      (sb.childCount t = 0 → near ≠ sb.childCount t + 1 → chunkOf sb.elements t = none) := by
  obtain ⟨hloads, -, hnear⟩ := needNear_spec htree.shape htree.cached ht ht0
  obtain ⟨ls, hls⟩ : ∃ ls, ls = (sb.elements.map Element.label).filter
    ((needNear sb t).nearmap t) := ⟨_, rfl⟩
  have hcount : (needNear sb t).elements.countP (fun e => (needNear sb t).nearmap t e.label) =
      ls.length := by
    rw [hloads.elements, hls, ← List.countP_eq_length_filter, List.countP_map]
    rfl
  have hmem (u : Nat) : u ∈ ls ↔ chunkOf sb.elements u ≠ none ∧ (u = t ∨ u ∈ kids t) := by
    rw [hls, List.mem_filter, hnear, chunkOf_ne_none]
  have hnodup : ls.Nodup := by
    rw [hls]
    exact h.stored.ok.labels.filter _
  have hsub : ls ⊆ t :: kids t := fun u hu => List.mem_cons.2 ((hmem u).1 hu).2
  have hlen := (hnodup.subperm hsub).length_le
  rw [List.length_cons, ← htree.shape.count_eq ht] at hlen
  refine ⟨ls.length, ?_, fun hfull u hu => ?_, fun hleaf hpart => ?_⟩
  · unfold countNear
    dsimp only
    rw [hcount, bind_of_ok (tuxAssert_of (by rw [hloads.sameShape.childCount]; exact hlen))]
    rfl
  · have hperm := (hnodup.subperm hsub).perm_of_length_le (by
      rw [hfull, List.length_cons, htree.shape.count_eq ht])
    exact ((hmem u).1 (hperm.mem_iff.2 (List.mem_cons.2 hu))).1
  · by_contra hown
    have hpos := List.length_pos_of_mem ((hmem t).2 ⟨hown, .inl rfl⟩)
    omega

/-- The chunk of a version whose children all own elements is rewritten. -/
theorem rewriteOwn_ok (h : SnapshotInv sb) (htree : VersionTree sb kids) (hv : Values sb value)
    (ht0 : t ≠ 0)
    (hall : ∀ u, u = t ∨ u ∈ kids t → chunkOf sb.elements u ≠ none) (data : Nat) :
    ∃ sb', rewriteChunk sb (findElement sb t) data = .ok sb' ∧ SnapshotInv sb' ∧
      ElementEdit sb sb' ∧ Values sb' (Function.update value t data) := by
  obtain ⟨c, hown⟩ := Option.ne_none_iff_exists'.1 (hall t (.inl rfl))
  obtain ⟨i, a, b, hfind, hlist, hlen⟩ := findElement_spec h.stored.ok hown
  have hget : sb.elements[i]? = some ⟨t, c⟩ := by
    rw [hlist, ← hlen, List.getElem?_append_right (Nat.le_refl _), Nat.sub_self]
    rfl
  have hedit : ElementEdit sb { sb with snapdata := Function.update sb.snapdata c data } :=
    ⟨rfl, fun _ => rfl⟩
  refine ⟨{ sb with snapdata := Function.update sb.snapdata c data }, ?_,
    h.edit hedit ⟨h.stored.ok, h.stored.alloc, h.stored.alloc_lt, h.stored.next_le⟩ h.labels h.clear
      h.heirs, hedit, .edit hedit fun v hvis => ?_⟩
  · unfold rewriteChunk
    rw [hfind, Option.bind_some, hget]
    rfl
  · by_cases hvt : v = t
    · rw [hvt, Function.update_self]
      exact ⟨some c, .own ht0 hown, Function.update_self _ _ _⟩
    · obtain ⟨x, hhas, hdata⟩ := hv v hvis
      rw [Function.update_of_ne hvt, ← hdata]
      refine ⟨x, hhas, ?_⟩
      cases x with
      | none => rfl
      | some c' =>
          refine Function.update_of_ne (fun heq => ?_) _ _
          rw [heq] at hhas
          have hheir := (heir_iff ht0 hown fun u hu => h.stored.ok.owner_unique hu hown).2
            ⟨hhas, hvt⟩
          obtain ⟨k, hk, hk0, hkp, hnone, -⟩ := htree.shape.tree.heir_child hvis.1 hheir
          exact hall k (.inr ((htree.shape.lists.mem t k).2 ⟨hk0, hk, hkp⟩)) hnone

end Near

/-! ## Writes to a leaf that owns nothing -/

section Leaf

variable {sb sb' : VersionSb} {value : Nat → Nat} {kids : Nat → List Nat} {t v c a data : Nat}

/-- What `snapshot_write` finds out about the element that the target inherits. -/
structure SoleHeir (sb : VersionSb) (t : Nat) (relabel : Option Nat) : Prop where
  sole : ∀ a, relabel = some a → ∃ c, isGhost sb a = true ∧ chunkOf sb.elements a = some c ∧
    ∀ u, Visible sb (Used sb) u → Has sb sb.elements u (some c) → u = t
  shared : relabel = none → ∀ e ∈ sb.elements, isGhost sb e.label = true →
    Has sb sb.elements t (some e.chunk) →
    ∃ u, u ≠ t ∧ Visible sb (Used sb) u ∧ Has sb sb.elements u (some e.chunk)

theorem soleHeirOf_ok (h : SnapshotInv sb) (ht : Visible sb (Used sb) t) (ht0 : t ≠ 0)
    (hown : chunkOf sb.elements t = none) :
    ∃ relabel, soleHeirOf (setPresent sb true) t = .ok relabel ∧ SoleHeir sb t relabel := by
  obtain ⟨kids, htree⟩ := h.tree
  have hedit := elementEdit_setPresent sb true
  have hsame := hedit.sameTree
  have hghost (v : Nat) : isGhost (setPresent sb true) v = isGhost sb v := hedit.ghost v
  have hmarks := setPresent_marks h.clear
  have hpar := htree.shape.tree.parent_in t ht.1 ht0
  have hdepth := htree.shape.tree.depth_eq t ht.1 ht0
  obtain ⟨a, hancestor, hain, hle, hstop, hup⟩ := solidAncestor_spec
    (htree.shape.same hsame.toSameShape) hmarks ((hghost 0).trans h.origin) hpar
    (htree.shape.depth_lt hpar)
  rw [hsame.getParent_eq] at hup
  rw [hghost] at hstop
  have hat : a ≠ t := by
    rintro rfl
    omega
  -- what the target inherits it has from the ancestor
  have hfrom {x : Option Nat} (hx : Has sb sb.elements t x) : Has sb sb.elements a x := by
    cases hx with
    | root => exact absurd rfl ht0
    | own _ hsome => rw [hown] at hsome; cases hsome
    | up _ _ hx => exact hup _ hx
  unfold soleHeirOf
  rw [show getParent (setPresent sb true) t = getParent sb t from congrFun hsame.getParent_eq t,
    bind_of_ok hancestor, hghost a]
  by_cases hag : isGhost sb a = true
  · obtain ⟨c, hac⟩ := Option.ne_none_iff_exists'.1
      (hstop.resolve_left fun hfalse => Bool.false_ne_true (hfalse.symm.trans hag))
    have ha0 : a ≠ 0 := by
      rintro rfl
      exact Bool.false_ne_true (h.origin.symm.trans hag)
    have honly (u : Nat) (hu : chunkOf sb.elements u = some c) : u = a :=
      h.stored.ok.owner_unique hu hac
    obtain ⟨l, hcount, hnodup, hmem⟩ := countHeirs_spec (htree.shape.same hsame.toSameShape) hmarks
      hain (Nat.le_add_left maxVersions _)
    rw [hsame.getParent_eq] at hmem
    have hmem' {u : Nat} (hu : Visible sb (Used sb) u) :
        u ∈ l ↔ Has sb sb.elements u (some c) := by
      rw [hmem u, hghost u, heir_iff ha0 hac honly]
      refine ⟨fun hand => hand.2.2.1, fun hhas => ⟨hu.1, hu.2, hhas, ?_⟩⟩
      rintro rfl
      exact Bool.false_ne_true (hu.2.symm.trans hag)
    have htl : t ∈ l := by
      obtain ⟨x, hx⟩ := htree.shape.tree.exists_inherits (chunkOf sb.elements) ht.1
      refine (hmem' ht).2 ?_
      rw [← (hfrom hx).own_eq ha0 hac]
      exact hx
    rw [if_pos hag, bind_of_ok hcount]
    by_cases hone : l.length = 1
    · obtain ⟨w, rfl⟩ := List.length_eq_one_iff.1 hone
      obtain rfl := List.mem_singleton.1 htl
      refine ⟨some a, if_pos hone ▸ rfl, fun a' heq => ?_, fun hnone => nomatch hnone⟩
      obtain rfl := Option.some.inj heq
      exact ⟨c, hag, hac, fun u hu hhas => List.mem_singleton.1 ((hmem' hu).2 hhas)⟩
    · refine ⟨none, by rw [if_neg hone]; rfl, fun a' heq => (nomatch heq), fun _ e he hg hhas => ?_⟩
      have hc := (hfrom hhas).own_eq ha0 hac
      obtain ⟨u, hul, hut⟩ : ∃ u ∈ l, u ≠ t := by
        by_contra hnot
        refine hone ?_
        have hsub : l ⊆ [t] := fun u hu => List.mem_singleton.2 (by
          by_contra hne
          exact hnot ⟨u, hu, hne⟩)
        have hlen := (hnodup.subperm hsub).length_le
        have hpos := List.length_pos_of_mem htl
        rw [List.length_singleton] at hlen
        omega
      obtain ⟨hu, hug, -⟩ := (hmem u).1 hul
      rw [hghost] at hug
      exact ⟨u, hut, ⟨hu, hug⟩, hc ▸ (hmem' ⟨hu, hug⟩).1 hul⟩
  · rw [if_neg hag]
    exact ⟨none, rfl, fun a' heq => (nomatch heq), fun _ e he hg hhas =>
      ⟨a, hat, ⟨hain, Bool.not_eq_true _ ▸ hag⟩, hfrom hhas⟩⟩

/-- The element of a ghost goes to its only heir. -/
theorem relabelElement_ok (h : SnapshotInv sb) (htree : VersionTree sb kids) (hv : Values sb value)
    (ht : Visible sb (Used sb) t) (ht0 : t ≠ 0) (hleaf : kids t = [])
    (hown : chunkOf sb.elements t = none) (hag : isGhost sb a = true)
    (hac : chunkOf sb.elements a = some c)
    (hsole : ∀ u, Visible sb (Used sb) u → Has sb sb.elements u (some c) → u = t) (data : Nat) :
    ∃ i sb', findElement sb a = some i ∧
      rewriteChunk { sb with elements := sb.elements.modify i fun e => { e with label := t } }
        (some i) data = .ok sb' ∧ SnapshotInv sb' ∧ ElementEdit sb sb' ∧
      Values sb' (Function.update value t data) := by
  obtain ⟨i, pre, post, hfind, hlist, hlen⟩ := findElement_spec h.stored.ok hac
  have hmodify : sb.elements.modify i (fun e => { e with label := t }) = pre ++ ⟨t, c⟩ :: post := by
    rw [hlist, ← hlen]
    exact List.modifyTailIdx_add (List.modifyHead _) 0 pre _
  have hok := h.stored.ok
  rw [hlist] at hok hown
  obtain ⟨hok', hown'⟩ := chunkOf_relabel hok hown
  rw [← hlist] at hok hown hown'
  dsimp only at hok' hown'
  have hget : (pre ++ (⟨t, c⟩ : Element) :: post)[i]? = some ⟨t, c⟩ := by
    rw [← hlen, List.getElem?_append_right (Nat.le_refl _), Nat.sub_self]
    rfl
  have hedit : ElementEdit sb { sb with
      elements := pre ++ ⟨t, c⟩ :: post
      snapdata := Function.update sb.snapdata c data } := ⟨rfl, fun _ => rfl⟩
  have hkeep {u : Nat} {x : Option Nat} (hu : Visible sb (Used sb) u) (hut : u ≠ t)
      (hx : Has sb sb.elements u x) : x ≠ some c ∧ Has sb (pre ++ ⟨t, c⟩ :: post) u x := by
    have hne : x ≠ some c := by
      rintro rfl
      exact hut (hsole u hu hx)
    refine ⟨hne, ?_⟩
    unfold Has
    rw [hown']
    refine (hx.drop hac hne).addLeafOwn htree.shape.tree hu.1 hut (fun w hw hw0 hwp => ?_) _
    have hkid := (htree.shape.lists.mem t w).2 ⟨hw0, hw, hwp⟩
    rw [hleaf] at hkid
    exact List.not_mem_nil hkid
  have hlabels {P : Element → Prop} (hP : ∀ e ∈ sb.elements, P e) (ht : P ⟨t, c⟩) :
      ∀ e ∈ pre ++ (⟨t, c⟩ : Element) :: post, P e := by
    intro e he
    rw [hlist] at hP
    rcases List.mem_append.1 he with he | he
    · exact hP e (List.mem_append_left _ he)
    · rcases List.mem_cons.1 he with rfl | he
      · exact ht
      · exact hP e (List.mem_append_right _ (List.mem_cons_of_mem _ he))
  refine ⟨i, { sb with
    elements := pre ++ ⟨t, c⟩ :: post
    snapdata := Function.update sb.snapdata c data }, hfind, ?_, h.edit hedit ⟨hok', fun c' => ?_,
      h.stored.alloc_lt, h.stored.next_le⟩ (hlabels h.labels ⟨ht0, ht.1⟩) h.clear
      (hlabels (fun e he hg => ?_) fun hg => ?_), hedit, .edit hedit fun v hvis => ?_⟩
  · rw [hmodify]
    unfold rewriteChunk
    rw [Option.bind_some, hget]
    rfl
  · dsimp only
    rw [h.stored.alloc c', hlist, List.map_append, List.map_append, List.map_cons, List.map_cons]
  · obtain ⟨u, hu, hhas⟩ := h.heirs e he hg
    by_cases hut : u = t
    · -- the target has the chunk of the ghost only
      have hsame : e = ⟨a, c⟩ := by
        obtain ⟨u', hu', hhas'⟩ := h.heirs ⟨a, c⟩ ((chunkOf_eq_some h.stored.ok).1 hac) hag
        rw [hsole u' hu' hhas', ← hut] at hhas'
        exact List.inj_on_of_nodup_map h.stored.ok.chunks he
          ((chunkOf_eq_some h.stored.ok).1 hac) (Option.some.inj (hhas.unique hhas'))
      refine ⟨t, ht, .own ht0 ?_⟩
      show chunkOf (pre ++ ⟨t, c⟩ :: post) t = _
      rw [hown', Function.update_self, hsame]
    · exact ⟨u, hu, (hkeep hu hut hhas).2⟩
  · exact absurd (ht.2.symm.trans hg) Bool.false_ne_true
  · by_cases hvt : v = t
    · rw [hvt, Function.update_self]
      refine ⟨some c, .own ht0 ?_, Function.update_self _ _ _⟩
      show chunkOf (pre ++ ⟨t, c⟩ :: post) t = _
      rw [hown', Function.update_self]
    · obtain ⟨x, hhas, hdata⟩ := hv v hvis
      obtain ⟨hne, hhas'⟩ := hkeep hvis hvt hhas
      rw [Function.update_of_ne hvt, ← hdata]
      refine ⟨x, hhas', ?_⟩
      cases x with
      | none => rfl
      | some c' => exact Function.update_of_ne (fun heq => hne (congrArg some heq)) _ _

/-- A leaf gets an element with a new chunk. -/
theorem storeLeaf_ok (h : SnapshotInv sb) (htree : VersionTree sb kids) (hv : Values sb value)
    (ht : Visible sb (Used sb) t) (ht0 : t ≠ 0) (hleaf : kids t = [])
    (hown : chunkOf sb.elements t = none) (hroom : ¬ ChunksFull sb)
    (hshared : ∀ e ∈ sb.elements, isGhost sb e.label = true → Has sb sb.elements t (some e.chunk) →
      ∃ u, u ≠ t ∧ Visible sb (Used sb) u ∧ Has sb sb.elements u (some e.chunk)) (data : Nat) :
    ∃ chunk sb1 sb', newChunk sb data = .ok (chunk, sb1) ∧ addElement sb1 t chunk = .ok sb' ∧
      SnapshotInv sb' ∧ ElementEdit sb sb' ∧ Values sb' (Function.update value t data) := by
  obtain ⟨chunk, sb1, sb', hnew, hadd, hfree, hedit, htable, helements, hsnap, horg, hstored,
    hown'⟩ := storeElement_ok h.stored hroom hown data
  have hkeep {u : Nat} {x : Option Nat} (hu : Used sb u) (hut : u ≠ t)
      (hx : Has sb sb.elements u x) : Has sb sb'.elements u x := by
    unfold Has
    rw [hown']
    refine hx.addLeafOwn htree.shape.tree hu hut (fun w hw hw0 hwp => ?_) _
    have hkid := (htree.shape.lists.mem t w).2 ⟨hw0, hw, hwp⟩
    rw [hleaf] at hkid
    exact List.not_mem_nil hkid
  have hmem {P : Element → Prop} (hP : ∀ e ∈ sb.elements, P e) (ht : P ⟨t, chunk⟩) :
      ∀ e ∈ sb'.elements, P e := by
    intro e he
    rcases List.mem_append.1 (helements ▸ he) with he | he
    · exact hP e he
    · exact List.mem_singleton.1 he ▸ ht
  refine ⟨chunk, sb1, sb', hnew, hadd, h.edit hedit hstored (hmem h.labels ⟨ht0, ht.1⟩)
    (fun v => ?_) (hmem (fun e he hg => ?_) fun hg => ?_), hedit, .edit hedit fun v hvis => ?_⟩
  · unfold isPresent
    rw [htable]
    exact h.clear v
  · obtain ⟨u, hu, hhas⟩ := h.heirs e he hg
    by_cases hut : u = t
    · obtain ⟨u', hut', hu', hhas'⟩ := hshared e he hg (hut ▸ hhas)
      exact ⟨u', hu', hkeep hu'.1 hut' hhas'⟩
    · exact ⟨u, hu, hkeep hu.1 hut hhas⟩
  · exact absurd (ht.2.symm.trans hg) Bool.false_ne_true
  · by_cases hvt : v = t
    · rw [hvt, Function.update_self]
      refine ⟨some chunk, .own ht0 (by rw [hown', Function.update_self]), ?_⟩
      show sb'.snapdata chunk = data
      rw [hsnap, Function.update_self]
    · obtain ⟨x, hhas, hdata⟩ := hv v hvis
      rw [Function.update_of_ne hvt, ← hdata]
      refine ⟨x, hkeep hvis.1 hvt hhas, ?_⟩
      cases x with
      | none => exact horg
      | some c =>
          show sb'.snapdata c = sb.snapdata c
          rw [hsnap]
          refine Function.update_of_ne (fun heq => ?_) _ _
          rw [← heq, h.has_alloc hvis.1 hhas] at hfree
          cases hfree

end Leaf

/-! ## Writes to snapshots -/

section Write

variable {sb sb' : VersionSb} {value : Nat → Nat} {t v w data tag : Nat}

/-- The version moved: the snapshot that was `t` is `w` now, and the others are what they were. -/
structure Moved (sb sb' : VersionSb) (t w tag : Nat) : Prop where
  ne_zero : w ≠ 0
  fresh : w = t ∨ ¬ Used sb w
  visible : ∀ v, Visible sb' (Used sb') v ↔ Visible sb (Used sb) v ∧ v ≠ t ∨ v = w
  tags : ∀ v, v ≠ w → (sb'.table v).tag = (sb.table v).tag
  tag_eq : (sb'.table w).tag = tag

theorem Moved.edit {sb'' : VersionSb} (h : Moved sb sb' t w tag) (hedit : ElementEdit sb' sb'') :
    Moved sb sb'' t w tag := by
  refine ⟨h.ne_zero, h.fresh, fun v => hedit.visible_iff.trans (h.visible v), fun v hv => ?_, ?_⟩
  · rw [hedit.table v]
    exact h.tags v hv
  · rw [hedit.table w]
    exact h.tag_eq

/-- A version becomes a ghost, where others have what it has. -/
theorem SnapshotInv.ghostSet (h : SnapshotInv sb) (ht0 : t ≠ 0) (hforks : 2 ≤ sb.childCount t)
    (hshared : ∀ c, Has sb sb.elements t (some c) →
      ∃ u, u ≠ t ∧ Visible sb (Used sb) u ∧ Has sb sb.elements u (some c)) :
    SnapshotInv (sb.modify t fun v => { v with ghost := true }) := by
  have hother {v : Nat} (hv : v ≠ t) : (sb.modify t fun v => { v with ghost := true }).table v =
      sb.table v := modify_of_ne sb _ hv
  have hparent : getParent (sb.modify t fun v => { v with ghost := true }) = getParent sb := by
    funext v
    unfold getParent
    by_cases hv : v = t
    · rw [hv, modify_self]
    · rw [hother hv]
  have hused (v : Nat) : Used (sb.modify t fun v => { v with ghost := true }) v ↔ Used sb v := by
    unfold Used
    by_cases hv : v = t
    · rw [hv, modify_self]
    · rw [hother hv]
  have hghost {v : Nat} (hv : v ≠ t) :
      isGhost (sb.modify t fun v => { v with ghost := true }) v = isGhost sb v := by
    unfold isGhost
    rw [hother hv]
  have hvis {u c : Nat} (hu : Visible sb (Used sb) u) (hhas : Has sb sb.elements u (some c)) :
      ∃ u, Visible (sb.modify t fun v => { v with ghost := true })
        (Used (sb.modify t fun v => { v with ghost := true })) u ∧
        Has (sb.modify t fun v => { v with ghost := true }) sb.elements u (some c) := by
    obtain ⟨u', hut', hu', hhas'⟩ : ∃ u', u' ≠ t ∧ Visible sb (Used sb) u' ∧
        Has sb sb.elements u' (some c) := by
      by_cases hut : u = t
      · exact hshared c (hut ▸ hhas)
      · exact ⟨u, hut, hu, hhas⟩
    refine ⟨u', ⟨(hused u').2 hu'.1, (hghost hut').trans hu'.2⟩, ?_⟩
    unfold Has
    rw [hparent]
    exact hhas'
  refine ⟨h.toVersionInv.ghostSet t, h.fresh, (hghost ht0.symm).trans h.origin, fun v hv hg => ?_,
    ⟨h.stored.ok, h.stored.alloc, h.stored.alloc_lt, h.stored.next_le⟩, fun e he => ?_, fun v => ?_,
    fun e he hg => ?_⟩
  · by_cases hvt : v = t
    · exact hvt ▸ hforks
    · exact h.forks v ((hused v).1 hv) ((hghost hvt).symm.trans hg)
  · exact ⟨(h.labels e he).1, (hused _).2 (h.labels e he).2⟩
  · unfold isPresent
    by_cases hvt : v = t
    · rw [hvt, modify_self]
      exact h.clear t
    · rw [hother hvt]
      exact h.clear v
  · by_cases het : e.label = t
    · have hown : chunkOf sb.elements e.label = some e.chunk := (chunkOf_eq_some h.stored.ok).2 he
      rw [het] at hown
      obtain ⟨u, -, hu, hhas⟩ := hshared e.chunk (.own ht0 hown)
      exact hvis hu hhas
    · obtain ⟨u, hu, hhas⟩ := h.heirs e he ((hghost het).symm.trans hg)
      exact hvis hu hhas

/-- `snapshot_write` makes sure that it has a version without children to write to. -/
theorem implicitVersion_ok (h : SnapshotInv sb) (hv : Values sb value)
    (ht : Visible sb (Used sb) t) (ht0 : t ≠ 0) (htag : (sb.table t).tag = tag)
    (hroom : sb.childCount t ≠ 0 → ¬ TableFull sb)
    (hown : sb.childCount t = 0 → chunkOf sb.elements t = none) :
    ∃ w sb', implicitVersion sb t tag = .ok (w, sb') ∧ SnapshotInv sb' ∧ Moved sb sb' t w tag ∧
      sb'.allocmap = sb.allocmap ∧ sb'.childCount w = 0 ∧ chunkOf sb'.elements w = none ∧
      ∃ value', Values sb' value' ∧ ∀ v, v ≠ w → value' v = value v := by
  unfold implicitVersion
  by_cases hleaf : sb.childCount t = 0
  · rw [if_neg fun hne => hne hleaf]
    refine ⟨t, sb, rfl, h, ⟨ht0, .inl rfl, fun v => ?_, fun _ _ => rfl, htag⟩, rfl, hleaf,
      hown hleaf, value, hv, fun _ _ => rfl⟩
    by_cases hvt : v = t
    · rw [hvt]
      exact iff_of_true ht (.inr rfl)
    · exact ⟨fun hvis => .inl ⟨hvis, hvt⟩, fun hor => (hor.resolve_right hvt).1⟩
  · obtain ⟨w, sb1, sb2, hnew, hcount1, hinsert, hinv, hgrown, hcount, hparent⟩ :=
      newLeaf_ok h ht.1 (fun h0 => absurd h0 ht0) (hroom hleaf) tag
    have h2 := hgrown.inv h hinv
    have hwt : w ≠ t := fun heq => hgrown.unused (heq ▸ ht.1)
    have hwvis := hgrown.visible_iff.2 (.inr rfl : Visible sb (Used sb) w ∨ w = w)
    have hshared (c : Nat) (hhas : Has sb2 sb2.elements t (some c)) :
        ∃ u, u ≠ t ∧ Visible sb2 (Used sb2) u ∧ Has sb2 sb2.elements u (some c) := by
      refine ⟨w, hwt, hwvis, .up hgrown.ne_zero ?_ (hparent ▸ hhas)⟩
      rw [hgrown.elements]
      exact h.unowned hgrown.unused
    have hforks : 2 ≤ sb2.childCount t := by
      rw [hcount, Function.update_self]
      omega
    have hother {v : Nat} (hv : v ≠ t) :
        (sb2.modify t fun v => { v with ghost := true }).table v = sb2.table v :=
      modify_of_ne sb2 _ hv
    have hvisible (v : Nat) : Visible (sb2.modify t fun v => { v with ghost := true })
        (Used (sb2.modify t fun v => { v with ghost := true })) v ↔
        Visible sb2 (Used sb2) v ∧ v ≠ t := by
      unfold Visible Used isGhost
      by_cases hvt : v = t
      · rw [hvt, modify_self]
        exact iff_of_false (fun hand => Bool.false_ne_true hand.2.symm) fun hand => hand.2 rfl
      · rw [hother hvt]
        exact ⟨fun hvis => ⟨hvis, hvt⟩, fun hand => hand.1⟩
    have hpar : getParent (sb2.modify t fun v => { v with ghost := true }) = getParent sb2 := by
      funext v
      unfold getParent
      by_cases hv : v = t
      · rw [hv, modify_self]
      · rw [hother hv]
    rw [if_pos hleaf, bind_of_ok hnew]
    dsimp only
    rw [bind_of_ok hinsert]
    refine ⟨w, _, rfl, h2.ghostSet ht0 hforks hshared, ⟨hgrown.ne_zero, .inr hgrown.unused,
      fun v => ?_, fun v hvw => ?_, ?_⟩, hgrown.allocmap, ?_, ?_,
      Function.update value w (value t), ?_, fun v hvw => Function.update_of_ne hvw _ _⟩
    · rw [hvisible, hgrown.visible_iff]
      constructor
      · rintro ⟨hvis | heq, hne⟩
        · exact .inl ⟨hvis, hne⟩
        · exact .inr heq
      · rintro (⟨hvis, hne⟩ | heq)
        · exact ⟨.inl hvis, hne⟩
        · exact ⟨.inr heq, heq ▸ hwt⟩
    · rw [← hgrown.tags v hvw]
      by_cases hvt : v = t
      · rw [hvt, modify_self]
      · rw [hother hvt]
    · rw [hother hwt]
      exact hgrown.child_eq.2.1
    · show sb2.childCount w = 0
      rw [hcount, Function.update_of_ne hwt]
      obtain ⟨kids, htree⟩ := h.tree
      have hcount0 : sb1.childCount = sb.childCount := by
        rw [(newVersion_spec htree hnew).1.rest]
      rw [← hcount0]
      exact hcount1
    · show chunkOf sb2.elements w = none
      rw [hgrown.elements]
      exact h.unowned hgrown.unused
    · intro v hvis
      obtain ⟨x, hhas, hdata⟩ := hgrown.values hv ht v ((hvisible v).1 hvis).1
      refine ⟨x, ?_, ?_⟩
      · unfold Has
        rw [hpar]
        exact hhas
      · rw [← hdata]
        cases x <;> rfl

/-- `snapshot_write` gives the snapshot the data, and nothing else changes. -/
theorem snapshotWrite_spec (h : SnapshotInv sb) (hv : Values sb value)
    (hfind : findTag sb tag = .ok t) (data : Nat) :
    Ensures (AtLimit sb) (snapshotWrite sb tag data) fun sb' => SnapshotInv sb' ∧
      ∃ w value', Moved sb sb' t w tag ∧ Values sb' value' ∧ value' w = data ∧
        ∀ v, v ≠ w → value' v = value v := by
  obtain ⟨kids, htree⟩ := h.tree
  obtain ⟨ht0, htused, htghost, htag⟩ := findTag_spec h.toVersionInv hfind
  obtain ⟨near, hnear, hfull, hpart⟩ := countNear_ok h htree htused ht0
  obtain ⟨hloads, hcached, -⟩ := needNear_spec htree.shape htree.cached htused ht0
  have htree1 := htree.loads hloads hcached
  have h1 := h.loads hloads (h.toVersionInv.loads hloads htree1)
  have hv1 := hv.loads hloads
  have ht1 : Visible (needNear sb t) (Used (needNear sb t)) t :=
    hloads.visible_iff.2 ⟨htused, htghost⟩
  have hcount1 : (needNear sb t).childCount t = sb.childCount t := by
    rw [hloads.sameShape.childCount]
  have htags (v : Nat) : ((needNear sb t).table v).tag = (sb.table v).tag := by
    rw [hloads.table v]
  have hmoved {sb' : VersionSb} {w : Nat} (hm : Moved (needNear sb t) sb' t w tag) :
      Moved sb sb' t w tag := by
    refine ⟨hm.ne_zero, ?_, fun v => (hm.visible v).trans ?_, fun v hvw => (hm.tags v hvw).trans
      (htags v), hm.tag_eq⟩
    · rw [← hloads.sameShape.used_eq]
      exact hm.fresh
    · rw [hloads.visible_iff]
  unfold snapshotWrite
  rw [bind_of_ok hfind, bind_of_ok hnear]
  dsimp only
  rw [hcount1]
  by_cases hnf : near = sb.childCount t + 1
  · rw [if_pos hnf]
    obtain ⟨sb', hrewrite, hinv, hedit, hvalues⟩ := rewriteOwn_ok h1 htree1 hv1 ht0
      (fun u hu => by rw [hloads.elements]; exact hfull hnf u hu) data
    refine .ok hrewrite ⟨hinv, t, _, (hmoved ⟨ht0, .inl rfl, fun v => ?_, fun _ _ => rfl,
      (htags t).trans htag⟩).edit hedit, hvalues, Function.update_self _ _ _, fun v hvt =>
      Function.update_of_ne hvt _ _⟩
    by_cases hvt : v = t
    · rw [hvt]
      exact iff_of_true ht1 (.inr rfl)
    · exact ⟨fun hvis => .inl ⟨hvis, hvt⟩, fun hor => (hor.resolve_right hvt).1⟩
  · rw [if_neg hnf]
    have hfull1 : TableFull (needNear sb t) ↔ TableFull sb := by
      unfold TableFull
      rw [hloads.sameShape.used_eq]
    by_cases hroom : sb.childCount t ≠ 0 ∧ TableFull sb
    · refine .error (bind_of_error ?_) (.inl ⟨rfl, hroom.2⟩)
      unfold implicitVersion
      rw [if_pos (hcount1.symm ▸ hroom.1)]
      exact bind_of_error (newVersion_full htree1 (hfull1.2 hroom.2) t tag)
    have hroom1 (hne : (needNear sb t).childCount t ≠ 0) : ¬ TableFull (needNear sb t) :=
      fun hfull => hroom ⟨hcount1 ▸ hne, hfull1.1 hfull⟩
    obtain ⟨w, sb2, himplicit, h2, hm, halloc, hleaf, hown, value2, hv2, hsame⟩ :=
      implicitVersion_ok h1 hv1 ht1 ht0 ((htags t).trans htag) hroom1 fun hleaf => by
        rw [hloads.elements]
        exact hpart (hcount1 ▸ hleaf) hnf
    have hw2 : Visible sb2 (Used sb2) w := (hm.visible w).2 (.inr rfl)
    obtain ⟨kids2, htree2⟩ := h2.tree
    rw [htree2.shape.count_eq hw2.1] at hleaf
    have hnil := List.eq_nil_of_length_eq_zero hleaf
    have hfull2 : ChunksFull sb2 ↔ ChunksFull sb := by
      unfold ChunksFull
      rw [halloc, hloads.rest]
    obtain ⟨relabel, hsole, hheir⟩ := soleHeirOf_ok h2 hw2 hm.ne_zero hown
    rw [bind_of_ok himplicit]
    dsimp only
    rw [bind_of_ok hsole, setPresent_twice h2.clear]
    have hlast {sb' : VersionSb} (hedit : ElementEdit sb2 sb') (hinv : SnapshotInv sb')
        (hvalues : Values sb' (Function.update value2 w data)) : SnapshotInv sb' ∧
        ∃ w value', Moved sb sb' t w tag ∧ Values sb' value' ∧ value' w = data ∧
          ∀ v, v ≠ w → value' v = value v :=
      ⟨hinv, w, _, (hmoved hm).edit hedit, hvalues, Function.update_self _ _ _, fun v hvw =>
        (Function.update_of_ne hvw _ _).trans (hsame v hvw)⟩
    cases relabel with
    | some a =>
        obtain ⟨c, hag, hac, honly⟩ := hheir.sole a rfl
        obtain ⟨i, sb', hfindi, hrewrite, hinv, hedit, hvalues⟩ :=
          relabelElement_ok h2 htree2 hv2 hw2 hm.ne_zero hnil hown hag hac honly data
        refine .ok ?_ (hlast hedit hinv hvalues)
        dsimp only
        rw [hfindi]
        exact hrewrite
    | none =>
        by_cases hchunks : ChunksFull sb2
        · exact .error (bind_of_error (newChunk_full h2.stored.next_le hchunks data))
            (.inr ⟨rfl, hfull2.1 hchunks⟩)
        obtain ⟨chunk, sb3, sb', hnew, hadd, hinv, hedit, hvalues⟩ := storeLeaf_ok h2 htree2 hv2 hw2
          hm.ne_zero hnil hown hchunks (hheir.shared rfl) data
        exact .ok ((bind_of_ok hnew).trans hadd) (hlast hedit hinv hvalues)

end Write

end Tux3.Versions
