/-
  Buffer/Endio.lean --- what the flush of a list of dirty buffers does.

  Every buffer on the list comes to the end of its I/O exactly once: a forked one is given up, the
  others stay on the hash and are clean.  Without compression, the block of each buffer inside of
  `i_size` gets the data of the buffer, and no other block changes.
-/
import Mathlib.Data.List.Sort
import Tux3.Buffer.Fork

set_option autoImplicit false

namespace Tux3

open BufferPool Outcome

variable {α : Type}

/-! ## Lists of buffers -/

/-- The I/O of `ids` has ended. -/
structure Flushed (pool pool' : BufferPool α) (ids : List Nat) : Prop where
  buffers : ∀ j, pool'.buffers j = if j ∈ ids then (pool.buffers j).ended else pool.buffers j
  hash : pool'.hash = pool.hash

section

variable {pool pool' pool'' : BufferPool α} {pins : Nat → Nat} {ids ids' : List Nat}

theorem Flushed.nil (pool : BufferPool α) : Flushed pool pool [] :=
  ⟨fun _ => (if_neg List.not_mem_nil).symm, rfl⟩

theorem Flushed.append (h : Flushed pool pool' ids) (h' : Flushed pool' pool'' ids')
    (hdisjoint : ∀ j ∈ ids, j ∉ ids') : Flushed pool pool'' (ids ++ ids') := by
  refine ⟨fun j => ?_, h'.hash.trans h.hash⟩
  rw [h'.buffers, h.buffers]
  have hj := hdisjoint j
  grind

theorem Flushed.of_perm (h : Flushed pool pool' ids) (hperm : ids.Perm ids') :
    Flushed pool pool' ids' := by
  refine ⟨fun j => ?_, h.hash⟩
  rw [h.buffers]
  simp only [hperm.mem_iff]

@[simp] theorem BufferHead.ended_index (buffer : BufferHead α) :
    buffer.ended.index = buffer.index := by
  unfold BufferHead.ended BufferHead.put
  split
  · rfl
  · split <;> rfl

@[simp] theorem BufferHead.ended_data (buffer : BufferHead α) :
    buffer.ended.data = buffer.data := by
  unfold BufferHead.ended BufferHead.put
  split
  · rfl
  · split <;> rfl

@[simp] theorem BufferHead.ended_hashed (buffer : BufferHead α) :
    buffer.ended.hashed = buffer.hashed := by
  unfold BufferHead.ended BufferHead.put
  split
  · rfl
  · split <;> rfl

theorem Flushed.index (h : Flushed pool pool' ids) (j : Nat) :
    (pool'.buffers j).index = (pool.buffers j).index := by
  rw [h.buffers]
  split
  · exact BufferHead.ended_index _
  · rfl

theorem Flushed.data (h : Flushed pool pool' ids) (j : Nat) :
    (pool'.buffers j).data = (pool.buffers j).data := by
  rw [h.buffers]
  split
  · exact BufferHead.ended_data _
  · rfl

theorem PoolOk.endioAll (h : PoolOk pool pins) (hdirty : ∀ i ∈ ids, (pool.buffers i).isDirty = true)
    (hnodup : ids.Nodup) :
    ∃ pool', pool.endioAll ids = .ok pool' ∧ Flushed pool pool' ids ∧ PoolOk pool' pins := by
  induction ids generalizing pool with
  | nil => exact ⟨pool, rfl, Flushed.nil pool, h⟩
  | cons id ids ih =>
      obtain ⟨hid, hnodup⟩ := List.nodup_cons.mp hnodup
      obtain ⟨pool₁, hendio, hbuffers, hhash, hok⟩ := h.endio (hdirty id List.mem_cons_self)
      have hrest : ∀ i ∈ ids, (pool₁.buffers i).isDirty = true := by
        intro i hi
        have hne : i ≠ id := by
          rintro rfl
          exact hid hi
        rw [hbuffers, Function.update_of_ne hne]
        exact hdirty i (List.mem_cons_of_mem _ hi)
      obtain ⟨pool', hall, hflushed, hok'⟩ := ih hok hrest hnodup
      unfold BufferPool.endioAll
      rw [bind_of_ok hendio]
      refine ⟨pool', hall, ?_, hok'⟩
      have hone : Flushed pool pool₁ [id] := by
        refine ⟨fun j => ?_, hhash⟩
        rw [hbuffers, Function.update_apply]
        grind
      exact hone.append hflushed fun j hj => by rwa [List.mem_singleton.mp hj]

/-! ## Contiguous ranges -/

/-- The parts of a list of buffers that `bufvec_contig_collect` makes. -/
structure Collected.Splits (collected : Collected) (pool : BufferPool α) (outside : Nat)
    (ids : List Nat) : Prop where
  eq : collected.contig ++ (collected.cancelled ++ collected.rest) = ids
  inside : ∀ i ∈ collected.contig, (pool.buffers i).index < outside
  cancelled : ∀ id more, collected.cancelled = id :: more → outside ≤ (pool.buffers id).index
  rest : collected.contig = [] → collected.rest = []

theorem contigMore_splits (pool : BufferPool α) (outside room last : Nat) (ids : List Nat) :
    let more := pool.contigMore outside room last ids
    more.contig ++ (more.cancelled ++ more.rest) = ids ∧
      (∀ i ∈ more.contig, (pool.buffers i).index < outside) ∧
      ∀ id ids', more.cancelled = id :: ids' → outside ≤ (pool.buffers id).index := by
  induction ids generalizing room last with
  | nil => exact ⟨rfl, fun i hi => absurd hi List.not_mem_nil, fun _ _ heq => nomatch heq⟩
  | cons id ids ih =>
      unfold BufferPool.contigMore
      split
      · rename_i hout
        refine ⟨List.append_nil _, fun i hi => absurd hi List.not_mem_nil, fun j ids' heq => ?_⟩
        rw [← (List.cons.inj heq).1]
        exact hout
      · rename_i hin
        split
        · exact ⟨rfl, fun i hi => absurd hi List.not_mem_nil, fun _ _ heq => nomatch heq⟩
        · obtain ⟨heq, hinside, hcancelled⟩ := ih (room - 1) (pool.buffers id).index
          refine ⟨congrArg (id :: ·) heq, fun i hi => ?_, hcancelled⟩
          rcases List.mem_cons.mp hi with rfl | hi
          · omega
          · exact hinside i hi

theorem contigCollect_splits (pool : BufferPool α) (outside : Nat) (ids : List Nat) :
    (pool.contigCollect outside ids).Splits pool outside ids := by
  unfold BufferPool.contigCollect
  cases ids with
  | nil =>
      exact ⟨rfl, fun i hi => absurd hi List.not_mem_nil, fun _ _ heq => (nomatch heq),
        fun _ => rfl⟩
  | cons id ids =>
      dsimp only
      split
      · rename_i hout
        refine ⟨List.append_nil _, fun i hi => absurd hi List.not_mem_nil, fun j ids' heq => ?_,
          fun _ => rfl⟩
        rw [← (List.cons.inj heq).1]
        exact hout
      · rename_i hin
        obtain ⟨heq, hinside, hcancelled⟩ := contigMore_splits pool outside
          (contigLimit - 1) (pool.buffers id).index ids
        refine ⟨congrArg (id :: ·) heq, fun i hi => ?_, hcancelled, fun hnil => nomatch hnil⟩
        rcases List.mem_cons.mp hi with rfl | hi
        · omega
        · exact hinside i hi

/-! ## The blocks -/

theorem writeBlocks_append (disk : Nat → α) (ids ids' : List Nat) :
    pool.writeBlocks disk (ids ++ ids') = pool.writeBlocks (pool.writeBlocks disk ids) ids' := by
  induction ids generalizing disk with
  | nil => rfl
  | cons id ids ih => exact ih _

/-- The end of an I/O does not change what is written. -/
theorem Flushed.writeBlocks (h : Flushed pool pool' ids) (disk : Nat → α) (ids' : List Nat) :
    pool'.writeBlocks disk ids' = pool.writeBlocks disk ids' := by
  induction ids' generalizing disk with
  | nil => rfl
  | cons id ids' ih =>
      unfold BufferPool.writeBlocks
      rw [h.index, h.data]
      exact ih _

theorem writeBlocks_other {block : Nat} (disk : Nat → α)
    (hne : ∀ i ∈ ids, (pool.buffers i).index ≠ block) :
    pool.writeBlocks disk ids block = disk block := by
  induction ids generalizing disk with
  | nil => rfl
  | cons id ids ih =>
      unfold BufferPool.writeBlocks
      rw [ih _ fun i hi => hne i (List.mem_cons_of_mem _ hi)]
      exact Function.update_of_ne (hne id List.mem_cons_self).symm _ _

theorem writeBlocks_self (disk : Nat → α) {id : Nat} (hid : id ∈ ids)
    (hunique : ∀ i ∈ ids, (pool.buffers i).index = (pool.buffers id).index → i = id)  :
    pool.writeBlocks disk ids (pool.buffers id).index = (pool.buffers id).data := by
  induction ids generalizing disk with
  | nil => exact absurd hid List.not_mem_nil
  | cons j ids ih =>
      unfold BufferPool.writeBlocks
      have hrest : ∀ i ∈ ids, (pool.buffers i).index = (pool.buffers id).index → i = id :=
        fun i hi => hunique i (List.mem_cons_of_mem _ hi)
      by_cases hmem : id ∈ ids
      · exact ih _ hmem hrest
      · have hj : j = id := (List.mem_cons.mp hid).resolve_right hmem |>.symm
        rw [writeBlocks_other _ fun i hi heq => hmem (hrest i hi heq ▸ hi), hj]
        exact Function.update_self ..

/-! ## The flush -/

/-- The buffers of a list that are written. -/
def insideBlocks (pool : BufferPool α) (outside : Nat) (ids : List Nat) : List Nat :=
  ids.filter fun i => (pool.buffers i).index < outside

theorem Collected.Splits.insideBlocks {collected : Collected} {outside : Nat}
    (h : collected.Splits pool outside ids)
    (hsorted : ids.Pairwise fun i j => (pool.buffers i).index ≤ (pool.buffers j).index) :
    insideBlocks pool outside ids =
      collected.contig ++ insideBlocks pool outside collected.rest := by
  unfold Tux3.insideBlocks
  rw [← h.eq, List.filter_append, List.filter_append]
  have hcontig : collected.contig.filter (fun i => (pool.buffers i).index < outside) =
      collected.contig := by
    rw [List.filter_eq_self]
    exact fun i hi => decide_eq_true (h.inside i hi)
  have hcancelled :
      collected.cancelled.filter (fun i => (pool.buffers i).index < outside) = [] := by
    rw [← h.eq, List.pairwise_append, List.pairwise_append] at hsorted
    have hfirst := h.cancelled
    have hpair := hsorted.2.1.1
    revert hfirst hpair
    cases collected.cancelled with
    | nil => exact fun _ _ => rfl
    | cons id more =>
        intro hfirst hpair
        rw [List.filter_eq_nil_iff]
        intro i hi
        rw [decide_eq_true_eq, Nat.not_lt]
        have hid := hfirst id more rfl
        rcases List.mem_cons.mp hi with rfl | hi
        · exact hid
        · exact Nat.le_trans hid ((List.pairwise_cons.mp hpair).1 i hi)
  rw [hcontig, hcancelled]
  rfl

/-- The flush without compression. -/
theorem flushLoop_plain (lzo : List α → List α × α) (outside : Nat) (fuel : Nat)
    (pool : BufferPool α) (disk : Nat → α) (globalIndex : Nat) (head : List Nat)
    (h : PoolOk pool pins) (hdirty : ∀ i ∈ head, (pool.buffers i).isDirty = true)
    (hnodup : head.Nodup)
    (hsorted : head.Pairwise fun i j => (pool.buffers i).index ≤ (pool.buffers j).index)
    (hfuel : head.length ≤ fuel) :
    ∃ pool', flushLoop lzo false outside fuel pool disk globalIndex head =
        .ok (pool', pool.writeBlocks disk (insideBlocks pool outside head)) ∧
      Flushed pool pool' head ∧ PoolOk pool' pins := by
  induction fuel generalizing pool disk head with
  | zero =>
      obtain rfl : head = [] := List.length_eq_zero_iff.mp (Nat.le_zero.mp hfuel)
      exact ⟨pool, rfl, Flushed.nil pool, h⟩
  | succ fuel ih =>
      cases head with
      | nil => exact ⟨pool, rfl, Flushed.nil pool, h⟩
      | cons id ids =>
          have hsplits := contigCollect_splits pool outside (id :: ids)
          unfold flushLoop
          dsimp only
          generalize pool.contigCollect outside (id :: ids) = collected at hsplits ⊢
          have hblocks := hsplits.insideBlocks hsorted
          have heq := hsplits.eq
          rw [← heq] at hnodup hdirty hsorted
          obtain ⟨hcontig, htail, hapart⟩ := List.nodup_append'.mp hnodup
          obtain ⟨hcancelled, hrest, hapart'⟩ := List.nodup_append'.mp htail
          obtain ⟨pool₁, hall₁, hflushed₁, hok₁⟩ := h.endioAll
            (fun i hi => hdirty i (List.mem_append_right _ (List.mem_append_left _ hi))) hcancelled
          rw [bind_of_ok hall₁]
          split
          · rename_i hnil
            have hnone := hsplits.rest hnil
            rw [hblocks, hnil, hnone]
            rw [hnil, hnone, List.nil_append, List.append_nil] at heq
            rw [← heq]
            exact ⟨pool₁, rfl, hflushed₁, hok₁⟩
          · rename_i hne
            have hsame : ∀ i, i ∉ collected.cancelled → pool₁.buffers i = pool.buffers i := by
              intro i hi
              rw [hflushed₁.buffers, if_neg hi]
            obtain ⟨pool₂, hall₂, hflushed₂, hok₂⟩ := hok₁.endioAll (fun i hi => by
              rw [hsame i fun hi' => hapart hi (List.mem_append_left _ hi')]
              exact hdirty i (List.mem_append_left _ hi)) hcontig
            rw [if_neg Bool.false_ne_true, bind_of_ok hall₂]
            have hsame₂ : ∀ i ∈ collected.rest, pool₂.buffers i = pool.buffers i := by
              intro i hi
              rw [hflushed₂.buffers, if_neg fun hi' => hapart hi' (List.mem_append_right _ hi),
                hsame i fun hi' => hapart' hi' hi]
            have hlength : collected.rest.length ≤ fuel := by
              have hlen := congrArg List.length heq
              have hpos := List.length_pos_of_ne_nil hne
              simp only [List.length_append, List.length_cons] at hlen hfuel
              omega
            have hboth : Flushed pool pool₂ (collected.contig ++ collected.cancelled) :=
              (hflushed₁.append hflushed₂ fun j hj hj' =>
                hapart hj' (List.mem_append_left _ hj)).of_perm List.perm_append_comm
            have hsorted' : collected.rest.Pairwise fun i j =>
                (pool₂.buffers i).index ≤ (pool₂.buffers j).index := by
              simp only [hboth.index]
              exact (List.pairwise_append.mp (List.pairwise_append.mp hsorted).2.1).2.1
            obtain ⟨pool', hloop, hflushed, hok⟩ := ih pool₂
              (pool₁.writeBlocks disk collected.contig) collected.rest hok₂ (fun i hi => by
                rw [hsame₂ i hi]
                exact hdirty i (List.mem_append_right _ (List.mem_append_right _ hi)))
              hrest hsorted' hlength
            refine ⟨pool', ?_, ?_, hok⟩
            · rw [hloop, hflushed₁.writeBlocks, hboth.writeBlocks, hblocks, writeBlocks_append]
              have hinside : insideBlocks pool₂ outside collected.rest =
                  insideBlocks pool outside collected.rest := by
                unfold insideBlocks
                simp only [hboth.index]
              rw [hinside]
            · rw [← heq, ← List.append_assoc]
              refine hboth.append hflushed fun j hj hj' => ?_
              rcases List.mem_append.mp hj with hj | hj
              · exact hapart hj (List.mem_append_right _ hj')
              · exact hapart' hj hj'

/-- A flush of the buffers of the delta before. -/
theorem MapOk.flush {map delta : Nat} {blocks blocks' : MapBlocks α}
    (h : MapOk pool map delta blocks)
    (hids : ∀ i, i ∈ ids ↔ (pool.buffers i).map = some map ∧
      (pool.buffers i).state = bufferDirty + tux3Delta (succDelta delta))
    (hflushed : Flushed pool pool' ids)
    (hnewest : blocks'.newest = blocks.newest) (hended : blocks'.ended = blocks.ended)
    (hdisk : ∀ i ∈ ids, blocks'.cut (pool.buffers i).index = false →
      blocks'.disk (pool.buffers i).index = (pool.buffers i).data)
    (hsame : ∀ block, (∀ i ∈ ids, (pool.buffers i).index ≠ block) →
      blocks'.disk block = blocks.disk block ∧ blocks'.cut block = blocks.cut block) :
    MapOk pool' map delta blocks' := by
  have happly := hflushed.buffers
  have hhash := hflushed.hash
  have hslot := tux3Delta_succDelta delta
  have hcases : ∀ i, (pool.buffers i).ended =
        { pool.buffers i with state := bufferClean, count := (pool.buffers i).ended.count } ∨
      ((pool.buffers i).hashed = false ∧ (pool.buffers i).ended.hashed = false ∧
        (pool.buffers i).ended.isDirty = false ∧ (pool.buffers i).ended.map = none) := by
    intro i
    unfold BufferHead.ended BufferHead.put
    grind [BufferHead.isDirty, bufferFreed, bufferDirty]
  have hcurrent : ∀ j, (pool.buffers j).map = some map →
      (pool.buffers j).state = bufferDirty + tux3Delta delta →
      pool'.buffers j = pool.buffers j := by
    intro j _ hstate
    rw [happly, if_neg]
    intro hj
    have hready := ((hids j).mp hj).2
    omega
  obtain ⟨h1, h2, h3, h4, h5, h6, h7, h8, h9, h10⟩ := h
  constructor
  case newest_eq =>
    intro block hcut hnone
    rw [hnewest, hended]
    have hnone' : ∀ j, (pool.buffers j).map = some map →
        (pool.buffers j).state = bufferDirty + tux3Delta delta →
        (pool.buffers j).index ≠ block := by
      intro j hmap hstate
      have hsame' := hcurrent j hmap hstate
      rw [← hsame'] at hmap hstate ⊢
      exact hnone j hmap hstate
    by_cases hblock : ∃ i ∈ ids, (pool.buffers i).index = block
    · -- the buffer that was written is still the one on the hash
      obtain ⟨i, hi, rfl⟩ := hblock
      obtain ⟨hmap, hstate⟩ := (hids i).mp hi
      have hhashed : (pool.buffers i).hashed = true := by
        by_contra hforked
        obtain ⟨j, hmap', hstate', hindex⟩ := h7 i hmap hstate (by simpa using hforked)
        exact hnone' j hmap' hstate' hindex
      have hdata := h8 i hhashed hmap (by rw [hstate]; unfold bufferDirty bufferEmpty; omega)
      exact hdata.symm.trans (h5 i hmap hstate)
    · have hne : ∀ i ∈ ids, (pool.buffers i).index ≠ block :=
        fun i hi heq => hblock ⟨i, hi, heq⟩
      rw [(hsame block hne).2] at hcut
      exact h9 block hcut hnone'
  case disk_eq =>
    intro block hcut _
    rw [hended]
    by_cases hblock : ∃ i ∈ ids, (pool.buffers i).index = block
    · obtain ⟨i, hi, rfl⟩ := hblock
      obtain ⟨hmap, hstate⟩ := (hids i).mp hi
      exact (hdisk i hi hcut).trans (h5 i hmap hstate)
    · have hne : ∀ i ∈ ids, (pool.buffers i).index ≠ block :=
        fun i hi heq => hblock ⟨i, hi, heq⟩
      rw [(hsame block hne).2] at hcut
      rw [(hsame block hne).1]
      exact h10 block hcut fun i hmap hstate => hne i ((hids i).mpr ⟨hmap, hstate⟩)
  all_goals try simp only [hhash, hnewest, hended]
  all_goals grind [BufferHead.isDirty, bufferDirty, bufferClean, bufferEmpty]

/-! ## The flush with compression -/

/-- The I/O of `ids` has ended, whatever was written: the compression changes data and blocks. -/
structure Ended (pool pool' : BufferPool α) (ids : List Nat) : Prop where
  others : ∀ j, j ∉ ids → pool'.buffers j = pool.buffers j
  clean : ∀ j ∈ ids, (pool'.buffers j).isDirty = false
  map : ∀ j, (pool'.buffers j).map = (pool.buffers j).map ∨ (pool'.buffers j).map = none
  hash : pool'.hash = pool.hash

theorem BufferHead.ended_isDirty (buffer : BufferHead α) : buffer.ended.isDirty = false := by
  unfold BufferHead.ended BufferHead.put
  split
  · rfl
  · split <;> rfl

theorem BufferHead.ended_map (buffer : BufferHead α) :
    buffer.ended.map = buffer.map ∨ buffer.ended.map = none := by
  unfold BufferHead.ended BufferHead.put
  split
  · exact Or.inl rfl
  · split
    · exact Or.inr rfl
    · exact Or.inl rfl

theorem Flushed.ended (h : Flushed pool pool' ids) : Ended pool pool' ids := by
  refine ⟨fun j hj => ?_, fun j hj => ?_, fun j => ?_, h.hash⟩
  · rw [h.buffers, if_neg hj]
  · rw [h.buffers, if_pos hj]
    exact BufferHead.ended_isDirty _
  · rw [h.buffers]
    split
    · exact BufferHead.ended_map _
    · exact Or.inl rfl

theorem Ended.append (h : Ended pool pool' ids) (h' : Ended pool' pool'' ids') :
    Ended pool pool'' (ids ++ ids') := by
  obtain ⟨h1, h2, h3, h4⟩ := h
  obtain ⟨h1', h2', h3', h4'⟩ := h'
  constructor <;> grind

theorem Ended.of_perm (h : Ended pool pool' ids) (hperm : ids.Perm ids') :
    Ended pool pool' ids' :=
  ⟨fun j hj => h.others j fun hj' => hj (hperm.mem_iff.mp hj'),
    fun j hj => h.clean j (hperm.mem_iff.mpr hj), h.map, h.hash⟩

/-- Only data and numbers of blocks differ, and only in `ids`. -/
structure Renumbered (pool pool' : BufferPool α) (ids : List Nat) : Prop where
  others : ∀ j, j ∉ ids → pool'.buffers j = pool.buffers j
  buffers : ∀ j, (pool'.buffers j).isDirty = (pool.buffers j).isDirty ∧
    (pool'.buffers j).map = (pool.buffers j).map
  hash : pool'.hash = pool.hash

theorem Renumbered.ended (h : Renumbered pool pool' ids) (h' : Ended pool' pool'' ids) :
    Ended pool pool'' ids := by
  obtain ⟨h1, h2, h3⟩ := h
  obtain ⟨h1', h2', h3', h4'⟩ := h'
  constructor <;> grind

theorem storeBlocks_spec (h : PoolOk pool pins) (globalIndex : Nat) (ids : List Nat)
    (blocks : List α) : Renumbered pool (pool.storeBlocks globalIndex ids blocks) ids ∧
      PoolOk (pool.storeBlocks globalIndex ids blocks) pins := by
  induction ids generalizing pool globalIndex blocks with
  | nil =>
      cases blocks <;> exact ⟨⟨fun _ _ => rfl, fun _ => ⟨rfl, rfl⟩, rfl⟩, h⟩
  | cons id ids ih =>
      cases blocks with
      | nil => exact ⟨⟨fun _ _ => rfl, fun _ => ⟨rfl, rfl⟩, rfl⟩, h⟩
      | cons data blocks =>
          unfold BufferPool.storeBlocks
          have hset := @PoolOk.setData _ _ _ id h globalIndex data
          obtain ⟨⟨hothers, hbuffers, hhash⟩, hok⟩ := ih hset (globalIndex + 1) blocks
          refine ⟨⟨fun j hj => ?_, fun j => ?_, hhash⟩, hok⟩
          · rw [hothers j fun hj' => hj (List.mem_cons_of_mem _ hj')]
            have hne : j ≠ id := by
              rintro rfl
              exact hj List.mem_cons_self
            exact Function.update_of_ne hne _ _
          · rw [(hbuffers j).1, (hbuffers j).2, BufferPool.set]
            dsimp only
            rw [Function.update_apply]
            split
            · rename_i heq
              rw [heq]
              exact ⟨rfl, rfl⟩
            · exact ⟨rfl, rfl⟩

theorem compressStride_spec (h : PoolOk pool pins) (lzo : List α → List α × α)
    (globalIndex : Nat) :
    Ensures (· = TuxError.bounds) (compressStride lzo pool globalIndex ids) fun result =>
      result.2.1 ++ result.2.2.1 = ids ∧ Renumbered pool result.1 ids ∧ PoolOk result.1 pins := by
  unfold compressStride
  dsimp only
  split
  · rfl
  · exact ⟨List.take_append_drop _ _, storeBlocks_spec h _ _ _⟩

theorem flushLoop_ends (lzo : List α → List α × α) (outside : Nat) (fuel : Nat)
    (pool : BufferPool α) (disk : Nat → α) (globalIndex : Nat) (head : List Nat)
    (h : PoolOk pool pins) (hdirty : ∀ i ∈ head, (pool.buffers i).isDirty = true)
    (hnodup : head.Nodup) (hfuel : head.length ≤ fuel) :
    Ensures (· = TuxError.bounds) (flushLoop lzo true outside fuel pool disk globalIndex head)
      fun result => Ended pool result.1 head ∧ PoolOk result.1 pins := by
  induction fuel generalizing pool disk globalIndex head with
  | zero =>
      obtain rfl : head = [] := List.length_eq_zero_iff.mp (Nat.le_zero.mp hfuel)
      exact ⟨(Flushed.nil pool).ended, h⟩
  | succ fuel ih =>
      cases head with
      | nil => exact ⟨(Flushed.nil pool).ended, h⟩
      | cons id ids =>
          have hsplits := contigCollect_splits pool outside (id :: ids)
          unfold flushLoop
          dsimp only
          generalize pool.contigCollect outside (id :: ids) = collected at hsplits ⊢
          have heq := hsplits.eq
          rw [← heq] at hnodup hdirty
          obtain ⟨hcontig, htail, hapart⟩ := List.nodup_append'.mp hnodup
          obtain ⟨hcancelled, hrest, hapart'⟩ := List.nodup_append'.mp htail
          obtain ⟨pool₁, hall₁, hflushed₁, hok₁⟩ := h.endioAll
            (fun i hi => hdirty i (List.mem_append_right _ (List.mem_append_left _ hi))) hcancelled
          rw [bind_of_ok hall₁]
          split
          · rename_i hnil
            have hnone := hsplits.rest hnil
            rw [hnil, hnone, List.nil_append, List.append_nil] at heq
            rw [← heq]
            exact ⟨hflushed₁.ended, hok₁⟩
          · rename_i hne
            rw [if_pos rfl]
            refine Ensures.bind (compressStride_spec hok₁ lzo globalIndex) ?_
            rintro ⟨pool₂, written, unused, globalIndex'⟩ ⟨happend, hrenumbered, hok₂⟩
            dsimp only at happend hrenumbered hok₂ ⊢
            have hdirty₂ : ∀ i ∈ written ++ unused, (pool₂.buffers i).isDirty = true := by
              intro i hi
              rw [happend] at hi
              rw [(hrenumbered.buffers i).1, hflushed₁.buffers,
                if_neg fun hi' => hapart hi (List.mem_append_left _ hi')]
              exact hdirty i (List.mem_append_left _ hi)
            rw [← happend] at hcontig
            obtain ⟨hwritten, hunused, hapart₂⟩ := List.nodup_append'.mp hcontig
            obtain ⟨pool₃, hall₃, hflushed₃, hok₃⟩ := hok₂.endioAll
              (fun i hi => hdirty₂ i (List.mem_append_left _ hi)) hwritten
            obtain ⟨pool₄, hall₄, hflushed₄, hok₄⟩ := hok₃.endioAll (fun i hi => by
              rw [hflushed₃.buffers, if_neg fun hi' => hapart₂ hi' hi]
              exact hdirty₂ i (List.mem_append_right _ hi)) hunused
            have hended : Ended pool pool₄ (collected.cancelled ++ collected.contig) := by
              refine hflushed₁.ended.append (hrenumbered.ended ?_)
              rw [← happend]
              exact hflushed₃.ended.append hflushed₄.ended
            refine Ensures.bind_ok hall₃ (Ensures.bind_ok hall₄ ?_)
            have hlength : collected.rest.length ≤ fuel := by
              have hlen := congrArg List.length heq
              have hpos := List.length_pos_of_ne_nil hne
              simp only [List.length_append, List.length_cons] at hlen hfuel
              omega
            have hrest' : ∀ i ∈ collected.rest, (pool₄.buffers i).isDirty = true := by
              intro i hi
              rw [hended.others i fun hi' => ?_]
              · exact hdirty i (List.mem_append_right _ (List.mem_append_right _ hi))
              · rcases List.mem_append.mp hi' with hi' | hi'
                · exact hapart' hi' hi
                · exact hapart hi' (List.mem_append_right _ hi)
            refine Ensures.mono (ih pool₄ _ _ collected.rest hok₄ hrest' hrest hlength) ?_
            rintro result ⟨hresult, hok⟩
            refine ⟨(hended.append hresult).of_perm ?_, hok⟩
            rw [← heq, List.append_assoc]
            exact List.perm_append_comm_assoc _ _ _

end

end Tux3
