/-
  Shard/Chain.lean --- the chains of a shard.

  `ShardOk shard cells frees live` gives the entries of each bucket, the free entries and the
  pairs of a key and a block that the shard holds.  An insert moves the head of a bucket to an
  entry of its own, a delete moves the second entry to the head or takes a later one out.
-/
import Mathlib.Data.List.Pairwise
import Tux3.Lib.Linked
import Tux3.Shard.Table

set_option autoImplicit false

namespace Tux3

/-! ## The view of a table -/

/-- The link of an entry. -/
def Shard.next (shard : Shard) (i : Nat) : Nat := entryNext (shard.table i)

/-- The pair that an entry of a bucket stands for. -/
def Shard.pair (shard : Shard) (bucket i : Nat) : Nat × Nat :=
  (bucket * 2 ^ shard.lowbits + shard.entryKey (shard.table i), shard.entryBlock (shard.table i))

/-- Two states of a shard, which differ in what it holds. -/
structure Shard.SameBits (shard' shard : Shard) : Prop where
  size : shard'.size = shard.size
  bucketbits : shard'.bucketbits = shard.bucketbits
  lowbits : shard'.lowbits = shard.lowbits

/-- The pairs of a bucket. -/
def Shard.inBucket (shard : Shard) (live : List (Nat × Nat)) (bucket : Nat) : List (Nat × Nat) :=
  live.filter fun pair => shard.bucket pair.1 = bucket

/-- The entries of each bucket, the free entries, and the pairs that the shard holds. -/
structure ShardOk (shard : Shard) (cells : Nat → List Nat) (frees : List Nat)
    (live : List (Nat × Nat)) : Prop where
  buckets_le : shard.buckets ≤ shard.used
  used_le : shard.used ≤ shard.size
  index_lt : ∀ i, shard.buckets ≤ i → i < shard.used → i < noentry
  chain : ∀ bucket, bucket < shard.buckets →
    cells bucket = [] ∧ shard.next bucket = noentry ∨
    ∃ rest, cells bucket = bucket :: rest ∧
      Linked shard.next endlist (shard.next bucket) rest
  free : Linked shard.next endlist shard.free frees
  cover : (frees ++ (List.range shard.buckets).flatMap fun bucket => (cells bucket).tail).Perm
    (List.range' shard.buckets (shard.used - shard.buckets))
  holds : ∀ bucket, bucket < shard.buckets →
    ((cells bucket).map (shard.pair bucket)).Perm (shard.inBucket live bucket)
  bucket_lt : ∀ pair ∈ live, shard.bucket pair.1 < shard.buckets

section

variable {shard shard' : Shard} {cells : Nat → List Nat} {frees rest : List Nat}
  {live : List (Nat × Nat)} {bucket i key block next : Nat}

theorem Shard.buckets_pos (shard : Shard) : 0 < shard.buckets := Nat.two_pow_pos _

/-- The entries beyond the buckets: the free ones and those of the buckets but their heads. -/
def Shard.others (shard : Shard) (cells : Nat → List Nat) (frees : List Nat) : List Nat :=
  frees ++ (List.range shard.buckets).flatMap fun bucket => (cells bucket).tail

namespace ShardOk

theorem mem_others (h : ShardOk shard cells frees live) :
    i ∈ shard.others cells frees ↔ shard.buckets ≤ i ∧ i < shard.used := by
  have hmem := h.cover.mem_iff (a := i)
  have hle := h.buckets_le
  unfold Shard.others
  rw [hmem, List.mem_range'_1]
  omega

theorem others_nodup (h : ShardOk shard cells frees live) : (shard.others cells frees).Nodup :=
  h.cover.nodup_iff.mpr List.nodup_range'

theorem free_mem (h : ShardOk shard cells frees live) (hi : i ∈ frees) :
    shard.buckets ≤ i ∧ i < shard.used :=
  h.mem_others.mp (List.mem_append_left _ hi)

theorem tail_mem (h : ShardOk shard cells frees live) (hbucket : bucket < shard.buckets)
    (hi : i ∈ (cells bucket).tail) : shard.buckets ≤ i ∧ i < shard.used :=
  h.mem_others.mp (List.mem_append_right _
    (List.mem_flatMap.mpr ⟨bucket, List.mem_range.mpr hbucket, hi⟩))

/-- No entry is both free and in a bucket. -/
theorem free_not_mem (h : ShardOk shard cells frees live) (hbucket : bucket < shard.buckets)
    (hi : i ∈ frees) : i ∉ (cells bucket).tail := by
  intro hmem
  have hnodup := h.others_nodup
  unfold Shard.others at hnodup
  exact (List.nodup_append.mp hnodup).2.2 i hi i
    (List.mem_flatMap.mpr ⟨bucket, List.mem_range.mpr hbucket, hmem⟩) rfl

/-- No entry is in two buckets. -/
theorem tail_not_mem (h : ShardOk shard cells frees live) {bucket' : Nat}
    (hbucket : bucket < shard.buckets) (hbucket' : bucket' < shard.buckets)
    (hne : bucket ≠ bucket') (hi : i ∈ (cells bucket).tail) : i ∉ (cells bucket').tail := by
  have hnodup := h.others_nodup
  unfold Shard.others at hnodup
  have hpair := (List.nodup_flatMap.mp (List.nodup_append.mp hnodup).2.1).2
  have hsymm : Std.Symm (Function.onFun List.Disjoint fun b => (cells b).tail) :=
    ⟨fun _ _ h _ ha hb => h hb ha⟩
  exact fun hmem => hpair.forall (List.mem_range.mpr hbucket) (List.mem_range.mpr hbucket') hne
    hi hmem

theorem tail_nodup (h : ShardOk shard cells frees live) (hbucket : bucket < shard.buckets) :
    (cells bucket).tail.Nodup := by
  have hnodup := h.others_nodup
  unfold Shard.others at hnodup
  exact (List.nodup_flatMap.mp (List.nodup_append.mp hnodup).2.1).1 bucket
    (List.mem_range.mpr hbucket)

/-- A bucket is empty if its link says so. -/
theorem cells_of_empty (h : ShardOk shard cells frees live) (hbucket : bucket < shard.buckets)
    (hempty : shard.next bucket = noentry) : cells bucket = [] := by
  rcases h.chain bucket hbucket with ⟨hnil, -⟩ | ⟨rest, hcells, hlinked⟩
  · exact hnil
  · rw [hempty] at hlinked
    rcases hlinked.head_mem with hend | hmem
    · exact absurd hend (by decide)
    · have htail : noentry ∈ (cells bucket).tail := by
        rw [hcells]
        exact hmem
      obtain ⟨hle, hlt⟩ := h.tail_mem hbucket htail
      exact absurd (h.index_lt noentry hle hlt) (Nat.lt_irrefl _)

/-- A bucket that is not empty starts with its own entry. -/
theorem cells_of_not_empty (h : ShardOk shard cells frees live) (hbucket : bucket < shard.buckets)
    (hempty : shard.next bucket ≠ noentry) :
    ∃ rest, cells bucket = bucket :: rest ∧
      Linked shard.next endlist (shard.next bucket) rest := by
  rcases h.chain bucket hbucket with ⟨-, hnone⟩ | hrest
  · exact absurd hnone hempty
  · exact hrest

/-- A change of one bucket and of the free entries leaves the other buckets as they are. -/
theorem change (h : ShardOk shard cells frees live) {cell frees' : List Nat}
    {live' : List (Nat × Nat)} (hsame : shard'.SameBits shard)
    (hused : shard.used ≤ shard'.used) (hsize : shard'.used ≤ shard.size)
    (hindex : ∀ i, shard.used ≤ i → i < shard'.used → i < noentry)
    (hheads : ∀ i, i < shard.buckets → i ≠ bucket → shard'.table i = shard.table i)
    (htails : ∀ b, b < shard.buckets → b ≠ bucket → ∀ i ∈ (cells b).tail,
      shard'.table i = shard.table i)
    (hchain : cell = [] ∧ shard'.next bucket = noentry ∨
      ∃ rest, cell = bucket :: rest ∧ Linked shard'.next endlist (shard'.next bucket) rest)
    (hfree : Linked shard'.next endlist shard'.free frees')
    (hcover : (frees' ++ (List.range shard.buckets).flatMap fun b =>
      (Function.update cells bucket cell b).tail).Perm
      (List.range' shard.buckets (shard'.used - shard.buckets)))
    (hholds : (cell.map (shard'.pair bucket)).Perm (shard.inBucket live' bucket))
    (hlive : ∀ b, b ≠ bucket → (shard.inBucket live b).Perm (shard.inBucket live' b))
    (hlt : ∀ pair ∈ live', shard.bucket pair.1 < shard.buckets) :
    ShardOk shard' (Function.update cells bucket cell) frees' live' := by
  have hlow := hsame.lowbits
  have hbuckets : shard'.buckets = shard.buckets := congrArg (2 ^ ·) hsame.bucketbits
  have hinBucket : ∀ b, shard'.inBucket live' b = shard.inBucket live' b := by
    intro b
    unfold Shard.inBucket Shard.bucket
    rw [hlow]
  have hpair : ∀ b i, shard'.table i = shard.table i → shard'.pair b i = shard.pair b i := by
    intro b i htable
    unfold Shard.pair Shard.entryKey Shard.entryBlock Shard.blockbits
    rw [hlow, htable]
  have hcells : ∀ b, b < shard.buckets → b ≠ bucket → ∀ i ∈ cells b,
      shard'.table i = shard.table i := by
    intro b hb hne i hi
    rcases h.chain b hb with ⟨hnil, -⟩ | ⟨rest, hcons, -⟩
    · rw [hnil] at hi
      exact absurd hi List.not_mem_nil
    · have htail := htails b hb hne
      rw [hcons] at hi htail
      rcases List.mem_cons.mp hi with rfl | hrest
      · exact hheads i hb hne
      · exact htail i hrest
  constructor
  · rw [hbuckets]
    exact Nat.le_trans h.buckets_le hused
  · rw [hsame.size]
    exact hsize
  · intro i hle hlt'
    rw [hbuckets] at hle
    rcases Nat.lt_or_ge i shard.used with hold | hnew
    · exact h.index_lt i hle hold
    · exact hindex i hnew hlt'
  · intro b hb
    rw [hbuckets] at hb
    by_cases hne : b = bucket
    · rw [hne, Function.update_self]
      exact hchain
    · rw [Function.update_of_ne hne]
      have hnext : shard'.next b = shard.next b := congrArg entryNext (hheads b hb hne)
      rw [hnext]
      rcases h.chain b hb with hnil | ⟨rest, hcons, hlinked⟩
      · exact .inl hnil
      · refine .inr ⟨rest, hcons, hlinked.congr fun i hi => congrArg entryNext ?_⟩
        refine htails b hb hne i ?_
        rw [hcons]
        exact hi
  · exact hfree
  · rw [hbuckets]
    exact hcover
  · intro b hb
    rw [hbuckets] at hb
    rw [hinBucket]
    by_cases hne : b = bucket
    · rw [hne, Function.update_self]
      exact hholds
    · rw [Function.update_of_ne hne]
      have hmap : (cells b).map (shard'.pair b) = (cells b).map (shard.pair b) :=
        List.map_congr_left fun i hi => hpair b i (hcells b hb hne i hi)
      rw [hmap]
      exact (h.holds b hb).trans (hlive b hne)
  · intro pair hpair
    unfold Shard.bucket
    rw [hlow, hbuckets]
    exact hlt pair hpair

end ShardOk

/-- What is put on one bucket is put on all of them together. -/
theorem cover_change (hbucket : bucket < shard.buckets)
    {cell more frees' : List Nat} (htail : cell.tail.Perm (more ++ (cells bucket).tail)) :
    (frees' ++ (List.range shard.buckets).flatMap fun b =>
      (Function.update cells bucket cell b).tail).Perm
      (frees' ++ more ++ (List.range shard.buckets).flatMap fun b => (cells b).tail) := by
  rw [List.append_assoc]
  refine List.Perm.append_left frees' ?_
  refine List.Perm.flatMap_of_eq List.nodup_range (List.mem_range.mpr hbucket) ?_ ?_
  · rw [Function.update_self]
    exact htail
  · intro b hne
    rw [Function.update_of_ne hne]

/-! ## Insert -/

theorem inBucket_cons_self :
    shard.inBucket ((key, block) :: live) (shard.bucket key) =
      (key, block) :: shard.inBucket live (shard.bucket key) := by
  unfold Shard.inBucket
  rw [List.filter_cons_of_pos (by simp)]

theorem inBucket_cons_ne (hne : bucket ≠ shard.bucket key) :
    shard.inBucket ((key, block) :: live) bucket = shard.inBucket live bucket := by
  unfold Shard.inBucket
  rw [List.filter_cons_of_neg (by simpa using Ne.symm hne)]

theorem pair_setEntry (hsame : shard'.SameBits shard) (hblock : block < 2 ^ shard.blockbits)
    (hnext : next < 2 ^ shardNextbits)
    (htable : shard'.table i = shard.setEntry (shard.lowkey key) block next) :
    shard'.pair (shard.bucket key) i = (key, block) := by
  have hkey := @entryKey_setEntry shard (shard.lowkey key) block next hblock hnext
  have hblk := @entryBlock_setEntry shard (shard.lowkey key) block next hblock hnext
  unfold Shard.entryKey Shard.blockbits at hkey
  unfold Shard.entryBlock Shard.blockbits at hblk
  unfold Shard.pair Shard.entryKey Shard.entryBlock Shard.blockbits
  rw [htable, hsame.lowbits, hkey, hblk]
  unfold Shard.bucket Shard.lowkey
  rw [Nat.div_add_mod']

theorem pair_congr (hsame : shard'.SameBits shard) {j : Nat}
    (htable : shard'.table i = shard.table j) :
    shard'.pair bucket i = shard.pair bucket j := by
  unfold Shard.pair Shard.entryKey Shard.entryBlock Shard.blockbits
  rw [htable, hsame.lowbits]

/-- An entry is put into an empty bucket. -/
theorem ShardOk.insertEmpty (h : ShardOk shard cells frees live)
    (hkey : shard.bucket key < shard.buckets) (hblock : block < 2 ^ shard.blockbits)
    (hempty : shard.next (shard.bucket key) = noentry) (hsame : shard'.SameBits shard)
    (hused : shard'.used = shard.used) (hfree : shard'.free = shard.free)
    (htable : shard'.table = Function.update shard.table (shard.bucket key)
      (shard.setEntry (shard.lowkey key) block endlist)) :
    ShardOk shard' (Function.update cells (shard.bucket key) [shard.bucket key]) frees
      ((key, block) :: live) := by
  have hcell := h.cells_of_empty hkey hempty
  have hself : shard'.table (shard.bucket key) =
      shard.setEntry (shard.lowkey key) block endlist := by
    rw [htable, Function.update_self]
  have hrest : ∀ i, i ≠ shard.bucket key → shard'.table i = shard.table i := by
    intro i hne
    rw [htable, Function.update_of_ne hne]
  refine h.change hsame (Nat.le_of_eq hused.symm) (hused ▸ h.used_le) (fun i hle hlt => ?_)
    (fun i _ hne => hrest i hne) (fun b hb _ i hi => ?_) ?_ ?_ ?_ ?_ (fun b hne => ?_) ?_
  · omega
  · have hle := (h.tail_mem hb hi).1
    exact hrest i (Nat.ne_of_gt (Nat.lt_of_lt_of_le hkey hle))
  · refine .inr ⟨[], rfl, ?_⟩
    unfold Linked Shard.next
    rw [hself]
    exact entryNext_setEntry hblock (by decide)
  · rw [hfree]
    refine h.free.congr fun i hi => congrArg entryNext (hrest i ?_)
    exact Nat.ne_of_gt (Nat.lt_of_lt_of_le hkey (h.free_mem hi).1)
  · have htail : [shard.bucket key].tail.Perm ([] ++ (cells (shard.bucket key)).tail) := by
      rw [hcell]
      exact List.Perm.refl []
    have hcover := @cover_change shard cells _ hkey _ _ frees htail
    rw [List.append_nil] at hcover
    rw [hused]
    exact hcover.trans h.cover
  · have hold := h.holds _ hkey
    rw [hcell] at hold
    rw [inBucket_cons_self, List.map_singleton,
      pair_setEntry hsame hblock (by decide) hself]
    exact hold.cons (key, block)
  · rw [inBucket_cons_ne hne]
  · intro pair hpair
    rcases List.mem_cons.mp hpair with rfl | hpair
    · exact hkey
    · exact h.bucket_lt pair hpair

/-- The head of a bucket moves to an entry of its own, before a new one. -/
theorem ShardOk.insertMoved (h : ShardOk shard cells frees live)
    (hkey : shard.bucket key < shard.buckets) (hblock : block < 2 ^ shard.blockbits)
    (hempty : shard.next (shard.bucket key) ≠ noentry) {frees' : List Nat}
    (hsame : shard'.SameBits shard) (hused : shard.used ≤ shard'.used)
    (hsize : shard'.used ≤ shard.size)
    (hindex : ∀ i, shard.used ≤ i → i < shard'.used → i < noentry)
    (hle : shard.buckets ≤ next) (hlt : next < noentry)
    (hfree : Linked shard.next endlist shard'.free frees')
    (hcover : (frees' ++ [next] ++ (List.range shard.buckets).flatMap fun b =>
      (cells b).tail).Perm (List.range' shard.buckets (shard'.used - shard.buckets)))
    (htable : shard'.table = Function.update
      (Function.update shard.table next (shard.table (shard.bucket key))) (shard.bucket key)
      (shard.setEntry (shard.lowkey key) block next)) :
    ∃ cells', ShardOk shard' cells' frees' ((key, block) :: live) := by
  obtain ⟨rest, hcell, hlinked⟩ := h.cells_of_not_empty hkey hempty
  have hnext : next < 2 ^ shardNextbits := Nat.lt_trans hlt (by decide)
  have hne : next ≠ shard.bucket key := Nat.ne_of_gt (Nat.lt_of_lt_of_le hkey hle)
  have hnodup := hcover.nodup_iff.mpr List.nodup_range'
  rw [List.append_assoc, List.nodup_append] at hnodup
  have hbound : ∀ i ∈ frees', shard.buckets ≤ i := by
    intro i hi
    have hmem := hcover.mem_iff.mp (List.mem_append_left _ (List.mem_append_left _ hi))
    exact (List.mem_range'_1.mp hmem).1
  have hself : shard'.table (shard.bucket key) =
      shard.setEntry (shard.lowkey key) block next := by
    rw [htable, Function.update_self]
  have hmoved : shard'.table next = shard.table (shard.bucket key) := by
    rw [htable, Function.update_of_ne hne, Function.update_self]
  have hrest : ∀ i, i ≠ next → i ≠ shard.bucket key → shard'.table i = shard.table i := by
    intro i hi hi'
    rw [htable, Function.update_of_ne hi', Function.update_of_ne hi]
  have htail : ∀ b, b < shard.buckets → ∀ i ∈ (cells b).tail,
      shard'.table i = shard.table i := by
    intro b hb i hi
    have hge := (h.tail_mem hb hi).1
    refine hrest i ?_ (Nat.ne_of_gt (Nat.lt_of_lt_of_le hkey hge))
    rintro rfl
    exact (List.nodup_cons.mp hnodup.2.1).1
      (List.mem_flatMap.mpr ⟨b, List.mem_range.mpr hb, hi⟩)
  have htailKey := htail _ hkey
  rw [hcell, List.tail_cons] at htailKey
  refine ⟨Function.update cells (shard.bucket key) (shard.bucket key :: next :: rest),
    h.change hsame hused hsize hindex (fun i hi hi' => ?_) (fun b hb _ => htail b hb) ?_ ?_ ?_ ?_
      (fun b hb => ?_) ?_⟩
  · exact hrest i (Nat.ne_of_lt (Nat.lt_of_lt_of_le hi hle)) hi'
  · refine .inr ⟨next :: rest, rfl, ?_, ?_, ?_⟩
    · unfold Shard.next
      rw [hself]
      exact entryNext_setEntry hblock hnext
    · exact Nat.ne_of_gt (Nat.lt_of_lt_of_le shard.buckets_pos hle)
    · have hlink : shard'.next next = shard.next (shard.bucket key) := congrArg entryNext hmoved
      rw [hlink]
      exact hlinked.congr fun i hi => congrArg entryNext (htailKey i hi)
  · refine hfree.congr fun i hi => congrArg entryNext (hrest i ?_ ?_)
    · exact hnodup.2.2 i hi next List.mem_cons_self
    · exact Nat.ne_of_gt (Nat.lt_of_lt_of_le hkey (hbound i hi))
  · have hperm : (shard.bucket key :: next :: rest).tail.Perm
        ([next] ++ (cells (shard.bucket key)).tail) := by
      rw [hcell]
      exact List.Perm.refl _
    exact (cover_change hkey hperm).trans hcover
  · have hold := h.holds _ hkey
    rw [hcell, List.map_cons] at hold
    have hmap : rest.map (shard'.pair (shard.bucket key)) =
        rest.map (shard.pair (shard.bucket key)) :=
      List.map_congr_left fun i hi => pair_congr hsame (htailKey i hi)
    rw [inBucket_cons_self, List.map_cons, List.map_cons,
      pair_setEntry hsame hblock hnext hself, pair_congr hsame hmoved, hmap]
    exact hold.cons (key, block)
  · rw [inBucket_cons_ne hb]
  · intro pair hpair
    rcases List.mem_cons.mp hpair with rfl | hpair
    · exact hkey
    · exact h.bucket_lt pair hpair

/-! ## Delete -/

/-- A pair that is taken out is missing in its bucket only. -/
theorem inBucket_erase_ne (hmem : (key, block) ∈ live) (hne : bucket ≠ shard.bucket key) :
    (shard.inBucket live bucket).Perm (shard.inBucket (live.erase (key, block)) bucket) := by
  have hperm := (List.perm_cons_erase hmem).filter fun pair => shard.bucket pair.1 = bucket
  refine hperm.trans ?_
  exact List.Perm.of_eq (inBucket_cons_ne hne)

theorem inBucket_erase_self (hmem : (key, block) ∈ live) :
    (shard.inBucket live (shard.bucket key)).Perm
      ((key, block) :: shard.inBucket (live.erase (key, block)) (shard.bucket key)) := by
  have hperm := (List.perm_cons_erase hmem).filter fun pair =>
    shard.bucket pair.1 = shard.bucket key
  exact hperm.trans (List.Perm.of_eq inBucket_cons_self)

/-- The only entry of a bucket is taken out. -/
theorem ShardOk.deleteOnly (h : ShardOk shard cells frees live)
    (hkey : shard.bucket key < shard.buckets) (hmem : (key, block) ∈ live)
    (hcell : cells (shard.bucket key) = [shard.bucket key])
    (hpair : shard.pair (shard.bucket key) (shard.bucket key) = (key, block))
    (hsame : shard'.SameBits shard) (hused : shard'.used = shard.used)
    (hfree : shard'.free = shard.free)
    (htable : shard'.table = Function.update shard.table (shard.bucket key)
      (shard.setEntry 0 0 noentry)) :
    ShardOk shard' (Function.update cells (shard.bucket key) []) frees
      (live.erase (key, block)) := by
  have hself : shard'.table (shard.bucket key) = shard.setEntry 0 0 noentry := by
    rw [htable, Function.update_self]
  have hrest : ∀ i, i ≠ shard.bucket key → shard'.table i = shard.table i := by
    intro i hne
    rw [htable, Function.update_of_ne hne]
  refine h.change hsame (Nat.le_of_eq hused.symm) (hused ▸ h.used_le) (fun i hle hlt => ?_)
    (fun i _ hne => hrest i hne) (fun b hb _ i hi => ?_) (.inl ⟨rfl, ?_⟩) ?_ ?_ ?_
    (fun b hne => inBucket_erase_ne hmem hne) fun pair hpair => ?_
  · omega
  · have hle := (h.tail_mem hb hi).1
    exact hrest i (Nat.ne_of_gt (Nat.lt_of_lt_of_le hkey hle))
  · unfold Shard.next
    rw [hself]
    exact entryNext_setEntry (Nat.two_pow_pos _) (by decide)
  · rw [hfree]
    refine h.free.congr fun i hi => congrArg entryNext (hrest i ?_)
    exact Nat.ne_of_gt (Nat.lt_of_lt_of_le hkey (h.free_mem hi).1)
  · have htail : ([] : List Nat).tail.Perm ([] ++ (cells (shard.bucket key)).tail) := by
      rw [hcell]
      exact List.Perm.refl []
    have hcover := @cover_change shard cells _ hkey _ _ frees htail
    rw [List.append_nil] at hcover
    rw [hused]
    exact hcover.trans h.cover
  · have hold := h.holds _ hkey
    rw [hcell, List.map_singleton, hpair] at hold
    have hcons := hold.trans (inBucket_erase_self hmem)
    exact hcons.cons_inv
  · exact h.bucket_lt pair (List.mem_of_mem_erase hpair)

/-- An entry beyond the head of a bucket becomes free. -/
theorem ShardOk.remove (h : ShardOk shard cells frees live)
    (hkey : shard.bucket key < shard.buckets) (hmem : (key, block) ∈ live)
    (hsame : shard'.SameBits shard) (hused : shard'.used = shard.used) {rest' : List Nat}
    (hcell : cells (shard.bucket key) = shard.bucket key :: rest)
    (hperm : rest.Perm (i :: rest')) (hfree : shard'.free = i)
    (hnext : shard'.next i = shard.free)
    (hother : ∀ j, j ∉ cells (shard.bucket key) → shard'.table j = shard.table j)
    (hchain : Linked shard'.next endlist (shard'.next (shard.bucket key)) rest')
    (hholds : ((shard.bucket key :: rest).map (shard.pair (shard.bucket key))).Perm
      ((key, block) :: (shard.bucket key :: rest').map (shard'.pair (shard.bucket key)))) :
    ∃ cells', ShardOk shard' cells' (i :: frees) (live.erase (key, block)) := by
  have htail : (cells (shard.bucket key)).tail = rest := by
    rw [hcell]
    rfl
  have hi : i ∈ (cells (shard.bucket key)).tail := by
    rw [htail]
    exact hperm.mem_iff.mpr List.mem_cons_self
  have hge := (h.tail_mem hkey hi).1
  refine ⟨Function.update cells (shard.bucket key) (shard.bucket key :: rest'),
    h.change hsame (Nat.le_of_eq hused.symm) (hused ▸ h.used_le) (fun j hle hlt => ?_)
      (fun j hj hne => hother j ?_) (fun b hb hne j hj => hother j ?_) (.inr ⟨rest', rfl, hchain⟩)
      ?_ ?_ ?_ (fun b hne => inBucket_erase_ne hmem hne) fun pair hpair => ?_⟩
  · omega
  · rw [hcell]
    intro hj'
    rcases List.mem_cons.mp hj' with heq | hj'
    · exact hne heq
    · rw [← htail] at hj'
      exact absurd (h.tail_mem hkey hj').1 (Nat.not_le_of_lt hj)
  · rw [hcell]
    intro hj'
    rcases List.mem_cons.mp hj' with rfl | hj'
    · exact absurd (h.tail_mem hb hj).1 (Nat.not_le_of_lt hkey)
    · rw [← htail] at hj'
      exact h.tail_not_mem hb hkey hne hj hj'
  · rw [hfree]
    refine ⟨rfl, Nat.ne_of_gt (Nat.lt_of_lt_of_le shard.buckets_pos hge), ?_⟩
    rw [hnext]
    refine h.free.congr fun j hj => congrArg entryNext (hother j ?_)
    rw [hcell]
    intro hj'
    rcases List.mem_cons.mp hj' with rfl | hj'
    · exact absurd (h.free_mem hj).1 (Nat.not_le_of_lt hkey)
    · rw [← htail] at hj'
      exact h.free_not_mem hkey hj hj'
  · have hflat : ((List.range shard.buckets).flatMap fun b => (cells b).tail).Perm
        ([i] ++ (List.range shard.buckets).flatMap fun b =>
          (Function.update cells (shard.bucket key) (shard.bucket key :: rest') b).tail) := by
      refine List.Perm.flatMap_of_eq List.nodup_range (List.mem_range.mpr hkey) ?_ ?_
      · rw [Function.update_self, htail]
        exact hperm
      · intro b hne
        rw [Function.update_of_ne hne]
    have hcover := (hflat.append_left frees).symm.trans h.cover
    rw [hused]
    refine List.Perm.trans ?_ hcover
    exact List.perm_middle.symm
  · have hold := h.holds _ hkey
    rw [hcell] at hold
    have hcons := hholds.symm.trans (hold.trans (inBucket_erase_self hmem))
    exact hcons.cons_inv
  · exact h.bucket_lt pair (List.mem_of_mem_erase hpair)

/-- The links of an operational shard fit their bits. -/
theorem ShardOk.free_lt (h : ShardOk shard cells frees live) :
    shard.free < 2 ^ shardNextbits := by
  rcases h.free.head_mem with hend | hmem
  · rw [hend]
    decide
  · obtain ⟨hle, hlt⟩ := h.free_mem hmem
    exact Nat.lt_trans (h.index_lt _ hle hlt) (by decide)

/-- The second entry of a bucket moves to its head, which is taken out. -/
theorem ShardOk.deleteHead (h : ShardOk shard cells frees live)
    (hkey : shard.bucket key < shard.buckets) (hmem : (key, block) ∈ live)
    (hcell : cells (shard.bucket key) = shard.bucket key :: i :: rest)
    (hlinked : Linked shard.next endlist (shard.next (shard.bucket key)) (i :: rest))
    (hpair : shard.pair (shard.bucket key) (shard.bucket key) = (key, block))
    (hsame : shard'.SameBits shard) (hused : shard'.used = shard.used)
    (hfree : shard'.free = i)
    (htable : shard'.table = Function.update
      (Function.update shard.table (shard.bucket key) (shard.table i)) i
      (setEntryNext (shard.table i) shard.free)) :
    ∃ cells', ShardOk shard' cells' (i :: frees) (live.erase (key, block)) := by
  have htail : (cells (shard.bucket key)).tail = i :: rest := by
    rw [hcell]
    rfl
  have hnodup := h.tail_nodup hkey
  rw [htail, List.nodup_cons] at hnodup
  have hge : ∀ j ∈ i :: rest, shard.bucket key ≠ j := by
    intro j hj
    rw [← htail] at hj
    exact Nat.ne_of_lt (Nat.lt_of_lt_of_le hkey (h.tail_mem hkey hj).1)
  have hne := hge i List.mem_cons_self
  have hhead : shard'.table (shard.bucket key) = shard.table i := by
    rw [htable, Function.update_of_ne hne, Function.update_self]
  have hrest : ∀ j, j ≠ shard.bucket key → j ≠ i → shard'.table j = shard.table j := by
    intro j hj hj'
    rw [htable, Function.update_of_ne hj', Function.update_of_ne hj]
  have htails : ∀ j ∈ rest, shard'.table j = shard.table j := by
    intro j hj
    refine hrest j (Ne.symm (hge j (List.mem_cons_of_mem _ hj))) ?_
    rintro rfl
    exact hnodup.1 hj
  refine h.remove hkey hmem hsame hused hcell (List.Perm.refl _) hfree ?_ (fun j hj => ?_) ?_ ?_
  · unfold Shard.next
    rw [htable, Function.update_self]
    exact entryNext_setEntryNext h.free_lt
  · rw [hcell] at hj
    refine hrest j ?_ ?_
    · rintro rfl
      exact hj List.mem_cons_self
    · rintro rfl
      exact hj (List.mem_cons_of_mem _ List.mem_cons_self)
  · have hlink : shard'.next (shard.bucket key) = shard.next i := congrArg entryNext hhead
    rw [hlink]
    exact hlinked.2.2.congr fun j hj => congrArg entryNext (htails j hj)
  · have hmap : rest.map (shard'.pair (shard.bucket key)) =
        rest.map (shard.pair (shard.bucket key)) :=
      List.map_congr_left fun j hj => pair_congr hsame (htails j hj)
    rw [List.map_cons, List.map_cons, List.map_cons, hpair, pair_congr hsame hhead, hmap]

/-- A later entry of a bucket is taken out. -/
theorem ShardOk.deleteLater (h : ShardOk shard cells frees live)
    (hkey : shard.bucket key < shard.buckets) (hmem : (key, block) ∈ live)
    {front back : List Nat} {prev : Nat}
    (hcell : cells (shard.bucket key) = front ++ prev :: i :: back)
    (hpair : shard.pair (shard.bucket key) i = (key, block))
    (hsame : shard'.SameBits shard) (hused : shard'.used = shard.used)
    (hfree : shard'.free = i)
    (htable : shard'.table = Function.update
      (Function.update shard.table prev (setEntryNext (shard.table prev) (shard.next i))) i
      (setEntryNext (shard.table i) shard.free)) :
    ∃ cells', ShardOk shard' cells' (i :: frees) (live.erase (key, block)) := by
  have hnonempty : shard.next (shard.bucket key) ≠ noentry := by
    intro hempty
    rw [h.cells_of_empty hkey hempty] at hcell
    exact absurd hcell.symm (List.append_ne_nil_of_right_ne_nil _ (List.cons_ne_nil _ _))
  obtain ⟨rest, hcons, hlinked⟩ := h.cells_of_not_empty hkey hnonempty
  have hsplit := hcons.symm.trans hcell
  have htail : (cells (shard.bucket key)).tail = rest := by
    rw [hcons]
    rfl
  have hge : ∀ j ∈ rest, shard.bucket key < j ∧ j < noentry := by
    intro j hj
    rw [← htail] at hj
    obtain ⟨hle, hlt⟩ := h.tail_mem hkey hj
    exact ⟨Nat.lt_of_lt_of_le hkey hle, h.index_lt j hle hlt⟩
  have hnodup : (front ++ prev :: i :: back).Nodup := by
    have hrest := h.tail_nodup hkey
    rw [htail] at hrest
    rw [← hsplit, List.nodup_cons]
    exact ⟨fun hj => Nat.lt_irrefl _ (hge _ hj).1, hrest⟩
  have hprev : prev ≠ i := by
    rintro rfl
    have hmid := (List.nodup_append.mp hnodup).2.1
    exact (List.nodup_cons.mp hmid).1 List.mem_cons_self
  obtain ⟨rest', hperm, hlinks⟩ : ∃ rest', rest.Perm (i :: rest') ∧
      (∀ next', next' prev = shard.next i → (∀ j, j ≠ prev → j ≠ i → next' j = shard.next j) →
        Linked next' endlist (next' (shard.bucket key)) rest') := by
    cases front with
    | nil =>
        obtain ⟨rfl, rfl⟩ := List.cons.inj hsplit
        rw [List.nil_append] at hnodup
        obtain ⟨hback, hnodup'⟩ := List.nodup_cons.mp hnodup
        refine ⟨back, List.Perm.refl _, fun next' hnext hother => ?_⟩
        rw [hnext]
        refine hlinked.2.2.congr fun j hj => hother j ?_ ?_
        · rintro rfl
          exact hback (List.mem_cons_of_mem _ hj)
        · rintro rfl
          exact (List.nodup_cons.mp hnodup').1 hj
    | cons b front =>
        obtain ⟨rfl, rfl⟩ := List.cons.inj hsplit
        rw [List.cons_append, List.nodup_cons] at hnodup
        refine ⟨front ++ prev :: back, ?_, fun next' hnext hother => ?_⟩
        · have hmid : (front ++ prev :: i :: back).Perm (i :: (front ++ prev :: back)) := by
            have := @List.perm_middle _ i (front ++ [prev]) back
            simpa only [List.append_assoc, List.singleton_append] using this
          exact hmid
        · rw [hother _ ?_ ?_]
          · exact hlinked.unlink hnodup.2 hnext hother
          · rintro rfl
            exact hnodup.1 (List.mem_append_right _ List.mem_cons_self)
          · rintro rfl
            exact hnodup.1 (List.mem_append_right _ (List.mem_cons_of_mem _ List.mem_cons_self))
  have hnext : shard.next i < 2 ^ shardNextbits := Nat.mod_lt _ (Nat.two_pow_pos _)
  have hafter : shard'.table prev = setEntryNext (shard.table prev) (shard.next i) := by
    rw [htable, Function.update_of_ne hprev, Function.update_self]
  have hother : ∀ j, j ≠ prev → j ≠ i → shard'.table j = shard.table j := by
    intro j hj hj'
    rw [htable, Function.update_of_ne hj', Function.update_of_ne hj]
  have hpairs : ∀ j, j ≠ i → shard'.pair (shard.bucket key) j =
      shard.pair (shard.bucket key) j := by
    intro j hj
    by_cases heq : j = prev
    · rw [heq]
      unfold Shard.pair
      have hkeys := @entryKey_setEntryNext shard _ (shard.table prev) hnext
      have hblocks := @entryBlock_setEntryNext shard _ (shard.table prev) hnext
      unfold Shard.entryKey Shard.blockbits at hkeys ⊢
      unfold Shard.entryBlock Shard.blockbits at hblocks ⊢
      rw [hafter, hsame.lowbits, hkeys, hblocks]
    · exact pair_congr hsame (hother j heq hj)
  have hmid : (shard.bucket key :: rest).Perm (i :: (shard.bucket key :: rest')) :=
    (hperm.cons _).trans (List.Perm.swap _ _ _)
  have hnotin : ∀ j ∈ shard.bucket key :: rest', j ≠ i := by
    rintro j hj rfl
    have hdup := hmid.nodup_iff.mp (hsplit ▸ hnodup)
    exact (List.nodup_cons.mp hdup).1 hj
  refine h.remove hkey hmem hsame hused hcons hperm hfree ?_ (fun j hj => ?_) ?_ ?_
  · unfold Shard.next
    rw [htable, Function.update_self]
    exact entryNext_setEntryNext h.free_lt
  · rw [hcell] at hj
    refine hother j ?_ ?_
    · rintro rfl
      exact hj (List.mem_append_right _ List.mem_cons_self)
    · rintro rfl
      exact hj (List.mem_append_right _ (List.mem_cons_of_mem _ List.mem_cons_self))
  · refine hlinks shard'.next ?_ fun j hj hj' => congrArg entryNext (hother j hj hj')
    unfold Shard.next
    rw [hafter]
    exact entryNext_setEntryNext hnext
  · refine (hmid.map (shard.pair (shard.bucket key))).trans ?_
    rw [List.map_cons, hpair]
    refine List.Perm.of_eq (congrArg _ (List.map_congr_left fun j hj => ?_))
    exact (hpairs j (hnotin j hj)).symm

end

end Tux3
