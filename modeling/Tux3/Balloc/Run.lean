/-
  Balloc/Run.lean --- runs of the allocator.

  Every call changes a part of one extent, from its beginning on (`Changed`): all of it
  where it succeeds, and up to the first bitmap block that fails where it does not.  So the
  free count is right in every run, and an error leaves nothing behind exactly where the
  first bitmap block of the extent fails if any of them does.
-/
import Tux3.Balloc.Search
import Tux3.Lib.Outcome
import Tux3.Lib.System

set_option autoImplicit false

namespace Tux3

open BitRange

/-! ## Calls -/

/-- The calls of the allocator. -/
inductive BallocCall where
  | balloc (blocks : Nat)
  | ballocPartial (blocks : Nat)
  | ballocFromRange (start len blocks : Nat) (orPart : Bool)
  | bfree (start blocks : Nat)
  | replayUpdateBitmap (start blocks : Nat) (set : Bool)

namespace BallocCall

/-- A call returns its error, and the extent it is about. -/
def exec (sb : BitmapSb) (io : BitmapIo) :
    BallocCall → Except TuxError (BitmapSb × Int × BlockSegment)
  | .balloc blocks => Tux3.balloc sb io blocks
  | .ballocPartial blocks => Tux3.ballocPartial sb io blocks
  | .ballocFromRange start len blocks orPart =>
      Tux3.ballocFromRange sb io start len blocks orPart
  | .bfree start blocks => do
      let (sb', err) ← Tux3.bfree sb io start blocks
      return (sb', err, ⟨start, blocks⟩)
  | .replayUpdateBitmap start blocks set => do
      let (sb', err) ← Tux3.replayUpdateBitmap sb io start blocks set
      return (sb', err, ⟨start, blocks⟩)

/-- What the asserts ask of the caller. -/
def Valid (sb : BitmapSb) : BallocCall → Prop
  | .balloc blocks | .ballocPartial blocks => 0 < blocks
  | .ballocFromRange _ len blocks _ => 0 < blocks ∧ len ≤ sb.volblocks
  | .bfree start blocks | .replayUpdateBitmap start blocks _ =>
      0 < blocks ∧ start + blocks ≤ sb.volblocks

/-- Whether a call sets the bits of its extent or clears them. -/
def sets : BallocCall → Bool
  | .balloc _ | .ballocPartial _ | .ballocFromRange .. => true
  | .bfree .. => false
  | .replayUpdateBitmap _ _ set => set

/-- The range a call is given, for a call that does not search for it. -/
def range : BallocCall → Option BlockSegment
  | .balloc _ | .ballocPartial _ | .ballocFromRange .. => none
  | .bfree start blocks | .replayUpdateBitmap start blocks _ => some ⟨start, blocks⟩

/-- The extent that an allocation takes: the first that fits, or else the longest. -/
def firstFitSeg (sb : BitmapSb) (io : BitmapIo) (start len blocks : Nat)
    (orPart : Bool) : Option BlockSegment :=
  match firstFit sb.bits sb.volblocks blocks (sb.unreadable io) len ⟨false, start, 0, ⟨0, 0⟩⟩ with
  | .unreadable => none
  | .found seg => some seg
  | .missing best => if orPart && best.count != 0 then some best else none

/-- The extent a call is about: the range it is given, or what it finds free. -/
def extent (sb : BitmapSb) (io : BitmapIo) : BallocCall → Option BlockSegment
  | .balloc blocks => firstFitSeg sb io sb.nextblock sb.volblocks blocks false
  | .ballocPartial blocks => firstFitSeg sb io sb.nextblock sb.volblocks blocks true
  | .ballocFromRange start len blocks orPart => firstFitSeg sb io start len blocks orPart
  | .bfree start blocks | .replayUpdateBitmap start blocks _ => some ⟨start, blocks⟩

end BallocCall

/-! ## One call -/

/-- A bitmap block of the extent stops the change. -/
def RangeFails (test : Bool) (sb : BitmapSb) (io : BitmapIo) (set : Bool) (seg : BlockSegment) :
    Prop :=
  ∃ m, InRange sb seg.block (seg.block + seg.count) m ∧
    BlockFails test sb io set seg.block (seg.block + seg.count) m

/-- If a bitmap block of the extent stops the change, then the first one does. -/
def RangeOk (test : Bool) (sb : BitmapSb) (io : BitmapIo) (set : Bool) (seg : BlockSegment) :
    Prop :=
  RangeFails test sb io set seg →
  BlockFails test sb io set seg.block (seg.block + seg.count) (seg.block / sb.mapsize)

/-- The condition under which an error leaves nothing behind: the extent that the call is
about does not fail in a bitmap block after the first only. -/
def BallocCall.Ok (sb : BitmapSb) (io : BitmapIo) (call : BallocCall) : Prop :=
  ∀ seg, call.extent sb io = some seg → RangeOk call.range.isSome sb io call.sets seg

/-- The bits of an extent were changed up to `mid`. -/
structure Changed (test : Bool) (sb : BitmapSb) (io : BitmapIo) (set : Bool)
    (seg : BlockSegment) (sb' : BitmapSb) (err : Int) (mid : Nat) : Prop where
  le_mid : seg.block ≤ mid
  mid_le : mid ≤ seg.block + seg.count
  bits_eq : sb'.bits = fill sb.bits seg.block mid set
  freeblocks_eq : sb'.freeblocks = (sb.modified seg.block mid set).freeblocks
  blockbits_eq : sb'.blockbits = sb.blockbits
  volblocks_eq : sb'.volblocks = sb.volblocks
  nextblock_lt : sb.nextblock < sb.volblocks → sb'.nextblock < sb.volblocks
  expected : AllBits sb.bits seg.block mid (!set)
  mid_of_ok : err = 0 → mid = seg.block + seg.count
  mid_of_err : err ≠ 0 → (mid = seg.block ↔ RangeOk test sb io set seg)
  rangeOk_of_ok : err = 0 → RangeOk test sb io set seg
  fails_of_err : err ≠ 0 → RangeFails test sb io set seg

section Call

variable {test set : Bool} {sb : BitmapSb} {io : BitmapIo}

/-- The bits before a bitmap block are in the state they should be in, where none of the
earlier blocks stopped the change. -/
theorem allBits_of_not_unexpected {start stop mid : Nat} (hle : mid ≤ stop)
    (h : ∀ m, InRange sb start stop m → start < mid → m * sb.mapsize < mid →
      ¬Unexpected sb set start stop m) : AllBits sb.bits start mid (!set) := by
  intro b hge hlt
  by_contra hne
  have hmul := Nat.div_mul_le_self b sb.mapsize
  refine h (b / sb.mapsize) ⟨Nat.div_le_div_right hge, by omega⟩ (by omega) (by omega)
    ⟨b, hge, by omega, rfl, ?_⟩
  cases hbit : sb.bits b <;> cases set <;> simp_all

/-- What a change of a range comes to. -/
theorem ModifyResult.changed {seg : BlockSegment} {r : BitmapSb × Int}
    (hfree : test = false → AllBits sb.bits seg.block (seg.block + seg.count) (!set))
    (h : ModifyResult test sb io set seg.block (seg.block + seg.count) r) :
    ∃ mid, Changed test sb io set seg r.1 r.2 mid := by
  have hexpected : ∀ mid, mid ≤ seg.block + seg.count →
      (∀ m, InRange sb seg.block (seg.block + seg.count) m → seg.block < mid →
        m * sb.mapsize < mid → ¬BlockFails test sb io set seg.block (seg.block + seg.count) m) →
      AllBits sb.bits seg.block mid (!set) := by
    intro mid hle hno
    cases htest : test with
    | false => exact (hfree htest).mono (Nat.le_refl _) hle
    | true =>
        exact allBits_of_not_unexpected hle fun m hm hmid hlt hbad =>
          hno m hm hmid hlt (.inr ⟨htest, hbad⟩)
  cases h with
  | done hno =>
      refine ⟨seg.block + seg.count, ?_⟩
      exact {
        le_mid := Nat.le_add_right _ _
        mid_le := Nat.le_refl _
        bits_eq := rfl
        freeblocks_eq := rfl
        blockbits_eq := rfl
        volblocks_eq := rfl
        nextblock_lt := id
        expected := hexpected _ (Nat.le_refl _) fun m hm _ _ => hno m hm
        mid_of_ok := fun _ => rfl
        mid_of_err := fun hne => absurd rfl hne
        rangeOk_of_ok := fun _ ⟨m, hm, hbad⟩ => absurd hbad (hno m hm)
        fails_of_err := fun hne => absurd rfl hne }
  | @failed m err hm hbad hfirst herr =>
      have hmod := Nat.lt_mul_div_succ seg.block sb.mapsize_pos
      refine ⟨max seg.block (m * sb.mapsize), ?_⟩
      exact {
        le_mid := Nat.le_max_left _ _
        mid_le := Nat.max_le.mpr ⟨Nat.le_add_right _ _, Nat.le_of_lt hm.2⟩
        bits_eq := rfl
        freeblocks_eq := rfl
        blockbits_eq := rfl
        volblocks_eq := rfl
        nextblock_lt := id
        expected := by
          refine hexpected _ (Nat.max_le.mpr ⟨Nat.le_add_right _ _, Nat.le_of_lt hm.2⟩) ?_
          intro m' hm' hmid hlt
          refine hfirst m' ?_ hm'
          by_contra hge
          have hmul := Nat.mul_le_mul_right sb.mapsize (Nat.le_of_not_lt hge)
          omega
        mid_of_ok := fun h0 => absurd h0 herr
        mid_of_err := by
          intro _
          rcases Nat.eq_or_lt_of_le hm.1 with heq | hlt
          · have hself := Nat.div_mul_le_self seg.block sb.mapsize
            rw [heq] at hself
            rw [Nat.max_eq_left hself]
            exact ⟨fun _ _ => heq ▸ hbad, fun _ => rfl⟩
          · have hmul := Nat.mul_le_mul_right sb.mapsize (Nat.succ_le_of_lt hlt)
            rw [Nat.mul_comm, ← Nat.succ_eq_add_one] at hmod
            constructor
            · intro heq
              omega
            · intro hok
              exact absurd (hok ⟨m, hm, hbad⟩)
                (hfirst _ hlt ⟨Nat.le_refl _, Nat.lt_of_le_of_lt
                  (Nat.le_of_lt (Nat.lt_of_lt_of_le (Nat.mul_lt_mul_of_pos_right hlt
                    sb.mapsize_pos) (Nat.le_refl _))) hm.2⟩)
        rangeOk_of_ok := fun h0 => absurd h0 herr
        fails_of_err := fun _ => ⟨m, hm, hbad⟩ }

/-- What a call comes to, that is about the given extent. -/
def CallResult (test set : Bool) (sb : BitmapSb) (io : BitmapIo) (extent : Option BlockSegment)
    (r : BitmapSb × Int × BlockSegment) : Prop :=
  match extent with
  | none => r.1 = sb ∧ r.2.1 ≠ 0
  | some seg => 0 < seg.count ∧ seg.block + seg.count ≤ sb.volblocks ∧
      (r.2.1 = 0 → r.2.2 = seg) ∧
      ∃ mid, Changed test sb io set seg r.1 r.2.1 mid

/-- `balloc_from_range` moves `nextblock` behind the extent, inside the volume. -/
theorem Changed.ballocFound {sb' : BitmapSb} {err : Int} {seg seg' : BlockSegment}
    {mid : Nat} (h : Changed test sb io set seg sb' err mid) (hvol : 0 < sb.volblocks) :
    Changed test sb io set seg (ballocFound sb' err seg' seg.block seg.count).1
      (ballocFound sb' err seg' seg.block seg.count).2.1 mid := by
  unfold Tux3.ballocFound
  by_cases herr : err = 0
  · subst herr
    simp only [ne_eq, not_true_eq_false, if_false]
    refine { h with nextblock_lt := fun _ => ?_ }
    dsimp only
    rw [h.volblocks_eq]
    split <;> omega
  · simp only [ne_eq, herr, not_false_eq_true, if_true]
    exact h

theorem ballocFound_seg {sb' : BitmapSb} {err : Int} {seg' : BlockSegment} {found blocks : Nat}
    (h : (ballocFound sb' err seg' found blocks).2.1 = 0) :
    (ballocFound sb' err seg' found blocks).2.2 = ⟨found, blocks⟩ := by
  unfold ballocFound at h ⊢
  split
  · rename_i herr
    rw [if_pos herr] at h
    exact absurd h herr
  · rfl

/-- An extent that the search found in one bitmap block is changed there. -/
theorem bitmapModifyBits_changed {mapblock found blocks : Nat} (hblocks : 0 < blocks)
    (hblock : found / sb.mapsize = mapblock)
    (hle : found + blocks ≤ mapblock * sb.mapsize + sb.mapsize)
    (hfree : AllBits sb.bits found (found + blocks) false) :
    ∃ r, bitmapModifyBits sb io mapblock (found % sb.mapsize) blocks true = .ok r ∧
      ∃ mid, Changed false sb io true ⟨found, blocks⟩ r.1 r.2 mid := by
  have hdiv := Nat.div_add_mod' found sb.mapsize
  rw [hblock] at hdiv
  have hok : RangeOk false sb io true ⟨found, blocks⟩ := by
    rintro ⟨m, hm, hbad⟩
    obtain rfl : m = mapblock := by
      refine InRange.eq_of_le (Nat.mod_lt found sb.mapsize_pos)
        (show found % sb.mapsize + blocks ≤ sb.mapsize by omega) ?_
      rwa [hdiv]
    rwa [show (⟨found, blocks⟩ : BlockSegment).block / sb.mapsize = m from hblock]
  by_cases hdirty : io.dirtyErr mapblock = 0
  · refine ⟨_, bitmapModifyBits_ok hblocks (by omega) hdirty, found + blocks, ?_⟩
    rw [hdiv]
    exact {
      le_mid := Nat.le_add_right _ _
      mid_le := Nat.le_refl _
      bits_eq := rfl
      freeblocks_eq := rfl
      blockbits_eq := rfl
      volblocks_eq := rfl
      nextblock_lt := id
      expected := hfree
      mid_of_ok := fun _ => rfl
      mid_of_err := fun hne => absurd rfl hne
      rangeOk_of_ok := fun _ => hok
      fails_of_err := fun hne => absurd rfl hne }
  · refine ⟨_, bitmapModifyBits_failed hblocks (by omega) hdirty, found, ?_⟩
    exact {
      le_mid := Nat.le_refl _
      mid_le := Nat.le_add_right _ _
      bits_eq := (fill_empty (Nat.le_refl _)).symm
      freeblocks_eq := by rw [BitmapSb.modified_self]
      blockbits_eq := rfl
      volblocks_eq := rfl
      nextblock_lt := id
      expected := .empty (Nat.le_refl _)
      mid_of_ok := fun h0 => absurd h0 hdirty
      mid_of_err := fun _ => ⟨fun _ => hok, fun _ => rfl⟩
      rangeOk_of_ok := fun _ => hok
      fails_of_err := fun _ => by
        have hin := @inRange_self sb mapblock (found % sb.mapsize) blocks
          (Nat.mod_lt _ sb.mapsize_pos) hblocks
        rw [hdiv] at hin
        exact ⟨mapblock, hin, .inl (.inr hdirty)⟩ }

/-- A free extent that the search found is changed by `bitmap_modify`. -/
theorem bitmapModify_changed {seg : BlockSegment} (hcount : 0 < seg.count)
    (hinside : seg.block + seg.count ≤ sb.volblocks)
    (hfree : AllBits sb.bits seg.block (seg.block + seg.count) false) :
    ∃ r, bitmapModify sb io seg.block seg.count true = .ok r ∧
      ∃ mid, Changed false sb io true seg r.1 r.2 mid := by
  obtain ⟨r, hr, hres⟩ := bitmapModifyRange_result false sb io true hcount hinside
  exact ⟨r, hr, hres.changed fun _ => hfree⟩

/-- `balloc_from_range`. -/
theorem ballocFromRange_result {start len blocks : Nat} (orPart : Bool) (hblocks : 0 < blocks)
    (hlen : len ≤ sb.volblocks) (hvol : 0 < sb.volblocks) :
    ∃ r, ballocFromRange sb io start len blocks orPart = .ok r ∧
      CallResult false true sb io (BallocCall.firstFitSeg sb io start len blocks orPart) r := by
  have hspec := @firstFit_spec sb.bits sb.volblocks blocks (sb.unreadable io)
    ⟨false, start, 0, ⟨0, 0⟩⟩ len
    ⟨hblocks, Nat.zero_le _, .inr rfl, .empty (Nat.le_refl _), .zero _ _ _⟩ hvol
  obtain ⟨search, hsearch, hfits⟩ := @searchRange_firstFit sb io blocks (len + 1) false start
    len blocks ⟨0, 0⟩ hblocks (Nat.le_refl _) (by omega) (Nat.lt_succ_self _) hvol (.inr rfl)
  rw [Nat.sub_self] at hfits
  unfold ballocFromRange BallocCall.firstFitSeg
  rw [tuxAssert_of hblocks, tuxAssert_of hlen, hsearch]
  generalize firstFit sb.bits sb.volblocks blocks (sb.unreadable io) len
    ⟨false, start, 0, ⟨0, 0⟩⟩ = fit at hspec hfits
  cases search with
  | readFailed seg =>
      obtain rfl : fit = .unreadable := hfits
      exact ⟨_, rfl, rfl, show -eio ≠ 0 by decide⟩
  | found found mapblock seg =>
      obtain ⟨rfl, hge, hle⟩ : fit = .found ⟨found, blocks⟩ ∧ _ := hfits
      obtain ⟨-, hfree⟩ := hspec
      have hchange : ∃ r, foundRange sb io found mapblock blocks = .ok r ∧
          ∃ mid, Changed false sb io true ⟨found, blocks⟩ r.1 r.2 mid := by
        unfold foundRange
        split
        · rename_i hblock
          exact bitmapModifyBits_changed hblocks hblock hle hfree.free
        · exact bitmapModify_changed hblocks hfree.inside hfree.free
      obtain ⟨⟨sb', err⟩, hr, mid, hmid⟩ := hchange
      refine ⟨ballocFound sb' err seg found blocks, ?_, hblocks, hfree.inside, ballocFound_seg,
        mid, hmid.ballocFound hvol⟩
      show (do
        let x ← foundRange sb io found mapblock blocks
        pure (ballocFound x.1 x.2 seg found blocks)) = _
      rw [hr]
      rfl
  | searched seg =>
      obtain rfl : fit = .missing seg := hfits
      by_cases hpart : (orPart && seg.count != 0) = true
      · have hcount : 0 < seg.count := by
          simp only [Bool.and_eq_true, bne_iff_ne, ne_eq] at hpart
          omega
        obtain ⟨⟨sb', err⟩, hr, mid, hmid⟩ := @bitmapModify_changed sb io seg hcount
          hspec.inside hspec.free
        refine ⟨ballocFound sb' err seg seg.block seg.count, ?_, ?_⟩
        · show (if (orPart && seg.count != 0) = true then _ else _) = _
          rw [if_pos hpart, hr]
          rfl
        · simp only [hpart, if_true]
          exact ⟨hcount, hspec.inside, ballocFound_seg, mid, hmid.ballocFound hvol⟩
      · refine ⟨(sb, -enospc, seg), ?_, ?_⟩
        · show (if (orPart && seg.count != 0) = true then _ else _) = _
          rw [if_neg hpart]
          rfl
        · simp only [hpart]
          exact ⟨rfl, show -enospc ≠ 0 by decide⟩

/-- `bitmap_test_and_modify`. -/
theorem bitmapTestAndModify_result {start blocks : Nat} (hblocks : 0 < blocks)
    (hle : start + blocks ≤ sb.volblocks) :
    ∃ r : BitmapSb × Int, bitmapTestAndModify sb io start blocks set = .ok r ∧
      CallResult true set sb io (some ⟨start, blocks⟩) (r.1, r.2, ⟨start, blocks⟩) := by
  obtain ⟨r, hr, hres⟩ := bitmapModifyRange_result true sb io set hblocks hle
  exact ⟨r, hr, hblocks, hle, fun _ => rfl,
    @ModifyResult.changed true set sb io ⟨start, blocks⟩ r nofun hres⟩

/-- A call that its asserts let through returns, and changes a part of its extent. -/
theorem BallocCall.exec_result {call : BallocCall} (hvalid : call.Valid sb)
    (hvol : 0 < sb.volblocks) :
    ∃ r, call.exec sb io = .ok r ∧
      CallResult call.range.isSome call.sets sb io (call.extent sb io) r := by
  cases call with
  | balloc blocks => exact ballocFromRange_result false hvalid (Nat.le_refl _) hvol
  | ballocPartial blocks => exact ballocFromRange_result true hvalid (Nat.le_refl _) hvol
  | ballocFromRange start len blocks orPart =>
      exact ballocFromRange_result orPart hvalid.1 hvalid.2 hvol
  | bfree start blocks =>
      obtain ⟨r, hr, hres⟩ := @bitmapTestAndModify_result false sb io start blocks
        hvalid.1 hvalid.2
      refine ⟨_, ?_, hres⟩
      simp only [exec, Tux3.bfree, hr]
      rfl
  | replayUpdateBitmap start blocks set =>
      obtain ⟨r, hr, hres⟩ := @bitmapTestAndModify_result set sb io start blocks
        hvalid.1 hvalid.2
      refine ⟨_, ?_, hres⟩
      simp only [exec, Tux3.replayUpdateBitmap, hr]
      rfl

theorem tuxAssert_bind_eq_ok {α : Type} {p : Prop} [Decidable p] {f : Unit → Except TuxError α}
    {a : α} (h : (tuxAssert p >>= f) = .ok a) : p ∧ f () = .ok a := by
  by_cases hp : p
  · rw [tuxAssert_of hp] at h
    exact ⟨hp, h⟩
  · rw [tuxAssert, if_neg hp] at h
    cases h

/-- A call that returns passed its asserts. -/
theorem BallocCall.valid_of_exec {call : BallocCall} {r : BitmapSb × Int × BlockSegment}
    (h : call.exec sb io = .ok r) : call.Valid sb := by
  cases call with
  | balloc blocks => exact (tuxAssert_bind_eq_ok h).1
  | ballocPartial blocks => exact (tuxAssert_bind_eq_ok h).1
  | ballocFromRange start len blocks orPart =>
      obtain ⟨hblocks, hrest⟩ := tuxAssert_bind_eq_ok h
      exact ⟨hblocks, (tuxAssert_bind_eq_ok hrest).1⟩
  | bfree start blocks | replayUpdateBitmap start blocks set =>
      obtain ⟨r', hr, -⟩ := Outcome.bind_eq_ok.mp h
      obtain ⟨hblocks, hrest⟩ := tuxAssert_bind_eq_ok hr
      exact ⟨hblocks, (tuxAssert_bind_eq_ok hrest).1⟩

end Call

/-! ## Runs -/

/-- The allocator, and which blocks belong to an extent that is in use. -/
structure AllocState where
  sb : BitmapSb
  live : Nat → Prop

/-- `freeblocks` is the number of clear bits. -/
def BitmapSb.FreeCount (sb : BitmapSb) : Prop :=
  sb.freeblocks = countClear sb.bits sb.volblocks

/-- A block in use is taken in the bitmap. -/
def AllocState.LiveTaken (s : AllocState) : Prop :=
  ∀ b, s.live b → b < s.sb.volblocks ∧ s.sb.bits b = true

/-- A call that succeeds brings its extent into use or out of it. -/
def AllocState.after (s : AllocState) (call : BallocCall) (r : BitmapSb × Int × BlockSegment) :
    AllocState where
  sb := r.1
  live := fun b =>
    if r.2.1 = 0 ∧ b ∈ r.2.2.blocks then call.sets = true else s.live b

/-- Runs of the calls that meet `ok`. -/
def ballocSystem (ok : BitmapSb → BitmapIo → BallocCall → Prop) : System AllocState where
  init s := s.sb.FreeCount ∧ s.sb.nextblock < s.sb.volblocks ∧ s.LiveTaken
  next s s' := ∃ call io r, ok s.sb io call ∧ BallocCall.exec s.sb io call = .ok r ∧
    s' = s.after call r

/-- What a call of the allocator is to do. -/
structure CallSound (s : AllocState) (io : BitmapIo) (call : BallocCall)
    (r : BitmapSb × Int × BlockSegment) : Prop where
  /-- An error leaves nothing behind. -/
  of_err : r.2.1 ≠ 0 → r.1.bits = s.sb.bits ∧ r.1.freeblocks = s.sb.freeblocks
  /-- A success sets or clears exactly the bits of the extent. -/
  of_ok : r.2.1 = 0 → r.1.bits =
    fill s.sb.bits r.2.2.block (r.2.2.block + r.2.2.count) call.sets
  /-- What an allocation returns was free, is inside the volume and not in use. -/
  fresh : call.range = none → r.2.1 = 0 → 0 < r.2.2.count ∧
    r.2.2.block + r.2.2.count ≤ s.sb.volblocks ∧
    AllBits s.sb.bits r.2.2.block (r.2.2.block + r.2.2.count) false ∧
    ∀ b ∈ r.2.2.blocks, ¬s.live b
  /-- A free or a replay is about the range it is given. -/
  range_eq : ∀ range, call.range = some range → r.2.1 = 0 → r.2.2 = range
  /-- It succeeds where all bits are in the expected state and the bitmap can be changed. -/
  served : ∀ range, call.range = some range →
    AllBits s.sb.bits range.block (range.block + range.count) (!call.sets) →
    (∀ m, InRange s.sb range.block (range.block + range.count) m → ¬IoFails io m) → r.2.1 = 0

section Runs

variable {ok : BitmapSb → BitmapIo → BallocCall → Prop} {s : AllocState} {io : BitmapIo}
  {call : BallocCall} {r : BitmapSb × Int × BlockSegment}

/-- A change keeps the free count. -/
theorem Changed.freeCount {test set : Bool} {sb sb' : BitmapSb} {seg : BlockSegment}
    {err : Int} {mid : Nat} (h : Changed test sb io set seg sb' err mid)
    (hinside : seg.block + seg.count ≤ sb.volblocks) (hcount : sb.FreeCount) :
    sb'.FreeCount := by
  unfold BitmapSb.FreeCount at hcount ⊢
  rw [h.freeblocks_eq, h.bits_eq, h.volblocks_eq]
  have hexpected := h.expected
  have hle := h.le_mid
  have hmid := h.mid_le
  unfold BitmapSb.modified
  cases set with
  | true =>
      have hfill := countClear_fill_true hexpected hle (Nat.le_trans hmid hinside)
      simp only [if_true]
      omega
  | false =>
      have hfill := countClear_fill_false hexpected hle (Nat.le_trans hmid hinside)
      simp only [Bool.false_eq_true, if_false]
      omega

/-- Every call keeps the free count. -/
theorem CallResult.freeCount {test set : Bool} {sb : BitmapSb} {extent : Option BlockSegment}
    (h : CallResult test set sb io extent r) (hcount : sb.FreeCount) : r.1.FreeCount := by
  unfold CallResult at h
  split at h
  · rwa [h.1]
  · obtain ⟨-, hinside, -, mid, hmid⟩ := h
    exact hmid.freeCount hinside hcount

/-- Every call keeps `nextblock` inside the volume. -/
theorem CallResult.nextblock_lt {test set : Bool} {sb : BitmapSb}
    {extent : Option BlockSegment} (h : CallResult test set sb io extent r)
    (hnext : sb.nextblock < sb.volblocks) : r.1.nextblock < r.1.volblocks := by
  unfold CallResult at h
  split at h
  · rwa [h.1]
  · obtain ⟨-, -, -, mid, hmid⟩ := h
    rw [hmid.volblocks_eq]
    exact hmid.nextblock_lt hnext

/-- The free count is right in every run, whatever fails. -/
theorem ballocSystem_freeCount (h : (ballocSystem ok).Reachable s) :
    s.sb.FreeCount ∧ s.sb.nextblock < s.sb.volblocks := by
  refine h.invariant (I := fun s => s.sb.FreeCount ∧ s.sb.nextblock < s.sb.volblocks) ?_ ?_
  · rintro s ⟨hcount, hnext, -⟩
    exact ⟨hcount, hnext⟩
  rintro s s' ⟨hcount, hnext⟩ ⟨call, io, r, -, hexec, rfl⟩
  obtain ⟨r', hexec', hres⟩ := @BallocCall.exec_result s.sb io call
    (BallocCall.valid_of_exec hexec) (Nat.zero_lt_of_lt hnext)
  obtain rfl : r = r' := by simpa [hexec] using hexec'
  exact ⟨hres.freeCount hcount, hres.nextblock_lt hnext⟩

/-- A call that does what it is to do keeps blocks in use taken. -/
theorem CallSound.liveTaken (h : CallSound s io call r) (hlive : s.LiveTaken)
    (hvol : r.1.volblocks = s.sb.volblocks)
    (hinside : r.2.1 = 0 → r.2.2.block + r.2.2.count ≤ s.sb.volblocks) :
    (s.after call r).LiveTaken := by
  intro b hb
  unfold AllocState.after at hb ⊢
  dsimp only at hb ⊢
  rw [hvol]
  by_cases herr : r.2.1 = 0
  · have hbits := h.of_ok herr
    by_cases hmem : b ∈ r.2.2.blocks
    · rw [if_pos ⟨herr, hmem⟩] at hb
      rw [BlockSegment.mem_blocks] at hmem
      have hin := hinside herr
      rw [hbits, fill_of_mem hmem.1 hmem.2]
      exact ⟨by omega, hb⟩
    · rw [if_neg fun h => hmem h.2] at hb
      obtain ⟨hlt, hbit⟩ := hlive b hb
      refine ⟨hlt, ?_⟩
      rw [BlockSegment.mem_blocks] at hmem
      rw [hbits]
      unfold fill
      rwa [if_neg hmem]
  · rw [if_neg fun h => herr h.1] at hb
    rw [(h.of_err herr).1]
    exact hlive b hb

theorem BallocCall.extent_of_range {sb : BitmapSb} {seg : BlockSegment}
    (h : call.range = some seg) : call.extent sb io = some seg := by
  cases call with
  | balloc blocks | ballocPartial blocks | ballocFromRange start len blocks orPart => cases h
  | bfree start blocks | replayUpdateBitmap start blocks set => exact h

theorem BallocCall.sets_of_range (h : call.range = none) : call.sets = true := by
  cases call with
  | balloc blocks | ballocPartial blocks | ballocFromRange start len blocks orPart => rfl
  | bfree start blocks | replayUpdateBitmap start blocks set => cases h

/-- A range that is in the expected state, and whose bitmap blocks can be changed, does not
fail. -/
theorem not_rangeFails {test set : Bool} {sb : BitmapSb} {seg : BlockSegment}
    (hbits : AllBits sb.bits seg.block (seg.block + seg.count) (!set))
    (hio : ∀ m, InRange sb seg.block (seg.block + seg.count) m → ¬IoFails io m) :
    ¬RangeFails test sb io set seg := by
  rintro ⟨m, hm, hbad | ⟨-, b, hge, hlt, -, hbit⟩⟩
  · exact hio m hm hbad
  · rw [hbits b hge hlt] at hbit
    cases set <;> cases hbit

/-- An extent that fails after its first bitmap block only is left with a wrong count. -/
theorem Changed.rangeOk {test set : Bool} {sb sb' : BitmapSb} {seg : BlockSegment} {err : Int}
    {mid : Nat} (h : Changed test sb io set seg sb' err mid)
    (herr : err ≠ 0 → sb'.freeblocks = sb.freeblocks) : RangeOk test sb io set seg := by
  by_cases h0 : err = 0
  · exact h.rangeOk_of_ok h0
  · rw [← h.mid_of_err h0]
    have hsame := herr h0
    have hle := h.le_mid
    rw [h.freeblocks_eq] at hsame
    unfold BitmapSb.modified at hsame
    cases set with
    | true =>
        simp only [if_true] at hsame
        omega
    | false =>
        simp only [Bool.false_eq_true, if_false] at hsame
        omega

/-- A call does what it is to do exactly where no bitmap block after the first stops it. -/
theorem callSound_iff (hnext : s.sb.nextblock < s.sb.volblocks) (hlive : s.LiveTaken)
    (hexec : call.exec s.sb io = .ok r) : CallSound s io call r ↔ call.Ok s.sb io := by
  obtain ⟨r', hexec', hres⟩ := @BallocCall.exec_result s.sb io call
    (BallocCall.valid_of_exec hexec) (Nat.zero_lt_of_lt hnext)
  obtain rfl : r = r' := by simpa [hexec] using hexec'
  unfold BallocCall.Ok
  cases hext : call.extent s.sb io with
  | none =>
      rw [hext] at hres
      obtain ⟨hsame, herr⟩ := hres
      refine ⟨fun _ => nofun, fun _ => ?_⟩
      exact {
        of_err := fun _ => by rw [hsame]; exact ⟨rfl, rfl⟩
        of_ok := fun h0 => absurd h0 herr
        fresh := fun _ h0 => absurd h0 herr
        range_eq := fun _ _ h0 => absurd h0 herr
        served := fun range hrange => by
          rw [BallocCall.extent_of_range hrange] at hext
          cases hext }
  | some seg =>
      rw [hext] at hres
      obtain ⟨hcount, hinside, hseg, mid, hmid⟩ := hres
      constructor
      · rintro hsound seg' ⟨⟩
        exact hmid.rangeOk fun herr => (hsound.of_err herr).2
      · intro hok
        have hok := hok seg rfl
        exact {
          of_err := fun herr => by
            obtain rfl := (hmid.mid_of_err herr).mpr hok
            rw [hmid.bits_eq, hmid.freeblocks_eq, BitmapSb.modified_self,
              fill_empty (Nat.le_refl _)]
            exact ⟨rfl, rfl⟩
          of_ok := fun h0 => by
            rw [hseg h0, hmid.bits_eq, hmid.mid_of_ok h0]
          fresh := fun hrange h0 => by
            have hfree := hmid.expected
            rw [hmid.mid_of_ok h0, BallocCall.sets_of_range hrange] at hfree
            rw [hseg h0]
            refine ⟨hcount, hinside, hfree, fun b hb hlb => ?_⟩
            rw [BlockSegment.mem_blocks] at hb
            have hset := (hlive b hlb).2
            rw [hfree b hb.1 hb.2] at hset
            cases hset
          range_eq := fun range hrange h0 => by
            rw [BallocCall.extent_of_range hrange] at hext
            cases hext
            exact hseg h0
          served := fun range hrange hbits hio => by
            rw [BallocCall.extent_of_range hrange] at hext
            cases hext
            by_contra herr
            exact not_rangeFails hbits hio (hmid.fails_of_err herr) }

/-- A call whose extent is inside the volume leaves the volume as large as it was. -/
theorem CallResult.inside {test set : Bool} {sb : BitmapSb} {extent : Option BlockSegment}
    (h : CallResult test set sb io extent r) :
    r.1.volblocks = sb.volblocks ∧
      (r.2.1 = 0 → r.2.2.block + r.2.2.count ≤ sb.volblocks) := by
  unfold CallResult at h
  split at h
  · rw [h.1]
    exact ⟨rfl, fun h0 => absurd h0 h.2⟩
  · obtain ⟨-, hinside, hseg, mid, hmid⟩ := h
    exact ⟨hmid.volblocks_eq, fun h0 => by rwa [hseg h0]⟩

end Runs

/-! ## A range that fails in its second bitmap block -/

/-- Buffers that can all be read and dirtied. -/
def ioOk : BitmapIo where
  searchFails _ _ := false
  readFails _ := false
  dirtyErr _ := 0
  dirtyErr_ne _ := by decide

theorem not_ioFails_ioOk (m : Nat) : ¬IoFails ioOk m := by
  rintro (hread | hdirty)
  · cases hread
  · exact hdirty rfl

/-- The last twelve blocks that the first bitmap block is about are taken. -/
def twelveBits : Nat → Bool := fill (fun _ => false) 500 512 true

/-- A volume of 1000 blocks, in blocks of 64 bytes, and the twelve blocks in use. -/
def twelveTaken : AllocState where
  sb := {
    blockbits := 6
    volblocks := 1000
    bits := twelveBits
    freeblocks := countClear twelveBits 1000
    nextblock := 490 }
  live := fun b => 500 ≤ b ∧ b < 512

theorem twelveTaken_reachable (ok : BitmapSb → BitmapIo → BallocCall → Prop) :
    (ballocSystem ok).Reachable twelveTaken := by
  refine .init ⟨rfl, by decide, ?_⟩
  rintro b ⟨hge, hlt⟩
  have hset : twelveBits b = true := fill_of_mem hge hlt
  exact ⟨Nat.lt_trans hlt (by decide), hset⟩

end Tux3
