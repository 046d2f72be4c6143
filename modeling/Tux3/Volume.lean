/-
  Volume.lean --- the allocation state that every metadata update goes through.

  The allocation bitmap and `sb->freeblocks`, the dirty state of the volume's buffers,
  the frees deferred to the end of the delta (`sb->defree`) and to the next unify
  (`sb->deunify`), and the log of the cycle.
-/
import Mathlib.Logic.Function.Basic
import Tux3.Basic
import Tux3.Log.Record

set_option autoImplicit false

namespace Tux3

/-! ## Errors -/

/-- Why an operation on the volume stops: the allocator found no block, an `assert`
failed, an access left the array it is about, or the walk was cut off. -/
inductive TuxError where
  | enospc
  | assertion
  | bounds
  | fuel
  deriving DecidableEq, Repr

/-- `assert`. -/
def tuxAssert (p : Prop) [Decidable p] : Except TuxError Unit :=
  if p then .ok () else .error .assertion

theorem tuxAssert_of {p : Prop} [Decidable p] (h : p) : tuxAssert p = .ok () := if_pos h

theorem tuxAssert_of_not {p : Prop} [Decidable p] (h : ¬ p) : tuxAssert p = .error .assertion :=
  if_neg h

theorem tuxAssert_eq_ok {p : Prop} [Decidable p] {u : Unit} : tuxAssert p = .ok u ↔ p := by
  by_cases h : p
  · simp [tuxAssert, h]
  · simp [tuxAssert, h]

/-- An access to an array, which C does not check. -/
def entryAt {α : Type} (entries : List α) (i : Nat) : Except TuxError α :=
  match entries[i]? with
  | some e => .ok e
  | none => .error .bounds

theorem entryAt_append {α : Type} (A : List α) (e : α) (C : List α) :
    entryAt (A ++ e :: C) A.length = .ok e := by
  simp [entryAt]

theorem entryAt_eq_ok {α : Type} {entries : List α} {i : Nat} {e : α} :
    entryAt entries i = .ok e ↔ entries[i]? = some e := by
  unfold entryAt
  split
  · rename_i hget
    rw [hget, Except.ok.injEq, Option.some.injEq]
  · rename_i hget
    simp [hget]

/-- The access to the entry before a `next` pointer. -/
def entryBefore {α : Type} (entries : List α) (next : Nat) : Except TuxError α :=
  match next with
  | 0 => .error .bounds
  | i + 1 => entryAt entries i

theorem entryBefore_append {α : Type} (A : List α) (e : α) (C : List α) :
    entryBefore (A ++ e :: C) (A.length + 1) = .ok e := entryAt_append A e C

/-! ## State -/

/-- The dirty state of a volume buffer: a leaf is dirty for the current delta, a bnode
for the current unify cycle. -/
inductive BufState where
  | clean
  | delta
  | unify
  deriving DecidableEq, Repr, Inhabited

/-- The allocation state of `struct sb`.  `answers` is what the searches of the allocator
will come up with, next one first; `bfreed` records what `bfree` was called on. -/
structure VolSb where
  bitmap : Nat → Bool
  freeblocks : Nat
  answers : List Nat
  bfreed : List Nat
  state : Nat → BufState
  defree : List BlockSegment
  deunify : List BlockSegment
  log : List LogRecord

/-- `balloc` of one block: the search comes up with a block that is free in the bitmap. -/
def VolSb.balloc (sb : VolSb) : Except TuxError (VolSb × Nat) :=
  match sb.answers with
  | [] => .error .enospc
  | block :: answers =>
      if sb.bitmap block then .error .enospc
      else .ok ({ sb with
        bitmap := Function.update sb.bitmap block true
        freeblocks := sb.freeblocks - 1
        answers := answers }, block)

/-- `bfree` of one block.  A block that is not allocated is a double free, which changes
nothing but is reported; the callers here do not look at the report. -/
def VolSb.bfree (sb : VolSb) (block : Nat) : VolSb :=
  { sb with
    bitmap := Function.update sb.bitmap block false
    freeblocks := if sb.bitmap block then sb.freeblocks + 1 else sb.freeblocks
    bfreed := sb.bfreed ++ [block] }

/-- `defer_bfree(&sb->defree, ..)`. -/
def VolSb.deferDefree (sb : VolSb) (seg : BlockSegment) : VolSb :=
  { sb with defree := sb.defree ++ [seg] }

/-- `defer_bfree(&sb->deunify, ..)`. -/
def VolSb.deferDeunify (sb : VolSb) (seg : BlockSegment) : VolSb :=
  { sb with deunify := sb.deunify ++ [seg] }

/-- One of the `log_*` functions. -/
def VolSb.logRecord (sb : VolSb) (r : LogRecord) : VolSb :=
  { sb with log := sb.log ++ [r] }

/-- `mark_buffer_dirty_atomic` and `mark_buffer_unify_atomic`: a buffer that is dirty
already stays as it is. -/
def VolSb.markAtomic (sb : VolSb) (st : BufState) (block : Nat) : VolSb :=
  if sb.state block = .clean then { sb with state := Function.update sb.state block st }
  else sb

/-- `mark_buffer_dirty_non` and `mark_buffer_unify_non`: the buffer must be dirty. -/
def VolSb.markNon (sb : VolSb) (block : Nat) : Except TuxError Unit :=
  tuxAssert (sb.state block ≠ .clean)

/-- `blockput_free` and `blockput_free_unify`: the buffer must be dirty, and is not any
more. -/
def VolSb.blockputFree (sb : VolSb) (block : Nat) : Except TuxError VolSb := do
  tuxAssert (sb.state block ≠ .clean)
  return { sb with state := Function.update sb.state block .clean }

/-- Only allocated blocks have dirty buffers. -/
def VolSb.FreeClean (sb : VolSb) : Prop := ∀ b, sb.bitmap b = false → sb.state b = .clean

/-! ## What the operations leave alone -/

section Frame

variable (sb : VolSb)

theorem VolSb.balloc_spec {sb' : VolSb} {block : Nat} (h : sb.balloc = .ok (sb', block)) :
    sb.bitmap block = false ∧ sb.answers = block :: sb'.answers ∧
      sb' = { sb with
        bitmap := Function.update sb.bitmap block true
        freeblocks := sb.freeblocks - 1
        answers := sb'.answers } := by
  unfold VolSb.balloc at h
  cases hanswers : sb.answers with
  | nil => simp [hanswers] at h
  | cons b answers =>
      simp only [hanswers] at h
      split at h
      · cases h
      · rename_i hfree
        cases h
        exact ⟨by simpa using hfree, rfl, rfl⟩

theorem VolSb.balloc_error {e : TuxError} (h : sb.balloc = .error e) : e = .enospc := by
  unfold VolSb.balloc at h
  split at h
  · cases h
    rfl
  · split at h
    · cases h
      rfl
    · cases h

variable (st : BufState) (block : Nat)

@[simp] theorem VolSb.markAtomic_bitmap : (sb.markAtomic st block).bitmap = sb.bitmap := by
  unfold VolSb.markAtomic
  split <;> rfl

@[simp] theorem VolSb.markAtomic_answers : (sb.markAtomic st block).answers = sb.answers := by
  unfold VolSb.markAtomic
  split <;> rfl

@[simp] theorem VolSb.markAtomic_bfreed : (sb.markAtomic st block).bfreed = sb.bfreed := by
  unfold VolSb.markAtomic
  split <;> rfl

@[simp] theorem VolSb.markAtomic_defree : (sb.markAtomic st block).defree = sb.defree := by
  unfold VolSb.markAtomic
  split <;> rfl

@[simp] theorem VolSb.markAtomic_deunify : (sb.markAtomic st block).deunify = sb.deunify := by
  unfold VolSb.markAtomic
  split <;> rfl

@[simp] theorem VolSb.markAtomic_log : (sb.markAtomic st block).log = sb.log := by
  unfold VolSb.markAtomic
  split <;> rfl

/-- A buffer is dirty once it is marked. -/
theorem VolSb.markAtomic_dirty (hst : st ≠ .clean) :
    (sb.markAtomic st block).state block ≠ .clean := by
  unfold VolSb.markAtomic
  split
  · simpa using hst
  · assumption

theorem VolSb.markAtomic_state_of_clean (h : sb.state block = .clean) :
    (sb.markAtomic st block).state block = st := by
  unfold VolSb.markAtomic
  rw [if_pos h]
  exact Function.update_self _ _ _

/-- Marking a buffer leaves the others alone. -/
theorem VolSb.markAtomic_state_of_ne {b : Nat} (h : b ≠ block) :
    (sb.markAtomic st block).state b = sb.state b := by
  unfold VolSb.markAtomic
  split
  · exact Function.update_of_ne h _ _
  · rfl

end Frame

end Tux3
