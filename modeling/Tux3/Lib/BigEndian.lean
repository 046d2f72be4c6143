/-
  Lib/BigEndian.lean --- fixed-width big-endian fields and the step parsers that
  read them back.

  A field of width `w` is written by `beBytes w v`, which keeps the low `8 * w`
  bits of `v`, and read by `readBe w`, which consumes exactly `w` bytes or fails.
  The one law a record format needs is `readBe_beBytes`: it is stated with an
  arbitrary suffix, so that it composes through concatenation.
-/
import Mathlib.Data.Nat.ModEq
import Mathlib.Tactic.Ring

set_option autoImplicit false

namespace BigEndian

/-- A byte string. -/
abbrev Bytes : Type := List UInt8

/-! ## Writing a field -/

/-- The `w` big-endian bytes of `v`; bits above `8 * w` are dropped. -/
def beBytes : Nat → Nat → Bytes
  | 0, _ => []
  | w + 1, v => UInt8.ofNat (v / 256 ^ w) :: beBytes w v

@[simp] theorem beBytes_zero (v : Nat) : beBytes 0 v = [] := rfl

@[simp] theorem beBytes_length (w v : Nat) : (beBytes w v).length = w := by
  induction w with
  | zero => rfl
  | succ w ih => simp only [beBytes, List.length_cons, ih]

/-! ## Reading a field -/

/-- The number whose big-endian bytes are given, above the digits read so far. -/
def ofBeAux : Nat → Bytes → Nat
  | acc, [] => acc
  | acc, b :: bs => ofBeAux (acc * 256 + b.toNat) bs

/-- The number with the given big-endian bytes. -/
def ofBe (bs : Bytes) : Nat := ofBeAux 0 bs

/-- Reading back `w` bytes shifts the digits read before them and adds the low
`8 * w` bits of the value. -/
theorem ofBeAux_beBytes (w acc v : Nat) :
    ofBeAux acc (beBytes w v) = acc * 256 ^ w + v % 256 ^ w := by
  induction w generalizing acc with
  | zero => simp [ofBeAux, Nat.mod_one]
  | succ w ih =>
      have hdigit : (UInt8.ofNat (v / 256 ^ w)).toNat = v / 256 ^ w % 256 := by
        simp [UInt8.toNat_ofNat']
      have hsplit : v % 256 ^ (w + 1) = v % 256 ^ w + 256 ^ w * (v / 256 ^ w % 256) := by
        rw [pow_succ, Nat.mod_mul]
      rw [beBytes, ofBeAux, ih, hdigit, hsplit, pow_succ]
      ring

theorem ofBe_beBytes (w v : Nat) : ofBe (beBytes w v) = v % 256 ^ w := by
  rw [ofBe, ofBeAux_beBytes, Nat.zero_mul, Nat.zero_add]

/-- Read a field of `w` bytes and return what follows it. -/
def readBe (w : Nat) (bs : Bytes) : Option (Nat × Bytes) :=
  if w ≤ bs.length then some (ofBe (bs.take w), bs.drop w) else none

/-- A field is read back whatever follows it. -/
theorem readBe_beBytes (w v : Nat) (rest : Bytes) :
    readBe w (beBytes w v ++ rest) = some (v % 256 ^ w, rest) := by
  have hle : w ≤ (beBytes w v ++ rest).length := by simp
  have htake : (beBytes w v ++ rest).take w = beBytes w v :=
    List.take_left' (beBytes_length w v)
  have hdrop : (beBytes w v ++ rest).drop w = rest :=
    List.drop_left' (beBytes_length w v)
  rw [readBe, if_pos hle, htake, hdrop, ofBe_beBytes]

/-- A value that fits its field is read back unchanged. -/
theorem readBe_beBytes_of_lt {w v : Nat} (hv : v < 256 ^ w) (rest : Bytes) :
    readBe w (beBytes w v ++ rest) = some (v, rest) := by
  rw [readBe_beBytes, Nat.mod_eq_of_lt hv]

/-! ## Readers of a fixed size -/

section Reader

variable {α β : Type} {n m : Nat}

/-- A reader takes `n` bytes, whatever they are, and does not look at what follows. -/
def ReadsExactly (n : Nat) (p : Bytes → Option (α × Bytes)) : Prop :=
  ∀ bs : Bytes, bs.length = n → ∃ a, ∀ rest, p (bs ++ rest) = some (a, rest)

theorem readsExactly_readBe (w : Nat) : ReadsExactly w (readBe w) := by
  intro bs hlen
  refine ⟨ofBe bs, fun rest => ?_⟩
  unfold readBe
  rw [if_pos (by rw [List.length_append]; omega), List.take_left' hlen, List.drop_left' hlen]

theorem readsExactly_some (a : α) : ReadsExactly 0 fun bs => some (a, bs) := by
  intro bs hlen
  obtain rfl := List.eq_nil_of_length_eq_zero hlen
  exact ⟨a, fun rest => rfl⟩

/-- Bytes that are stepped over. -/
theorem readsExactly_drop (a : α) (n : Nat) :
    ReadsExactly n fun bs => some (a, bs.drop n) := by
  intro bs hlen
  exact ⟨a, fun rest => congrArg (fun bs => some (a, bs)) (List.drop_left' hlen)⟩

/-- One reader after the other. -/
theorem ReadsExactly.bind {p : Bytes → Option (α × Bytes)} {q : α → Bytes → Option (β × Bytes)}
    (hp : ReadsExactly n p) (hq : ∀ a, ReadsExactly m (q a)) :
    ReadsExactly (n + m) (fun bs => do
      let (a, bs) ← p bs
      q a bs) := by
  intro bs hlen
  obtain ⟨a, ha⟩ := hp (bs.take n) (by rw [List.length_take]; omega)
  obtain ⟨b, hb⟩ := hq a (bs.drop n) (by rw [List.length_drop]; omega)
  refine ⟨b, fun rest => ?_⟩
  dsimp only
  rw [← List.take_append_drop n bs, List.append_assoc, ha]
  exact hb rest

end Reader

end BigEndian
