/-
  Lib/Outcome.lean --- what a computation that may fail is sure to do.

  `Ensures allowed r post` says that `r` either succeeds with a value that meets `post`
  or fails with an error that is `allowed`.  The rules follow the `do` notation: a value
  (`Ensures.pure`), a sequence (`Ensures.bind`), a consequence (`Ensures.mono`).
-/

set_option autoImplicit false

namespace Outcome

variable {ε α β : Type}

/-- The result meets `post`, unless it is one of the `allowed` errors. -/
def Ensures (allowed : ε → Prop) (r : Except ε α) (post : α → Prop) : Prop :=
  match r with
  | .ok a => post a
  | .error e => allowed e

/-- A sequence succeeds where both its steps do. -/
theorem bind_eq_ok {r : Except ε α} {f : α → Except ε β} {b : β} :
    (r >>= f) = .ok b ↔ ∃ a, r = .ok a ∧ f a = .ok b := by
  constructor
  · intro h
    cases r with
    | ok a => exact ⟨a, rfl, h⟩
    | error e => cases h
  · rintro ⟨a, rfl, hf⟩
    exact hf

/-- The first step of a sequence, when it succeeds. -/
theorem bind_of_ok {r : Except ε α} {f : α → Except ε β} {a : α} (h : r = .ok a) :
    (r >>= f) = f a := by
  rw [h]
  rfl

/-- A sequence fails where its first step does. -/
theorem bind_of_error {r : Except ε α} {f : α → Except ε β} {e : ε} (h : r = .error e) :
    (r >>= f) = .error e := by
  rw [h]
  rfl

variable {allowed : ε → Prop} {post post' : α → Prop}

theorem Ensures.pure {a : α} (h : post a) :
    Ensures allowed (Pure.pure a : Except ε α) post := h

theorem Ensures.ok {r : Except ε α} {a : α} (heq : r = .ok a) (h : post a) :
    Ensures allowed r post := by
  rw [heq]
  exact h

theorem Ensures.error {r : Except ε α} {e : ε} (heq : r = .error e) (h : allowed e) :
    Ensures allowed r post := by
  rw [heq]
  exact h

theorem Ensures.mono {r : Except ε α} (h : Ensures allowed r post)
    (himp : ∀ a, post a → post' a) : Ensures allowed r post' := by
  cases r with
  | ok a => exact himp a h
  | error e => exact h

/-- The rule of sequence. -/
theorem Ensures.bind {r : Except ε α} {f : α → Except ε β} {mid : α → Prop}
    {post : β → Prop} (h : Ensures allowed r mid)
    (hf : ∀ a, mid a → Ensures allowed (f a) post) : Ensures allowed (r >>= f) post := by
  cases r with
  | ok a => exact hf a h
  | error e => exact h

/-- A step that is known to succeed. -/
theorem Ensures.bind_ok {r : Except ε α} {f : α → Except ε β} {a : α} {post : β → Prop}
    (heq : r = .ok a) (hf : Ensures allowed (f a) post) : Ensures allowed (r >>= f) post := by
  rw [heq]
  exact hf

/-- What is sure to happen, where none of the allowed errors does. -/
theorem Ensures.exists_ok {r : Except ε α} (h : Ensures allowed r post)
    (hne : ∀ e, allowed e → r ≠ .error e) : ∃ a, r = .ok a ∧ post a := by
  cases r with
  | ok a => exact ⟨a, rfl, h⟩
  | error e => exact absurd rfl (hne e h)

/-- A success meets the postcondition. -/
theorem Ensures.of_ok {r : Except ε α} (h : Ensures allowed r post) {a : α}
    (heq : r = .ok a) : post a := by
  rw [heq] at h
  exact h

/-- The value in the postcondition is the one that was computed. -/
theorem Ensures.run {r : Except ε α} (h : Ensures allowed r post) :
    Ensures allowed r fun a => r = .ok a ∧ post a := by
  cases r with
  | ok a => exact ⟨rfl, h⟩
  | error e => exact h

end Outcome
