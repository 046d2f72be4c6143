/-
  Lib/Linked.lean --- lists that are linked through a table.

  `Linked next stop head items` says that following `next` from `head` goes over `items` and
  comes to `stop`.  A write to the table keeps every list it is not on (`Linked.congr`), so that
  an operation on one list says nothing but what becomes of that list.
-/
import Mathlib.Data.List.Perm.Basic
import Mathlib.Data.List.Nodup

set_option autoImplicit false

universe u v

variable {α : Type u} {β : Type v}

/-- The items from `head` to `stop`. -/
def Linked (next : α → α) (stop : α) : α → List α → Prop
  | head, [] => head = stop
  | head, item :: items => head = item ∧ item ≠ stop ∧ Linked next stop (next item) items

namespace Linked

variable {next next' : α → α} {stop head a b : α} {items front back : List α}

/-- A list depends on its own links only. -/
theorem congr (h : Linked next stop head items) (hnext : ∀ a ∈ items, next' a = next a) :
    Linked next' stop head items := by
  induction items generalizing head with
  | nil => exact h
  | cons item items ih =>
      obtain ⟨rfl, hne, hrest⟩ := h
      refine ⟨rfl, hne, ?_⟩
      rw [hnext head List.mem_cons_self]
      exact ih hrest fun a ha => hnext a (List.mem_cons_of_mem _ ha)

/-- A list that does not start at its end has a first item. -/
theorem exists_cons (h : Linked next stop head items) (hne : head ≠ stop) :
    ∃ rest, items = head :: rest ∧ Linked next stop (next head) rest := by
  cases items with
  | nil => exact absurd h hne
  | cons item rest =>
      obtain ⟨rfl, -, hrest⟩ := h
      exact ⟨rest, rfl, hrest⟩

theorem eq_nil (h : Linked next stop stop items) : items = [] := by
  cases items with
  | nil => rfl
  | cons item rest =>
      obtain ⟨rfl, hne, -⟩ := h
      exact absurd rfl hne

/-- The start is the first item or the end. -/
theorem head_mem (h : Linked next stop head items) : head = stop ∨ head ∈ items := by
  cases items with
  | nil => exact .inl h
  | cons item rest =>
      obtain ⟨rfl, -, -⟩ := h
      exact .inr List.mem_cons_self

/-- A list is one from each of its items on. -/
theorem suffix (h : Linked next stop head (front ++ a :: back)) :
    a ≠ stop ∧ Linked next stop (next a) back := by
  induction front generalizing head with
  | nil => exact ⟨h.2.1, h.2.2⟩
  | cons item front ih => exact ih h.2.2

/-- Linking an item to the one after its successor takes the successor out. -/
theorem unlink (h : Linked next stop head (front ++ a :: b :: back))
    (hnodup : (front ++ a :: b :: back).Nodup) (ha : next' a = next b)
    (hnext : ∀ c, c ≠ a → c ≠ b → next' c = next c) :
    Linked next' stop head (front ++ a :: back) := by
  induction front generalizing head with
  | nil =>
      obtain ⟨rfl, hne, rfl, -, hrest⟩ := h
      refine ⟨rfl, hne, ?_⟩
      rw [ha]
      rw [List.nil_append, List.nodup_cons, List.nodup_cons] at hnodup
      refine hrest.congr fun c hc => hnext c ?_ ?_
      · rintro rfl
        exact hnodup.1 (List.mem_cons_of_mem _ hc)
      · rintro rfl
        exact hnodup.2.1 hc
  | cons item front ih =>
      obtain ⟨rfl, hne, hrest⟩ := h
      rw [List.cons_append, List.nodup_cons] at hnodup
      refine ⟨rfl, hne, ?_⟩
      rw [hnext head ?_ ?_]
      · exact ih hrest hnodup.2
      · rintro rfl
        exact hnodup.1 (List.mem_append_right _ List.mem_cons_self)
      · rintro rfl
        exact hnodup.1 (List.mem_append_right _ (List.mem_cons_of_mem _ List.mem_cons_self))

/-- The end becomes an item, and the list has a new end. -/
theorem snoc {stop' : α} (h : Linked next stop head items) (hmem : stop' ∉ items)
    (hne : stop ≠ stop') (hstop : next' stop = stop') (hnext : ∀ a ∈ items, next' a = next a) :
    Linked next' stop' head (items ++ [stop]) := by
  induction items generalizing head with
  | nil => exact ⟨h, hne, hstop⟩
  | cons item items ih =>
      obtain ⟨rfl, -, hrest⟩ := h
      refine ⟨rfl, fun heq => hmem (heq ▸ List.mem_cons_self), ?_⟩
      rw [hnext head List.mem_cons_self]
      exact ih hrest (fun hx => hmem (List.mem_cons_of_mem _ hx))
        fun a ha => hnext a (List.mem_cons_of_mem _ ha)

/-- The end is no item. -/
theorem stop_not_mem (h : Linked next stop head items) : stop ∉ items := by
  induction items generalizing head with
  | nil => exact List.not_mem_nil
  | cons item items ih =>
      obtain ⟨-, hne, hrest⟩ := h
      exact fun hx => (List.mem_cons.mp hx).elim hne.symm (ih hrest)

end Linked

/-! ## Lists that share their items -/

/-- Items that are put on one of several lists are put on all of them together. -/
theorem List.Perm.flatMap_of_eq {keys : List β} {f f' : β → List α} {key : β} {more : List α}
    (hnodup : keys.Nodup) (hkey : key ∈ keys) (hperm : (f' key).Perm (more ++ f key))
    (hrest : ∀ k, k ≠ key → f' k = f k) :
    (keys.flatMap f').Perm (more ++ keys.flatMap f) := by
  obtain ⟨front, back, rfl⟩ := List.append_of_mem hkey
  rw [List.nodup_append, List.nodup_cons] at hnodup
  have hfront : front.flatMap f' = front.flatMap f := by
    refine List.flatMap_congr fun k hk => hrest k ?_
    rintro rfl
    exact hnodup.2.2 k hk k List.mem_cons_self rfl
  have hback : back.flatMap f' = back.flatMap f := by
    refine List.flatMap_congr fun k hk => hrest k ?_
    rintro rfl
    exact hnodup.2.1.1 hk
  rw [List.flatMap_append, List.flatMap_append, List.flatMap_cons, List.flatMap_cons, hfront,
    hback]
  calc (front.flatMap f ++ (f' key ++ back.flatMap f)).Perm
        (front.flatMap f ++ (more ++ f key ++ back.flatMap f)) :=
          (hperm.append_right _).append_left _
    _ = front.flatMap f ++ more ++ (f key ++ back.flatMap f) := by
          simp only [List.append_assoc]
    List.Perm _ (more ++ front.flatMap f ++ (f key ++ back.flatMap f)) :=
          List.perm_append_comm.append_right _
    _ = more ++ (front.flatMap f ++ (f key ++ back.flatMap f)) := List.append_assoc _ _ _
