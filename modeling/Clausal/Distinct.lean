/-! # Lists without repetition

Finite sets as lists that hold each member once, in no order that matters. -/

namespace Clausal.Distinct

variable {α : Type} [DecidableEq α]

def union (xs ys : List α) : List α := xs.foldr List.insert ys

theorem mem_union {a : α} {xs ys : List α} : a ∈ union xs ys ↔ a ∈ xs ∨ a ∈ ys := by
  induction xs with
  | nil => simp [union]
  | cons x xs ih =>
    have h : a ∈ union (x :: xs) ys ↔ a = x ∨ a ∈ union xs ys := by simp [union]
    rw [h, ih, List.mem_cons, or_assoc]

theorem nodup_union {xs ys : List α} (h : ys.Nodup) : (union xs ys).Nodup := by
  induction xs with
  | nil => exact h
  | cons x xs ih =>
    change (List.insert x (union xs ys)).Nodup
    by_cases hx : x ∈ union xs ys
    · rw [List.insert_of_mem hx]
      exact ih
    · rw [List.insert_of_not_mem hx]
      exact List.nodup_cons.mpr ⟨hx, ih⟩

end Clausal.Distinct
