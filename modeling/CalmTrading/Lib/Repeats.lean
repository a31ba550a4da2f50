import Mathlib.Data.List.Basic

namespace CalmTrading.Lib

variable {α β : Type*} {xs ys : List α}

/-- The second list is the first with an element perhaps repeated, any number of
times, before the next one comes. -/
inductive Repeats {α : Type*} : List α → List α → Prop
  | nil : Repeats [] []
  | next {xs ys : List α} (x : α) (h : Repeats xs ys) : Repeats (xs ++ [x]) (ys ++ [x])
  | again {xs ys : List α} {x : α} (h : Repeats (xs ++ [x]) ys) : Repeats (xs ++ [x]) (ys ++ [x])

namespace Repeats

theorem getLast? (h : Repeats xs ys) : ys.getLast? = xs.getLast? := by
  cases h with
  | nil => rfl
  | next x h => simp
  | again h => simp

theorem filter (p : α → Bool) (h : Repeats xs ys) : Repeats (xs.filter p) (ys.filter p) := by
  induction h with
  | nil => exact .nil
  | @next xs ys x _ ih =>
    rw [List.filter_append, List.filter_append, List.filter_singleton]
    cases p x with
    | true => exact .next x ih
    | false => simpa using ih
  | @again xs ys x _ ih =>
    rw [List.filter_append, List.filter_singleton] at ih
    rw [List.filter_append, List.filter_append, List.filter_singleton]
    cases hx : p x with
    | true =>
      simp only [hx] at ih ⊢
      exact .again ih
    | false => simpa [hx] using ih

end Repeats

end CalmTrading.Lib
