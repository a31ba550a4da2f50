import Mathlib.Data.List.TakeWhile

namespace CalmTrading.Lib.History

variable {E α : Type*}

def lastOf (f : E → Option α) (init : α) (h : List E) : α := (h.filterMap f).getLast?.getD init

@[simp] theorem lastOf_nil (f : E → Option α) (init : α) : lastOf f init [] = init := rfl

theorem lastOf_snoc (f : E → Option α) (init : α) (h : List E) (e : E) :
    lastOf f init (h ++ [e]) = (f e).getD (lastOf f init h) := by
  unfold lastOf
  cases hf : f e with
  | none => simp [hf]
  | some a => simp [hf]

def since (p : E → Bool) (h : List E) : List E := h.dropWhile fun e => !p e

theorem since_eq_nil {p : E → Bool} {h : List E} : since p h = [] ↔ ¬ ∃ e ∈ h, p e = true := by
  simp [since, List.dropWhile_eq_nil_iff]

theorem since_snoc_of_mem {p : E → Bool} {h : List E} (hp : ∃ e ∈ h, p e = true) (e : E) :
    since p (h ++ [e]) = since p h ++ [e] := by
  have hne : since p h ≠ [] := fun he => since_eq_nil.mp he hp
  rw [since, List.dropWhile_append, if_neg (by simpa [since] using hne)]
  rfl

theorem since_snoc_first {p : E → Bool} {h : List E} (hp : ¬ ∃ e ∈ h, p e = true) {e : E}
    (he : p e = true) : since p (h ++ [e]) = [e] := by
  have hnil : since p h = [] := since_eq_nil.mpr hp
  rw [since, List.dropWhile_append, if_pos (by simpa [since] using hnil)]
  simp [List.dropWhile, he]

end CalmTrading.Lib.History
