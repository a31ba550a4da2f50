import Mathlib.Data.Fintype.Card
import Mathlib.Algebra.Order.BigOperators.Group.Finset

namespace CalmTrading.Lib.Monitor

variable {T P : Type*} [DecidableEq T] {holds : P → Bool} {m : Option T} {pc : T → P}

def Owned (holds : P → Bool) (m : Option T) (pc : T → P) : Prop :=
  ∀ t, holds (pc t) = true ↔ m = some t

namespace Owned

omit [DecidableEq T] in
theorem owner (h : Owned holds m pc) {t : T} (ht : holds (pc t) = true) : m = some t := (h t).mp ht

omit [DecidableEq T] in
theorem unique (h : Owned holds m pc) {t u : T} (ht : holds (pc t) = true)
    (hu : holds (pc u) = true) : t = u :=
  Option.some.inj ((h.owner ht).symm.trans (h.owner hu))

theorem stay (h : Owned holds m pc) (t : T) {x : P} (hx : holds x = holds (pc t)) :
    Owned holds m (Function.update pc t x) := by
  intro u
  by_cases hu : u = t
  · subst hu
    rw [Function.update_self, hx]
    exact h u
  · rw [Function.update_of_ne hu]
    exact h u

theorem take (h : Owned holds none pc) (t : T) {x : P} (hx : holds x = true) :
    Owned holds (some t) (Function.update pc t x) := by
  intro u
  by_cases hu : u = t
  · subst hu
    simp [hx]
  · rw [Function.update_of_ne hu]
    have hother : holds (pc u) ≠ true := fun hheld => by cases h.owner hheld
    simp [hother, Ne.symm hu]

theorem give (h : Owned holds m pc) {t : T} (ht : holds (pc t) = true) {x : P}
    (hx : holds x = false) : Owned holds none (Function.update pc t x) := by
  intro u
  by_cases hu : u = t
  · subst hu
    simp [hx]
  · rw [Function.update_of_ne hu]
    have hother : holds (pc u) ≠ true := fun hheld => hu (h.unique hheld ht)
    simp [hother]

end Owned

section Census

variable [Fintype T]

def census (p : P → Bool) (pc : T → P) : ℕ := ∑ t, (p (pc t)).toNat

theorem census_update (p : P → Bool) (pc : T → P) (t : T) (x : P) :
    census p (Function.update pc t x) + (p (pc t)).toNat = census p pc + (p x).toNat := by
  have hsplit : ∀ f : T → P,
      census p f = (p (f t)).toNat + ∑ u ∈ Finset.univ.erase t, (p (f u)).toNat :=
    fun f => (Finset.add_sum_erase _ _ (Finset.mem_univ t)).symm
  have hrest : ∑ u ∈ Finset.univ.erase t, (p (Function.update pc t x u)).toNat =
      ∑ u ∈ Finset.univ.erase t, (p (pc u)).toNat := by
    apply Finset.sum_congr rfl
    intro u hu
    rw [Function.update_of_ne (Finset.ne_of_mem_erase hu)]
  rw [hsplit, hsplit pc, hrest, Function.update_self]
  omega

theorem census_stay (p : P → Bool) (pc : T → P) {t : T} {x : P} (hx : p x = p (pc t)) :
    census p (Function.update pc t x) = census p pc := by
  have h := census_update p pc t x
  rw [hx] at h
  omega

theorem census_enter (p : P → Bool) (pc : T → P) {t : T} {x : P} (ht : p (pc t) = false)
    (hx : p x = true) : census p (Function.update pc t x) = census p pc + 1 := by
  have h := census_update p pc t x
  simpa [ht, hx] using h

theorem census_leave (p : P → Bool) (pc : T → P) {t : T} {x : P} (ht : p (pc t) = true)
    (hx : p x = false) : census p (Function.update pc t x) + 1 = census p pc := by
  have h := census_update p pc t x
  simpa [ht, hx] using h

omit [DecidableEq T] in
theorem census_eq_zero {p : P → Bool} {pc : T → P} (h : ∀ t, p (pc t) = false) :
    census p pc = 0 := by
  simp [census, h]

end Census

end CalmTrading.Lib.Monitor
