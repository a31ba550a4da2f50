import Mathlib.Algebra.BigOperators.Group.List.Basic
import Mathlib.Data.List.Induction
import Mathlib.Data.List.ReduceOption
import Mathlib.Data.List.Sublists

namespace CalmTrading.Lib.Sentinel

variable {G : Type*} [AddMonoid G] [DecidableEq G] (u : G)

/-- Adding to a sum in which one value stands for an unknown result. An unknown
summand makes the sum unknown, and an unknown sum stays so. -/
def absorb (sum : G) : Option G → G
  | none => u
  | some v => if sum = u then u else sum + v

def total (l : List (Option G)) : G := l.foldl (absorb u) 0

/-- A part of the sum comes out as the value that stands for unknown. -/
def Saturates (l : List (Option G)) : Prop := ∃ p, p <+: l ∧ p.reduceOption.sum = u

variable {u} {l : List (Option G)}

omit [DecidableEq G] in
theorem Saturates.append (h : Saturates u l) (x : Option G) : Saturates u (l ++ [x]) := by
  obtain ⟨p, hp, hsum⟩ := h
  exact ⟨p, hp.trans (List.prefix_append l [x]), hsum⟩

omit [DecidableEq G] in
theorem saturates_snoc {x : Option G} :
    Saturates u (l ++ [x]) ↔ Saturates u l ∨ (l ++ [x]).reduceOption.sum = u := by
  constructor
  · rintro ⟨p, hp, hsum⟩
    obtain rfl | hp := List.prefix_concat_iff.mp hp
    · exact .inr hsum
    · exact .inl ⟨p, hp, hsum⟩
  · rintro (h | h)
    · exact h.append x
    · exact ⟨_, List.prefix_rfl, h⟩

theorem total_snoc (x : Option G) : total u (l ++ [x]) = absorb u (total u l) x := by
  simp [total]

theorem total_eq_sum (hnone : none ∉ l) (hsat : ¬ Saturates u l) :
    total u l = l.reduceOption.sum := by
  induction l using List.reverseRecOn with
  | nil => rfl
  | append_singleton l x ih =>
    cases x with
    | none => simp at hnone
    | some v =>
      have hnone' : none ∉ l := fun h => hnone (List.mem_append_left _ h)
      have hsat' : ¬ Saturates u l := fun h => hsat (h.append _)
      have hne : l.reduceOption.sum ≠ u := fun h => hsat' ⟨l, List.prefix_rfl, h⟩
      rw [total_snoc, ih hnone' hsat', absorb, if_neg hne, List.reduceOption_append]
      simp

theorem total_eq_iff : total u l = u ↔ none ∈ l ∨ Saturates u l := by
  induction l using List.reverseRecOn with
  | nil => simp [total, Saturates]
  | append_singleton l x ih =>
    rw [total_snoc]
    cases x with
    | none => simp [absorb]
    | some v =>
      rw [absorb]
      split
      · next h =>
        refine iff_of_true rfl ?_
        obtain hnone | hsat := ih.mp h
        · exact .inl (List.mem_append_left _ hnone)
        · exact .inr (hsat.append _)
      · next h =>
        have hnone : none ∉ l := fun hmem => h (ih.mpr (.inl hmem))
        have hsat : ¬ Saturates u l := fun hs => h (ih.mpr (.inr hs))
        rw [total_eq_sum hnone hsat, saturates_snoc]
        simp [hnone, hsat, List.reduceOption_append]

/-- No sum of some of the known values is the value that stands for unknown. -/
def Distinct (u : G) (l : List (Option G)) : Prop :=
  ∀ m : List (Option G), m.Sublist l → m.reduceOption.sum ≠ u

instance (l : List (Option G)) : Decidable (Distinct u l) :=
  decidable_of_iff (∀ m ∈ l.sublists, m.reduceOption.sum ≠ u) (by simp [Distinct])

omit [DecidableEq G] in
theorem Distinct.not_saturates (h : Distinct u l) : ¬ Saturates u l := by
  rintro ⟨p, hp, hsum⟩
  exact h p hp.sublist hsum

theorem Distinct.total_eq_iff (h : Distinct u l) : total u l = u ↔ none ∈ l := by
  rw [Sentinel.total_eq_iff]
  exact or_iff_left h.not_saturates

theorem Distinct.total_eq_sum (h : Distinct u l) (hl : total u l ≠ u) :
    total u l = l.reduceOption.sum :=
  Sentinel.total_eq_sum (fun hnone => hl (h.total_eq_iff.mpr hnone)) h.not_saturates

section Perm

variable {H : Type*} [AddCommMonoid H] {u : H} {l m : List (Option H)}

theorem sum_reduceOption_perm (h : l.Perm m) : l.reduceOption.sum = m.reduceOption.sum :=
  (h.filterMap id).sum_eq

theorem Distinct.perm (hl : Distinct u l) (h : l.Perm m) : Distinct u m := by
  intro p hp
  obtain ⟨q, hqp, hq⟩ := List.exists_perm_sublist hp h.symm
  rw [← sum_reduceOption_perm hqp]
  exact hl q hq

theorem total_perm [DecidableEq H] (hl : Distinct u l) (h : l.Perm m) : total u l = total u m := by
  have hm : Distinct u m := hl.perm h
  by_cases hnone : total u l = u
  · rw [hnone, eq_comm, hm.total_eq_iff, ← h.mem_iff]
    exact hl.total_eq_iff.mp hnone
  · have hnone' : total u m ≠ u := by
      rwa [Ne, hm.total_eq_iff, ← h.mem_iff, ← hl.total_eq_iff]
    rw [hl.total_eq_sum hnone, hm.total_eq_sum hnone', sum_reduceOption_perm h]

end Perm

end CalmTrading.Lib.Sentinel
