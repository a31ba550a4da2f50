import Mathlib.Order.Lattice

namespace CalmTrading.Lib

/-- Half-open spans that follow one another from one point to another, none of
them empty. -/
inductive Tiles {α : Type*} [LT α] : α → α → List (α × α) → Prop
  | nil (a : α) : Tiles a a []
  | cons {a b c : α} {spans : List (α × α)} (hab : a < b) (h : Tiles b c spans) :
      Tiles a c ((a, b) :: spans)

namespace Tiles

variable {α : Type*}

theorem le [Preorder α] {a c : α} {spans : List (α × α)} (h : Tiles a c spans) : a ≤ c := by
  induction h with
  | nil a => exact le_rfl
  | cons hab _ ih => exact hab.le.trans ih

theorem start_le [Preorder α] {a c : α} {spans : List (α × α)} (h : Tiles a c spans) :
    ∀ span ∈ spans, a ≤ span.1 := by
  induction h with
  | nil a => simp
  | cons hab _ ih =>
    intro span hspan
    obtain rfl | hspan := List.mem_cons.mp hspan
    · exact le_rfl
    · exact hab.le.trans (ih span hspan)

theorem eq_nil_iff [Preorder α] {a c : α} {spans : List (α × α)} (h : Tiles a c spans) :
    spans = [] ↔ c ≤ a := by
  cases h with
  | nil a => exact iff_of_true rfl le_rfl
  | cons hab h => exact iff_of_false (by simp) (hab.trans_le h.le).not_ge

/-- Every point between the ends lies in one span and no other. -/
theorem existsUnique_mem [LinearOrder α] {a c : α} {spans : List (α × α)} (h : Tiles a c spans)
    {x : α} (hax : a ≤ x) (hxc : x < c) :
    ∃! span, span ∈ spans ∧ span.1 ≤ x ∧ x < span.2 := by
  induction h with
  | nil a => exact absurd hxc hax.not_gt
  | @cons a b c spans hab h ih =>
    by_cases hxb : x < b
    · refine ⟨(a, b), ⟨List.mem_cons_self, hax, hxb⟩, ?_⟩
      rintro span ⟨hspan, hle, _⟩
      obtain rfl | hspan := List.mem_cons.mp hspan
      · rfl
      · exact absurd hxb ((h.start_le span hspan).trans hle).not_gt
    · obtain ⟨span, ⟨hspan, hle, hlt⟩, hunique⟩ := ih (not_lt.mp hxb) hxc
      refine ⟨span, ⟨List.mem_cons_of_mem _ hspan, hle, hlt⟩, ?_⟩
      rintro other ⟨hother, hole, holt⟩
      obtain rfl | hother := List.mem_cons.mp hother
      · exact absurd holt hxb
      · exact hunique other ⟨hother, hole, holt⟩

theorem lt_snd [Preorder α] {a c : α} {spans : List (α × α)} (h : Tiles a c spans) :
    ∀ span ∈ spans, a < span.2 ∧ span.2 ≤ c := by
  induction h with
  | nil a => simp
  | cons hab h ih =>
    intro span hspan
    obtain rfl | hspan := List.mem_cons.mp hspan
    · exact ⟨hab, h.le⟩
    · exact ⟨hab.trans (ih span hspan).1, (ih span hspan).2⟩

theorem pairwise_snd [Preorder α] {a c : α} {spans : List (α × α)} (h : Tiles a c spans) :
    spans.Pairwise fun s t => s.2 < t.2 := by
  induction h with
  | nil a => exact .nil
  | cons hab h ih => exact .cons (fun span hspan => (h.lt_snd span hspan).1) ih

theorem getLast_snd [Preorder α] {a c : α} {spans : List (α × α)} (h : Tiles a c spans)
    (hne : spans ≠ []) : (spans.getLast hne).2 = c := by
  induction h with
  | nil a => exact absurd rfl hne
  | @cons a b c spans hab h ih =>
    cases h with
    | nil => rfl
    | cons hbc h => exact ih (List.cons_ne_nil _ _)

end Tiles

end CalmTrading.Lib
