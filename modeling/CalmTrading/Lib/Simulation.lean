import CalmTrading.Lib.Machine

namespace CalmTrading.Lib.Machine

variable {S A S' A' : Type*} {M : Machine S A} {N : Machine S' A'}

/-- A forward simulation between the runs of two machines. Each step is answered
by any number of steps that keep the relation. -/
theorem Reaches.simulates {ok : S → A → Prop} {ok' : S' → A' → Prop} {R : S → S' → Prop}
    (hinit : R M.init N.init)
    (hstep : ∀ s a t u, M.Reaches ok s → N.Reaches ok' u → R s u → ok s a → M.step s a = some t →
      ∃ u', N.Reaches ok' u' ∧ R t u')
    {s : S} (hs : M.Reaches ok s) : ∃ u, N.Reaches ok' u ∧ R s u := by
  induction hs with
  | init => exact ⟨N.init, .init, hinit⟩
  | step hs hok ht ih =>
    obtain ⟨u, hu, hr⟩ := ih
    exact hstep _ _ _ u hs hu hr hok ht

end CalmTrading.Lib.Machine
