import CalmTrading.EventDispatch

namespace CalmTrading.EventShutdown

open Lib Objects EventLoop EventDispatch

variable {C : Type*}

def awaitsMutex : Pc C → Bool
  | .stopping | .registering _ _ _ => true
  | _ => false

/-- `stop` holds the mutex and waits for a thread that waits for the mutex. -/
structure Deadlocked (s : System C) : Prop where
  held : s.owner = some .caller
  joining : s.caller = .joining
  waiting : awaitsMutex s.worker = true

/-- `stop` does not lock the mutex while `run` waits for it, and while `stop`
holds it `run` pops no stop event and no callback calls `register_cb`. -/
def Apart (s : System C) : Move C → Prop
  | .stop .lock => awaitsMutex s.worker = false
  | .run (.pop _) => s.owner = some .caller → ∀ e ∈ s.engine.q.head?, e.eType ≠ .eventEngineStop
  | .run (.registerCb _) => s.owner ≠ some .caller
  | _ => True

def Clear (s : System C) : Prop := s.owner = some .caller → awaitsMutex s.worker = false

variable {h : List (Registration C)} {s t : System C}

theorem clear_step {a : Move C} (hc : Clear s) (hapart : Apart s a) (ht : Moved s a t) : Clear t := by
  cases ht with
  | send e => exact hc
  | register => exact hc
  | stop ht =>
    cases ht with
    | lock => exact fun _ => hapart
    | clear => exact hc
    | join => exact hc
    | unlock => exact fun howner => by cases howner
  | run ht =>
    intro howner
    cases ht with
    | guard => split <;> rfl
    | @popStop order e rest _ hq he => exact absurd he (hapart howner e (by simp [hq]))
    | registerCb => exact absurd howner hapart
    | lockStop => cases howner
    | lockRegister => cases howner
    | _ => rfl

theorem together {a : Move C} (hapart : ¬ Apart s a) (ht : Moved s a t) :
    t.owner = some .caller ∧ awaitsMutex t.worker = true := by
  cases ht with
  | send e => exact absurd trivial hapart
  | register => exact absurd trivial hapart
  | stop ht =>
    cases ht with
    | lock => exact ⟨rfl, by simpa [Apart] using hapart⟩
    | _ => exact absurd trivial hapart
  | run ht =>
    cases ht with
    | popStop hpc hq he =>
      simp only [Apart, hq, Classical.not_imp] at hapart
      exact ⟨hapart.1, rfl⟩
    | pop hpc hq he =>
      refine absurd (fun _ e hmem => ?_) hapart
      rw [hq] at hmem
      cases hmem
      exact he
    | registerCb => exact ⟨Classical.not_not.mp hapart, rfl⟩
    | _ => exact absurd trivial hapart

theorem Deadlocked.step {a : Move C} (hd : Deadlocked s) (ht : Moved s a t) : Deadlocked t := by
  obtain ⟨hheld, hjoining, hwaiting⟩ := hd
  have hended : s.worker ≠ .ended := by
    intro hpc
    simp [hpc, awaitsMutex] at hwaiting
  cases ht with
  | send e => exact ⟨hheld, hjoining, hwaiting⟩
  | register hfree => simp [hheld] at hfree
  | stop ht =>
    cases ht with
    | lock hidle => simp [hjoining] at hidle
    | clear hcaller => simp [hjoining] at hcaller
    | join _ hpc => exact absurd hpc hended
    | unlock hcaller => simp [hjoining] at hcaller
  | run ht =>
    cases ht with
    | lockStop _ hfree => simp [hheld] at hfree
    | lockRegister _ hfree => simp [hheld] at hfree
    | guard hpc | timeout hpc | popStop hpc | pop hpc | done hpc | call hpc | registerCb hpc
    | returned hpc | threw hpc | clear hpc | enrol hpc => simp [hpc, awaitsMutex] at hwaiting

theorem Deadlocked.forever (hd : Deadlocked s) {as : List (Move C)}
    (ht : (system h).run s as = some t) : Deadlocked t :=
  Machine.run_invariant (fun _ _ _ hd ht => hd.step (step_moved ht)) hd ht

/-- `stop` goes on to its join and stays there. -/
theorem deadlock_ahead (hg : Guarded h s) (howner : s.owner = some .caller)
    (hwaiting : awaitsMutex s.worker = true) :
    ∃ (ms : List StopMove) (u : System C),
      (system h).run s (ms.map Move.stop) = some u ∧ Deadlocked u := by
  have hended : s.worker ≠ .ended := by
    intro hpc
    simp [hpc, awaitsMutex] at hwaiting
  cases hcaller : s.caller with
  | idle => exact absurd hcaller (hg.caller.mp howner)
  | joining => exact ⟨[], s, rfl, howner, hcaller, hwaiting⟩
  | joined => exact absurd (hg.joined (.inl hcaller)) hended
  | holding =>
    have hjoinable : s.joinable = true := by
      by_contra hnot
      exact hended (hg.joined (.inr (by simpa using hnot)))
    let u : System C :=
      { s with engine := { s.engine with running := false }, caller := .joining }
    refine ⟨[.clear], u, ?_, ⟨howner, rfl, hwaiting⟩⟩
    simp [Machine.run, system, System.step, System.stop, hcaller, hjoinable, u]

/-- No deadlock as long as the two stay apart; a move that brings them together
leads to one by the remaining steps of `stop` alone, and there is no way out. -/
theorem shutdown_deadlock_iff (h : List (Registration C)) :
    (∀ s, (system h).Reaches Apart s → ¬ Deadlocked s) ∧
      ∀ s a t, (system h).Reachable s → (system h).step s a = some t → ¬ Apart s a →
        ∃ (ms : List StopMove) (u : System C), (system h).run t (ms.map Move.stop) = some u ∧
          ∀ as v, (system h).run u as = some v → Deadlocked v := by
  constructor
  · intro s hs hd
    have hclear : Clear s := hs.invariant (fun howner => by cases howner)
      fun _ _ _ _ hc hapart ht => clear_step hc hapart (step_moved ht)
    have hfree := hclear hd.held
    rw [hd.waiting] at hfree
    cases hfree
  · intro s a t hs ht hapart
    obtain ⟨howner, hwaiting⟩ := together hapart (step_moved ht)
    obtain ⟨ms, u, hu, hd⟩ := deadlock_ahead (sound (hs.step ht)).1 howner hwaiting
    exact ⟨ms, u, hu, fun as v hv => hd.forever hv⟩

/-- `stop` locks the mutex between the pop of a stop event and the lock of `run`. -/
def stoppedTwice : List (Move Unit) :=
  [.send .eventEngineStop, .run .guard, .run (.pop []), .stop .lock, .stop .clear]

theorem shutdown_deadlocks : ¬ ∀ s, (system ([] : List (Registration Unit))).Reachable s →
    ¬ Deadlocked s := by
  intro hall
  have hrun : (((system ([] : List (Registration Unit))).run (system []).init stoppedTwice).map
      fun s => (s.owner, s.caller, awaitsMutex s.worker)) =
      some (some .caller, .joining, true) := by
    decide +kernel
  obtain ⟨s, hs, hend⟩ := Machine.exists_reachable_of_run hrun
  simp only [Prod.mk.injEq] at hend
  obtain ⟨hheld, hjoining, hwaiting⟩ := hend
  exact hall s hs ⟨hheld, hjoining, hwaiting⟩

end CalmTrading.EventShutdown
