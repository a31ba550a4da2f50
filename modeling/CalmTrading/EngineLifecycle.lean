import CalmTrading.EventDispatch
import CalmTrading.Lifecycle

namespace CalmTrading.EngineLifecycle

open Lib Lib.Worker EventLoop EventDispatch Lifecycle

variable {C : Type*}

def place : Pc C → WorkerAt
  | .guard => .guard
  | .ended => .ended
  | _ => .body

def rest : Caller → List Cmd
  | .idle | .joined => []
  | .holding => eventEngine.stop
  | .joining => [.join .worker]

/-- The event engine as a component: without its mutex, its queue and its callbacks. -/
def view (s : System C) : State where
  running := s.engine.running
  worker := if s.joinable then place s.worker else .absent
  todo := rest s.caller

variable {h : List (Registration C)} {s t : System C}

theorem stop_view {m : StopMove} (ht : Stopped s m t) :
    ∃ as, (lifecycle eventEngine).run (view s) as = some (view t) := by
  cases ht with
  | lock hidle =>
    refine ⟨[.stop], ?_⟩
    simp [Machine.run, lifecycle, State.step, view, rest, hidle]
  | clear hcaller =>
    cases hjoinable : s.joinable with
    | true =>
      refine ⟨[.exec true], ?_⟩
      simp [Machine.run, lifecycle, State.step, State.exec, view, rest, hcaller, hjoinable,
        eventEngine]
    | false =>
      refine ⟨[.exec true, .exec true], ?_⟩
      simp [Machine.run, lifecycle, State.step, State.exec, view, rest, hcaller, hjoinable,
        eventEngine]
  | join hcaller hended =>
    refine ⟨[.exec true], ?_⟩
    cases hjoinable : s.joinable <;>
      simp [Machine.run, lifecycle, State.step, State.exec, view, rest, hcaller, hended, hjoinable,
        place]
  | unlock hcaller =>
    refine ⟨[], ?_⟩
    simp [Machine.run, view, rest, hcaller]

theorem run_view {m : RunMove C} (hg : Guarded h s) (ht : Ran s m t) :
    ∃ as, (lifecycle eventEngine).run (view s) as = some (view t) := by
  have hjoinable : s.worker ≠ .ended → s.joinable = true := fun hpc => by
    by_contra hnot
    exact hpc (hg.joined (.inr (by simpa using hnot)))
  cases ht with
  | guard hpc =>
    refine ⟨[.guard], ?_⟩
    have hj := hjoinable (by simp [hpc])
    cases hrunning : s.engine.running <;>
      simp [Machine.run, lifecycle, State.step, view, hpc, hj, place, hrunning]
  | timeout hpc | done hpc =>
    refine ⟨[.iterate], ?_⟩
    have hj := hjoinable (by simp [hpc])
    simp [Machine.run, lifecycle, State.step, view, hpc, hj, place]
  | clear hpc =>
    refine ⟨[.lower], ?_⟩
    have hj := hjoinable (by simp [hpc])
    simp [Machine.run, lifecycle, State.step, view, hpc, hj, place, eventEngine]
  | popStop hpc | pop hpc | call hpc | registerCb hpc | returned hpc | threw hpc | lockStop hpc
  | lockRegister hpc =>
    refine ⟨[], ?_⟩
    simp [Machine.run, view, hpc, place]
  | enrol hpc =>
    refine ⟨[], ?_⟩
    simp [Machine.run, view, hpc, place, registerCb_running]

theorem view_reachable (hs : (system h).Reachable s) :
    (lifecycle eventEngine).Reachable (view s) := by
  refine Machine.Reachable.refines ?_ ?_ hs
  · have hrun : (lifecycle eventEngine).run (lifecycle eventEngine).init
        [.start, .exec true, .exec true] = some (view (system h).init) := rfl
    exact Machine.reachable_of_run hrun
  · intro s a t hs ht
    cases step_moved ht with
    | send e => exact ⟨[], rfl⟩
    | register hfree =>
      refine ⟨[], ?_⟩
      simp [Machine.run, view, registerCb_running]
    | stop hm => exact stop_view hm
    | run hm => exact run_view (sound hs).1 hm

end CalmTrading.EngineLifecycle
