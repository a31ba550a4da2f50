import CalmTrading.DataRecorder
import CalmTrading.Lifecycle
import CalmTrading.MessageLoop
import CalmTrading.PnlReports

namespace CalmTrading.ThreadLifecycle

open Lib Lib.Worker Objects Utils Gateway PortfolioState DataRecorder PnlReports MessageLoop

section Recorder

/-- The recorder as a component: its steps are whole rounds, so that its thread is
always at the guard. -/
def recorderView (s : Recorder) : State where
  running := s.running
  worker := if s.running then .guard else .absent

theorem saved_running {s t : Recorder} (h : s.saved = some t) : t.running = s.running := by
  obtain ⟨insert, _, rfl⟩ := Option.map_eq_some_iff.mp h
  rfl

theorem recorder_round {s t : Recorder} (hs : s.running = true) (ht : t.running = true) :
    (lifecycle Lifecycle.dataRecorder).run (recorderView s) [.guard, .iterate] =
      some (recorderView t) := by
  simp [Machine.run, lifecycle, State.step, recorderView, hs, ht]

theorem recorderView_reachable {s : Recorder} (hs : recorder.Reachable s) :
    (lifecycle Lifecycle.dataRecorder).Reachable (recorderView s) := by
  refine Machine.Reachable.refines ?_ ?_ hs
  · exact Machine.Reaches.init
  · intro s a t _ ht
    cases a with
    | start eType =>
      simp only [recorder, Recorder.step] at ht
      split at ht <;> cases ht
      · exact ⟨[], rfl⟩
      · next hdown =>
        refine ⟨[.start, .exec true, .exec true, .exec true], ?_⟩
        simp [Machine.run, lifecycle, State.step, State.exec, recorderView, hdown,
          Lifecycle.dataRecorder]
    | stop =>
      cases ht
      cases hrunning : s.running with
      | true =>
        refine ⟨[.stop, .exec true, .exec true, .guard, .exec true], ?_⟩
        simp [Machine.run, lifecycle, State.step, State.exec, recorderView, hrunning,
          Lifecycle.dataRecorder]
      | false => exact ⟨[], by simp [Machine.run, recorderView, hrunning]⟩
    | copyToQueue e =>
      simp only [recorder, Recorder.step] at ht
      split at ht <;> cases ht
      exact ⟨[], rfl⟩
    | pop =>
      simp only [recorder, Recorder.step] at ht
      split at ht
      · next hrunning _ =>
        exact ⟨_, recorder_round hrunning ((saved_running ht).trans hrunning)⟩
      · cases ht
    | timeOut =>
      simp only [recorder, Recorder.step] at ht
      split at ht
      · next hidle => exact ⟨_, recorder_round hidle.1 ((saved_running ht).trans hidle.1)⟩
      · cases ht

end Recorder

section Reports

def loopAt : PnlReports.Loop → WorkerAt
  | .ended => .absent
  | .test _ => .guard
  | .wait _ => .body

/-- The portfolio as a component. A `stop` that has lowered the flag is in its join
until the loop has ended. -/
def reportsView (s : Reports) : State where
  running := s.portfolio.running
  worker := loopAt s.loop
  todo :=
    match s.portfolio.running, s.loop with
    | false, .test _ | false, .wait _ => [.join .worker]
    | _, _ => []

theorem reportsView_congr {s : Reports} {p : Portfolio}
    (h : p.running = s.portfolio.running) :
    reportsView { s with portfolio := p } = reportsView s := by
  simp only [reportsView, h]

theorem timerCb_running (p : Portfolio) (lastTick : String → Option TickData) (timer : Timer) :
    (p.timerCb lastTick timer).1.running = p.running := by
  have hfold : ∀ (l : List (Sigma fun _ : String => ContractData)) (p : Portfolio),
      (l.foldl (fun p e => p.timerAlgo lastTick e.1 e.2) p).running = p.running := by
    intro l
    induction l with
    | nil => exact fun _ => rfl
    | cons e l ih => exact fun p => ih _
  exact hfold p.algoPortfolio.entries _

theorem handleSlot_running {p : Portfolio} {ticks : Table String TickData} {event : Slot}
    {r : Portfolio × List Event} (h : handleSlot p ticks event = .ok r) :
    r.1.running = p.running := by
  cases event with
  | popped e =>
    cases h
    cases e with
    | timer timer => exact timerCb_running _ _ _
    | _ => rfl
  | indeterminate eType =>
    have hr : r = (p, []) := by
      cases eType <;> simp_all [handleSlot]
    rw [hr]

/-- A round ends at the test of the loop, with the flag as it was. -/
theorem reports_round {s t : Reports} {ticks : Table String TickData} {event before : Slot}
    {popped : Option Event} {q : List Event} (hloop : s.loop = .wait before)
    (h : s.handled ticks event popped q = some t) :
    (lifecycle Lifecycle.portfolio).run (reportsView s) [.iterate] = some (reportsView t) := by
  obtain ⟨r, hr, rfl⟩ := Option.map_eq_some_iff.mp h
  have hrunning := handleSlot_running (toOption_eq_some.mp hr)
  cases hup : s.portfolio.running <;>
    simp_all [Machine.run, lifecycle, State.step, reportsView, loopAt]

theorem reportsView_reachable {s : Reports} (hs : reports.Reachable s) :
    (lifecycle Lifecycle.portfolio).Reachable (reportsView s) := by
  refine Machine.Reachable.refines ?_ ?_ hs
  · exact Machine.Reaches.init
  · intro s a t _ ht
    cases a with
    | start eType =>
      simp only [reports, Reports.step] at ht
      split at ht
      · cases ht
        exact ⟨[], rfl⟩
      · next hdown =>
        split at ht <;> cases ht
        next hloop =>
        refine ⟨[.start, .exec true, .exec true, .exec true], ?_⟩
        simp [Machine.run, lifecycle, State.step, State.exec, reportsView, loopAt, hdown, hloop,
          Lifecycle.portfolio]
    | stop =>
      cases ht
      cases hrunning : s.portfolio.running with
      | false => exact ⟨[], by simp [Machine.run, reportsView, hrunning]⟩
      | true =>
        cases hloop : s.loop with
        | ended =>
          refine ⟨[.stop, .exec true, .exec true, .exec true], ?_⟩
          simp [Machine.run, lifecycle, State.step, State.exec, reportsView, loopAt, hrunning,
            hloop, Lifecycle.portfolio]
        | test _ | wait _ =>
          refine ⟨[.stop, .exec true, .exec true], ?_⟩
          simp [Machine.run, lifecycle, State.step, State.exec, reportsView, loopAt, hrunning,
            hloop, Lifecycle.portfolio]
    | test =>
      simp only [reports, Reports.step] at ht
      split at ht <;> cases ht
      next hloop =>
      cases hrunning : s.portfolio.running with
      | true =>
        refine ⟨[.guard], ?_⟩
        simp [Machine.run, lifecycle, State.step, reportsView, loopAt, hrunning, hloop]
      | false =>
        refine ⟨[.guard, .exec true], ?_⟩
        simp [Machine.run, lifecycle, State.step, State.exec, reportsView, loopAt, hrunning, hloop]
    | pop ticks =>
      simp only [reports, Reports.step] at ht
      split at ht
      · next hloop _ => exact ⟨_, reports_round hloop ht⟩
      · cases ht
    | timeOut ticks =>
      simp only [reports, Reports.step] at ht
      split at ht
      · next hloop _ => exact ⟨_, reports_round hloop ht⟩
      · cases ht
    | addToPortfolio algo symbol =>
      cases ht
      refine ⟨[], congrArg some (reportsView_congr ?_).symm⟩
      rw [Portfolio.addToPortfolio]
      split <;> rfl
    | addMarketDataMapping algo orderSymbol marketSymbol =>
      cases ht
      refine ⟨[], congrArg some (reportsView_congr ?_).symm⟩
      rw [Portfolio.addMarketDataMapping]
      split <;> rfl
    | getAlgoPnl algo =>
      cases ht
      exact ⟨[], rfl⟩
    | eventEngineCb e =>
      cases ht
      refine ⟨[], congrArg some (reportsView_congr ?_).symm⟩
      cases e <;> rfl

end Reports

section Messages

variable {what : String} {api : IBApi}

def callbackAt : MessageLoop.Loop → WorkerAt
  | .test => .guard
  | .parsing _ => .body
  | .ended | .terminated => .absent

/-- The gateway as a component, once its `start` has come to its end. -/
def threadView (s : Thread) : State where
  running := s.api.running
  worker := callbackAt s.loop
  todo :=
    match s.api.running, s.loop with
    | false, .test | false, .parsing _ => [.join .worker]
    | _, _ => []

/-- Between two places of the thread nothing else moves. -/
theorem thread_moves {s t : Thread} (w : WorkerAt) (hrunning : t.api.running = s.api.running)
    {as : List Worker.Move} (hs : callbackAt s.loop ≠ .absent) (hw : callbackAt t.loop = w)
    (ht : w ≠ .absent)
    (hrun : ∀ todo, (lifecycle Lifecycle.ibApi).run
        { running := s.api.running, worker := callbackAt s.loop, todo := todo } as =
      some { running := s.api.running, worker := w, todo := todo }) :
    (lifecycle Lifecycle.ibApi).run (threadView s) as = some (threadView t) := by
  have hthread : ∀ u : Thread, callbackAt u.loop ≠ .absent →
      (threadView u).todo = if u.api.running then [] else [.join .worker] := by
    intro u hu
    rw [threadView]
    cases u.api.running <;> cases hloop : u.loop <;> simp_all [callbackAt]
  have htodo : (threadView t).todo = (threadView s).todo := by
    rw [hthread t (hw ▸ ht), hthread s hs, hrunning]
  have hview : threadView t =
      { running := s.api.running, worker := w, todo := (threadView s).todo } := by
    rw [← htodo, ← hrunning, ← hw]
    rfl
  rw [hview]
  exact hrun _

theorem threadView_reachable {s : Thread} (hs : (messageLoop what api).Reachable s) :
    (lifecycle Lifecycle.ibApi).Reachable (threadView s) := by
  refine Machine.Reachable.refines ?_ ?_ hs
  · have hrun : (lifecycle Lifecycle.ibApi).run (lifecycle Lifecycle.ibApi).init
        [.start, .exec true, .exec true, .exec true, .exec true, .exec true] =
          some (threadView (messageLoop what api).init) := rfl
    exact Machine.reachable_of_run hrun
  · intro s a t _ ht
    cases moved ht with
    | @called _ api ha hrunning =>
      cases hup : s.api.running with
      | false =>
        have hdown := hrunning hup
        exact ⟨[], by simp [Machine.run, threadView, hup, hdown]⟩
      | true =>
        cases hafter : api.running with
        | true => exact ⟨[], by simp [Machine.run, threadView, hup, hafter]⟩
        | false =>
          -- only a `stop` lowers the flag
          cases hloop : s.loop with
          | test | parsing _ =>
            refine ⟨[.stop, .exec true, .exec true, .exec true], ?_⟩
            simp [Machine.run, lifecycle, State.step, State.exec, threadView, callbackAt, hup,
              hafter, hloop, Lifecycle.ibApi]
          | ended | terminated =>
            refine ⟨[.stop, .exec true, .exec true, .exec true, .exec true], ?_⟩
            simp [Machine.run, lifecycle, State.step, State.exec, threadView, callbackAt, hup,
              hafter, hloop, Lifecycle.ibApi]
    | received c => exact ⟨[], rfl⟩
    | ended htest hstop =>
      refine ⟨[.guard, .exec true], ?_⟩
      simp [Machine.run, lifecycle, State.step, State.exec, threadView, callbackAt, htest, hstop]
    | fetched htest hrunning =>
      have hsame : s.getMsg.api.running = s.api.running := by
        rw [Thread.getMsg]
        split <;> rfl
      obtain ⟨hloop, _⟩ | ⟨c, hloop⟩ := s.getMsg_loop
      · refine ⟨[.guard, .iterate], thread_moves .guard hsame ?_ ?_ ?_ fun todo => ?_⟩ <;>
          simp [Machine.run, lifecycle, State.step, callbackAt, htest, hloop, hrunning]
      · refine ⟨[.guard], thread_moves .body hsame ?_ ?_ ?_ fun todo => ?_⟩ <;>
          simp [Machine.run, lifecycle, State.step, callbackAt, htest, hloop, hrunning]
    | @processed c out more hloop hp hrunning =>
      have hresult : ∃ u : Thread, (if more then (s.processed c out).getMsg
          else s.processed c out) = u ∧ u.api.running = s.api.running ∧
            (u.loop = .test ∨ ∃ c, u.loop = .parsing c) := by
        refine ⟨_, rfl, ?_, ?_⟩
        · split
          · rw [Thread.getMsg]
            split <;> exact hrunning
          · exact hrunning
        · split
          · exact (s.processed c out).getMsg_loop.imp_left And.left
          · exact .inl rfl
      obtain ⟨u, hu, hsame, htest | ⟨c, hparsing⟩⟩ := hresult
      · rw [hu]
        refine ⟨[.iterate], thread_moves .guard hsame ?_ ?_ ?_ fun todo => ?_⟩ <;>
          simp [Machine.run, lifecycle, State.step, callbackAt, htest, hloop]
      · rw [hu]
        refine ⟨[], thread_moves .body hsame ?_ ?_ ?_ fun todo => ?_⟩ <;>
          simp [Machine.run, callbackAt, hparsing, hloop]

end Messages

end CalmTrading.ThreadLifecycle
