import CalmTrading.DataRecorder
import CalmTrading.PortfolioState

namespace CalmTrading.PnlReports

open Lib Objects Utils DataRecorder PortfolioState

/-- A round of `run_actions`: the event it popped, if its wait found one, the
PnLs it left and the events it sent. -/
structure Round where
  popped : Option Event
  algoPnl : Table String Double
  sent : List Event

/-- The thread of `run_actions`, with its event variable. -/
inductive Loop
  | ended
  | test (event : Slot)
  | wait (event : Slot)

/-- `rounds` is history, oldest first. -/
structure Reports where
  portfolio : Portfolio := {}
  loop : Loop := .ended
  rounds : List Round := []

/-- `start` is labelled with what happens to stand in the new event variable, a
round with the last ticks. -/
inductive Move
  | start (eType : EventType)
  | stop
  | addToPortfolio (algo symbol : String)
  | addMarketDataMapping (algo orderSymbol marketSymbol : String)
  | getAlgoPnl (algo : String)
  | eventEngineCb (e : Event)
  | test
  | pop (ticks : Table String TickData)
  | timeOut (ticks : Table String TickData)

/-- The `switch` of `run_actions`. Before the first pop the variable has no data. -/
def handleSlot (p : Portfolio) (ticks : Table String TickData) :
    Slot → Except Fault (Portfolio × List Event)
  | .popped e => .ok (p.handle ticks.lookup e)
  | .indeterminate .orderData | .indeterminate .timer => .error .nullPointer
  | .indeterminate _ => .ok (p, [])

/-- A round that does not fault is one of `Portfolio.round`: before the first pop
the variable leads nowhere. -/
theorem handleSlot_round {p : Portfolio} {ticks : Table String TickData} {event : Slot}
    {r : Portfolio × List Event}
    (h : handleSlot { p with q := p.q.tail } ticks (p.q.head?.elim event .popped) = .ok r) :
    (p.round event.popped? ticks.lookup).elim (p, []) Prod.snd = r := by
  rw [Portfolio.round, Portfolio.next]
  cases hq : p.q with
  | cons e rest =>
    rw [hq] at h
    cases h
    rfl
  | nil =>
    have hidle : { p with q := [] } = p := by rw [← hq]
    rw [hq] at h
    cases event with
    | popped e =>
      cases h
      rfl
    | indeterminate eType =>
      have hr : r = ({ p with q := [] }, []) := by
        cases eType <;> simp_all [handleSlot]
      rw [hr, hidle]
      rfl

namespace Reports

/-- The end of a round: its `switch`, with the event that the wait has found. -/
def handled (s : Reports) (ticks : Table String TickData) (event : Slot) (popped : Option Event)
    (q : List Event) : Option Reports :=
  (handleSlot { s.portfolio with q := q } ticks event).toOption.map fun (p, sent) =>
    { portfolio := p, loop := .test event, rounds := s.rounds ++ [⟨popped, p.algoPnl, sent⟩] }

/-- What `try_pop` returns is not looked at. -/
def step (s : Reports) : Move → Option Reports
  | .start eType =>
    if s.portfolio.running then some s
    else
      match s.loop with
      | .ended =>
        some
          { s with
            portfolio := { s.portfolio with running := true }
            loop := .test (.indeterminate eType) }
      | _ => none
  | .stop => some { s with portfolio := { s.portfolio with running := false } }
  | .addToPortfolio algo symbol =>
    some { s with portfolio := s.portfolio.addToPortfolio algo symbol }
  | .addMarketDataMapping algo orderSymbol marketSymbol =>
    some { s with portfolio := s.portfolio.addMarketDataMapping algo orderSymbol marketSymbol }
  | .getAlgoPnl algo => some { s with portfolio := (s.portfolio.getAlgoPnl algo).2 }
  | .eventEngineCb e => some { s with portfolio := s.portfolio.eventEngineCb e }
  | .test =>
    match s.loop with
    | .test event => some { s with loop := if s.portfolio.running then .wait event else .ended }
    | _ => none
  | .pop ticks =>
    match s.loop, s.portfolio.q with
    | .wait _, e :: rest => s.handled ticks (.popped e) (some e) rest
    | _, _ => none
  | .timeOut ticks =>
    match s.loop, s.portfolio.q with
    | .wait event, [] => s.handled ticks event none []
    | _, _ => none

end Reports

def reports : Machine Reports Move where
  init := {}
  step := Reports.step

def due (timer : Timer) : Bool := timer.sec = 30 || timer.sec = 0

def isDue : Event → Bool
  | .timer timer => due timer
  | _ => false

def isTotalPnl : Event → Bool
  | .totalPnl _ => true
  | _ => false

def isAlgoPnl (algo : String) : Event → Bool
  | .algoPnl d => d.algo = algo
  | _ => false

def Round.reports (r : Round) : Bool := r.popped.any isDue

/-- As many totals were sent as timers to report at were popped, each of these
timers had one event sent for each algorithm, and a time-out sent nothing. -/
structure Once (s : Reports) : Prop where
  totals : (s.rounds.flatMap Round.sent).countP isTotalPnl = s.rounds.countP Round.reports
  algos : ∀ r ∈ s.rounds, r.reports = true → ∀ algo,
    r.sent.countP (isAlgoPnl algo) = if algo ∈ r.algoPnl then 1 else 0
  timeOuts : ∀ r ∈ s.rounds, r.popped = none → r.sent = []

/-- No wait times out right after a timer to report at. -/
def Fresh (s : Reports) : Move → Prop
  | .timeOut _ => ∀ e, s.loop = .wait (.popped e) → isDue e = false
  | _ => True

theorem countP_keys (m : Table String Double) (timestamp : Int) (algo : String) :
    (m.entries.map fun e => Event.algoPnl ⟨e.1, e.2, timestamp⟩).countP (isAlgoPnl algo) =
      if algo ∈ m then 1 else 0 := by
  have hkeys : (m.entries.map fun e => Event.algoPnl ⟨e.1, e.2, timestamp⟩).countP
      (isAlgoPnl algo) = m.keys.count algo := by
    simp only [AList.keys, List.keys, List.count, List.countP_map]
    rfl
  rw [hkeys, m.keys_nodup.count]
  exact if_congr Iff.rfl rfl rfl

section

variable (p : Portfolio) (ticks : Table String TickData)

theorem countP_handle_totalPnl (e : Event) :
    (p.handle ticks.lookup e).2.countP isTotalPnl = if isDue e then 1 else 0 := by
  cases e with
  | timer timer =>
    simp only [Portfolio.handle, Portfolio.timerCb, isDue, due, Bool.or_eq_true, decide_eq_true_eq]
    split
    · have hnone : ∀ l : List (Sigma fun _ : String => Double),
          (l.map fun e => Event.algoPnl ⟨e.1, e.2, timer.timestamp⟩).countP isTotalPnl = 0 := by
        intro l
        simp [List.countP_eq_zero, isTotalPnl]
      rw [List.countP_append, hnone]
      rfl
    · rfl
  | _ => rfl

theorem countP_handle_algoPnl {e : Event} (he : isDue e = true) (algo : String) :
    (p.handle ticks.lookup e).2.countP (isAlgoPnl algo) =
      if algo ∈ (p.handle ticks.lookup e).1.algoPnl then 1 else 0 := by
  cases e with
  | timer timer =>
    have hdue : timer.sec = 30 ∨ timer.sec = 0 := by simpa [isDue, due] using he
    simp only [Portfolio.handle, Portfolio.timerCb, if_pos hdue, List.countP_append, countP_keys]
    rfl
  | _ => cases he

theorem handle_sent {e : Event} (he : isDue e = false) : (p.handle ticks.lookup e).2 = [] := by
  cases e with
  | timer timer =>
    have hdue : ¬ (timer.sec = 30 ∨ timer.sec = 0) := by simpa [isDue, due] using he
    simp only [Portfolio.handle, Portfolio.timerCb, if_neg hdue]
  | _ => rfl

theorem handle_sent_ne_nil {e : Event} (he : isDue e = true) :
    (p.handle ticks.lookup e).2 ≠ [] := by
  intro hnil
  have hcount := countP_handle_totalPnl p ticks e
  simp [hnil, he] at hcount

end

/-- All that a move adds to the history. -/
inductive Moved (s : Reports) : Move → Reports → Prop
  | quiet {a : Move} {t : Reports} (ha : Fresh s a) (hrounds : t.rounds = s.rounds) : Moved s a t
  | pop {ticks : Table String TickData} {e : Event} {q : List Event} {t : Reports}
      (hrounds : t.rounds = s.rounds ++
        [⟨some e, ({ s.portfolio with q := q }.handle ticks.lookup e).1.algoPnl,
          ({ s.portfolio with q := q }.handle ticks.lookup e).2⟩]) : Moved s (.pop ticks) t
  | vain {ticks : Table String TickData} {eType : EventType} {t : Reports}
      {algoPnl : Table String Double} (hloop : s.loop = .wait (.indeterminate eType))
      (hrounds : t.rounds = s.rounds ++ [⟨none, algoPnl, []⟩]) : Moved s (.timeOut ticks) t
  | replay {ticks : Table String TickData} {e : Event} {q : List Event} {t : Reports}
      {algoPnl : Table String Double} (hloop : s.loop = .wait (.popped e))
      (hrounds : t.rounds = s.rounds ++
        [⟨none, algoPnl, ({ s.portfolio with q := q }.handle ticks.lookup e).2⟩]) :
      Moved s (.timeOut ticks) t

theorem step_moved {s t : Reports} {a : Move} (ht : reports.step s a = some t) : Moved s a t := by
  cases a with
  | start eType =>
    simp only [reports, Reports.step] at ht
    split at ht
    · cases ht
      exact .quiet trivial rfl
    · split at ht
      · cases ht
        exact .quiet trivial rfl
      · cases ht
  | stop | addToPortfolio | addMarketDataMapping | getAlgoPnl | eventEngineCb =>
    cases ht
    exact .quiet trivial rfl
  | test =>
    simp only [reports, Reports.step] at ht
    split at ht
    · cases ht
      exact .quiet trivial rfl
    · cases ht
  | pop ticks =>
    simp only [reports, Reports.step] at ht
    split at ht
    · obtain ⟨_, hok, rfl⟩ := toOption_map_eq_some.mp ht
      cases hok
      exact .pop rfl
    · cases ht
  | timeOut ticks =>
    simp only [reports, Reports.step] at ht
    split at ht
    · next event hloop _ =>
      obtain ⟨_, hok, rfl⟩ := toOption_map_eq_some.mp ht
      cases event with
      | indeterminate eType =>
        cases eType <;> cases hok <;> exact .vain hloop rfl
      | popped e =>
        cases hok
        exact .replay hloop rfl
    · cases ht

/-- A further round keeps the reports right exactly if it is right itself. -/
theorem Once.snoc {s t : Reports} {r : Round} (h : Once s) (hrounds : t.rounds = s.rounds ++ [r]) :
    Once t ↔ r.sent.countP isTotalPnl = (if r.reports then 1 else 0) ∧
      (r.reports = true → ∀ algo,
        r.sent.countP (isAlgoPnl algo) = if algo ∈ r.algoPnl then 1 else 0) ∧
      (r.popped = none → r.sent = []) := by
  have htotals : (t.rounds.flatMap Round.sent).countP isTotalPnl =
        t.rounds.countP Round.reports ↔
      r.sent.countP isTotalPnl = if r.reports then 1 else 0 := by
    have hs := h.totals
    simp only [hrounds, List.flatMap_append, List.countP_append, List.flatMap_singleton,
      List.countP_singleton]
    omega
  constructor
  · intro ht
    have hmem : r ∈ t.rounds := by simp [hrounds]
    exact ⟨htotals.mp ht.totals, ht.algos r hmem, ht.timeOuts r hmem⟩
  · rintro ⟨htotal, halgos, htimeOut⟩
    refine ⟨htotals.mpr htotal, fun r' hr' => ?_, fun r' hr' => ?_⟩
    · rw [hrounds, List.mem_append, List.mem_singleton] at hr'
      obtain hr' | rfl := hr'
      · exact h.algos r' hr'
      · exact halgos
    · rw [hrounds, List.mem_append, List.mem_singleton] at hr'
      obtain hr' | rfl := hr'
      · exact h.timeOuts r' hr'
      · exact htimeOut

theorem once_step {s t : Reports} {a : Move} (h : Once s) (ht : reports.step s a = some t) :
    Once t ↔ Fresh s a := by
  cases step_moved ht with
  | quiet ha hrounds =>
    refine iff_of_true ⟨?_, ?_, ?_⟩ ha
    · rw [hrounds]
      exact h.totals
    · rw [hrounds]
      exact h.algos
    · rw [hrounds]
      exact h.timeOuts
  | pop hrounds =>
    refine iff_of_true ((h.snoc hrounds).mpr ⟨?_, ?_, ?_⟩) trivial
    · exact countP_handle_totalPnl _ _ _
    · exact fun he => countP_handle_algoPnl _ _ he
    · exact fun hnone => by cases hnone
  | vain hloop hrounds =>
    refine iff_of_true ((h.snoc hrounds).mpr ⟨rfl, ?_, fun _ => rfl⟩) ?_
    · exact fun hr => by cases hr
    · intro e he
      rw [hloop] at he
      cases he
  | @replay ticks e q _ _ hloop hrounds =>
    rw [h.snoc hrounds]
    constructor
    · rintro ⟨_, _, hsent⟩ e' he'
      rw [hloop] at he'
      cases he'
      by_contra hdue
      exact handle_sent_ne_nil _ _ (by simpa using hdue) (hsent rfl)
    · intro hfresh
      have hsent := handle_sent { s.portfolio with q := q } ticks (hfresh e hloop)
      refine ⟨?_, ?_, fun _ => hsent⟩
      · rw [hsent]
        rfl
      · exact fun hr => by cases hr

/-- The PnLs are reported once at each timer to report at exactly in the runs
whose waits never time out right after one. -/
theorem reported_once_iff (as : List Move) :
    reports.StatesAll Once reports.init as ↔ reports.StepsAll Fresh reports.init as := by
  apply Machine.statesAll_iff_stepsAll (I := fun _ => True)
  · exact fun _ _ _ _ _ => trivial
  · exact fun _ _ _ _ h ht => once_step h ht
  · trivial
  · exact ⟨rfl, by simp [reports], by simp [reports]⟩

def idleSecond : List Move :=
  [.start .eventEngineStop, .eventEngineCb (.timer { sec := 0, timestamp := 60 }), .test, .pop ∅,
    .test, .timeOut ∅]

theorem total_reported_twice : ¬ ∀ s, reports.Reachable s → Once s := by
  intro hall
  have hrun : ((reports.run reports.init idleSecond).map fun s =>
      ((s.rounds.flatMap Round.sent).countP isTotalPnl, s.rounds.countP Round.reports)) =
        some (2, 1) := by
    decide +kernel
  obtain ⟨s, hs, hcount⟩ := Machine.exists_reachable_of_run hrun
  obtain ⟨htwo, hone⟩ := Prod.mk.inj hcount
  have htotals := (hall s hs).totals
  rw [htwo, hone] at htotals
  exact absurd htotals (by decide)

end CalmTrading.PnlReports
