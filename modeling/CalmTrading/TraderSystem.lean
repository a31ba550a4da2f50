import CalmTrading.AlgoSystem
import CalmTrading.DataRecorder
import CalmTrading.EventFeeds
import CalmTrading.MarketData
import CalmTrading.Trader

namespace CalmTrading.TraderSystem

open Lib Objects Utils Gateway Risk PortfolioState MarketData Algo AlgoSystem DataRecorder EventLoop
  EventDispatch EventFeeds

/-- The callbacks that the parts of a `Trader` register, by the function called. -/
inductive Cb
  | portfolioTimer | portfolioOrderData
  | riskOrder
  | updateTicks
  | algoTick | algoTimer | algoOrder
  | copyToQueue
  deriving DecidableEq

inductive Part
  | portfolio | risk | trading | algo | recorder
  deriving DecidableEq

def Cb.part : Cb → Part
  | .portfolioTimer | .portfolioOrderData => .portfolio
  | .riskOrder => .risk
  | .updateTicks => .trading
  | .algoTick | .algoTimer | .algoOrder => .algo
  | .copyToQueue => .recorder

/-- The registrations in the order in which the members of `Trader` are made. -/
def registrations : List (Registration Cb) :=
  [⟨.timer, "portfolio_timer_cb", .portfolioTimer⟩,
    ⟨.orderData, "portfolio_order_data_cb", .portfolioOrderData⟩,
    ⟨.orderData, "risk_order_cb", .riskOrder⟩,
    ⟨.tickData, "trading_engine_tick_update", .updateTicks⟩,
    ⟨.tickData, "algo_engine_tick", .algoTick⟩,
    ⟨.timer, "algo_engine_timer", .algoTimer⟩,
    ⟨.orderData, "algo_engine_order_data", .algoOrder⟩,
    ⟨.tickData, "data_recorder_copy", .copyToQueue⟩,
    ⟨.orderData, "data_recorder_copy", .copyToQueue⟩]

/-- Where the thread of `run` stands: before it starts the recorder, before it
connects, in the wait for an order id, before it starts the portfolio and the
algorithm, or in its loop. -/
inductive Phase
  | recorder | gateway | waiting | portfolio | algos | looping
  deriving DecidableEq

/-- A `Trader` with one algorithm, from the first line of `run` on. `held` is the
event that the action thread of the algorithm has popped, `event` the variable
of the portfolio's `run_actions`, and `target` that of `send_timer`. -/
structure System where
  phase : Phase := .recorder
  events : EventLoop.System Cb
  trading : TradingEngine
  mgr : MarketDataManager := {}
  algo : AlgoEngine
  held : Option Event := none
  event : Option Event := none
  recorder : Recorder := {}
  target : Option Int := none

/-- `startRecorder` carries what stands in the new event variable, and `clock`
the readings of the first call and of this one. -/
inductive Move
  | startRecorder (eType : EventType)
  | startGateway (connects : Bool)
  | connected
  | startPortfolio
  | startAlgo
  | clock (first now : Int)
  | callback (c : Callback)
  | listen (msg : PosMsg)
  | turn (m : RunMove Cb)
  | pop
  | act
  | round
  | save
  | idle

namespace System

def post (s : System) (es : List Event) : System := { s with events := sendAll s.events es }

/-- The call of a callback. -/
def call (s : System) (e : Event) : Cb → System
  | .portfolioTimer | .portfolioOrderData =>
    { s with trading := { s.trading with portfolio := s.trading.portfolio.eventEngineCb e } }
  | .riskOrder =>
    { s with trading := { s.trading with risk := s.trading.risk.eventEngineOrderCb e } }
  | .updateTicks =>
    match e with
    | .tickData data => { s with mgr := s.mgr.updateTicks data }
    | _ => s
  | .algoTick | .algoTimer | .algoOrder => { s with algo := s.algo.eventEngineCb e }
  | .copyToQueue =>
    { s with recorder := (s.recorder.step (.copyToQueue e)).getD s.recorder }

def called (s : System) : RunMove Cb → Option (Event × String × Cb)
  | .next => nextCall s.events
  | _ => none

def turned (s : System) (m : RunMove Cb) (events : EventLoop.System Cb) : System :=
  match s.called m with
  | some (e, _, cb) => { s with events := events }.call e cb
  | none => { s with events := events }

def turns : RunMove Cb → Bool
  | .registerCb _ | .threw => false
  | _ => true

/-- `AlgoEngine::start`: the subscription comes before the threads. -/
def startAlgo (s : System) : Option System :=
  let s := { s with phase := .looping, algo := { s.algo with running := true } }
  let (mgr, forward) := s.mgr.subscribe s.algo.mktDataSymbol
  let s := { s with mgr := mgr }
  if forward then
    (s.trading.api.subscribe s.algo.mktDataSymbol false).toOption.map fun out =>
      { s with trading := { s.trading with api := out.api } }.post out.events
  else some s

def clock (s : System) (first now : Int) : System :=
  let (target, timer) := Trader.sendTimer (s.target.getD (Trader.target0 first)) now
  { s with target := some target }.post (timer.toList.map .timer)

/-- A round of the portfolio's `run_actions`. -/
def round (s : System) : System :=
  match s.trading.portfolio.round s.event s.mgr.getLastTick with
  | none => s
  | some (e, p, events) =>
    { s with trading := { s.trading with portfolio := p }, event := some e }.post events

def acted (s : System) (r : Acted) : System :=
  { s with algo := r.engine, trading := r.trading, held := none }.post r.events

def step (s : System) : Move → Option System
  | .startRecorder eType =>
    if s.phase = .recorder then
      (s.recorder.step (.start eType)).map fun recorder =>
        { s with recorder := recorder, phase := .gateway }
    else none
  | .startGateway connects =>
    if s.phase = .gateway then
      some
        { s with
          trading := { s.trading with api := s.trading.api.start connects }
          phase := if connects then .waiting else .portfolio }
    else none
  | .connected =>
    if s.phase = .waiting ∧ s.trading.api.startReturns then some { s with phase := .portfolio }
    else none
  | .startPortfolio =>
    if s.phase = .portfolio then
      some
        { s with
          trading := { s.trading with portfolio := { s.trading.portfolio with running := true } }
          event := none
          phase := .algos }
    else none
  | .startAlgo => if s.phase = .algos then s.startAlgo else none
  | .clock first now => if s.phase = .looping then some (s.clock first now) else none
  | .callback c =>
    if s.trading.api.running then
      (s.trading.api.callback c).toOption.map fun out =>
        { s with trading := { s.trading with api := out.api } }.post out.events
    else none
  | .listen msg =>
    if s.algo.running then some { s with algo := s.algo.mqMessageCb msg } else none
  | .turn m => if turns m then (s.events.run m).map (s.turned m) else none
  | .pop =>
    match s.held, s.algo.q with
    | none, e :: rest =>
      if s.algo.running then some { s with algo := { s.algo with q := rest }, held := some e }
      else none
    | _, _ => none
  | .act =>
    match s.held with
    | none => none
    | some e =>
      (s.algo.handle s.trading (s.mgr.getLastTick s.algo.mktDataSymbol) e).toOption.map s.acted
  | .round => if s.trading.portfolio.running then some s.round else none
  | .save => (s.recorder.step .pop).map fun recorder => { s with recorder := recorder }
  | .idle => (s.recorder.step .timeOut).map fun recorder => { s with recorder := recorder }

section Effects

variable (s : System) (e : Event) (es : List Event) (cb : Cb)

@[simp] theorem post_phase : (s.post es).phase = s.phase := rfl

@[simp] theorem post_trading : (s.post es).trading = s.trading := rfl

@[simp] theorem post_algo : (s.post es).algo = s.algo := rfl

@[simp] theorem post_held : (s.post es).held = s.held := rfl

@[simp] theorem post_event : (s.post es).event = s.event := rfl

@[simp] theorem call_events : (s.call e cb).events = s.events := by
  cases cb <;> first | rfl | (cases e <;> rfl)

@[simp] theorem call_phase : (s.call e cb).phase = s.phase := by
  cases cb <;> first | rfl | (cases e <;> rfl)

@[simp] theorem call_held : (s.call e cb).held = s.held := by
  cases cb <;> first | rfl | (cases e <;> rfl)

@[simp] theorem call_event : (s.call e cb).event = s.event := by
  cases cb <;> first | rfl | (cases e <;> rfl)

@[simp] theorem call_api : (s.call e cb).trading.api = s.trading.api := by
  cases cb <;> first | rfl | (cases e <;> rfl)

theorem call_algo : (s.call e cb).algo =
    if cb.part = .algo then s.algo.eventEngineCb e else s.algo := by
  cases cb <;> first | rfl | (cases e <;> rfl)

theorem call_portfolio : (s.call e cb).trading.portfolio =
    if cb.part = .portfolio then s.trading.portfolio.eventEngineCb e
    else s.trading.portfolio := by
  cases cb <;> first | rfl | (cases e <;> rfl)

end Effects

end System

/-- The portfolio when the constructor of the algorithm has entered its symbol. -/
def enrolled (cfg : Config) : Portfolio :=
  (({} : Portfolio).addMarketDataMapping "algo_engine" cfg.orderSymbol
    cfg.mktDataSymbol).addToPortfolio "algo_engine" cfg.orderSymbol

def made (cfg : Config) : System where
  events := (system registrations).init
  trading := { risk := { cfg.limits with }, portfolio := enrolled cfg }
  algo := { mktDataSymbol := cfg.mktDataSymbol, orderSymbol := cfg.orderSymbol }

def trader (cfg : Config) : Machine System Move where
  init := made cfg
  step := System.step

inductive Moved (s : System) : Move → System → Prop
  | startRecorder {eType : EventType} {recorder : Recorder} (hphase : s.phase = .recorder)
      (hrecorder : s.recorder.step (.start eType) = some recorder) :
      Moved s (.startRecorder eType) { s with recorder := recorder, phase := .gateway }
  | startGateway {connects : Bool} (hphase : s.phase = .gateway) :
      Moved s (.startGateway connects)
        { s with
          trading := { s.trading with api := s.trading.api.start connects }
          phase := if connects then .waiting else .portfolio }
  | connected (hphase : s.phase = .waiting) (hid : 0 ≤ s.trading.api.mOrderId) :
      Moved s .connected { s with phase := .portfolio }
  | startPortfolio (hphase : s.phase = .portfolio) :
      Moved s .startPortfolio
        { s with
          trading := { s.trading with portfolio := { s.trading.portfolio with running := true } }
          event := none
          phase := .algos }
  | startAlgo {t : System} (hphase : s.phase = .algos) (ht : s.startAlgo = some t) :
      Moved s .startAlgo t
  | clock {first now : Int} (hphase : s.phase = .looping) :
      Moved s (.clock first now) (s.clock first now)
  | callback {c : Callback} {out : Out} (hout : s.trading.api.callback c = .ok out) :
      Moved s (.callback c)
        ({ s with trading := { s.trading with api := out.api } }.post out.events)
  | listen {msg : PosMsg} (hrun : s.algo.running = true) :
      Moved s (.listen msg) { s with algo := s.algo.mqMessageCb msg }
  | turn {m : RunMove Cb} {events : EventLoop.System Cb} (hm : System.turns m = true)
      (ht : Ran s.events m events) : Moved s (.turn m) (s.turned m events)
  | pop {e : Event} {rest : List Event} (hrun : s.algo.running = true) (hheld : s.held = none)
      (hq : s.algo.q = e :: rest) :
      Moved s .pop { s with algo := { s.algo with q := rest }, held := some e }
  | act {e : Event} {r : Acted} (hheld : s.held = some e)
      (hr : s.algo.handle s.trading (s.mgr.getLastTick s.algo.mktDataSymbol) e = .ok r) :
      Moved s .act (s.acted r)
  | round : Moved s .round s.round
  | save {recorder : Recorder} (hrecorder : s.recorder.step .pop = some recorder) :
      Moved s .save { s with recorder := recorder }
  | idle {recorder : Recorder} (hrecorder : s.recorder.step .timeOut = some recorder) :
      Moved s .idle { s with recorder := recorder }

variable {cfg : Config}

theorem step_moved {s t : System} {a : Move} (h : (trader cfg).step s a = some t) :
    Moved s a t := by
  cases a with
  | startRecorder eType =>
    simp only [trader, System.step] at h
    split at h
    · next hphase =>
      obtain ⟨recorder, hrecorder, rfl⟩ := Option.map_eq_some_iff.mp h
      exact .startRecorder hphase hrecorder
    · cases h
  | startGateway connects =>
    simp only [trader, System.step] at h
    split at h
    · next hphase => cases h; exact .startGateway hphase
    · cases h
  | connected =>
    simp only [trader, System.step] at h
    split at h
    · next hwait => cases h; exact .connected hwait.1 (of_decide_eq_true hwait.2)
    · cases h
  | startPortfolio =>
    simp only [trader, System.step] at h
    split at h
    · next hphase => cases h; exact .startPortfolio hphase
    · cases h
  | startAlgo =>
    simp only [trader, System.step] at h
    split at h
    · next hphase => exact .startAlgo hphase h
    · cases h
  | clock first now =>
    simp only [trader, System.step] at h
    split at h
    · next hphase => cases h; exact .clock hphase
    · cases h
  | callback c =>
    simp only [trader, System.step] at h
    split at h
    · obtain ⟨out, hout, rfl⟩ := toOption_map_eq_some.mp h
      exact .callback hout
    · cases h
  | listen msg =>
    simp only [trader, System.step] at h
    split at h
    · next hrun => cases h; exact .listen hrun
    · cases h
  | turn m =>
    simp only [trader, System.step] at h
    split at h
    · next hm =>
      obtain ⟨events, hevents, rfl⟩ := Option.map_eq_some_iff.mp h
      exact .turn hm (run_ran hevents)
    · cases h
  | pop =>
    simp only [trader, System.step] at h
    split at h
    · next hheld hq =>
      split at h
      · next hrun => cases h; exact .pop hrun hheld hq
      · cases h
    · cases h
  | act =>
    simp only [trader, System.step] at h
    split at h
    · cases h
    · next hheld =>
      obtain ⟨r, hr, rfl⟩ := toOption_map_eq_some.mp h
      exact .act hheld hr
  | round =>
    simp only [trader, System.step] at h
    split at h
    · cases h; exact .round
    · cases h
  | save =>
    obtain ⟨recorder, hrecorder, rfl⟩ := Option.map_eq_some_iff.mp h
    exact .save hrecorder
  | idle =>
    obtain ⟨recorder, hrecorder, rfl⟩ := Option.map_eq_some_iff.mp h
    exact .idle hrecorder

/-- A part takes events of each type under the name that it registered for it. -/
def component (part : Part) : Component registrations where
  name? eType :=
    (registrations.find? fun r => r.eType = eType ∧ r.cb.part = part).map Registration.cbName
  enrolled eType cbName hname := by
    obtain ⟨r, hr, rfl⟩ := Option.map_eq_some_iff.mp hname
    have hkey : r.eType = eType ∧ r.cb.part = part := by simpa using List.find?_some hr
    obtain ⟨rfl, _⟩ := hkey
    exact mem_registered (List.mem_of_find?_eq_some hr)
  stop := by cases part <;> rfl

theorem mem_registrations {eType : EventType} {name : String} {cb : Cb}
    (h : lastRegistered registrations eType name = some cb) :
    ⟨eType, name, cb⟩ ∈ registrations := by
  obtain ⟨r, hr, rfl⟩ := Option.map_eq_some_iff.mp h
  obtain ⟨hmem, hkey⟩ := List.mem_filter.mp (List.mem_of_getLast? hr)
  obtain ⟨rfl, rfl⟩ := of_decide_eq_true hkey
  exact hmem

theorem component_name {eType : EventType} {name : String} {cb : Cb}
    (h : lastRegistered registrations eType name = some cb) (part : Part) :
    (component part).name? eType = some name ↔ cb.part = part := by
  have hmem := mem_registrations h
  simp only [registrations, List.mem_cons, Registration.mk.injEq, List.not_mem_nil,
    or_false] at hmem
  obtain ⟨rfl, rfl, rfl⟩ | ⟨rfl, rfl, rfl⟩ | ⟨rfl, rfl, rfl⟩ | ⟨rfl, rfl, rfl⟩ | ⟨rfl, rfl, rfl⟩ |
    ⟨rfl, rfl, rfl⟩ | ⟨rfl, rfl, rfl⟩ | ⟨rfl, rfl, rfl⟩ | ⟨rfl, rfl, rfl⟩ := hmem <;>
    cases part <;> decide

end CalmTrading.TraderSystem
