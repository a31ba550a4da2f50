import Mathlib.Tactic.Tauto
import CalmTrading.Algo
import CalmTrading.Lib.Machine

namespace CalmTrading.AlgoSystem

open Lib Objects Utils Gateway OrderRecords Risk Algo

structure Config where
  limits : Limits := {}
  mktDataSymbol : String
  orderSymbol : String

def sony : Config where
  mktDataSymbol := "6758-STK-JPY.TSEJ"
  orderSymbol := "6758-STK-JPY.TSEJ"

/-- What has happened so far. `booked` holds the last event handled for each
order the engine knows, `recent` the last of them since an order was sent, and
`ended` the orders with an event that ended them since they were sent. -/
structure History where
  received : List PosUpdate := []
  applied : List PosUpdate := []
  booked : Table OrderId OrderData := ∅
  recent : Option OrderData := none
  ended : List OrderId := []

/-- One more event, with the engine before and after it was handled. -/
def History.note (h : History) (before after : AlgoEngine) : Event → History
  | .algoPosUpdate pos =>
    if 0 < before.inflightOrderId then h
    else if 0 < after.inflightOrderId then
      { h with
        applied := h.applied ++ [pos]
        recent := none
        ended := h.ended.filter (· != after.inflightOrderId) }
    else { h with applied := h.applied ++ [pos] }
  | .orderData d =>
    if d.orderId ∈ before.orderStatus then
      { h with
        booked := h.booked.insert d.orderId d
        recent := some d
        ended := if endsOrder d then d.orderId :: h.ended else h.ended }
    else h
  | _ => h

/-- The engine with the threads around it; `held` is the event that the action
thread has popped and not handled yet. -/
structure System where
  engine : AlgoEngine
  trading : TradingEngine
  eventQueue : List Event := []
  held : Option Event := none
  history : History := {}

inductive Move
  | start
  | listen (msg : PosMsg)
  | callback (c : Callback)
  | otherSend (req : OrderReq)
  | reprice (algoPnl : Table String Double) (totalPnl : Double)
  | post (e : Event)
  | dispatch
  | pop
  | act (lastTick : Option TickData)

namespace System

def listen (s : System) (msg : PosMsg) : System :=
  { s with
    engine := s.engine.mqMessageCb msg
    history :=
      { s.history with
        received := s.history.received ++
          [{ symbol := msg.symbol, pos := msg.pos, timestamp := msg.timestamp }] } }

def acted (s : System) (e : Event) (r : Acted) : System where
  engine := r.engine
  trading := r.trading
  eventQueue := s.eventQueue ++ r.events
  held := none
  history := s.history.note s.engine r.engine e

def step (s : System) : Move → Option System
  | .start => some { s with engine := { s.engine with running := true } }
  | .listen msg => if s.engine.running then some (s.listen msg) else none
  | .callback c =>
    (s.trading.api.callback c).toOption.map fun out =>
      { s with
        trading := { s.trading with api := out.api }
        eventQueue := s.eventQueue ++ out.events }
  | .otherSend req =>
    (s.trading.sendOrder req).toOption.map fun (_, trading, events, _) =>
      { s with trading := trading, eventQueue := s.eventQueue ++ events }
  | .reprice algoPnl totalPnl => some { s with trading := s.trading.reprice algoPnl totalPnl }
  | .post e =>
    if e.orderData? = none then some { s with eventQueue := s.eventQueue ++ [e] } else none
  | .dispatch =>
    match s.eventQueue with
    | [] => none
    | e :: rest =>
      some
        { s with
          eventQueue := rest
          engine := s.engine.eventEngineCb e
          trading := { s.trading with risk := s.trading.risk.eventEngineOrderCb e } }
  | .pop =>
    match s.held, s.engine.q with
    | none, e :: rest =>
      if s.engine.running then
        some { s with engine := { s.engine with q := rest }, held := some e }
      else none
    | _, _ => none
  | .act lastTick =>
    match s.held with
    | none => none
    | some e => (s.engine.handle s.trading lastTick e).toOption.map (s.acted e)

def pipe (s : System) : List OrderData :=
  orderEvents (s.held.toList ++ s.engine.q ++ s.eventQueue)

def handles (s : System) : Move → Option OrderData
  | .act _ => (s.held.bind Event.orderData?).filter fun d => d.orderId ∈ s.engine.orderStatus
  | _ => none

end System

def algo (cfg : Config) : Machine System Move where
  init :=
    { engine := { mktDataSymbol := cfg.mktDataSymbol, orderSymbol := cfg.orderSymbol }
      trading := { risk := { cfg.limits with } } }
  step := System.step

inductive Moved (s : System) : Move → System → Prop
  | start : Moved s .start { s with engine := { s.engine with running := true } }
  | listen {msg : PosMsg} (hrun : s.engine.running = true) : Moved s (.listen msg) (s.listen msg)
  | callback {c : Callback} {out : Out} (hout : s.trading.api.callback c = .ok out) :
      Moved s (.callback c)
        { s with
          trading := { s.trading with api := out.api }
          eventQueue := s.eventQueue ++ out.events }
  | otherSend {req : OrderReq} {id : OrderId} {trading : TradingEngine} {events : List Event}
      {client : List ClientMsg} (hsend : s.trading.sendOrder req = .ok (id, trading, events, client)) :
      Moved s (.otherSend req) { s with trading := trading, eventQueue := s.eventQueue ++ events }
  | reprice (algoPnl : Table String Double) (totalPnl : Double) :
      Moved s (.reprice algoPnl totalPnl) { s with trading := s.trading.reprice algoPnl totalPnl }
  | post {e : Event} (he : e.orderData? = none) :
      Moved s (.post e) { s with eventQueue := s.eventQueue ++ [e] }
  | dispatch {e : Event} {rest : List Event} (hq : s.eventQueue = e :: rest) :
      Moved s .dispatch
        { s with
          eventQueue := rest
          engine := s.engine.eventEngineCb e
          trading := { s.trading with risk := s.trading.risk.eventEngineOrderCb e } }
  | pop {e : Event} {rest : List Event} (hrun : s.engine.running = true) (hheld : s.held = none)
      (hq : s.engine.q = e :: rest) :
      Moved s .pop { s with engine := { s.engine with q := rest }, held := some e }
  | act {lastTick : Option TickData} {e : Event} {r : Acted} (hheld : s.held = some e)
      (hr : s.engine.handle s.trading lastTick e = .ok r) :
      Moved s (.act lastTick) (s.acted e r)

/-- A move of the other threads, which reaches the engine through its queue. -/
structure Around (s t : System) : Prop where
  engine : ∃ running q, t.engine = { s.engine with running := running, q := q }
  history : ∃ received, t.history = { s.history with received := received }

theorem eventEngineCb_cases (a : AlgoEngine) (e : Event) :
    a.eventEngineCb e = a ∨
      (a.eventEngineCb e = a.push e ∧ ∀ pos, e ≠ .algoPosUpdate pos) := by
  cases e with
  | tickData data =>
    simp only [AlgoEngine.eventEngineCb, AlgoEngine.eventEngineTickCb]
    split
    · exact .inl rfl
    · split
      · exact .inr ⟨rfl, by simp⟩
      · exact .inl rfl
  | timer timer =>
    simp only [AlgoEngine.eventEngineCb, AlgoEngine.eventEngineTimerCb]
    split
    · exact .inl rfl
    · split
      · exact .inr ⟨rfl, by simp⟩
      · exact .inl rfl
  | orderData d =>
    simp only [AlgoEngine.eventEngineCb, AlgoEngine.eventEngineOrderCb]
    split
    · exact .inl rfl
    · exact .inr ⟨rfl, by simp⟩
  | _ => exact .inl rfl

theorem mem_handles {s : System} {lastTick : Option TickData} {d : OrderData} :
    d ∈ s.handles (.act lastTick) ↔
      s.held = some (.orderData d) ∧ d.orderId ∈ s.engine.orderStatus := by
  have hdata : ∀ e : Event, e.orderData? = some d ↔ e = .orderData d := by
    intro e
    cases e <;> simp [Event.orderData?]
  cases hh : s.held <;> simp [System.handles, hh, Option.filter_eq_some_iff, hdata]

variable {cfg : Config}

theorem step_moved {s t : System} {a : Move} (h : (algo cfg).step s a = some t) : Moved s a t := by
  cases a with
  | start =>
    cases h
    exact .start
  | listen msg =>
    simp only [algo, System.step] at h
    split at h
    · next hrun =>
      cases h
      exact .listen hrun
    · cases h
  | callback c =>
    obtain ⟨out, hout, rfl⟩ := toOption_map_eq_some.mp h
    exact .callback hout
  | otherSend req =>
    obtain ⟨⟨id, trading, events, client⟩, hsend, rfl⟩ := toOption_map_eq_some.mp h
    exact .otherSend hsend
  | reprice algoPnl totalPnl =>
    cases h
    exact .reprice algoPnl totalPnl
  | post e =>
    simp only [algo, System.step] at h
    split at h
    · next he =>
      cases h
      exact .post he
    · cases h
  | dispatch =>
    simp only [algo, System.step] at h
    split at h
    · cases h
    · next hq =>
      cases h
      exact .dispatch hq
  | pop =>
    simp only [algo, System.step] at h
    split at h
    · next hheld hq =>
      split at h
      · next hrun =>
        cases h
        exact .pop hrun hheld hq
      · cases h
    · cases h
  | act lastTick =>
    simp only [algo, System.step] at h
    split at h
    · cases h
    · next hheld =>
      obtain ⟨r, hr, rfl⟩ := toOption_map_eq_some.mp h
      exact .act hheld hr

/-- A move handles an event, or it is one of the other threads and handles none. -/
theorem acted_or_around {s t : System} {a : Move} (h : (algo cfg).step s a = some t) :
    (∃ lastTick e r, a = .act lastTick ∧ s.held = some e ∧
      s.engine.handle s.trading lastTick e = .ok r ∧ t = s.acted e r) ∨
    (s.handles a = none ∧ Around s t) := by
  cases step_moved h with
  | start => exact .inr ⟨rfl, ⟨_, _, rfl⟩, ⟨_, rfl⟩⟩
  | listen _ => exact .inr ⟨rfl, ⟨_, _, rfl⟩, ⟨_, rfl⟩⟩
  | callback _ => exact .inr ⟨rfl, ⟨_, _, rfl⟩, ⟨_, rfl⟩⟩
  | otherSend _ => exact .inr ⟨rfl, ⟨_, _, rfl⟩, ⟨_, rfl⟩⟩
  | reprice _ _ => exact .inr ⟨rfl, ⟨_, _, rfl⟩, ⟨_, rfl⟩⟩
  | post _ => exact .inr ⟨rfl, ⟨_, _, rfl⟩, ⟨_, rfl⟩⟩
  | @dispatch e rest _ =>
    obtain hcb | ⟨hcb, _⟩ := eventEngineCb_cases s.engine e
    · exact .inr ⟨rfl, ⟨_, _, hcb⟩, ⟨_, rfl⟩⟩
    · exact .inr ⟨rfl, ⟨_, _, hcb⟩, ⟨_, rfl⟩⟩
  | pop _ _ _ => exact .inr ⟨rfl, ⟨_, _, rfl⟩, ⟨_, rfl⟩⟩
  | act hheld hr => exact .inl ⟨_, _, _, rfl, hheld, hr, rfl⟩

/-- Every order event on its way or booked is about an order on record. -/
structure Traced (s : System) : Prop where
  transit : ∀ d ∈ s.pipe, Known s.trading.api.orders d
  booked : ∀ id d, s.history.booked.lookup id = some d →
    d.orderId = id ∧ Known s.trading.api.orders d

theorem Traced.after {s t : System} {ds : List OrderData} (h : Traced s)
    (hrec : Records s.trading.api.orders t.trading.api.orders ds)
    (hpipe : ∀ d ∈ t.pipe, d ∈ s.pipe ∨ d ∈ ds)
    (hbooked : ∀ id d, t.history.booked.lookup id = some d →
      s.history.booked.lookup id = some d ∨ (d.orderId = id ∧ d ∈ s.pipe)) : Traced t where
  transit d hd := by
    obtain hd | hd := hpipe d hd
    · exact (h.transit d hd).kept hrec
    · exact .published hrec hd
  booked id d hd := by
    obtain hd | ⟨hid, hd⟩ := hbooked id d hd
    · obtain ⟨hid, hknown⟩ := h.booked id d hd
      exact ⟨hid, hknown.kept hrec⟩
    · exact ⟨hid, (h.transit d hd).kept hrec⟩

theorem handled_orderEvents {a b : AlgoEngine} {e : Event} (h : Handled a e b) :
    orderEvents b.q = orderEvents a.q := by
  cases h with
  | blocked _ => simp [Event.orderData?]
  | _ => rfl

theorem note_booked {hist : History} {before after : AlgoEngine} {e : Event} {id : OrderId}
    {d : OrderData} (h : (hist.note before after e).booked.lookup id = some d) :
    hist.booked.lookup id = some d ∨ (d.orderId = id ∧ e = .orderData d) := by
  cases e with
  | algoPosUpdate pos =>
    simp only [History.note] at h
    split at h
    · exact .inl h
    · split at h <;> exact .inl h
  | orderData r =>
    simp only [History.note] at h
    split at h
    · rw [Table.lookup_insert_ite] at h
      split at h
      · next hid =>
        cases h
        exact .inr ⟨hid.symm, rfl⟩
      · exact .inl h
    · exact .inl h
  | _ => exact .inl h

theorem Traced.step {s t : System} {a : Move} (h : Traced s)
    (ht : (algo cfg).step s a = some t) : Traced t := by
  cases step_moved ht with
  | start => exact h.after .same (fun d hd => .inl hd) fun id d hd => .inl hd
  | listen _ =>
    refine h.after .same (fun d hd => .inl ?_) fun id d hd => .inl hd
    simpa [System.pipe, System.listen, AlgoEngine.mqMessageCb, AlgoEngine.push,
      Event.orderData?] using hd
  | callback hout =>
    refine h.after (callback_reports hout).records (fun d hd => ?_) fun id d hd => .inl hd
    simpa [System.pipe, or_assoc] using hd
  | otherSend hsend =>
    refine h.after (sendOrder_records hsend) (fun d hd => ?_) fun id d hd => .inl hd
    simpa [System.pipe, or_assoc] using hd
  | reprice _ _ => exact h.after .same (fun d hd => .inl hd) fun id d hd => .inl hd
  | post he =>
    refine h.after .same (fun d hd => .inl ?_) fun id d hd => .inl hd
    simpa [System.pipe, he] using hd
  | @dispatch e rest hq =>
    refine h.after .same (fun d hd => .inl ?_) fun id d hd => .inl hd
    obtain hcb | ⟨hcb, _⟩ := eventEngineCb_cases s.engine e
    · simp only [System.pipe, hq, hcb, orderEvents_append, orderEvents_cons,
        List.mem_append] at hd ⊢
      tauto
    · simp only [System.pipe, hq, hcb, AlgoEngine.push, orderEvents_append, orderEvents_cons,
        orderEvents_nil, List.append_nil, List.mem_append] at hd ⊢
      tauto
  | pop _ hheld hq =>
    refine h.after .same (fun d hd => .inl ?_) fun id d hd => .inl hd
    simpa [System.pipe, hheld, hq, or_assoc] using hd
  | act hheld hr =>
    obtain ⟨hhandled, hrec⟩ := handle_handled hr
    refine h.after hrec (fun d hd => ?_) fun id d hd => ?_
    · simp only [System.pipe, System.acted, orderEvents_append, handled_orderEvents hhandled,
        Option.toList_none, List.nil_append, List.mem_append] at hd ⊢
      tauto
    · obtain hd | ⟨hid, rfl⟩ := note_booked hd
      · exact .inl hd
      · exact .inr ⟨hid, by simp [System.pipe, hheld, Event.orderData?]⟩

theorem traced {s : System} (hs : (algo cfg).Reachable s) : Traced s := by
  refine Machine.Reaches.invariant ⟨?_, ?_⟩ (fun _ _ _ _ h _ ht => h.step ht) hs
  · simp [algo, System.pipe]
  · simp [algo]

end CalmTrading.AlgoSystem
