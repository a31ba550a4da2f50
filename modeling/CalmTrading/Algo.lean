import CalmTrading.Lib.Bytes
import CalmTrading.Risk

namespace CalmTrading.Algo

open Lib Lib.Bytes Objects Utils Gateway OrderRecords Risk

/-- What is published, with the symbol in its field of 32 bytes. -/
structure TickMsg where
  symbol : List UInt8
  lastPrice : Double
  timestamp : Int
  size : symbol.length = 32

def tickMsg (tick : TickData) : TickMsg where
  symbol := strncpy 32 (bytes tick.symbol)
  lastPrice := tick.lastPrice
  timestamp := tick.timestamp
  size := length_strncpy _ _

structure PosMsg where
  symbol : String
  pos : Double
  timestamp : Int
  deriving DecidableEq

structure AlgoEngine where
  name : String := "algo_engine"
  running : Bool := false
  q : List Event := []
  mktDataSymbol : String
  orderSymbol : String
  targetPos : Double := 0
  currPos : Double := 0
  orderStatus : Table OrderId OrderStatus := ∅
  orderData : Table OrderId (Option OrderData) := ∅
  orderReqs : Table OrderId OrderReq := ∅
  inflightOrderId : OrderId := -1
  orderCancelled : Bool := false
  orderTarget : Double := 0
  orderFilled : Double := 0

/-- What a callback of the action thread leaves behind. -/
structure Acted where
  engine : AlgoEngine
  trading : TradingEngine
  events : List Event := []
  client : List ClientMsg := []
  published : List TickMsg := []

namespace AlgoEngine

def push (a : AlgoEngine) (e : Event) : AlgoEngine := { a with q := a.q ++ [e] }

def eventEngineTimerCb (a : AlgoEngine) (e : Event) (timer : Timer) : AlgoEngine :=
  if !a.running then a else if timer.sec = 0 ∨ timer.sec = 30 then a.push e else a

def eventEngineOrderCb (a : AlgoEngine) (e : Event) : AlgoEngine :=
  if !a.running then a else a.push e

def eventEngineTickCb (a : AlgoEngine) (e : Event) (data : TickData) : AlgoEngine :=
  if !a.running then a else if data.symbol = a.mktDataSymbol then a.push e else a

/-- The callbacks that the engine registers with the event engine. -/
def eventEngineCb (a : AlgoEngine) (e : Event) : AlgoEngine :=
  match e with
  | .tickData data => a.eventEngineTickCb e data
  | .timer timer => a.eventEngineTimerCb e timer
  | .orderData _ => a.eventEngineOrderCb e
  | _ => a

def mqMessageCb (a : AlgoEngine) (msg : PosMsg) : AlgoEngine :=
  a.push (.algoPosUpdate { symbol := msg.symbol, pos := msg.pos, timestamp := msg.timestamp })

/-- The tick of the market data symbol is sent to the strategy; without one the
null pointer is followed. `publishes` says that the command to Redis gets a reply. -/
def timerCb (a : AlgoEngine) (t : TradingEngine) (lastTick : Option TickData)
    (publishes : Bool) : Except Fault Acted :=
  match lastTick with
  | none => .error .nullPointer
  | some tick =>
    if publishes then .ok { engine := a, trading := t, published := [tickMsg tick] }
    else .error .redisError

/-- `order_reqs[inflight_order_id]` makes a zero entry where there is none. -/
def tickCb (a : AlgoEngine) (t : TradingEngine) : Acted :=
  if a.inflightOrderId < 0 then { engine := a, trading := t }
  else
    let zero : OrderReq :=
      { symbol := "", source := "", action := .buy, orderType := .limit, quantity := 0 }
    let req := (a.orderReqs.lookup a.inflightOrderId).getD zero
    { engine := { a with orderReqs := a.orderReqs.insert a.inflightOrderId req }, trading := t }

def newOrderReq (a : AlgoEngine) (symbol : String) (quantity : Double) : OrderReq where
  symbol := symbol
  action := if quantity < 0 then .sell else .buy
  source := a.name
  quantity := if quantity < 0 then -quantity else quantity
  orderType := .market

/-- The fields that `send_order` sets for an order that was sent. -/
def inflight (a : AlgoEngine) (orderId : OrderId) (orderReq : OrderReq) (quantity : Double) :
    AlgoEngine :=
  { a with
    inflightOrderId := orderId
    orderStatus := a.orderStatus.insert orderId .pendingSubmit
    orderData := a.orderData.insert orderId none
    orderReqs := a.orderReqs.insert orderId orderReq
    orderTarget := quantity
    orderFilled := 0 }

/-- Only a positive id counts as sent. -/
def sendOrder (a : AlgoEngine) (t : TradingEngine) (symbol : String) (quantity : Double) :
    Except Fault Acted := do
  let orderReq := a.newOrderReq symbol quantity
  let (orderId, t, events, client) ← t.sendOrder orderReq
  let a := if 0 < orderId then a.inflight orderId orderReq quantity else a
  .ok { engine := a, trading := t, events := events, client := client }

/-- The branch of `update_pos_cb` that waits for the order in flight: cancel it
once, and try the update again later. -/
def retryPos (a : AlgoEngine) (t : TradingEngine) (pos : PosUpdate) : Except Fault Acted :=
  let retry : Event := .algoPosUpdate { pos with retry := true }
  if !a.orderCancelled then
    if a.inflightOrderId ∈ a.orderReqs then
      let (t, client) := t.cancelOrder a.inflightOrderId
      .ok { engine := { a with orderCancelled := true }.push retry, trading := t, client := client }
    else .error .outOfRange
  else if !pos.retry then .error .latencyTooHigh
  else .ok { engine := a.push retry, trading := t }

def updatePosCb (a : AlgoEngine) (t : TradingEngine) (pos : PosUpdate) : Except Fault Acted :=
  if 0 < a.inflightOrderId then a.retryPos t pos
  else
    let a := { a with targetPos := pos.pos }
    let diff := a.targetPos - a.currPos
    if diff ≥ 1 ∨ diff ≤ -1 then a.sendOrder t a.orderSymbol diff
    else .ok { engine := a, trading := t }

/-- The fields that `order_cb` sets for every event of a known order. -/
def fill (a : AlgoEngine) (d : OrderData) : AlgoEngine :=
  let diff := d.tradedQuantity - a.orderFilled
  { a with
    currPos := if d.action = .buy then a.currPos + diff else a.currPos - diff
    orderFilled := d.tradedQuantity
    orderStatus := a.orderStatus.insert d.orderId d.status
    orderData := a.orderData.insert d.orderId (some d) }

def orderCb (a : AlgoEngine) (d : OrderData) : AlgoEngine :=
  if d.orderId ∉ a.orderStatus then a
  else
    let active := isActiveOrder d.status && d.errorCode = 0
    let a := a.fill d
    if active then a else { a with inflightOrderId := -1, orderCancelled := false }

/-- The `switch` of `run_actions`. `lastTick` is what the market data manager
holds for the market data symbol. No exception is caught, so that a run goes on only
where publishing works. -/
def handle (a : AlgoEngine) (t : TradingEngine) (lastTick : Option TickData) (e : Event)
    (publishes : Bool := true) : Except Fault Acted :=
  match e with
  | .tickData _ => .ok (a.tickCb t)
  | .timer _ => a.timerCb t lastTick publishes
  | .algoPosUpdate pos => a.updatePosCb t pos
  | .orderData d => .ok { engine := a.orderCb d, trading := t }
  | _ => .ok { engine := a, trading := t }

end AlgoEngine

def endsOrder (d : OrderData) : Bool := !(isActiveOrder d.status && d.errorCode = 0)

/-- All that handling an event does to the engine. -/
inductive Handled (a : AlgoEngine) : Event → AlgoEngine → Prop
  | blocked {pos : PosUpdate} (hfly : 0 < a.inflightOrderId) :
      Handled a (.algoPosUpdate pos)
        { a with
          orderCancelled := true
          q := a.q ++ [.algoPosUpdate { pos with retry := true }] }
  | idle {pos : PosUpdate} (hfly : ¬ 0 < a.inflightOrderId) :
      Handled a (.algoPosUpdate pos) { a with targetPos := pos.pos }
  | sent {pos : PosUpdate} (hfly : ¬ 0 < a.inflightOrderId) {id : OrderId} (hid : 0 < id)
      (req : OrderReq) (quantity : Double) :
      Handled a (.algoPosUpdate pos) ({ a with targetPos := pos.pos }.inflight id req quantity)
  | unknown {d : OrderData} (hd : d.orderId ∉ a.orderStatus) : Handled a (.orderData d) a
  | active {d : OrderData} (hd : d.orderId ∈ a.orderStatus) (hend : endsOrder d = false) :
      Handled a (.orderData d) (a.fill d)
  | ended {d : OrderData} (hd : d.orderId ∈ a.orderStatus) (hend : endsOrder d = true) :
      Handled a (.orderData d) { a.fill d with inflightOrderId := -1, orderCancelled := false }
  | other {e : Event} (he : e.orderData? = none) (hpos : ∀ pos, e ≠ .algoPosUpdate pos)
      (reqs : Table OrderId OrderReq) : Handled a e { a with orderReqs := reqs }

theorem orderCb_handled (a : AlgoEngine) (d : OrderData) :
    Handled a (.orderData d) (a.orderCb d) := by
  rw [AlgoEngine.orderCb]
  by_cases hd : d.orderId ∈ a.orderStatus
  · cases hend : endsOrder d with
    | false =>
      have hactive : (isActiveOrder d.status && decide (d.errorCode = 0)) = true :=
        Bool.not_eq_eq_eq_not.mp hend
      simp only [hd, not_true, if_false, hactive, if_true]
      exact .active hd hend
    | true =>
      have hinactive : (isActiveOrder d.status && decide (d.errorCode = 0)) = false :=
        Bool.not_eq_eq_eq_not.mp hend
      simp only [hd, not_true, if_false, hinactive, Bool.false_eq_true]
      exact .ended hd hend
  · simp only [hd, not_false_eq_true, if_true]
    exact .unknown hd

theorem sendOrder_records {t u : TradingEngine} {req : OrderReq} {id : OrderId}
    {events : List Event} {client : List ClientMsg}
    (h : t.sendOrder req = .ok (id, u, events, client)) :
    Records t.api.orders u.api.orders (orderEvents events) := by
  have hapi : (t.screen req).2.api = t.api := by
    obtain ⟨_, hapi, _⟩ | ⟨_, hapi, _⟩ := screen_cases t req <;> exact hapi
  simp only [TradingEngine.sendOrder] at h
  split at h
  · cases h
    rw [hapi]
    exact .same
  · obtain ⟨out, hout, rfl, rfl, _⟩ := forward_eq_ok.mp h
    rw [← hapi]
    exact OrderRecords.sendOrder_records hout

theorem retryPos_handled {a : AlgoEngine} {t : TradingEngine} {pos : PosUpdate} {r : Acted}
    (hfly : 0 < a.inflightOrderId) (h : a.retryPos t pos = .ok r) :
    Handled a (.algoPosUpdate pos) r.engine ∧
      Records t.api.orders r.trading.api.orders (orderEvents r.events) := by
  rw [AlgoEngine.retryPos] at h
  cases hc : a.orderCancelled with
  | false =>
    simp only [hc, Bool.not_false, if_true] at h
    split at h
    · cases h
      exact ⟨.blocked hfly, .same⟩
    · cases h
  | true =>
    simp only [hc, Bool.not_true, Bool.false_eq_true, if_false] at h
    split at h
    · cases h
    · cases h
      have hsame : a.push (.algoPosUpdate { pos with retry := true }) =
          { a with
            orderCancelled := true
            q := a.q ++ [.algoPosUpdate { pos with retry := true }] } := by
        rw [← hc]
        rfl
      exact ⟨hsame ▸ .blocked hfly, .same⟩

theorem updatePosCb_handled {a : AlgoEngine} {t : TradingEngine} {pos : PosUpdate} {r : Acted}
    (h : a.updatePosCb t pos = .ok r) :
    Handled a (.algoPosUpdate pos) r.engine ∧
      Records t.api.orders r.trading.api.orders (orderEvents r.events) := by
  rw [AlgoEngine.updatePosCb] at h
  by_cases hfly : 0 < a.inflightOrderId
  · rw [if_pos hfly] at h
    exact retryPos_handled hfly h
  · rw [if_neg hfly] at h
    dsimp only at h
    split at h
    · obtain ⟨⟨id, u, events, client⟩, hsend, hr⟩ := bind_eq_ok.mp h
      cases hr
      refine ⟨?_, sendOrder_records hsend⟩
      by_cases hid : 0 < id
      · simp only [hid, if_true]
        exact .sent hfly hid _ _
      · simp only [hid, if_false]
        exact .idle hfly
    · cases h
      exact ⟨.idle hfly, .same⟩

theorem timerCb_eq_ok {a : AlgoEngine} {t : TradingEngine} {lastTick : Option TickData}
    {publishes : Bool} {r : Acted} (h : a.timerCb t lastTick publishes = .ok r) :
    ∃ published, r = { engine := a, trading := t, published := published } := by
  simp only [AlgoEngine.timerCb] at h
  split at h
  · cases h
  · split at h <;> cases h
    exact ⟨_, rfl⟩

theorem handle_handled {a : AlgoEngine} {t : TradingEngine} {lastTick : Option TickData}
    {e : Event} {publishes : Bool} {r : Acted} (h : a.handle t lastTick e publishes = .ok r) :
    Handled a e r.engine ∧ Records t.api.orders r.trading.api.orders (orderEvents r.events) := by
  cases e with
  | orderData d =>
    cases h
    exact ⟨orderCb_handled a d, .same⟩
  | algoPosUpdate pos => exact updatePosCb_handled h
  | tickData data =>
    cases h
    rw [AlgoEngine.tickCb]
    split
    · exact ⟨.other rfl (by simp) a.orderReqs, .same⟩
    · exact ⟨.other rfl (by simp) _, .same⟩
  | timer timer =>
    obtain ⟨_, rfl⟩ := timerCb_eq_ok h
    exact ⟨.other rfl (by simp) a.orderReqs, .same⟩
  | _ =>
    cases h
    exact ⟨.other rfl (by simp) a.orderReqs, .same⟩

end CalmTrading.Algo
