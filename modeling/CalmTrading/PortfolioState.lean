import CalmTrading.Lib.Table
import CalmTrading.Utils

namespace CalmTrading.PortfolioState

open Lib Objects Utils

structure ContractPos where
  symbol : String := ""
  pos : Double := 0
  cost : Double := 0
  deriving DecidableEq

abbrev ContractData := Table String ContractPos

structure Portfolio where
  running : Bool := false
  q : List Event := []
  algoPortfolio : Table String ContractData := ∅
  mktdMapping : Table String (Table String String) := ∅
  algoPnl : Table String Double := ∅
  activeOrders : Table String (Table OrderId OrderData) := ∅
  totalPnl : Double := 0

namespace Portfolio

def contractPos (p : Portfolio) (algo symbol : String) : ContractPos :=
  (((p.algoPortfolio.lookup algo).getD ∅).lookup symbol).getD {}

def algoOrders (p : Portfolio) (algo : String) : Table OrderId OrderData :=
  (p.activeOrders.lookup algo).getD ∅

def addMarketDataMapping (p : Portfolio) (algo orderSymbol marketSymbol : String) : Portfolio :=
  if p.running then p
  else
    { p with
      mktdMapping := p.mktdMapping.insert algo
        (((p.mktdMapping.lookup algo).getD ∅).insert orderSymbol marketSymbol) }

def setContractPos (p : Portfolio) (algo symbol : String) (pos : ContractPos) : Portfolio :=
  { p with
    algoPortfolio := p.algoPortfolio.insert algo
      (((p.algoPortfolio.lookup algo).getD ∅).insert symbol pos) }

def addToPortfolio (p : Portfolio) (algo symbol : String) : Portfolio :=
  if p.running then p else p.setContractPos algo symbol (p.contractPos algo symbol)

def getTotalPnl (p : Portfolio) : Double := p.totalPnl

def getAlgoPnl (p : Portfolio) (algo : String) : Double × Portfolio :=
  let pnl := (p.algoPnl.lookup algo).getD 0
  (pnl, { p with algoPnl := p.algoPnl.insert algo pnl })

/-- Both event engine callbacks copy the event to the portfolio's own queue. -/
def eventEngineCb (p : Portfolio) (e : Event) : Portfolio :=
  match e with
  | .orderData _ | .timer _ => { p with q := p.q ++ [e] }
  | _ => p

/-- `change_qty`, `change_cost` and `change_comm` of `order_data_cb`. -/
def change (oldOrder : Option OrderData) (data : OrderData) : Double × Double × Double :=
  let changeCost := data.tradedQuantity * data.avgTradePrice
  let (changeQty, changeCost, changeComm) :=
    match oldOrder with
    | none => (data.tradedQuantity, changeCost, data.commission)
    | some old =>
      (data.tradedQuantity - old.tradedQuantity,
        changeCost - old.tradedQuantity * old.avgTradePrice, data.commission - old.commission)
  if data.action = .sell then (changeQty * -1, changeCost * -1, changeComm)
  else (changeQty, changeCost, changeComm)

def orderDataCb (p : Portfolio) (data : OrderData) : Portfolio :=
  let algo := data.source
  let algoOrders := p.algoOrders algo
  let (changeQty, changeCost, changeComm) := change (algoOrders.lookup data.orderId) data
  let pos := p.contractPos algo data.symbol
  { p with
    activeOrders := p.activeOrders.insert algo (algoOrders.insert data.orderId data) }.setContractPos
      algo data.symbol { pos with pos := pos.pos + changeQty, cost := pos.cost + changeCost + changeComm }

def fxRate (_algo : String) : Double := 1

/-- The PnL of one algorithm. An unpriced symbol makes it unset for good. -/
def pnlOf (lastTick : String → Option TickData) (mapping : Table String String)
    (port : ContractData) : Double :=
  port.foldl (fun pnl sym pos =>
    let mktSym := (mapping.lookup sym).getD sym
    match lastTick mktSym with
    | none => unsetDouble
    | some tick =>
      if isUnsetDouble pnl then unsetDouble else pnl + (pos.pos * tick.lastPrice - pos.cost)) 0

/-- The loop body of `timer_cb` for one algorithm. -/
def timerAlgo (lastTick : String → Option TickData) (p : Portfolio) (algo : String)
    (port : ContractData) : Portfolio :=
  let mapping := (p.mktdMapping.lookup algo).getD ∅
  let pnl := pnlOf lastTick mapping port
  { p with
    algoPnl := p.algoPnl.insert algo pnl
    activeOrders := p.activeOrders.insert algo (p.algoOrders algo)
    mktdMapping := p.mktdMapping.insert algo mapping
    totalPnl :=
      if isUnsetDouble pnl || isUnsetDouble p.totalPnl then unsetDouble
      else p.totalPnl + pnl * fxRate algo }

/-- The new PnLs, and the events that report them twice a minute. `lastTick`
is what the market data manager answers. -/
def timerCb (p : Portfolio) (lastTick : String → Option TickData) (timer : Timer) :
    Portfolio × List Event :=
  let p := p.algoPortfolio.foldl (timerAlgo lastTick) { p with totalPnl := 0 }
  let events :=
    if timer.sec = 30 ∨ timer.sec = 0 then
      (p.algoPnl.entries.map fun e => .algoPnl ⟨e.1, e.2, timer.timestamp⟩) ++
        [.totalPnl ⟨p.totalPnl, timer.timestamp⟩]
    else []
  (p, events)

def handle (p : Portfolio) (lastTick : String → Option TickData) :
    Event → Portfolio × List Event
  | .orderData data => (p.orderDataCb data, [])
  | .timer timer => p.timerCb lastTick timer
  | _ => (p, [])

/-- What the event variable of `run_actions` holds after its wait, and the queue
after that. When the wait times out it is still the event of an earlier round. -/
def next (p : Portfolio) (event : Option Event) : Option Event × List Event :=
  match p.q with
  | [] => (event, [])
  | e :: rest => (some e, rest)

/-- A round of `run_actions`, unless its variable has not been given an event yet. -/
def round (p : Portfolio) (event : Option Event) (lastTick : String → Option TickData) :
    Option (Event × Portfolio × List Event) :=
  match p.next event with
  | (none, _) => none
  | (some e, q) => some (e, { p with q := q }.handle lastTick e)

end Portfolio

end CalmTrading.PortfolioState
