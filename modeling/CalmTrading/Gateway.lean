import CalmTrading.Lib.Table
import CalmTrading.Utils

namespace CalmTrading.Gateway

open Lib Objects Utils

structure Contract where
  symbol : String
  secType : String
  currency : String
  exchange : String
  deriving DecidableEq

structure Order where
  action : String
  totalQuantity : Double
  orderType : String
  lmtPrice : Double := unsetDouble
  tif : String := "DAY"
  deriving DecidableEq

/-- The calls made on `m_pClient`. -/
inductive ClientMsg
  | reqMarketDataType (marketDataType : Int)
  | reqTickByTickData (reqId : Int) (contract : Contract) (tickType : String)
  | placeOrder (orderId : OrderId) (contract : Contract) (order : Order)
  | cancelOrder (orderId : OrderId)
  | reqGlobalCancel
  | reqContractDetails (reqId : Int) (contract : Contract)
  | reqHistoricalData (reqId : Int) (contract : Contract) (endTime duration barSize wts : String)
      (useRth format : Int)
  deriving DecidableEq

def ClientMsg.reqId? : ClientMsg → Option Int
  | .reqTickByTickData reqId _ _ | .reqContractDetails reqId _
  | .reqHistoricalData reqId _ _ _ _ _ _ _ => some reqId
  | _ => none

/-- `IBApi::orders`. Each record sits under its own order id. -/
structure Orders where
  table : Table OrderId OrderData
  keyed : ∀ id d, table.lookup id = some d → d.orderId = id

namespace Orders

def empty : Orders := ⟨∅, by simp⟩

def find? (orders : Orders) (id : OrderId) : Option OrderData := orders.table.lookup id

def set (orders : Orders) (d : OrderData) : Orders where
  table := orders.table.insert d.orderId d
  keyed id r h := by
    rw [Table.lookup_insert_ite] at h
    split at h
    · next he => simp_all
    · exact orders.keyed id r h

@[simp] theorem find?_empty (id : OrderId) : empty.find? id = none := by simp [empty, find?]

theorem find?_set (orders : Orders) (d : OrderData) (id : OrderId) :
    (orders.set d).find? id = if id = d.orderId then some d else orders.find? id :=
  Table.lookup_insert_ite _ _ _ _

@[simp] theorem find?_set_self (orders : Orders) (d : OrderData) :
    (orders.set d).find? d.orderId = some d := by
  simp [find?_set]

theorem find?_set_ne (orders : Orders) {d : OrderData} {id : OrderId} (h : id ≠ d.orderId) :
    (orders.set d).find? id = orders.find? id := by
  simp [find?_set, h]

theorem orderId_of_find? {orders : Orders} {id : OrderId} {d : OrderData}
    (h : orders.find? id = some d) : d.orderId = id := orders.keyed id d h

end Orders

structure IBApi where
  running : Bool := false
  mReqId : Int := 10000000
  ticks : Table String TickData := ∅
  sym2reqIds : Table String (Int × Int) := ∅
  reqId2sym : Table Int String := ∅
  mOrderId : OrderId := -1
  orders : Orders := Orders.empty

/-- What a call leaves behind: the events handed to the event engine and the
requests handed to the client, each in order. -/
structure Out where
  api : IBApi
  events : List Event := []
  client : List ClientMsg := []

def field (fields : List String) (i : Nat) : Except Fault String :=
  match fields[i]? with
  | some s => .ok s
  | none => .error .outOfRange

def generateContract (symbol : String) : Except Fault Contract := do
  let symEx ← split symbol "."
  let fields ← field symEx 0
  let exchange ← field symEx 1
  let fields ← split fields "-"
  let symbol ← field fields 0
  let secType ← field fields 1
  let curr ← field fields 2
  .ok { symbol := symbol, secType := secType, currency := curr, exchange := exchange }

def generateIbOrder (req : OrderReq) : Order where
  action := req.action.toIb
  totalQuantity := req.quantity
  orderType := req.orderType.toIb
  lmtPrice := if req.orderType = .limit then req.price else unsetDouble

/-- What `send_order` still has to do when its record is in place: publish the
record if it is new, call the client, and return the id. -/
structure Placing where
  api : IBApi
  orderId : OrderId
  announce : Option OrderData
  place : ClientMsg

def newOrderData (orderId : OrderId) (req : OrderReq) : OrderData where
  orderId := orderId
  symbol := req.symbol
  exchange := req.exchange
  source := req.source
  orderType := req.orderType
  action := req.action
  totalQuantity := req.quantity

namespace IBApi

/-- `start` up to its wait, with the result of `connect`. -/
def start (api : IBApi) (connects : Bool) : IBApi :=
  if api.running then api else { api with running := connects }

def startReturns (api : IBApi) : Bool := 0 ≤ api.mOrderId

def stop (api : IBApi) : IBApi := { api with running := false }

def nextValidId (api : IBApi) (orderId : OrderId) : Out :=
  { api := { api with mOrderId := orderId } }

def subscribe (api : IBApi) (symbol : String) (delayed : Bool) : Except Fault Out :=
  if !api.running then .ok { api := api }
  else if symbol ∈ api.sym2reqIds then .ok { api := api }
  else do
    let contract ← generateContract symbol
    let (lastId, next) ← postIncr unsetInt api.mReqId
    let (bidAskId, next) ← postIncr unsetInt next
    .ok
      { api :=
          { api with
            sym2reqIds := api.sym2reqIds.insert symbol (api.mReqId, api.mReqId + 1)
            reqId2sym := (api.reqId2sym.insert api.mReqId symbol).insert (api.mReqId + 1) symbol
            ticks := api.ticks.insert symbol { symbol := symbol }
            mReqId := next }
        client :=
          [.reqMarketDataType (if delayed then 4 else 1),
           .reqTickByTickData lastId contract "Last",
           .reqTickByTickData bidAskId contract "BidAsk"] }

/-- The common part of the two tick callbacks: overwrite some fields of the
cached tick of the symbol behind the request and publish the result. -/
def updateTick (api : IBApi) (reqId : Int) (f : TickData → TickData) : Out :=
  match api.reqId2sym.lookup reqId with
  | none => { api := api }
  | some symbol =>
    let tick := f ((api.ticks.lookup symbol).getD {})
    { api := { api with ticks := api.ticks.insert symbol tick }, events := [.tickData tick] }

def tickByTickBidAsk (api : IBApi) (reqId time : Int) (bidPrice askPrice bidSize askSize : Double) :
    Out :=
  api.updateTick reqId fun tick =>
    { tick with
      askPrice := askPrice, askSize := askSize, bidPrice := bidPrice, bidSize := bidSize
      timestamp := time }

def tickByTickAllLast (api : IBApi) (reqId time : Int) (price size : Double) : Out :=
  api.updateTick reqId fun tick =>
    { tick with lastPrice := price, lastSize := size, timestamp := time }

/-- The common part of the three order callbacks: overwrite some fields of the
record under an id and publish the result; an unknown id is left alone. -/
def updateOrder (api : IBApi) (orderId : OrderId) (f : OrderData → OrderData) : Out :=
  match api.orders.find? orderId with
  | none => { api := api }
  | some d => { api := { api with orders := api.orders.set (f d) }, events := [.orderData (f d)] }

def error (api : IBApi) (msg : ErrMsg) : Out :=
  let out := api.updateOrder msg.id fun d => { d with errorCode := msg.errorCode }
  { out with events := .ibErrMsg msg :: out.events }

def openOrder (api : IBApi) (orderId : OrderId) (commission : Double) : Out :=
  if isUnsetDouble commission then { api := api }
  else api.updateOrder orderId fun d => { d with commission := commission }

/-- A status outside the table makes `at` throw. -/
def orderStatus (api : IBApi) (orderId : OrderId) (status : String) (filled avgFillPrice : Double) :
    Except Fault Out :=
  match orderStatusToCalm status with
  | none => .error .outOfRange
  | some st => .ok (api.updateOrder orderId fun d =>
      { d with status := st, tradedQuantity := filled, avgTradePrice := avgFillPrice })

def assignId (api : IBApi) (req : OrderReq) : Except Fault (OrderId × OrderId) :=
  if isUnsetLlong req.orderId then postIncr unsetLong api.mOrderId
  else .ok (req.orderId, api.mOrderId)

/-- The part of `send_order` up to the end of its critical section. -/
def recordOrder (api : IBApi) (req : OrderReq) : Except Fault Placing := do
  let contract ← generateContract req.symbol
  let contract := if req.exchange = "" then contract else { contract with exchange := req.exchange }
  let (orderId, next) ← api.assignId req
  let order := generateIbOrder req
  let d := newOrderData orderId req
  let api := { api with mOrderId := next }
  if (api.orders.find? orderId).isSome then
    .ok { api := api, orderId := orderId, announce := none
          place := .placeOrder orderId contract order }
  else
    .ok { api := { api with orders := api.orders.set d }, orderId := orderId, announce := some d
          place := .placeOrder orderId contract order }

def sendOrder (api : IBApi) (req : OrderReq) : Except Fault (OrderId × Out) := do
  let p ← api.recordOrder req
  .ok (p.orderId,
    { api := p.api, events := p.announce.toList.map .orderData, client := [p.place] })

def cancelOrder (api : IBApi) (orderId : OrderId) : Out :=
  { api := api, client := [.cancelOrder orderId] }

def reqContractDetails (api : IBApi) (symbol : String) : Except Fault Out := do
  let contract ← generateContract symbol
  let (reqId, next) ← postIncr unsetInt api.mReqId
  .ok { api := { api with mReqId := next }, client := [.reqContractDetails reqId contract] }

def reqHistoricalBar (api : IBApi) (symbol endTime duration barSize wts : String)
    (useRth format : Int) : Except Fault (Int × Out) := do
  let contract ← generateContract symbol
  let (reqId, next) ← postIncr unsetInt api.mReqId
  .ok (next - 1,
    { api := { api with mReqId := next }
      client := [.reqHistoricalData reqId contract endTime duration barSize wts useRth format] })

def historicalData (api : IBApi) (bar : HistBar) : Out := { api := api, events := [.histBar bar] }

def historicalDataEnd (api : IBApi) (barEnd : HistBarEnd) : Out :=
  { api := api, events := [.histBarEnd barEnd] }

end IBApi

/-- The calls the client makes from its message thread. -/
inductive Callback
  | nextValidId (orderId : OrderId)
  | tickByTickBidAsk (reqId time : Int) (bidPrice askPrice bidSize askSize : Double)
  | tickByTickAllLast (reqId time : Int) (price size : Double)
  | error (msg : ErrMsg)
  | openOrder (orderId : OrderId) (commission : Double)
  | orderStatus (orderId : OrderId) (status : String) (filled avgFillPrice : Double)
  | historicalData (bar : HistBar)
  | historicalDataEnd (barEnd : HistBarEnd)
  deriving DecidableEq

def IBApi.callback (api : IBApi) : Callback → Except Fault Out
  | .nextValidId orderId => .ok (api.nextValidId orderId)
  | .tickByTickBidAsk reqId time bidPrice askPrice bidSize askSize =>
    .ok (api.tickByTickBidAsk reqId time bidPrice askPrice bidSize askSize)
  | .tickByTickAllLast reqId time price size => .ok (api.tickByTickAllLast reqId time price size)
  | .error msg => .ok (api.error msg)
  | .openOrder orderId commission => .ok (api.openOrder orderId commission)
  | .orderStatus orderId status filled avgFillPrice =>
    api.orderStatus orderId status filled avgFillPrice
  | .historicalData bar => .ok (api.historicalData bar)
  | .historicalDataEnd barEnd => .ok (api.historicalDataEnd barEnd)

end CalmTrading.Gateway
