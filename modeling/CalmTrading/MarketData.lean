import CalmTrading.Lib.History
import CalmTrading.Lib.Machine
import CalmTrading.Gateway

namespace CalmTrading.MarketData

open Lib Lib.History Objects Utils Gateway

structure MarketDataManager where
  lastTicks : Table String TickData := ∅

namespace MarketDataManager

def updateTicks (mgr : MarketDataManager) (data : TickData) : MarketDataManager :=
  { mgr with lastTicks := mgr.lastTicks.insert data.symbol data }

def getLastTick (mgr : MarketDataManager) (symbol : String) : Option TickData :=
  mgr.lastTicks.lookup symbol

/-- The part of `subscribe` inside the lock. The flag tells whether the call
goes on to the gateway; the placeholder it leaves has no symbol. -/
def subscribe (mgr : MarketDataManager) (symbol : String) : MarketDataManager × Bool :=
  if symbol ∈ mgr.lastTicks then (mgr, false)
  else ({ mgr with lastTicks := mgr.lastTicks.insert symbol {} }, true)

end MarketDataManager

/-- The gateway, the event queue and the manager. `requests` and `heard` are
history: every request id that went out, with the symbol it was for if it
asked for ticks, and every tick callback that came for such a request. -/
structure Feed where
  api : IBApi := {}
  queue : List Event := []
  mgr : MarketDataManager := {}
  requests : List (Int × Option String) := []
  heard : List (String × Callback) := []

inductive Move
  | session (running : Bool)
  | subscribe (symbol : String) (delayed : Bool)
  | managerSubscribe (symbol : String) (delayed : Bool)
  | reqHistoricalBar (symbol endTime duration barSize wts : String) (useRth format : Int)
  | reqContractDetails (symbol : String)
  | callback (c : Callback)
  | dispatch

def tickReqId? : Callback → Option Int
  | .tickByTickBidAsk reqId _ _ _ _ _ | .tickByTickAllLast reqId _ _ _ => some reqId
  | _ => none

namespace Feed

def issued (owner : Option String) (client : List ClientMsg) : List (Int × Option String) :=
  client.filterMap fun msg => msg.reqId?.map fun id => (id, owner)

def after (s : Feed) (owner : Option String) (out : Out) : Feed :=
  { s with
    api := out.api
    queue := s.queue ++ out.events
    requests := s.requests ++ issued owner out.client }

def owner? (s : Feed) (c : Callback) : Option String :=
  (tickReqId? c).bind fun id =>
    s.requests.findSome? fun r => if r.1 = id then r.2 else none

def hear (s : Feed) (c : Callback) : Feed :=
  { s with heard := s.heard ++ (s.owner? c).toList.map fun symbol => (symbol, c) }

def step (s : Feed) : Move → Option Feed
  | .session running => some { s with api := { s.api with running := running } }
  | .subscribe symbol delayed =>
    (s.api.subscribe symbol delayed).toOption.map (s.after (some symbol))
  | .managerSubscribe symbol delayed =>
    let (mgr, forward) := s.mgr.subscribe symbol
    if forward then
      (s.api.subscribe symbol delayed).toOption.map ({ s with mgr := mgr }.after (some symbol))
    else some s
  | .reqHistoricalBar symbol endTime duration barSize wts useRth format =>
    (s.api.reqHistoricalBar symbol endTime duration barSize wts useRth format).toOption.map
      fun p => s.after none p.2
  | .reqContractDetails symbol => (s.api.reqContractDetails symbol).toOption.map (s.after none)
  | .callback c => (s.api.callback c).toOption.map ((s.hear c).after none)
  | .dispatch =>
    match s.queue with
    | [] => none
    | .tickData data :: rest => some { s with queue := rest, mgr := s.mgr.updateTicks data }
    | _ :: rest => some { s with queue := rest }

end Feed

def feed : Machine Feed Move where
  init := {}
  step := Feed.step

def Feed.calls (s : Feed) (symbol : String) : List Callback :=
  s.heard.filterMap fun p => if p.1 = symbol then some p.2 else none

def trade? : Callback → Option (Double × Double)
  | .tickByTickAllLast _ _ price size => some (price, size)
  | _ => none

def quote? : Callback → Option (Double × Double × Double × Double)
  | .tickByTickBidAsk _ _ bidPrice askPrice bidSize askSize =>
    some (bidPrice, askPrice, bidSize, askSize)
  | _ => none

def time? : Callback → Option Int
  | .tickByTickBidAsk _ time _ _ _ _ | .tickByTickAllLast _ time _ _ => some time
  | _ => none

/-- The tick shows the latest trade, the latest quote and the latest time that
came for its symbol. -/
structure Merged (symbol : String) (calls : List Callback) (tick : TickData) : Prop where
  symbol : tick.symbol = symbol
  trade : (tick.lastPrice, tick.lastSize) = lastOf trade? (0, 0) calls
  quote : (tick.bidPrice, tick.askPrice, tick.bidSize, tick.askSize) =
    lastOf quote? (0, 0, 0, 0) calls
  timestamp : tick.timestamp = lastOf time? 0 calls

end CalmTrading.MarketData
