import Mathlib.Algebra.Group.Int.Defs
import Mathlib.Data.Rat.Defs

namespace CalmTrading.Objects

/-- Prices, quantities and amounts. Doubles and the broker's decimals are kept
as the exact rationals they denote, so no operation rounds. -/
abbrev Double := ℚ

abbrev OrderId := Int

/-- The largest finite double, `UnsetDouble` and `DBL_MAX` alike. -/
def unsetDouble : Double := (2 ^ 53 - 1) * 2 ^ 971

def unsetInt : Int := 2 ^ 31 - 1

def unsetLong : OrderId := 2 ^ 63 - 1

inductive Action
  | buy | sell
  deriving DecidableEq

inductive OrderType
  | limit | market
  deriving DecidableEq

inductive OrderStatus
  | pendingSubmit | pendingCancel | preSubmitted | submitted
  | apiCancelled | cancelled | filled | inactive
  deriving DecidableEq

def Action.toIb : Action → String
  | .buy => "BUY"
  | .sell => "SELL"

def OrderType.toIb : OrderType → String
  | .limit => "LMT"
  | .market => "MKT"

def OrderStatus.toIb : OrderStatus → String
  | .pendingSubmit => "PendingSubmit"
  | .pendingCancel => "PendingCancel"
  | .preSubmitted => "PreSubmitted"
  | .submitted => "Submitted"
  | .apiCancelled => "ApiCancelled"
  | .cancelled => "Cancelled"
  | .filled => "Filled"
  | .inactive => "Inactive"

def OrderStatus.all : List OrderStatus :=
  [.pendingSubmit, .pendingCancel, .preSubmitted, .submitted, .apiCancelled, .cancelled, .filled,
    .inactive]

/-- `order_status_to_calm`, the status table with its keys and values swapped. -/
def orderStatusToCalm (s : String) : Option OrderStatus :=
  OrderStatus.all.find? fun status => status.toIb = s

theorem orderStatusToCalm_toIb (status : OrderStatus) :
    orderStatusToCalm status.toIb = some status := by
  cases status <;> decide

def isActiveOrder : OrderStatus → Bool
  | .pendingSubmit | .pendingCancel | .preSubmitted | .submitted => true
  | _ => false

def Action.sign : Action → Double
  | .buy => 1
  | .sell => -1

structure ErrMsg where
  id : Int
  errorCode : Int
  message : String := ""
  orderRejectionJson : String := ""
  deriving DecidableEq

structure TickData where
  symbol : String := ""
  lastPrice : Double := 0
  lastSize : Double := 0
  bidPrice : Double := 0
  bidSize : Double := 0
  askPrice : Double := 0
  askSize : Double := 0
  timestamp : Int := 0
  deriving DecidableEq

structure OrderReq where
  symbol : String
  exchange : String := ""
  source : String
  action : Action
  orderType : OrderType
  quantity : Double
  price : Double := unsetDouble
  orderId : OrderId := unsetLong
  deriving DecidableEq

structure OrderData where
  orderId : OrderId
  symbol : String
  exchange : String
  source : String
  orderType : OrderType
  action : Action
  totalQuantity : Double
  tradedQuantity : Double := 0
  avgTradePrice : Double := 0
  commission : Double := 0
  status : OrderStatus := .pendingSubmit
  errorCode : Int := 0
  deriving DecidableEq

structure HistBar where
  id : Int
  time : String
  high : Double
  low : Double
  «open» : Double
  close : Double
  wap : Double
  volume : Double
  count : Int
  deriving DecidableEq

structure HistBarEnd where
  id : Int
  start : String := ""
  «end» : String := ""
  deriving DecidableEq

structure Timer where
  sec : Int := -1
  timestamp : Int := 0
  deriving DecidableEq

structure AlgoPnL where
  algo : String
  pnl : Double
  timestamp : Int
  deriving DecidableEq

structure TotalPnL where
  pnl : Double
  timestamp : Int
  deriving DecidableEq

structure PosUpdate where
  symbol : String
  pos : Double
  timestamp : Int
  retry : Bool := false
  deriving DecidableEq

/-- An event together with its payload. The code keeps the payload behind an
untyped pointer and casts it back by the event type. -/
inductive Event
  | eventEngineStop
  | eventEngineTest
  | eventEngineTest1
  | tickData (data : TickData)
  | orderData (data : OrderData)
  | ibErrMsg (data : ErrMsg)
  | histBar (data : HistBar)
  | histBarEnd (data : HistBarEnd)
  | timer (data : Timer)
  | algoPosUpdate (data : PosUpdate)
  | algoPnl (data : AlgoPnL)
  | totalPnl (data : TotalPnL)
  deriving DecidableEq

inductive EventType
  | eventEngineStop | eventEngineTest | eventEngineTest1
  | tickData | orderData | ibErrMsg | histBar | histBarEnd
  | timer
  | algoPosUpdate
  | algoPnl | totalPnl
  deriving DecidableEq

def Event.eType : Event → EventType
  | .eventEngineStop => .eventEngineStop
  | .eventEngineTest => .eventEngineTest
  | .eventEngineTest1 => .eventEngineTest1
  | .tickData _ => .tickData
  | .orderData _ => .orderData
  | .ibErrMsg _ => .ibErrMsg
  | .histBar _ => .histBar
  | .histBarEnd _ => .histBarEnd
  | .timer _ => .timer
  | .algoPosUpdate _ => .algoPosUpdate
  | .algoPnl _ => .algoPnl
  | .totalPnl _ => .totalPnl

def Event.orderData? : Event → Option OrderData
  | .orderData d => some d
  | _ => none

def Event.tickData? : Event → Option TickData
  | .tickData d => some d
  | _ => none

def orderEvents (es : List Event) : List OrderData := es.filterMap Event.orderData?

def tickEvents (es : List Event) : List TickData := es.filterMap Event.tickData?

@[simp] theorem orderEvents_nil : orderEvents [] = [] := rfl

@[simp] theorem orderEvents_cons (e : Event) (es : List Event) :
    orderEvents (e :: es) = e.orderData?.toList ++ orderEvents es := by
  cases h : e.orderData? <;> simp [orderEvents, h]

@[simp] theorem orderEvents_append (es fs : List Event) :
    orderEvents (es ++ fs) = orderEvents es ++ orderEvents fs := List.filterMap_append

@[simp] theorem tickEvents_append (es fs : List Event) :
    tickEvents (es ++ fs) = tickEvents es ++ tickEvents fs := List.filterMap_append

theorem mem_orderEvents {es : List Event} {d : OrderData} :
    d ∈ orderEvents es ↔ Event.orderData d ∈ es := by
  simp only [orderEvents, List.mem_filterMap]
  constructor
  · rintro ⟨e, he, hd⟩
    cases e <;> simp_all [Event.orderData?]
  · exact fun h => ⟨_, h, rfl⟩

end CalmTrading.Objects
