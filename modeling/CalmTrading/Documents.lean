import CalmTrading.DataRecorder

namespace CalmTrading.Documents

open Objects DataRecorder

def orderReqDoc (r : OrderReq) : Document :=
  [("symbol", .string r.symbol), ("exchange", .string r.exchange),
    ("action", .string r.action.toIb), ("order_type", .string r.orderType.toIb),
    ("quantity", .double r.quantity), ("price", .double r.price), ("order_id", .integer r.orderId)]

/-- A value that `to_bson_doc` has an overload for. -/
inductive Value
  | tickData (t : TickData)
  | orderReq (r : OrderReq)
  | orderData (d : OrderData)
  deriving DecidableEq

namespace Value

def toBsonDoc : Value → Document
  | .tickData t => tickDoc t
  | .orderReq r => orderReqDoc r
  | .orderData d => orderDataDoc d

/-- The members of the value under their names, an enumerator as its text. -/
def members : Value → Document
  | .tickData t =>
    [("symbol", .string t.symbol), ("last_price", .double t.lastPrice),
      ("last_size", .double t.lastSize), ("bid_price", .double t.bidPrice),
      ("bid_size", .double t.bidSize), ("ask_price", .double t.askPrice),
      ("ask_size", .double t.askSize), ("timestamp", .integer t.timestamp)]
  | .orderReq r =>
    [("symbol", .string r.symbol), ("exchange", .string r.exchange), ("source", .string r.source),
      ("action", .string r.action.toIb), ("order_type", .string r.orderType.toIb),
      ("quantity", .double r.quantity), ("price", .double r.price),
      ("order_id", .integer r.orderId)]
  | .orderData d =>
    [("order_id", .integer d.orderId), ("symbol", .string d.symbol),
      ("exchange", .string d.exchange), ("source", .string d.source),
      ("order_type", .string d.orderType.toIb), ("action", .string d.action.toIb),
      ("total_quantity", .double d.totalQuantity), ("traded_quantity", .double d.tradedQuantity),
      ("avg_trade_price", .double d.avgTradePrice), ("commission", .double d.commission),
      ("status", .string d.status.toIb), ("error_code", .integer d.errorCode)]

end Value

/-- Under each key stands the member of that name, every member is stored, and no
other value has the document. -/
structure Lossless (v : Value) : Prop where
  named : ∀ field ∈ v.toBsonDoc, field ∈ v.members
  complete : ∀ field ∈ v.members, field ∈ v.toBsonDoc
  distinct : ∀ w : Value, w.toBsonDoc = v.toBsonDoc → w = v

theorem action_toIb_inj {a b : Action} : a.toIb = b.toIb ↔ a = b := by
  cases a <;> cases b <;> decide

theorem orderType_toIb_inj {a b : Objects.OrderType} : a.toIb = b.toIb ↔ a = b := by
  cases a <;> cases b <;> decide

theorem status_toIb_inj {a b : OrderStatus} : a.toIb = b.toIb ↔ a = b := by
  refine ⟨fun h => ?_, congrArg _⟩
  rw [← Option.some_inj, ← orderStatusToCalm_toIb a, ← orderStatusToCalm_toIb b, h]

theorem orderDataDoc_inj {d e : OrderData} : orderDataDoc d = orderDataDoc e ↔ d = e := by
  rw [OrderData.mk.injEq]
  simp only [orderDataDoc, List.cons.injEq, Prod.mk.injEq, true_and, and_true,
    Bson.string.injEq, Bson.double.injEq, Bson.integer.injEq, action_toIb_inj, orderType_toIb_inj,
    status_toIb_inj]

theorem not_lossless_tickData (t : TickData) : ¬ Lossless (.tickData t) := by
  intro h
  have hsize := h.complete ("ask_size", .double t.askSize) (by simp [Value.members])
  simp [Value.toBsonDoc, tickDoc] at hsize

theorem not_lossless_orderReq (r : OrderReq) : ¬ Lossless (.orderReq r) := by
  intro h
  have hsource := h.complete ("source", .string r.source) (by simp [Value.members])
  simp [Value.toBsonDoc, orderReqDoc] at hsource

theorem lossless_orderData (d : OrderData) : Lossless (.orderData d) where
  named _ h := h
  complete _ h := h
  distinct w h := by
    cases w with
    | tickData t => simp [Value.toBsonDoc, tickDoc, orderDataDoc] at h
    | orderReq r => simp [Value.toBsonDoc, orderReqDoc, orderDataDoc] at h
    | orderData e => rw [orderDataDoc_inj.mp h]

/-- Only the overload for order records loses nothing. -/
theorem lossless_iff (v : Value) : Lossless v ↔ ∃ d, v = .orderData d := by
  cases v with
  | tickData t => exact iff_of_false (not_lossless_tickData t) (by simp)
  | orderReq r => exact iff_of_false (not_lossless_orderReq r) (by simp)
  | orderData d => exact iff_of_true (lossless_orderData d) ⟨d, rfl⟩

/-- The ask size stands where the ask price should. -/
theorem ask_price_lost : ¬ ∀ v : Value, Lossless v := by
  intro hall
  have hprice := (hall (.tickData { askPrice := 101, askSize := 7 })).named
    ("ask_price", .double 7) (by decide)
  exact absurd hprice (by decide)

end CalmTrading.Documents
