import CalmTrading.Gateway

namespace CalmTrading.OrderRecords

open Objects Utils Gateway

def unreported (d : OrderData) : OrderData :=
  { d with
    tradedQuantity := 0, avgTradePrice := 0, commission := 0
    status := .pendingSubmit, errorCode := 0 }

/-- Two records of one order: they differ at most in what callbacks report. -/
def SameOrder (r d : OrderData) : Prop := unreported r = unreported d

namespace SameOrder

variable {r d : OrderData} (h : SameOrder r d)
include h

theorem orderId : r.orderId = d.orderId := (congrArg OrderData.orderId h :)

theorem symbol : r.symbol = d.symbol := (congrArg OrderData.symbol h :)

theorem source : r.source = d.source := (congrArg OrderData.source h :)

theorem action : r.action = d.action := (congrArg OrderData.action h :)

theorem orderType : r.orderType = d.orderType := (congrArg OrderData.orderType h :)

theorem totalQuantity : r.totalQuantity = d.totalQuantity :=
  (congrArg OrderData.totalQuantity h :)

end SameOrder

/-- All that a call of `IBApi` does to the records: nothing, or replace one and
publish it. -/
inductive Records (before : Orders) : Orders → List OrderData → Prop
  | same : Records before before []
  | set (d : OrderData) (h : ∀ r, before.find? d.orderId = some r → SameOrder r d) :
      Records before (before.set d) [d]

theorem updateOrder_cases (api : IBApi) (id : OrderId) (f : OrderData → OrderData) :
    (api.orders.find? id = none ∧ api.updateOrder id f = { api := api }) ∨
    ∃ d, api.orders.find? id = some d ∧ d.orderId = id ∧
      api.updateOrder id f =
        { api := { api with orders := api.orders.set (f d) }, events := [.orderData (f d)] } := by
  rw [IBApi.updateOrder]
  cases h : api.orders.find? id with
  | none => exact .inl ⟨rfl, rfl⟩
  | some d => exact .inr ⟨d, rfl, Orders.orderId_of_find? h, rfl⟩

theorem updateTick_orders (api : IBApi) (reqId : Int) (f : TickData → TickData) :
    (api.updateTick reqId f).api.orders = api.orders ∧
      orderEvents (api.updateTick reqId f).events = [] := by
  rw [IBApi.updateTick]
  cases api.reqId2sym.lookup reqId <;> exact ⟨rfl, rfl⟩

def orderId? : Callback → Option OrderId
  | .error msg => some msg.id
  | .openOrder id _ | .orderStatus id _ _ _ => some id
  | _ => none

/-- All that a callback does to the records: nothing, or report on the known
order it is about. -/
inductive Reports (before : Orders) (c : Callback) : Orders → List OrderData → Prop
  | quiet : Reports before c before []
  | report {id : OrderId} {r d : OrderData} (hid : orderId? c = some id)
      (hr : before.find? id = some r) (hd : SameOrder r d) :
      Reports before c (before.set d) [d]

theorem updateOrder_reports (api : IBApi) {c : Callback} {id : OrderId}
    (hc : orderId? c = some id) {f : OrderData → OrderData} (hf : ∀ d, SameOrder d (f d)) :
    Reports api.orders c (api.updateOrder id f).api.orders
      (orderEvents (api.updateOrder id f).events) := by
  obtain ⟨_, h⟩ | ⟨d, hd, _, h⟩ := updateOrder_cases api id f
  · rw [h]
    exact .quiet
  · rw [h]
    exact .report hc hd (hf d)

theorem callback_reports {api : IBApi} {c : Callback} {out : Out} (h : api.callback c = .ok out) :
    Reports api.orders c out.api.orders (orderEvents out.events) := by
  cases c with
  | nextValidId id => cases h; exact .quiet
  | tickByTickBidAsk reqId time bidPrice askPrice bidSize askSize =>
    cases h
    simp only [IBApi.tickByTickBidAsk, updateTick_orders]
    exact .quiet
  | tickByTickAllLast reqId time price size =>
    cases h
    simp only [IBApi.tickByTickAllLast, updateTick_orders]
    exact .quiet
  | error msg =>
    cases h
    exact updateOrder_reports api rfl fun d => rfl
  | openOrder id commission =>
    cases h
    rw [IBApi.openOrder]
    split
    · exact .quiet
    · exact updateOrder_reports api rfl fun d => rfl
  | orderStatus id status filled avg =>
    simp only [IBApi.callback, IBApi.orderStatus] at h
    split at h
    · cases h
    · cases h
      exact updateOrder_reports api rfl fun d => rfl
  | historicalData bar => cases h; exact .quiet
  | historicalDataEnd barEnd => cases h; exact .quiet

namespace Reports

variable {before after : Orders} {c : Callback} {ds : List OrderData}

theorem records (h : Reports before c after ds) : Records before after ds := by
  cases h with
  | quiet => exact .same
  | report hid hr hd =>
    refine .set _ fun r' hr' => ?_
    rw [← hd.orderId, Orders.orderId_of_find? hr, hr] at hr'
    cases hr'
    exact hd

theorem about (h : Reports before c after ds) {d : OrderData} (hd : d ∈ ds) :
    orderId? c = some d.orderId ∧ ∃ r, before.find? d.orderId = some r := by
  cases h with
  | quiet => simp at hd
  | report hid hr hsame =>
    rw [List.mem_singleton.mp hd, ← hsame.orderId, Orders.orderId_of_find? hr]
    exact ⟨hid, _, hr⟩

theorem other (h : Reports before c after ds) {id j : OrderId} (hc : orderId? c = some id)
    (hj : j ≠ id) : after.find? j = before.find? j := by
  cases h with
  | quiet => rfl
  | report hid hr hsame =>
    rw [hid, Option.some.injEq] at hc
    refine Orders.find?_set_ne _ ?_
    rwa [← hsame.orderId, Orders.orderId_of_find? hr, hc]

theorem unknown (h : Reports before c after ds) {id : OrderId} (hc : orderId? c = some id)
    (hid : before.find? id = none) : after = before ∧ ds = [] := by
  cases h with
  | quiet => exact ⟨rfl, rfl⟩
  | report hid' hr _ =>
    rw [hid', Option.some.injEq] at hc
    rw [hc, hid] at hr
    cases hr

theorem absent (h : Reports before c after ds) {id : OrderId} (hid : before.find? id = none) :
    after.find? id = none := by
  cases h with
  | quiet => exact hid
  | report _ hr hsame =>
    rw [Orders.find?_set_ne, hid]
    rintro rfl
    rw [← hsame.orderId, Orders.orderId_of_find? hr, hr] at hid
    cases hid

end Reports

/-- The two outcomes of the critical section of `send_order`. -/
theorem recordOrder_cases {api : IBApi} {req : OrderReq} {p : Placing}
    (h : api.recordOrder req = .ok p) :
    ∃ next contract, api.assignId req = .ok (p.orderId, next) ∧
      p.place = .placeOrder p.orderId contract (generateIbOrder req) ∧
      ((∃ r, api.orders.find? p.orderId = some r ∧ p.announce = none ∧
          p.api = { api with mOrderId := next }) ∨
        (api.orders.find? p.orderId = none ∧ p.announce = some (newOrderData p.orderId req) ∧
          p.api = { api with
            mOrderId := next, orders := api.orders.set (newOrderData p.orderId req) })) := by
  rw [IBApi.recordOrder] at h
  obtain ⟨contract, _, h⟩ := bind_eq_ok.mp h
  obtain ⟨⟨id, next⟩, hid, h⟩ := bind_eq_ok.mp h
  cases hr : api.orders.find? id with
  | none =>
    simp only [hr, Option.isSome_none, Bool.false_eq_true, if_false] at h
    cases h
    exact ⟨next, _, hid, rfl, .inr ⟨hr, rfl, rfl⟩⟩
  | some r =>
    simp only [hr, Option.isSome_some, if_true] at h
    cases h
    exact ⟨next, _, hid, rfl, .inl ⟨r, hr, rfl, rfl⟩⟩

/-- An unset id is drawn from the counter; any other is taken over. -/
theorem recordOrder_mOrderId {api : IBApi} {req : OrderReq} {p : Placing}
    (h : api.recordOrder req = .ok p) :
    (isUnsetLlong req.orderId = true ∧ api.mOrderId ≠ unsetLong ∧ p.orderId = api.mOrderId ∧
        p.api.mOrderId = api.mOrderId + 1) ∨
      (isUnsetLlong req.orderId = false ∧ p.orderId = req.orderId ∧
        p.api.mOrderId = api.mOrderId) := by
  obtain ⟨next, contract, hid, _, hp⟩ := recordOrder_cases h
  have hnext : p.api.mOrderId = next := by
    obtain ⟨_, _, _, hp⟩ | ⟨_, _, hp⟩ := hp <;> rw [hp]
  rw [hnext]
  rw [IBApi.assignId] at hid
  split at hid
  · next hunset =>
    obtain ⟨hmax, hpair⟩ := postIncr_eq_ok.mp hid
    obtain ⟨hfirst, rfl⟩ := Prod.mk.inj hpair
    exact .inl ⟨hunset, hmax, hfirst, rfl⟩
  · next hset =>
    obtain ⟨hfirst, rfl⟩ := Prod.mk.inj (Except.ok.inj hid)
    exact .inr ⟨by simpa using hset, hfirst.symm, rfl⟩

theorem recordOrder_records {api : IBApi} {req : OrderReq} {p : Placing}
    (h : api.recordOrder req = .ok p) : Records api.orders p.api.orders p.announce.toList := by
  obtain ⟨next, contract, _, _, ⟨r, _, ha, hp⟩ | ⟨hnone, ha, hp⟩⟩ := recordOrder_cases h
  · rw [ha, hp]
    exact .same
  · rw [ha, hp]
    refine .set _ fun r hr => ?_
    change api.orders.find? p.orderId = some r at hr
    rw [hnone] at hr
    cases hr

theorem sendOrder_eq_ok {api : IBApi} {req : OrderReq} {id : OrderId} {out : Out} :
    api.sendOrder req = .ok (id, out) ↔ ∃ p, api.recordOrder req = .ok p ∧ id = p.orderId ∧
      out = { api := p.api, events := p.announce.toList.map .orderData, client := [p.place] } := by
  rw [IBApi.sendOrder, bind_eq_ok]
  refine exists_congr fun p => and_congr_right fun _ => ?_
  simp only [Except.ok.injEq, Prod.mk.injEq, eq_comm]

theorem sendOrder_new {api : IBApi} {req : OrderReq} {contract : Contract}
    (hcontract : generateContract req.symbol = .ok contract)
    (hunset : isUnsetLlong req.orderId = true) (h : api.mOrderId ≠ unsetLong) :
    ∃ out, api.sendOrder req = .ok (api.mOrderId, out) ∧ out.api.mOrderId = api.mOrderId + 1 := by
  have hid : api.assignId req = .ok (api.mOrderId, api.mOrderId + 1) := by
    rw [IBApi.assignId, if_pos hunset]
    exact postIncr_eq_ok.mpr ⟨h, rfl⟩
  have hrecord : ∃ p, api.recordOrder req = .ok p ∧ p.orderId = api.mOrderId ∧
      p.api.mOrderId = api.mOrderId + 1 := by
    simp only [IBApi.recordOrder, hcontract, hid, bind, Except.bind]
    split <;> exact ⟨_, rfl, rfl, rfl⟩
  obtain ⟨p, hp, hpid, hnext⟩ := hrecord
  exact ⟨_, sendOrder_eq_ok.mpr ⟨p, hp, hpid.symm, rfl⟩, hnext⟩

theorem orderEvents_map_orderData (ds : List OrderData) :
    orderEvents (ds.map .orderData) = ds := by
  induction ds with
  | nil => rfl
  | cons d ds ih => simp [Event.orderData?, ih]

theorem sendOrder_records {api : IBApi} {req : OrderReq} {id : OrderId} {out : Out}
    (h : api.sendOrder req = .ok (id, out)) :
    Records api.orders out.api.orders (orderEvents out.events) := by
  obtain ⟨p, hp, rfl, rfl⟩ := sendOrder_eq_ok.mp h
  rw [orderEvents_map_orderData]
  exact recordOrder_records hp

namespace Records

variable {before after : Orders} {ds : List OrderData}

theorem published (h : Records before after ds) {d : OrderData} (hd : d ∈ ds) :
    after.find? d.orderId = some d := by
  cases h with
  | same => simp at hd
  | set e he =>
    rw [List.mem_singleton.mp hd]
    exact Orders.find?_set_self _ _

theorem kept (h : Records before after ds) {id : OrderId} {r : OrderData}
    (hr : before.find? id = some r) : ∃ d, after.find? id = some d ∧ SameOrder r d := by
  cases h with
  | same => exact ⟨r, hr, rfl⟩
  | set e he =>
    by_cases hid : id = e.orderId
    · subst hid
      exact ⟨e, Orders.find?_set_self _ _, he r hr⟩
    · exact ⟨r, by rwa [Orders.find?_set_ne _ hid], rfl⟩

end Records

def Known (orders : Orders) (d : OrderData) : Prop :=
  ∃ r, orders.find? d.orderId = some r ∧ SameOrder d r

theorem Known.kept {before after : Orders} {ds : List OrderData} (h : Records before after ds)
    {d : OrderData} (hd : Known before d) : Known after d := by
  obtain ⟨r, hr, hsame⟩ := hd
  obtain ⟨r', hr', hsame'⟩ := h.kept hr
  exact ⟨r', hr', hsame.trans hsame'⟩

theorem Known.published {before after : Orders} {ds : List OrderData}
    (h : Records before after ds) {d : OrderData} (hd : d ∈ ds) : Known after d :=
  ⟨d, h.published hd, rfl⟩

theorem Known.same {orders : Orders} {d r : OrderData} (hd : Known orders d)
    (hr : Known orders r) (hid : r.orderId = d.orderId) : SameOrder r d := by
  obtain ⟨x, hx, hdx⟩ := hd
  obtain ⟨y, hy, hry⟩ := hr
  rw [hid, hx] at hy
  cases hy
  exact hry.trans hdx.symm

end CalmTrading.OrderRecords
