import CalmTrading.Lib.History
import CalmTrading.Lib.Machine
import CalmTrading.OrderRecords

namespace CalmTrading.OrderHistory

open Lib Lib.History Objects Utils Gateway OrderRecords

/-- A call as it went into the history of a gateway; a `send_order` is entered
with the id it was given. -/
inductive Entry
  | sent (orderId : OrderId) (req : OrderReq)
  | called (c : Callback)

namespace Entry

def sends (id : OrderId) : Entry → Bool
  | .sent j _ => j = id
  | .called _ => false

def req? : Entry → Option OrderReq
  | .sent _ req => some req
  | .called _ => none

def status? (id : OrderId) : Entry → Option (OrderStatus × Double × Double)
  | .called (.orderStatus j status filled avg) =>
    if j = id then (orderStatusToCalm status).map fun st => (st, filled, avg) else none
  | _ => none

def commission? (id : OrderId) : Entry → Option Double
  | .called (.openOrder j commission) =>
    if j = id ∧ isUnsetDouble commission = false then some commission else none
  | _ => none

def errorCode? (id : OrderId) : Entry → Option Int
  | .called (.error msg) => if msg.id = id then some msg.errorCode else none
  | _ => none

end Entry

def heard (id : OrderId) (h : List Entry) : List Entry := since (Entry.sends id) h

def firstReq (id : OrderId) (h : List Entry) : Option OrderReq := (heard id h).head?.bind Entry.req?

/-- The record agrees with the history of its order. -/
structure Carries (h : List Entry) (d : OrderData) : Prop where
  first : ∃ req, firstReq d.orderId h = some req ∧
    d.symbol = req.symbol ∧ d.source = req.source ∧ d.action = req.action
  status : (d.status, d.tradedQuantity, d.avgTradePrice) =
    lastOf (Entry.status? d.orderId) (.pendingSubmit, 0, 0) (heard d.orderId h)
  commission : d.commission = lastOf (Entry.commission? d.orderId) 0 (heard d.orderId h)
  commissionSet : d.commission ≠ unsetDouble
  errorCode : d.errorCode = lastOf (Entry.errorCode? d.orderId) 0 (heard d.orderId h)

def Sent (h : List Entry) (id : OrderId) : Prop := ∃ e ∈ h, e.sends id = true

theorem heard_snoc {h : List Entry} {id : OrderId} (hs : Sent h id) (e : Entry) :
    heard id (h ++ [e]) = heard id h ++ [e] := since_snoc_of_mem hs e

theorem firstReq_snoc {h : List Entry} {id : OrderId} (hs : Sent h id) (e : Entry) :
    firstReq id (h ++ [e]) = firstReq id h := by
  have hne : heard id h ≠ [] := fun he => since_eq_nil.mp he hs
  rw [firstReq, heard_snoc hs]
  cases hh : heard id h with
  | nil => exact absurd hh hne
  | cons a l => simp [firstReq, hh]

theorem sent_of_firstReq {h : List Entry} {id : OrderId} {req : OrderReq}
    (hr : firstReq id h = some req) : Sent h id := by
  by_contra hs
  rw [firstReq, heard, since_eq_nil.mpr hs] at hr
  cases hr

theorem Carries.sent {h : List Entry} {d : OrderData} (hc : Carries h d) : Sent h d.orderId := by
  obtain ⟨req, hr, _⟩ := hc.first
  exact sent_of_firstReq hr

/-- What one more entry does to a record that agreed so far. -/
theorem Carries.snoc {h : List Entry} {d d' : OrderData} (hc : Carries h d) (e : Entry)
    (hd : SameOrder d d')
    (hstatus : (d'.status, d'.tradedQuantity, d'.avgTradePrice) =
      (e.status? d.orderId).getD (d.status, d.tradedQuantity, d.avgTradePrice))
    (hcommission : d'.commission = (e.commission? d.orderId).getD d.commission)
    (hset : d'.commission ≠ unsetDouble)
    (herror : d'.errorCode = (e.errorCode? d.orderId).getD d.errorCode) :
    Carries (h ++ [e]) d' := by
  have hs := hc.sent
  obtain ⟨req, hr, h1, h2, h3⟩ := hc.first
  refine ⟨⟨req, ?_, hd.symbol ▸ h1, hd.source ▸ h2, hd.action ▸ h3⟩, ?_, ?_, hset, ?_⟩
  · rw [← hd.orderId, firstReq_snoc hs, hr]
  · rw [← hd.orderId, heard_snoc hs, lastOf_snoc, ← hc.status, hstatus]
  · rw [← hd.orderId, heard_snoc hs, lastOf_snoc, ← hc.commission, hcommission]
  · rw [← hd.orderId, heard_snoc hs, lastOf_snoc, ← hc.errorCode, herror]

theorem Carries.other {h : List Entry} {d : OrderData} (hc : Carries h d) {e : Entry}
    (hstatus : e.status? d.orderId = none) (hcommission : e.commission? d.orderId = none)
    (herror : e.errorCode? d.orderId = none) : Carries (h ++ [e]) d :=
  hc.snoc e rfl (by simp [hstatus]) (by simp [hcommission]) hc.commissionSet
    (by simp [herror])

theorem Carries.new {h : List Entry} {id : OrderId} {req : OrderReq} (hs : ¬ Sent h id) :
    Carries (h ++ [.sent id req]) (newOrderData id req) := by
  have hh : heard id (h ++ [.sent id req]) = [.sent id req] :=
    since_snoc_first hs (by simp [Entry.sends])
  refine ⟨⟨req, ?_, rfl, rfl, rfl⟩, ?_, ?_, ?_, ?_⟩
  · simp [newOrderData, firstReq, hh, Entry.req?]
  · simp [newOrderData, hh, lastOf, Entry.status?]
  · simp [newOrderData, hh, lastOf, Entry.commission?]
  · show (0 : Double) ≠ unsetDouble
    decide +kernel
  · simp [newOrderData, hh, lastOf, Entry.errorCode?]

inductive Call
  | sendOrder (req : OrderReq)
  | callback (c : Callback)

structure Log where
  api : IBApi
  history : List Entry
  emitted : List OrderData

def step (s : Log) : Call → Option Log
  | .sendOrder req =>
    match s.api.sendOrder req with
    | .ok (id, out) => some ⟨out.api, s.history ++ [.sent id req], orderEvents out.events⟩
    | .error _ => none
  | .callback c =>
    match s.api.callback c with
    | .ok out => some ⟨out.api, s.history ++ [.called c], orderEvents out.events⟩
    | .error _ => none

/-- A gateway from its construction on, under any order of calls. `emitted`
holds the order events of the last call. -/
def gateway : Machine Log Call where
  init := ⟨{}, [], []⟩
  step := step

structure Faithful (s : Log) : Prop where
  records : ∀ id d, s.api.orders.find? id = some d → Carries s.history d
  sent : ∀ id, Sent s.history id → ∃ d, s.api.orders.find? id = some d
  emitted : ∀ d ∈ s.emitted, s.api.orders.find? d.orderId = some d

theorem sent_called {h : List Entry} {c : Callback} {id : OrderId} :
    Sent (h ++ [.called c]) id ↔ Sent h id := by
  simp [Sent, Entry.sends, or_and_right, exists_or]

theorem sent_sent {h : List Entry} {j id : OrderId} {req : OrderReq} :
    Sent (h ++ [.sent j req]) id ↔ Sent h id ∨ j = id := by
  simp [Sent, Entry.sends, or_and_right, exists_or]

theorem Faithful.find?_iff {s : Log} (hs : Faithful s) (id : OrderId) :
    (∃ d, s.api.orders.find? id = some d) ↔ Sent s.history id := by
  constructor
  · rintro ⟨d, hd⟩
    have h := (hs.records id d hd).sent
    rwa [Orders.orderId_of_find? hd] at h
  · exact hs.sent id

theorem Faithful.quiet {s : Log} (hs : Faithful s) {api : IBApi} (c : Callback)
    (horders : api.orders = s.api.orders)
    (hc : ∀ d, Carries s.history d → Carries (s.history ++ [.called c]) d) :
    Faithful ⟨api, s.history ++ [.called c], []⟩ where
  records id d hd := hc d (hs.records id d (horders ▸ hd))
  sent id h := by
    obtain ⟨d, hd⟩ := hs.sent id (sent_called.mp h)
    exact ⟨d, horders ▸ hd⟩
  emitted := by simp

theorem Faithful.update {s : Log} (hs : Faithful s) (c : Callback) (id : OrderId)
    {f : OrderData → OrderData} (hf : ∀ d, SameOrder d (f d))
    (hid : ∀ d, d.orderId = id → Carries s.history d → Carries (s.history ++ [.called c]) (f d))
    (hother : ∀ d, d.orderId ≠ id → Carries s.history d → Carries (s.history ++ [.called c]) d) :
    Faithful ⟨(s.api.updateOrder id f).api, s.history ++ [.called c],
      orderEvents (s.api.updateOrder id f).events⟩ := by
  obtain ⟨hnone, h⟩ | ⟨r, hr, hrid, h⟩ := updateOrder_cases s.api id f
  · rw [h]
    refine hs.quiet c rfl fun d hd => hother d ?_ hd
    rintro rfl
    obtain ⟨d', hd'⟩ := hs.sent _ hd.sent
    rw [hnone] at hd'
    cases hd'
  · rw [h]
    have hfr : (f r).orderId = id := (hf r).orderId ▸ hrid
    refine ⟨fun j d hd => ?_, fun j hj => ?_, fun d hd => ?_⟩
    · rw [Orders.find?_set, hfr] at hd
      split at hd
      · cases hd
        exact hid r hrid (hs.records id r hr)
      · next hj => exact hother d (Orders.orderId_of_find? hd ▸ hj) (hs.records j d hd)
    · rw [Orders.find?_set]
      split
      · exact ⟨f r, rfl⟩
      · exact hs.sent j (sent_called.mp hj)
    · rw [List.mem_singleton.mp hd]
      exact Orders.find?_set_self _ _

theorem Faithful.orderStatus {s : Log} (hs : Faithful s) (id : OrderId) (status : String)
    {st : OrderStatus} (hst : orderStatusToCalm status = some st) (filled avg : Double) :
    Faithful ⟨(s.api.updateOrder id fun d =>
        { d with status := st, tradedQuantity := filled, avgTradePrice := avg }).api,
      s.history ++ [.called (.orderStatus id status filled avg)],
      orderEvents (s.api.updateOrder id fun d =>
        { d with status := st, tradedQuantity := filled, avgTradePrice := avg }).events⟩ := by
  refine hs.update _ id (fun d => rfl) (fun d hd hc => ?_)
    fun d hd hc => ?_
  · exact hc.snoc _ rfl (by simp [Entry.status?, hd, hst])
      (by simp [Entry.commission?]) hc.commissionSet (by simp [Entry.errorCode?])
  · exact hc.other (by simp [Entry.status?, Ne.symm hd]) rfl rfl

theorem Faithful.openOrder {s : Log} (hs : Faithful s) (id : OrderId) (commission : Double) :
    Faithful ⟨(s.api.openOrder id commission).api,
      s.history ++ [.called (.openOrder id commission)],
      orderEvents (s.api.openOrder id commission).events⟩ := by
  rw [IBApi.openOrder]
  cases hset : isUnsetDouble commission with
  | true =>
    exact hs.quiet _ rfl fun d hc => hc.other rfl (by simp [Entry.commission?, hset]) rfl
  | false =>
    refine hs.update _ id (fun d => rfl) (fun d hd hc => ?_)
      fun d hd hc => ?_
    · have hne : commission ≠ unsetDouble := by simpa [isUnsetDouble] using hset
      exact hc.snoc _ rfl (by simp [Entry.status?])
        (by simp [Entry.commission?, hd, hset]) hne (by simp [Entry.errorCode?])
    · exact hc.other rfl (by simp [Entry.commission?, Ne.symm hd]) rfl

theorem Faithful.error {s : Log} (hs : Faithful s) (msg : ErrMsg) :
    Faithful ⟨(s.api.error msg).api, s.history ++ [.called (.error msg)],
      orderEvents (s.api.error msg).events⟩ := by
  refine hs.update (.error msg) msg.id (fun d => rfl)
    (fun d hd hc => ?_) fun d hd hc => ?_
  · exact hc.snoc _ rfl (by simp [Entry.status?])
      (by simp [Entry.commission?]) hc.commissionSet (by simp [Entry.errorCode?, hd])
  · exact hc.other rfl rfl (by simp [Entry.errorCode?, Ne.symm hd])

theorem Faithful.callback {s : Log} (hs : Faithful s) {c : Callback} {out : Out}
    (h : s.api.callback c = .ok out) :
    Faithful ⟨out.api, s.history ++ [.called c], orderEvents out.events⟩ := by
  cases c with
  | nextValidId id => cases h; exact hs.quiet _ rfl fun d hc => hc.other rfl rfl rfl
  | tickByTickBidAsk reqId time bidPrice askPrice bidSize askSize =>
    cases h
    simp only [IBApi.tickByTickBidAsk, updateTick_orders]
    exact hs.quiet _ (updateTick_orders _ _ _).1 fun d hc => hc.other rfl rfl rfl
  | tickByTickAllLast reqId time price size =>
    cases h
    simp only [IBApi.tickByTickAllLast, updateTick_orders]
    exact hs.quiet _ (updateTick_orders _ _ _).1 fun d hc => hc.other rfl rfl rfl
  | error msg => cases h; exact hs.error msg
  | openOrder id commission => cases h; exact hs.openOrder id commission
  | orderStatus id status filled avg =>
    simp only [IBApi.callback, IBApi.orderStatus] at h
    split at h
    · cases h
    · next st hst =>
      cases h
      exact hs.orderStatus id status hst filled avg
  | historicalData bar => cases h; exact hs.quiet _ rfl fun d hc => hc.other rfl rfl rfl
  | historicalDataEnd barEnd => cases h; exact hs.quiet _ rfl fun d hc => hc.other rfl rfl rfl

theorem Faithful.sendOrder {s : Log} (hs : Faithful s) {req : OrderReq} {id : OrderId} {out : Out}
    (h : s.api.sendOrder req = .ok (id, out)) :
    Faithful ⟨out.api, s.history ++ [.sent id req], orderEvents out.events⟩ := by
  have hold : ∀ d, Carries s.history d → Carries (s.history ++ [.sent id req]) d :=
    fun d hc => hc.other rfl rfl rfl
  obtain ⟨p, hp, rfl, rfl⟩ := sendOrder_eq_ok.mp h
  obtain ⟨next, contract, _, _, ⟨r, hr, ha, happ⟩ | ⟨hnone, ha, happ⟩⟩ := recordOrder_cases hp
  · rw [ha, happ]
    refine ⟨fun j d hd => hold d (hs.records j d hd), fun j hj => ?_, by simp [orderEvents]⟩
    obtain hj | rfl := sent_sent.mp hj
    · exact hs.sent j hj
    · exact ⟨r, hr⟩
  · have hns : ¬ Sent s.history p.orderId := fun hsent => by
      obtain ⟨d, hd⟩ := hs.sent _ hsent
      rw [hnone] at hd
      cases hd
    rw [ha, happ, orderEvents_map_orderData]
    refine ⟨fun j d hd => ?_, fun j hj => ?_, fun d hd => ?_⟩
    · rw [Orders.find?_set] at hd
      split at hd
      · cases hd
        exact .new hns
      · exact hold d (hs.records j d hd)
    · rw [Orders.find?_set]
      split
      · exact ⟨_, rfl⟩
      · next hne =>
        exact hs.sent j ((sent_sent.mp hj).resolve_right fun he => hne (by simp [he, newOrderData]))
    · have hd' : d = newOrderData p.orderId req := by simpa using hd
      rw [hd']
      exact Orders.find?_set_self _ _

theorem Faithful.step {s t : Log} {a : Call} (hs : Faithful s) (h : gateway.step s a = some t) :
    Faithful t := by
  cases a with
  | sendOrder req =>
    simp only [gateway, OrderHistory.step] at h
    split at h
    · next id out hout => cases h; exact hs.sendOrder hout
    · cases h
  | callback c =>
    simp only [gateway, OrderHistory.step] at h
    split at h
    · next out hout => cases h; exact hs.callback hout
    · cases h

theorem faithful {s : Log} (h : gateway.Reachable s) : Faithful s :=
  Machine.Reaches.invariant ⟨by simp [gateway], by simp [gateway, Sent], by simp [gateway]⟩
    (fun _ _ _ _ hs _ ht => hs.step ht) h

/-- Every order event agrees with the history of its order at that moment, and
a callback touches at most the record of its own, known, order. -/
theorem order_events_follow_history {s t : Log} {a : Call} (hs : gateway.Reachable s)
    (ht : gateway.step s a = some t) :
    (∀ d ∈ t.emitted, Carries t.history d) ∧
    (∀ c id, a = .callback c → orderId? c = some id → ¬ Sent s.history id →
      t.api.orders = s.api.orders ∧ t.emitted = []) ∧
    ∀ c id j, a = .callback c → orderId? c = some id → j ≠ id →
      t.api.orders.find? j = s.api.orders.find? j := by
  have hft := faithful (hs.step ht)
  refine ⟨fun d hd => hft.records _ d (hft.emitted d hd), ?_, ?_⟩
  · rintro c id rfl hc hid
    have hnone : s.api.orders.find? id = none :=
      Option.eq_none_iff_forall_ne_some.mpr fun d hd =>
        hid (((faithful hs).find?_iff id).mp ⟨d, hd⟩)
    simp only [gateway, step] at ht
    split at ht
    · next out hout =>
      cases ht
      exact (callback_reports hout).unknown hc hnone
    · cases ht
  · rintro c id j rfl hc hj
    simp only [gateway, step] at ht
    split at ht
    · next out hout =>
      cases ht
      exact (callback_reports hout).other hc hj
    · cases ht

def buyReq : OrderReq where
  symbol := "6758-STK-JPY.TSEJ"
  source := "algo_engine"
  action := .buy
  orderType := .market
  quantity := 100

/-- An order is sent, filled in part, and then reported with its commission. -/
def partFill : List Call :=
  [.callback (.nextValidId 1), .sendOrder buyReq,
    .callback (.orderStatus 1 "Submitted" 40 25)]

def partFilled : Log := gateway.stateAfter partFill (by decide +kernel)

def commissioned : Log :=
  (gateway.step partFilled (.callback (.openOrder 1 3))).get (by decide +kernel)

theorem order_events_follow_history_commissioned :
    (commissioned.emitted.map fun d => (d.status, d.tradedQuantity, d.commission)) =
      [(.submitted, 40, 3)] ∧
    ∀ d ∈ commissioned.emitted, Carries commissioned.history d :=
  ⟨by decide +kernel,
    (order_events_follow_history (Machine.reachable_stateAfter _) (Option.some_get _).symm).1⟩

end CalmTrading.OrderHistory
