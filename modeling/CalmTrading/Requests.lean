import CalmTrading.Gateway

namespace CalmTrading.Requests

open Lib Objects Utils Gateway

theorem subscribe_cases {api : IBApi} {symbol : String} {delayed : Bool} {out : Out}
    (h : api.subscribe symbol delayed = .ok out) :
    out = { api := api } ∧ (api.running = false ∨ symbol ∈ api.sym2reqIds) ∨
    api.running = true ∧ symbol ∉ api.sym2reqIds ∧
      ∃ contract, generateContract symbol = .ok contract ∧
        out.api = { api with
          sym2reqIds := api.sym2reqIds.insert symbol (api.mReqId, api.mReqId + 1)
          reqId2sym := (api.reqId2sym.insert api.mReqId symbol).insert (api.mReqId + 1) symbol
          ticks := api.ticks.insert symbol { symbol := symbol }
          mReqId := api.mReqId + 1 + 1 } ∧
        out.events = [] ∧
        out.client = [.reqMarketDataType (if delayed then 4 else 1),
          .reqTickByTickData api.mReqId contract "Last",
          .reqTickByTickData (api.mReqId + 1) contract "BidAsk"] := by
  rw [IBApi.subscribe] at h
  split at h
  · next hdown =>
    cases h
    exact .inl ⟨rfl, .inl (by simpa using hdown)⟩
  next hrunning =>
    split at h
    · next hknown =>
      cases h
      exact .inl ⟨rfl, .inr hknown⟩
    next hnew =>
      obtain ⟨contract, hcontract, h⟩ := bind_eq_ok.mp h
      obtain ⟨p, hp, h⟩ := bind_eq_ok.mp h
      obtain ⟨_, rfl⟩ := postIncr_eq_ok.mp hp
      obtain ⟨q, hq, h⟩ := bind_eq_ok.mp h
      obtain ⟨_, rfl⟩ := postIncr_eq_ok.mp hq
      cases h
      exact .inr ⟨by simpa using hrunning, hnew, contract, hcontract, rfl, rfl, rfl⟩

theorem reqHistoricalBar_eq_ok {api : IBApi} {symbol endTime duration barSize wts : String}
    {useRth format reqId : Int} {out : Out}
    (h : api.reqHistoricalBar symbol endTime duration barSize wts useRth format =
      .ok (reqId, out)) :
    reqId = api.mReqId ∧ ∃ contract, out =
      { api := { api with mReqId := api.mReqId + 1 }
        client :=
          [.reqHistoricalData api.mReqId contract endTime duration barSize wts useRth format] } := by
  obtain ⟨contract, _, h⟩ := bind_eq_ok.mp h
  obtain ⟨⟨id, next⟩, hid, h⟩ := bind_eq_ok.mp h
  obtain ⟨_, hpair⟩ := postIncr_eq_ok.mp hid
  cases hpair
  cases h
  exact ⟨by omega, contract, rfl⟩

theorem reqContractDetails_eq_ok {api : IBApi} {symbol : String} {out : Out}
    (h : api.reqContractDetails symbol = .ok out) :
    ∃ contract, out =
      { api := { api with mReqId := api.mReqId + 1 }
        client := [.reqContractDetails api.mReqId contract] } := by
  obtain ⟨contract, _, h⟩ := bind_eq_ok.mp h
  obtain ⟨p, hp, h⟩ := bind_eq_ok.mp h
  obtain ⟨_, rfl⟩ := postIncr_eq_ok.mp hp
  cases h
  exact ⟨contract, rfl⟩

/-- A call that requests nothing and draws no id. -/
structure SameCounters (api : IBApi) (out : Out) : Prop where
  client : out.client = []
  mReqId : out.api.mReqId = api.mReqId
  mOrderId : out.api.mOrderId = api.mOrderId

theorem updateTick_sameCounters (api : IBApi) (reqId : Int) (f : TickData → TickData) :
    SameCounters api (api.updateTick reqId f) := by
  rw [IBApi.updateTick]
  split <;> exact ⟨rfl, rfl, rfl⟩

theorem updateOrder_sameCounters (api : IBApi) (id : OrderId) (f : OrderData → OrderData) :
    SameCounters api (api.updateOrder id f) := by
  rw [IBApi.updateOrder]
  split <;> exact ⟨rfl, rfl, rfl⟩

/-- Only `nextValidId` sets a counter. -/
theorem callback_sameCounters {api : IBApi} {c : Callback} {out : Out}
    (h : api.callback c = .ok out) (hc : ∀ id, c ≠ .nextValidId id) : SameCounters api out := by
  cases c with
  | nextValidId id => exact absurd rfl (hc id)
  | historicalData bar | historicalDataEnd barEnd =>
    cases h
    exact ⟨rfl, rfl, rfl⟩
  | tickByTickBidAsk | tickByTickAllLast =>
    cases h
    exact updateTick_sameCounters _ _ _
  | error msg =>
    cases h
    obtain ⟨hclient, hreq, horder⟩ := updateOrder_sameCounters api msg.id fun d =>
      { d with errorCode := msg.errorCode }
    exact ⟨hclient, hreq, horder⟩
  | openOrder id commission =>
    cases h
    rw [IBApi.openOrder]
    split
    · exact ⟨rfl, rfl, rfl⟩
    · exact updateOrder_sameCounters _ _ _
  | orderStatus id status filled avg =>
    simp only [IBApi.callback, IBApi.orderStatus] at h
    split at h <;> cases h
    exact updateOrder_sameCounters _ _ _

end CalmTrading.Requests
