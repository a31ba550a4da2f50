import CalmTrading.Lib.Machine
import CalmTrading.Risk

namespace CalmTrading.OrderFlow

open Lib Objects Utils Gateway OrderRecords Risk

/-- The trading engine with the calls of `send_order` between its check and the
gateway. `live` is history: the forwarded orders for which no inactive status
has been processed since. -/
structure Flow where
  engine : TradingEngine
  admitted : List OrderReq := []
  queue : List Event := []
  live : List OrderId := []

inductive Move
  | reprice (algoPnl : Table String Double) (totalPnl : Double)
  | check (req : OrderReq)
  | forward (i : Nat)
  | callback (c : Callback)
  | post (e : Event)
  | dispatch

def ends (e : Event) (id : OrderId) : Bool :=
  match e with
  | .orderData d => !isActiveOrder d.status && d.orderId = id
  | _ => false

/-- Only new orders are sent: their id is left unset. -/
def step (s : Flow) : Move → Option Flow
  | .reprice algoPnl totalPnl => some { s with engine := s.engine.reprice algoPnl totalPnl }
  | .check req =>
    if isUnsetLlong req.orderId then
      let (passed, engine) := s.engine.screen req
      some
        { s with
          engine := engine
          admitted := if passed then s.admitted ++ [req] else s.admitted }
    else none
  | .forward i =>
    match s.admitted[i]? with
    | none => none
    | some req =>
      (s.engine.forward req).toOption.map fun (orderId, engine, events, _) =>
        { engine := engine
          admitted := s.admitted.eraseIdx i
          queue := s.queue ++ events
          live := orderId :: s.live }
  | .callback c =>
    (s.engine.api.callback c).toOption.map fun out =>
      { s with engine := { s.engine with api := out.api }, queue := s.queue ++ out.events }
  | .post e => if e.orderData? = none then some { s with queue := s.queue ++ [e] } else none
  | .dispatch =>
    match s.queue with
    | [] => none
    | e :: rest =>
      some
        { s with
          engine := { s.engine with risk := s.engine.risk.eventEngineOrderCb e }
          queue := rest
          live := s.live.filter fun id => !ends e id }

def orderFlow (limits : Limits) : Machine Flow Move where
  init := { engine := { risk := { limits with } } }
  step := step

inductive Moved (s : Flow) : Move → Flow → Prop
  | reprice (algoPnl : Table String Double) (totalPnl : Double) :
      Moved s (.reprice algoPnl totalPnl) { s with engine := s.engine.reprice algoPnl totalPnl }
  | refused {req : OrderReq} (hreq : req.orderId = unsetLong)
      (hapi : (s.engine.screen req).2.api = s.engine.api)
      (hrisk : (s.engine.screen req).2.risk = s.engine.risk) :
      Moved s (.check req) { s with engine := (s.engine.screen req).2 }
  | passed {req : OrderReq} (hreq : req.orderId = unsetLong)
      (hapi : (s.engine.screen req).2.api = s.engine.api)
      (hroom : s.engine.risk.activeOrders.card < s.engine.risk.orderFlowLmt.toNat)
      (hrisk : (s.engine.screen req).2.risk =
        { s.engine.risk with activeOrders := insert req.orderId s.engine.risk.activeOrders }) :
      Moved s (.check req)
        { s with engine := (s.engine.screen req).2, admitted := s.admitted ++ [req] }
  | forward {i : Nat} {req : OrderReq} {orderId : OrderId} {out : Out}
      (hi : s.admitted[i]? = some req) (hout : s.engine.api.sendOrder req = .ok (orderId, out)) :
      Moved s (.forward i)
        { engine := { s.engine with api := out.api }
          admitted := s.admitted.eraseIdx i
          queue := s.queue ++ out.events
          live := orderId :: s.live }
  | callback {c : Callback} {out : Out} (hout : s.engine.api.callback c = .ok out) :
      Moved s (.callback c)
        { s with engine := { s.engine with api := out.api }, queue := s.queue ++ out.events }
  | post {e : Event} (he : e.orderData? = none) :
      Moved s (.post e) { s with queue := s.queue ++ [e] }
  | dispatch {e : Event} {rest : List Event} (hq : s.queue = e :: rest) :
      Moved s .dispatch
        { s with
          engine := { s.engine with risk := s.engine.risk.eventEngineOrderCb e }
          queue := rest
          live := s.live.filter fun id => !ends e id }

theorem step_moved {limits : Limits} {s t : Flow} {a : Move}
    (ht : (orderFlow limits).step s a = some t) : Moved s a t := by
  cases a with
  | reprice algoPnl totalPnl =>
    cases ht
    exact .reprice algoPnl totalPnl
  | check req =>
    simp only [orderFlow, OrderFlow.step] at ht
    split at ht
    · next hunset =>
      cases ht
      have hreq : req.orderId = unsetLong := by simpa [isUnsetLlong] using hunset
      obtain ⟨hp, hapi, hrisk⟩ | ⟨hp, hapi, hroom, hrisk⟩ := screen_cases s.engine req
      · simp only [hp, Bool.false_eq_true, if_false]
        exact .refused hreq hapi hrisk
      · simp only [hp, if_true]
        exact .passed hreq hapi hroom hrisk
    · cases ht
  | forward i =>
    simp only [orderFlow, OrderFlow.step] at ht
    split at ht
    · cases ht
    · next req hi =>
      obtain ⟨⟨id, engine, events, client⟩, hf, rfl⟩ := toOption_map_eq_some.mp ht
      obtain ⟨out, hout, rfl, rfl, rfl⟩ := forward_eq_ok.mp hf
      exact .forward hi hout
  | callback c =>
    obtain ⟨out, hout, rfl⟩ := toOption_map_eq_some.mp ht
    exact .callback hout
  | post e =>
    simp only [orderFlow, OrderFlow.step] at ht
    split at ht
    · next he =>
      cases ht
      exact .post he
    · cases ht
  | dispatch =>
    simp only [orderFlow, OrderFlow.step] at ht
    split at ht
    · cases ht
    · next hq =>
      cases ht
      exact .dispatch hq

/-- No order has the unset id, on record or in an event. -/
structure Assigned (s : Flow) : Prop where
  orders : s.engine.api.orders.find? unsetLong = none
  queue : ∀ d ∈ orderEvents s.queue, d.orderId ≠ unsetLong
  admitted : ∀ req ∈ s.admitted, req.orderId = unsetLong

theorem sendOrder_assigned {api : IBApi} {req : OrderReq} {id : OrderId} {out : Out}
    (h : api.sendOrder req = .ok (id, out)) (horders : api.orders.find? unsetLong = none) :
    id ≠ unsetLong ∧ out.api.orders.find? unsetLong = none ∧
      ∀ d ∈ orderEvents out.events, d.orderId ≠ unsetLong := by
  obtain ⟨p, hp, rfl, rfl⟩ := sendOrder_eq_ok.mp h
  obtain ⟨next, contract, _, _, hcases⟩ := recordOrder_cases hp
  have hne : p.orderId ≠ unsetLong := by
    obtain ⟨_, hmax, hid, _⟩ | ⟨hset, hid, _⟩ := recordOrder_mOrderId hp
    · exact hid ▸ hmax
    · rw [hid]
      simpa [isUnsetLlong] using hset
  refine ⟨hne, ?_⟩
  rw [orderEvents_map_orderData]
  obtain ⟨r, _, ha, happ⟩ | ⟨_, ha, happ⟩ := hcases
  · rw [ha, happ]
    exact ⟨horders, by simp⟩
  · rw [ha, happ]
    refine ⟨?_, by simpa [newOrderData] using hne⟩
    rw [← horders]
    exact Orders.find?_set_ne _ (Ne.symm hne)

theorem callback_assigned {api : IBApi} {c : Callback} {out : Out} (h : api.callback c = .ok out)
    (horders : api.orders.find? unsetLong = none) :
    out.api.orders.find? unsetLong = none ∧
      ∀ d ∈ orderEvents out.events, d.orderId ≠ unsetLong := by
  have hreports := callback_reports h
  refine ⟨hreports.absent horders, fun d hd hunset => ?_⟩
  obtain ⟨_, r, hr⟩ := hreports.about hd
  rw [hunset, horders] at hr
  cases hr

theorem assigned_append {es fs : List Event} (hes : ∀ d ∈ orderEvents es, d.orderId ≠ unsetLong)
    (hfs : ∀ d ∈ orderEvents fs, d.orderId ≠ unsetLong) :
    ∀ d ∈ orderEvents (es ++ fs), d.orderId ≠ unsetLong := by
  intro d hd
  rw [orderEvents_append, List.mem_append] at hd
  exact hd.elim (hes d) (hfs d)

theorem Assigned.step {limits : Limits} {s t : Flow} {a : Move} (h : Assigned s)
    (ht : (orderFlow limits).step s a = some t) : Assigned t := by
  cases step_moved ht with
  | reprice _ _ => exact ⟨h.orders, h.queue, h.admitted⟩
  | refused _ hapi _ => exact ⟨hapi ▸ h.orders, h.queue, h.admitted⟩
  | passed hreq hapi _ _ =>
    refine ⟨hapi ▸ h.orders, h.queue, fun r hr => ?_⟩
    obtain hr | hr := List.mem_append.mp hr
    · exact h.admitted r hr
    · exact List.mem_singleton.mp hr ▸ hreq
  | forward _ hout =>
    obtain ⟨_, horders, hevents⟩ := sendOrder_assigned hout h.orders
    refine ⟨horders, assigned_append h.queue hevents, fun r hr => ?_⟩
    exact h.admitted r (List.mem_of_mem_eraseIdx hr)
  | callback hout =>
    obtain ⟨horders, hevents⟩ := callback_assigned hout h.orders
    exact ⟨horders, assigned_append h.queue hevents, h.admitted⟩
  | post he => exact ⟨h.orders, by simpa [he] using h.queue, h.admitted⟩
  | dispatch hq =>
    refine ⟨h.orders, fun d hd => h.queue d ?_, h.admitted⟩
    rw [hq, orderEvents_cons]
    exact List.mem_append_right _ hd

theorem assigned {limits : Limits} {s : Flow} (hs : (orderFlow limits).Reachable s) :
    Assigned s :=
  Machine.Reaches.invariant ⟨rfl, by simp [orderFlow], by simp [orderFlow]⟩
    (fun _ _ _ _ h _ ht => h.step ht) hs

theorem activeOrders_eventEngineOrderCb (r : RiskManager) (e : Event) :
    (r.eventEngineOrderCb e).activeOrders =
      r.activeOrders.filter fun id => ends e id = false := by
  ext id
  cases e with
  | orderData d =>
    simp only [RiskManager.eventEngineOrderCb]
    split
    · next h => simp [ends, h]
    · next h =>
      have hend : isActiveOrder d.status = false := by simpa using h
      simp [ends, hend, and_comm, eq_comm]
  | _ => simp [RiskManager.eventEngineOrderCb, ends]

theorem ends_unset {e : Event} {rest : List Event}
    (h : ∀ d ∈ orderEvents (e :: rest), d.orderId ≠ unsetLong) : ends e unsetLong = false := by
  cases e with
  | orderData d =>
    have hne : d.orderId ≠ unsetLong := h d (mem_orderEvents.mpr (by simp))
    simp [ends, hne]
  | _ => rfl

/-- With room for one order, the unset id that the first check enters takes the
room for good. -/
structure Single (limits : Limits) (s : Flow) : Prop where
  configured : s.engine.risk.toLimits = limits
  slot : (unsetLong ∈ s.engine.risk.activeOrders ∧ s.admitted.length + s.live.length ≤ 1 ∧
      1 ≤ limits.orderFlowLmt.toNat) ∨
    (s.admitted = [] ∧ s.live = [])

theorem Single.step {limits : Limits} (hlmt : limits.orderFlowLmt.toNat ≤ 1) {s t : Flow} {a : Move}
    (ha : Assigned s) (h : Single limits s) (ht : (orderFlow limits).step s a = some t) :
    Single limits t := by
  cases step_moved ht with
  | reprice _ _ => exact ⟨h.configured, h.slot⟩
  | refused _ _ hrisk => exact ⟨hrisk ▸ h.configured, by simpa [hrisk] using h.slot⟩
  | passed hreq _ hroom hrisk =>
    have horders : limits.orderFlowLmt = s.engine.risk.orderFlowLmt :=
      congrArg Limits.orderFlowLmt h.configured.symm
    rw [← horders] at hroom
    have hempty : s.engine.risk.activeOrders = ∅ := by
      rw [← Finset.card_eq_zero]
      omega
    obtain ⟨hmem, _⟩ | ⟨hadm, hlive⟩ := h.slot
    · simp [hempty] at hmem
    · refine ⟨?_, .inl ⟨?_, ?_, ?_⟩⟩
      · simpa [hrisk] using h.configured
      · simp [hrisk, hreq]
      · simp [hadm, hlive]
      · omega
  | @forward i _ _ _ hi _ =>
    have hlt : i < s.admitted.length := (List.getElem?_eq_some_iff.mp hi).1
    obtain ⟨hmem, hlen, hone⟩ | ⟨hadm, _⟩ := h.slot
    · refine ⟨h.configured, .inl ⟨hmem, ?_, hone⟩⟩
      rw [List.length_eraseIdx_of_lt hlt, List.length_cons]
      omega
    · simp [hadm] at hlt
  | callback _ => exact ⟨h.configured, h.slot⟩
  | post _ => exact ⟨h.configured, h.slot⟩
  | @dispatch e rest hq =>
    refine ⟨(eventEngineOrderCb_limits _ e).trans h.configured, ?_⟩
    obtain ⟨hmem, hlen, hone⟩ | ⟨hadm, hlive⟩ := h.slot
    · refine .inl ⟨?_, ?_, hone⟩
      · rw [activeOrders_eventEngineOrderCb]
        exact Finset.mem_filter.mpr ⟨hmem, ends_unset (hq ▸ ha.queue)⟩
      · have hle := List.length_filter_le (fun id => !ends e id) s.live
        exact (Nat.add_le_add_left hle _).trans hlen
    · exact .inr ⟨hadm, by simp [hlive]⟩

theorem live_le_one {limits : Limits} (hlmt : limits.orderFlowLmt.toNat ≤ 1) {s : Flow}
    (hs : (orderFlow limits).Reachable s) : s.live.length ≤ limits.orderFlowLmt.toNat := by
  have h : Single limits s :=
    Machine.Reaches.invariant ⟨rfl, .inr ⟨rfl, rfl⟩⟩
      (fun _ _ _ hr h _ ht => h.step hlmt (assigned hr.reachable) ht) hs
  obtain ⟨_, hlen, hone⟩ | ⟨_, hlive⟩ := h.slot
  · omega
  · simp [hlive]

def newReq : OrderReq where
  symbol := "6758-STK-JPY.TSEJ"
  source := "algo_engine"
  action := .buy
  orderType := .market
  quantity := 100

theorem newReq_contract : generateContract newReq.symbol = .ok ⟨"6758", "STK", "JPY", "TSEJ"⟩ := by
  decide +kernel

/-- With room for a second entry the check enters the unset id again and again,
and the set never grows beyond it. -/
structure Unlimited (limits : Limits) (n : Nat) (s : Flow) : Prop where
  configured : s.engine.risk.toLimits = limits
  admitted : s.admitted = []
  active : s.engine.risk.activeOrders ⊆ {unsetLong}
  counter : s.engine.api.mOrderId = n
  live : s.live.length = n

theorem Unlimited.send {limits : Limits} (hlmt : 2 ≤ limits.orderFlowLmt.toNat) {n : Nat}
    (hn : n < 2 ^ 62) {s : Flow} (hs : (orderFlow limits).Reachable s) (h : Unlimited limits n s) :
    ∃ t, (orderFlow limits).Reachable t ∧ Unlimited limits (n + 1) t := by
  let engine := s.engine.reprice s.engine.risk.algoPnlLmt s.engine.risk.totalPnlLmt
  have hroom : engine.risk.activeOrders.card < engine.risk.orderFlowLmt.toNat := by
    have hle := Finset.card_le_card h.active
    have hconf : s.engine.risk.orderFlowLmt = limits.orderFlowLmt :=
      congrArg Limits.orderFlowLmt h.configured
    rw [Finset.card_singleton] at hle
    change s.engine.risk.activeOrders.card < s.engine.risk.orderFlowLmt.toNat
    rw [hconf]
    omega
  have hpassed : (engine.screen newReq).1 = true :=
    screen_eq_true (checkPnl_at_limits s.engine newReq) hroom
  obtain ⟨hp, _⟩ | ⟨_, hapi, _, hrisk⟩ := screen_cases engine newReq
  · rw [hpassed] at hp
    cases hp
  have hcounter : (engine.screen newReq).2.api.mOrderId ≠ unsetLong := by
    have hn' : (engine.screen newReq).2.api.mOrderId = n := by rw [hapi]; exact h.counter
    have hlt : (n : Int) ≠ 2 ^ 63 - 1 := by omega
    rw [hn']
    exact hlt
  obtain ⟨out, hout, hnext⟩ := sendOrder_new newReq_contract rfl hcounter
  have hforward := forward_eq_ok.mpr ⟨out, hout, rfl, rfl, rfl⟩
  have hpriced : (orderFlow limits).Reachable { s with engine := engine } :=
    hs.step (a := .reprice s.engine.risk.algoPnlLmt s.engine.risk.totalPnlLmt) rfl
  have hchecked : (orderFlow limits).Reachable
      { s with engine := (engine.screen newReq).2, admitted := [newReq] } := by
    apply hpriced.step (a := .check newReq)
    have hunset : isUnsetLlong newReq.orderId = true := by decide
    simp only [orderFlow, step, hunset, if_true, hpassed, h.admitted, List.nil_append]
  refine ⟨_, hchecked.step (a := .forward 0) (toOption_map_eq_some.mpr ⟨_, hforward, rfl⟩), ?_⟩
  refine ⟨?_, rfl, ?_, ?_, ?_⟩
  · exact (congrArg RiskManager.toLimits hrisk).trans h.configured
  · have hactive := congrArg RiskManager.activeOrders hrisk
    change (engine.screen newReq).2.risk.activeOrders ⊆ {unsetLong}
    rw [hactive]
    exact Finset.insert_subset (Finset.mem_singleton_self _) h.active
  · change out.api.mOrderId = _
    rw [hnext, hapi]
    change s.engine.api.mOrderId + 1 = _
    rw [h.counter]
    rfl
  · exact congrArg (· + 1) h.live

theorem unlimited {limits : Limits} (hlmt : 2 ≤ limits.orderFlowLmt.toNat) {n : Nat}
    (hn : n ≤ 2 ^ 62) : ∃ s, (orderFlow limits).Reachable s ∧ Unlimited limits n s := by
  induction n with
  | zero =>
    have hstart : (orderFlow limits).Reachable (orderFlow limits).init := .init
    exact ⟨_, hstart.step (a := .callback (.nextValidId 0)) rfl, rfl, rfl, by simp [orderFlow],
      rfl, rfl⟩
  | succ n ih =>
    obtain ⟨s, hs, h⟩ := ih (by omega)
    exact h.send hlmt (by omega) hs

/-- The limit holds throughout all runs exactly when it is zero or one. -/
theorem live_le_limit_iff (limits : Limits) :
    (∀ s, (orderFlow limits).Reachable s → s.live.length ≤ limits.orderFlowLmt.toNat) ↔
      limits.orderFlowLmt ≤ 1 := by
  have hone : limits.orderFlowLmt ≤ 1 ↔ limits.orderFlowLmt.toNat ≤ 1 := UInt32.le_iff_toNat_le
  rw [hone]
  constructor
  · intro hall
    by_contra hlmt
    have hsmall : limits.orderFlowLmt.toNat < 2 ^ 32 := UInt32.toNat_lt _
    have hbound : limits.orderFlowLmt.toNat + 1 ≤ 2 ^ 62 := by omega
    have htwo : 2 ≤ limits.orderFlowLmt.toNat := by omega
    obtain ⟨s, hs, h⟩ := unlimited htwo hbound
    have hle := hall s hs
    rw [h.live] at hle
    omega
  · exact fun hlmt s hs => live_le_one hlmt hs

def threeSends : List Move :=
  [.callback (.nextValidId 1), .check newReq, .forward 0, .check newReq, .forward 0,
    .check newReq, .forward 0]

theorem live_above_limit :
    ¬ ∀ (limits : Limits) (s : Flow), (orderFlow limits).Reachable s →
      s.live.length ≤ limits.orderFlowLmt.toNat := by
  intro hall
  have hrun : (((orderFlow { orderFlowLmt := 2 }).run (orderFlow { orderFlowLmt := 2 }).init
      threeSends).map fun s => s.live) = some [3, 2, 1] := by
    decide +kernel
  obtain ⟨s, hs, hlive⟩ := Machine.exists_reachable_of_run hrun
  have hle := hall _ s hs
  rw [hlive] at hle
  simp at hle

end CalmTrading.OrderFlow
