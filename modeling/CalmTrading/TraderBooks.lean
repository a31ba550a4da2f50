import CalmTrading.Lib.Totals
import CalmTrading.PortfolioFlow
import CalmTrading.PositionAccounting
import CalmTrading.Requests
import CalmTrading.TraderSystem

namespace CalmTrading.TraderBooks

open Lib Objects Utils Gateway Requests OrderRecords Risk PortfolioState PortfolioBook Algo
open PositionAccounting (fillOf)
open EventLoop (Ran RunMove)
open EventDispatch (Guarded Served)
open AlgoSystem (Config sony)
open EventFeeds TraderSystem

/-- A reader of the order events holds what the gateway has on record, up to the
events still on their way to it. -/
structure Replica (orders : Orders) (held : OrderId → Option OrderData) (pipe : List OrderData) :
    Prop where
  seen : ∀ id, (Channel.latest OrderData.orderId id pipe).or (held id) = orders.find? id
  booked : ∀ id d, held id = some d → d.orderId = id ∧ Known orders d
  transit : ∀ d ∈ pipe, Known orders d

namespace Replica

variable {orders before after : Orders} {held : OrderId → Option OrderData} {pipe : List OrderData}

theorem empty (h : ∀ id, orders.find? id = none) : Replica orders (fun _ => none) [] where
  seen id := (h id).symm
  booked := by simp
  transit := by simp

theorem emit (h : Replica before held pipe) {ds : List OrderData} (hrec : Records before after ds) :
    Replica after held (pipe ++ ds) where
  seen id := by
    rw [Channel.latest_append, Option.or_assoc, h.seen]
    cases hrec with
    | same => simp [Channel.latest]
    | set d hd =>
      rw [Orders.find?_set]
      by_cases hid : id = d.orderId
      · simp [Channel.latest, hid]
      · simp [Channel.latest, hid, Ne.symm hid]
  booked id d hd := ⟨(h.booked id d hd).1, (h.booked id d hd).2.kept hrec⟩
  transit d hd := by
    obtain hd | hd := List.mem_append.mp hd
    · exact (h.transit d hd).kept hrec
    · exact .published hrec hd

theorem deliver {d : OrderData} (h : Replica orders held (d :: pipe)) :
    Replica orders (Function.update held d.orderId (some d)) pipe where
  seen id := by
    have hseen := h.seen id
    rw [← List.singleton_append, Channel.latest_append, Option.or_assoc] at hseen
    rw [← hseen]
    congr 1
    by_cases hid : d.orderId = id
    · subst hid
      simp [Channel.latest]
    · simp [Channel.latest, hid, Function.update_of_ne (Ne.symm hid)]
  booked id r hr := by
    by_cases hid : id = d.orderId
    · subst hid
      rw [Function.update_self] at hr
      cases hr
      exact ⟨rfl, h.transit d List.mem_cons_self⟩
    · rw [Function.update_of_ne hid] at hr
      exact h.booked id r hr
  transit r hr := h.transit r (List.mem_cons_of_mem d hr)

theorem drained (h : Replica orders held []) (id : OrderId) : held id = orders.find? id := h.seen id

theorem congr (h : Replica orders held pipe) {held' : OrderId → Option OrderData}
    (hheld : ∀ id, held' id = held id) : Replica orders held' pipe := by
  obtain rfl : held' = held := funext hheld
  exact h

end Replica

def booked (a : AlgoEngine) (id : OrderId) : Option OrderData := (a.orderData.lookup id).join

def net (a : AlgoEngine) : Double := Table.total (fun _ d => d.elim 0 signedQuantity) a.orderData

def pipe (s : System) (part : Part) (inbox : List Event) : List OrderData :=
  orderEvents (inbox ++ (component part).coming s.events)

def algoPipe (s : System) : List OrderData := pipe s .algo (s.held.toList ++ s.algo.q)

def portfolioPipe (s : System) : List OrderData := pipe s .portfolio s.trading.portfolio.q

def Drained (s : System) : Prop := algoPipe s = [] ∧ portfolioPipe s = []

instance (s : System) : Decidable (Drained s) :=
  inferInstanceAs (Decidable (algoPipe s = [] ∧ portfolioPipe s = []))

/-- The next valid ids are above zero and above every id in use. -/
def orderly (s : System) : Move → Bool
  | .startGateway connects => connects
  | .callback (.nextValidId id) =>
    0 < id && s.trading.api.orders.table.keys.all fun used => used < id
  | _ => true

def Orderly (s : System) (a : Move) : Prop := orderly s a = true

instance (s : System) (a : Move) : Decidable (Orderly s a) :=
  inferInstanceAs (Decidable (orderly s a = true))

/-- An order event that the algorithm handles finds its counter at the fill that
it has for that order. -/
def counted (s : System) : Move → Bool
  | .act =>
    match s.held with
    | some (.orderData d) =>
      d.orderId ∉ s.algo.orderStatus || s.algo.orderFilled = fillOf (booked s.algo d.orderId)
    | _ => true
  | _ => true

def Counted (s : System) (a : Move) : Prop := orderly s a = true ∧ counted s a = true

instance (s : System) (a : Move) : Decidable (Counted s a) :=
  inferInstanceAs (Decidable (orderly s a = true ∧ counted s a = true))

section Events

variable {s t : System} {a : Move}

theorem subscribe_quiet {api : IBApi} {symbol : String} {delayed : Bool} {out : Out}
    (h : api.subscribe symbol delayed = .ok out) :
    out.events = [] ∧ out.api.orders = api.orders ∧ out.api.mOrderId = api.mOrderId := by
  obtain ⟨rfl, _⟩ | ⟨_, _, _, _, hapi, hevents, _⟩ := subscribe_cases h
  · exact ⟨rfl, rfl, rfl⟩
  · rw [hapi]
    exact ⟨hevents, rfl, rfl⟩

theorem post_nil (s : System) : s.post [] = s := by simp [System.post, sendAll]

/-- Starting the algorithm sets its flag and subscribes, and sends no event. -/
theorem startAlgo_cases (h : s.startAlgo = some t) :
    ∃ mgr api, api.orders = s.trading.api.orders ∧ api.mOrderId = s.trading.api.mOrderId ∧
      t = { s with
        phase := .looping
        algo := { s.algo with running := true }
        mgr := mgr
        trading := { s.trading with api := api } } := by
  rw [System.startAlgo] at h
  dsimp only at h
  split at h
  · obtain ⟨out, hout, rfl⟩ := toOption_map_eq_some.mp h
    obtain ⟨hevents, horders, hid⟩ := subscribe_quiet hout
    rw [hevents, post_nil]
    exact ⟨_, out.api, horders, hid, rfl⟩
  · cases h
    exact ⟨_, s.trading.api, rfl, rfl, rfl⟩

theorem turned_events (m : RunMove Cb) (events : EventLoop.System Cb) :
    (s.turned m events).events = events := by
  rw [System.turned]
  split
  · rw [System.call_events]
  · rfl

theorem round_events (s : System) : ∃ es, s.round.events = sendAll s.events es := by
  rw [System.round]
  dsimp only
  split
  · exact ⟨[], by simp [sendAll]⟩
  · exact ⟨_, rfl⟩

/-- A move hands events to the engine, or it is a step of the engine's thread. -/
theorem moved_events (ht : Moved s a t) :
    (∃ es, t.events = sendAll s.events es) ∨ ∃ m, Ran s.events m t.events := by
  have hsame : s.events = sendAll s.events [] := by simp [sendAll]
  cases ht with
  | startAlgo hphase ht =>
    obtain ⟨_, _, _, _, rfl⟩ := startAlgo_cases ht
    exact .inl ⟨[], hsame⟩
  | clock hphase => exact .inl ⟨_, rfl⟩
  | callback hout => exact .inl ⟨_, rfl⟩
  | @turn m events hm ht =>
    refine .inr ⟨m, ?_⟩
    rw [turned_events]
    exact ht
  | act hheld hr => exact .inl ⟨_, rfl⟩
  | round => exact .inl (round_events s)
  | _ => exact .inl ⟨[], hsame⟩

theorem events_sound {cfg : Config} {ok : System → Move → Prop}
    (hs : (trader cfg).Reaches ok s) :
    Guarded registrations s.events ∧ Served registrations s.events := by
  apply hs.invariant
  · exact ⟨.init _, .init _⟩
  · intro s a t _ ⟨hg, hv⟩ _ ht
    obtain ⟨es, hes⟩ | ⟨m, hm⟩ := moved_events (step_moved ht)
    · rw [hes]
      exact sendAll_sound hg hv es
    · exact ⟨hg.run hm, .run hg hv hm⟩

/-- A step of the engine's thread calls one part with the oldest event to come
for it, or none. -/
theorem turned_cases (hg : Guarded registrations s.events) (hv : Served registrations s.events)
    {m : RunMove Cb} {events : EventLoop.System Cb} (ht : Ran s.events m events) :
    (∃ e cb, s.turned m events = { s with events := events }.call e cb ∧
      ∀ part, (component part).coming s.events =
        (if cb.part = part then [e] else []) ++ (component part).coming events) ∨
    (s.turned m events = { s with events := events } ∧
      ∀ part, (component part).coming events = (component part).coming s.events) := by
  have hran := fun part => ran_coming (c := component part) hg hv ht
  cases hcalled : s.called m with
  | none =>
    refine .inr ⟨by rw [System.turned, hcalled], fun part => ?_⟩
    obtain ⟨_, _, _, rfl, hnext, _⟩ | ⟨_, hcoming, _⟩ := hran part
    · exact absurd (hcalled.symm.trans hnext) nofun
    · exact hcoming
  | some p =>
    obtain ⟨e, name, cb⟩ := p
    refine .inl ⟨e, cb, by rw [System.turned, hcalled], fun part => ?_⟩
    cases m with
    | next =>
      obtain ⟨_, _, _, _, hnext, hlast, hcoming, _⟩ | ⟨hnone, _⟩ := hran part
      · cases hcalled.symm.trans hnext
        rw [hcoming]
        simp only [component_name hlast]
      · exact absurd (hcalled.symm.trans (hnone rfl)) nofun
    | _ => cases hcalled

theorem orderEvents_taken {c : Component registrations} (hc : (c.name? .orderData).isSome = true)
    (es : List Event) : orderEvents (es.filter c.takes) = orderEvents es := by
  induction es with
  | nil => rfl
  | cons e es ih =>
    by_cases he : c.takes e = true
    · rw [List.filter_cons_of_pos he, orderEvents_cons, orderEvents_cons, ih]
    · have hnone : e.orderData? = none := by
        cases e with
        | orderData d => exact absurd hc he
        | _ => rfl
      rw [List.filter_cons_of_neg he, orderEvents_cons, hnone, ih]
      rfl

theorem pipe_post {part : Part} (hpart : ((component part).name? .orderData).isSome = true)
    (inbox es : List Event) :
    pipe (s.post es) part inbox = pipe s part inbox ++ orderEvents es := by
  simp only [pipe, System.post, sendAll_coming, orderEvents_append, orderEvents_taken hpart,
    List.append_assoc]

theorem algoPipe_post (s : System) (es : List Event) :
    algoPipe (s.post es) = algoPipe s ++ orderEvents es :=
  pipe_post rfl _ es

theorem portfolioPipe_post (s : System) (es : List Event) :
    portfolioPipe (s.post es) = portfolioPipe s ++ orderEvents es :=
  pipe_post rfl _ es

theorem handle_orderEvents (p : Portfolio) (lastTick : String → Option TickData) (e : Event) :
    orderEvents (p.handle lastTick e).2 = [] := by
  cases e with
  | timer timer =>
    simp only [Portfolio.handle, Portfolio.timerCb]
    split
    · rw [orderEvents_append, orderEvents, List.filterMap_map]
      simp [Function.comp_def, Event.orderData?]
    · rfl
  | _ => rfl

theorem clock_orderEvents (timer : Option Timer) :
    orderEvents (timer.toList.map Event.timer) = [] := by
  cases timer <;> rfl

theorem round_eq_some {p p' : Portfolio} {event : Option Event}
    {lastTick : String → Option TickData} {e : Event} {events : List Event}
    (h : p.round event lastTick = some (e, p', events)) :
    ∃ q, ({ p with q := q }.handle lastTick e).2 = events := by
  rw [Portfolio.round] at h
  split at h
  · cases h
  · next q _ =>
    obtain ⟨rfl, hround⟩ := Prod.mk.inj (Option.some.inj h)
    exact ⟨q, congrArg Prod.snd hround⟩

theorem round_cases (s : System) :
    s.round = s ∨ ∃ p event events, orderEvents events = [] ∧
      s.round =
        { s with trading := { s.trading with portfolio := p }, event := event }.post events := by
  rw [System.round]
  dsimp only
  split
  · exact .inl rfl
  · next e p events hround =>
    refine .inr ⟨p, some e, events, ?_, rfl⟩
    obtain ⟨q, hq⟩ := round_eq_some hround
    exact hq ▸ handle_orderEvents _ _ e

end Events

section Acts

variable {a : AlgoEngine} {t : TradingEngine}

/-- The checks of an order may enter a PnL of zero. -/
def SamePortfolio (t u : TradingEngine) : Prop :=
  ∃ algoPnl, u.portfolio = { t.portfolio with algoPnl := algoPnl }

/-- All that handling an event does to the books of orders. -/
inductive Acts (a : AlgoEngine) (t : TradingEngine) (e : Event) (r : Acted) : Prop
  | fill (d : OrderData) (he : e = .orderData d)
      (hr : r = { engine := a.orderCb d, trading := t })
  | quiet (he : e.orderData? = none) (hapi : r.trading.api = t.api)
      (hportfolio : SamePortfolio t r.trading) (hevents : r.events = [])
      (hengine : ∃ target cancelled reqs q, orderEvents q = orderEvents a.q ∧
        r.engine =
          { a with targetPos := target, orderCancelled := cancelled, orderReqs := reqs, q := q })
  | sent (he : e.orderData? = none) (req : OrderReq) (quantity target : Double)
      (hreq : req.source = a.name ∧ req.symbol = a.orderSymbol)
      (hapi : r.trading.api =
        { t.api with
          mOrderId := t.api.mOrderId + 1
          orders := t.api.orders.set (newOrderData t.api.mOrderId req) })
      (hportfolio : SamePortfolio t r.trading)
      (hevents : r.events = [.orderData (newOrderData t.api.mOrderId req)])
      (hengine : r.engine =
        { a with targetPos := target }.inflight t.api.mOrderId req quantity)

theorem Acts.samePortfolio {e : Event} {r : Acted} (h : Acts a t e r) :
    SamePortfolio t r.trading := by
  cases h with
  | fill d he hr =>
    rw [hr]
    exact ⟨_, rfl⟩
  | quiet he hapi hportfolio hevents hengine => exact hportfolio
  | sent he req quantity target hreq hapi hportfolio hevents hengine => exact hportfolio

theorem screen_samePortfolio (t : TradingEngine) (req : OrderReq) :
    SamePortfolio t (t.screen req).2 := by
  obtain ⟨algoPnl, hportfolio, _⟩ := checkPnl_portfolio t.risk t.portfolio req
  exact ⟨algoPnl, by rw [screen_portfolio, hportfolio]⟩

/-- A new order goes to the gateway under the next id, or it is refused. -/
theorem sendOrder_cases {req : OrderReq} {id : OrderId} {u : TradingEngine} {events : List Event}
    {client : List ClientMsg} (h : t.sendOrder req = .ok (id, u, events, client))
    (hunset : isUnsetLlong req.orderId = true)
    (hfresh : t.api.orders.find? t.api.mOrderId = none) :
    SamePortfolio t u ∧
      (id = -1 ∧ u.api = t.api ∧ events = [] ∨
        id = t.api.mOrderId ∧
          u.api =
            { t.api with
              mOrderId := t.api.mOrderId + 1
              orders := t.api.orders.set (newOrderData t.api.mOrderId req) } ∧
          events = [.orderData (newOrderData t.api.mOrderId req)]) := by
  have hapi : (t.screen req).2.api = t.api := by
    obtain ⟨_, hapi, _⟩ | ⟨_, hapi, _⟩ := screen_cases t req <;> exact hapi
  have hportfolio := screen_samePortfolio t req
  simp only [TradingEngine.sendOrder] at h
  split at h
  · cases h
    exact ⟨hportfolio, .inl ⟨rfl, hapi, rfl⟩⟩
  · obtain ⟨out, hout, rfl, rfl, _⟩ := forward_eq_ok.mp h
    obtain ⟨p, hp, rfl, rfl⟩ := sendOrder_eq_ok.mp hout
    rw [hapi] at hp
    have hid : p.orderId = t.api.mOrderId ∧ p.api.mOrderId = t.api.mOrderId + 1 := by
      obtain ⟨_, _, hid, hnext⟩ | ⟨hset, _⟩ := recordOrder_mOrderId hp
      · exact ⟨hid, hnext⟩
      · rw [hunset] at hset
        cases hset
    refine ⟨hportfolio, .inr ⟨hid.1, ?_⟩⟩
    obtain ⟨next, _, _, _, ⟨r, hr, _⟩ | ⟨_, ha, happ⟩⟩ := recordOrder_cases hp
    · rw [hid.1, hfresh] at hr
      cases hr
    · have hnext : next = t.api.mOrderId + 1 := by rw [← hid.2, happ]
      rw [ha, happ, hid.1, hnext]
      exact ⟨rfl, rfl⟩

theorem updatePosCb_acts {pos : PosUpdate} {r : Acted} (h : a.updatePosCb t pos = .ok r)
    (hid : 0 < t.api.mOrderId) (hfresh : t.api.orders.find? t.api.mOrderId = none) :
    Acts a t (.algoPosUpdate pos) r := by
  have hretry : ∀ retry : PosUpdate,
      orderEvents (a.q ++ [.algoPosUpdate retry]) = orderEvents a.q :=
    fun retry => by rw [orderEvents_append]; exact List.append_nil _
  have hsame : SamePortfolio t t := ⟨_, rfl⟩
  rw [AlgoEngine.updatePosCb] at h
  split at h
  · rw [AlgoEngine.retryPos] at h
    dsimp only at h
    split at h
    · split at h
      · cases h
        exact .quiet rfl rfl hsame rfl ⟨_, _, _, _, hretry _, rfl⟩
      · cases h
    · split at h
      · cases h
      · cases h
        exact .quiet rfl rfl hsame rfl ⟨_, _, _, _, hretry _, rfl⟩
  · dsimp only at h
    split at h
    · obtain ⟨⟨id, u, events, client⟩, hsend, hr⟩ := bind_eq_ok.mp h
      cases hr
      obtain ⟨hportfolio, ⟨rfl, hapi, rfl⟩ | ⟨rfl, hapi, rfl⟩⟩ := sendOrder_cases hsend rfl hfresh
      · exact .quiet rfl hapi hportfolio rfl ⟨_, _, _, _, rfl, rfl⟩
      · exact .sent rfl _ _ _ ⟨rfl, rfl⟩ hapi hportfolio rfl (if_pos hid)
    · cases h
      exact .quiet rfl rfl hsame rfl ⟨_, _, _, _, rfl, rfl⟩

theorem handle_acts {lastTick : Option TickData} {e : Event} {r : Acted}
    (h : a.handle t lastTick e = .ok r) (hid : 0 < t.api.mOrderId)
    (hfresh : t.api.orders.find? t.api.mOrderId = none) : Acts a t e r := by
  have hsame : SamePortfolio t t := ⟨_, rfl⟩
  cases e with
  | orderData d =>
    cases h
    exact .fill d rfl rfl
  | algoPosUpdate pos => exact updatePosCb_acts h hid hfresh
  | tickData data =>
    cases h
    rw [AlgoEngine.tickCb]
    split
    · exact .quiet rfl rfl hsame rfl ⟨_, _, _, _, rfl, rfl⟩
    · exact .quiet rfl rfl hsame rfl ⟨_, _, _, _, rfl, rfl⟩
  | timer timer =>
    obtain ⟨_, rfl⟩ := timerCb_eq_ok h
    exact .quiet rfl rfl hsame rfl ⟨_, _, _, _, rfl, rfl⟩
  | _ =>
    cases h
    exact .quiet rfl rfl hsame rfl ⟨_, _, _, _, rfl, rfl⟩

end Acts

end CalmTrading.TraderBooks
