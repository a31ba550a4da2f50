import CalmTrading.AlgoBooks
import CalmTrading.CancelDiscipline
import CalmTrading.Lib.Simulation

namespace CalmTrading.ActionThread

open Lib Objects Utils Gateway OrderRecords Risk Algo
open MarketData (MarketDataManager)
open EventDispatch (Guarded Served)
open AlgoSystem (Config sony)
open EventFeeds TraderSystem TraderBooks AlgoBooks
open CancelDiscipline (Acting actions Fresh placedIds disciplined)

/-- The algorithm of a `Trader` is where a run of its own has led, and the ids
that the gateway has returned in that run are on record. -/
structure Mirrors (s : System) (u : Acting) : Prop where
  engine : u.engine = s.algo
  held : u.held = s.held
  placed : ∀ id ∈ u.ids, ∃ d, s.trading.api.orders.find? id = some d

def Keeps (before after : Orders) : Prop :=
  ∀ id d, before.find? id = some d → ∃ d', after.find? id = some d'

theorem Keeps.refl (orders : Orders) : Keeps orders orders := fun _ d hd => ⟨d, hd⟩

theorem Keeps.of_eq {before after : Orders} (h : after = before) : Keeps before after :=
  h ▸ .refl before

theorem Keeps.of_records {before after : Orders} {ds : List OrderData}
    (h : Records before after ds) : Keeps before after := by
  intro id d hd
  obtain ⟨d', hd', _⟩ := h.kept hd
  exact ⟨d', hd'⟩

/-- A new order that is placed gets the next id, and a record. -/
theorem sendOrder_placed {t u : TradingEngine} {req : OrderReq} {sent : OrderId}
    {events : List Event} {client : List ClientMsg} (h : t.sendOrder req = .ok (sent, u, events, client))
    (hunset : isUnsetLlong req.orderId = true) {id : OrderId} (hid : id ∈ placedIds client) :
    id = t.api.mOrderId ∧ ∃ d, u.api.orders.find? id = some d := by
  have hapi : (t.screen req).2.api = t.api := by
    obtain ⟨_, hapi, _⟩ | ⟨_, hapi, _⟩ := screen_cases t req <;> exact hapi
  simp only [TradingEngine.sendOrder] at h
  split at h
  · cases h
    cases hid
  · obtain ⟨out, hout, rfl, rfl, rfl⟩ := forward_eq_ok.mp h
    obtain ⟨p, hp, rfl, rfl⟩ := sendOrder_eq_ok.mp hout
    rw [hapi] at hp
    obtain ⟨next, contract, _, hplace, hrecord⟩ := recordOrder_cases hp
    have hid' : id = p.orderId := by simpa [placedIds, hplace, FreshIds.placed?] using hid
    obtain rfl := hid'
    constructor
    · obtain ⟨_, _, hnext, _⟩ | ⟨hset, _⟩ := recordOrder_mOrderId hp
      · exact hnext
      · rw [hunset] at hset
        cases hset
    · obtain ⟨r, hr, _, happ⟩ | ⟨_, _, happ⟩ := hrecord
      · exact ⟨r, by rw [happ]; exact hr⟩
      · exact ⟨_, by rw [happ]; exact Orders.find?_set_self _ _⟩

theorem handle_placed {a : AlgoEngine} {t : TradingEngine} {lastTick : Option TickData} {e : Event}
    {r : Acted} (h : a.handle t lastTick e = .ok r) {id : OrderId} (hid : id ∈ placedIds r.client) :
    id = t.api.mOrderId ∧ ∃ d, r.trading.api.orders.find? id = some d := by
  cases e with
  | algoPosUpdate pos =>
    simp only [AlgoEngine.handle, AlgoEngine.updatePosCb] at h
    split at h
    · rw [AlgoEngine.retryPos] at h
      dsimp only at h
      split at h
      · split at h <;> cases h
        cases hid
      · split at h <;> cases h
        cases hid
    · split at h
      · obtain ⟨p, hsend, hr⟩ := bind_eq_ok.mp h
        cases hr
        exact sendOrder_placed hsend rfl hid
      · cases h
        cases hid
  | tickData data =>
    cases h
    rw [AlgoEngine.tickCb] at hid
    split at hid <;> cases hid
  | timer timer =>
    obtain ⟨_, rfl⟩ := timerCb_eq_ok h
    cases hid
  | _ =>
    cases h
    cases hid

namespace Mirrors

variable {mktDataSymbol orderSymbol : String} {s t : System} {a : Move} {u : Acting}

theorem quiet (h : Mirrors s u) (halgo : t.algo = s.algo) (hheld : t.held = s.held)
    (horders : Keeps s.trading.api.orders t.trading.api.orders) : Mirrors t u where
  engine := h.engine.trans halgo.symm
  held := h.held.trans hheld.symm
  placed id hid := by
    obtain ⟨d, hd⟩ := h.placed id hid
    exact horders id d hd

theorem around (b : CancelDiscipline.Move) (engine : AlgoEngine) (held : Option Event)
    (h : Mirrors s u) (hu : (actions mktDataSymbol orderSymbol).Reaches Fresh u)
    (hret : u.returned b = []) (hb : u.step b = some { u with engine := engine, held := held })
    (halgo : t.algo = engine) (hheld : t.held = held)
    (horders : t.trading.api.orders = s.trading.api.orders) :
    ∃ u', (actions mktDataSymbol orderSymbol).Reaches Fresh u' ∧ Mirrors t u' := by
  refine ⟨_, hu.step ?_ hb, halgo.symm, hheld.symm, fun id hid => ?_⟩
  · rw [Fresh, hret]
    simp
  · rw [horders]
    exact h.placed id hid

theorem step (hg : Guarded registrations s.events) (hv : Served registrations s.events)
    (hs : Started s) (hbook : AlgoBook s) (h : Mirrors s u)
    (hu : (actions mktDataSymbol orderSymbol).Reaches Fresh u) (ht : Moved s a t) :
    ∃ u', (actions mktDataSymbol orderSymbol).Reaches Fresh u' ∧ Mirrors t u' := by
  cases ht with
  | @startGateway connects hphase =>
    exact ⟨u, hu, h.quiet rfl rfl (.of_eq (start_same _ connects).1)⟩
  | startAlgo hphase ht =>
    obtain ⟨mgr, api, horders, _, rfl⟩ := startAlgo_cases ht
    exact around .start _ _ h hu rfl rfl (by rw [h.engine]) h.held.symm horders
  | callback hout =>
    exact ⟨u, hu, h.quiet rfl rfl (.of_records (callback_reports hout).records)⟩
  | @listen msg hrun =>
    refine around (.listen msg) (u.engine.mqMessageCb msg) u.held h hu rfl ?_ ?_ h.held.symm rfl
    · simp only [Acting.step]
      rw [if_pos (by rw [h.engine]; exact hrun)]
    · rw [h.engine]
  | turn hm ht =>
    obtain ⟨e, cb, hturned, _⟩ | ⟨hturned, _⟩ := turned_cases hg hv ht
    · rw [hturned]
      by_cases hpart : cb.part = .algo
      · refine around (.event e) _ u.held h hu rfl rfl ?_ ?_ ?_
        · rw [System.call_algo, if_pos hpart, h.engine]
        · rw [System.call_held]
          exact h.held.symm
        · rw [System.call_api]
      · refine ⟨u, hu, h.quiet ?_ (System.call_held _ _ _) (.of_eq (by rw [System.call_api]))⟩
        rw [System.call_algo, if_neg hpart]
    · rw [hturned]
      exact ⟨u, hu, h.quiet rfl rfl (.refl _)⟩
  | @pop e rest hrun hheld hq =>
    refine around .pop { u.engine with q := rest } (some e) h hu rfl ?_ ?_ rfl rfl
    · simp only [Acting.step, h.held, h.engine, hheld, hq, hrun, if_true]
    · rw [h.engine]
  | @act e r hheld hr =>
    have hcounter := hs.counter (by rw [hheld]; rfl)
    have hfree := fresh hbook
    have hact : (actions mktDataSymbol orderSymbol).step u
        (.act s.trading (s.mgr.getLastTick s.algo.mktDataSymbol)) = some (u.acted r) := by
      simp only [actions, Acting.step, h.held, hheld, h.engine, hr]
      rfl
    have hreturned : u.returned (.act s.trading (s.mgr.getLastTick s.algo.mktDataSymbol)) =
        placedIds r.client := by
      simp only [Acting.returned, h.held, hheld, h.engine, hr]
    refine ⟨u.acted r, hu.step ?_ hact, rfl, rfl, fun id hid => ?_⟩
    · rw [Fresh, hreturned]
      intro id hid
      obtain ⟨rfl, _⟩ := handle_placed hr hid
      refine ⟨hcounter, fun hused => ?_⟩
      obtain ⟨d, hd⟩ := h.placed _ hused
      rw [hfree] at hd
      cases hd
    · obtain hid | hid := List.mem_append.mp hid
      · obtain ⟨d, hd⟩ := h.placed id hid
        obtain ⟨d', hd', _⟩ := (handle_handled hr).2.kept hd
        exact ⟨d', hd'⟩
      · exact (handle_placed hr hid).2
  | round =>
    obtain hround | ⟨p, event, events, _, hround⟩ := round_cases s
    · rw [hround]
      exact ⟨u, hu, h⟩
    · rw [hround]
      exact ⟨u, hu, h.quiet rfl rfl (.refl _)⟩
  | _ => exact ⟨u, hu, h.quiet rfl rfl (.refl _)⟩

end Mirrors

/-- Once `run` is in its loop, the symbol of the algorithm has a last tick. -/
structure Subscribed (cfg : Config) (s : System) : Prop where
  mktDataSymbol : s.algo.mktDataSymbol = cfg.mktDataSymbol
  orderSymbol : s.algo.orderSymbol = cfg.orderSymbol
  tick : s.phase = .looping → cfg.mktDataSymbol ∈ s.mgr.lastTicks

theorem startAlgo_subscribes {s t : System} (h : s.startAlgo = some t) :
    s.algo.mktDataSymbol ∈ t.mgr.lastTicks := by
  have hmem : s.algo.mktDataSymbol ∈ (s.mgr.subscribe s.algo.mktDataSymbol).1.lastTicks := by
    rw [MarketDataManager.subscribe]
    split
    · assumption
    · exact (AList.mem_insert _).mpr (.inl rfl)
  rw [System.startAlgo] at h
  dsimp only at h
  split at h
  · obtain ⟨out, _, rfl⟩ := toOption_map_eq_some.mp h
    exact hmem
  · cases h
    exact hmem

theorem call_lastTicks {s : System} {symbol : String} (h : symbol ∈ s.mgr.lastTicks) (e : Event)
    (cb : Cb) : symbol ∈ (s.call e cb).mgr.lastTicks := by
  cases cb with
  | updateTicks =>
    cases e with
    | tickData data => exact (AList.mem_insert _).mpr (.inr h)
    | _ => exact h
  | _ => exact h

namespace Subscribed

variable {cfg : Config} {s t : System} {a : Move}

theorem frame (h : Subscribed cfg s)
    (halgo : t.algo.mktDataSymbol = s.algo.mktDataSymbol ∧ t.algo.orderSymbol = s.algo.orderSymbol)
    (htick : t.phase = .looping → cfg.mktDataSymbol ∈ t.mgr.lastTicks) : Subscribed cfg t :=
  ⟨halgo.1.trans h.mktDataSymbol, halgo.2.trans h.orderSymbol, htick⟩

theorem step (h : Subscribed cfg s) (ht : Moved s a t) : Subscribed cfg t := by
  cases ht with
  | startRecorder => exact h.frame ⟨rfl, rfl⟩ (by simp)
  | @startGateway connects => exact h.frame ⟨rfl, rfl⟩ (by cases connects <;> simp)
  | connected => exact h.frame ⟨rfl, rfl⟩ (by simp)
  | startPortfolio => exact h.frame ⟨rfl, rfl⟩ (by simp)
  | startAlgo hphase ht =>
    have hmem := startAlgo_subscribes ht
    obtain ⟨mgr, api, _, _, rfl⟩ := startAlgo_cases ht
    exact h.frame ⟨rfl, rfl⟩ fun _ => h.mktDataSymbol ▸ hmem
  | @turn m events hm ht =>
    rw [System.turned]
    split
    · next e _ cb _ =>
      refine h.frame ?_ fun hphase => ?_
      · rw [System.call_algo]
        split
        · obtain hcb | ⟨hcb, _⟩ := AlgoSystem.eventEngineCb_cases s.algo e
          · rw [hcb]
            exact ⟨rfl, rfl⟩
          · rw [hcb]
            exact ⟨rfl, rfl⟩
        · exact ⟨rfl, rfl⟩
      · rw [System.call_phase] at hphase
        have htick : cfg.mktDataSymbol ∈ { s with events := events }.mgr.lastTicks :=
          h.tick hphase
        exact call_lastTicks htick e cb
    · exact h.frame ⟨rfl, rfl⟩ h.tick
  | @act e r hheld hr =>
    refine h.frame (t := s.acted r) ?_ h.tick
    have hhandled := (handle_handled hr).1
    rw [System.acted]
    generalize r.engine = b at hhandled ⊢
    cases hhandled <;> exact ⟨rfl, rfl⟩
  | round =>
    obtain hround | ⟨p, event, events, _, hround⟩ := round_cases s
    · rw [hround]
      exact h
    · rw [hround]
      exact h.frame ⟨rfl, rfl⟩ h.tick
  | _ => exact h.frame ⟨rfl, rfl⟩ h.tick

end Subscribed

theorem sendOrder_returns {t : TradingEngine} {req : OrderReq} {contract : Contract}
    (hcontract : generateContract req.symbol = .ok contract) (hids : t.api.mOrderId ≠ unsetLong)
    (hunset : isUnsetLlong req.orderId = true) : ∃ p, t.sendOrder req = .ok p := by
  have hapi : (t.screen req).2.api = t.api := by
    obtain ⟨_, hapi, _⟩ | ⟨_, hapi, _⟩ := screen_cases t req <;> exact hapi
  obtain ⟨out, hout, _⟩ := sendOrder_new hcontract hunset (hapi ▸ hids)
  rw [TradingEngine.sendOrder]
  dsimp only
  split
  · exact ⟨_, rfl⟩
  · exact ⟨_, forward_eq_ok.mpr ⟨out, hout, rfl, rfl, rfl⟩⟩

variable {cfg : Config} {s : System}

theorem made_subscribed (cfg : Config) : Subscribed cfg (made cfg) := ⟨rfl, rfl, by simp [made]⟩

theorem subscribed {ok : System → Move → Prop} (hs : (trader cfg).Reaches ok s) :
    Subscribed cfg s := by
  apply hs.invariant
  · exact made_subscribed cfg
  · exact fun _ _ _ _ h _ ht => h.step (step_moved ht)

theorem mirrored (hs : (trader cfg).Reaches Orderly s) :
    ∃ u, (actions cfg.mktDataSymbol cfg.orderSymbol).Reaches Fresh u ∧
      Mirrors s u := by
  apply hs.simulates
  · refine ⟨rfl, rfl, ?_⟩
    simp [actions]
  · intro s a t u hs hu hm hok ht
    obtain ⟨hg, hv⟩ := events_sound hs
    obtain ⟨hstarted, hbook⟩ := algoBook hs
    exact hm.step hg hv hstarted hbook hu (step_moved ht)

/-- The action thread ends with an exception when a request comes while the order in
flight is being cancelled, or when publishing the tick fails. No handler follows a
null pointer or looks up an order that is not there. -/
theorem action_throws_iff (hs : (trader cfg).Reaches Orderly s) {e : Event}
    (hheld : s.held = some e) {contract : Contract}
    (hcontract : generateContract cfg.orderSymbol = .ok contract)
    (hids : s.trading.api.mOrderId ≠ unsetLong) (publishes : Bool) (fault : Fault) :
    s.algo.handle s.trading (s.mgr.getLastTick s.algo.mktDataSymbol) e publishes =
        .error fault ↔
      (fault = .latencyTooHigh ∧ 0 < s.algo.inflightOrderId ∧ s.algo.orderCancelled = true ∧
        ∃ pos, e = .algoPosUpdate pos ∧ pos.retry = false) ∨
      (fault = .redisError ∧ publishes = false ∧ ∃ timer, e = .timer timer) := by
  obtain ⟨u, hu, hm⟩ := mirrored hs
  have hsub := subscribed hs
  cases e with
  | algoPosUpdate pos =>
    simp only [AlgoEngine.handle, AlgoEngine.updatePosCb, reduceCtorEq, exists_false, and_false,
      or_false]
    by_cases hfly : 0 < s.algo.inflightOrderId
    · have hreq : s.algo.inflightOrderId ∈ s.algo.orderReqs := by
        have hrequest := (disciplined hu).request
        rw [hm.engine] at hrequest
        exact hrequest hfly
      rw [if_pos hfly, AlgoEngine.retryPos]
      cases hcancelled : s.algo.orderCancelled with
      | false => simp [hreq]
      | true =>
        cases hretry : pos.retry with
        | false =>
          constructor
          · intro h
            cases h
            exact ⟨rfl, hfly, rfl, pos, rfl, hretry⟩
          · rintro ⟨rfl, _⟩
            rfl
        | true =>
          refine iff_of_false (by simp) ?_
          rintro ⟨_, _, _, pos', he, hretry'⟩
          cases he
          cases hretry.symm.trans hretry'
    · have hsymbol : generateContract
          (({ s.algo with targetPos := pos.pos }.newOrderReq s.algo.orderSymbol
            (pos.pos - s.algo.currPos)).symbol) = .ok contract := by
        rw [← hcontract, ← hsub.orderSymbol]
        rfl
      obtain ⟨p, hp⟩ := sendOrder_returns hsymbol hids rfl
      rw [if_neg hfly]
      simp only [hfly, false_and, and_false, iff_false]
      split
      · simp only [AlgoEngine.sendOrder, hp, bind, Except.bind]
        exact fun h => by cases h
      · exact fun h => by cases h
  | timer timer =>
    obtain ⟨hstarted, _⟩ := algoBook hs
    have hphase := hstarted.looping (hstarted.action (by rw [hheld]; rfl))
    obtain ⟨tick, htick⟩ := Table.mem_iff_lookup.mp (hsub.tick hphase)
    rw [hsub.mktDataSymbol, MarketDataManager.getLastTick, htick]
    cases publishes with
    | true => simp [AlgoEngine.handle, AlgoEngine.timerCb]
    | false =>
      simp only [AlgoEngine.handle, AlgoEngine.timerCb, Bool.false_eq_true, if_false,
        Except.error.injEq]
      constructor
      · rintro rfl
        exact .inr ⟨rfl, trivial, timer, rfl⟩
      · rintro (⟨_, _, _, pos, he, _⟩ | ⟨rfl, _⟩)
        · cases he
        · rfl
  | _ => simp [AlgoEngine.handle]

/-- Three requests in a row: the first is sent, the second has it cancelled. -/
def threeRequests : List Move :=
  [.startRecorder .eventEngineStop, .startGateway true, .callback (.nextValidId 1), .connected,
    .startPortfolio, .startAlgo, .listen ⟨"6758", 10, 0⟩, .pop, .act, .listen ⟨"6758", 20, 1⟩,
    .listen ⟨"6758", 30, 2⟩, .pop, .act, .pop]

def hurried : System :=
  ((trader sony).restrict fun s a => decide (Orderly s a)).stateAfter threeRequests
    (by decide +kernel)

theorem action_throws_iff_hurried :
    hurried.algo.handle hurried.trading (hurried.mgr.getLastTick hurried.algo.mktDataSymbol)
      (.algoPosUpdate { symbol := "6758", pos := 30, timestamp := 2 }) = .error .latencyTooHigh := by
  have hheld : hurried.held =
      some (.algoPosUpdate { symbol := "6758", pos := 30, timestamp := 2 }) := by decide +kernel
  have hcontract : generateContract sony.orderSymbol = .ok ⟨"6758", "STK", "JPY", "TSEJ"⟩ := by
    decide +kernel
  refine (action_throws_iff (Machine.reaches_stateAfter _) hheld hcontract ?_ true _).mpr ?_
  · decide +kernel
  · exact .inl ⟨rfl, by decide +kernel, by decide +kernel, _, rfl, rfl⟩

end CalmTrading.ActionThread
