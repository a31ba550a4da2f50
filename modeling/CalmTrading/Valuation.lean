import CalmTrading.MarketFeed
import CalmTrading.PortfolioPnl

namespace CalmTrading.Valuation

open Lib Objects Utils Gateway Requests MarketData MarketFeed PortfolioState PortfolioPnl

/-- The market data with the portfolio behind them. `popped` is the event
variable of `run_actions`. History are `asked`, the symbols that the manager was
told to subscribe to, and `timed`, whether the last step was a `timer_cb`. -/
structure Market where
  feed : Feed := {}
  portfolio : Portfolio := {}
  popped : Option Event := none
  asked : List String := []
  timed : Bool := false

inductive Move
  | feed (m : MarketData.Move)
  | post (e : Event)
  | start
  | stop
  | addToPortfolio (algo symbol : String)
  | addMarketDataMapping (algo orderSymbol marketSymbol : String)
  | act

def dispatched? (f : Feed) : MarketData.Move → Option Event
  | .dispatch => f.queue.head?
  | _ => none

def asked? : MarketData.Move → Option String
  | .managerSubscribe symbol _ => some symbol
  | _ => none

def isTimer : Event → Bool
  | .timer _ => true
  | _ => false

namespace Market

/-- The event that the next round of `run_actions` handles, and the queue after it. -/
def next (s : Market) : Option Event × List Event := s.portfolio.next s.popped

def act (s : Market) : Market :=
  match s.portfolio.round s.popped s.feed.mgr.getLastTick with
  | none => { s with timed := false }
  | some (e, p, events) =>
    { s with
      feed := { s.feed with queue := s.feed.queue ++ events }
      portfolio := p
      popped := some e
      timed := isTimer e }

/-- An event that the event engine dispatches goes to the manager if it is a
tick, and to the portfolio if it is an order event or a timer. -/
def step (s : Market) : Move → Option Market
  | .feed m =>
    (s.feed.step m).map fun f =>
      { s with
        feed := f
        portfolio := (dispatched? s.feed m).elim s.portfolio s.portfolio.eventEngineCb
        asked := (asked? m).toList ++ s.asked
        timed := false }
  | .post e =>
    if e.tickData? = none then
      some { s with feed := { s.feed with queue := s.feed.queue ++ [e] }, timed := false }
    else none
  | .start =>
    if s.portfolio.running then some { s with timed := false }
    else
      some
        { s with portfolio := { s.portfolio with running := true }, popped := none, timed := false }
  | .stop => some { s with portfolio := { s.portfolio with running := false }, timed := false }
  | .addToPortfolio algo symbol =>
    some { s with portfolio := s.portfolio.addToPortfolio algo symbol, timed := false }
  | .addMarketDataMapping algo orderSymbol marketSymbol =>
    some
      { s with
        portfolio := s.portfolio.addMarketDataMapping algo orderSymbol marketSymbol
        timed := false }
  | .act => if s.portfolio.running then some s.act else none

end Market

def market : Machine Market Move where
  init := {}
  step := Market.step

def processed (f : Feed) : List (String × Callback) :=
  f.heard.take (f.heard.length - (tickEvents f.queue).length)

def Traded (f : Feed) (symbol : String) : Prop :=
  ∃ c, (symbol, c) ∈ processed f ∧ (trade? c).isSome = true

def Touched (s : Market) (symbol : String) : Prop :=
  symbol ∈ s.asked ∨ symbol ∈ (processed s.feed).map Prod.fst

def Unpriced (s : Market) (algo : String) : Prop :=
  ∃ port, s.portfolio.algoPortfolio.lookup algo = some port ∧
    ∃ sym ∈ port, ¬ Traded s.feed (marketSymbol s.portfolio algo sym)

/-- After a `timer_cb` the PnL of an algorithm with an unpriced symbol is unset,
and the total with it. -/
def Honest (s : Market) : Prop :=
  s.timed = true → ∀ algo, Unpriced s algo →
    s.portfolio.algoPnl.lookup algo = some unsetDouble ∧ s.portfolio.totalPnl = unsetDouble

def Untouched (s : Market) (algo : String) : Prop :=
  ∃ port, s.portfolio.algoPortfolio.lookup algo = some port ∧
    ∃ sym ∈ port, ¬ Touched s (marketSymbol s.portfolio algo sym)

/-- Whenever a timer event is handled, every algorithm with an unpriced symbol
holds one that the manager has never come across, or values that add up to
exactly the unset double. -/
def Blank (s : Market) : Move → Prop
  | .act => ∀ timer, s.next.1 = some (.timer timer) → ∀ algo, Unpriced s algo →
      Untouched s algo ∨ Saturated s.feed.mgr.getLastTick s.portfolio algo
  | _ => True

/-- All that a step of the feed does to the ticks on their way. -/
inductive Ticks (f : Feed) : MarketData.Move → Feed → Prop
  | quiet {m : MarketData.Move} {g : Feed} (hm : asked? m = none) (hheard : g.heard = f.heard)
      (hq : tickEvents g.queue = tickEvents f.queue) (hmgr : g.mgr = f.mgr) : Ticks f m g
  | asked {symbol : String} {delayed : Bool} {g : Feed} (hheard : g.heard = f.heard)
      (hq : tickEvents g.queue = tickEvents f.queue)
      (hmgr : ∀ sym, sym ∈ g.mgr.lastTicks ↔ sym = symbol ∨ sym ∈ f.mgr.lastTicks) :
      Ticks f (.managerSubscribe symbol delayed) g
  | heard {c : Callback} {tick : TickData} {g : Feed}
      (hheard : g.heard = f.heard ++ [(tick.symbol, c)])
      (hq : tickEvents g.queue = tickEvents f.queue ++ [tick]) (hmgr : g.mgr = f.mgr) :
      Ticks f (.callback c) g
  | dispatched {d : TickData} {g : Feed} (hheard : g.heard = f.heard)
      (hq : tickEvents f.queue = d :: tickEvents g.queue) (hmgr : g.mgr = f.mgr.updateTicks d) :
      Ticks f .dispatch g

theorem subscribe_events {api : IBApi} {symbol : String} {delayed : Bool} {out : Out}
    (h : api.subscribe symbol delayed = .ok out) : out.events = [] := by
  obtain ⟨rfl, _⟩ | ⟨_, _, _, _, _, hevents, _⟩ := subscribe_cases h
  · rfl
  · exact hevents

theorem callback_heard {f : Feed} (hf : Attributed f) {c : Callback} {out : Out}
    (h : f.api.callback c = .ok out) : Ticks f (.callback c) ((f.hear c).after none out) := by
  obtain ⟨id, upd, hc, rfl, hupd⟩ | ⟨hc, _, _, _, _, hev, _⟩ := callback_ticks h
  · cases hsym : f.api.reqId2sym.lookup id with
    | none =>
      rw [hf.unticked hc hsym]
      exact .quiet rfl rfl rfl rfl
    | some symbol =>
      obtain ⟨tick, htick, hm⟩ := hf.cached symbol
        (hf.subscribed id symbol ((hf.owner id symbol).mp hsym))
      have hsymbol := (hupd _ _ _ hm).symbol
      have hout : f.api.updateTick id upd =
          { api := { f.api with ticks := f.api.ticks.insert symbol (upd tick) }
            events := [.tickData (upd tick)] } := by
        simp [IBApi.updateTick, hsym, htick]
      refine @Ticks.heard _ _ (upd tick) _ ?_ ?_ rfl
      · simp [Feed.after, Feed.hear, hf.owner?_eq hc, hsym, hsymbol]
      · rw [hout]
        exact tickEvents_append _ _
  · have howner : f.owner? c = none := by simp [Feed.owner?, hc]
    refine .quiet rfl ?_ ?_ rfl
    · simp [Feed.after, Feed.hear, howner]
    · simp [Feed.after, Feed.hear, hev]

theorem feed_ticks {f g : Feed} {m : MarketData.Move} (hf : Attributed f)
    (hg : f.step m = some g) : Ticks f m g := by
  cases m with
  | session running =>
    cases hg
    exact .quiet rfl rfl rfl rfl
  | subscribe symbol delayed =>
    obtain ⟨out, hout, rfl⟩ := toOption_map_eq_some.mp hg
    exact .quiet rfl rfl (by simp [Feed.after, subscribe_events hout]) rfl
  | managerSubscribe symbol delayed =>
    simp only [Feed.step, MarketDataManager.subscribe] at hg
    by_cases hnew : symbol ∈ f.mgr.lastTicks
    · simp only [hnew, if_true, Bool.false_eq_true, if_false, Option.some.injEq] at hg
      subst hg
      refine .asked rfl rfl fun sym => ⟨.inr, ?_⟩
      rintro (rfl | h)
      · exact hnew
      · exact h
    · simp only [hnew, if_false, if_true] at hg
      obtain ⟨out, hout, rfl⟩ := toOption_map_eq_some.mp hg
      exact .asked rfl (by simp [Feed.after, subscribe_events hout]) fun sym => AList.mem_insert _
  | reqHistoricalBar symbol endTime duration barSize wts useRth format =>
    obtain ⟨⟨reqId, out⟩, hout, rfl⟩ := toOption_map_eq_some.mp hg
    obtain ⟨rfl, contract, rfl⟩ := reqHistoricalBar_eq_ok hout
    exact .quiet rfl rfl (by simp [Feed.after]) rfl
  | reqContractDetails symbol =>
    obtain ⟨out, hout, rfl⟩ := toOption_map_eq_some.mp hg
    obtain ⟨contract, rfl⟩ := reqContractDetails_eq_ok hout
    exact .quiet rfl rfl (by simp [Feed.after]) rfl
  | callback c =>
    obtain ⟨out, hout, rfl⟩ := toOption_map_eq_some.mp hg
    exact callback_heard hf hout
  | dispatch =>
    simp only [Feed.step] at hg
    split at hg
    · cases hg
    · next d rest hq =>
      cases hg
      exact .dispatched rfl (by rw [hq]; rfl) rfl
    · next e rest hne hq =>
      cases hg
      refine .quiet rfl rfl ?_ rfl
      rw [hq]
      cases e <;> first | rfl | exact absurd rfl (hne _)

/-- What holds of the ticks in every reachable state: the tick events in the
queue are those of the last callbacks, and the manager knows the symbols that it
has come across. -/
structure Tracked (s : Market) : Prop where
  attributed : Attributed s.feed
  transit : s.feed.heard.map Prod.fst =
    (processed s.feed).map Prod.fst ++ (tickEvents s.feed.queue).map TickData.symbol
  known : ∀ symbol, symbol ∈ s.feed.mgr.lastTicks ↔ Touched s symbol

theorem Tracked.length {s : Market} (h : Tracked s) :
    s.feed.heard.length = (processed s.feed).length + (tickEvents s.feed.queue).length := by
  simpa using congrArg List.length h.transit

theorem processed_congr {f g : Feed} (hheard : g.heard = f.heard)
    (hq : tickEvents g.queue = tickEvents f.queue) : processed g = processed f := by
  rw [processed, processed, hheard, hq]

namespace Tracked

variable {s : Market}

theorem quiet (h : Tracked s) {t : Market} (hattr : Attributed t.feed)
    (hheard : t.feed.heard = s.feed.heard)
    (hq : tickEvents t.feed.queue = tickEvents s.feed.queue) (hmgr : t.feed.mgr = s.feed.mgr)
    (hasked : t.asked = s.asked) : Tracked t where
  attributed := hattr
  transit := by
    rw [processed_congr hheard hq, hheard, hq]
    exact h.transit
  known symbol := by
    rw [Touched, processed_congr hheard hq, hmgr, hasked]
    exact h.known symbol

theorem feed (h : Tracked s) {m : MarketData.Move} {g : Feed} {t : Market}
    (hg : s.feed.step m = some g) (hfeed : t.feed = g)
    (hasked : t.asked = (asked? m).toList ++ s.asked) : Tracked t := by
  have hattr : Attributed g := h.attributed.step hg
  subst hfeed
  cases feed_ticks h.attributed hg with
  | quiet hm hheard hq hmgr =>
    rw [hm] at hasked
    exact h.quiet hattr hheard hq hmgr hasked
  | @asked symbol _ _ hheard hq hmgr =>
    refine ⟨hattr, ?_, fun sym => ?_⟩
    · rw [processed_congr hheard hq, hheard, hq]
      exact h.transit
    · rw [hmgr, h.known, Touched, Touched, processed_congr hheard hq, hasked]
      simp [asked?, or_assoc]
  | @heard c tick _ hheard hq hmgr =>
    have hprocessed : processed t.feed = processed s.feed := by
      have hlen := h.length
      simp only [processed, hheard, hq, List.length_append, List.length_singleton]
      rw [List.take_append_of_le_length (by omega)]
      congr 1
      omega
    refine ⟨hattr, ?_, fun sym => ?_⟩
    · rw [hprocessed, hheard, hq, List.map_append, h.transit, List.map_append, List.append_assoc]
      rfl
    · rw [Touched, hprocessed, hmgr, hasked]
      exact h.known sym
  | @dispatched d _ hheard hq hmgr =>
    -- The callback of the tick that was dispatched comes next.
    have hfst : (processed t.feed).map Prod.fst = (processed s.feed).map Prod.fst ++ [d.symbol] := by
      have hlen := h.length
      have htransit := h.transit
      rw [hq, List.length_cons] at hlen
      rw [hq, List.map_cons, List.append_cons] at htransit
      have hk : t.feed.heard.length - (tickEvents t.feed.queue).length =
          (processed s.feed).length + 1 := by
        rw [hheard]
        omega
      rw [processed, hk, hheard, List.map_take, htransit]
      apply List.take_left'
      simp
    refine ⟨hattr, ?_, fun sym => ?_⟩
    · have htransit := h.transit
      rw [hfst, hheard, htransit, hq, List.map_cons, List.append_assoc]
      rfl
    · have hmem : sym ∈ (s.feed.mgr.updateTicks d).lastTicks ↔
          sym = d.symbol ∨ sym ∈ s.feed.mgr.lastTicks := AList.mem_insert _
      rw [hmgr, hmem, h.known, Touched, Touched, hfst, hasked]
      simp only [asked?, Option.toList_none, List.nil_append, List.mem_append, List.mem_singleton]
      constructor
      · rintro (h | h | h)
        · exact .inr (.inr h)
        · exact .inl h
        · exact .inr (.inl h)
      · rintro (h | h | h)
        · exact .inr (.inl h)
        · exact .inr (.inr h)
        · exact .inl h

theorem enqueue (h : Tracked s) {events : List Event} (hev : tickEvents events = []) {t : Market}
    (hfeed : t.feed = { s.feed with queue := s.feed.queue ++ events })
    (hasked : t.asked = s.asked) : Tracked t := by
  have hq : tickEvents (s.feed.queue ++ events) = tickEvents s.feed.queue := by
    rw [tickEvents_append, hev, List.append_nil]
  have hattr : Attributed { s.feed with queue := s.feed.queue ++ events } :=
    h.attributed.enqueued hev
  apply h.quiet (hfeed ▸ hattr) (by rw [hfeed]) (by rw [hfeed, hq]) (by rw [hfeed]) hasked

theorem portfolio (h : Tracked s) {t : Market} (hfeed : t.feed = s.feed)
    (hasked : t.asked = s.asked) : Tracked t :=
  h.quiet (hfeed ▸ h.attributed) (by rw [hfeed]) (by rw [hfeed]) (by rw [hfeed]) hasked

end Tracked

theorem handle_events (p : Portfolio) (lastTick : String → Option TickData) (e : Event) :
    tickEvents (p.handle lastTick e).2 = [] := by
  cases e with
  | timer timer =>
    simp only [Portfolio.handle, Portfolio.timerCb]
    split
    · rw [tickEvents_append, tickEvents, List.filterMap_map]
      simp [Function.comp_def, Event.tickData?, tickEvents]
    · rfl
  | _ => rfl

theorem act_eq (s : Market) :
    s.act =
      match s.next with
      | (none, _) => { s with timed := false }
      | (some e, q) =>
        let (p, events) := { s.portfolio with q := q }.handle s.feed.mgr.getLastTick e
        { s with
          feed := { s.feed with queue := s.feed.queue ++ events }
          portfolio := p
          popped := some e
          timed := isTimer e } := by
  rw [Market.act, Portfolio.round, Market.next]
  obtain ⟨_ | e, q⟩ := s.portfolio.next s.popped <;> rfl

theorem act_feed (s : Market) :
    ∃ events, tickEvents events = [] ∧
      s.act.feed = { s.feed with queue := s.feed.queue ++ events } ∧ s.act.asked = s.asked := by
  rw [act_eq]
  obtain ⟨_ | e, q⟩ := s.next
  · exact ⟨[], rfl, by simp, rfl⟩
  · exact ⟨_, handle_events _ _ e, rfl, rfl⟩

theorem Tracked.step {s t : Market} {a : Move} (h : Tracked s) (ht : market.step s a = some t) :
    Tracked t := by
  cases a with
  | feed m =>
    obtain ⟨g, hg, rfl⟩ := Option.map_eq_some_iff.mp ht
    exact h.feed hg rfl rfl
  | post e =>
    simp only [market, Market.step] at ht
    split at ht <;> cases ht
    next he => exact h.enqueue (by simp [tickEvents, he]) rfl rfl
  | start =>
    simp only [market, Market.step] at ht
    split at ht <;> cases ht <;> exact h.portfolio rfl rfl
  | stop | addToPortfolio | addMarketDataMapping =>
    cases ht
    exact h.portfolio rfl rfl
  | act =>
    simp only [market, Market.step] at ht
    split at ht <;> cases ht
    obtain ⟨events, hev, hfeed, hasked⟩ := act_feed s
    exact h.enqueue hev hfeed hasked

theorem tracked_init : Tracked market.init :=
  ⟨.init, rfl, fun symbol => by simp [market, Touched, processed]⟩

/-- Only handling a timer event leaves the portfolio just timed. -/
theorem timed_step {s t : Market} {a : Move} (ht : market.step s a = some t) :
    t.timed = false ∧ Blank s a ∨
      ∃ timer q, a = .act ∧ s.next = (some (.timer timer), q) ∧ t = s.act := by
  cases a with
  | feed m =>
    obtain ⟨g, _, rfl⟩ := Option.map_eq_some_iff.mp ht
    exact .inl ⟨rfl, trivial⟩
  | post e =>
    simp only [market, Market.step] at ht
    split at ht <;> cases ht
    exact .inl ⟨rfl, trivial⟩
  | start =>
    simp only [market, Market.step] at ht
    split at ht <;> cases ht <;> exact .inl ⟨rfl, trivial⟩
  | stop | addToPortfolio | addMarketDataMapping =>
    cases ht
    exact .inl ⟨rfl, trivial⟩
  | act =>
    simp only [market, Market.step] at ht
    split at ht <;> cases ht
    obtain ⟨o, q, hnext⟩ : ∃ o q, s.next = (o, q) := ⟨_, _, rfl⟩
    cases o with
    | none =>
      refine .inl ⟨by simp [act_eq, hnext], ?_⟩
      simp [Blank, hnext]
    | some e =>
      cases e with
      | timer timer => exact .inr ⟨timer, q, rfl, hnext, rfl⟩
      | _ =>
        refine .inl ⟨by simp [act_eq, hnext, isTimer], ?_⟩
        simp [Blank, hnext]

variable {s : Market}

theorem Tracked.untouched_iff (h : Tracked s) (algo : String) :
    Untouched s algo ↔ Unticked s.feed.mgr.getLastTick s.portfolio algo := by
  have hknown : ∀ symbol, ¬ Touched s symbol ↔ s.feed.mgr.getLastTick symbol = none :=
    fun symbol => by rw [← h.known, MarketDataManager.getLastTick, AList.lookup_eq_none]
  simp only [Untouched, Unticked, hknown]

theorem honest_act (h : Tracked s) {timer : Timer} {q : List Event}
    (hnext : s.next = (some (.timer timer), q)) : Honest s.act ↔ Blank s .act := by
  obtain ⟨events, hev, hfeed, _⟩ := act_feed s
  have htimed : s.act.timed = true := by simp [act_eq, hnext, isTimer]
  have hportfolio : s.act.portfolio =
      ({ s.portfolio with q := q }.timerCb s.feed.mgr.getLastTick timer).1 := by
    simp [act_eq, hnext, Portfolio.handle]
  have hprocessed : processed s.act.feed = processed s.feed := by
    apply processed_congr
    · rw [hfeed]
    · rw [hfeed, tickEvents_append, hev, List.append_nil]
  have hbook : s.act.portfolio.algoPortfolio = s.portfolio.algoPortfolio := by
    rw [hportfolio]
    exact (timerCb_repriced _ _ timer).algoPortfolio
  have hunpriced : ∀ algo, Unpriced s.act algo ↔ Unpriced s algo := by
    intro algo
    simp only [Unpriced, Traded, hprocessed, hbook]
    rw [hportfolio]
    simp only [timerCb_marketSymbol]
    rfl
  have hblank : Blank s .act ↔ ∀ algo, Unpriced s algo →
      Untouched s algo ∨ Saturated s.feed.mgr.getLastTick s.portfolio algo := by
    simp [Blank, hnext]
  rw [hblank, Honest]
  simp only [htimed, true_implies, hunpriced]
  refine forall₂_congr fun algo hunpriced => ?_
  obtain ⟨port, hport, _⟩ := hunpriced
  have hpnl := timerCb_algoPnl_unset_iff s.feed.mgr.getLastTick (p := { s.portfolio with q := q })
    hport timer
  have htotal := timerCb_totalPnl_unset_iff s.feed.mgr.getLastTick { s.portfolio with q := q } timer
  rw [hportfolio, h.untouched_iff, hpnl, htotal]
  constructor
  · exact fun hboth => hboth.1
  · exact fun hone => ⟨hone, .inl ⟨algo, hone⟩⟩

theorem honest_step {t : Market} {a : Move} (h : Tracked s) (ht : market.step s a = some t) :
    Honest t ↔ Blank s a := by
  obtain ⟨htimed, hblank⟩ | ⟨timer, q, rfl, hnext, rfl⟩ := timed_step ht
  · exact iff_of_true (fun h => by simp [htimed] at h) hblank
  · exact honest_act h hnext

theorem pnl_only_from_prices_iff (as : List Move) :
    market.StatesAll Honest market.init as ↔ market.StepsAll Blank market.init as := by
  apply Machine.statesAll_iff_stepsAll (I := Tracked)
  · exact fun _ _ _ h ht => h.step ht
  · exact fun _ _ _ h _ ht => honest_step h ht
  · exact tracked_init
  · exact fun h => by simp [market] at h

def fill : OrderData where
  orderId := 1
  symbol := "6758-STK-JPY.TSEJ"
  exchange := ""
  source := "algo_engine"
  orderType := .market
  action := .buy
  totalQuantity := 100
  tradedQuantity := 100
  avgTradePrice := 25
  status := .filled

/-- A hundred shares are bought at 25, the symbol is subscribed to, and the
timer comes before any price. -/
def unpriced : List Move :=
  [.feed (.session true), .feed (.managerSubscribe "6758-STK-JPY.TSEJ" false), .start,
    .post (.orderData fill), .feed .dispatch, .act, .post (.timer ⟨1, 7⟩), .feed .dispatch, .act]

theorem pnl_without_price : ¬ ∀ s, market.Reachable s → Honest s := by
  intro hall
  have hrun : ((market.run market.init unpriced).map fun s =>
      (s.timed, s.portfolio.totalPnl, s.feed.heard.length,
        (s.portfolio.algoPortfolio.lookup "algo_engine").map AList.keys)) =
      some (true, -2500, 0, some ["6758-STK-JPY.TSEJ"]) := by
    decide +kernel
  obtain ⟨s, hs, hend⟩ := Machine.exists_reachable_of_run hrun
  obtain ⟨htimed, hend⟩ := Prod.mk.inj hend
  obtain ⟨htotal, hend⟩ := Prod.mk.inj hend
  obtain ⟨hheard, hkeys⟩ := Prod.mk.inj hend
  obtain ⟨port, hport, hkeys⟩ := Option.map_eq_some_iff.mp hkeys
  have hunpriced : Unpriced s "algo_engine" := by
    refine ⟨port, hport, "6758-STK-JPY.TSEJ", by rw [AList.mem_keys, hkeys]; decide, ?_⟩
    rintro ⟨c, hc, _⟩
    simp [processed, List.eq_nil_of_length_eq_zero hheard] at hc
  have hunset := (hall s hs htimed _ hunpriced).2
  rw [htotal] at hunset
  exact absurd hunset (by decide +kernel)

end CalmTrading.Valuation
