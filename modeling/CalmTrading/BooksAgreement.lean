import CalmTrading.AlgoBooks
import CalmTrading.Lib.Totals

namespace CalmTrading.BooksAgreement

open Lib Objects Utils Gateway OrderRecords Risk PortfolioState PortfolioBook Algo
open PortfolioFlow (Flow Linked)
open PositionAccounting (fillOf fill_currPos)
open EventLoop (RunMove)
open EventDispatch (Guarded Served)
open AlgoSystem (Config sony)
open EventFeeds TraderSystem TraderBooks AlgoBooks

section Portfolio

variable {s t : System} {a : Move} {book : Orders}

/-- The portfolio holds what `book` amounts to, and `book` is behind the gateway
by the events on their way. -/
structure PortfolioBook (s : System) (book : Orders) : Prop where
  refines : Refines s.trading.portfolio book
  replica : Replica s.trading.api.orders book.find? (portfolioPipe s)
  event : ∀ d, s.event = some (.orderData d) → book.find? d.orderId = some d

/-- The part of the system that the flow of orders to the portfolio is made of. -/
def flow (s : System) : Flow where
  api := s.trading.api
  eventQueue := (component .portfolio).coming s.events
  portfolio := s.trading.portfolio
  popped := s.event

namespace PortfolioBook

theorem linked (h : PortfolioBook s book) : Linked (flow s) book where
  refines := h.refines
  seen id := by
    have hpipe : (flow s).pipe = portfolioPipe s := by simp [Flow.pipe, flow, portfolioPipe, pipe]
    rw [hpipe]
    exact h.replica.seen id
  booked id d hd := (h.replica.booked id d hd).2
  transit d hd := h.replica.transit d (by simpa [Flow.pipe, flow, portfolioPipe, pipe] using hd)
  announced := by simp [Flow.announcing, flow]
  recorded := by simp [flow]
  reporting := by simp [flow]
  popped := h.event

theorem of_linked {queue : List Event} (h : Linked { flow s with eventQueue := queue } book)
    (hqueue : orderEvents queue = orderEvents ((component .portfolio).coming s.events)) :
    PortfolioBook s book := by
  have hpipe : Flow.pipe { flow s with eventQueue := queue } = portfolioPipe s := by
    simp [Flow.pipe, flow, portfolioPipe, pipe, hqueue]
  refine ⟨h.refines, ⟨fun id => ?_, fun id d hd => ?_, fun d hd => ?_⟩, h.popped⟩
  · have hseen := h.seen id
    rw [hpipe] at hseen
    exact hseen
  · exact ⟨Orders.orderId_of_find? hd, h.booked id d hd⟩
  · exact h.transit d (hpipe ▸ hd)

theorem frame (h : PortfolioBook s book) (hrefines : Refines t.trading.portfolio book)
    {ds : List OrderData} (hrec : Records s.trading.api.orders t.trading.api.orders ds)
    (hpipe : portfolioPipe t = portfolioPipe s ++ ds)
    (hevent : t.event = s.event ∨ t.event = none) :
    PortfolioBook t book := by
  refine ⟨hrefines, ?_, fun d hd => ?_⟩
  · rw [hpipe]
    exact h.replica.emit hrec
  · obtain hevent | hevent := hevent
    · exact h.event d (hevent ▸ hd)
    · rw [hevent] at hd
      cases hd

theorem quiet (h : PortfolioBook s book) (hrefines : Refines t.trading.portfolio book)
    (horders : t.trading.api.orders = s.trading.api.orders)
    (hpipe : portfolioPipe t = portfolioPipe s) (hevent : t.event = s.event ∨ t.event = none) :
    PortfolioBook t book := by
  apply h.frame hrefines _ (hpipe.trans (List.append_nil _).symm) hevent
  rw [horders]
  exact .same

theorem round (h : PortfolioBook s book) : ∃ book', PortfolioBook s.round book' := by
  obtain ⟨book', hact⟩ := h.linked.act s.mgr.lastTicks
  have hflow : ∃ queue, (flow s).act s.mgr.lastTicks = { flow s.round with eventQueue := queue } ∧
      orderEvents queue = orderEvents ((component .portfolio).coming s.round.events) := by
    have hpost : ∀ u es, orderEvents ((component .portfolio).coming (sendAll u es)) =
        orderEvents ((component .portfolio).coming u ++ es) := by
      intro u es
      rw [sendAll_coming, orderEvents_append, orderEvents_append]
      exact congrArg _ (orderEvents_taken rfl es)
    rw [Flow.act, System.round, Portfolio.round, Portfolio.next, Portfolio.round, Portfolio.next]
    cases hq : s.trading.portfolio.q with
    | nil =>
      cases he : s.event with
      | none =>
        simp only [flow, hq, he]
        exact ⟨_, rfl, rfl⟩
      | some e =>
        simp only [flow, hq, he]
        exact ⟨_, rfl, (hpost _ _).symm⟩
    | cons e rest =>
      simp only [flow, hq]
      exact ⟨_, rfl, (hpost _ _).symm⟩
  obtain ⟨queue, hsame, hqueue⟩ := hflow
  rw [hsame] at hact
  exact ⟨book', of_linked hact hqueue⟩

theorem acted (h : PortfolioBook s book) {r : Acted} (hsame : SamePortfolio s.trading r.trading)
    (hrec : Records s.trading.api.orders r.trading.api.orders (orderEvents r.events)) :
    PortfolioBook (s.acted r) book := by
  obtain ⟨algoPnl, hportfolio⟩ := hsame
  refine h.frame (t := s.acted r) ?_ hrec ?_ (.inl rfl)
  · have hrefines : Refines r.trading.portfolio book := by
      rw [hportfolio]
      exact h.refines.congr (fun _ => rfl) fun _ _ => rfl
    exact hrefines
  · rw [System.acted, portfolioPipe_post]
    simp [portfolioPipe, pipe, hportfolio]

theorem step (hg : Guarded registrations s.events) (hv : Served registrations s.events)
    (hs : Started s) (ha : AlgoBook s) (h : PortfolioBook s book) (ht : Moved s a t) :
    ∃ book', PortfolioBook t book' := by
  cases ht with
  | @startGateway connects hphase =>
    exact ⟨book, h.quiet h.refines (start_same _ connects).1 rfl (.inl rfl)⟩
  | startPortfolio hphase =>
    refine ⟨book, h.quiet ?_ rfl rfl (.inr rfl)⟩
    exact h.refines.congr (fun _ => rfl) fun _ _ => rfl
  | startAlgo hphase ht =>
    obtain ⟨mgr, api, horders, _, rfl⟩ := startAlgo_cases ht
    exact ⟨book, h.quiet h.refines horders rfl (.inl rfl)⟩
  | clock hphase =>
    refine ⟨book, h.quiet h.refines rfl ?_ (.inl rfl)⟩
    rw [System.clock, portfolioPipe_post, clock_orderEvents, List.append_nil]
    rfl
  | callback hout =>
    have hrec := (callback_reports hout).records
    exact ⟨book, h.frame h.refines hrec (portfolioPipe_post _ _) (.inl rfl)⟩
  | @turn m events hm ht =>
    obtain ⟨e, cb, hturned, hcoming⟩ | ⟨hturned, hcoming⟩ := turned_cases hg hv ht
    · have hcoming := hcoming .portfolio
      rw [hturned]
      refine ⟨book, h.quiet ?_ (by rw [System.call_api]) ?_ (.inl (System.call_event _ _ _))⟩
      · rw [System.call_portfolio]
        split
        · exact eventEngineCb_refines h.refines e
        · exact h.refines
      · simp only [portfolioPipe, pipe, System.call_portfolio, System.call_events, hcoming]
        by_cases hpart : cb.part = .portfolio
        · cases e <;> simp [hpart, Portfolio.eventEngineCb, Event.orderData?]
        · simp [hpart]
    · rw [hturned]
      refine ⟨book, h.quiet h.refines rfl ?_ (.inl rfl)⟩
      simp only [portfolioPipe, pipe, hcoming .portfolio]
  | act hheld hr =>
    have hacts := handle_acts hr (hs.counter (by rw [hheld]; rfl)) (fresh ha)
    exact ⟨book, h.acted hacts.samePortfolio (handle_handled hr).2⟩
  | round => exact h.round
  | _ => exact ⟨book, h.quiet h.refines rfl rfl (.inl rfl)⟩

end PortfolioBook

end Portfolio

section Agreement

variable {cfg : Config} {s t : System} {a : Move}

theorem made_portfolioBook (cfg : Config) : PortfolioBook (made cfg) Orders.empty where
  refines := by
    have hempty : Refines ({} : Portfolio) Orders.empty := .empty rfl rfl
    exact addToPortfolio_refines (addMarketDataMapping_refines hempty _ _ _) _ _
  replica := by
    rw [(made_pipe cfg).2]
    exact Replica.empty fun _ => rfl
  event d hd := by cases hd

theorem portfolioBook (hs : (trader cfg).Reaches Orderly s) : ∃ book, PortfolioBook s book := by
  apply hs.invariant
  · exact ⟨_, made_portfolioBook cfg⟩
  · intro s a t hs ⟨book, hbook⟩ _ ht
    obtain ⟨hg, hv⟩ := events_sound hs
    obtain ⟨hstarted, halgo⟩ := algoBook hs
    exact hbook.step hg hv hstarted halgo (step_moved ht)

theorem net_eq_position (h : AlgoBook s)
    (hheld : ∀ id, booked s.algo id = s.trading.api.orders.find? id) :
    net s.algo = position s.trading.api.orders s.algo.name s.algo.orderSymbol := by
  have hnet : net s.algo = Table.total (fun _ => signedQuantity) s.trading.api.orders.table :=
    Table.total_join _ hheld
  rw [hnet, position, holding, Table.total_eq_sum_keys, Table.total_eq_sum_keys]
  refine Finset.sum_congr rfl fun id _ => ?_
  cases hd : s.trading.api.orders.table.lookup id with
  | none => rfl
  | some d =>
    obtain ⟨_, _, hsource, hsymbol⟩ := h.sole id d hd
    simp [hsource, hsymbol]

/-- Once every order event has arrived, the algorithm, the portfolio and the
gateway have the same orders, and the portfolio holds their sum. -/
theorem books_agree (hs : (trader cfg).Reaches Orderly s) (hdrained : Drained s) :
    (∀ id, booked s.algo id = s.trading.api.orders.find? id ∧
      (s.trading.portfolio.algoOrders s.algo.name).lookup id = s.trading.api.orders.find? id) ∧
      (s.trading.portfolio.contractPos s.algo.name s.algo.orderSymbol).pos = net s.algo := by
  obtain ⟨_, halgo⟩ := algoBook hs
  obtain ⟨book, hbook⟩ := portfolioBook hs
  have hreplica := halgo.replica
  have hreplica' := hbook.replica
  rw [hdrained.1] at hreplica
  rw [hdrained.2] at hreplica'
  refine ⟨fun id => ⟨hreplica.drained id, ?_⟩, ?_⟩
  · rw [hbook.refines.orders, hreplica'.drained id]
    cases hd : s.trading.api.orders.find? id with
    | none => rfl
    | some d => simp [Option.filter, (halgo.sole id d hd).2.2.1]
  · rw [hbook.refines.pos, net_eq_position halgo hreplica.drained]
    exact holding_congr _ hreplica'.drained _ _

/-- The algorithm's position is what its records add up to. -/
def Balanced (a : AlgoEngine) : Prop := a.currPos = net a

/-- Booking an event of an order moves both by the change in its fill. -/
theorem fill_balanced (h : AlgoBook s) (hbal : Balanced s.algo) {d : OrderData}
    (hknown : Known s.trading.api.orders d)
    (hfill : s.algo.orderFilled = fillOf (booked s.algo d.orderId)) :
    (s.algo.fill d).currPos = net (s.algo.fill d) := by
  have hold : (s.algo.orderData.lookup d.orderId).elim 0 (fun r => r.elim 0 signedQuantity) =
      (booked s.algo d.orderId).elim 0 signedQuantity := by
    rw [booked]
    cases s.algo.orderData.lookup d.orderId <;> rfl
  have hnet : net (s.algo.fill d) =
      net s.algo - (booked s.algo d.orderId).elim 0 signedQuantity + signedQuantity d := by
    rw [net, AlgoEngine.fill, Table.total_insert, hold]
    rfl
  have hsigned : (booked s.algo d.orderId).elim 0 signedQuantity =
      d.action.sign * s.algo.orderFilled := by
    rw [hfill]
    cases hr : booked s.algo d.orderId with
    | none => simp [fillOf]
    | some r =>
      obtain ⟨hid, hr⟩ := h.replica.booked _ r hr
      have haction := (hknown.same hr hid).action
      simp [fillOf, signedQuantity, haction]
  have hpos : s.algo.currPos = net s.algo := hbal
  rw [fill_currPos, hnet, hsigned, hpos, signedQuantity]
  ring

theorem Balanced.acted (h : AlgoBook s) (hbal : Balanced s.algo) {e : Event} {r : Acted}
    (hheld : s.held = some e) (hacts : Acts s.algo s.trading e r)
    (hok : counted s .act = true) : Balanced r.engine := by
  cases hacts with
  | fill d he hr =>
    subst he
    rw [hr]
    have hknown : Known s.trading.api.orders d :=
      h.replica.transit d (by simp [algoPipe, pipe, hheld, Event.orderData?])
    obtain ⟨x, hx, _⟩ := id hknown
    have hmem := (h.sole _ x hx).2.1
    have hfill : s.algo.orderFilled = fillOf (booked s.algo d.orderId) := by
      simpa [counted, hheld, hmem] using hok
    have hhandled := orderCb_handled s.algo d
    change Balanced (s.algo.orderCb d)
    generalize s.algo.orderCb d = b at hhandled ⊢
    cases hhandled with
    | unknown hd => exact absurd hmem hd
    | active hd hend => exact fill_balanced h hbal hknown hfill
    | ended hd hend => exact fill_balanced h hbal hknown hfill
    | other he => cases he
  | quiet he hapi hportfolio hevents hengine =>
    obtain ⟨_, _, _, _, _, hengine⟩ := hengine
    rw [hengine]
    exact hbal
  | sent he req quantity target hreq hapi hportfolio hevents hengine =>
    have hfree : s.algo.orderData.lookup s.trading.api.mOrderId = none := by
      refine AList.lookup_eq_none.mpr fun hmem => ?_
      obtain ⟨d, hd⟩ := h.entered _ hmem
      cases (fresh h).symm.trans hd
    rw [hengine, Balanced, net, AlgoEngine.inflight, Table.total_insert, hfree]
    have hpos : s.algo.currPos = net s.algo := hbal
    simpa [net] using hpos

theorem balanced (hs : (trader cfg).Reaches Counted s) : Balanced s.algo := by
  apply hs.invariant
  · rfl
  · intro s a t hs hbal hok ht
    have horderly := hs.mono fun _ _ hok => hok.1
    obtain ⟨hstarted, halgo⟩ := algoBook horderly
    obtain ⟨hg, hv⟩ := events_sound horderly
    obtain hquiet | ⟨c, out, rfl, hout, rfl⟩ | ⟨e, r, rfl, hheld, hr, rfl⟩ :=
      moved_quiet hg hv hstarted halgo (step_moved ht)
    · obtain ⟨_, _, hsame⟩ := hquiet.algo
      rw [hsame]
      exact hbal
    · exact hbal
    · have hcounter := hstarted.counter (by rw [hheld]; rfl)
      exact hbal.acted halgo hheld (handle_acts hr hcounter (fresh halgo)) hok.2

/-- Where every order event has found the algorithm's counter right, its position
is the portfolio's and the broker's once all events have arrived. -/
theorem positions_agree (hs : (trader cfg).Reaches Counted s) (hdrained : Drained s) :
    s.algo.currPos = position s.trading.api.orders s.algo.name s.algo.orderSymbol ∧
      (s.trading.portfolio.contractPos s.algo.name s.algo.orderSymbol).pos = s.algo.currPos := by
  have horderly := hs.mono fun _ _ hok => hok.1
  obtain ⟨hbooks, hpos⟩ := books_agree horderly hdrained
  obtain ⟨_, halgo⟩ := algoBook horderly
  have hbal : s.algo.currPos = net s.algo := balanced hs
  rw [hpos, hbal]
  exact ⟨net_eq_position halgo fun id => (hbooks id).1, rfl⟩

def handOut (order : List String) : List Move :=
  [.turn .guard, .turn (.pop order)] ++ order.flatMap (fun _ => [.turn .next, .turn .returned]) ++
    [.turn .next]

def orderCbs : List String :=
  ["risk_order_cb", "algo_engine_order_data", "data_recorder_copy", "portfolio_order_data_cb"]

/-- A request for ten lots is filled. -/
def tenLots : List Move :=
  [.startRecorder .eventEngineStop, .startGateway true, .callback (.nextValidId 1), .connected,
    .startPortfolio, .startAlgo, .listen ⟨"6758", 10, 0⟩, .pop, .act] ++ handOut orderCbs ++
  [.callback (.orderStatus 1 "Filled" 10 25)] ++ handOut orderCbs ++
  [.pop, .act, .pop, .act, .round, .round, .save, .save, .idle]

def filled : System :=
  ((trader sony).restrict fun s a => decide (Counted s a)).stateAfter tenLots (by decide +kernel)

theorem reaches_filled : (trader sony).Reaches Counted filled := Machine.reaches_stateAfter _

theorem filled_drained :
    Drained filled ∧ filled.algo.currPos = 10 ∧ (booked filled.algo 1).isSome = true := by
  decide +kernel

theorem books_agree_filled :
    (booked filled.algo 1).isSome = true ∧
      booked filled.algo 1 = filled.trading.api.orders.find? 1 :=
  ⟨filled_drained.2.2,
    ((books_agree (reaches_filled.mono fun _ _ hok => hok.1) filled_drained.1).1 1).1⟩

theorem positions_agree_filled :
    filled.algo.currPos = 10 ∧
      (filled.trading.portfolio.contractPos filled.algo.name filled.algo.orderSymbol).pos =
        filled.algo.currPos :=
  ⟨filled_drained.2.1, (positions_agree reaches_filled filled_drained.1).2⟩

end Agreement

end CalmTrading.BooksAgreement
