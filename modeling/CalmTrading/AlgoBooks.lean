import CalmTrading.IdSpaces
import CalmTrading.TraderBooks

namespace CalmTrading.AlgoBooks

open Lib Objects Utils Gateway Requests OrderRecords Risk PortfolioState Algo
open EventLoop (RunMove)
open EventDispatch (Guarded Served)
open AlgoSystem (Config)
open EventFeeds TraderSystem TraderBooks

def ready : Phase → Bool
  | .portfolio | .algos | .looping => true
  | _ => false

/-- The algorithm does not run before `run` has an order id. -/
structure Started (s : System) : Prop where
  positive : 0 ≤ s.trading.api.mOrderId → 0 < s.trading.api.mOrderId
  ready : ready s.phase = true → 0 ≤ s.trading.api.mOrderId
  looping : s.algo.running = true → s.phase = .looping
  action : s.held.isSome = true → s.algo.running = true
  idle : s.algo.running = false → ∀ id, s.trading.api.orders.find? id = none

/-- The algorithm is the only one that sends orders, and it holds all of them. -/
structure AlgoBook (s : System) : Prop where
  replica : Replica s.trading.api.orders (booked s.algo) (algoPipe s)
  sole : ∀ id d, s.trading.api.orders.find? id = some d →
    (0 < id ∧ id < s.trading.api.mOrderId) ∧ id ∈ s.algo.orderStatus ∧
      d.source = s.algo.name ∧ d.symbol = s.algo.orderSymbol
  entered : ∀ id ∈ s.algo.orderData, ∃ d, s.trading.api.orders.find? id = some d

variable {s t : System} {a : Move}

/-- A move that has nothing to do with the books of the algorithm. -/
structure Quiet (s t : System) : Prop where
  orders : t.trading.api.orders = s.trading.api.orders
  counter : t.trading.api.mOrderId = s.trading.api.mOrderId
  algo : ∃ running q, t.algo = { s.algo with running := running, q := q }
  pipe : algoPipe t = algoPipe s

theorem eventEngineCb_pipe (a : AlgoEngine) (e : Event) (hrun : e.orderData?.isSome → a.running) :
    ∃ q, a.eventEngineCb e = { a with q := q } ∧ orderEvents q = orderEvents (a.q ++ [e]) := by
  cases e with
  | orderData d =>
    refine ⟨a.q ++ [.orderData d], ?_, rfl⟩
    simp [AlgoEngine.eventEngineCb, AlgoEngine.eventEngineOrderCb, hrun rfl, AlgoEngine.push]
  | _ =>
    obtain hcb | ⟨hcb, _⟩ := AlgoSystem.eventEngineCb_cases a _
    · exact ⟨a.q, hcb, by simp [Event.orderData?]⟩
    · exact ⟨_, hcb, rfl⟩

theorem Quiet.refl (s : System) : Quiet s s := ⟨rfl, rfl, ⟨_, _, rfl⟩, rfl⟩

theorem moved_quiet (hg : Guarded registrations s.events) (hv : Served registrations s.events)
    (hs : Started s) (h : AlgoBook s) (ht : Moved s a t) :
    Quiet s t ∨
      (∃ c out, a = .callback c ∧ s.trading.api.callback c = .ok out ∧
        t = { s with trading := { s.trading with api := out.api } }.post out.events) ∨
      ∃ e r, a = .act ∧ s.held = some e ∧
        s.algo.handle s.trading (s.mgr.getLastTick s.algo.mktDataSymbol) e = .ok r ∧
        t = s.acted r := by
  cases ht with
  | startGateway hphase =>
    refine .inl ⟨?_, ?_, ⟨_, _, rfl⟩, rfl⟩
    · simp only [IBApi.start]
      split <;> rfl
    · simp only [IBApi.start]
      split <;> rfl
  | startAlgo hphase ht =>
    obtain ⟨mgr, api, horders, hid, rfl⟩ := startAlgo_cases ht
    exact .inl ⟨horders, hid, ⟨_, _, rfl⟩, rfl⟩
  | clock hphase =>
    refine .inl ⟨rfl, rfl, ⟨_, _, rfl⟩, ?_⟩
    rw [System.clock, algoPipe_post, clock_orderEvents, List.append_nil]
    rfl
  | callback hout => exact .inr (.inl ⟨_, _, rfl, hout, rfl⟩)
  | listen hrun =>
    refine .inl ⟨rfl, rfl, ⟨_, _, rfl⟩, ?_⟩
    simp [algoPipe, pipe, AlgoEngine.mqMessageCb, AlgoEngine.push, Event.orderData?]
  | turn hm ht =>
    obtain ⟨e, cb, hturned, hcoming⟩ | ⟨hturned, hcoming⟩ := turned_cases hg hv ht
    · have hcoming := hcoming .algo
      rw [hturned]
      refine .inl ?_
      by_cases hpart : cb.part = .algo
      · rw [if_pos hpart, List.singleton_append] at hcoming
        have hrun : e.orderData?.isSome → s.algo.running := by
          intro hsome
          obtain ⟨d, hd⟩ := Option.isSome_iff_exists.mp hsome
          by_contra hidle
          obtain ⟨r, hr, _⟩ := h.replica.transit d (by simp [algoPipe, pipe, hcoming, hd])
          rw [hs.idle (by simpa using hidle)] at hr
          cases hr
        obtain ⟨q, hcb, hq⟩ := eventEngineCb_pipe s.algo e hrun
        refine ⟨by rw [System.call_api], by rw [System.call_api], ⟨s.algo.running, q, ?_⟩, ?_⟩
        · rw [System.call_algo, if_pos hpart, hcb]
        · simp only [algoPipe, pipe, System.call_held, System.call_algo, System.call_events,
            if_pos hpart, hcb, hcoming, orderEvents_append, hq, orderEvents_cons, orderEvents_nil,
            List.append_nil, List.append_assoc]
      · rw [if_neg hpart, List.nil_append] at hcoming
        refine ⟨?_, ?_, ⟨s.algo.running, s.algo.q, ?_⟩, ?_⟩
        · rw [System.call_api]
        · rw [System.call_api]
        · rw [System.call_algo, if_neg hpart]
        · simp only [algoPipe, pipe, System.call_held, System.call_algo, System.call_events,
            if_neg hpart, hcoming]
    · rw [hturned]
      refine .inl ⟨rfl, rfl, ⟨_, _, rfl⟩, ?_⟩
      simp only [algoPipe, pipe, hcoming .algo]
  | pop hrun hheld hq =>
    refine .inl ⟨rfl, rfl, ⟨_, _, rfl⟩, ?_⟩
    simp [algoPipe, pipe, hheld, hq]
  | act hheld hr => exact .inr (.inr ⟨_, _, rfl, hheld, hr, rfl⟩)
  | round =>
    obtain hround | ⟨p, event, events, hevents, hround⟩ := round_cases s
    · rw [hround]
      exact .inl (.refl s)
    · rw [hround]
      refine .inl ⟨rfl, rfl, ⟨_, _, rfl⟩, ?_⟩
      rw [algoPipe_post, hevents, List.append_nil]
      rfl
  | _ => exact .inl ⟨rfl, rfl, ⟨_, _, rfl⟩, rfl⟩

theorem mem_keys_of_find? {orders : Orders} {id : OrderId} {d : OrderData}
    (h : orders.find? id = some d) : id ∈ orders.table.keys :=
  AList.mem_keys.mp (Table.mem_iff_lookup.mpr ⟨d, h⟩)

theorem callback_counter {c : Callback} {out : Out} (hok : Orderly s (.callback c))
    (hout : s.trading.api.callback c = .ok out) :
    out.api.mOrderId = s.trading.api.mOrderId ∨
      0 < out.api.mOrderId ∧
        ∀ id d, s.trading.api.orders.find? id = some d → id < out.api.mOrderId := by
  by_cases hc : ∃ id, c = .nextValidId id
  · obtain ⟨next, rfl⟩ := hc
    cases hout
    obtain ⟨hpos, hall⟩ := Bool.and_eq_true_iff.mp hok
    refine .inr ⟨of_decide_eq_true hpos, fun id d hd => ?_⟩
    exact of_decide_eq_true (List.all_eq_true.mp hall id (mem_keys_of_find? hd))
  · exact .inl (callback_sameCounters hout fun id he => hc ⟨id, he⟩).mOrderId

theorem fresh (h : AlgoBook s) : s.trading.api.orders.find? s.trading.api.mOrderId = none := by
  refine Option.eq_none_iff_forall_ne_some.mpr fun d hd => ?_
  exact absurd (h.sole _ d hd).1.2 (lt_irrefl _)

theorem Started.counter (hs : Started s) (hheld : s.held.isSome = true) :
    0 < s.trading.api.mOrderId := by
  have hphase := hs.looping (hs.action hheld)
  exact hs.positive (hs.ready (by rw [hphase]; rfl))

namespace AlgoBook

theorem quiet (h : AlgoBook s) (hq : Quiet s t) : AlgoBook t := by
  obtain ⟨horders, hcounter, ⟨running, q, halgo⟩, hpipe⟩ := hq
  constructor
  · rw [horders, hpipe, halgo]
    exact h.replica
  · rw [horders, hcounter, halgo]
    exact h.sole
  · rw [horders, halgo]
    exact h.entered

theorem callback (h : AlgoBook s) {c : Callback} {out : Out} (hok : Orderly s (.callback c))
    (hout : s.trading.api.callback c = .ok out) :
    AlgoBook ({ s with trading := { s.trading with api := out.api } }.post out.events) := by
  have hreports := callback_reports hout
  have hrec := hreports.records
  refine ⟨?_, fun id d hd => ?_, fun id hid => ?_⟩
  · rw [algoPipe_post]
    exact h.replica.emit hrec
  · obtain ⟨r, hr⟩ : ∃ r, s.trading.api.orders.find? id = some r := by
      apply Option.isSome_iff_exists.mp
      rw [← IdSpaces.callback_orders hout id]
      exact Option.isSome_iff_exists.mpr ⟨d, hd⟩
    obtain ⟨⟨hpos, hlt⟩, hstatus, hsource, hsymbol⟩ := h.sole id r hr
    obtain ⟨d', hd', hsame⟩ := hrec.kept hr
    obtain rfl : d' = d := Option.some_injective _ (hd'.symm.trans hd)
    refine ⟨⟨hpos, ?_⟩, hstatus, hsame.source ▸ hsource, hsame.symbol ▸ hsymbol⟩
    obtain hcounter | ⟨_, habove⟩ := callback_counter hok hout
    · exact hlt.trans_eq hcounter.symm
    · exact habove id r hr
  · obtain ⟨r, hr⟩ := h.entered id hid
    obtain ⟨d, hd, _⟩ := hrec.kept hr
    exact ⟨d, hd⟩

theorem records (h : AlgoBook s) (horders : t.trading.api.orders = s.trading.api.orders)
    (hcounter : t.trading.api.mOrderId = s.trading.api.mOrderId)
    (hreplica : Replica s.trading.api.orders (booked t.algo) (algoPipe t))
    (hstatus : ∀ id ∈ s.algo.orderStatus, id ∈ t.algo.orderStatus)
    (hname : t.algo.name = s.algo.name) (hsymbol : t.algo.orderSymbol = s.algo.orderSymbol)
    (hentered : ∀ id ∈ t.algo.orderData, id ∈ s.algo.orderData ∨
      ∃ d, s.trading.api.orders.find? id = some d) : AlgoBook t := by
  refine ⟨horders ▸ hreplica, fun id d hd => ?_, fun id hid => ?_⟩
  · rw [horders] at hd
    obtain ⟨hids, hmem, hsource, hd'⟩ := h.sole id d hd
    rw [hcounter, hname, hsymbol]
    exact ⟨hids, hstatus id hmem, hsource, hd'⟩
  · rw [horders]
    exact (hentered id hid).elim (h.entered id) fun hd => hd

theorem fill (h : AlgoBook s) {d : OrderData} (hheld : s.held = some (.orderData d)) :
    AlgoBook (s.acted { engine := s.algo.orderCb d, trading := s.trading }) := by
  have hpipe : algoPipe s = d :: orderEvents (s.algo.q ++ (component .algo).coming s.events) := by
    simp [algoPipe, pipe, hheld, Event.orderData?]
  have hreplica := h.replica
  rw [hpipe] at hreplica
  obtain ⟨r, hr, _⟩ := hreplica.transit d List.mem_cons_self
  have hmem := (h.sole _ r hr).2.1
  have hbooked : ∀ id, booked (s.algo.fill d) id =
      Function.update (booked s.algo) d.orderId (some d) id := by
    intro id
    rw [booked, AlgoEngine.fill, Table.lookup_insert_ite, Function.update_apply]
    split <;> rfl
  have hdeliver := hreplica.deliver.congr hbooked
  have hfilled : ∀ inflight cancelled,
      AlgoBook (s.acted
        { engine :=
            { s.algo.fill d with inflightOrderId := inflight, orderCancelled := cancelled }
          trading := s.trading }) := by
    intro inflight cancelled
    refine h.records (t := s.acted _) rfl rfl ?_ ?_ ?_ ?_ ?_
    · rw [System.acted, algoPipe_post]
      simp only [orderEvents_nil, List.append_nil]
      exact hdeliver
    · exact fun id hid => (AList.mem_insert _).mpr (.inr hid)
    · rfl
    · rfl
    · intro id hid
      obtain rfl | hid := (AList.mem_insert _).mp hid
      · exact .inr ⟨r, hr⟩
      · exact .inl hid
  have hhandled := orderCb_handled s.algo d
  generalize s.algo.orderCb d = b at hhandled ⊢
  cases hhandled with
  | unknown hd => exact absurd hmem hd
  | active hd hend => exact hfilled _ _
  | ended hd hend => exact hfilled _ _
  | other he => cases he

theorem send (h : AlgoBook s) {e : Event} {r : Acted} (hheld : s.held = some e)
    (he : e.orderData? = none) {req : OrderReq} {quantity target : Double}
    (hreq : req.source = s.algo.name ∧ req.symbol = s.algo.orderSymbol)
    (hcounter : 0 < s.trading.api.mOrderId)
    (hapi : r.trading.api =
      { s.trading.api with
        mOrderId := s.trading.api.mOrderId + 1
        orders := s.trading.api.orders.set (newOrderData s.trading.api.mOrderId req) })
    (hevents : r.events = [.orderData (newOrderData s.trading.api.mOrderId req)])
    (hengine : r.engine =
      { s.algo with targetPos := target }.inflight s.trading.api.mOrderId req quantity) :
    AlgoBook (s.acted r) := by
  have hfree := fresh h
  have hbooked : ∀ id, booked r.engine id = booked s.algo id := by
    intro id
    rw [booked, hengine, AlgoEngine.inflight, Table.lookup_insert_ite]
    split
    · next hid =>
      cases hb : booked s.algo id with
      | none => rfl
      | some d =>
        obtain ⟨hd, x, hx, _⟩ := h.replica.booked id d hb
        rw [hd, hid, hfree] at hx
        cases hx
    · rfl
  have hrec : Records s.trading.api.orders
      (s.trading.api.orders.set (newOrderData s.trading.api.mOrderId req))
      [newOrderData s.trading.api.mOrderId req] := by
    refine .set _ fun x hx => ?_
    have hx' : s.trading.api.orders.find? s.trading.api.mOrderId = some x := hx
    rw [hfree] at hx'
    cases hx'
  have hpipe : algoPipe (s.acted r) =
      algoPipe s ++ [newOrderData s.trading.api.mOrderId req] := by
    have hnew : ∀ d, (Event.orderData d).orderData? = some d := fun _ => rfl
    rw [System.acted, algoPipe_post, hevents]
    simp [algoPipe, pipe, hengine, AlgoEngine.inflight, hheld, he, hnew]
  have horders : (s.acted r).trading.api.orders =
      s.trading.api.orders.set (newOrderData s.trading.api.mOrderId req) :=
    congrArg IBApi.orders hapi
  have hnext : (s.acted r).trading.api.mOrderId = s.trading.api.mOrderId + 1 :=
    congrArg IBApi.mOrderId hapi
  have halgo : (s.acted r).algo = r.engine := rfl
  refine ⟨?_, fun id d hd => ?_, fun id hid => ?_⟩
  · rw [hpipe, horders]
    exact (h.replica.emit hrec).congr hbooked
  · rw [horders, Orders.find?_set] at hd
    rw [hnext, halgo, hengine]
    split at hd
    · next hid =>
      cases hd
      obtain rfl : id = s.trading.api.mOrderId := hid
      exact ⟨⟨hcounter, lt_add_one _⟩, (AList.mem_insert _).mpr (.inl rfl), hreq⟩
    · obtain ⟨⟨hpos, hlt⟩, hmem, hd'⟩ := h.sole id d hd
      exact ⟨⟨hpos, hlt.trans (lt_add_one _)⟩, (AList.mem_insert _).mpr (.inr hmem), hd'⟩
  · rw [halgo, hengine] at hid
    rw [horders, Orders.find?_set]
    split
    · exact ⟨_, rfl⟩
    · next hne =>
      exact h.entered id (((AList.mem_insert _).mp hid).resolve_left hne)

theorem acted (h : AlgoBook s) {e : Event} {r : Acted} (hheld : s.held = some e)
    (hcounter : 0 < s.trading.api.mOrderId) (hacts : Acts s.algo s.trading e r) :
    AlgoBook (s.acted r) := by
  cases hacts with
  | fill d he hr =>
    rw [hr]
    exact h.fill (he ▸ hheld)
  | quiet he hapi hportfolio hevents hengine =>
    obtain ⟨target, cancelled, reqs, q, hq, hengine⟩ := hengine
    apply h.records (congrArg IBApi.orders hapi) (congrArg IBApi.mOrderId hapi)
    · rw [System.acted, algoPipe_post, hevents]
      have hbooked : booked r.engine = booked s.algo := by rw [hengine]; rfl
      simpa [algoPipe, pipe, hengine, hheld, he, hq, ← hbooked] using h.replica
    · exact fun id hid => by simpa [System.acted, hengine] using hid
    · simp [System.acted, hengine]
    · simp [System.acted, hengine]
    · exact fun id hid => .inl (by simpa [System.acted, hengine] using hid)
  | sent he req quantity target hreq hapi hportfolio hevents hengine =>
    exact h.send hheld he hreq hcounter hapi hevents hengine

end AlgoBook

theorem start_same (api : IBApi) (connects : Bool) :
    (api.start connects).orders = api.orders ∧ (api.start connects).mOrderId = api.mOrderId := by
  rw [IBApi.start]
  split <;> exact ⟨rfl, rfl⟩

namespace Started

theorem frame (hs : Started s) (hcounter : t.trading.api.mOrderId = s.trading.api.mOrderId)
    (horders : t.trading.api.orders = s.trading.api.orders)
    (hready : AlgoBooks.ready t.phase = true → AlgoBooks.ready s.phase = true)
    (hlooping : t.algo.running = true → t.phase = .looping)
    (haction : t.held.isSome = true → t.algo.running = true)
    (hidle : t.algo.running = false → s.algo.running = false) : Started t := by
  constructor
  · rw [hcounter]
    exact hs.positive
  · rw [hcounter]
    exact fun hphase => hs.ready (hready hphase)
  · exact hlooping
  · exact haction
  · rw [horders]
    exact fun hrun => hs.idle (hidle hrun)

theorem running (hs : Started s) (hcounter : t.trading.api.mOrderId = s.trading.api.mOrderId)
    (horders : t.trading.api.orders = s.trading.api.orders) (hphase : t.phase = s.phase)
    (hrunning : t.algo.running = s.algo.running)
    (haction : t.held.isSome = true → s.algo.running = true) : Started t := by
  apply hs.frame hcounter horders
  · rw [hphase]
    exact id
  · rw [hrunning, hphase]
    exact hs.looping
  · rw [hrunning]
    exact haction
  · rw [hrunning]
    exact id

theorem before (hs : Started s) (hphase : s.phase ≠ .looping) :
    s.algo.running = false ∧ s.held = none := by
  have hrun : s.algo.running = false := by
    by_contra hrun
    exact hphase (hs.looping (by simpa using hrun))
  refine ⟨hrun, ?_⟩
  by_contra hheld
  have haction := hs.action (Option.ne_none_iff_isSome.mp hheld)
  rw [hrun] at haction
  cases haction

theorem acted (hs : Started s) {e : Event} {r : Acted} (hheld : s.held = some e)
    (hacts : Acts s.algo s.trading e r) : Started (s.acted r) := by
  have hrun := hs.action (by rw [hheld]; rfl)
  have hcounter := hs.counter (by rw [hheld]; rfl)
  have hphase := hs.looping hrun
  have hboth : 0 < r.trading.api.mOrderId ∧ r.engine.running = s.algo.running := by
    cases hacts with
    | fill d he hr =>
      rw [hr]
      refine ⟨hcounter, ?_⟩
      have hhandled := orderCb_handled s.algo d
      generalize s.algo.orderCb d = b at hhandled ⊢
      cases hhandled <;> rfl
    | quiet he hapi hportfolio hevents hengine =>
      obtain ⟨_, _, _, _, _, hengine⟩ := hengine
      rw [hapi, hengine]
      exact ⟨hcounter, rfl⟩
    | sent he req quantity target hreq hapi hportfolio hevents hengine =>
      rw [hapi, hengine]
      exact ⟨hcounter.trans (lt_add_one _), rfl⟩
  have hrun' : r.engine.running = true := hboth.2.trans hrun
  refine ⟨fun _ => hboth.1, fun _ => hboth.1.le, fun _ => hphase, nofun, fun hidle => ?_⟩
  exact absurd (hrun'.symm.trans hidle) nofun

theorem step (hs : Started s) (h : AlgoBook s) (hok : Orderly s a) (ht : Moved s a t) :
    Started t := by
  cases ht with
  | startRecorder hphase hrecorder =>
    obtain ⟨hrun, hheld⟩ := hs.before (by rw [hphase]; nofun)
    apply hs.frame
    · rfl
    · rfl
    · exact fun hready => absurd hready Bool.false_ne_true
    all_goals simp [hrun, hheld]
  | @startGateway connects hphase =>
    obtain ⟨hrun, hheld⟩ := hs.before (by rw [hphase]; nofun)
    obtain ⟨horders, hcounter⟩ := start_same s.trading.api connects
    obtain rfl : connects = true := hok
    apply hs.frame hcounter horders
    · exact fun hready => absurd hready Bool.false_ne_true
    all_goals simp [hrun, hheld]
  | connected hphase hid =>
    obtain ⟨hrun, hheld⟩ := hs.before (by rw [hphase]; nofun)
    refine ⟨hs.positive, fun _ => hid, ?_, ?_, hs.idle⟩ <;> simp [hrun, hheld]
  | startPortfolio hphase =>
    obtain ⟨hrun, hheld⟩ := hs.before (by rw [hphase]; nofun)
    apply hs.frame
    · rfl
    · rfl
    · exact fun _ => by rw [hphase]; rfl
    all_goals simp [hrun, hheld]
  | startAlgo hphase ht =>
    obtain ⟨mgr, api, horders, hcounter, rfl⟩ := startAlgo_cases ht
    apply hs.frame hcounter horders
    · exact fun _ => by rw [hphase]; rfl
    all_goals simp
  | @callback c out hout =>
    have hcounter : 0 ≤ s.trading.api.mOrderId → 0 < out.api.mOrderId := by
      obtain hsame | ⟨hpos, _⟩ := callback_counter hok hout
      · rw [hsame]
        exact hs.positive
      · exact fun _ => hpos
    refine ⟨?_, fun hphase => (hcounter (hs.ready hphase)).le, hs.looping, hs.action,
      fun hrun id => (callback_reports hout).absent (hs.idle hrun id)⟩
    obtain hsame | ⟨hpos, _⟩ := callback_counter hok hout
    · simp only [System.post_trading, hsame]
      exact hs.positive
    · exact fun _ => hpos
  | pop hrun hheld hq => exact hs.running rfl rfl rfl rfl fun _ => hrun
  | @act e r hheld hr =>
    have hcounter := hs.counter (by rw [hheld]; rfl)
    exact hs.acted hheld (handle_acts hr hcounter (fresh h))
  | turn hm ht =>
    rw [System.turned]
    split
    · apply hs.running
      · rw [System.call_api]
      · rw [System.call_api]
      · rw [System.call_phase]
      · rw [System.call_algo]
        split
        · obtain hcb | ⟨hcb, _⟩ := AlgoSystem.eventEngineCb_cases s.algo _
          · rw [hcb]
          · rw [hcb]
            rfl
        · rfl
      · rw [System.call_held]
        exact hs.action
    · exact hs.running rfl rfl rfl rfl hs.action
  | round =>
    obtain hround | ⟨p, event, events, _, hround⟩ := round_cases s
    · rw [hround]
      exact hs
    · rw [hround]
      exact hs.running rfl rfl rfl rfl hs.action
  | _ => exact hs.running rfl rfl rfl rfl hs.action

end Started

theorem AlgoBook.step (hg : Guarded registrations s.events) (hv : Served registrations s.events)
    (hs : Started s) (h : AlgoBook s) (hok : Orderly s a) (ht : Moved s a t) : AlgoBook t := by
  obtain hquiet | ⟨c, out, rfl, hout, rfl⟩ | ⟨e, r, rfl, hheld, hr, rfl⟩ :=
    moved_quiet hg hv hs h ht
  · exact h.quiet hquiet
  · exact h.callback hok hout
  · have hcounter := hs.counter (by rw [hheld]; rfl)
    exact h.acted hheld hcounter (handle_acts hr hcounter (fresh h))

variable {cfg : Config}

theorem made_pipe (cfg : Config) : algoPipe (made cfg) = [] ∧ portfolioPipe (made cfg) = [] := by
  have hcoming : ∀ part, (component part).coming (made cfg).events = [] :=
    fun part => coming_init (component part)
  rw [algoPipe, portfolioPipe, pipe, pipe, hcoming, hcoming]
  exact ⟨rfl, rfl⟩

theorem made_started (cfg : Config) : Started (made cfg) where
  positive h := absurd h (by simp [made])
  ready h := by simp [made, AlgoBooks.ready] at h
  looping h := by simp [made] at h
  action h := by simp [made] at h
  idle _ _ := rfl

theorem made_algoBook (cfg : Config) : AlgoBook (made cfg) where
  replica := by
    rw [(made_pipe cfg).1]
    exact Replica.empty fun _ => rfl
  sole id d hd := by cases hd
  entered id hid := absurd hid (AList.notMem_empty id)

theorem algoBook (hs : (trader cfg).Reaches Orderly s) : Started s ∧ AlgoBook s := by
  apply hs.invariant
  · exact ⟨made_started cfg, made_algoBook cfg⟩
  · intro s a t hs ⟨hstarted, hbook⟩ hok ht
    obtain ⟨hg, hv⟩ := events_sound hs
    have hmoved := step_moved ht
    exact ⟨hstarted.step hbook hok hmoved, hbook.step hg hv hstarted hok hmoved⟩

end CalmTrading.AlgoBooks
