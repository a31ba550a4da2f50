import CalmTrading.Lib.Channel
import CalmTrading.Lib.Machine
import CalmTrading.PortfolioBook

namespace CalmTrading.PortfolioFlow

open Lib Objects Utils Gateway OrderRecords PortfolioState PortfolioBook

/-- The gateway, the event queue and the portfolio with the threads between
them. `sending` holds the calls of `send_order` past their critical section,
`reporting` the events that the client thread has yet to hand on, `popped` the
event variable of `run_actions`, and `placed` the ids the broker has heard of. -/
structure Flow where
  api : IBApi := {}
  sending : Table OrderId Placing := ∅
  placed : List OrderId := []
  reporting : List Event := []
  eventQueue : List Event := []
  portfolio : Portfolio := {}
  popped : Option Event := none

inductive Move
  | sendOrder (req : OrderReq)
  | announce (id : OrderId)
  | place (id : OrderId)
  | callback (c : Callback)
  | report
  | post (e : Event)
  | dispatch
  | start
  | stop
  | addToPortfolio (algo symbol : String)
  | addMarketDataMapping (algo orderSymbol marketSymbol : String)
  | act (ticks : Table String TickData)

namespace Flow

/-- The broker reports on an order only after `placeOrder` for it. -/
def legal (s : Flow) (c : Callback) : Bool :=
  (orderId? c).all fun id => id ∈ s.placed || (s.api.orders.find? id).isNone

/-- One round of `run_actions`. -/
def act (s : Flow) (ticks : Table String TickData) : Flow :=
  match s.portfolio.round s.popped ticks.lookup with
  | none => s
  | some (e, p, events) =>
    { s with portfolio := p, popped := some e, eventQueue := s.eventQueue ++ events }

/-- The lock of the gateway lets one call of `send_order` through at a time; here
only calls for one id wait for each other. -/
def step (s : Flow) : Move → Option Flow
  | .sendOrder req =>
    match s.api.recordOrder req with
    | .error _ => none
    | .ok p =>
      if p.orderId ∈ s.sending then none
      else some { s with api := p.api, sending := s.sending.insert p.orderId p }
  | .announce id =>
    match s.sending.lookup id with
    | some { api, orderId, announce := some d, place } =>
      some
        { s with
          sending := s.sending.insert id { api, orderId, announce := none, place }
          eventQueue := s.eventQueue ++ [.orderData d] }
    | _ => none
  | .place id =>
    match s.sending.lookup id with
    | some { announce := none, .. } =>
      some { s with sending := s.sending.erase id, placed := id :: s.placed }
    | _ => none
  | .callback c =>
    if s.reporting = [] ∧ s.legal c then
      (s.api.callback c).toOption.map fun out => { s with api := out.api, reporting := out.events }
    else none
  | .report =>
    match s.reporting with
    | [] => none
    | e :: rest => some { s with reporting := rest, eventQueue := s.eventQueue ++ [e] }
  | .post e =>
    if e.orderData? = none then some { s with eventQueue := s.eventQueue ++ [e] } else none
  | .dispatch =>
    match s.eventQueue with
    | [] => none
    | e :: rest => some { s with eventQueue := rest, portfolio := s.portfolio.eventEngineCb e }
  | .start =>
    if s.portfolio.running then some s
    else some { s with portfolio := { s.portfolio with running := true }, popped := none }
  | .stop => some { s with portfolio := { s.portfolio with running := false } }
  | .addToPortfolio algo symbol =>
    some { s with portfolio := s.portfolio.addToPortfolio algo symbol }
  | .addMarketDataMapping algo orderSymbol marketSymbol =>
    some { s with portfolio := s.portfolio.addMarketDataMapping algo orderSymbol marketSymbol }
  | .act ticks => if s.portfolio.running then some (s.act ticks) else none

def pipe (s : Flow) : List OrderData :=
  orderEvents (s.portfolio.q ++ s.eventQueue ++ s.reporting)

/-- The first record of an order whose `send_order` has yet to publish it. -/
def announcing (s : Flow) (id : OrderId) : Option OrderData :=
  (s.sending.lookup id).bind Placing.announce

def Drained (s : Flow) : Prop := s.pipe = [] ∧ ∀ id, s.announcing id = none

end Flow

def flow : Machine Flow Move where
  init := {}
  step := Flow.step

/-- The portfolio holds what `book` amounts to, and once the records on their
way have arrived `book` will be the gateway's. -/
structure Linked (s : Flow) (book : Orders) : Prop where
  refines : Refines s.portfolio book
  seen : ∀ id, (s.announcing id).or (Channel.seen OrderData.orderId book.table s.pipe id) =
    s.api.orders.find? id
  booked : ∀ id d, book.find? id = some d → Known s.api.orders d
  transit : ∀ d ∈ s.pipe, Known s.api.orders d
  announced : ∀ id d, s.announcing id = some d → d.orderId = id ∧ id ∉ s.placed
  recorded : ∀ id, id ∈ s.sending ∨ id ∈ s.placed → ∃ d, s.api.orders.find? id = some d
  reporting : ∀ d ∈ orderEvents s.reporting, d.orderId ∈ s.placed
  popped : ∀ d, s.popped = some (.orderData d) → book.find? d.orderId = some d

theorem seen_reports {before after : Orders} {c : Callback} {ds pipe : List OrderData}
    {book : Table OrderId OrderData} {first : Option OrderData} {id : OrderId}
    (h : Reports before c after ds) (hfirst : ∀ d ∈ ds, d.orderId = id → first = none)
    (hseen : first.or (Channel.seen OrderData.orderId book pipe id) = before.find? id) :
    first.or (Channel.seen OrderData.orderId book (pipe ++ ds) id) = after.find? id := by
  cases h with
  | quiet => rwa [List.append_nil]
  | report hid hr hsame =>
    rw [Channel.seen_emit, Orders.find?_set]
    split
    · next hd => rw [hfirst _ (List.mem_singleton_self _) hd.symm, Option.none_or]
    · exact hseen

namespace Linked

variable {s : Flow} {book : Orders}

/-- The threads behind the gateway hand records on and lose none. -/
theorem handOn (h : Linked s book) {p : Portfolio} {queue reporting : List Event}
    {popped : Option Event} (hp : Refines p book)
    (hpipe : orderEvents (p.q ++ queue ++ reporting) = s.pipe)
    (hreporting : ∀ d ∈ orderEvents reporting, d ∈ orderEvents s.reporting)
    (hpopped : ∀ d, popped = some (.orderData d) → book.find? d.orderId = some d) :
    Linked
      { s with portfolio := p, eventQueue := queue, reporting := reporting, popped := popped }
      book where
  refines := hp
  seen id := by
    simp only [Flow.pipe, hpipe]
    exact h.seen id
  booked := h.booked
  transit d hd := h.transit d (by simpa only [Flow.pipe, hpipe] using hd)
  announced := h.announced
  recorded := h.recorded
  reporting d hd := h.reporting d (hreporting d hd)
  popped := hpopped

theorem rerun (h : Linked s book) (running : Bool) {popped : Option Event}
    (hpopped : ∀ d, popped = some (.orderData d) → book.find? d.orderId = some d) :
    Linked { s with portfolio := { s.portfolio with running := running }, popped := popped }
      book := by
  have hp : Refines { s.portfolio with running := running } book :=
    h.refines.congr (fun _ => rfl) fun _ _ => rfl
  have hpipe : orderEvents (s.portfolio.q ++ s.eventQueue ++ s.reporting) = s.pipe := rfl
  exact h.handOn hp hpipe (fun d hd => hd) hpopped

/-- Handling the same record once more leaves the same book. -/
theorem again (h : Linked s book) {d : OrderData} (hd : book.find? d.orderId = some d) :
    Linked { s with portfolio := s.portfolio.orderDataCb d } (book.set d) := by
  have hbook : ∀ id, (book.set d).find? id = book.find? id := by
    intro id
    rw [Orders.find?_set]
    split
    · next hid => rw [hid, hd]
    · rfl
  refine { h with refines := ?_, seen := fun id => ?_, booked := ?_, popped := ?_ }
  · apply orderDataCb_refines h.refines
    intro r hr
    rw [hd] at hr
    cases hr
    rfl
  · have hseen := h.seen id
    have hlookup : (book.set d).table.lookup id = book.table.lookup id := hbook id
    simp only [Channel.seen, hlookup] at hseen ⊢
    exact hseen
  · intro id r hr
    exact h.booked id r (hbook id ▸ hr)
  · intro r hr
    rw [hbook]
    exact h.popped r hr

theorem pop (h : Linked s book) {d : OrderData} {rest : List Event}
    (hq : s.portfolio.q = .orderData d :: rest) :
    Linked
      { s with
        portfolio := { s.portfolio with q := rest }.orderDataCb d
        popped := some (.orderData d) } (book.set d) := by
  have hpipe : s.pipe = d :: orderEvents (rest ++ s.eventQueue ++ s.reporting) := by
    simp [Flow.pipe, hq, Event.orderData?]
  have hd : Known s.api.orders d := h.transit d (by simp [hpipe])
  have hold : ∀ r, book.find? d.orderId = some r → SameOrder r d := fun r hr =>
    hd.same (h.booked _ r hr) (Orders.orderId_of_find? hr)
  refine { h with refines := ?_, seen := fun id => ?_, booked := ?_, transit := ?_, popped := ?_ }
  · exact orderDataCb_refines (h.refines.requeue rest) hold
  · rw [← h.seen id, hpipe, ← Channel.seen_deliver]
    rfl
  · intro id r hr
    rw [Orders.find?_set] at hr
    split at hr
    · cases hr
      exact hd
    · exact h.booked id r hr
  · intro r hr
    exact h.transit r (hpipe ▸ List.mem_cons_of_mem d hr)
  · rintro r ⟨rfl⟩
    exact Orders.find?_set_self _ _

theorem handle (h : Linked s book) {q : List Event} {e : Event} (ticks : Table String TickData)
    (he : e.orderData? = none)
    (hq : orderEvents (q ++ s.eventQueue ++ s.reporting) = s.pipe) :
    Linked
      { s with
        portfolio := ({ s.portfolio with q := q }.handle ticks.lookup e).1
        popped := some e
        eventQueue := s.eventQueue ++ ({ s.portfolio with q := q }.handle ticks.lookup e).2 }
      book := by
  have hbase := h.refines.requeue q
  have hpopped : ∀ d, some e = some (.orderData d) → book.find? d.orderId = some d := by
    rintro d ⟨rfl⟩
    cases he
  cases e with
  | timer timer =>
    have hevents : orderEvents ({ s.portfolio with q := q }.timerCb ticks.lookup timer).2 = [] := by
      rw [Portfolio.timerCb]
      split
      · simp [orderEvents, List.filterMap_map, Event.orderData?, Function.comp_def]
      · rfl
    have hfirst := (timerCb_sameHoldings { s.portfolio with q := q } ticks.lookup timer).queue
    refine h.handOn (timerCb_refines hbase _ timer) ?_ (fun d hd => hd) hpopped
    simp only [Portfolio.handle, hfirst]
    simpa [hevents] using hq
  | orderData d => cases he
  | _ => exact h.handOn hbase (by simpa [Portfolio.handle] using hq) (fun d hd => hd) hpopped

theorem act (h : Linked s book) (ticks : Table String TickData) :
    ∃ book', Linked (s.act ticks) book' := by
  rw [Flow.act, Portfolio.round, Portfolio.next]
  cases hq : s.portfolio.q with
  | nil =>
    cases hp : s.popped with
    | none => exact ⟨book, h⟩
    | some e =>
      cases he : e.orderData? with
      | some d =>
        cases e <;> cases he
        refine ⟨book.set d, ?_⟩
        have hagain := h.again (h.popped d hp)
        have hidle : { s.portfolio with q := [] } = s.portfolio := by rw [← hq]
        simpa [Portfolio.handle, hidle, ← hp] using hagain
      | none =>
        have hhandle := h.handle (q := []) ticks he (by simp [Flow.pipe, hq])
        exact ⟨book, hhandle⟩
  | cons e rest =>
    cases he : e.orderData? with
    | some d =>
      cases e <;> cases he
      have hpop := h.pop hq
      refine ⟨book.set d, ?_⟩
      simpa [Portfolio.handle] using hpop
    | none =>
      refine ⟨book, h.handle (q := rest) ticks he ?_⟩
      simp [Flow.pipe, hq, he]

theorem sendOrder (h : Linked s book) {req : OrderReq} {p : Placing}
    (hp : s.api.recordOrder req = .ok p) (hfree : p.orderId ∉ s.sending) :
    Linked { s with api := p.api, sending := s.sending.insert p.orderId p } book := by
  have hrec := recordOrder_records hp
  have hnone : s.announcing p.orderId = none := by
    simp [Flow.announcing, AList.lookup_eq_none.mpr hfree]
  have hann : ∀ id,
      Flow.announcing { s with api := p.api, sending := s.sending.insert p.orderId p } id =
        if id = p.orderId then p.announce else s.announcing id := by
    intro id
    simp only [Flow.announcing, Table.lookup_insert_ite]
    split <;> rfl
  have hrecorded : ∀ id, id ∈ s.sending.insert p.orderId p ∨ id ∈ s.placed →
      ∃ d, p.api.orders.find? id = some d := by
    intro id hid
    by_cases he : id = p.orderId
    · subst he
      obtain ⟨_, _, _, _, ⟨r, hr, _, happ⟩ | ⟨_, _, happ⟩⟩ := recordOrder_cases hp
      · exact ⟨r, by rw [happ]; exact hr⟩
      · exact ⟨_, by rw [happ]; exact Orders.find?_set_self _ _⟩
    · have hold : id ∈ s.sending ∨ id ∈ s.placed := by simpa [he] using hid
      obtain ⟨d, hd⟩ := h.recorded id hold
      obtain ⟨d', hd', _⟩ := hrec.kept hd
      exact ⟨d', hd'⟩
  refine ⟨h.refines, fun id => ?_, fun id d hd => (h.booked id d hd).kept hrec,
    fun d hd => (h.transit d hd).kept hrec, fun id d hd => ?_, hrecorded, h.reporting, h.popped⟩
  · rw [hann]
    obtain ⟨_, _, _, _, ⟨r, hr, ha, happ⟩ | ⟨hno, ha, happ⟩⟩ := recordOrder_cases hp
    · rw [happ]
      split
      · next hid =>
        rw [ha, hid, ← hnone]
        exact h.seen p.orderId
      · exact h.seen id
    · rw [happ, Orders.find?_set]
      split
      · next hid => simp [ha, hid, newOrderData]
      · next hid => exact (h.seen id).trans (if_neg hid).symm
  · rw [hann] at hd
    split at hd
    · next hid =>
      obtain ⟨_, _, _, _, ⟨_, _, ha, _⟩ | ⟨hno, ha, _⟩⟩ := recordOrder_cases hp
      · rw [ha] at hd
        cases hd
      · rw [ha] at hd
        cases hd
        refine ⟨hid.symm, fun hplaced => ?_⟩
        obtain ⟨d, hd⟩ := h.recorded id (.inr hplaced)
        rw [hid, hno] at hd
        cases hd
    · exact h.announced id d hd

theorem announce (h : Linked s book) {id : OrderId} {p : Placing} {d : OrderData}
    (hp : s.sending.lookup id = some p) (hd : p.announce = some d) :
    Linked
      { s with
        sending := s.sending.insert id { p with announce := none }
        eventQueue := s.eventQueue ++ [.orderData d] } book := by
  have hthis : s.announcing id = some d := by simp [Flow.announcing, hp, hd]
  obtain ⟨hid, hplaced⟩ := h.announced id d hthis
  have hfind : s.api.orders.find? id = some d := by
    rw [← h.seen id, hthis]
    rfl
  have hann : ∀ j,
      Flow.announcing
        { s with
          sending := s.sending.insert id { p with announce := none }
          eventQueue := s.eventQueue ++ [.orderData d] } j =
        if j = id then none else s.announcing j := by
    intro j
    simp only [Flow.announcing, Table.lookup_insert_ite]
    split <;> rfl
  have hpipe : Flow.pipe
      { s with
        sending := s.sending.insert id { p with announce := none }
        eventQueue := s.eventQueue ++ [.orderData d] } =
      orderEvents (s.portfolio.q ++ s.eventQueue) ++ [d] ++ orderEvents s.reporting := by
    simp [Flow.pipe, Event.orderData?]
  have hmem : id ∈ s.sending := Table.mem_iff_lookup.mpr ⟨p, hp⟩
  refine { h with
    seen := fun j => ?_, transit := fun r hr => ?_, announced := fun j r hr => ?_
    recorded := fun j hj => ?_ }
  · have hdiff : ∀ r ∈ [d], ∀ r' ∈ orderEvents s.reporting, r.orderId ≠ r'.orderId := by
      intro r hr r' hr' he
      rw [List.mem_singleton.mp hr, hid] at he
      exact hplaced (he ▸ h.reporting r' hr')
    have hswap := Channel.seen_swap book.table (orderEvents (s.portfolio.q ++ s.eventQueue))
      hdiff j
    rw [hann, hpipe, hswap, Channel.seen_emit, hid]
    have hseen := h.seen j
    rw [Flow.pipe, orderEvents_append] at hseen
    split
    · next hj => rw [Option.none_or, hj, hfind]
    · exact hseen
  · rw [hpipe] at hr
    have hr' : r = d ∨ r ∈ s.pipe := by
      simp only [Flow.pipe, orderEvents_append, List.mem_append, List.mem_singleton] at hr ⊢
      tauto
    obtain rfl | hr' := hr'
    · exact ⟨r, hid ▸ hfind, rfl⟩
    · exact h.transit r hr'
  · rw [hann] at hr
    split at hr
    · cases hr
    · exact h.announced j r hr
  · apply h.recorded j
    by_cases hj' : j = id
    · exact .inl (hj' ▸ hmem)
    · simpa [hj'] using hj

theorem place (h : Linked s book) {id : OrderId} {p : Placing}
    (hp : s.sending.lookup id = some p) (hd : p.announce = none) :
    Linked { s with sending := s.sending.erase id, placed := id :: s.placed } book := by
  have hthis : s.announcing id = none := by simp [Flow.announcing, hp, hd]
  have hann : ∀ j,
      Flow.announcing { s with sending := s.sending.erase id, placed := id :: s.placed } j =
        s.announcing j := by
    intro j
    by_cases hj : j = id
    · rw [hj, hthis]
      simp [Flow.announcing]
    · simp [Flow.announcing, AList.lookup_erase_ne hj]
  refine { h with
    seen := fun j => ?_, announced := fun j r hr => ?_, recorded := fun j hj => ?_
    reporting := fun r hr => List.mem_cons_of_mem id (h.reporting r hr) }
  · rw [hann]
    exact h.seen j
  · rw [hann] at hr
    obtain ⟨hrid, hplaced⟩ := h.announced j r hr
    refine ⟨hrid, fun hj => ?_⟩
    obtain rfl | hj := List.mem_cons.mp hj
    · rw [hthis] at hr
      cases hr
    · exact hplaced hj
  · apply h.recorded j
    by_cases hj' : j = id
    · exact .inl (Table.mem_iff_lookup.mpr ⟨p, hj' ▸ hp⟩)
    · simpa [hj'] using hj

theorem callback (h : Linked s book) {c : Callback} {out : Out} (hidle : s.reporting = [])
    (hlegal : s.legal c = true) (hc : s.api.callback c = .ok out) :
    Linked { s with api := out.api, reporting := out.events } book := by
  have hreports := callback_reports hc
  have hrec := hreports.records
  have hpipe : Flow.pipe { s with api := out.api, reporting := out.events } =
      s.pipe ++ orderEvents out.events := by
    simp [Flow.pipe, hidle]
  have hplaced : ∀ d ∈ orderEvents out.events, d.orderId ∈ s.placed := by
    intro d hd
    obtain ⟨hid, r, hr⟩ := hreports.about hd
    simpa [Flow.legal, hid, hr] using hlegal
  refine ⟨h.refines, fun id => ?_, fun id d hd => (h.booked id d hd).kept hrec, fun d hd => ?_,
    h.announced, fun id hid => ?_, hplaced, h.popped⟩
  · rw [hpipe]
    refine seen_reports hreports (fun d hd hid => ?_) (h.seen id)
    refine Option.eq_none_iff_forall_ne_some.mpr fun r hr => ?_
    exact (h.announced id r hr).2 (hid ▸ hplaced d hd)
  · rw [hpipe] at hd
    obtain hd | hd := List.mem_append.mp hd
    · exact (h.transit d hd).kept hrec
    · exact .published hrec hd
  · obtain ⟨d, hd⟩ := h.recorded id hid
    obtain ⟨d', hd', _⟩ := hrec.kept hd
    exact ⟨d', hd'⟩

theorem step (h : Linked s book) {t : Flow} {a : Move} (ht : flow.step s a = some t) :
    ∃ book', Linked t book' := by
  cases a with
  | sendOrder req =>
    simp only [flow, Flow.step] at ht
    split at ht
    · cases ht
    · next p hp =>
      split at ht
      · cases ht
      · next hfree =>
        cases ht
        exact ⟨book, h.sendOrder hp hfree⟩
  | announce id =>
    simp only [flow, Flow.step] at ht
    split at ht
    · next hp =>
      cases ht
      exact ⟨book, h.announce hp rfl⟩
    · cases ht
  | place id =>
    simp only [flow, Flow.step] at ht
    split at ht
    · next hp =>
      cases ht
      exact ⟨book, h.place hp rfl⟩
    · cases ht
  | callback c =>
    simp only [flow, Flow.step] at ht
    split at ht
    · next hc =>
      obtain ⟨out, hout, rfl⟩ := toOption_map_eq_some.mp ht
      exact ⟨book, h.callback hc.1 hc.2 hout⟩
    · cases ht
  | report =>
    simp only [flow, Flow.step] at ht
    split at ht
    · cases ht
    · next e rest hr =>
      cases ht
      refine ⟨book, h.handOn h.refines ?_ (fun d hd => ?_) h.popped⟩
      · simp [Flow.pipe, hr]
      · rw [hr, orderEvents_cons]
        exact List.mem_append_right _ hd
  | post e =>
    simp only [flow, Flow.step] at ht
    split at ht
    · next he =>
      cases ht
      refine ⟨book, h.handOn h.refines ?_ (fun d hd => hd) h.popped⟩
      simp [Flow.pipe, he]
    · cases ht
  | dispatch =>
    simp only [flow, Flow.step] at ht
    split at ht
    · cases ht
    · next e rest hq =>
      cases ht
      refine ⟨book, h.handOn (eventEngineCb_refines h.refines e) ?_ (fun d hd => hd) h.popped⟩
      cases e <;> simp [Flow.pipe, hq, Portfolio.eventEngineCb, Event.orderData?]
  | start =>
    simp only [flow, Flow.step] at ht
    split at ht
    · cases ht
      exact ⟨book, h⟩
    · cases ht
      exact ⟨book, h.rerun true (by simp)⟩
  | stop =>
    cases ht
    exact ⟨book, h.rerun false h.popped⟩
  | addToPortfolio algo symbol =>
    cases ht
    have hq : (s.portfolio.addToPortfolio algo symbol).q = s.portfolio.q := by
      rw [Portfolio.addToPortfolio]
      split <;> rfl
    exact ⟨book, h.handOn (addToPortfolio_refines h.refines algo symbol) (by rw [hq]; rfl)
      (fun d hd => hd) h.popped⟩
  | addMarketDataMapping algo orderSymbol marketSymbol =>
    cases ht
    have hq : (s.portfolio.addMarketDataMapping algo orderSymbol marketSymbol).q =
        s.portfolio.q := by
      rw [Portfolio.addMarketDataMapping]
      split <;> rfl
    exact ⟨book, h.handOn
      (addMarketDataMapping_refines h.refines algo orderSymbol marketSymbol) (by rw [hq]; rfl)
      (fun d hd => hd) h.popped⟩
  | act ticks =>
    simp only [flow, Flow.step] at ht
    split at ht
    · cases ht
      exact h.act ticks
    · cases ht

end Linked

theorem linked {s : Flow} (hs : flow.Reachable s) : ∃ book, Linked s book := by
  refine Machine.Reaches.invariant (I := fun s => ∃ book, Linked s book) ?_ ?_ hs
  · refine ⟨Orders.empty, Refines.empty rfl rfl, ?_, ?_, ?_, ?_, ?_, ?_, ?_⟩ <;>
      simp [flow, Flow.pipe, Flow.announcing, orderEvents, Orders.empty, Orders.find?]
  · rintro s a t _ ⟨book, h⟩ _ ht
    exact h.step ht

/-- Once every order event has passed through the queues, positions and costs
are those of the gateway's orders. -/
theorem portfolio_refines_orders {s : Flow} (hs : flow.Reachable s) (hdrained : s.Drained)
    (algo symbol : String) :
    (s.portfolio.contractPos algo symbol).pos = position s.api.orders algo symbol ∧
      (s.portfolio.contractPos algo symbol).cost = cost s.api.orders algo symbol := by
  obtain ⟨book, h⟩ := linked hs
  have hbook : ∀ id, book.find? id = s.api.orders.find? id := by
    intro id
    have hseen := h.seen id
    rwa [hdrained.1, hdrained.2, Channel.seen_nil, Option.none_or] at hseen
  rw [h.refines.pos, h.refines.cost]
  exact ⟨holding_congr _ hbook algo symbol, holding_congr _ hbook algo symbol⟩

def sellReq : OrderReq where
  symbol := "6758-STK-JPY.TSEJ"
  source := "algo_engine"
  action := .sell
  orderType := .market
  quantity := 100

/-- A sale is filled in two parts with a commission in between; the portfolio
handles the last record twice. -/
def sale : List Move :=
  [.addToPortfolio "algo_engine" "6758-STK-JPY.TSEJ", .start, .callback (.nextValidId 1),
    .sendOrder sellReq, .announce 1, .place 1, .callback (.orderStatus 1 "Submitted" 40 25), .report,
    .dispatch, .callback (.openOrder 1 3), .report, .dispatch, .act ∅, .act ∅,
    .callback (.orderStatus 1 "Filled" 100 26), .report, .dispatch, .post (.timer ⟨30, 7⟩),
    .dispatch, .act ∅, .act ∅, .act ∅, .act ∅]

def sold : Flow := flow.stateAfter sale (by decide +kernel)

theorem sold_drained : sold.Drained := by
  have hkeys : sold.sending.keys = [] := by decide +kernel
  have hpipe : sold.pipe = [] := by decide +kernel
  refine ⟨hpipe, fun id => ?_⟩
  have hid : id ∉ sold.sending := by
    rw [AList.mem_keys, hkeys]
    exact List.not_mem_nil
  simp [Flow.announcing, AList.lookup_eq_none.mpr hid]

theorem portfolio_refines_orders_sold :
    (sold.portfolio.contractPos "algo_engine" "6758-STK-JPY.TSEJ").pos = -100 ∧
      position sold.api.orders "algo_engine" "6758-STK-JPY.TSEJ" = -100 := by
  have h := portfolio_refines_orders (Machine.reachable_stateAfter _) sold_drained
    "algo_engine" "6758-STK-JPY.TSEJ"
  have hpos : (sold.portfolio.contractPos "algo_engine" "6758-STK-JPY.TSEJ").pos = -100 := by
    decide +kernel
  exact ⟨hpos, h.1.symm.trans hpos⟩

end CalmTrading.PortfolioFlow
