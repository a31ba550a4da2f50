import CalmTrading.AlgoSystem
import CalmTrading.FreshIds

namespace CalmTrading.CancelDiscipline

open Lib Objects Utils Gateway OrderRecords Risk Algo AlgoSystem

/-- A call of `cancel_order`, with the order in flight at that moment. -/
structure Cancel where
  orderId : OrderId
  inflight : OrderId
  deriving DecidableEq

def cancelled? : ClientMsg → Option OrderId
  | .cancelOrder orderId => some orderId
  | _ => none

def placedIds (client : List ClientMsg) : List OrderId := client.filterMap FreshIds.placed?

def cancelledIds (client : List ClientMsg) : List OrderId := client.filterMap cancelled?

/-- The engine with the event that its action thread has popped and not handled
yet. History are the ids that the gateway has returned and the cancels. -/
structure Acting where
  engine : AlgoEngine
  held : Option Event := none
  ids : List OrderId := []
  cancels : List Cancel := []

/-- Any messages and any events may come, and each time the action thread finds
the trading engine in any state. -/
inductive Move
  | start
  | listen (msg : PosMsg)
  | event (e : Event)
  | pop
  | act (trading : TradingEngine) (lastTick : Option TickData)

namespace Acting

def acted (s : Acting) (r : Acted) : Acting where
  engine := r.engine
  held := none
  ids := s.ids ++ placedIds r.client
  cancels := s.cancels ++ (cancelledIds r.client).map fun id => ⟨id, s.engine.inflightOrderId⟩

def step (s : Acting) : Move → Option Acting
  | .start => some { s with engine := { s.engine with running := true } }
  | .listen msg =>
    if s.engine.running then some { s with engine := s.engine.mqMessageCb msg } else none
  | .event e => some { s with engine := s.engine.eventEngineCb e }
  | .pop =>
    match s.held, s.engine.q with
    | none, e :: rest =>
      if s.engine.running then some { s with engine := { s.engine with q := rest }, held := some e }
      else none
    | _, _ => none
  | .act trading lastTick =>
    match s.held with
    | none => none
    | some e => (s.engine.handle trading lastTick e).toOption.map s.acted

/-- The ids that the gateway returns during a step. -/
def returned (s : Acting) : Move → List OrderId
  | .act trading lastTick =>
    match s.held with
    | none => []
    | some e =>
      match s.engine.handle trading lastTick e with
      | .ok r => placedIds r.client
      | .error _ => []
  | _ => []

end Acting

def actions (mktDataSymbol orderSymbol : String) : Machine Acting Move where
  init := { engine := { mktDataSymbol := mktDataSymbol, orderSymbol := orderSymbol } }
  step := Acting.step

/-- The gateway returns positive ids that it has not returned before. -/
def Fresh (s : Acting) (a : Move) : Prop := ∀ id ∈ s.returned a, 0 < id ∧ id ∉ s.ids

instance (s : Acting) (a : Move) : Decidable (Fresh s a) :=
  inferInstanceAs (Decidable (∀ id ∈ s.returned a, 0 < id ∧ id ∉ s.ids))

/-- What holds in every reachable state. Only the order in flight can be without
a cancel, and its flag says so. -/
structure Disciplined (s : Acting) : Prop where
  inflight : s.engine.inflightOrderId = -1 ∨ 0 < s.engine.inflightOrderId
  idle : s.engine.inflightOrderId = -1 → s.engine.orderCancelled = false
  known : 0 < s.engine.inflightOrderId → s.engine.inflightOrderId ∈ s.ids
  request : 0 < s.engine.inflightOrderId → s.engine.inflightOrderId ∈ s.engine.orderReqs
  uncancelled : 0 < s.engine.inflightOrderId → s.engine.orderCancelled = false →
    s.engine.inflightOrderId ∉ s.cancels.map Cancel.orderId
  cancels : ∀ c ∈ s.cancels, c.orderId = c.inflight ∧ c.orderId ∈ s.ids
  once : (s.cancels.map Cancel.orderId).Nodup

/-- All that handling an event does to the order in flight, with the ids that the
gateway returns and those that are cancelled. -/
inductive Flight (a : AlgoEngine) : AlgoEngine → List OrderId → List OrderId → Prop
  | same {b : AlgoEngine} {ids : List OrderId} (hinflight : b.inflightOrderId = a.inflightOrderId)
      (hcancelled : b.orderCancelled = a.orderCancelled)
      (hreqs : ∀ id ∈ a.orderReqs, id ∈ b.orderReqs) (hids : ∀ id ∈ ids, ¬ 0 < id) :
      Flight a b ids []
  | cancelled {b : AlgoEngine} (hfly : 0 < a.inflightOrderId) (hopen : a.orderCancelled = false)
      (hinflight : b.inflightOrderId = a.inflightOrderId) (hcancelled : b.orderCancelled = true)
      (hreqs : b.orderReqs = a.orderReqs) : Flight a b [] [a.inflightOrderId]
  | sent {b : AlgoEngine} (hfly : ¬ 0 < a.inflightOrderId) (hid : 0 < b.inflightOrderId)
      (hcancelled : b.orderCancelled = a.orderCancelled) (hreq : b.inflightOrderId ∈ b.orderReqs) :
      Flight a b [b.inflightOrderId] []
  | ended {b : AlgoEngine} (hinflight : b.inflightOrderId = -1)
      (hcancelled : b.orderCancelled = false) : Flight a b [] []

theorem sendOrder_client {t u : TradingEngine} {req : OrderReq} {id : OrderId} {events : List Event}
    {client : List ClientMsg} (h : t.sendOrder req = .ok (id, u, events, client)) :
    cancelledIds client = [] ∧ (placedIds client = [id] ∨ placedIds client = [] ∧ id = -1) := by
  rw [TradingEngine.sendOrder] at h
  dsimp only at h
  split at h
  · cases h
    exact ⟨rfl, .inr ⟨rfl, rfl⟩⟩
  · obtain ⟨out, hout, rfl, rfl, rfl⟩ := forward_eq_ok.mp h
    obtain ⟨p, hp, rfl, rfl⟩ := sendOrder_eq_ok.mp hout
    obtain ⟨_, contract, _, hplace, _⟩ := recordOrder_cases hp
    simp [hplace, cancelledIds, placedIds, cancelled?, FreshIds.placed?]

theorem retryPos_flight {a : AlgoEngine} {t : TradingEngine} {pos : PosUpdate} {r : Acted}
    (hfly : 0 < a.inflightOrderId) (h : a.retryPos t pos = .ok r) :
    Flight a r.engine (placedIds r.client) (cancelledIds r.client) := by
  rw [AlgoEngine.retryPos] at h
  cases hopen : a.orderCancelled with
  | false =>
    simp only [hopen, Bool.not_false, if_true] at h
    split at h
    · cases h
      exact .cancelled hfly hopen rfl rfl rfl
    · cases h
  | true =>
    simp only [hopen, Bool.not_true, Bool.false_eq_true, if_false] at h
    split at h
    · cases h
    · cases h
      exact .same rfl rfl (fun _ hid => hid) (by simp [placedIds])

theorem sendOrder_flight {a : AlgoEngine} {t : TradingEngine} {symbol : String} {quantity : Double}
    {r : Acted} (hfly : ¬ 0 < a.inflightOrderId) (h : a.sendOrder t symbol quantity = .ok r) :
    Flight a r.engine (placedIds r.client) (cancelledIds r.client) := by
  obtain ⟨⟨id, u, events, client⟩, hsend, hr⟩ := bind_eq_ok.mp h
  cases hr
  obtain ⟨hcancels, hplaced⟩ := sendOrder_client hsend
  rw [hcancels]
  by_cases hid : 0 < id
  · obtain hplaced | ⟨_, rfl⟩ := hplaced
    · simp only [hid, if_true, hplaced]
      exact .sent (b := a.inflight id _ quantity) hfly hid rfl ((AList.mem_insert _).mpr (.inl rfl))
    · exact absurd hid (by decide)
  · simp only [hid, if_false]
    refine .same rfl rfl (fun _ hreq => hreq) fun j hj => ?_
    obtain hplaced | ⟨hplaced, _⟩ := hplaced
    · rw [hplaced] at hj
      exact List.mem_singleton.mp hj ▸ hid
    · simp [hplaced] at hj

theorem Flight.of_target {a b : AlgoEngine} {target : Double} {ids cancels : List OrderId}
    (h : Flight { a with targetPos := target } b ids cancels) : Flight a b ids cancels := by
  cases h with
  | same hinflight hcancelled hreqs hids => exact .same hinflight hcancelled hreqs hids
  | cancelled hfly hopen hinflight hcancelled hreqs =>
    exact .cancelled hfly hopen hinflight hcancelled hreqs
  | sent hfly hid hcancelled hreq => exact .sent hfly hid hcancelled hreq
  | ended hinflight hcancelled => exact .ended hinflight hcancelled

theorem updatePosCb_flight {a : AlgoEngine} {t : TradingEngine} {pos : PosUpdate} {r : Acted}
    (h : a.updatePosCb t pos = .ok r) :
    Flight a r.engine (placedIds r.client) (cancelledIds r.client) := by
  rw [AlgoEngine.updatePosCb] at h
  by_cases hfly : 0 < a.inflightOrderId
  · rw [if_pos hfly] at h
    exact retryPos_flight hfly h
  · rw [if_neg hfly] at h
    dsimp only at h
    split at h
    · exact (sendOrder_flight (a := { a with targetPos := pos.pos }) hfly h).of_target
    · cases h
      exact .same rfl rfl (fun _ hid => hid) (by simp [placedIds])

theorem handle_flight {a : AlgoEngine} {t : TradingEngine} {lastTick : Option TickData} {e : Event}
    {r : Acted} (h : a.handle t lastTick e = .ok r) :
    Flight a r.engine (placedIds r.client) (cancelledIds r.client) := by
  have hnone : ∀ id ∈ ([] : List OrderId), ¬ 0 < id := fun _ hid => absurd hid List.not_mem_nil
  cases e with
  | algoPosUpdate pos => exact updatePosCb_flight h
  | orderData d =>
    cases h
    dsimp only
    rw [AlgoEngine.orderCb]
    split
    · exact .same rfl rfl (fun _ hid => hid) hnone
    · dsimp only
      split
      · exact .same rfl rfl (fun _ hid => hid) hnone
      · exact .ended rfl rfl
  | tickData data =>
    cases h
    rw [AlgoEngine.tickCb]
    split
    · exact .same rfl rfl (fun _ hid => hid) hnone
    · exact .same rfl rfl (fun _ hid => (AList.mem_insert _).mpr (.inr hid)) hnone
  | timer timer =>
    obtain ⟨_, rfl⟩ := timerCb_eq_ok h
    exact .same rfl rfl (fun _ hid => hid) hnone
  | _ =>
    cases h
    exact .same rfl rfl (fun _ hid => hid) hnone

/-- A step handles an event, or it reaches the engine through its queue. -/
theorem acted_or_around {mktDataSymbol orderSymbol : String} {s t : Acting} {a : Move}
    (h : (actions mktDataSymbol orderSymbol).step s a = some t) :
    (∃ trading lastTick e r, a = .act trading lastTick ∧ s.held = some e ∧
      s.engine.handle trading lastTick e = .ok r ∧ t = s.acted r) ∨
    ∃ running q held,
      t = { s with engine := { s.engine with running := running, q := q }, held := held } := by
  cases a with
  | start => cases h; exact .inr ⟨true, s.engine.q, s.held, rfl⟩
  | listen msg =>
    simp only [actions, Acting.step] at h
    split at h
    · cases h; exact .inr ⟨s.engine.running, _, s.held, rfl⟩
    · cases h
  | event e =>
    cases h
    obtain he | ⟨he, _⟩ := eventEngineCb_cases s.engine e
    · exact .inr ⟨s.engine.running, s.engine.q, s.held, by rw [he]⟩
    · exact .inr ⟨s.engine.running, _, s.held, by rw [he]; rfl⟩
  | pop =>
    simp only [actions, Acting.step] at h
    split at h
    · next e rest hheld hq =>
      split at h
      · cases h; exact .inr ⟨s.engine.running, rest, some e, rfl⟩
      · cases h
    · cases h
  | act trading lastTick =>
    simp only [actions, Acting.step] at h
    split at h
    · cases h
    · next e hheld =>
      obtain ⟨r, hr, rfl⟩ := toOption_map_eq_some.mp h
      exact .inl ⟨trading, lastTick, e, r, rfl, hheld, hr, rfl⟩

theorem ne_of_pos {id : OrderId} (h : 0 < id) : id ≠ -1 := by
  rintro rfl
  exact absurd h (by decide)

theorem Disciplined.mem_ids {s : Acting} (hs : Disciplined s) {id : OrderId}
    (h : id ∈ s.cancels.map Cancel.orderId) : id ∈ s.ids := by
  obtain ⟨c, hc, rfl⟩ := List.mem_map.mp h
  exact (hs.cancels c hc).2

/-- A step without a cancel. -/
theorem Disciplined.keep {s t : Acting} (hs : Disciplined s) {ids : List OrderId}
    (hids : t.ids = s.ids ++ ids) (hcancels : t.cancels = s.cancels)
    (hinflight : t.engine.inflightOrderId = -1 ∨ 0 < t.engine.inflightOrderId)
    (hidle : t.engine.inflightOrderId = -1 → t.engine.orderCancelled = false)
    (hknown : 0 < t.engine.inflightOrderId →
      t.engine.inflightOrderId ∈ s.ids ++ ids ∧ t.engine.inflightOrderId ∈ t.engine.orderReqs)
    (huncancelled : 0 < t.engine.inflightOrderId → t.engine.orderCancelled = false →
      t.engine.inflightOrderId ∉ s.cancels.map Cancel.orderId) : Disciplined t where
  inflight := hinflight
  idle := hidle
  known hfly := hids ▸ (hknown hfly).1
  request hfly := (hknown hfly).2
  uncancelled hfly hopen := hcancels ▸ huncancelled hfly hopen
  cancels c hc := by
    have hold := hs.cancels c (hcancels ▸ hc)
    exact ⟨hold.1, hids ▸ List.mem_append_left _ hold.2⟩
  once := hcancels ▸ hs.once

theorem Disciplined.cancel {s t : Acting} (hs : Disciplined s) (hfly : 0 < s.engine.inflightOrderId)
    (hopen : s.engine.orderCancelled = false) (hids : t.ids = s.ids)
    (hcancels : t.cancels = s.cancels ++ [⟨s.engine.inflightOrderId, s.engine.inflightOrderId⟩])
    (hinflight : t.engine.inflightOrderId = s.engine.inflightOrderId)
    (hcancelled : t.engine.orderCancelled = true)
    (hreqs : t.engine.orderReqs = s.engine.orderReqs) : Disciplined t where
  inflight := .inr (hinflight ▸ hfly)
  idle hidle := absurd (hinflight.symm.trans hidle) (ne_of_pos hfly)
  known _ := hids ▸ hinflight ▸ hs.known hfly
  request _ := hreqs ▸ hinflight ▸ hs.request hfly
  uncancelled _ hopen' := by simp [hcancelled] at hopen'
  cancels c hc := by
    rw [hcancels] at hc
    rw [hids]
    obtain hc | hc := List.mem_append.mp hc
    · exact hs.cancels c hc
    · rw [List.mem_singleton.mp hc]
      exact ⟨rfl, hs.known hfly⟩
  once := by
    rw [hcancels, List.map_append, List.map_singleton]
    exact List.nodup_append_comm.mp (List.nodup_cons.mpr ⟨hs.uncancelled hfly hopen, hs.once⟩)

theorem Disciplined.acted {s : Acting} (hs : Disciplined s) {r : Acted}
    (h : Flight s.engine r.engine (placedIds r.client) (cancelledIds r.client))
    (hfresh : ∀ id ∈ placedIds r.client, 0 < id ∧ id ∉ s.ids) : Disciplined (s.acted r) := by
  have hacted : s.acted r = ⟨r.engine, none, s.ids ++ placedIds r.client, s.cancels ++
      (cancelledIds r.client).map fun id => ⟨id, s.engine.inflightOrderId⟩⟩ := rfl
  rw [hacted]
  generalize placedIds r.client = ids at h hfresh ⊢
  generalize cancelledIds r.client = cancels at h ⊢
  generalize r.engine = b at h ⊢
  cases h with
  | same hinflight hcancelled hreqs hids =>
    refine hs.keep rfl (List.append_nil _) ?_ ?_ ?_ ?_
    · exact hinflight ▸ hs.inflight
    · exact fun hidle => hcancelled.trans (hs.idle (hinflight.symm.trans hidle))
    · intro hfly
      dsimp only at hfly ⊢
      rw [hinflight] at hfly ⊢
      exact ⟨List.mem_append_left _ (hs.known hfly), hreqs _ (hs.request hfly)⟩
    · intro hfly hopen
      dsimp only at hfly hopen ⊢
      rw [hinflight] at hfly ⊢
      exact hs.uncancelled hfly (hcancelled.symm.trans hopen)
  | cancelled hfly hopen hinflight hcancelled hreqs =>
    exact hs.cancel hfly hopen (List.append_nil _) rfl hinflight hcancelled hreqs
  | sent hfly hid hcancelled hreq =>
    have hnew := (hfresh _ (List.mem_singleton_self _)).2
    refine hs.keep rfl (List.append_nil _) (.inr hid) ?_ ?_ ?_
    · exact fun hidle => absurd hidle (ne_of_pos hid)
    · exact fun _ => ⟨List.mem_append_right _ (List.mem_singleton_self _), hreq⟩
    · exact fun _ _ hmem => hnew (hs.mem_ids hmem)
  | ended hinflight hcancelled =>
    refine hs.keep rfl (List.append_nil _) (.inl hinflight) (fun _ => hcancelled) ?_ ?_
    · exact fun hfly => absurd hinflight (ne_of_pos hfly)
    · exact fun hfly => absurd hinflight (ne_of_pos hfly)

theorem Disciplined.step {mktDataSymbol orderSymbol : String} {s t : Acting} {a : Move}
    (hs : Disciplined s) (hok : Fresh s a)
    (ht : (actions mktDataSymbol orderSymbol).step s a = some t) : Disciplined t := by
  obtain ⟨trading, lastTick, e, r, rfl, hheld, hr, rfl⟩ | ⟨_, _, _, rfl⟩ := acted_or_around ht
  · refine hs.acted (handle_flight hr) ?_
    simpa only [Fresh, Acting.returned, hheld, hr] using hok
  · exact ⟨hs.inflight, hs.idle, hs.known, hs.request, hs.uncancelled, hs.cancels, hs.once⟩

theorem disciplined {mktDataSymbol orderSymbol : String} {s : Acting}
    (hs : (actions mktDataSymbol orderSymbol).Reaches Fresh s) : Disciplined s := by
  refine Machine.Reaches.invariant ?_ (fun _ _ _ _ h hok ht => h.step hok ht) hs
  have hidle : ¬ 0 < (actions mktDataSymbol orderSymbol).init.engine.inflightOrderId := by
    change ¬ 0 < -1
    decide
  exact ⟨.inl rfl, fun _ => rfl, fun h => absurd h hidle, fun h => absurd h hidle,
    fun h => absurd h hidle, by simp [actions], List.nodup_nil⟩

/-- As long as the gateway returns fresh positive ids, every cancel is for the
order in flight, no order is cancelled twice, and the request of the order in
flight is found when an update waits for it. -/
theorem cancel_discipline {mktDataSymbol orderSymbol : String} {s : Acting}
    (hs : (actions mktDataSymbol orderSymbol).Reaches Fresh s) :
    (s.engine.inflightOrderId = -1 → s.engine.orderCancelled = false) ∧
      (∀ c ∈ s.cancels, c.orderId = c.inflight) ∧ (s.cancels.map Cancel.orderId).Nodup ∧
      (0 < s.engine.inflightOrderId → s.engine.inflightOrderId ∈ s.engine.orderReqs ∧
        ∀ trading pos, s.engine.retryPos trading pos ≠ .error .outOfRange) := by
  have h := disciplined hs
  refine ⟨h.idle, fun c hc => (h.cancels c hc).1, h.once, fun hfly => ⟨h.request hfly, ?_⟩⟩
  intro trading pos
  rw [AlgoEngine.retryPos]
  dsimp only
  split
  · rw [if_pos (h.request hfly)]
    simp
  · split <;> simp

def connected (mOrderId : OrderId) : TradingEngine where
  api := { mOrderId := mOrderId }
  risk := {}

/-- The event that ends an order that was cancelled. -/
def cancelledData (orderId : OrderId) : OrderData where
  orderId := orderId
  symbol := "6758-STK-JPY.TSEJ"
  exchange := ""
  source := "algo_engine"
  orderType := .market
  action := .buy
  totalQuantity := 10
  status := .cancelled

/-- Two orders are sent, and a later update waits for each. -/
def twoCancels : List Move :=
  [.start, .listen ⟨"6758", 10, 0⟩, .pop, .act (connected 1) none,
    .listen ⟨"6758", 20, 1⟩, .pop, .act (connected 2) none,
    .event (.orderData (cancelledData 1)), .pop, .act (connected 2) none, .pop,
    .act (connected 2) none, .pop, .act (connected 2) none,
    .listen ⟨"6758", 30, 2⟩, .pop, .act (connected 3) none]

def twiceCancelled : Acting :=
  ((actions "6758-STK-JPY.TSEJ" "6758-STK-JPY.TSEJ").restrict fun s a =>
    decide (Fresh s a)).stateAfter twoCancels (by decide +kernel)

theorem cancel_discipline_twice :
    twiceCancelled.cancels = [⟨1, 1⟩, ⟨2, 2⟩] ∧
      (twiceCancelled.cancels.map Cancel.orderId).Nodup ∧
      twiceCancelled.engine.inflightOrderId ∈ twiceCancelled.engine.orderReqs := by
  have hcancels : twiceCancelled.cancels = [⟨1, 1⟩, ⟨2, 2⟩] := by decide +kernel
  have hfly : 0 < twiceCancelled.engine.inflightOrderId := by decide +kernel
  have h := cancel_discipline (Machine.reaches_stateAfter (by decide +kernel)) (s := twiceCancelled)
  exact ⟨hcancels, h.2.2.1, (h.2.2.2 hfly).1⟩

end CalmTrading.CancelDiscipline
