import CalmTrading.OrderHistory

namespace CalmTrading.OrderModification

open Lib Lib.History Objects Utils Gateway OrderRecords OrderHistory

def placed? (id : OrderId) : Entry → Option OrderReq
  | .sent j req => if j = id then some req else none
  | .called _ => none

def lastReq (id : OrderId) (h : List Entry) : Option OrderReq := (h.filterMap (placed? id)).getLast?

def Terms (d : OrderData) (req : OrderReq) : Prop :=
  d.totalQuantity = req.quantity ∧ d.orderType = req.orderType

/-- Every record, and every event, shows the terms last placed for its id. -/
structure Reflected (s : Log) : Prop where
  records : ∀ id d, s.api.orders.find? id = some d →
    ∃ req, lastReq id s.history = some req ∧ Terms d req
  emitted : ∀ d ∈ s.emitted, ∃ req, lastReq d.orderId s.history = some req ∧ Terms d req

/-- What was reported on an order survives a `send_order`. -/
def Preserves : Prop :=
  ∀ s t req id r, gateway.step s (.sendOrder req) = some t → s.api.orders.find? id = some r →
    ∃ d, t.api.orders.find? id = some d ∧ d.tradedQuantity = r.tradedQuantity ∧
      d.avgTradePrice = r.avgTradePrice ∧ d.commission = r.commission

def orderIdFor (api : IBApi) (req : OrderReq) : OrderId :=
  if isUnsetLlong req.orderId then api.mOrderId else req.orderId

/-- A request for an id that was sent before has the quantity and the type of
the first request for it. -/
def SameTerms (s : Log) : Call → Prop
  | .sendOrder req => ∀ first, firstReq (orderIdFor s.api req) s.history = some first →
      req.quantity = first.quantity ∧ req.orderType = first.orderType
  | .callback _ => True

def Unmodified (h : List Entry) : Prop :=
  ∀ id first last, firstReq id h = some first → lastReq id h = some last →
    last.quantity = first.quantity ∧ last.orderType = first.orderType

/-- What holds in every reachable state: a record shows the terms first placed. -/
structure FirstTerms (s : Log) : Prop extends Faithful s where
  first : ∀ id d, s.api.orders.find? id = some d →
    ∃ req, firstReq id s.history = some req ∧ Terms d req

section

variable {h : List Entry} {id : OrderId}

theorem lastReq_snoc (id : OrderId) (h : List Entry) (e : Entry) :
    lastReq id (h ++ [e]) = (placed? id e).or (lastReq id h) := by
  cases hp : placed? id e with
  | none => simp [lastReq, hp]
  | some req => simp [lastReq, hp]

theorem sent_of_lastReq {req : OrderReq} (hr : lastReq id h = some req) : Sent h id := by
  obtain ⟨e, he, hp⟩ := List.mem_filterMap.mp (List.mem_of_getLast? hr)
  refine ⟨e, he, ?_⟩
  cases e with
  | sent j r =>
    simp only [placed?] at hp
    split at hp
    · next hj => simpa [Entry.sends] using hj
    · cases hp
  | called c => cases hp

theorem lastReq_of_sent (hs : Sent h id) : ∃ req, lastReq id h = some req := by
  obtain ⟨e, he, hsends⟩ := hs
  cases e with
  | sent j r =>
    have hj : j = id := by simpa [Entry.sends] using hsends
    have hmem : r ∈ h.filterMap (placed? id) := List.mem_filterMap.mpr ⟨_, he, if_pos hj⟩
    exact ⟨_, List.getLast?_eq_getLast_of_ne_nil (List.ne_nil_of_mem hmem)⟩
  | called c => cases hsends

theorem firstReq_new {req : OrderReq} (hs : ¬ Sent h id) :
    firstReq id (h ++ [.sent id req]) = some req := by
  have hheard : heard id (h ++ [.sent id req]) = [.sent id req] :=
    since_snoc_first hs (by simp [Entry.sends])
  rw [firstReq, hheard]
  rfl

theorem unmodified_called {c : Callback} : Unmodified (h ++ [.called c]) ↔ Unmodified h := by
  refine forall₃_congr fun id first last => ?_
  rw [lastReq_snoc]
  by_cases hs : Sent h id
  · rw [firstReq_snoc hs]
    rfl
  · have hnone : lastReq id h = none :=
      Option.eq_none_iff_forall_ne_some.mpr fun req hr => hs (sent_of_lastReq hr)
    simp [hnone, placed?]

theorem unmodified_sent (hu : Unmodified h) {req : OrderReq} :
    Unmodified (h ++ [.sent id req]) ↔ ∀ first, firstReq id h = some first →
      req.quantity = first.quantity ∧ req.orderType = first.orderType := by
  have hlast : lastReq id (h ++ [.sent id req]) = some req := by simp [lastReq_snoc, placed?]
  constructor
  · intro hmod first hfirst
    apply hmod id first req _ hlast
    rwa [firstReq_snoc (sent_of_firstReq hfirst)]
  · intro hsame j first last hfirst hl
    by_cases hj : j = id
    · subst hj
      rw [hlast, Option.some.injEq] at hl
      subst hl
      by_cases hs : Sent h j
      · rw [firstReq_snoc hs] at hfirst
        exact hsame first hfirst
      · rw [firstReq_new hs, Option.some.injEq] at hfirst
        exact hfirst ▸ ⟨rfl, rfl⟩
    · rw [lastReq_snoc, placed?, if_neg (Ne.symm hj), Option.none_or] at hl
      rw [firstReq_snoc (sent_of_lastReq hl)] at hfirst
      exact hu j first last hfirst hl

end

section

variable {s t : Log}

theorem reflected_iff (hs : FirstTerms s) : Reflected s ↔ Unmodified s.history := by
  constructor
  · intro href id first last hfirst hlast
    obtain ⟨d, hd⟩ := hs.sent id (sent_of_lastReq hlast)
    obtain ⟨req, hreq, hterms⟩ := hs.first id d hd
    obtain ⟨req', hreq', hterms'⟩ := href.records id d hd
    rw [hfirst, Option.some.injEq] at hreq
    rw [hlast, Option.some.injEq] at hreq'
    subst hreq hreq'
    exact ⟨hterms'.1.symm.trans hterms.1, hterms'.2.symm.trans hterms.2⟩
  · intro hu
    have hrecords : ∀ id d, s.api.orders.find? id = some d →
        ∃ req, lastReq id s.history = some req ∧ Terms d req := by
      intro id d hd
      obtain ⟨first, hfirst, hterms⟩ := hs.first id d hd
      obtain ⟨last, hlast⟩ := lastReq_of_sent (sent_of_firstReq hfirst)
      obtain ⟨hquantity, htype⟩ := hu id first last hfirst hlast
      exact ⟨last, hlast, hterms.1.trans hquantity.symm, hterms.2.trans htype.symm⟩
    exact ⟨hrecords, fun d hd => hrecords _ d (hs.emitted d hd)⟩

theorem recordOrder_orderId {api : IBApi} {req : OrderReq} {p : Placing}
    (h : api.recordOrder req = .ok p) : p.orderId = orderIdFor api req := by
  rw [orderIdFor]
  obtain ⟨hunset, _, hid, _⟩ | ⟨hset, hid, _⟩ := recordOrder_mOrderId h
  · rw [if_pos hunset, hid]
  · rw [if_neg (by simp [hset]), hid]

theorem FirstTerms.callback (hs : FirstTerms s) {c : Callback} {out : Out}
    (h : s.api.callback c = .ok out) :
    FirstTerms ⟨out.api, s.history ++ [.called c], orderEvents out.events⟩ where
  toFaithful := hs.toFaithful.callback h
  first id d hd := by
    have hd : out.api.orders.find? id = some d := hd
    cases hr : s.api.orders.find? id with
    | none =>
      rw [(callback_reports h).absent hr] at hd
      cases hd
    | some r =>
      obtain ⟨d', hd', hsame⟩ := (callback_reports h).records.kept hr
      rw [hd, Option.some.injEq] at hd'
      subst hd'
      obtain ⟨req, hreq, hquantity, htype⟩ := hs.first id r hr
      refine ⟨req, ?_, hsame.totalQuantity ▸ hquantity, hsame.orderType ▸ htype⟩
      rw [firstReq_snoc (sent_of_firstReq hreq), hreq]

theorem FirstTerms.sendOrder (hs : FirstTerms s) {req : OrderReq} {id : OrderId} {out : Out}
    (h : s.api.sendOrder req = .ok (id, out)) :
    FirstTerms ⟨out.api, s.history ++ [.sent id req], orderEvents out.events⟩ where
  toFaithful := hs.toFaithful.sendOrder h
  first j d hd := by
    have hold : ∀ d, s.api.orders.find? j = some d →
        ∃ r, firstReq j (s.history ++ [.sent id req]) = some r ∧ Terms d r := by
      intro d hd
      obtain ⟨r, hr, hterms⟩ := hs.first j d hd
      exact ⟨r, by rw [firstReq_snoc (sent_of_firstReq hr), hr], hterms⟩
    obtain ⟨p, hp, rfl, rfl⟩ := sendOrder_eq_ok.mp h
    obtain ⟨next, contract, _, _, ⟨r, hr, _, happ⟩ | ⟨hnone, _, happ⟩⟩ := recordOrder_cases hp
    · rw [happ] at hd
      exact hold d hd
    · simp only [happ, Orders.find?_set] at hd
      split at hd
      · next hj =>
        change j = p.orderId at hj
        cases hd
        rw [hj]
        refine ⟨req, firstReq_new fun hsent => ?_, rfl, rfl⟩
        obtain ⟨r, hr⟩ := hs.sent _ hsent
        rw [hnone] at hr
        cases hr
      · exact hold d hd

theorem FirstTerms.step (hs : FirstTerms s) {a : Call} (ht : gateway.step s a = some t) :
    FirstTerms t := by
  cases a with
  | sendOrder req =>
    simp only [gateway, OrderHistory.step] at ht
    split at ht
    · next hout => cases ht; exact hs.sendOrder hout
    · cases ht
  | callback c =>
    simp only [gateway, OrderHistory.step] at ht
    split at ht
    · next hout => cases ht; exact hs.callback hout
    · cases ht

theorem reflected_step (hs : FirstTerms s) (hp : Reflected s) {a : Call}
    (ht : gateway.step s a = some t) : Reflected t ↔ SameTerms s a := by
  have hu := (reflected_iff hs).mp hp
  rw [reflected_iff (hs.step ht)]
  cases a with
  | sendOrder req =>
    simp only [gateway, OrderHistory.step] at ht
    split at ht
    · next hout =>
      cases ht
      obtain ⟨p, hrecord, rfl, rfl⟩ := sendOrder_eq_ok.mp hout
      rw [unmodified_sent hu, SameTerms, recordOrder_orderId hrecord]
    · cases ht
  | callback c =>
    simp only [gateway, OrderHistory.step] at ht
    split at ht
    · cases ht
      exact iff_of_true (unmodified_called.mpr hu) trivial
    · cases ht

theorem preserves : Preserves := by
  intro s t req id r ht hr
  simp only [gateway, OrderHistory.step] at ht
  split at ht
  · next hout =>
    cases ht
    obtain ⟨p, hp, rfl, rfl⟩ := sendOrder_eq_ok.mp hout
    refine ⟨r, ?_, rfl, rfl, rfl⟩
    obtain ⟨next, contract, _, _, ⟨_, _, _, happ⟩ | ⟨hnone, _, happ⟩⟩ := recordOrder_cases hp
    · rw [happ]
      exact hr
    · rw [happ]
      refine (Orders.find?_set_ne _ fun hid => ?_).trans hr
      rw [hid] at hr
      exact absurd (hr.symm.trans hnone) (by simp)
  · cases ht

end

theorem modification_reflected_iff (as : List Call) :
    (gateway.StatesAll Reflected gateway.init as ↔ gateway.StepsAll SameTerms gateway.init as) ∧
      Preserves := by
  refine ⟨?_, preserves⟩
  apply Machine.statesAll_iff_stepsAll (I := FirstTerms)
  · exact fun _ _ _ hs ht => hs.step ht
  · exact fun _ _ _ hs hp ht => reflected_step hs hp ht
  · exact ⟨⟨by simp [gateway], by simp [gateway, Sent], by simp [gateway]⟩, by simp [gateway]⟩
  · exact ⟨by simp [gateway], by simp [gateway]⟩

def halved : List Call :=
  [.callback (.nextValidId 1), .sendOrder buyReq,
    .sendOrder { buyReq with quantity := 50, orderId := 1 }]

theorem modification_not_recorded : ¬ ∀ s, gateway.Reachable s → Reflected s := by
  intro hall
  have hrun : ((gateway.run gateway.init halved).map fun s =>
      ((s.api.orders.find? 1).map OrderData.totalQuantity,
        (lastReq 1 s.history).map OrderReq.quantity)) = some (some 100, some 50) := by
    decide +kernel
  obtain ⟨s, hs, hend⟩ := Machine.exists_reachable_of_run hrun
  obtain ⟨hquantity, hlast⟩ := Prod.mk.inj hend
  obtain ⟨d, hd, hd100⟩ := Option.map_eq_some_iff.mp hquantity
  obtain ⟨req, hreq, hterms⟩ := (hall s hs).records 1 d hd
  rw [hreq, Option.map_some, Option.some.injEq] at hlast
  rw [← hterms.1, hd100] at hlast
  exact absurd hlast (by decide +kernel)

end CalmTrading.OrderModification
