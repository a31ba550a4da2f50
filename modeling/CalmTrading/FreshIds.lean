import CalmTrading.Lib.Machine
import CalmTrading.Connection
import CalmTrading.OrderRecords
import Mathlib.Algebra.Order.Ring.Int

namespace CalmTrading.FreshIds

open Lib Objects Utils Gateway Connection OrderRecords

/-- The api over several sessions, with the orders on their way to TWS, the ids
that TWS has received, and the `nextValidId` messages on their way back.
`returned` holds what `send_order` returned, `issued` the ids given to new
orders since a `start` returned connected. -/
structure Sessions extends Client where
  starting : Bool := false
  connected : Bool := false
  toTws : List ClientMsg := []
  received : List OrderId := []
  nextIds : List OrderId := []
  returned : List OrderId := []
  issued : List OrderId := []

inductive Move
  | start (connects : Bool)
  | startReturn
  | stop
  | send (req : OrderReq)
  | receive
  | announce (orderId : OrderId)
  | nextValidId

def placed? : ClientMsg → Option OrderId
  | .placeOrder orderId _ _ => some orderId
  | _ => none

namespace Sessions

def sent (s : Sessions) (req : OrderReq) (orderId : OrderId) (out : Out) : Sessions :=
  { s with
    api := out.api
    toTws := s.toTws ++ s.placed out.client
    returned := orderId :: s.returned
    issued := if isUnsetLlong req.orderId && s.connected then orderId :: s.issued else s.issued }

/-- A value that TWS announces is larger than every order id it has received,
and fits its type. What has not been delivered when `stop` has joined the message
thread never is: the next connection has a queue of its own. -/
def step (s : Sessions) : Move → Option Sessions
  | .start connects =>
    if s.api.running then some { s with connected := true }
    else
      let client := s.toClient.start connects
      some { s with toClient := client, starting := s.starting || client.api.running }
  | .startReturn =>
    if s.starting && s.api.startReturns then some { s with starting := false, connected := true }
    else none
  | .stop => some { s with toClient := s.toClient.stop, nextIds := [] }
  | .send req =>
    if isUnsetLlong req.orderId = true ∨ req.orderId ∈ s.returned then
      (s.api.sendOrder req).toOption.map fun (orderId, out) => s.sent req orderId out
    else none
  | .receive =>
    match s.toTws with
    | [] => none
    | m :: rest => some { s with toTws := rest, received := (placed? m).toList ++ s.received }
  | .announce orderId =>
    if s.socketOK = true ∧ (∀ id ∈ s.received, id < orderId) ∧ orderId ≤ unsetLong then
      some { s with nextIds := s.nextIds ++ [orderId] }
    else none
  | .nextValidId =>
    match s.nextIds with
    | [] => none
    | orderId :: rest => some { s with api := (s.api.nextValidId orderId).api, nextIds := rest }

end Sessions

def sessions : Machine Sessions Move where
  init := {}
  step := Sessions.step

/-- New orders get different ids, and so do all new orders that may follow. -/
def Fresh (s : Sessions) : Prop :=
  ∀ (reqs : List OrderReq) (t : Sessions), (∀ req ∈ reqs, isUnsetLlong req.orderId = true) →
    sessions.run s (reqs.map .send) = some t → t.issued.Nodup

/-- The value of a `nextValidId` message is larger than every id given to a new
order. -/
def Newer (s : Sessions) : Move → Prop
  | .nextValidId => ∀ orderId ∈ s.nextIds.head?, ∀ id ∈ s.issued, id < orderId
  | _ => True

def Ahead (s : Sessions) : Prop := ∀ id ∈ s.issued, id < s.api.mOrderId

structure Ranged (s : Sessions) : Prop where
  mOrderId : s.api.mOrderId ≤ unsetLong
  nextIds : ∀ id ∈ s.nextIds, id ≤ unsetLong
  issued : ∀ id ∈ s.issued, id < unsetLong
  connected : s.issued ≠ [] → s.connected = true

/-- All that a step does to the counter and to the ids given out. -/
inductive Counts (s : Sessions) : Move → Sessions → Prop
  | same {a : Move} {t : Sessions} (ha : Newer s a) (hid : t.api.mOrderId = s.api.mOrderId)
      (hissued : t.issued = s.issued) : Counts s a t
  | new {req : OrderReq} {t : Sessions} (hid : s.api.mOrderId ≠ unsetLong)
      (hnext : t.api.mOrderId = s.api.mOrderId + 1)
      (hissued : t.issued = if s.connected then s.api.mOrderId :: s.issued else s.issued) :
      Counts s (.send req) t
  | valid {orderId : OrderId} {rest : List OrderId} {t : Sessions}
      (hq : s.nextIds = orderId :: rest) (hid : t.api.mOrderId = orderId)
      (hissued : t.issued = s.issued) : Counts s .nextValidId t

variable {s t : Sessions}

theorem send_counts {req : OrderReq} (ht : sessions.step s (.send req) = some t) :
    Counts s (.send req) t ∧ t.connected = s.connected ∧ t.nextIds = s.nextIds := by
  simp only [sessions, Sessions.step] at ht
  split at ht
  · obtain ⟨⟨orderId, out⟩, hout, rfl⟩ := toOption_map_eq_some.mp ht
    obtain ⟨p, hp, rfl, rfl⟩ := sendOrder_eq_ok.mp hout
    refine ⟨?_, rfl, rfl⟩
    obtain ⟨hunset, hmax, hid, hnext⟩ | ⟨hset, _, hnext⟩ := recordOrder_mOrderId hp
    · exact .new hmax hnext (by simp [Sessions.sent, hunset, hid])
    · exact .same trivial hnext (by simp [Sessions.sent, hset])
  · cases ht

theorem step_counts {a : Move} (ht : sessions.step s a = some t) :
    Counts s a t ∧ (s.connected = true → t.connected = true) ∧
      ∀ id ∈ t.nextIds, id ∈ s.nextIds ∨ id ≤ unsetLong := by
  cases a with
  | start connects =>
    simp only [sessions, Sessions.step] at ht
    split at ht <;> cases ht
    · exact ⟨.same trivial rfl rfl, fun _ => rfl, fun id hid => .inl hid⟩
    · obtain ⟨bRes, hapi⟩ := s.toClient.start_api connects
      exact ⟨.same trivial (by simp [hapi]) rfl, id, fun id hid => .inl hid⟩
  | startReturn =>
    simp only [sessions, Sessions.step] at ht
    split at ht <;> cases ht
    exact ⟨.same trivial rfl rfl, fun _ => rfl, fun id hid => .inl hid⟩
  | stop =>
    cases ht
    exact ⟨.same trivial (by simp [s.toClient.stop_api]) rfl, id, fun id hid => (by cases hid)⟩
  | send req =>
    obtain ⟨hcounts, hconn, hnextIds⟩ := send_counts ht
    exact ⟨hcounts, hconn.trans, fun id hid => .inl (hnextIds ▸ hid)⟩
  | receive =>
    simp only [sessions, Sessions.step] at ht
    split at ht <;> cases ht
    exact ⟨.same trivial rfl rfl, id, fun id hid => .inl hid⟩
  | announce orderId =>
    simp only [sessions, Sessions.step] at ht
    split at ht
    · next hvalid =>
      cases ht
      refine ⟨.same trivial rfl rfl, id, fun id hid => ?_⟩
      obtain hid | hid := List.mem_append.mp hid
      · exact .inl hid
      · exact .inr (List.mem_singleton.mp hid ▸ hvalid.2.2)
    · cases ht
  | nextValidId =>
    simp only [sessions, Sessions.step] at ht
    split at ht
    · cases ht
    · next hq =>
      cases ht
      exact ⟨.valid hq rfl rfl, id, fun id hid => .inl (hq ▸ List.mem_cons_of_mem _ hid)⟩

theorem ahead_step {a : Move} (h : s.issued.Nodup ∧ Ahead s) (ht : sessions.step s a = some t) :
    t.issued.Nodup ∧ Ahead t ↔ Newer s a := by
  obtain ⟨hcounts, _⟩ := step_counts ht
  rw [Ahead]
  cases hcounts with
  | same ha hid hissued =>
    rw [hid, hissued]
    exact iff_of_true h ha
  | new _ hnext hissued =>
    refine iff_of_true ?_ trivial
    rw [hnext, hissued]
    split
    · refine ⟨List.nodup_cons.mpr ⟨fun hmem => Int.lt_irrefl _ (h.2 _ hmem), h.1⟩, ?_⟩
      intro id hid
      obtain rfl | hid := List.mem_cons.mp hid
      · exact Int.lt_succ _
      · exact Int.lt_trans (h.2 id hid) (Int.lt_succ _)
    · exact ⟨h.1, fun id hid => Int.lt_trans (h.2 id hid) (Int.lt_succ _)⟩
  | valid hq hid hissued =>
    simp [hid, hissued, Newer, hq, h.1]

theorem Ranged.step {a : Move} (h : Ranged s) (ht : sessions.step s a = some t) : Ranged t := by
  obtain ⟨hcounts, hconn, hnextIds⟩ := step_counts ht
  have hqueue : ∀ id ∈ t.nextIds, id ≤ unsetLong :=
    fun id hid => (hnextIds id hid).elim (h.nextIds id) fun hle => hle
  cases hcounts with
  | same _ hid hissued =>
    refine ⟨hid ▸ h.mOrderId, hqueue, hissued ▸ h.issued, fun hne => ?_⟩
    exact hconn (h.connected (hissued ▸ hne))
  | new hmax hnext hissued =>
    have hlt : s.api.mOrderId < unsetLong := lt_of_le_of_ne h.mOrderId hmax
    refine ⟨hnext ▸ hlt, hqueue, ?_, ?_⟩
    · intro id hid
      rw [hissued] at hid
      split at hid
      · obtain rfl | hid := List.mem_cons.mp hid
        · exact hlt
        · exact h.issued id hid
      · exact h.issued id hid
    · intro hne
      rw [hissued] at hne
      split at hne
      · next hs => exact hconn hs
      · exact hconn (h.connected hne)
  | valid hq hid hissued =>
    refine ⟨hid ▸ h.nextIds _ (hq ▸ List.mem_cons_self), hqueue, hissued ▸ h.issued, fun hne => ?_⟩
    exact hconn (h.connected (hissued ▸ hne))

def marketBuy : OrderReq where
  symbol := "6758-STK-JPY.TSEJ"
  source := "simple"
  action := .buy
  orderType := .market
  quantity := 100

theorem send_marketBuy (hid : s.api.mOrderId ≠ unsetLong) (hconn : s.connected = true) :
    ∃ t, sessions.step s (.send marketBuy) = some t ∧ t.connected = true ∧
      t.api.mOrderId = s.api.mOrderId + 1 ∧ t.issued = s.api.mOrderId :: s.issued := by
  have hunset : isUnsetLlong marketBuy.orderId = true := rfl
  have hcontract : generateContract marketBuy.symbol = .ok ⟨"6758", "STK", "JPY", "TSEJ"⟩ := by
    decide +kernel
  obtain ⟨out, hsend, hnext⟩ := sendOrder_new hcontract hunset hid
  refine ⟨s.sent marketBuy s.api.mOrderId out, ?_, hconn, hnext, ?_⟩
  · simp only [sessions, Sessions.step, hunset, true_or, if_true]
    exact toOption_map_eq_some.mpr ⟨_, hsend, rfl⟩
  · rw [Sessions.sent, hunset, hconn]
    rfl

/-- Once the counter is behind an id in use, new orders reach that id. -/
theorem reused {id next : Int} (hmem : id ∈ s.issued) (hnext : s.api.mOrderId = next)
    (hle : next ≤ id) (hmax : id < unsetLong) (hconn : s.connected = true) :
    ∃ n t, sessions.run s ((List.replicate n marketBuy).map .send) = some t ∧
      ¬ t.issued.Nodup := by
  obtain ⟨n, hn⟩ := Int.eq_ofNat_of_zero_le (Int.sub_nonneg_of_le hle)
  induction n generalizing s next with
  | zero =>
    obtain ⟨t, ht, _, _, hissued⟩ :=
      send_marketBuy (hnext ▸ (Int.lt_of_le_of_lt hle hmax).ne) hconn
    refine ⟨1, t, by simp [Machine.run, ht], ?_⟩
    rw [hissued, hnext, (by omega : next = id)]
    exact fun hnodup => (List.nodup_cons.mp hnodup).1 hmem
  | succ n ih =>
    obtain ⟨t, ht, hconn', hnext', hissued⟩ :=
      send_marketBuy (hnext ▸ (Int.lt_of_le_of_lt hle hmax).ne) hconn
    rw [hnext] at hnext'
    obtain ⟨m, u, hrun, hu⟩ := ih (hissued ▸ List.mem_cons_of_mem _ hmem) hnext' (by omega) hconn'
      (by omega)
    exact ⟨m + 1, u, (Machine.run_cons ht).trans hrun, hu⟩

theorem send_unset {reqs : List OrderReq} (hreqs : ∀ req ∈ reqs, isUnsetLlong req.orderId = true)
    (h : s.issued.Nodup ∧ Ahead s) (ht : sessions.run s (reqs.map .send) = some t) :
    t.issued.Nodup := by
  induction reqs generalizing s with
  | nil =>
    cases ht
    exact h.1
  | cons req reqs ih =>
    obtain ⟨u, hu, ht⟩ := Option.bind_eq_some_iff.mp ht
    exact ih (fun r hr => hreqs r (List.mem_cons_of_mem _ hr)) ((ahead_step h hu).mpr trivial) ht

theorem fresh_iff (h : Ranged s) : Fresh s ↔ s.issued.Nodup ∧ Ahead s := by
  constructor
  · intro hfresh
    refine ⟨hfresh [] s (by simp) rfl, fun id hid => ?_⟩
    by_contra hle
    have hconn := h.connected (List.ne_nil_of_mem hid)
    obtain ⟨n, t, ht, hdup⟩ := reused hid rfl (Int.not_lt.mp hle) (h.issued id hid) hconn
    refine hdup (hfresh _ t (fun req hreq => ?_) ht)
    rw [(List.mem_replicate.mp hreq).2]
    rfl
  · exact fun hahead reqs t hreqs ht => send_unset hreqs hahead ht

theorem new_order_ids_fresh_iff (as : List Move) :
    sessions.StatesAll Fresh sessions.init as ↔ sessions.StepsAll Newer sessions.init as := by
  have hinit : Ranged sessions.init := by constructor <;> simp [sessions, unsetLong]
  apply Machine.statesAll_iff_stepsAll (I := Ranged)
  · exact fun _ _ _ h ht => h.step ht
  · intro s a t h hfresh ht
    rw [fresh_iff (h.step ht)]
    exact ahead_step ((fresh_iff h).mp hfresh) ht
  · exact hinit
  · exact (fresh_iff hinit).mpr (by simp [sessions, Ahead])

def staleNextId : List Move :=
  [.start true, .announce 1, .nextValidId, .startReturn, .send marketBuy, .receive, .announce 2,
    .send marketBuy, .nextValidId, .send marketBuy]

theorem new_order_id_reused : ¬ ∀ s, sessions.Reachable s → s.issued.Nodup := by
  intro hall
  have hrun : ((sessions.run sessions.init staleNextId).map Sessions.issued) = some [2, 2, 1] := by
    decide +kernel
  obtain ⟨s, hs, hissued⟩ := Machine.exists_reachable_of_run hrun
  have hnodup := hall s hs
  rw [hissued] at hnodup
  exact absurd hnodup (by decide)

end CalmTrading.FreshIds
