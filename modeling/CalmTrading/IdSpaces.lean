import CalmTrading.DownloadSession
import CalmTrading.HistoricalInit
import CalmTrading.OrderHistory

namespace CalmTrading.IdSpaces

open Lib Objects Utils Gateway Requests OrderRecords HistoricalData HistoricalInit Download

/-- The gateway with a historical download. History are the ids of all requests
handed to the client and the ids of all orders, each in order. -/
structure Ids where
  runner : Runner
  requests : List Int := []
  orderIds : List OrderId := []

inductive Move
  | start (connects : Bool)
  | stop
  | subscribe (symbol : String) (delayed : Bool)
  | contractDetails (symbol : String)
  | sendOrder (req : OrderReq)
  | callback (c : Callback)
  | run (m : RunMove)
  | dispatch (e : Event) (outcome : Outcome)

namespace Ids

def api (s : Ids) : IBApi := s.runner.api

def after (s : Ids) (out : Out) : Ids :=
  { s with
    runner := { s.runner with api := out.api }
    requests := s.requests ++ out.client.filterMap ClientMsg.reqId? }

/-- Events reach the getter at any time and in any order. -/
def step (s : Ids) : Move → Option Ids
  | .start connects => some (s.after { api := s.api.start connects })
  | .stop => some (s.after { api := s.api.stop })
  | .subscribe symbol delayed => (s.api.subscribe symbol delayed).toOption.map s.after
  | .contractDetails symbol => (s.api.reqContractDetails symbol).toOption.map s.after
  | .sendOrder req =>
    (s.api.sendOrder req).toOption.map fun (orderId, out) =>
      { s.after out with orderIds := s.orderIds ++ [orderId] }
  | .callback c => (s.api.callback c).toOption.map s.after
  | .run m =>
    (s.runner.step m).map fun (r, client) =>
      { s with runner := r, requests := s.requests ++ client.filterMap ClientMsg.reqId? }
  | .dispatch e outcome =>
    (DownloadSession.Session.handle s.runner.getter outcome e).map fun g =>
      { s with runner := { s.runner with getter := g } }

def Downloads (s : Ids) (id : Int) : Prop :=
  id ∈ s.runner.getter.reqIdSym ∨ ∃ symbol, s.runner.pc = .sent id symbol

end Ids

def ids (g : HistBarGetter) : Machine Ids Move where
  init := { runner := { getter := g } }
  step := Ids.step

/-- No order has the id of a request, and errors go where they belong. -/
structure Separate (s : Ids) : Prop where
  disjoint : ∀ id ∈ s.orderIds, id ∉ s.requests
  requestError : ∀ msg : ErrMsg, msg.id ∈ s.requests →
    (s.api.error msg).api.orders = s.api.orders ∧ orderEvents (s.api.error msg).events = []
  orderError : ∀ msg : ErrMsg, msg.id ∈ s.orderIds →
    s.runner.getter.processErrMsg msg = s.runner.getter

/-- The order ids that a move uses, and the next one to give out after it. -/
def number (next : OrderId) : Move → List OrderId × OrderId
  | .sendOrder req =>
    if isUnsetLlong req.orderId then ([next], next + 1) else ([req.orderId], next)
  | .callback (.nextValidId orderId) => ([], orderId)
  | _ => ([], next)

/-- The order ids that follow from the moves alone: those the callers carry,
and those counted from what `nextValidId` brought last. -/
def numbered (next : OrderId) : List Move → List OrderId
  | [] => []
  | a :: as => (number next a).1 ++ numbered (number next a).2 as

def block (first : Int) (n : Nat) : List Int := (List.range n).map fun i : Nat => first + i

theorem mem_block {first id : Int} {n : Nat} :
    id ∈ block first n ↔ first ≤ id ∧ id < first + n := by
  simp only [block, List.mem_map, List.mem_range]
  constructor
  · rintro ⟨i, hi, rfl⟩
    omega
  · intro h
    exact ⟨(id - first).toNat, by omega, by omega⟩

theorem length_block (first : Int) (n : Nat) : (block first n).length = n := by simp [block]

theorem block_append (first : Int) (m n : Nat) :
    block first m ++ block (first + m) n = block first (m + n) := by
  rw [block, block, block, List.range_add, List.map_append, List.map_map]
  congr 1
  apply List.map_congr_left
  intro i _
  simp [add_assoc]

/-- All that a move does to the two counters and to the ids in use. -/
structure Moved (s : Ids) (a : Move) (t : Ids) : Prop where
  requests : ∃ n, t.requests = s.requests ++ block s.api.mReqId n ∧
    t.api.mReqId = s.api.mReqId + n
  orders : ∀ id, (t.api.orders.find? id).isSome = true ↔
    (s.api.orders.find? id).isSome = true ∨ id ∈ (number s.api.mOrderId a).1
  orderIds : t.orderIds = s.orderIds ++ (number s.api.mOrderId a).1
  next : t.api.mOrderId = (number s.api.mOrderId a).2
  downloads : ∀ id, t.Downloads id → s.Downloads id ∨ id ∈ t.requests

/-- What holds in every reachable state: the requests have the first ids from
ten million on, and only orders have records. -/
structure Counted (s : Ids) : Prop where
  requests : s.requests = block 10000000 s.requests.length
  mReqId : s.api.mReqId = 10000000 + s.requests.length
  orders : ∀ id, (s.api.orders.find? id).isSome = true ↔ id ∈ s.orderIds
  downloads : ∀ id, s.Downloads id → id ∈ s.requests

variable {g : HistBarGetter} {s t : Ids}

theorem Counted.mem_requests (h : Counted s) {id : Int} :
    id ∈ s.requests ↔ 10000000 ≤ id ∧ id < 10000000 + s.requests.length := by
  have hblock : id ∈ s.requests ↔ id ∈ block 10000000 s.requests.length := by rw [← h.requests]
  rw [hblock, mem_block]

@[simp] theorem after_api (s : Ids) (out : Out) : (s.after out).api = out.api := rfl

theorem callback_counters {api : IBApi} {c : Callback} {out : Out} (h : api.callback c = .ok out) :
    out.client = [] ∧ out.api.mReqId = api.mReqId ∧
      number api.mOrderId (.callback c) = ([], out.api.mOrderId) := by
  cases c with
  | nextValidId id =>
    cases h
    exact ⟨rfl, rfl, rfl⟩
  | _ =>
    obtain ⟨hclient, hreq, horder⟩ := callback_sameCounters h (by simp)
    exact ⟨hclient, hreq, congrArg (Prod.mk []) horder.symm⟩

theorem callback_orders {api : IBApi} {c : Callback} {out : Out} (h : api.callback c = .ok out)
    (id : OrderId) : (out.api.orders.find? id).isSome = (api.orders.find? id).isSome := by
  cases hid : api.orders.find? id with
  | none => rw [(callback_reports h).absent hid]
  | some r =>
    obtain ⟨d, hd, _⟩ := (callback_reports h).records.kept hid
    rw [hd]
    rfl

theorem Moved.quiet {a : Move} {out : Out} (n : Nat)
    (hclient : out.client.filterMap ClientMsg.reqId? = block s.api.mReqId n)
    (hreq : out.api.mReqId = s.api.mReqId + n)
    (horders : ∀ id, (out.api.orders.find? id).isSome = (s.api.orders.find? id).isSome)
    (ha : number s.api.mOrderId a = ([], out.api.mOrderId)) : Moved s a (s.after out) where
  requests := ⟨n, by rw [Ids.after, hclient], hreq⟩
  orders id := by simp [horders, ha]
  orderIds := by simp [Ids.after, ha]
  next := by rw [ha, after_api]
  downloads _ h := .inl h

theorem sendOrder_moved {req : OrderReq} {orderId : OrderId} {out : Out}
    (h : s.api.sendOrder req = .ok (orderId, out)) :
    Moved s (.sendOrder req) { s.after out with orderIds := s.orderIds ++ [orderId] } := by
  obtain ⟨p, hp, rfl, rfl⟩ := sendOrder_eq_ok.mp h
  have hnumber : number s.api.mOrderId (.sendOrder req) = ([p.orderId], p.api.mOrderId) := by
    obtain ⟨hunset, _, hid, hnext⟩ | ⟨hset, hid, hnext⟩ := recordOrder_mOrderId hp
    · rw [number, if_pos hunset, hid, hnext]
    · rw [number, if_neg (by simp [hset]), hid, hnext]
  obtain ⟨next, contract, _, hplace, hrecord⟩ := recordOrder_cases hp
  refine ⟨⟨0, ?_, ?_⟩, fun id => ?_, ?_, ?_, fun _ h => .inl h⟩
  · simp [Ids.after, hplace, ClientMsg.reqId?, block]
  · obtain ⟨_, _, _, happ⟩ | ⟨_, _, happ⟩ := hrecord <;> simp [Ids.api, Ids.after, happ]
  · rw [hnumber, List.mem_singleton]
    obtain ⟨r, hr, _, happ⟩ | ⟨_, _, happ⟩ := hrecord
    · simp only [Ids.api, Ids.after, happ]
      refine ⟨.inl, fun hid => hid.elim (fun h => h) ?_⟩
      rintro rfl
      exact Option.isSome_iff_exists.mpr ⟨r, hr⟩
    · simp only [Ids.api, Ids.after, happ, Orders.find?_set]
      by_cases hid : id = p.orderId
      · simp [hid, newOrderData]
      · simp [hid, newOrderData]
  · rw [hnumber]
  · rw [hnumber]
    rfl

theorem Moved.ran {m : RunMove} {r : Runner} {client : List ClientMsg} (n : Nat)
    (hclient : client.filterMap ClientMsg.reqId? = block s.api.mReqId n)
    (hapi : r.api = { s.api with mReqId := s.api.mReqId + n })
    (hdownloads : ∀ id, id ∈ r.getter.reqIdSym ∨ (∃ symbol, r.pc = .sent id symbol) →
      s.Downloads id ∨ id ∈ block s.api.mReqId n) :
    Moved s (.run m)
      { s with runner := r, requests := s.requests ++ client.filterMap ClientMsg.reqId? } where
  requests := ⟨n, by rw [hclient], congrArg IBApi.mReqId hapi⟩
  orders id := by simp [Ids.api, hapi, number]
  orderIds := by simp [number]
  next := by rw [Ids.api, hapi]; rfl
  downloads id h := (hdownloads id h).imp_right fun hid => by
    rw [hclient]
    exact List.mem_append_right _ hid

theorem run_moved {m : RunMove} {r : Runner} {client : List ClientMsg}
    (h : Ran s.runner r client) :
    Moved s (.run m)
      { s with runner := r, requests := s.requests ++ client.filterMap ClientMsg.reqId? } := by
  have hsame : s.runner.api = { s.api with mReqId := s.api.mReqId + (0 : Nat) } := by
    simp [Ids.api]
  cases h with
  | begin hpc horder =>
    refine .ran 0 rfl hsame ?_
    rintro id (hid | ⟨symbol, hsent⟩)
    · exact .inl (.inl hid)
    · cases hsent
  | send hpc hq =>
    refine .ran 1 (by simp [block, ClientMsg.reqId?, Ids.api]) rfl ?_
    rintro id (hid | ⟨symbol, hsent⟩)
    · exact .inl (.inl hid)
    · cases hsent
      exact .inr (mem_block.mpr ⟨Int.le_refl _, Int.lt_succ _⟩)
  | @register reqId symbol hpc =>
    refine .ran 0 rfl hsame ?_
    rintro id (hid | ⟨symbol', hsent⟩)
    · obtain rfl | hid := (AList.mem_insert _).mp hid
      · exact .inl (.inr ⟨symbol, hpc⟩)
      · exact .inl (.inl hid)
    · cases hsent
  | finish hpc hrem =>
    refine .ran 0 rfl hsame ?_
    rintro id (hid | ⟨symbol, hsent⟩)
    · exact .inl (.inl hid)
    · cases hsent

theorem handle_reqIdSym {g g' : HistBarGetter} {e : Event} {outcome : Outcome}
    (h : DownloadSession.Session.handle g outcome e = some g') : g'.reqIdSym = g.reqIdSym := by
  cases e with
  | histBar bar =>
    cases h
    obtain ⟨symData, hbar⟩ := processHistBar_frame g bar
    rw [hbar]
  | histBarEnd barEnd =>
    simp only [DownloadSession.Session.handle] at h
    split at h
    · cases processHistBarEnd_ended (toOption_eq_some.mp h) with
      | unknown => rfl
      | next => rfl
      | last => exact (complete_sameRequests _ _ _).reqIdSym
    · cases h
  | ibErrMsg msg =>
    cases h
    exact (processErrMsg_sameRequests g msg).reqIdSym
  | _ =>
    cases h
    rfl

theorem step_moved {a : Move} (ht : (ids g).step s a = some t) : Moved s a t := by
  cases a with
  | start connects =>
    cases ht
    have hstart : s.api.start connects = { s.api with running := (s.api.start connects).running } := by
      rw [IBApi.start]
      split <;> rfl
    rw [hstart]
    exact .quiet 0 rfl (by simp) (fun _ => rfl) rfl
  | stop =>
    cases ht
    exact .quiet 0 rfl (by simp [IBApi.stop]) (fun _ => rfl) rfl
  | subscribe symbol delayed =>
    obtain ⟨out, hout, rfl⟩ := toOption_map_eq_some.mp ht
    obtain ⟨rfl, _⟩ | ⟨_, _, contract, _, hapi, _, hclient⟩ := subscribe_cases hout
    · exact .quiet 0 rfl (by simp) (fun _ => rfl) rfl
    · refine .quiet 2 ?_ (by rw [hapi]; dsimp only; omega) (fun _ => by rw [hapi])
        (by rw [hapi]; rfl)
      rw [hclient]
      simp [block, List.range_succ]
      rfl
  | contractDetails symbol =>
    obtain ⟨out, hout, rfl⟩ := toOption_map_eq_some.mp ht
    obtain ⟨contract, rfl⟩ := reqContractDetails_eq_ok hout
    exact .quiet 1 (by simp [block, ClientMsg.reqId?]) rfl (fun _ => rfl) rfl
  | sendOrder req =>
    obtain ⟨⟨orderId, out⟩, hout, rfl⟩ := toOption_map_eq_some.mp ht
    exact sendOrder_moved hout
  | callback c =>
    obtain ⟨out, hout, rfl⟩ := toOption_map_eq_some.mp ht
    obtain ⟨hclient, hreq, hnumber⟩ := callback_counters hout
    exact .quiet 0 (by rw [hclient]; rfl) (by simp [hreq]) (callback_orders hout) hnumber
  | run m =>
    obtain ⟨⟨r, client⟩, hr, rfl⟩ := Option.map_eq_some_iff.mp ht
    exact run_moved (step_ran hr)
  | dispatch e outcome =>
    obtain ⟨g', hg', rfl⟩ := Option.map_eq_some_iff.mp ht
    refine ⟨⟨0, by simp [block], by simp [Ids.api]⟩, by simp [Ids.api, number], by simp [number],
      rfl, ?_⟩
    rintro id (hid | hsent)
    · rw [handle_reqIdSym hg'] at hid
      exact .inl (.inl hid)
    · exact .inl (.inr hsent)

theorem Counted.step {a : Move} (h : Counted s) (ht : Moved s a t) : Counted t := by
  obtain ⟨n, hreq, hnext⟩ := ht.requests
  have hlength : t.requests.length = s.requests.length + n := by
    rw [hreq, List.length_append, length_block]
  refine ⟨?_, ?_, fun id => ?_, fun id hid => ?_⟩
  · rw [hlength, ← block_append, ← h.mReqId, ← h.requests, hreq]
  · rw [hnext, h.mReqId, hlength]
    push_cast
    omega
  · rw [ht.orders, h.orders, ht.orderIds, List.mem_append]
  · refine (ht.downloads id hid).elim (fun hs => ?_) (fun hmem => hmem)
    rw [hreq]
    exact List.mem_append_left _ (h.downloads id hs)

theorem Counted.init {cal : Calendar} {days : Int} {reqs : List HistBarReq}
    (hg : HistBarGetter.init cal days reqs = .ok g) : Counted (ids g).init where
  requests := rfl
  mReqId := rfl
  orders id := by simp [ids, Ids.api]
  downloads id h := by
    obtain hid | ⟨symbol, hsent⟩ := h
    · simp [ids, (init_fresh hg).1.registered] at hid
    · cases hsent

theorem counted {cal : Calendar} {days : Int} {reqs : List HistBarReq}
    (hg : HistBarGetter.init cal days reqs = .ok g) (hs : (ids g).Reachable s) : Counted s :=
  hs.invariant (Counted.init hg) fun _ _ _ _ h _ ht => h.step (step_moved ht)

theorem orderIds_numbered {as : List Move} (h : (ids g).run s as = some t) :
    t.orderIds = s.orderIds ++ numbered s.api.mOrderId as := by
  induction as generalizing s with
  | nil =>
    cases h
    simp [numbered]
  | cons a as ih =>
    obtain ⟨u, hu, h⟩ := Option.bind_eq_some_iff.mp h
    have hmoved := step_moved hu
    rw [ih h, hmoved.orderIds, hmoved.next, List.append_assoc]
    rfl

theorem separate_iff (h : Counted s) : Separate s ↔ ∀ id ∈ s.orderIds, id ∉ s.requests := by
  refine ⟨Separate.disjoint, fun hdisjoint => ⟨hdisjoint, fun msg hmsg => ?_, fun msg hmsg => ?_⟩⟩
  · have hnone : s.api.orders.find? msg.id = none := by
      rw [← Option.not_isSome_iff_eq_none, h.orders]
      exact fun hid => hdisjoint _ hid hmsg
    rw [IBApi.error, IBApi.updateOrder, hnone]
    exact ⟨rfl, rfl⟩
  · have hnone : s.runner.getter.reqIdSym.lookup msg.id = none := by
      rw [AList.lookup_eq_none]
      exact fun hid => hdisjoint _ hmsg (h.downloads _ (.inl hid))
    rw [HistBarGetter.processErrMsg, hnone]

theorem ids_separate_iff {cal : Calendar} {days : Int} {reqs : List HistBarReq}
    (hg : HistBarGetter.init cal days reqs = .ok g) {as : List Move}
    (hs : (ids g).run (ids g).init as = some s) :
    Separate s ↔
      ∀ id ∈ numbered (-1) as, id < 10000000 ∨ 10000000 + s.requests.length ≤ id := by
  have h := counted hg (Machine.reachable_of_run hs)
  have horders : s.orderIds = numbered (-1) as := orderIds_numbered hs
  rw [separate_iff h, horders]
  refine forall₂_congr fun id _ => ?_
  rw [h.mem_requests, not_and_or, Int.not_le, Int.not_lt]

def lowIds : List Move :=
  [.start true, .callback (.nextValidId 5), .subscribe "6758-STK-JPY.TSEJ" false,
    .sendOrder OrderHistory.buyReq]

theorem lowIds_run : ((ids sonyGetter).run (ids sonyGetter).init lowIds).isSome = true := by
  decide +kernel

def lowIdsAfter : Ids := (ids sonyGetter).stateAfter lowIds lowIds_run

theorem ids_separate_low : Separate lowIdsAfter :=
  (ids_separate_iff sonyGetter_init (Option.some_get lowIds_run).symm).mpr (by decide +kernel)

def sameIds : List Move :=
  [.start true, .callback (.nextValidId 10000000), .subscribe "6758-STK-JPY.TSEJ" false,
    .sendOrder OrderHistory.buyReq]

theorem order_id_of_request : ¬ ∀ s, (ids sonyGetter).Reachable s → Separate s := by
  intro hall
  have hrun : (((ids sonyGetter).run (ids sonyGetter).init sameIds).map fun s =>
      (s.orderIds, s.requests)) = some ([10000000], [10000000, 10000001]) := by
    decide +kernel
  obtain ⟨s, hs, hend⟩ := Machine.exists_reachable_of_run hrun
  obtain ⟨horders, hreqs⟩ := Prod.mk.inj hend
  have hdisjoint := (hall s hs).disjoint 10000000
  rw [horders, hreqs] at hdisjoint
  exact absurd (hdisjoint (by decide)) (by decide)

end CalmTrading.IdSpaces
