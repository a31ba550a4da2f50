import CalmTrading.OrderFlow

namespace CalmTrading.FlowSlots

open Lib Objects Utils Gateway OrderRecords Risk OrderFlow

/-- A request that the limits turned down, with the orders live at the time. -/
structure Refusal where
  req : OrderReq
  live : Finset OrderId

/-- The trading engine with the calls of `send_order` between its check and the
gateway. History are `live`, the forwarded orders for which no inactive status has
been processed, `opened`, that a new order has passed the check, `modified`, the
live orders for which a modification has, and `refused`, what `order_flow_lmt`
turned down. -/
structure Slots where
  engine : TradingEngine
  admitted : List OrderReq := []
  queue : List Event := []
  live : Finset OrderId := ∅
  opened : Bool := false
  modified : Finset OrderId := ∅
  refused : List Refusal := []

def isNew (req : OrderReq) : Bool := isUnsetLlong req.orderId

/-- A request is new or modifies a live order. -/
def step (s : Slots) : Move → Option Slots
  | .reprice algoPnl totalPnl => some { s with engine := s.engine.reprice algoPnl totalPnl }
  | .check req =>
    if isNew req || decide (req.orderId ∈ s.live) then
      let (passed, engine) := s.engine.screen req
      if passed then
        some
          { s with
            engine := engine
            admitted := s.admitted ++ [req]
            opened := s.opened || isNew req
            modified := if isNew req then s.modified else insert req.orderId s.modified }
      else if (s.engine.risk.checkPnl s.engine.portfolio req).1 then
        some { s with engine := engine, refused := s.refused ++ [⟨req, s.live⟩] }
      else some { s with engine := engine }
    else none
  | .forward i =>
    match s.admitted[i]? with
    | none => none
    | some req =>
      (s.engine.forward req).toOption.map fun (orderId, engine, events, _) =>
        { s with
          engine := engine
          admitted := s.admitted.eraseIdx i
          queue := s.queue ++ events
          live := if isNew req then insert orderId s.live else s.live }
  | .callback c =>
    (s.engine.api.callback c).toOption.map fun out =>
      { s with engine := { s.engine with api := out.api }, queue := s.queue ++ out.events }
  | .post e => if e.orderData? = none then some { s with queue := s.queue ++ [e] } else none
  | .dispatch =>
    match s.queue with
    | [] => none
    | e :: rest =>
      some
        { s with
          engine := { s.engine with risk := s.engine.risk.eventEngineOrderCb e }
          queue := rest
          live := s.live.filter fun id => ends e id = false
          modified := s.modified.filter fun id => ends e id = false }

def slots (limits : Limits) : Machine Slots Move where
  init := { engine := { risk := { limits with } } }
  step := step

def Refusal.wouldBe (r : Refusal) : Nat :=
  if isNew r.req then r.live.card + 1 else (insert r.req.orderId r.live).card

/-- What was turned down would have exceeded the limit, no modification was, and
without a live order or one on its way no slot is taken. -/
structure Fair (limits : Limits) (s : Slots) : Prop where
  exceeds : ∀ r ∈ s.refused, limits.orderFlowLmt.toNat < r.wouldBe
  modification : ∀ r ∈ s.refused, isNew r.req = true
  released : s.live = ∅ → s.admitted = [] → s.engine.risk.activeOrders = ∅

/-- An order stays live or on its way once a first one has been let through. A
new order does not come when each of the live orders has been modified and there
is room for one more, and a modification does not come when the modified orders
leave room for one at most. -/
def Clear (limits : Limits) (s : Slots) : Move → Prop
  | .check req => (s.engine.risk.checkPnl s.engine.portfolio req).1 = true →
      if isNew req then
        ¬ (s.opened = true ∧ s.modified = s.live ∧
          s.live.card + 1 = limits.orderFlowLmt.toNat)
      else s.modified.card + 1 < limits.orderFlowLmt.toNat
  | .forward _ => ∀ req, s.admitted = [req] → isNew req = false → s.live ≠ ∅
  | .dispatch => s.opened = true → s.admitted = [] → ∀ e, s.queue.head? = some e →
      ∃ id ∈ s.live, ends e id = false
  | _ => True

inductive Moved (s : Slots) : Move → Slots → Prop
  | reprice (algoPnl : Table String Double) (totalPnl : Double) :
      Moved s (.reprice algoPnl totalPnl) { s with engine := s.engine.reprice algoPnl totalPnl }
  | lossy {req : OrderReq} {engine : TradingEngine} (hapi : engine.api = s.engine.api)
      (hrisk : engine.risk = s.engine.risk)
      (hpnl : (s.engine.risk.checkPnl s.engine.portfolio req).1 = false) :
      Moved s (.check req) { s with engine := engine }
  | refused {req : OrderReq} {engine : TradingEngine}
      (hlegal : isNew req = true ∨ req.orderId ∈ s.live) (hapi : engine.api = s.engine.api)
      (hrisk : engine.risk = s.engine.risk)
      (hpnl : (s.engine.risk.checkPnl s.engine.portfolio req).1 = true)
      (hfull : s.engine.risk.orderFlowLmt.toNat ≤ s.engine.risk.activeOrders.card) :
      Moved s (.check req) { s with engine := engine, refused := s.refused ++ [⟨req, s.live⟩] }
  | passed {req : OrderReq} {engine : TradingEngine}
      (hlegal : isNew req = true ∨ req.orderId ∈ s.live) (hapi : engine.api = s.engine.api)
      (hroom : s.engine.risk.activeOrders.card < s.engine.risk.orderFlowLmt.toNat)
      (hrisk : engine.risk =
        { s.engine.risk with activeOrders := insert req.orderId s.engine.risk.activeOrders }) :
      Moved s (.check req)
        { s with
          engine := engine
          admitted := s.admitted ++ [req]
          opened := s.opened || isNew req
          modified := if isNew req then s.modified else insert req.orderId s.modified }
  | forward {i : Nat} {req : OrderReq} {orderId : OrderId} {out : Out}
      (hi : s.admitted[i]? = some req) (hout : s.engine.api.sendOrder req = .ok (orderId, out)) :
      Moved s (.forward i)
        { s with
          engine := { s.engine with api := out.api }
          admitted := s.admitted.eraseIdx i
          queue := s.queue ++ out.events
          live := if isNew req then insert orderId s.live else s.live }
  | callback {c : Callback} {out : Out} (hout : s.engine.api.callback c = .ok out) :
      Moved s (.callback c)
        { s with engine := { s.engine with api := out.api }, queue := s.queue ++ out.events }
  | post {e : Event} (he : e.orderData? = none) :
      Moved s (.post e) { s with queue := s.queue ++ [e] }
  | dispatch {e : Event} {rest : List Event} (hq : s.queue = e :: rest) :
      Moved s .dispatch
        { s with
          engine := { s.engine with risk := s.engine.risk.eventEngineOrderCb e }
          queue := rest
          live := s.live.filter fun id => ends e id = false
          modified := s.modified.filter fun id => ends e id = false }

theorem step_moved {limits : Limits} {s t : Slots} {a : Move}
    (ht : (slots limits).step s a = some t) : Moved s a t := by
  cases a with
  | reprice algoPnl totalPnl =>
    cases ht
    exact .reprice algoPnl totalPnl
  | check req =>
    simp only [slots, FlowSlots.step] at ht
    split at ht
    · next hlegal =>
      have hlegal : isNew req = true ∨ req.orderId ∈ s.live := by simpa using hlegal
      obtain ⟨hp, hapi, hrisk⟩ | ⟨hp, hapi, hroom, hrisk⟩ := screen_cases s.engine req
      · rw [hp] at ht
        simp only [Bool.false_eq_true, if_false] at ht
        split at ht
        · next hpnl =>
          cases ht
          refine .refused hlegal hapi hrisk hpnl ?_
          by_contra hroom
          have hpass := screen_eq_true hpnl (Nat.lt_of_not_le hroom)
          rw [hp] at hpass
          cases hpass
        · next hpnl =>
          cases ht
          exact .lossy hapi hrisk (by simpa using hpnl)
      · rw [hp] at ht
        cases ht
        exact .passed hlegal hapi hroom hrisk
    · cases ht
  | forward i =>
    simp only [slots, FlowSlots.step] at ht
    split at ht
    · cases ht
    · next req hi =>
      obtain ⟨⟨id, engine, events, client⟩, hf, rfl⟩ := toOption_map_eq_some.mp ht
      obtain ⟨out, hout, rfl, rfl, rfl⟩ := forward_eq_ok.mp hf
      exact .forward hi hout
  | callback c =>
    obtain ⟨out, hout, rfl⟩ := toOption_map_eq_some.mp ht
    exact .callback hout
  | post e =>
    simp only [slots, FlowSlots.step] at ht
    split at ht
    · next he =>
      cases ht
      exact .post he
    · cases ht
  | dispatch =>
    simp only [slots, FlowSlots.step] at ht
    split at ht
    · cases ht
    · next hq =>
      cases ht
      exact .dispatch hq

/-- The ids that take a slot: the unset one as of the first new order, and those
of the modified orders. -/
def occupied (s : Slots) : Finset OrderId :=
  if s.opened then insert unsetLong s.modified else s.modified

/-- The slots are known, and no order has the unset id. -/
structure Counted (limits : Limits) (s : Slots) : Prop where
  configured : s.engine.risk.orderFlowLmt = limits.orderFlowLmt
  active : s.engine.risk.activeOrders = occupied s
  modified : s.modified ⊆ s.live
  assigned : unsetLong ∉ s.live
  opened : s.opened = false → s.live = ∅ ∧ s.admitted = []
  orders : s.engine.api.orders.find? unsetLong = none
  queue : ∀ d ∈ orderEvents s.queue, d.orderId ≠ unsetLong

theorem isNew_iff {req : OrderReq} : isNew req = true ↔ req.orderId = unsetLong := by
  simp [isNew, isUnsetLlong]

theorem occupied_check (s : Slots) {req : OrderReq} {engine : TradingEngine}
    {admitted : List OrderReq} (hopened : isNew req = false → s.opened = true) :
    occupied
      { s with
        engine := engine
        admitted := admitted
        opened := s.opened || isNew req
        modified := if isNew req then s.modified else insert req.orderId s.modified } =
      insert req.orderId (occupied s) := by
  cases hnew : isNew req with
  | true =>
    have hunset : req.orderId = unsetLong := isNew_iff.mp hnew
    by_cases hs : s.opened = true
    · simp [occupied, hunset, hs]
    · simp [occupied, hunset, hs]
  | false => simp [occupied, hopened hnew, Finset.insert_comm]

theorem Counted.step {limits : Limits} {s t : Slots} {a : Move} (h : Counted limits s)
    (ht : (slots limits).step s a = some t) : Counted limits t := by
  cases step_moved ht with
  | reprice _ _ =>
    exact ⟨h.configured, h.active, h.modified, h.assigned, h.opened, h.orders, h.queue⟩
  | lossy hapi hrisk _ =>
    exact ⟨hrisk ▸ h.configured, hrisk ▸ h.active, h.modified, h.assigned, h.opened,
      hapi ▸ h.orders, h.queue⟩
  | refused _ hapi hrisk _ _ =>
    exact ⟨hrisk ▸ h.configured, hrisk ▸ h.active, h.modified, h.assigned, h.opened,
      hapi ▸ h.orders, h.queue⟩
  | @passed req _ hlegal hapi _ hrisk =>
    have hopened : isNew req = false → s.opened = true := by
      intro hnew
      by_contra hclosed
      obtain ⟨hlive, _⟩ := h.opened (by simpa using hclosed)
      simp [hnew, hlive] at hlegal
    refine ⟨?_, ?_, ?_, h.assigned, ?_, hapi ▸ h.orders, h.queue⟩
    · rw [hrisk]
      exact h.configured
    · rw [hrisk, occupied_check s hopened]
      exact congrArg (insert req.orderId) h.active
    · cases hnew : isNew req with
      | true => simpa using h.modified
      | false =>
        have hmem : req.orderId ∈ s.live := by simpa [hnew] using hlegal
        simpa using Finset.insert_subset hmem h.modified
    · intro hclosed
      simp only [Bool.or_eq_false_iff] at hclosed
      rw [hopened hclosed.2] at hclosed
      cases hclosed.1
  | @forward i req _ _ hi hout =>
    obtain ⟨hne, horders, hevents⟩ := sendOrder_assigned hout h.orders
    refine ⟨h.configured, h.active, ?_, ?_, ?_, horders, assigned_append h.queue hevents⟩
    · split
      · exact h.modified.trans (Finset.subset_insert _ _)
      · exact h.modified
    · split
      · simpa [Ne.symm hne] using h.assigned
      · exact h.assigned
    · intro hclosed
      obtain ⟨_, hadm⟩ := h.opened hclosed
      simp [hadm] at hi
  | callback hout =>
    obtain ⟨horders, hevents⟩ := callback_assigned hout h.orders
    exact ⟨h.configured, h.active, h.modified, h.assigned, h.opened, horders,
      assigned_append h.queue hevents⟩
  | post he =>
    exact ⟨h.configured, h.active, h.modified, h.assigned, h.opened, h.orders,
      by simpa [he] using h.queue⟩
  | @dispatch e rest hq =>
    have hunset : ends e unsetLong = false := ends_unset (hq ▸ h.queue)
    refine ⟨?_, ?_, ?_, ?_, ?_, h.orders, fun d hd => h.queue d ?_⟩
    · exact (congrArg Limits.orderFlowLmt (eventEngineOrderCb_limits _ e)).trans h.configured
    · rw [activeOrders_eventEngineOrderCb, h.active]
      cases hopened : s.opened <;> simp [occupied, hopened, Finset.filter_insert, hunset]
    · exact Finset.filter_subset_filter _ h.modified
    · exact fun hmem => h.assigned (Finset.mem_of_mem_filter _ hmem)
    · intro hclosed
      obtain ⟨hlive, hadm⟩ := h.opened hclosed
      exact ⟨by simp [hlive], hadm⟩
    · rw [hq, orderEvents_cons]
      exact List.mem_append_right _ hd

theorem Counted.card {limits : Limits} {s : Slots} (h : Counted limits s)
    (hopened : s.opened = true) : s.engine.risk.activeOrders.card = s.modified.card + 1 := by
  have hfresh : unsetLong ∉ s.modified := fun hmem => h.assigned (h.modified hmem)
  simp [h.active, occupied, hopened, hfresh]

theorem Counted.closed {limits : Limits} {s : Slots} (h : Counted limits s)
    (hclosed : s.opened = false) : s.engine.risk.activeOrders = ∅ := by
  obtain ⟨hlive, _⟩ := h.opened hclosed
  have hmodified : s.modified = ∅ := Finset.subset_empty.mp (hlive ▸ h.modified)
  simp [h.active, occupied, hclosed, hmodified]

theorem Counted.active_eq_empty_iff {limits : Limits} {s : Slots} (h : Counted limits s) :
    s.engine.risk.activeOrders = ∅ ↔ s.opened = false := by
  constructor
  · intro hactive
    by_contra hopened
    have hcard := h.card (by simpa using hopened)
    simp [hactive] at hcard
  · exact h.closed

theorem Fair.kept {limits : Limits} {s t : Slots} (h : Fair limits s)
    (hrefused : t.refused = s.refused)
    (hactive : t.engine.risk.activeOrders = s.engine.risk.activeOrders)
    (hidle : t.live = ∅ → t.admitted = [] → s.live = ∅ ∧ s.admitted = []) : Fair limits t := by
  refine ⟨hrefused ▸ h.exceeds, hrefused ▸ h.modification, fun hlive hadm => ?_⟩
  obtain ⟨hlive, hadm⟩ := hidle hlive hadm
  rw [hactive]
  exact h.released hlive hadm

/-- A new order is turned down without need exactly when every live order has been
modified and one more would fit. -/
theorem Counted.new_spurious_iff {limits : Limits} {s : Slots} (h : Counted limits s)
    (hfull : limits.orderFlowLmt.toNat ≤ s.engine.risk.activeOrders.card) :
    limits.orderFlowLmt.toNat < s.live.card + 1 ↔
      ¬ (s.opened = true ∧ s.modified = s.live ∧
        s.live.card + 1 = limits.orderFlowLmt.toNat) := by
  have hle : s.modified.card ≤ s.live.card := Finset.card_le_card h.modified
  constructor
  · rintro hlt ⟨_, _, hone⟩
    omega
  · intro hno
    by_contra hlt
    cases hopened : s.opened with
    | false =>
      rw [h.closed hopened, Finset.card_empty] at hfull
      omega
    | true =>
      have hcard := h.card hopened
      refine hno ⟨hopened, Finset.eq_of_subset_of_card_le h.modified ?_, ?_⟩
      · omega
      · omega

theorem Counted.refused_iff {limits : Limits} {s t : Slots} (h : Counted limits s)
    (hs : Fair limits s) {req : OrderReq} (hlegal : isNew req = true ∨ req.orderId ∈ s.live)
    (hpnl : (s.engine.risk.checkPnl s.engine.portfolio req).1 = true)
    (hfull : limits.orderFlowLmt.toNat ≤ s.engine.risk.activeOrders.card)
    (hrefused : t.refused = s.refused ++ [⟨req, s.live⟩])
    (hactive : t.engine.risk.activeOrders = s.engine.risk.activeOrders)
    (hlive : t.live = s.live) (hadm : t.admitted = s.admitted) :
    Fair limits t ↔ Clear limits s (.check req) := by
  simp only [Clear, hpnl, forall_const]
  cases hnew : isNew req with
  | true =>
    rw [if_pos rfl, ← h.new_spurious_iff hfull]
    constructor
    · intro ht
      simpa [Refusal.wouldBe, hnew] using ht.exceeds ⟨req, s.live⟩ (by simp [hrefused])
    · intro hlt
      refine ⟨fun r hr => ?_, fun r hr => ?_, fun hl ha => ?_⟩
      · rw [hrefused, List.mem_append, List.mem_singleton] at hr
        obtain hr | rfl := hr
        · exact hs.exceeds r hr
        · simpa [Refusal.wouldBe, hnew] using hlt
      · rw [hrefused, List.mem_append, List.mem_singleton] at hr
        obtain hr | rfl := hr
        · exact hs.modification r hr
        · exact hnew
      · rw [hactive]
        exact hs.released (hlive ▸ hl) (hadm ▸ ha)
  | false =>
    rw [if_neg Bool.false_ne_true]
    have hmem : req.orderId ∈ s.live := by simpa [hnew] using hlegal
    have hopened : s.opened = true := by
      by_contra hclosed
      obtain ⟨hempty, _⟩ := h.opened (by simpa using hclosed)
      simp [hempty] at hmem
    have hcard := h.card hopened
    constructor
    · intro ht
      have hnew' := ht.modification ⟨req, s.live⟩ (by simp [hrefused])
      simp [hnew] at hnew'
    · intro hroom
      omega

theorem Counted.passed_clear {limits : Limits} {s : Slots} (h : Counted limits s) {req : OrderReq}
    (hlegal : isNew req = true ∨ req.orderId ∈ s.live)
    (hroom : s.engine.risk.activeOrders.card < limits.orderFlowLmt.toNat) :
    Clear limits s (.check req) := by
  intro _
  split
  · rintro ⟨hopened, hall, hone⟩
    have hcard := h.card hopened
    rw [hall] at hcard
    omega
  · next hnew =>
    have hle : s.modified.card + 1 ≤ s.engine.risk.activeOrders.card := by
      rw [h.card]
      by_contra hclosed
      obtain ⟨hempty, _⟩ := h.opened (by simpa using hclosed)
      simp [hnew, hempty] at hlegal
    omega

theorem Counted.forward_iff {limits : Limits} {s t : Slots} (h : Counted limits s)
    (hs : Fair limits s) {i : Nat} {req : OrderReq} {id : OrderId}
    (hi : s.admitted[i]? = some req) (hrefused : t.refused = s.refused)
    (hactive : t.engine.risk.activeOrders = s.engine.risk.activeOrders)
    (hadm : t.admitted = s.admitted.eraseIdx i)
    (hlive : t.live = if isNew req then insert id s.live else s.live) :
    Fair limits t ↔ Clear limits s (.forward i) := by
  have hlt : i < s.admitted.length := (List.getElem?_eq_some_iff.mp hi).1
  have hopened : s.opened = true := by
    by_contra hclosed
    obtain ⟨_, hnil⟩ := h.opened (by simpa using hclosed)
    simp [hnil] at hlt
  constructor
  · rintro hfair r hone hnew hidle
    obtain rfl : i = 0 := by simpa [hone] using hlt
    obtain rfl : r = req := by simpa [hone] using hi
    have hnone := hfair.released (by simp [hlive, hnew, hidle]) (by simp [hadm, hone])
    rw [hactive, h.active_eq_empty_iff, hopened] at hnone
    cases hnone
  · intro hclear
    refine ⟨hrefused ▸ hs.exceeds, hrefused ▸ hs.modification, fun hidle hnil => ?_⟩
    rw [hlive] at hidle
    rw [hadm] at hnil
    cases hnew : isNew req with
    | true => simp [hnew] at hidle
    | false =>
      have hidle : s.live = ∅ := by simpa [hnew] using hidle
      have hone : s.admitted = [req] := by
        have hlen : s.admitted.length = 1 := by
          have hzero := congrArg List.length hnil
          rw [List.length_eraseIdx_of_lt hlt, List.length_nil] at hzero
          omega
        obtain ⟨r, hr⟩ := List.length_eq_one_iff.mp hlen
        obtain rfl : i = 0 := by omega
        simpa [hr] using hi
      exact absurd hidle (hclear req hone hnew)

theorem Counted.dispatch_iff {limits : Limits} {s t : Slots} (ht : Counted limits t)
    (hs : Fair limits s) {e : Event} {rest : List Event} (hq : s.queue = e :: rest)
    (hrefused : t.refused = s.refused) (hopened : t.opened = s.opened)
    (hadm : t.admitted = s.admitted)
    (hlive : t.live = s.live.filter fun id => ends e id = false) :
    Fair limits t ↔ Clear limits s .dispatch := by
  constructor
  · intro hfair hopen hnil e' he'
    obtain rfl : e = e' := by simpa [hq] using he'
    by_contra hnone
    push Not at hnone
    have hidle : t.live = ∅ := by
      rw [hlive, Finset.filter_eq_empty_iff]
      intro id hid
      simpa using hnone id hid
    have hclosed := ht.active_eq_empty_iff.mp (hfair.released hidle (hadm.trans hnil))
    rw [hopened, hopen] at hclosed
    cases hclosed
  · intro hclear
    refine ⟨hrefused ▸ hs.exceeds, hrefused ▸ hs.modification, fun hidle hnil => ?_⟩
    apply ht.active_eq_empty_iff.mpr
    rw [hopened]
    by_contra hopen
    obtain ⟨id, hid, hend⟩ := hclear (by simpa using hopen) (hadm.symm.trans hnil) e (by simp [hq])
    have hstays : id ∈ t.live := hlive ▸ Finset.mem_filter.mpr ⟨hid, hend⟩
    rw [hidle] at hstays
    exact Finset.notMem_empty id hstays

theorem fair_iff {limits : Limits} {s t : Slots} {a : Move} (h : Counted limits s)
    (hs : Fair limits s) (ht : (slots limits).step s a = some t) :
    Fair limits t ↔ Clear limits s a := by
  have hcounted := h.step ht
  cases step_moved ht with
  | reprice _ _ => exact iff_of_true (hs.kept rfl rfl fun hl ha => ⟨hl, ha⟩) trivial
  | lossy _ hrisk hpnl =>
    refine iff_of_true (hs.kept rfl ?_ fun hl ha => ⟨hl, ha⟩) ?_
    · rw [hrisk]
    · simp [Clear, hpnl]
  | refused hlegal _ hrisk hpnl hfull =>
    rw [h.configured] at hfull
    refine h.refused_iff hs hlegal hpnl hfull rfl ?_ rfl rfl
    rw [hrisk]
  | passed hlegal _ hroom _ =>
    rw [h.configured] at hroom
    refine iff_of_true ⟨hs.exceeds, hs.modification, fun _ hadm => ?_⟩ (h.passed_clear hlegal hroom)
    simp at hadm
  | forward hi _ => exact h.forward_iff hs hi rfl rfl rfl rfl
  | callback _ => exact iff_of_true (hs.kept rfl rfl fun hl ha => ⟨hl, ha⟩) trivial
  | post _ => exact iff_of_true (hs.kept rfl rfl fun hl ha => ⟨hl, ha⟩) trivial
  | dispatch hq => exact hcounted.dispatch_iff hs hq rfl rfl rfl rfl

/-- The order flow limit turns down nothing without need, and gives back every
slot, exactly in the runs whose moves are all clear of the slot that no order has. -/
theorem fair_iff_clear (limits : Limits) (moves : List Move) :
    (slots limits).StatesAll (Fair limits) (slots limits).init moves ↔
      (slots limits).StepsAll (Clear limits) (slots limits).init moves := by
  apply Machine.statesAll_iff_stepsAll (I := Counted limits)
  · exact fun s a t h ht => h.step ht
  · exact fun s a t h hs ht => fair_iff h hs ht
  · exact ⟨rfl, rfl, by simp [slots], by simp [slots], fun _ => ⟨rfl, rfl⟩, rfl, by simp [slots]⟩
  · exact ⟨by simp [slots], by simp [slots], fun _ _ => rfl⟩

def limitOne : Limits := { orderFlowLmt := 1 }

/-- The only order is filled, the fill is processed, and a next order comes. -/
def filled : List Move :=
  [.callback (.nextValidId 1), .check newReq, .forward 0, .dispatch,
    .callback (.orderStatus 1 "Filled" 100 2500), .dispatch, .check newReq]

theorem not_fair_filled :
    ¬ ∀ (limits : Limits) (s : Slots), 1 ≤ limits.orderFlowLmt → (slots limits).Reachable s →
      Fair limits s := by
  intro hall
  have hrun : ((slots limitOne).run (slots limitOne).init filled).map
      (fun s => s.refused.map Refusal.wouldBe) = some [1] := by
    decide +kernel
  obtain ⟨s, hs, hrefused⟩ := Machine.exists_reachable_of_run hrun
  have hfair := hall limitOne s (by decide) hs
  obtain ⟨r, hr, hone⟩ : ∃ r ∈ s.refused, r.wouldBe = 1 := by
    rw [← List.mem_map, hrefused]
    exact List.mem_singleton_self _
  have hlt := hfair.exceeds r hr
  rw [hone] at hlt
  exact absurd hlt (by decide)

end CalmTrading.FlowSlots
