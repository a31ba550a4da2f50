import Mathlib.Algebra.Order.Ring.Rat
import Mathlib.Tactic.Linarith
import CalmTrading.PositionAccounting

namespace CalmTrading.TargetTracking

open Lib Objects Utils Gateway OrderRecords Risk Algo AlgoSystem

variable {cfg : Config}

def side (quantity : Double) : Action := if quantity < 0 then .sell else .buy

def unfilled (a : AlgoEngine) : Double := a.orderTarget - (side a.orderTarget).sign * a.orderFilled

def gap (s : System) (pos : PosUpdate) : Double := pos.pos - s.engine.currPos

/-- The order for a position request is not refused, and gets an id that the
gateway has no record of. -/
def taken (s : System) (pos : PosUpdate) : Bool :=
  match s.trading.sendOrder (s.engine.newOrderReq s.engine.orderSymbol (gap s pos)) with
  | .ok (id, _) => 0 < id && (s.trading.api.orders.find? id).isNone
  | .error _ => true

/-- Fills move only for the order in flight, and no order that is due is refused. -/
def steady (s : System) : Move → Bool
  | .act _ =>
    match s.held with
    | some (.orderData d) =>
      d.orderId ∉ s.engine.orderStatus || d.orderId = s.engine.inflightOrderId ||
        d.tradedQuantity = s.engine.orderFilled
    | some (.algoPosUpdate pos) =>
      0 < s.engine.inflightOrderId || (gap s pos < 1 && -1 < gap s pos) || taken s pos
    | _ => true
  | _ => true

def Steady (s : System) (a : Move) : Prop := steady s a = true

instance (s : System) (a : Move) : Decidable (Steady s a) :=
  inferInstanceAs (Decidable (steady s a = true))

/-- The position follows the last request applied: it is less than a lot away
from it, or as far as the last order has left to fill. -/
structure Tracking (s : System) : Prop where
  traced : Traced s
  requested : s.engine.targetPos = s.history.applied.getLast?.elim 0 PosUpdate.pos
  positive : ∀ id ∈ s.engine.orderStatus, 0 < id
  inflight : 0 < s.engine.inflightOrderId →
    (∃ r, s.trading.api.orders.find? s.engine.inflightOrderId = some r ∧
      r.action = side s.engine.orderTarget) ∧
    s.engine.targetPos - s.engine.currPos = unfilled s.engine
  close : |s.engine.targetPos - s.engine.currPos| < 1 ∨
    s.engine.targetPos - s.engine.currPos = unfilled s.engine

theorem step_kept {s t : System} {a : Move} (ht : (algo cfg).step s a = some t) {id : OrderId}
    {r : OrderData} (hr : s.trading.api.orders.find? id = some r) :
    ∃ d, t.trading.api.orders.find? id = some d ∧ SameOrder r d := by
  cases step_moved ht with
  | callback hout => exact (callback_reports hout).records.kept hr
  | otherSend hsend => exact (sendOrder_records hsend).kept hr
  | act _ hact => exact (handle_handled hact).2.kept hr
  | _ => exact ⟨r, hr, rfl⟩

/-- An order with an id that was free is on record as it was asked for. -/
theorem sendOrder_recorded {t u : TradingEngine} {req : OrderReq} {id : OrderId}
    {events : List Event} {client : List ClientMsg}
    (h : t.sendOrder req = .ok (id, u, events, client)) (hid : 0 < id)
    (hnone : t.api.orders.find? id = none) :
    u.api.orders.find? id = some (newOrderData id req) := by
  have hapi : (t.screen req).2.api = t.api := by
    obtain ⟨_, hapi, _⟩ | ⟨_, hapi, _⟩ := screen_cases t req <;> exact hapi
  simp only [TradingEngine.sendOrder] at h
  split at h
  · cases h
    exact absurd hid (by decide)
  · obtain ⟨out, hout, rfl, rfl, _⟩ := forward_eq_ok.mp h
    obtain ⟨p, hp, rfl, rfl⟩ := sendOrder_eq_ok.mp hout
    rw [hapi] at hp
    obtain ⟨_, _, _, _, ⟨r, hr, _⟩ | ⟨_, _, happ⟩⟩ := recordOrder_cases hp
    · rw [hnone] at hr
      cases hr
    · simp only [happ]
      exact Orders.find?_set_self _ _

theorem fill_unfilled {a : AlgoEngine} {d : OrderData}
    (hd : d.action = side a.orderTarget ∨ d.tradedQuantity = a.orderFilled) :
    a.targetPos - (a.fill d).currPos - unfilled (a.fill d) =
      a.targetPos - a.currPos - unfilled a := by
  have hfill := PositionAccounting.fill_currPos a d
  have hunfilled : unfilled (a.fill d) =
      a.orderTarget - (side a.orderTarget).sign * d.tradedQuantity := rfl
  rw [hfill, hunfilled, unfilled]
  obtain hd | hd := hd
  · rw [hd]
    ring
  · rw [hd]
    ring

/-- A move of another thread, or an event that the engine has no use for. -/
theorem Tracking.frame {s t : System} (h : Tracking s) (htraced : Traced t)
    (hkept : ∀ id r, s.trading.api.orders.find? id = some r →
      ∃ d, t.trading.api.orders.find? id = some d ∧ SameOrder r d)
    (happlied : t.history.applied = s.history.applied)
    (hstatus : t.engine.orderStatus = s.engine.orderStatus)
    (hinflight : t.engine.inflightOrderId = s.engine.inflightOrderId)
    (htarget : t.engine.targetPos = s.engine.targetPos)
    (hpos : t.engine.currPos = s.engine.currPos)
    (horder : t.engine.orderTarget = s.engine.orderTarget)
    (hfilled : t.engine.orderFilled = s.engine.orderFilled) : Tracking t := by
  have hunfilled : unfilled t.engine = unfilled s.engine := by
    rw [unfilled, horder, hfilled, unfilled]
  refine ⟨htraced, ?_, ?_, fun hfly => ?_, ?_⟩
  · rw [htarget, happlied]
    exact h.requested
  · rw [hstatus]
    exact h.positive
  · rw [hinflight] at hfly
    obtain ⟨⟨r, hr, hside⟩, hgap⟩ := h.inflight hfly
    obtain ⟨d, hd, hsame⟩ := hkept _ r hr
    rw [hinflight, htarget, hpos, hunfilled, horder]
    exact ⟨⟨d, hd, hsame.action ▸ hside⟩, hgap⟩
  · rw [htarget, hpos, hunfilled]
    exact h.close

theorem Tracking.filled {s t : System} (h : Tracking s) (htraced : Traced t) {d : OrderData}
    (hknown : Known s.trading.api.orders d) (hmem : d.orderId ∈ s.engine.orderStatus)
    (hsteady : d.orderId = s.engine.inflightOrderId ∨ d.tradedQuantity = s.engine.orderFilled)
    (horders : t.trading.api.orders = s.trading.api.orders)
    (happlied : t.history.applied = s.history.applied) {inflight : OrderId} {cancelled : Bool}
    (hengine : t.engine =
      { s.engine.fill d with inflightOrderId := inflight, orderCancelled := cancelled })
    (hinflight : 0 < inflight → inflight = s.engine.inflightOrderId) : Tracking t := by
  have hside : d.action = side s.engine.orderTarget ∨ d.tradedQuantity = s.engine.orderFilled := by
    obtain hid | hsame := hsteady
    · obtain ⟨⟨r, hr, hr'⟩, _⟩ := h.inflight (hid ▸ h.positive _ hmem)
      obtain ⟨r', hfind, hsame⟩ := hknown
      rw [hid, hr] at hfind
      cases hfind
      exact .inl (hsame.action.trans hr')
    · exact .inr hsame
  have hgap : t.engine.targetPos - t.engine.currPos - unfilled t.engine =
      s.engine.targetPos - s.engine.currPos - unfilled s.engine := by
    rw [hengine]
    exact fill_unfilled hside
  refine ⟨htraced, ?_, fun id hid => ?_, fun hfly => ?_, ?_⟩
  · rw [hengine, happlied]
    exact h.requested
  · rw [hengine] at hid
    obtain rfl | hid := (AList.mem_insert _).mp hid
    · exact h.positive _ hmem
    · exact h.positive id hid
  · have hsame : t.engine.inflightOrderId = s.engine.inflightOrderId := by
      rw [hengine] at hfly ⊢
      exact hinflight hfly
    rw [hsame] at hfly
    obtain ⟨hrecord, hzero⟩ := h.inflight hfly
    rw [hsame, horders]
    refine ⟨?_, by linarith⟩
    rw [hengine]
    exact hrecord
  · obtain hclose | hzero := h.close
    · by_cases hmoved : d.tradedQuantity = s.engine.orderFilled
      · have hpos : t.engine.currPos = s.engine.currPos := by
          rw [hengine]
          simp [PositionAccounting.fill_currPos, hmoved]
        have htarget : t.engine.targetPos = s.engine.targetPos := by rw [hengine]; rfl
        rw [hpos, htarget]
        exact .inl hclose
      · have hfly : d.orderId = s.engine.inflightOrderId := hsteady.resolve_right hmoved
        obtain ⟨_, hzero⟩ := h.inflight (hfly ▸ h.positive _ hmem)
        exact .inr (by linarith)
    · exact .inr (by linarith)

/-- A request that is applied, with the order for it if one is due. -/
theorem Tracking.applied {s : System} (h : Tracking s) {pos : PosUpdate}
    {lastTick : Option TickData} {r : Acted} (hheld : s.held = some (.algoPosUpdate pos))
    (hfly : ¬ 0 < s.engine.inflightOrderId) (htraced : Traced (s.acted (.algoPosUpdate pos) r))
    (hsteady : steady s (.act lastTick) = true)
    (hr : s.engine.updatePosCb s.trading pos = .ok r) :
    Tracking (s.acted (.algoPosUpdate pos) r) := by
  rw [AlgoEngine.updatePosCb, if_neg hfly] at hr
  dsimp only at hr
  split at hr
  · next hdue =>
    obtain ⟨⟨id, trading, events, client⟩, hsend, hr⟩ := bind_eq_ok.mp hr
    have hsend' : s.trading.sendOrder (s.engine.newOrderReq s.engine.orderSymbol (gap s pos)) =
        .ok (id, trading, events, client) := hsend
    have hnear : (decide (gap s pos < 1) && decide (-1 < gap s pos)) = false := by
      have hdue' : gap s pos ≥ 1 ∨ gap s pos ≤ -1 := hdue
      obtain hdue' | hdue' := hdue'
      · simp [not_lt.mpr hdue']
      · simp [not_lt.mpr hdue']
    have htaken : 0 < id ∧ s.trading.api.orders.find? id = none := by
      simp only [steady, hheld, hfly, decide_false, hnear, Bool.false_or, taken, hsend',
        Bool.and_eq_true, decide_eq_true_eq, Option.isNone_iff_eq_none] at hsteady
      exact hsteady
    have hrecord := sendOrder_recorded hsend' htaken.1 htaken.2
    cases hr
    simp only [htaken.1, if_true] at htraced ⊢
    have hnote : (s.acted (.algoPosUpdate pos)
        { engine := AlgoEngine.inflight { s.engine with targetPos := pos.pos } id
            (s.engine.newOrderReq s.engine.orderSymbol (gap s pos)) (gap s pos)
          trading := trading, events := events, client := client }).history.applied =
        s.history.applied ++ [pos] := by
      simp [System.acted, History.note, hfly, AlgoEngine.inflight, htaken.1]
    have hgap : ∀ q : Double, q - (side q).sign * 0 = q := fun q => by rw [mul_zero, sub_zero]
    refine ⟨htraced, ?_, fun j hj => ?_, fun _ => ⟨⟨_, hrecord, rfl⟩, (hgap _).symm⟩,
      .inr (hgap _).symm⟩
    · refine Eq.trans ?_ (congrArg (fun l => l.getLast?.elim 0 PosUpdate.pos) hnote.symm)
      rw [List.getLast?_concat]
      rfl
    · obtain rfl | hj := (AList.mem_insert _).mp hj
      · exact htaken.1
      · exact h.positive j hj
  · next hsmall =>
    cases hr
    have hnear : |pos.pos - s.engine.currPos| < 1 := by
      obtain ⟨hlt, hgt⟩ := not_or.mp hsmall
      exact abs_lt.mpr ⟨not_le.mp hgt, not_le.mp hlt⟩
    have hnote : (History.note s.history s.engine { s.engine with targetPos := pos.pos }
        (.algoPosUpdate pos)).applied = s.history.applied ++ [pos] := by
      simp [History.note, hfly]
    refine ⟨htraced, ?_, h.positive, fun hfly' => absurd hfly' hfly, .inl hnear⟩
    refine Eq.trans ?_ (congrArg (fun l => l.getLast?.elim 0 PosUpdate.pos) hnote.symm)
    rw [List.getLast?_concat]
    rfl

theorem Tracking.step {s t : System} {a : Move} (h : Tracking s) (hok : Steady s a)
    (ht : (algo cfg).step s a = some t) : Tracking t := by
  have htraced := h.traced.step ht
  have hkept := fun (i : OrderId) (r : OrderData) => @step_kept cfg s t a ht i r
  obtain ⟨lastTick, e, r, rfl, hheld, hr, rfl⟩ | ⟨_, ⟨_, _, he⟩, ⟨_, hh⟩⟩ := acted_or_around ht
  · have hhandled := (handle_handled hr).1
    generalize hb : r.engine = b at hhandled
    cases hhandled with
    | @blocked pos hfly =>
      have hnote : (s.acted (.algoPosUpdate pos) r).history.applied = s.history.applied := by
        simp [System.acted, History.note, hfly]
      apply h.frame htraced hkept hnote <;> simp [System.acted, hb]
    | idle hfly => exact h.applied hheld hfly htraced hok hr
    | sent hfly _ _ _ => exact h.applied hheld hfly htraced hok hr
    | @unknown d hd =>
      have hnote : (s.acted (.orderData d) r).history.applied = s.history.applied := by
        simp [System.acted, History.note, hd]
      apply h.frame htraced hkept hnote <;> simp [System.acted, hb]
    | @active d hd _ =>
      have hknown := h.traced.transit d (by simp [System.pipe, hheld, Event.orderData?])
      have hsteady : d.orderId = s.engine.inflightOrderId ∨
          d.tradedQuantity = s.engine.orderFilled := by simpa [Steady, steady, hheld, hd] using hok
      cases hr
      apply h.filled htraced hknown hd hsteady rfl (by simp [System.acted, History.note, hd]) hb
      exact fun _ => rfl
    | @ended d hd _ =>
      have hknown := h.traced.transit d (by simp [System.pipe, hheld, Event.orderData?])
      have hsteady : d.orderId = s.engine.inflightOrderId ∨
          d.tradedQuantity = s.engine.orderFilled := by simpa [Steady, steady, hheld, hd] using hok
      cases hr
      apply h.filled htraced hknown hd hsteady rfl (by simp [System.acted, History.note, hd]) hb
      exact fun hfly => absurd hfly (by decide)
    | other hdata hpos reqs =>
      have hnote : (s.acted e r).history.applied = s.history.applied := by
        cases e with
        | orderData d => cases hdata
        | algoPosUpdate pos => exact absurd rfl (hpos pos)
        | _ => rfl
      apply h.frame htraced hkept hnote <;> simp [System.acted, hb]
  · apply h.frame htraced hkept <;> first | rw [he] | rw [hh]

theorem tracking {s : System} (hs : (algo cfg).Reaches Steady s) : Tracking s := by
  apply Machine.Reaches.invariant _ (fun _ _ _ _ h hok ht => h.step hok ht) hs
  refine ⟨traced .init, rfl, ?_, ?_, .inl ?_⟩ <;> simp [algo]

/-- The position stays with the last request applied. All that can be missing is
what the last order has left to fill, so once that is filled the position is less
than a lot away. -/
theorem position_tracks_request {s : System} (hs : (algo cfg).Reaches Steady s) :
    s.engine.targetPos = s.history.applied.getLast?.elim 0 PosUpdate.pos ∧
      (|s.engine.targetPos - s.engine.currPos| < 1 ∨
        s.engine.targetPos - s.engine.currPos = unfilled s.engine) ∧
      (s.engine.orderFilled = |s.engine.orderTarget| →
        |s.engine.targetPos - s.engine.currPos| < 1) := by
  have h := tracking hs
  refine ⟨h.requested, h.close, fun hfilled => ?_⟩
  obtain hclose | hgap := h.close
  · exact hclose
  · have hzero : unfilled s.engine = 0 := by
      rw [unfilled, hfilled, side]
      split
      · next hneg =>
        rw [abs_of_neg hneg]
        simp [Action.sign]
      · next hpos =>
        rw [abs_of_nonneg (not_lt.mp hpos)]
        simp [Action.sign]
    rw [hgap, hzero, abs_zero]
    exact one_pos

def twoRequests : List Move :=
  [.start, .callback (.nextValidId 1), .listen ⟨"6758", 10, 0⟩, .pop, .act none,
    .callback (.orderStatus 1 "Filled" 10 25), .dispatch, .dispatch, .pop, .act none, .pop,
    .act none, .listen ⟨"6758", 4, 1⟩, .pop, .act none, .callback (.orderStatus 2 "Submitted" 2 26), .dispatch,
    .dispatch, .pop, .act none, .pop, .act none]

def halfWay : System :=
  ((algo sony).restrict fun s a => decide (Steady s a)).stateAfter twoRequests (by decide +kernel)

theorem reaches_halfWay : (algo sony).Reaches Steady halfWay := Machine.reaches_stateAfter _

theorem position_tracks_request_halfWay :
    halfWay.engine.currPos = 8 ∧
      (|halfWay.engine.targetPos - halfWay.engine.currPos| < 1 ∨
        halfWay.engine.targetPos - halfWay.engine.currPos = unfilled halfWay.engine) :=
  ⟨by decide +kernel, (position_tracks_request reaches_halfWay).2.1⟩

end CalmTrading.TargetTracking
