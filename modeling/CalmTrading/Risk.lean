import Mathlib.Data.Finset.Basic
import Mathlib.Data.Finset.Card
import CalmTrading.OrderRecords
import CalmTrading.PortfolioState

namespace CalmTrading.Risk

open Lib Objects Utils Gateway OrderRecords PortfolioState

/-- The configured limits. -/
structure Limits where
  algoPnlLmt : Table String Double := ∅
  totalPnlLmt : Double := -1000000
  orderFlowLmt : UInt32 := 100

structure RiskManager extends Limits where
  activeOrders : Finset OrderId := ∅

namespace RiskManager

/-- The two PnL checks. -/
def checkPnl (r : RiskManager) (portfolio : Portfolio) (req : OrderReq) : Bool × Portfolio :=
  if portfolio.getTotalPnl < r.totalPnlLmt then (false, portfolio)
  else
    match r.algoPnlLmt.lookup req.source with
    | none => (true, portfolio)
    | some lmt =>
      let (pnl, portfolio) := portfolio.getAlgoPnl req.source
      (!decide (pnl < lmt), portfolio)

def checkRisk (r : RiskManager) (portfolio : Portfolio) (req : OrderReq) :
    Bool × RiskManager × Portfolio :=
  let (passed, portfolio) := r.checkPnl portfolio req
  if !passed then (false, r, portfolio)
  else if r.activeOrders.card ≥ r.orderFlowLmt.toNat then (false, r, portfolio)
  else (true, { r with activeOrders := insert req.orderId r.activeOrders }, portfolio)

def eventEngineOrderCb (r : RiskManager) (e : Event) : RiskManager :=
  match e with
  | .orderData d =>
    if isActiveOrder d.status then r
    else { r with activeOrders := r.activeOrders.erase d.orderId }
  | _ => r

end RiskManager

/-- What the trading engine reaches: the gateway, the limits and the PnLs. -/
structure TradingEngine where
  api : IBApi := {}
  risk : RiskManager
  portfolio : Portfolio := {}

namespace TradingEngine

/-- The check that `send_order` starts with. -/
def screen (t : TradingEngine) (req : OrderReq) : Bool × TradingEngine :=
  let (passed, risk, portfolio) := t.risk.checkRisk t.portfolio req
  (passed, { t with risk := risk, portfolio := portfolio })

/-- The rest of `send_order`, once the check has passed. -/
def forward (t : TradingEngine) (req : OrderReq) :
    Except Fault (OrderId × TradingEngine × List Event × List ClientMsg) := do
  let (orderId, out) ← t.api.sendOrder req
  .ok (orderId, { t with api := out.api }, out.events, out.client)

def sendOrder (t : TradingEngine) (req : OrderReq) :
    Except Fault (OrderId × TradingEngine × List Event × List ClientMsg) :=
  let (passed, t) := t.screen req
  if !passed then .ok (-1, t, [], []) else t.forward req

def cancelOrder (t : TradingEngine) (orderId : OrderId) : TradingEngine × List ClientMsg :=
  let out := t.api.cancelOrder orderId
  ({ t with api := out.api }, out.client)

/-- The PnLs as the portfolio's thread has left them. -/
def reprice (t : TradingEngine) (algoPnl : Table String Double) (totalPnl : Double) :
    TradingEngine :=
  { t with portfolio := { t.portfolio with algoPnl := algoPnl, totalPnl := totalPnl } }

end TradingEngine

theorem screen_cases (t : TradingEngine) (req : OrderReq) :
    ((t.screen req).1 = false ∧ (t.screen req).2.api = t.api ∧ (t.screen req).2.risk = t.risk) ∨
    ((t.screen req).1 = true ∧ (t.screen req).2.api = t.api ∧
      t.risk.activeOrders.card < t.risk.orderFlowLmt.toNat ∧
      (t.screen req).2.risk =
        { t.risk with activeOrders := insert req.orderId t.risk.activeOrders }) := by
  simp only [TradingEngine.screen, RiskManager.checkRisk]
  cases (t.risk.checkPnl t.portfolio req).1 with
  | false => simp
  | true =>
    by_cases h : t.risk.activeOrders.card ≥ t.risk.orderFlowLmt.toNat
    · simp [h]
    · simp [h, Nat.lt_of_not_le h]

theorem screen_eq_true {t : TradingEngine} {req : OrderReq}
    (hpnl : (t.risk.checkPnl t.portfolio req).1 = true)
    (hroom : t.risk.activeOrders.card < t.risk.orderFlowLmt.toNat) : (t.screen req).1 = true := by
  simp [TradingEngine.screen, RiskManager.checkRisk, hpnl, Nat.not_le_of_lt hroom]

theorem screen_eq_true_iff {t : TradingEngine} {req : OrderReq} :
    (t.screen req).1 = true ↔ (t.risk.checkPnl t.portfolio req).1 = true ∧
      t.risk.activeOrders.card < t.risk.orderFlowLmt.toNat := by
  constructor
  · intro h
    obtain ⟨hfalse, _⟩ | ⟨_, _, hroom, _⟩ := screen_cases t req
    · simp [hfalse] at h
    · refine ⟨?_, hroom⟩
      by_contra hpnl
      rw [Bool.not_eq_true] at hpnl
      simp [TradingEngine.screen, RiskManager.checkRisk, hpnl] at h
  · exact fun h => screen_eq_true h.1 h.2

theorem screen_portfolio (t : TradingEngine) (req : OrderReq) :
    (t.screen req).2.portfolio = (t.risk.checkPnl t.portfolio req).2 := by
  simp only [TradingEngine.screen, RiskManager.checkRisk]
  split
  · rfl
  · split <;> rfl

theorem checkPnl_eq_true_iff {r : RiskManager} {p : Portfolio} {req : OrderReq} :
    (r.checkPnl p req).1 = true ↔ r.totalPnlLmt ≤ p.totalPnl ∧
      ∀ lmt, r.algoPnlLmt.lookup req.source = some lmt →
        lmt ≤ (p.algoPnl.lookup req.source).getD 0 := by
  rw [RiskManager.checkPnl, Portfolio.getTotalPnl]
  split
  · next h => simp [Rat.not_le.mpr h]
  · next h =>
    cases hlmt : r.algoPnlLmt.lookup req.source with
    | none => simpa using Rat.not_lt.mp h
    | some lmt =>
      simp only [Rat.not_lt.mp h, Option.some.injEq, forall_eq', true_and, Bool.not_eq_true',
        decide_eq_false_iff_not, Rat.not_lt]
      exact Iff.rfl

theorem checkPnl_portfolio (r : RiskManager) (p : Portfolio) (req : OrderReq) :
    ∃ algoPnl : Table String Double, (r.checkPnl p req).2 = { p with algoPnl := algoPnl } ∧
      ∀ algo, (algoPnl.lookup algo).getD 0 = (p.algoPnl.lookup algo).getD 0 := by
  rw [RiskManager.checkPnl]
  split
  · exact ⟨p.algoPnl, rfl, fun _ => rfl⟩
  · cases r.algoPnlLmt.lookup req.source with
    | none => exact ⟨p.algoPnl, rfl, fun _ => rfl⟩
    | some lmt =>
      refine ⟨_, rfl, fun algo => ?_⟩
      rw [Table.lookup_insert_ite]
      split
      · next h => rw [h, Option.getD_some]
      · rfl

theorem checkPnl_at_limits (t : TradingEngine) (req : OrderReq) :
    (t.risk.checkPnl (t.reprice t.risk.algoPnlLmt t.risk.totalPnlLmt).portfolio req).1 = true := by
  rw [RiskManager.checkPnl]
  split
  · next h => exact absurd h Rat.lt_irrefl
  · cases h : t.risk.algoPnlLmt.lookup req.source with
    | none => rfl
    | some lmt => simp [Portfolio.getAlgoPnl, TradingEngine.reprice, h]

theorem forward_eq_ok {t u : TradingEngine} {req : OrderReq} {id : OrderId} {events : List Event}
    {client : List ClientMsg} :
    t.forward req = .ok (id, u, events, client) ↔
      ∃ out, t.api.sendOrder req = .ok (id, out) ∧ u = { t with api := out.api } ∧
        events = out.events ∧ client = out.client := by
  rw [TradingEngine.forward, bind_eq_ok]
  constructor
  · rintro ⟨⟨id', out⟩, hout, h⟩
    cases h
    exact ⟨out, hout, rfl, rfl, rfl⟩
  · rintro ⟨out, hout, rfl, rfl, rfl⟩
    exact ⟨(id, out), hout, rfl⟩

theorem eventEngineOrderCb_limits (r : RiskManager) (e : Event) :
    (r.eventEngineOrderCb e).toLimits = r.toLimits := by
  cases e with
  | orderData d =>
    simp only [RiskManager.eventEngineOrderCb]
    split <;> rfl
  | _ => rfl

end CalmTrading.Risk
