import CalmTrading.Lib.Machine
import CalmTrading.PortfolioPnl
import CalmTrading.Risk

namespace CalmTrading.LossLimits

open Lib Objects Utils Gateway OrderRecords PortfolioState PortfolioPnl Risk

/-- What a `timer_cb` worked on: the portfolio and the last ticks. -/
structure Snapshot where
  portfolio : Portfolio
  ticks : Table String TickData

/-- The trading engine with its portfolio and risk manager. History are `valued`,
what the last `timer_cb` worked on, and `forwarded`, the order that the last step
handed to the gateway. -/
structure Gate where
  trading : TradingEngine
  valued : Option Snapshot := none
  forwarded : Option OrderReq := none

inductive Move
  | orderDataCb (d : OrderData)
  | timerCb (timer : Timer) (ticks : Table String TickData)
  | addToPortfolio (algo symbol : String)
  | addMarketDataMapping (algo orderSymbol marketSymbol : String)
  | eventEngineOrderCb (e : Event)
  | callback (c : Callback)
  | sendOrder (req : OrderReq)

namespace Gate

def setPortfolio (s : Gate) (p : Portfolio) : Gate :=
  { s with trading := { s.trading with portfolio := p }, forwarded := none }

def step (s : Gate) : Move → Option Gate
  | .orderDataCb d => some (s.setPortfolio (s.trading.portfolio.orderDataCb d))
  | .timerCb timer ticks =>
    some
      { s.setPortfolio (s.trading.portfolio.timerCb ticks.lookup timer).1 with
        valued := some ⟨s.trading.portfolio, ticks⟩ }
  | .addToPortfolio algo symbol =>
    some (s.setPortfolio (s.trading.portfolio.addToPortfolio algo symbol))
  | .addMarketDataMapping algo orderSymbol marketSymbol =>
    some (s.setPortfolio
      (s.trading.portfolio.addMarketDataMapping algo orderSymbol marketSymbol))
  | .eventEngineOrderCb e =>
    some
      { s with
        trading := { s.trading with risk := s.trading.risk.eventEngineOrderCb e }
        forwarded := none }
  | .callback c =>
    (s.trading.api.callback c).toOption.map fun out =>
      { s with trading := { s.trading with api := out.api }, forwarded := none }
  | .sendOrder req =>
    (s.trading.sendOrder req).toOption.map fun (_, trading, _, client) =>
      { s with trading := trading, forwarded := if client = [] then none else some req }

end Gate

def gate (limits : Limits) : Machine Gate Move where
  init := { trading := { risk := { limits with } } }
  step := Gate.step

def pnl (s : Gate) (algo : String) : Double := (s.trading.portfolio.algoPnl.lookup algo).getD 0

/-- The PnLs that the limits are about are known and within them. -/
structure Within (s : Gate) (req : OrderReq) : Prop where
  total : s.trading.portfolio.totalPnl ≠ unsetDouble ∧
    s.trading.risk.totalPnlLmt ≤ s.trading.portfolio.totalPnl
  algo : ∀ lmt, s.trading.risk.algoPnlLmt.lookup req.source = some lmt →
    pnl s req.source ≠ unsetDouble ∧ lmt ≤ pnl s req.source

/-- After a first `timer_cb` an order goes to the gateway only within the limits. -/
def FailsClosed (s : Gate) : Prop :=
  s.valued.isSome = true → ∀ req, s.forwarded = some req → Within s req

namespace Snapshot

variable (v : Snapshot)

/-- A position of the algorithm could not be valued. -/
def AlgoUnknown (algo : String) : Prop :=
  Unticked v.ticks.lookup v.portfolio algo ∨ Saturated v.ticks.lookup v.portfolio algo

/-- A position of some algorithm could not be valued. -/
def TotalUnknown : Prop :=
  (∃ algo, v.AlgoUnknown algo) ∨ TotalSaturated v.ticks.lookup v.portfolio

end Snapshot

def TurnedDown (s : Gate) (req : OrderReq) : Prop :=
  s.trading.risk.orderFlowLmt.toNat ≤ s.trading.risk.activeOrders.card ∨
  s.trading.portfolio.totalPnl < s.trading.risk.totalPnlLmt ∨
  ∃ lmt, s.trading.risk.algoPnlLmt.lookup req.source = some lmt ∧ pnl s req.source < lmt

/-- An order that no limit turns down comes when every position could be valued. -/
def Valued (s : Gate) : Move → Prop
  | .sendOrder req => ∀ v, s.valued = some v → TurnedDown s req ∨
      ¬ v.TotalUnknown ∧
        ((s.trading.risk.algoPnlLmt.lookup req.source).isSome = true → ¬ v.AlgoUnknown req.source)
  | _ => True

/-- The PnLs are those of the last `timer_cb`. An algorithm without a portfolio
has no PnL, or the zero that a first reading entered. -/
structure Booked (s : Gate) : Prop where
  total : ∀ v, s.valued = some v →
    (s.trading.portfolio.totalPnl = unsetDouble ↔ v.TotalUnknown)
  algo : ∀ v, s.valued = some v → ∀ algo, pnl s algo = unsetDouble ↔ v.AlgoUnknown algo
  absent : ∀ algo, algo ∉ s.trading.portfolio.algoPortfolio → pnl s algo = 0

theorem zero_ne_unset : (0 : Double) ≠ unsetDouble := by decide +kernel

theorem screen_iff (s : Gate) (req : OrderReq) :
    (s.trading.screen req).1 = true ↔ ¬ TurnedDown s req := by
  rw [screen_eq_true_iff, checkPnl_eq_true_iff, TurnedDown]
  simp only [not_or, not_exists, not_and, Nat.not_le, Rat.not_lt, pnl]
  exact and_comm

/-- The PnLs that can be read are the same in both states. -/
structure SamePnl (s t : Gate) : Prop where
  total : t.trading.portfolio.totalPnl = s.trading.portfolio.totalPnl
  algo : ∀ algo, pnl t algo = pnl s algo
  limits : t.trading.risk.toLimits = s.trading.risk.toLimits

theorem SamePnl.within_iff {s t : Gate} (h : SamePnl s t) (req : OrderReq) :
    Within t req ↔ Within s req := by
  have htotalLmt : t.trading.risk.totalPnlLmt = s.trading.risk.totalPnlLmt :=
    congrArg Limits.totalPnlLmt h.limits
  have halgoLmt : t.trading.risk.algoPnlLmt = s.trading.risk.algoPnlLmt :=
    congrArg Limits.algoPnlLmt h.limits
  constructor
  · intro hw
    refine ⟨?_, fun lmt hlmt => ?_⟩
    · rw [← h.total, ← htotalLmt]
      exact hw.total
    · rw [← h.algo]
      exact hw.algo lmt (halgoLmt ▸ hlmt)
  · intro hw
    refine ⟨?_, fun lmt hlmt => ?_⟩
    · rw [h.total, htotalLmt]
      exact hw.total
    · rw [h.algo]
      exact hw.algo lmt (halgoLmt ▸ hlmt)

theorem screen_samePnl (s : Gate) (req : OrderReq) :
    SamePnl s { s with trading := (s.trading.screen req).2 } ∧
      (s.trading.screen req).2.portfolio.algoPortfolio = s.trading.portfolio.algoPortfolio := by
  have hportfolio := screen_portfolio s.trading req
  obtain ⟨algoPnl, hcheck, hread⟩ := checkPnl_portfolio s.trading.risk s.trading.portfolio req
  rw [hcheck] at hportfolio
  have hlimits : (s.trading.screen req).2.risk.toLimits = s.trading.risk.toLimits := by
    obtain ⟨_, _, hrisk⟩ | ⟨_, _, _, hrisk⟩ := screen_cases s.trading req <;> rw [hrisk]
  refine ⟨⟨?_, fun algo => ?_, hlimits⟩, ?_⟩
  · simp only [hportfolio]
  · simp only [pnl, hportfolio]
    exact hread algo
  · rw [hportfolio]

/-- All that a call of `send_order` does. -/
theorem sendOrder_cases {s t : Gate} {req : OrderReq} (ht : s.step (.sendOrder req) = some t) :
    SamePnl s t ∧ t.valued = s.valued ∧
      t.trading.portfolio.algoPortfolio = s.trading.portfolio.algoPortfolio ∧
      (TurnedDown s req ∧ t.forwarded = none ∨ ¬ TurnedDown s req ∧ t.forwarded = some req) := by
  obtain ⟨⟨id, trading, events, client⟩, hsend, rfl⟩ := toOption_map_eq_some.mp ht
  obtain ⟨hsame, hbook⟩ := screen_samePnl s req
  have hpass := screen_iff s req
  simp only [TradingEngine.sendOrder] at hsend
  cases hscreen : (s.trading.screen req).1 with
  | false =>
    simp only [hscreen, Bool.not_false, if_true, Except.ok.injEq, Prod.mk.injEq] at hsend
    obtain ⟨_, rfl, _, rfl⟩ := hsend
    rw [hscreen] at hpass
    have hdown : TurnedDown s req := by
      by_contra hno
      cases hpass.mpr hno
    exact ⟨⟨hsame.total, hsame.algo, hsame.limits⟩, rfl, hbook, .inl ⟨hdown, by simp⟩⟩
  | true =>
    simp only [hscreen, Bool.not_true, Bool.false_eq_true, if_false] at hsend
    obtain ⟨out, hout, rfl, _, rfl⟩ := forward_eq_ok.mp hsend
    obtain ⟨p, hp, _, rfl⟩ := sendOrder_eq_ok.mp hout
    exact ⟨⟨hsame.total, hsame.algo, hsame.limits⟩, rfl, hbook,
      .inr ⟨hpass.mp hscreen, by simp⟩⟩

namespace Booked

variable {s t : Gate}

theorem congr (h : Booked s) (hsame : SamePnl s t) (hvalued : t.valued = s.valued)
    (hbook : ∀ algo, algo ∉ t.trading.portfolio.algoPortfolio →
      algo ∉ s.trading.portfolio.algoPortfolio) : Booked t where
  total v hv := by
    rw [hsame.total]
    exact h.total v (hvalued ▸ hv)
  algo v hv algo := by
    rw [hsame.algo]
    exact h.algo v (hvalued ▸ hv) algo
  absent algo ha := by
    rw [hsame.algo]
    exact h.absent algo (hbook algo ha)

theorem setPortfolio (h : Booked s) {p : Portfolio}
    (htotal : p.totalPnl = s.trading.portfolio.totalPnl)
    (halgo : p.algoPnl = s.trading.portfolio.algoPnl)
    (hbook : ∀ algo, algo ∈ s.trading.portfolio.algoPortfolio → algo ∈ p.algoPortfolio) :
    Booked (s.setPortfolio p) := by
  have hsame : SamePnl s (s.setPortfolio p) :=
    ⟨htotal, fun algo => by simp only [pnl, Gate.setPortfolio, halgo], rfl⟩
  exact h.congr hsame rfl fun algo hnot hmem => hnot (hbook algo hmem)

theorem timerCb (h : Booked s) (timer : Timer) (ticks : Table String TickData) :
    Booked
      { s.setPortfolio (s.trading.portfolio.timerCb ticks.lookup timer).1 with
        valued := some ⟨s.trading.portfolio, ticks⟩ } where
  total v hv := by
    cases hv
    exact timerCb_totalPnl_unset_iff _ _ timer
  algo v hv algo := by
    cases hv
    rw [pnl]
    cases hport : s.trading.portfolio.algoPortfolio.lookup algo with
    | some port =>
      rw [Snapshot.AlgoUnknown, ← timerCb_algoPnl_unset_iff _ hport timer]
      simp [Gate.setPortfolio, timerCb_algoPnl _ hport]
    | none =>
      have hzero := h.absent algo (AList.lookup_eq_none.mp hport)
      rw [pnl] at hzero
      simp only [Gate.setPortfolio, timerCb_algoPnl_other _ hport, hzero, Snapshot.AlgoUnknown,
        Unticked, Saturated, hport, reduceCtorEq, false_and, exists_false, or_self, iff_false]
      exact zero_ne_unset
  absent algo ha := by
    have hbook := (timerCb_repriced ticks.lookup s.trading.portfolio timer).algoPortfolio
    have hnot : algo ∉ s.trading.portfolio.algoPortfolio := by
      simpa only [Gate.setPortfolio, hbook] using ha
    have hzero := h.absent algo hnot
    rw [pnl] at hzero ⊢
    simpa only [Gate.setPortfolio, timerCb_algoPnl_other _ (AList.lookup_eq_none.mpr hnot)] using hzero

theorem step (h : Booked s) {limits : Limits} {a : Move} (ht : (gate limits).step s a = some t) :
    Booked t := by
  cases a with
  | orderDataCb d =>
    cases ht
    exact h.setPortfolio rfl rfl fun algo hmem => (AList.mem_insert _).mpr (.inr hmem)
  | timerCb timer ticks =>
    cases ht
    exact h.timerCb timer ticks
  | addToPortfolio algo symbol =>
    cases ht
    rw [Portfolio.addToPortfolio]
    split
    · exact h.setPortfolio rfl rfl fun _ => id
    · exact h.setPortfolio rfl rfl fun algo hmem => (AList.mem_insert _).mpr (.inr hmem)
  | addMarketDataMapping algo orderSymbol marketSymbol =>
    cases ht
    rw [Portfolio.addMarketDataMapping]
    split <;> exact h.setPortfolio rfl rfl fun _ => id
  | eventEngineOrderCb e =>
    cases ht
    exact h.congr ⟨rfl, fun _ => rfl, eventEngineOrderCb_limits _ _⟩ rfl fun _ => id
  | callback c =>
    obtain ⟨out, _, rfl⟩ := toOption_map_eq_some.mp ht
    exact h.congr ⟨rfl, fun _ => rfl, rfl⟩ rfl fun _ => id
  | sendOrder req =>
    obtain ⟨hsame, hvalued, hbook, _⟩ := sendOrder_cases ht
    exact h.congr hsame hvalued fun algo => hbook ▸ id

end Booked

theorem within_iff {s : Gate} {v : Snapshot} {req : OrderReq} (h : Booked s)
    (hv : s.valued = some v) (hup : ¬ TurnedDown s req) :
    Within s req ↔ ¬ v.TotalUnknown ∧
      ((s.trading.risk.algoPnlLmt.lookup req.source).isSome = true →
        ¬ v.AlgoUnknown req.source) := by
  simp only [TurnedDown, not_or, not_exists, not_and, Rat.not_lt] at hup
  obtain ⟨_, htotal, halgo⟩ := hup
  rw [← h.total v hv, ← h.algo v hv]
  constructor
  · refine fun hw => ⟨hw.total.1, fun hsome => ?_⟩
    obtain ⟨lmt, hlmt⟩ := Option.isSome_iff_exists.mp hsome
    exact (hw.algo lmt hlmt).1
  · rintro ⟨hset, hlimit⟩
    exact ⟨⟨hset, htotal⟩, fun lmt hlmt => ⟨hlimit (by simp [hlmt]), halgo lmt hlmt⟩⟩

theorem failsClosed_step {limits : Limits} {s t : Gate} {a : Move} (h : Booked s)
    (ht : (gate limits).step s a = some t) : FailsClosed t ↔ Valued s a := by
  cases a with
  | sendOrder req =>
    obtain ⟨hsame, hvalued, _, ⟨hdown, hnone⟩ | ⟨hup, hreq⟩⟩ := sendOrder_cases ht
    · exact iff_of_true (fun _ req hreq => by simp [hnone] at hreq) fun v _ => .inl hdown
    · simp only [FailsClosed, hreq, Option.some.injEq, forall_eq', hvalued, hsame.within_iff,
        Valued, hup, false_or]
      cases hv : s.valued with
      | none => simp
      | some v => simpa using within_iff h hv hup
  | callback c =>
    obtain ⟨out, _, rfl⟩ := toOption_map_eq_some.mp ht
    exact iff_of_true (fun _ req hreq => by cases hreq) trivial
  | _ =>
    cases ht
    exact iff_of_true (fun _ req hreq => by cases hreq) trivial

theorem limits_fail_closed_iff (limits : Limits) (as : List Move) :
    (gate limits).StatesAll FailsClosed (gate limits).init as ↔
      (gate limits).StepsAll Valued (gate limits).init as := by
  apply Machine.statesAll_iff_stepsAll (I := Booked)
  · exact fun _ _ _ h ht => h.step ht
  · exact fun _ _ _ h _ ht => failsClosed_step h ht
  · exact ⟨by simp [gate], by simp [gate], fun _ _ => rfl⟩
  · exact fun h => by simp [gate] at h

def fill (source symbol : String) : OrderData where
  orderId := 1
  symbol := symbol
  exchange := ""
  source := source
  orderType := .market
  action := .buy
  totalQuantity := 100
  tradedQuantity := 100
  avgTradePrice := 25
  status := .filled

def buyMore : OrderReq where
  symbol := "7203-STK-JPY.TSEJ"
  source := "toyota"
  action := .buy
  orderType := .market
  quantity := 100

/-- One algorithm has lost 2400 under a limit of 1000, another holds a symbol
without a tick. -/
def oneUnpriced : List Move :=
  [.callback (.nextValidId 1), .orderDataCb (fill "toyota" "7203-STK-JPY.TSEJ"),
    .orderDataCb (fill "sony" "6758-STK-JPY.TSEJ"),
    .timerCb ⟨1, 7⟩
      ((∅ : Table String TickData).insert "7203-STK-JPY.TSEJ"
        { symbol := "7203-STK-JPY.TSEJ", lastPrice := 1 }),
    .sendOrder buyMore]

theorem limit_switched_off : ¬ ∀ limits s, (gate limits).Reachable s → FailsClosed s := by
  intro hall
  have hrun : (((gate { totalPnlLmt := -1000 }).run (gate { totalPnlLmt := -1000 }).init
      oneUnpriced).map fun s =>
        (s.forwarded, s.valued.isSome, decide (s.trading.portfolio.totalPnl = unsetDouble),
          s.trading.portfolio.algoPnl.lookup "toyota")) =
      some (some buyMore, true, true, some (-2400)) := by
    decide +kernel
  obtain ⟨s, hs, hend⟩ := Machine.exists_reachable_of_run hrun
  obtain ⟨hreq, hend⟩ := Prod.mk.inj hend
  obtain ⟨hvalued, hend⟩ := Prod.mk.inj hend
  obtain ⟨hunset, _⟩ := Prod.mk.inj hend
  have hclosed := hall _ s hs hvalued buyMore hreq
  exact hclosed.total.1 (of_decide_eq_true hunset)

end CalmTrading.LossLimits
