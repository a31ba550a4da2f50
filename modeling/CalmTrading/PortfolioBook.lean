import Mathlib.Tactic.Ring
import CalmTrading.OrderRecords
import CalmTrading.PortfolioState

namespace CalmTrading.PortfolioBook

open Lib Objects Gateway OrderRecords PortfolioState

def signedQuantity (d : OrderData) : Double := d.action.sign * d.tradedQuantity

def signedCost (d : OrderData) : Double :=
  d.action.sign * d.tradedQuantity * d.avgTradePrice + d.commission

def holding (w : OrderData → Double) (orders : Orders) (algo symbol : String) : Double :=
  Table.total (fun _ d => if d.source = algo ∧ d.symbol = symbol then w d else 0) orders.table

def position : Orders → String → String → Double := holding signedQuantity

def cost : Orders → String → String → Double := holding signedCost

/-- The portfolio holds what a book of orders amounts to. -/
structure Refines (p : Portfolio) (book : Orders) : Prop where
  orders : ∀ algo id, (p.algoOrders algo).lookup id =
    (book.find? id).filter fun d => d.source = algo
  pos : ∀ algo symbol, (p.contractPos algo symbol).pos = position book algo symbol
  cost : ∀ algo symbol, (p.contractPos algo symbol).cost = cost book algo symbol

theorem holding_congr (w : OrderData → Double) {orders orders' : Orders}
    (h : ∀ id, orders.find? id = orders'.find? id) (algo symbol : String) :
    holding w orders algo symbol = holding w orders' algo symbol :=
  Table.total_congr _ h

/-- Replacing a record changes a sum by the difference of the two records. -/
theorem holding_set (w : OrderData → Double) {orders : Orders} {d : OrderData}
    (h : ∀ r, orders.find? d.orderId = some r → SameOrder r d) (algo symbol : String) :
    holding w (orders.set d) algo symbol = holding w orders algo symbol +
      if d.source = algo ∧ d.symbol = symbol then
        w d - (orders.find? d.orderId).elim 0 w else 0 := by
  have hlookup : orders.table.lookup d.orderId = orders.find? d.orderId := rfl
  simp only [holding, Orders.set, Table.total_insert, hlookup]
  cases hr : orders.find? d.orderId with
  | none =>
    by_cases hd : d.source = algo ∧ d.symbol = symbol <;> simp [hd]
  | some r =>
    have hsame := h r hr
    simp only [Option.elim_some, hsame.source, hsame.symbol]
    by_cases hd : d.source = algo ∧ d.symbol = symbol
    · simp only [hd, and_self, if_true]
      ring
    · simp only [if_neg hd]
      ring

theorem contractPos_setContractPos (p : Portfolio) (algo symbol algo' symbol' : String)
    (pos : ContractPos) :
    (p.setContractPos algo symbol pos).contractPos algo' symbol' =
      if algo' = algo ∧ symbol' = symbol then pos else p.contractPos algo' symbol' := by
  by_cases ha : algo' = algo
  · subst ha
    by_cases hs : symbol' = symbol <;>
      simp [Portfolio.contractPos, Portfolio.setContractPos, Table.lookup_insert_ite, hs]
  · simp [Portfolio.contractPos, Portfolio.setContractPos, ha]

theorem Refines.empty {p : Portfolio} (hp : p.algoPortfolio = ∅) (ho : p.activeOrders = ∅) :
    Refines p Orders.empty where
  orders algo id := by simp [Portfolio.algoOrders, ho]
  pos algo symbol := by
    simp [Portfolio.contractPos, hp, position, holding, Orders.empty]
  cost algo symbol := by
    simp [Portfolio.contractPos, hp, PortfolioBook.cost, holding, Orders.empty]

theorem Refines.congr {p p' : Portfolio} {book : Orders} (h : Refines p book)
    (horders : ∀ algo, p'.algoOrders algo = p.algoOrders algo)
    (hpos : ∀ algo symbol, p'.contractPos algo symbol = p.contractPos algo symbol) :
    Refines p' book where
  orders algo id := by rw [horders]; exact h.orders algo id
  pos algo symbol := by rw [hpos]; exact h.pos algo symbol
  cost algo symbol := by rw [hpos]; exact h.cost algo symbol

theorem Refines.requeue {p : Portfolio} {book : Orders} (h : Refines p book) (q : List Event) :
    Refines { p with q := q } book :=
  h.congr (fun _ => rfl) fun _ _ => rfl

/-- The change from one record of an order to the next is the difference of
what they amount to. -/
theorem change_eq {old : Option OrderData} {d : OrderData}
    (h : ∀ r, old = some r → SameOrder r d) :
    (Portfolio.change old d).1 = signedQuantity d - old.elim 0 signedQuantity ∧
      (Portfolio.change old d).2.1 + (Portfolio.change old d).2.2 =
        signedCost d - old.elim 0 signedCost := by
  cases old with
  | none =>
    cases ha : d.action <;>
      simp [Portfolio.change, signedQuantity, signedCost, Action.sign, ha]
  | some r =>
    have hr := (h r rfl).action
    cases ha : d.action <;>
    · simp only [ha] at hr
      simp only [Portfolio.change, signedQuantity, signedCost, Option.elim_some, Action.sign, ha, hr,
        if_true, reduceCtorEq, if_false]
      constructor <;> ring

theorem algoOrders_orderDataCb (p : Portfolio) (d : OrderData) (algo : String) :
    (p.orderDataCb d).algoOrders algo =
      if algo = d.source then (p.algoOrders d.source).insert d.orderId d
      else p.algoOrders algo := by
  by_cases ha : algo = d.source
  · subst ha
    simp [Portfolio.orderDataCb, Portfolio.setContractPos, Portfolio.algoOrders]
  · simp [Portfolio.orderDataCb, Portfolio.setContractPos, Portfolio.algoOrders, ha]

theorem contractPos_orderDataCb (p : Portfolio) (d : OrderData) (algo symbol : String) :
    ((p.orderDataCb d).contractPos algo symbol).pos = (p.contractPos algo symbol).pos +
        (if d.source = algo ∧ d.symbol = symbol then
          (Portfolio.change ((p.algoOrders d.source).lookup d.orderId) d).1 else 0) ∧
      ((p.orderDataCb d).contractPos algo symbol).cost = (p.contractPos algo symbol).cost +
        (if d.source = algo ∧ d.symbol = symbol then
          (Portfolio.change ((p.algoOrders d.source).lookup d.orderId) d).2.1 +
            (Portfolio.change ((p.algoOrders d.source).lookup d.orderId) d).2.2 else 0) := by
  simp only [Portfolio.orderDataCb, contractPos_setContractPos]
  by_cases hd : d.source = algo ∧ d.symbol = symbol
  · obtain ⟨rfl, rfl⟩ := hd
    simp [add_assoc]
  · have hne : ¬ (algo = d.source ∧ symbol = d.symbol) := fun hc => hd ⟨hc.1.symm, hc.2.symm⟩
    simp only [if_neg hd, if_neg hne, add_zero]
    exact ⟨rfl, rfl⟩

theorem orderDataCb_refines {p : Portfolio} {book : Orders} (h : Refines p book) {d : OrderData}
    (hd : ∀ r, book.find? d.orderId = some r → SameOrder r d) :
    Refines (p.orderDataCb d) (book.set d) := by
  have hold : (p.algoOrders d.source).lookup d.orderId = book.find? d.orderId := by
    rw [h.orders]
    cases hr : book.find? d.orderId with
    | none => rfl
    | some r => simp [Option.filter, (hd r hr).source]
  obtain ⟨hpos, hcost⟩ := change_eq hd
  refine ⟨fun algo id => ?_, fun algo symbol => ?_, fun algo symbol => ?_⟩
  · rw [algoOrders_orderDataCb, Orders.find?_set]
    by_cases ha : algo = d.source
    · subst ha
      by_cases hid : id = d.orderId
      · subst hid
        simp [Option.filter]
      · simp [hid, h.orders]
    · rw [if_neg ha, h.orders]
      by_cases hid : id = d.orderId
      · subst hid
        cases hr : book.find? d.orderId with
        | none => simp [Option.filter, Ne.symm ha]
        | some r => simp [Option.filter, (hd r hr).source, Ne.symm ha]
      · rw [if_neg hid]
  · rw [(contractPos_orderDataCb p d algo symbol).1, hold, hpos, h.pos, position, holding_set _ hd]
  · rw [(contractPos_orderDataCb p d algo symbol).2, hold, hcost, h.cost, PortfolioBook.cost,
      holding_set _ hd]

/-- The timer callback leaves the queue, the orders and the positions alone. -/
structure SameHoldings (p p' : Portfolio) : Prop where
  queue : p'.q = p.q
  orders : ∀ algo, p'.algoOrders algo = p.algoOrders algo
  positions : p'.algoPortfolio = p.algoPortfolio

theorem timerAlgo_sameHoldings (lastTick : String → Option TickData) (p : Portfolio)
    (algo : String) (port : ContractData) :
    SameHoldings p (p.timerAlgo lastTick algo port) where
  queue := rfl
  orders algo' := by
    by_cases h : algo' = algo
    · subst h
      simp [Portfolio.algoOrders, Portfolio.timerAlgo]
    · simp [Portfolio.algoOrders, Portfolio.timerAlgo, h]
  positions := rfl

theorem timerCb_sameHoldings (p : Portfolio) (lastTick : String → Option TickData)
    (timer : Timer) : SameHoldings p (p.timerCb lastTick timer).1 := by
  have hfold : ∀ (l : List (Sigma fun _ : String => ContractData)) (p' : Portfolio),
      SameHoldings p p' →
      SameHoldings p (l.foldl (fun q e => q.timerAlgo lastTick e.1 e.2) p') := by
    intro l
    induction l with
    | nil => exact fun p' h => h
    | cons e l ih =>
      intro p' h
      have hstep := timerAlgo_sameHoldings lastTick p' e.1 e.2
      apply ih
      exact ⟨hstep.queue.trans h.queue,
        fun algo => (hstep.orders algo).trans (h.orders algo),
        hstep.positions.trans h.positions⟩
  exact hfold p.algoPortfolio.entries { p with totalPnl := 0 } ⟨rfl, fun _ => rfl, rfl⟩

theorem timerCb_refines {p : Portfolio} {book : Orders} (h : Refines p book)
    (lastTick : String → Option TickData) (timer : Timer) :
    Refines (p.timerCb lastTick timer).1 book := by
  have hsame := timerCb_sameHoldings p lastTick timer
  exact h.congr hsame.orders fun algo symbol => by
    simp only [Portfolio.contractPos, hsame.positions]

theorem addToPortfolio_refines {p : Portfolio} {book : Orders} (h : Refines p book)
    (algo symbol : String) : Refines (p.addToPortfolio algo symbol) book := by
  rw [Portfolio.addToPortfolio]
  split
  · exact h
  · refine h.congr (fun _ => rfl) fun algo' symbol' => ?_
    rw [contractPos_setContractPos]
    split
    · next hat => rw [hat.1, hat.2]
    · rfl

theorem addMarketDataMapping_refines {p : Portfolio} {book : Orders} (h : Refines p book)
    (algo orderSymbol marketSymbol : String) :
    Refines (p.addMarketDataMapping algo orderSymbol marketSymbol) book := by
  rw [Portfolio.addMarketDataMapping]
  split
  · exact h
  · exact h.congr (fun _ => rfl) fun _ _ => rfl

theorem eventEngineCb_refines {p : Portfolio} {book : Orders} (h : Refines p book) (e : Event) :
    Refines (p.eventEngineCb e) book := by
  cases e with
  | orderData d => exact h.requeue _
  | timer timer => exact h.requeue _
  | _ => exact h

end CalmTrading.PortfolioBook
