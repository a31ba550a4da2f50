import Mathlib.Tactic.Ring
import CalmTrading.Lib.Totals
import CalmTrading.PnlAggregation
import CalmTrading.PortfolioFlow

namespace CalmTrading.MarkToMarket

open Lib Lib.Sentinel Objects Utils Gateway PortfolioState PortfolioState.Portfolio PortfolioBook
open PortfolioPnl PnlAggregation PortfolioFlow

variable (lastTick : String → Option TickData)

/-- What an order has made so far: its fill at the last price of its market symbol
instead of the price paid, less the commission. -/
def marked (p : Portfolio) (d : OrderData) : Double :=
  d.action.sign * d.tradedQuantity * (lastPrice lastTick p d.source d.symbol - d.avgTradePrice) -
    d.commission

def algoMarked (p : Portfolio) (orders : Orders) (algo : String) : Double :=
  Table.total (fun _ d => if d.source = algo then marked lastTick p d else 0) orders.table

variable {lastTick} {p : Portfolio} {book : Orders}

/-- The orders of an algorithm in one symbol are worth what its position is. -/
theorem position_marked (p : Portfolio) (book : Orders) (algo symbol : String) :
    Table.total (fun _ d => if d.symbol = symbol then
        if d.source = algo then marked lastTick p d else 0 else 0) book.table =
      position book algo symbol * lastPrice lastTick p algo symbol - cost book algo symbol := by
  simp only [position, PortfolioBook.cost, holding, Table.total]
  induction book.table.entries with
  | nil => simp
  | cons e l ih =>
    simp only [List.map_cons, List.sum_cons, ih]
    by_cases hd : e.2.source = algo ∧ e.2.symbol = symbol
    · obtain ⟨rfl, rfl⟩ := hd
      simp only [and_self, if_true, marked, signedQuantity, signedCost]
      ring
    · have hzero : (if e.2.symbol = symbol then
          if e.2.source = algo then marked lastTick p e.2 else 0 else 0) = 0 := by
        by_cases hsymbol : e.2.symbol = symbol
        · have hsource : e.2.source ≠ algo := fun h => hd ⟨h, hsymbol⟩
          simp [hsource]
        · simp [hsymbol]
      rw [hzero, if_neg hd, if_neg hd]
      ring

def worth (lastTick : String → Option TickData) (p : Portfolio) (algo symbol : String) : Double :=
  gain lastTick p algo symbol (p.contractPos algo symbol)

theorem worth_absent {algo symbol : String}
    (h : ((p.algoPortfolio.lookup algo).getD ∅).lookup symbol = none) :
    worth lastTick p algo symbol = 0 := by
  simp [worth, gain, contractPos, h]

theorem total_gain (lastTick : String → Option TickData) (p : Portfolio) (algo : String)
    {symbols : Finset String}
    (h : ∀ symbol, symbol ∈ (p.algoPortfolio.lookup algo).getD ∅ → symbol ∈ symbols) :
    Table.total (gain lastTick p algo) ((p.algoPortfolio.lookup algo).getD ∅) =
      ∑ symbol ∈ symbols, worth lastTick p algo symbol := by
  rw [Table.total_eq_sum_keys]
  have hheld : ∀ symbol ∈ ((p.algoPortfolio.lookup algo).getD ∅).keys.toFinset,
      (((p.algoPortfolio.lookup algo).getD ∅).lookup symbol).elim 0 (gain lastTick p algo symbol) =
        worth lastTick p algo symbol := by
    intro symbol hmem
    obtain ⟨pos, hpos⟩ := Table.mem_iff_lookup.mp (List.mem_toFinset.mp hmem)
    rw [worth, contractPos, hpos]
    rfl
  rw [Finset.sum_congr rfl hheld]
  apply Finset.sum_subset
  · exact fun symbol hmem => h symbol (List.mem_toFinset.mp hmem)
  · intro symbol _ hmem
    exact worth_absent (AList.lookup_eq_none.mpr fun hin => hmem (List.mem_toFinset.mpr hin))

/-- A portfolio values an algorithm at what its orders have made. -/
theorem gain_eq_algoMarked (h : Refines p book) (algo : String) :
    Table.total (gain lastTick p algo) ((p.algoPortfolio.lookup algo).getD ∅) =
      algoMarked lastTick p book algo := by
  have hsymbols : ∃ symbols : Finset String, (∀ e ∈ book.table.entries, e.2.symbol ∈ symbols) ∧
      ∀ symbol, symbol ∈ (p.algoPortfolio.lookup algo).getD ∅ → symbol ∈ symbols := by
    refine ⟨(book.table.entries.map fun e => e.2.symbol).toFinset ∪
      ((p.algoPortfolio.lookup algo).getD ∅).keys.toFinset, fun e he => ?_, fun symbol hs => ?_⟩
    · exact Finset.mem_union_left _ (List.mem_toFinset.mpr (List.mem_map.mpr ⟨e, he, rfl⟩))
    · exact Finset.mem_union_right _ (List.mem_toFinset.mpr hs)
  obtain ⟨symbols, hbook, hport⟩ := hsymbols
  have hworth : ∀ symbol ∈ symbols, worth lastTick p algo symbol =
      Table.total (fun _ d => if d.symbol = symbol then
        if d.source = algo then marked lastTick p d else 0 else 0) book.table := by
    intro symbol _
    rw [position_marked, ← h.pos, ← h.cost]
    rfl
  rw [total_gain lastTick p algo hport, Finset.sum_congr rfl hworth]
  exact Table.total_fiberwise _ (fun _ (d : OrderData) => d.symbol) _ _ hbook

theorem total_algoMarked (h : Refines p book) :
    Table.total (fun algo _ => algoMarked lastTick p book algo) p.algoPortfolio =
      Table.total (fun _ d => marked lastTick p d) book.table := by
  have halgos : ∃ algos : Finset String, (∀ e ∈ book.table.entries, e.2.source ∈ algos) ∧
      p.algoPortfolio.keys.toFinset ⊆ algos := by
    refine ⟨(book.table.entries.map fun e => e.2.source).toFinset ∪
      p.algoPortfolio.keys.toFinset, fun e he => ?_, Finset.subset_union_right⟩
    exact Finset.mem_union_left _ (List.mem_toFinset.mpr (List.mem_map.mpr ⟨e, he, rfl⟩))
  obtain ⟨algos, hbook, hkeys⟩ := halgos
  have hheld : ∀ algo ∈ p.algoPortfolio.keys.toFinset,
      (p.algoPortfolio.lookup algo).elim 0 (fun _ => algoMarked lastTick p book algo) =
        algoMarked lastTick p book algo := by
    intro algo hmem
    obtain ⟨port, hport⟩ := Table.mem_iff_lookup.mp (List.mem_toFinset.mp hmem)
    rw [hport]
    rfl
  have habsent : ∀ algo ∈ algos, algo ∉ p.algoPortfolio.keys.toFinset →
      algoMarked lastTick p book algo = 0 := by
    intro algo _ hmem
    have hnone : p.algoPortfolio.lookup algo = none :=
      AList.lookup_eq_none.mpr fun hin => hmem (List.mem_toFinset.mpr hin)
    rw [← gain_eq_algoMarked h, hnone]
    rfl
  rw [Table.total_eq_sum_keys, Finset.sum_congr rfl hheld, Finset.sum_subset hkeys habsent]
  exact Table.total_fiberwise _ (fun _ (d : OrderData) => d.source) _ _ hbook

theorem pnlOf_eq_algoMarked (h : Refines p book) {algo : String} {port : ContractData}
    (hport : p.algoPortfolio.lookup algo = some port)
    (hset : pnlOf lastTick ((p.mktdMapping.lookup algo).getD ∅) port ≠ unsetDouble) :
    pnlOf lastTick ((p.mktdMapping.lookup algo).getD ∅) port = algoMarked lastTick p book algo := by
  rw [← gain_eq_algoMarked h, hport, Option.getD_some]
  rw [pnlOf_eq_total] at hset ⊢
  obtain ⟨hnone, hsat⟩ := not_or.mp (total_eq_iff.not.mp hset)
  rw [total_eq_sum hnone hsat, Table.total]
  refine congrArg List.sum (reduceOption_map fun e he => ?_)
  cases hv : value lastTick ((p.mktdMapping.lookup algo).getD ∅) e with
  | none => exact absurd (List.mem_map.mpr ⟨e, he, hv⟩) hnone
  | some v => rw [value_eq_gain hv]

theorem totalPnl_eq_marked (h : Refines p book) (timer : Timer)
    (hset : (p.timerCb lastTick timer).1.totalPnl ≠ unsetDouble) :
    (p.timerCb lastTick timer).1.totalPnl =
      Table.total (fun _ d => marked lastTick p d) book.table := by
  rw [← total_algoMarked h]
  rw [timerCb_totalPnl] at hset ⊢
  obtain ⟨hnone, hsat⟩ := not_or.mp (total_eq_iff.not.mp hset)
  rw [total_eq_sum hnone hsat, Table.total]
  refine congrArg List.sum (reduceOption_map fun e he => ?_)
  have hport : p.algoPortfolio.lookup e.1 = some e.2 := AList.mem_lookup_iff.mpr he
  have hknown : algoValue lastTick p e ≠ none := fun hv => hnone (List.mem_map.mpr ⟨e, he, hv⟩)
  simp only [algoValue] at hknown ⊢
  split
  · next hunset => simp [hunset] at hknown
  · next hgood =>
    have hne : pnlOf lastTick ((p.mktdMapping.lookup e.1).getD ∅) e.2 ≠ unsetDouble := by
      simpa [isUnsetDouble] using hgood
    rw [pnlOf_eq_algoMarked h hport hne, fxRate, mul_one]

/-- Once every order event has passed through the queues, `timer_cb` marks the
gateway's orders to the market: every PnL that is not unset is what the orders
behind it have made. -/
theorem pnl_marks_orders {s : Flow} (hs : flow.Reachable s) (hdrained : s.Drained)
    (lastTick : String → Option TickData) (timer : Timer) :
    (∀ algo ∈ s.portfolio.algoPortfolio, ∃ pnl,
        (s.portfolio.timerCb lastTick timer).1.algoPnl.lookup algo = some pnl ∧
        (pnl ≠ unsetDouble → pnl = algoMarked lastTick s.portfolio s.api.orders algo)) ∧
      ((s.portfolio.timerCb lastTick timer).1.totalPnl ≠ unsetDouble →
        (s.portfolio.timerCb lastTick timer).1.totalPnl =
          Table.total (fun _ d => marked lastTick s.portfolio d) s.api.orders.table) := by
  obtain ⟨book, h⟩ := linked hs
  have hbook : ∀ id, book.find? id = s.api.orders.find? id := by
    intro id
    have hseen := h.seen id
    rwa [hdrained.1, hdrained.2, Channel.seen_nil, Option.none_or] at hseen
  refine ⟨fun algo hmem => ?_, fun hset => ?_⟩
  · obtain ⟨port, hport⟩ := Table.mem_iff_lookup.mp hmem
    refine ⟨_, timerCb_algoPnl lastTick hport timer, fun hset => ?_⟩
    rw [pnlOf_eq_algoMarked h.refines hport hset]
    exact Table.total_congr _ hbook
  · rw [totalPnl_eq_marked h.refines timer hset]
    exact Table.total_congr _ hbook

def sonyTick (symbol : String) : Option TickData :=
  if symbol = "6758-STK-JPY.TSEJ" then some { symbol := symbol, lastPrice := 20 } else none

theorem pnl_marks_orders_sold :
    (sold.portfolio.timerCb sonyTick ⟨30, 37⟩).1.totalPnl = 597 ∧
      Table.total (fun _ d => marked sonyTick sold.portfolio d) sold.api.orders.table = 597 := by
  have h := (pnl_marks_orders (s := sold) (Machine.reachable_stateAfter _) sold_drained sonyTick
    ⟨30, 37⟩).2
  have htotal : (sold.portfolio.timerCb sonyTick ⟨30, 37⟩).1.totalPnl = 597 := by decide +kernel
  have hset : (sold.portfolio.timerCb sonyTick ⟨30, 37⟩).1.totalPnl ≠ unsetDouble := by
    rw [htotal]
    decide +kernel
  exact ⟨htotal, (h hset).symm.trans htotal⟩

end CalmTrading.MarkToMarket
