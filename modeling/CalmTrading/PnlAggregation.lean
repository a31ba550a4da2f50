import CalmTrading.MarketData
import CalmTrading.PortfolioPnl

namespace CalmTrading.PnlAggregation

open Lib Lib.Sentinel Objects Utils MarketData PortfolioState PortfolioState.Portfolio PortfolioPnl

variable (lastTick : String → Option TickData)

def lastPrice (p : Portfolio) (algo sym : String) : Double :=
  ((lastTick (marketSymbol p algo sym)).map TickData.lastPrice).getD 0

def gain (p : Portfolio) (algo sym : String) (pos : ContractPos) : Double :=
  pos.pos * lastPrice lastTick p algo sym - pos.cost

/-- No genuine sum, of values of positions or of PnLs, is the unset double. -/
structure Genuine (p : Portfolio) : Prop where
  algo : ∀ e ∈ p.algoPortfolio.entries,
    Distinct unsetDouble (e.2.entries.map (value lastTick ((p.mktdMapping.lookup e.1).getD ∅)))
  total : Distinct unsetDouble (p.algoPortfolio.entries.map (algoValue lastTick p))

/-- The same algorithms, positions, costs and mappings. The order of the entries,
the PnLs and the orders may be any. -/
structure SameBook (p q : Portfolio) : Prop where
  algos : ∀ algo, algo ∈ p.algoPortfolio ↔ algo ∈ q.algoPortfolio
  positions : ∀ algo sym, ((p.algoPortfolio.lookup algo).getD ∅).lookup sym =
    ((q.algoPortfolio.lookup algo).getD ∅).lookup sym
  mappings : ∀ algo sym, ((p.mktdMapping.lookup algo).getD ∅).lookup sym =
    ((q.mktdMapping.lookup algo).getD ∅).lookup sym

/-- `r` has the PnLs of `p`, and otherwise what `p` has. -/
structure Aggregated (p r : Portfolio) : Prop where
  algo : ∀ algo port, p.algoPortfolio.lookup algo = some port →
    ∃ pnl, r.algoPnl.lookup algo = some pnl ∧
      (pnl = unsetDouble ↔ ∃ sym ∈ port, lastTick (marketSymbol p algo sym) = none) ∧
      (pnl ≠ unsetDouble → pnl = Table.total (gain lastTick p algo) port)
  total_unset : r.totalPnl = unsetDouble ↔
    ∃ algo ∈ p.algoPortfolio, r.algoPnl.lookup algo = some unsetDouble
  total : r.totalPnl ≠ unsetDouble →
    r.totalPnl = Table.total (fun algo _ => (r.algoPnl.lookup algo).getD 0) p.algoPortfolio
  positions : r.algoPortfolio = p.algoPortfolio
  orders : ∀ algo, r.algoOrders algo = p.algoOrders algo

/-- The same PnLs, as far as an algorithm has a portfolio. -/
structure SamePnl (p r r' : Portfolio) : Prop where
  algo : ∀ algo ∈ p.algoPortfolio, r'.algoPnl.lookup algo = r.algoPnl.lookup algo
  total : r'.totalPnl = r.totalPnl

variable {lastTick} {p q : Portfolio}

theorem value_eq_gain {algo : String} {e : Sigma fun _ : String => ContractPos} {v : Double}
    (h : value lastTick ((p.mktdMapping.lookup algo).getD ∅) e = some v) :
    v = gain lastTick p algo e.1 e.2 := by
  obtain ⟨tick, htick, rfl⟩ := Option.map_eq_some_iff.mp h
  have hprice : lastPrice lastTick p algo e.1 = tick.lastPrice := by
    simp [lastPrice, marketSymbol, htick]
  rw [gain, hprice]

theorem reduceOption_map {α : Type} {f : α → Option Double} {g : α → Double} {l : List α}
    (h : ∀ e ∈ l, f e = some (g e)) : (l.map f).reduceOption = l.map g := by
  induction l with
  | nil => rfl
  | cons e l ih =>
    rw [List.map_cons, h e List.mem_cons_self, List.reduceOption_cons_of_some, List.map_cons,
      ih fun e he => h e (List.mem_cons_of_mem _ he)]

theorem pnlOf_eq_total_gain (h : Genuine lastTick p) {algo : String} {port : ContractData}
    (hport : p.algoPortfolio.lookup algo = some port)
    (hset : pnlOf lastTick ((p.mktdMapping.lookup algo).getD ∅) port ≠ unsetDouble) :
    pnlOf lastTick ((p.mktdMapping.lookup algo).getD ∅) port =
      Table.total (gain lastTick p algo) port := by
  have hdistinct := h.algo ⟨algo, port⟩ (AList.mem_lookup_iff.mp hport)
  rw [pnlOf_eq_total] at hset ⊢
  have hnone : none ∉ port.entries.map (value lastTick ((p.mktdMapping.lookup algo).getD ∅)) :=
    fun hmem => hset (hdistinct.total_eq_iff.mpr hmem)
  rw [hdistinct.total_eq_sum hset, Table.total]
  refine congrArg List.sum (reduceOption_map fun e he => ?_)
  cases hv : value lastTick ((p.mktdMapping.lookup algo).getD ∅) e with
  | none => exact absurd (List.mem_map.mpr ⟨e, he, hv⟩) hnone
  | some v => rw [value_eq_gain hv]

theorem algoValue_eq_some (timer : Timer) {e : Sigma fun _ : String => ContractData}
    (he : e ∈ p.algoPortfolio.entries) (hnone : algoValue lastTick p e ≠ none) :
    algoValue lastTick p e =
      some (((p.timerCb lastTick timer).1.algoPnl.lookup e.1).getD 0) := by
  rw [timerCb_algoPnl lastTick (AList.mem_lookup_iff.mpr he), Option.getD_some]
  simp only [algoValue] at hnone ⊢
  split
  · next hunset => simp [hunset] at hnone
  · simp [fxRate]

theorem timerCb_totalPnl_unset (h : Genuine lastTick p) (timer : Timer) :
    (p.timerCb lastTick timer).1.totalPnl = unsetDouble ↔
      ∃ algo ∈ p.algoPortfolio,
        (p.timerCb lastTick timer).1.algoPnl.lookup algo = some unsetDouble := by
  rw [timerCb_totalPnl, h.total.total_eq_iff, List.mem_map]
  constructor
  · rintro ⟨⟨algo, port⟩, he, hnone⟩
    have hport := AList.mem_lookup_iff.mpr he
    refine ⟨algo, Table.mem_iff_lookup.mpr ⟨port, hport⟩, ?_⟩
    rw [timerCb_algoPnl lastTick hport]
    by_contra hset
    simp only [Option.some.injEq] at hset
    simp [algoValue, isUnsetDouble, hset] at hnone
  · rintro ⟨algo, hmem, hunset⟩
    obtain ⟨port, hport⟩ := Table.mem_iff_lookup.mp hmem
    rw [timerCb_algoPnl lastTick hport, Option.some.injEq] at hunset
    refine ⟨⟨algo, port⟩, AList.mem_lookup_iff.mp hport, ?_⟩
    simp [algoValue, isUnsetDouble, hunset]

theorem timerCb_totalPnl_sum (h : Genuine lastTick p) (timer : Timer)
    (hset : (p.timerCb lastTick timer).1.totalPnl ≠ unsetDouble) :
    (p.timerCb lastTick timer).1.totalPnl =
      Table.total (fun algo _ => ((p.timerCb lastTick timer).1.algoPnl.lookup algo).getD 0)
        p.algoPortfolio := by
  rw [timerCb_totalPnl] at hset ⊢
  rw [h.total.total_eq_sum hset, Table.total]
  refine congrArg List.sum (reduceOption_map fun e he => algoValue_eq_some timer he fun hnone => ?_)
  exact hset (h.total.total_eq_iff.mpr (List.mem_map.mpr ⟨e, he, hnone⟩))

theorem timerAlgo_algoOrders (p : Portfolio) (algo : String) (port : ContractData)
    (other : String) : (timerAlgo lastTick p algo port).algoOrders other = p.algoOrders other := by
  simp only [timerAlgo, algoOrders, Table.lookup_insert_ite]
  split
  · next h => rw [h, Option.getD_some]
  · rfl

theorem foldl_algoOrders (l : List (Sigma fun _ : String => ContractData)) (p : Portfolio)
    (algo : String) :
    (l.foldl (fun p e => timerAlgo lastTick p e.1 e.2) p).algoOrders algo = p.algoOrders algo := by
  induction l generalizing p with
  | nil => rfl
  | cons e l ih => rw [List.foldl_cons, ih, timerAlgo_algoOrders]

theorem timerCb_aggregated (h : Genuine lastTick p) (timer : Timer) :
    Aggregated lastTick p (p.timerCb lastTick timer).1 where
  algo algo port hport := by
    refine ⟨_, timerCb_algoPnl lastTick hport timer, ?_, pnlOf_eq_total_gain h hport⟩
    rw [pnlOf_eq_unset_iff lastTick hport]
    have hsat : ¬ Saturated lastTick p algo := by
      rintro ⟨port', hport', hsat⟩
      exact (h.algo ⟨algo, port'⟩ (AList.mem_lookup_iff.mp hport')).not_saturates hsat
    simp [Unticked, hport, hsat]
  total_unset := timerCb_totalPnl_unset h timer
  total := timerCb_totalPnl_sum h timer
  positions := (timerCb_repriced lastTick p timer).algoPortfolio
  orders := foldl_algoOrders _ _

theorem values_perm (h : SameBook p q) {algo : String} {port port' : ContractData}
    (hp : p.algoPortfolio.lookup algo = some port)
    (hq : q.algoPortfolio.lookup algo = some port') :
    (port.entries.map (value lastTick ((p.mktdMapping.lookup algo).getD ∅))).Perm
      (port'.entries.map (value lastTick ((q.mktdMapping.lookup algo).getD ∅))) := by
  have hvalue : value lastTick ((p.mktdMapping.lookup algo).getD ∅) =
      value lastTick ((q.mktdMapping.lookup algo).getD ∅) := by
    funext e
    rw [value, value, h.mappings]
  have hlookup : ∀ sym, port.lookup sym = port'.lookup sym := by
    intro sym
    simpa [hp, hq] using h.positions algo sym
  rw [hvalue]
  exact (Table.entries_perm hlookup).map _

theorem pnlOf_eq (hg : Genuine lastTick p) (h : SameBook p q) {algo : String}
    {port port' : ContractData} (hp : p.algoPortfolio.lookup algo = some port)
    (hq : q.algoPortfolio.lookup algo = some port') :
    pnlOf lastTick ((q.mktdMapping.lookup algo).getD ∅) port' =
      pnlOf lastTick ((p.mktdMapping.lookup algo).getD ∅) port := by
  rw [pnlOf_eq_total, pnlOf_eq_total]
  have hdistinct := hg.algo ⟨algo, port⟩ (AList.mem_lookup_iff.mp hp)
  exact (total_perm hdistinct (values_perm h hp hq)).symm

theorem map_algoValue (lastTick : String → Option TickData) (p : Portfolio) :
    p.algoPortfolio.entries.map (algoValue lastTick p) =
      p.algoPortfolio.keys.map fun algo =>
        algoValue lastTick p ⟨algo, (p.algoPortfolio.lookup algo).getD ∅⟩ := by
  rw [AList.keys, List.keys, List.map_map]
  refine List.map_congr_left fun e he => ?_
  have hport : p.algoPortfolio.lookup e.1 = some e.2 := AList.mem_lookup_iff.mpr he
  simp [hport]

theorem algoValues_perm (hg : Genuine lastTick p) (h : SameBook p q) :
    (p.algoPortfolio.entries.map (algoValue lastTick p)).Perm
      (q.algoPortfolio.entries.map (algoValue lastTick q)) := by
  rw [map_algoValue, map_algoValue]
  have hvalue : ∀ algo ∈ q.algoPortfolio.keys,
      algoValue lastTick q ⟨algo, (q.algoPortfolio.lookup algo).getD ∅⟩ =
        algoValue lastTick p ⟨algo, (p.algoPortfolio.lookup algo).getD ∅⟩ := by
    intro algo hmem
    obtain ⟨port', hq⟩ := Table.mem_iff_lookup.mp hmem
    obtain ⟨port, hp⟩ := Table.mem_iff_lookup.mp ((h.algos algo).mpr hmem)
    simp only [algoValue, hp, hq, Option.getD_some, pnlOf_eq hg h hp hq]
  rw [List.map_congr_left hvalue]
  exact (Table.keys_perm h.algos).map _

theorem timerCb_samePnl (hg : Genuine lastTick p) (h : SameBook p q) (timer timer' : Timer) :
    SamePnl p (p.timerCb lastTick timer).1 (q.timerCb lastTick timer').1 where
  algo algo hmem := by
    obtain ⟨port, hp⟩ := Table.mem_iff_lookup.mp hmem
    obtain ⟨port', hq⟩ := Table.mem_iff_lookup.mp ((h.algos algo).mp hmem)
    rw [timerCb_algoPnl lastTick hp, timerCb_algoPnl lastTick hq, pnlOf_eq hg h hp hq]
  total := by
    rw [timerCb_totalPnl, timerCb_totalPnl]
    exact (total_perm hg.total (algoValues_perm hg h)).symm

/-- `timer_cb` adds up the positions of each algorithm and the PnLs of the
algorithms. A missing price, and nothing else, makes a sum unset. The result is
that of the positions, costs, mappings and ticks alone. -/
theorem timerCb_aggregates (mgr : MarketDataManager) (p : Portfolio)
    (hg : Genuine mgr.getLastTick p) (timer : Timer) :
    Aggregated mgr.getLastTick p (p.timerCb mgr.getLastTick timer).1 ∧
      ∀ q timer', SameBook p q →
        SamePnl p (p.timerCb mgr.getLastTick timer).1 (q.timerCb mgr.getLastTick timer').1 :=
  ⟨timerCb_aggregated hg timer, fun _ timer' h => timerCb_samePnl hg h timer timer'⟩

/-- Two algorithms, one of which is valued by another symbol and has no price. -/
def twoAlgos : Portfolio :=
  ((({ algoPnl := AList.singleton "grid" 7 } : Portfolio).addMarketDataMapping
      "grid" "M2K" "RTY").setContractPos "grid" "M2K" ⟨"M2K", 3, 40⟩).setContractPos
      "trend" "6758" ⟨"6758", -2, -50⟩

def onePrice : MarketDataManager :=
  ({} : MarketDataManager).updateTicks { symbol := "6758", lastPrice := 30 }

theorem timerCb_aggregates_twoAlgos :
    Aggregated onePrice.getLastTick twoAlgos
      (twoAlgos.timerCb onePrice.getLastTick { sec := 30, timestamp := 90 }).1 :=
  (timerCb_aggregates onePrice twoAlgos ⟨by decide +kernel, by decide +kernel⟩ _).1

end CalmTrading.PnlAggregation
