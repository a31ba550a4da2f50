import CalmTrading.Lib.Sentinel
import CalmTrading.PortfolioState

namespace CalmTrading.PortfolioPnl

open Lib Lib.Sentinel Objects Utils PortfolioState PortfolioState.Portfolio

variable (lastTick : String → Option TickData)

def value (mapping : Table String String) (e : Sigma fun _ : String => ContractPos) :
    Option Double :=
  (lastTick ((mapping.lookup e.1).getD e.1)).map fun tick => e.2.pos * tick.lastPrice - e.2.cost

def algoValue (p : Portfolio) (e : Sigma fun _ : String => ContractData) : Option Double :=
  let pnl := pnlOf lastTick ((p.mktdMapping.lookup e.1).getD ∅) e.2
  if isUnsetDouble pnl then none else some (pnl * fxRate e.1)

def marketSymbol (p : Portfolio) (algo sym : String) : String :=
  (((p.mktdMapping.lookup algo).getD ∅).lookup sym).getD sym

/-- The algorithm holds a symbol for which there is no tick at all. -/
def Unticked (p : Portfolio) (algo : String) : Prop :=
  ∃ port, p.algoPortfolio.lookup algo = some port ∧
    ∃ sym ∈ port, lastTick (marketSymbol p algo sym) = none

/-- The values of some of its positions add up to exactly the unset double. -/
def Saturated (p : Portfolio) (algo : String) : Prop :=
  ∃ port, p.algoPortfolio.lookup algo = some port ∧
    Saturates unsetDouble (port.entries.map (value lastTick ((p.mktdMapping.lookup algo).getD ∅)))

def TotalSaturated (p : Portfolio) : Prop :=
  Saturates unsetDouble (p.algoPortfolio.entries.map (algoValue lastTick p))

theorem pnlOf_eq_total (mapping : Table String String) (port : ContractData) :
    pnlOf lastTick mapping port = total unsetDouble (port.entries.map (value lastTick mapping)) := by
  rw [pnlOf, AList.foldl, total, List.foldl_map]
  congr 1
  funext pnl e
  cases h : lastTick ((mapping.lookup e.1).getD e.1) with
  | none => simp [value, h, absorb]
  | some tick => simp [value, h, absorb, isUnsetDouble]

/-- What the loop of `timer_cb` does for some of the algorithms. -/
structure Repriced (l : List (Sigma fun _ : String => ContractData)) (p r : Portfolio) : Prop where
  algoPortfolio : r.algoPortfolio = p.algoPortfolio
  mapping : ∀ algo, (r.mktdMapping.lookup algo).getD ∅ = (p.mktdMapping.lookup algo).getD ∅
  algoPnl : ∀ algo port, ⟨algo, port⟩ ∈ l →
    r.algoPnl.lookup algo = some (pnlOf lastTick ((p.mktdMapping.lookup algo).getD ∅) port)
  other : ∀ algo, algo ∉ l.keys → r.algoPnl.lookup algo = p.algoPnl.lookup algo
  totalPnl : r.totalPnl = (l.map (algoValue lastTick p)).foldl (absorb unsetDouble) p.totalPnl

variable {lastTick}

theorem timerAlgo_repriced (p : Portfolio) (algo : String) (port : ContractData) :
    Repriced lastTick [⟨algo, port⟩] p (timerAlgo lastTick p algo port) where
  algoPortfolio := rfl
  mapping a := by
    simp only [timerAlgo, Table.lookup_insert_ite]
    split
    · next h => rw [h, Option.getD_some]
    · rfl
  algoPnl a port' h := by
    cases List.mem_singleton.mp h
    simp [timerAlgo]
  other a h := by
    have hne : a ≠ algo := by simpa using h
    simp [timerAlgo, hne]
  totalPnl := by
    simp only [timerAlgo, algoValue, List.map_cons, List.map_nil, List.foldl_cons, List.foldl_nil]
    split
    · next h =>
      cases hpnl : isUnsetDouble (pnlOf lastTick ((p.mktdMapping.lookup algo).getD ∅) port) with
      | true => rfl
      | false =>
        rw [hpnl, Bool.false_or] at h
        have htotal : p.totalPnl = unsetDouble := of_decide_eq_true h
        simp [absorb, htotal]
    · next h =>
      simp only [Bool.or_eq_true, not_or, Bool.not_eq_true] at h
      have htotal : p.totalPnl ≠ unsetDouble := by simpa [isUnsetDouble] using h.2
      simp [absorb, htotal, h.1]

theorem Repriced.trans {e : Sigma fun _ : String => ContractData}
    {l : List (Sigma fun _ : String => ContractData)} {p q r : Portfolio}
    (hpq : Repriced lastTick [e] p q) (hqr : Repriced lastTick l q r) (he : e.1 ∉ l.keys) :
    Repriced lastTick (e :: l) p r where
  algoPortfolio := hqr.algoPortfolio.trans hpq.algoPortfolio
  mapping algo := (hqr.mapping algo).trans (hpq.mapping algo)
  algoPnl algo port h := by
    obtain rfl | h := List.mem_cons.mp h
    · rw [hqr.other _ he]
      exact hpq.algoPnl _ _ (List.mem_singleton_self _)
    · rw [hqr.algoPnl algo port h, hpq.mapping]
  other algo h := by
    rw [List.keys_cons, List.mem_cons, not_or] at h
    rw [hqr.other algo h.2, hpq.other algo (by simpa using h.1)]
  totalPnl := by
    have hvalue : algoValue lastTick q = algoValue lastTick p := by
      funext e
      simp only [algoValue, hpq.mapping]
    rw [hqr.totalPnl, hpq.totalPnl, hvalue]
    rfl

theorem foldl_repriced {l : List (Sigma fun _ : String => ContractData)} (hl : l.NodupKeys)
    (p : Portfolio) :
    Repriced lastTick l p (l.foldl (fun p e => timerAlgo lastTick p e.1 e.2) p) := by
  induction l generalizing p with
  | nil => exact ⟨rfl, fun _ => rfl, by simp, fun _ _ => rfl, rfl⟩
  | cons e l ih =>
    rw [List.nodupKeys_cons] at hl
    exact (timerAlgo_repriced p e.1 e.2).trans (ih hl.2 _) hl.1

variable (lastTick)

theorem timerCb_repriced (p : Portfolio) (timer : Timer) :
    Repriced lastTick p.algoPortfolio.entries { p with totalPnl := 0 }
      (p.timerCb lastTick timer).1 :=
  foldl_repriced p.algoPortfolio.nodupKeys _

theorem timerCb_algoPnl {p : Portfolio} {algo : String} {port : ContractData}
    (h : p.algoPortfolio.lookup algo = some port) (timer : Timer) :
    (p.timerCb lastTick timer).1.algoPnl.lookup algo =
      some (pnlOf lastTick ((p.mktdMapping.lookup algo).getD ∅) port) :=
  (timerCb_repriced lastTick p timer).algoPnl algo port (AList.mem_lookup_iff.mp h)

theorem timerCb_algoPnl_other {p : Portfolio} {algo : String}
    (h : p.algoPortfolio.lookup algo = none) (timer : Timer) :
    (p.timerCb lastTick timer).1.algoPnl.lookup algo = p.algoPnl.lookup algo :=
  (timerCb_repriced lastTick p timer).other algo (AList.lookup_eq_none.mp h)

theorem timerCb_totalPnl (p : Portfolio) (timer : Timer) :
    (p.timerCb lastTick timer).1.totalPnl =
      total unsetDouble (p.algoPortfolio.entries.map (algoValue lastTick p)) :=
  (timerCb_repriced lastTick p timer).totalPnl

theorem timerCb_marketSymbol (p : Portfolio) (timer : Timer) (algo sym : String) :
    marketSymbol (p.timerCb lastTick timer).1 algo sym = marketSymbol p algo sym := by
  rw [marketSymbol, (timerCb_repriced lastTick p timer).mapping]
  rfl

theorem pnlOf_eq_unset_iff {p : Portfolio} {algo : String} {port : ContractData}
    (h : p.algoPortfolio.lookup algo = some port) :
    pnlOf lastTick ((p.mktdMapping.lookup algo).getD ∅) port = unsetDouble ↔
      Unticked lastTick p algo ∨ Saturated lastTick p algo := by
  rw [pnlOf_eq_total, total_eq_iff]
  refine or_congr ?_ ?_
  · simp only [Unticked, h, Option.some.injEq, exists_eq_left', List.mem_map, value,
      Option.map_eq_none_iff, marketSymbol]
    constructor
    · rintro ⟨⟨sym, pos⟩, he, hnone⟩
      exact ⟨sym, List.mem_keys_of_mem he, hnone⟩
    · rintro ⟨sym, hsym, hnone⟩
      obtain ⟨pos, hpos⟩ := List.exists_of_mem_keys hsym
      exact ⟨⟨sym, pos⟩, hpos, hnone⟩
  · simp [Saturated, h]

theorem timerCb_algoPnl_unset_iff {p : Portfolio} {algo : String} {port : ContractData}
    (h : p.algoPortfolio.lookup algo = some port) (timer : Timer) :
    (p.timerCb lastTick timer).1.algoPnl.lookup algo = some unsetDouble ↔
      Unticked lastTick p algo ∨ Saturated lastTick p algo := by
  rw [timerCb_algoPnl lastTick h, Option.some.injEq, pnlOf_eq_unset_iff lastTick h]

/-- The total is unset exactly if the PnL of some algorithm is, or the sum
happens to be. -/
theorem timerCb_totalPnl_unset_iff (p : Portfolio) (timer : Timer) :
    (p.timerCb lastTick timer).1.totalPnl = unsetDouble ↔
      (∃ algo, Unticked lastTick p algo ∨ Saturated lastTick p algo) ∨
        TotalSaturated lastTick p := by
  rw [timerCb_totalPnl, total_eq_iff]
  refine or_congr ?_ Iff.rfl
  simp only [List.mem_map, algoValue, isUnsetDouble, decide_eq_true_eq]
  constructor
  · rintro ⟨⟨algo, port⟩, he, hnone⟩
    refine ⟨algo, (pnlOf_eq_unset_iff lastTick (AList.mem_lookup_iff.mpr he)).mp ?_⟩
    by_contra hset
    simp [hset] at hnone
  · rintro ⟨algo, h⟩
    obtain ⟨port, hport⟩ : ∃ port, p.algoPortfolio.lookup algo = some port := by
      obtain ⟨port, hport, _⟩ | ⟨port, hport, _⟩ := h <;> exact ⟨port, hport⟩
    refine ⟨⟨algo, port⟩, AList.mem_lookup_iff.mp hport, ?_⟩
    simp [(pnlOf_eq_unset_iff lastTick hport).mpr h]

end CalmTrading.PortfolioPnl
