import CalmTrading.Lib.Channel
import CalmTrading.Valuation

namespace CalmTrading.TickStream

open Lib Lib.Channel Lib.History Objects Utils Gateway MarketData MarketFeed CalmTrading.Valuation

def callsOf (h : List (String × Callback)) (symbol : String) : List Callback :=
  h.filterMap fun p => if p.1 = symbol then some p.2 else none

/-- The tick of the last callback of a history, with all that came for its symbol. -/
def Shows (h : List (String × Callback)) (tick : TickData) : Prop :=
  (∃ c, h.getLast? = some (tick.symbol, c)) ∧
    Merged tick.symbol (callsOf h tick.symbol) tick

/-- Each tick on its way shows what had come when its callback was made, and the
manager what has been processed. -/
structure Streamed (f : Feed) : Prop where
  attributed : Attributed f
  transit : Lagging Shows (processed f) (tickEvents f.queue) f.heard
  shown : ∀ symbol, callsOf (processed f) symbol ≠ [] →
    ∃ tick, f.mgr.getLastTick symbol = some tick ∧ Merged symbol (callsOf (processed f) symbol) tick

theorem callsOf_snoc_self (h : List (String × Callback)) (symbol : String) (c : Callback) :
    callsOf (h ++ [(symbol, c)]) symbol = callsOf h symbol ++ [c] := by
  simp [callsOf]

theorem callsOf_snoc_ne (h : List (String × Callback)) {a : String × Callback} {symbol : String}
    (hne : a.1 ≠ symbol) : callsOf (h ++ [a]) symbol = callsOf h symbol := by
  simp [callsOf, hne]

theorem shows_heard {f g : Feed} {c : Callback} {tick : TickData} (hg : Attributed g)
    (hheard : g.heard = f.heard ++ [(tick.symbol, c)])
    (hq : tickEvents g.queue = tickEvents f.queue ++ [tick]) : Shows g.heard tick := by
  have hcalls : g.calls tick.symbol = callsOf g.heard tick.symbol := rfl
  have hne : g.calls tick.symbol ≠ [] := by
    rw [hcalls, hheard, callsOf_snoc_self]
    exact List.append_ne_nil_of_right_ne_nil _ (List.cons_ne_nil _ _)
  obtain ⟨cached, hcached, hm⟩ := hg.cached tick.symbol (hg.subscribed_of_calls hne)
  have hseen := hg.delivered tick.symbol hne
  rw [hq, seen_emit, if_pos rfl, hcached, Option.some.injEq] at hseen
  subst hseen
  exact ⟨⟨c, by simp [hheard]⟩, hm⟩

theorem subscribe_getLastTick (mgr : MarketDataManager) {symbol sym : String} {tick : TickData}
    (h : mgr.getLastTick sym = some tick) :
    (mgr.subscribe symbol).1.getLastTick sym = some tick := by
  simp only [MarketDataManager.subscribe, MarketDataManager.getLastTick] at h ⊢
  split
  · exact h
  · next hnew =>
    have hne : sym ≠ symbol := by
      rintro rfl
      exact hnew (Table.mem_iff_lookup.mpr ⟨tick, h⟩)
    rwa [AList.lookup_insert_ne hne]

theorem managerSubscribe_mgr {f g : Feed} {symbol : String} {delayed : Bool}
    (hg : f.step (.managerSubscribe symbol delayed) = some g) :
    g.mgr = (f.mgr.subscribe symbol).1 := by
  simp only [Feed.step, MarketDataManager.subscribe] at hg ⊢
  by_cases hnew : symbol ∈ f.mgr.lastTicks
  · simp only [hnew, if_true, Bool.false_eq_true, if_false, Option.some.injEq] at hg ⊢
    rw [← hg]
  · simp only [hnew, if_false, if_true] at hg ⊢
    obtain ⟨out, _, rfl⟩ := toOption_map_eq_some.mp hg
    rfl

namespace Streamed

variable {f g : Feed}

theorem kept (h : Streamed f) (hg : Attributed g) (hheard : g.heard = f.heard)
    (hq : tickEvents g.queue = tickEvents f.queue)
    (hmgr : ∀ symbol tick, f.mgr.getLastTick symbol = some tick →
      g.mgr.getLastTick symbol = some tick) : Streamed g where
  attributed := hg
  transit := by
    rw [processed_congr hheard hq, hheard, hq]
    exact h.transit
  shown symbol hcalls := by
    rw [processed_congr hheard hq] at hcalls ⊢
    obtain ⟨tick, htick, hm⟩ := h.shown symbol hcalls
    exact ⟨tick, hmgr symbol tick htick, hm⟩

theorem heard (h : Streamed f) (hg : Attributed g) {c : Callback} {tick : TickData}
    (hheard : g.heard = f.heard ++ [(tick.symbol, c)])
    (hq : tickEvents g.queue = tickEvents f.queue ++ [tick]) (hmgr : g.mgr = f.mgr) :
    Streamed g := by
  have hshows := shows_heard hg hheard hq
  rw [hheard] at hshows
  have htransit : Lagging Shows (processed f) (tickEvents g.queue) g.heard := by
    rw [hq, hheard]
    exact h.transit.send hshows
  have hprocessed : processed g = processed f := htransit.eq_take
  exact ⟨hg, hprocessed ▸ htransit, by rw [hprocessed, hmgr]; exact h.shown⟩

theorem dispatched (h : Streamed f) (hg : Attributed g) {d : TickData}
    (hheard : g.heard = f.heard) (hq : tickEvents f.queue = d :: tickEvents g.queue)
    (hmgr : g.mgr = f.mgr.updateTicks d) : Streamed g := by
  have htransit := h.transit
  rw [hq] at htransit
  cases htransit with
  | @cons _ _ a _ _ hshows hrest =>
    rw [← hheard] at hrest
    have hprocessed : processed g = processed f ++ [a] := hrest.eq_take
    obtain ⟨⟨c, hlast⟩, hm⟩ := hshows
    obtain rfl : a = (d.symbol, c) := by simpa using hlast
    refine ⟨hg, hprocessed ▸ hrest, fun symbol hcalls => ?_⟩
    rw [hprocessed] at hcalls ⊢
    by_cases hsym : symbol = d.symbol
    · subst hsym
      refine ⟨d, ?_, hm⟩
      rw [hmgr]
      exact AList.lookup_insert _
    · rw [callsOf_snoc_ne _ (Ne.symm hsym)] at hcalls ⊢
      obtain ⟨tick, htick, hm⟩ := h.shown symbol hcalls
      refine ⟨tick, ?_, hm⟩
      rw [hmgr, ← htick]
      exact AList.lookup_insert_ne hsym

theorem step (h : Streamed f) {m : MarketData.Move} (hg : f.step m = some g) : Streamed g := by
  have hattr : Attributed g := h.attributed.step hg
  cases feed_ticks h.attributed hg with
  | quiet _ hheard hq hmgr => exact h.kept hattr hheard hq fun _ _ => hmgr ▸ id
  | asked hheard hq _ =>
    apply h.kept hattr hheard hq
    intro sym tick htick
    rw [managerSubscribe_mgr hg]
    exact subscribe_getLastTick _ htick
  | heard hheard hq hmgr => exact h.heard hattr hheard hq hmgr
  | dispatched hheard hq hmgr => exact h.dispatched hattr hheard hq hmgr

theorem enqueued (h : Streamed f) {events : List Event} (hev : tickEvents events = []) :
    Streamed { f with queue := f.queue ++ events } := by
  apply h.kept (h.attributed.enqueued hev) rfl
  · rw [tickEvents_append, hev, List.append_nil]
  · exact fun _ _ => id

end Streamed

theorem streamed_init : Streamed {} :=
  ⟨.init, .nil, fun _ hcalls => absurd rfl hcalls⟩

def lastTrade (f : Feed) (symbol : String) : Option Double :=
  ((callsOf (processed f) symbol).filterMap trade?).getLast?.map Prod.fst

theorem lastTrade_eq_none_iff {f : Feed} {symbol : String} :
    lastTrade f symbol = none ↔ ¬ Traded f symbol := by
  simp only [lastTrade, Option.map_eq_none_iff, List.getLast?_eq_none_iff,
    List.filterMap_eq_nil_iff, callsOf, List.mem_filterMap]
  constructor
  · rintro hnone ⟨c, hmem, htrade⟩
    rw [hnone c ⟨(symbol, c), hmem, by simp⟩] at htrade
    cases htrade
  · rintro htraded c ⟨⟨sym, c'⟩, hmem, hif⟩
    split at hif
    · next hsym =>
      cases hif
      have hsym : sym = symbol := hsym
      subst hsym
      by_contra htrade
      exact htraded ⟨_, hmem, Option.isSome_iff_ne_none.mpr htrade⟩
    · cases hif

theorem Streamed.lastPrice {f : Feed} (h : Streamed f) {symbol : String} {price : Double}
    (htrade : lastTrade f symbol = some price) :
    ∃ tick, f.mgr.getLastTick symbol = some tick ∧ tick.symbol = symbol ∧
      tick.lastPrice = price := by
  obtain ⟨⟨price, size⟩, hlast, rfl⟩ := Option.map_eq_some_iff.mp htrade
  have hcalls : callsOf (processed f) symbol ≠ [] := by
    intro hnil
    simp [hnil] at hlast
  obtain ⟨tick, htick, hm⟩ := h.shown symbol hcalls
  refine ⟨tick, htick, hm.symbol, ?_⟩
  have hpair := hm.trade
  rw [lastOf, hlast, Option.getD_some] at hpair
  exact congrArg Prod.fst hpair

end CalmTrading.TickStream
