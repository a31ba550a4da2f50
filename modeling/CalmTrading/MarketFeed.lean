import CalmTrading.Lib.Channel
import CalmTrading.MarketData
import CalmTrading.Requests

namespace CalmTrading.MarketFeed

open Lib Lib.History Lib.Channel Objects Utils Gateway Requests MarketData

/-- A tick callback is one overwrite of the cached tick; the other callbacks
leave the market data alone. -/
theorem callback_ticks {api : IBApi} {c : Callback} {out : Out} (h : api.callback c = .ok out) :
    (∃ id f, tickReqId? c = some id ∧ out = api.updateTick id f ∧
      ∀ symbol calls tick, Merged symbol calls tick → Merged symbol (calls ++ [c]) (f tick)) ∨
    (tickReqId? c = none ∧ out.api.ticks = api.ticks ∧ out.api.reqId2sym = api.reqId2sym ∧
      out.api.sym2reqIds = api.sym2reqIds ∧ out.api.mReqId = api.mReqId ∧
      tickEvents out.events = [] ∧ out.client = []) := by
  cases c with
  | tickByTickBidAsk id time bidPrice askPrice bidSize askSize =>
    cases h
    refine .inl ⟨id, _, rfl, rfl, fun symbol calls tick hm => ⟨hm.symbol, ?_, ?_, ?_⟩⟩
    · rw [lastOf_snoc, ← hm.trade]; rfl
    · rw [lastOf_snoc]; rfl
    · rw [lastOf_snoc]; rfl
  | tickByTickAllLast id time price size =>
    cases h
    refine .inl ⟨id, _, rfl, rfl, fun symbol calls tick hm => ⟨hm.symbol, ?_, ?_, ?_⟩⟩
    · rw [lastOf_snoc]; rfl
    · rw [lastOf_snoc, ← hm.quote]; rfl
    · rw [lastOf_snoc]; rfl
  | nextValidId id => cases h; exact .inr ⟨rfl, rfl, rfl, rfl, rfl, rfl, rfl⟩
  | historicalData bar => cases h; exact .inr ⟨rfl, rfl, rfl, rfl, rfl, rfl, rfl⟩
  | historicalDataEnd barEnd => cases h; exact .inr ⟨rfl, rfl, rfl, rfl, rfl, rfl, rfl⟩
  | error msg =>
    cases h
    refine .inr ⟨rfl, ?_⟩
    rw [IBApi.error, IBApi.updateOrder]
    cases api.orders.find? msg.id <;> exact ⟨rfl, rfl, rfl, rfl, rfl, rfl⟩
  | openOrder id commission =>
    cases h
    refine .inr ⟨rfl, ?_⟩
    rw [IBApi.openOrder, IBApi.updateOrder]
    cases isUnsetDouble commission <;> cases api.orders.find? id <;>
      exact ⟨rfl, rfl, rfl, rfl, rfl, rfl⟩
  | orderStatus id status filled avg =>
    refine .inr ⟨rfl, ?_⟩
    simp only [IBApi.callback, IBApi.orderStatus, IBApi.updateOrder] at h
    split at h
    · cases h
    · cases h
      cases api.orders.find? id <;> exact ⟨rfl, rfl, rfl, rfl, rfl, rfl⟩

/-- What holds of a feed in every reachable state. The last two fields follow
a tick from the callback through the cache and the event queue. -/
structure Attributed (s : Feed) : Prop where
  ids : (s.requests.map Prod.fst).Nodup
  below : ∀ r ∈ s.requests, r.1 < s.api.mReqId
  owner : ∀ id symbol, s.api.reqId2sym.lookup id = some symbol ↔ (id, some symbol) ∈ s.requests
  subscribed : ∀ id symbol, (id, some symbol) ∈ s.requests → symbol ∈ s.api.sym2reqIds
  heard : ∀ symbol, symbol ∉ s.api.sym2reqIds → s.calls symbol = []
  cached : ∀ symbol, symbol ∈ s.api.sym2reqIds →
    ∃ tick, s.api.ticks.lookup symbol = some tick ∧ Merged symbol (s.calls symbol) tick
  delivered : ∀ symbol, s.calls symbol ≠ [] →
    seen TickData.symbol s.mgr.lastTicks (tickEvents s.queue) symbol = s.api.ticks.lookup symbol

theorem Merged.new (symbol : String) : Merged symbol [] { symbol := symbol } :=
  ⟨rfl, rfl, rfl, rfl⟩

namespace Attributed

variable {s : Feed} (hs : Attributed s)
include hs

theorem owner?_eq {c : Callback} {id : Int} (hc : tickReqId? c = some id) :
    s.owner? c = s.api.reqId2sym.lookup id := by
  simp only [Feed.owner?, hc, Option.bind_some]
  cases hf : s.requests.findSome? fun r => if r.1 = id then r.2 else none with
  | some symbol =>
    obtain ⟨r, hr, hif⟩ := List.exists_of_findSome?_eq_some hf
    split at hif
    · next hid =>
      subst hid
      exact (hs.owner r.1 symbol).mpr (hif ▸ hr) |>.symm
    · cases hif
  | none =>
    refine (Option.eq_none_iff_forall_ne_some.mpr fun symbol hsymbol => ?_).symm
    have hmem := (hs.owner id symbol).mp hsymbol
    have := List.findSome?_eq_none_iff.mp hf _ hmem
    simp at this

theorem fresh {id : Int} (hid : s.api.mReqId ≤ id) (owner : Option String) :
    (id, owner) ∉ s.requests := by
  intro hmem
  have := hs.below _ hmem
  dsimp only at this
  omega

theorem subscribed_of_calls {symbol : String} (h : s.calls symbol ≠ []) :
    symbol ∈ s.api.sym2reqIds := by
  by_contra hnot
  exact h (hs.heard symbol hnot)

theorem ids_append {new : List (Int × Option String)} (hnew : (new.map Prod.fst).Nodup)
    (hge : ∀ r ∈ new, s.api.mReqId ≤ r.1) : ((s.requests ++ new).map Prod.fst).Nodup := by
  rw [List.map_append, List.nodup_append]
  refine ⟨hs.ids, hnew, fun a ha b hb => ?_⟩
  obtain ⟨r, hr, rfl⟩ := List.mem_map.mp ha
  obtain ⟨r', hr', rfl⟩ := List.mem_map.mp hb
  have hlt := hs.below r hr
  have hle := hge r' hr'
  omega

theorem requested :
    Attributed { s with
      api := { s.api with mReqId := s.api.mReqId + 1 }
      requests := s.requests ++ [(s.api.mReqId, none)] } where
  ids := hs.ids_append (by simp) (by simp)
  below r hr := by
    obtain hr | hr := List.mem_append.mp hr
    · have := hs.below r hr
      dsimp only
      omega
    · rw [List.mem_singleton.mp hr]
      dsimp only
      omega
  owner id symbol := by simpa using hs.owner id symbol
  subscribed id symbol h := hs.subscribed id symbol (by simpa using h)
  heard := hs.heard
  cached := hs.cached
  delivered := hs.delivered

theorem requestedTicks {symbol : String} (hnew : symbol ∉ s.api.sym2reqIds) :
    Attributed { s with
      api := { s.api with
        sym2reqIds := s.api.sym2reqIds.insert symbol (s.api.mReqId, s.api.mReqId + 1)
        reqId2sym := (s.api.reqId2sym.insert s.api.mReqId symbol).insert (s.api.mReqId + 1) symbol
        ticks := s.api.ticks.insert symbol { symbol := symbol }
        mReqId := s.api.mReqId + 1 + 1 }
      requests := s.requests ++ [(s.api.mReqId, some symbol), (s.api.mReqId + 1, some symbol)] } where
  ids := by
    apply hs.ids_append (by simp)
    intro r hr
    simp only [List.mem_cons, List.not_mem_nil, or_false] at hr
    obtain rfl | rfl := hr
    · exact Int.le_refl _
    · exact Int.le_add_one (Int.le_refl _)
  below r hr := by
    simp only [List.mem_append, List.mem_cons, List.not_mem_nil, or_false] at hr
    dsimp only
    obtain hr | rfl | rfl := hr
    · have := hs.below r hr
      omega
    · dsimp only
      omega
    · dsimp only
      omega
  owner id sym := by
    simp only [Table.lookup_insert_ite, List.mem_append, List.mem_cons, Prod.mk.injEq,
      Option.some.injEq, List.not_mem_nil, or_false]
    by_cases h1 : id = s.api.mReqId + 1
    · subst h1
      have hfresh := hs.fresh (show s.api.mReqId ≤ s.api.mReqId + 1 by omega) (some sym)
      simp [hfresh, eq_comm]
    by_cases h0 : id = s.api.mReqId
    · subst h0
      have hfresh := hs.fresh (Int.le_refl s.api.mReqId) (some sym)
      simp [hfresh, eq_comm]
    · simpa [h0, h1] using hs.owner id sym
  subscribed id sym h := by
    simp only [List.mem_append, List.mem_cons, Prod.mk.injEq, Option.some.injEq,
      List.not_mem_nil, or_false] at h
    rw [AList.mem_insert]
    obtain h | ⟨_, rfl⟩ | ⟨_, rfl⟩ := h
    · exact .inr (hs.subscribed id sym h)
    · exact .inl rfl
    · exact .inl rfl
  heard sym h := hs.heard sym fun hmem => h ((AList.mem_insert _).mpr (.inr hmem))
  cached sym h := by
    rw [Table.lookup_insert_ite]
    split
    · next he =>
      subst he
      have hcalls := hs.heard sym hnew
      exact ⟨_, rfl, hcalls ▸ Merged.new sym⟩
    · next hne => exact hs.cached sym (((AList.mem_insert _).mp h).resolve_left hne)
  delivered sym h := by
    have hne : sym ≠ symbol := fun he => hnew (he ▸ hs.subscribed_of_calls h)
    rw [AList.lookup_insert_ne hne]
    exact hs.delivered sym h

theorem reserved {symbol : String} (hnew : symbol ∉ s.mgr.lastTicks) :
    Attributed { s with mgr := { lastTicks := s.mgr.lastTicks.insert symbol {} } } where
  ids := hs.ids
  below := hs.below
  owner := hs.owner
  subscribed := hs.subscribed
  heard := hs.heard
  cached := hs.cached
  delivered sym h := by
    obtain ⟨tick, htick, _⟩ := hs.cached sym (hs.subscribed_of_calls h)
    have hseen := hs.delivered sym h
    rw [htick] at hseen ⊢
    exact seen_insert_absent hnew hseen

theorem ticked {c : Callback} {id : Int} {f : TickData → TickData} {symbol : String}
    (hc : tickReqId? c = some id)
    (hf : ∀ symbol calls tick, Merged symbol calls tick → Merged symbol (calls ++ [c]) (f tick))
    (hsym : s.api.reqId2sym.lookup id = some symbol) :
    Attributed ((s.hear c).after none (s.api.updateTick id f)) := by
  obtain ⟨tick, htick, hm⟩ := hs.cached symbol
    (hs.subscribed id symbol ((hs.owner id symbol).mp hsym))
  have hm' := hf _ _ _ hm
  have hout : s.api.updateTick id f =
      { api := { s.api with ticks := s.api.ticks.insert symbol (f tick) }
        events := [.tickData (f tick)] } := by
    simp [IBApi.updateTick, hsym, htick]
  have hcalls : ∀ sym, ((s.hear c).after none (s.api.updateTick id f)).calls sym =
      if sym = symbol then s.calls symbol ++ [c] else s.calls sym := by
    intro sym
    simp only [Feed.calls, Feed.after, Feed.hear, hs.owner?_eq hc, hsym, Option.toList_some,
      List.map_cons, List.map_nil, List.filterMap_append]
    by_cases he : sym = symbol
    · subst he
      simp
    · simp [he, Ne.symm he]
  have hrequests : ((s.hear c).after none (s.api.updateTick id f)).requests = s.requests := by
    simp [Feed.after, Feed.hear, hout, Feed.issued]
  refine ⟨?_, ?_, ?_, ?_, fun sym h => ?_, fun sym h => ?_, fun sym h => ?_⟩
  · exact hrequests ▸ hs.ids
  · rw [hrequests, hout]
    exact hs.below
  · rw [hrequests, hout]
    exact hs.owner
  · rw [hrequests, hout]
    exact hs.subscribed
  · rw [hout] at h
    rw [hcalls, if_neg]
    · exact hs.heard sym h
    · rintro rfl
      exact h (hs.subscribed id sym ((hs.owner id sym).mp hsym))
  · rw [hout] at h
    rw [hcalls]
    show ∃ t, (s.api.updateTick id f).api.ticks.lookup sym = some t ∧ _
    rw [hout]
    simp only [Table.lookup_insert_ite]
    split
    · next he => exact ⟨f tick, rfl, he ▸ hm'⟩
    · exact hs.cached sym h
  · rw [hcalls] at h
    show seen TickData.symbol s.mgr.lastTicks
      (tickEvents (s.queue ++ (s.api.updateTick id f).events)) sym =
        (s.api.updateTick id f).api.ticks.lookup sym
    rw [hout, tickEvents_append]
    show seen TickData.symbol s.mgr.lastTicks (tickEvents s.queue ++ [f tick]) sym = _
    rw [seen_emit, hm'.symbol]
    simp only [Table.lookup_insert_ite]
    split at h
    · next he => simp [he]
    · next hne =>
      simp only [hne, if_false]
      exact hs.delivered sym h

theorem unticked {c : Callback} {id : Int} {f : TickData → TickData}
    (hc : tickReqId? c = some id) (hid : s.api.reqId2sym.lookup id = none) :
    (s.hear c).after none (s.api.updateTick id f) = s := by
  have hout : s.api.updateTick id f = { api := s.api } := by simp [IBApi.updateTick, hid]
  simp [hout, Feed.after, Feed.hear, hs.owner?_eq hc, hid, Feed.issued]

theorem dispatched {d : TickData} {rest : List Event} (hq : s.queue = .tickData d :: rest) :
    Attributed { s with queue := rest, mgr := s.mgr.updateTicks d } where
  ids := hs.ids
  below := hs.below
  owner := hs.owner
  subscribed := hs.subscribed
  heard := hs.heard
  cached := hs.cached
  delivered symbol h := by
    have hseen := hs.delivered symbol h
    rw [hq] at hseen
    exact (seen_deliver _ _ _ _).trans hseen

theorem skipped {e : Event} {rest : List Event} (hq : s.queue = e :: rest)
    (he : e.tickData? = none) : Attributed { s with queue := rest } where
  ids := hs.ids
  below := hs.below
  owner := hs.owner
  subscribed := hs.subscribed
  heard := hs.heard
  cached := hs.cached
  delivered symbol h := by
    have hseen := hs.delivered symbol h
    rwa [hq, tickEvents, List.filterMap_cons_none he] at hseen

theorem enqueued {events : List Event} (hev : tickEvents events = []) :
    Attributed { s with queue := s.queue ++ events } where
  ids := hs.ids
  below := hs.below
  owner := hs.owner
  subscribed := hs.subscribed
  heard := hs.heard
  cached := hs.cached
  delivered symbol h := by
    rw [tickEvents_append, hev, List.append_nil]
    exact hs.delivered symbol h

theorem subscribe {symbol : String} {delayed : Bool} {out : Out}
    (h : s.api.subscribe symbol delayed = .ok out) : Attributed (s.after (some symbol) out) := by
  obtain ⟨rfl, _⟩ | ⟨_, hnew, contract, _, hapi, hevents, hclient⟩ := subscribe_cases h
  · simpa [Feed.after, Feed.issued] using hs
  · simpa [Feed.after, Feed.issued, hapi, hevents, hclient, ClientMsg.reqId?] using
      hs.requestedTicks hnew

theorem callback {c : Callback} {out : Out} (h : s.api.callback c = .ok out) :
    Attributed ((s.hear c).after none out) := by
  obtain ⟨id, f, hc, rfl, hf⟩ | ⟨hc, hticks, hr2s, hs2r, hm, hev, hcl⟩ := callback_ticks h
  · cases hsym : s.api.reqId2sym.lookup id with
    | none => rwa [hs.unticked hc hsym]
    | some symbol => exact hs.ticked hc hf hsym
  · have howner : s.owner? c = none := by simp [Feed.owner?, hc]
    have hcalls : ((s.hear c).after none out).calls = s.calls := by
      funext symbol
      simp [Feed.calls, Feed.after, Feed.hear, howner]
    have hrequests : ((s.hear c).after none out).requests = s.requests := by
      simp [Feed.after, Feed.hear, hcl, Feed.issued]
    have hapi : ((s.hear c).after none out).api = out.api := rfl
    have hseen : tickEvents ((s.hear c).after none out).queue = tickEvents s.queue := by
      simp [Feed.after, Feed.hear, hev]
    constructor
    · exact hrequests ▸ hs.ids
    · rw [hrequests, hapi, hm]
      exact hs.below
    · rw [hrequests, hapi, hr2s]
      exact hs.owner
    · rw [hrequests, hapi, hs2r]
      exact hs.subscribed
    · rw [hapi, hs2r, hcalls]
      exact hs.heard
    · rw [hapi, hs2r, hcalls, hticks]
      exact hs.cached
    · rw [hcalls, hseen, hapi, hticks]
      exact hs.delivered

end Attributed

theorem Attributed.init : Attributed {} := by
  constructor <;> simp [Feed.calls]

theorem Attributed.step {s t : Feed} {a : Move} (hs : Attributed s) (h : s.step a = some t) :
    Attributed t := by
  cases a with
  | session running =>
    cases h
    exact { hs with }
  | subscribe symbol delayed =>
    obtain ⟨out, hout, rfl⟩ := toOption_map_eq_some.mp h
    exact hs.subscribe hout
  | managerSubscribe symbol delayed =>
    simp only [Feed.step, MarketDataManager.subscribe] at h
    by_cases hnew : symbol ∈ s.mgr.lastTicks
    · simp only [hnew, if_true, Bool.false_eq_true, if_false, Option.some.injEq] at h
      exact h ▸ hs
    · simp only [hnew, if_false, if_true] at h
      obtain ⟨out, hout, rfl⟩ := toOption_map_eq_some.mp h
      exact (hs.reserved hnew).subscribe hout
  | reqHistoricalBar symbol endTime duration barSize wts useRth format =>
    obtain ⟨⟨reqId, out⟩, hout, rfl⟩ := toOption_map_eq_some.mp h
    obtain ⟨rfl, contract, rfl⟩ := reqHistoricalBar_eq_ok hout
    simpa [Feed.after, Feed.issued, ClientMsg.reqId?] using hs.requested
  | reqContractDetails symbol =>
    obtain ⟨out, hout, rfl⟩ := toOption_map_eq_some.mp h
    obtain ⟨contract, rfl⟩ := reqContractDetails_eq_ok hout
    simpa [Feed.after, Feed.issued, ClientMsg.reqId?] using hs.requested
  | callback c =>
    obtain ⟨out, hout, rfl⟩ := toOption_map_eq_some.mp h
    exact hs.callback hout
  | dispatch =>
    simp only [Feed.step] at h
    split at h
    · cases h
    · next d rest hq => cases h; exact hs.dispatched hq
    · next e rest hne hq =>
      cases h
      apply hs.skipped hq
      cases e <;> first | rfl | exact absurd rfl (hne _)

theorem attributed {s : Feed} (h : feed.Reachable s) : Attributed s :=
  Machine.Reaches.invariant (I := Attributed) .init (fun _ _ _ _ hs _ ht => hs.step ht) h

/-- Request ids are never shared, a tick callback for any other id changes
nothing, and once the tick events are dispatched the manager holds for each
symbol what came for its own requests. -/
theorem last_tick_merges_callbacks {s : Feed} (h : feed.Reachable s) :
    (s.requests.map Prod.fst).Nodup ∧
    (∀ c id, tickReqId? c = some id → (∀ symbol, (id, some symbol) ∉ s.requests) →
      feed.step s (.callback c) = some s) ∧
    (tickEvents s.queue = [] → ∀ symbol, s.calls symbol ≠ [] →
      ∃ tick, s.mgr.getLastTick symbol = some tick ∧ Merged symbol (s.calls symbol) tick) := by
  have hs := attributed h
  refine ⟨hs.ids, fun c id hc hid => ?_, fun hq symbol hcalls => ?_⟩
  · have hnone : s.api.reqId2sym.lookup id = none :=
      Option.eq_none_iff_forall_ne_some.mpr fun symbol hsym =>
        hid symbol ((hs.owner id symbol).mp hsym)
    have hstep : feed.step s (.callback c) =
        (s.api.callback c).toOption.map ((s.hear c).after none) := rfl
    cases c with
    | tickByTickBidAsk | tickByTickAllLast =>
      cases hc
      exact hstep.trans (congrArg some (hs.unticked rfl hnone))
    | _ => cases hc
  · obtain ⟨tick, htick, hm⟩ := hs.cached symbol (hs.subscribed_of_calls hcalls)
    have hseen := hs.delivered symbol hcalls
    rw [hq, seen_nil, htick] at hseen
    exact ⟨tick, hseen, hm⟩

/-- A subscription, a download drawing from the same counter, a trade and a
quote, all dispatched. -/
def quoted : Feed :=
  feed.stateAfter
    [.session true, .managerSubscribe "6758-STK-JPY.TSEJ" false,
      .reqHistoricalBar "7203-STK-JPY.TSEJ" "20250110-00:00:00" "2 D" "5 secs" "TRADES" 1 2,
      .callback (.tickByTickAllLast 10000000 7 25 100),
      .callback (.tickByTickBidAsk 10000001 9 24 26 3 4), .dispatch, .dispatch]
    (by decide +kernel)

theorem last_tick_merges_callbacks_quoted :
    quoted.calls "6758-STK-JPY.TSEJ" ≠ [] ∧
    ∃ tick, quoted.mgr.getLastTick "6758-STK-JPY.TSEJ" = some tick ∧
      Merged "6758-STK-JPY.TSEJ" (quoted.calls "6758-STK-JPY.TSEJ") tick :=
  have hcalls : quoted.calls "6758-STK-JPY.TSEJ" ≠ [] := by decide +kernel
  ⟨hcalls, (last_tick_merges_callbacks (Machine.reachable_stateAfter _)).2.2 (by decide +kernel) _
    hcalls⟩

end CalmTrading.MarketFeed
