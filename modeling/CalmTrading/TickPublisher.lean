import CalmTrading.Algo
import CalmTrading.TickStream

namespace CalmTrading.TickPublisher

open Lib Lib.Bytes Objects Utils Gateway MarketData CalmTrading.Valuation TickStream
open Algo (AlgoEngine PosMsg TickMsg tickMsg)
open Risk (TradingEngine)

/-- A message, with the price of the latest trade processed when it was sent. -/
structure Published where
  msg : TickMsg
  trade : Option Double

/-- The market data with the engine behind them. `acting` says that `start` has
come to its end. `published` is history, oldest first. -/
structure Publisher where
  feed : Feed := {}
  running : Bool := false
  acting : Bool := false
  q : List Event := []
  published : List Published := []

/-- `mqMessage` also stands for an update that `update_pos_cb` puts back. -/
inductive Move
  | feed (m : MarketData.Move)
  | post (e : Event)
  | start
  | subscribe
  | mqMessage (update : PosUpdate)
  | act

def copied (mktDataSymbol : String) : Event → Bool
  | .tickData d => d.symbol = mktDataSymbol
  | .timer timer => timer.sec = 0 || timer.sec = 30
  | .orderData _ => true
  | _ => false

namespace Publisher

def dispatched (mktDataSymbol : String) (s : Publisher) (e : Event) : List Event :=
  if s.running && copied mktDataSymbol e then s.q ++ [e] else s.q

def timerCb (mktDataSymbol : String) (s : Publisher) : Option Publisher :=
  (s.feed.mgr.getLastTick mktDataSymbol).map fun tick =>
    { s with published := s.published ++ [⟨tickMsg tick, lastTrade s.feed mktDataSymbol⟩] }

/-- The other callbacks of `run_actions` publish nothing. `start` raises its flag
first, and creates its threads when it has subscribed. -/
def step (mktDataSymbol : String) (s : Publisher) : Move → Option Publisher
  | .feed m =>
    (s.feed.step m).map fun f =>
      { s with feed := f, q := (dispatched? s.feed m).elim s.q (s.dispatched mktDataSymbol) }
  | .post e =>
    if e.tickData? = none then
      some { s with feed := { s.feed with queue := s.feed.queue ++ [e] } }
    else none
  | .start => if s.running then none else some { s with running := true }
  | .subscribe =>
    if s.running && !s.acting then
      (s.feed.step (.managerSubscribe mktDataSymbol false)).map fun f =>
        { s with feed := f, acting := true }
    else none
  | .mqMessage update => if s.acting then some { s with q := s.q ++ [.algoPosUpdate update] } else none
  | .act =>
    match s.acting, s.q with
    | true, .timer _ :: rest => { s with q := rest }.timerCb mktDataSymbol
    | true, _ :: rest => some { s with q := rest }
    | _, _ => none

end Publisher

/-- What a `Publisher` shows of the engine. -/
structure Shows (mktDataSymbol : String) (a : AlgoEngine) (s : Publisher) : Prop where
  mktDataSymbol : a.mktDataSymbol = mktDataSymbol
  running : a.running = s.running
  q : a.q = s.q

theorem Shows.dispatched {mktDataSymbol : String} {a : AlgoEngine} {s : Publisher}
    (h : Shows mktDataSymbol a s) (e : Event) :
    (a.eventEngineCb e).q = s.dispatched mktDataSymbol e := by
  obtain ⟨rfl, hrunning, hq⟩ := h
  rw [Publisher.dispatched, ← hrunning, ← hq]
  cases hrun : a.running with
  | false =>
    cases e <;> simp [AlgoEngine.eventEngineCb, AlgoEngine.eventEngineTickCb,
      AlgoEngine.eventEngineTimerCb, AlgoEngine.eventEngineOrderCb, hrun]
  | true =>
    cases e with
    | tickData data =>
      simp only [AlgoEngine.eventEngineCb, AlgoEngine.eventEngineTickCb, copied, hrun]
      by_cases hsymbol : data.symbol = a.mktDataSymbol <;> simp [hsymbol, AlgoEngine.push]
    | timer timer =>
      simp only [AlgoEngine.eventEngineCb, AlgoEngine.eventEngineTimerCb, copied, hrun]
      by_cases hdue : timer.sec = 0 ∨ timer.sec = 30 <;> simp [hdue, AlgoEngine.push]
    | orderData d =>
      simp [AlgoEngine.eventEngineCb, AlgoEngine.eventEngineOrderCb, copied, hrun, AlgoEngine.push]
    | _ => simp [AlgoEngine.eventEngineCb, copied]

/-- The messages that `timer_cb` publishes, where publishing works. -/
theorem timerCb_published (mktDataSymbol : String) (a : AlgoEngine) (t : TradingEngine)
    (s : Publisher) :
    (s.timerCb mktDataSymbol).map Publisher.published =
      (a.timerCb t (s.feed.mgr.getLastTick mktDataSymbol) true).toOption.map fun r =>
        s.published ++ r.published.map (⟨·, lastTrade s.feed mktDataSymbol⟩) := by
  rw [Publisher.timerCb]
  cases s.feed.mgr.getLastTick mktDataSymbol <;> rfl

def publisher (mktDataSymbol : String) : Machine Publisher Move where
  init := {}
  step := Publisher.step mktDataSymbol

/-- Each message, when read back, is about the symbol and has the price of its
latest trade. -/
def Real (mktDataSymbol : String) (s : Publisher) : Prop :=
  ∀ p ∈ s.published, cstr p.msg.symbol = some (bytes mktDataSymbol) ∧
    p.trade = some p.msg.lastPrice

/-- When a timer is handled a trade of the symbol has been processed, and the
symbol leaves room for a NUL in the field and has none itself. -/
def Timely (mktDataSymbol : String) (s : Publisher) : Move → Prop
  | .act => ∀ timer, s.q.head? = some (.timer timer) →
      Traded s.feed mktDataSymbol ∧ 0 ∉ bytes mktDataSymbol ∧ (bytes mktDataSymbol).length < 32
  | _ => True

structure Subscribed (mktDataSymbol : String) (s : Publisher) : Prop where
  streamed : Streamed s.feed
  subscribed : s.acting = true → mktDataSymbol ∈ s.feed.mgr.lastTicks

variable {mktDataSymbol : String} {s t : Publisher}

theorem lastTicks_mono {f g : Feed} {m : MarketData.Move} (hf : MarketFeed.Attributed f)
    (hg : f.step m = some g) {symbol : String} (h : symbol ∈ f.mgr.lastTicks) :
    symbol ∈ g.mgr.lastTicks := by
  cases feed_ticks hf hg with
  | quiet _ _ _ hmgr => rwa [hmgr]
  | asked _ _ hmgr => exact (hmgr symbol).mpr (.inr h)
  | heard _ _ hmgr => rwa [hmgr]
  | dispatched _ _ hmgr =>
    rw [hmgr]
    exact (AList.mem_insert _).mpr (.inr h)

inductive Moved (mktDataSymbol : String) (s : Publisher) : Move → Publisher → Prop
  | quiet {a : Move} {t : Publisher} (ha : Timely mktDataSymbol s a)
      (hstreamed : Streamed s.feed → Streamed t.feed)
      (hsubscribed : Streamed s.feed → (s.acting = true → mktDataSymbol ∈ s.feed.mgr.lastTicks) →
        t.acting = true → mktDataSymbol ∈ t.feed.mgr.lastTicks)
      (hpublished : t.published = s.published) : Moved mktDataSymbol s a t
  | published {timer : Timer} {rest : List Event} {tick : TickData}
      (hq : s.q = .timer timer :: rest)
      (htick : s.feed.mgr.getLastTick mktDataSymbol = some tick) :
      Moved mktDataSymbol s .act
        { s with
          q := rest
          published := s.published ++ [⟨tickMsg tick, lastTrade s.feed mktDataSymbol⟩] }

theorem subscribed_lastTicks {f g : Feed} {symbol : String} {delayed : Bool}
    (hg : f.step (.managerSubscribe symbol delayed) = some g) : symbol ∈ g.mgr.lastTicks := by
  rw [managerSubscribe_mgr hg, MarketDataManager.subscribe]
  split
  · next h => exact h
  · exact (AList.mem_insert _).mpr (.inl rfl)

theorem step_moved {a : Move} (ht : (publisher mktDataSymbol).step s a = some t) :
    Moved mktDataSymbol s a t := by
  cases a with
  | feed m =>
    obtain ⟨g, hg, rfl⟩ := Option.map_eq_some_iff.mp ht
    refine .quiet trivial (fun h => h.step hg) (fun h hsub hacting => ?_) rfl
    exact lastTicks_mono h.attributed hg (hsub hacting)
  | post e =>
    simp only [publisher, Publisher.step] at ht
    split at ht
    · next he =>
      cases ht
      exact .quiet trivial (fun h => h.enqueued (by simp [tickEvents, he])) (fun _ => id) rfl
    · cases ht
  | start =>
    simp only [publisher, Publisher.step] at ht
    split at ht
    · cases ht
    · cases ht
      exact .quiet trivial id (fun _ => id) rfl
  | subscribe =>
    simp only [publisher, Publisher.step] at ht
    split at ht
    · obtain ⟨g, hg, rfl⟩ := Option.map_eq_some_iff.mp ht
      exact .quiet trivial (fun h => h.step hg) (fun _ _ _ => subscribed_lastTicks hg) rfl
    · cases ht
  | mqMessage update =>
    simp only [publisher, Publisher.step] at ht
    split at ht
    · cases ht
      exact .quiet trivial id (fun _ => id) rfl
    · cases ht
  | act =>
    simp only [publisher, Publisher.step] at ht
    split at ht
    · next hq =>
      obtain ⟨tick, htick, rfl⟩ := Option.map_eq_some_iff.mp ht
      exact .published hq htick
    · next e rest hne _ hq =>
      cases ht
      refine .quiet (fun timer htimer => ?_) id (fun _ => id) rfl
      simp only [hq, List.head?_cons, Option.some.injEq] at htimer
      exact absurd htimer (hne timer)
    · cases ht

theorem Subscribed.step (h : Subscribed mktDataSymbol s) {a : Move}
    (ht : (publisher mktDataSymbol).step s a = some t) : Subscribed mktDataSymbol t := by
  cases step_moved ht with
  | quiet _ hstreamed hsubscribed _ =>
    exact ⟨hstreamed h.streamed, hsubscribed h.streamed h.subscribed⟩
  | published _ _ => exact ⟨h.streamed, h.subscribed⟩

theorem Subscribed.timerCb (h : Subscribed mktDataSymbol s) (hacting : s.acting = true) :
    (s.timerCb mktDataSymbol).isSome = true := by
  obtain ⟨tick, htick⟩ := Table.mem_iff_lookup.mp (h.subscribed hacting)
  have hlast : s.feed.mgr.getLastTick mktDataSymbol = some tick := htick
  simp [Publisher.timerCb, hlast]

/-- A message is real exactly if there is a trade to show and the symbol fits. -/
theorem real_msg_iff (h : Streamed s.feed) {tick : TickData}
    (htick : s.feed.mgr.getLastTick mktDataSymbol = some tick) :
    (cstr (tickMsg tick).symbol = some (bytes mktDataSymbol) ∧
      lastTrade s.feed mktDataSymbol = some (tickMsg tick).lastPrice) ↔
    Traded s.feed mktDataSymbol ∧ 0 ∉ bytes mktDataSymbol ∧
      (bytes mktDataSymbol).length < 32 := by
  have htrade : Traded s.feed mktDataSymbol ↔ ∃ price, lastTrade s.feed mktDataSymbol = some price := by
    rw [← not_iff_not, ← lastTrade_eq_none_iff, Option.eq_none_iff_forall_ne_some]
    simp
  have hshown : ∀ price, lastTrade s.feed mktDataSymbol = some price →
      tick.symbol = mktDataSymbol ∧ tick.lastPrice = price := by
    intro price hprice
    obtain ⟨tick', htick', hsymbol, hlast⟩ := h.lastPrice hprice
    rw [htick, Option.some.injEq] at htick'
    exact htick' ▸ ⟨hsymbol, hlast⟩
  constructor
  · rintro ⟨hread, hprice⟩
    obtain ⟨hsymbol, _⟩ := hshown _ hprice
    simp only [tickMsg, hsymbol] at hread
    exact ⟨htrade.mpr ⟨_, hprice⟩, cstr_strncpy_iff.mp hread⟩
  · rintro ⟨htraded, hfits⟩
    obtain ⟨price, hprice⟩ := htrade.mp htraded
    obtain ⟨hsymbol, hlast⟩ := hshown price hprice
    simp only [tickMsg, hsymbol, hlast]
    exact ⟨cstr_strncpy_iff.mpr hfits, hprice⟩

theorem real_step (h : Subscribed mktDataSymbol s) (hs : Real mktDataSymbol s) {a : Move}
    (ht : (publisher mktDataSymbol).step s a = some t) :
    Real mktDataSymbol t ↔ Timely mktDataSymbol s a := by
  cases step_moved ht with
  | quiet ha _ _ hpublished =>
    refine iff_of_true ?_ ha
    rw [Real, hpublished]
    exact hs
  | @published timer rest tick hq htick =>
    have hreal : Real mktDataSymbol
          { s with
            q := rest
            published := s.published ++ [⟨tickMsg tick, lastTrade s.feed mktDataSymbol⟩] } ↔
        cstr (tickMsg tick).symbol = some (bytes mktDataSymbol) ∧
          lastTrade s.feed mktDataSymbol = some (tickMsg tick).lastPrice := by
      simp only [Real, List.mem_append, List.mem_singleton]
      constructor
      · exact fun hall => hall _ (.inr rfl)
      · rintro hmsg p (hp | rfl)
        · exact hs p hp
        · exact hmsg
    rw [hreal, real_msg_iff h.streamed htick]
    simp [Timely, hq]

/-- What is published is real exactly in the runs that handle timers only after a
trade of the symbol, and for a symbol that the field can hold. -/
theorem published_real_iff (mktDataSymbol : String) (as : List Move) :
    (publisher mktDataSymbol).StatesAll (Real mktDataSymbol) (publisher mktDataSymbol).init as ↔
      (publisher mktDataSymbol).StepsAll (Timely mktDataSymbol)
        (publisher mktDataSymbol).init as := by
  apply Machine.statesAll_iff_stepsAll (I := Subscribed mktDataSymbol)
  · exact fun _ _ _ h ht => h.step ht
  · exact fun _ _ _ h hs ht => real_step h hs ht
  · exact ⟨streamed_init, fun hacting => by cases hacting⟩
  · simp [Real, publisher]

/-- The engine starts half a minute before the first trade. -/
def early : List Move :=
  [.feed (.session true), .start, .subscribe, .post (.timer { sec := 30, timestamp := 90 }),
    .feed .dispatch, .act]

theorem published_before_trade :
    ¬ ∀ (mktDataSymbol : String) (s : Publisher), (publisher mktDataSymbol).Reachable s →
      Real mktDataSymbol s := by
  intro hall
  have hrun : (((publisher "6758-STK-JPY.TSEJ").run (publisher "6758-STK-JPY.TSEJ").init
      early).map fun s => s.published.map Published.trade) = some [none] := by
    decide +kernel
  obtain ⟨s, hs, htrades⟩ := Machine.exists_reachable_of_run hrun
  obtain ⟨p, hp, hnone⟩ : ∃ p ∈ s.published, p.trade = none := by
    rw [← List.mem_map, htrades]
    exact List.mem_singleton_self _
  have htrade := (hall _ s hs p hp).2
  rw [hnone] at htrade
  cases htrade

end CalmTrading.TickPublisher
