import CalmTrading.Lib.Machine
import CalmTrading.OrderRecords
import CalmTrading.Requests

namespace CalmTrading.MessageLoop

open Lib Objects Utils Gateway OrderRecords Requests

def noValidId : Int := -1

/-- The client's report on an exception with the text `what`. -/
def socketException (what : String) : ErrMsg where
  id := noValidId
  errorCode := 509
  message := "Exception caught while reading socket - " ++ what

/-- `EDecoder::parseAndProcessMsg`, which catches what the callback throws. The
flag says whether its result is positive. -/
def parseAndProcessMsg (what : String) (api : IBApi) (c : Callback) : Except Fault (Out × Bool) :=
  match api.callback c with
  | .ok out => .ok (out, true)
  | .error .outOfRange => .ok (api.error (socketException what), false)
  | .error fault => .error fault

/-- Where `process_messages` stands: before the test of `running`, or with a
message that `EReader::processMsgs` has taken from the queue. -/
inductive Loop
  | test
  | parsing (c : Callback)
  | ended
  | terminated

/-- A message that has been processed, with the api around it. -/
structure Handled where
  call : Callback
  before : IBApi
  after : IBApi
  events : List Event

/-- The callback thread. History are the messages that came, and those that were
processed. -/
structure Thread where
  api : IBApi
  msgQueue : List Callback := []
  loop : Loop := .test
  received : List Callback := []
  handled : List Handled := []

/-- Steps of the callback thread, a message that the reader queues, and calls of
other threads. -/
inductive Move
  | turn
  | receive (c : Callback)
  | stop
  | subscribe (symbol : String) (delayed : Bool)
  | sendOrder (req : OrderReq)
  | cancelOrder (orderId : OrderId)
  | reqContractDetails (symbol : String)
  | reqHistoricalBar (symbol endTime duration barSize wts : String) (useRth format : Int)

namespace Thread

def getMsg (s : Thread) : Thread :=
  match s.msgQueue with
  | [] => { s with loop := .test }
  | c :: rest => { s with msgQueue := rest, loop := .parsing c }

def processed (s : Thread) (c : Callback) (out : Out) : Thread :=
  { s with
    api := out.api, loop := .test, handled := s.handled ++ [⟨c, s.api, out.api, out.events⟩] }

/-- `processMsgs` goes on with the next message only after a positive result.
Otherwise `process_messages` comes to its test, and takes up the queue again. -/
def turn (what : String) (s : Thread) : Option Thread :=
  match s.loop with
  | .test => some (if s.api.running then s.getMsg else { s with loop := .ended })
  | .parsing c =>
    match parseAndProcessMsg what s.api c with
    | .ok (out, more) =>
      some (if more then (s.processed c out).getMsg else s.processed c out)
    | .error _ => some { s with loop := .terminated }
  | .ended | .terminated => none

def called (s : Thread) (out : Out) : Thread := { s with api := out.api }

def step (what : String) (s : Thread) : Move → Option Thread
  | .turn => s.turn what
  | .receive c => some { s with msgQueue := s.msgQueue ++ [c], received := s.received ++ [c] }
  | .stop => some { s with api := s.api.stop }
  | .subscribe symbol delayed => (s.api.subscribe symbol delayed).toOption.map s.called
  | .sendOrder req => (s.api.sendOrder req).toOption.map fun (_, out) => s.called out
  | .cancelOrder orderId => some (s.called (s.api.cancelOrder orderId))
  | .reqContractDetails symbol => (s.api.reqContractDetails symbol).toOption.map s.called
  | .reqHistoricalBar symbol endTime duration barSize wts useRth format =>
    (s.api.reqHistoricalBar symbol endTime duration barSize wts useRth format).toOption.map
      fun (_, out) => s.called out

def pending (s : Thread) : List Callback :=
  match s.loop with
  | .parsing c => c :: s.msgQueue
  | _ => s.msgQueue

end Thread

def messageLoop (what : String) (api : IBApi) : Machine Thread Move where
  init := { api := { api with running := true } }
  step := Thread.step what

/-- An order status that leads to nothing: its text is not in the table, or its
order not in the records. -/
def Ignored (h : Handled) : Prop :=
  ∃ id status filled avg, h.call = .orderStatus id status filled avg ∧
    (orderStatusToCalm status = none ∨ h.before.orders.find? id = none)

/-- No exception comes through to the loop and no message is lost; what is
pending is processed by the next steps of the thread. -/
structure Survives (what : String) (api : IBApi) (s : Thread) : Prop where
  alive : s.loop ≠ .terminated
  ended : s.loop = .ended → s.api.running = false
  all : s.handled.map Handled.call ++ s.pending = s.received
  later : s.api.running = true →
    ∃ t, (messageLoop what api).run s (List.replicate (2 * s.pending.length) .turn) = some t ∧
      t.handled.map Handled.call = s.received
  applied : ∀ h ∈ s.handled, ¬ Ignored h →
    ∃ out, h.before.callback h.call = .ok out ∧ h.after = out.api ∧ h.events = out.events
  others : ∀ h ∈ s.handled, Ignored h → ∀ id ≠ noValidId,
    h.after.orders.find? id = h.before.orders.find? id

/-- Besides, an order status that leads to nothing changes no record and emits
no event. -/
structure Tolerated (what : String) (api : IBApi) (s : Thread) : Prop extends
    Survives what api s where
  ignored : ∀ h ∈ s.handled, Ignored h → h.after.orders = h.before.orders ∧ h.events = []

/-- An order status has a text that is in the table. -/
def KnownStatus (c : Callback) : Prop :=
  ∀ id status filled avg, c = .orderStatus id status filled avg → orderStatusToCalm status ≠ none

/-- A message that the thread processes has a known status. -/
def Known (s : Thread) : Move → Prop
  | .turn => ∀ c, s.loop = .parsing c → KnownStatus c
  | _ => True

/-- All that comes of a message. -/
inductive Processed (what : String) : Handled → Prop
  | applied {c : Callback} {before : IBApi} {out : Out} (h : before.callback c = .ok out) :
      Processed what ⟨c, before, out.api, out.events⟩
  | reported {id : OrderId} {status : String} {filled avg : Double} {before : IBApi}
      (h : orderStatusToCalm status = none) :
      Processed what ⟨.orderStatus id status filled avg, before,
        (before.error (socketException what)).api, (before.error (socketException what)).events⟩

theorem updateTick_running (api : IBApi) (reqId : Int) (f : TickData → TickData) :
    (api.updateTick reqId f).api.running = api.running := by
  rw [IBApi.updateTick]
  split <;> rfl

theorem updateOrder_running (api : IBApi) (id : OrderId) (f : OrderData → OrderData) :
    (api.updateOrder id f).api.running = api.running := by
  rw [IBApi.updateOrder]
  split <;> rfl

theorem callback_running {api : IBApi} {c : Callback} {out : Out} (h : api.callback c = .ok out) :
    out.api.running = api.running := by
  cases c with
  | nextValidId | historicalData | historicalDataEnd => cases h; rfl
  | tickByTickBidAsk | tickByTickAllLast => cases h; exact updateTick_running _ _ _
  | error msg => cases h; exact updateOrder_running _ _ _
  | openOrder id commission =>
    cases h
    rw [IBApi.openOrder]
    split
    · rfl
    · exact updateOrder_running _ _ _
  | orderStatus id status filled avg =>
    simp only [IBApi.callback, IBApi.orderStatus] at h
    split at h
    · cases h
    · cases h
      exact updateOrder_running _ _ _

theorem callback_cases (api : IBApi) (c : Callback) :
    (∃ out, api.callback c = .ok out) ∨
    ∃ id status filled avg, c = .orderStatus id status filled avg ∧
      orderStatusToCalm status = none ∧ api.callback c = .error .outOfRange := by
  cases c with
  | orderStatus id status filled avg =>
    simp only [IBApi.callback, IBApi.orderStatus]
    cases hstatus : orderStatusToCalm status with
    | none => exact .inr ⟨id, status, filled, avg, rfl, hstatus, rfl⟩
    | some st => exact .inl ⟨_, rfl⟩
  | _ => exact .inl ⟨_, rfl⟩

theorem known_of_ok {api : IBApi} {id : OrderId} {status : String} {filled avg : Double} {out : Out}
    (h : api.callback (.orderStatus id status filled avg) = .ok out) :
    orderStatusToCalm status ≠ none := by
  intro hstatus
  simp only [IBApi.callback, IBApi.orderStatus, hstatus] at h
  cases h

theorem parseAndProcessMsg_processed (what : String) (api : IBApi) (c : Callback) :
    ∃ out more, parseAndProcessMsg what api c = .ok (out, more) ∧
      Processed what ⟨c, api, out.api, out.events⟩ ∧ out.api.running = api.running := by
  rw [parseAndProcessMsg]
  obtain ⟨out, hout⟩ | ⟨id, status, filled, avg, rfl, hstatus, herror⟩ := callback_cases api c
  · rw [hout]
    exact ⟨out, true, rfl, .applied hout, callback_running hout⟩
  · rw [herror]
    exact ⟨_, false, rfl, .reported hstatus, updateOrder_running _ _ _⟩

namespace Processed

variable {what : String} {h : Handled}

theorem applied_of_not_ignored (hp : Processed what h) (hn : ¬ Ignored h) :
    ∃ out, h.before.callback h.call = .ok out ∧ h.after = out.api ∧ h.events = out.events := by
  cases hp with
  | applied hout => exact ⟨_, hout, rfl, rfl⟩
  | reported hstatus => exact absurd ⟨_, _, _, _, rfl, .inl hstatus⟩ hn

/-- An exception is reported with an event, and on an order of no valid id. -/
theorem ignored_iff (hp : Processed what h) :
    (Ignored h → h.after.orders = h.before.orders ∧ h.events = []) ↔ KnownStatus h.call := by
  cases hp with
  | reported hstatus =>
    refine iff_of_false (fun hquiet => ?_) fun hknown => hknown _ _ _ _ rfl hstatus
    cases (hquiet ⟨_, _, _, _, rfl, .inl hstatus⟩).2
  | @applied c before out hout =>
    refine iff_of_true ?_ ?_
    · rintro ⟨id, status, filled, avg, hc, hignored⟩
      cases hc
      simp only [IBApi.callback, IBApi.orderStatus] at hout
      split at hout
      · cases hout
      · next st hst =>
        cases hout
        have hnone : before.orders.find? id = none := hignored.resolve_left (by simp [hst])
        simp only [IBApi.updateOrder, hnone, and_self]
    · rintro id status filled avg rfl
      exact known_of_ok hout

theorem others (hp : Processed what h) (hi : Ignored h) {id : OrderId} (hid : id ≠ noValidId) :
    h.after.orders.find? id = h.before.orders.find? id := by
  cases hp with
  | @reported _ _ _ _ before hstatus =>
    have hreports : Reports before.orders (.error (socketException what)) _ _ :=
      callback_reports rfl
    exact hreports.other rfl hid
  | applied hout =>
    have hquiet := (Processed.applied hout : Processed what _).ignored_iff.mpr ?_ hi
    · rw [hquiet.1]
    · rintro id status filled avg rfl
      exact known_of_ok hout

end Processed

namespace Thread

variable (s : Thread)

@[simp] theorem getMsg_api : s.getMsg.api = s.api := by
  rw [getMsg]
  split <;> rfl

@[simp] theorem getMsg_received : s.getMsg.received = s.received := by
  rw [getMsg]
  split <;> rfl

@[simp] theorem getMsg_handled : s.getMsg.handled = s.handled := by
  rw [getMsg]
  split <;> rfl

@[simp] theorem getMsg_pending : s.getMsg.pending = s.msgQueue := by
  rw [getMsg]
  split
  · rfl
  · next c rest h => exact h.symm

theorem getMsg_loop : s.getMsg.loop = .test ∧ s.msgQueue = [] ∨ ∃ c, s.getMsg.loop = .parsing c := by
  rw [getMsg]
  split
  · next h => exact .inl ⟨rfl, h⟩
  · next c rest h => exact .inr ⟨c, rfl⟩

end Thread

theorem subscribe_running {api : IBApi} {symbol : String} {delayed : Bool} {out : Out}
    (h : api.subscribe symbol delayed = .ok out) : out.api.running = api.running := by
  obtain ⟨rfl, _⟩ | ⟨_, _, _, _, hapi, _⟩ := subscribe_cases h
  · rfl
  · rw [hapi]

theorem sendOrder_running {api : IBApi} {req : OrderReq} {id : OrderId} {out : Out}
    (h : api.sendOrder req = .ok (id, out)) : out.api.running = api.running := by
  obtain ⟨p, hp, _, rfl⟩ := sendOrder_eq_ok.mp h
  obtain ⟨_, _, _, _, ⟨_, _, _, hapi⟩ | ⟨_, _, hapi⟩⟩ := recordOrder_cases hp
  · simp only [hapi]
  · simp only [hapi]

/-- All that a step does to the thread. -/
inductive Moved (what : String) (s : Thread) : Move → Thread → Prop
  | called {a : Move} {api : IBApi} (ha : a ≠ .turn)
      (hrunning : s.api.running = false → api.running = false) : Moved what s a { s with api := api }
  | received (c : Callback) :
      Moved what s (.receive c)
        { s with msgQueue := s.msgQueue ++ [c], received := s.received ++ [c] }
  | ended (htest : s.loop = .test) (hstop : s.api.running = false) :
      Moved what s .turn { s with loop := .ended }
  | fetched (htest : s.loop = .test) (hrunning : s.api.running = true) : Moved what s .turn s.getMsg
  | processed {c : Callback} {out : Out} {more : Bool} (hloop : s.loop = .parsing c)
      (hp : Processed what ⟨c, s.api, out.api, out.events⟩)
      (hrunning : out.api.running = s.api.running) :
      Moved what s .turn (if more then (s.processed c out).getMsg else s.processed c out)

theorem turn_moved {what : String} {s t : Thread} (h : s.turn what = some t) :
    Moved what s .turn t := by
  rw [Thread.turn] at h
  cases hloop : s.loop with
  | test =>
    simp only [hloop, Option.some.injEq] at h
    subst h
    split
    · next hrunning => exact .fetched hloop hrunning
    · next hstop => exact .ended hloop (by simpa using hstop)
  | parsing c =>
    obtain ⟨out, more, hout, hp, hrunning⟩ := parseAndProcessMsg_processed what s.api c
    simp only [hloop, hout, Option.some.injEq] at h
    exact h ▸ .processed hloop hp hrunning
  | ended | terminated =>
    simp only [hloop] at h
    cases h

theorem moved {what : String} {s t : Thread} {a : Move} (h : s.step what a = some t) :
    Moved what s a t := by
  cases a with
  | turn => exact turn_moved h
  | receive c => cases h; exact .received c
  | stop => cases h; exact .called (by simp) fun _ => rfl
  | subscribe symbol delayed =>
    obtain ⟨out, hout, rfl⟩ := toOption_map_eq_some.mp h
    exact .called (by simp) fun hstop => (subscribe_running hout).trans hstop
  | sendOrder req =>
    obtain ⟨⟨id, out⟩, hout, rfl⟩ := toOption_map_eq_some.mp h
    exact .called (by simp) fun hstop => (sendOrder_running hout).trans hstop
  | cancelOrder orderId => cases h; exact .called (by simp) id
  | reqContractDetails symbol =>
    obtain ⟨out, hout, rfl⟩ := toOption_map_eq_some.mp h
    obtain ⟨_, rfl⟩ := reqContractDetails_eq_ok hout
    exact .called (by simp) id
  | reqHistoricalBar symbol endTime duration barSize wts useRth format =>
    obtain ⟨⟨id, out⟩, hout, rfl⟩ := toOption_map_eq_some.mp h
    obtain ⟨_, _, rfl⟩ := reqHistoricalBar_eq_ok hout
    exact .called (by simp) fun hstop => hstop

/-- What holds in every reachable state. -/
structure Kept (what : String) (s : Thread) : Prop where
  alive : s.loop ≠ .terminated
  ended : s.loop = .ended → s.api.running = false
  all : s.handled.map Handled.call ++ s.pending = s.received
  processed : ∀ h ∈ s.handled, Processed what h

theorem Kept.getMsg {what : String} {s : Thread} (hs : Kept what s) (hloop : s.loop = .test) :
    Kept what s.getMsg := by
  have hall := hs.all
  rw [Thread.pending, hloop] at hall
  obtain ⟨htest, _⟩ | ⟨c, hc⟩ := s.getMsg_loop
  · exact ⟨by simp [htest], by simp [htest], by simpa using hall, by simpa using hs.processed⟩
  · exact ⟨by simp [hc], by simp [hc], by simpa using hall, by simpa using hs.processed⟩

theorem Kept.of_processed {what : String} {s : Thread} (hs : Kept what s) {c : Callback} {out : Out}
    (hloop : s.loop = .parsing c) (hp : Processed what ⟨c, s.api, out.api, out.events⟩) :
    Kept what (s.processed c out) := by
  have hall := hs.all
  rw [Thread.pending, hloop] at hall
  refine ⟨by simp [Thread.processed], by simp [Thread.processed], ?_, ?_⟩
  · simpa [Thread.processed, Thread.pending] using hall
  · intro h hh
    obtain hh | hh := List.mem_append.mp hh
    · exact hs.processed h hh
    · exact List.mem_singleton.mp hh ▸ hp

theorem Kept.step {what : String} {s t : Thread} {a : Move} (hs : Kept what s)
    (ht : s.step what a = some t) : Kept what t := by
  cases moved ht with
  | called ha hrunning =>
    exact ⟨hs.alive, fun hended => hrunning (hs.ended hended), hs.all, hs.processed⟩
  | received c =>
    refine ⟨hs.alive, hs.ended, ?_, hs.processed⟩
    rw [← hs.all]
    simp only [Thread.pending]
    split <;> simp
  | ended htest hstop =>
    have hall := hs.all
    rw [Thread.pending, htest] at hall
    exact ⟨by simp, fun _ => hstop, hall, hs.processed⟩
  | fetched htest hrunning => exact hs.getMsg htest
  | processed hloop hp hrunning =>
    split
    · exact (hs.of_processed hloop hp).getMsg rfl
    · exact hs.of_processed hloop hp

/-- One step of the thread takes up the next message or finishes one. -/
theorem Kept.turn {what : String} {s : Thread} (hs : Kept what s) (hrunning : s.api.running = true) :
    ∃ t, s.turn what = some t ∧ Kept what t ∧ t.api.running = true ∧ t.received = s.received ∧
      (s.loop = .test ∧ t.pending = s.pending ∧ (t.loop = .test → t.pending = []) ∨
        s.loop ≠ .test ∧ t.pending = s.pending.tail) := by
  cases hloop : s.loop with
  | test =>
    have hturn : s.turn what = some s.getMsg := by simp [Thread.turn, hloop, hrunning]
    refine ⟨s.getMsg, hturn, hs.getMsg hloop, by simpa using hrunning, by simp, .inl ⟨rfl, ?_, ?_⟩⟩
    · rw [s.getMsg_pending, Thread.pending, hloop]
    · intro htest
      obtain ⟨_, hempty⟩ | ⟨c, hc⟩ := s.getMsg_loop
      · rw [s.getMsg_pending, hempty]
      · rw [hc] at htest
        cases htest
  | parsing c =>
    obtain ⟨out, more, hout, hp, hsame⟩ := parseAndProcessMsg_processed what s.api c
    have hkept := hs.of_processed hloop hp
    have hturn : s.turn what =
        some (if more then (s.processed c out).getMsg else s.processed c out) := by
      simp [Thread.turn, hloop, hout]
    have htail : s.pending.tail = s.msgQueue := by simp [Thread.pending, hloop]
    refine ⟨_, hturn, ?_⟩
    split
    · exact ⟨hkept.getMsg rfl, by simpa [Thread.processed, hsame] using hrunning,
        by simp [Thread.processed], .inr ⟨by simp, by simp [htail, Thread.processed]⟩⟩
    · exact ⟨hkept, by simpa [Thread.processed, hsame] using hrunning, rfl,
        .inr ⟨by simp, htail.symm⟩⟩
  | ended => simp [hs.ended hloop] at hrunning
  | terminated => exact absurd hloop hs.alive

theorem Kept.two_turns {what : String} {s : Thread} (hs : Kept what s)
    (hrunning : s.api.running = true) :
    ∃ t u, s.turn what = some t ∧ t.turn what = some u ∧ Kept what u ∧ u.api.running = true ∧
      u.received = s.received ∧ u.pending.length ≤ s.pending.length - 1 := by
  obtain ⟨t, ht, hkt, hrt, hreceived, hpending⟩ := hs.turn hrunning
  obtain ⟨u, hu, hku, hru, hreceived', hpending'⟩ := hkt.turn hrt
  refine ⟨t, u, ht, hu, hku, hru, hreceived'.trans hreceived, ?_⟩
  obtain ⟨_, hsame, hempty⟩ | ⟨_, htail⟩ := hpending
  · obtain ⟨htest, hsame', _⟩ | ⟨_, htail'⟩ := hpending'
    · simp [hsame', hempty htest]
    · simp [htail', hsame]
  · obtain ⟨_, hsame', _⟩ | ⟨_, htail'⟩ := hpending'
    · simp [hsame', htail]
    · simp [htail', htail]

/-- So as many steps finish all that is pending, whatever is thrown meanwhile. -/
theorem Kept.drained {what : String} (api : IBApi) {s : Thread} (hs : Kept what s)
    (hrunning : s.api.running = true) {n : Nat} (hn : s.pending.length ≤ n) :
    ∃ t, (messageLoop what api).run s (List.replicate (2 * n) .turn) = some t ∧
      t.handled.map Handled.call = s.received := by
  induction n generalizing s with
  | zero =>
    have hempty : s.pending = [] := List.length_eq_zero_iff.mp (by omega)
    have hall := hs.all
    rw [hempty, List.append_nil] at hall
    exact ⟨s, rfl, hall⟩
  | succ n ih =>
    obtain ⟨t, u, ht, hu, hku, hru, hreceived, hlen⟩ := hs.two_turns hrunning
    obtain ⟨v, hv, hall⟩ := ih hku hru (by omega)
    refine ⟨v, ?_, hall.trans hreceived⟩
    have ht : (messageLoop what api).step s .turn = some t := ht
    have hu : (messageLoop what api).step t .turn = some u := hu
    rw [show 2 * (n + 1) = 2 * n + 1 + 1 by omega, List.replicate_succ, List.replicate_succ,
      Machine.run_cons ht, Machine.run_cons hu, hv]

theorem Kept.survives {what : String} (api : IBApi) {s : Thread} (hs : Kept what s) :
    Survives what api s where
  alive := hs.alive
  ended := hs.ended
  all := hs.all
  later hrunning := hs.drained api hrunning le_rfl
  applied h hh hn := (hs.processed h hh).applied_of_not_ignored hn
  others h hh hi _ hid := (hs.processed h hh).others hi hid

theorem Kept.tolerated {what : String} (api : IBApi) {s : Thread} (hs : Kept what s) :
    Tolerated what api s ↔ ∀ h ∈ s.handled, KnownStatus h.call := by
  constructor
  · intro ht h hh
    exact (hs.processed h hh).ignored_iff.mp (ht.ignored h hh)
  · intro hknown
    exact ⟨hs.survives api, fun h hh => (hs.processed h hh).ignored_iff.mpr (hknown h hh)⟩

theorem known_iff {what : String} {s t : Thread} {a : Move} (ht : s.step what a = some t)
    (hs : ∀ h ∈ s.handled, KnownStatus h.call) :
    (∀ h ∈ t.handled, KnownStatus h.call) ↔ Known s a := by
  cases moved ht with
  | called ha hrunning =>
    refine iff_of_true hs ?_
    cases a <;> trivial
  | received c => exact iff_of_true hs trivial
  | ended htest hstop => exact iff_of_true hs fun _ hc => by simp [htest] at hc
  | fetched htest hrunning =>
    exact iff_of_true (by simpa using hs) fun _ hc => by simp [htest] at hc
  | @processed c out more hloop hp hrunning =>
    have hhandled : (if more then (s.processed c out).getMsg else s.processed c out).handled =
        s.handled ++ [⟨c, s.api, out.api, out.events⟩] := by
      split
      · exact Thread.getMsg_handled _
      · rfl
    rw [hhandled]
    constructor
    · intro h c' hc
      cases hloop.symm.trans hc
      exact h ⟨c, s.api, out.api, out.events⟩ (List.mem_append_right _ (List.mem_singleton_self _))
    · intro hknown h hh
      obtain hh | hh := List.mem_append.mp hh
      · exact hs h hh
      · rw [List.mem_singleton.mp hh]
        exact hknown c hloop

/-- The callback thread goes on whatever status comes. Each is ignored as it
should exactly in the runs without a status outside the table: such a one is
reported as an exception of the socket. -/
theorem tolerated_iff (what : String) (api : IBApi) (moves : List Move) :
    (∀ s, (messageLoop what api).Reachable s → Survives what api s) ∧
      ((messageLoop what api).StatesAll (Tolerated what api) (messageLoop what api).init moves ↔
        (messageLoop what api).StepsAll Known (messageLoop what api).init moves) := by
  have hinit : Kept what (messageLoop what api).init :=
    ⟨by simp [messageLoop], by simp [messageLoop], rfl, by simp [messageLoop]⟩
  refine ⟨fun s hs => ?_, ?_⟩
  · have hkept : Kept what s := hs.invariant hinit fun _ _ _ _ hs _ ht => hs.step ht
    exact hkept.survives api
  · apply Machine.statesAll_iff_stepsAll (I := Kept what) (fun _ _ _ hs ht => hs.step ht) _ hinit
    · exact (hinit.tolerated api).mpr (by simp [messageLoop])
    · intro s a t hs hp ht
      have ht : s.step what a = some t := ht
      rw [(hs.step ht).tolerated api]
      exact known_iff ht ((hs.tolerated api).mp hp)

/-- A status of the broker that is missing in the table. -/
theorem unknown_status_reported :
    ¬ ∀ what api moves,
      (messageLoop what api).StatesAll (Tolerated what api) (messageLoop what api).init moves := by
  intro hall
  have h := hall "_Map_base::at" {} [.receive (.orderStatus 1 "ApiPending" 0 0), .turn, .turn]
  have hignored := ((((h.2 _ rfl).2 _ rfl).2 _ rfl).ignored _ (List.mem_singleton_self _)
    ⟨1, "ApiPending", 0, 0, rfl, .inl (by decide)⟩)
  cases hignored.2

end CalmTrading.MessageLoop
