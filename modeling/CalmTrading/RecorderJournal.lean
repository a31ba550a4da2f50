import CalmTrading.BooksAgreement
import CalmTrading.Lib.Repeats

namespace CalmTrading.RecorderJournal

open Lib Objects Utils Gateway OrderRecords DataRecorder
open EventLoop (Ran RunMove)
open EventDispatch (Guarded Served lastRegistered)
open AlgoSystem (Config)
open EventFeeds TraderSystem TraderBooks
open BooksAgreement (filled reaches_filled)

section Recorder

variable {r : Recorder}

/-- The recorder inserts the documents of the events that it takes out, perhaps
that of the last one more than once. -/
structure Journal (r : Recorder) : Prop where
  recorded : Recorded r
  repeats : Repeats (r.popped.filterMap record?) r.inserted
  last : ∀ e, r.event = .popped e → ∃ popped, r.popped = popped ++ [e]

theorem Journal.step {t : Recorder} {a : DataRecorder.Move} (h : Journal r)
    (ht : recorder.step r a = some t) : Journal t := by
  have hrecorded := h.recorded.step ht
  cases DataRecorder.step_moved h.recorded ht with
  | quiet _ _ hevent hpopped hinserted =>
    refine ⟨hrecorded, ?_, fun e he => ?_⟩
    · rw [hpopped, hinserted]
      exact h.repeats
    · rw [hpopped]
      exact h.last e (hevent e he)
  | copyToQueue => exact ⟨hrecorded, h.repeats, h.last⟩
  | @pop e rest insert _ he =>
    refine ⟨hrecorded, ?_, fun e' he' => ?_⟩
    · simp only [List.filterMap_append, List.filterMap_cons, List.filterMap_nil, he]
      exact .next insert h.repeats
    · cases he'
      exact ⟨r.popped, rfl⟩
  | @replay e insert hevent he =>
    refine ⟨hrecorded, ?_, h.last⟩
    obtain ⟨popped, hpopped⟩ := h.last e hevent
    have hrepeats := h.repeats
    simp only [hpopped, List.filterMap_append, List.filterMap_cons, List.filterMap_nil, he]
      at hrepeats ⊢
    exact .again hrepeats

theorem journal (hr : recorder.Reachable r) : Journal r := by
  apply hr.invariant
  · constructor
    · constructor <;> simp [recorder]
    · exact .nil
    · simp [recorder]
  · exact fun _ _ _ _ h _ ht => h.step ht

/-- The order id under which an inserted document can be found. -/
def orderKey (i : Insert) : Option OrderId :=
  if i.coll = "order_data" then
    match i.doc.lookup "order_id" with
    | some (.integer n) => some n
    | _ => none
  else none

def lastDoc (r : Recorder) (id : OrderId) : Option Document :=
  (Channel.latest orderKey (some id) r.inserted).map Insert.doc

theorem filter_orderKey (es : List Event) (id : OrderId) :
    ((es.filterMap record?).filter fun i => orderKey i = some id) =
      ((orderEvents es).filter fun d => d.orderId = id).map
        fun d => ⟨"order_data", orderDataDoc d⟩ := by
  induction es with
  | nil => rfl
  | cons e es ih =>
    cases e with
    | orderData d =>
      have hkey : orderKey ⟨"order_data", orderDataDoc d⟩ = some d.orderId := rfl
      by_cases hid : d.orderId = id
      · simp [record?, Event.orderData?, hkey, hid, ih]
      · simp [record?, Event.orderData?, hkey, hid, ih]
    | tickData tick =>
      have hkey : orderKey ⟨"tick", tickDoc tick⟩ = none := rfl
      simp [record?, Event.orderData?, hkey, ih]
    | _ => exact ih

theorem lastDoc_eq (h : Journal r) (id : OrderId) :
    lastDoc r id =
      (Channel.latest OrderData.orderId id (orderEvents r.popped)).map orderDataDoc := by
  have hlast := (h.repeats.filter fun i => orderKey i = some id).getLast?
  rw [lastDoc, Channel.latest, hlast, filter_orderKey, List.getLast?_map, Option.map_map,
    Channel.latest]
  rfl

end Recorder

section Trader

variable {cfg : Config} {s t : System} {a : TraderSystem.Move}

theorem takes_of_coming {c : Component registrations} {l : EventLoop.System Cb} {e : Event}
    (he : e ∈ c.coming l) : c.takes e = true := by
  obtain he | he := List.mem_append.mp he
  · rw [Component.due] at he
    split at he
    · next e' todo _ =>
      split at he
      · next hany =>
        obtain rfl := List.mem_singleton.mp he
        exact Option.isSome_of_any hany
      · cases he
    · cases he
  · exact (List.mem_filter.mp he).2

/-- A move sends the events of what it changes in the records, or it is a step of
the engine's thread. -/
theorem moved_records (ht : Moved s a t) :
    (∃ es, t.events = sendAll s.events es ∧
      Records s.trading.api.orders t.trading.api.orders (orderEvents es)) ∨
    ∃ m, Ran s.events m t.events ∧ t.trading.api.orders = s.trading.api.orders := by
  have hsame : s.events = sendAll s.events [] := by simp [sendAll]
  cases ht with
  | @startGateway connects hphase =>
    refine .inl ⟨[], hsame, ?_⟩
    rw [(AlgoBooks.start_same s.trading.api connects).1]
    exact .same
  | startAlgo hphase ht =>
    obtain ⟨_, _, horders, _, rfl⟩ := startAlgo_cases ht
    refine .inl ⟨[], hsame, ?_⟩
    rw [horders]
    exact .same
  | clock hphase =>
    refine .inl ⟨_, rfl, ?_⟩
    rw [clock_orderEvents]
    exact .same
  | callback hout => exact .inl ⟨_, rfl, (callback_reports hout).records⟩
  | @turn m events hm ht =>
    refine .inr ⟨m, ?_, ?_⟩
    · rw [turned_events]
      exact ht
    · rw [System.turned]
      split
      · rw [System.call_api]
      · rfl
  | act hheld hr => exact .inl ⟨_, rfl, (Algo.handle_handled hr).2⟩
  | round =>
    obtain hround | ⟨p, event, events, hevents, hround⟩ := round_cases s
    · rw [hround]
      exact .inl ⟨[], hsame, .same⟩
    · rw [hround]
      refine .inl ⟨events, rfl, ?_⟩
      rw [hevents]
      exact .same
  | _ => exact .inl ⟨[], hsame, .same⟩

theorem published (hs : (trader cfg).Reachable s) :
    Replica s.trading.api.orders (fun _ => none) (orderEvents s.events.pushed) := by
  apply hs.invariant
  · exact Replica.empty fun _ => rfl
  · intro s a t _ hrep _ ht
    obtain ⟨es, hes, hrec⟩ | ⟨m, hm, horders⟩ := moved_records (step_moved ht)
    · rw [hes, sendAll, orderEvents_append]
      exact hrep.emit hrec
    · rw [horders, ran_pushed hm]
      exact hrep

/-- What the recorder has taken out, and what is in its queue or before it, are
the events sent of its types. -/
def Received (s : System) : Prop :=
  s.recorder.popped ++ s.recorder.q ++ (component .recorder).coming s.events =
    s.events.pushed.filter (component .recorder).takes

theorem takes_eType {e : Event} (he : (component .recorder).takes e = true) :
    e.eType = .tickData ∨ e.eType = .orderData := by
  have htype : ∀ eType, ((component .recorder).name? eType).isSome = true →
      eType = .tickData ∨ eType = .orderData := by
    intro eType
    cases eType <;> decide
  exact htype e.eType he

theorem call_recorder (s : System) (e : Event) (cb : Cb) : (s.call e cb).recorder =
    if cb.part = .recorder then (s.recorder.step (.copyToQueue e)).getD s.recorder
    else s.recorder := by
  cases cb <;> first | rfl | (cases e <;> rfl)

/-- A move takes a step of the recorder, or it leaves it alone. -/
theorem moved_recorder (ht : Moved s a t) :
    t.recorder = s.recorder ∨ ∃ b, recorder.step s.recorder b = some t.recorder := by
  cases ht with
  | @startRecorder eType _ _ hrecorder => exact .inr ⟨.start eType, hrecorder⟩
  | startAlgo hphase ht =>
    obtain ⟨_, _, _, _, rfl⟩ := startAlgo_cases ht
    exact .inl rfl
  | turn hm ht =>
    rw [System.turned]
    split
    · next e _ cb _ =>
      rw [call_recorder]
      split
      · cases hcopy : s.recorder.step (.copyToQueue e) with
        | none => exact .inl rfl
        | some r => exact .inr ⟨.copyToQueue e, hcopy⟩
      · exact .inl rfl
    · exact .inl rfl
  | round =>
    obtain hround | ⟨_, _, _, _, hround⟩ := round_cases s
    · exact .inl (by rw [hround])
    · exact .inl (by rw [hround]; rfl)
  | save hrecorder => exact .inr ⟨.pop, hrecorder⟩
  | idle hrecorder => exact .inr ⟨.timeOut, hrecorder⟩
  | _ => exact .inl rfl

theorem recorder_reachable (hs : (trader cfg).Reachable s) : recorder.Reachable s.recorder := by
  have hview : ∀ s a t, (trader cfg).Reachable s → (trader cfg).step s a = some t →
      ∃ bs, recorder.run s.recorder bs = some t.recorder := by
    intro s a t _ ht
    obtain hsame | ⟨b, hb⟩ := moved_recorder (step_moved ht)
    · exact ⟨[], congrArg some hsame.symm⟩
    · exact ⟨[b], Machine.run_singleton hb⟩
  have hinit : recorder.Reachable (trader cfg).init.recorder := .init
  exact hinit.refines (M := trader cfg) hview hs

theorem step_taken {r r' : Recorder} {b : DataRecorder.Move} (hr : Recorded r)
    (hb : ∀ e, b ≠ .copyToQueue e) (h : recorder.step r b = some r') :
    r'.popped ++ r'.q = r.popped ++ r.q := by
  cases DataRecorder.step_moved hr h with
  | quiet _ hq _ hpopped _ => rw [hq, hpopped]
  | @copyToQueue e _ => exact absurd rfl (hb e)
  | pop hq _ => simp [hq]
  | replay => rfl

theorem Received.send (h : Received s) (es : List Event) (hevents : t.events = sendAll s.events es)
    (hrecorder : t.recorder.popped ++ t.recorder.q = s.recorder.popped ++ s.recorder.q) :
    Received t := by
  rw [Received, hrecorder, hevents, sendAll_coming, sendAll, List.filter_append,
    ← List.append_assoc, h]

theorem Received.turn (hg : Guarded registrations s.events) (hv : Served registrations s.events)
    (h : Received s) {m : RunMove Cb} {events : EventLoop.System Cb} (ht : Ran s.events m events) :
    Received (s.turned m events) := by
  have hpushed := ran_pushed ht
  obtain ⟨e, cb, hturned, hcoming⟩ | ⟨hturned, hcoming⟩ := turned_cases hg hv ht
  · have hcoming := hcoming .recorder
    rw [hturned, Received, call_recorder, System.call_events, hpushed, ← h, hcoming]
    by_cases hpart : cb.part = .recorder
    · have he : (component .recorder).takes e = true :=
        takes_of_coming (l := s.events) (by simp [hcoming, hpart])
      simp [hpart, Recorder.step, takes_eType he]
    · simp [hpart]
  · rw [hturned, Received, hcoming .recorder, hpushed]
    exact h

theorem Received.step (hg : Guarded registrations s.events)
    (hv : Served registrations s.events) (hr : Recorded s.recorder) (h : Received s)
    (ht : Moved s a t) : Received t := by
  have hsame : s.events = sendAll s.events [] := by simp [sendAll]
  cases ht with
  | @startRecorder eType _ _ hrecorder =>
    exact h.send [] hsame (step_taken (b := .start eType) hr (by simp) hrecorder)
  | startAlgo hphase ht =>
    obtain ⟨_, _, _, _, rfl⟩ := startAlgo_cases ht
    exact h.send [] hsame rfl
  | clock hphase => exact h.send _ rfl rfl
  | callback hout => exact h.send _ rfl rfl
  | turn hm ht => exact h.turn hg hv ht
  | act hheld hr => exact h.send _ rfl rfl
  | round =>
    obtain hround | ⟨p, event, events, _, hround⟩ := round_cases s
    · rw [hround]
      exact h
    · rw [hround]
      exact h.send events rfl rfl
  | save hrecorder =>
    exact h.send [] hsame (step_taken (b := .pop) hr (by simp) hrecorder)
  | idle hrecorder =>
    exact h.send [] hsame (step_taken (b := .timeOut) hr (by simp) hrecorder)
  | _ => exact h.send [] hsame rfl

theorem received (hs : (trader cfg).Reachable s) : Received s := by
  apply hs.invariant
  · have hcoming : (component .recorder).coming (trader cfg).init.events = [] := coming_init _
    rw [Received, hcoming]
    rfl
  · intro s a t hs h _ ht
    obtain ⟨hg, hv⟩ := events_sound hs
    exact h.step hg hv (journal (recorder_reachable hs)).recorded (step_moved ht)

/-- In a `Trader` every tick and every order event that is sent is written to the
journal, in the order sent and perhaps more than once, and once the recorder has
caught up the last document of each order shows the gateway's record. -/
theorem journal_complete (hs : (trader cfg).Reachable s) :
    ∃ done, done ++ s.recorder.q ++ (component .recorder).coming s.events =
        s.events.pushed.filter (component .recorder).takes ∧
      Repeats (done.filterMap record?) s.recorder.inserted ∧
      (s.recorder.q ++ (component .recorder).coming s.events = [] →
        ∀ id, lastDoc s.recorder id = (s.trading.api.orders.find? id).map orderDataDoc) := by
  have hreceived := received hs
  have hjournal := journal (recorder_reachable hs)
  refine ⟨s.recorder.popped, hreceived, hjournal.repeats, fun hdrained id => ?_⟩
  rw [Received, List.append_assoc, hdrained, List.append_nil] at hreceived
  have hseen := (published hs).seen id
  rw [Option.or_none] at hseen
  rw [lastDoc_eq hjournal, hreceived, orderEvents_taken rfl, hseen]

theorem journal_complete_filled :
    filled.recorder.inserted.length = 3 ∧
      lastDoc filled.recorder 1 = (filled.trading.api.orders.find? 1).map orderDataDoc := by
  obtain ⟨_, _, _, hlast⟩ := journal_complete reaches_filled.reachable
  exact ⟨by decide +kernel, hlast (by decide +kernel) 1⟩

end Trader

end CalmTrading.RecorderJournal
