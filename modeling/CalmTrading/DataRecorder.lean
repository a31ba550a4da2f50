import CalmTrading.Lib.Machine
import CalmTrading.Utils

namespace CalmTrading.DataRecorder

open Lib Objects Utils

inductive Bson
  | string (s : String)
  | double (x : Double)
  | integer (n : Int)
  deriving DecidableEq

abbrev Document := List (String × Bson)

def tickDoc (t : TickData) : Document :=
  [("symbol", .string t.symbol), ("last_price", .double t.lastPrice),
    ("last_size", .double t.lastSize), ("bid_price", .double t.bidPrice),
    ("bid_size", .double t.bidSize), ("ask_price", .double t.askSize),
    ("timestamp", .integer t.timestamp)]

def orderDataDoc (d : OrderData) : Document :=
  [("order_id", .integer d.orderId), ("symbol", .string d.symbol),
    ("exchange", .string d.exchange), ("source", .string d.source),
    ("order_type", .string d.orderType.toIb), ("action", .string d.action.toIb),
    ("total_quantity", .double d.totalQuantity), ("traded_quantity", .double d.tradedQuantity),
    ("avg_trade_price", .double d.avgTradePrice), ("commission", .double d.commission),
    ("status", .string d.status.toIb), ("error_code", .integer d.errorCode)]

/-- A call of `insert_one`, whether or not the database then takes the document. -/
structure Insert where
  coll : String
  doc : Document
  deriving DecidableEq

/-- The variable `event` of `run_action`. Its constructor leaves the type
indeterminate and the data null. -/
inductive Slot
  | indeterminate (eType : EventType)
  | popped (e : Event)
  deriving DecidableEq

def Slot.popped? : Slot → Option Event
  | .popped e => some e
  | .indeterminate _ => none

theorem Slot.eq_indeterminate_or_popped (event : Slot) :
    (∃ eType, event = .indeterminate eType) ∨ ∃ e, event = .popped e := by
  cases event with
  | indeterminate eType => exact .inl ⟨eType, rfl⟩
  | popped e => exact .inr ⟨e, rfl⟩

/-- The `switch` of `run_action`: the insertion that it attempts. -/
def save : Slot → Except Fault (Option Insert)
  | .popped (.orderData d) => .ok (some ⟨"order_data", orderDataDoc d⟩)
  | .popped (.tickData t) => .ok (some ⟨"tick", tickDoc t⟩)
  | .popped _ => .ok none
  | .indeterminate .orderData | .indeterminate .tickData => .error .nullPointer
  | .indeterminate _ => .ok none

def record? : Event → Option Insert
  | .orderData d => some ⟨"order_data", orderDataDoc d⟩
  | .tickData t => some ⟨"tick", tickDoc t⟩
  | _ => none

/-- `popped` and `inserted` are history: the events taken from the queue and the
insertions attempted, oldest first. -/
structure Recorder where
  running : Bool := false
  q : List Event := []
  event : Slot := .indeterminate .eventEngineStop
  popped : List Event := []
  inserted : List Insert := []

/-- `start` is labelled with what happens to stand in the new event variable. -/
inductive Move
  | start (eType : EventType)
  | stop
  | copyToQueue (e : Event)
  | pop
  | timeOut

namespace Recorder

def saved (s : Recorder) : Option Recorder :=
  (save s.event).toOption.map fun insert => { s with inserted := s.inserted ++ insert.toList }

/-- A round of `run_action` goes on to the `switch` whether or not its wait has
found an event. -/
def step (s : Recorder) : Move → Option Recorder
  | .start eType =>
    if s.running then some s else some { s with running := true, event := .indeterminate eType }
  | .stop => some { s with running := false }
  | .copyToQueue e =>
    if e.eType = .tickData ∨ e.eType = .orderData then some { s with q := s.q ++ [e] } else none
  | .pop =>
    match s.running, s.q with
    | true, e :: rest => { s with q := rest, event := .popped e, popped := s.popped ++ [e] }.saved
    | _, _ => none
  | .timeOut => if s.running = true ∧ s.q = [] then s.saved else none

end Recorder

def recorder : Machine Recorder Move where
  init := {}
  step := Recorder.step

/-- The insertions are those of the popped events, in order and once each. -/
def Faithful (s : Recorder) : Prop := s.inserted.map some = s.popped.map record?

/-- No wait times out once it has an event behind it. -/
def Busy (s : Recorder) : Move → Prop
  | .timeOut => ∀ e, s.event ≠ .popped e
  | _ => True

/-- Only events that have a record are ever queued. -/
structure Recorded (s : Recorder) : Prop where
  queued : ∀ e ∈ s.q, (record? e).isSome = true
  event : ∀ e, s.event = .popped e → (record? e).isSome = true

theorem save_popped {e : Event} (he : (record? e).isSome = true) :
    ∃ insert, record? e = some insert ∧ save (.popped e) = .ok (some insert) := by
  cases e with
  | tickData t => exact ⟨_, rfl, rfl⟩
  | orderData d => exact ⟨_, rfl, rfl⟩
  | _ => cases he

theorem save_indeterminate {eType : EventType} {insert : Option Insert}
    (h : save (.indeterminate eType) = .ok insert) : insert = none := by
  cases eType <;> cases h <;> rfl

inductive Moved (s : Recorder) : Move → Recorder → Prop
  | quiet {a : Move} {t : Recorder} (ha : Busy s a) (hq : t.q = s.q)
      (hevent : ∀ e, t.event = .popped e → s.event = .popped e) (hpopped : t.popped = s.popped)
      (hinserted : t.inserted = s.inserted) : Moved s a t
  | copyToQueue {e : Event} (he : (record? e).isSome = true) :
      Moved s (.copyToQueue e) { s with q := s.q ++ [e] }
  | pop {e : Event} {rest : List Event} {insert : Insert} (hq : s.q = e :: rest)
      (he : record? e = some insert) :
      Moved s .pop
        { s with
          q := rest
          event := .popped e
          popped := s.popped ++ [e]
          inserted := s.inserted ++ [insert] }
  | replay {e : Event} {insert : Insert} (hevent : s.event = .popped e)
      (he : record? e = some insert) :
      Moved s .timeOut { s with inserted := s.inserted ++ [insert] }

theorem step_moved {s t : Recorder} {a : Move} (hs : Recorded s)
    (ht : recorder.step s a = some t) : Moved s a t := by
  cases a with
  | start eType =>
    simp only [recorder, Recorder.step] at ht
    split at ht <;> cases ht
    · exact .quiet trivial rfl (fun _ => id) rfl rfl
    · exact .quiet trivial rfl (fun _ he => by cases he) rfl rfl
  | stop =>
    cases ht
    exact .quiet trivial rfl (fun _ => id) rfl rfl
  | copyToQueue e =>
    simp only [recorder, Recorder.step] at ht
    split at ht <;> cases ht
    next he =>
      apply Moved.copyToQueue
      cases e <;> first | rfl | simp [Event.eType] at he
  | pop =>
    simp only [recorder, Recorder.step] at ht
    split at ht
    · next hq =>
      obtain ⟨insert, he, hsave⟩ := save_popped (hs.queued _ (hq ▸ List.mem_cons_self))
      obtain ⟨_, hok, rfl⟩ := toOption_map_eq_some.mp ht
      cases hsave.symm.trans hok
      exact .pop hq he
    · cases ht
  | timeOut =>
    simp only [recorder, Recorder.step] at ht
    split at ht
    · obtain ⟨insert, hok, rfl⟩ := toOption_map_eq_some.mp ht
      obtain ⟨eType, hevent⟩ | ⟨e, hevent⟩ := s.event.eq_indeterminate_or_popped
      · rw [hevent] at hok
        cases save_indeterminate hok
        exact .quiet (by simp [Busy, hevent]) rfl (fun _ => id) rfl (List.append_nil _)
      · obtain ⟨insert', he, hsave⟩ := save_popped (hs.event e hevent)
        rw [hevent, hsave] at hok
        cases hok
        exact .replay hevent he
    · cases ht

theorem Recorded.step {s t : Recorder} {a : Move} (h : Recorded s)
    (ht : recorder.step s a = some t) : Recorded t := by
  cases step_moved h ht with
  | quiet _ hq hevent _ _ =>
    exact ⟨hq ▸ h.queued, fun e he => h.event e (hevent e he)⟩
  | copyToQueue he =>
    refine ⟨fun e hmem => ?_, h.event⟩
    obtain hmem | hmem := List.mem_append.mp hmem
    · exact h.queued e hmem
    · rwa [List.mem_singleton.mp hmem]
  | pop hq he =>
    refine ⟨fun e hmem => h.queued e (hq ▸ List.mem_cons_of_mem _ hmem), fun e hevent => ?_⟩
    cases hevent
    simp [he]
  | replay => exact ⟨h.queued, h.event⟩

theorem faithful_step {s t : Recorder} {a : Move} (h : Recorded s) (hp : Faithful s)
    (ht : recorder.step s a = some t) : Faithful t ↔ Busy s a := by
  rw [Faithful] at hp
  cases step_moved h ht with
  | quiet ha _ _ hpopped hinserted =>
    rw [Faithful, hpopped, hinserted]
    exact iff_of_true hp ha
  | copyToQueue => exact iff_of_true hp trivial
  | pop hq he =>
    refine iff_of_true ?_ trivial
    simp only [Faithful, List.map_append, hp, List.map_cons, List.map_nil, he]
  | replay hevent he =>
    -- One more insertion than events.
    apply iff_of_false
    · intro hf
      have hlen := congrArg List.length hf
      have hlen' := congrArg List.length hp
      simp only [List.map_append, List.length_append, List.length_map, List.length_cons,
        List.length_nil] at hlen hlen'
      omega
    · exact fun hbusy => hbusy _ hevent

theorem inserts_follow_pops_iff (as : List Move) :
    recorder.StatesAll Faithful recorder.init as ↔ recorder.StepsAll Busy recorder.init as := by
  apply Machine.statesAll_iff_stepsAll (I := Recorded)
  · exact fun _ _ _ h ht => h.step ht
  · exact fun _ _ _ h hp ht => faithful_step h hp ht
  · constructor <;> simp [recorder]
  · rfl

/-- One tick, and then a second without traffic. -/
def idleSecond : List Move :=
  [.start .eventEngineStop, .copyToQueue (.tickData { symbol := "6758-STK-JPY.TSEJ" }), .pop,
    .timeOut]

theorem tick_inserted_twice : ¬ ∀ s, recorder.Reachable s → Faithful s := by
  intro hall
  have hrun : ((recorder.run recorder.init idleSecond).map fun s =>
      (s.inserted.length, s.popped.length)) = some (2, 1) := by
    decide +kernel
  obtain ⟨s, hs, hcount⟩ := Machine.exists_reachable_of_run hrun
  obtain ⟨htwo, hone⟩ := Prod.mk.inj hcount
  have hlen := congrArg List.length (hall s hs)
  rw [List.length_map, List.length_map, htwo, hone] at hlen
  exact absurd hlen (by decide)

end CalmTrading.DataRecorder
