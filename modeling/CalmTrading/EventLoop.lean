import CalmTrading.Lib.Machine
import CalmTrading.Lib.Rounds
import CalmTrading.Lib.Table
import CalmTrading.Objects

namespace CalmTrading.EventLoop

open Lib Lib.Rounds Objects

variable {C : Type*}

/-- The arguments of `register_cb`. Callbacks are of any type: nothing is known
of them but their identity. -/
structure Registration (C : Type*) where
  eType : EventType
  cbName : String
  cb : C

structure EventEngine (C : Type*) where
  running : Bool := false
  q : List Event := []
  mCbs : EventType → Table String C := fun _ => ∅

namespace EventEngine

def start (en : EventEngine C) : EventEngine C := { en with running := true }

def send (en : EventEngine C) (e : Event) : EventEngine C := { en with q := en.q ++ [e] }

def registerCb (en : EventEngine C) (r : Registration C) : EventEngine C × Bool :=
  if en.running then (en, false)
  else
    ({ en with
        mCbs := Function.update en.mCbs r.eType ((en.mCbs r.eType).insert r.cbName r.cb) }, true)

end EventEngine

inductive Thread
  | caller | worker
  deriving DecidableEq

/-- Where `run` stands: at its guard, before it pops, before and after it locks
the mutex for a stop event, before the next callback of an event, inside a
callback, before and after that callback locks the mutex in `register_cb`, or
after its end. -/
inductive Pc (C : Type*)
  | guard
  | pop
  | stopping
  | clearing
  | calling (e : Event) (todo : List String)
  | inside (e : Event) (todo : List String)
  | registering (r : Registration C) (e : Event) (todo : List String)
  | admitted (r : Registration C) (e : Event) (todo : List String)
  | ended

/-- Where the thread that calls `stop` stands: outside, after locking the mutex,
in the join, or after the join. -/
inductive Caller
  | idle | holding | joining | joined
  deriving DecidableEq

/-- The engine between its threads, after `start`. The last three fields are
history: the events pushed and popped, and the callbacks called, each with the
number of its event. -/
structure System (C : Type*) where
  engine : EventEngine C
  owner : Option Thread := none
  worker : Pc C := .guard
  caller : Caller := .idle
  joinable : Bool := true
  pushed : List Event := []
  popped : List Event := []
  calls : List (Delivery String C) := []

inductive StopMove
  | lock | clear | join | unlock

/-- `pop` carries the order in which the hash map lists its callbacks. -/
inductive RunMove (C : Type*)
  | guard | timeout
  | pop (order : List String)
  | next
  | registerCb (r : Registration C)
  | returned | threw
  | lock | unlock

/-- Any thread may send, callbacks included, and any other thread may try to
register a callback. -/
inductive Move (C : Type*)
  | send (e : Event)
  | register (r : Registration C)
  | stop (m : StopMove)
  | run (m : RunMove C)

namespace System

/-- The steps of `stop`, which joins without giving the mutex back. -/
def stop (s : System C) : StopMove → Option (System C)
  | .lock =>
    if s.caller = .idle ∧ s.owner = none then
      some { s with owner := some .caller, caller := .holding }
    else none
  | .clear =>
    if s.caller = .holding then
      some
        { s with
          engine := { s.engine with running := false }
          caller := if s.joinable then .joining else .joined }
    else none
  | .join =>
    match s.caller, s.worker with
    | .joining, .ended => some { s with caller := .joined, joinable := false }
    | _, _ => none
  | .unlock =>
    if s.caller = .joined then some { s with owner := none, caller := .idle } else none

/-- The steps of `run`. A callback that throws is treated like one that returns. -/
def run (s : System C) : RunMove C → Option (System C)
  | .guard =>
    match s.worker with
    | .guard => some { s with worker := if s.engine.running then .pop else .ended }
    | _ => none
  | .timeout =>
    match s.worker, s.engine.q with
    | .pop, [] => some { s with worker := .guard }
    | _, _ => none
  | .pop order =>
    match s.worker, s.engine.q with
    | .pop, e :: rest =>
      let t := { s with engine := { s.engine with q := rest }, popped := s.popped ++ [e] }
      if e.eType = .eventEngineStop then some { t with worker := .stopping }
      else if order.Perm (s.engine.mCbs e.eType).keys then
        some { t with worker := .calling e order }
      else none
    | _, _ => none
  | .next =>
    match s.worker with
    | .calling _ [] => some { s with worker := .guard }
    | .calling e (name :: todo) =>
      ((s.engine.mCbs e.eType).lookup name).map fun cb =>
        { s with worker := .inside e todo, calls := s.calls ++ [⟨s.popped.length - 1, name, cb⟩] }
    | _ => none
  | .registerCb r =>
    match s.worker with
    | .inside e todo => some { s with worker := .registering r e todo }
    | _ => none
  | .returned | .threw =>
    match s.worker with
    | .inside e todo => some { s with worker := .calling e todo }
    | _ => none
  | .lock =>
    if s.owner = none then
      match s.worker with
      | .stopping => some { s with owner := some .worker, worker := .clearing }
      | .registering r e todo => some { s with owner := some .worker, worker := .admitted r e todo }
      | _ => none
    else none
  | .unlock =>
    match s.worker with
    | .clearing =>
      some { s with engine := { s.engine with running := false }, owner := none, worker := .guard }
    | .admitted r e todo =>
      some { s with engine := (s.engine.registerCb r).1, owner := none, worker := .inside e todo }
    | _ => none

def step (s : System C) : Move C → Option (System C)
  | .send e => some { s with engine := s.engine.send e, pushed := s.pushed ++ [e] }
  | .register r =>
    if s.owner = none then some { s with engine := (s.engine.registerCb r).1 } else none
  | .stop m => s.stop m
  | .run m => s.run m

end System

def registered (h : List (Registration C)) : EventEngine C :=
  h.foldl (fun en r => (en.registerCb r).1) {}

def system (h : List (Registration C)) : Machine (System C) (Move C) where
  init := { engine := (registered h).start }
  step := System.step

inductive Stopped (s : System C) : StopMove → System C → Prop
  | lock (hidle : s.caller = .idle) (hfree : s.owner = none) :
      Stopped s .lock { s with owner := some .caller, caller := .holding }
  | clear (hcaller : s.caller = .holding) :
      Stopped s .clear
        { s with
          engine := { s.engine with running := false }
          caller := if s.joinable then .joining else .joined }
  | join (hcaller : s.caller = .joining) (hended : s.worker = .ended) :
      Stopped s .join { s with caller := .joined, joinable := false }
  | unlock (hcaller : s.caller = .joined) :
      Stopped s .unlock { s with owner := none, caller := .idle }

inductive Ran (s : System C) : RunMove C → System C → Prop
  | guard (hpc : s.worker = .guard) :
      Ran s .guard { s with worker := if s.engine.running then .pop else .ended }
  | timeout (hpc : s.worker = .pop) : Ran s .timeout { s with worker := .guard }
  | popStop {order : List String} {e : Event} {rest : List Event} (hpc : s.worker = .pop)
      (hq : s.engine.q = e :: rest) (he : e.eType = .eventEngineStop) :
      Ran s (.pop order)
        { s with
          engine := { s.engine with q := rest }, popped := s.popped ++ [e], worker := .stopping }
  | pop {order : List String} {e : Event} {rest : List Event} (hpc : s.worker = .pop)
      (hq : s.engine.q = e :: rest) (he : e.eType ≠ .eventEngineStop)
      (horder : order.Perm (s.engine.mCbs e.eType).keys) :
      Ran s (.pop order)
        { s with
          engine := { s.engine with q := rest }
          popped := s.popped ++ [e]
          worker := .calling e order }
  | done {e : Event} (hpc : s.worker = .calling e []) : Ran s .next { s with worker := .guard }
  | call {e : Event} {name : String} {todo : List String} {cb : C}
      (hpc : s.worker = .calling e (name :: todo))
      (hcb : (s.engine.mCbs e.eType).lookup name = some cb) :
      Ran s .next
        { s with worker := .inside e todo, calls := s.calls ++ [⟨s.popped.length - 1, name, cb⟩] }
  | registerCb {r : Registration C} {e : Event} {todo : List String} (hpc : s.worker = .inside e todo) :
      Ran s (.registerCb r) { s with worker := .registering r e todo }
  | returned {e : Event} {todo : List String} (hpc : s.worker = .inside e todo) :
      Ran s .returned { s with worker := .calling e todo }
  | threw {e : Event} {todo : List String} (hpc : s.worker = .inside e todo) :
      Ran s .threw { s with worker := .calling e todo }
  | lockStop (hpc : s.worker = .stopping) (hfree : s.owner = none) :
      Ran s .lock { s with owner := some .worker, worker := .clearing }
  | lockRegister {r : Registration C} {e : Event} {todo : List String}
      (hpc : s.worker = .registering r e todo) (hfree : s.owner = none) :
      Ran s .lock { s with owner := some .worker, worker := .admitted r e todo }
  | clear (hpc : s.worker = .clearing) :
      Ran s .unlock
        { s with engine := { s.engine with running := false }, owner := none, worker := .guard }
  | enrol {r : Registration C} {e : Event} {todo : List String}
      (hpc : s.worker = .admitted r e todo) :
      Ran s .unlock
        { s with engine := (s.engine.registerCb r).1, owner := none, worker := .inside e todo }

inductive Moved (s : System C) : Move C → System C → Prop
  | send (e : Event) :
      Moved s (.send e) { s with engine := s.engine.send e, pushed := s.pushed ++ [e] }
  | register {r : Registration C} (hfree : s.owner = none) :
      Moved s (.register r) { s with engine := (s.engine.registerCb r).1 }
  | stop {m : StopMove} {t : System C} (ht : Stopped s m t) : Moved s (.stop m) t
  | run {m : RunMove C} {t : System C} (ht : Ran s m t) : Moved s (.run m) t

theorem stop_stopped {s t : System C} {m : StopMove} (ht : s.stop m = some t) : Stopped s m t := by
  cases m with
  | lock =>
    simp only [System.stop] at ht
    split at ht
    · next h => cases ht; exact .lock h.1 h.2
    · cases ht
  | clear =>
    simp only [System.stop] at ht
    split at ht
    · next h => cases ht; exact .clear h
    · cases ht
  | join =>
    simp only [System.stop] at ht
    split at ht
    · next hcaller hended => cases ht; exact .join hcaller hended
    · cases ht
  | unlock =>
    simp only [System.stop] at ht
    split at ht
    · next h => cases ht; exact .unlock h
    · cases ht

theorem run_ran {s t : System C} {m : RunMove C} (ht : s.run m = some t) : Ran s m t := by
  cases m with
  | guard =>
    simp only [System.run] at ht
    split at ht
    · next hpc => cases ht; exact .guard hpc
    · cases ht
  | timeout =>
    simp only [System.run] at ht
    split at ht
    · next hpc _ => cases ht; exact .timeout hpc
    · cases ht
  | pop order =>
    simp only [System.run] at ht
    split at ht
    · next hpc hq =>
      split at ht
      · next he => cases ht; exact .popStop hpc hq he
      · next he =>
        split at ht
        · next horder => cases ht; exact .pop hpc hq he horder
        · cases ht
    · cases ht
  | next =>
    simp only [System.run] at ht
    split at ht
    · next hpc => cases ht; exact .done hpc
    · next hpc =>
      obtain ⟨cb, hcb, rfl⟩ := Option.map_eq_some_iff.mp ht
      exact .call hpc hcb
    · cases ht
  | registerCb r =>
    simp only [System.run] at ht
    split at ht
    · next hpc => cases ht; exact .registerCb hpc
    · cases ht
  | returned =>
    simp only [System.run] at ht
    split at ht
    · next hpc => cases ht; exact .returned hpc
    · cases ht
  | threw =>
    simp only [System.run] at ht
    split at ht
    · next hpc => cases ht; exact .threw hpc
    · cases ht
  | lock =>
    simp only [System.run] at ht
    split at ht
    · next hfree =>
      split at ht
      · next hpc => cases ht; exact .lockStop hpc hfree
      · next hpc => cases ht; exact .lockRegister hpc hfree
      · cases ht
    · cases ht
  | unlock =>
    simp only [System.run] at ht
    split at ht
    · next hpc => cases ht; exact .clear hpc
    · next hpc => cases ht; exact .enrol hpc
    · cases ht

theorem step_moved {h : List (Registration C)} {s t : System C} {a : Move C}
    (ht : (system h).step s a = some t) : Moved s a t := by
  cases a with
  | send e =>
    cases ht
    exact .send e
  | register r =>
    simp only [system, System.step] at ht
    split at ht
    · next hfree => cases ht; exact .register hfree
    · cases ht
  | stop m => exact .stop (stop_stopped ht)
  | run m => exact .run (run_ran ht)

end CalmTrading.EventLoop
