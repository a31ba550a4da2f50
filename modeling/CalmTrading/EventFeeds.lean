import CalmTrading.EventDispatch

namespace CalmTrading.EventFeeds

open Lib Lib.Rounds Objects EventLoop EventDispatch

variable {C : Type*} {h : List (Registration C)} {s t : System C}

/-- A component registers at most one callback for each type of event and none for
the stop. It goes by its names, also where a later registration under one of them has
replaced its callback. -/
structure Component (h : List (Registration C)) where
  name? : EventType → Option String
  enrolled : ∀ eType cbName, name? eType = some cbName → cbName ∈ (registered h).mCbs eType
  stop : name? .eventEngineStop = none

theorem mem_registered {r : Registration C} (hr : r ∈ h) :
    r.cbName ∈ (registered h).mCbs r.eType := by
  have hmem : r ∈ h.filter fun r' => r'.eType = r.eType ∧ r'.cbName = r.cbName :=
    List.mem_filter.mpr ⟨hr, by simp⟩
  apply Table.mem_iff_lookup.mpr
  rw [registered_lookup, lastRegistered, List.getLast?_eq_some_getLast (List.ne_nil_of_mem hmem)]
  exact ⟨_, rfl⟩

def nextCall (s : System C) : Option (Event × String × C) :=
  match s.worker with
  | .calling e (name :: _) => ((s.engine.mCbs e.eType).lookup name).map fun cb => (e, name, cb)
  | _ => none

namespace Component

variable (c : Component h)

def takes (e : Event) : Bool := (c.name? e.eType).isSome

def due (pc : Pc C) : List Event :=
  match dispatching pc with
  | some (e, todo) => if (c.name? e.eType).any fun name => name ∈ todo then [e] else []
  | none => []

def coming (s : System C) : List Event := c.due s.worker ++ s.engine.q.filter c.takes

def heard (s : System C) : List Event :=
  s.calls.filterMap fun d => s.popped[d.round]?.filter fun e => c.name? e.eType = some d.key

variable {c}

theorem due_eq_nil {pc : Pc C} (h : dispatching pc = none) : c.due pc = [] := by rw [due, h]

theorem due_popped {e : Event} {order : List String}
    (horder : ∀ cbName, cbName ∈ order ↔ cbName ∈ (registered h).mCbs e.eType) :
    c.due (.calling e order : Pc C) = [e].filter c.takes := by
  cases hname : c.name? e.eType with
  | none => simp [due, dispatching, takes, hname]
  | some name =>
    have hmem := (horder name).mpr (c.enrolled _ _ hname)
    simp [due, dispatching, takes, hname, hmem]

theorem due_called {e : Event} {name : String} {todo : List String} (hname : name ∉ todo) :
    c.due (.calling e (name :: todo) : Pc C) =
      (if c.name? e.eType = some name then [e] else []) ++ c.due (.inside e todo : Pc C) := by
  cases hkey : c.name? e.eType with
  | none => simp [due, dispatching, hkey]
  | some key =>
    by_cases hk : key = name
    · subst hk
      simp [due, dispatching, hkey, hname]
    · simp [due, dispatching, hkey, hk]

theorem heard_popped (hv : Served h s) (e : Event) {rest : List Event} {pc : Pc C} :
    c.heard
        { s with
          engine := { s.engine with q := rest }, popped := s.popped ++ [e], worker := pc } =
      c.heard s := by
  apply List.filterMap_congr
  intro d hd
  have hround := hv.serves.bounded d hd
  rw [List.getElem?_append_left hround]

end Component

variable {c : Component h}

open Component

/-- All that a step of `run` does for a component: it calls it with the oldest
event to come, or it leaves what is to come as it is. -/
theorem ran_coming (hg : Guarded h s) (hv : Served h s) {m : RunMove C} (ht : Ran s m t) :
    (∃ e name cb, m = .next ∧ nextCall s = some (e, name, cb) ∧
      lastRegistered h e.eType name = some cb ∧
      c.coming s = (if c.name? e.eType = some name then [e] else []) ++ c.coming t ∧
      c.heard t = c.heard s ++ if c.name? e.eType = some name then [e] else []) ∨
    ((m = .next → nextCall s = none) ∧ c.coming t = c.coming s ∧ c.heard t = c.heard s) := by
  cases ht with
  | @call e name todo cb hpc hcb =>
    have htable := (hg.busy (by simp [hpc, Leaving])).1
    have hnodup : name ∉ todo := by
      have hnames := hv.serves.nodup
      rw [hpc] at hnames
      exact (List.nodup_cons.mp hnames).1
    refine .inl ⟨e, name, cb, rfl, by simp [nextCall, hpc, hcb], ?_, ?_, ?_⟩
    · rw [← registered_lookup, ← htable, hcb]
    · simp only [coming, hpc, due_called hnodup, List.append_assoc]
    · have hlast := (hv.event e (name :: todo) (by rw [hpc]; rfl)).1
      rw [List.getLast?_eq_getElem?] at hlast
      simp only [heard, List.filterMap_append, List.filterMap_cons, List.filterMap_nil, hlast]
      by_cases hname : c.name? e.eType = some name <;> simp [Option.filter, hname]
  | done hpc =>
    refine .inr ⟨fun _ => by simp [nextCall, hpc], ?_, rfl⟩
    simp [coming, due, dispatching, hpc]
  | popStop hpc hq he =>
    refine .inr ⟨by simp, ?_, heard_popped hv _⟩
    simp [coming, due, dispatching, hpc, hq, takes, he, c.stop]
  | @pop order e rest hpc hq he horder =>
    have htable := (hg.busy (by simp [hpc, Leaving])).1
    refine .inr ⟨by simp, ?_, heard_popped hv _⟩
    have hmem : ∀ cbName, cbName ∈ order ↔ cbName ∈ (registered h).mCbs e.eType := by
      intro cbName
      rw [horder.mem_iff, htable, ← AList.mem_keys]
    have hnil : c.due s.worker = [] := due_eq_nil (by rw [hpc]; rfl)
    rw [coming, coming, due_popped hmem, hnil, hq, ← List.filter_append]
    rfl
  | guard hpc =>
    refine .inr ⟨by simp, ?_, rfl⟩
    cases hrunning : s.engine.running <;> simp [coming, due, dispatching, hpc]
  | timeout hpc =>
    refine .inr ⟨by simp, ?_, rfl⟩
    simp [coming, due, dispatching, hpc]
  | registerCb hpc | returned hpc | threw hpc | lockRegister hpc =>
    refine .inr ⟨by simp, ?_, rfl⟩
    simp only [coming, hpc, due, dispatching]
  | lockStop hpc | clear hpc =>
    refine .inr ⟨by simp, ?_, rfl⟩
    simp only [coming, hpc, due, dispatching]
  | enrol hpc =>
    refine .inr ⟨by simp, ?_, rfl⟩
    simp only [coming, hpc, due, dispatching, registerCb_q]

theorem send_coming (e : Event) :
    c.coming { s with engine := s.engine.send e, pushed := s.pushed ++ [e] } =
      c.coming s ++ [e].filter c.takes := by
  simp only [coming, EventEngine.send, List.filter_append, List.append_assoc]

def sendAll (s : System C) (es : List Event) : System C :=
  { s with engine := { s.engine with q := s.engine.q ++ es }, pushed := s.pushed ++ es }

theorem sendAll_coming (es : List Event) :
    c.coming (sendAll s es) = c.coming s ++ es.filter c.takes := by
  simp only [coming, sendAll, List.filter_append, List.append_assoc]

theorem sendAll_sound (hg : Guarded h s) (hv : Served h s) (es : List Event) :
    Guarded h (sendAll s es) ∧ Served h (sendAll s es) := by
  refine ⟨⟨hg.caller, hg.worker, hg.cleared, hg.joined, hg.table⟩, ?_⟩
  refine hv.frame ?_ rfl rfl (fun _ hd => hd) rfl (fun hs => hs)
  rw [sendAll, ← List.append_assoc, hv.queue]

/-- What a component has heard and what is still to come are the events sent of
the types that it takes. -/
def Fed (c : Component h) (s : System C) : Prop :=
  c.heard s ++ c.coming s = s.pushed.filter c.takes

theorem coming_init (c : Component h) : c.coming (system h).init = [] := by
  have hq : (registered h).q = [] := (Served.init h).queue
  simp [coming, due, dispatching, system, EventEngine.start, hq]

theorem Fed.frame (hf : Fed c s) (hheard : c.heard t = c.heard s)
    (hcoming : c.coming t = c.coming s) (hpushed : t.pushed = s.pushed) : Fed c t := by
  rw [Fed, hheard, hcoming, hpushed]
  exact hf

theorem ran_pushed {m : RunMove C} (ht : Ran s m t) : t.pushed = s.pushed := by
  cases ht <;> rfl

theorem Fed.step {a : Move C} (hg : Guarded h s) (hv : Served h s) (hf : Fed c s)
    (ht : Moved s a t) : Fed c t := by
  cases ht with
  | send e =>
    rw [Fed, send_coming, ← List.append_assoc]
    rw [List.filter_append, ← hf]
    rfl
  | register hfree =>
    exact hf.frame rfl (by simp only [coming, registerCb_q]) rfl
  | stop ht =>
    cases ht <;> exact hf.frame rfl rfl rfl
  | run ht =>
    obtain ⟨e, name, cb, _, _, _, hcoming, hheard⟩ | ⟨_, hcoming, hheard⟩ := ran_coming hg hv ht
    · rw [Fed, hheard, List.append_assoc, ← hcoming, ran_pushed ht]
      exact hf
    · exact hf.frame hheard hcoming (ran_pushed ht)

/-- Every component is called with the events of its types in the order in which
they were sent and once each, whatever the other components register, and what
it has not been called with is still to come. -/
theorem components_fed_in_order (hs : (system h).Reachable s) (c : Component h) : Fed c s := by
  have hall : Guarded h s ∧ Served h s ∧ Fed c s := by
    apply hs.invariant
    · exact ⟨.init h, .init h, coming_init c⟩
    · intro s a t _ ⟨hg, hv, hf⟩ _ ht
      exact ⟨hg.step (step_moved ht), .step hg hv (step_moved ht), hf.step hg hv (step_moved ht)⟩
  exact hall.2.2

/-- The component of the printing callback. -/
def printing : Component printer where
  name? eType := if eType = .eventEngineTest then some "printer" else none
  enrolled eType cbName hname := by
    split at hname
    · next htype =>
      cases hname
      subst htype
      exact Table.mem_iff_lookup.mpr ⟨2, registered_lookup _ _ _⟩
    · cases hname
  stop := rfl

theorem components_fed_in_order_printed :
    Fed printing afterPrint ∧ printing.heard afterPrint = [.eventEngineTest] :=
  ⟨components_fed_in_order (Machine.reachable_stateAfter _) printing, by decide +kernel⟩

end CalmTrading.EventFeeds
