import CalmTrading.EventLoop
import Mathlib.Data.List.Induction

namespace CalmTrading.EventDispatch

open Lib Lib.Rounds Objects EventLoop

variable {C : Type*}

def lastRegistered (h : List (Registration C)) (eType : EventType) (cbName : String) : Option C :=
  ((h.filter fun r => r.eType = eType ∧ r.cbName = cbName).getLast?).map Registration.cb

def owed (h : List (Registration C)) (popped : List Event) (i : Nat) (cbName : String) : List C :=
  match popped[i]? with
  | some e =>
    if e.eType = .eventEngineStop then [] else (lastRegistered h e.eType cbName).toList
  | none => []

/-- The event that `run` is dispatching, and the names it is still to call. -/
def dispatching : Pc C → Option (Event × List String)
  | .calling e todo | .inside e todo | .registering _ e todo | .admitted _ e todo => some (e, todo)
  | _ => none

def remaining (pc : Pc C) : List String := (dispatching pc).elim [] Prod.snd

def Leaving (pc : Pc C) : Prop := pc = .guard ∨ pc = .ended

def Locked (pc : Pc C) : Prop := pc = .clearing ∨ ∃ r e todo, pc = .admitted r e todo

/-- Events are popped in the order in which they were pushed; every event but
a stop calls each callback of its type once, the last event up to the names that
are still to come; nothing is popped or called after a stop; while the engine
runs no step changes the callbacks. -/
structure Dispatched (h : List (Registration C)) (s : System C) : Prop where
  popped : s.popped <+: s.pushed
  called : ∀ i cbName, i < s.popped.length → received s.calls i cbName =
    if i + 1 = s.popped.length ∧ cbName ∈ remaining s.worker then [] else owed h s.popped i cbName
  calls : ∀ c ∈ s.calls, c.round < s.popped.length
  stopped : ∀ i e, s.popped[i]? = some e → e.eType = .eventEngineStop →
    i + 1 = s.popped.length ∧ ∀ c ∈ s.calls, c.round < i
  unchanged : ∀ a t, (system h).step s a = some t → s.engine.running = true →
    t.engine.mCbs = s.engine.mCbs
  next : ∀ e cbName todo, s.worker = .calling e (cbName :: todo) →
    ∃ t, (system h).step s (.run .next) = some t

/-- Who holds the mutex, and why the table of callbacks stays as it is. -/
structure Guarded (h : List (Registration C)) (s : System C) : Prop where
  caller : s.owner = some .caller ↔ s.caller ≠ .idle
  worker : s.owner = some .worker ↔ Locked s.worker
  cleared : s.engine.running = false → Leaving s.worker ∨ s.caller = .joining
  joined : s.caller = .joined ∨ s.joinable = false → s.worker = .ended
  table : s.engine.mCbs = (registered h).mCbs ∨ s.engine.running = false ∧ Leaving s.worker

/-- What `run` has done with the events it popped. -/
structure Served (h : List (Registration C)) (s : System C) : Prop where
  queue : s.popped ++ s.engine.q = s.pushed
  stopped : ∀ i e, s.popped[i]? = some e → e.eType = .eventEngineStop →
    i + 1 = s.popped.length ∧
      (s.worker = .stopping ∨ s.worker = .clearing ∨ s.engine.running = false ∧ Leaving s.worker)
  event : ∀ e todo, dispatching s.worker = some (e, todo) →
    s.popped.getLast? = some e ∧ e.eType ≠ .eventEngineStop
  names : ∀ e todo, dispatching s.worker = some (e, todo) →
    ∀ cbName ∈ todo, cbName ∈ (registered h).mCbs e.eType
  serves : Serves (owed h s.popped) s.calls s.popped.length (remaining s.worker)

section Registered

variable {h : List (Registration C)}

theorem registerCb_running (en : EventEngine C) (r : Registration C) :
    (en.registerCb r).1.running = en.running := by
  rw [EventEngine.registerCb]
  split <;> rfl

theorem registerCb_q (en : EventEngine C) (r : Registration C) : (en.registerCb r).1.q = en.q := by
  rw [EventEngine.registerCb]
  split <;> rfl

theorem registered_snoc (r : Registration C) :
    registered (h ++ [r]) = ((registered h).registerCb r).1 := by
  rw [registered, List.foldl_append]
  rfl

theorem registered_running (h : List (Registration C)) : (registered h).running = false := by
  induction h using List.reverseRecOn with
  | nil => rfl
  | append_singleton h r ih => rw [registered_snoc, registerCb_running, ih]

theorem lastRegistered_snoc (r : Registration C) (eType : EventType) (cbName : String) :
    lastRegistered (h ++ [r]) eType cbName =
      if r.eType = eType ∧ r.cbName = cbName then some r.cb else lastRegistered h eType cbName := by
  by_cases hr : r.eType = eType ∧ r.cbName = cbName <;> simp [lastRegistered, hr]

theorem registered_lookup (h : List (Registration C)) (eType : EventType) (cbName : String) :
    ((registered h).mCbs eType).lookup cbName = lastRegistered h eType cbName := by
  induction h using List.reverseRecOn with
  | nil => rfl
  | append_singleton h r ih =>
    rw [registered_snoc, EventEngine.registerCb, registered_running, lastRegistered_snoc]
    by_cases ht : r.eType = eType
    · subst ht
      simp only [Bool.false_eq_true, if_false, Function.update_self, Table.lookup_insert_ite,
        true_and, ih, eq_comm]
    · simp [ht, Function.update_of_ne (Ne.symm ht), ih]

end Registered

variable {h : List (Registration C)} {s t : System C}

namespace Guarded

theorem busy (hg : Guarded h s) (hpc : ¬ Leaving s.worker) :
    s.engine.mCbs = (registered h).mCbs ∧ (s.engine.running = false → s.caller = .joining) ∧
      ¬ (s.caller = .joined ∨ s.joinable = false) :=
  ⟨hg.table.resolve_right fun hright => hpc hright.2,
    fun hrunning => (hg.cleared hrunning).resolve_left hpc,
    fun hjoined => hpc (.inr (hg.joined hjoined))⟩

theorem idle (hg : Guarded h s) (howner : s.owner ≠ some .caller) : s.caller = .idle := by
  by_contra hcaller
  exact howner (hg.caller.mpr hcaller)

theorem goto (hg : Guarded h s) (hpc : ¬ Leaving s.worker) {pc : Pc C}
    (hlocked : Locked pc ↔ Locked s.worker) {q popped : List Event}
    {calls : List (Delivery String C)} :
    Guarded h
      { s with
        engine := { s.engine with q := q }, worker := pc, popped := popped, calls := calls } := by
  obtain ⟨htable, hcleared, hjoined⟩ := hg.busy hpc
  exact ⟨hg.caller, hg.worker.trans hlocked.symm, fun hrunning => .inr (hcleared hrunning),
    fun hj => absurd hj hjoined, .inl htable⟩

theorem lock (hg : Guarded h s) (hfree : s.owner = none) (hpc : ¬ Leaving s.worker) {pc : Pc C}
    (hlocked : Locked pc) : Guarded h { s with owner := some .worker, worker := pc } := by
  obtain ⟨htable, hcleared, hjoined⟩ := hg.busy hpc
  have hidle := hg.idle (by simp [hfree])
  exact ⟨by simp [hidle], iff_of_true rfl hlocked, fun hrunning => .inr (hcleared hrunning),
    fun hj => absurd hj hjoined, .inl htable⟩

theorem run {m : RunMove C} (hg : Guarded h s) (ht : Ran s m t) : Guarded h t := by
  cases ht with
  | guard hpc =>
    have hjoined : ¬ (s.caller = .joined ∨ s.joinable = false) := fun hj => by
      have hended := hg.joined hj
      rw [hpc] at hended
      cases hended
    cases hrunning : s.engine.running with
    | true =>
      refine ⟨hg.caller, ?_, by simp [hrunning], fun hj => absurd hj hjoined, ?_⟩
      · rw [hg.worker, hpc]
        simp [Locked]
      · exact .inl (hg.table.resolve_right (by simp [hrunning]))
    | false =>
      refine ⟨hg.caller, ?_, fun _ => .inl (.inr rfl), fun _ => rfl, ?_⟩
      · rw [hg.worker, hpc]
        simp [Locked]
      · exact hg.table.imp_right fun _ => ⟨hrunning, .inr rfl⟩
  | timeout hpc | popStop hpc | pop hpc | done hpc | call hpc | registerCb hpc | returned hpc
  | threw hpc => exact hg.goto (by simp [hpc, Leaving]) (by simp [hpc, Locked])
  | lockStop hpc hfree => exact hg.lock hfree (by simp [hpc, Leaving]) (.inl rfl)
  | @lockRegister r e todo hpc hfree =>
    exact hg.lock hfree (by simp [hpc, Leaving]) (.inr ⟨r, e, todo, rfl⟩)
  | clear hpc =>
    have howner := hg.worker.mpr (.inl hpc)
    have hidle := hg.idle (by simp [howner])
    obtain ⟨_, _, hjoined⟩ := hg.busy (by simp [hpc, Leaving])
    exact ⟨by simp [hidle], by simp [Locked], fun _ => .inl (.inl rfl), fun hj => absurd hj hjoined,
      .inr ⟨rfl, .inl rfl⟩⟩
  | @enrol r e todo hpc =>
    have howner := hg.worker.mpr (.inr ⟨r, e, todo, hpc⟩)
    have hidle := hg.idle (by simp [howner])
    obtain ⟨htable, hcleared, hjoined⟩ := hg.busy (by simp [hpc, Leaving])
    have hrunning : s.engine.running = true := by
      by_contra hnot
      have hjoining := hcleared (by simpa using hnot)
      rw [hidle] at hjoining
      cases hjoining
    rw [EventEngine.registerCb, if_pos hrunning]
    exact ⟨by simp [hidle], by simp [Locked], by simp [hrunning], fun hj => absurd hj hjoined,
      .inl htable⟩

theorem stop {m : StopMove} (hg : Guarded h s) (ht : Stopped s m t) : Guarded h t := by
  cases ht with
  | lock hidle hfree =>
    refine ⟨by simp, ?_, fun hrunning => .inl ?_, fun hj => hg.joined ?_, hg.table⟩
    · have hunlocked : ¬ Locked s.worker := fun hl => by simp [hg.worker.mpr hl] at hfree
      simp [hunlocked]
    · exact (hg.cleared hrunning).resolve_right (by simp [hidle])
    · exact hj.resolve_left (by simp) |> .inr
  | clear hcaller =>
    have howner := hg.caller.mpr (by simp [hcaller])
    cases hjoinable : s.joinable with
    | true =>
      refine ⟨by simp [howner], hg.worker, fun _ => .inr (by simp), by simp, ?_⟩
      exact hg.table.imp_right fun hright => ⟨rfl, hright.2⟩
    | false =>
      have hended := hg.joined (.inr hjoinable)
      refine ⟨by simp [howner], hg.worker, fun _ => .inl (.inr hended), fun _ => hended, ?_⟩
      exact .inr ⟨rfl, .inr hended⟩
  | join hcaller hended =>
    have howner := hg.caller.mpr (by simp [hcaller])
    exact ⟨by simp [howner], hg.worker, fun _ => .inl (.inr hended), fun _ => hended, hg.table⟩
  | unlock hcaller =>
    have hended := hg.joined (.inl hcaller)
    exact ⟨by simp, by simp [hended, Locked], fun _ => .inl (.inr hended), fun _ => hended, hg.table⟩

theorem step {a : Move C} (hg : Guarded h s) (ht : Moved s a t) : Guarded h t := by
  cases ht with
  | send e => exact ⟨hg.caller, hg.worker, hg.cleared, hg.joined, hg.table⟩
  | @register r hfree =>
    rw [EventEngine.registerCb]
    cases hrunning : s.engine.running with
    | true =>
      exact ⟨hg.caller, hg.worker, by simp [hrunning], hg.joined,
        .inl (hg.table.resolve_right (by simp [hrunning]))⟩
    | false =>
      have hidle := hg.idle (by simp [hfree])
      have hleaving := (hg.cleared hrunning).resolve_right (by simp [hidle])
      exact ⟨hg.caller, hg.worker, fun _ => .inl hleaving, hg.joined,
        .inr ⟨by simp, hleaving⟩⟩
  | stop ht => exact hg.stop ht
  | run ht => exact hg.run ht

theorem init (h : List (Registration C)) : Guarded h (system h).init := by
  constructor <;> simp [system, EventEngine.start, Locked]

end Guarded

theorem owed_popped {popped : List Event} (e : Event) {i : Nat} (hi : i < popped.length)
    (cbName : String) : owed h (popped ++ [e]) i cbName = owed h popped i cbName := by
  rw [owed, owed, List.getElem?_append_left hi]

theorem owed_last (popped : List Event) (e : Event) (cbName : String) :
    owed h (popped ++ [e]) popped.length cbName =
      if e.eType = .eventEngineStop then [] else (lastRegistered h e.eType cbName).toList := by
  rw [owed, List.getElem?_concat_length]

namespace Served

/-- A step that pops nothing, calls nothing and stays with its event. -/
theorem frame (hv : Served h s) (hqueue : t.popped ++ t.engine.q = t.pushed)
    (hpopped : t.popped = s.popped) (hcalls : t.calls = s.calls)
    (hevent : ∀ p, dispatching t.worker = some p → dispatching s.worker = some p)
    (hremaining : remaining t.worker = remaining s.worker)
    (hstop : (s.worker = .stopping ∨ s.worker = .clearing ∨
        s.engine.running = false ∧ Leaving s.worker) →
      t.worker = .stopping ∨ t.worker = .clearing ∨ t.engine.running = false ∧ Leaving t.worker) :
    Served h t where
  queue := hqueue
  stopped i e hi he := by
    rw [hpopped] at hi ⊢
    obtain ⟨hlast, hs⟩ := hv.stopped i e hi he
    exact ⟨hlast, hstop hs⟩
  event e todo hd := by
    rw [hpopped]
    exact hv.event e todo (hevent _ hd)
  names e todo hd := hv.names e todo (hevent _ hd)
  serves := by
    rw [hpopped, hcalls, hremaining]
    exact hv.serves

theorem not_stopped (hv : Served h s) (h1 : s.worker ≠ .stopping) (h2 : s.worker ≠ .clearing)
    (h3 : ¬ Leaving s.worker) {e : Event} (he : e ∈ s.popped) : e.eType ≠ .eventEngineStop := by
  intro hstop
  obtain ⟨i, hi⟩ := List.mem_iff_getElem?.mp he
  obtain ⟨_, hs | hs | hs⟩ := hv.stopped i e hi hstop
  · exact h1 hs
  · exact h2 hs
  · exact h3 hs.2

/-- A pop begins the next round. -/
theorem pop (hv : Served h s) (hpc : s.worker = .pop) {e : Event} {rest : List Event}
    (hq : s.engine.q = e :: rest) {pc : Pc C} (hstop : e.eType = .eventEngineStop → pc = .stopping)
    (hevent : ∀ f todo, dispatching pc = some (f, todo) → f = e ∧ e.eType ≠ .eventEngineStop ∧
      ∀ cbName ∈ todo, cbName ∈ (registered h).mCbs e.eType)
    (hnodup : (remaining pc).Nodup)
    (howed : ∀ cbName, cbName ∉ remaining pc → owed h (s.popped ++ [e]) s.popped.length cbName = []) :
    Served h
      { s with
        engine := { s.engine with q := rest }, popped := s.popped ++ [e], worker := pc } where
  queue := by
    rw [← hv.queue, hq]
    simp
  stopped i f hi hf := by
    have hnone : ∀ f ∈ s.popped, f.eType ≠ .eventEngineStop := fun f =>
      hv.not_stopped (by simp [hpc]) (by simp [hpc]) (by simp [hpc, Leaving])
    rw [List.getElem?_append] at hi
    split at hi
    · exact absurd hf (hnone f (List.mem_of_getElem? hi))
    · next hlt =>
      have hi' : i = s.popped.length ∧ e = f := by
        obtain ⟨hbound, hfe⟩ := List.getElem?_eq_some_iff.mp hi
        simp only [List.length_cons, List.length_nil] at hbound
        have hzero : i - s.popped.length = 0 := by omega
        simp only [hzero, List.getElem_cons_zero] at hfe
        exact ⟨by omega, hfe⟩
      obtain ⟨rfl, rfl⟩ := hi'
      exact ⟨by simp, .inl (hstop hf)⟩
  event f todo hd := by
    obtain ⟨rfl, hne, _⟩ := hevent f todo hd
    exact ⟨by simp, hne⟩
  names f todo hd := by
    obtain ⟨rfl, _, hnames⟩ := hevent f todo hd
    exact hnames
  serves := by
    have hserves := hv.serves
    have hnil : remaining s.worker = [] := by rw [hpc]; rfl
    rw [hnil] at hserves
    rw [List.length_append]
    exact (hserves.congr fun i cbName hi => owed_popped e hi cbName).begin hnodup howed

/-- A call serves the next name of the event. -/
theorem call (hg : Guarded h s) (hv : Served h s) {e : Event} {name : String} {todo : List String}
    {cb : C} (hpc : s.worker = .calling e (name :: todo))
    (hcb : (s.engine.mCbs e.eType).lookup name = some cb) :
    Served h
      { s with
        worker := .inside e todo, calls := s.calls ++ [⟨s.popped.length - 1, name, cb⟩] } := by
  obtain ⟨hlast, hne⟩ := hv.event e (name :: todo) (by rw [hpc]; rfl)
  obtain ⟨front, hfront⟩ := List.getLast?_eq_some_iff.mp hlast
  have hlen : s.popped.length = front.length + 1 := by simp [hfront]
  have hnames := hv.names e (name :: todo) (by rw [hpc]; rfl)
  refine ⟨hv.queue, fun i f hi hf => ?_, fun f todo' hd => ?_, fun f todo' hd => ?_, ?_⟩
  · refine absurd hf (hv.not_stopped ?_ ?_ ?_ (List.mem_of_getElem? hi))
    · simp [hpc]
    · simp [hpc]
    · simp [hpc, Leaving]
  · cases hd
    exact ⟨hlast, hne⟩
  · cases hd
    exact fun cbName hmem => hnames cbName (List.mem_cons_of_mem _ hmem)
  · have howed : owed h s.popped front.length name = [cb] := by
      have hlookup : lastRegistered h e.eType name = some cb := by
        rw [← registered_lookup, ← (hg.busy (by simp [hpc, Leaving])).1, hcb]
      rw [hfront, owed_last, if_neg hne, hlookup]
      rfl
    have hserves := hv.serves
    have htodo : remaining s.worker = name :: todo := by rw [hpc]; rfl
    rw [htodo, hlen] at hserves
    rw [hlen]
    exact hserves.deliver howed

theorem run {m : RunMove C} (hg : Guarded h s) (hv : Served h s) (ht : Ran s m t) : Served h t := by
  cases ht with
  | guard hpc =>
    cases hrunning : s.engine.running <;>
      exact hv.frame hv.queue rfl rfl (by simp [dispatching]) (by simp [remaining, dispatching, hpc])
        (by simp [hpc, hrunning, Leaving])
  | timeout hpc | done hpc =>
    exact hv.frame hv.queue rfl rfl (by simp [dispatching]) (by simp [remaining, dispatching, hpc])
      (by simp [hpc, Leaving])
  | popStop hpc hq he =>
    apply hv.pop hpc hq
    · exact fun _ => rfl
    · simp [dispatching]
    · exact .nil
    · simp [owed_last, he]
  | @pop order e rest hpc hq he horder =>
    have htable := (hg.busy (by simp [hpc, Leaving])).1
    apply hv.pop hpc hq
    · exact fun hstop => absurd hstop he
    · intro f todo hd
      cases hd
      refine ⟨rfl, he, fun cbName hmem => ?_⟩
      rw [← htable]
      exact AList.mem_keys.mp (horder.mem_iff.mp hmem)
    · exact horder.nodup_iff.mpr (s.engine.mCbs e.eType).keys_nodup
    · intro cbName hmem
      have hkeys : cbName ∉ (registered h).mCbs e.eType := by
        rw [← htable]
        exact fun hk => hmem (horder.mem_iff.mpr (AList.mem_keys.mpr hk))
      rw [owed_last, if_neg he, ← registered_lookup, AList.lookup_eq_none.mpr hkeys]
      rfl
  | call hpc hcb => exact call hg hv hpc hcb
  | registerCb hpc | returned hpc | threw hpc | lockRegister hpc =>
    exact hv.frame hv.queue rfl rfl (by simp [dispatching, hpc])
      (by simp [remaining, dispatching, hpc]) (by simp [hpc, Leaving])
  | lockStop hpc =>
    exact hv.frame hv.queue rfl rfl (by simp [dispatching]) (by simp [remaining, dispatching, hpc])
      (by simp)
  | clear hpc =>
    exact hv.frame hv.queue rfl rfl (by simp [dispatching]) (by simp [remaining, dispatching, hpc])
      (by simp [Leaving])
  | enrol hpc =>
    exact hv.frame (by rw [registerCb_q]; exact hv.queue) rfl rfl (by simp [dispatching, hpc])
      (by simp [remaining, dispatching, hpc]) (by simp [hpc, Leaving])

theorem step {a : Move C} (hg : Guarded h s) (hv : Served h s) (ht : Moved s a t) : Served h t := by
  cases ht with
  | send e =>
    refine hv.frame ?_ rfl rfl (fun _ hd => hd) rfl (fun hs => hs)
    rw [EventEngine.send, ← List.append_assoc, hv.queue]
  | register hfree =>
    refine hv.frame ?_ rfl rfl (fun _ hd => hd) rfl (fun hs => ?_)
    · rw [registerCb_q]
      exact hv.queue
    · rw [registerCb_running]
      exact hs
  | stop ht =>
    cases ht with
    | clear =>
      exact hv.frame hv.queue rfl rfl (fun _ hd => hd) rfl
        (fun hs => hs.imp_right (.imp_right fun hleft => ⟨rfl, hleft.2⟩))
    | _ => exact hv.frame hv.queue rfl rfl (fun _ hd => hd) rfl (fun hs => hs)
  | run ht => exact run hg hv ht

theorem silent (hv : Served h s) {i : Nat} {e : Event} (hi : s.popped[i]? = some e)
    (he : e.eType = .eventEngineStop) {c : Delivery String C} (hc : c ∈ s.calls) : c.round < i := by
  have hlast := (hv.stopped i e hi he).1
  have hround := hv.serves.bounded c hc
  have hne : c.round ≠ i := by
    rintro rfl
    have hnone : received s.calls c.round c.key = [] := by
      rw [hv.serves.served _ _ hround, owed, hi]
      simp [he]
    exact List.not_mem_nil (hnone ▸ mem_received hc)
  omega

theorem init (h : List (Registration C)) : Served h (system h).init where
  queue := by
    have hq : (registered h).q = [] := by
      induction h using List.reverseRecOn with
      | nil => rfl
      | append_singleton h r ih => rw [registered_snoc, registerCb_q, ih]
    simp [system, EventEngine.start, hq]
  stopped := by simp [system]
  event := by simp [system, dispatching]
  names := by simp [system, dispatching]
  serves := .init _

end Served

theorem sound (hs : (system h).Reachable s) : Guarded h s ∧ Served h s := by
  apply hs.invariant
  · exact ⟨.init h, .init h⟩
  · intro s a t _ ⟨hg, hv⟩ _ ht
    exact ⟨hg.step (step_moved ht), .step hg hv (step_moved ht)⟩

theorem mCbs_unchanged {a : Move C} (hrunning : s.engine.running = true) (ht : Moved s a t) :
    t.engine.mCbs = s.engine.mCbs := by
  have hrefused : ∀ r, (s.engine.registerCb r).1 = s.engine := fun r => by
    rw [EventEngine.registerCb, if_pos hrunning]
  cases ht with
  | send e => rfl
  | register hfree => exact congrArg EventEngine.mCbs (hrefused _)
  | stop ht => cases ht <;> rfl
  | run ht =>
    cases ht with
    | enrol => exact congrArg EventEngine.mCbs (hrefused _)
    | _ => rfl

theorem events_dispatched_once (hs : (system h).Reachable s) : Dispatched h s := by
  obtain ⟨hg, hv⟩ := sound hs
  refine ⟨⟨_, hv.queue⟩, hv.serves.served, hv.serves.bounded,
    fun i e hi he => ⟨(hv.stopped i e hi he).1, fun _ hc => hv.silent hi he hc⟩,
    fun a t ht hrunning => mCbs_unchanged hrunning (step_moved ht), fun e cbName todo hpc => ?_⟩
  have hmem := hv.names e (cbName :: todo) (by rw [hpc]; rfl) cbName List.mem_cons_self
  rw [← (hg.busy (by simp [hpc, Leaving])).1] at hmem
  obtain ⟨cb, hcb⟩ := Table.mem_iff_lookup.mp hmem
  exact ⟨_, by simp [system, System.step, System.run, hpc, hcb]; rfl⟩

/-- One callback prints, the other throws; the first is registered twice. -/
def printer : List (Registration Nat) :=
  [⟨.eventEngineTest, "printer", 0⟩, ⟨.eventEngineTest1, "throw_error", 1⟩,
    ⟨.eventEngineTest, "printer", 2⟩]

/-- The second event is sent and a callback registered while the first is dispatched. -/
def printed : List (Move Nat) :=
  [.send .eventEngineTest, .run .guard, .run (.pop ["printer"]), .run .next,
    .send .eventEngineTest1, .run (.registerCb ⟨.eventEngineTest1, "late", 3⟩), .run .lock,
    .run .unlock, .run .returned, .run .next, .run .guard, .run (.pop ["throw_error"]), .run .next,
    .run .threw, .run .next]

def afterPrint : System Nat := (system printer).stateAfter printed (by decide +kernel)

theorem events_dispatched_once_printed : Dispatched printer afterPrint ∧
    (afterPrint.calls.map fun c => (c.round, c.key, c.value)) =
      [(0, "printer", 2), (1, "throw_error", 1)] :=
  ⟨events_dispatched_once (Machine.reachable_stateAfter _), by decide +kernel⟩

end CalmTrading.EventDispatch
