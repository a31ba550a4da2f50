import CalmTrading.Lib.Worker

namespace CalmTrading.Lifecycle

open Lib Lib.Worker

/-- `EventEngine`: a popped stop event lowers the flag from inside `run`. -/
def eventEngine : Component where
  start := [.set true, .spawn .worker]
  stop := [.set false, .join .worker]
  lowers := true

/-- `IBApi`: `start` connects first and waits for an order id last, `stop`
disconnects before it joins. -/
def ibApi : Component where
  start := [.returnIf true, .attempt, .set true, .spawn .worker, .await]
  stop := [.returnIf false, .set false, .call, .join .worker]

def portfolio : Component where
  start := [.returnIf true, .set true, .spawn .worker]
  stop := [.returnIf false, .set false, .join .worker]

def dataRecorder : Component where
  start := [.returnIf true, .set true, .spawn .worker]
  stop := [.returnIf false, .set false, .join .worker]

/-- `AlgoEngine`: `start` connects to redis and subscribes before it creates the
listen thread and the action thread; `stop` joins them without lowering the flag. -/
def algoEngine : Component where
  start := [.set true, .attempt, .attempt, .spawn .helper, .spawn .worker]
  stop := [.returnIf false, .join .helper, .join .worker, .call]

/-- The components that own a worker. -/
inductive Owner
  | eventEngine | ibApi | portfolio | dataRecorder | algoEngine

def Owner.component : Owner → Component
  | .eventEngine => Lifecycle.eventEngine
  | .ibApi => Lifecycle.ibApi
  | .portfolio => Lifecycle.portfolio
  | .dataRecorder => Lifecycle.dataRecorder
  | .algoEngine => Lifecycle.algoEngine

/-- `stop` of the algo engine is called only when it does not run or has no
action thread. -/
def Unstarted (o : Owner) (s : State) : Move → Prop
  | .stop => o = .algoEngine → Quiet s
  | _ => True

/-- The algo engine in a join that does not end. -/
structure Hung (s : State) : Prop where
  todo : s.todo = [.join .worker, .call]
  running : s.running = true
  worker : s.worker = .guard ∨ s.worker = .body

/-- The flag of the algo engine is never lowered, and its action thread never ends. -/
structure Raised (s : State) : Prop where
  running : s.running = true ∨
    s.worker = .absent ∧ (s.todo = [] ∨ s.todo = algoEngine.start ∨ s.todo = algoEngine.stop)
  worker : s.worker ≠ .ended
  todo : .set false ∉ s.todo

variable {s t : State}

theorem Hung.step {a : Move} (h : Hung s) (ht : Moved algoEngine s a t) : Hung t := by
  obtain ⟨htodo, hrunning, hworker⟩ := h
  cases ht with
  | start hnone => simp [htodo] at hnone
  | stop hnone => simp [htodo] at hnone
  | exec hcmd hdid =>
    -- the worker has not ended, so its join cannot be taken
    rw [htodo] at hcmd
    cases hcmd
    cases hdid with
    | joinWorker hgone =>
      obtain hpc | hpc := hworker <;> simp [hpc] at hgone
  | guard => exact ⟨htodo, hrunning, .inr (by simp [hrunning])⟩
  | iterate => exact ⟨htodo, hrunning, .inl rfl⟩
  | lower _ hlowers => cases hlowers
  | helperEnds => exact ⟨htodo, hrunning, hworker⟩

theorem Hung.forever (h : Hung s) {as : List Move} (ht : (lifecycle algoEngine).run s as = some t) :
    Hung t :=
  Machine.run_invariant (fun _ _ _ h ht => h.step (step_moved ht)) h ht

namespace Raised

theorem did {cmd : Cmd} {p : List Cmd} (h : Raised s) (htodo : s.todo = cmd :: p)
    (hdid : Did s p cmd t) : Raised t := by
  obtain ⟨hrunning, hended, hset⟩ := h
  rw [htodo] at hset
  have hrest : .set false ∉ p := fun hmem => hset (List.mem_cons_of_mem _ hmem)
  obtain hrunning | ⟨habsent, hbegin⟩ := hrunning
  · cases hdid with
    | returned | failed => exact ⟨.inl hrunning, hended, by simp⟩
    | set b =>
      cases b with
      | true => exact ⟨.inl rfl, hended, hrest⟩
      | false => exact absurd List.mem_cons_self hset
    | passed | call | attempted | awaited | spawnHelper | joinHelper =>
      exact ⟨.inl hrunning, hended, hrest⟩
    | spawnWorker => exact ⟨.inl hrunning, by simp, hrest⟩
    | joinWorker => exact ⟨.inl hrunning, by simp, hrest⟩
  · -- the first command either raises the flag or returns
    rw [htodo] at hbegin
    obtain hbegin | hbegin | hbegin := hbegin
    · cases hbegin
    · cases hbegin
      cases hdid
      exact ⟨.inl rfl, hended, hrest⟩
    · cases hbegin
      cases hdid with
      | returned => exact ⟨.inr ⟨habsent, .inl rfl⟩, hended, by simp⟩
      | passed hup => exact ⟨.inl (by simpa using hup), hended, hrest⟩

theorem step {a : Move} (h : Raised s) (ht : Moved algoEngine s a t) : Raised t := by
  have hup : s.worker ≠ .absent → s.running = true :=
    fun hworker => h.running.resolve_right fun hdown => hworker hdown.1
  cases ht with
  | start =>
    exact ⟨h.running.imp_right fun hdown => ⟨hdown.1, .inr (.inl rfl)⟩, h.worker, by
      simp [algoEngine]⟩
  | stop =>
    exact ⟨h.running.imp_right fun hdown => ⟨hdown.1, .inr (.inr rfl)⟩, h.worker, by
      simp [algoEngine]⟩
  | exec htodo hdid => exact h.did htodo hdid
  | guard hpc =>
    have hrunning := hup (by simp [hpc])
    exact ⟨.inl hrunning, by simp [hrunning], h.todo⟩
  | iterate hpc => exact ⟨.inl (hup (by simp [hpc])), by simp, h.todo⟩
  | lower _ hlowers => cases hlowers
  | helperEnds => exact ⟨h.running, h.worker, h.todo⟩

end Raised

theorem raised (hs : (lifecycle algoEngine).Reachable s) : Raised s :=
  hs.invariant ⟨.inr ⟨rfl, .inl rfl⟩, by simp [lifecycle], by simp [lifecycle]⟩
    fun _ _ _ _ h _ ht => h.step (step_moved ht)

/-- From a `stop` with the action thread at work, the algo engine gets to the
join of that thread as soon as the listen thread has ended. -/
theorem hangs (h : Raised s) (hquiet : ¬ Quiet s) (htodo : s.todo = algoEngine.stop) :
    ∃ (as : List Move) (u : State), (lifecycle algoEngine).run s as = some u ∧ Hung u := by
  rw [Quiet, not_or] at hquiet
  have hrunning : s.running = true := by simpa using hquiet.1
  have hworker : s.worker = .guard ∨ s.worker = .body := by
    cases hpc : s.worker with
    | absent => exact absurd hpc hquiet.2
    | guard => exact .inl rfl
    | body => exact .inr rfl
    | ended => exact absurd hpc h.worker
  let u : State := { s with helper := .absent, todo := [.join .worker, .call] }
  have hu : Hung u := ⟨rfl, hrunning, hworker⟩
  cases hhelper : s.helper with
  | absent | ended =>
    refine ⟨[.exec true, .exec true], u, ?_, hu⟩
    simp [Machine.run, lifecycle, State.step, State.exec, htodo, algoEngine, hrunning, hhelper, u]
  | alive =>
    refine ⟨[.helperEnds, .exec true, .exec true], u, ?_, hu⟩
    simp [Machine.run, lifecycle, State.step, State.exec, htodo, algoEngine, hrunning, hhelper, u]

/-- A component waits only for a worker that is about to end, the algo engine as
long as it is stopped only before it was started; any other `stop` of it can come
to wait for ever. -/
theorem stop_waits_lowered_iff (o : Owner) :
    (∀ s, (lifecycle o.component).Reaches (Unstarted o) s → Sound o.component s) ∧
      ∀ s a t, (lifecycle o.component).Reachable s → (lifecycle o.component).step s a = some t →
        ¬ Unstarted o s a →
          ∃ (as : List Move) (u : State), (lifecycle o.component).run t as = some u ∧
            ∀ bs v, (lifecycle o.component).run u bs = some v → Waiting v ∧ v.running = true := by
  constructor
  · intro s hs
    cases o with
    | eventEngine | ibApi | portfolio | dataRecorder => exact sound_always rfl rfl hs.reachable
    | algoEngine =>
      apply sound_of_checked rfl rfl
      refine hs.mono fun s a ha => ?_
      cases a with
      | stop => exact .inr (ha rfl)
      | _ => trivial
  · intro s a t hs ht hstarted
    have hstop : a = .stop ∧ o = .algoEngine ∧ ¬ Quiet s := by
      cases a with
      | stop => exact ⟨rfl, Classical.not_imp.mp hstarted⟩
      | _ => exact absurd trivial hstarted
    obtain ⟨rfl, rfl, hquiet⟩ := hstop
    have hraised := raised (hs.step ht)
    cases step_moved ht
    obtain ⟨as, u, hu, hhung⟩ := hangs hraised hquiet rfl
    refine ⟨as, u, hu, fun bs v hv => ?_⟩
    obtain ⟨htodo, hrunning, hworker⟩ := hhung.forever hv
    refine ⟨⟨?_, _, htodo⟩, hrunning⟩
    obtain hpc | hpc := hworker <;> simp [hpc]

def stopped : List Move :=
  [.start, .exec true, .exec true, .exec true, .exec true, .exec true, .stop, .exec true,
    .helperEnds, .exec true]

theorem algo_engine_hangs :
    ¬ ∀ (o : Owner) (s : State), (lifecycle o.component).Reachable s → Sound o.component s := by
  intro hall
  let s : State :=
    { running := true, worker := .guard, todo := [.join .worker, .call] }
  have hrun : (lifecycle algoEngine).run (lifecycle algoEngine).init stopped = some s := rfl
  have hlowered := (hall .algoEngine s (Machine.reachable_of_run hrun)).lowered
    ⟨by simp [s], _, rfl⟩
  cases hlowered

end CalmTrading.Lifecycle
