import Mathlib.Data.Fintype.Option
import CalmTrading.Lib.Atomic
import CalmTrading.Lib.Monitor

namespace CalmTrading.LockBasedQueue

open Lib Lib.Atomic Lib.Monitor

/-- How a thread waits for an item: as long as it takes, or for a number of
microseconds. -/
inductive Pop
  | waitPop
  | tryPop (us : UInt32)
  deriving DecidableEq

inductive Op (E : Type*)
  | waitPush (item : E)
  | pop (p : Pop)

/-- `empty` is the `false` of `try_pop`. -/
inductive Res (E : Type*)
  | pushed
  | item (item : E)
  | empty

/-- Where a thread stands: outside; before it locks the mutex; with the mutex
before its push and before it notifies; with the mutex before it tests the queue,
and before the last test of a wait whose time is up; in the wait of the condition
variable; out of that wait, before it locks the mutex again; with the mutex before
it takes an item; with the mutex before it gives it back and returns. -/
inductive Pc (E : Type*)
  | idle
  | locking (op : Op E)
  | pushing (item : E)
  | notifying (item : E)
  | testing (p : Pop)
  | expired (us : UInt32)
  | asleep (p : Pop)
  | woken (p : Pop)
  | popping (p : Pop)
  | unlocking (op : Op E) (res : Res E)

namespace Pc

variable {E : Type*}

def isAsleep : Pc E → Bool
  | .asleep _ => true
  | _ => false

def holds : Pc E → Bool
  | .pushing _ | .notifying _ | .testing _ | .expired _ | .popping _ | .unlocking _ _ => true
  | _ => false

def heads : Pc E → Bool
  | .notifying _ | .testing _ | .expired _ | .woken _ | .popping _ => true
  | _ => false

end Pc

variable {T E : Type*} [DecidableEq T]

/-- The queue with the threads that use it. `m` is the owner of the mutex; the
threads in the wait of `cv` are those asleep. -/
structure LBQueue (T E : Type*) where
  m : Option T := none
  q : List E := []
  pc : T → Pc E := fun _ => .idle
  history : List (Event T (Op E) (Res E)) := []
  log : List (Effect T (Op E) (Res E)) := []

/-- `lock` tells whether a timed wait finds its time up, `run` which sleeping
thread a notification reaches. A thread may leave a wait on its own, when its
time is up or for no reason. -/
inductive Move (T E : Type*)
  | call (t : T) (op : Op E)
  | lock (t : T) (late : Bool)
  | run (t : T) (wake : Option T)
  | leave (t : T)

namespace LBQueue

def goto (s : LBQueue T E) (t : T) (pc : Pc E) : LBQueue T E :=
  { s with pc := Function.update s.pc t pc }

def call (s : LBQueue T E) (t : T) (op : Op E) : Option (LBQueue T E) :=
  match s.pc t with
  | .idle => some { s.goto t (.locking op) with history := s.history ++ [.call t op] }
  | _ => none

/-- Taking the mutex, at the start of an operation or at the end of a wait. -/
def lock (s : LBQueue T E) (t : T) (late : Bool) : Option (LBQueue T E) :=
  if s.m = none then
    match s.pc t, late with
    | .locking (.waitPush item), false => some { s.goto t (.pushing item) with m := some t }
    | .locking (.pop p), false => some { s.goto t (.testing p) with m := some t }
    | .woken p, false => some { s.goto t (.testing p) with m := some t }
    | .woken (.tryPop us), true => some { s.goto t (.expired us) with m := some t }
    | _, _ => none
  else none

/-- The statements between taking the mutex and giving it back. -/
def run [Fintype T] (s : LBQueue T E) (t : T) (wake : Option T) : Option (LBQueue T E) :=
  match s.pc t, wake with
  | .pushing item, none =>
    some
      { s.goto t (.notifying item) with
        q := s.q ++ [item]
        log := s.log ++ [⟨t, .waitPush item, .pushed⟩] }
  | .notifying item, none =>
    if ∀ u, (s.pc u).isAsleep = false then some (s.goto t (.unlocking (.waitPush item) .pushed))
    else none
  | .notifying item, some u =>
    match s.pc u with
    | .asleep p => some ((s.goto u (.woken p)).goto t (.unlocking (.waitPush item) .pushed))
    | _ => none
  | .testing p, none =>
    match s.q with
    | [] => some { s.goto t (.asleep p) with m := none }
    | _ :: _ => some (s.goto t (.popping p))
  | .expired us, none =>
    match s.q with
    | [] =>
      some
        { s.goto t (.unlocking (.pop (.tryPop us)) .empty) with
          log := s.log ++ [⟨t, .pop (.tryPop us), .empty⟩] }
    | _ :: _ => some (s.goto t (.popping (.tryPop us)))
  | .popping p, none =>
    match s.q with
    | [] => none -- `front` of an empty queue
    | item :: rest =>
      some
        { s.goto t (.unlocking (.pop p) (.item item)) with
          q := rest
          log := s.log ++ [⟨t, .pop p, .item item⟩] }
  | .unlocking op res, none =>
    some { s.goto t .idle with m := none, history := s.history ++ [.return t op res] }
  | _, _ => none

def leave (s : LBQueue T E) (t : T) : Option (LBQueue T E) :=
  match s.pc t with
  | .asleep p => some (s.goto t (.woken p))
  | _ => none

def step [Fintype T] (s : LBQueue T E) : Move T E → Option (LBQueue T E)
  | .call t op => s.call t op
  | .lock t late => s.lock t late
  | .run t wake => s.run t wake
  | .leave t => s.leave t

end LBQueue

def queue (T E : Type*) [DecidableEq T] [Fintype T] : Machine (LBQueue T E) (Move T E) where
  init := {}
  step := LBQueue.step

inductive Moved (s : LBQueue T E) : Move T E → LBQueue T E → Prop
  | call {t : T} {op : Op E} (hpc : s.pc t = .idle) :
      Moved s (.call t op) { s.goto t (.locking op) with history := s.history ++ [.call t op] }
  | lockPush {t : T} {item : E} (hfree : s.m = none) (hpc : s.pc t = .locking (.waitPush item)) :
      Moved s (.lock t false) { s.goto t (.pushing item) with m := some t }
  | lockPop {t : T} {p : Pop} (hfree : s.m = none)
      (hpc : s.pc t = .locking (.pop p) ∨ s.pc t = .woken p) :
      Moved s (.lock t false) { s.goto t (.testing p) with m := some t }
  | lockLate {t : T} {us : UInt32} (hfree : s.m = none) (hpc : s.pc t = .woken (.tryPop us)) :
      Moved s (.lock t true) { s.goto t (.expired us) with m := some t }
  | push {t : T} {item : E} (hpc : s.pc t = .pushing item) :
      Moved s (.run t none)
        { s.goto t (.notifying item) with
          q := s.q ++ [item]
          log := s.log ++ [⟨t, .waitPush item, .pushed⟩] }
  | notifyNone {t : T} {item : E} (hpc : s.pc t = .notifying item)
      (hnone : ∀ u, (s.pc u).isAsleep = false) :
      Moved s (.run t none) (s.goto t (.unlocking (.waitPush item) .pushed))
  | notifyOne {t u : T} {item : E} {p : Pop} (hpc : s.pc t = .notifying item)
      (hu : s.pc u = .asleep p) :
      Moved s (.run t (some u))
        ((s.goto u (.woken p)).goto t (.unlocking (.waitPush item) .pushed))
  | sleep {t : T} {p : Pop} (hpc : s.pc t = .testing p) (hq : s.q = []) :
      Moved s (.run t none) { s.goto t (.asleep p) with m := none }
  | found {t : T} {p : Pop}
      (hpc : s.pc t = .testing p ∨ ∃ us, p = .tryPop us ∧ s.pc t = .expired us) (hq : s.q ≠ []) :
      Moved s (.run t none) (s.goto t (.popping p))
  | giveUp {t : T} {us : UInt32} (hpc : s.pc t = .expired us) (hq : s.q = []) :
      Moved s (.run t none)
        { s.goto t (.unlocking (.pop (.tryPop us)) .empty) with
          log := s.log ++ [⟨t, .pop (.tryPop us), .empty⟩] }
  | pop {t : T} {p : Pop} {item : E} {rest : List E} (hpc : s.pc t = .popping p)
      (hq : s.q = item :: rest) :
      Moved s (.run t none)
        { s.goto t (.unlocking (.pop p) (.item item)) with
          q := rest
          log := s.log ++ [⟨t, .pop p, .item item⟩] }
  | unlock {t : T} {op : Op E} {res : Res E} (hpc : s.pc t = .unlocking op res) :
      Moved s (.run t none)
        { s.goto t .idle with m := none, history := s.history ++ [.return t op res] }
  | leave {t : T} {p : Pop} (hpc : s.pc t = .asleep p) : Moved s (.leave t) (s.goto t (.woken p))

theorem lock_moved {s u : LBQueue T E} {t : T} {late : Bool} (h : s.lock t late = some u) :
    Moved s (.lock t late) u := by
  simp only [LBQueue.lock] at h
  split at h
  · next hfree =>
    split at h
    · next hpc => cases h; exact .lockPush hfree hpc
    · next hpc => cases h; exact .lockPop hfree (.inl hpc)
    · next hpc => cases h; exact .lockPop hfree (.inr hpc)
    · next hpc => cases h; exact .lockLate hfree hpc
    · cases h
  · cases h

variable [Fintype T]

theorem run_moved {s u : LBQueue T E} {t : T} {wake : Option T} (h : s.run t wake = some u) :
    Moved s (.run t wake) u := by
  simp only [LBQueue.run] at h
  split at h
  · next hpc => cases h; exact .push hpc
  · next hpc =>
    split at h
    · next hnone => cases h; exact .notifyNone hpc hnone
    · cases h
  · next hpc =>
    split at h
    · next hu => cases h; exact .notifyOne hpc hu
    · cases h
  · next hpc =>
    split at h
    · next hq => cases h; exact .sleep hpc hq
    · next hq => cases h; exact .found (.inl hpc) (by simp [hq])
  · next us hpc =>
    split at h
    · next hq => cases h; exact .giveUp hpc hq
    · next hq => cases h; exact .found (.inr ⟨us, rfl, hpc⟩) (by simp [hq])
  · next hpc =>
    split at h
    · cases h
    · next hq => cases h; exact .pop hpc hq
  · next hpc => cases h; exact .unlock hpc
  · cases h

theorem step_moved {s u : LBQueue T E} {a : Move T E} (h : (queue T E).step s a = some u) :
    Moved s a u := by
  cases a with
  | call t op =>
    simp only [queue, LBQueue.step, LBQueue.call] at h
    split at h
    · next hpc => cases h; exact .call hpc
    · cases h
  | lock t late => exact lock_moved h
  | run t wake => exact run_moved h
  | leave t =>
    simp only [queue, LBQueue.step, LBQueue.leave] at h
    split at h
    · next hpc => cases h; exact .leave hpc
    · cases h

/-- The queue as its users may think of it. -/
def fifo : Object (List E) (Op E) (Res E) where
  init := []
  apply
    | q, .waitPush item => some (q ++ [item], .pushed)
    | item :: q, .pop _ => some (q, .item item)
    | [], .pop .waitPop => none
    | [], .pop (.tryPop _) => some ([], .empty)

/-- An operation has taken effect once its item is in the queue, or out of it, or
the last test found none. -/
def Pc.stage : Pc E → Stage (Op E) (Res E)
  | .idle => .idle
  | .locking op => .called op
  | .pushing item => .called (.waitPush item)
  | .notifying item => .done (.waitPush item) .pushed
  | .testing p | .asleep p | .woken p | .popping p => .called (.pop p)
  | .expired us => .called (.pop (.tryPop us))
  | .unlocking op res => .done op res

def LBQueue.view (s : LBQueue T E) : State (List E) T (Op E) (Res E) where
  obj := s.q
  stage t := (s.pc t).stage
  history := s.history
  log := s.log

/-- The mutex excludes, and nobody is about to take from an empty queue. As long
as a thread sleeps, there are as many threads on their way to the queue as it has
items. -/
structure Sound (s : LBQueue T E) : Prop where
  owned : Owned Pc.holds s.m s.pc
  stocked : ∀ t p, s.pc t = .popping p → s.q ≠ []
  attended : ∀ t, (s.pc t).isAsleep = true → s.q.length ≤ census Pc.heads s.pc

namespace Sound

variable {s u : LBQueue T E}

/-- One thread moves on, with or without an item put in or taken out. -/
theorem move (h : Sound s) {m : Option T} {q : List E} {t : T} {pc : Pc E}
    {history : List (Event T (Op E) (Res E))} {log : List (Effect T (Op E) (Res E))}
    (howned : Owned Pc.holds m (Function.update s.pc t pc))
    (hstocked : ∀ p, pc = .popping p → q ≠ [])
    (hothers : ∀ v p, v ≠ t → s.pc v = .popping p → q ≠ [])
    (hasleep : pc.isAsleep = true → q = [])
    (hcount : s.q.length ≤ census Pc.heads s.pc →
      q.length ≤ census Pc.heads (Function.update s.pc t pc)) :
    Sound { s.goto t pc with m := m, q := q, history := history, log := log } where
  owned := howned
  stocked v p hv := by
    by_cases hvt : v = t
    · subst hvt
      exact hstocked p (by simpa [LBQueue.goto] using hv)
    · exact hothers v p hvt (by simpa [LBQueue.goto, hvt] using hv)
  attended v hv := by
    by_cases hvt : v = t
    · subst hvt
      have hnil : q = [] := hasleep (by simpa [LBQueue.goto] using hv)
      simp [hnil]
    · exact hcount (h.attended v (by simpa [LBQueue.goto, hvt] using hv))

omit [DecidableEq T] in
theorem alone (h : Sound s) {t : T} (ht : (s.pc t).holds = true) (v : T) (p : Pop) (hv : v ≠ t) :
    s.pc v ≠ .popping p :=
  fun hpc => hv (h.owned.unique (by rw [hpc]; rfl) ht)

theorem wake (h : Sound s) {v : T} {p : Pop} (hpc : s.pc v = .asleep p) :
    Sound (s.goto v (.woken p)) := by
  apply h.move (h.owned.stay v (by rw [hpc]; rfl)) (by simp) (fun w r _ hw => h.stocked w r hw)
  · simp [Pc.isAsleep]
  · intro hcount
    have hmore := census_enter Pc.heads s.pc (t := v) (x := .woken p) (by rw [hpc]; rfl) rfl
    omega

theorem step (h : Sound s) {a : Move T E} (ha : Moved s a u) : Sound u := by
  have hsame : ∀ v p t, v ≠ t → s.pc v = .popping p → s.q ≠ [] :=
    fun v p _ _ hv => h.stocked v p hv
  cases ha with
  | @call t op hpc =>
    apply h.move (h.owned.stay t (by rw [hpc]; rfl)) (by simp) (fun v p => hsame v p t)
    · simp [Pc.isAsleep]
    · rw [census_stay Pc.heads s.pc (t := t) (by rw [hpc]; rfl)]
      exact id
  | @lockPush t item hfree hpc =>
    apply h.move ((hfree ▸ h.owned).take t rfl) (by simp) (fun v p => hsame v p t)
    · simp [Pc.isAsleep]
    · rw [census_stay Pc.heads s.pc (t := t) (by rw [hpc]; rfl)]
      exact id
  | @lockPop t p hfree hpc =>
    apply h.move ((hfree ▸ h.owned).take t rfl) (by simp) (fun v p => hsame v p t)
    · simp [Pc.isAsleep]
    · intro hcount
      have hupdate := census_update Pc.heads s.pc t (.testing p)
      obtain hpc | hpc := hpc <;> rw [hpc] at hupdate <;> simp [Pc.heads] at hupdate <;> omega
  | @lockLate t us hfree hpc =>
    apply h.move ((hfree ▸ h.owned).take t rfl) (by simp) (fun v p => hsame v p t)
    · simp [Pc.isAsleep]
    · rw [census_stay Pc.heads s.pc (t := t) (by rw [hpc]; rfl)]
      exact id
  | @push t item hpc =>
    have hheld : (s.pc t).holds = true := by rw [hpc]; rfl
    apply h.move (h.owned.stay t (by rw [hheld]; rfl)) (by simp) (fun v p _ _ => by simp)
    · simp [Pc.isAsleep]
    · intro hcount
      have hmore := census_enter Pc.heads s.pc (t := t) (x := .notifying item) (by rw [hpc]; rfl) rfl
      rw [List.length_append, List.length_singleton]
      omega
  | @notifyNone t item hpc hnone =>
    have hheld : (s.pc t).holds = true := by rw [hpc]; rfl
    refine ⟨h.owned.stay t (by rw [hheld]; rfl), fun v p hv => ?_, fun v hv => ?_⟩
    · by_cases hvt : v = t
      · subst hvt
        simp [LBQueue.goto] at hv
      · exact h.stocked v p (by simpa [LBQueue.goto, hvt] using hv)
    · by_cases hvt : v = t
      · subst hvt
        simp [LBQueue.goto, Pc.isAsleep] at hv
      · simp [LBQueue.goto, hvt, hnone] at hv
  | @notifyOne t v item p hpc hv =>
    have hne : t ≠ v := by
      rintro rfl
      rw [hpc] at hv
      cases hv
    have hpc' : (s.goto v (.woken p)).pc t = .notifying item := by simp [LBQueue.goto, hne, hpc]
    have hwake := h.wake hv
    apply hwake.move (hwake.owned.stay t (by rw [hpc']; rfl)) (by simp)
      (fun w r _ hw => hwake.stocked w r hw)
    · simp [Pc.isAsleep]
    · -- the sleeper that is woken takes the place of the one that notifies
      intro _
      have hbefore := h.attended v (by rw [hv]; rfl)
      have hmore := census_enter Pc.heads s.pc (t := v) (x := .woken p) (by rw [hv]; rfl) rfl
      have hless := census_leave Pc.heads (s.goto v (.woken p)).pc (t := t)
        (x := .unlocking (.waitPush item) .pushed) (by rw [hpc']; rfl) rfl
      change _ = census Pc.heads (Function.update s.pc v (.woken p)) at hless
      change s.q.length ≤ _
      omega
  | @sleep t p hpc hq =>
    apply h.move (h.owned.give (by rw [hpc]; rfl) rfl) (by simp) (fun v p => hsame v p t)
    · exact fun _ => hq
    · simp [hq]
  | @found t p hpc hq =>
    have hheld : (s.pc t).holds = true := by obtain hpc | ⟨us, _, hpc⟩ := hpc <;> rw [hpc] <;> rfl
    have hheads : (s.pc t).heads = true := by obtain hpc | ⟨us, _, hpc⟩ := hpc <;> rw [hpc] <;> rfl
    apply h.move (h.owned.stay t (by rw [hheld]; rfl)) (fun _ _ => hq) (fun v p => hsame v p t)
    · simp [Pc.isAsleep]
    · rw [census_stay Pc.heads s.pc (t := t) (by rw [hheads]; rfl)]
      exact id
  | @giveUp t us hpc hq =>
    have hheld : (s.pc t).holds = true := by rw [hpc]; rfl
    apply h.move (h.owned.stay t (by rw [hheld]; rfl)) (by simp) (fun v p => hsame v p t)
    · simp [Pc.isAsleep]
    · simp [hq]
  | @pop t p item rest hpc hq =>
    have hheld : (s.pc t).holds = true := by rw [hpc]; rfl
    apply h.move (h.owned.stay t (by rw [hheld]; rfl)) (by simp)
      (fun v r hv hpop => absurd hpop (h.alone hheld v r hv))
    · simp [Pc.isAsleep]
    · intro hcount
      have hless := census_leave Pc.heads s.pc (t := t) (x := .unlocking (.pop p) (.item item))
        (by rw [hpc]; rfl) rfl
      rw [hq, List.length_cons] at hcount
      omega
  | @unlock t op res hpc =>
    apply h.move (h.owned.give (by rw [hpc]; rfl) rfl) (by simp) (fun v p => hsame v p t)
    · simp [Pc.isAsleep]
    · rw [census_stay Pc.heads s.pc (t := t) (by rw [hpc]; rfl)]
      exact id
  | leave hpc => exact h.wake hpc

end Sound

theorem sound {s : LBQueue T E} (hs : (queue T E).Reachable s) : Sound s := by
  apply Machine.Reaches.invariant _ (fun _ _ _ _ h _ ht => h.step (step_moved ht)) hs
  exact ⟨fun t => by simp [queue, Pc.holds], by simp [queue], by simp [queue, Pc.isAsleep]⟩

omit [Fintype T] in
theorem view_goto (s : LBQueue T E) (t : T) (pc : Pc E) (m : Option T) (q : List E)
    (history : List (Event T (Op E) (Res E))) (log : List (Effect T (Op E) (Res E))) :
    LBQueue.view { s.goto t pc with m := m, q := q, history := history, log := log } =
      { obj := q, stage := Function.update s.view.stage t pc.stage
        history := history, log := log } := by
  have hstage : (fun u => (Function.update s.pc t pc u).stage) =
      Function.update s.view.stage t pc.stage := by
    funext u
    by_cases hu : u = t
    · subst hu
      simp
    · simp [hu, LBQueue.view]
  rw [← hstage]
  rfl

omit [Fintype T] in
theorem view_unseen {s : LBQueue T E} {t : T} {pc : Pc E} (h : pc.stage = (s.pc t).stage)
    (m : Option T) : LBQueue.view { s.goto t pc with m := m } = s.view := by
  have hview := view_goto s t pc m s.q s.history s.log
  rw [h] at hview
  exact hview.trans (congrArg (fun f => { s.view with stage := f }) (Function.update_eq_self t _))

omit [Fintype T] in
/-- Each step of a thread is a step of the sequential queue, or nobody sees it. -/
theorem moved_view {s u : LBQueue T E} {a : Move T E} (ha : Moved s a u) :
    ∃ as, (machine fifo).run s.view as = some u.view := by
  have hstage : ∀ {t pc}, s.pc t = pc → s.view.stage t = pc.stage := fun h => by rw [← h]; rfl
  have hunseen : u.view = s.view → ∃ as, (machine fifo).run s.view as = some u.view :=
    fun h => ⟨[], congrArg some h.symm⟩
  cases ha with
  | @call t op hpc =>
    refine ⟨[.call t op], Machine.run_singleton ?_⟩
    rw [step_call (hstage hpc) op, view_goto]
    rfl
  | lockPush _ hpc => exact hunseen (view_unseen (by rw [hpc]; rfl) _)
  | lockPop _ hpc =>
    exact hunseen (view_unseen (by obtain hpc | hpc := hpc <;> rw [hpc] <;> rfl) _)
  | lockLate _ hpc => exact hunseen (view_unseen (by rw [hpc]; rfl) _)
  | @push t item hpc =>
    refine ⟨[.effect t], Machine.run_singleton ?_⟩
    rw [step_effect (hstage hpc) (p := (s.q ++ [item], .pushed)) rfl, view_goto]
    rfl
  | notifyNone hpc _ => exact hunseen (view_unseen (by rw [hpc]; rfl) s.m)
  | @notifyOne t v item p hpc hv =>
    have hne : t ≠ v := by
      rintro rfl
      rw [hpc] at hv
      cases hv
    apply hunseen
    have hwake : (s.goto v (.woken p)).view = s.view := view_unseen (by rw [hv]; rfl) s.m
    rw [← hwake]
    apply view_unseen (s := s.goto v (.woken p)) _ (s.goto v (.woken p)).m
    simp [LBQueue.goto, hne, hpc, Pc.stage]
  | sleep hpc _ => exact hunseen (view_unseen (by rw [hpc]; rfl) _)
  | found hpc _ =>
    refine hunseen (view_unseen ?_ s.m)
    obtain hpc | ⟨us, rfl, hpc⟩ := hpc <;> rw [hpc] <;> rfl
  | @giveUp t us hpc hq =>
    have hempty : fifo.apply s.view.obj (.pop (.tryPop us)) = some (s.q, .empty) := by
      rw [LBQueue.view, hq]
      rfl
    refine ⟨[.effect t], Machine.run_singleton ?_⟩
    rw [step_effect (hstage hpc) hempty, view_goto]
    rfl
  | @pop t p item rest hpc hq =>
    have hitem : fifo.apply s.view.obj (.pop p) = some (rest, .item item) := by
      rw [LBQueue.view, hq]
      rfl
    refine ⟨[.effect t], Machine.run_singleton ?_⟩
    rw [step_effect (hstage hpc) hitem, view_goto]
    rfl
  | @unlock t op res hpc =>
    refine ⟨[.return t], Machine.run_singleton ?_⟩
    rw [step_return (hstage hpc), view_goto]
    rfl
  | leave hpc => exact hunseen (view_unseen (by rw [hpc]; rfl) s.m)

def put (log : List (Effect T (Op E) (Res E))) : List E :=
  log.filterMap fun e =>
    match e.op with
    | .waitPush item => some item
    | .pop _ => none

def took (log : List (Effect T (Op E) (Res E))) : List E :=
  log.filterMap fun e =>
    match e.res with
    | .item item => some item
    | _ => none

omit [DecidableEq T] [Fintype T] in
theorem put_of_replays {log : List (Effect T (Op E) (Res E))} {q : List E}
    (h : Replays fifo [] log q) : put log = took log ++ q := by
  induction h with
  | nil => rfl
  | @snoc b c es e hes he ih =>
    obtain ⟨t, op, res⟩ := e
    simp only [put, took, List.filterMap_append, List.filterMap_cons, List.filterMap_nil] at ih ⊢
    rw [ih]
    cases op with
    | waitPush item =>
      cases he
      simp
    | pop p =>
      cases b with
      | cons item rest =>
        cases he
        simp
      | nil =>
        cases p with
        | waitPop => cases he
        | tryPop us =>
          cases he
          simp

/-- What the threads see is what one sequential queue shows them: items come out
in the order in which they went in, each once, `try_pop` fails only on an empty
queue, and a thread is told the results of its own calls. -/
theorem queue_linearizable {s : LBQueue T E} (hs : (queue T E).Reachable s) :
    (machine fifo).Reachable s.view ∧ put s.log = took s.log ++ s.q ∧
      ∀ t, told t s.history ++ untold t (s.pc t).stage = s.log.filter fun e => e.thread = t := by
  have hview : (machine fifo).Reachable s.view := by
    have hinit : (machine fifo).Reachable (queue T E).init.view := .init
    apply hinit.refines (M := queue T E) (fun s a t _ ht => moved_view (step_moved ht)) hs
  exact ⟨hview, put_of_replays (replays hview), told_eq hview⟩

/-- A thread waits on the empty queue; another pushes an item and wakes it. -/
def waits : List (Move (Fin 2) ℕ) := [.call 0 (.pop .waitPop), .lock 0 false, .run 0 none]

def handsOver : List (Move (Fin 2) ℕ) :=
  waits ++ [.call 1 (.waitPush 7), .lock 1 false, .run 1 none, .run 1 (some 0), .run 1 none,
    .lock 0 false, .run 0 none, .run 0 none, .run 0 none]

def handedOver : LBQueue (Fin 2) ℕ := (queue (Fin 2) ℕ).stateAfter handsOver (by decide +kernel)

theorem queue_linearizable_handedOver :
    put handedOver.log = [7] ∧ took handedOver.log = [7] ∧
      (machine fifo).Reachable handedOver.view :=
  ⟨by decide +kernel, by decide +kernel, (queue_linearizable (Machine.reachable_stateAfter _)).1⟩

theorem Sound.runs {s : LBQueue T E} (h : Sound s) {t : T} (ht : (s.pc t).holds = true) :
    ∃ wake, (s.run t wake).isSome = true := by
  cases hpc : s.pc t with
  | pushing item => exact ⟨none, by simp [LBQueue.run, hpc]⟩
  | notifying item =>
    by_cases hnone : ∀ u, (s.pc u).isAsleep = false
    · exact ⟨none, by simp [LBQueue.run, hpc, hnone]⟩
    · obtain ⟨u, hu⟩ := not_forall.mp hnone
      cases hpcu : s.pc u with
      | asleep p => exact ⟨some u, by simp [LBQueue.run, hpc, hpcu]⟩
      | _ => simp [hpcu, Pc.isAsleep] at hu
  | testing p => cases hq : s.q <;> exact ⟨none, by simp [LBQueue.run, hpc, hq]⟩
  | expired us => cases hq : s.q <;> exact ⟨none, by simp [LBQueue.run, hpc, hq]⟩
  | popping p =>
    cases hq : s.q with
    | nil => exact absurd hq (h.stocked t p hpc)
    | cons item rest => exact ⟨none, by simp [LBQueue.run, hpc, hq]⟩
  | unlocking op res => exact ⟨none, by simp [LBQueue.run, hpc]⟩
  | _ => simp [hpc, Pc.holds] at ht

/-- No thread can take a step of its own: it would have to be called, or to leave
a wait that nobody ends. -/
def Standstill (s : LBQueue T E) : Prop :=
  ∀ t, (∀ late, (s.lock t late).isSome = false) ∧ ∀ wake, (s.run t wake).isSome = false

/-- No wake-up is lost: as long as a thread sleeps each item has a thread on its
way to the queue, and nothing comes to a standstill but threads that sleep on an
empty queue. -/
theorem no_lost_wakeup {s : LBQueue T E} (hs : (queue T E).Reachable s) :
    (∀ t, (s.pc t).isAsleep = true → s.q.length ≤ census Pc.heads s.pc) ∧
      (Standstill s → ∀ t, s.pc t = .idle ∨ ∃ p, s.pc t = .asleep p ∧ s.q = []) := by
  have h := sound hs
  refine ⟨h.attended, fun hstill t => ?_⟩
  have hholds : ∀ u, (s.pc u).holds ≠ true := by
    intro u hu
    obtain ⟨wake, hsome⟩ := h.runs hu
    rw [(hstill u).2 wake] at hsome
    cases hsome
  have hfree : s.m = none := by
    apply Option.eq_none_iff_forall_ne_some.mpr
    exact fun u hu => hholds u ((h.owned u).mpr hu)
  have hlock : ∀ u, (s.lock u false).isSome = false := fun u => (hstill u).1 false
  have hwoken : ∀ u p, s.pc u ≠ .woken p := by
    intro u p hu
    have hnone := hlock u
    simp [LBQueue.lock, hfree, hu] at hnone
  cases hpc : s.pc t with
  | idle => exact .inl rfl
  | asleep p =>
    have hzero : census Pc.heads s.pc = 0 := by
      apply census_eq_zero
      intro u
      cases hu : s.pc u with
      | woken p => exact absurd hu (hwoken u p)
      | notifying item => exact absurd (by rw [hu]; rfl) (hholds u)
      | testing p => exact absurd (by rw [hu]; rfl) (hholds u)
      | expired us => exact absurd (by rw [hu]; rfl) (hholds u)
      | popping p => exact absurd (by rw [hu]; rfl) (hholds u)
      | _ => rfl
    have hlength := h.attended t (by rw [hpc]; rfl)
    exact .inr ⟨p, rfl, List.eq_nil_of_length_eq_zero (by omega)⟩
  | locking op =>
    have hnone := hlock t
    cases op <;> simp [LBQueue.lock, hfree, hpc] at hnone
  | woken p => exact absurd hpc (hwoken t p)
  | _ => exact absurd (by rw [hpc]; rfl) (hholds t)

def waiting : LBQueue (Fin 2) ℕ := (queue (Fin 2) ℕ).stateAfter waits (by decide +kernel)

theorem no_lost_wakeup_waiting : (waiting.pc 0).isAsleep = true ∧
    ∀ t, waiting.pc t = .idle ∨ ∃ p, waiting.pc t = .asleep p ∧ waiting.q = [] :=
  ⟨by decide +kernel,
    (no_lost_wakeup (Machine.reachable_stateAfter _)).2 (by unfold Standstill; decide +kernel)⟩

end CalmTrading.LockBasedQueue
