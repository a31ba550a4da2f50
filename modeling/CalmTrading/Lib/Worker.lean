import CalmTrading.Lib.Machine

namespace CalmTrading.Lib.Worker

/-- The thread whose loop is guarded by the flag, or a helper that ends by itself. -/
inductive Which
  | worker | helper

inductive Cmd
  /-- Return at once if the flag is `b`. -/
  | returnIf (b : Bool)
  | set (b : Bool)
  | call
  /-- A call that may fail and end the whole operation. -/
  | attempt
  | await
  /-- Create a thread, in a place that holds no other. -/
  | spawn (t : Which)
  | join (t : Which)

structure Component where
  start : List Cmd
  stop : List Cmd
  /-- The worker may lower the flag itself. -/
  lowers : Bool := false

inductive WorkerAt
  | absent | guard | body | ended

inductive HelperAt
  | absent | alive | ended

/-- A component in use: its flag, its threads, and what is left of the operation
that is being called. -/
structure State where
  running : Bool := false
  worker : WorkerAt := .absent
  helper : HelperAt := .absent
  todo : List Cmd := []

/-- `exec` takes the next command, with the decision of the outside where there
is one; the last four are steps of the threads. -/
inductive Move
  | start | stop
  | exec (ok : Bool)
  | guard | iterate | lower
  | helperEnds

namespace State

def exec (s : State) (ok : Bool) : Option State :=
  match s.todo with
  | [] => none
  | .returnIf b :: p => some { s with todo := if s.running = b then [] else p }
  | .set b :: p => some { s with running := b, todo := p }
  | .call :: p => some { s with todo := p }
  | .attempt :: p => some { s with todo := if ok then p else [] }
  | .await :: p => if ok then some { s with todo := p } else none
  | .spawn .worker :: p =>
    match s.worker with
    | .absent => some { s with worker := .guard, todo := p }
    | _ => none
  | .spawn .helper :: p =>
    match s.helper with
    | .absent => some { s with helper := .alive, todo := p }
    | _ => none
  | .join .worker :: p =>
    match s.worker with
    | .absent | .ended => some { s with worker := .absent, todo := p }
    | _ => none
  | .join .helper :: p =>
    match s.helper with
    | .absent | .ended => some { s with helper := .absent, todo := p }
    | .alive => none

def step (c : Component) (s : State) : Move → Option State
  | .start => match s.todo with
    | [] => some { s with todo := c.start }
    | _ => none
  | .stop => match s.todo with
    | [] => some { s with todo := c.stop }
    | _ => none
  | .exec ok => s.exec ok
  | .guard => match s.worker with
    | .guard => some { s with worker := if s.running then .body else .ended }
    | _ => none
  | .iterate => match s.worker with
    | .body => some { s with worker := .guard }
    | _ => none
  | .lower => match s.worker, c.lowers with
    | .body, true => some { s with running := false, worker := .guard }
    | _, _ => none
  | .helperEnds => match s.helper with
    | .alive => some { s with helper := .ended }
    | _ => none

end State

def lifecycle (c : Component) : Machine State Move where
  init := {}
  step := State.step c

def Waiting (s : State) : Prop := s.worker ≠ .absent ∧ ∃ p, s.todo = .join .worker :: p

/-- The worker that is waited for leaves its loop at its next guard. -/
structure Sound (c : Component) (s : State) : Prop where
  lowered : Waiting s → s.running = false
  leaves : Waiting s → ∀ t, (lifecycle c).step s .guard = some t → t.worker = .ended

def Quiet (s : State) : Prop := s.running = false ∨ s.worker = .absent

/-- Each join of the worker comes at a place where all is known to be quiet;
`k` says whether it is at the beginning. -/
def checked : Bool → List Cmd → Bool
  | _, [] => true
  | k, .returnIf b :: p => checked (k || b) p
  | _, .set b :: p => checked (!b) p
  | _, .spawn .worker :: p => checked false p
  | k, .join .worker :: p => k && checked true p
  | k, .call :: p | k, .attempt :: p | k, .await :: p
  | k, .spawn .helper :: p | k, .join .helper :: p => checked k p

def Calm (c : Component) (s : State) : Move → Prop
  | .stop => checked false c.stop = true ∨ Quiet s
  | _ => True

def Checked (s : State) : Prop :=
  ∃ k, checked k s.todo = true ∧ (k = true → Quiet s)

variable {c : Component} {s t : State}

theorem checked_mono {p : List Cmd} (h : checked false p = true) : checked true p = true := by
  induction p with
  | nil => rfl
  | cons cmd p ih =>
    cases cmd with
    | returnIf b =>
      cases b with
      | true => exact h
      | false => exact ih h
    | set b => exact h
    | call | attempt | await => exact ih h
    | spawn w =>
      cases w with
      | worker => exact h
      | helper => exact ih h
    | join w =>
      cases w with
      | worker => cases h
      | helper => exact ih h

/-- All that a command does, with the rest `p` of its operation behind it. -/
inductive Did (s : State) (p : List Cmd) : Cmd → State → Prop
  | returned {b : Bool} (h : s.running = b) : Did s p (.returnIf b) { s with todo := [] }
  | passed {b : Bool} (h : s.running ≠ b) : Did s p (.returnIf b) { s with todo := p }
  | set (b : Bool) : Did s p (.set b) { s with running := b, todo := p }
  | call : Did s p .call { s with todo := p }
  | attempted : Did s p .attempt { s with todo := p }
  | failed : Did s p .attempt { s with todo := [] }
  | awaited : Did s p .await { s with todo := p }
  | spawnWorker (h : s.worker = .absent) :
      Did s p (.spawn .worker) { s with worker := .guard, todo := p }
  | spawnHelper (h : s.helper = .absent) :
      Did s p (.spawn .helper) { s with helper := .alive, todo := p }
  | joinWorker (h : s.worker = .absent ∨ s.worker = .ended) :
      Did s p (.join .worker) { s with worker := .absent, todo := p }
  | joinHelper (h : s.helper = .absent ∨ s.helper = .ended) :
      Did s p (.join .helper) { s with helper := .absent, todo := p }

theorem exec_did {ok : Bool} (ht : s.exec ok = some t) :
    ∃ cmd p, s.todo = cmd :: p ∧ Did s p cmd t := by
  cases htodo : s.todo with
  | nil => simp [State.exec, htodo] at ht
  | cons cmd p =>
    refine ⟨cmd, p, rfl, ?_⟩
    cases cmd with
    | returnIf b =>
      simp only [State.exec, htodo] at ht
      split at ht <;> cases ht
      · next hb => exact .returned hb
      · next hb => exact .passed hb
    | set b =>
      simp only [State.exec, htodo, Option.some.injEq] at ht
      exact ht ▸ .set b
    | call =>
      simp only [State.exec, htodo, Option.some.injEq] at ht
      exact ht ▸ .call
    | attempt =>
      simp only [State.exec, htodo] at ht
      split at ht <;> cases ht
      · exact .attempted
      · exact .failed
    | await =>
      simp only [State.exec, htodo] at ht
      split at ht <;> cases ht
      exact .awaited
    | spawn w =>
      cases w with
      | worker =>
        simp only [State.exec, htodo] at ht
        split at ht <;> cases ht
        next habsent => exact .spawnWorker habsent
      | helper =>
        simp only [State.exec, htodo] at ht
        split at ht <;> cases ht
        next habsent => exact .spawnHelper habsent
    | join w =>
      cases w with
      | worker =>
        simp only [State.exec, htodo] at ht
        split at ht <;> cases ht
        · next habsent => exact .joinWorker (.inl habsent)
        · next hended => exact .joinWorker (.inr hended)
      | helper =>
        simp only [State.exec, htodo] at ht
        split at ht <;> cases ht
        · next habsent => exact .joinHelper (.inl habsent)
        · next hended => exact .joinHelper (.inr hended)

inductive Moved (c : Component) (s : State) : Move → State → Prop
  | start (h : s.todo = []) : Moved c s .start { s with todo := c.start }
  | stop (h : s.todo = []) : Moved c s .stop { s with todo := c.stop }
  | exec {ok : Bool} {cmd : Cmd} {p : List Cmd} {t : State} (htodo : s.todo = cmd :: p)
      (ht : Did s p cmd t) : Moved c s (.exec ok) t
  | guard (hpc : s.worker = .guard) :
      Moved c s .guard { s with worker := if s.running then .body else .ended }
  | iterate (hpc : s.worker = .body) : Moved c s .iterate { s with worker := .guard }
  | lower (hpc : s.worker = .body) (hlowers : c.lowers = true) :
      Moved c s .lower { s with running := false, worker := .guard }
  | helperEnds (h : s.helper = .alive) : Moved c s .helperEnds { s with helper := .ended }

theorem step_moved {a : Move} (ht : (lifecycle c).step s a = some t) : Moved c s a t := by
  cases a with
  | start =>
    simp only [lifecycle, State.step] at ht
    split at ht <;> cases ht
    next htodo => exact .start htodo
  | stop =>
    simp only [lifecycle, State.step] at ht
    split at ht <;> cases ht
    next htodo => exact .stop htodo
  | exec ok =>
    obtain ⟨cmd, p, htodo, hdid⟩ := exec_did ht
    exact .exec htodo hdid
  | guard =>
    simp only [lifecycle, State.step] at ht
    split at ht <;> cases ht
    next hpc => exact .guard hpc
  | iterate =>
    simp only [lifecycle, State.step] at ht
    split at ht <;> cases ht
    next hpc => exact .iterate hpc
  | lower =>
    simp only [lifecycle, State.step] at ht
    split at ht <;> cases ht
    next hpc hlowers => exact .lower hpc hlowers
  | helperEnds =>
    simp only [lifecycle, State.step] at ht
    split at ht <;> cases ht
    next halive => exact .helperEnds halive

namespace Checked

theorem did {cmd : Cmd} {p : List Cmd} (h : Checked s) (htodo : s.todo = cmd :: p)
    (ht : Did s p cmd t) : Checked t := by
  obtain ⟨k, hcheck, hquiet⟩ := h
  rw [htodo] at hcheck
  cases ht with
  | returned => exact ⟨false, rfl, by simp⟩
  | @passed b hb =>
    refine ⟨k || b, hcheck, fun hk => ?_⟩
    obtain hk | rfl := Bool.or_eq_true_iff.mp hk
    · exact hquiet hk
    · exact .inl (by simpa using hb)
  | set b => exact ⟨!b, hcheck, fun hb => .inl (by simpa using hb)⟩
  | call | attempted | awaited | spawnHelper | joinHelper => exact ⟨k, hcheck, hquiet⟩
  | failed => exact ⟨false, rfl, by simp⟩
  | spawnWorker => exact ⟨false, hcheck, by simp⟩
  | joinWorker =>
    simp only [checked, Bool.and_eq_true] at hcheck
    exact ⟨true, hcheck.2, fun _ => .inr rfl⟩

theorem turn (h : Checked s) (hworker : s.worker ≠ .absent) (htodo : t.todo = s.todo)
    (hrunning : s.running = false → t.running = false) : Checked t := by
  obtain ⟨k, hcheck, hquiet⟩ := h
  refine ⟨k, htodo ▸ hcheck, fun hk => .inl (hrunning ?_)⟩
  exact (hquiet hk).resolve_right hworker

theorem step {a : Move} (hstart : checked false c.start = true) (hstop : checked true c.stop = true)
    (h : Checked s) (hcalm : Calm c s a) (ht : Moved c s a t) : Checked t := by
  cases ht with
  | start => exact ⟨false, hstart, by simp⟩
  | stop =>
    obtain hcheck | hquiet := hcalm
    · exact ⟨false, hcheck, by simp⟩
    · exact ⟨true, hstop, fun _ => hquiet⟩
  | exec htodo hdid => exact h.did htodo hdid
  | guard hpc | iterate hpc => exact h.turn (by simp [hpc]) rfl (fun hrunning => hrunning)
  | lower hpc => exact h.turn (by simp [hpc]) rfl (fun _ => rfl)
  | helperEnds => exact h

theorem sound (h : Checked s) : Sound c s := by
  have hlowered : Waiting s → s.running = false := by
    rintro ⟨hworker, p, htodo⟩
    obtain ⟨k, hcheck, hquiet⟩ := h
    simp only [htodo, checked, Bool.and_eq_true] at hcheck
    exact (hquiet hcheck.1).resolve_right hworker
  refine ⟨hlowered, fun hwaiting t ht => ?_⟩
  cases step_moved ht with
  | guard => simp [hlowered hwaiting]

end Checked

theorem sound_of_checked (hstart : checked false c.start = true) (hstop : checked true c.stop = true)
    (hs : (lifecycle c).Reaches (Calm c) s) : Sound c s := by
  have hchecked : Checked s := by
    apply hs.invariant
    · exact ⟨false, rfl, by simp⟩
    · exact fun _ _ _ _ h hcalm ht => h.step hstart hstop hcalm (step_moved ht)
  exact hchecked.sound

theorem sound_always (hstart : checked false c.start = true) (hstop : checked false c.stop = true)
    (hs : (lifecycle c).Reachable s) : Sound c s := by
  apply sound_of_checked hstart (checked_mono hstop)
  refine hs.mono fun s a _ => ?_
  cases a <;> first | exact .inl hstop | trivial

end CalmTrading.Lib.Worker
