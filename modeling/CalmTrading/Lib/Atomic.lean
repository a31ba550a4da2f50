import CalmTrading.Lib.Machine

namespace CalmTrading.Lib.Atomic

variable {S T O R : Type*}

/-- What an operation makes of a state and what it returns. An operation that
has to wait gives `none`. -/
structure Object (S O R : Type*) where
  init : S
  apply : S → O → Option (S × R)

/-- Where a thread stands with its operation. -/
inductive Stage (O R : Type*)
  | idle
  | called (op : O)
  | done (op : O) (res : R)

inductive Event (T O R : Type*)
  | call (t : T) (op : O)
  | return (t : T) (op : O) (res : R)

structure Effect (T O R : Type*) where
  thread : T
  op : O
  res : R

/-- An object in the hands of several threads. `history` is what they see of it,
and `log` the effects in the order in which they happened. -/
structure State (S T O R : Type*) where
  obj : S
  stage : T → Stage O R := fun _ => .idle
  history : List (Event T O R) := []
  log : List (Effect T O R) := []

inductive Move (T O : Type*)
  | call (t : T) (op : O)
  | effect (t : T)
  | return (t : T)

variable [DecidableEq T] (o : Object S O R)

namespace State

def step (s : State S T O R) : Move T O → Option (State S T O R)
  | .call t op =>
    match s.stage t with
    | .idle =>
      some
        { s with
          stage := Function.update s.stage t (.called op)
          history := s.history ++ [.call t op] }
    | _ => none
  | .effect t =>
    match s.stage t with
    | .called op =>
      (o.apply s.obj op).map fun p =>
        { s with
          obj := p.1
          stage := Function.update s.stage t (.done op p.2)
          log := s.log ++ [⟨t, op, p.2⟩] }
    | _ => none
  | .return t =>
    match s.stage t with
    | .done op res =>
      some
        { s with
          stage := Function.update s.stage t .idle
          history := s.history ++ [.return t op res] }
    | _ => none

end State

/-- Every operation takes effect at one moment between its call and its return. -/
def machine : Machine (State S T O R) (Move T O) where
  init := { obj := o.init }
  step := State.step o

variable {o}

theorem step_call {s : State S T O R} {t : T} (h : s.stage t = .idle) (op : O) :
    (machine o).step s (.call t op) = some
      { s with
        stage := Function.update s.stage t (.called op)
        history := s.history ++ [.call t op] } := by
  simp only [machine, State.step, h]

theorem step_effect {s : State S T O R} {t : T} {op : O} {p : S × R}
    (h : s.stage t = .called op) (hp : o.apply s.obj op = some p) :
    (machine o).step s (.effect t) = some
      { s with
        obj := p.1
        stage := Function.update s.stage t (.done op p.2)
        log := s.log ++ [⟨t, op, p.2⟩] } := by
  simp only [machine, State.step, h, hp, Option.map_some]

theorem step_return {s : State S T O R} {t : T} {op : O} {res : R}
    (h : s.stage t = .done op res) :
    (machine o).step s (.return t) = some
      { s with
        stage := Function.update s.stage t .idle
        history := s.history ++ [.return t op res] } := by
  simp only [machine, State.step, h]

/-- The state that a list of effects leads to, if each gets what the object
gives it. -/
inductive Replays (o : Object S O R) (a : S) : List (Effect T O R) → S → Prop
  | nil : Replays o a [] a
  | snoc {b c : S} {es : List (Effect T O R)} {e : Effect T O R} (hes : Replays o a es b)
      (he : o.apply b e.op = some (c, e.res)) : Replays o a (es ++ [e]) c

/-- The effects in their order are a run of the sequential object. -/
theorem replays {s : State S T O R} (hs : (machine o).Reachable s) :
    Replays o o.init s.log s.obj := by
  apply Machine.Reaches.invariant (I := fun s => Replays o o.init s.log s.obj) .nil _ hs
  intro s a u _ h _ hu
  cases a with
  | call t op =>
    simp only [machine, State.step] at hu
    split at hu
    · cases hu
      exact h
    · cases hu
  | effect t =>
    simp only [machine, State.step] at hu
    split at hu
    · obtain ⟨p, hp, rfl⟩ := Option.map_eq_some_iff.mp hu
      exact h.snoc hp
    · cases hu
  | «return» t =>
    simp only [machine, State.step] at hu
    split at hu
    · cases hu
      exact h
    · cases hu

def told (t : T) (h : List (Event T O R)) : List (Effect T O R) :=
  h.filterMap fun e =>
    match e with
    | .call _ _ => none
    | .return u op res => if u = t then some ⟨u, op, res⟩ else none

def untold (t : T) : Stage O R → List (Effect T O R)
  | .done op res => [⟨t, op, res⟩]
  | _ => []

theorem told_call (t u : T) (h : List (Event T O R)) (op : O) :
    told t (h ++ [.call u op]) = told t h := by
  simp [told]

theorem told_return (t u : T) (h : List (Event T O R)) (op : O) (res : R) :
    told t (h ++ [.return u op res]) = told t h ++ if u = t then [⟨u, op, res⟩] else [] := by
  by_cases hu : u = t <;> simp [told, hu]

/-- A thread is told the results of its own effects, each once and in order. -/
theorem told_eq {s : State S T O R} (hs : (machine o).Reachable s) (t : T) :
    told t s.history ++ untold t (s.stage t) = s.log.filter fun e => e.thread = t := by
  apply Machine.Reaches.invariant
    (I := fun s => told t s.history ++ untold t (s.stage t) = s.log.filter fun e => e.thread = t)
    rfl _ hs
  intro s a u _ h _ hu
  cases a with
  | call v op =>
    simp only [machine, State.step] at hu
    split at hu
    · next hidle =>
      cases hu
      by_cases hv : t = v
      · subst hv
        simpa [told_call, untold, hidle] using h
      · simpa [told_call, hv] using h
    · cases hu
  | effect v =>
    simp only [machine, State.step] at hu
    split at hu
    · next op hcalled =>
      obtain ⟨p, _, rfl⟩ := Option.map_eq_some_iff.mp hu
      by_cases hv : t = v
      · subst hv
        simp only [hcalled, untold, List.append_nil] at h
        simp [untold, h]
      · simpa [hv, Ne.symm hv] using h
    · cases hu
  | «return» v =>
    simp only [machine, State.step] at hu
    split at hu
    · next op res hdone =>
      cases hu
      by_cases hv : t = v
      · subst hv
        simpa [told_return, untold, hdone] using h
      · simpa [told_return, hv, Ne.symm hv] using h
    · cases hu

end CalmTrading.Lib.Atomic
