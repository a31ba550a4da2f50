import Mathlib.Data.List.Basic

namespace CalmTrading.Lib

/-- A labelled transition system. Whatever the scheduler or the environment
chooses is part of the label, and `none` is a step that cannot be taken. -/
structure Machine (S A : Type*) where
  init : S
  step : S → A → Option S

namespace Machine

variable {S A : Type*} (M : Machine S A)

/-- States reached by runs all of whose steps meet `ok`. -/
inductive Reaches (ok : S → A → Prop) : S → Prop
  | init : Reaches ok M.init
  | step {s t : S} {a : A} : Reaches ok s → ok s a → M.step s a = some t → Reaches ok t

def Reachable : S → Prop := M.Reaches fun _ _ => True

variable {M}

/-- The induction rule for invariants. Earlier invariants of the same runs may
be used in the step. -/
theorem Reaches.invariant {ok : S → A → Prop} {I : S → Prop} (hinit : I M.init)
    (hstep : ∀ s a t, M.Reaches ok s → I s → ok s a → M.step s a = some t → I t)
    {s : S} (h : M.Reaches ok s) : I s := by
  induction h with
  | init => exact hinit
  | step hs hok ht ih => exact hstep _ _ _ hs ih hok ht

theorem Reaches.mono {ok ok' : S → A → Prop} (himp : ∀ s a, ok s a → ok' s a)
    {s : S} (h : M.Reaches ok s) : M.Reaches ok' s := by
  induction h with
  | init => exact .init
  | step _ hok ht ih => exact ih.step (himp _ _ hok) ht

theorem Reaches.reachable {ok : S → A → Prop} {s : S} (h : M.Reaches ok s) : M.Reachable s :=
  h.mono fun _ _ _ => trivial

theorem Reachable.step {s t : S} {a : A} (h : M.Reachable s) (ht : M.step s a = some t) :
    M.Reachable t :=
  Reaches.step h trivial ht

variable (M)

def run : S → List A → Option S
  | s, [] => some s
  | s, a :: as => (M.step s a).bind fun t => run t as

/-- `P` holds in every state that the labels lead through. -/
def StatesAll (P : S → Prop) : S → List A → Prop
  | s, [] => P s
  | s, a :: as => P s ∧ ∀ t, M.step s a = some t → StatesAll P t as

/-- Every step that the labels take meets `ok`. -/
def StepsAll (ok : S → A → Prop) : S → List A → Prop
  | _, [] => True
  | s, a :: as => ∀ t, M.step s a = some t → ok s a ∧ StepsAll ok t as

variable {M}

theorem run_cons {s t : S} {a : A} {as : List A} (h : M.step s a = some t) :
    M.run s (a :: as) = M.run t as := by
  simp [run, h]

theorem run_singleton {s t : S} {a : A} (h : M.step s a = some t) : M.run s [a] = some t := by
  simp [run, h]

theorem reaches_of_run {ok : S → A → Prop} {s t : S} {as : List A} (hs : M.Reaches ok s)
    (hok : M.StepsAll ok s as) (h : M.run s as = some t) : M.Reaches ok t := by
  induction as generalizing s with
  | nil =>
    simp only [run, Option.some.injEq] at h
    exact h ▸ hs
  | cons a as ih =>
    cases hstep : M.step s a with
    | none => simp [run, hstep] at h
    | some u =>
      rw [run_cons hstep] at h
      obtain ⟨ha, has⟩ := hok u hstep
      exact ih (hs.step ha hstep) has h

theorem run_invariant {I : S → Prop} (hstep : ∀ s a t, I s → M.step s a = some t → I t) {s t : S}
    (hs : I s) {as : List A} (h : M.run s as = some t) : I t := by
  induction as generalizing s with
  | nil =>
    simp only [run, Option.some.injEq] at h
    exact h ▸ hs
  | cons a as ih =>
    obtain ⟨u, hu, h⟩ := Option.bind_eq_some_iff.mp h
    exact ih (hstep s a u hs hu) h

theorem stepsAll_trivial (s : S) (as : List A) : M.StepsAll (fun _ _ => True) s as := by
  induction as generalizing s with
  | nil => trivial
  | cons a as ih => exact fun t _ => ⟨trivial, ih t⟩

theorem reachable_of_run {t : S} {as : List A} (h : M.run M.init as = some t) : M.Reachable t :=
  reaches_of_run .init (stepsAll_trivial _ _) h

/-- What a run is computed to show at its end is shown by a reachable state. -/
theorem exists_reachable_of_run {β : Type*} {as : List A} {f : S → β} {b : β}
    (h : (M.run M.init as).map f = some b) : ∃ t, M.Reachable t ∧ f t = b := by
  obtain ⟨t, ht, hb⟩ := Option.map_eq_some_iff.mp h
  exact ⟨t, reachable_of_run ht, hb⟩

/-- A machine refines another if each of its steps is a run of the other as seen
through `view`. -/
theorem Reachable.refines {S' A' : Type*} {N : Machine S' A'} {view : S → S'}
    (hinit : N.Reachable (view M.init))
    (hstep : ∀ s a t, M.Reachable s → M.step s a = some t →
      ∃ as, N.run (view s) as = some (view t))
    {s : S} (hs : M.Reachable s) : N.Reachable (view s) := by
  apply Reaches.invariant (I := fun s => N.Reachable (view s)) hinit _ hs
  intro s a t hs hview _ ht
  obtain ⟨as, has⟩ := hstep s a t hs ht
  exact reaches_of_run hview (stepsAll_trivial _ _) has

variable (M)

def stateAfter (as : List A) (h : (M.run M.init as).isSome = true) : S := (M.run M.init as).get h

variable {M}

theorem reachable_stateAfter {as : List A} (h : (M.run M.init as).isSome = true) :
    M.Reachable (M.stateAfter as h) :=
  reachable_of_run (Option.some_get h).symm

theorem stepsAll_of_forall {ok : S → A → Prop} {as : List A} (h : ∀ a ∈ as, ∀ s, ok s a) (s : S) :
    M.StepsAll ok s as := by
  induction as generalizing s with
  | nil => trivial
  | cons a as ih =>
    exact fun t _ => ⟨h a List.mem_cons_self s, ih (fun b hb => h b (List.mem_cons_of_mem a hb)) t⟩

/-- Whether a step meets `ok` may depend on its label only. -/
theorem reaches_stateAfter_of_forall {ok : S → A → Prop} {as : List A}
    (hok : ∀ a ∈ as, ∀ s, ok s a) (h : (M.run M.init as).isSome = true) :
    M.Reaches ok (M.stateAfter as h) :=
  reaches_of_run .init (stepsAll_of_forall hok _) (Option.some_get h).symm

/-- The rule for what can always be reached: short of the goal some step leads
closer to it. -/
theorem exists_run {ok : S → A → Prop} (I goal : S → Prop) (work : S → Nat)
    (hstep : ∀ s, I s → goal s ∨
      ∃ a t, ok s a ∧ M.step s a = some t ∧ I t ∧ work t < work s) {s : S} (hs : I s) :
    ∃ as t, M.StepsAll ok s as ∧ M.run s as = some t ∧ I t ∧ goal t := by
  induction hwork : work s using Nat.strongRecOn generalizing s with
  | _ n ih =>
    subst hwork
    obtain hgoal | ⟨a, t, ha, ht, hI, hless⟩ := hstep s hs
    · exact ⟨[], s, trivial, rfl, hs, hgoal⟩
    · obtain ⟨as, u, has, hrun, hu⟩ := ih (work t) hless hI rfl
      refine ⟨a :: as, u, fun t' ht' => ?_, by rw [run_cons ht, hrun], hu⟩
      cases ht.symm.trans ht'
      exact ⟨ha, has⟩

/-- A property that one step keeps exactly when the step meets `ok` holds
throughout exactly the runs whose steps all meet `ok`. -/
theorem statesAll_iff_stepsAll {ok : S → A → Prop} {I P : S → Prop}
    (hI : ∀ s a t, I s → M.step s a = some t → I t)
    (hP : ∀ s a t, I s → P s → M.step s a = some t → (P t ↔ ok s a))
    {s : S} (hs : I s) (hp : P s) (as : List A) :
    M.StatesAll P s as ↔ M.StepsAll ok s as := by
  induction as generalizing s with
  | nil => simp [StatesAll, StepsAll, hp]
  | cons a as ih =>
    simp only [StatesAll, StepsAll, hp, true_and]
    refine forall₂_congr fun t ht => ?_
    have hiff := hP s a t hs hp ht
    have hI' := hI s a t hs ht
    constructor
    · intro hall
      have hpt : P t := by cases as <;> simp_all [StatesAll]
      exact ⟨hiff.mp hpt, (ih hI' hpt).mp hall⟩
    · rintro ⟨hok, hall⟩
      exact (ih hI' (hiff.mpr hok)).mpr hall

variable (M)

/-- The same machine with the steps that fail `legal` taken away. -/
def restrict (legal : S → A → Bool) : Machine S A where
  init := M.init
  step s a := if legal s a then M.step s a else none

variable {M}

theorem restrict_step {legal : S → A → Bool} {s t : S} {a : A} :
    (M.restrict legal).step s a = some t ↔ legal s a = true ∧ M.step s a = some t := by
  by_cases h : legal s a <;> simp [restrict, h]

variable {ok : S → A → Prop} [∀ s a, Decidable (ok s a)]

instance decidableStepsAll : ∀ s as, Decidable (M.StepsAll ok s as)
  | _, [] => .isTrue trivial
  | s, a :: as =>
    match h : M.step s a with
    | none => .isTrue fun t ht => by simp [h] at ht
    | some t =>
      have := decidableStepsAll t as
      decidable_of_iff (ok s a ∧ M.StepsAll ok t as) (by simp [StepsAll, h])

theorem reaches_of_restrict {s t : S} (hs : M.Reaches ok s) {as : List A}
    (h : (M.restrict fun s a => decide (ok s a)).run s as = some t) : M.Reaches ok t := by
  induction as generalizing s with
  | nil =>
    simp only [run, Option.some.injEq] at h
    exact h ▸ hs
  | cons a as ih =>
    obtain ⟨u, hu, h⟩ := Option.bind_eq_some_iff.mp h
    obtain ⟨hok, hu⟩ := restrict_step.mp hu
    exact ih (hs.step (of_decide_eq_true hok) hu) h

theorem reaches_stateAfter {as : List A}
    (h : ((M.restrict fun s a => decide (ok s a)).run M.init as).isSome = true) :
    M.Reaches ok ((M.restrict fun s a => decide (ok s a)).stateAfter as h) :=
  reaches_of_restrict .init (Option.some_get h).symm

end Machine

end CalmTrading.Lib
