import Mathlib.Data.List.Chain
import CalmTrading.Objects

namespace CalmTrading.Trader

open Objects

def floorSeconds (now : Int) : Int := now / 1000000000

def timerAt (t : Int) : Timer where
  sec := t.tmod 60
  timestamp := t

/-- A call of `send_timer` after the initialisation of `target`: the new `target`
and the timer sent. -/
def sendTimer (target now : Int) : Int × Option Timer :=
  let t := floorSeconds now
  if t ≥ target then (target + 1, some (timerAt t)) else (target, none)

def loop : Int → List Int → List Timer
  | _, [] => []
  | target, now :: readings =>
    let (target, timer) := sendTimer target now
    timer.toList ++ loop target readings

def target0 (first : Int) : Int := floorSeconds first + 1

def run (first : Int) (readings : List Int) : List Timer := loop (target0 first) readings

def Consecutive (target : Int) (timers : List Timer) : Prop :=
  ∀ (k : Nat) timer, timers[k]? = some timer →
    timer.timestamp = target + k ∧ timer.sec = timer.timestamp.tmod 60

/-- No reading is more than one second on from the one before, in whole seconds. -/
def Steady (readings : List Int) : Prop :=
  readings.IsChain fun before now => floorSeconds now ≤ floorSeconds before + 1

instance (readings : List Int) : Decidable (Steady readings) :=
  inferInstanceAs (Decidable (List.IsChain _ _))

theorem floorSeconds_mono {before now : Int} (h : before ≤ now) :
    floorSeconds before ≤ floorSeconds now :=
  Int.ediv_le_ediv (by decide) h

theorem consecutive_cons {target : Int} {timer : Timer} {timers : List Timer} :
    Consecutive target (timer :: timers) ↔
      (timer.timestamp = target ∧ timer.sec = timer.timestamp.tmod 60) ∧
        Consecutive (target + 1) timers := by
  constructor
  · intro h
    refine ⟨by simpa using h 0 timer rfl, fun k timer' hk => ?_⟩
    obtain ⟨htime, hsec⟩ := h (k + 1) timer' (by simpa using hk)
    refine ⟨?_, hsec⟩
    rw [htime]
    push_cast
    omega
  · rintro ⟨⟨htime, hsec⟩, h⟩ k timer' hk
    cases k with
    | zero =>
      obtain rfl : timer = timer' := by simpa using hk
      exact ⟨by simpa using htime, hsec⟩
    | succ k =>
      obtain ⟨htime', hsec'⟩ := h k timer' (by simpa using hk)
      refine ⟨?_, hsec'⟩
      rw [htime']
      push_cast
      omega

/-- Right after the second of the last reading, a call sends nothing until the
next second, and then the clock's second. -/
theorem loop_cons (before now : Int) (readings : List Int) (h : before ≤ now) :
    (floorSeconds now = floorSeconds before ∧
      loop (target0 before) (now :: readings) = loop (target0 now) readings) ∨
    (floorSeconds before < floorSeconds now ∧
      loop (target0 before) (now :: readings) =
        timerAt (floorSeconds now) :: loop (target0 before + 1) readings) := by
  have hle := floorSeconds_mono h
  by_cases hnext : floorSeconds now ≥ target0 before
  · refine .inr ⟨?_, ?_⟩
    · simp only [target0] at hnext
      omega
    · simp [loop, sendTimer, hnext]
  · have hsame : floorSeconds now = floorSeconds before := by
      simp only [target0] at hnext
      omega
    have htarget : target0 now = target0 before := by rw [target0, target0, hsame]
    refine .inl ⟨hsame, ?_⟩
    rw [htarget]
    simp [loop, sendTimer, hnext]

/-- As long as the clock is steady the target is the second after its own. -/
theorem consecutive_loop_iff {before : Int} {readings : List Int}
    (h : (before :: readings).IsChain (· ≤ ·)) :
    Consecutive (target0 before) (loop (target0 before) readings) ↔
      Steady (before :: readings) := by
  induction readings generalizing before with
  | nil => simp [loop, Consecutive, Steady]
  | cons now readings ih =>
    rw [List.isChain_cons_cons] at h
    have ih := ih h.2
    rw [Steady, List.isChain_cons_cons]
    obtain ⟨hsame, hloop⟩ | ⟨hlt, hloop⟩ := loop_cons before now readings h.1
    · have htarget : target0 before = target0 now := by rw [target0, target0, hsame]
      rw [hloop, htarget, ih]
      refine (and_iff_right ?_).symm
      omega
    · rw [hloop, consecutive_cons]
      constructor
      · rintro ⟨⟨htime, _⟩, hrest⟩
        have hone : floorSeconds now = target0 before := htime
        have htarget : target0 before + 1 = target0 now := by rw [← hone, target0]
        rw [htarget] at hrest
        refine ⟨?_, ih.mp hrest⟩
        simp only [target0] at hone
        omega
      · rintro ⟨hle, hsteady⟩
        have hone : floorSeconds now = target0 before := by
          simp only [target0]
          omega
        have htarget : target0 before + 1 = target0 now := by rw [← hone, target0]
        rw [htarget]
        exact ⟨⟨hone, rfl⟩, ih.mpr hsteady⟩

theorem length_loop {before : Int} {readings : List Int}
    (h : (before :: readings).IsChain (· ≤ ·)) (hsteady : Steady (before :: readings)) :
    target0 before + (loop (target0 before) readings).length =
      target0 ((before :: readings).getLast (List.cons_ne_nil _ _)) := by
  induction readings generalizing before with
  | nil => simp [loop]
  | cons now readings ih =>
    rw [List.isChain_cons_cons] at h
    rw [Steady, List.isChain_cons_cons] at hsteady
    have ih := ih h.2 hsteady.2
    rw [List.getLast_cons_cons, ← ih]
    obtain ⟨hsame, hloop⟩ | ⟨hlt, hloop⟩ := loop_cons before now readings h.1
    · rw [hloop, target0, target0, hsame]
    · have htarget : target0 before + 1 = target0 now := by
        simp only [target0]
        omega
      rw [hloop, htarget, List.length_cons, ← htarget]
      push_cast
      omega

/-- The timers of `run` are for consecutive seconds exactly if the clock never
moves on by more than one of them between two readings. Then every second up to
that of the last reading has its timer. -/
theorem timers_consecutive_iff {first : Int} {readings : List Int}
    (h : (first :: readings).IsChain (· ≤ ·)) :
    (Consecutive (target0 first) (run first readings) ↔ Steady (first :: readings)) ∧
      (Steady (first :: readings) → target0 first + (run first readings).length =
        target0 ((first :: readings).getLast (List.cons_ne_nil _ _))) :=
  ⟨consecutive_loop_iff h, length_loop h⟩

theorem timers_consecutive_three :
    Consecutive (target0 900000000) (run 900000000 [1000000000, 1999999999, 2000000000]) :=
  (timers_consecutive_iff (by decide)).1.mpr (by decide)

/-- The process is stopped for three seconds: the first of them has no timer and
the last has two. -/
theorem timers_skip_seconds :
    ¬ ∀ (first : Int) (readings : List Int), (first :: readings).IsChain (· ≤ ·) →
      Consecutive (target0 first) (run first readings) := by
  intro hall
  have h := hall 0 [3000000000, 3001000000] (by decide) 0 (timerAt 3) rfl
  exact absurd h.1 (by decide)

end CalmTrading.Trader
