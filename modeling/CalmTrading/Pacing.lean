import CalmTrading.DownloadCount
import Mathlib.Data.List.Chain

namespace CalmTrading.Pacing

open Lib Objects Utils Gateway HistoricalData HistoricalInit Download

def interval : Int := 10000000000

/-- A download with the pause between two requests. `waiting` says that `run` is in
the loop that waits for `target`. `reading` is the clock where `run` began or, later,
where its last wait ended, and `queuedAt` when each chunk was put in the queue. History
are the clock when `run` began, the readings and queue times that the requests came
with, and the times they were sent, the last one first. -/
structure Pacer where
  runner : Runner
  now : Int
  target : Int := 0
  waiting : Bool := false
  reading : Int
  queuedAt : List Int
  begun : Int := 0
  inputs : List (Int × Int) := []
  sends : List Int := []

inductive Move
  | tick (ns : Nat)
  | wait
  | download (a : DownloadCount.Move)

namespace Pacer

/-- `run` has nothing to do before the clock or a reply moves. -/
def Held (s : Pacer) : Prop :=
  s.waiting = true ∨ s.runner.pc = .idle ∨ s.runner.pc = .done ∨
    s.runner.pc = .loop ∧ s.runner.getter.q = []

instance (s : Pacer) : Decidable s.Held := inferInstanceAs (Decidable (_ ∨ _ ∨ _ ∨ _))

def noted (s : Pacer) (r : Runner) : List Int :=
  s.queuedAt ++ List.replicate (r.getter.q.length - s.queuedAt.length) s.now

def current (s : Pacer) : Int × Int := (s.reading, s.queuedAt.headD s.reading)

def ran (s : Pacer) (r : Runner) : RunMove → Pacer
  | .begin _ =>
    { s with
      runner := r
      target := s.now + interval
      reading := s.now
      queuedAt := s.noted r
      begun := s.now }
  | .send =>
    { s with
      runner := r
      queuedAt := s.queuedAt.tail
      inputs := s.current :: s.inputs
      sends := s.now :: s.sends }
  | .register => { s with runner := r, waiting := true }
  | .finish => { s with runner := r }

/-- The steps of `run` itself take no time. -/
def step (s : Pacer) : Move → Option Pacer
  | .tick ns => if s.Held then some { s with now := s.now + ns } else none
  | .wait =>
    if s.waiting = true ∧ s.target ≤ s.now then
      some { s with waiting := false, target := s.target + interval, reading := s.now }
    else none
  | .download (.run m) =>
    if s.waiting then none else (s.runner.step m).map fun (r, _) => s.ran r m
  | .download a =>
    (DownloadCount.step s.runner a).map fun r => { s with runner := r, queuedAt := s.noted r }

/-- When the request after the first `n` is due: one every ten seconds from the
beginning on. -/
def slot (s : Pacer) (n : Nat) : Int := s.begun + n * interval

end Pacer

def pacing (g : HistBarGetter) (now : Int) : Machine Pacer Move where
  init :=
    { runner := { getter := g }
      now := now
      reading := now
      queuedAt := g.q.map fun _ => now }
  step := Pacer.step

/-- What holds in every reachable state: the deadline is one of the slots, the loop
comes back to its guard only in the slot of the next request, and a chunk that is
then in the queue is sent at once. -/
structure Scheduled (s : Pacer) : Prop where
  idle : s.runner.pc = .idle → s.waiting = false ∧ s.sends = []
  sent : ∀ id symbol, s.runner.pc = .sent id symbol →
    s.waiting = false ∧ s.target = s.slot s.sends.length
  waiting : s.waiting = true → s.runner.pc = .loop ∧ s.target = s.slot s.sends.length
  loop : s.runner.pc = .loop → s.waiting = false →
    s.target = s.slot (s.sends.length + 1) ∧ (s.sends ≠ [] → s.slot s.sends.length ≤ s.now)
  queued : s.queuedAt.length = s.runner.getter.q.length
  past : s.reading ≤ s.now ∧ ∀ t ∈ s.queuedAt, t ≤ s.now
  ready : s.runner.pc = .loop → s.waiting = false → ∀ t ∈ s.queuedAt.head?,
    s.now = max s.reading t
  sends : s.sends = s.inputs.map fun p => max p.1 p.2

variable {g : HistBarGetter} {epoch : Int} {s t : Pacer}

theorem slot_succ (s : Pacer) (n : Nat) : s.slot (n + 1) = s.slot n + interval := by
  rw [Pacer.slot, Pacer.slot, Int.natCast_succ, Int.add_mul, Int.one_mul, Int.add_assoc]

/-- Where a step of `run` leads, and what it leaves in the queue. -/
theorem run_pc {r r' : Runner} {m : RunMove} {client : List ClientMsg}
    (h : r.step m = some (r', client)) :
    match m with
    | .begin _ => r.pc = .idle ∧ r'.pc = .loop ∧ r.getter.q <+: r'.getter.q
    | .send => r.pc = .loop ∧ (∃ id symbol, r'.pc = .sent id symbol) ∧
        ∃ req, r.getter.q = req :: r'.getter.q
    | .register => (∃ id symbol, r.pc = .sent id symbol) ∧ r'.pc = .loop ∧
        r'.getter.q = r.getter.q
    | .finish => r.pc = .loop ∧ r'.pc = .done ∧ r'.getter.q = r.getter.q := by
  cases m with
  | begin order =>
    simp only [Runner.step] at h
    split at h
    · next hb =>
      cases h
      exact ⟨hb.1, rfl, List.prefix_append _ _⟩
    · cases h
  | send =>
    simp only [Runner.step] at h
    split at h
    · next hpc hq =>
      split at h
      · cases h
      · obtain ⟨p, _, heq⟩ := toOption_map_eq_some.mp h
        cases heq
        exact ⟨hpc, ⟨_, _, rfl⟩, _, hq⟩
    · cases h
  | register =>
    simp only [Runner.step] at h
    split at h
    · next hpc =>
      cases h
      exact ⟨⟨_, _, hpc⟩, rfl, rfl⟩
    · cases h
  | finish =>
    simp only [Runner.step] at h
    split at h
    · next hf =>
      cases h
      exact ⟨hf.1, rfl, rfl⟩
    · cases h

theorem length_noted (h : Scheduled s) {r : Runner} (hq : s.runner.getter.q <+: r.getter.q) :
    (s.noted r).length = r.getter.q.length := by
  have hle := hq.length_le
  have hqueued := h.queued
  rw [Pacer.noted, List.length_append, List.length_replicate]
  omega

theorem noted_le (h : Scheduled s) (r : Runner) : ∀ t ∈ s.noted r, t ≤ s.now := by
  intro t ht
  obtain ht | ht := List.mem_append.mp ht
  · exact h.past.2 t ht
  · exact Int.le_of_eq (List.eq_of_mem_replicate ht)

theorem head_noted {r : Runner} {t : Int} (ht : t ∈ (s.noted r).head?) :
    t ∈ s.queuedAt.head? ∨ t = s.now := by
  rw [Pacer.noted] at ht
  cases hq : s.queuedAt with
  | nil =>
    rw [hq, List.nil_append] at ht
    exact .inr (List.eq_of_mem_replicate (List.mem_of_mem_head? ht))
  | cons u rest =>
    rw [hq, List.cons_append] at ht
    exact .inl ht

theorem Scheduled.ran (h : Scheduled s) (hwait : s.waiting = false) {m : RunMove} {r : Runner}
    {client : List ClientMsg} (hr : s.runner.step m = some (r, client)) : Scheduled (s.ran r m) := by
  have hpc := run_pc hr
  cases m with
  | begin order =>
    obtain ⟨hidle, hloop, hq⟩ := hpc
    have hnil := (h.idle hidle).2
    refine ⟨?_, ?_, ?_, fun _ _ => ⟨?_, ?_⟩, length_noted h hq, ⟨Int.le_refl _, noted_le h r⟩,
      fun _ _ t ht => ?_, h.sends⟩
    · simp [Pacer.ran, hloop]
    · simp [Pacer.ran, hloop]
    · simp [Pacer.ran, hwait]
    · simp [Pacer.ran, Pacer.slot, hnil]
    · simp [Pacer.ran, hnil]
    · exact (Int.max_eq_left (noted_le h r t (List.mem_of_mem_head? ht))).symm
  | send =>
    obtain ⟨hloop, ⟨id, symbol, hsent⟩, req, hq⟩ := hpc
    have hlength := h.queued
    rw [hq, List.length_cons] at hlength
    obtain ⟨t, rest, ht⟩ := List.exists_cons_of_length_eq_add_one hlength
    have hready := h.ready hloop hwait t (by simp [ht])
    refine ⟨?_, fun _ _ _ => ⟨hwait, (h.loop hloop hwait).1⟩, ?_, ?_, ?_, ⟨h.past.1, ?_⟩, ?_, ?_⟩
    · simp [Pacer.ran, hsent]
    · simp [Pacer.ran, hwait]
    · simp [Pacer.ran, hsent]
    · simp [Pacer.ran, hlength]
    · exact fun u hu => h.past.2 u (List.mem_of_mem_tail hu)
    · simp [Pacer.ran, hsent]
    · simp [Pacer.ran, Pacer.current, ht, hready, h.sends]
  | register =>
    obtain ⟨⟨id, symbol, hsent⟩, hloop, hq⟩ := hpc
    refine ⟨?_, ?_, fun _ => ⟨hloop, (h.sent id symbol hsent).2⟩, ?_, ?_, h.past, ?_, h.sends⟩
    · simp [Pacer.ran, hloop]
    · simp [Pacer.ran, hloop]
    · simp [Pacer.ran]
    · exact h.queued.trans (congrArg List.length hq.symm)
    · simp [Pacer.ran]
  | finish =>
    obtain ⟨_, hdone, hq⟩ := hpc
    refine ⟨?_, ?_, ?_, ?_, ?_, h.past, ?_, h.sends⟩
    · simp [Pacer.ran, hdone]
    · simp [Pacer.ran, hdone]
    · simp [Pacer.ran, hwait]
    · simp [Pacer.ran, hdone]
    · exact h.queued.trans (congrArg List.length hq.symm)
    · simp [Pacer.ran, hdone]

/-- A reply leaves the place of `run` and the chunks that wait as they are. -/
theorem reply_frame {r r' : Runner} {a : DownloadCount.Move} (ha : ∀ m, a ≠ .run m)
    (h : DownloadCount.step r a = some r') :
    r'.pc = r.pc ∧ r.getter.q <+: r'.getter.q := by
  cases DownloadCount.step_moved (g := r.getter) h with
  | run hr => exact absurd rfl (ha _)
  | histBar symData => exact ⟨rfl, List.prefix_rfl⟩
  | histBarEnd _ hended =>
    refine ⟨rfl, ?_⟩
    cases hended with
    | unknown _ => exact List.prefix_rfl
    | next _ _ _ => exact List.prefix_append _ _
    | last _ _ => exact ⟨[], by rw [List.append_nil, (complete_sameRequests _ _ _).q]⟩
  | ibErrMsg msg =>
    have hq := (processErrMsg_sameRequests r.getter msg).q
    exact ⟨rfl, [], (List.append_nil _).trans hq.symm⟩

theorem Scheduled.reply (h : Scheduled s) {r : Runner} (hpc : r.pc = s.runner.pc)
    (hq : s.runner.getter.q <+: r.getter.q) :
    Scheduled { s with runner := r, queuedAt := s.noted r } where
  idle hr := h.idle (hpc ▸ hr)
  sent id symbol hr := h.sent id symbol (hpc ▸ hr)
  waiting hw := ⟨hpc.trans (h.waiting hw).1, (h.waiting hw).2⟩
  loop hr := h.loop (hpc ▸ hr)
  queued := length_noted h hq
  past := ⟨h.past.1, noted_le h r⟩
  ready hr hwait t ht := by
    obtain ht | rfl := head_noted ht
    · exact h.ready (hpc ▸ hr) hwait t ht
    · exact (Int.max_eq_right h.past.1).symm
  sends := h.sends

/-- All that a move does to the clock, the deadline and the requests. -/
inductive Moved (s : Pacer) : Move → Pacer → Prop
  | tick (ns : Nat) (hheld : s.Held) : Moved s (.tick ns) { s with now := s.now + ns }
  | wait (hwait : s.waiting = true) (htarget : s.target ≤ s.now) :
      Moved s .wait
        { s with waiting := false, target := s.target + interval, reading := s.now }
  | run {m : RunMove} {r : Runner} {client : List ClientMsg} (hwait : s.waiting = false)
      (hr : s.runner.step m = some (r, client)) : Moved s (.download (.run m)) (s.ran r m)
  | reply {a : DownloadCount.Move} {r : Runner} (ha : ∀ m, a ≠ .run m)
      (hpc : r.pc = s.runner.pc) (hq : s.runner.getter.q <+: r.getter.q) :
      Moved s (.download a) { s with runner := r, queuedAt := s.noted r }

theorem step_moved {a : Move} (ht : (pacing g epoch).step s a = some t) : Moved s a t := by
  cases a with
  | tick ns =>
    simp only [pacing, Pacer.step] at ht
    split at ht
    · next hheld =>
      cases ht
      exact .tick ns hheld
    · cases ht
  | wait =>
    simp only [pacing, Pacer.step] at ht
    split at ht
    · next hw =>
      cases ht
      exact .wait hw.1 hw.2
    · cases ht
  | download a =>
    cases a with
    | run m =>
      simp only [pacing, Pacer.step] at ht
      split at ht
      · cases ht
      · next hw =>
        obtain ⟨⟨r, client⟩, hr, rfl⟩ := Option.map_eq_some_iff.mp ht
        exact .run (by simpa using hw) hr
    | histBar | histBarEnd | ibErrMsg =>
      simp only [pacing, Pacer.step] at ht
      obtain ⟨r, hr, rfl⟩ := Option.map_eq_some_iff.mp ht
      obtain ⟨hpc, hq⟩ := reply_frame (by simp) hr
      exact .reply (by simp) hpc hq

/-- In its loop `run` lets the clock move only while the queue is empty. -/
theorem Scheduled.tick (h : Scheduled s) (hheld : s.Held) (ns : Nat) :
    Scheduled { s with now := s.now + ns } where
  idle := h.idle
  sent := h.sent
  waiting := h.waiting
  loop hloop hwait := by
    obtain ⟨htarget, hpassed⟩ := h.loop hloop hwait
    refine ⟨htarget, fun hne => ?_⟩
    have hnow := hpassed hne
    change s.slot s.sends.length ≤ s.now + ns
    omega
  queued := h.queued
  past := by
    refine ⟨?_, fun t ht => ?_⟩
    · have hreading := h.past.1
      change s.reading ≤ s.now + ns
      omega
    · have hqueued := h.past.2 t ht
      change t ≤ s.now + ns
      omega
  ready hloop hwait t ht := by
    have hempty : s.runner.getter.q = [] := by
      obtain hw | hidle | hdone | ⟨_, hempty⟩ := hheld
      · cases hwait.symm.trans hw
      · cases hloop.symm.trans hidle
      · cases hloop.symm.trans hdone
      · exact hempty
    have hnil : s.queuedAt = [] :=
      List.eq_nil_of_length_eq_zero (by rw [h.queued, hempty, List.length_nil])
    simp [hnil] at ht
  sends := h.sends

theorem Scheduled.step {a : Move} (h : Scheduled s) (ht : Moved s a t) : Scheduled t := by
  cases ht with
  | tick ns hheld => exact h.tick hheld ns
  | wait hwait hnow =>
    obtain ⟨hloop, htarget⟩ := h.waiting hwait
    refine ⟨?_, ?_, by simp, fun _ _ => ⟨?_, fun _ => htarget ▸ hnow⟩, h.queued,
      ⟨Int.le_refl _, h.past.2⟩, fun _ _ t ht => ?_, h.sends⟩
    · simp [hloop]
    · simp [hloop]
    · exact (congrArg (· + interval) htarget).trans (slot_succ s _).symm
    · exact (Int.max_eq_left (h.past.2 t (List.mem_of_mem_head? ht))).symm
  | run hwait hr => exact h.ran hwait hr
  | reply _ hpc hq => exact h.reply hpc hq

end CalmTrading.Pacing
