import CalmTrading.DownloadSound

namespace CalmTrading.DownloadReplies

open Lib Objects Utils Gateway HistoricalData HistoricalInit Download DownloadSession DownloadSound

/-- No reply was discarded, and a file that was saved has all its bars. -/
structure Kept (s : Session) : Prop where
  dropped : s.dropped = []
  success : ∀ symbol, s.runner.getter.status symbol = .success →
    ∃ rows, s.runner.getter.written symbol = some rows ∧ Covers s symbol rows

def awaited? : Pc → Option Int
  | .sent reqId _ => some reqId
  | _ => none

/-- The event thread handles no reply to a request that is not yet recorded. -/
def Recorded (s : Session) : Move → Prop
  | .dispatch _ => ∀ e ∈ s.eventQueue.head?, ∀ id ∈ reply? e, awaited? s.runner.pc ≠ some id
  | _ => True

instance : ∀ (s : Session) (a : Move), Decidable (Recorded s a)
  | s, .dispatch _ => inferInstanceAs (Decidable (∀ e ∈ s.eventQueue.head?, _))
  | _, .run _ | _, .bar _ | _, .barEnd _ | _, .error _ | _, .contractDetails _ | _, .post _ =>
    .isTrue trivial

theorem awaited?_eq_some {pc : Pc} {id : Int} :
    awaited? pc = some id ↔ ∃ symbol, pc = .sent id symbol := by
  cases pc <;> simp [awaited?]

theorem step_dropped {g : HistBarGetter} {s t : Session} {a : Move}
    (ht : (session g).step s a = some t) :
    t.dropped = s.dropped ∧ Recorded s a ∨
      ∃ outcome e, a = .dispatch outcome ∧ s.eventQueue.head? = some e ∧
        t.dropped = s.discarded e ++ s.dropped := by
  cases step_moved ht with
  | run _ =>
    refine .inl ⟨?_, trivial⟩
    rw [Session.ran]
    split <;> rfl
  | bar _ => exact .inl ⟨rfl, trivial⟩
  | barEnd _ => exact .inl ⟨rfl, trivial⟩
  | quiet ha _ _ =>
    refine .inl ⟨rfl, ?_⟩
    cases a with
    | dispatch outcome => exact absurd rfl (ha outcome)
    | _ => trivial
  | @dispatch outcome e rest _ hq _ => exact .inr ⟨outcome, e, rfl, by simp [hq], rfl⟩

theorem dropped_of_step {g : HistBarGetter} {s t : Session} {a : Move}
    (ht : (session g).step s a = some t) (hdropped : t.dropped = []) : s.dropped = [] := by
  obtain ⟨hsame, _⟩ | ⟨outcome, e, _, _, hmore⟩ := step_dropped ht
  · exact hsame.symm.trans hdropped
  · exact (List.append_eq_nil_iff.mp (hmore.symm.trans hdropped)).2

theorem discarded_iff_awaited {s : Session} (h : Sound s) {e : Event}
    (he : s.eventQueue.head? = some e) :
    s.discarded e = [] ↔ ∀ id ∈ reply? e, awaited? s.runner.pc ≠ some id := by
  have hsent : ∀ id, reply? e = some id → id ∈ s.sent :=
    h.events e (List.mem_of_mem_head? he)
  rw [discarded_eq_nil]
  refine forall₂_congr fun id hid => ?_
  constructor
  · intro hknown hpc
    obtain ⟨symbol, hpc⟩ := awaited?_eq_some.mp hpc
    exact h.unregistered id symbol hpc (hknown (hsent id hid))
  · intro hpc hmem
    obtain ⟨symbol, hsym⟩ := Table.mem_iff_lookup.mp hmem
    have hreg := h.registered id fun symbol hs => hpc (awaited?_eq_some.mpr ⟨symbol, hs⟩)
    exact Table.mem_iff_lookup.mpr ⟨symbol, hreg.trans hsym⟩

theorem kept_step {g : HistBarGetter} {s t : Session} {a : Move} (h : Sound s) (hkept : Kept s)
    (ht : (session g).step s a = some t) : Kept t ↔ Recorded s a := by
  have hdropped : t.dropped = [] ↔ Recorded s a := by
    obtain ⟨hsame, hrec⟩ | ⟨outcome, e, rfl, he, hmore⟩ := step_dropped ht
    · exact iff_of_true (hsame.trans hkept.dropped) hrec
    · rw [hmore, hkept.dropped, List.append_nil, discarded_iff_awaited h he]
      simp only [Recorded, he, Option.mem_some_iff, forall_eq']
  rw [← hdropped]
  refine ⟨Kept.dropped, fun hnil => ⟨hnil, fun symbol hsuc => ?_⟩⟩
  exact ((h.step ht hnil).success symbol hsuc).2

/-- No bar is lost and no reply discarded throughout exactly those runs that
handle no reply to a request before its id is recorded. -/
theorem replies_kept_iff {cal : Calendar} {days : Int} {reqs : List HistBarReq}
    {g : HistBarGetter} (hg : HistBarGetter.init cal days reqs = .ok g) (as : List Move) :
    (session g).StatesAll Kept (session g).init as ↔
      (session g).StepsAll Recorded (session g).init as := by
  apply Machine.statesAll_iff_stepsAll (I := fun s => s.dropped = [] → Sound s)
  · exact fun s a t h ht hdropped => (h (dropped_of_step ht hdropped)).step ht hdropped
  · exact fun s a t h hkept ht => kept_step (h hkept.dropped) hkept ht
  · exact fun _ => sound_init (init_fresh hg).1
  · exact ⟨rfl, fun symbol hsuc => ((sound_init (init_fresh hg).1).success symbol hsuc).2⟩

def sonyBar : HistBar where
  id := 10000000
  time := "1735862400"
  high := 3364
  low := 3356
  «open» := 3360
  close := 3363
  wap := 3361
  volume := 100
  count := 12

def barKept : List Move :=
  [.run (.begin ["6758-STK-JPY.TSEJ"]), .run .send, .run .register, .bar sonyBar,
    .barEnd { id := 10000000 }, .dispatch {}, .dispatch { sorted := [sonyBar] }]

theorem replies_kept_registered :
    ((session sonyGetter).run (session sonyGetter).init barKept).isSome = true ∧
      (session sonyGetter).StatesAll Kept (session sonyGetter).init barKept :=
  ⟨by decide +kernel, (replies_kept_iff sonyGetter_init barKept).mpr (by decide +kernel)⟩

/-- The bar comes before its request is recorded, and the file without it is a
success. -/
def barLost : List Move :=
  [.run (.begin ["6758-STK-JPY.TSEJ"]), .run .send, .bar sonyBar, .dispatch {}, .run .register,
    .barEnd { id := 10000000 }, .dispatch {}]

theorem replies_lost :
    ¬ ∀ (cal : Calendar) (days : Int) (reqs : List HistBarReq) (g : HistBarGetter),
      HistBarGetter.init cal days reqs = .ok g → ∀ s, (session g).Reachable s → Kept s := by
  intro hall
  have hrun : (((session sonyGetter).run (session sonyGetter).init barLost).map fun s =>
      (s.runner.getter.status "6758-STK-JPY.TSEJ",
        s.runner.getter.written "6758-STK-JPY.TSEJ",
        s.delivered, s.sent.lookup 10000000)) =
      some (.success, some [], [sonyBar], some "6758-STK-JPY.TSEJ") := by
    decide +kernel
  obtain ⟨s, hs, hstate⟩ := Machine.exists_reachable_of_run hrun
  simp only [Prod.mk.injEq] at hstate
  obtain ⟨hsuc, hwritten, hdelivered, hsent⟩ := hstate
  have hkept := hall _ _ _ _ sonyGetter_init s hs
  obtain ⟨rows, hrows, hcovers⟩ := hkept.success _ hsuc
  cases hwritten.symm.trans hrows
  obtain ⟨row, hrow, _⟩ := hcovers sonyBar (by simp [hdelivered]) hsent
  exact List.not_mem_nil hrow

end CalmTrading.DownloadReplies
