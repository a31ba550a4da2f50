import Mathlib.Algebra.Order.BigOperators.Group.List
import Mathlib.Algebra.Order.Group.Nat
import CalmTrading.SavedDownloads

namespace CalmTrading.DownloadFinishes

open Lib Objects Utils Gateway HistoricalData HistoricalInit Download DownloadSession
open DownloadSound DownloadReplies DownloadSequence CompleteDownload SavedDownloads

/-- How many chunks of the download are still to be requested. -/
def toSend (g : HistBarGetter) (s : Sequence) : Nat :=
  (g.symChunks.keys.flatMap fun symbol =>
    (g.chunks symbol).drop (s.sendsOf symbol).length).length

def pcWork : Pc → Nat
  | .idle => 2
  | .loop => 1
  | .sent _ _ => 2
  | .done => 0

/-- The steps that are left: four for a request that is not sent, two for one
whose end has not come, and one for an event. -/
def stepsLeft (g : HistBarGetter) (s : Sequence) : Nat :=
  4 * toSend g s + pcWork s.session.runner.pc +
    2 * s.session.opened.length + s.session.eventQueue.length

/-- The download can go on: the chunks are for contracts, there are ids for the
requests to come, and no error that waits is for a request of the download. -/
structure Able (g : HistBarGetter) (s : Sequence) : Prop where
  contracts : ∀ symbol ∈ g.symChunks, ∃ contract, generateContract symbol = .ok contract
  ids : s.session.runner.api.mReqId + toSend g s ≤ unsetInt
  errors : ∀ e ∈ s.session.eventQueue, ∀ id ∈ errorId? e,
    id < s.session.runner.api.mReqId ∧ id ∉ s.session.sent

theorem step_run {g : HistBarGetter} {s : Sequence} {m : RunMove} {p : Runner × List ClientMsg}
    (hm : s.session.runner.step m = some p) (hnone : p.2 = []) :
    (sequence g).step s (.session (.run m)) = some { s with session.runner := p.1 } := by
  simp [DownloadSequence.sequence, Sequence.step, Session.step, Session.ran, Session.request?,
    ending?, hm, hnone]

theorem step_begin {g : HistBarGetter} {s : Sequence}
    (hpc : s.session.runner.pc = .idle) :
    (sequence g).step s (.session (.run (.begin s.getter.symChunks.keys))) = some
      { s with
        session.runner.getter :=
          s.getter.begin s.getter.symChunks.keys
        session.runner.pc := .loop } := by
  have hm : s.session.runner.step (.begin s.getter.symChunks.keys) = some
      ({ s.session.runner with
          getter := s.getter.begin s.getter.symChunks.keys, pc := .loop }, []) := by
    simp [Runner.step, hpc, Sequence.getter]
  exact step_run hm rfl

theorem step_register {g : HistBarGetter} {s : Sequence} {id : Int} {symbol : String}
    (hpc : s.session.runner.pc = .sent id symbol) :
    (sequence g).step s (.session (.run .register)) = some
      { s with
        session.runner.getter := s.getter.register id symbol
        session.runner.pc := .loop } := by
  have hm : s.session.runner.step .register = some
      ({ s.session.runner with
          getter := s.getter.register id symbol, pc := .loop }, []) := by
    simp [Runner.step, hpc, Sequence.getter]
  exact step_run hm rfl

theorem step_finish {g : HistBarGetter} {s : Sequence}
    (hpc : s.session.runner.pc = .loop) (hrem : s.getter.remaining = 0) :
    (sequence g).step s (.session (.run .finish)) = some
      { s with session.runner.pc := .done } := by
  rw [Sequence.getter] at hrem
  have hm : s.session.runner.step .finish = some
      ({ s.session.runner with pc := .done }, []) := by
    simp [Runner.step, hpc, hrem]
  exact step_run hm rfl

theorem step_send {g : HistBarGetter} {s : Sequence} {req : IBHistBarReq} {rest : List IBHistBarReq}
    {contract : Contract} (hpc : s.session.runner.pc = .loop)
    (hq : s.getter.q = req :: rest) (hrem : s.getter.remaining ≠ 0)
    (hcontract : generateContract req.symbol = .ok contract)
    (hids : s.session.runner.api.mReqId ≠ unsetInt) :
    (sequence g).step s (.session (.run .send)) = some
      (issued s req rest) := by
  have hincr := postIncr_eq_ok.mpr ⟨hids, rfl⟩
  rw [Sequence.getter] at hrem hq
  simp [DownloadSequence.sequence, Sequence.step, Session.step, Runner.step, Session.ran,
    Session.request?, ending?, hpc, hrem, hq, Sequence.getter, IBApi.reqHistoricalBar, hcontract, hincr,
    issued, bind, Except.bind, Except.toOption]

theorem step_barEnd {g : HistBarGetter} {s : Sequence} {id : Int}
    (hopen : id ∈ s.session.opened) :
    (sequence g).step s (.session (.barEnd { id := id })) = some
      { s with
        session.opened := s.session.opened.erase id
        session.eventQueue :=
          s.session.eventQueue ++ [.histBarEnd { id := id }] } := by
  simp [DownloadSequence.sequence, Sequence.step, Session.step, Session.after,
    IBApi.historicalDataEnd, ending?, hopen]

theorem step_dispatch {g g' : HistBarGetter} {s : Sequence} {outcome : Outcome} {e : Event}
    {rest : List Event} (hq : s.session.eventQueue = e :: rest)
    (hhandle : Session.handle s.getter outcome e = some g') :
    ∃ dropped ends, (sequence g).step s (.session (.dispatch outcome)) = some
      { s with
        session.runner.getter := g'
        session.eventQueue := rest
        session.dropped := dropped
        ends := ends } := by
  rw [Sequence.getter] at hhandle
  simp [DownloadSequence.sequence, Sequence.step, Session.step, hq, hhandle]

theorem exists_sortOf (data : List HistBar) : ∃ sorted, SortOf data sorted := by
  refine ⟨data.mergeSort fun a b => decide (a.time ≤ b.time), List.mergeSort_perm _ _, ?_⟩
  have hsorted : (data.mergeSort fun a b => decide (a.time ≤ b.time)).Pairwise
      fun a b => decide (a.time ≤ b.time) = true := by
    apply List.pairwise_mergeSort
    · intro a b c hab hbc
      exact decide_eq_true (String.le_trans (of_decide_eq_true hab) (of_decide_eq_true hbc))
    · intro a b
      simpa using String.le_total a.time b.time
  exact hsorted.imp fun h => String.not_lt.mpr (of_decide_eq_true h)

/-- The callbacks can handle the next event, and write the file that it completes. -/
theorem exists_handle {s : Sequence} (hseq : Sequenced s) {e : Event} {rest : List Event}
    (hq : s.session.eventQueue = e :: rest) :
    ∃ outcome g', outcome.saving = .ok ∧ Session.handle s.getter outcome e = some g' := by
  cases e with
  | histBarEnd barEnd =>
    obtain ⟨sorted, hsort⟩ :=
      exists_sortOf (((s.getter.completes barEnd.id).map s.getter.data).getD [])
    have hadmits : s.getter.Admits barEnd { sorted := sorted } := by
      intro symbol hsymbol
      have hsome : s.getter.completes barEnd.id = some symbol := hsymbol
      simpa [hsome] using hsort
    obtain ⟨g', hg'⟩ := hseq.inRange.next barEnd { sorted := sorted } (by rw [hq]; rfl)
    refine ⟨{ sorted := sorted }, g', rfl, ?_⟩
    simp [Session.handle, hadmits, hg', Except.toOption]
  | _ => exact ⟨{}, _, rfl, rfl⟩

/-- A chunk that waits is one of its symbol's chunks that are not yet requested. -/
theorem sendsOf_lt {g : HistBarGetter} {s : Sequence} (hfiled : Filed g s)
    (hseq : Sequenced s) (hpc : s.session.runner.pc = .loop)
    {req : IBHistBarReq} {rest : List IBHistBarReq} (hq : s.getter.q = req :: rest) :
    req.symbol ∈ g.symChunks ∧
      (s.sendsOf req.symbol).length < (g.chunks req.symbol).length := by
  have hchunks : s.getter.chunks req.symbol = g.chunks req.symbol := by
    rw [HistBarGetter.chunks, hfiled.symChunks, HistBarGetter.chunks]
  have hrow := congrArg List.length (hseq.row (by simp [hpc]) req.symbol)
  rw [List.length_append, List.length_map, List.length_take, hchunks] at hrow
  have hqueued : 0 < (s.queuedOf req.symbol).length := by
    rw [Sequence.queuedOf, hq, List.filter_cons_of_pos (by simp)]
    exact Nat.succ_pos _
  have hlt : (s.sendsOf req.symbol).length < (g.chunks req.symbol).length := by omega
  refine ⟨?_, hlt⟩
  obtain ⟨c, hc⟩ := List.exists_mem_of_length_pos (Nat.zero_lt_of_lt hlt)
  obtain ⟨cs, hcs, -⟩ := mem_chunks hc
  exact Table.mem_iff_lookup.mpr ⟨cs, hcs⟩

theorem length_flatMap_lt {α β : Type} {l : List α} {f g : α → List β}
    (hle : ∀ a ∈ l, (f a).length ≤ (g a).length) (hlt : ∃ a ∈ l, (f a).length < (g a).length) :
    (l.flatMap f).length < (l.flatMap g).length := by
  rw [List.length_flatMap, List.length_flatMap]
  exact List.sum_lt_sum _ _ hle hlt

theorem toSend_issued {g : HistBarGetter} {s : Sequence} (hfiled : Filed g s)
    (hseq : Sequenced s) (hpc : s.session.runner.pc = .loop)
    {req : IBHistBarReq} {rest : List IBHistBarReq} (hq : s.getter.q = req :: rest) :
    toSend g (issued s req rest) < toSend g s := by
  obtain ⟨hmem, hlt⟩ := sendsOf_lt hfiled hseq hpc hq
  have hsends := (issued_sending hpc hq).sendsOf
  refine length_flatMap_lt (fun symbol _ => ?_) ⟨req.symbol, AList.mem_keys.mp hmem, ?_⟩
  · rw [hsends, List.length_append, List.length_drop, List.length_drop]
    omega
  · rw [hsends, if_pos rfl, List.length_append, List.length_singleton, List.length_drop,
      List.length_drop]
    omega

/-- What is left to do, and that it can be done. -/
structure Onward (g : HistBarGetter) (s t : Sequence) : Prop where
  able : Able g t
  work : stepsLeft g t < stepsLeft g s

theorem Onward.of_frame {g : HistBarGetter} {s t : Sequence} (h : Able g s)
    (hsends : t.session.sends = s.session.sends)
    (hapi : t.session.runner.api = s.session.runner.api)
    (hsent : t.session.sent = s.session.sent)
    (herrors : ∀ e ∈ t.session.eventQueue,
      e ∈ s.session.eventQueue ∨ errorId? e = none)
    (hwork : pcWork t.session.runner.pc + 2 * t.session.opened.length +
        t.session.eventQueue.length <
      pcWork s.session.runner.pc + 2 * s.session.opened.length +
        s.session.eventQueue.length) : Onward g s t := by
  have hsame : toSend g t = toSend g s := by
    simp only [toSend, Sequence.sendsOf, hsends]
  refine ⟨⟨h.contracts, ?_, ?_⟩, ?_⟩
  · rw [hapi, hsame]
    exact h.ids
  · intro e he id hid
    rw [hapi, hsent]
    obtain he | hnone := herrors e he
    · exact h.errors e he id hid
    · simp [hnone] at hid
  · rw [stepsLeft, stepsLeft, hsame]
    omega

theorem Onward.of_pc {g : HistBarGetter} {s t : Sequence} {pc pc' : Pc} (h : Able g s)
    (hsends : t.session.sends = s.session.sends)
    (hapi : t.session.runner.api = s.session.runner.api)
    (hsent : t.session.sent = s.session.sent)
    (hopened : t.session.opened = s.session.opened)
    (hqueue : t.session.eventQueue = s.session.eventQueue)
    (hpc : s.session.runner.pc = pc) (hpc' : t.session.runner.pc = pc')
    (hless : pcWork pc' < pcWork pc) : Onward g s t := by
  refine .of_frame h hsends hapi hsent (fun e he => .inl (hqueue ▸ he)) ?_
  rw [hopened, hqueue, hpc, hpc']
  omega

theorem send_onward {g : HistBarGetter} {s : Sequence} (h : Able g s) (hfiled : Filed g s)
    (hseq : Sequenced s) (hpc : s.session.runner.pc = .loop)
    {req : IBHistBarReq} {rest : List IBHistBarReq} (hq : s.getter.q = req :: rest) :
    Onward g s (issued s req rest) := by
  have hless := toSend_issued hfiled hseq hpc hq
  refine ⟨⟨h.contracts, ?_, ?_⟩, ?_⟩
  · have hids := h.ids
    change s.session.runner.api.mReqId + 1 + toSend g (issued s req rest) ≤ _
    omega
  · intro e he id hid
    obtain ⟨hlt, hsent⟩ := h.errors e he id hid
    refine ⟨Int.lt_trans hlt (Int.lt_succ _), ?_⟩
    change id ∉ s.session.sent.insert s.session.runner.api.mReqId req.symbol
    simp [hsent, Int.ne_of_lt hlt]
  · have hopened : (issued s req rest).session.opened.length =
        s.session.opened.length + 1 := by simp [issued]
    have hqueue : (issued s req rest).session.eventQueue =
        s.session.eventQueue := rfl
    have hafter : pcWork (issued s req rest).session.runner.pc = 2 := rfl
    have hbefore : pcWork s.session.runner.pc = 1 := by rw [hpc, pcWork]
    simp only [stepsLeft, hopened, hqueue, hafter, hbefore]
    omega

theorem dispatch_onward {g : HistBarGetter} {s : Sequence} (h : Able g s)
    (hseq : Sequenced s) (hpc : s.session.runner.pc = .loop) {e : Event}
    {rest : List Event} (hq : s.session.eventQueue = e :: rest) :
    ∃ a t, Complete s a ∧ (sequence g).step s a = some t ∧ Onward g s t := by
  obtain ⟨outcome, g', hsaving, hhandle⟩ := exists_handle hseq hq
  obtain ⟨dropped, ends, hstep⟩ := step_dispatch (g := g) hq hhandle
  refine ⟨.session (.dispatch outcome), _, ?_, hstep, .of_frame h rfl rfl rfl ?_ ?_⟩
  · intro e' he'
    have heq : e' = e := by simpa [hq] using he'.symm
    subst heq
    refine ⟨fun id _ => by simp [hpc, awaited?], fun id hid hmem => ?_, fun _ => hsaving⟩
    obtain ⟨symbol, hlookup⟩ := Table.mem_iff_lookup.mp hmem
    have hsent := hseq.registered id symbol hlookup
    exact (h.errors e' (hq ▸ List.mem_cons_self) id hid).2
      (Table.mem_iff_lookup.mpr ⟨symbol, hsent⟩)
  · exact fun e' he' => .inl (hq ▸ List.mem_cons_of_mem e he')
  · rw [hq, List.length_cons]
    exact Nat.lt_succ_self _

theorem barEnd_onward {g : HistBarGetter} {s : Sequence} (h : Able g s) {id : Int}
    (hopen : id ∈ s.session.opened) :
    ∃ a t, Complete s a ∧ (sequence g).step s a = some t ∧ Onward g s t := by
  refine ⟨.session (.barEnd { id := id }), _, trivial, step_barEnd hopen,
    .of_frame h rfl rfl rfl ?_ ?_⟩
  · intro e he
    obtain he | he := List.mem_append.mp he
    · exact .inl he
    · exact .inr (by rw [List.mem_singleton.mp he]; rfl)
  · have hpos := List.length_pos_of_mem hopen
    simp only [List.length_erase_of_mem hopen, List.length_append, List.length_singleton]
    omega

/-- As long as `run` has not returned some step leads on. -/
theorem progress {cal : Calendar} {days : Int} {reqs : List HistBarReq} {g : HistBarGetter}
    (hinit : HistBarGetter.init cal days reqs = .ok g) {s : Sequence}
    (hs : (sequence g).Reaches Complete s) (h : Able g s) :
    s.session.runner.pc = .done ∨
      ∃ a t, Complete s a ∧ (sequence g).step s a = some t ∧ Onward g s t := by
  have hfiled := filed hinit hs
  have hseq := sequenced (init_fresh hinit).1 hs.reachable
  have hrouted := routed (init_fresh hinit).1 hs
  cases hpc : s.session.runner.pc with
  | done => exact .inl rfl
  | idle =>
    exact .inr ⟨.session (.run (.begin s.getter.symChunks.keys)), _, trivial,
      step_begin hpc, .of_pc h rfl rfl rfl rfl rfl hpc rfl (Nat.lt_succ_self 1)⟩
  | sent id symbol =>
    exact .inr ⟨.session (.run .register), _, trivial, step_register hpc,
      .of_pc h rfl rfl rfl rfl rfl hpc rfl (Nat.lt_succ_self 1)⟩
  | loop =>
    refine .inr ?_
    cases hevents : s.session.eventQueue with
    | cons e rest => exact dispatch_onward h hseq hpc hevents
    | nil =>
      by_cases hrem : s.getter.remaining = 0
      · exact ⟨.session (.run .finish), _, trivial, step_finish hpc hrem,
          .of_pc h rfl rfl rfl rfl rfl hpc rfl Nat.zero_lt_one⟩
      cases hq : s.getter.q with
      | cons req rest =>
        obtain ⟨contract, hcontract⟩ := h.contracts _ (sendsOf_lt hfiled hseq hpc hq).1
        have hless := toSend_issued hfiled hseq hpc hq
        have hids := h.ids
        exact ⟨.session (.run .send), _, trivial,
          step_send hpc hq hrem hcontract (by omega), send_onward h hfiled hseq hpc hq⟩
      | nil =>
        cases hopened : s.session.opened with
        | cons id rest => exact barEnd_onward h (hopened ▸ List.mem_cons_self)
        | nil =>
          -- nothing is left to come, so that every symbol has its file
          have hover : Over s := .inr ⟨hpc, hq, by simp [outstanding, hopened, hevents]⟩
          have hsaved := hfiled.over hseq hrouted hover
          refine absurd ?_ hrem
          rw [hfiled.remaining, Int.natCast_eq_zero, DownloadCount.inProg, List.countP_eq_zero]
          intro symbol hsymbol
          simp [hfiled.status symbol, hsaved symbol (AList.mem_keys.mpr hsymbol)]

end CalmTrading.DownloadFinishes
