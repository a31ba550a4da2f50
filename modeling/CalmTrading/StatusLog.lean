import CalmTrading.DownloadSequence
import CalmTrading.RequestVector

namespace CalmTrading.StatusLog

open Lib Objects Utils Gateway HistoricalData HistoricalInit Download DownloadSession
open DownloadSequence RequestVector

def code : HistBarStatus → String
  | .inProg => "0"
  | .success => "1"
  | .error => "2"

/-- The entries of `sym_status`, in the order that the hash map happens to have. -/
def statusStr (g : HistBarGetter) (order : List String) : String :=
  order.foldl (fun str symbol => str ++ (symbol ++ ":" ++ code (g.status symbol) ++ ", ")) ""

/-- `std::string::pop_back`, which an empty string does not allow. -/
def popBack (s : String) : Except Fault String :=
  if s.toList = [] then .error .outOfRange else .ok (String.ofList s.toList.dropLast)

def logStatus (g : HistBarGetter) (order : List String) : Except Fault String := do
  let statusStr := statusStr g order
  let statusStr ← popBack statusStr
  popBack statusStr

/-- No access of `run` is out of range: neither to a chunk list, nor to the parts of
the symbol that it sends a request for next, nor, once its loop is left, to the end
of the status string. -/
structure Safe (s : Sequence) : Prop where
  chunks : InRange s
  contract : s.session.runner.pc = .loop → s.getter.remaining ≠ 0 → ∀ req ∈ s.getter.q.head?,
    ∃ contract, generateContract req.symbol = .ok contract
  log : s.session.runner.pc = .done → ∀ order : List String, order.Perm s.getter.symStatus.keys →
    ∃ str, logStatus s.getter order = .ok str

theorem popBack_eq_ok {s : String} : (∃ str, popBack s = .ok str) ↔ s.toList ≠ [] := by
  rw [popBack]
  split <;> simp_all

theorem le_length_statusStr (g : HistBarGetter) {order : List String} (h : order ≠ []) :
    2 ≤ (statusStr g order).toList.length := by
  obtain rfl | ⟨init, symbol, rfl⟩ := order.eq_nil_or_concat'
  · exact absurd rfl h
  · rw [statusStr, List.foldl_append]
    simp
    omega

theorem logStatus_eq_ok {g : HistBarGetter} {order : List String} :
    (∃ str, logStatus g order = .ok str) ↔ order ≠ [] := by
  constructor
  · rintro ⟨str, hstr⟩ rfl
    cases hstr
  · intro h
    have hlen := le_length_statusStr g h
    have hfirst : popBack (statusStr g order) =
        .ok (String.ofList (statusStr g order).toList.dropLast) :=
      if_neg fun hnil => by simp [hnil] at hlen
    have hlog : logStatus g order =
        popBack (String.ofList (statusStr g order).toList.dropLast) := by
      simp only [logStatus, hfirst, bind, Except.bind]
    rw [hlog, popBack_eq_ok]
    intro hnil
    have hzero := congrArg List.length hnil
    rw [String.toList_ofList, List.length_dropLast, List.length_nil] at hzero
    omega

/-- What holds in every reachable state: while no status is entered the counter is
the number of symbols with chunks, and `run` has not ended if there is one. -/
structure Counted (g : HistBarGetter) (s : Sequence) : Prop where
  symChunks : s.getter.symChunks = g.symChunks
  remaining : s.getter.symStatus.keys = [] → s.getter.remaining = g.symChunks.keys.length
  done : s.session.runner.pc = .done → s.getter.symStatus.keys = [] → g.symChunks.keys = []

theorem setStatus_keys (g : HistBarGetter) (symbol : String) (status : HistBarStatus) :
    (g.setStatus symbol status).symStatus.keys ≠ [] := by
  have hmem : symbol ∈ (g.setStatus symbol status).symStatus :=
    (AList.mem_insert _).mpr (.inl rfl)
  exact List.ne_nil_of_mem (AList.mem_keys.mp hmem)

/-- A callback that changes the counter enters a status. -/
theorem handle_status {g g' : HistBarGetter} {outcome : Outcome} {e : Event}
    (h : Session.handle g outcome e = some g') :
    g'.symStatus = g.symStatus ∧ g'.remaining = g.remaining ∨ g'.symStatus.keys ≠ [] := by
  cases e with
  | histBar bar =>
    cases h
    obtain ⟨symData, hbar⟩ := processHistBar_frame g bar
    rw [hbar]
    exact .inl ⟨rfl, rfl⟩
  | histBarEnd barEnd =>
    simp only [Session.handle] at h
    split at h
    · cases processHistBarEnd_ended (toOption_eq_some.mp h) with
      | unknown hid => exact .inl ⟨rfl, rfl⟩
      | next hid hlast hchunk => exact .inl ⟨rfl, rfl⟩
      | last hid hlast =>
        rw [HistBarGetter.complete]
        cases outcome.saving with
        | threw => exact .inl ⟨rfl, rfl⟩
        | failed => exact .inr (setStatus_keys _ _ _)
        | ok =>
          dsimp only
          split
          · exact .inr (setStatus_keys _ _ _)
          · exact .inl ⟨rfl, rfl⟩
    · cases h
  | ibErrMsg msg =>
    cases h
    obtain hsame | ⟨symbol, remaining, hset⟩ := processErrMsg_frame g msg
    · rw [hsame]
      exact .inl ⟨rfl, rfl⟩
    · rw [hset]
      exact .inr (setStatus_keys g symbol .error)
  | _ =>
    cases h
    exact .inl ⟨rfl, rfl⟩

theorem Counted.session {g : HistBarGetter} {s : Sequence} (h : Counted g s) {t : Session}
    {a : DownloadSession.Move} (ht : s.session.step a = some t) {ends : List Int} :
    Counted g { session := t, ends := ends } := by
  cases step_moved (g := g) ht with
  | run hr =>
    cases hr with
    | begin _ _ | send _ _ | register _ =>
      rw [Session.ran]
      split <;> exact ⟨h.symChunks, h.remaining, fun hdone => by simp at hdone⟩
    | finish hpc hrem =>
      have hnone : s.getter.symStatus.keys = [] → g.symChunks.keys = [] := fun hkeys => by
        have hzero := (h.remaining hkeys).symm.trans hrem
        exact List.length_eq_zero_iff.mp (Int.natCast_eq_zero.mp hzero)
      rw [Session.ran]
      split <;> exact ⟨h.symChunks, h.remaining, fun _ => hnone⟩
  | bar hopen => exact ⟨h.symChunks, h.remaining, h.done⟩
  | barEnd hopen => exact ⟨h.symChunks, h.remaining, h.done⟩
  | quiet ha hapi hes => exact ⟨h.symChunks, h.remaining, h.done⟩
  | @dispatch outcome e rest g' hq hg =>
    have hchunks : g'.symChunks = g.symChunks := by
      obtain ⟨_, hsame, _⟩ | ⟨_, _, _, _, hsame, _⟩ := handle_cases hg
      · exact hsame.symChunks.trans h.symChunks
      · exact hsame.symChunks.trans h.symChunks
    obtain ⟨hstatus, hrem⟩ | hentered := handle_status hg
    · refine ⟨hchunks, fun hnone => ?_, fun hpc hnone => ?_⟩
      · exact hrem.trans (h.remaining (hstatus ▸ hnone))
      · exact h.done hpc (hstatus ▸ hnone)
    · exact ⟨hchunks, fun hnone => absurd hnone hentered, fun _ hnone => absurd hnone hentered⟩

theorem counted {g : HistBarGetter} (hg : g.remaining = g.symChunks.keys.length) {s : Sequence}
    (hs : (sequence g).Reachable s) : Counted g s := by
  refine Machine.Reaches.invariant (I := Counted g) ?_ (fun s a t _ h _ ht => ?_) hs
  · exact ⟨rfl, fun _ => hg, fun hdone => by simp [DownloadSequence.sequence, session] at hdone⟩
  · cases a with
    | foreign e =>
      simp only [DownloadSequence.sequence, Sequence.step] at ht
      split at ht
      · cases ht
        exact ⟨h.symChunks, h.remaining, h.done⟩
      · cases ht
    | session a =>
      obtain ⟨u, hu, rfl⟩ := Option.map_eq_some_iff.mp ht
      exact h.session hu

theorem queued_symChunks {s : Sequence} (h : Sequenced s) (hpc : s.session.runner.pc = .loop)
    {req : IBHistBarReq} (hreq : req ∈ s.getter.q) : req.symbol ∈ s.getter.symChunks := by
  have hrow := h.row (by simp [hpc]) req.symbol
  have hmem : req ∈ (s.getter.chunks req.symbol).take (s.getter.chunkId req.symbol + 1) := by
    rw [← hrow, Sequence.queuedOf]
    exact List.mem_append_right _ (List.mem_filter.mpr ⟨hreq, by simp⟩)
  obtain ⟨cs, hcs, _⟩ := mem_chunks (List.mem_of_mem_take hmem)
  exact Table.mem_iff_lookup.mpr ⟨cs, hcs⟩

/-- A range that is not empty, and for every such range a symbol of four parts. -/
structure WellFormed (cal : Calendar) (reqs : List HistBarReq) : Prop where
  ranged : ∃ barReq ∈ reqs, NonEmpty cal barReq
  contract : ∀ barReq ∈ reqs, NonEmpty cal barReq →
    ∃ contract, generateContract barReq.symbol = .ok contract

theorem safe_of_wellFormed {cal : Calendar} {days : Int} {reqs : List HistBarReq}
    {g : HistBarGetter} (hg : HistBarGetter.init cal days reqs = .ok g)
    (hreqs : WellFormed cal reqs) {s : Sequence} (hs : (sequence g).Reachable s) : Safe s := by
  have hseq := sequenced (init_fresh hg).1 hs
  have hcounted := counted (init_fresh hg).2 hs
  have hkeyed := init_keyed hg
  refine ⟨hseq.inRange, fun hloop _ req hhead => ?_, fun hdone order horder => ?_⟩
  · have hlisted := queued_symChunks hseq hloop (List.mem_of_mem_head? hhead)
    rw [hcounted.symChunks] at hlisted
    obtain ⟨barReq, hmem, hsymbol, hrange⟩ := (mem_symChunks hkeyed).mp hlisted
    exact hsymbol ▸ hreqs.contract barReq hmem hrange
  · obtain ⟨barReq, hmem, hrange⟩ := hreqs.ranged
    have hsymbol : barReq.symbol ∈ g.symChunks :=
      (mem_symChunks hkeyed).mpr ⟨barReq, hmem, rfl, hrange⟩
    rw [logStatus_eq_ok]
    rintro rfl
    have hkeys := hcounted.done hdone (List.nil_perm.mp horder)
    exact List.ne_nil_of_mem (AList.mem_keys.mp hsymbol) hkeys

/-- Without a range `run` ends at once, and no status is entered. -/
theorem not_safe_of_empty {cal : Calendar} {days : Int} {reqs : List HistBarReq} {g : HistBarGetter}
    (hg : HistBarGetter.init cal days reqs = .ok g)
    (hnone : ∀ barReq ∈ reqs, ¬ NonEmpty cal barReq) :
    ∃ s, (sequence g).Reachable s ∧ ¬ Safe s := by
  obtain ⟨hfresh, hrem⟩ := init_fresh hg
  have hkeys : g.symChunks.keys = [] := by
    rw [List.eq_nil_iff_forall_not_mem]
    intro symbol hsymbol
    obtain ⟨barReq, hmem, _, hrange⟩ :=
      (mem_symChunks (init_keyed hg)).mp (AList.mem_keys.mpr hsymbol)
    exact hnone barReq hmem hrange
  have hzero : g.remaining = 0 := by rw [hrem, hkeys]; rfl
  have hrun : ∃ s, (sequence g).run (sequence g).init
      [.session (.run (.begin [])), .session (.run .finish)] = some s ∧
        s.session.runner.pc = .done ∧ s.getter.symStatus = ∅ := by
    simp [DownloadSequence.sequence, session, Machine.run, Sequence.step, Session.step, Runner.step,
      Session.ran, Session.request?, HistBarGetter.begin, hkeys, hzero, hfresh.status,
      Sequence.getter]
  obtain ⟨s, hs, hdone, hstatus⟩ := hrun
  refine ⟨s, Machine.reachable_of_run hs, fun hsafe => ?_⟩
  have hlog := hsafe.log hdone [] (by rw [hstatus]; exact .nil)
  exact logStatus_eq_ok.mp hlog rfl

/-- The hash map may have a symbol first whose parts are too few, and its first
chunk is then the first that `run` sends. -/
theorem not_safe_of_malformed {cal : Calendar} {days : Int} {reqs : List HistBarReq}
    {g : HistBarGetter} (hg : HistBarGetter.init cal days reqs = .ok g) {barReq : HistBarReq}
    (hmem : barReq ∈ reqs) (hrange : NonEmpty cal barReq)
    (hnone : ∀ contract, generateContract barReq.symbol ≠ .ok contract) :
    ∃ s, (sequence g).Reachable s ∧ ¬ Safe s := by
  obtain ⟨hfresh, hrem⟩ := init_fresh hg
  have hlisted : barReq.symbol ∈ g.symChunks :=
    (mem_symChunks (init_keyed hg)).mpr ⟨barReq, hmem, rfl, hrange⟩
  obtain ⟨cs, hcs⟩ := Table.mem_iff_lookup.mp hlisted
  obtain ⟨hne, hsymbols⟩ := hfresh.chunks barReq.symbol cs hcs
  obtain ⟨c, rest, rfl⟩ := List.exists_cons_of_ne_nil hne
  have hkey : barReq.symbol ∈ g.symChunks.keys := AList.mem_keys.mp hlisted
  have hpos : g.remaining ≠ 0 := by
    rw [hrem]
    exact Int.natCast_ne_zero.mpr (List.length_pos_of_mem hkey).ne'
  have hfirst : (g.chunks barReq.symbol)[0]? = some c := by simp [HistBarGetter.chunks, hcs]
  have horder : (barReq.symbol :: g.symChunks.keys.erase barReq.symbol).Perm g.symChunks.keys :=
    (List.perm_cons_erase hkey).symm
  have hrun : ∃ s, (sequence g).run (sequence g).init
      [.session (.run (.begin (barReq.symbol :: g.symChunks.keys.erase barReq.symbol)))] =
        some s ∧ s.session.runner.pc = .loop ∧ s.getter.remaining = g.remaining ∧
          s.getter.q.head? = some c := by
    simp [DownloadSequence.sequence, session, Machine.run, Sequence.step, Session.step, Runner.step,
      Session.ran, Session.request?, HistBarGetter.begin, horder, hfresh.queue, hfirst,
      Sequence.getter]
  obtain ⟨s, hs, hloop, hsame, hhead⟩ := hrun
  refine ⟨s, Machine.reachable_of_run hs, fun hsafe => ?_⟩
  obtain ⟨contract, hcontract⟩ := hsafe.contract hloop (hsame ▸ hpos) c hhead
  rw [hsymbols c List.mem_cons_self] at hcontract
  exact hnone contract hcontract

/-- All accesses are in range in every run exactly if one of the requests has a
range that is not empty, and those that have one have a well-formed symbol. -/
theorem safe_iff {cal : Calendar} {days : Int} {reqs : List HistBarReq} {g : HistBarGetter}
    (hg : HistBarGetter.init cal days reqs = .ok g) :
    (∀ s, (sequence g).Reachable s → Safe s) ↔ WellFormed cal reqs := by
  constructor
  · intro hsafe
    refine ⟨?_, fun barReq hmem hrange => ?_⟩
    · by_contra hnone
      obtain ⟨s, hs, hunsafe⟩ := not_safe_of_empty hg fun barReq hmem hrange =>
        hnone ⟨barReq, hmem, hrange⟩
      exact hunsafe (hsafe s hs)
    · by_contra hnone
      obtain ⟨s, hs, hunsafe⟩ := not_safe_of_malformed hg hmem hrange (not_exists.mp hnone)
      exact hunsafe (hsafe s hs)
  · exact fun hreqs s hs => safe_of_wellFormed hg hreqs hs

/-- The only chunk ends without a bar, and `run` returns. -/
def sonyDone : Sequence :=
  (sequence sonyGetter).stateAfter
    [.session (.run (.begin ["6758-STK-JPY.TSEJ"])), .session (.run .send),
      .session (.run .register), .session (.barEnd { id := 10000000 }), .session (.dispatch {}),
      .session (.run .finish)]
    (by decide +kernel)

theorem safe_sony : sonyDone.session.runner.pc = .done ∧ Safe sonyDone := by
  have hreqs : WellFormed january [sonyReq] := by
    refine ⟨⟨sonyReq, List.mem_singleton_self _, by decide⟩, fun barReq hmem _ => ?_⟩
    obtain rfl := List.mem_singleton.mp hmem
    exact ⟨⟨"6758", "STK", "JPY", "TSEJ"⟩, by decide +kernel⟩
  have hsafe := (safe_iff sonyGetter_init).mpr hreqs
  exact ⟨by decide +kernel, hsafe sonyDone (Machine.reachable_stateAfter _)⟩

theorem empty_vector_unsafe :
    ¬ ∀ (cal : Calendar) (days : Int) (reqs : List HistBarReq) (g : HistBarGetter),
      HistBarGetter.init cal days reqs = .ok g → ∀ s, (sequence g).Reachable s → Safe s := by
  intro hall
  obtain ⟨g, hg⟩ := init_returns january [] (by decide : (0 : Int) < 2)
  obtain ⟨s, hs, hunsafe⟩ := not_safe_of_empty hg (by simp)
  exact hunsafe (hall january 2 [] g hg s hs)

end CalmTrading.StatusLog
