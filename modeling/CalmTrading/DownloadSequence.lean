import CalmTrading.DownloadSound

namespace CalmTrading.DownloadSequence

open Lib Objects Utils Gateway HistoricalData HistoricalInit Download DownloadSession DownloadSound

/-- A download among other requests of the gateway. `ends` is history, the ids of
the ends that were processed, oldest first. -/
structure Sequence where
  session : Session
  ends : List Int := []

inductive Move
  | session (a : DownloadSession.Move)
  | foreign (e : Event)

def ending? (s : Session) : DownloadSession.Move → Option Int
  | .dispatch _ => s.eventQueue.head?.bind endId?
  | _ => none

namespace Sequence

def getter (s : Sequence) : HistBarGetter := s.session.runner.getter

/-- The broker replies to requests of others too. -/
def step (s : Sequence) : Move → Option Sequence
  | .session a =>
    (s.session.step a).map fun t =>
      { session := t
        ends :=
          s.ends ++ ((ending? s.session a).filter fun id => id ∈ s.getter.reqIdSym).toList }
  | .foreign e =>
    if ∀ id ∈ reply? e, id < s.session.runner.api.mReqId ∧ id ∉ s.session.sent then
      some { s with session := { s.session with eventQueue := s.session.eventQueue ++ [e] } }
    else none

def sendsOf (s : Sequence) (symbol : String) : List (Int × IBHistBarReq) :=
  s.session.sends.filter fun p => p.2.symbol = symbol

def endsOf (s : Sequence) (symbol : String) : List Int :=
  s.ends.filter fun id => s.session.sent.lookup id = some symbol

def queuedOf (s : Sequence) (symbol : String) : List IBHistBarReq :=
  s.getter.q.filter fun c => c.symbol = symbol

def saves (s : Sequence) : List String := s.getter.saves.map Save.symbol

end Sequence

def sequence (g : HistBarGetter) : Machine Sequence Move where
  init := { session := (session g).init }
  step := Sequence.step

/-- What is sent and queued for a symbol are its first chunks, one more than the
requests that have ended, and those ended in the order they were sent. -/
structure InSequence (s : Sequence) (symbol : String) : Prop where
  chunks : (s.sendsOf symbol).map Prod.snd ++ s.queuedOf symbol <+: s.getter.chunks symbol
  queued : (s.sendsOf symbol).length + (s.queuedOf symbol).length ≤ (s.endsOf symbol).length + 1
  ends : s.endsOf symbol <+: (s.sendsOf symbol).map Prod.fst
  chunkId : s.getter.chunkId symbol = (s.endsOf symbol).length
  bounded : s.getter.chunkId symbol ≤ (s.getter.chunks symbol).length
  once : s.saves.count symbol ≤ 1
  saved : symbol ∈ s.saves → (s.endsOf symbol).length = (s.getter.chunks symbol).length

/-- No access to a chunk list is out of range, neither at the start of `run` nor
when an end is handled. -/
structure InRange (s : Sequence) : Prop where
  first : ∀ symbol ∈ s.getter.symChunks, ((s.getter.chunks symbol)[0]?).isSome
  next : ∀ (barEnd : HistBarEnd) (outcome : Outcome),
    s.session.eventQueue.head? = some (.histBarEnd barEnd) →
      ∃ g, s.getter.processHistBarEnd barEnd outcome = .ok g

structure Sequenced (s : Sequence) : Prop where
  chunks : ∀ symbol cs, s.getter.symChunks.lookup symbol = some cs →
    cs ≠ [] ∧ ∀ c ∈ cs, c.symbol = symbol
  idle : s.session.runner.pc = .idle →
    s.session.sends = [] ∧ s.getter.q = [] ∧ ∀ symbol, s.getter.chunkId symbol = 0
  row : s.session.runner.pc ≠ .idle → ∀ symbol,
    (s.sendsOf symbol).map Prod.snd ++ s.queuedOf symbol =
      (s.getter.chunks symbol).take (s.getter.chunkId symbol + 1)
  ended : ∀ symbol,
    s.endsOf symbol = ((s.sendsOf symbol).map Prod.fst).take (s.getter.chunkId symbol)
  count : ∀ symbol, s.getter.chunkId symbol ≤ (s.sendsOf symbol).length
  pending : ∀ id ∈ outstanding s.session, ∀ symbol, s.session.sent.lookup id = some symbol →
    ((s.sendsOf symbol).map Prod.fst).drop (s.getter.chunkId symbol) = [id]
  distinct : ∀ id ∈ s.session.sent, (outstanding s.session).count id ≤ 1
  drawn : ∀ id, id ∈ outstanding s.session ∨ id ∈ s.session.sent →
    id < s.session.runner.api.mReqId
  known : ∀ id ∈ s.ends, id ∈ s.session.sent
  registered : ∀ id symbol, s.getter.reqIdSym.lookup id = some symbol →
    s.session.sent.lookup id = some symbol
  awaited : ∀ id symbol, s.session.runner.pc = .sent id symbol →
    s.session.sent.lookup id = some symbol
  saves : s.saves.Nodup ∧
    ∀ symbol ∈ s.saves, s.getter.chunkId symbol = (s.getter.chunks symbol).length

theorem ending?_eq_none {s : Session} {a : DownloadSession.Move}
    (h : ∀ outcome, a ≠ .dispatch outcome) : ending? s a = none := by
  cases a with
  | dispatch outcome => exact absurd rfl (h outcome)
  | _ => rfl

/-- Handling an event advances the symbol of a known request that it ends, and
leaves the requests alone otherwise. -/
theorem handle_cases {g g' : HistBarGetter} {outcome : Outcome} {e : Event}
    (h : Session.handle g outcome e = some g') :
    (∀ id ∈ endId? e, g.reqIdSym.lookup id = none) ∧ SameRequests g g' ∧ g'.saves = g.saves ∨
      ∃ id symbol, endId? e = some id ∧ g.reqIdSym.lookup id = some symbol ∧
        SameRequests (advanced g symbol) g' ∧
        (g'.saves = g.saves ∨ g'.saves.map Save.symbol = g.saves.map Save.symbol ++ [symbol] ∧
          g.chunkId symbol + 1 = (g.chunks symbol).length) := by
  cases e with
  | histBar bar =>
    cases h
    obtain ⟨symData, hbar⟩ := processHistBar_frame g bar
    rw [hbar]
    exact .inl ⟨by simp [endId?], ⟨rfl, rfl, rfl, rfl⟩, rfl⟩
  | histBarEnd barEnd =>
    simp only [Session.handle] at h
    split at h
    · obtain ⟨hid, rfl⟩ | ⟨symbol, hid, hsame, hsaves⟩ :=
        ended_advanced (processHistBarEnd_ended (toOption_eq_some.mp h))
      · exact .inl ⟨by simpa [endId?] using hid, ⟨rfl, rfl, rfl, rfl⟩, rfl⟩
      · exact .inr ⟨barEnd.id, symbol, rfl, hid, hsame, hsaves⟩
    · cases h
  | ibErrMsg msg =>
    cases h
    exact .inl ⟨by simp [endId?], processErrMsg_sameRequests g msg, processErrMsg_saves g msg⟩
  | _ =>
    cases h
    exact .inl ⟨by simp [endId?], ⟨rfl, rfl, rfl, rfl⟩, rfl⟩

/-- What sending a chunk changes. -/
structure Sending (s : Sequence) (req : IBHistBarReq) (rest : List IBHistBarReq) (t : Sequence) :
    Prop where
  loop : s.session.runner.pc = .loop
  queue : s.getter.q = req :: rest
  pc : t.session.runner.pc = .sent s.session.runner.api.mReqId req.symbol
  getter : t.getter = { s.getter with q := rest }
  api : t.session.runner.api.mReqId = s.session.runner.api.mReqId + 1
  sent : t.session.sent = s.session.sent.insert s.session.runner.api.mReqId req.symbol
  perm : (outstanding t.session).Perm (s.session.runner.api.mReqId :: outstanding s.session)
  sends : t.session.sends = s.session.sends ++ [(s.session.runner.api.mReqId, req)]
  ends : t.ends = s.ends

namespace Sending

variable {s t : Sequence} {req : IBHistBarReq} {rest : List IBHistBarReq}

theorem begun (h : Sending s req rest t) : s.session.runner.pc ≠ .idle := by simp [h.loop]

theorem chunks (h : Sending s req rest t) (symbol : String) :
    t.getter.chunks symbol = s.getter.chunks symbol := by
  rw [h.getter]
  rfl

theorem chunkId (h : Sending s req rest t) (symbol : String) :
    t.getter.chunkId symbol = s.getter.chunkId symbol := by
  rw [h.getter]
  rfl

theorem saves (h : Sending s req rest t) : t.saves = s.saves := by
  rw [Sequence.saves, h.getter]
  rfl

theorem sendsOf (h : Sending s req rest t) (symbol : String) :
    t.sendsOf symbol = s.sendsOf symbol ++
      if req.symbol = symbol then [(s.session.runner.api.mReqId, req)] else [] := by
  rw [Sequence.sendsOf, h.sends, List.filter_append, Sequence.sendsOf]
  by_cases hs : req.symbol = symbol <;> simp [hs]

theorem queuedOf (h : Sending s req rest t) (symbol : String) :
    s.queuedOf symbol = (if req.symbol = symbol then [req] else []) ++ t.queuedOf symbol := by
  rw [Sequence.queuedOf, h.queue, Sequence.queuedOf, h.getter]
  by_cases hs : req.symbol = symbol <;> simp [hs]

theorem lookup_sent (h : Sending s req rest t) {id : Int}
    (hid : id < s.session.runner.api.mReqId) :
    t.session.sent.lookup id = s.session.sent.lookup id := by
  rw [h.sent, AList.lookup_insert_ne (Int.ne_of_lt hid)]

theorem mem_outstanding (h : Sending s req rest t) {id : Int} :
    id ∈ outstanding t.session ↔
      id = s.session.runner.api.mReqId ∨ id ∈ outstanding s.session := by
  rw [h.perm.mem_iff, List.mem_cons]

theorem mem_sent (h : Sending s req rest t) {id : Int} :
    id ∈ t.session.sent ↔ id = s.session.runner.api.mReqId ∨ id ∈ s.session.sent := by
  rw [h.sent, AList.mem_insert]

end Sending

/-- What handling the end of a known request changes: it is counted for its symbol,
and the next chunk of the symbol is queued. -/
structure Ending (s : Sequence) (id : Int) (symbol : String) (t : Sequence) : Prop where
  known : s.session.sent.lookup id = some symbol
  perm : (outstanding s.session).Perm (id :: outstanding t.session)
  getter : SameRequests (advanced s.getter symbol) t.getter
  pc : t.session.runner.pc = s.session.runner.pc
  api : t.session.runner.api.mReqId = s.session.runner.api.mReqId
  sent : t.session.sent = s.session.sent
  sends : t.session.sends = s.session.sends
  ends : t.ends = s.ends ++ [id]
  saves : t.saves = s.saves ∨ t.saves = s.saves ++ [symbol] ∧
    s.getter.chunkId symbol + 1 = (s.getter.chunks symbol).length

namespace Ending

variable {s t : Sequence} {id : Int} {symbol : String}

theorem mem (h : Ending s id symbol t) : id ∈ outstanding s.session :=
  h.perm.mem_iff.mpr List.mem_cons_self

theorem mem_of_mem (h : Ending s id symbol t) {i : Int}
    (hi : i ∈ outstanding t.session) : i ∈ outstanding s.session :=
  h.perm.mem_iff.mpr (List.mem_cons_of_mem _ hi)

theorem chunks (h : Ending s id symbol t) (s' : String) :
    t.getter.chunks s' = s.getter.chunks s' :=
  h.getter.chunks s'

theorem chunkId (h : Ending s id symbol t) (s' : String) :
    t.getter.chunkId s' =
      if s' = symbol then s.getter.chunkId symbol + 1 else s.getter.chunkId s' :=
  (h.getter.chunkId s').trans (advanced_chunkId _ _ _)

theorem sendsOf (h : Ending s id symbol t) (s' : String) : t.sendsOf s' = s.sendsOf s' := by
  rw [Sequence.sendsOf, h.sends, Sequence.sendsOf]

theorem endsOf (h : Ending s id symbol t) (s' : String) :
    t.endsOf s' = s.endsOf s' ++ if s' = symbol then [id] else [] := by
  rw [Sequence.endsOf, h.ends, h.sent, List.filter_append, Sequence.endsOf]
  by_cases hs : s' = symbol
  · simp [h.known, hs]
  · simp [h.known, hs, Ne.symm hs]

end Ending

namespace Sequenced

variable {s : Sequence}

theorem length_row (h : Sequenced s) (hpc : s.session.runner.pc ≠ .idle) (symbol : String) :
    (s.sendsOf symbol).length + (s.queuedOf symbol).length =
      min (s.getter.chunkId symbol + 1) (s.getter.chunks symbol).length := by
  simpa using congrArg List.length (h.row hpc symbol)

theorem alone (h : Sequenced s) {id : Int} {symbol : String} (hid : id ∈ outstanding s.session)
    (hsym : s.session.sent.lookup id = some symbol) :
    s.session.runner.pc ≠ .idle ∧
      (s.sendsOf symbol).length = s.getter.chunkId symbol + 1 ∧ s.queuedOf symbol = [] ∧
      s.getter.chunkId symbol + 1 ≤ (s.getter.chunks symbol).length := by
  have hdrop := h.pending id hid symbol hsym
  have hpc : s.session.runner.pc ≠ .idle := by
    intro hidle
    simp [Sequence.sendsOf, (h.idle hidle).1] at hdrop
  have hrow := h.length_row hpc symbol
  have hlength := congrArg List.length hdrop
  simp only [List.length_drop, List.length_map, List.length_singleton] at hlength
  refine ⟨hpc, by omega, List.eq_nil_of_length_eq_zero (by omega), by omega⟩

theorem bounded (h : Sequenced s) (symbol : String) :
    s.getter.chunkId symbol ≤ (s.getter.chunks symbol).length := by
  by_cases hpc : s.session.runner.pc = .idle
  · simp [(h.idle hpc).2.2 symbol]
  · have hrow := h.length_row hpc symbol
    have hcount := h.count symbol
    omega

theorem chunk_symbol (h : Sequenced s) {symbol : String} {c : IBHistBarReq}
    (hc : c ∈ s.getter.chunks symbol) : c.symbol = symbol := by
  obtain ⟨cs, hcs, hmem⟩ := mem_chunks hc
  exact (h.chunks symbol cs hcs).2 c hmem

/-- A step that leaves the requests of the getter alone, and adds no end of one. -/
theorem frame (h : Sequenced s) {t : Sequence} (hg : SameRequests s.getter t.getter)
    (hpc : t.session.runner.pc = s.session.runner.pc)
    (hsent : t.session.sent = s.session.sent)
    (hhist : t.session.sends = s.session.sends ∧ t.ends = s.ends ∧ t.saves = s.saves)
    (hapi : s.session.runner.api.mReqId ≤ t.session.runner.api.mReqId)
    (hdrawn : ∀ id ∈ outstanding t.session, id < t.session.runner.api.mReqId)
    (hout : ∀ id ∈ s.session.sent,
      (outstanding t.session).count id ≤ (outstanding s.session).count id) : Sequenced t := by
  obtain ⟨hsends, hends, hsaves⟩ := hhist
  have hsendsOf : ∀ symbol, t.sendsOf symbol = s.sendsOf symbol := fun symbol => by
    rw [Sequence.sendsOf, hsends, Sequence.sendsOf]
  have hendsOf : ∀ symbol, t.endsOf symbol = s.endsOf symbol := fun symbol => by
    rw [Sequence.endsOf, hends, hsent, Sequence.endsOf]
  have hqueuedOf : ∀ symbol, t.queuedOf symbol = s.queuedOf symbol := fun symbol => by
    rw [Sequence.queuedOf, hg.q, Sequence.queuedOf]
  refine
    { chunks := ?_
      idle := ?_
      row := ?_
      ended := ?_
      count := ?_
      pending := ?_
      distinct := ?_
      drawn := ?_
      known := ?_
      registered := ?_
      awaited := ?_
      saves := ?_ }
  · rw [hg.symChunks]
    exact h.chunks
  · intro hidle
    rw [hsends, hg.q]
    obtain ⟨hnil, hq, hzero⟩ := h.idle (hpc ▸ hidle)
    exact ⟨hnil, hq, fun symbol => (hg.chunkId symbol).trans (hzero symbol)⟩
  · intro hne symbol
    rw [hsendsOf, hqueuedOf, hg.chunks, hg.chunkId]
    exact h.row (hpc ▸ hne) symbol
  · intro symbol
    rw [hendsOf, hsendsOf, hg.chunkId]
    exact h.ended symbol
  · intro symbol
    rw [hsendsOf, hg.chunkId]
    exact h.count symbol
  · intro id hid symbol hsym
    rw [hsent] at hsym
    rw [hsendsOf, hg.chunkId]
    apply h.pending id _ symbol hsym
    have hle := hout id (Table.mem_iff_lookup.mpr ⟨symbol, hsym⟩)
    exact List.count_pos_iff.mp ((List.count_pos_iff.mpr hid).trans_le hle)
  · intro id hid
    rw [hsent] at hid
    exact (hout id hid).trans (h.distinct id hid)
  · rintro id (hid | hid)
    · exact hdrawn id hid
    · exact Int.lt_of_lt_of_le (h.drawn id (.inr (hsent ▸ hid))) hapi
  · rw [hends, hsent]
    exact h.known
  · rw [hg.reqIdSym, hsent]
    exact h.registered
  · rw [hpc, hsent]
    exact h.awaited
  · rw [hsaves]
    refine ⟨h.saves.1, fun symbol hsymbol => ?_⟩
    rw [hg.chunkId, hg.chunks]
    exact h.saves.2 symbol hsymbol

/-- The first chunk of a listed symbol is queued once. -/
theorem first_chunks (h : Sequenced s) {order : List String}
    (horder : order.Perm s.getter.symChunks.keys) (symbol : String) :
    ((order.filterMap fun s' => (s.getter.chunks s')[0]?).filter fun c => c.symbol = symbol) =
      (s.getter.chunks symbol).take 1 := by
  have hown : ((order.filterMap fun s' => (s.getter.chunks s')[0]?).filter fun c =>
      c.symbol = symbol) =
        (order.filter fun s' => s' = symbol).filterMap fun s' => (s.getter.chunks s')[0]? := by
    rw [List.filter_filterMap, List.filterMap_filter]
    apply List.filterMap_congr
    intro s' _
    cases hfirst : (s.getter.chunks s')[0]? with
    | none => simp
    | some c =>
      have hc := h.chunk_symbol (List.mem_of_getElem? hfirst)
      by_cases hs : s' = symbol <;> simp [Option.filter, hc, hs]
  rw [hown, List.filter_eq, (horder.nodup_iff.mpr s.getter.symChunks.keys_nodup).count]
  split
  · cases hcs : s.getter.chunks symbol <;> simp [hcs]
  · next hmem =>
    have hnone : symbol ∉ s.getter.symChunks := fun hin =>
      hmem (horder.mem_iff.mpr (AList.mem_keys.mp hin))
    simp [HistBarGetter.chunks, AList.lookup_eq_none.mpr hnone]

theorem begin (h : Sequenced s) {order : List String} (hpc : s.session.runner.pc = .idle)
    (horder : order.Perm s.getter.symChunks.keys) :
    Sequenced
      { s with
        session :=
          { s.session with
            runner :=
              { s.session.runner with getter := s.getter.begin order, pc := .loop } } } := by
  obtain ⟨hnil, hq, hzero⟩ := h.idle hpc
  refine { h with idle := by simp, row := ?_, awaited := by simp }
  intro _ symbol
  change (s.sendsOf symbol).map Prod.snd ++
      (s.getter.q ++ order.filterMap fun s' => (s.getter.chunks s')[0]?).filter
        (fun c => c.symbol = symbol) =
    (s.getter.chunks symbol).take (s.getter.chunkId symbol + 1)
  rw [hq, List.nil_append, h.first_chunks horder, hzero, Sequence.sendsOf, hnil]
  rfl

theorem length_sendsOf (h : Sequenced s) {t : Sequence} {req : IBHistBarReq}
    {rest : List IBHistBarReq} (ht : Sending s req rest t) :
    (s.sendsOf req.symbol).length = s.getter.chunkId req.symbol := by
  have hrow := h.length_row ht.begun req.symbol
  have hcount := h.count req.symbol
  simp only [ht.queuedOf, if_true, List.length_append, List.length_singleton] at hrow
  omega

theorem endsOf_send (h : Sequenced s) {t : Sequence} {req : IBHistBarReq}
    {rest : List IBHistBarReq} (ht : Sending s req rest t) (symbol : String) :
    t.endsOf symbol = s.endsOf symbol := by
  rw [Sequence.endsOf, ht.ends, Sequence.endsOf]
  exact List.filter_congr fun id hid => by
    rw [ht.lookup_sent (h.drawn id (.inr (h.known id hid)))]

/-- No other request for the symbol of the chunk is outstanding. -/
theorem pending_send (h : Sequenced s) {t : Sequence} {req : IBHistBarReq}
    {rest : List IBHistBarReq} (ht : Sending s req rest t) {id : Int}
    (hid : id ∈ outstanding t.session) {symbol : String}
    (hsym : t.session.sent.lookup id = some symbol) :
    ((t.sendsOf symbol).map Prod.fst).drop (t.getter.chunkId symbol) = [id] := by
  rw [ht.sendsOf, ht.chunkId]
  obtain rfl | hid := ht.mem_outstanding.mp hid
  · rw [ht.sent, AList.lookup_insert, Option.some.injEq] at hsym
    subst hsym
    rw [if_pos rfl, List.map_append, ← h.length_sendsOf ht, ← List.length_map Prod.fst,
      List.drop_left]
    rfl
  · rw [ht.lookup_sent (h.drawn id (.inl hid))] at hsym
    have hne : req.symbol ≠ symbol := by
      intro hs
      have hqueued := (h.alone hid hsym).2.2.1
      rw [ht.queuedOf, if_pos hs] at hqueued
      simp at hqueued
    rw [if_neg hne, List.append_nil]
    exact h.pending id hid symbol hsym

theorem send (h : Sequenced s) {t : Sequence} {req : IBHistBarReq} {rest : List IBHistBarReq}
    (ht : Sending s req rest t) : Sequenced t := by
  refine
    { chunks := ?_
      idle := by simp [ht.pc]
      row := ?_
      ended := ?_
      count := ?_
      pending := fun id hid symbol hsym => h.pending_send ht hid hsym
      distinct := ?_
      drawn := ?_
      known := ?_
      registered := ?_
      awaited := ?_
      saves := ?_ }
  · rw [ht.getter]
    exact h.chunks
  · intro _ symbol
    have hrow := h.row ht.begun symbol
    rw [ht.queuedOf] at hrow
    rw [ht.sendsOf, ht.chunks, ht.chunkId, ← hrow, List.map_append, List.append_assoc]
    by_cases hs : req.symbol = symbol <;> simp [hs]
  · intro symbol
    rw [h.endsOf_send ht, ht.sendsOf, ht.chunkId, h.ended symbol, List.map_append,
      List.take_append_of_le_length]
    simpa using h.count symbol
  · intro symbol
    rw [ht.sendsOf, ht.chunkId, List.length_append]
    exact Nat.le_add_right_of_le (h.count symbol)
  · intro id hid
    rw [ht.perm.count_eq, List.count_cons]
    obtain rfl | hid := ht.mem_sent.mp hid
    · have hnone : s.session.runner.api.mReqId ∉ outstanding s.session := fun hin =>
        Int.lt_irrefl _ (h.drawn _ (.inl hin))
      simp [List.count_eq_zero_of_not_mem hnone]
    · have hne := Int.ne_of_lt (h.drawn id (.inr hid))
      simpa [Ne.symm hne] using h.distinct id hid
  · intro id hid
    rw [ht.api]
    rw [ht.mem_outstanding, ht.mem_sent] at hid
    obtain (rfl | hid) | (rfl | hid) := hid
    · exact Int.lt_succ _
    · exact Int.lt_trans (h.drawn id (.inl hid)) (Int.lt_succ _)
    · exact Int.lt_succ _
    · exact Int.lt_trans (h.drawn id (.inr hid)) (Int.lt_succ _)
  · intro id hid
    rw [ht.ends] at hid
    exact ht.mem_sent.mpr (.inr (h.known id hid))
  · intro id symbol hid
    rw [ht.getter] at hid
    have hsym := h.registered id symbol hid
    rwa [ht.lookup_sent (h.drawn id (.inr (Table.mem_iff_lookup.mpr ⟨symbol, hsym⟩)))]
  · intro id symbol hawaited
    rw [ht.pc, Pc.sent.injEq] at hawaited
    obtain ⟨rfl, rfl⟩ := hawaited
    rw [ht.sent, AList.lookup_insert]
  · rw [ht.saves]
    refine ⟨h.saves.1, fun symbol hsymbol => ?_⟩
    rw [ht.chunkId, ht.chunks]
    exact h.saves.2 symbol hsymbol

theorem register (h : Sequenced s) {reqId : Int} {symbol : String}
    (hpc : s.session.runner.pc = .sent reqId symbol) :
    Sequenced
      { s with
        session :=
          { s.session with
            runner :=
              { s.session.runner with
                getter := s.getter.register reqId symbol
                pc := .loop } } } := by
  have hbegun : s.session.runner.pc ≠ .idle := by simp [hpc]
  refine
    { h with
      idle := by simp
      row := fun _ => h.row hbegun
      registered := ?_
      awaited := by simp }
  intro id symbol' hid
  simp only [Sequence.getter, HistBarGetter.register, Table.lookup_insert_ite] at hid
  split at hid
  · next he =>
    cases hid
    exact he ▸ h.awaited reqId symbol hpc
  · exact h.registered id symbol' hid

theorem finish (h : Sequenced s) (hpc : s.session.runner.pc = .loop) :
    Sequenced
      { s with
        session := { s.session with runner := { s.session.runner with pc := .done } } } := by
  have hbegun : s.session.runner.pc ≠ .idle := by simp [hpc]
  exact { h with idle := by simp, row := fun _ => h.row hbegun, awaited := by simp }

theorem queuedOf_advance (h : Sequenced s) {t : Sequence} {id : Int} {symbol : String}
    (ht : Ending s id symbol t) (s' : String) :
    t.queuedOf s' =
      s.queuedOf s' ++ if s' = symbol then (nextChunk? s.getter symbol).toList else [] := by
  rw [Sequence.queuedOf, ht.getter.q, advanced, List.filter_append, Sequence.queuedOf]
  congr 1
  cases hnext : nextChunk? s.getter symbol with
  | none => simp
  | some c =>
    have hc := h.chunk_symbol (List.mem_of_getElem? hnext)
    by_cases hs : s' = symbol
    · simp [hc, hs]
    · simp [hc, hs, Ne.symm hs]

theorem notMem_outstanding (h : Sequenced s) {t : Sequence} {id : Int} {symbol : String}
    (ht : Ending s id symbol t) : id ∉ outstanding t.session := by
  have hone := h.distinct id (Table.mem_iff_lookup.mpr ⟨symbol, ht.known⟩)
  rw [ht.perm.count_eq, List.count_cons_self] at hone
  exact List.count_eq_zero.mp (by omega)

/-- The last end of a symbol is the only one that it is saved at. -/
theorem saves_advance (h : Sequenced s) {t : Sequence} {id : Int} {symbol : String}
    (ht : Ending s id symbol t) : t.saves.Nodup ∧
      ∀ s' ∈ t.saves, t.getter.chunkId s' = (t.getter.chunks s').length := by
  have hmore := (h.alone ht.mem ht.known).2.2.2
  have hunsaved : symbol ∉ s.saves := fun hsaved => by
    have hall := h.saves.2 symbol hsaved
    omega
  have hothers : ∀ s' ∈ s.saves, t.getter.chunkId s' = (t.getter.chunks s').length := by
    intro s' hs'
    have hne : s' ≠ symbol := fun he => hunsaved (he ▸ hs')
    rw [ht.chunkId, ht.chunks, if_neg hne]
    exact h.saves.2 s' hs'
  obtain hsame | ⟨hsaved, hlast⟩ := ht.saves
  · rw [hsame]
    exact ⟨h.saves.1, hothers⟩
  · rw [hsaved]
    refine ⟨?_, fun s' hs' => ?_⟩
    · rw [List.nodup_append]
      refine ⟨h.saves.1, List.nodup_singleton _, fun a ha b hb hab => ?_⟩
      rw [List.mem_singleton.mp hb] at hab
      exact hunsaved (hab ▸ ha)
    · obtain hs' | hs' := List.mem_append.mp hs'
      · exact hothers s' hs'
      · rw [List.mem_singleton.mp hs', ht.chunkId, ht.chunks, if_pos rfl]
        exact hlast

theorem advance (h : Sequenced s) {t : Sequence} {id : Int} {symbol : String}
    (ht : Ending s id symbol t) : Sequenced t := by
  obtain ⟨hbegun, hlength, hqueued, _⟩ := h.alone ht.mem ht.known
  have hdrop := h.pending id ht.mem symbol ht.known
  refine
    { chunks := ?_
      idle := fun hidle => absurd (ht.pc.symm.trans hidle) hbegun
      row := ?_
      ended := ?_
      count := ?_
      pending := ?_
      distinct := ?_
      drawn := ?_
      known := ?_
      registered := ?_
      awaited := ?_
      saves := h.saves_advance ht }
  · rw [ht.getter.symChunks]
    exact h.chunks
  · intro _ s'
    have hrow := h.row hbegun s'
    rw [ht.sendsOf, h.queuedOf_advance ht, ht.chunks, ht.chunkId]
    by_cases hs : s' = symbol
    · subst hs
      rw [hqueued, List.append_nil] at hrow
      rw [if_pos rfl, if_pos rfl, hqueued, List.nil_append, hrow, nextChunk?, ← List.take_add_one]
    · rw [if_neg hs, if_neg hs, List.append_nil]
      exact hrow
  · intro s'
    rw [ht.endsOf, ht.sendsOf, ht.chunkId, h.ended s']
    by_cases hs : s' = symbol
    · subst hs
      rw [if_pos rfl, if_pos rfl, ← hdrop, List.take_append_drop, ← hlength,
        ← List.length_map Prod.fst, List.take_length]
    · rw [if_neg hs, if_neg hs, List.append_nil]
  · intro s'
    rw [ht.sendsOf, ht.chunkId]
    split
    · next hs => rw [hs, hlength]
    · exact h.count s'
  · intro i hi s' hs'
    rw [ht.sent] at hs'
    have hpending := h.pending i (ht.mem_of_mem hi) s' hs'
    have hne : s' ≠ symbol := by
      rintro rfl
      rw [hdrop, List.cons.injEq] at hpending
      exact h.notMem_outstanding ht (hpending.1 ▸ hi)
    rw [ht.sendsOf, ht.chunkId, if_neg hne]
    exact hpending
  · intro i hi
    rw [ht.sent] at hi
    have hone := h.distinct i hi
    rw [ht.perm.count_eq] at hone
    exact List.count_le_count_cons.trans hone
  · rintro i (hi | hi)
    · exact ht.api ▸ h.drawn i (.inl (ht.mem_of_mem hi))
    · exact ht.api ▸ h.drawn i (.inr (ht.sent ▸ hi))
  · intro i hi
    rw [ht.ends] at hi
    rw [ht.sent]
    obtain hi | hi := List.mem_append.mp hi
    · exact h.known i hi
    · rw [List.mem_singleton.mp hi]
      exact Table.mem_iff_lookup.mpr ⟨symbol, ht.known⟩
  · rw [ht.getter.reqIdSym, ht.sent]
    exact h.registered
  · rw [ht.pc, ht.sent]
    exact h.awaited

theorem run (h : Sequenced s) {r : Runner} {client : List ClientMsg}
    (hr : Ran s.session.runner r client) :
    Sequenced { s with session := s.session.ran r client } := by
  cases hr with
  | begin hpc horder => exact h.begin hpc horder
  | @send req rest _ hpc hq =>
    refine h.send ⟨hpc, hq, ?_, ?_, ?_, ?_, ?_, ?_, ?_⟩ <;>
      simp [Session.ran, Session.request?, hq, outstanding, Sequence.getter]
  | register hpc => exact h.register hpc
  | finish hpc _ => exact h.finish hpc

/-- Handling the event at the head of the queue. -/
theorem dispatch (h : Sequenced s) {e : Event} {rest : List Event} {outcome : Outcome}
    {g : HistBarGetter} (hq : s.session.eventQueue = e :: rest)
    (hg : Session.handle s.getter outcome e = some g) {dropped : List Int} :
    Sequenced
      { session :=
          { s.session with
            runner := { s.session.runner with getter := g }
            eventQueue := rest
            dropped := dropped }
        ends := s.ends ++ ((endId? e).filter fun id => id ∈ s.getter.reqIdSym).toList } := by
  have hout : (outstanding s.session).Perm
      ((endId? e).toList ++ (s.session.opened ++ rest.filterMap endId?)) := by
    rw [outstanding, hq]
    cases hend : endId? e with
    | none => simp [hend]
    | some id => simp [hend]
  obtain ⟨hunknown, hsame, hsaves⟩ | ⟨id, symbol, hend, hid, hsame, hsaves⟩ := handle_cases hg
  · have hends : ((endId? e).filter fun id => id ∈ s.getter.reqIdSym) = none := by
      cases hend : endId? e with
      | none => rfl
      | some id => simp [AList.lookup_eq_none.mp (hunknown id hend)]
    rw [hends]
    refine h.frame hsame rfl rfl ⟨rfl, List.append_nil _, ?_⟩ (Int.le_refl _) ?_ ?_
    · exact congrArg (List.map Save.symbol) hsaves
    · intro id hid
      exact h.drawn id (.inl (hout.mem_iff.mpr (List.mem_append_right _ hid)))
    · intro id _
      rw [hout.count_eq, List.count_append]
      exact Nat.le_add_left _ _
  · have hmem : id ∈ s.getter.reqIdSym := Table.mem_iff_lookup.mpr ⟨symbol, hid⟩
    rw [hend, Option.toList_some, List.singleton_append] at hout
    refine h.advance ⟨h.registered id symbol hid, hout, hsame, rfl, rfl, rfl, rfl, ?_, ?_⟩
    · simp [hend, hmem]
    · exact hsaves.imp_left (congrArg (List.map Save.symbol))

theorem step {g : HistBarGetter} {t : Sequence} {a : Move} (h : Sequenced s)
    (ht : (sequence g).step s a = some t) : Sequenced t := by
  cases a with
  | foreign e =>
    simp only [DownloadSequence.sequence, Sequence.step] at ht
    split at ht
    · next hforeign =>
      cases ht
      have hids : ∀ id ∈ endId? e, id < s.session.runner.api.mReqId ∧ id ∉ s.session.sent :=
        fun id hid => hforeign id (reply?_of_endId? hid)
      refine h.frame ⟨rfl, rfl, rfl, rfl⟩ rfl rfl ⟨rfl, rfl, rfl⟩ (Int.le_refl _) ?_ ?_
      · intro id hid
        simp only [outstanding, List.filterMap_append, List.mem_append] at hid
        obtain hid | hid | hid := hid
        · exact h.drawn id (.inl (List.mem_append_left _ hid))
        · exact h.drawn id (.inl (List.mem_append_right _ hid))
        · obtain ⟨f, hf, hend⟩ := List.mem_filterMap.mp hid
          exact (hids id (List.mem_singleton.mp hf ▸ hend)).1
      · intro id hid
        cases hend : endId? e with
        | none => simp [outstanding, hend]
        | some id' =>
          have hne : id' ≠ id := fun he => (hids id' hend).2 (he ▸ hid)
          simp [outstanding, hend, hne]
    · cases ht
  | session a =>
    obtain ⟨u, hu, rfl⟩ := Option.map_eq_some_iff.mp ht
    cases step_moved (g := g) hu with
    | run hr => simpa [ending?] using h.run hr
    | @bar bar hopen =>
      have hnone : [Event.histBar bar].filterMap endId? = [] := rfl
      refine h.frame ⟨rfl, rfl, rfl, rfl⟩ rfl rfl ⟨rfl, by simp [ending?], rfl⟩ (Int.le_refl _) ?_ ?_
      · intro id hid
        apply h.drawn
        simpa [outstanding, hnone] using Or.inl hid
      · simp [outstanding, hnone]
    | @barEnd barEnd hopen =>
      have hout : (s.session.opened.erase barEnd.id ++
          (s.session.eventQueue ++ [Event.histBarEnd barEnd]).filterMap endId?).Perm
            (outstanding s.session) := by
        rw [List.filterMap_append, ← List.append_assoc]
        refine List.perm_append_comm.trans ?_
        exact ((List.perm_cons_erase hopen).symm.append_right _)
      refine h.frame ⟨rfl, rfl, rfl, rfl⟩ rfl rfl ⟨rfl, by simp [ending?], rfl⟩ (Int.le_refl _) ?_ ?_
      · exact fun id hid => h.drawn id (.inl (hout.mem_iff.mp hid))
      · exact fun id _ => (hout.count_eq id).le
    | @quiet _ api es ha hapi hes =>
      have hends : es.filterMap endId? = [] :=
        List.filterMap_eq_nil_iff.mpr fun e he => endId?_eq_none (hes e he)
      refine h.frame ⟨rfl, rfl, rfl, rfl⟩ rfl rfl ⟨rfl, by simp [ending?_eq_none ha], rfl⟩ hapi ?_ ?_
      · intro id hid
        simp only [outstanding, List.filterMap_append, hends, List.append_nil] at hid
        exact Int.lt_of_lt_of_le (h.drawn id (.inl hid)) hapi
      · simp [outstanding, hends]
    | @dispatch outcome e rest g' hq hg =>
      simpa [ending?, hq] using h.dispatch hq hg

end Sequenced

theorem sequenced {g : HistBarGetter} (hg : Fresh g) {s : Sequence}
    (hs : (sequence g).Reachable s) : Sequenced s := by
  refine Machine.Reaches.invariant (I := Sequenced) ?_ (fun _ _ _ _ h _ ht => h.step ht) hs
  refine
    { chunks := hg.chunks
      idle := fun _ => ⟨rfl, hg.queue, hg.chunkId⟩
      row := fun hpc => absurd rfl hpc
      ended := ?_
      count := fun symbol => (hg.chunkId symbol).le
      pending := ?_
      distinct := ?_
      drawn := ?_
      known := ?_
      registered := ?_
      awaited := ?_
      saves := ?_ }
  all_goals
    simp [DownloadSequence.sequence, session, outstanding, Sequence.endsOf, Sequence.sendsOf,
      Sequence.saves, Sequence.getter, hg.registered, hg.saves]

theorem Sequenced.inSequence {s : Sequence} (h : Sequenced s) (symbol : String) :
    InSequence s symbol := by
  have hends : (s.endsOf symbol).length = s.getter.chunkId symbol := by
    rw [h.ended, List.length_take, List.length_map, min_eq_left (h.count symbol)]
  refine
    { chunks := ?_
      queued := ?_
      ends := ?_
      chunkId := hends.symm
      bounded := h.bounded symbol
      once := List.nodup_iff_count_le_one.mp h.saves.1 symbol
      saved := fun hsaved => hends.trans (h.saves.2 symbol hsaved) }
  · by_cases hpc : s.session.runner.pc = .idle
    · obtain ⟨hnil, hq, _⟩ := h.idle hpc
      simp [Sequence.sendsOf, Sequence.queuedOf, hnil, hq]
    · rw [h.row hpc]
      exact List.take_prefix _ _
  · by_cases hpc : s.session.runner.pc = .idle
    · obtain ⟨hnil, hq, _⟩ := h.idle hpc
      simp [Sequence.sendsOf, Sequence.queuedOf, hnil, hq]
    · rw [h.length_row hpc, hends]
      exact min_le_left _ _
  · rw [h.ended]
    exact List.take_prefix _ _

theorem Sequenced.inRange {s : Sequence} (h : Sequenced s) : InRange s where
  first symbol hsymbol := by
    obtain ⟨cs, hcs⟩ := Table.mem_iff_lookup.mp hsymbol
    have hne := (h.chunks symbol cs hcs).1
    simpa [HistBarGetter.chunks, hcs, List.length_pos_iff] using hne
  next barEnd outcome hhead := by
    obtain ⟨rest, hq⟩ := List.head?_eq_some_iff.mp hhead
    cases hid : s.getter.reqIdSym.lookup barEnd.id with
    | none => exact ⟨_, by rw [HistBarGetter.processHistBarEnd, hid]⟩
    | some symbol =>
      have hout : barEnd.id ∈ outstanding s.session := head_outstanding hq rfl
      have hmore := (h.alone hout (h.registered _ _ hid)).2.2.2
      rw [processHistBarEnd_known hid]
      split
      · exact ⟨_, rfl⟩
      · next hlast =>
        rw [List.getElem?_eq_getElem (by omega)]
        exact ⟨_, rfl⟩

/-- The chunks of every symbol are requested in order and one at a time, and no
access to them is out of range. -/
theorem chunks_in_sequence {cal : Calendar} {days : Int} {reqs : List HistBarReq}
    {g : HistBarGetter} (hg : HistBarGetter.init cal days reqs = .ok g) {s : Sequence}
    (hs : (sequence g).Reachable s) : (∀ symbol, InSequence s symbol) ∧ InRange s := by
  have h := sequenced (init_fresh hg).1 hs
  exact ⟨h.inSequence, h.inRange⟩

/-- The only chunk is requested, an error comes, and then the end. -/
def ended : Sequence :=
  (sequence sonyGetter).stateAfter
    [.session (.run (.begin ["6758-STK-JPY.TSEJ"])), .session (.run .send),
      .session (.run .register), .session (.error { id := 10000000, errorCode := 366 }),
      .session (.barEnd { id := 10000000 }), .session (.dispatch {}), .session (.dispatch {})]
    (by decide +kernel)

theorem chunks_in_sequence_ended :
    ended.saves = ["6758-STK-JPY.TSEJ"] ∧ ended.ends = [10000000] ∧
      (∀ symbol, InSequence ended symbol) ∧ InRange ended :=
  ⟨by decide +kernel, by decide +kernel,
    chunks_in_sequence sonyGetter_init (Machine.reachable_stateAfter _)⟩

end CalmTrading.DownloadSequence
