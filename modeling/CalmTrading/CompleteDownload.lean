import CalmTrading.DownloadReplies
import CalmTrading.DownloadSequence

namespace CalmTrading.CompleteDownload

open Lib Objects Utils Gateway HistoricalData HistoricalInit Download DownloadSession
open DownloadSound DownloadReplies DownloadSequence

def errorId? : Event → Option Int
  | .ibErrMsg msg => some msg.id
  | _ => none

/-- No reply is handled before its request is recorded, no error comes for a
request, and a file that is due can be written. -/
def Intact (s : Sequence) (outcome : Outcome) (e : Event) : Prop :=
  (∀ id ∈ reply? e, awaited? s.session.runner.pc ≠ some id) ∧
    (∀ id ∈ errorId? e, id ∉ s.getter.reqIdSym) ∧
    ((endId? e).bind s.getter.completes ≠ none → outcome.saving = .ok)

instance (s : Sequence) (outcome : Outcome) (e : Event) : Decidable (Intact s outcome e) :=
  inferInstanceAs (Decidable (_ ∧ _ ∧ _))

def Complete (s : Sequence) : DownloadSequence.Move → Prop
  | .session (.dispatch outcome) => ∀ e ∈ s.session.eventQueue.head?, Intact s outcome e
  | _ => True

instance : ∀ (s : Sequence) (a : DownloadSequence.Move), Decidable (Complete s a)
  | s, .session (.dispatch _) =>
    inferInstanceAs (Decidable (∀ e ∈ s.session.eventQueue.head?, _))
  | _, .session (.run _) | _, .session (.bar _) | _, .session (.barEnd _)
  | _, .session (.error _) | _, .session (.contractDetails _) | _, .session (.post _)
  | _, .foreign _ => .isTrue trivial

/-- What the callbacks do with an event of a complete download. -/
inductive Handled (g : HistBarGetter) (outcome : Outcome) : Event → HistBarGetter → Prop
  | ignored {e : Event} (he : ∀ id ∈ reply? e, g.reqIdSym.lookup id = none) :
      Handled g outcome e g
  | bar {bar : HistBar} {symbol : String} (hid : g.reqIdSym.lookup bar.id = some symbol) :
      Handled g outcome (.histBar bar)
        { g with symData := g.symData.insert symbol (g.data symbol ++ [bar]) }
  | next {barEnd : HistBarEnd} {symbol : String}
      (hid : g.reqIdSym.lookup barEnd.id = some symbol)
      (hmore : g.chunkId symbol + 1 ≠ (g.chunks symbol).length) :
      Handled g outcome (.histBarEnd barEnd) (advanced g symbol)
  | last {barEnd : HistBarEnd} {symbol : String}
      (hid : g.reqIdSym.lookup barEnd.id = some symbol)
      (hlast : g.chunkId symbol + 1 = (g.chunks symbol).length)
      (hsort : SortOf (g.data symbol) outcome.sorted) (hsaving : outcome.saving = .ok) :
      Handled g outcome (.histBarEnd barEnd) ((advanced g symbol).complete symbol outcome)

theorem completes_eq_some {g : HistBarGetter} {id : Int} {symbol : String} :
    g.completes id = some symbol ↔
      g.reqIdSym.lookup id = some symbol ∧ g.chunkId symbol + 1 = (g.chunks symbol).length := by
  simp [HistBarGetter.completes, Option.filter_eq_some_iff]

theorem handle_handled {s : Sequence} {g : HistBarGetter} {outcome : Outcome} {e : Event}
    (h : Session.handle s.getter outcome e = some g) (he : Intact s outcome e) :
    Handled s.getter outcome e g := by
  obtain ⟨_, herror, hsaving⟩ := he
  cases e with
  | histBar bar =>
    cases h
    rw [HistBarGetter.processHistBar]
    split
    · next hid => exact .ignored (by simpa [reply?] using hid)
    · next symbol hid => exact .bar hid
  | histBarEnd barEnd =>
    simp only [Session.handle] at h
    split at h
    · next hadmits =>
      cases processHistBarEnd_ended (toOption_eq_some.mp h) with
      | unknown hid => exact .ignored (by simpa [reply?] using hid)
      | @next symbol chunk hid hlast hchunk =>
        have hg : advanced s.getter symbol =
            { s.getter with
              symChunkId := s.getter.symChunkId.insert symbol (s.getter.chunkId symbol + 1)
              q := s.getter.q ++ [chunk] } := by
          rw [advanced, nextChunk?, hchunk]
          rfl
        rw [← hg]
        refine .next hid fun hlen => ?_
        cases (completes_eq_some.mpr ⟨hid, hlen⟩).symm.trans hlast
      | @last symbol hid hlast =>
        have hlength := (completes_eq_some.mp hlast).2
        rw [← advanced_last hlength]
        exact .last hid hlength (hadmits symbol hlast) (hsaving (by simp [endId?, hlast]))
    · cases h
  | ibErrMsg msg =>
    cases h
    have hid := AList.lookup_eq_none.mpr (herror msg.id rfl)
    rw [HistBarGetter.processErrMsg, hid]
    exact .ignored (by simp [reply?])
  | _ =>
    cases h
    exact .ignored (by simp [reply?])

/-- The next request is sent. -/
def issued (s : Sequence) (req : IBHistBarReq) (rest : List IBHistBarReq) : Sequence :=
  { s with
    session.runner.getter := { s.getter with q := rest }
    session.runner.api.mReqId := s.session.runner.api.mReqId + 1
    session.runner.pc := .sent s.session.runner.api.mReqId req.symbol
    session.opened := s.session.opened ++ [s.session.runner.api.mReqId]
    session.sends := s.session.sends ++ [(s.session.runner.api.mReqId, req)]
    session.sent := s.session.sent.insert s.session.runner.api.mReqId req.symbol }

theorem issued_sending {s : Sequence} {req : IBHistBarReq} {rest : List IBHistBarReq}
    (hpc : s.session.runner.pc = .loop) (hq : s.getter.q = req :: rest) :
    Sending s req rest (issued s req rest) where
  loop := hpc
  queue := hq
  pc := rfl
  getter := rfl
  api := rfl
  sent := rfl
  perm := by simp [issued, outstanding]
  sends := rfl
  ends := rfl

/-- All that a step of a complete download does. Which ends were counted and which
replies discarded is left open. -/
inductive Stepped (s : Sequence) : Sequence → Prop
  | begin {order : List String} (hpc : s.session.runner.pc = .idle) :
      Stepped s
        { s with
          session.runner.getter := s.getter.begin order
          session.runner.pc := .loop }
  | send {req : IBHistBarReq} {rest : List IBHistBarReq} (hpc : s.session.runner.pc = .loop)
      (hq : s.getter.q = req :: rest) : Stepped s (issued s req rest)
  | register {id : Int} {symbol : String} (hpc : s.session.runner.pc = .sent id symbol) :
      Stepped s
        { s with
          session.runner.getter := s.getter.register id symbol
          session.runner.pc := .loop }
  | finish (hpc : s.session.runner.pc = .loop) (hrem : s.getter.remaining = 0) :
      Stepped s { s with session.runner.pc := .done }
  | bar {bar : HistBar} (hopen : bar.id ∈ s.session.opened) :
      Stepped s
        { s with
          session.eventQueue := s.session.eventQueue ++ [.histBar bar]
          session.delivered := bar :: s.session.delivered }
  | barEnd {barEnd : HistBarEnd} (hopen : barEnd.id ∈ s.session.opened) :
      Stepped s
        { s with
          session.opened := s.session.opened.erase barEnd.id
          session.eventQueue := s.session.eventQueue ++ [.histBarEnd barEnd] }
  | others {api : IBApi} {es : List Event} (hapi : s.session.runner.api.mReqId ≤ api.mReqId)
      (hes : ∀ e ∈ es, ∀ id ∈ reply? e,
        id < s.session.runner.api.mReqId ∧ id ∉ s.session.sent) :
      Stepped s
        { s with
          session.runner.api := api
          session.eventQueue := s.session.eventQueue ++ es }
  | handle {outcome : Outcome} {e : Event} {rest : List Event} {g : HistBarGetter}
      {ends dropped : List Int} (hq : s.session.eventQueue = e :: rest)
      (hrecorded : ∀ id ∈ reply? e, awaited? s.session.runner.pc ≠ some id)
      (hhandle : Session.handle s.getter outcome e = some g)
      (hg : Handled s.getter outcome e g) :
      Stepped s
        { s with
          session.runner.getter := g
          session.eventQueue := rest
          session.dropped := dropped
          ends := ends }

theorem sequence_stepped {g : HistBarGetter} {s t : Sequence} {a : DownloadSequence.Move}
    (ha : Complete s a) (ht : (sequence g).step s a = some t) : Stepped s t := by
  cases a with
  | foreign e =>
    simp only [DownloadSequence.sequence, Sequence.step] at ht
    split at ht
    · next hforeign =>
      cases ht
      exact .others (Int.le_refl _) (by simpa using hforeign)
    · cases ht
  | session a =>
    obtain ⟨v, hv, rfl⟩ := Option.map_eq_some_iff.mp ht
    cases step_moved (g := g) hv with
    | run hr =>
      simp only [ending?, Option.filter_none, Option.toList_none, List.append_nil]
      cases hr with
      | begin hpc horder => exact .begin hpc
      | send hpc hq =>
        simp only [Session.ran, Session.request?, hq, List.head?_cons, Option.map_some]
        exact .send hpc hq
      | register hpc => exact .register hpc
      | finish hpc hrem => exact .finish hpc hrem
    | bar hopen => simpa [ending?] using Stepped.bar (s := s) hopen
    | barEnd hopen => simpa [ending?] using Stepped.barEnd (s := s) hopen
    | @quiet _ api es ha hapi hes =>
      have hnone : ∀ e ∈ es, ∀ id ∈ reply? e,
          id < s.session.runner.api.mReqId ∧ id ∉ s.session.sent :=
        fun e he id hid => by simp [hes e he] at hid
      simpa [ending?_eq_none ha] using Stepped.others (s := s) hapi hnone
    | @dispatch outcome e rest g' hq hg =>
      have he := ha e (by simp [hq])
      exact .handle hq he.1 hg (handle_handled hg he)

/-- Where the replies to the requests of `run` are: no bar is queued behind the end
of its symbol, and a request that has not been counted as ended is outstanding. -/
structure Routed (s : Sequence) : Prop where
  fresh : ∀ e ∈ s.session.eventQueue, ∀ id ∈ reply? e, id < s.session.runner.api.mReqId
  opened : ∀ id ∈ s.session.opened, id ∈ s.session.sent
  delivered : ∀ bar ∈ s.session.delivered, bar.id ∈ s.session.sent
  registered : ∀ id, awaited? s.session.runner.pc ≠ some id →
    s.getter.reqIdSym.lookup id = s.session.sent.lookup id
  order : s.session.eventQueue.Pairwise (InOrder s.session.sent)
  sends : ∀ symbol id, id ∈ (s.sendsOf symbol).map Prod.fst ↔
    s.session.sent.lookup id = some symbol
  live : ∀ symbol, s.getter.chunkId symbol < (s.sendsOf symbol).length →
    ∃ id ∈ outstanding s.session, s.session.sent.lookup id = some symbol

namespace Routed

variable {s : Sequence}

theorem issued (h : Routed s) (hseq : Sequenced s) {req : IBHistBarReq} {rest : List IBHistBarReq}
    (hpc : s.session.runner.pc = .loop) (hq : s.getter.q = req :: rest) :
    Routed (issued s req rest) := by
  have ht := issued_sending hpc hq
  have hsent : ∀ id ∈ s.session.sent, id < s.session.runner.api.mReqId := fun id hid =>
    hseq.drawn id (.inr hid)
  refine
    { fresh := fun e he id hid => Int.lt_trans (h.fresh e he id hid) (Int.lt_succ _)
      opened := ?_
      delivered := fun bar hbar => ht.mem_sent.mpr (.inr (h.delivered bar hbar))
      registered := ?_
      order := ?_
      sends := ?_
      live := ?_ }
  · intro id hid
    obtain hid | hid := List.mem_append.mp hid
    · exact ht.mem_sent.mpr (.inr (h.opened id hid))
    · exact ht.mem_sent.mpr (.inl (List.mem_singleton.mp hid))
  · intro id hid
    have hne : id ≠ s.session.runner.api.mReqId := by
      simpa [CompleteDownload.issued, awaited?, eq_comm] using hid
    rw [ht.sent, AList.lookup_insert_ne hne]
    exact h.registered id (by simp [hpc, awaited?])
  · refine h.order.imp_of_mem fun {e f} he hf hef i j symbol hi hj => ?_
    rw [ht.lookup_sent (h.fresh e he i (reply?_of_endId? hi)),
      ht.lookup_sent (h.fresh f hf j (reply?_of_barId? hj))]
    exact hef i j symbol hi hj
  · intro symbol id
    rw [ht.sendsOf, List.map_append, List.mem_append, h.sends, ht.sent, Table.lookup_insert_ite]
    by_cases hid : id = s.session.runner.api.mReqId
    · subst hid
      have hnone : s.session.sent.lookup s.session.runner.api.mReqId ≠ some symbol := fun hsome =>
        Int.lt_irrefl _ (hsent _ (Table.mem_iff_lookup.mpr ⟨symbol, hsome⟩))
      by_cases hs : req.symbol = symbol <;> simp [hnone, hs]
    · by_cases hs : req.symbol = symbol <;> simp [hid, hs]
  · intro symbol hlt
    by_cases hs : req.symbol = symbol
    · refine ⟨s.session.runner.api.mReqId, ht.mem_outstanding.mpr (.inl rfl), ?_⟩
      rw [ht.sent, AList.lookup_insert, hs]
    · rw [ht.sendsOf, if_neg hs, List.append_nil, ht.chunkId] at hlt
      obtain ⟨id, hid, hsym⟩ := h.live symbol hlt
      refine ⟨id, ht.mem_outstanding.mpr (.inr hid), ?_⟩
      rw [ht.lookup_sent (hseq.drawn id (.inl hid)), hsym]

theorem register (h : Routed s) (hseq : Sequenced s) {id : Int} {symbol : String}
    (hpc : s.session.runner.pc = .sent id symbol) :
    Routed
      { s with
        session.runner.getter := s.getter.register id symbol
        session.runner.pc := .loop } := by
  refine { h with registered := fun i _ => ?_ }
  change (s.getter.reqIdSym.insert id symbol).lookup i = s.session.sent.lookup i
  rw [Table.lookup_insert_ite]
  split
  · next hi => rw [hi, hseq.awaited id symbol hpc]
  · next hi => exact h.registered i (by simpa [hpc, awaited?, eq_comm] using hi)

/-- Events that are queued, if the bars among them are behind no end of their symbol. -/
theorem append (h : Routed s) {es : List Event} {opened : List Int} {delivered : List HistBar}
    {api : IBApi} (hapi : s.session.runner.api.mReqId ≤ api.mReqId)
    (hes : ∀ e ∈ es, ∀ id ∈ reply? e, id < s.session.runner.api.mReqId)
    (horder : ∀ f ∈ es, ∀ j ∈ barId? f, ∀ symbol, s.session.sent.lookup j = some symbol →
      ∀ e ∈ s.session.eventQueue ++ es, ∀ i ∈ endId? e, s.session.sent.lookup i ≠ some symbol)
    (hopened : ∀ id ∈ opened, id ∈ s.session.sent)
    (hdelivered : ∀ bar ∈ delivered, bar.id ∈ s.session.sent)
    (hout : ∀ id ∈ outstanding s.session,
      id ∈ opened ∨ id ∈ (s.session.eventQueue ++ es).filterMap endId?) :
    Routed
      { s with
        session.runner.api := api
        session.opened := opened
        session.eventQueue := s.session.eventQueue ++ es
        session.delivered := delivered } := by
  refine
    { h with
      fresh := ?_
      opened := hopened
      delivered := hdelivered
      order := ?_
      live := ?_ }
  · intro e he id hid
    obtain he | he := List.mem_append.mp he
    · exact Int.lt_of_lt_of_le (h.fresh e he id hid) hapi
    · exact Int.lt_of_lt_of_le (hes e he id hid) hapi
  · have hlater : ∀ e ∈ s.session.eventQueue ++ es, ∀ f ∈ es, InOrder s.session.sent e f :=
      fun e he f hf i j symbol hi hj hsi hsj => horder f hf j hj symbol hsj e he i hi hsi
    refine List.pairwise_append.mpr ⟨h.order, List.pairwise_of_forall_mem_list ?_, ?_⟩
    · exact fun e he f hf => hlater e (List.mem_append_right _ he) f hf
    · exact fun e he f hf => hlater e (List.mem_append_left _ he) f hf
  · intro symbol hlt
    obtain ⟨id, hid, hsym⟩ := h.live symbol hlt
    exact ⟨id, List.mem_append.mpr (hout id hid), hsym⟩

/-- No end for the symbol of a bar is on its way when the bar comes. -/
theorem bar (h : Routed s) (hseq : Sequenced s) {bar : HistBar}
    (hopen : bar.id ∈ s.session.opened) :
    Routed
      { s with
        session.eventQueue := s.session.eventQueue ++ [.histBar bar]
        session.delivered := bar :: s.session.delivered } := by
  have hsent := h.opened bar.id hopen
  refine h.append (Int.le_refl _) ?_ ?_ h.opened ?_ ?_
  · exact forall_reply_singleton rfl (hseq.drawn bar.id (.inr hsent))
  · intro f hf j hj symbol hsj e he i hi hsi
    cases List.mem_singleton.mp hf
    cases hj
    have hqueued : i ∈ s.session.eventQueue.filterMap endId? := by
      obtain he | he := List.mem_append.mp he
      · exact List.mem_filterMap.mpr ⟨e, he, hi⟩
      · cases List.mem_singleton.mp he
        cases hi
    -- the bar and the end belong to one request, which is outstanding once
    have hbar := hseq.pending bar.id (List.mem_append_left _ hopen) symbol hsj
    have hend := hseq.pending i (List.mem_append_right _ hqueued) symbol hsi
    have hsame : i = bar.id := by simpa [hbar, eq_comm] using hend
    have hone := hseq.distinct bar.id hsent
    have htwice : 1 + 1 ≤ (outstanding s.session).count bar.id := by
      rw [outstanding, List.count_append]
      exact Nat.add_le_add (List.count_pos_iff.mpr hopen)
        (List.count_pos_iff.mpr (hsame ▸ hqueued))
    omega
  · intro b hb
    obtain rfl | hb := List.mem_cons.mp hb
    · exact hsent
    · exact h.delivered b hb
  · intro id hid
    simpa [outstanding, endId?] using hid

theorem barEnd (h : Routed s) (hseq : Sequenced s) {barEnd : HistBarEnd}
    (hopen : barEnd.id ∈ s.session.opened) :
    Routed
      { s with
        session.opened := s.session.opened.erase barEnd.id
        session.eventQueue := s.session.eventQueue ++ [.histBarEnd barEnd] } := by
  refine h.append (Int.le_refl _) ?_ ?_ ?_ h.delivered ?_
  · exact forall_reply_singleton rfl (hseq.drawn barEnd.id (.inr (h.opened barEnd.id hopen)))
  · intro f hf j hj
    cases List.mem_singleton.mp hf
    cases hj
  · exact fun id hid => h.opened id (List.mem_of_mem_erase hid)
  · intro id hid
    obtain hid | hid := List.mem_append.mp hid
    · by_cases hsame : id = barEnd.id
      · exact .inr (by simp [endId?, hsame])
      · exact .inl ((List.mem_erase_of_ne hsame).mpr hid)
    · refine .inr ?_
      rw [List.filterMap_append]
      exact List.mem_append_left _ hid

theorem handle (h : Routed s) (hseq : Sequenced s) {outcome : Outcome} {e : Event}
    {rest : List Event} {g : HistBarGetter} {ends dropped : List Int} (hq : s.session.eventQueue = e :: rest)
    (hrecorded : ∀ id ∈ reply? e, awaited? s.session.runner.pc ≠ some id)
    (hhandle : Session.handle s.getter outcome e = some g) :
    Routed
      { s with
        session.runner.getter := g
        session.eventQueue := rest
        session.dropped := dropped
        ends := ends } := by
  have hreg : g.reqIdSym = s.getter.reqIdSym := by
    obtain ⟨_, hsame, _⟩ | ⟨id, symbol, _, _, hsame, _⟩ := handle_cases hhandle <;>
      exact hsame.reqIdSym
  have horder := h.order
  rw [hq] at horder
  refine
    { h with
      fresh := fun f hf => h.fresh f (hq ▸ List.mem_cons_of_mem e hf)
      registered := fun id hid => (congrArg _ hreg).trans (h.registered id hid)
      order := horder.of_cons
      live := ?_ }
  intro symbol hlt
  -- another event's request stays outstanding
  have hkeep : ∀ id ∈ outstanding s.session, endId? e ≠ some id →
      id ∈ s.session.opened ++ rest.filterMap endId? := by
    intro id hid hne
    rw [outstanding, hq, List.filterMap_cons] at hid
    cases hend : endId? e with
    | none => simpa [hend] using hid
    | some i =>
      have hi : id ≠ i := fun he => hne (he ▸ hend)
      simpa [hend, hi] using hid
  obtain ⟨hunknown, hsame, _⟩ | ⟨i, symbol', hend, hi, hsame, _⟩ := handle_cases hhandle
  · obtain ⟨id, hid, hsym⟩ := h.live symbol (hsame.chunkId symbol ▸ hlt)
    refine ⟨id, hkeep id hid fun hend => ?_, hsym⟩
    have hnone := hunknown id hend
    rw [h.registered id (hrecorded id (reply?_of_endId? hend)), hsym] at hnone
    cases hnone
  · have hsent := hseq.registered i symbol' hi
    have hout := head_outstanding hq hend
    have hchunkId := (hsame.chunkId symbol).trans (advanced_chunkId s.getter symbol' symbol)
    by_cases hs : symbol = symbol'
    · have hlength := (hseq.alone hout hsent).2.1
      rw [if_pos hs] at hchunkId
      change g.chunkId symbol < (s.sendsOf symbol).length at hlt
      rw [hchunkId, hs, hlength] at hlt
      exact absurd hlt (Nat.lt_irrefl _)
    · rw [if_neg hs] at hchunkId
      obtain ⟨id, hid, hsym⟩ := h.live symbol (hchunkId ▸ hlt)
      refine ⟨id, hkeep id hid fun he => ?_, hsym⟩
      cases hend.symm.trans he
      cases hsym.symm.trans hsent
      exact hs rfl

theorem step (h : Routed s) (hseq : Sequenced s) {t : Sequence} (ht : Stepped s t) :
    Routed t := by
  cases ht with
  | begin hpc =>
    exact { h with registered := fun id _ => h.registered id (by simp_all [awaited?]) }
  | send hpc hq => exact h.issued hseq hpc hq
  | register hpc => exact h.register hseq hpc
  | finish hpc hrem =>
    exact { h with registered := fun id _ => h.registered id (by simp_all [awaited?]) }
  | bar hopen => exact h.bar hseq hopen
  | barEnd hopen => exact h.barEnd hseq hopen
  | others hapi hes =>
    refine h.append hapi (fun e he id hid => (hes e he id hid).1) ?_ h.opened h.delivered ?_
    · intro f hf j hj symbol hsj
      exact absurd (Table.mem_iff_lookup.mpr ⟨symbol, hsj⟩) (hes f hf j (reply?_of_barId? hj)).2
    · intro id hid
      rw [outstanding, List.mem_append] at hid
      rw [List.filterMap_append, List.mem_append]
      exact hid.imp_right .inl
  | handle hq hrecorded hhandle hg => exact h.handle hseq hq hrecorded hhandle

end Routed

theorem routed {g : HistBarGetter} (hg : Fresh g) {s : Sequence}
    (hs : (sequence g).Reaches Complete s) : Routed s := by
  refine Machine.Reaches.invariant (I := Routed) ?_ ?_ hs
  · constructor <;>
      simp [DownloadSequence.sequence, session, Sequence.getter, Sequence.sendsOf, hg.registered]
  · intro s a t hs h hok ht
    exact h.step (sequenced hg hs.reachable) (sequence_stepped hok ht)

end CalmTrading.CompleteDownload
