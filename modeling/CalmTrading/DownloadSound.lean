import CalmTrading.DownloadSession
import CalmTrading.HistoricalInit

namespace CalmTrading.DownloadSound

open Lib Objects Utils Gateway HistoricalData HistoricalInit Download DownloadSession

def outstanding (s : Session) : List Int := s.opened ++ s.eventQueue.filterMap endId?

theorem head_outstanding {s : Session} {e : Event} {rest : List Event} {id : Int}
    (hq : s.eventQueue = e :: rest) (hend : endId? e = some id) : id ∈ outstanding s :=
  List.mem_append_right _ (List.mem_filterMap.mpr ⟨e, hq ▸ List.mem_cons_self, hend⟩)

def tokens (s : Session) (symbol : String) : Nat :=
  s.runner.getter.q.countP (fun c => c.symbol = symbol) +
    (outstanding s).countP fun id => s.sent.lookup id = some symbol

def due (r : Runner) (symbol : String) : Nat :=
  if r.pc = .idle ∨ r.getter.chunkId symbol = (r.getter.chunks symbol).length then 0 else 1

/-- An event does not end the symbol of a later bar. -/
def InOrder (sent : Table Int String) (e f : Event) : Prop :=
  ∀ i j symbol, endId? e = some i → barId? f = some j →
    sent.lookup i = some symbol → sent.lookup j ≠ some symbol

structure Sound (s : Session) : Prop where
  chunks : ∀ symbol cs, s.runner.getter.symChunks.lookup symbol = some cs →
    cs ≠ [] ∧ ∀ c ∈ cs, c.symbol = symbol
  idle : s.runner.pc = .idle → ∀ symbol, s.runner.getter.chunkId symbol = 0
  chunkId : ∀ symbol,
    s.runner.getter.chunkId symbol ≤ (s.runner.getter.chunks symbol).length
  counted : ∀ symbol, tokens s symbol = due s.runner symbol
  ids : ∀ id ∈ s.sent, id < s.runner.api.mReqId
  opened : ∀ id ∈ s.opened, id ∈ s.sent
  events : ∀ e ∈ s.eventQueue, ∀ id, reply? e = some id → id ∈ s.sent
  awaited : ∀ id symbol, s.runner.pc = .sent id symbol → s.sent.lookup id = some symbol
  registered : ∀ id, (∀ symbol, s.runner.pc ≠ .sent id symbol) →
    s.runner.getter.reqIdSym.lookup id = s.sent.lookup id
  unregistered : ∀ id symbol, s.runner.pc = .sent id symbol → id ∉ s.runner.getter.reqIdSym
  order : s.eventQueue.Pairwise (InOrder s.sent)
  collected : ∀ bar ∈ s.delivered, Event.histBar bar ∈ s.eventQueue ∨
    ∃ symbol, s.sent.lookup bar.id = some symbol ∧
      ∃ b ∈ s.runner.getter.data symbol, b.time = bar.time
  success : ∀ symbol, s.runner.getter.status symbol = .success →
    s.runner.getter.chunkId symbol = (s.runner.getter.chunks symbol).length ∧
      ∃ rows, s.runner.getter.written symbol = some rows ∧ Covers s symbol rows

def nextChunk? (g : HistBarGetter) (symbol : String) : Option IBHistBarReq :=
  (g.chunks symbol)[g.chunkId symbol + 1]?

/-- The getter when a request for a symbol has ended. -/
def advanced (g : HistBarGetter) (symbol : String) : HistBarGetter :=
  { g with
    symChunkId := g.symChunkId.insert symbol (g.chunkId symbol + 1)
    q := g.q ++ (nextChunk? g symbol).toList }

theorem advanced_chunkId (g : HistBarGetter) (symbol s : String) :
    (advanced g symbol).chunkId s = if s = symbol then g.chunkId symbol + 1 else g.chunkId s := by
  rw [advanced, HistBarGetter.chunkId, Table.lookup_insert_ite]
  split <;> rfl

theorem advanced_last {g : HistBarGetter} {symbol : String}
    (hlast : g.chunkId symbol + 1 = (g.chunks symbol).length) :
    advanced g symbol =
      { g with symChunkId := g.symChunkId.insert symbol (g.chunkId symbol + 1) } := by
  simp [advanced, nextChunk?, List.getElem?_eq_none hlast.ge]

/-- The end of a known request advances its symbol. -/
theorem ended_advanced {g g' : HistBarGetter} {id : Int} {outcome : Outcome}
    (h : Ended g id outcome g') :
    g.reqIdSym.lookup id = none ∧ g' = g ∨
      ∃ symbol, g.reqIdSym.lookup id = some symbol ∧ SameRequests (advanced g symbol) g' ∧
        (g'.saves = g.saves ∨ g'.saves.map Save.symbol = g.saves.map Save.symbol ++ [symbol] ∧
          g.chunkId symbol + 1 = (g.chunks symbol).length) := by
  cases h with
  | unknown hid => exact .inl ⟨hid, rfl⟩
  | @next symbol chunk hid _ hchunk =>
    refine .inr ⟨symbol, hid, ?_, .inl rfl⟩
    rw [advanced, nextChunk?, hchunk]
    exact ⟨rfl, rfl, rfl, rfl⟩
  | @last symbol hid hlast =>
    have hlength : g.chunkId symbol + 1 = (g.chunks symbol).length := by
      simpa [HistBarGetter.completes, hid] using hlast
    refine .inr ⟨symbol, hid, ?_, .inr ⟨?_, hlength⟩⟩
    · rw [advanced_last hlength]
      exact complete_sameRequests _ _ _
    · simp [complete_saves, HistBarGetter.processData]

theorem due_begun {r : Runner} (h : r.pc ≠ .idle) (symbol : String) :
    due r symbol = if r.getter.chunkId symbol = (r.getter.chunks symbol).length then 0 else 1 := by
  simp [due, h]

theorem due_same {r r' : Runner} (h : r.pc ≠ .idle) (h' : r'.pc ≠ .idle)
    (hid : r'.getter.symChunkId = r.getter.symChunkId)
    (hchunks : r'.getter.symChunks = r.getter.symChunks) (symbol : String) :
    due r' symbol = due r symbol := by
  simp [due, h, h', HistBarGetter.chunkId, HistBarGetter.chunks, hid, hchunks]

namespace Sound

variable {s : Session}

theorem outstanding_sent (h : Sound s) {id : Int} (hid : id ∈ outstanding s) : id ∈ s.sent := by
  obtain hid | hid := List.mem_append.mp hid
  · exact h.opened id hid
  · obtain ⟨e, he, hend⟩ := List.mem_filterMap.mp hid
    exact h.events e he id (reply?_of_endId? hend)

theorem unfinished (h : Sound s) {id : Int} {symbol : String} (hid : id ∈ outstanding s)
    (hsym : s.sent.lookup id = some symbol) :
    s.runner.pc ≠ .idle ∧
      s.runner.getter.chunkId symbol ≠ (s.runner.getter.chunks symbol).length ∧
      tokens s symbol = 1 := by
  have hpos : 0 < (outstanding s).countP fun i => s.sent.lookup i = some symbol :=
    List.countP_pos_iff.mpr ⟨id, hid, by simpa using hsym⟩
  have htokens := h.counted symbol
  rw [due] at htokens
  split at htokens
  · rw [tokens] at htokens
    omega
  · next hdone =>
    exact ⟨fun hpc => hdone (.inl hpc), fun hlen => hdone (.inr hlen), htokens⟩

theorem not_success (h : Sound s) {id : Int} {symbol : String} (hid : id ∈ outstanding s)
    (hsym : s.sent.lookup id = some symbol) : s.runner.getter.status symbol ≠ .success :=
  fun hsuc => (h.unfinished hid hsym).2.1 (h.success symbol hsuc).1

theorem delivered_sent (h : Sound s) {bar : HistBar} (hbar : bar ∈ s.delivered) :
    bar.id ∈ s.sent := by
  obtain hq | ⟨symbol, hsym, _⟩ := h.collected bar hbar
  · exact h.events _ hq _ rfl
  · exact Table.mem_iff_lookup.mpr ⟨symbol, hsym⟩

theorem events_append (h : Sound s) {es : List Event}
    (hes : ∀ e ∈ es, ∀ id ∈ reply? e, id ∈ s.sent) :
    ∀ e ∈ s.eventQueue ++ es, ∀ id ∈ reply? e, id ∈ s.sent := by
  intro e he
  obtain he | he := List.mem_append.mp he
  · exact h.events e he
  · exact hes e he

/-- Events that are no replies, and a request counter that only grows. -/
theorem quiet (h : Sound s) {api : IBApi} {es : List Event}
    (hapi : s.runner.api.mReqId ≤ api.mReqId) (hes : ∀ e ∈ es, reply? e = none) :
    Sound { s with runner := { s.runner with api := api }, eventQueue := s.eventQueue ++ es } := by
  have hends : es.filterMap endId? = [] :=
    List.filterMap_eq_nil_iff.mpr fun e he => endId?_eq_none (hes e he)
  refine { h with counted := ?_, ids := ?_, events := ?_, order := ?_, collected := ?_ }
  · intro symbol
    refine Eq.trans ?_ (h.counted symbol)
    simp [tokens, outstanding, hends]
  · intro id hid
    exact Int.lt_of_lt_of_le (h.ids id hid) hapi
  · apply h.events_append
    intro e he id hid
    simp [hes e he] at hid
  · refine List.pairwise_append.mpr
      ⟨h.order, List.pairwise_of_forall_mem_list ?_, ?_⟩ <;>
    · intro e _ f hf i j symbol _ hj
      simp [barId?_eq_none (hes f hf)] at hj
  · intro bar hbar
    exact (h.collected bar hbar).imp_left (List.mem_append_left es)

/-- A bar for an open request comes before the end of that request, and no end
for its symbol is on its way. -/
theorem bar (h : Sound s) {bar : HistBar} (hopen : bar.id ∈ s.opened) :
    Sound
      { s with
        eventQueue := s.eventQueue ++ [.histBar bar]
        delivered := bar :: s.delivered } := by
  have hout : bar.id ∈ outstanding s := List.mem_append_left _ hopen
  refine { h with counted := ?_, events := ?_, order := ?_, collected := ?_, success := ?_ }
  · intro symbol
    refine Eq.trans ?_ (h.counted symbol)
    simp [tokens, outstanding, endId?]
  · exact h.events_append (forall_reply_singleton rfl (h.opened _ hopen))
  · refine List.pairwise_append.mpr ⟨h.order, List.pairwise_singleton _ _, ?_⟩
    intro e he f hf i j symbol hi hj hsi hsj
    cases List.mem_singleton.mp hf
    cases hj
    have hone := (h.unfinished hout hsj).2.2
    have hopened : 0 < s.opened.countP fun id => s.sent.lookup id = some symbol :=
      List.countP_pos_iff.mpr ⟨_, hopen, by simpa using hsj⟩
    have hqueued : 0 < (s.eventQueue.filterMap endId?).countP fun id =>
        s.sent.lookup id = some symbol :=
      List.countP_pos_iff.mpr ⟨i, List.mem_filterMap.mpr ⟨e, he, hi⟩, by simpa using hsi⟩
    rw [tokens, outstanding, List.countP_append] at hone
    omega
  · intro b hb
    obtain rfl | hb := List.mem_cons.mp hb
    · exact .inl (List.mem_append_right _ (List.mem_singleton_self _))
    · exact (h.collected b hb).imp_left (List.mem_append_left _)
  · intro symbol hsuc
    obtain ⟨hlen, rows, hrows, hcovers⟩ := h.success symbol hsuc
    refine ⟨hlen, rows, hrows, ?_⟩
    intro b hb hsym
    obtain rfl | hb := List.mem_cons.mp hb
    · exact absurd hsuc (h.not_success hout hsym)
    · exact hcovers b hb hsym

theorem barEnd (h : Sound s) {barEnd : HistBarEnd} (hopen : barEnd.id ∈ s.opened) :
    Sound
      { s with
        opened := s.opened.erase barEnd.id
        eventQueue := s.eventQueue ++ [.histBarEnd barEnd] } := by
  refine { h with counted := ?_, opened := ?_, events := ?_, order := ?_, collected := ?_ }
  · intro symbol
    have hperm := (List.perm_cons_erase hopen).countP_eq fun id =>
      decide (s.sent.lookup id = some symbol)
    refine Eq.trans ?_ (h.counted symbol)
    simp only [tokens, outstanding, endId?, List.countP_append, List.filterMap_append,
      List.filterMap_cons, List.filterMap_nil, hperm, List.countP_cons, List.countP_nil]
    omega
  · intro id hid
    exact h.opened id (List.mem_of_mem_erase hid)
  · exact h.events_append (forall_reply_singleton rfl (h.opened _ hopen))
  · refine List.pairwise_append.mpr ⟨h.order, List.pairwise_singleton _ _, ?_⟩
    intro e _ f hf i j symbol _ hj
    cases List.mem_singleton.mp hf
    cases hj
  · intro b hb
    exact (h.collected b hb).imp_left (List.mem_append_left _)

theorem chunks_length (h : Sound s) (symbol : String) :
    (s.runner.getter.chunks symbol).length = 0 ↔ symbol ∉ s.runner.getter.symChunks := by
  rw [List.length_eq_zero_iff]
  cases hcs : s.runner.getter.symChunks.lookup symbol with
  | none => simp [HistBarGetter.chunks, hcs, AList.lookup_eq_none.mp hcs]
  | some cs =>
    have hmem := Table.mem_iff_lookup.mpr ⟨cs, hcs⟩
    simp [HistBarGetter.chunks, hcs, hmem, (h.chunks symbol cs hcs).1]

theorem chunk_symbol (h : Sound s) {symbol : String} {i : Nat} {c : IBHistBarReq}
    (hc : (s.runner.getter.chunks symbol)[i]? = some c) : c.symbol = symbol := by
  obtain ⟨cs, hcs, hmem⟩ := mem_chunks (List.mem_of_getElem? hc)
  exact (h.chunks symbol cs hcs).2 c hmem

theorem first_chunks (h : Sound s) {order : List String}
    (horder : ∀ symbol ∈ order, symbol ∈ s.runner.getter.symChunks) (symbol : String) :
    ((order.filterMap fun s' => (s.runner.getter.chunks s')[0]?).countP
      fun c => c.symbol = symbol) = order.count symbol := by
  induction order with
  | nil => rfl
  | cons s' order ih =>
    have hlength : (s.runner.getter.chunks s').length ≠ 0 :=
      mt (h.chunks_length s').mp (not_not.mpr (horder s' List.mem_cons_self))
    have hc := List.getElem?_eq_getElem (Nat.pos_of_ne_zero hlength)
    have htail := ih fun s'' hs'' => horder s'' (List.mem_cons_of_mem _ hs'')
    simp only [List.filterMap_cons, hc, List.countP_cons, htail, h.chunk_symbol hc,
      List.count_cons, beq_iff_eq, decide_eq_true_eq]

theorem begin (h : Sound s) {order : List String} (hpc : s.runner.pc = .idle)
    (horder : order.Perm s.runner.getter.symChunks.keys) :
    Sound
      { s with
        runner := { s.runner with getter := s.runner.getter.begin order, pc := .loop } } := by
  have hmem : ∀ symbol, symbol ∈ order ↔ symbol ∈ s.runner.getter.symChunks := fun symbol => by
    rw [horder.mem_iff, ← AList.mem_keys]
  refine { h with idle := ?_, counted := ?_, awaited := ?_, registered := ?_, unregistered := ?_ }
  · simp
  · intro symbol
    have hbefore := h.counted symbol
    rw [due, if_pos (.inl hpc)] at hbefore
    have hafter : tokens
        { s with
          runner := { s.runner with getter := s.runner.getter.begin order, pc := .loop } } symbol =
          tokens s symbol + order.count symbol := by
      simp only [tokens, outstanding, HistBarGetter.begin, List.countP_append,
        h.first_chunks fun symbol => (hmem symbol).mp]
      omega
    have hnodup : order.Nodup := horder.nodup_iff.mpr s.runner.getter.symChunks.keys_nodup
    have hdue : due { s.runner with getter := s.runner.getter.begin order, pc := .loop } symbol =
        if symbol ∈ order then 1 else 0 := by
      rw [due_begun (by simp)]
      change (if s.runner.getter.chunkId symbol = (s.runner.getter.chunks symbol).length then 0
        else 1) = _
      rw [h.idle hpc symbol]
      have hlength := h.chunks_length symbol
      by_cases hsym : symbol ∈ order
      · rw [if_neg (mt (hlength.mp ∘ Eq.symm) (not_not.mpr ((hmem symbol).mp hsym))), if_pos hsym]
      · rw [if_pos (hlength.mpr (mt (hmem symbol).mpr hsym)).symm, if_neg hsym]
    rw [hafter, hbefore, hnodup.count, hdue, Nat.zero_add]
  · simp
  · intro id _
    exact h.registered id fun symbol => by simp [hpc]
  · simp

/-- The id of a request that `run` sends was not in use. -/
theorem send (h : Sound s) {req : IBHistBarReq} {rest : List IBHistBarReq}
    (hpc : s.runner.pc = .loop) (hq : s.runner.getter.q = req :: rest) :
    Sound
      { s with
        runner :=
          { getter := { s.runner.getter with q := rest }
            api := { s.runner.api with mReqId := s.runner.api.mReqId + 1 }
            pc := .sent s.runner.api.mReqId req.symbol }
        opened := s.opened ++ [s.runner.api.mReqId]
        sends := s.sends ++ [(s.runner.api.mReqId, req)]
        sent := s.sent.insert s.runner.api.mReqId req.symbol } := by
  have hfresh : s.runner.api.mReqId ∉ s.sent := fun hmem => Int.lt_irrefl _ (h.ids _ hmem)
  have hsent : ∀ id ∈ s.sent,
      (s.sent.insert s.runner.api.mReqId req.symbol).lookup id = s.sent.lookup id :=
    fun id hid => AList.lookup_insert_ne fun he => hfresh (he ▸ hid)
  refine
    { chunks := h.chunks
      idle := by simp
      chunkId := h.chunkId
      counted := ?_
      ids := ?_
      opened := ?_
      events := ?_
      awaited := ?_
      registered := ?_
      unregistered := ?_
      order := ?_
      collected := ?_
      success := ?_ }
  · intro symbol
    have hsame : ((outstanding s).countP fun id =>
        (s.sent.insert s.runner.api.mReqId req.symbol).lookup id = some symbol) =
          (outstanding s).countP fun id => s.sent.lookup id = some symbol :=
      List.countP_congr fun id hid => by rw [hsent id (h.outstanding_sent hid)]
    refine Eq.trans (Eq.trans ?_ (h.counted symbol)) (Eq.symm ?_)
    rotate_left
    · apply due_same <;> simp [hpc]
    simp only [outstanding, List.countP_append] at hsame
    simp only [tokens, outstanding, hq, List.countP_append, List.countP_cons, List.countP_nil,
      AList.lookup_insert, Option.some.injEq]
    omega
  · intro id hid
    obtain rfl | hid := (AList.mem_insert _).mp hid
    · exact Int.lt_succ _
    · exact Int.lt_trans (h.ids id hid) (Int.lt_succ _)
  · intro id hid
    obtain hid | hid := List.mem_append.mp hid
    · exact (AList.mem_insert _).mpr (.inr (h.opened id hid))
    · exact (AList.mem_insert _).mpr (.inl (List.mem_singleton.mp hid))
  · exact fun e he id hid => (AList.mem_insert _).mpr (.inr (h.events e he id hid))
  · rintro id symbol ⟨rfl, rfl⟩
    exact AList.lookup_insert _
  · intro id hid
    have hne : id ≠ s.runner.api.mReqId := fun he => hid req.symbol (he ▸ rfl)
    rw [AList.lookup_insert_ne hne]
    exact h.registered id fun symbol => by simp [hpc]
  · rintro id symbol ⟨rfl, rfl⟩
    have hnone := h.registered s.runner.api.mReqId fun symbol => by simp [hpc]
    rw [AList.lookup_eq_none.mpr hfresh] at hnone
    exact AList.lookup_eq_none.mp hnone
  · refine h.order.imp_of_mem fun he hf hin i j symbol hi hj hsi => ?_
    rw [hsent i (h.events _ he i (reply?_of_endId? hi))] at hsi
    rw [hsent j (h.events _ hf j (reply?_of_barId? hj))]
    exact hin i j symbol hi hj hsi
  · intro bar hbar
    refine (h.collected bar hbar).imp_right fun ⟨symbol, hsym, hdata⟩ => ?_
    exact ⟨symbol, (hsent _ (h.delivered_sent hbar)).trans hsym, hdata⟩
  · intro symbol hsuc
    obtain ⟨hlen, rows, hrows, hcovers⟩ := h.success symbol hsuc
    refine ⟨hlen, rows, hrows, fun bar hbar hsym => hcovers bar hbar ?_⟩
    exact (hsent _ (h.delivered_sent hbar)).symm.trans hsym

theorem register (h : Sound s) {reqId : Int} {symbol : String}
    (hpc : s.runner.pc = .sent reqId symbol) :
    Sound
      { s with
        runner :=
          { s.runner with getter := s.runner.getter.register reqId symbol, pc := .loop } } := by
  refine { h with idle := ?_, counted := ?_, awaited := ?_, registered := ?_, unregistered := ?_ }
  · simp
  · intro symbol'
    refine (h.counted symbol').trans (Eq.symm ?_)
    apply due_same <;> simp [hpc, HistBarGetter.register]
  · simp
  · intro id _
    by_cases hid : id = reqId
    · subst hid
      rw [h.awaited id symbol hpc]
      exact AList.lookup_insert _
    · have hother := h.registered id fun symbol' => by simp [hpc, Ne.symm hid]
      exact (AList.lookup_insert_ne hid).trans hother
  · simp

theorem finish (h : Sound s) (hpc : s.runner.pc = .loop) :
    Sound { s with runner := { s.runner with pc := .done } } := by
  refine { h with idle := ?_, counted := ?_, awaited := ?_, registered := ?_, unregistered := ?_ }
  · simp
  · intro symbol
    refine (h.counted symbol).trans (Eq.symm ?_)
    apply due_same <;> simp [hpc]
  · simp
  · intro id _
    exact h.registered id fun symbol => by simp [hpc]
  · simp

/-- A callback that keeps the requests and the times of the bars. -/
theorem callback (h : Sound s) {g : HistBarGetter} (hsame : SameRequests s.runner.getter g)
    (hdata : ∀ symbol, ∀ b ∈ s.runner.getter.data symbol, ∃ b' ∈ g.data symbol, b'.time = b.time)
    (hsuccess : ∀ symbol, g.status symbol = .success →
      s.runner.getter.chunkId symbol = (s.runner.getter.chunks symbol).length ∧
        ∃ rows, g.written symbol = some rows ∧ Covers s symbol rows) :
    Sound { s with runner := { s.runner with getter := g } } := by
  refine
    { h with
      chunks := ?_
      idle := ?_
      chunkId := ?_
      counted := ?_
      registered := ?_
      unregistered := ?_
      collected := ?_
      success := ?_ }
  · rw [hsame.symChunks]
    exact h.chunks
  · intro hpc symbol
    exact (hsame.chunkId symbol).trans (h.idle hpc symbol)
  · intro symbol
    rw [hsame.chunkId, hsame.chunks]
    exact h.chunkId symbol
  · intro symbol
    have hcounted := h.counted symbol
    simp only [tokens, outstanding, due] at hcounted ⊢
    rw [hsame.q, hsame.chunkId, hsame.chunks]
    exact hcounted
  · rw [hsame.reqIdSym]
    exact h.registered
  · rw [hsame.reqIdSym]
    exact h.unregistered
  · intro bar hbar
    refine (h.collected bar hbar).imp_right fun ⟨symbol, hsym, b, hb, htime⟩ => ?_
    obtain ⟨b', hb', htime'⟩ := hdata symbol b hb
    exact ⟨symbol, hsym, b', hb', htime'.trans htime⟩
  · intro symbol hsuc
    rw [hsame.chunkId, hsame.chunks]
    exact hsuccess symbol hsuc

/-- Taking an event other than an end off the queue, a bar only once its time
is with the data. -/
theorem pop (h : Sound s) {e : Event} {rest : List Event} (hq : s.eventQueue = e :: rest)
    (hend : endId? e = none)
    (hbar : ∀ bar, e = .histBar bar → ∃ symbol, s.sent.lookup bar.id = some symbol ∧
      ∃ b ∈ s.runner.getter.data symbol, b.time = bar.time) :
    Sound { s with eventQueue := rest } := by
  refine { h with counted := ?_, events := ?_, order := ?_, collected := ?_ }
  · intro symbol
    refine Eq.trans ?_ (h.counted symbol)
    simp [tokens, outstanding, hq, hend]
  · exact fun e' he' => h.events e' (hq ▸ List.mem_cons_of_mem e he')
  · have horder := h.order
    rw [hq] at horder
    exact horder.of_cons
  · intro bar hdel
    obtain hmem | hdata := h.collected bar hdel
    · rw [hq] at hmem
      obtain rfl | hmem := List.mem_cons.mp hmem
      · exact .inr (hbar bar rfl)
      · exact .inl hmem
    · exact .inr hdata

theorem processHistBar (h : Sound s) {bar : HistBar} {rest : List Event}
    (hq : s.eventQueue = .histBar bar :: rest)
    (hreg : s.runner.getter.reqIdSym.lookup bar.id = s.sent.lookup bar.id) :
    Sound
      { s with
        runner := { s.runner with getter := s.runner.getter.processHistBar bar }
        eventQueue := rest } := by
  have hsent : bar.id ∈ s.sent := h.events _ (hq ▸ List.mem_cons_self) _ rfl
  obtain ⟨symbol, hsym⟩ := Table.mem_iff_lookup.mp hsent
  have hbar : s.runner.getter.processHistBar bar =
      { s.runner.getter with
        symData :=
          s.runner.getter.symData.insert symbol (s.runner.getter.data symbol ++ [bar]) } := by
    simp [HistBarGetter.processHistBar, hreg, hsym]
  have hdata : ∀ symbol', (s.runner.getter.processHistBar bar).data symbol' =
      if symbol' = symbol then s.runner.getter.data symbol ++ [bar]
      else s.runner.getter.data symbol' := by
    intro symbol'
    rw [hbar, HistBarGetter.data, Table.lookup_insert_ite]
    split <;> rfl
  have hcallback := h.callback (g := s.runner.getter.processHistBar bar)
    (by rw [hbar]; exact ⟨rfl, rfl, rfl, rfl⟩) ?_ ?_
  · refine hcallback.pop hq rfl fun b hb => ?_
    cases hb
    refine ⟨symbol, hsym, bar, ?_, rfl⟩
    change bar ∈ (s.runner.getter.processHistBar bar).data symbol
    simp [hdata]
  · intro symbol' b hb
    refine ⟨b, ?_, rfl⟩
    rw [hdata]
    split
    · next he => exact List.mem_append_left _ (he ▸ hb)
    · exact hb
  · rw [hbar]
    exact h.success

theorem next_chunk (h : Sound s) {symbol : String}
    (hmore : s.runner.getter.chunkId symbol + 1 ≤ (s.runner.getter.chunks symbol).length)
    (s' : String) :
    ((nextChunk? s.runner.getter symbol).toList.countP fun c => c.symbol = s') =
      if s' = symbol ∧
          s.runner.getter.chunkId symbol + 1 ≠ (s.runner.getter.chunks symbol).length
        then 1 else 0 := by
  rw [nextChunk?]
  by_cases hlast : s.runner.getter.chunkId symbol + 1 = (s.runner.getter.chunks symbol).length
  · rw [List.getElem?_eq_none (by omega)]
    simp [hlast]
  · have hc := List.getElem?_eq_getElem
      (by omega : s.runner.getter.chunkId symbol + 1 < (s.runner.getter.chunks symbol).length)
    simp [hc, h.chunk_symbol hc, hlast, eq_comm]

/-- The end of a request queues the next chunk of its symbol, if there is one. -/
theorem advance (h : Sound s) {data : HistBarEnd} {rest : List Event} {symbol : String}
    (hq : s.eventQueue = .histBarEnd data :: rest) (hsym : s.sent.lookup data.id = some symbol) :
    Sound
      { s with
        runner := { s.runner with getter := advanced s.runner.getter symbol }
        eventQueue := rest } := by
  have hout : data.id ∈ outstanding s := head_outstanding hq rfl
  obtain ⟨hpc, hmore, hone⟩ := h.unfinished hout hsym
  have hlt : s.runner.getter.chunkId symbol + 1 ≤ (s.runner.getter.chunks symbol).length :=
    Nat.lt_of_le_of_ne (h.chunkId symbol) hmore
  have hchunks : ∀ s', (advanced s.runner.getter symbol).chunks s' = s.runner.getter.chunks s' :=
    fun _ => rfl
  refine
    { h with
      idle := fun hidle => absurd hidle hpc
      chunkId := ?_
      counted := ?_
      events := ?_
      order := ?_
      collected := ?_
      success := ?_ }
  · intro s'
    simp only [advanced_chunkId, hchunks]
    split
    · next he =>
      rw [he]
      exact hlt
    · exact h.chunkId s'
  · intro s'
    have hcounted := h.counted s'
    have hnext := h.next_chunk hlt s'
    have hdue : due { s.runner with getter := advanced s.runner.getter symbol } s' =
        if (advanced s.runner.getter symbol).chunkId s' = (s.runner.getter.chunks s').length then 0
        else 1 :=
      due_begun (r := { s.runner with getter := advanced s.runner.getter symbol }) hpc s'
    refine Eq.trans ?_ hdue.symm
    simp only [tokens, outstanding, hq, List.filterMap_cons, endId?, List.countP_append,
      List.countP_cons, hsym, Option.some.injEq, due_begun hpc, decide_eq_true_eq] at hone hcounted
    simp only [tokens, outstanding, advanced_chunkId]
    simp only [advanced, List.countP_append, hnext]
    by_cases hs : s' = symbol
    · subst hs
      simp only [if_true, true_and, ne_eq, ite_not] at hone ⊢
      split <;> omega
    · simp only [Ne.symm hs, hs, if_false, false_and] at hcounted ⊢
      omega
  · exact fun e he => h.events e (hq ▸ List.mem_cons_of_mem _ he)
  · have horder := h.order
    rw [hq] at horder
    exact horder.of_cons
  · intro bar hbar
    refine (h.collected bar hbar).imp_left fun hmem => ?_
    rw [hq] at hmem
    exact (List.mem_cons.mp hmem).resolve_left (by simp)
  · intro s' hsuc
    have hne : s' ≠ symbol := fun he => h.not_success hout hsym (he ▸ hsuc)
    simp only [advanced_chunkId, hchunks, if_neg hne]
    exact h.success s' hsuc

theorem gathered (h : Sound s) {data : HistBarEnd} {rest : List Event} {symbol : String}
    (hq : s.eventQueue = .histBarEnd data :: rest) (hsym : s.sent.lookup data.id = some symbol)
    {bar : HistBar} (hbar : bar ∈ s.delivered) (hbarSym : s.sent.lookup bar.id = some symbol) :
    ∃ b ∈ s.runner.getter.data symbol, b.time = bar.time := by
  obtain hmem | ⟨symbol', hsym', hdata⟩ := h.collected bar hbar
  · have horder := h.order
    rw [hq, List.pairwise_cons] at horder
    rw [hq] at hmem
    have hrest := (List.mem_cons.mp hmem).resolve_left (by simp)
    exact absurd hbarSym (horder.1 _ hrest data.id bar.id symbol rfl rfl hsym)
  · cases hsym'.symm.trans hbarSym
    exact hdata

theorem complete (h : Sound s) {data : HistBarEnd} {outcome : Outcome} {rest : List Event}
    {symbol : String} (hq : s.eventQueue = .histBarEnd data :: rest)
    (hsym : s.sent.lookup data.id = some symbol)
    (hlast : s.runner.getter.chunkId symbol + 1 = (s.runner.getter.chunks symbol).length)
    (hsort : SortOf (s.runner.getter.data symbol) outcome.sorted) :
    Sound
      { s with
        runner :=
          { s.runner with getter := (advanced s.runner.getter symbol).complete symbol outcome }
        eventQueue := rest } := by
  have hout : data.id ∈ outstanding s := head_outstanding hq rfl
  have hadvanced := h.advance hq hsym
  have hrows : ∀ b ∈ s.runner.getter.data symbol, ∃ b' ∈ unique outcome.sorted, b'.time = b.time :=
    fun b hb => mem_unique_time (hsort.1.mem_iff.mpr hb)
  apply hadvanced.callback (complete_sameRequests _ _ _)
  · intro s' b hb
    rw [HistBarGetter.data, complete_symData, Table.lookup_insert_ite]
    split
    · next he => exact hrows b (he ▸ hb)
    · exact ⟨b, hb, rfl⟩
  · intro s' hsuc
    obtain ⟨hbefore, hwritten⟩ | ⟨rfl, hwritten⟩ := complete_success hsuc
    · have hne : s' ≠ symbol := fun he => h.not_success hout hsym (he ▸ hbefore)
      rw [hwritten hne]
      exact hadvanced.success s' hbefore
    · refine ⟨?_, _, hwritten, ?_⟩
      · exact (advanced_chunkId _ _ _).trans ((if_pos rfl).trans hlast)
      · intro bar hbar hbarSym
        obtain ⟨b, hb, htime⟩ := h.gathered hq hsym hbar hbarSym
        obtain ⟨row, hrow, hrowTime⟩ := hrows b hb
        exact ⟨row, hrow, hrowTime.trans htime⟩

theorem processHistBarEnd (h : Sound s) {data : HistBarEnd} {outcome : Outcome} {rest : List Event}
    {g : HistBarGetter} (hq : s.eventQueue = .histBarEnd data :: rest)
    (hreg : s.runner.getter.reqIdSym.lookup data.id = s.sent.lookup data.id)
    (hadmits : s.runner.getter.Admits data outcome)
    (hg : s.runner.getter.processHistBarEnd data outcome = .ok g) :
    Sound { s with runner := { s.runner with getter := g }, eventQueue := rest } := by
  have hsent : data.id ∈ s.sent := h.events _ (hq ▸ List.mem_cons_self) _ rfl
  have hended := processHistBarEnd_ended hg
  cases hended with
  | unknown hid =>
    rw [hreg] at hid
    exact absurd hsent (AList.lookup_eq_none.mp hid)
  | @next symbol chunk hid hlast hchunk =>
    have hadvance := h.advance hq (hreg.symm.trans hid)
    rw [advanced, nextChunk?, hchunk] at hadvance
    exact hadvance
  | @last symbol hid hlast =>
    have hlength : s.runner.getter.chunkId symbol + 1 = (s.runner.getter.chunks symbol).length := by
      simpa [HistBarGetter.completes, hid] using hlast
    have hcomplete := h.complete hq (hreg.symm.trans hid) hlength
      (hadmits symbol hlast)
    rw [advanced_last hlength] at hcomplete
    exact hcomplete

theorem run (h : Sound s) {r : Runner} {client : List ClientMsg} (hr : Ran s.runner r client) :
    Sound (s.ran r client) := by
  cases hr with
  | begin hpc horder => exact h.begin hpc horder
  | send hpc hq =>
    simpa only [Session.ran, Session.request?, hq, List.head?_cons, Option.map_some] using
      h.send hpc hq
  | register hpc => exact h.register hpc
  | finish hpc hrem => exact h.finish hpc

/-- Handling the event at the head, if no reply is discarded by that. -/
theorem handle (h : Sound s) {e : Event} {rest : List Event} {outcome : Outcome} {g : HistBarGetter}
    (hq : s.eventQueue = e :: rest) (hg : Session.handle s.runner.getter outcome e = some g)
    (hreg : ∀ id, reply? e = some id →
      s.runner.getter.reqIdSym.lookup id = s.sent.lookup id) :
    Sound { s with runner := { s.runner with getter := g }, eventQueue := rest } := by
  have hquiet : reply? e = none → Session.handle s.runner.getter outcome e = some s.runner.getter →
      Sound { s with runner := { s.runner with getter := g }, eventQueue := rest } := by
    intro he hsame
    cases hg.symm.trans hsame
    exact h.pop hq (endId?_eq_none he) fun bar hbar => by simp [hbar, reply?] at he
  cases e with
  | histBar bar =>
    cases hg
    exact h.processHistBar hq (hreg _ rfl)
  | histBarEnd data =>
    simp only [Session.handle] at hg
    split at hg
    · next hadmits =>
      exact h.processHistBarEnd hq (hreg _ rfl) hadmits (toOption_eq_some.mp hg)
    · cases hg
  | ibErrMsg msg =>
    cases hg
    have hcallback := h.callback (processErrMsg_sameRequests s.runner.getter msg) ?_ ?_
    · exact hcallback.pop hq rfl (by simp)
    · intro symbol b hb
      refine ⟨b, ?_, rfl⟩
      rw [HistBarGetter.data, processErrMsg_symData]
      exact hb
    · intro symbol hsuc
      rw [HistBarGetter.written, processErrMsg_saves]
      exact h.success symbol (processErrMsg_success hsuc)
  | _ => exact hquiet rfl rfl

end Sound

theorem Sound.step {g : HistBarGetter} {s t : Session} {a : Move} (h : Sound s)
    (ht : (session g).step s a = some t) (hdropped : t.dropped = []) : Sound t := by
  cases step_moved ht with
  | run hr => exact h.run hr
  | bar hopen => exact h.bar hopen
  | barEnd hopen => exact h.barEnd hopen
  | quiet _ hapi hes => exact h.quiet hapi hes
  | @dispatch _ e _ _ hq hg =>
    obtain ⟨hdiscarded, _⟩ := List.append_eq_nil_iff.mp hdropped
    have hsound := h.handle hq hg fun id hid => by
      have hsent := h.events e (hq ▸ List.mem_cons_self) id hid
      have hknown := discarded_eq_nil.mp hdiscarded id hid hsent
      exact h.registered id fun symbol hpc => h.unregistered id symbol hpc hknown
    exact { hsound with }

theorem sound_init {g : HistBarGetter} (hg : Fresh g) : Sound (session g).init where
  chunks := hg.chunks
  idle _ := hg.chunkId
  chunkId symbol := by simp [session, hg.chunkId symbol]
  counted symbol := by simp [session, tokens, outstanding, due, hg.queue]
  ids := by simp [session]
  opened := by simp [session]
  events := by simp [session]
  awaited := by simp [session]
  registered id _ := by simp [session, hg.registered]
  unregistered := by simp [session]
  order := .nil
  collected := by simp [session]
  success symbol hsuc := by simp [session, HistBarGetter.status, hg.status] at hsuc

end CalmTrading.DownloadSound
