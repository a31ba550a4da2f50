import CalmTrading.DownloadCount
import CalmTrading.CompleteDownload
import CalmTrading.RequestVector

namespace CalmTrading.SavedDownloads

open Lib Objects Utils Gateway HistoricalData HistoricalInit Download DownloadSession
open DownloadSound DownloadReplies DownloadSequence CompleteDownload RequestVector
open DownloadCount (inProg inProg_fresh complete_remaining)

def deliveredOf (s : Sequence) (symbol : String) : List HistBar :=
  s.session.delivered.filter fun bar => s.session.sent.lookup bar.id = some symbol

def bar? : Event → Option HistBar
  | .histBar bar => some bar
  | _ => none

theorem barId?_of_bar? {e : Event} {bar : HistBar} (h : bar? e = some bar) :
    barId? e = some bar.id := by
  cases e <;> simp_all [bar?, barId?]

def waitingOf (s : Sequence) (symbol : String) : List HistBar :=
  (s.session.eventQueue.filterMap bar?).filter fun bar =>
    s.session.sent.lookup bar.id = some symbol

/-- A file holds the bars that came for its symbol, sorted and without repeated
times. -/
structure File (s : Sequence) (w : Save) : Prop where
  path : w.path = s.getter.savePath w.symbol
  merged : w.merged.Perm (deliveredOf s w.symbol)
  rows : ∃ sorted, SortOf w.merged sorted ∧ w.rows = unique sorted
  saving : w.saving = .ok

theorem File.frame {s t : Sequence} {w : Save} (h : File s w)
    (hsymReq : t.getter.symReq = s.getter.symReq) (hsent : t.session.sent = s.session.sent)
    (hdelivered : t.session.delivered = s.session.delivered) : File t w where
  path := by rw [HistBarGetter.savePath, hsymReq, h.path, HistBarGetter.savePath]
  merged := by
    rw [deliveredOf, hsent, hdelivered]
    exact h.merged
  rows := h.rows
  saving := h.saving

/-- The symbols whose chunks have all ended are those with a file, and these are
the ones that are not in progress. -/
structure Filed (g : HistBarGetter) (s : Sequence) : Prop where
  symReq : s.getter.symReq = g.symReq
  symChunks : s.getter.symChunks = g.symChunks
  bars : ∀ symbol, symbol ∉ s.saves →
    (deliveredOf s symbol).Perm
      (s.getter.data symbol ++ waitingOf s symbol)
  files : ∀ w ∈ s.getter.saves, File s w
  saves : ∀ symbol, symbol ∈ s.saves ↔
    symbol ∈ s.getter.symChunks ∧
      s.getter.chunkId symbol = (s.getter.chunks symbol).length
  status : ∀ symbol, s.getter.status symbol =
    if symbol ∈ s.saves then .success else .inProg
  remaining : s.getter.remaining = inProg s.getter
  done : s.session.runner.pc = .done →
    ∀ symbol ∈ s.getter.symChunks, symbol ∈ s.saves

namespace Filed

variable {g : HistBarGetter} {s : Sequence}

theorem notMem_saves (h : Filed g s) (hseq : Sequenced s) {id : Int} {symbol : String}
    (hid : id ∈ outstanding s.session)
    (hsym : s.session.sent.lookup id = some symbol) : symbol ∉ s.saves := by
  intro hsaved
  have hmore := (hseq.alone hid hsym).2.2.2
  have hall := ((h.saves symbol).mp hsaved).2
  omega

theorem issued (h : Filed g s) (hseq : Sequenced s) (hrouted : Routed s)
    {req : IBHistBarReq} {rest : List IBHistBarReq} (hpc : s.session.runner.pc = .loop)
    (hq : s.getter.q = req :: rest) :
    Filed g (issued s req rest) := by
  have ht := issued_sending hpc hq
  have hdelivered : ∀ symbol,
      deliveredOf (CompleteDownload.issued s req rest) symbol =
        deliveredOf s symbol := by
    intro symbol
    refine List.filter_congr fun bar hbar => ?_
    rw [ht.lookup_sent (hseq.drawn bar.id (.inr (hrouted.delivered bar hbar)))]
  have hwaiting : ∀ symbol,
      waitingOf (CompleteDownload.issued s req rest) symbol =
        waitingOf s symbol := by
    intro symbol
    refine List.filter_congr fun bar hbar => ?_
    obtain ⟨e, he, hbar⟩ := List.mem_filterMap.mp hbar
    have hreply := reply?_of_barId? (barId?_of_bar? hbar)
    rw [ht.lookup_sent (hrouted.fresh e he bar.id hreply)]
  have hunsaved : req.symbol ∉ s.saves := by
    intro hsaved
    have hall := ((h.saves req.symbol).mp hsaved).2
    have hrow := hseq.length_row ht.begun req.symbol
    have hlength := hseq.length_sendsOf ht
    rw [ht.queuedOf, if_pos rfl, List.length_append, List.length_singleton] at hrow
    omega
  refine { h with bars := ?_, files := ?_, done := fun hdone => by simp [ht.pc] at hdone }
  · intro symbol hsymbol
    rw [hdelivered, hwaiting]
    exact h.bars symbol hsymbol
  · intro w hw
    have hfile := h.files w hw
    have hne : req.symbol ≠ w.symbol := by
      rintro he
      exact hunsaved (he ▸ List.mem_map_of_mem hw)
    refine { hfile with merged := ?_ }
    rw [hdelivered]
    exact hfile.merged

theorem finish (h : Filed g s) (hrem : s.getter.remaining = 0) :
    Filed g { s with session.runner.pc := .done } := by
  refine
    { h with
      files := fun w hw => (h.files w hw).frame rfl rfl rfl
      done := fun _ symbol hsymbol => ?_ }
  have hnone : inProg s.getter = 0 := by
    have hcount := h.remaining
    omega
  rw [inProg, List.countP_eq_zero] at hnone
  have hstatus := hnone symbol (AList.mem_keys.mp hsymbol)
  by_contra hunsaved
  have hstill : symbol ∉ s.saves := hunsaved
  rw [h.status symbol, if_neg hstill] at hstatus
  simp at hstatus

theorem bar (h : Filed g s) (hseq : Sequenced s) {bar : HistBar}
    (hopen : bar.id ∈ s.session.opened) :
    Filed g
      { s with
        session.eventQueue := s.session.eventQueue ++ [.histBar bar]
        session.delivered := bar :: s.session.delivered } := by
  refine { h with bars := ?_, files := ?_ }
  · intro symbol hsymbol
    have hbars := h.bars symbol hsymbol
    change (List.filter _ (bar :: s.session.delivered)).Perm
      (s.getter.data symbol ++
        ((s.session.eventQueue ++ [Event.histBar bar]).filterMap bar?).filter _)
    rw [List.filterMap_append, List.filter_append, ← List.append_assoc]
    by_cases hsym : s.session.sent.lookup bar.id = some symbol
    · have hone : ([Event.histBar bar].filterMap bar?).filter (fun b =>
          s.session.sent.lookup b.id = some symbol) = [bar] := by
        simp [bar?, hsym]
      rw [hone, List.filter_cons_of_pos (by simpa using hsym)]
      exact (hbars.cons bar).trans (List.perm_append_singleton bar _).symm
    · have hnone : ([Event.histBar bar].filterMap bar?).filter (fun b =>
          s.session.sent.lookup b.id = some symbol) = [] := by
        simp [bar?, hsym]
      rw [hnone, List.filter_cons_of_neg (by simpa using hsym), List.append_nil]
      exact hbars
  · intro w hw
    have hfile := h.files w hw
    refine { hfile with merged := ?_ }
    have hsaved : w.symbol ∈ s.saves := List.mem_map_of_mem hw
    have hother : s.session.sent.lookup bar.id ≠ some w.symbol := fun hsym =>
      h.notMem_saves hseq (List.mem_append_left _ hopen) hsym hsaved
    simpa [deliveredOf, hother] using hfile.merged

/-- Events other than bars of the download. -/
theorem append (h : Filed g s) {es : List Event}
    (hes : ∀ e ∈ es, ∀ bar, bar? e = some bar → bar.id ∉ s.session.sent)
    {api : IBApi} {opened : List Int} :
    Filed g
      { s with
        session.runner.api := api
        session.opened := opened
        session.eventQueue := s.session.eventQueue ++ es } := by
  refine
    { h with
      bars := fun symbol hsymbol => ?_
      files := fun w hw => (h.files w hw).frame rfl rfl rfl }
  have hnone : (es.filterMap bar?).filter (fun bar =>
      s.session.sent.lookup bar.id = some symbol) = [] := by
    rw [List.filter_eq_nil_iff]
    intro bar hbar hsym
    obtain ⟨e, he, hbar⟩ := List.mem_filterMap.mp hbar
    exact hes e he bar hbar (Table.mem_iff_lookup.mpr ⟨symbol, of_decide_eq_true hsym⟩)
  change (deliveredOf s symbol).Perm (s.getter.data symbol ++
    ((s.session.eventQueue ++ es).filterMap bar?).filter _)
  rw [List.filterMap_append, List.filter_append, hnone, List.append_nil]
  exact h.bars symbol hsymbol

theorem waitingOf_pop {s : Sequence} {e : Event} {rest : List Event}
    (hq : s.session.eventQueue = e :: rest) (symbol : String) :
    waitingOf s symbol =
      ((bar? e).toList.filter fun bar => s.session.sent.lookup bar.id = some symbol) ++
        (rest.filterMap bar?).filter fun bar => s.session.sent.lookup bar.id = some symbol := by
  rw [waitingOf, hq]
  cases hbar : bar? e with
  | none => simp [hbar]
  | some bar =>
    by_cases hsym : s.session.sent.lookup bar.id = some symbol <;>
      simp [hbar, hsym]

theorem pop (h : Filed g s) {e : Event} {rest : List Event}
    (hq : s.session.eventQueue = e :: rest)
    (hbar : ∀ bar, bar? e = some bar → bar.id ∉ s.session.sent)
    {ends dropped : List Int} :
    Filed g
      { s with
        session.eventQueue := rest
        session.dropped := dropped
        ends := ends } := by
  refine
    { h with
      bars := fun symbol hsymbol => ?_
      files := fun w hw => (h.files w hw).frame rfl rfl rfl }
  have hnone : ((bar? e).toList.filter fun bar =>
      s.session.sent.lookup bar.id = some symbol) = [] := by
    rw [List.filter_eq_nil_iff]
    intro bar hmem hsym
    exact hbar bar (Option.mem_toList.mp hmem)
      (Table.mem_iff_lookup.mpr ⟨symbol, of_decide_eq_true hsym⟩)
  have hbars := h.bars symbol hsymbol
  rw [waitingOf_pop hq, hnone, List.nil_append] at hbars
  exact hbars

theorem collect (h : Filed g s) {bar : HistBar} {symbol : String} {rest : List Event}
    (hq : s.session.eventQueue = .histBar bar :: rest)
    (hsym : s.session.sent.lookup bar.id = some symbol) {ends dropped : List Int} :
    Filed g
      { s with
        session.runner.getter :=
          { s.getter with
            symData :=
              s.getter.symData.insert symbol (s.getter.data symbol ++ [bar]) }
        session.eventQueue := rest
        session.dropped := dropped
        ends := ends } := by
  refine
    { h with
      bars := fun symbol' hsymbol' => ?_
      files := fun w hw => (h.files w hw).frame rfl rfl rfl }
  have hbars := h.bars symbol' hsymbol'
  rw [waitingOf_pop hq] at hbars
  change (deliveredOf s symbol').Perm
    (((s.getter.symData.insert symbol (s.getter.data symbol ++ [bar])).lookup
      symbol').getD [] ++ (rest.filterMap bar?).filter _)
  rw [Table.lookup_insert_ite]
  by_cases hs : symbol' = symbol
  · subst hs
    simpa [bar?, hsym] using hbars
  · simpa [bar?, hsym, hs, Ne.symm hs, HistBarGetter.data] using hbars

/-- Every symbol with chunks left has no file. -/
theorem next (h : Filed g s) (hseq : Sequenced s) {barEnd : HistBarEnd} {symbol : String}
    {rest : List Event} (hq : s.session.eventQueue = .histBarEnd barEnd :: rest)
    (hsym : s.session.sent.lookup barEnd.id = some symbol)
    (hmore : s.getter.chunkId symbol + 1 ≠ (s.getter.chunks symbol).length)
    {ends dropped : List Int} :
    Filed g
      { s with
        session.runner.getter := advanced s.getter symbol
        session.eventQueue := rest
        session.dropped := dropped
        ends := ends } := by
  have hout : barEnd.id ∈ outstanding s.session := head_outstanding hq rfl
  have hunsaved := h.notMem_saves hseq hout hsym
  refine
    { h with
      bars := fun symbol' hsymbol' => ?_
      files := fun w hw => (h.files w hw).frame rfl rfl rfl
      saves := fun symbol' => ?_ }
  · have hbars := h.bars symbol' hsymbol'
    rw [waitingOf_pop hq] at hbars
    exact hbars
  · change symbol' ∈ s.saves ↔ symbol' ∈ s.getter.symChunks ∧
      (advanced s.getter symbol).chunkId symbol' =
        (s.getter.chunks symbol').length
    rw [advanced_chunkId]
    by_cases hs : symbol' = symbol
    · subst hs
      simp [hunsaved, hmore]
    · rw [if_neg hs]
      exact h.saves symbol'

theorem complete_saved {p : HistBarGetter} {symbol : String} {outcome : Outcome}
    (hsaving : outcome.saving = .ok) (hin : p.status symbol = .inProg) :
    (p.complete symbol outcome).symReq = p.symReq ∧
      ∀ symbol', (p.complete symbol outcome).status symbol' =
        if symbol' = symbol then .success else p.status symbol' := by
  have hin' : (p.processData symbol outcome).status symbol = .inProg := hin
  rw [HistBarGetter.complete, hsaving]
  dsimp only
  rw [if_pos hin']
  refine ⟨rfl, fun symbol' => ?_⟩
  change ((p.symStatus.insert symbol .success).lookup symbol').getD .inProg = _
  rw [Table.lookup_insert_ite]
  split <;> rfl

theorem waitingOf_end {s : Sequence} (hrouted : Routed s) {barEnd : HistBarEnd} {symbol : String}
    {rest : List Event} (hq : s.session.eventQueue = .histBarEnd barEnd :: rest)
    (hsym : s.session.sent.lookup barEnd.id = some symbol) : waitingOf s symbol = [] := by
  have horder := hrouted.order
  rw [hq, List.pairwise_cons] at horder
  have hnone : bar? (.histBarEnd barEnd) = none := rfl
  rw [waitingOf_pop hq, hnone, Option.toList_none, List.filter_nil, List.nil_append,
    List.filter_eq_nil_iff]
  intro bar hbar hbarSym
  obtain ⟨e, he, hbar⟩ := List.mem_filterMap.mp hbar
  exact horder.1 e he barEnd.id bar.id symbol rfl (barId?_of_bar? hbar) hsym
    (of_decide_eq_true hbarSym)

/-- The last end of a symbol writes its file, with all the bars that came for it. -/
theorem last (h : Filed g s) (hseq : Sequenced s) (hrouted : Routed s)
    {barEnd : HistBarEnd} {symbol : String} {rest : List Event} {outcome : Outcome}
    (hq : s.session.eventQueue = .histBarEnd barEnd :: rest)
    (hsym : s.session.sent.lookup barEnd.id = some symbol)
    (hlast : s.getter.chunkId symbol + 1 = (s.getter.chunks symbol).length)
    (hsort : SortOf (s.getter.data symbol) outcome.sorted)
    (hsaving : outcome.saving = .ok) {ends dropped : List Int} :
    Filed g
      { s with
        session.runner.getter := (advanced s.getter symbol).complete symbol outcome
        session.eventQueue := rest
        session.dropped := dropped
        ends := ends } := by
  have hout : barEnd.id ∈ outstanding s.session := head_outstanding hq rfl
  have hunsaved := h.notMem_saves hseq hout hsym
  have hin : (advanced s.getter symbol).status symbol = .inProg :=
    (h.status symbol).trans (if_neg hunsaved)
  have hlisted : symbol ∈ s.getter.symChunks := by
    have hpos : 0 < (s.getter.chunks symbol).length := by omega
    obtain ⟨cs, hcs, _⟩ := mem_chunks (List.getElem_mem hpos)
    exact Table.mem_iff_lookup.mpr ⟨cs, hcs⟩
  obtain ⟨hsymReq, hstatus⟩ := complete_saved hsaving hin
  have hsame := complete_sameRequests (advanced s.getter symbol) symbol outcome
  have hdata := complete_symData (advanced s.getter symbol) symbol outcome
  have hsaves : ((advanced s.getter symbol).complete symbol outcome).saves = s.getter.saves ++
      [{ symbol := symbol
         path := s.getter.savePath symbol
         merged := s.getter.data symbol
         rows := unique outcome.sorted
         saving := .ok }] := by
    rw [complete_saves, HistBarGetter.processData, hsaving]
    rfl
  have hrem : ((advanced s.getter symbol).complete symbol outcome).remaining =
      inProg ((advanced s.getter symbol).complete symbol outcome) :=
    (complete_remaining (g := advanced s.getter symbol) hlisted h.remaining).mpr
      fun _ => by simp [hsaving]
  generalize (advanced s.getter symbol).complete symbol outcome = p at *
  have hsaved : p.saves.map Save.symbol = s.saves ++ [symbol] := by
    rw [hsaves, List.map_append]
    rfl
  refine
    { symReq := hsymReq.trans h.symReq
      symChunks := hsame.symChunks.trans h.symChunks
      bars := ?_
      files := ?_
      saves := ?_
      status := ?_
      remaining := hrem
      done := ?_ }
  · intro symbol' hsymbol'
    change symbol' ∉ p.saves.map Save.symbol at hsymbol'
    rw [hsaved, List.mem_append, List.mem_singleton, not_or] at hsymbol'
    obtain ⟨hbefore, hne⟩ := hsymbol'
    have hbars := h.bars symbol' hbefore
    rw [waitingOf_pop hq] at hbars
    change (deliveredOf s symbol').Perm
      ((p.symData.lookup symbol').getD [] ++ (rest.filterMap bar?).filter _)
    rw [hdata, Table.lookup_insert_ite, if_neg hne]
    exact hbars
  · intro w hw
    change w ∈ p.saves at hw
    rw [hsaves] at hw
    obtain hw | hw := List.mem_append.mp hw
    · exact (h.files w hw).frame hsymReq rfl rfl
    · rw [List.mem_singleton.mp hw]
      have hbars := h.bars symbol hunsaved
      rw [waitingOf_end hrouted hq hsym, List.append_nil] at hbars
      exact ⟨congrArg (fun t => (t.lookup symbol).elim "" HistBarReq.savePath) hsymReq.symm,
        hbars.symm, ⟨outcome.sorted, hsort, rfl⟩, rfl⟩
  · intro symbol'
    change symbol' ∈ p.saves.map Save.symbol ↔
      symbol' ∈ p.symChunks ∧ p.chunkId symbol' = (p.chunks symbol').length
    rw [hsaved, hsame.symChunks, hsame.chunkId, hsame.chunks, advanced_chunkId, List.mem_append,
      List.mem_singleton]
    by_cases hs : symbol' = symbol
    · subst hs
      exact iff_of_true (.inr rfl) ⟨hlisted, (if_pos rfl).trans hlast⟩
    · rw [if_neg hs, or_iff_left hs]
      exact h.saves symbol'
  · intro symbol'
    change p.status symbol' = if symbol' ∈ p.saves.map Save.symbol then _ else _
    rw [hstatus, hsaved]
    by_cases hs : symbol' = symbol
    · simp [hs]
    · simp only [hs, if_false, List.mem_append, List.mem_singleton, or_false]
      exact h.status symbol'
  · intro hdone symbol' hsymbol'
    change symbol' ∈ p.symChunks at hsymbol'
    change symbol' ∈ p.saves.map Save.symbol
    rw [hsame.symChunks] at hsymbol'
    rw [hsaved]
    exact List.mem_append_left _ (h.done hdone symbol' hsymbol')

theorem step (h : Filed g s) (hseq : Sequenced s) (hrouted : Routed s)
    {t : Sequence} (ht : Stepped s t) : Filed g t := by
  cases ht with
  | begin hpc =>
    exact
      { h with
        files := fun w hw => (h.files w hw).frame rfl rfl rfl
        done := by simp }
  | send hpc hq => exact h.issued hseq hrouted hpc hq
  | register hpc =>
    exact
      { h with
        files := fun w hw => (h.files w hw).frame rfl rfl rfl
        done := by simp }
  | finish hpc hrem => exact h.finish hrem
  | bar hopen => exact h.bar hseq hopen
  | barEnd hopen =>
    refine h.append fun e he bar hbar => ?_
    cases List.mem_singleton.mp he
    cases hbar
  | others hapi hes =>
    exact h.append fun e he bar hbar =>
      (hes e he bar.id (reply?_of_barId? (barId?_of_bar? hbar))).2
  | @handle outcome e rest g' ends dropped hq hrecorded hhandle hg =>
    have hreg : ∀ id ∈ reply? e,
        s.getter.reqIdSym.lookup id = s.session.sent.lookup id :=
      fun id hid => hrouted.registered id (hrecorded id hid)
    cases hg with
    | ignored he =>
      refine h.pop hq fun bar hbar hsent => ?_
      have hid := reply?_of_barId? (barId?_of_bar? hbar)
      exact AList.lookup_eq_none.mp ((hreg bar.id hid).symm.trans (he bar.id hid)) hsent
    | @bar bar symbol hid => exact h.collect hq ((hreg bar.id rfl).symm.trans hid)
    | @next barEnd symbol hid hmore =>
      exact h.next hseq hq ((hreg barEnd.id rfl).symm.trans hid) hmore
    | @last barEnd symbol hid hlast hsort hsaving =>
      exact h.last hseq hrouted hq ((hreg barEnd.id rfl).symm.trans hid) hlast hsort hsaving

end Filed

theorem filed {cal : Calendar} {days : Int} {reqs : List HistBarReq} {g : HistBarGetter}
    (hinit : HistBarGetter.init cal days reqs = .ok g) {s : Sequence}
    (hs : (sequence g).Reaches Complete s) : Filed g s := by
  obtain ⟨hg, hrem⟩ := init_fresh hinit
  refine Machine.Reaches.invariant (I := Filed g) ?_ ?_ hs
  · refine
      { symReq := rfl
        symChunks := rfl
        bars := fun symbol hsymbol => ?_
        files := by simp [DownloadSequence.sequence, session, Sequence.getter, hg.saves]
        saves := fun symbol => ?_
        status := fun symbol => ?_
        remaining := ?_
        done := by simp [DownloadSequence.sequence, session] }
    · simp [DownloadSequence.sequence, session, deliveredOf, waitingOf, Sequence.getter,
        HistBarGetter.data, hg.symData]
    · have hchunks : symbol ∈ g.symChunks → (g.chunks symbol).length ≠ 0 := fun hsymbol => by
        obtain ⟨cs, hcs⟩ := Table.mem_iff_lookup.mp hsymbol
        simpa [HistBarGetter.chunks, hcs] using (hg.chunks symbol cs hcs).1
      have hnone : symbol ∉ Sequence.saves (sequence g).init := by
        simp [DownloadSequence.sequence, session, Sequence.saves, Sequence.getter, hg.saves]
      refine iff_of_false hnone fun hended => ?_
      exact hchunks hended.1 (hended.2.symm.trans (hg.chunkId symbol))
    · simp [DownloadSequence.sequence, session, Sequence.saves, Sequence.getter,
        HistBarGetter.status, hg.status, hg.saves]
    · exact hrem.trans (congrArg Nat.cast (inProg_fresh hg).symm)
  · intro s a t hs h hok ht
    exact h.step (sequenced hg hs.reachable) (routed hg hs) (sequence_stepped hok ht)

/-- `run` has returned, or it waits with nothing to send and no reply to come. -/
def Over (s : Sequence) : Prop :=
  s.session.runner.pc = .done ∨
    s.session.runner.pc = .loop ∧ s.getter.q = [] ∧
      ∀ id ∈ outstanding s.session, id ∉ s.session.sent

theorem Filed.over {g : HistBarGetter} {s : Sequence} (h : Filed g s) (hseq : Sequenced s)
    (hrouted : Routed s) (hover : Over s) :
    ∀ symbol ∈ s.getter.symChunks, symbol ∈ s.saves := by
  obtain hdone | ⟨hloop, hq, hnone⟩ := hover
  · exact h.done hdone
  intro symbol hsymbol
  have hended : (s.sendsOf symbol).length ≤ s.getter.chunkId symbol := by
    by_contra hlt
    obtain ⟨id, hid, hsym⟩ := hrouted.live symbol (Nat.lt_of_not_le hlt)
    exact hnone id hid (Table.mem_iff_lookup.mpr ⟨symbol, hsym⟩)
  have hqueued : s.queuedOf symbol = [] := by
    rw [Sequence.queuedOf, hq, List.filter_nil]
  have hrow := hseq.length_row (by simp [hloop]) symbol
  rw [hqueued, List.length_nil] at hrow
  have hbounded := hseq.bounded symbol
  exact (h.saves symbol).mpr ⟨hsymbol, by omega⟩

section Files

variable {F : Type} [DecidableEq F] (file : String → F)

/-- What the file at a path was made of: opening it for a symbol replaces what an
earlier call of `process_data` wrote to it. -/
def fileAt (saves : List Save) (path : String) : Option Save :=
  saves.reverse.find? fun w => file w.path = file path

/-- The file at the path of the request was written for its symbol, with the bars
of its own chunks. -/
def SavedFor (cal : Calendar) (days : Int) (s : Sequence) (barReq : HistBarReq) : Prop :=
  ∃ w, fileAt file s.getter.saves barReq.savePath = some w ∧
    w.symbol = barReq.symbol ∧ w.saving = .ok ∧
    (s.sendsOf barReq.symbol).map Prod.snd = chunksOf cal days barReq ∧
    w.merged.Perm
      (s.session.delivered.filter fun bar =>
        bar.id ∈ (s.sendsOf barReq.symbol).map Prod.fst) ∧
    ∃ sorted, SortOf w.merged sorted ∧ w.rows = unique sorted

/-- The file that the download of a symbol goes to: `sym_req` holds the last
request. -/
def target (reqs : List HistBarReq) (symbol : String) : Option F :=
  (lastReq reqs symbol).map fun barReq => file barReq.savePath

/-- The last request for the symbol names the same file, the last one with a range
has the same chunks, and the file is that of no other symbol. -/
structure Agrees (cal : Calendar) (days : Int) (reqs : List HistBarReq) (barReq : HistBarReq) :
    Prop where
  path : target file reqs barReq.symbol = some (file barReq.savePath)
  chunks :
    (lastNonEmpty cal reqs barReq.symbol).map (chunksOf cal days) = some (chunksOf cal days barReq)
  alone : ∀ other ∈ reqs, NonEmpty cal other → other.symbol ≠ barReq.symbol →
    target file reqs other.symbol ≠ some (file barReq.savePath)

omit [DecidableEq F] in
theorem agrees_iff {cal : Calendar} {days : Int} {reqs : List HistBarReq} {barReq : HistBarReq} :
    Agrees file cal days reqs barReq ↔
      target file reqs barReq.symbol = some (file barReq.savePath) ∧
        (lastNonEmpty cal reqs barReq.symbol).map (chunksOf cal days) =
          some (chunksOf cal days barReq) ∧
        ∀ other ∈ reqs, NonEmpty cal other → other.symbol ≠ barReq.symbol →
          target file reqs other.symbol ≠ some (file barReq.savePath) :=
  ⟨fun h => ⟨h.path, h.chunks, h.alone⟩, fun h => ⟨h.1, h.2.1, h.2.2⟩⟩

instance (cal : Calendar) (days : Int) (reqs : List HistBarReq) (barReq : HistBarReq) :
    Decidable (Agrees file cal days reqs barReq) :=
  decidable_of_iff' _ (agrees_iff file)

theorem Filed.requests {g : HistBarGetter} {s : Sequence} (h : Filed g s) (hseq : Sequenced s)
    {symbol : String} (hsaved : symbol ∈ s.saves) :
    symbol ∈ s.getter.symChunks ∧
      (s.sendsOf symbol).map Prod.snd = s.getter.chunks symbol := by
  obtain ⟨hlisted, hall⟩ := (h.saves symbol).mp hsaved
  refine ⟨hlisted, ?_⟩
  by_cases hpc : s.session.runner.pc = .idle
  · obtain ⟨hnil, _, hzero⟩ := hseq.idle hpc
    rw [hzero] at hall
    rw [List.eq_nil_of_length_eq_zero hall.symm, Sequence.sendsOf, hnil]
    rfl
  · have hrow := hseq.row hpc symbol
    have hlength := hseq.length_row hpc symbol
    have hcount := hseq.count symbol
    have hqueued : s.queuedOf symbol = [] :=
      List.eq_nil_of_length_eq_zero (by omega)
    rw [hqueued, List.append_nil, List.take_of_length_le (by omega)] at hrow
    exact hrow

theorem deliveredOf_eq {s : Sequence} (hrouted : Routed s) (symbol : String) :
    deliveredOf s symbol =
      s.session.delivered.filter fun bar => bar.id ∈ (s.sendsOf symbol).map Prod.fst :=
  List.filter_congr fun bar _ => by rw [decide_eq_decide, hrouted.sends]

theorem fileAt_mem {saves : List Save} {path : String} {w : Save}
    (h : fileAt file saves path = some w) : w ∈ saves ∧ file w.path = file path :=
  ⟨List.mem_reverse.mp (List.mem_of_find?_eq_some h), by simpa using List.find?_some h⟩

theorem exists_fileAt {saves : List Save} {w : Save} (hw : w ∈ saves) {path : String}
    (hpath : file w.path = file path) : ∃ w', fileAt file saves path = some w' := by
  rw [← Option.isSome_iff_exists, fileAt, List.find?_isSome]
  exact ⟨w, List.mem_reverse.mpr hw, by simpa using hpath⟩

omit [DecidableEq F] in
theorem Filed.target_eq {cal : Calendar} {days : Int} {reqs : List HistBarReq} {g : HistBarGetter}
    {s : Sequence} (h : Filed g s) (hkeyed : Keyed cal days reqs g) {w : Save}
    (hw : w ∈ s.getter.saves) {barReq : HistBarReq} (hmem : barReq ∈ reqs)
    (hsymbol : w.symbol = barReq.symbol) :
    target file reqs w.symbol = some (file w.path) := by
  obtain ⟨req, hreq⟩ : ∃ req, lastReq reqs barReq.symbol = some req := by
    rw [← Option.isSome_iff_exists, lastReq, List.find?_isSome]
    exact ⟨barReq, List.mem_reverse.mpr hmem, by simp⟩
  have hpath : w.path = req.savePath := by
    rw [(h.files w hw).path, HistBarGetter.savePath, h.symReq, hkeyed.symReq, hsymbol, hreq]
    rfl
  rw [target, hsymbol, hreq, hpath]
  rfl

theorem Filed.chunks_eq {cal : Calendar} {days : Int} {reqs : List HistBarReq} {g : HistBarGetter}
    {s : Sequence} (h : Filed g s) (hkeyed : Keyed cal days reqs g) {barReq : HistBarReq}
    (hmem : barReq ∈ reqs) (hrange : NonEmpty cal barReq) :
    (lastNonEmpty cal reqs barReq.symbol).map (chunksOf cal days) =
      some (s.getter.chunks barReq.symbol) := by
  obtain ⟨ranged, hranged⟩ : ∃ ranged, lastNonEmpty cal reqs barReq.symbol = some ranged := by
    rw [← Option.isSome_iff_exists, lastNonEmpty, List.find?_isSome]
    exact ⟨barReq, List.mem_reverse.mpr hmem, by simp [hrange]⟩
  rw [HistBarGetter.chunks, h.symChunks, hkeyed.symChunks, hranged]
  rfl

/-- When the download is over, a request that agrees with the others has its file. -/
theorem Filed.savedFor {cal : Calendar} {days : Int} {reqs : List HistBarReq} {g : HistBarGetter}
    {s : Sequence} (h : Filed g s) (hkeyed : Keyed cal days reqs g) (hseq : Sequenced s)
    (hrouted : Routed s) (hover : Over s) {barReq : HistBarReq} (hmem : barReq ∈ reqs)
    (hrange : NonEmpty cal barReq) (hagrees : Agrees file cal days reqs barReq) :
    SavedFor file cal days s barReq := by
  have hlisted : barReq.symbol ∈ s.getter.symChunks :=
    h.symChunks ▸ (mem_symChunks hkeyed).mpr ⟨barReq, hmem, rfl, hrange⟩
  have hsaved := h.over hseq hrouted hover barReq.symbol hlisted
  obtain ⟨own, hown, hownSymbol⟩ := List.mem_map.mp hsaved
  have hownPath : file own.path = file barReq.savePath := by
    have hto := h.target_eq file hkeyed hown hmem hownSymbol
    rw [hownSymbol, hagrees.path] at hto
    exact (Option.some.inj hto).symm
  obtain ⟨w, hw⟩ := exists_fileAt file hown hownPath
  obtain ⟨hwmem, hwpath⟩ := fileAt_mem file hw
  -- no other symbol has written to the file since
  have hsymbol : w.symbol = barReq.symbol := by
    by_contra hne
    have hwlisted := (h.requests hseq (List.mem_map_of_mem hwmem)).1
    obtain ⟨other, hother, hsym, hotherRange⟩ :=
      (mem_symChunks hkeyed).mp (h.symChunks ▸ hwlisted)
    refine hagrees.alone other hother hotherRange (hsym ▸ hne) ?_
    rw [hsym, h.target_eq file hkeyed hwmem hother hsym.symm, hwpath]
  have hfile := h.files w hwmem
  refine ⟨w, hw, hsymbol, hfile.saving, ?_, ?_, hfile.rows⟩
  · have hchunks := h.chunks_eq hkeyed hmem hrange
    rw [hagrees.chunks] at hchunks
    rw [(h.requests hseq hsaved).2, ← Option.some.inj hchunks]
  · rw [← deliveredOf_eq hrouted, ← hsymbol]
    exact hfile.merged

/-- A request with its file agrees with the others, if each of them has its own. -/
theorem Filed.agrees {cal : Calendar} {days : Int} {reqs : List HistBarReq} {g : HistBarGetter}
    {s : Sequence} (h : Filed g s) (hkeyed : Keyed cal days reqs g) (hseq : Sequenced s)
    (hall : ∀ barReq ∈ reqs, NonEmpty cal barReq → SavedFor file cal days s barReq)
    {barReq : HistBarReq} (hmem : barReq ∈ reqs) (hrange : NonEmpty cal barReq) :
    Agrees file cal days reqs barReq := by
  obtain ⟨w, hw, hsymbol, _, hchunks, _⟩ := hall barReq hmem hrange
  obtain ⟨hwmem, hwpath⟩ := fileAt_mem file hw
  have hsaved : barReq.symbol ∈ s.saves := hsymbol ▸ List.mem_map_of_mem hwmem
  refine ⟨?_, ?_, ?_⟩
  · rw [← hsymbol, h.target_eq file hkeyed hwmem hmem hsymbol, hwpath]
  · rw [h.chunks_eq hkeyed hmem hrange, ← (h.requests hseq hsaved).2, hchunks]
  · intro other hother hotherRange hne hto
    -- the file would hold the bars of both symbols
    obtain ⟨w', hw', hsymbol', _⟩ := hall other hother hotherRange
    obtain ⟨hwmem', hwpath'⟩ := fileAt_mem file hw'
    have hsame : file other.savePath = file barReq.savePath := by
      have hto' := h.target_eq file hkeyed hwmem' hother hsymbol'
      rw [hsymbol', hto, hwpath'] at hto'
      exact (Option.some.inj hto').symm
    rw [fileAt, hsame, ← fileAt, hw] at hw'
    cases hw'
    exact hne (hsymbol'.symm.trans hsymbol)

/-- When a download is over whose replies were complete, `run` has nothing to wait
for. Its requests then all have their files exactly if they agree. -/
theorem downloads_saved_iff {cal : Calendar} {days : Int} {reqs : List HistBarReq}
    {g : HistBarGetter} (hg : HistBarGetter.init cal days reqs = .ok g) {s : Sequence}
    (hs : (sequence g).Reaches Complete s) (hover : Over s) :
    s.getter.remaining = 0 ∧
      ((∀ barReq ∈ reqs, NonEmpty cal barReq → SavedFor file cal days s barReq) ↔
        ∀ barReq ∈ reqs, NonEmpty cal barReq → Agrees file cal days reqs barReq) := by
  have hfiled := filed hg hs
  have hseq := sequenced (init_fresh hg).1 hs.reachable
  have hrouted := routed (init_fresh hg).1 hs
  have hkeyed := init_keyed hg
  refine ⟨?_, ?_, ?_⟩
  · rw [hfiled.remaining, Int.natCast_eq_zero, inProg, List.countP_eq_zero]
    intro symbol hsymbol
    have hsaved := hfiled.over hseq hrouted hover symbol (AList.mem_keys.mpr hsymbol)
    simp [hfiled.status symbol, hsaved]
  · exact fun hall barReq hmem hrange => hfiled.agrees file hkeyed hseq hall hmem hrange
  · exact fun hall barReq hmem hrange =>
      hfiled.savedFor file hkeyed hseq hrouted hover hmem hrange (hall barReq hmem hrange)

end Files

/-- The only chunk is requested, and one bar comes before its end. -/
def sonyMoves : List DownloadSequence.Move :=
  [.session (.run (.begin ["6758-STK-JPY.TSEJ"])), .session (.run .send),
    .session (.run .register), .session (.bar sonyBar), .session (.barEnd { id := 10000000 }),
    .session (.dispatch {}), .session (.dispatch { sorted := [sonyBar] }),
    .session (.run .finish)]

def sonySaved : Sequence :=
  ((sequence sonyGetter).restrict fun s a => decide (Complete s a)).stateAfter sonyMoves
    (by decide +kernel)

theorem downloads_saved_sony :
    sonySaved.getter.remaining = 0 ∧ SavedFor id january 2 sonySaved sonyReq := by
  have hsaved := downloads_saved_iff id sonyGetter_init (Machine.reaches_stateAfter _)
    (.inl (by decide +kernel) : Over sonySaved)
  exact ⟨hsaved.1, hsaved.2.mpr (by decide +kernel) sonyReq List.mem_cons_self (by decide)⟩

def bidReq : HistBarReq := { sonyReq with wts := "BID", savePath := "./sony_bid.csv" }

def bothGetter : HistBarGetter :=
  match HistBarGetter.init january 2 [sonyReq, bidReq] with
  | .ok g => g
  | .error _ => {}

theorem bothGetter_init : HistBarGetter.init january 2 [sonyReq, bidReq] = .ok bothGetter := by
  obtain ⟨g, hg⟩ := init_returns january [sonyReq, bidReq] (by decide : (0 : Int) < 2)
  rw [bothGetter, hg]

def bothSaved : Sequence :=
  ((sequence bothGetter).restrict fun s a => decide (Complete s a)).stateAfter sonyMoves
    (by decide +kernel)

/-- The first of two requests for one symbol gets no file. -/
theorem download_unsaved :
    ¬ ∀ (cal : Calendar) (days : Int) (reqs : List HistBarReq) (g : HistBarGetter),
      HistBarGetter.init cal days reqs = .ok g →
        ∀ s, (sequence g).Reaches Complete s → Over s →
          ∀ barReq ∈ reqs, NonEmpty cal barReq → SavedFor id cal days s barReq := by
  intro hall
  have hover : Over bothSaved := .inl (by decide +kernel)
  obtain ⟨w, hw, _⟩ := hall january 2 [sonyReq, bidReq] bothGetter bothGetter_init bothSaved
    (Machine.reaches_stateAfter _) hover sonyReq List.mem_cons_self (by decide)
  have hnone : fileAt id bothSaved.getter.saves "./sony.csv" = none := by decide +kernel
  cases hnone.symm.trans hw

end CalmTrading.SavedDownloads
