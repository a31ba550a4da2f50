import CalmTrading.Download
import CalmTrading.Lib.Machine

namespace CalmTrading.DownloadSession

open Lib Objects Utils Gateway Requests HistoricalData Download

/-- The download with the broker and the event thread. `opened` holds the ids of
the requests whose end the broker has yet to deliver. The last four fields are
history: the requests of `run`, oldest first, with their ids, the symbols they were
for, the bars delivered for them, and the replies to them that were discarded as
unknown. -/
structure Session where
  runner : Runner
  opened : List Int := []
  eventQueue : List Event := []
  sends : List (Int × IBHistBarReq) := []
  sent : Table Int String := ∅
  delivered : List HistBar := []
  dropped : List Int := []

inductive Move
  | run (m : RunMove)
  | bar (bar : HistBar)
  | barEnd (barEnd : HistBarEnd)
  | error (msg : ErrMsg)
  | contractDetails (symbol : String)
  | post (e : Event)
  | dispatch (outcome : Outcome)

def reply? : Event → Option Int
  | .histBar bar => some bar.id
  | .histBarEnd barEnd => some barEnd.id
  | _ => none

namespace Session

/-- The request that a step of `run` sends, as the client has it. The contract no
longer shows the symbol, which is that of the chunk at the head of the queue. -/
def request? (before : Runner) : List ClientMsg → Option (Int × IBHistBarReq)
  | [.reqHistoricalData reqId _ endTime duration barSize wts _ _] =>
    before.getter.q.head?.map fun req =>
      (reqId,
        { symbol := req.symbol, «end» := endTime, dur := duration, barSize := barSize, wts := wts })
  | _ => none

def ran (s : Session) (r : Runner) (client : List ClientMsg) : Session :=
  match request? s.runner client with
  | some (reqId, req) =>
    { s with
      runner := r
      opened := s.opened ++ [reqId]
      sends := s.sends ++ [(reqId, req)]
      sent := s.sent.insert reqId req.symbol }
  | none => { s with runner := r }

def after (s : Session) (out : Out) : Session :=
  { s with
    runner := { s.runner with api := out.api }
    eventQueue := s.eventQueue ++ out.events }

/-- The callbacks that the getter registers with the event engine. -/
def handle (g : HistBarGetter) (outcome : Outcome) : Event → Option HistBarGetter
  | .histBar bar => some (g.processHistBar bar)
  | .histBarEnd barEnd =>
    if g.Admits barEnd outcome then (g.processHistBarEnd barEnd outcome).toOption else none
  | .ibErrMsg msg => some (g.processErrMsg msg)
  | _ => some g

/-- The reply to a request of `run` that an event is, if the getter does not
know the request. -/
def discarded (s : Session) (e : Event) : List Int :=
  ((reply? e).filter fun id => id ∈ s.sent ∧ id ∉ s.runner.getter.reqIdSym).toList

/-- The broker delivers bars for an open request and then, once, its end. -/
def step (s : Session) : Move → Option Session
  | .run m => (s.runner.step m).map fun (r, client) => s.ran r client
  | .bar bar =>
    if bar.id ∈ s.opened then
      some { s.after (s.runner.api.historicalData bar) with delivered := bar :: s.delivered }
    else none
  | .barEnd barEnd =>
    if barEnd.id ∈ s.opened then
      some
        { s.after (s.runner.api.historicalDataEnd barEnd) with
          opened := s.opened.erase barEnd.id }
    else none
  | .error msg => some (s.after (s.runner.api.error msg))
  | .contractDetails symbol => (s.runner.api.reqContractDetails symbol).toOption.map s.after
  | .post e => if reply? e = none then some { s with eventQueue := s.eventQueue ++ [e] } else none
  | .dispatch outcome =>
    match s.eventQueue with
    | [] => none
    | e :: rest =>
      (handle s.runner.getter outcome e).map fun g =>
        { s with
          runner := { s.runner with getter := g }
          eventQueue := rest
          dropped := s.discarded e ++ s.dropped }

end Session

def session (g : HistBarGetter) : Machine Session Move where
  init := { runner := { getter := g } }
  step := Session.step

inductive Moved (s : Session) : Move → Session → Prop
  | run {m : RunMove} {r : Runner} {client : List ClientMsg} (hr : Ran s.runner r client) :
      Moved s (.run m) (s.ran r client)
  | bar {bar : HistBar} (hopen : bar.id ∈ s.opened) :
      Moved s (.bar bar)
        { s with
          eventQueue := s.eventQueue ++ [.histBar bar]
          delivered := bar :: s.delivered }
  | barEnd {barEnd : HistBarEnd} (hopen : barEnd.id ∈ s.opened) :
      Moved s (.barEnd barEnd)
        { s with
          opened := s.opened.erase barEnd.id
          eventQueue := s.eventQueue ++ [.histBarEnd barEnd] }
  | quiet {a : Move} {api : IBApi} {es : List Event} (ha : ∀ outcome, a ≠ .dispatch outcome)
      (hapi : s.runner.api.mReqId ≤ api.mReqId) (hes : ∀ e ∈ es, reply? e = none) :
      Moved s a
        { s with runner := { s.runner with api := api }, eventQueue := s.eventQueue ++ es }
  | dispatch {outcome : Outcome} {e : Event} {rest : List Event} {g : HistBarGetter}
      (hq : s.eventQueue = e :: rest)
      (hg : Session.handle s.runner.getter outcome e = some g) :
      Moved s (.dispatch outcome)
        { s with
          runner := { s.runner with getter := g }
          eventQueue := rest
          dropped := s.discarded e ++ s.dropped }

/-- The rows show the times of all bars that came for a symbol. -/
def Covers (s : Session) (symbol : String) (rows : List HistBar) : Prop :=
  ∀ bar ∈ s.delivered, s.sent.lookup bar.id = some symbol → ∃ row ∈ rows, row.time = bar.time

def endId? : Event → Option Int
  | .histBarEnd barEnd => some barEnd.id
  | _ => none

def barId? : Event → Option Int
  | .histBar bar => some bar.id
  | _ => none

theorem reply?_of_endId? {e : Event} {id : Int} (h : endId? e = some id) : reply? e = some id := by
  cases e <;> simp_all [endId?, reply?]

theorem reply?_of_barId? {e : Event} {id : Int} (h : barId? e = some id) : reply? e = some id := by
  cases e <;> simp_all [barId?, reply?]

theorem endId?_eq_none {e : Event} (h : reply? e = none) : endId? e = none := by
  cases hend : endId? e with
  | none => rfl
  | some id => simp [reply?_of_endId? hend] at h

theorem barId?_eq_none {e : Event} (h : reply? e = none) : barId? e = none := by
  cases hbar : barId? e with
  | none => rfl
  | some id => simp [reply?_of_barId? hbar] at h

theorem forall_reply_singleton {e : Event} {id : Int} {P : Int → Prop} (he : reply? e = some id)
    (hid : P id) : ∀ f ∈ [e], ∀ i ∈ reply? f, P i := by
  intro f hf i hi
  cases List.mem_singleton.mp hf
  cases he.symm.trans hi
  exact hid

theorem discarded_eq_nil {s : Session} {e : Event} :
    s.discarded e = [] ↔
      ∀ id, reply? e = some id → id ∈ s.sent → id ∈ s.runner.getter.reqIdSym := by
  cases hreply : reply? e with
  | none => simp [Session.discarded, hreply]
  | some id => simp [Session.discarded, hreply, Option.filter_some]

theorem error_mReqId (api : IBApi) (msg : ErrMsg) : (api.error msg).api.mReqId = api.mReqId := by
  rw [IBApi.error, IBApi.updateOrder]
  split <;> rfl

theorem error_quiet (api : IBApi) (msg : ErrMsg) :
    ∀ e ∈ (api.error msg).events, reply? e = none := by
  rw [IBApi.error, IBApi.updateOrder]
  split <;> simp [reply?]

theorem step_moved {g : HistBarGetter} {s t : Session} {a : Move}
    (ht : (session g).step s a = some t) : Moved s a t := by
  cases a with
  | run m =>
    obtain ⟨⟨r, client⟩, hr, rfl⟩ := Option.map_eq_some_iff.mp ht
    exact .run (step_ran hr)
  | bar bar =>
    simp only [session, Session.step] at ht
    split at ht
    · next hopen =>
      cases ht
      exact .bar hopen
    · cases ht
  | barEnd barEnd =>
    simp only [session, Session.step] at ht
    split at ht
    · next hopen =>
      cases ht
      exact .barEnd hopen
    · cases ht
  | error msg =>
    cases ht
    apply Moved.quiet (by simp)
    · exact Int.le_of_eq (error_mReqId s.runner.api msg).symm
    · exact error_quiet s.runner.api msg
  | contractDetails symbol =>
    obtain ⟨out, hout, rfl⟩ := toOption_map_eq_some.mp ht
    obtain ⟨contract, rfl⟩ := reqContractDetails_eq_ok hout
    apply Moved.quiet (by simp)
    · dsimp only
      omega
    · simp
  | post e =>
    simp only [session, Session.step] at ht
    split at ht
    · next he =>
      cases ht
      exact .quiet (by simp) (Int.le_refl _) (by simpa using he)
    · cases ht
  | dispatch outcome =>
    simp only [session, Session.step] at ht
    split at ht
    · cases ht
    · next hq =>
      obtain ⟨g', hg', rfl⟩ := Option.map_eq_some_iff.mp ht
      exact .dispatch hq hg'

end CalmTrading.DownloadSession
