import CalmTrading.Connection
import CalmTrading.MarketFeed

namespace CalmTrading.Subscriptions

open Lib Objects Utils Gateway Connection Requests MarketData

/-- The market data manager over the sessions of the gateway. `sent` holds the
requests of the session at hand with the symbols they are for. History are the
symbols of the calls of `subscribe`: those made in the session at hand, those
made before it or without a connection, and those made with any connection.
`returned` is the symbol of the call that has just returned. -/
structure Link extends Client where
  mgr : MarketDataManager := {}
  sent : List (String × ClientMsg) := []
  here : List String := []
  earlier : List String := []
  live : List String := []
  returned : Option String := none

inductive Move
  | start (connects : Bool)
  | stop
  | subscribe (symbol : String) (delayed : Bool)

namespace Link

/-- TWS forgets the requests of a session that ends. -/
def endSession (s : Link) : Link :=
  { s with
    toClient := s.toClient.stop
    sent := []
    here := []
    earlier := s.here ++ s.earlier
    returned := none }

def called (s : Link) (symbol : String) (mgr : MarketDataManager) (out : Out) : Link :=
  { s with
    api := out.api
    mgr := mgr
    sent := s.sent ++ (s.placed out.client).map fun msg => (symbol, msg)
    here := if s.api.running then symbol :: s.here else s.here
    earlier := if s.api.running then s.earlier else symbol :: s.earlier
    live := if s.api.running then symbol :: s.live else s.live
    returned := some symbol }

def step (s : Link) : Move → Option Link
  | .start connects => some { s with toClient := s.toClient.start connects, returned := none }
  | .stop => some s.endSession
  | .subscribe symbol delayed =>
    let (mgr, forward) := s.mgr.subscribe symbol
    if forward then (s.api.subscribe symbol delayed).toOption.map (s.called symbol mgr)
    else some (s.called symbol mgr { api := s.api })

end Link

def link : Machine Link Move where
  init := {}
  step := Link.step

/-- Both tick-by-tick requests for the symbol went out in the session at hand. -/
def Issued (s : Link) (symbol : String) : Prop :=
  ∃ contract, generateContract symbol = .ok contract ∧
    (∃ id, (symbol, ClientMsg.reqTickByTickData id contract "Last") ∈ s.sent) ∧
    ∃ id, (symbol, ClientMsg.reqTickByTickData id contract "BidAsk") ∈ s.sent

/-- A call that returns with a connection has its requests out, and calls made
without one leave neither map with the symbol. -/
structure Subscribed (s : Link) : Prop where
  issued : ∀ symbol, s.returned = some symbol → s.api.running = true → Issued s symbol
  unblocked : ∀ symbol, symbol ∉ s.live →
    symbol ∉ s.mgr.lastTicks ∧ symbol ∉ s.api.sym2reqIds

/-- While the api is running `subscribe` is called on an open socket and for
symbols that it was not called for before the session, else for symbols that it was
called for while the api was running. -/
def FirstHere (s : Link) : Move → Prop
  | .subscribe symbol _ =>
    if s.api.running = true then s.socketOK = true ∧ symbol ∉ s.earlier else symbol ∈ s.live
  | _ => True

/-- What holds in every reachable state: the manager knows the symbols of all
calls, and the requests of the session are for the symbols first called for in
it. -/
structure Linked (s : Link) : Prop where
  known : ∀ symbol, symbol ∈ s.mgr.lastTicks ↔ symbol ∈ s.here ∨ symbol ∈ s.earlier
  requested : ∀ symbol, symbol ∈ s.api.sym2reqIds → symbol ∈ s.mgr.lastTicks
  offline : s.api.running = false → s.here = [] ∧ s.sent = []
  closed : s.socketOK = false → s.sent = []
  issued : s.socketOK = true → ∀ symbol, symbol ∈ s.here → symbol ∉ s.earlier → Issued s symbol
  sent : ∀ p ∈ s.sent, p.1 ∈ s.here ∧ p.1 ∉ s.earlier

inductive Called (s : Link) (symbol : String) : Link → Prop
  | known (hknown : symbol ∈ s.mgr.lastTicks) :
      Called s symbol (s.called symbol s.mgr { api := s.api })
  | offline (hnew : symbol ∉ s.mgr.lastTicks) (hoffline : s.api.running = false) :
      Called s symbol
        (s.called symbol { lastTicks := s.mgr.lastTicks.insert symbol {} } { api := s.api })
  | requested {contract : Contract} {out : Out} {msg : ClientMsg} {lastId bidAskId : Int}
      (hnew : symbol ∉ s.mgr.lastTicks) (hrunning : s.api.running = true)
      (hcontract : generateContract symbol = .ok contract) (hapi : out.api.running = true)
      (hids : ∀ sym, sym ∈ out.api.sym2reqIds ↔ sym = symbol ∨ sym ∈ s.api.sym2reqIds)
      (hclient : out.client = [msg, .reqTickByTickData lastId contract "Last",
        .reqTickByTickData bidAskId contract "BidAsk"]) :
      Called s symbol (s.called symbol { lastTicks := s.mgr.lastTicks.insert symbol {} } out)

theorem subscribe_called {s t : Link} (h : Linked s) {symbol : String} {delayed : Bool}
    (ht : s.step (.subscribe symbol delayed) = some t) : Called s symbol t := by
  simp only [Link.step, MarketDataManager.subscribe] at ht
  by_cases hnew : symbol ∈ s.mgr.lastTicks
  · simp only [hnew, if_true, Bool.false_eq_true, if_false, Option.some.injEq] at ht
    exact ht ▸ .known hnew
  · simp only [hnew, if_false, if_true] at ht
    obtain ⟨out, hout, rfl⟩ := toOption_map_eq_some.mp ht
    obtain ⟨rfl, hidle⟩ | ⟨hrunning, _, contract, hcontract, hapi, _, hclient⟩ :=
      subscribe_cases hout
    · obtain hoffline | hreq := hidle
      · exact .offline hnew hoffline
      · exact absurd (h.requested symbol hreq) hnew
    · refine .requested hnew hrunning hcontract (by rw [hapi]; exact hrunning) (fun sym => ?_)
        hclient
      rw [hapi]
      exact AList.mem_insert _

theorem Issued.mono {s t : Link} {symbol : String} (h : Issued s symbol)
    (hsent : ∀ p ∈ s.sent, p ∈ t.sent) : Issued t symbol := by
  obtain ⟨contract, hcontract, ⟨lastId, hlast⟩, bidAskId, hbidAsk⟩ := h
  exact ⟨contract, hcontract, ⟨lastId, hsent _ hlast⟩, bidAskId, hsent _ hbidAsk⟩

namespace Linked

variable {s t : Link}

theorem open_of_issued (h : Linked s) {symbol : String} (hi : Issued s symbol) :
    s.socketOK = true ∧ symbol ∉ s.earlier := by
  obtain ⟨_, _, ⟨_, hlast⟩, _⟩ := hi
  refine ⟨?_, (h.sent _ hlast).2⟩
  by_contra hclosed
  rw [h.closed (Bool.eq_false_iff.mpr hclosed)] at hlast
  cases hlast

theorem endSession (h : Linked s) : Linked s.endSession where
  known symbol := by
    rw [Link.endSession, h.known]
    simp
  requested symbol hsymbol := by
    simp only [Link.endSession, Client.stop_api] at hsymbol
    exact h.requested symbol hsymbol
  offline _ := ⟨rfl, rfl⟩
  closed _ := rfl
  issued := by simp [Link.endSession]
  sent := by simp [Link.endSession]

theorem start (h : Linked s) (connects : Bool) :
    Linked { s with toClient := s.toClient.start connects, returned := none } := by
  by_cases hrunning : s.api.running = true
  · rw [Client.start_running hrunning]
    exact ⟨h.known, h.requested, h.offline, h.closed, h.issued, h.sent⟩
  · obtain ⟨hhere, hsent⟩ := h.offline (Bool.eq_false_iff.mpr hrunning)
    obtain ⟨bRes, hapi⟩ := s.toClient.start_api connects
    refine ⟨h.known, ?_, fun _ => ⟨hhere, hsent⟩, fun _ => hsent, ?_, h.sent⟩
    · simp only [hapi]
      exact h.requested
    · simp [hhere]

/-- A call that sends nothing. -/
theorem quiet (h : Linked s) {symbol : String} {mgr : MarketDataManager}
    (hmgr : ∀ sym, sym ∈ mgr.lastTicks ↔ sym = symbol ∨ sym ∈ s.mgr.lastTicks)
    (hissued : s.api.running = true → symbol ∈ s.mgr.lastTicks) :
    Linked (s.called symbol mgr { api := s.api }) where
  known sym := by
    rw [Link.called, hmgr, h.known]
    split <;> simp only [List.mem_cons]
    · exact or_assoc.symm
    · exact or_left_comm
  requested sym hsym := (hmgr sym).mpr (.inr (h.requested sym hsym))
  offline hoffline := by
    have hoffline' : s.api.running = false := hoffline
    obtain ⟨hhere, hsent⟩ := h.offline hoffline'
    simp [Link.called, Client.placed, hoffline', hhere, hsent]
  closed hclosed := by simp [Link.called, Client.placed, h.closed hclosed]
  issued hopen sym hhere hearlier := by
    apply Issued.mono (h.issued hopen sym ?_ ?_) fun p hp => List.mem_append_left _ hp
    · simp only [Link.called] at hhere hearlier
      split at hhere
      · next hrunning =>
        rw [if_pos hrunning] at hearlier
        obtain rfl | hhere := List.mem_cons.mp hhere
        · exact ((h.known sym).mp (hissued hrunning)).resolve_right hearlier
        · exact hhere
      · exact hhere
    · simp only [Link.called] at hearlier
      split at hearlier
      · exact hearlier
      · exact fun hmem => hearlier (List.mem_cons_of_mem _ hmem)
  sent p hp := by
    have hp : p ∈ s.sent := by simpa [Link.called, Client.placed] using hp
    simp only [Link.called]
    obtain ⟨hhere, hearlier⟩ := h.sent p hp
    split
    · exact ⟨List.mem_cons_of_mem _ hhere, hearlier⟩
    · next hoffline =>
      rw [(h.offline (by simpa using hoffline)).1] at hhere
      cases hhere

theorem called (h : Linked s) {symbol : String} (ht : Called s symbol t) : Linked t := by
  cases ht with
  | known hknown =>
    apply h.quiet
    · exact fun sym => ⟨.inr, fun hsym => hsym.elim (fun he => he ▸ hknown) id⟩
    · exact fun _ => hknown
  | offline hnew hoffline =>
    apply h.quiet
    · exact fun sym => AList.mem_insert _
    · simp [hoffline]
  | @requested contract _ _ lastId bidAskId hnew hrunning hcontract hapi hids hclient =>
    have hnever : symbol ∉ s.here ∧ symbol ∉ s.earlier := by
      rw [h.known, not_or] at hnew
      exact hnew
    have hknown : ∀ sym, sym ∈ s.mgr.lastTicks.insert symbol ({} : TickData) ↔
        sym = symbol ∨ sym ∈ s.mgr.lastTicks := fun sym => AList.mem_insert _
    refine ⟨fun sym => ?_, fun sym hsym => ?_, ?_, fun hclosed => ?_,
      fun hopen sym hhere hearlier => ?_, fun p hp => ?_⟩
    · simp only [Link.called, hrunning, if_true, List.mem_cons]
      rw [hknown, h.known, or_assoc]
    · rw [Link.called, hknown]
      exact ((hids sym).mp hsym).imp_right (h.requested sym)
    · simp [Link.called, hapi]
    · have hclosed : s.socketOK = false := hclosed
      simp [Link.called, Client.placed, hclosed, h.closed hclosed]
    · have hup : s.socketOK = true := hopen
      simp only [Link.called, hrunning, if_true] at hhere hearlier
      obtain rfl | hhere := List.mem_cons.mp hhere
      · refine ⟨contract, hcontract, ⟨lastId, ?_⟩, bidAskId, ?_⟩ <;>
          simp [Link.called, Client.placed, hup, hclient]
      · exact (h.issued hup sym hhere hearlier).mono fun p hp => List.mem_append_left _ hp
    · simp only [Link.called, hrunning, if_true] at hp ⊢
      obtain hp | hp := List.mem_append.mp hp
      · obtain ⟨hhere, hearlier⟩ := h.sent p hp
        exact ⟨List.mem_cons_of_mem _ hhere, hearlier⟩
      · obtain ⟨msg, _, rfl⟩ := List.mem_map.mp hp
        exact ⟨List.mem_cons_self, hnever.2⟩

theorem step (h : Linked s) {a : Move} (ht : link.step s a = some t) : Linked t := by
  cases a with
  | start connects =>
    cases ht
    exact h.start connects
  | stop =>
    cases ht
    exact h.endSession
  | subscribe symbol delayed => exact h.called (subscribe_called h ht)

end Linked

/-- What every call leaves of the maps. -/
theorem Called.frame {s t : Link} {symbol : String} (ht : Called s symbol t) :
    t.returned = some symbol ∧ t.api.running = s.api.running ∧ t.socketOK = s.socketOK ∧
      t.earlier = (if s.api.running then s.earlier else symbol :: s.earlier) ∧
      t.here = (if s.api.running then symbol :: s.here else s.here) ∧
      t.live = (if s.api.running then symbol :: s.live else s.live) ∧
      symbol ∈ t.mgr.lastTicks ∧
      (∀ sym, sym ∈ t.mgr.lastTicks → sym = symbol ∨ sym ∈ s.mgr.lastTicks) ∧
      ∀ sym, sym ∈ t.api.sym2reqIds → sym = symbol ∨ sym ∈ s.api.sym2reqIds := by
  cases ht with
  | known hknown => exact ⟨rfl, rfl, rfl, rfl, rfl, rfl, hknown, fun _ => .inr, fun _ => .inr⟩
  | offline =>
    refine ⟨rfl, rfl, rfl, rfl, rfl, rfl, (AList.mem_insert _).mpr (.inl rfl), ?_, fun _ => .inr⟩
    exact fun sym hsym => (AList.mem_insert _).mp hsym
  | requested _ hrunning _ hapi hids _ =>
    refine ⟨rfl, hapi.trans hrunning.symm, rfl, rfl, rfl, rfl, (AList.mem_insert _).mpr (.inl rfl),
      ?_, fun sym => (hids sym).mp⟩
    exact fun sym hsym => (AList.mem_insert _).mp hsym

/-- After the first connection no later session has an open socket. -/
theorem closed_for_good {s t : Link} (hs : s.hasReader = true ∧ s.socketOK = false)
    {as : List Move} (ht : link.run s as = some t) : t.hasReader = true ∧ t.socketOK = false := by
  refine Machine.run_invariant (I := fun s => s.hasReader = true ∧ s.socketOK = false) ?_ hs ht
  rintro s a t ⟨hreader, hclosed⟩ ht
  cases a with
  | start connects =>
    cases ht
    exact Client.start_socketOK hreader hclosed connects
  | stop =>
    cases ht
    obtain ⟨hsame, hclosed⟩ := Client.stop_socketOK hclosed
    exact ⟨hsame.trans hreader, hclosed⟩
  | subscribe symbol delayed =>
    simp only [link, Link.step] at ht
    split at ht
    · obtain ⟨out, _, rfl⟩ := toOption_map_eq_some.mp ht
      exact ⟨hreader, hclosed⟩
    · cases ht
      exact ⟨hreader, hclosed⟩

theorem subscribed_call {s t : Link} {symbol : String} {delayed : Bool} (h : Linked s)
    (hp : Subscribed s) (ht : Called s symbol t) :
    Subscribed t ↔ FirstHere s (.subscribe symbol delayed) := by
  have hlinked := h.called ht
  obtain ⟨hreturned, hrunning, hopen, hearlier, hhere, hlive, hmem, hticks, hids⟩ := ht.frame
  rw [FirstHere]
  by_cases hup : s.api.running = true
  · simp only [hup, if_true] at hrunning hearlier hhere hlive ⊢
    constructor
    · intro hsub
      rw [← hearlier, ← hopen]
      exact hlinked.open_of_issued (hsub.issued symbol hreturned hrunning)
    · rintro ⟨hsocket, hfirst⟩
      refine ⟨fun sym hsym _ => ?_, fun sym hsym => ?_⟩
      · rw [hreturned, Option.some.injEq] at hsym
        subst hsym
        exact hlinked.issued (hopen ▸ hsocket) symbol (hhere ▸ List.mem_cons_self)
          (hearlier ▸ hfirst)
      · rw [hlive, List.mem_cons, not_or] at hsym
        obtain ⟨hnoTick, hnoId⟩ := hp.unblocked sym hsym.2
        exact ⟨fun hin => (hticks sym hin).elim hsym.1 hnoTick,
          fun hin => (hids sym hin).elim hsym.1 hnoId⟩
  · simp only [hup, if_false, Bool.false_eq_true] at hrunning hlive ⊢
    constructor
    · intro hsub
      by_contra hnot
      exact (hsub.unblocked symbol (hlive ▸ hnot)).1 hmem
    · intro hold
      refine ⟨fun sym _ hrun => absurd hrun (by simp [hrunning]), fun sym hsym => ?_⟩
      rw [hlive] at hsym
      have hne : sym ≠ symbol := fun he => hsym (he ▸ hold)
      obtain ⟨hnoTick, hnoId⟩ := hp.unblocked sym hsym
      exact ⟨fun hin => (hticks sym hin).elim hne hnoTick,
        fun hin => (hids sym hin).elim hne hnoId⟩

theorem subscribed_step {s t : Link} {a : Move} (h : Linked s) (hp : Subscribed s)
    (ht : link.step s a = some t) : Subscribed t ↔ FirstHere s a := by
  cases a with
  | start connects =>
    cases ht
    obtain ⟨bRes, hapi⟩ := s.toClient.start_api connects
    refine iff_of_true ⟨fun _ hsym => (by cases hsym), fun symbol hsymbol => ?_⟩ trivial
    simp only [hapi]
    exact hp.unblocked symbol hsymbol
  | stop =>
    cases ht
    refine iff_of_true ⟨fun _ hsym => (by cases hsym), fun symbol hsymbol => ?_⟩ trivial
    simp only [Link.endSession, Client.stop_api]
    exact hp.unblocked symbol hsymbol
  | subscribe symbol delayed => exact subscribed_call h hp (subscribe_called h ht)

theorem subscribe_reaches_broker_iff (as : List Move) :
    link.StatesAll Subscribed link.init as ↔ link.StepsAll FirstHere link.init as := by
  apply Machine.statesAll_iff_stepsAll (I := Linked)
  · exact fun _ _ _ h ht => h.step ht
  · exact fun _ _ _ h hp ht => subscribed_step h hp ht
  · constructor <;> simp [link]
  · constructor <;> simp [link]

def startedLate : List Move :=
  [.subscribe "6758-STK-JPY.TSEJ" false, .start true, .subscribe "6758-STK-JPY.TSEJ" false]

theorem subscribe_never_sent : ¬ ∀ s, link.Reachable s → Subscribed s := by
  intro hall
  have hrun : ((link.run link.init startedLate).map fun s =>
      (s.returned, s.api.running, s.sent)) = some (some "6758-STK-JPY.TSEJ", true, []) := by
    decide +kernel
  obtain ⟨s, hs, hend⟩ := Machine.exists_reachable_of_run hrun
  obtain ⟨hreturned, hend⟩ := Prod.mk.inj hend
  obtain ⟨hrunning, hsent⟩ := Prod.mk.inj hend
  have hsub := hall s hs
  obtain ⟨_, _, ⟨id, hlast⟩, _⟩ := hsub.issued _ hreturned hrunning
  rw [hsent] at hlast
  cases hlast

end CalmTrading.Subscriptions
